import Os161.KheapFresh

/-! `kfree`: finding the page, putting the block back, and giving the page up when all of it
is free. -/
namespace Os161
namespace Heap

variable {h : Heap} {blocks : List Alloc} {all : List Nat} {same free : Nat → List Nat}

/-! Live blocks -/

theorem roomOf_pos (sz : Nat) : 0 < roomOf sz := by
  by_cases small : sz < 2048
  · rw [roomOf_small small]
    exact sizes_pos (blocktypeOf_lt small.le)
  · have := le_inPages sz
    rw [roomOf_large (Nat.not_lt.1 small)]
    omega

variable {b : Alloc}

theorem Shape.ptr_ne (shape : h.Shape blocks all same free) {c : Alloc} (inB : b ∈ blocks)
    (inC : c ∈ blocks.erase b) : c.ptr ≠ b.ptr := by
  have apart : (b :: blocks.erase b).Pairwise Alloc.Apart := by
    refine (List.perm_cons_erase inB).pairwise shape.disjoint ?_
    exact fun {x y} h => h.symm
  have := (List.pairwise_cons.1 apart).1 c inC
  have := roomOf_pos b.sz
  have := roomOf_pos c.sz
  unfold Alloc.Apart at *
  omega

theorem Shape.write (shape : h.Shape blocks all same free) (live : b ∈ blocks) {h' : Heap}
    (rest : h' = { h with memory := h'.memory })
    (outside : ∀ a, ¬(b.ptr ≤ a ∧ a < b.ptr + roomOf b.sz) → h'.memory a = h.memory a) :
    h'.Shape blocks all same free := by
  have refs : h'.pagerefs = h.pagerefs := by rw [rest]
  have kept : h.SamePages h' := by
    rw [rest]
    exact ⟨rfl,rfl,fun _ => Iff.rfl,fun _ => rfl,fun _ => rfl,fun _ => rfl⟩
  refine ⟨shape.pages.congr kept,fun j inJ => ?_,fun c inC => ?_,shape.disjoint⟩
  · refine (shape.lists j inJ).congr (by rw [refs]) (by rw [refs]) (by rw [refs]) fun a unused => ?_
    have apart := shape.free_apart inJ unused live
    have positive := Pageref.size_pos (shape.pages.type j inJ)
    exact outside a (by omega)
  · exact (shape.placed c inC).congr (fun j _ => by rw [refs]) fun _ _ h => h

/-! The page of a block -/

variable {list : List Nat}

theorem searchPage_spec (ptr : Nat) (typed : ∀ j ∈ list, (h.pagerefs j).blocktype < nsizes)
    (pages : ∀ j ∈ list, KernelPages (h.pagerefs j).pageaddr 4096) {fuel : Nat} {head : Option Nat}
    (enough : list.length < fuel) (heads : Links.Heads h.allLinks.next head list) :
    (searchPage ptr fuel head).wp h
      (fun r h' => h' = h ∧
        (∀ j, r = some j → j ∈ list ∧ (h.pagerefs j).pageaddr ≤ ptr ∧ ptr < (h.pagerefs j).pageaddr + 4096) ∧
        (r = none → ∀ j ∈ list, ptr < (h.pagerefs j).pageaddr ∨ (h.pagerefs j).pageaddr + 4096 ≤ ptr))
      never never := by
  induction fuel generalizing head list with
  | zero => exact absurd enough (Nat.not_lt_zero _)
  | succ fuel ih =>
    cases heads with
    | nil =>
      exact ⟨rfl,fun j found => absurd found (Option.some_ne_none j).symm,
        fun _ j member => absurd member List.not_mem_nil⟩
    | @cons j list rest =>
      have high := (pages j (by simp)).high
      have top : add32 (h.pagerefs j).pageaddr 4096 = (h.pagerefs j).pageaddr + 4096 := add32_eq (by omega)
      have type := typed j (by simp)
      simp only [searchPage,wp_bind,wp_read,wp_assert,type,decide_true,if_true,top]
      split
      · next inside =>
        refine ⟨rfl,fun i found => ?_,fun none => absurd none (Option.some_ne_none _)⟩
        cases found
        exact ⟨by simp,inside.1,inside.2⟩
      · next outside =>
        refine wp_imp (ih (fun i member => typed i (List.mem_cons_of_mem _ member))
          (fun i member => pages i (List.mem_cons_of_mem _ member))
          (Nat.lt_of_succ_lt_succ enough) rest) ?_
        rintro r h' ⟨kept,found,missing⟩
        refine ⟨kept,fun i is => ⟨List.mem_cons_of_mem _ (found i is).1,(found i is).2⟩,fun none i member => ?_⟩
        rcases List.mem_cons.1 member with rfl | later
        · omega
        · exact missing none i later

variable {j : Nat}

theorem Shape.page_unique (shape : h.Shape blocks all same free) {i ptr : Nat} (inI : i ∈ all)
    (inJ : j ∈ all) (slot : h.Slot j ptr) (low : (h.pagerefs i).pageaddr ≤ ptr)
    (high : ptr < (h.pagerefs i).pageaddr + 4096) : i = j := by
  by_contra differ
  have apart := shape.pages.page_apart inI inJ differ
  have inside := slot.inside (shape.pages.type j inJ)
  have positive := Pageref.size_pos (shape.pages.type j inJ)
  omega

/-! Filling a block word by word -/

theorem fill_spec (h : Heap) (value : Heap → Nat → Nat) (ptr count : Nat) (small : ptr + 4 * count < 2^32) :
    let filled := (List.range count).foldl (fun h i => h.store (add32 ptr (4 * i)) (value h i)) h
    filled = { h with memory := filled.memory } ∧
      ∀ a, ¬(ptr ≤ a ∧ a < ptr + 4 * count) → filled.memory a = h.memory a := by
  induction count with
  | zero => exact ⟨rfl,fun _ _ => rfl⟩
  | succ count ih =>
    obtain ⟨rest,outside⟩ := ih (by omega)
    rw [List.range_succ,List.foldl_append,List.foldl_cons,List.foldl_nil]
    dsimp only at rest outside ⊢
    refine ⟨?_,fun a away => ?_⟩
    · rw [rest]
      rfl
    · have here : add32 ptr (4 * count) = ptr + 4 * count := add32_eq (by omega)
      rw [store_other _ (by omega)]
      exact outside a (by omega)

/-! Putting the block back -/

structure Pushed (h : Heap) (j a : Nat) (list : List Nat) (h' : Heap) : Prop where
  pages : h.SamePages h'
  memory : ∀ x, x ≠ a → h'.memory x = h.memory x
  others : ∀ i, i ≠ j → h'.pagerefs i = h.pagerefs i
  nfree : (h'.pagerefs j).nfree = (h.pagerefs j).nfree + 1
  list : h'.FreeList j (a :: list)

variable {next : Nat}

theorem FreeList.pushed (free : h.FreeList j list) (offset : Nat)
    (slot : h.Slot j ((h.pagerefs j).pageaddr + offset)) (valid : offset ≠ invalidOffset)
    (unlisted : (h.pagerefs j).pageaddr + offset ∉ list)
    (link : (if next = 0 then none else some next) = (h.freeLinks j).base) :
    Pushed h j ((h.pagerefs j).pageaddr + offset) list
      ((h.store ((h.pagerefs j).pageaddr + offset) next).update j fun p =>
        { p with freelistOffset := offset, nfree := (h.pagerefs j).nfree + 1 }) := by
  have apart : ∀ x ∈ list, x ≠ (h.pagerefs j).pageaddr + offset := by
    rintro x member rfl
    exact unlisted member
  constructor
  · exact ⟨rfl,rfl,fun _ => Iff.rfl,update_field Pageref.nextAll _ j _ rfl,
      update_field Pageref.nextSamesize _ j _ rfl,update_field Pageref.pageaddrAndBlocktype _ j _ rfl⟩
  · exact fun x differ => store_other h differ
  · exact fun i differ => update_other _ _ differ
  · rw [update_self]
  · constructor
    · refine free.listed.push ?_ ?_ fun x member => linksOf_congr (store_other h (apart x member))
      · simp only [freeLinks,update_self,if_neg valid]
        rfl
      · rw [← link]
        simp only [freeLinks,linksOf]
        rw [show ((h.store ((h.pagerefs j).pageaddr + offset) next).update j _).memory =
          (h.store ((h.pagerefs j).pageaddr + offset) next).memory from rfl,store_self]
    · rw [update_self,List.length_cons,free.count]
    · intro x member
      refine Slot.congr (h := h) ?_ (update_field Pageref.pageaddrAndBlocktype _ j _ rfl j)
      rcases List.mem_cons.1 member with rfl | old
      · exact slot
      · exact free.slot x old

theorem Shape.give (shape : h.Shape blocks all same free) (inJ : j ∈ all)
    (live : b ∈ blocks) {h' : Heap} (pushed : Pushed h j b.ptr (free j) h') :
    h'.Shape (blocks.erase b) all same (Function.update free j (b.ptr :: free j)) := by
  have outside : ∀ i ∈ all, i ≠ j → ∀ a ∈ free i, a ≠ b.ptr := fun i inI _ a unused =>
    shape.free_ne_live inI unused live
  constructor
  · exact shape.pages.congr pushed.pages
  · intro i inI
    by_cases here : i = j
    · subst here
      rw [Function.update_self]
      exact pushed.list
    · rw [Function.update_of_ne here]
      exact (shape.lists i inI).congr (pushed.pages.page i) (by rw [pushed.others i here])
        (by rw [pushed.others i here]) fun a unused => pushed.memory a (outside i inI here a unused)
  · intro c inC
    refine (shape.placed c (List.mem_of_mem_erase inC)).congr (fun i _ => pushed.pages.page i)
      fun i _ again => ?_
    by_cases here : i = j
    · subst here
      rw [Function.update_self] at again
      exact (List.mem_cons.1 again).resolve_left (shape.ptr_ne live inC)
    · rwa [Function.update_of_ne here] at again
  · exact shape.disjoint.sublist List.erase_sublist

/-! Giving the page up -/

structure Relinked (h h' : Heap) : Prop where
  page : ∀ i, (h'.pagerefs i).pageaddrAndBlocktype = (h.pagerefs i).pageaddrAndBlocktype
  offset : ∀ i, (h'.pagerefs i).freelistOffset = (h.pagerefs i).freelistOffset
  nfree : ∀ i, (h'.pagerefs i).nfree = (h.pagerefs i).nfree
  words : h'.pagerefsInuse = h.pagerefsInuse
  memory : h'.memory = h.memory

theorem update_relinked (h : Heap) (i : Nat) (f : Pageref → Pageref)
    (page : (f (h.pagerefs i)).pageaddrAndBlocktype = (h.pagerefs i).pageaddrAndBlocktype)
    (offset : (f (h.pagerefs i)).freelistOffset = (h.pagerefs i).freelistOffset)
    (nfree : (f (h.pagerefs i)).nfree = (h.pagerefs i).nfree) : Relinked h (h.update i f) :=
  ⟨update_field Pageref.pageaddrAndBlocktype h i f page,update_field Pageref.freelistOffset h i f offset,
    update_field Pageref.nfree h i f nfree,rfl,rfl⟩

theorem writeSame_relinked (h : Heap) (b : Nat) (target : Option Nat) (guy : Links.Place Nat) :
    Relinked h (h.writeSame b target guy) := by
  cases guy with
  | base => exact ⟨fun _ => rfl,fun _ => rfl,fun _ => rfl,rfl,rfl⟩
  | next i => exact update_relinked h i (fun p => { p with nextSamesize := target }) rfl rfl rfl

theorem writeAll_relinked (h : Heap) (target : Option Nat) (guy : Links.Place Nat) :
    Relinked h (h.writeAll target guy) := by
  cases guy with
  | base => exact ⟨fun _ => rfl,fun _ => rfl,fun _ => rfl,rfl,rfl⟩
  | next i => exact update_relinked h i (fun p => { p with nextAll := target }) rfl rfl rfl

theorem sameLinks_writeSame (h : Heap) (b : Nat) (target : Option Nat) (guy : Links.Place Nat) :
    (h.writeSame b target guy).sameLinks b = (h.sameLinks b).set guy target := by
  cases guy with
  | base => simp only [writeSame,sameLinks,Links.set,Function.update_self]
  | next i =>
    simp only [writeSame,sameLinks,Links.set,update]
    congr 1
    funext k
    simp only [Function.update_apply]
    split <;> rfl

theorem allLinks_writeSame (h : Heap) (b : Nat) (target : Option Nat) (guy : Links.Place Nat) :
    (h.writeSame b target guy).allLinks = h.allLinks := by
  cases guy with
  | base => rfl
  | next i =>
    simp only [writeSame,allLinks]
    congr 1
    funext k
    exact update_field Pageref.nextAll h i _ rfl k

theorem allLinks_writeAll (h : Heap) (target : Option Nat) (guy : Links.Place Nat) :
    (h.writeAll target guy).allLinks = h.allLinks.set guy target := by
  cases guy with
  | base => rfl
  | next i =>
    simp only [writeAll,allLinks,Links.set,update]
    congr 1
    funext k
    simp only [Function.update_apply]
    split <;> rfl

theorem sameLinks_writeAll (h : Heap) (b : Nat) (target : Option Nat) (guy : Links.Place Nat) :
    (h.writeAll target guy).sameLinks b = h.sameLinks b := by
  cases guy with
  | base => rfl
  | next i =>
    simp only [writeAll,sameLinks]
    congr 1
    funext k
    exact update_field Pageref.nextSamesize h i _ rfl k

theorem sameLinks_writeSame_other {b c : Nat} (differ : c ≠ b) {list' : List Nat}
    (lists : (h.sameLinks c).Lists list) (target : Option Nat) {guy : Links.Place Nat}
    (inside : ∀ i, guy = .next i → i ∈ list') (apart : ∀ i ∈ list', i ∉ list) :
    ((h.writeSame b target guy).sameLinks c).Lists list := by
  cases guy with
  | base =>
    refine lists.congr ?_ fun _ _ => rfl
    simp only [writeSame,sameLinks,Function.update_of_ne differ]
  | next i =>
    refine lists.congr rfl fun k member => ?_
    have other : k ≠ i := by
      rintro rfl
      exact apart k (inside k rfl) member
    simp only [writeSame,sameLinks,update_other h _ other]

theorem unlinkPageref_spec {links : Heap → Links Nat} {write : Heap → Option Nat → Links.Place Nat → Heap} {pr : Nat} (lists : (links h).Lists list) (member : pr ∈ list)
    (short : list.length < npagerefs + 1) :
    (unlinkPageref links write pr).wp h
      (fun _ h' => ∃ guy, h' = write h ((links h).next pr) guy ∧
        ((links h).set guy ((links h).next pr)).Lists (list.erase pr) ∧ ∀ i, guy = .next i → i ∈ list)
      never never := by
  obtain ⟨guy,found,unlinked,inside⟩ := lists.unlink member short
  simp only [unlinkPageref,wp_bind,wp_read,found,wp_modify]
  exact ⟨guy,rfl,unlinked,inside⟩

structure Unlisted (h : Heap) (all : List Nat) (same : Nat → List Nat) (j : Nat) (h' : Heap) : Prop where
  relinked : Relinked h h'
  listed : h'.allLinks.Lists (all.erase j)
  typed : ∀ b, b < nsizes → (h'.sameLinks b).Lists ((same b).erase j)

theorem removeLists_spec (pages : h.Pages all same) (inJ : j ∈ all) :
    (removeLists j (h.pagerefs j).blocktype).wp h (fun _ h' => Unlisted h all same j h')
      never never := by
  have type := pages.type j inJ
  have inSame := (pages.types _ type j).2 ⟨inJ,rfl⟩
  simp only [removeLists,wp_bind,wp_assert,type,decide_true,if_true]
  generalize sort : (h.pagerefs j).blocktype = b at type inSame ⊢
  refine wp_imp (unlinkPageref_spec (pages.typed b type) inSame (pages.length_same type)) ?_
  rintro _ h1 ⟨guy,rfl,unlinked,inside⟩
  rw [← sameLinks_writeSame] at unlinked
  have listed : (h.writeSame b ((h.sameLinks b).next j) guy).allLinks.Lists all := by
    rw [allLinks_writeSame]
    exact pages.listed
  refine wp_imp (unlinkPageref_spec listed inJ pages.length_all) ?_
  rintro _ h2 ⟨guy',rfl,unlinked',_⟩
  rw [← allLinks_writeAll] at unlinked'
  have first := writeSame_relinked h b ((h.sameLinks b).next j) guy
  have second := writeAll_relinked (h.writeSame b ((h.sameLinks b).next j) guy)
    ((h.writeSame b ((h.sameLinks b).next j) guy).allLinks.next j) guy'
  refine ⟨⟨fun i => (second.page i).trans (first.page i),fun i => (second.offset i).trans (first.offset i),
    fun i => (second.nfree i).trans (first.nfree i),second.words.trans first.words,
    second.memory.trans first.memory⟩,unlinked',fun c small => ?_⟩
  rw [sameLinks_writeAll]
  by_cases here : c = b
  · subst here
    exact unlinked
  · have outside : j ∉ same c := fun member => here (((pages.types c small j).1 member).2.symm.trans sort)
    rw [List.erase_of_not_mem outside]
    refine sameLinks_writeSame_other here (pages.typed c small) _ inside fun i member again => here ?_
    exact ((pages.types c small i).1 again).2.symm.trans ((pages.types b type i).1 member).2

section
variable (shape : h.Shape blocks all same free)
include shape

theorem Shape.idle (inJ : j ∈ all)
    (full : (h.pagerefs j).nfree = 4096 / (h.pagerefs j).size) {a : Nat} (slot : h.Slot j a) : a ∈ free j := by
  have list := shape.lists j inJ
  have perm : (free j).Perm (h.slots j) := (slots_subperm list.listed.nodup list.slot).perm_of_length_le (by
    rw [length_slots,list.count,full])
  exact perm.mem_iff.2 (mem_slots.2 slot)

theorem Shape.close (inJ : j ∈ all)
    (full : (h.pagerefs j).nfree = 4096 / (h.pagerefs j).size) {h1 h2 : Heap}
    (unlisted : Unlisted h all same j h1) (kept : SameButInuse h1 h2)
    (inuse : ∀ i, h2.Inuse i ↔ i ≠ j ∧ h1.Inuse i) :
    h2.Shape blocks (all.erase j) (fun b => (same b).erase j) free := by
  have page : ∀ i, (h2.pagerefs i).pageaddrAndBlocktype = (h.pagerefs i).pageaddrAndBlocktype := fun i => by
    rw [kept.pagerefs,unlisted.relinked.page]
  have type : ∀ i, (h2.pagerefs i).blocktype = (h.pagerefs i).blocktype := fun i => by
    rw [Pageref.blocktype,page,Pageref.blocktype]
  have memory : h2.memory = h.memory := kept.memory.trans unlisted.relinked.memory
  have members : ∀ i, i ∈ all.erase j ↔ i ≠ j ∧ i ∈ all := fun i => shape.pages.listed.nodup.mem_erase_iff
  have allLinks : h2.allLinks = h1.allLinks := by simp only [Heap.allLinks,kept.all,kept.pagerefs]
  have sameLinks : ∀ b, h2.sameLinks b = h1.sameLinks b := fun b => by
    simp only [Heap.sameLinks,kept.bases,kept.pagerefs]
  refine ⟨⟨?_,fun b small => ?_,fun i => ?_,fun b small i => ?_,fun i inI => ?_,fun i inI => ?_,
    fun a inA b inB => ?_⟩,fun i inI => ?_,fun b live => ?_,shape.disjoint⟩
  · rw [allLinks]
    exact unlisted.listed
  · rw [sameLinks]
    exact unlisted.typed b small
  · have words : h1.Inuse i ↔ h.Inuse i := by rw [Inuse,unlisted.relinked.words,Inuse]
    rw [members,inuse,words,shape.pages.inuse]
  · rw [(shape.pages.typed b small).nodup.mem_erase_iff,members,shape.pages.types b small,type,and_assoc]
  · rw [type]
    exact shape.pages.type i ((members i).1 inI).2
  · rw [Pageref.pageaddr,page]
    exact shape.pages.page i ((members i).1 inI).2
  · rw [Pageref.pageaddr,page,Pageref.pageaddr,page]
    exact shape.pages.apart a ((members a).1 inA).2 b ((members b).1 inB).2
  · exact (shape.lists i ((members i).1 inI).2).congr (page i) (by rw [kept.pagerefs,unlisted.relinked.offset])
      (by rw [kept.pagerefs,unlisted.relinked.nfree]) fun a _ => by rw [memory]
  · have placed := shape.placed b live
    constructor
    · intro small
      obtain ⟨i,inI,sort,slot,used⟩ := placed.small small
      have other : i ≠ j := by
        rintro rfl
        exact used (shape.idle inI full slot)
      exact ⟨i,(members i).2 ⟨other,inI⟩,(type i).trans sort,slot.congr (page i),used⟩
    · intro large
      obtain ⟨range,away⟩ := placed.large large
      refine ⟨range,fun i inI => ?_⟩
      rw [Pageref.pageaddr,page]
      exact away i ((members i).1 inI).2

/-! `kfree` -/

theorem Shape.head_link (inJ : j ∈ all)
    (is : next = if (h.pagerefs j).freelistOffset = invalidOffset then 0
      else add32 (h.pagerefs j).pageaddr (h.pagerefs j).freelistOffset) :
    (if next = 0 then none else some next) = (h.freeLinks j).base := by
  have list := shape.lists j inJ
  have type := shape.pages.type j inJ
  have range := shape.pages.page j inJ
  have low := range.low
  have high := range.high
  have positive := Pageref.size_pos type
  rw [is]
  simp only [freeLinks]
  split
  · rfl
  · next offset =>
    have head := list.listed
    rcases empty : free j with _ | ⟨a,rest⟩
    · rw [empty] at head
      have base := head.eq_none.2 rfl
      simp only [freeLinks,if_neg offset] at base
      cases base
    · rw [empty] at head
      have base := (Links.heads_cons.1 head).1
      simp only [freeLinks,if_neg offset,Option.some.injEq] at base
      have slotA := (list.slot a (by rw [empty]; simp)).inside type
      rw [add32_eq (by omega)]
      exact if_neg (by omega)

theorem Shape.push {ptr : Nat} (inJ : j ∈ all)
    (slot : h.Slot j ptr) (used : ptr ∉ free j)
    (is : next = if (h.pagerefs j).freelistOffset = invalidOffset then 0
      else add32 (h.pagerefs j).pageaddr (h.pagerefs j).freelistOffset) :
    Pushed h j ptr (free j) ((h.store ptr next).update j fun p =>
      { p with freelistOffset := ptr - (h.pagerefs j).pageaddr, nfree := (h.pagerefs j).nfree + 1 }) := by
  have type := shape.pages.type j inJ
  have inside := slot.inside type
  have positive := Pageref.size_pos type
  have back : (h.pagerefs j).pageaddr + (ptr - (h.pagerefs j).pageaddr) = ptr := by omega
  have valid : ptr - (h.pagerefs j).pageaddr ≠ invalidOffset := by
    unfold invalidOffset
    omega
  have step := (shape.lists j inJ).pushed (ptr - (h.pagerefs j).pageaddr) (by rwa [back]) valid
    (by rwa [back]) (shape.head_link inJ is)
  rwa [back] at step

theorem putBack_spec (inJ : j ∈ all)
    (live : b ∈ blocks) (slot : h.Slot j b.ptr) (used : b.ptr ∉ free j)
    (partly : ∀ i ∈ all, (h.pagerefs i).nfree < 4096 / (h.pagerefs i).size) :
    (putBack j (b.ptr - (h.pagerefs j).pageaddr)).wp h (fun _ h' => h'.Sound (blocks.erase b))
      never never := by
  have type := shape.pages.type j inJ
  have range := shape.pages.page j inJ
  have inside := slot.inside type
  have count := two_le_blocks type
  have room := partly j inJ
  have low := range.low
  have high := range.high
  have positive := Pageref.size_pos type
  rw [← Pageref.size] at count
  have address : add32 (h.pagerefs j).pageaddr (b.ptr - (h.pagerefs j).pageaddr) = b.ptr := by
    rw [add32_eq (by omega)]
    omega
  have more : ((h.pagerefs j).nfree + 1) % 2^16 = (h.pagerefs j).nfree + 1 := Nat.mod_eq_of_lt (by omega)
  simp only [putBack,wp_bind,wp_read,wp_modify,wp_assert,address,more]
  have enough : decide ((h.pagerefs j).nfree + 1 ≤ 4096 / (h.pagerefs j).size) = true := decide_eq_true room
  rw [if_pos enough]
  have pushed := shape.push inJ slot used rfl
  generalize (h.store b.ptr _).update j _ = h' at pushed ⊢
  have given := shape.give inJ live pushed
  have type' : (h'.pagerefs j).blocktype = (h.pagerefs j).blocktype := by
    rw [Pageref.blocktype,pushed.pages.page,Pageref.blocktype]
  have sizes' : ∀ i, (h'.pagerefs i).size = (h.pagerefs i).size := fun i => by
    rw [Pageref.size,Pageref.blocktype,pushed.pages.page,← Pageref.blocktype,← Pageref.size]
  rw [wp_ite]
  constructor
  · intro full
    rw [wp_bind,← type']
    refine wp_imp (removeLists_spec given.pages inJ) ?_
    intro _ h1 unlisted
    have inuse : h1.Inuse j := by
      rw [Inuse,unlisted.relinked.words,← Inuse]
      exact (given.pages.inuse j).1 inJ
    refine wp_imp (freepageref_spec inuse) ?_
    rintro _ h2 ⟨kept,bits⟩
    have isFull : (h'.pagerefs j).nfree = 4096 / (h'.pagerefs j).size := by rw [pushed.nfree,sizes',full]
    refine ⟨_,_,_,given.close inJ isFull unlisted kept bits,fun i inI => ?_⟩
    obtain ⟨other,inAll⟩ := given.pages.listed.nodup.mem_erase_iff.1 inI
    have size : (h2.pagerefs i).size = (h.pagerefs i).size := by
      rw [← sizes',Pageref.size,Pageref.blocktype,kept.pagerefs,unlisted.relinked.page,
        ← Pageref.blocktype,← Pageref.size]
    rw [size,kept.pagerefs,unlisted.relinked.nfree,pushed.others i other]
    exact partly i inAll
  · intro notFull
    refine ⟨_,_,_,given,fun i inI => ?_⟩
    rw [sizes']
    by_cases here : i = j
    · subst here
      rw [pushed.nfree]
      omega
    · rw [pushed.others i here]
      exact partly i inI

theorem searchPage_live (live : b ∈ blocks) :
    (searchPage b.ptr (npagerefs + 1) h.allbase).wp h
      (fun r h' => h' = h ∧ (2048 ≤ b.sz → r = none) ∧ (b.sz < 2048 → ∃ j ∈ all, r = some j ∧
        (h.pagerefs j).blocktype = blocktypeOf b.sz ∧ h.Slot j b.ptr ∧ b.ptr ∉ free j))
      never never := by
  have placed := shape.placed b live
  refine wp_imp (searchPage_spec b.ptr shape.pages.type shape.pages.page shape.pages.length_all
    shape.pages.listed) ?_
  rintro r h' ⟨kept,found,missing⟩
  refine ⟨kept,fun large => ?_,fun small => ?_⟩
  · obtain ⟨_,away⟩ := placed.large large
    have := le_inPages b.sz
    rcases r with _ | j
    · rfl
    · obtain ⟨inJ,low,high⟩ := found j rfl
      have := away j inJ
      omega
  · obtain ⟨j,inJ,type,slot,used⟩ := placed.small small
    have inside := slot.inside (shape.pages.type j inJ)
    have positive := Pageref.size_pos (shape.pages.type j inJ)
    rcases r with _ | i
    · have := missing rfl j inJ
      omega
    · obtain ⟨inI,low,high⟩ := found i rfl
      obtain rfl := shape.page_unique inI inJ slot low high
      exact ⟨i,inI,rfl,type,slot,used⟩

theorem Shape.ptr_low (live : b ∈ blocks) :
    0x80000000 ≤ b.ptr := by
  by_cases small : b.sz < 2048
  · obtain ⟨j,inJ,_,slot,_⟩ := (shape.placed b live).small small
    have inside := slot.inside (shape.pages.type j inJ)
    have low := (shape.pages.page j inJ).low
    omega
  · exact ((shape.placed b live).large (Nat.not_lt.1 small)).1.low

theorem Shape.drop (b : Alloc) :
    h.Shape (blocks.erase b) all same free :=
  ⟨shape.pages,shape.lists,fun c inC => shape.placed c (List.mem_of_mem_erase inC),
    shape.disjoint.sublist List.erase_sublist⟩

theorem subpageKfree_spec
    (partly : ∀ i ∈ all, (h.pagerefs i).nfree < 4096 / (h.pagerefs i).size) (live : b ∈ blocks) :
    (subpageKfree b.ptr).wp h
      (fun r h' => h'.Sound (blocks.erase b) ∧ (r = false → b.ptr % 4096 = 0)) never never := by
  rw [subpageKfree,wp_bind,wp_read,wp_bind]
  refine wp_imp (searchPage_live shape live) ?_
  rintro r h' ⟨rfl,large,small⟩
  by_cases size : b.sz < 2048
  · obtain ⟨j,inJ,rfl,sort,slot,used⟩ := small size
    have inside := slot.inside (shape.pages.type j inJ)
    have positive := Pageref.size_pos (shape.pages.type j inJ)
    have high := (shape.pages.page j inJ).high
    have offset : sub32 b.ptr (h'.pagerefs j).pageaddr = b.ptr - (h'.pagerefs j).pageaddr :=
      sub32_eq inside.1 (by omega)
    have room : roomOf b.sz = (h'.pagerefs j).size := roomOf_page size sort
    simp only [wp_bind,wp_read,offset]
    rw [if_neg (not_or.2 ⟨by omega,fun misplaced => misplaced slot.offset⟩)]
    obtain ⟨rest,outside⟩ := fill_spec h' (fun _ _ => 0xdeadbeef) b.ptr ((h'.pagerefs j).size / 4) (by omega)
    have filled := shape.write live rest fun a away => outside a (by omega)
    simp only [fillDeadbeef,wp_bind,wp_modify]
    generalize (List.range ((h'.pagerefs j).size / 4)).foldl _ h' = h1 at rest filled ⊢
    have refs : h1.pagerefs = h'.pagerefs := by rw [rest]
    rw [← refs]
    have slot1 : h1.Slot j b.ptr := slot.congr (by rw [refs])
    refine wp_imp (putBack_spec filled inJ live slot1 used fun i inI => ?_) ?_
    · rw [refs]
      exact partly i inI
    · exact fun _ h2 sound => ⟨sound,fun no => absurd no (by decide)⟩
  · obtain rfl := large (Nat.not_lt.1 size)
    refine ⟨⟨all,same,free,shape.drop b,partly⟩,fun _ => ?_⟩
    exact ((shape.placed b live).large (Nat.not_lt.1 size)).1.aligned

end

theorem kfree_spec (sound : h.Sound blocks) (live : b ∈ blocks) :
    (kfree b.ptr).wp h (fun _ h' => h'.Sound (blocks.erase b)) never never := by
  obtain ⟨all,same,free,shape,partly⟩ := sound.shape
  have low := shape.ptr_low live
  rw [kfree,if_neg (by omega),wp_bind]
  refine wp_imp (subpageKfree_spec shape partly live) ?_
  rintro (_ | _) h' ⟨freed,aligned⟩
  · simp only [Bool.false_eq_true,if_false,wp_assert,aligned rfl,decide_true,if_true]
    exact freed
  · exact freed

end Heap
end Os161
