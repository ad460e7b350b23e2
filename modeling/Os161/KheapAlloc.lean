import Os161.KheapInvariant

/-! `subpage_kmalloc`: taking a block off the free list of a page, and making a fresh page. -/
namespace Os161

namespace Heap

/-! Changes that leave most of the heap alone -/

@[simp] theorem update_self (h : Heap) (j : Nat) (f : Pageref → Pageref) :
    (h.update j f).pagerefs j = f (h.pagerefs j) := Function.update_self ..

theorem store_other (h : Heap) {address value a : Nat} (differ : a ≠ address) :
    (h.store address value).memory a = h.memory a := Function.update_of_ne differ ..

@[simp] theorem store_self (h : Heap) (address value : Nat) :
    (h.store address value).memory address = value := Function.update_self ..

theorem update_other (h : Heap) {i j : Nat} (f : Pageref → Pageref) (differ : i ≠ j) :
    (h.update j f).pagerefs i = h.pagerefs i := Function.update_of_ne differ ..

theorem update_field {α : Type} (field : Pageref → α) (h : Heap) (j : Nat) (f : Pageref → Pageref)
    (keeps : field (f (h.pagerefs j)) = field (h.pagerefs j)) (i : Nat) :
    field ((h.update j f).pagerefs i) = field (h.pagerefs i) := by
  by_cases same : i = j
  · subst same
    rw [update_self,keeps]
  · rw [update_other h f same]

structure SamePages (h h' : Heap) : Prop where
  all : h'.allbase = h.allbase
  bases : h'.sizebases = h.sizebases
  inuse : ∀ j, h'.Inuse j ↔ h.Inuse j
  nextAll : ∀ i, (h'.pagerefs i).nextAll = (h.pagerefs i).nextAll
  nextSamesize : ∀ i, (h'.pagerefs i).nextSamesize = (h.pagerefs i).nextSamesize
  page : ∀ i, (h'.pagerefs i).pageaddrAndBlocktype = (h.pagerefs i).pageaddrAndBlocktype

section Congruence
variable {h h' : Heap} {all : List Nat} {same free free' : Nat → List Nat}

theorem Pages.congr (pages : h.Pages all same) (kept : h.SamePages h') : h'.Pages all same := by
  have type : ∀ j, (h'.pagerefs j).blocktype = (h.pagerefs j).blocktype := fun j => by
    rw [Pageref.blocktype,kept.page,Pageref.blocktype]
  have page : ∀ j, (h'.pagerefs j).pageaddr = (h.pagerefs j).pageaddr := fun j => by
    rw [Pageref.pageaddr,kept.page,Pageref.pageaddr]
  constructor
  · exact pages.listed.congr kept.all fun j _ => kept.nextAll j
  · intro b small
    exact (pages.typed b small).congr (congrFun kept.bases b) fun j _ => kept.nextSamesize j
  · intro j
    rw [kept.inuse,pages.inuse]
  · intro b small j
    rw [type,pages.types b small]
  · intro j member
    rw [type]
    exact pages.type j member
  · intro j member
    rw [page]
    exact pages.page j member
  · intro i inI j inJ
    rw [page,page]
    exact pages.apart i inI j inJ

theorem Slot.congr {j a : Nat} (slot : h.Slot j a)
    (page : (h'.pagerefs j).pageaddrAndBlocktype = (h.pagerefs j).pageaddrAndBlocktype) :
    h'.Slot j a := by
  unfold Slot Pageref.size Pageref.blocktype Pageref.pageaddr at slot ⊢
  rwa [page]

theorem FreeList.congr {j : Nat} {list : List Nat} (free : h.FreeList j list)
    (page : (h'.pagerefs j).pageaddrAndBlocktype = (h.pagerefs j).pageaddrAndBlocktype)
    (offset : (h'.pagerefs j).freelistOffset = (h.pagerefs j).freelistOffset)
    (nfree : (h'.pagerefs j).nfree = (h.pagerefs j).nfree)
    (memory : ∀ a ∈ list, h'.memory a = h.memory a) : h'.FreeList j list := by
  constructor
  · refine free.listed.congr ?_ fun a member => ?_
    · simp only [freeLinks,Pageref.pageaddr,page,offset]
    · exact linksOf_congr (memory a member)
  · rw [nfree]
    exact free.count
  · exact fun a member => (free.slot a member).congr page

theorem Placed.congr {b : Alloc} (placed : h.Placed all free b)
    (page : ∀ j ∈ all, (h'.pagerefs j).pageaddrAndBlocktype = (h.pagerefs j).pageaddrAndBlocktype)
    (less : ∀ j ∈ all, b.ptr ∈ free' j → b.ptr ∈ free j) : h'.Placed all free' b := by
  constructor
  · intro small
    obtain ⟨j,member,type,slot,used⟩ := placed.small small
    refine ⟨j,member,?_,slot.congr (page j member),fun again => used (less j member again)⟩
    rw [Pageref.blocktype,page j member]
    exact type
  · intro large
    obtain ⟨range,away⟩ := placed.large large
    refine ⟨range,fun j member => ?_⟩
    rw [Pageref.pageaddr,page j member]
    exact away j member

end Congruence

section Room
variable {h : Heap} {blocks : List Alloc} {all : List Nat} {same free : Nat → List Nat}
variable {j : Nat}

theorem Pages.page_apart (pages : h.Pages all same) {i : Nat} (inI : i ∈ all) (inJ : j ∈ all)
    (differ : i ≠ j) : (h.pagerefs i).pageaddr + 4096 ≤ (h.pagerefs j).pageaddr ∨
      (h.pagerefs j).pageaddr + 4096 ≤ (h.pagerefs i).pageaddr := by
  have alignedI := (pages.page i inI).aligned
  have alignedJ := (pages.page j inJ).aligned
  have : (h.pagerefs i).pageaddr ≠ (h.pagerefs j).pageaddr := fun equal =>
    differ (pages.apart i inI j inJ equal)
  omega

variable {sz : Nat}

theorem roomOf_small (small : sz < 2048) : roomOf sz = sizes (blocktypeOf sz) :=
  if_neg (Nat.not_le.2 small)

theorem roomOf_page {pr : Pageref} (small : sz < 2048)
    (type : pr.blocktype = blocktypeOf sz) : roomOf sz = pr.size := by
  rw [roomOf_small small,← type,Pageref.size]

theorem roomOf_large (large : 2048 ≤ sz) : roomOf sz = inPages sz := if_pos large

variable {a : Nat} {b : Alloc}

section
variable (shape : h.Shape blocks all same free) (inJ : j ∈ all)
include shape inJ

theorem Shape.slot_apart
    (slot : h.Slot j a) (live : b ∈ blocks) (differ : a ≠ b.ptr) :
    a + (h.pagerefs j).size ≤ b.ptr ∨ b.ptr + roomOf b.sz ≤ a := by
  have inside := slot.inside (shape.pages.type j inJ)
  by_cases small : b.sz < 2048
  · obtain ⟨i,inI,type,slotB,_⟩ := (shape.placed b live).small small
    have room : roomOf b.sz = (h.pagerefs i).size := roomOf_page small type
    rw [room]
    by_cases page : i = j
    · subst page
      exact slot.apart slotB differ
    · have := shape.pages.page_apart inI inJ page
      have := slotB.inside (shape.pages.type i inI)
      omega
  · obtain ⟨_,away⟩ := (shape.placed b live).large (Nat.not_lt.1 small)
    have := away j inJ
    rw [roomOf_large (Nat.not_lt.1 small)]
    omega

theorem Shape.free_ne_live
    (unused : a ∈ free j) (live : b ∈ blocks) : a ≠ b.ptr := by
  rintro rfl
  have slot := (shape.lists j inJ).slot _ unused
  have inside := slot.inside (shape.pages.type j inJ)
  have positive := Pageref.size_pos (shape.pages.type j inJ)
  by_cases small : b.sz < 2048
  · obtain ⟨i,inI,_,slotB,used⟩ := (shape.placed b live).small small
    by_cases page : i = j
    · subst page
      exact used unused
    · have := shape.pages.page_apart inI inJ page
      have insideB := slotB.inside (shape.pages.type i inI)
      have positiveB := Pageref.size_pos (shape.pages.type i inI)
      omega
  · obtain ⟨_,away⟩ := (shape.placed b live).large (Nat.not_lt.1 small)
    have := away j inJ
    have := le_inPages b.sz
    omega

theorem Shape.free_apart
    (unused : a ∈ free j) (live : b ∈ blocks) :
    a + (h.pagerefs j).size ≤ b.ptr ∨ b.ptr + roomOf b.sz ≤ a :=
  shape.slot_apart inJ ((shape.lists j inJ).slot a unused) live (shape.free_ne_live inJ unused live)

end

theorem FreeList.nfree_le {list : List Nat} (free : h.FreeList j list) :
    (h.pagerefs j).nfree ≤ 4096 / (h.pagerefs j).size := by
  rw [← free.count,← length_slots]
  exact (slots_subperm free.listed.nodup free.slot).length_le

end Room

/-! The search for a page and `doalloc` -/

section Alloc
variable {h : Heap} {blocks : List Alloc} {all : List Nat} {same free : Nat → List Nat}

theorem searchFree_spec {blktype : Nat} {list : List Nat} (typed : ∀ j ∈ list, (h.pagerefs j).blocktype = blktype)
    {fuel : Nat} {head : Option Nat} (enough : list.length < fuel)
    (heads : Links.Heads (h.sameLinks blktype).next head list) :
    (searchFree blktype fuel head).wp h
      (fun r h' => h' = h ∧ ∀ j, r = some j → j ∈ list ∧ 0 < (h.pagerefs j).nfree) never never := by
  induction fuel generalizing head list with
  | zero => exact absurd enough (Nat.not_lt_zero _)
  | succ fuel ih =>
    cases heads with
    | nil => exact ⟨rfl,fun j none => nomatch none⟩
    | @cons j list rest =>
      simp only [searchFree,wp_bind,wp_read,wp_assert,typed j (by simp),decide_true,
        if_true]
      split
      · next some_free =>
        refine ⟨rfl,fun i found => ?_⟩
        cases found
        exact ⟨by simp,some_free⟩
      · refine wp_imp (ih (fun i member => typed i (List.mem_cons_of_mem _ member))
          (Nat.lt_of_succ_lt_succ enough) rest) ?_
        rintro r h' ⟨kept,found⟩
        exact ⟨kept,fun i is => ⟨List.mem_cons_of_mem _ (found i is).1,(found i is).2⟩⟩

structure Popped (h : Heap) (j : Nat) (rest : List Nat) (h' : Heap) : Prop where
  pages : h.SamePages h'
  memory : h'.memory = h.memory
  others : ∀ i, i ≠ j → h'.pagerefs i = h.pagerefs i
  nfree : (h'.pagerefs j).nfree = (h.pagerefs j).nfree - 1
  list : h'.FreeList j rest

variable {j a : Nat} {rest : List Nat}

theorem FreeList.popped (free : h.FreeList j (a :: rest)) (offset : Nat)
    (next : (if offset = invalidOffset then none else some ((h.pagerefs j).pageaddr + offset)) =
      (h.freeLinks j).next a) :
    Popped h j rest (h.update j fun p => { p with nfree := p.nfree - 1, freelistOffset := offset }) := by
  constructor
  · exact ⟨rfl,rfl,fun _ => Iff.rfl,update_field Pageref.nextAll h j _ rfl,
      update_field Pageref.nextSamesize h j _ rfl,update_field Pageref.pageaddrAndBlocktype h j _ rfl⟩
  · rfl
  · exact fun i differ => update_other h _ differ
  · rw [update_self]
  · constructor
    · refine free.listed.pop ?_ fun _ _ => rfl
      rw [← next]
      simp only [freeLinks,update_self]
      rfl
    · have := free.count
      rw [update_self]
      simp only [List.length_cons] at this ⊢
      omega
    · exact fun b member => (free.slot b (List.mem_cons_of_mem _ member)).congr
        (update_field Pageref.pageaddrAndBlocktype h j _ rfl j)

theorem doalloc_spec (pages : h.Pages all same) (inJ : j ∈ all)
    (free : h.FreeList j (a :: rest)) :
    (doalloc j).wp h (fun r h' => r = a ∧ Popped h j rest h') never never := by
  have page := pages.page j inJ
  have type := pages.type j inJ
  have positive := Pageref.size_pos type
  -- the head of the list is the address that the offset stands for
  obtain ⟨head,tail⟩ := Links.heads_cons.1 free.listed
  simp only [freeLinks] at head
  split at head
  · cases head
  next valid =>
  replace head := Option.some.inj head
  have inside := (free.slot a (by simp)).inside type
  have high := page.high
  have count := free.count
  have most := free.nfree_le
  have blocks := two_le_blocks type
  rw [← Pageref.size] at blocks
  have offset : (h.pagerefs j).freelistOffset < 4096 := by omega
  have address : add32 (h.pagerefs j).pageaddr (h.pagerefs j).freelistOffset = a := by
    rw [add32_eq (by omega),head]
  have fewer : ((h.pagerefs j).nfree + 0xffff) % 2^16 = (h.pagerefs j).nfree - 1 := by
    simp only [List.length_cons] at count
    omega
  simp only [doalloc,wp_bind,wp_read,wp_assert,offset,decide_true,if_true,address,
    fewer]
  cases rest with
  | nil =>
    have none : h.memory a = 0 := by
      have := tail.eq_none.2 rfl
      simpa [freeLinks,linksOf] using this
    simp only [List.length_cons,List.length_nil] at count
    rw [if_neg (fun linked => linked none)]
    have last : decide ((h.pagerefs j).nfree - 1 = 0) = true := decide_eq_true (by omega)
    simp only [wp_bind,wp_assert,last,if_true,wp_modify,wp_pure]
    exact ⟨trivial,free.popped invalidOffset (by simp [freeLinks,linksOf,none])⟩
  | cons c rest =>
    have link := (Links.heads_cons.1 tail).1
    have linked : h.memory a ≠ 0 ∧ h.memory a = c := by
      simpa [freeLinks,linksOf] using link
    have insideC := (free.slot c (by simp)).inside type
    have near : sub32 (h.memory a) (h.pagerefs j).pageaddr = c - (h.pagerefs j).pageaddr := by
      rw [linked.2,sub32_eq (by omega) (by omega)]
    simp only [List.length_cons] at count
    have more : (h.pagerefs j).nfree - 1 > 0 := by omega
    have close : c - (h.pagerefs j).pageaddr < 4096 := by omega
    rw [if_pos linked.1]
    simp only [wp_bind,wp_assert,more,near,close,decide_true,if_true,wp_modify,
      wp_pure]
    refine ⟨trivial,free.popped (c - (h.pagerefs j).pageaddr) ?_⟩
    have short : c - (h.pagerefs j).pageaddr ≠ invalidOffset := by
      unfold invalidOffset
      omega
    rw [if_neg short,link,Nat.add_sub_cancel' insideC.1]

theorem Shape.take (shape : h.Shape blocks all same free) (inJ : j ∈ all)
    (first : free j = a :: rest) {h' : Heap} (popped : Popped h j rest h') {sz : Nat} (small : sz < 2048)
    (type : (h.pagerefs j).blocktype = blocktypeOf sz) :
    h'.Shape (⟨a,sz⟩ :: blocks) all same (Function.update free j rest) := by
  have mine := shape.lists j inJ
  rw [first] at mine
  have kept : ∀ i ∈ all, ∀ x ∈ Function.update free j rest i, x ∈ free i := by
    intro i _ x member
    by_cases here : i = j
    · subst here
      rw [Function.update_self] at member
      rw [first]
      exact List.mem_cons_of_mem _ member
    · rwa [Function.update_of_ne here] at member
  constructor
  · exact shape.pages.congr popped.pages
  · intro i inI
    by_cases here : i = j
    · subst here
      rw [Function.update_self]
      exact popped.list
    · rw [Function.update_of_ne here]
      exact (shape.lists i inI).congr (popped.pages.page i) (by rw [popped.others i here])
        (by rw [popped.others i here]) fun _ _ => by rw [popped.memory]
  · intro b live
    rcases List.mem_cons.1 live with rfl | old
    · refine ⟨fun _ => ⟨j,inJ,?_,?_,?_⟩,fun large => absurd large (Nat.not_le.2 small)⟩
      · rw [Pageref.blocktype,popped.pages.page]
        exact type
      · exact (mine.slot a (by simp)).congr (popped.pages.page j)
      · rw [Function.update_self]
        exact (List.nodup_cons.1 mine.listed.nodup).1
    · exact (shape.placed b old).congr (fun i _ => popped.pages.page i) fun i inI => kept i inI _
  · refine List.pairwise_cons.2 ⟨fun b live => ?_,shape.disjoint⟩
    have room : roomOf sz = (h.pagerefs j).size := roomOf_page small type
    unfold Alloc.Apart
    rw [room]
    exact shape.free_apart inJ (by rw [first]; simp) live

end Alloc
end Heap
end Os161
