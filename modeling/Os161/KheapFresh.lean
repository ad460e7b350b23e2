import Os161.KheapAlloc

/-! The pageref bitmap, fresh pages, and `kmalloc` as a whole. -/
namespace Os161
namespace Heap

variable {h : Heap} {blocks : List Alloc} {all : List Nat} {same free : Nat → List Nat}

/-! `pagerefs_inuse` -/

variable {word : BitVec 32} {count j : Nat}

theorem firstClear_some {k : Nat} (found : firstClear word count j = some k) :
    j ≤ k ∧ k < j + count ∧ word.getLsbD k = false := by
  induction count generalizing j with
  | zero => cases found
  | succ count ih =>
    rw [firstClear] at found
    split at found
    · have := ih found
      exact ⟨by omega,by omega,this.2.2⟩
    · next clear =>
      cases found
      exact ⟨Nat.le_refl _,by omega,by simpa using clear⟩

theorem firstClear_none (full : firstClear word count j = none)
    {k : Nat} (low : j ≤ k) (high : k < j + count) : word.getLsbD k = true := by
  induction count generalizing j with
  | zero => omega
  | succ count ih =>
    rw [firstClear] at full
    split at full
    · next here =>
      rcases Nat.eq_or_lt_of_le low with rfl | later
      · exact here
      · exact ih full later (by omega)
    · cases full

theorem exists_firstClear (room : word ≠ BitVec.allOnes 32) :
    ∃ j, firstClear word 32 0 = some j := by
  by_contra none
  refine room (BitVec.eq_of_getLsbD_eq fun i less => ?_)
  rw [BitVec.getLsbD_allOnes,decide_eq_true less]
  refine firstClear_none (Option.eq_none_iff_forall_not_mem.2 fun j found => none ⟨j,found⟩)
    (Nat.zero_le i) (by omega)

variable {i : Nat}

theorem inuse_setInuse :
    (h.setInuse (j / 32) word).Inuse i ↔
      i < npagerefs ∧ (if i / 32 = j / 32 then word else h.pagerefsInuse (i / 32)).getLsbD (i % 32) = true := by
  unfold Inuse setInuse
  dsimp only
  rw [Function.update_apply]

theorem inuse_mark (bound : j < npagerefs) :
    (h.setInuse (j / 32) (h.pagerefsInuse (j / 32) ||| BitVec.twoPow 32 (j % 32))).Inuse i ↔
      i = j ∨ h.Inuse i := by
  rw [inuse_setInuse,Inuse]
  by_cases word : i / 32 = j / 32
  · rw [if_pos word,word,BitVec.getLsbD_or,BitVec.getLsbD_twoPow]
    have same : j % 32 = i % 32 ↔ i = j := by omega
    have small : j % 32 < 32 := Nat.mod_lt _ (by decide)
    simp only [Bool.or_eq_true,Bool.and_eq_true,decide_eq_true_eq,small,true_and,same]
    constructor
    · rintro ⟨low,set | equal⟩
      · exact .inr ⟨low,set⟩
      · exact .inl equal
    · rintro (rfl | ⟨low,set⟩)
      · exact ⟨bound,.inr rfl⟩
      · exact ⟨low,.inl set⟩
  · rw [if_neg word]
    have : i ≠ j := fun equal => word (by rw [equal])
    simp [this]

theorem inuse_unmark :
    (h.setInuse (j / 32) (h.pagerefsInuse (j / 32) &&& ~~~BitVec.twoPow 32 (j % 32))).Inuse i ↔
      i ≠ j ∧ h.Inuse i := by
  rw [inuse_setInuse,Inuse]
  by_cases word : i / 32 = j / 32
  · rw [if_pos word,word,BitVec.getLsbD_and,BitVec.getLsbD_not,BitVec.getLsbD_twoPow]
    have same : j % 32 = i % 32 ↔ i = j := by omega
    have small : ∀ k, k % 32 < 32 := fun k => Nat.mod_lt k (by decide)
    simp only [Bool.and_eq_true,Bool.not_eq_true',Bool.and_eq_false_iff,decide_eq_true_eq,
      decide_eq_false_iff_not,small,true_and,not_true_eq_false,false_or,ne_eq,same]
    constructor
    · rintro ⟨low,set,other⟩
      exact ⟨other,low,set⟩
    · rintro ⟨other,low,set⟩
      exact ⟨low,set,other⟩
  · rw [if_neg word]
    have : i ≠ j := fun equal => word (by rw [equal])
    simp [this]

structure SameButInuse (h h' : Heap) : Prop where
  pagerefs : h'.pagerefs = h.pagerefs
  bases : h'.sizebases = h.sizebases
  all : h'.allbase = h.allbase
  memory : h'.memory = h.memory

theorem allocpageref_spec : allocpageref.wp h
    (fun r h' => SameButInuse h h' ∧ (r = none → h' = h) ∧ ∀ j, r = some j → j < npagerefs ∧ ¬h.Inuse j ∧
      ∀ i, h'.Inuse i ↔ i = j ∨ h.Inuse i) never never := by
  have rest : ∀ count i, i + count = npagerefs / 32 → (allocpagerefFrom count i).wp h
      (fun r h' => SameButInuse h h' ∧ (r = none → h' = h) ∧ ∀ j, r = some j → j < npagerefs ∧
        ¬h.Inuse j ∧ ∀ i, h'.Inuse i ↔ i = j ∨ h.Inuse i) never never := by
    intro count
    induction count with
    | zero =>
      exact fun i _ => ⟨⟨rfl,rfl,rfl,rfl⟩,fun _ => rfl,
        fun j found => absurd found (Option.some_ne_none j).symm⟩
    | succ count ih =>
      intro i whole
      simp only [allocpagerefFrom,wp_bind,wp_read]
      split
      · exact ih (i + 1) (by omega)
      · next room =>
        obtain ⟨j,found⟩ := exists_firstClear room
        obtain ⟨_,less,clear⟩ := firstClear_some found
        have bound : i * 32 + j < npagerefs := by
          unfold npagerefs at *
          omega
        have word : (i * 32 + j) / 32 = i := by omega
        have bit : (i * 32 + j) % 32 = j := by omega
        simp only [found,wp_bind,wp_modify,wp_pure]
        refine ⟨⟨rfl,rfl,rfl,rfl⟩,fun none => absurd none (Option.some_ne_none _),?_⟩
        rintro _ ⟨⟩
        refine ⟨bound,fun used => ?_,fun k => ?_⟩
        · have := used.2
          rw [word,bit,clear] at this
          cases this
        · have mark := inuse_mark (h := h) (i := k) bound
          rwa [word,bit] at mark
  exact rest (npagerefs / 32) 0 (Nat.zero_add _)

theorem freepageref_spec (used : h.Inuse j) : (freepageref j).wp h
    (fun _ h' => SameButInuse h h' ∧ ∀ i, h'.Inuse i ↔ i ≠ j ∧ h.Inuse i) never never := by
  simp only [freepageref,wp_bind,wp_assert,wp_read,used.1,used.2,decide_true,if_true,
    wp_modify]
  exact ⟨⟨rfl,rfl,rfl,rfl⟩,fun i => inuse_unmark⟩

/-! Fresh pages -/

structure Unowned (h : Heap) (blocks : List Alloc) (page bytes : Nat) : Prop where
  pages : KernelPages page bytes
  heap : ∀ j, h.Inuse j → page + bytes ≤ (h.pagerefs j).pageaddr ∨ (h.pagerefs j).pageaddr + 4096 ≤ page
  large : ∀ b ∈ blocks, 2048 ≤ b.sz → page + bytes ≤ b.ptr ∨ b.ptr + inPages b.sz ≤ page

def chain (page size count : Nat) : List Nat := (List.range count).reverse.map fun m => page + m * size

theorem chain_succ (page size count : Nat) :
    chain page size (count + 1) = (page + count * size) :: chain page size count := by
  simp [chain,List.range_succ]

variable {page : Nat}

theorem mem_chain {size a : Nat} :
    a ∈ chain page size count ↔ ∃ m, m < count ∧ a = page + m * size := by
  simp [chain,eq_comm]

structure Linking (h : Heap) (page size i fl : Nat) (h' : Heap) : Prop where
  last : fl = page + (i - 1) * size
  links : Links.Heads (linksOf h'.memory) (some fl) (chain page size i)
  outside : ∀ a, ¬(page ≤ a ∧ a < page + 4096) → h'.memory a = h.memory a
  rest : h' = { h with memory := h'.memory }

variable {b : Nat}

theorem linkBlock_spec (range : KernelPages page 4096) (type : b < nsizes) {fl : Nat}
    {h' : Heap} (low : 1 ≤ i) (less : i < 4096 / sizes b) (linking : Linking h page (sizes b) i fl h') :
    (linkBlock page b i fl).wp h' (Linking h page (sizes b) (i + 1)) never never := by
  have size := sizes_pos type
  have fill := blocks_fill type
  have high := range.high
  have bottom := range.low
  have inside : (i + 1) * sizes b ≤ 4096 / sizes b * sizes b := Nat.mul_le_mul_right _ less
  have before : i * sizes b = (i - 1) * sizes b + sizes b := by
    rw [← Nat.succ_mul,Nat.succ_eq_add_one,Nat.sub_add_cancel low]
  rw [Nat.add_mul,one_mul] at inside
  have here : add32 page (i * sizes b) = page + i * sizes b := add32_eq (by omega)
  have there : add32 page ((i - 1) * sizes b) = page + (i - 1) * sizes b := add32_eq (by omega)
  have differ : decide (page + i * sizes b ≠ page + (i - 1) * sizes b) = true := decide_eq_true (by omega)
  simp only [linkBlock,here,there,wp_bind,wp_modify,wp_assert,differ,if_true,
    wp_pure]
  constructor
  · rw [Nat.add_sub_cancel]
  · rw [chain_succ]
    refine .cons ?_
    have link : linksOf (h'.store (page + i * sizes b) (page + (i - 1) * sizes b)).memory
        (page + i * sizes b) = some fl := by
      rw [linksOf,store_self,linking.last]
      exact if_neg (by omega)
    rw [link]
    refine linking.links.congr fun a member => ?_
    obtain ⟨m,earlier,rfl⟩ := mem_chain.1 member
    have : m * sizes b < i * sizes b := Nat.mul_lt_mul_of_pos_right earlier size
    exact linksOf_congr (store_other h' (by omega))
  · intro a away
    rw [store_other h' (by omega)]
    exact linking.outside a away
  · rw [linking.rest]
    rfl

theorem linkBlocks_spec (range : KernelPages page 4096) (type : b < nsizes)
    (first : h.memory page = 0) : (linkBlocks page b (4096 / sizes b)).wp h
      (Linking h page (sizes b) (4096 / sizes b)) never never := by
  have count := two_le_blocks type
  have initial : Linking h page (sizes b) 1 page h := by
    constructor
    · simp
    · rw [chain_succ,Nat.zero_mul]
      refine .cons ?_
      rw [linksOf,if_pos first]
      exact .nil
    · exact fun _ _ => rfl
    · rfl
  have run := wp_loop (Linking h page (sizes b)) (4096 / sizes b - 1) 1 page initial
    fun i fl h' low high linking => linkBlock_spec range type low (by omega) linking
  rwa [show 1 + (4096 / sizes b - 1) = 4096 / sizes b by omega] at run

structure Opened (h : Heap) (pr b page : Nat) (h' : Heap) : Prop where
  mine : h'.pagerefs pr = ⟨h.sizebases b,h.allbase,mkpab page b,(4096 / sizes b - 1) * sizes b,4096 / sizes b⟩
  others : ∀ i, i ≠ pr → h'.pagerefs i = h.pagerefs i
  bases : h'.sizebases = Function.update h.sizebases b (some pr)
  all : h'.allbase = some pr
  inuse : ∀ i, h'.Inuse i ↔ i = pr ∨ h.Inuse i
  unused : ¬h.Inuse pr
  links : Links.Heads (linksOf h'.memory) (some (page + (4096 / sizes b - 1) * sizes b))
    (chain page (sizes b) (4096 / sizes b))
  outside : ∀ a, ¬(page ≤ a ∧ a < page + 4096) → h'.memory a = h.memory a

theorem freshPage_spec (range : page = 0 ∨ KernelPages page 4096) (type : b < nsizes) :
    (freshPage b page).wp h
      (fun r h' => match r with
        | some pr => KernelPages page 4096 ∧ Opened h pr b page h'
        | none => h'.pagerefs = h.pagerefs ∧ h'.memory = h.memory ∧ h.SamePages h')
      never never := by
  have count := two_le_blocks type
  have fill := blocks_fill type
  rw [freshPage,wp_bind]
  refine wp_imp allocpageref_spec ?_
  rintro (_ | pr) h1 ⟨kept,unchanged,found⟩
  · obtain rfl := unchanged rfl
    exact ⟨rfl,rfl,⟨rfl,rfl,fun _ => Iff.rfl,fun _ => rfl,fun _ => rfl,fun _ => rfl⟩⟩
  · obtain ⟨bound,unused,inuse⟩ := found pr rfl
    rw [wp_ite]
    constructor
    · intro _
      -- out of memory: the pageref goes back
      rw [wp_bind]
      refine wp_imp (freepageref_spec ((inuse pr).2 (.inl rfl))) ?_
      rintro _ h2 ⟨kept2,inuse2⟩
      have refs := kept2.pagerefs.trans kept.pagerefs
      refine ⟨refs,kept2.memory.trans kept.memory,⟨kept2.all.trans kept.all,kept2.bases.trans kept.bases,
        fun j => ?_,fun i => by rw [refs],fun i => by rw [refs],fun i => by rw [refs]⟩⟩
      rw [inuse2,inuse]
      constructor
      · rintro ⟨other,rfl | used⟩
        · exact absurd rfl other
        · exact used
      · exact fun used => ⟨fun equal => unused (equal ▸ used),.inr used⟩
    · intro some_page
      have range := range.resolve_left some_page
      simp only [wp_bind,wp_modify]
      refine wp_imp (linkBlocks_spec range type (Function.update_self ..)) ?_
      intro fl h2 linking
      have offset : sub32 fl page % 2^16 = (4096 / sizes b - 1) * sizes b := by
        have := linking.last
        have := range.high
        rw [Nat.sub_mul,one_mul] at *
        rw [sub32_eq (by omega) (by omega)]
        omega
      have asserted : decide (sub32 fl page % 2^16 = (4096 / sizes b - 1) * sizes b) = true :=
        decide_eq_true offset
      have refs : h2.pagerefs = Function.update h.pagerefs pr
          { h.pagerefs pr with pageaddrAndBlocktype := mkpab page b, nfree := 4096 / sizes b } := by
        rw [linking.rest]
        simp only [store,update,kept.pagerefs]
      have bases : h2.sizebases = h.sizebases := by
        rw [linking.rest]
        exact kept.bases
      have every : h2.allbase = h.allbase := by
        rw [linking.rest]
        exact kept.all
      have words : h2.pagerefsInuse = h1.pagerefsInuse := by
        rw [linking.rest]
        rfl
      simp only [wp_assert,asserted,if_true,wp_pure]
      refine ⟨range,?_,fun i differ => ?_,?_,rfl,fun i => ?_,unused,?_,fun a away => ?_⟩
      · simp only [writeAll,writeSame,update,Function.update_self,refs,bases,every,offset]
      · simp only [writeAll,writeSame,update,refs,Function.update_of_ne differ]
      · simp only [writeAll,writeSame,update,bases]
      · rw [← inuse]
        unfold Inuse
        simp only [writeAll,writeSame,update,words]
      · have links := linking.links
        rw [linking.last] at links
        exact links
      · have outside := linking.outside a away
        rw [store_other _ fun equal => away (by omega)] at outside
        exact outside.trans (congrFun kept.memory a)

section Open
variable {pr b page : Nat} {h' : Heap}

theorem Opened.pageaddr (opened : Opened h pr b page h') (range : KernelPages page 4096)
    (type : b < nsizes) : (h'.pagerefs pr).pageaddr = page := by
  rw [opened.mine,Pageref.pageaddr,(mkpab_pageaddr range.aligned type).1]

theorem Opened.blocktype (opened : Opened h pr b page h') (range : KernelPages page 4096)
    (type : b < nsizes) : (h'.pagerefs pr).blocktype = b := by
  rw [opened.mine,Pageref.blocktype,(mkpab_pageaddr range.aligned type).2]

theorem Pages.ne_opened (pages : h.Pages all same) (opened : Opened h pr b page h') {i : Nat}
    (member : i ∈ all) : i ≠ pr := by
  rintro rfl
  exact opened.unused ((pages.inuse i).1 member)

theorem Pages.opened (pages : h.Pages all same) (type : b < nsizes) (range : KernelPages page 4096)
    (away : ∀ i ∈ all, page + 4096 ≤ (h.pagerefs i).pageaddr ∨ (h.pagerefs i).pageaddr + 4096 ≤ page)
    (opened : Opened h pr b page h') :
    h'.Pages (pr :: all) (Function.update same b (pr :: same b)) := by
  have myPage := opened.pageaddr range type
  have myType := opened.blocktype range type
  have new : pr ∉ all := fun old => pages.ne_opened opened old rfl
  have other : ∀ i ∈ all, h'.pagerefs i = h.pagerefs i := fun i member =>
    opened.others i (pages.ne_opened opened member)
  have typedIn : ∀ c, c < nsizes → ∀ i ∈ same c, i ∈ all := fun c small i member =>
    ((pages.types c small i).1 member).1
  constructor
  · refine pages.listed.push opened.all ?_ fun i member => ?_
    · simp only [allLinks,opened.mine]
    · simp only [allLinks,other i member]
  · intro c small
    by_cases here : c = b
    · subst here
      rw [Function.update_self]
      refine (pages.typed c small).push ?_ ?_ fun i member => ?_
      · simp only [sameLinks,opened.bases,Function.update_self]
      · simp only [sameLinks,opened.mine]
      · simp only [sameLinks,other i (typedIn c small i member)]
    · rw [Function.update_of_ne here]
      refine (pages.typed c small).congr ?_ fun i member => ?_
      · simp only [sameLinks,opened.bases,Function.update_of_ne here]
      · simp only [sameLinks,other i (typedIn c small i member)]
  · intro j
    rw [List.mem_cons,opened.inuse,pages.inuse]
  · intro c small j
    have old : j ∈ same c ↔ j ∈ all ∧ (h.pagerefs j).blocktype = c := pages.types c small j
    by_cases isNew : j = pr
    · subst isNew
      have outside : j ∉ same c := fun member => new (typedIn c small j member)
      by_cases here : c = b
      · subst here
        simp [myType]
      · simp [Function.update_of_ne here,outside,myType,Ne.symm here]
    · have kept : h'.pagerefs j = h.pagerefs j := opened.others j isNew
      by_cases here : c = b
      · subst here
        simp [isNew,old,kept]
      · simp [Function.update_of_ne here,isNew,old,kept]
  · intro j member
    rcases List.mem_cons.1 member with rfl | old
    · rw [myType]
      exact type
    · rw [other j old]
      exact pages.type j old
  · intro j member
    rcases List.mem_cons.1 member with rfl | old
    · rw [myPage]
      exact range
    · rw [other j old]
      exact pages.page j old
  · have far : ∀ i ∈ all, (h'.pagerefs i).pageaddr ≠ page := by
      intro i member
      have := away i member
      rw [other i member]
      omega
    intro i inI j inJ equal
    rcases List.mem_cons.1 inI with rfl | oldI
    · rcases List.mem_cons.1 inJ with rfl | oldJ
      · rfl
      · rw [myPage] at equal
        exact absurd equal.symm (far j oldJ)
    · rcases List.mem_cons.1 inJ with rfl | oldJ
      · rw [myPage] at equal
        exact absurd equal (far i oldI)
      · rw [other i oldI,other j oldJ] at equal
        exact pages.apart i oldI j oldJ equal

theorem Opened.freeList (opened : Opened h pr b page h') (range : KernelPages page 4096)
    (type : b < nsizes) : h'.FreeList pr (chain page (sizes b) (4096 / sizes b)) := by
  have myPage := opened.pageaddr range type
  have mySize : (h'.pagerefs pr).size = sizes b := by rw [Pageref.size,opened.blocktype range type]
  have short : (4096 / sizes b - 1) * sizes b ≠ invalidOffset := by
    have := blocks_fill type
    rw [Nat.sub_mul,one_mul]
    unfold invalidOffset
    omega
  refine ⟨?_,?_,fun a inside => ?_⟩
  · have links := opened.links
    simpa only [Links.Lists,freeLinks,opened.mine,if_neg short,Pageref.pageaddr,
      (mkpab_pageaddr range.aligned type).1] using links
  · simp [chain,opened.mine]
  · obtain ⟨m,less,rfl⟩ := mem_chain.1 inside
    exact ⟨m,by rwa [mySize],by rw [myPage,mySize]⟩

theorem Shape.opened (shape : h.Shape blocks all same free)
    (type : b < nsizes) (unowned : h.Unowned blocks page 4096) (opened : Opened h pr b page h') :
    h'.Shape blocks (pr :: all) (Function.update same b (pr :: same b))
      (Function.update free pr (chain page (sizes b) (4096 / sizes b))) := by
  have differs : ∀ i ∈ all, i ≠ pr := fun i member => shape.pages.ne_opened opened member
  have other : ∀ i ∈ all, h'.pagerefs i = h.pagerefs i := fun i member =>
    opened.others i (differs i member)
  have away : ∀ i ∈ all, page + 4096 ≤ (h.pagerefs i).pageaddr ∨ (h.pagerefs i).pageaddr + 4096 ≤ page :=
    fun i member => unowned.heap i ((shape.pages.inuse i).1 member)
  have outside : ∀ i ∈ all, ∀ a, h.Slot i a → h'.memory a = h.memory a := by
    intro i member a slot
    have inside := slot.inside (shape.pages.type i member)
    have positive := Pageref.size_pos (shape.pages.type i member)
    have apart := away i member
    exact opened.outside a (by omega)
  refine ⟨shape.pages.opened type unowned.pages away opened,fun i member => ?_,fun a live => ?_,
    shape.disjoint⟩
  · rcases List.mem_cons.1 member with rfl | old
    · rw [Function.update_self]
      exact opened.freeList unowned.pages type
    · rw [Function.update_of_ne (differs i old)]
      have list := shape.lists i old
      exact list.congr (by rw [other i old]) (by rw [other i old]) (by rw [other i old])
        fun a inside => outside i old a (list.slot a inside)
  · have placed := shape.placed a live
    constructor
    · intro small
      obtain ⟨j,inJ,isType,slot,used⟩ := placed.small small
      refine ⟨j,List.mem_cons_of_mem _ inJ,?_,slot.congr (by rw [other j inJ]),?_⟩
      · rw [other j inJ]
        exact isType
      · rwa [Function.update_of_ne (differs j inJ)]
    · intro large
      obtain ⟨range,apart⟩ := placed.large large
      refine ⟨range,fun j inJ => ?_⟩
      rcases List.mem_cons.1 inJ with rfl | old
      · rw [opened.pageaddr unowned.pages type]
        exact (unowned.large a live large).symm
      · rw [other j old]
        exact apart j old

end Open

/-! `kmalloc` -/

variable {sz : Nat}

theorem doalloc_sound (shape : h.Shape blocks all same free) (inJ : j ∈ all)
    (small : sz < 2048) (type : (h.pagerefs j).blocktype = blocktypeOf sz) (some_free : 0 < (h.pagerefs j).nfree)
    (others : ∀ i ∈ all, i ≠ j → (h.pagerefs i).nfree < 4096 / (h.pagerefs i).size) :
    (doalloc j).wp h (fun ptr h' => ptr ≠ 0 ∧ h'.Sound (⟨ptr,sz⟩ :: blocks)) never never := by
  have list := shape.lists j inJ
  have most := list.nfree_le
  rcases first : free j with _ | ⟨a,rest⟩
  · have := list.count
    rw [first,List.length_nil] at this
    omega
  · have slot := (list.slot a (by rw [first]; simp)).inside (shape.pages.type j inJ)
    have low := (shape.pages.page j inJ).low
    rw [first] at list
    refine wp_imp (doalloc_spec shape.pages inJ list) ?_
    rintro _ h' ⟨rfl,popped⟩
    refine ⟨by omega,_,_,_,shape.take inJ first popped small type,fun i inI => ?_⟩
    rw [Pageref.size,Pageref.blocktype,popped.pages.page,← Pageref.blocktype,← Pageref.size]
    by_cases here : i = j
    · subst here
      rw [popped.nfree]
      omega
    · rw [popped.others i here]
      exact others i inI here

theorem length_le_npagerefs {list : List Nat} (nodup : list.Nodup) (bound : ∀ j ∈ list, j < npagerefs) :
    list.length < npagerefs + 1 := by
  have := (List.subperm_of_subset nodup fun j member => List.mem_range.2 (bound j member)).length_le
  rw [List.length_range] at this
  omega

theorem Pages.length_all (pages : h.Pages all same) : all.length < npagerefs + 1 :=
  length_le_npagerefs pages.listed.nodup fun j member => ((pages.inuse j).1 member).1

theorem Pages.length_same (pages : h.Pages all same) (type : b < nsizes) :
    (same b).length < npagerefs + 1 :=
  length_le_npagerefs (pages.typed b type).nodup fun j member =>
    ((pages.inuse j).1 ((pages.types b type j).1 member).1).1

theorem subpageKmalloc_spec (sound : h.Sound blocks) (small : sz < 2048)
    (answer : page = 0 ∨ h.Unowned blocks page 4096) :
    (subpageKmalloc sz page).wp h (fun ptr h' => (ptr = 0 ∧ h'.Sound blocks) ∨
      (ptr ≠ 0 ∧ h'.Sound (⟨ptr,sz⟩ :: blocks))) never never := by
  obtain ⟨all,same,free,shape,partly⟩ := sound.shape
  have type := blocktypeOf_lt small.le
  rw [subpageKmalloc,wp_bind]
  refine wp_imp (blocktype_spec small.le) ?_
  rintro b _ ⟨rfl,rfl⟩
  rw [wp_bind,wp_read,wp_bind]
  refine wp_imp (searchFree_spec (fun j member => ((shape.pages.types _ type j).1 member).2)
    (shape.pages.length_same type) (shape.pages.typed _ type)) ?_
  rintro (_ | j) h' ⟨rfl,found⟩
  · -- no page of the size has a free block
    rw [wp_bind]
    refine wp_imp (freshPage_spec (answer.imp_right Unowned.pages) type) ?_
    rintro (_ | pr) h' outcome
    · obtain ⟨refs,memory,kept⟩ := outcome
      refine .inl ⟨rfl,all,same,free,⟨shape.pages.congr kept,fun j inJ => ?_,fun b live => ?_,
        shape.disjoint⟩,fun j inJ => ?_⟩
      · exact (shape.lists j inJ).congr (by rw [refs]) (by rw [refs]) (by rw [refs]) fun a _ => by rw [memory]
      · exact (shape.placed b live).congr (fun j _ => by rw [refs]) fun _ _ h => h
      · rw [refs]
        exact partly j inJ
    · obtain ⟨range,opened⟩ := outcome
      have nonzero : page ≠ 0 := by
        have := range.low
        omega
      have opening := shape.opened type (answer.resolve_left nonzero) opened
      obtain ⟨_,blktype⟩ := mkpab_pageaddr range.aligned type
      have count := two_le_blocks type
      refine wp_imp (doalloc_sound opening (by simp) small ?_ ?_ ?_) (fun _ _ h => .inr h)
      · rw [opened.mine,Pageref.blocktype,blktype]
      · rw [opened.mine]
        exact Nat.lt_of_lt_of_le Nat.zero_lt_two count.1
      · intro i member differ
        rw [opened.others i differ]
        exact partly i ((List.mem_cons.1 member).resolve_left differ)
  · obtain ⟨inSame,some_free⟩ := found j rfl
    obtain ⟨inJ,isType⟩ := (shape.pages.types _ type j).1 inSame
    exact wp_imp (doalloc_sound shape inJ small isType some_free fun i inI _ => partly i inI)
      (fun _ _ h => .inr h)

/-- The bytes that `kmalloc` asks `alloc_kpages` for, if it calls it. -/
def askedFor (sz : Nat) : Nat := if sz < 2048 then 4096 else inPages sz

theorem Shape.large_apart (shape : h.Shape blocks all same free) {bytes : Nat}
    (unowned : h.Unowned blocks page bytes) {b : Alloc} (live : b ∈ blocks) :
    page + bytes ≤ b.ptr ∨ b.ptr + roomOf b.sz ≤ page := by
  by_cases small : b.sz < 2048
  · obtain ⟨j,inJ,type,slot,_⟩ := (shape.placed b live).small small
    have away := unowned.heap j ((shape.pages.inuse j).1 inJ)
    have inside := slot.inside (shape.pages.type j inJ)
    rw [roomOf_page small type]
    omega
  · rw [roomOf_large (Nat.not_lt.1 small)]
    exact unowned.large b live (Nat.not_lt.1 small)

theorem kmalloc_spec (sound : h.Sound blocks)
    (answer : page = 0 ∨ h.Unowned blocks page (askedFor sz)) :
    (kmalloc sz page).wp h (fun ptr h' => (ptr = 0 ∧ h'.Sound blocks) ∨
      (ptr ≠ 0 ∧ h'.Sound (⟨ptr,sz⟩ :: blocks))) never never := by
  unfold askedFor at answer
  rw [kmalloc,wp_ite]
  constructor
  · intro large
    rw [if_neg (Nat.not_lt.2 large)] at answer
    rcases answer with rfl | unowned
    · exact .inl ⟨rfl,sound⟩
    · obtain ⟨all,same,free,shape,partly⟩ := sound.shape
      have low := unowned.pages.low
      refine .inr ⟨by omega,all,same,free,⟨shape.pages,shape.lists,fun b live => ?_,?_⟩,partly⟩
      · rcases List.mem_cons.1 live with rfl | old
        · exact ⟨fun small => absurd small (Nat.not_lt.2 large),fun _ => ⟨unowned.pages,fun j inJ =>
            unowned.heap j ((shape.pages.inuse j).1 inJ)⟩⟩
        · exact shape.placed b old
      · refine List.pairwise_cons.2 ⟨fun b live => ?_,shape.disjoint⟩
        unfold Alloc.Apart
        rw [roomOf_large large]
        exact shape.large_apart unowned live
  · intro small
    rw [if_pos (Nat.not_le.1 small)] at answer
    exact subpageKmalloc_spec sound (Nat.not_le.1 small) answer

end Heap
end Os161
