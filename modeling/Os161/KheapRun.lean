import Os161.KheapFree

/-! Sequences of `kmalloc` and `kfree`, with writes of the clients into their blocks in
between. -/
namespace Os161

structure HeapState where
  heap : Heap
  live : List Alloc

/-- `page` is the answer of `alloc_kpages`, should it be called. -/
inductive HeapOp where
  | kmalloc (sz page : Nat)
  | kfree (block : Alloc)
  | write (address value : Nat)

def HeapState.granted (s : HeapState) (sz : Nat) : Outcome Errno HeapPanic Nat × Heap → HeapState
  | (.ok ptr,h) => ⟨h,if ptr = 0 then s.live else ⟨ptr,sz⟩ :: s.live⟩
  | (_,h) => ⟨h,s.live⟩

def HeapOp.after (s : HeapState) : HeapOp → HeapState
  | .kmalloc sz page => s.granted sz (Os161.kmalloc sz page s.heap)
  | .kfree block => ⟨(Os161.kfree block.ptr s.heap).2,s.live.erase block⟩
  | .write address value => { s with heap := s.heap.store address value }

/-- The answers of `alloc_kpages` are pages nobody owns; clients free and write only what
is theirs. -/
def HeapOp.Legal (s : HeapState) : HeapOp → Prop
  | .kmalloc sz page => page = 0 ∨ s.heap.Unowned s.live page (Heap.askedFor sz)
  | .kfree block => block ∈ s.live
  | .write address _ => ∃ b ∈ s.live, b.ptr ≤ address ∧ address < b.ptr + b.sz

inductive HeapRun (start : HeapState) : HeapState → Prop
  | none : HeapRun start start
  | step {s : HeapState} {op : HeapOp} (earlier : HeapRun start s) (legal : op.Legal s) :
      HeapRun start (op.after s)

def bootHeap (memory : Nat → Nat) : HeapState where
  heap := ⟨fun _ => ⟨none,none,0,0,0⟩,fun _ => 0,fun _ => none,none,memory⟩
  live := []

theorem bootHeap_sound (memory : Nat → Nat) : (bootHeap memory).heap.Sound (bootHeap memory).live := by
  refine ⟨[],fun _ => [],fun _ => [],⟨⟨.nil,fun _ _ => .nil,fun j => ?_,fun _ _ j => ?_,?_,?_,?_⟩,?_,?_,?_⟩,?_⟩
  · simp [Heap.Inuse,bootHeap]
  · simp
  · exact fun j member => absurd member List.not_mem_nil
  · exact fun j member => absurd member List.not_mem_nil
  · exact fun j member => absurd member List.not_mem_nil
  · exact fun j member => absurd member List.not_mem_nil
  · exact fun b member => absurd member List.not_mem_nil
  · exact .nil
  · exact fun j member => absurd member List.not_mem_nil

theorem le_roomOf (sz : Nat) : sz ≤ roomOf sz := by
  by_cases small : sz < 2048
  · rw [Heap.roomOf_small small]
    exact le_sizes_blocktypeOf small.le
  · rw [Heap.roomOf_large (Nat.not_lt.1 small)]
    exact le_inPages sz

theorem HeapOp.after_sound {s : HeapState} (sound : s.heap.Sound s.live) {op : HeapOp} (legal : op.Legal s) :
    (op.after s).heap.Sound (op.after s).live := by
  cases op with
  | kmalloc sz page =>
    obtain ⟨ptr,h,ran,result⟩ := wp_returns (Heap.kmalloc_spec sound legal)
    rw [HeapOp.after,ran,HeapState.granted]
    rcases result with ⟨rfl,same⟩ | ⟨nonzero,more⟩
    · exact same
    · rw [if_neg nonzero]
      exact more
  | kfree block =>
    obtain ⟨_,h,ran,freed⟩ := wp_returns (Heap.kfree_spec sound legal)
    rw [HeapOp.after,ran]
    exact freed
  | write address value =>
    obtain ⟨b,member,low,high⟩ := legal
    obtain ⟨all,same,free,shape,partly⟩ := sound.shape
    have room := le_roomOf b.sz
    have written : (s.heap.store address value).Shape s.live all same free :=
      shape.write member rfl fun a outside => Heap.store_other s.heap (by omega)
    exact ⟨all,same,free,written,partly⟩

theorem HeapRun.sound {memory : Nat → Nat} {s : HeapState} (run : HeapRun (bootHeap memory) s) :
    s.heap.Sound s.live := by
  induction run with
  | none => exact bootHeap_sound memory
  | step _ legal ih => exact HeapOp.after_sound ih legal

/-- The heap as a whole. Each page in use is once on the list of all pages and once on the
list of its type; its free list ends, so it has no cycle, has `nfree` entries at blocks of
the page, and touches no live block; and not all of it is free. -/
structure HeapState.Consistent (s : HeapState) : Prop where
  lists : ∃ (all : List Nat) (same : Nat → List Nat), s.heap.allLinks.Lists all ∧ all.Nodup ∧
    (∀ j, j ∈ all ↔ s.heap.Inuse j) ∧
    ∀ b, b < nsizes → (s.heap.sameLinks b).Lists (same b) ∧ (same b).Nodup ∧
      ∀ j, j ∈ same b ↔ s.heap.Inuse j ∧ (s.heap.pagerefs j).blocktype = b
  types : ∀ j, s.heap.Inuse j → (s.heap.pagerefs j).blocktype < nsizes
  free : ∀ j, s.heap.Inuse j → ∃ list, (s.heap.freeLinks j).Lists list ∧ list.Nodup ∧
    list.length = (s.heap.pagerefs j).nfree ∧ ∀ a ∈ list, s.heap.Slot j a ∧
      ∀ b ∈ s.live, a + (s.heap.pagerefs j).size ≤ b.ptr ∨ b.ptr + roomOf b.sz ≤ a
  offset : ∀ j, s.heap.Inuse j →
    ((s.heap.pagerefs j).freelistOffset = invalidOffset ↔ (s.heap.pagerefs j).nfree = 0)
  partly : ∀ j, s.heap.Inuse j → (s.heap.pagerefs j).nfree < 4096 / (s.heap.pagerefs j).size
  blocks : ∀ b ∈ s.live, b.ptr % 16 = 0 ∧ b.sz ≤ roomOf b.sz ∧ (b.sz < 2048 →
    ∃ j, s.heap.Inuse j ∧ s.heap.Slot j b.ptr ∧ (s.heap.pagerefs j).size = roomOf b.sz)
  disjoint : s.live.Pairwise Alloc.Apart

theorem Heap.Slot.aligned {h : Heap} {j a : Nat} (slot : h.Slot j a)
    (type : (h.pagerefs j).blocktype < nsizes) (page : (h.pagerefs j).pageaddr % 4096 = 0) : a % 16 = 0 := by
  obtain ⟨m,_,rfl⟩ := slot
  have divides : 16 ∣ m * (h.pagerefs j).size := (sixteen_dvd_sizes type).mul_left m
  omega

section Consistency
variable {h : Heap} {blocks : List Alloc} {all : List Nat} {same free : Nat → List Nat}

theorem Heap.Shape.ptr_aligned (shape : h.Shape blocks all same free) {b : Alloc} (live : b ∈ blocks) :
    b.ptr % 16 = 0 := by
  by_cases small : b.sz < 2048
  · obtain ⟨j,inJ,_,slot,_⟩ := (shape.placed b live).small small
    exact slot.aligned (shape.pages.type j inJ) (shape.pages.page j inJ).aligned
  · have aligned := ((shape.placed b live).large (Nat.not_lt.1 small)).1.aligned
    omega

theorem Heap.FreeList.offset_iff {j : Nat} {list : List Nat} (free : h.FreeList j list) :
    (h.pagerefs j).freelistOffset = invalidOffset ↔ (h.pagerefs j).nfree = 0 := by
  have base := free.listed.eq_none
  rw [← free.count,List.length_eq_zero_iff,← base]
  simp only [Heap.freeLinks]
  split
  · next none => exact ⟨fun _ => rfl,fun _ => none⟩
  · next some => exact ⟨fun none => absurd none some,fun none => absurd none (Option.some_ne_none _)⟩

theorem HeapState.consistent {s : HeapState} (sound : s.heap.Sound s.live) : s.Consistent := by
  obtain ⟨all,same,free,shape,partly⟩ := sound.shape
  have inuse := shape.pages.inuse
  constructor
  · refine ⟨all,same,shape.pages.listed,shape.pages.listed.nodup,inuse,fun b small => ?_⟩
    refine ⟨shape.pages.typed b small,(shape.pages.typed b small).nodup,fun j => ?_⟩
    rw [shape.pages.types b small,inuse]
  · exact fun j used => shape.pages.type j ((inuse j).2 used)
  · intro j used
    have inJ := (inuse j).2 used
    have list := shape.lists j inJ
    exact ⟨free j,list.listed,list.listed.nodup,list.count,fun a unused =>
      ⟨list.slot a unused,fun b live => shape.free_apart inJ unused live⟩⟩
  · exact fun j used => (shape.lists j ((inuse j).2 used)).offset_iff
  · exact fun j used => partly j ((inuse j).2 used)
  · intro b live
    refine ⟨shape.ptr_aligned live,le_roomOf b.sz,fun small => ?_⟩
    obtain ⟨j,inJ,type,slot,_⟩ := (shape.placed b live).small small
    exact ⟨j,(inuse j).1 inJ,slot,(Heap.roomOf_page small type).symm⟩
  · exact shape.disjoint

end Consistency

/-- What the caller of an operation sees: no assert fires; a block is aligned, large enough
and apart from every live one; the page that `kfree` finds is the page of the block. -/
def HeapOp.Serves (s : HeapState) : HeapOp → Prop
  | .kmalloc sz page => ∃ ptr h, Os161.kmalloc sz page s.heap = (.ok ptr,h) ∧ (ptr ≠ 0 →
      ptr % 16 = 0 ∧ sz ≤ roomOf sz ∧ ∀ b ∈ s.live, Alloc.Apart ⟨ptr,sz⟩ b)
  | .kfree block => (∃ h, Os161.kfree block.ptr s.heap = (.ok (),h)) ∧ (block.sz < 2048 →
      ∃ j, searchPage block.ptr (npagerefs + 1) s.heap.allbase s.heap = (.ok (some j),s.heap) ∧
        s.heap.Inuse j ∧ s.heap.Slot j block.ptr ∧ (s.heap.pagerefs j).size = roomOf block.sz)
  | .write _ _ => True

/-- In every state that `kmalloc`, `kfree` and writes of clients lead to, the heap is
consistent, and the next operation is served. -/
theorem subpage_heap_consistent {memory : Nat → Nat} {s : HeapState} (run : HeapRun (bootHeap memory) s) :
    s.Consistent ∧ ∀ op : HeapOp, op.Legal s → op.Serves s := by
  have sound := run.sound
  refine ⟨HeapState.consistent sound,fun op legal => ?_⟩
  cases op with
  | kmalloc sz page =>
    obtain ⟨ptr,h,ran,result⟩ := wp_returns (Heap.kmalloc_spec sound legal)
    refine ⟨ptr,h,ran,fun nonzero => ?_⟩
    rcases result with ⟨zero,_⟩ | ⟨_,more⟩
    · exact absurd zero nonzero
    · obtain ⟨all,same,free,shape,_⟩ := more.shape
      exact ⟨shape.ptr_aligned (b := ⟨ptr,sz⟩) (by simp),le_roomOf sz,(List.pairwise_cons.1 shape.disjoint).1⟩
  | kfree block =>
    obtain ⟨_,h,ran,_⟩ := wp_returns (Heap.kfree_spec sound legal)
    refine ⟨⟨h,ran⟩,fun small => ?_⟩
    obtain ⟨all,same,free,shape,_⟩ := sound.shape
    obtain ⟨r,h',found,rfl,_,onPage⟩ := wp_returns (Heap.searchPage_live shape legal)
    obtain ⟨j,inJ,rfl,type,slot,_⟩ := onPage small
    exact ⟨j,found,(shape.pages.inuse j).1 inJ,slot,(Heap.roomOf_page small type).symm⟩
  | write => trivial

def oneBlock : HeapState := (HeapOp.kmalloc 1500 0x80050000).after (bootHeap fun _ => 0)

theorem oneBlock_run : HeapRun (bootHeap fun _ => 0) oneBlock := by
  refine HeapRun.none.step (.inr ⟨⟨by decide,by decide,by decide⟩,fun j used => ?_,fun b live => nomatch live⟩)
  have clear : (0 : BitVec 32).getLsbD (j % 32) = true := used.2
  simp at clear

theorem subpage_heap_consistent_oneBlock :
    oneBlock.live = [⟨0x80050800,1500⟩] ∧ oneBlock.Consistent ∧
      (HeapOp.kfree ⟨0x80050800,1500⟩).Serves oneBlock := by
  have live : oneBlock.live = [⟨0x80050800,1500⟩] := by decide +kernel
  obtain ⟨consistent,serves⟩ := subpage_heap_consistent oneBlock_run
  refine ⟨live,consistent,serves _ ?_⟩
  rw [HeapOp.Legal,live]
  simp

end Os161
