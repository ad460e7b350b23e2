import Mathlib.Data.List.Range
import Os161.Links
import Os161.Ram

/-! `kheap.c`: the subpage allocator. Pagerefs are told apart by their index in `pagerefs`,
the table of link words is the kernel's memory itself, and addresses are natural numbers
with 32-bit arithmetic. The answer of `alloc_kpages` is an input. -/
namespace Os161

def add32 (a b : Nat) : Nat := (a + b) % 2^32
def sub32 (a b : Nat) : Nat := (a + 2^32 - b) % 2^32

def nsizes : Nat := 8
def sizesTable : List Nat := [16,32,64,128,256,512,1024,2048]
def sizes (blktype : Nat) : Nat := sizesTable.getD blktype 0

structure Pageref where
  nextSamesize : Option Nat
  nextAll : Option Nat
  pageaddrAndBlocktype : Nat
  freelistOffset : Nat
  nfree : Nat
  deriving DecidableEq, Repr

def invalidOffset : Nat := 0xffff
def npagerefs : Nat := 256

namespace Pageref

def pageaddr (pr : Pageref) : Nat := pr.pageaddrAndBlocktype / 4096 * 4096
def blocktype (pr : Pageref) : Nat := pr.pageaddrAndBlocktype % 4096

def size (pr : Pageref) : Nat := sizes pr.blocktype

end Pageref

def mkpab (pa blk : Nat) : Nat := pa / 4096 * 4096 + blk % 4096

structure Heap where
  pagerefs : Nat → Pageref
  pagerefsInuse : Nat → BitVec 32
  sizebases : Nat → Option Nat
  allbase : Option Nat
  /-- The words of memory, by address; only link words are ever read. -/
  memory : Nat → Nat

/-- The asserts and panics of `kheap.c`. `endless` is a list walk longer than any list of
pagerefs can be. -/
inductive HeapPanic where
  | allocpagerefFull | freepagerefRange | freepagerefInuse | removeListsBlktype | blocktypeSize
  | kmallocBlktype | kmallocOffset | kmallocMore | kmallocLink | kmallocLast
  | freshLink | freshOffset
  | kfreeBlktype | kfreeInvalidAddr | kfreeNfree | kfreeUnaligned
  | endless
  deriving DecidableEq, Repr

abbrev HeapM (α : Type) := Exec Heap Errno HeapPanic α

namespace Heap

def update (h : Heap) (pr : Nat) (f : Pageref → Pageref) : Heap :=
  { h with pagerefs := Function.update h.pagerefs pr (f (h.pagerefs pr)) }

def store (h : Heap) (address value : Nat) : Heap :=
  { h with memory := Function.update h.memory address value }

def setInuse (h : Heap) (i : Nat) (word : BitVec 32) : Heap :=
  { h with pagerefsInuse := Function.update h.pagerefsInuse i word }

def allLinks (h : Heap) : Links Nat := ⟨h.allbase,fun i => (h.pagerefs i).nextAll⟩
def sameLinks (h : Heap) (blktype : Nat) : Links Nat :=
  ⟨h.sizebases blktype,fun i => (h.pagerefs i).nextSamesize⟩

/-- `*guy = target` on either list. -/
def writeAll (h : Heap) (target : Option Nat) : Links.Place Nat → Heap
  | .base => { h with allbase := target }
  | .next i => h.update i fun p => { p with nextAll := target }

def writeSame (h : Heap) (blktype : Nat) (target : Option Nat) : Links.Place Nat → Heap
  | .base => { h with sizebases := Function.update h.sizebases blktype target }
  | .next i => h.update i fun p => { p with nextSamesize := target }

end Heap

/-- The inner loop of `allocpageref`, from bit `j` on. -/
def firstClear (word : BitVec 32) : Nat → Nat → Option Nat
  | 0, _ => none
  | count + 1, j => if word.getLsbD j then firstClear word count (j + 1) else some j

def allocpagerefFrom : Nat → Nat → HeapM (Option Nat)
  | 0, _ => pure none
  | count + 1, i => do
    let word := (← read).pagerefsInuse i
    if word = BitVec.allOnes 32 then allocpagerefFrom count (i + 1)
    else match firstClear word 32 0 with
      | some j => do
        modify (Heap.setInuse · i (word ||| BitVec.twoPow 32 j))
        pure (some (i * 32 + j))
      | none => panic .allocpagerefFull

def allocpageref : HeapM (Option Nat) := allocpagerefFrom (npagerefs / 32) 0

def freepageref (j : Nat) : HeapM Unit := do
  assert (j < npagerefs) .freepagerefRange
  let word := (← read).pagerefsInuse (j / 32)
  assert (word.getLsbD (j % 32)) .freepagerefInuse
  modify (Heap.setInuse · (j / 32) (word &&& ~~~BitVec.twoPow 32 (j % 32)))

/-- One of the two loops of `remove_lists`. -/
def unlinkPageref (links : Heap → Links Nat) (write : Heap → Option Nat → Links.Place Nat → Heap)
    (pr : Nat) : HeapM Unit := do
  let h ← read
  match (links h).seek pr (npagerefs + 1) .base with
  | none => panic .endless
  | some none => pure ()
  | some (some guy) => modify fun h => write h ((links h).next pr) guy

def removeLists (pr blktype : Nat) : HeapM Unit := do
  assert (blktype < nsizes) .removeListsBlktype
  unlinkPageref (Heap.sameLinks · blktype) (Heap.writeSame · blktype) pr
  unlinkPageref Heap.allLinks Heap.writeAll pr

def blocktypeFrom (sz : Nat) : Nat → Nat → HeapM Nat
  | 0, _ => panic .blocktypeSize
  | count + 1, i => if sz ≤ sizes i then pure i else blocktypeFrom sz count (i + 1)

def blocktype (sz : Nat) : HeapM Nat := blocktypeFrom sz nsizes 0

/-- The search loop of `subpage_kmalloc`, from `pr` on. -/
def searchFree (blktype : Nat) : Nat → Option Nat → HeapM (Option Nat)
  | 0, _ => panic .endless
  | _ + 1, none => pure none
  | fuel + 1, some pr => do
    let p := (← read).pagerefs pr
    assert (p.blocktype = blktype) .kmallocBlktype
    if p.nfree > 0 then pure (some pr) else searchFree blktype fuel p.nextSamesize

def doalloc (pr : Nat) : HeapM Nat := do
  let h ← read
  let p := h.pagerefs pr
  assert (p.freelistOffset < 4096) .kmallocOffset
  let prpage := p.pageaddr
  let retptr := add32 prpage p.freelistOffset
  let fl := h.memory retptr
  let nfree := (p.nfree + 0xffff) % 2^16
  if fl ≠ 0 then do
    assert (nfree > 0) .kmallocMore
    assert (sub32 fl prpage < 4096) .kmallocLink
    modify (Heap.update · pr fun p => { p with nfree := nfree, freelistOffset := sub32 fl prpage })
    pure retptr
  else do
    assert (nfree = 0) .kmallocLast
    modify (Heap.update · pr fun p => { p with nfree := nfree, freelistOffset := invalidOffset })
    pure retptr

/-- The body of the loop that links the blocks of a fresh page; the local is `fl`. -/
def linkBlock (prpage blktype i _fl : Nat) : HeapM Nat := do
  let fl := add32 prpage (i * sizes blktype)
  let next := add32 prpage ((i - 1) * sizes blktype)
  modify (Heap.store · fl next)
  assert (fl ≠ next) .freshLink
  pure fl

def linkBlocks (prpage blktype nfree : Nat) : HeapM Nat :=
  loop (linkBlock prpage blktype) (nfree - 1) 1 prpage

/-- The rest of `subpage_kmalloc` up to the `goto`: a fresh page, if there is one. -/
def freshPage (blktype prpage : Nat) : HeapM (Option Nat) := do
  match ← allocpageref with
  | none => pure none
  | some pr =>
    if prpage = 0 then do
      freepageref pr
      pure none
    else do
      let nfree := 4096 / sizes blktype
      modify (Heap.update · pr fun p =>
        { p with pageaddrAndBlocktype := mkpab prpage blktype, nfree := nfree })
      modify (Heap.store · prpage 0)
      let fl ← linkBlocks prpage blktype nfree
      let offset := sub32 fl prpage % 2^16
      modify (Heap.update · pr fun p => { p with freelistOffset := offset })
      assert (offset = (nfree - 1) * sizes blktype) .freshOffset
      modify fun h => (h.update pr fun p => { p with nextSamesize := h.sizebases blktype }).writeSame
        blktype (some pr) .base
      modify fun h => (h.update pr fun p => { p with nextAll := h.allbase }).writeAll (some pr) .base
      pure (some pr)

/-- `page` is what `alloc_kpages(1)` answers, if it is called. The result 0 is `NULL`. -/
def subpageKmalloc (sz page : Nat) : HeapM Nat := do
  let blktype ← blocktype sz
  match ← searchFree blktype (npagerefs + 1) ((← read).sizebases blktype) with
  | some pr => doalloc pr
  | none =>
    match ← freshPage blktype page with
    | some pr => doalloc pr
    | none => pure 0

def fillDeadbeef (ptr len : Nat) : HeapM Unit :=
  modify fun h => (List.range (len / 4)).foldl (fun h i => h.store (add32 ptr (4 * i)) 0xdeadbeef) h

/-- The search loop of `subpage_kfree`, from `pr` on. -/
def searchPage (ptraddr : Nat) : Nat → Option Nat → HeapM (Option Nat)
  | 0, _ => panic .endless
  | _ + 1, none => pure none
  | fuel + 1, some pr => do
    let p := (← read).pagerefs pr
    assert (p.blocktype < nsizes) .kfreeBlktype
    if ptraddr ≥ p.pageaddr ∧ ptraddr < add32 p.pageaddr 4096 then pure (some pr)
    else searchPage ptraddr fuel p.nextAll

/-- The end of `subpage_kfree`: the block goes to the front of its page's free list. -/
def putBack (pr offset : Nat) : HeapM Unit := do
  let p := (← read).pagerefs pr
  let next := if p.freelistOffset = invalidOffset then 0 else add32 p.pageaddr p.freelistOffset
  let nfree := (p.nfree + 1) % 2^16
  modify (Heap.store · (add32 p.pageaddr offset) next)
  modify (Heap.update · pr fun p => { p with freelistOffset := offset, nfree := nfree })
  assert (nfree ≤ 4096 / p.size) .kfreeNfree
  if nfree = 4096 / p.size then do
    removeLists pr p.blocktype
    freepageref pr
  else pure ()

/-- The result says whether the pointer is on one of the pages. -/
def subpageKfree (ptr : Nat) : HeapM Bool := do
  match ← searchPage ptr (npagerefs + 1) (← read).allbase with
  | none => pure false
  | some pr => do
    let p := (← read).pagerefs pr
    let offset := sub32 ptr p.pageaddr
    if offset ≥ 4096 ∨ offset % p.size ≠ 0 then panic .kfreeInvalidAddr
    else do
      fillDeadbeef ptr p.size
      putBack pr offset
      pure true

/-- `page` is the answer of `alloc_kpages`, of one page for a small block and of enough
pages for a large one. -/
def kmalloc (sz page : Nat) : HeapM Nat :=
  if sz ≥ 2048 then pure page else subpageKmalloc sz page

/-- `free_kpages` does nothing that this model could see. -/
def kfree (ptr : Nat) : HeapM Unit := do
  if ptr = 0 then pure ()
  else if ← subpageKfree ptr then pure ()
  else assert (ptr % 4096 = 0) .kfreeUnaligned

end Os161
