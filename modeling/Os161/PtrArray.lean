import Os161.BitmapSet

/-! `lib/array.c` against a list. The storage is a block of cells behind a pointer that may be null;
an access outside the block halts. `kmalloc` fails where it likes, and always on requests larger
than the memory that `ram_bootstrap` takes over, which is why no count of bytes overflows. -/
namespace Os161

open Function

/-- The assertions of `array.c`, and the accesses that C leaves undefined. -/
inductive ArrayPanic where
  | num | index | null | outside | endless
  deriving DecidableEq, Repr

structure Cells (α : Type) where
  size : Int
  cell : Nat → α

structure PtrArray (α : Type) where
  num : Int
  max : Int
  v : Option (Cells α)

abbrev ArrayCall (α β : Type) := Exec (Held (PtrArray α)) Errno ArrayPanic β

/-- The bytes that `ram_bootstrap` takes over at most. -/
def ramLimit : Nat := 508 * 1024 * 1024

namespace PtrArray

def kmalloc (bytes : Nat) : ArrayCall α Bool := do
  let s ← read
  put { s with mem := s.mem.next }
  return s.mem.ready && bytes ≤ ramLimit

def load (v : Option (Cells α)) (i : Int) : ArrayCall α α :=
  match v with
  | none => panic .null
  | some c => if 0 ≤ i ∧ i < c.size then pure (c.cell i.toNat) else panic .outside

def store (v : Option (Cells α)) (i : Int) (ptr : α) : ArrayCall α (Cells α) :=
  match v with
  | none => panic .null
  | some c =>
    if 0 ≤ i ∧ i < c.size then pure { c with cell := update c.cell i.toNat ptr }
    else panic .outside

def shift (v : Option (Cells α)) (index nmove : Int) : ArrayCall α (Cells α) :=
  match v with
  | none => panic .null
  | some c =>
    if 0 ≤ index ∧ 0 ≤ nmove ∧ index + 1 + nmove ≤ c.size then
      pure { c with cell := fun i =>
        if index ≤ i ∧ i < index + nmove then c.cell (i + 1) else c.cell i }
    else panic .outside

def arrayCreate : Exec Kmem Errno ArrayPanic (Option (PtrArray α)) := do
  if ← Kmem.kmalloc then pure (some ⟨0,0,none⟩) else pure none

def arrayGetguy (index : Int) : ArrayCall α α := do
  let a := (← read).it
  assert (a.num ≤ a.max) .num
  assert (0 ≤ index ∧ index < a.num) .index
  load a.v index

def newmax (nguys : Int) : Nat → Int → ArrayCall α Int
  | 0, _ => panic .endless
  | fuel + 1, max =>
    if nguys > max then newmax nguys fuel (i32 (i32 (max + 1) * 2)) else pure max

section
-- what the memory that the allocator hands out holds, call by call
variable (junk : Nat → Nat → α)

/-- `array_preallocate`; 32 turns of the first loop are enough for any `int`. -/
def arrayPreallocate (nguys : Int) : ArrayCall α Unit := do
  let a := (← read).it
  assert (0 ≤ a.num ∧ a.num ≤ a.max) .num
  let max ← newmax nguys 32 a.max
  let fresh := junk (← read).mem.calls
  if ← kmalloc (u32 (max * 4)) then
    let newv ← loop (fun i newv => do store (some newv) i (← load a.v i)) a.num.toNat 0 ⟨max,fresh⟩
    modify fun t => { t with it := ⟨a.num,max,some newv⟩ }
  else fail .enomem

def arrayReserve (nguys : Int) : ArrayCall α Unit := do
  let a := (← read).it
  assert (0 ≤ a.num ∧ a.num ≤ a.max) .num
  if nguys > a.max then arrayPreallocate junk nguys
  else if nguys = 0 ∧ a.max > 16 then
    assert a.v.isSome .null
    modify fun t => { t with it := { t.it with v := none, max := 0 } }
  else pure ()

def arraySetsize (nguys : Int) : ArrayCall α Unit := do
  arrayReserve junk nguys
  modify fun t => { t with it := { t.it with num := nguys } }

def arrayAdd (guy : α) : ArrayCall α Unit := do
  let ix := (← read).it.num
  arraySetsize junk (i32 (ix + 1))
  let v ← store (← read).it.v ix guy
  modify fun t => { t with it := { t.it with v := some v } }

end

def arraySetguy (index : Int) (ptr : α) : ArrayCall α Unit := do
  let a := (← read).it
  assert (a.num ≤ a.max) .num
  assert (0 ≤ index ∧ index < a.num) .index
  let v ← store a.v index ptr
  modify fun t => { t with it := { t.it with v := some v } }

def arrayRemove (index : Int) : ArrayCall α Unit := do
  let a := (← read).it
  assert (a.num ≤ a.max) .num
  assert (0 ≤ index ∧ index < a.num) .index
  let nmove := a.num - (index + 1)
  let v ← shift a.v index nmove
  modify fun t => { t with it := { t.it with v := some v, num := t.it.num - 1 } }

inductive Op (α : Type) where
  | add (guy : α) | remove (index : Int) | setguy (index : Int) (ptr : α) | setsize (nguys : Int)
  | preallocate (nguys : Int) | getguy (index : Int)

inductive Answer (α : Type) where
  | done | guy (ptr : α)
  deriving DecidableEq

def Op.run (junk : Nat → Nat → α) : Op α → ArrayCall α (Answer α)
  | .add guy => do arrayAdd junk guy; return .done
  | .remove index => do arrayRemove index; return .done
  | .setguy index ptr => do arraySetguy index ptr; return .done
  | .setsize nguys => do arraySetsize junk nguys; return .done
  | .preallocate nguys => do arrayPreallocate junk nguys; return .done
  | .getguy index => do return .guy (← arrayGetguy index)

/-- Indices are below `num` and sizes below 2^28. -/
def Op.Legal : Op α → Held (PtrArray α) → Prop
  | .add _, _ => True
  | .remove index, s => 0 ≤ index ∧ index < s.it.num
  | .setguy index _, s => 0 ≤ index ∧ index < s.it.num
  | .setsize nguys, _ => 0 ≤ nguys ∧ nguys < 2^28
  | .preallocate nguys, _ => 0 ≤ nguys ∧ nguys < 2^28
  | .getguy index, s => 0 ≤ index ∧ index < s.it.num

/-- The operations on lists. Entries that `array_setsize` adds may be anything. -/
def ListSpec : Op α → List α → Except Errno (Answer α) → List α → Prop
  | .add guy, list, .ok .done, next => next = list ++ [guy]
  | .remove index, list, .ok .done, next => next = list.eraseIdx index.toNat
  | .setguy index ptr, list, .ok .done, next => next = list.set index.toNat ptr
  | .setsize nguys, list, .ok .done, next => next.length = nguys ∧
    ∀ i < min list.length nguys.toNat, next[i]? = list[i]?
  | .preallocate _, list, .ok .done, next => next = list
  | .getguy index, list, .ok (.guy ptr), next => list[index.toNat]? = some ptr ∧ next = list
  | .add _, list, .error code, next => code = .enomem ∧ next = list
  | .setsize _, list, .error code, next => code = .enomem ∧ next = list
  | .preallocate _, list, .error code, next => code = .enomem ∧ next = list
  | _, _, _, _ => False

/-- The first `num` cells are the entries of a list. Without a block there is no capacity. -/
structure Holds (s : Held (PtrArray α)) (list : List α) : Prop where
  count : s.it.num = list.length
  fits : s.it.num ≤ s.it.max
  small : s.it.max * 4 ≤ ramLimit
  null : s.it.v = none → s.it.max = 0
  block : ∀ c, s.it.v = some c → c.size = s.it.max ∧ ∀ i < list.length, list[i]? = some (c.cell i)

section Specs
variable {s : Held (PtrArray α)} {list : List α} {c : Cells α} {i : Int}

theorem wp_load (inside : 0 ≤ i ∧ i < c.size) {ok : α → Held (PtrArray α) → Prop}
    {err : Errno → Held (PtrArray α) → Prop} {halt : ArrayPanic → Held (PtrArray α) → Prop} :
    (load (some c) i).wp s ok err halt ↔ ok (c.cell i.toNat) s := by
  simp only [load,if_pos inside,wp_pure]

theorem wp_store (inside : 0 ≤ i ∧ i < c.size) {ptr : α} {ok : Cells α → Held (PtrArray α) → Prop}
    {err : Errno → Held (PtrArray α) → Prop} {halt : ArrayPanic → Held (PtrArray α) → Prop} :
    (store (some c) i ptr).wp s ok err halt ↔
      ok { c with cell := update c.cell i.toNat ptr } s := by
  simp only [store,if_pos inside,wp_pure]

theorem Holds.some_block (holds : Holds s list) (room : 0 < s.it.max) :
    ∃ c, s.it.v = some c ∧ c.size = s.it.max ∧ ∀ i < list.length, list[i]? = some (c.cell i) := by
  cases storage : s.it.v with
  | none =>
    have := holds.null storage
    omega
  | some c => exact ⟨c,rfl,holds.block c storage⟩

theorem Holds.nonneg (holds : Holds s list) : 0 ≤ s.it.num ∧ s.it.num ≤ s.it.max :=
  ⟨by rw [holds.count]; omega,holds.fits⟩

theorem holds_cells {t : Held (PtrArray α)} {n : Nat} (num : t.it.num = n) (fits : t.it.num ≤ t.it.max)
    (small : t.it.max * 4 ≤ ramLimit) (storage : t.it.v = some c) (size : c.size = t.it.max) :
    Holds t ((List.range n).map c.cell) where
  count := by rw [num,List.length_map,List.length_range]
  fits := fits
  small := small
  null none_ := by
    rw [storage] at none_
    exact absurd none_ (Option.some_ne_none c)
  block d isBlock := by
    obtain rfl := Option.some.inj (storage.symm.trans isBlock)
    refine ⟨size,fun i inside => ?_⟩
    rw [List.length_map,List.length_range] at inside
    rw [List.getElem?_map,List.getElem?_range inside,Option.map_some]

theorem holds_nil (mem : Kmem) : Holds (⟨⟨0,0,none⟩,mem⟩ : Held (PtrArray α)) [] where
  count := rfl
  fits := Int.le_refl 0
  small := show (0 : Int) * 4 ≤ 532676608 by decide
  null _ := rfl
  block c isBlock := absurd isBlock (Option.some_ne_none c).symm

theorem newmax_spec {nguys : Int} (small : nguys < 2^28) (fuel : Nat) (max : Int) (low : 0 ≤ max)
    (high : max < 2^29) (enough : nguys + 2 ≤ (max + 2) * 2^fuel) :
    (newmax nguys (fuel + 1) max).wp s
      (fun r t => t = s ∧ max ≤ r ∧ nguys ≤ r ∧ r < 2^29) never never := by
  induction fuel generalizing max with
  | zero =>
    rw [newmax,if_neg (by omega),wp_pure]
    exact ⟨rfl,Int.le_refl _,by omega,high⟩
  | succ fuel ih =>
    rw [newmax,wp_ite]
    refine ⟨fun more => ?_,fun done => ⟨rfl,Int.le_refl _,by omega,high⟩⟩
    rw [i32_of_bounds (show -2^31 ≤ max + 1 by omega) (by omega),
      i32_of_bounds (show -2^31 ≤ (max + 1) * 2 by omega) (by omega)]
    have enough : nguys + 2 ≤ ((max + 1) * 2 + 2) * 2^fuel := by
      rw [show (max + 1) * 2 + 2 = (max + 2) * 2 by omega,mul_assoc,← pow_succ']
      exact enough
    apply wp_imp (ih _ (by omega) (by omega) enough)
    rintro r t ⟨same,larger,reached,bound⟩
    exact ⟨same,by omega,reached,bound⟩

theorem copy_spec (list : List α) {old : Option (Cells α)} {n : Nat} (new : Cells α) (room : n ≤ new.size)
    (block : ∀ i < n, ∃ d, old = some d ∧ (i : Int) < d.size ∧ list[i]? = some (d.cell i)) :
    (loop (fun i newv => do store (some newv) i (← load old i)) n 0 new : ArrayCall α (Cells α)).wp s
      (fun newv t => t = s ∧ newv.size = new.size ∧ ∀ i < n, list[i]? = some (newv.cell i))
      never never := by
  apply wp_loop_zero
    (fun i (newv : Cells α) t => t = s ∧ newv.size = new.size ∧ ∀ j < i, list[j]? = some (newv.cell j))
  · exact ⟨rfl,rfl,fun j less => absurd less (Nat.not_lt_zero j)⟩
  · rintro i newv t less ⟨rfl,size,copied⟩
    obtain ⟨d,rfl,inside,entry⟩ := block i less
    rw [wp_bind,wp_load ⟨by omega,inside⟩,wp_store ⟨by omega,by omega⟩,Int.toNat_natCast]
    refine ⟨rfl,size,fun j lessJ => ?_⟩
    by_cases same : j = i
    · rw [same,entry]
      simp only [update_self]
    · rw [copied j (by omega)]
      simp only [update_of_ne same]

variable (junk : Nat → Nat → α)

theorem arrayPreallocate_spec (holds : Holds s list) {nguys : Int} (low : 0 ≤ nguys)
    (high : nguys < 2^28) :
    (arrayPreallocate junk nguys).wp s
      (fun _ t => Holds t list ∧ nguys ≤ t.it.max)
      (fun code t => code = .enomem ∧ t.it = s.it) never := by
  have counted := holds.nonneg
  have limit : (ramLimit : Int) = 532676608 := rfl
  have small := holds.small
  rw [arrayPreallocate,wp_bind,wp_read,wp_bind,wp_assert,
    if_pos (decide_eq_true counted),wp_bind]
  apply wp_total (newmax_spec high 31 s.it.max (by omega) (by omega) (by omega))
  rintro max t ⟨rfl,larger,reached,bound⟩
  have bytes : u32 (max * 4) = (max * 4).toNat := u32_of_bounds (by omega) (by omega)
  simp only [kmalloc,bytes,wp_bind,wp_read,wp_put,wp_pure]
  rw [wp_ite]
  refine ⟨fun granted => ?_,fun _ => ⟨rfl,rfl⟩⟩
  rw [Bool.and_eq_true,decide_eq_true_eq] at granted
  have num := holds.count
  rw [wp_bind]
  apply wp_mono (copy_spec list ⟨max,junk t.mem.calls⟩ ?_ ?_)
  · rintro newv u ⟨rfl,size,copied⟩
    rw [wp_modify]
    refine ⟨⟨num,?_,?_,?_,?_⟩,reached⟩
    · simp only
      omega
    · simp only
      omega
    · exact fun none_ => absurd none_ (Option.some_ne_none newv)
    · rintro d isBlock
      obtain rfl := Option.some.inj isBlock
      exact ⟨size,fun i inside => copied i (by omega)⟩
  · exact fun _ _ h => h.elim
  · exact fun _ _ h => h
  · simp only
    omega
  · intro i inside
    obtain ⟨d,storage,size,entries⟩ := holds.some_block (by omega)
    exact ⟨d,storage,by omega,entries i (by omega)⟩

theorem arraySetsize_spec (holds : Holds s list) (nguys : Int) (low : 0 ≤ nguys)
    (high : nguys < 2^28) :
    (arraySetsize junk nguys).wp s
      (fun _ t => ∃ next : List α, Holds t next ∧ next.length = nguys ∧
        ∀ i < min list.length nguys.toNat, next[i]? = list[i]?)
      (fun code t => code = .enomem ∧ t.it = s.it) never := by
  have counted := holds.nonneg
  have resized : ∀ t : Held (PtrArray α), Holds t list → nguys ≤ t.it.max → ∃ next : List α,
      Holds { t with it := { t.it with num := nguys } } next ∧ next.length = nguys ∧
      ∀ i < min list.length nguys.toNat, next[i]? = list[i]? := by
    intro t holdsT room
    cases storage : t.it.v with
    | none =>
      have empty := holdsT.null storage
      obtain rfl : nguys = 0 := by omega
      refine ⟨[],⟨rfl,room,holdsT.small,fun _ => empty,fun c isBlock => ?_⟩,rfl,by simp⟩
      exact absurd (storage.symm.trans isBlock) (Option.some_ne_none c).symm
    | some c =>
      obtain ⟨size,entries⟩ := holdsT.block c storage
      refine ⟨(List.range nguys.toNat).map c.cell,
        holds_cells (by simp only; omega) room holdsT.small storage size,?_,fun i below => ?_⟩
      · rw [List.length_map,List.length_range]
        omega
      · rw [List.getElem?_map,List.getElem?_range (by omega),entries i (by omega),Option.map_some]
  rw [arraySetsize,wp_bind,arrayReserve,wp_bind,wp_read,wp_bind,
    wp_assert,if_pos (decide_eq_true counted),wp_ite]
  refine ⟨fun _ => ?_,fun fits => ?_⟩
  · apply wp_imp (arrayPreallocate_spec junk holds low high)
    rintro _ t ⟨holdsT,room⟩
    exact resized t holdsT room
  · rw [wp_ite]
    refine ⟨fun emptied => ?_,fun _ => ?_⟩
    · obtain ⟨rfl,large⟩ := emptied
      obtain ⟨c,storage,-⟩ := holds.some_block (by omega)
      simp only [wp_bind,wp_assert,storage,Option.isSome_some,if_true,wp_modify]
      exact ⟨[],holds_nil s.mem,rfl,by simp⟩
    · exact resized s holds (by omega)

theorem set_last {next : List α} (length : next.length = list.length + 1)
    (common : ∀ i < list.length, next[i]? = list[i]?) (guy : α) :
    next.set list.length guy = list ++ [guy] := by
  apply List.ext_getElem?
  intro i
  rw [List.getElem?_set,List.getElem?_append]
  by_cases last : list.length = i
  · subst last
    rw [if_pos rfl,if_pos (by omega),if_neg (Nat.lt_irrefl _),Nat.sub_self]
    rfl
  · rw [if_neg last]
    by_cases inside : i < list.length
    · rw [if_pos inside,common i inside]
    · rw [if_neg inside,List.getElem?_eq_none (by omega),List.getElem?_eq_none (by simp; omega)]

theorem Holds.store (holds : Holds s list) (storage : s.it.v = some c) {i : Nat}
    (inside : i < list.length) (ptr : α) :
    Holds { s with it := { s.it with
      v := some { c with cell := update c.cell i ptr } } } (list.set i ptr) := by
  obtain ⟨size,entries⟩ := holds.block c storage
  refine ⟨by rw [List.length_set]; exact holds.count,holds.fits,holds.small,
    fun none_ => absurd none_ (Option.some_ne_none _),?_⟩
  rintro d isBlock
  obtain rfl := Option.some.inj isBlock
  refine ⟨size,fun j insideJ => ?_⟩
  rw [List.length_set] at insideJ
  rw [List.getElem?_set]
  by_cases same : i = j
  · subst same
    rw [if_pos rfl,if_pos inside]
    simp only [update_self]
  · rw [if_neg same,entries j insideJ]
    simp only [update_of_ne (Ne.symm same)]

theorem arrayAdd_spec (holds : Holds s list) (guy : α) :
    (arrayAdd junk guy).wp s (fun _ t => Holds t (list ++ [guy]))
      (fun code t => code = .enomem ∧ t.it = s.it) never := by
  have counted := holds.nonneg
  have limit : (ramLimit : Int) = 532676608 := rfl
  have small := holds.small
  have count := holds.count
  have next : i32 (s.it.num + 1) = s.it.num + 1 := i32_of_bounds (by omega) (by omega)
  simp only [arrayAdd,wp_bind,wp_read,next]
  apply wp_imp (arraySetsize_spec junk holds (s.it.num + 1) (by omega) (by omega))
  rintro _ t ⟨next,holdsT,length,common⟩
  have countT := holdsT.count
  have fitsT := holdsT.fits
  obtain ⟨d,storage,size,-⟩ := holdsT.some_block (by omega)
  rw [storage,wp_store ⟨by omega,by omega⟩,wp_modify,
    ← set_last (by omega) (fun i inside => common i (by omega)) guy,count,Int.toNat_natCast]
  exact holdsT.store storage (by omega) guy

section Index
variable {index : Int} (holds : Holds s list) (low : 0 ≤ index) (high : index < s.it.num)
include holds low high

theorem index_block : ∃ c, s.it.v = some c ∧ c.size = s.it.max ∧ index.toNat < list.length ∧
    list[index.toNat]? = some (c.cell index.toNat) := by
  have count := holds.count
  have fits := holds.fits
  obtain ⟨c,storage,size,entries⟩ := holds.some_block (by omega)
  exact ⟨c,storage,size,by omega,entries _ (by omega)⟩

theorem arraySetguy_spec (ptr : α) :
    (arraySetguy index ptr).wp s (fun _ t => Holds t (list.set index.toNat ptr)) never never := by
  have fits := holds.fits
  obtain ⟨c,storage,size,inside,-⟩ := index_block holds low high
  rw [arraySetguy,wp_bind,wp_read,wp_bind,wp_assert,
    if_pos (decide_eq_true fits),wp_bind,wp_assert,if_pos (decide_eq_true ⟨low,high⟩),
    wp_bind,storage,wp_store ⟨low,by omega⟩]
  exact holds.store storage inside ptr

theorem arrayGetguy_spec :
    (arrayGetguy index).wp s (fun ptr t => list[index.toNat]? = some ptr ∧ t = s) never never := by
  have fits := holds.fits
  obtain ⟨c,storage,size,inside,entry⟩ := index_block holds low high
  rw [arrayGetguy,wp_bind,wp_read,wp_bind,wp_assert,
    if_pos (decide_eq_true fits),wp_bind,wp_assert,if_pos (decide_eq_true ⟨low,high⟩),
    storage,wp_load ⟨low,by omega⟩]
  exact ⟨entry,rfl⟩

theorem arrayRemove_spec :
    (arrayRemove index).wp s (fun _ t => Holds t (list.eraseIdx index.toNat)) never never := by
  have fits := holds.fits
  have count := holds.count
  obtain ⟨c,storage,size,inside,-⟩ := index_block holds low high
  obtain ⟨-,entries⟩ := holds.block c storage
  rw [arrayRemove,wp_bind,wp_read,wp_bind,wp_assert,
    if_pos (decide_eq_true fits),wp_bind,wp_assert,if_pos (decide_eq_true ⟨low,high⟩),
    wp_bind,storage]
  simp only [shift]
  rw [if_pos ⟨low,by omega,by omega⟩,wp_pure,wp_modify]
  have length : (list.eraseIdx index.toNat).length = list.length - 1 :=
    List.length_eraseIdx_of_lt inside
  refine ⟨?_,?_,holds.small,fun none_ => absurd none_ (Option.some_ne_none _),?_⟩
  · simp only [length]
    omega
  · simp only
    omega
  · rintro d isBlock
    obtain rfl := Option.some.inj isBlock
    refine ⟨size,fun i below => ?_⟩
    rw [List.getElem?_eraseIdx]
    simp only
    split
    · rw [entries i (by omega),if_neg (by omega)]
    · rw [entries (i + 1) (by omega),if_pos (by omega)]

end Index

theorem Op.run_spec (op : Op α) (holds : Holds s list) (legal : op.Legal s) :
    (op.run junk).wp s
      (fun answer t => (∃ next, ListSpec op list (.ok answer) next ∧ Holds t next) ∧
        ∀ nguys, op = .preallocate nguys → nguys ≤ t.it.max)
      (fun code t => ListSpec op list (.error code) list ∧ code = .enomem ∧ t.it = s.it) never := by
  cases op with
  | add guy =>
    simp only [Op.run,wp_bind,wp_pure]
    apply wp_ends (arrayAdd_spec junk holds guy)
    · exact fun _ t holdsT => ⟨⟨_,rfl,holdsT⟩,by rintro _ ⟨⟩⟩
    · rintro code t ⟨rfl,same⟩
      exact ⟨⟨rfl,rfl⟩,rfl,same⟩
  | remove index =>
    simp only [Op.run,wp_bind,wp_pure]
    apply wp_total (arrayRemove_spec holds legal.1 legal.2)
    exact fun _ t holdsT => ⟨⟨_,rfl,holdsT⟩,by rintro _ ⟨⟩⟩
  | setguy index ptr =>
    simp only [Op.run,wp_bind,wp_pure]
    apply wp_total (arraySetguy_spec holds legal.1 legal.2 ptr)
    exact fun _ t holdsT => ⟨⟨_,rfl,holdsT⟩,by rintro _ ⟨⟩⟩
  | setsize nguys =>
    simp only [Op.run,wp_bind,wp_pure]
    apply wp_ends (arraySetsize_spec junk holds nguys legal.1 legal.2)
    · rintro _ t ⟨next,holdsT,length,common⟩
      exact ⟨⟨next,⟨length,common⟩,holdsT⟩,by rintro _ ⟨⟩⟩
    · rintro code t ⟨rfl,same⟩
      exact ⟨⟨rfl,rfl⟩,rfl,same⟩
  | preallocate nguys =>
    simp only [Op.run,wp_bind,wp_pure]
    apply wp_ends (arrayPreallocate_spec junk holds legal.1 legal.2)
    · rintro _ t ⟨holdsT,room⟩
      refine ⟨⟨list,rfl,holdsT⟩,fun n h => ?_⟩
      cases h
      exact room
    · rintro code t ⟨rfl,same⟩
      exact ⟨⟨rfl,rfl⟩,rfl,same⟩
  | getguy index =>
    simp only [Op.run,wp_bind,wp_pure]
    apply wp_total (arrayGetguy_spec holds legal.1 legal.2)
    rintro ptr t ⟨entry,rfl⟩
    exact ⟨⟨list,⟨entry,rfl⟩,holds⟩,by rintro _ ⟨⟩⟩

theorem simulates_list : Simulates (Op.run junk) Op.Legal ListSpec Holds := by
  intro op s list holds legal
  apply wp_ends (op.run_spec junk holds legal)
  · exact fun _ _ h => h.1
  · rintro code t ⟨admitted,-,same⟩
    exact ⟨list,admitted,same ▸ holds.count,same ▸ holds.fits,same ▸ holds.small,same ▸ holds.null,
      same ▸ holds.block⟩

end Specs

/-- The pointer array is a list, however often its storage moves and wherever `kmalloc` fails. -/
theorem array_is_list (junk : Nat → Nat → α) (mem : Kmem) :
    (arrayCreate : Exec Kmem Errno ArrayPanic (Option (PtrArray α))).wp mem
      (fun made mem' => (mem.ready = true → made.isSome) ∧
        ∀ a ∈ made, ∀ trace t, Calls (Op.run junk) Op.Legal ⟨a,mem'⟩ trace t →
          ∃ list, Admits ListSpec [] trace list ∧ Holds t list ∧ 0 ≤ t.it.num ∧ t.it.num ≤ t.it.max ∧
            ∀ op : Op α, op.Legal t → (op.run junk).wp t
              (fun _ u => ∀ nguys, op = .preallocate nguys → nguys ≤ u.it.max)
              (fun code u => code = .enomem ∧ u.it = t.it) (fun _ _ => False))
      (fun _ _ => False) (fun _ _ => False) := by
  simp only [arrayCreate,Kmem.kmalloc,wp_bind,wp_read,wp_put,wp_pure,wp_ite]
  refine ⟨fun _ => ⟨fun _ => rfl,fun a isMade trace t calls => ?_⟩,
    fun refused => ⟨fun ready => absurd ready refused,fun a isMade => ?_⟩⟩
  · obtain rfl := Option.some.inj isMade
    obtain ⟨list,admits,holds⟩ := (simulates_list junk).calls calls (holds_nil mem.next)
    refine ⟨list,admits,holds,holds.nonneg.1,holds.nonneg.2,fun op legal => ?_⟩
    exact wp_ends (op.run_spec junk holds legal) (fun _ _ h => h.2) (fun _ _ h => h.2)
  · exact absurd isMade (Option.not_mem_none a)

end PtrArray

end Os161
