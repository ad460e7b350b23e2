import Mathlib.Data.List.Basic
import Mathlib.Data.Nat.ModEq
import Os161.Kernel

/-! `lib/array.c` and `lib/queue.c`: the two containers the thread system keeps its threads
in. An array is the list of its entries with its capacity, a queue the ring buffer of the
source. Both call `kmalloc` when they grow; the allocator is part of the state, so that
whether a call allocates can be stated. -/
namespace Os161

open Function

/-- The asserts of `array.c`, `queue.c`, `scheduler.c`, `thread.c` and `synch.c` that depend
on the modelled state. `queueNested` is the growth of a queue inside its own growth. -/
inductive ThreadPanic where
  | arrayNum | arrayIndex | arrayNull
  | queueSize | queueNsize | queueCopy | queueEmpty | queueNested | queueEndless
  | zombieCurrent | destroyCurrent | destroyVmspace | destroyCwd | exorciseResult
  | switchResult | wakeupResult | numthreadsZero | nullCurthread | schedulerBootstrap | threadBootstrap
  | lockAvailable | semZero | semOverflow
  deriving DecidableEq, Repr

/-- `kmalloc`, as far as its result goes: which calls succeed, and how many there have
been. -/
structure Kmem where
  succeeds : Nat → Bool
  calls : Nat

namespace Kmem

def next (m : Kmem) : Kmem := { m with calls := m.calls + 1 }

def ready (m : Kmem) : Bool := m.succeeds m.calls

structure Spent (m m' : Kmem) : Prop where
  same : m'.succeeds = m.succeeds
  later : m.calls < m'.calls
  success : ∃ i, m.calls ≤ i ∧ m.succeeds i = true

theorem Spent.next {m : Kmem} (ready : m.ready = true) : m.Spent m.next :=
  ⟨rfl,Nat.lt_succ_self _,m.calls,Nat.le_refl _,ready⟩

theorem Spent.trans {m m' m'' : Kmem} (first : m.Spent m') (second : m'.Spent m'') : m.Spent m'' :=
  ⟨second.same.trans first.same,first.later.trans second.later,first.success⟩

end Kmem

structure Held (β : Type) where
  it : β
  mem : Kmem

abbrev Holding (β α : Type) := Exec (Held β) Errno ThreadPanic α

namespace Held

def kmalloc : Holding β Unit := do
  let s ← read
  put { s with mem := s.mem.next }
  if s.mem.ready then pure () else fail .enomem

theorem wp_kmalloc {s : Held β} {ok : Unit → Held β → Prop} {err : Errno → Held β → Prop}
    {halt : ThreadPanic → Held β → Prop} :
    kmalloc.wp s ok err halt ↔
      if s.mem.ready then ok () { s with mem := s.mem.next }
      else err .enomem { s with mem := s.mem.next } := by
  simp only [kmalloc,wp_bind,wp_read,wp_put]
  split <;> rfl

end Held

/-! Arrays -/

/-- `struct array`: the entries below `num`, and `max`. -/
structure KArray (α : Type) where
  v : List α
  max : Nat

namespace KArray

def num (a : KArray α) : Nat := a.v.length

/-- The loop of `array_preallocate`; `nguys` turns are enough. -/
def newmax (nguys : Nat) : Nat → Nat → Nat
  | 0, max => max
  | fuel + 1, max => if nguys > max then newmax nguys fuel ((max + 1) * 2) else max

def arrayCreate : KArray α := ⟨[],0⟩

def arrayPreallocate (nguys : Nat) : Holding (KArray α) Unit := do
  let s ← read
  assert (s.it.num ≤ s.it.max) .arrayNum
  Held.kmalloc
  modify fun t => { t with it := { t.it with max := newmax nguys nguys s.it.max } }

/-- `array_setsize` up to its last line, `a->num = nguys`. -/
def arrayReserve (nguys : Nat) : Holding (KArray α) Unit := do
  let s ← read
  assert (s.it.num ≤ s.it.max) .arrayNum
  if nguys > s.it.max then arrayPreallocate nguys
  else if nguys = 0 ∧ s.it.max > 16 then
    modify fun t => { t with it := { t.it with max := 0 } }
  else pure ()

def arraySetsize [Inhabited α] (nguys : Nat) : Holding (KArray α) Unit := do
  arrayReserve nguys
  modify fun t => { t with it := { t.it with
    v := t.it.v.take nguys ++ List.replicate (nguys - t.it.num) default } }

def arrayAdd [Inhabited α] (guy : α) : Holding (KArray α) Unit := do
  let ix := (← read).it.num
  arraySetsize (ix + 1)
  modify fun t => { t with it := { t.it with v := t.it.v.set ix guy } }

def arrayGetguy (index : Nat) : Holding (KArray α) α := do
  let s ← read
  assert (s.it.num ≤ s.it.max) .arrayNum
  match s.it.v[index]? with
  | some guy => pure guy
  | none => panic .arrayIndex

def arrayRemove (index : Nat) : Holding (KArray α) Unit := do
  let s ← read
  assert (s.it.num ≤ s.it.max) .arrayNum
  assert (index < s.it.num) .arrayIndex
  modify fun t => { t with it := { t.it with v := t.it.v.eraseIdx index } }

section Specs
variable {s : Held (KArray α)}

theorem le_newmax (nguys fuel max : Nat) : max ≤ newmax nguys fuel max := by
  induction fuel generalizing max with
  | zero => exact Nat.le_refl _
  | succ fuel ih =>
    rw [newmax]
    split
    · have := ih ((max + 1) * 2)
      omega
    · exact Nat.le_refl _

theorem newmax_enough {nguys fuel max : Nat} (enough : nguys ≤ max + fuel) :
    nguys ≤ newmax nguys fuel max := by
  induction fuel generalizing max with
  | zero => exact enough
  | succ fuel ih =>
    rw [newmax]
    split
    · exact ih (by omega)
    · omega

theorem arrayPreallocate_spec (valid : s.it.num ≤ s.it.max) (nguys : Nat) :
    (arrayPreallocate nguys).wp s
      (fun _ t => s.mem.ready = true ∧ t = ⟨⟨s.it.v,newmax nguys nguys s.it.max⟩,s.mem.next⟩)
      (fun _ t => s.mem.ready = false ∧ t = ⟨s.it,s.mem.next⟩) never := by
  simp only [arrayPreallocate,wp_bind,wp_read,wp_assert,valid,decide_true,if_true,
    Held.wp_kmalloc,wp_modify]
  split
  · rename_i ready
    exact ⟨ready,trivial⟩
  · rename_i refused
    exact ⟨by simpa using refused,trivial⟩

structure Added (s : Held (KArray α)) (guy : α) (t : Held (KArray α)) : Prop where
  list : t.it.v = s.it.v ++ [guy]
  max : s.it.max ≤ t.it.max
  fits : t.it.num ≤ t.it.max
  calm : s.it.num < s.it.max → t.it.max = s.it.max ∧ t.mem = s.mem
  grew : ¬s.it.num < s.it.max → s.mem.Spent t.mem

theorem arrayAdd_spec [Inhabited α] (valid : s.it.num ≤ s.it.max) (guy : α) :
    (arrayAdd guy).wp s (fun _ t => Added s guy t)
      (fun _ t => ¬s.it.num < s.it.max ∧ s.mem.ready = false ∧ t = ⟨s.it,s.mem.next⟩) never := by
  have stored : (s.it.v.take (s.it.num + 1) ++
      List.replicate (s.it.num + 1 - s.it.num) default).set s.it.num guy = s.it.v ++ [guy] := by
    rw [num,List.take_of_length_le (by omega),Nat.add_sub_cancel_left]
    simp
  have length : (s.it.v ++ [guy]).length = s.it.num + 1 := by simp [num]
  simp only [arrayAdd,arraySetsize,arrayReserve,wp_bind,wp_read,wp_assert,valid,
    decide_true,if_true]
  by_cases room : s.it.num < s.it.max
  · rw [if_neg (by omega),if_neg (by omega)]
    simp only [wp_pure,wp_modify,stored]
    exact ⟨rfl,Nat.le_refl _,length.trans_le room,fun _ => ⟨rfl,rfl⟩,
      fun full => absurd room full⟩
  · rw [if_pos (by omega)]
    apply wp_ends (arrayPreallocate_spec valid _)
    · rintro _ t ⟨ready,rfl⟩
      have grown : s.it.num + 1 ≤ newmax (s.it.num + 1) (s.it.num + 1) s.it.max :=
        newmax_enough (Nat.le_add_left _ _)
      simp only [wp_modify]
      exact ⟨stored,le_newmax _ _ _,(congrArg List.length stored).trans length |>.trans_le grown,
        fun h => absurd h room,fun _ => .next ready⟩
    · rintro _ t ⟨refused,rfl⟩
      exact ⟨room,refused,rfl⟩

theorem arraySetsize_zero [Inhabited α] (valid : s.it.num ≤ s.it.max) :
    (arraySetsize 0).wp s (fun _ t => t = ⟨⟨[],if 16 < s.it.max then 0 else s.it.max⟩,s.mem⟩)
      never never := by
  simp only [arraySetsize,arrayReserve,wp_bind,wp_read,wp_assert,valid,decide_true,
    if_true]
  rw [if_neg (Nat.not_lt_zero _)]
  by_cases large : 16 < s.it.max
  · rw [if_pos ⟨trivial,large⟩]
    simp [large]
  · rw [if_neg fun h => large h.2]
    simp [large]

theorem arrayGetguy_spec (valid : s.it.num ≤ s.it.max) {index : Nat} {guy : α}
    (entry : s.it.v[index]? = some guy) :
    (arrayGetguy index).wp s (fun r t => r = guy ∧ t = s) never never := by
  simp only [arrayGetguy,wp_bind,wp_read,wp_assert,valid,decide_true,if_true,entry,
    wp_pure,and_self]

theorem arrayRemove_spec (valid : s.it.num ≤ s.it.max) {index : Nat} (inside : index < s.it.num) :
    (arrayRemove index).wp s (fun _ t => t = ⟨⟨s.it.v.eraseIdx index,s.it.max⟩,s.mem⟩)
      never never := by
  simp only [arrayRemove,wp_bind,wp_read,wp_assert,valid,decide_true,if_true,inside,
    wp_modify]

end Specs

end KArray

/-! Queues -/

/-- `struct queue`: a ring with one slot always empty. -/
structure Queue (α : Type) where
  size : Nat
  nextwrite : Nat
  nextread : Nat
  data : Nat → α

namespace Queue

def qEmpty (q : Queue α) : Bool := q.nextwrite == q.nextread

def nextnext (q : Queue α) : Nat := (q.nextwrite + 1) % q.size

def put (q : Queue α) (ptr : α) : Queue α :=
  { q with data := update q.data q.nextwrite ptr, nextwrite := q.nextnext }

/-- The loop of `q_grow` that finds the new size; `target` turns are enough. -/
def newsize (target : Nat) : Nat → Nat → Nat
  | 0, size => size
  | fuel + 1, size => if size < target then newsize target fuel (size * 2) else size

/-- `q_addtail` as `q_grow` calls it, on a ring that has just been made larger. -/
def copyTail (ptr : α) : Holding (Queue α) Unit := do
  let s ← read
  assert (0 < s.it.size) .queueSize
  if s.it.nextnext = s.it.nextread then panic .queueNested
  else modify fun t => { t with it := t.it.put ptr }

def copyLoop (old : Queue α) : Nat → Nat → Holding (Queue α) Unit
  | 0, _ => panic .queueEndless
  | fuel + 1, i =>
    if i = old.nextwrite then pure ()
    else do
      copyTail (old.data i)
      copyLoop old fuel ((i + 1) % old.size)

def qGrow (targetsize : Nat) : Holding (Queue α) Unit := do
  let old := (← read).it
  let nsize := newsize targetsize targetsize old.size
  assert (0 < nsize) .queueNsize
  Held.kmalloc
  modify fun t => { t with it := { old with size := nsize, nextread := 0, nextwrite := 0 } }
  copyLoop old old.size old.nextread

def qPreallocate (size : Nat) : Holding (Queue α) Unit := do
  let q := (← read).it
  assert (0 < q.size) .queueSize
  if size > q.size then qGrow size else pure ()

def qAddtail (ptr : α) : Holding (Queue α) Unit := do
  let q := (← read).it
  assert (0 < q.size) .queueSize
  if q.nextnext = q.nextread then qGrow (q.size + 1) else pure ()
  modify fun t => { t with it := t.it.put ptr }

def qRemhead : Holding (Queue α) α := do
  let q := (← read).it
  assert (0 < q.size) .queueSize
  assert (!q.qEmpty) .queueEmpty
  modify fun t => { t with it := { t.it with nextread := (t.it.nextread + 1) % t.it.size } }
  pure (q.data q.nextread)

/-! The queue as a list -/

def count (q : Queue α) : Nat := (q.nextwrite + q.size - q.nextread) % q.size

def toList (q : Queue α) : List α :=
  (List.range q.count).map fun j => q.data ((q.nextread + j) % q.size)

structure Valid (q : Queue α) : Prop where
  size : 0 < q.size
  write : q.nextwrite < q.size
  read : q.nextread < q.size

section Ring
variable {q : Queue α}

theorem wrap {i n : Nat} (once : i < 2 * n) : i % n = if i < n then i else i - n := by
  split
  · rename_i less
    exact Nat.mod_eq_of_lt less
  · rw [Nat.mod_eq_sub_mod (by omega),Nat.mod_eq_of_lt (by omega)]

@[simp] theorem length_toList : q.toList.length = q.count := by simp [toList]

section
variable (valid : q.Valid)
include valid

theorem count_eq : q.count =
    if q.nextread ≤ q.nextwrite then q.nextwrite - q.nextread
    else q.nextwrite + q.size - q.nextread := by
  obtain ⟨size,write,read⟩ := valid
  rw [count,wrap (by omega)]
  split <;> split <;> omega

theorem count_lt : q.count < q.size := Nat.mod_lt _ valid.size

theorem nextnext_eq :
    q.nextnext = if q.nextwrite + 1 < q.size then q.nextwrite + 1 else 0 := by
  have := valid.write
  rw [nextnext,wrap (by omega)]
  split <;> omega

theorem full_iff : q.nextnext = q.nextread ↔ q.count + 1 = q.size := by
  rw [nextnext_eq valid,count_eq valid]
  obtain ⟨size,write,read⟩ := valid
  split <;> split <;> omega

theorem empty_iff : q.qEmpty = true ↔ q.toList = [] := by
  rw [← List.length_eq_zero_iff,length_toList,count_eq valid,qEmpty,beq_iff_eq]
  obtain ⟨size,write,read⟩ := valid
  split <;> omega

theorem put_valid (ptr : α) : (q.put ptr).Valid :=
  ⟨valid.size,Nat.mod_lt _ valid.size,valid.read⟩

theorem count_put (room : q.count + 1 < q.size) (ptr : α) :
    (q.put ptr).count = q.count + 1 := by
  have next := nextnext_eq valid
  rw [count_eq (put_valid valid ptr)]
  rw [count_eq valid] at room ⊢
  obtain ⟨size,write,read⟩ := valid
  simp only [put,next]
  split at room <;> split <;> split <;> omega

theorem toList_put (room : q.count + 1 < q.size) (ptr : α) :
    (q.put ptr).toList = q.toList ++ [ptr] := by
  have counted := count_eq valid
  obtain ⟨size,write,read⟩ := valid
  have here : (q.nextread + q.count) % q.size = q.nextwrite := by
    rw [wrap (by omega)]
    split at counted <;> split <;> omega
  have apart : ∀ j < q.count, (q.nextread + j) % q.size ≠ q.nextwrite := by
    intro j less
    rw [wrap (by omega)]
    split at counted <;> split <;> omega
  rw [toList,count_put ⟨size,write,read⟩ room,List.range_succ,List.map_append]
  congr 1
  · apply List.map_congr_left
    intro j mem
    exact update_of_ne (apart j (List.mem_range.mp mem)) _ _
  · simp only [put,List.map_cons,List.map_nil,here,update_self]

theorem toList_advance {head : α} {rest : List α}
    (nonempty : q.toList = head :: rest) : q.data q.nextread = head ∧
      ({ q with nextread := (q.nextread + 1) % q.size } : Queue α).Valid ∧
      ({ q with nextread := (q.nextread + 1) % q.size } : Queue α).toList = rest := by
  have counted := count_eq valid
  have length : q.count = rest.length + 1 := by
    rw [← length_toList,nonempty]
    rfl
  have valid' : ({ q with nextread := (q.nextread + 1) % q.size } : Queue α).Valid :=
    ⟨valid.size,valid.write,Nat.mod_lt _ valid.size⟩
  have less : ({ q with nextread := (q.nextread + 1) % q.size } : Queue α).count = rest.length := by
    have next : (q.nextread + 1) % q.size =
        if q.nextread + 1 < q.size then q.nextread + 1 else 0 := by
      have := valid.read
      rw [wrap (by omega)]
      split <;> omega
    rw [count_eq valid']
    obtain ⟨size,write,read⟩ := valid
    simp only [next]
    split at counted <;> split <;> split <;> omega
  rw [toList,length,List.range_succ_eq_map,List.map_cons,List.map_map] at nonempty
  obtain ⟨first,others⟩ := List.cons.inj nonempty
  refine ⟨?_,valid',?_⟩
  · rwa [Nat.add_zero,Nat.mod_eq_of_lt valid.read] at first
  · rw [toList,less]
    refine (List.map_congr_left fun j _ => ?_).trans others
    simp only [comp_apply,Nat.mod_add_mod]
    congr 2
    omega

end

end Ring

section Specs
variable {s : Held (Queue α)}

theorem newsize_enough {target fuel size : Nat} (positive : 0 < size)
    (enough : target ≤ size + fuel) : target ≤ newsize target fuel size := by
  induction fuel generalizing size with
  | zero => exact enough
  | succ fuel ih =>
    rw [newsize]
    split
    · exact ih (by omega) (by omega)
    · omega

theorem copyLoop_spec {old : Queue α} (oldValid : old.Valid) (mem : Kmem) (left : Nat) {fuel i : Nat}
    {q : Queue α} (valid : q.Valid) (room : q.count + left < q.size) (enough : left < fuel)
    (inside : i < old.size) (reaches : (i + left) % old.size = old.nextwrite)
    (before : ∀ j < left, (i + j) % old.size ≠ old.nextwrite) :
    (copyLoop old fuel i).wp ⟨q,mem⟩
      (fun _ t => t.it.Valid ∧ t.it.size = q.size ∧ t.mem = mem ∧
        t.it.toList = q.toList ++ (List.range left).map fun j => old.data ((i + j) % old.size))
      never never := by
  induction left generalizing fuel i q with
  | zero =>
    rw [Nat.add_zero,Nat.mod_eq_of_lt inside] at reaches
    obtain ⟨fuel,rfl⟩ : ∃ n, fuel = n + 1 := ⟨fuel - 1,by omega⟩
    rw [copyLoop,if_pos reaches,wp_pure]
    exact ⟨valid,rfl,rfl,(List.append_nil _).symm⟩
  | succ left ih =>
    obtain ⟨fuel,rfl⟩ : ∃ n, fuel = n + 1 := ⟨fuel - 1,by omega⟩
    have notYet : i ≠ old.nextwrite := by
      have := before 0 (by omega)
      rwa [Nat.add_zero,Nat.mod_eq_of_lt inside] at this
    have free : q.nextnext ≠ q.nextread := fun full => by
      have := (full_iff valid).mp full
      omega
    rw [copyLoop,if_neg notYet]
    simp only [copyTail,wp_bind,wp_read,wp_assert,valid.size,decide_true,if_true]
    rw [if_neg free]
    simp only [wp_modify]
    have shift : ∀ j, ((i + 1) % old.size + j) % old.size = (i + (j + 1)) % old.size := by
      intro j
      rw [Nat.mod_add_mod]
      congr 1
      omega
    have counted : (q.put (old.data i)).count = q.count + 1 := count_put valid (by omega) _
    have sized : (q.put (old.data i)).size = q.size := rfl
    apply wp_imp (ih (put_valid valid _) (by rw [counted,sized]; omega) (by omega)
      (Nat.mod_lt _ oldValid.size) (by rw [shift]; exact reaches)
      (fun j less => by rw [shift]; exact before (j + 1) (by omega)))
    rintro _ t ⟨validT,sizeT,memT,listT⟩
    refine ⟨validT,sizeT,memT,?_⟩
    have first : (i + 0) % old.size = i := Nat.mod_eq_of_lt inside
    rw [listT,toList_put valid (by omega),List.range_succ_eq_map,List.map_cons,List.map_map,
      List.append_assoc,List.singleton_append,first]
    congr 2
    exact List.map_congr_left fun j _ => congrArg old.data (shift j)

theorem regrow_spec (valid : s.it.Valid) {nsize : Nat} (larger : s.it.size ≤ nsize) :
    (do Held.kmalloc
        modify fun t => { t with it := { s.it with size := nsize, nextread := 0, nextwrite := 0 } }
        copyLoop s.it s.it.size s.it.nextread : Holding (Queue α) Unit).wp s
      (fun _ t => t.it.Valid ∧ t.it.size = nsize ∧ t.it.toList = s.it.toList ∧ s.mem.Spent t.mem)
      (fun e t => e = .enomem ∧ s.mem.ready = false ∧ t = ⟨s.it,s.mem.next⟩) never := by
  have less := count_lt valid
  have positive : 0 < nsize := Nat.lt_of_lt_of_le valid.size larger
  simp only [wp_bind,Held.wp_kmalloc,wp_modify]
  split
  · rename_i ready
    have counted := count_eq valid
    have fresh : ({ s.it with size := nsize, nextread := 0, nextwrite := 0 } : Queue α).Valid :=
      ⟨positive,positive,positive⟩
    have none : ({ s.it with size := nsize, nextread := 0, nextwrite := 0 } : Queue α).count = 0 := by
      rw [count_eq fresh]
      rfl
    apply wp_mono (copyLoop_spec valid s.mem.next s.it.count fresh (by rw [none]; simp only; omega)
      less valid.read ?_ ?_)
    · rintro _ t ⟨validT,sizeT,memT,listT⟩
      refine ⟨validT,sizeT,?_,memT ▸ .next ready⟩
      rw [listT,List.eq_nil_of_length_eq_zero (length_toList.trans none),List.nil_append]
      rfl
    · exact fun _ _ => False.elim
    · exact fun _ _ h => h
    · obtain ⟨size,write,read⟩ := valid
      rw [wrap (by omega)]
      split at counted <;> split <;> omega
    · intro j lessJ
      obtain ⟨size,write,read⟩ := valid
      rw [wrap (by omega)]
      split at counted <;> split <;> omega
  · rename_i refused
    exact ⟨trivial,by simpa using refused,trivial⟩

theorem qGrow_spec (valid : s.it.Valid) {target : Nat} (larger : s.it.size < target) :
    (qGrow target).wp s
      (fun _ t => t.it.Valid ∧ target ≤ t.it.size ∧ t.it.toList = s.it.toList ∧ s.mem.Spent t.mem)
      (fun _ t => s.mem.ready = false ∧ t = ⟨s.it,s.mem.next⟩) never := by
  have grown : target ≤ newsize target target s.it.size :=
    newsize_enough valid.size (Nat.le_add_left _ _)
  have positive : 0 < newsize target target s.it.size := by omega
  rw [qGrow,wp_bind,wp_read,wp_bind,wp_assert,
    if_pos (decide_eq_true positive)]
  apply wp_ends (regrow_spec valid (by omega))
  · rintro _ t ⟨validT,sizeT,listT,memT⟩
    exact ⟨validT,sizeT ▸ grown,listT,memT⟩
  · exact fun _ _ h => h.2

theorem qAddtail_spec (valid : s.it.Valid) (ptr : α) :
    (qAddtail ptr).wp s
      (fun _ t => t.it.Valid ∧ s.it.size ≤ t.it.size ∧ t.it.toList = s.it.toList ++ [ptr] ∧
        (s.it.count + 1 < s.it.size → t.it.size = s.it.size ∧ t.mem = s.mem) ∧
        (¬s.it.count + 1 < s.it.size → s.mem.Spent t.mem))
      (fun _ t => ¬s.it.count + 1 < s.it.size ∧ s.mem.ready = false ∧ t = ⟨s.it,s.mem.next⟩)
      never := by
  have less := count_lt valid
  simp only [qAddtail,wp_bind,wp_read,wp_assert,valid.size,decide_true,if_true]
  by_cases room : s.it.count + 1 < s.it.size
  · rw [if_neg fun full => by have := (full_iff valid).mp full; omega]
    simp only [wp_modify]
    exact ⟨put_valid valid _,Nat.le_refl _,toList_put valid room _,fun _ => ⟨rfl,trivial⟩,
      fun full => absurd room full⟩
  · rw [if_pos ((full_iff valid).mpr (by omega)),wp_bind]
    apply wp_ends (qGrow_spec valid (Nat.lt_succ_self _))
    · rintro _ t ⟨validT,sizeT,listT,memT⟩
      have countT : t.it.count = s.it.count := by rw [← length_toList,listT,length_toList]
      simp only [wp_modify]
      refine ⟨put_valid validT _,Nat.le_of_succ_le sizeT,?_,fun h => absurd h room,fun _ => memT⟩
      rw [toList_put validT (by omega),listT]
    · rintro _ t ⟨refused,rfl⟩
      exact ⟨room,refused,rfl⟩

theorem qPreallocate_spec (valid : s.it.Valid) (size : Nat) :
    (qPreallocate size).wp s
      (fun _ t => t.it.Valid ∧ size ≤ t.it.size ∧ s.it.size ≤ t.it.size ∧ t.it.toList = s.it.toList)
      (fun _ t => s.mem.ready = false ∧ t = ⟨s.it,s.mem.next⟩) never := by
  simp only [qPreallocate,wp_bind,wp_read,wp_assert,valid.size,decide_true,if_true]
  by_cases larger : s.it.size < size
  · rw [if_pos larger]
    apply wp_imp (qGrow_spec valid larger)
    rintro _ t ⟨validT,sizeT,listT,-⟩
    exact ⟨validT,sizeT,by omega,listT⟩
  · rw [if_neg larger,wp_pure]
    exact ⟨valid,by omega,Nat.le_refl _,rfl⟩

theorem qRemhead_spec (valid : s.it.Valid) {head : α} {rest : List α}
    (nonempty : s.it.toList = head :: rest) :
    qRemhead.wp s (fun r t => r = head ∧ t.it.Valid ∧ t.it.size = s.it.size ∧ t.it.toList = rest ∧
      t.mem = s.mem) never never := by
  obtain ⟨first,valid',rest'⟩ := toList_advance valid nonempty
  have some_ : (!s.it.qEmpty) = true := by
    rw [Bool.not_eq_true',← Bool.not_eq_true,empty_iff valid,nonempty]
    exact List.cons_ne_nil _ _
  simp only [qRemhead,wp_bind,wp_read,wp_assert,valid.size,decide_true,if_true,
    some_,wp_modify,wp_pure]
  exact ⟨first,valid',trivial,rest',trivial⟩

end Specs

end Queue

end Os161
