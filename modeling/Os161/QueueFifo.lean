import Os161.BitmapSet

/-! `lib/queue.c` against a list, across growth. Sizes and indices are `int` in the source; below
2^29 the doubling in `q_grow` does not overflow, and the ring is the one of `Containers`. -/
namespace Os161
namespace Queue

/-- The loop of `q_grow` that finds the new size, in the arithmetic of `int`. -/
def intSize (targetsize : Int) : Nat → Int → Holding (Queue α) Int
  | 0, _ => panic .queueEndless
  | fuel + 1, nsize =>
    if nsize < targetsize then do
      let nsize := i32 (nsize * 2)
      assert (0 < nsize) .queueNsize
      intSize targetsize fuel nsize
    else pure nsize

/-- `q_grow`; 32 turns of the first loop are enough for any `int`. -/
def growInt (targetsize : Int) : Holding (Queue α) Unit := do
  let old := (← read).it
  let nsize ← intSize targetsize 32 old.size
  Held.kmalloc
  modify fun t => { t with it := { old with size := nsize.toNat, nextread := 0, nextwrite := 0 } }
  copyLoop old old.size old.nextread

def preallocateInt (size : Int) : Holding (Queue α) Unit := do
  let q := (← read).it
  assert (0 < q.size) .queueSize
  if size > q.size then growInt size else pure ()

def addtailInt (ptr : α) : Holding (Queue α) Unit := do
  let q := (← read).it
  assert (0 < q.size) .queueSize
  if q.nextnext = q.nextread then growInt (i32 (q.size + 1)) else pure ()
  modify fun t => { t with it := t.it.put ptr }

/-- `q_create`; `junk` is what the memory of the ring happens to hold. -/
def qCreate (size : Nat) (junk : Nat → α) : Exec Kmem Errno ThreadPanic (Option (Queue α)) := do
  if ← Kmem.kmalloc then
    if ← Kmem.kmalloc then pure (some ⟨size,0,0,junk⟩)
    else pure none
  else pure none

inductive Op (α : Type) where
  | addtail (ptr : α) | remhead | preallocate (size : Int)

inductive Answer (α : Type) where
  | done | guy (ptr : α)
  deriving DecidableEq

def Op.run : Op α → Holding (Queue α) (Answer α)
  | .addtail ptr => do addtailInt ptr; return .done
  | .remhead => do return .guy (← qRemhead)
  | .preallocate size => do preallocateInt size; return .done

/-- Sizes are below 2^29, and a queue from which an entry is taken has one. -/
def Op.Legal : Op α → Held (Queue α) → Prop
  | .addtail _, s => s.it.size < 2^29
  | .remhead, s => s.it.qEmpty = false
  | .preallocate size, s => s.it.size < 2^29 ∧ size < 2^29

/-- The operations on lists. Where memory is short the list stays. -/
def FifoSpec : Op α → List α → Except Errno (Answer α) → List α → Prop
  | .addtail ptr, list, .ok .done, next => next = list ++ [ptr]
  | .remhead, list, .ok (.guy ptr), next => list = ptr :: next
  | .preallocate _, list, .ok .done, next => next = list
  | .addtail _, list, .error code, next => code = .enomem ∧ next = list
  | .preallocate _, list, .error code, next => code = .enomem ∧ next = list
  | _, _, _, _ => False

structure Holds (s : Held (Queue α)) (list : List α) : Prop where
  valid : s.it.Valid
  entries : s.it.toList = list

section Steps
variable {s : Held (Queue α)} {list : List α}

theorem intSize_spec {target : Int} (small : target ≤ 2^29) (fuel : Nat) {nsize : Int}
    (positive : 0 < nsize) (bound : nsize < 2^30) (enough : target ≤ nsize * 2^fuel) :
    (intSize target (fuel + 1) nsize).wp s
      (fun r t => t = s ∧ nsize ≤ r ∧ target ≤ r) never never := by
  induction fuel generalizing nsize with
  | zero =>
    rw [intSize,if_neg (by omega),wp_pure]
    exact ⟨rfl,Int.le_refl _,by omega⟩
  | succ fuel ih =>
    rw [intSize,wp_ite]
    refine ⟨fun less => ?_,fun done => ⟨rfl,Int.le_refl _,by omega⟩⟩
    have doubled : i32 (nsize * 2) = nsize * 2 := i32_of_bounds (by omega) (by omega)
    have enough : target ≤ nsize * 2 * 2^fuel := by rwa [mul_assoc,← pow_succ']
    simp only [doubled,wp_bind,wp_assert]
    rw [if_pos (decide_eq_true (by omega))]
    apply wp_imp (ih (by omega) (by omega) enough)
    rintro r t ⟨same,larger,reached⟩
    exact ⟨same,by omega,reached⟩

theorem growInt_spec (valid : s.it.Valid) (below : s.it.size < 2^29) {target : Int}
    (small : target ≤ 2^29) :
    (growInt target).wp s
      (fun _ t => t.it.Valid ∧ target ≤ t.it.size ∧ t.it.toList = s.it.toList)
      (fun code t => code = .enomem ∧ t.it = s.it) never := by
  have positive := valid.size
  rw [growInt,wp_bind,wp_read,wp_bind]
  apply wp_total (intSize_spec small 31 (show (0 : Int) < s.it.size by omega) (by omega) (by omega))
  rintro nsize t ⟨rfl,larger,reached⟩
  apply wp_ends (regrow_spec valid (by omega))
  · rintro _ t ⟨validT,sizeT,listT,-⟩
    exact ⟨validT,by omega,listT⟩
  · rintro code t ⟨rfl,-,rfl⟩
    exact ⟨rfl,rfl⟩

theorem addtailInt_spec (valid : s.it.Valid) (below : s.it.size < 2^29) (ptr : α) :
    (addtailInt ptr).wp s (fun _ t => t.it.Valid ∧ t.it.toList = s.it.toList ++ [ptr])
      (fun code t => code = .enomem ∧ t.it = s.it) never := by
  have less := count_lt valid
  have next : i32 (s.it.size + 1) = s.it.size + 1 := i32_of_bounds (by omega) (by omega)
  rw [addtailInt,wp_bind,wp_read,wp_bind,wp_assert,
    if_pos (decide_eq_true valid.size),next,wp_ite]
  refine ⟨fun full => ?_,fun room => ?_⟩
  · have filled := (full_iff valid).mp full
    rw [wp_bind]
    apply wp_imp (growInt_spec valid below (show (s.it.size : Int) + 1 ≤ 2^29 by omega))
    rintro _ t ⟨validT,sizeT,listT⟩
    have countT : t.it.count = s.it.count := by rw [← length_toList,listT,length_toList]
    refine ⟨put_valid validT ptr,?_⟩
    rw [toList_put validT (by omega),listT]
  · have notFull := mt (full_iff valid).mpr room
    exact ⟨put_valid valid ptr,toList_put valid (by omega) ptr⟩

theorem preallocateInt_spec (valid : s.it.Valid) (below : s.it.size < 2^29) {size : Int}
    (small : size < 2^29) :
    (preallocateInt size).wp s (fun _ t => t.it.Valid ∧ t.it.toList = s.it.toList)
      (fun code t => code = .enomem ∧ t.it = s.it) never := by
  simp only [preallocateInt,wp_bind,wp_read,wp_assert,valid.size,decide_true,if_true]
  rw [wp_ite]
  refine ⟨fun _ => ?_,fun _ => ⟨valid,rfl⟩⟩
  apply wp_imp (growInt_spec valid below (Int.le_of_lt small))
  rintro _ t ⟨validT,-,listT⟩
  exact ⟨validT,listT⟩

theorem Op.run_spec (op : Op α) (holds : Holds s list) (legal : op.Legal s) :
    op.run.wp s (fun answer t => ∃ next, FifoSpec op list (.ok answer) next ∧ Holds t next)
      (fun code t => FifoSpec op list (.error code) list ∧ code = .enomem ∧ t.it = s.it) never := by
  obtain ⟨valid,rfl⟩ := holds
  cases op with
  | addtail ptr =>
    simp only [Op.run,wp_bind,wp_pure]
    apply wp_ends (addtailInt_spec valid legal ptr)
    · rintro _ t ⟨validT,listT⟩
      exact ⟨_,rfl,validT,listT⟩
    · rintro code t ⟨rfl,same⟩
      exact ⟨⟨rfl,rfl⟩,rfl,same⟩
  | remhead =>
    have some_ : s.it.toList ≠ [] := fun none_ => by
      have full : s.it.qEmpty = false := legal
      rw [(empty_iff valid).mpr none_] at full
      exact Bool.noConfusion full
    obtain ⟨head,rest,nonempty⟩ := List.exists_cons_of_ne_nil some_
    simp only [Op.run,wp_bind,wp_pure]
    apply wp_total (qRemhead_spec valid nonempty)
    rintro _ t ⟨rfl,validT,-,listT,-⟩
    exact ⟨rest,nonempty,validT,listT⟩
  | preallocate size =>
    simp only [Op.run,wp_bind,wp_pure]
    apply wp_ends (preallocateInt_spec valid legal.1 legal.2)
    · rintro _ t ⟨validT,listT⟩
      exact ⟨_,rfl,validT,listT⟩
    · rintro code t ⟨rfl,same⟩
      exact ⟨⟨rfl,rfl⟩,rfl,same⟩

theorem simulates_fifo : Simulates (Op.run (α := α)) Op.Legal FifoSpec Holds := by
  intro op s list holds legal
  apply wp_mono (op.run_spec holds legal)
  · exact fun _ _ h => h
  · rintro code t ⟨admitted,-,same⟩
    exact ⟨list,admitted,same ▸ holds.valid,same ▸ holds.entries⟩
  · exact fun _ _ h => h

theorem qCreate_spec (size : Nat) (junk : Nat → α) (mem : Kmem) :
    (qCreate size junk).wp mem
      (fun made _ => made = if mem.ready ∧ mem.next.ready then some ⟨size,0,0,junk⟩ else none)
      never never := by
  simp only [qCreate,Kmem.kmalloc,wp_bind,wp_read,wp_put,wp_pure,wp_ite]
  refine ⟨fun first => ⟨fun second => ?_,fun refused => ?_⟩,fun refused => ?_⟩
  · rw [if_pos ⟨first,second⟩]
  · rw [if_neg fun h => refused h.2]
  · rw [if_neg fun h => refused h.1]

end Steps

/-- The queue is a list from which entries are taken in the order in which they came, however often
it grows and wherever `kmalloc` fails. -/
theorem queue_fifo_across_growth (size : Nat) (some_ : 1 ≤ size) (junk : Nat → α) (mem : Kmem) :
    (qCreate size junk).wp mem
      (fun made mem' => (mem.ready = true → mem.next.ready = true → made.isSome) ∧
        ∀ q ∈ made, ∀ trace t, Calls Op.run Op.Legal ⟨q,mem'⟩ trace t →
          ∃ list, Admits FifoSpec [] trace list ∧ t.it.toList = list ∧
            (t.it.qEmpty = true ↔ list = []) ∧
            ∀ op : Op α, op.Legal t → op.run.wp t (fun _ _ => True)
              (fun code u => code = .enomem ∧ u.it = t.it) (fun _ _ => False))
      (fun _ _ => False) (fun _ _ => False) := by
  apply wp_imp (qCreate_spec size junk mem)
  rintro made mem' rfl
  constructor
  · intro first second
    rw [if_pos ⟨first,second⟩]
    rfl
  · intro q isMade trace t calls
    obtain rfl : ⟨size,0,0,junk⟩ = q := by
      split at isMade
      · exact Option.some.inj isMade
      · exact absurd isMade (Option.not_mem_none _)
    have valid : (⟨size,0,0,junk⟩ : Queue α).Valid := ⟨some_,some_,some_⟩
    have empty : (⟨size,0,0,junk⟩ : Queue α).toList = [] := (empty_iff valid).mp rfl
    obtain ⟨list,admits,holds⟩ := simulates_fifo.calls calls ⟨valid,empty⟩
    refine ⟨list,admits,holds.entries,?_,fun op legal => ?_⟩
    · rw [empty_iff holds.valid,holds.entries]
    · exact wp_ends (op.run_spec holds legal) (fun _ _ _ => trivial) (fun _ _ h => h.2)

def growTwice : List (Op Nat × Except Errno (Answer Nat)) :=
  [(.addtail 5,.ok .done),(.addtail 6,.error .enomem),(.remhead,.ok (.guy 5))]

theorem queue_fifo_growTwice : ∃ list, Admits FifoSpec [] growTwice list := by
  have made : qCreate 1 (fun _ => 0) ⟨fun i => i ≠ 3,0⟩ =
      (.ok (some ⟨1,0,0,fun _ => 0⟩), ⟨fun i => i ≠ 3,2⟩) := rfl
  obtain ⟨-,runs⟩ := wp_ok
    (queue_fifo_across_growth 1 (Nat.le_refl 1) (fun _ => 0) ⟨fun i => i ≠ 3,0⟩) made
  obtain ⟨list,admits,-⟩ := runs _ rfl growTwice _
    (.next (show 1 < 2^29 by decide) (by decide +kernel)
      (.next (show _ < 2^29 by decide +kernel) (by decide +kernel)
        (.next (show _ = false by decide +kernel) (by decide +kernel) (.nil _))))
  exact ⟨list,admits⟩

end Queue

end Os161
