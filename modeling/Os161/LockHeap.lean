import Os161.KheapRun
import Os161.SfsFormat

/-! Locks as blocks of the heap: `lock_create` and `lock_destroy` of `synch.c`, with the
fields of `struct lock` at their offsets in memory. -/
namespace Os161

inductive LockPanic where
  | heap (site : HeapPanic)
  | nullLock | acquireAvailable | releaseAvailable
  deriving DecidableEq, Repr

abbrev LockM (α : Type) := Exec Heap Errno LockPanic α

def onHeap (call : HeapM α) : LockM α := mapPanic .heap call

def stringWord (bytes : List UInt8) (i old : Nat) : Nat :=
  (List.range 4).foldl (fun word k => word * 256 +
    (bytes[4 * i + k]?.map UInt8.toNat).getD (old / 256 ^ (3 - k) % 256)) 0

def strcpy (z : Nat) (bytes : List UInt8) : LockM Unit :=
  modify fun h => (List.range ((bytes.length + 3) / 4)).foldl (fun h i =>
    h.store (add32 z (4 * i)) (stringWord bytes i (h.memory (add32 z (4 * i))))) h

/-- `kstrdup`; `page` is the answer of `alloc_kpages`, should it be called. -/
def kstrdup (s : CString) (page : Nat) : LockM Nat := do
  let z ← onHeap (kmalloc (s.chars.length + 1) page)
  if z = 0 then pure 0
  else do
    strcpy z (s.chars ++ [0])
    pure z

namespace HeapLock

/-! `struct lock` has its name at offset 0, `available` at 4 and `holder` at 8. -/

def setWord (address value : Nat) : LockM Unit := modify (Heap.store · address value)

def lockCreate (name : CString) (page page' : Nat) : LockM Nat := do
  let lock ← onHeap (kmalloc 12 page)
  if lock = 0 then pure 0
  else do
    let text ← kstrdup name page'
    setWord lock text
    if text = 0 then do
      onHeap (kfree lock)
      pure 0
    else do
      setWord (lock + 4) 1
      setWord (lock + 8) 0
      pure lock

def lockDestroy (lock : Nat) : LockM Unit := do
  assert (lock ≠ 0) .nullLock
  onHeap (kfree ((← read).memory (lock + 4)))
  onHeap (kfree ((← read).memory (lock + 8)))
  onHeap (kfree ((← read).memory lock))
  onHeap (kfree lock)

def lockTaken (lock curthread : Nat) : LockM Unit := do
  assert ((← read).memory (lock + 4) = 1) .acquireAvailable
  setWord (lock + 4) 0
  setWord (lock + 8) curthread

/-- One test of the loop of `lock_acquire`: a caller that finds the lock taken sleeps, and
comes back for another test. -/
def lockAcquire (lock curthread : Nat) : LockM Unit := do
  if (← read).memory (lock + 4) = 0 then pure () else lockTaken lock curthread

def lockTryAcquireAlert (lock curthread : Nat) : LockM Unit := do
  let h ← read
  if h.memory (lock + 8) = curthread then pure ()
  else if h.memory (lock + 4) = 0 then pure ()
  else lockTaken lock curthread

def lockRelease (lock curthread : Nat) : LockM Unit := do
  if (← read).memory (lock + 8) = curthread then do
    setWord (lock + 4) 1
    setWord (lock + 8) 0
    assert ((← read).memory (lock + 4) = 1) .releaseAvailable
  else pure ()

/-- A call by a thread, which is never `NULL`. -/
inductive LockOp where
  | acquire (curthread : Nat) (thread : curthread ≠ 0)
  | tryAcquire (curthread : Nat) (thread : curthread ≠ 0)
  | release (curthread : Nat) (thread : curthread ≠ 0)

def LockOp.run (lock : Nat) : LockOp → LockM Unit
  | .acquire curthread _ => lockAcquire lock curthread
  | .tryAcquire curthread _ => lockTryAcquireAlert lock curthread
  | .release curthread _ => lockRelease lock curthread

def lockCalls (lock : Nat) (ops : List LockOp) (h : Heap) : Heap :=
  ops.foldl (fun h op => (op.run lock h).2) h

/-! The lock's words -/

def Fields (lock : Nat) (h : Heap) : Prop :=
  (h.memory (lock + 4) = 1 ∧ h.memory (lock + 8) = 0) ∨ (h.memory (lock + 4) = 0 ∧ h.memory (lock + 8) ≠ 0)

section Fields
variable {h : Heap} {blocks : List Alloc} {lock : Nat}

theorem roomOf_twelve : roomOf 12 = 16 := by decide

theorem sound_store (sound : h.Sound blocks) {b : Alloc} (live : b ∈ blocks) {address : Nat} (value : Nat)
    (low : b.ptr ≤ address) (high : address < b.ptr + roomOf b.sz) : (h.store address value).Sound blocks := by
  obtain ⟨all,same,free,shape,partly⟩ := sound.shape
  have written : (h.store address value).Shape blocks all same free :=
    shape.write live rfl fun a outside => Heap.store_other h (by omega)
  exact ⟨all,same,free,written,partly⟩

def setFields (h : Heap) (lock available holder : Nat) : Heap :=
  (h.store (lock + 4) available).store (lock + 8) holder

theorem setFields_available (available holder : Nat) :
    (setFields h lock available holder).memory (lock + 4) = available := by
  rw [setFields,Heap.store_other _ (by omega),Heap.store_self]

theorem setFields_holder (available holder : Nat) :
    (setFields h lock available holder).memory (lock + 8) = holder := Heap.store_self ..

theorem setFields_sound (sound : h.Sound blocks) (live : ⟨lock,12⟩ ∈ blocks) (available holder : Nat) :
    (setFields h lock available holder).Sound blocks := by
  have room := roomOf_twelve
  exact sound_store (sound_store sound live available (by simp) (by dsimp only; omega)) live holder (by simp)
    (by dsimp only; omega)

theorem LockOp.run_cases (fields : Fields lock h) (op : LockOp) :
    (op.run lock h).2 = h ∨ (∃ cur, cur ≠ 0 ∧ (op.run lock h).2 = setFields h lock 0 cur) ∨
      (op.run lock h).2 = setFields h lock 1 0 := by
  have taken : ∀ cur, h.memory (lock + 4) ≠ 0 → (lockTaken lock cur h).2 = setFields h lock 0 cur := by
    intro cur nonzero
    have one : h.memory (lock + 4) = 1 := by
      rcases fields with ⟨one,_⟩ | ⟨zero,_⟩
      · exact one
      · exact absurd zero nonzero
    refine wp_after (P := fun t => t = setFields h lock 0 cur) ?_
    simp only [lockTaken,wp_bind,wp_read,wp_assert,one,decide_true,if_true,setWord,
      wp_modify]
    rfl
  cases op with
  | acquire cur thread =>
    by_cases zero : h.memory (lock + 4) = 0
    · left
      refine wp_after (P := fun t => t = h) ?_
      simp only [run,lockAcquire,wp_bind,wp_read,zero,if_true]
      rfl
    · refine .inr (.inl ⟨cur,thread,?_⟩)
      rw [← taken cur zero]
      have step : lockAcquire lock cur h = lockTaken lock cur h := by
        simp only [lockAcquire,bind,read,if_neg zero]
      rw [run,step]
  | tryAcquire cur thread =>
    by_cases mine : h.memory (lock + 8) = cur
    · left
      refine wp_after (P := fun t => t = h) ?_
      simp only [run,lockTryAcquireAlert,wp_bind,wp_read,mine,if_true]
      rfl
    · by_cases zero : h.memory (lock + 4) = 0
      · left
        refine wp_after (P := fun t => t = h) ?_
        simp only [run,lockTryAcquireAlert,wp_bind,wp_read,zero,if_neg mine,if_true]
        rfl
      · refine .inr (.inl ⟨cur,thread,?_⟩)
        rw [← taken cur zero]
        have step : lockTryAcquireAlert lock cur h = lockTaken lock cur h := by
          simp only [lockTryAcquireAlert,bind,read,if_neg mine,if_neg zero]
        rw [run,step]
  | release cur thread =>
    by_cases mine : h.memory (lock + 8) = cur
    · refine .inr (.inr ?_)
      have one : (setFields h lock 1 0).memory (lock + 4) = 1 := setFields_available 1 0
      refine wp_after (P := fun t => t = setFields h lock 1 0) ?_
      simp only [run,lockRelease,wp_bind,wp_read,mine,if_true,setWord,wp_modify,
        wp_assert]
      rw [← setFields,if_pos (decide_eq_true one)]
    · left
      refine wp_after (P := fun t => t = h) ?_
      simp only [run,lockRelease,wp_bind,wp_read,if_neg mine]
      rfl

theorem lockCalls_sound (ops : List LockOp) (sound : h.Sound blocks) (live : ⟨lock,12⟩ ∈ blocks)
    (fields : Fields lock h) : (lockCalls lock ops h).Sound blocks ∧ Fields lock (lockCalls lock ops h) := by
  induction ops generalizing h with
  | nil => exact ⟨sound,fields⟩
  | cons op ops ih =>
    rw [lockCalls,List.foldl_cons,← lockCalls]
    rcases op.run_cases fields with same | ⟨cur,thread,taken⟩ | freed
    · rw [same]
      exact ih sound fields
    · rw [taken]
      refine ih (setFields_sound sound live 0 cur) (.inr ⟨setFields_available 0 cur,?_⟩)
      rwa [setFields_holder]
    · rw [freed]
      exact ih (setFields_sound sound live 1 0) (.inl ⟨setFields_available 1 0,setFields_holder 1 0⟩)

end Fields

/-! `lock_create` -/

section Create
variable {h : Heap} {blocks : List Alloc}

theorem sixteen_dvd_roomOf (sz : Nat) : 16 ∣ roomOf sz := by
  by_cases small : sz < 2048
  · rw [Heap.roomOf_small small]
    exact sixteen_dvd_sizes (blocktypeOf_lt small.le)
  · rw [Heap.roomOf_large (Nat.not_lt.1 small),inPages]
    omega

theorem ptr_high {all : List Nat} {same free : Nat → List Nat} (shape : h.Shape blocks all same free)
    {b : Alloc} (live : b ∈ blocks) : b.ptr + roomOf b.sz ≤ 0xa0000000 := by
  by_cases small : b.sz < 2048
  · obtain ⟨j,inJ,type,slot,_⟩ := (shape.placed b live).small small
    have inside := slot.inside (shape.pages.type j inJ)
    have high := (shape.pages.page j inJ).high
    rw [Heap.roomOf_page small type]
    omega
  · rw [Heap.roomOf_large (Nat.not_lt.1 small)]
    exact ((shape.placed b live).large (Nat.not_lt.1 small)).1.high

theorem strcpy_spec (sound : h.Sound blocks) {b : Alloc} (live : b ∈ blocks) {bytes : List UInt8}
    (fits : bytes.length = b.sz) :
    (strcpy b.ptr bytes).wp h (fun _ h' => h'.Sound blocks) never never := by
  obtain ⟨all,same,free,shape,partly⟩ := sound.shape
  have room := le_roomOf b.sz
  have words := sixteen_dvd_roomOf b.sz
  have high := ptr_high shape live
  obtain ⟨rest,outside⟩ := Heap.fill_spec h
    (fun h i => stringWord bytes i (h.memory (add32 b.ptr (4 * i)))) b.ptr ((bytes.length + 3) / 4) (by omega)
  have copied := shape.write live rest fun a away => outside a (by omega)
  rw [strcpy,wp_modify]
  refine ⟨all,same,free,copied,fun j inJ => ?_⟩
  rw [rest]
  exact partly j inJ

theorem kstrdup_spec (sound : h.Sound blocks) (name : CString) {page : Nat}
    (answer : page = 0 ∨ h.Unowned blocks page (Heap.askedFor (name.chars.length + 1))) :
    (kstrdup name page).wp h (fun text h' => (text = 0 ∧ h'.Sound blocks) ∨
      (text ≠ 0 ∧ h'.Sound (⟨text,name.chars.length + 1⟩ :: blocks))) never never := by
  rw [kstrdup,wp_bind,onHeap,wp_mapPanic]
  refine wp_imp (Heap.kmalloc_spec sound answer) ?_
  rintro text h1 (⟨rfl,same⟩ | ⟨nonzero,more⟩)
  · exact .inl ⟨rfl,same⟩
  · rw [if_neg nonzero,wp_bind]
    refine wp_imp (strcpy_spec more (b := ⟨text,name.chars.length + 1⟩) (by simp) (by simp)) ?_
    exact fun _ h2 copied => .inr ⟨nonzero,copied⟩

theorem lockCreate_spec {s : HeapState} (sound : s.heap.Sound s.live) (name : CString) {page page' : Nat}
    (answer : (HeapOp.kmalloc 12 page).Legal s)
    (answer' : (HeapOp.kmalloc (name.chars.length + 1) page').Legal ((HeapOp.kmalloc 12 page).after s)) :
    (lockCreate name page page').wp s.heap
      (fun lock h' => lock = 0 ∨ (lock ≠ 0 ∧ ∃ text,
        h'.Sound (⟨text,name.chars.length + 1⟩ :: ⟨lock,12⟩ :: s.live) ∧ h'.memory lock = text ∧
        h'.memory (lock + 4) = 1 ∧ h'.memory (lock + 8) = 0)) never never := by
  obtain ⟨lock,h1,ran,made⟩ := wp_returns (Heap.kmalloc_spec sound answer)
  have first : (onHeap (kmalloc 12 page)) s.heap = (.ok lock,h1) := by
    simp only [onHeap,mapPanic,ran]
  rw [lockCreate,wp_bind,Exec.wp,first]
  dsimp only
  rcases made with ⟨rfl,_⟩ | ⟨nonzero,more⟩
  · exact .inl rfl
  · rw [HeapOp.after,ran,HeapState.granted,HeapOp.Legal] at answer'
    dsimp only at answer'
    rw [if_neg nonzero] at answer' ⊢
    rw [wp_bind]
    refine wp_imp (kstrdup_spec more name answer') ?_
    have room := roomOf_twelve
    rintro text h2 (⟨rfl,same⟩ | ⟨some_text,named⟩)
    · -- without a name the lock is freed again
      have kept : (h2.store lock 0).Sound (⟨lock,12⟩ :: s.live) :=
        sound_store same (b := ⟨lock,12⟩) (by simp) 0 (by simp) (by dsimp only; omega)
      simp only [wp_bind,setWord,wp_modify,if_true,onHeap,wp_mapPanic]
      refine wp_imp (Heap.kfree_spec kept (b := ⟨lock,12⟩) (by simp)) ?_
      exact fun _ _ _ => .inl rfl
    · have linked : (h2.store lock text).Sound (⟨text,name.chars.length + 1⟩ :: ⟨lock,12⟩ :: s.live) :=
        sound_store named (b := ⟨lock,12⟩) (by simp) text (by simp) (by dsimp only; omega)
      have member : ⟨lock,12⟩ ∈ (⟨text,name.chars.length + 1⟩ :: ⟨lock,12⟩ :: s.live : List Alloc) := by simp
      have complete := setFields_sound linked member 1 0
      simp only [wp_bind,setWord,wp_modify,if_neg some_text,wp_pure]
      refine .inr ⟨nonzero,text,complete,?_,setFields_available 1 0,setFields_holder 1 0⟩
      rw [Heap.store_other _ (by omega),Heap.store_other _ (by omega),Heap.store_self]

end Create

/-! `lock_destroy` -/

section Destroy
variable {h : Heap} {blocks : List Alloc}

theorem kfree_stray (sound : h.Sound blocks) (ptr : Nat) (nonzero : ptr ≠ 0) (low : ptr < 0x80000000)
    (unaligned : ptr % 4096 ≠ 0) : kfree ptr h = (.panic .kfreeUnaligned,h) := by
  obtain ⟨all,same,free,shape,partly⟩ := sound.shape
  obtain ⟨r,h',ran,rfl,found,_⟩ := wp_returns (Heap.searchPage_spec ptr shape.pages.type
    shape.pages.page shape.pages.length_all shape.pages.listed)
  have nowhere : r = none := by
    rcases r with _ | j
    · rfl
    · obtain ⟨inJ,above,_⟩ := found j rfl
      have := (shape.pages.page j inJ).low
      omega
  subst nowhere
  have missed : subpageKfree ptr h' = (.ok false,h') := by
    simp only [subpageKfree,bind,read,Heap.allLinks] at ran ⊢
    rw [ran]
    rfl
  rw [kfree,if_neg nonzero]
  simp only [bind,missed,Bool.false_eq_true,if_false,assert,unaligned,decide_false]
  rfl

theorem kfree_null (h : Heap) : kfree 0 h = (.ok (),h) := rfl

def Harmless (h : Heap) (blocks : List Alloc) (lock name : Alloc) : Prop :=
  ∃ t, lockDestroy lock.ptr h = (.ok (),t) ∧ (kfree name.ptr >>= fun _ => kfree lock.ptr) h = (.ok (),t) ∧
    t.Sound ((blocks.erase name).erase lock)

theorem lockDestroy_available (sound : h.Sound blocks) {lock : Nat} (nonzero : lock ≠ 0)
    (one : h.memory (lock + 4) = 1) : lockDestroy lock h = (.panic (.heap .kfreeUnaligned),h) := by
  have stray := kfree_stray sound 1 (by decide) (by decide) (by decide)
  simp [lockDestroy,assert,nonzero,bind,read,onHeap,mapPanic,pure,one,stray]

theorem lockDestroy_unavailable {lock : Nat} (nonzero : lock ≠ 0) (zero : h.memory (lock + 4) = 0)
    (nobody : h.memory (lock + 8) = 0) : lockDestroy lock h =
      onHeap (kfree (h.memory lock) >>= fun _ => kfree lock) h := by
  have rest : lockDestroy lock h = (onHeap (kfree (h.memory lock)) >>= fun _ => onHeap (kfree lock)) h := by
    simp [lockDestroy,assert,nonzero,bind,read,onHeap,mapPanic,pure,zero,nobody,
      kfree_null]
  rw [rest]
  simp only [onHeap,mapPanic,bind]
  rcases kfree (h.memory lock) h with ⟨_ | _ | _,t⟩ <;> rfl

theorem harmless_iff (sound : h.Sound blocks) {lock name : Alloc} (inName : name ∈ blocks)
    (inLock : lock ∈ blocks.erase name) (named : h.memory lock.ptr = name.ptr)
    (nobody : h.memory (lock.ptr + 8) = 0)
    (flag : h.memory (lock.ptr + 4) = 0 ∨ h.memory (lock.ptr + 4) = 1) :
    Harmless h blocks lock name ↔ h.memory (lock.ptr + 4) = 0 := by
  obtain ⟨all,same,free,shape,_⟩ := sound.shape
  have low := shape.ptr_low (List.mem_of_mem_erase inLock)
  have nonzero : lock.ptr ≠ 0 := by omega
  constructor
  · rintro ⟨t,destroyed,_⟩
    refine flag.resolve_right fun one => ?_
    rw [lockDestroy_available sound nonzero one] at destroyed
    cases destroyed
  · intro zero
    have both : (kfree name.ptr >>= fun _ => kfree lock.ptr).wp h
        (fun _ t => t.Sound ((blocks.erase name).erase lock)) never never := by
      rw [wp_bind]
      exact wp_imp (Heap.kfree_spec sound inName) (fun _ t once => Heap.kfree_spec once inLock)
    obtain ⟨_,t,ran,freed⟩ := wp_returns both
    refine ⟨t,?_,ran,freed⟩
    rw [lockDestroy_unavailable nonzero zero nobody,named,onHeap,mapPanic,ran]

end Destroy

/-- For a lock without a holder, `lock_destroy` is harmless exactly if `available` is 0. But
`lock_create`, `lock_acquire` and `lock_release` leave a lock without a holder only with
`available` 1, and then `lock_destroy` hands that 1 to `kfree`, which panics. -/
theorem lock_destroy_harmless_iff {memory : Nat → Nat} {s : HeapState} (run : HeapRun (bootHeap memory) s) :
    (∀ lock name : Alloc, name ∈ s.live → lock ∈ s.live.erase name → s.heap.memory lock.ptr = name.ptr →
      s.heap.memory (lock.ptr + 8) = 0 →
      s.heap.memory (lock.ptr + 4) = 0 ∨ s.heap.memory (lock.ptr + 4) = 1 →
      (Harmless s.heap s.live lock name ↔ s.heap.memory (lock.ptr + 4) = 0)) ∧
    (∀ (name : CString) (page page' : Nat), (HeapOp.kmalloc 12 page).Legal s →
      (HeapOp.kmalloc (name.chars.length + 1) page').Legal ((HeapOp.kmalloc 12 page).after s) →
      ∃ lock h, lockCreate name page page' s.heap = (.ok lock,h) ∧ (lock ≠ 0 →
        ∀ ops : List LockOp, (lockCalls lock ops h).memory (lock + 8) = 0 →
          (lockCalls lock ops h).memory (lock + 4) = 1 ∧
          lockDestroy lock (lockCalls lock ops h) =
            (.panic (.heap .kfreeUnaligned),lockCalls lock ops h))) := by
  have sound := run.sound
  refine ⟨fun lock name inName inLock named nobody flag => ?_,fun name page page' answer answer' => ?_⟩
  · exact harmless_iff sound inName inLock named nobody flag
  · obtain ⟨lock,h,made,outcome⟩ := wp_returns (lockCreate_spec sound name answer answer')
    refine ⟨lock,h,made,fun nonzero ops nobody => ?_⟩
    rcases outcome with zero | ⟨_,text,created,_,one,free⟩
    · exact absurd zero nonzero
    · obtain ⟨later,fields⟩ := lockCalls_sound ops created (by simp) (.inl ⟨one,free⟩)
      rcases fields with ⟨available,_⟩ | ⟨_,held⟩
      · exact ⟨available,lockDestroy_available later nonzero available⟩
      · exact absurd nobody held

def lockName : CString := ⟨[0x6c],by decide⟩

def firstLock : Outcome Errno LockPanic Nat × Heap :=
  lockCreate lockName 0x80050000 0 (bootHeap fun _ => 0).heap

theorem lock_destroy_harmless_iff_firstLock :
    firstLock.1 = .ok 0x80050ff0 ∧ (lockDestroy 0x80050ff0 firstLock.2).1 = .panic (.heap .kfreeUnaligned) := by
  have unowned : (bootHeap fun _ => 0).heap.Unowned [] 0x80050000 4096 := by
    refine ⟨⟨by decide,by decide,by decide⟩,fun j used => ?_,fun b live => nomatch live⟩
    have clear : (0 : BitVec 32).getLsbD (j % 32) = true := used.2
    simp at clear
  have start : HeapRun (bootHeap fun _ => 0) (bootHeap fun _ => 0) := .none
  have address : firstLock.1 = .ok 0x80050ff0 := by decide +kernel
  have nobody : firstLock.2.memory (0x80050ff0 + 8) = 0 := by decide +kernel
  obtain ⟨_,created⟩ := lock_destroy_harmless_iff start
  obtain ⟨lock,h,made,destroy⟩ := created lockName 0x80050000 0 (.inr unowned) (.inl rfl)
  change firstLock = (.ok lock,h) at made
  rw [made] at address nobody ⊢
  cases address
  exact ⟨rfl,congrArg Prod.fst (destroy (by decide) [] nobody).2⟩

/-- The same after a thread has acquired the lock and released it. -/
theorem lock_destroy_released :
    let used := lockCalls 0x80050ff0 [.acquire 0x80040000 (by decide),.release 0x80040000 (by decide)] firstLock.2
    firstLock.1 = .ok 0x80050ff0 ∧ used.memory (0x80050ff0 + 8) = 0 ∧
      (lockDestroy 0x80050ff0 used).1 = .panic (.heap .kfreeUnaligned) := by
  decide +kernel

end HeapLock
end Os161
