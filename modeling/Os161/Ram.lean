import Mathlib.Data.Nat.Bitwise
import Os161.Kernel

/-! `ram.c` and the page requests of `kheap.c` and `dumbvm.c`: physical memory is handed
out from the front, in 32-bit arithmetic. Every call of `ram_stealmem` is logged with the
number of bytes that its caller needs, counted exactly. -/
namespace Os161

/-- The two globals of `ram.c`. -/
structure Ram where
  firstpaddr : UInt32
  lastpaddr : UInt32
  deriving DecidableEq, Repr

def Ram.ramStealmem (r : Ram) (npages : UInt32) : UInt32 × Ram :=
  let size := npages * 4096
  if r.firstpaddr + size > r.lastpaddr then (0,r)
  else (r.firstpaddr,{ r with firstpaddr := r.firstpaddr + size })

/-- One call of `ram_stealmem`, for a caller that needs `bytes`. -/
structure StealCall where
  bytes : Nat
  npages : UInt32
  before : Ram
  result : UInt32
  after : Ram
  deriving DecidableEq, Repr

structure RamState where
  ram : Ram
  calls : List StealCall

inductive RamPanic where
  | preparePbase1 | preparePbase2 | prepareStackpbase
  deriving DecidableEq, Repr

abbrev RamM (α : Type) := Exec RamState Errno RamPanic α

/-! `dumbvm.c` -/

/-- `getppages`; `bytes` is what the caller needs, for the log. -/
def getppages (bytes : Nat) (npages : UInt32) : RamM UInt32 := do
  let s ← read
  let stolen := s.ram.ramStealmem npages
  put ⟨stolen.2,s.calls ++ [⟨bytes,npages,s.ram,stolen.1,stolen.2⟩]⟩
  pure stolen.1

def allocKpages (bytes : Nat) (npages : UInt32) : RamM UInt32 := do
  let pa ← getppages bytes npages
  pure (if pa = 0 then 0 else pa + 0x80000000)

/-- `struct addrspace`, and for each region the bytes it covers from its first page on. -/
structure Addrspace where
  asVbase1 : UInt32
  asPbase1 : UInt32
  asNpages1 : UInt32
  asVbase2 : UInt32
  asPbase2 : UInt32
  asNpages2 : UInt32
  asStackpbase : UInt32
  bytes1 : Nat
  bytes2 : Nat

def asCreate : Addrspace := ⟨0,0,0,0,0,0,0,0,0⟩

def pageFrame : UInt32 := 0xfffff000

def asDefineRegion (as : Addrspace) (vaddr sz : UInt32) : RamM Addrspace :=
  let covered := (vaddr &&& ~~~pageFrame).toNat + sz.toNat
  let vbase := vaddr &&& pageFrame
  let aligned := (sz + (vaddr &&& ~~~pageFrame) + 4096 - 1) &&& pageFrame
  let npages := aligned / 4096
  if as.asVbase1 = 0 then
    pure { as with asVbase1 := vbase, asNpages1 := npages, bytes1 := covered }
  else if as.asVbase2 = 0 then
    pure { as with asVbase2 := vbase, asNpages2 := npages, bytes2 := covered }
  else fail .eunimp

def dumbvmStackpages : UInt32 := 12

def stackBytes : Nat := 12 * 4096

def asPrepareLoad (as : Addrspace) : RamM Addrspace := do
  assert (as.asPbase1 = 0) .preparePbase1
  assert (as.asPbase2 = 0) .preparePbase2
  assert (as.asStackpbase = 0) .prepareStackpbase
  let pbase1 ← getppages as.bytes1 as.asNpages1
  if pbase1 = 0 then fail .enomem
  else do
    let pbase2 ← getppages as.bytes2 as.asNpages2
    if pbase2 = 0 then fail .enomem
    else do
      let stackpbase ← getppages stackBytes dumbvmStackpages
      if stackpbase = 0 then fail .enomem
      else pure { as with asPbase1 := pbase1, asPbase2 := pbase2, asStackpbase := stackpbase }

/-- The loop of `load_elf` that defines the segments. -/
def defineRegions : List (UInt32 × UInt32) → Addrspace → RamM Addrspace
  | [], as => pure as
  | (vaddr,sz) :: rest, as => do defineRegions rest (← asDefineRegion as vaddr sz)

/-! `kheap.c` -/

def kmallocPages (sz : UInt32) : RamM UInt32 := allocKpages sz.toNat ((sz + 4096 - 1) / 4096)

/-! Runs -/

inductive RamOp where
  | kmalloc (sz : UInt32) (large : 2048 ≤ sz)
  | heapPage
  | load (segments : List (UInt32 × UInt32))

def RamOp.run : RamOp → RamM Unit
  | .kmalloc sz _ => do let _ ← kmallocPages sz
  | .heapPage => do let _ ← allocKpages 4096 1
  | .load segments => do let _ ← asPrepareLoad (← defineRegions segments asCreate)

def serve (ops : List RamOp) (s : RamState) : RamState := ops.foldl (fun s op => (op.run s).2) s

/-! Counting in pages -/

def inPages (bytes : Nat) : Nat := (bytes + 4095) / 4096 * 4096

theorem le_inPages (bytes : Nat) : bytes ≤ inPages bytes := by
  unfold inPages
  omega

def StandsFor (npages : UInt32) (bytes : Nat) : Prop :=
  (npages * 4096).toNat = inPages bytes % 2^32

theorem toNat_pages (npages : UInt32) : (npages * 4096).toNat = npages.toNat * 4096 % 2^32 := by
  rw [UInt32.toNat_mul]
  rfl

theorem frame_toNat (x : UInt32) : (x &&& pageFrame).toNat = x.toNat / 4096 * 4096 := by
  rw [UInt32.toNat_and]
  have below := x.toNat_lt
  apply Nat.eq_of_testBit_eq
  intro i
  have left : (0xfffff000 : Nat) = (2^20 - 1) * 2^12 := by decide
  have frame : pageFrame.toNat = (2^20 - 1) * 2^12 := left
  rw [Nat.testBit_and,frame,Nat.testBit_mul_two_pow,Nat.testBit_two_pow_sub_one,
    show (4096 : Nat) = 2^12 by decide,Nat.testBit_mul_two_pow,Nat.testBit_div_two_pow]
  by_cases low : 12 ≤ i
  · rw [Nat.sub_add_cancel low]
    by_cases high : i - 12 < 20
    · simp [low,high]
    · have zero : x.toNat.testBit i = false :=
        Nat.testBit_lt_two_pow (below.trans_le (Nat.pow_le_pow_right (by decide) (by omega)))
      simp [zero]
  · simp [low]

theorem div_toNat (x : UInt32) : (x / 4096).toNat = x.toNat / 4096 := by
  rw [UInt32.toNat_div]
  rfl

theorem round_up (x : UInt32) : x + 4096 - 1 = x + 4095 := by
  rw [UInt32.sub_eq_add_neg,UInt32.add_assoc]
  rfl

theorem kmalloc_standsFor (sz : UInt32) : StandsFor ((sz + 4096 - 1) / 4096) sz.toNat := by
  have below := sz.toNat_lt
  have sum : (sz + 4096 - 1).toNat = (sz.toNat + 4095) % 2^32 := by
    rw [round_up,UInt32.toNat_add]
    rfl
  rw [StandsFor,toNat_pages,div_toNat,sum,inPages]
  omega

theorem region_standsFor (vaddr sz : UInt32) :
    StandsFor (((sz + (vaddr &&& ~~~pageFrame) + 4096 - 1) &&& pageFrame) / 4096)
      ((vaddr &&& ~~~pageFrame).toNat + sz.toNat) := by
  have below := sz.toNat_lt
  have small := (vaddr &&& ~~~pageFrame).toNat_lt
  generalize vaddr &&& ~~~pageFrame = offset at small ⊢
  have sum : (sz + offset + 4096 - 1).toNat = (offset.toNat + sz.toNat + 4095) % 2^32 := by
    rw [round_up,UInt32.toNat_add,UInt32.toNat_add]
    change ((sz.toNat + offset.toNat) % 2^32 + 4095) % 2^32 = _
    omega
  rw [StandsFor,toNat_pages,div_toNat,frame_toNat,sum,inPages]
  omega

/-! Calls in the order they were made -/

def StealCall.Faithful (c : StealCall) : Prop :=
  (c.result,c.after) = c.before.ramStealmem c.npages ∧ StandsFor c.npages c.bytes

inductive Stolen (start : Ram) : List StealCall → Ram → Prop
  | none : Stolen start [] start
  | call {calls : List StealCall} {c : StealCall} (earlier : Stolen start calls c.before)
      (faithful : c.Faithful) : Stolen start (calls ++ [c]) c.after

def RamState.Logged (start : Ram) (s : RamState) : Prop := Stolen start s.calls s.ram

section Logging
variable {start : Ram} {s : RamState}
variable {bytes : Nat} {npages : UInt32}

theorem getppages_logged (logged : s.Logged start)
    (counted : StandsFor npages bytes) :
    (getppages bytes npages).wp s (fun _ t => t.Logged start) (fun _ t => t.Logged start)
      fun _ t => t.Logged start := by
  simp only [getppages,wp_bind,wp_read,wp_put,wp_pure]
  exact .call logged ⟨rfl,counted⟩

theorem allocKpages_logged (logged : s.Logged start)
    (counted : StandsFor npages bytes) :
    (allocKpages bytes npages).wp s (fun _ t => t.Logged start) (fun _ t => t.Logged start)
      fun _ t => t.Logged start := by
  simp only [allocKpages,wp_bind,wp_pure]
  exact getppages_logged logged counted

/-- Both regions of the address space have counts that stand for their bytes. -/
def Addrspace.Counted (as : Addrspace) : Prop :=
  StandsFor as.asNpages1 as.bytes1 ∧ StandsFor as.asNpages2 as.bytes2

variable {as : Addrspace}

theorem asDefineRegion_counted (counted : as.Counted) (vaddr sz : UInt32)
    (logged : s.Logged start) :
    (asDefineRegion as vaddr sz).wp s (fun as' t => as'.Counted ∧ t.Logged start)
      (fun _ t => t.Logged start) fun _ t => t.Logged start := by
  have region := region_standsFor vaddr sz
  simp only [asDefineRegion]
  split_ifs with first second
  · exact ⟨⟨region,counted.2⟩,logged⟩
  · exact ⟨⟨counted.1,region⟩,logged⟩
  · exact logged

theorem defineRegions_counted (segments : List (UInt32 × UInt32))
    (counted : as.Counted) (logged : s.Logged start) :
    (defineRegions segments as).wp s (fun as' t => as'.Counted ∧ t.Logged start)
      (fun _ t => t.Logged start) fun _ t => t.Logged start := by
  induction segments generalizing as s with
  | nil => exact ⟨counted,logged⟩
  | cons segment rest ih =>
    rw [defineRegions,wp_bind]
    apply wp_imp (asDefineRegion_counted counted segment.1 segment.2 logged)
    exact fun as' t defined => ih defined.1 defined.2

theorem getppages_then (logged : s.Logged start)
    (counted : StandsFor npages bytes) {next : UInt32 → RamM Addrspace}
    (rest : ∀ pa t, t.Logged start → (next pa).wp t (fun _ t => t.Logged start)
      (fun _ t => t.Logged start) fun _ t => t.Logged start) :
    (getppages bytes npages >>= fun pa => if pa = 0 then fail .enomem else next pa).wp s
      (fun _ t => t.Logged start) (fun _ t => t.Logged start) fun _ t => t.Logged start := by
  rw [wp_bind]
  refine wp_imp (getppages_logged logged counted) ?_
  intro pa t loggedThen
  rw [wp_ite]
  exact ⟨fun _ => loggedThen,fun _ => rest pa t loggedThen⟩

theorem asPrepareLoad_logged (counted : as.Counted) (logged : s.Logged start) :
    (asPrepareLoad as).wp s (fun _ t => t.Logged start) (fun _ t => t.Logged start)
      fun _ t => t.Logged start := by
  have stack : StandsFor dumbvmStackpages stackBytes := by
    unfold StandsFor
    decide
  rw [asPrepareLoad]
  generalize dumbvmStackpages = npages at stack ⊢
  rw [wp_bind,wp_assert]
  split_ifs
  · rw [wp_bind,wp_assert]
    split_ifs
    · rw [wp_bind,wp_assert]
      split_ifs
      · exact getppages_then logged counted.1 fun _ _ logged1 =>
          getppages_then logged1 counted.2 fun _ _ logged2 =>
          getppages_then logged2 stack fun _ _ logged3 => logged3
      · exact logged
    · exact logged
  · exact logged

theorem asCreate_counted : asCreate.Counted := by
  unfold Addrspace.Counted StandsFor
  decide

theorem RamOp.run_logged (op : RamOp) (logged : s.Logged start) : (op.run s).2.Logged start := by
  apply wp_after (P := RamState.Logged start)
  cases op with
  | kmalloc sz large =>
    rw [RamOp.run,wp_bind]
    exact allocKpages_logged logged (kmalloc_standsFor sz)
  | heapPage =>
    rw [RamOp.run,wp_bind]
    have page : StandsFor 1 4096 := by
      unfold StandsFor
      decide
    exact allocKpages_logged logged page
  | load segments =>
    rw [RamOp.run,wp_bind]
    apply wp_imp (defineRegions_counted segments asCreate_counted logged)
    intro as t defined
    rw [wp_bind]
    exact asPrepareLoad_logged defined.1 defined.2

theorem serve_logged (ops : List RamOp) (logged : s.Logged start) : (serve ops s).Logged start := by
  induction ops generalizing s with
  | nil => exact logged
  | cons op rest ih => exact ih (op.run_logged logged)

end Logging

/-! What one call does -/

/-- The end of the pages asked for does not wrap round past the end of memory. -/
def StealCall.NoWrap (c : StealCall) : Prop :=
  c.before.firstpaddr.toNat + inPages c.bytes < 2^32 ∨
    c.before.lastpaddr.toNat < (c.before.firstpaddr.toNat + inPages c.bytes) % 2^32

instance (c : StealCall) : Decidable c.NoWrap := inferInstanceAs (Decidable (_ ∨ _))

/-- What is granted starts at the first free page, has all the bytes and ends inside
memory; what does not fit is refused and changes nothing. -/
def StealCall.Sound (c : StealCall) : Prop :=
  (c.result ≠ 0 → c.result = c.before.firstpaddr ∧
    c.result.toNat + c.bytes ≤ c.after.firstpaddr.toNat ∧
    c.after.firstpaddr.toNat ≤ c.before.lastpaddr.toNat) ∧
  (c.before.lastpaddr.toNat < c.before.firstpaddr.toNat + inPages c.bytes →
    c.result = 0 ∧ c.after = c.before)

/-- Some memory is left to hand out, and not the page of the exception handlers. -/
structure Ram.Valid (r : Ram) : Prop where
  allocatable : 0 < r.firstpaddr.toNat
  ordered : r.firstpaddr.toNat ≤ r.lastpaddr.toNat

variable {c : StealCall}

theorem StealCall.Faithful.cases (faithful : c.Faithful) :
    let wrapped := (c.before.firstpaddr.toNat + inPages c.bytes) % 2^32
    (c.before.lastpaddr.toNat < wrapped ∧ c.result = 0 ∧ c.after = c.before) ∨
    (wrapped ≤ c.before.lastpaddr.toNat ∧ c.result = c.before.firstpaddr ∧
      c.after.firstpaddr.toNat = wrapped ∧ c.after.lastpaddr = c.before.lastpaddr) := by
  intro wrapped
  obtain ⟨stolen,counted⟩ := faithful
  have sum : (c.before.firstpaddr + c.npages * 4096).toNat = wrapped := by
    rw [UInt32.toNat_add,counted,Nat.add_mod_mod]
  simp only [Ram.ramStealmem] at stolen
  split at stolen
  · next exceeds =>
    obtain ⟨result,after⟩ := Prod.mk.inj stolen
    rw [gt_iff_lt,UInt32.lt_iff_toNat_lt,sum] at exceeds
    exact .inl ⟨exceeds,result,after⟩
  · next fits =>
    obtain ⟨result,after⟩ := Prod.mk.inj stolen
    rw [gt_iff_lt,UInt32.lt_iff_toNat_lt,sum] at fits
    rw [after]
    exact .inr ⟨Nat.le_of_not_lt fits,result,sum,rfl⟩

theorem StealCall.Faithful.noWrap_of_sound (faithful : c.Faithful)
    (valid : c.before.Valid) (sound : c.Sound) : c.NoWrap := by
  obtain ⟨_,refused⟩ := sound
  have positive := valid.allocatable
  have high := c.before.lastpaddr.toNat_lt
  rcases faithful.cases with ⟨exceeds,_⟩ | ⟨fits,result,after,_⟩
  · exact .inr exceeds
  · -- a granted call that wrapped would be one that does not fit
    left
    by_contra wraps
    obtain ⟨zero,_⟩ := refused (by omega)
    rw [zero] at result
    rw [← result] at positive
    exact absurd positive (by decide)

theorem StealCall.NoWrap.sound (noWrap : c.NoWrap) (faithful : c.Faithful) :
    c.Sound := by
  have enough := le_inPages c.bytes
  rcases faithful.cases with ⟨exceeds,result,after⟩ | ⟨fits,result,after,_⟩
  · exact ⟨fun granted => absurd result granted,fun _ => ⟨result,after⟩⟩
  · rcases noWrap with small | large
    · rw [Nat.mod_eq_of_lt small] at fits after
      rw [StealCall.Sound,result,after]
      exact ⟨fun _ => ⟨rfl,by omega,fits⟩,fun beyond => absurd beyond (by omega)⟩
    · omega

theorem StealCall.NoWrap.after_valid (noWrap : c.NoWrap) (faithful : c.Faithful)
    (valid : c.before.Valid) : c.after.Valid ∧
      c.before.firstpaddr.toNat ≤ c.after.firstpaddr.toNat ∧
      c.after.lastpaddr = c.before.lastpaddr := by
  rcases faithful.cases with ⟨_,_,after⟩ | ⟨fits,_,after,last⟩
  · rw [after]
    exact ⟨valid,Nat.le_refl _,rfl⟩
  · rcases noWrap with small | large
    · rw [Nat.mod_eq_of_lt small] at fits after
      have := valid.allocatable
      exact ⟨⟨by omega,by rw [last]; omega⟩,by omega,last⟩
    · omega

/-! What a run of calls does -/

def StealCall.Reserves (c : StealCall) (address : Nat) : Prop :=
  c.result ≠ 0 ∧ c.result.toNat ≤ address ∧ address < c.after.firstpaddr.toNat

variable {start now : Ram} {calls : List StealCall}

theorem Stolen.valid (stolen : Stolen start calls now)
    (valid : start.Valid) (noWrap : ∀ c ∈ calls, c.NoWrap) : now.Valid ∧
      start.firstpaddr.toNat ≤ now.firstpaddr.toNat ∧ now.lastpaddr = start.lastpaddr := by
  induction stolen with
  | none => exact ⟨valid,Nat.le_refl _,rfl⟩
  | call earlier faithful ih =>
    obtain ⟨before,low,last⟩ := ih fun c h => noWrap c (List.mem_append_left _ h)
    obtain ⟨after,grows,same⟩ := (noWrap _ (by simp)).after_valid faithful before
    exact ⟨after,low.trans grows,same.trans last⟩

theorem Stolen.split {earlier later : List StealCall}
    (stolen : Stolen start (earlier ++ c :: later) now) : Stolen start earlier c.before ∧ c.Faithful := by
  generalize whole : earlier ++ c :: later = calls at stolen
  induction stolen generalizing later with
  | none => simp at whole
  | @call calls d before faithful ih =>
    rcases List.eq_nil_or_concat later with rfl | ⟨front,last,rfl⟩
    · obtain ⟨rfl,same⟩ := List.append_inj' whole rfl
      cases same
      exact ⟨before,faithful⟩
    · rw [List.concat_eq_append,← List.cons_append,← List.append_assoc] at whole
      exact ih (List.append_inj' whole rfl).1

theorem Stolen.within (stolen : Stolen start calls now)
    (valid : start.Valid) (noWrap : ∀ c ∈ calls, c.NoWrap) (member : c ∈ calls)
    {address : Nat} (reserved : c.Reserves address) :
    start.firstpaddr.toNat ≤ address ∧ address < now.firstpaddr.toNat := by
  induction stolen with
  | none => cases member
  | @call calls d before faithful ih =>
    have earlierOk : ∀ c ∈ calls, c.NoWrap := fun c h => noWrap c (List.mem_append_left _ h)
    have lastOk := noWrap d (by simp)
    obtain ⟨beforeValid,low,_⟩ := before.valid valid earlierOk
    obtain ⟨_,grows,_⟩ := lastOk.after_valid faithful beforeValid
    rcases List.mem_append.1 member with old | new
    · obtain ⟨above,below⟩ := ih earlierOk old
      exact ⟨above,below.trans_le grows⟩
    · obtain rfl := List.mem_singleton.1 new
      obtain ⟨granted,above,below⟩ := reserved
      rw [((lastOk.sound faithful).1 granted).1] at above
      exact ⟨low.trans above,below⟩

theorem Stolen.disjoint (stolen : Stolen start calls now)
    (valid : start.Valid) (noWrap : ∀ c ∈ calls, c.NoWrap) :
    calls.Pairwise fun c d => ∀ address, ¬(c.Reserves address ∧ d.Reserves address) := by
  induction stolen with
  | none => exact .nil
  | @call calls d before faithful ih =>
    have earlierOk : ∀ c ∈ calls, c.NoWrap := fun c h => noWrap c (List.mem_append_left _ h)
    rw [List.pairwise_append]
    refine ⟨ih earlierOk,List.pairwise_singleton _ _,?_⟩
    rintro c member d' new address ⟨first,granted,above,_⟩
    obtain rfl := List.mem_singleton.1 new
    obtain ⟨_,below⟩ := before.within valid earlierOk member first
    rw [(((noWrap d' (by simp)).sound faithful).1 granted).1] at above
    omega

/-- Pages are handed out soundly by exactly the calls that do not wrap: the first call that
does wrap is unsound, and while none does, every granted range has its bytes, lies between
the first two bounds and shares nothing with another. -/
theorem stealmem_sound_iff {start : Ram} (valid : start.Valid) (ops : List RamOp) :
    let log := (serve ops ⟨start,[]⟩).calls
    (∀ earlier c later, log = earlier ++ c :: later → (∀ e ∈ earlier, e.NoWrap) →
      (c.Sound ↔ c.NoWrap)) ∧
    ((∀ c ∈ log, c.NoWrap) →
      (∀ c ∈ log, c.Sound) ∧
      (∀ c ∈ log, ∀ address, c.Reserves address →
        start.firstpaddr.toNat ≤ address ∧ address < start.lastpaddr.toNat) ∧
      log.Pairwise fun c d => ∀ address, ¬(c.Reserves address ∧ d.Reserves address)) := by
  intro log
  have logged : Stolen start log (serve ops ⟨start,[]⟩).ram := serve_logged ops .none
  refine ⟨?_,fun noWrap => ⟨?_,?_,logged.disjoint valid noWrap⟩⟩
  · intro earlier c later whole noWrap
    rw [whole] at logged
    obtain ⟨before,faithful⟩ := logged.split
    exact ⟨faithful.noWrap_of_sound (before.valid valid noWrap).1,fun h => h.sound faithful⟩
  · intro c member
    obtain ⟨earlier,later,whole⟩ := List.append_of_mem member
    rw [whole] at logged
    exact (noWrap c member).sound logged.split.2
  · intro c member address reserved
    obtain ⟨above,below⟩ := logged.within valid noWrap member reserved
    obtain ⟨nowValid,_,last⟩ := logged.valid valid noWrap
    have := nowValid.ordered
    rw [last] at this
    exact ⟨above,by omega⟩

/-- Half a megabyte, from the first page after a small kernel. -/
def halfMegabyte : Ram := ⟨0x40000,0x80000⟩

theorem halfMegabyte_valid : halfMegabyte.Valid := ⟨by decide,by decide⟩

theorem stealmem_sound_iff_halfMegabyte :
    let log := (serve [.kmalloc 5000 (by decide),.load [(0x400000,100),(0x10000000,5000)]]
      ⟨halfMegabyte,[]⟩).calls
    log.length = 4 ∧ (∀ c ∈ log, c.Sound) ∧
      log.Pairwise fun c d => ∀ address, ¬(c.Reserves address ∧ d.Reserves address) := by
  obtain ⟨_,run⟩ := stealmem_sound_iff halfMegabyte_valid
    [.kmalloc 5000 (by decide),.load [(0x400000,100),(0x10000000,5000)]]
  obtain ⟨sound,_,disjoint⟩ := run (by decide)
  exact ⟨by decide,sound,disjoint⟩

/-- A request for almost 2^32 bytes is granted and moves the first free page down, so that
the next request is given a page in front of it. -/
theorem stealmem_wraps :
    let log := (serve [.kmalloc 0xfffff000 (by decide),.heapPage] ⟨halfMegabyte,[]⟩).calls
    log.map (fun c => (c.result,c.after.firstpaddr)) = [(0x40000,0x3f000),(0x3f000,0x40000)] ∧
      ¬∀ c ∈ log, c.Sound := by
  refine ⟨by decide,fun sound => ?_⟩
  have first := (sound ⟨0xfffff000,0xfffff,halfMegabyte,0x40000,⟨0x3f000,0x80000⟩⟩ (by decide)).1
    (by decide)
  exact absurd first.2.1 (by decide)

end Os161
