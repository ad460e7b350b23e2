import Os161.Dumbvm
import Mathlib.Data.Set.Defs
import Mathlib.Data.Fin.Basic
import Mathlib.Data.List.FinRange
import Mathlib.Logic.Function.Basic

/-! The whole of `vm_fault`, with the TLB and the interrupt level, and `as_activate`. -/
namespace Os161

open Function

/-- A TLB entry: the words of `TLB_Read` and `TLB_Write`. -/
structure TlbEntry where
  ehi : UInt32
  elo : UInt32
  deriving DecidableEq, Repr

def tlbloDirty : UInt32 := 0x400
def tlbloValid : UInt32 := 0x200

def TlbEntry.invalid (i : Fin 64) : TlbEntry := ⟨(0x80000 + UInt32.ofNat i) <<< 12, 0⟩

namespace TlbEntry

def Valid (e : TlbEntry) : Prop := e.elo &&& tlbloValid ≠ 0
def Writable (e : TlbEntry) : Prop := e.elo &&& tlbloDirty ≠ 0

instance (e : TlbEntry) : Decidable e.Valid := inferInstanceAs (Decidable (_ ≠ _))

def mapping (page p : UInt32) : TlbEntry := ⟨page,p ||| tlbloDirty ||| tlbloValid⟩

def page (e : TlbEntry) : UInt32 := e.ehi &&& pageFrame
/-- The physical page that an entry maps it to. -/
def frame (e : TlbEntry) : UInt32 := e.elo &&& pageFrame

end TlbEntry

def vmFaultRead : Int := 0
def vmFaultWrite : Int := 1
def vmFaultReadonly : Int := 2
def splHigh : Int := 15

/-- What `vm_fault` works on: `curthread->t_vmspace`, the TLB, `curspl` and whether the
processor takes interrupts. -/
structure Mmu where
  vmspace : Option Addrspace
  tlb : Fin 64 → TlbEntry
  curspl : Int
  interrupts : Bool

inductive FaultPanic where
  | readonly
  | space (site : VmPanic)
  deriving DecidableEq, Repr

abbrev MmuM := Exec Mmu Errno FaultPanic

namespace Mmu

def level (m : Mmu) (newspl : Int) : Mmu :=
  let interrupts := if newspl > 0 then false else if newspl = 0 then true else m.interrupts
  { m with curspl := newspl, interrupts }

def splx (newspl : Int) : MmuM Int := do
  let m ← read
  put (m.level newspl)
  pure m.curspl

def splhigh : MmuM Int := splx splHigh

def tlbWrite (entry : TlbEntry) (i : Fin 64) : MmuM Unit :=
  modify fun m => { m with tlb := update m.tlb i entry }

def enterFree (faultaddress paddr : UInt32) (spl : Int) : List (Fin 64) → MmuM Unit
  | [] => do
    let _ ← splx spl
    fail .efault
  | i :: rest => do
    let m ← read
    if (m.tlb i).Valid then enterFree faultaddress paddr spl rest
    else do
      tlbWrite (.mapping faultaddress paddr) i
      let _ ← splx spl

/-- `vm_fault` once the address space is known. -/
def faultIn (as : Addrspace) (page : UInt32) (spl : Int) : MmuM Unit := do
  mapPanic .space (vmAsserts as)
  match as.paddr page with
  | none => do
    let _ ← splx spl
    fail .efault
  | some paddr =>
    assert (paddr &&& pageFrame = paddr) (.space .paddrFrame)
    enterFree page paddr spl (List.finRange 64)

def vmFault (faulttype : Int) (faultaddress : UInt32) : MmuM Unit := do
  let spl ← splhigh
  if faulttype = vmFaultReadonly then panic .readonly
  else if faulttype = vmFaultRead ∨ faulttype = vmFaultWrite then
    match (← read).vmspace with
    | none => fail .efault
    | some as => faultIn as (faultaddress &&& pageFrame) spl
  else do
    let _ ← splx spl
    fail .einval

def invalidate : List (Fin 64) → MmuM Unit
  | [] => pure ()
  | i :: rest => do
    tlbWrite (.invalid i) i
    invalidate rest

/-- `as_activate`, which does not look at the address space. -/
def asActivate : MmuM Unit := do
  let spl ← splhigh
  invalidate (List.finRange 64)
  let _ ← splx spl

/-- The end of a switch: `curthread` has changed, and the new thread's address space is
activated if it has one. -/
def switchTo (next : Option Addrspace) : MmuM Unit := do
  modify fun m => { m with vmspace := next }
  if next.isSome then asActivate

/-! What each call does -/

@[simp] theorem level_tlb (m : Mmu) (spl : Int) : (m.level spl).tlb = m.tlb := rfl
@[simp] theorem level_curspl (m : Mmu) (spl : Int) : (m.level spl).curspl = spl := rfl
@[simp] theorem level_vmspace (m : Mmu) (spl : Int) : (m.level spl).vmspace = m.vmspace := rfl

variable {m : Mmu}

@[simp] theorem wp_splx {ok : Int → Mmu → Prop} {err : Errno → Mmu → Prop}
    {halt : FaultPanic → Mmu → Prop} (spl : Int) :
    (splx spl).wp m ok err halt ↔ ok m.curspl (m.level spl) := by
  rw [splx,wp_bind,wp_read,wp_bind,wp_put,wp_pure]

def Enters (m t : Mmu) (page p : UInt32) : Prop :=
  ∃ slot, ¬ (m.tlb slot).Valid ∧ t.tlb = update m.tlb slot (.mapping page p)

theorem enterFree_spec (page p : UInt32) (spl : Int) (m : Mmu) (slots : List (Fin 64)) :
    (enterFree page p spl slots).wp m
      (fun _ t => Enters m t page p ∧ t.curspl = spl ∧ t.vmspace = m.vmspace)
      (fun _ t => t = m.level spl ∧ ∀ slot ∈ slots, (m.tlb slot).Valid) never := by
  induction slots with
  | nil =>
    rw [enterFree,wp_bind,wp_splx,wp_fail]
    exact ⟨rfl,fun _ member => (List.not_mem_nil member).elim⟩
  | cons i rest next =>
    rw [enterFree,wp_bind,wp_read,wp_ite]
    constructor
    · intro valid
      refine wp_ends next (fun _ _ h => h) (fun _ t full => ⟨full.1,fun slot member => ?_⟩)
      rcases List.mem_cons.mp member with rfl | member
      · exact valid
      · exact full.2 slot member
    · intro free
      rw [wp_bind,tlbWrite,wp_modify,wp_bind,wp_splx,wp_pure]
      exact ⟨⟨i,free,rfl⟩,rfl,rfl⟩

variable {as : Addrspace}

theorem faultIn_spec (complete : as.Complete) (prepared : as.Prepared) {page : UInt32}
    (frame : page.toNat % 4096 = 0) (spl : Int) (m : Mmu) :
    (faultIn as page spl).wp m
      (fun _ t => (∃ p, as.paddr page = some p ∧ Enters m t page p) ∧ t.curspl = spl ∧
        t.vmspace = m.vmspace)
      (fun _ t => t = m.level spl ∧ (as.paddr page = none ∨ ∀ slot, (m.tlb slot).Valid)) never := by
  rw [faultIn,wp_bind,wp_mapPanic]
  refine wp_mono (vmAsserts_prepared prepared) ?_ (fun _ _ h => h.elim)
    fun _ _ h => h.2 complete
  rintro _ _ ⟨rfl,-⟩
  cases translated : as.paddr page with
  | none =>
    simp only [wp_bind,wp_splx,wp_fail]
    exact ⟨trivial,.inl trivial⟩
  | some p =>
    have aligned : p &&& pageFrame = p := frame_eq_iff.mpr (prepared.paddr_mod frame translated)
    simp only [wp_bind,wp_assert,aligned,decide_true,if_true]
    refine wp_ends (enterFree_spec page p spl _ _) (fun _ t h => ⟨⟨p,rfl,h.1⟩,h.2⟩)
      (fun _ t h => ⟨h.1,.inr fun slot => h.2 slot (List.mem_finRange slot)⟩)

variable {faulttype : Int}

section
variable (complete : as.Complete) (prepared : as.Prepared)
  (access : faulttype = vmFaultRead ∨ faulttype = vmFaultWrite) (addr : UInt32)
  (current : m.vmspace = some as)
include complete prepared access addr current

theorem vmFault_access :
    (vmFault faulttype addr).wp m
      (fun _ t => (∃ p, as.paddr (addr &&& pageFrame) = some p ∧ Enters m t (addr &&& pageFrame) p) ∧
        t.curspl = m.curspl ∧ t.vmspace = some as)
      (fun _ t => (t.tlb = m.tlb ∧
          (as.paddr (addr &&& pageFrame) = none ∨ ∀ slot, (m.tlb slot).Valid)) ∧
        t.curspl = m.curspl ∧ t.vmspace = some as) never := by
  have writable : faulttype ≠ vmFaultReadonly := by
    rcases access with rfl | rfl <;> decide
  rw [vmFault,splhigh,wp_bind,wp_splx,if_neg writable,if_pos access,wp_bind,
    wp_read,level_vmspace,current]
  refine wp_ends (faultIn_spec complete prepared (frame_mod addr) m.curspl _) ?_ ?_
  · rintro _ t ⟨entered,spl,space⟩
    exact ⟨entered,spl,space.trans current⟩
  · rintro _ _ ⟨rfl,failed⟩
    exact ⟨⟨rfl,failed⟩,rfl,current⟩

/-- The fault that the loader's model takes, on an address space alone, is this one with the TLB
reduced to whether it has a free entry. -/
theorem vmFault_refines :
    (vmFault faulttype addr).wp m
      (fun _ _ => ∃ t, Os161.vmFault (decide (∃ slot, ¬ (m.tlb slot).Valid)) addr as = (.ok (),t))
      (fun _ _ => ∃ code t,
        Os161.vmFault (decide (∃ slot, ¬ (m.tlb slot).Valid)) addr as = (.err code,t)) never := by
  have abstract := vmFault_spec prepared (decide (∃ slot, ¬ (m.tlb slot).Valid)) addr
  rw [decide_eq_true_eq] at abstract
  refine wp_ends (vmFault_access complete prepared access addr current) ?_ ?_
  · rintro _ t ⟨⟨p,mapped,slot,free,-⟩,-⟩
    have found : (as.paddr (addr &&& pageFrame)).isSome ∧ ∃ slot, ¬ (m.tlb slot).Valid :=
      ⟨by rw [mapped]; rfl,slot,free⟩
    obtain ⟨_,u,ran,-⟩ := wp_returns (wp_mono abstract (fun _ _ _ => trivial)
      (fun _ _ h => h.2 found) fun _ _ h => h complete)
    exact ⟨u,ran⟩
  · rintro _ t ⟨⟨-,failed⟩,-⟩
    have missing : ¬ ((as.paddr (addr &&& pageFrame)).isSome ∧ ∃ slot, ¬ (m.tlb slot).Valid) := by
      rintro ⟨mapped,slot,free⟩
      rcases failed with unmapped | full
      · rw [unmapped] at mapped
        exact Bool.noConfusion mapped
      · exact free (full slot)
    obtain ⟨code,u,ran,-⟩ := wp_fails (wp_mono abstract (fun _ _ h => missing h.2)
      (fun _ _ _ => trivial) fun _ _ h => h complete)
    exact ⟨code,u,ran⟩

end

theorem vmFault_kernel (access : faulttype = vmFaultRead ∨ faulttype = vmFaultWrite)
    (addr : UInt32) (kernel : m.vmspace = none) :
    (vmFault faulttype addr).wp m never (fun _ t => t = m.level splHigh) never := by
  have writable : faulttype ≠ vmFaultReadonly := by
    rcases access with rfl | rfl <;> decide
  rw [vmFault,splhigh,wp_bind,wp_splx,if_neg writable,if_pos access,wp_bind,
    wp_read,level_vmspace,kernel]
  exact rfl

theorem vmFault_unknown (writable : faulttype ≠ vmFaultReadonly)
    (access : ¬ (faulttype = vmFaultRead ∨ faulttype = vmFaultWrite)) (addr : UInt32) (m : Mmu) :
    (vmFault faulttype addr).wp m never
      (fun _ t => t = (m.level splHigh).level m.curspl) never := by
  rw [vmFault,splhigh,wp_bind,wp_splx,if_neg writable,if_neg access,wp_bind,wp_splx,
    wp_fail]

/-- For every fault that is not a read-only one, the interrupt level after `vm_fault` is the one
before it just if the thread has an address space, or the fault type is unknown, or interrupts
were off already. -/
theorem vm_fault_restores_spl_iff {faulttype : Int} (writable : faulttype ≠ vmFaultReadonly)
    (addr : UInt32) {m : Mmu} (asserted : ∀ as, m.vmspace = some as → as.Complete ∧ as.Prepared) :
    (vmFault faulttype addr).wp m
      (fun _ t => t.curspl = m.curspl ↔ m.vmspace.isSome ∨
        ¬ (faulttype = vmFaultRead ∨ faulttype = vmFaultWrite) ∨ m.curspl = splHigh)
      (fun _ t => t.curspl = m.curspl ↔ m.vmspace.isSome ∨
        ¬ (faulttype = vmFaultRead ∨ faulttype = vmFaultWrite) ∨ m.curspl = splHigh)
      fun _ _ => False := by
  by_cases access : faulttype = vmFaultRead ∨ faulttype = vmFaultWrite
  · cases space : m.vmspace with
    | none =>
      refine wp_ends (vmFault_kernel access addr space) (fun _ _ h => h.elim) ?_
      rintro _ _ rfl
      simp only [level_curspl,access,Option.isSome_none,not_true_eq_false,false_or,
        Bool.false_eq_true]
      exact eq_comm
    | some as =>
      obtain ⟨complete,prepared⟩ := asserted as space
      refine wp_ends (vmFault_access complete prepared access addr space) ?_ ?_
      · exact fun _ t h => iff_of_true h.2.1 (.inl rfl)
      · exact fun _ t h => iff_of_true h.2.1 (.inl rfl)
  · refine wp_ends (vmFault_unknown writable access addr m) (fun _ _ h => h.elim) ?_
    rintro _ _ rfl
    exact iff_of_true rfl (.inr (.inl access))

/-- A processor at level 0 that runs a kernel thread, with an empty TLB. -/
def idle : Mmu := ⟨none,TlbEntry.invalid,0,true⟩

/-- The first region is page 1 and the second page 2; the physical pages follow each other. -/
def tiny (base : UInt32) : Addrspace :=
  { asCreate with
    asVbase1 := 0x1000, asPbase1 := base, asNpages1 := 1, asVbase2 := 0x2000,
    asPbase2 := base + 0x1000, asNpages2 := 1, asStackpbase := base + 0x2000 }

theorem tiny_complete (base : UInt32) : (tiny base).Complete :=
  ⟨by simp [tiny],by simp [tiny],by simp [tiny],by simp [tiny]⟩

theorem tiny_prepared : (tiny 0x10000).Prepared := by
  constructor <;> decide

theorem vm_fault_restores_spl_tiny :
    (vmFault vmFaultRead 0x1234).wp { idle with vmspace := some (tiny 0x10000) }
      (fun _ t => t.curspl = 0 ↔ True) (fun _ t => t.curspl = 0 ↔ True) fun _ _ => False := by
  refine wp_ends (vm_fault_restores_spl_iff (by decide) 0x1234 ?_)
    ?_ ?_
  · rintro as space
    obtain rfl := Option.some.inj space
    exact ⟨tiny_complete _,tiny_prepared⟩
  · exact fun _ _ h => h.trans (iff_of_true (.inl rfl) trivial)
  · exact fun _ _ h => h.trans (iff_of_true (.inl rfl) trivial)

/-- A kernel thread at level 0 that reads an unmapped page goes on with interrupts off. -/
theorem vm_fault_keeps_spl_high_idle :
    vmFaultRead ≠ vmFaultReadonly ∧ idle.vmspace = none ∧
      (vmFault vmFaultRead 0 idle).1 = .err .efault ∧
      (vmFault vmFaultRead 0 idle).2.curspl ≠ idle.curspl :=
  ⟨by decide,rfl,rfl,by decide⟩

end Mmu

/-! Where a page goes -/

inductive UserRange where
  | region1 | region2 | stack
  deriving DecidableEq, Repr

namespace Addrspace

def vbase (as : Addrspace) : UserRange → UInt32
  | .region1 => as.asVbase1
  | .region2 => as.asVbase2
  | .stack => usertop - dumbvmStackpages * 4096

def npages (as : Addrspace) : UserRange → UInt32
  | .region1 => as.asNpages1
  | .region2 => as.asNpages2
  | .stack => dumbvmStackpages

def pbase (as : Addrspace) : UserRange → UInt32
  | .region1 => as.asPbase1
  | .region2 => as.asPbase2
  | .stack => as.asStackpbase

def Within (as : Addrspace) (r : UserRange) (a : UInt32) : Prop :=
  (as.vbase r).toNat ≤ a.toNat ∧ a.toNat < (as.vbase r).toNat + 4096 * (as.npages r).toNat

instance (as : Addrspace) (r : UserRange) (a : UInt32) : Decidable (as.Within r a) :=
  inferInstanceAs (Decidable (_ ∧ _))

/-- The range an address falls in. Ranges may overlap; the first one counts. -/
def rangeOf (as : Addrspace) (a : UInt32) : Option UserRange :=
  [.region1,.region2,.stack].find? fun r => decide (as.Within r a)

def frames (as : Addrspace) (r : UserRange) : Set UInt32 :=
  {p | ∃ n < as.npages r, p = as.pbase r + 4096 * n}

/-- A space that `vm_fault` accepts, whose ranges end below 2^32 and have physical pages of
their own. -/
structure Separate (as : Addrspace) : Prop where
  complete : as.Complete
  prepared : as.Prepared
  nowrap : ∀ r, (as.vbase r).toNat + 4096 * (as.npages r).toNat < 2 ^ 32
  apart : ∀ r q, r ≠ q → ∀ p ∈ as.frames r, p ∉ as.frames q

theorem Prepared.vbase_mod {as : Addrspace} (prepared : as.Prepared) (r : UserRange) :
    (as.vbase r).toNat % 4096 = 0 := by
  cases r with
  | region1 => exact prepared.vbase1
  | region2 => exact prepared.vbase2
  | stack => exact (by decide : (usertop - dumbvmStackpages * 4096).toNat % 4096 = 0)

theorem within_page {as : Addrspace} {r : UserRange} (aligned : (as.vbase r).toNat % 4096 = 0)
    (a : UInt32) : as.Within r (a &&& pageFrame) ↔ as.Within r a := by
  unfold Within
  rw [frame_toNat]
  omega

theorem Prepared.rangeOf_page {as : Addrspace} (prepared : as.Prepared) (a : UInt32) :
    as.rangeOf (a &&& pageFrame) = as.rangeOf a := by
  simp only [rangeOf,within_page (prepared.vbase_mod _)]

theorem within_iff {as : Addrspace} {r : UserRange}
    (nowrap : (as.vbase r).toNat + 4096 * (as.npages r).toNat < 2 ^ 32) (a : UInt32) :
    (a ≥ as.vbase r ∧ a < as.vbase r + as.npages r * 4096) ↔ as.Within r a := by
  have length : (as.npages r * 4096).toNat = 4096 * (as.npages r).toNat := by
    rw [toNat_pages]
    omega
  rw [Within,ge_iff_le,UInt32.le_iff_toNat_le,UInt32.lt_iff_toNat_lt,UInt32.toNat_add,length,
    Nat.mod_eq_of_lt nowrap]

theorem paddr_eq {as : Addrspace}
    (nowrap : ∀ r, (as.vbase r).toNat + 4096 * (as.npages r).toNat < 2 ^ 32) (page : UInt32) :
    as.paddr page = (as.rangeOf page).map fun r => page - as.vbase r + as.pbase r := by
  have first := within_iff (nowrap .region1) page
  have second := within_iff (nowrap .region2) page
  have third := within_iff (nowrap .stack) page
  have top : as.vbase .stack + as.npages .stack * 4096 = usertop :=
    UInt32.sub_add_cancel usertop (dumbvmStackpages * 4096)
  rw [top] at third
  unfold paddr rangeOf
  dsimp only [vbase,npages] at first second third ⊢
  simp only [first,second,third,List.find?_cons,List.find?_nil]
  by_cases one : as.Within .region1 page
  · simp only [one,if_true,decide_true,Option.map_some,pbase]
  by_cases two : as.Within .region2 page
  · simp only [one,two,if_true,if_false,decide_true,decide_false,Option.map_some,pbase]
  by_cases three : as.Within .stack page
  · simp only [one,two,three,if_true,if_false,decide_true,decide_false,Option.map_some,pbase]
  · simp only [one,two,three,if_false,decide_false,Option.map_none]

theorem rangeOf_within {as : Addrspace} {r : UserRange} {a : UInt32} (falls : as.rangeOf a = some r) :
    as.Within r a := by
  unfold rangeOf at falls
  simpa only [decide_eq_true_eq] using List.find?_some falls

theorem rangeOf_isSome {as : Addrspace} {a : UInt32} :
    (as.rangeOf a).isSome ↔ ∃ r, as.Within r a := by
  rw [rangeOf,List.find?_isSome]
  constructor
  · rintro ⟨r,-,within⟩
    exact ⟨r,of_decide_eq_true within⟩
  · rintro ⟨r,within⟩
    exact ⟨r,by cases r <;> simp,decide_eq_true within⟩

theorem Prepared.translate_mem {as : Addrspace} (prepared : as.Prepared) {r : UserRange} {page : UInt32}
    (aligned : page.toNat % 4096 = 0) (within : as.Within r page) :
    page - as.vbase r + as.pbase r ∈ as.frames r := by
  have base := prepared.vbase_mod r
  have offset : (page - as.vbase r).toNat = page.toNat - (as.vbase r).toNat :=
    UInt32.toNat_sub_of_le _ _ (UInt32.le_iff_toNat_le.mpr within.1)
  have above := within.1
  have below := within.2
  have word := page.toNat_lt
  refine ⟨(page - as.vbase r) / 4096,?_,?_⟩
  · rw [UInt32.lt_iff_toNat_lt,div_toNat,offset]
    omega
  · have whole : 4096 * ((page - as.vbase r) / 4096) = page - as.vbase r := by
      apply UInt32.toNat.inj
      rw [UInt32.mul_comm,toNat_pages,div_toNat,offset]
      omega
    rw [whole,UInt32.add_comm]

theorem frames_disjoint {as other : Addrspace} {r q : UserRange}
    (nowrap : (as.pbase r).toNat + 4096 * (as.npages r).toNat < 2 ^ 32)
    (otherNowrap : (other.pbase q).toNat + 4096 * (other.npages q).toNat < 2 ^ 32)
    (apart : (as.pbase r).toNat + 4096 * (as.npages r).toNat ≤ (other.pbase q).toNat ∨
      (other.pbase q).toNat + 4096 * (other.npages q).toNat ≤ (as.pbase r).toNat) :
    ∀ p ∈ as.frames r, p ∉ other.frames q := by
  rintro p ⟨n,below,rfl⟩ ⟨k,otherBelow,same⟩
  rw [UInt32.lt_iff_toNat_lt] at below otherBelow
  have words := congrArg UInt32.toNat same
  rw [UInt32.toNat_add,UInt32.toNat_add,UInt32.mul_comm,UInt32.mul_comm 4096 k,toNat_pages,
    toNat_pages] at words
  omega

variable {as : Addrspace}

theorem Separate.paddr_injective (separate : as.Separate) {page other p : UInt32}
    (aligned : page.toNat % 4096 = 0) (otherAligned : other.toNat % 4096 = 0)
    (first : as.paddr page = some p) (second : as.paddr other = some p) : page = other := by
  rw [paddr_eq separate.nowrap,Option.map_eq_some_iff] at first second
  obtain ⟨r,falls,rfl⟩ := first
  obtain ⟨q,otherFalls,same⟩ := second
  have member := separate.prepared.translate_mem aligned (rangeOf_within falls)
  have otherMember := separate.prepared.translate_mem otherAligned (rangeOf_within otherFalls)
  rw [same] at otherMember
  by_cases range : r = q
  · subst range
    exact ((UInt32.sub_left_inj _).mp ((UInt32.add_left_inj _).mp same)).symm
  · exact (separate.apart r q range _ member otherMember).elim

end Addrspace

/-! The entry that is written -/

namespace TlbEntry

theorem mapping_valid (page p : UInt32) : (mapping page p).Valid := by
  unfold Valid mapping tlbloValid
  intro zero
  have bit := congrArg (fun word => word.toBitVec.getLsbD 9) zero
  simp at bit

theorem mapping_writable (page p : UInt32) : (mapping page p).Writable := by
  unfold Writable mapping tlbloDirty
  intro zero
  have bit := congrArg (fun word => word.toBitVec.getLsbD 10) zero
  simp at bit

theorem mapping_frame (page : UInt32) {p : UInt32} (aligned : p &&& pageFrame = p) :
    (mapping page p).frame = p := by
  have flags : (p ||| tlbloDirty ||| tlbloValid) &&& pageFrame = p &&& pageFrame := by
    apply UInt32.toBitVec_inj.mp
    rw [UInt32.toBitVec_and,UInt32.toBitVec_or,UInt32.toBitVec_or,BitVec.and_or_distrib_right,
      BitVec.and_or_distrib_right]
    have dirty : tlbloDirty.toBitVec &&& pageFrame.toBitVec = 0#32 := by decide
    have valid : tlbloValid.toBitVec &&& pageFrame.toBitVec = 0#32 := by decide
    rw [dirty,valid,BitVec.or_zero,BitVec.or_zero,UInt32.toBitVec_and]
  exact flags.trans aligned

theorem mapping_page {page : UInt32} (aligned : page &&& pageFrame = page) (p : UInt32) :
    (mapping page p).page = page := aligned

theorem invalid_not_valid (i : Fin 64) : ¬ (invalid i).Valid := by
  rw [Valid,invalid,not_not]
  exact UInt32.zero_and

end TlbEntry

/-! Faults and switches -/

namespace Mmu

/-- Exactly one entry changes: it was free and is now a valid, writable mapping of `page` to `p`. -/
def Maps (m t : Mmu) (page p : UInt32) : Prop :=
  ∃ slot entry, ¬ (m.tlb slot).Valid ∧ t.tlb = update m.tlb slot entry ∧
    entry.Valid ∧ entry.Writable ∧ entry.page = page ∧ entry.frame = p

variable {m : Mmu}

theorem Enters.maps {t : Mmu} {page p : UInt32} (entered : Enters m t page p)
    (aligned : page &&& pageFrame = page) (frame : p &&& pageFrame = p) : Maps m t page p := by
  obtain ⟨slot,free,written⟩ := entered
  exact ⟨slot,.mapping page p,free,written,TlbEntry.mapping_valid page p,
    TlbEntry.mapping_writable page p,TlbEntry.mapping_page aligned p,TlbEntry.mapping_frame page frame⟩

theorem vmFault_separate {as : Addrspace} (separate : as.Separate) {faulttype : Int}
    (access : faulttype = vmFaultRead ∨ faulttype = vmFaultWrite) (addr : UInt32) {m : Mmu}
    (current : m.vmspace = some as) :
    (vmFault faulttype addr).wp m
      (fun _ t => ∃ r p, as.rangeOf addr = some r ∧ as.paddr (addr &&& pageFrame) = some p ∧
        p ∈ as.frames r ∧ Maps m t (addr &&& pageFrame) p)
      (fun _ t => t.tlb = m.tlb ∧ ¬ ((∃ r, as.Within r addr) ∧ ∃ slot, ¬ (m.tlb slot).Valid))
      never := by
  have prepared := separate.prepared
  have translate := Addrspace.paddr_eq separate.nowrap (addr &&& pageFrame)
  rw [prepared.rangeOf_page] at translate
  refine wp_ends (vmFault_access separate.complete prepared access addr current) ?_ ?_
  · rintro _ t ⟨⟨p,mapped,entered⟩,-⟩
    have frame := frame_eq_iff.mpr (prepared.paddr_mod (frame_mod addr) mapped)
    have maps := entered.maps (frame_eq_iff.mpr (frame_mod addr)) frame
    obtain ⟨r,falls,same⟩ := Option.map_eq_some_iff.mp (translate.symm.trans mapped)
    have within := (Addrspace.within_page (prepared.vbase_mod r) addr).mpr
      (Addrspace.rangeOf_within falls)
    have member := prepared.translate_mem (frame_mod addr) within
    rw [same] at member
    exact ⟨r,p,falls,mapped,member,maps⟩
  · rintro _ t ⟨⟨unchanged,failed⟩,-⟩
    refine ⟨unchanged,?_⟩
    rintro ⟨covered,slot,free⟩
    rcases failed with unmapped | full
    · have falls := Addrspace.rangeOf_isSome.mpr covered
      rw [Option.map_eq_none_iff.mp (translate.symm.trans unmapped)] at falls
      exact Bool.noConfusion falls
    · exact free (full slot)

theorem invalidate_spec (slots : List (Fin 64)) (m : Mmu) :
    (invalidate slots).wp m
      (fun _ t => t.vmspace = m.vmspace ∧ ∀ slot, (t.tlb slot).Valid → slot ∉ slots ∧ (m.tlb slot).Valid)
      never never := by
  induction slots generalizing m with
  | nil => exact ⟨rfl,fun _ valid => ⟨List.not_mem_nil,valid⟩⟩
  | cons i rest next =>
    rw [invalidate,wp_bind,tlbWrite,wp_modify]
    refine wp_imp (next _) ?_
    rintro _ t ⟨space,kept⟩
    refine ⟨space,fun slot valid => ?_⟩
    obtain ⟨later,before⟩ := kept slot valid
    dsimp only at before
    by_cases same : slot = i
    · subst same
      rw [update_self] at before
      exact (TlbEntry.invalid_not_valid slot before).elim
    · rw [update_of_ne same] at before
      exact ⟨fun member => (List.mem_cons.mp member).elim same later,before⟩

theorem asActivate_spec (m : Mmu) :
    asActivate.wp m (fun _ t => t.vmspace = m.vmspace ∧ ∀ slot, ¬ (t.tlb slot).Valid)
      never never := by
  rw [asActivate,splhigh,wp_bind,wp_splx,wp_bind]
  refine wp_imp (invalidate_spec _ _) ?_
  rintro _ t ⟨space,kept⟩
  rw [wp_bind,wp_splx,wp_pure]
  exact ⟨space,fun slot valid => (kept slot valid).1 (List.mem_finRange slot)⟩

theorem vmFault_tlb {as : Addrspace} (separate : as.Separate) (faulttype : Int) (addr : UInt32)
    (current : m.vmspace = some as) :
    (vmFault faulttype addr m).2.vmspace = some as ∧ ((vmFault faulttype addr m).2.tlb = m.tlb ∨
      ∃ r p, p ∈ as.frames r ∧ Maps m (vmFault faulttype addr m).2 (addr &&& pageFrame) p) := by
  let Kept (t : Mmu) : Prop := t.vmspace = some as ∧
    (t.tlb = m.tlb ∨ ∃ r p, p ∈ as.frames r ∧ Maps m t (addr &&& pageFrame) p)
  apply wp_after (P := Kept)
  by_cases access : faulttype = vmFaultRead ∨ faulttype = vmFaultWrite
  · have space := vmFault_access separate.complete separate.prepared access addr current
    refine wp_mono (wp_and space (vmFault_separate separate access addr current)) ?_ ?_
      fun _ _ h => h.1.elim
    · rintro _ t ⟨⟨-,-,kept⟩,r,p,-,-,member,maps⟩
      exact ⟨kept,.inr ⟨r,p,member,maps⟩⟩
    · rintro _ t ⟨⟨-,-,kept⟩,unchanged,-⟩
      exact ⟨kept,.inl unchanged⟩
  by_cases writable : faulttype = vmFaultReadonly
  · rw [vmFault,splhigh,wp_bind,wp_splx,if_pos writable,wp_panic]
    exact ⟨current,.inl rfl⟩
  · refine wp_safe (vmFault_unknown writable access addr m) (fun _ _ h => h.elim) ?_
    rintro _ _ rfl
    exact ⟨current,.inl rfl⟩

theorem vmFault_kernel_space (faulttype : Int) (addr : UInt32) (kernel : m.vmspace = none) :
    (vmFault faulttype addr m).2.vmspace = none := by
  apply wp_after (P := fun t : Mmu => t.vmspace = none)
  by_cases access : faulttype = vmFaultRead ∨ faulttype = vmFaultWrite
  · refine wp_safe (vmFault_kernel access addr kernel) (fun _ _ h => h.elim) ?_
    rintro _ _ rfl
    exact kernel
  by_cases writable : faulttype = vmFaultReadonly
  · rw [vmFault,splhigh,wp_bind,wp_splx,if_pos writable,wp_panic]
    exact kernel
  · refine wp_safe (vmFault_unknown writable access addr m) (fun _ _ h => h.elim) ?_
    rintro _ _ rfl
    exact kernel

theorem switchTo_spec (next : Option Addrspace) (m : Mmu) :
    (switchTo next).wp m
      (fun _ t => t.vmspace = next ∧ (next.isSome → ∀ slot, ¬ (t.tlb slot).Valid)) never never := by
  rw [switchTo,wp_bind,wp_modify,wp_ite]
  constructor
  · intro _
    refine wp_imp (asActivate_spec _) ?_
    exact fun _ t h => ⟨h.1,fun _ => h.2⟩
  · exact fun absent => ⟨rfl,fun present => (absent present).elim⟩

end Mmu

/-- What the processor goes through: a fault of the current thread, or a switch to a thread with
or without an address space. -/
inductive VmEvent (ι : Type u) where
  | fault (faulttype : Int) (faultaddress : UInt32)
  | switch (next : Option ι)

/-- The processor and the index of the space that is active. -/
structure Cpu (ι : Type u) where
  active : Option ι
  mmu : Mmu

namespace Cpu
variable {ι : Type u} (spaces : ι → Addrspace)

def step (c : Cpu ι) : VmEvent ι → Cpu ι
  | .fault faulttype faultaddress => { c with mmu := (Mmu.vmFault faulttype faultaddress c.mmu).2 }
  | .switch next => ⟨next,(Mmu.switchTo (next.map spaces) c.mmu).2⟩

def run (c : Cpu ι) (events : List (VmEvent ι)) : Cpu ι := events.foldl (step spaces) c

/-- Before the first user thread runs. The TLB may hold anything. -/
def Booted (c : Cpu ι) : Prop := c.active = none ∧ c.mmu.vmspace = none

structure Own (c : Cpu ι) : Prop where
  space : c.mmu.vmspace = c.active.map spaces
  frames : ∀ i, c.active = some i → ∀ slot, (c.mmu.tlb slot).Valid →
    ∃ r, (c.mmu.tlb slot).frame ∈ (spaces i).frames r

variable {spaces}
variable {c : Cpu ι}

theorem Booted.own (booted : c.Booted) : Own spaces c := by
  obtain ⟨idle,kernel⟩ := booted
  refine ⟨?_,fun i active => ?_⟩
  · rw [idle,kernel,Option.map_none]
  · rw [idle] at active
    exact (Option.some_ne_none i active.symm).elim

theorem Own.fault (separate : ∀ i, (spaces i).Separate) (own : Own spaces c)
    (faulttype : Int) (addr : UInt32) : Own spaces (c.step spaces (.fault faulttype addr)) := by
  cases active : c.active with
  | none =>
    have kernel : c.mmu.vmspace = none := by rw [own.space,active,Option.map_none]
    refine ⟨?_,fun j same => (Option.some_ne_none j (same.symm.trans active)).elim⟩
    exact (Mmu.vmFault_kernel_space faulttype addr kernel).trans (kernel.symm.trans own.space)
  | some i =>
    have current : c.mmu.vmspace = some (spaces i) := by rw [own.space,active,Option.map_some]
    obtain ⟨space,entered⟩ := Mmu.vmFault_tlb (separate i) faulttype addr current
    refine ⟨?_,fun j same slot valid => ?_⟩
    · exact space.trans (current.symm.trans own.space)
    · obtain rfl : i = j := Option.some.inj (active.symm.trans same)
      rcases entered with unchanged | ⟨r,p,member,slot',entry,free,written,-,-,-,frame⟩
      · rw [step] at valid ⊢
        rw [unchanged] at valid ⊢
        exact own.frames i active slot valid
      · rw [step] at valid ⊢
        rw [written] at valid ⊢
        by_cases here : slot = slot'
        · subst here
          rw [update_self,frame]
          exact ⟨r,member⟩
        · rw [update_of_ne here] at valid ⊢
          exact own.frames i active slot valid

theorem Own.switch (next : Option ι) : Own spaces (c.step spaces (.switch next)) := by
  obtain ⟨_,t,ran,space,clear⟩ := wp_returns (Mmu.switchTo_spec (next.map spaces) c.mmu)
  rw [step,ran]
  refine ⟨space,fun i active slot valid => ?_⟩
  have user : (next.map spaces).isSome := by rw [show next = some i from active]; rfl
  exact (clear user slot valid).elim

theorem Own.run (separate : ∀ i, (spaces i).Separate) (own : Own spaces c)
    (events : List (VmEvent ι)) : Own spaces (c.run spaces events) := by
  induction events generalizing c with
  | nil => exact own
  | cons event rest next =>
    cases event with
    | fault faulttype addr => exact next (own.fault separate faulttype addr)
    | switch thread => exact next (Own.switch thread)

end Cpu

/-- Page-fault translation: a read or write fault succeeds just if the address is in one of the
three ranges and the TLB has a free entry, and then exactly that entry changes, to a valid writable
mapping of the page to a physical page of the range; otherwise the TLB is unchanged. Different pages
of a space go to different physical pages. While one space is active no page of another is mapped. -/
theorem vm_fault_translates_isolated {ι : Type u} (spaces : ι → Addrspace)
    (separate : ∀ i, (spaces i).Separate)
    (apart : ∀ i j, i ≠ j → ∀ r q, ∀ p ∈ (spaces i).frames r, p ∉ (spaces j).frames q) :
    (∀ i faulttype addr (m : Mmu), faulttype = vmFaultRead ∨ faulttype = vmFaultWrite →
      m.vmspace = some (spaces i) →
      (Mmu.vmFault faulttype addr).wp m
        (fun _ t => ((∃ r, (spaces i).Within r addr) ∧ ∃ slot, ¬ (m.tlb slot).Valid) ∧
          ∃ r p, (spaces i).rangeOf addr = some r ∧ (spaces i).paddr (addr &&& pageFrame) = some p ∧
            p ∈ (spaces i).frames r ∧ m.Maps t (addr &&& pageFrame) p)
        (fun _ t => t.tlb = m.tlb ∧
          ¬ ((∃ r, (spaces i).Within r addr) ∧ ∃ slot, ¬ (m.tlb slot).Valid))
        fun _ _ => False) ∧
    (∀ i addr other p q, (spaces i).paddr (addr &&& pageFrame) = some p →
      (spaces i).paddr (other &&& pageFrame) = some q →
      addr &&& pageFrame ≠ other &&& pageFrame → p ≠ q) ∧
    ∀ (c : Cpu ι) (events : List (VmEvent ι)), c.Booted → ∀ i j, i ≠ j →
      (c.run spaces events).active = some i → ∀ slot, ((c.run spaces events).mmu.tlb slot).Valid →
      ∀ r, ((c.run spaces events).mmu.tlb slot).frame ∉ (spaces j).frames r := by
  refine ⟨?_,?_,?_⟩
  · intro i faulttype addr m access current
    refine wp_imp (Mmu.vmFault_separate (separate i) access addr current) ?_
    rintro _ t ⟨r,p,falls,mapped,member,slot,entry,free,rest⟩
    exact ⟨⟨⟨r,Addrspace.rangeOf_within falls⟩,slot,free⟩,r,p,falls,mapped,member,slot,entry,free,rest⟩
  · rintro i addr other p q first second different rfl
    exact different ((separate i).paddr_injective (frame_mod addr) (frame_mod other) first second)
  · intro c events booted i j different active slot valid r foreign
    obtain ⟨q,own⟩ := (booted.own.run separate events).frames i active slot valid
    exact apart i j different q r _ own foreign

/-- Two spaces of four regions and two stacks. -/
def tinyPair : Bool → Addrspace
  | false => Mmu.tiny 0x10000
  | true => Mmu.tiny 0x100000

theorem tinyPair_disjoint {i j : Bool} {r q : UserRange} (different : (i,r) ≠ (j,q)) :
    ∀ p ∈ (tinyPair i).frames r, p ∉ (tinyPair j).frames q := by
  apply Addrspace.frames_disjoint <;> revert different <;>
    cases i <;> cases j <;> cases r <;> cases q <;> decide

theorem tinyPair_separate (i : Bool) : (tinyPair i).Separate where
  complete := by cases i <;> exact Mmu.tiny_complete _
  prepared := by cases i <;> constructor <;> decide
  nowrap r := by cases i <;> cases r <;> decide
  apart r q different := tinyPair_disjoint fun same => different (Prod.mk.inj same).2

theorem vm_fault_translates_tinyPair :
    (Mmu.vmFault vmFaultRead 0x1234).wp { Mmu.idle with vmspace := some (tinyPair false) }
      (fun _ t => ∃ p ∈ (tinyPair false).frames .region1,
        Mmu.Maps { Mmu.idle with vmspace := some (tinyPair false) } t 0x1000 p)
      (fun _ _ => False) fun _ _ => False := by
  have translates := (vm_fault_translates_isolated tinyPair tinyPair_separate fun _ _ different _ _ =>
    tinyPair_disjoint fun same => different (Prod.mk.inj same).1).1
  refine wp_ends (translates false vmFaultRead 0x1234 _ (.inl rfl) rfl) ?_ ?_
  · rintro _ t ⟨-,r,p,falls,-,member,maps⟩
    obtain rfl : .region1 = r := Option.some.inj falls
    exact ⟨p,member,maps⟩
  · rintro _ t ⟨-,failed⟩
    exact failed ⟨⟨.region1,by decide⟩,0,TlbEntry.invalid_not_valid 0⟩

end Os161
