import Os161.Ram

/-! `vm_fault` of `dumbvm.c`, on an address space of two regions and a stack. -/
namespace Os161

inductive VmPanic where
  | vbase1 | pbase1 | npages1 | vbase2 | pbase2 | npages2 | stackpbase
  | vbase1Frame | pbase1Frame | vbase2Frame | pbase2Frame | stackpbaseFrame | paddrFrame
  deriving DecidableEq, Repr

/-- `USERTOP`, which is also `USERSTACK`. -/
def usertop : UInt32 := 0x80000000

namespace Addrspace

/-- The physical address that `vm_fault` computes for a page. -/
def paddr (as : Addrspace) (faultaddress : UInt32) : Option UInt32 :=
  let vtop1 := as.asVbase1 + as.asNpages1 * 4096
  let vtop2 := as.asVbase2 + as.asNpages2 * 4096
  let stackbase := usertop - dumbvmStackpages * 4096
  if faultaddress ≥ as.asVbase1 ∧ faultaddress < vtop1 then
    some (faultaddress - as.asVbase1 + as.asPbase1)
  else if faultaddress ≥ as.asVbase2 ∧ faultaddress < vtop2 then
    some (faultaddress - as.asVbase2 + as.asPbase2)
  else if faultaddress ≥ stackbase ∧ faultaddress < usertop then
    some (faultaddress - stackbase + as.asStackpbase)
  else none

end Addrspace

/-- The second half of `vm_fault`: translate the page and enter it, if an entry is free. -/
def vmEnter (tlb : Bool) (page : UInt32) : Exec Addrspace Errno VmPanic Unit := do
  match (← read).paddr page with
  | none => fail .efault
  | some paddr =>
    assert (paddr &&& pageFrame = paddr) .paddrFrame
    if tlb then pure () else fail .efault

def vmAsserts (as : Addrspace) : Exec σ Errno VmPanic Unit := do
  assert (as.asVbase1 ≠ 0) .vbase1
  assert (as.asPbase1 ≠ 0) .pbase1
  assert (as.asNpages1 ≠ 0) .npages1
  assert (as.asVbase2 ≠ 0) .vbase2
  assert (as.asPbase2 ≠ 0) .pbase2
  assert (as.asNpages2 ≠ 0) .npages2
  assert (as.asStackpbase ≠ 0) .stackpbase
  assert (as.asVbase1 &&& pageFrame = as.asVbase1) .vbase1Frame
  assert (as.asPbase1 &&& pageFrame = as.asPbase1) .pbase1Frame
  assert (as.asVbase2 &&& pageFrame = as.asVbase2) .vbase2Frame
  assert (as.asPbase2 &&& pageFrame = as.asPbase2) .pbase2Frame
  assert (as.asStackpbase &&& pageFrame = as.asStackpbase) .stackpbaseFrame

/-- `vm_fault` for a read or a write. Whether a TLB entry is free is given. -/
def vmFault (tlb : Bool) (faultaddress : UInt32) : Exec Addrspace Errno VmPanic Unit := do
  vmAsserts (← read)
  vmEnter tlb (faultaddress &&& pageFrame)

/-! Page boundaries -/

theorem frame_eq_iff {x : UInt32} : x &&& pageFrame = x ↔ x.toNat % 4096 = 0 := by
  rw [← UInt32.toNat_inj,frame_toNat]
  omega

theorem frame_mod (x : UInt32) : (x &&& pageFrame).toNat % 4096 = 0 := by
  rw [frame_toNat]
  exact Nat.mul_mod_left _ _

theorem paged_sub_add {page base pbase : UInt32} (one : page.toNat % 4096 = 0) (two : base.toNat % 4096 = 0)
    (three : pbase.toNat % 4096 = 0) : (page - base + pbase).toNat % 4096 = 0 := by
  rw [UInt32.toNat_add,UInt32.toNat_sub]
  omega

namespace Addrspace

/-- Both regions have been defined, above page 0 and of some size. -/
structure Complete (as : Addrspace) : Prop where
  vbase1 : as.asVbase1 ≠ 0
  npages1 : as.asNpages1 ≠ 0
  vbase2 : as.asVbase2 ≠ 0
  npages2 : as.asNpages2 ≠ 0

instance (as : Addrspace) : Decidable as.Complete :=
  decidable_of_iff (as.asVbase1 ≠ 0 ∧ as.asNpages1 ≠ 0 ∧ as.asVbase2 ≠ 0 ∧ as.asNpages2 ≠ 0)
    ⟨fun h => ⟨h.1,h.2.1,h.2.2.1,h.2.2.2⟩,fun h => ⟨h.vbase1,h.npages1,h.vbase2,h.npages2⟩⟩

structure Bare (as : Addrspace) : Prop where
  vbase1 : as.asVbase1.toNat % 4096 = 0
  vbase2 : as.asVbase2.toNat % 4096 = 0
  pbase1 : as.asPbase1 = 0
  pbase2 : as.asPbase2 = 0
  stackpbase : as.asStackpbase = 0

structure Prepared (as : Addrspace) : Prop where
  vbase1 : as.asVbase1.toNat % 4096 = 0
  vbase2 : as.asVbase2.toNat % 4096 = 0
  pbase1 : as.asPbase1 ≠ 0 ∧ as.asPbase1.toNat % 4096 = 0
  pbase2 : as.asPbase2 ≠ 0 ∧ as.asPbase2.toNat % 4096 = 0
  stackpbase : as.asStackpbase ≠ 0 ∧ as.asStackpbase.toNat % 4096 = 0

/-- The pages that `as_prepare_load` gets. -/
def prepared (as : Addrspace) (ram : Ram) : Addrspace :=
  let first := ram.ramStealmem as.asNpages1
  let second := first.2.ramStealmem as.asNpages2
  { as with asPbase1 := first.1, asPbase2 := second.1
            asStackpbase := (second.2.ramStealmem dumbvmStackpages).1 }

theorem Complete.prepared {as : Addrspace} (complete : as.Complete) (ram : Ram) :
    (as.prepared ram).Complete :=
  ⟨complete.vbase1,complete.npages1,complete.vbase2,complete.npages2⟩

structure Backed (as : Addrspace) (ram : Ram) : Prop where
  pbase1 : (as.prepared ram).asPbase1 ≠ 0
  pbase2 : (as.prepared ram).asPbase2 ≠ 0
  stackpbase : (as.prepared ram).asStackpbase ≠ 0

def define (as : Addrspace) (vaddr sz : UInt32) : Option Addrspace :=
  match (asDefineRegion as vaddr sz ⟨⟨0,0⟩,[]⟩).1 with
  | .ok next => some next
  | _ => none

end Addrspace

theorem asCreate_bare : asCreate.Bare := ⟨rfl,rfl,rfl,rfl,rfl⟩

section Define
variable {as next : Addrspace} {vaddr sz : UInt32}

theorem asDefineRegion_eq (as : Addrspace) (vaddr sz : UInt32) (s : RamState) :
    asDefineRegion as vaddr sz s = match as.define vaddr sz with
      | some next => (.ok next,s)
      | none => (.err .eunimp,s) := by
  unfold Addrspace.define asDefineRegion
  split_ifs <;> rfl

theorem Addrspace.Bare.define (bare : as.Bare) (defined : as.define vaddr sz = some next) : next.Bare := by
  unfold Addrspace.define asDefineRegion at defined
  split_ifs at defined
  · obtain rfl := Option.some.inj defined
    exact ⟨frame_mod _,bare.vbase2,bare.pbase1,bare.pbase2,bare.stackpbase⟩
  · obtain rfl := Option.some.inj defined
    exact ⟨bare.vbase1,frame_mod _,bare.pbase1,bare.pbase2,bare.stackpbase⟩
  · cases defined

end Define

/-! `as_prepare_load` -/

/-- The free memory begins at a page boundary. -/
def Ram.Paged (r : Ram) : Prop := r.firstpaddr.toNat % 4096 = 0

theorem Ram.Paged.steal {r : Ram} (paged : r.Paged) (npages : UInt32) :
    (r.ramStealmem npages).1.toNat % 4096 = 0 ∧ (r.ramStealmem npages).2.Paged := by
  unfold Ram.Paged at paged ⊢
  unfold Ram.ramStealmem
  dsimp only
  split_ifs
  · exact ⟨rfl,paged⟩
  · refine ⟨paged,?_⟩
    rw [UInt32.toNat_add,toNat_pages]
    omega

theorem Addrspace.prepared_eq (as : Addrspace) (ram : Ram) : ∃ npages, dumbvmStackpages = npages ∧
    as.prepared ram =
      let first := ram.ramStealmem as.asNpages1
      let second := first.2.ramStealmem as.asNpages2
      { as with asPbase1 := first.1, asPbase2 := second.1
                asStackpbase := (second.2.ramStealmem npages).1 } := ⟨_,rfl,rfl⟩

theorem Addrspace.Bare.prepared {as : Addrspace} {ram : Ram} (bare : as.Bare) (paged : ram.Paged)
    (backed : as.Backed ram) : (as.prepared ram).Prepared := by
  obtain ⟨npages,-,eq⟩ := as.prepared_eq ram
  obtain ⟨pbase1,pbase2,stackpbase⟩ := backed
  have first := paged.steal as.asNpages1
  have second := first.2.steal as.asNpages2
  have third := second.2.steal npages
  rw [eq] at pbase1 pbase2 stackpbase ⊢
  exact ⟨bare.vbase1,bare.vbase2,⟨pbase1,first.1⟩,⟨pbase2,second.1⟩,stackpbase,third.1⟩

theorem asPrepareLoad_spec {as : Addrspace} {s : RamState} (bare : as.Bare) :
    (asPrepareLoad as).wp s (fun next _ => next = as.prepared s.ram ∧ as.Backed s.ram)
      (fun _ _ => ¬ as.Backed s.ram) never := by
  have backed : as.Backed s.ram ↔ (as.prepared s.ram).asPbase1 ≠ 0 ∧ (as.prepared s.ram).asPbase2 ≠ 0 ∧
      (as.prepared s.ram).asStackpbase ≠ 0 :=
    ⟨fun h => ⟨h.pbase1,h.pbase2,h.stackpbase⟩,fun h => ⟨h.1,h.2.1,h.2.2⟩⟩
  obtain ⟨npages,same,eq⟩ := as.prepared_eq s.ram
  rw [backed,eq,asPrepareLoad,same]
  simp only [wp_bind,wp_assert,bare.pbase1,bare.pbase2,bare.stackpbase,
    decide_true,if_true,getppages,wp_read,wp_put,wp_pure]
  rw [wp_ite]
  refine ⟨fun none_ backed => backed.1 none_,fun first => ?_⟩
  rw [wp_bind,wp_bind,wp_read,wp_bind,wp_put,wp_pure,wp_ite]
  refine ⟨fun none_ backed => backed.2.1 none_,fun second => ?_⟩
  rw [wp_bind,wp_bind,wp_read,wp_bind,wp_put,wp_pure,wp_ite]
  exact ⟨fun none_ backed => backed.2.2 none_,fun third => ⟨rfl,first,second,third⟩⟩

/-! `vm_fault` -/

section Fault
variable {as : Addrspace} (prepared : as.Prepared)
include prepared

theorem Addrspace.Prepared.paddr_mod {page p : UInt32} (frame : page.toNat % 4096 = 0)
    (mapped : as.paddr page = some p) : p.toNat % 4096 = 0 := by
  unfold Addrspace.paddr at mapped
  dsimp only at mapped
  split_ifs at mapped
  · obtain rfl := Option.some.inj mapped
    exact paged_sub_add frame prepared.vbase1 prepared.pbase1.2
  · obtain rfl := Option.some.inj mapped
    exact paged_sub_add frame prepared.vbase2 prepared.pbase2.2
  · obtain rfl := Option.some.inj mapped
    exact paged_sub_add frame (by decide) prepared.stackpbase.2

theorem vmEnter_spec (tlb : Bool) {page : UInt32} (frame : page.toNat % 4096 = 0) :
    (vmEnter tlb page).wp as (fun _ _ => (as.paddr page).isSome ∧ tlb = true)
      (fun _ _ => ¬ ((as.paddr page).isSome ∧ tlb = true)) never := by
  rw [vmEnter,wp_bind,wp_read]
  cases mapped : as.paddr page with
  | none => simp
  | some p =>
    have whole : p &&& pageFrame = p := frame_eq_iff.mpr (prepared.paddr_mod frame mapped)
    cases tlb <;> simp [whole]

theorem vmAsserts_prepared {s : σ} :
    (vmAsserts as).wp s (fun _ t => t = s ∧ as.Complete) never
      fun _ t => t = s ∧ ¬ as.Complete := by
  simp only [vmAsserts,wp_bind,wp_assert,decide_eq_true_eq,frame_eq_iff,ne_eq,
    prepared.vbase1,prepared.vbase2,prepared.pbase1,prepared.pbase2,prepared.stackpbase,
    not_false_eq_true,if_true]
  split_ifs with vbase1 npages1 vbase2 npages2
  · exact ⟨trivial,fun complete => complete.vbase1 vbase1⟩
  · exact ⟨trivial,fun complete => complete.npages1 npages1⟩
  · exact ⟨trivial,fun complete => complete.vbase2 vbase2⟩
  · exact ⟨trivial,fun complete => complete.npages2 npages2⟩
  · exact ⟨trivial,vbase1,npages1,vbase2,npages2⟩

theorem vmFault_spec (tlb : Bool) (addr : UInt32) :
    (vmFault tlb addr).wp as
      (fun _ _ => as.Complete ∧ (as.paddr (addr &&& pageFrame)).isSome ∧ tlb = true)
      (fun _ _ => as.Complete ∧ ¬ ((as.paddr (addr &&& pageFrame)).isSome ∧ tlb = true))
      fun _ _ => ¬ as.Complete := by
  have enter := vmEnter_spec prepared tlb (frame_mod addr)
  rw [vmFault,wp_bind,wp_read,wp_bind]
  refine wp_mono (vmAsserts_prepared prepared) ?_ (fun _ _ h => h.elim) fun _ _ h => h.2
  rintro _ t ⟨rfl,complete⟩
  exact wp_safe enter (fun _ _ h => ⟨complete,h⟩) (fun _ _ h => ⟨complete,h⟩)

end Fault

end Os161
