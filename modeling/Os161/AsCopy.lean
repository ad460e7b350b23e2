import Os161.Memmove
import Os161.Simulation
import Os161.VmFault

/-! `as_copy` of `dumbvm.c`, and programs that are loaded and fork: each has a memory of its own. -/
namespace Os161

/-- Memory by kernel address, and what is left to hand out. -/
structure PhysMem where
  ram : RamState
  mem : Nat → UInt8

inductive AsCopyPanic where
  | prepare (site : RamPanic)
  | pbase1 | pbase2 | stackpbase
  | memmove (site : AddressError)
  deriving DecidableEq, Repr

def paddrToKvaddr (paddr : UInt32) : Nat := (paddr + 0x80000000).toNat

@[irreducible] def PhysMem.memmove (dst src len : Nat) : Exec PhysMem Errno AsCopyPanic Unit := fun s =>
  match byteMemory.memmove dst src len s.mem with
  | (.ok _,mem) => (.ok (),{ s with mem := mem })
  | (.panic site,mem) => (.panic (.memmove site),{ s with mem := mem })

def copyRange (old new : Addrspace) (r : UserRange) : Exec PhysMem Errno AsCopyPanic Unit :=
  PhysMem.memmove (paddrToKvaddr (new.pbase r)) (paddrToKvaddr (old.pbase r)) (old.npages r * 4096).toNat

/-- `as_copy`; `kmalloc` says whether `as_create` gets its memory. -/
def asCopy (kmalloc : Bool) (old : Addrspace) : Exec PhysMem Errno AsCopyPanic Addrspace := do
  if kmalloc = false then fail .enomem
  else
    let new := { asCreate with
      asVbase1 := old.asVbase1, asNpages1 := old.asNpages1, bytes1 := old.bytes1
      asVbase2 := old.asVbase2, asNpages2 := old.asNpages2, bytes2 := old.bytes2 }
    match ← attempt (zoom PhysMem.ram (fun s ram => { s with ram := ram })
      (mapPanic .prepare (asPrepareLoad new))) with
    | .error _ => fail .enomem
    | .ok new =>
      assert (new.asPbase1 ≠ 0) .pbase1
      assert (new.asPbase2 ≠ 0) .pbase2
      assert (new.asStackpbase ≠ 0) .stackpbase
      copyRange old new .region1
      copyRange old new .region2
      copyRange old new .stack
      return new

/-! Getting the pages -/

/-- The memory of `ram_bootstrap`: at most 508 megabytes, handed out in pages. -/
structure Ram.Sane (r : Ram) : Prop extends r.Valid where
  limit : r.lastpaddr.toNat ≤ 508 * 1024 * 1024
  paged : r.firstpaddr.toNat % 4096 = 0

theorem Ram.Sane.low {r : Ram} (sane : r.Sane) : r.firstpaddr.toNat < 2^31 :=
  (sane.ordered.trans sane.limit).trans_lt (by decide)

theorem getppages_sane {s : RamState} (sane : s.ram.Sane) (bytes : Nat) {npages : UInt32}
    (small : 4096 * npages.toNat ≤ 2^31) :
    (getppages bytes npages).wp s
      (fun p t => t.ram.Sane ∧ s.ram.firstpaddr.toNat ≤ t.ram.firstpaddr.toNat ∧
        (p ≠ 0 → p.toNat = s.ram.firstpaddr.toNat ∧
          t.ram.firstpaddr.toNat = s.ram.firstpaddr.toNat + 4096 * npages.toNat)) never never := by
  have ⟨⟨some_,ordered⟩,limit,paged⟩ := sane
  have size : (s.ram.firstpaddr + npages * 4096).toNat = s.ram.firstpaddr.toNat + 4096 * npages.toNat := by
    rw [UInt32.toNat_add,toNat_pages]
    omega
  simp only [getppages,wp_bind,wp_read,wp_put,wp_pure,Ram.ramStealmem,gt_iff_lt,UInt32.lt_iff_toNat_lt,size]
  split_ifs with full
  · exact ⟨sane,Nat.le_refl _,fun some_ => absurd rfl some_⟩
  · refine ⟨⟨⟨?_,?_⟩,limit,?_⟩,?_,fun _ => ⟨rfl,size⟩⟩ <;> rw [size]
    · omega
    · exact Nat.le_of_not_lt full
    · omega
    · omega

namespace Addrspace

/-- Where the physical pages of a range end. -/
def ptop (as : Addrspace) (r : UserRange) : Nat := (as.pbase r).toNat + 4096 * (as.npages r).toNat

/-- The bytes of the pages of a space. -/
def size (as : Addrspace) : Nat :=
  4096 * ((as.npages .region1).toNat + (as.npages .region2).toNat + (as.npages .stack).toNat)

def lo (as : Addrspace) : Nat := (as.pbase .region1).toNat
def hi (as : Addrspace) : Nat := as.ptop .stack

/-- The ranges are below `USERTOP`, and their pages follow one another. -/
structure Laid (as : Addrspace) : Prop where
  prepared : as.Prepared
  user : ∀ r, (as.vbase r).toNat + 4096 * (as.npages r).toNat ≤ 2^31
  second : (as.pbase .region2).toNat = as.ptop .region1
  third : (as.pbase .stack).toNat = as.ptop .region2
  low : as.hi < 2^31

def SameShape (as new : Addrspace) : Prop := new.vbase = as.vbase ∧ new.npages = as.npages

end Addrspace

theorem asPrepareLoad_laid {as : Addrspace} {s : RamState} (bare : as.Bare) (sane : s.ram.Sane)
    (user : ∀ r, (as.vbase r).toNat + 4096 * (as.npages r).toNat ≤ 2^31) :
    (asPrepareLoad as).wp s
      (fun new t => t.ram.Sane ∧ as.SameShape new ∧
        new.Laid ∧ new.lo = s.ram.firstpaddr.toNat ∧ new.hi = t.ram.firstpaddr.toNat)
      (fun code t => code = .enomem ∧ t.ram.Sane ∧ s.ram.firstpaddr.toNat ≤ t.ram.firstpaddr.toNat)
      never := by
  have small (r : UserRange) := (Nat.le_add_left _ _).trans (user r)
  obtain ⟨stackpages,same⟩ : ∃ n, dumbvmStackpages = n := ⟨_,rfl⟩
  have stack : as.npages .stack = stackpages := same
  have small3 := small .stack
  rw [stack] at small3
  rw [asPrepareLoad,same]
  simp only [wp_bind,wp_assert,bare.pbase1,bare.pbase2,bare.stackpbase,decide_true,if_true]
  apply wp_total (getppages_sane sane _ (small .region1))
  rintro p1 t1 ⟨sane1,le1,granted1⟩
  rw [wp_ite]
  refine ⟨fun _ => ⟨rfl,sane1,le1⟩,fun some1 => ?_⟩
  rw [wp_bind]
  apply wp_total (getppages_sane sane1 _ (small .region2))
  rintro p2 t2 ⟨sane2,le2,granted2⟩
  rw [wp_ite]
  refine ⟨fun _ => ⟨rfl,sane2,le1.trans le2⟩,fun some2 => ?_⟩
  rw [wp_bind]
  apply wp_total (getppages_sane sane2 _ small3)
  rintro p3 t3 ⟨sane3,le3,granted3⟩
  rw [wp_ite]
  refine ⟨fun _ => ⟨rfl,sane3,le1.trans (le2.trans le3)⟩,fun some3 => ?_⟩
  rw [wp_pure]
  obtain ⟨base1,top1⟩ := granted1 some1
  obtain ⟨base2,top2⟩ := granted2 some2
  obtain ⟨base3,top3⟩ := granted3 some3
  have paged1 : p1.toNat % 4096 = 0 := base1 ▸ sane.paged
  have paged2 : p2.toNat % 4096 = 0 := base2 ▸ sane1.paged
  have paged3 : p3.toNat % 4096 = 0 := base3 ▸ sane2.paged
  have shape : as.SameShape { as with asPbase1 := p1, asPbase2 := p2, asStackpbase := p3 } := by
    constructor <;> funext r <;> cases r <;> rfl
  have top : Addrspace.hi { as with asPbase1 := p1, asPbase2 := p2, asStackpbase := p3 } =
      t3.ram.firstpaddr.toNat :=
    (congrArg (p3.toNat + 4096 * UInt32.toNat ·) stack).trans ((congrArg (· + _) base3).trans top3.symm)
  refine ⟨sane3,shape,⟨⟨bare.vbase1,bare.vbase2,⟨some1,paged1⟩,⟨some2,paged2⟩,some3,paged3⟩,?_,
    show p2.toNat = p1.toNat + 4096 * (as.npages .region1).toNat by omega,
    show p3.toNat = p2.toNat + 4096 * (as.npages .region2).toNat by omega,top.trans_lt sane3.low⟩,base1,top⟩
  rw [shape.1,shape.2]
  exact user

/-! Copying them -/

theorem paddrToKvaddr_eq {p : UInt32} (low : p.toNat < 2^31) : paddrToKvaddr p = 2^31 + p.toNat := by
  have segment : (0x80000000 : UInt32).toNat = 2^31 := by decide
  rw [paddrToKvaddr,UInt32.toNat_add,segment]
  omega

theorem copiedFront_inside (mem : Nat → UInt8) (dst src : Nat) {n i : Nat} (less : i < n) :
    copiedFront mem dst src n (dst + i) = mem (src + i) := by
  rw [copiedFront,overwrite,if_pos (by omega),Nat.add_sub_cancel_left]

theorem copiedFront_append (mem : Nat → UInt8) {dst src n k : Nat} (apart : src + (n + k) ≤ dst) :
    copiedFront (copiedFront mem dst src n) (dst + n) (src + n) k = copiedFront mem dst src (n + k) := by
  funext a
  simp only [copiedFront,overwrite]
  split_ifs <;> first | rfl | omega | exact congrArg mem (by omega)

variable {old new : Addrspace} {s : PhysMem}

theorem PhysMem.wp_memmove {dst src len : Nat} (dstFits : dst + len ≤ 2^32) (srcFits : src + len ≤ 2^32) :
    (PhysMem.memmove dst src len).wp s
      (fun _ t => t = { s with mem := copiedFront s.mem dst src len }) never never := by
  obtain ⟨_,mem,ran,-,rfl⟩ := wp_returns (@memmove_spec s.mem _ _ _ dstFits srcFits)
  simp only [Exec.wp,PhysMem.memmove,ran]

theorem wp_copyRange {r : UserRange} (oldLow : old.ptop r < 2^31) (newLow : new.ptop r < 2^31)
    (same : new.npages r = old.npages r) :
    (copyRange old new r).wp s (fun _ t => t = { s with
      mem := copiedFront s.mem (2^31 + (new.pbase r).toNat) (2^31 + (old.pbase r).toNat)
        (4096 * (old.npages r).toNat) }) never never := by
  unfold Addrspace.ptop at oldLow newLow
  rw [same] at newLow
  have len : (old.npages r * 4096).toNat = 4096 * (old.npages r).toNat := by
    rw [toNat_pages]
    omega
  rw [copyRange,paddrToKvaddr_eq (by omega),paddrToKvaddr_eq (by omega),len]
  exact PhysMem.wp_memmove (by omega) (by omega)

theorem Addrspace.Laid.ptop_le {as : Addrspace} (laid : as.Laid) (r : UserRange) :
    as.lo ≤ (as.pbase r).toNat ∧ (as.pbase r).toNat ≤ as.ptop r ∧ as.ptop r ≤ as.hi := by
  obtain ⟨-,-,second,third,-⟩ := laid
  unfold lo hi ptop at *
  cases r <;> omega

/-- The ranges follow one another in both spaces, so the three copies are one. -/
theorem copyRanges_spec (laid : old.Laid) (fresh : new.Laid) (shape : old.SameShape new)
    (le : old.hi ≤ new.lo) :
    (do copyRange old new .region1; copyRange old new .region2; copyRange old new .stack; return new).wp s
      (fun made t => made = new ∧
        t = { s with mem := copiedFront s.mem (2^31 + new.lo) (2^31 + old.lo) old.size })
      never never := by
  have copy (r : UserRange) (t : PhysMem) := wp_copyRange (s := t)
    ((laid.ptop_le r).2.2.trans_lt laid.low) ((fresh.ptop_le r).2.2.trans_lt fresh.low) (congrFun shape.2 r)
  rw [wp_bind]
  apply wp_total (copy .region1 s)
  rintro _ _ rfl
  rw [wp_bind]
  apply wp_total (copy .region2 _)
  rintro _ _ rfl
  rw [wp_bind]
  apply wp_total (copy .stack _)
  rintro _ _ rfl
  refine ⟨rfl,?_⟩
  obtain ⟨-,-,second,third,-⟩ := laid
  obtain ⟨-,-,second',third',-⟩ := fresh
  unfold Addrspace.lo Addrspace.hi Addrspace.ptop at *
  rw [shape.2] at second' third'
  rw [third',second',third,second,Addrspace.size]
  simp only [← Nat.add_assoc]
  rw [copiedFront_append _ (by omega),copiedFront_append _ (by omega),Nat.mul_add,Nat.mul_add,Nat.add_assoc]

theorem asCopy_spec (kmalloc : Bool) (sane : s.ram.ram.Sane) (laid : old.Laid)
    (le : old.hi ≤ s.ram.ram.firstpaddr.toNat) :
    (asCopy kmalloc old).wp s
      (fun new t => t.ram.ram.Sane ∧ old.SameShape new ∧
        (new.Laid ∧ new.lo = s.ram.ram.firstpaddr.toNat ∧ new.hi = t.ram.ram.firstpaddr.toNat) ∧
        t.mem = copiedFront s.mem (2^31 + new.lo) (2^31 + old.lo) old.size)
      (fun code t => code = .enomem ∧ t.mem = s.mem ∧ t.ram.ram.Sane ∧
        s.ram.ram.firstpaddr.toNat ≤ t.ram.ram.firstpaddr.toNat) never := by
  rw [asCopy,wp_ite]
  refine ⟨fun _ => ⟨rfl,rfl,sane,Nat.le_refl _⟩,fun _ => ?_⟩
  have shape : old.SameShape { asCreate with
      asVbase1 := old.asVbase1, asNpages1 := old.asNpages1, bytes1 := old.bytes1
      asVbase2 := old.asVbase2, asNpages2 := old.asNpages2, bytes2 := old.bytes2 } := by
    constructor <;> funext r <;> cases r <;> rfl
  rw [wp_bind,wp_attempt,wp_zoom,wp_mapPanic]
  refine wp_safe (asPrepareLoad_laid ⟨laid.prepared.vbase1,laid.prepared.vbase2,rfl,rfl,rfl⟩ sane ?_) ?_ ?_
  · rw [shape.1,shape.2]
    exact laid.user
  · rintro new t ⟨saneT,shapeT,fresh,lo,hi⟩
    have nonzero := fresh.prepared
    have same : old.SameShape new := ⟨shapeT.1.trans shape.1,shapeT.2.trans shape.2⟩
    dsimp only
    rw [wp_bind,wp_assert,if_pos (decide_eq_true nonzero.pbase1.1),
      wp_bind,wp_assert,if_pos (decide_eq_true nonzero.pbase2.1),
      wp_bind,wp_assert,if_pos (decide_eq_true nonzero.stackpbase.1)]
    apply wp_total (copyRanges_spec laid fresh same (le.trans lo.ge))
    rintro _ u ⟨rfl,rfl⟩
    exact ⟨saneT,same,⟨fresh,lo,hi⟩,rfl⟩
  · rintro _ t ⟨-,saneT,leT⟩
    exact ⟨rfl,rfl,saneT,leT⟩

/-! What a program sees -/

namespace Addrspace
variable {as : Addrspace}

/-- Where the kernel finds a byte of the program: at the physical page that `vm_fault` enters. -/
def kvaddr (as : Addrspace) (a : UInt32) : Option Nat :=
  (as.paddr (a &&& pageFrame)).map fun p => paddrToKvaddr p + a.toNat % 4096

def userByte (as : Addrspace) (mem : Nat → UInt8) (a : UInt32) : Option UInt8 := (as.kvaddr a).map mem

theorem Laid.kvaddr_eq (laid : as.Laid) (a : UInt32) :
    as.kvaddr a = (as.rangeOf a).map fun r => 2^31 + (as.pbase r).toNat + (a.toNat - (as.vbase r).toNat) := by
  rw [kvaddr,paddr_eq fun r => (laid.user r).trans_lt (by decide),laid.prepared.rangeOf_page]
  cases falls : as.rangeOf a with
  | none => rfl
  | some r =>
    obtain ⟨above,less⟩ := rangeOf_within falls
    have base := laid.prepared.vbase_mod r
    have page := frame_toNat a
    have top := laid.ptop_le r
    have low := laid.low
    rw [ptop] at top
    have offset : ((a &&& pageFrame) - as.vbase r).toNat = (a &&& pageFrame).toNat - (as.vbase r).toNat :=
      UInt32.toNat_sub_of_le _ _ (UInt32.le_iff_toNat_le.mpr (by omega))
    have sum : ((a &&& pageFrame) - as.vbase r + as.pbase r).toNat =
        (a &&& pageFrame).toNat - (as.vbase r).toNat + (as.pbase r).toNat := by
      rw [UInt32.toNat_add,offset]
      omega
    rw [Option.map_some,Option.map_some,Option.map_some,paddrToKvaddr_eq (by omega),sum]
    exact congrArg some (by omega)

theorem Laid.kvaddr_some (laid : as.Laid) {a : UInt32} {k : Nat}
    (found : as.kvaddr a = some k) : ∃ r, (as.vbase r).toNat ≤ a.toNat ∧
      k = 2^31 + (as.pbase r).toNat + (a.toNat - (as.vbase r).toNat) ∧ k < 2^31 + as.ptop r := by
  rw [laid.kvaddr_eq,Option.map_eq_some_iff] at found
  obtain ⟨r,falls,rfl⟩ := found
  obtain ⟨above,less⟩ := rangeOf_within falls
  refine ⟨r,above,rfl,?_⟩
  rw [ptop]
  omega

theorem Laid.kvaddr_bounds (laid : as.Laid) {a : UInt32} {k : Nat}
    (found : as.kvaddr a = some k) : 2^31 + as.lo ≤ k ∧ k < 2^31 + as.hi := by
  obtain ⟨r,-,rfl,less⟩ := laid.kvaddr_some found
  have := laid.ptop_le r
  omega

theorem Laid.kvaddr_injective (laid : as.Laid) {a b : UInt32} {k : Nat}
    (first : as.kvaddr a = some k) (second : as.kvaddr b = some k) : a = b := by
  obtain ⟨r,above,rfl,less⟩ := laid.kvaddr_some first
  obtain ⟨q,aboveB,same,lessB⟩ := laid.kvaddr_some second
  have next := laid.second
  have last := laid.third
  unfold ptop at *
  apply UInt32.toNat_inj.mp
  cases r <;> cases q <;> omega

/-- A space is read alike in memories that agree up to the end of its pages. -/
theorem Laid.userByte_congr (laid : as.Laid) {mem mem' : Nat → UInt8}
    (kept : ∀ k < 2^31 + as.hi, mem' k = mem k) : as.userByte mem' = as.userByte mem := by
  funext a
  exact Option.map_congr fun k found => kept k (laid.kvaddr_bounds found).2

end Addrspace

theorem userByte_copied (laid : old.Laid) (fresh : new.Laid) (shape : old.SameShape new)
    (mem : Nat → UInt8) :
    new.userByte (copiedFront mem (2^31 + new.lo) (2^31 + old.lo) old.size) = old.userByte mem := by
  have ranges (a : UInt32) : new.rangeOf a = old.rangeOf a := by
    simp only [Addrspace.rangeOf,Addrspace.Within,shape.1,shape.2]
    rfl
  funext a
  rw [Addrspace.userByte,Addrspace.userByte,laid.kvaddr_eq,fresh.kvaddr_eq,ranges]
  cases falls : old.rangeOf a with
  | none => rfl
  | some r =>
    obtain ⟨above,less⟩ := Addrspace.rangeOf_within falls
    obtain ⟨-,-,second,third,-⟩ := laid
    obtain ⟨-,-,second',third',-⟩ := fresh
    unfold Addrspace.ptop at *
    rw [shape.2] at second' third'
    unfold Addrspace.lo
    have moved : 2^31 + (new.pbase r).toNat + (a.toNat - (old.vbase r).toNat) =
        2^31 + (new.pbase .region1).toNat +
          ((old.pbase r).toNat - (old.pbase .region1).toNat + (a.toNat - (old.vbase r).toNat)) := by
      cases r <;> omega
    have back : 2^31 + (old.pbase .region1).toNat +
          ((old.pbase r).toNat - (old.pbase .region1).toNat + (a.toNat - (old.vbase r).toNat)) =
        2^31 + (old.pbase r).toNat + (a.toNat - (old.vbase r).toNat) := by
      cases r <;> omega
    rw [Option.map_some,Option.map_some,Option.map_some,Option.map_some,shape.1,moved,
      copiedFront_inside _ _ _ ?_,back]
    rw [Addrspace.size]
    cases r <;> omega

/-! Programs that are loaded, fork and store -/

/-- The memory and the address spaces in it, in the order in which they came. -/
structure Machine extends PhysMem where
  spaces : List Addrspace

inductive VmOp where
  | load (as : Addrspace)
  | fork (i : Nat) (kmalloc : Bool)
  | store (i : Nat) (a : UInt32) (b : UInt8)

namespace VmOp

/-- A call of `as_prepare_load` for a space whose regions have been defined, a call of `as_copy`, or a
store by the program in the `i`th space. -/
def run : VmOp → Exec Machine Errno AsCopyPanic Unit
  | .load as => do
    let new ← zoom (fun m => m.ram) (fun m ram => { m with ram := ram })
      (mapPanic .prepare (asPrepareLoad as))
    modify fun m => { m with spaces := m.spaces ++ [new] }
  | .fork i kmalloc => do
    match (← read).spaces[i]? with
    | none => fail .einval
    | some old =>
      let new ← zoom Machine.toPhysMem (fun m phys => { m with toPhysMem := phys }) (asCopy kmalloc old)
      modify fun m => { m with spaces := m.spaces ++ [new] }
  | .store i a b => do
    match (← read).spaces[i]?.bind fun as => as.kvaddr a with
    | none => fail .efault
    | some k => modify fun m => { m with mem := Function.update m.mem k b }

def Legal : VmOp → Machine → Prop
  | .load as, _ => as.Bare ∧ ∀ r, (as.vbase r).toNat + 4096 * (as.npages r).toNat ≤ 2^31
  | .fork i _, m | .store i _ _, m => i < m.spaces.length

end VmOp

/-- What a program can read, by address. -/
abbrev Image := UInt32 → Option UInt8

/-- Memories of their own: a fork copies one, and a store changes one, at one address. -/
def ImageSpec : VmOp → List Image → Except Errno Unit → List Image → Prop
  | .load as, images, .ok _, next => ∃ image : Image,
      (∀ a, (image a).isSome ↔ ∃ r, as.Within r a) ∧ next = images ++ [image]
  | .fork i _, images, .ok _, next => ∃ image, images[i]? = some image ∧ next = images ++ [image]
  | .store i a b, images, .ok _, next => ∃ image, images[i]? = some image ∧ (image a).isSome ∧
      next = images.set i (Function.update image a (some b))
  | .store i a _, images, .error code, next =>
      images[i]?.bind (· a) = none ∧ code = .efault ∧ next = images
  | _, images, .error code, next => code = .enomem ∧ next = images

namespace Machine

def images (m : Machine) : List Image := m.spaces.map fun as => as.userByte m.mem

structure Isolated (m : Machine) : Prop where
  sane : m.ram.ram.Sane
  laid : ∀ as ∈ m.spaces, as.Laid
  below : ∀ as ∈ m.spaces, as.hi ≤ m.ram.ram.firstpaddr.toNat
  apart : m.spaces.Pairwise fun as other => as.hi ≤ other.lo

variable {m : Machine} {t : PhysMem}

theorem Isolated.kept (isolated : m.Isolated) (sane : t.ram.ram.Sane)
    (le : m.ram.ram.firstpaddr.toNat ≤ t.ram.ram.firstpaddr.toNat)
    (same : ∀ k < 2^31 + m.ram.ram.firstpaddr.toNat, t.mem k = m.mem k) :
    ({ m with toPhysMem := t } : Machine).Isolated ∧
      ({ m with toPhysMem := t } : Machine).images = m.images := by
  refine ⟨⟨sane,isolated.laid,fun as member => (isolated.below as member).trans le,isolated.apart⟩,
    List.map_congr_left fun as member => ?_⟩
  have below := isolated.below as member
  exact (isolated.laid as member).userByte_congr fun k less => same k (by omega)

theorem Isolated.grown (isolated : m.Isolated) (sane : t.ram.ram.Sane)
    (fresh : new.Laid ∧ new.lo = m.ram.ram.firstpaddr.toNat ∧ new.hi = t.ram.ram.firstpaddr.toNat)
    (same : ∀ k < 2^31 + m.ram.ram.firstpaddr.toNat, t.mem k = m.mem k) :
    (Machine.mk t (m.spaces ++ [new])).Isolated ∧
      (Machine.mk t (m.spaces ++ [new])).images = m.images ++ [new.userByte t.mem] := by
  obtain ⟨laid,lo,hi⟩ := fresh
  have le := laid.ptop_le .stack
  obtain ⟨before,images⟩ := isolated.kept sane (by omega) same
  refine ⟨⟨sane,?_,?_,?_⟩,?_⟩
  · exact List.forall_mem_append.mpr ⟨before.laid,List.forall_mem_singleton.mpr laid⟩
  · exact List.forall_mem_append.mpr ⟨before.below,List.forall_mem_singleton.mpr hi.le⟩
  · refine List.pairwise_append.mpr ⟨isolated.apart,List.pairwise_singleton _ _,
      fun as member other one => ?_⟩
    obtain rfl := List.mem_singleton.mp one
    exact (isolated.below as member).trans lo.ge
  · rw [← images]
    exact List.map_append

theorem Isolated.stored (isolated : m.Isolated) {i : Nat} {as : Addrspace} (ith : m.spaces[i]? = some as)
    {a : UInt32} {k : Nat} (found : as.kvaddr a = some k) (b : UInt8) :
    ({ m with mem := Function.update m.mem k b } : Machine).images =
      m.images.set i (Function.update (as.userByte m.mem) a (some b)) := by
  -- no other byte of any space is at `k`
  have other {j : Nat} {space : Addrspace} (jth : m.spaces[j]? = some space) {c : UInt32}
      (foundC : space.kvaddr c = some k) : i = j ∧ c = a := by
    have member := List.mem_of_getElem? ith
    have memberC := List.mem_of_getElem? jth
    have inside := (isolated.laid as member).kvaddr_bounds found
    have insideC := (isolated.laid space memberC).kvaddr_bounds foundC
    obtain ⟨bound,rfl⟩ := List.getElem?_eq_some_iff.mp ith
    obtain ⟨boundC,rfl⟩ := List.getElem?_eq_some_iff.mp jth
    have apart := List.pairwise_iff_getElem.mp isolated.apart
    rcases Nat.lt_trichotomy i j with less | rfl | less
    · have := apart i j bound boundC less
      omega
    · exact ⟨rfl,(isolated.laid _ member).kvaddr_injective foundC found⟩
    · have := apart j i boundC bound less
      omega
  apply List.ext_getElem?
  intro j
  simp only [images,List.getElem?_set,List.getElem?_map,List.length_map]
  by_cases same : i = j
  · subst same
    rw [if_pos rfl,if_pos (List.getElem?_eq_some_iff.mp ith).1,ith,Option.map_some,Option.some.injEq]
    funext c
    by_cases one : c = a
    · subst one
      rw [Function.update_self,Addrspace.userByte,found,Option.map_some,Function.update_self]
    · rw [Function.update_of_ne one]
      exact Option.map_congr fun l foundC =>
        Function.update_of_ne (fun eq => one (other ith (eq ▸ foundC)).2) _ _
  · rw [if_neg same]
    exact Option.map_congr fun space jth => funext fun c => Option.map_congr fun l foundC =>
      Function.update_of_ne (fun eq => same (other jth (eq ▸ foundC)).1) _ _

end Machine

theorem VmOp.simulates_images :
    Simulates VmOp.run VmOp.Legal ImageSpec fun m images => m.Isolated ∧ images = m.images := by
  rintro op m _ ⟨isolated,rfl⟩ legal
  cases op with
  | load as =>
    obtain ⟨bare,user⟩ := legal
    rw [VmOp.run,wp_bind,wp_zoom,wp_mapPanic]
    refine wp_safe (asPrepareLoad_laid bare isolated.sane user) ?_ ?_
    · rintro new t ⟨sane,shape,fresh⟩
      obtain ⟨isolated',images⟩ := isolated.grown (t := { m with ram := t }) sane fresh fun _ _ => rfl
      refine ⟨_,⟨new.userByte m.mem,fun a => ?_,rfl⟩,isolated',images.symm⟩
      rw [Addrspace.userByte,Option.isSome_map,fresh.1.kvaddr_eq,
        Option.isSome_map,Addrspace.rangeOf_isSome]
      simp only [Addrspace.Within,shape.1,shape.2]
    · rintro _ t ⟨rfl,sane,le⟩
      obtain ⟨isolated',images⟩ := isolated.kept (t := { m with ram := t }) sane le fun _ _ => rfl
      exact ⟨_,⟨rfl,rfl⟩,isolated',images.symm⟩
  | fork i kmalloc =>
    have ith : m.spaces[i]? = some m.spaces[i] := List.getElem?_eq_getElem legal
    have member := List.getElem_mem legal
    have laid := isolated.laid _ member
    simp only [VmOp.run,wp_bind,wp_read,ith,wp_zoom,wp_modify]
    refine wp_safe (asCopy_spec kmalloc isolated.sane laid (isolated.below _ member)) ?_ ?_
    · rintro new t ⟨sane,shape,fresh,copied⟩
      obtain ⟨isolated',images⟩ := isolated.grown sane fresh fun k less => by
        rw [copied,fresh.2.1]
        exact overwrite_outside _ _ (.inl less)
      refine ⟨_,⟨_,?_,rfl⟩,isolated',images.symm⟩
      rw [Machine.images,List.getElem?_map,ith,copied,userByte_copied laid fresh.1 shape]
      rfl
    · rintro _ t ⟨rfl,same,sane,le⟩
      obtain ⟨isolated',images⟩ := isolated.kept sane le fun k _ => congrFun same k
      exact ⟨_,⟨rfl,rfl⟩,isolated',images.symm⟩
  | store i a b =>
    have ith : m.spaces[i]? = some m.spaces[i] := List.getElem?_eq_getElem legal
    have image : m.images[i]? = some (m.spaces[i].userByte m.mem) := by
      rw [Machine.images,List.getElem?_map,ith,Option.map_some]
    rw [VmOp.run,wp_bind,wp_read,ith,Option.bind_some]
    cases found : m.spaces[i].kvaddr a with
    | none =>
      refine ⟨_,⟨?_,rfl,rfl⟩,isolated,rfl⟩
      rw [image,Option.bind_some,Addrspace.userByte,found,Option.map_none]
    | some k =>
      refine ⟨_,⟨_,image,?_,rfl⟩,⟨isolated.sane,isolated.laid,isolated.below,isolated.apart⟩,
        (isolated.stored ith found b).symm⟩
      rw [Addrspace.userByte,found]
      rfl

/-- Programs that are loaded, fork and store behave as if each had a memory of its own, which
`as_copy` copies. Wherever memory runs out, no assertion fails. -/
theorem program_memories_private {phys : PhysMem} (sane : phys.ram.ram.Sane)
    {trace : List (VmOp × Except Errno Unit)} {m : Machine}
    (calls : Calls VmOp.run VmOp.Legal ⟨phys,[]⟩ trace m) :
    Admits ImageSpec [] trace m.images ∧
      ∀ op : VmOp, op.Legal m → op.run.wp m (fun _ _ => True) (fun _ _ => True) fun _ _ => False := by
  have start : (Machine.mk phys []).Isolated :=
    ⟨sane,List.forall_mem_nil _,List.forall_mem_nil _,.nil⟩
  obtain ⟨_,admits,isolated,rfl⟩ := VmOp.simulates_images.calls calls ⟨start,rfl⟩
  exact ⟨admits,fun op legal => wp_ends (VmOp.simulates_images op m _ ⟨isolated,rfl⟩ legal)
    (fun _ _ _ => trivial) fun _ _ _ => trivial⟩

/-- The ranges of `Mmu.tiny`, without pages. -/
def tinyBare : Addrspace :=
  { asCreate with asVbase1 := 0x1000, asNpages1 := 1, asVbase2 := 0x2000, asNpages2 := 1 }

def loadAndFork : List (VmOp × Except Errno Unit) :=
  [(.load tinyBare,.ok ()),(.store 0 0x1234 7,.ok ()),(.store 0 0x4000 7,.error .efault),
    (.fork 0 true,.ok ())]

theorem halfMegabyte_sane : halfMegabyte.Sane := ⟨halfMegabyte_valid,by decide,rfl⟩

theorem program_memories_private_loadAndFork : ∃ images, Admits ImageSpec [] loadAndFork images := by
  have legal : VmOp.Legal (.load tinyBare) ⟨⟨⟨halfMegabyte,[]⟩,fun _ => 0⟩,[]⟩ :=
    ⟨⟨rfl,rfl,rfl,rfl,rfl⟩,by rintro (_ | _ | _) <;> decide⟩
  exact ⟨_,(program_memories_private halfMegabyte_sane
    (.next legal (by decide +kernel) (.next (show 0 < _ by decide +kernel) (by decide +kernel)
      (.next (show 0 < _ by decide +kernel) (by decide +kernel)
        (.next (show 0 < _ by decide +kernel) (by decide +kernel) (.nil _)))))).1⟩

end Os161
