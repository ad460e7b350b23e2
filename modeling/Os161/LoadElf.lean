import Os161.Dumbvm
import Os161.SfsUserRead

/-! `load_elf` on a file of SFS: the reads of the file, the address space it sets up, and the
faults that its copies to user memory take. -/
namespace Os161

open SfsFs

/-- `ENOEXEC`, and the codes of the functions that `load_elf` calls. -/
inductive LoadErr where
  | enoexec
  | errno (code : Errno)
  deriving DecidableEq, Repr

inductive LoadPanic where
  | fs (site : Panic)
  | ram (site : RamPanic)
  | vm (site : VmPanic)
  deriving DecidableEq, Repr

/-- The state of a thread that loads a program: its address space, and what is in user memory. -/
structure Loader where
  fs : SfsFs
  ram : RamState
  as : Addrspace
  mem : Nat → UInt8

abbrev Load (α : Type) := Exec Loader LoadErr LoadPanic α

/-- The user addresses that a copy can reach: below `USERTOP`, and `vm_fault` finds the page. `tlb`
says whether the fault at an address finds a free TLB entry. -/
def Loader.userOk (s : Loader) (tlb : Nat → Bool) (addr : Nat) : Bool :=
  decide (addr < usertop.toNat) && decide ((vmFault (tlb addr) (.ofNat addr) s.as).1 = .ok ())

/-! The headers -/

def u16At (b : Nat → UInt8) (i : Nat) : Nat := (b i).toNat * 2^8 + (b (i + 1)).toNat

def u32At (b : Nat → UInt8) (i : Nat) : Nat := u16At b i * 2^16 + u16At b (i + 2)

structure Ehdr where
  eIdent : List UInt8
  eType : Nat
  eMachine : Nat
  eVersion : Nat
  eEntry : Nat
  ePhoff : Nat
  ePhentsize : Nat
  ePhnum : Nat

def Ehdr.ofBytes (b : Nat → UInt8) : Ehdr where
  eIdent := (List.range 7).map b
  eType := u16At b 16
  eMachine := u16At b 18
  eVersion := u32At b 20
  eEntry := u32At b 24
  ePhoff := u32At b 28
  ePhentsize := u16At b 42
  ePhnum := u16At b 44

def Ehdr.Runs (eh : Ehdr) : Prop :=
  eh.eIdent = [0x7f,0x45,0x4c,0x46,1,2,1] ∧ eh.eVersion = 1 ∧ eh.eType = 2 ∧ eh.eMachine = 8

instance (eh : Ehdr) : Decidable eh.Runs := inferInstanceAs (Decidable (_ ∧ _ ∧ _ ∧ _))

def Ehdr.phdrOffset (eh : Ehdr) (i : Nat) : Int := i32 (eh.ePhoff + i * eh.ePhentsize)

structure Phdr where
  pType : Nat
  pOffset : Nat
  pVaddr : Nat
  pFilesz : Nat
  pMemsz : Nat
  pFlags : Nat

def Phdr.ofBytes (b : Nat → UInt8) : Phdr where
  pType := u32At b 0
  pOffset := u32At b 4
  pVaddr := u32At b 8
  pFilesz := u32At b 16
  pMemsz := u32At b 20
  pFlags := u32At b 24

def Phdr.Skipped (ph : Phdr) : Prop := ph.pType = 0 ∨ ph.pType = 6 ∨ ph.pType = 0x70000000

instance (ph : Phdr) : Decidable ph.Skipped := inferInstanceAs (Decidable (_ ∨ _ ∨ _))

def Phdr.Loads (ph : Phdr) : Prop := ph.pType = 1

instance (ph : Phdr) : Decidable ph.Loads := inferInstanceAs (Decidable (_ = _))

/-! The calls -/

namespace Load

def onSpace (call : Addrspace → RamM Addrspace) : Load Unit := fun s =>
  match call s.as s.ram with
  | (.ok as, ram) => (.ok (), { s with as := as, ram := ram })
  | (.err code, ram) => (.err (.errno code), { s with ram := ram })
  | (.panic site, ram) => (.panic (.ram site), { s with ram := ram })

def finish (s : Loader) : Outcome Errno Panic Unit × SfsIo → Outcome LoadErr LoadPanic Uio × Loader
  | (.ok _, t) => (.ok t.uio, { s with fs := t.fs })
  | (.err code, t) => (.err (.errno code), { s with fs := t.fs })
  | (.panic site, t) => (.panic (.fs site), { s with fs := t.fs })

def kernel (call : Call SfsIo Unit) (u : Uio) : Load Uio := fun s => finish s (call ⟨s.fs,u⟩)

/-- A call that copies to user memory. A copy that passes `copycheck` lies below `USERTOP`. It
touches a page that has no TLB entry, and so gets to `vm_fault`. The assertions of `vm_fault` do not
look at the address, so if one of them fails, it fails in the first copy that passes `copycheck`,
and there is such a copy just if the cursor moves when all of them succeed. -/
def user (tlb : Nat → Bool) (call : Call SfsIo Unit) (u : Uio) : Load Uio := fun s =>
  match (vmFault true (.ofNat u.iovBase) s.as).1 with
  | .panic site =>
    let ended := call ⟨s.fs,{ u with mem := s.mem, userOk := fun addr => addr < usertop.toNat }⟩
    if ended.2.uio.iovBase = u.iovBase then finish { s with mem := ended.2.uio.mem } ended
    else (.panic (.vm site), s)
  | _ =>
    let ended := call ⟨s.fs,{ u with mem := s.mem, userOk := s.userOk tlb }⟩
    finish { s with mem := ended.2.uio.mem } ended

end Load

/-- A `mk_kuio` and `VOP_READ` that must get all of `len` bytes. -/
def loadHeaderOf (vopRead : Call SfsIo Unit) (len : Nat) (pos : Int) : Load (Nat → UInt8) := do
  let ku ← Load.kernel vopRead (Uio.mkKuio (fun _ => 0) len pos .read)
  if ku.uioResid ≠ 0 then fail .enoexec else pure ku.mem

def loadHeader (k len : Nat) (pos : Int) : Load (Nat → UInt8) := loadHeaderOf (vopRead k) len pos

/-- The end of `load_segment`: the rest of the memory space is filled with zeros. -/
def loadZeros (tlb : Nat → Bool) (fillamt : Nat) (u : Uio) : Load Unit := do
  if fillamt > 0 then
    let _ ← Load.user tlb (SfsIo.onUio (Uio.uiomovezeros fillamt))
      { u with uioResid := (u.uioResid + fillamt) % 2^32 }
    pure ()
  else pure ()

def segmentUio (offset : Int) (vaddr memsize filesize : Nat) (isExecutable : Bool) : Uio where
  iovBase := vaddr
  iovLen := memsize
  uioOffset := offset
  uioResid := filesize
  uioSegflg := if isExecutable then .userispace else .userspace
  uioRw := .read
  spaceOk := true
  mem := fun _ => 0
  userOk := fun _ => false

def loadSegmentOf (vopRead : Call SfsIo Unit) (tlb : Nat → Bool) (offset : Int)
    (vaddr memsize filesize : Nat) (isExecutable : Bool) : Load Unit := do
  let filesize := if filesize > memsize then memsize else filesize
  let u ← Load.user tlb vopRead (segmentUio offset vaddr memsize filesize isExecutable)
  if u.uioResid ≠ 0 then fail .enoexec else loadZeros tlb (memsize - filesize) u

def loadSegment (k : Nat) (tlb : Nat → Bool) (offset : Int) (vaddr memsize filesize : Nat)
    (isExecutable : Bool) : Load Unit :=
  loadSegmentOf (vopRead k) tlb offset vaddr memsize filesize isExecutable

/-- A turn of either loop of `load_elf`: the `i`-th program header is read, and `work` is done if it
is of a segment to load. -/
def loadTurnOf (vopRead : Call SfsIo Unit) (eh : Ehdr) (work : Phdr → Load Unit) (i : Nat) :
    Load Unit := do
  let ph := Phdr.ofBytes (← loadHeaderOf vopRead 32 (eh.phdrOffset i))
  if ph.Skipped then pure ()
  else if ph.Loads then work ph
  else fail .enoexec

def loadTurn (k : Nat) (eh : Ehdr) (work : Phdr → Load Unit) (i : Nat) : Load Unit :=
  loadTurnOf (vopRead k) eh work i

def loadRegion (ph : Phdr) : Load Unit :=
  Load.onSpace fun as => asDefineRegion as (.ofNat ph.pVaddr) (.ofNat ph.pMemsz)

def loadContentsOf (vopRead : Call SfsIo Unit) (tlb : Nat → Bool) (ph : Phdr) : Load Unit :=
  loadSegmentOf vopRead tlb (i32 ph.pOffset) ph.pVaddr ph.pMemsz ph.pFilesz (ph.pFlags % 2 = 1)

def loadContents (k : Nat) (tlb : Nat → Bool) (ph : Phdr) : Load Unit :=
  loadContentsOf (vopRead k) tlb ph

/-- `load_elf`; the result is the entry point. `tlb i` is about the faults of the `i`-th segment. -/
def loadElfOf (vopRead : Call SfsIo Unit) (tlb : Nat → Nat → Bool) : Load Nat := do
  let eh := Ehdr.ofBytes (← loadHeaderOf vopRead 52 0)
  if eh.Runs then
    loop (fun i _ => loadTurnOf vopRead eh loadRegion i) eh.ePhnum 0 ()
    Load.onSpace asPrepareLoad
    loop (fun i _ => loadTurnOf vopRead eh (loadContentsOf vopRead (tlb i)) i) eh.ePhnum 0 ()
    pure eh.eEntry
  else fail .enoexec

/-- `load_elf` of file `k` of SFS. -/
def loadElf (k : Nat) (tlb : Nat → Nat → Bool) : Load Nat := loadElfOf (vopRead k) tlb

/-! Reading the file -/

/-- A regular file on a device that works, in memory. -/
structure Loadable (strict : Prop) (k : Nat) (fs : SfsFs) : Prop where
  inv : Inv strict fs
  loaded : fs.loaded k
  regular : k ≠ 1
  reliable : fs.disk.Reliable
  bound : (fs.view k).size ≤ 143 * 512

def FileView.Gets (f : FileView) (offset : Int) (len : Nat) : Prop :=
  if 0 ≤ offset then readLength f.size offset.toNat len = len
  else len = 0 ∧ (-offset).toNat % 512 = 0

/-- A read of `len` bytes at `offset` trips an assertion of `sfs_io`: it is in front of the file and
not one of those that are only refused. -/
def Harmful (offset : Int) (len : Nat) : Prop := offset < 0 ∧ ¬ FrontSafe (-offset).toNat len

section Reading
variable {strict : Prop} {k : Nat} {fs : SfsFs} {u : Uio}

section
variable (loadable : Loadable strict k fs)
include loadable

theorem Loadable.tick (m : Nat) : Loadable strict k (fs.tick m) where
  inv := loadable.inv.later (Later.tick fs m)
  loaded := loadable.loaded
  regular := loadable.regular
  reliable := tick_reliable loadable.reliable m
  bound := loadable.bound

theorem Loadable.gets_empty {offset : Int} (safe : ¬ Harmful offset 0) :
    (fs.view k).Gets offset 0 := by
  unfold FileView.Gets
  split
  case isTrue => exact Nat.le_zero.mp (readLength_le loadable.bound)
  case isFalse front =>
    refine ⟨rfl,?_⟩
    by_contra unaligned
    exact safe ⟨by omega,by unfold FrontSafe; omega⟩

theorem sfsIo_front_empty (read : u.uioRw = .read) (valid : u.Valid)
    (front : u.uioOffset < 0) (aligned : (-u.uioOffset).toNat % 512 = 0) (empty : u.uioResid = 0) :
    (sfsIo k).wp ⟨fs,u⟩ (fun _ t => t = ⟨fs,u⟩) never never := by
  obtain ⟨v,found⟩ := loaded_iff.mp loadable.loaded
  have bound := loadable.bound
  have low := valid.low
  have sizeInt : i32 ((fs.view k).size : Int) = (fs.view k).size := i32_of_bounds (by omega) (by omega)
  have endpos : i32 (u.uioOffset + ((0 : Nat) : Int)) = u.uioOffset := by
    rw [Nat.cast_zero,Int.add_zero,i32_of_bounds (by omega) (by omega)]
  have blkoff : u32 (u.uioOffset.tmod 512) = 0 := by
    have offset : u.uioOffset = -((-u.uioOffset).toNat : Int) := by omega
    rw [front_blkoff (a := ⟨fs,u⟩) offset,aligned,Nat.cast_zero,Int.neg_zero,u32_zero]
  have back : ({ u with uioResid := (u.uioResid + 0) % 2^32 } : Uio) = u := by
    rw [Nat.add_zero,Nat.mod_eq_of_lt valid.resid]
  simp only [sfsIo,wp_bind,wp_read,read,SfsIo.wp_onFs,Sfs.wp_vnode found,loaded_size found,sizeInt,
    empty,endpos]
  rw [if_neg (by omega),if_neg (by omega)]
  simp only [ioRun,ioBody,ioLeading,ioAligned,wp_bind,wp_attempt,wp_read,blkoff,empty,
    ne_eq,not_true,if_false,if_true,wp_pure]
  rw [wp_ioOut_read loadable.loaded read,wp_give_ok]
  exact congrArg (SfsIo.mk fs) back

theorem wp_sfsIo_past (read : u.uioRw = .read)
    (past : ((fs.view k).size : Int) ≤ u.uioOffset) {ok : Unit → SfsIo → Prop}
    {err : Errno → SfsIo → Prop} {halt : Panic → SfsIo → Prop} :
    (sfsIo k).wp ⟨fs,u⟩ ok err halt ↔ ok () ⟨fs,u⟩ := by
  obtain ⟨v,found⟩ := loaded_iff.mp loadable.loaded
  have bound := loadable.bound
  have sizeInt : i32 ((fs.view k).size : Int) = (fs.view k).size := i32_of_bounds (by omega) (by omega)
  simp only [sfsIo,wp_bind,wp_read,read,SfsIo.wp_onFs,Sfs.wp_vnode found,loaded_size found,sizeInt]
  rw [if_pos past,wp_pure]

theorem sfsIo_before (read : u.uioRw = .read) (valid : u.Valid)
    (front : u.uioOffset < 0) :
    (sfsIo k).wp ⟨fs,u⟩
      (fun _ t => ¬ Harmful u.uioOffset u.uioResid ∧ u.uioResid = 0 ∧ t = ⟨fs,u⟩)
      (fun _ t => ¬ Harmful u.uioOffset u.uioResid ∧ u.uioResid ≠ 0 ∧ t = ⟨fs,u⟩)
      fun _ _ => Harmful u.uioOffset u.uioResid := by
  have bound := loadable.bound
  have offset : u.uioOffset = -((-u.uioOffset).toNat : Int) := by omega
  have spec := sfsIo_front (a := ⟨fs,u⟩) loadable.inv.consistent (.of_loaded loadable.loaded) loadable.loaded
    loadable.reliable read valid (by simp only; omega) offset (by omega)
  by_cases empty : u.uioResid = 0
  · by_cases aligned : (-u.uioOffset).toNat % 512 = 0
    · refine wp_total (sfsIo_front_empty loadable read valid front aligned empty) ?_
      exact fun _ _ same => ⟨fun harmful => harmful.2 (.inl aligned),empty,same⟩
    · have bad : ¬ FrontSafe (-u.uioOffset).toNat u.uioResid := by
        unfold FrontSafe
        omega
      refine wp_mono spec ?_ ?_ fun _ _ h => ⟨front,h⟩
      · exact fun _ _ h => absurd h.1 bad
      · exact fun _ _ h => absurd h.1 bad
  · refine wp_mono spec ?_ ?_ fun _ _ h => ⟨front,h⟩
    · exact fun _ _ h => absurd h.2.2 empty
    · exact fun _ _ h => ⟨fun harmful => harmful.2 h.1,empty,h.2⟩

end

end Reading

section Kernel
variable {strict : Prop} {k : Nat} {s : Loader}

theorem Load.wp_kernel {call : Call SfsIo Unit} {u : Uio} {ok : Uio → Loader → Prop}
    {err : LoadErr → Loader → Prop} {halt : LoadPanic → Loader → Prop} :
    (Load.kernel call u).wp s ok err halt ↔
      call.wp ⟨s.fs,u⟩ (fun _ t => ok t.uio { s with fs := t.fs })
        (fun e t => err (.errno e) { s with fs := t.fs }) fun p t => halt (.fs p) { s with fs := t.fs } := by
  unfold Exec.wp Load.kernel
  rcases call ⟨s.fs,u⟩ with ⟨_ | _ | _,t⟩ <;> rfl

theorem Load.wp_onSpace {call : Addrspace → RamM Addrspace} {ok : Unit → Loader → Prop}
    {err : LoadErr → Loader → Prop} {halt : LoadPanic → Loader → Prop} :
    (Load.onSpace call).wp s ok err halt ↔
      (call s.as).wp s.ram (fun as t => ok () { s with as := as, ram := t })
        (fun e t => err (.errno e) { s with ram := t }) fun p t => halt (.ram p) { s with ram := t } := by
  unfold Exec.wp Load.onSpace
  rcases call s.as s.ram with ⟨_ | _ | _,t⟩ <;> rfl

theorem loadHeader_spec (loadable : Loadable strict k s.fs) {len : Nat} (some_ : 0 < len)
    (small : len < 2^32) {pos : Int} (low : -2^31 ≤ pos) (high : pos < 2^31) :
    (loadHeader k len pos).wp s
      (fun b t => (s.fs.view k).Gets pos len ∧ (∃ m, t = { s with fs := s.fs.tick m }) ∧
        ∀ i < len, b i = (s.fs.view k).content (pos.toNat + i))
      (fun _ _ => ¬ (s.fs.view k).Gets pos len ∧ ¬ Harmful pos len) fun _ _ => Harmful pos len := by
  rw [loadHeader,loadHeaderOf,wp_bind,Load.wp_kernel,
    wp_vopRead loadable.inv loadable.loaded loadable.regular rfl]
  have valid : (Uio.mkKuio (fun _ => 0) len pos .read).Valid := ⟨low,high,small⟩
  by_cases front : pos < 0
  · have notGets : ¬ (s.fs.view k).Gets pos len := by
      rw [FileView.Gets,if_neg (by omega)]
      omega
    refine wp_ends (sfsIo_before loadable rfl valid front) ?_ ?_
    · rintro _ t ⟨-,none_,-⟩
      exact absurd (show len = 0 from none_) (by omega)
    · exact fun _ _ h => ⟨notGets,h.1⟩
  · have sized : (Uio.mkKuio (fun _ => 0) len pos .read).Sized :=
      ⟨by simpa [Uio.mkKuio] using Int.not_lt.mp front,high,small,Nat.le_refl _,rfl⟩
    have safe : ¬ Harmful pos len := fun harmful => front harmful.1
    have gets : (s.fs.view k).Gets pos len ↔ Whole k ⟨s.fs,Uio.mkKuio (fun _ => 0) len pos .read⟩ := by
      rw [FileView.Gets,if_pos (by omega)]
      exact ⟨fun all => ⟨all,.inl rfl⟩,fun whole => whole.1⟩
    refine wp_safe (sfsIo_whole loadable.inv.consistent (.of_loaded loadable.loaded) loadable.loaded
      loadable.reliable rfl sized loadable.bound) ?_ ?_
    · rintro _ t ⟨⟨m,ticked⟩,done,moved⟩
      rw [wp_ite]
      refine ⟨fun short => ⟨fun all => short (done.mpr (gets.mp all)),safe⟩,fun all => ?_⟩
      have whole := done.mp (not_not.mp all)
      refine ⟨gets.mpr whole,⟨m,by rw [ticked]⟩,fun i lt => ?_⟩
      rw [moved whole]
      have inside : 0 ≤ i ∧ i < 0 + len := by omega
      simp only [Uio.moved,Uio.mkKuio,overwrite,Uio.pos,inside,and_self,if_true,Nat.sub_zero]
    · rintro e t ⟨-,short⟩
      exact ⟨fun all => short (gets.mp all),safe⟩

end Kernel

/-! Copies to user memory -/

def Addrspace.Reaches (as : Addrspace) (tlb : Nat → Bool) (addr : Nat) : Prop :=
  as.Complete ∧ addr < usertop.toNat ∧ (as.paddr (.ofNat addr &&& pageFrame)).isSome ∧ tlb addr = true

section User
variable {strict : Prop} {k : Nat} {s : Loader} (prepared : s.as.Prepared) {tlb : Nat → Bool}
include prepared

theorem userOk_iff {addr : Nat} : s.userOk tlb addr ↔ s.as.Reaches tlb addr := by
  have spec := vmFault_spec prepared (tlb addr) (.ofNat addr)
  unfold Exec.wp at spec
  simp only [Loader.userOk,Bool.and_eq_true,decide_eq_true_eq,Addrspace.Reaches]
  rcases h : vmFault (tlb addr) (.ofNat addr) s.as with ⟨_ | _ | _,t⟩ <;> simp only [h] at spec ⊢
  · exact ⟨fun both => ⟨spec.1,both.1,spec.2⟩,fun all => ⟨all.2.1,trivial⟩⟩
  · exact ⟨fun both => absurd both.2 nofun,fun all => absurd all.2.2 spec.2⟩
  · exact ⟨fun both => absurd both.2 nofun,fun all => absurd all.1 spec⟩

variable {call : Call SfsIo Unit} {u : Uio} {ok : Uio → Loader → Prop} {err : LoadErr → Loader → Prop}
  {halt : LoadPanic → Loader → Prop}

theorem wp_user_complete (complete : s.as.Complete)
    (run : call.wp ⟨s.fs,{ u with mem := s.mem, userOk := s.userOk tlb }⟩
      (fun _ t => ok t.uio { s with fs := t.fs, mem := t.uio.mem })
      (fun e t => err (.errno e) { s with fs := t.fs, mem := t.uio.mem })
      fun p t => halt (.fs p) { s with fs := t.fs, mem := t.uio.mem }) :
    (Load.user tlb call u).wp s ok err halt := by
  have spec := vmFault_spec prepared true (.ofNat u.iovBase)
  unfold Exec.wp at spec run ⊢
  unfold Load.user
  rcases h : vmFault true (.ofNat u.iovBase) s.as with ⟨_ | _ | _,t⟩ <;> simp only [h] at spec ⊢
  · rcases ended : call ⟨s.fs,{ u with mem := s.mem, userOk := s.userOk tlb }⟩ with ⟨_ | _ | _,v⟩ <;>
      simpa only [ended,Load.finish] using run
  · rcases ended : call ⟨s.fs,{ u with mem := s.mem, userOk := s.userOk tlb }⟩ with ⟨_ | _ | _,v⟩ <;>
      simpa only [ended,Load.finish] using run
  · exact absurd complete spec

theorem wp_user_incomplete (incomplete : ¬ s.as.Complete)
    (run : call.wp ⟨s.fs,{ u with mem := s.mem, userOk := fun addr => addr < usertop.toNat }⟩
      (fun _ t => if t.uio.iovBase = u.iovBase then ok t.uio { s with fs := t.fs, mem := t.uio.mem }
        else ∀ site, halt (.vm site) s)
      (fun e t => if t.uio.iovBase = u.iovBase then err (.errno e) { s with fs := t.fs, mem := t.uio.mem }
        else ∀ site, halt (.vm site) s)
      fun p t => if t.uio.iovBase = u.iovBase then halt (.fs p) { s with fs := t.fs, mem := t.uio.mem }
        else ∀ site, halt (.vm site) s) :
    (Load.user tlb call u).wp s ok err halt := by
  have spec := vmFault_spec prepared true (.ofNat u.iovBase)
  unfold Exec.wp at spec run ⊢
  unfold Load.user
  rcases h : vmFault true (.ofNat u.iovBase) s.as with ⟨_ | _ | site,t⟩ <;> simp only [h] at spec ⊢
  · exact absurd spec.1 incomplete
  · exact absurd spec.1 incomplete
  · rcases ended : call ⟨s.fs,{ u with mem := s.mem, userOk := fun addr => addr < usertop.toNat }⟩
      with ⟨_ | _ | _,v⟩ <;> simp only [ended] at run ⊢ <;>
      by_cases still : v.uio.iovBase = u.iovBase <;>
      simp only [still,if_true,if_false,Load.finish] at run ⊢
    all_goals first | exact run | exact run site

theorem wp_user_still
    (run : ∀ mapped : Nat → Bool, call.wp ⟨s.fs,{ u with mem := s.mem, userOk := mapped }⟩
      (fun _ t => t.uio.iovBase = u.iovBase ∧ ok t.uio { s with fs := t.fs, mem := t.uio.mem })
      (fun e t => t.uio.iovBase = u.iovBase ∧ err (.errno e) { s with fs := t.fs, mem := t.uio.mem })
      fun _ _ => ∀ p t, halt p t) :
    (Load.user tlb call u).wp s ok err halt := by
  by_cases complete : s.as.Complete
  · exact wp_user_complete prepared complete (wp_mono (run _) (fun _ _ h => h.2)
      (fun _ _ h => h.2) fun _ _ h => h _ _)
  · refine wp_user_incomplete prepared complete (wp_mono (run _) ?_ ?_ ?_)
    · rintro _ t ⟨still,done⟩
      rwa [if_pos still]
    · rintro e t ⟨still,failed⟩
      rwa [if_pos still]
    · intro p t any
      split
      · exact any _ _
      · exact fun _ => any _ _

end User

theorem open_below {u : Uio} (user : u.uioSegflg ≠ .sysspace)
    (below : u.userOk = fun addr => decide (addr < usertop.toNat)) {c : Nat} (some_ : 0 < c) :
    u.Open c ↔ u.iovBase + c ≤ usertop.toNat := by
  unfold Uio.Open
  simp only [user,false_or,below,decide_eq_true_eq]
  exact ⟨fun all => by have := all (c - 1) (by omega); omega,fun le i lt => by omega⟩

theorem firstCopy_pos {fs : SfsFs} {k p amount : Nat} (some_ : 0 < amount) :
    0 < fs.firstCopy k p amount := by
  unfold SfsFs.firstCopy
  split <;> omega

theorem readAmount_pos {size p resid : Nat} (inside : p < size) (some_ : 0 < resid) :
    0 < readAmount size p resid := by
  unfold readAmount
  split <;> omega

/-- The first copy of a read into user memory passes `copycheck`. -/
def SfsFs.Touches (fs : SfsFs) (k vaddr : Nat) (offset : Int) (len : Nat) : Prop :=
  0 < len ∧ 0 ≤ offset ∧ offset.toNat < (fs.view k).size ∧
    vaddr + fs.firstCopy k offset.toNat (readAmount (fs.view k).size offset.toNat len) ≤ usertop.toNat

structure Filling (fill : Nat) (u : Uio) : Prop where
  user : u.uioSegflg ≠ .sysspace
  read : u.uioRw = .read
  space : u.spaceOk = true
  valid : u.Valid
  resid : u.uioResid = 0
  len : fill ≤ u.iovLen

theorem Uio.Valid.filling {u : Uio} (valid : u.Valid) (space : u.spaceOk = true)
    (user : u.uioSegflg ≠ .sysspace) (read : u.uioRw = .read) (buf : Nat → UInt8) :
    Filling (u.iovLen - u.uioResid) (u.moved buf u.uioResid) where
  user := by rwa [Uio.moved_segflg]
  read := by rwa [Uio.moved_rw]
  space := by rw [Uio.moved_spaceOk,space]
  valid := Uio.moved_valid buf
  resid := by rw [Uio.moved_resid_of_le valid buf (Nat.le_refl _),Nat.sub_self]
  len := by rw [Uio.moved_iovLen]

theorem segmentUio_user (offset : Int) (vaddr memsize len : Nat) (isExecutable : Bool) :
    (segmentUio offset vaddr memsize len isExecutable).uioSegflg ≠ .sysspace := by
  cases isExecutable <;> exact nofun

section User
variable {strict : Prop} {k : Nat} {s : Loader} (prepared : s.as.Prepared) {tlb : Nat → Bool}
include prepared

theorem loadZeros_spec {fill : Nat} {u : Uio} (filling : Filling fill u) (small : fill < 2^32) :
    (loadZeros tlb fill u).wp s
      (fun _ t => (∀ i < fill, s.userOk tlb (u.iovBase + i)) ∧ t.fs = s.fs ∧ t.as = s.as)
      (fun _ _ => (¬ ∀ i < fill, s.userOk tlb (u.iovBase + i)) ∧
        ¬ (¬ s.as.Complete ∧ 0 < fill ∧ u.iovBase + min 16 fill ≤ usertop.toNat))
      fun _ _ => ¬ s.as.Complete ∧ 0 < fill ∧ u.iovBase + min 16 fill ≤ usertop.toNat := by
  rw [loadZeros,wp_ite]
  refine ⟨fun some_ => ?_,fun none_ => ⟨fun i lt => by omega,rfl,rfl⟩⟩
  have resid : (u.uioResid + fill) % 2^32 = fill := by
    rw [filling.resid,Nat.zero_add,Nat.mod_eq_of_lt small]
  have closed : ¬ s.as.Complete → ¬ ∀ i < fill, s.userOk tlb (u.iovBase + i) := fun incomplete all =>
    incomplete ((userOk_iff prepared).mp (all 0 some_)).1
  rw [resid,wp_bind]
  have valid : ∀ ok : Nat → Bool,
      ({ u with uioResid := fill, mem := s.mem, userOk := ok } : Uio).Valid := fun _ =>
    ⟨filling.valid.low,filling.valid.high,small⟩
  by_cases complete : s.as.Complete
  · refine wp_user_complete prepared complete ?_
    rw [SfsIo.wp_onUio]
    have reached : ({ u with uioResid := fill, mem := s.mem, userOk := s.userOk tlb } : Uio).Open fill ↔
        ∀ i < fill, s.userOk tlb (u.iovBase + i) := by
      unfold Uio.Open
      simp only [filling.user,false_or]
    refine wp_safe (Uio.uiomovezeros_spec (valid _) filling.space filling.read (Nat.le_refl _)
      filling.len) ?_ ?_
    · exact fun _ _ done => ⟨reached.mp done.1,rfl,rfl⟩
    · exact fun _ _ failed => ⟨mt reached.mpr failed.2.1,fun halts => halts.1 complete⟩
  · refine wp_user_incomplete prepared complete ?_
    rw [SfsIo.wp_onUio]
    have below := open_below (c := min 16 fill)
      (u := { u with uioResid := fill, mem := s.mem, userOk := fun addr => decide (addr < usertop.toNat) })
      filling.user rfl (by omega)
    refine wp_safe (Uio.uiomovezeros_starts (valid _) filling.space filling.read (Nat.le_refl _)
      filling.len some_) ?_ ?_
    · rintro _ t ⟨open_,past⟩
      rw [if_neg (by simp only at past ⊢; omega)]
      exact fun _ => ⟨complete,some_,below.mp open_⟩
    · rintro e t (⟨open_,past⟩ | ⟨shut,still⟩)
      · rw [if_neg (by simp only at past ⊢; omega)]
        exact fun _ => ⟨complete,some_,below.mp open_⟩
      · rw [if_pos (by simpa using still)]
        exact ⟨closed complete,fun halts => shut (below.mpr halts.2.2)⟩

theorem segmentRead_spec (loadable : Loadable strict k s.fs) {offset : Int} {vaddr memsize len : Nat}
    {isExecutable : Bool} (low : -2^31 ≤ offset) (high : offset < 2^31) (small : memsize < 2^32)
    (le : len ≤ memsize) :
    (Load.user tlb (vopRead k) (segmentUio offset vaddr memsize len isExecutable)).wp s
      (fun u t => (∃ m, t.fs = s.fs.tick m) ∧ t.as = s.as ∧
        (u.uioResid = 0 ↔ (s.fs.view k).Gets offset len ∧ ∀ i < len, s.userOk tlb (vaddr + i)) ∧
        (u.uioResid = 0 → Filling (memsize - len) u ∧ u.iovBase = vaddr + len) ∧
        ¬ (Harmful offset len ∨ ¬ s.as.Complete ∧ s.fs.Touches k vaddr offset len))
      (fun _ _ => ¬ ((s.fs.view k).Gets offset len ∧ ∀ i < len, s.userOk tlb (vaddr + i)) ∧
        ¬ (Harmful offset len ∨ ¬ s.as.Complete ∧ s.fs.Touches k vaddr offset len))
      fun _ _ => Harmful offset len ∨ ¬ s.as.Complete ∧ s.fs.Touches k vaddr offset len := by
  have user := segmentUio_user offset vaddr memsize len isExecutable
  generalize made : segmentUio offset vaddr memsize len isExecutable = u at user
  have base : u.iovBase = vaddr := by rw [← made]; rfl
  have iovLen : u.iovLen = memsize := by rw [← made]; rfl
  have off : u.uioOffset = offset := by rw [← made]; rfl
  have resid : u.uioResid = len := by rw [← made]; rfl
  have read : u.uioRw = .read := by rw [← made]; rfl
  have spaceOk : u.spaceOk = true := by rw [← made]; rfl
  clear made
  subst base iovLen off resid
  have reads : ∀ ok : Nat → Bool, ({ u with mem := s.mem, userOk := ok } : Uio).uioRw = .read :=
    fun _ => read
  have valid : ∀ ok : Nat → Bool, ({ u with mem := s.mem, userOk := ok } : Uio).Valid := fun _ =>
    ⟨low,high,by simp only; omega⟩
  have still : ∀ ok : Nat → Bool, u.uioResid = 0 →
      Filling (u.iovLen - u.uioResid) ({ u with mem := s.mem, userOk := ok } : Uio) := fun ok empty =>
    ⟨user,read,spaceOk,valid ok,empty,Nat.sub_le _ _⟩
  by_cases front : u.uioOffset < 0
  · -- in front of the file, where nothing is copied
    have outside : ¬ (¬ s.as.Complete ∧ s.fs.Touches k u.iovBase u.uioOffset u.uioResid) :=
      fun touches => by
        have := touches.2.2.1
        omega
    have gets : ¬ Harmful u.uioOffset u.uioResid → (u.uioResid = 0 ↔
        (s.fs.view k).Gets u.uioOffset u.uioResid ∧ ∀ i < u.uioResid, s.userOk tlb (u.iovBase + i)) := by
      intro safe
      rw [FileView.Gets,if_neg (by omega)]
      refine ⟨fun empty => ⟨⟨empty,?_⟩,fun i lt => by omega⟩,fun both => both.1.1⟩
      by_contra unaligned
      exact safe ⟨front,by unfold FrontSafe; omega⟩
    refine wp_user_still prepared fun mapped => ?_
    rw [wp_vopRead loadable.inv loadable.loaded loadable.regular (reads _)]
    refine wp_mono (sfsIo_before loadable (reads mapped) (valid mapped) front) ?_ ?_
      fun _ _ harmful _ _ => .inl harmful
    · rintro _ t ⟨safe,-,rfl⟩
      exact ⟨rfl,⟨0,(tick_zero _).symm⟩,rfl,gets safe,
        fun empty => ⟨still _ empty,by simp only at empty ⊢; omega⟩,fun bad => bad.elim safe outside⟩
    · rintro e t ⟨safe,some_,rfl⟩
      exact ⟨rfl,fun both => some_ ((gets safe).mpr both),fun bad => bad.elim safe outside⟩
  · have safe : ¬ Harmful u.uioOffset u.uioResid := fun harmful => front harmful.1
    have whole : ∀ mapped : Nat → Bool,
        Whole k ⟨s.fs,{ u with mem := s.mem, userOk := mapped }⟩ ↔
          (s.fs.view k).Gets u.uioOffset u.uioResid ∧ ∀ i < u.uioResid, mapped (u.iovBase + i) := by
      intro mapped
      rw [FileView.Gets,if_pos (by omega),Whole]
      simp only [Uio.Open,user,false_or,Uio.pos]
    have sized : ∀ mapped : Nat → Bool, ({ u with mem := s.mem, userOk := mapped } : Uio).Sized :=
      fun _ => ⟨by simpa using front,high,by simp only; omega,by simpa using le,spaceOk⟩
    have spec := fun mapped : Nat → Bool =>
      sfsIo_whole (a := ⟨s.fs,{ u with mem := s.mem, userOk := mapped }⟩) loadable.inv.consistent
        (Live.of_loaded loadable.loaded) loadable.loaded loadable.reliable (reads mapped) (sized mapped)
        loadable.bound
    by_cases none_ : u.uioResid = 0
    · have gets : ∀ mapped : Nat → Bool, (s.fs.view k).Gets u.uioOffset u.uioResid ∧
          ∀ i < u.uioResid, mapped (u.iovBase + i) := by
        intro mapped
        rw [FileView.Gets,if_pos (by omega),none_]
        exact ⟨Nat.le_zero.mp (readLength_le loadable.bound),fun i lt => by omega⟩
      refine wp_user_still prepared fun mapped => ?_
      rw [wp_vopRead loadable.inv loadable.loaded loadable.regular (reads _)]
      refine wp_safe (spec mapped) ?_ ?_
      · rintro _ t ⟨ticked,done,moved⟩
        have all := (whole mapped).mpr (gets mapped)
        refine ⟨?_,ticked,rfl,⟨fun _ => gets _,fun _ => done.mpr all⟩,fun _ => ⟨?_,?_⟩,?_⟩
        · rw [moved all,Uio.moved_iovBase]
          simp only [none_,Nat.add_zero]
        · rw [moved all]
          exact (sized mapped).valid.filling spaceOk user read _
        · rw [moved all,Uio.moved_iovBase]
        · exact fun bad => bad.elim safe fun touches => absurd touches.2.1 (by omega)
      · exact fun _ _ failed => absurd ((whole mapped).mpr (gets mapped)) failed.2
    by_cases past : ((s.fs.view k).size : Int) ≤ u.uioOffset
    · have notGets : ¬ ((s.fs.view k).Gets u.uioOffset u.uioResid ∧
          ∀ i < u.uioResid, s.userOk tlb (u.iovBase + i)) := by
        rintro ⟨gets,-⟩
        rw [FileView.Gets,if_pos (by omega),readLength,if_pos (by omega)] at gets
        exact none_ gets.symm
      refine wp_user_still prepared fun mapped => ?_
      rw [wp_vopRead loadable.inv loadable.loaded loadable.regular (reads _),
        wp_sfsIo_past loadable (reads mapped) past]
      refine ⟨rfl,⟨0,(tick_zero _).symm⟩,rfl,⟨fun done => absurd done none_,fun gets => absurd gets notGets⟩,
        fun done => absurd done none_,?_⟩
      rintro (harmful | touches)
      · exact safe harmful
      · have := touches.2.2.2.1
        omega
    by_cases complete : s.as.Complete
    · have notTouched : ¬ (Harmful u.uioOffset u.uioResid ∨
          ¬ s.as.Complete ∧ s.fs.Touches k u.iovBase u.uioOffset u.uioResid) :=
        fun bad => bad.elim safe fun halts => halts.1 complete
      refine wp_user_complete prepared complete ?_
      rw [wp_vopRead loadable.inv loadable.loaded loadable.regular (reads _)]
      refine wp_safe (spec _) ?_ ?_
      · rintro _ t ⟨ticked,done,moved⟩
        refine ⟨ticked,rfl,done.trans (whole _),fun all => ?_,notTouched⟩
        rw [moved (done.mp all)]
        exact ⟨(sized _).valid.filling spaceOk user read _,Uio.moved_iovBase _ _ _⟩
      · exact fun _ _ failed => ⟨fun both => failed.2 ((whole _).mpr both),notTouched⟩
    · have closed : ¬ ((s.fs.view k).Gets u.uioOffset u.uioResid ∧
          ∀ i < u.uioResid, s.userOk tlb (u.iovBase + i)) := fun both =>
        complete ((userOk_iff prepared).mp (both.2 0 (by omega))).1
      refine wp_user_incomplete prepared complete ?_
      rw [wp_vopRead loadable.inv loadable.loaded loadable.regular (reads _)]
      generalize first : s.fs.firstCopy k u.uioOffset.toNat
        (readAmount (s.fs.view k).size u.uioOffset.toNat u.uioResid) = c
      have some_ : 0 < c := by
        rw [← first]
        exact firstCopy_pos (readAmount_pos (by omega) (by omega))
      have touches : s.fs.Touches k u.iovBase u.uioOffset u.uioResid ↔ u.iovBase + c ≤ usertop.toNat := by
        unfold SfsFs.Touches
        rw [first]
        exact ⟨fun h => h.2.2.2,fun le => ⟨by omega,by omega,by omega,le⟩⟩
      have below := open_below (u := { u with mem := s.mem, userOk := fun addr => decide (addr < usertop.toNat) })
        user rfl some_
      refine wp_safe (sfsIo_starts loadable.inv.consistent (Live.of_loaded loadable.loaded)
        loadable.loaded loadable.reliable (reads _) (sized _) loadable.bound (by simp only [Uio.pos]; omega)
        (by simp only; omega) first.symm) ?_ ?_
      · rintro _ t ⟨open_,past⟩
        rw [if_neg (by simp only at past ⊢; omega)]
        exact fun _ => .inr ⟨complete,touches.mpr (below.mp open_)⟩
      · rintro e t (⟨open_,past⟩ | ⟨shut,still⟩)
        · rw [if_neg (by simp only at past ⊢; omega)]
          exact fun _ => .inr ⟨complete,touches.mpr (below.mp open_)⟩
        · rw [if_pos (by simpa using still)]
          exact ⟨closed,fun bad => bad.elim safe fun halts => shut (below.mpr (touches.mp halts.2))⟩

end User

/-! A segment -/

def Phdr.fileLen (ph : Phdr) : Nat := min ph.pFilesz ph.pMemsz

/-- The file has its part of the segment, and the memory is there. -/
def Phdr.Fits (f : FileView) (as : Addrspace) (tlb : Nat → Bool) (ph : Phdr) : Prop :=
  f.Gets (i32 ph.pOffset) ph.fileLen ∧ ∀ i < ph.pMemsz, as.Reaches tlb (ph.pVaddr + i)

/-- A segment that halts the machine: its file offset trips an assertion of `sfs_io`, or it gets to
`vm_fault` when the regions are not what that expects. -/
def Phdr.Hostile (fs : SfsFs) (k : Nat) (as : Addrspace) (ph : Phdr) : Prop :=
  (Harmful (i32 ph.pOffset) ph.fileLen ∨
      ¬ as.Complete ∧ fs.Touches k ph.pVaddr (i32 ph.pOffset) ph.fileLen) ∨
    ¬ as.Complete ∧ ph.fileLen = 0 ∧ 0 < ph.pMemsz ∧ ph.pVaddr + min 16 ph.pMemsz ≤ usertop.toNat

section Segment
variable {strict : Prop} {k : Nat} {s : Loader} (prepared : s.as.Prepared) (tlb : Nat → Bool)
include prepared

theorem loadContents_spec (loadable : Loadable strict k s.fs) {ph : Phdr} (small : ph.pMemsz < 2^32) :
    (loadContents k tlb ph).wp s
      (fun _ t => ph.Fits (s.fs.view k) s.as tlb ∧ ¬ ph.Hostile s.fs k s.as ∧ (∃ m, t.fs = s.fs.tick m) ∧
        t.as = s.as)
      (fun _ _ => ¬ ph.Fits (s.fs.view k) s.as tlb ∧ ¬ ph.Hostile s.fs k s.as)
      fun _ _ => ph.Hostile s.fs k s.as := by
  have len : (if ph.pFilesz > ph.pMemsz then ph.pMemsz else ph.pFilesz) = ph.fileLen := by
    unfold Phdr.fileLen
    split <;> omega
  have le : ph.fileLen ≤ ph.pMemsz := Nat.min_le_right _ _
  have reached : ∀ i, s.userOk tlb (ph.pVaddr + i) ↔ s.as.Reaches tlb (ph.pVaddr + i) := fun i =>
    userOk_iff prepared
  have empty : ¬ Harmful (i32 ph.pOffset) ph.fileLen → ph.fileLen = 0 →
      (s.fs.view k).Gets (i32 ph.pOffset) ph.fileLen ∧
        ∀ i < ph.fileLen, s.userOk tlb (ph.pVaddr + i) := by
    intro safe none_
    rw [none_] at safe ⊢
    exact ⟨loadable.gets_empty safe,fun i lt => by omega⟩
  rw [loadContents,loadContentsOf,loadSegmentOf]
  simp only [len]
  rw [wp_bind]
  refine wp_mono (segmentRead_spec prepared loadable (i32_low _) (i32_high _) small le)
    ?_ ?_ fun _ _ => .inl
  · rintro u t ⟨⟨m,ticked⟩,same,done,filling,safe⟩
    rw [wp_ite]
    refine ⟨fun short => ⟨fun fits => ?_,?_⟩,fun all => ?_⟩
    · exact short (done.mpr ⟨fits.1,fun i lt => (reached i).mpr (fits.2 i (by omega))⟩)
    · rintro (bad | ⟨-,none_,-⟩)
      · exact safe bad
      · exact short (done.mpr (empty (fun harmful => safe (.inl harmful)) none_))
    · obtain ⟨rest,base⟩ := filling (not_not.mp all)
      obtain ⟨gets,front⟩ := done.mp (not_not.mp all)
      have prepared' : t.as.Prepared := same ▸ prepared
      have back : (∀ i < ph.pMemsz - ph.fileLen, t.userOk tlb (u.iovBase + i)) ↔
          ∀ i < ph.pMemsz, s.as.Reaches tlb (ph.pVaddr + i) := by
        simp only [base,userOk_iff prepared',same]
        refine ⟨fun zeros i lt => ?_,fun all i lt => ?_⟩
        · by_cases inFile : i < ph.fileLen
          · exact (reached i).mp (front i inFile)
          · have := zeros (i - ph.fileLen) (by omega)
            rwa [Nat.add_assoc,Nat.add_sub_of_le (by omega)] at this
        · rw [Nat.add_assoc]
          exact all _ (by omega)
      have tail : (loadZeros tlb (ph.pMemsz - ph.fileLen) u).wp t _ _ _ :=
        loadZeros_spec prepared' rest (by omega)
      simp only [same] at tail
      refine wp_mono tail ?_ ?_ ?_
      · rintro _ v ⟨zeros,fs,as⟩
        refine ⟨⟨gets,back.mp zeros⟩,?_,⟨m,by rw [fs,ticked]⟩,as⟩
        rintro (bad | ⟨incomplete,-,some_,-⟩)
        · exact safe bad
        · exact incomplete (back.mp zeros 0 some_).1
      · rintro e v ⟨zeros,quiet⟩
        refine ⟨fun fits => zeros (back.mpr fits.2),?_⟩
        rintro (bad | ⟨incomplete,none_,some_,below⟩)
        · exact safe bad
        · rw [base,none_] at quiet
          exact quiet ⟨incomplete,some_,below⟩
      · rintro p v ⟨incomplete,some_,below⟩
        have none_ : ph.fileLen = 0 := by
          by_contra some'
          exact incomplete ((reached 0).mp (front 0 (by omega))).1
        rw [base,none_] at below
        rw [none_] at some_
        exact .inr ⟨incomplete,none_,some_,below⟩
  · rintro e t ⟨short,safe⟩
    refine ⟨fun fits => short ⟨fits.1,fun i lt => (reached i).mpr (fits.2 i (by omega))⟩,?_⟩
    rintro (bad | ⟨-,none_,-⟩)
    · exact safe bad
    · exact short (empty (fun harmful => safe (.inl harmful)) none_)

end Segment

end Os161
