import Os161.SfsVnode

/-! What file I/O on one vnode cannot do: however it ends, the other vnodes in memory are
as they were, and so is the device under the file system. Both follow from what the
primitive steps may change. -/
namespace Os161

namespace SfsFs

/-- `R` allows the steps that I/O on the file of inode `k` is made of. -/
structure IoFrame (k : Nat) (R : SfsFs → SfsFs → Prop) : Prop where
  disk : ∀ s d, R s (s.setDisk d)
  freemap : ∀ s b, R s { s with sfsFreemap := b }
  dirty : ∀ s, R s { s with sfsFreemapdirty := true }
  inode : ∀ s (f : SfsInode → SfsInode),
    R s (s.update k fun v => { v with svI := f v.svI, svDirty := true })

def OnlyVnode (k : Nat) (s t : SfsFs) : Prop := ∀ j, j ≠ k → t.vnode? j = s.vnode? j

instance (k : Nat) : IsPreorder SfsFs (OnlyVnode k) where
  refl _ := fun _ _ => rfl
  trans _ _ _ first second := fun j ne => (second j ne).trans (first j ne)

theorem onlyVnode_ioFrame (k : Nat) : IoFrame k (OnlyVnode k) where
  disk _ _ _ _ := rfl
  freemap _ _ _ _ := rfl
  dirty _ _ _ := rfl
  inode s f j ne := by rw [vnode?_update s k (fun _ => by rfl),if_neg ne]

def SameDevice (s t : SfsFs) : Prop :=
  t.sfsDevice.dIo = s.sfsDevice.dIo ∧ t.sfsDevice.dBlocks = s.sfsDevice.dBlocks

instance : IsPreorder SfsFs SameDevice where
  refl _ := ⟨rfl,rfl⟩
  trans _ _ _ first second := ⟨second.1.trans first.1,second.2.trans first.2⟩

theorem sameDevice_ioFrame (k : Nat) : IoFrame k SameDevice where
  disk _ _ := ⟨rfl,rfl⟩
  freemap _ _ := ⟨rfl,rfl⟩
  dirty _ := ⟨rfl,rfl⟩
  inode _ _ := ⟨rfl,rfl⟩

end SfsFs

open SfsFs Exec

/-- `R` allows the steps of file I/O on a file system and a uio, where those on the file system alone
do what `F` says. -/
structure IoSteps (k : Nat) (F : SfsFs → SfsFs → Prop) (R : SfsIo → SfsIo → Prop) : Prop where
  frame : IoFrame k F
  onFs : ∀ {α : Type} {call : Sfs α}, Keeps F call → Keeps R (SfsIo.onFs call)
  move : ∀ buf n, Keeps R (SfsIo.onUio (Uio.uiomove buf n))
  zeros : ∀ n, Keeps R (SfsIo.onUio (Uio.uiomovezeros n))
  rwblock : Keeps R sfsRwblock
  cursor : ∀ io offset resid, R io { io with uio := { io.uio with uioOffset := offset, uioResid := resid } }

def SfsIo.Lift (R : SfsFs → SfsFs → Prop) (a b : SfsIo) : Prop := R a.fs b.fs

instance (R : SfsFs → SfsFs → Prop) [IsPreorder SfsFs R] : IsPreorder SfsIo (SfsIo.Lift R) where
  refl a := Std.Refl.refl a.fs
  trans _ _ _ first second := IsTrans.trans (r := R) _ _ _ first second

section Frames
variable {R : SfsFs → SfsFs → Prop}

theorem withUio_keeps {call : Call SfsIo α} (keeps : Keeps (SfsIo.Lift R) call) (u : Uio) :
    Keeps R (Sfs.withUio u call) := by
  intro s
  have one : R s (call ⟨s,u⟩).2.fs := keeps ⟨s,u⟩
  unfold Sfs.withUio
  rcases h : call ⟨s,u⟩ with ⟨_ | _ | _, t⟩ <;> simpa only [h] using one

theorem updateInode_keeps {k : Nat} (frame : IoFrame k R) (f : SfsInode → SfsInode) :
    Keeps R (Sfs.updateInode k f) :=
  keeps_modify fun s => frame.inode s f

variable [IsPreorder SfsFs R]

theorem vnode_keeps (j : Nat) : Keeps R (Sfs.vnode j) := by
  refine keeps_bind keeps_read fun s => ?_
  cases s.vnode? j
  · exact keeps_panic _
  · exact keeps_pure _

theorem handBack_keeps (j n b : Nat) : Keeps R (handBack j n b) := by
  refine keeps_ite _ (keeps_bind ?_ fun _ => keeps_bind (keeps_assert _ _) fun _ => keeps_pure _)
    (keeps_pure _)
  exact keeps_bind keeps_read fun _ => keeps_bind (keeps_assert _ _) fun _ => keeps_pure _

variable {k : Nat} (frame : IoFrame k R)
include frame

theorem sfsRwblock_keeps : Keeps (SfsIo.Lift R) sfsRwblock :=
  keeps_bind keeps_read fun _ io => frame.disk io.fs _

theorem sfsRblock_keeps (b : Nat) : Keeps R (sfsRblock b) :=
  keeps_bind (withUio_keeps (sfsRwblock_keeps frame) _) fun _ => keeps_pure _

theorem sfsWblock_keeps (d : Block) (b : Nat) : Keeps R (sfsWblock d b) :=
  keeps_bind (withUio_keeps (sfsRwblock_keeps frame) _) fun _ => keeps_pure _

theorem sfsBalloc_keeps : Keeps R sfsBalloc := by
  refine keeps_bind (fun s => frame.freemap s _) fun b => keeps_bind (keeps_modify frame.dirty) fun _ =>
    keeps_bind keeps_read fun _ => keeps_bind (keeps_assert _ _) fun _ =>
    keeps_bind (sfsWblock_keeps frame _ _) fun _ => keeps_pure _

theorem sfsBmap_keeps (n : Nat) (doalloc : Bool) : Keeps (R) (sfsBmap k n doalloc) := by
  have direct : Keeps (R) (bmapDirect k n doalloc) :=
    keeps_bind (vnode_keeps k) fun _ => keeps_ite _
      (keeps_bind (sfsBalloc_keeps frame) fun _ => keeps_bind (updateInode_keeps frame _) fun _ =>
        handBack_keeps _ _ _)
      (handBack_keeps _ _ _)
  have indirect : ∀ b, Keeps (R) (bmapIdblock k b) := fun b => keeps_ite _
    (keeps_bind (sfsBalloc_keeps frame) fun _ => keeps_bind (updateInode_keeps frame _) fun _ =>
      keeps_pure _)
    (keeps_bind (sfsRblock_keeps frame _) fun _ => keeps_pure _)
  have slot : ∀ b d j, Keeps (R) (bmapSlot k b d j doalloc) := fun b d j => keeps_ite _
    (keeps_bind (sfsBalloc_keeps frame) fun _ => keeps_bind (sfsWblock_keeps frame _ _) fun _ =>
      handBack_keeps _ _ _)
    (handBack_keeps _ _ _)
  refine keeps_ite _ direct (keeps_ite _ (keeps_fail _) ?_)
  exact keeps_bind (vnode_keeps k) fun _ => keeps_ite _ (keeps_pure _)
    (keeps_bind (indirect _) fun _ => slot _ _ _)

theorem SfsFs.IoFrame.steps : IoSteps k R (SfsIo.Lift R) where
  frame := frame
  onFs keeps io := keeps io.fs
  move _ _ io := Std.Refl.refl io.fs
  zeros _ io := Std.Refl.refl io.fs
  rwblock := sfsRwblock_keeps frame
  cursor io _ _ := Std.Refl.refl io.fs

section Steps
variable {R' : SfsIo → SfsIo → Prop} [IsPreorder SfsIo R'] (steps : IoSteps k R R')
omit frame
include steps

theorem sfsPartialio_keeps (start len : Nat) : Keeps R' (sfsPartialio k start len) := by
  have frame := steps.frame
  have fetch : ∀ rw_ b, Keeps R' (partialioFetch rw_ b) := fun _ _ => keeps_ite _
    (keeps_bind (keeps_assert _ _) fun _ => keeps_pure _) (steps.onFs (sfsRblock_keeps frame _))
  refine keeps_bind keeps_read fun _ => keeps_bind (keeps_assert _ _) fun _ =>
    keeps_bind (steps.onFs (sfsBmap_keeps frame _ _)) fun _ => keeps_bind (fetch _ _) fun _ =>
    keeps_bind (keeps_assert _ _) fun _ => keeps_bind (steps.move _ _) fun _ => ?_
  exact keeps_ite _ (steps.onFs (sfsWblock_keeps frame _ _)) (keeps_pure _)

omit [IsPreorder SfsFs R] in
theorem blockioDirect_keeps (b : Nat) : Keeps R' (blockioDirect b) := by
  have cursor : ∀ (offset : SfsIo → Int) (resid : SfsIo → Nat), Keeps R' (modify fun io =>
      { io with uio := { io.uio with uioOffset := offset io, uioResid := resid io } } : Call SfsIo Unit) :=
    fun _ _ => keeps_modify fun io => steps.cursor io _ _
  unfold blockioDirect
  refine keeps_bind keeps_read fun _ => keeps_bind (keeps_assert _ _) fun _ =>
    keeps_bind (cursor _ _) fun _ => keeps_bind (keeps_attempt steps.rwblock) fun _ => ?_
  exact keeps_bind (cursor _ _) fun _ => keeps_give _

theorem sfsBlockio_keeps : Keeps R' (sfsBlockio k) := by
  refine keeps_bind keeps_read fun _ =>
    keeps_bind (steps.onFs (sfsBmap_keeps steps.frame _ _)) fun _ => ?_
  exact keeps_ite _ (keeps_bind (keeps_assert _ _) fun _ => steps.zeros _) (blockioDirect_keeps steps _)

theorem ioBlocks_keeps (count i : Nat) : Keeps R' (do
    loop (fun _ _ => sfsBlockio k) count i ()
    let u := (← read).uio
    assert (u.uioResid < 512) .ioTail
    if u.uioResid > 0 then sfsPartialio k 0 u.uioResid else pure () : Call SfsIo Unit) :=
  keeps_bind (keeps_loop (fun _ _ => sfsBlockio_keeps steps) _ _ _) fun _ =>
    keeps_bind keeps_read fun _ => keeps_bind (keeps_assert _ _) fun _ =>
    keeps_ite _ (sfsPartialio_keeps steps _ _) (keeps_pure _)

theorem ioAligned_keeps : Keeps R' (ioAligned k) :=
  keeps_bind keeps_read fun _ => keeps_ite _ (keeps_pure _)
    (keeps_bind (keeps_assert _ _) fun _ => ioBlocks_keeps steps _ _)

theorem ioRun_keeps (extraresid : Nat) : Keeps R' (ioRun k extraresid) := by
  have leading : Keeps R' (ioLeading k) :=
    keeps_bind keeps_read fun _ => keeps_ite _ (sfsPartialio_keeps steps _ _) (keeps_pure _)
  have back : Keeps R' (SfsIo.onUio (modify fun u =>
      { u with uioResid := (u.uioResid + extraresid) % 2^32 }) : Call SfsIo Unit) :=
    fun io => steps.cursor io _ _
  refine keeps_bind (keeps_attempt (keeps_bind leading fun _ => ioAligned_keeps steps)) fun _ => ?_
  unfold ioOut
  refine keeps_bind keeps_read fun _ => keeps_bind (steps.onFs (vnode_keeps k)) fun _ => ?_
  refine keeps_ite _ ?_ ?_
  · exact keeps_bind (steps.onFs (updateInode_keeps steps.frame _)) fun _ =>
      keeps_bind back fun _ => keeps_give _
  · exact keeps_bind back fun _ => keeps_give _

theorem sfsIo_keeps : Keeps R' (sfsIo k) := by
  refine keeps_bind keeps_read fun io => ?_
  cases io.uio.uioRw
  · refine keeps_bind (steps.onFs (vnode_keeps k)) fun _ => keeps_ite _ (keeps_pure _) ?_
    refine keeps_ite _ (keeps_bind (keeps_assert _ _) fun _ => keeps_bind ?_ fun _ => ioRun_keeps steps _)
      (ioRun_keeps steps _)
    exact fun io => steps.cursor io _ _
  · exact ioRun_keeps steps 0

end Steps

theorem sfsReaddir_keeps (slot : Nat) : Keeps R (sfsReaddir k slot) :=
  keeps_bind (withUio_keeps (sfsIo_keeps frame.steps) _) fun _ =>
    keeps_bind (keeps_assert _ _) fun _ => keeps_pure _

theorem sfsWritedir_keeps (sd : SfsDir) (slot : Nat) : Keeps R (sfsWritedir k sd slot) :=
  keeps_bind (withUio_keeps (sfsIo_keeps frame.steps) _) fun _ => keeps_assert _ _

omit frame in
theorem sfsDirNentries_keeps (j : Nat) : Keeps R (sfsDirNentries j) :=
  keeps_bind (vnode_keeps j) fun _ => keeps_bind (keeps_assert _ _) fun _ =>
    keeps_bind (keeps_assert _ _) fun _ => keeps_pure _

theorem sfsDirFindname_keeps (name : CString) : Keeps R (sfsDirFindname k name) := by
  refine keeps_bind (sfsDirNentries_keeps k) fun _ => keeps_loop (fun i r => ?_) _ _ _
  refine keeps_bind (sfsReaddir_keeps frame i) fun _ => keeps_ite _ (keeps_pure _) ?_
  exact keeps_ite _ (keeps_bind (keeps_assert _ _) fun _ => keeps_pure _) (keeps_pure _)

theorem sfsDirLink_keeps (name : CString) (ino : Nat) : Keeps R (sfsDirLink k name ino) := by
  have write : ∀ slot, Keeps R (do sfsWritedir k (SfsDir.make ino name.chars) slot; return slot) :=
    fun slot => keeps_bind (sfsWritedir_keeps frame _ slot) fun _ => keeps_pure _
  refine keeps_bind (sfsDirFindname_keeps frame name) fun r => keeps_ite _ (keeps_fail _) ?_
  refine keeps_ite _ (keeps_fail _) ?_
  cases r.emptyslot with
  | none => exact keeps_bind (sfsDirNentries_keeps k) write
  | some slot => exact keeps_bind (keeps_pure slot) write

theorem sfsBfree_keeps (b : Nat) : Keeps R (sfsBfree b) :=
  keeps_bind (fun s => frame.freemap s _) fun _ => keeps_modify frame.dirty

theorem truncateIndirect_keeps (blocklen : Nat) : Keeps R (truncateIndirect k blocklen) := by
  have slot : ∀ j l, Keeps R (truncateSlot blocklen j l) := fun j l =>
    keeps_ite _ (keeps_bind (sfsBfree_keeps frame _) fun _ => keeps_pure _)
      (keeps_ite _ (keeps_pure _) (keeps_pure _))
  refine keeps_bind (vnode_keeps k) fun _ => keeps_ite _ ?_ (keeps_pure _)
  refine keeps_bind (sfsRblock_keeps frame _) fun _ => keeps_bind (keeps_loop slot _ _ _) fun l => ?_
  refine keeps_ite _ (keeps_bind (sfsBfree_keeps frame _) fun _ => updateInode_keeps frame _) ?_
  exact keeps_ite _ (sfsWblock_keeps frame _ _) (keeps_pure _)

theorem sfsTruncate_keeps (len : Int) : Keeps R (sfsTruncate k len) := by
  have direct : ∀ i (_ : Unit), Keeps R (truncateDirect k (truncateBlocklen len) i) := fun i _ =>
    keeps_bind (vnode_keeps k) fun _ => keeps_ite _
      (keeps_bind (sfsBfree_keeps frame _) fun _ => updateInode_keeps frame _) (keeps_pure _)
  exact keeps_bind (keeps_loop direct _ _ _) fun _ =>
    keeps_bind (truncateIndirect_keeps frame _) fun _ => updateInode_keeps frame _

end Frames

section Giving
variable {k : Nat}

theorem update_others {f : SfsVnode → SfsVnode} (ino : ∀ v, (f v).svIno = v.svIno) :
    Keeps (OnlyVnode k) (Sfs.update k f) :=
  keeps_modify fun s j ne => by rw [vnode?_update s k ino,if_neg ne]

theorem drop_others (s : SfsFs) : OnlyVnode k s (s.drop k) := by
  intro j ne
  simp only [vnode?,drop]
  induction s.sfsVnodes with
  | nil => rfl
  | cons v vs ih =>
    by_cases here : v.svIno = k
    · rw [List.eraseP_cons_of_pos (by simpa using here),List.find?_cons_of_neg (by simp; omega)]
    · rw [List.eraseP_cons_of_neg (by simpa using here),List.find?_cons,List.find?_cons,ih]

theorem sfsSyncInode_others : Keeps (OnlyVnode k) (sfsSyncInode k) := by
  refine keeps_bind (vnode_keeps k) fun _ => keeps_ite _ (keeps_bind ?_ fun _ => ?_) (keeps_pure _)
  · exact sfsWblock_keeps (onlyVnode_ioFrame k) _ _
  · exact update_others fun _ => rfl

theorem sfsReclaim_others : Keeps (OnlyVnode k) (sfsReclaim k) := by
  have erase : Keeps (OnlyVnode k) (reclaimErase k) := by
    refine keeps_bind (vnode_keeps k) fun _ => keeps_ite _ (keeps_bind ?_ fun v => ?_) (keeps_pure _)
    · exact keeps_bind (vnode_keeps k) fun _ => keeps_bind (keeps_assert _ _) fun _ => keeps_pure _
    · cases v.vnOps with
      | fileops => exact sfsTruncate_keeps (onlyVnode_ioFrame k) 0
      | dirops => exact keeps_fail _
  have discard : Keeps (OnlyVnode k) (reclaimDiscard k) :=
    keeps_bind (vnode_keeps k) fun _ => keeps_ite _ (sfsBfree_keeps (onlyVnode_ioFrame k) _) (keeps_pure _)
  have drop : Keeps (OnlyVnode k) (reclaimDrop k) := by
    intro s
    simp only [reclaimDrop,bind,read]
    cases s.vnode? k with
    | none => exact Std.Refl.refl s
    | some v =>
      have kill : Keeps (OnlyVnode k) (vnodeKill v) :=
        keeps_bind (keeps_assert _ _) fun _ => keeps_assert _ _
      exact fun j ne => (kill (s.drop k) j ne).trans (drop_others s j ne)
  refine keeps_bind (vnode_keeps k) fun _ => keeps_ite _ ?_ ?_
  · exact keeps_bind (keeps_assert _ _) fun _ => keeps_bind (update_others fun _ => rfl) fun _ =>
      keeps_fail _
  · exact keeps_bind erase fun _ => keeps_bind sfsSyncInode_others fun _ =>
      keeps_bind discard fun _ => drop

theorem vnodeDecref_others : Keeps (OnlyVnode k) (vnodeDecref k) := by
  refine keeps_bind (vnode_keeps k) fun _ => keeps_bind (keeps_assert _ _) fun _ => keeps_ite _ ?_ ?_
  · exact update_others fun _ => rfl
  · exact keeps_bind (keeps_attempt sfsReclaim_others) fun _ => keeps_pure _

end Giving

theorem sfsWritedir_others (k : Nat) (sd : SfsDir) (slot : Nat) :
    Keeps (OnlyVnode k) (sfsWritedir k sd slot) := sfsWritedir_keeps (onlyVnode_ioFrame k) sd slot

end Os161
