import Mathlib.Logic.Relation
import Os161.Mksfs
import Os161.SfsNamespace

/-! Whole runs of a mounted file system: what every operation keeps, every sequence of
operations keeps. -/
namespace Os161

open SfsFs

/-! The operations on one file -/

section Vop
variable {strict : Prop} {s : SfsFs} {k : Nat} {u : Uio} {ok : Unit → SfsIo → Prop}
  {err : Errno → SfsIo → Prop} {halt : Panic → SfsIo → Prop}

section
variable (inv : Inv strict s)
include inv

theorem SfsFs.Inv.fileops {v : SfsVnode} (found : s.vnode? k = some v)
    (notRoot : k ≠ 1) : v.vnRefcount ≠ 0 ∧ v.vnOps = .fileops := by
  have ops := inv.consistent.table.ops k v found
  rw [if_neg notRoot] at ops
  exact ⟨Nat.pos_iff_ne_zero.mp (inv.consistent.table.referenced k v found),ops⟩

theorem SfsFs.Inv.dirops {v : SfsVnode} (found : s.vnode? 1 = some v) :
    v.vnRefcount ≠ 0 ∧ v.vnOps = .dirops := by
  have ops := inv.consistent.table.ops 1 v found
  rw [if_pos rfl] at ops
  exact ⟨Nat.pos_iff_ne_zero.mp (inv.consistent.table.referenced 1 v found),ops⟩

theorem wp_fileOnly_root (isLoaded : s.loaded 1) (op : Call SfsIo Unit) :
    (fileOnly 1 op).wp ⟨s,u⟩ ok err halt ↔ err .eisdir ⟨s,u⟩ := by
  obtain ⟨v,found⟩ := loaded_iff.mp isLoaded
  obtain ⟨refs,ops⟩ := inv.dirops found
  simp only [fileOnly,vnodeCheck,wp_bind,SfsIo.wp_onFs,Sfs.wp_vnode found,wp_assert,
    refs,ne_eq,not_false_eq_true,decide_true,if_true,wp_pure,ops,wp_fail]

theorem wp_fileOnly (isLoaded : s.loaded k) (notRoot : k ≠ 1)
    (op : Call SfsIo Unit) :
    (fileOnly k op).wp ⟨s,u⟩ ok err halt ↔ op.wp ⟨s,u⟩ ok err halt := by
  obtain ⟨v,found⟩ := loaded_iff.mp isLoaded
  obtain ⟨refs,ops⟩ := inv.fileops found notRoot
  simp only [fileOnly,vnodeCheck,wp_bind,SfsIo.wp_onFs,Sfs.wp_vnode found,
    wp_assert,refs,ne_eq,not_false_eq_true,decide_true,if_true,wp_pure,ops]

theorem wp_vopWrite (isLoaded : s.loaded k) (notRoot : k ≠ 1)
    (write : u.uioRw = .write) :
    (vopWrite k).wp ⟨s,u⟩ ok err halt ↔ (sfsIo k).wp ⟨s,u⟩ ok err halt := by
  rw [vopWrite,wp_fileOnly inv isLoaded notRoot]
  simp only [sfsWrite,wp_bind,wp_read,wp_assert,write,decide_true,if_true]

theorem wp_vopRead (isLoaded : s.loaded k) (notRoot : k ≠ 1)
    (read : u.uioRw = .read) :
    (vopRead k).wp ⟨s,u⟩ ok err halt ↔ (sfsIo k).wp ⟨s,u⟩ ok err halt := by
  rw [vopRead,wp_fileOnly inv isLoaded notRoot]
  simp only [sfsRead,wp_bind,wp_read,wp_assert,read,decide_true,if_true]

theorem vopWrite_spec (isLoaded : s.loaded k) (sized : u.Sized)
    (write : u.uioRw = .write) :
    (vopWrite k).wp ⟨s,u⟩ (fun _ t => Inv strict t.fs) (fun _ t => Inv strict t.fs) never := by
  by_cases atRoot : k = 1
  · subst atRoot
    rw [vopWrite,wp_fileOnly_root inv isLoaded]
    exact inv
  · rw [wp_vopWrite inv isLoaded atRoot write]
    have h : s.Live k := .of_loaded isLoaded
    apply wp_ends (sfsIo_write (a := ⟨s,u⟩) inv.consistent h isLoaded sized write)
    · rintro _ t ⟨written,-⟩
      exact inv.wrote written.consistent written.frame atRoot (by rw [written.self])
    · rintro _ t ⟨n,p,written,-⟩
      exact inv.wrote written.consistent written.frame atRoot (by rw [written.self])

theorem vopRead_spec (isLoaded : s.loaded k) (sized : u.Sized)
    (read : u.uioRw = .read) :
    (vopRead k).wp ⟨s,u⟩ (fun _ t => Inv strict t.fs) (fun _ t => Inv strict t.fs) never := by
  by_cases atRoot : k = 1
  · subst atRoot
    rw [vopRead,wp_fileOnly_root inv isLoaded]
    exact inv
  · rw [wp_vopRead inv isLoaded atRoot read]
    apply wp_ends (sfsIo_quiet (a := ⟨s,u⟩) inv.consistent (.of_loaded isLoaded) isLoaded sized
      read)
    · rintro _ t ⟨m,ticked⟩
      exact ticked ▸ inv.later (Later.tick s m)
    · rintro _ t ⟨m,ticked⟩
      exact ticked ▸ inv.later (Later.tick s m)

theorem wp_vopTruncate_root (isLoaded : s.loaded 1) (len : Int)
    {ok : Unit → SfsFs → Prop} {err : Errno → SfsFs → Prop} {halt : Panic → SfsFs → Prop} :
    (vopTruncate 1 len).wp s ok err halt ↔ err .eisdir s := by
  obtain ⟨v,found⟩ := loaded_iff.mp isLoaded
  obtain ⟨refs,ops⟩ := inv.dirops found
  simp only [vopTruncate,vnodeCheck,wp_bind,Sfs.wp_vnode found,wp_assert,refs,ne_eq,
    not_false_eq_true,decide_true,if_true,wp_pure,ops,wp_fail]

theorem wp_vopTruncate (isLoaded : s.loaded k) (notRoot : k ≠ 1) (len : Int)
    {ok : Unit → SfsFs → Prop} {err : Errno → SfsFs → Prop} {halt : Panic → SfsFs → Prop} :
    (vopTruncate k len).wp s ok err halt ↔ (sfsTruncate k len).wp s ok err halt := by
  obtain ⟨v,found⟩ := loaded_iff.mp isLoaded
  obtain ⟨refs,ops⟩ := inv.fileops found notRoot
  simp only [vopTruncate,vnodeCheck,wp_bind,Sfs.wp_vnode found,wp_assert,refs,ne_eq,
    not_false_eq_true,decide_true,if_true,wp_pure,ops]

theorem vopTruncate_spec (isLoaded : s.loaded k) (len : Int)
    (whole : ¬(k ≠ 1 ∧ Torn s k (truncateBlocklen len))) :
    (vopTruncate k len).wp s (fun _ t => Inv strict t) (fun _ t => Inv strict t) never := by
  by_cases atRoot : k = 1
  · subst atRoot
    rw [wp_vopTruncate_root inv isLoaded]
    exact inv
  · rw [wp_vopTruncate inv isLoaded atRoot]
    apply wp_ends (sfsTruncate_spec inv.consistent (.of_loaded isLoaded) isLoaded len)
    · intro _ t truncated
      exact inv.wrote truncated.consistent truncated.frame atRoot (by rw [truncated.view])
    · rintro e t ⟨-,-,cut | torn⟩
      · exact inv.wrote cut.consistent cut.frame atRoot (by rw [cut.view])
      · exact absurd ⟨atRoot,torn⟩ whole

end

end Vop

/-! Operations and runs -/

/-- The operations of a mounted file system. Its only directory is the root, which the
directory operations are called on. -/
inductive SfsOp where
  | creat (name : CString) (excl : Bool)
  | link (name : CString) (file : Nat)
  | remove (name : CString)
  | rename (n1 n2 : CString)
  | lookup (path : CString)
  | lookparent (path : CString) (buflen : Nat)
  | read (file : Nat) (u : Uio)
  | write (file : Nat) (u : Uio)
  | truncate (file : Nat) (len : Int)
  | fsync (file : Nat)
  | loadvnode (ino : Nat)
  | decref (file : Nat)
  | sync

namespace SfsOp

/-- The call; what it hands back to the caller is left out. -/
def run : SfsOp → Sfs Unit
  | .creat name excl => do let _ ← sfsCreat 1 name excl
  | .link name file => sfsLink 1 name file
  | .remove name => sfsRemove 1 name
  | .rename n1 n2 => sfsRename 1 n1 1 n2
  | .lookup path => do let _ ← sfsLookup 1 path
  | .lookparent path buflen => do let _ ← sfsLookparent 1 path buflen
  | .read file u => do let _ ← Sfs.withUio u (vopRead file)
  | .write file u => do let _ ← Sfs.withUio u (vopWrite file)
  | .truncate file len => vopTruncate file len
  | .fsync file => vopFsync file
  | .loadvnode ino => do let _ ← sfsLoadvnode ino sfsTypeInval
  | .decref file => vnodeDecref file
  | .sync => sfsSync

/-- What the caller owes: the vnodes it passes are in memory, an inode it asks for is in
use, and a uio is one for a transfer in that direction. -/
def Legal (s : SfsFs) : SfsOp → Prop
  | .creat _ _ | .remove _ | .rename _ _ | .lookup _ | .lookparent _ _ => s.loaded 1
  | .link _ file => s.loaded 1 ∧ s.loaded file
  | .read file u => s.loaded file ∧ u.Sized ∧ u.uioRw = .read
  | .write file u => s.loaded file ∧ u.Sized ∧ u.uioRw = .write
  | .truncate file _ | .fsync file | .decref file => s.loaded file
  | .loadvnode ino => s.Live ino
  | .sync => True

/-- A truncation that the device interrupts at the wrong moment. -/
def Tears (s : SfsFs) : SfsOp → Prop
  | .truncate file len => file ≠ 1 ∧ Torn s file (truncateBlocklen len)
  | _ => False

end SfsOp

def KnownPanic (site : Panic) : Prop :=
  site = .renameType ∨ site = .renameCannotRecover ∨ site = .killOpencount

section Runs
variable {strict : Prop} {s t : SfsFs} {op : SfsOp}

theorem SfsFs.Inv.whole (inv : Inv True s) (op : SfsOp) : ¬op.Tears s := by
  have reliable := (inv.consistent.geometry.reliable trivial).1
  cases op <;> simp only [SfsOp.Tears,not_false_eq_true]
  rintro ⟨-,-,-,m,-,-,bad⟩
  exact Bool.noConfusion ((bad 0 (by omega)).symm.trans (reliable _))

theorem SfsOp.run_spec (inv : Inv strict s) (legal : op.Legal s) (whole : ¬op.Tears s) :
    op.run.wp s (fun _ t => Inv strict t) (fun _ t => Inv strict t)
      (fun site t => Inv strict t ∧ KnownPanic site) := by
  cases op with
  | creat name excl =>
    rw [SfsOp.run,wp_bind]
    exact wp_safe (sfsCreat_spec inv legal name excl) (fun _ _ h => h.inv) (fun _ _ h => h.inv)
  | link name file =>
    exact wp_safe (sfsLink_spec inv legal.1 name legal.2) (fun _ _ h => h.inv)
      (fun _ _ h => h.inv)
  | remove name =>
    exact wp_safe (sfsRemove_spec inv legal name) (fun _ _ h => h.inv) (fun _ _ h => h.inv)
  | rename n1 n2 =>
    exact wp_mono (sfsRename_spec inv legal n1 n2) (fun _ _ h => h.inv) (fun _ _ h => h.inv)
      (fun _ _ h => ⟨h.1,h.2.imp And.left fun twice => Or.inl twice.1⟩)
  | lookup path =>
    rw [SfsOp.run,wp_bind]
    exact wp_safe (sfsLookup_spec inv legal path) (fun _ _ h => h.inv) (fun _ _ h => h.inv)
  | lookparent path buflen =>
    rw [SfsOp.run,wp_bind]
    exact wp_safe (sfsLookparent_spec inv legal path buflen) (fun _ _ h => h.2.inv)
      (fun _ _ h => h ▸ inv)
  | read file u =>
    rw [SfsOp.run,wp_bind,Sfs.wp_withUio]
    exact wp_safe (vopRead_spec inv legal.1 legal.2.1 legal.2.2) (fun _ _ h => h)
      (fun _ _ h => h)
  | write file u =>
    rw [SfsOp.run,wp_bind,Sfs.wp_withUio]
    exact wp_safe (vopWrite_spec inv legal.1 legal.2.1 legal.2.2) (fun _ _ h => h)
      (fun _ _ h => h)
  | truncate file len =>
    exact wp_safe (vopTruncate_spec inv legal len whole) (fun _ _ h => h) (fun _ _ h => h)
  | fsync file =>
    apply wp_safe (vopFsync_spec inv.consistent legal)
    · exact fun _ _ synced => inv.framed synced.consistent synced.frame
    · rintro _ _ ⟨-,-,rfl⟩
      exact inv.later (Later.tick s 11)
  | loadvnode ino =>
    rw [SfsOp.run,wp_bind]
    exact wp_safe (sfsLoadvnode_inv inv legal) (fun _ _ h => h.2.inv) (fun _ _ h => h.2.inv)
  | decref file =>
    exact wp_mono (vnodeDecref_inv inv legal) (fun _ _ h => h.1) (fun _ _ => False.elim)
      (fun _ _ h => ⟨h.2.2,Or.inr (Or.inr h.1)⟩)
  | sync =>
    exact wp_safe (sfsSync_spec inv.consistent) (fun _ _ h => inv.framed h.1 h.2.1.frame)
      (fun _ _ h => inv.framed h.2.1 h.2.2.frame)

/-- One operation of those allowed, however it ends. -/
def Step (allowed : SfsFs → SfsOp → Prop) (s t : SfsFs) : Prop :=
  ∃ op : SfsOp, op.Legal s ∧ allowed s op ∧ t = (op.run s).2

abbrev Run (allowed : SfsFs → SfsOp → Prop) : SfsFs → SfsFs → Prop :=
  Relation.ReflTransGen (Step allowed)

def AnyOp (_ : SfsFs) (_ : SfsOp) : Prop := True

theorem SfsFs.Inv.step (inv : Inv strict s) (legal : op.Legal s) (whole : ¬op.Tears s) :
    Inv strict (op.run s).2 :=
  wp_after (wp_mono (op.run_spec inv legal whole) (fun _ _ h => h) (fun _ _ h => h)
    (fun _ _ h => h.1))

theorem SfsFs.Inv.run {allowed : SfsFs → SfsOp → Prop} (inv : Inv strict s)
    (whole : ∀ u op, Inv strict u → allowed u op → ¬op.Tears u) (run : Run allowed s t) :
    Inv strict t := by
  induction run with
  | refl => exact inv
  | tail _ step ih =>
    obtain ⟨op,legal,allow,rfl⟩ := step
    exact ih.step legal (whole _ op ih allow)

theorem SfsFs.Inv.reliableRun (inv : Inv True s) (run : Run AnyOp s t) : Inv True t :=
  inv.run (fun _ op invU _ => invU.whole op) run

def SfsOp.after (op : SfsOp) (s : SfsFs) : SfsFs := (op.run s).2

/-- A new file system of eight blocks in which one file has been made. -/
def firstFile : SfsFs := (SfsOp.creat volname true).after ((SfsOp.loadvnode 1).after (newFs 8))

theorem size_eight : FsSize 8 := ⟨by decide,by decide⟩

theorem SfsFs.Inv.creat_run (inv : Inv True s) (name : CString) (excl : Bool) :
    Run AnyOp s ((SfsOp.creat name excl).after ((SfsOp.loadvnode 1).after s)) := by
  have root : ((SfsOp.loadvnode 1).after s).loaded 1 := by
    apply wp_after (P := fun t : SfsFs => t.loaded 1)
    rw [SfsOp.run,wp_bind]
    exact wp_safe (sfsLoadvnode_inv inv inv.root) (fun _ _ h => h.2.loaded)
      (fun _ _ h => absurd trivial h.1)
  have first : Step AnyOp s ((SfsOp.loadvnode 1).after s) := ⟨.loadvnode 1,inv.root,trivial,rfl⟩
  exact (Relation.ReflTransGen.single first).tail ⟨.creat name excl,root,trivial,rfl⟩

theorem firstFile_run : Run AnyOp (newFs 8) firstFile :=
  (newFs_inv size_eight).creat_run volname true

/-- Every block has at most one owner, and the blocks in use are exactly the owned ones. -/
theorem sfs_blocks_owned (inv : Inv True s) (run : Run AnyOp s t) :
    (∀ o o' b, t.Claims t.Live o b → t.Claims t.Live o' b → o = o') ∧
      ∀ b, b < t.nblocks ∧ t.sfsFreemap.isset b = true ↔ ∃ o, t.Claims t.Live o b := by
  have owned := (inv.reliableRun run).consistent.owned
  refine ⟨fun _ _ _ first second => owned.unique first second,fun b => ⟨fun inUse => ?_,?_⟩⟩
  · exact (owned.tight trivial b inUse).resolve_right (Set.notMem_empty b)
  · rintro ⟨o,claim⟩
    exact owned.claimed claim

theorem sfs_blocks_owned_firstFile : Run AnyOp (newFs 8) firstFile ∧
    ∀ b, b < firstFile.nblocks ∧ firstFile.sfsFreemap.isset b = true ↔
      ∃ o, firstFile.Claims firstFile.Live o b :=
  ⟨firstFile_run,(sfs_blocks_owned (newFs_inv size_eight) firstFile_run).2⟩

/-- Names are unique, entries name inodes in use, and link counts are exact. -/
theorem sfs_directory_sound (inv : Inv True s) (run : Run AnyOp s t) :
    (∀ i j, (t.view 1).Taken i → (t.view 1).Taken j →
      ((t.view 1).entry i).name = ((t.view 1).entry j).name → i = j) ∧
    (∀ op : SfsOp, op.Legal t → (op.run t).1 ≠ .panic .dirDuplicate) ∧
    (∀ i, (t.view 1).Taken i → ∃ k, ((t.view 1).entry i).sfdIno.toNat = k ∧
      t.Claims t.Live (.inode k) k ∧ k < t.nblocks ∧ t.sfsFreemap.isset k = true) ∧
    (∀ k, t.Live k → (t.inode k).sfiLinkcount.toNat =
      (t.view 1).linksTo k + if k = 1 then 1 else 0) ∧
    (∀ k, (t.view 1).linksTo k ≤ (15 + 128) * 8) ∧ (t.view 1).size % 64 = 0 := by
  have invT := inv.reliableRun run
  refine ⟨invT.dir.distinct,fun op legal fired => ?_,fun i taken => ?_,invT.links,fun k => ?_,
    invT.dir.aligned⟩
  · have spec := op.run_spec invT legal (invT.whole op)
    rcases ran : op.run t with ⟨_ | _ | site,u⟩ <;> rw [ran] at fired
    · exact nomatch fired
    · exact nomatch fired
    · rw [Outcome.panic.inj fired] at ran
      rcases (wp_halt spec ran).2 with wrong | wrong | wrong <;> exact nomatch wrong
  · have h : t.Live ((t.view 1).entry i).sfdIno.toNat := Or.inr (Or.inr ⟨i,taken,rfl⟩)
    have claim : t.Claims t.Live (.inode ((t.view 1).entry i).sfdIno.toNat)
        ((t.view 1).entry i).sfdIno.toNat := ⟨h,rfl⟩
    exact ⟨_,rfl,claim,invT.consistent.owned.claimed claim⟩
  · have le := (t.view 1).linksTo_le k
    have bound := invT.dir.bound
    unfold FileView.slots at le
    omega

theorem sfs_directory_sound_firstFile : Run AnyOp (newFs 8) firstFile ∧
    ∀ k, firstFile.Live k → (firstFile.inode k).sfiLinkcount.toNat =
      (firstFile.view 1).linksTo k + if k = 1 then 1 else 0 :=
  ⟨firstFile_run,(sfs_directory_sound (newFs_inv size_eight) firstFile_run).2.2.2.1⟩

theorem SfsFs.Inv.synced (inv : Inv True t) : ∃ u, sfsSync t = (.ok (),u) ∧
    Consistent True t.Live ∅ u ∧ Rewritten t.Live t u ∧ u.Clean := by
  have spec : sfsSync.wp t (fun _ u => Consistent True t.Live ∅ u ∧ Rewritten t.Live t u ∧
      u.Clean) never never :=
    wp_mono (sfsSync_spec inv.consistent) (fun _ _ h => ⟨h.1,h.2.1,h.2.2 trivial⟩)
      (fun _ _ h => h.1 trivial) (fun _ _ h => h)
  obtain ⟨⟨⟩,u,ran,facts⟩ := wp_returns spec
  exact ⟨u,ran,facts⟩

/-- What a sync leaves on the disk is the whole file system: mounting it gives the same
superblock, freemap, inodes and files. -/
theorem sync_remount (inv : Inv True s) (run : Run AnyOp s t) :
    ∃ u, sfsSync t = (.ok (),u) ∧ ∀ g : SfsFs, g.Holds u.sectors →
      ∃ m, sfsDomount g = (.ok (),m) ∧ m.sfsSuper = t.sfsSuper ∧
        m.sfsFreemap.nbits = t.sfsFreemap.nbits ∧
        (∀ i < t.sfsFreemap.nbits, m.sfsFreemap.isset i = t.sfsFreemap.isset i) ∧
        ∀ k, t.Live k → m.view k = t.view k ∧
          ∃ w v, sfsLoadvnode k sfsTypeInval m = (.ok k,w) ∧ w.vnode? k = some v ∧
            v.svI = t.inode k ∧ w.view k = t.view k := by
  have invT := inv.reliableRun run
  obtain ⟨u,ran,c,kept,clean⟩ := invT.synced
  refine ⟨u,ran,fun g holds => ?_⟩
  obtain ⟨⟨⟩,m,mounted,mount⟩ := wp_returns (sfsDomount_spec (holds.mountable clean c))
  have cM := c.remount clean holds mount
  have super : m.sfsSuper = t.sfsSuper := by
    rw [mount.super,holds.sectors,clean.super_eq c,kept.frame.super]
  have views : ∀ k, t.Live k → m.view k = t.view k := fun k h =>
    (mount.view_eq holds clean c k).trans (kept.frame.views k h)
  refine ⟨m,mounted,super,?_,fun i lt => ?_,fun k h => ⟨views k h,?_⟩⟩
  · rw [mount.bits,invT.consistent.geometry.bits,SfsFs.nblocks,super]
    rfl
  · rw [← kept.freemap] at lt ⊢
    exact mount.isset_eq holds clean c lt
  · have spec : (sfsLoadvnode k sfsTypeInval).wp m
        (fun r w => r = k ∧ Opened True t.Live ∅ k m w) (fun _ _ => False) (fun _ _ => False) :=
      wp_mono (sfsLoadvnode_spec cM h) (fun _ _ h => h) (fun _ _ h => h.1 trivial)
        (fun _ _ h => h)
    obtain ⟨r,w,ranK,rfl,opened⟩ := wp_returns spec
    have isLoaded : w.loaded r := by
      rw [loaded_update opened.handle,if_pos rfl]
      rfl
    obtain ⟨v,found⟩ := loaded_iff.mp isLoaded
    refine ⟨w,v,ranK,found,?_,(opened.views r h).trans (views r h)⟩
    rw [← inode_of_loaded found,opened.inodes r h,mount.inode_eq holds clean c,kept.inodes r h]

theorem SfsFs.Clean.holds (clean : s.Clean) {live : Nat → Prop} (c : Consistent True live ∅ s) :
    (freshFs s.nblocks s.sectors).Holds s.sectors := by
  have small := c.geometry.small
  apply freshFs_holds
  · omega
  · rw [clean.super_eq c]
    exact Nat.le_refl _

theorem sync_remount_firstFile : ∃ u, sfsSync firstFile = (.ok (),u) ∧
    ∃ m, sfsDomount (freshFs u.nblocks u.sectors) = (.ok (),m) ∧
      ∀ k, firstFile.Live k → m.view k = firstFile.view k := by
  obtain ⟨u,ran,mounts⟩ := sync_remount (newFs_inv size_eight) firstFile_run
  have inv := (newFs_inv size_eight).reliableRun firstFile_run
  obtain ⟨u',ran',c,kept,clean⟩ := inv.synced
  obtain rfl : u = u' := (Prod.mk.inj (ran.symm.trans ran')).2
  obtain ⟨m,mounted,-,-,-,files⟩ := mounts _ (clean.holds c)
  exact ⟨u,ran,m,mounted,fun k h => (files k h).1⟩

end Runs

end Os161
