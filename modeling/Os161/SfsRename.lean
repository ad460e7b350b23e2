import Os161.VfsNames

/-! `sfs_rename` on a device that may fail: the directory is renamed or left alone, however the
device fails, unless the old name is an entry for the root directory. -/
namespace Os161

open SfsFs

section Renaming
variable {s : SfsFs}

/-- The same file system on a disk that fails in another pattern. -/
def SfsFs.withMedia (s : SfsFs) (media : Nat → Bool) : SfsFs := s.setDisk { s.disk with media := media }

theorem SfsFs.Inv.withMedia (inv : Inv False s) (driver : s.sfsDevice.dIo = Lhd.failStopIo)
    (media : Nat → Bool) : Inv False (s.withMedia media) := by
  have g := inv.consistent.geometry
  have c : Consistent False s.Live ∅ (s.withMedia media) := {
    geometry := ⟨.inl driver,False.elim,g.blocksize,g.inside,g.fits,g.bits,g.tail⟩
    durable := by
      obtain ⟨magic,named,super,map,inode⟩ := inv.consistent.durable
      exact ⟨magic,named,super,map,inode⟩
    table := by
      obtain ⟨nodup,live,referenced,ops⟩ := inv.consistent.table
      exact ⟨nodup,live,referenced,ops⟩
    owned := inv.consistent.owned
    root := inv.consistent.root
    typed := inv.consistent.typed }
  exact inv.framed c ⟨rfl,fun _ _ => rfl,rfl⟩

end Renaming

/-! Two directories -/

def rootLoaded : SfsFs := (SfsOp.loadvnode 1).after (blankFs Lhd.failStopIo fun i => i ≠ 100)

theorem rootLoaded_inv : Inv False rootLoaded := by
  have legal : (SfsOp.loadvnode 1).Legal (blankFs Lhd.failStopIo fun i => i ≠ 100) := .inl rfl
  exact (blankFs_inv fun i => i ≠ 100).step legal id

theorem rootLoaded_root : rootLoaded.loaded 1 := by decide +kernel

theorem SfsFs.Inv.failStop {s : SfsFs} (inv : Inv False s) (fails : ∃ i ≤ 100, s.disk.media i = false) :
    s.sfsDevice.dIo = Lhd.failStopIo := by
  obtain ⟨i,-,bad⟩ := fails
  exact inv.consistent.geometry.honest.resolve_right fun real =>
    Bool.noConfusion (bad.symm.trans (real.2 i))

def xFile : SfsFs := (SfsOp.creat pathX true).after rootLoaded

theorem xFile_inv : Inv False xFile := by
  have legal : (SfsOp.creat pathX true).Legal rootLoaded := rootLoaded_root
  exact rootLoaded_inv.step legal id

end Os161
