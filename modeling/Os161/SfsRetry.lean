import Os161.SfsFrame
import Os161.SfsFileIo

/-! Writes through the real driver. `lhd_io` moves the data of a write before it knows the
outcome, so when the request fails the retry loop of `sfs_rwblock` issues a uio that has
nothing left to transfer. The driver has no work to do on it and reports success. -/
namespace Os161

def DevIo.attempted (io : DevIo) (sector : Nat) : DevIo where
  disk := (if io.disk.media 0 then
    io.disk.store sector (Block.ofBytes fun i => io.uio.mem (io.uio.iovBase + i)) else io.disk).tick 1
  uio := io.uio.advance 512

namespace Lhd

theorem ioLoop_spent (turn : Nat → Nat → Call DevIo Unit) {u : Uio} {sector dBlocks : Nat}
    (req : SectorRequest u sector) (inside : sector < dBlocks) (fits : dBlocks * 512 < 2^31)
    (disk : Disk) : ioLoop turn dBlocks ⟨disk,u.advance 512⟩ = (.ok (),⟨disk,u.advance 512⟩) := by
  have resid : (u.advance 512).uioResid = 0 := by
    simp only [Uio.advance,req.resid]
    exact u32_zero
  have offset : (u.advance 512).uioOffset = ((sector + 1 : Nat) : Int) * 512 := by
    simp only [Uio.advance,req.offset]
    rw [i32_of_bounds (by omega) (by omega)]
    omega
  have quotient : u32 ((u.advance 512).uioOffset.tdiv 512) = sector + 1 := by
    rw [offset,Int.mul_tdiv_cancel _ (by decide),u32_natCast (by omega)]
  have remainder : u32 ((u.advance 512).uioOffset.tmod 512) = 0 := by
    rw [offset,Int.mul_tmod_left]; exact u32_zero
  simp only [ioLoop,bind,read,quotient,remainder,resid]
  rw [if_neg (by decide),if_neg (by omega)]
  rfl

theorem io_write {io : DevIo} {sector dBlocks : Nat} (req : SectorRequest io.uio sector)
    (writing : io.uio.uioRw = .write) (inside : sector < dBlocks) :
    (Lhd.io dBlocks).wp io (fun _ t => t = io.attempted sector)
      (fun e t => (e = .eio ∧ t = io.attempted sector) ∨
        (e = .efault ∧ io.uio.uioSegflg ≠ .sysspace)) never := by
  apply ioLoop_single _ req inside
  cases media : io.disk.media 0
  · apply wp_mono (sectorIo_bad_write req writing inside media)
    · exact fun _ _ h => h.elim
    · rintro e t (⟨rfl,rfl⟩ | ⟨rfl,user,-⟩)
      · exact Or.inl ⟨rfl,by simp [DevIo.attempted,media]⟩
      · exact Or.inr ⟨rfl,user⟩
    · exact fun _ _ h => h
  · apply wp_ends (sectorIo_good req inside media)
    · rintro _ t rfl
      simp [DevIo.transfer,DevIo.attempted,writing,media]
    · rintro e t ⟨rfl,closed,-⟩
      exact Or.inr ⟨rfl,Uio.user_of_not_open closed⟩

end Lhd

/-- The retry loop takes the first outcome for the final one: after a failed request it
asks the driver once more and is told that all is well. -/
theorem rwblockTries_write {d : Device} (driver : d.dIo = Lhd.io) {io : DevIo} {sector : Nat}
    (req : SectorRequest io.uio sector) (writing : io.uio.uioRw = .write)
    (inside : sector < d.dBlocks) (fits : d.dBlocks * 512 < 2^31) (left : Nat) :
    (rwblockTries d (left + 1)).wp io (fun _ t => t = io.attempted sector)
      (fun e _ => e = .efault ∧ io.uio.uioSegflg ≠ .sysspace) never := by
  have again : (d.dIo d.dBlocks).wp (io.attempted sector) (fun _ t => t = io.attempted sector)
      never never := by
    have ran : Lhd.io d.dBlocks (io.attempted sector) = (.ok (),io.attempted sector) :=
      Lhd.ioLoop_spent _ req inside fits _
    simp only [driver,Exec.wp,ran]
  have retried : (rwblockTries d left).wp (io.attempted sector) (fun _ t => t = io.attempted sector)
      (fun e _ => e = .efault ∧ io.uio.uioSegflg ≠ .sysspace) never := by
    cases left <;> simp only [rwblockTries,wp_bind,wp_attempt] <;>
      exact wp_total again (fun _ _ h => h)
  simp only [rwblockTries,wp_bind,wp_attempt]
  rw [driver]
  apply wp_mono (Lhd.io_write req writing inside)
  · exact fun _ _ h => h
  · rintro e t (⟨rfl,rfl⟩ | ⟨rfl,user⟩)
    · exact retried
    · exact ⟨rfl,user⟩
  · exact fun _ _ h => h

namespace SfsFs

/-- The file system over the real driver, on a disk small enough for a 32-bit `off_t`. -/
structure OverLhd (s : SfsFs) : Prop where
  driver : s.sfsDevice.dIo = Lhd.io
  fits : s.sfsDevice.dBlocks * 512 < 2^31

theorem OverLhd.same {s t : SfsFs} (lhd : s.OverLhd) (same : SameDevice s t) : t.OverLhd where
  driver := same.1.trans lhd.driver
  fits := same.2 ▸ lhd.fits

theorem OverLhd.small {s : SfsFs} (lhd : s.OverLhd) {b : Nat} (inside : b < s.sfsDevice.dBlocks) :
    b * 512 + 512 < 2^31 := by
  have next : (b + 1) * 512 ≤ s.sfsDevice.dBlocks * 512 := Nat.mul_le_mul_right 512 inside
  rw [Nat.add_mul,Nat.one_mul] at next
  exact Nat.lt_of_le_of_lt next lhd.fits

def attempted (s : SfsFs) (b : Nat) (data : Block) : SfsFs :=
  if s.disk.media 0 then (s.tick 1).store b data else s.tick 1

theorem attempted_sector (s : SfsFs) (b : Nat) (data : Block) :
    (s.attempted b data).sectors b = data ↔ s.disk.media 0 = true ∨ s.sectors b = data := by
  unfold attempted
  cases media : s.disk.media 0
  · simp [tick,setDisk,sectors,disk,Disk.tick]
  · simp [store,setDisk,sectors,disk,Disk.store]

end SfsFs

open SfsFs

theorem sfsRwblock_write {io : SfsIo} {b : Nat} (lhd : io.fs.OverLhd)
    (req : SectorRequest io.uio b) (writing : io.uio.uioRw = .write)
    (inside : b < io.fs.sfsDevice.dBlocks) :
    sfsRwblock.wp io
      (fun _ t => t = ⟨io.fs.attempted b (Block.ofBytes fun i => io.uio.mem (io.uio.iovBase + i)),
        io.uio.advance 512⟩)
      (fun e _ => e = .efault ∧ io.uio.uioSegflg ≠ .sysspace) never := by
  simp only [sfsRwblock,wp_bind,wp_read,wp_zoom]
  have request : SectorRequest (DevIo.mk io.fs.sfsDevice.dData io.uio).uio b := req
  apply wp_imp (rwblockTries_write lhd.driver request writing inside lhd.fits 9)
  rintro _ t rfl
  cases media : io.fs.disk.media 0 <;>
    simp_all [DevIo.attempted,SfsFs.attempted,SfsFs.tick,SfsFs.store,SfsFs.setDisk,SfsFs.disk,
      Disk.tick,Disk.store]

theorem sfsWblock_attempted {s : SfsFs} {b : Nat} (lhd : s.OverLhd)
    (inside : b < s.sfsDevice.dBlocks) (data : Block) :
    sfsWblock data b s = (.ok (),s.attempted b data) := by
  have small := lhd.small inside
  have call : (SfsIo.mk s (sfsUio data.bytes b .write)).fs.OverLhd := lhd
  have req : SectorRequest (SfsIo.mk s (sfsUio data.bytes b .write)).uio b :=
    sfsUio_request (Nat.lt_of_le_of_lt (Nat.le_add_right _ _) small) _ _
  have spec : (sfsWblock data b).wp s (fun _ t => t = s.attempted b data) never
      never := by
    simp only [sfsWblock,wp_bind,Sfs.wp_withUio,wp_pure]
    apply wp_ends (sfsRwblock_write call req rfl inside)
    · rintro _ t rfl
      simp [sfsUio,Uio.mkKuio]
    · rintro e t ⟨-,user⟩
      exact user rfl
  obtain ⟨⟨⟩,t,ran,rfl⟩ := wp_returns spec
  exact ran

theorem restore_advance {u : Uio} (writing : u.uioRw = .write) {disk : Int} (low : 0 ≤ disk)
    (high : disk + 512 < 2^31) :
    let v := Uio.advance { u with uioOffset := disk, uioResid := 512 } 512
    { v with
      uioOffset := i32 (v.uioOffset - disk + u.uioOffset)
      uioResid := u32 ((v.uioResid : Int) - 512 + u.uioResid) } = u.advance 512 := by
  have restored := restore_moved u disk low high fun _ => 0
  simpa only [Uio.moved,writing] using restored

theorem blockioDirect_attempted {io : SfsIo} {disk : Nat} (lhd : io.fs.OverLhd)
    (writing : io.uio.uioRw = .write) (sized : io.uio.Sized) (whole : 512 ≤ io.uio.uioResid)
    (inside : disk < io.fs.sfsDevice.dBlocks) :
    (blockioDirect disk).wp io
      (fun _ t => t = ⟨io.fs.attempted disk (Block.ofBytes fun i => io.uio.mem (io.uio.iovBase + i)),
        io.uio.advance 512⟩)
      (fun e _ => e = .efault ∧ io.uio.uioSegflg ≠ .sysspace) never := by
  have within := lhd.small inside
  have diskoff : i32 ((disk : Int) * 512) = (disk : Int) * 512 := i32_of_bounds (by omega) (by omega)
  have enough : decide (io.uio.uioResid ≥ 512) = true := decide_eq_true whole
  simp only [blockioDirect,wp_bind,wp_read,wp_assert,enough,if_true,
    wp_attempt,diskoff]
  have req : SectorRequest (SfsIo.mk io.fs
      { io.uio with uioOffset := (disk : Int) * 512, uioResid := 512 }).uio disk :=
    ⟨rfl,Nat.lt_of_le_of_lt (Nat.le_add_right _ _) within,rfl,Nat.le_trans whole sized.len,sized.space⟩
  have onLhd : (SfsIo.mk io.fs
      { io.uio with uioOffset := (disk : Int) * 512, uioResid := 512 }).fs.OverLhd := lhd
  apply wp_imp (sfsRwblock_write onLhd req writing inside)
  rintro _ t rfl
  exact congrArg (SfsIo.mk _) (restore_advance writing (by omega) (by omega))

/-- Over the real driver a block write is always reported as done, and it is on the disk
exactly when its first request did not meet a media error, or the sector held the data
already. The same goes for the bytes that `sfs_blockio` consumes from a uio. -/
theorem reported_write_durable_iff {s : SfsFs} (lhd : s.OverLhd) :
    (∀ b < s.sfsDevice.dBlocks, ∀ data, ∃ t, sfsWblock data b s = (.ok (),t) ∧
      (t.sectors b = data ↔ s.disk.media 0 = true ∨ s.sectors b = data)) ∧
    ∀ k u d t, u.uioRw = .write → u.Sized → 512 ≤ u.uioResid →
      sfsBmap k (u32 (u.uioOffset.tdiv 512)) true s = (.ok d,t) → d ≠ 0 → d < t.sfsDevice.dBlocks →
      (sfsBlockio k).wp ⟨s,u⟩
        (fun _ r => r.uio = u.advance 512 ∧
          (r.fs.sectors d = Block.ofBytes (fun i => u.mem (u.iovBase + i)) ↔
            t.disk.media 0 = true ∨ t.sectors d = Block.ofBytes fun i => u.mem (u.iovBase + i)))
        (fun e _ => e = .efault ∧ u.uioSegflg ≠ .sysspace) (fun _ _ => False) := by
  constructor
  · intro b inside data
    exact ⟨_,sfsWblock_attempted lhd inside data,attempted_sector s b data⟩
  · intro k u d t writing sized whole mapped nonzero inside
    have same : SameDevice s t := by
      have kept := sfsBmap_keeps (sameDevice_ioFrame k) (u32 (u.uioOffset.tdiv 512)) true s
      rwa [mapped] at kept
    have onLhd : (SfsIo.mk t u).fs.OverLhd := lhd.same same
    simp only [sfsBlockio,wp_bind,wp_read,SfsIo.wp_onFs,writing,decide_true]
    apply wp_of_ok mapped
    rw [if_neg nonzero]
    apply wp_imp (blockioDirect_attempted onLhd writing sized whole inside)
    rintro _ r rfl
    exact ⟨rfl,attempted_sector t d _⟩

/-- A disk of eight blocks with one file, whose only block is block 5. `media` says which
requests will succeed. -/
def oneBlockFs (media : Nat → Bool) : SfsFs where
  sfsSuper := { spMagic := 0, spNblocks := 8, spVolname := fun _ => 0, reserved := fun _ => 0 }
  sfsSuperdirty := false
  sfsDevice :=
    { dBlocks := 8, dBlocksize := 512, dIo := Lhd.io
      dData := { sectors := fun _ => Block.zero, media } }
  sfsVnodes := [{
    vnRefcount := 1, vnOpencount := 1, vnOps := .fileops, svIno := 3, svDirty := false
    svI := { sfiSize := 512, sfiType := 1, sfiLinkcount := 1
             sfiDirect := fun i => if i = 0 then 5 else 0, sfiIndirect := 0, sfiWaste := fun _ => 0 } }]
  vnodesMax := 1
  sfsFreemap := { nbits := 8, v := fun _ => 0xff }
  sfsFreemapdirty := false
  kmalloc := fun _ => true

/-- The first request succeeds: the block is on the disk, and so are the bytes that
`sfs_blockio` consumes. -/
theorem reported_write_durable_firstOk :
    (∃ t, sfsWblock (fun _ => 7) 5 (oneBlockFs fun i => i = 0) = (.ok (),t) ∧
      t.sectors 5 = fun _ => 7) ∧
    ∃ r, sfsBlockio 3 ⟨oneBlockFs fun i => i = 0,Uio.mkKuio (fun _ => 7) 512 0 .write⟩ = (.ok (),r) ∧
      r.uio.uioResid = 0 ∧ r.fs.sectors 5 = fun _ => 7 := by
  have lhd : (oneBlockFs fun i => i = 0).OverLhd := ⟨rfl,by decide⟩
  have sized : (Uio.mkKuio (fun _ => 7) 512 0 .write).Sized :=
    ⟨by decide,by decide,by decide,by decide,rfl⟩
  have zero : u32 ((Uio.mkKuio (fun _ => 7) 512 0 .write).uioOffset.tdiv 512) = 0 := u32_zero
  have mapped : sfsBmap 3 (u32 ((Uio.mkKuio (fun _ => 7) 512 0 .write).uioOffset.tdiv 512)) true
      (oneBlockFs fun i => i = 0) = (.ok 5,oneBlockFs fun i => i = 0) := by
    rw [zero]
    rfl
  constructor
  · obtain ⟨t,ran,stored⟩ := (reported_write_durable_iff lhd).1 5 (by decide) fun _ => 7
    exact ⟨t,ran,stored.mpr (Or.inl rfl)⟩
  · have spec := (reported_write_durable_iff lhd).2 3 _ 5 _ rfl sized (Nat.le_refl _) mapped
      (by decide) (by decide)
    obtain ⟨⟨⟩,r,ran,uio,stored⟩ := wp_returns (wp_mono spec (fun _ _ h => h)
      (fun _ _ h => h.2 rfl) fun _ _ h => h)
    exact ⟨r,ran,by rw [uio]; exact u32_zero,stored.mpr (Or.inl rfl)⟩

/-- The first request fails and every later one would succeed. `sfs_wblock` reports success
and the sector still holds zeros; `sfs_blockio` has consumed bytes that are nowhere. -/
theorem reported_write_lost :
    (∃ t, sfsWblock (fun _ => 7) 5 (oneBlockFs fun i => i ≠ 0) = (.ok (),t) ∧
      t.sectors 5 = Block.zero) ∧
    ∃ r, sfsBlockio 3 ⟨oneBlockFs fun i => i ≠ 0,Uio.mkKuio (fun _ => 7) 512 0 .write⟩ = (.ok (),r) ∧
      r.uio.uioResid = 0 ∧ r.fs.sectors 5 = Block.zero := by
  have blockWrite : (sfsWblock (fun _ => 7) 5 (oneBlockFs fun i => i ≠ 0)).1 = .ok () ∧
      (sfsWblock (fun _ => 7) 5 (oneBlockFs fun i => i ≠ 0)).2.sectors 5 = Block.zero := by
    decide +kernel
  have blockIo : (sfsBlockio 3
        ⟨oneBlockFs fun i => i ≠ 0,Uio.mkKuio (fun _ => 7) 512 0 .write⟩).1 = .ok () ∧
      (sfsBlockio 3
        ⟨oneBlockFs fun i => i ≠ 0,Uio.mkKuio (fun _ => 7) 512 0 .write⟩).2.uio.uioResid = 0 ∧
      (sfsBlockio 3
        ⟨oneBlockFs fun i => i ≠ 0,Uio.mkKuio (fun _ => 7) 512 0 .write⟩).2.fs.sectors 5 =
        Block.zero := by
    decide +kernel
  exact ⟨⟨_,Prod.ext blockWrite.1 rfl,blockWrite.2⟩,_,Prod.ext blockIo.1 rfl,blockIo.2⟩

end Os161
