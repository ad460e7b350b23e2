import Os161.SfsState

/-! `sfs_io.c`: block-level I/O with retries. -/
namespace Os161

/-- The retry loop of `sfs_rwblock`, with `left` retries to go. `EINVAL` means that the
request itself was wrong. -/
def rwblockTries (d : Device) : Nat → Call DevIo Unit
  | 0 => do
    match ← attempt (d.dIo d.dBlocks) with
    | .ok _ => pure ()
    | .error .einval => panic .dIoEinval
    | .error code => fail code
  | left + 1 => do
    match ← attempt (d.dIo d.dBlocks) with
    | .ok _ => pure ()
    | .error .einval => panic .dIoEinval
    | .error .eio => rwblockTries d left
    | .error code => fail code

/-- `sfs_rwblock`: one attempt and ten retries. -/
def sfsRwblock : Call SfsIo Unit := do
  let io ← read
  zoom (fun io => ⟨io.fs.sfsDevice.dData,io.uio⟩)
    (fun io t => ⟨io.fs.setDisk t.disk,t.uio⟩) (rwblockTries io.fs.sfsDevice 10)

def sfsUio (data : Nat → UInt8) (block : Nat) (rw_ : UioRw) : Uio :=
  Uio.mkKuio data 512 (i32 (i32 block * 512)) rw_

def sfsRblock (block : Nat) : Sfs Block := do
  let (_,u) ← Sfs.withUio (sfsUio (fun _ => 0) block .read) sfsRwblock
  return Block.ofBytes u.mem

def sfsWblock (data : Block) (block : Nat) : Sfs Unit := do
  let _ ← Sfs.withUio (sfsUio data.bytes block .write) sfsRwblock

def Disk.GoodAfter (d : Disk) (n : Nat) : Prop := (∀ i < n, d.media i = false) ∧ d.media n = true

def Device.Honest (d : Device) : Prop :=
  d.dIo = Lhd.failStopIo ∨ d.dIo = Lhd.io ∧ d.dData.Reliable

theorem Device.Honest.obedient {d : Device} (honest : d.Honest) {io : DevIo} {sector n : Nat}
    (disk : io.disk.media = (d.dData.tick n).media) (req : SectorRequest io.uio sector)
    (inside : sector < d.dBlocks) : Lhd.Obedient d.dIo io d.dBlocks sector := by
  rcases honest with failStop | ⟨real,reliable⟩
  · rw [failStop]
    exact Lhd.failStopIo_obedient req inside
  · rw [real]
    exact Lhd.io_obedient req inside (Or.inl (by rw [disk]; exact reliable _))

theorem rwblockTries_spec {d : Device} (honest : d.Honest) {sector : Nat}
    (inside : sector < d.dBlocks) (left : Nat) {io : DevIo} {n : Nat}
    (disk : io.disk.media = (d.dData.tick n).media) (req : SectorRequest io.uio sector) :
    (rwblockTries d left).wp io
      (fun _ t => ∃ m ≤ left, io.disk.GoodAfter m ∧
        t = DevIo.transfer { io with disk := io.disk.tick m } sector)
      (fun e t => (e = .eio ∧ (∀ i ≤ left, io.disk.media i = false) ∧
          t = { io with disk := io.disk.tick (left + 1) }) ∨
        (e = .efault ∧ ¬io.uio.Open 512 ∧ io.Untouched t)) never := by
  induction left generalizing io n with
  | zero =>
    simp only [rwblockTries,wp_bind,wp_attempt]
    apply wp_ends (honest.obedient disk req inside)
    · rintro _ t ⟨good,rfl⟩
      exact ⟨0,Nat.le_refl _,⟨by omega,good⟩,by rw [Disk.tick_zero]⟩
    · rintro e t (⟨rfl,bad,rfl⟩ | ⟨rfl,closed,same⟩)
      · exact Or.inl ⟨rfl,fun i hi => by rw [Nat.le_zero.mp hi,bad],rfl⟩
      · exact Or.inr ⟨rfl,closed,same⟩
  | succ left ih =>
    simp only [rwblockTries,wp_bind,wp_attempt]
    apply wp_ends (honest.obedient disk req inside)
    · rintro _ t ⟨good,rfl⟩
      exact ⟨0,Nat.zero_le _,⟨by omega,good⟩,by rw [Disk.tick_zero]⟩
    · rintro e t (⟨rfl,bad,rfl⟩ | ⟨rfl,closed,same⟩)
      · have shifted : (DevIo.mk (io.disk.tick 1) io.uio).disk.media =
            (d.dData.tick (n + 1)).media := by
          funext i
          simp only [Disk.tick,disk]
          congr 1
          omega
        have again : SectorRequest (DevIo.mk (io.disk.tick 1) io.uio).uio sector := req
        apply wp_ends (ih shifted again)
        · rintro _ t ⟨m,le,⟨before,good⟩,rfl⟩
          refine ⟨m + 1,by omega,⟨?_,?_⟩,?_⟩
          · intro i hi
            cases i with
            | zero => exact bad
            | succ i => simpa [Disk.tick,Nat.add_comm] using before i (by omega)
          · simpa [Disk.tick,Nat.add_comm] using good
          · simp only [Disk.tick_tick,Nat.add_comm 1]
        · rintro e t (⟨rfl,rest,rfl⟩ | ⟨rfl,closed,sectors,⟨m,media⟩,same⟩)
          · refine Or.inl ⟨rfl,?_,?_⟩
            · intro i hi
              cases i with
              | zero => exact bad
              | succ i => simpa [Disk.tick,Nat.add_comm] using rest i (by omega)
            · simp only [Disk.tick_tick,Nat.add_comm 1]
          · refine Or.inr ⟨rfl,closed,sectors,⟨m + 1,?_⟩,same⟩
            rw [media]
            simp only [Disk.tick_tick,Nat.add_comm 1]
      · exact Or.inr ⟨rfl,closed,same⟩

namespace SfsFs

@[simp] theorem tick_zero (s : SfsFs) : s.tick 0 = s := by simp [tick,setDisk,disk]

theorem tick_reliable {s : SfsFs} (reliable : s.disk.Reliable) (m : Nat) : (s.tick m).disk.Reliable :=
  fun _ => reliable _

@[simp] theorem tick_tick (s : SfsFs) (n m : Nat) : (s.tick n).tick m = s.tick (n + m) := by
  simp [tick,setDisk,disk]

/-- Requests to sector `b` reach the medium and come back with its contents. -/
structure Reaches (s : SfsFs) (b : Nat) : Prop where
  honest : s.sfsDevice.Honest
  inside : b < s.sfsDevice.dBlocks
  fits : b * 512 < 2^31

end SfsFs

/-- `sfs_rwblock` on one sector: the request is carried out after at most ten failed
attempts, or all eleven attempts fail and nothing has changed. -/
theorem sfsRwblock_spec {io : SfsIo} {b : Nat} (reaches : io.fs.Reaches b)
    (req : SectorRequest io.uio b) :
    sfsRwblock.wp io
      (fun _ t => ∃ m ≤ 10, io.fs.disk.GoodAfter m ∧ t = match io.uio.uioRw with
        | .read => ⟨io.fs.tick (m + 1),io.uio.moved (io.fs.sectors b).bytes 512⟩
        | .write => ⟨(io.fs.tick (m + 1)).store b
            (Block.ofBytes fun i => io.uio.mem (io.uio.iovBase + i)),io.uio.advance 512⟩)
      (fun e t => (e = .eio ∧ (∀ i ≤ 10, io.fs.disk.media i = false) ∧
          t = ⟨io.fs.tick 11,io.uio⟩) ∨
        (e = .efault ∧ ¬io.uio.Open 512 ∧ (∃ n, t.fs = io.fs.tick n) ∧
          io.uio.SameCursor t.uio)) never := by
  simp only [sfsRwblock,wp_bind,wp_read,wp_zoom]
  have start : (DevIo.mk io.fs.sfsDevice.dData io.uio).disk.media =
      (io.fs.sfsDevice.dData.tick 0).media := by rw [Disk.tick_zero]
  have request : SectorRequest (DevIo.mk io.fs.sfsDevice.dData io.uio).uio b := req
  apply wp_ends (rwblockTries_spec reaches.honest reaches.inside 10 start request)
  · rintro _ t ⟨m,le,good,rfl⟩
    refine ⟨m,le,good,?_⟩
    cases rw_ : io.uio.uioRw <;>
      simp [DevIo.transfer,rw_,SfsFs.tick,SfsFs.store,SfsFs.setDisk,SfsFs.disk,SfsFs.sectors,
        Disk.tick,Disk.store,Nat.add_assoc]
  · rintro e t (⟨rfl,bad,rfl⟩ | ⟨rfl,closed,sectors,⟨n,media⟩,same⟩)
    · exact Or.inl ⟨rfl,bad,rfl⟩
    · refine Or.inr ⟨rfl,closed,⟨n,?_⟩,same⟩
      have disk : t.disk = io.fs.sfsDevice.dData.tick n := by
        cases h : t.disk
        simp_all [Disk.tick]
      simp [SfsFs.tick,SfsFs.disk,disk]

theorem sfsUio_request {b : Nat} (fits : b * 512 < 2^31) (data : Nat → UInt8) (rw_ : UioRw) :
    SectorRequest (sfsUio data b rw_) b where
  offset := by
    simp only [sfsUio,Uio.mkKuio]
    rw [i32_of_bounds (x := (b : Int)) (by omega) (by omega),i32_of_bounds (by omega) (by omega)]
  fits := fits
  resid := rfl
  len := Nat.le_refl _
  space := rfl

theorem sfsRblock_spec {s : SfsFs} {b : Nat} (reaches : s.Reaches b) :
    (sfsRblock b).wp s
      (fun data t => data = s.sectors b ∧ ∃ m ≤ 10, s.disk.GoodAfter m ∧ t = s.tick (m + 1))
      (fun e t => e = .eio ∧ (∀ i ≤ 10, s.disk.media i = false) ∧ t = s.tick 11) never := by
  simp only [sfsRblock,wp_bind,Sfs.wp_withUio,wp_pure]
  have call : (SfsIo.mk s (sfsUio (fun _ => 0) b .read)).fs.Reaches b := reaches
  have req : SectorRequest (SfsIo.mk s (sfsUio (fun _ => 0) b .read)).uio b :=
    sfsUio_request reaches.fits _ _
  apply wp_ends (sfsRwblock_spec call req)
  · rintro _ t ⟨m,le,good,rfl⟩
    refine ⟨?_,m,le,good,rfl⟩
    funext i
    simp [sfsUio,Uio.mkKuio,Uio.moved,Block.ofBytes,overwrite,i.isLt]
  · rintro e t (⟨rfl,bad,rfl⟩ | ⟨-,closed,-⟩)
    · exact ⟨rfl,bad,rfl⟩
    · exact absurd (.inl rfl) closed

theorem sfsWblock_spec {s : SfsFs} {b : Nat} (reaches : s.Reaches b) (data : Block) :
    (sfsWblock data b).wp s
      (fun _ t => ∃ m ≤ 10, s.disk.GoodAfter m ∧ t = (s.tick (m + 1)).store b data)
      (fun e t => e = .eio ∧ (∀ i ≤ 10, s.disk.media i = false) ∧ t = s.tick 11) never := by
  simp only [sfsWblock,wp_bind,Sfs.wp_withUio,wp_pure]
  have call : (SfsIo.mk s (sfsUio data.bytes b .write)).fs.Reaches b := reaches
  have req : SectorRequest (SfsIo.mk s (sfsUio data.bytes b .write)).uio b :=
    sfsUio_request reaches.fits _ _
  apply wp_ends (sfsRwblock_spec call req)
  · rintro _ t ⟨m,le,good,rfl⟩
    refine ⟨m,le,good,?_⟩
    simp [sfsUio,Uio.mkKuio]
  · rintro e t (⟨rfl,bad,rfl⟩ | ⟨-,closed,-⟩)
    · exact ⟨rfl,bad,rfl⟩
    · exact absurd (.inl rfl) closed

end Os161
