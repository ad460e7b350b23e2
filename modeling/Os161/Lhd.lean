import Os161.Uio

/-! `dev/lamebus/lhd.c` as the block device under a file system. The semaphores only
serialise callers; for one caller a request is issued and completes. -/
namespace Os161

inductive LhdState where
  | ok | invsect | media
  deriving DecidableEq, Repr

/-- The medium. `media i` tells whether the `i`-th request to come finds it readable and
writable; it is consumed from the front. -/
structure Disk where
  sectors : Nat → Block
  media : Nat → Bool

namespace Disk

def tick (d : Disk) (n : Nat) : Disk := { d with media := fun i => d.media (n + i) }

def store (d : Disk) (sector : Nat) (data : Block) : Disk :=
  { d with sectors := fun i => if i = sector then data else d.sectors i }

def Reliable (d : Disk) : Prop := ∀ i, d.media i = true

theorem not_reliable {d : Disk} {i : Nat} (bad : d.media i = false) : ¬d.Reliable :=
  fun reliable => Bool.noConfusion (bad.symm.trans (reliable i))

@[simp] theorem tick_zero (d : Disk) : d.tick 0 = d := by simp [tick]

@[simp] theorem tick_tick (d : Disk) (n m : Nat) : (d.tick n).tick m = d.tick (n + m) := by
  simp [tick,Nat.add_assoc]

end Disk

structure DevIo where
  disk : Disk
  uio : Uio

/-- `d_io`, given the device's `d_blocks`. -/
abbrev Driver := Nat → Call DevIo Unit

/-- The fields of `struct device` that the file system uses, with the medium as `d_data`. -/
structure Device where
  dBlocks : Nat
  dBlocksize : Nat
  dIo : Driver
  dData : Disk

namespace Lhd

def codeToErrno : LhdState → Option Errno
  | .ok => none
  | .invsect => some .einval
  | .media => some .eio

def onUio (call : Call Uio α) : Call DevIo α :=
  zoom DevIo.uio (fun io u => { io with uio := u }) call

/-- Write the sector and status registers and sleep until the interrupt handler has
saved the result. The hardware stores `data` if the request is a write that succeeds. -/
def request (nsect sector : Nat) (data : Option Block) : Call DevIo Unit := do
  let io ← read
  let state : LhdState := if sector ≥ nsect then .invsect else if io.disk.media 0 then .ok else .media
  let disk := match data, state with
    | some block, .ok => io.disk.store sector block
    | _, _ => io.disk
  put { io with disk := disk.tick 1 }
  match codeToErrno state with
  | none => pure ()
  | some code => fail code

def sectorIo (nsect sector : Nat) : Call DevIo Unit := do
  let io ← read
  match io.uio.uioRw with
  | .write =>
    -- the data is moved to the card before the outcome is known
    let buf ← onUio (Uio.uiomove (fun _ => 0) 512)
    request nsect sector (some (Block.ofBytes buf))
  | .read =>
    request nsect sector none
    let _ ← onUio (Uio.uiomove (io.disk.sectors sector).bytes 512)
    pure ()

/-- The checks and the loop of `lhd_io`, over the work done for one sector. -/
def ioLoop (turn : Nat → Nat → Call DevIo Unit) (dBlocks : Nat) : Call DevIo Unit := do
  let io ← read
  let sector := u32 (io.uio.uioOffset.tdiv 512)
  let sectoff := u32 (io.uio.uioOffset.tmod 512)
  let len := io.uio.uioResid / 512
  let lenoff := io.uio.uioResid % 512
  if sectoff ≠ 0 ∨ lenoff ≠ 0 then fail .einval
  else if (sector + len) % 2^32 > dBlocks then fail .einval
  else loop (fun i _ => turn dBlocks (sector + i)) len 0 ()

def io : Driver := ioLoop sectorIo

/-- The same driver, except that a request which is going to fail does so before any
data has been moved. This is the driver the retry loop of `sfs_rwblock` is written for,
since it issues the same uio again. -/
def failStopIo : Driver := ioLoop fun nsect sector => do
  let io ← read
  if io.disk.media 0 then sectorIo nsect sector else request nsect sector none

end Lhd

structure SectorRequest (u : Uio) (sector : Nat) : Prop where
  offset : u.uioOffset = (sector : Int) * 512
  fits : sector * 512 < 2^31
  resid : u.uioResid = 512
  len : 512 ≤ u.iovLen
  space : u.spaceOk = true

theorem SectorRequest.valid {u : Uio} {sector : Nat} (req : SectorRequest u sector) : u.Valid where
  low := by have := req.offset; omega
  high := by have := req.offset; have := req.fits; omega
  resid := by rw [req.resid]; decide

def DevIo.transfer (io : DevIo) (sector : Nat) : DevIo :=
  match io.uio.uioRw with
  | .read => { disk := io.disk.tick 1, uio := io.uio.moved (io.disk.sectors sector).bytes 512 }
  | .write =>
    { disk := (io.disk.store sector (Block.ofBytes fun i => io.uio.mem (io.uio.iovBase + i))).tick 1
      uio := io.uio.advance 512 }

def DevIo.Untouched (io t : DevIo) : Prop :=
  t.disk.sectors = io.disk.sectors ∧ (∃ n, t.disk.media = (io.disk.tick n).media) ∧
    io.uio.SameCursor t.uio

namespace Lhd

variable {io : DevIo} {sector dBlocks : Nat} {ok : Unit → DevIo → Prop} {err : Errno → DevIo → Prop} {halt : Panic → DevIo → Prop}

theorem ioLoop_single (turn : Nat → Nat → Call DevIo Unit)
    (req : SectorRequest io.uio sector) (inside : sector < dBlocks)
    (spec : (turn dBlocks sector).wp io ok err halt) :
    (ioLoop turn dBlocks).wp io ok err halt := by
  have fits := req.fits
  have quotient : u32 (io.uio.uioOffset.tdiv 512) = sector := by
    rw [req.offset,Int.mul_tdiv_cancel _ (by decide),u32_natCast (by omega)]
  have remainder : u32 (io.uio.uioOffset.tmod 512) = 0 := by
    rw [req.offset,Int.mul_tmod_left]; exact u32_zero
  simp only [ioLoop,wp_bind,wp_read,quotient,remainder,req.resid]
  rw [if_neg (by decide),if_neg (by omega)]
  simp only [Nat.reduceDiv,loop,Nat.add_zero,wp_bind,wp_pure]
  exact wp_imp spec (fun _ _ h => h)

variable {nsect : Nat}

theorem request_good (inside : sector < nsect)
    (good : io.disk.media 0 = true) (data : Option Block) :
    request nsect sector data io =
      (.ok (), { io with disk := (match data with
        | some block => io.disk.store sector block | none => io.disk).tick 1 }) := by
  cases data <;>
    simp [request,read,put,codeToErrno,good,bind,pure,Nat.not_le.mpr inside]

theorem request_bad (inside : sector < nsect)
    (bad : io.disk.media 0 = false) (data : Option Block) :
    request nsect sector data io = (.err .eio, { io with disk := io.disk.tick 1 }) := by
  cases data <;>
    simp [request,read,put,fail,codeToErrno,bad,bind,Nat.not_le.mpr inside]

theorem wp_onUio {call : Call Uio α} {ok : α → DevIo → Prop} :
    (onUio call).wp io ok err halt ↔
      call.wp io.uio (fun a u => ok a { io with uio := u }) (fun e u => err e { io with uio := u })
        (fun p u => halt p { io with uio := u }) := wp_zoom _ _ _

theorem wp_request_good (inside : sector < nsect)
    (good : io.disk.media 0 = true) (data : Option Block) :
    (request nsect sector data).wp io ok err halt ↔
      ok () { io with disk := (match data with
        | some block => io.disk.store sector block | none => io.disk).tick 1 } := by
  rw [Exec.wp,request_good inside good]

theorem wp_request_bad (inside : sector < nsect)
    (bad : io.disk.media 0 = false) (data : Option Block) :
    (request nsect sector data).wp io ok err halt ↔ err .eio { io with disk := io.disk.tick 1 } := by
  rw [Exec.wp,request_bad inside bad]

theorem sectorIo_good (req : SectorRequest io.uio sector)
    (inside : sector < nsect) (good : io.disk.media 0 = true) :
    (sectorIo nsect sector).wp io (fun _ t => t = io.transfer sector)
      (fun e t => e = .efault ∧ ¬io.uio.Open 512 ∧ io.Untouched t) never := by
  have resid : 512 ≤ io.uio.uioResid := by rw [req.resid]
  simp only [sectorIo,wp_bind,wp_read]
  cases rw_ : io.uio.uioRw
  · simp only [wp_bind,wp_request_good inside good,wp_onUio]
    apply wp_ends (Uio.uiomove_spec req.valid req.space _ resid req.len)
    · rintro _ u ⟨-,rfl,-⟩
      simp [DevIo.transfer,rw_]
    · rintro e u ⟨code,closed,same⟩
      exact ⟨code,closed,rfl,⟨1,rfl⟩,same⟩
  · simp only [wp_bind,wp_onUio]
    apply wp_ends (Uio.uiomove_spec req.valid req.space _ resid req.len)
    · rintro buf u ⟨-,rfl,rfl⟩
      have block : Block.ofBytes (io.uio.filled (fun _ => 0) 512) =
          Block.ofBytes fun i => io.uio.mem (io.uio.iovBase + i) := by
        funext i
        simp [Block.ofBytes,Uio.filled,rw_,overwrite,i.isLt]
      rw [wp_request_good inside (by exact good)]
      simp only [DevIo.transfer,rw_,block,Uio.moved]
    · rintro e u ⟨code,closed,same⟩
      exact ⟨code,closed,rfl,⟨0,by simp [Disk.tick]⟩,same⟩

theorem sectorIo_bad_read (reading : io.uio.uioRw = .read)
    (inside : sector < nsect) (bad : io.disk.media 0 = false) :
    (sectorIo nsect sector).wp io never
      (fun e t => e = .eio ∧ t = { io with disk := io.disk.tick 1 }) never := by
  simp only [sectorIo,wp_bind,wp_read,reading,wp_request_bad inside bad,and_self]

theorem sectorIo_bad_write (req : SectorRequest io.uio sector)
    (writing : io.uio.uioRw = .write) (inside : sector < nsect) (bad : io.disk.media 0 = false) :
    (sectorIo nsect sector).wp io never
      (fun e t => (e = .eio ∧ t = ⟨io.disk.tick 1,io.uio.advance 512⟩) ∨
        (e = .efault ∧ io.uio.uioSegflg ≠ .sysspace ∧ io.Untouched t)) never := by
  have resid : 512 ≤ io.uio.uioResid := by rw [req.resid]
  simp only [sectorIo,wp_bind,wp_read,writing,wp_onUio]
  apply wp_ends (Uio.uiomove_spec req.valid req.space _ resid req.len)
  · rintro buf u ⟨-,rfl,rfl⟩
    rw [wp_request_bad inside (by exact bad)]
    exact Or.inl ⟨rfl,by simp only [Uio.moved,writing]⟩
  · rintro e u ⟨code,closed,same⟩
    exact Or.inr ⟨code,Uio.user_of_not_open closed,rfl,⟨0,by simp [Disk.tick]⟩,same⟩

/-- What one call of a driver that never loses data does with a request for a sector. -/
def Obedient (driver : Driver) (io : DevIo) (dBlocks sector : Nat) : Prop :=
  (driver dBlocks).wp io (fun _ t => io.disk.media 0 = true ∧ t = io.transfer sector)
    (fun e t => (e = .eio ∧ io.disk.media 0 = false ∧ t = { io with disk := io.disk.tick 1 }) ∨
      (e = .efault ∧ ¬io.uio.Open 512 ∧ io.Untouched t))
    (fun _ _ => False)

theorem failStopIo_obedient (req : SectorRequest io.uio sector)
    (inside : sector < dBlocks) : Obedient failStopIo io dBlocks sector := by
  apply ioLoop_single _ req inside
  simp only [wp_bind,wp_read]
  cases media : io.disk.media 0
  · simp only [Bool.false_eq_true,if_false]
    rw [wp_request_bad inside media]
    exact Or.inl ⟨rfl,trivial,rfl⟩
  · simp only [if_true]
    exact wp_ends (sectorIo_good req inside media) (fun _ _ h => ⟨trivial,h⟩)
      (fun _ _ h => Or.inr h)

theorem io_obedient (req : SectorRequest io.uio sector)
    (inside : sector < dBlocks) (safe : io.disk.media 0 = true ∨ io.uio.uioRw = .read) :
    Obedient Lhd.io io dBlocks sector := by
  apply ioLoop_single _ req inside
  cases media : io.disk.media 0
  · have reading : io.uio.uioRw = .read := by
      rcases safe with good | reading
      · rw [media] at good; exact Bool.noConfusion good
      · exact reading
    apply wp_mono (sectorIo_bad_read reading inside media)
    · exact fun _ _ h => h.elim
    · exact fun _ _ h => Or.inl ⟨h.1,rfl,h.2⟩
    · exact fun _ _ h => h
  · exact wp_ends (sectorIo_good req inside media) (fun _ _ h => ⟨rfl,h⟩)
      (fun _ _ h => Or.inr h)

end Lhd
end Os161
