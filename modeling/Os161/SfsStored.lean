import Os161.SfsReadEof

/-! What `sfs_write` counts. The size of the file and the residue of the uio are to speak of the bytes
that are in the file, however the call ends. They do not when the device gives up on a partial block:
`uiomove` has moved the cursor over the bytes by the time `sfs_partialio` writes the block back. -/
namespace Os161

open SfsFs

structure Ended (k n m : Nat) (a t : SfsIo) : Prop where
  le : m ≤ a.uio.uioResid
  bound : m = 0 ∨ a.uio.pos + m ≤ 143 * 512
  front : a.uio.uioOffset < 0 → m = 0
  loaded : t.fs.loaded k
  self : t.fs.view k = { a.fs.view k with content := a.uio.stored (a.fs.view k).content n }
  cursor : (a.uio.advance m).SameCursor t.uio

def Ends (k : Nat) (lost : Prop) (a t : SfsIo) : Prop :=
  ∃ n m, Ended k n m a t ∧
    (lost ↔ a.uio.stored (a.fs.view k).content n ≠ a.uio.stored (a.fs.view k).content m)

section Ended
variable {strict : Prop} {live : Nat → Prop} {k lo hi n m : Nat} {lost : Prop} {a b t : SfsIo}

theorem IoMoved.ended (sized : a.uio.Sized) (write : a.uio.uioRw = .write) (isLoaded : a.fs.loaded k)
    (le : n ≤ a.uio.uioResid) (moved : IoMoved strict live k lo hi n a t) : Ended k n n a t where
  le := le
  bound := moved.bound
  front := fun front => absurd front sized.low.not_gt
  loaded := moved.frame.loaded.mpr isLoaded
  self := moved.self
  cursor := ⟨t.uio.mem,by rw [moved.advanced write]⟩

theorem IoMoved.ends (sized : a.uio.Sized) (write : a.uio.uioRw = .write) (le : n ≤ a.uio.uioResid)
    (moved : IoMoved strict live k lo hi n a b) (rest : Ends k lost b t) : Ends k lost a t := by
  obtain ⟨i,j,ended,seen⟩ := rest
  obtain ⟨sizedB,posB,residB⟩ := moved.cursor sized le
  have room := moved.room sized
  have after : ∀ m, b.uio.stored (b.fs.view k).content m =
      a.uio.stored (a.fs.view k).content (n + m) := fun m => by
    rw [moved.self,moved.uio]
    exact sized.stored_moved _ _ room
  have leJ := ended.le
  refine ⟨n + i,n + j,?_,by rw [seen,after,after]⟩
  exact {
    le := by omega
    bound := by
      have := ended.bound
      have := moved.bound
      omega
    front := fun front => absurd front sized.low.not_gt
    loaded := ended.loaded
    self := by rw [ended.self,after,moved.self]
    cursor := by
      have cursor := ended.cursor
      rwa [moved.advanced write,Uio.advance_advance] at cursor }

theorem Ended.start {s : SfsFs} (valid : a.uio.Valid) (h : live k) (isLoaded : a.fs.loaded k)
    (frame : Frame live a.fs s) : Ended k 0 0 a ⟨s,a.uio⟩ where
  le := Nat.zero_le _
  bound := Or.inl rfl
  front _ := rfl
  loaded := frame.loaded.mpr isLoaded
  self := by rw [Uio.stored_zero]; exact frame.views k h
  cursor := ⟨_,by rw [valid.advance_zero]⟩

theorem Ends.loaded (ends : Ends k lost a t) : t.fs.loaded k := by
  obtain ⟨n,m,ended,-⟩ := ends
  exact ended.loaded

end Ended

section Partial
variable {strict : Prop} {live : Nat → Prop} {k lo hi n : Nat} {a b t : SfsIo}

end Partial

/-! The whole request -/

section Body
variable {strict : Prop} {live : Nat → Prop} {k n : Nat} {a b t : SfsIo}

section
variable (cons : Consistent strict live ∅ a.fs) (h : live k) (isLoaded : a.fs.loaded k)
  (sized : a.uio.Sized) (write : a.uio.uioRw = .write)
include cons h isLoaded sized write

end

end Body

end Os161
