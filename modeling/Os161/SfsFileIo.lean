import Os161.SfsAlloc

/-! `sfs_partialio`, `sfs_blockio` and `sfs_io`: a transfer moves bytes between the uio
and the contents of one file, block by block, and touches no other file. -/
namespace Os161

namespace Uio

/-- A request with a position in the file and a buffer that holds it. -/
structure Sized (u : Uio) : Prop where
  low : 0 ≤ u.uioOffset
  high : u.uioOffset < 2^31
  resid : u.uioResid < 2^32
  len : u.uioResid ≤ u.iovLen
  space : u.spaceOk = true

variable {u : Uio}

theorem Sized.valid (sized : u.Sized) : u.Valid where
  low := by have := sized.low; omega
  high := sized.high
  resid := sized.resid

def pos (u : Uio) : Nat := u.uioOffset.toNat

/-- The contents of the file after `n` bytes have gone through the uio. -/
def stored (u : Uio) (content : Nat → UInt8) (n : Nat) : Nat → UInt8 :=
  match u.uioRw with
  | .read => content
  | .write => overwrite content u.pos (fun i => u.mem (u.iovBase + i)) n

theorem Sized.pos_eq (sized : u.Sized) : (u.pos : Int) = u.uioOffset := by
  have := sized.low
  simp [pos,this]

theorem Sized.pos_lt (sized : u.Sized) : u.pos < 2^31 := by
  have := sized.pos_eq
  have := sized.high
  omega

variable {n : Nat}

theorem Sized.offset_moved (sized : u.Sized) (buf : Nat → UInt8)
    (room : u.pos + n < 2^31) : (u.moved buf n).uioOffset = u.uioOffset + n :=
  moved_offset_of_lt sized.valid buf (by have := sized.pos_eq; omega)

theorem Sized.pos_moved (sized : u.Sized) (buf : Nat → UInt8)
    (room : u.pos + n < 2^31) : (u.moved buf n).pos = u.pos + n := by
  have := sized.pos_eq
  have offset := sized.offset_moved buf room
  rw [pos,offset]
  omega

theorem Sized.moved (sized : u.Sized) (buf : Nat → UInt8)
    (le : n ≤ u.uioResid) (room : u.pos + n < 2^31) : (u.moved buf n).Sized := by
  have low := sized.low
  have small := sized.resid
  have len := sized.len
  have at_ := sized.pos_eq
  have offset := sized.offset_moved buf room
  have resid := moved_resid_of_le sized.valid buf le
  exact {
    low := by omega
    high := by omega
    resid := by omega
    len := by rw [resid,moved_iovLen]; omega
    space := by rw [moved_spaceOk]; exact sized.space }

theorem Sized.cut (sized : u.Sized) (extra : Nat) :
    ({ u with uioResid := u.uioResid - extra } : Uio).Sized :=
  ⟨sized.low,sized.high,(Nat.sub_le _ _).trans_lt sized.resid,(Nat.sub_le _ _).trans sized.len,
    sized.space⟩

theorem Sized.fileblock (sized : u.Sized) : u32 (u.uioOffset.tdiv 512) = u.pos / 512 := by
  have := sized.pos_lt
  have offset := sized.pos_eq
  have quotient : u.uioOffset.tdiv 512 = ((u.pos / 512 : Nat) : Int) := by
    rw [← offset]
    exact (Int.ofNat_tdiv _ _).symm
  rw [quotient,u32_natCast (by omega)]

theorem Sized.blkoff (sized : u.Sized) : u32 (u.uioOffset.tmod 512) = u.pos % 512 := by
  have remainder : u.uioOffset.tmod 512 = ((u.pos % 512 : Nat) : Int) := by
    rw [← sized.pos_eq]
    exact (Int.ofNat_tmod _ _).symm
  rw [remainder,u32_natCast (by omega)]

theorem stored_zero (u : Uio) (content : Nat → UInt8) : u.stored content 0 = content := by
  unfold stored
  split
  · rfl
  · exact overwrite_none _ _ _

theorem Sized.stored_moved (sized : u.Sized) (content buf : Nat → UInt8) {m : Nat}
    (room : u.pos + n < 2^31) :
    (u.moved buf n).stored (u.stored content n) m = u.stored content (n + m) := by
  cases rw_ : u.uioRw with
  | read => simp only [stored,moved_rw,rw_]
  | write =>
    have mem : (u.moved buf n).mem = u.mem := by simp [Uio.moved,rw_]
    simp only [stored,moved_rw,rw_,sized.pos_moved buf room,mem,moved_iovBase,Nat.add_assoc]
    exact overwrite_append content u.pos (fun i => u.mem (u.iovBase + i)) n m

theorem stored_chunk (write : u.uioRw = .write) {content buf : Nat → UInt8} {d : Block}
    {len : Nat} (fits : u.pos % 512 + len ≤ 512)
    (same : ∀ o, o / 512 = u.pos / 512 → content o = d.bytes (o % 512)) :
    (fun o => if o / 512 = u.pos / 512
      then (Block.ofBytes (overwrite d.bytes (u.pos % 512) (u.filled buf len) len)).bytes (o % 512)
      else content o) = u.stored content len := by
  funext o
  simp only [stored,write]
  by_cases inBlock : o / 512 = u.pos / 512
  · rw [if_pos inBlock,Block.bytes_ofBytes _ (by omega)]
    simp only [overwrite]
    by_cases covered : u.pos % 512 ≤ o % 512 ∧ o % 512 < u.pos % 512 + len
    · rw [if_pos covered,if_pos (by omega)]
      simp only [filled,write,overwrite]
      rw [if_pos (by omega)]
      congr 2
      omega
    · rw [if_neg covered,if_neg (by omega),same o inBlock]
  · rw [if_neg inBlock,overwrite,if_neg (by omega)]

theorem stored_block (write : u.uioRw = .write) {content : Nat → UInt8}
    (aligned : u.pos % 512 = 0) :
    (fun o => if o / 512 = u.pos / 512
      then (Block.ofBytes fun i => u.mem (u.iovBase + i)).bytes (o % 512) else content o) =
      u.stored content 512 := by
  funext o
  simp only [stored,write,overwrite]
  by_cases inBlock : o / 512 = u.pos / 512
  · rw [if_pos inBlock,Block.bytes_ofBytes _ (by omega),if_pos (by omega)]
    congr 2
    omega
  · rw [if_neg inBlock,if_neg (by omega)]

end Uio

open SfsFs

def Others (live : Nat → Prop) (k : Nat) : Nat → Prop := fun j => live j ∧ j ≠ k

theorem SfsFs.Frame.others {live : Nat → Prop} {s t : SfsFs} (frame : Frame live s t) (k : Nat) :
    Frame (Others live k) s t :=
  ⟨frame.super,fun j h => frame.views j h.1,frame.handle⟩

section StoreBlock
variable {strict : Prop} {live : Nat → Prop} {held : Set Nat} {s : SfsFs} {k n : Nat}

structure BlockStored (strict : Prop) (live : Nat → Prop) (held : Set Nat) (k n : Nat) (d : Block)
    (s t : SfsFs) : Prop where
  consistent : Consistent strict live held t
  frame : Frame (Others live k) s t
  self : t.view k = { s.view k with
    content := fun o => if o / 512 = n then d.bytes (o % 512) else (s.view k).content o }
  missing : ∀ lo hi, t.missing k lo hi = s.missing k lo hi
  free : t.free = s.free

theorem SfsFs.Consistent.storeBlock (c : Consistent strict live held s) (h : live k)
    (some_ : s.block k n ≠ 0) (d : Block) :
    BlockStored strict live held k n d s (s.store (s.block k n) d) := by
  have owner : ∀ o, s.Claims live o (s.block k n) → o = dataOwner k n := fun o claim =>
    c.owned.unique claim ((claims_data (block_lt some_)).mpr ⟨h,rfl,some_⟩)
  have isData : ∀ o, s.Claims live o (s.block k n) → o.IsData := fun o claim =>
    owner o claim ▸ dataOwner_isData k n
  have apart : ∀ j, live j → j ≠ s.block k n ∧ s.indirect j ≠ s.block k n := fun j hj =>
    Consistent.apart isData hj some_
  have inodes : ∀ j, live j → (s.store (s.block k n) d).inode j = s.inode j := fun j hj =>
    inode_store (apart j hj).1
  have sharing : ∀ j m, live j → s.block j m = s.block k n → j = k ∧ m = n := by
    intro j m hj same
    refine dataOwner_inj (owner _ ((claims_data (block_lt (same ▸ some_))).mpr ⟨hj,same.symm,some_⟩))
  exact {
    consistent := c.storeData isData
    frame := {
      super := rfl
      views := fun j ⟨hj,ne⟩ => by
        refine view_congr (by rw [inodes j hj]) (by rw [inodes j hj]) (by rw [inodes j hj]) ?_
        intro m
        rw [data_store (apart j hj).1 (apart j hj).2]
        exact if_neg fun ⟨_,same⟩ => ne (sharing j m hj same).1
      handle := rfl }
    self := by
      have content : ∀ m, (s.store (s.block k n) d).data k m = if m = n then d else s.data k m := by
        intro m
        rw [data_store (apart k h).1 (apart k h).2]
        by_cases same : m = n
        · subst m
          rw [if_pos ⟨some_,rfl⟩,if_pos rfl]
        · rw [if_neg fun both => same (sharing k m h both.2).2,if_neg same]
      simp only [view,inodes k h,content]
      congr 1
      funext o
      split <;> rfl
    missing := missing_congr (block_store (apart k h).1 (apart k h).2)
      (by rw [SfsFs.indirect,inodes k h]; rfl)
    free := rfl }

theorem sfsWblock_file (c : Consistent strict live held s) (h : live k) (some_ : s.block k n ≠ 0)
    (d : Block) :
    (sfsWblock d (s.block k n)).wp s (fun _ t => BlockStored strict live held k n d s t)
      (fun e t => e = .eio ∧ ¬strict ∧ t = s.tick 11) never := by
  apply wp_ends (sfsWblock_spec (c.geometry.reaches (c.block_used h n some_).1) d)
  · rintro _ _ ⟨m,-,-,rfl⟩
    have stored := (c.tick (m + 1)).storeBlock h some_ d
    exact ⟨stored.consistent,(frame_tick s _).trans stored.frame,stored.self,stored.missing,
      stored.free⟩
  · rintro e t ⟨rfl,bad,rfl⟩
    exact ⟨rfl,c.geometry.lax (bad 0 (by omega)),rfl⟩

end StoreBlock

/-- `n` bytes have gone through the uio of a transfer on file `k`. The blocks it may have
allocated lie in `lo ..< hi`. -/
structure IoMoved (strict : Prop) (live : Nat → Prop) (k lo hi n : Nat) (a b : SfsIo) : Prop where
  consistent : Consistent strict live ∅ b.fs
  uio : b.uio = a.uio.moved (fun i => (a.fs.view k).content (a.uio.pos + i)) n
  frame : Frame (Others live k) a.fs b.fs
  self : b.fs.view k = { a.fs.view k with content := a.uio.stored (a.fs.view k).content n }
  reading : a.uio.uioRw = .read → ∃ m, b.fs = a.fs.tick m
  budget : strict → b.fs.free + a.fs.missing k lo hi = a.fs.free + b.fs.missing k lo hi
  bound : n = 0 ∨ a.uio.pos + n ≤ 143 * 512

def IoError (strict : Prop) (k lo hi : Nat) (a : SfsIo) (e : Errno) : Prop :=
  (e = .einval ∧ 143 < hi) ∨
  (e = .enospc ∧ a.uio.uioRw = .write ∧ (strict → a.fs.free < a.fs.missing k lo hi)) ∨
  (e = .eio ∧ ¬strict) ∨ (e = .efault ∧ a.uio.uioSegflg ≠ .sysspace)

/-- What the read of a chunk of `n` bytes blames when it fails: the medium, memory in the chunk, or the
end of the largest file. -/
def Blamed (n : Nat) (a b : SfsIo) (e : Errno) : Prop :=
  a.uio.uioRw = .read → (e = .eio → ¬a.fs.disk.Reliable) ∧
    (e = .efault → ¬a.uio.Open n ∧ a.uio.pos + n ≤ 143 * 512) ∧
    (e = .einval → b = a ∧ 143 * 512 ≤ a.uio.pos)

/-- A transfer has stopped after `n` bytes: at its start or at the start of a block. When
the device gave up on a write, the uio has already moved past the bytes that were lost. -/
structure IoStopped (strict : Prop) (live : Nat → Prop) (k lo hi n : Nat) (a b : SfsIo)
    (e : Errno) : Prop where
  consistent : Consistent strict live ∅ b.fs
  kept : a.uio.Kept b.uio
  frame : Frame (Others live k) a.fs b.fs
  self : b.fs.view k = { a.fs.view k with content := a.uio.stored (a.fs.view k).content n }
  reading : a.uio.uioRw = .read → ∃ m, b.fs = a.fs.tick m
  place : n = 0 ∨ (n < a.uio.uioResid ∧ (a.uio.pos + n) % 512 = 0)
  bound : n = 0 ∨ a.uio.pos + n ≤ 143 * 512
  cursor : a.uio.uioRw = .write → b.uio.uioOffset = a.uio.uioOffset + n ∨
    (¬strict ∧ b.uio.uioOffset =
      a.uio.uioOffset + n + min (512 - (a.uio.pos + n) % 512) (a.uio.uioResid - n) ∧
      a.uio.pos + n + min (512 - (a.uio.pos + n) % 512) (a.uio.uioResid - n) ≤ 143 * 512)
  code : IoError strict k lo hi a e

/-- The same for a read that has stopped after `n` bytes, and what it has moved up to the end of the
largest file. -/
def ReadStop (strict : Prop) (live : Nat → Prop) (k lo hi n : Nat) (a b : SfsIo) (e : Errno) : Prop :=
  a.uio.uioRw = .read → (e = .eio → ¬a.fs.disk.Reliable) ∧
    (e = .efault → ∃ c, n + c ≤ a.uio.uioResid ∧ a.uio.pos + n + c ≤ 143 * 512 ∧ ¬a.uio.Open (n + c)) ∧
    (e = .einval → IoMoved strict live k lo hi n a b ∧ 143 * 512 ≤ a.uio.pos + n)

section Transfer
variable {strict : Prop} {live : Nat → Prop} {k lo hi n m : Nat} {a b c : SfsIo} {e : Errno}

theorem IoMoved.refl (consistent : Consistent strict live ∅ a.fs) (sized : a.uio.Sized) :
    IoMoved strict live k lo hi 0 a a where
  consistent := consistent
  uio := (sized.valid.moved_zero _).symm
  frame := .refl _ _
  self := by rw [Uio.stored_zero]
  reading _ := ⟨0,a.fs.tick_zero.symm⟩
  budget _ := rfl
  bound := Or.inl rfl

theorem IoMoved.room (moved : IoMoved strict live k lo hi n a b) (sized : a.uio.Sized) :
    a.uio.pos + n < 2^31 := by
  have := moved.bound
  have := sized.pos_lt
  omega

theorem IoMoved.cursor (sized : a.uio.Sized) (le : n ≤ a.uio.uioResid)
    (moved : IoMoved strict live k lo hi n a b) :
    b.uio.Sized ∧ b.uio.pos = a.uio.pos + n ∧ b.uio.uioResid = a.uio.uioResid - n := by
  rw [moved.uio]
  exact ⟨sized.moved _ le (moved.room sized),sized.pos_moved _ (moved.room sized),
    Uio.moved_resid_of_le sized.valid _ le⟩

theorem IoMoved.advanced (moved : IoMoved strict live k lo hi n a b) (write : a.uio.uioRw = .write) :
    b.uio = a.uio.advance n := by
  rw [moved.uio]
  simp only [Uio.moved,write]

theorem IoMoved.ahead (sized : a.uio.Sized) (first : IoMoved strict live k lo hi n a b) :
    b.uio.moved (fun i => (b.fs.view k).content (b.uio.pos + i)) m =
      a.uio.moved (fun i => (a.fs.view k).content (a.uio.pos + i)) (n + m) := by
  rw [← Uio.moved_moved,first.uio]
  cases rw_ : a.uio.uioRw with
  | read =>
    refine Uio.moved_congr _ fun i _ => ?_
    rw [sized.pos_moved _ (first.room sized),first.self]
    simp only [Uio.stored,rw_,Nat.add_assoc]
  | write => simp only [Uio.moved,rw_,Uio.advance_rw]

section
variable (sized : a.uio.Sized) (first : IoMoved strict live k lo hi n a b)
include sized first

theorem IoMoved.view_next {t : SfsFs}
    (self : t.view k = { b.fs.view k with content := b.uio.stored (b.fs.view k).content m }) :
    t.view k = { a.fs.view k with content := a.uio.stored (a.fs.view k).content (n + m) } := by
  rw [self,first.self,first.uio]
  simp only [sized.stored_moved _ _ (first.room sized)]

omit sized in
theorem IoMoved.reading_next {t : SfsFs} (next : b.uio.uioRw = .read → ∃ m, t = b.fs.tick m)
    (read : a.uio.uioRw = .read) : ∃ m, t = a.fs.tick m := by
  obtain ⟨i,hi⟩ := first.reading read
  obtain ⟨j,hj⟩ := next (by rw [first.uio,Uio.moved_rw,read])
  exact ⟨i + j,by rw [hj,hi,SfsFs.tick_tick]⟩

theorem IoMoved.trans (second : IoMoved strict live k lo hi m b c) :
    IoMoved strict live k lo hi (n + m) a c where
  consistent := second.consistent
  uio := second.uio.trans (first.ahead sized)
  frame := first.frame.trans second.frame
  self := first.view_next sized second.self
  reading := first.reading_next second.reading
  budget isStrict := by
    have := first.budget isStrict
    have := second.budget isStrict
    omega
  bound := by
    have pos : b.uio.pos = a.uio.pos + n := by rw [first.uio,sized.pos_moved _ (first.room sized)]
    have := first.bound
    have := second.bound
    omega

theorem IoMoved.readStop (le : n ≤ a.uio.uioResid) (next : ReadStop strict live k lo hi m b c e) :
    ReadStop strict live k lo hi (n + m) a c e := by
  intro read
  obtain ⟨-,pos,resid⟩ := first.cursor sized le
  obtain ⟨i,ticked⟩ := first.reading read
  obtain ⟨io,fault,beyond⟩ := next (by rw [first.uio,Uio.moved_rw,read])
  refine ⟨fun code reliable => io code ?_,fun code => ?_,fun code => ?_⟩
  · rw [ticked]
    exact fun _ => reliable _
  · obtain ⟨c,short,room,closed⟩ := fault code
    refine ⟨c,by omega,by omega,fun open_ => closed ?_⟩
    rw [Nat.add_assoc] at open_
    rw [first.uio]
    exact ((Uio.open_add _).mp open_).2
  · obtain ⟨second,far⟩ := beyond code
    exact ⟨first.trans sized second,by omega⟩

theorem IoMoved.stopped (place : n = 0 ∨ (n < a.uio.uioResid ∧ (a.uio.pos + n) % 512 = 0))
    (second : IoStopped strict live k lo hi m b c e) : IoStopped strict live k lo hi (n + m) a c e := by
  obtain ⟨-,pos,resid⟩ := first.cursor sized (by omega)
  have offset : b.uio.uioOffset = a.uio.uioOffset + n := by
    rw [first.uio,sized.offset_moved _ (first.room sized)]
  have same : a.uio.Kept b.uio := by rw [first.uio]; exact Uio.moved_kept _ _ _
  exact {
    consistent := second.consistent
    kept := same.trans second.kept
    frame := first.frame.trans second.frame
    self := first.view_next sized second.self
    reading := first.reading_next second.reading
    place := by
      rcases second.place with rfl | ⟨lt,boundary⟩
      · exact place
      · rw [pos,Nat.add_assoc] at boundary
        exact Or.inr ⟨by omega,boundary⟩
    bound := by
      have := first.bound
      have := second.bound
      omega
    cursor := fun write => by
      have moved := second.cursor (same.rw_.trans write)
      rw [offset,pos,resid,Nat.add_assoc,Nat.sub_sub] at moved
      rcases moved with moved | ⟨lax,moved,inside⟩
      · exact Or.inl (by omega)
      · exact Or.inr ⟨lax,by omega,by omega⟩
    code := by
      rcases second.code with invalid | ⟨full,write,short⟩ | io | ⟨fault,user⟩
      · exact Or.inl invalid
      · refine Or.inr (Or.inl ⟨full,same.rw_ ▸ write,fun isStrict => ?_⟩)
        have := first.budget isStrict
        have := short isStrict
        omega
      · exact Or.inr (Or.inr (Or.inl io))
      · exact Or.inr (Or.inr (Or.inr ⟨fault,same.segflg ▸ user⟩)) }

end

theorem Blamed.readStop (cons : Consistent strict live ∅ a.fs) (sized : a.uio.Sized)
    (le : n ≤ a.uio.uioResid) (blamed : Blamed n a b e) : ReadStop strict live k lo hi 0 a b e := by
  intro read
  obtain ⟨io,fault,beyond⟩ := blamed read
  refine ⟨io,fun code => ⟨n,by omega,(fault code).2,?_⟩,fun code => ?_⟩
  · rw [Nat.zero_add]
    exact (fault code).1
  · obtain ⟨rfl,far⟩ := beyond code
    exact ⟨.refl cons sized,far⟩

theorem partialioFetch_spec (cons : Consistent strict live ∅ a.fs) (h : live k) (n : Nat) {rw_ : UioRw}
    (hole : a.fs.block k n = 0 → rw_ = .read) :
    (partialioFetch rw_ (a.fs.block k n)).wp a
      (fun buf t => buf = a.fs.data k n ∧ ∃ m, t = ⟨a.fs.tick m,a.uio⟩)
      (fun e t => e = .eio ∧ ¬strict ∧ ¬a.fs.disk.Reliable ∧ ∃ m, t = ⟨a.fs.tick m,a.uio⟩) never := by
  unfold partialioFetch
  rw [wp_ite]
  refine ⟨fun zero => ?_,fun nonzero => ?_⟩
  · simp only [wp_bind,wp_assert,hole zero,decide_true,if_true,wp_pure]
    exact ⟨by rw [data,if_pos zero],0,by rw [SfsFs.tick_zero]⟩
  · rw [SfsIo.wp_onFs]
    have reaches := cons.geometry.reaches (cons.block_used h n nonzero).1
    apply wp_ends (sfsRblock_spec reaches)
    · rintro buf t ⟨rfl,i,-,-,rfl⟩
      exact ⟨by rw [data,if_neg nonzero],_,rfl⟩
    · rintro e t ⟨rfl,bad,rfl⟩
      exact ⟨rfl,cons.geometry.lax (bad 0 (by omega)),Disk.not_reliable (bad 0 (by omega)),_,rfl⟩

variable {t : SfsFs} {u : Uio}

theorem IoStopped.before (h : live k) (consistent : Consistent strict live ∅ t)
    (frame : Frame live a.fs t) (quiet : a.uio.uioRw = .read → ∃ m, t = a.fs.tick m)
    (kept : a.uio.Kept u) (cursor : a.uio.uioRw = .write → u.uioOffset = a.uio.uioOffset ∨
      (¬strict ∧ u.uioOffset =
        a.uio.uioOffset + min (512 - a.uio.pos % 512) a.uio.uioResid ∧
        a.uio.pos + min (512 - a.uio.pos % 512) a.uio.uioResid ≤ 143 * 512))
    (code : IoError strict k lo hi a e) : IoStopped strict live k lo hi 0 a ⟨t,u⟩ e where
  consistent := consistent
  kept := kept
  frame := frame.others k
  self := by
    rw [Uio.stored_zero]
    exact frame.views k h
  reading := quiet
  place := Or.inl rfl
  bound := Or.inl rfl
  cursor write := by simpa using cursor write
  code := code

theorem IoStopped.still (h : live k) (mapped : Mapped strict live k n a.fs t)
    (quiet : a.uio.uioRw = .read → ∃ m, t = a.fs.tick m) (same : a.uio.SameCursor u)
    (code : IoError strict k lo hi a e) : IoStopped strict live k lo hi 0 a ⟨t,u⟩ e := by
  obtain ⟨mem,rfl⟩ := same
  exact .before h mapped.consistent mapped.frame quiet ⟨rfl,rfl,rfl⟩ (fun _ => .inl rfl) code

theorem Mapped.later {s : SfsFs} (mapped : Mapped strict live k n s t) (i : Nat) :
    Mapped strict live k n s (t.tick i) :=
  ⟨mapped.consistent.tick i,mapped.frame.trans (frame_tick t i),mapped.budget⟩

theorem SfsFs.ticked_later {s : SfsFs} (ticked : ∃ m, t = s.tick m) (i : Nat) :
    ∃ m, t.tick i = s.tick m := by
  obtain ⟨m,rfl⟩ := ticked
  exact ⟨m + i,by rw [SfsFs.tick_tick]⟩

section
variable (h : live k) (mapped : Mapped strict live k (a.uio.pos / 512) a.fs t)
  (low : lo ≤ a.uio.pos / 512) (high : a.uio.pos / 512 < hi)
include h mapped low high

theorem IoMoved.of_read (read : a.uio.uioRw = .read) (quiet : ∃ m, t = a.fs.tick m)
    (uio : u = a.uio.moved (fun i => (a.fs.view k).content (a.uio.pos + i)) n)
    (bound : a.uio.pos + n ≤ 143 * 512) : IoMoved strict live k lo hi n a ⟨t,u⟩ where
  consistent := mapped.consistent
  uio := uio
  frame := mapped.frame.others k
  self := by
    simp only [Uio.stored,read]
    exact mapped.frame.views k h
  reading _ := quiet
  budget isStrict := mapped.budget isStrict lo hi low high
  bound := .inr bound

theorem IoMoved.of_write {t' : SfsFs} {d : Block} (write : a.uio.uioRw = .write)
    (stored : BlockStored strict live ∅ k (a.uio.pos / 512) d t t')
    (content : (fun o => if o / 512 = a.uio.pos / 512 then d.bytes (o % 512)
      else (a.fs.view k).content o) = a.uio.stored (a.fs.view k).content n)
    (uio : u = a.uio.moved (fun i => (a.fs.view k).content (a.uio.pos + i)) n)
    (bound : a.uio.pos + n ≤ 143 * 512) : IoMoved strict live k lo hi n a ⟨t',u⟩ where
  consistent := stored.consistent
  uio := uio
  frame := (mapped.frame.others k).trans stored.frame
  self := by
    refine stored.self.trans ?_
    rw [← content,mapped.frame.views k h]
  reading read := by rw [read] at write; cases write
  budget isStrict := by
    have before := mapped.budget isStrict lo hi low high
    rw [← stored.missing,← stored.free] at before
    exact before
  bound := .inr bound

end

theorem UioRw.read_of_ne_write {rw_ : UioRw} (notWrite : rw_ ≠ .write) : rw_ = .read := by
  cases rw_ with
  | read => rfl
  | write => exact absurd rfl notWrite

theorem BmapError.io (low : lo ≤ n) (high : n < hi)
    (code : BmapError strict k n (decide (a.uio.uioRw = .write)) a.fs e) :
    IoError strict k lo hi a e := by
  rcases code with ⟨invalid,beyond⟩ | ⟨full,write,short⟩ | io
  · exact Or.inl ⟨invalid,by omega⟩
  · exact Or.inr (Or.inl ⟨full,of_decide_eq_true write,fun _ => short lo hi low high⟩)
  · exact Or.inr (Or.inr (Or.inl io))

theorem BmapError.blamed {doalloc : Bool} (code : BmapError strict k (a.uio.pos / 512) doalloc a.fs e)
    (quiet : a.uio.uioRw = .read → (e = .eio → ¬a.fs.disk.Reliable) ∧ (e = .einval → t = a.fs)) :
    Blamed n a ⟨t,a.uio⟩ e := by
  intro read
  obtain ⟨io,same⟩ := quiet read
  refine ⟨io,fun fault => ?_,fun invalid => ⟨by rw [same invalid],?_⟩⟩
  · subst fault
    rcases code with ⟨other,-⟩ | ⟨other,-⟩ | ⟨other,-⟩ <;> cases other
  · subst invalid
    rcases code with ⟨-,beyond⟩ | ⟨other,-⟩ | ⟨other,-⟩
    · omega
    · cases other
    · cases other

/-- `sfs_partialio` up to the write-back: the disk block, and the buffer with the bytes that have
gone through the uio. -/
def partialioFill (k skipstart len : Nat) : Call SfsIo (Nat × Block) := do
  let io ← read
  assert ((skipstart + len) % 2^32 ≤ 512) .partialioRange
  let fileblock := u32 (io.uio.uioOffset.tdiv 512)
  let diskblock ← SfsIo.onFs (sfsBmap k fileblock (io.uio.uioRw = .write))
  let iobuf ← partialioFetch io.uio.uioRw diskblock
  assert (skipstart + len ≤ 512) .bufferOverrun
  let moved ← SfsIo.onUio (Uio.uiomove (fun i => iobuf.bytes (skipstart + i)) len)
  return (diskblock,Block.ofBytes (overwrite iobuf.bytes skipstart moved len))

variable {ok : Unit → SfsIo → Prop} {err : Errno → SfsIo → Prop} {halt : Panic → SfsIo → Prop}

theorem wp_sfsPartialio {skipstart len : Nat} :
    (sfsPartialio k skipstart len).wp a ok err halt ↔
      (partialioFill k skipstart len).wp a
        (fun part t => (if a.uio.uioRw = .write then SfsIo.onFs (sfsWblock part.2 part.1)
          else pure ()).wp t ok err halt) err halt := by
  simp only [sfsPartialio,partialioFill,wp_bind,wp_read,wp_pure]

structure Filled (strict : Prop) (live : Nat → Prop) (k len : Nat) (a t : SfsIo)
    (part : Nat × Block) : Prop where
  mapped : Mapped strict live k (a.uio.pos / 512) a.fs t.fs
  reading : a.uio.uioRw = .read → ∃ m, t.fs = a.fs.tick m
  inside : a.uio.pos / 512 < 143
  uio : t.uio = a.uio.moved (fun i => (a.fs.view k).content (a.uio.pos + i)) len
  diskblock : part.1 = t.fs.block k (a.uio.pos / 512)
  some_ : a.uio.uioRw = .write → t.fs.block k (a.uio.pos / 512) ≠ 0
  iobuf : part.2 = Block.ofBytes (overwrite (t.fs.data k (a.uio.pos / 512)).bytes (a.uio.pos % 512)
    (a.uio.filled (fun j => (t.fs.data k (a.uio.pos / 512)).bytes (a.uio.pos % 512 + j)) len) len)

theorem Filled.same {part : Nat × Block} (filled : Filled strict live k n a b part) (h : live k)
    (o : Nat) (inBlock : o / 512 = a.uio.pos / 512) :
    (a.fs.view k).content o = (b.fs.data k (a.uio.pos / 512)).bytes (o % 512) := by
  rw [← filled.mapped.frame.views k h]
  simp only [view,inBlock]

section
variable (cons : Consistent strict live ∅ a.fs) (h : live k) (isLoaded : a.fs.loaded k)
  (sized : a.uio.Sized) (low : lo ≤ a.uio.pos / 512)
include cons h isLoaded sized low

theorem partialioFill_spec
    (high : a.uio.pos / 512 < hi) :
    (partialioFill k (a.uio.pos % 512) (min (512 - a.uio.pos % 512) a.uio.uioResid)).wp a
      (fun part t => Filled strict live k (min (512 - a.uio.pos % 512) a.uio.uioResid) a t part ∧
        a.uio.Open (min (512 - a.uio.pos % 512) a.uio.uioResid))
      (fun e t => IoStopped strict live k lo hi 0 a t e ∧ a.uio.SameCursor t.uio ∧
        Blamed (min (512 - a.uio.pos % 512) a.uio.uioResid) a t e) never := by
  generalize amount : min (512 - a.uio.pos % 512) a.uio.uioResid = len
  have fits : a.uio.pos % 512 + len ≤ 512 := by omega
  have le : len ≤ a.uio.uioResid := by omega
  have inRange : decide ((a.uio.pos % 512 + len) % 2^32 ≤ 512) = true := decide_eq_true (by omega)
  have inBuffer : decide (a.uio.pos % 512 + len ≤ 512) = true := decide_eq_true fits
  simp only [partialioFill,wp_bind,wp_read,wp_assert,inRange,inBuffer,if_true,
    sized.fileblock,SfsIo.wp_onFs,wp_pure]
  apply wp_ends (sfsBmap_spec cons h isLoaded (a.uio.pos / 512) _)
  · rintro diskblock t ⟨mapped,rfl,inside,nonzero,quiet⟩
    have quietRead : a.uio.uioRw = .read → ∃ m, t = a.fs.tick m := fun read =>
      quiet (by simp [read])
    have hole : t.block k (a.uio.pos / 512) = 0 → a.uio.uioRw = .read := fun zero =>
      UioRw.read_of_ne_write fun write => nonzero (by simp [write]) zero
    have consT : Consistent strict live ∅ (SfsIo.mk t a.uio).fs := mapped.consistent
    apply wp_ends (partialioFetch_spec consT h _ hole)
    · rintro iobuf _ ⟨rfl,i,rfl⟩
      rw [SfsIo.wp_onUio]
      have late := mapped.later i
      apply wp_ends (Uio.uiomove_spec sized.valid sized.space _ le (le.trans sized.len))
      · rintro moved v ⟨open_,rfl,rfl⟩
        refine ⟨⟨late,fun read => ticked_later (quietRead read) i,inside,?_,rfl,
          fun write => nonzero (by simp [write]),rfl⟩,open_⟩
        refine Uio.moved_congr _ fun j hj => ?_
        rw [← mapped.frame.views k h]
        simp only [view]
        rw [show (a.uio.pos + j) / 512 = a.uio.pos / 512 by omega]
        congr 1
        omega
      · rintro e v ⟨rfl,closed,sameCursor⟩
        exact ⟨.still h late (fun read => ticked_later (quietRead read) i) sameCursor
          (.inr (.inr (.inr ⟨rfl,Uio.user_of_not_open closed⟩))),sameCursor,
          fun _ => ⟨Errno.noConfusion,fun _ => ⟨closed,by omega⟩,Errno.noConfusion⟩⟩
    · rintro e _ ⟨rfl,lax,bad,i,rfl⟩
      refine ⟨.still h (mapped.later i) (fun read => ticked_later (quietRead read) i) ⟨_,rfl⟩
        (.inr (.inr (.inl ⟨rfl,lax⟩))),⟨_,rfl⟩,
        fun read => ⟨fun _ reliable => ?_,Errno.noConfusion,Errno.noConfusion⟩⟩
      obtain ⟨m,rfl⟩ := quietRead read
      exact bad fun i => reliable _
  · rintro e t ⟨mapped,code,quiet⟩
    exact ⟨.still h mapped (fun read => (quiet (by simp [read])).1) ⟨_,rfl⟩ (code.io low high),⟨_,rfl⟩,
      code.blamed fun read => (quiet (by simp [read])).2⟩

theorem sfsPartialio_spec
    (high : a.uio.pos / 512 < hi) :
    (sfsPartialio k (a.uio.pos % 512) (min (512 - a.uio.pos % 512) a.uio.uioResid)).wp a
      (fun _ t => IoMoved strict live k lo hi (min (512 - a.uio.pos % 512) a.uio.uioResid) a t)
      (fun e t => IoStopped strict live k lo hi 0 a t e ∧
        Blamed (min (512 - a.uio.pos % 512) a.uio.uioResid) a t e) never := by
  rw [wp_sfsPartialio]
  have fill := partialioFill_spec cons h isLoaded sized low high
  generalize amount : min (512 - a.uio.pos % 512) a.uio.uioResid = len at *
  apply wp_ends fill
  · rintro part ⟨t,u⟩ ⟨filled,-⟩
    obtain ⟨diskblock,iobuf⟩ := part
    obtain rfl : diskblock = t.block k (a.uio.pos / 512) := filled.diskblock
    obtain rfl : u = _ := filled.uio
    have inside := filled.inside
    rw [wp_ite]
    refine ⟨fun write => ?_,fun notWrite => ?_⟩
    · rw [SfsIo.wp_onFs]
      apply wp_ends (sfsWblock_file filled.mapped.consistent h (filled.some_ write) _)
      · intro _ v stored
        rw [filled.iobuf] at stored
        exact .of_write h filled.mapped low high write stored
          (Uio.stored_chunk write (by omega) (filled.same h)) rfl (by omega)
      · rintro e v ⟨rfl,lax,rfl⟩
        have late := filled.mapped.later 11
        have notRead : a.uio.uioRw ≠ .read := by simp [write]
        refine ⟨.before h late.consistent late.frame (absurd · notRead) (Uio.moved_kept _ _ _)
          (fun _ => Or.inr ⟨lax,?_,by omega⟩) (Or.inr (Or.inr (Or.inl ⟨rfl,lax⟩))),(absurd · notRead)⟩
        rw [amount,sized.offset_moved _ (by omega)]
    · have read := UioRw.read_of_ne_write notWrite
      exact .of_read h filled.mapped low high read (filled.reading read) rfl (by omega)
  · exact fun _ _ stopped => ⟨stopped.1,stopped.2.2⟩

end

theorem restore_moved (u : Uio) (disk : Int) (low : 0 ≤ disk)
    (high : disk + 512 < 2^31) (buf : Nat → UInt8) :
    let v := Uio.moved { u with uioOffset := disk, uioResid := 512 } buf 512
    { v with
      uioOffset := i32 (v.uioOffset - disk + u.uioOffset)
      uioResid := u32 ((v.uioResid : Int) - 512 + u.uioResid) } = u.moved buf 512 := by
  have offset : i32 (i32 (disk + 512) - disk + u.uioOffset) = i32 (u.uioOffset + 512) := by
    rw [i32_of_bounds (x := disk + 512) (by omega) high]
    congr 1
    omega
  have resid : u32 ((u32 (512 - 512) : Nat) - 512 + (u.uioResid : Int)) =
      u32 ((u.uioResid : Int) - 512) := by
    rw [Int.sub_self,u32_zero]
    congr 1
  cases rw_ : u.uioRw <;> simp only [Uio.moved,Uio.advance,rw_,Uio.mk.injEq,true_and,and_true]
  · exact ⟨offset,resid⟩
  · exact ⟨offset,resid⟩

theorem restore_same (sized : u.Sized) {disk : Int} (mem : Nat → UInt8) :
    ({ u with
        uioOffset := i32 (disk - disk + u.uioOffset)
        uioResid := u32 (((512 : Nat) : Int) - 512 + u.uioResid)
        mem := mem } : Uio) = { u with mem := mem } := by
  have valid := sized.valid
  have offset : i32 (disk - disk + u.uioOffset) = u.uioOffset := by
    rw [Int.sub_self,Int.zero_add,i32_of_bounds valid.low valid.high]
  have resid : u32 (((512 : Nat) : Int) - 512 + u.uioResid) = u.uioResid := by
    rw [show (((512 : Nat) : Int) - 512 + u.uioResid) = (u.uioResid : Int) by omega,
      u32_natCast valid.resid]
  rw [offset,resid]

theorem blockioDirect_spec {disk : Nat} (reaches : a.fs.Reaches disk)
    (within : disk * 512 + 512 < 2^31) (sized : a.uio.Sized) (whole : 512 ≤ a.uio.uioResid) :
    (blockioDirect disk).wp a
      (fun _ t => ∃ m, t = match a.uio.uioRw with
        | .read => ⟨a.fs.tick m,a.uio.moved (a.fs.sectors disk).bytes 512⟩
        | .write => ⟨(a.fs.tick m).store disk (Block.ofBytes fun i => a.uio.mem (a.uio.iovBase + i)),
            a.uio.advance 512⟩)
      (fun e t => (∃ m, t.fs = a.fs.tick m) ∧ a.uio.SameCursor t.uio ∧
        ((e = .eio ∧ a.fs.disk.media 0 = false) ∨ (e = .efault ∧ ¬a.uio.Open 512))) never := by
  have diskoff : i32 ((disk : Int) * 512) = (disk : Int) * 512 := i32_of_bounds (by omega) (by omega)
  have enough : decide (a.uio.uioResid ≥ 512) = true := decide_eq_true whole
  simp only [blockioDirect,wp_bind,wp_read,wp_assert,enough,if_true,
    wp_attempt,diskoff]
  have req : SectorRequest (SfsIo.mk a.fs
      { a.uio with uioOffset := (disk : Int) * 512, uioResid := 512 }).uio disk :=
    ⟨rfl,reaches.fits,rfl,Nat.le_trans whole sized.len,sized.space⟩
  have reachesV : (SfsIo.mk a.fs
      { a.uio with uioOffset := (disk : Int) * 512, uioResid := 512 }).fs.Reaches disk := reaches
  apply wp_ends (sfsRwblock_spec reachesV req)
  · rintro _ t ⟨m,-,-,rfl⟩
    refine ⟨m + 1,?_⟩
    have restored := restore_moved a.uio ((disk : Int) * 512) (by omega) (by omega)
      (a.fs.sectors disk).bytes
    cases rw_ : a.uio.uioRw with
    | read =>
      simp only [rw_] at restored ⊢
      rw [restored]
    | write =>
      have advanced : a.uio.moved (a.fs.sectors disk).bytes 512 = a.uio.advance 512 := by
        simp only [Uio.moved,rw_]
      rw [advanced] at restored
      rw [← restored]
      simp only [Uio.moved,rw_]
  · rintro e t (⟨rfl,bad,rfl⟩ | ⟨rfl,closed,⟨m,fs⟩,⟨mem,uio⟩⟩)
    · exact ⟨⟨11,rfl⟩,⟨a.uio.mem,restore_same sized a.uio.mem⟩,Or.inl ⟨rfl,bad 0 (by omega)⟩⟩
    · obtain ⟨fsT,uioT⟩ := t
      obtain rfl : uioT = _ := uio
      exact ⟨⟨m,fs⟩,⟨mem,restore_same sized mem⟩,Or.inr ⟨rfl,closed⟩⟩

theorem sfsBlockio_spec (cons : Consistent strict live ∅ a.fs) (h : live k)
    (isLoaded : a.fs.loaded k) (sized : a.uio.Sized) (aligned : a.uio.pos % 512 = 0)
    (whole : 512 ≤ a.uio.uioResid) (low : lo ≤ a.uio.pos / 512) (high : a.uio.pos / 512 < hi) :
    (sfsBlockio k).wp a
      (fun _ t => IoMoved strict live k lo hi 512 a t)
      (fun e t => IoStopped strict live k lo hi 0 a t e ∧
        (a.uio.uioRw = .write ∨ a.fs.block k (a.uio.pos / 512) ≠ 0 → a.uio.SameCursor t.uio) ∧
        Blamed 512 a t e) never := by
  simp only [sfsBlockio,wp_bind,wp_read,sized.fileblock,SfsIo.wp_onFs]
  apply wp_ends (sfsBmap_spec cons h isLoaded (a.uio.pos / 512) _)
  · rintro diskblock t ⟨mapped,rfl,inside,nonzero,quiet⟩
    have quietRead : a.uio.uioRw = .read → ∃ m, t = a.fs.tick m := fun read =>
      quiet (by simp [read])
    have same : ∀ j < 512, (a.fs.view k).content (a.uio.pos + j) =
        (t.data k (a.uio.pos / 512)).bytes j := by
      intro j hj
      rw [← mapped.frame.views k h]
      simp only [view]
      rw [show (a.uio.pos + j) / 512 = a.uio.pos / 512 by omega,
        show (a.uio.pos + j) % 512 = j by omega]
    rw [wp_ite]
    refine ⟨fun hole => ?_,fun some_ => ?_⟩
    · have read : a.uio.uioRw = .read := UioRw.read_of_ne_write fun write =>
        nonzero (by simp [write]) hole
      have check : decide (a.uio.uioRw = .read) = true := decide_eq_true read
      simp only [wp_bind,wp_assert,check,if_true,SfsIo.wp_onUio]
      apply wp_ends (Uio.uiomovezeros_spec sized.valid sized.space read whole
        (whole.trans sized.len))
      · rintro _ _ ⟨-,rfl⟩
        refine .of_read h mapped low high read (quietRead read)
          (Uio.moved_congr _ fun j hj => ?_) (by omega)
        rw [same j hj,data,if_pos hole,Block.bytes_zero]
      · rintro e v ⟨rfl,closed,kept⟩
        have notWrite : a.uio.uioRw ≠ .write := by simp [read]
        refine ⟨.before h mapped.consistent mapped.frame quietRead kept (absurd · notWrite)
          (Or.inr (Or.inr (Or.inr ⟨rfl,Uio.user_of_not_open closed⟩))),?_,
          fun _ => ⟨Errno.noConfusion,fun _ => ⟨closed,by omega⟩,Errno.noConfusion⟩⟩
        obtain ⟨m,rfl⟩ := quietRead read
        exact fun other => absurd hole (other.resolve_left notWrite)
    · have used := mapped.consistent.block_used h _ some_
      have reaches : (SfsIo.mk t a.uio).fs.Reaches (t.block k (a.uio.pos / 512)) :=
        mapped.consistent.geometry.reaches used.1
      have within := mapped.consistent.geometry.within used.1
      have sizedT : (SfsIo.mk t a.uio).uio.Sized := sized
      have wholeT : 512 ≤ (SfsIo.mk t a.uio).uio.uioResid := whole
      apply wp_ends (blockioDirect_spec reaches within sizedT wholeT)
      · rintro _ v ⟨m,done⟩
        cases rw_ : a.uio.uioRw with
        | read =>
          obtain rfl : v = ⟨t.tick m,a.uio.moved (t.sectors (t.block k (a.uio.pos / 512))).bytes 512⟩ := by
            simpa only [rw_] using done
          refine .of_read h (mapped.later m) low high rw_ (ticked_later (quietRead rw_) m)
            (Uio.moved_congr _ fun j hj => ?_) (by omega)
          rw [same j hj,data,if_neg some_]
        | write =>
          obtain rfl : v = ⟨(t.tick m).store (t.block k (a.uio.pos / 512))
              (Block.ofBytes fun i => a.uio.mem (a.uio.iovBase + i)),a.uio.advance 512⟩ := by
            simpa only [rw_] using done
          have stored := (mapped.consistent.tick m).storeBlock h some_
            (Block.ofBytes fun i => a.uio.mem (a.uio.iovBase + i))
          exact .of_write h (mapped.later m) low high rw_ stored (Uio.stored_block rw_ aligned)
            (by simp only [Uio.moved,rw_]) (by omega)
      · rintro e ⟨fsV,uioV⟩ ⟨⟨m,fs⟩,same,code⟩
        obtain rfl : fsV = t.tick m := fs
        refine ⟨.still h (mapped.later m) (fun read => ticked_later (quietRead read) m) same
          (.inr (.inr ?_)),fun _ => same,fun read => ?_⟩
        · exact code.imp (fun both => ⟨both.1,mapped.consistent.geometry.lax both.2⟩)
            fun both => ⟨both.1,Uio.user_of_not_open both.2⟩
        · obtain ⟨i,rfl⟩ := quietRead read
          rcases code with ⟨rfl,bad⟩ | ⟨rfl,closed⟩
          · exact ⟨fun _ => Disk.not_reliable (i := i + 0) bad,Errno.noConfusion,Errno.noConfusion⟩
          · exact ⟨Errno.noConfusion,fun _ => ⟨closed,by omega⟩,Errno.noConfusion⟩
  · rintro e t ⟨mapped,code,quiet⟩
    exact ⟨.still h mapped (fun read => (quiet (by simp [read])).1) ⟨_,rfl⟩ (code.io low high),
      fun _ => ⟨_,rfl⟩,code.blamed fun read => (quiet (by simp [read])).2⟩

theorem wp_ioLeading (sized : a.uio.Sized) :
    (ioLeading k).wp a ok err halt ↔
      (if a.uio.pos % 512 ≠ 0 then
        sfsPartialio k (a.uio.pos % 512) (min (512 - a.uio.pos % 512) a.uio.uioResid)
      else pure ()).wp a ok err halt := by
  have room : u32 (512 - ((a.uio.pos % 512 : Nat) : Int)) = 512 - a.uio.pos % 512 := by
    rw [u32_of_bounds (by omega) (by omega)]
    omega
  have amount : (if 512 - a.uio.pos % 512 > a.uio.uioResid then a.uio.uioResid
      else 512 - a.uio.pos % 512) = min (512 - a.uio.pos % 512) a.uio.uioResid := by
    split <;> omega
  simp only [ioLeading,wp_bind,wp_read,sized.blkoff,room,amount]

theorem wp_ioAligned (sized : a.uio.Sized) (aligned : a.uio.uioResid = 0 ∨ a.uio.pos % 512 = 0) :
    (ioAligned k).wp a ok err halt ↔
      (loop (fun _ _ => sfsBlockio k) (a.uio.uioResid / 512) 0 ()).wp a
        (fun _ t => if t.uio.uioResid < 512 then
          (if t.uio.uioResid > 0 then sfsPartialio k 0 t.uio.uioResid else pure ()).wp t ok err halt
        else halt .ioTail t) err halt := by
  simp only [ioAligned,wp_bind,wp_read]
  by_cases done : a.uio.uioResid = 0
  · simp [done,loop]
  have check : decide (a.uio.uioOffset.tmod 512 = 0) = true := by
    rw [← sized.pos_eq]
    exact decide_eq_true ((Int.ofNat_tmod a.uio.pos 512).symm.trans
      (by rw [aligned.resolve_left done]; rfl))
  simp only [done,if_false,wp_bind,wp_read,wp_assert,check,if_true,
    decide_eq_true_eq]

section
variable (cons : Consistent strict live ∅ a.fs) (h : live k) (isLoaded : a.fs.loaded k)
  (sized : a.uio.Sized) (low : lo ≤ a.uio.pos / 512)
include cons h isLoaded sized low

theorem ioLeading_spec
    (high : (a.uio.pos + a.uio.uioResid + 511) / 512 ≤ hi) :
    (ioLeading k).wp a
      (fun _ t => ∃ n ≤ a.uio.uioResid, IoMoved strict live k lo hi n a t ∧
        (n = a.uio.uioResid ∨ (a.uio.pos + n) % 512 = 0))
      (fun e t => IoStopped strict live k lo hi 0 a t e ∧ ReadStop strict live k lo hi 0 a t e)
      never := by
  rw [wp_ioLeading sized,wp_ite]
  refine ⟨fun unaligned => ?_,fun aligned => ?_⟩
  · have inside : a.uio.pos / 512 < hi := by omega
    apply wp_ends (sfsPartialio_spec cons h isLoaded sized low inside)
    · intro _ t moved
      exact ⟨min (512 - a.uio.pos % 512) a.uio.uioResid,by omega,moved,by omega⟩
    · exact fun _ _ stopped => ⟨stopped.1,stopped.2.readStop cons sized (Nat.min_le_right _ _)⟩
  · rw [wp_pure]
    exact ⟨0,by omega,.refl cons sized,by omega⟩

theorem wholeBlocks_spec
    (high : (a.uio.pos + a.uio.uioResid + 511) / 512 ≤ hi)
    (aligned : a.uio.uioResid = 0 ∨ a.uio.pos % 512 = 0) :
    (loop (fun _ _ => sfsBlockio k) (a.uio.uioResid / 512) 0 ()).wp a
      (fun _ t => IoMoved strict live k lo hi (512 * (a.uio.uioResid / 512)) a t)
      (fun e t => ∃ n < a.uio.uioResid, IoStopped strict live k lo hi n a t e ∧
        (a.uio.uioRw = .write → (a.uio.advance n).SameCursor t.uio) ∧
        ReadStop strict live k lo hi n a t e) never := by
  refine wp_loop_zero (fun i _ t => IoMoved strict live k lo hi (512 * i) a t) _ ()
    (.refl cons sized) ?_
  intro i _ t small moved
  obtain ⟨sizedT,posT,residT⟩ := moved.cursor sized (by omega)
  have low' : lo ≤ t.uio.pos / 512 := by omega
  have high' : t.uio.pos / 512 < hi := by omega
  apply wp_ends (sfsBlockio_spec moved.consistent h (moved.frame.loaded.mpr isLoaded)
    sizedT (by omega) (by omega) low' high')
  · intro _ u next
    exact moved.trans sized next
  · rintro e u ⟨stopped,same,blamed⟩
    refine ⟨512 * i,by omega,moved.stopped (n := 512 * i) sized (by omega) stopped,fun write => ?_,
      moved.readStop (n := 512 * i) sized (by omega) (blamed.readStop moved.consistent sizedT (by omega))⟩
    have uioT := moved.advanced write
    rw [← uioT]
    exact same (.inl (by rw [uioT,Uio.advance_rw,write]))

theorem ioAligned_spec
    (high : (a.uio.pos + a.uio.uioResid + 511) / 512 ≤ hi)
    (aligned : a.uio.uioResid = 0 ∨ a.uio.pos % 512 = 0) :
    (ioAligned k).wp a
      (fun _ t => IoMoved strict live k lo hi a.uio.uioResid a t)
      (fun e t => a.uio.uioResid ≠ 0 ∧ ∃ n, IoStopped strict live k lo hi n a t e ∧
        ReadStop strict live k lo hi n a t e) never := by
  rw [wp_ioAligned sized aligned]
  apply wp_ends (wholeBlocks_spec cons h isLoaded sized low high aligned)
  · intro _ t moved
    obtain ⟨sizedT,posT,residT⟩ := moved.cursor sized (by omega)
    rw [if_pos (by omega),wp_ite]
    refine ⟨fun some_ => ?_,fun none_ => ?_⟩
    · have low' : lo ≤ t.uio.pos / 512 := by omega
      have high' : t.uio.pos / 512 < hi := by omega
      have last := sfsPartialio_spec moved.consistent h (moved.frame.loaded.mpr isLoaded) sizedT
        low' high'
      rw [show t.uio.pos % 512 = 0 by omega,
        show min (512 - 0) t.uio.uioResid = t.uio.uioResid by omega] at last
      apply wp_ends last
      · intro _ u next
        have whole := moved.trans sized next
        rwa [show 512 * (a.uio.uioResid / 512) + t.uio.uioResid = a.uio.uioResid by omega] at whole
      · intro e u stopped
        exact ⟨by omega,_,moved.stopped sized (by omega) stopped.1,moved.readStop sized (by omega)
          (stopped.2.readStop moved.consistent sizedT (Nat.le_refl _))⟩
    · rw [wp_pure]
      rwa [show 512 * (a.uio.uioResid / 512) = a.uio.uioResid by omega] at moved
  · rintro e t ⟨n,less,stopped,-,stop⟩
    exact ⟨by omega,n,stopped,stop⟩

theorem ioBody_spec
    (high : (a.uio.pos + a.uio.uioResid + 511) / 512 ≤ hi) :
    (ioBody k).wp a
      (fun _ t => IoMoved strict live k lo hi a.uio.uioResid a t)
      (fun e t => ∃ n, IoStopped strict live k lo hi n a t e ∧ ReadStop strict live k lo hi n a t e)
      never := by
  rw [ioBody,wp_bind]
  apply wp_ends (ioLeading_spec cons h isLoaded sized low high)
  · rintro _ t ⟨n,le,moved,boundary⟩
    obtain ⟨sizedT,posT,residT⟩ := moved.cursor sized le
    have low' : lo ≤ t.uio.pos / 512 := by omega
    have high' : (t.uio.pos + t.uio.uioResid + 511) / 512 ≤ hi := by omega
    apply wp_ends (ioAligned_spec moved.consistent h (moved.frame.loaded.mpr isLoaded) sizedT
      low' high' (by omega))
    · intro _ u next
      have whole := moved.trans sized next
      rwa [show n + t.uio.uioResid = a.uio.uioResid by omega] at whole
    · rintro e u ⟨more,m,stopped,stop⟩
      exact ⟨_,moved.stopped sized (by omega) stopped,moved.readStop sized le stop⟩
  · exact fun _ _ stopped => ⟨0,stopped⟩

end

end Transfer

/-! The end of `sfs_io` -/

/-- The size of a file of `size` bytes once a write has reached position `p`. The
comparison is between `off_t` values. -/
def ioGrow (size p : Nat) : Nat := if i32 size < p then p else size

def SfsFs.grown (s : SfsFs) (k : Nat) (u : Uio) : SfsFs :=
  if u.uioRw = .write ∧ u.uioOffset > i32 (s.view k).size
  then s.edit k fun i => { i with sfiSize := UInt32.ofNat (u32 u.uioOffset) } else s

section Out
variable {strict : Prop} {live : Nat → Prop} {held : Set Nat} {s : SfsFs} {k : Nat} {io : SfsIo}

variable {ok : Unit → SfsIo → Prop} {err : Errno → SfsIo → Prop} {halt : Panic → SfsIo → Prop}

theorem loaded_size {v : SfsVnode} (found : s.vnode? k = some v) : v.svI.sfiSize.toNat = (s.view k).size := by
  rw [view,inode_of_loaded found]

theorem wp_ioOut (isLoaded : io.fs.loaded k) (extraresid : Nat) (result : Except Errno Unit) :
    (ioOut k extraresid result).wp io ok err halt ↔
      (give result).wp ⟨io.fs.grown k io.uio,
        { io.uio with uioResid := (io.uio.uioResid + extraresid) % 2^32 }⟩ ok err halt := by
  obtain ⟨v,found⟩ := loaded_iff.mp isLoaded
  simp only [ioOut,wp_bind,wp_read,SfsIo.wp_onFs,Sfs.wp_vnode found,loaded_size found]
  unfold SfsFs.grown
  split <;> simp [SfsIo.wp_onFs,SfsIo.wp_onUio]

theorem wp_ioOut_read (isLoaded : io.fs.loaded k) (read : io.uio.uioRw = .read) (extraresid : Nat)
    (result : Except Errno Unit) :
    (ioOut k extraresid result).wp io ok err halt ↔
      (give result).wp ⟨io.fs,{ io.uio with uioResid := (io.uio.uioResid + extraresid) % 2^32 }⟩
        ok err halt := by
  rw [wp_ioOut isLoaded,SfsFs.grown,if_neg (by simp [read])]

theorem view_setSize (isLoaded : s.loaded k) (size : UInt32) :
    (s.edit k fun i => { i with sfiSize := size }).view k = { s.view k with size := size.toNat } := by
  have inodeK := inode_edit (f := fun i => { i with sfiSize := size }) isLoaded k
  rw [if_pos rfl] at inodeK
  have dataK := data_editMeta (f := fun i => { i with sfiSize := size }) isLoaded (fun _ => rfl)
    (fun _ => rfl)
  simp only [view,inodeK,(dataK _).2]

theorem frame_editMeta {f : SfsInode → SfsInode} (isLoaded : s.loaded k) :
    Frame (Others live k) s (s.edit k f) :=
  ⟨rfl,fun _ h => view_edit_other isLoaded h.2,handle_edit s k f⟩

theorem SfsFs.Consistent.grown (c : Consistent strict live held s) (isLoaded : s.loaded k) (u : Uio) :
    Consistent strict live held (s.grown k u) := by
  unfold SfsFs.grown
  split
  · exact c.editMeta isLoaded (fun _ => rfl) (fun _ => rfl) (fun _ => rfl)
  · exact c

theorem frame_grown (isLoaded : s.loaded k) (u : Uio) : Frame (Others live k) s (s.grown k u) := by
  unfold SfsFs.grown
  split
  · exact frame_editMeta isLoaded
  · exact .refl _ _

variable {u : Uio}

theorem view_grown_size (isLoaded : s.loaded k) (write : u.uioRw = .write) :
    (s.grown k u).view k = { s.view k with
      size := if i32 (s.view k).size < u.uioOffset then u32 u.uioOffset else (s.view k).size } := by
  unfold SfsFs.grown
  by_cases more : i32 (s.view k).size < u.uioOffset
  · rw [if_pos ⟨write,more⟩,if_pos more,view_setSize isLoaded,UInt32.toNat_ofNat',
      Nat.mod_eq_of_lt (u32_lt _)]
  · rw [if_neg (fun both => more both.2),if_neg more]

theorem view_grown (isLoaded : s.loaded k) (write : u.uioRw = .write) {p : Nat}
    (offset : u.uioOffset = p) (bound : p < 2^31) :
    (s.grown k u).view k = { s.view k with size := ioGrow (s.view k).size p } := by
  rw [view_grown_size isLoaded write,offset,u32_natCast (by omega),ioGrow]

structure Written (strict : Prop) (live : Nat → Prop) (k n p : Nat) (a : SfsIo) (t : SfsFs) :
    Prop where
  consistent : Consistent strict live ∅ t
  frame : Frame (Others live k) a.fs t
  self : t.view k = { a.fs.view k with
    content := overwrite (a.fs.view k).content a.uio.pos (fun i => a.uio.mem (a.uio.iovBase + i)) n
    size := ioGrow (a.fs.view k).size p }

def Uio.firstBlock (u : Uio) : Nat := u.pos / 512
def Uio.endBlock (u : Uio) : Nat := (u.pos + u.uioResid + 511) / 512

variable {a : SfsIo}

/-- `sfs_io` for a write: all of it, or what came before the block at which it failed. -/
theorem sfsIo_write (cons : Consistent strict live ∅ a.fs) (h : live k)
    (isLoaded : a.fs.loaded k) (sized : a.uio.Sized) (write : a.uio.uioRw = .write) :
    (sfsIo k).wp a
      (fun _ t => Written strict live k a.uio.uioResid (a.uio.pos + a.uio.uioResid) a t.fs ∧
        t.uio = a.uio.advance a.uio.uioResid ∧
        (a.uio.uioResid = 0 ∨ a.uio.pos + a.uio.uioResid ≤ 143 * 512))
      (fun e t => ∃ n p, Written strict live k n p a t.fs ∧
        (n = 0 ∨ (n < a.uio.uioResid ∧ (a.uio.pos + n) % 512 = 0)) ∧
        (p = a.uio.pos + n ∨ (¬strict ∧ p ≤ 143 * 512 ∧
          p = a.uio.pos + n + min (512 - (a.uio.pos + n) % 512) (a.uio.uioResid - n))) ∧
        IoError strict k a.uio.firstBlock a.uio.endBlock a e) never := by
  have offset := sized.pos_eq
  simp only [sfsIo,wp_bind,wp_read,write,ioRun,wp_attempt]
  have body := ioBody_spec cons h isLoaded sized (Nat.le_refl a.uio.firstBlock)
    (Nat.le_refl a.uio.endBlock)
  apply wp_ends body
  · intro _ t moved
    have loadedT := moved.frame.loaded.mpr isLoaded
    have uioT := moved.advanced write
    have writeT : t.uio.uioRw = .write := by rw [uioT,Uio.advance_rw,write]
    obtain ⟨sizedT,posT,-⟩ := moved.cursor sized (Nat.le_refl _)
    rw [wp_ioOut loadedT,wp_give_ok]
    refine ⟨⟨moved.consistent.grown loadedT _,moved.frame.trans (frame_grown loadedT _),?_⟩,?_,
      moved.bound⟩
    · refine (view_grown loadedT writeT (p := a.uio.pos + a.uio.uioResid) ?_ (moved.room sized)).trans ?_
      · rw [← sizedT.pos_eq,posT]
      · rw [moved.self]
        simp only [Uio.stored,write]
    · rw [Nat.add_zero,Nat.mod_eq_of_lt sizedT.valid.resid,← uioT]
  · rintro e t ⟨n,stopped,-⟩
    have loadedT := stopped.frame.loaded.mpr isLoaded
    have writeT : t.uio.uioRw = .write := stopped.kept.rw_.trans write
    have place := stopped.place
    rw [wp_ioOut loadedT,wp_give_error]
    have room : a.uio.pos + n < 2^31 := by
      have := stopped.bound
      have := sized.pos_lt
      omega
    have reached : ∃ p : Nat, t.uio.uioOffset = (p : Int) ∧ p < 2^31 ∧ (p = a.uio.pos + n ∨
        (¬strict ∧ p ≤ 143 * 512 ∧ p = a.uio.pos + n + min (512 - (a.uio.pos + n) % 512) (a.uio.uioResid - n))) := by
      rcases stopped.cursor write with at_ | ⟨lax,at_,inside⟩
      · exact ⟨a.uio.pos + n,by omega,by omega,Or.inl rfl⟩
      · exact ⟨a.uio.pos + n + min (512 - (a.uio.pos + n) % 512) (a.uio.uioResid - n),by omega,
          by omega,Or.inr ⟨lax,inside,rfl⟩⟩
    obtain ⟨p,atP,small,where_⟩ := reached
    refine ⟨n,p,⟨stopped.consistent.grown loadedT _,stopped.frame.trans (frame_grown loadedT _),?_⟩,
      place,where_,stopped.code⟩
    rw [view_grown loadedT writeT atP small,stopped.self]
    simp only [Uio.stored,write]

/-- The number of bytes that a read of `resid` bytes at `p` gets from a file of `size`
bytes. The comparison is between `off_t` values. -/
def ioAvail (size p resid : Nat) : Nat := min resid (i32 size - p).toNat

/-- What end of file cuts off such a read: nothing, when `p + resid` does not fit an `off_t`. -/
def ioExtra (size p resid : Nat) : Nat :=
  if p + resid < 2^31 then ((p : Int) + resid - i32 size).toNat else 0

theorem ioExtra_lt {size p resid : Nat} (before : (p : Int) < i32 size) :
    ioExtra size p resid = 0 ∨ ioExtra size p resid < resid := by
  unfold ioExtra
  generalize i32 size = z at *
  split <;> omega

theorem moved_cut (sized : u.Sized) (buf : Nat → UInt8) {extra n : Nat}
    (le : extra ≤ u.uioResid) (short : n ≤ u.uioResid - extra) :
    let v := Uio.moved { u with uioResid := u.uioResid - extra } buf n
    { v with uioResid := (v.uioResid + extra) % 2^32 } = u.moved buf n := by
  have small := sized.valid.resid
  have cut : u32 ((u.uioResid - extra : Nat) - n : Int) = u.uioResid - extra - n := by
    rw [u32_of_bounds (by omega) (by omega)]
    omega
  have rest : u32 ((u.uioResid : Int) - n) = u.uioResid - n := by
    rw [u32_of_bounds (by omega) (by omega)]
    omega
  have sum : (u.uioResid - extra - n + extra) % 2^32 = u.uioResid - n := by omega
  cases rw_ : u.uioRw <;> simp only [Uio.moved,Uio.advance,rw_,cut,rest,sum]

structure Reads (k n : Nat) (a t : SfsIo) : Prop where
  fs : ∃ m, t.fs = a.fs.tick m
  uio : t.uio = a.uio.moved (fun i => (a.fs.view k).content (a.uio.pos + i)) n

theorem ioRun_read (cons : Consistent strict live ∅ a.fs) (h : live k)
    (isLoaded : a.fs.loaded k) (sized : a.uio.Sized) (read : a.uio.uioRw = .read) {extra : Nat}
    (le : extra ≤ a.uio.uioResid) :
    (ioRun k extra).wp ⟨a.fs,{ a.uio with uioResid := a.uio.uioResid - extra }⟩
      (fun _ t => Reads k (a.uio.uioResid - extra) a t ∧
        (a.uio.uioResid - extra = 0 ∨ a.uio.pos + (a.uio.uioResid - extra) ≤ 143 * 512))
      (fun e t => (∃ m, t.fs = a.fs.tick m) ∧
        IoError strict k a.uio.firstBlock a.uio.endBlock a e ∧ (e = .eio → ¬a.fs.disk.Reliable) ∧
        (e = .efault → ∃ c ≤ a.uio.uioResid - extra, a.uio.pos + c ≤ 143 * 512 ∧ ¬a.uio.Open c) ∧
        (e = .einval → ∃ n, (n = 0 ∨ n < a.uio.uioResid - extra) ∧ (n = 0 ∨ a.uio.pos + n ≤ 143 * 512) ∧
          143 * 512 ≤ a.uio.pos + n ∧ Reads k n a t)) never := by
  have high : (a.uio.pos + (a.uio.uioResid - extra) + 511) / 512 ≤ a.uio.endBlock := by
    unfold Uio.endBlock
    omega
  have restored : ∀ {n : Nat} {t : SfsIo}, n ≤ a.uio.uioResid - extra →
      IoMoved strict live k a.uio.firstBlock a.uio.endBlock n
        ⟨a.fs,{ a.uio with uioResid := a.uio.uioResid - extra }⟩ t →
      Reads k n a ⟨t.fs,{ t.uio with uioResid := (t.uio.uioResid + extra) % 2^32 }⟩ := by
    intro n t short moved
    refine ⟨moved.reading read,?_⟩
    rw [← moved_cut sized (fun i => (a.fs.view k).content (a.uio.pos + i)) le short,moved.uio]
    rfl
  rw [ioRun,wp_bind,wp_attempt]
  apply wp_ends (ioBody_spec (a := ⟨a.fs,{ a.uio with uioResid := a.uio.uioResid - extra }⟩) cons h
    isLoaded (sized.cut extra) (Nat.le_refl a.uio.firstBlock) high)
  · intro _ t moved
    have readT : t.uio.uioRw = .read := by rw [moved.uio,Uio.moved_rw]; exact read
    rw [wp_ioOut_read (moved.frame.loaded.mpr isLoaded) readT,wp_give_ok]
    exact ⟨restored (Nat.le_refl _) moved,moved.bound⟩
  · rintro e t ⟨n,stopped,stop⟩
    obtain ⟨io,fault,beyond⟩ := stop read
    rw [wp_ioOut_read (stopped.frame.loaded.mpr isLoaded) (stopped.kept.rw_.trans read),wp_give_error]
    refine ⟨stopped.reading read,stopped.code,io,fun code => ?_,fun code => ?_⟩
    · obtain ⟨c,short,room,closed⟩ := fault code
      exact ⟨n + c,short,Nat.add_assoc _ n c ▸ room,closed⟩
    · obtain ⟨moved,far⟩ := beyond code
      have place : n = 0 ∨ n < a.uio.uioResid - extra := stopped.place.imp_right And.left
      exact ⟨n,place,moved.bound,far,restored (by omega) moved⟩

theorem wp_sfsIo_read (isLoaded : a.fs.loaded k) (sized : a.uio.Sized) (read : a.uio.uioRw = .read)
    {extra : Nat} (cut : extra = ioExtra (a.fs.view k).size a.uio.pos a.uio.uioResid) :
    (sfsIo k).wp a ok err halt ↔
      if i32 (a.fs.view k).size ≤ a.uio.pos then ok () a
      else (ioRun k extra).wp ⟨a.fs,{ a.uio with uioResid := a.uio.uioResid - extra }⟩ ok err halt := by
  obtain ⟨v,found⟩ := loaded_iff.mp isLoaded
  have small := sized.resid
  have offset := sized.pos_eq
  have high := i32_high (a.fs.view k).size
  generalize shorter : (⟨a.fs,{ a.uio with uioResid := a.uio.uioResid - extra }⟩ : SfsIo) = c
  simp only [sfsIo,wp_bind,wp_read,read,SfsIo.wp_onFs,Sfs.wp_vnode found,loaded_size found]
  unfold ioExtra at cut
  generalize i32 (a.fs.view k).size = z at *
  by_cases past : z ≤ a.uio.pos
  · rw [if_pos (by omega),if_pos past,wp_pure]
  rw [if_neg (by omega),if_neg past]
  by_cases fits : a.uio.pos + a.uio.uioResid < 2^31
  · rw [if_pos fits] at cut
    rw [i32_of_bounds (by omega) (by omega)]
    by_cases exceeds : z < a.uio.uioOffset + a.uio.uioResid
    · have amount : u32 (a.uio.uioOffset + a.uio.uioResid - z) = extra := by
        rw [cut,u32_of_bounds (by omega) (by omega),offset]
      have less : decide (a.uio.uioResid > extra) = true := decide_eq_true (by omega)
      rw [if_pos exceeds,amount]
      simp only [wp_bind,wp_assert,less,if_true,SfsIo.wp_onUio,wp_modify,shorter]
    · obtain rfl : extra = 0 := by omega
      rw [if_neg exceeds,← shorter]
      rfl
  · -- the sum wraps around, and lies below the size
    rw [if_neg fits] at cut
    rw [i32_of_wrap (by omega) (by omega),if_neg (by omega),← shorter,cut]
    rfl

section
variable (cons : Consistent strict live ∅ a.fs) (h : live k) (isLoaded : a.fs.loaded k)
  (sized : a.uio.Sized)
include cons h isLoaded sized

/-- `sfs_io` for a read: the bytes of the file from the cursor to its end or to the end
of the request. -/
theorem sfsIo_read
    (bound : a.uio.uioOffset + a.uio.uioResid < 2^31) (read : a.uio.uioRw = .read) :
    (sfsIo k).wp a
      (fun _ t => (∃ m, t.fs = a.fs.tick m) ∧
        t.uio = a.uio.moved (fun i => (a.fs.view k).content (a.uio.pos + i))
          (ioAvail (a.fs.view k).size a.uio.pos a.uio.uioResid))
      (fun e t => (∃ m, t.fs = a.fs.tick m) ∧
        IoError strict k a.uio.firstBlock a.uio.endBlock a e ∧ (e = .eio → ¬a.fs.disk.Reliable))
      never := by
  have offset := sized.pos_eq
  rw [wp_sfsIo_read isLoaded sized read rfl]
  split
  · have none_ : ioAvail (a.fs.view k).size a.uio.pos a.uio.uioResid = 0 := by
      unfold ioAvail
      omega
    rw [none_,sized.valid.moved_zero]
    exact ⟨⟨0,a.fs.tick_zero.symm⟩,rfl⟩
  · have avail : ioAvail (a.fs.view k).size a.uio.pos a.uio.uioResid =
        a.uio.uioResid - ioExtra (a.fs.view k).size a.uio.pos a.uio.uioResid := by
      rw [ioAvail,ioExtra,if_pos (by omega)]
      omega
    rw [avail]
    have less := @ioExtra_lt (a.fs.view k).size a.uio.pos a.uio.uioResid (by omega)
    apply wp_ends (ioRun_read cons h isLoaded sized read (by omega))
    · exact fun _ _ done => ⟨done.1.fs,done.1.uio⟩
    · exact fun _ _ failed => ⟨failed.1,failed.2.1,failed.2.2.1⟩

theorem sfsIo_moves (read : a.uio.uioRw = .read) :
    (sfsIo k).wp a
      (fun _ t => (∃ m, t.fs = a.fs.tick m) ∧ ∃ n ≤ a.uio.uioResid,
        t.uio = a.uio.moved (fun i => (a.fs.view k).content (a.uio.pos + i)) n)
      (fun _ t => ∃ m, t.fs = a.fs.tick m) never := by
  rw [wp_sfsIo_read isLoaded sized read rfl]
  split
  · exact ⟨⟨0,a.fs.tick_zero.symm⟩,0,Nat.zero_le _,(sized.valid.moved_zero _).symm⟩
  · have less := @ioExtra_lt (a.fs.view k).size a.uio.pos a.uio.uioResid (by omega)
    apply wp_ends (ioRun_read cons h isLoaded sized read (by omega))
    · exact fun _ _ done => ⟨done.1.fs,_,Nat.sub_le _ _,done.1.uio⟩
    · exact fun _ _ failed => failed.1

theorem sfsIo_quiet (read : a.uio.uioRw = .read) :
    (sfsIo k).wp a (fun _ t => ∃ m, t.fs = a.fs.tick m) (fun _ t => ∃ m, t.fs = a.fs.tick m)
      never :=
  wp_mono (sfsIo_moves cons h isLoaded sized read) (fun _ _ h => h.1) (fun _ _ h => h)
    fun _ _ h => h

end

end Out

end Os161
