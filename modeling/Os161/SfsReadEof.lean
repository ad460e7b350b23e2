import Os161.SfsSparse

/-! `sfs_read` for every value that `uio_offset` and `uio_resid` can have: which requests stop at
end of file, and what becomes of the others. The medium is good and the caller's memory can be
reached, so nothing but the numbers decides. -/
namespace Os161

open SfsFs

/-! Nothing fails on a good medium -/

section Good
variable {strict : Prop} {live : Nat → Prop} {s : SfsFs} {a : SfsIo} {k n : Nat}

theorem sfsBmap_good (c : Consistent strict live ∅ s) (h : live k) (isLoaded : s.loaded k)
    (reliable : s.disk.Reliable) :
    (sfsBmap k n false).wp s (fun b t => b = s.block k n ∧ ∃ m, t = s.tick m)
      (fun _ t => 143 ≤ n ∧ ∃ m, t = s.tick m) never := by
  apply wp_ends (sfsBmap_spec c h isLoaded n false)
  · rintro b t ⟨-,rfl,-,-,quiet⟩
    obtain ⟨m,rfl⟩ := quiet rfl
    exact ⟨rfl,m,rfl⟩
  · rintro e t ⟨-,⟨-,beyond⟩ | ⟨-,on,-⟩ | ⟨io,-⟩,quiet⟩
    · exact ⟨beyond,(quiet rfl).1⟩
    · cases on
    · exact absurd reliable ((quiet rfl).2.1 io)

theorem sfsBmap_far (far : 143 ≤ n) (doalloc : Bool) : sfsBmap k n doalloc = fail .einval := by
  have beyond : (n - 15) / 128 > 0 := by omega
  rw [sfsBmap,if_neg (by omega)]
  simp only [beyond,if_true]

theorem IoStopped.not_good {b : SfsIo} {e : Errno}
    (stopped : IoStopped strict live k (a.uio.pos / 512) (a.uio.pos / 512 + 1) 0 a b e)
    (blamed : Blamed n a b e) (reliable : a.fs.disk.Reliable) (read : a.uio.uioRw = .read)
    (open_ : a.uio.Open n) (inside : a.uio.pos < 143 * 512) : False := by
  rcases stopped.code with ⟨-,beyond⟩ | ⟨-,write,-⟩ | ⟨io,-⟩ | ⟨fault,-⟩
  · omega
  · rw [read] at write
    cases write
  · exact (blamed read).1 io reliable
  · exact ((blamed read).2.1 fault).1 open_

end Good

/-! Reads at a position in the file -/

def fileRoom (p : Nat) : Nat := 143 * 512 - p

/-- A state in which a read that nothing outside its own numbers can stop is carried out. -/
structure Readable (strict : Prop) (live : Nat → Prop) (k : Nat) (a : SfsIo) : Prop where
  consistent : Consistent strict live ∅ a.fs
  live : live k
  loaded : a.fs.loaded k
  reliable : a.fs.disk.Reliable
  read : a.uio.uioRw = .read
  space : a.uio.spaceOk = true
  len : a.uio.uioResid ≤ a.uio.iovLen
  reach : a.uio.Open (min a.uio.uioResid (fileRoom a.uio.pos))

section Reading
variable {strict : Prop} {live : Nat → Prop} {k lo hi n : Nat} {a b : SfsIo}

theorem wp_sfsPartialio_far {skip len : Nat} {ok : Unit → SfsIo → Prop} {err : Errno → SfsIo → Prop}
    {halt : Panic → SfsIo → Prop} (range : (skip + len) % 2^32 ≤ 512)
    (far : 143 ≤ u32 (a.uio.uioOffset.tdiv 512)) :
    (sfsPartialio k skip len).wp a ok err halt ↔ err .einval a := by
  have inRange : decide ((skip + len) % 2^32 ≤ 512) = true := decide_eq_true range
  simp only [sfsPartialio,wp_bind,wp_read,wp_assert,inRange,if_true,SfsIo.wp_onFs,
    sfsBmap_far far,wp_fail]

theorem wp_sfsBlockio_far {ok : Unit → SfsIo → Prop} {err : Errno → SfsIo → Prop}
    {halt : Panic → SfsIo → Prop} (far : 143 ≤ u32 (a.uio.uioOffset.tdiv 512)) :
    (sfsBlockio k).wp a ok err halt ↔ err .einval a := by
  simp only [sfsBlockio,wp_bind,wp_read,SfsIo.wp_onFs,sfsBmap_far far,wp_fail]

theorem ioRun_reads (at_ : Readable strict live k a) (sized : a.uio.Sized)
    (inside : a.uio.pos < 143 * 512) {extra : Nat} (le : extra ≤ a.uio.uioResid) :
    (ioRun k extra).wp ⟨a.fs,{ a.uio with uioResid := a.uio.uioResid - extra }⟩
      (fun _ t => Reads k (min (a.uio.uioResid - extra) (fileRoom a.uio.pos)) a t)
      (fun e t => e = .einval ∧ fileRoom a.uio.pos < a.uio.uioResid - extra ∧
        Reads k (min (a.uio.uioResid - extra) (fileRoom a.uio.pos)) a t) never := by
  have reach := at_.reach
  unfold fileRoom at reach ⊢
  apply wp_ends (ioRun_read at_.consistent at_.live at_.loaded sized at_.read le)
  · rintro _ t ⟨reads,bound⟩
    rwa [Nat.min_eq_left (by omega)]
  · rintro e t ⟨-,code,io,fault,beyond⟩
    rcases code with ⟨rfl,-⟩ | ⟨-,write,-⟩ | ⟨code,-⟩ | ⟨code,-⟩
    · obtain ⟨n,place,bound,far,reads⟩ := beyond rfl
      rw [show n = min (a.uio.uioResid - extra) (143 * 512 - a.uio.pos) by omega] at reads
      exact ⟨rfl,by omega,reads⟩
    · rw [at_.read] at write
      cases write
    · exact absurd at_.reliable (io code)
    · obtain ⟨c,short,room,closed⟩ := fault code
      exact absurd (reach.mono (by omega)) closed

/-- The number of bytes that a read of `resid` bytes at position `p` of a file of `size` bytes
moves. When `p + resid` does not fit an `off_t` the read is not cut off, and runs to the end of
the last block a file can have. -/
def readLength (size p resid : Nat) : Nat :=
  if size ≤ p then 0 else if p + resid < 2^31 then min resid (size - p) else fileRoom p

theorem sfsIo_reads (at_ : Readable strict live k a) (sized : a.uio.Sized)
    (bound : (a.fs.view k).size ≤ 143 * 512) :
    (sfsIo k).wp a
      (fun _ t => Reads k (readLength (a.fs.view k).size a.uio.pos a.uio.uioResid) a t)
      (fun e t => (e = .einval ∧ a.uio.pos < (a.fs.view k).size ∧ 2^31 ≤ a.uio.pos + a.uio.uioResid) ∧
        readLength (a.fs.view k).size a.uio.pos a.uio.uioResid < a.uio.uioResid ∧
        Reads k (readLength (a.fs.view k).size a.uio.pos a.uio.uioResid) a t) never := by
  have small := sized.resid
  rw [wp_sfsIo_read at_.loaded sized at_.read rfl]
  have sizeInt : i32 ((a.fs.view k).size : Int) = (a.fs.view k).size :=
    i32_of_bounds (by omega) (by omega)
  have cut : (ioExtra (a.fs.view k).size a.uio.pos a.uio.uioResid) = if a.uio.pos + a.uio.uioResid < 2^31
      then a.uio.pos + a.uio.uioResid - (a.fs.view k).size else 0 := by
    rw [ioExtra,sizeInt]
    split <;> omega
  rw [sizeInt]
  generalize ioExtra (a.fs.view k).size a.uio.pos a.uio.uioResid = extra at *
  generalize (a.fs.view k).size = z at *
  by_cases past : (z : Int) ≤ a.uio.pos
  · rw [if_pos past,readLength,if_pos (by omega)]
    exact ⟨⟨0,a.fs.tick_zero.symm⟩,(sized.valid.moved_zero _).symm⟩
  have length : readLength z a.uio.pos a.uio.uioResid =
      min (a.uio.uioResid - extra) (fileRoom a.uio.pos) := by
    rw [readLength,if_neg (by omega),cut]
    unfold fileRoom
    split <;> omega
  have le : extra ≤ a.uio.uioResid := by
    split at cut <;> omega
  rw [if_neg past,length]
  apply wp_ends (ioRun_reads at_ sized (by omega) le)
  · exact fun _ _ reads => reads
  · rintro e t ⟨code,long,reads⟩
    refine ⟨⟨code,by omega,?_⟩,by omega,reads⟩
    unfold fileRoom at long
    split at cut <;> omega

end Reading

/-! Reads in front of the file -/

/-- A request `n` bytes in front of the file that `sfs_io` takes without harm: it begins at a block
boundary, or it begins more than a block ahead and reaches the next boundary. -/
def FrontSafe (n resid : Nat) : Prop := n % 512 = 0 ∨ (512 < n ∧ n % 512 ≤ resid)

section Front
variable {strict : Prop} {live : Nat → Prop} {k n : Nat} {a : SfsIo}

section
variable (offset : a.uio.uioOffset = -(n : Int))
include offset

theorem front_fileblock (le : n ≤ 2^31) :
    u32 (a.uio.uioOffset.tdiv 512) = if n / 512 = 0 then 0 else 2^32 - n / 512 := by
  have quotient : a.uio.uioOffset.tdiv 512 = -((n / 512 : Nat) : Int) := by
    rw [offset,Int.neg_tdiv]
    exact congrArg _ (Int.ofNat_tdiv n 512).symm
  rw [quotient,u32]
  split <;> omega

theorem front_blkoff :
    a.uio.uioOffset.tmod 512 = -((n % 512 : Nat) : Int) := by
  rw [offset,Int.neg_tmod]
  exact congrArg _ (Int.ofNat_tmod n 512).symm

theorem wp_ioLeading_front {ok : Unit → SfsIo → Prop} {err : Errno → SfsIo → Prop}
    {halt : Panic → SfsIo → Prop} (unaligned : n % 512 ≠ 0) :
    (ioLeading k).wp a ok err halt ↔
      (sfsPartialio k (2^32 - n % 512) (min (512 + n % 512) a.uio.uioResid)).wp a ok err halt := by
  have blkoff : u32 (a.uio.uioOffset.tmod 512) = 2^32 - n % 512 := by
    rw [front_blkoff offset,u32]
    omega
  have length : u32 (512 - ((2^32 - n % 512 : Nat) : Int)) = 512 + n % 512 := by
    rw [u32]
    omega
  have amount : (if 512 + n % 512 > a.uio.uioResid then a.uio.uioResid else 512 + n % 512) =
      min (512 + n % 512) a.uio.uioResid := by
    split <;> omega
  rw [← amount]
  simp only [ioLeading,wp_bind,wp_read,blkoff,length]
  rw [if_pos (by omega)]

theorem ioBody_front (le : n ≤ 2^31) (front : 0 < n)
    (safe : FrontSafe n a.uio.uioResid) :
    (ioBody k).wp a (fun _ t => t = a ∧ a.uio.uioResid = 0) (fun _ t => t = a) never := by
  have block := front_fileblock offset le
  rw [ioBody,wp_bind]
  by_cases aligned : n % 512 = 0
  · have far : 143 ≤ u32 (a.uio.uioOffset.tdiv 512) := by
      rw [block,if_neg (by omega)]
      omega
    have remainder : a.uio.uioOffset.tmod 512 = 0 := by rw [front_blkoff offset,aligned]; rfl
    simp only [ioLeading,wp_bind,wp_read,remainder,u32_zero,ne_eq,not_true,if_false,
      wp_pure,ioAligned]
    rw [wp_ite]
    refine ⟨fun none_ => ⟨rfl,none_⟩,fun more => ?_⟩
    simp only [wp_bind,wp_assert,decide_true,if_true]
    cases blocks : a.uio.uioResid / 512 with
    | zero =>
      have tail : decide (a.uio.uioResid < 512) = true := decide_eq_true (by omega)
      simp only [loop,wp_pure,wp_read,tail,if_true]
      rw [if_pos (by omega),wp_sfsPartialio_far (by omega) far]
    | succ count =>
      simp only [loop,wp_bind]
      rw [wp_sfsBlockio_far far]
  · obtain ⟨deep,reached⟩ := safe.resolve_left aligned
    have far : 143 ≤ u32 (a.uio.uioOffset.tdiv 512) := by
      rw [block,if_neg (by omega)]
      omega
    rw [wp_ioLeading_front offset aligned,wp_sfsPartialio_far (by omega) far]

end

/-- Any other request in front of the file fails the range check of `sfs_partialio`, or passes it
because the sum wraps around and then reads in front of the buffer. -/
theorem ioBody_front_halts (cons : Consistent strict live ∅ a.fs) (h : live k)
    (isLoaded : a.fs.loaded k) (reliable : a.fs.disk.Reliable) (read : a.uio.uioRw = .read)
    (offset : a.uio.uioOffset = -(n : Int)) (le : n ≤ 2^31) (harmful : ¬FrontSafe n a.uio.uioResid) :
    (ioBody k).wp a never never (fun _ _ => True) := by
  have unaligned : n % 512 ≠ 0 := fun aligned => harmful (.inl aligned)
  have near : n < 512 ∨ a.uio.uioResid < n % 512 := by
    by_contra neither
    exact harmful (.inr (by omega))
  have block := front_fileblock offset le
  rw [ioBody,wp_bind,wp_ioLeading_front offset unaligned]
  simp only [sfsPartialio,wp_bind,wp_read,wp_assert,SfsIo.wp_onFs,read,reduceCtorEq,
    decide_false,if_false]
  rcases Nat.lt_or_ge a.uio.uioResid (n % 512) with short | reached
  · rw [if_neg (by simp only [decide_eq_true_eq]; omega)]
    trivial
  rw [if_pos (by simp only [decide_eq_true_eq]; omega)]
  have first : u32 (a.uio.uioOffset.tdiv 512) = 0 := by
    rw [block,if_pos (by omega)]
  rw [first]
  apply wp_safe (sfsBmap_good cons h isLoaded reliable)
  · rintro b t ⟨rfl,m,rfl⟩
    apply wp_safe (partialioFetch_spec (a := ⟨a.fs.tick m,a.uio⟩) (cons.tick m) h 0 fun _ => rfl)
    · rintro buf _ -
      rw [if_neg (by simp only [decide_eq_true_eq]; omega)]
      trivial
    · exact fun _ _ failed => absurd (tick_reliable reliable m) failed.2.2.1
  · exact fun _ _ failed => absurd failed.1 (by decide)

theorem FrontSafe.cut {resid size : Nat} (long : size + n ≤ resid) :
    FrontSafe n (size + n) ↔ FrontSafe n resid := by
  unfold FrontSafe
  have := Nat.mod_le n 512
  exact or_congr_right ⟨fun both => ⟨both.1,by omega⟩,fun both => ⟨both.1,by omega⟩⟩

theorem sfsIo_front (cons : Consistent strict live ∅ a.fs) (h : live k) (isLoaded : a.fs.loaded k)
    (reliable : a.fs.disk.Reliable) (read : a.uio.uioRw = .read) (valid : a.uio.Valid)
    (bound : (a.fs.view k).size < 2^31) (offset : a.uio.uioOffset = -(n : Int)) (front : 0 < n) :
    (sfsIo k).wp a (fun _ t => FrontSafe n a.uio.uioResid ∧ t = a ∧ a.uio.uioResid = 0)
      (fun _ t => FrontSafe n a.uio.uioResid ∧ t = a) (fun _ _ => ¬FrontSafe n a.uio.uioResid) := by
  have low := valid.low
  have small := valid.resid
  have le : n ≤ 2^31 := by omega
  -- the body runs on a request of `rest` bytes, and the others are added back at the end
  have run : ∀ extra rest, rest + extra = a.uio.uioResid → (rest = 0 → extra = 0) →
      (FrontSafe n rest ↔ FrontSafe n a.uio.uioResid) →
      (ioRun k extra).wp ⟨a.fs,{ a.uio with uioResid := rest }⟩
        (fun _ t => FrontSafe n a.uio.uioResid ∧ t = a ∧ a.uio.uioResid = 0)
        (fun _ t => FrontSafe n a.uio.uioResid ∧ t = a) (fun _ _ => ¬FrontSafe n a.uio.uioResid) := by
    intro extra rest sum whole same
    generalize shorter : (SfsIo.mk a.fs { a.uio with uioResid := rest }) = c
    have fs : c.fs = a.fs := by rw [← shorter]
    have uio : c.uio = { a.uio with uioResid := rest } := by rw [← shorter]
    have resid : c.uio.uioResid = rest := by rw [uio]
    have readC : c.uio.uioRw = .read := by rw [uio]; exact read
    have offsetC : c.uio.uioOffset = -(n : Int) := by rw [uio]; exact offset
    have back : (⟨c.fs,{ c.uio with uioResid := (c.uio.uioResid + extra) % 2^32 }⟩ : SfsIo) = a := by
      rw [resid,sum,Nat.mod_eq_of_lt small,fs,uio]
    rw [ioRun,wp_bind,wp_attempt]
    by_cases safe : FrontSafe n a.uio.uioResid
    · apply wp_safe (ioBody_front offsetC le front (by rw [resid]; exact same.mpr safe))
      · rintro _ _ ⟨rfl,none_⟩
        have empty : a.uio.uioResid = 0 := by
          rw [resid] at none_
          have := whole none_
          omega
        rw [wp_ioOut_read (fs ▸ isLoaded) readC,wp_give_ok]
        exact ⟨safe,back,empty⟩
      · rintro e _ rfl
        rw [wp_ioOut_read (fs ▸ isLoaded) readC,wp_give_error]
        exact ⟨safe,back⟩
    · apply wp_mono (ioBody_front_halts (fs ▸ cons) h (fs ▸ isLoaded) (fs ▸ reliable) readC offsetC
        le (by rw [resid]; exact fun good => safe (same.mp good)))
      · exact fun _ _ h => h.elim
      · exact fun _ _ h => h.elim
      · exact fun _ _ _ => safe
  obtain ⟨v,found⟩ := loaded_iff.mp isLoaded
  have sizeInt : i32 ((a.fs.view k).size : Int) = (a.fs.view k).size :=
    i32_of_bounds (by omega) (by omega)
  simp only [sfsIo,wp_bind,wp_read,read,SfsIo.wp_onFs,Sfs.wp_vnode found,loaded_size found,sizeInt]
  generalize (a.fs.view k).size = z at *
  rw [if_neg (by omega),wp_ite]
  refine ⟨fun exceeds => ?_,fun _ => run 0 _ (Nat.add_zero _) (fun _ => rfl) Iff.rfl⟩
  have endpos : i32 (a.uio.uioOffset + a.uio.uioResid) = a.uio.uioOffset + a.uio.uioResid := by
    by_cases fits : a.uio.uioOffset + (a.uio.uioResid : Int) < 2^31
    · exact i32_of_bounds (by omega) fits
    · exfalso
      rw [i32_of_wrap (by omega) (by omega)] at exceeds
      omega
  rw [endpos] at exceeds ⊢
  have extra : u32 (a.uio.uioOffset + a.uio.uioResid - (z : Int)) = a.uio.uioResid - (z + n) := by
    rw [u32_of_bounds (by omega) (by omega)]
    omega
  have some_ : decide (a.uio.uioResid > a.uio.uioResid - (z + n)) = true := decide_eq_true (by omega)
  simp only [extra,wp_bind,wp_assert,some_,if_true,SfsIo.wp_onUio,wp_modify]
  have rest : a.uio.uioResid - (a.uio.uioResid - (z + n)) = z + n := by omega
  rw [rest]
  exact run _ _ (by omega) (by omega) (FrontSafe.cut (by omega))

end Front

/-! End of file -/

theorem Reads.resid {k n : Nat} {a t : SfsIo} (reads : Reads k n a t) (valid : a.uio.Valid)
    (le : n ≤ a.uio.uioResid) : t.uio.uioResid = a.uio.uioResid - n := by
  rw [reads.uio,Uio.moved_resid_of_le valid _ le]

/-- The number of bytes that a read at `offset` should get from a file of `size` bytes. -/
def eofLength (size : Nat) (offset : Int) (resid : Nat) : Nat :=
  if 0 ≤ offset then min resid ((size : Int) - offset).toNat else 0

/-- `sfs_read` trips no assertion, and moves the bytes between the cursor and end of file. -/
def StopsAtEof (k : Nat) (a : SfsIo) : Prop :=
  (sfsRead k).wp a
    (fun _ t => Reads k (eofLength (a.fs.view k).size a.uio.uioOffset a.uio.uioResid) a t)
    (fun _ t => Reads k (eofLength (a.fs.view k).size a.uio.uioOffset a.uio.uioResid) a t)
    (fun _ _ => False)

/-- The requests that the arithmetic of `sfs_io` is right for: in a file, the end of the request
fits an `off_t`, or the file is as large as files get. -/
def ReadInRange (size : Nat) (offset : Int) (resid : Nat) : Prop :=
  if 0 ≤ offset then (size : Int) ≤ offset ∨ offset + resid < 2^31 ∨ size = 143 * 512
  else FrontSafe (-offset).toNat resid

theorem eofLength_le (size : Nat) (offset : Int) (resid : Nat) : eofLength size offset resid ≤ resid := by
  unfold eofLength
  split
  · exact Nat.min_le_left _ _
  · exact Nat.zero_le _

theorem readLength_le {size p resid : Nat} (bound : size ≤ 143 * 512) : readLength size p resid ≤ resid := by
  unfold readLength fileRoom
  split
  · exact Nat.zero_le _
  · split <;> omega

theorem readLength_eq_iff {size p resid : Nat} (bound : size ≤ 143 * 512) :
    readLength size p resid = eofLength size p resid ↔ ReadInRange size p resid := by
  unfold readLength eofLength ReadInRange fileRoom
  rw [if_pos (Int.natCast_nonneg p),if_pos (Int.natCast_nonneg p)]
  split
  · exact ⟨fun _ => .inl (by omega),fun _ => by omega⟩
  · split
    · exact ⟨fun _ => .inr (.inl (by omega)),fun _ => by omega⟩
    · exact ⟨fun same => .inr (.inr (by omega)),fun inRange => by omega⟩

section Eof
variable {strict : Prop} {live : Nat → Prop} {k : Nat} {a : SfsIo}

theorem stopsAtEof_iff_length (at_ : Readable strict live k a) (sized : a.uio.Sized)
    (bound : (a.fs.view k).size ≤ 143 * 512) :
    StopsAtEof k a ↔ readLength (a.fs.view k).size a.uio.pos a.uio.uioResid =
      eofLength (a.fs.view k).size a.uio.uioOffset a.uio.uioResid := by
  have done := sfsIo_reads at_ sized bound
  have start : StopsAtEof k a ↔ (sfsIo k).wp a
      (fun _ t => Reads k (eofLength (a.fs.view k).size a.uio.uioOffset a.uio.uioResid) a t)
      (fun _ t => Reads k (eofLength (a.fs.view k).size a.uio.uioOffset a.uio.uioResid) a t)
      never := by
    unfold StopsAtEof
    simp only [sfsRead,wp_bind,wp_read,wp_assert,at_.read,decide_true,if_true]
  rw [start]
  refine ⟨fun stops => ?_,fun same => wp_mono (same ▸ done) (fun _ _ h => h) (fun _ _ h => h.2.2)
    fun _ _ h => h⟩
  by_contra differ
  have apart : ∀ t, Reads k (readLength (a.fs.view k).size a.uio.pos a.uio.uioResid) a t →
      ¬Reads k (eofLength (a.fs.view k).size a.uio.uioOffset a.uio.uioResid) a t := by
    intro t one other
    have leftOne := one.resid sized.valid (readLength_le bound)
    have leftOther := other.resid sized.valid (eofLength_le _ _ _)
    have : readLength _ a.uio.pos a.uio.uioResid ≤ _ := readLength_le bound
    have := eofLength_le (a.fs.view k).size a.uio.uioOffset a.uio.uioResid
    omega
  exact not_wp_of_wp done (fun _ t => apart t) (fun _ t h => apart t h.2.2) (fun _ _ h => h.elim)
    stops

/-- Reads stop at end of file, for every request in range and for no other. -/
theorem read_stops_at_eof_iff (at_ : Readable strict live k a) (valid : a.uio.Valid)
    (bound : (a.fs.view k).size ≤ 143 * 512) :
    StopsAtEof k a ↔ ReadInRange (a.fs.view k).size a.uio.uioOffset a.uio.uioResid := by
  rcases Int.lt_or_le a.uio.uioOffset 0 with front | inFile
  · have offset : a.uio.uioOffset = -((-a.uio.uioOffset).toNat : Int) := by omega
    have none_ : eofLength (a.fs.view k).size a.uio.uioOffset a.uio.uioResid = 0 := if_neg (by omega)
    have done := sfsIo_front at_.consistent at_.live at_.loaded at_.reliable at_.read valid (by omega) offset
      (by omega)
    have inRange : ReadInRange (a.fs.view k).size a.uio.uioOffset a.uio.uioResid ↔
        FrontSafe (-a.uio.uioOffset).toNat a.uio.uioResid := by
      rw [ReadInRange,if_neg (by omega)]
    have still : Reads k 0 a a := ⟨⟨0,a.fs.tick_zero.symm⟩,(valid.moved_zero _).symm⟩
    rw [StopsAtEof,none_,inRange]
    simp only [sfsRead,wp_bind,wp_read,wp_assert,at_.read,decide_true,if_true]
    refine ⟨fun stops => ?_,fun safe => ?_⟩
    · by_contra bad
      exact not_wp_of_wp done (fun _ _ h => absurd h.1 bad) (fun _ _ h => absurd h.1 bad)
        (fun _ _ _ h => h) stops
    · apply wp_mono done
      · rintro _ _ ⟨-,rfl,-⟩
        exact still
      · rintro _ _ ⟨-,rfl⟩
        exact still
      · exact fun _ _ bad => bad safe
  · have sized : a.uio.Sized := ⟨inFile,valid.high,valid.resid,at_.len,at_.space⟩
    rw [stopsAtEof_iff_length at_ sized bound,← sized.pos_eq]
    exact readLength_eq_iff bound

end Eof

/-- A kernel buffer for a read of file 3 of the file system on which five bytes have been written. -/
def fiveRead (len : Nat) (offset : Int) : SfsIo :=
  ⟨fiveBytes.after ready,Uio.mkKuio (fun _ => 0xff) len offset .read⟩

theorem fiveRead_readable (len : Nat) (offset : Int) :
    Readable True (fiveBytes.after ready).Live 3 (fiveRead len offset) := by
  obtain ⟨-,-,inv,-⟩ := fiveBytes.call_spec ready_inv ready_represents fiveBytes_proper
  have isLoaded : (fiveBytes.after ready).loaded 3 := by decide +kernel
  exact {
    consistent := inv.consistent
    live := .of_loaded isLoaded
    loaded := isLoaded
    reliable := (inv.consistent.geometry.reliable trivial).1
    read := rfl
    space := rfl
    len := Nat.le_refl _
    reach := .inl rfl }

/-- Ten bytes at 508, where the file has seven. -/
theorem read_stops_at_eof_window : StopsAtEof 3 (fiveRead 10 508) :=
  (read_stops_at_eof_iff (fiveRead_readable 10 508) ⟨by decide,by decide,by decide⟩ (by decide +kernel)).mpr
    (.inr (.inl (by decide)))

/-- Sixteen bytes at -256: the kernel halts in the range check of `sfs_partialio`. -/
theorem read_halts_in_front : ¬StopsAtEof 3 (fiveRead 16 (-256)) := by
  have at_ := fiveRead_readable 16 (-256)
  have bad : ¬FrontSafe 256 16 := by
    rintro (aligned | ⟨deep,-⟩)
    · exact absurd aligned (by decide)
    · exact absurd deep (by decide)
  have done := sfsIo_front at_.consistent at_.live at_.loaded at_.reliable at_.read
    ⟨by decide,by decide,by decide⟩ (by decide +kernel) (show (-256 : Int) = -((256 : Nat) : Int) from rfl)
    (by decide)
  simp only [StopsAtEof,sfsRead,wp_bind,wp_read,wp_assert,at_.read,decide_true,if_true]
  exact not_wp_of_wp done (fun _ _ h => absurd h.1 bad) (fun _ _ h => absurd h.1 bad) fun _ _ _ h => h

end Os161
