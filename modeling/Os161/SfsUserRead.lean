import Os161.SfsReadEof

/-! Reads into user memory: the cursor of the uio only moves over addresses that can be accessed,
and the first copy decides whether it moves at all. -/
namespace Os161

open Exec

namespace Uio

def Through (u t : Uio) : Prop :=
  ∃ n, t.iovBase = u.iovBase + n ∧ t.uioSegflg = u.uioSegflg ∧ t.userOk = u.userOk ∧ u.Open n

section Through
variable {u v t : Uio} {n m : Nat}

theorem Open.add (first : u.Open n) (base : v.iovBase = u.iovBase + n)
    (segflg : v.uioSegflg = u.uioSegflg) (userOk : v.userOk = u.userOk) (second : v.Open m) :
    u.Open (n + m) := by
  rcases first with kernel | first
  · exact .inl kernel
  rcases second with kernel | second
  · exact .inl (segflg.symm.trans kernel)
  refine .inr fun i lt => ?_
  by_cases low : i < n
  · exact first i low
  · have := second (i - n) (by omega)
    rwa [userOk,base,show u.iovBase + n + (i - n) = u.iovBase + i by omega] at this

theorem Through.refl (u : Uio) : u.Through u := ⟨0,rfl,rfl,rfl,.zero u⟩

instance : IsPreorder Uio Through where
  refl := .refl
  trans := by
    rintro u v t ⟨n,baseV,segflgV,userOkV,openV⟩ ⟨m,baseT,segflgT,userOkT,openT⟩
    exact ⟨n + m,by omega,segflgT.trans segflgV,userOkT.trans userOkV,
      openV.add baseV segflgV userOkV openT⟩

theorem copy_through (buf : Nat → UInt8) (pos size : Nat) :
    (copy buf pos size).wp u (fun _ t => u.SameCursor t ∧ u.Open size) (fun _ t => u.SameCursor t)
      never := by
  simp only [copy,wp_bind,wp_read]
  have all : ¬ (if u.uioSegflg = .sysspace then size else u.reach size) < size → u.Open size :=
    fun whole => not_not.mp (mt not_open_iff.mp whole)
  generalize (if u.uioSegflg = .sysspace then size else u.reach size) = moved at all
  cases rw_ : u.uioRw
  · simp only [wp_bind,wp_put,wp_pure,wp_ite]
    exact ⟨fun _ => ⟨_,by rw [rw_]⟩,fun whole => ⟨⟨_,by rw [rw_]⟩,all whole⟩⟩
  · simp only [wp_bind,wp_pure,wp_ite]
    exact ⟨fun _ => ⟨u.mem,rfl⟩,fun whole => ⟨⟨u.mem,rfl⟩,all whole⟩⟩

theorem SameCursor.through (same : u.SameCursor t) : u.Through t := by
  obtain ⟨m,rfl⟩ := same
  exact ⟨0,rfl,rfl,rfl,.zero u⟩

theorem moveLoop_through (turns n pos : Nat) (buf : Nat → UInt8) :
    Keeps Through (moveLoop turns n pos buf) := by
  induction turns generalizing n pos buf with
  | zero => exact keeps_pure _
  | succ turns ih =>
    intro u
    refine wp_after ?_
    simp only [moveLoop,wp_bind,wp_read]
    rw [wp_ite]
    refine ⟨fun _ => ?_,fun _ => .refl u⟩
    generalize (if u.iovLen > n then n else u.iovLen) = size
    rw [wp_bind,wp_assert]
    split
    · rw [wp_bind]
      refine wp_safe (copy_through buf pos size) ?_ (fun _ _ same => same.through)
      rintro buf' _ ⟨⟨m,rfl⟩,open_⟩
      rw [wp_bind,wp_modify]
      have moved : u.Through (Uio.advance { u with mem := m } size) := ⟨size,rfl,rfl,rfl,open_⟩
      exact wp_mono ((ih _ _ _).wp _) (fun _ _ next => IsTrans.trans _ _ _ moved next)
        (fun _ _ next => IsTrans.trans _ _ _ moved next) fun _ _ next => IsTrans.trans _ _ _ moved next
    · exact .refl u

theorem uiomove_through (buf : Nat → UInt8) (n : Nat) : Keeps Through (uiomove buf n) :=
  keeps_bind keeps_read fun _ => keeps_bind (keeps_assert _ _) fun _ => moveLoop_through _ _ _ _

theorem zerosLoop_through (turns n : Nat) : Keeps Through (zerosLoop turns n) := by
  induction turns generalizing n with
  | zero => exact keeps_pure _
  | succ turns ih =>
    exact keeps_ite _ (keeps_bind (uiomove_through _ _) fun _ => ih _) (keeps_pure _)

theorem uiomovezeros_through (n : Nat) : Keeps Through (uiomovezeros n) :=
  keeps_bind keeps_read fun _ => keeps_bind (keeps_assert _ _) fun _ => zerosLoop_through _ _

end Through

end Uio

/-! The driver and the file system -/

def DevIo.Through (io t : DevIo) : Prop := io.uio.Through t.uio

instance : IsPreorder DevIo DevIo.Through where
  refl io := .refl io.uio
  trans _ _ _ first second := IsTrans.trans (r := Uio.Through) _ _ _ first second

theorem Lhd.request_through (nsect sector : Nat) (data : Option Block) :
    Keeps DevIo.Through (Lhd.request nsect sector data) := by
  intro io
  refine wp_after ?_
  simp only [Lhd.request,wp_bind,wp_read,wp_put]
  split
  · exact Uio.Through.refl io.uio
  · exact Uio.Through.refl io.uio

theorem Lhd.sectorIo_through (nsect sector : Nat) : Keeps DevIo.Through (Lhd.sectorIo nsect sector) := by
  have moved : ∀ buf, Keeps DevIo.Through (Lhd.onUio (Uio.uiomove buf 512)) := fun buf io =>
    Uio.uiomove_through buf 512 io.uio
  refine keeps_bind keeps_read fun io => ?_
  cases io.uio.uioRw
  · exact keeps_bind (request_through _ _ _) fun _ => keeps_bind (moved _) fun _ => keeps_pure _
  · exact keeps_bind (moved _) fun _ => request_through _ _ _

theorem Lhd.ioLoop_through {turn : Nat → Nat → Call DevIo Unit}
    (one : ∀ nsect sector, Keeps DevIo.Through (turn nsect sector)) (dBlocks : Nat) :
    Keeps DevIo.Through (Lhd.ioLoop turn dBlocks) :=
  keeps_bind keeps_read fun _ => keeps_ite _ (keeps_fail _) <| keeps_ite _ (keeps_fail _) <|
    keeps_loop (fun _ _ => one _ _) _ _ _

theorem Device.Honest.through {d : Device} (honest : d.Honest) (n : Nat) :
    Keeps DevIo.Through (d.dIo n) := by
  rcases honest with failStop | ⟨real,-⟩
  · rw [failStop]
    exact Lhd.ioLoop_through (fun _ _ => keeps_bind keeps_read fun _ =>
      keeps_ite _ (Lhd.sectorIo_through _ _) (Lhd.request_through _ _ _)) n
  · rw [real]
    exact Lhd.ioLoop_through Lhd.sectorIo_through n

def SfsIo.Through (a b : SfsIo) : Prop :=
  b.fs.sfsDevice.dIo = a.fs.sfsDevice.dIo ∧
    ((∀ n, Keeps DevIo.Through (a.fs.sfsDevice.dIo n)) → a.uio.Through b.uio)

instance : IsPreorder SfsIo SfsIo.Through where
  refl a := ⟨rfl,fun _ => .refl a.uio⟩
  trans _ _ _ first second := ⟨second.1.trans first.1,fun driver =>
    IsTrans.trans _ _ _ (first.2 driver) (second.2 (by rwa [first.1]))⟩

theorem rwblockTries_through {d : Device} (driver : ∀ n, Keeps DevIo.Through (d.dIo n)) (left : Nat) :
    Keeps DevIo.Through (rwblockTries d left) := by
  induction left with
  | zero =>
    refine keeps_bind (keeps_attempt (driver _)) fun result => ?_
    rcases result with code | _
    · cases code <;> first | exact keeps_panic _ | exact keeps_fail _
    · exact keeps_pure _
  | succ left ih =>
    refine keeps_bind (keeps_attempt (driver _)) fun result => ?_
    rcases result with code | _
    · cases code <;> first | exact ih | exact keeps_panic _ | exact keeps_fail _
    · exact keeps_pure _

theorem through_ioSteps (k : Nat) : IoSteps k SfsFs.SameDevice SfsIo.Through where
  frame := SfsFs.sameDevice_ioFrame k
  onFs keeps io := ⟨(keeps io.fs).1,fun _ => .refl io.uio⟩
  move buf n io := ⟨rfl,fun _ => Uio.uiomove_through buf n io.uio⟩
  zeros n io := ⟨rfl,fun _ => Uio.uiomovezeros_through n io.uio⟩
  rwblock io := ⟨rfl,fun driver => rwblockTries_through driver 10 ⟨io.fs.sfsDevice.dData,io.uio⟩⟩
  cursor io _ _ := ⟨rfl,fun _ => ⟨0,rfl,rfl,rfl,.zero io.uio⟩⟩

/-! The first copy -/

open SfsFs

/-- How a transfer whose first copy has `c` bytes begins: the cursor moves past them, or it stays
where it is. -/
def Uio.Starts (c : Nat) (u t : Uio) : Prop :=
  (u.Open c ∧ u.iovBase + c ≤ t.iovBase) ∨ (¬ u.Open c ∧ t.iovBase = u.iovBase)

def SfsFs.firstCopy (s : SfsFs) (k p amount : Nat) : Nat :=
  if p % 512 = 0 ∧ 512 ≤ amount ∧ s.block k (p / 512) = 0 then 16 else min (512 - p % 512) amount

section First
variable {strict : Prop} {live : Nat → Prop} {k lo hi n c : Nat} {a b : SfsIo} {u t : Uio}

theorem Uio.SameCursor.starts (same : u.SameCursor t) (closed : ¬ u.Open c) : u.Starts c t := by
  obtain ⟨m,rfl⟩ := same
  exact .inr ⟨closed,rfl⟩

theorem Uio.Through.starts (open_ : u.Open c) (base : u.iovBase + c ≤ t.iovBase) {v : Uio}
    (next : t.Through v) : u.Open c ∧ u.iovBase + c ≤ v.iovBase := by
  obtain ⟨n,base',-⟩ := next
  exact ⟨open_,by omega⟩

theorem Uio.uiomovezeros_starts (valid : u.Valid) (space : u.spaceOk = true) (read : u.uioRw = .read)
    (resid : n ≤ u.uioResid) (len : n ≤ u.iovLen) (some_ : 0 < n) :
    (Uio.uiomovezeros n).wp u
      (fun _ t => u.Open (min 16 n) ∧ u.iovBase + min 16 n ≤ t.iovBase)
      (fun _ t => u.Starts (min 16 n) t) never := by
  have quiet := Uio.uiomovezeros_spec valid space read resid len
  refine wp_mono (wp_and quiet (?_ : (Uio.uiomovezeros n).wp u
    (fun _ t => u.Open (min 16 n) ∧ u.iovBase + min 16 n ≤ t.iovBase)
    (fun _ t => u.Starts (min 16 n) t) fun _ _ => True)) (fun _ _ h => h.2) (fun _ _ h => h.2)
    fun _ _ h => h.1
  obtain ⟨turns,rfl⟩ : ∃ turns, n = turns + 1 := ⟨n - 1,by omega⟩
  have amount : (if 16 > turns + 1 then turns + 1 else 16) = min 16 (turns + 1) := by
    split <;> omega
  simp only [Uio.uiomovezeros,wp_bind,wp_read,wp_assert,read,decide_true,if_true,
    Uio.zerosLoop,gt_iff_lt,some_,amount]
  refine wp_mono (Uio.uiomove_spec valid space (fun _ => 0)
    (show min 16 (turns + 1) ≤ u.uioResid by omega) (show min 16 (turns + 1) ≤ u.iovLen by omega)) ?_ ?_
    fun _ _ _ => trivial
  · rintro _ t ⟨open_,rfl,-⟩
    have past : u.iovBase + min 16 (turns + 1) ≤ (u.moved (fun _ => 0) (min 16 (turns + 1))).iovBase := by
      rw [Uio.moved_iovBase]
    exact wp_mono ((Uio.zerosLoop_through _ _).wp _)
      (fun _ _ next => next.starts open_ past) (fun _ _ next => .inl (next.starts open_ past))
      fun _ _ _ => trivial
  · exact fun _ t failed => failed.2.2.starts failed.2.1

section Transfer
variable (cons : Consistent strict live ∅ a.fs) (h : live k) (isLoaded : a.fs.loaded k)
  (reliable : a.fs.disk.Reliable) (read : a.uio.uioRw = .read) (sized : a.uio.Sized)
  (inside : a.uio.pos < 143 * 512)
include cons h isLoaded reliable read sized inside

theorem sfsPartialio_starts :
    (sfsPartialio k (a.uio.pos % 512) (min (512 - a.uio.pos % 512) a.uio.uioResid)).wp a
      (fun _ t => a.uio.Open (min (512 - a.uio.pos % 512) a.uio.uioResid) ∧
        a.uio.iovBase + min (512 - a.uio.pos % 512) a.uio.uioResid ≤ t.uio.iovBase)
      (fun _ t => a.uio.Starts (min (512 - a.uio.pos % 512) a.uio.uioResid) t.uio) never := by
  rw [wp_sfsPartialio]
  apply wp_ends (partialioFill_spec cons h isLoaded sized (Nat.le_refl _) (Nat.lt_succ_self _))
  · rintro part t ⟨filled,open_⟩
    rw [read,if_neg (by decide),wp_pure,filled.uio,Uio.moved_iovBase]
    exact ⟨open_,Nat.le_refl _⟩
  · rintro e t ⟨stopped,same,blamed⟩
    exact same.starts fun open_ => stopped.not_good blamed reliable read open_ inside

theorem sfsBlockio_starts (aligned : a.uio.pos % 512 = 0) (whole : 512 ≤ a.uio.uioResid)
    (first : c = if a.fs.block k (a.uio.pos / 512) = 0 then 16 else 512) :
    (sfsBlockio k).wp a (fun _ t => a.uio.Open c ∧ a.uio.iovBase + c ≤ t.uio.iovBase)
      (fun _ t => a.uio.Starts c t.uio) never := by
  have len := sized.len
  by_cases hole : a.fs.block k (a.uio.pos / 512) = 0
  · rw [if_pos hole] at first
    subst first
    simp only [sfsBlockio,wp_bind,wp_read,sized.fileblock,SfsIo.wp_onFs,read,reduceCtorEq,decide_false]
    refine wp_ends (sfsBmap_good cons h isLoaded reliable) ?_ ?_
    · rintro _ t ⟨rfl,m,rfl⟩
      simp only [hole,wp_bind,wp_assert,decide_true,if_true,SfsIo.wp_onUio]
      exact Uio.uiomovezeros_starts sized.valid sized.space read whole (by omega) (by decide)
    · rintro e t ⟨beyond,-⟩
      omega
  · rw [if_neg hole] at first
    subst first
    refine wp_mono (wp_and (sfsBlockio_spec cons h isLoaded sized aligned whole (Nat.le_refl _)
      (Nat.lt_succ_self _)) ((sfsBlockio_keeps (through_ioSteps k)).wp a)) ?_ ?_ fun _ _ h => h.1
    · rintro _ t ⟨moved,-,through⟩
      obtain ⟨n,base,-,-,open_⟩ := through fun n => cons.geometry.honest.through n
      rw [moved.uio,Uio.moved_iovBase] at base ⊢
      obtain rfl : n = 512 := by omega
      exact ⟨open_,Nat.le_refl _⟩
    · rintro e t ⟨⟨stopped,same,blamed⟩,-⟩
      exact (same (.inr hole)).starts fun open_ => stopped.not_good blamed reliable read open_ inside

theorem ioBody_starts (some_ : 0 < a.uio.uioResid) :
    (ioBody k).wp a
      (fun _ t => a.uio.Open (a.fs.firstCopy k a.uio.pos a.uio.uioResid) ∧
        a.uio.iovBase + a.fs.firstCopy k a.uio.pos a.uio.uioResid ≤ t.uio.iovBase)
      (fun _ t => a.uio.Starts (a.fs.firstCopy k a.uio.pos a.uio.uioResid) t.uio) fun _ _ => True := by
  have driver := fun n => cons.geometry.honest.through n
  -- once the first copy is made, the rest of the transfer only goes on
  have onward : ∀ {rest : Call SfsIo Unit}, Keeps SfsIo.Through rest → ∀ {c : Nat} {t : SfsIo},
      t.fs.sfsDevice.dIo = a.fs.sfsDevice.dIo → a.uio.Open c → a.uio.iovBase + c ≤ t.uio.iovBase →
      rest.wp t (fun _ v => a.uio.Open c ∧ a.uio.iovBase + c ≤ v.uio.iovBase)
        (fun _ v => a.uio.Starts c v.uio) fun _ _ => True := by
    intro rest keeps c t same open_ past
    refine wp_mono (keeps.wp t) ?_ ?_ fun _ _ _ => trivial
    · exact fun _ v next => (next.2 (by rwa [same])).starts open_ past
    · exact fun _ v next => .inl ((next.2 (by rwa [same])).starts open_ past)
  rw [ioBody,wp_bind,ioLeading,wp_bind,wp_read]
  simp only [sized.blkoff]
  rw [wp_ite]
  refine ⟨fun unaligned => ?_,fun aligned => ?_⟩
  · have amount : (if u32 (512 - ((a.uio.pos % 512 : Nat) : Int)) > a.uio.uioResid
        then a.uio.uioResid else u32 (512 - ((a.uio.pos % 512 : Nat) : Int))) =
        min (512 - a.uio.pos % 512) a.uio.uioResid := by
      rw [u32_of_bounds (by omega) (by omega)]
      split <;> omega
    have first : a.fs.firstCopy k a.uio.pos a.uio.uioResid = min (512 - a.uio.pos % 512) a.uio.uioResid :=
      if_neg fun whole => unaligned whole.1
    rw [amount,first]
    refine wp_mono (wp_and (sfsPartialio_starts cons h isLoaded reliable read sized inside)
      ((sfsPartialio_keeps (through_ioSteps k) _ _).wp a)) ?_ (fun _ _ failed => failed.1) fun _ _ _ => trivial
    exact fun _ t done => onward (ioAligned_keeps (through_ioSteps k)) done.2.1 done.1.1 done.1.2
  rw [wp_pure,ioAligned,wp_bind,wp_read,if_neg (by omega),wp_bind,wp_assert]
  split
  swap
  · trivial
  simp only [wp_bind]
  cases blocks : a.uio.uioResid / 512 with
  | zero =>
    have first : a.fs.firstCopy k a.uio.pos a.uio.uioResid = a.uio.uioResid := by
      rw [firstCopy,if_neg (by omega)]
      omega
    have tail := sfsPartialio_starts cons h isLoaded reliable read sized inside
    rw [show a.uio.pos % 512 = 0 by omega,show min (512 - 0) a.uio.uioResid = a.uio.uioResid by omega]
      at tail
    rw [first]
    simp only [loop,wp_pure,wp_read,wp_assert]
    rw [if_pos (by simp only [decide_eq_true_eq]; omega),if_pos some_]
    exact wp_mono tail (fun _ _ done => done) (fun _ _ failed => failed) fun _ _ _ => trivial
  | succ count =>
    have first : a.fs.firstCopy k a.uio.pos a.uio.uioResid =
        if a.fs.block k (a.uio.pos / 512) = 0 then 16 else 512 := by
      by_cases hole : a.fs.block k (a.uio.pos / 512) = 0
      · rw [firstCopy,if_pos ⟨by omega,by omega,hole⟩,if_pos hole]
      · rw [firstCopy,if_neg (fun whole => hole whole.2.2),if_neg hole]
        omega
    rw [loop,wp_bind]
    refine wp_mono (wp_and (sfsBlockio_starts cons h isLoaded reliable read sized inside (by omega)
      (by omega) first) ((sfsBlockio_keeps (through_ioSteps k)).wp a)) ?_ (fun _ _ failed => failed.1) fun _ _ _ => trivial
    rintro _ t done
    have rest := onward (ioBlocks_keeps (through_ioSteps k) count (0 + 1)) done.2.1 done.1.1 done.1.2
    simpa only [wp_bind] using rest

end Transfer

/-- The number of bytes that a read of `resid` bytes at position `p` of a file of `size` bytes is
started with. -/
def readAmount (size p resid : Nat) : Nat := if p + resid < 2^31 then min resid (size - p) else resid

def Whole (k : Nat) (a : SfsIo) : Prop :=
  readLength (a.fs.view k).size a.uio.pos a.uio.uioResid = a.uio.uioResid ∧ a.uio.Open a.uio.uioResid

section Request
variable (cons : Consistent strict live ∅ a.fs) (h : live k) (isLoaded : a.fs.loaded k)
  (reliable : a.fs.disk.Reliable) (read : a.uio.uioRw = .read) (sized : a.uio.Sized)
include cons h isLoaded reliable read sized

theorem ioRun_starts (inside : a.uio.pos < 143 * 512) {extra : Nat}
    (some_ : extra < a.uio.uioResid)
    (first : c = a.fs.firstCopy k a.uio.pos (a.uio.uioResid - extra)) :
    (ioRun k extra).wp ⟨a.fs,{ a.uio with uioResid := a.uio.uioResid - extra }⟩
      (fun _ t => a.uio.Open c ∧ a.uio.iovBase + c ≤ t.uio.iovBase)
      (fun _ t => a.uio.Starts c t.uio) fun _ _ => True := by
  subst first
  have started := ioBody_starts (a := ⟨a.fs,{ a.uio with uioResid := a.uio.uioResid - extra }⟩)
    cons h isLoaded reliable read (sized.cut extra) inside (Nat.sub_pos_of_lt some_)
  rw [ioRun,wp_bind,wp_attempt]
  have out : ∀ (v : SfsIo) result {ok : Unit → SfsIo → Prop} {err : Errno → SfsIo → Prop},
      (∀ t, v.uio.iovBase = t.uio.iovBase → (give result : Call SfsIo Unit).wp t ok err fun _ _ => True) →
      (ioOut k extra result).wp v ok err fun _ _ => True := by
    intro v result ok err next
    simp only [ioOut,wp_bind,wp_read,SfsIo.wp_onFs,Sfs.vnode]
    cases v.fs.vnode? k with
    | none => trivial
    | some sv =>
      simp only [wp_pure,wp_ite,wp_bind,SfsIo.wp_onFs,Sfs.updateInode,Sfs.update,
        wp_modify,SfsIo.wp_onUio]
      exact ⟨fun _ => next _ rfl,fun _ => next _ rfl⟩
  refine wp_mono started ?_ ?_ fun _ _ _ => trivial
  · intro _ v begun
    refine out v (.ok ()) fun t same => ?_
    rw [wp_give_ok,← same]
    exact begun
  · intro e v begun
    refine out v (.error e) fun t same => ?_
    rw [wp_give_error,Uio.Starts,← same]
    exact begun

theorem sfsIo_starts (bound : (a.fs.view k).size ≤ 143 * 512)
    (inside : a.uio.pos < (a.fs.view k).size) (some_ : 0 < a.uio.uioResid)
    (first : c = a.fs.firstCopy k a.uio.pos (readAmount (a.fs.view k).size a.uio.pos a.uio.uioResid)) :
    (sfsIo k).wp a (fun _ t => a.uio.Open c ∧ a.uio.iovBase + c ≤ t.uio.iovBase)
      (fun _ t => a.uio.Starts c t.uio) never := by
  refine wp_mono (wp_and (sfsIo_quiet cons h isLoaded sized read) (?_ : (sfsIo k).wp a
    (fun _ t => a.uio.Open c ∧ a.uio.iovBase + c ≤ t.uio.iovBase) (fun _ t => a.uio.Starts c t.uio)
    fun _ _ => True)) (fun _ _ h => h.2) (fun _ _ h => h.2) fun _ _ h => h.1
  have sizeInt : i32 ((a.fs.view k).size : Int) = (a.fs.view k).size :=
    i32_of_bounds (by omega) (by omega)
  rw [wp_sfsIo_read isLoaded sized read rfl,sizeInt,if_neg (by omega)]
  have amount : readAmount (a.fs.view k).size a.uio.pos a.uio.uioResid = a.uio.uioResid -
      ioExtra (a.fs.view k).size a.uio.pos a.uio.uioResid := by
    rw [readAmount,ioExtra,sizeInt]
    split <;> omega
  have less := @ioExtra_lt (a.fs.view k).size a.uio.pos a.uio.uioResid (by omega)
  exact ioRun_starts cons h isLoaded reliable read sized (by omega) (by omega) (amount ▸ first)

theorem sfsIo_whole (bound : (a.fs.view k).size ≤ 143 * 512) :
    (sfsIo k).wp a
      (fun _ t => (∃ m, t.fs = a.fs.tick m) ∧ (t.uio.uioResid = 0 ↔ Whole k a) ∧
        (Whole k a → t.uio = a.uio.moved (fun i => (a.fs.view k).content (a.uio.pos + i)) a.uio.uioResid))
      (fun _ t => (∃ m, t.fs = a.fs.tick m) ∧ ¬ Whole k a) never := by
  have driver := fun n => cons.geometry.honest.through n
  by_cases open_ : a.uio.Open (min a.uio.uioResid (fileRoom a.uio.pos))
  · have readable : Readable strict live k a :=
      ⟨cons,h,isLoaded,reliable,read,sized.space,sized.len,open_⟩
    refine wp_ends (sfsIo_reads readable sized bound) ?_ ?_
    · intro _ t reads
      have left := reads.resid sized.valid (readLength_le bound)
      have less : readLength (a.fs.view k).size a.uio.pos a.uio.uioResid ≤ a.uio.uioResid :=
        readLength_le bound
      refine ⟨reads.fs,⟨fun done => ?_,fun whole => ?_⟩,fun whole => ?_⟩
      · have all : readLength (a.fs.view k).size a.uio.pos a.uio.uioResid = a.uio.uioResid := by omega
        refine ⟨all,open_.mono ?_⟩
        unfold readLength fileRoom at all
        unfold fileRoom
        split at all <;> [omega; split at all <;> omega]
      · rw [left,whole.1,Nat.sub_self]
      · rw [reads.uio,whole.1]
    · rintro e t ⟨-,short,reads⟩
      exact ⟨reads.fs,fun whole => by have := whole.1; omega⟩
  · have closed : ¬ a.uio.Open a.uio.uioResid := fun all => open_ (all.mono (Nat.min_le_left _ _))
    refine wp_mono (wp_and (sfsIo_moves cons h isLoaded sized read) ((sfsIo_keeps (through_ioSteps k)).wp a)) ?_ ?_
      fun _ _ h => h.1
    · rintro _ t ⟨⟨ticked,n,le,moved⟩,-,through⟩
      obtain ⟨m,base,-,-,good⟩ := through driver
      rw [moved,Uio.moved_iovBase] at base
      obtain rfl : n = m := by omega
      have left : t.uio.uioResid = a.uio.uioResid - n := by
        rw [moved,Uio.moved_resid_of_le sized.valid _ le]
      refine ⟨ticked,⟨fun done => ?_,fun whole => absurd whole.2 closed⟩,fun whole => absurd whole.2 closed⟩
      exact absurd good (by rwa [show n = a.uio.uioResid by omega])
    · exact fun _ _ failed => ⟨failed.1,fun whole => closed whole.2⟩

end Request

end First

end Os161
