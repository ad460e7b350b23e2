import Os161.LoadSafe

/-! What `load_elf` puts into user memory, for a file whose `VOP_READ` meets its contract. -/
namespace Os161

open SfsFs

/-! The file -/

/-- A regular file and its `VOP_READ`, which gets what the file has of a request of at most `limit`
bytes. About requests in front of the file the contract says nothing: `refuses` tells which of them
do not succeed, and one that succeeds has asked for nothing. -/
structure RegularFile where
  view : FileView
  vopRead : Call SfsIo Unit
  ready : SfsFs → Prop
  refuses : Int → Nat → Prop
  limit : Nat
  headers : 52 ≤ limit
  bound : view.size < 2^31
  inside : ∀ {fs : SfsFs} {u : Uio}, ready fs → u.uioRw = .read → u.Sized → u.uioResid ≤ limit →
    u.Open u.uioResid → vopRead.wp ⟨fs,u⟩
      (fun _ t => ready t.fs ∧ (t.uio.uioResid = 0 ↔ u.uioResid = 0 ∨ u.pos + u.uioResid ≤ view.size) ∧
        (t.uio.uioResid = 0 → t.uio = u.moved (fun i => view.content (u.pos + i)) u.uioResid))
      (fun _ _ => False) fun _ _ => False
  front : ∀ {fs : SfsFs} {u : Uio}, ready fs → u.uioRw = .read → u.Valid → u.uioOffset < 0 →
    vopRead.wp ⟨fs,u⟩
      (fun _ t => ready t.fs ∧ t.uio = u ∧ u.uioResid = 0 ∧ ¬ refuses u.uioOffset u.uioResid)
      (fun _ _ => refuses u.uioOffset u.uioResid) fun _ _ => refuses u.uioOffset u.uioResid

/-! Segments -/

namespace Phdr

def PastEnd (f : FileView) (ph : Phdr) : Prop := 0 < ph.fileLen ∧ f.size < ph.pOffset + ph.fileLen

def Covers (ph : Phdr) (addr : Nat) : Prop := ph.pVaddr ≤ addr ∧ addr < ph.pVaddr + ph.pMemsz

/-- The bytes of the segment: those of the file, then zeros. -/
def byte (f : FileView) (ph : Phdr) (i : Nat) : UInt8 :=
  if i < ph.fileLen then f.content (ph.pOffset + i) else 0

def image (f : FileView) (ph : Phdr) (mem : Nat → UInt8) : Nat → UInt8 :=
  overwrite mem ph.pVaddr (ph.byte f) ph.pMemsz

theorem image_inside {f : FileView} {ph : Phdr} {mem : Nat → UInt8} {i : Nat} (lt : i < ph.pMemsz) :
    ph.image f mem (ph.pVaddr + i) = ph.byte f i := by
  rw [image,overwrite,if_pos (by omega),Nat.add_sub_cancel_left]

theorem image_outside {f : FileView} {ph : Phdr} {mem : Nat → UInt8} {addr : Nat}
    (outside : ¬ ph.Covers addr) : ph.image f mem addr = mem addr := by
  rw [image,overwrite]
  exact if_neg outside

theorem image_eq (f : FileView) (ph : Phdr) (mem : Nat → UInt8) :
    ph.image f mem = overwrite (overwrite mem ph.pVaddr (fun i => f.content (ph.pOffset + i)) ph.fileLen)
      (ph.pVaddr + ph.fileLen) (fun _ => 0) (ph.pMemsz - ph.fileLen) := by
  have le : ph.fileLen ≤ ph.pMemsz := Nat.min_le_right _ _
  funext addr
  simp only [image,overwrite,byte]
  split_ifs <;> first | rfl | omega

end Phdr

namespace RegularFile
variable {file : RegularFile} {s : Loader}

/-- The `off_t` of the segment is negative, and `VOP_READ` refuses it. -/
def Stuck (file : RegularFile) (ph : Phdr) : Prop :=
  i32 ph.pOffset < 0 ∧ file.refuses (i32 ph.pOffset) ph.fileLen

theorem pOffset_cases {ph : Phdr} (word : ph.pOffset < 2^32) :
    i32 ph.pOffset = ph.pOffset ∨ i32 ph.pOffset < 0 ∧ 2^31 ≤ ph.pOffset := by
  by_cases low : ph.pOffset < 2^31
  · exact .inl (i32_of_bounds (by omega) (by omega))
  · rw [i32_of_wrap (by omega) (by omega)]
    exact .inr ⟨by omega,by omega⟩

theorem vopRead_segment {fs : SfsFs} (ready : file.ready fs) {ph : Phdr} (word : ph.pOffset < 2^32)
    (small : ph.fileLen < 2^32) (within : ph.fileLen ≤ file.limit) {u : Uio} (read : u.uioRw = .read)
    (offset : u.uioOffset = i32 ph.pOffset) (resid : u.uioResid = ph.fileLen)
    (len : ph.fileLen ≤ u.iovLen) (space : u.spaceOk = true) (open_ : u.Open ph.fileLen) :
    file.vopRead.wp ⟨fs,u⟩
      (fun _ t => file.ready t.fs ∧ ¬ file.Stuck ph ∧ (t.uio.uioResid = 0 ↔ ¬ ph.PastEnd file.view) ∧
        (t.uio.uioResid = 0 → t.uio = u.moved (fun i => file.view.content (ph.pOffset + i)) ph.fileLen))
      (fun _ _ => file.Stuck ph) fun _ _ => file.Stuck ph := by
  have low := i32_low ph.pOffset
  have high := i32_high ph.pOffset
  have valid : u.Valid := ⟨by omega,by omega,by omega⟩
  obtain exact_ | ⟨front,-⟩ := pOffset_cases word
  · have pos : u.pos = ph.pOffset := by
      rw [Uio.pos,offset,exact_,Int.toNat_natCast]
    have sized : u.Sized := ⟨by omega,by omega,by omega,by omega,space⟩
    refine wp_total (file.inside ready read sized (by omega) (resid ▸ open_)) ?_
    rintro _ t ⟨ready',done,moved⟩
    rw [pos,resid] at done moved
    refine ⟨ready',fun stuck => ?_,?_,moved⟩
    · have := stuck.1
      omega
    · rw [done,Phdr.PastEnd]
      omega
  · rw [← offset] at front
    have stuck : file.refuses u.uioOffset u.uioResid → file.Stuck ph := by
      rw [offset,resid]
      exact fun refused => ⟨offset ▸ front,refused⟩
    refine wp_mono (file.front ready read valid front) ?_ (fun _ _ => stuck) fun _ _ => stuck
    rintro _ t ⟨ready',same,none_,taken⟩
    rw [resid] at none_
    refine ⟨ready',fun refused => ?_,?_,fun _ => ?_⟩
    · rw [offset,resid] at taken
      exact taken refused.2
    · rw [same,resid,Phdr.PastEnd]
      omega
    · rw [same,none_,valid.moved_zero]

section Segment
variable (prepared : s.as.Prepared) {tlb : Nat → Bool}
include prepared

theorem loadZeros_fills {fill : Nat} {u : Uio} (filling : Filling fill u) (small : fill < 2^32)
    (reaches : ∀ i < fill, s.as.Reaches tlb (u.iovBase + i)) :
    (loadZeros tlb fill u).wp s
      (fun _ t => t.fs = s.fs ∧ t.as = s.as ∧ t.mem = overwrite s.mem u.iovBase (fun _ => 0) fill)
      never never := by
  rw [loadZeros,wp_ite]
  refine ⟨fun some_ => ?_,fun none_ => ?_⟩
  · have resid : (u.uioResid + fill) % 2^32 = fill := by
      rw [filling.resid,Nat.zero_add,Nat.mod_eq_of_lt small]
    rw [resid,wp_bind]
    refine wp_user_complete prepared (reaches 0 some_).1 ?_
    rw [SfsIo.wp_onUio]
    have open_ : ({ u with uioResid := fill, mem := s.mem, userOk := s.userOk tlb } : Uio).Open fill :=
      .inr fun i lt => (userOk_iff prepared).mpr (reaches i lt)
    refine wp_ends (Uio.uiomovezeros_spec ⟨filling.valid.low,filling.valid.high,small⟩
      filling.space filling.read (Nat.le_refl _) filling.len) ?_ (fun _ _ shut => shut.2.1 open_)
    rintro _ t ⟨-,rfl⟩
    refine ⟨rfl,rfl,?_⟩
    rw [Uio.moved,show ({ u with uioResid := fill,mem := s.mem,userOk := s.userOk tlb } : Uio).uioRw = _
      from filling.read]
  · obtain rfl : fill = 0 := by omega
    exact ⟨rfl,rfl,(overwrite_none _ _ _).symm⟩

theorem segmentRead_file (ready : file.ready s.fs) {ph : Phdr} (word : ph.pOffset < 2^32)
    (small : ph.pMemsz < 2^32) (within : ph.pMemsz ≤ file.limit)
    (reaches : ∀ i < ph.pMemsz, s.as.Reaches tlb (ph.pVaddr + i)) (isExecutable : Bool) :
    (Load.user tlb file.vopRead
        (segmentUio (i32 ph.pOffset) ph.pVaddr ph.pMemsz ph.fileLen isExecutable)).wp s
      (fun u t => file.ready t.fs ∧ t.as = s.as ∧ ¬ file.Stuck ph ∧
        (u.uioResid = 0 ↔ ¬ ph.PastEnd file.view) ∧
        (u.uioResid = 0 → Filling (ph.pMemsz - ph.fileLen) u ∧ u.iovBase = ph.pVaddr + ph.fileLen ∧
          t.mem = overwrite s.mem ph.pVaddr (fun i => file.view.content (ph.pOffset + i)) ph.fileLen))
      (fun e _ => file.Stuck ph ∧ e ≠ .enoexec) fun _ _ => file.Stuck ph := by
  have le : ph.fileLen ≤ ph.pMemsz := Nat.min_le_right _ _
  have user := segmentUio_user (i32 ph.pOffset) ph.pVaddr ph.pMemsz ph.fileLen isExecutable
  generalize made : segmentUio (i32 ph.pOffset) ph.pVaddr ph.pMemsz ph.fileLen isExecutable = u at user
  have base : u.iovBase = ph.pVaddr := by rw [← made]; rfl
  have iovLen : u.iovLen = ph.pMemsz := by rw [← made]; rfl
  have offset : u.uioOffset = i32 ph.pOffset := by rw [← made]; rfl
  have resid : u.uioResid = ph.fileLen := by rw [← made]; rfl
  have read : u.uioRw = .read := by rw [← made]; rfl
  have spaceOk : u.spaceOk = true := by rw [← made]; rfl
  clear made
  -- the uio that the copies work on
  have run := fun (mapped : Nat → Bool) (open_ : ∀ i < ph.fileLen, mapped (u.iovBase + i) = true) =>
    vopRead_segment (u := { u with mem := s.mem, userOk := mapped }) ready word (by omega) (by omega)
      read offset resid (iovLen ▸ le) spaceOk (.inr open_)
  have filled : ∀ mapped : Nat → Bool, Filling (ph.pMemsz - ph.fileLen)
      (({ u with mem := s.mem, userOk := mapped } : Uio).moved
        (fun i => file.view.content (ph.pOffset + i)) ph.fileLen) := by
    intro mapped
    have valid : ({ u with mem := s.mem, userOk := mapped } : Uio).Valid :=
      ⟨offset ▸ i32_low _,offset ▸ i32_high _,by simp only; omega⟩
    have fill := valid.filling spaceOk user read fun i => file.view.content (ph.pOffset + i)
    simpa only [iovLen,resid] using fill
  by_cases complete : s.as.Complete
  · refine wp_user_complete prepared complete ?_
    refine wp_ends (run _ fun i lt => ?_) ?_ ?_
    · rw [base]
      exact (userOk_iff prepared).mpr (reaches i (by omega))
    · rintro _ t ⟨ready',free,done,moved⟩
      refine ⟨ready',rfl,free,done,fun all => ?_⟩
      rw [moved all]
      refine ⟨filled _,?_,?_⟩
      · rw [Uio.moved_iovBase,← base]
      · rw [Uio.moved,show ({ u with mem := s.mem,userOk := s.userOk tlb } : Uio).uioRw = _ from read]
        dsimp only
        rw [base]
    · exact fun _ _ stuck => ⟨stuck,LoadErr.noConfusion⟩
  · -- only a segment without memory can be loaded then
    have none_ : ph.pMemsz = 0 := by
      by_contra some_
      exact complete (reaches 0 (by omega)).1
    have empty : ph.fileLen = 0 := by omega
    refine wp_user_incomplete prepared complete ?_
    refine wp_mono (run _ fun i lt => by omega) ?_ ?_ ?_
    · rintro _ t ⟨ready',free,done,moved⟩
      have same := moved (done.mpr fun past => by have := past.1; omega)
      rw [if_pos (by rw [same,Uio.moved_iovBase,empty,Nat.add_zero])]
      refine ⟨ready',rfl,free,done,fun _ => ?_⟩
      rw [same]
      refine ⟨filled _,?_,?_⟩
      · rw [Uio.moved_iovBase,← base]
      · rw [Uio.moved,show ({ u with mem := s.mem,userOk := _ } : Uio).uioRw = _ from read]
        dsimp only
        rw [base]
    · intro e t stuck
      split
      · exact ⟨stuck,LoadErr.noConfusion⟩
      · exact fun _ => stuck
    · intro p t stuck
      split
      · exact stuck
      · exact fun _ => stuck

theorem loadContentsOf_spec (tlb : Nat → Bool) (ready : file.ready s.fs) {ph : Phdr} (word : ph.pOffset < 2^32)
    (small : ph.pMemsz < 2^32) (within : ph.pMemsz ≤ file.limit)
    (reaches : ∀ i < ph.pMemsz, s.as.Reaches tlb (ph.pVaddr + i)) :
    (loadContentsOf file.vopRead tlb ph).wp s
      (fun _ t => file.ready t.fs ∧ t.as = s.as ∧ ¬ file.Stuck ph ∧ ¬ ph.PastEnd file.view ∧
        t.mem = ph.image file.view s.mem)
      (fun e _ => file.Stuck ph ∧ e ≠ .enoexec ∨ ¬ file.Stuck ph ∧ ph.PastEnd file.view ∧ e = .enoexec)
      fun _ _ => file.Stuck ph := by
  have le : ph.fileLen ≤ ph.pMemsz := Nat.min_le_right _ _
  have len : (if ph.pFilesz > ph.pMemsz then ph.pMemsz else ph.pFilesz) = ph.fileLen := by
    unfold Phdr.fileLen
    split <;> omega
  rw [loadContentsOf,loadSegmentOf]
  simp only [len]
  rw [wp_bind]
  refine wp_ends (segmentRead_file prepared ready word small within reaches _) ?_
    (fun _ _ => .inl)
  rintro u t ⟨ready',same,free,done,filled⟩
  rw [wp_ite]
  refine ⟨fun short => .inr ⟨free,not_not.mp (mt done.mpr short),rfl⟩,fun all => ?_⟩
  obtain ⟨filling,base,mem⟩ := filled (not_not.mp all)
  refine wp_total (loadZeros_fills (s := t) (same ▸ prepared) filling (by omega) fun i lt => ?_) ?_
  · rw [same,base,Nat.add_assoc]
    exact reaches _ (by omega)
  · rintro _ v ⟨fs,as,zeros⟩
    refine ⟨fs ▸ ready',as.trans same,free,done.mp (not_not.mp all),?_⟩
    rw [zeros,base,mem,← Phdr.image_eq]

end Segment

/-! The headers -/

theorem loadHeaderOf_spec (ready : file.ready s.fs) {len : Nat} (some_ : 0 < len) (small : len ≤ 52)
    {pos : Int} (low : 0 ≤ pos) (inFile : pos + len ≤ file.view.size) :
    (loadHeaderOf file.vopRead len pos).wp s
      (fun b t => (∃ fs, file.ready fs ∧ t = { s with fs }) ∧
        ∀ i < len, b i = file.view.content (pos.toNat + i)) never never := by
  have bound := file.bound
  have headers := file.headers
  have sized : (Uio.mkKuio (fun _ => 0) len pos .read).Sized :=
    ⟨low,by simp only [Uio.mkKuio]; omega,by simp only [Uio.mkKuio]; omega,Nat.le_refl _,rfl⟩
  rw [loadHeaderOf,wp_bind,Load.wp_kernel]
  refine wp_total (file.inside ready rfl sized (by simp only [Uio.mkKuio]; omega) (.inl rfl)) ?_
  rintro _ t ⟨ready',done,moved⟩
  have all : t.uio.uioResid = 0 := done.mpr (.inr (by simp only [Uio.pos,Uio.mkKuio]; omega))
  rw [wp_ite]
  refine ⟨fun short => absurd all short,fun _ => ⟨⟨t.fs,ready',rfl⟩,fun i lt => ?_⟩⟩
  rw [moved all]
  have inside : 0 ≤ i ∧ i < 0 + len := by omega
  simp only [Uio.moved,Uio.mkKuio,overwrite,Uio.pos,inside,and_self,if_true,Nat.sub_zero]

def phnum (file : RegularFile) : Nat := file.view.ehdr.ePhnum

def Knows (file : RegularFile) (i : Nat) : Prop :=
  0 ≤ file.view.ehdr.phdrOffset i ∧ file.view.ehdr.phdrOffset i + 32 ≤ file.view.size ∧
    ((file.view.phdr i).Skipped ∨ (file.view.phdr i).Loads)

theorem wp_loadTurnOf {i : Nat} {work : Phdr → Load Unit} {ok : Unit → Loader → Prop}
    {err : LoadErr → Loader → Prop} {halt : LoadPanic → Loader → Prop} (ready : file.ready s.fs)
    (knows : file.Knows i)
    (skip : ¬ (file.view.phdr i).Loads → ∀ fs, file.ready fs → ok () { s with fs })
    (segment : (file.view.phdr i).Loads → ∀ fs, file.ready fs →
      (work (file.view.phdr i)).wp { s with fs } ok err halt) :
    (loadTurnOf file.vopRead file.view.ehdr work i).wp s ok err halt := by
  obtain ⟨low,inFile,kind⟩ := knows
  rw [loadTurnOf,wp_bind]
  refine wp_total (loadHeaderOf_spec ready (by decide) (by decide) low inFile) ?_
  rintro b t ⟨⟨fs,ready',rfl⟩,bytes⟩
  rw [Phdr.ofBytes_congr bytes,← FileView.phdr,wp_ite]
  refine ⟨fun skipped => ?_,fun kept => ?_⟩
  · exact skip (fun loads => loads.not_skipped skipped) fs ready'
  · have loads := kind.resolve_left kept
    rw [wp_ite]
    exact ⟨fun _ => segment loads fs ready',fun other => absurd loads other⟩

theorem loadRegionsOf_spec (ready : file.ready s.fs) (fresh : s.as = asCreate)
    (knows : ∀ i < file.phnum, file.Knows i) {as : Addrspace}
    (space : file.view.space file.phnum = some as) :
    (loop (fun i _ => loadTurnOf file.vopRead file.view.ehdr loadRegion i) file.phnum 0 ()).wp s
      (fun _ t => ∃ fs, file.ready fs ∧ t = { s with fs, as }) never never := by
  refine wp_imp (wp_loop_zero (fun i _ (t : Loader) => ∃ fs as, file.ready fs ∧
    file.view.space i = some as ∧ t = { s with fs, as }) _ _ ?_ ?_) ?_
  · exact ⟨s.fs,s.as,ready,by rw [fresh]; rfl,rfl⟩
  · rintro i - _ lt ⟨fs,now,ready',here,rfl⟩
    have step : (file.view.space (i + 1)).isSome :=
      FileView.space_before lt (Option.isSome_of_eq_some space)
    rw [FileView.space,here] at step
    refine wp_loadTurnOf ready' (knows i lt) ?_ ?_
    · intro other fs' ready''
      refine ⟨fs',now,ready'',?_,rfl⟩
      simp [FileView.space,here,other]
    · intro loads fs' ready''
      refine wp_loadRegion (fun next defined => ?_) fun full => ?_
      · refine ⟨fs',next,ready'',?_,rfl⟩
        simpa [FileView.space,here,loads] using defined
      · simp only at full
        simp [loads,full] at step
  · rintro _ t ⟨fs,now,ready',here,rfl⟩
    obtain rfl := Option.some.inj (space.symm.trans here)
    exact ⟨fs,ready',rfl⟩

/-! The whole program -/

def Past (file : RegularFile) (i : Nat) : Prop :=
  (file.view.phdr i).Loads ∧ (file.view.phdr i).PastEnd file.view

/-- The segments lie in mapped and disjoint ranges of user memory: the first loop and
`as_prepare_load` have set them up. -/
structure Mapped (file : RegularFile) (ram : Ram) (tlb : Nat → Nat → Bool) (as : Addrspace) : Prop where
  header : 52 ≤ file.view.size
  runs : file.view.ehdr.Runs
  knows : ∀ i < file.phnum, file.Knows i
  space : file.view.space file.phnum = some as
  backed : as.Backed ram
  within : ∀ i < file.phnum, (file.view.phdr i).Loads → (file.view.phdr i).pMemsz ≤ file.limit
  reaches : ∀ i < file.phnum, (file.view.phdr i).Loads → ∀ j < (file.view.phdr i).pMemsz,
    (as.prepared ram).Reaches (tlb i) ((file.view.phdr i).pVaddr + j)
  disjoint : ∀ i < file.phnum, ∀ j < file.phnum, i ≠ j → (file.view.phdr i).Loads →
    (file.view.phdr j).Loads → ∀ addr, (file.view.phdr i).Covers addr → ¬ (file.view.phdr j).Covers addr

structure Filled (file : RegularFile) (old : Nat → UInt8) (n : Nat) (new : Nat → UInt8) : Prop where
  segments : ∀ i < n, (file.view.phdr i).Loads → ∀ j < (file.view.phdr i).pMemsz,
    new ((file.view.phdr i).pVaddr + j) = (file.view.phdr i).byte file.view j
  others : ∀ addr, (∀ i < n, (file.view.phdr i).Loads → ¬ (file.view.phdr i).Covers addr) →
    new addr = old addr

/-- `load_elf` that succeeds has loaded every segment, and it fails with `ENOEXEC` if the file is too
short for one. -/
def LoadsRight (file : RegularFile) (tlb : Nat → Nat → Bool) (s : Loader) : Prop :=
  (loadElfOf file.vopRead tlb).wp s
    (fun entry t => entry = file.view.ehdr.eEntry ∧ file.Filled s.mem file.phnum t.mem ∧
      ¬ ∃ i < file.phnum, file.Past i)
    (fun e _ => (∃ i < file.phnum, file.Past i) → e = .enoexec) fun _ _ => ¬ ∃ i < file.phnum, file.Past i

/-- Up to the first segment that the file is too short for, `VOP_READ` refuses none because its
`off_t` is negative. -/
def Orderly (file : RegularFile) : Prop :=
  ∀ i < file.phnum, file.Past i → (∀ j < i, ¬ file.Past j) →
    ∀ j ≤ i, (file.view.phdr j).Loads → ¬ file.Stuck (file.view.phdr j)

theorem Filled.skip {old new : Nat → UInt8} {n : Nat} (filled : file.Filled old n new)
    (other : ¬ (file.view.phdr n).Loads) : file.Filled old (n + 1) new where
  segments i le loads := by
    obtain rfl | lt := Nat.eq_or_lt_of_le (Nat.le_of_lt_succ le)
    · exact absurd loads other
    · exact filled.segments i lt loads
  others addr outside := filled.others addr fun i lt => outside i (by omega)

theorem Filled.load {old new : Nat → UInt8} {n : Nat} (filled : file.Filled old n new)
    (loads : (file.view.phdr n).Loads)
    (apart : ∀ i < n, (file.view.phdr i).Loads → ∀ addr, (file.view.phdr i).Covers addr →
      ¬ (file.view.phdr n).Covers addr) :
    file.Filled old (n + 1) ((file.view.phdr n).image file.view new) where
  segments i le loads' j inside := by
    obtain rfl | lt := Nat.eq_or_lt_of_le (Nat.le_of_lt_succ le)
    · exact Phdr.image_inside inside
    · rw [Phdr.image_outside (apart i lt loads' _ ⟨by omega,by omega⟩)]
      exact filled.segments i lt loads' j inside
  others addr outside := by
    rw [Phdr.image_outside (outside n (by omega) loads)]
    exact filled.others addr fun i lt => outside i (by omega)

section Order
variable {i : Nat} (before : ∀ j < i, ¬ file.Past j)
include before

theorem orderly_stuck (loads : (file.view.phdr i).Loads) (stuck : file.Stuck (file.view.phdr i)) :
    file.Orderly ↔ ¬ ∃ j < file.phnum, file.Past j := by
  classical
  refine ⟨fun orderly some_ => ?_,fun none_ j lt past => absurd ⟨j,lt,past⟩ none_⟩
  obtain ⟨lt,past⟩ := Nat.find_spec some_
  have first : ∀ j < Nat.find some_, ¬ file.Past j := fun j less past' =>
    Nat.find_min some_ less ⟨by omega,past'⟩
  exact orderly _ lt past first i (Nat.not_lt.mp fun less => before _ less past) loads stuck

theorem orderly_past (free : ∀ j ≤ i, (file.view.phdr j).Loads → ¬ file.Stuck (file.view.phdr j))
    (past : file.Past i) : file.Orderly := by
  intro j _ past' first
  obtain rfl : j = i := by
    apply Nat.le_antisymm
    · exact Nat.not_lt.mp fun less => first i less past
    · exact Nat.not_lt.mp fun less => before j less past'
  exact free

end Order

theorem loadAllOf_spec {tlb : Nat → Nat → Bool} {ram : Ram} {as : Addrspace}
    (mapped : file.Mapped ram tlb as) (prepared : (as.prepared ram).Prepared) (ready : file.ready s.fs)
    (space : s.as = as.prepared ram) :
    (loop (fun i _ => loadTurnOf file.vopRead file.view.ehdr (loadContentsOf file.vopRead (tlb i)) i)
        file.phnum 0 ()).wp s
      (fun _ t => file.Filled s.mem file.phnum t.mem ∧ ∀ i < file.phnum, ¬ file.Past i)
      (fun e _ => ((∃ i < file.phnum, file.Past i) → e = .enoexec) ↔ file.Orderly)
      fun _ _ => (¬ ∃ i < file.phnum, file.Past i) ↔ file.Orderly := by
  refine wp_imp (wp_loop_zero (fun i _ (t : Loader) => file.ready t.fs ∧ t.as = s.as ∧
    file.Filled s.mem i t.mem ∧ ∀ j < i, ¬ file.Past j ∧
      ((file.view.phdr j).Loads → ¬ file.Stuck (file.view.phdr j))) _ _ ?_ ?_)
    (fun _ _ all => ⟨all.2.2.1,fun i lt => (all.2.2.2 i lt).1⟩)
  · exact ⟨ready,rfl,⟨fun j lt => absurd lt (Nat.not_lt_zero _),fun _ _ => rfl⟩,
      fun j lt => absurd lt (Nat.not_lt_zero _)⟩
  · rintro i - t lt ⟨ready',same,filled,before⟩
    have none_ : ∀ j < i, ¬ file.Past j := fun j less => (before j less).1
    refine wp_loadTurnOf ready' (mapped.knows i lt) ?_ ?_
    · intro other fs ready''
      refine ⟨ready'',same,filled.skip other,fun j le => ?_⟩
      obtain rfl | less := Nat.eq_or_lt_of_le (Nat.le_of_lt_succ le)
      · exact ⟨fun past => other past.1,fun loads => absurd loads other⟩
      · exact before j less
    · intro loads fs ready''
      have here : t.as = as.prepared ram := same.trans space
      refine wp_mono (loadContentsOf_spec (s := { t with fs }) (here ▸ prepared) (tlb i) ready''
        (u32At_lt _ _) (u32At_lt _ _) (mapped.within i lt loads)
        (fun j inside => here ▸ mapped.reaches i lt loads j inside)) ?_ ?_ ?_
      · rintro _ v ⟨ready3,as3,free,inFile,mem⟩
        refine ⟨ready3,as3.trans same,?_,fun j le => ?_⟩
        · rw [mem]
          exact filled.load loads fun j less loads' =>
            mapped.disjoint j (by omega) i lt (by omega) loads' loads
        · obtain rfl | less := Nat.eq_or_lt_of_le (Nat.le_of_lt_succ le)
          · exact ⟨fun past => inFile past.2,fun _ => free⟩
          · exact before j less
      · rintro e v (⟨stuck,other⟩ | ⟨free,past,rfl⟩)
        · rw [orderly_stuck none_ loads stuck]
          exact ⟨fun right some_ => other (right some_),fun none' some_ => absurd some_ none'⟩
        · refine iff_of_true (fun _ => rfl) (orderly_past none_ (fun j le => ?_) ⟨loads,past⟩)
          obtain rfl | less := Nat.eq_or_lt_of_le le
          · exact fun _ => free
          · exact (before j less).2
      · intro p v stuck
        exact (orderly_stuck none_ loads stuck).symm

theorem loadElfOf_spec {tlb : Nat → Nat → Bool} {as : Addrspace} (ready : file.ready s.fs)
    (paged : s.ram.ram.Paged) (fresh : s.as = asCreate) (mapped : file.Mapped s.ram.ram tlb as) :
    (loadElfOf file.vopRead tlb).wp s
      (fun entry t => entry = file.view.ehdr.eEntry ∧ file.Filled s.mem file.phnum t.mem ∧
        ¬ ∃ i < file.phnum, file.Past i)
      (fun e _ => ((∃ i < file.phnum, file.Past i) → e = .enoexec) ↔ file.Orderly)
      fun _ _ => (¬ ∃ i < file.phnum, file.Past i) ↔ file.Orderly := by
  have bare := FileView.space_bare mapped.space
  rw [loadElfOf,wp_bind]
  refine wp_total (loadHeaderOf_spec ready (by decide) (by decide) (Int.le_refl 0)
    (by have := mapped.header; omega)) ?_
  rintro b t ⟨⟨fs,ready',rfl⟩,bytes⟩
  have header : Ehdr.ofBytes b = file.view.ehdr := Ehdr.ofBytes_congr fun i lt => by
    rw [bytes i lt,Int.toNat_zero,Nat.zero_add]
  rw [header,wp_ite]
  refine ⟨fun _ => ?_,fun other => absurd mapped.runs other⟩
  rw [wp_bind]
  refine wp_total (loadRegionsOf_spec (s := { s with fs }) ready' fresh mapped.knows mapped.space) ?_
  rintro _ t ⟨fs2,ready2,rfl⟩
  rw [wp_bind,Load.wp_onSpace]
  refine wp_safe (asPrepareLoad_spec bare) ?_ (fun _ _ missing => absurd mapped.backed missing)
  rintro _ ram ⟨rfl,backed⟩
  rw [wp_bind]
  refine wp_imp (loadAllOf_spec mapped (bare.prepared paged backed) ready2 rfl) ?_
  rintro _ v ⟨filled,none_⟩
  refine ⟨rfl,filled,?_⟩
  rintro ⟨i,lt,past⟩
  exact none_ i lt past

/-- The segments are loaded right, or `ENOEXEC` tells that the file is too short, unless a negative
`off_t` comes in between. -/
theorem load_elf_bytes_iff {tlb : Nat → Nat → Bool} {as : Addrspace} (ready : file.ready s.fs)
    (paged : s.ram.ram.Paged) (fresh : s.as = asCreate) (mapped : file.Mapped s.ram.ram tlb as) :
    file.LoadsRight tlb s ↔ file.Orderly := by
  refine wp_iff (wp_mono (loadElfOf_spec ready paged fresh mapped) ?_ (fun _ _ h => h)
    fun _ _ h => h)
  rintro entry t ⟨same,filled,none_⟩
  exact iff_of_true ⟨same,filled,none_⟩ fun i lt past => absurd ⟨i,lt,past⟩ none_

end RegularFile

/-! SFS -/

section Sfs
variable {strict : Prop} {k : Nat} {fs now : SfsFs} {u : Uio} (loadable : Loadable strict k fs)
include loadable

theorem Loadable.reads_inside (ticked : ∃ m, now = fs.tick m) (read : u.uioRw = .read) (sized : u.Sized)
    (limit : u.uioResid ≤ 2^31 - 143 * 512) (open_ : u.Open u.uioResid) :
    (vopRead k).wp ⟨now,u⟩
      (fun _ t => (∃ m, t.fs = fs.tick m) ∧
        (t.uio.uioResid = 0 ↔ u.uioResid = 0 ∨ u.pos + u.uioResid ≤ (fs.view k).size) ∧
        (t.uio.uioResid = 0 → t.uio = u.moved (fun i => (fs.view k).content (u.pos + i)) u.uioResid))
      never never := by
  obtain ⟨m,rfl⟩ := ticked
  have at_ := loadable.tick m
  have bound := loadable.bound
  have readable : Readable strict (fs.tick m).Live k ⟨fs.tick m,u⟩ :=
    ⟨at_.inv.consistent,.of_loaded at_.loaded,at_.loaded,at_.reliable,read,sized.space,sized.len,
      open_.mono (Nat.min_le_left _ _)⟩
  rw [wp_vopRead at_.inv at_.loaded at_.regular read]
  refine wp_ends (sfsIo_reads readable sized at_.bound) ?_ ?_
  · rintro _ t reads
    have left : t.uio.uioResid = u.uioResid - readLength (fs.view k).size u.pos u.uioResid :=
      reads.resid sized.valid (readLength_le at_.bound)
    have le : readLength (fs.view k).size u.pos u.uioResid ≤ u.uioResid := readLength_le bound
    obtain ⟨n,ticked⟩ := reads.fs
    refine ⟨⟨m + n,by rw [ticked,tick_tick]⟩,?_,fun all => ?_⟩
    · rw [left]
      unfold readLength at le ⊢
      split_ifs at le ⊢ <;> omega
    · have whole : readLength (fs.view k).size u.pos u.uioResid = u.uioResid := by omega
      exact reads.uio.trans (congrArg (u.moved _) whole)
  · rintro e t ⟨⟨-,inFile,far⟩,-⟩
    have inFile' : u.pos < (fs.view k).size := inFile
    simp only at far
    omega

theorem Loadable.reads_front (ticked : ∃ m, now = fs.tick m) (read : u.uioRw = .read) (valid : u.Valid)
    (front : u.uioOffset < 0) :
    (vopRead k).wp ⟨now,u⟩
      (fun _ t => (∃ m, t.fs = fs.tick m) ∧ t.uio = u ∧ u.uioResid = 0 ∧
        ¬ ¬ (u.uioResid = 0 ∧ (-u.uioOffset).toNat % 512 = 0))
      (fun _ _ => ¬ (u.uioResid = 0 ∧ (-u.uioOffset).toNat % 512 = 0))
      fun _ _ => ¬ (u.uioResid = 0 ∧ (-u.uioOffset).toNat % 512 = 0) := by
  obtain ⟨m,rfl⟩ := ticked
  have at_ := loadable.tick m
  rw [wp_vopRead at_.inv at_.loaded at_.regular read]
  refine wp_mono (sfsIo_before at_ read valid front) ?_ ?_ ?_
  · rintro _ t ⟨safe,none_,rfl⟩
    refine ⟨⟨m,rfl⟩,rfl,none_,not_not_intro ⟨none_,?_⟩⟩
    by_contra unaligned
    exact safe ⟨front,by unfold FrontSafe; omega⟩
  · rintro e t ⟨-,some_,-⟩ ⟨none_,-⟩
    exact some_ none_
  · rintro p t harmful ⟨-,aligned⟩
    exact harmful.2 (.inl aligned)

/-- A regular file of SFS on a device that works. -/
def Loadable.file : RegularFile where
  view := fs.view k
  vopRead := vopRead k
  ready now := ∃ m, now = fs.tick m
  refuses offset len := ¬ (len = 0 ∧ (-offset).toNat % 512 = 0)
  limit := 2^31 - 143 * 512
  headers := by decide
  bound := Nat.lt_of_le_of_lt loadable.bound (by decide)
  inside := loadable.reads_inside
  front := loadable.reads_front

end Sfs

def elfPart (offset vaddr : List UInt8) : List UInt8 :=
  [0,0,0,1] ++ offset ++ vaddr ++ [0,0,0,0,0,0,0,16,0,0,0,24,0,0,0,7,0,0,0x10,0]

def twoParts (offset : List UInt8) : List UInt8 :=
  elfHeader [0,0,0,52] 2 ++ elfPart offset [0,0x40,0,0] ++ elfPart [0,0,0,16] [0x10,0,0,0]

def inFileParts : List UInt8 := twoParts [0,0,0,52]

def farParts : List UInt8 := twoParts [0x80,0,0,0]

theorem inFileParts_loadable : Loadable True 3 (loadingFile inFileParts).fs :=
  stored_loadable (by decide) (by decide +kernel) (by decide +kernel)

theorem farParts_loadable : Loadable True 3 (loadingFile farParts).fs :=
  stored_loadable (by decide) (by decide +kernel) (by decide +kernel)

def partsSpace : Addrspace :=
  { asCreate with asVbase1 := 0x400000, asNpages1 := 1, bytes1 := 24
                  asVbase2 := 0x10000000, asNpages2 := 1, bytes2 := 24 }

deriving instance DecidableEq for Addrspace

instance (file : RegularFile) (i : Nat) : Decidable (file.Knows i) :=
  inferInstanceAs (Decidable (_ ∧ _ ∧ (_ ∨ _)))

instance (as : Addrspace) (tlb : Nat → Bool) (addr : Nat) : Decidable (as.Reaches tlb addr) :=
  inferInstanceAs (Decidable (_ ∧ _ ∧ _ ∧ _))

theorem parts_mapped {bytes : List UInt8} (loadable : Loadable True 3 (loadingFile bytes).fs)
    (header : 52 ≤ loadable.file.view.size) (runs : loadable.file.view.ehdr.Runs)
    (count : loadable.file.phnum = 2) (knows : ∀ i < 2, loadable.file.Knows i)
    (space : loadable.file.view.space 2 = some partsSpace)
    (vaddr : ∀ i < 2, (loadable.file.view.phdr i).pVaddr = if i = 0 then 0x400000 else 0x10000000)
    (memsz : ∀ i < 2, (loadable.file.view.phdr i).pMemsz = 24) :
    loadable.file.Mapped halfMegabyte (fun _ _ => true) partsSpace where
  header := header
  runs := runs
  knows := count ▸ knows
  space := count ▸ space
  backed := ⟨by decide +kernel,by decide +kernel,by decide +kernel⟩
  within i lt _ := by
    rw [memsz i (count ▸ lt)]
    exact (by decide : 24 ≤ 2^31 - 143 * 512)
  reaches i lt _ j inside := by
    rw [memsz i (count ▸ lt)] at inside
    rw [vaddr i (count ▸ lt)]
    have first : ∀ j < 24, (partsSpace.prepared halfMegabyte).Reaches (fun _ => true) (0x400000 + j) := by
      decide +kernel
    have second : ∀ j < 24, (partsSpace.prepared halfMegabyte).Reaches (fun _ => true) (0x10000000 + j) := by
      decide +kernel
    split
    · exact first j inside
    · exact second j inside
  disjoint i lti j ltj apart _ _ addr one two := by
    rw [count] at lti ltj
    unfold Phdr.Covers at one two
    rw [vaddr i lti,memsz i lti] at one
    rw [vaddr j ltj,memsz j ltj] at two
    split at one <;> split at two <;> omega

theorem inFileParts_mapped :
    inFileParts_loadable.file.Mapped halfMegabyte (fun _ _ => true) partsSpace :=
  parts_mapped _ (by decide +kernel) (by decide +kernel) (by decide +kernel) (by decide +kernel)
    (by decide +kernel) (by decide +kernel) (by decide +kernel)

theorem farParts_mapped : farParts_loadable.file.Mapped halfMegabyte (fun _ _ => true) partsSpace :=
  parts_mapped _ (by decide +kernel) (by decide +kernel) (by decide +kernel) (by decide +kernel)
    (by decide +kernel) (by decide +kernel) (by decide +kernel)

/-- Both segments are in the file, and they are loaded. -/
theorem load_elf_bytes_inFileParts :
    inFileParts_loadable.file.LoadsRight (fun _ _ => true) (loadingFile inFileParts) := by
  have count : inFileParts_loadable.file.phnum = 2 := by decide +kernel
  have inFile : ∀ i < 2, (inFileParts_loadable.file.view.phdr i).pOffset +
      (inFileParts_loadable.file.view.phdr i).fileLen ≤ inFileParts_loadable.file.view.size := by
    decide +kernel
  have ready : inFileParts_loadable.file.ready (loadingFile inFileParts).fs := ⟨0,(tick_zero _).symm⟩
  refine (RegularFile.load_elf_bytes_iff ready halfMegabyte_paged rfl inFileParts_mapped).mpr
    fun i lt past => ?_
  have := inFile i (count ▸ lt)
  have := past.2.2
  omega

/-- The file has no byte `2^31`, but the result is not `ENOEXEC`: `VOP_READ` is asked for bytes in
front of the file. -/
theorem load_elf_bytes_farParts :
    farParts_loadable.file.ready (loadingFile farParts).fs ∧ (loadingFile farParts).ram.ram.Paged ∧
      (loadingFile farParts).as = asCreate ∧
      farParts_loadable.file.Mapped (loadingFile farParts).ram.ram (fun _ _ => true) partsSpace ∧
      ¬ farParts_loadable.file.LoadsRight (fun _ _ => true) (loadingFile farParts) := by
  have ready : farParts_loadable.file.ready (loadingFile farParts).fs := ⟨0,(tick_zero _).symm⟩
  refine ⟨ready,halfMegabyte_paged,rfl,farParts_mapped,?_⟩
  have some_ : 0 < farParts_loadable.file.phnum := by decide +kernel
  have loads : (farParts_loadable.file.view.phdr 0).Loads := by decide +kernel
  have past : farParts_loadable.file.Past 0 := ⟨loads,by decide +kernel,by decide +kernel⟩
  have stuck : farParts_loadable.file.Stuck (farParts_loadable.file.view.phdr 0) := by
    refine ⟨by decide +kernel,?_⟩
    rintro ⟨none_,-⟩
    exact absurd none_ (by decide +kernel)
  have mixed : ¬ farParts_loadable.file.Orderly := fun orderly =>
    orderly 0 some_ past (fun j lt => absurd lt (Nat.not_lt_zero j)) 0 (Nat.le_refl 0) loads stuck
  refine not_wp_of_wp (RegularFile.loadElfOf_spec ready halfMegabyte_paged rfl farParts_mapped) ?_ ?_ ?_
  · exact fun _ _ done => absurd ⟨0,some_,past⟩ done.2.2
  · exact fun _ _ decides right => mixed (decides.mp right)
  · exact fun _ _ decides right => mixed (decides.mp right)

end Os161
