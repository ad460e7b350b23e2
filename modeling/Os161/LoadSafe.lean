import Os161.LoadElf

/-! Which executables `load_elf` survives. -/
namespace Os161

open SfsFs

variable {b c : Nat → UInt8} {n : Nat}

theorem u16At_congr {i : Nat} (same : ∀ j < n, b j = c j) (lt : i + 1 < n) :
    u16At b i = u16At c i := by
  rw [u16At,u16At,same i (by omega),same (i + 1) lt]

theorem u32At_congr {i : Nat} (same : ∀ j < n, b j = c j) (lt : i + 3 < n) :
    u32At b i = u32At c i := by
  rw [u32At,u32At,u16At_congr same (by omega),u16At_congr same (by omega)]

theorem Ehdr.ofBytes_congr (same : ∀ j < 52, b j = c j) :
    Ehdr.ofBytes b = Ehdr.ofBytes c := by
  have ident : (List.range 7).map b = (List.range 7).map c :=
    List.map_congr_left fun j mem => same j (by have := List.mem_range.mp mem; omega)
  simp (disch := omega) only [Ehdr.ofBytes, ident, u16At_congr same, u32At_congr same]

theorem Phdr.ofBytes_congr (same : ∀ j < 32, b j = c j) :
    Phdr.ofBytes b = Phdr.ofBytes c := by
  simp (disch := omega) only [Phdr.ofBytes, u32At_congr same]

theorem u32At_lt (b : Nat → UInt8) (i : Nat) : u32At b i < 2^32 := by
  have byte : ∀ j, (b j).toNat < 2^8 := fun j => (b j).toNat_lt
  have := byte i
  have := byte (i + 1)
  have := byte (i + 2)
  have := byte (i + 2 + 1)
  unfold u32At u16At
  omega

theorem Phdr.Loads.not_skipped {ph : Phdr} (loads : ph.Loads) : ¬ ph.Skipped := by
  unfold Phdr.Loads at loads
  unfold Phdr.Skipped
  omega

namespace FileView

def ehdr (f : FileView) : Ehdr := Ehdr.ofBytes f.content

def phdr (f : FileView) (i : Nat) : Phdr :=
  Phdr.ofBytes fun j => f.content ((f.ehdr.phdrOffset i).toNat + j)

/-- The address space that the first `i` program headers define. -/
def space (f : FileView) : Nat → Option Addrspace
  | 0 => some asCreate
  | i + 1 => do
    let as ← f.space i
    if (f.phdr i).Loads then as.define (.ofNat (f.phdr i).pVaddr) (.ofNat (f.phdr i).pMemsz) else some as

def Accepts (f : FileView) (i : Nat) : Prop :=
  f.Gets (f.ehdr.phdrOffset i) 32 ∧ ((f.phdr i).Skipped ∨ (f.phdr i).Loads)

def Reaches (f : FileView) (i : Nat) : Prop := (∀ j < i, f.Accepts j) ∧ (f.space i).isSome

def HeadersSafe (f : FileView) : Prop :=
  ∀ i < f.ehdr.ePhnum, f.Reaches i → ¬ Harmful (f.ehdr.phdrOffset i) 32

end FileView

def SegmentsSafe (fs : SfsFs) (k : Nat) (tlb : Nat → Nat → Bool) (as : Addrspace) : Prop :=
  ∀ i < (fs.view k).ehdr.ePhnum, ((fs.view k).phdr i).Loads →
    (∀ j < i, ((fs.view k).phdr j).Loads → ((fs.view k).phdr j).Fits (fs.view k) as (tlb j)) →
    ¬ ((fs.view k).phdr i).Hostile fs k as

def LoadSafe (fs : SfsFs) (ram : Ram) (k : Nat) (tlb : Nat → Nat → Bool) : Prop :=
  (fs.view k).Gets 0 52 → (fs.view k).ehdr.Runs → (fs.view k).HeadersSafe ∧
    ∀ as, (fs.view k).Reaches (fs.view k).ehdr.ePhnum →
      (fs.view k).space (fs.view k).ehdr.ePhnum = some as → as.Backed ram →
      SegmentsSafe fs k tlb (as.prepared ram)

namespace FileView

variable {f : FileView}

theorem Gets.not_harmful {offset : Int} {len : Nat} (gets : f.Gets offset len)
    (some_ : 0 < len) : ¬ Harmful offset len := by
  rintro ⟨front,-⟩
  rw [Gets,if_neg (by omega)] at gets
  omega

variable {i : Nat}

theorem space_before {n : Nat} (le : i ≤ n) (defined : (f.space n).isSome) :
    (f.space i).isSome := by
  induction n with
  | zero => rwa [Nat.le_zero.mp le]
  | succ n ih =>
    obtain rfl | lt := Nat.eq_or_lt_of_le le
    · exact defined
    · refine ih (by omega) ?_
      rw [space] at defined
      cases h : f.space n with
      | none => simp [h] at defined
      | some as => rfl

theorem Reaches.mono {n : Nat} (reaches : f.Reaches n) (le : i ≤ n) : f.Reaches i :=
  ⟨fun j lt => reaches.1 j (by omega),space_before le reaches.2⟩

theorem headersSafe_of_stop (before : ∀ j < i, f.Accepts j)
    (safe : ¬ Harmful (f.ehdr.phdrOffset i) 32) (stop : ¬ f.Reaches (i + 1)) : f.HeadersSafe := by
  intro j _ reaches
  obtain lt | rfl | lt := Nat.lt_trichotomy j i
  · exact (before j lt).1.not_harmful (by decide)
  · exact safe
  · exact absurd (reaches.mono lt) stop

end FileView

section Turn
variable {strict : Prop} {k i : Nat} {f : FileView} {t : Loader} {work : Phdr → Load Unit}
  {ok : Unit → Loader → Prop} {err : LoadErr → Loader → Prop} {halt : LoadPanic → Loader → Prop}

theorem wp_loadTurn (loadable : Loadable strict k t.fs) (view : t.fs.view k = f)
    (skip : f.Accepts i → ¬ (f.phdr i).Loads → ∀ m, ok () { t with fs := t.fs.tick m })
    (segment : f.Accepts i → (f.phdr i).Loads →
      ∀ m, (work (f.phdr i)).wp { t with fs := t.fs.tick m } ok err halt)
    (refuse : ¬ f.Accepts i → ¬ Harmful (f.ehdr.phdrOffset i) 32 → ∀ e v, err e v)
    (harm : Harmful (f.ehdr.phdrOffset i) 32 → ∀ p v, halt p v) :
    (loadTurn k f.ehdr work i).wp t ok err halt := by
  subst view
  rw [loadTurn,loadTurnOf,← loadHeader,wp_bind]
  refine wp_mono (loadHeader_spec loadable (by decide) (by decide) (i32_low _) (i32_high _)) ?_ ?_
    fun _ _ h => harm h _ _
  · rintro b v ⟨gets,⟨m,rfl⟩,bytes⟩
    rw [Phdr.ofBytes_congr bytes]
    change Exec.wp (if ((t.fs.view k).phdr i).Skipped then _ else _) _ _ _ _
    rw [wp_ite]
    refine ⟨fun skipped => ?_,fun kept => ?_⟩
    · exact skip ⟨gets,.inl skipped⟩ (fun loads => loads.not_skipped skipped) m
    · change Exec.wp (if ((t.fs.view k).phdr i).Loads then work ((t.fs.view k).phdr i) else _) _ _ _ _
      rw [wp_ite]
      refine ⟨fun loads => segment ⟨gets,.inr loads⟩ loads m,fun other => ?_⟩
      have unknown : ¬ (t.fs.view k).Accepts i := fun accepts => accepts.2.elim kept other
      exact refuse unknown (gets.not_harmful (by decide)) _ _
  · exact fun _ _ h => refuse (fun accepts => h.1 accepts.1) h.2 _ _

theorem wp_loadRegion {ph : Phdr}
    (found : ∀ as, t.as.define (.ofNat ph.pVaddr) (.ofNat ph.pMemsz) = some as →
      ok () { t with as := as })
    (full : t.as.define (.ofNat ph.pVaddr) (.ofNat ph.pMemsz) = none → err (.errno .eunimp) t) :
    (loadRegion ph).wp t ok err halt := by
  rw [loadRegion,Load.wp_onSpace,Exec.wp,asDefineRegion_eq]
  cases h : t.as.define (.ofNat ph.pVaddr) (.ofNat ph.pMemsz) with
  | some as => exact found as h
  | none => exact full h

end Turn

section Loops
variable {strict : Prop} {k : Nat} {f : FileView} {s : Loader}

theorem loadRegions_spec (loadable : Loadable strict k s.fs) (view : s.fs.view k = f)
    (fresh : s.as = asCreate) :
    (loop (fun i _ => loadTurn k f.ehdr loadRegion i) f.ehdr.ePhnum 0 ()).wp s
      (fun _ t => (∃ m, t.fs = s.fs.tick m) ∧ t.ram = s.ram ∧
        f.space f.ehdr.ePhnum = some t.as ∧ ∀ j < f.ehdr.ePhnum, f.Accepts j)
      (fun _ _ => ¬ f.Reaches f.ehdr.ePhnum ∧ f.HeadersSafe) fun _ _ => ¬ f.HeadersSafe := by
  refine wp_loop_zero (fun i _ (t : Loader) => (∃ m, t.fs = s.fs.tick m) ∧
    t.ram = s.ram ∧ f.space i = some t.as ∧ ∀ j < i, f.Accepts j) _ _ ?_ ?_
  · exact ⟨⟨0,(tick_zero _).symm⟩,rfl,by rw [fresh]; rfl,fun j lt => absurd lt (Nat.not_lt_zero _)⟩
  · rintro i - t lt ⟨⟨m,ticked⟩,frames,space,before⟩
    have next : f.Accepts i → ∀ j < i + 1, f.Accepts j := by
      intro accepts j le
      obtain rfl | less := Nat.eq_or_lt_of_le (Nat.le_of_lt_succ le)
      · exact accepts
      · exact before j less
    have stops : ¬ Harmful (f.ehdr.phdrOffset i) 32 → ¬ f.Reaches (i + 1) →
        ¬ f.Reaches f.ehdr.ePhnum ∧ f.HeadersSafe :=
      fun safe stop => ⟨fun all => stop (all.mono lt),FileView.headersSafe_of_stop before safe stop⟩
    refine wp_loadTurn (ticked ▸ loadable.tick m) (by rw [ticked]; exact view) ?_ ?_ ?_ ?_
    · intro accepts other n
      refine ⟨⟨m + n,by rw [← tick_tick,ticked]⟩,frames,?_,next accepts⟩
      simp [FileView.space,space,other]
    · intro accepts loads n
      refine wp_loadRegion (fun as defined => ?_) fun full => ?_
      · refine ⟨⟨m + n,by rw [← tick_tick,ticked]⟩,frames,?_,next accepts⟩
        simpa [FileView.space,space,loads] using defined
      · refine stops (accepts.1.not_harmful (by decide)) fun reaches => ?_
        have defined := reaches.2
        simp only at full
        rw [FileView.space,space] at defined
        simp [loads,full] at defined
    · exact fun refused safe _ _ => stops safe fun all => refused (all.1 i (by omega))
    · exact fun harmful _ _ safe => safe i lt ⟨before,by rw [space]; rfl⟩ harmful

theorem loadAll_spec (tlb : Nat → Nat → Bool) (prepared : s.as.Prepared)
    (loadable : Loadable strict k s.fs)
    (accepts : ∀ j < (s.fs.view k).ehdr.ePhnum, (s.fs.view k).Accepts j) :
    (loop (fun i _ => loadTurn k (s.fs.view k).ehdr (loadContents k (tlb i)) i)
        (s.fs.view k).ehdr.ePhnum 0 ()).wp s
      (fun _ _ => SegmentsSafe s.fs k tlb s.as) (fun _ _ => SegmentsSafe s.fs k tlb s.as)
      fun _ _ => ¬ SegmentsSafe s.fs k tlb s.as := by
  refine wp_imp (wp_loop_zero (fun i _ (t : Loader) => (∃ m, t.fs = s.fs.tick m) ∧
    t.as = s.as ∧ ∀ j < i, ((s.fs.view k).phdr j).Loads →
      ((s.fs.view k).phdr j).Fits (s.fs.view k) s.as (tlb j) ∧
        ¬ ((s.fs.view k).phdr j).Hostile s.fs k s.as)
    _ _ ?_ ?_) (fun _ _ all i lt loads _ => (all.2.2 i lt loads).2)
  · exact ⟨⟨0,(tick_zero _).symm⟩,rfl,fun j lt => absurd lt (Nat.not_lt_zero _)⟩
  · rintro i - t lt ⟨⟨m,ticked⟩,same,before⟩
    refine wp_loadTurn (ticked ▸ loadable.tick m) (by rw [ticked]; rfl) ?_ ?_ ?_ ?_
    · intro _ other n
      refine ⟨⟨m + n,by rw [← tick_tick,ticked]⟩,same,fun j le loads => ?_⟩
      obtain rfl | less := Nat.eq_or_lt_of_le (Nat.le_of_lt_succ le)
      · exact absurd loads other
      · exact before j less loads
    · intro _ loads n
      have ticked' : t.fs.tick n = s.fs.tick (m + n) := by rw [ticked,tick_tick]
      have spec := loadContents_spec (s := { t with fs := s.fs.tick (m + n) }) (same ▸ prepared) (tlb i)
        (loadable.tick (m + n)) (show ((s.fs.view k).phdr i).pMemsz < 2^32 from u32At_lt _ _)
      simp only [same] at spec
      rw [ticked',same]
      refine wp_mono spec ?_ ?_ ?_
      · rintro _ v ⟨fits,safe,⟨r,rest⟩,as⟩
        refine ⟨⟨m + n + r,by rw [rest,tick_tick]⟩,as,fun j le loads' => ?_⟩
        obtain rfl | less := Nat.eq_or_lt_of_le (Nat.le_of_lt_succ le)
        · exact ⟨fits,safe⟩
        · exact before j less loads'
      · rintro e v ⟨misfit,safe⟩ j - loads' fit
        obtain less | rfl | more := Nat.lt_trichotomy j i
        · exact (before j less loads').2
        · exact safe
        · exact absurd (fit i more loads) misfit
      · exact fun _ _ hostile safe => safe i lt loads (fun j less loads' => (before j less loads').1) hostile
    · exact fun refused => absurd (accepts i lt) refused
    · exact fun harmful => absurd harmful ((accepts i lt).1.not_harmful (by decide))

end Loops

theorem FileView.space_bare {f : FileView} {as : Addrspace} (defined : f.space n = some as) :
    as.Bare := by
  induction n generalizing as with
  | zero => exact Option.some.inj defined ▸ asCreate_bare
  | succ n ih =>
    rw [space] at defined
    obtain ⟨before,found,step⟩ := Option.bind_eq_some_iff.mp defined
    split at step
    · exact (ih found).define step
    · exact Option.some.inj step ▸ ih found

section Load
variable {strict : Prop} {k : Nat} {s : Loader} {tlb : Nat → Nat → Bool}

theorem loadElf_spec (loadable : Loadable strict k s.fs) (paged : s.ram.ram.Paged) (fresh : s.as = asCreate) :
    (loadElf k tlb).wp s (fun _ _ => LoadSafe s.fs s.ram.ram k tlb)
      (fun _ _ => LoadSafe s.fs s.ram.ram k tlb) fun _ _ => ¬ LoadSafe s.fs s.ram.ram k tlb := by
  rw [loadElf,loadElfOf,← loadHeader,wp_bind]
  refine wp_mono (loadHeader_spec loadable (by decide) (by decide) (by decide) (by decide)) ?_ ?_ ?_
  · rintro b t ⟨gets,⟨m,rfl⟩,bytes⟩
    have header : Ehdr.ofBytes b = (s.fs.view k).ehdr := Ehdr.ofBytes_congr fun i lt => by
      rw [bytes i lt,Int.toNat_zero,Nat.zero_add]
    simp only [header]
    rw [wp_ite]
    refine ⟨fun runs => ?_,fun other _ runs => absurd runs other⟩
    rw [wp_bind]
    refine wp_mono (loadRegions_spec (loadable.tick m) rfl fresh) ?_ ?_ ?_
    · rintro _ t ⟨⟨n,ticked⟩,ram,space,accepts⟩
      rw [tick_tick] at ticked
      have bare := FileView.space_bare space
      have headers : (s.fs.view k).HeadersSafe := fun i lt _ => (accepts i lt).1.not_harmful (by decide)
      rw [wp_bind,Load.wp_onSpace]
      refine wp_safe (asPrepareLoad_spec bare) ?_ ?_
      · rintro _ after ⟨rfl,backed⟩
        rw [ram] at backed ⊢
        rw [ticked,wp_bind]
        have all := loadAll_spec (s := { t with fs := s.fs.tick (m + n), as := t.as.prepared s.ram.ram
                                                ram := after })
          tlb (bare.prepared paged backed) (loadable.tick _) accepts
        have only : SegmentsSafe s.fs k tlb (t.as.prepared s.ram.ram) →
            LoadSafe s.fs s.ram.ram k tlb := fun safe _ _ =>
          ⟨headers,fun as _ same _ => Option.some.inj (space.symm.trans same) ▸ safe⟩
        refine wp_mono all (fun _ _ => only) (fun _ _ => only) ?_
        exact fun _ _ bad safe => bad ((safe gets runs).2 _ ⟨accepts,by rw [space]; rfl⟩ space
          backed)
      · rintro _ _ missing - -
        rw [ram] at missing
        exact ⟨headers,fun as _ same backed =>
          absurd (Option.some.inj (space.symm.trans same) ▸ backed) missing⟩
    · exact fun _ _ stopped _ _ => ⟨stopped.2,fun _ all => absurd all stopped.1⟩
    · exact fun _ _ bad safe => bad (safe gets runs).1
  · exact fun _ _ short gets => absurd gets short.1
  · exact fun _ _ harmful => absurd harmful.1 (by decide)

/-- `load_elf` of a regular file returns, with the entry point or an error, just if the file is one
of the safe ones. -/
theorem load_elf_never_halts_iff (loadable : Loadable strict k s.fs) (paged : s.ram.ram.Paged)
    (fresh : s.as = asCreate) :
    (loadElf k tlb).wp s (fun _ _ => True) (fun _ _ => True) (fun _ _ => False) ↔
      LoadSafe s.fs s.ram.ram k tlb := by
  refine ⟨fun returns => ?_,fun safe => ?_⟩
  · by_contra hostile
    exact not_wp_of_wp (loadElf_spec loadable paged fresh) (fun _ _ safe => absurd safe hostile)
      (fun _ _ safe => absurd safe hostile) (fun _ _ _ => id) returns
  · exact wp_mono (loadElf_spec loadable paged fresh) (fun _ _ _ => trivial) (fun _ _ _ => trivial)
      fun _ _ bad => bad safe

end Load

def storedFile (bytes : List UInt8) : SfsFs :=
  (FileOp.write 3 (Uio.mkKuio (fun i => bytes.getD i 0) bytes.length 0 .write)).after ready

/-- A thread about to load it, in a new address space and with memory to spare. -/
def loadingFile (bytes : List UInt8) : Loader where
  fs := storedFile bytes
  ram := ⟨halfMegabyte,[]⟩
  as := asCreate
  mem := fun _ => 0

theorem halfMegabyte_paged : halfMegabyte.Paged := rfl

theorem stored_loadable {bytes : List UInt8} (short : bytes.length ≤ 512)
    (isLoaded : (storedFile bytes).loaded 3)
    (bound : ((storedFile bytes).view 3).size ≤ 143 * 512) : Loadable True 3 (storedFile bytes) := by
  have open_ : ready.loaded 3 := by decide +kernel
  have one : ready.missing 3 0 1 ≤ ready.free := by decide +kernel
  have proper :
      (FileOp.write 3 (Uio.mkKuio (fun i => bytes.getD i 0) bytes.length 0 .write)).Proper ready := by
    refine ⟨open_,by decide,Uio.mkKuio_request (by decide) (by omega),rfl,?_⟩
    have first : (Uio.mkKuio (fun i => bytes.getD i 0) bytes.length 0 .write).firstBlock = 0 := by
      simp [Uio.firstBlock,Uio.pos,Uio.mkKuio]
    have last : (Uio.mkKuio (fun i => bytes.getD i 0) bytes.length 0 .write).endBlock =
        (bytes.length + 511) / 512 := by simp [Uio.endBlock,Uio.pos,Uio.mkKuio]
    rw [first,last]
    obtain none_ | some_ : (bytes.length + 511) / 512 = 0 ∨ (bytes.length + 511) / 512 = 1 := by omega
    · rw [none_]
      exact Nat.zero_le _
    · rwa [some_]
  obtain ⟨-,-,inv,-⟩ := FileOp.call_spec ready_inv ready_represents proper
  exact ⟨inv,isLoaded,by decide,(inv.consistent.geometry.reliable trivial).1,bound⟩

def elfHeader (phoff : List UInt8) (phnum : UInt8) : List UInt8 :=
  [0x7f,0x45,0x4c,0x46,1,2,1,0,0,0,0,0,0,0,0,0,0,2,0,8,0,0,0,1,0,0x40,0,0] ++ phoff ++
    [0,0,0,0,0,0,0,0,0,52,0,32,0,phnum,0,0,0,0,0,0]

/-- The program header of a page at `vaddr`, whose first 16 bytes are those of the file. -/
def elfSegment (vaddr : List UInt8) : List UInt8 :=
  [0,0,0,1,0,0,0,0] ++ vaddr ++ [0,0,0,0,0,0,0,16,0,0,0x10,0,0,0,0,7,0,0,0x10,0]

def twoSegments : List UInt8 :=
  elfHeader [0,0,0,52] 2 ++ elfSegment [0,0x40,0,0] ++ elfSegment [0x10,0,0,0]

/-- It does not halt the machine. -/
theorem load_elf_never_halts_twoSegments :
    (loadElf 3 fun _ _ => true).wp (loadingFile twoSegments) (fun _ _ => True) (fun _ _ => True)
      fun _ _ => False := by
  have loadable : Loadable True 3 (loadingFile twoSegments).fs :=
    stored_loadable (by decide) (by decide +kernel) (by decide +kernel)
  have count : ((loadingFile twoSegments).fs.view 3).ehdr.ePhnum = 2 := by decide +kernel
  have front : ∀ i < 2, 0 ≤ ((loadingFile twoSegments).fs.view 3).ehdr.phdrOffset i := by decide +kernel
  have offsets : ∀ i < 2, 0 ≤ i32 (((loadingFile twoSegments).fs.view 3).phdr i).pOffset := by
    decide +kernel
  have complete : (((loadingFile twoSegments).fs.view 3).space 2).map (fun as => decide as.Complete) =
      some true := by decide +kernel
  refine (load_elf_never_halts_iff loadable halfMegabyte_paged rfl).mpr fun _ _ =>
    ⟨fun i lt _ harmful => ?_,?_⟩
  · exact absurd harmful.1 (Int.not_lt.mpr (front i (count ▸ lt)))
  · intro as _ defined _ i lt _ _ hostile
    rw [count] at defined
    rw [defined] at complete
    have whole := (of_decide_eq_true (Option.some.inj complete)).prepared (loadingFile twoSegments).ram.ram
    obtain (harmful | touches) | zeros := hostile
    · exact absurd harmful.1 (Int.not_lt.mpr (offsets i (count ▸ lt)))
    · exact touches.1 whole
    · exact zeros.1 whole

/-- A header whose program header table is 256 bytes in front of the file. -/
def frontTable : List UInt8 := elfHeader [0xff,0xff,0xff,0] 1

theorem load_elf_halts_frontTable : Loadable True 3 (loadingFile frontTable).fs ∧
    (loadingFile frontTable).ram.ram.Paged ∧ (loadingFile frontTable).as = asCreate ∧
    ¬ (loadElf 3 fun _ _ => true).wp (loadingFile frontTable) (fun _ _ => True) (fun _ _ => True)
      fun _ _ => False := by
  have loadable : Loadable True 3 (loadingFile frontTable).fs :=
    stored_loadable (by decide) (by decide +kernel) (by decide +kernel)
  refine ⟨loadable,halfMegabyte_paged,rfl,?_⟩
  have halts : ¬ LoadSafe (loadingFile frontTable).fs (loadingFile frontTable).ram.ram 3 fun _ _ => true := by
    intro safe
    have gets : ((loadingFile frontTable).fs.view 3).Gets 0 52 := by
      rw [FileView.Gets,if_pos (Int.le_refl 0)]
      decide +kernel
    have reaches : ((loadingFile frontTable).fs.view 3).Reaches 0 :=
      ⟨fun j lt => absurd lt (Nat.not_lt_zero j),rfl⟩
    have offset : ((loadingFile frontTable).fs.view 3).ehdr.phdrOffset 0 = -256 := by decide +kernel
    refine (safe gets (by decide +kernel)).1 0 (by decide +kernel) reaches ?_
    rw [offset]
    refine ⟨by decide,?_⟩
    rintro (aligned | ⟨deep,-⟩)
    · exact absurd aligned (by decide)
    · exact absurd deep (by decide)
  exact not_wp_of_wp (loadElf_spec loadable halfMegabyte_paged rfl) (fun _ _ safe => absurd safe halts)
    (fun _ _ safe => absurd safe halts) fun _ _ _ => id

end Os161
