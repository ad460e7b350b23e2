import Os161.SfsMount

/-! `sfs_sync`: what it has written when it reports success. The first part follows the
dirty flags through any pattern of write failures; the second is about consistent file
systems. -/
namespace Os161

abbrev Media := Nat → Bool

namespace Media

def tries (m : Media) : Option Nat := (List.range 11).find? m

def writeOk (m : Media) : Bool := m.tries.isSome

def afterWrite (m : Media) : Media :=
  match m.tries with
  | some n => fun i => m (n + 1 + i)
  | none => fun i => m (11 + i)

def afterWrites (m : Media) : Nat → Media
  | 0 => m
  | n + 1 => m.afterWrite.afterWrites n

def nthOk (m : Media) (i : Nat) : Bool := (m.afterWrites i).writeOk

variable {m : Media} {n : Nat}

theorem afterWrites_succ (m : Media) (n : Nat) :
    m.afterWrites (n + 1) = (m.afterWrites n).afterWrite := by
  induction n generalizing m with
  | zero => rfl
  | succ n ih => exact ih m.afterWrite

theorem afterWrites_add (m : Media) (n k : Nat) :
    m.afterWrites (n + k) = (m.afterWrites n).afterWrites k := by
  induction k with
  | zero => rfl
  | succ k ih => rw [← Nat.add_assoc,afterWrites_succ,afterWrites_succ,ih]

theorem tries_of_good (le : n ≤ 10) (before : ∀ i < n, m i = false) (good : m n = true) :
    m.tries = some n := by
  rw [tries,List.find?_range_eq_some]
  exact ⟨good,by simp; omega,fun j lt => by simp [before j lt]⟩

theorem tries_of_bad (bad : ∀ i ≤ 10, m i = false) : m.tries = none := by
  rw [tries,List.find?_range_eq_none]
  intro i lt
  simp [bad i (by omega)]

end Media

namespace SfsFs

/-- A mounted file system, as far as writing it back is concerned: the structures to be
written have blocks on the device, and the vnodes are in use. -/
structure Mounted (s : SfsFs) : Prop where
  honest : s.sfsDevice.Honest
  fits : s.sfsDevice.dBlocks * 512 < 2^31
  super : 0 < s.sfsDevice.dBlocks
  map : 2 + sfsBitblocks s.nblocks ≤ s.sfsDevice.dBlocks
  nodup : (s.sfsVnodes.map SfsVnode.svIno).Nodup
  vnodes : ∀ v ∈ s.sfsVnodes, v.svIno < s.sfsDevice.dBlocks ∧ 0 < v.vnRefcount

/-- Nothing is marked as needing to be written. -/
structure Clean (s : SfsFs) : Prop where
  vnodes : ∀ v ∈ s.sfsVnodes, v.svDirty = false
  freemap : s.sfsFreemapdirty = false
  super : s.sfsSuperdirty = false

def media (s : SfsFs) : Media := s.disk.media

def dirtyAt (s : SfsFs) (k : Nat) : Bool := (s.vnode? k).any SfsVnode.svDirty

def dirtyCount (s : SfsFs) (ks : List Nat) : Nat := (ks.filter s.dirtyAt).length

structure SameMeta (s t : SfsFs) : Prop where
  super : t.sfsSuper = s.sfsSuper
  superdirty : t.sfsSuperdirty = s.sfsSuperdirty
  freemap : t.sfsFreemap = s.sfsFreemap
  freemapdirty : t.sfsFreemapdirty = s.sfsFreemapdirty

variable {s t u : SfsFs} {k b : Nat}

theorem SameMeta.refl (s : SfsFs) : SameMeta s s := ⟨rfl,rfl,rfl,rfl⟩

theorem SameMeta.trans (first : SameMeta s t) (second : SameMeta t u) : SameMeta s u :=
  ⟨second.super.trans first.super,second.superdirty.trans first.superdirty,
    second.freemap.trans first.freemap,second.freemapdirty.trans first.freemapdirty⟩

theorem Mounted.reaches (mounted : s.Mounted) (inside : b < s.sfsDevice.dBlocks) : s.Reaches b where
  honest := mounted.honest
  inside := inside
  fits := Nat.lt_trans (Nat.mul_lt_mul_of_pos_right inside (by decide)) mounted.fits

theorem Mounted.tick (mounted : s.Mounted) (n : Nat) : (s.tick n).Mounted where
  honest := mounted.honest.imp_right fun real => ⟨real.1,fun _ => real.2 _⟩
  fits := mounted.fits
  super := mounted.super
  map := mounted.map
  nodup := mounted.nodup
  vnodes := mounted.vnodes

theorem Mounted.store (mounted : s.Mounted) (b : Nat) (d : Block) : (s.store b d).Mounted :=
  ⟨mounted.honest,mounted.fits,mounted.super,mounted.map,mounted.nodup,mounted.vnodes⟩

theorem Mounted.cleaned (mounted : s.Mounted) (k : Nat) :
    (s.update k fun v => { v with svDirty := false }).Mounted where
  honest := mounted.honest
  fits := mounted.fits
  super := mounted.super
  map := mounted.map
  nodup := by
    rw [update_inos s k (fun _ => by rfl)]
    exact mounted.nodup
  vnodes := by
    intro v mem
    obtain ⟨w,memW,rfl⟩ := List.mem_map.mp mem
    have := mounted.vnodes w memW
    split
    · exact this
    · exact this

theorem dirtyAt_cleaned (s : SfsFs) (k j : Nat) :
    (s.update k fun v => { v with svDirty := false }).dirtyAt j = (decide (j ≠ k) && s.dirtyAt j) := by
  unfold dirtyAt
  rw [vnode?_update s k (fun _ => by rfl)]
  by_cases same : j = k
  · subst j
    cases s.vnode? k <;> simp
  · simp [same]

theorem vnodes_clean_iff (nodup : (s.sfsVnodes.map SfsVnode.svIno).Nodup) :
    (∀ v ∈ s.sfsVnodes, v.svDirty = false) ↔
      ∀ k ∈ s.sfsVnodes.map SfsVnode.svIno, s.dirtyAt k = false := by
  constructor
  · intro clean k mem
    obtain ⟨v,memV,rfl⟩ := List.mem_map.mp mem
    rw [dirtyAt,vnode?,vnode?_of_mem nodup memV]
    exact clean v memV
  · intro clean v mem
    have := clean v.svIno (List.mem_map_of_mem mem)
    rwa [dirtyAt,vnode?,vnode?_of_mem nodup mem] at this

end SfsFs

open SfsFs

section Flags
variable {s : SfsFs} {k b : Nat}

theorem sfsWblock_media (reaches : s.Reaches b) (d : Block) :
    (sfsWblock d b).wp s
      (fun _ t => s.media.writeOk = true ∧ t.media = s.media.afterWrite ∧
        ∃ n, t = (s.tick n).store b d)
      (fun _ t => s.media.writeOk = false ∧ t.media = s.media.afterWrite ∧ t = s.tick 11)
      never := by
  apply wp_ends (sfsWblock_spec reaches d)
  · rintro _ _ ⟨m,le,⟨before,good⟩,rfl⟩
    have tries : s.media.tries = some m := Media.tries_of_good le before good
    refine ⟨by rw [Media.writeOk,tries]; rfl,?_,m + 1,rfl⟩
    simp only [Media.afterWrite,tries]
    rfl
  · rintro _ _ ⟨-,bad,rfl⟩
    have tries : s.media.tries = none := Media.tries_of_bad bad
    refine ⟨by rw [Media.writeOk,tries]; rfl,?_,rfl⟩
    simp only [Media.afterWrite,tries]
    rfl

structure Tried (ks : List Nat) (s t : SfsFs) : Prop where
  mounted : t.Mounted
  same : SameMeta s t
  inos : t.sfsVnodes.map SfsVnode.svIno = s.sfsVnodes.map SfsVnode.svIno
  media : t.media = s.media.afterWrites (s.dirtyCount ks)
  others : ∀ j, j ∉ ks → t.dirtyAt j = s.dirtyAt j
  clean : (∀ j ∈ ks, t.dirtyAt j = false) ↔ ∀ i < s.dirtyCount ks, s.media.nthOk i = true

theorem vopFsync_flags (mounted : s.Mounted) (mem : k ∈ s.sfsVnodes.map SfsVnode.svIno) :
    (attempt (vopFsync k)).wp s (fun _ t => Tried [k] s t) never never := by
  obtain ⟨v,memV,rfl⟩ := List.mem_map.mp mem
  have found : s.vnode? v.svIno = some v := vnode?_of_mem mounted.nodup memV
  obtain ⟨inside,refs⟩ := mounted.vnodes v memV
  have reaches := mounted.reaches inside
  have refs : v.vnRefcount ≠ 0 := by omega
  have dirty : s.dirtyAt v.svIno = v.svDirty := by rw [dirtyAt,found]; rfl
  have count : s.dirtyCount [v.svIno] = if v.svDirty then 1 else 0 := by
    simp only [dirtyCount,List.filter_cons,dirty,List.filter_nil]
    split <;> rfl
  simp only [vopFsync,vnodeCheck,sfsSyncInode,wp_attempt,wp_bind,Sfs.wp_vnode found,
    wp_assert,refs,ne_eq,not_false_eq_true,decide_true,if_true,wp_pure]
  rw [wp_ite]
  refine ⟨fun on => ?_,fun off => ?_⟩
  · rw [if_pos on] at count
    rw [wp_bind]
    apply wp_ends (sfsWblock_media reaches v.svI.toBlock)
    · rintro _ t ⟨ok,media,n,rfl⟩
      simp only [Sfs.update,wp_modify]
      have gone := dirtyAt_cleaned ((s.tick n).store v.svIno v.svI.toBlock) v.svIno
      exact {
        mounted := ((mounted.tick n).store _ _).cleaned _
        same := ⟨rfl,rfl,rfl,rfl⟩
        inos := update_inos _ _ (fun _ => rfl)
        media := by rw [count]; exact media
        others := fun j notMem => by
          rw [gone]
          simp only [List.mem_singleton] at notMem
          simp only [ne_eq,notMem,not_false_eq_true,decide_true,Bool.true_and]
          rfl
        clean := by
          rw [count]
          refine ⟨fun _ i lt => ?_,fun _ j mem => ?_⟩
          · rw [Nat.lt_one_iff.mp lt]
            exact ok
          · rw [gone,List.mem_singleton.mp mem]
            simp }
    · rintro _ t ⟨failed,media,rfl⟩
      exact {
        mounted := mounted.tick 11
        same := ⟨rfl,rfl,rfl,rfl⟩
        inos := rfl
        media := by rw [count]; exact media
        others := fun _ _ => rfl
        clean := by
          rw [count]
          refine ⟨fun clean => ?_,fun allOk => ?_⟩
          · have : s.dirtyAt v.svIno = false := clean v.svIno (List.mem_singleton_self _)
            rw [dirty,on] at this
            exact Bool.noConfusion this
          · have : s.media.writeOk = true := allOk 0 Nat.one_pos
            rw [failed] at this
            exact Bool.noConfusion this }
  · rw [if_neg off] at count
    rw [wp_pure]
    exact {
      mounted := mounted
      same := SameMeta.refl s
      inos := rfl
      media := by rw [count]; rfl
      others := fun _ _ => rfl
      clean := by
        rw [count]
        refine ⟨fun _ i lt => absurd lt (Nat.not_lt_zero i),fun _ j mem => ?_⟩
        rw [List.mem_singleton.mp mem,dirty]
        simpa using off }

theorem Tried.cons {ks : List Nat} {t u : SfsFs} (fresh : k ∉ ks) (first : Tried [k] s t)
    (rest : Tried ks t u) : Tried (k :: ks) s u := by
  have count : s.dirtyCount (k :: ks) = s.dirtyCount [k] + t.dirtyCount ks := by
    have same : ks.filter t.dirtyAt = ks.filter s.dirtyAt := by
      apply List.filter_congr
      intro j mem
      exact first.others j (by rw [List.mem_singleton]; rintro rfl; exact fresh mem)
    simp only [dirtyCount,same]
    rw [← List.length_append,← List.filter_append,List.singleton_append]
  have later : ∀ i, s.media.nthOk (s.dirtyCount [k] + i) = t.media.nthOk i := by
    intro i
    rw [Media.nthOk,Media.nthOk,Media.afterWrites_add,first.media]
  exact {
    mounted := rest.mounted
    same := first.same.trans rest.same
    inos := rest.inos.trans first.inos
    media := by rw [rest.media,first.media,count,Media.afterWrites_add]
    others := fun j notMem => by
      rw [List.mem_cons,not_or] at notMem
      rw [rest.others j notMem.2,first.others j (by rw [List.mem_singleton]; exact notMem.1)]
    clean := by
      rw [List.forall_mem_cons,rest.clean,rest.others k fresh]
      have one := first.clean
      rw [List.forall_mem_singleton] at one
      rw [one,count]
      constructor
      · rintro ⟨a,b⟩ i lt
        by_cases small : i < s.dirtyCount [k]
        · exact a i small
        · have := b (i - s.dirtyCount [k]) (by omega)
          rw [← later] at this
          rwa [show s.dirtyCount [k] + (i - s.dirtyCount [k]) = i by omega] at this
      · intro all
        refine ⟨fun i lt => all i (by omega),fun i lt => ?_⟩
        rw [← later]
        exact all _ (by omega) }

theorem syncVnodes_flags (ks : List Nat) (nodup : ks.Nodup) (mounted : s.Mounted)
    (loaded : ∀ k ∈ ks, k ∈ s.sfsVnodes.map SfsVnode.svIno) :
    (syncVnodes ks).wp s (fun _ t => Tried ks s t) never never := by
  induction ks generalizing s with
  | nil =>
    exact ⟨mounted,SameMeta.refl s,rfl,rfl,fun _ _ => rfl,
      fun _ i lt => absurd lt (Nat.not_lt_zero i),fun _ j mem => nomatch mem⟩
  | cons k ks ih =>
    rw [List.nodup_cons] at nodup
    rw [syncVnodes,wp_bind]
    apply wp_imp (vopFsync_flags mounted (loaded k List.mem_cons_self))
    intro _ t first
    have still : ∀ j ∈ ks, j ∈ t.sfsVnodes.map SfsVnode.svIno := fun j mem => by
      rw [first.inos]
      exact loaded j (List.mem_cons_of_mem k mem)
    exact wp_imp (ih nodup.2 first.mounted still) (fun _ _ rest => first.cons nodup.1 rest)

theorem sfsMapio_flags (mounted : s.Mounted) :
    (sfsMapio .write).wp s
      (fun _ t => SameMeta s t ∧ t.Mounted ∧ t.sfsVnodes = s.sfsVnodes ∧
        t.media = s.media.afterWrites (sfsBitblocks s.nblocks) ∧
        ∀ j < sfsBitblocks s.nblocks, s.media.nthOk j = true)
      (fun _ _ => ∃ j < sfsBitblocks s.nblocks, s.media.nthOk j = false) never := by
  simp only [sfsMapio,wp_bind,wp_read]
  refine wp_loop_zero (fun i _ t => SameMeta s t ∧ t.Mounted ∧ t.sfsVnodes = s.sfsVnodes ∧
      t.media = s.media.afterWrites i ∧ ∀ j < i, s.media.nthOk j = true) _ ()
    ⟨SameMeta.refl s,mounted,rfl,rfl,fun j lt => absurd lt (Nat.not_lt_zero j)⟩ ?_
  rintro i _ t lt ⟨same,mountedT,vnodes,media,before⟩
  have inside : 2 + i < t.sfsDevice.dBlocks := by
    have := mountedT.map
    unfold SfsFs.nblocks at this lt
    rw [same.super] at this
    omega
  simp only [mapioTurn,wp_bind,wp_read]
  apply wp_ends (sfsWblock_media (mountedT.reaches inside) _)
  · rintro _ _ ⟨ok,after,n,rfl⟩
    refine ⟨same.trans ⟨rfl,rfl,rfl,rfl⟩,(mountedT.tick n).store _ _,vnodes,?_,fun j ltJ => ?_⟩
    · rw [after,media,Media.afterWrites_succ]
    · by_cases last : j = i
      · rw [last,Media.nthOk,← media]
        exact ok
      · exact before j (by omega)
  · rintro _ _ ⟨failed,-,-⟩
    refine ⟨i,by omega,?_⟩
    rw [Media.nthOk,← media]
    exact failed

end Flags

namespace SfsFs

def inos (s : SfsFs) : List Nat := s.sfsVnodes.map SfsVnode.svIno

def inodeWrites (s : SfsFs) : Nat := s.dirtyCount s.inos
def mapWrites (s : SfsFs) : Nat := if s.sfsFreemapdirty then sfsBitblocks s.nblocks else 0

def InodesWritten (s : SfsFs) : Prop := ∀ i < s.inodeWrites, s.media.nthOk i = true
def MapFails (s : SfsFs) : Prop := ∃ j < s.mapWrites, s.media.nthOk (s.inodeWrites + j) = false
def SuperFails (s : SfsFs) : Prop :=
  s.sfsSuperdirty = true ∧ s.media.nthOk (s.inodeWrites + s.mapWrites) = false

end SfsFs

section Flags
variable {s : SfsFs}

theorem syncFreemap_flags (mounted : s.Mounted) :
    syncFreemap.wp s
      (fun _ t => t.Mounted ∧ t.sfsVnodes = s.sfsVnodes ∧ t.sfsSuper = s.sfsSuper ∧
        t.sfsSuperdirty = s.sfsSuperdirty ∧ t.sfsFreemapdirty = false ∧
        t.media = s.media.afterWrites s.mapWrites ∧ ∀ j < s.mapWrites, s.media.nthOk j = true)
      (fun _ _ => ∃ j < s.mapWrites, s.media.nthOk j = false) never := by
  simp only [syncFreemap,wp_bind,wp_read]
  rw [wp_ite]
  refine ⟨fun dirty => ?_,fun clean => ?_⟩
  · simp only [mapWrites,dirty,if_true,wp_bind]
    apply wp_imp (sfsMapio_flags mounted)
    rintro _ t ⟨same,mountedT,vnodes,media,ok⟩
    rw [wp_modify]
    exact ⟨⟨mountedT.honest,mountedT.fits,mountedT.super,mountedT.map,mountedT.nodup,
      mountedT.vnodes⟩,vnodes,same.super,same.superdirty,rfl,media,ok⟩
  · rw [wp_pure,mapWrites,if_neg clean]
    exact ⟨mounted,rfl,rfl,rfl,by simpa using clean,rfl,
      fun j lt => absurd lt (Nat.not_lt_zero j)⟩

theorem syncSuper_flags (mounted : s.Mounted) :
    syncSuper.wp s
      (fun _ t => t.sfsVnodes = s.sfsVnodes ∧ t.sfsFreemapdirty = s.sfsFreemapdirty ∧
        t.sfsSuperdirty = false ∧ (s.sfsSuperdirty = true → s.media.writeOk = true))
      (fun _ _ => s.sfsSuperdirty = true ∧ s.media.writeOk = false) never := by
  simp only [syncSuper,wp_bind,wp_read]
  rw [wp_ite]
  refine ⟨fun dirty => ?_,fun clean => ?_⟩
  · rw [wp_bind]
    apply wp_ends (sfsWblock_media (mounted.reaches mounted.super) _)
    · rintro _ _ ⟨ok,-,n,rfl⟩
      rw [wp_modify]
      exact ⟨rfl,rfl,rfl,fun _ => ok⟩
    · rintro _ _ ⟨failed,-,-⟩
      exact ⟨dirty,failed⟩
  · rw [wp_pure]
    exact ⟨rfl,rfl,by simpa using clean,fun dirty => absurd dirty clean⟩

/-- `sfs_sync` returns 0 when the freemap and the superblock could be written, and then
leaves a vnode dirty exactly when an inode could not. -/
theorem sfsSync_flags (mounted : s.Mounted) :
    sfsSync.wp s (fun _ t => ¬s.MapFails ∧ ¬s.SuperFails ∧ (t.Clean ↔ s.InodesWritten))
      (fun _ _ => s.MapFails ∨ s.SuperFails) never := by
  simp only [sfsSync,wp_bind,wp_read]
  apply wp_total (syncVnodes_flags s.inos mounted.nodup mounted fun _ mem => mem)
  intro _ s1 tried
  have writes : s1.mapWrites = s.mapWrites := by
    unfold mapWrites SfsFs.nblocks
    rw [tried.same.freemapdirty,tried.same.super]
  have later : ∀ i, s1.media.nthOk i = s.media.nthOk (s.inodeWrites + i) := by
    intro i
    rw [Media.nthOk,Media.nthOk,Media.afterWrites_add,tried.media]
    rfl
  apply wp_ends (syncFreemap_flags tried.mounted)
  · rintro _ s2 ⟨mounted2,vnodes2,-,superdirty2,clean2,media2,ok2⟩
    have atSuper : s2.media.writeOk = s.media.nthOk (s.inodeWrites + s.mapWrites) := by
      rw [← later,← writes,Media.nthOk,media2]
    have mapOk : ¬s.MapFails := by
      rintro ⟨j,lt,failed⟩
      rw [← writes] at lt
      rw [← later,ok2 j lt] at failed
      exact Bool.noConfusion failed
    apply wp_ends (syncSuper_flags mounted2)
    · rintro _ t ⟨vnodes,freemap,super,ok⟩
      rw [superdirty2,tried.same.superdirty,atSuper] at ok
      refine ⟨mapOk,fun fails => ?_,?_⟩
      · exact Bool.noConfusion ((ok fails.1).symm.trans fails.2)
      · have flags : t.Clean ↔ ∀ v ∈ s1.sfsVnodes, v.svDirty = false := by
          rw [← vnodes2,← vnodes]
          exact ⟨fun clean => clean.vnodes,fun clean => ⟨clean,freemap.trans clean2,super⟩⟩
        rw [flags,vnodes_clean_iff tried.mounted.nodup,tried.inos]
        exact tried.clean
    · rintro _ t ⟨dirty,failed⟩
      rw [superdirty2,tried.same.superdirty] at dirty
      rw [atSuper] at failed
      exact Or.inr ⟨dirty,failed⟩
  · rintro _ t ⟨j,lt,failed⟩
    rw [writes] at lt
    rw [later] at failed
    exact Or.inl ⟨j,lt,failed⟩

theorem sfsSync_meta (mounted : s.Mounted) :
    sfsSync.wp s (fun _ t => t.sfsFreemapdirty = false ∧ t.sfsSuperdirty = false)
      (fun _ _ => True) never := by
  simp only [sfsSync,wp_bind,wp_read]
  apply wp_total (syncVnodes_flags s.inos mounted.nodup mounted fun _ mem => mem)
  intro _ s1 tried
  apply wp_ends (syncFreemap_flags tried.mounted)
  · rintro _ s2 ⟨mounted2,-,-,-,clean2,-⟩
    exact wp_ends (syncSuper_flags mounted2) (fun _ t h => ⟨h.2.1.trans clean2,h.2.2.1⟩)
      fun _ _ _ => trivial
  · exact fun _ _ _ => trivial

/-- `vfs_unmount` on SFS, whatever the device does: the assertions of `sfs_unmount` hold, and it
succeeds only with no vnode in memory and nothing left to write. -/
theorem sfs_unmount_after_sync (mounted : s.Mounted) :
    (do sfsSync; sfsUnmount : Sfs Unit).wp s (fun _ t => t.sfsVnodes = [] ∧ t.Clean)
      (fun code t => s.MapFails ∨ s.SuperFails ∨ code = .ebusy ∧ t.sfsVnodes ≠ [])
      fun _ _ => False := by
  rw [wp_bind]
  refine wp_mono (wp_and (sfsSync_flags mounted) (sfsSync_meta mounted)) ?_ ?_ fun _ _ h => h.1
  · rintro _ t ⟨-,freemap,super⟩
    rw [sfsUnmount,wp_bind,wp_read,wp_ite]
    refine ⟨fun some_ => .inr (.inr ⟨rfl,List.ne_nil_of_length_pos some_⟩),fun none_ => ?_⟩
    have empty := List.eq_nil_of_length_eq_zero (Nat.eq_zero_of_not_pos none_)
    simp only [wp_bind,wp_assert,super,freemap,decide_true,if_true]
    exact ⟨empty,by simp [empty],freemap,super⟩
  · rintro _ _ ⟨failed,-⟩
    exact failed.imp_right .inl

/-- A report of success can be trusted exactly when every dirty inode could be written,
or there was another reason to report failure. -/
theorem sfsSync_clean_iff (mounted : s.Mounted) :
    (∀ t, sfsSync s = (.ok (),t) → t.Clean) ↔ s.InodesWritten ∨ s.MapFails ∨ s.SuperFails := by
  have flags := sfsSync_flags mounted
  rcases ran : sfsSync s with ⟨_ | _ | _,t⟩
  · obtain ⟨mapOk,superOk,clean⟩ := wp_ok flags ran
    constructor
    · intro sound
      exact Or.inl (clean.mp (sound t rfl))
    · rintro (written | fails | fails) u same
      · obtain ⟨-,rfl⟩ := Prod.mk.inj same
        exact clean.mpr written
      · exact absurd fails mapOk
      · exact absurd fails superOk
  · exact ⟨fun _ => Or.inr (wp_err flags ran),fun _ u same => nomatch (Prod.mk.inj same).1⟩
  · exact (wp_halt flags ran).elim

end Flags

/-- An eight-block file system whose root directory has been changed in memory. -/
def dirtyRoot (media : Media) : SfsFs where
  sfsSuper :=
    { spMagic := sfsMagic, spNblocks := 8, spVolname := fun _ => 0, reserved := fun _ => 0 }
  sfsSuperdirty := false
  sfsDevice :=
    { dBlocks := 8, dBlocksize := 512, dIo := Lhd.failStopIo
      dData := { sectors := fun _ => Block.zero, media := media } }
  sfsVnodes := [loadedVnode 1 .dirops
    { SfsInode.ofBlock Block.zero with sfiType := sfsTypeDir, sfiLinkcount := 1 } true]
  vnodesMax := 2
  sfsFreemap := { nbits := 4096, v := fun _ => 0xff }
  sfsFreemapdirty := false
  kmalloc := fun _ => true

theorem dirtyRoot_mounted (media : Media) : (dirtyRoot media).Mounted where
  honest := Or.inl rfl
  fits := (by decide : 8 * 512 < 2^31)
  super := (by decide : 0 < 8)
  map := (by decide : 2 + sfsBitblocks 8 ≤ 8)
  nodup := List.nodup_singleton 1
  vnodes v mem := by
    rw [List.mem_singleton.mp mem]
    exact ⟨(by decide : 1 < 8),Nat.one_pos⟩

theorem sfs_unmount_after_sync_dirtyRoot :
    (do sfsSync; sfsUnmount : Sfs Unit).wp (dirtyRoot fun _ => true) (fun _ t => t.sfsVnodes = [] ∧ t.Clean)
      (fun code t => (dirtyRoot fun _ => true).MapFails ∨ (dirtyRoot fun _ => true).SuperFails ∨
        code = .ebusy ∧ t.sfsVnodes ≠ []) fun _ _ => False :=
  sfs_unmount_after_sync (dirtyRoot_mounted _)

/-- The device refuses every write: `sfs_sync` returns 0 and the root is still dirty. -/
theorem sfsSync_dirtyRoot_dead : (dirtyRoot fun _ => false).Mounted ∧
    (sfsSync (dirtyRoot fun _ => false)).1 = .ok () ∧
    ¬(sfsSync (dirtyRoot fun _ => false)).2.Clean := by
  refine ⟨dirtyRoot_mounted _,by decide +kernel,fun clean => ?_⟩
  have dirty : (sfsSync (dirtyRoot fun _ => false)).2.sfsVnodes.map SfsVnode.svDirty = [true] := by
    decide +kernel
  obtain ⟨v,mem,on⟩ := List.mem_map.mp (dirty ▸ List.mem_singleton_self true)
  exact Bool.noConfusion ((clean.vnodes v mem).symm.trans on)

theorem sfsSync_clean_iff_dirtyRoot :
    (∀ t, sfsSync (dirtyRoot fun _ => true) = (.ok (),t) → t.Clean) ↔
      (dirtyRoot fun _ => true).InodesWritten ∨ (dirtyRoot fun _ => true).MapFails ∨
        (dirtyRoot fun _ => true).SuperFails :=
  sfsSync_clean_iff (dirtyRoot_mounted _)

/-! Consistent file systems -/

def Owner.IsMeta : Owner → Prop
  | .super | .map _ => True
  | _ => False

namespace SfsFs
variable {strict : Prop} {live : Nat → Prop} {held : Set Nat} {s t u : SfsFs} {b : Nat} {d : Block}

structure Rewritten (live : Nat → Prop) (s t : SfsFs) : Prop where
  frame : Frame live s t
  inodes : ∀ k, live k → t.inode k = s.inode k
  freemap : t.sfsFreemap = s.sfsFreemap

theorem Rewritten.refl (live : Nat → Prop) (s : SfsFs) : Rewritten live s s :=
  ⟨Frame.refl _ _,fun _ _ => rfl,rfl⟩

theorem Rewritten.trans (first : Rewritten live s t) (second : Rewritten live t u) :
    Rewritten live s u :=
  ⟨first.frame.trans second.frame,fun k h => (second.inodes k h).trans (first.inodes k h),
    second.freemap.trans first.freemap⟩

theorem Rewritten.tick (s : SfsFs) (n : Nat) : Rewritten live s (s.tick n) :=
  ⟨frame_tick s n,fun _ _ => rfl,rfl⟩

theorem Consistent.storeMeta (c : Consistent strict live held s) {o : Owner} (isMeta : o.IsMeta)
    (claim : s.Claims live o b) (durable : (s.store b d).Durable) :
    Consistent strict live held (s.store b d) ∧ Rewritten live s (s.store b d) := by
  have owner : ∀ p : Owner, s.Claims live p b → p.IsMeta := fun p other =>
    c.owned.unique claim other ▸ isMeta
  have notInode : ∀ k, live k → k ≠ b := fun k h e => owner (.inode k) ⟨h,e.symm⟩
  have inodes : ∀ k, live k → (s.store b d).inode k = s.inode k := fun k h =>
    inode_store (notInode k h)
  have away : ∀ k, live k → s.indirect k ≠ 0 →
      (s.store b d).sectors (s.indirect k) = s.sectors (s.indirect k) := by
    intro k h some_
    rw [store_sectors,if_neg]
    intro e
    exact owner (.indirect k) ⟨h,e.symm,e ▸ some_⟩
  have views : ∀ k, live k → (s.store b d).view k = s.view k := by
    intro k h
    refine view_congr (by rw [inodes k h]) (by rw [inodes k h]) (by rw [inodes k h]) fun n => ?_
    unfold data
    rw [block_congr (inodes k h) (away k h)]
    split
    · rfl
    · rename_i some_
      rw [store_sectors,if_neg]
      intro e
      have claimB : s.Claims live (dataOwner k n) b :=
        (claims_data (block_lt some_)).mpr ⟨h,e.symm,e ▸ some_⟩
      have wrong := owner _ claimB
      unfold dataOwner at wrong
      split at wrong
      · exact wrong
      · exact wrong
  refine ⟨?_,⟨rfl,views,rfl⟩,inodes,rfl⟩
  exact {
    geometry := c.geometry.store b d
    durable := durable
    table := ⟨c.table.nodup,c.table.live,c.table.referenced,c.table.ops⟩
    owned := c.owned.congr <| claims_congr rfl (fun k h => by rw [inodes k h])
      (fun k h => by rw [indirect,indirect,inodes k h])
      (fun k h i _ => slot_congr (inodes k h) (away k h) i)
    root := c.root
    typed := fun k h => by rw [inodes k h]; exact c.typed k h }

theorem Consistent.storeMap (c : Consistent strict live held s) {j : Nat}
    (small : j < sfsBitblocks s.nblocks) :
    Consistent strict live held (s.store (2 + j) (mapBlock s.sfsFreemap j)) ∧
      Rewritten live s (s.store (2 + j) (mapBlock s.sfsFreemap j)) := by
  refine c.storeMeta (o := .map j) trivial ⟨small,rfl⟩ ⟨c.durable.magic,c.durable.named,?_,?_,?_⟩
  · intro clean
    rw [store_sectors,if_neg (by omega)]
    exact c.durable.super clean
  · intro clean i smallI
    rw [store_sectors]
    split
    · rw [show i = j by omega]
      rfl
    · exact c.durable.map clean i smallI
  · intro k v found clean
    rw [store_sectors,if_neg]
    · exact c.durable.inode k v found clean
    · intro e
      have asInode : s.Claims live (.inode k) (2 + j) := ⟨c.table.live k v found,e.symm⟩
      have asMap : s.Claims live (.map j) (2 + j) := ⟨small,rfl⟩
      exact nomatch c.owned.unique asInode asMap

theorem Consistent.storeSuper (c : Consistent strict live held s) :
    Consistent strict live held (s.store 0 s.sfsSuper.toBlock) ∧
      Rewritten live s (s.store 0 s.sfsSuper.toBlock) := by
  refine c.storeMeta (o := .super) trivial rfl ⟨c.durable.magic,c.durable.named,?_,?_,?_⟩
  · intro _
    rw [store_sectors,if_pos rfl,SfsSuper.ofBlock_toBlock]
    exact c.durable.named
  · intro clean i small
    rw [store_sectors,if_neg (by omega)]
    exact c.durable.map clean i small
  · intro k v found clean
    rw [store_sectors,if_neg]
    · exact c.durable.inode k v found clean
    · intro e
      have asInode : s.Claims live (.inode k) 0 := ⟨c.table.live k v found,e.symm⟩
      have asSuper : s.Claims live .super 0 := rfl
      exact nomatch c.owned.unique asInode asSuper

end SfsFs

section Sync
variable {strict : Prop} {live : Nat → Prop} {s : SfsFs}

theorem sfsMapio_write (c : Consistent strict live ∅ s) :
    (sfsMapio .write).wp s
      (fun _ t => Consistent strict live ∅ t ∧ Rewritten live s t ∧ t.sfsVnodes = s.sfsVnodes ∧
        ∀ j < sfsBitblocks s.nblocks, t.sectors (2 + j) = mapBlock s.sfsFreemap j)
      (fun _ t => ¬strict ∧ Consistent strict live ∅ t ∧ Rewritten live s t) never := by
  simp only [sfsMapio,wp_bind,wp_read]
  refine wp_loop_zero (fun i _ t => Consistent strict live ∅ t ∧ Rewritten live s t ∧
      t.sfsVnodes = s.sfsVnodes ∧ ∀ j < i, t.sectors (2 + j) = mapBlock s.sfsFreemap j) _ ()
    ⟨c,Rewritten.refl _ _,rfl,fun j lt => absurd lt (Nat.not_lt_zero j)⟩ ?_
  rintro i _ t lt ⟨cons,kept,vnodes,before⟩
  have small : i < sfsBitblocks t.nblocks := by
    unfold SfsFs.nblocks at lt ⊢
    rwa [kept.frame.super]
  have claim : t.Claims live (.map i) (2 + i) := ⟨small,rfl⟩
  simp only [mapioTurn,wp_bind,wp_read]
  apply wp_ends (sfsWblock_spec (cons.geometry.reaches (cons.inside claim)) _)
  · rintro _ _ ⟨m,-,-,rfl⟩
    obtain ⟨cons',kept'⟩ := (cons.tick (m + 1)).storeMap small
    refine ⟨cons',(kept.trans (Rewritten.tick t _)).trans kept',vnodes,fun j ltJ => ?_⟩
    rw [store_sectors]
    split
    · rw [show j = i by omega,← kept.freemap]
    · exact before j (by omega)
  · rintro _ _ ⟨-,bad,rfl⟩
    exact ⟨cons.geometry.lax (bad 0 (by omega)),cons.tick 11,kept.trans (Rewritten.tick t 11)⟩

theorem vopFsync_spec {k : Nat} (c : Consistent strict live ∅ s) (isLoaded : s.loaded k) :
    (vopFsync k).wp s (fun _ t => Synced strict live ∅ k s t)
      (fun e t => e = .eio ∧ ¬strict ∧ t = s.tick 11) never := by
  obtain ⟨v,found⟩ := loaded_iff.mp isLoaded
  have refs : v.vnRefcount ≠ 0 := Nat.pos_iff_ne_zero.mp (c.table.referenced k v found)
  simp only [vopFsync,vnodeCheck,wp_bind,Sfs.wp_vnode found,wp_assert,refs,ne_eq,
    not_false_eq_true,decide_true,if_true,wp_pure]
  exact sfsSyncInode_spec c (c.table.live k v found) isLoaded

theorem syncVnodes_spec (ks : List Nat) (c : Consistent strict live ∅ s)
    (loaded : ∀ k ∈ ks, s.loaded k) :
    (syncVnodes ks).wp s
      (fun _ t => Consistent strict live ∅ t ∧ Rewritten live s t ∧
        (strict → (∀ k ∈ ks, t.dirtyAt k = false) ∧
          ∀ k, s.dirtyAt k = false → t.dirtyAt k = false)) never never := by
  induction ks generalizing s with
  | nil =>
    exact ⟨c,Rewritten.refl _ _,fun _ => ⟨List.forall_mem_nil _,fun _ h => h⟩⟩
  | cons k ks ih =>
    have isLoaded := loaded k List.mem_cons_self
    obtain ⟨v,found⟩ := loaded_iff.mp isLoaded
    rw [syncVnodes,wp_bind,wp_attempt]
    apply wp_ends (vopFsync_spec c isLoaded)
    · intro _ t synced
      have kept : Rewritten live s t :=
        ⟨synced.frame,fun j _ => congrFun synced.inodes j,synced.freemap⟩
      apply wp_imp (ih synced.consistent fun j mem =>
        synced.frame.loaded.mpr (loaded j (List.mem_cons_of_mem k mem)))
      rintro _ u ⟨cons,kept',clean⟩
      refine ⟨cons,kept.trans kept',fun h => ⟨?_,fun j off => (clean h).2 j ?_⟩⟩
      · rw [List.forall_mem_cons]
        refine ⟨(clean h).2 k ?_,(clean h).1⟩
        rw [dirtyAt,synced.vnodes,if_pos rfl,found]
        rfl
      · rw [dirtyAt,synced.vnodes]
        split
        · cases s.vnode? j <;> rfl
        · exact off
    · rintro _ t ⟨-,lax,rfl⟩
      apply wp_imp (ih (c.tick 11) fun j mem => loaded j (List.mem_cons_of_mem k mem))
      rintro _ u ⟨cons,kept,-⟩
      exact ⟨cons,(Rewritten.tick s 11).trans kept,fun h => absurd h lax⟩

section
variable (c : Consistent strict live ∅ s)
include c

theorem SfsFs.Consistent.unflag (fm su : Bool)
    (map : fm = false → ∀ j < sfsBitblocks s.nblocks, s.sectors (2 + j) = mapBlock s.sfsFreemap j)
    (super : su = false → (SfsSuper.ofBlock (s.sectors 0)).terminate = s.sfsSuper) :
    Consistent strict live ∅ { s with sfsFreemapdirty := fm, sfsSuperdirty := su } where
  geometry := ⟨c.geometry.honest,c.geometry.reliable,c.geometry.blocksize,c.geometry.inside,
    c.geometry.fits,c.geometry.bits,c.geometry.tail⟩
  durable := ⟨c.durable.magic,c.durable.named,super,map,c.durable.inode⟩
  table := ⟨c.table.nodup,c.table.live,c.table.referenced,c.table.ops⟩
  owned := c.owned.congr
    (claims_congr rfl (fun _ _ => rfl) (fun _ _ => rfl) (fun _ _ _ _ => rfl))
  root := c.root
  typed := c.typed

theorem syncFreemap_spec :
    syncFreemap.wp s
      (fun _ t => Consistent strict live ∅ t ∧ Rewritten live s t ∧ t.sfsVnodes = s.sfsVnodes ∧
        t.sfsFreemapdirty = false)
      (fun _ t => ¬strict ∧ Consistent strict live ∅ t ∧ Rewritten live s t) never := by
  simp only [syncFreemap,wp_bind,wp_read]
  rw [wp_ite]
  refine ⟨fun _ => ?_,fun clean => ?_⟩
  · rw [wp_bind]
    apply wp_imp (sfsMapio_write c)
    rintro _ t ⟨cons,kept,vnodes,map⟩
    rw [wp_modify]
    have same : t.nblocks = s.nblocks := congrArg (·.spNblocks.toNat) kept.frame.super
    refine ⟨cons.unflag false t.sfsSuperdirty (fun _ => ?_) cons.durable.super,
      kept.trans ⟨⟨rfl,fun _ _ => rfl,rfl⟩,fun _ _ => rfl,rfl⟩,vnodes,rfl⟩
    rw [same,kept.freemap]
    exact map
  · rw [wp_pure]
    exact ⟨c,Rewritten.refl _ _,rfl,by simpa using clean⟩

theorem syncSuper_spec :
    syncSuper.wp s
      (fun _ t => Consistent strict live ∅ t ∧ Rewritten live s t ∧ t.sfsVnodes = s.sfsVnodes ∧
        t.sfsFreemapdirty = s.sfsFreemapdirty ∧ t.sfsSuperdirty = false)
      (fun _ t => ¬strict ∧ Consistent strict live ∅ t ∧ Rewritten live s t) never := by
  simp only [syncSuper,wp_bind,wp_read]
  rw [wp_ite]
  refine ⟨fun _ => ?_,fun clean => ?_⟩
  · have claim : s.Claims live .super 0 := rfl
    rw [wp_bind]
    apply wp_ends (sfsWblock_spec (c.geometry.reaches (c.inside claim)) _)
    · rintro _ _ ⟨m,-,-,rfl⟩
      rw [wp_modify]
      obtain ⟨cons,kept⟩ := (c.tick (m + 1)).storeSuper
      refine ⟨cons.unflag s.sfsFreemapdirty false cons.durable.map (fun _ => ?_),
        ((Rewritten.tick s _).trans kept).trans ⟨⟨rfl,fun _ _ => rfl,rfl⟩,fun _ _ => rfl,rfl⟩,
        rfl,rfl,rfl⟩
      rw [store_sectors,if_pos rfl,SfsSuper.ofBlock_toBlock]
      exact c.durable.named
    · rintro _ _ ⟨-,bad,rfl⟩
      exact ⟨c.geometry.lax (bad 0 (by omega)),c.tick 11,Rewritten.tick s 11⟩
  · rw [wp_pure]
    exact ⟨c,Rewritten.refl _ _,rfl,rfl,by simpa using clean⟩

/-- `sfs_sync` on a consistent file system changes no file, and if nothing fails it
leaves everything on the disk. -/
theorem sfsSync_spec :
    sfsSync.wp s
      (fun _ t => Consistent strict live ∅ t ∧ Rewritten live s t ∧ (strict → t.Clean))
      (fun _ t => ¬strict ∧ Consistent strict live ∅ t ∧ Rewritten live s t) never := by
  simp only [sfsSync,wp_bind,wp_read]
  have allLoaded : ∀ k ∈ s.sfsVnodes.map SfsVnode.svIno, s.loaded k := by
    intro k mem
    obtain ⟨v,memV,ino⟩ := List.mem_map.mp mem
    exact ⟨v,memV,ino⟩
  apply wp_total (syncVnodes_spec _ c allLoaded)
  rintro _ s1 ⟨c1,kept1,clean1⟩
  apply wp_ends (syncFreemap_spec c1)
  · rintro _ s2 ⟨c2,kept2,vnodes2,freemap2⟩
    apply wp_ends (syncSuper_spec c2)
    · rintro _ t ⟨c3,kept3,vnodes3,freemap3,super3⟩
      refine ⟨c3,(kept1.trans kept2).trans kept3,fun h => ⟨?_,freemap3.trans freemap2,super3⟩⟩
      rw [vnodes3,vnodes2,vnodes_clean_iff c1.table.nodup]
      intro k mem
      have before : s.loaded k := by
        obtain ⟨v,memV,ino⟩ := List.mem_map.mp mem
        exact kept1.frame.loaded.mp ⟨v,memV,ino⟩
      obtain ⟨v,memV,ino⟩ := before
      exact (clean1 h).1 k (List.mem_map.mpr ⟨v,memV,ino⟩)
    · rintro _ t ⟨lax,c3,kept3⟩
      exact ⟨lax,c3,(kept1.trans kept2).trans kept3⟩
  · rintro _ t ⟨lax,c2,kept2⟩
    exact ⟨lax,c2,kept1.trans kept2⟩

end

end Sync
end Os161
