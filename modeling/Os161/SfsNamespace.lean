import Os161.SfsFrame
import Os161.SfsLinks

/-! The directory operations of `sfs_vnode.c`. Each keeps the invariant however it ends,
and hands out exactly the references it returns. -/
namespace Os161

open Function

open SfsFs

section Lookup
variable {strict : Prop} {s t : SfsFs} {k slot : Nat}

theorem SfsFs.Inv.ino (inv : Inv strict s) (h : s.Live k) : k ≠ 0 ∧ k < 2^32 := by
  have claim : s.Claims s.Live (.inode k) k := ⟨h,rfl⟩
  have inside := inv.consistent.inside claim
  have small := inv.consistent.geometry.small
  refine ⟨?_,by omega⟩
  rintro rfl
  have asSuper : s.Claims s.Live .super 0 := rfl
  exact nomatch inv.consistent.owned.unique claim asSuper

theorem Handle.less_more {h : Option (Nat × Nat)} (positive : ∀ g, h = some g → 0 < g.1) :
    Handle.less (some (Handle.more h)) = h := by
  match h, positive with
  | none, _ => rfl
  | some (0,_), positive => exact absurd (positive _ rfl) (Nat.lt_irrefl 0)
  | some (_ + 1,_), _ => rfl

theorem Handle.more_ne {h : Option (Nat × Nat)} (positive : ∀ g, h = some g → 0 < g.1) {opens : Nat}
    (busy : opens ≠ 0) : Handle.more h ≠ (1,opens) := by
  match h, positive with
  | none, _ => exact fun e => busy (Prod.mk.inj e).2.symm
  | some (0,_), positive => exact absurd (positive _ rfl) (Nat.lt_irrefl 0)
  | some (_ + 1,_), _ => exact fun e => nomatch (Prod.mk.inj e).1

theorem SfsFs.Inv.positive (inv : Inv strict s) (g : Nat × Nat) (at_ : s.handle k = some g) :
    0 < g.1 := by
  obtain ⟨v,found,rfl⟩ := Option.map_eq_some_iff.mp at_
  exact inv.consistent.table.referenced k v found

structure Entry (s : SfsFs) (name : CString) (k slot : Nat) : Prop where
  taken : (s.view 1).Taken slot
  name : ((s.view 1).entry slot).name = name.chars
  number : ((s.view 1).entry slot).sfdIno.toNat = k

theorem Entry.live {name : CString} (entry : Entry s name k slot) : s.Live k :=
  Or.inr (Or.inr ⟨slot,entry.taken,entry.number⟩)

theorem Entry.unique {name : CString} {j i : Nat} (isDir : (s.view 1).IsDir)
    (entry : Entry s name k slot) (other : Entry s name j i) : k = j := by
  obtain rfl := isDir.distinct _ _ entry.taken other.taken (entry.name.trans other.name.symm)
  exact entry.number.symm.trans other.number

theorem sfsLookonce_exact (inv : Inv strict s) (dirLoaded : s.loaded 1) (name : CString) :
    (sfsLookonce 1 name).wp s
      (fun r t => Entry s name r.1 r.2 ∧ Opened strict s.Live ∅ r.1 s t)
      (fun _ t => Later s t ∧ (s.disk.Reliable → ∀ k slot, s.loaded k → ¬Entry s name k slot))
      never := by
  rw [sfsLookonce,wp_bind]
  apply wp_ends (sfsDirFindname_spec inv.consistent inv.root dirLoaded inv.dir name)
  · rintro r _ ⟨searched,m,rfl⟩
    cases found : r.found with
    | none =>
      refine ⟨Later.tick s m,fun _ k slot _ entry => ?_⟩
      exact searched.absent found slot entry.taken.1 entry.taken.2 entry.name
    | some e =>
      obtain ⟨ino,slot⟩ := e
      obtain ⟨inside,used,same,number⟩ := searched.found ino slot found
      have entry : Entry s name ino slot := ⟨⟨inside,used⟩,same,number.symm⟩
      simp only [wp_bind]
      apply wp_ends (sfsLoadvnode_exact (inv.consistent.tick m) entry.live)
      · rintro r t ⟨same,opened⟩
        subst r
        have openedS : Opened strict s.Live ∅ ino s t :=
          ⟨opened.consistent,opened.super,opened.inodes,opened.views,opened.handle⟩
        have isLoaded : t.loaded ino := by
          rw [loaded_update openedS.handle,if_pos rfl]
          rfl
        obtain ⟨v,atIno⟩ := loaded_iff.mp isLoaded
        have named : (t.view ino).links ≠ 0 := by
          rw [openedS.views ino entry.live]
          exact (inv.named_iff entry.live).mpr (Or.inr ⟨slot,entry.taken,entry.number⟩)
        have counted := mt (links_zero_iff atIno).mpr named
        simp only [Sfs.wp_vnode atIno,wp_assert,ne_eq,counted,not_false_eq_true,
          decide_true,if_true,wp_pure]
        exact ⟨entry,openedS⟩
      · rintro e t ⟨-,absent,later⟩
        refine ⟨(Later.tick s m).trans later,fun _ k i isLoaded other => absent ?_⟩
        rwa [entry.unique inv.dir other]
  · rintro e _ ⟨-,bad,m,rfl⟩
    exact ⟨Later.tick s m,fun reliable => absurd reliable bad⟩

theorem sfsLookonce_spec (inv : Inv strict s) (dirLoaded : s.loaded 1) (name : CString) :
    (sfsLookonce 1 name).wp s
      (fun r t => Entry s name r.1 r.2 ∧ Opened strict s.Live ∅ r.1 s t)
      (fun _ t => Later s t) never :=
  wp_mono (sfsLookonce_exact inv dirLoaded name) (fun _ _ h => h) (fun _ _ h => h.1)
    (fun _ _ h => h)

theorem vnodeDecref_inv (inv : Inv strict s) (isLoaded : s.loaded k) :
    (vnodeDecref k).wp s
      (fun _ t => Inv strict t ∧ (strict → t.handle = update s.handle k
        (Handle.less (s.handle k)))) never
      (fun site t => site = .killOpencount ∧ (∃ opens ≠ 0, s.handle k = some (1,opens)) ∧
        Inv strict t) := by
  have h : s.Live k := .of_loaded isLoaded
  apply wp_mono (vnodeDecref_spec inv.consistent h isLoaded inv.notRoot)
  · rintro _ t ⟨released,-⟩
    refine ⟨inv.released h released,fun isStrict => ?_⟩
    obtain ⟨g,handle,rfl | ⟨lax,-⟩⟩ := released.handle
    · exact handle
    · exact absurd isStrict lax
  · exact fun _ _ h => h
  · rintro site t ⟨isKill,busy,released⟩
    exact ⟨isKill,busy,inv.released h released⟩

structure Returned (strict : Prop) (s t : SfsFs) : Prop where
  inv : Inv strict t
  handle : strict → t.handle = s.handle

theorem vnodeDecref_return (inv : Inv strict t) (before : Inv strict s)
    (handle : t.handle = update s.handle k (some (Handle.more (s.handle k)))) :
    (vnodeDecref k).wp t (fun _ u => Returned strict s u ∧ Released strict t.Live k t u)
      never never := by
  have atK : t.handle k = some (Handle.more (s.handle k)) := by rw [handle,update_self]
  have isLoaded : t.loaded k := loaded_iff_handle.mpr ⟨_,atK⟩
  have h : t.Live k := .of_loaded isLoaded
  apply wp_mono (vnodeDecref_spec inv.consistent h isLoaded inv.notRoot)
  · rintro _ u ⟨released,-⟩
    refine ⟨⟨inv.released h released,fun isStrict => ?_⟩,released⟩
    obtain ⟨g,handleU,rfl | ⟨lax,-⟩⟩ := released.handle
    · rw [handleU,atK,Handle.less_more before.positive,handle,update_idem,
        update_eq_self]
    · exact absurd isStrict lax
  · exact fun _ _ h => h
  · rintro site u ⟨-,⟨opens,busy,same⟩,-⟩
    rw [atK] at same
    exact Handle.more_ne before.positive busy (Option.some.inj same)

end Lookup

section Operations
variable {strict : Prop} {s t : SfsFs} {k slot : Nat}

structure Obtained (strict : Prop) (k : Nat) (s t : SfsFs) : Prop where
  inv : Inv strict t
  handle : t.handle = update s.handle k (some (Handle.more (s.handle k)))

theorem Returned.of_later (inv : Inv strict s) (later : Later s t) : Returned strict s t :=
  ⟨inv.later later,fun _ => (later.frame : Frame s.Live s t).handle⟩

theorem Obtained.loaded (obtained : Obtained strict k s t) : t.loaded k :=
  loaded_iff_handle.mpr ⟨_,by rw [obtained.handle,update_self]⟩

theorem Obtained.still (obtained : Obtained strict k s t) {j : Nat} (isLoaded : s.loaded j) :
    t.loaded j := by
  rw [loaded_update obtained.handle]
  split
  · rfl
  · exact isLoaded

theorem Opened.obtained (inv : Inv strict s) (h : s.Live k)
    (opened : Opened strict s.Live ∅ k s t) : Obtained strict k s t :=
  ⟨inv.opened h opened,opened.handle⟩

theorem Made.obtained (inv : Inv strict s) (made : Made strict s.Live k s t) :
    Obtained strict k s t :=
  ⟨inv.made made,by rw [made.handle,made.absent]; rfl⟩

theorem sfsLink_spec (inv : Inv strict s) (dirLoaded : s.loaded 1) (name : CString)
    (isLoaded : s.loaded k) :
    (sfsLink 1 name k).wp s (fun _ t => Returned strict s t) (fun _ t => Returned strict s t)
      never := by
  obtain ⟨v,found⟩ := loaded_iff.mp isLoaded
  obtain ⟨nonzero,fits⟩ := inv.ino (.of_loaded isLoaded)
  simp only [sfsLink,wp_bind,Sfs.wp_vnode found,(vnode?_mem found).2]
  apply wp_ends (sfsDirLink_spec inv.consistent inv.root dirLoaded inv.dir name k)
  · rintro slot t ⟨cons,frame,room,vacant,view⟩
    rw [Sfs.wp_updateInode]
    refine ⟨inv.link cons frame isLoaded nonzero fits room vacant view,fun _ => ?_⟩
    exact (handle_edit t k _).trans frame.handle
  · rintro _ t ⟨cons,frame,grown⟩
    exact ⟨inv.regrown cons frame grown,fun _ => frame.handle⟩

theorem sfsDirUnlink_spec (inv : Inv strict s) (dirLoaded : s.loaded 1)
    (taken : (s.view 1).Taken slot) :
    (sfsDirUnlink 1 slot).wp s
      (fun _ t => Consistent strict s.Live ∅ t ∧ Frame (Others s.Live 1) s t ∧
        t.view 1 = (s.view 1).writeSlot slot (SfsDir.make 0 []) ∧ OnlyVnode 1 s t)
      (fun _ t => Inv strict t ∧ t.handle = s.handle ∧ OnlyVnode 1 s t ∧ ¬strict ∧
        FileView.Unchanged strict (s.view 1) (t.view 1)) never := by
  have at_ : slot * 64 ≤ (s.view 1).size := by
    have := taken.1
    unfold FileView.slots at this
    omega
  have spec := sfsWritedir_spec inv.consistent inv.root dirLoaded inv.dir.bound at_
    (SfsDir.make 0 [])
  apply wp_mono (wp_and spec ((sfsWritedir_others 1 (SfsDir.make 0 []) slot).wp s))
  · rintro _ t ⟨⟨cons,frame,-,view⟩,others⟩
    exact ⟨cons,frame,view,others⟩
  · rintro _ t ⟨⟨cons,frame,grown,full⟩,others⟩
    exact ⟨inv.regrown cons frame grown,frame.handle,others,fun isStrict => full isStrict taken,
      grown.unchanged inv.dir inv.beyond⟩
  · exact fun _ _ h => h.1

structure Unlinked (k slot : Nat) (s t : SfsFs) : Prop where
  names : ∀ n j, (t.view 1).Names n j ↔
    (s.view 1).Names n j ∧ n ≠ ((s.view 1).entry slot).name
  links : ∀ j, s.Live j → (t.view j).links + (if j = k then 1 else 0) = (s.view j).links

theorem names_relinked (isLoaded : s.loaded k) (g : UInt16 → UInt16) (n : List UInt8) (j : Nat) :
    ((s.relinked k g).view 1).Names n j ↔ (s.view 1).Names n j := by
  by_cases root : (1 : Nat) = k
  · subst root
    rw [view_relinked isLoaded]
    exact Iff.rfl
  · rw [view_relinked_other isLoaded g root]

theorem linksTo_relinked (isLoaded : s.loaded k) (g : UInt16 → UInt16) (j : Nat) :
    ((s.relinked k g).view 1).linksTo j = (s.view 1).linksTo j := by
  by_cases root : (1 : Nat) = k
  · subst root
    rw [view_relinked isLoaded]
    rfl
  · rw [view_relinked_other isLoaded g root]

theorem loaded_relinked (s : SfsFs) (k : Nat) (g : UInt16 → UInt16) (j : Nat) :
    (s.relinked k g).loaded j ↔ s.loaded j := by
  rw [loaded_iff_handle,handle_relinked,loaded_iff_handle]

section Clear
variable (inv : Inv strict s) (c : Consistent strict s.Live ∅ t)
    (frame : Frame (Others s.Live 1) s t) (isLoaded : s.loaded k)
    (taken : (s.view 1).Taken slot) (number : ((s.view 1).entry slot).sfdIno.toNat = k)
    (view : t.view 1 = (s.view 1).writeSlot slot (SfsDir.make 0 []))
include inv frame isLoaded taken number view

theorem SfsFs.Inv.live_unlink {j : Nat} (h : s.Live j) : (t.relinked k (· - 1)).Live j := by
  have loadedT := loaded_relinked t k (· - 1)
  rcases h with root | loadedJ | linkedJ
  · exact .inl root
  · exact .of_loaded ((loadedT j).mpr (frame.loaded.mpr loadedJ))
  · by_cases same : j = k
    · exact .of_loaded ((loadedT j).mpr (frame.loaded.mpr (same ▸ isLoaded)))
    · have counts := FileView.linksTo_unlink inv.dir.aligned taken number j
      rw [← view,← linksTo_relinked (frame.loaded.mpr isLoaded) (· - 1) j,if_neg same,
        Nat.add_zero] at counts
      refine .inr (.inr (linked_iff.mpr ?_))
      rw [counts]
      exact linked_iff.mp linkedJ

include c in
theorem SfsFs.Inv.unlinked : Unlinked k slot s (t.relinked k (· - 1)) := by
  have loadedT : t.loaded k := frame.loaded.mpr isLoaded
  refine ⟨fun n j => ?_,fun j h => ?_⟩
  · rw [names_relinked loadedT,view]
    exact FileView.names_unlink inv.dir taken n j
  · have counts := FileView.linksTo_unlink inv.dir.aligned taken number j
    rw [← view,← linksTo_relinked loadedT (· - 1) j] at counts
    exact inv.links_of_counts (b := 0) (inv.unlink c frame isLoaded taken number view) h
      (inv.live_unlink frame isLoaded taken number view h) counts

end Clear

structure NamesKept (s t : SfsFs) : Prop where
  names : ∀ n j, (t.view 1).Names n j ↔ (s.view 1).Names n j
  links : ∀ j, s.Live j → (t.view j).links = (s.view j).links

variable {u : SfsFs}

theorem NamesKept.trans (first : NamesKept s t) (live : ∀ j, s.Live j → t.Live j)
    (second : NamesKept t u) : NamesKept s u :=
  ⟨fun n j => (second.names n j).trans (first.names n j),
    fun j h => (second.links j (live j h)).trans (first.links j h)⟩

theorem NamesKept.of_views (inv : Inv strict s) (views : ∀ j, s.Live j → t.view j = s.view j) :
    NamesKept s t :=
  ⟨fun _ _ => by rw [views 1 inv.root],fun j h => by rw [views j h]⟩

theorem Later.namesKept (inv : Inv strict s) (later : Later s t) : NamesKept s t :=
  .of_views inv (later.frame : Frame s.Live s t).views

theorem SfsFs.Inv.released_namesKept (inv : Inv strict s) (h : s.Live k)
    (released : Released strict s.Live k s t) : NamesKept s t :=
  ⟨fun _ _ => by rw [inv.released_dir h released],fun _ hj => links_released released hj⟩

theorem live_unchanged (handle : t.handle = s.handle)
    (same : FileView.Unchanged strict (s.view 1) (t.view 1)) (j : Nat) : t.Live j ↔ s.Live j := by
  rw [Live,Live,loaded_iff_handle,handle,← loaded_iff_handle,linked_iff,linked_iff,
    same.linksTo]

theorem SfsFs.Inv.unchanged_namesKept (inv : Inv strict s) (after : Inv strict t)
    (handle : t.handle = s.handle) (same : FileView.Unchanged strict (s.view 1) (t.view 1)) :
    NamesKept s t :=
  ⟨same.names,fun j h => inv.links_of_counts (a := 0) (b := 0) after h
    ((live_unchanged handle same j).mpr h) (same.linksTo j)⟩

/-- A part of an operation has left the name space and every regular file alone. -/
structure Quiet (strict : Prop) (s t : SfsFs) : Prop where
  inv : Inv strict t
  live : ∀ j, s.Live j → t.Live j
  kept : NamesKept s t
  files : ∀ j, s.Live j → j ≠ 1 → t.view j = s.view j

namespace Quiet

theorem of_views (inv : Inv strict s) (after : Inv strict t) (live : ∀ j, s.Live j → t.Live j)
    (views : ∀ j, s.Live j → t.view j = s.view j) : Quiet strict s t :=
  ⟨after,live,.of_views inv views,fun j h _ => views j h⟩

theorem refl (inv : Inv strict s) : Quiet strict s s := of_views inv inv (fun _ h => h) fun _ _ => rfl

theorem trans {u : SfsFs} (first : Quiet strict s t) (second : Quiet strict t u) : Quiet strict s u :=
  ⟨second.inv,fun j h => second.live j (first.live j h),
    first.kept.trans first.live second.kept,fun j h notRoot =>
      (second.files j (first.live j h) notRoot).trans (first.files j h notRoot)⟩

theorem framed (inv : Inv strict s) (c : Consistent strict s.Live ∅ t) (frame : Frame s.Live s t) :
    Quiet strict s t :=
  of_views inv (inv.framed c frame)
    (fun j h => by rwa [Live,frame.loaded,linked_congr (frame.views 1 inv.root)]) frame.views

theorem later (inv : Inv strict s) (later : Later s t) : Quiet strict s t :=
  framed inv (later.consistent inv.consistent) later.frame

theorem opened (inv : Inv strict s) (h : s.Live k) (opened : Opened strict s.Live ∅ k s t) :
    Quiet strict s t := by
  refine of_views inv (inv.opened h opened) (fun j hj => ?_) opened.views
  rw [Live,linked_congr (opened.views 1 inv.root),loaded_update opened.handle]
  split
  · exact .inr (.inl rfl)
  · exact hj

theorem made (inv : Inv strict s) (made : Made strict s.Live k s t) : Quiet strict s t := by
  refine of_views inv (inv.made made) (fun j hj => ?_) made.views
  rw [Live,linked_congr (made.views 1 inv.root),loaded_update made.handle]
  split
  · exact .inr (.inl rfl)
  · exact hj

theorem regrown (inv : Inv strict s) (c : Consistent strict s.Live ∅ t)
    (frame : Frame (Others s.Live 1) s t)
    (grown : FileView.Regrown strict (s.view 1) (t.view 1)) : Quiet strict s t := by
  have same := grown.unchanged inv.dir inv.beyond
  have after := inv.regrown c frame grown
  exact ⟨after,fun j h => (live_unchanged frame.handle same j).mpr h,
    inv.unchanged_namesKept after frame.handle same,fun j h notRoot => frame.views j ⟨h,notRoot⟩⟩

theorem released {u : SfsFs} (quiet : Quiet strict s t) (h : t.Live k)
    (spared : s.Live k → (t.view k).links ≠ 0) (released : Released strict t.Live k t u) :
    Quiet strict s u := by
  have dir := quiet.inv.released_dir h released
  obtain ⟨g,handle,-⟩ := released.handle
  refine ⟨quiet.inv.released h released,fun j hj => ?_,?_,fun j hj notRoot => ?_⟩
  · rw [Live,linked_congr dir,loaded_update handle]
    by_cases same : j = k
    · subst same
      exact ((quiet.inv.named_iff h).mp (spared hj)).imp_right .inr
    · rw [if_neg same]
      exact quiet.live j hj
  · exact quiet.kept.trans quiet.live (quiet.inv.released_namesKept h released)
  · rw [released.views j (quiet.live j hj) fun same => spared (same ▸ hj)]
    exact quiet.files j hj notRoot

end Quiet

structure Created (strict : Prop) (name : CString) (k : Nat) (s t : SfsFs) : Prop where
  inv : Inv strict t
  loaded : t.loaded k
  notRoot : k ≠ 1
  absent : ∀ j slot, ¬Entry s name j slot
  named : (t.view 1).Names name.chars k
  indirect : t.indirect k = 0

theorem Created.of_link {name : CString} (absent : ∀ j slot, ¬Entry u name j slot)
    (inv : Inv strict s) (isLoaded : s.loaded k) (notRoot : k ≠ 1) (nonzero : k ≠ 0) (fits : k < 2^32)
    (blank : s.inode k = newInode) (c : Consistent strict s.Live ∅ t)
    (frame : Frame (Others s.Live 1) s t) (room : slot * 64 + 64 ≤ 143 * 512)
    (vacant : (s.view 1).Vacant name.chars slot)
    (view : t.view 1 = (s.view 1).writeSlot slot (SfsDir.make k name.chars))
    (others : OnlyVnode 1 s t) : Created strict name k u (t.relinked k (· + 1)) := by
  have loadedT : t.loaded k := frame.loaded.mpr isLoaded
  obtain ⟨v,atK⟩ := loaded_iff.mp isLoaded
  have same : t.inode k = newInode := by
    rw [inode_of_loaded ((others k notRoot).trans atK),← inode_of_loaded atK,blank]
  have edited : (t.relinked k (· + 1)).inode k =
      { t.inode k with sfiLinkcount := (t.inode k).sfiLinkcount + 1 } := by
    rw [relinked,inode_edit loadedT,if_pos rfl]
  exact {
    inv := inv.link c frame isLoaded nonzero fits room vacant view
    loaded := (loaded_relinked t k _ k).mpr loadedT
    notRoot := notRoot
    absent := absent
    named := by
      rw [names_relinked loadedT,view,FileView.names_link inv.dir.aligned vacant nonzero fits]
      exact .inr ⟨rfl,rfl⟩
    indirect := by
      rw [SfsFs.indirect,edited,same]
      rfl }

theorem sfsCreat_exact (inv : Inv strict s) (dirLoaded : s.loaded 1) (name : CString) (excl : Bool) :
    (sfsCreat 1 name excl).wp s
      (fun k t => Obtained strict k s t ∧
        ((∃ slot, Entry s name k slot) ∧ Quiet strict s t ∨ Created strict name k s t))
      (fun _ t => Returned strict s t ∧ Quiet strict s t) never := by
  rw [sfsCreat,wp_bind]
  apply wp_ends (sfsDirFindname_spec inv.consistent inv.root dirLoaded inv.dir name)
  · rintro r s1 ⟨searched,m,rfl⟩
    have inv1 := inv.later (Later.tick s m)
    have quiet1 : Quiet strict s (s.tick m) := .later inv (Later.tick s m)
    cases found : r.found with
    | some e =>
      obtain ⟨ino,slot⟩ := e
      obtain ⟨inside,used,same,number⟩ := searched.found ino slot found
      have entry : Entry (s.tick m) name ino slot := ⟨⟨inside,used⟩,same,number.symm⟩
      simp only
      rw [wp_ite]
      refine ⟨fun _ => ?_,fun _ => ?_⟩
      · rw [wp_fail]
        exact ⟨.of_later inv (Later.tick s m),quiet1⟩
      · apply wp_ends (sfsLoadvnode_spec inv1.consistent entry.live)
        · rintro r t ⟨same,opened⟩
          subst r
          exact ⟨⟨inv1.opened entry.live opened,opened.handle⟩,
            .inl ⟨⟨slot,⟨entry.taken,entry.name,entry.number⟩⟩,
              quiet1.trans (.opened inv1 entry.live opened)⟩⟩
        · rintro _ t ⟨-,later⟩
          have both := (Later.tick s m).trans later
          exact ⟨.of_later inv both,.later inv both⟩
    | none =>
      have absent : ∀ j slot, ¬Entry s name j slot := fun j slot entry =>
        searched.absent found slot entry.taken.1 entry.taken.2 entry.name
      simp only [wp_bind]
      apply wp_ends (sfsMakeobj_exact inv1.consistent)
      · rintro k s2 ⟨made,blank⟩
        have got := made.obtained inv1
        have dir2 : s2.loaded 1 := got.still dirLoaded
        have quiet2 := quiet1.trans (.made inv1 made)
        have notRoot : k ≠ 1 := fun root => made.fresh (.inl root)
        rw [wp_attempt]
        apply wp_mono (wp_and
          (sfsDirLink_spec got.inv.consistent got.inv.root dir2 got.inv.dir name k)
          ((sfsDirLink_keeps (onlyVnode_ioFrame 1) name k).wp s2))
        · rintro slot t ⟨⟨cons,frame,room,vacant,view⟩,others⟩
          simp only [wp_bind,Sfs.wp_updateInode,wp_pure]
          refine ⟨⟨got.inv.link cons frame got.loaded made.nonzero made.fits room vacant view,
            (handle_edit t k _).trans (frame.handle.trans got.handle)⟩,.inr ?_⟩
          exact .of_link absent got.inv got.loaded notRoot made.nonzero made.fits blank cons frame room
            vacant view others
        · rintro code t ⟨⟨cons,frame,grown⟩,-⟩
          have quietT := quiet2.trans (.regrown got.inv cons frame grown)
          simp only [wp_bind]
          apply wp_total (vnodeDecref_return (got.inv.regrown cons frame grown) inv1
            (frame.handle.trans got.handle))
          rintro _ u ⟨back,released⟩
          have isLoaded : t.loaded k := frame.loaded.mpr got.loaded
          exact ⟨⟨back.inv,back.handle⟩,quietT.released (.of_loaded isLoaded)
            (fun h => absurd (quiet1.live k h) made.fresh) released⟩
        · exact fun _ _ h => h.1
      · rintro e t (⟨-,rfl⟩ | ⟨-,cons,frame⟩)
        · exact ⟨.of_later inv (Later.tick s m),quiet1⟩
        · exact ⟨⟨inv1.framed cons frame,fun _ => frame.handle⟩,quiet1.trans (.framed inv1 cons frame)⟩
  · rintro e _ ⟨-,-,m,rfl⟩
    exact ⟨.of_later inv (Later.tick s m),.later inv (Later.tick s m)⟩

theorem sfsCreat_spec (inv : Inv strict s) (dirLoaded : s.loaded 1) (name : CString) (excl : Bool) :
    (sfsCreat 1 name excl).wp s (fun k t => Obtained strict k s t)
      (fun _ t => Returned strict s t) never :=
  wp_mono (sfsCreat_exact inv dirLoaded name excl) (fun _ _ h => h.1) (fun _ _ h => h.1)
    fun _ _ h => h

theorem Unlinked.of_kept (unlinked : Unlinked k slot t u) (kept : NamesKept s t)
    (live : ∀ j, s.Live j → t.Live j) (entry : (t.view 1).entry = (s.view 1).entry) :
    Unlinked k slot s u := by
  refine ⟨fun n j => ?_,fun j h => ?_⟩
  · rw [unlinked.names,kept.names,entry]
  · rw [unlinked.links j (live j h),kept.links j h]

theorem Unlinked.released (unlinked : Unlinked k slot s t) (inv : Inv strict t)
    (live : ∀ j, s.Live j → t.Live j) (h : t.Live k)
    (released : Released strict t.Live k t u) : Unlinked k slot s u := by
  refine ⟨fun n j => ?_,fun j hj => ?_⟩
  · rw [inv.released_dir h released]
    exact unlinked.names n j
  · rw [links_released released (live j hj)]
    exact unlinked.links j hj

/-- The second half of `sfs_remove` and of `sfs_rename`: an entry is cleared, the link
count follows, and the reference is given up. -/
theorem unlinked_spec (inv : Inv strict s) (before : Inv strict t)
    (handle : s.handle = update t.handle k (some (Handle.more (t.handle k))))
    (taken : (s.view 1).Taken slot) (number : ((s.view 1).entry slot).sfdIno.toNat = k)
    (cons : Consistent strict s.Live ∅ u) (frame : Frame (Others s.Live 1) s u)
    (view : u.view 1 = (s.view 1).writeSlot slot (SfsDir.make 0 [])) (site : Panic) :
    (lowerLinks k site).wp u
      (fun _ w => (vnodeDecref k).wp w (fun _ t' => Returned strict t t' ∧ Unlinked k slot s t')
        never never) never never := by
  have isLoaded : s.loaded k := loaded_iff_handle.mpr ⟨_,by rw [handle,update_self]⟩
  obtain ⟨v,found⟩ := loaded_iff.mp (frame.loaded.mpr isLoaded)
  have named : (u.view k).links ≠ 0 := by
    have same : (u.view k).links = (s.view k).links := by
      by_cases atRoot : k = 1
      · rw [atRoot,view]
        rfl
      · rw [frame.views k ⟨.of_loaded isLoaded,atRoot⟩]
    rw [same]
    exact (inv.named_iff (.of_loaded isLoaded)).mpr (Or.inr ⟨slot,taken,number⟩)
  have counted : v.svI.sfiLinkcount > 0 := by
    have := mt (links_zero_iff found).mpr named
    exact UInt16.pos_iff_ne_zero.mpr this
  simp only [lowerLinks,wp_bind,Sfs.wp_vnode found,wp_assert,counted,decide_true,
    if_true,Sfs.wp_updateInode]
  have after := inv.unlink cons frame isLoaded taken number view
  have live := fun j => inv.live_unlink frame isLoaded taken number view (j := j)
  apply wp_imp (vnodeDecref_return after before
    ((handle_edit u k _).trans (frame.handle.trans handle)))
  rintro _ w ⟨returned,released⟩
  exact ⟨returned,(inv.unlinked cons frame isLoaded taken number view).released after live
    (live k (.of_loaded isLoaded)) released⟩

theorem sfsRemove_spec (inv : Inv strict s) (dirLoaded : s.loaded 1) (name : CString) :
    (sfsRemove 1 name).wp s (fun _ t => Returned strict s t) (fun _ t => Returned strict s t)
      never := by
  rw [sfsRemove,wp_bind]
  apply wp_ends (sfsLookonce_spec inv dirLoaded name)
  · rintro ⟨victim,slot⟩ s1 ⟨entry,opened⟩
    have got := opened.obtained inv entry.live
    have dir : s1.view 1 = s.view 1 := opened.views 1 inv.root
    have taken : (s1.view 1).Taken slot := by rw [dir]; exact entry.taken
    have number : ((s1.view 1).entry slot).sfdIno.toNat = victim := by rw [dir]; exact entry.number
    simp only [wp_bind,wp_attempt]
    apply wp_ends (sfsDirUnlink_spec got.inv (got.still dirLoaded) taken)
    · rintro _ t ⟨cons,frame,view,-⟩
      apply wp_total (unlinked_spec got.inv inv got.handle taken number cons frame view
        .removeLinkcount)
      exact fun _ _ last => wp_mono last (fun _ _ h => h.1) (fun _ _ => False.elim)
        (fun _ _ h => h)
    · rintro code t ⟨invT,handle,-,-⟩
      apply wp_total (vnodeDecref_return invT inv (handle.trans got.handle))
      exact fun _ _ h => ⟨h.1.inv,h.1.handle⟩
  · exact fun _ _ later => .of_later inv later

variable {v : SfsVnode}

/-- In `puke_harder` the count is lowered without setting the dirty flag, which is still
set from when the count was raised. -/
theorem update_links (nodup : (s.sfsVnodes.map SfsVnode.svIno).Nodup)
    (found : s.vnode? k = some v) (dirty : v.svDirty = true) (g : UInt16 → UInt16) :
    s.update k (fun v => { v with svI := { v.svI with sfiLinkcount := g v.svI.sfiLinkcount } }) =
      s.relinked k g := by
  unfold relinked edit SfsFs.update
  congr 1
  apply List.map_congr_left
  intro w mem
  split
  · rename_i ino
    have same : s.vnode? w.svIno = some w := vnode?_of_mem nodup mem
    rw [ino,found] at same
    obtain rfl := Option.some.inj same
    rw [← dirty]
  · rfl

theorem renameUndo_spec (inv : Inv strict s) (dirLoaded : s.loaded 1) (notRoot : k ≠ 1) (found : s.vnode? k = some v) (dirty : v.svDirty = true)
    (taken : (s.view 1).Taken slot) (number : ((s.view 1).entry slot).sfdIno.toNat = k) :
    (renameUndo 1 k slot).wp s
      (fun _ t => Inv strict t ∧ t.handle = s.handle ∧ Unlinked k slot s t ∧
        ∀ j, s.Live j → t.Live j) never
      (fun site t => site = .renameCannotRecover ∧ ¬strict ∧ Inv strict t) := by
  rw [renameUndo,wp_bind,wp_attempt]
  apply wp_safe (sfsDirUnlink_spec inv dirLoaded taken)
  · rintro _ t ⟨cons,frame,view,others⟩
    have foundT : t.vnode? k = some v := by rw [others k notRoot,found]
    simp only [Sfs.update,wp_modify]
    rw [update_links cons.table.nodup foundT dirty (· - 1)]
    have isLoaded : s.loaded k := loaded_iff.mpr ⟨v,found⟩
    exact ⟨inv.unlink cons frame isLoaded taken number view,
      (handle_relinked t k _).trans frame.handle,
      inv.unlinked cons frame isLoaded taken number view,
      fun j => inv.live_unlink frame isLoaded taken number view⟩
  · rintro _ t ⟨invT,-,-,lax,-⟩
    exact ⟨rfl,lax,invT⟩

theorem renameUnlink_spec (inv : Inv strict s) (before : Inv strict t)
    (handle : s.handle = update t.handle k (some (Handle.more (t.handle k))))
    (dirLoaded : s.loaded 1) (notRoot : k ≠ 1) (found : s.vnode? k = some v)
    (dirty : v.svDirty = true) {slot2 : Nat}
    (old : (s.view 1).Taken slot ∧ ((s.view 1).entry slot).sfdIno.toNat = k)
    (new : (s.view 1).Taken slot2 ∧ ((s.view 1).entry slot2).sfdIno.toNat = k) :
    (renameUnlink 1 k slot slot2).wp s (fun _ u => Returned strict t u ∧ Unlinked k slot s u)
      (fun _ u => Returned strict t u ∧ Unlinked k slot2 s u)
      (fun site u => Inv strict u ∧ site = .renameCannotRecover ∧ ¬strict) := by
  rw [renameUnlink,wp_bind,wp_attempt]
  apply wp_safe (sfsDirUnlink_spec inv dirLoaded old.1)
  · rintro _ u ⟨cons,frame,view,-⟩
    simp only [wp_bind]
    apply wp_total (unlinked_spec inv before handle old.1 old.2 cons frame view
      .renameLinkcount)
    exact fun _ _ last => wp_mono last (fun _ _ h => h) (fun _ _ => False.elim)
      (fun _ _ => False.elim)
  · rintro code u ⟨invU,handleU,others,-,same⟩
    have foundU : u.vnode? k = some v := by rw [others k notRoot,found]
    have dirU : u.loaded 1 := by
      rw [loaded_iff_handle,handleU,← loaded_iff_handle]
      exact dirLoaded
    have takenU : (u.view 1).Taken slot2 := (same.taken slot2).mpr new.1
    have numberU : ((u.view 1).entry slot2).sfdIno.toNat = k := by rw [same.entry]; exact new.2
    simp only [wp_bind]
    apply wp_sure (renameUndo_spec invU dirU notRoot foundU dirty takenU numberU)
    · rintro _ w ⟨invW,handleW,unlinked,live⟩
      have liveK : w.Live k := live k (.of_loaded (loaded_iff.mpr ⟨v,foundU⟩))
      apply wp_total (vnodeDecref_return invW before (handleW.trans (handleU.trans handle)))
      rintro _ x ⟨returned,released⟩
      exact ⟨returned,(unlinked.released invW live liveK released).of_kept
        (inv.unchanged_namesKept invU handleU same)
        (fun j => (live_unchanged handleU same j).mpr) same.entry⟩
    · exact fun _ _ h => ⟨h.2.2,h.1,h.2.1⟩

structure Linked (k : Nat) (name : List UInt8) (s t : SfsFs) : Prop where
  names : ∀ n j, (t.view 1).Names n j ↔ (s.view 1).Names n j ∨ (n = name ∧ j = k)
  live : ∀ j, s.Live j → t.Live j
  links : ∀ j, s.Live j → (t.view j).links = (s.view j).links + if j = k then 1 else 0

theorem SfsFs.Inv.linked {name : CString} (inv : Inv strict s) (c : Consistent strict s.Live ∅ t)
    (frame : Frame (Others s.Live 1) s t) (isLoaded : s.loaded k) (room : slot * 64 + 64 ≤ 143 * 512)
    (vacant : (s.view 1).Vacant name.chars slot)
    (view : t.view 1 = (s.view 1).writeSlot slot (SfsDir.make k name.chars)) :
    Linked k name.chars s (t.relinked k (· + 1)) := by
  have loadedT : t.loaded k := frame.loaded.mpr isLoaded
  obtain ⟨nonzero,fits⟩ := inv.ino (.of_loaded isLoaded)
  have counts := FileView.linksTo_link inv.dir.aligned vacant nonzero fits
  simp only [← view,← linksTo_relinked loadedT (· + 1)] at counts
  have live : ∀ j, s.Live j → (t.relinked k (· + 1)).Live j := by
    rintro j (root | loadedJ | linkedJ)
    · exact .inl root
    · exact .of_loaded ((loaded_relinked t k _ j).mpr (frame.loaded.mpr loadedJ))
    · have := linked_iff.mp linkedJ
      exact .inr (.inr (linked_iff.mpr (by rw [counts]; omega)))
  refine ⟨fun n j => ?_,live,fun j h => ?_⟩
  · rw [names_relinked loadedT,view]
    exact FileView.names_link inv.dir.aligned vacant nonzero fits n j
  · exact inv.links_of_counts (a := 0)
      (inv.link c frame isLoaded nonzero fits room vacant view) h (live j h) (counts j)

theorem FileView.Vacant.unnamed {v : FileView} {name : List UInt8} (vacant : v.Vacant name slot)
    (j : Nat) : ¬v.Names name j := fun ⟨i,taken,same,_⟩ => vacant.fresh i taken same

/-- The directory after `sfs_rename`: the new name stands for what the old one stood for. -/
structure Renamed (n1 n2 : List UInt8) (s t : SfsFs) : Prop where
  found : ∃ k, (s.view 1).Names n1 k
  names : ∀ n j, (t.view 1).Names n j ↔
    if n = n2 then (s.view 1).Names n1 j else n ≠ n1 ∧ (s.view 1).Names n j
  links : ∀ j, s.Live j → (t.view j).links = (s.view j).links

theorem FileView.Names.unique {v : FileView} (isDir : v.IsDir) {n : List UInt8} {j : Nat}
    (one : v.Names n j) (other : v.Names n k) : j = k := by
  obtain ⟨a,takenA,nameA,rfl⟩ := one
  obtain ⟨b,takenB,nameB,rfl⟩ := other
  rw [isDir.distinct a b takenA takenB (nameA.trans nameB.symm)]

theorem Linked.renamed {n1 n2 : List UInt8} (linked : Linked k n2 s t)
    (unlinked : Unlinked k slot t u) (gone : ((t.view 1).entry slot).name = n1)
    (isDir : (s.view 1).IsDir) (old : (s.view 1).Names n1 k)
    (new : ∀ j, ¬(s.view 1).Names n2 j) : Renamed n1 n2 s u := by
  have apart : n2 ≠ n1 := by
    rintro rfl
    exact new k old
  refine ⟨⟨k,old⟩,fun n j => ?_,fun j h => ?_⟩
  · rw [unlinked.names,linked.names,gone]
    by_cases same : n = n2
    · rw [if_pos same,same]
      refine ⟨fun h => ?_,fun h => ⟨.inr ⟨rfl,h.unique isDir old⟩,apart⟩⟩
      rcases h.1 with there | ⟨-,rfl⟩
      · exact absurd there (new j)
      · exact old
    · rw [if_neg same]
      simp only [same,false_and,or_false,and_comm]
  · have := unlinked.links j (linked.live j h)
    rw [linked.links j h] at this
    omega

theorem Linked.undone {name : List UInt8} (linked : Linked k name s t)
    (unlinked : Unlinked k slot t u) (gone : ((t.view 1).entry slot).name = name)
    (new : ∀ j, ¬(s.view 1).Names name j) : NamesKept s u := by
  refine ⟨fun n j => ?_,fun j h => ?_⟩
  · rw [unlinked.names,linked.names,gone]
    by_cases same : n = name
    · rw [same]
      exact ⟨fun h => absurd rfl h.2,fun h => absurd h (new j)⟩
    · simp only [same,false_and,or_false,ne_eq,not_false_eq_true,and_true]
  · have := unlinked.links j (linked.live j h)
    rw [linked.links j h] at this
    omega

/-- `sfs_rename` after the lookup. It panics if the old name belongs to the root
directory, or if the device fails twice. -/
theorem renameFound_spec (inv : Inv strict s) (before : Inv strict t)
    (handle : s.handle = update t.handle k (some (Handle.more (t.handle k))))
    (dirLoaded : s.loaded 1) {n1 : CString} (old : Entry s n1 k slot) (n2 : CString) :
    (renameFound 1 k slot n2).wp s
      (fun _ u => Returned strict t u ∧ Renamed n1.chars n2.chars s u)
      (fun _ u => Returned strict t u ∧ NamesKept s u)
      (fun site u => Inv strict u ∧
        (site = .renameType ∧ k = 1 ∨ site = .renameCannotRecover ∧ ¬strict)) := by
  have isLoaded : s.loaded k := loaded_iff_handle.mpr ⟨_,by rw [handle,update_self]⟩
  obtain ⟨nonzero,fits⟩ := inv.ino (.of_loaded isLoaded)
  obtain ⟨v,found⟩ := loaded_iff.mp isLoaded
  have type : v.svI.sfiType = if k = 1 then sfsTypeDir else sfsTypeFile := by
    rw [← inode_of_loaded found]
    exact inv.consistent.typed k (.of_loaded isLoaded)
  simp only [renameFound,wp_bind,Sfs.wp_vnode found,wp_assert]
  by_cases atRoot : k = 1
  · rw [if_pos atRoot] at type
    rw [if_neg (by rw [type]; decide)]
    exact ⟨inv,Or.inl ⟨trivial,atRoot⟩⟩
  rw [if_neg atRoot] at type
  rw [if_pos (by rw [type]; decide),wp_attempt]
  apply wp_safe (sfsDirLink_spec inv.consistent inv.root dirLoaded inv.dir n2 k)
  · rintro slot2 u ⟨cons,frame,room,vacant,view⟩
    have invU : Inv strict (u.relinked k (· + 1)) :=
      inv.link cons frame isLoaded nonzero fits room vacant view
    have linked := inv.linked cons frame isLoaded room vacant view
    have dirU : (u.relinked k (· + 1)).view 1 =
        (s.view 1).writeSlot slot2 (SfsDir.make k n2.chars) := by
      rw [view_relinked_other (frame.loaded.mpr isLoaded) _ fun e => atRoot e.symm,view]
    have handleU : (u.relinked k (· + 1)).handle = s.handle :=
      (handle_relinked u k _).trans frame.handle
    have apart : slot ≠ slot2 := by
      rintro rfl
      exact old.taken.2 (vacant.empty old.taken.1)
    have stored := SfsDir.make_ino fits n2.chars
    obtain ⟨w,atK⟩ := loaded_iff.mp (frame.loaded.mpr isLoaded)
    have dirLoadedU : (u.relinked k (· + 1)).loaded 1 := by
      rw [loaded_iff_handle,handleU,← loaded_iff_handle]
      exact dirLoaded
    have foundU : (u.relinked k (· + 1)).vnode? k = some { w with
        svI := { w.svI with sfiLinkcount := w.svI.sfiLinkcount + 1 }, svDirty := true } := by
      rw [relinked,vnode?_edit,if_pos rfl,atK]
      rfl
    have oldU : Entry (u.relinked k (· + 1)) n1 k slot := by
      refine ⟨?_,?_,?_⟩
      · rw [dirU,FileView.taken_writeSlot inv.dir.aligned vacant.place,if_neg apart]
        exact old.taken
      · rw [dirU,FileView.entry_writeSlot,if_neg apart,old.name]
      · rw [dirU,FileView.entry_writeSlot,if_neg apart,old.number]
    have newU : Entry (u.relinked k (· + 1)) n2 k slot2 := by
      refine ⟨?_,?_,?_⟩
      · rw [dirU,FileView.taken_writeSlot inv.dir.aligned vacant.place,if_pos rfl]
        exact fun zero => nonzero (stored.symm.trans (congrArg UInt32.toNat zero))
      · rw [dirU,FileView.entry_writeSlot,if_pos rfl,SfsDir.make_name k n2 vacant.short]
      · rw [dirU,FileView.entry_writeSlot,if_pos rfl,stored]
    simp only [wp_bind,Sfs.wp_updateInode]
    apply wp_mono (renameUnlink_spec invU before (handleU.trans handle) dirLoadedU atRoot foundU
      rfl ⟨oldU.taken,oldU.number⟩ ⟨newU.taken,newU.number⟩)
    · rintro _ x ⟨returned,unlinked⟩
      exact ⟨returned,linked.renamed unlinked oldU.name inv.dir ⟨slot,old.taken,old.name,old.number⟩
        vacant.unnamed⟩
    · rintro _ x ⟨returned,unlinked⟩
      exact ⟨returned,linked.undone unlinked newU.name vacant.unnamed⟩
    · exact fun _ _ h => ⟨h.1,Or.inr h.2⟩
  · rintro code u ⟨cons,frame,grown⟩
    have invU := inv.regrown cons frame grown
    have same := grown.unchanged inv.dir inv.beyond
    have live := live_unchanged frame.handle same
    simp only [wp_bind]
    apply wp_total (vnodeDecref_return invU before (frame.handle.trans handle))
    rintro _ x ⟨returned,released⟩
    exact ⟨returned,(inv.unchanged_namesKept invU frame.handle same).trans
      (fun j => (live j).mpr)
      (invU.released_namesKept ((live k).mpr (.of_loaded isLoaded)) released)⟩

theorem sfsRename_exact (inv : Inv strict s) (dirLoaded : s.loaded 1) (n1 n2 : CString) :
    (sfsRename 1 n1 1 n2).wp s
      (fun _ t => Returned strict s t ∧ Renamed n1.chars n2.chars s t)
      (fun _ t => Returned strict s t ∧ NamesKept s t)
      (fun site t => Inv strict t ∧ (site = .renameType ∧ (∃ slot, Entry s n1 1 slot) ∨
        site = .renameCannotRecover ∧ ¬strict)) := by
  simp only [sfsRename,wp_bind,wp_assert,decide_true,if_true]
  apply wp_safe (sfsLookonce_spec inv dirLoaded n1)
  · rintro ⟨k,slot⟩ s1 ⟨entry,opened⟩
    have got := opened.obtained inv entry.live
    have dir : s1.view 1 = s.view 1 := opened.views 1 inv.root
    have kept : NamesKept s s1 := .of_views inv opened.views
    have live : ∀ j, s.Live j → s1.Live j := fun j h => by
      rw [Live,linked_congr dir]
      exact h.imp_right (Or.imp_left got.still)
    have old : Entry s1 n1 k slot := by
      refine ⟨?_,?_,?_⟩
      · rw [dir]; exact entry.taken
      · rw [dir]; exact entry.name
      · rw [dir]; exact entry.number
    apply wp_mono (renameFound_spec got.inv inv got.handle (got.still dirLoaded) old n2)
    · rintro _ t ⟨returned,renamed⟩
      refine ⟨returned,by simpa only [dir] using renamed.found,fun n j => ?_,fun j h => ?_⟩
      · rw [renamed.names,dir]
      · rw [renamed.links j (live j h),kept.links j h]
    · exact fun _ _ h => ⟨h.1,kept.trans live h.2⟩
    · rintro site t ⟨invT,⟨isType,root⟩ | twice⟩
      · simp only at root
        subst root
        exact ⟨invT,Or.inl ⟨isType,slot,entry⟩⟩
      · exact ⟨invT,Or.inr twice⟩
  · exact fun _ _ later => ⟨.of_later inv later,Later.namesKept inv later⟩

theorem sfsRename_spec (inv : Inv strict s) (dirLoaded : s.loaded 1) (n1 n2 : CString) :
    (sfsRename 1 n1 1 n2).wp s (fun _ t => Returned strict s t) (fun _ t => Returned strict s t)
      (fun site t => Inv strict t ∧ (site = .renameType ∧ (∃ slot, Entry s n1 1 slot) ∨
        site = .renameCannotRecover ∧ ¬strict)) :=
  wp_mono (sfsRename_exact inv dirLoaded n1 n2) (fun _ _ h => h.1) (fun _ _ h => h.1)
    (fun _ _ h => h)

theorem SfsFs.Inv.rootVnode (inv : Inv strict s) (dirLoaded : s.loaded 1) :
    ∃ v, s.vnode? 1 = some v ∧ v.svI.sfiType = sfsTypeDir := by
  obtain ⟨v,found⟩ := loaded_iff.mp dirLoaded
  have type := inv.consistent.typed 1 inv.root
  rw [if_pos rfl,inode_of_loaded found] at type
  exact ⟨v,found,type⟩

theorem sfsRename_root (inv : Inv strict s) (dirLoaded : s.loaded 1) (reliable : s.disk.Reliable)
    {n1 : CString} (entry : Entry s n1 1 slot) (n2 : CString) :
    (sfsRename 1 n1 1 n2).wp s never never
      (fun site _ => site = .renameType) := by
  simp only [sfsRename,wp_bind,wp_assert,decide_true,if_true]
  apply wp_safe (sfsLookonce_exact inv dirLoaded n1)
  · rintro ⟨k,i⟩ s1 ⟨other,opened⟩
    obtain rfl : 1 = k := entry.unique inv.dir other
    have got := opened.obtained inv inv.root
    obtain ⟨v,found,type⟩ := got.inv.rootVnode got.loaded
    simp only [renameFound,wp_bind,Sfs.wp_vnode found,wp_assert]
    rw [if_neg (by rw [type]; decide)]
    trivial
  · exact fun _ _ missing => missing.2 reliable 1 slot dirLoaded entry

section
variable (inv : Inv strict s) (dirLoaded : s.loaded 1) (path : CString)
include inv dirLoaded path

theorem sfsLookup_exact :
    (sfsLookup 1 path).wp s
      (fun k t => (∃ slot, Entry s path k slot) ∧ Opened strict s.Live ∅ k s t)
      (fun _ t => Later s t) never := by
  obtain ⟨v,found,type⟩ := inv.rootVnode dirLoaded
  simp only [sfsLookup,wp_bind,Sfs.wp_vnode found]
  rw [if_neg (not_not_intro type),wp_bind]
  apply wp_ends (sfsLookonce_spec inv dirLoaded path)
  · rintro r t ⟨entry,opened⟩
    exact ⟨⟨r.2,entry⟩,opened⟩
  · exact fun _ _ later => later

theorem sfsLookup_spec :
    (sfsLookup 1 path).wp s (fun k t => Obtained strict k s t) (fun _ t => Returned strict s t)
      never := by
  apply wp_ends (sfsLookup_exact inv dirLoaded path)
  · rintro k t ⟨⟨slot,entry⟩,opened⟩
    exact opened.obtained inv entry.live
  · exact fun _ _ later => .of_later inv later

theorem sfsLookparent_exact
    (buflen : Nat) :
    (sfsLookparent 1 path buflen).wp s
      (fun r t => r = (1,path) ∧ path.chars.length + 1 ≤ buflen ∧ Opened strict s.Live ∅ 1 s t)
      (fun _ t => t = s ∧ buflen < path.chars.length + 1) never := by
  obtain ⟨v,found,type⟩ := inv.rootVnode dirLoaded
  simp only [sfsLookparent,wp_bind,Sfs.wp_vnode found]
  rw [if_neg (not_not_intro type),wp_ite]
  refine ⟨fun long => ⟨rfl,long⟩,fun short => ?_⟩
  simp only [wp_bind,wp_pure]
  apply wp_total (vnodeIncref_spec inv.consistent dirLoaded)
  exact fun _ t opened => ⟨trivial,Nat.le_of_not_lt short,opened⟩

theorem sfsLookparent_spec
    (buflen : Nat) :
    (sfsLookparent 1 path buflen).wp s (fun r t => r = (1,path) ∧ Obtained strict 1 s t)
      (fun _ t => t = s) never :=
  wp_mono (sfsLookparent_exact inv dirLoaded path buflen)
    (fun _ _ h => ⟨h.1,h.2.2.obtained inv inv.root⟩) (fun _ _ h => h.1) (fun _ _ h => h)

end

theorem sfsLoadvnode_inv (inv : Inv strict s) (h : s.Live k) :
    (sfsLoadvnode k sfsTypeInval).wp s (fun r t => r = k ∧ Obtained strict k s t)
      (fun _ t => ¬strict ∧ Returned strict s t) never := by
  apply wp_ends (sfsLoadvnode_spec inv.consistent h)
  · rintro r t ⟨same,opened⟩
    exact ⟨same,opened.obtained inv h⟩
  · rintro _ t ⟨lax,later⟩
    exact ⟨lax,.of_later inv later⟩

end Operations
end Os161
