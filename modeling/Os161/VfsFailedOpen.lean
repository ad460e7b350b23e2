import Os161.VnodePins

/-! A `vfs_open` that returns an error. It has made or looked up the file by then, and in two ways it
leaves something behind: a file made under a new name stays when the flags turn it away, and a
truncation that cannot read the indirect block has already cut off the direct ones. The device and
`kmalloc` may fail at any time. -/
namespace Os161

open SfsFs

/-- The names, the link counts, and the size and contents of every regular file are as they were. -/
structure Undisturbed (s t : SfsFs) : Prop where
  kept : NamesKept s t
  sizes : ∀ j, s.Live j → j ≠ 1 → (t.view j).size = (s.view j).size
  contents : ∀ j, s.Live j → j ≠ 1 → ∀ o < (s.view j).size, (t.view j).content o = (s.view j).content o

def CutsShort (s : SfsFs) (k : Nat) : Prop :=
  k ≠ 1 ∧ s.indirect k ≠ 0 ∧ s.Down 0 ∧
  ∃ o < 15 * 512, o < (s.view k).size ∧ (s.view k).content o ≠ 0

section Holding
variable {strict : Prop} {s t u : SfsFs} {j k : Nat}

def Twice (s : SfsFs) (k : Nat) : Prop := ∃ refs opens, s.handle k = some (refs + 2,opens)

theorem Quiet.undisturbed (quiet : Quiet strict s t) : Undisturbed s t where
  kept := quiet.kept
  sizes j h notRoot := by rw [quiet.files j h notRoot]
  contents j h notRoot o _ := by rw [quiet.files j h notRoot]

theorem Undisturbed.trans (first : Undisturbed s t) (live : ∀ j, s.Live j → t.Live j)
    (second : Undisturbed t u) : Undisturbed s u where
  kept := first.kept.trans live second.kept
  sizes j h notRoot := (second.sizes j (live j h) notRoot).trans (first.sizes j h notRoot)
  contents j h notRoot o below :=
    (second.contents j (live j h) notRoot o (by rwa [first.sizes j h notRoot])).trans
      (first.contents j h notRoot o below)

theorem Obtained.twice (inv : Inv strict s) (isLoaded : s.loaded k) (got : Obtained strict k s t) :
    Twice t k := by
  obtain ⟨⟨refs,opens⟩,at_⟩ := loaded_iff_handle.mp isLoaded
  have positive := inv.positive _ at_
  refine ⟨refs - 1,opens,?_⟩
  rw [got.handle,Function.update_self,at_]
  simp only [Handle.more,Option.some.injEq,Prod.mk.injEq,and_true]
  simp only at positive
  omega

theorem vnodeDecref_quiet (inv : Inv strict s) (named : (s.view k).links ≠ 0) :
    (vnodeDecref k).wp s
      (fun _ t => Quiet strict s t ∧ OnlyVnode k s t ∧ (Twice s k → t.loaded k))
      never (fun _ _ => True) := by
  by_cases isLoaded : s.loaded k
  case neg =>
    simp only [vnodeDecref,Sfs.vnode,wp_bind,wp_read,not_loaded_iff.mp isLoaded,
      wp_panic]
  have h : s.Live k := .of_loaded isLoaded
  apply wp_liberal (wp_and (vnodeDecref_spec inv.consistent h isLoaded inv.notRoot)
    (vnodeDecref_others.wp s))
  · rintro _ t ⟨⟨released,-⟩,others⟩
    refine ⟨(Quiet.refl inv).released h (fun _ => named) released,others,?_⟩
    rintro ⟨refs,opens,at_⟩
    obtain ⟨g,handle,less⟩ := released.handle
    rw [loaded_update handle,if_pos rfl]
    rcases less with rfl | ⟨-,rfl⟩
    · rw [at_]
      rfl
    · rw [at_]
      rfl
  · exact fun _ _ h => h.1

theorem loaded_others (others : OnlyVnode k s t) (ne : j ≠ k) (isLoaded : s.loaded j) :
    t.loaded j := by
  obtain ⟨v,found⟩ := loaded_iff.mp isLoaded
  exact loaded_iff.mpr ⟨v,(others j ne).trans found⟩

theorem vnodeDecref_root (inv : Inv strict s) (dirLoaded : s.loaded 1) (got : Obtained strict k s t) :
    (vnodeDecref 1).wp t
      (fun _ u => Quiet strict t u ∧ OnlyVnode 1 t u ∧ u.loaded k) never
      (fun _ _ => True) := by
  have named : (t.view 1).links ≠ 0 := (got.inv.named_iff got.inv.root).mpr (.inl rfl)
  apply wp_liberal (vnodeDecref_quiet got.inv named)
  · rintro _ u ⟨quiet,others,stays⟩
    refine ⟨quiet,others,?_⟩
    by_cases root : k = 1
    · subst root
      exact stays (got.twice inv dirLoaded)
    · exact loaded_others others root got.loaded
  · exact fun _ _ h => h

end Holding

section Open
variable {strict : Prop} {s t u : SfsFs} {k : Nat} {openflags : UInt32}

theorem getdevice_quiet (inv : Inv strict s) (path : CString) :
    (getdevice path).wp s
      (fun r t => r = (1,path.subpath) ∧ Quiet strict s t ∧ t.loaded 1)
      never (fun _ _ => True) := by
  simp only [getdevice,sfsGetroot,wp_bind,wp_attempt]
  apply wp_liberal (sfsLoadvnode_spec inv.consistent inv.root)
  · rintro k t ⟨rfl,opened⟩
    exact ⟨rfl,.opened inv inv.root opened,(opened.obtained inv inv.root).loaded⟩
  · exact fun _ _ _ => trivial

structure Found (strict : Prop) (k : Nat) (s t : SfsFs) : Prop where
  quiet : Quiet strict s t
  loaded : t.loaded k
  named : (t.view k).links ≠ 0

theorem Quiet.named (h : s.Live k) (quiet : Quiet strict s t)
    (named : (s.view k).links ≠ 0) : (t.view k).links ≠ 0 := by
  rw [quiet.kept.links k h]
  exact named

theorem vfsLookup_found (inv : Inv strict s) (path : CString) :
    (vfsLookup path).wp s (fun k t => Found strict k s t) (fun _ t => Quiet strict s t)
      (fun _ _ => True) := by
  rw [vfsLookup,wp_bind]
  apply wp_through (getdevice_quiet inv path)
  rintro _ t ⟨rfl,quiet,dirLoaded⟩
  have named : (t.view 1).links ≠ 0 := (quiet.inv.named_iff quiet.inv.root).mpr (.inl rfl)
  simp only
  rw [wp_ite]
  refine ⟨fun _ => ⟨quiet,dirLoaded,named⟩,fun _ => ?_⟩
  simp only [wp_bind,wp_attempt]
  rw [vopLookup,wp_dirOnly quiet.inv dirLoaded]
  apply wp_liberal (sfsLookup_exact quiet.inv dirLoaded path.subpath)
  · rintro k u ⟨⟨slot,entry⟩,opened⟩
    have step := Quiet.opened quiet.inv entry.live opened
    apply wp_through (vnodeDecref_root quiet.inv dirLoaded (opened.obtained quiet.inv entry.live))
    rintro _ w ⟨last,-,stays⟩
    have namedK : (t.view k).links ≠ 0 :=
      (quiet.inv.named_iff entry.live).mpr (.inr ⟨slot,entry.taken,entry.number⟩)
    exact ⟨(quiet.trans step).trans last,stays,
      (step.trans last).named entry.live namedK⟩
  · intro e u later
    have step := Quiet.later quiet.inv later
    apply wp_through (vnodeDecref_quiet step.inv (step.named quiet.inv.root named))
    exact fun _ _ done => (quiet.trans step).trans done.1

variable {name : CString}

theorem Created.quiet (created : Created strict name k s t) (quiet : Quiet strict t u)
    (stays : u.loaded k) (indirect : u.indirect k = t.indirect k) : Created strict name k s u where
  inv := quiet.inv
  loaded := stays
  notRoot := created.notRoot
  absent := created.absent
  named := (quiet.kept.names _ _).mpr created.named
  indirect := indirect.trans created.indirect

theorem Entry.before {slot : Nat} (quiet : Quiet strict s t)
    (entry : Entry t name k slot) : ∃ slot, Entry s name k slot := by
  obtain ⟨i,taken,same,number⟩ :=
    (quiet.kept.names _ _).mp ⟨slot,entry.taken,entry.name,entry.number⟩
  exact ⟨i,taken,same,number⟩

theorem Cut.undisturbed (cut : Cut strict s.Live k (keepDirect 0) s t) (inv : Inv strict s)
    (notRoot : k ≠ 1) (present : s.indirect k ≠ 0) (down : s.Down 0) (whole : ¬CutsShort s k) :
    Undisturbed s t := by
  have dir : t.view 1 = s.view 1 := cut.frame.views 1 ⟨inv.root,notRoot.symm⟩
  have links : (t.view k).links = (s.view k).links := by rw [cut.view]
  refine ⟨⟨fun n j => by rw [dir],fun j h => ?_⟩,fun j h _ => ?_,fun j h _ o below => ?_⟩
  all_goals
    by_cases same : j = k
    case neg => rw [cut.frame.views j ⟨h,same⟩]
    subst same
  · exact links
  · rw [cut.view]
  · rw [cut.view]
    by_cases near : o < 15 * 512
    · by_contra lost
      refine whole ⟨notRoot,present,down,o,near,below,fun zero => lost ?_⟩
      simp only [zero,ite_self]
    · have kept : keepDirect 0 (o / 512) = true := by
        simp only [keepDirect,Bool.or_eq_true,decide_eq_true_eq]
        omega
      simp only [kept,if_true]

variable {canwrite : Bool}

theorem Created.links (created : Created strict name k s t) :
    (t.view k).links ≠ 0 := by
  obtain ⟨slot,taken,-,number⟩ := created.named
  exact (created.inv.named_iff (.of_loaded created.loaded)).mpr (.inr ⟨slot,taken,number⟩)

theorem Found.before (found : Found strict k s t) (notRoot : k ≠ 1) : s.Live k := by
  rcases (found.quiet.inv.named_iff (.of_loaded found.loaded)).mp found.named with root | linked
  · exact absurd root notRoot
  · obtain ⟨slot,taken,number⟩ := linked
    obtain ⟨i,takenBefore,-,numberBefore⟩ := (found.quiet.kept.names _ k).mp ⟨slot,taken,rfl,number⟩
    exact .inr (.inr ⟨i,takenBefore,numberBefore⟩)

theorem Found.cut (found : Found strict k s t) (notRoot : k ≠ 1) (present : t.indirect k ≠ 0)
    (down : t.Down 0) (cut : Cut strict t.Live k (keepDirect 0) t u) {w : SfsFs}
    (quiet : Quiet strict u w) : Undisturbed s w ↔ ¬CutsShort t k := by
  have before : s.Live k := found.before notRoot
  have stays : ∀ j, t.Live j → u.Live j := fun j h => (cut.frame.live_iff notRoot j).mpr h
  constructor
  · rintro same ⟨-,-,-,o,near,below,nonzero⟩
    have view : t.view k = s.view k := found.quiet.files k before notRoot
    have wiped : (w.view k).content o = 0 := by
      have gone : keepDirect 0 (o / 512) = false := by
        simp only [keepDirect,Bool.or_eq_false_iff,decide_eq_false_iff_not]
        omega
      rw [quiet.files k (stays k (.of_loaded found.loaded)) notRoot,cut.view]
      simp only [gone,Bool.false_eq_true,if_false]
    rw [view] at below nonzero
    exact nonzero ((same.contents k before notRoot o below).symm.trans wiped)
  · intro whole
    have middle := cut.undisturbed found.quiet.inv notRoot present down whole
    exact (found.quiet.undisturbed.trans found.quiet.live middle).trans
      (fun j h => stays j (found.quiet.live j h)) quiet.undisturbed

end Open

end Os161
