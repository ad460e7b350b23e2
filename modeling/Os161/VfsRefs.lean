import Os161.VfsPath

/-! What the operations on pathnames do to the reference and open counts of the vnodes, on a
device that does not fail. Each call gives up every reference that it took, except the one
that it hands to its caller. -/
namespace Os161

open SfsFs

/-! Counting references -/

def another (counts : Nat → Nat) (k : Nat) : Nat → Nat :=
  fun j => counts j + if j = k then 1 else 0

/-- The counts of a vnode with `refs` references. Without any it is not in memory. -/
def Handle.of (refs opens : Nat) : Option (Nat × Nat) := if refs = 0 then none else some (refs,opens)

structure Tallied (refs opens : Nat → Nat) (s : SfsFs) : Prop where
  inv : Inv True s
  handle : ∀ k, s.handle k = Handle.of (refs k) (opens k)
  covered : ∀ k, opens k ≤ refs k

section Counts
variable {counts refs opens : Nat → Nat} {s t : SfsFs} {j k : Nat}

theorem another_comm : another (another counts j) k = another (another counts k) j := by
  funext i
  exact Nat.add_right_comm _ _ _

theorem le_another : counts j ≤ another counts k j := Nat.le_add_right _ _

theorem another_self : another counts k k = counts k + 1 := by rw [another,if_pos rfl]

theorem another_other (ne : j ≠ k) : another counts k j = counts j := by
  rw [another,if_neg ne,Nat.add_zero]

theorem another_pos : another counts k k ≠ 0 := by
  rw [another_self]
  exact Nat.succ_ne_zero _

theorem another_mono (le : ∀ i, opens i ≤ refs i) (i : Nat) : another opens k i ≤ another refs k i :=
  Nat.add_le_add_right (le i) _

theorem Handle.more_of {r o : Nat} (covered : o ≤ r) :
    some (Handle.more (Handle.of r o)) = Handle.of (r + 1) o := by
  cases r with
  | zero =>
    obtain rfl : o = 0 := Nat.le_zero.mp covered
    rfl
  | succ r => rfl

theorem Handle.less_of (r o : Nat) : Handle.less (Handle.of (r + 1) o) = Handle.of r o := by
  cases r <;> rfl

theorem handle_updated {g : Option (Nat × Nat)} {refs' opens' : Nat → Nat}
    (before : ∀ j, s.handle j = Handle.of (refs j) (opens j)) (after : t.handle = Function.update s.handle k g)
    (atK : g = Handle.of (refs' k) (opens' k))
    (others : ∀ j, j ≠ k → refs' j = refs j ∧ opens' j = opens j) (j : Nat) :
    t.handle j = Handle.of (refs' j) (opens' j) := by
  by_cases same : j = k
  · subst j
    rw [after,Function.update_self,atK]
  · rw [after,Function.update_of_ne same,before,(others j same).1,(others j same).2]

namespace Tallied

theorem loaded (tallied : Tallied refs opens s) (held : refs k ≠ 0) : s.loaded k :=
  loaded_iff_handle.mpr ⟨_,(tallied.handle k).trans (if_neg held)⟩

theorem update {g : Option (Nat × Nat)} {refs' opens' : Nat → Nat} (tallied : Tallied refs opens s)
    (inv : Inv True t) (handle : t.handle = Function.update s.handle k g)
    (atK : g = Handle.of (refs' k) (opens' k))
    (others : ∀ j, j ≠ k → refs' j = refs j ∧ opens' j = opens j) (covered : ∀ j, opens' j ≤ refs' j) :
    Tallied refs' opens' t :=
  ⟨inv,handle_updated tallied.handle handle atK others,covered⟩

theorem obtained (tallied : Tallied refs opens s) (got : Obtained True k s t) :
    Tallied (another refs k) opens t := by
  refine tallied.update got.inv got.handle ?_ (fun j ne => ⟨another_other ne,rfl⟩)
    fun j => Nat.le_trans (tallied.covered j) le_another
  rw [tallied.handle,Handle.more_of (tallied.covered k),another_self]

theorem returned (tallied : Tallied refs opens s) (back : Returned True s t) :
    Tallied refs opens t where
  inv := back.inv
  handle := by rw [back.handle trivial]; exact tallied.handle
  covered := tallied.covered

theorem wp_decref {ok : Unit → SfsFs → Prop} {err : Errno → SfsFs → Prop}
    {halt : Panic → SfsFs → Prop} (tallied : Tallied (another refs k) opens s)
    (covered : ∀ j, opens j ≤ refs j)
    (next : ∀ t, Tallied refs opens t → t.view 1 = s.view 1 → ok () t) :
    (vnodeDecref k).wp s ok err halt := by
  have isLoaded : s.loaded k := tallied.loaded another_pos
  have h : s.Live k := .of_loaded isLoaded
  have counts : s.handle k = Handle.of (refs k + 1) (opens k) := by
    rw [tallied.handle,another_self]
  apply wp_sure (vnodeDecref_spec tallied.inv.consistent h isLoaded tallied.inv.notRoot)
  · rintro _ t ⟨released,-⟩
    have dir : t.view 1 = s.view 1 :=
      released.views 1 tallied.inv.root fun e => (tallied.inv.named_iff h).mpr (Or.inl e.symm)
    obtain ⟨g,handle,rfl | ⟨lax,-⟩⟩ := released.handle
    · refine next t (tallied.update (tallied.inv.released h released) handle ?_
        (fun j ne => ⟨(another_other ne).symm,rfl⟩) covered) dir
      rw [counts,Handle.less_of]
    · exact absurd trivial lax
  · -- the last reference is never to an open vnode
    rintro _ _ ⟨-,⟨o,busy,last⟩,-⟩
    obtain ⟨one,rfl⟩ := Prod.mk.inj (Option.some.inj (counts.symm.trans last))
    have := covered k
    omega

theorem wp_decref_both {ok : Unit → SfsFs → Prop} {err : Errno → SfsFs → Prop}
    {halt : Panic → SfsFs → Prop} (tallied : Tallied (another (another refs j) k) opens s)
    (covered : ∀ i, opens i ≤ refs i) (next : ∀ t, Tallied refs opens t → ok () t) :
    (vnodeDecref k).wp s (fun _ t => (vnodeDecref j).wp t ok err halt) err halt := by
  refine tallied.wp_decref (fun i => Nat.le_trans (covered i) le_another) fun t one _ => ?_
  exact one.wp_decref covered fun u back _ => next u back

end Tallied

/-! The open count -/

namespace SfsFs
variable {strict : Prop} (f : Nat → Nat)

theorem vnode?_reopened : (s.reopened k f).vnode? j =
    if j = k then (s.vnode? j).map fun v => { v with vnOpencount := f v.vnOpencount }
    else s.vnode? j := by
  rw [reopened,vnode?_update]
  exact fun _ => rfl

theorem inode_reopened : (s.reopened k f).inode = s.inode := by
  rw [reopened,inode_update]
  all_goals exact fun _ => rfl

theorem view_reopened : (s.reopened k f).view j = s.view j :=
  view_withVnodes (congrFun (inode_reopened f) j)

theorem handle_reopened : (s.reopened k f).handle =
    Function.update s.handle k ((s.handle k).map fun g => (g.1,f g.2)) := by
  apply handle_of_vnode?
  · intro j ne
    rw [vnode?_reopened,if_neg ne]
  · rw [vnode?_reopened,if_pos rfl,handle,Option.map_map,Option.map_map]
    rfl

theorem loaded_reopened : (s.reopened k f).loaded j ↔ s.loaded j := by
  rw [loaded_update (handle_reopened f)]
  split
  · subst j
    rw [Option.isSome_map,Option.isSome_iff_exists,loaded_iff_handle]
  · rfl

theorem Inv.reopened (inv : Inv strict s) : Inv strict (s.reopened k f) := by
  refine inv.congr ?_ (fun j => ?_) fun j _ => view_reopened f
  · exact inv.consistent.recount (fun _ => rfl) (fun _ => rfl) (fun _ => rfl)
      (fun v found => inv.consistent.table.referenced k v found)
      (fun v found clean => inv.consistent.durable.inode k v found clean)
  · rw [Live,Live,linked_congr (view_reopened f),loaded_reopened]

theorem found_of_handle {refs opens : Nat} (counts : s.handle k = some (refs,opens)) :
    ∃ v, s.vnode? k = some v ∧ v.vnRefcount = refs ∧ v.vnOpencount = opens := by
  obtain ⟨v,found,same⟩ := Option.map_eq_some_iff.mp counts
  exact ⟨v,found,congrArg Prod.fst same,congrArg Prod.snd same⟩

theorem vnodeDecopen_spec (inv : Inv strict s) (isLoaded : s.loaded k) :
    (vnodeDecopen k).wp s
      (fun _ t => Consistent strict (s.reopened k (· - 1)).Live ∅ t ∧
        Frame (s.reopened k (· - 1)).Live (s.reopened k (· - 1)) t)
      never fun _ _ => ∃ refs, s.handle k = some (refs,0) := by
  obtain ⟨v,found⟩ := loaded_iff.mp isLoaded
  have lower : Inv strict (s.reopened k (· - 1)) := inv.reopened _
  have stays : (s.reopened k (· - 1)).loaded k := (loaded_reopened _).mpr isLoaded
  obtain ⟨w,foundW⟩ := loaded_iff.mp stays
  have held : w.vnRefcount ≠ 0 :=
    Nat.pos_iff_ne_zero.mp (lower.consistent.table.referenced k w foundW)
  simp only [vnodeDecopen,wp_bind,Sfs.wp_vnode found,wp_assert]
  split
  · rw [wp_modify,wp_ite]
    refine ⟨fun _ => ⟨lower.consistent,.refl _ _⟩,fun _ => ?_⟩
    simp only [wp_bind,wp_attempt,vopClose,vnodeCheck,Sfs.wp_vnode foundW,wp_assert,ne_eq,held,
      not_false_eq_true,decide_true,if_true,wp_pure]
    apply wp_safe (vopFsync_spec lower.consistent stays)
    · exact fun _ t synced => ⟨synced.consistent,synced.frame⟩
    · rintro _ _ ⟨-,-,rfl⟩
      exact ⟨lower.consistent.tick 11,frame_tick _ 11⟩
  · have zero : v.vnOpencount = 0 := by simp_all
    exact ⟨v.vnRefcount,by rw [handle,found,← zero]; rfl⟩

theorem decopen_counts (inv : Inv strict s)
    (before : ∀ j, s.handle j = Handle.of (refs j) (another opens k j))
    (covered : ∀ j, another opens k j ≤ refs j) :
    (vnodeDecopen k).wp s (fun _ t => Inv strict t ∧ (∀ j, t.handle j = Handle.of (refs j) (opens j)) ∧
      ∀ j, opens j ≤ refs j) never never := by
  have held : refs k ≠ 0 := by
    have := covered k
    rw [another_self] at this
    omega
  have counts : s.handle k = some (refs k,opens k + 1) := by
    rw [before,another_self]
    exact if_neg held
  apply wp_sure (vnodeDecopen_spec inv (loaded_iff_handle.mpr ⟨_,counts⟩))
  · rintro _ t ⟨cons,frame⟩
    refine ⟨(inv.reopened _).framed cons frame,handle_updated before
      (frame.handle.trans (handle_reopened _)) ?_ (fun j ne => ⟨rfl,(another_other ne).symm⟩),
      fun j => Nat.le_trans le_another (covered j)⟩
    rw [counts]
    exact (if_neg held).symm
  · rintro _ _ ⟨r,zero⟩
    rw [counts] at zero
    cases zero

theorem vopOpen_same {v : SfsVnode} (found : s.vnode? k = some v) (held : v.vnRefcount ≠ 0)
    (openflags : UInt32) : (vopOpen k openflags).wp s (fun _ t => t = s) (fun _ t => t = s) never := by
  simp only [vopOpen,vnodeCheck,wp_bind,Sfs.wp_vnode found,wp_assert,ne_eq,held,
    not_false_eq_true,decide_true,if_true,wp_pure]
  cases v.vnOps
  · simp only [sfsOpen,wp_ite,wp_fail,wp_pure,implies_true,and_self]
  · simp only [sfsOpendir,wp_ite,wp_fail,wp_pure,implies_true,and_self]

end SfsFs

namespace Tallied

theorem handle_held (tallied : Tallied refs opens s) (held : refs k ≠ 0) :
    s.handle k = some (refs k,opens k) := (tallied.handle k).trans (if_neg held)

theorem incopen (tallied : Tallied (another refs k) opens s) (covered : ∀ j, opens j ≤ refs j) :
    (vnodeIncopen k).wp s (fun _ t => Tallied (another refs k) (another opens k) t)
      never never := by
  obtain ⟨v,found,-,-⟩ := found_of_handle (tallied.handle_held another_pos)
  simp only [vnodeIncopen,wp_bind,Sfs.wp_vnode found,wp_modify]
  refine tallied.update (tallied.inv.reopened _) (handle_reopened _) ?_ (fun j ne => ⟨rfl,another_other ne⟩) (another_mono covered)
  rw [tallied.handle,another_self,another_self]
  rfl

theorem decopen (tallied : Tallied refs (another opens k) s) :
    (vnodeDecopen k).wp s (fun _ t => Tallied refs opens t) never never :=
  wp_imp (decopen_counts tallied.inv tallied.handle tallied.covered)
    fun _ _ lower => ⟨lower.1,lower.2.1,lower.2.2⟩

theorem wp_close {ok : Unit → SfsFs → Prop} {err : Errno → SfsFs → Prop}
    {halt : Panic → SfsFs → Prop} (tallied : Tallied (another refs k) (another opens k) s)
    (covered : ∀ j, opens j ≤ refs j) (next : ∀ t, Tallied refs opens t → ok () t) :
    (vnodeDecopen k).wp s (fun _ t => (vnodeDecref k).wp t ok err halt) err halt :=
  wp_mono tallied.decopen (fun _ _ lower => lower.wp_decref covered fun t back _ => next t back)
    (fun _ _ => False.elim) (fun _ _ => False.elim)

end Tallied
end Counts

/-! The calls -/

/-- A path that `vfs_lookparent` accepts: a name that fits its caller's buffer. -/
def CString.Named (path : CString) : Prop :=
  path.subpath.chars.length ≠ 0 ∧ path.subpath.chars.length ≤ nameMax

section Calls
variable {refs opens : Nat → Nat} {s : SfsFs} {k : Nat}

theorem wp_dirOnly {ok : α → SfsFs → Prop} {err : Errno → SfsFs → Prop}
    {halt : Panic → SfsFs → Prop} {strict : Prop} (inv : Inv strict s) (isLoaded : s.loaded 1)
    (op : Sfs α) : (dirOnly 1 op).wp s ok err halt ↔ op.wp s ok err halt := by
  obtain ⟨v,found⟩ := loaded_iff.mp isLoaded
  obtain ⟨held,ops⟩ := inv.dirops found
  simp only [dirOnly,vnodeCheck,wp_bind,Sfs.wp_vnode found,wp_assert,held,ne_eq,
    not_false_eq_true,decide_true,if_true,wp_pure,ops]

theorem getdevice_spec (tallied : Tallied refs opens s) (path : CString) :
    (getdevice path).wp s
      (fun r t => r = (1,path.subpath) ∧ Tallied (another refs 1) opens t ∧ t.view 1 = s.view 1)
      never never := by
  simp only [getdevice,sfsGetroot,wp_bind,wp_attempt]
  apply wp_safe (sfsLoadvnode_spec tallied.inv.consistent tallied.inv.root)
  · rintro k t ⟨rfl,opened⟩
    exact ⟨rfl,tallied.obtained (opened.obtained tallied.inv tallied.inv.root),
      opened.views 1 tallied.inv.root⟩
  · exact fun _ _ failed => absurd trivial failed.1

theorem vfsLookparent_spec (tallied : Tallied refs opens s) (path : CString) :
    (vfsLookparent path (nameMax + 1)).wp s
      (fun r t => r = (1,path.subpath) ∧ path.Named ∧ Tallied (another refs 1) opens t ∧
        t.view 1 = s.view 1)
      (fun _ t => ¬path.Named ∧ Tallied refs opens t) never := by
  rw [vfsLookparent,wp_bind]
  apply wp_total (getdevice_spec tallied path)
  rintro _ t ⟨rfl,held,dir⟩
  simp only [wp_bind,wp_attempt]
  rw [wp_ite]
  refine ⟨fun blank => ?_,fun name => ?_⟩
  · exact held.wp_decref tallied.covered fun u back _ => ⟨fun named => named.1 blank,back⟩
  rw [vopLookparent,wp_dirOnly held.inv (held.loaded another_pos)]
  apply wp_safe (sfsLookparent_exact held.inv (held.loaded another_pos) path.subpath _)
  · rintro _ u ⟨rfl,short,opened⟩
    have again := held.obtained (opened.obtained held.inv held.inv.root)
    refine again.wp_decref held.covered fun w back same => ?_
    exact ⟨rfl,⟨name,Nat.le_of_succ_le_succ short⟩,back,
      same.trans ((opened.views 1 held.inv.root).trans dir)⟩
  · rintro _ _ ⟨rfl,long⟩
    refine held.wp_decref tallied.covered fun w back _ => ⟨fun named => ?_,back⟩
    exact Nat.lt_irrefl _ (Nat.lt_of_le_of_lt (Nat.succ_le_succ named.2) long)

theorem vfsLookup_spec (tallied : Tallied refs opens s) (path : CString) :
    (vfsLookup path).wp s (fun k t => Tallied (another refs k) opens t)
      (fun _ t => Tallied refs opens t) never := by
  rw [vfsLookup,wp_bind]
  apply wp_total (getdevice_spec tallied path)
  rintro _ t ⟨rfl,held,-⟩
  simp only
  rw [wp_ite]
  refine ⟨fun _ => held,fun _ => ?_⟩
  simp only [wp_bind,wp_attempt]
  rw [vopLookup,wp_dirOnly held.inv (held.loaded another_pos)]
  apply wp_safe (sfsLookup_spec held.inv (held.loaded another_pos) path.subpath)
  · intro k u got
    have both := held.obtained got
    rw [another_comm] at both
    exact both.wp_decref (fun j => Nat.le_trans (tallied.covered j) le_another) fun _ back _ => back
  · intro _ u back
    exact (held.returned back).wp_decref tallied.covered fun _ back _ => back

theorem inParent_spec (op : Nat → CString → Sfs α) (held : α → Nat → Nat)
    (tallied : Tallied refs opens s) (covered : ∀ value j, opens j ≤ held value j) (path : CString)
    (spec : ∀ t, Tallied (another refs 1) opens t → (op 1 path.subpath).wp t
      (fun value u => Tallied (another (held value) 1) opens u)
      (fun _ u => Tallied (another refs 1) opens u) never) :
    (vfsLookparent path (nameMax + 1) >>= fun r => attempt (op r.1 r.2) >>= fun result =>
        vnodeDecref r.1 >>= fun _ => give result).wp s
      (fun value t => Tallied (held value) opens t) (fun _ t => Tallied refs opens t) never := by
  rw [wp_bind]
  apply wp_safe (vfsLookparent_spec tallied path)
  · rintro _ t ⟨rfl,-,parent,-⟩
    simp only [wp_bind,wp_attempt]
    apply wp_safe (spec t parent)
    · exact fun value u done => done.wp_decref (covered value) fun _ back _ => back
    · exact fun _ u failed => failed.wp_decref tallied.covered fun _ back _ => back
  · exact fun _ _ failed => failed.2

theorem openVnode_spec (tallied : Tallied refs opens s) (path : CString) (openflags : UInt32) :
    (openVnode path openflags).wp s (fun k t => Tallied (another refs k) opens t)
      (fun _ t => Tallied refs opens t) never := by
  rw [openVnode,wp_ite]
  refine ⟨fun _ => ?_,fun _ => vfsLookup_spec tallied path⟩
  refine inParent_spec (vopCreat · · (openflags &&& oExcl ≠ 0)) (another refs) tallied
    (fun k j => Nat.le_trans (tallied.covered j) le_another) path fun t parent => ?_
  rw [vopCreat,wp_dirOnly parent.inv (parent.loaded another_pos)]
  apply wp_safe (sfsCreat_spec parent.inv (parent.loaded another_pos) path.subpath _)
  · intro k u got
    rw [another_comm]
    exact parent.obtained got
  · exact fun _ _ back => parent.returned back

theorem vopTruncate_returned (tallied : Tallied refs opens s) (held : refs k ≠ 0) (len : Int) :
    (vopTruncate k len).wp s (fun _ t => Tallied refs opens t) (fun _ t => Tallied refs opens t)
      never := by
  have isLoaded := tallied.loaded held
  by_cases atRoot : k = 1
  · subst atRoot
    rw [wp_vopTruncate_root tallied.inv isLoaded]
    exact tallied
  rw [wp_vopTruncate tallied.inv isLoaded atRoot]
  apply wp_safe (sfsTruncate_spec tallied.inv.consistent (.of_loaded isLoaded) isLoaded len)
  · intro _ t truncated
    have inv := tallied.inv.wrote truncated.consistent truncated.frame atRoot (by rw [truncated.view])
    exact tallied.returned ⟨inv,fun _ => truncated.frame.handle⟩
  · exact fun _ _ failed => absurd trivial failed.2.1

theorem vfsClose_spec (tallied : Tallied (another refs k) (another opens k) s)
    (covered : ∀ j, opens j ≤ refs j) :
    (vfsClose k).wp s (fun _ t => Tallied refs opens t) never never := by
  rw [vfsClose,wp_bind]
  exact tallied.wp_close covered fun _ back => back

theorem openTrunc_spec (tallied : Tallied (another refs k) (another opens k) s)
    (covered : ∀ j, opens j ≤ refs j) (openflags : UInt32) (canwrite : Bool) :
    (openTrunc k openflags canwrite).wp s
      (fun r t => Tallied (another refs r) (another opens r) t) (fun _ t => Tallied refs opens t)
      never := by
  rw [openTrunc,wp_ite]
  refine ⟨fun _ => ?_,fun _ => tallied⟩
  simp only [wp_bind,wp_attempt]
  rw [wp_ite]
  -- a failed truncation closes the vnode again
  refine ⟨fun _ => ?_,fun _ => tallied.wp_close covered fun _ back => back⟩
  apply wp_safe (vopTruncate_returned tallied another_pos 0)
  · exact fun _ _ kept => kept
  · exact fun code t kept => kept.wp_close covered fun _ back => back

theorem openAs_spec (tallied : Tallied refs opens s) (path : CString) (openflags : UInt32)
    (canwrite : Bool) :
    (openAs path openflags canwrite).wp s
      (fun k t => Tallied (another refs k) (another opens k) t) (fun _ t => Tallied refs opens t)
      never := by
  rw [openAs,wp_bind]
  apply wp_safe (openVnode_spec tallied path openflags)
  · intro k t held
    simp only [wp_bind,wp_attempt]
    obtain ⟨v,found,count,-⟩ := found_of_handle (held.handle_held another_pos)
    apply wp_safe (vopOpen_same found (count ▸ another_pos) openflags)
    · rintro _ _ rfl
      exact wp_total (held.incopen tallied.covered)
        (fun _ _ opened => openTrunc_spec opened tallied.covered openflags canwrite)
    · rintro code _ rfl
      exact held.wp_decref tallied.covered fun _ back _ => back
  · exact fun _ _ back => back

theorem vfsOpen_spec (tallied : Tallied refs opens s) (path : CString) (openflags : UInt32) :
    (vfsOpen path openflags).wp s (fun k t => Tallied (another refs k) (another opens k) t)
      (fun _ t => Tallied refs opens t) never := by
  simp only [vfsOpen]
  rw [wp_ite,wp_ite]
  exact ⟨fun _ => openAs_spec tallied path openflags false,fun _ =>
    ⟨fun _ => openAs_spec tallied path openflags true,fun _ => tallied⟩⟩

theorem vfsRemove_spec (tallied : Tallied refs opens s) (path : CString) :
    (vfsRemove path).wp s (fun _ t => Tallied refs opens t) (fun _ t => Tallied refs opens t)
      never := by
  refine inParent_spec vopRemove (fun _ => refs) tallied (fun _ => tallied.covered) path
    fun t parent => ?_
  rw [vopRemove,wp_dirOnly parent.inv (parent.loaded another_pos)]
  exact wp_safe (sfsRemove_spec parent.inv (parent.loaded another_pos) path.subpath)
    (fun _ _ back => parent.returned back) (fun _ _ back => parent.returned back)

theorem vfsLink_spec (tallied : Tallied refs opens s) (oldpath newpath : CString) :
    (vfsLink oldpath newpath).wp s (fun _ t => Tallied refs opens t)
      (fun _ t => Tallied refs opens t) never := by
  rw [vfsLink,wp_bind]
  apply wp_safe (vfsLookup_spec tallied oldpath)
  · intro file t held
    simp only [wp_bind,wp_attempt]
    apply wp_safe (vfsLookparent_spec held newpath)
    · rintro _ u ⟨rfl,-,both,-⟩
      have fileLoaded : u.loaded file := both.loaded (Nat.ne_of_gt (Nat.lt_of_lt_of_le
        (Nat.pos_of_ne_zero another_pos) le_another))
      rw [vopLink,wp_dirOnly both.inv (both.loaded another_pos)]
      -- however the link ends, both references are given up
      apply wp_safe (sfsLink_spec both.inv (both.loaded another_pos) newpath.subpath fileLoaded)
      · exact fun _ w back => (both.returned back).wp_decref_both tallied.covered fun _ done => done
      · exact fun _ w back => (both.returned back).wp_decref_both tallied.covered fun _ done => done
    · rintro code u ⟨-,again⟩
      exact again.wp_decref tallied.covered fun _ back _ => back
  · exact fun _ _ back => back

/-- A rename that gets as far as `sfs_rename`, and whose old name is an entry for the root. -/
def RenamesRoot (s : SfsFs) (oldpath newpath : CString) : Prop :=
  oldpath.Named ∧ newpath.Named ∧ ∃ slot, Entry s oldpath.subpath 1 slot

theorem Entry.of_view {t : SfsFs} {name : CString} {slot : Nat} (entry : Entry s name k slot)
    (same : t.view 1 = s.view 1) : Entry t name k slot :=
  ⟨same ▸ entry.taken,same ▸ entry.name,same ▸ entry.number⟩

theorem vfsRename_spec (tallied : Tallied refs opens s) (oldpath newpath : CString) :
    (vfsRename oldpath newpath).wp s
      (fun _ t => ¬RenamesRoot s oldpath newpath ∧ Tallied refs opens t)
      (fun _ t => ¬RenamesRoot s oldpath newpath ∧ Tallied refs opens t)
      (fun _ _ => RenamesRoot s oldpath newpath) := by
  rw [vfsRename,wp_bind]
  apply wp_safe (vfsLookparent_spec tallied oldpath)
  · rintro _ t ⟨rfl,oldNamed,held,dir⟩
    simp only [wp_bind,wp_attempt]
    apply wp_safe (vfsLookparent_spec held newpath)
    · rintro _ u ⟨rfl,newNamed,both,dir'⟩
      have dirLoaded : u.loaded 1 := both.loaded another_pos
      have same : u.view 1 = s.view 1 := dir'.trans dir
      rw [vopRename,wp_dirOnly both.inv dirLoaded]
      by_cases root : ∃ slot, Entry s oldpath.subpath 1 slot
      · obtain ⟨slot,entry⟩ := root
        exact wp_mono (sfsRename_root both.inv dirLoaded
          (both.inv.consistent.geometry.reliable trivial).1 (entry.of_view same) newpath.subpath)
          (fun _ _ => False.elim) (fun _ _ => False.elim)
          (fun _ _ _ => ⟨oldNamed,newNamed,slot,entry⟩)
      have keeps : ¬RenamesRoot s oldpath newpath := fun renames => root renames.2.2
      apply wp_mono (sfsRename_spec both.inv dirLoaded oldpath.subpath newpath.subpath)
      · exact fun _ w back =>
          (both.returned back).wp_decref_both tallied.covered fun _ done => ⟨keeps,done⟩
      · exact fun _ w back =>
          (both.returned back).wp_decref_both tallied.covered fun _ done => ⟨keeps,done⟩
      · rintro _ _ ⟨-,⟨-,slot,entry⟩ | ⟨-,lax⟩⟩
        · exact absurd ⟨slot,entry.of_view same.symm⟩ root
        · exact absurd trivial lax
    · rintro code u ⟨notNamed,again⟩
      exact again.wp_decref tallied.covered fun _ back _ => ⟨fun renames => notNamed renames.2.1,back⟩
  · exact fun _ _ failed => ⟨fun renames => failed.1 renames.1,failed.2⟩

end Calls

end Os161
