import Os161.SfsRename

/-! Dropping the last reference to a vnode on a device that may fail. `vnode_decref` hands its
reference to `sfs_reclaim`; when the device fails there, the vnode stays with a reference that
nobody holds. Without that, the counts of the vnodes are those of the references held. -/
namespace Os161

open Function

open SfsFs Exec

section Reclaim
variable {strict : Prop} {s : SfsFs} {k : Nat}

theorem vnodeDecref_exact (inv : Inv strict s) (isLoaded : s.loaded k) :
    (vnodeDecref k).wp s
      (fun _ t => Inv strict t ∧
        (t.handle = update s.handle k (Handle.less (s.handle k)) ∨ s.Pins k)) never
      (fun site _ => site = .killOpencount ∧ ∃ opens ≠ 0, s.handle k = some (1,opens)) := by
  have h : s.Live k := .of_loaded isLoaded
  apply wp_sure (vnodeDecref_spec inv.consistent h isLoaded inv.notRoot)
  · exact fun _ t done => ⟨inv.released h done.1,done.2⟩
  · exact fun _ _ halted => ⟨halted.1,halted.2.1⟩

end Reclaim

/-! The references that are held -/

/-- Every vnode has the given counts, whatever the device does. -/
structure Counted (refs opens : Nat → Nat) (s : SfsFs) : Prop where
  inv : Inv False s
  handle : ∀ k, s.handle k = Handle.of (refs k) (opens k)
  covered : ∀ k, opens k ≤ refs k

namespace Counted
variable {refs opens : Nat → Nat} {s t : SfsFs} {k : Nat}

section
variable (counted : Counted refs opens s)
include counted

theorem loaded (held : refs k ≠ 0) : s.loaded k :=
  loaded_iff_handle.mpr ⟨_,(counted.handle k).trans (if_neg held)⟩

theorem update {g : Option (Nat × Nat)} {refs' opens' : Nat → Nat}
    (inv : Inv False t) (handle : t.handle = update s.handle k g)
    (atK : g = Handle.of (refs' k) (opens' k))
    (others : ∀ j, j ≠ k → refs' j = refs j ∧ opens' j = opens j) (covered : ∀ j, opens' j ≤ refs' j) :
    Counted refs' opens' t :=
  ⟨inv,handle_updated counted.handle handle atK others,covered⟩

theorem kept (inv : Inv False t) (handle : t.handle = s.handle) :
    Counted refs opens t :=
  ⟨inv,by rw [handle]; exact counted.handle,counted.covered⟩

theorem later (later : Later s t) : Counted refs opens t :=
  counted.kept (counted.inv.later later) (later.frame : Frame s.Live s t).handle

theorem obtained (got : Obtained False k s t) :
    Counted (another refs k) opens t := by
  refine counted.update got.inv got.handle ?_ (fun j ne => ⟨another_other ne,rfl⟩)
    fun j => Nat.le_trans (counted.covered j) le_another
  rw [counted.handle,Handle.more_of (counted.covered k),another_self]

theorem handle_held (held : refs k ≠ 0) : s.handle k = some (refs k,opens k) :=
  (counted.handle k).trans (if_neg held)

theorem incopen (free : opens k < refs k) :
    (vnodeIncopen k).wp s (fun _ t => Counted refs (another opens k) t) never never := by
  have held : refs k ≠ 0 := Nat.ne_zero_of_lt free
  obtain ⟨v,found,-,-⟩ := found_of_handle (counted.handle_held held)
  simp only [vnodeIncopen,wp_bind,Sfs.wp_vnode found,wp_modify]
  refine counted.update (counted.inv.reopened _) (handle_reopened _) ?_
    (fun j ne => ⟨rfl,another_other ne⟩) fun j => ?_
  · rw [counted.handle,another_self,Handle.of,Handle.of,if_neg held,if_neg held]
    rfl
  · by_cases same : j = k
    · rw [same,another_self]
      exact free
    · rw [another_other same]
      exact counted.covered j

end

theorem decopen (counted : Counted refs (another opens k) s) :
    (vnodeDecopen k).wp s (fun _ t => Counted refs opens t) never never :=
  wp_imp (decopen_counts counted.inv counted.handle counted.covered)
    fun _ _ lower => ⟨lower.1,lower.2.1,lower.2.2⟩

theorem decref (counted : Counted (another refs k) opens s) (covered : ∀ j, opens j ≤ refs j)
    (free : ¬s.Pins k) :
    (vnodeDecref k).wp s (fun _ t => Counted refs opens t) never never := by
  have counts : s.handle k = Handle.of (refs k + 1) (opens k) := by
    rw [counted.handle,another_self]
  apply wp_mono (vnodeDecref_exact counted.inv (counted.loaded another_pos))
  · rintro _ t ⟨inv,handle | pinned⟩
    · refine counted.update inv handle ?_ (fun j ne => ⟨(another_other ne).symm,rfl⟩) covered
      rw [counts,Handle.less_of]
    · exact absurd pinned free
  · exact fun _ _ h => h
  · -- the last reference is never to an open vnode
    rintro _ _ ⟨-,o,busy,last⟩
    obtain ⟨one,rfl⟩ := Prod.mk.inj (Option.some.inj (counts.symm.trans last))
    have := covered k
    omega

theorem table (counted : Counted refs opens s) {v : SfsVnode} (mem : v ∈ s.sfsVnodes) :
    v.vnRefcount = refs v.svIno ∧ 1 ≤ v.vnRefcount := by
  have found : s.vnode? v.svIno = some v := vnode?_of_mem counted.inv.consistent.table.nodup mem
  have positive := counted.inv.consistent.table.referenced _ v found
  have counts := counted.handle v.svIno
  rw [SfsFs.handle,found,Handle.of] at counts
  split at counts
  · cases counts
  · exact ⟨congrArg Prod.fst (Option.some.inj counts),positive⟩

end Counted

/-! Sequences of lookups, opens, closes and drops -/

/-- The file system, the references that its users hold, and those of them that are open. -/
structure RefState where
  fs : SfsFs
  refs : List Nat
  opens : List Nat

/-- The calls that hand out, open, close and give up references. -/
inductive RefOp where
  | getroot
  | lookup (path : CString)
  | lookparent (path : CString) (buflen : Nat)
  | incref (vn : Nat)
  | openVnode (vn : Nat) (openflags : UInt32)
  | close (vn : Nat)
  | drop (vn : Nat)

namespace RefOp

/-- The call, and the vnode that it hands out a reference to. -/
def run : RefOp → Sfs (Option Nat)
  | .getroot => do return some (← sfsGetroot)
  | .lookup path => do return some (← vopLookup 1 path)
  | .lookparent path buflen => do return some (← vopLookparent 1 path buflen).1
  | .incref vn => do vnodeIncref vn; return some vn
  | .openVnode vn openflags => do vopOpen vn openflags; vnodeIncopen vn; return none
  | .close vn => do vnodeDecopen vn; return none
  | .drop vn => do vnodeDecref vn; return none

def refsAfter (refs : List Nat) : RefOp → Outcome Errno Panic (Option Nat) → List Nat
  | .drop vn, _ => refs.erase vn
  | _, .ok (some vn) => vn :: refs
  | _, _ => refs

def opensAfter (opens : List Nat) : RefOp → Outcome Errno Panic (Option Nat) → List Nat
  | .close vn, _ => opens.erase vn
  | .openVnode vn _, .ok _ => vn :: opens
  | _, _ => opens

def after (op : RefOp) (t : RefState) : RefState where
  fs := (op.run t.fs).2
  refs := op.refsAfter t.refs (op.run t.fs).1
  opens := op.opensAfter t.opens (op.run t.fs).1

/-- A caller uses references that it holds. It opens a reference once, and closes it before it
gives it up. -/
def Legal (t : RefState) : RefOp → Prop
  | .getroot => True
  | .lookup _ | .lookparent _ _ => 1 ∈ t.refs
  | .incref vn => vn ∈ t.refs
  | .openVnode vn _ | .drop vn => t.opens.count vn < t.refs.count vn
  | .close vn => vn ∈ t.opens

def Pins (s : SfsFs) : RefOp → Prop
  | .drop vn => s.Pins vn
  | _ => False

end RefOp

/-- The counts of the vnodes are those of the references held. -/
def RefState.Counted (t : RefState) : Prop :=
  Os161.Counted (openCounts t.refs) (openCounts t.opens) t.fs

def RefStep (allowed : SfsFs → RefOp → Prop) (t u : RefState) : Prop :=
  ∃ op : RefOp, op.Legal t ∧ allowed t.fs op ∧ (∀ site, (op.run t.fs).1 ≠ .panic site) ∧
    u = op.after t

abbrev RefRun (allowed : SfsFs → RefOp → Prop) : RefState → RefState → Prop :=
  Relation.ReflTransGen (RefStep allowed)

section Runs
variable {t u : RefState} {op : RefOp}

theorem held_of_mem {k : Nat} {l : List Nat} (mem : k ∈ l) : openCounts l k ≠ 0 :=
  Nat.pos_iff_ne_zero.mp (List.count_pos_iff.mpr mem)

theorem RefOp.run_spec (counted : t.Counted) (legal : op.Legal t) (free : ¬op.Pins t.fs) :
    op.run.wp t.fs
      (fun r s => RefState.Counted ⟨s,op.refsAfter t.refs (.ok r),op.opensAfter t.opens (.ok r)⟩)
      (fun e s => RefState.Counted ⟨s,op.refsAfter t.refs (.err e),op.opensAfter t.opens (.err e)⟩)
      (fun _ _ => True) := by
  have handed : ∀ {k s}, Obtained False k t.fs s → RefState.Counted ⟨s,k :: t.refs,t.opens⟩ := by
    intro k s got
    rw [RefState.Counted,openCounts_cons]
    exact Counted.obtained counted got
  cases op with
  | getroot =>
    simp only [RefOp.run,sfsGetroot,wp_bind,wp_attempt]
    apply wp_liberal (sfsLoadvnode_inv counted.inv counted.inv.root)
    · exact fun k s got => handed (got.1 ▸ got.2)
    · exact fun _ _ _ => trivial
  | lookup path =>
    have root := Counted.loaded counted (held_of_mem legal)
    simp only [RefOp.run,wp_bind]
    rw [vopLookup,wp_dirOnly counted.inv root]
    apply wp_liberal (sfsLookup_exact counted.inv root path)
    · rintro k s ⟨⟨slot,entry⟩,opened⟩
      exact handed (opened.obtained counted.inv entry.live)
    · exact fun _ s later => Counted.later counted later
  | lookparent path buflen =>
    have root := Counted.loaded counted (held_of_mem legal)
    simp only [RefOp.run,wp_bind]
    rw [vopLookparent,wp_dirOnly counted.inv root]
    apply wp_liberal (sfsLookparent_spec counted.inv root path buflen)
    · rintro _ s ⟨rfl,got⟩
      exact handed got
    · rintro _ s rfl
      exact counted
  | incref vn =>
    have isLoaded := Counted.loaded counted (held_of_mem legal)
    simp only [RefOp.run,wp_bind]
    apply wp_through (vnodeIncref_spec counted.inv.consistent isLoaded)
    exact fun _ s opened => handed (opened.obtained counted.inv (.of_loaded isLoaded))
  | openVnode vn openflags =>
    have held : openCounts t.refs vn ≠ 0 := Nat.ne_zero_of_lt legal
    simp only [RefOp.run,wp_bind]
    obtain ⟨v,found,count,-⟩ := found_of_handle (Counted.handle_held counted held)
    apply wp_liberal (vopOpen_same found (count ▸ held) openflags)
    · rintro _ s rfl
      apply wp_through (Counted.incopen counted legal)
      intro _ s opened
      rw [← openCounts_cons] at opened
      exact opened
    · rintro _ s rfl
      exact counted
  | close vn =>
    simp only [RefOp.run,wp_bind]
    have isOpen := counted
    rw [RefState.Counted,openCounts_erase legal] at isOpen
    exact wp_mono isOpen.decopen (fun _ _ h => h) (fun _ _ h => h.elim) (fun _ _ _ => trivial)
  | drop vn =>
    simp only [RefOp.run,wp_bind]
    have mem : vn ∈ t.refs := List.count_pos_iff.mp (Nat.zero_lt_of_lt legal)
    have held := counted
    rw [RefState.Counted,openCounts_erase mem] at held
    have covered : ∀ j, openCounts t.opens j ≤ openCounts (t.refs.erase vn) j := by
      intro j
      have before := Counted.covered counted j
      rw [openCounts_erase mem] at before
      by_cases same : j = vn
      · subst j
        have legal : openCounts t.opens vn < openCounts t.refs vn := legal
        rw [openCounts_erase mem,another_self] at legal
        omega
      · rwa [another_other same] at before
    exact wp_mono (held.decref covered free) (fun _ _ h => h) (fun _ _ h => h.elim)
      (fun _ _ _ => trivial)

theorem RefState.Counted.step {allowed : SfsFs → RefOp → Prop}
    (free : ∀ s op, allowed s op → ¬op.Pins s) (counted : t.Counted) (step : RefStep allowed t u) :
    u.Counted := by
  obtain ⟨op,legal,allow,returns,rfl⟩ := step
  have spec := op.run_spec counted legal (free _ op allow)
  rcases ran : op.run t.fs with ⟨r | e | site,s⟩
  · have same : op.after t = ⟨s,op.refsAfter t.refs (.ok r),op.opensAfter t.opens (.ok r)⟩ := by
      rw [RefOp.after,ran]
    rw [same]
    exact wp_ok spec ran
  · have same : op.after t = ⟨s,op.refsAfter t.refs (.err e),op.opensAfter t.opens (.err e)⟩ := by
      rw [RefOp.after,ran]
    rw [same]
    exact wp_err spec ran
  · exact absurd (by rw [ran]) (returns site)

/-- The table holds the vnodes that references are held to, with those counts; once there are none
it is empty, and the file system can be unmounted. -/
def RefState.Exact (t : RefState) : Prop :=
  (∀ v ∈ t.fs.sfsVnodes, v.vnRefcount = t.refs.count v.svIno ∧ 1 ≤ v.vnRefcount) ∧
    (t.refs = [] → t.fs.sfsVnodes = [] ∧ (sfsUnmount t.fs).1 ≠ .err .ebusy)

theorem sfsUnmount_empty {s : SfsFs} (empty : s.sfsVnodes = []) : (sfsUnmount s).1 ≠ .err .ebusy := by
  have spec : sfsUnmount.wp s (fun _ _ => True) never (fun _ _ => True) := by
    simp only [sfsUnmount,wp_bind,wp_read,empty,List.length_nil,gt_iff_lt,Nat.lt_irrefl,
      if_false,wp_assert,ite_self]
  intro busy
  exact wp_err spec (Prod.ext busy rfl)

theorem RefState.Counted.exact_ (counted : t.Counted) : t.Exact := by
  refine ⟨fun v mem => Counted.table counted mem,fun none_ => ?_⟩
  have empty : t.fs.sfsVnodes = [] := by
    refine List.eq_nil_iff_forall_not_mem.mpr fun v mem => ?_
    obtain ⟨count,positive⟩ := Counted.table counted mem
    rw [count,none_,openCounts,List.count_nil] at positive
    omega
  exact ⟨empty,sfsUnmount_empty empty⟩

/-- As long as no drop leaves a vnode pinned, the counts are those of the references held. -/
theorem vnode_counts_exact (counted : t.Counted)
    (run : RefRun (fun s op => ¬op.Pins s) t u) : u.Exact := by
  have after : u.Counted := by
    induction run with
    | refl => exact counted
    | tail _ step ih => exact RefState.Counted.step (fun _ _ free => free) ih step
  exact after.exact_

end Runs

/-! A file that has just been made, and its directory -/

/-- Its maker holds the file and the directory; the device goes on as `media` says. -/
def xHeld (media : Nat → Bool) : RefState := ⟨xFile.withMedia media,[3,1],[]⟩

theorem xHeld_counted (media : Nat → Bool) : (xHeld media).Counted where
  inv := xFile_inv.withMedia (xFile_inv.failStop (by decide +kernel)) media
  handle k := by
    change xFile.handle k = Handle.of (openCounts [3,1] k) (openCounts [] k)
    by_cases file : k = 3
    · subst k
      decide +kernel
    by_cases root : k = 1
    · subst k
      decide +kernel
    have inos : xFile.sfsVnodes.map SfsVnode.svIno = [1,3] := by decide +kernel
    have absent : ¬xFile.loaded k := by
      rintro ⟨v,mem,rfl⟩
      have listed := List.mem_map_of_mem (f := SfsVnode.svIno) mem
      rw [inos] at listed
      simp [file,root] at listed
    rw [SfsFs.handle,not_loaded_iff.mp absent]
    simp [openCounts,Handle.of,Ne.symm file,Ne.symm root]
  covered k := Nat.zero_le _

def xDropped (media : Nat → Bool) : RefState :=
  (RefOp.drop 1).after ((RefOp.drop 3).after (xHeld media))

theorem xDropped_run {media : Nat → Bool} {allowed : SfsFs → RefOp → Prop}
    (first : allowed (xHeld media).fs (.drop 3))
    (second : allowed ((RefOp.drop 3).after (xHeld media)).fs (.drop 1))
    (returns : ((RefOp.drop 3).run (xHeld media).fs).1 = .ok none ∧
      ((RefOp.drop 1).run ((RefOp.drop 3).after (xHeld media)).fs).1 = .ok none) :
    RefRun allowed (xHeld media) (xDropped media) := by
  have one : RefStep allowed (xHeld media) ((RefOp.drop 3).after (xHeld media)) :=
    ⟨.drop 3,show [].count 3 < [3,1].count 3 by decide,first,by rw [returns.1]; nofun,rfl⟩
  have two : RefStep allowed ((RefOp.drop 3).after (xHeld media)) (xDropped media) :=
    ⟨.drop 1,show [].count 1 < [1].count 1 by decide,second,by rw [returns.2]; nofun,rfl⟩
  exact (Relation.ReflTransGen.single one).tail two

theorem SfsFs.not_pins {s : SfsFs} {k : Nat} (first : s.disk.media 0 = true)
    (second : s.disk.media 1 = true) : ¬s.Pins k := by
  rintro ⟨-,fails⟩
  have up : ¬s.Down 0 := fun down => Bool.noConfusion ((down 0 (by omega)).symm.trans first)
  have later : ¬∃ m ≤ 10, s.disk.GoodAfter m ∧ s.Down (m + 1) := by
    rintro ⟨m,-,good,down⟩
    obtain rfl : m = 0 :=
      GoodAfter.unique good ⟨fun _ none => absurd none (Nat.not_lt_zero _),first⟩
    exact Bool.noConfusion ((down 0 (by omega)).symm.trans second)
  split at fails
  · exact up fails.2
  · split at fails
    · exact up fails
    · exact fails.elim up later

/-- On a device that works, nothing stays behind. -/
theorem vnode_counts_xDropped : (xDropped fun _ => true).refs = [] ∧
    (xDropped fun _ => true).fs.sfsVnodes = [] ∧
    (sfsUnmount (xDropped fun _ => true).fs).1 ≠ .err .ebusy := by
  have run : RefRun (fun s op => ¬op.Pins s) (xHeld fun _ => true) (xDropped fun _ => true) :=
    xDropped_run (SfsFs.not_pins rfl rfl)
      (SfsFs.not_pins (by decide +kernel) (by decide +kernel))
      ⟨by decide +kernel,by decide +kernel⟩
  obtain ⟨-,empty⟩ := vnode_counts_exact (xHeld_counted _) run
  exact ⟨rfl,empty rfl⟩

/-- On a device that fails from now on, both vnodes stay in the table with a reference that nobody
holds, and the file system cannot be unmounted. -/
theorem dropped_vnodes_pinned : (xHeld fun _ => false).Counted ∧
    RefRun (fun _ _ => True) (xHeld fun _ => false) (xDropped fun _ => false) ∧
    (xDropped fun _ => false).refs = [] ∧ ¬(xDropped fun _ => false).Exact ∧
    (sfsUnmount (xDropped fun _ => false).fs).1 = .err .ebusy := by
  have busy : (sfsUnmount (xDropped fun _ => false).fs).1 = .err .ebusy := by decide +kernel
  refine ⟨xHeld_counted _,xDropped_run trivial trivial ⟨by decide +kernel,by decide +kernel⟩,rfl,
    fun exact_ => ?_,busy⟩
  exact (exact_.2 rfl).2 busy

end Os161
