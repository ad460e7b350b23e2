import Os161.PathPrefix
import Os161.VfsCounts

/-! The name of the boot file system. `vfs_setbootfs` refuses every name in which it sees a colon,
so the colon at the end is not optional but forbidden, and it does not see the characters that
`snprintf` cuts off. -/
namespace Os161

open Function

/-! Where a path leads -/

namespace Vnodes

/-- `s` after a number of calls to file systems, with a reference more to each vnode of `held`. -/
def holding (s : Vnodes) (calls : Nat) (held : List Nat) : Vnodes :=
  { s with refs := fun v => s.refs v + held.count v, calls }

def live (s : Vnodes) (o : Option Nat) : Option Nat := o.filter fun v => 0 < s.refs v

end Vnodes

def PathStart.vnode (ops : FsOps) (s : Vnodes) : PathStart → Option (Nat × Nat)
  | .curdir => (s.live s.cwd).map (·,s.calls)
  | .bootfs => (s.live s.bootfs).map (·,s.calls)
  | .curfs => do
    let fs ← ops.vnFs (← s.live s.cwd)
    some (ops.fsopGetroot s.calls fs,s.calls + 1)
  | .device name =>
    match (vfsGetroot name s.knowndevs).1 with
    | .ok (.root fs) => some (ops.fsopGetroot s.calls fs,s.calls + 1)
    | .ok (.device v) => (s.live (some v)).map (·,s.calls)
    | _ => none

def FsOps.follow (ops : FsOps) (rest : CString) (start : Nat × Nat) : Except Errno (Nat × Nat) :=
  if rest.chars.length = 0 then .ok start
  else (ops.vopLookup start.2 start.1 rest).map (·,start.2 + 1)

def FsOps.found (ops : FsOps) (s : Vnodes) (path : CString) : Option (Except Errno (Nat × Nat)) :=
  ((PathStart.ofPath path).1.vnode ops s).map (ops.follow (PathStart.ofPath path).2)

/-- A file system that is asked about the path says `EINVAL`, to the lookup or when it is asked
for the type of what was found. -/
def FsOps.SaysEinval (ops : FsOps) (s : Vnodes) (path : CString) : Prop :=
  ops.found s path = some (.error .einval) ∨
    ∃ v calls, ops.found s path = some (.ok (v,calls)) ∧ ops.vopGettype calls v = .error .einval

namespace Vnodes
variable {s : Vnodes} {calls v : Nat} {held : List Nat} {err : Errno → Vnodes → Prop}
  {halt : VnodePanic → Vnodes → Prop}

theorem holding_nil : s.holding s.calls [] = s := rfl

theorem live_some {o : Option Nat} : s.live o = some v ↔ o = some v ∧ 0 < s.refs v := by
  rw [live,Option.filter_eq_some_iff,decide_eq_true_eq]

theorem holding_alive (s : Vnodes) (calls : Nat) (member : v ∈ held) :
    0 < (s.holding calls held).refs v :=
  Nat.lt_of_lt_of_le (List.count_pos_iff.mpr member) (Nat.le_add_left _ _)

theorem holding_more (s : Vnodes) (calls : Nat) (held : List Nat) :
    (s.holding calls held).setRefs v ((s.holding calls held).refs v + 1) =
      s.holding calls (v :: held) := by
  rw [setRefs,update_succ,holding,holding]
  congr 1
  funext w
  simp only [plus,one,List.count_cons,Nat.add_assoc,Option.some.injEq,beq_iff_eq]

theorem wp_answer_holding {ok : α → Vnodes → Prop} (result : Nat → α) :
    (answer result).wp (s.holding calls held) ok err halt ↔
      ok (result calls) (s.holding (calls + 1) held) := Iff.rfl

variable {ok : Unit → Vnodes → Prop}

theorem wp_handBack_holding :
    (handBack v).wp (s.holding calls held) ok err halt ↔ ok () (s.holding calls (v :: held)) := by
  rw [wp_handBack,holding_more]

theorem wp_incref_holding (alive : 0 < s.refs v) :
    (vnodeIncref v).wp (s.holding calls held) ok err halt ↔ ok () (s.holding calls (v :: held)) := by
  rw [wp_vnodeIncref (Nat.lt_of_lt_of_le alive (Nat.le_add_right _ _)),holding_more]

theorem wp_decref_holding {rest : List Nat} (perm : held.Perm (v :: rest)) :
    (vnodeDecref v).wp (s.holding calls held) ok err halt ↔ ok () (s.holding calls rest) := by
  have same : s.holding calls held = s.holding calls (v :: rest) := by
    rw [holding,holding]
    congr 1
    funext w
    rw [perm.count_eq]
  rw [same,wp_vnodeDecref (holding_alive s calls List.mem_cons_self),← holding_more]
  simp only [setRefs,update_idem,update_self,Nat.add_sub_cancel,
    update_eq_self]

theorem increfd_spec (s : Vnodes) (v : Nat) :
    (do vnodeIncref v; return v : VnodeM Nat).wp s
      (fun w t => w = v ∧ s.live (some v) = some v ∧ t = s.holding s.calls [v]) never
      fun _ _ => s.live (some v) = none := by
  rw [wp_bind]
  by_cases alive : 0 < s.refs v
  · rw [← holding_nil (s := s),wp_incref_holding alive]
    exact ⟨rfl,live_some.mpr ⟨rfl,alive⟩,rfl⟩
  · have gone : s.live (some v) = none := by simpa [live] using alive
    simp only [vnodeIncref,wp_bind,wp_read,wp_assert,gt_iff_lt,alive]
    exact gone

end Vnodes

theorem PathStart.source_vnode (ops : FsOps) (s : Vnodes) (start : PathStart) :
    (start.source ops).wp s
      (fun v t => ∃ calls, start.vnode ops s = some (v,calls) ∧ t = s.holding calls [v])
      (fun code t => start.vnode ops s = none ∧ code ≠ .einval ∧ t = s)
      fun _ _ => start.vnode ops s = none := by
  have stored : ∀ v, (do Vnodes.vnodeIncref v; return v : VnodeM Nat).wp s
      (fun w t => ∃ calls, (s.live (some v)).map (·,s.calls) = some (w,calls) ∧ t = s.holding calls [w])
      never fun _ _ => (s.live (some v)).map (·,s.calls) = none := by
    intro v
    refine wp_mono (Vnodes.increfd_spec s v) ?_ (fun _ _ h => h) ?_
    · rintro w t ⟨rfl,live,rfl⟩
      exact ⟨s.calls,by rw [live]; rfl,rfl⟩
    · intro _ _ gone
      rw [gone]
      rfl
  cases start with
  | curdir =>
    rw [source,Vnodes.vfsGetcurdir,wp_bind,wp_read,vnode]
    cases s.cwd with
    | none => exact ⟨rfl,by decide,rfl⟩
    | some v => exact wp_errless (stored v)
  | bootfs =>
    rw [source,wp_bind,wp_read,vnode]
    cases s.bootfs with
    | none => exact ⟨rfl,by decide,rfl⟩
    | some v => exact wp_errless (stored v)
  | device name =>
    simp only [source,Vnodes.vfsGetroot,Vnodes.onKnowndevs,wp_bind,wp_zoom,wp_mapPanic]
    refine wp_mono (wp_and (wp_self _) (Vnodes.vfsGetroot_reads name)) ?_ ?_ ?_
    · rintro h t ⟨here,rfl,-⟩
      cases h with
      | root fs =>
        rw [vnode,here]
        exact ⟨_,rfl,Vnodes.holding_more s _ []⟩
      | device v =>
        rw [vnode,here]
        exact wp_errless (stored v)
    · rintro code t ⟨here,kind,rfl⟩
      refine ⟨by rw [vnode,here],?_,rfl⟩
      rcases kind with rfl | rfl <;> decide
    · rintro site _ ⟨here,-⟩
      rw [vnode,here]
  | curfs =>
    rw [source,Vnodes.vfsGetcurdir,wp_bind,wp_bind,wp_read,vnode]
    cases s.cwd with
    | none => exact ⟨rfl,by decide,rfl⟩
    | some v =>
      refine wp_mono (Vnodes.increfd_spec s v) ?_ (fun _ _ => False.elim) ?_
      · rintro w t ⟨rfl,live,rfl⟩
        rw [live]
        cases fs : ops.vnFs w with
        | none => exact (Option.bind_some w _).trans (by rw [fs]; rfl)
        | some fs =>
          simp only [Vnodes.fsopGetroot,wp_bind,Vnodes.wp_answer_holding,Vnodes.wp_handBack_holding,
            Vnodes.wp_decref_holding (List.Perm.swap _ _ _),wp_pure]
          exact ⟨s.calls + 1,(Option.bind_some w _).trans (by rw [fs]; rfl),rfl⟩
      · intro _ _ gone
        rw [gone]
        rfl

namespace Vnodes
variable {s : Vnodes}

theorem vfsLookup_found (ops : FsOps) (path : CString) :
    (vfsLookup ops path).wp s
      (fun v t => ∃ calls, ops.found s path = some (.ok (v,calls)) ∧ t = s.holding calls [v])
      (fun code t => (∃ calls, t = s.holding calls []) ∧
        (ops.found s path = some (.error code) ∨ ops.found s path = none ∧ code ≠ .einval))
      fun _ _ => ops.found s path = none := by
  rw [vfsLookup,PathCall.getdevice_refines,wp_bind,wp_bind,FsOps.found]
  refine wp_mono ((PathStart.ofPath path).1.source_vnode ops s) ?_ ?_ ?_
  · rintro v t ⟨calls,start,rfl⟩
    rw [start,wp_pure,Option.map_some,FsOps.follow]
    dsimp only
    split_ifs with done
    · exact ⟨calls,rfl,rfl⟩
    · have alive := holding_alive s calls (List.mem_singleton_self v)
      simp only [vopLookup,vop,wp_bind,wp_attempt,wp_vnodeCheck alive,wp_answer_holding]
      cases ops.vopLookup calls v (PathStart.ofPath path).2 with
      | ok w =>
        simp only [wp_give_ok,wp_handBack_holding,wp_pure,
          wp_decref_holding (List.Perm.swap _ _ _)]
        exact ⟨calls + 1,rfl,rfl⟩
      | error code =>
        simp only [wp_give_error,wp_decref_holding (List.Perm.refl _)]
        exact ⟨⟨_,rfl⟩,.inl rfl⟩
  · rintro code t ⟨none_,kind,rfl⟩
    rw [none_]
    exact ⟨⟨t.calls,rfl⟩,.inr ⟨rfl,kind⟩⟩
  · intro _ _ none_
    rw [none_]
    rfl

theorem vnodeDecref_frame (v : Nat) :
    (vnodeDecref v).wp s (fun _ t => t.cwd = s.cwd) never fun _ _ => True := by
  by_cases alive : 0 < s.refs v
  · exact (wp_vnodeDecref alive).mpr rfl
  · simp [vnodeDecref,alive]

theorem decrefOld_frame (old : Option Nat) :
    (decrefOld old).wp s (fun _ t => t.cwd = s.cwd) never fun _ _ => True := by
  cases old with
  | none => exact rfl
  | some v => exact vnodeDecref_frame v

theorem vfsChdir_found (ops : FsOps) (path : CString) :
    (vfsChdir ops path).wp s (fun _ t => t.cwd ≠ none ∧ ¬ops.SaysEinval s path)
      (fun code t => (∃ calls, t = s.holding calls []) ∧ (code = .einval ↔ ops.SaysEinval s path))
      fun _ _ => ¬ops.SaysEinval s path := by
  rw [vfsChdir,wp_bind,FsOps.SaysEinval]
  refine wp_mono (vfsLookup_found ops path) ?_ ?_ ?_
  · rintro v t ⟨calls,found,rfl⟩
    have alive := holding_alive s calls (List.mem_singleton_self v)
    simp only [vfsSetcurdir,vop,wp_bind,wp_attempt,wp_vnodeCheck alive,wp_answer_holding]
    rw [found]
    cases type : ops.vopGettype calls v with
    | error code =>
      simp only [wp_give_error,wp_decref_holding (List.Perm.refl _)]
      refine ⟨⟨_,rfl⟩,?_⟩
      simp [type]
    | ok vtype =>
      have said : ¬(some (Except.ok (v,calls)) = some (Except.error Errno.einval) ∨
          ∃ w n, (some (Except.ok (v,calls)) : Option (Except Errno (Nat × Nat))) = some (.ok (w,n)) ∧
            ops.vopGettype n w = .error .einval) := by
        simp [type]
      simp only [wp_give_ok,wp_ite]
      refine ⟨fun _ => ?_,fun _ => ?_⟩
      · -- from here on only a vnode that is gone can stop the call
        have alive' := holding_alive s (calls + 1) (List.mem_singleton_self v)
        simp only [wp_bind,wp_vnodeIncref alive',changeCurdir,wp_read,wp_put]
        refine wp_mono (decrefOld_frame _) ?_ (fun _ _ => False.elim) fun _ _ _ => said
        intro _ t cwd
        refine wp_mono (vnodeDecref_frame v) ?_ (fun _ _ => False.elim) fun _ _ _ => said
        intro _ u same
        refine ⟨?_,said⟩
        rw [same,cwd]
        exact Option.some_ne_none v
      · simp only [wp_fail,wp_decref_holding (List.Perm.refl _),wp_give_error]
        exact ⟨⟨_,rfl⟩,iff_of_false (by decide) said⟩
  · rintro code t ⟨same,found | ⟨none_,kind⟩⟩
    · refine ⟨same,?_⟩
      simp [found]
    · refine ⟨same,?_⟩
      simp [none_,kind]
  · intro _ _ none_
    simp [none_]

/-! The name -/

def bootName (fsname : CString) : CString := fsname.take (nameMax - 1)

variable {fsname : CString}

theorem bootName_short (short : fsname.chars.length ≤ 254) :
    bootName fsname = fsname := by
  obtain ⟨chars,noNul⟩ := fsname
  rw [bootName,CString.take,CString.mk.injEq]
  exact List.take_of_length_le short

theorem bootfsPath_colon (colon : 58 ∈ (bootName fsname).chars) :
    bootfsPath fsname = fail .einval := by
  have here : (bootName fsname).chars.idxOf 58 < (bootName fsname).chars.length :=
    List.idxOf_lt_length_iff.mpr colon
  have rest : 0 < ((bootName fsname).drop ((bootName fsname).chars.idxOf 58)).chars.length := by
    rw [CString.drop,List.length_drop]
    omega
  rw [bootfsPath,← bootName,CString.strchrColon,if_pos (List.contains_iff_mem.mpr colon)]
  exact if_pos rest

theorem bootfsPath_plain (plain : 58 ∉ (bootName fsname).chars) :
    bootfsPath fsname = pure (bootName fsname).strcatColon := by
  rw [bootfsPath,← bootName,CString.strchrColon,if_neg (mt List.contains_iff_mem.mp plain)]

theorem vfsSetbootfs_colon (ops : FsOps) (colon : 58 ∈ (bootName fsname).chars) :
    vfsSetbootfs ops fsname s = (.err .einval,s) := by
  rw [vfsSetbootfs,bootfsPath_colon colon]
  rfl

theorem vfsSetbootfs_plain (ops : FsOps) (plain : 58 ∉ (bootName fsname).chars) :
    (vfsSetbootfs ops fsname).wp s (fun _ _ => ¬ops.SaysEinval s (bootName fsname).strcatColon)
      (fun code t => (∃ calls, t = s.holding calls []) ∧
        (code = .einval ↔ ops.SaysEinval s (bootName fsname).strcatColon))
      fun _ _ => ¬ops.SaysEinval s (bootName fsname).strcatColon := by
  rw [vfsSetbootfs,bootfsPath_plain plain,wp_bind,wp_pure,wp_bind]
  refine wp_imp (vfsChdir_found ops _) ?_
  rintro _ t ⟨cwd,said⟩
  rw [wp_bind]
  refine wp_mono (PathStart.vfsGetcurdir_cases t) ?_ (fun _ _ none_ => absurd none_ cwd) fun _ _ _ => said
  intro v u _
  simp only [changeBootfs,wp_bind,wp_read,wp_put]
  exact wp_mono (decrefOld_frame _) (fun _ _ _ => said) (fun _ _ => False.elim) fun _ _ _ => said

/-- Two names of the boot file system have the same result. -/
def SameBoot (ops : FsOps) (s : Vnodes) (a b : CString) : Prop :=
  (vfsSetbootfs ops a s).1 = (vfsSetbootfs ops b s).1 ∧
    (vfsSetbootfs ops a s).2.cwd = (vfsSetbootfs ops b s).2.cwd ∧
    (vfsSetbootfs ops a s).2.bootfs = (vfsSetbootfs ops b s).2.bootfs

def BootRefused (ops : FsOps) (s : Vnodes) (name : CString) : Prop :=
  ∃ calls, vfsSetbootfs ops name s = (.err .einval,{ s with calls })

def InnerColon (name : CString) : Prop := ∃ i, name.chars[i]? = some 58 ∧ i + 1 < name.chars.length

theorem bootRefused_plain (ops : FsOps) {name : CString} (plain : 58 ∉ (bootName name).chars) :
    BootRefused ops s name ↔ ops.SaysEinval s (bootName name).strcatColon := by
  have spec := vfsSetbootfs_plain (s := s) ops plain
  constructor
  · rintro ⟨calls,run⟩
    exact (wp_err spec run).2.mp rfl
  · intro said
    obtain ⟨code,t,run,⟨calls,rfl⟩,kind⟩ := wp_fails (wp_mono spec
      (fun _ _ unsaid => unsaid said) (fun _ _ h => h) fun _ _ unsaid => unsaid said)
    obtain rfl := kind.mpr said
    exact ⟨calls,run⟩

theorem sameBoot_colon (ops : FsOps) {name : CString} (plain : 58 ∉ (bootName name).chars)
    (colon : 58 ∈ (bootName name.strcatColon).chars) :
    SameBoot ops s name.strcatColon name ↔ BootRefused ops s name := by
  rw [SameBoot,vfsSetbootfs_colon ops colon]
  constructor
  · rintro ⟨result,-⟩
    have failed : vfsSetbootfs ops name s = (.err .einval,(vfsSetbootfs ops name s).2) :=
      Prod.ext result.symm rfl
    obtain ⟨⟨calls,after⟩,-⟩ := wp_err (vfsSetbootfs_plain (s := s) ops plain) failed
    exact ⟨calls,failed.trans (by rw [after]; rfl)⟩
  · rintro ⟨calls,run⟩
    rw [run]
    exact ⟨rfl,rfl,rfl⟩

/-- A colon at the end is the same as none only where a file system says `EINVAL` to the name
without it. A colon elsewhere is refused if `snprintf` keeps it. -/
theorem boot_colon_optional_iff (ops : FsOps) (s : Vnodes) (name : CString) :
    (58 ∉ name.chars → name.chars.length ≤ 250 →
      (SameBoot ops s name.strcatColon name ↔ ops.SaysEinval s name.strcatColon)) ∧
    (InnerColon name → (BootRefused ops s name ↔
      58 ∈ name.chars.take 254 ∨ ops.SaysEinval s (name.take 254).strcatColon)) := by
  refine ⟨fun plain short => ?_,fun _ => ?_⟩
  · have whole : bootName name = name := bootName_short (short.trans (by decide))
    have colon : 58 ∈ (bootName name.strcatColon).chars := by
      have fits : name.strcatColon.chars.length ≤ 254 := by
        rw [CString.strcatColon,List.length_append]
        exact (Nat.add_le_add_right short 1).trans (by decide)
      rw [bootName_short fits]
      exact List.mem_append_right _ (List.mem_singleton_self 58)
    rw [← whole] at plain
    rw [sameBoot_colon ops plain colon,bootRefused_plain ops plain,whole]
  · by_cases colon : 58 ∈ (bootName name).chars
    · exact iff_of_true ⟨s.calls,vfsSetbootfs_colon ops colon⟩ (.inl colon)
    · rw [bootRefused_plain ops colon]
      exact (or_iff_right colon).symm

def diskMounted : Vnodes := { VfsCall.atHome with knowndevs := oneMounted }

theorem boot_colon_optional_lhd0 :
    (SameBoot VfsCall.answering diskMounted lhd0.strcatColon lhd0 ↔
      VfsCall.answering.SaysEinval diskMounted lhd0.strcatColon) ∧
    (BootRefused VfsCall.answering diskMounted lhd0.strcatColon.strcatColon ↔
      58 ∈ lhd0.strcatColon.strcatColon.chars.take 254 ∨
        VfsCall.answering.SaysEinval diskMounted (lhd0.strcatColon.strcatColon.take 254).strcatColon) :=
  ⟨(boot_colon_optional_iff VfsCall.answering diskMounted lhd0).1 (by decide) (by decide),
    (boot_colon_optional_iff VfsCall.answering diskMounted lhd0.strcatColon.strcatColon).2
      ⟨4,rfl,by decide⟩⟩

/-- `lhd0` becomes the boot file system, `lhd0:` is refused. -/
theorem lhd0_colon_refused :
    58 ∉ lhd0.chars ∧ lhd0.chars.length ≤ 250 ∧ ¬SameBoot VfsCall.answering diskMounted lhd0.strcatColon lhd0 := by
  refine ⟨by decide,by decide,?_⟩
  rintro ⟨result,-⟩
  have accepted : (vfsSetbootfs VfsCall.answering lhd0 diskMounted).1 = .ok () := rfl
  rw [accepted,vfsSetbootfs_colon VfsCall.answering (by decide)] at result
  cases result

end Vnodes

end Os161
