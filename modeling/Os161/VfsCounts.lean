import Os161.Vnodes

/-! Every call of `vfspath.c`, `vfslookup.c` and `vfscwd.c` gives up the references that it
takes, except those that it hands to its caller or stores in `t_cwd` or `bootfs_vnode`. -/
namespace Os161

/-- The assertions about something other than counts. -/
def VnodePanic.foreign : VnodePanic → Bool
  | .list _ | .getdeviceNoFs | .getcwdRw | .getcwdNoFs | .getcwdNoName => true
  | _ => false

/-! Counting references -/

namespace Vnodes

def one (o : Option Nat) (v : Nat) : Nat := if o = some v then 1 else 0

def plus (counts : Nat → Nat) (o : Option Nat) : Nat → Nat := fun v => counts v + one o v

def stored (s : Vnodes) (v : Nat) : Nat := one s.cwd v + one s.bootfs v

/-- Apart from the stored references there are `counts` of them. -/
structure Tally (table : List Knowndev) (counts opens : Nat → Nat) (s : Vnodes) : Prop where
  refs : ∀ v, s.refs v = counts v + s.stored v
  opens : s.opens = opens
  table : s.knowndevs.it.v = table

def Devices (table : List Knowndev) (counts : Nat → Nat) : Prop :=
  ∀ kd ∈ table, 0 < counts kd.kdVnode

def Balances (call : VnodeM α) (table : List Knowndev) (counts opens : Nat → Nat) (s : Vnodes)
    (handed : α → Option Nat) : Prop :=
  call.wp s (fun r t => Tally table (plus counts (handed r)) opens t)
    (fun _ t => Tally table counts opens t) fun site _ => site.foreign = true

variable {table : List Knowndev} {counts opens : Nat → Nat} {s : Vnodes} {v : Nat}

@[simp] theorem one_self : one (some v) v = 1 := if_pos rfl

theorem one_other {w : Nat} (ne : v ≠ w) : one (some v) w = 0 := if_neg (by simpa using ne)

@[simp] theorem plus_none : plus counts none = counts := rfl

theorem plus_comm (a b : Option Nat) : plus (plus counts a) b = plus (plus counts b) a := by
  funext v
  exact Nat.add_right_comm _ _ _

theorem plus_sub {o : Option Nat} (le : ∀ v, one o v ≤ counts v) :
    plus (fun v => counts v - one o v) o = counts :=
  funext fun v => Nat.sub_add_cancel (le v)

theorem update_succ (counts : Nat → Nat) (v : Nat) :
    Function.update counts v (counts v + 1) = plus counts (some v) := by
  funext w
  by_cases same : w = v
  · subst same
    simp [plus]
  · simp [plus,same,one_other (Ne.symm same)]

theorem update_pred (counts : Nat → Nat) (v : Nat) :
    Function.update (plus counts (some v)) v (plus counts (some v) v - 1) = counts := by
  rw [← update_succ,Function.update_idem,Function.update_self,Nat.add_sub_cancel,
    Function.update_eq_self]

theorem Devices.plus (devices : Devices table counts) (o : Option Nat) :
    Devices table (plus counts o) :=
  fun kd member => Nat.lt_of_lt_of_le (devices kd member) (Nat.le_add_right _ _)

namespace Tally

theorem alive (tally : Tally table (plus counts (some v)) opens s) : 0 < s.refs v := by
  rw [tally.refs,plus,one_self]
  omega

theorem alive_cwd (tally : Tally table counts opens s) (here : s.cwd = some v) : 0 < s.refs v := by
  rw [tally.refs,stored,here,one_self]
  omega

theorem alive_bootfs (tally : Tally table counts opens s) (here : s.bootfs = some v) :
    0 < s.refs v := by
  rw [tally.refs,stored,here,one_self]
  omega

theorem more (tally : Tally table counts opens s) (v : Nat) :
    Tally table (plus counts (some v)) opens (s.setRefs v (s.refs v + 1)) where
  refs w := by
    change Function.update s.refs v (s.refs v + 1) w = plus counts (some v) w + s.stored w
    rw [update_succ,plus,plus,tally.refs w]
    omega
  opens := tally.opens
  table := tally.table

theorem less (tally : Tally table (plus counts (some v)) opens s) :
    Tally table counts opens (s.setRefs v (s.refs v - 1)) where
  refs w := by
    have before : s.refs = plus (fun w => counts w + s.stored w) (some v) := by
      funext w
      rw [tally.refs w,plus,plus]
      omega
    change Function.update s.refs v (s.refs v - 1) w = counts w + s.stored w
    rw [before,update_pred]
  opens := tally.opens
  table := tally.table

theorem called (tally : Tally table counts opens s) :
    Tally table counts opens { s with calls := s.calls + 1 } := ⟨tally.refs,tally.opens,tally.table⟩

theorem changeCwd {dir : Option Nat} (tally : Tally table (plus counts dir) opens s) :
    Tally table (plus counts s.cwd) opens { s with cwd := dir } where
  refs w := by
    have before := tally.refs w
    simp only [plus,stored] at *
    omega
  opens := tally.opens
  table := tally.table

theorem changeBoot {newguy : Option Nat} (tally : Tally table (plus counts newguy) opens s) :
    Tally table (plus counts s.bootfs) opens { s with bootfs := newguy } where
  refs w := by
    have before := tally.refs w
    simp only [plus,stored] at *
    omega
  opens := tally.opens
  table := tally.table

end Tally

/-! vnode.c -/

section Calls
variable {err : Errno → Vnodes → Prop} {halt : VnodePanic → Vnodes → Prop}
variable {ok : Unit → Vnodes → Prop}

theorem wp_vnodeCheck (alive : 0 < s.refs v) :
    (vnodeCheck v).wp s ok err halt ↔ ok () s := by
  simp [vnodeCheck,alive]

theorem wp_vnodeIncref (alive : 0 < s.refs v) :
    (vnodeIncref v).wp s ok err halt ↔ ok () (s.setRefs v (s.refs v + 1)) := by
  simp [vnodeIncref,alive]

theorem wp_vnodeDecref (alive : 0 < s.refs v) :
    (vnodeDecref v).wp s ok err halt ↔ ok () (s.setRefs v (s.refs v - 1)) := by
  by_cases more : 1 < s.refs v
  · simp [vnodeDecref,alive,more]
  · have last : s.refs v = 1 := by omega
    simp [vnodeDecref,vopReclaim,last]

theorem wp_vnodeIncopen (alive : 0 < s.refs v) :
    (vnodeIncopen v).wp s ok err halt ↔ ok () (s.setOpens v (s.opens v + 1)) := by
  simp [vnodeIncopen,alive]

theorem wp_vnodeDecopen (alive : 0 < s.refs v) (open_ : 0 < s.opens v) :
    (vnodeDecopen v).wp s ok err halt ↔ ok () (s.setOpens v (s.opens v - 1)) := by
  have alive' : 0 < (s.setOpens v (s.opens v - 1)).refs v := alive
  simp only [vnodeDecopen,wp_bind,wp_read,wp_assert,wp_put,gt_iff_lt,alive,
    open_,decide_true,if_true]
  split
  · exact wp_pure ()
  · exact wp_vnodeCheck alive'

@[simp] theorem wp_answer {ok : α → Vnodes → Prop} (result : Nat → α) :
    (answer result).wp s ok err halt ↔ ok (result s.calls) { s with calls := s.calls + 1 } := Iff.rfl

@[simp] theorem wp_handBack :
    (handBack v).wp s ok err halt ↔ ok () (s.setRefs v (s.refs v + 1)) := Iff.rfl

theorem Tally.wp_decref
    (tally : Tally table (plus counts (some v)) opens s)
    (next : ∀ t, Tally table counts opens t → ok () t) : (vnodeDecref v).wp s ok err halt :=
  (wp_vnodeDecref tally.alive).2 (next _ tally.less)

theorem Tally.wp_decrefOld {old : Option Nat}
    (tally : Tally table (plus counts old) opens s)
    (next : ∀ t, Tally table counts opens t → ok () t) : (decrefOld old).wp s ok err halt := by
  cases old with
  | none => exact next s tally
  | some v => exact tally.wp_decref next

end Calls

/-! Rules for calls -/

namespace Balances
variable {handed : α → Option Nat}

theorem fail (code : Errno) (tally : Tally table counts opens s) :
    Balances (fail code) table counts opens s handed := tally

theorem bind {call : VnodeM β} {first : β → Option Nat} {next : β → VnodeM α}
    (before : Balances call table counts opens s first)
    (after : ∀ r t, Tally table (plus counts (first r)) opens t →
      Balances (next r) table counts opens t handed) :
    Balances (call >>= next) table counts opens s handed := by
  rw [Balances,wp_bind]
  exact wp_ends before (fun r t tally => after r t tally) (fun _ _ tally => tally)

theorem releasing {body : VnodeM α} (inner : Balances body table (plus counts (some v)) opens s handed) :
    Balances (do
      let result ← attempt body
      vnodeDecref v
      give result) table counts opens s handed := by
  simp only [Balances,wp_bind,wp_attempt]
  refine wp_ends inner (fun r t tally => ?_) (fun code t tally => ?_)
  · rw [plus_comm] at tally
    exact tally.wp_decref fun u back => back
  · exact tally.wp_decref fun u back => back

end Balances

/-! The operations of the file systems -/

theorem answer_spec (result : Nat → Except Errno α) (tally : Tally table counts opens s) :
    Balances (do give (← answer result)) table counts opens s fun _ => none := by
  simp only [Balances,wp_bind,wp_answer]
  cases result s.calls with
  | ok r => exact tally.called
  | error code => exact tally.called

theorem vop_spec (result : Nat → Except Errno α) (tally : Tally table counts opens s)
    (alive : 0 < s.refs v) : Balances (vop v result) table counts opens s fun _ => none := by
  rw [Balances,vop,wp_bind,wp_vnodeCheck alive]
  exact answer_spec result tally

theorem handed_spec {call : VnodeM β} {vnode : β → Nat}
    (inner : Balances call table counts opens s fun _ => none) :
    Balances (do
      let r ← call
      handBack (vnode r)
      return r) table counts opens s fun r => some (vnode r) :=
  inner.bind fun r _ tally => tally.more (vnode r)

theorem incref_spec (tally : Tally table counts opens s) (alive : 0 < s.refs v) :
    Balances (do
      vnodeIncref v
      return v) table counts opens s some := by
  simp only [Balances,wp_bind,wp_vnodeIncref alive]
  exact tally.more v

theorem fsopGetroot_spec (ops : FsOps) (fs : VolumeFs) (tally : Tally table counts opens s) :
    Balances (fsopGetroot ops fs) table counts opens s some := tally.called.more _

theorem vopLookup_spec (ops : FsOps) (path : CString) (tally : Tally table counts opens s)
    (alive : 0 < s.refs v) : Balances (vopLookup ops v path) table counts opens s some :=
  handed_spec (vop_spec _ tally alive)

theorem vopCreat_spec (ops : FsOps) (name : CString) (excl : Bool) (tally : Tally table counts opens s)
    (alive : 0 < s.refs v) : Balances (vopCreat ops v name excl) table counts opens s some :=
  handed_spec (vop_spec _ tally alive)

theorem vopLookparent_spec (ops : FsOps) (path : CString) (buflen : Nat)
    (tally : Tally table counts opens s) (alive : 0 < s.refs v) :
    Balances (vopLookparent ops v path buflen) table counts opens s fun r => some r.1 :=
  handed_spec (vop_spec _ tally alive)

/-! vfslist.c -/

theorem scan_reads {list : VfsList} {body : Nat → Knowndev → VfsM (Option α)}
    {found : Knowndev → α → Prop} {failure : Errno → VfsList → Prop}
    (each : ∀ i kd, list.it.v[i]? = some kd → (body i kd).wp list
      (fun r t => t = list ∧ ∀ a ∈ r, found kd a) failure fun _ _ => True) (count i : Nat) :
    (scan body count i).wp list (fun r t => t = list ∧ ∀ a ∈ r, ∃ kd ∈ list.it.v, found kd a)
      failure fun _ _ => True := by
  induction count generalizing i with
  | zero => exact ⟨rfl,fun a none => by cases none⟩
  | succ count ih =>
    simp only [scan,Os161.onKnowndevs,KArray.arrayGetguy,wp_bind,wp_mapPanic,
      wp_read,wp_assert]
    split
    · cases entry : list.it.v[i]? with
      | none => trivial
      | some kd =>
        simp only [wp_pure]
        refine wp_ends (each i kd entry) ?_ (fun _ _ failed => failed)
        rintro r t ⟨rfl,answer⟩
        cases r with
        | none => exact ih (i + 1)
        | some a =>
          refine ⟨rfl,fun b equal => ?_⟩
          exact ⟨kd,List.mem_of_getElem? entry,answer b equal⟩
    · trivial

theorem getrootDevice_reads (list : VfsList) (devname : CString) (kd : Knowndev) :
    (getrootDevice devname kd).wp list
      (fun r t => t = list ∧ ∀ h ∈ r, ∀ v, h = .device v → kd.kdVnode = v)
      never fun _ _ => True := by
  have device : ∀ h ∈ some (Handle.device kd.kdVnode), ∀ v, h = .device v → kd.kdVnode = v := by
    simp
  rw [getrootDevice]
  split_ifs with named raw
  · simp only [wp_bind,wp_assert,wp_pure]
    split_ifs
    exact ⟨trivial,device⟩
  · simp only [wp_bind,wp_assert,wp_pure]
    split_ifs
    exact ⟨trivial,device⟩
  · exact ⟨rfl,fun h none => by cases none⟩

theorem vfsGetroot_reads {list : VfsList} (devname : CString) :
    (Os161.vfsGetroot devname).wp list
      (fun h t => t = list ∧ ∀ v, h = .device v → ∃ kd ∈ list.it.v, kd.kdVnode = v)
      (fun code t => (code = .enxio ∨ code = .enodev) ∧ t = list) fun _ _ => True := by
  rw [Os161.vfsGetroot,overKnowndevs]
  simp only [wp_bind,wp_read]
  have each : ∀ (i : Nat) (kd : Knowndev), list.it.v[i]? = some kd → (getrootBody devname kd).wp list
      (fun r t => t = list ∧ ∀ h ∈ r, ∀ v, h = .device v → kd.kdVnode = v)
      (fun code t => (code = .enxio ∨ code = .enodev) ∧ t = list) fun _ _ => True := by
    intro i kd _
    have device := wp_mono (getrootDevice_reads list devname kd) (fun _ _ h => h)
      (fun (code : Errno) t h => (False.elim h : (code = .enxio ∨ code = .enodev) ∧ t = list))
      fun _ _ h => h
    rw [getrootBody]
    split <;> split_ifs
    · exact ⟨rfl,fun h root v equal => by simp_all⟩
    · exact device
    · exact ⟨.inl rfl,rfl⟩
    · exact device
  refine wp_ends (scan_reads each _ 0) ?_ (fun _ _ same => same)
  rintro r t ⟨rfl,answer⟩
  cases r with
  | none => exact ⟨.inr rfl,rfl⟩
  | some h =>
    obtain ⟨kd,member,vnode⟩ := answer h rfl
    exact ⟨rfl,fun v equal => ⟨kd,member,vnode v equal⟩⟩

theorem vfsGetroot_spec (ops : FsOps) (devname : CString) (devices : Devices table counts)
    (tally : Tally table counts opens s) :
    Balances (vfsGetroot ops devname) table counts opens s some := by
  simp only [Balances,vfsGetroot,onKnowndevs,wp_bind,wp_zoom,wp_mapPanic]
  refine wp_mono (vfsGetroot_reads devname) ?_ ?_ fun _ _ _ => rfl
  · rintro h t ⟨rfl,device⟩
    cases h with
    | root fs => exact fsopGetroot_spec ops fs tally
    | device v =>
      obtain ⟨kd,member,rfl⟩ := device v rfl
      have alive : 0 < s.refs kd.kdVnode := by
        have held := devices kd (tally.table ▸ member)
        rw [tally.refs]
        omega
      exact incref_spec tally alive
  · rintro code t ⟨-,rfl⟩
    exact tally

theorem vfsGetdevname_spec (fs : VolumeFs) (tally : Tally table counts opens s) :
    (vfsGetdevname fs).wp s (fun _ t => Tally table counts opens t) never
      fun site _ => site.foreign = true := by
  simp only [vfsGetdevname,onKnowndevs,wp_zoom,wp_mapPanic,overKnowndevs,wp_bind,
    wp_read]
  have each : ∀ (i : Nat) (kd : Knowndev), s.knowndevs.it.v[i]? = some kd →
      (Pure.pure (if kd.kdFs.map VolumeFs.fs = some fs.fs then some kd.kdName else none) :
        VfsM (Option CString)).wp s.knowndevs (fun r t => t = s.knowndevs ∧ ∀ a ∈ r, True)
        never fun _ _ => True := fun _ _ _ => ⟨rfl,fun _ _ => trivial⟩
  refine wp_mono (scan_reads each _ 0) ?_ (fun _ _ never => never) fun _ _ _ => rfl
  rintro r t ⟨rfl,-⟩
  exact tally

/-! vfscwd.c -/

theorem vfsGetcurdir_spec (tally : Tally table counts opens s) :
    Balances vfsGetcurdir table counts opens s some := by
  simp only [Balances,vfsGetcurdir,wp_bind,wp_read]
  cases here : s.cwd with
  | none => exact tally
  | some v => exact incref_spec tally (tally.alive_cwd here)

theorem changeCurdir_spec {dir : Option Nat} (tally : Tally table (plus counts dir) opens s) :
    Balances (changeCurdir dir) table counts opens s fun _ => none := by
  simp only [Balances,changeCurdir,wp_bind,wp_read,wp_put]
  exact tally.changeCwd.wp_decrefOld fun t back => back

theorem changeBootfs_spec {newguy : Option Nat} (tally : Tally table (plus counts newguy) opens s) :
    Balances (changeBootfs newguy) table counts opens s fun _ => none := by
  simp only [Balances,changeBootfs,wp_bind,wp_read,wp_put]
  exact tally.changeBoot.wp_decrefOld fun t back => back

theorem vfsSetcurdir_spec (ops : FsOps) (tally : Tally table counts opens s) (alive : 0 < s.refs v) :
    Balances (vfsSetcurdir ops v) table counts opens s fun _ => none := by
  simp only [Balances,vfsSetcurdir,vop,wp_bind,wp_vnodeCheck alive,wp_answer]
  cases ops.vopGettype s.calls v with
  | error code => exact tally.called
  | ok vtype =>
    rw [wp_give_ok]
    have alive' : 0 < ({ s with calls := s.calls + 1 } : Vnodes).refs v := alive
    split
    · rw [wp_bind,wp_vnodeIncref alive']
      exact changeCurdir_spec (tally.called.more v)
    · exact tally.called

/-! vfslookup.c -/

theorem le_locate (chars : List UInt8) (i : Nat) :
    (∀ j ∈ (locate chars i).1, i ≤ j) ∧ ∀ j ∈ (locate chars i).2, i ≤ j := by
  induction chars generalizing i with
  | nil => simp [locate]
  | cons c rest ih =>
    rw [locate]
    split_ifs
    · simp
    · simp
    · have later := ih (i + 1)
      exact ⟨fun j found => Nat.le_of_succ_le (later.1 j found),
        fun j found => Nat.le_of_succ_le (later.2 j found)⟩

theorem locate_first (chars : List UInt8) :
    ((locate chars 0).1 = some 0 → chars.head? = some 47) ∧
      ((locate chars 0).2 = some 0 → chars.head? = some 58) := by
  cases chars with
  | nil => simp [locate]
  | cons c rest =>
    have later := le_locate rest 1
    rw [locate]
    split_ifs with colon slash
    · simp [colon]
    · simp [slash]
    · exact ⟨fun found => absurd (later.1 0 found) (by decide),
        fun found => absurd (later.2 0 found) (by decide)⟩

theorem getdeviceRoot_spec (ops : FsOps) {path : CString} (tally : Tally table counts opens s)
    (first : path.chars.head? = some 47 ∨ path.chars.head? = some 58) :
    Balances (getdeviceRoot ops path) table counts opens s some := by
  rw [getdeviceRoot]
  split
  · simp only [Balances,wp_bind,wp_read]
    cases here : s.bootfs with
    | none => exact tally
    | some v => exact incref_spec tally (tally.alive_bootfs here)
  · rename_i notSlash
    have colon := first.resolve_left notSlash
    have passed : Balances (assert (path.chars.head? = some 58) .getdeviceColon) table counts
        opens s fun _ => none := by
      simpa [Balances,colon] using tally
    refine passed.bind fun _ t tally => (vfsGetcurdir_spec tally).bind fun v u held => ?_
    cases ops.vnFs v with
    | none => exact rfl
    | some fs =>
      simp only [Balances,fsopGetroot,wp_bind,wp_answer,wp_handBack,wp_pure]
      have both := held.called.more (ops.fsopGetroot u.calls fs)
      rw [plus_comm] at both
      exact both.wp_decref fun w back => back

theorem getdevice_spec (ops : FsOps) (path : CString) (devices : Devices table counts)
    (tally : Tally table counts opens s) :
    Balances (getdevice ops path) table counts opens s fun r => some r.1 := by
  obtain ⟨slashFirst,colonFirst⟩ := locate_first path.chars
  rw [getdevice]
  generalize locate path.chars 0 = found at *
  obtain ⟨slash,colon⟩ := found
  dsimp only at *
  split
  · exact (vfsGetcurdir_spec tally).bind fun v t held => held
  · rename_i special
    split
    · exact (vfsGetroot_spec ops _ devices tally).bind fun v t held => held
    · rename_i notDevice
      have start : colon = some 0 ∨ slash = some 0 := by
        cases colon with
        | none => exact .inr (by simpa using special)
        | some i =>
          cases i with
          | zero => exact .inl rfl
          | succ i => exact absurd rfl (notDevice i)
      have passed : Balances (assert (colon = some 0 ∨ slash = some 0) .getdeviceSlash) table
          counts opens s fun _ => none := by
        simpa [Balances,start] using tally
      have first : path.chars.head? = some 47 ∨ path.chars.head? = some 58 :=
        start.symm.imp slashFirst colonFirst
      refine passed.bind fun _ t tally => ?_
      exact (getdeviceRoot_spec ops tally first).bind fun v u held => held

theorem vfsLookparent_spec (ops : FsOps) (path : CString) (buflen : Nat)
    (devices : Devices table counts) (tally : Tally table counts opens s) :
    Balances (vfsLookparent ops path buflen) table counts opens s fun r => some r.1 := by
  refine (getdevice_spec ops path devices tally).bind fun ⟨startvn,rest⟩ t held =>
    Balances.releasing ?_
  split
  · exact Balances.fail .einval held
  · exact vopLookparent_spec ops rest buflen held held.alive

theorem vfsLookup_spec (ops : FsOps) (path : CString) (devices : Devices table counts)
    (tally : Tally table counts opens s) :
    Balances (vfsLookup ops path) table counts opens s some := by
  refine (getdevice_spec ops path devices tally).bind fun ⟨startvn,rest⟩ t held => ?_
  dsimp only
  split
  · exact held
  · exact Balances.releasing (vopLookup_spec ops rest held held.alive)

theorem vfsChdir_spec (ops : FsOps) (path : CString) (devices : Devices table counts)
    (tally : Tally table counts opens s) :
    Balances (vfsChdir ops path) table counts opens s fun _ => none :=
  (vfsLookup_spec ops path devices tally).bind fun _ _ held =>
    Balances.releasing (vfsSetcurdir_spec ops held held.alive)

theorem vfsSetbootfs_spec (ops : FsOps) (fsname : CString) (devices : Devices table counts)
    (tally : Tally table counts opens s) :
    Balances (vfsSetbootfs ops fsname) table counts opens s fun _ => none := by
  have named : Balances (bootfsPath fsname) table counts opens s fun _ => none := by
    rw [bootfsPath]
    split
    · split
      · exact Balances.fail .einval tally
      · exact tally
    · exact tally
  refine named.bind fun path t tally => (vfsChdir_spec ops path devices tally).bind fun _ u tally => ?_
  exact (vfsGetcurdir_spec tally).bind fun v w held => changeBootfs_spec held

theorem volumeName_spec (fs : VolumeFs) (tally : Tally table counts opens s) :
    (volumeName fs).wp s (fun _ t => Tally table counts opens t) never
      fun site _ => site.foreign = true := by
  rw [volumeName]
  split
  · exact tally
  · exact vfsGetdevname_spec fs tally

theorem vfsGetcwd_spec (ops : FsOps) (read : Bool) (tally : Tally table counts opens s) :
    Balances (vfsGetcwd ops read) table counts opens s fun _ => none := by
  cases read with
  | false => exact rfl
  | true =>
    have passed : Balances (assert true .getcwdRw) table counts opens s fun _ => none := tally
    refine passed.bind fun _ t tally => ?_
    refine (vfsGetcurdir_spec tally).bind fun v u held => ?_
    cases ops.vnFs v with
    | none => exact rfl
    | some fs =>
      rw [Balances,wp_bind]
      refine wp_ends (volumeName_spec fs held) ?_ (fun _ _ never => never.elim)
      intro name w held
      cases name with
      | none => exact rfl
      | some name =>
        refine Balances.releasing (Balances.bind (answer_spec _ held) fun _ x held => ?_)
        exact Balances.bind (answer_spec _ held) fun _ y held => vop_spec _ held held.alive

/-! vfspath.c -/

theorem openVnode_spec (ops : FsOps) (path : CString) (openflags : UInt32)
    (devices : Devices table counts) (tally : Tally table counts opens s) :
    Balances (openVnode ops path openflags) table counts opens s some := by
  rw [openVnode]
  split
  · refine (vfsLookparent_spec ops path _ devices tally).bind fun ⟨dir,name⟩ t held => ?_
    exact Balances.releasing (vopCreat_spec ops name _ held held.alive)
  · exact vfsLookup_spec ops path devices tally

theorem vfsRemove_spec (ops : FsOps) (path : CString) (devices : Devices table counts)
    (tally : Tally table counts opens s) :
    Balances (vfsRemove ops path) table counts opens s fun _ => none :=
  (vfsLookparent_spec ops path _ devices tally).bind fun ⟨_,_⟩ _ held =>
    Balances.releasing (vop_spec _ held held.alive)

theorem Tally.wp_decref_both {ok : Unit → Vnodes → Prop} {err : Errno → Vnodes → Prop}
    {halt : VnodePanic → Vnodes → Prop} {w : Nat}
    (tally : Tally table (plus (plus counts (some v)) (some w)) opens s)
    (next : ∀ t, Tally table counts opens t → ok () t) :
    (vnodeDecref w).wp s (fun _ t => (vnodeDecref v).wp t ok err halt) err halt :=
  tally.wp_decref fun _ one => one.wp_decref next

theorem intoDirectory_spec (ops : FsOps) (newpath : CString)
    (result : Nat → CString → Nat → Except Errno Unit) {on : Nat → Nat}
    (target : ∀ newdir, on newdir = v ∨ on newdir = newdir) (devices : Devices table counts)
    (tally : Tally table (plus counts (some v)) opens s) :
    Balances (intoDirectory ops v newpath result on) table counts opens s fun _ => none := by
  simp only [Balances,intoDirectory,wp_bind,wp_attempt]
  refine wp_ends (vfsLookparent_spec ops newpath _ (devices.plus _) tally) ?_ ?_
  · rintro ⟨newdir,newname⟩ t both
    have alive : 0 < t.refs (on newdir) := by
      rcases target newdir with equal | equal
      · rw [plus_comm] at both
        rw [equal]
        exact both.alive
      · rw [equal]
        exact both.alive
    dsimp only
    split
    · simp only [wp_bind,wp_attempt]
      refine wp_ends (vop_spec (result newdir newname) both alive) ?_ ?_
      · exact fun _ u both => both.wp_decref_both fun w back => back
      · exact fun _ u both => both.wp_decref_both fun w back => back
    · simp only [wp_bind]
      exact both.wp_decref_both fun w back => back
  · intro code t held
    exact held.wp_decref fun u back => back

theorem vfsRename_spec (ops : FsOps) (oldpath newpath : CString) (devices : Devices table counts)
    (tally : Tally table counts opens s) :
    Balances (vfsRename ops oldpath newpath) table counts opens s fun _ => none :=
  (vfsLookparent_spec ops oldpath _ devices tally).bind fun ⟨_,_⟩ _ held =>
    intoDirectory_spec ops newpath _ (fun _ => .inl rfl) devices held

theorem vfsLink_spec (ops : FsOps) (oldpath newpath : CString) (devices : Devices table counts)
    (tally : Tally table counts opens s) :
    Balances (vfsLink ops oldpath newpath) table counts opens s fun _ => none :=
  (vfsLookup_spec ops oldpath devices tally).bind fun _ _ held =>
    intoDirectory_spec ops newpath _ (fun _ => .inr rfl) devices held

theorem Tally.incopen (tally : Tally table counts opens s) (v : Nat) :
    Tally table counts (plus opens (some v)) (s.setOpens v (s.opens v + 1)) where
  refs := tally.refs
  opens := by
    rw [← tally.opens]
    exact update_succ s.opens v
  table := tally.table

theorem Tally.opened (tally : Tally table counts (plus opens (some v)) s) : 0 < s.opens v := by
  rw [tally.opens,plus,one_self]
  omega

theorem Tally.decopen (tally : Tally table counts (plus opens (some v)) s) :
    Tally table counts opens (s.setOpens v (s.opens v - 1)) where
  refs := tally.refs
  opens := by
    rw [setOpens,tally.opens]
    exact update_pred opens v
  table := tally.table

theorem Tally.wp_close {ok : Unit → Vnodes → Prop} {err : Errno → Vnodes → Prop}
    {halt : VnodePanic → Vnodes → Prop}
    (tally : Tally table (plus counts (some v)) (plus opens (some v)) s)
    (next : ∀ t, Tally table counts opens t → ok () t) :
    (vnodeDecopen v).wp s (fun _ t => (vnodeDecref v).wp t ok err halt) err halt :=
  (wp_vnodeDecopen tally.alive tally.opened).2 (tally.decopen.wp_decref next)

theorem vfsClose_spec (tally : Tally table (plus counts (some v)) (plus opens (some v)) s) :
    (vfsClose v).wp s (fun _ t => Tally table counts opens t) never never := by
  rw [vfsClose,wp_bind]
  exact tally.wp_close fun _ back => back

def Opens (call : VnodeM Nat) (table : List Knowndev) (counts opens : Nat → Nat) (s : Vnodes) :
    Prop :=
  call.wp s (fun r t => Tally table (plus counts (some r)) (plus opens (some r)) t)
    (fun _ t => Tally table counts opens t) fun site _ => site.foreign = true

theorem openTrunc_spec (ops : FsOps) (openflags : UInt32) (canwrite : Bool)
    (tally : Tally table (plus counts (some v)) (plus opens (some v)) s) :
    Opens (openTrunc ops v openflags canwrite) table counts opens s := by
  rw [openTrunc]
  split
  · have truncated : Balances (if canwrite then vop v fun n => ops.vopTruncate n v 0
        else fail .einval) table (plus counts (some v)) (plus opens (some v)) s
        fun _ => none := by
      split
      · exact vop_spec _ tally tally.alive
      · exact Balances.fail .einval tally
    simp only [Opens,wp_bind,wp_attempt]
    refine wp_ends truncated (fun _ t tally => tally) (fun code t tally => ?_)
    exact tally.wp_close fun _ back => back
  · exact tally

theorem openAs_spec (ops : FsOps) (path : CString) (openflags : UInt32) (canwrite : Bool)
    (devices : Devices table counts) (tally : Tally table counts opens s) :
    Opens (openAs ops path openflags canwrite) table counts opens s := by
  rw [Opens,openAs,wp_bind]
  refine wp_ends (openVnode_spec ops path openflags devices tally) (fun vn t held => ?_)
    (fun _ _ tally => tally)
  simp only [wp_bind,wp_attempt]
  refine wp_ends (vop_spec _ held held.alive) (fun _ u held => ?_) (fun code u held => ?_)
  · rw [wp_vnodeIncopen held.alive]
    exact openTrunc_spec ops openflags canwrite (held.incopen vn)
  · exact held.wp_decref fun w back => back

theorem vfsOpen_spec (ops : FsOps) (path : CString) (openflags : UInt32)
    (devices : Devices table counts) (tally : Tally table counts opens s) :
    Opens (vfsOpen ops path openflags) table counts opens s := by
  rw [vfsOpen]
  split
  · exact openAs_spec ops path openflags false devices tally
  split
  · exact openAs_spec ops path openflags true devices tally
  · exact tally

end Vnodes

/-! All calls -/

/-- The functions of the three files that other code calls. -/
inductive VfsCall where
  | vfsOpen (path : CString) (openflags : UInt32)
  | vfsClose (vn : Nat)
  | vfsRemove (path : CString)
  | vfsRename (oldpath newpath : CString)
  | vfsLink (oldpath newpath : CString)
  | vfsLookup (path : CString)
  | vfsLookparent (path : CString) (buflen : Nat)
  | vfsChdir (path : CString)
  | vfsSetcurdir (dir : Nat)
  | vfsClearcurdir
  | vfsGetcwd (read : Bool)
  | vfsSetbootfs (fsname : CString)
  | vfsClearbootfs
  deriving DecidableEq

namespace VfsCall
open Vnodes

/-- The call, with the vnode that it hands to its caller. -/
def run (ops : FsOps) : VfsCall → VnodeM (Option Nat)
  | .vfsOpen path openflags => do return some (← Vnodes.vfsOpen ops path openflags)
  | .vfsClose vn => do Vnodes.vfsClose vn; return none
  | .vfsRemove path => do Vnodes.vfsRemove ops path; return none
  | .vfsRename oldpath newpath => do Vnodes.vfsRename ops oldpath newpath; return none
  | .vfsLink oldpath newpath => do Vnodes.vfsLink ops oldpath newpath; return none
  | .vfsLookup path => do return some (← Vnodes.vfsLookup ops path)
  | .vfsLookparent path buflen => do return some (← Vnodes.vfsLookparent ops path buflen).1
  | .vfsChdir path => do Vnodes.vfsChdir ops path; return none
  | .vfsSetcurdir dir => do Vnodes.vfsSetcurdir ops dir; return none
  | .vfsClearcurdir => do Vnodes.vfsClearcurdir; return none
  | .vfsGetcwd read => do Vnodes.vfsGetcwd ops read; return none
  | .vfsSetbootfs fsname => do Vnodes.vfsSetbootfs ops fsname; return none
  | .vfsClearbootfs => do Vnodes.vfsClearbootfs; return none

/-- The vnode of which the caller gives up a reference and an open. -/
def consumes : VfsCall → Option Nat
  | .vfsClose vn => some vn
  | _ => none

def passes : VfsCall → Option Nat
  | .vfsClose vn => some vn
  | .vfsSetcurdir dir => some dir
  | _ => none

def opened (handed : Option Nat) : VfsCall → Option Nat
  | .vfsOpen _ _ => handed
  | _ => none

variable {table : List Knowndev} {counts opens : Nat → Nat} {s : Vnodes}

theorem run_spec (ops : FsOps) (call : VfsCall) (devices : Devices table counts)
    (tally : Tally table (plus counts call.consumes) (plus opens call.consumes) s)
    (alive : ∀ v ∈ call.passes, 0 < s.refs v) :
    (call.run ops).wp s
      (fun handed t => Tally table (plus counts handed) (plus opens (call.opened handed)) t)
      (fun _ t => Tally table (plus counts call.consumes) (plus opens call.consumes) t)
      fun site _ => site.foreign = true := by
  cases call with
  | vfsOpen path openflags =>
    rw [run,wp_bind]
    exact Vnodes.vfsOpen_spec ops path openflags devices tally
  | vfsClose vn =>
    rw [run,wp_bind]
    exact wp_mono (Vnodes.vfsClose_spec tally) (fun _ _ back => back)
      (fun _ _ never => never.elim) fun _ _ never => never.elim
  | vfsRemove path => exact (Vnodes.vfsRemove_spec ops path devices tally).bind fun _ _ back => back
  | vfsRename oldpath newpath =>
    exact (Vnodes.vfsRename_spec ops oldpath newpath devices tally).bind fun _ _ back => back
  | vfsLink oldpath newpath =>
    exact (Vnodes.vfsLink_spec ops oldpath newpath devices tally).bind fun _ _ back => back
  | vfsLookup path => exact (Vnodes.vfsLookup_spec ops path devices tally).bind fun _ _ held => held
  | vfsLookparent path buflen =>
    exact (Vnodes.vfsLookparent_spec ops path buflen devices tally).bind fun _ _ held => held
  | vfsChdir path => exact (Vnodes.vfsChdir_spec ops path devices tally).bind fun _ _ back => back
  | vfsSetcurdir dir =>
    exact (Vnodes.vfsSetcurdir_spec ops tally (alive dir rfl)).bind fun _ _ back => back
  | vfsClearcurdir =>
    exact (Vnodes.changeCurdir_spec tally).bind fun _ _ back => back
  | vfsGetcwd read => exact (Vnodes.vfsGetcwd_spec ops read tally).bind fun _ _ back => back
  | vfsSetbootfs fsname =>
    exact (Vnodes.vfsSetbootfs_spec ops fsname devices tally).bind fun _ _ back => back
  | vfsClearbootfs =>
    exact (Vnodes.changeBootfs_spec tally).bind fun _ _ back => back

theorem run_tally (ops : FsOps) (call : VfsCall) (tally : Tally table counts opens s)
    (consumes : ∀ v, one call.consumes v ≤ counts v) (closes : ∀ v, one call.consumes v ≤ opens v)
    (devices : ∀ kd ∈ table, one call.consumes kd.kdVnode < counts kd.kdVnode)
    (alive : ∀ v ∈ call.passes, 0 < s.refs v) :
    (call.run ops).wp s
      (fun handed t => Tally table (fun v => counts v + one handed v - one call.consumes v)
        (fun v => opens v + one (call.opened handed) v - one call.consumes v) t)
      (fun _ t => Tally table counts opens t) fun site _ => site.foreign = true := by
  have left : Devices table fun v => counts v - one call.consumes v := fun kd member =>
    Nat.sub_pos_of_lt (devices kd member)
  rw [← plus_sub consumes,← plus_sub closes] at tally
  refine wp_ends (call.run_spec ops left tally alive) (fun handed t after => ?_)
    (fun _ t after => ?_)
  · refine ⟨fun v => ?_,?_,after.table⟩
    · have := consumes v
      rw [after.refs v,plus]
      omega
    · funext v
      have := closes v
      rw [after.opens,plus]
      omega
  · rwa [plus_sub consumes,plus_sub closes] at after

theorem one_consumes_le (call : VfsCall) (v : Nat) : one call.consumes v ≤ one call.passes v := by
  cases call with
  | vfsClose vn => exact Nat.le_refl _
  | _ => exact Nat.zero_le _

end VfsCall

namespace Vnodes

def tabled (s : Vnodes) (v : Nat) : Nat := s.knowndevs.it.v.countP (·.kdVnode = v)

theorem tabled_pos {s : Vnodes} {kd : Knowndev} (member : kd ∈ s.knowndevs.it.v) :
    0 < s.tabled kd.kdVnode :=
  List.countP_pos_iff.2 ⟨kd,member,by simp⟩

end Vnodes

namespace VfsCall
open Vnodes

/-- What is stored has references, and so has what the caller passes, which is open if it is to
be closed. -/
structure Valid (call : VfsCall) (s : Vnodes) : Prop where
  refs : ∀ v, s.stored v + s.tabled v + one call.passes v ≤ s.refs v
  opens : ∀ v ∈ call.consumes, 0 < s.opens v

/-- Each call changes the reference count of every vnode by the references that it hands to
its caller and those that are newly stored, less those that it consumes and those that are no
longer stored, and the open count by what it opens and closes. A call can halt only in an
assertion that is not about counts. -/
theorem vfs_counts_balance (ops : FsOps) (call : VfsCall) {s : Vnodes} (valid : call.Valid s) :
    (call.run ops).wp s
      (fun handed t => ∀ v,
        t.refs v + (s.stored v + one call.consumes v) = s.refs v + (t.stored v + one handed v) ∧
        t.opens v + one call.consumes v = s.opens v + one (call.opened handed) v)
      (fun _ t => ∀ v, t.refs v + s.stored v = s.refs v + t.stored v ∧ t.opens v = s.opens v)
      fun site _ => site.foreign = true := by
  have covered : ∀ v, s.stored v + s.tabled v + one call.consumes v ≤ s.refs v := fun v =>
    Nat.le_trans (Nat.add_le_add_left (call.one_consumes_le v) _) (valid.refs v)
  have closes : ∀ v, one call.consumes v ≤ s.opens v := by
    intro v
    rw [one]
    split
    · exact valid.opens v ‹_›
    · exact Nat.zero_le _
  have stored : ∀ v, s.stored v ≤ s.refs v := fun v => by
    have := covered v
    omega
  have tally : Tally s.knowndevs.it.v (fun v => s.refs v - s.stored v) s.opens s :=
    ⟨fun v => (Nat.sub_add_cancel (stored v)).symm,rfl,rfl⟩
  have consumes : ∀ v, one call.consumes v ≤ s.refs v - s.stored v := fun v => by
    have := covered v
    omega
  have alive : ∀ v ∈ call.passes, 0 < s.refs v := fun v passed => by
    have := valid.refs v
    rw [Option.mem_def.1 passed,one_self] at this
    omega
  refine wp_ends (call.run_tally ops tally consumes closes (fun kd member => ?_) alive) ?_ ?_
  · have some := tabled_pos member
    have := covered kd.kdVnode
    omega
  · intro handed t after v
    have := stored v
    have := consumes v
    have := closes v
    rw [after.refs v,after.opens]
    dsimp only
    omega
  · intro code t after v
    have := stored v
    rw [after.refs v,after.opens]
    omega

/-- A file system on which every call succeeds and every name is that of vnode 2. -/
def answering : FsOps where
  vnFs _ := some ⟨0,none⟩
  vopOpen _ _ _ := .ok ()
  vopTruncate _ _ _ := .ok ()
  vopGettype _ _ := .ok 0o20000
  vopNamefile _ _ := .ok ()
  vopCreat _ _ _ _ := .ok 2
  vopLink _ _ _ _ := .ok ()
  vopRemove _ _ _ := .ok ()
  vopRename _ _ _ _ _ := .ok ()
  vopLookup _ _ _ := .ok 2
  vopLookparent _ dir path _ := .ok (dir,path)
  fsopGetroot _ _ := 1
  uiomove _ _ := .ok ()

def atHome : Vnodes where
  refs v := if v = 1 then 1 else 0
  opens _ := 0
  cwd := some 1
  bootfs := none
  knowndevs := noDevices endless
  calls := 0

def openName : VfsCall :=
  .vfsOpen ⟨[120],fun nul => absurd (List.mem_singleton.mp nul) (by decide)⟩ oRdonly

theorem openName_valid : openName.Valid atHome where
  refs v := by
    by_cases same : v = 1
    · subst same
      decide
    · have apart : (1 : Nat) ≠ v := fun equal => same equal.symm
      simp [stored,tabled,atHome,noDevices,KArray.arrayCreate,openName,passes,one,apart]
  opens v none := by cases none

theorem vfs_counts_balance_open : ∃ t, openName.run answering atHome = (.ok (some 2),t) ∧
    ∀ v, t.refs v + (atHome.stored v + one openName.consumes v) =
        atHome.refs v + (t.stored v + one (some 2) v) ∧
      t.opens v + one openName.consumes v = atHome.opens v + one (openName.opened (some 2)) v := by
  have balance := vfs_counts_balance answering openName openName_valid
  exact ⟨_,rfl,balance⟩

end VfsCall

/-! Sequences of calls -/

/-- The vnodes together with the references and opens that the callers hold. -/
structure Session where
  vnodes : Vnodes
  held : Nat → Nat
  opening : Nat → Nat

namespace Session
open Vnodes

structure Allows (s : Session) (call : VfsCall) : Prop where
  passes : ∀ v, one call.passes v ≤ s.held v
  consumes : ∀ v, one call.consumes v ≤ s.opening v

inductive Step (ops : FsOps) : Session → Session → Prop where
  | returns {s} (call : VfsCall) {handed : Option Nat} {t : Vnodes} : s.Allows call →
      call.run ops s.vnodes = (.ok handed,t) →
      Step ops s ⟨t,fun v => s.held v + one handed v - one call.consumes v,
        fun v => s.opening v + one (call.opened handed) v - one call.consumes v⟩
  | fails {s} (call : VfsCall) {code : Errno} {t : Vnodes} : s.Allows call →
      call.run ops s.vnodes = (.err code,t) → Step ops s ⟨t,s.held,s.opening⟩

/-- Every reference is held by a caller, the table, `t_cwd` or `bootfs_vnode`. -/
def Accounted (table : List Knowndev) (s : Session) : Prop :=
  Tally table (fun v => s.held v + table.countP (·.kdVnode = v)) s.opening s.vnodes

variable {table : List Knowndev} {s : Session}

theorem Accounted.call (accounted : Accounted table s)
    (ops : FsOps) {call : VfsCall} (allows : s.Allows call) :
    (call.run ops).wp s.vnodes
      (fun handed t => Accounted table ⟨t,fun v => s.held v + one handed v - one call.consumes v,
        fun v => s.opening v + one (call.opened handed) v - one call.consumes v⟩)
      (fun _ t => Accounted table ⟨t,s.held,s.opening⟩) fun site _ => site.foreign = true := by
  have holds : ∀ v, one call.consumes v ≤ s.held v := fun v =>
    Nat.le_trans (call.one_consumes_le v) (allows.passes v)
  have alive : ∀ v ∈ call.passes, 0 < s.vnodes.refs v := fun v passed => by
    have := allows.passes v
    rw [Option.mem_def.1 passed,one_self] at this
    rw [accounted.refs v]
    omega
  refine wp_ends (call.run_tally ops accounted (fun v => ?_) allows.consumes
    (fun kd member => ?_) alive) (fun handed t after => ⟨fun v => ?_,after.opens,after.table⟩)
    (fun _ _ after => after)
  · exact Nat.le_add_right_of_le (holds v)
  · have tabled : 0 < table.countP (·.kdVnode = kd.kdVnode) :=
      List.countP_pos_iff.2 ⟨kd,member,by simp⟩
    have := holds kd.kdVnode
    omega
  · have := holds v
    rw [after.refs v]
    dsimp only
    omega

theorem Accounted.step {ops : FsOps} {t : Session}
    (accounted : Accounted table s) (step : Step ops s t) : Accounted table t := by
  cases step with
  | returns call allows ran =>
    have spec := accounted.call ops allows
    simpa only [Exec.wp,ran] using spec
  | fails call allows ran =>
    have spec := accounted.call ops allows
    simpa only [Exec.wp,ran] using spec

end Session
end Os161
