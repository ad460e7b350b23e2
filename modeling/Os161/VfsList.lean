import Mathlib.Data.List.Perm.Basic
import Os161.Containers
import Os161.SfsFormat

/-! `vfslist.c`: the table of named devices, the `dev` of `dev:path`. What a mount function,
`FSOP_SYNC` and `FSOP_UNMOUNT` return is an input of the operation that calls them. -/
namespace Os161

/-- A mounted file system, as far as this table looks at it. -/
structure VolumeFs where
  fs : Nat
  getvolname : Option CString
  deriving DecidableEq

/-- `struct knowndev`. Devices and vnodes are told apart by number. -/
structure Knowndev where
  kdName : CString
  kdRawname : Option CString
  kdDevice : Option Nat
  kdVnode : Nat
  kdFs : Option VolumeFs
  deriving DecidableEq

instance : Inhabited Knowndev := ⟨⟨⟨[],List.not_mem_nil⟩,none,none,0,none⟩⟩

inductive VfsPanic where
  | array (site : ThreadPanic)
  | createVnodeInit
  | getrootFs | getrootRawname | getrootDevice | getrootRawDevice
  | mountRawname | mountDevice | mountFs | unmountRawname | unmountDevice
  deriving DecidableEq, Repr

abbrev VfsList := Held (KArray Knowndev)

abbrev VfsM (α : Type) := Exec VfsList Errno VfsPanic α

def onKnowndevs (call : Holding (KArray Knowndev) α) : VfsM α := mapPanic .array call

/-- `for (i=0; i<num; i++)` over the table, left as soon as the body has an answer. -/
def scan (body : Nat → Knowndev → VfsM (Option α)) : Nat → Nat → VfsM (Option α)
  | 0, _ => pure none
  | count + 1, i => do
    let kd ← onKnowndevs (KArray.arrayGetguy i)
    match ← body i kd with
    | some answer => pure (some answer)
    | none => scan body count (i + 1)

def overKnowndevs (body : Nat → Knowndev → VfsM (Option α)) : VfsM (Option α) := do
  scan body (← read).it.num 0

inductive Handle where
  | root (fs : VolumeFs)
  | device (vnode : Nat)
  deriving DecidableEq

/-- The last two tests of `vfs_getroot`, which hand back the device itself. -/
def getrootDevice (devname : CString) (kd : Knowndev) : VfsM (Option Handle) :=
  if kd.kdName = devname then do
    assert (kd.kdFs = none) .getrootFs
    assert (kd.kdRawname = none) .getrootRawname
    assert kd.kdDevice.isSome .getrootDevice
    pure (some (.device kd.kdVnode))
  else if kd.kdRawname = some devname then do
    assert kd.kdDevice.isSome .getrootRawDevice
    pure (some (.device kd.kdVnode))
  else pure none

/-- The body of the loop of `vfs_getroot`. -/
def getrootBody (devname : CString) (kd : Knowndev) : VfsM (Option Handle) :=
  match kd.kdFs with
  | some fs =>
    if kd.kdName = devname ∨ fs.getvolname = some devname then pure (some (.root fs))
    else getrootDevice devname kd
  | none =>
    if kd.kdRawname.isSome ∧ kd.kdName = devname then fail .enxio
    else getrootDevice devname kd

def vfsGetroot (devname : CString) : VfsM Handle := do
  match ← overKnowndevs fun _ kd => getrootBody devname kd with
  | some handle => pure handle
  | none => fail .enodev

def mkrawname (name : CString) : CString where
  chars := name.chars ++ [0x72,0x61,0x77]
  noNul := by
    have := name.noNul
    simp_all

def samestring (a b : Option CString) : Bool :=
  match a, b with
  | some a, some b => a = b
  | _, _ => false

def samestring3 (a b c d : Option CString) : Bool :=
  samestring a b || samestring a c || samestring a d

def badnamesBody (n1 n2 n3 : Option CString) (kd : Knowndev) : Bool :=
  (match kd.kdFs with
    | some fs => samestring3 fs.getvolname n1 n2 n3
    | none => false) ||
  samestring3 kd.kdRawname n1 n2 n3 || samestring3 (some kd.kdName) n1 n2 n3

def badnames (n1 n2 n3 : Option CString) : VfsM Bool := do
  let found ← overKnowndevs fun _ kd => pure (if badnamesBody n1 n2 n3 kd then some () else none)
  pure found.isSome

/-- `dev_create_vnode`, which panics if there is a vnode but no lock for it. The vnode is
numbered by the `kmalloc` call that made it. -/
def devCreateVnode : VfsM Nat := do
  let vnode := (← read).mem.calls
  onKnowndevs Held.kmalloc
  -- `lock_create`: the lock and its name
  match ← attempt (onKnowndevs (do Held.kmalloc; Held.kmalloc)) with
  | .ok _ => pure vnode
  | .error _ => panic .createVnodeInit

def vfsDoadd (dname : CString) (mountable : Bool) (dev : Option Nat) (fs : Option VolumeFs) :
    VfsM Unit := do
  onKnowndevs Held.kmalloc
  if mountable then onKnowndevs Held.kmalloc
  let rawname := if mountable then some (mkrawname dname) else none
  let vnode ← devCreateVnode
  onKnowndevs Held.kmalloc
  let volname := fs.bind VolumeFs.getvolname
  if ← badnames (some dname) rawname volname then fail .eexist
  else onKnowndevs (KArray.arrayAdd ⟨dname,rawname,dev,vnode,fs⟩)

def vfsAdddev (devname : CString) (dev : Nat) (mountable : Bool) : VfsM Unit :=
  vfsDoadd devname mountable (some dev) none

def vfsAddfs (devname : CString) (fs : VolumeFs) : VfsM Unit :=
  vfsDoadd devname false none (some fs)

def findmount (devname : CString) : VfsM (Nat × Knowndev) := do
  match ← overKnowndevs fun i kd =>
      pure (if kd.kdRawname.isSome ∧ devname = kd.kdName then some (i,kd) else none) with
  | some found => pure found
  | none => fail .enodev

def setFs (i : Nat) (kd : Knowndev) (fs : Option VolumeFs) : VfsM Unit :=
  modify fun s => { s with it := { s.it with v := s.it.v.set i { kd with kdFs := fs } } }

/-- `mountfunc` is what the mount function answers: its code, or the file system it set. -/
def vfsMount (devname : CString) (mountfunc : Except Errno (Option VolumeFs)) : VfsM Unit := do
  let (i,kd) ← findmount devname
  if kd.kdFs ≠ none then fail .ebusy
  else do
    assert kd.kdRawname.isSome .mountRawname
    assert kd.kdDevice.isSome .mountDevice
    match ← give mountfunc with
    | none => panic .mountFs
    | some fs => setFs i kd (some fs)

def vfsUnmount (devname : CString) (sync unmount : Except Errno Unit) : VfsM Unit := do
  let (i,kd) ← findmount devname
  if kd.kdFs = none then fail .einval
  else do
    assert kd.kdRawname.isSome .unmountRawname
    assert kd.kdDevice.isSome .unmountDevice
    give sync
    give unmount
    setFs i kd none

inductive VfsOp where
  | adddev (devname : CString) (dev : Nat) (mountable : Bool)
  | addfs (devname : CString) (fs : VolumeFs)
  | mount (devname : CString) (mountfunc : Except Errno (Option VolumeFs))
  | unmount (devname : CString) (sync result : Except Errno Unit)

def VfsOp.run : VfsOp → VfsM Unit
  | .adddev devname dev mountable => vfsAdddev devname dev mountable
  | .addfs devname fs => vfsAddfs devname fs
  | .mount devname mountfunc => vfsMount devname mountfunc
  | .unmount devname sync result => vfsUnmount devname sync result

def VfsOp.after (op : VfsOp) (s : VfsList) : VfsList := (op.run s).2

/-! The loops over the table -/

section Scan
variable {s : VfsList} {body : Nat → Knowndev → VfsM (Option α)}
  {answer : Nat → Knowndev → Option α → Prop} {failure : Nat → Knowndev → Errno → Prop}

theorem scan_spec (valid : s.it.num ≤ s.it.max)
    (each : ∀ i kd, s.it.v[i]? = some kd →
      (body i kd).wp s (fun r t => t = s ∧ answer i kd r) (fun e t => t = s ∧ failure i kd e)
        never) (count i : Nat) (whole : i + count = s.it.num) :
    (scan body count i).wp s
      (fun r t => t = s ∧ match r with
        | some _ => ∃ j kd, s.it.v[j]? = some kd ∧ answer j kd r
        | none => ∀ j kd, i ≤ j → s.it.v[j]? = some kd → answer j kd none)
      (fun e t => t = s ∧ ∃ j kd, s.it.v[j]? = some kd ∧ failure j kd e) never := by
  induction count generalizing i with
  | zero =>
    refine ⟨rfl,fun j kd from_i entry => ?_⟩
    have : j < s.it.v.length := (List.getElem?_eq_some_iff.1 entry).1
    have length : s.it.num = s.it.v.length := rfl
    omega
  | succ count ih =>
    have inside : i < s.it.v.length := by
      have length : s.it.num = s.it.v.length := rfl
      omega
    have entry : s.it.v[i]? = some s.it.v[i] := List.getElem?_eq_getElem inside
    rw [scan,wp_bind,onKnowndevs,wp_mapPanic]
    refine wp_total (KArray.arrayGetguy_spec valid entry) ?_
    rintro kd t ⟨rfl,rfl⟩
    rw [wp_bind]
    refine wp_ends (each i _ entry) ?_ (fun _ _ h => ⟨h.1,i,_,entry,h.2⟩)
    rintro r t ⟨rfl,answered⟩
    cases r with
    | some a => exact ⟨rfl,i,_,entry,answered⟩
    | none =>
      refine wp_imp (ih (i + 1) (by omega)) ?_
      rintro (_ | a) u ⟨same,rest⟩
      · refine ⟨same,fun j kd from_i at_j => ?_⟩
        rcases Nat.eq_or_lt_of_le from_i with rfl | later
        · rw [entry] at at_j
          cases at_j
          exact answered
        · exact rest j kd later at_j
      · exact ⟨same,rest⟩

theorem overKnowndevs_spec (answer : Nat → Knowndev → Option α → Prop)
    (failure : Nat → Knowndev → Errno → Prop) (valid : s.it.num ≤ s.it.max)
    (each : ∀ i kd, s.it.v[i]? = some kd →
      (body i kd).wp s (fun r t => t = s ∧ answer i kd r) (fun e t => t = s ∧ failure i kd e)
        never) :
    (overKnowndevs body).wp s
      (fun r t => t = s ∧ match r with
        | some _ => ∃ j kd, s.it.v[j]? = some kd ∧ answer j kd r
        | none => ∀ j kd, s.it.v[j]? = some kd → answer j kd none)
      (fun e t => t = s ∧ ∃ j kd, s.it.v[j]? = some kd ∧ failure j kd e) never := by
  rw [overKnowndevs,wp_bind,wp_read]
  refine wp_imp (scan_spec valid each _ 0 (Nat.zero_add _)) ?_
  rintro (_ | a) t ⟨same,rest⟩
  · exact ⟨same,fun j kd => rest j kd (Nat.zero_le _)⟩
  · exact ⟨same,rest⟩

theorem overKnowndevs_look (valid : s.it.num ≤ s.it.max) (look : Nat → Knowndev → Option α) :
    (overKnowndevs fun i kd => pure (look i kd)).wp s
      (fun r t => t = s ∧ match r with
        | some a => ∃ j kd, s.it.v[j]? = some kd ∧ look j kd = some a
        | none => ∀ j kd, s.it.v[j]? = some kd → look j kd = none) never never := by
  refine wp_ends (overKnowndevs_spec (fun i kd r => look i kd = r) (fun _ _ _ => False)
    valid fun i kd _ => ⟨rfl,rfl⟩) ?_ ?_
  · rintro (_ | a) t h <;> exact h
  · rintro e t ⟨_,_,_,_,none⟩
    exact none

end Scan

/-! Names -/

def Knowndev.names (kd : Knowndev) : List CString :=
  kd.kdName :: (kd.kdRawname.toList ++ (kd.kdFs.bind VolumeFs.getvolname).toList)

def Knowndev.Apart (a b : Knowndev) : Prop := ∀ name ∈ a.names, name ∉ b.names

instance (a b : Knowndev) : Decidable (a.Apart b) := inferInstanceAs (Decidable (∀ _ ∈ _, _))

theorem Knowndev.Apart.symm {a b : Knowndev} (apart : a.Apart b) : b.Apart a :=
  fun name inB inA => apart name inA inB

/-- No string names two entries. -/
def Unambiguous (table : List Knowndev) : Prop := table.Pairwise Knowndev.Apart

instance (table : List Knowndev) : Decidable (Unambiguous table) :=
  inferInstanceAs (Decidable (table.Pairwise _))

theorem Unambiguous.same {table : List Knowndev} (unambiguous : Unambiguous table) {i j : Nat}
    {a b : Knowndev} (at_i : table[i]? = some a) (at_j : table[j]? = some b) {name : CString}
    (inA : name ∈ a.names) (inB : name ∈ b.names) : i = j := by
  obtain ⟨i_lt,rfl⟩ := List.getElem?_eq_some_iff.1 at_i
  obtain ⟨j_lt,rfl⟩ := List.getElem?_eq_some_iff.1 at_j
  have pairs := List.pairwise_iff_getElem.1 unambiguous
  rcases Nat.lt_trichotomy i j with less | equal | greater
  · exact absurd inB (pairs i j i_lt j_lt less name inA)
  · exact equal
  · exact absurd inA (pairs j i j_lt i_lt greater name inB)

theorem samestring_iff (a b : Option CString) :
    samestring a b = true ↔ ∃ name, a = some name ∧ b = some name := by
  cases a with
  | none => simp [samestring]
  | some a =>
    cases b with
    | none => simp [samestring]
    | some b => simp [samestring,eq_comm]

theorem samestring3_iff (a b c d : Option CString) : samestring3 a b c d = true ↔
    ∃ name, a = some name ∧ (b = some name ∨ c = some name ∨ d = some name) := by
  simp only [samestring3,Bool.or_eq_true,samestring_iff]
  grind

theorem Knowndev.mem_names {kd : Knowndev} {name : CString} : name ∈ kd.names ↔
    kd.kdName = name ∨ kd.kdRawname = some name ∨ kd.kdFs.bind VolumeFs.getvolname = some name := by
  simp [Knowndev.names,eq_comm]

theorem badnamesBody_iff (kd other : Knowndev) :
    badnamesBody (some other.kdName) other.kdRawname (other.kdFs.bind VolumeFs.getvolname) kd = true ↔
      ¬kd.Apart other := by
  have volume : (match kd.kdFs with
      | some fs => samestring3 fs.getvolname (some other.kdName) other.kdRawname
          (other.kdFs.bind VolumeFs.getvolname)
      | none => false) = samestring3 (kd.kdFs.bind VolumeFs.getvolname) (some other.kdName)
        other.kdRawname (other.kdFs.bind VolumeFs.getvolname) := by
    cases kd.kdFs with
    | none => rfl
    | some fs => rfl
  rw [badnamesBody,volume]
  simp only [Bool.or_eq_true,samestring3_iff,Knowndev.Apart,Knowndev.mem_names,Option.some.injEq]
  grind

/-! What each operation does -/

structure Knowndev.Wf (kd : Knowndev) : Prop where
  mountable : kd.kdRawname.isSome → kd.kdDevice.isSome
  plain : kd.kdFs = none → kd.kdDevice.isSome

structure VfsList.Inv (s : VfsList) : Prop where
  room : s.it.num ≤ s.it.max
  wf : ∀ kd ∈ s.it.v, kd.Wf

section Calls
variable {s : VfsList}

theorem wp_allocate {ok : Unit → VfsList → Prop} {err : Errno → VfsList → Prop}
    {halt : VfsPanic → VfsList → Prop} : (onKnowndevs Held.kmalloc).wp s ok err halt ↔
      if s.mem.ready then ok () { s with mem := s.mem.next }
      else err .enomem { s with mem := s.mem.next } := by
  rw [onKnowndevs,wp_mapPanic,Held.wp_kmalloc]

theorem badnames_spec (room : s.it.num ≤ s.it.max) (new : Knowndev) :
    (badnames (some new.kdName) new.kdRawname (new.kdFs.bind VolumeFs.getvolname)).wp s
      (fun bad t => t = s ∧ (bad = false → ∀ kd ∈ s.it.v, kd.Apart new)) never never := by
  rw [badnames,wp_bind]
  refine wp_imp (overKnowndevs_look room _) ?_
  rintro (_ | a) t ⟨rfl,seen⟩
  · refine ⟨rfl,fun _ kd member => ?_⟩
    obtain ⟨i,entry⟩ := List.getElem?_of_mem member
    have quiet := seen i kd entry
    by_contra clash
    rw [if_pos ((badnamesBody_iff kd new).2 clash)] at quiet
    cases quiet
  · exact ⟨rfl,fun found => nomatch found⟩

theorem devCreateVnode_spec : devCreateVnode.wp s (fun _ t => t.it = s.it) (fun _ t => t.it = s.it)
    fun _ t => t.it = s.it := by
  rw [devCreateVnode,wp_bind,wp_read,wp_bind,wp_allocate]
  split
  · rw [wp_bind,wp_attempt,onKnowndevs,wp_mapPanic,wp_bind,Held.wp_kmalloc]
    split
    · rw [Held.wp_kmalloc]
      split
      · rfl
      · rfl
    · rfl
  · rfl

structure Joined (s : VfsList) (new : Knowndev) (t : VfsList) : Prop where
  table : t.it.v = s.it.v ++ [new]
  apart : ∀ kd ∈ s.it.v, kd.Apart new
  room : t.it.num ≤ t.it.max

theorem enter_spec (room : s.it.num ≤ s.it.max) (new : Knowndev) :
    (onKnowndevs Held.kmalloc >>= fun _ => badnames (some new.kdName) new.kdRawname
        (new.kdFs.bind VolumeFs.getvolname) >>= fun bad =>
        if bad then fail .eexist else onKnowndevs (KArray.arrayAdd new)).wp s
      (fun _ t => Joined s new t) (fun _ t => t.it = s.it) fun _ t => t.it = s.it := by
  rw [wp_bind,wp_allocate]
  split
  · have look := badnames_spec (s := ⟨s.it,s.mem.next⟩) room new
    rw [wp_bind]
    refine wp_total look ?_
    rintro bad t ⟨rfl,apart⟩
    cases bad with
    | true => exact rfl
    | false =>
      change Exec.wp (onKnowndevs _) _ _ _ _
      rw [onKnowndevs,wp_mapPanic]
      have add := KArray.arrayAdd_spec (s := ⟨s.it,s.mem.next⟩) room new
      refine wp_safe add ?_ ?_
      · exact fun _ t added => ⟨added.list,apart rfl,added.fits⟩
      · rintro _ t ⟨_,_,rfl⟩
        rfl
  · rfl

theorem vfsDoadd_spec (room : s.it.num ≤ s.it.max) (dname : CString) (mountable : Bool)
    (dev : Option Nat) (fs : Option VolumeFs) :
    (vfsDoadd dname mountable dev fs).wp s
      (fun _ t => ∃ vnode, Joined s
        ⟨dname,if mountable then some (mkrawname dname) else none,dev,vnode,fs⟩ t)
      (fun _ t => t.it = s.it) fun _ t => t.it = s.it := by
  have tail : ∀ t : VfsList, t.it = s.it → (devCreateVnode >>= fun vnode =>
      onKnowndevs Held.kmalloc >>= fun _ => badnames (some dname)
        (if mountable then some (mkrawname dname) else none) (fs.bind VolumeFs.getvolname) >>= fun bad =>
        if bad then fail .eexist else onKnowndevs (KArray.arrayAdd
          ⟨dname,if mountable then some (mkrawname dname) else none,dev,vnode,fs⟩)).wp t
      (fun _ t => ∃ vnode, Joined s
        ⟨dname,if mountable then some (mkrawname dname) else none,dev,vnode,fs⟩ t)
      (fun _ t => t.it = s.it) fun _ t => t.it = s.it := by
    intro t same
    rw [wp_bind]
    refine wp_mono devCreateVnode_spec ?_ (fun _ _ h => h.trans same) fun _ _ h => h.trans same
    intro vnode u sameU
    rw [same] at sameU
    refine wp_mono (enter_spec (sameU ▸ room) ⟨dname,_,dev,vnode,fs⟩) ?_
      (fun _ _ h => h.trans sameU) fun _ _ h => h.trans sameU
    intro _ w joined
    exact ⟨vnode,sameU ▸ joined.table,sameU ▸ joined.apart,joined.room⟩
  rw [vfsDoadd,wp_bind,wp_allocate]
  split
  · cases mountable with
    | false => exact tail _ rfl
    | true =>
      change Exec.wp (onKnowndevs _ >>= _) _ _ _ _
      rw [wp_bind,wp_allocate]
      split
      · exact tail _ rfl
      · rfl
  · rfl

theorem findmount_spec (room : s.it.num ≤ s.it.max) (devname : CString) :
    (findmount devname).wp s
      (fun r t => t = s ∧ s.it.v[r.1]? = some r.2 ∧ r.2.kdRawname.isSome ∧ r.2.kdName = devname)
      (fun _ t => t = s ∧ ∀ (i : Nat) (kd : Knowndev), s.it.v[i]? = some kd → kd.kdRawname.isSome →
        kd.kdName ≠ devname) never := by
  rw [findmount,wp_bind]
  refine wp_total (overKnowndevs_look room _) ?_
  rintro (_ | ⟨i,kd⟩) t ⟨rfl,seen⟩
  · refine ⟨rfl,fun i kd entry raw named => ?_⟩
    have quiet := seen i kd entry
    rw [if_pos ⟨raw,named.symm⟩] at quiet
    cases quiet
  · obtain ⟨j,entry,at_j,found⟩ := seen
    by_cases named : entry.kdRawname.isSome ∧ devname = entry.kdName
    · rw [if_pos named] at found
      cases found
      exact ⟨rfl,at_j,named.1,named.2.symm⟩
    · rw [if_neg named] at found
      cases found

def VfsList.withFs (s : VfsList) (i : Nat) (kd : Knowndev) (fs : Option VolumeFs) : VfsList :=
  { s with it := { s.it with v := s.it.v.set i { kd with kdFs := fs } } }

theorem vfsMount_spec (inv : VfsList.Inv s) (devname : CString)
    (mountfunc : Except Errno (Option VolumeFs)) :
    (vfsMount devname mountfunc).wp s
      (fun _ t => ∃ i kd fs, s.it.v[i]? = some kd ∧ kd.kdRawname.isSome ∧ kd.kdName = devname ∧
        kd.kdFs = none ∧ mountfunc = .ok (some fs) ∧ t = s.withFs i kd (some fs))
      (fun _ t => t = s ∧ ∀ fs, mountfunc = .ok (some fs) → ∀ (i : Nat) (kd : Knowndev),
        s.it.v[i]? = some kd → kd.kdRawname.isSome → kd.kdName = devname →
        ∃ (j : Nat) (other : Knowndev), s.it.v[j]? = some other ∧ other.kdName = devname ∧ other.kdFs ≠ none)
      fun _ t => mountfunc = .ok none ∧ t = s := by
  rw [vfsMount,wp_bind]
  refine wp_safe (findmount_spec inv.room devname) ?_
    (fun _ _ h => ⟨h.1,fun _ _ i kd entry raw named => absurd named (h.2 i kd entry raw)⟩)
  rintro ⟨i,kd⟩ t ⟨rfl,entry,raw,named⟩
  have device := (inv.wf kd (List.mem_of_getElem? entry)).mountable raw
  simp only [wp_ite]
  refine ⟨fun busy => ⟨rfl,fun _ _ _ _ _ _ _ => ⟨i,kd,entry,named,busy⟩⟩,fun idle => ?_⟩
  simp only [ne_eq,Decidable.not_not] at idle
  simp only [wp_bind,wp_assert,raw,device,if_true]
  cases mountfunc with
  | error code =>
    refine ⟨rfl,fun fs mounted => ?_⟩
    cases mounted
  | ok found =>
    cases found with
    | none => exact ⟨rfl,rfl⟩
    | some fs => exact ⟨i,kd,fs,entry,raw,named,idle,rfl,rfl⟩

theorem vfsUnmount_spec (inv : VfsList.Inv s) (devname : CString) (sync unmount : Except Errno Unit) :
    (vfsUnmount devname sync unmount).wp s
      (fun _ t => ∃ i kd, s.it.v[i]? = some kd ∧ kd.kdRawname.isSome ∧ t = s.withFs i kd none)
      (fun _ t => t = s) never := by
  rw [vfsUnmount,wp_bind]
  refine wp_safe (findmount_spec inv.room devname) ?_ (fun _ _ h => h.1)
  rintro ⟨i,kd⟩ t ⟨rfl,entry,raw,_⟩
  have device := (inv.wf kd (List.mem_of_getElem? entry)).mountable raw
  simp only [wp_ite]
  refine ⟨fun _ => rfl,fun _ => ?_⟩
  simp only [wp_bind,wp_assert,raw,device,if_true]
  cases sync with
  | error code => rfl
  | ok _ =>
    cases unmount with
    | error code => rfl
    | ok _ => exact ⟨i,kd,entry,raw,rfl⟩

inductive Change (s : VfsList) : VfsOp → VfsList → Prop
  | same {op t} (same : t.it = s.it) : Change s op t
  | joined {op t new} (wf : Knowndev.Wf new) (joined : Joined s new t) : Change s op t
  | mounted {devname i kd fs} (entry : s.it.v[i]? = some kd) (raw : kd.kdRawname.isSome)
      (named : kd.kdName = devname) (idle : kd.kdFs = none) :
      Change s (.mount devname (.ok (some fs))) (s.withFs i kd (some fs))
  | unmounted {op i kd} (entry : s.it.v[i]? = some kd) (raw : kd.kdRawname.isSome) :
      Change s op (s.withFs i kd none)

theorem VfsOp.after_change (inv : VfsList.Inv s) (op : VfsOp) : Change s op (op.after s) := by
  apply wp_after (P := Change s op)
  cases op with
  | adddev devname dev mountable =>
    refine wp_mono (vfsDoadd_spec inv.room devname mountable (some dev) none) ?_
      (fun _ _ h => .same h) fun _ _ h => .same h
    rintro _ t ⟨vnode,joined⟩
    exact .joined ⟨fun _ => rfl,fun _ => rfl⟩ joined
  | addfs devname fs =>
    refine wp_mono (vfsDoadd_spec inv.room devname false none (some fs)) ?_
      (fun _ _ h => .same h) fun _ _ h => .same h
    rintro _ t ⟨vnode,joined⟩
    refine .joined ⟨fun raw => ?_,fun noFs => ?_⟩ joined
    · cases raw
    · cases noFs
  | mount devname mountfunc =>
    refine wp_mono (vfsMount_spec inv devname mountfunc) ?_
      (fun _ _ h => .same (congrArg Held.it h.1)) fun _ _ h => .same (congrArg Held.it h.2)
    rintro _ t ⟨i,kd,fs,entry,raw,named,idle,rfl,rfl⟩
    exact .mounted entry raw named idle
  | unmount devname sync result =>
    refine wp_safe (vfsUnmount_spec inv devname sync result) ?_
      (fun _ _ h => .same (congrArg Held.it h))
    rintro _ t ⟨i,kd,entry,raw,rfl⟩
    exact .unmounted entry raw

variable {i : Nat} {kd : Knowndev}

theorem getElem?_withFs (entry : s.it.v[i]? = some kd)
    (fs : Option VolumeFs) (j : Nat) :
    (s.withFs i kd fs).it.v[j]? = if i = j then some { kd with kdFs := fs } else s.it.v[j]? := by
  have inside : i < s.it.v.length := (List.getElem?_eq_some_iff.1 entry).1
  simp only [VfsList.withFs,List.getElem?_set,inside,if_true]

theorem VfsList.Inv.withFs (inv : VfsList.Inv s)
    (entry : s.it.v[i]? = some kd) (raw : kd.kdRawname.isSome) (fs : Option VolumeFs) :
    VfsList.Inv (s.withFs i kd fs) := by
  constructor
  · simpa [KArray.num,VfsList.withFs] using inv.room
  · intro other member
    have device := (inv.wf kd (List.mem_of_getElem? entry)).mountable raw
    rcases List.mem_or_eq_of_mem_set member with old | rfl
    · exact inv.wf other old
    · exact ⟨fun _ => device,fun _ => device⟩

variable {op : VfsOp}

theorem Change.inv {t : VfsList} (change : Change s op t) (inv : VfsList.Inv s) :
    VfsList.Inv t := by
  cases change with
  | same same => exact ⟨same ▸ inv.room,same ▸ inv.wf⟩
  | joined wf joined =>
    refine ⟨joined.room,fun kd member => ?_⟩
    rw [joined.table,List.mem_append] at member
    rcases member with old | new
    · exact inv.wf kd old
    · rwa [List.mem_singleton.1 new]
  | mounted entry raw _ _ => exact inv.withFs entry raw _
  | unmounted entry raw => exact inv.withFs entry raw _

/-! When names stay unambiguous -/

variable {table : List Knowndev}

theorem unambiguous_iff : Unambiguous table ↔
    ∀ (i j : Nat) (a b : Knowndev), table[i]? = some a → table[j]? = some b → i ≠ j → a.Apart b := by
  refine ⟨fun unambiguous i j a b at_i at_j differ name inA inB => ?_,fun apart => ?_⟩
  · exact differ (unambiguous.same at_i at_j inA inB)
  · refine List.pairwise_iff_getElem.2 fun i j i_lt j_lt less => ?_
    exact apart i j _ _ (List.getElem?_eq_getElem i_lt) (List.getElem?_eq_getElem j_lt) less.ne

/-- A mount that brings a volume name which another entry already answers to. -/
def VfsOp.NameTaken (s : VfsList) : VfsOp → Prop
  | .mount devname (.ok (some fs)) => ∃ (i : Nat) (kd : Knowndev), s.it.v[i]? = some kd ∧
      kd.kdRawname.isSome ∧ kd.kdName = devname ∧ kd.kdFs = none ∧
      ∃ name, fs.getvolname = some name ∧
        ∃ (j : Nat) (other : Knowndev), j ≠ i ∧ s.it.v[j]? = some other ∧ name ∈ other.names
  | _ => False

theorem Unambiguous.withFs (unambiguous : Unambiguous s.it.v)
    (entry : s.it.v[i]? = some kd) (fs : Option VolumeFs)
    (new : ∀ name ∈ ({ kd with kdFs := fs } : Knowndev).names, name ∉ kd.names →
      ∀ (j : Nat) (other : Knowndev), j ≠ i → s.it.v[j]? = some other → name ∉ other.names) :
    Unambiguous (s.withFs i kd fs).it.v := by
  have apart : ∀ (j : Nat) (other : Knowndev), i ≠ j → s.it.v[j]? = some other →
      ({ kd with kdFs := fs } : Knowndev).Apart other := by
    intro j other differ at_j name inNew inOther
    by_cases old : name ∈ kd.names
    · exact differ (unambiguous.same entry at_j old inOther)
    · exact new name inNew old j other differ.symm at_j inOther
  rw [unambiguous_iff]
  intro a b x y at_a at_b differ
  rw [getElem?_withFs entry] at at_a at_b
  split_ifs at at_a at_b with a_eq b_eq b_eq
  · exact absurd (a_eq.symm.trans b_eq) differ
  · cases at_a
    exact apart b y b_eq at_b
  · cases at_b
    exact (apart a x a_eq at_a).symm
  · exact unambiguous_iff.1 unambiguous a b x y at_a at_b differ

theorem Change.unambiguous {t : VfsList} (change : Change s op t)
    (unambiguous : Unambiguous s.it.v) (free : ¬op.NameTaken s) : Unambiguous t.it.v := by
  cases change with
  | same same => rwa [same]
  | joined _ joined =>
    rw [joined.table]
    refine List.pairwise_append.2 ⟨unambiguous,List.pairwise_singleton _ _,fun kd member other new => ?_⟩
    rw [List.mem_singleton.1 new]
    exact joined.apart kd member
  | mounted entry raw named idle =>
    refine unambiguous.withFs entry _ fun name inNew old j other differ at_j inOther => free ?_
    refine ⟨_,_,entry,raw,named,idle,name,?_,j,other,differ,at_j,inOther⟩
    -- a name that the entry did not have before is the new volume name
    rw [Knowndev.mem_names] at inNew old
    grind
  | unmounted entry raw =>
    refine unambiguous.withFs entry _ fun name inNew old => absurd ?_ old
    rw [Knowndev.mem_names] at inNew ⊢
    grind

theorem VfsOp.NameTaken.ambiguous (taken : op.NameTaken s) (inv : VfsList.Inv s)
    (unambiguous : Unambiguous s.it.v) : ¬Unambiguous (op.after s).it.v := by
  cases op with
  | mount devname mountfunc =>
    rcases mountfunc with code | _ | fs
    · exact taken.elim
    · exact taken.elim
    · obtain ⟨i,kd,entry,raw,named,idle,name,volume,j,other,differ,at_j,inOther⟩ := taken
      have own : ∀ (k : Nat) (kd' : Knowndev), s.it.v[k]? = some kd' → kd'.kdName = devname → i = k :=
        fun k kd' at_k same => unambiguous.same entry at_k (Knowndev.mem_names.2 (.inl named))
          (Knowndev.mem_names.2 (.inl same))
      refine wp_after (P := fun t : VfsList => ¬Unambiguous t.it.v) ?_
      refine wp_mono (vfsMount_spec inv devname (.ok (some fs))) ?_ ?_ ?_
      · rintro _ t ⟨k,kd',fs',at_k,_,same,_,mounted,rfl⟩
        obtain rfl := own k kd' at_k same
        obtain rfl : fs = fs' := by
          cases mounted
          rfl
        rw [entry] at at_k
        cases at_k
        intro clear
        have first := getElem?_withFs entry (some fs) i
        have second := getElem?_withFs entry (some fs) j
        rw [if_pos rfl] at first
        rw [if_neg differ.symm,at_j] at second
        exact differ.symm (clear.same first second (Knowndev.mem_names.2 (.inr (.inr volume))) inOther)
      · rintro _ t ⟨_,busy⟩
        obtain ⟨k,kd',at_k,same,mounted⟩ := busy fs rfl i kd entry raw named
        obtain rfl := own k kd' at_k same
        rw [entry] at at_k
        cases at_k
        exact absurd idle mounted
      · rintro _ t ⟨missing,_⟩
        cases missing
  | adddev => exact taken.elim
  | addfs => exact taken.elim
  | unmount => exact taken.elim

/-! `vfs_getroot` -/

/-- What `vfs_getroot` answers at an entry, if it stops there. -/
def Knowndev.answer (kd : Knowndev) (devname : CString) : Option (Except Errno Handle) :=
  match kd.kdFs with
  | some fs =>
    if kd.kdName = devname ∨ fs.getvolname = some devname then some (.ok (.root fs))
    else if kd.kdRawname = some devname then some (.ok (.device kd.kdVnode))
    else none
  | none =>
    if kd.kdRawname.isSome ∧ kd.kdName = devname then some (.error .enxio)
    else if kd.kdName = devname ∨ kd.kdRawname = some devname then some (.ok (.device kd.kdVnode))
    else none

variable {devname : CString}

theorem Knowndev.answer_eq_none :
    kd.answer devname = none ↔ devname ∉ kd.names := by
  rw [Knowndev.mem_names,Knowndev.answer]
  cases kd.kdFs with
  | none =>
    simp only [Option.bind_none]
    grind
  | some fs =>
    simp only [Option.bind_some]
    grind

theorem getrootBody_spec (wf : kd.Wf) (devname : CString) :
    (getrootBody devname kd).wp s (fun r t => t = s ∧ kd.answer devname = r.map .ok)
      (fun e t => t = s ∧ kd.answer devname = some (.error e)) never := by
  rw [getrootBody,Knowndev.answer]
  rcases noFs : kd.kdFs with _ | fs
  · have device := wf.plain noFs
    dsimp only
    split_ifs with unmounted named
    · exact ⟨rfl,rfl⟩
    · rw [getrootDevice]
      split_ifs with isName isRaw
      · have noRaw : kd.kdRawname = none :=
          Option.not_isSome_iff_eq_none.1 fun raw => unmounted ⟨raw,isName⟩
        simp only [wp_bind,wp_assert,noFs,noRaw,device,decide_true,if_true]
        exact ⟨rfl,rfl⟩
      · simp only [wp_bind,wp_assert,device,if_true]
        exact ⟨rfl,rfl⟩
      · exact absurd named (not_or.2 ⟨isName,isRaw⟩)
    · rw [getrootDevice,if_neg fun h => named (.inl h),if_neg fun h => named (.inr h)]
      exact ⟨rfl,rfl⟩
  · dsimp only
    split_ifs with isRoot isRaw
    · exact ⟨rfl,rfl⟩
    · have device := wf.mountable (by rw [isRaw]; rfl)
      rw [getrootDevice,if_neg fun h => isRoot (.inl h),if_pos isRaw]
      simp only [wp_bind,wp_assert,device,if_true]
      exact ⟨rfl,rfl⟩
    · rw [getrootDevice,if_neg fun h => isRoot (.inl h),if_neg isRaw]
      exact ⟨rfl,rfl⟩

/-- The answer of one of the entries, or `ENODEV` if none has the name. -/
def Answered (table : List Knowndev) (devname : CString) : Outcome Errno VfsPanic Handle → Prop
  | .ok handle => ∃ kd ∈ table, kd.answer devname = some (.ok handle)
  | .err code => (∃ kd ∈ table, kd.answer devname = some (.error code)) ∨
      (code = .enodev ∧ ∀ kd ∈ table, kd.answer devname = none)
  | .panic _ => False

theorem vfsGetroot_answered (inv : VfsList.Inv s) (devname : CString) :
    Answered s.it.v devname (vfsGetroot devname s).1 := by
  have spec : (vfsGetroot devname).wp s (fun h _ => Answered s.it.v devname (.ok h))
      (fun e _ => Answered s.it.v devname (.err e)) fun _ _ => False := by
    have each : ∀ (i : Nat) (kd : Knowndev), s.it.v[i]? = some kd →
        (getrootBody devname kd).wp s (fun r t => t = s ∧ kd.answer devname = r.map .ok)
          (fun e t => t = s ∧ kd.answer devname = some (.error e)) fun _ _ => False :=
      fun i kd entry => getrootBody_spec (inv.wf kd (List.mem_of_getElem? entry)) devname
    rw [vfsGetroot,wp_bind]
    refine wp_ends (overKnowndevs_spec (fun _ kd r => kd.answer devname = r.map .ok)
      (fun _ kd e => kd.answer devname = some (.error e)) inv.room each) ?_ ?_
    · rintro (_ | handle) t ⟨_,seen⟩
      · refine .inr ⟨rfl,fun kd member => ?_⟩
        obtain ⟨i,entry⟩ := List.getElem?_of_mem member
        exact seen i kd entry
      · obtain ⟨i,kd,entry,answer⟩ := seen
        exact ⟨kd,List.mem_of_getElem? entry,answer⟩
    · rintro code t ⟨_,i,kd,entry,answer⟩
      exact .inl ⟨kd,List.mem_of_getElem? entry,answer⟩
  unfold Exec.wp at spec
  rcases ran : vfsGetroot devname s with ⟨_ | _ | _, t⟩ <;> simp only [ran] at spec ⊢
  · exact spec
  · exact spec

theorem Unambiguous.answer_unique (unambiguous : Unambiguous table)
    (devname : CString) {a b : Knowndev} (inA : a ∈ table) (inB : b ∈ table)
    (answersA : a.answer devname ≠ none) (answersB : b.answer devname ≠ none) : a = b := by
  obtain ⟨i,at_i⟩ := List.getElem?_of_mem inA
  obtain ⟨j,at_j⟩ := List.getElem?_of_mem inB
  rw [ne_eq,Knowndev.answer_eq_none,not_not] at answersA answersB
  obtain rfl := unambiguous.same at_i at_j answersA answersB
  exact Option.some.inj (at_i.symm.trans at_j)

theorem Answered.unique (unambiguous : Unambiguous table)
    {r r' : Outcome Errno VfsPanic Handle} (first : Answered table devname r)
    (second : Answered table devname r') : r = r' := by
  have agree : ∀ a ∈ table, ∀ b ∈ table, ∀ x y, a.answer devname = some x → b.answer devname = some y →
      x = y := by
    intro a inA b inB x y answersA answersB
    obtain rfl := unambiguous.answer_unique devname inA inB (by simp [answersA]) (by simp [answersB])
    exact Option.some.inj (answersA.symm.trans answersB)
  rcases r with h | e | p
  · obtain ⟨a,inA,answersA⟩ := first
    rcases r' with h' | e' | p'
    · obtain ⟨b,inB,answersB⟩ := second
      cases agree a inA b inB _ _ answersA answersB
      rfl
    · rcases second with ⟨b,inB,answersB⟩ | ⟨_,nobody⟩
      · cases agree a inA b inB _ _ answersA answersB
      · rw [nobody a inA] at answersA
        cases answersA
    · exact second.elim
  · rcases r' with h' | e' | p'
    · obtain ⟨b,inB,answersB⟩ := second
      rcases first with ⟨a,inA,answersA⟩ | ⟨_,nobody⟩
      · cases agree a inA b inB _ _ answersA answersB
      · rw [nobody b inB] at answersB
        cases answersB
    · rcases first with ⟨a,inA,answersA⟩ | ⟨rfl,nobody⟩
      · rcases second with ⟨b,inB,answersB⟩ | ⟨_,nobody⟩
        · cases agree a inA b inB _ _ answersA answersB
          rfl
        · rw [nobody a inA] at answersA
          cases answersA
      · rcases second with ⟨b,inB,answersB⟩ | ⟨rfl,_⟩
        · rw [nobody b inB] at answersB
          cases answersB
        · rfl
    · exact second.elim
  · exact first.elim

theorem Answered.perm {table' : List Knowndev} (perm : table.Perm table')
    {r : Outcome Errno VfsPanic Handle} (answered : Answered table devname r) :
    Answered table' devname r := by
  rcases r with h | e | p
  · obtain ⟨kd,member,answer⟩ := answered
    exact ⟨kd,perm.mem_iff.1 member,answer⟩
  · rcases answered with ⟨kd,member,answer⟩ | ⟨code,nobody⟩
    · exact .inl ⟨kd,perm.mem_iff.1 member,answer⟩
    · exact .inr ⟨code,fun kd member => nobody kd (perm.mem_iff.2 member)⟩
  · exact answered

end Calls

/-! Runs -/

def noDevices (mem : Kmem) : VfsList := ⟨KArray.arrayCreate,mem⟩

/-- Runs of operations that each meet a condition on the state they start in. -/
inductive VfsRun (allowed : VfsList → VfsOp → Prop) (start : VfsList) : VfsList → Prop
  | none : VfsRun allowed start start
  | step {s : VfsList} {op : VfsOp} (earlier : VfsRun allowed start s) (ok : allowed s op) :
      VfsRun allowed start (op.after s)

theorem VfsRun.inv {allowed : VfsList → VfsOp → Prop} {mem : Kmem} {s : VfsList}
    (run : VfsRun allowed (noDevices mem) s) : VfsList.Inv s := by
  induction run with
  | none => exact ⟨Nat.le_refl _,fun kd member => nomatch member⟩
  | step _ _ ih => exact (VfsOp.after_change ih _).inv ih

theorem VfsRun.unambiguous {mem : Kmem} {s : VfsList}
    (run : VfsRun (fun s op => ¬op.NameTaken s) (noDevices mem) s) : Unambiguous s.it.v := by
  induction run with
  | none => exact .nil
  | step earlier free ih => exact (VfsOp.after_change earlier.inv _).unambiguous ih free

/-- Names stay unambiguous in exactly the runs in which no mount brings a volume name that
another entry answers to. While they are, `vfs_getroot` stops at one entry at most, and
answers alike for every order of the table. -/
theorem device_names_unambiguous_iff {mem : Kmem} {s : VfsList}
    (run : VfsRun (fun s op => ¬op.NameTaken s) (noDevices mem) s) :
    Unambiguous s.it.v ∧
    (∀ op : VfsOp, Unambiguous (op.after s).it.v ↔ ¬op.NameTaken s) ∧
    (∀ (devname : CString) (i j : Nat) (a b : Knowndev), s.it.v[i]? = some a → s.it.v[j]? = some b →
      getrootBody devname a s ≠ (.ok none,s) → getrootBody devname b s ≠ (.ok none,s) → i = j) ∧
    (∀ (devname : CString) (table : List Knowndev), s.it.v.Perm table →
      (vfsGetroot devname { s with it := { s.it with v := table } }).1 = (vfsGetroot devname s).1) := by
  have inv := run.inv
  have unambiguous := run.unambiguous
  refine ⟨unambiguous,fun op => ⟨?_,?_⟩,?_,?_⟩
  · exact fun clear taken => taken.ambiguous inv unambiguous clear
  · exact (VfsOp.after_change inv op).unambiguous unambiguous
  · intro devname i j a b at_i at_j stopsA stopsB
    -- the body goes on at every entry that does not have the name
    have named : ∀ kd ∈ s.it.v, getrootBody devname kd s ≠ (.ok none,s) → devname ∈ kd.names := by
      intro kd member stops
      by_contra missing
      have spec := getrootBody_spec (s := s) (inv.wf kd member) devname
      rw [Knowndev.answer_eq_none.2 missing,Exec.wp] at spec
      rcases ran : getrootBody devname kd s with ⟨(_ | handle) | _ | _,t⟩ <;> simp_all
    exact unambiguous.same at_i at_j (named a (List.mem_of_getElem? at_i) stopsA)
      (named b (List.mem_of_getElem? at_j) stopsB)
  · intro devname table perm
    have shuffled : VfsList.Inv { s with it := { s.it with v := table } } :=
      ⟨perm.length_eq.symm.trans_le inv.room,fun kd member => inv.wf kd (perm.mem_iff.2 member)⟩
    exact ((vfsGetroot_answered shuffled devname).perm perm.symm).unique unambiguous
      (vfsGetroot_answered inv devname)

def endless : Kmem := ⟨fun _ => true,0⟩

def lhd0 : CString := ⟨[0x6c,0x68,0x64,0x30],by decide⟩
def lhd1 : CString := ⟨[0x6c,0x68,0x64,0x31],by decide⟩
def mydisk : CString := ⟨[0x6d,0x79,0x64,0x69,0x73,0x6b],by decide⟩

def twoDisks : VfsList :=
  (VfsOp.adddev lhd1 1 true).after ((VfsOp.adddev lhd0 0 true).after (noDevices endless))

def oneMounted : VfsList := (VfsOp.mount lhd0 (.ok (some ⟨0,some mydisk⟩))).after twoDisks

def bothMounted : VfsList := (VfsOp.mount lhd1 (.ok (some ⟨1,some mydisk⟩))).after oneMounted

theorem oneMounted_run : VfsRun (fun s op => ¬op.NameTaken s) (noDevices endless) oneMounted := by
  refine ((VfsRun.none.step fun h => h).step fun h => h).step ?_
  rintro ⟨_,_,_,_,_,_,name,volume,j,other,_,at_j,inOther⟩
  cases volume
  have free : ∀ other ∈ twoDisks.it.v, mydisk ∉ other.names := by decide
  exact free other (List.mem_of_getElem? at_j) inOther

theorem device_names_unambiguous_iff_oneMounted :
    Unambiguous oneMounted.it.v ∧ (vfsGetroot mydisk oneMounted).1 = .ok (.root ⟨0,some mydisk⟩) ∧
    (Unambiguous bothMounted.it.v ↔
      ¬(VfsOp.mount lhd1 (.ok (some ⟨1,some mydisk⟩))).NameTaken oneMounted) := by
  obtain ⟨clear,steps,_,_⟩ := device_names_unambiguous_iff oneMounted_run
  exact ⟨clear,by decide,steps _⟩

/-- Nothing stops the second mount, and then the volume name is the name of both disks:
which of them it finds depends on the order of the table. -/
theorem bothMounted_ambiguous :
    (vfsMount lhd1 (.ok (some ⟨1,some mydisk⟩)) oneMounted).1 = .ok () ∧
    ¬Unambiguous bothMounted.it.v ∧
    (vfsGetroot mydisk bothMounted).1 = .ok (.root ⟨0,some mydisk⟩) ∧
    (vfsGetroot mydisk { bothMounted with it := { bothMounted.it with v := bothMounted.it.v.reverse } }).1 =
      .ok (.root ⟨1,some mydisk⟩) := by
  decide

end Os161
