import Os161.VfsList
import Os161.VfsPath

/-! The reference counts under `vfspath.c`, `vfslookup.c` and `vfscwd.c`, for file systems of
which only the contract of `vnode.h` is known: an operation that hands back a vnode hands back
a reference with it, and a failing one does not. What the operations answer is an input, so
they may fail in any combination. -/
namespace Os161

/-! Strings -/

namespace CString

def take (s : CString) (n : Nat) : CString where
  chars := s.chars.take n
  noNul nul := s.noNul (List.mem_of_mem_take nul)

def drop (s : CString) (n : Nat) : CString where
  chars := s.chars.drop n
  noNul nul := s.noNul (List.mem_of_mem_drop nul)

def strchrColon (s : CString) : Option CString :=
  if s.chars.contains 58 then some (s.drop (s.chars.idxOf 58)) else none

def strcatColon (s : CString) : CString where
  chars := s.chars ++ [58]
  noNul := by
    have := s.noNul
    simp_all

end CString

/-- The vnodes that some file system has, by number. A vnode without references does not exist.
`cwd` is `curthread->t_cwd`, `bootfs` is `bootfs_vnode`, and `calls` counts the calls that a
file system has answered. -/
structure Vnodes where
  refs : Nat → Nat
  opens : Nat → Nat
  cwd : Option Nat
  bootfs : Option Nat
  knowndevs : VfsList
  calls : Nat

inductive VnodePanic where
  | list (site : VfsPanic)
  -- vnode.c, and an access to a vnode that is gone
  | checkZeroRefcount (v : Nat) | decrefZero (v : Nat) | decopenZero (v : Nat) | freedVnode (v : Nat)
  -- vfslookup.c
  | getdeviceSlash | getdeviceColon | getdeviceNoFs
  -- vfscwd.c
  | getcwdRw | getcwdNoFs | getcwdNoName
  deriving DecidableEq, Repr

abbrev VnodeM (α : Type) := Exec Vnodes Errno VnodePanic α

/-- What the file systems answer. The first argument is the number of earlier calls, so equal
calls may be answered differently; `vnFs` is the field of the vnode. -/
structure FsOps where
  vnFs : Nat → Option VolumeFs
  vopOpen : Nat → Nat → UInt32 → Except Errno Unit
  vopTruncate : Nat → Nat → Nat → Except Errno Unit
  vopGettype : Nat → Nat → Except Errno UInt32
  vopNamefile : Nat → Nat → Except Errno Unit
  vopCreat : Nat → Nat → CString → Bool → Except Errno Nat
  vopLink : Nat → Nat → CString → Nat → Except Errno Unit
  vopRemove : Nat → Nat → CString → Except Errno Unit
  vopRename : Nat → Nat → CString → Nat → CString → Except Errno Unit
  vopLookup : Nat → Nat → CString → Except Errno Nat
  vopLookparent : Nat → Nat → CString → Nat → Except Errno (Nat × CString)
  fsopGetroot : Nat → VolumeFs → Nat
  uiomove : Nat → List UInt8 → Except Errno Unit

namespace Vnodes

/-! vnode.c -/

def setRefs (s : Vnodes) (v n : Nat) : Vnodes := { s with refs := Function.update s.refs v n }

def setOpens (s : Vnodes) (v n : Nat) : Vnodes := { s with opens := Function.update s.opens v n }

/-- `vnode_check`, as far as it looks at the reference count. -/
def vnodeCheck (v : Nat) : VnodeM Unit := do
  assert ((← read).refs v > 0) (.checkZeroRefcount v)

def vnodeIncref (v : Nat) : VnodeM Unit := do
  let s ← read
  assert (s.refs v > 0) (.freedVnode v)
  put (s.setRefs v (s.refs v + 1))

/-- `VOP_RECLAIM`, which does not fail: the vnode is gone. -/
def vopReclaim (v : Nat) : VnodeM Unit := modify fun s => s.setRefs v 0

def vnodeDecref (v : Nat) : VnodeM Unit := do
  let s ← read
  assert (s.refs v > 0) (.decrefZero v)
  if s.refs v > 1 then put (s.setRefs v (s.refs v - 1)) else vopReclaim v

def vnodeIncopen (v : Nat) : VnodeM Unit := do
  let s ← read
  assert (s.refs v > 0) (.freedVnode v)
  put (s.setOpens v (s.opens v + 1))

/-- A failing `VOP_CLOSE` is only reported on the console. -/
def vnodeDecopen (v : Nat) : VnodeM Unit := do
  let s ← read
  assert (s.refs v > 0) (.freedVnode v)
  assert (s.opens v > 0) (.decopenZero v)
  put (s.setOpens v (s.opens v - 1))
  if s.opens v - 1 > 0 then pure () else vnodeCheck v

/-! The operations of the file systems -/

def answer (result : Nat → α) : VnodeM α := do
  let s ← read
  put { s with calls := s.calls + 1 }
  pure (result s.calls)

def vop (v : Nat) (result : Nat → Except Errno α) : VnodeM α := do
  vnodeCheck v
  give (← answer result)

def handBack (v : Nat) : VnodeM Unit := modify fun s => s.setRefs v (s.refs v + 1)

def fsopGetroot (ops : FsOps) (fs : VolumeFs) : VnodeM Nat := do
  let root ← answer fun n => ops.fsopGetroot n fs
  handBack root
  return root

def vopLookup (ops : FsOps) (dir : Nat) (path : CString) : VnodeM Nat := do
  let v ← vop dir fun n => ops.vopLookup n dir path
  handBack v
  return v

def vopLookparent (ops : FsOps) (dir : Nat) (path : CString) (buflen : Nat) :
    VnodeM (Nat × CString) := do
  let (v,name) ← vop dir fun n => ops.vopLookparent n dir path buflen
  handBack v
  return (v,name)

def vopCreat (ops : FsOps) (dir : Nat) (name : CString) (excl : Bool) : VnodeM Nat := do
  let v ← vop dir fun n => ops.vopCreat n dir name excl
  handBack v
  return v

/-! vfslist.c -/

def onKnowndevs (call : VfsM α) : VnodeM α :=
  zoom Vnodes.knowndevs (fun s table => { s with knowndevs := table }) (mapPanic .list call)

def vfsGetroot (ops : FsOps) (devname : CString) : VnodeM Nat := do
  match ← onKnowndevs (Os161.vfsGetroot devname) with
  | .root fs => fsopGetroot ops fs
  | .device v =>
    vnodeIncref v
    return v

def vfsGetdevname (fs : VolumeFs) : VnodeM (Option CString) :=
  onKnowndevs (overKnowndevs fun _ kd =>
    pure (if kd.kdFs.map VolumeFs.fs = some fs.fs then some kd.kdName else none))

/-! vfscwd.c -/

def vfsGetcurdir : VnodeM Nat := do
  match (← read).cwd with
  | some v =>
    vnodeIncref v
    return v
  | none => fail .enoent

def decrefOld : Option Nat → VnodeM Unit
  | some v => vnodeDecref v
  | none => pure ()

def sIsdir (vtype : UInt32) : Bool := vtype &&& 0o70000 = 0o20000

def changeCurdir (dir : Option Nat) : VnodeM Unit := do
  let s ← read
  put { s with cwd := dir }
  decrefOld s.cwd

def vfsSetcurdir (ops : FsOps) (dir : Nat) : VnodeM Unit := do
  let vtype ← vop dir fun n => ops.vopGettype n dir
  if sIsdir vtype then
    vnodeIncref dir
    changeCurdir (some dir)
  else fail .enotdir

def vfsClearcurdir : VnodeM Unit := changeCurdir none

/-! vfslookup.c -/

def changeBootfs (newguy : Option Nat) : VnodeM Unit := do
  let s ← read
  put { s with bootfs := newguy }
  decrefOld s.bootfs

def locate : List UInt8 → Nat → Option Nat × Option Nat
  | [], _ => (none,none)
  | c :: rest, i =>
    if c = 58 then (none,some i) else if c = 47 then (some i,none) else locate rest (i + 1)

/-- `getdevice` for `/path` and `:path`: the root of the boot file system or of the current
one. -/
def getdeviceRoot (ops : FsOps) (path : CString) : VnodeM Nat := do
  if path.chars.head? = some 47 then
    match (← read).bootfs with
    | none => fail .enoent
    | some v =>
      vnodeIncref v
      return v
  else
    assert (path.chars.head? = some 58) .getdeviceColon
    let v ← vfsGetcurdir
    match ops.vnFs v with
    | none => panic .getdeviceNoFs
    | some fs =>
      let startvn ← fsopGetroot ops fs
      vnodeDecref v
      return startvn

def getdevice (ops : FsOps) (path : CString) : VnodeM (Nat × CString) := do
  let (slash,colon) := locate path.chars 0
  if colon = none ∧ slash ≠ some 0 then
    let startvn ← vfsGetcurdir
    return (startvn,path)
  else match colon with
    | some (i + 1) =>
      -- device:path
      let startvn ← vfsGetroot ops (path.take (i + 1))
      return (startvn,(path.drop (i + 2)).subpath)
    | _ =>
      assert (colon = some 0 ∨ slash = some 0) .getdeviceSlash
      let startvn ← getdeviceRoot ops path
      return (startvn,(path.drop 1).subpath)

def vfsLookparent (ops : FsOps) (path : CString) (buflen : Nat) : VnodeM (Nat × CString) := do
  let (startvn,path) ← getdevice ops path
  let result ← attempt
    (if path.chars.length = 0 then fail .einval else vopLookparent ops startvn path buflen)
  vnodeDecref startvn
  give result

def vfsLookup (ops : FsOps) (path : CString) : VnodeM Nat := do
  let (startvn,path) ← getdevice ops path
  if path.chars.length = 0 then return startvn
  else
    let result ← attempt (vopLookup ops startvn path)
    vnodeDecref startvn
    give result

def vfsChdir (ops : FsOps) (path : CString) : VnodeM Unit := do
  let vn ← vfsLookup ops path
  let result ← attempt (vfsSetcurdir ops vn)
  vnodeDecref vn
  give result

/-- The path of the root of a device: `snprintf` into a buffer of `NAME_MAX` bytes, the last
one for the end of the string. A name with a colon is refused even if the colon is its last
character, since `s` starts at the colon. -/
def bootfsPath (fsname : CString) : VnodeM CString :=
  let tmp := fsname.take (nameMax - 1)
  match tmp.strchrColon with
  | some s => if s.chars.length > 0 then fail .einval else pure tmp
  | none => pure tmp.strcatColon

def vfsSetbootfs (ops : FsOps) (fsname : CString) : VnodeM Unit := do
  let path ← bootfsPath fsname
  vfsChdir ops path
  let newguy ← vfsGetcurdir
  changeBootfs (some newguy)

def vfsClearbootfs : VnodeM Unit := changeBootfs none

def uiomove (ops : FsOps) (bytes : List UInt8) : VnodeM Unit := do
  give (← answer fun n => ops.uiomove n bytes)

/-- The name that `vfs_getcwd` puts before the colon. -/
def volumeName (fs : VolumeFs) : VnodeM (Option CString) :=
  match fs.getvolname with
  | some name => pure (some name)
  | none => vfsGetdevname fs

/-- `vfs_getcwd`; `read` tells whether `uio_rw` is `UIO_READ`. -/
def vfsGetcwd (ops : FsOps) (read : Bool) : VnodeM Unit := do
  assert read .getcwdRw
  let cwd ← vfsGetcurdir
  match ops.vnFs cwd with
  | none => panic .getcwdNoFs
  | some fs =>
    match ← volumeName fs with
    | none => panic .getcwdNoName
    | some name =>
      let result ← attempt (do
        uiomove ops name.chars
        uiomove ops [58]
        vop cwd fun n => ops.vopNamefile n cwd)
      vnodeDecref cwd
      give result

/-! vfspath.c -/

def openVnode (ops : FsOps) (path : CString) (openflags : UInt32) : VnodeM Nat :=
  if openflags &&& oCreat ≠ 0 then do
    let (dir,name) ← vfsLookparent ops path (nameMax + 1)
    let result ← attempt (vopCreat ops dir name (openflags &&& oExcl ≠ 0))
    vnodeDecref dir
    give result
  else vfsLookup ops path

def openTrunc (ops : FsOps) (vn : Nat) (openflags : UInt32) (canwrite : Bool) : VnodeM Nat := do
  if openflags &&& oTrunc ≠ 0 then
    match ← attempt
        (if canwrite then vop vn fun n => ops.vopTruncate n vn 0 else fail .einval) with
    | .ok _ => return vn
    | .error code =>
      vnodeDecopen vn
      vnodeDecref vn
      fail code
  else return vn

def openAs (ops : FsOps) (path : CString) (openflags : UInt32) (canwrite : Bool) : VnodeM Nat := do
  let vn ← openVnode ops path openflags
  match ← attempt (vop vn fun n => ops.vopOpen n vn openflags) with
  | .error code =>
    vnodeDecref vn
    fail code
  | .ok _ =>
    vnodeIncopen vn
    openTrunc ops vn openflags canwrite

def vfsOpen (ops : FsOps) (path : CString) (openflags : UInt32) : VnodeM Nat :=
  let how := openflags &&& oAccmode
  if how = oRdonly then openAs ops path openflags false
  else if how = oWronly ∨ how = oRdwr then openAs ops path openflags true
  else fail .einval

def vfsClose (vn : Nat) : VnodeM Unit := do
  vnodeDecopen vn
  vnodeDecref vn

def vfsRemove (ops : FsOps) (path : CString) : VnodeM Unit := do
  let (dir,name) ← vfsLookparent ops path (nameMax + 1)
  let result ← attempt (vop dir fun n => ops.vopRemove n dir name)
  vnodeDecref dir
  give result

def sameFs (ops : FsOps) (v w : Nat) : Bool :=
  match ops.vnFs v, ops.vnFs w with
  | some a, some b => a.fs = b.fs
  | _, _ => false

/-- The second half of `vfs_rename` and `vfs_link`: the directory of the new name is looked
up, and both vnodes are given up at the end. -/
def intoDirectory (ops : FsOps) (old : Nat) (newpath : CString)
    (result : Nat → CString → Nat → Except Errno Unit) (on : Nat → Nat) : VnodeM Unit := do
  match ← attempt (vfsLookparent ops newpath (nameMax + 1)) with
  | .error code =>
    vnodeDecref old
    fail code
  | .ok (newdir,newname) =>
    if sameFs ops old newdir then
      let result ← attempt (vop (on newdir) (result newdir newname))
      vnodeDecref newdir
      vnodeDecref old
      give result
    else
      vnodeDecref newdir
      vnodeDecref old
      fail .exdev

def vfsRename (ops : FsOps) (oldpath newpath : CString) : VnodeM Unit := do
  let (olddir,oldname) ← vfsLookparent ops oldpath (nameMax + 1)
  intoDirectory ops olddir newpath
    (fun newdir newname n => ops.vopRename n olddir oldname newdir newname) fun _ => olddir

def vfsLink (ops : FsOps) (oldpath newpath : CString) : VnodeM Unit := do
  let oldfile ← vfsLookup ops oldpath
  intoDirectory ops oldfile newpath
    (fun newdir newname n => ops.vopLink n newdir newname oldfile) id

end Vnodes
end Os161
