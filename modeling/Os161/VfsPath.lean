import Os161.SfsFaults

/-! The operations on pathnames, on top of the vnodes of one mounted file system. A path
stands for what follows the colon of `d:...`, where `d` is the device. -/
namespace Os161

open SfsFs

/-! Paths -/

/-- `while (path[colon+1]=='/') colon++` -/
def CString.subpath (path : CString) : CString where
  chars := path.chars.dropWhile (· = 47)
  noNul nul := path.noNul ((List.dropWhile_suffix _).mem nul)

/-- `getdevice` for a path with a device name, which starts at the root of the device. -/
def getdevice (path : CString) : Sfs (Nat × CString) := do
  return (← sfsGetroot,path.subpath)

/-! The function tables -/

/-- An operation that the table of regular files answers with `ENOTDIR`. -/
def dirOnly (k : Nat) (op : Sfs α) : Sfs α := do
  let v ← vnodeCheck k
  match v.vnOps with
  | .dirops => op
  | .fileops => fail .enotdir

def vopCreat (dir : Nat) (name : CString) (excl : Bool) : Sfs Nat :=
  dirOnly dir (sfsCreat dir name excl)
def vopLink (dir : Nat) (name : CString) (file : Nat) : Sfs Unit :=
  dirOnly dir (sfsLink dir name file)
def vopRemove (dir : Nat) (name : CString) : Sfs Unit := dirOnly dir (sfsRemove dir name)
def vopRename (d1 : Nat) (n1 : CString) (d2 : Nat) (n2 : CString) : Sfs Unit :=
  dirOnly d1 (sfsRename d1 n1 d2 n2)
def vopLookup (dir : Nat) (path : CString) : Sfs Nat := dirOnly dir (sfsLookup dir path)
def vopLookparent (dir : Nat) (path : CString) (buflen : Nat) : Sfs (Nat × CString) :=
  dirOnly dir (sfsLookparent dir path buflen)

/-! The flags of `open`, as in kern/unistd.h -/

def oAccmode : UInt32 := 3
def oRdonly : UInt32 := 0
def oWronly : UInt32 := 1
def oRdwr : UInt32 := 2
def oCreat : UInt32 := 4
def oExcl : UInt32 := 8
def oTrunc : UInt32 := 16
def oAppend : UInt32 := 32

def nameMax : Nat := 255

def sfsOpen (openflags : UInt32) : Sfs Unit :=
  if openflags &&& oAppend ≠ 0 then fail .eunimp else pure ()

def sfsOpendir (openflags : UInt32) : Sfs Unit :=
  if openflags &&& oAccmode ≠ oRdonly then fail .eisdir
  else if openflags &&& oAppend ≠ 0 then fail .eisdir
  else pure ()

def vopOpen (k : Nat) (openflags : UInt32) : Sfs Unit := do
  let v ← vnodeCheck k
  match v.vnOps with
  | .fileops => sfsOpen openflags
  | .dirops => sfsOpendir openflags

/-- `VOP_CLOSE`: `sfs_close` for files and directories, which is `VOP_FSYNC`. -/
def vopClose (k : Nat) : Sfs Unit := do
  let _ ← vnodeCheck k
  vopFsync k

def SfsFs.reopened (s : SfsFs) (k : Nat) (f : Nat → Nat) : SfsFs :=
  s.update k fun v => { v with vnOpencount := f v.vnOpencount }

def vnodeIncopen (k : Nat) : Sfs Unit := do
  let _ ← Sfs.vnode k
  modify fun s => s.reopened k (· + 1)

/-- `vnode_decopen`. A failed close is only reported on the console. -/
def vnodeDecopen (k : Nat) : Sfs Unit := do
  let v ← Sfs.vnode k
  assert (v.vnOpencount > 0) .decopenZero
  modify fun s => s.reopened k (· - 1)
  if v.vnOpencount - 1 > 0 then pure ()
  else
    let _ ← attempt (vopClose k)

/-! Name translation -/

def vfsLookparent (path : CString) (buflen : Nat) : Sfs (Nat × CString) := do
  let (startvn,path) ← getdevice path
  let result ← attempt
    (if path.chars.length = 0 then fail .einval else vopLookparent startvn path buflen)
  vnodeDecref startvn
  give result

def vfsLookup (path : CString) : Sfs Nat := do
  let (startvn,path) ← getdevice path
  if path.chars.length = 0 then return startvn
  else
    let result ← attempt (vopLookup startvn path)
    vnodeDecref startvn
    give result

/-! Operations on pathnames. Both vnodes of a link or rename are on this file system, so the
comparison of their `vn_fs` never answers `EXDEV`. -/

def openVnode (path : CString) (openflags : UInt32) : Sfs Nat :=
  if openflags &&& oCreat ≠ 0 then do
    let (dir,name) ← vfsLookparent path (nameMax + 1)
    let result ← attempt (vopCreat dir name (openflags &&& oExcl ≠ 0))
    vnodeDecref dir
    give result
  else vfsLookup path

def openTrunc (vn : Nat) (openflags : UInt32) (canwrite : Bool) : Sfs Nat := do
  if openflags &&& oTrunc ≠ 0 then
    match ← attempt (if canwrite then vopTruncate vn 0 else fail .einval) with
    | .ok _ => return vn
    | .error code =>
      vnodeDecopen vn
      vnodeDecref vn
      fail code
  else return vn

def openAs (path : CString) (openflags : UInt32) (canwrite : Bool) : Sfs Nat := do
  let vn ← openVnode path openflags
  match ← attempt (vopOpen vn openflags) with
  | .error code =>
    vnodeDecref vn
    fail code
  | .ok _ =>
    vnodeIncopen vn
    openTrunc vn openflags canwrite

def vfsOpen (path : CString) (openflags : UInt32) : Sfs Nat :=
  let how := openflags &&& oAccmode
  if how = oRdonly then openAs path openflags false
  else if how = oWronly ∨ how = oRdwr then openAs path openflags true
  else fail .einval

def vfsClose (vn : Nat) : Sfs Unit := do
  vnodeDecopen vn
  vnodeDecref vn

def vfsRemove (path : CString) : Sfs Unit := do
  let (dir,name) ← vfsLookparent path (nameMax + 1)
  let result ← attempt (vopRemove dir name)
  vnodeDecref dir
  give result

def vfsRename (oldpath newpath : CString) : Sfs Unit := do
  let (olddir,oldname) ← vfsLookparent oldpath (nameMax + 1)
  match ← attempt (vfsLookparent newpath (nameMax + 1)) with
  | .error code =>
    vnodeDecref olddir
    fail code
  | .ok (newdir,newname) =>
    let result ← attempt (vopRename olddir oldname newdir newname)
    vnodeDecref newdir
    vnodeDecref olddir
    give result

def vfsLink (oldpath newpath : CString) : Sfs Unit := do
  let oldfile ← vfsLookup oldpath
  match ← attempt (vfsLookparent newpath (nameMax + 1)) with
  | .error code =>
    vnodeDecref oldfile
    fail code
  | .ok (newdir,newname) =>
    let result ← attempt (vopLink newdir newname oldfile)
    vnodeDecref newdir
    vnodeDecref oldfile
    give result

end Os161
