import Os161.SfsBlockIo

/-! `sfs_vnode.c`: the file-level routines, and the reference counting of `vnode.c` that
they call. Pointers to vnodes are inode numbers; out-parameters are results. -/
namespace Os161

/-! Space allocation -/

def sfsClearblock (block : Nat) : Sfs Unit := sfsWblock Block.zero block

def sfsSyncInode (k : Nat) : Sfs Unit := do
  let sv ← Sfs.vnode k
  if sv.svDirty then
    sfsWblock sv.svI.toBlock sv.svIno
    Sfs.update k fun v => { v with svDirty := false }
  else pure ()

def onFreemap (call : Call Bitmap α) : Sfs α :=
  zoom SfsFs.sfsFreemap (fun s b => { s with sfsFreemap := b }) call

def sfsBalloc : Sfs Nat := do
  let block ← onFreemap Bitmap.alloc
  modify fun s => { s with sfsFreemapdirty := true }
  let s ← read
  assert (block < s.nblocks) (.ballocInvalidBlock block)
  sfsClearblock block
  return block

def sfsBfree (block : Nat) : Sfs Unit := do
  onFreemap (Bitmap.unmark block)
  modify fun s => { s with sfsFreemapdirty := true }

def sfsBused (block : Nat) : Sfs Bool := do
  let s ← read
  assert (block < s.nblocks) (.busedOutOfRange block)
  return s.sfsFreemap.isset block

/-! Block mapping -/

/-- The end of `sfs_bmap`: refuse to hand back a block that the freemap calls free. -/
def handBack (k fileblock block : Nat) : Sfs Nat := do
  if block ≠ 0 then
    let used ← sfsBused block
    assert used (.dataBlockFree block fileblock k)
    return block
  else return block

def bmapDirect (k fileblock : Nat) (doalloc : Bool) : Sfs Nat := do
  let sv ← Sfs.vnode k
  let block := sv.svI.direct fileblock
  if block = 0 ∧ doalloc then
    let block ← sfsBalloc
    Sfs.updateInode k fun i => i.setDirect fileblock block
    handBack k fileblock block
  else handBack k fileblock block

def bmapIdblock (k idblock : Nat) : Sfs (Nat × Block) := do
  if idblock = 0 then
    let idblock ← sfsBalloc
    Sfs.updateInode k fun i => { i with sfiIndirect := UInt32.ofNat idblock }
    return (idblock,Block.zero)
  else
    let idbuf ← sfsRblock idblock
    return (idblock,idbuf)

def bmapSlot (k idblock : Nat) (idbuf : Block) (idoff : Nat) (doalloc : Bool) : Sfs Nat := do
  let block := (idbuf.word idoff).toNat
  if block = 0 ∧ doalloc then
    let block ← sfsBalloc
    sfsWblock (idbuf.setWord idoff (UInt32.ofNat block)) idblock
    handBack k idoff block
  else handBack k idoff block

def sfsBmap (k fileblock : Nat) (doalloc : Bool) : Sfs Nat := do
  if fileblock < 15 then bmapDirect k fileblock doalloc
  else
    let idnum := (fileblock - 15) / 128
    let idoff := (fileblock - 15) % 128
    if idnum > 0 then fail .einval
    else
      let sv ← Sfs.vnode k
      let idblock := sv.svI.sfiIndirect.toNat
      if idblock = 0 ∧ doalloc = false then return 0
      else
        let (idblock,idbuf) ← bmapIdblock k idblock
        bmapSlot k idblock idbuf idoff doalloc

/-! File-level I/O -/

/-- The buffer of `sfs_partialio`: the block, or zeros for a hole, which only a read meets. -/
def partialioFetch (rw_ : UioRw) (diskblock : Nat) : Call SfsIo Block := do
  if diskblock = 0 then
    assert (rw_ = .read) .partialioHole
    pure Block.zero
  else SfsIo.onFs (sfsRblock diskblock)

def sfsPartialio (k skipstart len : Nat) : Call SfsIo Unit := do
  let io ← read
  assert ((skipstart + len) % 2^32 ≤ 512) .partialioRange
  let fileblock := u32 (io.uio.uioOffset.tdiv 512)
  let diskblock ← SfsIo.onFs (sfsBmap k fileblock (io.uio.uioRw = .write))
  let iobuf ← partialioFetch io.uio.uioRw diskblock
  -- iobuf + skipstart may lie outside the buffer when the sum above wrapped around
  assert (skipstart + len ≤ 512) .bufferOverrun
  let moved ← SfsIo.onUio (Uio.uiomove (fun i => iobuf.bytes (skipstart + i)) len)
  if io.uio.uioRw = .write then
    SfsIo.onFs (sfsWblock (Block.ofBytes (overwrite iobuf.bytes skipstart moved len)) diskblock)
  else pure ()

/-- The part of `sfs_blockio` that does the I/O directly to the uio region, with the
offset and residue replaced by ones that make sense to the device. -/
def blockioDirect (diskblock : Nat) : Call SfsIo Unit := do
  let io ← read
  let saveoff := io.uio.uioOffset
  let diskoff := i32 (diskblock * 512)
  assert (io.uio.uioResid ≥ 512) .blockioResid
  let saveres := io.uio.uioResid
  modify fun io => { io with uio := { io.uio with uioOffset := diskoff, uioResid := 512 } }
  let result ← attempt sfsRwblock
  modify fun io => { io with uio := { io.uio with
    uioOffset := i32 ((io.uio.uioOffset - diskoff) + saveoff)
    uioResid := u32 (((io.uio.uioResid : Int) - 512) + saveres) } }
  give result

def sfsBlockio (k : Nat) : Call SfsIo Unit := do
  let io ← read
  let fileblock := u32 (io.uio.uioOffset.tdiv 512)
  let diskblock ← SfsIo.onFs (sfsBmap k fileblock (io.uio.uioRw = .write))
  if diskblock = 0 then
    assert (io.uio.uioRw = .read) .blockioHole
    SfsIo.onUio (Uio.uiomovezeros 512)
  else blockioDirect diskblock

def ioLeading (k : Nat) : Call SfsIo Unit := do
  let u := (← read).uio
  let blkoff := u32 (u.uioOffset.tmod 512)
  if blkoff ≠ 0 then
    let len := u32 (512 - (blkoff : Int))
    let len := if len > u.uioResid then u.uioResid else len
    sfsPartialio k blkoff len
  else pure ()

def ioAligned (k : Nat) : Call SfsIo Unit := do
  let u := (← read).uio
  if u.uioResid = 0 then pure ()
  else
    assert (u.uioOffset.tmod 512 = 0) .ioUnaligned
    let nblocks := u.uioResid / 512
    loop (fun _ _ => sfsBlockio k) nblocks 0 ()
    let u := (← read).uio
    assert (u.uioResid < 512) .ioTail
    if u.uioResid > 0 then sfsPartialio k 0 u.uioResid else pure ()

/-- From the leading partial block to the label `out` of `sfs_io`. -/
def ioBody (k : Nat) : Call SfsIo Unit := do
  ioLeading k
  ioAligned k

/-- The label `out` of `sfs_io`: adjust the file length if writing, add back the amount
that end of file cut off, and return the result. -/
def ioOut (k extraresid : Nat) (result : Except Errno Unit) : Call SfsIo Unit := do
  let io ← read
  let sv ← SfsIo.onFs (Sfs.vnode k)
  if io.uio.uioRw = .write ∧ io.uio.uioOffset > i32 sv.svI.sfiSize.toNat then
    SfsIo.onFs (Sfs.updateInode k fun i =>
      { i with sfiSize := UInt32.ofNat (u32 io.uio.uioOffset) })
  else pure ()
  SfsIo.onUio (modify fun u => { u with uioResid := (u.uioResid + extraresid) % 2^32 })
  give result

def ioRun (k extraresid : Nat) : Call SfsIo Unit := do
  let result ← attempt (ioBody k)
  ioOut k extraresid result

/-- `sfs_io`. Reads are cut off at end of file first. -/
def sfsIo (k : Nat) : Call SfsIo Unit := do
  let io ← read
  match io.uio.uioRw with
  | .write => ioRun k 0
  | .read =>
    let sv ← SfsIo.onFs (Sfs.vnode k)
    let size := i32 sv.svI.sfiSize.toNat
    let endpos := i32 (io.uio.uioOffset + io.uio.uioResid)
    if io.uio.uioOffset ≥ size then pure ()
    else if endpos > size then
      let extraresid := u32 (endpos - size)
      assert (io.uio.uioResid > extraresid) .ioExtraresid
      SfsIo.onUio (modify fun u => { u with uioResid := u.uioResid - extraresid })
      ioRun k extraresid
    else ioRun k 0

/-! Directory I/O -/

def entryUio (buf : Nat → UInt8) (slot : Nat) (rw_ : UioRw) : Uio :=
  Uio.mkKuio buf 64 (i32 (slot * 64)) rw_

def sfsReaddir (k slot : Nat) : Sfs SfsDir := do
  let (_,ku) ← Sfs.withUio (entryUio (fun _ => 0) slot .read) (sfsIo k)
  assert (ku.uioResid = 0) (.readdirShort k)
  return SfsDir.ofBytes ku.mem

def sfsWritedir (k : Nat) (sd : SfsDir) (slot : Nat) : Sfs Unit := do
  let (_,ku) ← Sfs.withUio (entryUio sd.toBytes slot .write) (sfsIo k)
  assert (ku.uioResid = 0) (.writedirShort k)

/-- `sfs_dir_nentries`: the number of slots, empty ones included. -/
def sfsDirNentries (k : Nat) : Sfs Nat := do
  let sv ← Sfs.vnode k
  assert (sv.svI.sfiType = sfsTypeDir) .dirType
  let size := sv.svI.sfiSize.toNat
  assert (size % 64 = 0) (.dirSize k size)
  return size / 64

/-- The results of `sfs_dir_findname`: inode number and slot of the entry if the name was
found (`ENOENT` otherwise), and an empty slot if there is one. -/
structure FindResult where
  found : Option (Nat × Nat)
  emptyslot : Option Nat

/-- One turn of the loop of `sfs_dir_findname`. -/
def findnameTurn (k : Nat) (name : CString) (i : Nat) (r : FindResult) : Sfs FindResult := do
  let tsd ← sfsReaddir k i
  if tsd.sfdIno = 0 then return { r with emptyslot := some i }
  else if tsd.name = name.chars then
    -- each name may legally appear only once
    assert r.found.isNone .dirDuplicate
    return { r with found := some (tsd.sfdIno.toNat,i) }
  else return r

def sfsDirFindname (k : Nat) (name : CString) : Sfs FindResult := do
  let nentries ← sfsDirNentries k
  loop (findnameTurn k name) nentries 0 ⟨none,none⟩

def sfsDirLink (k : Nat) (name : CString) (ino : Nat) : Sfs Nat := do
  let r ← sfsDirFindname k name
  if r.found.isSome then fail .eexist
  else if name.chars.length + 1 > 60 then fail .enametoolong
  else
    let slot ← match r.emptyslot with
      | some slot => pure slot
      | none => sfsDirNentries k
    sfsWritedir k (SfsDir.make ino name.chars) slot
    return slot

def sfsDirUnlink (k slot : Nat) : Sfs Unit := sfsWritedir k (SfsDir.make 0 []) slot

/-! Vnodes -/

def vnodeIncref (k : Nat) : Sfs Unit := do
  let _ ← Sfs.vnode k
  Sfs.update k fun v => { v with vnRefcount := v.vnRefcount + 1 }

/-- `lock_create`: the lock and a copy of its name. -/
def lockCreate : Sfs Unit := do
  Sfs.kmalloc
  Sfs.kmalloc

/-- `array_add` on the vnode table, whose capacity grows from `max` to `(max+1)*2`. -/
def vnodesAdd (v : SfsVnode) : Sfs Unit := do
  let s ← read
  if s.sfsVnodes.length + 1 > s.vnodesMax then
    Sfs.kmalloc
    modify fun s =>
      { s with sfsVnodes := s.sfsVnodes ++ [v], vnodesMax := (s.vnodesMax + 1) * 2 }
  else modify fun s => { s with sfsVnodes := s.sfsVnodes ++ [v] }

def loadSearch (ino : Nat) : List SfsVnode → Sfs Bool
  | [] => return false
  | sv :: rest => do
    let used ← sfsBused sv.svIno
    assert used (.inodeUnallocated sv.svIno)
    if sv.svIno = ino then return true else loadSearch ino rest

def loadOps (ino : Nat) (type : UInt16) : Sfs VnodeOps :=
  if type = sfsTypeFile then pure .fileops
  else if type = sfsTypeDir then pure .dirops
  else panic (.loadInvalidType ino type.toNat)

/-- The inode as `sfs_loadvnode` takes it in: the type may be forced. -/
def loadType (forcetype : UInt16) (i : SfsInode) : SfsInode :=
  if forcetype = sfsTypeInval then i else { i with sfiType := forcetype }

/-- The vnode that `sfs_loadvnode` makes, with `VOP_INIT` done. -/
def loadedVnode (ino : Nat) (ops : VnodeOps) (i : SfsInode) (dirty : Bool) : SfsVnode :=
  { vnRefcount := 1, vnOpencount := 0, vnOps := ops, svI := i, svIno := ino, svDirty := dirty }

/-- The part of `sfs_loadvnode` that brings in an inode which is not in memory. -/
def loadNew (ino : Nat) (forcetype : UInt16) : Sfs Nat := do
  Sfs.kmalloc
  let used ← sfsBused ino
  assert used (.loadUnallocated ino)
  let i := SfsInode.ofBlock (← sfsRblock ino)
  assert (forcetype = sfsTypeInval ∨ i.sfiType = sfsTypeInval) .loadTypeInval
  let i := loadType forcetype i
  let ops ← loadOps ino i.sfiType
  lockCreate
  vnodesAdd (loadedVnode ino ops i (forcetype ≠ sfsTypeInval))
  return ino

def sfsLoadvnode (ino : Nat) (forcetype : UInt16) : Sfs Nat := do
  let s ← read
  if ← loadSearch ino s.sfsVnodes then
    assert (forcetype = sfsTypeInval) .loadForcetype
    vnodeIncref ino
    return ino
  else loadNew ino forcetype

def sfsGetroot : Sfs Nat := do
  match ← attempt (sfsLoadvnode 1 sfsTypeInval) with
  | .ok k => return k
  | .error _ => panic .getrootCannotLoad

def sfsLookonce (k : Nat) (name : CString) : Sfs (Nat × Nat) := do
  let r ← sfsDirFindname k name
  match r.found with
  | none => fail .enoent
  | some (ino,slot) =>
    let ret ← sfsLoadvnode ino sfsTypeInval
    let sv ← Sfs.vnode ret
    assert (sv.svI.sfiLinkcount ≠ 0) (.linkcountZero ret k)
    return (ret,slot)

def sfsMakeobj (type : UInt16) : Sfs Nat := do
  let ino ← sfsBalloc
  sfsLoadvnode ino type

/-! Truncation -/

def truncateDirect (k blocklen i : Nat) : Sfs Unit := do
  let sv ← Sfs.vnode k
  let block := sv.svI.direct i
  if i ≥ blocklen ∧ block ≠ 0 then
    sfsBfree block
    Sfs.updateInode k fun j => j.setDirect i 0
  else pure ()

structure TruncateLocals where
  idbuf : Block
  hasnonzero : Bool
  iddirty : Bool

def truncateSlot (blocklen j : Nat) (l : TruncateLocals) : Sfs TruncateLocals := do
  let block := (l.idbuf.word j).toNat
  if blocklen < 15 + j ∧ block ≠ 0 then
    sfsBfree block
    return { l with idbuf := l.idbuf.setWord j 0, iddirty := true }
  else if block ≠ 0 then return { l with hasnonzero := true }
  else return l

def truncateIndirect (k blocklen : Nat) : Sfs Unit := do
  let sv ← Sfs.vnode k
  let idblock := sv.svI.sfiIndirect.toNat
  if blocklen < 15 + 128 - 1 ∧ idblock ≠ 0 then
    let idbuf ← sfsRblock idblock
    let l ← loop (truncateSlot blocklen) 128 0 ⟨idbuf,false,false⟩
    if l.hasnonzero = false then
      sfsBfree idblock
      Sfs.updateInode k fun i => { i with sfiIndirect := 0 }
    else if l.iddirty then sfsWblock l.idbuf idblock
    else pure ()
  else pure ()

def truncateBlocklen (len : Int) : Nat := u32 ((i32 (len + 511)).tdiv 512)

def sfsTruncate (k : Nat) (len : Int) : Sfs Unit := do
  let blocklen := truncateBlocklen len
  loop (fun i _ => truncateDirect k blocklen i) 15 0 ()
  truncateIndirect k blocklen
  Sfs.updateInode k fun i => { i with sfiSize := UInt32.ofNat (u32 len) }

/-! Reference counts -/

/-- `vnode_check`, for operations other than reclaim. -/
def vnodeCheck (k : Nat) : Sfs SfsVnode := do
  let v ← Sfs.vnode k
  assert (v.vnRefcount ≠ 0) .checkZeroRefcount
  return v

def sfsRead (k : Nat) : Call SfsIo Unit := do
  let io ← read
  assert (io.uio.uioRw = .read) .readRw
  sfsIo k

def sfsWrite (k : Nat) : Call SfsIo Unit := do
  let io ← read
  assert (io.uio.uioRw = .write) .writeRw
  sfsIo k

def fileOnly (k : Nat) (op : Call SfsIo Unit) : Call SfsIo Unit := do
  let v ← SfsIo.onFs (vnodeCheck k)
  match v.vnOps with
  | .fileops => op
  | .dirops => fail .eisdir

def vopRead (k : Nat) : Call SfsIo Unit := fileOnly k (sfsRead k)
def vopWrite (k : Nat) : Call SfsIo Unit := fileOnly k (sfsWrite k)

def vopTruncate (k : Nat) (len : Int) : Sfs Unit := do
  let v ← vnodeCheck k
  match v.vnOps with
  | .fileops => sfsTruncate k len
  | .dirops => fail .eisdir

def vopFsync (k : Nat) : Sfs Unit := do
  let _ ← vnodeCheck k
  sfsSyncInode k

def SfsFs.drop (s : SfsFs) (k : Nat) : SfsFs :=
  { s with sfsVnodes := s.sfsVnodes.eraseP fun v => v.svIno = k }

def vnodeKill (v : SfsVnode) : Sfs Unit := do
  assert (v.vnRefcount = 1) .killRefcount
  assert (v.vnOpencount = 0) .killOpencount

def reclaimErase (k : Nat) : Sfs Unit := do
  let sv ← Sfs.vnode k
  if sv.svI.sfiLinkcount = 0 then vopTruncate k 0 else pure ()

def reclaimDiscard (k : Nat) : Sfs Unit := do
  let sv ← Sfs.vnode k
  if sv.svI.sfiLinkcount = 0 then sfsBfree sv.svIno else pure ()

/-- The end of `sfs_reclaim`: out of the table, and destroyed. -/
def reclaimDrop (k : Nat) : Sfs Unit := do
  let s ← read
  match s.vnode? k with
  | none => panic (.reclaimNotInPool k)
  | some sv =>
    put (s.drop k)
    vnodeKill sv

def sfsReclaim (k : Nat) : Sfs Unit := do
  let sv ← Sfs.vnode k
  if sv.vnRefcount ≠ 1 then
    assert (sv.vnRefcount > 1) .reclaimRefcount
    Sfs.update k fun v => { v with vnRefcount := v.vnRefcount - 1 }
    fail .ebusy
  else
    reclaimErase k
    sfsSyncInode k
    reclaimDiscard k
    reclaimDrop k

/-- `vnode_decref`. A failed reclaim is only reported on the console. -/
def vnodeDecref (k : Nat) : Sfs Unit := do
  let v ← Sfs.vnode k
  assert (v.vnRefcount > 0) .decrefZero
  if v.vnRefcount > 1 then Sfs.update k fun v => { v with vnRefcount := v.vnRefcount - 1 }
  else
    let _ ← attempt (sfsReclaim k)

/-! Directory operations -/

def sfsCreat (k : Nat) (name : CString) (excl : Bool) : Sfs Nat := do
  let r ← sfsDirFindname k name
  match r.found with
  | some (ino,_) =>
    if excl then fail .eexist else sfsLoadvnode ino sfsTypeInval
  | none =>
    let newguy ← sfsMakeobj sfsTypeFile
    match ← attempt (sfsDirLink k name newguy) with
    | .error code =>
      vnodeDecref newguy
      fail code
    | .ok _ =>
      Sfs.updateInode newguy fun i => { i with sfiLinkcount := i.sfiLinkcount + 1 }
      return newguy

def sfsLink (k : Nat) (name : CString) (file : Nat) : Sfs Unit := do
  let f ← Sfs.vnode file
  let _ ← sfsDirLink k name f.svIno
  Sfs.updateInode file fun i => { i with sfiLinkcount := i.sfiLinkcount + 1 }

def lowerLinks (k : Nat) (site : Panic) : Sfs Unit := do
  let sv ← Sfs.vnode k
  assert (sv.svI.sfiLinkcount > 0) site
  Sfs.updateInode k fun i => { i with sfiLinkcount := i.sfiLinkcount - 1 }

def sfsRemove (k : Nat) (name : CString) : Sfs Unit := do
  let (victim,slot) ← sfsLookonce k name
  match ← attempt (sfsDirUnlink k slot) with
  | .ok _ =>
    lowerLinks victim .removeLinkcount
    vnodeDecref victim
  | .error code =>
    vnodeDecref victim
    fail code

/-- The error recovery of `sfs_rename` (`puke_harder`): undo the link under the new name. -/
def renameUndo (k g1 slot2 : Nat) : Sfs Unit := do
  match ← attempt (sfsDirUnlink k slot2) with
  | .ok _ => Sfs.update g1 fun v =>
      { v with svI := { v.svI with sfiLinkcount := v.svI.sfiLinkcount - 1 } }
  | .error _ => panic .renameCannotRecover

/-- `sfs_rename` once the file has its new name: take the old one away. -/
def renameUnlink (k g1 slot1 slot2 : Nat) : Sfs Unit := do
  match ← attempt (sfsDirUnlink k slot1) with
  | .ok _ =>
    lowerLinks g1 .renameLinkcount
    vnodeDecref g1
  | .error code =>
    renameUndo k g1 slot2
    vnodeDecref g1
    fail code

/-- `sfs_rename` once the old name has been looked up. -/
def renameFound (k g1 slot1 : Nat) (n2 : CString) : Sfs Unit := do
  let sv ← Sfs.vnode g1
  assert (sv.svI.sfiType = sfsTypeFile) .renameType
  match ← attempt (sfsDirLink k n2 g1) with
  | .error code =>
    vnodeDecref g1
    fail code
  | .ok slot2 =>
    Sfs.updateInode g1 fun i => { i with sfiLinkcount := i.sfiLinkcount + 1 }
    renameUnlink k g1 slot1 slot2

def sfsRename (d1 : Nat) (n1 : CString) (d2 : Nat) (n2 : CString) : Sfs Unit := do
  assert (d1 = d2) .renameDirs
  assert (d1 = 1) .renameRoot
  let (g1,slot1) ← sfsLookonce d1 n1
  renameFound d1 g1 slot1 n2

/-- `sfs_lookparent`: the directory, and the path as the last component. -/
def sfsLookparent (k : Nat) (path : CString) (buflen : Nat) : Sfs (Nat × CString) := do
  let sv ← Sfs.vnode k
  if sv.svI.sfiType ≠ sfsTypeDir then fail .enotdir
  else if path.chars.length + 1 > buflen then fail .enametoolong
  else
    vnodeIncref k
    return (k,path)

def sfsLookup (k : Nat) (path : CString) : Sfs Nat := do
  let sv ← Sfs.vnode k
  if sv.svI.sfiType ≠ sfsTypeDir then fail .enotdir
  else
    let (final,_) ← sfsLookonce k path
    return final

end Os161
