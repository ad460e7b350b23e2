import Os161.SfsHandles

/-! `sfs_fs.c`: mounting, syncing and unmounting. -/
namespace Os161

def Bitmap.setBlock (f : Bitmap) (j : Nat) (d : Block) : Bitmap :=
  { f with v := overwrite f.v (j * 512) d.bytes 512 }

/-- One turn of the loop of `sfs_mapio`. The bitmap starts at sector 2. -/
def mapioTurn (rw_ : UioRw) (j : Nat) : Sfs Unit :=
  match rw_ with
  | .read => do
    let d ← sfsRblock (2 + j)
    modify fun s => { s with sfsFreemap := s.sfsFreemap.setBlock j d }
  | .write => do
    let s ← read
    sfsWblock (SfsFs.mapBlock s.sfsFreemap j) (2 + j)

def sfsMapio (rw_ : UioRw) : Sfs Unit := do
  let s ← read
  loop (fun j _ => mapioTurn rw_ j) (sfsBitblocks s.nblocks) 0 ()

/-- The loop of `sfs_sync` over the loaded vnodes. The results of `VOP_FSYNC` are not
looked at. -/
def syncVnodes : List Nat → Sfs Unit
  | [] => pure ()
  | k :: rest => do
    let _ ← attempt (vopFsync k)
    syncVnodes rest

def syncFreemap : Sfs Unit := do
  let s ← read
  if s.sfsFreemapdirty then
    sfsMapio .write
    modify fun s => { s with sfsFreemapdirty := false }
  else pure ()

def syncSuper : Sfs Unit := do
  let s ← read
  if s.sfsSuperdirty then
    sfsWblock s.sfsSuper.toBlock 0
    modify fun s => { s with sfsSuperdirty := false }
  else pure ()

def sfsSync : Sfs Unit := do
  let s ← read
  syncVnodes (s.sfsVnodes.map SfsVnode.svIno)
  syncFreemap
  syncSuper

def sfsUnmount : Sfs Unit := do
  let s ← read
  if s.sfsVnodes.length > 0 then fail .ebusy
  else
    assert (s.sfsSuperdirty = false) .unmountSuperdirty
    assert (s.sfsFreemapdirty = false) .unmountFreemapdirty

def mountSuper : Sfs Unit := do
  let sp := SfsSuper.ofBlock (← sfsRblock 0)
  if sp.spMagic ≠ sfsMagic then fail .einval
  else modify fun s => { s with sfsSuper := sp.terminate }

def mountFreemap : Sfs Unit := do
  Sfs.kmalloc
  Sfs.kmalloc
  modify fun s => { s with sfsFreemap := Bitmap.create (sfsBitmapsize s.nblocks) }
  sfsMapio .read

/-- `sfs_domount`, on the structure it has allocated. The only field that means anything
beforehand is the device. -/
def sfsDomount : Sfs Unit := do
  let s ← read
  if s.sfsDevice.dBlocksize ≠ 512 then fail .enxio
  else
    Sfs.kmalloc
    Sfs.kmalloc
    modify fun s => { s with sfsVnodes := [], vnodesMax := 0 }
    mountSuper
    mountFreemap
    modify fun s => { s with sfsSuperdirty := false, sfsFreemapdirty := false }

end Os161
