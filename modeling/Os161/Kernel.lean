import Os161.Exec
import Os161.Words

/-! Error codes and panic sites of the modelled kernel sources. -/
namespace Os161

/-- The codes of `kern/errno.h` that the modelled functions return. -/
inductive Errno where
  | einval | efault | enametoolong | enomem | eio | enoent | enotdir | eisdir | eexist
  | exdev | eagain | eunimp | enxio | enodev | ebusy | enospc
  deriving DecidableEq, Repr

/-- Every `panic` and `assert` of the modelled functions, by what it reports. The last
two stand for accesses C leaves undefined: a vnode that is no longer in memory, and a
byte outside a static buffer. -/
inductive Panic where
  -- uio.c
  | uiomoveSpace | uiomoveSizeZero | uiomovezerosWrite
  -- bitmap.c
  | bitmapAllocRange (index : Nat) | bitmapAllocWord
  | bitmapMarkRange (index : Nat) | bitmapMarkSet (index : Nat)
  | bitmapUnmarkRange (index : Nat) | bitmapUnmarkClear (index : Nat)
  -- sfs_io.c
  | dIoEinval
  -- sfs_vnode.c
  | ballocInvalidBlock (block : Nat) | busedOutOfRange (block : Nat)
  | dataBlockFree (block fileblock ino : Nat)
  | partialioRange | partialioHole | blockioHole | blockioResid
  | ioExtraresid | ioUnaligned | ioTail
  | readRw | writeRw
  | readdirShort (ino : Nat) | writedirShort (ino : Nat)
  | dirType | dirSize (ino size : Nat) | dirDuplicate | linkcountZero (ino dir : Nat)
  | reclaimRefcount | reclaimNotInPool (ino : Nat)
  | removeLinkcount
  | renameDirs | renameRoot | renameType | renameLinkcount | renameCannotRecover
  | inodeUnallocated (ino : Nat) | loadUnallocated (ino : Nat) | loadForcetype | loadTypeInval
  | loadInvalidType (ino type : Nat) | getrootCannotLoad
  -- sfs_fs.c
  | unmountSuperdirty | unmountFreemapdirty
  -- vnode.c
  | checkZeroRefcount | killRefcount | killOpencount | decrefZero | decopenZero
  -- vfspath.c
  | openNoVnode
  -- undefined behaviour
  | freedVnode (ino : Nat) | bufferOverrun
  deriving DecidableEq, Repr

abbrev Call (σ α : Type) := Exec σ Errno Panic α

/-- `DIVROUNDUP` of `lib.h` on `u_int32_t`. -/
def divRoundUp (a b : Nat) : Nat := (a + b - 1) % 2^32 / b

end Os161
