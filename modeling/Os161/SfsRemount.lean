import Os161.SfsSync

/-! `sfs_domount`: what a disk image turns into when it is mounted, and that an image left
by `sfs_sync` turns into the file system that was synced. -/
namespace Os161

open SfsFs

theorem mapBlock_setBlock (f : Bitmap) (j i : Nat) (d : Block) :
    mapBlock (f.setBlock j d) i = if i = j then d else mapBlock f i := by
  apply Block.ext_bytes
  intro o lt
  rw [mapBlock,Block.bytes_ofBytes _ lt]
  simp only [Bitmap.setBlock,overwrite]
  split
  · rw [if_pos (by omega),show i * 512 + o - j * 512 = o by omega]
  · rw [if_neg (by omega),mapBlock,Block.bytes_ofBytes _ lt]

theorem isset_of_mapBlock {f g : Bitmap} {i : Nat}
    (same : mapBlock f (i / 4096) = mapBlock g (i / 4096)) : f.isset i = g.isset i := by
  have lt : i / 8 % 512 < 512 := Nat.mod_lt _ (by decide)
  have place : i / 4096 * 512 + i / 8 % 512 = i / 8 := by omega
  have byte := congrArg (fun d : Block => d.bytes (i / 8 % 512)) same
  simp only [mapBlock,Block.bytes_ofBytes _ lt,place] at byte
  rw [Bitmap.isset_eq,Bitmap.isset_eq,byte]

namespace SfsFs

def superOf (sectors : Nat → Block) : SfsSuper := (SfsSuper.ofBlock (sectors 0)).terminate

/-- A structure that `sfs_domount` has just allocated: nothing is known of it but its
device, which can be read and holds all of the file system that is on it. -/
structure Mountable (s : SfsFs) : Prop where
  honest : s.sfsDevice.Honest
  reliable : s.Reliable
  blocksize : s.sfsDevice.dBlocksize = 512
  fits : s.sfsDevice.dBlocks * 512 < 2^31
  magic : (superOf s.sectors).spMagic = sfsMagic
  map : 2 + sfsBitblocks (superOf s.sectors).spNblocks.toNat ≤ s.sfsDevice.dBlocks

/-- The file system that `sfs_domount` makes of a disk image. -/
structure Mount (s t : SfsFs) : Prop where
  super : t.sfsSuper = superOf s.sectors
  superdirty : t.sfsSuperdirty = false
  vnodes : t.sfsVnodes = []
  bits : t.sfsFreemap.nbits = sfsBitmapsize t.nblocks
  map : ∀ j < sfsBitblocks t.nblocks, mapBlock t.sfsFreemap j = s.sectors (2 + j)
  freemapdirty : t.sfsFreemapdirty = false
  device : ∃ n, t.sfsDevice = (s.tick n).sfsDevice
  reliable : t.Reliable

variable {s t : SfsFs} {b : Nat}

theorem Mount.sectors (mount : Mount s t) : t.sectors = s.sectors := by
  obtain ⟨n,device⟩ := mount.device
  rw [SfsFs.sectors,device]
  rfl

theorem Mount.unloaded (mount : Mount s t) (k : Nat) : t.vnode? k = none := by
  rw [vnode?,mount.vnodes]
  rfl

theorem Mount.inode (mount : Mount s t) (k : Nat) :
    t.inode k = SfsInode.ofBlock (s.sectors k) := by
  simp only [SfsFs.inode,mount.unloaded,mount.sectors]

theorem Mountable.reaches (m : s.Mountable) (inside : b < s.sfsDevice.dBlocks) : s.Reaches b where
  honest := m.honest
  inside := inside
  fits := Nat.lt_trans (Nat.mul_lt_mul_of_pos_right inside (by decide)) m.fits

theorem Mountable.congr (m : s.Mountable) (device : t.sfsDevice = s.sfsDevice)
    (kmalloc : ∀ i, t.kmalloc i = true) : t.Mountable := by
  have sectors : t.sectors = s.sectors := by rw [SfsFs.sectors,SfsFs.sectors,device]
  refine ⟨?_,⟨?_,kmalloc⟩,?_,?_,?_,?_⟩
  · rw [device]; exact m.honest
  · rw [disk,device]; exact m.reliable.1
  · rw [device]; exact m.blocksize
  · rw [device]; exact m.fits
  · rw [sectors]; exact m.magic
  · rw [sectors,device]; exact m.map

/-! What holds of any file system that has just been mounted -/

theorem Mount.geometry (mount : Mount s t) (m : s.Mountable)
    (inside : t.nblocks ≤ s.sfsDevice.dBlocks)
    (tail : ∀ i, t.nblocks ≤ i → i < t.sfsFreemap.nbits → t.sfsFreemap.isset i = true) :
    t.Geometry True := by
  obtain ⟨n,device⟩ := mount.device
  refine ⟨?_,fun _ => mount.reliable,?_,?_,?_,mount.bits,tail⟩
  · rw [device]
    exact m.honest.imp_right fun real => ⟨real.1,fun _ => real.2 _⟩
  · rw [device]
    exact m.blocksize
  · rw [device]
    exact inside
  · rw [device]
    exact m.fits

theorem Mount.durable (mount : Mount s t) (m : s.Mountable) : t.Durable where
  magic := by rw [mount.super]; exact m.magic
  named := by rw [mount.super,superOf,SfsSuper.terminate_terminate]
  super := fun _ => by rw [mount.sectors,mount.super,superOf]
  map := fun _ j small => by rw [mount.map j small,mount.sectors]
  inode := fun k v found => by
    rw [mount.unloaded] at found
    exact nomatch found

theorem Mount.table (mount : Mount s t) (live : Nat → Prop) : t.Table live := by
  have none_ : ∀ {k v}, t.vnode? k ≠ some v := fun found => by
    rw [mount.unloaded] at found
    exact nomatch found
  refine ⟨?_,fun k v found => absurd found none_,fun k v found => absurd found none_,
    fun k v found => absurd found none_⟩
  rw [mount.vnodes]
  exact List.nodup_nil

end SfsFs

section Mounting
variable {s t : SfsFs}

theorem Sfs.wp_kmalloc (reliable : s.Reliable) {ok : Unit → SfsFs → Prop}
    {err : Errno → SfsFs → Prop} {halt : Panic → SfsFs → Prop} :
    Sfs.kmalloc.wp s ok err halt ↔ ok () { s with kmalloc := fun i => s.kmalloc (i + 1) } := by
  simp only [Sfs.kmalloc,wp_bind,wp_read,wp_put,reliable.2 0,if_true,
    wp_pure]

theorem sfsRblock_reliable {b : Nat} (reaches : s.Reaches b) (reliable : s.Reliable) :
    (sfsRblock b).wp s (fun data t => data = s.sectors b ∧ ∃ n, t = s.tick n) never never := by
  apply wp_ends (sfsRblock_spec reaches)
  · rintro data _ ⟨same,m,-,-,rfl⟩
    exact ⟨same,m + 1,rfl⟩
  · rintro _ _ ⟨-,bad,-⟩
    exact Bool.noConfusion ((bad 0 (by omega)).symm.trans (reliable.1 0))

theorem sfsMapio_read (reliable : s.Reliable)
    (reaches : ∀ j < sfsBitblocks s.nblocks, s.Reaches (2 + j)) :
    (sfsMapio .read).wp s
      (fun _ t => ∃ n f, t = { s.tick n with sfsFreemap := f } ∧ f.nbits = s.sfsFreemap.nbits ∧
        ∀ j < sfsBitblocks s.nblocks, mapBlock f j = s.sectors (2 + j)) never never := by
  simp only [sfsMapio,wp_bind,wp_read]
  refine wp_loop_zero (fun i _ t => ∃ n f, t = { s.tick n with sfsFreemap := f } ∧
      f.nbits = s.sfsFreemap.nbits ∧ ∀ j < i, mapBlock f j = s.sectors (2 + j)) _ ()
    ⟨0,s.sfsFreemap,by rw [tick_zero],rfl,fun j lt => absurd lt (Nat.not_lt_zero j)⟩ ?_
  rintro i _ _ lt ⟨n,f,rfl,bits,before⟩
  have at_ : SfsFs.Reaches { s.tick n with sfsFreemap := f } (2 + i) :=
    ⟨(reaches i lt).honest.imp_right fun real => ⟨real.1,fun _ => real.2 _⟩,
      (reaches i lt).inside,(reaches i lt).fits⟩
  have good : SfsFs.Reliable { s.tick n with sfsFreemap := f } :=
    ⟨fun _ => reliable.1 _,reliable.2⟩
  simp only [mapioTurn,wp_bind]
  apply wp_imp (sfsRblock_reliable at_ good)
  rintro d _ ⟨rfl,m,rfl⟩
  rw [wp_modify]
  refine ⟨n + m,f.setBlock i (s.sectors (2 + i)),?_,bits,fun j ltJ => ?_⟩
  · rw [← tick_tick]
    rfl
  · rw [mapBlock_setBlock]
    split
    · rw [show j = i by assumption]
    · exact before j (by omega)

theorem mountSuper_spec (m : s.Mountable) :
    mountSuper.wp s (fun _ t => ∃ n, t = { s.tick n with sfsSuper := superOf s.sectors })
      never never := by
  have inside : 0 < s.sfsDevice.dBlocks := by have := m.map; omega
  have magic : (SfsSuper.ofBlock (s.sectors 0)).spMagic = sfsMagic := m.magic
  rw [mountSuper,wp_bind]
  apply wp_imp (sfsRblock_reliable (m.reaches inside) m.reliable)
  rintro d _ ⟨rfl,n,rfl⟩
  simp only
  rw [if_neg (not_not_intro magic),wp_modify]
  exact ⟨n,rfl⟩

theorem mountFreemap_spec (reliable : s.Reliable)
    (reaches : ∀ j < sfsBitblocks s.nblocks, s.Reaches (2 + j)) :
    mountFreemap.wp s
      (fun _ t => ∃ n f, t = { s.tick n with sfsFreemap := f, kmalloc := fun i => s.kmalloc (i + 2) } ∧
        f.nbits = sfsBitmapsize s.nblocks ∧
        ∀ j < sfsBitblocks s.nblocks, mapBlock f j = s.sectors (2 + j)) never never := by
  have later : SfsFs.Reliable { s with kmalloc := fun i => s.kmalloc (i + 1) } :=
    ⟨reliable.1,fun _ => reliable.2 _⟩
  simp only [mountFreemap,wp_bind,Sfs.wp_kmalloc reliable,Sfs.wp_kmalloc later,
    wp_modify]
  have good : SfsFs.Reliable { s with
      kmalloc := fun i => s.kmalloc (i + 1 + 1)
      sfsFreemap := Bitmap.create (sfsBitmapsize s.nblocks) } :=
    ⟨reliable.1,fun _ => reliable.2 _⟩
  apply wp_imp (sfsMapio_read good fun j lt =>
    ⟨(reaches j lt).honest,(reaches j lt).inside,(reaches j lt).fits⟩)
  rintro _ _ ⟨n,f,rfl,bits,map⟩
  exact ⟨n,f,rfl,bits,map⟩

theorem sfsDomount_spec (m : s.Mountable) :
    sfsDomount.wp s (fun _ t => Mount s t) never never := by
  have later : SfsFs.Reliable { s with kmalloc := fun i => s.kmalloc (i + 1) } :=
    ⟨m.reliable.1,fun _ => m.reliable.2 _⟩
  -- the structure once the vnode array is there
  obtain ⟨s1,at1⟩ : ∃ s1 : SfsFs, s1 = { s with
      kmalloc := fun i => s.kmalloc (i + 1 + 1), sfsVnodes := [], vnodesMax := 0 } := ⟨_,rfl⟩
  have device1 : s1.sfsDevice = s.sfsDevice := by rw [at1]
  have vnodes1 : s1.sfsVnodes = [] := by rw [at1]
  have m1 : s1.Mountable := m.congr device1 (by rw [at1]; exact fun _ => m.reliable.2 _)
  rw [sfsDomount,wp_bind,wp_read,if_neg (not_not_intro m.blocksize),wp_bind,
    Sfs.wp_kmalloc m.reliable,wp_bind,Sfs.wp_kmalloc later,wp_bind,wp_modify,
    wp_bind]
  rw [← at1]
  apply wp_imp (mountSuper_spec m1)
  rintro _ s2 ⟨n,at2⟩
  have super2 : s2.sfsSuper = superOf s.sectors := by
    rw [at2,SfsFs.sectors,SfsFs.sectors,device1]
  have device2 : s2.sfsDevice = (s.tick n).sfsDevice := by
    rw [at2,SfsFs.tick,SfsFs.tick,setDisk,setDisk,disk,disk,device1]
  have sectors2 : s2.sectors = s.sectors := by rw [SfsFs.sectors,device2]; rfl
  have vnodes2 : s2.sfsVnodes = [] := by rw [at2]; exact vnodes1
  have reliable2 : s2.Reliable := by
    rw [at2]
    exact ⟨fun _ => m1.reliable.1 _,m1.reliable.2⟩
  have reaches2 : ∀ j < sfsBitblocks s2.nblocks, s2.Reaches (2 + j) := by
    intro j lt
    rw [SfsFs.nblocks,super2] at lt
    have inside : 2 + j < s.sfsDevice.dBlocks := by have := m.map; omega
    refine ⟨?_,?_,(m.reaches inside).fits⟩
    · rw [device2]
      exact m.honest.imp_right fun real => ⟨real.1,fun _ => real.2 _⟩
    · rw [device2]
      exact inside
  rw [wp_bind]
  apply wp_imp (mountFreemap_spec reliable2 reaches2)
  rintro _ s3 ⟨n',f,at3,bits,map⟩
  rw [wp_modify]
  subst s3
  rw [sectors2] at map
  refine ⟨super2,rfl,vnodes2,bits,map,rfl,⟨n + n',?_⟩,⟨fun _ => reliable2.1 _,?_⟩⟩
  · rw [← tick_tick,SfsFs.tick,setDisk,disk,SfsFs.tick,setDisk,disk,device2]
  · exact fun _ => reliable2.2 _

/-! Round trip -/

/-- A structure that `sfs_domount` has just allocated, with a disk image on its device. -/
structure SfsFs.Holds (g : SfsFs) (image : Nat → Block) : Prop where
  honest : g.sfsDevice.Honest
  reliable : g.Reliable
  blocksize : g.sfsDevice.dBlocksize = 512
  fits : g.sfsDevice.dBlocks * 512 < 2^31
  inside : (superOf image).spNblocks.toNat ≤ g.sfsDevice.dBlocks
  sectors : g.sectors = image

variable {strict : Prop} {live : Nat → Prop} {g : SfsFs}

theorem SfsFs.Consistent.map_inside (c : Consistent strict live ∅ s) :
    2 + sfsBitblocks s.nblocks ≤ s.nblocks := by
  have asSuper : s.Claims live .super 0 := rfl
  have positive := c.inside asSuper
  have some_ : 0 < sfsBitblocks s.nblocks := by
    rw [sfsBitblocks_eq,divRoundUp]
    have := c.geometry.small
    omega
  have asMap : s.Claims live (.map (sfsBitblocks s.nblocks - 1))
      (2 + (sfsBitblocks s.nblocks - 1)) := ⟨by omega,rfl⟩
  have := c.inside asMap
  omega

theorem SfsFs.Clean.super_eq (clean : s.Clean) (c : Consistent strict live ∅ s) :
    superOf s.sectors = s.sfsSuper := c.durable.super clean.super

theorem SfsFs.Holds.mountable (holds : g.Holds s.sectors) (clean : s.Clean)
    (c : Consistent strict live ∅ s) : g.Mountable where
  honest := holds.honest
  reliable := holds.reliable
  blocksize := holds.blocksize
  fits := holds.fits
  magic := by
    rw [holds.sectors,clean.super_eq c]
    exact c.durable.magic
  map := by
    have inside := holds.inside
    rw [clean.super_eq c] at inside
    rw [holds.sectors,clean.super_eq c]
    exact Nat.le_trans c.map_inside inside

section
variable (mount : Mount g t) (holds : g.Holds s.sectors) (clean : s.Clean)
  (c : Consistent strict live ∅ s)
include mount holds clean c

theorem SfsFs.Mount.inode_eq (k : Nat) : t.inode k = s.inode k := by
  rw [mount.inode,holds.sectors,SfsFs.inode]
  cases found : s.vnode? k with
  | none => rfl
  | some v => exact c.durable.inode k v found (clean.vnodes v (vnode?_mem found).1)

theorem SfsFs.Mount.view_eq (k : Nat) : t.view k = s.view k := by
  have same := mount.inode_eq holds clean c k
  have sectors : t.sectors = s.sectors := mount.sectors.trans holds.sectors
  refine view_congr (by rw [same]) (by rw [same]) (by rw [same]) fun n => ?_
  unfold data
  rw [block_congr same fun _ => by rw [sectors],sectors]

theorem SfsFs.Mount.isset_eq {i : Nat} (inside : i < s.sfsFreemap.nbits) :
    t.sfsFreemap.isset i = s.sfsFreemap.isset i := by
  have super : t.sfsSuper = s.sfsSuper := by rw [mount.super,holds.sectors,clean.super_eq c]
  have small : i / 4096 < sfsBitblocks s.nblocks := by
    rw [c.geometry.bits,sfsBitmapsize_eq] at inside
    omega
  apply isset_of_mapBlock
  rw [mount.map _ (by rw [SfsFs.nblocks,super]; exact small),holds.sectors]
  exact c.durable.map clean.freemap _ small

end

/-- Mounting the image of a clean file system gives that file system back. -/
theorem SfsFs.Consistent.remount (c : Consistent True live ∅ s) (clean : s.Clean)
    (holds : g.Holds s.sectors) (mount : Mount g t) : Consistent True live ∅ t := by
  have super : t.sfsSuper = s.sfsSuper := by rw [mount.super,holds.sectors,clean.super_eq c]
  have inodes := mount.inode_eq holds clean c
  have sectors : t.sectors = s.sectors := mount.sectors.trans holds.sectors
  have nblocks : t.nblocks = s.nblocks := by rw [SfsFs.nblocks,super]; rfl
  have bits : t.sfsFreemap.nbits = s.sfsFreemap.nbits := by
    rw [mount.bits,nblocks,c.geometry.bits]
  have used : t.used = s.used := by
    ext b
    simp only [SfsFs.used,nblocks,Set.mem_ofPred_eq]
    refine and_congr_right fun inside => ?_
    rw [mount.isset_eq holds clean c (Nat.lt_of_lt_of_le inside c.geometry.le_bits)]
  have m := holds.mountable clean c
  have inside : t.nblocks ≤ g.sfsDevice.dBlocks := by
    have inside := holds.inside
    rwa [← holds.sectors,← mount.super] at inside
  exact {
    geometry := mount.geometry m inside fun i past lt => by
      rw [bits] at lt
      rw [mount.isset_eq holds clean c lt]
      exact c.geometry.tail i (nblocks ▸ past) lt
    durable := mount.durable m
    table := mount.table live
    owned := by
      rw [used]
      exact c.owned.congr <| claims_congr super (fun k _ => by rw [inodes])
        (fun k _ => by rw [indirect,indirect,inodes])
        (fun k _ j _ => slot_congr (inodes k) (fun _ => by rw [sectors]) j)
    root := c.root
    typed := fun k h => by rw [inodes]; exact c.typed k h }

end Mounting
end Os161
