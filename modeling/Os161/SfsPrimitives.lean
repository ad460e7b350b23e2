import Os161.SfsInvariant

/-! The state updates that operations are made of, and what each keeps of the invariant:
requests on the disk, stores, marks in the freemap, and changes to a loaded inode. -/
namespace Os161.SfsFs

section Geometry
variable {strict : Prop} {s : SfsFs} {b k : Nat}

section
variable (g : s.Geometry strict)
include g

theorem Geometry.small : s.nblocks < 2^22 := by
  have := g.inside
  have := g.fits
  omega

theorem Geometry.le_bits : s.nblocks ≤ s.sfsFreemap.nbits := by
  rw [g.bits]
  exact le_sfsBitmapsize (by have := g.small; omega)

theorem Geometry.words : s.sfsFreemap.words * 8 = s.sfsFreemap.nbits := by
  have := g.small
  simp only [Bitmap.words,divRoundUp,g.bits,sfsBitmapsize]
  omega

theorem Geometry.isSealed : s.sfsFreemap.Sealed := by
  intro i low high
  rw [g.words] at high
  omega

theorem Geometry.within (inside : b < s.nblocks) :
    b * 512 + 512 < 2^31 := by
  have le : (b + 1) * 512 ≤ s.sfsDevice.dBlocks * 512 :=
    Nat.mul_le_mul_right 512 (Nat.le_trans inside g.inside)
  rw [Nat.succ_mul] at le
  exact Nat.lt_of_le_of_lt le g.fits

theorem Geometry.reaches (inside : b < s.nblocks) : s.Reaches b where
  honest := g.honest
  inside := Nat.lt_of_lt_of_le inside g.inside
  fits := Nat.lt_of_le_of_lt (Nat.le_add_right _ 512) (g.within inside)

theorem Geometry.tick (n : Nat) : (s.tick n).Geometry strict where
  honest := g.honest.imp_right fun real => ⟨real.1,fun _ => real.2 _⟩
  reliable h := ⟨fun _ => (g.reliable h).1 _,(g.reliable h).2⟩
  blocksize := g.blocksize
  inside := g.inside
  fits := g.fits
  bits := g.bits
  tail := g.tail

theorem Geometry.mark (b : Nat) : (s.mark b).Geometry strict where
  honest := g.honest
  reliable := g.reliable
  blocksize := g.blocksize
  inside := g.inside
  fits := g.fits
  bits := g.bits
  tail i low high := by
    rw [mark_freemap,Bitmap.isset_set,g.tail i low high,Bool.or_true]

theorem Geometry.unmark (inside : b < s.nblocks) :
    (s.unmark b).Geometry strict where
  honest := g.honest
  reliable := g.reliable
  blocksize := g.blocksize
  inside := g.inside
  fits := g.fits
  bits := g.bits
  tail i low high := by
    have ne : i ≠ b := by have : s.nblocks ≤ i := low; omega
    rw [unmark_freemap,Bitmap.isset_clear]
    simp [ne,g.tail i low high]

theorem Geometry.store (b : Nat) (d : Block) :
    (s.store b d).Geometry strict :=
  ⟨g.honest,g.reliable,g.blocksize,g.inside,g.fits,g.bits,g.tail⟩

theorem Geometry.update (k : Nat) (f : SfsVnode → SfsVnode) :
    (s.update k f).Geometry strict :=
  ⟨g.honest,g.reliable,g.blocksize,g.inside,g.fits,g.bits,g.tail⟩

theorem Geometry.lax (bad : s.disk.media 0 = false) : ¬strict :=
  fun h => Disk.not_reliable bad (g.reliable h).1

end

end Geometry

/-! Claims, blocks and views after an update -/

section Effects
variable {strict : Prop} {live : Nat → Prop} {s : SfsFs} {b k j n : Nat} {d : Block}
  {f : SfsInode → SfsInode}

theorem inode_store (ne : k ≠ b) : (s.store b d).inode k = s.inode k := by
  have sector : (s.store b d).sectors k = s.sectors k := by rw [store_sectors,if_neg ne]
  simp only [inode,sector]
  rfl

theorem block_store (ne : k ≠ b) (apart : s.indirect k ≠ b) (n : Nat) :
    (s.store b d).block k n = s.block k n :=
  block_congr (inode_store ne) (fun _ => by rw [store_sectors,if_neg apart]) n

theorem data_store (ne : k ≠ b) (apart : s.indirect k ≠ b) (n : Nat) :
    (s.store b d).data k n = if s.block k n ≠ 0 ∧ s.block k n = b then d else s.data k n := by
  unfold data
  rw [block_store ne apart,store_sectors]
  split
  · simp_all
  · simp_all

theorem vnode?_edit (j : Nat) : (s.edit k f).vnode? j =
    if j = k then (s.vnode? j).map fun v => { v with svI := f v.svI, svDirty := true }
    else s.vnode? j := by
  rw [edit,vnode?_update s k (fun _ => by rfl)]

theorem inode_edit (isLoaded : s.loaded k) (j : Nat) :
    (s.edit k f).inode j = if j = k then f (s.inode k) else s.inode j := by
  by_cases same : j = k
  · subst j
    obtain ⟨v,found⟩ := loaded_iff.mp isLoaded
    simp [inode,vnode?_edit,found]
  · simp only [inode,vnode?_edit,if_neg same]
    rfl

theorem handle_edit (s : SfsFs) (k : Nat) (f : SfsInode → SfsInode) :
    (s.edit k f).handle = s.handle := by
  funext j
  unfold handle
  rw [vnode?_edit]
  split
  · cases s.vnode? j <;> rfl
  · rfl

theorem block_edit_other (isLoaded : s.loaded k) (ne : j ≠ k) (n : Nat) :
    (s.edit k f).block j n = s.block j n :=
  block_congr ((inode_edit isLoaded j).trans (if_neg ne)) (fun _ => rfl) n

theorem view_edit_other (isLoaded : s.loaded k) (ne : j ≠ k) :
    (s.edit k f).view j = s.view j := by
  have same : (s.edit k f).inode j = s.inode j := by rw [inode_edit isLoaded,if_neg ne]
  refine view_congr (by rw [same]) (by rw [same]) (by rw [same]) fun n => ?_
  unfold data
  rw [block_edit_other isLoaded ne (f := f)]
  rfl

theorem used_mark (inside : b < s.nblocks) : (s.mark b).used = insert b s.used := by
  ext i
  simp only [used,Set.mem_ofPred_eq,Set.mem_insert_iff,mark_freemap,Bitmap.isset_set,
    Bool.or_eq_true,decide_eq_true_eq]
  constructor
  · rintro ⟨lt,rfl | set⟩
    · exact Or.inl rfl
    · exact Or.inr ⟨lt,set⟩
  · rintro (rfl | ⟨lt,set⟩)
    · exact ⟨inside,Or.inl rfl⟩
    · exact ⟨lt,Or.inr set⟩

theorem used_unmark (s : SfsFs) (b : Nat) : (s.unmark b).used = s.used \ {b} := by
  ext i
  simp only [used,Set.mem_ofPred_eq,Set.mem_sdiff,Set.mem_singleton_iff,unmark_freemap,
    Bitmap.isset_clear,Bool.and_eq_true,Bool.not_eq_true',decide_eq_false_iff_not]
  constructor
  · rintro ⟨lt,ne,set⟩
    exact ⟨⟨lt,set⟩,ne⟩
  · rintro ⟨⟨lt,set⟩,ne⟩
    exact ⟨lt,ne,set⟩

theorem update_inos (s : SfsFs) (k : Nat) {f : SfsVnode → SfsVnode}
    (keeps : ∀ v, (f v).svIno = v.svIno) :
    (s.update k f).sfsVnodes.map SfsVnode.svIno = s.sfsVnodes.map SfsVnode.svIno := by
  simp only [update,List.map_map]
  apply List.map_congr_left
  intro v _
  simp only [Function.comp_apply]
  split
  · exact keeps v
  · rfl

end Effects

namespace Consistent
variable {strict : Prop} {live live' : Nat → Prop} {held held' : Set Nat} {s : SfsFs}
  {b k n : Nat} {d : Block} {o : Owner} {f : SfsInode → SfsInode}

section
variable (c : Consistent strict live held s)
include c

theorem congr_live (same : ∀ k, live' k ↔ live k) :
    Consistent strict live' held s := by
  have : live' = live := funext fun k => propext (same k)
  rwa [this]

theorem inside (claim : s.Claims live o b) : b < s.nblocks :=
  (c.owned.claimed claim).1

theorem tick (n : Nat) :
    Consistent strict live held (s.tick n) where
  geometry := c.geometry.tick n
  durable := ⟨c.durable.magic,c.durable.named,c.durable.super,c.durable.map,c.durable.inode⟩
  table := ⟨c.table.nodup,c.table.live,c.table.referenced,c.table.ops⟩
  owned := c.owned.congr (claims_congr rfl (fun _ _ => rfl) (fun _ _ => rfl) (fun _ _ _ _ => rfl))
  root := c.root
  typed := c.typed

theorem lose (lax : ¬strict) : Consistent strict live ∅ s :=
  ⟨c.geometry,c.durable,c.table,c.owned.lose lax,c.root,c.typed⟩

theorem remap {t : SfsFs} (map : Bitmap)
    (same : t = { s with sfsFreemap := map, sfsFreemapdirty := true }) (geometry : t.Geometry strict)
    (owned : Owned strict (s.Claims live) held' t.used) : Consistent strict live held' t := by
  subst same
  exact {
    geometry := geometry
    durable := {
      magic := c.durable.magic
      named := c.durable.named
      super := c.durable.super
      map := fun clean => Bool.noConfusion clean
      inode := c.durable.inode }
    table := ⟨c.table.nodup,c.table.live,c.table.referenced,c.table.ops⟩
    owned := owned.congr (claims_congr rfl (fun _ _ => rfl) (fun _ _ => rfl) (fun _ _ _ _ => rfl))
    root := c.root
    typed := c.typed }

theorem take (inside : b < s.nblocks)
    (fresh : s.sfsFreemap.isset b = false) : Consistent strict live (insert b held) (s.mark b) := by
  have unused : b ∉ s.used := fun mem => Bool.noConfusion (fresh.symm.trans mem.2)
  refine c.remap _ rfl (c.geometry.mark b) ?_
  rw [used_mark inside]
  exact c.owned.take unused

theorem release (mem : b ∈ held) :
    Consistent strict live (held \ {b}) (s.unmark b) := by
  refine c.remap _ rfl (c.geometry.unmark (c.owned.holding mem).1) ?_
  rw [used_unmark]
  exact c.owned.drop mem

theorem store (ofFile : ∀ o, s.Claims live o b → o.OfFile)
    (owned : Owned strict ((s.store b d).Claims live) held' s.used) :
    Consistent strict live held' (s.store b d) := by
  have notSuper : 0 ≠ b := fun e => ofFile .super e.symm
  have notMap : ∀ j < sfsBitblocks s.nblocks, 2 + j ≠ b := fun j small e =>
    ofFile (.map j) ⟨small,e.symm⟩
  have notInode : ∀ k, live k → k ≠ b := fun k h e => ofFile (.inode k) ⟨h,e.symm⟩
  exact {
    geometry := c.geometry.store b d
    durable := {
      magic := c.durable.magic
      named := c.durable.named
      super := fun clean => by
        rw [store_sectors,if_neg notSuper]
        exact c.durable.super clean
      map := fun clean j small => by
        rw [store_sectors,if_neg (notMap j small)]
        exact c.durable.map clean j small
      inode := fun k v found clean => by
        rw [store_sectors,if_neg (notInode k (c.table.live k v found))]
        exact c.durable.inode k v found clean }
    table := ⟨c.table.nodup,c.table.live,c.table.referenced,c.table.ops⟩
    owned := owned
    root := c.root
    typed := fun k h => by rw [inode_store (notInode k h)]; exact c.typed k h }

end

theorem apart (isData : ∀ o, s.Claims live o b → o.IsData) (h : live k) (ne : b ≠ 0) :
    k ≠ b ∧ s.indirect k ≠ b :=
  ⟨fun e => isData (.inode k) ⟨h,e.symm⟩,fun e => isData (.indirect k) ⟨h,e.symm,ne⟩⟩

theorem ofFile_of_isData (isData : o.IsData) : o.OfFile := by
  cases o <;> first | exact isData | exact isData.elim

theorem storeData (c : Consistent strict live held s) (isData : ∀ o, s.Claims live o b → o.IsData) :
    Consistent strict live held (s.store b d) := by
  have ne : b ≠ 0 := fun e => isData .super e
  have inodes : ∀ k, live k → (s.store b d).inode k = s.inode k := fun k h =>
    inode_store (apart isData h ne).1
  refine c.store (fun o claim => ofFile_of_isData (isData o claim)) (c.owned.congr ?_)
  refine claims_congr rfl (fun k h => by rw [inodes k h]) (fun k h => ?_) (fun k h j _ => ?_)
  · rw [indirect,indirect,inodes k h]
  · exact slot_congr (inodes k h) (fun _ => by rw [store_sectors,if_neg (apart isData h ne).2]) j

theorem edit (c : Consistent strict live held s) (isLoaded : s.loaded k)
    (type : ∀ i, (f i).sfiType = i.sfiType)
    (owned : Owned strict ((s.edit k f).Claims live) held' s.used) :
    Consistent strict live held' (s.edit k f) := by
  have origin : ∀ j v, (s.edit k f).vnode? j = some v → ∃ w, s.vnode? j = some w ∧
      v.vnRefcount = w.vnRefcount ∧ v.vnOps = w.vnOps ∧ (v.svDirty = false → v = w) := by
    intro j v found
    rw [vnode?_edit] at found
    split at found
    · obtain ⟨w,atJ,rfl⟩ := Option.map_eq_some_iff.mp found
      exact ⟨w,atJ,rfl,rfl,fun clean => Bool.noConfusion clean⟩
    · exact ⟨v,found,rfl,rfl,fun _ => rfl⟩
  exact {
    geometry := c.geometry.update k _
    durable := {
      magic := c.durable.magic
      named := c.durable.named
      super := c.durable.super
      map := c.durable.map
      inode := fun j v found clean => by
        obtain ⟨w,atJ,-,-,same⟩ := origin j v found
        obtain rfl := same clean
        exact c.durable.inode j v atJ clean }
    table := {
      nodup := by
        rw [SfsFs.edit,update_inos s k (fun _ => by rfl)]
        exact c.table.nodup
      live := fun j v found => by
        obtain ⟨w,atJ,-⟩ := origin j v found
        exact c.table.live j w atJ
      referenced := fun j v found => by
        obtain ⟨w,atJ,refs,-⟩ := origin j v found
        rw [refs]
        exact c.table.referenced j w atJ
      ops := fun j v found => by
        obtain ⟨w,atJ,-,ops,-⟩ := origin j v found
        rw [ops]
        exact c.table.ops j w atJ }
    owned := owned
    root := c.root
    typed := fun j h => by
      rw [inode_edit isLoaded]
      split
      · subst j
        rw [type,c.typed k h]
      · exact c.typed j h }

theorem editMeta (c : Consistent strict live held s) (isLoaded : s.loaded k)
    (type : ∀ i, (f i).sfiType = i.sfiType) (direct : ∀ i, (f i).direct = i.direct)
    (indirect : ∀ i, (f i).sfiIndirect = i.sfiIndirect) :
    Consistent strict live held (s.edit k f) := by
  have same : ∀ j, (s.edit k f).indirect j = s.indirect j := by
    intro j
    rw [SfsFs.indirect,inode_edit isLoaded]
    split
    · subst j
      rw [indirect]
      rfl
    · rfl
  refine c.edit isLoaded type (c.owned.congr (claims_congr rfl ?_ (fun j _ => same j) ?_))
  · intro j _
    rw [inode_edit isLoaded]
    split
    · subst j
      rw [direct]
    · rfl
  · intro j _ m _
    unfold slot
    rw [same]
    rfl

end Consistent

/-! Blocks change hands -/

section Pointers
variable {strict : Prop} {live : Nat → Prop} {held : Set Nat} {s : SfsFs} {b k j n : Nat}

theorem frame_tick (s : SfsFs) (n : Nat) : Frame live s (s.tick n) := ⟨rfl,fun _ _ => rfl,rfl⟩

theorem frame_mark (s : SfsFs) (b : Nat) : Frame live s (s.mark b) := ⟨rfl,fun _ _ => rfl,rfl⟩

theorem frame_unmark (s : SfsFs) (b : Nat) : Frame live s (s.unmark b) := ⟨rfl,fun _ _ => rfl,rfl⟩

variable {d : Block}

theorem frame_store (unclaimed : ∀ o, ¬s.Claims live o b) :
    Frame live s (s.store b d) where
  super := rfl
  views j h := by
    have ne : b ≠ 0 := fun e => unclaimed .super e
    obtain ⟨notInode,notIndirect⟩ := Consistent.apart (fun o claim => absurd claim (unclaimed o)) h ne
    have inodeJ : (s.store b d).inode j = s.inode j := inode_store notInode
    refine view_congr (by rw [inodeJ]) (by rw [inodeJ]) (by rw [inodeJ]) fun n => ?_
    rw [data_store notInode notIndirect]
    refine if_neg fun ⟨some_,eq⟩ => unclaimed (dataOwner j n) ?_
    exact (claims_data (block_lt some_)).mpr ⟨h,eq.symm,ne⟩
  handle := rfl

variable {o : Owner}

theorem Consistent.indirect_owner (c : Consistent strict live held s) (h : live k)
    (some_ : s.indirect k ≠ 0) (claim : s.Claims live o (s.indirect k)) :
    o = .indirect k := c.owned.unique claim ⟨h,rfl,some_⟩

theorem Consistent.unclaimed (c : Consistent strict live held s) (mem : b ∈ held) (o : Owner) :
    ¬s.Claims live o b := fun claim => c.owned.apart claim mem

theorem block_setDirect (isLoaded : s.loaded k) (small : n < 15) (fits : b < 2^32) (m : Nat) :
    (s.edit k fun i => i.setDirect n b).block k m = if m = n then b else s.block k m := by
  have inodeK := inode_edit (f := fun i => i.setDirect n b) isLoaded k
  rw [if_pos rfl] at inodeK
  have indirectK : (s.edit k fun i => i.setDirect n b).indirect k = s.indirect k := by
    rw [indirect,inodeK]
    rfl
  unfold block slot
  rw [inodeK,indirectK,SfsInode.direct_setDirect _ small fits]
  by_cases same : m = n
  · rw [if_pos (by omega),if_pos same,if_pos same]
  · rw [if_neg same,if_neg same]
    rfl

theorem claims_setDirect (isLoaded : s.loaded k) (small : n < 15) (fits : b < 2^32) (other : o ≠ .direct k n) (c : Nat) :
    (s.edit k fun i => i.setDirect n b).Claims live o c ↔ s.Claims live o c := by
  have inodeJ := inode_edit (f := fun i => i.setDirect n b) isLoaded
  have indirectJ : ∀ j, (s.edit k fun i => i.setDirect n b).indirect j = s.indirect j := by
    intro j
    rw [indirect,inodeJ]
    split
    · subst j; rfl
    · rfl
  cases o with
  | super => exact Iff.rfl
  | map j => exact Iff.rfl
  | inode j => exact Iff.rfl
  | direct j i =>
    simp only [Claims,inodeJ]
    split
    · subst j
      have : i ≠ n := fun e => other (by rw [e])
      rw [SfsInode.direct_setDirect _ small fits,if_neg this]
    · rfl
  | indirect j => simp only [Claims,indirectJ]
  | slot j m => simp only [Claims,slot,indirectJ]; rfl

theorem Consistent.giveDirect (c : Consistent strict live (insert b held) s) (outside : b ∉ held)
    (h : live k) (isLoaded : s.loaded k) (small : n < 15) (vacant : (s.inode k).direct n = 0)
    (ne : b ≠ 0) : Consistent strict live held (s.edit k fun i => i.setDirect n b) := by
  have fits : b < 2^32 := by
    have := (c.owned.holding (Set.mem_insert b held)).1
    have := c.geometry.small
    omega
  refine c.edit isLoaded (fun _ => rfl) (c.owned.give outside (a := .direct k n) ?_ ?_ ?_)
  · rintro a ⟨-,rfl,some_⟩
    exact some_ vacant
  · intro a
    simp only [Claims,inode_edit isLoaded,if_true,SfsInode.direct_setDirect _ small fits]
    exact ⟨fun claim => claim.2.1,fun e => ⟨h,e,e ▸ ne⟩⟩
  · exact fun o other a => claims_setDirect isLoaded small fits other a

theorem Consistent.takeDirect (c : Consistent strict live ∅ s)
    (h : live k) (isLoaded : s.loaded k) (small : n < 15) (some_ : (s.inode k).direct n ≠ 0) :
    Consistent strict live {(s.inode k).direct n} (s.edit k fun i => i.setDirect n 0) := by
  have owned : Owned strict ((s.edit k fun i => i.setDirect n 0).Claims live) _ s.used :=
    c.owned.seize {.direct k n}
    (by
      rintro _ rfl a
      simp only [Claims,inode_edit isLoaded,if_true,
        SfsInode.direct_setDirect _ small (by decide : 0 < 2^32)]
      exact fun claim => claim.2.2 claim.2.1)
    (fun o other a => claims_setDirect isLoaded small (by decide) other a)
  refine c.edit isLoaded (fun _ => rfl) ?_
  convert owned using 1
  ext a
  simp only [Set.mem_singleton_iff,Set.empty_union,Set.mem_ofPred_eq,exists_eq_left]
  exact ⟨fun e => ⟨h,e,e ▸ some_⟩,fun claim => claim.2.1⟩

section
variable (c : Consistent strict live held s) (h : live k) (some_ : s.indirect k ≠ 0)
include c h some_

theorem inode_storeIndirect (hj : live j) :
    (s.store (s.indirect k) d).inode j = s.inode j := by
  refine inode_store fun e => ?_
  exact nomatch c.indirect_owner h some_ (o := .inode j) ⟨hj,e.symm⟩

theorem indirect_ne (hj : live j) (ne : j ≠ k) : s.indirect j ≠ s.indirect k := by
  intro e
  have same := c.indirect_owner h some_ (o := .indirect j) ⟨hj,e.symm,some_⟩
  exact ne (Owner.indirect.inj same)

theorem block_ne_indirect (hj : live j) (n : Nat) : s.block j n ≠ s.indirect k := by
  intro e
  have small : n < 143 := block_lt (e ▸ some_)
  have same := c.indirect_owner h some_ ((claims_data small).mpr ⟨hj,e.symm,some_⟩)
  have isData := dataOwner_isData j n
  rw [same] at isData
  exact isData

theorem slot_storeIndirect (m : Nat) :
    (s.store (s.indirect k) d).slot k m = (d.word m).toNat := by
  have same : (s.store (s.indirect k) d).indirect k = s.indirect k := by
    rw [indirect,inode_storeIndirect c h some_ h]
    rfl
  unfold slot
  rw [same,if_neg some_,store_sectors,if_pos rfl]

theorem block_storeIndirect_other (hj : live j) (ne : j ≠ k) (n : Nat) :
    (s.store (s.indirect k) d).block j n = s.block j n :=
  block_congr (inode_storeIndirect c h some_ hj)
    (fun _ => by rw [store_sectors,if_neg (indirect_ne c h some_ hj ne)]) n

theorem claims_storeIndirect (other : ∀ m < 128, o = .slot k m →
      (d.word m).toNat = s.slot k m) (a : Nat) :
    (s.store (s.indirect k) d).Claims live o a ↔ s.Claims live o a := by
  have inodeJ : ∀ j, live j → (s.store (s.indirect k) d).inode j = s.inode j := fun j hj =>
    inode_storeIndirect c h some_ hj
  cases o with
  | super => exact Iff.rfl
  | map j => exact Iff.rfl
  | inode j => exact Iff.rfl
  | direct j i => exact and_congr_right fun hj => by rw [inodeJ j hj]
  | indirect j => exact and_congr_right fun hj => by rw [indirect,inodeJ j hj]; rfl
  | slot j m =>
    refine and_congr_right fun hj => and_congr_right fun small => ?_
    by_cases same : j = k
    · subst j
      rw [slot_storeIndirect c h some_,other m small rfl]
    · rw [slot_congr (inodeJ j hj)
        (fun _ => by rw [store_sectors,if_neg (indirect_ne c h some_ hj same)])]

theorem Consistent.storeIndirect {held' : Set Nat}
    (owned : Owned strict ((s.store (s.indirect k) d).Claims live) held' s.used) :
    Consistent strict live held' (s.store (s.indirect k) d) :=
  c.store (fun o claim => by rw [c.indirect_owner h some_ claim]; exact trivial) owned

end

theorem Consistent.giveSlot (c : Consistent strict live (insert b held) s) (outside : b ∉ held)
    (h : live k) (some_ : s.indirect k ≠ 0) (small : j < 128) (vacant : s.slot k j = 0)
    (ne : b ≠ 0) : Consistent strict live held
      (s.store (s.indirect k) ((s.sectors (s.indirect k)).setWord j (UInt32.ofNat b))) := by
  have fits : b < 2^32 := by
    have := (c.owned.holding (Set.mem_insert b held)).1
    have := c.geometry.small
    omega
  have words : ∀ m < 128, (((s.sectors (s.indirect k)).setWord j (UInt32.ofNat b)).word m).toNat =
      if m = j then b else s.slot k m := by
    intro m hm
    rw [Block.word_setWord _ _ _ hm]
    split
    · rw [UInt32.toNat_ofNat',Nat.mod_eq_of_lt fits]
    · rw [slot,if_neg some_]
  refine c.storeIndirect h some_ (c.owned.give outside (a := .slot k j) ?_ ?_ ?_)
  · rintro a ⟨-,-,rfl,nonzero⟩
    exact nonzero vacant
  · intro a
    simp only [Claims,slot_storeIndirect c h some_,words j small,if_true]
    exact ⟨fun claim => claim.2.2.1,fun e => ⟨h,small,e,e ▸ ne⟩⟩
  · intro o other a
    refine claims_storeIndirect c h some_ (fun m hm e => ?_) a
    rw [words m hm,if_neg (fun same => other (by rw [e,same]))]

theorem inode_setIndirect (isLoaded : s.loaded k) (j : Nat) :
    (s.edit k fun i => { i with sfiIndirect := UInt32.ofNat b }).inode j =
      if j = k then { s.inode k with sfiIndirect := UInt32.ofNat b } else s.inode j :=
  inode_edit isLoaded j

theorem claims_setIndirect (isLoaded : s.loaded k) (notPointer : o ≠ .indirect k)
    (notSlot : ∀ m, o ≠ .slot k m) (a : Nat) :
    (s.edit k fun i => { i with sfiIndirect := UInt32.ofNat b }).Claims live o a ↔
      s.Claims live o a := by
  have inodeJ := inode_setIndirect (b := b) isLoaded
  cases o with
  | super => exact Iff.rfl
  | map j => exact Iff.rfl
  | inode j => exact Iff.rfl
  | direct j i =>
    simp only [Claims,inodeJ]
    split
    · subst j; rfl
    · rfl
  | indirect j =>
    have ne : j ≠ k := fun e => notPointer (by rw [e])
    simp only [Claims,indirect,inodeJ,if_neg ne]
  | slot j m =>
    have ne : j ≠ k := fun e => notSlot m (by rw [e])
    simp only [Claims,slot,indirect,inodeJ,if_neg ne]
    rfl

theorem Consistent.giveIndirect (c : Consistent strict live (insert b held) s) (outside : b ∉ held)
    (h : live k) (isLoaded : s.loaded k) (vacant : s.indirect k = 0)
    (zeros : s.sectors b = Block.zero) (ne : b ≠ 0) : Consistent strict live held
      (s.edit k fun i => { i with sfiIndirect := UInt32.ofNat b }) := by
  have fits : b < 2^32 := by
    have := (c.owned.holding (Set.mem_insert b held)).1
    have := c.geometry.small
    omega
  have pointer : (s.edit k fun i => { i with sfiIndirect := UInt32.ofNat b }).indirect k = b := by
    rw [indirect,inode_setIndirect isLoaded,if_pos rfl,UInt32.toNat_ofNat',
      Nat.mod_eq_of_lt fits]
  refine c.edit isLoaded (fun _ => rfl) (c.owned.give outside (a := .indirect k) ?_ ?_ ?_)
  · rintro a ⟨-,rfl,nonzero⟩
    exact nonzero vacant
  · intro a
    simp only [Claims,pointer]
    exact ⟨fun claim => claim.2.1,fun e => ⟨h,e,e ▸ ne⟩⟩
  · intro o other a
    by_cases isSlot : ∃ m, o = .slot k m
    · -- the new indirect block is empty, and there was none before
      obtain ⟨m,rfl⟩ := isSlot
      simp only [Claims,slot,pointer,vacant,if_true,if_neg ne]
      have empty : (s.edit k fun i => { i with sfiIndirect := UInt32.ofNat b }).sectors b =
          Block.zero := zeros
      rw [empty,Block.word_zero]
      rfl
    · exact claims_setIndirect isLoaded other (fun m e => isSlot ⟨m,e⟩) a

theorem block_setIndirect (isLoaded : s.loaded k) (fits : b < 2^32) (vacant : s.indirect k = 0)
    (zeros : s.sectors b = Block.zero) (j n : Nat) :
    (s.edit k fun i => { i with sfiIndirect := UInt32.ofNat b }).block j n = s.block j n := by
  by_cases same : j = k
  · subst j
    unfold block slot indirect
    rw [inode_setIndirect isLoaded,if_pos rfl]
    have word : ((s.edit k fun i => { i with sfiIndirect := UInt32.ofNat b }).sectors b).word
        (n - 15) = 0 := by
      rw [show (s.edit k _).sectors b = Block.zero from zeros,Block.word_zero]
    have none_ : (s.inode k).sfiIndirect.toNat = 0 := vacant
    simp only [UInt32.toNat_ofNat',Nat.mod_eq_of_lt fits,word,none_,if_true]
    simp [SfsInode.direct]
  · exact block_edit_other isLoaded same n

theorem frame_edit {f : SfsInode → SfsInode} (isLoaded : s.loaded k)
    (type : (f (s.inode k)).sfiType = (s.inode k).sfiType)
    (links : (f (s.inode k)).sfiLinkcount = (s.inode k).sfiLinkcount)
    (size : (f (s.inode k)).sfiSize = (s.inode k).sfiSize)
    (data : ∀ n, (s.edit k f).data k n = s.data k n) : Frame live s (s.edit k f) where
  super := rfl
  views j _ := by
    by_cases same : j = k
    · subst j
      have inodeK : (s.edit k f).inode k = f (s.inode k) := by
        rw [inode_edit isLoaded,if_pos rfl]
      exact view_congr (by rw [inodeK,type]) (by rw [inodeK,links]) (by rw [inodeK,size]) data
    · exact view_edit_other isLoaded same
  handle := handle_edit s k f

theorem data_of_zeros {t : SfsFs} (zeros : t.sectors b = Block.zero) (blockT : t.block k n = b)
    (vacant : s.block k n = 0) : t.data k n = s.data k n := by
  unfold data
  rw [blockT,zeros,vacant]
  simp

theorem frame_setDirect (isLoaded : s.loaded k) (small : n < 15) (fits : b < 2^32)
    (vacant : s.block k n = 0) (zeros : s.sectors b = Block.zero) :
    Frame live s (s.edit k fun i => i.setDirect n b) := by
  refine frame_edit isLoaded rfl rfl rfl fun m => ?_
  have blockM := block_setDirect isLoaded small fits m
  by_cases same : m = n
  · subst m
    rw [if_pos rfl] at blockM
    exact data_of_zeros zeros blockM vacant
  · rw [if_neg same] at blockM
    unfold data
    rw [blockM]
    rfl

theorem frame_setIndirect (isLoaded : s.loaded k) (fits : b < 2^32) (vacant : s.indirect k = 0)
    (zeros : s.sectors b = Block.zero) :
    Frame live s (s.edit k fun i => { i with sfiIndirect := UInt32.ofNat b }) := by
  refine frame_edit isLoaded rfl rfl rfl fun n => ?_
  unfold data
  rw [block_setIndirect isLoaded fits vacant zeros]
  rfl

section
variable (c : Consistent strict live held s) (h : live k) (some_ : s.indirect k ≠ 0)
include c h some_

theorem view_storeIndirect_other (hj : live j) (ne : j ≠ k) :
    (s.store (s.indirect k) d).view j = s.view j := by
  have inodeJ := inode_storeIndirect (d := d) c h some_ hj
  refine view_congr (by rw [inodeJ]) (by rw [inodeJ]) (by rw [inodeJ]) fun n => ?_
  unfold data
  rw [block_storeIndirect_other c h some_ hj ne,store_sectors,
    if_neg (block_ne_indirect c h some_ hj n)]

theorem block_setSlot
    (small : j < 128) (fits : b < 2^32) (n : Nat) :
    (s.store (s.indirect k) ((s.sectors (s.indirect k)).setWord j (UInt32.ofNat b))).block k n =
      if n = 15 + j then b else s.block k n := by
  unfold block
  rw [inode_storeIndirect c h some_ h,slot_storeIndirect c h some_]
  by_cases direct : n < 15
  · rw [if_pos direct,if_pos direct,if_neg (by omega)]
  · rw [if_neg direct,if_neg direct]
    by_cases inside : n < 143
    · rw [if_pos inside,if_pos inside,Block.word_setWord _ _ _ (by omega)]
      by_cases same : n = 15 + j
      · rw [if_pos (by omega),if_pos same,UInt32.toNat_ofNat',Nat.mod_eq_of_lt fits]
      · rw [if_neg (by omega),if_neg same,slot,if_neg some_]
    · rw [if_neg inside,if_neg inside,if_neg (by omega)]

theorem frame_setSlot
    (small : j < 128) (fits : b < 2^32) (vacant : s.block k (15 + j) = 0)
    (zeros : s.sectors b = Block.zero) (apart : b ≠ s.indirect k) : Frame live s
      (s.store (s.indirect k) ((s.sectors (s.indirect k)).setWord j (UInt32.ofNat b))) where
  super := rfl
  views i hi := by
    by_cases same : i = k
    · subst i
      have inodeK : (s.store (s.indirect k) ((s.sectors (s.indirect k)).setWord j
          (UInt32.ofNat b))).inode k = s.inode k := inode_storeIndirect c h some_ h
      refine view_congr (by rw [inodeK]) (by rw [inodeK]) (by rw [inodeK]) fun n => ?_
      have blockN := block_setSlot c h some_ small fits n
      by_cases atJ : n = 15 + j
      · subst n
        rw [if_pos rfl] at blockN
        refine data_of_zeros ?_ blockN vacant
        rw [store_sectors,if_neg apart,zeros]
      · rw [if_neg atJ] at blockN
        unfold data
        rw [blockN,store_sectors,if_neg (block_ne_indirect c h some_ h n)]
    · exact view_storeIndirect_other c h some_ hi same
  handle := rfl

end

end Pointers

theorem data_editMeta {s : SfsFs} {k : Nat} {f : SfsInode → SfsInode} (isLoaded : s.loaded k)
    (direct : ∀ i, (f i).direct = i.direct) (indirect : ∀ i, (f i).sfiIndirect = i.sfiIndirect)
    (n : Nat) : (s.edit k f).block k n = s.block k n ∧ (s.edit k f).data k n = s.data k n := by
  have inodeK : (s.edit k f).inode k = f (s.inode k) := by rw [inode_edit isLoaded,if_pos rfl]
  have indirectK : (s.edit k f).indirect k = s.indirect k := by
    rw [SfsFs.indirect,inodeK,indirect]
    rfl
  have blockK : (s.edit k f).block k n = s.block k n := by
    unfold block slot
    rw [inodeK,direct,indirectK]
    rfl
  refine ⟨blockK,?_⟩
  unfold data
  rw [blockK]
  rfl

end Os161.SfsFs
