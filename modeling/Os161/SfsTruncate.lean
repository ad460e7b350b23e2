import Os161.SfsFileIo

/-! `sfs_truncate`: which blocks it discards, and what it leaves behind when the device
gives up in the middle. -/
namespace Os161

open SfsFs

namespace SfsFs

def unmarks (s : SfsFs) : List Nat → SfsFs
  | [] => s
  | b :: bs => (s.unmark b).unmarks bs

section Unmarks
variable {strict : Prop} {live : Nat → Prop} {held : Set Nat} {s : SfsFs} {k b : Nat}

theorem unmarks_append (s : SfsFs) (bs cs : List Nat) :
    s.unmarks (bs ++ cs) = (s.unmarks bs).unmarks cs := by
  induction bs generalizing s with
  | nil => rfl
  | cons b bs ih => exact ih _

theorem unmarks_comm {f : SfsFs → SfsFs} (comm : ∀ s b, f (s.unmark b) = (f s).unmark b) (s : SfsFs)
    (bs : List Nat) : f (s.unmarks bs) = (f s).unmarks bs := by
  induction bs generalizing s with
  | nil => rfl
  | cons b bs ih => exact (ih _).trans (congrArg (SfsFs.unmarks · bs) (comm s b))

theorem unmarks_edit (s : SfsFs) (bs : List Nat) (k : Nat) (f : SfsInode → SfsInode) :
    (s.unmarks bs).edit k f = (s.edit k f).unmarks bs := unmarks_comm (f := (edit · k f)) (fun _ _ => rfl) s bs

theorem unmarks_tick (s : SfsFs) (bs : List Nat) (n : Nat) :
    (s.unmarks bs).tick n = (s.tick n).unmarks bs := unmarks_comm (f := (tick · n)) (fun _ _ => rfl) s bs

theorem unmarks_store (s : SfsFs) (bs : List Nat) (a : Nat) (d : Block) :
    (s.unmarks bs).store a d = (s.store a d).unmarks bs := unmarks_comm (f := (store · a d)) (fun _ _ => rfl) s bs

theorem used_unmarks (s : SfsFs) (bs : List Nat) : (s.unmarks bs).used = s.used \ {b | b ∈ bs} := by
  induction bs generalizing s with
  | nil => simp [unmarks]
  | cons b bs ih =>
    rw [unmarks,ih,used_unmark]
    ext a
    simp only [Set.mem_sdiff,Set.mem_singleton_iff,Set.mem_ofPred_eq,List.mem_cons]
    tauto

theorem Geometry.unmarks (g : s.Geometry strict) (bs : List Nat) (inside : ∀ b ∈ bs, b < s.nblocks) :
    (s.unmarks bs).Geometry strict := by
  induction bs generalizing s with
  | nil => exact g
  | cons b bs ih =>
    exact ih (g.unmark (inside b List.mem_cons_self)) fun c mem =>
      inside c (List.mem_cons_of_mem b mem)

theorem frame_unmarks (s : SfsFs) (bs : List Nat) : Frame live s (s.unmarks bs) := by
  induction bs generalizing s with
  | nil => exact .refl _ _
  | cons b bs ih => exact (frame_unmark s b).trans (ih _)

theorem unmarks_reading (s : SfsFs) (bs : List Nat) : (s.unmarks bs).sectors = s.sectors ∧
    (s.unmarks bs).inode = s.inode ∧ (s.unmarks bs).block = s.block ∧
    (s.unmarks bs).sfsVnodes = s.sfsVnodes ∧ (s.unmarks bs).disk = s.disk := by
  induction bs generalizing s with
  | nil => exact ⟨rfl,rfl,rfl,rfl,rfl⟩
  | cons b bs ih => exact ih _

theorem Consistent.releases (c : Consistent strict live held s) (bs : List Nat) (nodup : bs.Nodup)
    (mem : ∀ b ∈ bs, b ∈ held) : Consistent strict live (held \ {b | b ∈ bs}) (s.unmarks bs) := by
  induction bs generalizing s held with
  | nil => simpa [unmarks] using c
  | cons b bs ih =>
    have nodup' := List.nodup_cons.mp nodup
    have rest := ih (c.release (mem b List.mem_cons_self)) nodup'.2 fun a inside =>
      ⟨mem a (List.mem_cons_of_mem b inside),fun e => nodup'.1 (e ▸ inside)⟩
    have same : (held \ {b}) \ {a | a ∈ bs} = held \ {a | a ∈ b :: bs} := by
      ext a
      simp only [Set.mem_sdiff,Set.mem_singleton_iff,Set.mem_ofPred_eq,List.mem_cons]
      tauto
    rwa [same] at rest

end Unmarks

end SfsFs

/-! The direct blocks -/

def SfsInode.cutDirect (i : SfsInode) (start stop : Nat) : SfsInode :=
  { i with sfiDirect := fun j => if start ≤ j.val ∧ j.val < stop then 0 else i.sfiDirect j }

theorem SfsInode.direct_cutDirect (i : SfsInode) (start stop j : Nat) :
    (i.cutDirect start stop).direct j = if start ≤ j ∧ j < stop then 0 else i.direct j := by
  simp only [direct,cutDirect]
  split
  · split <;> simp_all
  · simp

theorem SfsInode.cutDirect_zero (i : SfsInode) (start : Nat) : i.cutDirect start 0 = i := by
  simp [cutDirect]

theorem SfsInode.cutDirect_succ (i : SfsInode) (start stop : Nat) : i.cutDirect start (stop + 1) =
    if start ≤ stop then (i.cutDirect start stop).setDirect stop 0 else i.cutDirect start stop := by
  by_cases beyond : start ≤ stop
  · rw [if_pos beyond]
    simp only [cutDirect,setDirect]
    congr 1
    funext j
    by_cases last : j.val = stop
    · simp [last,beyond]
    · have : j.val < stop + 1 ↔ j.val < stop := by omega
      simp [last,this]
  · rw [if_neg beyond]
    simp only [cutDirect]
    congr 1
    funext j
    have : (start ≤ j.val ∧ j.val < stop + 1) ↔ (start ≤ j.val ∧ j.val < stop) := by omega
    simp only [this]

theorem SfsInode.setDirect_vacant (i : SfsInode) {n : Nat} (small : n < 15) (vacant : i.direct n = 0) :
    i.setDirect n 0 = i := by
  have zero : i.sfiDirect ⟨n,small⟩ = 0 := by
    rw [direct,dif_pos small] at vacant
    exact UInt32.toNat_inj.mp vacant
  cases i
  simp only [setDirect,SfsInode.mk.injEq,true_and,and_true]
  funext j
  by_cases same : j.val = n
  · obtain rfl : j = ⟨n,small⟩ := Fin.ext same
    exact (if_pos rfl).trans zero.symm
  · exact if_neg same

section Truncate
variable {strict : Prop} {live : Nat → Prop} {s : SfsFs} {k blocklen : Nat}

structure Reinoded (strict : Prop) (live : Nat → Prop) (k : Nat) (i : SfsInode) (s t : SfsFs) :
    Prop where
  consistent : Consistent strict live ∅ t
  frame : Frame (Others live k) s t
  disk : t.disk = s.disk
  inode : t.inode k = i

variable {i : Nat}

def freedDirect (s : SfsFs) (k blocklen i : Nat) : Set Nat :=
  {b | ∃ n < i, blocklen ≤ n ∧ (s.inode k).direct n ≠ 0 ∧ (s.inode k).direct n = b}

theorem truncateDirect_spec (c : Consistent strict live ∅ s) (h : live k) (isLoaded : s.loaded k) (small : i < 15) :
    (truncateDirect k blocklen i).wp s
      (fun _ t => Reinoded strict live k
          (if blocklen ≤ i then (s.inode k).setDirect i 0 else s.inode k) s t ∧
        t.used = s.used \
          {b | blocklen ≤ i ∧ (s.inode k).direct i ≠ 0 ∧ (s.inode k).direct i = b}) never never := by
  obtain ⟨v,found⟩ := loaded_iff.mp isLoaded
  simp only [truncateDirect,wp_bind,Sfs.wp_vnode found,← inode_of_loaded found]
  rw [wp_ite]
  refine ⟨fun both => ?_,fun stays => ?_⟩
  · obtain ⟨beyond,some_⟩ := both
    have used : (s.inode k).direct i ∈ s.used :=
      c.owned.claimed (a := .direct k i) ⟨h,rfl,some_⟩
    rw [wp_bind]
    apply wp_imp (sfsBfree_spec c.geometry used)
    rintro _ _ rfl
    simp only [Sfs.wp_updateInode]
    -- the source frees the block before it clears the slot; the order does not matter
    have taken := (c.takeDirect h isLoaded small some_).release (Set.mem_singleton _)
    rw [Set.sdiff_self] at taken
    have order : (s.unmark ((s.inode k).direct i)).edit k (fun j => j.setDirect i 0) =
      (s.edit k fun j => j.setDirect i 0).unmark ((s.inode k).direct i) := rfl
    have inodeK := inode_edit (f := fun j => j.setDirect i 0) isLoaded k
    rw [if_pos rfl] at inodeK
    rw [order,if_pos beyond]
    refine ⟨⟨taken,(frame_editMeta isLoaded).trans (frame_unmark _ _),rfl,inodeK⟩,?_⟩
    change (s.unmark ((s.inode k).direct i)).used = _
    rw [used_unmark]
    ext b
    simp only [Set.mem_sdiff,Set.mem_ofPred_eq,Set.mem_singleton_iff]
    exact and_congr_right fun _ => not_congr ⟨fun same => ⟨beyond,some_,same.symm⟩,fun all => all.2.2.symm⟩
  · rw [wp_pure]
    refine ⟨⟨c,.refl _ _,rfl,?_⟩,?_⟩
    · split
      · have vacant : (s.inode k).direct i = 0 := by
          by_contra some_
          exact stays ⟨by assumption,some_⟩
        rw [SfsInode.setDirect_vacant _ small vacant]
      · rfl
    · refine (sdiff_eq_left.mpr ?_).symm
      exact Set.disjoint_right.mpr fun b freed _ => stays ⟨freed.1,freed.2.1⟩

theorem truncateDirect_loop (c : Consistent strict live ∅ s) (h : live k) (isLoaded : s.loaded k) :
    (loop (fun i _ => truncateDirect k blocklen i) 15 0 ()).wp s
      (fun _ t => Reinoded strict live k ((s.inode k).cutDirect blocklen 15) s t ∧
        t.used = s.used \ freedDirect s k blocklen 15) never never := by
  refine wp_loop (fun i _ t => Reinoded strict live k ((s.inode k).cutDirect blocklen i) s t ∧
    t.used = s.used \ freedDirect s k blocklen i)
    15 0 () ⟨⟨c,.refl _ _,rfl,((s.inode k).cutDirect_zero _).symm⟩,?_⟩ ?_
  · simp [freedDirect]
  rintro i _ t _ small ⟨reached,freed⟩
  apply wp_imp (truncateDirect_spec reached.consistent h
    (reached.frame.loaded.mpr isLoaded) (by omega : i < 15))
  rintro _ u ⟨next,taken⟩
  refine ⟨⟨next.consistent,reached.frame.trans next.frame,next.disk.trans reached.disk,?_⟩,?_⟩
  · rw [next.inode,reached.inode,SfsInode.cutDirect_succ]
  · -- the loop has not come to slot i yet, so it still holds the old block
    have same : ((s.inode k).cutDirect blocklen i).direct i = (s.inode k).direct i := by
      rw [SfsInode.direct_cutDirect,if_neg (by omega)]
    rw [taken,freed,reached.inode,same]
    ext b
    simp only [freedDirect,Set.mem_sdiff,Set.mem_ofPred_eq,Nat.exists_lt_succ_right,not_or,and_assoc]

/-! The indirect block -/

def freedSlots (s : SfsFs) (k blocklen i : Nat) : List Nat :=
  ((List.range i).filter fun j => blocklen < 15 + j ∧ s.slot k j ≠ 0).map (s.slot k)

theorem mem_freedSlots {b : Nat} : b ∈ freedSlots s k blocklen i ↔
    ∃ j < i, blocklen < 15 + j ∧ s.slot k j ≠ 0 ∧ s.slot k j = b := by
  simp only [freedSlots,List.mem_map,List.mem_filter,List.mem_range,decide_eq_true_eq]
  constructor
  · rintro ⟨j,⟨lt,beyond,some_⟩,same⟩
    exact ⟨j,lt,beyond,some_,same⟩
  · rintro ⟨j,lt,beyond,some_,same⟩
    exact ⟨j,⟨lt,beyond,some_⟩,same⟩

theorem freedSlots_succ (i : Nat) : freedSlots s k blocklen (i + 1) = freedSlots s k blocklen i ++
    if blocklen < 15 + i ∧ s.slot k i ≠ 0 then [s.slot k i] else [] := by
  simp only [freedSlots,List.range_succ,List.filter_append,List.map_append]
  congr 1
  by_cases freed : blocklen < 15 + i ∧ s.slot k i ≠ 0
  · rw [if_pos freed]
    simp [freed]
  · rw [if_neg freed]
    simp only [List.map_eq_nil_iff,List.filter_eq_nil_iff,List.mem_singleton,decide_eq_true_eq]
    rintro _ rfl
    exact freed

variable {held : Set Nat}

theorem slot_inj (c : Consistent strict live held s) (h : live k) {j : Nat}
    (smallI : i < 128) (smallJ : j < 128) (some_ : s.slot k i ≠ 0) (same : s.slot k i = s.slot k j) :
    i = j := by
  have first : s.Claims live (.slot k i) (s.slot k i) := ⟨h,smallI,rfl,some_⟩
  have second : s.Claims live (.slot k j) (s.slot k i) := ⟨h,smallJ,same,some_⟩
  exact (Owner.slot.inj (c.owned.unique first second)).2

theorem freedSlots_nodup (c : Consistent strict live held s) (h : live k)
    (le : i ≤ 128) : (freedSlots s k blocklen i).Nodup := by
  refine List.Nodup.map_on ?_ (List.nodup_range.filter _)
  intro x memX y memY same
  simp only [List.mem_filter,List.mem_range,decide_eq_true_eq] at memX memY
  exact slot_inj c h (by omega) (by omega) memX.2.2 same

theorem freedSlots_used (c : Consistent strict live held s) (h : live k) {b : Nat}
    (le : i ≤ 128) (mem : b ∈ freedSlots s k blocklen i) : b ∈ s.used := by
  obtain ⟨j,lt,-,some_,rfl⟩ := mem_freedSlots.mp mem
  exact c.owned.claimed (a := .slot k j) ⟨h,by omega,rfl,some_⟩

structure SlotsCut (s : SfsFs) (k blocklen i : Nat) (l : TruncateLocals) (t : SfsFs) : Prop where
  state : t = s.unmarks (freedSlots s k blocklen i)
  words : ∀ j < 128, (l.idbuf.word j).toNat =
    if j < i ∧ blocklen < 15 + j then 0 else s.slot k j
  nonzero : l.hasnonzero = true ↔ ∃ j < i, 15 + j ≤ blocklen ∧ s.slot k j ≠ 0
  dirty : l.iddirty = true ↔ ∃ j < i, blocklen < 15 + j ∧ s.slot k j ≠ 0

variable {l : TruncateLocals} {t : SfsFs}

theorem SlotsCut.skip {l' : TruncateLocals}
    (cut : SlotsCut s k blocklen i l t) (stays : ¬(blocklen < 15 + i ∧ s.slot k i ≠ 0))
    (idbuf : l'.idbuf = l.idbuf) (iddirty : l'.iddirty = l.iddirty)
    (hasnonzero : l'.hasnonzero = true ↔ l.hasnonzero = true ∨ s.slot k i ≠ 0) :
    SlotsCut s k blocklen (i + 1) l' t where
  state := by rw [cut.state,freedSlots_succ,if_neg stays,List.append_nil]
  words j hj := by
    rw [idbuf,cut.words j hj]
    by_cases same : j = i
    · subst j
      rw [if_neg (by omega)]
      split
      · by_contra some_
        exact stays ⟨by omega,some_⟩
      · rfl
    · have : j < i + 1 ↔ j < i := by omega
      simp only [this]
  nonzero := by
    rw [hasnonzero,Nat.exists_lt_succ_right,cut.nonzero]
    refine or_congr_right ⟨fun some_ => ⟨?_,some_⟩,fun both => both.2⟩
    by_contra exceeds
    exact stays ⟨by omega,some_⟩
  dirty := by
    rw [iddirty,Nat.exists_lt_succ_right,cut.dirty]
    exact (or_iff_left stays).symm

theorem SlotsCut.clear
    (cut : SlotsCut s k blocklen i l t) (freed : blocklen < 15 + i ∧ s.slot k i ≠ 0) :
    SlotsCut s k blocklen (i + 1) { l with idbuf := l.idbuf.setWord i 0, iddirty := true }
      (t.unmark (s.slot k i)) where
  state := by
    rw [cut.state,freedSlots_succ,if_pos freed,unmarks_append]
    rfl
  words j hj := by
    rw [Block.word_setWord _ _ _ hj]
    by_cases same : j = i
    · subst j
      rw [if_pos rfl,if_pos ⟨by omega,freed.1⟩]
      rfl
    · have : j < i + 1 ↔ j < i := by omega
      rw [if_neg same,cut.words j hj]
      simp only [this]
  nonzero := by
    rw [Nat.exists_lt_succ_right,cut.nonzero]
    exact (or_iff_left (by omega)).symm
  dirty := by
    rw [Nat.exists_lt_succ_right]
    exact ⟨fun _ => Or.inr freed,fun _ => rfl⟩

section
variable (c : Consistent strict live ∅ s) (h : live k)
include c h

theorem truncateSlot_spec (small : i < 128) (cut : SlotsCut s k blocklen i l t) :
    (truncateSlot blocklen i l).wp t (fun l' t' => SlotsCut s k blocklen (i + 1) l' t')
      never never := by
  have word : (l.idbuf.word i).toNat = s.slot k i := by
    rw [cut.words i small,if_neg (by omega)]
  simp only [truncateSlot,word]
  rw [wp_ite]
  refine ⟨fun freed => ?_,fun stays => ?_⟩
  · have inside : ∀ b ∈ freedSlots s k blocklen i, b < s.nblocks := fun b mem =>
      (freedSlots_used c h (by omega) mem).1
    have geometry : t.Geometry strict := by
      rw [cut.state]
      exact c.geometry.unmarks _ inside
    have used : s.slot k i ∈ t.used := by
      rw [cut.state,used_unmarks]
      refine ⟨c.owned.claimed (a := .slot k i) ⟨h,small,rfl,freed.2⟩,fun mem => ?_⟩
      obtain ⟨j,lt,-,some_,same⟩ := mem_freedSlots.mp mem
      have := slot_inj c h (by omega) small some_ same
      omega
    rw [wp_bind]
    apply wp_imp (sfsBfree_spec geometry used)
    rintro _ _ rfl
    exact cut.clear freed
  rw [wp_ite]
  refine ⟨fun some_ => ?_,fun zero => ?_⟩
  · exact cut.skip stays rfl rfl ⟨fun _ => Or.inr some_,fun _ => rfl⟩
  · exact cut.skip stays rfl rfl (or_iff_left zero).symm

theorem truncateSlot_loop (present : s.indirect k ≠ 0) :
    (loop (truncateSlot blocklen) 128 0 ⟨s.sectors (s.indirect k),false,false⟩).wp s
      (fun l t => SlotsCut s k blocklen 128 l t) never never := by
  refine wp_loop (fun i l t => SlotsCut s k blocklen i l t) 128 0 _ ⟨rfl,?_,?_,?_⟩ ?_
  · intro j _
    rw [if_neg (by omega),slot,if_neg present]
  · simp
  · simp
  · intro i l t _ small cut
    exact truncateSlot_spec c h (by omega) cut

theorem cutSlots (present : s.indirect k ≠ 0)
    {d : Block} (words : ∀ j < 128, (d.word j).toNat = if blocklen < 15 + j then 0 else s.slot k j) :
    Consistent strict live ∅
      ((s.store (s.indirect k) d).unmarks (freedSlots s k blocklen 128)) := by
  have owned : Owned strict ((s.store (s.indirect k) d).Claims live) _ s.used :=
    c.owned.seize {o | ∃ j < 128, o = .slot k j ∧ blocklen < 15 + j}
    (by
      rintro _ ⟨j,small,rfl,beyond⟩ b ⟨-,-,rfl,some_⟩
      rw [slot_storeIndirect c h present,words j small,if_pos beyond] at some_
      exact some_ rfl)
    (fun o other b => claims_storeIndirect c h present (fun m small e => by
      rw [words m small,if_neg (fun beyond => other ⟨m,small,e,beyond⟩)]) b)
  have held : (∅ ∪ {b | ∃ o ∈ {o | ∃ j < 128, o = Owner.slot k j ∧ blocklen < 15 + j},
      s.Claims live o b} : Set Nat) = {b | b ∈ freedSlots s k blocklen 128} := by
    ext b
    simp only [Set.empty_union,Set.mem_ofPred_eq,mem_freedSlots]
    constructor
    · rintro ⟨_,⟨j,small,rfl,beyond⟩,-,-,rfl,some_⟩
      exact ⟨j,small,beyond,some_,rfl⟩
    · rintro ⟨j,small,beyond,some_,rfl⟩
      exact ⟨_,⟨j,small,rfl,beyond⟩,h,small,rfl,some_⟩
  rw [held] at owned
  have released := (c.storeIndirect h present owned).releases (freedSlots s k blocklen 128)
    (freedSlots_nodup c h (Nat.le_refl _)) (fun _ mem => mem)
  rwa [Set.sdiff_self] at released

theorem cutIndirect (isLoaded : s.loaded k)
    (present : s.indirect k ≠ 0) (empty : ∀ j < 128, 15 + j ≤ blocklen → s.slot k j = 0) :
    Consistent strict live ∅ ((s.edit k fun i => { i with sfiIndirect := 0 }).unmarks
      (freedSlots s k blocklen 128 ++ [s.indirect k])) := by
  have gone : (s.edit k fun i => { i with sfiIndirect := UInt32.ofNat 0 }).indirect k = 0 := by
    rw [SfsFs.indirect,inode_setIndirect isLoaded,if_pos rfl]
    rfl
  have owned : Owned strict
      ((s.edit k fun i => { i with sfiIndirect := UInt32.ofNat 0 }).Claims live) _ s.used :=
    c.owned.seize {o | o = .indirect k ∨ ∃ j, o = .slot k j}
    (by
      rintro _ (rfl | ⟨j,rfl⟩) b
      · rintro ⟨-,rfl,some_⟩
        exact some_ gone
      · rintro ⟨-,-,rfl,some_⟩
        exact some_ (by rw [slot,if_pos gone]))
    (fun o other b => claims_setIndirect isLoaded (fun e => other (Or.inl e))
      (fun m e => other (Or.inr ⟨m,e⟩)) b)
  have held : (∅ ∪ {b | ∃ o ∈ {o | o = Owner.indirect k ∨ ∃ j, o = .slot k j},
      s.Claims live o b} : Set Nat) =
      {b | b ∈ freedSlots s k blocklen 128 ++ [s.indirect k]} := by
    ext b
    simp only [Set.empty_union,Set.mem_ofPred_eq,List.mem_append,List.mem_singleton,
      mem_freedSlots]
    constructor
    · rintro ⟨_,(rfl | ⟨j,rfl⟩),claim⟩
      · exact Or.inr claim.2.1
      · obtain ⟨-,small,rfl,some_⟩ := claim
        exact Or.inl ⟨j,small,by by_contra kept; exact some_ (empty j small (by omega)),some_,rfl⟩
    · rintro (⟨j,small,-,some_,rfl⟩ | rfl)
      · exact ⟨_,Or.inr ⟨j,rfl⟩,h,small,rfl,some_⟩
      · exact ⟨_,Or.inl rfl,h,rfl,present⟩
  have apart : s.indirect k ∉ freedSlots s k blocklen 128 := by
    intro mem
    obtain ⟨j,small,-,some_,same⟩ := mem_freedSlots.mp mem
    have claim : s.Claims live (.slot k j) (s.indirect k) := ⟨h,small,same.symm,present⟩
    cases c.indirect_owner h present claim
  rw [held] at owned
  have nodup : (freedSlots s k blocklen 128 ++ [s.indirect k]).Nodup :=
    List.nodup_append.mpr ⟨freedSlots_nodup c h (Nat.le_refl _),List.nodup_singleton _,
      fun a memA b memB e => apart (by rwa [e,List.mem_singleton.mp memB] at memA)⟩
  have edited : Consistent strict live {b | b ∈ freedSlots s k blocklen 128 ++ [s.indirect k]}
      (s.edit k fun i => { i with sfiIndirect := 0 }) := c.edit isLoaded (fun _ => rfl) owned
  have released := edited.releases _ nodup (fun _ mem => mem)
  rwa [Set.sdiff_self] at released

end

structure Cut (strict : Prop) (live : Nat → Prop) (k : Nat) (keep : Nat → Bool) (s t : SfsFs) :
    Prop where
  consistent : Consistent strict live ∅ t
  frame : Frame (Others live k) s t
  blocks : ∀ n, t.block k n = if keep n then s.block k n else 0
  view : t.view k = { s.view k with
    content := fun o => if keep (o / 512) then (s.view k).content o else 0 }

variable {keep : Nat → Bool}

theorem view_cut
    (type : (t.inode k).sfiType = (s.inode k).sfiType)
    (links : (t.inode k).sfiLinkcount = (s.inode k).sfiLinkcount)
    (size : (t.inode k).sfiSize = (s.inode k).sfiSize)
    (blocks : ∀ n, t.block k n = if keep n then s.block k n else 0)
    (sectors : ∀ n, s.block k n ≠ 0 → t.sectors (s.block k n) = s.sectors (s.block k n)) :
    t.view k = { s.view k with
      content := fun o => if keep (o / 512) then (s.view k).content o else 0 } := by
  have dataT : ∀ n, t.data k n = if keep n then s.data k n else Block.zero := by
    intro n
    unfold data
    rw [blocks]
    cases keep n
    · simp
    · simp only [if_true]
      split
      · rfl
      · exact sectors n (by assumption)
  simp only [view,type,links,size,dataT]
  congr 1
  funext o
  cases keep (o / 512) <;> simp

theorem Cut.trans {u : SfsFs} {keep' : Nat → Bool} (first : Cut strict live k keep s t)
    (second : Cut strict live k keep' t u) :
    Cut strict live k (fun n => keep n && keep' n) s u where
  consistent := second.consistent
  frame := first.frame.trans second.frame
  blocks n := by
    rw [second.blocks,first.blocks]
    cases keep n <;> cases keep' n <;> rfl
  view := by
    rw [second.view,first.view]
    refine FileView.ext rfl rfl rfl (funext fun o => ?_)
    simp only
    cases keep (o / 512) <;> cases keep' (o / 512) <;> rfl

theorem Cut.refl (c : Consistent strict live ∅ s) : Cut strict live k (fun _ => true) s s :=
  ⟨c,.refl _ s,fun _ => rfl,rfl⟩

theorem Cut.tick (c : Consistent strict live ∅ s) (n : Nat) :
    Cut strict live k (fun _ => true) s (s.tick n) :=
  ⟨c.tick n,frame_tick s n,fun _ => rfl,rfl⟩

theorem Cut.of_tick {n : Nat} (cut : Cut strict live k keep (s.tick n) t) : Cut strict live k keep s t :=
  ⟨cut.consistent,(frame_tick s n).trans cut.frame,cut.blocks,cut.view⟩

theorem Cut.congr {keep' : Nat → Bool} (cut : Cut strict live k keep s t)
    (same : ∀ n, s.block k n ≠ 0 → keep n = keep' n) : Cut strict live k keep' s t := by
  refine ⟨cut.consistent,cut.frame,fun n => ?_,cut.view.trans ?_⟩
  · rw [cut.blocks]
    by_cases zero : s.block k n = 0
    · simp [zero]
    · rw [same n zero]
  · refine FileView.ext rfl rfl rfl (funext fun o => ?_)
    simp only
    by_cases zero : s.block k (o / 512) = 0
    · have none_ : (s.view k).content o = 0 := by simp [SfsFs.view,data,zero]
      simp [none_]
    · rw [same _ zero]

def keepIndirect (blocklen n : Nat) : Bool := n < 15 || n ≤ blocklen

theorem cutIndirect_cut (c : Consistent strict live ∅ s) (h : live k) (isLoaded : s.loaded k)
    (present : s.indirect k ≠ 0) (empty : ∀ j < 128, 15 + j ≤ blocklen → s.slot k j = 0) :
    Cut strict live k (keepIndirect blocklen) s ((s.edit k fun i => { i with sfiIndirect := 0 }).unmarks
      (freedSlots s k blocklen 128 ++ [s.indirect k])) := by
  have inodeK := inode_setIndirect (b := 0) isLoaded k
  rw [if_pos rfl] at inodeK
  have typeK := congrArg SfsInode.sfiType inodeK
  have linksK := congrArg SfsInode.sfiLinkcount inodeK
  have sizeK := congrArg SfsInode.sfiSize inodeK
  obtain ⟨sectors,inodes,blocks,-,-⟩ := unmarks_reading (s.edit k fun i => { i with sfiIndirect := 0 })
    (freedSlots s k blocklen 128 ++ [s.indirect k])
  have blockN : ∀ n, (s.edit k fun i => { i with sfiIndirect := 0 }).block k n =
      if keepIndirect blocklen n then s.block k n else 0 := by
    intro n
    have gone : (s.edit k fun i => { i with sfiIndirect := 0 }).indirect k = 0 :=
      congrArg (fun i => i.sfiIndirect.toNat) inodeK
    unfold block
    rw [show (s.edit k fun i => { i with sfiIndirect := 0 }).inode k = _ from inodeK]
    by_cases direct : n < 15
    · simp only [keepIndirect,direct,decide_true,Bool.true_or,if_true]
      rfl
    · rw [if_neg direct,if_neg direct,slot,if_pos gone]
      by_cases inside : n < 143
      · by_cases kept : n ≤ blocklen
        · simp [inside,empty (n - 15) (by omega) (by omega)]
        · simp [keepIndirect,direct,kept]
      · simp [inside]
  refine ⟨cutIndirect c h isLoaded present empty,
    (frame_editMeta isLoaded).trans (frame_unmarks _ _),fun n => ?_,view_cut ?_ ?_ ?_ (fun n => ?_) ?_⟩
  · rw [blocks]; exact blockN n
  · rw [inodes]; exact typeK
  · rw [inodes]; exact linksK
  · rw [inodes]; exact sizeK
  · rw [blocks]; exact blockN n
  · intro n _
    rw [sectors]
    rfl

theorem cutSlots_cut (c : Consistent strict live ∅ s) (h : live k) (present : s.indirect k ≠ 0)
    {d : Block} (words : ∀ j < 128, (d.word j).toNat = if blocklen < 15 + j then 0 else s.slot k j) :
    Cut strict live k (keepIndirect blocklen) s
      ((s.store (s.indirect k) d).unmarks (freedSlots s k blocklen 128)) := by
  have inodeK := inode_storeIndirect (d := d) c h present h
  obtain ⟨sectors,inodes,blocks,-,-⟩ := unmarks_reading (s.store (s.indirect k) d)
    (freedSlots s k blocklen 128)
  have blockN : ∀ n, (s.store (s.indirect k) d).block k n =
      if keepIndirect blocklen n then s.block k n else 0 := by
    intro n
    unfold block
    rw [inodeK,slot_storeIndirect c h present]
    by_cases direct : n < 15
    · simp [keepIndirect,direct]
    · by_cases inside : n < 143
      · rw [if_neg direct,if_neg direct,if_pos inside,if_pos inside,words _ (by omega)]
        by_cases kept : n ≤ blocklen
        · rw [if_neg (by omega)]
          simp [keepIndirect,kept]
        · rw [if_pos (by omega)]
          simp [keepIndirect,direct,kept]
      · simp [direct,inside]
  have frame : Frame (Others live k) s (s.store (s.indirect k) d) :=
    ⟨rfl,fun j hj => view_storeIndirect_other c h present hj.1 hj.2,rfl⟩
  refine ⟨cutSlots c h present words,frame.trans (frame_unmarks _ _),fun n => ?_,
    view_cut (by rw [inodes,inodeK]) (by rw [inodes,inodeK]) (by rw [inodes,inodeK])
      (fun n => ?_) ?_⟩
  · rw [blocks]; exact blockN n
  · rw [blocks]; exact blockN n
  · intro n _
    rw [sectors,store_sectors,if_neg (block_ne_indirect c h present h n)]

/-- The case in which `sfs_truncate` is torn: it frees some blocks of the indirect block
and keeps others, and the device reads the indirect block but does not write it back. -/
def Torn (s : SfsFs) (k blocklen : Nat) : Prop :=
  (∃ j < 128, blocklen < 15 + j ∧ s.slot k j ≠ 0) ∧
  (∃ j < 128, 15 + j ≤ blocklen ∧ s.slot k j ≠ 0) ∧
  ∃ m ≤ 10, s.disk.GoodAfter m ∧ ∀ i ≤ 10, s.disk.media (m + 1 + i) = false

/-! What follows the loop over the indirect block, in its three cases -/

section
variable (cut : SlotsCut s k blocklen 128 l t) (c : Consistent strict live ∅ s)
include cut c

theorem SlotsCut.geometry (h : live k) : t.Geometry strict := by
  rw [cut.state]
  exact c.geometry.unmarks _ fun b mem => (freedSlots_used c h (Nat.le_refl _) mem).1

theorem SlotsCut.indirect_lt (h : live k) (present : s.indirect k ≠ 0) :
    s.indirect k < t.nblocks := by
  have := c.inside (o := .indirect k) ⟨h,rfl,present⟩
  rwa [cut.state,nblocks,(frame_unmarks _ _ : Frame live s _).super]

theorem SlotsCut.indirect_used (h : live k) (present : s.indirect k ≠ 0) :
    s.indirect k ∈ t.used := by
  rw [cut.state,used_unmarks]
  refine ⟨c.owned.claimed (a := .indirect k) ⟨h,rfl,present⟩,fun mem => ?_⟩
  obtain ⟨j,small,-,some_,same⟩ := mem_freedSlots.mp mem
  have claim : s.Claims live (.slot k j) (s.indirect k) := ⟨h,small,same.symm,present⟩
  exact nomatch c.indirect_owner h present claim

theorem SlotsCut.freed (h : live k) (isLoaded : s.loaded k)
    (present : s.indirect k ≠ 0) (noneLeft : l.hasnonzero = false) :
    Cut strict live k (keepIndirect blocklen) s
        ((t.unmark (s.indirect k)).edit k fun i => { i with sfiIndirect := 0 }) ∧
      ((t.unmark (s.indirect k)).edit k fun i => { i with sfiIndirect := 0 }).indirect k = 0 := by
  have empty : ∀ j < 128, 15 + j ≤ blocklen → s.slot k j = 0 := by
    intro j small kept
    by_contra some_
    have := cut.nonzero.mpr ⟨j,small,kept,some_⟩
    rw [noneLeft] at this
    cases this
  have order : (t.unmark (s.indirect k)).edit k (fun i => { i with sfiIndirect := 0 }) =
      (s.edit k fun i => { i with sfiIndirect := 0 }).unmarks
        (freedSlots s k blocklen 128 ++ [s.indirect k]) := by
    rw [cut.state,← unmarks_edit,unmarks_append]
    rfl
  rw [order]
  refine ⟨cutIndirect_cut c h isLoaded present empty,?_⟩
  have inodeK := inode_setIndirect (b := 0) isLoaded k
  rw [if_pos rfl] at inodeK
  rw [SfsFs.indirect,(unmarks_reading _ _).2.1]
  exact congrArg (fun i => i.sfiIndirect.toNat) inodeK

theorem SlotsCut.written (h : live k) (present : s.indirect k ≠ 0) (n : Nat) :
    Cut strict live k (keepIndirect blocklen) s ((t.tick n).store (s.indirect k) l.idbuf) := by
  have order : (t.tick n).store (s.indirect k) l.idbuf =
      ((s.tick n).store (s.indirect k) l.idbuf).unmarks (freedSlots s k blocklen 128) := by
    rw [cut.state,unmarks_tick,unmarks_store]
  have words : ∀ j < 128, (l.idbuf.word j).toNat = if blocklen < 15 + j then 0 else s.slot k j := by
    intro j hj
    simpa [hj] using cut.words j hj
  rw [order]
  exact (cutSlots_cut (c.tick n) h present words).of_tick

theorem SlotsCut.unchanged (clean : ¬l.iddirty = true) :
    Cut strict live k (keepIndirect blocklen) s t := by
  have none_ : ∀ j < 128, blocklen < 15 + j → s.slot k j = 0 := by
    intro j small beyond
    by_contra some_
    exact clean (cut.dirty.mpr ⟨j,small,beyond,some_⟩)
  have nil : freedSlots s k blocklen 128 = [] := by
    refine List.eq_nil_iff_forall_not_mem.mpr fun b mem => ?_
    obtain ⟨j,small,beyond,some_,-⟩ := mem_freedSlots.mp mem
    exact some_ (none_ j small beyond)
  have same : t = s := by rw [cut.state,nil]; rfl
  rw [same]
  refine (Cut.refl c).congr fun n some_ => ?_
  have bound := block_lt some_
  by_contra differs
  have out : ¬n < 15 ∧ ¬n ≤ blocklen := by simpa [keepIndirect] using differs
  rw [block,if_neg out.1,if_pos bound] at some_
  exact some_ (none_ (n - 15) (by omega) (by omega))

end

/-- The indirect block has been read, after `m` failures of the device, and gone through. -/
structure Scanned (s : SfsFs) (k blocklen m : Nat) (l : TruncateLocals) (t : SfsFs) : Prop where
  short : blocklen < 142
  present : s.indirect k ≠ 0
  le : m ≤ 10
  good : s.disk.GoodAfter m
  cut : SlotsCut (s.tick (m + 1)) k blocklen 128 l t

theorem Scanned.disk {m : Nat} (scan : Scanned s k blocklen m l t) :
    t.disk = s.disk.tick (m + 1) := by
  rw [scan.cut.state,(unmarks_reading _ _).2.2.2.2]
  rfl

theorem wp_truncateIndirect (c : Consistent strict live ∅ s) (h : live k) (isLoaded : s.loaded k)
    {ok : Unit → SfsFs → Prop} {err : Errno → SfsFs → Prop} {halt : Panic → SfsFs → Prop}
    (skipped : ¬(blocklen < 142 ∧ s.indirect k ≠ 0) → ok () s)
    (unread : s.indirect k ≠ 0 → (∀ i ≤ 10, s.disk.media i = false) → err .eio (s.tick 11))
    (freed : ∀ m l t, Scanned s k blocklen m l t → l.hasnonzero = false →
      ok () ((t.unmark (s.indirect k)).edit k fun i => { i with sfiIndirect := 0 }))
    (left : ∀ m l t, Scanned s k blocklen m l t → l.hasnonzero = true →
      (l.iddirty = true → (∀ i ≤ 10, t.disk.GoodAfter i →
          ok () ((t.tick (i + 1)).store (s.indirect k) l.idbuf)) ∧
        ((∀ i ≤ 10, t.disk.media i = false) → err .eio (t.tick 11))) ∧
      (¬ l.iddirty = true → ok () t)) :
    (truncateIndirect k blocklen).wp s ok err halt := by
  obtain ⟨v,found⟩ := loaded_iff.mp isLoaded
  have pointer : v.svI.sfiIndirect.toNat = s.indirect k := by
    rw [SfsFs.indirect,inode_of_loaded found]
  simp only [truncateIndirect,wp_bind,Sfs.wp_vnode found,pointer]
  rw [wp_ite]
  refine ⟨fun goesOn => ?_,skipped⟩
  obtain ⟨short,present⟩ := goesOn
  rw [wp_bind]
  apply wp_safe (sfsRblock_spec (c.geometry.reaches (c.inside (o := .indirect k) ⟨h,rfl,present⟩)))
  · rintro idbuf _ ⟨rfl,m,le,good,rfl⟩
    rw [wp_bind]
    apply wp_total (truncateSlot_loop (c.tick (m + 1)) h present)
    intro l t cut
    have scan : Scanned s k blocklen m l t := ⟨short,present,le,good,cut⟩
    have geometry := cut.geometry (c.tick (m + 1)) h
    rw [wp_ite]
    refine ⟨fun noneLeft => ?_,fun someLeft => ?_⟩
    · rw [wp_bind]
      apply wp_total (sfsBfree_spec geometry (cut.indirect_used (c.tick (m + 1)) h present))
      rintro _ _ rfl
      rw [Sfs.wp_updateInode]
      exact freed m l t scan noneLeft
    obtain ⟨dirty,clean⟩ := left m l t scan (by simpa using someLeft)
    rw [wp_ite]
    refine ⟨fun isDirty => ?_,clean⟩
    obtain ⟨stored,refused⟩ := dirty isDirty
    apply wp_safe (sfsWblock_spec (geometry.reaches (cut.indirect_lt (c.tick (m + 1)) h present)) l.idbuf)
    · rintro _ _ ⟨i,small,accepted,rfl⟩
      exact stored i small accepted
    · rintro _ _ ⟨rfl,bad,rfl⟩
      exact refused bad
  · rintro _ _ ⟨rfl,bad,rfl⟩
    exact unread present bad

theorem truncateIndirect_spec (c : Consistent strict live ∅ s) (h : live k) (isLoaded : s.loaded k) :
    (truncateIndirect k blocklen).wp s
      (fun _ t => Cut strict live k (keepIndirect blocklen) s t ∧
        (blocklen < 15 → t.indirect k = 0))
      (fun e t => e = .eio ∧ ¬strict ∧ ((∃ m, t = s.tick m) ∨ Torn s k blocklen)) never := by
  refine wp_truncateIndirect c h isLoaded (fun stays => ?_) (fun _ bad => ?_)
    (fun m l t scan noneLeft => ?_) fun m l t scan someLeft => ?_
  · refine ⟨(Cut.refl c).congr fun n some_ => ?_,fun small => ?_⟩
    · have bound := block_lt some_
      by_contra differs
      have out : ¬n < 15 ∧ ¬n ≤ blocklen := by simpa [keepIndirect] using differs
      have absent : s.indirect k = 0 := by
        by_contra present
        exact stays ⟨by omega,present⟩
      rw [block,if_neg out.1,if_pos bound,slot,if_pos absent] at some_
      exact some_ rfl
    · by_contra present
      exact stays ⟨by omega,present⟩
  · exact ⟨rfl,c.geometry.lax (bad 0 (by omega)),Or.inl ⟨11,rfl⟩⟩
  · obtain ⟨cut,gone⟩ := scan.cut.freed (c.tick _) h isLoaded scan.present noneLeft
    exact ⟨cut.of_tick,fun _ => gone⟩
  · obtain ⟨j,small,kept,some_⟩ := scan.cut.nonzero.mp someLeft
    have far : ¬blocklen < 15 := by omega
    refine ⟨fun dirty => ⟨fun i _ _ => ?_,fun bad => ?_⟩,fun clean => ?_⟩
    · exact ⟨(scan.cut.written (c.tick _) h scan.present _).of_tick,fun near => absurd near far⟩
    · have geometry := scan.cut.geometry (c.tick _) h
      refine ⟨rfl,geometry.lax (bad 0 (by omega)),Or.inr ⟨scan.cut.dirty.mp dirty,
        ⟨j,small,kept,some_⟩,m,scan.le,scan.good,fun i le => ?_⟩⟩
      have off := bad i le
      rwa [scan.disk] at off
    · exact ⟨(scan.cut.unchanged (c.tick _) clean).of_tick,fun near => absurd near far⟩

theorem truncateBlocklen_eq {len : Int} (low : 0 ≤ len) (high : len ≤ 143 * 512) :
    truncateBlocklen len = (len.toNat + 511) / 512 := by
  have round : i32 (len + 511) = ((len.toNat + 511 : Nat) : Int) := by
    rw [i32_of_bounds (by omega) (by omega)]
    omega
  rw [truncateBlocklen,round,show ((len.toNat + 511 : Nat) : Int).tdiv 512 =
    ((len.toNat + 511) / 512 : Nat) from rfl,u32_natCast (by omega)]

def keepDirect (blocklen n : Nat) : Bool := 15 ≤ n || n < blocklen

/-- The file blocks that `sfs_truncate` keeps. Among the direct blocks these are the ones
below `blocklen`; among the others, block `blocklen` itself is kept as well. -/
def truncateKeeps (blocklen n : Nat) : Bool := if n < 15 then n < blocklen else n ≤ blocklen

theorem truncateKeeps_eq (blocklen n : Nat) :
    (keepDirect blocklen n && keepIndirect blocklen n) = truncateKeeps blocklen n := by
  unfold keepDirect keepIndirect truncateKeeps
  by_cases direct : n < 15
  · have : ¬15 ≤ n := by omega
    simp [direct,this]
  · have : 15 ≤ n := by omega
    simp [direct,this]

theorem Reinoded.cut
    (done : Reinoded strict live k ((s.inode k).cutDirect blocklen 15) s t) :
    Cut strict live k (keepDirect blocklen) s t ∧ ∀ j, t.slot k j = s.slot k j := by
  have sectors : t.sectors = s.sectors := congrArg Disk.sectors done.disk
  have indirectT : t.indirect k = s.indirect k := congrArg (fun i => i.sfiIndirect.toNat) done.inode
  have slots : ∀ j, t.slot k j = s.slot k j := fun j => by
    unfold slot
    rw [indirectT,sectors]
  have blocks : ∀ n, t.block k n = if keepDirect blocklen n then s.block k n else 0 := by
    intro n
    unfold block
    rw [done.inode,slots,SfsInode.direct_cutDirect]
    by_cases direct : n < 15
    · by_cases kept : n < blocklen
      · simp [direct,kept,keepDirect]
      · have : blocklen ≤ n := by omega
        simp [direct,kept,keepDirect,this]
    · have : 15 ≤ n := by omega
      simp [direct,keepDirect,this]
  refine ⟨⟨done.consistent,done.frame,blocks,view_cut ?_ ?_ ?_ blocks ?_⟩,slots⟩
  · rw [done.inode]; rfl
  · rw [done.inode]; rfl
  · rw [done.inode]; rfl
  · intro n _
    rw [sectors]

/-- File `k` after a successful `sfs_truncate` to `len` bytes. -/
structure Truncated (strict : Prop) (live : Nat → Prop) (k : Nat) (len : Int) (s t : SfsFs) :
    Prop where
  consistent : Consistent strict live ∅ t
  frame : Frame (Others live k) s t
  blocks : ∀ n, t.block k n = if truncateKeeps (truncateBlocklen len) n then s.block k n else 0
  indirect : truncateBlocklen len < 15 → t.indirect k = 0
  view : t.view k = { s.view k with
    size := u32 len
    content := fun o =>
      if truncateKeeps (truncateBlocklen len) (o / 512) then (s.view k).content o else 0 }

theorem sfsTruncate_spec (c : Consistent strict live ∅ s) (h : live k) (isLoaded : s.loaded k)
    (len : Int) :
    (sfsTruncate k len).wp s (fun _ t => Truncated strict live k len s t)
      (fun e t => e = .eio ∧ ¬strict ∧
        (Cut strict live k (keepDirect (truncateBlocklen len)) s t ∨ Torn s k (truncateBlocklen len)))
      never := by
  simp only [sfsTruncate,wp_bind]
  apply wp_total (truncateDirect_loop c h isLoaded)
  rintro _ t ⟨done,-⟩
  obtain ⟨direct,slots⟩ := done.cut
  have loadedT := done.frame.loaded.mpr isLoaded
  apply wp_ends (truncateIndirect_spec done.consistent h loadedT)
  · rintro _ u ⟨cut,gone⟩
    have whole := (direct.trans cut).congr fun n _ => truncateKeeps_eq (truncateBlocklen len) n
    have loadedU := cut.frame.loaded.mpr loadedT
    have meta_ := data_editMeta (f := fun i => { i with sfiSize := UInt32.ofNat (u32 len) }) loadedU
      (fun _ => rfl) (fun _ => rfl)
    have inodeK := inode_edit (f := fun i => { i with sfiSize := UInt32.ofNat (u32 len) }) loadedU k
    rw [if_pos rfl] at inodeK
    rw [Sfs.wp_updateInode]
    refine ⟨whole.consistent.editMeta loadedU (fun _ => rfl) (fun _ => rfl) (fun _ => rfl),
      whole.frame.trans (frame_editMeta loadedU),fun n => ?_,fun small => ?_,?_⟩
    · rw [(meta_ n).1,whole.blocks]
    · exact (congrArg (fun i => i.sfiIndirect.toNat) inodeK).trans (gone small)
    · rw [view_setSize loadedU,whole.view,UInt32.toNat_ofNat',Nat.mod_eq_of_lt (u32_lt len)]
  · rintro e u ⟨rfl,lax,⟨m,rfl⟩ | torn⟩
    · have both := direct.trans (Cut.tick done.consistent m)
      exact ⟨rfl,lax,Or.inl (both.congr fun n _ => Bool.and_true _)⟩
    · refine ⟨rfl,lax,Or.inr ?_⟩
      simpa only [Torn,slots,done.disk] using torn

/-! The torn case -/

structure Dangling (t : SfsFs) (k : Nat) : Prop where
  loaded : t.loaded k
  slot : ∃ j < 128, t.slot k j ≠ 0 ∧ t.slot k j < t.nblocks ∧
    t.sfsFreemap.isset (t.slot k j) = false

theorem GoodAfter.unique {d : Disk} {m n : Nat} (first : d.GoodAfter m) (second : d.GoodAfter n) :
    m = n := by
  rcases Nat.lt_trichotomy m n with less | same | more
  · exact Bool.noConfusion ((second.1 m less).symm.trans first.2)
  · exact same
  · exact Bool.noConfusion ((first.1 n more).symm.trans second.2)

theorem dangling_unmarks (c : Consistent strict live ∅ s) (h : live k) (isLoaded : s.loaded k)
    {j : Nat} (small : j < 128) (beyond : blocklen < 15 + j) (some_ : s.slot k j ≠ 0) (n : Nat) :
    Dangling ((s.unmarks (freedSlots s k blocklen 128)).tick n) k := by
  obtain ⟨sectors,inodes,-,vnodes,-⟩ := unmarks_reading s (freedSlots s k blocklen 128)
  have super : (s.unmarks (freedSlots s k blocklen 128)).sfsSuper = s.sfsSuper :=
    (frame_unmarks _ _ : Frame live s _).super
  have inside : s.slot k j < s.nblocks := c.inside (o := .slot k j) ⟨h,small,rfl,some_⟩
  have slotT : ((s.unmarks (freedSlots s k blocklen 128)).tick n).slot k j = s.slot k j :=
    slot_congr (congrFun inodes k) (fun _ => congrFun sectors _) j
  have insideT : s.slot k j < ((s.unmarks (freedSlots s k blocklen 128)).tick n).nblocks := by
    rw [nblocks,tick_super,super]
    exact inside
  refine ⟨?_,j,small,slotT ▸ some_,slotT ▸ insideT,?_⟩
  · obtain ⟨v,mem,ino⟩ := isLoaded
    exact ⟨v,by rw [tick_vnodes,vnodes]; exact mem,ino⟩
  · have gone : s.slot k j ∉ (s.unmarks (freedSlots s k blocklen 128)).used := by
      rw [used_unmarks]
      exact fun mem => mem.2 (mem_freedSlots.mpr ⟨j,small,beyond,some_,rfl⟩)
    rw [slotT,tick_freemap]
    by_contra set
    exact gone ⟨insideT,by simpa using set⟩

structure LeftTorn (strict : Prop) (k : Nat) (s t : SfsFs) : Prop where
  dangling : Dangling t k
  geometry : t.Geometry strict
  inside : t.indirect k < t.nblocks
  media : ∃ m ≤ 10, s.disk.GoodAfter m ∧ t.disk.media = (s.disk.tick (m + 12)).media

theorem truncateIndirect_torn (c : Consistent strict live ∅ s) (h : live k) (isLoaded : s.loaded k)
    (torn : Torn s k blocklen) :
    (truncateIndirect k blocklen).wp s never (fun _ t => LeftTorn strict k s t) never := by
  obtain ⟨⟨j,small,beyond,some_⟩,⟨j',small',kept,some'⟩,m,le,good,bad⟩ := torn
  have present : s.indirect k ≠ 0 := by
    intro zero
    rw [slot,if_pos zero] at some_
    exact some_ rfl
  refine wp_truncateIndirect c h isLoaded (fun stays => stays ⟨by omega,present⟩) (fun _ badRead => ?_)
    (fun n l t scan noneLeft => ?_) fun n l t scan _ => ?_
  · exact Bool.noConfusion ((badRead m le).symm.trans good.2)
  · have left := scan.cut.nonzero.mpr ⟨j',small',kept,some'⟩
    rw [noneLeft] at left
    cases left
  obtain rfl := GoodAfter.unique good scan.good
  refine ⟨fun _ => ⟨fun i leI goodI => ?_,fun _ => ?_⟩,
    fun clean => clean (scan.cut.dirty.mpr ⟨j,small,beyond,some_⟩)⟩
  · -- the device would have to accept one of the eleven writes that fail
    have accepted := goodI.2
    rw [scan.disk] at accepted
    exact Bool.noConfusion ((bad i leI).symm.trans accepted)
  · have inside : s.indirect k < t.nblocks := scan.cut.indirect_lt (c.tick _) h present
    have pointer : (t.tick 11).indirect k = s.indirect k := by
      change t.indirect k = _
      rw [SfsFs.indirect,scan.cut.state,(unmarks_reading _ _).2.1]
      rfl
    refine ⟨?_,(scan.cut.geometry (c.tick _) h).tick 11,by rw [pointer]; exact inside,m,le,good,?_⟩
    · rw [scan.cut.state]
      exact dangling_unmarks (c.tick _) h isLoaded small beyond some_ 11
    · change (t.disk.tick 11).media = _
      rw [scan.disk,Disk.tick_tick]

theorem sfsTruncate_torn (c : Consistent strict live ∅ s) (h : live k) (isLoaded : s.loaded k)
    (len : Int) (torn : Torn s k (truncateBlocklen len)) :
    (sfsTruncate k len).wp s never (fun _ t => LeftTorn strict k s t) never := by
  simp only [sfsTruncate,wp_bind]
  apply wp_total (truncateDirect_loop c h isLoaded)
  rintro _ t ⟨done,-⟩
  obtain ⟨-,slots⟩ := done.cut
  have tornT : Torn t k (truncateBlocklen len) := by simpa only [Torn,slots,done.disk] using torn
  apply wp_mono (truncateIndirect_torn done.consistent h (done.frame.loaded.mpr isLoaded) tornT)
  · exact fun _ _ => False.elim
  · exact fun _ _ left => ⟨left.dangling,left.geometry,left.inside,done.disk ▸ left.media⟩
  · exact fun _ _ h => h

end Truncate
end Os161
