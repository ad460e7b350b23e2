import Mathlib.Order.Interval.Finset.Nat
import Os161.SfsPrimitives
import Os161.SfsVnode

/-! `sfs_balloc`, `sfs_bfree` and `sfs_bmap` against the invariant. No call here changes
a file as its users see it; what changes is which blocks stand behind it. -/
namespace Os161

namespace SfsFs

def missing (s : SfsFs) (k lo hi : Nat) : Nat :=
  ((Finset.Ico lo hi).filter fun n => s.block k n = 0).card +
    if 15 < hi ∧ lo < hi ∧ s.indirect k = 0 then 1 else 0

theorem free_mark {s : SfsFs} {b : Nat} (inside : b < s.nblocks)
    (fresh : s.sfsFreemap.isset b = false) : (s.mark b).free + 1 = s.free := by
  have mem : b ∈ (Finset.range s.nblocks).filter fun a => s.sfsFreemap.isset a = false := by
    simp [inside,fresh]
  have rest : ((Finset.range s.nblocks).filter fun a => (s.mark b).sfsFreemap.isset a = false) =
      ((Finset.range s.nblocks).filter fun a => s.sfsFreemap.isset a = false).erase b := by
    ext a
    simp only [mark_freemap,Bitmap.isset_set,Finset.mem_filter,Finset.mem_erase,
      Bool.or_eq_false_iff,decide_eq_false_iff_not]
    tauto
  have count := Finset.card_erase_add_one mem
  rw [← rest] at count
  exact count

theorem missing_congr {s t : SfsFs} {k : Nat} (blocks : ∀ n, t.block k n = s.block k n)
    (indirect : t.indirect k = s.indirect k) (lo hi : Nat) : t.missing k lo hi = s.missing k lo hi := by
  simp only [missing,blocks,indirect]

theorem missing_pos {s : SfsFs} {k n lo hi : Nat} (vacant : s.block k n = 0) (low : lo ≤ n)
    (high : n < hi) : 0 < s.missing k lo hi := by
  have mem : n ∈ (Finset.Ico lo hi).filter fun m => s.block k m = 0 := by
    simp [low,high,vacant]
  have := Finset.card_pos.mpr ⟨n,mem⟩
  simp only [missing]
  omega

theorem missing_none {s : SfsFs} {k n : Nat} (some_ : s.block k n ≠ 0) :
    s.missing k n (n + 1) = 0 := by
  have present : n < 15 ∨ s.indirect k ≠ 0 := by
    by_contra absent
    rw [not_or,not_not] at absent
    apply some_
    unfold block
    rw [if_neg absent.1,slot,if_pos absent.2]
    split <;> rfl
  unfold missing
  rw [Nat.Ico_succ_singleton,Finset.filter_singleton,if_neg some_,Finset.card_empty,if_neg]
  rintro ⟨far,-,none_⟩
  exact present.elim (by omega) (absurd none_)

theorem missing_block {s t : SfsFs} {k n b lo hi : Nat} (vacant : s.block k n = 0) (ne : b ≠ 0)
    (blocks : ∀ m, t.block k m = if m = n then b else s.block k m)
    (indirect : t.indirect k = s.indirect k) (low : lo ≤ n) (high : n < hi) :
    t.missing k lo hi + 1 = s.missing k lo hi := by
  have mem : n ∈ (Finset.Ico lo hi).filter fun m => s.block k m = 0 := by
    simp [low,high,vacant]
  have rest : ((Finset.Ico lo hi).filter fun m => t.block k m = 0) =
      ((Finset.Ico lo hi).filter fun m => s.block k m = 0).erase n := by
    ext m
    simp only [blocks,Finset.mem_filter,Finset.mem_erase]
    by_cases same : m = n
    · simp [same,ne]
    · simp [same]
  have count := Finset.card_erase_add_one mem
  rw [← rest] at count
  simp only [missing,indirect]
  omega

theorem missing_indirect {s t : SfsFs} {k n lo hi : Nat} (vacant : s.indirect k = 0)
    (there : t.indirect k ≠ 0) (blocks : ∀ m, t.block k m = s.block k m) (far : 15 ≤ n)
    (low : lo ≤ n) (high : n < hi) : t.missing k lo hi + 1 = s.missing k lo hi := by
  simp only [missing,blocks]
  rw [if_neg (fun h => there h.2.2),if_pos ⟨by omega,by omega,vacant⟩]

/-- What is known of a block that `sfs_balloc` has just returned. -/
structure Fresh (strict : Prop) (live : Nat → Prop) (held : Set Nat) (s t : SfsFs) (b : Nat) :
    Prop where
  consistent : Consistent strict live (insert b held) t
  frame : Frame live s t
  outside : b ∉ held
  nonzero : b ≠ 0
  fits : b < 2^32
  unclaimed : ∀ o, ¬s.Claims live o b
  zeros : t.sectors b = Block.zero
  sectors : ∀ a, a ≠ b → t.sectors a = s.sectors a
  inodes : ∀ j, live j → t.inode j = s.inode j
  blocks : ∀ j, live j → ∀ n, t.block j n = s.block j n
  free : t.free + 1 = s.free

variable {strict : Prop} {live : Nat → Prop} {held : Set Nat} {s : SfsFs}

theorem Consistent.fresh (c : Consistent strict live held s) {b m : Nat} (inside : b < s.nblocks)
    (fresh : s.sfsFreemap.isset b = false) :
    Fresh strict live held s (((s.mark b).tick m).store b Block.zero) b := by
  have unused : b ∉ s.used := fun mem => Bool.noConfusion (fresh.symm.trans mem.2)
  have unclaimed : ∀ o, ¬s.Claims live o b := fun o claim => unused (c.owned.claimed claim)
  have nonzero : b ≠ 0 := fun e => unclaimed .super e
  have marked := (c.take inside fresh).tick m
  have unclaimedT := marked.unclaimed (Set.mem_insert b held)
  have apart : ∀ j, live j → j ≠ b ∧ s.indirect j ≠ b := fun j h =>
    Consistent.apart (fun o claim => absurd claim (unclaimed o)) h nonzero
  exact {
    consistent := marked.storeData fun o claim => absurd claim (unclaimedT o)
    frame := ((frame_mark s b).trans (frame_tick _ m)).trans (frame_store unclaimedT)
    outside := fun mem => unused (c.owned.holding mem)
    nonzero := nonzero
    fits := by have := c.geometry.small; omega
    unclaimed := unclaimed
    zeros := by rw [store_sectors,if_pos rfl]
    sectors := fun a ne => by rw [store_sectors,if_neg ne]; rfl
    inodes := fun j h => inode_store (apart j h).1
    blocks := fun j h n => block_store (s := (s.mark b).tick m) (apart j h).1 (apart j h).2 n
    free := free_mark inside fresh }

end SfsFs

open SfsFs

variable {strict : Prop} {live : Nat → Prop} {held : Set Nat} {s : SfsFs} {k n : Nat}

theorem sfsBalloc_exact (g : s.Geometry strict) :
    sfsBalloc.wp s
      (fun b t => b < s.nblocks ∧ s.sfsFreemap.isset b = false ∧
        ∃ m, t = ((s.mark b).tick m).store b Block.zero)
      (fun e t => (e = .enospc ∧ t = s ∧ ∀ b < s.nblocks, s.sfsFreemap.isset b = true) ∨
        (e = .eio ∧ ¬strict ∧ ∃ b < s.nblocks, s.sfsFreemap.isset b = false ∧
          t = (s.mark b).tick 11)) never := by
  simp only [sfsBalloc,onFreemap,wp_bind,wp_zoom]
  apply wp_ends (Bitmap.alloc_spec _ g.isSealed)
  · rintro b next ⟨low,fresh,-,rfl⟩
    have inside : b < s.nblocks := by
      by_contra exceeds
      have := g.tail b (by omega) low
      rw [fresh] at this
      exact Bool.noConfusion this
    have checked : decide (b < SfsFs.nblocks (s.mark b)) = true := decide_eq_true inside
    simp only [wp_modify,wp_read,wp_assert,sfsClearblock,wp_pure]
    refine (if_pos checked).mpr ?_
    apply wp_ends (sfsWblock_spec ((g.mark b).reaches inside) Block.zero)
    · rintro _ t ⟨m,-,-,rfl⟩
      exact ⟨inside,fresh,m + 1,rfl⟩
    · rintro e t ⟨rfl,bad,rfl⟩
      exact Or.inr ⟨rfl,(g.mark b).lax (bad 0 (by omega)),b,inside,fresh,rfl⟩
  · rintro e next ⟨rfl,rfl,full⟩
    refine Or.inl ⟨rfl,rfl,fun b inside => full b ?_⟩
    rw [g.words]
    exact Nat.lt_of_lt_of_le inside g.le_bits

theorem sfsBalloc_spec (c : Consistent strict live held s) :
    sfsBalloc.wp s (fun b t => Fresh strict live held s t b)
      (fun e t => (e = .enospc ∧ s.free = 0 ∧ t = s) ∨
        (e = .eio ∧ ¬strict ∧ Consistent strict live ∅ t ∧ Frame live s t)) never := by
  apply wp_ends (sfsBalloc_exact c.geometry)
  · rintro b _ ⟨inside,fresh,m,rfl⟩
    exact c.fresh inside fresh
  · rintro e _ (⟨rfl,rfl,full⟩ | ⟨rfl,lax,b,inside,fresh,rfl⟩)
    · refine Or.inl ⟨rfl,?_,rfl⟩
      rw [SfsFs.free,Finset.card_eq_zero,Finset.filter_eq_empty_iff]
      intro b mem clear
      exact Bool.noConfusion ((full b (Finset.mem_range.mp mem)).symm.trans clear)
    · exact Or.inr ⟨rfl,lax,((c.take inside fresh).tick 11).lose lax,
        (frame_mark s b).trans (frame_tick _ 11)⟩

variable {b : Nat}

theorem sfsBfree_spec (g : s.Geometry strict) (used : b ∈ s.used) :
    (sfsBfree b).wp s (fun _ t => t = s.unmark b) never never := by
  simp only [sfsBfree,onFreemap,wp_bind,wp_zoom]
  apply wp_imp (Bitmap.unmark_spec _ (Nat.lt_of_lt_of_le used.1 g.le_bits) used.2)
  rintro _ _ rfl
  rfl

/-! Block mapping -/

/-- File block `n` of inode `k` has been looked up, and allocated if there was need. -/
structure Mapped (strict : Prop) (live : Nat → Prop) (k n : Nat) (s t : SfsFs) : Prop where
  consistent : Consistent strict live ∅ t
  frame : Frame live s t
  budget : strict → ∀ lo hi, lo ≤ n → n < hi →
    t.free + s.missing k lo hi = s.free + t.missing k lo hi

def BmapError (strict : Prop) (k n : Nat) (doalloc : Bool) (s : SfsFs) (e : Errno) : Prop :=
  (e = .einval ∧ 143 ≤ n) ∨
  (e = .enospc ∧ doalloc = true ∧ ∀ lo hi, lo ≤ n → n < hi → s.free < s.missing k lo hi) ∨
  (e = .eio ∧ ¬strict)

variable {err : Errno → SfsFs → Prop} {halt : Panic → SfsFs → Prop}

theorem Sfs.wp_vnode {v : SfsVnode} (found : s.vnode? k = some v) {ok : SfsVnode → SfsFs → Prop} :
    (Sfs.vnode k).wp s ok err halt ↔ ok v s := by
  simp only [Sfs.vnode,wp_bind,wp_read,found,wp_pure]

@[simp] theorem Sfs.wp_updateInode {f : SfsInode → SfsInode} {ok : Unit → SfsFs → Prop} :
    (Sfs.updateInode k f).wp s ok err halt ↔ ok () (s.edit k f) := Iff.rfl

theorem handBack_spec (used : b ≠ 0 → b ∈ s.used) :
    (handBack k n b).wp s (fun r t => r = b ∧ t = s) never never := by
  unfold handBack
  by_cases zero : b = 0
  · rw [if_neg (not_not_intro zero),wp_pure]
    exact ⟨rfl,rfl⟩
  · obtain ⟨inside,set⟩ := used zero
    rw [if_pos zero]
    simp [sfsBused,inside,set]

theorem Mapped.refl (c : Consistent strict live ∅ s) (k n : Nat) : Mapped strict live k n s s :=
  ⟨c,Frame.refl live s,fun _ _ _ _ _ => rfl⟩

theorem Mapped.tick (c : Consistent strict live ∅ s) (k n m : Nat) :
    Mapped strict live k n s (s.tick m) :=
  ⟨c.tick m,frame_tick s m,fun _ _ _ _ _ => rfl⟩

theorem SfsFs.Consistent.block_used (c : Consistent strict live held s) (h : live k) (n : Nat)
    (some_ : s.block k n ≠ 0) : s.block k n ∈ s.used :=
  c.owned.claimed ((claims_data (block_lt some_)).mpr ⟨h,rfl,some_⟩)

variable {t : SfsFs}

theorem Mapped.of_full {doalloc : Bool} {e : Errno} (c : Consistent strict live ∅ s)
    (alloc : doalloc = true) (lacks : ∀ lo hi, lo ≤ n → n < hi → 0 < s.missing k lo hi)
    (failed : (e = .enospc ∧ s.free = 0 ∧ t = s) ∨
      (e = .eio ∧ ¬strict ∧ Consistent strict live ∅ t ∧ Frame live s t)) :
    Mapped strict live k n s t ∧ BmapError strict k n doalloc s e := by
  rcases failed with ⟨rfl,none_,rfl⟩ | ⟨rfl,lax,cT,frame⟩
  · refine ⟨.refl c k n,Or.inr (Or.inl ⟨rfl,alloc,fun lo hi low high => ?_⟩)⟩
    rw [none_]
    exact lacks lo hi low high
  · exact ⟨⟨cT,frame,fun s => absurd s lax⟩,Or.inr (Or.inr ⟨rfl,lax⟩)⟩

theorem Mapped.handBack {doalloc : Bool} (mapped : Mapped strict live k n s t)
    (h : live k) (alloc : doalloc = true) (here : t.block k n = b) (nonzero : b ≠ 0) {m : Nat} :
    (handBack k m b).wp t
      (fun r u => Mapped strict live k n s u ∧ r = u.block k n ∧ (doalloc = true → r ≠ 0) ∧
        (doalloc = false → u = s)) err halt := by
  have used := mapped.consistent.block_used h n (here ▸ nonzero)
  rw [here] at used
  apply wp_total (handBack_spec fun _ => used)
  rintro r u ⟨rfl,rfl⟩
  exact ⟨mapped,here.symm,fun _ => nonzero,fun off => by rw [off] at alloc; cases alloc⟩

theorem bmapDirect_spec (c : Consistent strict live ∅ s) (h : live k) (isLoaded : s.loaded k)
    (small : n < 15) (doalloc : Bool) :
    (bmapDirect k n doalloc).wp s
      (fun b t => Mapped strict live k n s t ∧ b = t.block k n ∧ (doalloc = true → b ≠ 0) ∧
        (doalloc = false → t = s))
      (fun e t => Mapped strict live k n s t ∧ BmapError strict k n doalloc s e ∧ doalloc = true)
      never := by
  obtain ⟨v,found⟩ := loaded_iff.mp isLoaded
  have direct : v.svI.direct n = s.block k n := by
    rw [block,if_pos small,inode_of_loaded found]
  simp only [bmapDirect,wp_bind,Sfs.wp_vnode found,direct]
  rw [wp_ite]
  refine ⟨fun both => ?_,fun present => ?_⟩
  · obtain ⟨vacant,alloc⟩ := both
    rw [wp_bind]
    apply wp_ends (sfsBalloc_spec c)
    · intro b t fresh
      have loadedT := (fresh.frame.loaded (k := k)).mpr isLoaded
      have vacantT : t.block k n = 0 := (fresh.blocks k h n).trans vacant
      have vacantSlot : (t.inode k).direct n = 0 := by rwa [block,if_pos small] at vacantT
      have given := fresh.consistent.giveDirect fresh.outside h loadedT small vacantSlot fresh.nonzero
      have blocks := block_setDirect loadedT small fresh.fits
      have mapped : Mapped strict live k n s (t.edit k fun i => i.setDirect n b) := {
        consistent := given
        frame := fresh.frame.trans
          (frame_setDirect loadedT small fresh.fits vacantT fresh.zeros)
        budget := by
          intro _ lo hi low high
          have indirectT : (t.edit k fun i => i.setDirect n b).indirect k = s.indirect k := by
            rw [SfsFs.indirect,inode_edit loadedT,if_pos rfl,fresh.inodes k h]
            rfl
          have one := missing_block vacant fresh.nonzero
            (fun m => by rw [blocks m,fresh.blocks k h]) indirectT low high
          have count : (t.edit k fun i => i.setDirect n b).free + 1 = s.free := fresh.free
          omega }
      simp only [wp_bind,Sfs.wp_updateInode]
      exact mapped.handBack h alloc (by rw [blocks n,if_pos rfl]) fresh.nonzero
    · intro e t failed
      obtain ⟨mapped,code⟩ := Mapped.of_full c alloc (fun _ _ => missing_pos vacant) failed
      exact ⟨mapped,code,alloc⟩
  · apply wp_total (handBack_spec (c.block_used h n))
    rintro r t ⟨rfl,rfl⟩
    exact ⟨.refl c k n,rfl,fun on zero => present ⟨zero,on⟩,fun _ => rfl⟩

structure AtIndirect (strict : Prop) (live : Nat → Prop) (k n : Nat) (s t : SfsFs)
    (r : Nat × Block) : Prop where
  mapped : Mapped strict live k n s t
  exact_ : ∀ lo hi, lo ≤ n → n < hi → t.free + s.missing k lo hi = s.free + t.missing k lo hi
  number : r.1 = t.indirect k
  nonzero : r.1 ≠ 0
  contents : r.2 = t.sectors r.1

theorem AtIndirect.onward {u : SfsFs} {r : Nat × Block} (first : AtIndirect strict live k n s t r)
    (second : Mapped strict live k n t u) : Mapped strict live k n s u :=
  ⟨second.consistent,first.mapped.frame.trans second.frame,fun isStrict lo hi low high => by
    have before := first.exact_ lo hi low high
    have after := second.budget isStrict lo hi low high
    omega⟩

theorem bmapIdblock_spec (c : Consistent strict live ∅ s) (h : live k) (isLoaded : s.loaded k)
    (far : 15 ≤ n) (doalloc : Bool) (need : s.indirect k = 0 → doalloc = true) :
    (bmapIdblock k (s.indirect k)).wp s
      (fun r t => AtIndirect strict live k n s t r ∧ (doalloc = false → ∃ m, t = s.tick m))
      (fun e t => Mapped strict live k n s t ∧ BmapError strict k n doalloc s e ∧
        (doalloc = false → (∃ m, t = s.tick m) ∧ (e = .eio → ¬s.disk.Reliable) ∧ e ≠ .einval))
      never := by
  unfold bmapIdblock
  rw [wp_ite]
  refine ⟨fun vacant => ?_,fun present => ?_⟩
  · have alloc := need vacant
    have on : ¬doalloc = false := by simp [alloc]
    rw [wp_bind]
    apply wp_ends (sfsBalloc_spec c)
    · intro b t fresh
      have loadedT := (fresh.frame.loaded (k := k)).mpr isLoaded
      have vacantT : t.indirect k = 0 := by rw [SfsFs.indirect,fresh.inodes k h]; exact vacant
      have given := fresh.consistent.giveIndirect fresh.outside h loadedT vacantT fresh.zeros
        fresh.nonzero
      have frame : Frame live s (t.edit k fun i => { i with sfiIndirect := UInt32.ofNat b }) :=
        fresh.frame.trans (frame_setIndirect loadedT fresh.fits vacantT fresh.zeros)
      have blocks := block_setIndirect loadedT fresh.fits vacantT fresh.zeros k
      have number : (t.edit k fun i => { i with sfiIndirect := UInt32.ofNat b }).indirect k = b := by
        rw [SfsFs.indirect,inode_setIndirect loadedT,if_pos rfl,UInt32.toNat_ofNat',
          Nat.mod_eq_of_lt fresh.fits]
      have count : (t.edit k fun i => { i with sfiIndirect := UInt32.ofNat b }).free + 1 = s.free :=
        fresh.free
      have empty : (t.edit k fun i => { i with sfiIndirect := UInt32.ofNat b }).sectors b =
          Block.zero := fresh.zeros
      simp only [wp_bind,Sfs.wp_updateInode,wp_pure]
      generalize (t.edit k fun i => { i with sfiIndirect := UInt32.ofNat b }) = u at *
      have budget : ∀ lo hi, lo ≤ n → n < hi →
          u.free + s.missing k lo hi = s.free + u.missing k lo hi := by
        intro lo hi low high
        have one := missing_indirect vacant (number.symm ▸ fresh.nonzero)
          (fun m => by rw [blocks,fresh.blocks k h]) far low high
        omega
      exact ⟨⟨⟨given,frame,fun _ => budget⟩,budget,number.symm,fresh.nonzero,empty.symm⟩,
        fun off => absurd off on⟩
    · intro e t failed
      have lacks : ∀ lo hi, lo ≤ n → n < hi → 0 < s.missing k lo hi := fun lo hi low high => by
        rw [missing,if_pos ⟨by omega,by omega,vacant⟩]
        exact Nat.succ_pos _
      obtain ⟨mapped,code⟩ := Mapped.of_full c alloc lacks failed
      exact ⟨mapped,code,fun off => absurd off on⟩
  · have reaches := c.geometry.reaches (c.inside (o := .indirect k) ⟨h,rfl,present⟩)
    rw [wp_bind]
    apply wp_ends (sfsRblock_spec reaches)
    · rintro idbuf t ⟨rfl,m,-,-,rfl⟩
      exact ⟨⟨.tick c k n _,fun _ _ _ _ => rfl,rfl,present,rfl⟩,fun _ => ⟨_,rfl⟩⟩
    · rintro e t ⟨rfl,bad,rfl⟩
      exact ⟨.tick c k n _,Or.inr (Or.inr ⟨rfl,c.geometry.lax (bad 0 (by omega))⟩),
        fun _ => ⟨⟨_,rfl⟩,fun _ => Disk.not_reliable (bad 0 (by omega)),Errno.noConfusion⟩⟩

theorem bmapSlot_spec (c : Consistent strict live ∅ s) (h : live k) (present : s.indirect k ≠ 0)
    {j : Nat} (small : j < 128) (doalloc : Bool) :
    (bmapSlot k (s.indirect k) (s.sectors (s.indirect k)) j doalloc).wp s
      (fun b t => Mapped strict live k (15 + j) s t ∧ b = t.block k (15 + j) ∧
        (doalloc = true → b ≠ 0) ∧ (doalloc = false → t = s))
      (fun e t => Mapped strict live k (15 + j) s t ∧ BmapError strict k (15 + j) doalloc s e ∧
        doalloc = true) never := by
  have word : ((s.sectors (s.indirect k)).word j).toNat = s.block k (15 + j) := by
    rw [block,if_neg (by omega),if_pos (by omega),slot,if_neg present]
    simp
  simp only [bmapSlot,word]
  rw [wp_ite]
  refine ⟨fun both => ?_,fun found => ?_⟩
  · obtain ⟨vacant,alloc⟩ := both
    rw [wp_bind]
    apply wp_ends (sfsBalloc_spec c)
    · intro b t fresh
      have indirectT : t.indirect k = s.indirect k := by
        rw [SfsFs.indirect,fresh.inodes k h]
        rfl
      have apart : b ≠ t.indirect k := fun e =>
        fresh.unclaimed (.indirect k) ⟨h,e.trans indirectT,fresh.nonzero⟩
      have sectorT : s.sectors (s.indirect k) = t.sectors (t.indirect k) := by
        rw [← indirectT,fresh.sectors _ apart.symm]
      have presentT : t.indirect k ≠ 0 := indirectT.symm ▸ present
      have vacantT : t.block k (15 + j) = 0 := (fresh.blocks k h _).trans vacant
      have vacantSlot : t.slot k j = 0 := by
        rw [block,if_neg (by omega),if_pos (by omega)] at vacantT
        simpa using vacantT
      rw [sectorT,← indirectT,wp_bind]
      have reaches := fresh.consistent.geometry.reaches
        (fresh.consistent.inside (o := .indirect k) ⟨h,rfl,presentT⟩)
      apply wp_ends (sfsWblock_spec reaches _)
      · rintro _ u ⟨m,-,-,stored⟩
        have cT := fresh.consistent.tick (m + 1)
        have given : Consistent strict live ∅ u := by
          rw [stored]
          exact cT.giveSlot fresh.outside h presentT small vacantSlot fresh.nonzero
        have blocks : ∀ i, u.block k i = if i = 15 + j then b else t.block k i := by
          rw [stored]
          exact block_setSlot cT h presentT small fresh.fits
        have frame : Frame live (t.tick (m + 1)) u := by
          rw [stored]
          exact frame_setSlot cT h presentT small fresh.fits vacantT fresh.zeros apart
        have inodeU : u.inode k = t.inode k := by
          rw [stored]
          exact inode_storeIndirect (s := t.tick (m + 1)) cT h presentT h
        have count : u.free + 1 = s.free := by
          rw [stored]
          exact fresh.free
        have mapped : Mapped strict live k (15 + j) s u := {
          consistent := given
          frame := (fresh.frame.trans (frame_tick t _)).trans frame
          budget := by
            intro _ lo hi low high
            have indirectU : u.indirect k = s.indirect k := by
              rw [← indirectT,SfsFs.indirect,inodeU]
              rfl
            have one := missing_block vacant fresh.nonzero
              (fun i => by rw [blocks i,fresh.blocks k h]) indirectU low high
            omega }
        exact mapped.handBack h alloc (by rw [blocks,if_pos rfl]) fresh.nonzero
      · rintro e u ⟨rfl,bad,rfl⟩
        have lax := fresh.consistent.geometry.lax (bad 0 (by omega))
        exact ⟨⟨(fresh.consistent.tick 11).lose lax,fresh.frame.trans (frame_tick t 11),
          fun s => absurd s lax⟩,Or.inr (Or.inr ⟨rfl,lax⟩),alloc⟩
    · intro e t failed
      obtain ⟨mapped,code⟩ := Mapped.of_full c alloc (fun _ _ => missing_pos vacant) failed
      exact ⟨mapped,code,alloc⟩
  · apply wp_total (handBack_spec (c.block_used h _))
    rintro r t ⟨rfl,rfl⟩
    exact ⟨.refl c k _,rfl,fun on zero => found ⟨zero,on⟩,fun _ => rfl⟩

/-- `sfs_bmap`: the block that stands behind file block `n`, allocated if asked for. A
lookup without allocation only issues requests. -/
theorem sfsBmap_spec (c : Consistent strict live ∅ s) (h : live k) (isLoaded : s.loaded k)
    (n : Nat) (doalloc : Bool) :
    (sfsBmap k n doalloc).wp s
      (fun b t => Mapped strict live k n s t ∧ b = t.block k n ∧ n < 143 ∧
        (doalloc = true → b ≠ 0) ∧ (doalloc = false → ∃ m, t = s.tick m))
      (fun e t => Mapped strict live k n s t ∧ BmapError strict k n doalloc s e ∧
        (doalloc = false → (∃ m, t = s.tick m) ∧ (e = .eio → ¬s.disk.Reliable) ∧
          (e = .einval → t = s))) never := by
  unfold sfsBmap
  rw [wp_ite]
  refine ⟨fun small => ?_,fun far => ?_⟩
  · apply wp_ends (bmapDirect_spec c h isLoaded small doalloc)
    · rintro b t ⟨mapped,rfl,nonzero,quiet⟩
      exact ⟨mapped,rfl,by omega,nonzero,fun off => ⟨0,by rw [quiet off,tick_zero]⟩⟩
    · rintro e t ⟨mapped,code,alloc⟩
      exact ⟨mapped,code,fun off => by rw [off] at alloc; cases alloc⟩
  rw [wp_ite]
  refine ⟨fun beyond => ?_,fun within => ?_⟩
  · rw [wp_fail]
    exact ⟨.refl c k n,Or.inl ⟨rfl,by omega⟩,fun _ => ⟨⟨0,s.tick_zero.symm⟩,Errno.noConfusion,fun _ => rfl⟩⟩
  have small : n - 15 < 128 := by omega
  have offset : 15 + (n - 15) = n := by omega
  obtain ⟨v,found⟩ := loaded_iff.mp isLoaded
  have pointer : v.svI.sfiIndirect.toNat = s.indirect k := by
    rw [SfsFs.indirect,inode_of_loaded found]
  simp only [wp_bind,Sfs.wp_vnode found,pointer]
  rw [wp_ite]
  refine ⟨fun ⟨none_,off⟩ => ?_,fun goOn => ?_⟩
  · rw [wp_pure]
    refine ⟨.refl c k n,?_,by omega,fun on => Bool.noConfusion (off.symm.trans on),
      fun _ => ⟨0,s.tick_zero.symm⟩⟩
    rw [block,if_neg far,if_pos (by omega),slot,if_pos none_]
  have need : s.indirect k = 0 → doalloc = true := fun none_ => by
    cases doalloc with
    | true => rfl
    | false => exact absurd ⟨none_,rfl⟩ goOn
  rw [wp_bind]
  apply wp_ends (bmapIdblock_spec (n := n) c h isLoaded (by omega) doalloc need)
  · rintro ⟨idblock,idbuf⟩ t ⟨first,quiet⟩
    obtain rfl : idblock = t.indirect k := first.number
    obtain rfl : idbuf = t.sectors (t.indirect k) := first.contents
    rw [show (n - 15) % 128 = n - 15 by omega]
    apply wp_ends (bmapSlot_spec first.mapped.consistent h first.nonzero small doalloc)
    · rintro b u ⟨second,rfl,some_,quiet'⟩
      rw [offset] at second some_ ⊢
      refine ⟨first.onward second,rfl,by omega,some_,fun off => ?_⟩
      rw [quiet' off]
      exact quiet off
    · rintro e u ⟨second,code,alloc⟩
      rw [offset] at second code
      refine ⟨first.onward second,?_,fun off => by rw [off] at alloc; cases alloc⟩
      refine code.imp_right (Or.imp_left ?_)
      rintro ⟨rfl,on,short⟩
      refine ⟨rfl,on,fun lo hi low high => ?_⟩
      have before := first.exact_ lo hi low high
      have after := short lo hi low high
      omega
  · rintro e t ⟨mapped,code,quiet⟩
    refine ⟨mapped,code,fun off => ?_⟩
    obtain ⟨ticked,io,other⟩ := quiet off
    exact ⟨ticked,io,fun invalid => absurd invalid other⟩

end Os161
