import Os161.SfsSparse

/-! What `sfs_truncate` does to the freemap, and when it discards exactly the blocks past the
new end of the file. -/
namespace Os161

open SfsFs

section Freemap
variable {strict : Prop} {live : Nat → Prop} {s : SfsFs} {k blocklen : Nat}

structure IndirectGoes (s : SfsFs) (k blocklen : Nat) : Prop where
  present : s.indirect k ≠ 0
  scanned : blocklen < 142
  empty : ∀ j < 128, 15 + j ≤ blocklen → s.slot k j = 0

/-- The pointer to the indirect block and the freemap after a truncation that has freed the
blocks `direct` in its first loop. -/
structure FreemapCut (direct : Set Nat) (s t : SfsFs) (k blocklen : Nat) : Prop where
  goes : IndirectGoes s k blocklen → t.indirect k = 0
  stays : ¬IndirectGoes s k blocklen → t.indirect k = s.indirect k
  used : t.used = ((s.used \ direct) \ {b | b ∈ freedSlots s k blocklen 128}) \
    {b | IndirectGoes s k blocklen ∧ b = s.indirect k}

theorem SlotsCut.keeps {l : TruncateLocals} {t u : SfsFs} (cut : SlotsCut s k blocklen 128 l t)
    (left : l.hasnonzero = true) (vnodes : u.sfsVnodes = t.sfsVnodes) (super : u.sfsSuper = t.sfsSuper)
    (freemap : u.sfsFreemap = t.sfsFreemap) (isLoaded : s.loaded k) : FreemapCut ∅ s u k blocklen := by
  obtain ⟨j,small,kept,some_⟩ := cut.nonzero.mp left
  have stays : ¬IndirectGoes s k blocklen := fun goes => some_ (goes.empty j small kept)
  have usedU : u.used = t.used := by rw [SfsFs.used,SfsFs.used,nblocks,nblocks,super,freemap]
  refine ⟨fun goes => absurd goes stays,fun _ => ?_,?_⟩
  · obtain ⟨v,found⟩ := loaded_iff.mp isLoaded
    have foundU : u.vnode? k = some v := by
      rw [vnode?,vnodes,cut.state,(unmarks_reading _ _).2.2.2.1]
      exact found
    rw [SfsFs.indirect,SfsFs.indirect,inode_of_loaded found,inode_of_loaded foundU]
  · rw [usedU,cut.state,used_unmarks]
    ext b
    simp [stays]

theorem SlotsCut.gives {l : TruncateLocals} {t : SfsFs} (cut : SlotsCut s k blocklen 128 l t)
    (c : Consistent strict live ∅ s) (h : live k) (isLoaded : s.loaded k) (present : s.indirect k ≠ 0)
    (scanned : blocklen < 142) (noneLeft : l.hasnonzero = false) :
    FreemapCut ∅ s ((t.unmark (s.indirect k)).edit k fun i => { i with sfiIndirect := 0 }) k blocklen := by
  have goes : IndirectGoes s k blocklen := by
    refine ⟨present,scanned,fun j small kept => ?_⟩
    by_contra some_
    have := cut.nonzero.mpr ⟨j,small,kept,some_⟩
    rw [noneLeft] at this
    cases this
  refine ⟨fun _ => (cut.freed c h isLoaded present noneLeft).2,fun stays => absurd goes stays,?_⟩
  change (t.unmark (s.indirect k)).used = _
  rw [used_unmark,cut.state,used_unmarks]
  ext b
  simp [goes]

theorem FreemapCut.of_tick {n : Nat} {t : SfsFs} (cut : FreemapCut ∅ (s.tick n) t k blocklen) :
    FreemapCut ∅ s t k blocklen := by
  have same : IndirectGoes (s.tick n) k blocklen ↔ IndirectGoes s k blocklen :=
    ⟨fun goes => ⟨goes.present,goes.scanned,goes.empty⟩,
      fun goes => ⟨goes.present,goes.scanned,goes.empty⟩⟩
  refine ⟨fun goes => cut.goes (same.mpr goes),fun stays => cut.stays (mt same.mp stays),?_⟩
  rw [cut.used,same]
  rfl

theorem truncateIndirect_used (c : Consistent strict live ∅ s) (h : live k) (isLoaded : s.loaded k) :
    (truncateIndirect k blocklen).wp s (fun _ t => FreemapCut ∅ s t k blocklen)
      (fun _ _ => True) never := by
  refine wp_truncateIndirect c h isLoaded (fun stays => ?_) (fun _ _ => trivial)
    (fun m l t scan noneLeft => ?_) fun m l t scan left => ?_
  · have kept : ¬IndirectGoes s k blocklen := fun goes => stays ⟨goes.scanned,goes.present⟩
    refine ⟨fun goes => absurd goes kept,fun _ => rfl,?_⟩
    have none_ : {b | b ∈ freedSlots s k blocklen 128} = (∅ : Set Nat) := by
      refine Set.eq_empty_of_forall_notMem fun b mem => ?_
      obtain ⟨j,small,beyond,some_,-⟩ := mem_freedSlots.mp mem
      have absent : s.indirect k = 0 := by
        by_contra present
        exact stays ⟨by omega,present⟩
      exact some_ (by rw [slot,if_pos absent])
    rw [none_,Set.sdiff_empty,Set.sdiff_empty]
    ext b
    simp [kept]
  · exact (scan.cut.gives (c.tick _) h isLoaded scan.present scan.short noneLeft).of_tick
  · refine ⟨fun _ => ⟨fun i _ _ => ?_,fun _ => trivial⟩,fun _ => ?_⟩
    · refine FreemapCut.of_tick (n := m + 1) ?_
      exact scan.cut.keeps left rfl rfl rfl isLoaded
    · exact (scan.cut.keeps left rfl rfl rfl isLoaded).of_tick

theorem sfsTruncate_used (c : Consistent strict live ∅ s) (h : live k) (isLoaded : s.loaded k)
    (len : Int) :
    (sfsTruncate k len).wp s
      (fun _ t => FreemapCut (freedDirect s k (truncateBlocklen len) 15) s t k (truncateBlocklen len))
      (fun _ _ => True) never := by
  simp only [sfsTruncate,wp_bind]
  apply wp_total (truncateDirect_loop c h isLoaded)
  rintro _ t ⟨done,freed⟩
  obtain ⟨-,slots⟩ := done.cut
  have loadedT := done.frame.loaded.mpr isLoaded
  have pointerT : t.indirect k = s.indirect k := congrArg (fun i => i.sfiIndirect.toNat) done.inode
  have goesT : IndirectGoes t k (truncateBlocklen len) ↔ IndirectGoes s k (truncateBlocklen len) := by
    constructor
    · exact fun goes => ⟨pointerT ▸ goes.present,goes.scanned,fun j small kept => slots j ▸ goes.empty j small kept⟩
    · exact fun goes => ⟨pointerT.symm ▸ goes.present,goes.scanned,
        fun j small kept => (slots j).symm ▸ goes.empty j small kept⟩
  apply wp_mono (wp_and (truncateIndirect_spec done.consistent h loadedT)
    (truncateIndirect_used done.consistent h loadedT))
  · rintro _ u ⟨⟨file,-⟩,cut⟩
    have inodeK := inode_edit (f := fun i => { i with sfiSize := UInt32.ofNat (u32 len) })
      (file.frame.loaded.mpr loadedT) k
    rw [if_pos rfl] at inodeK
    have pointer : (u.edit k fun i => { i with sfiSize := UInt32.ofNat (u32 len) }).indirect k =
      u.indirect k := congrArg (fun i => i.sfiIndirect.toNat) inodeK
    rw [Sfs.wp_updateInode]
    refine ⟨fun goes => pointer.trans (cut.goes (goesT.mpr goes)),
      fun stays => pointer.trans ((cut.stays (mt goesT.mp stays)).trans pointerT),?_⟩
    have same : freedSlots t k (truncateBlocklen len) 128 = freedSlots s k (truncateBlocklen len) 128 := by
      simp only [freedSlots,slots,funext slots]
    change u.used = _
    rw [cut.used,freed,goesT,pointerT,same,Set.sdiff_empty]
  · exact fun _ _ _ => trivial
  · exact fun _ _ h => h.1

end Freemap

/-! Exact truncation -/

def Finds (strict : Prop) (t : SfsFs) (k n d : Nat) : Prop :=
  (sfsBmap k n false).wp t (fun b _ => b = d) (fun e _ => e = .eio ∧ ¬strict) (fun _ _ => False)

def ceilBlocks (len : Nat) : Nat := (len + 511) / 512

/-- A truncation of file `k` to `len` bytes has discarded exactly the blocks past the new end. -/
structure Discards (strict : Prop) (k len : Nat) (s t : SfsFs) : Prop where
  past : ∀ n, ceilBlocks len ≤ n → n < 143 → Finds strict t k n 0 ∧
    (s.block k n ≠ 0 → t.sfsFreemap.isset (s.block k n) = false)
  before : ∀ n < ceilBlocks len, t.block k n = s.block k n ∧ Finds strict t k n (s.block k n)
  indirect : s.indirect k ≠ 0 → (t.indirect k = s.indirect k ↔ ∃ n, 15 ≤ n ∧ t.block k n ≠ 0)
  dropped : s.indirect k ≠ 0 → t.indirect k ≠ s.indirect k →
    t.sfsFreemap.isset (s.indirect k) = false
  others : ∀ b < s.sfsFreemap.nbits,
    (∀ n, ceilBlocks len ≤ n → s.block k n ≠ 0 → s.block k n ≠ b) →
    (s.indirect k = b → t.indirect k = b) → t.sfsFreemap.isset b = s.sfsFreemap.isset b
  size : (t.view k).size = len

/-- The file has no block right behind its new end that an indirect slot refers to; and if it
is so long that the indirect block is not looked at, that block is in use. -/
structure CutsCleanly (s : SfsFs) (k len : Nat) : Prop where
  boundary : 15 ≤ ceilBlocks len → s.block k (ceilBlocks len) = 0
  inhabited : 142 ≤ ceilBlocks len → s.indirect k ≠ 0 → ∃ j < 128, s.slot k j ≠ 0

section Exact
variable {strict : Prop} {live : Nat → Prop} {s t : SfsFs} {k len : Nat}
variable {n : Nat}

theorem SfsFs.Consistent.finds (c : Consistent strict live ∅ t) (h : live k) (isLoaded : t.loaded k) (small : n < 143) : Finds strict t k n (t.block k n) := by
  apply wp_ends (sfsBmap_spec c h isLoaded n false)
  · rintro b u ⟨-,rfl,-,-,quiet⟩
    obtain ⟨m,rfl⟩ := quiet rfl
    rfl
  · rintro e u ⟨-,⟨-,beyond⟩ | ⟨-,on,-⟩ | io,-⟩
    · omega
    · cases on
    · exact io

variable {b : Nat}

theorem isset_false_of_unused (inside : b < t.nblocks) (unused : b ∉ t.used) :
    t.sfsFreemap.isset b = false := by
  by_contra set
  exact unused ⟨inside,by simpa using set⟩

variable {blocklen : Nat}

theorem FreemapCut.others {direct : Set Nat} (cut : FreemapCut direct s t k blocklen)
    (gS : s.Geometry strict) (gT : t.Geometry strict) (super : t.sfsSuper = s.sfsSuper)
    (inside : b < s.sfsFreemap.nbits) (notDirect : b ∉ direct)
    (notSlot : b ∉ freedSlots s k blocklen 128) (notIndirect : s.indirect k = b → t.indirect k = b) :
    t.sfsFreemap.isset b = s.sfsFreemap.isset b := by
  have size : t.nblocks = s.nblocks := by rw [nblocks,nblocks,super]
  by_cases low : b < s.nblocks
  · have stays : ¬(IndirectGoes s k blocklen ∧ b = s.indirect k) := by
      rintro ⟨goes,rfl⟩
      exact goes.present ((notIndirect rfl).symm.trans (cut.goes goes))
    have same : b ∈ t.used ↔ b ∈ s.used := by
      rw [cut.used]
      exact ⟨fun mem => mem.1.1.1,fun mem => ⟨⟨⟨mem,notDirect⟩,notSlot⟩,stays⟩⟩
    have bits : t.sfsFreemap.isset b = true ↔ s.sfsFreemap.isset b = true :=
      ⟨fun set => (same.mp ⟨size.symm ▸ low,set⟩).2,fun set => (same.mpr ⟨low,set⟩).2⟩
    exact Bool.eq_iff_iff.mpr bits
  · have bitsT : t.sfsFreemap.nbits = s.sfsFreemap.nbits := by rw [gT.bits,gS.bits,size]
    rw [gS.tail b (by omega) inside,gT.tail b (by omega) (by omega)]

theorem freed_past (beyond : blocklen ≤ n) (some_ : s.block k n ≠ 0)
    (spared : 15 ≤ n → n ≠ blocklen) :
    s.block k n ∈ freedDirect s k blocklen 15 ∨ s.block k n ∈ freedSlots s k blocklen 128 := by
  have bound := block_lt some_
  by_cases direct : n < 15
  · rw [block,if_pos direct] at some_ ⊢
    exact Or.inl ⟨n,direct,beyond,some_,rfl⟩
  · have other := spared (by omega)
    rw [block,if_neg direct,if_pos bound] at some_ ⊢
    exact Or.inr (mem_freedSlots.mpr ⟨n - 15,by omega,by omega,some_,rfl⟩)

theorem mapped_of_freed
    (freed : b ∈ freedDirect s k blocklen 15 ∨ b ∈ freedSlots s k blocklen 128) :
    ∃ n, blocklen ≤ n ∧ s.block k n ≠ 0 ∧ s.block k n = b := by
  rcases freed with ⟨n,small,beyond,some_,rfl⟩ | mem
  · have here : s.block k n = (s.inode k).direct n := by rw [block,if_pos small]
    exact ⟨n,beyond,here ▸ some_,here⟩
  · obtain ⟨j,small,beyond,some_,rfl⟩ := mem_freedSlots.mp mem
    have here : s.block k (15 + j) = s.slot k j := by
      rw [block,if_neg (by omega),if_pos (by omega),Nat.add_sub_cancel_left]
    exact ⟨15 + j,by omega,here ▸ some_,here⟩

theorem truncateKeeps_far (far : 15 ≤ n) :
    truncateKeeps blocklen n = decide (n ≤ blocklen) := if_neg (by omega)

theorem block_far (far : 15 ≤ n) (some_ : s.block k n ≠ 0) :
    n - 15 < 128 ∧ s.slot k (n - 15) ≠ 0 := by
  have bound := block_lt some_
  rw [block,if_neg (by omega),if_pos bound] at some_
  exact ⟨by omega,some_⟩

theorem indirect_kept_iff {direct : Set Nat} (present : s.indirect k ≠ 0)
    (cut : FreemapCut direct s t k blocklen)
    (blocks : ∀ n, t.block k n = if truncateKeeps blocklen n then s.block k n else 0) :
    ((t.indirect k = s.indirect k ↔ ∃ n, 15 ≤ n ∧ t.block k n ≠ 0) ↔
      (142 ≤ blocklen → ∃ j < 128, s.slot k j ≠ 0)) := by
  have mapped : (∃ n, 15 ≤ n ∧ t.block k n ≠ 0) ↔ ∃ j < 128, 15 + j ≤ blocklen ∧ s.slot k j ≠ 0 := by
    constructor
    · rintro ⟨n,far,some_⟩
      rw [blocks,truncateKeeps_far far] at some_
      split at some_
      next kept =>
        obtain ⟨small,slot⟩ := block_far far some_
        have := of_decide_eq_true kept
        exact ⟨n - 15,small,by omega,slot⟩
      next => exact absurd rfl some_
    · rintro ⟨j,small,kept,some_⟩
      refine ⟨15 + j,by omega,?_⟩
      rw [blocks,truncateKeeps_far (by omega),if_pos (decide_eq_true kept),block,
        if_neg (by omega),if_pos (by omega),Nat.add_sub_cancel_left]
      exact some_
  rw [mapped]
  by_cases goes : IndirectGoes s k blocklen
  · have scanned := goes.scanned
    have none_ : ¬∃ j < 128, 15 + j ≤ blocklen ∧ s.slot k j ≠ 0 := by
      rintro ⟨j,small,kept,some_⟩
      exact some_ (goes.empty j small kept)
    refine iff_of_true (iff_of_false ?_ none_) (fun long => by omega)
    rw [cut.goes goes]
    exact Ne.symm present
  · rw [iff_true_left (cut.stays goes)]
    constructor
    · rintro ⟨j,small,-,some_⟩ -
      exact ⟨j,small,some_⟩
    · intro inhabited
      by_cases long : 142 ≤ blocklen
      · obtain ⟨j,small,some_⟩ := inhabited long
        exact ⟨j,small,by omega,some_⟩
      · by_contra none_
        refine goes ⟨present,by omega,fun j small kept => ?_⟩
        by_contra some_
        exact none_ ⟨j,small,kept,some_⟩

theorem Discards.boundary {len : Int} (discards : Discards strict k len.toNat s t) (h : live k)
    (low : 0 ≤ len) (high : len ≤ 143 * 512) (cut : Truncated strict live k len s t)
    (far : 15 ≤ ceilBlocks len.toNat) : s.block k (ceilBlocks len.toNat) = 0 := by
  by_contra some_
  have kept : t.block k (ceilBlocks len.toNat) = s.block k (ceilBlocks len.toNat) := by
    rw [cut.blocks,truncateBlocklen_eq low high,← ceilBlocks,truncateKeeps_far far,
      if_pos (decide_eq_true (Nat.le_refl _))]
  have used := cut.consistent.block_used h _ (kept.symm ▸ some_)
  have clear := (discards.past _ (Nat.le_refl _) (block_lt some_)).2 some_
  rw [kept] at used
  exact Bool.noConfusion (clear.symm.trans used.2)

/-- A successful truncation discards exactly the blocks past the new end just if the file had
no block at that end behind an indirect slot, and no empty indirect block that is passed over. -/
theorem truncate_discards_iff (c : Consistent strict live ∅ s) (h : live k) (isLoaded : s.loaded k)
    {len : Int} (low : 0 ≤ len) (high : len ≤ 143 * 512) :
    (sfsTruncate k len).wp s
      (fun _ t => Discards strict k len.toNat s t ↔ CutsCleanly s k len.toNat)
      (fun e _ => e = .eio ∧ ¬strict) (fun _ _ => False) := by
  have blocklen : truncateBlocklen len = ceilBlocks len.toNat := truncateBlocklen_eq low high
  apply wp_mono (wp_and (sfsTruncate_spec c h isLoaded len) (sfsTruncate_used c h isLoaded len))
  · rintro _ t ⟨cut,freemap⟩
    rw [blocklen] at freemap
    have blocks := blocklen ▸ cut.blocks
    have loadedT := cut.frame.loaded.mpr isLoaded
    have size : t.nblocks = s.nblocks := by rw [nblocks,nblocks,cut.frame.super]
    constructor
    · intro discards
      exact ⟨discards.boundary h low high cut,fun long present =>
        (indirect_kept_iff present freemap blocks).mp (discards.indirect present) long⟩
    · intro clean
      have gone : ∀ n, ceilBlocks len.toNat ≤ n → s.block k n ≠ 0 →
          truncateKeeps (ceilBlocks len.toNat) n = false ∧ (15 ≤ n → n ≠ ceilBlocks len.toNat) := by
        intro n beyond some_
        have spared : 15 ≤ n → n ≠ ceilBlocks len.toNat := by
          rintro far rfl
          exact some_ (clean.boundary far)
        refine ⟨?_,spared⟩
        unfold truncateKeeps
        split
        · exact decide_eq_false (by omega)
        · have := spared (by omega)
          exact decide_eq_false (by omega)
      refine ⟨fun n beyond small => ⟨?_,fun some_ => ?_⟩,fun n below => ?_,fun present => ?_,
        fun present left => ?_,fun b inside notMapped notIndirect => ?_,?_⟩
      · have zero : t.block k n = 0 := by
          rw [blocks]
          by_cases some_ : s.block k n = 0
          · rw [some_,ite_self]
          · rw [(gone n beyond some_).1]
            rfl
        exact zero ▸ cut.consistent.finds h loadedT small
      · have inside := (c.block_used h n some_).1
        refine isset_false_of_unused (size.symm ▸ inside) ?_
        rw [freemap.used]
        rcases freed_past beyond some_ (gone n beyond some_).2 with direct | slot
        · exact fun mem => mem.1.1.2 direct
        · exact fun mem => mem.1.2 slot
      · have kept : t.block k n = s.block k n := by
          rw [blocks,if_pos]
          unfold truncateKeeps
          split
          · exact decide_eq_true below
          · exact decide_eq_true (Nat.le_of_lt below)
        have small : n < 143 := by unfold ceilBlocks at below; omega
        exact ⟨kept,kept ▸ cut.consistent.finds h loadedT small⟩
      · exact (indirect_kept_iff present freemap blocks).mpr fun long => clean.inhabited long present
      · have goes : IndirectGoes s k (ceilBlocks len.toNat) := by
          by_contra stays
          exact left (freemap.stays stays)
        have inside : s.indirect k < s.nblocks := c.inside (o := .indirect k) ⟨h,rfl,present⟩
        refine isset_false_of_unused (size.symm ▸ inside) ?_
        rw [freemap.used]
        exact fun mem => mem.2 ⟨goes,rfl⟩
      · refine freemap.others c.geometry cut.consistent.geometry cut.frame.super inside ?_ ?_ notIndirect
        · intro direct
          obtain ⟨n,beyond,some_,same⟩ := mapped_of_freed (Or.inl direct)
          exact notMapped n beyond some_ same
        · intro slot
          obtain ⟨n,beyond,some_,same⟩ := mapped_of_freed (Or.inr slot)
          exact notMapped n beyond some_ same
      · rw [cut.view]
        exact u32_of_bounds low (by omega)
  · exact fun _ _ failed => ⟨failed.1.1,failed.1.2.1⟩
  · exact fun _ _ h => h.1

end Exact

theorem truncate_discards_fiveBytes : ∃ t, sfsTruncate 3 0 (fiveBytes.after ready) = (.ok (),t) ∧
    Discards True 3 0 (fiveBytes.after ready) t := by
  obtain ⟨-,-,inv,-⟩ := fiveBytes.call_spec ready_inv ready_represents fiveBytes_proper
  have isLoaded : (fiveBytes.after ready).loaded 3 := by decide +kernel
  have exact_ := truncate_discards_iff inv.consistent (.of_loaded isLoaded) isLoaded
    (show (0 : Int) ≤ 0 by decide) (by decide)
  obtain ⟨_,t,ran,iff_⟩ := wp_returns (wp_mono exact_ (fun _ _ done => done)
    (fun _ _ failed => failed.2 trivial) fun _ _ h => h)
  exact ⟨t,ran,iff_.mpr ⟨fun far => absurd far (by decide),fun long => absurd long (by decide)⟩⟩

/-- One byte at 8192, in file block 16: a truncation to 8192 bytes leaves that block mapped. -/
theorem truncate_spares_block : ∃ t, sfsTruncate 3 8192 ((byteAt 8192).after ready) = (.ok (),t) ∧
    ¬Discards True 3 8192 ((byteAt 8192).after ready) t := by
  have isReady : ready.loaded 3 := by decide +kernel
  have room : ready.missing 3 (8192 / 512) ((8192 + 1 + 511) / 512) ≤ ready.free := by decide +kernel
  have proper : (byteAt 8192).Proper ready :=
    ⟨isReady,by decide,Uio.mkKuio_request (by decide) (by decide),rfl,room⟩
  obtain ⟨-,-,inv,-⟩ := (byteAt 8192).call_spec ready_inv ready_represents proper
  have isLoaded : ((byteAt 8192).after ready).loaded 3 := by decide +kernel
  have mapped : ((byteAt 8192).after ready).block 3 16 ≠ 0 := by decide +kernel
  have live : ((byteAt 8192).after ready).Live 3 := .of_loaded isLoaded
  obtain ⟨_,t,ran,cut⟩ := wp_returns (wp_mono
    (sfsTruncate_spec inv.consistent live isLoaded 8192) (fun _ _ done => done)
    (fun _ _ failed => failed.2.1 trivial) fun _ _ h => h)
  refine ⟨t,ran,fun discards => mapped ?_⟩
  exact Discards.boundary discards live (show (0 : Int) ≤ 8192 by decide) (by decide) cut (by decide)

end Os161
