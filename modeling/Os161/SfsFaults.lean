import Os161.SfsRun

/-! Runs on a device that may fail. A failed write leaves the sector as it was, and every
operation but one is ordered so that a failure loses blocks rather than references. -/
namespace Os161

namespace SfsFs

/-- Every block number that a file in use stores is one of an allocated block. -/
def Grounded (t : SfsFs) : Prop :=
  ∀ o b, Owner.OfFile o → t.Claims t.Live o b → b < t.nblocks ∧ t.sfsFreemap.isset b = true

theorem Inv.grounded {strict : Prop} {t : SfsFs} (inv : Inv strict t) : t.Grounded :=
  fun _ _ _ claim => inv.consistent.owned.claimed claim

end SfsFs

open SfsFs

section Faults
variable {strict : Prop} {s t : SfsFs}

theorem Dangling.not_grounded {k : Nat} (dangling : Dangling t k) : ¬t.Grounded := by
  intro grounded
  obtain ⟨isLoaded,j,small,some_,-,clear⟩ := dangling
  have claim : t.Claims t.Live (.slot k j) (t.slot k j) := ⟨.of_loaded isLoaded,small,rfl,some_⟩
  have file : Owner.OfFile (.slot k j) := trivial
  exact Bool.noConfusion (clear.symm.trans (grounded _ _ file claim).2)

theorem LeftTorn.bmap_panics {k : Nat} (left : LeftTorn strict k s t)
    (works : t.disk.media 0 = true) : ∃ n site, (sfsBmap k n false t).1 = .panic site := by
  obtain ⟨isLoaded,j,small,some_,insideJ,clear⟩ := left.dangling
  obtain ⟨v,found⟩ := loaded_iff.mp isLoaded
  have present : t.indirect k ≠ 0 := by
    intro zero
    rw [slot,if_pos zero] at some_
    exact some_ rfl
  have pointer : v.svI.sfiIndirect.toNat = t.indirect k := by
    rw [SfsFs.indirect,inode_of_loaded found]
  have word : ((t.sectors (t.indirect k)).word j).toNat = t.slot k j := by
    rw [slot,if_neg present]
  have spec : (sfsBmap k (15 + j) false).wp t never never
      (fun site _ => site = .dataBlockFree (t.slot k j) j k) := by
    simp only [sfsBmap]
    rw [if_neg (by omega),if_neg (by omega),wp_bind,Sfs.wp_vnode found,pointer,
      if_neg (by simp [present]),wp_bind,bmapIdblock,if_neg present,wp_bind]
    apply wp_safe (sfsRblock_spec (left.geometry.reaches left.inside))
    · rintro _ u ⟨rfl,m,-,-,rfl⟩
      have offset : (15 + j - 15) % 128 = j := by omega
      simp only [wp_pure,bmapSlot,offset,word,Bool.false_eq_true,and_false,if_false,
        handBack,some_,ne_eq,not_false_eq_true,if_true,wp_bind,sfsBused,wp_read,
        wp_assert,decide_eq_true (show t.slot k j < (t.tick (m + 1)).nblocks from insideJ)]
      rw [show (t.tick (m + 1)).sfsFreemap.isset (t.slot k j) = false from clear]
      exact trivial
    · rintro _ _ ⟨-,bad,-⟩
      exact Bool.noConfusion ((bad 0 (by omega)).symm.trans works)
  rcases ran : sfsBmap k (15 + j) false t with ⟨_ | _ | site,u⟩
  · exact (wp_ok spec ran).elim
  · exact (wp_err spec ran).elim
  · exact ⟨15 + j,site,by rw [ran]⟩

theorem SfsOp.Tears.leftTorn {file : Nat} {len : Int} (inv : Inv strict t)
    (legal : (SfsOp.truncate file len).Legal t) (tears : (SfsOp.truncate file len).Tears t) :
    LeftTorn strict file t ((SfsOp.truncate file len).after t) := by
  apply wp_after (P := fun u : SfsFs => LeftTorn strict file t u)
  rw [SfsOp.run,wp_vopTruncate inv legal tears.1]
  exact wp_safe (sfsTruncate_torn inv.consistent (.of_loaded legal) legal len tears.2)
    (fun _ _ h => h.elim) (fun _ _ h => h)

theorem SfsOp.Tears.dangles {op : SfsOp} (inv : Inv strict t) (legal : op.Legal t)
    (tears : op.Tears t) : ¬(op.after t).Grounded := by
  cases op <;> simp only [SfsOp.Tears] at tears
  case truncate file len => exact (leftTorn inv legal tears).dangling.not_grounded

theorem SfsFs.Inv.bmap_returns (inv : Inv strict t) {k : Nat} (isLoaded : t.loaded k) (n : Nat)
    (doalloc : Bool) (site : Panic) : (sfsBmap k n doalloc t).1 ≠ .panic site := by
  intro fired
  have spec := sfsBmap_spec inv.consistent (.of_loaded isLoaded) isLoaded n doalloc
  exact wp_halt spec (Prod.ext fired rfl)

/-- As long as no truncation has been torn, no file refers to a free block, so `sfs_bmap`
does not panic and `sfs_balloc` hands out nothing that a file refers to. The next operation
breaks this exactly when it is a truncation that the device tears. -/
theorem sfs_references_grounded_iff (inv : Inv False s)
    (run : Run (fun u op => ¬op.Tears u) s t) :
    t.Grounded ∧
    (∀ k n doalloc site, t.loaded k → (sfsBmap k n doalloc t).1 ≠ .panic site) ∧
    (∀ b u, sfsBalloc t = (.ok b,u) → ∀ o, ¬t.Claims t.Live o b) ∧
    ∀ op : SfsOp, op.Legal t → ((op.after t).Grounded ↔ ¬op.Tears t) := by
  have invT : Inv False t := inv.run (fun _ _ _ whole => whole) run
  refine ⟨invT.grounded,fun k n doalloc site isLoaded => invT.bmap_returns isLoaded n doalloc site,
    fun b u ran => (wp_ok (sfsBalloc_spec invT.consistent) ran).unclaimed,
    fun op legal => ⟨fun grounded tears => tears.dangles invT legal grounded,fun whole => ?_⟩⟩
  exact (invT.step legal whole).grounded

end Faults

/-! A concrete device -/

theorem SfsOp.step {allowed : SfsFs → SfsOp → Prop} {s : SfsFs} (op : SfsOp) (legal : op.Legal s)
    (allow : allowed s op) : Step allowed s (op.after s) := ⟨op,legal,allow,rfl⟩

/-- An empty file system of 16 blocks on a device that fails as `media` says. -/
def blankFs (driver : Driver) (media : Nat → Bool) : SfsFs where
  sfsSuper := newSuper 16 volname.chars
  sfsSuperdirty := true
  sfsDevice :=
    { dBlocks := 16, dBlocksize := 512, dIo := driver
      dData := { sectors := fun b => if b = 1 then newRoot.toBlock else Block.zero, media } }
  sfsVnodes := []
  vnodesMax := 0
  sfsFreemap := { nbits := 4096, v := fun i => if i = 0 then 7 else if i = 1 then 0 else 0xff }
  sfsFreemapdirty := true
  kmalloc := fun _ => true

theorem size_sixteen : FsSize 16 := ⟨by decide,by decide⟩

section Blank
variable {driver : Driver} {media : Nat → Bool}

theorem blankFs_bits {i : Nat} (inside : i < 4096) :
    (blankFs driver media).sfsFreemap.isset i = newBit 16 i := by
  by_cases low : i < 16
  · have small : ∀ j < 16, (blankFs driver media).sfsFreemap.isset j = newBit 16 j := by
      change ∀ j < 16, Bitmap.isset ⟨4096,fun i => if i = 0 then 7 else if i = 1 then 0 else 0xff⟩ j =
        newBit 16 j
      decide
    exact small i low
  · -- the bits past the end are set
    have set : (blankFs driver media).sfsFreemap.isset i = true := by
      apply Bitmap.isset_of_full
      simp only [blankFs,if_neg (show ¬i / 8 = 0 by omega),if_neg (show ¬i / 8 = 1 by omega)]
    exact set.trans (decide_eq_true (Or.inr ⟨by omega,inside⟩)).symm

theorem blankFs_empty {strict : Prop}
    (honest : driver = Lhd.failStopIo ∨ driver = Lhd.io ∧ ∀ i, media i = true)
    (reliable : strict → ∀ i, media i = true) : Empty strict 16 (blankFs driver media) where
  geometry := {
    honest := honest
    reliable := fun isStrict => ⟨reliable isStrict,fun _ => rfl⟩
    blocksize := rfl
    inside := Nat.le_refl 16
    fits := show 16 * 512 < 2^31 by decide
    bits := show 4096 = sfsBitmapsize 16 by decide
    tail := fun _ past inside =>
      (blankFs_bits inside).trans (decide_eq_true (Or.inr ⟨past,inside⟩)) }
  durable := {
    magic := rfl
    named := newSuper_named 16 (by decide)
    super := fun clean => nomatch clean
    map := fun clean => nomatch clean
    inode := fun k v found => nomatch found }
  vnodes := rfl
  nblocks := rfl
  bits := fun _ inside => blankFs_bits inside
  root := SfsInode.ofBlock_toBlock newRoot

end Blank

theorem blankFs_inv (media : Nat → Bool) : Inv False (blankFs Lhd.failStopIo media) :=
  (blankFs_empty (Or.inl rfl) False.elim).inv size_sixteen

/-- The device stops in the middle of a truncation: it serves the first 17 requests, fails
the next eleven and has recovered after that. -/
def interrupted (i : Nat) : Bool := decide (i < 17 ∨ 28 ≤ i)

def fileMade : SfsFs :=
  (SfsOp.creat volname true).after ((SfsOp.loadvnode 1).after (blankFs Lhd.failStopIo interrupted))

def oneSlot : SfsFs := (SfsOp.write 3 (Uio.mkKuio (fun _ => 9) 1 (15 * 512) .write)).after fileMade

/-- The file has two data blocks, both in its indirect block. -/
def twoSlots : SfsFs := (SfsOp.write 3 (Uio.mkKuio (fun _ => 9) 1 (17 * 512) .write)).after oneSlot

instance (s : SfsFs) (k : Nat) : Decidable (s.loaded k) :=
  inferInstanceAs (Decidable (∃ v ∈ s.sfsVnodes, v.svIno = k))

theorem twoSlots_run : Run (fun u op => ¬op.Tears u) (blankFs Lhd.failStopIo interrupted) twoSlots := by
  have root : ((SfsOp.loadvnode 1).after (blankFs Lhd.failStopIo interrupted)).loaded 1 := by decide +kernel
  have made : fileMade.loaded 3 := by decide +kernel
  have grown : oneSlot.loaded 3 := by decide +kernel
  have sized : ∀ pos ∈ ([15 * 512,17 * 512] : List Int),
      (Uio.mkKuio (fun _ => 9) 1 pos .write).Sized := by
    intro pos mem
    simp only [List.mem_cons,List.not_mem_nil,or_false] at mem
    rcases mem with rfl | rfl <;> exact ⟨by decide,by decide,by decide,by decide,rfl⟩
  refine (((Relation.ReflTransGen.single (SfsOp.step (.loadvnode 1) (Or.inl rfl) id)).tail
    (SfsOp.step (.creat volname true) root id)).tail (SfsOp.step (.write 3 _) ?_ id)).tail
    (SfsOp.step (.write 3 _) ?_ id)
  · exact ⟨made,sized _ (by decide),rfl⟩
  · exact ⟨grown,sized _ (by decide),rfl⟩

theorem twoSlots_loaded : twoSlots.loaded 3 := by decide +kernel

theorem sfs_references_grounded_twoSlots : twoSlots.Grounded ∧ twoSlots.slot 3 2 = 7 ∧
    ((SfsOp.truncate 3 0).after twoSlots).Grounded := by
  obtain ⟨grounded,-,-,next⟩ :=
    sfs_references_grounded_iff (blankFs_inv interrupted) twoSlots_run
  have slot : twoSlots.slot 3 2 = 7 := by decide +kernel
  -- nothing of the file is kept, so the indirect block is not written back
  have whole : ¬(SfsOp.truncate 3 0).Tears twoSlots := by
    rintro ⟨-,-,⟨j,-,kept,-⟩,-⟩
    have zero : truncateBlocklen 0 = 0 := by decide +kernel
    omega
  exact ⟨grounded,slot,(next (.truncate 3 0) twoSlots_loaded).mpr whole⟩

theorem twoSlots_tears : (SfsOp.truncate 3 8192).Tears twoSlots := by
  have blocks : truncateBlocklen 8192 = 16 := by decide +kernel
  have freed : twoSlots.slot 3 2 ≠ 0 := by decide +kernel
  have kept : twoSlots.slot 3 0 ≠ 0 := by decide +kernel
  have good : twoSlots.disk.media 0 = true := by decide +kernel
  have bad : ∀ i ≤ 10, twoSlots.disk.media (0 + 1 + i) = false := by decide +kernel
  refine ⟨by decide,⟨2,by decide,by rw [blocks]; decide,freed⟩,
    ⟨0,by decide,by rw [blocks]; decide,kept⟩,0,by decide,⟨fun _ none => ?_,good⟩,bad⟩
  exact absurd none (Nat.not_lt_zero _)

/-- Truncating that file to 16 blocks. Block 7 goes back to the freemap, but the indirect
block that names it cannot be written; the next use of the file halts the machine. -/
theorem sfs_truncate_dangles : ∃ t, Run AnyOp (blankFs Lhd.failStopIo interrupted) t ∧ ¬t.Grounded ∧
    ∃ n site, (sfsBmap 3 n false t).1 = .panic site := by
  have inv := (blankFs_inv interrupted).run (fun _ _ _ whole => whole) twoSlots_run
  have left := SfsOp.Tears.leftTorn inv twoSlots_loaded twoSlots_tears
  have forget : ∀ u v, Step (fun u op => ¬op.Tears u) u v → Step AnyOp u v :=
    fun _ _ ⟨op,legal,_,after⟩ => ⟨op,legal,trivial,after⟩
  have any : Run AnyOp (blankFs Lhd.failStopIo interrupted) twoSlots :=
    Relation.ReflTransGen.mono forget _ _ twoSlots_run
  refine ⟨_,any.tail (SfsOp.step (.truncate 3 8192) twoSlots_loaded trivial),left.dangling.not_grounded,
    left.bmap_panics ?_⟩
  obtain ⟨m,-,good,media⟩ := left.media
  have first : twoSlots.disk.media 0 = true := by decide +kernel
  have recovered : twoSlots.disk.media 12 = true := by decide +kernel
  obtain rfl : m = 0 := GoodAfter.unique good ⟨fun _ none => absurd none (Nat.not_lt_zero _),first⟩
  rw [media]
  exact recovered

end Os161
