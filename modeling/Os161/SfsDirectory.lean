import Os161.SfsTruncate

/-! Directories: entries are 64-byte records in the contents of a file. -/
namespace Os161

open SfsFs

namespace FileView

def slots (v : FileView) : Nat := v.size / 64

def entry (v : FileView) (i : Nat) : SfsDir := SfsDir.ofBytes fun j => v.content (i * 64 + j)

def Taken (v : FileView) (i : Nat) : Prop := i < v.slots ∧ (v.entry i).sfdIno ≠ 0

structure IsDir (v : FileView) : Prop where
  type : v.type = sfsTypeDir
  aligned : v.size % 64 = 0
  bound : v.size ≤ 143 * 512
  distinct : ∀ i j, v.Taken i → v.Taken j → (v.entry i).name = (v.entry j).name → i = j

def writeSlot (v : FileView) (slot : Nat) (sd : SfsDir) : FileView :=
  { v with
    content := overwrite v.content (slot * 64) sd.toBytes 64
    size := max v.size (slot * 64 + 64) }

theorem entry_writeSlot (v : FileView) (slot : Nat) (sd : SfsDir) (i : Nat) :
    (v.writeSlot slot sd).entry i = if i = slot then sd else v.entry i := by
  by_cases same : i = slot
  · subst i
    rw [if_pos rfl]
    refine Eq.trans (SfsDir.ofBytes_congr fun j hj => ?_) (SfsDir.ofBytes_toBytes sd)
    simp only [writeSlot,overwrite]
    rw [if_pos (by omega)]
    congr 1
    omega
  · rw [if_neg same]
    refine SfsDir.ofBytes_congr fun j hj => ?_
    simp only [writeSlot,overwrite]
    rw [if_neg (by omega)]

theorem slots_writeSlot {v : FileView} (aligned : v.size % 64 = 0) {slot : Nat} (sd : SfsDir)
    (i : Nat) : i < (v.writeSlot slot sd).slots ↔ i < v.slots ∨ i ≤ slot := by
  simp only [slots,writeSlot]
  omega

def Regrown (strict : Prop) (v w : FileView) : Prop :=
  w = v ∨ (¬strict ∧ ∃ slot ≤ v.slots, slot * 64 + 64 ≤ 143 * 512 ∧
    w = { v with size := max v.size (slot * 64 + 64) })

structure Vacant (v : FileView) (name : List UInt8) (slot : Nat) : Prop where
  place : slot ≤ v.slots
  empty : slot < v.slots → (v.entry slot).sfdIno = 0
  short : name.length < 60
  fresh : ∀ i, v.Taken i → (v.entry i).name ≠ name

end FileView

theorem entryUio_pos {slot : Nat} (small : slot * 64 < 2^31) (buf : Nat → UInt8) (rw_ : UioRw) :
    (entryUio buf slot rw_).pos = slot * 64 := by
  simp only [Uio.pos,entryUio,Uio.mkKuio]
  rw [i32_of_bounds (by omega) (by omega)]
  omega

theorem entryUio_sized {slot : Nat} (small : slot * 64 + 64 < 2^31) (buf : Nat → UInt8)
    (rw_ : UioRw) : (entryUio buf slot rw_).Sized := by
  have offset : (entryUio buf slot rw_).uioOffset = (slot : Int) * 64 := by
    simp only [entryUio,Uio.mkKuio]
    exact i32_of_bounds (by omega) (by omega)
  have resid : (entryUio buf slot rw_).uioResid = 64 := rfl
  exact ⟨by omega,by omega,by omega,Nat.le_refl _,rfl⟩

section Reading
variable {strict : Prop} {live : Nat → Prop} {s : SfsFs} {k slot : Nat}

theorem sfsReaddir_spec (c : Consistent strict live ∅ s) (h : live k) (isLoaded : s.loaded k)
    (bound : (s.view k).size ≤ 143 * 512) (inside : slot < (s.view k).slots) :
    (sfsReaddir k slot).wp s
      (fun sd t => sd = (s.view k).entry slot ∧ ∃ m, t = s.tick m)
      (fun e t => e = .eio ∧ ¬s.disk.Reliable ∧ ∃ m, t = s.tick m) never := by
  have room : slot * 64 + 64 ≤ (s.view k).size := by
    unfold FileView.slots at inside
    omega
  have sized : (SfsIo.mk s (entryUio (fun _ => 0) slot .read)).uio.Sized :=
    entryUio_sized (by omega) _ _
  have pos : (SfsIo.mk s (entryUio (fun _ => 0) slot .read)).uio.pos = slot * 64 :=
    entryUio_pos (by omega) _ _
  have resid : (SfsIo.mk s (entryUio (fun _ => 0) slot .read)).uio.uioResid = 64 := rfl
  have cIo : Consistent strict live ∅ (SfsIo.mk s (entryUio (fun _ => 0) slot .read)).fs := c
  have loadedIo : (SfsIo.mk s (entryUio (fun _ => 0) slot .read)).fs.loaded k := isLoaded
  have ends : (SfsIo.mk s (entryUio (fun _ => 0) slot .read)).uio.uioOffset +
      (SfsIo.mk s (entryUio (fun _ => 0) slot .read)).uio.uioResid < 2^31 := by
    rw [← sized.pos_eq,pos,resid]
    omega
  simp only [sfsReaddir,wp_bind,Sfs.wp_withUio,wp_assert,wp_pure]
  apply wp_ends (sfsIo_read cIo h loadedIo sized ends rfl)
  · rintro _ t ⟨⟨m,fs⟩,uio⟩
    have avail : ioAvail (s.view k).size (slot * 64) 64 = 64 := by
      have small : i32 (s.view k).size = (s.view k).size := i32_of_bounds (by omega) (by omega)
      unfold ioAvail
      rw [small]
      omega
    rw [pos,resid,avail] at uio
    have whole : t.uio.uioResid = 0 := by
      rw [uio,Uio.moved_resid_of_le sized.valid _ (Nat.le_refl 64)]
      rfl
    rw [if_pos (decide_eq_true whole)]
    refine ⟨SfsDir.ofBytes_congr fun j hj => ?_,m,fs⟩
    rw [uio]
    simp only [Uio.moved,entryUio,Uio.mkKuio,overwrite]
    rw [if_pos (by omega)]
    rfl
  · rintro e t ⟨⟨m,fs⟩,code,io⟩
    rcases code with ⟨-,far⟩ | ⟨-,write,-⟩ | ⟨rfl,-⟩ | ⟨-,user⟩
    · rw [Uio.endBlock,pos,resid] at far
      omega
    · cases write
    · exact ⟨rfl,io rfl,m,fs⟩
    · exact absurd rfl user

theorem sfsDirNentries_spec (isLoaded : s.loaded k) (type : (s.view k).type = sfsTypeDir)
    (aligned : (s.view k).size % 64 = 0) :
    (sfsDirNentries k).wp s (fun n t => n = (s.view k).slots ∧ t = s) never never := by
  obtain ⟨v,found⟩ := loaded_iff.mp isLoaded
  have inodeK := inode_of_loaded found
  have isType : decide (v.svI.sfiType = sfsTypeDir) = true := by
    rw [← inodeK]
    exact decide_eq_true type
  have isAligned : decide (v.svI.sfiSize.toNat % 64 = 0) = true := by
    rw [← inodeK]
    exact decide_eq_true aligned
  simp only [sfsDirNentries,wp_bind,Sfs.wp_vnode found,wp_assert,isType,isAligned,
    if_true,wp_pure]
  exact ⟨by simp only [FileView.slots,view,inodeK],trivial⟩

structure Searched (v : FileView) (name : List UInt8) (n : Nat) (r : FindResult) : Prop where
  found : ∀ ino slot, r.found = some (ino,slot) → slot < n ∧ (v.entry slot).sfdIno ≠ 0 ∧
    (v.entry slot).name = name ∧ ino = (v.entry slot).sfdIno.toNat
  absent : r.found = none → ∀ i < n, (v.entry i).sfdIno ≠ 0 → (v.entry i).name ≠ name
  empty : ∀ i, r.emptyslot = some i → i < n ∧ (v.entry i).sfdIno = 0
  full : r.emptyslot = none → ∀ i < n, (v.entry i).sfdIno ≠ 0

theorem findnameTurn_spec (c : Consistent strict live ∅ s) (h : live k) (isLoaded : s.loaded k)
    (isDir : (s.view k).IsDir) (name : CString) {i : Nat} (inside : i < (s.view k).slots)
    {r : FindResult} (searched : Searched (s.view k) name.chars i r) :
    (findnameTurn k name i r).wp s
      (fun r' t => Searched (s.view k) name.chars (i + 1) r' ∧ ∃ m, t = s.tick m)
      (fun e t => e = .eio ∧ ¬s.disk.Reliable ∧ ∃ m, t = s.tick m) never := by
  have split : ∀ j, j < i + 1 → j < i ∨ j = i := fun j hj => by omega
  rw [findnameTurn,wp_bind]
  apply wp_ends (sfsReaddir_spec c h isLoaded isDir.bound inside)
  · rintro _ t ⟨rfl,m,rfl⟩
    rw [wp_ite]
    refine ⟨fun isEmpty => ?_,fun taken => ?_⟩
    · refine ⟨⟨fun ino slot eq => ?_,fun none_ j hj some_ => ?_,fun j eq => ?_,fun eq => ?_⟩,m,rfl⟩
      · obtain ⟨lt,rest⟩ := searched.found ino slot eq
        exact ⟨by omega,rest⟩
      · rcases split j hj with lt | rfl
        · exact searched.absent none_ j lt some_
        · exact absurd isEmpty some_
      · obtain rfl : i = j := Option.some.inj eq
        exact ⟨by omega,isEmpty⟩
      · cases eq
    rw [wp_ite]
    refine ⟨fun named => ?_,fun other => ?_⟩
    · -- a second entry of this name would make the names not distinct
      have first : r.found.isNone = true := by
        cases old : r.found with
        | none => rfl
        | some pair =>
          obtain ⟨ino,slot⟩ := pair
          obtain ⟨lt,some_,same,-⟩ := searched.found ino slot old
          have := isDir.distinct slot i ⟨by omega,some_⟩ ⟨inside,taken⟩ (same.trans named.symm)
          omega
      simp only [wp_bind,wp_assert,first,if_true,wp_pure]
      refine ⟨⟨fun ino slot eq => ?_,fun none_ => ?_,fun j eq => ?_,fun eq j hj => ?_⟩,m,rfl⟩
      · obtain ⟨rfl,rfl⟩ := Prod.mk.inj (Option.some.inj eq)
        exact ⟨by omega,taken,named,rfl⟩
      · cases none_
      · obtain ⟨lt,zero⟩ := searched.empty j eq
        exact ⟨by omega,zero⟩
      · rcases split j hj with lt | rfl
        · exact searched.full eq j lt
        · exact taken
    · rw [wp_pure]
      refine ⟨⟨fun ino slot eq => ?_,fun none_ j hj some_ => ?_,fun j eq => ?_,fun eq j hj => ?_⟩,m,rfl⟩
      · obtain ⟨lt,rest⟩ := searched.found ino slot eq
        exact ⟨by omega,rest⟩
      · rcases split j hj with lt | rfl
        · exact searched.absent none_ j lt some_
        · exact other
      · obtain ⟨lt,zero⟩ := searched.empty j eq
        exact ⟨by omega,zero⟩
      · rcases split j hj with lt | rfl
        · exact searched.full eq j lt
        · exact taken
  · exact fun _ _ failed => failed

theorem sfsDirFindname_spec (c : Consistent strict live ∅ s) (h : live k) (isLoaded : s.loaded k)
    (isDir : (s.view k).IsDir) (name : CString) :
    (sfsDirFindname k name).wp s
      (fun r t => Searched (s.view k) name.chars (s.view k).slots r ∧ ∃ m, t = s.tick m)
      (fun e t => e = .eio ∧ ¬s.disk.Reliable ∧ ∃ m, t = s.tick m) never := by
  rw [sfsDirFindname,wp_bind]
  apply wp_total (sfsDirNentries_spec isLoaded isDir.type isDir.aligned)
  rintro _ t ⟨rfl,same⟩
  rw [same]
  have turns : (loop (findnameTurn k name) (s.view k).slots 0 ⟨none,none⟩).wp s
      (fun r t => Searched (s.view k) name.chars (0 + (s.view k).slots) r ∧ ∃ m, t = s.tick m)
      (fun e t => e = .eio ∧ ¬s.disk.Reliable ∧ ∃ m, t = s.tick m) never := by
    refine wp_loop (fun i r t => Searched (s.view k) name.chars i r ∧ ∃ m, t = s.tick m) _ 0 _
      ⟨⟨nofun,fun _ _ => nofun,nofun,fun _ _ => nofun⟩,0,s.tick_zero.symm⟩ ?_
    rintro i r _ _ inside ⟨searched,m,rfl⟩
    have insideT : i < ((s.tick m).view k).slots := by rw [Nat.zero_add] at inside; exact inside
    apply wp_ends (findnameTurn_spec (c.tick m) h isLoaded isDir name insideT searched)
    · rintro r' u ⟨next,j,rfl⟩
      exact ⟨next,m + j,SfsFs.tick_tick s m j⟩
    · rintro e u ⟨code,bad,j,rfl⟩
      exact ⟨code,fun reliable => bad (tick_reliable reliable m),m + j,SfsFs.tick_tick s m j⟩
  rwa [Nat.zero_add] at turns

theorem taken_block (taken : (s.view k).Taken slot) : s.block k (slot * 64 / 512) ≠ 0 := by
  intro hole
  have zero : ∀ j < 4, (s.view k).content (slot * 64 + j) = 0 := by
    intro j small
    simp only [view,data]
    rw [show (slot * 64 + j) / 512 = slot * 64 / 512 by omega,if_pos hole]
    exact Block.bytes_zero _
  apply taken.2
  simp only [FileView.entry,SfsDir.ofBytes,zero 0 (by omega),zero 1 (by omega),zero 2 (by omega),
    zero 3 (by omega)]
  rfl

/-- `sfs_writedir` on a slot of the directory or the one after the last. On failure the
entries are as before, though the device may have left the size one slot larger; a slot
that is in use can always be overwritten unless the device fails. -/
theorem sfsWritedir_spec (c : Consistent strict live ∅ s) (h : live k) (isLoaded : s.loaded k)
    (bound : (s.view k).size ≤ 143 * 512) (at_ : slot * 64 ≤ (s.view k).size) (sd : SfsDir) :
    (sfsWritedir k sd slot).wp s
      (fun _ t => Consistent strict live ∅ t ∧ Frame (Others live k) s t ∧
        slot * 64 + 64 ≤ 143 * 512 ∧ t.view k = (s.view k).writeSlot slot sd)
      (fun _ t => Consistent strict live ∅ t ∧ Frame (Others live k) s t ∧
        FileView.Regrown strict (s.view k) (t.view k) ∧ (strict → ¬(s.view k).Taken slot))
      never := by
  have below : slot * 64 + 64 < 2^31 :=
    Nat.lt_of_le_of_lt (Nat.add_le_add_right (Nat.le_trans at_ bound) 64) (by decide)
  obtain ⟨u,made⟩ : ∃ u, u = entryUio sd.toBytes slot .write := ⟨_,rfl⟩
  have sized : u.Sized := made ▸ entryUio_sized below _ _
  have pos : u.pos = slot * 64 :=
    made ▸ entryUio_pos (Nat.lt_of_le_of_lt (Nat.le_add_right _ 64) below) _ _
  clear below
  have resid : u.uioResid = 64 := by rw [made]; rfl
  have write : u.uioRw = .write := by rw [made]; rfl
  have source : (fun i => u.mem (u.iovBase + i)) = sd.toBytes := by
    rw [made]
    funext i
    exact congrArg sd.toBytes (Nat.zero_add i)
  have grow : ∀ p, ioGrow (s.view k).size p = max (s.view k).size p := by
    intro p
    have small : i32 (s.view k).size = (s.view k).size := i32_of_bounds (by omega) (by omega)
    unfold ioGrow
    rw [small]
    split <;> omega
  rw [sfsWritedir,wp_bind,Sfs.wp_withUio,← made]
  apply wp_ends (sfsIo_write (a := ⟨s,u⟩) c h isLoaded sized write)
  · rintro _ t ⟨written,uio,room⟩
    have whole : t.uio.uioResid = 0 := by
      rw [uio]
      simp only [Uio.advance,Int.sub_self,u32_zero]
    rw [wp_assert,if_pos (decide_eq_true whole)]
    simp only [pos,resid] at room
    refine ⟨written.consistent,written.frame,by omega,written.self.trans ?_⟩
    simp only [pos,resid,grow,source,FileView.writeSlot]
  · rintro e t ⟨n,p,written,place,reached,code⟩
    -- the slot lies in one block, so nothing of it has been stored
    obtain rfl : n = 0 := by
      simp only [pos,resid] at place
      omega
    have self := written.self
    simp only [pos,grow,overwrite_none] at self
    refine ⟨written.consistent,written.frame,?_,fun isStrict taken => ?_⟩
    · rcases reached with rfl | ⟨lax,small,rfl⟩
      · refine Or.inl (self.trans ?_)
        simp only [pos,Nat.add_zero,Nat.max_eq_left at_]
      · have size : slot * 64 + 0 + min (512 - (slot * 64 + 0) % 512) (64 - 0) = slot * 64 + 64 := by
          omega
        simp only [pos,resid,size] at small self
        exact Or.inr ⟨lax,slot,by unfold FileView.slots; omega,small,self⟩
    · have inside : slot * 64 + 64 ≤ (s.view k).size := by
        have := taken.1
        unfold FileView.slots at this
        omega
      simp only [IoError,Uio.firstBlock,Uio.endBlock,pos,resid] at code
      rcases code with ⟨-,far⟩ | ⟨-,-,full⟩ | ⟨-,lax⟩ | ⟨-,user⟩
      · omega
      · have lack := full isStrict
        rw [show (slot * 64 + 64 + 511) / 512 = slot * 64 / 512 + 1 by omega,
          missing_none (taken_block taken)] at lack
        exact Nat.not_lt_zero _ lack
      · exact lax isStrict
      · exact user (by rw [made]; rfl)

theorem sfsDirLink_spec (c : Consistent strict live ∅ s) (h : live k) (isLoaded : s.loaded k)
    (isDir : (s.view k).IsDir) (name : CString) (ino : Nat) :
    (sfsDirLink k name ino).wp s
      (fun slot t => Consistent strict live ∅ t ∧ Frame (Others live k) s t ∧
        slot * 64 + 64 ≤ 143 * 512 ∧ (s.view k).Vacant name.chars slot ∧
        t.view k = (s.view k).writeSlot slot (SfsDir.make ino name.chars))
      (fun _ t => Consistent strict live ∅ t ∧ Frame (Others live k) s t ∧
        FileView.Regrown strict (s.view k) (t.view k)) never := by
  rw [sfsDirLink,wp_bind]
  apply wp_ends (sfsDirFindname_spec c h isLoaded isDir name)
  · rintro r _ ⟨searched,m,rfl⟩
    have cT := c.tick m
    rw [wp_ite]
    refine ⟨fun exists_ => ?_,fun absent => ?_⟩
    · rw [wp_fail]
      exact ⟨cT,frame_tick s m,Or.inl rfl⟩
    rw [wp_ite]
    refine ⟨fun long => ?_,fun short => ?_⟩
    · rw [wp_fail]
      exact ⟨cT,frame_tick s m,Or.inl rfl⟩
    have none_ : r.found = none := by simpa using absent
    have fresh : ∀ i, (s.view k).Taken i → ((s.view k).entry i).name ≠ name.chars :=
      fun i taken => searched.absent none_ i taken.1 taken.2
    -- both ways of finding a slot end in the same write
    have write : ∀ slot, (s.view k).Vacant name.chars slot →
        (do sfsWritedir k (SfsDir.make ino name.chars) slot; return slot : Sfs Nat).wp (s.tick m)
        (fun slot t => Consistent strict live ∅ t ∧ Frame (Others live k) s t ∧
          slot * 64 + 64 ≤ 143 * 512 ∧ (s.view k).Vacant name.chars slot ∧
          t.view k = (s.view k).writeSlot slot (SfsDir.make ino name.chars))
        (fun _ t => Consistent strict live ∅ t ∧ Frame (Others live k) s t ∧
          FileView.Regrown strict (s.view k) (t.view k)) never := by
      intro slot vacant
      have at_ : slot * 64 ≤ ((s.tick m).view k).size := by
        have := vacant.place
        change slot * 64 ≤ (s.view k).size
        unfold FileView.slots at this
        omega
      rw [wp_bind]
      apply wp_ends (sfsWritedir_spec cT h isLoaded isDir.bound at_ _)
      · rintro _ t ⟨cons,frame,room,self⟩
        exact ⟨cons,(frame_tick s m).trans frame,room,vacant,self⟩
      · rintro e t ⟨cons,frame,grown,-⟩
        exact ⟨cons,(frame_tick s m).trans frame,grown⟩
    cases found : r.emptyslot with
    | some slot =>
      obtain ⟨lt,zero⟩ := searched.empty slot found
      rw [wp_bind,wp_pure]
      exact write slot ⟨by omega,fun _ => zero,by omega,fresh⟩
    | none =>
      rw [wp_bind]
      apply wp_total (sfsDirNentries_spec (s := s.tick m) isLoaded isDir.type isDir.aligned)
      rintro _ _ ⟨rfl,rfl⟩
      exact write _ ⟨Nat.le_refl _,fun lt => absurd lt (Nat.lt_irrefl _),by omega,fresh⟩
  · rintro e _ ⟨-,-,m,rfl⟩
    exact ⟨c.tick m,frame_tick s m,Or.inl rfl⟩

end Reading
end Os161
