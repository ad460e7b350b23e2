import Os161.SfsDirectory
import Os161.SfsHandles

/-! Names and link counts: the invariant of the whole file system, and what linking,
unlinking, loading and releasing do to it. -/
namespace Os161

open SfsFs

namespace FileView

def named (v : FileView) (k : Nat) : Finset Nat :=
  (Finset.range v.slots).filter fun i => (v.entry i).sfdIno ≠ 0 ∧ (v.entry i).sfdIno.toNat = k

def linksTo (v : FileView) (k : Nat) : Nat := (v.named k).card

section Entries
variable {v w : FileView} {slot i k ino : Nat} {sd : SfsDir} {name : CString} {strict : Prop}

theorem mem_named : i ∈ v.named k ↔ v.Taken i ∧ (v.entry i).sfdIno.toNat = k := by
  simp only [named,Taken,Finset.mem_filter,Finset.mem_range,and_assoc]

theorem linksTo_le (v : FileView) (k : Nat) : v.linksTo k ≤ v.slots := by
  have := Finset.card_filter_le (Finset.range v.slots)
    fun i => (v.entry i).sfdIno ≠ 0 ∧ (v.entry i).sfdIno.toNat = k
  rwa [Finset.card_range] at this

theorem linksTo_pos : 0 < v.linksTo k ↔ ∃ i, v.Taken i ∧ (v.entry i).sfdIno.toNat = k := by
  rw [linksTo,Finset.card_pos]
  exact exists_congr fun i => mem_named

theorem taken_writeSlot (aligned : v.size % 64 = 0) (place : slot ≤ v.slots) :
    (v.writeSlot slot sd).Taken i ↔ if i = slot then sd.sfdIno ≠ 0 else v.Taken i := by
  unfold Taken
  rw [entry_writeSlot,slots_writeSlot aligned]
  split
  · subst i
    simp
  · refine and_congr_left fun _ => ⟨fun h => ?_,Or.inl⟩
    rcases h with h | h
    · exact h
    · omega

theorem named_writeSlot (aligned : v.size % 64 = 0) (place : slot ≤ v.slots) :
    (v.writeSlot slot sd).named k =
      if sd.sfdIno ≠ 0 ∧ sd.sfdIno.toNat = k then insert slot ((v.named k).erase slot)
      else (v.named k).erase slot := by
  ext i
  rw [mem_named,taken_writeSlot aligned place,entry_writeSlot]
  by_cases same : i = slot
  · subst i
    rw [if_pos rfl,if_pos rfl]
    by_cases new : sd.sfdIno ≠ 0 ∧ sd.sfdIno.toNat = k
    · simp [new]
    · rw [if_neg new]
      simp [new]
  · rw [if_neg same,if_neg same]
    by_cases new : sd.sfdIno ≠ 0 ∧ sd.sfdIno.toNat = k
    · rw [if_pos new,Finset.mem_insert,Finset.mem_erase,mem_named]
      simp [same]
    · rw [if_neg new,Finset.mem_erase,mem_named]
      simp [same]

theorem linksTo_link (aligned : v.size % 64 = 0) (vacant : v.Vacant name.chars slot)
    (nonzero : ino ≠ 0) (fits : ino < 2^32) (k : Nat) :
    (v.writeSlot slot (SfsDir.make ino name.chars)).linksTo k =
      v.linksTo k + if k = ino then 1 else 0 := by
  have free : slot ∉ v.named k := by
    rw [mem_named]
    exact fun mem => mem.1.2 (vacant.empty mem.1.1)
  have number := SfsDir.make_ino fits name.chars
  have some_ : (SfsDir.make ino name.chars).sfdIno ≠ 0 := by
    intro zero
    rw [zero] at number
    exact nonzero number.symm
  simp only [linksTo,named_writeSlot aligned vacant.place,number,some_,ne_eq,not_false_eq_true,
    true_and,Finset.erase_eq_of_notMem free]
  by_cases same : ino = k
  · rw [if_pos same,if_pos same.symm,Finset.card_insert_of_notMem free]
  · rw [if_neg same,if_neg fun e => same e.symm,Nat.add_zero]

theorem linksTo_unlink (aligned : v.size % 64 = 0) (taken : v.Taken slot)
    (number : (v.entry slot).sfdIno.toNat = ino) (k : Nat) :
    (v.writeSlot slot (SfsDir.make 0 [])).linksTo k + (if k = ino then 1 else 0) =
      v.linksTo k := by
  have zero : ¬((SfsDir.make 0 []).sfdIno ≠ 0 ∧ (SfsDir.make 0 []).sfdIno.toNat = k) :=
    fun h => h.1 rfl
  simp only [linksTo,named_writeSlot aligned (Nat.le_of_lt taken.1),if_neg zero]
  by_cases same : k = ino
  · have mem : slot ∈ v.named k := mem_named.mpr ⟨taken,number.trans same.symm⟩
    rw [if_pos same,Finset.card_erase_add_one mem]
  · have notMem : slot ∉ v.named k := by
      rw [mem_named]
      exact fun mem => same (mem.2.symm.trans number)
    rw [if_neg same,Nat.add_zero,Finset.erase_eq_of_notMem notMem]

theorem IsDir.link (isDir : v.IsDir) (vacant : v.Vacant name.chars slot)
    (room : slot * 64 + 64 ≤ 143 * 512) :
    (v.writeSlot slot (SfsDir.make ino name.chars)).IsDir where
  type := isDir.type
  aligned := by
    have := isDir.aligned
    simp only [writeSlot]
    omega
  bound := Nat.max_le.mpr ⟨isDir.bound,room⟩
  distinct i j takenI takenJ same := by
    have stored := SfsDir.make_name ino name vacant.short
    rw [taken_writeSlot isDir.aligned vacant.place] at takenI takenJ
    rw [entry_writeSlot,entry_writeSlot] at same
    by_cases atI : i = slot <;> by_cases atJ : j = slot
    · rw [atI,atJ]
    · rw [if_pos atI,if_neg atJ,stored] at same
      rw [if_neg atJ] at takenJ
      exact absurd same.symm (vacant.fresh j takenJ)
    · rw [if_neg atI,if_pos atJ,stored] at same
      rw [if_neg atI] at takenI
      exact absurd same (vacant.fresh i takenI)
    · rw [if_neg atI,if_neg atJ] at same
      rw [if_neg atI] at takenI
      rw [if_neg atJ] at takenJ
      exact isDir.distinct i j takenI takenJ same

theorem IsDir.unlink (isDir : v.IsDir) (inside : slot < v.slots) :
    (v.writeSlot slot (SfsDir.make 0 [])).IsDir where
  type := isDir.type
  aligned := by
    have := isDir.aligned
    simp only [writeSlot]
    omega
  bound := by
    have := isDir.bound
    unfold slots at inside
    simp only [writeSlot]
    omega
  distinct i j takenI takenJ same := by
    rw [taken_writeSlot isDir.aligned (Nat.le_of_lt inside)] at takenI takenJ
    rw [entry_writeSlot,entry_writeSlot] at same
    have away : ∀ {n}, (if n = slot then (SfsDir.make 0 []).sfdIno ≠ 0 else v.Taken n) →
        n ≠ slot ∧ v.Taken n := by
      intro n h
      split at h
      · exact absurd rfl h
      · exact ⟨by assumption,h⟩
    rw [if_neg (away takenI).1,if_neg (away takenJ).1] at same
    exact isDir.distinct i j (away takenI).2 (away takenJ).2 same

structure Unchanged (strict : Prop) (v w : FileView) : Prop where
  isDir : w.IsDir
  links : w.links = v.links
  entry : w.entry = v.entry
  taken : ∀ i, w.Taken i ↔ v.Taken i
  beyond : ¬strict → ∀ o, w.size ≤ o → w.content o = 0

theorem entry_beyond (aligned : v.size % 64 = 0) (beyond : ∀ o, v.size ≤ o → v.content o = 0)
    (past : v.slots ≤ i) : (v.entry i).sfdIno = 0 := by
  have zero : ∀ j, v.content (i * 64 + j) = 0 := fun j => beyond _ (by unfold slots at past; omega)
  simp only [entry,SfsDir.ofBytes,zero]
  rfl

theorem Unchanged.refl (isDir : v.IsDir) (beyond : ¬strict → ∀ o, v.size ≤ o → v.content o = 0) :
    Unchanged strict v v := ⟨isDir,rfl,rfl,fun _ => Iff.rfl,beyond⟩

theorem Regrown.unchanged (grown : Regrown strict v w) (isDir : v.IsDir)
    (beyond : ¬strict → ∀ o, v.size ≤ o → v.content o = 0) : Unchanged strict v w := by
  rcases grown with rfl | ⟨lax,slot,-,room,rfl⟩
  · exact .refl isDir beyond
  · have aligned := isDir.aligned
    have taken : ∀ i, Taken { v with size := max v.size (slot * 64 + 64) } i ↔ v.Taken i := by
      intro i
      refine ⟨fun h => ⟨?_,h.2⟩,fun h => ⟨?_,h.2⟩⟩
      · by_contra past
        have zero : (v.entry i).sfdIno = 0 :=
          entry_beyond aligned (beyond lax) (Nat.le_of_not_lt past)
        exact h.2 zero
      · have := h.1
        unfold slots at this ⊢
        simp only
        omega
    refine ⟨⟨isDir.type,?_,Nat.max_le.mpr ⟨isDir.bound,room⟩,?_⟩,rfl,rfl,taken,fun _ o past =>
      beyond lax o (Nat.le_trans (Nat.le_max_left _ _) past)⟩
    · simp only
      omega
    · intro i j takenI takenJ
      exact isDir.distinct i j ((taken i).mp takenI) ((taken j).mp takenJ)

theorem Unchanged.linksTo (same : Unchanged strict v w) (k : Nat) : w.linksTo k = v.linksTo k := by
  have : w.named k = v.named k := by
    ext i
    rw [mem_named,mem_named,same.taken,same.entry]
  rw [FileView.linksTo,FileView.linksTo,this]

def Names (v : FileView) (n : List UInt8) (k : Nat) : Prop :=
  ∃ i, v.Taken i ∧ (v.entry i).name = n ∧ (v.entry i).sfdIno.toNat = k

theorem Unchanged.names (same : Unchanged strict v w) (n : List UInt8) (k : Nat) :
    w.Names n k ↔ v.Names n k := by
  simp only [Names,same.taken,same.entry]

theorem names_link (aligned : v.size % 64 = 0) (vacant : v.Vacant name.chars slot)
    (nonzero : ino ≠ 0) (fits : ino < 2^32) (n : List UInt8) (k : Nat) :
    (v.writeSlot slot (SfsDir.make ino name.chars)).Names n k ↔
      v.Names n k ∨ (n = name.chars ∧ k = ino) := by
  have number := SfsDir.make_ino fits name.chars
  have stored := SfsDir.make_name ino name vacant.short
  have some_ : (SfsDir.make ino name.chars).sfdIno ≠ 0 := by
    intro zero
    rw [zero] at number
    exact nonzero number.symm
  simp only [Names,taken_writeSlot aligned vacant.place,entry_writeSlot]
  constructor
  · rintro ⟨i,taken,same,of_⟩
    by_cases atSlot : i = slot
    · rw [if_pos atSlot] at same of_
      exact .inr ⟨same.symm.trans stored,of_.symm.trans number⟩
    · rw [if_neg atSlot] at taken same of_
      exact .inl ⟨i,taken,same,of_⟩
  · rintro (⟨i,taken,same,of_⟩ | ⟨rfl,rfl⟩)
    · have apart : i ≠ slot := by
        rintro rfl
        exact taken.2 (vacant.empty taken.1)
      refine ⟨i,?_⟩
      rw [if_neg apart,if_neg apart]
      exact ⟨taken,same,of_⟩
    · refine ⟨slot,?_⟩
      rw [if_pos rfl,if_pos rfl]
      exact ⟨some_,stored,number⟩

theorem names_unlink (isDir : v.IsDir) (taken : v.Taken slot) (n : List UInt8) (k : Nat) :
    (v.writeSlot slot (SfsDir.make 0 [])).Names n k ↔ v.Names n k ∧ n ≠ (v.entry slot).name := by
  simp only [Names,taken_writeSlot isDir.aligned (Nat.le_of_lt taken.1),entry_writeSlot]
  constructor
  · rintro ⟨i,takenI,same,of_⟩
    by_cases atSlot : i = slot
    · rw [if_pos atSlot] at takenI
      exact absurd rfl takenI
    · rw [if_neg atSlot] at takenI same of_
      refine ⟨⟨i,takenI,same,of_⟩,fun gone => atSlot ?_⟩
      exact isDir.distinct i slot takenI taken (same.trans gone)
  · rintro ⟨⟨i,takenI,same,of_⟩,other⟩
    have apart : i ≠ slot := by
      rintro rfl
      exact other same.symm
    refine ⟨i,?_⟩
    rw [if_neg apart,if_neg apart]
    exact ⟨takenI,same,of_⟩

theorem beyond_writeSlot (beyond : ∀ o, v.size ≤ o → v.content o = 0) (o : Nat)
    (past : (v.writeSlot slot sd).size ≤ o) : (v.writeSlot slot sd).content o = 0 := by
  have high := Nat.max_le.mp past
  simp only [writeSlot,overwrite]
  rw [if_neg (by omega)]
  exact beyond o high.1

end Entries
end FileView

namespace SfsFs

def linked (s : SfsFs) (k : Nat) : Prop :=
  ∃ i, (s.view 1).Taken i ∧ ((s.view 1).entry i).sfdIno.toNat = k

/-- An inode is in use while it is linked or its vnode is loaded; the root always is. -/
def Live (s : SfsFs) (k : Nat) : Prop := k = 1 ∨ s.loaded k ∨ s.linked k

/-- The invariant of a mounted file system. If `strict`, no device or memory failure has
happened or will happen, and no block is lost. -/
structure Inv (strict : Prop) (s : SfsFs) : Prop where
  consistent : Consistent strict s.Live ∅ s
  dir : (s.view 1).IsDir
  beyond : ¬strict → ∀ o, (s.view 1).size ≤ o → (s.view 1).content o = 0
  links : ∀ k, s.Live k → (s.view k).links = (s.view 1).linksTo k + if k = 1 then 1 else 0

section Invariant
variable {strict : Prop} {s t : SfsFs} {k slot : Nat} {name : CString}

theorem linked_iff : s.linked k ↔ 0 < (s.view 1).linksTo k := FileView.linksTo_pos.symm

theorem linked_congr (same : t.view 1 = s.view 1) : t.linked k ↔ s.linked k := by
  rw [linked,same]
  exact Iff.rfl

theorem Live.of_loaded (isLoaded : s.loaded k) : s.Live k := Or.inr (Or.inl isLoaded)

theorem Inv.root (_inv : Inv strict s) : s.Live 1 := Or.inl rfl

theorem Inv.notRoot (inv : Inv strict s) (zero : (s.view k).links = 0) : k ≠ 1 := by
  rintro rfl
  have := inv.links 1 inv.root
  rw [if_pos rfl] at this
  omega

theorem Inv.named_iff (inv : Inv strict s) (h : s.Live k) :
    (s.view k).links ≠ 0 ↔ k = 1 ∨ s.linked k := by
  rw [inv.links k h,linked_iff]
  split
  · simp [*]
  · simp only [*,false_or]
    omega

theorem Inv.links_small (inv : Inv strict s) (h : s.Live k) : (s.view k).links < 2^15 := by
  have le := (s.view 1).linksTo_le k
  have bound := inv.dir.bound
  rw [inv.links k h]
  unfold FileView.slots at le
  split <;> omega

theorem Inv.congr (inv : Inv strict s) (c : Consistent strict s.Live ∅ t)
    (live : ∀ j, t.Live j ↔ s.Live j) (views : ∀ j, s.Live j → t.view j = s.view j) :
    Inv strict t := by
  have dir := views 1 inv.root
  refine ⟨c.congr_live live,by rw [dir]; exact inv.dir,by rw [dir]; exact inv.beyond,fun j h => ?_⟩
  rw [views j ((live j).mp h),dir]
  exact inv.links j ((live j).mp h)

theorem Inv.framed (inv : Inv strict s) (c : Consistent strict s.Live ∅ t)
    (frame : Frame s.Live s t) : Inv strict t :=
  inv.congr c (fun j => by rw [Live,Live,frame.loaded,linked_congr (frame.views 1 inv.root)])
    frame.views

theorem Inv.later (inv : Inv strict s) (later : Later s t) : Inv strict t :=
  inv.framed (later.consistent inv.consistent) later.frame

theorem loaded_update {g : Option (Nat × Nat)} (handle : t.handle = Function.update s.handle k g)
    (j : Nat) : t.loaded j ↔ if j = k then g.isSome = true else s.loaded j := by
  rw [loaded_iff_handle,handle]
  split
  · subst j
    rw [Function.update_self,Option.isSome_iff_exists]
  · rw [Function.update_of_ne (by assumption),loaded_iff_handle]

theorem Inv.opened (inv : Inv strict s) (h : s.Live k) (opened : Opened strict s.Live ∅ k s t) :
    Inv strict t := by
  refine inv.congr opened.consistent (fun j => ?_) opened.views
  rw [Live,Live,linked_congr (opened.views 1 inv.root),loaded_update opened.handle]
  split
  · subst j
    exact ⟨fun _ => h,fun _ => Or.inr (Or.inl rfl)⟩
  · exact Iff.rfl

theorem Inv.made (inv : Inv strict s) (made : Made strict s.Live k s t) : Inv strict t := by
  have dir := made.views 1 inv.root
  have notRoot : k ≠ 1 := fun e => made.fresh (Or.inl e)
  have live : ∀ j, t.Live j ↔ s.Live j ∨ j = k := by
    intro j
    rw [Live,Live,linked_congr dir,loaded_update made.handle]
    by_cases same : j = k
    · simp [same]
    · simp [same]
  refine ⟨made.consistent.congr_live live,by rw [dir]; exact inv.dir,by rw [dir]; exact inv.beyond,
    fun j h => ?_⟩
  rcases (live j).mp h with old | rfl
  · rw [made.views j old,dir]
    exact inv.links j old
  · have unnamed : ¬0 < (s.view 1).linksTo j := fun pos =>
      made.fresh (Or.inr (Or.inr (linked_iff.mpr pos)))
    rw [made.view,dir,if_neg notRoot]
    omega

theorem links_released (released : Released strict s.Live k s t) {j : Nat} (h : s.Live j) :
    (t.view j).links = (s.view j).links := by
  by_cases same : j = k
  · rw [same,released.links]
  · rw [released.views j h fun e => absurd e same]

theorem Inv.released_dir (inv : Inv strict s) (h : s.Live k)
    (released : Released strict s.Live k s t) : t.view 1 = s.view 1 :=
  released.views 1 inv.root fun e => (inv.named_iff h).mpr (Or.inl e.symm)

theorem Inv.released (inv : Inv strict s) (h : s.Live k)
    (released : Released strict s.Live k s t) : Inv strict t := by
  obtain ⟨g,handle,less⟩ := released.handle
  have dir := inv.released_dir h released
  have loaded := loaded_update handle
  have live : ∀ j, t.Live j ↔ s.Live j ∧ (j = k → (s.view k).links ≠ 0 ∨ t.loaded k) := by
    intro j
    by_cases same : j = k
    · subst j
      simp only [h,true_and,true_implies,inv.named_iff h]
      rw [Live,linked_congr dir]
      exact ⟨fun l => l.elim (fun r => Or.inl (Or.inl r)) (fun l => l.elim Or.inr fun l => Or.inl (Or.inr l)),
        fun l => l.elim (fun r => r.imp_right Or.inr) (fun l => Or.inr (Or.inl l))⟩
    · rw [Live,Live,loaded,if_neg same,linked_congr dir]
      exact ⟨fun l => ⟨l,fun e => absurd e same⟩,fun l => l.1⟩
  refine ⟨released.consistent.congr_live live,by rw [dir]; exact inv.dir,
    by rw [dir]; exact inv.beyond,fun j hj => ?_⟩
  have before := ((live j).mp hj).1
  rw [links_released released before,dir]
  exact inv.links j before

theorem Frame.live_iff (frame : Frame (Others s.Live k) s t) (notRoot : k ≠ 1) (j : Nat) :
    t.Live j ↔ s.Live j := by
  have dir := frame.views 1 ⟨Or.inl rfl,notRoot.symm⟩
  rw [Live,Live,frame.loaded,linked_congr dir]

theorem Inv.wrote (inv : Inv strict s) (c : Consistent strict s.Live ∅ t)
    (frame : Frame (Others s.Live k) s t) (notRoot : k ≠ 1)
    (links : (t.view k).links = (s.view k).links) : Inv strict t := by
  have dir := frame.views 1 ⟨inv.root,notRoot.symm⟩
  have live := frame.live_iff notRoot
  refine ⟨c.congr_live live,by rw [dir]; exact inv.dir,by rw [dir]; exact inv.beyond,fun j h => ?_⟩
  have before := (live j).mp h
  have same : (t.view j).links = (s.view j).links := by
    by_cases atK : j = k
    · rw [atK,links]
    · rw [frame.views j ⟨before,atK⟩]
  rw [same,dir]
  exact inv.links j before

theorem Inv.regrown (inv : Inv strict s) (c : Consistent strict s.Live ∅ t)
    (frame : Frame (Others s.Live 1) s t)
    (grown : FileView.Regrown strict (s.view 1) (t.view 1)) : Inv strict t := by
  have same := grown.unchanged inv.dir inv.beyond
  have linked : ∀ j, t.linked j ↔ s.linked j := fun j => by
    rw [linked_iff,linked_iff,same.linksTo]
  have live : ∀ j, t.Live j ↔ s.Live j := fun j => by rw [Live,Live,frame.loaded,linked]
  refine ⟨c.congr_live live,same.isDir,same.beyond,fun j h => ?_⟩
  have before := (live j).mp h
  have links : (t.view j).links = (s.view j).links := by
    by_cases atRoot : j = 1
    · rw [atRoot,same.links]
    · rw [frame.views j ⟨before,atRoot⟩]
  rw [links,same.linksTo]
  exact inv.links j before

def relinked (s : SfsFs) (k : Nat) (g : UInt16 → UInt16) : SfsFs :=
  s.edit k fun i => { i with sfiLinkcount := g i.sfiLinkcount }

theorem view_relinked (isLoaded : s.loaded k) (g : UInt16 → UInt16) :
    (s.relinked k g).view k =
      { s.view k with links := (g (s.inode k).sfiLinkcount).toNat } := by
  have inode : (s.relinked k g).inode k =
      { s.inode k with sfiLinkcount := g (s.inode k).sfiLinkcount } := by
    rw [relinked,inode_edit isLoaded,if_pos rfl]
  have datas := fun n => (data_editMeta isLoaded
    (f := fun i => { i with sfiLinkcount := g i.sfiLinkcount }) (fun _ => rfl) (fun _ => rfl) n).2
  refine FileView.ext (by simp only [view,inode]) (by simp only [view,inode])
    (by simp only [view,inode]) (funext fun o => ?_)
  simp only [view]
  rw [relinked,datas]

theorem view_relinked_other (isLoaded : s.loaded k) (g : UInt16 → UInt16) {j : Nat} (ne : j ≠ k) :
    (s.relinked k g).view j = s.view j := view_edit_other isLoaded ne

theorem Consistent.relinked {live : Nat → Prop} (c : Consistent strict live ∅ s)
    (isLoaded : s.loaded k) (g : UInt16 → UInt16) : Consistent strict live ∅ (s.relinked k g) :=
  c.editMeta isLoaded (fun _ => rfl) (fun _ => rfl) (fun _ => rfl)

theorem handle_relinked (s : SfsFs) (k : Nat) (g : UInt16 → UInt16) :
    (s.relinked k g).handle = s.handle := handle_edit s k _

theorem Inv.relink (inv : Inv strict s) (c : Consistent strict s.Live ∅ t)
    (frame : Frame (Others s.Live 1) s t) (isLoaded : s.loaded k) (isDir : (t.view 1).IsDir)
    (rootLinks : (t.view 1).links = (s.view 1).links)
    (beyond : ¬strict → ∀ o, (t.view 1).size ≤ o → (t.view 1).content o = 0)
    (others : ∀ j, j ≠ k → (t.view 1).linksTo j = (s.view 1).linksTo j) {g : UInt16 → UInt16}
    (count : (g (t.inode k).sfiLinkcount).toNat =
      (t.view 1).linksTo k + if k = 1 then 1 else 0) : Inv strict (t.relinked k g) := by
  have loadedT : t.loaded k := frame.loaded.mpr isLoaded
  -- the directory as such is the same before and after the count is changed
  obtain ⟨n,dir⟩ : ∃ n, (t.relinked k g).view 1 = { t.view 1 with links := n } := by
    by_cases root : (1 : Nat) = k
    · subst root
      exact ⟨_,view_relinked loadedT g⟩
    · exact ⟨_,view_relinked_other loadedT g root⟩
  have counts : ∀ j, ((t.relinked k g).view 1).linksTo j = (t.view 1).linksTo j := fun j => by
    rw [dir]
    rfl
  have loaded : ∀ j, (t.relinked k g).loaded j ↔ s.loaded j := fun j => by
    rw [loaded_iff_handle,handle_relinked,frame.handle,loaded_iff_handle]
  have live : ∀ j, (t.relinked k g).Live j ↔ s.Live j := by
    intro j
    by_cases same : j = k
    · subst j
      exact ⟨fun _ => .of_loaded isLoaded,fun _ => .of_loaded ((loaded k).mpr isLoaded)⟩
    · rw [Live,Live,loaded,linked_iff,linked_iff,counts,others j same]
  refine ⟨(c.relinked loadedT g).congr_live live,?_,?_,fun j h => ?_⟩
  · rw [dir]
    exact ⟨isDir.type,isDir.aligned,isDir.bound,isDir.distinct⟩
  · rw [dir]
    exact beyond
  · rw [counts]
    by_cases same : j = k
    · subst j
      rw [view_relinked loadedT g]
      exact count
    · have before := (live j).mp h
      have links : (t.view j).links = (s.view j).links := by
        by_cases atRoot : j = 1
        · rw [atRoot,rootLinks]
        · rw [frame.views j ⟨before,atRoot⟩]
      rw [view_relinked_other loadedT g same,links,others j same]
      exact inv.links j before

theorem links_frame (inv : Inv strict s) (frame : Frame (Others s.Live 1) s t)
    (rootLinks : (t.view 1).links = (s.view 1).links) (h : s.Live k) :
    (t.inode k).sfiLinkcount.toNat = (s.view 1).linksTo k + if k = 1 then 1 else 0 := by
  rw [← inv.links k h]
  change (t.view k).links = _
  by_cases atRoot : k = 1
  · rw [atRoot,rootLinks]
  · rw [frame.views k ⟨h,atRoot⟩]

theorem Inv.link (inv : Inv strict s) (c : Consistent strict s.Live ∅ t)
    (frame : Frame (Others s.Live 1) s t) (isLoaded : s.loaded k) (nonzero : k ≠ 0) (fits : k < 2^32)
    (room : slot * 64 + 64 ≤ 143 * 512) (vacant : (s.view 1).Vacant name.chars slot)
    (view : t.view 1 = (s.view 1).writeSlot slot (SfsDir.make k name.chars)) :
    Inv strict (t.relinked k (· + 1)) := by
  have counts := FileView.linksTo_link inv.dir.aligned vacant nonzero fits
  rw [← view] at counts
  have before := links_frame inv frame (by rw [view]; rfl) (.of_loaded isLoaded)
  have small := inv.links_small (.of_loaded isLoaded)
  rw [inv.links k (.of_loaded isLoaded),← before] at small
  refine inv.relink c frame isLoaded (by rw [view]; exact inv.dir.link vacant room)
    (by rw [view]; rfl) (fun lax => by rw [view]; exact FileView.beyond_writeSlot (inv.beyond lax))
    (fun j ne => by rw [counts,if_neg ne,Nat.add_zero]) ?_
  rw [counts,if_pos rfl,UInt16.toNat_add,before]
  rw [before] at small
  rw [Nat.mod_eq_of_lt (by change _ + 1 < _; omega)]
  change _ + 1 = _
  omega

theorem Inv.unlink (inv : Inv strict s) (c : Consistent strict s.Live ∅ t)
    (frame : Frame (Others s.Live 1) s t) (isLoaded : s.loaded k)
    (taken : (s.view 1).Taken slot) (number : ((s.view 1).entry slot).sfdIno.toNat = k)
    (view : t.view 1 = (s.view 1).writeSlot slot (SfsDir.make 0 [])) :
    Inv strict (t.relinked k (· - 1)) := by
  have counts := FileView.linksTo_unlink inv.dir.aligned taken number
  rw [← view] at counts
  have before := links_frame inv frame (by rw [view]; rfl) (.of_loaded isLoaded)
  refine inv.relink c frame isLoaded (by rw [view]; exact inv.dir.unlink taken.1)
    (by rw [view]; rfl) (fun lax => by rw [view]; exact FileView.beyond_writeSlot (inv.beyond lax))
    (fun j ne => by rw [← counts,if_neg ne,Nat.add_zero]) ?_
  have one := counts k
  rw [if_pos rfl] at one
  rw [UInt16.toNat_sub_of_le,before]
  · change _ - 1 = _
    omega
  · rw [UInt16.le_iff_toNat_le,before]
    change 1 ≤ _
    omega

theorem Inv.links_of_counts (inv : Inv strict s) (after : Inv strict t) {j a b : Nat}
    (h : s.Live j) (hAfter : t.Live j)
    (counts : (t.view 1).linksTo j + a = (s.view 1).linksTo j + b) :
    (t.view j).links + a = (s.view j).links + b := by
  rw [inv.links j h,after.links j hAfter]
  omega

end Invariant
end SfsFs
end Os161
