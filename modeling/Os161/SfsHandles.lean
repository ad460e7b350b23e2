import Mathlib.Logic.Function.Basic
import Os161.SfsTruncate

/-! The vnode table: loading an inode, giving up a reference, and what reclaiming the
last one does to the inode on the disk. -/
namespace Os161

namespace SfsFs

def Later (s t : SfsFs) : Prop :=
  ∃ n m, t = { s.tick n with kmalloc := fun i => s.kmalloc (m + i) }

def withVnodes (s : SfsFs) (vs : List SfsVnode) (max : Nat) : SfsFs :=
  { s with sfsVnodes := vs, vnodesMax := max }

def Handle.more : Option (Nat × Nat) → Nat × Nat
  | none => (1,0)
  | some (refs,opens) => (refs + 1,opens)

def Handle.less : Option (Nat × Nat) → Option (Nat × Nat)
  | some (refs + 2,opens) => some (refs + 1,opens)
  | _ => none

section Table
variable {strict : Prop} {live : Nat → Prop} {held : Set Nat} {s t u : SfsFs} {k : Nat}
  {vs : List SfsVnode} {max : Nat}

theorem Later.refl (s : SfsFs) : Later s s := ⟨0,0,by simp⟩

theorem Later.tick (s : SfsFs) (n : Nat) : Later s (s.tick n) :=
  ⟨n,0,by simp only [Nat.zero_add]; rfl⟩

theorem Later.trans (first : Later s t) (second : Later t u) : Later s u := by
  obtain ⟨n,m,rfl⟩ := first
  obtain ⟨n',m',rfl⟩ := second
  refine ⟨n + n',m + m',?_⟩
  simp only [SfsFs.tick,setDisk,disk,Disk.tick,Nat.add_assoc]

theorem Later.geometry (later : Later s t) (g : s.Geometry strict) : t.Geometry strict := by
  obtain ⟨n,m,rfl⟩ := later
  have ticked := g.tick n
  exact ⟨ticked.honest,fun h => ⟨(ticked.reliable h).1,fun i => (ticked.reliable h).2 (m + i)⟩,
    ticked.blocksize,ticked.inside,ticked.fits,ticked.bits,ticked.tail⟩

theorem Later.consistent (later : Later s t) (c : Consistent strict live held s) :
    Consistent strict live held t := by
  have geometry := later.geometry c.geometry
  obtain ⟨n,m,rfl⟩ := later
  have ticked := c.tick n
  exact {
    geometry := geometry
    durable := ⟨ticked.durable.magic,ticked.durable.named,ticked.durable.super,ticked.durable.map,
      ticked.durable.inode⟩
    table := ⟨ticked.table.nodup,ticked.table.live,ticked.table.referenced,ticked.table.ops⟩
    owned := ticked.owned.congr
      (claims_congr rfl (fun _ _ => rfl) (fun _ _ => rfl) (fun _ _ _ _ => rfl))
    root := ticked.root
    typed := ticked.typed }

theorem Later.frame (later : Later s t) : Frame live s t := by
  obtain ⟨n,m,rfl⟩ := later
  exact ⟨rfl,fun _ _ => rfl,rfl⟩

theorem Later.reading (later : Later s t) : t.sectors = s.sectors ∧ t.inode = s.inode ∧
    t.vnode? = s.vnode? ∧ t.sfsFreemap = s.sfsFreemap ∧ t.sfsSuper = s.sfsSuper := by
  obtain ⟨n,m,rfl⟩ := later
  exact ⟨rfl,rfl,rfl,rfl,rfl⟩

theorem Consistent.withVnodes (c : Consistent strict live held s)
    (inodes : ∀ j, live j → (s.withVnodes vs max).inode j = s.inode j)
    (table : Table live (s.withVnodes vs max))
    (clean : ∀ j v, (s.withVnodes vs max).vnode? j = some v → v.svDirty = false →
      SfsInode.ofBlock (s.sectors j) = v.svI) :
    Consistent strict live held (s.withVnodes vs max) where
  geometry := ⟨c.geometry.honest,c.geometry.reliable,c.geometry.blocksize,c.geometry.inside,
    c.geometry.fits,c.geometry.bits,c.geometry.tail⟩
  durable := ⟨c.durable.magic,c.durable.named,c.durable.super,c.durable.map,clean⟩
  table := table
  owned := c.owned.congr <| claims_congr rfl (fun j h => by rw [inodes j h])
    (fun j h => by rw [indirect,indirect,inodes j h])
    (fun j h i _ => slot_congr (inodes j h) (fun _ => rfl) i)
  root := c.root
  typed := fun j h => by rw [inodes j h]; exact c.typed j h

theorem view_withVnodes {j : Nat} (same : (s.withVnodes vs max).inode j = s.inode j) :
    (s.withVnodes vs max).view j = s.view j := by
  refine view_congr (by rw [same]) (by rw [same]) (by rw [same]) fun n => ?_
  unfold data
  rw [block_congr same fun _ => rfl]
  rfl

/-! One vnode comes or goes, or its counts change -/

def adopt (s : SfsFs) (v : SfsVnode) (max : Nat) : SfsFs := s.withVnodes (s.sfsVnodes ++ [v]) max

theorem not_loaded_iff : ¬s.loaded k ↔ s.vnode? k = none := by
  rw [loaded_iff]
  cases s.vnode? k <;> simp

variable {v : SfsVnode}

theorem vnode?_adopt (ino : v.svIno = k) (absent : ¬s.loaded k) (j : Nat) :
    (s.adopt v max).vnode? j = if j = k then some v else s.vnode? j := by
  subst ino
  simp only [vnode?,adopt,SfsFs.withVnodes,List.find?_append]
  by_cases same : j = v.svIno
  · subst j
    have none_ : s.sfsVnodes.find? (fun w => w.svIno = v.svIno) = none := not_loaded_iff.mp absent
    simp [none_]
  · have other : ¬v.svIno = j := fun e => same e.symm
    simp [same,other]

theorem vnode?_drop (nodup : (s.sfsVnodes.map SfsVnode.svIno).Nodup) (j : Nat) :
    (s.drop k).vnode? j = if j = k then none else s.vnode? j := by
  simp only [vnode?,drop]
  generalize s.sfsVnodes = vs at nodup ⊢
  induction vs with
  | nil => simp
  | cons v vs ih =>
    simp only [List.map_cons,List.nodup_cons] at nodup
    by_cases here : v.svIno = k
    · -- the rest of the table holds no second vnode of that number
      have gone : vs.find? (fun w => w.svIno = k) = none := by
        rw [List.find?_eq_none]
        intro w mem
        simp only [decide_eq_true_eq]
        exact fun e => nodup.1 (List.mem_map.mpr ⟨w,mem,e.trans here.symm⟩)
      by_cases same : j = k
      · subst j
        simp [here,gone]
      · have ne : ¬v.svIno = j := fun e => same (e.symm.trans here)
        have ne' : ¬k = j := fun e => same e.symm
        simp [here,same,ne']
    · by_cases same : v.svIno = j
      · have ne : ¬j = k := fun e => here (same.trans e)
        simp [same,ne]
      · simpa [here,same] using ih nodup.2

theorem vnode?_of_mem (nodup : (vs.map SfsVnode.svIno).Nodup)
    (mem : v ∈ vs) : vs.find? (fun w => w.svIno = v.svIno) = some v := by
  induction vs with
  | nil => exact nomatch mem
  | cons w ws ih =>
    rw [List.map_cons,List.nodup_cons] at nodup
    rcases List.mem_cons.mp mem with rfl | mem
    · simp
    · have ne : w.svIno ≠ v.svIno := fun e => nodup.1 (List.mem_map.mpr ⟨v,mem,e.symm⟩)
      simpa [ne] using ih nodup.2 mem

theorem handle_of_vnode? {g : Option (Nat × Nat)}
    (others : ∀ j, j ≠ k → t.vnode? j = s.vnode? j)
    (self : (t.vnode? k).map (fun v => (v.vnRefcount,v.vnOpencount)) = g) :
    t.handle = Function.update s.handle k g := by
  funext j
  by_cases same : j = k
  · subst j
    rw [Function.update_self]
    exact self
  · rw [Function.update_of_ne same]
    simp only [handle,others j same]

theorem inode_update {f : SfsVnode → SfsVnode} (ino : ∀ v, (f v).svIno = v.svIno)
    (inode : ∀ v, (f v).svI = v.svI) : (s.update k f).inode = s.inode := by
  funext j
  simp only [SfsFs.inode,vnode?_update s k ino]
  by_cases same : j = k
  · rw [if_pos same]
    cases s.vnode? j with
    | none => rfl
    | some v => exact inode v
  · rw [if_neg same]
    rfl

theorem Consistent.recount (c : Consistent strict live held s) {f : SfsVnode → SfsVnode}
    (ino : ∀ v, (f v).svIno = v.svIno) (inode : ∀ v, (f v).svI = v.svI)
    (ops : ∀ v, (f v).vnOps = v.vnOps) (refs : ∀ v, s.vnode? k = some v → 0 < (f v).vnRefcount)
    (clean : ∀ v, s.vnode? k = some v → (f v).svDirty = false →
      SfsInode.ofBlock (s.sectors k) = v.svI) :
    Consistent strict live held (s.update k f) := by
  have origin : ∀ j v, (s.update k f).vnode? j = some v →
      s.vnode? j = some v ∨ (j = k ∧ ∃ w, s.vnode? k = some w ∧ v = f w) := by
    intro j v found
    rw [vnode?_update s k ino] at found
    by_cases same : j = k
    · subst j
      rw [if_pos rfl] at found
      obtain ⟨w,atK,rfl⟩ := Option.map_eq_some_iff.mp found
      exact Or.inr ⟨rfl,w,atK,rfl⟩
    · rw [if_neg same] at found
      exact Or.inl found
  refine c.withVnodes (fun j _ => congrFun (inode_update ino inode) j) ⟨?_,?_,?_,?_⟩ ?_
  · exact (update_inos s k ino).symm ▸ c.table.nodup
  · intro j v found
    rcases origin j v found with old | ⟨rfl,w,atK,rfl⟩
    · exact c.table.live j v old
    · exact c.table.live j w atK
  · intro j v found
    rcases origin j v found with old | ⟨rfl,w,atK,rfl⟩
    · exact c.table.referenced j v old
    · exact refs w atK
  · intro j v found
    rcases origin j v found with old | ⟨rfl,w,atK,rfl⟩
    · exact c.table.ops j v old
    · rw [ops]
      exact c.table.ops j w atK
  · intro j v found notDirty
    rcases origin j v found with old | ⟨rfl,w,atK,rfl⟩
    · exact c.durable.inode j v old notDirty
    · rw [inode]
      exact clean w atK notDirty

theorem inode_adopt (ino : v.svIno = k) (absent : ¬s.loaded k) (j : Nat) :
    (s.adopt v max).inode j = if j = k then v.svI else s.inode j := by
  by_cases same : j = k
  · simp only [inode,vnode?_adopt ino absent,if_pos same]
  · simp only [inode,vnode?_adopt ino absent,if_neg same]
    rfl

theorem Table.adopt {live' : Nat → Prop} (table : s.Table live) (more : ∀ j, live j → live' j) (absent : ¬s.loaded v.svIno) (alive : live' v.svIno)
    (refs : 0 < v.vnRefcount) (ops : v.vnOps = if v.svIno = 1 then .dirops else .fileops) :
    (s.adopt v max).Table live' := by
  have origin : ∀ j w, (s.adopt v max).vnode? j = some w →
      s.vnode? j = some w ∨ (j = v.svIno ∧ w = v) := by
    intro j w found
    rw [vnode?_adopt rfl absent] at found
    split at found
    · exact Or.inr ⟨by assumption,(Option.some.inj found).symm⟩
    · exact Or.inl found
  refine ⟨?_,?_,?_,?_⟩
  · have ne : ∀ w ∈ s.sfsVnodes, w.svIno ≠ v.svIno := fun w mem e => absent ⟨w,mem,e⟩
    simp only [SfsFs.adopt,SfsFs.withVnodes,List.map_append,List.map_cons,List.map_nil]
    rw [List.nodup_append]
    refine ⟨table.nodup,List.nodup_singleton _,?_⟩
    intro a inOld b inNew
    obtain ⟨w,mem,rfl⟩ := List.mem_map.mp inOld
    rw [List.mem_singleton.mp inNew]
    exact ne w mem
  · intro j w found
    rcases origin j w found with old | ⟨rfl,rfl⟩
    · exact more j (table.live j w old)
    · exact alive
  · intro j w found
    rcases origin j w found with old | ⟨rfl,rfl⟩
    · exact table.referenced j w old
    · exact refs
  · intro j w found
    rcases origin j w found with old | ⟨rfl,rfl⟩
    · exact table.ops j w old
    · exact ops

theorem Consistent.adopt (c : Consistent strict live held s) (max : Nat)
    (h : live v.svIno)
    (absent : ¬s.loaded v.svIno) (same : v.svI = SfsInode.ofBlock (s.sectors v.svIno))
    (refs : 0 < v.vnRefcount) (ops : v.vnOps = if v.svIno = 1 then .dirops else .fileops) :
    Consistent strict live held (s.adopt v max) ∧
      ∀ j, live j → (s.adopt v max).view j = s.view j := by
  have inodes : ∀ j, (s.adopt v max).inode j = s.inode j := by
    intro j
    rw [inode_adopt rfl absent]
    split
    · subst j
      rw [same]
      simp only [inode,not_loaded_iff.mp absent]
    · rfl
  refine ⟨c.withVnodes (fun j _ => inodes j) (c.table.adopt (fun _ h => h) absent h refs ops) ?_,
    fun j _ => view_withVnodes (inodes j)⟩
  intro j w found clean
  have found : (s.adopt v max).vnode? j = some w := found
  rw [vnode?_adopt rfl absent] at found
  split at found
  · obtain rfl := Option.some.inj found
    subst j
    exact same.symm
  · exact c.durable.inode j w found clean

def newInode : SfsInode := { SfsInode.ofBlock Block.zero with sfiType := sfsTypeFile }

theorem newInode_direct (n : Nat) : newInode.direct n = 0 := by
  simp only [SfsInode.direct,newInode,SfsInode.ofBlock,Block.word_zero]
  split <;> rfl

theorem claims_others (direct : ∀ i, (s.inode k).direct i = 0) (noIndirect : s.indirect k = 0)
    {o : Owner} (other : o ≠ .inode k) (b : Nat) :
    s.Claims (Others live k) o b ↔ s.Claims live o b := by
  refine ⟨fun claim => ?_,fun claim => ?_⟩
  · cases o with
    | super | map j => exact claim
    | inode j | direct j i | indirect j | slot j i => exact ⟨claim.1.1,claim.2⟩
  · cases o with
    | super | map j => exact claim
    | inode j => exact ⟨⟨claim.1,fun e => other (by rw [e])⟩,claim.2⟩
    | direct j i =>
      refine ⟨⟨claim.1,?_⟩,claim.2⟩
      rintro rfl
      exact claim.2.2 (claim.2.1.trans (direct i))
    | indirect j =>
      refine ⟨⟨claim.1,?_⟩,claim.2⟩
      rintro rfl
      exact claim.2.2 (claim.2.1.trans noIndirect)
    | slot j i =>
      refine ⟨⟨claim.1,?_⟩,claim.2⟩
      rintro rfl
      exact claim.2.2.2 (claim.2.2.1.trans (by rw [slot,if_pos noIndirect]))

theorem Consistent.enlist (c : Consistent strict live {k} s) (max : Nat)
    (ino : v.svIno = k)
    (inode : v.svI = newInode) (refs : 0 < v.vnRefcount) (ops : v.vnOps = .fileops)
    (dirty : v.svDirty = true) :
    Consistent strict (fun j => live j ∨ j = k) ∅ (s.adopt v max) ∧
      (∀ j, live j → (s.adopt v max).view j = s.view j) ∧ ¬live k ∧ ¬s.loaded k := by
  subst ino
  have dead : ¬live v.svIno := fun h =>
    c.unclaimed (Set.mem_singleton _) (.inode v.svIno) ⟨h,rfl⟩
  have absent : ¬s.loaded v.svIno := by
    intro isLoaded
    obtain ⟨w,found⟩ := loaded_iff.mp isLoaded
    exact dead (c.table.live _ w found)
  have notRoot : v.svIno ≠ 1 := fun e => dead (e ▸ c.root)
  have old : ∀ j, live j → (s.adopt v max).inode j = s.inode j := fun j h => by
    have diff : j ≠ v.svIno := fun e => dead (e ▸ h)
    rw [inode_adopt rfl absent,if_neg diff]
  have new : (s.adopt v max).inode v.svIno = newInode := by
    rw [inode_adopt rfl absent,if_pos rfl,inode]
  have noIndirect : (s.adopt v max).indirect v.svIno = 0 := by
    rw [indirect,new]
    rfl
  have slots : ∀ j, live j → ∀ i, (s.adopt v max).slot j i = s.slot j i := fun j h i =>
    slot_congr (old j h) (fun _ => rfl) i
  have others : Others (fun j => live j ∨ j = v.svIno) v.svIno = live := funext fun j =>
    propext ⟨fun h => h.1.resolve_right h.2,fun h => ⟨Or.inl h,fun e => dead (e ▸ h)⟩⟩
  refine ⟨?_,fun j h => view_withVnodes (old j h),dead,absent⟩
  exact {
    geometry := ⟨c.geometry.honest,c.geometry.reliable,c.geometry.blocksize,c.geometry.inside,
      c.geometry.fits,c.geometry.bits,c.geometry.tail⟩
    durable := {
      magic := c.durable.magic
      named := c.durable.named
      super := c.durable.super
      map := c.durable.map
      inode := by
        intro j w found clean
        rw [vnode?_adopt rfl absent] at found
        split at found
        · obtain rfl := Option.some.inj found
          exact Bool.noConfusion (dirty.symm.trans clean)
        · exact c.durable.inode j w found clean }
    table := c.table.adopt (fun _ h => Or.inl h) absent (Or.inr rfl) refs
      (by rw [if_neg notRoot,ops])
    owned := by
      have owned : Owned strict (s.Claims live) (insert v.svIno ∅) s.used := by
        rw [insert_empty_eq]
        exact c.owned
      refine owned.give (a := .inode v.svIno) (Set.notMem_empty _) (fun _ h => dead h.1)
        (fun a => ⟨fun h => h.2,fun e => ⟨Or.inr rfl,e⟩⟩) ?_
      -- the new inode has no pointers, so every other claim is as before
      intro o other b
      rw [← claims_others (fun i => by rw [new,newInode_direct]) noIndirect other,others]
      exact claims_congr (t := s.adopt v max) (s := s) rfl (fun j h => by rw [old j h])
        (fun j h => by rw [indirect,indirect,old j h]) (fun j h i _ => slots j h i) o b
    root := Or.inl c.root
    typed := by
      rintro j (h | rfl)
      · rw [old j h]
        exact c.typed j h
      · rw [new,if_neg notRoot]
        rfl }

theorem inode_drop (c : Consistent strict live held s)
    (clean : ∀ v, s.vnode? k = some v → v.svDirty = false) : (s.drop k).inode = s.inode := by
  funext j
  by_cases same : j = k
  · subst j
    simp only [inode,vnode?_drop c.table.nodup,if_pos]
    cases found : s.vnode? k with
    | none => rfl
    | some v => exact c.durable.inode k v found (clean v found)
  · simp only [inode,vnode?_drop c.table.nodup,if_neg same]
    rfl

theorem Consistent.drop (c : Consistent strict live held s)
    (clean : ∀ v, s.vnode? k = some v → v.svDirty = false) :
    Consistent strict live held (s.drop k) ∧ ∀ j, (s.drop k).view j = s.view j := by
  have inodes := inode_drop c clean
  have origin : ∀ j v, (s.drop k).vnode? j = some v → s.vnode? j = some v := by
    intro j v found
    rw [vnode?_drop c.table.nodup] at found
    split at found
    · exact nomatch found
    · exact found
  refine ⟨c.withVnodes (fun j _ => congrFun inodes j) ⟨?_,?_,?_,?_⟩ ?_,
    fun j => view_withVnodes (congrFun inodes j)⟩
  · exact c.table.nodup.sublist (List.eraseP_sublist.map SfsVnode.svIno)
  · exact fun j v found => c.table.live j v (origin j v found)
  · exact fun j v found => c.table.referenced j v (origin j v found)
  · exact fun j v found => c.table.ops j v (origin j v found)
  · exact fun j v found => c.durable.inode j v (origin j v found)

theorem Consistent.erase (c : Consistent strict live ∅ s) (h : live k) (notRoot : k ≠ 1)
    (absent : ¬s.loaded k) (blocks : ∀ n, s.block k n = 0) (indirect : s.indirect k = 0) :
    Consistent strict (Others live k) ∅ (s.unmark k) := by
  have direct : ∀ i, (s.inode k).direct i = 0 := by
    intro i
    by_cases small : i < 15
    · have zero := blocks i
      rwa [block,if_pos small] at zero
    · simp [SfsInode.direct,small]
  have seized : (∅ : Set Nat) ∪ {b | ∃ o ∈ ({.inode k} : Set Owner), s.Claims live o b} = {k} := by
    ext b
    simp only [Set.empty_union,Set.mem_ofPred_eq,Set.mem_singleton_iff]
    constructor
    · rintro ⟨o,rfl,claim⟩
      exact claim.2
    · rintro rfl
      exact ⟨_,rfl,h,rfl⟩
  have owned := c.owned.seize {.inode k}
    (by rintro o rfl b claim; exact claim.1.2 rfl)
    (fun o other b => claims_others direct indirect other b)
  rw [seized] at owned
  have held : Consistent strict (Others live k) {k} s := {
    geometry := c.geometry
    durable := c.durable
    table := {
      nodup := c.table.nodup
      live := fun j v found => ⟨c.table.live j v found,fun e =>
        absent (loaded_iff.mpr ⟨v,e ▸ found⟩)⟩
      referenced := c.table.referenced
      ops := c.table.ops }
    owned := owned
    root := ⟨c.root,notRoot.symm⟩
    typed := fun j h => c.typed j h.1 }
  have released := held.release (Set.mem_singleton k)
  rwa [Set.sdiff_self] at released

theorem Consistent.storeInode (c : Consistent strict live held s) (h : live k) :
    let t := s.store k (s.inode k).toBlock
    Consistent strict live held t ∧ t.inode = s.inode ∧ (∀ j, live j → t.block j = s.block j) ∧
      ∀ j, live j → t.view j = s.view j := by
  intro t
  have owner : ∀ o, s.Claims live o k → o = .inode k := fun o claim =>
    c.owned.unique claim ⟨h,rfl⟩
  have inodes : t.inode = s.inode := by
    funext j
    by_cases same : j = k
    · subst j
      have sector : t.sectors k = (s.inode k).toBlock := by rw [store_sectors,if_pos rfl]
      have vnode : t.vnode? k = s.vnode? k := rfl
      cases found : s.vnode? k with
      | none => simp only [inode,vnode,found,sector,SfsInode.toBlock_ofBlock]
      | some v => simp only [inode,vnode,found]
    · exact inode_store same
  have away : ∀ j, live j → s.indirect j ≠ 0 → t.sectors (s.indirect j) = s.sectors (s.indirect j) := by
    intro j hj some_
    rw [store_sectors,if_neg]
    intro e
    cases owner (.indirect j) (e ▸ ⟨hj,rfl,some_⟩)
  have blocks : ∀ j, live j → t.block j = s.block j := fun j hj =>
    funext (block_congr (congrFun inodes j) (away j hj))
  have datas : ∀ j, live j → ∀ n, t.data j n = s.data j n := by
    intro j hj n
    unfold data
    rw [blocks j hj]
    split
    · rfl
    · rename_i some_
      rw [store_sectors,if_neg]
      intro e
      have claim : s.Claims live (dataOwner j n) (s.block j n) :=
        (claims_data (block_lt some_)).mpr ⟨hj,rfl,some_⟩
      rw [e] at claim
      exact (owner _ claim ▸ dataOwner_isData j n : (Owner.inode k).IsData)
  refine ⟨?_,inodes,blocks,fun j hj => view_congr (by rw [inodes]) (by rw [inodes]) (by rw [inodes])
    (datas j hj)⟩
  exact {
    geometry := c.geometry.store k _
    durable := {
      magic := c.durable.magic
      named := c.durable.named
      super := fun clean => by
        rw [store_sectors,if_neg fun e => Owner.noConfusion (owner .super e.symm)]
        exact c.durable.super clean
      map := fun clean j small => by
        rw [store_sectors,if_neg fun e => Owner.noConfusion (owner (.map j) ⟨small,e.symm⟩)]
        exact c.durable.map clean j small
      inode := fun j v found clean => by
        rw [store_sectors]
        split
        · subst j
          rw [SfsInode.ofBlock_toBlock]
          exact inode_of_loaded found
        · exact c.durable.inode j v found clean }
    table := ⟨c.table.nodup,c.table.live,c.table.referenced,c.table.ops⟩
    owned := c.owned.congr <| claims_congr rfl (fun _ _ => by rw [inodes])
      (fun _ _ => by rw [indirect,indirect,inodes])
      (fun j hj i _ => slot_congr (congrFun inodes j) (away j hj) i)
    root := c.root
    typed := fun j hj => by rw [inodes]; exact c.typed j hj }

structure Synced (strict : Prop) (live : Nat → Prop) (held : Set Nat) (k : Nat) (s t : SfsFs) :
    Prop where
  consistent : Consistent strict live held t
  frame : Frame live s t
  inodes : t.inode = s.inode
  blocks : ∀ j, live j → t.block j = s.block j
  vnodes : ∀ j, t.vnode? j =
    if j = k then (s.vnode? j).map fun v => { v with svDirty := false } else s.vnode? j
  inos : t.sfsVnodes.map SfsVnode.svIno = s.sfsVnodes.map SfsVnode.svIno
  freemap : t.sfsFreemap = s.sfsFreemap
  freemapdirty : t.sfsFreemapdirty = s.sfsFreemapdirty
  superdirty : t.sfsSuperdirty = s.sfsSuperdirty

end Table
end SfsFs

section Calls
variable {strict : Prop} {live : Nat → Prop} {held : Set Nat} {s : SfsFs} {k : Nat}

open SfsFs

variable {t : SfsFs}

theorem handle_cleaned (vnodes : ∀ j, t.vnode? j =
    if j = k then (s.vnode? j).map fun v => { v with svDirty := false } else s.vnode? j) :
    t.handle = s.handle := by
  funext j
  unfold handle
  rw [vnodes]
  split
  · cases s.vnode? j <;> rfl
  · rfl

variable {v : SfsVnode}

theorem sfsSyncInode_exact (found : s.vnode? k = some v) (reaches : s.Reaches k) :
    (sfsSyncInode k).wp s
      (fun _ t => if v.svDirty then ∃ m ≤ 10, s.disk.GoodAfter m ∧
          t = ((s.tick (m + 1)).store k v.svI.toBlock).update k fun v => { v with svDirty := false }
        else t = s)
      (fun e t => v.svDirty = true ∧ e = .eio ∧ (∀ i ≤ 10, s.disk.media i = false) ∧ t = s.tick 11)
      never := by
  have ino := (vnode?_mem found).2
  simp only [sfsSyncInode,wp_bind,Sfs.wp_vnode found]
  cases dirty : v.svDirty
  · simp
  · simp only [if_true,wp_bind,ino]
    apply wp_ends (sfsWblock_spec reaches v.svI.toBlock)
    · rintro _ t ⟨m,le,good,rfl⟩
      simp only [Sfs.update,wp_modify]
      exact ⟨m,le,good,rfl⟩
    · rintro e t ⟨rfl,bad,rfl⟩
      exact ⟨trivial,rfl,bad,rfl⟩

theorem sfsSyncInode_spec (c : Consistent strict live held s) (h : live k) (isLoaded : s.loaded k) :
    (sfsSyncInode k).wp s (fun _ t => Synced strict live held k s t)
      (fun e t => e = .eio ∧ ¬strict ∧ t = s.tick 11) never := by
  obtain ⟨v,found⟩ := loaded_iff.mp isLoaded
  have claim : s.Claims live (.inode k) k := ⟨h,rfl⟩
  apply wp_ends (sfsSyncInode_exact found (c.geometry.reaches (c.inside claim)))
  · intro _ t done
    split at done
    · obtain ⟨m,-,-,rfl⟩ := done
      have stored := (c.tick (m + 1)).storeInode h
      have same : (s.tick (m + 1)).inode k = v.svI := inode_of_loaded found
      rw [same] at stored
      obtain ⟨cons,inodes,blocks,views⟩ := stored
      have vnodes := vnode?_update ((s.tick (m + 1)).store k v.svI.toBlock) k
        (f := fun v => { v with svDirty := false }) (fun _ => rfl)
      have kept := inode_update (s := (s.tick (m + 1)).store k v.svI.toBlock) (k := k)
        (f := fun v => { v with svDirty := false }) (fun _ => rfl) (fun _ => rfl)
      exact {
        consistent := cons.recount (fun _ => rfl) (fun _ => rfl) (fun _ => rfl)
          (fun w at_ => c.table.referenced k w at_)
          (fun w at_ _ => by
            rw [store_sectors,if_pos rfl,SfsInode.ofBlock_toBlock]
            exact congrArg SfsVnode.svI (Option.some.inj (found.symm.trans at_)))
        frame := {
          super := rfl
          views := fun j hj => (view_withVnodes (congrFun kept j)).trans (views j hj)
          handle := handle_cleaned vnodes }
        inodes := kept.trans inodes
        blocks := fun j hj => (funext (block_congr (congrFun kept j) fun _ => rfl)).trans (blocks j hj)
        vnodes := vnodes
        inos := update_inos _ k (fun _ => rfl)
        freemap := rfl
        freemapdirty := rfl
        superdirty := rfl }
    · rename_i clean
      subst t
      have vnodes : ∀ j, s.vnode? j =
          if j = k then (s.vnode? j).map fun v => { v with svDirty := false } else s.vnode? j := by
        intro j
        split
        · subst j
          have off : v.svDirty = false := by simpa using clean
          rw [found,Option.map_some,← off]
        · rfl
      exact ⟨c,Frame.refl _ _,rfl,fun _ _ => rfl,vnodes,rfl,rfl,rfl,rfl⟩
  · rintro e t ⟨-,rfl,bad,rfl⟩
    exact ⟨rfl,c.geometry.lax (bad 0 (by omega)),rfl⟩

/-! Loading -/

theorem Sfs.kmalloc_spec (g : s.Geometry strict) :
    Sfs.kmalloc.wp s (fun _ t => Later s t) (fun e t => e = .enomem ∧ ¬strict ∧ Later s t)
      never := by
  have later : Later s { s with kmalloc := fun i => s.kmalloc (i + 1) } :=
    ⟨0,1,by simp [Nat.add_comm 1]⟩
  simp only [Sfs.kmalloc,wp_bind,wp_read,wp_put]
  rw [wp_ite]
  refine ⟨fun _ => later,fun failed => ?_⟩
  rw [wp_fail]
  exact ⟨rfl,fun h => failed ((g.reliable h).2 0),later⟩

theorem vnodesAdd_spec (g : s.Geometry strict) (v : SfsVnode) :
    (vnodesAdd v).wp s (fun _ t => ∃ s' max, Later s s' ∧ t = s'.adopt v max)
      (fun e t => e = .enomem ∧ ¬strict ∧ Later s t) never := by
  simp only [vnodesAdd,wp_bind,wp_read]
  rw [wp_ite]
  refine ⟨fun _ => ?_,fun _ => ?_⟩
  · rw [wp_bind]
    apply wp_imp (Sfs.kmalloc_spec g)
    exact fun _ t later => ⟨t,_,later,rfl⟩
  · exact ⟨s,_,Later.refl s,rfl⟩

theorem sfsBused_spec {b : Nat} (used : b ∈ s.used) :
    (sfsBused b).wp s (fun r t => r = true ∧ t = s) never never := by
  simp [sfsBused,used.1,used.2]

variable {ino : Nat}

theorem loadSearch_spec (vs : List SfsVnode) (used : ∀ v ∈ vs, v.svIno ∈ s.used) :
    (loadSearch ino vs).wp s (fun r t => (r = true ↔ ∃ v ∈ vs, v.svIno = ino) ∧ t = s)
      never never := by
  induction vs with
  | nil => simp [loadSearch]
  | cons v vs ih =>
    rw [loadSearch,wp_bind]
    apply wp_total (sfsBused_spec (used v (List.mem_cons_self ..)))
    rintro _ _ ⟨rfl,rfl⟩
    simp only [wp_bind,wp_assert,if_true]
    rw [wp_ite]
    refine ⟨fun here => ?_,fun other => ?_⟩
    · rw [wp_pure]
      exact ⟨⟨fun _ => ⟨v,List.mem_cons_self ..,here⟩,fun _ => rfl⟩,rfl⟩
    · apply wp_imp (ih fun w mem => used w (List.mem_cons_of_mem _ mem))
      rintro r t ⟨iff,rfl⟩
      refine ⟨iff.trans ⟨?_,?_⟩,rfl⟩
      · rintro ⟨w,mem,e⟩
        exact ⟨w,List.mem_cons_of_mem _ mem,e⟩
      · rintro ⟨w,mem,e⟩
        rcases List.mem_cons.mp mem with rfl | mem
        · exact absurd e other
        · exact ⟨w,mem,e⟩

theorem lockCreate_spec (g : s.Geometry strict) :
    lockCreate.wp s (fun _ t => Later s t) (fun e t => e = .enomem ∧ ¬strict ∧ Later s t)
      never := by
  rw [lockCreate,wp_bind]
  apply wp_imp (Sfs.kmalloc_spec g)
  intro _ s1 later1
  apply wp_ends (Sfs.kmalloc_spec (later1.geometry g))
  · exact fun _ _ later2 => later1.trans later2
  · exact fun _ _ h => ⟨h.1,h.2.1,later1.trans h.2.2⟩

theorem loadOps_spec {type : UInt16} {ops : VnodeOps}
    (typed : type = sfsTypeFile ∧ ops = .fileops ∨ type = sfsTypeDir ∧ ops = .dirops) :
    (loadOps ino type).wp s (fun r t => r = ops ∧ t = s) never never := by
  rcases typed with ⟨rfl,rfl⟩ | ⟨rfl,rfl⟩
  · exact ⟨rfl,rfl⟩
  · exact ⟨rfl,rfl⟩

theorem loadNew_spec (g : s.Geometry strict) (used : ino ∈ s.used)
    {forcetype : UInt16} {i : SfsInode} (ops : VnodeOps)
    (inode : i = loadType forcetype (SfsInode.ofBlock (s.sectors ino)))
    (allowed : forcetype = sfsTypeInval ∨
      (SfsInode.ofBlock (s.sectors ino)).sfiType = sfsTypeInval)
    (typed : i.sfiType = sfsTypeFile ∧ ops = .fileops ∨ i.sfiType = sfsTypeDir ∧ ops = .dirops) :
    (loadNew ino forcetype).wp s
      (fun r t => r = ino ∧ ∃ s' max, Later s s' ∧
        t = s'.adopt (loadedVnode ino ops i (forcetype ≠ sfsTypeInval)) max)
      (fun _ t => ¬strict ∧ Later s t) never := by
  rw [loadNew,wp_bind]
  apply wp_ends (Sfs.kmalloc_spec g)
  · intro _ s1 later1
    have g1 := later1.geometry g
    have read1 := later1.reading
    have used1 : ino ∈ s1.used := by
      unfold SfsFs.used SfsFs.nblocks
      rw [read1.2.2.2.1,read1.2.2.2.2]
      exact used
    rw [wp_bind]
    apply wp_total (sfsBused_spec used1)
    rintro _ _ ⟨rfl,rfl⟩
    simp only [wp_bind,wp_assert,if_true]
    apply wp_ends (sfsRblock_spec (g1.reaches used1.1))
    · rintro d s2 ⟨rfl,m,-,-,rfl⟩
      have later2 := later1.trans (Later.tick _ (m + 1))
      have g2 := later2.geometry g
      rw [read1.1,← inode]
      rw [if_pos (by simpa using allowed)]
      apply wp_total (loadOps_spec typed)
      rintro _ _ ⟨rfl,rfl⟩
      apply wp_ends (lockCreate_spec g2)
      · intro _ s3 later3
        apply wp_ends (vnodesAdd_spec (later3.geometry g2) _)
        · rintro _ t ⟨s4,max,later4,rfl⟩
          exact ⟨rfl,s4,max,(later2.trans later3).trans later4,rfl⟩
        · exact fun _ _ h => ⟨h.2.1,(later2.trans later3).trans h.2.2⟩
      · exact fun _ _ h => ⟨h.2.1,later2.trans h.2.2⟩
    · rintro e t ⟨rfl,bad,rfl⟩
      exact ⟨g1.lax (bad 0 (by omega)),later1.trans (Later.tick _ _)⟩
  · rintro e t ⟨-,lax,later⟩
    exact ⟨lax,later⟩

theorem loadedVnode_ino (ino : Nat) (ops : VnodeOps) (i : SfsInode) (dirty : Bool) :
    (loadedVnode ino ops i dirty).svIno = ino := rfl

structure Opened (strict : Prop) (live : Nat → Prop) (held : Set Nat) (k : Nat) (s t : SfsFs) :
    Prop where
  consistent : Consistent strict live held t
  super : t.sfsSuper = s.sfsSuper
  inodes : ∀ j, live j → t.inode j = s.inode j
  views : ∀ j, live j → t.view j = s.view j
  handle : t.handle = Function.update s.handle k (some (Handle.more (s.handle k)))

theorem vnodeIncref_spec (c : Consistent strict live held s) (isLoaded : s.loaded k) :
    (vnodeIncref k).wp s (fun _ t => Opened strict live held k s t) never never := by
  obtain ⟨v,found⟩ := loaded_iff.mp isLoaded
  simp only [vnodeIncref,wp_bind,Sfs.wp_vnode found,Sfs.update,wp_modify]
  have inodes := inode_update (s := s) (k := k)
    (f := fun v => { v with vnRefcount := v.vnRefcount + 1 }) (fun _ => rfl) (fun _ => rfl)
  exact {
    consistent := c.recount (fun _ => rfl) (fun _ => rfl) (fun _ => rfl)
      (fun _ _ => Nat.succ_pos _) (fun v at_ clean => c.durable.inode k v at_ clean)
    super := rfl
    inodes := fun j _ => congrFun inodes j
    views := fun j _ => view_withVnodes (congrFun inodes j)
    handle := by
      apply handle_of_vnode?
      · intro j ne
        rw [vnode?_update s k (fun _ => by rfl),if_neg ne]
      · rw [vnode?_update s k (fun _ => by rfl),if_pos rfl,handle,found]
        rfl }

theorem sfsLoadvnode_exact (c : Consistent strict live held s) (h : live k) :
    (sfsLoadvnode k sfsTypeInval).wp s
      (fun r t => r = k ∧ Opened strict live held k s t)
      (fun _ t => ¬strict ∧ ¬s.loaded k ∧ Later s t) never := by
  have allocated : ∀ j, live j → j ∈ s.used := fun j hj =>
    c.owned.claimed (a := .inode j) ⟨hj,rfl⟩
  have tableUsed : ∀ v ∈ s.sfsVnodes, v.svIno ∈ s.used := by
    intro v mem
    obtain ⟨w,found⟩ := loaded_iff.mp (⟨v,mem,rfl⟩ : s.loaded v.svIno)
    exact allocated _ (c.table.live _ w found)
  simp only [sfsLoadvnode,wp_bind,wp_read]
  apply wp_total (loadSearch_spec s.sfsVnodes tableUsed)
  rintro r t ⟨iff,rfl⟩
  cases r
  · -- not in memory: the disk has the inode
    have absent : ¬t.loaded k := fun l => Bool.noConfusion (iff.mpr l)
    have disk : t.inode k = SfsInode.ofBlock (t.sectors k) := by
      simp only [inode,not_loaded_iff.mp absent]
    have type := c.typed k h
    rw [disk] at type
    simp only [Bool.false_eq_true,if_false]
    apply wp_mono (loadNew_spec c.geometry (allocated k h)
      (i := SfsInode.ofBlock (t.sectors k)) (if k = 1 then .dirops else .fileops) rfl
      (Or.inl rfl) ?_)
    · rintro r u ⟨rfl,s',max,later,rfl⟩
      have reading := later.reading
      have absent' : ¬s'.loaded r := by
        rw [not_loaded_iff,reading.2.2.1]
        exact not_loaded_iff.mp absent
      obtain ⟨cons,views⟩ := (later.consistent c).adopt max
        (v := loadedVnode r (if r = 1 then .dirops else .fileops)
          (SfsInode.ofBlock (t.sectors r)) false) h absent' (by rw [reading.1]; rfl)
        Nat.one_pos rfl
      refine ⟨rfl,cons,reading.2.2.2.2,fun j hj => ?_,fun j hj => ?_,?_⟩
      · rw [inode_adopt (loadedVnode_ino r _ _ _) absent',reading.2.1]
        split
        · subst j
          exact disk.symm
        · rfl
      · exact (views j hj).trans (later.frame.views j hj)
      · have none_ : t.handle r = none := by rw [handle,not_loaded_iff.mp absent]; rfl
        rw [none_]
        apply handle_of_vnode?
        · intro j ne
          rw [vnode?_adopt (loadedVnode_ino r _ _ _) absent',if_neg ne,reading.2.2.1]
        · rw [vnode?_adopt (loadedVnode_ino r _ _ _) absent',if_pos rfl]
          rfl
    · exact fun _ _ h => ⟨h.1,absent,h.2⟩
    · exact fun _ _ h => h
    · split at type
      · exact Or.inr ⟨type,by rw [if_pos (by assumption)]⟩
      · exact Or.inl ⟨type,by rw [if_neg (by assumption)]⟩
  · simp only [if_true,wp_bind,wp_assert,decide_true]
    apply wp_total (vnodeIncref_spec c (iff.mp rfl))
    exact fun _ _ opened => ⟨rfl,opened⟩

theorem sfsLoadvnode_spec (c : Consistent strict live held s) (h : live k) :
    (sfsLoadvnode k sfsTypeInval).wp s
      (fun r t => r = k ∧ Opened strict live held k s t)
      (fun _ t => ¬strict ∧ Later s t) never :=
  wp_mono (sfsLoadvnode_exact c h) (fun _ _ h => h) (fun _ _ h => ⟨h.1,h.2.2⟩) (fun _ _ h => h)

structure Made (strict : Prop) (live : Nat → Prop) (k : Nat) (s t : SfsFs) : Prop where
  fresh : ¬live k
  nonzero : k ≠ 0
  fits : k < 2^32
  consistent : Consistent strict (fun j => live j ∨ j = k) ∅ t
  super : t.sfsSuper = s.sfsSuper
  views : ∀ j, live j → t.view j = s.view j
  view : (t.view k).links = 0
  handle : t.handle = Function.update s.handle k (some (1,0))
  absent : s.handle k = none

theorem sfsMakeobj_exact (c : Consistent strict live ∅ s) :
    (sfsMakeobj sfsTypeFile).wp s (fun k t => Made strict live k s t ∧ t.inode k = newInode)
      (fun e t => (e = .enospc ∧ t = s) ∨
        (¬strict ∧ Consistent strict live ∅ t ∧ Frame live s t)) never := by
  rw [sfsMakeobj,wp_bind]
  apply wp_ends (sfsBalloc_spec c)
  · intro b s1 fresh
    have c1 : Consistent strict live {b} s1 := by
      have := fresh.consistent
      rwa [insert_empty_eq] at this
    have used : ∀ j, live j → j ∈ s1.used := fun j hj =>
      c1.owned.claimed (a := .inode j) ⟨hj,rfl⟩
    have tableUsed : ∀ v ∈ s1.sfsVnodes, v.svIno ∈ s1.used := by
      intro v mem
      obtain ⟨w,found⟩ := loaded_iff.mp (⟨v,mem,rfl⟩ : s1.loaded v.svIno)
      exact used _ (c1.table.live _ w found)
    have dead : ¬live b := fun h => c1.unclaimed (Set.mem_singleton b) (.inode b) ⟨h,rfl⟩
    have absent : ¬s1.loaded b := by
      intro isLoaded
      obtain ⟨w,found⟩ := loaded_iff.mp isLoaded
      exact dead (c1.table.live b w found)
    simp only [sfsLoadvnode,wp_bind,wp_read]
    apply wp_total (loadSearch_spec s1.sfsVnodes tableUsed)
    rintro r t ⟨iff,rfl⟩
    have off : r = false := by
      cases r
      · rfl
      · exact absurd (iff.mp rfl) absent
    subst off
    simp only [Bool.false_eq_true,if_false]
    apply wp_ends (loadNew_spec c1.geometry (c1.owned.holding (Set.mem_singleton b))
      (i := newInode) .fileops (by rw [fresh.zeros]; rfl)
      (Or.inr (by rw [fresh.zeros]; rfl)) (Or.inl ⟨rfl,rfl⟩))
    · rintro r u ⟨rfl,s',max,later,rfl⟩
      obtain ⟨cons,views,-,absent'⟩ := (later.consistent c1).enlist max
        (v := loadedVnode r .fileops newInode (decide (sfsTypeFile ≠ sfsTypeInval))) rfl rfl
        Nat.one_pos rfl rfl
      have before := fresh.frame.trans later.frame
      have inode : ((s'.adopt (loadedVnode r .fileops newInode
          (decide (sfsTypeFile ≠ sfsTypeInval))) max).inode r) = newInode := by
        rw [inode_adopt (loadedVnode_ino r _ _ _) absent',if_pos rfl]
        rfl
      refine ⟨?_,inode⟩
      exact {
        fresh := dead
        nonzero := fresh.nonzero
        fits := fresh.fits
        consistent := cons
        super := before.super
        views := fun j hj => (views j hj).trans (before.views j hj)
        view := by
          simp only [view,inode]
          rfl
        handle := by
          rw [← before.handle]
          apply handle_of_vnode?
          · intro j ne
            rw [vnode?_adopt (loadedVnode_ino r _ _ _) absent',if_neg ne]
          · rw [vnode?_adopt (loadedVnode_ino r _ _ _) absent',if_pos rfl]
            rfl
        absent := by
          rw [← before.handle,handle,not_loaded_iff.mp absent']
          rfl }
    · rintro e u ⟨lax,later⟩
      exact Or.inr ⟨lax,(later.consistent c1).lose lax,fresh.frame.trans later.frame⟩
  · rintro e t (⟨rfl,-,rfl⟩ | ⟨-,lax,cons,frame⟩)
    · exact Or.inl ⟨rfl,rfl⟩
    · exact Or.inr ⟨lax,cons,frame⟩

/-! Reclaiming -/

theorem truncateBlocklen_zero : truncateBlocklen 0 = 0 := by
  rw [truncateBlocklen,i32_of_bounds (by decide) (by decide)]
  exact u32_zero

def SfsFs.Down (s : SfsFs) (n : Nat) : Prop := ∀ i ≤ 10, s.disk.media (n + i) = false

/-- Dropping a reference to inode `k` leaves its vnode pinned: it is the last one, and the device
fails when the inode is written or, for a file without a name, when its indirect block is read
before that. -/
def SfsFs.Pins (s : SfsFs) (k : Nat) : Prop :=
  (∃ opens, s.handle k = some (1,opens)) ∧
    if (s.view k).links ≠ 0 then (∃ v, s.vnode? k = some v ∧ v.svDirty = true) ∧ s.Down 0
    else if s.indirect k = 0 then s.Down 0
    else s.Down 0 ∨ ∃ m ≤ 10, s.disk.GoodAfter m ∧ s.Down (m + 1)

def SfsFs.DiskAfter (s : SfsFs) (k : Nat) (t : SfsFs) : Prop :=
  if s.indirect k = 0 then t.disk = s.disk
  else ∃ m ≤ 10, s.disk.GoodAfter m ∧ t.disk = s.disk.tick (m + 1)

theorem truncateIndirect_disk (c : Consistent strict live ∅ s) (h : live k) (isLoaded : s.loaded k) :
    (truncateIndirect k 0).wp s (fun _ t => DiskAfter s k t)
      (fun _ _ => s.indirect k ≠ 0 ∧ s.Down 0) never := by
  refine wp_truncateIndirect c h isLoaded (fun stays => ?_) (fun present bad => ?_)
    (fun m l t scan _ => ?_) fun m l t scan left => ?_
  · have absent : s.indirect k = 0 := by
      by_contra present
      exact stays ⟨by decide,present⟩
    rw [DiskAfter,if_pos absent]
  · exact ⟨present,fun i le => by rw [Nat.zero_add]; exact bad i le⟩
  · rw [DiskAfter,if_neg scan.present]
    exact ⟨m,scan.le,scan.good,scan.disk⟩
  · obtain ⟨j,-,kept,-⟩ := scan.cut.nonzero.mp left
    omega

theorem sfsTruncate_disk (c : Consistent strict live ∅ s) (h : live k) (isLoaded : s.loaded k) :
    (sfsTruncate k 0).wp s (fun _ t => DiskAfter s k t) (fun _ _ => s.indirect k ≠ 0 ∧ s.Down 0)
      never := by
  simp only [sfsTruncate,wp_bind,truncateBlocklen_zero]
  apply wp_total (truncateDirect_loop c h isLoaded)
  rintro _ t ⟨done,-⟩
  have indirectT : t.indirect k = s.indirect k :=
    congrArg (fun i => i.sfiIndirect.toNat) done.inode
  apply wp_ends (truncateIndirect_disk done.consistent h (done.frame.loaded.mpr isLoaded))
  · intro _ u after
    rw [Sfs.wp_updateInode]
    simp only [DiskAfter,indirectT,done.disk] at after ⊢
    exact after
  · rintro _ _ ⟨present,down⟩
    rw [Down,done.disk] at down
    exact ⟨indirectT ▸ present,down⟩

structure Erased (strict : Prop) (live : Nat → Prop) (k : Nat) (s t : SfsFs) : Prop where
  consistent : Consistent strict live ∅ t
  frame : Frame (Others live k) s t
  links : (t.view k).links = (s.view k).links
  named : (s.view k).links ≠ 0 → t.view k = s.view k

theorem links_zero_iff (found : s.vnode? k = some v) :
    (s.view k).links = 0 ↔ v.svI.sfiLinkcount = 0 := by
  have : (s.view k).links = v.svI.sfiLinkcount.toNat := by
    simp only [view,inode_of_loaded found]
  rw [this,← UInt16.toNat_inj]
  rfl

theorem reclaimErase_spec (c : Consistent strict live ∅ s) (h : live k) (isLoaded : s.loaded k)
    (notRoot : (s.view k).links = 0 → k ≠ 1) :
    (reclaimErase k).wp s
      (fun _ t => Erased strict live k s t ∧
        ((s.view k).links = 0 → (∀ n, t.block k n = 0) ∧ t.indirect k = 0) ∧
        if (s.view k).links ≠ 0 then t = s else s.DiskAfter k t)
      (fun e t => e = .eio ∧ ¬strict ∧ Erased strict live k s t ∧
        (s.view k).links = 0 ∧ s.indirect k ≠ 0 ∧ s.Down 0) never := by
  obtain ⟨v,found⟩ := loaded_iff.mp isLoaded
  simp only [reclaimErase,wp_bind,Sfs.wp_vnode found]
  rw [wp_ite]
  refine ⟨fun zero => ?_,fun some_ => ?_⟩
  · have nameless := (links_zero_iff found).mpr zero
    have ops : v.vnOps = .fileops := by
      have := c.table.ops k v found
      rwa [if_neg (notRoot nameless)] at this
    have refs : v.vnRefcount ≠ 0 := Nat.pos_iff_ne_zero.mp (c.table.referenced k v found)
    simp only [vopTruncate,vnodeCheck,wp_bind,Sfs.wp_vnode found,wp_assert,refs,ops,
      ne_eq,not_false_eq_true,decide_true,if_true,wp_pure]
    apply wp_mono (wp_and (sfsTruncate_spec c h isLoaded 0) (sfsTruncate_disk c h isLoaded))
    · rintro _ t ⟨cut,after⟩
      have keeps : ∀ n, truncateKeeps (truncateBlocklen 0) n = false := by
        intro n
        rw [truncateBlocklen_zero]
        unfold truncateKeeps
        split
        · simp
        · simp; omega
      refine ⟨⟨cut.consistent,cut.frame,by rw [cut.view],fun named => absurd nameless named⟩,
        fun _ => ⟨fun n => ?_,cut.indirect (by rw [truncateBlocklen_zero]; decide)⟩,
        by rwa [if_neg (not_not_intro nameless)]⟩
      rw [cut.blocks,keeps]
      rfl
    · rintro e t ⟨⟨rfl,lax,cut | torn⟩,down⟩
      · exact ⟨rfl,lax,⟨cut.consistent,cut.frame,by rw [cut.view],
          fun named => absurd nameless named⟩,nameless,down⟩
      · -- nothing is kept when everything is cut
        obtain ⟨-,⟨j,-,low,-⟩,-⟩ := torn
        rw [truncateBlocklen_zero] at low
        omega
    · exact fun _ _ halted => halted.1
  · have named := mt (links_zero_iff found).mp some_
    exact ⟨⟨c,Frame.refl _ _,rfl,fun _ => rfl⟩,fun zero => absurd zero named,by rw [if_pos named]⟩

theorem pins_of_erased (handle : s.handle k = some (1,opens))
    (erased : if (s.view k).links ≠ 0 then t = s else s.DiskAfter k t) (found : t.vnode? k = some v)
    (dirty : v.svDirty = true) (down : t.Down 0) : s.Pins k := by
  refine ⟨⟨opens,handle⟩,?_⟩
  by_cases named : (s.view k).links ≠ 0
  · rw [if_pos named] at erased ⊢
    subst erased
    exact ⟨⟨v,found,dirty⟩,down⟩
  rw [if_neg named] at erased ⊢
  rw [DiskAfter] at erased
  by_cases absent : s.indirect k = 0
  · rw [if_pos absent] at erased ⊢
    rwa [Down,← erased]
  · rw [if_neg absent] at erased ⊢
    obtain ⟨m,small,good,disk⟩ := erased
    refine .inr ⟨m,small,good,fun i le => ?_⟩
    have off := down i le
    rwa [disk,Nat.zero_add] at off

def Survivors (live : Nat → Prop) (k links : Nat) : Nat → Prop := fun j => live j ∧ (j = k → links ≠ 0)

structure Dropped (strict : Prop) (live : Nat → Prop) (k : Nat) (s t : SfsFs) : Prop where
  consistent : Consistent strict (Survivors live k (s.view k).links) ∅ t
  super : t.sfsSuper = s.sfsSuper
  views : t.view = s.view
  handle : t.handle = Function.update s.handle k none

theorem handle_drop (nodup : (s.sfsVnodes.map SfsVnode.svIno).Nodup) :
    (s.drop k).handle = Function.update s.handle k none := by
  apply handle_of_vnode?
  · intro j ne
    rw [vnode?_drop nodup,if_neg ne]
  · rw [vnode?_drop nodup,if_pos rfl]
    rfl

theorem SfsFs.Consistent.dropNamed (c : Consistent strict live ∅ s)
    (clean : ∀ v, s.vnode? k = some v → v.svDirty = false) (named : (s.view k).links ≠ 0) :
    Dropped strict live k s (s.drop k) where
  consistent := (c.drop clean).1.congr_live fun _ => ⟨fun h => h.1,fun h => ⟨h,fun _ => named⟩⟩
  super := rfl
  views := funext (c.drop clean).2
  handle := handle_drop c.table.nodup

theorem SfsFs.Consistent.dropNameless (c : Consistent strict live ∅ s) (h : live k)
    (clean : ∀ v, s.vnode? k = some v → v.svDirty = false) (nameless : (s.view k).links = 0)
    (notRoot : k ≠ 1) (blocks : ∀ n, s.block k n = 0) (indirect : s.indirect k = 0) :
    Dropped strict live k s ((s.unmark k).drop k) := by
  obtain ⟨dropped,views⟩ := c.drop clean
  have inodes := inode_drop c clean
  have absent : ¬(s.drop k).loaded k := by
    rw [not_loaded_iff,vnode?_drop c.table.nodup,if_pos rfl]
  have erased := dropped.erase h notRoot absent
    (fun n => (block_congr (congrFun inodes k) (fun _ => rfl) n).trans (blocks n))
    (by rw [SfsFs.indirect,inodes]; exact indirect)
  exact {
    consistent := erased.congr_live fun j => ⟨fun h => ⟨h.1,fun e => h.2 e nameless⟩,
      fun h => ⟨h.1,fun e => absurd e h.2⟩⟩
    super := rfl
    views := funext views
    handle := handle_drop c.table.nodup }

theorem reclaimDrop_spec (found : s.vnode? k = some v) (refs : v.vnRefcount = 1) :
    (reclaimDrop k).wp s (fun _ t => t = s.drop k) never
      (fun site t => site = .killOpencount ∧ v.vnOpencount ≠ 0 ∧ t = s.drop k) := by
  simp only [reclaimDrop,wp_bind,wp_read,found,wp_put,vnodeKill,wp_assert,
    refs,decide_true,if_true]
  split
  · trivial
  · rename_i open_
    exact ⟨trivial,by simpa using open_,trivial⟩

theorem reclaimEnd_spec (c : Consistent strict live ∅ s) (h : live k) {opens : Nat}
    (handle : s.handle k = some (1,opens))
    (clean : ∀ v, s.vnode? k = some v → v.svDirty = false)
    (erased : (s.view k).links = 0 → k ≠ 1 ∧ (∀ n, s.block k n = 0) ∧ s.indirect k = 0) :
    (do reclaimDiscard k; reclaimDrop k : Sfs Unit).wp s
      (fun _ t => Dropped strict live k s t) never
      (fun site t => site = .killOpencount ∧ opens ≠ 0 ∧ Dropped strict live k s t) := by
  obtain ⟨v,found,counts⟩ := Option.map_eq_some_iff.mp handle
  obtain ⟨refs,open_⟩ := Prod.mk.inj counts
  simp only [reclaimDiscard,wp_bind,Sfs.wp_vnode found,(vnode?_mem found).2]
  rw [wp_ite]
  refine ⟨fun zero => ?_,fun some_ => ?_⟩
  · have nameless := (links_zero_iff found).mpr zero
    obtain ⟨notRoot,blocks,indirect⟩ := erased nameless
    have dropped := c.dropNameless h clean nameless notRoot blocks indirect
    have used : k ∈ s.used := c.owned.claimed (a := .inode k) ⟨h,rfl⟩
    apply wp_mono (sfsBfree_spec c.geometry used)
    · rintro _ _ rfl
      apply wp_mono (reclaimDrop_spec (s := s.unmark k) found refs)
      · rintro _ _ rfl
        exact dropped
      · exact fun _ _ h => h
      · rintro site _ ⟨rfl,busy,rfl⟩
        exact ⟨rfl,open_ ▸ busy,dropped⟩
    · exact fun _ _ h => h
    · exact fun _ _ h => h.elim
  · have dropped := c.dropNamed clean (mt (links_zero_iff found).mp some_)
    rw [wp_pure]
    apply wp_mono (reclaimDrop_spec found refs)
    · rintro _ _ rfl
      exact dropped
    · exact fun _ _ h => h
    · rintro site _ ⟨rfl,busy,rfl⟩
      exact ⟨rfl,open_ ▸ busy,dropped⟩

/-- A reference to inode `k` has been given up. If it was the last one and the device
failed, the vnode may have stayed. -/
structure Released (strict : Prop) (live : Nat → Prop) (k : Nat) (s t : SfsFs) : Prop where
  consistent : Consistent strict
    (fun j => live j ∧ (j = k → (s.view k).links ≠ 0 ∨ t.loaded k)) ∅ t
  super : t.sfsSuper = s.sfsSuper
  views : ∀ j, live j → (j = k → (s.view k).links ≠ 0) → t.view j = s.view j
  links : (t.view k).links = (s.view k).links
  handle : ∃ h, t.handle = Function.update s.handle k h ∧
    (h = Handle.less (s.handle k) ∨ (¬strict ∧ h = s.handle k))

theorem SfsFs.Consistent.released (c : Consistent strict live ∅ t)
    (super : t.sfsSuper = s.sfsSuper)
    (views : ∀ j, live j → (j = k → (s.view k).links ≠ 0) → t.view j = s.view j)
    (links : (t.view k).links = (s.view k).links) {g : Nat × Nat}
    (handle : t.handle = Function.update s.handle k (some g))
    (less : some g = Handle.less (s.handle k) ∨ (¬strict ∧ some g = s.handle k)) :
    Released strict live k s t := by
  have isLoaded : t.loaded k := by
    rw [loaded_iff_handle,handle,Function.update_self]
    exact ⟨g,rfl⟩
  exact ⟨c.congr_live fun j => ⟨fun hj => hj.1,fun hj => ⟨hj,fun _ => Or.inr isLoaded⟩⟩,
    super,views,links,some g,handle,less⟩

theorem Erased.released (erased : Erased strict live k s t) (lax : ¬strict)
    {g : Nat × Nat} (handle : s.handle k = some g) : Released strict live k s t := by
  refine erased.consistent.released erased.frame.super ?_ erased.links (g := g) ?_
    (Or.inr ⟨lax,handle.symm⟩)
  · intro j hj named
    by_cases same : j = k
    · rw [same,erased.named (named same)]
    · exact erased.frame.views j ⟨hj,same⟩
  · rw [erased.frame.handle,← handle,Function.update_eq_self]

theorem sfsReclaim_exact (c : Consistent strict live ∅ s) (h : live k) {opens : Nat}
    (handle : s.handle k = some (1,opens)) (notRoot : (s.view k).links = 0 → k ≠ 1) :
    (sfsReclaim k).wp s (fun _ t => Released strict live k s t ∧ ¬t.loaded k)
      (fun _ t => Released strict live k s t ∧ s.Pins k)
      (fun site t => site = .killOpencount ∧ opens ≠ 0 ∧ Released strict live k s t) := by
  obtain ⟨v,found,counts⟩ := Option.map_eq_some_iff.mp handle
  have refs := (Prod.mk.inj counts).1
  have isLoaded : s.loaded k := loaded_iff.mpr ⟨v,found⟩
  simp only [sfsReclaim,wp_bind,Sfs.wp_vnode found,refs,ne_eq,not_true_eq_false,if_false]
  apply wp_safe (reclaimErase_spec c h isLoaded notRoot)
  · rintro _ s1 ⟨erased,blocks,after⟩
    have handle1 : s1.handle k = some (1,opens) := by rw [erased.frame.handle,handle]
    have loaded1 := erased.frame.loaded.mpr isLoaded
    obtain ⟨w,found1⟩ := loaded_iff.mp loaded1
    have claim : s1.Claims live (.inode k) k := ⟨h,rfl⟩
    apply wp_mono (wp_and (sfsSyncInode_spec erased.consistent h loaded1) (sfsSyncInode_exact found1
      (erased.consistent.geometry.reaches (erased.consistent.inside claim))))
    · rintro _ s2 ⟨synced,-⟩
      have view2 := synced.frame.views
      have links2 : (s2.view k).links = (s.view k).links := by rw [view2 k h,erased.links]
      have clean : ∀ w, s2.vnode? k = some w → w.svDirty = false := by
        intro w atK
        rw [synced.vnodes,if_pos rfl] at atK
        obtain ⟨u,-,rfl⟩ := Option.map_eq_some_iff.mp atK
        rfl
      have absent : ∀ t, Dropped strict live k s2 t → ¬t.loaded k := by
        intro t dropped
        rw [loaded_iff_handle,dropped.handle,Function.update_self]
        rintro ⟨_,⟨⟩⟩
      have gone : ∀ t, Dropped strict live k s2 t → Released strict live k s t := by
        intro t dropped
        refine ⟨dropped.consistent.congr_live fun j => ?_,?_,?_,?_,none,?_,Or.inl ?_⟩
        · simp only [Survivors,links2,absent t dropped,or_false]
        · rw [dropped.super,synced.frame.super,erased.frame.super]
        · intro j hj named
          rw [dropped.views,view2 j hj]
          by_cases same : j = k
          · rw [same,erased.named (named same)]
          · exact erased.frame.views j ⟨hj,same⟩
        · rw [dropped.views,links2]
        · rw [dropped.handle,synced.frame.handle,erased.frame.handle]
        · rw [handle]
          rfl
      have rest := reclaimEnd_spec synced.consistent h
        (by rw [synced.frame.handle,handle1]) clean (fun zero => by
          rw [links2] at zero
          refine ⟨notRoot zero,fun n => ?_,?_⟩
          · rw [synced.blocks k h]
            exact (blocks zero).1 n
          · rw [indirect,synced.inodes]
            exact (blocks zero).2)
      rw [wp_bind] at rest
      apply wp_sure rest
      · intro _ t reached
        exact wp_mono reached (fun _ u dropped => ⟨gone u dropped,absent u dropped⟩)
          (fun _ _ h => h.elim)
          (fun _ u h => ⟨h.1,h.2.1,gone u h.2.2⟩)
      · exact fun _ u h => ⟨h.1,h.2.1,gone u h.2.2⟩
    · rintro e t ⟨⟨-,lax,rfl⟩,dirty,-,bad,-⟩
      have later : Erased strict live k s (s1.tick 11) :=
        ⟨erased.consistent.tick 11,erased.frame.trans (frame_tick s1 11),erased.links,erased.named⟩
      exact ⟨later.released lax handle,pins_of_erased handle after found1 dirty fun i le => by
        rw [Nat.zero_add]; exact bad i le⟩
    · exact fun _ _ halted => halted.1.elim
  · rintro e t ⟨-,lax,erased,nameless,present,down⟩
    refine ⟨erased.released lax handle,⟨opens,handle⟩,?_⟩
    rw [if_neg (not_not_intro nameless),if_neg present]
    exact .inl down

theorem vnodeDecref_spec (c : Consistent strict live ∅ s) (h : live k) (isLoaded : s.loaded k)
    (notRoot : (s.view k).links = 0 → k ≠ 1) :
    (vnodeDecref k).wp s
      (fun _ t => Released strict live k s t ∧
        (t.handle = Function.update s.handle k (Handle.less (s.handle k)) ∨ s.Pins k)) never
      (fun site t => site = .killOpencount ∧ (∃ opens ≠ 0, s.handle k = some (1,opens)) ∧
        Released strict live k s t) := by
  obtain ⟨v,found⟩ := loaded_iff.mp isLoaded
  have refs := c.table.referenced k v found
  have counts : s.handle k = some (v.vnRefcount,v.vnOpencount) := by
    rw [handle,found]
    rfl
  simp only [vnodeDecref,wp_bind,Sfs.wp_vnode found,wp_assert,refs,gt_iff_lt,
    decide_true,if_true]
  rw [wp_ite]
  refine ⟨fun more => ?_,fun last => ?_⟩
  · have inodes := inode_update (s := s) (k := k)
      (f := fun v => { v with vnRefcount := v.vnRefcount - 1 }) (fun _ => rfl) (fun _ => rfl)
    have cons : Consistent strict live ∅
        (s.update k fun v => { v with vnRefcount := v.vnRefcount - 1 }) :=
      c.recount (fun _ => rfl) (fun _ => rfl) (fun _ => rfl)
        (fun w atK => by
          obtain rfl := Option.some.inj (found.symm.trans atK)
          simp only
          omega)
        (fun w atK clean => c.durable.inode k w atK clean)
    rw [Sfs.update,wp_modify]
    have lower : (s.update k fun v => { v with vnRefcount := v.vnRefcount - 1 }).handle =
        Function.update s.handle k (some (v.vnRefcount - 1,v.vnOpencount)) := by
      apply handle_of_vnode?
      · intro j ne
        rw [vnode?_update s k (fun _ => by rfl),if_neg ne]
      · rw [vnode?_update s k (fun _ => by rfl),if_pos rfl,found]
        rfl
    have less : some (v.vnRefcount - 1,v.vnOpencount) = Handle.less (s.handle k) := by
      obtain ⟨n,two⟩ : ∃ n, v.vnRefcount = n + 2 := ⟨v.vnRefcount - 2,by omega⟩
      rw [counts,two]
      rfl
    exact ⟨cons.released rfl (fun j _ _ => view_withVnodes (congrFun inodes j))
      (congrArg FileView.links (view_withVnodes (congrFun inodes k))) lower (Or.inl less),
      .inl (less ▸ lower)⟩
  · have one : v.vnRefcount = 1 := by omega
    rw [one] at counts
    simp only [wp_bind,wp_attempt,wp_pure]
    apply wp_mono (sfsReclaim_exact c h counts notRoot)
    · rintro _ t ⟨released,gone⟩
      refine ⟨released,.inl ?_⟩
      obtain ⟨g,handleT,-⟩ := released.handle
      have none_ : g = none := Option.eq_none_iff_forall_ne_some.mpr fun g there =>
        gone (loaded_iff_handle.mpr ⟨g,by rw [handleT,there,Function.update_self]⟩)
      rw [handleT,none_,counts]
      rfl
    · exact fun _ _ failed => ⟨failed.1,.inr failed.2⟩
    · exact fun _ _ h => ⟨h.1,⟨_,h.2.1,counts⟩,h.2.2⟩

end Calls
end Os161
