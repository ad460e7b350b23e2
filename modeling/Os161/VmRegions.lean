import Os161.VmFault

/-! Which addresses stay mapped when regions are defined one after another. A slot whose base is
zero counts as unused, also when it holds a region that begins in page 0. -/
namespace Os161

/-- A call `as_define_region(as, vaddr, sz, …)`. -/
structure RegionCall where
  vaddr : UInt32
  sz : UInt32
  deriving DecidableEq, Repr

namespace RegionCall

/-- The arguments of the call describe a range of user addresses. -/
def Fits (c : RegionCall) : Prop := 0 < c.sz.toNat ∧ c.vaddr.toNat + c.sz.toNat ≤ usertop.toNat

instance (c : RegionCall) : Decidable c.Fits := inferInstanceAs (Decidable (_ ∧ _))

def Range (c : RegionCall) (a : UInt32) : Prop :=
  c.vaddr.toNat ≤ a.toNat ∧ a.toNat < c.vaddr.toNat + c.sz.toNat

def Pages (c : RegionCall) (a : UInt32) : Prop := ∃ b, c.Range b ∧ b.toNat / 4096 = a.toNat / 4096

theorem Pages.congr {c : RegionCall} {a b : UInt32} (pages : c.Pages a) (same : a.toNat / 4096 = b.toNat / 4096) :
    c.Pages b := by
  obtain ⟨first,within,page⟩ := pages
  exact ⟨first,within,page.trans same⟩

theorem Range.pages {c : RegionCall} {a : UInt32} (within : c.Range a) : c.Pages a := ⟨a,within,rfl⟩

theorem pages_iff {c : RegionCall} (fits : c.Fits) (a : UInt32) :
    c.Pages a ↔ c.vaddr.toNat / 4096 * 4096 ≤ a.toNat ∧
      a.toNat < (c.vaddr.toNat + c.sz.toNat + 4095) / 4096 * 4096 := by
  have top : usertop.toNat = 2 ^ 31 := rfl
  obtain ⟨some_,below⟩ := fits
  constructor
  · rintro ⟨b,⟨above,within⟩,same⟩
    omega
  · rintro ⟨above,within⟩
    -- The first address of the range that is not before the page.
    let b := max c.vaddr.toNat (a.toNat / 4096 * 4096)
    have small : b < 2 ^ 32 := by omega
    refine ⟨UInt32.ofNat b,?_,?_⟩
    · rw [Range,UInt32.toNat_ofNat_of_lt' small]
      omega
    · rw [UInt32.toNat_ofNat_of_lt' small]
      omega

end RegionCall

namespace Addrspace

def freeSlot (as : Addrspace) : Option UserRange :=
  if as.asVbase1 = 0 then some .region1 else if as.asVbase2 = 0 then some .region2 else none

def Covers (as : Addrspace) (a : UInt32) : Prop := ∃ q, q ≠ .stack ∧ as.Within q a

theorem covers_iff {as : Addrspace} {a : UInt32} :
    as.Covers a ↔ as.Within .region1 a ∨ as.Within .region2 a := by
  constructor
  · rintro ⟨q,region,within⟩
    cases q with
    | region1 => exact .inl within
    | region2 => exact .inr within
    | stack => exact (region rfl).elim
  · rintro (first | second)
    · exact ⟨_,UserRange.noConfusion,first⟩
    · exact ⟨_,UserRange.noConfusion,second⟩

theorem offset_toNat (vaddr : UInt32) : (vaddr &&& ~~~pageFrame).toNat = vaddr.toNat % 4096 := by
  have mask : (~~~pageFrame).toNat = 2 ^ 12 - 1 := by decide
  rw [UInt32.toNat_and,mask,Nat.and_two_pow_sub_one_eq_mod]

theorem round_region {c : RegionCall} (fits : c.Fits) :
    c.vaddr.toNat / 4096 * 4096 +
        4096 * (((c.sz + (c.vaddr &&& ~~~pageFrame) + 4096 - 1) &&& pageFrame) / 4096).toNat =
      (c.vaddr.toNat + c.sz.toNat + 4095) / 4096 * 4096 := by
  have top : usertop.toNat = 2 ^ 31 := rfl
  have below := fits.2
  have counted := region_standsFor c.vaddr c.sz
  have few := div_toNat ((c.sz + (c.vaddr &&& ~~~pageFrame) + 4096 - 1) &&& pageFrame)
  have word := ((c.sz + (c.vaddr &&& ~~~pageFrame) + 4096 - 1) &&& pageFrame).toNat_lt
  rw [StandsFor,toNat_pages,offset_toNat,inPages] at counted
  omega

/-- The slot holds the pages of the range. -/
structure Holds (as : Addrspace) (c : RegionCall) (r : UserRange) : Prop where
  within : ∀ a, as.Within r a ↔ c.Pages a
  vbase : (as.vbase r).toNat % 4096 = 0
  nowrap : (as.vbase r).toNat + 4096 * (as.npages r).toNat < 2 ^ 32

structure Vacant (as : Addrspace) (r : UserRange) : Prop where
  vbase : as.vbase r = 0
  npages : as.npages r = 0

theorem define_spec (as : Addrspace) {c : RegionCall} (fits : c.Fits) :
    match as.freeSlot with
    | none => as.define c.vaddr c.sz = none
    | some r => r ≠ .stack ∧ ∃ next, as.define c.vaddr c.sz = some next ∧ Holds next c r ∧
        ∀ q, q ≠ r → next.vbase q = as.vbase q ∧ next.npages q = as.npages q := by
  have rounded := round_region fits
  have pages : ∀ a, c.Pages a ↔ (c.vaddr &&& pageFrame).toNat ≤ a.toNat ∧ a.toNat <
      (c.vaddr &&& pageFrame).toNat +
        4096 * (((c.sz + (c.vaddr &&& ~~~pageFrame) + 4096 - 1) &&& pageFrame) / 4096).toNat := by
    intro a
    rw [RegionCall.pages_iff fits,frame_toNat,rounded]
  have nowrap : (c.vaddr &&& pageFrame).toNat +
      4096 * (((c.sz + (c.vaddr &&& ~~~pageFrame) + 4096 - 1) &&& pageFrame) / 4096).toNat < 2 ^ 32 := by
    have top : usertop.toNat = 2 ^ 31 := rfl
    have below := fits.2
    rw [frame_toNat,rounded]
    omega
  unfold freeSlot
  by_cases first : as.asVbase1 = 0
  · simp only [first,if_true]
    refine ⟨UserRange.noConfusion,?next,?defined,?filled,?others⟩
    case defined =>
      unfold define asDefineRegion
      simp only [first,if_true]
      rfl
    case filled => exact ⟨fun a => (pages a).symm,frame_mod _,nowrap⟩
    case others =>
      intro q other
      cases q with
      | region1 => exact (other rfl).elim
      | region2 => exact ⟨rfl,rfl⟩
      | stack => exact ⟨rfl,rfl⟩
  by_cases second : as.asVbase2 = 0
  · simp only [first,second,if_true,if_false]
    refine ⟨UserRange.noConfusion,?other,?defined,?filled,?others⟩
    case defined =>
      unfold define asDefineRegion
      simp only [first,second,if_true,if_false]
      rfl
    case filled => exact ⟨fun a => (pages a).symm,frame_mod _,nowrap⟩
    case others =>
      intro q other
      cases q with
      | region1 => exact ⟨rfl,rfl⟩
      | region2 => exact (other rfl).elim
      | stack => exact ⟨rfl,rfl⟩
  · simp only [first,second,if_false]
    unfold define asDefineRegion
    simp only [first,second,if_false]
    rfl

theorem within_congr {as next : Addrspace} {q : UserRange}
    (same : next.vbase q = as.vbase q ∧ next.npages q = as.npages q) (a : UInt32) :
    next.Within q a ↔ as.Within q a := by
  unfold Within
  rw [same.1,same.2]

end Addrspace

/-! Calls one after another -/

structure Defining where
  space : Addrspace
  accepted : List RegionCall

namespace Defining

def fresh : Defining := ⟨asCreate,[]⟩

def call (d : Defining) (c : RegionCall) : Defining :=
  match d.space.define c.vaddr c.sz with
  | some next => ⟨next,d.accepted ++ [c]⟩
  | none => d

def calls (d : Defining) (list : List RegionCall) : Defining := list.foldl call d

def Mapped (d : Defining) : Prop := ∀ c ∈ d.accepted, ∀ a, c.Range a → d.space.Covers a

def Filled (d : Defining) : Prop :=
  ∀ q, q ≠ .stack → d.space.Vacant q ∨ ∃ c ∈ d.accepted, d.space.Holds c q

theorem fresh_filled : fresh.Filled := by
  intro q region
  cases q with
  | region1 => exact .inl ⟨rfl,rfl⟩
  | region2 => exact .inl ⟨rfl,rfl⟩
  | stack => exact (region rfl).elim

def Spares (as : Addrspace) (c : RegionCall) : Prop :=
  ∀ r, as.freeSlot = some r → ∀ a, as.Within r a → c.Pages a ∨ ∃ q, q ≠ .stack ∧ q ≠ r ∧ as.Within q a

theorem Vacant.not_within {as : Addrspace} {q : UserRange} (vacant : as.Vacant q) (a : UInt32) :
    ¬ as.Within q a := by
  unfold Addrspace.Within
  rw [vacant.vbase,vacant.npages]
  rintro ⟨-,below⟩
  exact Nat.not_lt_zero _ below

variable {d : Defining} {c : RegionCall}

theorem Filled.within_congr (filled : d.Filled) {q : UserRange} (region : q ≠ .stack) {a b : UInt32}
    (within : d.space.Within q a) (same : a.toNat / 4096 = b.toNat / 4096) : d.space.Within q b := by
  rcases filled q region with vacant | ⟨c,-,holds⟩
  · exact (Vacant.not_within vacant a within).elim
  · exact (holds.within b).mpr (((holds.within a).mp within).congr same)

theorem call_cases (d : Defining) (fits : c.Fits) :
    (d.space.freeSlot = none ∧ d.call c = d) ∨
      ∃ r next, d.space.freeSlot = some r ∧ r ≠ .stack ∧ d.call c = ⟨next,d.accepted ++ [c]⟩ ∧
        next.Holds c r ∧ ∀ q, q ≠ r → next.vbase q = d.space.vbase q ∧ next.npages q = d.space.npages q := by
  have spec := d.space.define_spec fits
  unfold call
  cases slot : d.space.freeSlot with
  | none =>
    rw [slot] at spec
    exact .inl ⟨rfl,by rw [spec]⟩
  | some r =>
    rw [slot] at spec
    obtain ⟨region,next,defined,holds,others⟩ := spec
    exact .inr ⟨r,next,rfl,region,by rw [defined],holds,others⟩

theorem Filled.call (filled : d.Filled) (fits : c.Fits) : (d.call c).Filled := by
  rcases d.call_cases fits with ⟨-,same⟩ | ⟨r,next,-,-,done,holds,others⟩
  · rwa [same]
  · rw [done]
    intro q region
    by_cases filledNow : q = r
    · subst filledNow
      exact .inr ⟨c,List.mem_append_right _ (List.mem_singleton.mpr rfl),holds⟩
    · have same := others q filledNow
      rcases filled q region with vacant | ⟨c',member,old⟩
      · exact .inl ⟨same.1.trans vacant.vbase,same.2.trans vacant.npages⟩
      · refine .inr ⟨c',List.mem_append_left _ member,fun a => ?_,?_,?_⟩
        · exact (Addrspace.within_congr same a).trans (old.within a)
        · rw [same.1]
          exact old.vbase
        · rw [same.1,same.2]
          exact old.nowrap

theorem Mapped.call_iff (mapped : d.Mapped) (filled : d.Filled) (fits : c.Fits) :
    (d.call c).Mapped ↔ Spares d.space c := by
  rcases d.call_cases fits with ⟨full,same⟩ | ⟨r,next,slot,region,done,holds,others⟩
  · rw [same]
    refine iff_of_true mapped fun r slot => ?_
    rw [full] at slot
    cases slot
  have covers : ∀ a, next.Covers a ↔ c.Pages a ∨ ∃ q, q ≠ .stack ∧ q ≠ r ∧ d.space.Within q a := by
    intro a
    constructor
    · rintro ⟨q,userRegion,within⟩
      by_cases here : q = r
      · subst here
        exact .inl ((holds.within a).mp within)
      · exact .inr ⟨q,userRegion,here,(Addrspace.within_congr (others q here) a).mp within⟩
    · rintro (pages | ⟨q,userRegion,other,within⟩)
      · exact ⟨r,region,(holds.within a).mpr pages⟩
      · exact ⟨q,userRegion,(Addrspace.within_congr (others q other) a).mpr within⟩
  rw [done]
  constructor
  · intro after r' slot' a within
    obtain rfl : r = r' := Option.some.inj (slot.symm.trans slot')
    rcases filled r region with vacant | ⟨old,member,held⟩
    · exact (Vacant.not_within vacant a within).elim
    -- The page of `a` has an address that was asked for, and that one is still mapped.
    obtain ⟨b,asked,page⟩ := (held.within a).mp within
    rcases (covers b).mp (after old (List.mem_append_left _ member) b asked) with
      pages | ⟨q,userRegion,other,inside⟩
    · exact .inl (pages.congr page)
    · exact .inr ⟨q,userRegion,other,filled.within_congr userRegion inside page⟩
  · intro spares c' member a asked
    refine (covers a).mpr ?_
    rcases List.mem_append.mp member with earlier | last
    · obtain ⟨q,userRegion,within⟩ := mapped c' earlier a asked
      by_cases here : q = r
      · subst here
        exact spares q slot a within
      · exact .inr ⟨q,userRegion,here,within⟩
    · obtain rfl := List.mem_singleton.mp last
      exact .inl asked.pages

def SparesAll (d : Defining) : List RegionCall → Prop
  | [] => True
  | c :: rest => Spares d.space c ∧ SparesAll (d.call c) rest

theorem Mapped.calls_iff (mapped : d.Mapped) (filled : d.Filled) {list : List RegionCall}
    (fits : ∀ c ∈ list, c.Fits) :
    (∀ done, done <+: list → (d.calls done).Mapped) ↔ d.SparesAll list := by
  induction list generalizing d with
  | nil =>
    refine iff_of_true (fun done within => ?_) trivial
    rw [List.prefix_nil.mp within]
    exact mapped
  | cons c rest next =>
    have first := fits c List.mem_cons_self
    have later := fun c' member => fits c' (List.mem_cons_of_mem _ member)
    have step := mapped.call_iff filled first
    constructor
    · intro all
      have afterOne : (d.call c).Mapped := all [c] (List.prefix_append [c] rest)
      refine ⟨step.mp afterOne,(next afterOne (filled.call first) later).mp fun done within => ?_⟩
      exact all (c :: done) ((List.prefix_cons_inj c).mpr within)
    · rintro ⟨spares,spared⟩ done within
      have afterOne := step.mpr spares
      cases done with
      | nil => exact mapped
      | cons c' done =>
        obtain ⟨rfl,inRest⟩ := List.cons_prefix_cons.mp within
        exact (next afterOne (filled.call first) later).mpr spared done inRest

theorem Filled.calls (filled : d.Filled) {list : List RegionCall} (fits : ∀ c ∈ list, c.Fits) :
    (d.calls list).Filled := by
  induction list generalizing d with
  | nil => exact filled
  | cons c rest next =>
    exact next (filled.call (fits c List.mem_cons_self)) fun c' member =>
      fits c' (List.mem_cons_of_mem _ member)

theorem Filled.translates (filled : d.Filled) {a : UInt32} (covered : d.space.Covers a) (ram : Ram) :
    ((d.space.prepared ram).paddr (a &&& pageFrame)).isSome := by
  have same : ∀ q, (d.space.prepared ram).vbase q = d.space.vbase q ∧
      (d.space.prepared ram).npages q = d.space.npages q := by
    rintro (_ | _ | _) <;> exact ⟨rfl,rfl⟩
  have nowrap : ∀ q, ((d.space.prepared ram).vbase q).toNat +
      4096 * ((d.space.prepared ram).npages q).toNat < 2 ^ 32 := by
    intro q
    rw [(same q).1,(same q).2]
    by_cases stack : q = .stack
    · subst stack
      exact (by decide : (usertop - dumbvmStackpages * 4096).toNat + 4096 * dumbvmStackpages.toNat < 2 ^ 32)
    rcases filled q stack with vacant | ⟨c,-,holds⟩
    · rw [vacant.vbase,vacant.npages]
      decide
    · exact holds.nowrap
  obtain ⟨q,region,within⟩ := covered
  have aligned : (d.space.vbase q).toNat % 4096 = 0 := by
    rcases filled q region with vacant | ⟨c,-,holds⟩
    · rw [vacant.vbase]
      rfl
    · exact holds.vbase
  rw [Addrspace.paddr_eq nowrap,Option.isSome_map,Addrspace.rangeOf_isSome]
  exact ⟨q,(Addrspace.within_congr (same q) _).mpr ((Addrspace.within_page aligned a).mpr within)⟩

/-- A fresh address space, and calls for ranges of user addresses: after each call every address
of every accepted range is in one of the two regions, where `vm_fault` finds it, just if every call
spares what the slot it fills held. -/
theorem accepted_regions_stay_mapped_iff {list : List RegionCall} (fits : ∀ c ∈ list, c.Fits) :
    (∀ done, done <+: list → ∀ c ∈ (fresh.calls done).accepted, ∀ a, c.Range a →
      ((fresh.calls done).space.Within .region1 a ∨ (fresh.calls done).space.Within .region2 a) ∧
        ∀ ram, (((fresh.calls done).space.prepared ram).paddr (a &&& pageFrame)).isSome) ↔
    fresh.SparesAll list := by
  have start : fresh.Mapped := fun c member => (List.not_mem_nil member).elim
  rw [← start.calls_iff fresh_filled fits]
  constructor
  · intro all done within c member a asked
    exact Addrspace.covers_iff.mpr (all done within c member a asked).1
  · intro all done within c member a asked
    have covered := all done within c member a asked
    have filled : (fresh.calls done).Filled :=
      fresh_filled.calls fun c' early => fits c' (within.subset early)
    exact ⟨Addrspace.covers_iff.mp covered,fun ram => filled.translates covered ram⟩

theorem Vacant.spares {as : Addrspace} {r : UserRange} (slot : as.freeSlot = some r) (vacant : as.Vacant r)
    (c : RegionCall) : Spares as c := by
  intro r' slot' a within
  obtain rfl : r = r' := Option.some.inj (slot.symm.trans slot')
  exact (Vacant.not_within vacant a within).elim

/-- Two regions above page 0. -/
theorem accepted_regions_stay_mapped_two :
    (∀ c ∈ [RegionCall.mk 0x1000 1,⟨0x2000,1⟩], c.Fits) ∧
      ((fresh.calls [⟨0x1000,1⟩,⟨0x2000,1⟩]).space.Within .region1 0x1000 ∨
        (fresh.calls [⟨0x1000,1⟩,⟨0x2000,1⟩]).space.Within .region2 0x1000) := by
  have fits : ∀ c ∈ [RegionCall.mk 0x1000 1,⟨0x2000,1⟩], c.Fits := by decide
  have spared : fresh.SparesAll [⟨0x1000,1⟩,⟨0x2000,1⟩] :=
    ⟨Vacant.spares rfl ⟨rfl,rfl⟩ _,Vacant.spares (r := .region2) rfl ⟨rfl,rfl⟩ _,trivial⟩
  refine ⟨fits,?_⟩
  exact ((accepted_regions_stay_mapped_iff fits).mpr spared _ List.prefix_rfl ⟨0x1000,1⟩
    (by decide) 0x1000 ⟨by decide,by decide⟩).1

/-- A region in page 0 is lost when the next one is defined: both calls return 0 and address 0 is
in neither region. -/
theorem accepted_region_lost_page0 :
    (∀ c ∈ [RegionCall.mk 0 0x1000,⟨0x1000,0x1000⟩], c.Fits) ∧
      (fresh.calls [⟨0,0x1000⟩,⟨0x1000,0x1000⟩]).accepted = [⟨0,0x1000⟩,⟨0x1000,0x1000⟩] ∧
      ¬ ((fresh.calls [⟨0,0x1000⟩,⟨0x1000,0x1000⟩]).space.Within .region1 0 ∨
        (fresh.calls [⟨0,0x1000⟩,⟨0x1000,0x1000⟩]).space.Within .region2 0) := by
  decide

end Defining

end Os161
