import Os161.Census
import Os161.ThreadCalls

/-! Every thread is in one place, and the room that `thread_fork` reserves. One invariant
covers both, because the counters are what the reservations are made from. -/
namespace Os161

namespace Threads

def live (s : Threads) : List Tid := s.curthread.toList ++ (s.runqueue.toList ++ s.sleepers.v)

structure Inv (s : Threads) : Prop where
  valid : s.runqueue.Valid
  sleepersFit : s.sleepers.num ≤ s.sleepers.max
  zombiesFit : s.zombies.num ≤ s.zombies.max
  census : Census (s.live ++ s.zombies.v) s.born s.destroyed
  counted : s.numthreads = s.live.length
  cleaned : ∀ z ∈ s.zombies.v, (s.thread z).tVmspace = false ∧ (s.thread z).tCwd = false
  ring : s.numthreads ≤ s.runqueue.size
  reserved : 1 < s.born → s.numthreads ≤ s.sleepers.max

variable {s u w : Threads} {cur : Tid}

theorem length_live (s : Threads) :
    s.live.length = s.curthread.toList.length + (s.runqueue.count + s.sleepers.num) := by
  rw [live,List.length_append,List.length_append,Queue.length_toList,KArray.num]

theorem booted_live (mem : Kmem) : (booted mem).live = [0] := by
  simp [live,booted,Queue.toList,Queue.count,KArray.arrayCreate]

theorem booted_inv (mem : Kmem) : (booted mem).Inv := by
  refine ⟨⟨?_,?_,?_⟩,Nat.le_refl _,Nat.le_refl _,⟨?_,fun t => ?_,?_⟩,?_,?_,?_,fun born => ?_⟩
  · exact Nat.zero_lt_succ 31
  · exact Nat.zero_lt_succ 31
  · exact Nat.zero_lt_succ 31
  · rw [booted_live]
    exact List.nodup_singleton 0
  · rw [booted_live]
    show t ∈ [0] ↔ t < 1 ∧ t ∉ []
    rw [List.mem_singleton]
    exact ⟨fun h => ⟨by omega,List.not_mem_nil⟩,fun h => by omega⟩
  · exact fun _ mem => absurd mem List.not_mem_nil
  · rw [booted_live]
    rfl
  · exact fun _ mem => absurd mem List.not_mem_nil
  · exact Nat.le_add_left 1 31
  · exact absurd born (Nat.lt_irrefl 1)

namespace Inv

theorem notZombie (inv : s.Inv) {t : Tid} (mem : t ∈ s.live) : t ∉ s.zombies.v := fun zombie =>
  (List.nodup_append.mp inv.census.nodup).2.2 t mem t zombie rfl

theorem running (_ : s.Inv) (current : s.curthread = some cur) : cur ∈ s.live :=
  List.mem_append_left _ (by rw [current]; exact List.mem_singleton_self cur)

theorem awake (inv : s.Inv) (current : s.curthread = some cur) : cur ∉ s.sleepers.v := by
  intro asleep
  have nodup := (List.nodup_append.mp inv.census.nodup).1
  rw [live,current] at nodup
  exact (List.nodup_cons.mp nodup).1 (List.mem_append_right s.runqueue.toList asleep)

theorem positive (inv : s.Inv) (current : s.curthread = some cur) : 0 < s.numthreads := by
  rw [inv.counted]
  exact List.length_pos_of_mem (inv.running current)

end Inv

structure Shuffled (s u : Threads) : Prop where
  valid : u.runqueue.Valid
  size : s.runqueue.size ≤ u.runqueue.size
  live : u.live.Perm s.live
  sleepersFit : u.sleepers.num ≤ u.sleepers.max
  sleepersMax : s.sleepers.max ≤ u.sleepers.max
  zombies : u.zombies.v = s.zombies.v
  zombiesMax : s.zombies.max ≤ u.zombies.max
  count : u.numthreads = s.numthreads
  born : u.born = s.born
  destroyed : u.destroyed = s.destroyed
  thread : ∀ t ∈ s.zombies.v, (u.thread t).tVmspace = (s.thread t).tVmspace ∧
    (u.thread t).tCwd = (s.thread t).tCwd

theorem Shuffled.trans (first : Shuffled s u) (second : Shuffled u w) : Shuffled s w where
  valid := second.valid
  size := first.size.trans second.size
  live := second.live.trans first.live
  sleepersFit := second.sleepersFit
  sleepersMax := first.sleepersMax.trans second.sleepersMax
  zombies := second.zombies.trans first.zombies
  zombiesMax := first.zombiesMax.trans second.zombiesMax
  count := second.count.trans first.count
  born := second.born.trans first.born
  destroyed := second.destroyed.trans first.destroyed
  thread := fun t mem => by
    have there := second.thread t (first.zombies ▸ mem)
    exact ⟨there.1.trans (first.thread t mem).1,there.2.trans (first.thread t mem).2⟩

theorem Inv.shuffled (inv : s.Inv) (shuffled : Shuffled s u) : u.Inv where
  valid := shuffled.valid
  sleepersFit := shuffled.sleepersFit
  zombiesFit := by
    rw [KArray.num,shuffled.zombies]
    exact inv.zombiesFit.trans shuffled.zombiesMax
  census := by
    rw [shuffled.born,shuffled.destroyed,shuffled.zombies]
    exact inv.census.perm (shuffled.live.append_right _)
  counted := shuffled.count.trans (inv.counted.trans shuffled.live.length_eq.symm)
  cleaned := fun z mem => by
    rw [shuffled.zombies] at mem
    obtain ⟨vmspace,cwd⟩ := shuffled.thread z mem
    rw [vmspace,cwd]
    exact inv.cleaned z mem
  ring := shuffled.count ▸ inv.ring.trans shuffled.size
  reserved := fun born => shuffled.count ▸
    (inv.reserved (shuffled.born ▸ born)).trans shuffled.sleepersMax

theorem Shuffled.requeued {v : Threads} {l : List Tid} (queued : Queued v l u)
    (queue : v.runqueue = s.runqueue) (live : (v.live ++ l).Perm s.live)
    (fits : v.sleepers.num ≤ v.sleepers.max) (max : v.sleepers.max = s.sleepers.max)
    (zombies : v.zombies = s.zombies) (count : v.numthreads = s.numthreads)
    (born : v.born = s.born) (destroyed : v.destroyed = s.destroyed)
    (thread : ∀ t ∈ s.zombies.v, (v.thread t).tVmspace = (s.thread t).tVmspace ∧
      (v.thread t).tCwd = (s.thread t).tCwd) : Shuffled s u := by
  obtain ⟨curU,sleepersU,zombiesU,countU,threadU,bornU,goneU⟩ := queued.others
  refine ⟨queued.valid,queue ▸ queued.size,?_,sleepersU ▸ fits,(sleepersU ▸ max).ge,
    congrArg KArray.v (zombiesU.trans zombies),(congrArg KArray.max (zombiesU.trans zombies)).ge,
    countU.trans count,bornU.trans born,goneU.trans destroyed,threadU ▸ thread⟩
  have moved : u.live.Perm (v.live ++ l) := by
    rw [List.perm_iff_count]
    intro t
    simp only [Threads.live,curU,queued.list,sleepersU,List.count_append]
    omega
  exact moved.trans live

section
variable (inv : s.Inv)
include inv

theorem edit_zombies (current : s.curthread = some cur) (f : Thread → Thread) :
    ∀ t ∈ s.zombies.v, (s.edit cur f).thread t = s.thread t := fun _ zombie =>
  s.edit_other f fun same => inv.notZombie (inv.running current) (same ▸ zombie)

theorem Inv.yielded (current : s.curthread = some cur)
    (queued : Queued (s.off cur .yield) [cur] u) : Shuffled s u := by
  refine .requeued queued rfl ?_ inv.sleepersFit rfl rfl rfl rfl rfl fun t zombie => ?_
  · rw [List.perm_iff_count]
    intro t
    simp only [Threads.live,Threads.off,current,Option.toList_none,Option.toList_some,
      List.count_append,List.nil_append]
    simp only [Threads.edit]
    omega
  · simp only [Threads.off,edit_zombies inv current _ t zombie,and_self]

theorem Inv.woke {addr : SleepAddr}
    (queued : Queued { s with sleepers := s.stillAsleep addr } (s.woken addr) u) : Shuffled s u := by
  refine .requeued queued rfl ?_ ?_ rfl rfl rfl rfl rfl fun _ _ => ⟨rfl,rfl⟩
  · rw [List.perm_iff_count]
    intro t
    have both := (List.filter_append_perm (s.sleepsOn addr) s.sleepers.v).count_eq t
    rw [List.count_append] at both
    simp only [Threads.live,Threads.stillAsleep,Threads.woken,List.count_append]
    omega
  · exact (List.length_filter_le _ _).trans inv.sleepersFit

theorem Inv.slept (current : s.curthread = some cur) {addr : SleepAddr}
    {h : Held (KArray Tid)} (added : KArray.Added ⟨s.sleepers,s.mem⟩ cur h) :
    Shuffled s ((s.sleepy cur addr).withSleepers h) where
  valid := inv.valid
  size := Nat.le_refl _
  live := by
    rw [List.perm_iff_count]
    intro t
    simp only [Threads.live,Threads.withSleepers,Threads.sleepy,Threads.off,Threads.edit,current,
      added.list,Option.toList_none,Option.toList_some,List.count_append,List.nil_append]
    omega
  sleepersFit := added.fits
  sleepersMax := added.max
  zombies := rfl
  zombiesMax := Nat.le_refl _
  count := rfl
  born := rfl
  destroyed := rfl
  thread := fun t zombie => by
    have other : t ≠ cur := fun same => inv.notZombie (inv.running current) (same ▸ zombie)
    simp only [Threads.withSleepers,Threads.sleepy,Threads.off,Threads.edit_other _ _ other,and_self]

theorem Inv.edited (current : s.curthread = some cur) (f : Thread → Thread) :
    Shuffled s (s.edit cur f) where
  valid := inv.valid
  size := Nat.le_refl _
  live := List.Perm.refl _
  sleepersFit := inv.sleepersFit
  sleepersMax := Nat.le_refl _
  zombies := rfl
  zombiesMax := Nat.le_refl _
  count := rfl
  born := rfl
  destroyed := rfl
  thread := fun t zombie => by rw [edit_zombies inv current f t zombie]; exact ⟨rfl,rfl⟩

theorem Inv.roomier (roomier : Roomier s u) : Shuffled s u where
  valid := roomier.valid
  size := roomier.size
  live := by rw [Threads.live,roomier.cur,roomier.queue,roomier.sleepers]; rfl
  sleepersFit := roomier.counts.2.1.trans_le (inv.sleepersFit.trans roomier.sleepersMax)
  sleepersMax := roomier.sleepersMax
  zombies := roomier.zombies
  zombiesMax := roomier.zombiesMax
  count := roomier.count
  born := roomier.born
  destroyed := roomier.destroyed
  thread := fun t zombie => by
    have other : t ≠ s.born := fun same =>
      inv.census.unborn (same ▸ List.mem_append_right _ zombie)
    rw [roomier.thread t other]
    exact ⟨rfl,rfl⟩

theorem Inv.forked (forked : Forked s u) : u.Inv := by
  obtain ⟨w,roomier,sleepersMax,-,size,-,x,queued,rfl⟩ := forked.reserved
  have invW := inv.shuffled (inv.roomier roomier)
  obtain ⟨curX,sleepersX,zombiesX,countX,threadX,bornX,goneX⟩ := queued.others
  rw [roomier.count] at countX
  rw [roomier.born] at bornX
  rw [roomier.destroyed] at goneX
  have liveX : x.live.Perm (s.born :: w.live) := by
    rw [List.perm_iff_count]
    intro t
    simp only [Threads.live,curX,queued.list,sleepersX,List.count_append,List.count_cons,
      List.count_nil]
    omega
  have newborn : Census (s.born :: (w.live ++ w.zombies.v)) (s.born + 1) s.destroyed := by
    rw [← roomier.born,← roomier.destroyed]
    exact invW.census.birth
  refine ⟨queued.valid,sleepersX ▸ invW.sleepersFit,zombiesX ▸ invW.zombiesFit,?_,?_,
    fun z mem => ?_,?_,fun _ => ?_⟩
  · show Census (x.live ++ x.zombies.v) (x.born + 1) x.destroyed
    rw [bornX,goneX,zombiesX]
    exact newborn.perm (liveX.append_right _)
  · show x.numthreads + 1 = x.live.length
    rw [liveX.length_eq,List.length_cons,← invW.counted,countX,roomier.count]
  · show (x.thread z).tVmspace = false ∧ (x.thread z).tCwd = false
    rw [threadX]
    exact invW.cleaned z (zombiesX ▸ mem)
  · show x.numthreads + 1 ≤ x.runqueue.size
    rw [countX]
    exact size.trans queued.size
  · show x.numthreads + 1 ≤ x.sleepers.max
    rw [countX,sleepersX]
    exact sleepersMax

theorem Inv.exited (current : s.curthread = some cur) {h : Held (KArray Tid)}
    (added : KArray.Added ⟨s.zombies,s.mem⟩ cur h) : ((s.dying cur).withZombies h).Inv := by
  have lives : s.live.Perm (cur :: ((s.dying cur).withZombies h).live) := by
    rw [List.perm_iff_count]
    intro t
    simp only [Threads.live,Threads.withZombies,Threads.dying,Threads.leaving,Threads.off,
      Threads.edit,current,Option.toList_none,Option.toList_some,List.count_append,List.nil_append,
      List.count_cons,List.count_nil]
    omega
  have less : s.numthreads - 1 = ((s.dying cur).withZombies h).live.length := by
    have := lives.length_eq
    rw [← inv.counted,List.length_cons] at this
    omega
  refine ⟨inv.valid,inv.sleepersFit,added.fits,?_,less,fun z mem => ?_,
    (Nat.sub_le _ _).trans inv.ring,fun born => (Nat.sub_le _ _).trans (inv.reserved born)⟩
  · apply inv.census.perm
    rw [List.perm_iff_count]
    intro t
    have counted := lives.count_eq t
    rw [List.count_cons] at counted
    simp only [Threads.withZombies,added.list,List.count_append,List.count_cons,List.count_nil]
    simp only [Threads.withZombies] at counted
    omega
  · have list : z ∈ s.zombies.v ++ [cur] := added.list ▸ mem
    simp only [Threads.withZombies,Threads.dying,Threads.leaving,Threads.off]
    rcases List.mem_append.mp list with before | self
    · have other : z ≠ cur := fun same => inv.notZombie (inv.running current) (same ▸ before)
      simp only [Threads.edit,Function.update_of_ne other]
      exact inv.cleaned z before
    · rw [List.mem_singleton.mp self]
      simp only [Threads.edit,Function.update_self,and_self]

theorem Inv.exorcised : s.exorcised.Inv where
  valid := inv.valid
  sleepersFit := inv.sleepersFit
  zombiesFit := Nat.zero_le _
  census := by
    show Census (s.live ++ []) s.born (s.zombies.v.reverse ++ s.destroyed)
    rw [List.append_nil]
    exact inv.census.bury
  counted := inv.counted
  cleaned := fun _ mem => absurd mem List.not_mem_nil
  ring := inv.ring
  reserved := inv.reserved

theorem Inv.picked (idle : s.curthread = none) {next : Tid} {rest : List Tid}
    (list : s.runqueue.toList = next :: rest) {q : Queue Tid} (valid : q.Valid)
    (size : q.size = s.runqueue.size) (listQ : q.toList = rest) :
    Shuffled s (s.picked next q) where
  valid := valid
  size := size.ge
  live := by
    rw [Threads.live,Threads.live,idle,list]
    simp only [Threads.picked,listQ,Option.toList_none,Option.toList_some,List.nil_append,
      List.cons_append]
    exact List.Perm.refl _
  sleepersFit := inv.sleepersFit
  sleepersMax := Nat.le_refl _
  zombies := rfl
  zombiesMax := Nat.le_refl _
  count := rfl
  born := rfl
  destroyed := rfl
  thread := fun _ _ => ⟨rfl,rfl⟩

theorem Inv.returned (current : s.curthread = some cur) (resume : Resume) :
    (s.returned cur resume).Inv := by
  cases resume with
  | start => exact inv
  | yield => exact inv.exorcised
  | sleep =>
    have edited := inv.exorcised.edited current fun t => { t with tSleepaddr := none }
    exact inv.exorcised.shuffled edited

end

end Threads

end Os161
