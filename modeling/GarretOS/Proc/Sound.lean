import GarretOS.Proc.Places
import GarretOS.Proc.TimerList

/-!
# The invariant of the process kernel

`Sound s` puts together what holds of the processes between any two steps: they form a family whose
zombies have no children, they are where their states say, the run pool holds those that wait for
the processor, and the wait queues and the timer list are well formed.

* `TimersOk.moves` : the timer list when processes move from place to place;
* `CurrStep.sound` : a step that changes only the running process keeps it.
-/

namespace GarretOS

open ProcTable Sched Countdown

namespace Kernel

variable {κ ν μ ρ : Type} [DecidableEq κ] [DecidableEq ν] {s s' : Kernel κ ν μ ρ} {k : ℕ}

/-- The timer list holds the timers of processes that sleep. -/
def TimersOk (s : Kernel κ ν μ ρ) : Prop :=
  ∃ K xs ys, Timers.TimerList s.timers K xs ∧ ByDeadline xs ys ∧ (∀ x ∈ xs, 0 < x.2) ∧
    (∀ x ∈ xs, x.1.2 = x.1.1 ∧ x.1.1 ∈ s.used ∧ (s.loc x.1.1).At .sleep) ∧
    ∀ p ∈ s.used, (s.loc p).At .sleep → p ∈ K

/-- The processes form a family in which the zombies have no children. -/
def Family (s : Kernel κ ν μ ρ) : Prop :=
  ∃ ps kids, s.FamilyOk ps kids ∧ ∀ z ∈ s.used, s.Zombie z → z ≠ s.initProc → kids z = []

/-- What holds between two steps. -/
structure Sound (s : Kernel κ ν μ ρ) : Prop where
  family : s.Family
  placed : s.Placed
  pool : ∃ t, s.sched.PoolOk s.used t
  queues : ∃ qs, s.sched.sem.QueueOk qs
  timers : s.TimersOk

namespace TimersOk

omit [DecidableEq κ]

theorem congr (h : s.TimersOk) (htimers : s'.timers = s.timers) (hinUse : s'.inUse = s.inUse)
    (hloc : ∀ p ∈ s.used, (s'.loc p).At .sleep ↔ (s.loc p).At .sleep) : s'.TimersOk := by
  obtain ⟨K, xs, ys, h1, h2, h3, h4, h5⟩ := h
  have hused : s'.used = s.used := by
    unfold used
    rw [hinUse]
  refine ⟨K, xs, ys, htimers ▸ h1, h2, h3, fun x hx => ?_, fun p hp hl => ?_⟩
  · obtain ⟨h6, h7, h8⟩ := h4 x hx
    rw [hused]
    exact ⟨h6, h7, (hloc _ h7).2 h8⟩
  · rw [hused] at hp
    exact h5 p hp ((hloc p hp).1 hl)

/-- The running process moves, and it is not in `do_sleep` before or after. -/
theorem moves (h : s.TimersOk) (htimers : s'.timers = s.timers) (hinUse : s'.inUse = s.inUse)
    {l : Loc κ} (hloc : s'.loc = Function.update s.loc s.curr l)
    (hbefore : ¬(s.loc s.curr).At .sleep) (hafter : ¬ l.At .sleep) : s'.TimersOk := by
  refine h.congr htimers hinUse fun p _ => ?_
  rw [hloc]
  by_cases hp : p = s.curr
  · rw [hp, Function.update_self]
    exact ⟨fun hl => absurd hl hafter, fun hl => absurd hl hbefore⟩
  · rw [Function.update_of_ne hp]

end TimersOk

/-! ### Steps of the running process -/

/-- What a step does that only concerns the running process. -/
structure CurrStep (s s' : Kernel κ ν μ ρ) : Prop where
  table : s'.table = s.table
  inUse : s'.inUse = s.inUse
  initProc : s'.initProc = s.initProc
  curr : s'.sched.curr = s.sched.curr
  idle : s'.sched.idle = s.sched.idle
  holds : ∀ t, s.sched.queue.Holds t → s'.sched.queue.Holds t
  other : ∀ p, p ≠ s.curr → s'.loc p = s.loc p ∧ s'.sched.pcb p = s.sched.pcb p ∧
    s'.sched.sem.blockedIn p = s.sched.sem.blockedIn p
  allows : (s'.loc s.curr).Allows (s'.sched.pcb s.curr)
  stays : ¬(s'.loc s.curr).Away
  down : ∀ k, s'.sched.sem.blockedIn s.curr = some k ↔ (s'.loc s.curr).At (.down k)
  idleLoc : s.curr = s.sched.idle → s'.loc s.curr = .kernel ∨ (s'.loc s.curr).At .kernel
  kernel : s'.isUser s.sched.idle = false

namespace CurrStep

omit [DecidableEq κ]

omit [DecidableEq ν] in
theorem used_eq (h : CurrStep s s') : s'.used = s.used := by
  unfold used
  rw [h.inUse]

theorem placed (h : CurrStep s s') (hs : s.Placed) : s'.Placed :=
  hs.update h.curr h.idle h.used_eq (fun p _ hp => ⟨(h.other p hp).1, (h.other p hp).2.1⟩) h.allows
    (fun hl => absurd hl h.stays) h.down (fun p hp => (h.other p hp).2.2) h.idleLoc h.kernel

omit [DecidableEq ν] in
theorem pool (h : CurrStep s s') {t : Tree ν} (hs : s.sched.PoolOk s.used t) :
    s'.sched.PoolOk s'.used t := by
  refine ⟨h.holds t hs.holds, fun p => ?_⟩
  rw [hs.mem, h.used_eq, h.curr, h.idle]
  have hrun : p ≠ s.sched.curr → (s'.sched.Runnable p ↔ s.sched.Runnable p) := by
    intro hp
    rw [Sched.Runnable, (h.other p hp).2.1]
    rfl
  constructor
  · rintro ⟨h1, h2, h3, h4⟩
    exact ⟨h1, (hrun h3).2 h2, h3, h4⟩
  · rintro ⟨h1, h2, h3, h4⟩
    exact ⟨h1, (hrun h3).1 h2, h3, h4⟩

/-- The running process is still alive. -/
theorem sound (h : CurrStep s s') [DecidableEq κ] (hs : s.Sound) (halive : ¬ s'.Zombie s.curr)
    (hqueues : ∃ qs, s'.sched.sem.QueueOk qs) (htimers : s'.TimersOk) : s'.Sound := by
  obtain ⟨ps, kids, hfamily, hchildless⟩ := hs.family
  obtain ⟨t, hpool⟩ := hs.pool
  refine ⟨⟨ps, kids, hfamily.congr h.table h.inUse h.idle h.initProc, fun z hz hzombie hne => ?_⟩,
    h.placed hs.placed, ⟨t, h.pool hpool⟩, hqueues, htimers⟩
  rw [h.used_eq] at hz
  rw [h.initProc] at hne
  have hzc : z ≠ s.curr := by
    rintro rfl
    exact halive hzombie
  refine hchildless z hz ?_ hne
  rw [Zombie, (h.other z hzc).2.1] at hzombie
  exact hzombie

end CurrStep

end Kernel

end GarretOS
