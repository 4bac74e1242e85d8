import GarretOS.Proc.Lifecycle

/-!
# Where the processes are

The place of a process says what its state may be (`Loc.Allows`): a process that has called
`schedule` in `do_wait` is asleep waiting for a child or has been woken, one that has called it in
`do_exit` is a zombie, and so on.  `Placed s` says that this holds of every process, and that only
the running process is at a place outside `schedule`.
-/

namespace GarretOS

/-- The states of a process that has called `schedule`. -/
def Ret.Allows {κ : Type} : Ret κ → RunState → Prop
  | .trap, r => r = .running
  | .kernel, r => r = .running
  | .wait _ _, r => r = .running ∨ r = ⟨.sleeping, waitChild⟩
  | .sleep, r => r = .running ∨ r = ⟨.sleeping, waitTimer⟩
  | .down _, r => r = .running ∨ r = ⟨.sleeping, waitSem⟩
  | .exit, r => r = ⟨.zombie, waitNone⟩

namespace Loc

variable {κ : Type} {l : Loc κ} {r : RunState}

/-- The states of a process at this place. -/
def Allows : Loc κ → RunState → Prop
  | .calling ret, r => ret.Allows r
  | .within ret, r => ret.Allows r
  | _, r => r = .running

/-- The process has called `schedule` there, or is about to do so. -/
def At (l : Loc κ) (ret : Ret κ) : Prop := l = .calling ret ∨ l = .within ret

/-- The process has given up the processor. -/
def Away : Loc κ → Prop
  | .newborn => True
  | .within _ => True
  | _ => False

/-- Places outside `do_wait`, `do_sleep`, `down`, `do_exit` and `do_execve`. -/
def Free : Loc κ → Prop
  | .loading => False
  | .calling ret => ret = .trap ∨ ret = .kernel
  | .within ret => ret = .trap ∨ ret = .kernel
  | _ => True

/-- A process whose place does not ask for more has its state given by the place it has called
`schedule` at. -/
theorem Allows.cases (h : l.Allows r) : r = .running ∨ ∃ ret, l.At ret ∧ ret.Allows r := by
  cases l with
  | calling ret => exact Or.inr ⟨ret, Or.inl rfl, h⟩
  | within ret => exact Or.inr ⟨ret, Or.inr rfl, h⟩
  | _ => exact Or.inl h

theorem Allows.of_at {ret : Ret κ} (hl : l.At ret) : l.Allows r ↔ ret.Allows r := by
  rcases hl with rfl | rfl
  · exact Iff.rfl
  · exact Iff.rfl

theorem at_unique {ret ret' : Ret κ} (h : l.At ret) (h' : l.At ret') : ret = ret' := by
  rcases h with rfl | rfl
  · simpa [At] using h'
  · simpa [At] using h'

/-- Places in no queue of the kernel. -/
structure Unqueued (l : Loc κ) : Prop where
  sleep : ¬ l.At .sleep
  down : ∀ k, ¬ l.At (.down k)

theorem Free.at_eq (h : l.Free) {ret : Ret κ} (hl : l.At ret) : ret = .trap ∨ ret = .kernel := by
  rcases hl with rfl | rfl
  · exact h
  · exact h

theorem Free.unqueued (h : l.Free) : l.Unqueued := by
  constructor
  · intro hl
    simpa using h.at_eq hl
  · intro k hl
    simpa using h.at_eq hl

theorem Free.allows (h : l.Free) : l.Allows .running := by
  cases l with
  | calling ret => rcases h with rfl | rfl <;> rfl
  | within ret => rcases h with rfl | rfl <;> rfl
  | loading => cases h
  | _ => rfl

/-- The four kinds of states. -/
theorem Allows.kinds (h : l.Allows r) : r = .running ∨
    (r = ⟨.sleeping, waitChild⟩ ∧ ∃ pid store, l.At (.wait pid store)) ∨
    (r = ⟨.sleeping, waitTimer⟩ ∧ l.At .sleep) ∨
    (r = ⟨.sleeping, waitSem⟩ ∧ ∃ k, l.At (.down k)) ∨
    (r = ⟨.zombie, waitNone⟩ ∧ l.At .exit) := by
  rcases h.cases with h | ⟨ret, hl, h⟩
  · exact Or.inl h
  cases ret with
  | trap => exact Or.inl h
  | kernel => exact Or.inl h
  | wait pid store =>
    rcases h with h | h
    · exact Or.inl h
    · exact Or.inr (Or.inl ⟨h, pid, store, hl⟩)
  | sleep =>
    rcases h with h | h
    · exact Or.inl h
    · exact Or.inr (Or.inr (Or.inl ⟨h, hl⟩))
  | down k =>
    rcases h with h | h
    · exact Or.inl h
    · exact Or.inr (Or.inr (Or.inr (Or.inl ⟨h, k, hl⟩)))
  | exit => exact Or.inr (Or.inr (Or.inr (Or.inr ⟨h, hl⟩)))

theorem Allows.eq_running (h : l.Allows r) (hr : r.state = .runnable) : r = .running := by
  rcases h.kinds with rfl | ⟨rfl, -⟩ | ⟨rfl, -⟩ | ⟨rfl, -⟩ | ⟨rfl, -⟩ <;> simp at hr ⊢

/-- Only a process that is asleep waits for something. -/
theorem Allows.asleep_iff (h : l.Allows r) : r.waitState ≠ waitNone ↔ r.state = .sleeping := by
  rcases h.kinds with rfl | ⟨rfl, -⟩ | ⟨rfl, -⟩ | ⟨rfl, -⟩ | ⟨rfl, -⟩ <;> decide

theorem Allows.zombie_iff (h : l.Allows r) : r.state = .zombie ↔ l.At .exit := by
  constructor
  · rintro hr
    rcases h.kinds with rfl | ⟨rfl, -⟩ | ⟨rfl, -⟩ | ⟨rfl, -⟩ | ⟨-, hl⟩
    · cases hr
    · cases hr
    · cases hr
    · cases hr
    · exact hl
  · intro hl
    rw [Allows.of_at hl] at h
    rw [h]

theorem Allows.waitChild (h : l.Allows r) (hr : r.waitState = waitChild) :
    r.state = .sleeping ∧ ∃ pid store, l.At (.wait pid store) := by
  rcases h.kinds with rfl | ⟨rfl, hl⟩ | ⟨rfl, -⟩ | ⟨rfl, -⟩ | ⟨rfl, -⟩
  · exact absurd hr (by decide)
  · exact ⟨rfl, hl⟩
  · exact absurd hr (by decide)
  · exact absurd hr (by decide)
  · exact absurd hr (by decide)

/-- A process in an interruptible wait. -/
theorem Allows.waitInt (h : l.Allows r) (hr : r.waitState &&& waitInt ≠ 0) :
    r.state = .sleeping ∧ ((∃ pid store, l.At (.wait pid store)) ∨ l.At .sleep) := by
  rcases h.kinds with rfl | ⟨rfl, hl⟩ | ⟨rfl, hl⟩ | ⟨rfl, -⟩ | ⟨rfl, -⟩
  · exact absurd hr (by decide)
  · exact ⟨rfl, Or.inl hl⟩
  · exact ⟨rfl, Or.inr hl⟩
  · exact absurd hr (by decide)
  · exact absurd hr (by decide)

/-- Waking a process that is not a zombie is allowed everywhere. -/
theorem Allows.woken (h : l.Allows r) (hr : r.state ≠ .zombie) : l.Allows r.woken := by
  rw [RunState.woken_running h.eq_running]
  rcases h.cases with rfl | ⟨ret, hl, h⟩
  · exact h
  · rw [Allows.of_at hl]
    cases ret with
    | exit =>
      rw [show r = ⟨.zombie, waitNone⟩ from h] at hr
      exact absurd rfl hr
    | trap => rfl
    | kernel => rfl
    | _ => exact Or.inl rfl

end Loc

namespace Kernel

variable {κ ν μ ρ : Type} [DecidableEq ν] {s s' : Kernel κ ν μ ρ}

/-- The processes are where their states say. -/
structure Placed (s : Kernel κ ν μ ρ) : Prop where
  curr_mem : s.curr ∈ s.used
  idle_mem : s.sched.idle ∈ s.used
  allows : ∀ p ∈ s.used, (s.loc p).Allows (s.sched.pcb p)
  /-- The other processes have called `schedule`, or have not started. -/
  away : ∀ p ∈ s.used, p ≠ s.curr → (s.loc p).Away
  /-- When `schedule` returns to a process it is runnable. -/
  here : (s.loc s.curr).Away → s.sched.pcb s.curr = .running
  /-- The processes inside `down`. -/
  down : ∀ p k, s.sched.sem.blockedIn p = some k ↔ p ∈ s.used ∧ (s.loc p).At (.down k)
  /-- The idle process does nothing but call `schedule`. -/
  idle : s.loc s.sched.idle = .kernel ∨ (s.loc s.sched.idle).At .kernel
  idle_kernel : s.isUser s.sched.idle = false

namespace Placed

omit [DecidableEq ν] in
theorem idle_running (h : s.Placed) : s.sched.pcb s.sched.idle = .running := by
  have := h.allows s.sched.idle h.idle_mem
  rcases h.idle with hl | hl
  · rw [hl] at this
    exact this
  · rwa [Loc.Allows.of_at hl] at this

omit [DecidableEq ν] in
/-- A process that is somewhere else is not the idle process. -/
theorem ne_idle (h : s.Placed) {p : ν} (hl : s.loc p ≠ .kernel ∧ ¬ (s.loc p).At .kernel) :
    p ≠ s.sched.idle := by
  rintro rfl
  exact h.idle.elim hl.1 hl.2

omit [DecidableEq ν] in
theorem ne_idle_of_at (h : s.Placed) {p : ν} {ret : Ret κ} (hl : (s.loc p).At ret)
    (hret : ret ≠ .kernel) : p ≠ s.sched.idle := by
  refine h.ne_idle ⟨fun hk => ?_, fun hat => hret (Loc.at_unique hl hat)⟩
  rw [hk] at hl
  rcases hl with hl | hl <;> cases hl

omit [DecidableEq ν] in
/-- The running process is running unless it is about to call `schedule`. -/
theorem curr_running (h : s.Placed) (hl : ∀ r, s.loc s.curr ≠ .calling r) :
    s.sched.pcb s.curr = .running := by
  have hallows := h.allows s.curr h.curr_mem
  have hhere := h.here
  cases hloc : s.loc s.curr with
  | calling r => exact absurd hloc (hl r)
  | within r =>
    rw [hloc] at hhere
    exact hhere trivial
  | newborn =>
    rw [hloc] at hhere
    exact hhere trivial
  | _ =>
    rw [hloc] at hallows
    exact hallows

/-- **A step of the running process** that stays the running one. -/
theorem update (h : s.Placed) (hcurr : s'.curr = s.curr) (hidle : s'.sched.idle = s.sched.idle)
    (hused : s'.used = s.used)
    (hother : ∀ p ∈ s.used, p ≠ s.curr → s'.loc p = s.loc p ∧ s'.sched.pcb p = s.sched.pcb p)
    (hallows : (s'.loc s.curr).Allows (s'.sched.pcb s.curr))
    (hhere : (s'.loc s.curr).Away → s'.sched.pcb s.curr = .running)
    (hdown : ∀ k, s'.sched.sem.blockedIn s.curr = some k ↔ (s'.loc s.curr).At (.down k))
    (hblocked : ∀ p, p ≠ s.curr → s'.sched.sem.blockedIn p = s.sched.sem.blockedIn p)
    (hidleLoc : s.curr = s.sched.idle →
      s'.loc s.curr = .kernel ∨ (s'.loc s.curr).At .kernel)
    (hkernel : s'.isUser s.sched.idle = false) : s'.Placed := by
  refine ⟨?_, ?_, fun p hp => ?_, fun p hp hne => ?_, ?_, fun p k => ?_, ?_, ?_⟩
  · rw [hcurr, hused]
    exact h.curr_mem
  · rw [hidle, hused]
    exact h.idle_mem
  · rw [hused] at hp
    by_cases hpc : p = s.curr
    · rw [hpc]
      exact hallows
    · rw [(hother p hp hpc).1, (hother p hp hpc).2]
      exact h.allows p hp
  · rw [hused] at hp
    rw [hcurr] at hne
    rw [(hother p hp hne).1]
    exact h.away p hp hne
  · rw [hcurr]
    exact hhere
  · rw [hused]
    by_cases hpc : p = s.curr
    · subst hpc
      rw [hdown]
      exact ⟨fun hl => ⟨h.curr_mem, hl⟩, fun hl => hl.2⟩
    · rw [hblocked p hpc, h.down]
      exact and_congr_right fun hp => by rw [(hother p hp hpc).1]
  · rw [hidle]
    by_cases hpc : s.sched.idle = s.curr
    · rw [hpc]
      exact hidleLoc hpc.symm
    · rw [(hother _ h.idle_mem hpc).1]
      exact h.idle
  · rw [hidle]
    exact hkernel

omit [DecidableEq ν] in
/-- Calls of `wakeup_proc` move nobody. -/
theorem wakes [DecidableEq ν] (h : s.Placed) {ws : List ν} (hw : Sched.Wakes ws s.sched s'.sched)
    (hloc : s'.loc = s.loc) (hinUse : s'.inUse = s.inUse)
    (hkernel : s'.isUser = s.isUser) : s'.Placed := by
  have hwoken := hw.woken
  have hused : s'.used = s.used := by
    unfold used
    rw [hinUse]
  have hcurr : s'.curr = s.curr := hwoken.curr
  have hpcb : ∀ p, s'.sched.pcb p = if p ∈ ws then (s.sched.pcb p).woken else s.sched.pcb p :=
    hwoken.pcb_eq
  refine ⟨?_, ?_, fun p hp => ?_, fun p hp hne => ?_, fun hl => ?_, fun p k => ?_, ?_, ?_⟩
  · rw [hcurr, hused]
    exact h.curr_mem
  · rw [hwoken.idle, hused]
    exact h.idle_mem
  · rw [hused] at hp
    rw [hloc, hpcb]
    split_ifs with hpw
    · exact (h.allows p hp).woken (hwoken.alive p hpw)
    · exact h.allows p hp
  · rw [hused] at hp
    rw [hcurr] at hne
    rw [hloc]
    exact h.away p hp hne
  · rw [hloc, hcurr] at hl
    rw [hpcb, hcurr, h.here hl]
    split_ifs <;> rfl
  · rw [hwoken.sem, hused, hloc]
    exact h.down p k
  · rw [hwoken.idle, hloc]
    exact h.idle
  · rw [hwoken.idle, hkernel]
    exact h.idle_kernel

end Placed

end Kernel

end GarretOS
