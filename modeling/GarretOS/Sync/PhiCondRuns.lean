import GarretOS.Sync.PhiCondSteps

/-!
# The philosophers at a monitor exclude each other

* `CondOk.step` : every step keeps the invariant;
* `CondOk.at_rest` : where the philosophers are while the monitor is free;
* `phi_cond_exclusive` : no two neighbours eat, `phi_take_forks_cond` returns with the forks only,
  and whenever the monitor is free each hungry philosopher has a neighbour that eats.
-/

namespace GarretOS

open SemState MonitorState

namespace CondState

variable {s s' : CondState} {p q i : Phi} {x : CondPos} {y : MonitorPos numPhi}
  {qs qs' : MonitorSem numPhi → List Phi} {t t' : Token numPhi Phi} {op : MonitorOp numPhi Phi}

/-- Before the first step nobody is hungry. -/
theorem CondOk.init (h : phiCondSystem.init s) : CondOk s (fun _ => []) (.sem .mutex) := by
  obtain ⟨hmon, hphi⟩ := h
  obtain ⟨hok, hcnt⟩ := MonitorOk.init hmon
  obtain ⟨⟨m₀, hm⟩, -, hpos⟩ := hmon
  have hpos : ∀ p, s.pos p = .outside := hpos
  have hflag : ∀ p, s.flag p = .thinking := fun p => (hphi p).1
  have hprog : ∀ p, s.prog p = .thinking := fun p => (hphi p).2.2
  refine ⟨hok, hcnt, fun p => ?_, fun i => ?_, fun p => ?_, fun p i hp => ?_, fun i hi => ?_,
    fun i hi => ?_, fun p q hp => ?_, fun p hp => ?_, fun p hp => ?_, fun p hp => ?_⟩
  · rw [hprog, hpos]
    rfl
  · rw [Monitor.initMonitor_count hm, hpos]
    rfl
  · rw [hprog]
    exact hflag p
  · rw [hprog, hpos] at hp
    simp [Announces] at hp
  · rcases hi with hi | ⟨p, hp, -⟩
    · cases hi
    · cases hp
  · rw [hpos] at hi
    cases hi
  · rw [hpos] at hp
    cases hp
  · rw [hpos] at hp
    cases hp
  · rw [hflag] at hp
    cases hp
  · rw [hflag] at hp
    cases hp

/-- Every step of a philosopher keeps the invariant. -/
theorem CondOk.step (h : CondOk s qs t) (hstep : phiCondSystem.step s op s') :
    ∃ qs' t', CondOk s' qs' t' := by
  obtain ⟨hmon, p, x, i, hnext, hprog, -⟩ := hstep
  generalize hf : s'.flag = flag at hnext
  cases hnext with
  | enterTake hx _ => exact h.enter hmon (Or.inl ⟨rfl, hx⟩) hprog
  | enterPut hx => exact h.enter hmon (Or.inr ⟨rfl, hx⟩) hprog
  | work hwork => exact h.work hmon hwork hf hprog
  | takeSignal hx => exact h.signal hmon (Or.inl ⟨hx, rfl, rfl⟩) hprog
  | signalLeft hx => exact h.signal hmon (Or.inr (Or.inl ⟨hx, rfl, rfl⟩)) hprog
  | signalRight hx => exact h.signal hmon (Or.inr (Or.inr ⟨hx, rfl, rfl⟩)) hprog
  | wait hx hhungry => exact h.wait hmon hx hhungry hprog
  | exitTake hx => exact h.exit hmon (Or.inl ⟨hx, rfl⟩) hprog
  | exitPut hx => exact h.exit hmon (Or.inr ⟨hx, rfl⟩) hprog
  | entered => exact h.entered hmon hprog
  | notify => exact h.notify hmon hprog
  | suspend => exact h.suspend hmon hprog
  | resume => exact h.resume hmon hprog
  | signalled => exact h.signalled hmon hprog
  | leave => exact h.leave hmon hprog
  | sleep => exact h.sleep hmon hprog
  | wake => exact h.wake hmon hprog
  | waited => exact h.waited hmon hprog

theorem CondOk.reachable (h : phiCondSystem.Reachable s) : ∃ qs t, CondOk s qs t := by
  refine h.invariant (I := fun s => ∃ qs t, CondOk s qs t) (fun s h₀ => ⟨_, _, CondOk.init h₀⟩) ?_
  rintro s op s' ⟨qs, t, hok⟩ hstep
  exact hok.step hstep

/-- While the monitor is free, nobody is inside it. -/
theorem CondOk.free (h : CondOk s qs (.sem .mutex)) (p : Phi) :
    (s.pos p).active = false ∧ (s.pos p).signalling = false := by
  refine ⟨?_, ?_⟩
  · by_contra hp
    cases h.token (by simpa using hp)
  · by_contra hp
    exact h.handedOn p (by simpa using hp) rfl

/-- While the monitor is free, exactly the hungry philosophers are in `wait_cond`, and the ones that
eat are outside of the monitor. -/
theorem CondOk.at_rest (h : CondOk s qs (.sem .mutex)) (p : Phi) :
    ((s.pos p).waits ↔ s.flag p = .hungry) ∧ ((s.prog p).eats ↔ s.flag p = .eating) ∧
      (s.prog p).owes = false := by
  obtain ⟨hact, hsig⟩ := h.free p
  have hplace := h.place p
  have hallow := h.flag p
  -- a philosopher whose flag is `EATING` has been woken
  have hwoken : (s.pos p).waits → s.flag p ≠ .eating := by
    intro hw heat
    rcases h.woken p hw heat with (hfor | ⟨r, hr, -⟩) | ⟨r, hr⟩
    · cases hfor
    · cases hr
    · cases h.token (hr.active (h.place r))
  cases hx : s.prog p <;> rw [hx] at hplace hallow
  case takeDone =>
    have hw : (s.pos p).waits := by
      rcases hplace with hy | hy | hy | hy | hy <;> rw [hy]
      all_goals first
        | rfl
        | (rw [hy] at hact; cases hact)
    have hhungry : s.flag p = .hungry := by
      cases hf : s.flag p with
      | thinking => exact absurd hf hallow.1
      | hungry => rfl
      | eating => exact absurd hf (hwoken hw)
    rw [hhungry]
    simp [hw, CondPos.eats, CondPos.owes]
  case thinking | eating =>
    rw [show s.pos p = .outside from hplace, show s.flag p = _ from hallow]
    simp [MonitorPos.waits, CondPos.eats, CondPos.owes]
  case take | put =>
    rcases hplace with hy | hy
    · rw [hy, show s.flag p = _ from hallow]
      simp [MonitorPos.waits, CondPos.eats, CondPos.owes]
    · rw [hy] at hact
      cases hact
  case takeSignal | takeCheck | signalLeft | signalRight =>
    rw [show s.pos p = .inside from hplace] at hact
    cases hact
  case putRight | putDone =>
    rcases hplace with hy | hy | hy | hy | hy <;> rw [hy] at hact hsig <;>
      simp [MonitorPos.active, MonitorPos.signalling] at hact hsig

/-- **The philosophers at the monitor exclude each other**, in every interleaving of their steps: no
two neighbours eat, a philosopher returns from `wait_cond` only with its forks, and whenever the
monitor is free, the philosophers that wait are the hungry ones, each of which has a neighbour that
eats. -/
theorem phi_cond_exclusive (h : phiCondSystem.Reachable s) :
    (∀ p, (s.prog p).eats → ¬ (s.prog p.right).eats) ∧
    (∀ p i s', (monitorSystem numPhi Phi PhiFlags).step s.mon (.waited p i) s' →
      i = p ∧ s.flag p = .eating) ∧
    (s.mon.mon.sem.value .mutex = 1 → ∀ p, ((s.pos p).waits ↔ s.flag p = .hungry) ∧
      (s.flag p = .hungry → (s.prog p.left).eats ∨ (s.prog p.right).eats)) := by
  obtain ⟨qs, t, hok⟩ := CondOk.reachable h
  have heats : ∀ p, (s.prog p).eats → s.flag p = .eating := by
    intro p hp
    have hallow := hok.flag p
    cases hx : s.prog p <;> rw [hx] at hp hallow <;> first | exact hallow | cases hp
  refine ⟨fun p hp hq => hok.apart p (heats p hp) (heats p.right hq), fun p i s' hstep => ?_,
    fun hmutex p => ?_⟩
  · obtain ⟨⟨hp, -⟩, -⟩ := hstep
    have hp : s.pos p = .awake i := hp
    obtain ⟨-, hi⟩ := At.of_waits (hok.place p) (by rw [hp]; rfl)
    obtain rfl : i = p := by simpa [hp] using hi
    exact ⟨rfl, hok.forCond i (Or.inr ⟨i, hok.token (by rw [hp]; rfl), Or.inr hp⟩)⟩
  · obtain rfl : t = .sem .mutex := by
      by_contra hne
      rw [hok.mon.value, if_neg hne] at hmutex
      cases hmutex
    refine ⟨(hok.at_rest p).1, fun hp => ?_⟩
    have hserved := hok.served p hp fun hpend => by
      have howes : (s.prog p.left).owes := hpend
      rw [(hok.at_rest p.left).2.2] at howes
      cases howes
    exact hserved.imp (hok.at_rest p.left).2.1.2 (hok.at_rest p.right).2.1.2

/-- A monitor before `init_monitor`. -/
def phiMonitor : Monitor numPhi Phi where
  sem := {
    value := fun _ => 0
    link := ⟨id, id⟩
    wait := fun p => ⟨p, 0, .mutex⟩
    pcb := fun _ => .running
    blockedIn := fun _ => none }
  nextCount := 0
  count := fun _ => 0

/-- The philosophers after the loop of `test_phi_cond`. -/
def phiCondStart : CondState where
  mon := {
    mon := (List.finRange numPhi).foldl Monitor.initCond
      { phiMonitor with sem := (phiMonitor.sem.initSem .mutex 1).initSem .next 0 }
    data := fun _ => .thinking
    pos := fun _ => .outside }
  iter := fun _ => 0
  prog := fun _ => .thinking

theorem phiCondStart_init : phiCondSystem.init phiCondStart :=
  ⟨⟨⟨phiMonitor, rfl⟩, fun _ => ⟨rfl, rfl⟩, fun _ => rfl⟩, fun _ => ⟨rfl, rfl, rfl⟩⟩

/-- Philosopher 0 takes its forks. -/
theorem phiCondStart_run : ∃ s, phiCondSystem.Run
    [.enter 0 true, .work 0, .signal 0 0, .exit 0 none] s ∧ s.prog 0 = .eating := by
  let A := phiCondSystem
  have h₀ : A.Run [] phiCondStart := .start phiCondStart_init
  have h₁ := h₀.step (show A.step _ (.enter 0 true) ⟨_, _, _⟩ from
    ⟨⟨⟨rfl, rfl⟩, _, rfl, rfl⟩, 0, .take, 0, .enterTake rfl (by decide), rfl, rfl⟩)
  have h₂ := h₁.step (show A.step _ (.work 0) ⟨_, _, _⟩ from
    ⟨⟨⟨rfl, rfl⟩, Function.update (Function.update (fun _ => .thinking) 0 .hungry) 0 .eating, rfl⟩,
      0, .takeSignal, 0, .work rfl, rfl, rfl⟩)
  have h₃ := h₂.step (show A.step _ (.signal 0 0) ⟨_, _, _⟩ from
    ⟨⟨⟨rfl, rfl⟩, rfl⟩, 0, .takeCheck, 0, .takeSignal rfl, rfl, rfl⟩)
  have h₄ := h₃.step (show A.step _ (.exit 0 none) ⟨_, _, _⟩ from
    ⟨⟨⟨rfl, rfl⟩, _, rfl, rfl⟩, 0, .eating, 0, .exitTake (Or.inr ⟨rfl, by decide⟩), rfl, rfl⟩)
  exact ⟨_, h₄, rfl⟩

/-- While philosopher 0 eats, philosopher 1 does not. -/
theorem phi_cond_exclusive_eating : ∃ s, phiCondSystem.Reachable s ∧ (s.prog 0).eats ∧
    ¬ (s.prog 1).eats := by
  obtain ⟨s, hs, hprog⟩ := phiCondStart_run
  have heats : (s.prog 0).eats := by
    rw [hprog]
    rfl
  exact ⟨s, ⟨_, hs⟩, heats, (phi_cond_exclusive ⟨_, hs⟩).1 0 heats⟩

end CondState

end GarretOS
