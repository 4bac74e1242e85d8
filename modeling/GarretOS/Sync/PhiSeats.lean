import GarretOS.Sync.Phi

/-!
# What a philosopher finds

`PhiOk s qs t` says that the wait queues of the semaphores are `qs` and that `t` is the philosopher
that holds the mutex, if any.  Only the philosopher `phi` ever waits for the semaphore
`g_phi_sem[phi]`, so its queue is short, and it has a value or a process in its queue exactly as the
flag of the philosopher says (`SeatOk`).

* `PhiOk.upMutex`, `PhiOk.downMutex`, `PhiOk.resumeMutex` : the calls for the mutex;
* `PhiOk.sit`, `PhiOk.sitResume`, `PhiOk.test` : those for the semaphore of a philosopher.
-/

namespace GarretOS

open SemState

/-- What `up` does, with and without a process in the queue. -/
theorem SemState.QueueOk.up_cases {κ π : Type} [DecidableEq κ] [DecidableEq π] {s : SemState κ π}
    {qs : κ → List π} (h : QueueOk s qs) (k : κ) :
    ∃ s' woken, s.up k = .ok (s', woken) ∧ s'.blockedIn = s.blockedIn ∧
      (qs k = [] ∧ QueueOk s' qs ∧ s'.pcb = s.pcb ∧
          s'.value = Function.update s.value k (i32 (s.value k + 1)) ∨
        ∃ a ps, qs k = a :: ps ∧ QueueOk s' (Function.update qs k ps) ∧ s'.value = s.value ∧
          s'.pcb = Function.update s.pcb a .running) := by
  cases hk : qs k with
  | nil =>
    exact ⟨_, _, h.up_nil hk, rfl,
      Or.inl ⟨rfl, h.congr rfl rfl (fun _ _ => rfl) fun _ _ => rfl, rfl, rfl⟩⟩
  | cons a ps =>
    obtain ⟨s', hup, hvalue, hin, hpcb, hq⟩ := h.up hk
    exact ⟨s', _, hup, hin, Or.inr ⟨a, ps, rfl, hq, hvalue, hpcb⟩⟩

/-- `down` of a semaphore that can be taken. -/
theorem SemState.QueueOk.take {κ π : Type} [DecidableEq κ] [DecidableEq π] {s : SemState κ π}
    {qs : κ → List π} (h : QueueOk s qs) (p : π) {k : κ} (hv : 0 < s.value k) :
    ∃ s', s.down p k = .ok (s', true) ∧ QueueOk s' qs ∧ s'.blockedIn = s.blockedIn ∧
      s'.pcb = s.pcb ∧ s'.value = Function.update s.value k (i32 (s.value k - 1)) := by
  let s' : SemState κ π := { s with value := Function.update s.value k (i32 (s.value k - 1)) }
  refine ⟨s', by rw [SemState.down, if_pos hv], ?_, rfl, rfl, rfl⟩
  exact h.congr rfl rfl (fun _ _ => rfl) fun _ _ => rfl

namespace PhiState

variable {s s' : PhiState} {p q : Phi} {x y : PhiPos} {a : Appetite}

/-! ### The fields after an update -/

@[simp] theorem goto_sem : (s.goto p x).sem = s.sem := rfl

@[simp] theorem goto_flag : (s.goto p x).flag = s.flag := rfl

@[simp] theorem goto_iter : (s.goto p x).iter = s.iter := rfl

@[simp] theorem goto_self : (s.goto p x).pos p = x := Function.update_self _ _ _

theorem goto_of_ne (hq : q ≠ p) : (s.goto p x).pos q = s.pos q := Function.update_of_ne hq _ _

@[simp] theorem setFlag_sem : (s.setFlag p a).sem = s.sem := rfl

@[simp] theorem setFlag_pos : (s.setFlag p a).pos = s.pos := rfl

@[simp] theorem setFlag_iter : (s.setFlag p a).iter = s.iter := rfl

/-- In the critical section, or woken in the `down` before it. -/
def Holds (s : PhiState) (p : Phi) : Prop :=
  (s.pos p).critical ∨ (s.pos p).sem p = some .mutex ∧ (s.sem.pcb p).state = .runnable

/-- The philosophers that `phi_put_forks_sem` still has to test, besides those in `S`. -/
def pending (s : PhiState) : Set Phi := {q | s.pos q.left = .testing}

/-- A philosopher and its semaphore. -/
structure SeatOk (s : PhiState) (qs : PhiSem → List Phi) (p : Phi) : Prop where
  /-- The flag fits the position. -/
  flag : (s.pos p).Allows (s.flag p)
  /-- The semaphore has a value if the philosopher may eat and has not yet come for it. -/
  value : s.sem.value (.phi p) = if s.flag p = .eating ∧ (s.pos p).hopes then 1 else 0
  /-- Only the philosopher itself waits for the semaphore, until it may eat. -/
  queue : qs (.phi p) = if s.flag p = .hungry ∧ s.pos p = .sitWait then [p] else []
  woken : s.pos p = .sitWait → ((s.sem.pcb p).state = .runnable ↔ s.flag p = .eating)

/-- The philosophers between two steps: the wait queues are `qs`, and the mutex is held by `t`. -/
structure PhiOk (s : PhiState) (qs : PhiSem → List Phi) (t : Option Phi) : Prop where
  /-- The wait queues of the semaphores. -/
  queue : QueueOk s.sem qs
  /-- The philosophers inside `down` are where `down` is called. -/
  blockedIn : ∀ p, s.sem.blockedIn p = (s.pos p).sem p
  /-- A philosopher may run, or it is asleep in `down` or `do_sleep`. -/
  state : ∀ p, (s.sem.pcb p).state = .runnable ∨
    (s.sem.pcb p).state = .sleeping ∧ ((s.pos p).sem p ≠ none ∨ (s.pos p).dozes)
  /-- The mutex has a value if nobody holds it. -/
  mutex : s.sem.value .mutex = if t = none then 1 else 0
  /-- One philosopher at most holds it. -/
  holds : ∀ p, s.Holds p ↔ t = some p
  /-- The philosophers and their semaphores. -/
  seat : ∀ p, s.SeatOk qs p
  /-- No two neighbours eat. -/
  apart : phiTable.Apart s.flag

variable {qs qs' : PhiSem → List Phi} {t : Option Phi}

/-! ### One philosopher -/

/-- A philosopher is left alone by steps that do not change its own data. -/
theorem SeatOk.congr (h : s.SeatOk qs p) (hpos : s'.pos p = s.pos p) (hflag : s'.flag p = s.flag p)
    (hvalue : s'.sem.value (.phi p) = s.sem.value (.phi p)) (hqs : qs' (.phi p) = qs (.phi p))
    (hpcb : s.pos p = .sitWait → s'.sem.pcb p = s.sem.pcb p) : s'.SeatOk qs' p := by
  refine ⟨?_, ?_, ?_, fun hp => ?_⟩
  · rw [hpos, hflag]
    exact h.flag
  · rw [hvalue, hpos, hflag]
    exact h.value
  · rw [hqs, hpos, hflag]
    exact h.queue
  · rw [hpos] at hp
    rw [hflag, hpcb hp]
    exact h.woken hp

/-- The queue of a philosopher that is not in `down` of its semaphore is empty. -/
theorem SeatOk.queue_nil (h : s.SeatOk qs p) (hp : s.pos p ≠ .sitWait) : qs (.phi p) = [] := by
  rw [h.queue, if_neg fun hc => hp hc.2]

/-- A move of a philosopher between positions outside of `down` of its semaphore. -/
theorem SeatOk.move (h : s.SeatOk qs p) (hx : s.pos p ≠ .sitWait) (hpos : s'.pos p ≠ .sitWait)
    (hflag : (s'.pos p).Allows (s'.flag p))
    (hvalue : s'.sem.value (.phi p) = s.sem.value (.phi p)) (hqs : qs' (.phi p) = qs (.phi p))
    (hhopes : s'.flag p = .eating ∧ (s'.pos p).hopes ↔ s.flag p = .eating ∧ (s.pos p).hopes) :
    s'.SeatOk qs' p := by
  refine ⟨hflag, ?_, ?_, fun hp => absurd hp hpos⟩
  · rw [hvalue, h.value]
    simp only [hhopes]
  · rw [hqs, h.queue_nil hx, if_neg fun hc => hpos hc.2]

/-- The variables `i` and the running philosopher do not matter. -/
theorem PhiOk.setLocals (h : PhiOk s qs t) (iter : Phi → ℕ) (curr : Option Phi) :
    PhiOk { s with iter, curr } qs t :=
  ⟨h.queue, h.blockedIn, h.state, h.mutex, h.holds,
    fun p => (h.seat p).congr rfl rfl rfl rfl fun _ => rfl, h.apart⟩

/-! ### Moves -/

theorem holds_congr (hpos : s'.pos q = s.pos q)
    (hpcb : (s.pos q).sem q = some .mutex → s'.sem.pcb q = s.sem.pcb q) :
    s'.Holds q ↔ s.Holds q := by
  rw [Holds, Holds, hpos]
  exact or_congr_right (and_congr_right fun hq => by rw [hpcb hq])

theorem holds_self {sem : SemState PhiSem Phi} : (({ s with sem } : PhiState).goto p y).Holds p ↔
    y.critical ∨ y.sem p = some .mutex ∧ (sem.pcb p).state = .runnable := by
  rw [Holds, goto_self]
  rfl

theorem holds_goto {sem : SemState PhiSem Phi} (hq : q ≠ p) (hpcb : sem.pcb q = s.sem.pcb q) :
    (({ s with sem } : PhiState).goto p y).Holds q ↔ s.Holds q :=
  holds_congr (goto_of_ne hq) fun _ => hpcb

theorem not_holds (hx : (s.pos p).critical = false) (hx' : (s.pos p).sem p ≠ some .mutex) :
    ¬ s.Holds p := by
  rintro (hc | ⟨hc, -⟩)
  · rw [hx] at hc
    cases hc
  · exact hx' hc

/-- The philosopher `p` moves to `y`, and the semaphores change to `sem`; other philosophers are at
most woken in the `down` of the mutex. -/
theorem PhiOk.moveTo (h : PhiOk s qs t) {sem : SemState PhiSem Phi} {t' : Option Phi}
    (hq : QueueOk sem qs') (hin : sem.blockedIn = Function.update s.sem.blockedIn p (y.sem p))
    (hstate : (sem.pcb p).state = .runnable ∨
      (sem.pcb p).state = .sleeping ∧ (y.sem p ≠ none ∨ y.dozes))
    (hpcb : ∀ q, q ≠ p → sem.pcb q = s.sem.pcb q ∨
      sem.pcb q = .running ∧ (s.pos q).sem q = some .mutex)
    (hmutex : sem.value .mutex = if t' = none then 1 else 0)
    (hholds : ∀ q, (({ s with sem } : PhiState).goto p y).Holds q ↔ t' = some q)
    (hval : ∀ q, q ≠ p → sem.value (.phi q) = s.sem.value (.phi q))
    (hqs : ∀ q, q ≠ p → qs' (.phi q) = qs (.phi q))
    (hseat : (({ s with sem } : PhiState).goto p y).SeatOk qs' p) :
    PhiOk (({ s with sem } : PhiState).goto p y) qs' t' := by
  refine ⟨hq, fun q => ?_, fun q => ?_, hmutex, hholds, fun q => ?_, h.apart⟩
  · rw [goto_sem, hin]
    by_cases hqp : q = p
    · rw [hqp, goto_self, Function.update_self]
    · rw [goto_of_ne hqp, Function.update_of_ne hqp]
      exact h.blockedIn q
  · by_cases hqp : q = p
    · rw [hqp, goto_self]
      exact hstate
    · rw [goto_of_ne hqp]
      rcases hpcb q hqp with hc | ⟨hc, -⟩
      · rw [goto_sem, hc]
        exact h.state q
      · rw [goto_sem, hc]
        exact Or.inl rfl
  · by_cases hqp : q = p
    · rw [hqp]
      exact hseat
    · refine (h.seat q).congr (goto_of_ne hqp) rfl (hval q hqp) (hqs q hqp) fun hpos => ?_
      refine (hpcb q hqp).resolve_right fun hc => ?_
      rw [hpos] at hc
      simp [PhiPos.sem] at hc

/-- The philosopher `p` moves, and nothing else happens. -/
theorem PhiOk.goto (h : PhiOk s qs t) (hs : s.pos p = x)
    (hrun : (s.sem.pcb p).state = .runnable) (hx : x.sem p = none) (hy : y.sem p = none)
    (hcrit : y.critical = x.critical) (hflag : y.Allows (s.flag p))
    (hhopes : s.flag p = .eating ∧ y.hopes ↔ s.flag p = .eating ∧ x.hopes) :
    PhiOk (s.goto p y) qs t := by
  have hxsit : s.pos p ≠ .sitWait := by
    intro hc
    rw [← hs, hc] at hx
    cases hx
  have hysit : y ≠ .sitWait := by
    rintro rfl
    cases hy
  refine h.moveTo h.queue ?_ (Or.inl hrun) (fun _ _ => Or.inl rfl) h.mutex (fun q => ?_)
    (fun _ _ => rfl) (fun _ _ => rfl) ?_
  · rw [hy, ← hx, ← hs, ← h.blockedIn, Function.update_eq_self]
  · rw [← h.holds]
    by_cases hq : q = p
    · subst hq
      rw [holds_self, Holds, hs, hx, hy, hcrit]
    · exact holds_goto hq rfl
  · refine (h.seat p).move hxsit (by rw [goto_self]; exact hysit) (by rw [goto_self]; exact hflag)
      rfl rfl ?_
    rw [goto_self, hs]
    exact hhopes

/-- The philosopher `p` moves and sets its flag, but not to `eating`. -/
theorem PhiOk.setFlag (h : PhiOk s qs t) (hs : s.pos p = x)
    (hrun : (s.sem.pcb p).state = .runnable) (hx : x.sem p = none) (hy : y.sem p = none)
    (hcrit : y.critical = x.critical) (ha : a ≠ .eating) (hflag : y.Allows a)
    (hhopes : x.hopes = false) : PhiOk ((s.setFlag p a).goto p y) qs t := by
  have hxsit : s.pos p ≠ .sitWait := by
    intro hc
    rw [← hs, hc] at hx
    cases hx
  have hysit : y ≠ .sitWait := by
    rintro rfl
    cases hy
  have hself : (s.setFlag p a).flag p = a := Function.update_self _ _ _
  refine ⟨h.queue, fun q => ?_, fun q => ?_, h.mutex, fun q => ?_, fun q => ?_, h.apart.update ha⟩
  · by_cases hq : q = p
    · subst hq
      rw [goto_self, hy, ← hx, ← hs]
      exact h.blockedIn q
    · rw [goto_of_ne hq]
      exact h.blockedIn q
  · by_cases hq : q = p
    · subst hq
      exact Or.inl hrun
    · rw [goto_of_ne hq]
      exact h.state q
  · rw [← h.holds]
    by_cases hq : q = p
    · subst hq
      rw [Holds, Holds, goto_self, hy, hs, hx, hcrit]
      rfl
    · exact holds_congr (goto_of_ne hq) fun _ => rfl
  · by_cases hq : q = p
    · subst hq
      refine (h.seat q).move hxsit (by rw [goto_self]; exact hysit) ?_ rfl rfl ?_
      · rw [goto_self, goto_flag, hself]
        exact hflag
      · rw [goto_flag, hself, hs, hhopes]
        simp [ha]
    · exact (h.seat q).congr (goto_of_ne hq) (Function.update_of_ne hq _ _) rfl rfl fun _ => rfl

/-- A philosopher outside of `down` falls asleep in `do_sleep`, or is woken there. -/
theorem PhiOk.setPcb (h : PhiOk s qs t) (hx : (s.pos p).sem p = none) {r : RunState}
    (hr : r.state = .runnable ∨ r.state = .sleeping ∧ (s.pos p).dozes) :
    PhiOk (s.setPcb p r) qs t := by
  have hpcb : ∀ q, (s.pos q).sem q ≠ none → (s.setPcb p r).sem.pcb q = s.sem.pcb q := by
    intro q hq
    refine Function.update_of_ne ?_ _ _
    rintro rfl
    exact hq hx
  refine ⟨h.queue.congr rfl rfl (fun _ _ => rfl) fun q hq => hpcb q (by rwa [← h.blockedIn]),
    h.blockedIn, fun q => ?_, h.mutex, fun q => ?_, fun q => ?_, h.apart⟩
  · by_cases hq : q = p
    · subst hq
      have hself : (s.setPcb q r).sem.pcb q = r := Function.update_self _ _ _
      rw [hself]
      exact hr.imp id fun hr => ⟨hr.1, Or.inr hr.2⟩
    · have hne : (s.setPcb p r).sem.pcb q = s.sem.pcb q := Function.update_of_ne hq _ _
      rw [hne]
      exact h.state q
  · rw [← h.holds]
    exact holds_congr rfl fun hq => hpcb q (by simp [hq])
  · exact (h.seat q).congr rfl rfl rfl rfl fun hq => hpcb q (by rw [hq]; simp [PhiPos.sem])

/-! ### The mutex -/

/-- The seat of a philosopher that moves outside of `down` of its semaphore, and of `hopes`. -/
theorem SeatOk.away (h : s.SeatOk qs p) {sem : SemState PhiSem Phi} (hs : s.pos p = x)
    (hx : x ≠ .sitWait) (hy : y ≠ .sitWait) (hflag : y.Allows (s.flag p))
    (hval : sem.value (.phi p) = s.sem.value (.phi p)) (hqs : qs' (.phi p) = qs (.phi p))
    (hhopes : y.hopes = x.hopes) : (({ s with sem } : PhiState).goto p y).SeatOk qs' p := by
  refine h.move (by rw [hs]; exact hx) (by rw [goto_self]; exact hy)
    (by rw [goto_self]; exact hflag) hval hqs ?_
  rw [goto_self, hs, hhopes]
  rfl

/-- **`up(&g_phi_mutex)`** gives the mutex away, or to a philosopher that waits for it. -/
theorem PhiOk.upMutex (h : PhiOk s qs t) (hs : s.pos p = x) (hx : x.critical) (hx' : x.sem p = none)
    (hrun : (s.sem.pcb p).state = .runnable) (hy : y.critical = false) (hy' : y.sem p = none)
    (hflag : y.Allows (s.flag p)) (hhopes : y.hopes = x.hopes) :
    ∃ sem qs' t', (s.goto p y).up .mutex = .ok (({ s with sem } : PhiState).goto p y) ∧
      PhiOk (({ s with sem } : PhiState).goto p y) qs' t' ∧
      (sem.pcb p).state = .runnable ∧
      ∀ q, (s.pos q).sem q ≠ some .mutex → sem.pcb q = s.sem.pcb q := by
  obtain rfl : t = some p := (h.holds p).1 (Or.inl (by rw [hs]; exact hx))
  have hvalue : s.sem.value .mutex = 0 := by rw [h.mutex, if_neg (by simp)]
  have hnot : ∀ q, q ≠ p → ¬ s.Holds q :=
    fun q hq hh => hq (Option.some.inj ((h.holds q).1 hh)).symm
  have hblocked : Function.update s.sem.blockedIn p (y.sem p) = s.sem.blockedIn := by
    rw [hy', ← hx', ← hs, ← h.blockedIn, Function.update_eq_self]
  have hseat : ∀ (sem : SemState PhiSem Phi) (qs' : PhiSem → List Phi),
      sem.value (.phi p) = s.sem.value (.phi p) → qs' (.phi p) = qs (.phi p) →
      (({ s with sem } : PhiState).goto p y).SeatOk qs' p := by
    intro sem qs' hval hqs
    refine (h.seat p).away hs ?_ ?_ hflag hval hqs hhopes
    · rintro rfl
      cases hx'
    · rintro rfl
      cases hy'
  obtain ⟨sem, woken, hup, hin, hcases⟩ := h.queue.up_cases .mutex
  have hup' : (s.goto p y).up .mutex = .ok (({ s with sem } : PhiState).goto p y) := by
    rw [PhiState.up, goto_sem, hup]
    rfl
  rcases hcases with ⟨hk, hq', hpcb, hval⟩ | ⟨a, ps, hk, hq', hval, hpcb⟩
  · -- nobody waits: the mutex is free afterwards
    have hvalq : ∀ q, sem.value (.phi q) = s.sem.value (.phi q) := by
      intro q
      rw [hval]
      exact Function.update_of_ne (by simp) _ _
    refine ⟨sem, qs, none, hup', h.moveTo hq' (hin.trans hblocked.symm)
      (Or.inl (by rw [hpcb]; exact hrun)) (fun q _ => Or.inl (by rw [hpcb])) ?_ (fun q => ?_)
      (fun q _ => hvalq q) (fun _ _ => rfl) (hseat sem qs (hvalq p) rfl),
      by rw [hpcb]; exact hrun, fun q _ => by rw [hpcb]⟩
    · rw [hval, Function.update_self, hvalue, if_pos rfl]
      exact i32_of_lt (by omega) (by omega)
    · simp only [reduceCtorEq, iff_false]
      by_cases hq : q = p
      · subst hq
        rw [holds_self, hy, hy']
        simp
      · rw [holds_goto hq (by rw [hpcb])]
        exact hnot q hq
  · -- the mutex is handed to `a`, the first in the queue, and its value stays `0`
    have hasem : (s.pos a).sem a = some .mutex := by
      rw [← h.blockedIn]
      exact (h.queue.blocked .mutex a (by simp [hk])).1
    have hap : a ≠ p := by
      rintro rfl
      rw [hs, hx'] at hasem
      cases hasem
    have hkeep : ∀ q, q ≠ a → sem.pcb q = s.sem.pcb q := by
      intro q hq
      rw [hpcb]
      exact Function.update_of_ne hq _ _
    have hawake : sem.pcb a = .running := by rw [hpcb, Function.update_self]
    have hrun' : (sem.pcb p).state = .runnable := by
      rw [hkeep p (Ne.symm hap)]
      exact hrun
    have hqs : ∀ q, Function.update qs .mutex ps (.phi q) = qs (.phi q) :=
      fun q => Function.update_of_ne (by simp) _ _
    refine ⟨sem, _, some a, hup', h.moveTo hq' (hin.trans hblocked.symm) (Or.inl hrun')
      (fun q _ => ?_) (by rw [hval, hvalue, if_neg (by simp)]) (fun q => ?_)
      (fun q _ => by rw [hval]) (fun q _ => hqs q) (hseat sem _ (by rw [hval]) (hqs p)), hrun',
      fun q hq => hkeep q ?_⟩
    · by_cases hqa : q = a
      · subst hqa
        exact Or.inr ⟨hawake, hasem⟩
      · exact Or.inl (hkeep q hqa)
    · by_cases hqa : q = a
      · subst hqa
        refine iff_of_true (Or.inr ⟨?_, by rw [goto_sem, hawake]; rfl⟩) rfl
        rw [goto_of_ne hap]
        exact hasem
      · refine iff_of_false (fun hh => ?_) fun he => hqa (Option.some.inj he).symm
        by_cases hq : q = p
        · subst hq
          rw [holds_self, hy, hy'] at hh
          simp at hh
        · exact hnot q hq ((holds_goto hq (hkeep q hqa)).1 hh)
    · rintro rfl
      exact hq hasem

/-- **`down(&g_phi_mutex)`** takes the mutex, or blocks. -/
theorem PhiOk.downMutex (h : PhiOk s qs t) (hs : s.pos p = x)
    (hrun : (s.sem.pcb p).state = .runnable) (hx : x.critical = false) (hx' : x.sem p = none)
    (hy : y.critical) (hy' : y.sem p = none) {z : PhiPos} (hz : z.critical = false)
    (hz' : z.sem p = some .mutex) (hflag : y.Allows (s.flag p) ∧ z.Allows (s.flag p))
    (hhopes : y.hopes = x.hopes ∧ z.hopes = x.hopes) :
    ∃ sem, ∃ granted : Bool, ∃ qs' t', s.down p .mutex y z = .ok (({ s with sem } : PhiState).goto p
        (if granted then y else z)) ∧
      PhiOk (({ s with sem } : PhiState).goto p (if granted then y else z)) qs' t' ∧
      (granted ↔ t = none) ∧ (granted → (sem.pcb p).state = .runnable) ∧
      ∀ q, q ≠ p → sem.pcb q = s.sem.pcb q := by
  have hin : s.sem.blockedIn p = none := by rw [h.blockedIn, hs, hx']
  have hnot : ¬ s.Holds p := not_holds (by rw [hs, hx]) (by rw [hs, hx']; simp)
  have hxsit : x ≠ .sitWait := by
    rintro rfl
    cases hx'
  by_cases hv : 0 < s.sem.value .mutex
  · -- the mutex is free: `p` takes it
    obtain rfl : t = none := by
      by_contra hne
      rw [h.mutex, if_neg hne] at hv
      omega
    have hval : s.sem.value .mutex = 1 := by rw [h.mutex, if_pos rfl]
    obtain ⟨sem, hdown, hq', hbl, hpcb, hsem⟩ := h.queue.take p hv
    have hvalq : ∀ q, sem.value (.phi q) = s.sem.value (.phi q) := by
      intro q
      rw [hsem]
      exact Function.update_of_ne (by simp) _ _
    refine ⟨sem, true, qs, some p, by rw [PhiState.down, hdown]; rfl, ?_, by simp,
      fun _ => by rw [hpcb]; exact hrun, fun _ _ => by rw [hpcb]⟩
    rw [if_pos rfl]
    refine h.moveTo hq' ?_ (Or.inl (by rw [hpcb]; exact hrun))
      (fun _ _ => Or.inl (by rw [hpcb])) ?_ (fun q => ?_)
      (fun q _ => hvalq q) (fun _ _ => rfl) ?_
    · rw [hy', ← hin, hbl, Function.update_eq_self]
    · rw [hsem, Function.update_self, hval, if_neg (by simp)]
      exact i32_of_lt (by omega) (by omega)
    · by_cases hq : q = p
      · subst hq
        exact iff_of_true (holds_self.2 (Or.inl hy)) rfl
      · rw [holds_goto hq (by rw [hpcb]), h.holds]
        simp [Ne.symm hq]
    · refine (h.seat p).away hs hxsit ?_ hflag.1 (hvalq p) rfl hhopes.1
      rintro rfl
      cases hy'
  · -- somebody holds the mutex: `p` is blocked, whatever becomes of the queue
    have ht : t ≠ none := by
      rintro rfl
      rw [h.mutex, if_pos rfl] at hv
      omega
    obtain ⟨sem, hdown, hval, hbl, hpcb, hq'⟩ := h.queue.down hin hv
    have hkeep : ∀ q, q ≠ p → sem.pcb q = s.sem.pcb q := by
      intro q hq
      rw [hpcb]
      exact Function.update_of_ne hq _ _
    have hself : (sem.pcb p).state = .sleeping := by rw [hpcb, Function.update_self]
    have hqs : ∀ q, Function.update qs .mutex (p :: (qs .mutex).getLast?.toList) (.phi q) =
        qs (.phi q) := fun q => Function.update_of_ne (by simp) _ _
    refine ⟨sem, false, Function.update qs .mutex (p :: (qs .mutex).getLast?.toList), t,
      by rw [PhiState.down, hdown]; rfl, ?_, by simpa using ht, by simp, hkeep⟩
    rw [if_neg (by simp)]
    refine h.moveTo hq' (by rw [hbl, hz']) (Or.inr ⟨hself, Or.inl (by rw [hz']; simp)⟩)
      (fun q hq => Or.inl (hkeep q hq)) (by rw [hval]; exact h.mutex) (fun q => ?_)
      (fun q _ => by rw [hval]) (fun q _ => hqs q) ?_
    · rw [← h.holds]
      by_cases hq : q = p
      · subst hq
        refine iff_of_false ?_ hnot
        rw [holds_self, hz, hself]
        simp
      · exact holds_goto hq (hkeep q hq)
    · refine (h.seat p).away hs hxsit ?_ hflag.2 (by rw [hval]) (hqs p) hhopes.2
      rintro rfl
      simp [PhiPos.sem] at hz'

/-- A philosopher that has been woken in `down` comes back with the mutex. -/
theorem PhiOk.resumeMutex (h : PhiOk s qs t) (hs : s.pos p = x)
    (hrun : (s.sem.pcb p).state = .runnable) (hx : x.sem p = some .mutex) (hy : y.critical)
    (hy' : y.sem p = none) (hflag : y.Allows (s.flag p)) (hhopes : y.hopes = x.hopes) :
    ∃ sem, s.downResume p .mutex y = .ok (({ s with sem } : PhiState).goto p y) ∧
      PhiOk (({ s with sem } : PhiState).goto p y) qs t ∧ sem.pcb = s.sem.pcb := by
  obtain ⟨hres, hq'⟩ := h.queue.downResume (by rw [h.blockedIn, hs, hx]) hrun
  have ht : s.Holds p := Or.inr ⟨by rw [hs, hx], hrun⟩
  refine ⟨_, by rw [PhiState.downResume, hres]; rfl, h.moveTo hq' (by rw [hy']) (Or.inl hrun)
    (fun _ _ => Or.inl rfl) h.mutex (fun q => ?_) (fun _ _ => rfl) (fun _ _ => rfl) ?_, rfl⟩
  · rw [← h.holds]
    by_cases hq : q = p
    · subst hq
      exact iff_of_true (holds_self.2 (Or.inl hy)) ht
    · exact holds_goto hq rfl
  · refine (h.seat p).away hs ?_ ?_ hflag rfl rfl hhopes
    · rintro rfl
      simp [PhiPos.sem] at hx
    · rintro rfl
      cases hy'

/-! ### The semaphore of a philosopher -/

/-- **`down(&g_phi_sem[phi])`** returns if the philosopher may eat, and blocks otherwise. -/
theorem PhiOk.sit (h : PhiOk s qs t) (hs : s.pos p = .sitting)
    (hrun : (s.sem.pcb p).state = .runnable) :
    ∃ sem, ∃ granted : Bool, ∃ qs', s.down p (.phi p) .eating .sitWait =
        .ok (({ s with sem } : PhiState).goto p (if granted then .eating else .sitWait)) ∧
      PhiOk (({ s with sem } : PhiState).goto p (if granted then .eating else .sitWait)) qs' t ∧
      ∀ q, q ≠ p → sem.pcb q = s.sem.pcb q := by
  have hin : s.sem.blockedIn p = none := by rw [h.blockedIn, hs]; rfl
  have hnot : ¬ s.Holds p := not_holds (by rw [hs]; rfl) (by rw [hs]; simp [PhiPos.sem])
  have hflag : s.flag p ≠ .thinking := by
    have hallow := (h.seat p).flag
    rwa [hs] at hallow
  have hqs : qs (.phi p) = [] := (h.seat p).queue_nil (by rw [hs]; simp)
  have hval := (h.seat p).value
  rw [hs] at hval
  by_cases hv : 0 < s.sem.value (.phi p)
  · -- the semaphore has been raised by `p` itself or by a neighbour: `p` may eat
    have heat : s.flag p = .eating := by
      by_contra hne
      rw [if_neg fun hc => hne hc.1] at hval
      omega
    rw [if_pos ⟨heat, rfl⟩] at hval
    obtain ⟨sem, hdown, hq', hbl, hpcb, hsem⟩ := h.queue.take p hv
    refine ⟨sem, true, qs, by rw [PhiState.down, hdown]; rfl, ?_, fun _ _ => by rw [hpcb]⟩
    rw [if_pos rfl]
    refine h.moveTo hq' ?_ (Or.inl (by rw [hpcb]; exact hrun))
      (fun _ _ => Or.inl (by rw [hpcb])) ?_ (fun q => ?_)
      (fun q hq => ?_) (fun _ _ => rfl) ⟨?_, ?_, ?_, ?_⟩
    · rw [hbl, show PhiPos.sem p .eating = none from rfl, ← hin, Function.update_eq_self]
    · rw [hsem, Function.update_of_ne (by simp)]
      exact h.mutex
    · rw [← h.holds]
      by_cases hq : q = p
      · subst hq
        refine iff_of_false ?_ hnot
        rw [holds_self]
        simp [PhiPos.critical, PhiPos.sem]
      · exact holds_goto hq (by rw [hpcb])
    · rw [hsem]
      exact Function.update_of_ne (by simpa using hq) _ _
    · rw [goto_self]
      exact heat
    · rw [goto_sem, hsem, Function.update_self, hval, goto_self]
      simp only [PhiPos.hopes, Bool.false_eq_true, and_false, if_false]
      exact i32_of_lt (by omega) (by omega)
    · rw [hqs, goto_self]
      simp
    · intro hc
      rw [goto_self] at hc
      cases hc
  · -- nobody has let `p` eat yet, and only `p` waits for this semaphore
    have hhungry : s.flag p = .hungry := by
      cases hf : s.flag p with
      | thinking => exact absurd hf hflag
      | hungry => rfl
      | eating =>
        rw [if_pos ⟨hf, rfl⟩] at hval
        omega
    rw [hhungry, if_neg (by simp)] at hval
    obtain ⟨sem, hdown, hvalue, hbl, hpcb, hq'⟩ := h.queue.down hin hv
    have hkeep : ∀ q, q ≠ p → sem.pcb q = s.sem.pcb q := by
      intro q hq
      rw [hpcb]
      exact Function.update_of_ne hq _ _
    have hself : (sem.pcb p).state = .sleeping := by rw [hpcb, Function.update_self]
    refine ⟨sem, false, Function.update qs (.phi p) (p :: (qs (.phi p)).getLast?.toList),
      by rw [PhiState.down, hdown]; rfl, ?_, hkeep⟩
    rw [if_neg (by simp)]
    refine h.moveTo hq' hbl (Or.inr ⟨hself, Or.inl (by simp [PhiPos.sem])⟩)
      (fun q hq => Or.inl (hkeep q hq)) (by rw [hvalue]; exact h.mutex) (fun q => ?_)
      (fun q _ => by rw [hvalue]) (fun q hq => Function.update_of_ne (by simpa using hq) _ _)
      ⟨?_, ?_, ?_, fun _ => ?_⟩
    · rw [← h.holds]
      by_cases hq : q = p
      · subst hq
        refine iff_of_false ?_ hnot
        rw [holds_self]
        simp [PhiPos.critical, PhiPos.sem]
      · exact holds_goto hq (hkeep q hq)
    · rw [goto_self]
      exact hflag
    · rw [goto_sem, hvalue, hval, goto_flag, goto_self, hhungry]
      simp
    · rw [Function.update_self, hqs, goto_flag, goto_self, hhungry]
      simp
    · rw [goto_sem, hself, goto_flag, hhungry]
      simp

/-- A philosopher that has been woken in `down` of its semaphore may eat. -/
theorem PhiOk.sitResume (h : PhiOk s qs t) (hs : s.pos p = .sitWait)
    (hrun : (s.sem.pcb p).state = .runnable) :
    ∃ sem, s.downResume p (.phi p) .eating = .ok (({ s with sem } : PhiState).goto p .eating) ∧
      PhiOk (({ s with sem } : PhiState).goto p .eating) qs t ∧ sem.pcb = s.sem.pcb := by
  have hseat := h.seat p
  have heat : s.flag p = .eating := (hseat.woken hs).1 hrun
  have hnot : ¬ s.Holds p := not_holds (by rw [hs]; rfl) (by rw [hs]; simp [PhiPos.sem])
  obtain ⟨hres, hq'⟩ := h.queue.downResume (by rw [h.blockedIn, hs]; rfl) hrun
  refine ⟨_, by rw [PhiState.downResume, hres]; rfl, h.moveTo hq' rfl (Or.inl hrun)
    (fun _ _ => Or.inl rfl) h.mutex (fun q => ?_) (fun _ _ => rfl) (fun _ _ => rfl)
    ⟨by rw [goto_self]; exact heat, ?_, ?_, fun hc => ?_⟩, rfl⟩
  · rw [← h.holds]
    by_cases hq : q = p
    · subst hq
      refine iff_of_false ?_ hnot
      rw [holds_self]
      simp [PhiPos.critical, PhiPos.sem]
    · exact holds_goto hq rfl
  · rw [goto_self, goto_sem, hseat.value, hs]
    simp [PhiPos.hopes]
  · rw [hseat.queue, heat, goto_self]
    simp
  · rw [goto_self] at hc
    cases hc

/-- A hungry philosopher that has not called `down` yet may eat: its semaphore gets a value. -/
theorem PhiOk.test_ready (h : PhiOk s qs t) (hhungry : s.flag p = .hungry)
    (hsit : s.pos p ≠ .sitWait) {sem : SemState PhiSem Phi} (hin : sem.blockedIn = s.sem.blockedIn)
    (hq' : QueueOk sem qs) (hpcb : sem.pcb = s.sem.pcb)
    (hvalue : sem.value = Function.update s.sem.value (.phi p) (i32 (s.sem.value (.phi p) + 1)))
    (hapart : phiTable.Apart (Function.update s.flag p .eating)) :
    PhiOk { s with sem, flag := Function.update s.flag p .eating } qs t := by
  have hseat := h.seat p
  have hallow := hseat.flag
  have hhopes : (s.pos p).hopes := by
    rw [hhungry] at hallow
    cases hx : s.pos p <;> rw [hx] at hallow hsit <;> simp_all [PhiPos.Allows, PhiPos.hopes]
  have hval : s.sem.value (.phi p) = 0 := by
    rw [hseat.value, hhungry]
    simp
  have hself : Function.update s.flag p .eating p = .eating := Function.update_self _ _ _
  refine ⟨hq', fun q => ?_, fun q => ?_, ?_, fun q => ?_, fun q => ?_, hapart⟩
  · rw [hin]
    exact h.blockedIn q
  · rw [hpcb]
    exact h.state q
  · rw [hvalue, Function.update_of_ne (by simp)]
    exact h.mutex
  · rw [← h.holds]
    exact holds_congr rfl fun _ => by rw [hpcb]
  · by_cases hq : q = p
    · subst hq
      refine ⟨?_, ?_, ?_, fun hc => absurd hc hsit⟩
      · show (s.pos q).Allows (Function.update s.flag q .eating q)
        rw [hself]
        cases hx : s.pos q <;> rw [hx] at hhopes <;> simp_all [PhiPos.Allows, PhiPos.hopes]
      · show sem.value (.phi q) = _
        rw [hvalue, Function.update_self, hval, if_pos ⟨hself, hhopes⟩]
        exact i32_of_lt (by omega) (by omega)
      · rw [hseat.queue_nil hsit, if_neg fun hc => hsit hc.2]
    · refine (h.seat q).congr rfl (Function.update_of_ne hq _ _) ?_ rfl fun _ => by rw [hpcb]
      show sem.value (.phi q) = _
      rw [hvalue]
      exact Function.update_of_ne (by simpa using hq) _ _

/-- A hungry philosopher that waits in `down` may eat: it is woken. -/
theorem PhiOk.test_waiting (h : PhiOk s qs t) (hhungry : s.flag p = .hungry)
    (hsit : s.pos p = .sitWait) {sem : SemState PhiSem Phi} (hin : sem.blockedIn = s.sem.blockedIn)
    (hq' : QueueOk sem (Function.update qs (.phi p) [])) (hvalue : sem.value = s.sem.value)
    (hpcb : sem.pcb = Function.update s.sem.pcb p .running)
    (hapart : phiTable.Apart (Function.update s.flag p .eating)) :
    PhiOk { s with sem, flag := Function.update s.flag p .eating }
      (Function.update qs (.phi p) []) t := by
  have hval : s.sem.value (.phi p) = 0 := by
    rw [(h.seat p).value, hhungry]
    simp
  have hself : Function.update s.flag p .eating p = .eating := Function.update_self _ _ _
  have hkeep : ∀ q, q ≠ p → sem.pcb q = s.sem.pcb q := by
    intro q hq
    rw [hpcb]
    exact Function.update_of_ne hq _ _
  refine ⟨hq', fun q => ?_, fun q => ?_, ?_, fun q => ?_, fun q => ?_, hapart⟩
  · rw [hin]
    exact h.blockedIn q
  · by_cases hq : q = p
    · subst hq
      exact Or.inl (by rw [hpcb, Function.update_self]; rfl)
    · rw [hkeep q hq]
      exact h.state q
  · rw [hvalue]
    exact h.mutex
  · rw [← h.holds]
    refine holds_congr rfl fun hq => hkeep q ?_
    rintro rfl
    simp [hsit, PhiPos.sem] at hq
  · by_cases hq : q = p
    · subst hq
      refine ⟨?_, ?_, ?_, fun _ => ?_⟩
      · show (s.pos q).Allows (Function.update s.flag q .eating q)
        rw [hself, hsit]
        simp [PhiPos.Allows]
      · show sem.value (.phi q) = _
        rw [hvalue, hval, hsit]
        simp [PhiPos.hopes]
      · rw [Function.update_self, if_neg fun hc => ?_]
        have hc' : Function.update s.flag q .eating q = .hungry := hc.1
        rw [hself] at hc'
        cases hc'
      · show (sem.pcb q).state = .runnable ↔ Function.update s.flag q .eating q = .eating
        rw [hself, hpcb, Function.update_self]
        simp [RunState.running]
    · exact (h.seat q).congr rfl (Function.update_of_ne hq _ _) (by rw [hvalue])
        (Function.update_of_ne (by simpa using hq) _ _) fun _ => hkeep q hq

/-- **`phi_test_sem`** lets a hungry philosopher eat whose neighbours do not. -/
theorem PhiOk.test (h : PhiOk s qs t) (p : Phi) :
    ∃ sem qs', s.phiTestSem p = .ok { s with sem, flag := phiTable.tryEat s.flag p } ∧
      PhiOk { s with sem, flag := phiTable.tryEat s.flag p } qs' t ∧
      ∀ q, (s.pos q ≠ .sitWait ∨ (s.sem.pcb q).state = .runnable) →
        sem.pcb q = s.sem.pcb q := by
  by_cases hcan : phiTable.CanEat s.flag p
  · have hflag : phiTable.tryEat s.flag p = Function.update s.flag p .eating := if_pos hcan
    have hhungry := hcan.1
    have hseat := h.seat p
    obtain ⟨sem, woken, hup, hin, hcases⟩ := h.queue.up_cases (.phi p)
    have htest : s.phiTestSem p = .ok { s with sem, flag := phiTable.tryEat s.flag p } := by
      rw [phiTestSem, if_pos hcan, PhiState.up, setFlag_sem, hup, hflag]
      rfl
    have hapart : phiTable.Apart (Function.update s.flag p .eating) := hflag ▸ h.apart.tryEat
    rw [hflag] at htest ⊢
    -- the queue is empty unless the philosopher waits in it
    rcases hcases with ⟨hk, hq', hpcb, hvalue⟩ | ⟨a, ps, hk, hq', hvalue, hpcb⟩
    · have hsit : s.pos p ≠ .sitWait := by
        intro hc
        rw [hseat.queue, if_pos ⟨hhungry, hc⟩] at hk
        cases hk
      exact ⟨sem, qs, htest, h.test_ready hhungry hsit hin hq' hpcb hvalue hapart,
        fun q _ => by rw [hpcb]⟩
    · have hsit : s.pos p = .sitWait := by
        by_contra hc
        rw [hseat.queue_nil hc] at hk
        cases hk
      have hap : a = p ∧ ps = [] := by
        rw [hseat.queue, if_pos ⟨hhungry, hsit⟩] at hk
        simpa [eq_comm] using hk
      obtain ⟨rfl, rfl⟩ := hap
      refine ⟨sem, _, htest, h.test_waiting hhungry hsit hin hq' hvalue hpcb hapart,
        fun q hq => ?_⟩
      have hne : q ≠ a := by
        rintro rfl
        have hrun := hq.resolve_left fun hq => hq hsit
        rw [hseat.woken hsit, hhungry] at hrun
        cases hrun
      rw [hpcb]
      exact Function.update_of_ne hne _ _
  · have hflag : phiTable.tryEat s.flag p = s.flag := if_neg hcan
    refine ⟨s.sem, qs, ?_, ?_, fun _ _ => rfl⟩
    · rw [phiTestSem, if_neg hcan, hflag]
    · rw [hflag]
      exact h

end PhiState

end GarretOS
