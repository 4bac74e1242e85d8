import GarretOS.Sync.Monitor
import Mathlib.Data.Set.Card

/-!
# The token of a monitor

In every reachable state there is exactly one *token*: it lies in one of the semaphores `mutex`,
`next` and `cond[i].sem`, or a process holds it.  `up` gives it to a semaphore or to the process
that is woken, `down` takes it, and only the process that holds it executes code of the monitor.
This does not depend on the order of the wait queues, nor on their being complete.

* `MonitorOk` : the invariant, for the place `t` of the token;
* `MonitorOk.stay`, `MonitorOk.up`, `MonitorOk.down`, `MonitorOk.downResume` : one lemma for each
  kind of step;
* `monitor_correct` : mutual exclusion, the meaning of `next_count`, and what a process finds when
  `wait_cond` returns.
-/

namespace GarretOS

open SemState

/-- The place of the token. -/
inductive Token (n : ℕ) (π : Type) where
  | sem (k : MonitorSem n)
  | proc (p : π)
  deriving DecidableEq

theorem MonitorPos.sem_of_active {n : ℕ} {x : MonitorPos n} (hx : x.active) : x.sem = none := by
  cases x <;> first | rfl | cases hx

namespace MonitorState

variable {n : ℕ} {π δ : Type}

/-- A process that executes code of the monitor, or will do so without waiting. -/
def Holds (s : MonitorState n π δ) (p : π) : Prop :=
  (s.pos p).active ∨ ((s.pos p).sem ≠ none ∧ (s.mon.sem.pcb p).state = .runnable)

/-- The token has been handed to the processes that wait for the condition `i`. -/
def ForCond (s : MonitorState n π δ) (t : Token n π) (i : Fin n) : Prop :=
  t = .sem (.cond i) ∨ ∃ p, t = .proc p ∧ (s.pos p = .waiting i ∨ s.pos p = .awake i)

/-- The processes inside `signal_cond`, between the increment and the decrement of `next_count`. -/
def signallers (s : MonitorState n π δ) : Set π := {p | (s.pos p).signalling}

variable [DecidableEq π] {s : MonitorState n π δ} {p : π} {x y : MonitorPos n} {k : MonitorSem n}
  {m : Monitor n π} {qs : MonitorSem n → List π} {t : Token n π} {i : Fin n}

@[simp] theorem goto_mon : (s.goto m p y).mon = m := rfl

@[simp] theorem goto_data : (s.goto m p y).data = s.data := rfl

@[simp] theorem goto_self : (s.goto m p y).pos p = y := Function.update_self _ _ _

theorem goto_of_ne {q : π} (hq : q ≠ p) : (s.goto m p y).pos q = s.pos q :=
  Function.update_of_ne hq _ _

/-- A move between two places outside `down`. -/
theorem goto_sem (hy : y.sem = (s.pos p).sem) (q : π) :
    ((s.goto m p y).pos q).sem = (s.pos q).sem := by
  by_cases hq : q = p
  · rw [hq, goto_self, hy]
  · rw [goto_of_ne hq]

/-- The wait queues are in order, and the token is at `t`. -/
structure MonitorOk (s : MonitorState n π δ) (qs : MonitorSem n → List π) (t : Token n π) :
    Prop where
  /-- The wait queues of the semaphores. -/
  queue : QueueOk s.mon.sem qs
  /-- The processes inside `down` are where `down` is called. -/
  blockedIn : ∀ p, s.mon.sem.blockedIn p = (s.pos p).sem
  /-- The other processes may run. -/
  runnable : ∀ p, (s.pos p).sem = none → (s.mon.sem.pcb p).state = .runnable
  /-- Only the semaphore with the token has a value. -/
  value : ∀ k, s.mon.sem.value k = if t = .sem k then 1 else 0
  /-- Only the process with the token is in control. -/
  holds : ∀ p, s.Holds p ↔ t = .proc p

namespace MonitorOk

/-- A process in control stays in control as long as it calls no semaphore function. -/
theorem stay (h : MonitorOk s qs t) (hp : (s.pos p).active) (hm : m.sem = s.mon.sem)
    (hy : y.active) : MonitorOk (s.goto m p y) qs t := by
  have hsem := goto_sem (s := s) (m := m)
    ((MonitorPos.sem_of_active hy).trans (MonitorPos.sem_of_active hp).symm)
  refine ⟨?_, fun q => ?_, fun q hq => ?_, fun k => ?_, fun q => ?_⟩
  · rw [goto_mon, hm]
    exact h.queue
  · rw [goto_mon, hm, hsem]
    exact h.blockedIn q
  · rw [hsem] at hq
    rw [goto_mon, hm]
    exact h.runnable q hq
  · rw [goto_mon, hm]
    exact h.value k
  · rw [← h.holds, Holds, Holds, hsem, goto_mon, hm]
    by_cases hq : q = p
    · simp [hq, hp, hy]
    · rw [goto_of_ne hq]

/-- **`up`** hands the token to the semaphore, or to a process that waits for it. -/
theorem up (h : MonitorOk s qs t) (hp : (s.pos p).active) {woken : Option π}
    (hup : s.mon.sem.up k = .ok (m.sem, woken)) (hy : y.active = false) (hy' : y.sem = none) :
    ∃ qs' t', MonitorOk (s.goto m p y) qs' t' ∧
      (t' = .sem k ∨ ∃ q, t' = .proc q ∧ q ≠ p ∧ (s.pos q).sem = some k) := by
  have ht : t = .proc p := (h.holds p).1 (Or.inl hp)
  have hpsem := MonitorPos.sem_of_active hp
  have hsem := goto_sem (s := s) (m := m) (hy'.trans hpsem.symm)
  have hout : ∀ q, ((s.goto m p y).pos q).active → False := by
    intro q hact
    by_cases hq : q = p
    · rw [hq, goto_self, hy] at hact
      cases hact
    · rw [goto_of_ne hq] at hact
      have := (h.holds q).1 (Or.inl hact)
      rw [ht] at this
      exact hq (Token.proc.inj this).symm
  -- nobody waits and the semaphore gets the token, or the first in the queue gets it
  cases hk : qs k with
  | nil =>
    rw [h.queue.up_nil hk] at hup
    obtain ⟨hs, -⟩ := Prod.mk.inj (Except.ok.inj hup)
    -- `p` has the token, so nobody who is inside `down` has been woken
    have hrest : ∀ q, (s.pos q).sem ≠ none → (s.mon.sem.pcb q).state ≠ .runnable := by
      intro q hq hrun
      have := (h.holds q).1 (Or.inr ⟨hq, hrun⟩)
      rw [ht] at this
      obtain rfl := Token.proc.inj this
      exact hq hpsem
    refine ⟨qs, .sem k, ⟨?_, fun q => ?_, fun q hq => ?_, fun j => ?_, fun q => ?_⟩, Or.inl rfl⟩
    · rw [goto_mon, ← hs]
      exact h.queue.congr rfl rfl (fun _ _ => rfl) fun _ _ => rfl
    · rw [goto_mon, ← hs, hsem]
      exact h.blockedIn q
    · rw [hsem] at hq
      rw [goto_mon, ← hs]
      exact h.runnable q hq
    · have hvk : ∀ j, s.mon.sem.value j = 0 := fun j => by rw [h.value, ht, if_neg (by simp)]
      have hval : m.sem.value = Function.update s.mon.sem.value k (i32 (s.mon.sem.value k + 1)) := by
        rw [← hs]
      rw [goto_mon, hval]
      by_cases hj : j = k
      · subst hj
        rw [Function.update_self, hvk, if_pos rfl]
        exact i32_of_lt (by omega) (by omega)
      · rw [Function.update_of_ne hj, hvk, if_neg fun he => hj (Token.sem.inj he).symm]
    · simp only [reduceCtorEq, iff_false]
      rintro (hact | ⟨hq, hrun⟩)
      · exact hout q hact
      · rw [hsem] at hq
        rw [goto_mon, ← hs] at hrun
        exact hrest q hq hrun
  | cons a ps =>
    obtain ⟨s', hup', hvalue, hin, hpcb, hq⟩ := h.queue.up hk
    rw [hup'] at hup
    obtain ⟨rfl, -⟩ := Prod.mk.inj (Except.ok.inj hup)
    have hasem : (s.pos a).sem = some k := by
      rw [← h.blockedIn]
      exact (h.queue.blocked k a (by simp [hk])).1
    have hap : a ≠ p := by
      rintro rfl
      rw [hpsem] at hasem
      cases hasem
    refine ⟨_, .proc a, ⟨hq, fun q => ?_, fun q hqsem => ?_, fun j => ?_, fun q => ?_⟩,
      Or.inr ⟨a, rfl, hap, hasem⟩⟩
    · rw [goto_mon, hin, hsem]
      exact h.blockedIn q
    · rw [hsem] at hqsem
      have hqa : q ≠ a := by
        rintro rfl
        rw [hasem] at hqsem
        cases hqsem
      rw [goto_mon, hpcb, Function.update_of_ne hqa]
      exact h.runnable q hqsem
    · rw [goto_mon, hvalue, h.value, ht, if_neg (by simp), if_neg (by simp)]
    · constructor
      · rintro (hact | ⟨hqsem, hrun⟩)
        · exact (hout q hact).elim
        · by_contra hqa
          have hqa : q ≠ a := fun he => hqa (by rw [he])
          rw [hsem] at hqsem
          rw [goto_mon, hpcb, Function.update_of_ne hqa] at hrun
          have := (h.holds q).1 (Or.inr ⟨hqsem, hrun⟩)
          rw [ht] at this
          obtain rfl := Token.proc.inj this
          exact hqsem hpsem
      · rintro he
        obtain rfl := Token.proc.inj he
        refine Or.inr ⟨?_, ?_⟩
        · rw [hsem, hasem]
          simp
        · rw [goto_mon, hpcb, Function.update_self]
          rfl

/-- **`down`** takes the token from the semaphore, or blocks. -/
theorem down (h : MonitorOk s qs t) (hp : (s.pos p).sem = none) (hp' : (s.pos p).active = false)
    {granted : Bool} (hdown : s.mon.down p k = .ok (m, granted)) (hx : x.active)
    (hy : y.active = false) (hy' : y.sem = some k) :
    m.nextCount = s.mon.nextCount ∧ ∃ qs' t',
      MonitorOk (s.goto m p (if granted then x else y)) qs' t' ∧
      (granted → t = .sem k ∧ t' = .proc p) ∧ (¬ granted → t' = t ∧ t ≠ .proc p) := by
  obtain ⟨⟨sem, g⟩, hsemdown, hm⟩ := bind_eq_ok.1 hdown
  obtain ⟨hm', rfl⟩ := Prod.mk.inj (Except.ok.inj hm)
  clear hm
  have htp : t ≠ .proc p := by
    intro ht
    rcases (h.holds p).2 ht with hact | ⟨hne, -⟩
    · rw [hp'] at hact
      cases hact
    · exact hne hp
  have hin : s.mon.sem.blockedIn p = none := by rw [h.blockedIn, hp]
  refine ⟨by rw [← hm'], ?_⟩
  subst hm'
  by_cases hv : 0 < s.mon.sem.value k
  · -- the semaphore has the token
    have ht : t = .sem k := by
      by_contra hne
      rw [h.value, if_neg hne] at hv
      omega
    simp only [SemState.down, if_pos hv, Except.ok.injEq, Prod.mk.injEq] at hsemdown
    obtain ⟨hs, rfl⟩ := hsemdown
    subst hs
    have hx' := (MonitorPos.sem_of_active hx).trans hp.symm
    refine ⟨qs, .proc p, ⟨?_, fun q => ?_, fun q hq => ?_, fun j => ?_, fun q => ?_⟩,
      fun _ => ⟨ht, rfl⟩, fun hg => absurd rfl hg⟩
    · exact h.queue.congr rfl rfl (fun _ _ => rfl) fun _ _ => rfl
    · rw [if_pos rfl, goto_sem hx']
      exact h.blockedIn q
    · rw [if_pos rfl, goto_sem hx'] at hq
      exact h.runnable q hq
    · rw [goto_mon, if_neg (by simp)]
      by_cases hj : j = k
      · subst hj
        have hv1 : s.mon.sem.value j = 1 := by rw [h.value, if_pos ht]
        simp only [Function.update_self, hv1]
        exact i32_of_lt (by omega) (by omega)
      · have hne : ¬ (Token.sem k : Token n π) = .sem j := fun he => hj (Token.sem.inj he).symm
        simp only [Function.update_of_ne hj, h.value, ht, if_neg hne]
    · rw [if_pos rfl]
      by_cases hq : q = p
      · subst hq
        simp [Holds, hx]
      · have hnot : ¬ s.Holds q := by
          intro hh
          have := (h.holds q).1 hh
          rw [ht] at this
          cases this
        have hne : ¬ (Token.proc p : Token n π) = .proc q := fun he => hq (Token.proc.inj he).symm
        rw [Holds, goto_sem hx', goto_of_ne hq]
        exact iff_of_false hnot hne
  · -- the token is elsewhere
    obtain ⟨s', hs', hvalue, hin', hpcb, hq'⟩ := h.queue.down hin hv
    rw [hs'] at hsemdown
    obtain ⟨rfl, rfl⟩ := Prod.mk.inj (Except.ok.inj hsemdown)
    refine ⟨_, t, ⟨hq', fun q => ?_, fun q hq => ?_, fun j => ?_, fun q => ?_⟩,
      fun hg => (by cases hg), fun _ => ⟨rfl, htp⟩⟩
    · rw [goto_mon, hin', if_neg (by simp)]
      by_cases hq : q = p
      · rw [hq, goto_self, hy', Function.update_self]
      · rw [goto_of_ne hq, Function.update_of_ne hq]
        exact h.blockedIn q
    · rw [if_neg (by simp)] at hq
      have hqp : q ≠ p := by
        rintro rfl
        rw [goto_self, hy'] at hq
        cases hq
      rw [goto_of_ne hqp] at hq
      rw [goto_mon, hpcb, Function.update_of_ne hqp]
      exact h.runnable q hq
    · rw [goto_mon, hvalue]
      exact h.value j
    · rw [if_neg (by simp), Holds, goto_mon, hpcb]
      by_cases hq : q = p
      · rw [hq, goto_self, hy, Function.update_self]
        exact iff_of_false (by simp) htp
      · rw [goto_of_ne hq, Function.update_of_ne hq]
        exact h.holds q

/-- A process that has been woken returns from **`down`** with the token. -/
theorem downResume (h : MonitorOk s qs t) (hp : (s.pos p).sem = some k)
    (hrun : (s.mon.sem.pcb p).state = .runnable) (hres : s.mon.downResume p k = .ok m)
    (hy : y.active) :
    m.nextCount = s.mon.nextCount ∧ t = .proc p ∧ MonitorOk (s.goto m p y) qs t := by
  have hin : s.mon.sem.blockedIn p = some k := by rw [h.blockedIn, hp]
  have ht : t = .proc p := (h.holds p).1 (Or.inr ⟨by simp [hp], hrun⟩)
  obtain ⟨heq, hq'⟩ := h.queue.downResume hin hrun
  obtain ⟨sem, hsem, hm⟩ := bind_eq_ok.1 hres
  rw [heq] at hsem
  obtain rfl := Except.ok.inj hsem
  obtain rfl := Except.ok.inj hm
  refine ⟨rfl, ht, hq', fun q => ?_, fun q hq => ?_, h.value, fun q => ?_⟩
  · by_cases hq : q = p
    · rw [hq, goto_self, MonitorPos.sem_of_active hy]
      exact Function.update_self _ _ _
    · rw [goto_of_ne hq, ← h.blockedIn]
      exact Function.update_of_ne hq _ _
  · by_cases hqp : q = p
    · rw [hqp]
      exact hrun
    · rw [goto_of_ne hqp] at hq
      exact h.runnable q hq
  · rw [← h.holds]
    by_cases hq : q = p
    · rw [hq]
      exact iff_of_true (Or.inl (by rw [goto_self]; exact hy)) ((h.holds p).2 ht)
    · rw [Holds, Holds, goto_of_ne hq]
      rfl

end MonitorOk

/-! ### The counter of signallers -/

/-- `next_count` is the number of signallers. -/
structure CountOk (s : MonitorState n π δ) : Prop where
  finite : s.signallers.Finite
  nextCount : s.mon.nextCount = i32 s.signallers.ncard

namespace CountOk

/-- A move that neither begins nor ends a signal. -/
theorem same (h : CountOk s) (hm : m.nextCount = s.mon.nextCount)
    (hy : y.signalling = (s.pos p).signalling) : CountOk (s.goto m p y) := by
  have heq : (s.goto m p y).signallers = s.signallers := by
    ext q
    by_cases hq : q = p
    · simp only [signallers, Set.mem_ofPred_eq, hq, goto_self, hy]
    · simp only [signallers, Set.mem_ofPred_eq, goto_of_ne hq]
  refine ⟨?_, ?_⟩
  · rw [heq]
    exact h.finite
  · rw [heq, goto_mon, hm]
    exact h.nextCount

/-- The increment at the beginning of a signal. -/
theorem insert (h : CountOk s) (hm : m.nextCount = i32 (s.mon.nextCount + 1))
    (hp : (s.pos p).signalling = false) (hy : y.signalling) : CountOk (s.goto m p y) := by
  have heq : (s.goto m p y).signallers = Insert.insert p s.signallers := by
    ext q
    by_cases hq : q = p
    · simp [signallers, hq, hy]
    · simp [signallers, goto_of_ne hq, hq]
  have hnew : p ∉ s.signallers := by simp [signallers, hp]
  refine ⟨?_, ?_⟩
  · rw [heq]
    exact h.finite.insert p
  · rw [heq, Set.ncard_insert_of_notMem hnew h.finite, goto_mon, hm, h.nextCount, i32, i32, i32,
      Int.bmod_add_bmod]
    push_cast
    rfl

/-- The decrement at the end of a signal. -/
theorem erase (h : CountOk s) (hm : m.nextCount = i32 (s.mon.nextCount - 1))
    (hp : (s.pos p).signalling) (hy : y.signalling = false) : CountOk (s.goto m p y) := by
  have heq : (s.goto m p y).signallers = s.signallers \ {p} := by
    ext q
    by_cases hq : q = p
    · simp [signallers, hq, hy]
    · simp [signallers, goto_of_ne hq, hq]
  have hold : p ∈ s.signallers := hp
  refine ⟨?_, ?_⟩
  · rw [heq]
    exact h.finite.sdiff
  · have hcard := Set.ncard_sdiff_singleton_add_one hold h.finite
    rw [heq, goto_mon, hm, h.nextCount, ← hcard, i32, i32, i32, Int.bmod_sub_bmod]
    congr 1
    omega

end CountOk

/-! ### Signals -/

/-- The token of a process that has just moved. -/
theorem forCond_proc : (s.goto m p y).ForCond (.proc p) i ↔ y = .waiting i ∨ y = .awake i := by
  simp [ForCond]

/-- The moves of a process without the token. -/
theorem ForCond.of_goto (ht : t ≠ .proc p) (h : (s.goto m p y).ForCond t i) : s.ForCond t i := by
  rcases h with h | ⟨q, hq, hpos⟩
  · exact Or.inl h
  · have hqp : q ≠ p := fun he => ht (he ▸ hq)
    rw [goto_of_ne hqp] at hpos
    exact Or.inr ⟨q, hq, hpos⟩

/-- A token that `up` hands on reaches a condition only if `up` is applied to its semaphore. -/
theorem ForCond.of_up (ht : t = .sem k ∨ ∃ q, t = .proc q ∧ q ≠ p ∧ (s.pos q).sem = some k)
    (h : (s.goto m p y).ForCond t i) : k = .cond i := by
  rcases ht with rfl | ⟨q, rfl, hqp, hq⟩
  · rcases h with h | ⟨_, h, -⟩
    · exact Token.sem.inj h
    · cases h
  · rcases h with h | ⟨r, hr, hpos⟩
    · cases h
    · obtain rfl := Token.proc.inj hr
      rw [goto_of_ne hqp] at hpos
      rcases hpos with hpos | hpos
      · rw [hpos] at hq
        exact (Option.some.inj hq).symm
      · rw [hpos] at hq
        cases hq

/-- What a step does to the token of the condition `i`: it is a call of `up` in `signal_cond`, or
it executes no code of the monitor and the token was there before. -/
def Signals (s s' : MonitorState n π δ) (op : MonitorOp n π) (t t' : Token n π) : Prop :=
  ∀ i, s'.ForCond t' i → s'.data = s.data ∧
    ((∃ p w, op = .notify p i w) ∨ op.isCode = false ∧ s.ForCond t i)

omit [DecidableEq π] in
/-- The step leaves the token to a process that is not at a condition. -/
theorem Signals.of_not {s' : MonitorState n π δ} {op : MonitorOp n π} {t' : Token n π}
    (h : ∀ i, ¬ s'.ForCond t' i) : Signals s s' op t t' :=
  fun i hi => absurd hi (h i)

theorem not_forCond_proc (hy : ∀ i, y ≠ .waiting i ∧ y ≠ .awake i) (i : Fin n) :
    ¬ (s.goto m p y).ForCond (.proc p) i := by
  rw [forCond_proc]
  rintro (rfl | rfl)
  · exact (hy i).1 rfl
  · exact (hy i).2 rfl

theorem release_cases {woken : Option π} (h : s.mon.release = .ok (m, woken)) :
    m.nextCount = s.mon.nextCount ∧
      ∃ k, (∀ i, k ≠ .cond i) ∧ s.mon.sem.up k = .ok (m.sem, woken) := by
  obtain ⟨⟨sem, w⟩, hup, hm⟩ := bind_eq_ok.1 h
  obtain ⟨rfl, rfl⟩ := Prod.mk.inj (Except.ok.inj hm)
  refine ⟨rfl, ?_⟩
  split_ifs at hup
  · exact ⟨.next, by simp, hup⟩
  · exact ⟨.mutex, by simp, hup⟩

/-- The calls of `down`: at the entry, in `signal_cond` and in `wait_cond`. -/
theorem MonitorOk.down_step (h : MonitorOk s qs t) (hc : CountOk s) {op : MonitorOp n π}
    (hop : op.isCode = false) (hp : (s.pos p).sem = none) (hp' : (s.pos p).active = false)
    {granted : Bool} (hdown : s.mon.down p k = .ok (m, granted)) (hx : x.active)
    (hxs : x.signalling = (s.pos p).signalling) (hy : y.active = false) (hy' : y.sem = some k)
    (hys : y.signalling = (s.pos p).signalling)
    (hxk : ∀ i, x = .waiting i ∨ x = .awake i → k = .cond i) :
    ∃ qs' t', MonitorOk (s.goto m p (if granted then x else y)) qs' t' ∧
      CountOk (s.goto m p (if granted then x else y)) ∧
      Signals s (s.goto m p (if granted then x else y)) op t t' := by
  obtain ⟨hnext, qs', t', hok, hyes, hno⟩ := h.down hp hp' hdown hx hy hy'
  refine ⟨qs', t', hok, ?_, fun i hi => ⟨rfl, Or.inr ⟨hop, ?_⟩⟩⟩
  · cases granted with
    | true => exact hc.same hnext hxs
    | false => exact hc.same hnext hys
  · cases granted with
    | true =>
      obtain ⟨rfl, rfl⟩ := hyes rfl
      rw [if_pos rfl, forCond_proc] at hi
      rw [hxk i hi]
      exact Or.inl rfl
    | false =>
      obtain ⟨rfl, hne⟩ := hno (by simp)
      exact hi.of_goto hne

/-- The return of `down` after waiting. -/
theorem MonitorOk.downResume_step (h : MonitorOk s qs t) (hc : CountOk s) {op : MonitorOp n π}
    (hop : op.isCode = false) (hp : (s.pos p).sem = some k)
    (hrun : (s.mon.sem.pcb p).state = .runnable) (hres : s.mon.downResume p k = .ok m)
    (hy : y.active) (hys : y.signalling = (s.pos p).signalling)
    (hyk : ∀ i, y = .waiting i ∨ y = .awake i → s.pos p = .waiting i) :
    ∃ qs' t', MonitorOk (s.goto m p y) qs' t' ∧ CountOk (s.goto m p y) ∧
      Signals s (s.goto m p y) op t t' := by
  obtain ⟨hnext, rfl, hok⟩ := h.downResume hp hrun hres hy
  refine ⟨qs, _, hok, hc.same hnext hys, fun i hi => ⟨rfl, Or.inr ⟨hop, ?_⟩⟩⟩
  rw [forCond_proc] at hi
  exact Or.inr ⟨p, rfl, Or.inl (hyk i hi)⟩

/-- The calls of `up(next)` and `up(mutex)`. -/
theorem MonitorOk.release_step (h : MonitorOk s qs t) (hc : CountOk s) {op : MonitorOp n π}
    (hp : (s.pos p).active) {woken : Option π} (hrel : s.mon.release = .ok (m, woken))
    (hy : y.active = false) (hy' : y.sem = none) (hys : y.signalling = (s.pos p).signalling) :
    ∃ qs' t', MonitorOk (s.goto m p y) qs' t' ∧ CountOk (s.goto m p y) ∧
      Signals s (s.goto m p y) op t t' := by
  obtain ⟨hnext, k, hk, hup⟩ := release_cases hrel
  obtain ⟨qs', t', hok, ht'⟩ := h.up hp hup hy hy'
  exact ⟨qs', t', hok, hc.same hnext hys, .of_not fun i hi => hk i (hi.of_up ht')⟩

/-- A process in control stays in control. -/
theorem MonitorOk.stay_step (h : MonitorOk s qs t) (hc : CountOk (s.goto m p y))
    {op : MonitorOp n π} (hp : (s.pos p).active) (hm : m.sem = s.mon.sem) (hy : y.active)
    (hy' : ∀ i, y ≠ .waiting i ∧ y ≠ .awake i) :
    ∃ qs' t', MonitorOk (s.goto m p y) qs' t' ∧ CountOk (s.goto m p y) ∧
      Signals s (s.goto m p y) op t t' := by
  obtain rfl : t = .proc p := (h.holds p).1 (Or.inl hp)
  exact ⟨qs, _, h.stay hp hm hy, hc, .of_not (not_forCond_proc hy')⟩

/-- Each step keeps the token and the counter. -/
theorem MonitorOk.step {s' : MonitorState n π δ} {op : MonitorOp n π} (h : MonitorOk s qs t)
    (hc : CountOk s) (hstep : (monitorSystem n π δ).step s op s') :
    ∃ qs' t', MonitorOk s' qs' t' ∧ CountOk s' ∧ Signals s s' op t t' := by
  cases op with
  | enter p granted =>
    obtain ⟨⟨hp, -⟩, m, hdown, rfl⟩ := hstep
    exact h.down_step hc rfl (by rw [hp]; rfl) (by rw [hp]; rfl) hdown rfl (by rw [hp]; rfl) rfl
      rfl (by rw [hp]; rfl) (by simp)
  | entered p =>
    obtain ⟨⟨hp, hrun⟩, m, hres, rfl⟩ := hstep
    exact h.downResume_step hc rfl (by rw [hp]; rfl) hrun hres rfl (by rw [hp]; rfl) (by simp)
  | work p =>
    obtain ⟨⟨hp, -⟩, d, rfl⟩ := hstep
    have ht : t = .proc p := (h.holds p).1 (Or.inl (by rw [hp]; rfl))
    refine ⟨qs, t, ⟨h.queue, h.blockedIn, h.runnable, h.value, h.holds⟩,
      ⟨hc.finite, hc.nextCount⟩, .of_not fun i hi => ?_⟩
    rcases hi with hi | ⟨q, hq, hpos⟩
    · rw [ht] at hi
      cases hi
    · obtain rfl := Token.proc.inj (ht.symm.trans hq)
      have hpos : s.pos p = .waiting i ∨ s.pos p = .awake i := hpos
      rw [hp] at hpos
      simp at hpos
  | signal p i =>
    obtain ⟨⟨hp, -⟩, rfl⟩ := hstep
    by_cases hcount : 0 < s.mon.count i
    · have heq : s.mon.signalCond i = ({ s.mon with nextCount := i32 (s.mon.nextCount + 1) }, true) :=
        if_pos hcount
      rw [heq]
      exact h.stay_step (hc.insert rfl (by rw [hp]; rfl) rfl) (by rw [hp]; rfl) rfl rfl (by simp)
    · have heq : s.mon.signalCond i = (s.mon, false) := if_neg hcount
      rw [heq]
      exact h.stay_step (hc.same rfl (by rw [hp]; rfl)) (by rw [hp]; rfl) rfl rfl (by simp)
  | notify p i woken =>
    obtain ⟨⟨hp, -⟩, m, hup, rfl⟩ := hstep
    obtain ⟨⟨sem, w⟩, hsem, hm⟩ := bind_eq_ok.1 hup
    obtain ⟨rfl, rfl⟩ := Prod.mk.inj (Except.ok.inj hm)
    obtain ⟨qs', t', hok, ht'⟩ :=
      h.up (m := { s.mon with sem }) (y := .notified) (by rw [hp]; rfl) hsem rfl rfl
    refine ⟨qs', t', hok, hc.same rfl (by rw [hp]; rfl), fun j hj => ⟨rfl, Or.inl ⟨p, w, ?_⟩⟩⟩
    rw [MonitorSem.cond.inj (hj.of_up ht')]
  | suspend p granted =>
    obtain ⟨⟨hp, -⟩, m, hdown, rfl⟩ := hstep
    exact h.down_step hc rfl (by rw [hp]; rfl) (by rw [hp]; rfl) hdown rfl (by rw [hp]; rfl) rfl
      rfl (by rw [hp]; rfl) (by simp)
  | resume p =>
    obtain ⟨⟨hp, hrun⟩, m, hres, rfl⟩ := hstep
    exact h.downResume_step hc rfl (by rw [hp]; rfl) hrun hres rfl (by rw [hp]; rfl) (by simp)
  | signalled p =>
    obtain ⟨⟨hp, -⟩, rfl⟩ := hstep
    exact h.stay_step (hc.erase rfl (by rw [hp]; rfl) rfl) (by rw [hp]; rfl) rfl rfl (by simp)
  | wait p i =>
    obtain ⟨⟨hp, -⟩, rfl⟩ := hstep
    have hc' : CountOk (s.goto (s.mon.waitCond i) p (.leaving i)) := hc.same rfl (by rw [hp]; rfl)
    exact h.stay_step hc' (by rw [hp]; rfl) rfl rfl (by simp)
  | leave p i woken =>
    obtain ⟨⟨hp, -⟩, m, hrel, rfl⟩ := hstep
    exact h.release_step hc (by rw [hp]; rfl) hrel rfl rfl (by rw [hp]; rfl)
  | sleep p i granted =>
    obtain ⟨⟨hp, -⟩, m, hdown, rfl⟩ := hstep
    exact h.down_step hc rfl (by rw [hp]; rfl) (by rw [hp]; rfl) hdown rfl (by rw [hp]; rfl) rfl
      rfl (by rw [hp]; rfl) (by simp)
  | wake p i =>
    obtain ⟨⟨hp, hrun⟩, m, hres, rfl⟩ := hstep
    exact h.downResume_step hc rfl (by rw [hp]; rfl) hrun hres rfl (by rw [hp]; rfl)
      (by simp [hp])
  | waited p i =>
    obtain ⟨⟨hp, -⟩, rfl⟩ := hstep
    have hc' : CountOk (s.goto (s.mon.waitCondEnd i) p .inside) := hc.same rfl (by rw [hp]; rfl)
    exact h.stay_step hc' (by rw [hp]; rfl) rfl rfl (by simp)
  | exit p woken =>
    obtain ⟨⟨hp, -⟩, m, hrel, rfl⟩ := hstep
    exact h.release_step hc (by rw [hp]; rfl) hrel rfl rfl (by rw [hp]; rfl)

/-! ### Initialisation -/

theorem initList_comm {α : Type} [DecidableEq α] (L : Links α) (a b : α) :
    (L.initList a).initList b = (L.initList b).initList a := by
  by_cases hab : a = b
  · rw [hab]
  · simp only [Links.initList, Links.setNext, Links.setPrev, Function.update_comm hab]

/-- What `init_sem` does is not undone by the initialisation of another semaphore. -/
theorem initList_keep {κ α : Type} [DecidableEq κ] [DecidableEq α] {u : SemState κ α} {j k : κ}
    {v : ℤ} (h : u.link.initList (.queue k) = u.link ∨ k = j) :
    (u.initSem j v).link.initList (.queue k) = (u.initSem j v).link := by
  rcases h with h | rfl
  · rw [SemState.initSem, initList_comm, h]
  · simp [SemState.initSem, Links.initList, Links.setNext, Links.setPrev]

/-- The loop of `init_monitor`. -/
theorem foldl_initCond (l : List (Fin n)) (m : Monitor n π) :
    (l.foldl Monitor.initCond m).nextCount = m.nextCount ∧
    (l.foldl Monitor.initCond m).sem.blockedIn = m.sem.blockedIn ∧
    (∀ k, m.sem.link.initList (.queue k) = m.sem.link ∨ (∃ i ∈ l, k = .cond i) →
      (l.foldl Monitor.initCond m).sem.link.initList (.queue k) =
        (l.foldl Monitor.initCond m).sem.link) ∧
    ∀ k, (l.foldl Monitor.initCond m).sem.value k =
      if ∃ i ∈ l, k = .cond i then 0 else m.sem.value k := by
  induction l generalizing m with
  | nil => simp
  | cons i l ih =>
    obtain ⟨h1, h2, h3, h4⟩ := ih (m.initCond i)
    refine ⟨h1, h2, fun k hk => h3 k ?_, fun k => ?_⟩
    · rcases hk with hk | ⟨j, hj, rfl⟩
      · exact Or.inl (initList_keep (Or.inl hk))
      · rcases List.mem_cons.1 hj with rfl | hj
        · exact Or.inl (initList_keep (Or.inr rfl))
        · exact Or.inr ⟨j, hj, rfl⟩
    · rw [List.foldl_cons, h4]
      by_cases hl : ∃ j ∈ l, k = .cond j
      · obtain ⟨j, hj, rfl⟩ := hl
        rw [if_pos ⟨j, hj, rfl⟩, if_pos ⟨j, List.mem_cons_of_mem _ hj, rfl⟩]
      · rw [if_neg hl]
        by_cases hi : k = .cond i
        · subst hi
          rw [if_pos ⟨i, List.mem_cons_self, rfl⟩]
          exact Function.update_self _ _ _
        · rw [if_neg]
          · exact Function.update_of_ne hi _ _
          · rintro ⟨j, hj, rfl⟩
            rcases List.mem_cons.1 hj with rfl | hj
            · exact hi rfl
            · exact hl ⟨j, hj, rfl⟩

/-- After `init_monitor` the token lies in `mutex`. -/
theorem MonitorOk.init (h : (monitorSystem n π δ).init s) :
    MonitorOk s (fun _ => []) (.sem .mutex) ∧ CountOk s := by
  obtain ⟨⟨m₀, hm⟩, hproc, hpos⟩ := h
  obtain ⟨_, -, hm⟩ := bind_eq_ok.1 hm
  have hm := (Except.ok.inj hm).symm
  obtain ⟨h1, -, h3, h4⟩ := foldl_initCond (List.finRange n)
    { m₀ with nextCount := 0, sem := (m₀.sem.initSem .mutex 1).initSem .next 0 }
  have hempty : s.signallers = ∅ := by
    ext p
    simp [signallers, hpos p, MonitorPos.signalling]
  refine ⟨⟨QueueOk.of_init (fun k => ?_) fun p => (hproc p).1, fun p => ?_, fun p _ => ?_,
    fun k => ?_, fun p => ?_⟩, ?_, ?_⟩
  · rw [hm]
    refine h3 k ?_
    cases k with
    | mutex => exact Or.inl (initList_keep (Or.inl (initList_keep (Or.inr rfl))))
    | next => exact Or.inl (initList_keep (Or.inr rfl))
    | cond i => exact Or.inr ⟨i, List.mem_finRange i, rfl⟩
  · rw [(hproc p).1, hpos p]
    rfl
  · rw [(hproc p).2]
    rfl
  · refine (congrArg (fun m : Monitor n π => m.sem.value k) hm).trans ((h4 k).trans ?_)
    cases k <;> simp [SemState.initSem]
  · simp [Holds, hpos p, MonitorPos.active, MonitorPos.sem]
  · rw [hempty]
    exact Set.finite_empty
  · rw [hempty, Set.ncard_empty]
    exact (congrArg Monitor.nextCount hm).trans h1

/-! ### Runs -/

/-- The last signal of the condition `i` in the run `ls`: the data have not changed since, and no
code of the monitor has been executed. -/
def Signalled (ls : List (MonitorOp n π)) (data : δ) (i : Fin n) : Prop :=
  ∃ l₁ p w l₂ s₁, ls = l₁ ++ .notify p i w :: l₂ ∧ (monitorSystem n π δ).Run l₁ s₁ ∧
    s₁.data = data ∧ ∀ op ∈ l₂, op.isCode = false

/-- In every run there is exactly one token, and it reaches a condition only by a signal. -/
theorem MonitorOk.run {ls : List (MonitorOp n π)} (h : (monitorSystem n π δ).Run ls s) :
    ∃ qs t, MonitorOk s qs t ∧ CountOk s ∧ ∀ i, s.ForCond t i → Signalled ls s.data i := by
  induction h with
  | start h =>
    obtain ⟨hok, hc⟩ := MonitorOk.init h
    refine ⟨_, _, hok, hc, fun i hi => ?_⟩
    rcases hi with hi | ⟨p, hp, -⟩
    · cases hi
    · cases hp
  | @step ls s s' op hr hstep ih =>
    obtain ⟨qs, t, hok, hc, hist⟩ := ih
    obtain ⟨qs', t', hok', hc', hsig⟩ := hok.step hc hstep
    refine ⟨qs', t', hok', hc', fun i hi => ?_⟩
    obtain ⟨hdata, ⟨p, w, rfl⟩ | ⟨hcode, hfor⟩⟩ := hsig i hi
    · exact ⟨ls, p, w, [], s, rfl, hr, hdata.symm, by simp⟩
    · obtain ⟨l₁, p, w, l₂, s₁, rfl, hr₁, hd, hl₂⟩ := hist i hfor
      refine ⟨l₁, p, w, l₂ ++ [op], s₁, by simp, hr₁, hd.trans hdata.symm, fun o ho => ?_⟩
      rcases List.mem_append.1 ho with ho | ho
      · exact hl₂ o ho
      · rw [List.mem_singleton.1 ho]
        exact hcode

/-- **The monitor.**  In every run at most one process executes code of the monitor; `next_count`
is the number of processes inside `signal_cond` between its increment and its decrement; and when
`wait_cond` returns, no code of the monitor has been executed, and the data have not changed, since
the last `up` by which a process signalled the condition. -/
theorem monitor_correct {ls : List (MonitorOp n π)} (h : (monitorSystem n π δ).Run ls s) :
    (∀ p q, (s.pos p).active → (s.pos q).active → p = q) ∧
    (s.signallers.Finite ∧ s.mon.nextCount = i32 s.signallers.ncard ∧
      (s.signallers.ncard < 2 ^ 31 → s.mon.nextCount = s.signallers.ncard)) ∧
    ∀ p i s', (monitorSystem n π δ).step s (.waited p i) s' →
      s'.data = s.data ∧ Signalled ls s.data i := by
  obtain ⟨qs, t, hok, hc, hist⟩ := MonitorOk.run h
  refine ⟨fun p q hp hq => ?_, ⟨hc.finite, hc.nextCount, fun hlt => ?_⟩, fun p i s' hstep => ?_⟩
  · have ht := (hok.holds p).1 (Or.inl hp)
    rw [(hok.holds q).1 (Or.inl hq)] at ht
    exact (Token.proc.inj ht).symm
  · rw [hc.nextCount]
    exact i32_of_lt (by omega) (by omega)
  · obtain ⟨⟨hp, -⟩, rfl⟩ := hstep
    have ht := (hok.holds p).1 (Or.inl (by rw [hp]; rfl))
    exact ⟨rfl, hist i (Or.inr ⟨p, ht, Or.inr hp⟩)⟩

/-- A monitor with one condition variable. -/
def newMonitor : Monitor 1 ℕ where
  sem := (((⟨fun _ => 0, ⟨id, id⟩, fun p => ⟨p, 0, .mutex⟩, fun _ => .running, fun _ => none⟩ :
    SemState (MonitorSem 1) ℕ).initSem .mutex 1).initSem .next 0).initSem (.cond 0) 0
  nextCount := 0
  count := Function.update (fun _ => 0) 0 0

theorem newMonitor_init : ∃ m₀ : Monitor 1 ℕ, m₀.initMonitor = .ok newMonitor :=
  ⟨⟨⟨fun _ => 0, ⟨id, id⟩, fun p => ⟨p, 0, .mutex⟩, fun _ => .running, fun _ => none⟩, 0,
    fun _ => 0⟩, rfl⟩

/-- One process waits, another one signals, and the first one returns from `wait_cond`. -/
theorem monitor_correct_signal : ∃ ls s s',
    (monitorSystem 1 ℕ ℕ).Run ls s ∧ (monitorSystem 1 ℕ ℕ).step s (.waited 0 0) s' ∧
      Signalled ls s.data 0 := by
  let A := monitorSystem 1 ℕ ℕ
  have h₀ : A.Run [] ⟨newMonitor, 0, fun _ => .outside⟩ :=
    .start ⟨newMonitor_init, fun _ => ⟨rfl, rfl⟩, fun _ => rfl⟩
  have h₁ := h₀.step (show A.step _ (.enter 0 true) _ from ⟨⟨rfl, rfl⟩, _, rfl, rfl⟩)
  have h₂ := h₁.step (show A.step _ (.wait 0 0) _ from ⟨⟨rfl, rfl⟩, rfl⟩)
  have h₃ := h₂.step (show A.step _ (.leave 0 0 none) _ from ⟨⟨rfl, rfl⟩, _, rfl, rfl⟩)
  have h₄ := h₃.step (show A.step _ (.sleep 0 0 false) _ from ⟨⟨rfl, rfl⟩, _, rfl, rfl⟩)
  have h₅ := h₄.step (show A.step _ (.enter 1 true) _ from ⟨⟨rfl, rfl⟩, _, rfl, rfl⟩)
  have h₆ := h₅.step (show A.step _ (.signal 1 0) _ from ⟨⟨rfl, rfl⟩, rfl⟩)
  have h₇ := h₆.step (show A.step _ (.notify 1 0 (some 0)) _ from ⟨⟨rfl, rfl⟩, _, rfl, rfl⟩)
  have h₈ := h₇.step (show A.step _ (.suspend 1 false) _ from ⟨⟨rfl, rfl⟩, _, rfl, rfl⟩)
  have h₉ := h₈.step (show A.step _ (.wake 0 0) _ from ⟨⟨rfl, rfl⟩, _, rfl, rfl⟩)
  refine ⟨_, _, _, h₉, (show A.step _ (.waited 0 0) _ from ⟨⟨rfl, rfl⟩, rfl⟩), ?_⟩
  exact ((monitor_correct h₉).2.2 0 0 _ ⟨⟨rfl, rfl⟩, rfl⟩).2

end MonitorState

end GarretOS
