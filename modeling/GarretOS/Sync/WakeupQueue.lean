import GarretOS.Sync.Waiters

/-!
# Waking a whole queue

`wakeup_queue` of `kernel/sync/wait.c`.  Without `del` it follows `wait_queue_next`.  With `del` it
takes as the next waiter the one that is first *before* the current one is deleted, which is the
current one itself; so it comes back to a waiter that is no longer queued.

* `WakesAll` : what is expected of a call;
* `wakeup_queue_wakes_all_iff` : it is met just when the queue is kept or empty.
-/

namespace GarretOS

namespace SemState

variable {κ π : Type} [DecidableEq κ] [DecidableEq π]

/-- The loop of `wakeup_queue` from `wait` on: the new state, and the waiters passed to
`wakeup_wait`. -/
def wakeupFrom (waitQueue : κ) (wakeupState : UInt32) (del : Bool) :
    ℕ → SemState κ π → Option π → Res (SemState κ π × List π)
  | _, s, none => .ok (s, [])
  | 0, _, some _ => .error .diverges
  | n + 1, s, some wait => do
    let nextWait ← if del then .ok (s.waitQueueFirst waitQueue) else s.waitQueueNext waitQueue wait
    let s ← s.wakeupWait waitQueue wait wakeupState del
    let (s, ws) ← wakeupFrom waitQueue wakeupState del n s nextWait
    return (s, wait :: ws)

/-- `wakeup_queue`, with `n` rounds for its loop. -/
def wakeupQueue (s : SemState κ π) (n : ℕ) (waitQueue : κ) (wakeupState : UInt32) (del : Bool) :
    Res (SemState κ π × List π) :=
  wakeupFrom waitQueue wakeupState del n s (s.waitQueueFirst waitQueue)

/-- A wait queue whose waiters are processes that can be woken. -/
structure Waiting (s : SemState κ π) (k : κ) (ws : List π) : Prop where
  queued : Queued s k ws
  alive : ∀ w ∈ ws, (s.pcb (s.wait w).proc).state ≠ .zombie

/-- The `wait` variables after the waiters `ws` have been woken. -/
def wokenWait (s : SemState κ π) (wakeupState : UInt32) (ws : List π) (w : π) : Wait κ π :=
  if w ∈ ws then { s.wait w with wakeupState } else s.wait w

/-- The processes after the waiters `ws` have been woken: those of the waiters may run. -/
def wokenPcb (s : SemState κ π) (ws : List π) (p : π) : RunState :=
  if (∃ w ∈ ws, (s.wait w).proc = p) ∧ (s.pcb p).state ≠ .runnable then .running else s.pcb p

/-- A call of `wakeup_queue` comes to an end and wakes each of the waiters `ws` once, in order.
Their processes may run, they know why they were woken, and the queue is empty or as before. -/
def WakesAll (s : SemState κ π) (k : κ) (ws : List π) (wakeupState : UInt32) (del : Bool) : Prop :=
  ∃ s', (∀ n, ws.length ≤ n → s.wakeupQueue n k wakeupState del = .ok (s', ws)) ∧
    (∀ w, s'.wait w = s.wokenWait wakeupState ws w) ∧ (∀ p, s'.pcb p = s.wokenPcb ws p) ∧
    Queued s' k (if del then [] else ws) ∧ (del = false → s'.link = s.link)

/-! ### Keeping the queue -/

/-- What `wakeup_wait` does to a waiter that stays in the queue. -/
def wakeOne (s : SemState κ π) (wakeupState : UInt32) (w : π) : SemState κ π :=
  { s with wait := s.wokenWait wakeupState [w], pcb := s.wokenPcb [w] }

section

variable {s : SemState κ π} {k : κ} {us vs ws : List π} {w : π} {st : UInt32}

omit [DecidableEq κ] in
theorem wokenWait_proc (v : π) : (s.wokenWait st ws v).proc = (s.wait v).proc ∧
    (s.wokenWait st ws v).waitQueue = (s.wait v).waitQueue := by
  unfold wokenWait
  split_ifs <;> exact ⟨rfl, rfl⟩

theorem wakeupWait_keep (h : (s.pcb (s.wait w).proc).state ≠ .zombie) :
    s.wakeupWait k w st false = .ok (s.wakeOne st w) := by
  simp only [wakeupWait, Bool.false_eq_true, if_false, ok_bind, wakeupProc, Function.update_self,
    RunState.wakeup]
  rw [assert_of h]
  simp only [ok_bind, pure, Except.pure, wakeOne, Except.ok.injEq, SemState.mk.injEq, true_and,
    and_true]
  refine ⟨funext fun v => ?_, funext fun p => ?_⟩
  · by_cases hv : v = w
    · simp [wokenWait, hv]
    · simp [wokenWait, hv]
  · by_cases hp : p = (s.wait w).proc
    · simp [wokenPcb, hp]
    · simp [wokenPcb, hp, Ne.symm hp]

omit [DecidableEq κ] in
/-- Waking one waiter after another. -/
theorem wakeOne_wokenWait (v : π) :
    (s.wakeOne st w).wokenWait st vs v = s.wokenWait st (w :: vs) v := by
  by_cases hv : v = w
  · simp [wokenWait, wakeOne, hv]
  · simp [wokenWait, wakeOne, hv]

omit [DecidableEq κ] in
theorem wakeOne_wokenPcb (p : π) : (s.wakeOne st w).wokenPcb vs p = s.wokenPcb (w :: vs) p := by
  have hex : (∃ v ∈ vs, ((s.wakeOne st w).wait v).proc = p) ↔ ∃ v ∈ vs, (s.wait v).proc = p :=
    exists_congr fun v => and_congr_right fun _ => by
      rw [show ((s.wakeOne st w).wait v).proc = (s.wait v).proc from (wokenWait_proc v).1]
  simp only [wokenPcb, hex]
  by_cases hp : (s.wait w).proc = p
  · by_cases hrun : (s.pcb p).state = .runnable
    · simp [wakeOne, wokenPcb, hp, hrun]
    · simp [wakeOne, wokenPcb, hp, hrun, RunState.running]
  · simp [wakeOne, wokenPcb, hp]

omit [DecidableEq κ] in
theorem Waiting.wakeOne (h : Waiting s k ws) : Waiting (s.wakeOne st w) k ws := by
  refine ⟨⟨h.queued.ring, fun v hv => ?_⟩, fun v hv => ?_⟩
  · exact (wokenWait_proc v).2.trans (h.queued.here v hv)
  · rw [show ((s.wakeOne st w).wait v).proc = (s.wait v).proc from (wokenWait_proc v).1]
    simp only [SemState.wakeOne, wokenPcb]
    split_ifs with hc
    · simp [RunState.running]
    · exact h.alive v hv

/-- The loop over the waiters `vs`, which `wait_queue_next` visits one after the other. -/
theorem Waiting.wakeupFrom_keep (h : Waiting s k (us ++ vs)) (n : ℕ) (hn : vs.length ≤ n) :
    wakeupFrom k st false n s vs.head? = .ok (vs.foldl (fun s w => s.wakeOne st w) s, vs) := by
  induction vs generalizing s us n with
  | nil => cases n <;> rfl
  | cons w vs ih =>
    obtain ⟨n, rfl⟩ : ∃ m, n = m + 1 := ⟨n - 1, by simp at hn; omega⟩
    have h' : Waiting (s.wakeOne st w) k ((us ++ [w]) ++ vs) := by simpa using h.wakeOne
    simp only [List.head?_cons, wakeupFrom, Bool.false_eq_true, if_false, h.queued.next, ok_bind,
      wakeupWait_keep (h.alive w (by simp)), ih h' n (by simpa using hn), List.foldl_cons]
    rfl

omit [DecidableEq κ] in
theorem foldl_wakeOne (st : UInt32) (s : SemState κ π) (vs : List π) :
    (∀ w, (vs.foldl (fun s w => s.wakeOne st w) s).wait w = s.wokenWait st vs w) ∧
      (∀ p, (vs.foldl (fun s w => s.wakeOne st w) s).pcb p = s.wokenPcb vs p) ∧
      (vs.foldl (fun s w => s.wakeOne st w) s).link = s.link := by
  induction vs generalizing s with
  | nil => exact ⟨fun w => by simp [wokenWait], fun p => by simp [wokenPcb], rfl⟩
  | cons v vs ih =>
    obtain ⟨h1, h2, h3⟩ := ih (s.wakeOne st v)
    exact ⟨fun w => (h1 w).trans (wakeOne_wokenWait w), fun p => (h2 p).trans (wakeOne_wokenPcb p),
      h3⟩

/-- Waking a queue that is kept. -/
theorem Waiting.wakesAll_keep (h : Waiting s k ws) : WakesAll s k ws st false := by
  obtain ⟨h1, h2, h3⟩ := foldl_wakeOne st s ws
  refine ⟨_, fun n hn => ?_, h1, h2, ⟨h3 ▸ h.queued.ring, fun w hw => ?_⟩, fun _ => h3⟩
  · rw [wakeupQueue, h.queued.first]
    exact (show Waiting s k ([] ++ ws) from h).wakeupFrom_keep n hn
  · rw [h1]
    exact (wokenWait_proc w).2.trans (h.queued.here w hw)

/-! ### Emptying the queue -/

theorem Waiting.wakesAll_nil (h : Waiting s k []) (del : Bool) : WakesAll s k [] st del := by
  refine ⟨s, fun n _ => ?_, fun w => by simp [wokenWait], fun p => by simp [wokenPcb], ?_,
    fun _ => rfl⟩
  · rw [wakeupQueue, h.queued.first]
    cases n <;> rfl
  · simpa using h.queued

/-- The first waiter is deleted and woken, and then looked at again. -/
theorem Waiting.wakeupQueue_del (h : Waiting s k (w :: ws)) (n : ℕ) (r : SemState κ π × List π) :
    s.wakeupQueue n k st true ≠ .ok r := by
  intro hr
  have hq : Queued s k ([] ++ w :: ws) := h.queued
  -- the first round takes the waiter out of the queue and keeps it as the next one
  rw [wakeupQueue, hq.first, List.nil_append, List.head?_cons] at hr
  cases n with
  | zero => cases hr
  | succ n =>
    simp only [wakeupFrom, if_true, ok_bind, hq.first, List.nil_append, List.head?_cons] at hr
    obtain ⟨t, ht, hr⟩ := bind_eq_ok.1 hr
    have hlink : t.link.listEmpty (.wait w) := by
      simp only [wakeupWait, if_true, hq.delWaitQueue, ok_bind] at ht
      obtain ⟨x, -, ht⟩ := bind_eq_ok.1 ht
      rw [← Except.ok.inj ht]
      simp [Links.listEmpty, Links.initList]
    obtain ⟨y, hy, -⟩ := bind_eq_ok.1 hr
    -- the second round finds it unlinked
    cases n with
    | zero => cases hy
    | succ n =>
      simp only [wakeupFrom, if_true, ok_bind] at hy
      obtain ⟨u, hu, -⟩ := bind_eq_ok.1 hy
      simp only [wakeupWait, if_true, delWaitQueue] at hu
      obtain ⟨v, hv, -⟩ := bind_eq_ok.1 hu
      obtain ⟨_, hx, -⟩ := bind_eq_ok.1 hv
      exact (assert_eq_ok.1 hx).1 hlink

end

/-- **`wakeup_queue` wakes the whole queue just when the queue is kept or empty.**  When a queue
with a waiter is to be emptied, the first waiter is deleted and then deleted again, which fails
an assertion. -/
theorem wakeup_queue_wakes_all_iff {s : SemState κ π} {k : κ} {ws : List π} (h : Waiting s k ws)
    (wakeupState : UInt32) (del : Bool) :
    WakesAll s k ws wakeupState del ↔ del = false ∨ ws = [] := by
  constructor
  · rintro ⟨s', hrun, -⟩
    cases del with
    | false => exact Or.inl rfl
    | true =>
      cases ws with
      | nil => exact Or.inr rfl
      | cons w ws => exact absurd (hrun _ le_rfl) (h.wakeupQueue_del _ _)
  · rintro (rfl | rfl)
    · exact h.wakesAll_keep
    · exact h.wakesAll_nil del

/-- A queue of two sleeping processes. -/
def twoWaiting : SemState Unit ℕ where
  value _ := 0
  link :=
    { next := fun z => match z with
        | .queue _ => .wait 0
        | .wait 0 => .wait 1
        | .wait 1 => .queue ()
        | .wait w => .wait w
      prev := fun z => match z with
        | .queue _ => .wait 1
        | .wait 0 => .queue ()
        | .wait 1 => .wait 0
        | .wait w => .wait w }
  wait w := ⟨w, waitInt, ()⟩
  pcb _ := ⟨.sleeping, waitSem⟩
  blockedIn _ := some ()

theorem twoWaiting_waiting : Waiting twoWaiting () [0, 1] :=
  ⟨⟨⟨by simp [Links.Linked, twoWaiting], by simp⟩, by simp⟩, by simp [twoWaiting]⟩

/-- Both processes are woken when the queue is kept. -/
theorem wakeup_queue_wakes_all_two : WakesAll twoWaiting () [0, 1] waitSem false :=
  (wakeup_queue_wakes_all_iff twoWaiting_waiting waitSem false).2 (Or.inl rfl)

/-- The queue is not emptied: the first waiter is deleted twice. -/
theorem wakeup_queue_deletes_twice : ¬ ∀ (s : SemState Unit ℕ) (ws : List ℕ) (st : UInt32)
    (del : Bool), Waiting s () ws → WakesAll s () ws st del := by
  intro hclaim
  obtain ⟨s', hrun, -⟩ := hclaim twoWaiting [0, 1] waitSem true twoWaiting_waiting
  exact twoWaiting_waiting.wakeupQueue_del 2 _ (hrun 2 le_rfl)

end SemState

end GarretOS
