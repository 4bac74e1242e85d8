import GarretOS.Sync.WaitQueue

/-!
# Runs of semaphores

`SemOk s qs` says that the wait queue of each semaphore `k` links exactly the processes `qs k`
that are blocked on it.  `add_wait_queue` passes the head of the queue and its last node to
`add_list` in the wrong order, so it inserts between two neighbours only as long as at most one
process is queued.

* `SemOk.up`, `SemOk.down`, `SemOk.downResume`, `SemOk.take` : the functions keep `SemOk`, a
  blocking `down` if at most one process was blocked before it;
* `sem_conservation` : the law of semaphores, for the runs in which that is the case;
* `sem_lost_waiter` : three blocked processes, one of which is lost.
-/

namespace GarretOS

namespace SemState

variable {κ π : Type} [DecidableEq κ] [DecidableEq π]

/-- The wait queue of each semaphore `k` links the blocked processes `qs k`. -/
structure SemOk (s : SemState κ π) (qs : κ → List π) : Prop where
  /-- The queues are well formed. -/
  ring : ∀ k, Ring s.link (.queue k) ((qs k).map .wait)
  /-- They link the blocked processes, and no others. -/
  mem : ∀ k p, p ∈ qs k ↔ s.Blocked p k
  /-- A blocked process waits for the semaphore. -/
  asleep : ∀ k p, s.Blocked p k → (s.pcb p).waitState = waitSem ∧ (s.wait p).proc = p ∧
    (s.wait p).waitQueue = k
  /-- A process inside `down` that is not blocked has been woken by `up`. -/
  woken : ∀ k p, s.blockedIn p = some k → ¬ s.Blocked p k → (s.pcb p).state = .runnable ∧
    (s.wait p).wakeupState = waitSem ∧ s.link.listEmpty (.wait p)
  /-- A process outside `down` may run. -/
  outside : ∀ p, s.blockedIn p = none → (s.pcb p).state = .runnable
  /-- The values are not negative. -/
  value : ∀ k, 0 ≤ s.value k ∧ s.value k < 2 ^ 31
  /-- Nobody is blocked on a semaphore that could be taken. -/
  idle : ∀ k, 0 < s.value k → qs k = []

namespace SemOk

variable {s : SemState κ π} {qs : κ → List π}

theorem queueOk (h : SemOk s qs) : QueueOk s qs :=
  ⟨h.ring, fun k p => (h.mem k p).1, h.asleep, fun k p hp hn => (h.woken k p hp hn).2⟩

/-- Well-formed queues that link all blocked processes. -/
theorem of_queueOk (h : QueueOk s qs) (hmem : ∀ k p, s.Blocked p k → p ∈ qs k)
    (hrun : ∀ p, (∀ k, ¬ s.Blocked p k) → (s.pcb p).state = .runnable)
    (hvalue : ∀ k, 0 ≤ s.value k ∧ s.value k < 2 ^ 31) (hidle : ∀ k, 0 < s.value k → qs k = []) :
    SemOk s qs := by
  refine ⟨h.ring, fun k p => ⟨h.blocked k p, hmem k p⟩, h.asleep, fun k p hp hn => ?_,
    fun p hp => hrun p fun k hb => ?_, hvalue, hidle⟩
  · refine ⟨hrun p fun j hb => hn ?_, h.woken k p hp hn⟩
    exact ⟨hp, hb.2⟩
  · have := hb.1
    rw [hp] at this
    cases this

/-- A process that is not blocked may run. -/
theorem runnable (h : SemOk s qs) {p : π} (hp : ∀ k, ¬ s.Blocked p k) :
    (s.pcb p).state = .runnable := by
  cases hin : s.blockedIn p with
  | none => exact h.outside p hin
  | some k => exact (h.woken k p hin (hp k)).1

/-- If any two blocked processes are the same one, the queue has at most one node. -/
theorem length_le_one (h : SemOk s qs) {k : κ}
    (hone : ∀ p q, s.Blocked p k → s.Blocked q k → p = q) : (qs k).length ≤ 1 := by
  match hq : qs k with
  | [] => simp
  | [a] => simp
  | a :: b :: ps =>
    have hab : a = b := hone a b ((h.mem k a).1 (by simp [hq])) ((h.mem k b).1 (by simp [hq]))
    have hn := (List.nodup_cons.1 (h.ring k).nodup).2
    simp [hq, hab] at hn

/-! ### Taking and releasing without waiting -/

/-- The effect on the value of a semaphore, when no queue changes. -/
theorem setValue (h : SemOk s qs) {k : κ} {v : ℤ} (h0 : 0 ≤ v) (hlt : v < 2 ^ 31)
    (hidle : 0 < v → qs k = []) :
    SemOk { s with value := Function.update s.value k v } qs := by
  refine ⟨h.ring, h.mem, h.asleep, h.woken, h.outside, fun j => ?_, fun j => ?_⟩
  · by_cases hj : j = k
    · subst hj
      simpa [h0] using hlt
    · simpa [hj] using h.value j
  · by_cases hj : j = k
    · subst hj
      simpa using hidle
    · simpa [hj] using h.idle j

/-- Taking a semaphore of positive value. -/
theorem take (h : SemOk s qs) {k : κ} (hv : 0 < s.value k) :
    i32 (s.value k - 1) = s.value k - 1 ∧
      SemOk { s with value := Function.update s.value k (s.value k - 1) } qs := by
  have := h.value k
  exact ⟨i32_of_lt (by omega) (by omega), h.setValue (by omega) (by omega) fun _ => h.idle k hv⟩

/-- Releasing a semaphore on which nobody is blocked. -/
theorem release (h : SemOk s qs) {k : κ} (hk : qs k = []) (hv : s.value k < 2 ^ 31 - 1) :
    i32 (s.value k + 1) = s.value k + 1 ∧
      SemOk { s with value := Function.update s.value k (s.value k + 1) } qs := by
  have := h.value k
  exact ⟨i32_of_lt (by omega) (by omega), h.setValue (by omega) (by omega) fun _ => hk⟩

/-! ### Waking, blocking and resuming -/

/-- **`up`** with a blocked process wakes the first one in the queue and takes it out. -/
theorem up (h : SemOk s qs) {k : κ} {a : π} {ps : List π} (hk : qs k = a :: ps) :
    ∃ s', s.up k = .ok (s', some a) ∧ s'.value = s.value ∧ s'.blockedIn = s.blockedIn ∧
      (∀ p, s'.pcb p = if p = a then .running else s.pcb p) ∧
      SemOk s' (Function.update qs k ps) := by
  obtain ⟨s', hup, hvalue, hin, hpcb, hq⟩ := h.queueOk.up hk
  have hpcb' : ∀ p, s'.pcb p = if p = a then .running else s.pcb p := by
    intro p
    rw [hpcb, Function.update_apply]
  have hafter : ∀ j p, s'.Blocked p j ↔ s.Blocked p j ∧ p ≠ a := by
    intro j p
    rw [Blocked, Blocked, hin, hpcb']
    by_cases hpa : p = a
    · simp [hpa, RunState.running]
    · simp [hpa]
  refine ⟨s', hup, hvalue, hin, hpcb', of_queueOk hq (fun j p hp => ?_) (fun p hp => ?_) ?_ ?_⟩
  · obtain ⟨hb, hpa⟩ := (hafter j p).1 hp
    have hmem := (h.mem j p).2 hb
    by_cases hjk : j = k
    · subst hjk
      rw [hk] at hmem
      rw [Function.update_self]
      exact (List.mem_cons.1 hmem).resolve_left hpa
    · rwa [Function.update_of_ne hjk]
  · rw [hpcb']
    split_ifs with hpa
    · rfl
    · exact h.runnable fun j hb => hp j ((hafter j p).2 ⟨hb, hpa⟩)
  · rw [hvalue]
    exact h.value
  · intro j hj
    rw [hvalue] at hj
    have hidle := h.idle j hj
    have hjk : j ≠ k := by
      rintro rfl
      rw [hk] at hidle
      cases hidle
    rwa [Function.update_of_ne hjk]

/-- **`down`** of a semaphore that cannot be taken blocks the calling process, and queues it
correctly if at most one other process is queued. -/
theorem down (h : SemOk s qs) {k : κ} {p : π} (hp : s.blockedIn p = none) (hv : s.value k = 0)
    (hlen : (qs k).length ≤ 1) :
    ∃ s', s.down p k = .ok (s', false) ∧ s'.value = s.value ∧
      (∀ j q, s'.Blocked q j ↔ s.Blocked q j ∨ q = p ∧ j = k) ∧
      SemOk s' (Function.update qs k (p :: qs k)) := by
  obtain ⟨s', hdown, hvalue, hin, hpcb, hq⟩ := h.queueOk.down hp (by omega : ¬ 0 < s.value k)
  -- with at most one node in the queue, its last node is its only one
  have hlast : (qs k).getLast?.toList = qs k := by
    match hqk : qs k, hlen with
    | [], _ => rfl
    | [a], _ => rfl
  rw [hlast] at hq
  have hafter : ∀ j q, s'.Blocked q j ↔ s.Blocked q j ∨ q = p ∧ j = k := by
    intro j q
    rw [Blocked, Blocked, hin, hpcb]
    by_cases hqp : q = p
    · subst hqp
      simp [hp, eq_comm]
    · simp [hqp]
  refine ⟨s', hdown, hvalue, hafter, of_queueOk hq (fun j q hb => ?_) (fun q hnb => ?_) ?_ ?_⟩
  · by_cases hjk : j = k
    · subst hjk
      rw [Function.update_self, List.mem_cons, h.mem]
      rcases (hafter j q).1 hb with hb | ⟨rfl, -⟩
      · exact Or.inr hb
      · exact Or.inl rfl
    · rw [Function.update_of_ne hjk, h.mem]
      exact ((hafter j q).1 hb).resolve_right fun he => hjk he.2
  · have hqp : q ≠ p := fun he => hnb k ((hafter k q).2 (Or.inr ⟨he, rfl⟩))
    rw [hpcb, Function.update_of_ne hqp]
    exact h.runnable fun j hb => hnb j ((hafter j q).2 (Or.inl hb))
  · rw [hvalue]
    exact h.value
  · intro j hj
    rw [hvalue] at hj
    have hjk : j ≠ k := by
      rintro rfl
      omega
    rw [Function.update_of_ne hjk]
    exact h.idle j hj

/-- A process that has been woken leaves `down`. -/
theorem downResume (h : SemOk s qs) {k : κ} {p : π} (hp : s.blockedIn p = some k)
    (hrun : (s.pcb p).state = .runnable) :
    s.downResume p k = .ok { s with blockedIn := Function.update s.blockedIn p none } ∧
      SemOk { s with blockedIn := Function.update s.blockedIn p none } qs := by
  obtain ⟨hres, hq⟩ := h.queueOk.downResume hp hrun
  have hafter : ∀ j q, s.Blocked q j → ({ s with blockedIn := Function.update s.blockedIn p none } :
      SemState κ π).Blocked q j := by
    intro j q hb
    have hqp : q ≠ p := by
      rintro rfl
      rw [hb.2] at hrun
      cases hrun
    simpa [Blocked, hqp] using hb
  refine ⟨hres, of_queueOk hq (fun j q hb => (h.mem j q).2 ?_) (fun q hnb => ?_) h.value h.idle⟩
  · have hqp : q ≠ p := by
      rintro rfl
      have := hb.1
      simp at this
    simpa [Blocked, hqp] using hb
  · exact h.runnable fun j hb => hnb j (hafter j q hb)

end SemOk

/-! ### Runs -/

/-- The calls of the semaphore functions. -/
inductive SemOp (κ π : Type) where
  /-- `up(sem)` of a process; the process that it woke. -/
  | up (curr : π) (sem : κ) (woken : Option π)
  /-- `down(sem)` of a process; whether it was granted at once. -/
  | down (curr : π) (sem : κ) (granted : Bool)
  /-- A process that was blocked in `down(sem)` continues. -/
  | resume (curr : π) (sem : κ)
  /-- `try_down(sem)` of a process, with its result. -/
  | tryDown (curr : π) (sem : κ) (granted : Bool)

/-- A process that may run and is not inside `down`. -/
def Running (s : SemState κ π) (p : π) : Prop :=
  s.blockedIn p = none ∧ (s.pcb p).state = .runnable

/-- The semaphores after `init_sem(k, v k)` for every `k`, used by any number of processes in any
order.  Each step runs with interrupts disabled; after a process has called `schedule` in `down`
it continues when it is runnable again. -/
def semSystem (v : κ → ℤ) : System (SemState κ π) (SemOp κ π) where
  init s := (∀ k, s.initSem k (v k) = s) ∧ ∀ p, s.blockedIn p = none ∧ s.pcb p = .running
  step s op s' := match op with
    | .up p k woken => s.Running p ∧ s.up k = .ok (s', woken)
    | .down p k granted => s.Running p ∧ s.down p k = .ok (s', granted)
    | .resume p k => s.blockedIn p = some k ∧ (s.pcb p).state = .runnable ∧
        s.downResume p k = .ok s'
    | .tryDown p k granted => s.Running p ∧ s.tryDown k = (s', granted)

/-- The number of calls of `up` on a semaphore. -/
def ups (k : κ) (ls : List (SemOp κ π)) : ℕ :=
  ls.countP fun | .up _ j _ => j = k | _ => false

/-- The number of `down` and `try_down` calls on a semaphore that have been granted: at once, or
by the call of `up` that woke the blocked process. -/
def grants (k : κ) (ls : List (SemOp κ π)) : ℕ :=
  ls.countP fun
    | .up _ j (some _) => j = k
    | .down _ j true => j = k
    | .tryDown _ j true => j = k
    | _ => false

/-- When a blocking `down` starts, at most one process is blocked on the semaphore; and the
counter is not at its maximum when it is incremented. -/
def SemGuard (s : SemState κ π) : SemOp κ π → Prop
  | .down _ k false => ∀ p q, s.Blocked p k → s.Blocked q k → p = q
  | .up _ k none => s.value k < 2 ^ 31 - 1
  | _ => True

variable {v : κ → ℤ} {ls : List (SemOp κ π)} {s s' : SemState κ π}

theorem init_semOk (hv : ∀ k, 0 ≤ v k ∧ v k < 2 ^ 31)
    (h : (semSystem (π := π) v).init s) : SemOk s (fun _ => []) ∧ ∀ k, s.value k = v k := by
  obtain ⟨hinit, hproc⟩ := h
  have hval : ∀ k, s.value k = v k := by
    intro k
    have := congrFun (congrArg SemState.value (hinit k)) k
    simpa [initSem] using this.symm
  refine ⟨⟨fun k => ?_, fun k p => ?_, fun k p hb => ?_, fun k p hp => ?_, fun p _ => ?_,
    fun k => by rw [hval]; exact hv k, fun k _ => rfl⟩, hval⟩
  · rw [← hinit k]
    exact Ring.initList_nil _ _
  · simp [Blocked, (hproc p).1]
  · have := hb.1
    rw [(hproc p).1] at this
    cases this
  · rw [(hproc p).1] at hp
    cases hp
  · rw [(hproc p).2]
    rfl

/-- One step keeps the queues in order and the balance of each semaphore. -/
theorem step_semOk {qs : κ → List π} {op : SemOp κ π} (h : SemOk s qs) (hg : SemGuard s op)
    (hstep : (semSystem v).step s op s') :
    (∃ qs', SemOk s' qs') ∧ ∀ k, s'.value k + grants k [op] = s.value k + ups k [op] := by
  cases op with
  | up p k woken =>
    obtain ⟨-, hup⟩ := hstep
    cases hk : qs k with
    | nil =>
      -- nobody waits: the value is raised
      have hfirst := h.queueOk.waitQueueFirst_eq k
      rw [hk, List.head?_nil] at hfirst
      simp only [SemState.up, hfirst, Except.ok.injEq, Prod.mk.injEq] at hup
      obtain ⟨rfl, rfl⟩ := hup
      obtain ⟨h1, h2⟩ := h.release hk hg
      rw [h1]
      refine ⟨⟨qs, h2⟩, fun j => ?_⟩
      by_cases hj : j = k
      · subst hj
        simp [grants, ups]
      · simp [grants, ups, hj, Ne.symm hj]
    | cons a ps =>
      obtain ⟨t, h1, h2, -, -, h3⟩ := h.up hk
      rw [h1] at hup
      obtain ⟨rfl, rfl⟩ := Prod.mk.inj (Except.ok.inj hup)
      exact ⟨⟨_, h3⟩, fun j => by simp [h2, grants, ups]⟩
  | down p k granted =>
    obtain ⟨⟨hp, -⟩, hdown⟩ := hstep
    by_cases hv : 0 < s.value k
    · obtain ⟨h1, h2⟩ := h.take hv
      simp only [SemState.down, if_pos hv, h1, Except.ok.injEq, Prod.mk.injEq] at hdown
      obtain ⟨rfl, rfl⟩ := hdown
      refine ⟨⟨qs, h2⟩, fun j => ?_⟩
      by_cases hj : j = k
      · subst hj
        simp [grants, ups]
      · simp [grants, ups, hj, Ne.symm hj]
    · have hv0 : s.value k = 0 := by
        have := (h.value k).1
        omega
      have hgr : granted = false := by
        cases granted with
        | false => rfl
        | true =>
          unfold SemState.down at hdown
          rw [if_neg hv] at hdown
          obtain ⟨t, -, ht⟩ := bind_eq_ok.1 hdown
          cases ht
      subst hgr
      obtain ⟨t, h1, h2, -, h3⟩ := h.down hp hv0 (h.length_le_one hg)
      rw [h1] at hdown
      obtain ⟨rfl, -⟩ := Prod.mk.inj (Except.ok.inj hdown)
      exact ⟨⟨_, h3⟩, fun j => by simp [h2, grants, ups]⟩
  | resume p k =>
    obtain ⟨hp, hrun, hres⟩ := hstep
    obtain ⟨h1, h2⟩ := h.downResume hp hrun
    obtain rfl := Except.ok.inj (h1.symm.trans hres)
    exact ⟨⟨qs, h2⟩, fun j => by simp [grants, ups]⟩
  | tryDown p k granted =>
    obtain ⟨-, htry⟩ := hstep
    by_cases hv : 0 < s.value k
    · obtain ⟨h1, h2⟩ := h.take hv
      simp only [SemState.tryDown, if_pos hv, h1, Prod.mk.injEq] at htry
      obtain ⟨rfl, rfl⟩ := htry
      refine ⟨⟨qs, h2⟩, fun j => ?_⟩
      by_cases hj : j = k
      · subst hj
        simp [grants, ups]
      · simp [grants, ups, hj, Ne.symm hj]
    · simp only [SemState.tryDown, if_neg hv, Prod.mk.injEq] at htry
      obtain ⟨rfl, rfl⟩ := htry
      exact ⟨⟨qs, h⟩, fun j => by simp [grants, ups]⟩

/-- Every state of a run in which the queues stay short is in order. -/
theorem run_semOk (hv : ∀ k, 0 ≤ v k ∧ v k < 2 ^ 31)
    (h : ((semSystem (π := π) v).guard SemGuard).Run ls s) :
    (∃ qs, SemOk s qs) ∧ ∀ k, v k + ups k ls = s.value k + grants k ls := by
  induction h with
  | start h =>
    obtain ⟨h1, h2⟩ := init_semOk hv h
    exact ⟨⟨_, h1⟩, fun k => by simp [h2, ups, grants]⟩
  | @step ls s s' op _ hstep ih =>
    obtain ⟨⟨qs, hok⟩, hbal⟩ := ih
    obtain ⟨h1, h2⟩ := step_semOk hok hstep.1 hstep.2
    refine ⟨h1, fun k => ?_⟩
    have h3 := hbal k
    have h4 := h2 k
    have hups : ups k (ls ++ [op]) = ups k ls + ups k [op] := List.countP_append
    have hgrants : grants k (ls ++ [op]) = grants k ls + grants k [op] := List.countP_append
    rw [hups, hgrants]
    push_cast
    omega

/-- **The law of semaphores**, for runs in which each blocking `down` finds at most one process
blocked and no increment overflows.  What has been put in equals what is there and what has been
granted; the value is never negative; nobody is blocked while it is positive; the queue of each
semaphore links exactly the blocked processes; and every `up` while a process is blocked wakes
exactly one blocked process.  No assertion fails in the next step. -/
theorem sem_conservation (hv : ∀ k, 0 ≤ v k ∧ v k < 2 ^ 31)
    (h : ((semSystem (π := π) v).guard SemGuard).Run ls s) :
    (∀ k, v k + ups k ls = s.value k + grants k ls) ∧ (∀ k, 0 ≤ s.value k) ∧
    (∀ k, 0 < s.value k → ∀ p, ¬ s.Blocked p k) ∧
    (∀ k, ∃ ps : List π, Ring s.link (.queue k) (ps.map .wait) ∧ ∀ p, p ∈ ps ↔ s.Blocked p k) ∧
    (∀ k, ∃ s' woken, s.up k = .ok (s', woken) ∧ ((∃ p, s.Blocked p k) →
      ∃ q, woken = some q ∧ s.Blocked q k ∧
        ∀ p j, s'.Blocked p j ↔ s.Blocked p j ∧ p ≠ q)) ∧
    (∀ p k, s.Running p → (∀ q r, s.Blocked q k → s.Blocked r k → q = r) →
      ∃ s' granted, s.down p k = .ok (s', granted)) ∧
    ∀ p k, s.blockedIn p = some k → (s.pcb p).state = .runnable →
      ∃ s', s.downResume p k = .ok s' := by
  obtain ⟨⟨qs, hok⟩, hbal⟩ := run_semOk hv h
  refine ⟨hbal, fun k => (hok.value k).1, fun k hk p hp => ?_,
    fun k => ⟨qs k, hok.ring k, hok.mem k⟩, fun k => ?_, fun p k hp hone => ?_,
    fun p k hp hrun => ⟨_, (hok.downResume hp hrun).1⟩⟩
  · have := (hok.mem k p).2 hp
    rw [hok.idle k hk] at this
    simp at this
  · cases hk : qs k with
    | nil =>
      have hfirst := hok.queueOk.waitQueueFirst_eq k
      rw [hk, List.head?_nil] at hfirst
      refine ⟨_, none, by simp only [SemState.up, hfirst]; rfl, ?_⟩
      rintro ⟨p, hp⟩
      have := (hok.mem k p).2 hp
      rw [hk] at this
      simp at this
    | cons a ps =>
      obtain ⟨t, h1, -, h2, h3, -⟩ := hok.up hk
      refine ⟨t, some a, h1, fun _ => ⟨a, rfl, (hok.mem k a).1 (by simp [hk]), fun p j => ?_⟩⟩
      by_cases hpa : p = a
      · simp [Blocked, h2, h3, hpa, RunState.running]
      · simp [Blocked, h2, h3, hpa]
  · by_cases hv : 0 < s.value k
    · exact ⟨_, true, by simp only [SemState.down, if_pos hv]; rfl⟩
    · have := (hok.value k).1
      obtain ⟨t, h1, -⟩ := hok.down hp.1 (by omega) (hok.length_le_one hone)
      exact ⟨t, false, h1⟩

/-- One semaphore of value 0, set up for processes that all may run. -/
def idleSem : SemState Unit ℕ where
  value _ := 0
  link := (Links.mk id id).initList (.queue ())
  wait p := ⟨p, 0, ()⟩
  pcb _ := .running
  blockedIn _ := none

theorem idleSem_init : (semSystem fun _ => 0).init idleSem := by
  refine ⟨fun k => ?_, fun p => ⟨rfl, rfl⟩⟩
  simp [initSem, idleSem, Links.initList, Links.setNext, Links.setPrev]

/-- Two processes block, and two calls of `up` wake both. -/
theorem sem_conservation_two : ∃ s,
    ((semSystem fun _ : Unit => 0).guard SemGuard).Run
      [.down 0 () false, .down 1 () false, .up 2 () (some 1), .up 2 () (some 0)] s ∧
    ((0 : ℤ) + ups () ([.down 0 () false, .down 1 () false, .up 2 () (some 1),
      .up 2 () (some 0)] : List (SemOp Unit ℕ)) =
      s.value () + grants () ([.down 0 () false, .down 1 () false, .up 2 () (some 1),
        .up 2 () (some 0)] : List (SemOp Unit ℕ))) := by
  let A := (semSystem (π := ℕ) fun _ : Unit => 0).guard SemGuard
  have h₀ : A.Run [] idleSem := .start idleSem_init
  have h₁ : A.Run [.down 0 () false] _ :=
    h₀.step ⟨fun p q hp => by simp [Blocked, idleSem] at hp, ⟨rfl, rfl⟩, rfl⟩
  have h₂ : A.Run [.down 0 () false, .down 1 () false] _ :=
    h₁.step ⟨fun p q hp hq => by
      simp [Blocked, idleSem, initWait, Function.update_apply] at hp hq
      rw [hp.1, hq.1], ⟨rfl, rfl⟩, rfl⟩
  have h₃ : A.Run [.down 0 () false, .down 1 () false, .up 2 () (some 1)] _ :=
    h₂.step ⟨trivial, ⟨rfl, rfl⟩, rfl⟩
  have h₄ : A.Run [.down 0 () false, .down 1 () false, .up 2 () (some 1), .up 2 () (some 0)] _ :=
    h₃.step ⟨trivial, ⟨rfl, rfl⟩, rfl⟩
  exact ⟨_, h₄, (sem_conservation (fun _ => by decide) h₄).1 ()⟩

/-- A third process that blocks disconnects the second one: after as many calls of `up` the
semaphore is positive while that process still sleeps. -/
theorem sem_lost_waiter : ¬ ∀ (ls : List (SemOp Unit ℕ)) (s : SemState Unit ℕ),
    (semSystem fun _ => 0).Run ls s → ∀ k, 0 < s.value k → ∀ p, ¬ s.Blocked p k := by
  intro hclaim
  let A := semSystem (π := ℕ) fun _ : Unit => 0
  have h₁ : A.Run [.down 0 () false] _ := (System.Run.start idleSem_init).step ⟨⟨rfl, rfl⟩, rfl⟩
  have h₂ : A.Run [.down 0 () false, .down 1 () false] _ := h₁.step ⟨⟨rfl, rfl⟩, rfl⟩
  have h₃ : A.Run [.down 0 () false, .down 1 () false, .down 2 () false] _ :=
    h₂.step ⟨⟨rfl, rfl⟩, rfl⟩
  have h₄ : A.Run [.down 0 () false, .down 1 () false, .down 2 () false,
    .up 3 () (some 2)] _ := h₃.step ⟨⟨rfl, rfl⟩, rfl⟩
  have h₅ : A.Run [.down 0 () false, .down 1 () false, .down 2 () false,
    .up 3 () (some 2), .up 3 () (some 0)] _ := h₄.step ⟨⟨rfl, rfl⟩, rfl⟩
  have h₆ : A.Run [.down 0 () false, .down 1 () false, .down 2 () false,
    .up 3 () (some 2), .up 3 () (some 0), .up 3 () none] _ := h₅.step ⟨⟨rfl, rfl⟩, rfl⟩
  exact hclaim _ _ h₆ () (by decide) 1 ⟨rfl, rfl⟩

end SemState

end GarretOS
