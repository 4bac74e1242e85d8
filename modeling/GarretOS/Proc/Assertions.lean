import GarretOS.Proc.SoundRuns

/-!
# Assertions of the run pool

The assertions of `stride_dequeue` and `wakeup_proc` (`poolAssertions`) never fail: `wakeup_proc` is
only called for processes that are not zombies, and `stride_dequeue` only for a process in the pool.

* `Sound.avoids` : no step fails one of them in a kernel for which the invariant holds;
* `run_pool_correct` : what the run pool is in every state that a run reaches.
-/

namespace GarretOS

/-- The assertions of `wakeup_proc` and `stride_dequeue`. -/
def poolAssertions : List String :=
  ["proc->state != PROC_ZOMBIE", "proc->run_queue == run_queue && run_queue->num_proc > 0"]

/-! ### Functions without assertions -/

variable {C : List String} {k : ℕ}

theorem TreeLinks.mergeSkewHeap_avoids {ν : Type} [DecidableEq ν] {comp : ν → ν → ℤ}
    {L : TreeLinks ν} {a b : Option ν} : Avoids C (mergeSkewHeap comp k L a b) := by
  induction k generalizing L a b with
  | zero => exact avoids_diverges
  | succ k ih =>
    cases a with
    | none => exact avoids_ok
    | some a =>
      cases b with
      | none => exact avoids_ok
      | some b =>
        unfold mergeSkewHeap
        split_ifs
        · exact ih.bind fun _ _ => avoids_pure
        · exact ih.bind fun _ _ => avoids_pure

theorem TreeLinks.delSkewHeap_avoids {ν : Type} [DecidableEq ν] {comp : ν → ν → ℤ}
    {L : TreeLinks ν} {o : Option ν} {a : ν} : Avoids C (delSkewHeap comp k L o a) := by
  refine mergeSkewHeap_avoids.bind fun _ _ => ?_
  simp only
  split
  · exact avoids_pure
  · split_ifs <;> exact avoids_pure

namespace ProcTable

variable {π : Type} [DecidableEq π] {T : ProcTable π}

omit [DecidableEq π] in
theorem deref_avoids {o : Option π} : Avoids C (deref o) := by
  cases o with
  | none => exact avoids_panic
  | some a => exact avoids_ok

omit [DecidableEq π] in
theorem getProc_avoids {pid : ℤ} : Avoids C (T.getProc k pid) := by
  have hloop : ∀ list, Avoids C (T.getLoop pid k list) := by
    intro list
    induction k generalizing list with
    | zero => exact avoids_diverges
    | succ k ih =>
      unfold getLoop
      cases T.procList.next list with
      | none => exact avoids_ok
      | some proc =>
        simp only
        split_ifs
        · exact avoids_ok
        · exact ih _
  unfold getProc
  split_ifs
  · exact hloop none
  · exact avoids_ok

omit [DecidableEq π] in
theorem pidLoop_avoids {pid : π → ℤ} {L : Links (Option π)} {prevPid nextPid : ℤ}
    {list : Option π} : Avoids C (pidLoop pid L k prevPid nextPid list) := by
  induction k generalizing prevPid nextPid list with
  | zero => exact avoids_diverges
  | succ k ih =>
    unfold pidLoop
    cases L.next list with
    | none => exact avoids_ok
    | some proc =>
      simp only
      split_ifs <;> exact ih

theorem enterProc_avoids {proc : π} : Avoids C (T.enterProc k proc) := by
  have halloc : Avoids C (T.allocPid k) := by
    unfold allocPid
    generalize (if T.prevPid + 1 ≥ maxPid then 1 else T.prevPid + 1) = prevPid
    simp only
    split_ifs
    · exact pidLoop_avoids.bind fun _ _ => avoids_pure
    · exact avoids_ok
  exact halloc.bind fun _ _ => deref_avoids.bind fun _ _ => avoids_pure

theorem removeLinks_avoids {proc : π} : Avoids C (T.removeLinks proc) := by
  unfold removeLinks
  simp only
  split
  · exact avoids_ok.bind fun _ _ => avoids_pure
  · exact deref_avoids.bind fun _ _ => avoids_pure.bind fun _ _ => avoids_pure

end ProcTable

namespace Timers

variable {τ π : Type} [DecidableEq τ] {T : Timers τ π} {t : τ}

theorem delTimer_avoids : Avoids C (delTimer u32Arith T t) := by
  have hgive : Avoids C (giveBack u32Arith T t) := by
    unfold giveBack
    split_ifs
    · exact avoids_ok
    · split
      · exact avoids_ok
      · exact avoids_ok.bind fun _ _ => avoids_pure
  unfold delTimer
  split_ifs
  · exact avoids_ok
  · exact hgive.bind fun _ _ => avoids_pure

theorem addTimer_avoids : Avoids poolAssertions (addTimer u32Arith k T t) := by
  have hloop : ∀ {k : ℕ} {T : Timers τ π} {o : Option τ},
      Avoids poolAssertions (addLoop u32Arith t k T o) := by
    intro k
    induction k with
    | zero => exact avoids_diverges
    | succ k ih =>
      intro T o
      cases o with
      | none => exact avoids_ok
      | some next =>
        unfold addLoop
        split_ifs
        · exact avoids_ok.bind fun _ _ => avoids_pure
        · exact avoids_ok.bind fun _ _ => ih
  refine (avoids_assert fun hc => absurd hc (by decide)).bind fun _ _ => ?_
  refine (avoids_assert fun hc => absurd hc (by decide)).bind fun _ _ => ?_
  exact hloop.bind fun _ _ => avoids_pure

end Timers

namespace Sched

variable {κ ν : Type} [DecidableEq ν] {S S' : Sched κ ν} {p : ν} {U : Set ν} {t : Tree ν}

theorem schedulerEnqueue_avoids : Avoids C (S.schedulerEnqueue k p) := by
  have henqueue : Avoids C (S.queue.strideEnqueue k p) :=
    Avoids.bind (x := TreeLinks.addSkewHeap _ k _ _ p) TreeLinks.mergeSkewHeap_avoids
      fun _ _ => avoids_pure
  unfold schedulerEnqueue
  split_ifs
  · exact henqueue.bind fun _ _ => avoids_pure
  · exact avoids_ok

/-- **`wakeup_proc`** of a process that is not a zombie. -/
theorem wakeupProc_avoids (hp : (S.pcb p).state ≠ .zombie) : Avoids C (S.wakeupProc k p) := by
  unfold Sched.wakeupProc
  refine (avoids_assert fun _ => hp).bind fun _ _ => ?_
  split_ifs with hrun
  · simp only
    split_ifs
    · exact schedulerEnqueue_avoids
    · exact avoids_pure
  · exact avoids_pure

/-- **`schedule`** takes a process out of the pool that is in it. -/
theorem PoolOk.schedule_avoids (h : S.PoolOk U t) (hfew : Few U S.idle) (hcurr : S.curr ∈ U) :
    Avoids C (S.schedule k) := by
  have h₁ : ({ S with queue := { S.queue with
      needReschedule := Function.update S.queue.needReschedule S.curr false } } :
      Sched κ ν).PoolOk U t := ⟨⟨h.holds.heap, h.holds.num, h.holds.queued⟩, h.mem⟩
  refine Avoids.bind ?_ fun S₂ he => ?_
  · split_ifs
    · exact schedulerEnqueue_avoids
    · exact avoids_ok
  · obtain ⟨t₁, -, -, hholds, -, -, hmem⟩ := h₁.requeue hfew hcurr he
    cases t₁ with
    | leaf =>
      have hroot : S₂.queue.runPool = none := hholds.heap.root_eq
      simp only [RunQueue.stridePickNext, hroot]
      exact avoids_pure
    | node l a r =>
      obtain ⟨q, hpick, hq, -, -, -⟩ := hholds.stridePickNext
      simp only [hpick]
      refine Avoids.bind ?_ fun _ _ => avoids_pure
      have hroot : q.runPool = some a := hq.heap.root_eq
      have hcond : q.runQueue a ∧ 0 < q.numProc := by
        refine ⟨hq.queued a (by simp), ?_⟩
        rw [hq.num]
        simp
      refine (avoids_assert fun _ => hcond).bind fun _ _ => ?_
      simp only [hroot]
      refine Avoids.bind ?_ fun _ _ => avoids_pure
      exact TreeLinks.delSkewHeap_avoids

/-- The loop of `run_timers`, for processes that are not zombies. -/
theorem fire_avoids {l : List (ν × ν)} (hl : ∀ a ∈ l, (S.pcb a.2).state ≠ .zombie) :
    Avoids poolAssertions (l.foldlM (fun S a => fire S k a.2) S) := by
  induction l generalizing S with
  | nil => exact avoids_pure
  | cons a l ih =>
    rw [List.foldlM_cons]
    have ha := hl a List.mem_cons_self
    refine Avoids.bind (Avoids.bind ?_ fun _ _ => wakeupProc_avoids ha) fun S₁ hS₁ => ih fun b hb => ?_
    · split_ifs
      · exact avoids_assert fun hc => absurd hc (by decide)
      · exact avoids_ok
    · obtain ⟨_, -, hwake⟩ := bind_eq_ok.1 hS₁
      rw [Sched.pcb, (wakeupProc_woken hwake).sem]
      simp only
      split_ifs
      · simp
      · exact hl b (List.mem_cons_of_mem a hb)

end Sched

namespace Kernel

variable {κ ν μ ρ : Type} [DecidableEq ν] {s s' : Kernel κ ν μ ρ}

omit [DecidableEq ν] in
theorem childLoop_avoids {o : Option ν} {b : Bool} : Avoids C (s.childLoop k o b) := by
  induction k generalizing o b with
  | zero => exact avoids_diverges
  | succ k ih =>
    cases o with
    | none => exact avoids_ok
    | some proc =>
      unfold childLoop
      split_ifs
      · exact avoids_ok
      · exact ih

theorem waitRound_avoids {pid : ℤ} {store : Bool} : Avoids C (s.waitRound k pid store) := by
  have hfind : Avoids C (s.findZombie k pid) := by
    unfold findZombie
    split_ifs
    · refine ProcTable.getProc_avoids.bind fun o _ => ?_
      cases o with
      | none => exact avoids_pure
      | some proc =>
        simp only
        split_ifs <;> exact avoids_pure
    · exact childLoop_avoids
  refine hfind.bind fun r _ => ?_
  obtain ⟨hasChild, o⟩ := r
  cases o with
  | none => cases hasChild <;> exact avoids_pure
  | some z =>
    refine Avoids.bind ?_ fun _ _ => avoids_pure
    unfold reap
    split_ifs
    · exact avoids_panic.bind nofun
    · exact ProcTable.removeLinks_avoids.bind fun _ _ => avoids_pure
    · exact avoids_panic.bind nofun
    · exact ProcTable.removeLinks_avoids.bind fun _ _ => avoids_pure

/-- The loop of `do_exit` wakes `init` only while it sleeps. -/
theorem reparentLoop_avoids
    (hs : (s.sched.pcb s.initProc).waitState = waitChild →
      (s.sched.pcb s.initProc).state ≠ .zombie) :
    Avoids C (reparentLoop k s) := by
  induction k generalizing s with
  | zero => exact avoids_diverges
  | succ k ih =>
    unfold reparentLoop
    cases s.table.child s.curr with
    | none => exact avoids_ok
    | some proc =>
      simp only
      refine Avoids.bind ?_ fun s₁ hs₁ => ih ?_
      · split_ifs with hcond
        · exact (Sched.wakeupProc_avoids (hs hcond.2)).bind fun _ _ => avoids_pure
        · exact avoids_ok
      · split_ifs at hs₁ with hcond
        · obtain ⟨sched, hsched, hs₁⟩ := bind_eq_ok.1 hs₁
          cases hs₁
          intro _
          rw [Sched.pcb, (Sched.wakeupProc_woken hsched).sem]
          simp
        · cases hs₁
          exact hs

variable [DecidableEq κ] [DecidableEq μ] [DecidableEq ρ]

/-- **`do_exit`** wakes only processes that sleep in `do_wait`. -/
theorem Sound.doExit_avoids (h : s.Sound) (hrun : s.sched.pcb s.curr = .running)
    (vm : VmTable ν μ ρ) {errno : ℤ} :
    Avoids C (({ s with vm } : Kernel κ ν μ ρ).doExit k errno) := by
  -- while the loop runs, a process that waits for a child is not a zombie
  have hstate : ∀ p ∈ s.used, ((s.sched.setPcb s.curr ⟨.zombie, (s.sched.pcb s.curr).waitState⟩).pcb
      p).waitState = waitChild → ((s.sched.setPcb s.curr ⟨.zombie, (s.sched.pcb
        s.curr).waitState⟩).pcb p).state ≠ .zombie := by
    intro p hp hwait
    by_cases hpc : p = s.curr
    · rw [hpc, hrun] at hwait
      simp only [Sched.pcb, Sched.setPcb, Function.update_self] at hwait
      exact absurd hwait (by decide)
    · simp only [Sched.pcb, Sched.setPcb, Function.update_of_ne hpc] at hwait ⊢
      have := ((h.placed.allows p hp).waitChild hwait).1
      rw [show (s.sched.sem.pcb p).state = .sleeping from this]
      decide
  obtain ⟨ps, kids, hfamily, -⟩ := h.family
  unfold Kernel.doExit
  split_ifs
  · refine avoids_panic.bind ?_
    rintro a ⟨⟩
  refine ProcTable.deref_avoids.bind fun parent hparent => ?_
  have hparentU : parent ∈ s.used :=
    hfamily.table.kin.parent s.curr h.placed.curr_mem parent (deref_eq_ok.1 hparent)
  refine Avoids.bind ?_ fun s₂ hs₂ => (reparentLoop_avoids ?_).bind fun _ _ => avoids_pure
  · split_ifs with hcond
    · exact (Sched.wakeupProc_avoids (hstate parent hparentU hcond)).bind fun _ _ => avoids_pure
    · exact avoids_ok
  · split_ifs at hs₂ with hcond
    · obtain ⟨sched, hsched, hs₂⟩ := bind_eq_ok.1 hs₂
      cases hs₂
      simp only [Sched.pcb, (Sched.wakeupProc_woken hsched).sem]
      intro hwait
      split_ifs at hwait ⊢
      · simp
      · exact hstate s.initProc hfamily.init_mem hwait
    · cases hs₂
      exact hstate s.initProc hfamily.init_mem

/-- What comes after `schedule`. -/
theorem Sound.resume_avoids (h : s.Sound) {r : Ret κ} (hr : s.loc s.curr = .within r) :
    Avoids poolAssertions (s.resume k r) := by
  obtain ⟨qs, hqueue⟩ := h.queues
  have hrun : s.sched.pcb s.curr = .running := h.placed.curr_running (by simp [hr])
  cases r with
  | trap => exact avoids_ok
  | kernel => exact avoids_ok
  | wait pid store =>
    unfold Kernel.resume
    split_ifs
    · exact (h.doExit_avoids hrun s.vm).bind fun _ _ => avoids_pure
    · exact waitRound_avoids
  | sleep => exact Timers.delTimer_avoids.bind fun _ _ => avoids_pure
  | down sem =>
    have hin : s.sched.sem.blockedIn s.curr = some sem :=
      (h.placed.down s.curr sem).2 ⟨h.placed.curr_mem, Or.inr hr⟩
    refine Avoids.bind (Avoids.bind (x := s.sched.sem.downResume s.curr sem) ?_
      fun _ _ => avoids_pure) fun _ _ => avoids_pure
    rw [(hqueue.downResume hin (congrArg RunState.state hrun)).1]
    exact avoids_ok
  | exit => exact avoids_panic

/-- `trap` ends. -/
theorem Sound.trapEnd_avoids (h : s.Sound) (hl : s.loc s.curr = .trapEnd) :
    Avoids poolAssertions (s.trapEnd k) := by
  unfold Kernel.trapEnd
  split_ifs
  · exact h.doExit_avoids (h.placed.curr_running (by simp [hl])) s.vm
  · exact avoids_ok
  · exact avoids_ok

omit [DecidableEq μ] [DecidableEq ρ] in
/-- `run_timers` wakes processes that are in `do_sleep`. -/
theorem Sound.runTimers_avoids (h : s.Sound) : Avoids poolAssertions (s.runTimers k) := by
  refine Avoids.bind ?_ fun _ _ => avoids_pure
  obtain ⟨K, xs, ys, h1, h2, h3, h4, h5⟩ := h.timers
  obtain ⟨xs', T', -, -, -, hrun⟩ := h1.runTimers (σ := Sched κ ν) h2 h3
  rcases hrun u32Arith u32Arith_exact (fun S _ proc => Sched.fire S k proc)
    Sched.schedulerProcTick s.sched k with hk | ⟨-, hk⟩
  · simp only at hk
    rw [hk]
    refine Avoids.bind (Sched.fire_avoids fun a ha => ?_) fun _ _ => avoids_ok
    obtain ⟨x, hx, rfl⟩ := List.mem_map.1 ha
    obtain ⟨h6, h7, h8⟩ := h4 x (h2.mem_iff.2 (List.mem_filter.1 hx).1)
    rw [h6]
    intro hzombie
    cases Loc.at_unique h8 ((h.placed.allows _ h7).zombie_iff.1 hzombie)
  · simp only at hk
    rw [hk]
    exact avoids_diverges

omit [DecidableEq μ] [DecidableEq ρ] in
/-- `do_kill` wakes a process that is in an interruptible wait. -/
theorem Sound.doKill_avoids (h : s.Sound) {pid : ℤ} : Avoids poolAssertions (s.doKill k pid) := by
  obtain ⟨ps, kids, hfamily, -⟩ := h.family
  refine ProcTable.getProc_avoids.bind fun o ho => ?_
  cases o with
  | none => exact avoids_pure
  | some proc =>
    have hproc := ((hfamily.table.mem proc).1 ((hfamily.table.getProc ho).1 proc rfl).1).1
    simp only
    split_ifs with hflag hwait
    · exact avoids_pure
    · have hasleep := ((h.placed.allows proc hproc).waitInt hwait).1
      refine Avoids.bind (Avoids.bind (Sched.wakeupProc_avoids ?_) fun _ _ => avoids_pure)
        fun _ _ => avoids_pure
      rw [hasleep]
      decide
    · exact avoids_ok.bind fun _ _ => avoids_pure

omit [DecidableEq κ] in
/-- `do_fork` wakes a process that has just been initialised. -/
theorem doFork_avoids {cloneVm : Bool} {m : ForkMem ν μ ρ} :
    Avoids poolAssertions (s.doFork k cloneVm m) := by
  unfold Kernel.doFork
  by_cases hfull : maxProcess < s.table.numProc
  · rw [if_pos hfull]
    exact avoids_ok
  rw [if_neg hfull]
  cases m.pcb with
  | none => exact avoids_ok
  | some proc =>
    refine (avoids_assert fun hc => absurd hc (by decide)).bind fun _ _ => ?_
    split_ifs
    · split
      · exact avoids_pure
      · refine ProcTable.enterProc_avoids.bind fun T _ => Avoids.bind (Avoids.bind
          (Sched.wakeupProc_avoids ?_) fun _ _ => avoids_pure) fun _ _ => avoids_pure
        simp [Kernel.allocProc, Sched.allocProc, Sched.setPcb, Sched.pcb]
    · exact avoids_pure

/-- `load_bin`, and `do_exit` if that fails. -/
theorem Sound.loadBin_avoids (h : s.Sound) (hl : s.loc s.curr = .loading) {m : VmMem μ ρ} {ret : ℤ} :
    Avoids poolAssertions (s.loadBin k m ret) := by
  refine Avoids.bind (x := s.vm.loadBin s.curr m) ?_ fun r _ => ?_
  · unfold VmTable.loadBin
    split_ifs
    · exact avoids_panic
    · exact avoids_ok
  · obtain ⟨vm, ok⟩ := r
    cases ok with
    | true => exact avoids_pure
    | false =>
      exact (h.doExit_avoids (h.placed.curr_running (by simp [hl])) vm).bind fun _ _ => avoids_pure

omit [DecidableEq μ] [DecidableEq ρ] in
/-- `down` -/
theorem Sound.down_avoids (h : s.Sound) (hfree : (s.loc s.curr).Unqueued) {sem : κ} :
    Avoids poolAssertions (s.sched.down sem) := by
  obtain ⟨qs, hqueue⟩ := h.queues
  refine Avoids.bind (x := s.sched.sem.down s.sched.curr sem) ?_ fun _ _ => avoids_pure
  by_cases hv : 0 < s.sched.sem.value sem
  · unfold SemState.down
    rw [if_pos hv]
    exact avoids_ok
  · obtain ⟨t', ht', -⟩ := hqueue.down (h.not_blocked_curr hfree) hv
    rw [show s.sched.sem.down s.sched.curr sem = _ from ht']
    exact avoids_ok

omit [DecidableEq μ] [DecidableEq ρ] in
/-- `up` -/
theorem Sound.up_avoids (h : s.Sound) {sem : κ} : Avoids poolAssertions (s.sched.up k sem) := by
  obtain ⟨qs, hqueue⟩ := h.queues
  refine Avoids.bind (x := s.sched.sem.up sem) ?_ fun r _ => ?_
  · cases hq : qs sem with
    | nil =>
      rw [hqueue.up_nil hq]
      exact avoids_ok
    | cons p ps =>
      obtain ⟨t', ht', -⟩ := hqueue.up hq
      rw [ht']
      exact avoids_ok
  · obtain ⟨t', o⟩ := r
    cases o with
    | none => exact avoids_pure
    | some p =>
      simp only
      split_ifs
      · exact Sched.schedulerEnqueue_avoids
      · exact avoids_pure

/-- **No step fails one of these assertions.** -/
theorem Sound.avoids (h : s.Sound) {op : KernelOp κ ν μ ρ} (hen : s.Enabled op) :
    Avoids poolAssertions (exec k s op) := by
  obtain ⟨t, hpool⟩ := h.pool
  cases op with
  | schedule =>
    obtain ⟨r, hr⟩ := hen
    simp only [exec, hr]
    exact (hpool.schedule_avoids h.few h.placed.curr_mem).bind fun _ _ => avoids_pure
  | resume =>
    obtain ⟨r, hr⟩ := hen
    simp only [exec, hr]
    exact h.resume_avoids hr
  | start => exact avoids_ok
  | trapEnd => exact (h.trapEnd_avoids hen).bind fun _ _ => avoids_pure
  | trap => exact avoids_ok
  | tick => exact h.runTimers_avoids.bind fun _ _ => avoids_pure
  | yieldKernel => exact avoids_ok
  | doYield => exact avoids_ok
  | setPriority priority => exact avoids_ok
  | doKill pid => exact h.doKill_avoids.bind fun _ _ => avoids_pure
  | doFork cloneVm m => exact doFork_avoids.bind fun _ _ => avoids_pure
  | doWait pid store =>
    show Avoids _ (s.doWait k pid store)
    unfold Kernel.doWait
    split_ifs
    · exact avoids_ok
    · exact waitRound_avoids
  | doSleep time =>
    show Avoids _ (s.doSleep k time)
    unfold Kernel.doSleep
    split_ifs
    · exact avoids_ok
    · exact Timers.addTimer_avoids.bind fun _ _ => avoids_pure
  | doExit errno =>
    exact (h.doExit_avoids (hen.runs.running h.placed) s.vm).bind fun _ _ => avoids_pure
  | doExecve valid => exact avoids_ok
  | loadBin m ret => exact h.loadBin_avoids hen.1
  | down sem =>
    exact (h.down_avoids (MayCall.runs (Or.inr hen)).free.unqueued).bind fun _ _ => avoids_pure
  | up sem => exact h.up_avoids.bind fun _ _ => avoids_pure

end Kernel

/-- **The run pool.**  In every state that a run reaches, the pool is a heap that holds a process
exactly once if it is runnable and neither running nor `idle`, and nothing else; `num_proc` is the
number of its nodes; a process waits for something if and only if it sleeps; and whatever step comes
next does not fail the assertions of `wakeup_proc` and `stride_dequeue`. -/
theorem run_pool_correct {κ ν μ ρ : Type} [DecidableEq κ] [DecidableEq ν] [DecidableEq μ]
    [DecidableEq ρ] {s : Kernel κ ν μ ρ} (h : (kernelSystem κ ν μ ρ).Reachable s) :
    (∃ t : Tree ν, TreeLinks.IsHeap s.sched.queue.pool s.sched.queue.runPool t ∧
      (∀ p, p ∈ t.nodes ↔ s.inUse p = true ∧ (s.sched.pcb p).state = .runnable ∧ p ≠ s.curr ∧
        p ≠ s.sched.idle) ∧ s.sched.queue.numProc = t.nodes.length) ∧
    (∀ p, s.inUse p = true →
      ((s.sched.pcb p).waitState ≠ waitNone ↔ (s.sched.pcb p).state = .sleeping)) ∧
    ∀ op k c, s.Enabled op → c ∈ poolAssertions → Kernel.exec k s op ≠ .error (.assertion c) := by
  have hsound := kernel_sound h
  obtain ⟨t, hpool⟩ := hsound.pool
  refine ⟨⟨t, hpool.holds.heap, hpool.mem, hpool.holds.num⟩, fun p hp => ?_, fun op k c hen hc => ?_⟩
  · exact (hsound.placed.allows p hp).asleep_iff
  · exact hsound.avoids hen c hc

/-- `init` creates two processes and waits for them. -/
theorem run_pool_correct_two : ∃ s : Kernel ℕ ℕ ℕ ℕ,
    (∃ t : Tree ℕ, TreeLinks.IsHeap s.sched.queue.pool s.sched.queue.runPool t ∧ 2 ∈ t.nodes ∧
      3 ∈ t.nodes) ∧ Kernel.exec 20 s .schedule ≠ .error (.assertion "proc->state != PROC_ZOMBIE") := by
  obtain ⟨s, hs, h2, h3, hr2, hr3, hcurr, hidle, hen⟩ := Kernel.exists_replayed
    [.yieldKernel, .schedule, .start, .doFork true (Kernel.forkMem 2),
      .doFork true (Kernel.forkMem 3), .doWait 0 none]
    (fun s => s.inUse 2 = true ∧ s.inUse 3 = true ∧ (s.sched.pcb 2).state = .runnable ∧
      (s.sched.pcb 3).state = .runnable ∧ s.curr = 1 ∧ s.sched.idle = 0 ∧ s.Enabled .schedule)
    (by decide +kernel)
  obtain ⟨⟨t, hheap, hmem, -⟩, -, hnever⟩ := run_pool_correct hs
  refine ⟨s, ⟨t, hheap, (hmem 2).2 ⟨h2, hr2, ?_⟩, (hmem 3).2 ⟨h3, hr3, ?_⟩⟩,
    hnever _ _ _ hen (by decide)⟩
  · rw [hcurr, hidle]
    decide
  · rw [hcurr, hidle]
    decide

end GarretOS
