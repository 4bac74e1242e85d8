import GarretOS.Proc.StrideWindow
import GarretOS.Proc.WaitRuns
import Mathlib.Algebra.Order.Group.Abs
import Mathlib.Algebra.Order.Group.Int

/-!
# Strides in the run pool

`alloc_proc` sets the stride of a new process to 0, and a process that has been asleep comes back
with the stride that it had when it blocked; nothing brings these strides close to those of the
processes that have been running.  Where they are close (`JoinsInWindow`), all strides in the pool
stay within `BIG_STRIDE` of each other.

* `Sched.PoolOk.wakes_window` : calls of `wakeup_proc` keep the window and the heap order;
* `Kernel.Effect.bounded` : so does every step that lets processes in inside the window;
* `strides_bounded` : the pool in every state that such steps reach.
-/

namespace GarretOS

open ProcTable Sched Serial

namespace Sched

variable {κ ν : Type} [DecidableEq ν] {S S' : Sched κ ν} {U : Set ν} {t : Tree ν} {ws : List ν}

/-- Who is ready after some processes have been woken. -/
theorem Woken.ready (hw : Woken S S' ws) : S'.Ready U ⊆ S.Ready U ∪ {w | w ∈ ws} := by
  rintro p ⟨hp, hrun, hidle⟩
  rw [hw.idle] at hidle
  by_cases hpw : p ∈ ws
  · exact Or.inr hpw
  · refine Or.inl ⟨hp, ?_, hidle⟩
    rwa [Runnable, hw.pcb_of_notMem hpw] at hrun

omit [DecidableEq ν] in
/-- Only the states of the processes matter for who is ready. -/
theorem ready_congr (hpcb : ∀ p, S'.pcb p = S.pcb p) (hidle : S'.idle = S.idle) :
    S'.Ready U = S.Ready U := by
  ext p
  rw [Ready, Ready, Set.mem_ofPred_eq, Set.mem_ofPred_eq, Runnable, Runnable, hpcb, hidle]

omit [DecidableEq ν] in
/-- The links determine the pool. -/
theorem PoolOk.unique {t' : Tree ν} (h : S.PoolOk U t) (h' : S.PoolOk U t') : t = t' :=
  h.holds.heap.holds.unique h'.holds.heap.holds
    (h.holds.heap.root_eq.symm.trans h'.holds.heap.root_eq)

/-- **Waking processes** keeps the heap order if the strides of all those who are ready and of all
those who are woken are in the window. -/
theorem PoolOk.wakes_window (h : S.PoolOk U t) (hfew : Few U S.idle)
    (hws : ∀ w ∈ ws, w ∈ U ∧ w ≠ S.idle) (hw : Wakes ws S S') (ho : S.PoolOrdered t)
    (hwin : InWindow S.queue.stride (S.Ready U ∪ {w | w ∈ ws})) :
    ∃ t', S'.PoolOk U t' ∧ S'.PoolOrdered t' ∧ InWindow S'.queue.stride (S'.Ready U) := by
  induction hw generalizing t with
  | nil => exact ⟨t, h, ho, hwin.mono fun p hp => Or.inl hp⟩
  | @cons k w ws S S₁ S' hw _ ih =>
    obtain ⟨hwU, hwi⟩ := hws w List.mem_cons_self
    obtain ⟨t₁, h₁, ht₁⟩ := h.wakeupProc hfew hwU hwi hw
    have hwoken := wakeupProc_woken hw
    have hstride : S₁.queue.stride = S.queue.stride := hwoken.strides.stride
    have ho₁ : S₁.PoolOrdered t₁ := by
      rw [PoolOrdered, hstride]
      rcases ht₁ with rfl | rfl
      · exact ho
      · refine hwin.isComparison.merge (fun p hp => Or.inl (h.subset p hp)) (fun p hp => ?_) ho
          (Tree.ordered_single _)
        rw [Tree.nodes_single, List.mem_singleton] at hp
        exact Or.inr (by simp [hp])
    refine ih h₁ (hwoken.idle ▸ hfew) (fun x hx => ?_) ho₁ ?_
    · rw [hwoken.idle]
      exact hws x (List.mem_cons_of_mem w hx)
    · rw [hstride]
      refine hwin.mono fun p hp => ?_
      rcases hp with hp | hp
      · refine (hwoken.ready hp).imp id fun hpw => ?_
        exact List.mem_cons.2 (Or.inl (List.mem_singleton.1 hpw))
      · exact Or.inr (List.mem_cons_of_mem w hp)

end Sched

namespace Kernel

variable {κ ν μ ρ : Type} [DecidableEq κ] [DecidableEq ν] [DecidableEq μ] [DecidableEq ρ]
  {s s' : Kernel κ ν μ ρ} {op : KernelOp κ ν μ ρ} {out : Outcome ν}
  {l : KernelOp κ ν μ ρ × Outcome ν} {p : ν}

/-- The running process exits in this step. -/
def Exits (s : Kernel κ ν μ ρ) (l : KernelOp κ ν μ ρ × Outcome ν) : Prop :=
  s.loc s.curr ≠ .calling .exit ∧
    ∃ s', (kernelSystem κ ν μ ρ).step s l s' ∧ s'.loc s.curr = .calling .exit

/-- The processes that the step wakes, if they are asleep. -/
inductive Wakens (s : Kernel κ ν μ ρ) : KernelOp κ ν μ ρ × Outcome ν → ν → Prop
  /-- The first process in the wait queue of the semaphore. -/
  | up {sem : κ} {out : Outcome ν} {p : ν} : s.UpWakes sem p → Wakens s (.up sem, out) p
  /-- The process that is killed in an interruptible wait. -/
  | kill {pid : ℤ} {out : Outcome ν} {p : ν} : s.table.pid p = pid → s.flagExit p = false →
      (s.sched.pcb p).waitState &&& waitInt ≠ 0 → Wakens s (.doKill pid, out) p
  /-- A process whose timer has one tick left. -/
  | tick {out : Outcome ν} {p : ν} : (∃ K xs, Timers.TimerList s.timers K xs ∧ ((p, p), 1) ∈ xs) →
      Wakens s (.tick, out) p
  /-- The parent of the process that exits. -/
  | parent {l : KernelOp κ ν μ ρ × Outcome ν} {p : ν} : s.Exits l →
      s.table.parent s.curr = some p → (s.sched.pcb p).waitState = waitChild → Wakens s l p
  /-- `init`, when it is handed over a zombie. -/
  | init {l : KernelOp κ ν μ ρ × Outcome ν} : s.Exits l →
      (∃ c ∈ s.used, s.table.parent c = some s.curr ∧ s.Zombie c) →
      (s.sched.pcb s.initProc).waitState = waitChild → Wakens s l s.initProc

/-- The step wakes the process, which is asleep. -/
def Rouses (s : Kernel κ ν μ ρ) (l : KernelOp κ ν μ ρ × Outcome ν) (p : ν) : Prop :=
  p ∈ s.used ∧ (s.sched.pcb p).state = .sleeping ∧ s.Wakens l p

/-- The process has the processor or waits for it, and still does so after the step. -/
def StaysReady (s : Kernel κ ν μ ρ) (l : KernelOp κ ν μ ρ × Outcome ν) (p : ν) : Prop :=
  p ∈ s.sched.Ready s.used ∧ ¬(p = s.curr ∧ s.Exits l)

/-- Every process that becomes ready has a stride within `BIG_STRIDE` of the strides of those that
are ready, or become so with it.  The stride of a new process is 0. -/
def JoinsInWindow (s : Kernel κ ν μ ρ) (l : KernelOp κ ν μ ρ × Outcome ν) : Prop :=
  (∀ p, Creates p l → ∀ q ∈ s.sched.Ready s.used,
    Near (2 ^ 32) bigStride 0 (s.sched.queue.stride q)) ∧
  ∀ p, s.Rouses l p → ∀ q, s.StaysReady l q ∨ s.Rouses l q →
    Near (2 ^ 32) bigStride (s.sched.queue.stride p) (s.sched.queue.stride q)

/-- The run pool is in heap order, and the strides of the processes that have the processor or wait
for it are in the window. -/
def Bounded (s : Kernel κ ν μ ρ) : Prop :=
  ∃ t, s.sched.PoolOk s.used t ∧ s.sched.PoolOrdered t ∧
    InWindow s.sched.queue.stride (s.sched.Ready s.used)

omit [DecidableEq κ] [DecidableEq μ] [DecidableEq ρ] in
theorem back_loc_ne_exit (h : s.loc p ≠ .calling .exit) : s.back.loc p ≠ .calling .exit := by
  by_cases hp : p = s.curr
  · rw [hp, show s.back.loc s.curr = _ from Function.update_self _ _ _]
    split_ifs <;> simp
  · rw [back_loc_of_ne hp]
    exact h

theorem not_exits_up {sem : κ} : ¬ s.Exits (.up sem, out) := by
  rintro ⟨hl, s', ⟨-, k, he⟩, hl'⟩
  obtain ⟨sched, -, he⟩ := bind_eq_ok.1 he
  cases he
  exact back_loc_ne_exit (s := { s with sched }) hl hl'

theorem not_exits_kill {pid : ℤ} : ¬ s.Exits (.doKill pid, out) := by
  rintro ⟨hl, s', ⟨-, k, he⟩, hl'⟩
  obtain ⟨⟨s₁, ret⟩, hkill, he⟩ := bind_eq_ok.1 he
  cases he
  refine back_loc_ne_exit ?_ hl'
  obtain ⟨o, -, hkill⟩ := bind_eq_ok.1 hkill
  cases o with
  | none =>
    cases hkill
    exact hl
  | some q =>
    simp only at hkill
    split_ifs at hkill
    · cases hkill
      exact hl
    · obtain ⟨s₂, hwake, hkill⟩ := bind_eq_ok.1 hkill
      obtain ⟨sched, -, hwake⟩ := bind_eq_ok.1 hwake
      cases hwake
      cases hkill
      exact hl
    · cases hkill
      exact hl

theorem not_exits_tick : ¬ s.Exits (.tick, out) := by
  rintro ⟨hl, s', ⟨-, k, he⟩, hl'⟩
  obtain ⟨s₁, hrun, he⟩ := bind_eq_ok.1 he
  obtain ⟨⟨timers, sched⟩, -, hrun⟩ := bind_eq_ok.1 hrun
  cases hrun
  cases he
  split_ifs at hl'
  · exact back_loc_ne_exit (s := { s with timers, sched }) hl hl'
  · exact hl hl'

/-- Those who stay ready and those who are woken are in the window. -/
theorem JoinsInWindow.window (hg : s.JoinsInWindow l) (h : s.Bounded) {R : Set ν} {ws : List ν}
    (hR : ∀ q ∈ R, s.StaysReady l q) (hws : ∀ w ∈ ws, w ∈ R ∨ s.Rouses l w) :
    InWindow s.sched.queue.stride (R ∪ {w | w ∈ ws}) := by
  obtain ⟨t, -, -, hw⟩ := h
  have hcases : ∀ p ∈ R ∪ {w | w ∈ ws}, s.StaysReady l p ∨ s.Rouses l p := by
    rintro p (hp | hp)
    · exact Or.inl (hR p hp)
    · exact (hws p hp).imp (hR p) id
  intro a ha b hb
  rcases hcases a ha with ha | ha
  · rcases hcases b hb with hb | hb
    · exact hw a ha.1 b hb.1
    · exact (hg.2 b hb a (Or.inl ha)).symm (by decide)
  · exact hg.2 a ha b (hcases b hb)

omit [DecidableEq μ] [DecidableEq ρ] in
/-- The pool stays as it is, and nobody becomes ready. -/
theorem Bounded.keep (h : s.Bounded) (hs : s'.Sound)
    (hstride : ∀ p ∈ s.used, s'.sched.queue.stride p = s.sched.queue.stride p)
    (hholds : ∀ t, (∀ p ∈ t.nodes, p ∈ s.used) → s.sched.queue.Holds t → s'.sched.queue.Holds t)
    (hready : s'.sched.Ready s'.used ⊆ s.sched.Ready s.used) : s'.Bounded := by
  obtain ⟨t, hpool, ho, hw⟩ := h
  obtain ⟨t', hpool'⟩ := hs.pool
  have hsub : ∀ p ∈ t.nodes, p ∈ s.used := fun p hp => ((hpool.mem p).1 hp).1
  have hheap := (hholds t hsub hpool.holds).heap
  obtain rfl : t' = t := hpool'.holds.heap.holds.unique hheap.holds
    (hpool'.holds.heap.root_eq.symm.trans hheap.root_eq)
  refine ⟨t', hpool', Tree.Ordered.mono ho fun a ha b hb hab => ?_, fun a ha b hb => ?_⟩
  · rw [strideCompFn_le, strideDiff] at hab ⊢
    rwa [hstride a (hsub a ha), hstride b (hsub b hb)]
  · have ha' := hready ha
    have hb' := hready hb
    rw [hstride a ha'.1, hstride b hb'.1]
    exact hw a ha' b hb'

omit [DecidableEq μ] [DecidableEq ρ] in
/-- Processes are woken. -/
theorem Bounded.wakes (h : s.Bounded) (hs : s.Sound) {S : Sched κ ν} {ws : List ν}
    (hqueue : S.queue = s.sched.queue) (hcurr : S.curr = s.curr) (hidle : S.idle = s.sched.idle)
    (hpcb : ∀ p, p ≠ s.curr → S.pcb p = s.sched.pcb p) (hw : Wakes ws S s'.sched)
    (hused : s'.used = s.used) (hws : ∀ w ∈ ws, w ∈ s.used ∧ w ≠ s.sched.idle)
    (hwin : InWindow s.sched.queue.stride (S.Ready s.used ∪ {w | w ∈ ws})) : s'.Bounded := by
  obtain ⟨t, hpool, ho, -⟩ := h
  have hpool' : S.PoolOk s.used t := by
    refine ⟨hqueue ▸ hpool.holds, fun p => ?_⟩
    rw [hpool.mem, hcurr, hidle]
    refine and_congr_right fun _ => and_congr_left fun hp => ?_
    rw [Runnable, Runnable, hpcb p hp.1]
  rw [Bounded, hused]
  refine hpool'.wakes_window (hidle ▸ hs.few) (hidle ▸ hws) hw ?_ (hqueue ▸ hwin)
  rw [PoolOrdered, hqueue]
  exact ho

omit [DecidableEq κ] [DecidableEq ν] [DecidableEq μ] [DecidableEq ρ] in
/-- A process that is woken and is not a zombie was ready or asleep. -/
theorem Placed.ready_or_asleep (hs : s.Placed) {w : ν} (hw : w ∈ s.used)
    (hidle : w ≠ s.sched.idle) (hz : (s.sched.pcb w).state ≠ .zombie) :
    w ∈ s.sched.Ready s.used ∨ (s.sched.pcb w).state = .sleeping := by
  rcases (hs.allows w hw).kinds with hr | ⟨hr, -⟩ | ⟨hr, -⟩ | ⟨hr, -⟩ | ⟨hr, -⟩
  · refine Or.inl ⟨hw, ?_, hidle⟩
    rw [Runnable, hr]
    rfl
  · exact Or.inr (by rw [hr])
  · exact Or.inr (by rw [hr])
  · exact Or.inr (by rw [hr])
  · rw [hr] at hz
    exact absurd rfl hz

/-- Processes are woken by a step in which nobody stops being ready. -/
theorem Bounded.wakes_step (h : s.Bounded) (hs : s.Sound) (hg : s.JoinsInWindow l)
    (hl : ¬ s.Exits l) {S : Sched κ ν} {ws : List ν} (hqueue : S.queue = s.sched.queue)
    (hcurr : S.curr = s.curr) (hidle : S.idle = s.sched.idle) (hpcb : ∀ p, S.pcb p = s.sched.pcb p)
    (hw : Wakes ws S s'.sched) (hused : s'.used = s.used)
    (hws : ∀ w ∈ ws, w ∈ s.used ∧ w ≠ s.sched.idle ∧ s.Wakens l w) : s'.Bounded := by
  have hready : S.Ready s.used = s.sched.Ready s.used := ready_congr hpcb hidle
  refine h.wakes hs hqueue hcurr hidle (fun p _ => hpcb p) hw hused
    (fun w hm => ⟨(hws w hm).1, (hws w hm).2.1⟩) ?_
  refine hg.window h (fun q hq => ⟨hready ▸ hq, fun hn => hl hn.2⟩) fun w hm => ?_
  obtain ⟨hwU, hwi, hwk⟩ := hws w hm
  rw [hready]
  have hz : (s.sched.pcb w).state ≠ .zombie := hpcb w ▸ hw.woken.alive w hm
  exact (hs.placed.ready_or_asleep hwU hwi hz).imp id fun hasleep => ⟨hwU, hasleep, hwk⟩

omit [DecidableEq κ] [DecidableEq μ] [DecidableEq ρ] in
/-- Who is ready when the running process has been put to sleep. -/
theorem ready_setPcb {r : RunState} (hr : r.state ≠ .runnable) {U : Set ν} :
    (s.sched.setPcb s.curr r).Ready U = s.sched.Ready U \ {s.curr} := by
  ext p
  by_cases hp : p = s.curr
  · simp [Ready, Runnable, Sched.pcb, setPcb, hp, hr]
  · simp [Ready, Runnable, Sched.pcb, setPcb, hp]

omit [DecidableEq μ] [DecidableEq ρ] in
/-- `scheduler_proc_tick` does not change the pool. -/
theorem Bounded.tick {sched : Sched κ ν} (h : ({ s with sched } : Kernel κ ν μ ρ).Bounded)
    (hs : s'.Sound) (hsched : s'.sched = sched.schedulerProcTick) (hinUse : s'.inUse = s.inUse) :
    s'.Bounded := by
  obtain ⟨htick, hstride, -, hholds⟩ := sched.schedulerProcTick_eq
  refine h.keep hs (fun p _ => ?_) (fun t _ ht => ?_) ?_
  · rw [hsched, hstride]
  · rw [hsched]
    exact hholds t ht
  · have hready : s'.sched.Ready s'.used = sched.Ready s.used := by
      rw [used, hinUse, hsched]
      exact ready_congr sched.schedulerProcTick_pcb (by rw [htick])
    exact hready.subset

omit [DecidableEq μ] [DecidableEq ρ] in
/-- `schedule` -/
theorem Bounded.schedule (h : s.Bounded) (hs : s.Sound) {k : ℕ} {sched : Sched κ ν}
    {loc : ν → Loc κ} (hsched : s.sched.schedule k = .ok sched) :
    ({ s with sched, loc } : Kernel κ ν μ ρ).Bounded := by
  obtain ⟨t, hpool, ho, hw⟩ := h
  obtain ⟨t₀, t', hpool₀, hpool', hsw, -⟩ := hs.switched hsched
  obtain rfl := hpool.unique hpool₀
  obtain ⟨-, hw', ho'⟩ := hsw.window hpool hpool' hs.placed.curr_mem ho hw
  refine ⟨t', hpool', ho', ?_⟩
  have hready : sched.Ready s.used = s.sched.Ready s.used :=
    ready_congr (fun p => by rw [Sched.pcb, hsw.sem]; rfl) hsw.idle
  exact hready ▸ hw'

/-- `do_exit` wakes the parent, and `init` if it gets zombies. -/
theorem Exited.bounded {vm : VmTable ν μ ρ} {errno : ℤ} {ps ws : List ν} {kids kids' : ν → List ν}
    (hexit : Exited { s with vm } s' errno kids ws kids') (hs : s.Sound) (h : s.Bounded)
    (hg : s.JoinsInWindow l) (hexits : s.Exits l) (hfamily : s.FamilyOk ps kids) :
    s'.Bounded := by
  have hready : (s.sched.setPcb s.curr ⟨.zombie, (s.sched.pcb s.curr).waitState⟩).Ready s.used =
      s.sched.Ready s.used \ {s.curr} := ready_setPcb (by simp)
  refine h.wakes (S := s.sched.setPcb s.curr ⟨.zombie, (s.sched.pcb s.curr).waitState⟩) hs rfl rfl
    rfl (fun p hp => Function.update_of_ne hp _ _) hexit.wakes
    (by rw [hexit.eq]; rfl) (fun w hw => ⟨(hexit.woken w hw).1, (hexit.woken w hw).2.1⟩) ?_
  refine hg.window h (fun q hq => ?_) fun w hm => Or.inr ?_
  · obtain ⟨hq, hqc⟩ := hready.subset hq
    exact ⟨hq, fun hn => hqc hn.1⟩
  · obtain ⟨hwU, -, hwait⟩ := hexit.woken w hm
    refine ⟨hwU, ((hs.placed.allows w hwU).waitChild hwait).1, ?_⟩
    rcases hexit.woken_by w hm with hparent | ⟨rfl, c, hc, hz⟩
    · exact .parent hexits hparent hwait
    · obtain ⟨hcU, hcp⟩ := (hfamily.table.kin.mem s.curr c).1 hc
      exact .init hexits ⟨c, hcU, hcp, hz⟩ hwait

section Unforked

variable {proc : ν} {cloneVm : Bool} {m : ForkMem ν μ ρ}

omit [DecidableEq κ] in
theorem Unforked.stride (hun : Unforked s s' proc cloneVm m) (hproc : s.inUse proc = false) :
    ∀ p ∈ s.used, s'.sched.queue.stride p = s.sched.queue.stride p := by
  intro p hp
  rw [hun.sched_eq]
  exact Function.update_of_ne (ne_of_unused hproc hp) _ _

omit [DecidableEq κ] in
theorem Unforked.holds (hun : Unforked s s' proc cloneVm m) (hproc : s.inUse proc = false) :
    ∀ t, (∀ p ∈ t.nodes, p ∈ s.used) → s.sched.queue.Holds t → s'.sched.queue.Holds t := by
  intro t ht hh
  rw [hun.sched_eq]
  exact hh.allocProc fun hp => ne_of_unused hproc (ht proc hp) rfl

omit [DecidableEq κ] in
theorem Unforked.ready (hun : Unforked s s' proc cloneVm m) (hproc : s.inUse proc = false) :
    s'.sched.Ready s'.used ⊆ s.sched.Ready s.used := by
  rintro p ⟨hpU, hrun, hidle⟩
  rw [hun.used_eq hproc] at hpU
  rw [hun.sched_eq] at hrun hidle
  refine ⟨hpU, ?_, hidle⟩
  simpa [Runnable, Sched.allocProc, Sched.pcb, setPcb, ne_of_unused hproc hpU] using hrun

end Unforked

/-- `do_fork` creates a process, whose stride is 0, and wakes it. -/
theorem Forked.bounded {proc : ν} {cloneVm : Bool} {m : ForkMem ν μ ρ} {ret : ℤ}
    (hforked : Forked s s' proc cloneVm m ret) (hs : s.Sound)
    (hfew : Few s'.used s'.sched.idle) (h : s.Bounded) (hproc : s.inUse proc = false)
    (hnear : ∀ q ∈ s.sched.Ready s.used, Near (2 ^ 32) bigStride 0 (s.sched.queue.stride q)) :
    s'.Bounded := by
  obtain ⟨t, hpool, ho, hw⟩ := h
  have hne : ∀ p ∈ s.used, p ≠ proc := fun _ => ne_of_unused hproc
  have hused : s'.used = insert proc s.used := hforked.used_eq
  have hstride : ∀ p ∈ s.used,
      (s.sched.allocProc proc).queue.stride p = s.sched.queue.stride p :=
    fun p hp => Function.update_of_ne (hne p hp) _ _
  have hzero : (s.sched.allocProc proc).queue.stride proc = 0 := Function.update_self _ _ _
  have hready : ∀ p ∈ (s.sched.allocProc proc).Ready s'.used, p ∈ s.sched.Ready s.used := by
    rintro p ⟨hp, hrun, hidle⟩
    rw [hused] at hp
    by_cases hpp : p = proc
    · simp [Runnable, Sched.allocProc, Sched.pcb, setPcb, hpp] at hrun
    · refine ⟨hp.resolve_left hpp, ?_, hidle⟩
      simpa [Runnable, Sched.allocProc, Sched.pcb, setPcb, hpp] using hrun
  have hpool₀ : (s.sched.allocProc proc).PoolOk s'.used t :=
    hpool.allocProc (not_mem_used hproc) fun x hx => by simp [hused, hx]
  have ho₀ : (s.sched.allocProc proc).PoolOrdered t := by
    refine Tree.Ordered.mono ho fun a ha b hb hab => ?_
    rw [strideCompFn_le, strideDiff] at hab ⊢
    rwa [hstride a ((hpool.mem a).1 ha).1, hstride b ((hpool.mem b).1 hb).1]
  refine hpool₀.wakes_window (hforked.idle_eq ▸ hfew) (fun w hm => ?_) hforked.wakes ho₀ ?_
  · obtain rfl := List.mem_singleton.1 hm
    exact ⟨hused ▸ Or.inl rfl, (hne _ hs.placed.idle_mem).symm⟩
  · -- the strides of the old processes are as before, and the new one has stride 0
    rintro a (ha | ha) b (hb | hb)
    · have ha' := hready a ha
      have hb' := hready b hb
      rw [hstride a ha'.1, hstride b hb'.1]
      exact hw a ha' b hb'
    · obtain rfl := List.mem_singleton.1 hb
      rw [hstride a (hready a ha).1, hzero]
      exact (hnear a (hready a ha)).symm (by decide)
    · obtain rfl := List.mem_singleton.1 ha
      rw [hstride b (hready b hb).1, hzero]
      exact hnear b (hready b hb)
    · rw [List.mem_singleton.1 ha, List.mem_singleton.1 hb]
      exact near_self (by decide) _

/-- **A step keeps the strides in the window.** -/
theorem Effect.bounded (hs : s.Sound) (h : s.Bounded) (hg : s.JoinsInWindow (op, out))
    (hstep : (kernelSystem κ ν μ ρ).step s (op, out) s') (he : Effect s op out s') :
    s'.Bounded := by
  have hs' := he.sound hs
  have hrel := he.relates
  have hholds : ∀ t : Tree ν, (∀ p ∈ t.nodes, p ∈ s.used) → s.sched.queue.Holds t →
      s.sched.queue.Holds t := fun _ _ ht => ht
  cases he with
  | go hruns hl haway hidle hprio =>
    exact h.keep hs' (fun _ _ => rfl) (fun t _ ht => ⟨ht.heap, ht.num, ht.queued⟩) subset_rfl
  | execve hcall => exact h.keep hs' (fun _ _ => rfl) hholds subset_rfl
  | load hl hload hl' => exact h.keep hs' (fun _ _ => rfl) hholds subset_rfl
  | waitNone hround hnone => exact h.keep hs' (fun _ _ => rfl) hholds subset_rfl
  | @waitBlock op pid store hround hsome hall =>
    refine h.keep hs' (fun _ _ => rfl) hholds ?_
    exact (ready_setPcb (by simp)).trans_subset Set.sdiff_subset
  | @reap op pid store z s' hround hwaits hreaped hfamily =>
    have hsched : s'.sched = s.sched := by
      rw [hreaped.eq]
      rfl
    refine h.keep hs' (fun p _ => by rw [hsched]) (fun t _ ht => hsched ▸ ht) ?_
    rw [hsched]
    exact fun p hp => ⟨(hreaped.mem_used.1 hp.1).1, hp.2⟩
  | @sleep time timers s' hcall heq htimers =>
    subst heq
    refine h.keep hs' (fun _ _ => rfl) hholds ?_
    exact (ready_setPcb (by simp)).trans_subset Set.sdiff_subset
  | sleepBack hl heq htimers =>
    subst heq
    exact h.keep hs' (fun _ _ => rfl) hholds subset_rfl
  | @down j sem hl hidle hin hpcb hqueues =>
    refine h.keep hs' (fun _ _ => rfl) hholds ?_
    have hready : ({ s.sched with sem } : Sched κ ν).Ready s.used =
        (s.sched.setPcb s.curr ⟨.sleeping, waitSem⟩).Ready s.used :=
      ready_congr (fun p => congrFun hpcb p) rfl
    exact hready.trans_subset ((ready_setPcb (by simp)).trans_subset Set.sdiff_subset)
  | @downBack j hl hqueues => exact h.keep hs' (fun _ _ => rfl) hholds subset_rfl
  | @up j p sem sched hl hidle hfirst hblocked hin hpcb hw hqueues =>
    have hp := (hs.placed.down p j).1 hblocked.1
    refine h.wakes_step (S := { s.sched with sem }) hs hg not_exits_up rfl rfl rfl
      (fun q => congrFun hpcb q) hw rfl fun w hm => ?_
    obtain rfl := List.mem_singleton.1 hm
    exact ⟨hp.1, hs.placed.ne_idle_of_at hp.2 (by simp), .up hfirst⟩
  | @kill pid p ws sched hcall hp hidle hpid hflag hws hw =>
    refine h.wakes_step hs hg not_exits_kill rfl rfl rfl (fun _ => rfl) hw rfl fun w hm => ?_
    rcases hws with ⟨rfl, hwait⟩ | ⟨rfl, -⟩
    · obtain rfl := List.mem_singleton.1 hm
      exact ⟨hp, hidle, .kill hpid hflag hwait⟩
    · cases hm
  | @tick ws timers sched s₁ s' hws hw hs₁ htimers heq =>
    have h₁ : ({ s with sched } : Kernel κ ν μ ρ).Bounded := by
      refine h.wakes_step hs hg not_exits_tick rfl rfl rfl (fun _ => rfl) hw rfl fun w hm => ?_
      obtain ⟨hwU, hl, hone⟩ := hws w hm
      exact ⟨hwU, hs.placed.ne_idle_of_at hl (by simp), .tick hone⟩
    refine h₁.tick hs' ?_ ?_
    · rw [heq, hs₁]
      split_ifs <;> rfl
    · rw [heq, hs₁]
      split_ifs <;> rfl
  | schedule hr hsched => exact h.schedule hs hsched
  | exit hrun hloc hvm hfamily hchildless hexit hfamily' =>
    have hexits : s.Exits (op, .none) := by
      refine ⟨fun hl => ?_, s', hstep, ?_⟩
      · have hzombie := (hs.placed.allows s.curr hs.placed.curr_mem).zombie_iff.2 (Or.inl hl)
        rw [hrun] at hzombie
        cases hzombie
      · rw [hexit.eq]
        exact Function.update_self _ _ _
    exact hexit.bounded hs h hg hexits hfamily
  | unfork hcall hproc hun hret =>
    exact h.keep hs' (hun.stride hproc) (hun.holds hproc) (hun.ready hproc)
  | @fork cloneVm m ret proc s' hcall hproc hforked hfamily =>
    have hmem : proc ∈ s'.back.used := hforked.used_eq ▸ Or.inl rfl
    obtain ⟨hcreates, -⟩ :=
      (hrel.member proc hmem).resolve_left fun hold => not_mem_used hproc hold.1
    exact hforked.bounded hs hs'.few h hproc (hg.1 proc hcreates)

/-- In the beginning only `init` is ready. -/
theorem Bounded.start (h : (kernelSystem κ ν μ ρ).init s) : s.Bounded := by
  have hs := kernel_sound (.start h)
  obtain ⟨t, hpool⟩ := hs.pool
  have hinit : ∀ p ∈ s.sched.Ready s.used, p = s.initProc := fun p hp =>
    ((init_used h).2 p hp.1).resolve_right hp.2.2
  have hw : InWindow s.sched.queue.stride (s.sched.Ready s.used) := by
    intro a ha b hb
    rw [hinit a ha, hinit b hb]
    exact near_self (by decide) _
  refine ⟨t, hpool, Tree.ordered_of_forall fun a ha b hb => ?_, hw⟩
  rw [hinit a (hpool.subset a ha), hinit b (hpool.subset b hb), strideCompFn_le, strideDiff]
  simp [diff]

end Kernel

open Kernel

/-- **The strides in the run pool** are within `BIG_STRIDE` of each other in every state that is
reached by steps in which processes join inside the window; so `stride_comp_fn` is transitive on the
pool, the root of the pool has the least stride, and `schedule` picks a process whose stride is the
least of all that are ready. -/
theorem strides_bounded {κ ν μ ρ : Type} [DecidableEq κ] [DecidableEq ν] [DecidableEq μ]
    [DecidableEq ρ] {s : Kernel κ ν μ ρ}
    (h : ((kernelSystem κ ν μ ρ).guard JoinsInWindow).Reachable s) :
    ∃ t, s.sched.PoolOk s.used t ∧
      (∀ a ∈ t.nodes, ∀ b ∈ t.nodes, |strideDiff s.sched.queue.stride a b| ≤ bigStride) ∧
      (∀ a ∈ t.nodes, ∀ b ∈ t.nodes, ∀ c ∈ t.nodes,
        strideCompFn s.sched.queue.stride a b ≤ 0 → strideCompFn s.sched.queue.stride b c ≤ 0 →
          strideCompFn s.sched.queue.stride a c ≤ 0) ∧
      (∀ a, s.sched.queue.runPool = some a →
        ∀ b ∈ t.nodes, strideDiff s.sched.queue.stride a b ≤ 0) ∧
      ∀ k sched, s.sched.schedule k = .ok sched → sched.curr ≠ s.sched.idle →
        ∀ b, s.inUse b = true → s.sched.Runnable b → b ≠ s.sched.idle →
          strideDiff s.sched.queue.stride sched.curr b ≤ 0 := by
  have hs := kernel_sound h.of_guard
  have hbounded : s.Bounded := by
    refine h.induct (fun s hs => Bounded.start hs) fun s l s' hr ih hl => ?_
    obtain ⟨hguard, hstep⟩ := hl
    have hs := kernel_sound hr.of_guard
    obtain ⟨hen, k, he⟩ := id hstep
    exact (hs.effect hen he).bounded hs ih hguard hstep
  obtain ⟨t, hpool, ho, hw⟩ := hbounded
  have hcomp := hw.isComparison
  refine ⟨t, hpool, fun a ha b hb => ?_, fun a ha b hb c hc => ?_, fun a ha b hb => ?_,
    fun k sched hsched hne b hb hrun hidle => ?_⟩
  · exact abs_le.2 (hw a (hpool.subset a ha) b (hpool.subset b hb))
  · exact hcomp.trans a (hpool.subset a ha) b (hpool.subset b hb) c (hpool.subset c hc)
  · rw [← strideCompFn_le]
    exact hcomp.root_le hpool.subset ho (hpool.holds.heap.root_eq.symm.trans ha) b hb
  · obtain ⟨t₀, t', hpool₀, hpool', hsw, -⟩ := hs.switched hsched
    obtain rfl := hpool.unique hpool₀
    obtain ⟨hpick, -⟩ := hsw.window hpool hpool' hs.placed.curr_mem ho hw
    rcases hpick with ⟨-, hmin, -⟩ | ⟨-, hcurr, -⟩
    · exact strideCompFn_le.1 (hmin b ⟨hb, hrun, hidle⟩)
    · exact absurd hcurr hne

/-- All processes besides `idle` are among `xs` and awake, and none of them is more than `BIG_STRIDE`
ahead of a new process. -/
def AwakeWithin (s : Kernel ℕ ℕ ℕ ℕ) (xs : List ℕ) : Prop :=
  xs.Nodup ∧ s.table.numProc = xs.length + 1 ∧ ∀ x ∈ xs, s.inUse x = true ∧ x ≠ s.sched.idle ∧
    (s.sched.pcb x).state = .runnable ∧ s.sched.queue.stride x ≤ bigStride

instance (s : Kernel ℕ ℕ ℕ ℕ) (xs : List ℕ) : Decidable (AwakeWithin s xs) :=
  inferInstanceAs (Decidable (_ ∧ _ ∧ _))

theorem AwakeWithin.mem {s : Kernel ℕ ℕ ℕ ℕ} {xs : List ℕ} (h : AwakeWithin s xs) (hs : s.Sound)
    {p : ℕ} (hp : p ∈ s.used) (hidle : p ≠ s.sched.idle) : p ∈ xs := by
  obtain ⟨hnodup, hnum, hall⟩ := h
  obtain ⟨ps, kids, hfamily, -⟩ := hs.family
  have hsub : xs ⊆ ps := fun x hx => (hfamily.table.mem x).2 ⟨(hall x hx).1, (hall x hx).2.1⟩
  have hle : ps.length ≤ xs.length := by
    have := hfamily.table.num
    omega
  have hperm := (List.subperm_of_subset hnodup hsub).perm_of_length_le hle
  exact hperm.mem_iff.2 ((hfamily.table.mem p).2 ⟨hp, hidle⟩)

/-- Nobody is woken then, and a new process joins inside the window. -/
theorem AwakeWithin.joins {s : Kernel ℕ ℕ ℕ ℕ} {xs : List ℕ} (h : AwakeWithin s xs) (hs : s.Sound)
    (l : KernelOp ℕ ℕ ℕ ℕ × Outcome ℕ) : s.JoinsInWindow l := by
  refine ⟨fun p _ q hq => ?_, fun p hp => ?_⟩
  · have hle := (h.2.2 q (h.mem hs hq.1 hq.2.2)).2.2.2
    have hB : bigStride = 2 ^ 30 := by decide
    rw [hB] at hle ⊢
    rw [Near, diff_of_lt (by omega) (by omega)]
    omega
  · obtain ⟨hpU, hasleep, -⟩ := hp
    have hidle : p ≠ s.sched.idle := by
      rintro rfl
      rw [hs.placed.idle_running] at hasleep
      cases hasleep
    rw [(h.2.2 p (h.mem hs hpU hidle)).2.2.1] at hasleep
    cases hasleep

/-- `init` has been picked once, and so has its child 2; the child 3 is new, and it is the root. -/
theorem strides_bounded_three : ∃ (s : Kernel ℕ ℕ ℕ ℕ) (t : Tree ℕ), s.sched.PoolOk s.used t ∧
    s.sched.queue.stride 1 = bigStride ∧ s.sched.queue.stride 3 = 0 ∧
    |strideDiff s.sched.queue.stride 1 3| ≤ bigStride ∧
    strideDiff s.sched.queue.stride 3 1 ≤ 0 := by
  obtain ⟨s, hs, hstride1, hstride3, hidle, hroot, h1, h3⟩ := exists_guarded
    (fun s _ => AwakeWithin s [1] ∨ AwakeWithin s [1, 2])
    [.yieldKernel, .schedule, .start, .doFork true (forkMem 2), .yieldKernel, .schedule, .start,
      .doFork true (forkMem 3)]
    (fun s => s.sched.queue.stride 1 = bigStride ∧ s.sched.queue.stride 3 = 0 ∧
      s.sched.idle = 0 ∧ s.sched.queue.runPool = some 3 ∧
      (s.inUse 1 = true ∧ (s.sched.pcb 1).state = .runnable ∧ 1 ≠ s.sched.curr) ∧
      (s.inUse 3 = true ∧ (s.sched.pcb 3).state = .runnable ∧ 3 ≠ s.sched.curr))
    (by decide +kernel)
  have hs' : ((kernelSystem ℕ ℕ ℕ ℕ).guard JoinsInWindow).Reachable s := by
    refine hs.induct (fun s hs => .start hs) fun s l s' hr ih hl => ih.step ⟨?_, hl.2⟩
    have hsound := kernel_sound hr.of_guard
    exact hl.1.elim (fun h => h.joins hsound l) fun h => h.joins hsound l
  obtain ⟨t, hpool, hnear, -, hleast, -⟩ := strides_bounded hs'
  have hmem1 : 1 ∈ t.nodes := (hpool.mem 1).2 ⟨h1.1, h1.2.1, h1.2.2, by rw [hidle]; decide⟩
  have hmem3 : 3 ∈ t.nodes := (hpool.mem 3).2 ⟨h3.1, h3.2.1, h3.2.2, by rw [hidle]; decide⟩
  exact ⟨s, t, hpool, hstride1, hstride3, hnear 1 hmem1 3 hmem3, hleast 3 hroot 1 hmem1⟩

/-- The process 2 has been picked twice when it creates the process 3: it is ahead by
`2 * BIG_STRIDE`. -/
theorem strides_unbounded : ∃ s : Kernel ℕ ℕ ℕ ℕ, (kernelSystem ℕ ℕ ℕ ℕ).Reachable s ∧
    ∃ t, s.sched.PoolOk s.used t ∧ 2 ∈ t.nodes ∧ 3 ∈ t.nodes ∧
      ¬ |strideDiff s.sched.queue.stride 2 3| ≤ bigStride := by
  obtain ⟨s, hs, h2, h3, hidle, hfar⟩ := exists_replayed
    [.yieldKernel, .schedule, .start, .doFork true (forkMem 2), .doWait 0 none, .schedule, .start,
      .doExecve true, .loadBin ⟨some 2, some 2, true⟩ 1, .doYield, .trapEnd, .schedule, .resume,
      .doFork false (forkMem 3), .trapEnd, .doFork false (forkMem 4), .trapEnd, .doYield, .trapEnd,
      .schedule]
    (fun s => (s.inUse 2 = true ∧ (s.sched.pcb 2).state = .runnable ∧ 2 ≠ s.sched.curr) ∧
      (s.inUse 3 = true ∧ (s.sched.pcb 3).state = .runnable ∧ 3 ≠ s.sched.curr) ∧
      s.sched.idle = 0 ∧ ¬ |strideDiff s.sched.queue.stride 2 3| ≤ bigStride) (by decide +kernel)
  obtain ⟨t, hpool⟩ := (kernel_sound hs).pool
  refine ⟨s, hs, t, hpool, ?_, ?_, hfar⟩
  · exact (hpool.mem 2).2 ⟨h2.1, h2.2.1, h2.2.2, by rw [hidle]; decide⟩
  · exact (hpool.mem 3).2 ⟨h3.1, h3.2.1, h3.2.2, by rw [hidle]; decide⟩

end GarretOS
