import GarretOS.Proc.Effect

/-!
# The steps keep the invariant

Every step keeps `Sound`, by cases on its effect (`Effect.sound`).  Most steps only move the running
process (`Sound.moves`, `Sound.blocks`, `Sound.returns`) or wake others (`Sound.wakes`).
-/

namespace GarretOS

open ProcTable Sched Countdown

namespace Kernel

variable {κ ν μ ρ : Type} [DecidableEq κ] [DecidableEq ν] {s s' : Kernel κ ν μ ρ} {k : ℕ}

namespace Sound

/-- A process outside `down` is in no wait queue. -/
theorem not_blocked (h : s.Sound) {p : ν} {ret : Ret κ} (hl : (s.loc p).At ret)
    (hret : ∀ k, ret ≠ .down k) : s.sched.sem.blockedIn p = none := by
  rw [Option.eq_none_iff_forall_ne_some]
  intro j hj
  exact hret j (Loc.at_unique hl ((h.placed.down p j).1 hj).2)

theorem not_blocked_curr (h : s.Sound) (hl : (s.loc s.curr).Unqueued) :
    s.sched.sem.blockedIn s.curr = none := by
  rw [Option.eq_none_iff_forall_ne_some]
  exact fun j hj => hl.down j ((h.placed.down s.curr j).1 hj).2

theorem queues_block (h : s.Sound) (hnone : s.sched.sem.blockedIn s.curr = none) {r : RunState} :
    ∃ qs, ({ s.sched.sem with pcb := Function.update s.sched.sem.pcb s.curr r } :
      SemState κ ν).QueueOk qs := by
  obtain ⟨qs, hqueue⟩ := h.queues
  refine ⟨qs, hqueue.congr rfl rfl (fun _ _ => rfl) fun p hp => ?_⟩
  refine Function.update_of_ne ?_ _ _
  rintro rfl
  exact hp hnone

theorem few (h : s.Sound) : Few s.used s.sched.idle := by
  obtain ⟨ps, kids, hfamily, -⟩ := h.family
  exact fun l hl hlU => hfamily.table.few hl hlU

/-! ### Steps of the running process -/

/-- The running process moves to `l`, and nothing happens that concerns other processes. -/
theorem moves (h : s.Sound) (hrun : s.sched.pcb s.curr = .running)
    (hloc : (s.loc s.curr).Unqueued) {l : Loc κ} (hl : l.Free ∨ l = .loading) (haway : ¬ l.Away)
    (hidle : s.curr = s.sched.idle → l = .kernel ∨ l.At .kernel) (need : ν → Bool) (prio : ν → ℕ)
    (value : κ → ℤ) (vm : VmTable ν μ ρ) {isUser : ν → Bool}
    (hkernel : isUser s.sched.idle = false) :
    ({ s with
      sched := { s.sched with
        sem := { s.sched.sem with value }
        queue := { s.sched.queue with needReschedule := need, priority := prio } }
      vm
      isUser
      loc := Function.update s.loc s.curr l } : Kernel κ ν μ ρ).Sound := by
  have hun : l.Unqueued := by
    rcases hl with hl | rfl
    · exact hl.unqueued
    · exact ⟨by simp [Loc.At], by simp [Loc.At]⟩
  have hstep : CurrStep s { s with
      sched := { s.sched with
        sem := { s.sched.sem with value }
        queue := { s.sched.queue with needReschedule := need, priority := prio } }
      vm
      isUser
      loc := Function.update s.loc s.curr l } := by
    refine ⟨rfl, rfl, rfl, rfl, rfl, fun t ht => ⟨ht.heap, ht.num, ht.queued⟩,
      fun p hp => ⟨Function.update_of_ne hp _ _, rfl, rfl⟩, ?_, ?_, fun j => ?_, fun hi => ?_,
      hkernel⟩
    · simp only [Function.update_self]
      show l.Allows (s.sched.pcb s.curr)
      rw [hrun]
      rcases hl with hl | rfl
      · exact hl.allows
      · rfl
    · simpa using haway
    · simp only [Function.update_self]
      refine ⟨fun hj => absurd ((h.placed.down s.curr j).1 hj).2 (hloc.down j),
        fun hj => absurd hj (hun.down j)⟩
    · simpa using hidle hi
  obtain ⟨qs, hqueue⟩ := h.queues
  refine hstep.sound h ?_ ⟨qs, hqueue.congr rfl rfl (fun _ _ => rfl) fun _ _ => rfl⟩
    (h.timers.moves rfl rfl rfl hloc.sleep hun.sleep)
  show ¬(s.sched.pcb s.curr).state = .zombie
  rw [hrun]
  decide

/-- The running process returns to the code that has called a kernel function. -/
theorem back (h : s.Sound) (hrun : s.sched.pcb s.curr = .running)
    (hloc : (s.loc s.curr).Unqueued) : s.back.Sound := by
  refine h.moves hrun hloc (Or.inl ?_) ?_ (fun hi => Or.inl ?_) s.sched.queue.needReschedule
    s.sched.queue.priority s.sched.sem.value s.vm h.placed.idle_kernel
  · split_ifs <;> trivial
  · split_ifs <;> exact id
  · rw [hi, h.placed.idle_kernel]
    rfl

/-- The running process is where it was before other processes have changed, and returns. -/
theorem back_of_loc (h : s'.Sound) {l : Loc κ} (hloc : s'.loc s'.curr = l)
    (hcalling : ∀ r, l ≠ .calling r) (hl : l.Unqueued) : s'.back.Sound := by
  subst hloc
  exact h.back (h.placed.curr_running hcalling) hl

/-- The running process blocks in the function that calls `schedule` at `r`. -/
theorem blocks (h : s.Sound) {r : Ret κ} {w : UInt32} (sem : SemState κ ν) (timers : Timers ν ν)
    (hne : s.curr ≠ s.sched.idle) (hr : r.Allows ⟨.sleeping, w⟩)
    (hpcb : sem.pcb = Function.update s.sched.sem.pcb s.curr ⟨.sleeping, w⟩)
    (hother : ∀ p, p ≠ s.curr → sem.blockedIn p = s.sched.sem.blockedIn p)
    (hin : ∀ j, sem.blockedIn s.curr = some j ↔ r = .down j)
    (hs' : s' = ({ s with sched := { s.sched with sem }, timers } : Kernel κ ν μ ρ).setLoc s.curr
      (.calling r))
    (hqueues : ∃ qs, sem.QueueOk qs) (htimers : s'.TimersOk) : s'.Sound := by
  have hself : s'.sched.pcb s.curr = ⟨.sleeping, w⟩ := by
    rw [hs', Sched.pcb]
    simp [setLoc, hpcb]
  have hloc : s'.loc s.curr = .calling r := by
    rw [hs']
    exact Function.update_self _ _ _
  have hstep : CurrStep s s' := by
    subst hs'
    refine ⟨rfl, rfl, rfl, rfl, rfl, fun t ht => ht, fun p hp => ⟨Function.update_of_ne hp _ _, ?_,
      hother p hp⟩, ?_, ?_, fun j => ?_, fun hi => absurd hi hne, h.placed.idle_kernel⟩
    · rw [Sched.pcb]
      simp [setLoc, hpcb, hp, Sched.pcb]
    · rw [hself, hloc]
      exact hr
    · rw [hloc]
      exact id
    · rw [hloc]
      refine (hin j).trans ⟨fun he => Or.inl (by rw [he]), ?_⟩
      rintro (he | he)
      · exact Loc.calling.inj he
      · cases he
  refine hstep.sound h ?_ (by rw [hs']; exact hqueues) htimers
  rw [Zombie, hself]
  simp

/-- The running process returns from a function that it has blocked in. -/
theorem returns (h : s.Sound) (sem : SemState κ ν) (timers : Timers ν ν)
    (hrun : s.sched.pcb s.curr = .running) (hpcb : sem.pcb = s.sched.sem.pcb)
    (hother : ∀ p, p ≠ s.curr → sem.blockedIn p = s.sched.sem.blockedIn p)
    (hin : sem.blockedIn s.curr = none)
    (hs' : s' = ({ s with sched := { s.sched with sem }, timers } : Kernel κ ν μ ρ).back)
    (hqueues : ∃ qs, sem.QueueOk qs) (htimers : s'.TimersOk) : s'.Sound := by
  have hself : s'.sched.pcb s.curr = .running := by
    rw [hs', Sched.pcb]
    simp only [Kernel.back, setLoc, hpcb]
    exact hrun
  have hfree : (s'.loc s.curr).Free ∧ ¬(s'.loc s.curr).Away ∧
      (s.curr = s.sched.idle → s'.loc s.curr = .kernel) := by
    have hloc : s'.loc s.curr = if s.isUser s.curr then .trapEnd else .kernel := by
      rw [hs']
      exact Function.update_self _ _ _
    rw [hloc]
    refine ⟨?_, ?_, fun hi => ?_⟩
    · split_ifs <;> trivial
    · split_ifs <;> exact id
    · rw [hi, h.placed.idle_kernel]
      rfl
  have hstep : CurrStep s s' := by
    refine ⟨by rw [hs']; rfl, by rw [hs']; rfl, by rw [hs']; rfl, by rw [hs']; rfl, by rw [hs']; rfl,
      by rw [hs']; exact fun t ht => ht, fun p hp => ?_, ?_, hfree.2.1, fun j => ?_,
      fun hi => Or.inl (hfree.2.2 hi), by rw [hs']; exact h.placed.idle_kernel⟩
    · rw [hs', Sched.pcb]
      simp only [Kernel.back, setLoc, hpcb]
      exact ⟨Function.update_of_ne hp _ _, rfl, hother p hp⟩
    · rw [hself]
      exact hfree.1.allows
    · refine ⟨fun hj => ?_, fun hj => absurd hj (hfree.1.unqueued.down j)⟩
      rw [hs'] at hj
      have hnone : sem.blockedIn s.curr = some j := hj
      rw [hin] at hnone
      cases hnone
  refine hstep.sound h ?_ (by rw [hs']; exact hqueues) htimers
  rw [Zombie, hself]
  decide

/-! ### Other processes -/

/-- Calls of `wakeup_proc`. -/
theorem wakes (h : s.Sound) {ws : List ν} (sem : SemState κ ν) (hpcb : sem.pcb = s.sched.sem.pcb)
    (hin : sem.blockedIn = s.sched.sem.blockedIn)
    (hw : Wakes ws { s.sched with sem } s'.sched)
    (hws : ∀ w ∈ ws, w ∈ s.used ∧ w ≠ s.sched.idle) (htable : s'.table = s.table)
    (hinUse : s'.inUse = s.inUse) (hinit : s'.initProc = s.initProc) (hloc : s'.loc = s.loc)
    (hisUser : s'.isUser = s.isUser) (hqueues : ∃ qs, s'.sched.sem.QueueOk qs)
    (htimers : s'.TimersOk) : s'.Sound := by
  have hused : s'.used = s.used := by
    unfold used
    rw [hinUse]
  have hidle : s'.sched.idle = s.sched.idle := hw.woken.idle
  obtain ⟨ps, kids, hfamily, hchildless⟩ := h.family
  obtain ⟨t, hpool⟩ := h.pool
  have hpool₁ : ({ s.sched with sem } : Sched κ ν).PoolOk s.used t := by
    refine ⟨hpool.holds, fun p => ?_⟩
    rw [hpool.mem, Sched.Runnable, Sched.Runnable, Sched.pcb, Sched.pcb]
    simp only [hpcb]
  have hplaced₁ : ({ s with sched := { s.sched with sem } } : Kernel κ ν μ ρ).Placed :=
    h.placed.update rfl rfl rfl (fun p _ _ => ⟨rfl, by rw [Sched.pcb, Sched.pcb]; simp only [hpcb]⟩)
      (by
        rw [Sched.pcb]
        simp only [hpcb]
        exact h.placed.allows s.curr h.placed.curr_mem)
      (fun hl => by
        rw [Sched.pcb]
        simp only [hpcb]
        exact h.placed.here hl)
      (fun j => by
        simp only [hin]
        rw [h.placed.down]
        exact ⟨fun hj => hj.2, fun hj => ⟨h.placed.curr_mem, hj⟩⟩)
      (fun p _ => by simp only [hin])
      (fun hi => hi ▸ h.placed.idle) h.placed.idle_kernel
  refine ⟨⟨ps, kids, hfamily.congr htable hinUse hidle hinit, fun z hz hzombie hne => ?_⟩,
    hplaced₁.wakes hw hloc hinUse hisUser, ?_, hqueues, htimers⟩
  · rw [hused] at hz
    rw [hinit] at hne
    refine hchildless z hz ?_ hne
    obtain ⟨-, hzombie⟩ := hw.woken.zombie hzombie
    exact (congrArg RunState.state (congrFun hpcb z)).symm.trans hzombie
  · rw [hused]
    exact hpool₁.wakes h.few hws hw

/-- A process that waits for a child or for a timer is in no wait queue. -/
theorem queues_wakes (h : s.Sound) {ws : List ν} {sched : Sched κ ν}
    (hw : Wakes ws s.sched sched)
    (hws : ∀ w ∈ ws, s.sched.sem.blockedIn w ≠ none → s.sched.pcb w = .running) :
    ∃ qs, sched.sem.QueueOk qs := by
  obtain ⟨qs, hqueue⟩ := h.queues
  rw [hw.woken.sem]
  refine ⟨qs, hqueue.congr rfl rfl (fun _ _ => rfl) fun p hp => ?_⟩
  by_cases hpw : p ∈ ws
  · simp only [if_pos hpw]
    have hrun : s.sched.sem.pcb p = .running := hws p hpw hp
    rw [hrun]
    rfl
  · simp only [if_neg hpw]

/-- Only fields of the run queue change that the pool does not depend on. -/
theorem queue (h : s.Sound) {q : RunQueue ν} (hq : ∀ t, s.sched.queue.Holds t → q.Holds t) :
    ({ s with sched := { s.sched with queue := q } } : Kernel κ ν μ ρ).Sound := by
  obtain ⟨t, hpool⟩ := h.pool
  obtain ⟨ps, kids, hfamily, hchildless⟩ := h.family
  obtain ⟨h1, h2, h3, h4, h5, h6, h7, h8⟩ := h.placed
  exact ⟨⟨ps, kids, hfamily.congr rfl rfl rfl rfl, hchildless⟩, ⟨h1, h2, h3, h4, h5, h6, h7, h8⟩,
    ⟨t, hq t hpool.holds, hpool.mem⟩, h.queues, h.timers.congr rfl rfl fun _ _ => Iff.rfl⟩

/-! ### Switching -/

/-- What `schedule` does to the pool, and to the processor. -/
theorem switched (h : s.Sound) {sched : Sched κ ν} (hs : s.sched.schedule k = .ok sched) :
    ∃ t t', s.sched.PoolOk s.used t ∧ sched.PoolOk s.used t' ∧ Switched s.sched sched t t' ∧
      sched.curr ∈ s.used := by
  obtain ⟨t, hpool⟩ := h.pool
  have hrun : s.sched.Runnable s.sched.idle := by
    rw [Sched.Runnable, h.placed.idle_running]
    rfl
  obtain ⟨t', hpool', hsw, hmem⟩ :=
    hpool.schedule h.few h.placed.curr_mem h.placed.idle_mem hrun hs
  exact ⟨t, t', hpool, hpool', hsw, hmem⟩

/-- **`schedule`** -/
theorem schedule (h : s.Sound) {r : Ret κ} (hr : s.loc s.curr = .calling r) {sched : Sched κ ν}
    (hs : s.sched.schedule k = .ok sched) :
    ({ s with sched, loc := Function.update s.loc s.curr (.within r) } :
      Kernel κ ν μ ρ).Sound := by
  obtain ⟨t, t', -, hpool', hsw, hmem⟩ := h.switched hs
  have hat : ∀ p ret, (Function.update s.loc s.curr (.within r) p).At ret ↔ (s.loc p).At ret := by
    intro p ret
    by_cases hp : p = s.curr
    · rw [hp, Function.update_self, hr]
      simp [Loc.At]
    · rw [Function.update_of_ne hp]
  have hpcb : ∀ p, sched.pcb p = s.sched.pcb p := fun p => by rw [Sched.pcb, hsw.sem]; rfl
  have hallows : ∀ p ∈ s.used, (Function.update s.loc s.curr (.within r) p).Allows
      (s.sched.pcb p) := by
    intro p hp
    have := h.placed.allows p hp
    by_cases hpc : p = s.curr
    · rw [hpc, hr] at this
      rw [hpc, Function.update_self]
      exact this
    · rwa [Function.update_of_ne hpc]
  obtain ⟨ps, kids, hfamily, hchildless⟩ := h.family
  obtain ⟨qs, hqueue⟩ := h.queues
  refine ⟨⟨ps, kids, hfamily.congr rfl rfl hsw.idle rfl, fun z hz hzombie hne => ?_⟩,
    ⟨hmem, ?_, fun p hp => ?_, fun p hp hpc => ?_, fun _ => ?_, fun p j => ?_, ?_, ?_⟩,
    ⟨t', hpool'⟩, ⟨qs, hsw.sem.symm ▸ hqueue⟩, h.timers.congr rfl rfl fun p _ => hat p .sleep⟩
  · rw [Zombie, hpcb] at hzombie
    exact hchildless z hz hzombie hne
  · show sched.idle ∈ s.used
    rw [hsw.idle]
    exact h.placed.idle_mem
  · simp only [hpcb]
    exact hallows p hp
  · show (Function.update s.loc s.curr (.within r) p).Away
    by_cases hps : p = s.curr
    · rw [hps, Function.update_self]
      trivial
    · rw [Function.update_of_ne hps]
      exact h.placed.away p hp hps
  · show sched.pcb sched.curr = .running
    rw [hpcb]
    exact (hallows sched.curr hmem).eq_running hsw.runnable
  · show sched.sem.blockedIn p = some j ↔ p ∈ s.used ∧ _
    rw [hsw.sem, h.placed.down]
    exact and_congr_right fun _ => (hat p (.down j)).symm
  · show Function.update s.loc s.curr (.within r) sched.idle = .kernel ∨ _
    rw [hsw.idle]
    rcases h.placed.idle with hi | hi
    · refine Or.inl ?_
      rw [Function.update_of_ne]
      · exact hi
      · intro he
        rw [he, hr] at hi
        cases hi
    · exact Or.inr ((hat _ .kernel).2 hi)
  · show s.isUser sched.idle = false
    rw [hsw.idle]
    exact h.placed.idle_kernel

end Sound

/-! ### Creating a process -/

variable [DecidableEq μ] [DecidableEq ρ]

namespace Forked

variable {proc : ν} {cloneVm : Bool} {m : ForkMem ν μ ρ} {ret : ℤ}

omit [DecidableEq κ] in
theorem placed (h : Forked s s' proc cloneVm m ret) (hs : s.Placed) (hproc : s.inUse proc = false) :
    s'.Placed := by
  have hne : ∀ p ∈ s.used, p ≠ proc := fun _ => ne_of_unused hproc
  have hloc : ∀ p, s'.loc p = Function.update s.loc proc .newborn p := by
    rw [h.eq]
    exact fun _ => rfl
  have hin : s'.sched.sem.blockedIn = s.sched.sem.blockedIn := by
    rw [h.wakes.woken.sem]
    rfl
  refine ⟨?_, ?_, fun p hp => ?_, fun p hp hpc => ?_, fun hl => ?_, fun p j => ?_, ?_, ?_⟩
  · rw [h.curr_eq, h.used_eq]
    exact Or.inr hs.curr_mem
  · rw [h.idle_eq, h.used_eq]
    exact Or.inr hs.idle_mem
  · rw [hloc]
    by_cases hpp : p = proc
    · rw [hpp, Function.update_self, h.pcb_self]
      rfl
    · rw [h.used_eq] at hp
      rw [Function.update_of_ne hpp, h.pcb_of_ne hpp]
      exact hs.allows p (hp.resolve_left hpp)
  · rw [hloc]
    by_cases hpp : p = proc
    · rw [hpp, Function.update_self]
      trivial
    · rw [h.used_eq] at hp
      rw [h.curr_eq] at hpc
      rw [Function.update_of_ne hpp]
      exact hs.away p (hp.resolve_left hpp) hpc
  · have hcp := hne _ hs.curr_mem
    rw [h.curr_eq, hloc, Function.update_of_ne hcp] at hl
    rw [h.curr_eq, h.pcb_of_ne hcp]
    exact hs.here hl
  · rw [hin, hs.down, h.used_eq, hloc]
    by_cases hpp : p = proc
    · rw [hpp, Function.update_self]
      constructor
      · exact fun hp => absurd rfl (hne proc hp.1)
      · rintro ⟨-, hl | hl⟩ <;> cases hl
    · rw [Function.update_of_ne hpp]
      exact and_congr_left' ⟨Or.inr, fun hp => hp.resolve_left hpp⟩
  · rw [h.idle_eq, hloc, Function.update_of_ne (hne _ hs.idle_mem)]
    exact hs.idle
  · rw [h.idle_eq, h.eq]
    show Function.update s.isUser proc (s.isUser s.curr) s.sched.idle = false
    rw [Function.update_of_ne (hne _ hs.idle_mem)]
    exact hs.idle_kernel

omit [DecidableEq κ] in
theorem pool (h : Forked s s' proc cloneVm m ret) {t : Tree ν} (hs : s.sched.PoolOk s.used t)
    (hproc : s.inUse proc = false) (hidle : s.sched.idle ∈ s.used)
    (hfew : Few s'.used s'.sched.idle) : ∃ t', s'.sched.PoolOk s'.used t' := by
  have hp : proc ∉ s.used := not_mem_used hproc
  have halloc : (s.sched.allocProc proc).PoolOk s'.used t := by
    refine hs.allocProc hp fun x hx => ?_
    rw [h.used_eq]
    exact ⟨fun hm => hm.resolve_left hx, Or.inr⟩
  refine halloc.wakes (h.idle_eq ▸ hfew) (fun w hw => ?_) h.wakes
  obtain rfl := List.mem_singleton.1 hw
  refine ⟨?_, fun he => hp (he ▸ hidle)⟩
  rw [h.used_eq]
  exact Or.inl rfl

theorem queues (h : Forked s s' proc cloneVm m ret) {qs : κ → List ν}
    (hs : s.sched.sem.QueueOk qs) (hin : s.sched.sem.blockedIn proc = none) :
    s'.sched.sem.QueueOk qs := by
  rw [h.wakes.woken.sem]
  refine hs.congr rfl rfl (fun _ _ => rfl) fun p hp => ?_
  have hpp : p ≠ proc := by
    rintro rfl
    exact hp hin
  simp [hpp, Sched.allocProc, setPcb]

omit [DecidableEq κ] in
theorem timers (h : Forked s s' proc cloneVm m ret) (hs : s.TimersOk)
    (hproc : s.inUse proc = false) : s'.TimersOk := by
  obtain ⟨K, xs, ys, h1, h2, h3, h4, h5⟩ := hs
  have hloc : ∀ p, s'.loc p = Function.update s.loc proc .newborn p := by
    rw [h.eq]
    exact fun _ => rfl
  refine ⟨K, xs, ys, ?_, h2, h3, fun x hx => ?_, fun p hp hl => ?_⟩
  · rw [h.eq]
    exact h1
  · obtain ⟨h6, h7, h8⟩ := h4 x hx
    have hne : x.1.1 ≠ proc := ne_of_unused hproc h7
    rw [h.used_eq, hloc, Function.update_of_ne hne]
    exact ⟨h6, Or.inr h7, h8⟩
  · rw [hloc] at hl
    rw [h.used_eq] at hp
    by_cases hpp : p = proc
    · rw [hpp, Function.update_self] at hl
      rcases hl with hl | hl <;> cases hl
    · rw [Function.update_of_ne hpp] at hl
      exact h5 p (hp.resolve_left hpp) hl

end Forked

/-! ### Steps -/

variable {op : KernelOp κ ν μ ρ} {out : Outcome ν}

namespace Sound

/-- **`do_exit`** -/
theorem exited (h : s.Sound) {vm : VmTable ν μ ρ} {errno : ℤ} {ps ws : List ν}
    {kids kids' : ν → List ν} (hrun : s.sched.pcb s.curr = .running)
    (hloc : (s.loc s.curr).Unqueued)
    (hchildless : ∀ z ∈ s.used, s.Zombie z → z ≠ s.initProc → kids z = [])
    (hexit : Exited { s with vm } s' errno kids ws kids') (hfamily' : s'.FamilyOk ps kids') :
    s'.Sound := by
  have hidle : s.curr ≠ s.sched.idle := hexit.ne_idle
  have hloc₁ : s'.loc = Function.update s.loc s.curr (.calling .exit) := by rw [hexit.eq]; rfl
  have hinUse : s'.inUse = s.inUse := by rw [hexit.eq]
  have hinit : s'.initProc = s.initProc := by rw [hexit.eq]
  have hused : s'.used = s.used := by
    unfold used
    rw [hinUse]
  have hwakes : Wakes ws (s.sched.setPcb s.curr ⟨.zombie, waitNone⟩) s'.sched := by
    have hwait : (s.sched.pcb s.curr).waitState = waitNone := by
      rw [hrun]
      rfl
    rw [← hwait]
    exact hexit.wakes
  -- the running process becomes a zombie before it wakes the others
  let s₁ : Kernel κ ν μ ρ := { s with
    sched := s.sched.setPcb s.curr ⟨.zombie, waitNone⟩
    loc := Function.update s.loc s.curr (.calling .exit) }
  have hstep : CurrStep s s₁ := by
    refine ⟨rfl, rfl, rfl, rfl, rfl, fun t ht => ht, fun p hp => ⟨Function.update_of_ne hp _ _, ?_,
      rfl⟩, ?_, ?_, fun j => ?_, fun hi => absurd hi hidle, h.placed.idle_kernel⟩
    · exact Function.update_of_ne hp _ _
    · simp [s₁, Loc.Allows, Ret.Allows, setPcb, Sched.pcb]
    · simp [s₁, Loc.Away]
    · refine ⟨fun hj => absurd ((h.placed.down s.curr j).1 hj).2 (hloc.down j), ?_⟩
      simp [s₁, Loc.At]
  obtain ⟨t, hpool⟩ := h.pool
  refine ⟨⟨ps, kids', hfamily', fun z hz hzombie hne => ?_⟩,
    (hstep.placed h.placed).wakes hwakes hloc₁ hinUse (by rw [hexit.eq]), ?_, ?_,
    h.timers.moves (by rw [hexit.eq]) hinUse hloc₁ hloc.sleep (by simp [Loc.At])⟩
  · by_cases hzc : z = s.curr
    · rw [hzc]
      exact hexit.nil
    · rw [hinit] at hne
      have hkids : kids' z = kids z := hexit.kids z hzc hne
      rw [hkids]
      refine hchildless z (hused ▸ hz) ?_ hne
      obtain ⟨-, hzombie⟩ := hwakes.woken.zombie hzombie
      exact (congrArg RunState.state (Function.update_of_ne hzc _ _)).symm.trans hzombie
  · rw [hused]
    exact (hstep.pool hpool).wakes h.few (fun w hw => ⟨(hexit.woken w hw).1, (hexit.woken w hw).2.1⟩)
      hwakes
  · obtain ⟨qs, hqueue⟩ := h.queues
    have hnone := h.not_blocked_curr hloc
    rw [hwakes.woken.sem]
    refine ⟨qs, hqueue.congr rfl rfl (fun _ _ => rfl) fun p hp => ?_⟩
    have hpc : p ≠ s.curr := by
      rintro rfl
      exact hp hnone
    have hpw : p ∉ ws := by
      intro hm
      obtain ⟨hpU, -, hwait⟩ := hexit.woken p hm
      obtain ⟨-, pid, store, hl⟩ := (h.placed.allows p hpU).waitChild hwait
      exact hp (h.not_blocked hl (by simp))
    simp [hpw, setPcb, hpc]

omit [DecidableEq μ] [DecidableEq ρ] in
/-- **`do_wait`** takes a zombie away. -/
theorem reaped (h : s.Sound) {z : ν} {store : Bool} (hrun : s.sched.pcb s.curr = .running)
    (hloc : (s.loc s.curr).Unqueued) (hz : z ∈ s.used) (hreaped : Reaped s s' z store)
    (hfamily : s'.Family) : s'.Sound := by
  have hzombie : (s.sched.pcb z).state = .zombie := hreaped.zombie
  have hzl : (s.loc z).At .exit := (h.placed.allows z hz).zombie_iff.1 hzombie
  have hzc : s.curr ≠ z := by
    rintro rfl
    rw [hrun] at hzombie
    cases hzombie
  -- the state before the running process returns
  let s₁ : Kernel κ ν μ ρ := { s with
    table := s'.table
    waitStatus :=
      if store then Function.update s.waitStatus s.curr (s.exitCode z) else s.waitStatus
    inUse := Function.update s.inUse z false }
  have hs' : s' = s₁.back := hreaped.eq
  have hused : ∀ p, p ∈ s₁.used ↔ p ∈ s.used ∧ p ≠ z := by
    intro p
    by_cases hp : p = z
    · simp [s₁, used, hp]
    · simp [s₁, used, hp]
  obtain ⟨ps, kids, hfamilyOk, hchildless⟩ := hfamily
  obtain ⟨t, hpool⟩ := h.pool
  have hsound : s₁.Sound := by
    refine ⟨⟨ps, kids, ?_, ?_⟩, ⟨?_, ?_, fun p hp => ?_, fun p hp => ?_, h.placed.here,
      fun p j => ?_, h.placed.idle, h.placed.idle_kernel⟩, ⟨t, hpool.holds, fun p => ?_⟩, h.queues, ?_⟩
    · exact hfamilyOk.congr rfl (by rw [hs']; rfl) (by rw [hs']; rfl) (by rw [hs']; rfl)
    · rw [hs'] at hchildless
      exact hchildless
    · exact (hused _).2 ⟨h.placed.curr_mem, hzc⟩
    · exact (hused _).2 ⟨h.placed.idle_mem, hreaped.ne_idle.symm⟩
    · exact h.placed.allows p ((hused p).1 hp).1
    · exact h.placed.away p ((hused p).1 hp).1
    · rw [hused, h.placed.down]
      refine ⟨fun hp => ⟨⟨hp.1, ?_⟩, hp.2⟩, fun hp => ⟨hp.1.1, hp.2⟩⟩
      rintro rfl
      have := Loc.at_unique hp.2 hzl
      cases this
    · rw [hpool.mem, hused]
      refine ⟨fun hp => ⟨⟨hp.1, ?_⟩, hp.2⟩, fun hp => ⟨hp.1.1, hp.2⟩⟩
      rintro rfl
      have hr : (s.sched.pcb p).state = .runnable := hp.2.1
      rw [hzombie] at hr
      cases hr
    · obtain ⟨K, xs, ys, h1, h2, h3, h4, h5⟩ := h.timers
      refine ⟨K, xs, ys, h1, h2, h3, fun x hx => ?_, fun p hp => h5 p ((hused p).1 hp).1⟩
      obtain ⟨h6, h7, h8⟩ := h4 x hx
      refine ⟨h6, (hused _).2 ⟨h7, ?_⟩, h8⟩
      intro he
      have := Loc.at_unique (he ▸ h8) hzl
      cases this
  rw [hs']
  exact hsound.back hrun hloc

/-- **`do_fork`** fails after it has allocated a structure, which it frees again. -/
theorem unforked (h : s.Sound) {proc : ν} {cloneVm : Bool} {m : ForkMem ν μ ρ}
    (hproc : s.inUse proc = false) (hun : Unforked s s' proc cloneVm m) : s'.Sound := by
  have hp : proc ∉ s.used := not_mem_used hproc
  have hne : ∀ p ∈ s.used, p ≠ proc := fun p hpU he => hp (he ▸ hpU)
  have hinUse := hun.inUse_eq hproc
  have hused := hun.used_eq hproc
  have hsched := hun.sched_eq
  have hloc := hun.loc_eq
  have hcurr := hun.curr_eq
  obtain ⟨ps, kids, hfamily, hchildless⟩ := h.family
  obtain ⟨t, hpool⟩ := h.pool
  obtain ⟨qs, hqueue⟩ := h.queues
  have hpcb : ∀ p ∈ s.used, s'.sched.pcb p = s.sched.pcb p :=
    fun p hpU => hun.pcb_of_ne (hne p hpU)
  have hin : s'.sched.sem.blockedIn = s.sched.sem.blockedIn := by rw [hsched]; rfl
  refine ⟨⟨ps, kids, ⟨?_, ?_, ?_, ?_⟩, fun z hz hzombie hne => ?_⟩,
    h.placed.update hcurr (by rw [hsched]; rfl) hused
      (fun p hpU _ => ⟨congrFun hloc p, hpcb p hpU⟩) ?_ ?_ (fun j => ?_) (fun p _ => congrFun hin p)
      (fun hi => ?_) ?_, ⟨t, ?_⟩, ⟨qs, ?_⟩, ?_⟩
  · rw [hused, hsched]
    have htable : s'.table = (s.table.allocProc proc).setParent proc (some s.curr) := by
      rw [hun.eq]
      rfl
    rw [htable]
    exact hfamily.table.allocProc hp (some s.curr)
  · rw [hused, hun.eq]
    exact hfamily.init_mem
  · have hinit : s.initProc ≠ proc := hne _ hfamily.init_mem
    rw [hun.eq]
    show ((s.table.allocProc proc).setParent proc (some s.curr)).parent s.initProc = _
    simp only [setParent, ProcTable.allocProc, setChild, setYounger, setOlder, setPid,
      Function.update_of_ne hinit]
    exact hfamily.init_parent
  · rw [hun.eq]
    exact hfamily.only_init
  · rw [hused] at hz
    rw [Zombie, hpcb z hz] at hzombie
    rw [hun.eq] at hne
    exact hchildless z hz hzombie hne
  · rw [hloc, hpcb _ h.placed.curr_mem]
    exact h.placed.allows _ h.placed.curr_mem
  · rw [hloc, hpcb _ h.placed.curr_mem]
    exact h.placed.here
  · rw [hin, hloc, h.placed.down]
    exact ⟨fun hj => hj.2, fun hj => ⟨h.placed.curr_mem, hj⟩⟩
  · rw [hloc, hi]
    exact h.placed.idle
  · rw [hun.eq]
    exact h.placed.idle_kernel
  · rw [hsched, hused]
    exact hpool.allocProc hp fun _ _ => Iff.rfl
  · rw [hsched]
    refine hqueue.congr rfl rfl (fun _ _ => rfl) fun p hpb => ?_
    obtain ⟨j, hj⟩ := Option.ne_none_iff_exists'.1 hpb
    have hsame := hpcb p ((h.placed.down p j).1 hj).1
    rwa [hsched] at hsame
  · exact h.timers.congr (by rw [hun.eq]; rfl) hinUse fun p _ => by rw [hloc]

end Sound

omit [DecidableEq μ] [DecidableEq ρ] in
/-- `do_kill` wakes the process `p` if it is in `do_wait` or `do_sleep`. -/
theorem Sound.kill (h : s.Sound) {p : ν} {ws : List ν} {sched : Sched κ ν} (hp : p ∈ s.used)
    (hidle : p ≠ s.sched.idle)
    (hws : ∀ w ∈ ws, w = p ∧ (s.sched.pcb p).waitState &&& waitInt ≠ 0)
    (hw : Wakes ws s.sched sched) : ({ s with sched, flagExit := Function.update s.flagExit p true } :
      Kernel κ ν μ ρ).Sound := by
  refine h.wakes s.sched.sem rfl rfl hw (fun w hww => ?_) rfl rfl rfl rfl rfl
    (h.queues_wakes hw fun w hww hin => ?_) (h.timers.congr rfl rfl fun _ _ => Iff.rfl)
  · rw [(hws w hww).1]
    exact ⟨hp, hidle⟩
  · obtain ⟨rfl, hwait⟩ := hws w hww
    obtain ⟨-, ⟨pid, store, hl⟩ | hl⟩ := (h.placed.allows w hp).waitInt hwait
    · exact absurd (h.not_blocked hl (by simp)) hin
    · exact absurd (h.not_blocked hl (by simp)) hin

omit [DecidableEq μ] [DecidableEq ρ] in
/-- A timer interrupt wakes processes that are in `do_sleep`. -/
theorem Sound.tick (h : s.Sound) {ws : List ν} {timers : Timers ν ν} {sched : Sched κ ν}
    (hws : ∀ w ∈ ws, w ∈ s.used ∧ (s.loc w).At .sleep) (hw : Wakes ws s.sched sched)
    (htimers : ({ s with timers, sched := sched.schedulerProcTick } : Kernel κ ν μ ρ).TimersOk) :
    ({ s with timers, sched := sched.schedulerProcTick } : Kernel κ ν μ ρ).Sound := by
  have hsound : ({ s with timers, sched } : Kernel κ ν μ ρ).Sound := by
    refine h.wakes s.sched.sem rfl rfl hw (fun w hww => ?_) rfl rfl rfl rfl rfl
      (h.queues_wakes hw fun w hww hin => ?_) htimers
    · exact ⟨(hws w hww).1, h.placed.ne_idle_of_at (hws w hww).2 (by simp)⟩
    · exact absurd (h.not_blocked (hws w hww).2 (by simp)) hin
  obtain ⟨htick, -, -, hholds⟩ := sched.schedulerProcTick_eq
  rw [htick]
  exact hsound.queue hholds

/-- `do_fork` creates the process `proc`. -/
theorem Forked.sound {proc : ν} {cloneVm : Bool} {m : ForkMem ν μ ρ} {ret : ℤ}
    (hforked : Forked s s' proc cloneVm m ret) (h : s.Sound) (hproc : s.inUse proc = false)
    (hfamily : s'.Family) : s'.Sound := by
  obtain ⟨t, hpool⟩ := h.pool
  obtain ⟨qs, hqueue⟩ := h.queues
  have hfew : Few s'.used s'.sched.idle := by
    obtain ⟨ps, kids, hok, -⟩ := hfamily
    exact fun l hl hlU => hok.table.few hl hlU
  have hnone : s.sched.sem.blockedIn proc = none := by
    rw [Option.eq_none_iff_forall_ne_some]
    intro j hj
    exact not_mem_used hproc ((h.placed.down proc j).1 hj).1
  exact ⟨hfamily, hforked.placed h.placed hproc,
    hforked.pool hpool hproc h.placed.idle_mem hfew, ⟨qs, hforked.queues hqueue hnone⟩,
    hforked.timers h.timers hproc⟩

/-- **A step keeps the invariant.** -/
theorem Effect.sound (h : s.Sound) (he : Effect s op out s') : s'.Sound := by
  cases he with
  | go hruns hl haway hidle hprio =>
    exact h.moves (hruns.running h.placed) hruns.free.unqueued (Or.inl hl) haway hidle _ _ _ _
      h.placed.idle_kernel
  | execve hcall =>
    exact h.moves (hcall.runs.running h.placed) hcall.runs.free.unqueued (Or.inr rfl) id
      (fun hi => absurd hi (hcall.ne_idle h.placed)) s.sched.queue.needReschedule
      s.sched.queue.priority s.sched.sem.value _ h.placed.idle_kernel
  | @load m ret vm l hl hload hl' =>
    have hne : s.curr ≠ s.sched.idle := h.placed.ne_idle (by simp [hl, Loc.At])
    refine h.moves (h.placed.curr_running (by simp [hl]))
      ⟨by simp [hl, Loc.At], by simp [hl, Loc.At]⟩ ?_ ?_ (fun hi => absurd hi hne)
      s.sched.queue.needReschedule s.sched.queue.priority s.sched.sem.value vm ?_
    · rcases hl' with rfl | rfl <;> exact Or.inl trivial
    · rcases hl' with rfl | rfl <;> exact id
    · show Function.update s.isUser s.curr true s.sched.idle = false
      rw [Function.update_of_ne (Ne.symm hne)]
      exact h.placed.idle_kernel
  | waitNone hround hnone =>
    exact h.back (hround.running h.placed) hround.unqueued
  | @waitBlock op pid store hround hsome hall =>
    have hnone := h.not_blocked_curr hround.unqueued
    refine h.blocks (r := .wait pid store)
      { s.sched.sem with pcb := Function.update s.sched.sem.pcb s.curr _ } s.timers
      (hround.ne_idle h.placed) (Or.inr rfl) rfl (fun _ _ => rfl) (fun j => ?_) rfl
      (h.queues_block hnone) (h.timers.moves rfl rfl rfl hround.unqueued.sleep (by simp [Loc.At]))
    simp [hnone]
  | reap hround hwaits hreaped hfamily =>
    exact h.reaped (hround.running h.placed) hround.unqueued hwaits.1 hreaped hfamily
  | @sleep time timers s' hcall heq htimers =>
    have hnone := h.not_blocked_curr hcall.runs.free.unqueued
    refine h.blocks (r := .sleep)
      { s.sched.sem with pcb := Function.update s.sched.sem.pcb s.curr _ } timers
      (hcall.ne_idle h.placed) (Or.inr rfl) rfl (fun _ _ => rfl) (fun j => ?_) heq
      (h.queues_block hnone) htimers
    simp [hnone]
  | @sleepBack timers s' hl heq htimers =>
    refine h.returns s.sched.sem timers (h.placed.curr_running (by simp [hl])) rfl (fun _ _ => rfl)
      ?_ heq h.queues htimers
    exact h.not_blocked (Or.inr hl) (by simp)
  | @down j sem hl hidle hin hpcb hqueues =>
    refine h.blocks (r := .down j) sem s.timers hidle (Or.inr rfl) hpcb
      (fun p hp => ?_) (fun i => ?_) rfl hqueues
      (h.timers.moves rfl rfl rfl (by simp [hl, Loc.At]) (by simp [Loc.At]))
    · rw [hin, Function.update_of_ne hp]
    · rw [hin, Function.update_self]
      simp
  | @downBack j hl hqueues =>
    refine h.returns
      { s.sched.sem with blockedIn := Function.update s.sched.sem.blockedIn s.curr none } s.timers
      (h.placed.curr_running (by simp [hl])) rfl
      (fun p hp => Function.update_of_ne hp _ _) (Function.update_self _ _ _) rfl hqueues
      (h.timers.moves rfl rfl rfl (by simp [hl, Loc.At]) ?_)
    split_ifs <;> simp [Loc.At]
  | @up j p sem sched hl hidle hfirst hblocked hin hpcb hw hqueues =>
    have hplace := (h.placed.down p j).1 hblocked.1
    have hpi : p ≠ s.sched.idle := h.placed.ne_idle_of_at hplace.2 (by simp)
    have hsound : ({ s with sched } : Kernel κ ν μ ρ).Sound := by
      refine h.wakes sem hpcb hin hw (fun w hww => ?_) rfl rfl rfl rfl rfl hqueues
        (h.timers.congr rfl rfl fun _ _ => Iff.rfl)
      obtain rfl := List.mem_singleton.1 hww
      exact ⟨hplace.1, hpi⟩
    refine hsound.back_of_loc ((congrArg s.loc hw.woken.curr).trans hl) (by simp) ?_
    exact ⟨by simp [Loc.At], by simp [Loc.At]⟩
  | @kill pid p ws sched hcall hp hidle hpid hflag hws hw =>
    refine (h.kill hp hidle (fun w hww => ?_) hw).back_of_loc (congrArg s.loc hw.woken.curr)
      hcall.runs.calling hcall.runs.free.unqueued
    rcases hws with ⟨rfl, hwait⟩ | ⟨rfl, -⟩
    · exact ⟨List.mem_singleton.1 hww, hwait⟩
    · cases hww
  | @tick ws timers sched s₁ s' hws hw hs₁ htimers heq =>
    have hsound₁ : s₁.Sound := by
      subst hs₁
      exact h.tick (fun w hww => ⟨(hws w hww).1, (hws w hww).2.1⟩) hw htimers
    rw [heq]
    by_cases hl : s₁.loc s₁.curr = .user
    · rw [if_pos hl]
      exact hsound₁.back_of_loc hl (by simp) ⟨by simp [Loc.At], by simp [Loc.At]⟩
    · rw [if_neg hl]
      exact hsound₁
  | schedule hr hs => exact h.schedule hr hs
  | exit hrun hloc hvm hfamily hchildless hexit hfamily' =>
    exact h.exited hrun hloc hchildless hexit hfamily'
  | @unfork cloneVm m ret proc s' hcall hproc hun hret =>
    have hsound := h.unforked hproc hun
    have hloc : s'.loc s'.curr = s.loc s.curr := by rw [hun.loc_eq, hun.curr_eq]
    exact hsound.back_of_loc hloc hcall.runs.calling hcall.runs.free.unqueued
  | @fork cloneVm m ret proc s' hcall hproc hforked hfamily =>
    have hne : s.curr ≠ proc := ne_of_unused hproc h.placed.curr_mem
    have hloc : s'.loc s'.curr = s.loc s.curr := by
      rw [hforked.curr_eq, hforked.eq]
      exact Function.update_of_ne hne _ _
    exact (hforked.sound h hproc hfamily).back_of_loc hloc hcall.runs.calling
      hcall.runs.free.unqueued

end Kernel

end GarretOS
