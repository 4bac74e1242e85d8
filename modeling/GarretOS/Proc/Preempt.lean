import GarretOS.Proc.SoundRuns

/-!
# Time slices

`stride_enqueue` gives a process `MAX_TIME_SLICE` ticks, and each timer interrupt takes one; at the
last one `stride_proc_tick` asks for `schedule`, which the end of `trap` calls.  What wakes a
process, creates one or changes a priority gives the running process no more ticks.

* `Sched.Sliced` : what calls of `wakeup_proc` do to the time slices;
* `Kernel.Stays` : what the steps other than `schedule` and the timer interrupt do to them;
* `preempted` : the timer interrupts that arrive in user mode between two calls of `schedule`.
-/

namespace GarretOS

open Sched

/-! ### The run queue -/

namespace RunQueue

variable {ν : Type} [DecidableEq ν] {q q' : RunQueue ν} {k : ℕ} {p x : ν}

theorem refill_timeSlice (q : RunQueue ν) (p x : ν) :
    (q.refill p).timeSlice x = q.timeSlice x ∨ x = p ∧ (q.refill p).timeSlice x = maxTimeSlice := by
  unfold refill
  split_ifs
  · by_cases hx : x = p
    · exact Or.inr ⟨hx, by simp [hx]⟩
    · exact Or.inl (Function.update_of_ne hx _ _)
  · exact Or.inl rfl

theorem refill_needReschedule (q : RunQueue ν) (p : ν) :
    (q.refill p).needReschedule = q.needReschedule := by
  unfold refill
  split_ifs <;> rfl

theorem strideEnqueue_slices (h : q.strideEnqueue k p = .ok q') :
    q'.timeSlice = (q.refill p).timeSlice ∧ q'.needReschedule = q.needReschedule := by
  obtain ⟨⟨pool, root⟩, -, h⟩ := bind_eq_ok.1 h
  cases h
  refine ⟨?_, refill_needReschedule _ _⟩
  unfold refill
  split_ifs <;> rfl

theorem strideDequeue_slices (h : q.strideDequeue k p = .ok q') : q'.timeSlice = q.timeSlice := by
  obtain ⟨-, -, h⟩ := bind_eq_ok.1 h
  cases hroot : q.runPool with
  | none =>
    simp only [hroot] at h
    cases h
  | some root =>
    simp only [hroot] at h
    obtain ⟨⟨pool, runPool⟩, -, h⟩ := bind_eq_ok.1 h
    cases h
    rfl

theorem stridePickNext_slices (q : RunQueue ν) : q.stridePickNext.1.timeSlice = q.timeSlice := by
  unfold stridePickNext
  cases q.runPool <;> rfl

/-- A tick takes one from the time slice. -/
theorem strideProcTick_slices (q : RunQueue ν) (p : ν) :
    (q.strideProcTick p).timeSlice = Function.update q.timeSlice p
      (if 0 < q.timeSlice p then q.timeSlice p - 1 else q.timeSlice p) := by
  unfold strideProcTick
  by_cases h0 : 0 < q.timeSlice p
  · simp only [if_pos h0]
    split_ifs <;> rfl
  · simp only [if_neg h0, Function.update_eq_self]
    split_ifs <;> rfl

/-- When nothing is left of the time slice, `schedule` is asked for. -/
theorem strideProcTick_need (q : RunQueue ν) (p : ν) (hp : 0 ≤ q.timeSlice p) :
    (q.strideProcTick p).needReschedule p = true ∨
      1 < q.timeSlice p ∧ (q.strideProcTick p).needReschedule p = q.needReschedule p := by
  unfold strideProcTick
  by_cases h0 : 0 < q.timeSlice p
  · simp only [if_pos h0, Function.update_self]
    split_ifs with h1
    · exact Or.inl (Function.update_self _ _ _)
    · exact Or.inr ⟨by omega, rfl⟩
  · simp only [if_neg h0]
    rw [if_pos (by omega)]
    exact Or.inl (Function.update_self _ _ _)

end RunQueue

namespace Sched

variable {κ ν : Type} {S S₁ S' : Sched κ ν} {k : ℕ} {p : ν} {ws : List ν}

/-- What is left of the time slices after calls of `wakeup_proc`. -/
structure Sliced (S S' : Sched κ ν) : Prop where
  curr : S'.curr = S.curr
  own : S'.queue.timeSlice S.curr = S.queue.timeSlice S.curr
  slice : ∀ p, S'.queue.timeSlice p = S.queue.timeSlice p ∨ S'.queue.timeSlice p = maxTimeSlice
  need : S'.queue.needReschedule = S.queue.needReschedule

theorem Sliced.refl (S : Sched κ ν) : Sliced S S := ⟨rfl, rfl, fun _ => Or.inl rfl, rfl⟩

theorem Sliced.trans (h : Sliced S S₁) (h' : Sliced S₁ S') : Sliced S S' := by
  refine ⟨h'.curr.trans h.curr, ?_, fun p => ?_, h'.need.trans h.need⟩
  · rw [← h.own, ← h.curr, h'.own]
  · rcases h'.slice p with hp | hp
    · rw [hp]
      exact h.slice p
    · exact Or.inr hp

variable [DecidableEq ν]

/-- **`wakeup_proc`** fills the time slice of a process that is not the running one. -/
theorem wakeupProc_sliced (hw : S.wakeupProc k p = .ok S') : Sliced S S' := by
  obtain ⟨-, -, hw⟩ := bind_eq_ok.1 hw
  by_cases hrun : (S.pcb p).state ≠ .runnable
  · simp only [if_pos hrun] at hw
    by_cases hcurr : p ≠ S.curr
    · have hcurr' : p ≠ (S.setPcb p .running).curr := hcurr
      simp only [if_pos hcurr', schedulerEnqueue] at hw
      split_ifs at hw
      · obtain ⟨queue, hq, hw⟩ := bind_eq_ok.1 hw
        cases hw
        obtain ⟨htime, hneed⟩ := RunQueue.strideEnqueue_slices hq
        have hslice : ∀ x, queue.timeSlice x = S.queue.timeSlice x ∨
            x = p ∧ queue.timeSlice x = maxTimeSlice := by
          intro x
          rw [htime]
          exact RunQueue.refill_timeSlice _ p x
        refine ⟨rfl, ?_, fun x => (hslice x).imp id And.right, hneed⟩
        exact (hslice S.curr).resolve_right fun hx => hcurr hx.1.symm
      · cases hw
        exact ⟨rfl, rfl, fun _ => Or.inl rfl, rfl⟩
    · have hcurr' : ¬ p ≠ (S.setPcb p .running).curr := hcurr
      simp only [if_neg hcurr'] at hw
      cases hw
      exact ⟨rfl, rfl, fun _ => Or.inl rfl, rfl⟩
  · simp only [if_neg hrun] at hw
    cases hw
    exact .refl S

theorem Wakes.sliced (h : Wakes ws S S') : Sliced S S' := by
  induction h with
  | nil => exact .refl _
  | cons hw _ ih => exact (wakeupProc_sliced hw).trans ih

/-- What a timer interrupt does to the time slices. -/
structure Ticked (S S' : Sched κ ν) : Prop where
  curr : S'.curr = S.curr
  slice : ∀ p, p ≠ S.curr →
    S'.queue.timeSlice p = S.queue.timeSlice p ∨ S'.queue.timeSlice p = maxTimeSlice
  nonneg : 0 ≤ S'.queue.timeSlice S.curr
  le : S'.queue.timeSlice S.curr ≤ S.queue.timeSlice S.curr
  /-- `schedule` is asked for, or was asked for before, unless the process has ticks left. -/
  need : S'.queue.needReschedule S.curr = true ∨
    S'.queue.needReschedule S.curr = S.queue.needReschedule S.curr ∧
      1 < S.queue.timeSlice S.curr ∧ S'.queue.timeSlice S.curr = S.queue.timeSlice S.curr - 1

/-- **`scheduler_proc_tick`** -/
theorem schedulerProcTick_ticked (S : Sched κ ν) (hpos : 0 ≤ S.queue.timeSlice S.curr) :
    Ticked S S.schedulerProcTick := by
  unfold schedulerProcTick
  split_ifs
  · have htime := RunQueue.strideProcTick_slices S.queue S.curr
    have hcurr : (S.queue.strideProcTick S.curr).timeSlice S.curr =
        if 0 < S.queue.timeSlice S.curr then S.queue.timeSlice S.curr - 1
        else S.queue.timeSlice S.curr := by
      rw [htime, Function.update_self]
    refine ⟨rfl, fun p hp => ?_, ?_, ?_, ?_⟩
    · show (S.queue.strideProcTick S.curr).timeSlice p = _ ∨ _
      rw [htime, Function.update_of_ne hp]
      exact Or.inl rfl
    · show 0 ≤ (S.queue.strideProcTick S.curr).timeSlice S.curr
      rw [hcurr]
      split_ifs <;> omega
    · show (S.queue.strideProcTick S.curr).timeSlice S.curr ≤ _
      rw [hcurr]
      split_ifs <;> omega
    · rcases RunQueue.strideProcTick_need S.queue S.curr hpos with hn | ⟨hlt, hn⟩
      · exact Or.inl hn
      · refine Or.inr ⟨hn, hlt, hcurr.trans (if_pos ?_)⟩
        omega
  · exact ⟨rfl, fun _ _ => Or.inl rfl, hpos, le_rfl, Or.inl (Function.update_self _ _ _)⟩

omit [DecidableEq ν] in
/-- The timers that expire wake processes first. -/
theorem Sliced.ticked (h : Sliced S S₁) (h' : Ticked S₁ S') : Ticked S S' := by
  have hcurr := h.curr
  have hown := h.own
  refine ⟨h'.curr.trans hcurr, fun p hp => ?_, ?_, ?_, ?_⟩
  · rcases h'.slice p (hcurr ▸ hp) with ht | ht
    · rw [ht]
      exact h.slice p
    · exact Or.inr ht
  · rw [← hcurr]
    exact h'.nonneg
  · rw [← hown, ← hcurr]
    exact h'.le
  · rw [← hown, ← h.need, ← hcurr]
    exact h'.need

/-- `schedule` fills time slices, and changes them in no other way. -/
theorem schedule_slices (hs : S.schedule k = .ok S') (p : ν) :
    S'.queue.timeSlice p = S.queue.timeSlice p ∨ S'.queue.timeSlice p = maxTimeSlice := by
  obtain ⟨S₁, h₁, hs⟩ := bind_eq_ok.1 hs
  have hslice : S₁.queue.timeSlice p = S.queue.timeSlice p ∨
      S₁.queue.timeSlice p = maxTimeSlice := by
    split_ifs at h₁
    · unfold schedulerEnqueue at h₁
      split_ifs at h₁
      · obtain ⟨queue, hq, h₁⟩ := bind_eq_ok.1 h₁
        cases h₁
        show queue.timeSlice p = _ ∨ queue.timeSlice p = _
        rw [(RunQueue.strideEnqueue_slices hq).1]
        exact (RunQueue.refill_timeSlice _ _ p).imp id And.right
      · cases h₁
        exact Or.inl rfl
    · cases h₁
      exact Or.inl rfl
  have hpick := RunQueue.stridePickNext_slices S₁.queue
  obtain ⟨⟨queue, next⟩, hp⟩ : ∃ r, S₁.queue.stridePickNext = r := ⟨_, rfl⟩
  rw [hp] at hpick
  simp only [hp] at hs
  rw [← hpick] at hslice
  cases next with
  | none =>
    cases hs
    exact hslice
  | some next =>
    obtain ⟨queue', hq, hs⟩ := bind_eq_ok.1 hs
    cases hs
    show queue'.timeSlice p = _ ∨ queue'.timeSlice p = _
    rw [RunQueue.strideDequeue_slices hq]
    exact hslice

end Sched

/-! ### The steps -/

namespace Kernel

variable {κ ν μ ρ : Type} {s s₁ s' : Kernel κ ν μ ρ} {k c : ℕ} {op : KernelOp κ ν μ ρ}
  {out : Outcome ν} {p : ν}

/-- A process that is in user mode, or that returns there, is a user process. -/
def Home (s : Kernel κ ν μ ρ) (p : ν) : Prop :=
  s.loc p = .user ∨ s.loc p = .trapEnd ∨ (s.loc p).At .trap → s.isUser p = true

theorem Home.congr (h : s.Home p) (hloc : s'.loc p = s.loc p) (huser : s'.isUser p = s.isUser p) :
    s'.Home p := by
  rw [Home, hloc, huser]
  exact h

theorem Home.newborn (hloc : s'.loc p = .newborn) : s'.Home p := by
  simp [Home, hloc, Loc.At]

/-- A step of the running process that gives it no ticks. -/
structure Stays (s s' : Kernel κ ν μ ρ) : Prop where
  curr : s'.curr = s.curr
  own : s'.sched.queue.timeSlice s.curr = s.sched.queue.timeSlice s.curr
  slice : ∀ p ∈ s'.used, p ∈ s.used ∧ s'.sched.queue.timeSlice p = s.sched.queue.timeSlice p ∨
    s'.sched.queue.timeSlice p = 0 ∨ s'.sched.queue.timeSlice p = maxTimeSlice
  other : ∀ p ∈ s'.used, p ≠ s.curr →
    (p ∈ s.used ∧ s'.loc p = s.loc p ∧ s'.isUser p = s.isUser p) ∨ s'.loc p = .newborn

theorem Stays.of_sliced (hw : Sliced s.sched s'.sched) (hused : ∀ p ∈ s'.used, p ∈ s.used)
    (hother : ∀ p, p ≠ s.curr → s'.loc p = s.loc p ∧ s'.isUser p = s.isUser p) : Stays s s' :=
  ⟨hw.curr, hw.own, fun p hp => (hw.slice p).imp (fun h => ⟨hused p hp, h⟩) Or.inr,
    fun p hp hne => Or.inl ⟨hused p hp, hother p hne⟩⟩

/-- As `of_sliced`, for a step after which the time slices are as before. -/
theorem Stays.of_eq (hcurr : s'.curr = s.curr)
    (htime : s'.sched.queue.timeSlice = s.sched.queue.timeSlice)
    (hused : ∀ p ∈ s'.used, p ∈ s.used)
    (hother : ∀ p, p ≠ s.curr → s'.loc p = s.loc p ∧ s'.isUser p = s.isUser p) : Stays s s' :=
  ⟨hcurr, congrFun htime _, fun p hp => Or.inl ⟨hused p hp, congrFun htime p⟩,
    fun p hp hne => Or.inl ⟨hused p hp, hother p hne⟩⟩

variable [DecidableEq ν]

/-- The running process returns to the code that has called a kernel function. -/
theorem Stays.back (h : Stays s s') : Stays s s'.back := by
  refine ⟨h.curr, h.own, h.slice, fun p hp hne => ?_⟩
  have hloc : s'.back.loc p = s'.loc p := back_loc_of_ne (by rwa [h.curr])
  rw [hloc]
  exact h.other p hp hne

theorem back_home (s : Kernel κ ν μ ρ) : s.back.Home s.back.curr := by
  have hloc : s.back.loc s.back.curr = if s.isUser s.curr then .trapEnd else .kernel :=
    Function.update_self _ _ _
  intro h
  by_cases hu : s.isUser s.curr
  · exact hu
  · rw [hloc, if_neg hu] at h
    simp [Loc.At] at h

theorem setLoc_home {l : Loc κ}
    (h : l = .user ∨ l = .trapEnd ∨ l.At .trap → s.isUser s.curr = true) :
    (s.setLoc s.curr l).Home s.curr := by
  have hloc : (s.setLoc s.curr l).loc s.curr = l := Function.update_self _ _ _
  rw [Home, hloc]
  exact h

variable [DecidableEq κ] [DecidableEq μ] [DecidableEq ρ]

omit [DecidableEq κ] in
/-- A process that is given back takes its time slice with it. -/
theorem Unforked.stays {proc : ν} {cloneVm : Bool} {m : ForkMem ν μ ρ}
    (hun : Unforked s s' proc cloneVm m) (hproc : s.inUse proc = false) (hcurr : s.curr ∈ s.used) :
    Stays s s' := by
  have hused := hun.used_eq hproc
  have htime : ∀ p ∈ s.used, s'.sched.queue.timeSlice p = s.sched.queue.timeSlice p := by
    intro p hp
    rw [hun.sched_eq]
    exact Function.update_of_ne (ne_of_unused hproc hp) _ _
  refine ⟨hun.curr_eq, htime _ hcurr, fun p hp => ?_, fun p hp hpc => ?_⟩
  · rw [hused] at hp
    exact Or.inl ⟨hp, htime p hp⟩
  · rw [hused] at hp
    refine Or.inl ⟨hp, congrFun hun.loc_eq p, ?_⟩
    rw [hun.eq]
    rfl

omit [DecidableEq κ] in
/-- A new process has the time slice that `wakeup_proc` gives it. -/
theorem Forked.stays {proc : ν} {cloneVm : Bool} {m : ForkMem ν μ ρ} {ret : ℤ}
    (hforked : Forked s s' proc cloneVm m ret) (hproc : s.inUse proc = false)
    (hcurr : s.curr ∈ s.used) : Stays s s' := by
  have hne : ∀ p ∈ s.used, p ≠ proc := fun _ => ne_of_unused hproc
  have hw := hforked.wakes.sliced
  have hold : ∀ p ∈ s.used, (s.sched.allocProc proc).queue.timeSlice p =
      s.sched.queue.timeSlice p := fun p hp => Function.update_of_ne (hne p hp) _ _
  refine ⟨hw.curr, hw.own.trans (hold _ hcurr), fun p hp => ?_, fun p hp hpc => ?_⟩
  · rcases hw.slice p with ht | ht
    · rw [hforked.used_eq] at hp
      rcases hp with rfl | hp
      · exact Or.inr (Or.inl (ht.trans (Function.update_self _ _ _)))
      · exact Or.inl ⟨hp, ht.trans (hold p hp)⟩
    · exact Or.inr (Or.inr ht)
  · rw [hforked.used_eq] at hp
    rw [hforked.eq]
    rcases hp with rfl | hp
    · exact Or.inr (Function.update_self _ _ _)
    · exact Or.inl ⟨hp, Function.update_of_ne (hne p hp) _ _,
        Function.update_of_ne (hne p hp) _ _⟩

/-- **What the steps do to the time slices** that are neither `schedule` nor a timer interrupt. -/
theorem Effect.stays (hs : s.Sound) (he : Effect s op out s') (hsched : op ≠ .schedule)
    (htick : op ≠ .tick) : Stays s s' := by
  cases he with
  | go hruns hl haway hidle hprio =>
    exact .of_eq rfl rfl (fun _ hp => hp) fun p hp => ⟨Function.update_of_ne hp _ _, rfl⟩
  | execve hcall =>
    exact .of_eq rfl rfl (fun _ hp => hp) fun p hp => ⟨Function.update_of_ne hp _ _, rfl⟩
  | load hl hload hl' =>
    exact .of_eq rfl rfl (fun _ hp => hp) fun p hp =>
      ⟨Function.update_of_ne hp _ _, Function.update_of_ne hp _ _⟩
  | waitNone hround hnone =>
    refine Stays.back ?_
    exact .of_eq rfl rfl (fun _ hp => hp) fun p _ => ⟨rfl, rfl⟩
  | waitBlock hround hsome hall =>
    exact .of_eq rfl rfl (fun _ hp => hp) fun p hp => ⟨Function.update_of_ne hp _ _, rfl⟩
  | reap hround hwaits hreaped hfamily =>
    have hused : ∀ p ∈ s'.used, p ∈ s.used := fun p hp => (hreaped.mem_used.1 hp).1
    rw [hreaped.eq] at hused ⊢
    refine Stays.back ?_
    exact .of_eq rfl rfl hused fun p _ => ⟨rfl, rfl⟩
  | sleep hcall heq htimers =>
    subst heq
    exact .of_eq rfl rfl (fun _ hp => hp) fun p hp => ⟨Function.update_of_ne hp _ _, rfl⟩
  | sleepBack hl heq htimers =>
    subst heq
    refine Stays.back ?_
    exact .of_eq rfl rfl (fun _ hp => hp) fun p _ => ⟨rfl, rfl⟩
  | down hl hidle hin hpcb hqueues =>
    exact .of_eq rfl rfl (fun _ hp => hp) fun p hp => ⟨Function.update_of_ne hp _ _, rfl⟩
  | downBack hl hqueues =>
    refine Stays.back ?_
    exact .of_eq rfl rfl (fun _ hp => hp) fun p _ => ⟨rfl, rfl⟩
  | up hl hidle hfirst hblocked hin hpcb hw hqueues =>
    -- waking fills the time slices of other processes, not that of the running one
    have hw' := hw.sliced
    refine Stays.back ?_
    exact .of_sliced ⟨hw'.curr, hw'.own, hw'.slice, hw'.need⟩ (fun _ hp => hp) fun p _ => ⟨rfl, rfl⟩
  | kill hcall hp hidle hpid hflag hws hw =>
    refine Stays.back ?_
    exact .of_sliced hw.sliced (fun _ hp => hp) fun p _ => ⟨rfl, rfl⟩
  | tick => exact absurd rfl htick
  | schedule => exact absurd rfl hsched
  | exit hrun hloc hvm hfamily hchildless hexit hfamily' =>
    have hw := hexit.wakes.sliced
    have hfields : s'.loc = Function.update s.loc s.curr (.calling .exit) ∧
        s'.isUser = s.isUser ∧ s'.inUse = s.inUse := by
      rw [hexit.eq]
      exact ⟨rfl, rfl, rfl⟩
    obtain ⟨hloc', huser, hinUse⟩ := hfields
    refine .of_sliced ⟨hw.curr, hw.own, hw.slice, hw.need⟩ (fun p hp => ?_) fun p hp => ⟨?_, ?_⟩
    · rw [used, hinUse] at hp
      exact hp
    · rw [hloc', Function.update_of_ne hp]
    · rw [huser]
  | @unfork cloneVm m ret proc s' hcall hproc hun hret =>
    exact (hun.stays hproc hs.placed.curr_mem).back
  | @fork cloneVm m ret proc s' hcall hproc hforked hfamily =>
    exact (hforked.stays hproc hs.placed.curr_mem).back

/-! ### Where the running process goes -/

omit [DecidableEq κ] [DecidableEq μ] [DecidableEq ρ] in
/-- A place from which a process does not return to user mode at once. -/
theorem setLoc_home_calling {ret : Ret κ} (hret : ret ≠ .trap) :
    (s.setLoc s.curr (.calling ret)).Home s.curr :=
  setLoc_home fun h => by simp [Loc.At, hret] at h

omit [DecidableEq κ] in
/-- `do_exit` ends with a call of `schedule`. -/
theorem doExit_calling {errno : ℤ} (he : s.doExit k errno = .ok s') :
    ∃ s₁ : Kernel κ ν μ ρ, s' = s₁.setLoc s₁.curr (.calling .exit) := by
  unfold doExit at he
  split_ifs at he
  · cases he
  · obtain ⟨parent, -, he⟩ := bind_eq_ok.1 he
    obtain ⟨s₁, -, he⟩ := bind_eq_ok.1 he
    obtain ⟨s₂, -, he⟩ := bind_eq_ok.1 he
    cases he
    exact ⟨s₂, rfl⟩

omit [DecidableEq κ] in
theorem doExit_home {errno : ℤ} (he : s.doExit k errno = .ok s') : s'.Home s'.curr := by
  obtain ⟨s₁, rfl⟩ := doExit_calling he
  exact setLoc_home_calling (by simp)

omit [DecidableEq κ] [DecidableEq μ] [DecidableEq ρ] in
theorem waitRound_home {pid : ℤ} {store : Bool} (he : s.waitRound k pid store = .ok (s', out)) :
    s'.Home s'.curr := by
  obtain ⟨⟨hasChild, zombie⟩, -, he⟩ := bind_eq_ok.1 he
  cases zombie with
  | some z =>
    obtain ⟨s₁, -, he⟩ := bind_eq_ok.1 he
    cases he
    exact back_home s₁
  | none =>
    cases hasChild with
    | true =>
      cases he
      exact setLoc_home_calling (by simp)
    | false =>
      cases he
      exact back_home s

theorem resume_home {r : Ret κ} (hl : s.loc s.curr = .within r) (h : s.Home s.curr)
    (he : s.resume k r = .ok (s', out)) : s'.Home s'.curr := by
  cases r with
  | trap =>
    cases he
    exact setLoc_home fun _ => h (Or.inr (Or.inr (Or.inr hl)))
  | kernel =>
    cases he
    exact setLoc_home fun hn => by simp [Loc.At] at hn
  | wait pid store =>
    unfold resume at he
    split_ifs at he
    · obtain ⟨s₁, hexit, he⟩ := bind_eq_ok.1 he
      cases he
      exact doExit_home hexit
    · exact waitRound_home he
  | sleep =>
    obtain ⟨timers, -, he⟩ := bind_eq_ok.1 he
    cases he
    exact back_home _
  | down sem =>
    obtain ⟨sched, -, he⟩ := bind_eq_ok.1 he
    cases he
    exact back_home _
  | exit => cases he

omit [DecidableEq κ] in
theorem trapEnd_home (hl : s.loc s.curr = .trapEnd) (h : s.Home s.curr)
    (he : s.trapEnd k = .ok s') : s'.Home s'.curr := by
  have hu := h (Or.inr (Or.inl hl))
  unfold Kernel.trapEnd at he
  split_ifs at he
  · exact doExit_home he
  · cases he
    exact setLoc_home fun _ => hu
  · cases he
    exact setLoc_home fun _ => hu

omit [DecidableEq κ] in
theorem loadBin_home {m : VmMem μ ρ} {ret : ℤ} (he : s.loadBin k m ret = .ok (s', out)) :
    s'.Home s'.curr := by
  obtain ⟨⟨vm, loaded⟩, -, he⟩ := bind_eq_ok.1 he
  cases loaded with
  | true =>
    cases he
    exact fun _ => Function.update_self _ _ _
  | false =>
    obtain ⟨s₁, hexit, he⟩ := bind_eq_ok.1 he
    cases he
    exact doExit_home hexit

/-- **The running process returns to user mode** only if it is a user process. -/
theorem exec_home (hen : s.Enabled op) (h : s.Home s.curr) (he : exec k s op = .ok (s', out))
    (hsched : op ≠ .schedule) (htick : op ≠ .tick) : s'.Home s'.curr := by
  cases op with
  | schedule => exact absurd rfl hsched
  | tick => exact absurd rfl htick
  | resume =>
    obtain ⟨r, hr⟩ := hen
    simp only [exec, hr] at he
    exact resume_home hr h he
  | start =>
    cases he
    refine setLoc_home fun hl => ?_
    by_cases hu : s.isUser s.curr
    · exact hu
    · rw [if_neg hu] at hl
      simp [Loc.At] at hl
  | trapEnd =>
    obtain ⟨s₁, hend, he⟩ := bind_eq_ok.1 he
    cases he
    exact trapEnd_home hen h hend
  | trap =>
    cases he
    exact back_home s
  | yieldKernel =>
    cases he
    exact setLoc_home_calling (by simp)
  | doYield =>
    cases he
    exact back_home _
  | setPriority priority =>
    cases he
    exact back_home _
  | doKill pid =>
    obtain ⟨⟨s₁, ret⟩, -, he⟩ := bind_eq_ok.1 he
    cases he
    exact back_home s₁
  | doFork cloneVm m =>
    obtain ⟨⟨s₁, ret⟩, -, he⟩ := bind_eq_ok.1 he
    cases he
    exact back_home s₁
  | doWait pid store =>
    have he' : s.doWait k pid store = .ok (s', out) := he
    unfold doWait at he'
    split_ifs at he'
    · cases he'
      exact back_home s
    · exact waitRound_home he'
  | doSleep time =>
    have he' : s.doSleep k time = .ok (s', out) := he
    unfold doSleep at he'
    split_ifs at he'
    · cases he'
      exact back_home s
    · obtain ⟨timers, -, he'⟩ := bind_eq_ok.1 he'
      cases he'
      exact setLoc_home_calling (by simp)
  | doExit errno =>
    obtain ⟨s₁, hexit, he⟩ := bind_eq_ok.1 he
    cases he
    exact doExit_home hexit
  | doExecve valid =>
    cases valid with
    | true =>
      cases he
      exact setLoc_home fun hn => by simp [Loc.At] at hn
    | false =>
      cases he
      exact back_home s
  | loadBin m ret => exact loadBin_home he
  | down sem =>
    obtain ⟨⟨sched, granted⟩, -, he⟩ := bind_eq_ok.1 he
    cases granted with
    | true =>
      cases he
      exact back_home _
    | false =>
      cases he
      exact setLoc_home_calling (by simp)
  | up sem =>
    obtain ⟨sched, -, he⟩ := bind_eq_ok.1 he
    cases he
    exact back_home _

/-! ### The invariant -/

/-- The number of timer interrupts from user mode since `schedule` was entered last. -/
def userTicks (s : Kernel κ ν μ ρ) (op : KernelOp κ ν μ ρ) (c : ℕ) : ℕ :=
  match op with
  | .schedule => 0
  | .tick => if s.loc s.curr = .user then c + 1 else c
  | _ => c

/-- The running process is about to call `schedule`. -/
def Leaves (s : Kernel κ ν μ ρ) : Prop :=
  (∃ ret, s.loc s.curr = .calling ret) ∨
    s.loc s.curr = .trapEnd ∧ s.sched.queue.needReschedule s.curr = true

/-- After `c` timer interrupts from user mode. -/
structure Metered (s : Kernel κ ν μ ρ) (c : ℕ) : Prop where
  slice : ∀ p ∈ s.used, 0 ≤ s.sched.queue.timeSlice p ∧ s.sched.queue.timeSlice p ≤ maxTimeSlice
  home : ∀ p ∈ s.used, s.Home p
  few : c ≤ maxTimeSlice
  /-- The ticks that the running process has left, of which it has at least one. -/
  left : s.Leaves ∨ c + max (s.sched.queue.timeSlice s.curr) 1 ≤ maxTimeSlice

omit [DecidableEq κ] [DecidableEq μ] [DecidableEq ρ] in
/-- A step that gives the running process no ticks. -/
theorem Metered.stays (h : s.Metered c) (hst : Stays s s') (hcurr : s'.Home s'.curr)
    (hleft : s'.Leaves ∨ ¬ s.Leaves) : s'.Metered c := by
  refine ⟨fun p hp => ?_, fun p hp => ?_, h.few, ?_⟩
  · rcases hst.slice p hp with ⟨hpU, ht⟩ | ht | ht
    · rw [ht]
      exact h.slice p hpU
    · rw [ht]
      decide
    · rw [ht]
      decide
  · by_cases hpc : p = s'.curr
    · rw [hpc]
      exact hcurr
    · rw [hst.curr] at hpc
      rcases hst.other p hp hpc with ⟨hpU, hloc, huser⟩ | hl
      · exact (h.home p hpU).congr hloc huser
      · exact .newborn hl
  · rcases hleft with hl | hl
    · exact Or.inl hl
    · rw [hst.curr, hst.own]
      exact Or.inr (h.left.resolve_left hl)

/-- A process that is about to call `schedule` takes no other steps, apart from timer interrupts. -/
theorem Leaves.step (h : s.Leaves) (hen : s.Enabled op) (he : exec k s op = .ok (s', out))
    (hsched : op ≠ .schedule) (htick : op ≠ .tick) : s'.Leaves := by
  have hl : ∀ l, l = Loc.user ∨ l = .kernel ∨ l = .newborn ∨ l = .loading ∨ (∃ r, l = .within r) →
      s.loc s.curr ≠ l := by
    rintro l hl rfl
    rcases h with ⟨r, hr⟩ | ⟨hr, -⟩
    all_goals
      rw [hr] at hl
      simp at hl
  have hcall : ¬ s.MayCall := by
    rintro (hc | ⟨hc, -⟩)
    · exact hl _ (by simp) hc
    · exact hl _ (by simp) hc
  cases op with
  | schedule => exact absurd rfl hsched
  | tick => exact absurd rfl htick
  | trapEnd =>
    have htrap : s.loc s.curr = .trapEnd := hen
    obtain ⟨s₁, hend, he⟩ := bind_eq_ok.1 he
    cases he
    rcases h with ⟨r, hr⟩ | ⟨-, hneed⟩
    · rw [htrap] at hr
      cases hr
    have hgo : ∀ (s₂ : Kernel κ ν μ ρ) r, (s₂.setLoc s₂.curr (.calling r)).Leaves := fun s₂ r =>
      Or.inl ⟨r, Function.update_self _ _ _⟩
    unfold Kernel.trapEnd at hend
    split_ifs at hend
    · obtain ⟨s₂, rfl⟩ := doExit_calling hend
      exact hgo s₂ .exit
    · cases hend
      exact hgo s .trap
  | resume =>
    obtain ⟨r, hr⟩ := hen
    exact absurd hr (hl _ (by simp))
  | start => exact absurd hen (hl _ (by simp))
  | trap => exact absurd hen (hl _ (by simp))
  | yieldKernel => exact absurd hen (hl _ (by simp))
  | doYield => exact absurd hen hcall
  | setPriority priority => exact absurd hen hcall
  | doKill pid => exact absurd hen hcall
  | doFork cloneVm m => exact absurd hen.1 hcall
  | doWait pid store => exact absurd hen hcall
  | doSleep time => exact absurd hen hcall
  | doExit errno => exact absurd hen hcall
  | doExecve valid => exact absurd hen hcall
  | loadBin m ret => exact absurd hen.1 (hl _ (by simp))
  | down sem => exact absurd hen.1 (hl _ (by simp))
  | up sem => exact absurd hen.1 (hl _ (by simp))

omit [DecidableEq μ] [DecidableEq ρ] in
/-- `schedule` begins to count again. -/
theorem Metered.schedule (h : s.Metered c) (hs' : s'.Sound) {r : Ret κ} {sched : Sched κ ν}
    (hr : s.loc s.curr = .calling r) (hsched : s.sched.schedule k = .ok sched)
    (heq : s' = { s with sched, loc := Function.update s.loc s.curr (.within r) }) :
    s'.Metered 0 := by
  have hslice : ∀ p ∈ s.used, 0 ≤ sched.queue.timeSlice p ∧
      sched.queue.timeSlice p ≤ maxTimeSlice := by
    intro p hp
    rcases schedule_slices hsched p with ht | ht
    · rw [ht]
      exact h.slice p hp
    · rw [ht]
      decide
  have hcurr := hs'.placed.curr_mem
  subst heq
  refine ⟨hslice, fun p hp => ?_, by decide, Or.inr ?_⟩
  · have hhome := h.home p hp
    by_cases hpc : p = s.curr
    · subst hpc
      intro hl
      have hloc : Function.update s.loc s.curr (.within r) s.curr = .within r :=
        Function.update_self _ _ _
      change Function.update s.loc s.curr (.within r) s.curr = _ ∨
        Function.update s.loc s.curr (.within r) s.curr = _ ∨
        (Function.update s.loc s.curr (.within r) s.curr).At .trap at hl
      rw [hloc] at hl
      refine hhome (Or.inr (Or.inr (Or.inl ?_)))
      rw [hr]
      simpa [Loc.At] using hl
    · exact hhome.congr (Function.update_of_ne hpc _ _) rfl
  · have hle := (hslice _ hcurr).2
    have hone : (1 : ℤ) ≤ maxTimeSlice := by decide
    rw [Nat.cast_zero, zero_add]
    exact max_le hle hone

omit [DecidableEq κ] [DecidableEq μ] [DecidableEq ρ] in
/-- The part of a timer interrupt that comes before the end of `trap`. -/
theorem Metered.ticked (h : s.Metered c) (hw : Ticked s.sched s₁.sched)
    (hloc : s₁.loc = s.loc) (huser : s₁.isUser = s.isUser) (hused : s₁.used = s.used) :
    (∀ p ∈ s₁.used, 0 ≤ s₁.sched.queue.timeSlice p ∧ s₁.sched.queue.timeSlice p ≤ maxTimeSlice) ∧
      ∀ p ∈ s₁.used, s₁.Home p := by
  refine ⟨fun p hp => ?_, fun p hp => ?_⟩
  · rw [hused] at hp
    by_cases hpc : p = s.curr
    · subst hpc
      exact ⟨hw.nonneg, hw.le.trans (h.slice _ hp).2⟩
    · rcases hw.slice p hpc with ht | ht
      · rw [ht]
        exact h.slice p hp
      · rw [ht]
        decide
  · exact (h.home p (hused ▸ hp)).congr (congrFun hloc p) (congrFun huser p)

omit [DecidableEq μ] [DecidableEq ρ] in
/-- **A timer interrupt** takes a tick, and at the last one the running process leaves. -/
theorem Metered.tick (h : s.Metered c) (hs : s.curr ∈ s.used) (hw : Ticked s.sched s₁.sched)
    (hloc : s₁.loc = s.loc) (huser : s₁.isUser = s.isUser) (hused : s₁.used = s.used)
    (hs' : s' = if s₁.loc s₁.curr = .user then s₁.back else s₁) :
    s'.Metered (if s.loc s.curr = .user then c + 1 else c) := by
  obtain ⟨hslice, hhome⟩ := h.ticked hw hloc huser hused
  have hcurr : s₁.curr = s.curr := hw.curr
  have hneed := hw.need
  have hle : s₁.sched.queue.timeSlice s.curr ≤ s.sched.queue.timeSlice s.curr := hw.le
  rw [hloc, hcurr] at hs'
  by_cases hu : s.loc s.curr = .user
  · rw [if_pos hu] at hs' ⊢
    subst hs'
    have hleft := h.left.resolve_left fun hl => by
      rcases hl with ⟨r, hr⟩ | ⟨hr, -⟩
      · rw [hu] at hr
        cases hr
      · rw [hu] at hr
        cases hr
    have hone := le_max_right (s.sched.queue.timeSlice s.curr) 1
    refine ⟨hslice, fun p hp => ?_, by push_cast; omega, ?_⟩
    · by_cases hpc : p = s₁.curr
      · rw [hpc]
        exact back_home s₁
      · exact (hhome p hp).congr (back_loc_of_ne hpc) rfl
    · have hend : s₁.back.loc s₁.curr = .trapEnd := by
        refine (Function.update_self _ _ _).trans (if_pos ?_)
        rw [huser, hcurr]
        exact h.home _ hs (Or.inl hu)
      rcases hneed with hn | ⟨-, hlt, ht⟩
      · refine Or.inl (Or.inr ⟨hend, ?_⟩)
        show s₁.sched.queue.needReschedule s₁.curr = true
        rw [hcurr]
        exact hn
      · refine Or.inr ?_
        show ((c + 1 : ℕ) : ℤ) + max (s₁.sched.queue.timeSlice s₁.curr) 1 ≤ maxTimeSlice
        rw [hcurr, show s₁.sched.queue.timeSlice s.curr = _ from ht]
        change 1 < s.sched.queue.timeSlice s.curr at hlt
        change _ + max (s.sched.queue.timeSlice s.curr - 1) 1 ≤ _
        push_cast
        omega
  · rw [if_neg hu] at hs' ⊢
    subst hs'
    refine ⟨hslice, hhome, h.few, ?_⟩
    rcases h.left with (⟨r, hr⟩ | ⟨hr, hn⟩) | hleft
    · refine Or.inl (Or.inl ⟨r, ?_⟩)
      rw [hloc, hcurr]
      exact hr
    · refine Or.inl (Or.inr ⟨?_, ?_⟩)
      · rw [hloc, hcurr]
        exact hr
      · rw [hcurr]
        rcases hneed with hn' | ⟨hn', -⟩
        · exact hn'
        · exact hn'.trans hn
    · rw [hcurr]
      exact Or.inr (by omega)

/-- **What one step does**. -/
theorem Metered.step (h : s.Metered c) (hs : s.Sound) (hs' : s'.Sound) (hen : s.Enabled op)
    (he : exec k s op = .ok (s', out)) : s'.Metered (s.userTicks op c) := by
  by_cases hsched : op = .schedule
  · subst hsched
    obtain ⟨r, hr⟩ := hen
    simp only [exec, hr] at he
    obtain ⟨sched, hsched, he⟩ := bind_eq_ok.1 he
    exact h.schedule hs' hr hsched (Prod.mk.inj (Except.ok.inj he)).1.symm
  by_cases htick : op = .tick
  · subst htick
    obtain ⟨s₁, hrun, he⟩ := bind_eq_ok.1 he
    cases he
    obtain ⟨⟨timers, sched⟩, htick, hs₁⟩ := bind_eq_ok.1 hrun
    cases hs₁
    obtain ⟨K, xs, ys, h1, h2, h3, -⟩ := hs.timers
    obtain ⟨xs', -, -, -, -, S₁, hfire, rfl⟩ := h1.tick_ok h2 h3 htick
    have hsl := (Sound.wakes_of_fire hfire).sliced
    have hpos : 0 ≤ S₁.queue.timeSlice S₁.curr := by
      rw [hsl.curr, hsl.own]
      exact (h.slice _ hs.placed.curr_mem).1
    have hticked : Ticked s.sched
        ({ s with timers, sched := S₁.schedulerProcTick } : Kernel κ ν μ ρ).sched :=
      hsl.ticked (schedulerProcTick_ticked S₁ hpos)
    exact h.tick hs.placed.curr_mem hticked rfl rfl rfl rfl
  have hc : s.userTicks op c = c := by
    cases op with
    | schedule => exact absurd rfl hsched
    | tick => exact absurd rfl htick
    | _ => rfl
  rw [hc]
  refine h.stays ((hs.effect hen he).stays hs hsched htick)
    (exec_home hen (h.home _ hs.placed.curr_mem) he hsched htick) ?_
  by_cases hl : s.Leaves
  · exact Or.inl (hl.step hen he hsched htick)
  · exact Or.inr hl

/-- In the beginning the idle process runs, and `init` has not started. -/
theorem Metered.start (h : (kernelSystem κ ν μ ρ).init s) : s.Metered 0 := by
  obtain ⟨s₀, k, m, idle, hboot, hm, he⟩ := h
  obtain ⟨init, s₂, ret, rfl, hforked, -⟩ := initProcs_forked hboot hm he
  have hw := hforked.wakes.sliced
  have hne : init ≠ idle := hm init hforked.fresh
  have hused : ∀ p ∈ s₂.used, p = init ∨ p = idle := by
    intro p hp
    rw [hforked.used_eq] at hp
    exact hp.imp id ((initIdle_alone idle hboot).used p).1
  -- both have been allocated with no time slice
  have hzero : ∀ p ∈ s₂.used, ((initIdle idle s₀).sched.allocProc init).queue.timeSlice p = 0 := by
    intro p hp
    rcases hused p hp with rfl | rfl
    · exact Function.update_self _ _ _
    · exact (Function.update_of_ne hne.symm _ _).trans (Function.update_self _ _ _)
  have hslice : ∀ p ∈ s₂.used, 0 ≤ s₂.sched.queue.timeSlice p ∧
      s₂.sched.queue.timeSlice p ≤ maxTimeSlice := by
    intro p hp
    rcases hw.slice p with ht | ht
    · rw [ht, hzero p hp]
      decide
    · rw [ht]
      decide
  have hcurr : s₂.curr = idle := hforked.curr_eq
  have hidle : idle ∈ s₂.used := by
    rw [hforked.used_eq]
    exact Or.inr (((initIdle_alone idle hboot).used idle).2 rfl)
  refine ⟨hslice, fun p hp => ?_, by decide, Or.inr ?_⟩
  · have hp' : p ∈ s₂.used := hp
    have hloc : s₂.loc p = Function.update s₀.loc init .newborn p := by
      rw [hforked.eq]
      rfl
    have hloc' : s₂.loc p = .newborn ∨ s₂.loc p = .kernel := by
      by_cases hpi : p = init
      · rw [hloc, hpi, Function.update_self]
        exact Or.inl rfl
      · rw [hloc, Function.update_of_ne hpi, hboot.loc]
        exact Or.inr rfl
    intro hl
    change s₂.loc p = _ ∨ s₂.loc p = _ ∨ (s₂.loc p).At .trap at hl
    rcases hloc' with hk | hk
    · rw [hk] at hl
      simp [Loc.At] at hl
    · rw [hk] at hl
      simp [Loc.At] at hl
  · have hle := (hslice s₂.curr (hcurr ▸ hidle)).2
    have hone : (1 : ℤ) ≤ maxTimeSlice := by decide
    rw [Nat.cast_zero, zero_add]
    exact max_le hle hone

/-- The kernel, together with the number of timer interrupts from user mode since `schedule` was
entered last. -/
def timedSystem (κ ν μ ρ : Type) [DecidableEq κ] [DecidableEq ν] [DecidableEq μ]
    [DecidableEq ρ] : System (Kernel κ ν μ ρ × ℕ) (KernelOp κ ν μ ρ × Outcome ν) where
  init t := (kernelSystem κ ν μ ρ).init t.1 ∧ t.2 = 0
  step t l t' := (kernelSystem κ ν μ ρ).step t.1 l t'.1 ∧ t'.2 = t.1.userTicks l.1 t.2

/-- The count takes part in no step. -/
theorem timed_sound {t : Kernel κ ν μ ρ × ℕ} (h : (timedSystem κ ν μ ρ).Reachable t) :
    (kernelSystem κ ν μ ρ).Reachable t.1 ∧ t.1.Metered t.2 := by
  refine h.invariant (I := fun t => (kernelSystem κ ν μ ρ).Reachable t.1 ∧ t.1.Metered t.2)
    (fun t ht => ⟨.start ht.1, ?_⟩) fun t l t' hi hl => ?_
  · rw [ht.2]
    exact .start ht.1
  · obtain ⟨hr, hm⟩ := hi
    obtain ⟨hstep, hcount⟩ := hl
    have hr' := hr.step hstep
    obtain ⟨hen, k, he⟩ := hstep
    rw [hcount]
    exact ⟨hr', hm.step (kernel_sound hr) (kernel_sound hr') hen he⟩

end Kernel

open Kernel

/-- **Preemption.**  In every run of the kernel at most `MAX_TIME_SLICE` timer interrupts arrive in
user mode between two calls of `schedule`, whatever system calls, wakeups, new processes and changes
of priority come between them; after that many the running process does not return to user mode
before it has called `schedule`.  No time slice ever exceeds `MAX_TIME_SLICE`. -/
theorem preempted {κ ν μ ρ : Type} [DecidableEq κ] [DecidableEq ν] [DecidableEq μ] [DecidableEq ρ]
    {s : Kernel κ ν μ ρ} {c : ℕ} (h : (timedSystem κ ν μ ρ).Reachable (s, c)) :
    c ≤ maxTimeSlice ∧ (s.loc s.curr = .user → c < maxTimeSlice) ∧
      ∀ p, s.inUse p = true →
        0 ≤ s.sched.queue.timeSlice p ∧ s.sched.queue.timeSlice p ≤ maxTimeSlice := by
  obtain ⟨-, hm⟩ := timed_sound h
  refine ⟨hm.few, fun hu => ?_, fun p hp => hm.slice p hp⟩
  rcases hm.left with (⟨r, hr⟩ | ⟨hr, -⟩) | hleft
  · rw [hu] at hr
    cases hr
  · rw [hu] at hr
    cases hr
  · have hone := le_max_right (s.sched.queue.timeSlice s.curr) 1
    change _ + max (s.sched.queue.timeSlice s.curr) 1 ≤ maxTimeSlice at hleft
    omega

/-- The state after the steps `ops`, and the count. -/
def Kernel.replayTimed : List (KernelOp ℕ ℕ ℕ ℕ) → Kernel ℕ ℕ ℕ ℕ → ℕ →
    Option (Kernel ℕ ℕ ℕ ℕ × ℕ)
  | [], s, c => some (s, c)
  | op :: ops, s, c =>
    if s.Enabled op then
      match exec 20 s op with
      | .ok (s', _) => replayTimed ops s' (s.userTicks op c)
      | .error _ => none
    else none

theorem Kernel.replayTimed_reachable {ops : List (KernelOp ℕ ℕ ℕ ℕ)} {s : Kernel ℕ ℕ ℕ ℕ} {c : ℕ}
    {t : Kernel ℕ ℕ ℕ ℕ × ℕ} (hs : (timedSystem ℕ ℕ ℕ ℕ).Reachable (s, c))
    (h : replayTimed ops s c = some t) : (timedSystem ℕ ℕ ℕ ℕ).Reachable t := by
  induction ops generalizing s c with
  | nil =>
    cases h
    exact hs
  | cons op ops ih =>
    rw [replayTimed] at h
    split_ifs at h with hen
    cases he : exec 20 s op with
    | error e => simp [he] at h
    | ok r =>
      obtain ⟨s₁, out⟩ := r
      simp only [he] at h
      exact ih (hs.step (l := (op, out)) ⟨⟨hen, 20, he⟩, rfl⟩) h

/-- The state and the count after `init_proc` and the steps `ops`; process 2 is the first user
process. -/
def Kernel.timed (ops : List (KernelOp ℕ ℕ ℕ ℕ)) : Option (Kernel ℕ ℕ ℕ ℕ × ℕ) :=
  match initProcs 20 (forkMem 1) 0 blank with
  | .ok s => replayTimed ([.yieldKernel, .schedule, .start, .doFork true (forkMem 2),
      .doWait 0 none, .schedule, .start, .doExecve true, .loadBin ⟨some 2, some 2, true⟩ 1] ++ ops)
      s 0
  | .error _ => none

theorem Kernel.timed_reachable {ops : List (KernelOp ℕ ℕ ℕ ℕ)} {t : Kernel ℕ ℕ ℕ ℕ × ℕ}
    (h : timed ops = some t) : (timedSystem ℕ ℕ ℕ ℕ).Reachable t := by
  unfold timed at h
  cases hi : initProcs 20 (forkMem 1) 0 blank with
  | error e => simp [hi] at h
  | ok s =>
    simp only [hi] at h
    refine replayTimed_reachable (.start ⟨⟨blank, 20, forkMem 1, 0, blank_boot, ?_, hi⟩, rfl⟩) h
    rintro proc hp rfl
    cases hp

/-- The first user process is in user mode again after four timer interrupts: one more may come. -/
theorem preempted_user : ∃ s : Kernel ℕ ℕ ℕ ℕ, s.loc s.curr = .user ∧
    s.sched.queue.timeSlice s.curr = 1 ∧ (4 : ℕ) < maxTimeSlice := by
  have hrun : (timed [.tick, .trapEnd, .tick, .trapEnd, .tick, .trapEnd, .tick, .trapEnd]).any
      (fun t => t.1.loc t.1.curr = .user ∧ t.1.sched.queue.timeSlice t.1.curr = 1 ∧ t.2 = 4) =
        true := by
    decide +kernel
  obtain ⟨⟨s, c⟩, hs, hP⟩ := (Option.any_eq_true _ _).1 hrun
  obtain ⟨hu, hslice, rfl⟩ := of_decide_eq_true hP
  exact ⟨s, hu, hslice, (preempted (timed_reachable hs)).2.1 hu⟩

end GarretOS
