import GarretOS.Proc.WaitRuns

/-!
# Kills

`do_kill` sets `PROC_FLAG_EXIT`, and the process that has been killed tests the flag at the end of
`trap` and when `schedule` returns in `do_wait`.  It does not test it when `schedule` returns at the
end of `trap`: a process that is killed while it is off the processor there, or before it has
started, returns to user mode, where it can block again.

* `Heeds` : where a process that has been killed will test its flag before it can block;
* `Effect.heedful` : a step keeps this for all processes that have been killed, unless it kills a
  process elsewhere;
* `kill_not_lost` : no such process is asleep in an interruptible wait.
-/

namespace GarretOS

open ProcTable Sched

namespace Kernel

variable {κ ν μ ρ : Type} {s s' : Kernel κ ν μ ρ} {op : KernelOp κ ν μ ρ} {out : Outcome ν}
  {p : ν}

/-- The process has called `schedule` in `do_wait` or in `do_sleep`. -/
def Interruptible (s : Kernel κ ν μ ρ) (p : ν) : Prop :=
  (∃ pid store, (s.loc p).At (.wait pid store)) ∨ (s.loc p).At .sleep

/-- The process will test its flag before it can block: it is at the end of `trap`, it is awake in
`do_wait` or `do_sleep`, or it has exited. -/
def Heeds (s : Kernel κ ν μ ρ) (p : ν) : Prop :=
  (p = s.curr ∧ s.loc p = .trapEnd) ∨ (s.loc p).At .exit ∨
    s.Interruptible p ∧ s.sched.pcb p = .running

/-- The user processes that have been killed. -/
def Killed (s : Kernel κ ν μ ρ) (p : ν) : Prop :=
  p ∈ s.used ∧ s.isUser p = true ∧ s.flagExit p = true

/-- All user processes that have been killed will test their flags. -/
def Heedful (s : Kernel κ ν μ ρ) : Prop := ∀ p, s.Killed p → s.Heeds p

/-- A user process is killed by itself, or while it waits in `do_wait` or `do_sleep`, or when it has
exited; and no kernel thread that has been killed becomes a user process. -/
def KillsInTime (s : Kernel κ ν μ ρ) (l : KernelOp κ ν μ ρ × Outcome ν) : Prop :=
  match l.1 with
  | .doKill pid => ∀ p, s.inUse p = true → s.table.pid p = pid → s.isUser p = true →
      s.flagExit p = false → p = s.curr ∨ (s.loc p).At .exit ∨ s.Interruptible p
  | .loadBin _ _ => s.isUser s.curr = false → s.flagExit s.curr = false
  | _ => True

/-- A process that will test its flag is not asleep in an interruptible wait. -/
theorem Heeds.awake (h : s.Heeds p) (hallows : (s.loc p).Allows (s.sched.pcb p)) :
    ¬((s.sched.pcb p).state = .sleeping ∧ (s.sched.pcb p).waitState &&& waitInt ≠ 0) := by
  rintro ⟨hsleep, -⟩
  rcases h with ⟨-, hl⟩ | hl | ⟨-, hrun⟩
  · rw [hl] at hallows
    rw [show s.sched.pcb p = .running from hallows] at hsleep
    cases hsleep
  · rw [hallows.zombie_iff.2 hl] at hsleep
    cases hsleep
  · rw [hrun] at hsleep
    cases hsleep

/-- A user process that runs on has not been killed. -/
theorem Heedful.spared (h : s.Heedful) (hruns : s.Runs) : ¬ s.Killed s.curr := by
  intro hk
  rcases h _ hk with ⟨-, hl⟩ | hl | ⟨⟨pid, store, hl⟩ | hl, -⟩
  · have hflag := hruns.alive hl
    rw [hk.2.2] at hflag
    cases hflag
  · simpa using hruns.free.at_eq hl
  · simpa using hruns.free.at_eq hl
  · simpa using hruns.free.at_eq hl

theorem Heedful.spared_round (h : s.Heedful) {pid : ℤ} {store : Bool}
    (hround : s.Round op pid store) : ¬ s.Killed s.curr := by
  rcases hround with ⟨o, -, -, -, hcall⟩ | ⟨-, -, hflag⟩
  · exact h.spared hcall.runs
  · intro hk
    rw [hk.2.2] at hflag
    cases hflag

/-- **A step of the running process**, which may wake other processes. -/
theorem Heedful.moves (h : s.Heedful) (hcurr : s'.Killed s.curr → s'.Heeds s.curr)
    (hother : ∀ p, p ≠ s.curr → s'.Killed p → s.Killed p ∧ s'.loc p = s.loc p ∧
      (s.sched.pcb p = .running → s'.sched.pcb p = .running)) : s'.Heedful := by
  intro p hk
  by_cases hp : p = s.curr
  · rw [hp] at hk ⊢
    exact hcurr hk
  · obtain ⟨hk', hloc, hrun⟩ := hother p hp hk
    rcases h p hk' with ⟨he, -⟩ | hl | ⟨hl, hr⟩
    · exact absurd he hp
    · exact Or.inr (Or.inl (hloc ▸ hl))
    · refine Or.inr (Or.inr ⟨?_, hrun hr⟩)
      rw [Interruptible, hloc]
      exact hl

variable [DecidableEq ν]

/-- A user process that returns from a kernel function comes to the end of `trap`. -/
theorem back_heeds (hu : s.isUser s.curr = true) : s.back.Heeds s.curr := by
  refine Or.inl ⟨rfl, ?_⟩
  show Function.update s.loc s.curr _ s.curr = _
  rw [Function.update_self, if_pos hu]

/-- The running process returns to the code that has called a kernel function. -/
theorem Heedful.back (h : s.Heedful) : s.back.Heedful :=
  h.moves (fun hk => back_heeds hk.2.1) fun _ hp hk => ⟨hk, back_loc_of_ne hp, id⟩

omit [DecidableEq ν] in
/-- Nobody moves, and who is awake stays awake. -/
theorem Heedful.congr (h : s.Heedful) (hcurr : s'.curr = s.curr)
    (hkilled : ∀ p, s'.Killed p → s.Killed p) (hloc : ∀ p, s.Killed p → s'.loc p = s.loc p)
    (hpcb : ∀ p, s.Killed p → s.sched.pcb p = .running → s'.sched.pcb p = .running) :
    s'.Heedful := by
  intro p hk
  have hk' := hkilled p hk
  rw [Heeds, Interruptible, hcurr, hloc p hk']
  exact (h p hk').imp id (Or.imp id fun hl => ⟨hl.1, hpcb p hk' hl.2⟩)

/-- Who is awake stays awake when processes are woken. -/
theorem running_of_woken {S S' : Sched κ ν} {ws : List ν} (hw : Woken S S' ws)
    (hp : S.pcb p = .running) : S'.pcb p = .running := by
  rw [hw.pcb_eq, hp]
  split_ifs <;> rfl

/-- `do_kill` of the process `p`, after which the running process returns. -/
theorem Heedful.kill (h : s.Heedful) (hs : s.Placed) {ws : List ν} {sched : Sched κ ν}
    (hw : Woken s.sched sched ws) (hp : p ∈ s.used)
    (hws : (s.sched.pcb p).waitState &&& waitInt ≠ 0 → p ∈ ws)
    (hplace : s.isUser p = true → p = s.curr ∨ (s.loc p).At .exit ∨ s.Interruptible p) :
    ({ s with sched, flagExit := Function.update s.flagExit p true } :
      Kernel κ ν μ ρ).back.Heedful := by
  obtain ⟨s₁, hs₁⟩ : ∃ s₁ : Kernel κ ν μ ρ,
    s₁ = { s with sched, flagExit := Function.update s.flagExit p true } := ⟨_, rfl⟩
  have hcurr : s₁.curr = s.curr := by
    rw [hs₁]
    exact hw.curr
  rw [← hs₁]
  intro q hk
  by_cases hqc : q = s₁.curr
  · have hu : s₁.isUser s₁.curr = true := hqc ▸ hk.2.1
    exact hqc ▸ back_heeds hu
  have hloc : s₁.back.loc q = s.loc q := by
    rw [back_loc_of_ne hqc, hs₁]
  have hrun : s.sched.pcb q = .running → s₁.back.sched.pcb q = .running := by
    rw [hs₁]
    exact running_of_woken hw
  rw [Heeds, Interruptible, hloc]
  obtain ⟨hqU, hu, hflag⟩ := hk
  by_cases hqp : q = p
  · subst hqp
    refine Or.inr ((hplace (by rw [hs₁] at hu; exact hu)).resolve_left (hcurr ▸ hqc) |>.imp id
      fun hint => ⟨hint, ?_⟩)
    -- it was asleep and has been woken, or it was awake
    have hwoken : s₁.back.sched.pcb q =
        if q ∈ ws then (s.sched.pcb q).woken else s.sched.pcb q := by
      rw [hs₁]
      exact hw.pcb_eq q
    rw [hwoken]
    have hallows := hs.allows q hp
    rcases hallows.kinds with hr | ⟨hr, -⟩ | ⟨hr, -⟩ | ⟨-, j, hl⟩ | ⟨-, hl⟩
    · rw [hr]
      split_ifs <;> rfl
    · rw [if_pos (hws (by rw [hr]; decide)), RunState.woken_running hallows.eq_running]
    · rw [if_pos (hws (by rw [hr]; decide)), RunState.woken_running hallows.eq_running]
    · rcases hint with ⟨pid, store, hl'⟩ | hl' <;> cases Loc.at_unique hl hl'
    · rcases hint with ⟨pid, store, hl'⟩ | hl' <;> cases Loc.at_unique hl hl'
  · have hk : s.Killed q := by
      rw [hs₁] at hqU hu hflag
      refine ⟨hqU, hu, ?_⟩
      exact (Function.update_of_ne hqp true s.flagExit) ▸ hflag
    rcases h q hk with ⟨he, -⟩ | hl | ⟨hl, hr⟩
    · exact absurd (he.trans hcurr.symm) hqc
    · exact Or.inr (Or.inl hl)
    · exact Or.inr (Or.inr ⟨hl, hrun hr⟩)

/-- `load_bin` succeeds: neither a process that was a user process before nor a kernel thread has
been killed. -/
theorem Heedful.load (h : s.Heedful) (hcurr : s.curr ∈ s.used) (hl : s.loc s.curr = .loading)
    (hguard : s.isUser s.curr = false → s.flagExit s.curr = false) {vm : VmTable ν μ ρ}
    {l : Loc κ} : (({ s with vm, isUser := Function.update s.isUser s.curr true } :
      Kernel κ ν μ ρ).setLoc s.curr l).Heedful := by
  refine h.moves (fun hk => ?_) fun p hp hk => ⟨?_, Function.update_of_ne hp _ _, id⟩
  · have hflag : s.flagExit s.curr = true := hk.2.2
    have hat : ∀ ret, ¬(s.loc s.curr).At ret := by simp [hl, Loc.At]
    by_cases hu : s.isUser s.curr = true
    · rcases h _ ⟨hcurr, hu, hflag⟩ with ⟨-, he⟩ | he | ⟨⟨pid, store, he⟩ | he, -⟩
      · rw [hl] at he
        cases he
      · exact absurd he (hat _)
      · exact absurd he (hat _)
      · exact absurd he (hat _)
    · rw [hguard (by simpa using hu)] at hflag
      cases hflag
  · obtain ⟨hk1, hk2, hk3⟩ := hk
    exact ⟨hk1, (Function.update_of_ne hp true s.isUser) ▸ hk2, hk3⟩

/-- `schedule` changes the place of the running process, which stays in the function that has called
`schedule`. -/
theorem Heedful.schedule (h : s.Heedful) {r : Ret κ} (hr : s.loc s.curr = .calling r)
    {sched : Sched κ ν} (hsem : sched.sem = s.sched.sem) :
    ({ s with sched, loc := Function.update s.loc s.curr (.within r) } :
      Kernel κ ν μ ρ).Heedful := by
  have hat : ∀ p ret, (s.loc p).At ret → (Function.update s.loc s.curr (.within r) p).At ret := by
    intro p ret hl
    by_cases hp : p = s.curr
    · rw [hp, hr] at hl
      rw [hp, Function.update_self]
      simpa [Loc.At] using hl
    · rw [Function.update_of_ne hp]
      exact hl
  intro p hk
  rcases h p hk with ⟨hp, hl⟩ | hl | ⟨hl, hrun⟩
  · rw [hp, hr] at hl
    cases hl
  · exact Or.inr (Or.inl (hat p _ hl))
  · refine Or.inr (Or.inr ⟨?_, ?_⟩)
    · exact hl.imp (Exists.imp fun pid => Exists.imp fun store => hat p _) (hat p _)
    · show sched.pcb p = _
      rw [Sched.pcb, hsem]
      exact hrun

variable [DecidableEq μ] [DecidableEq ρ]

/-- `do_fork` fails. -/
theorem Unforked.heedful {proc : ν} {cloneVm : Bool} {m : ForkMem ν μ ρ}
    (hun : Unforked s s' proc cloneVm m) (h : s.Heedful) (hproc : s.inUse proc = false) :
    s'.Heedful := by
  have hne : ∀ p ∈ s.used, p ≠ proc := fun _ => ne_of_unused hproc
  have hused := hun.used_eq hproc
  refine h.congr ?_ (fun p hk => ?_) (fun p _ => ?_) fun p hk hr => ?_
  · rw [hun.eq]
    rfl
  · have hp : p ∈ s.used := hused ▸ hk.1
    rw [hun.eq] at hk
    refine ⟨hp, hk.2.1, ?_⟩
    exact (Function.update_of_ne (hne p hp) false s.flagExit) ▸ hk.2.2
  · rw [hun.eq]
    rfl
  · exact (hun.pcb_of_ne (hne p hk.1)).trans hr

/-- `do_fork` creates a process that has not been killed. -/
theorem Forked.heedful {proc : ν} {cloneVm : Bool} {m : ForkMem ν μ ρ} {ret : ℤ}
    (hforked : Forked s s' proc cloneVm m ret) (h : s.Heedful) (hproc : s.inUse proc = false) :
    s'.Heedful := by
  have hne : ∀ p, s'.flagExit p = true → p ≠ proc := by
    rintro p hp rfl
    rw [hforked.eq] at hp
    simp at hp
  have hfresh : ∀ p ∈ s.used, p ≠ proc := fun _ => ne_of_unused hproc
  refine h.congr hforked.curr_eq (fun p hk => ?_) (fun p hk => ?_) fun p hk hr => ?_
  · have hpp := hne p hk.2.2
    have hp := hk.1
    rw [hforked.used_eq] at hp
    rw [hforked.eq] at hk
    refine ⟨hp.resolve_left hpp, ?_, ?_⟩
    · exact (Function.update_of_ne hpp (s.isUser s.curr) s.isUser) ▸ hk.2.1
    · exact (Function.update_of_ne hpp false s.flagExit) ▸ hk.2.2
  · rw [hforked.eq]
    exact Function.update_of_ne (hfresh p hk.1) _ _
  · rw [hforked.pcb_of_ne (hfresh p hk.1)]
    exact hr

variable [DecidableEq κ]

/-- **A step keeps the invariant.** -/
theorem Effect.heedful (hs : s.Sound) (h : s.Heedful) (hguard : KillsInTime s (op, out))
    (he : Effect s op out s') : s'.Heedful := by
  cases he with
  | go hruns hl haway hidle hprio =>
    exact h.moves (fun hk => absurd hk (h.spared hruns)) fun p hp hk =>
      ⟨hk, Function.update_of_ne hp _ _, id⟩
  | execve hcall =>
    exact h.moves (fun hk => absurd hk (h.spared hcall.runs)) fun p hp hk =>
      ⟨hk, Function.update_of_ne hp _ _, id⟩
  | load hl hload hl' => exact h.load hs.placed.curr_mem hl hguard
  | waitNone hround hnone => exact h.back
  | @waitBlock op pid store hround hsome hall =>
    exact h.moves (fun hk => absurd hk (h.spared_round hround)) fun p hp hk =>
      ⟨hk, Function.update_of_ne hp _ _, fun hr => (Function.update_of_ne hp _ _).trans hr⟩
  | @reap op pid store z s' hround hwaits hreaped hfamily =>
    have hused : ∀ p, s'.Killed p → s.Killed p := by
      intro p hk
      have hp := (hreaped.mem_used.1 hk.1).1
      rw [hreaped.eq] at hk
      exact ⟨hp, hk.2⟩
    rw [hreaped.eq] at hused ⊢
    exact Heedful.back (h.congr rfl hused (fun _ _ => rfl) fun _ _ hr => hr)
  | @sleep time timers s' hcall heq htimers =>
    subst heq
    exact h.moves (fun hk => absurd hk (h.spared hcall.runs)) fun p hp hk =>
      ⟨hk, Function.update_of_ne hp _ _, fun hr => (Function.update_of_ne hp _ _).trans hr⟩
  | sleepBack hl heq htimers =>
    subst heq
    exact Heedful.back (h.congr rfl (fun _ hk => hk) (fun _ _ => rfl) fun _ _ hr => hr)
  | @down j sem hl hidle hin hpcb hqueues =>
    refine h.moves (fun hk => absurd hk (h.spared (MayCall.runs (Or.inr ⟨hl, hidle⟩)))) fun p hp hk =>
      ⟨hk, Function.update_of_ne hp _ _, fun hr => ?_⟩
    show sem.pcb p = _
    rw [hpcb, Function.update_of_ne hp]
    exact hr
  | @downBack j hl hqueues =>
    exact Heedful.back (h.congr rfl (fun _ hk => hk) (fun _ _ => rfl) fun _ _ hr => hr)
  | @up j p sem sched hl hidle hfirst hblocked hin hpcb hw hqueues =>
    refine Heedful.back (h.congr hw.woken.curr (fun _ hk => hk) (fun _ _ => rfl) fun q _ hr =>
      running_of_woken hw.woken ?_)
    show sem.pcb q = _
    rw [hpcb]
    exact hr
  | @kill pid p ws sched hcall hp hidle hpid hflag hws hw =>
    refine h.kill hs.placed hw.woken hp (fun hwait => ?_) fun hu => hguard p hp hpid hu hflag
    rcases hws with ⟨rfl, -⟩ | ⟨-, hno⟩
    · exact List.mem_singleton_self p
    · exact absurd hno hwait
  | @tick ws timers sched s₁ s' hws hw hs₁ htimers heq =>
    have h₁ : s₁.Heedful := by
      subst hs₁
      refine Heedful.congr h ?_ (fun _ hk => hk) (fun _ _ => rfl) fun q _ hr => ?_
      · exact sched.schedulerProcTick_curr.trans hw.woken.curr
      · exact (sched.schedulerProcTick_pcb q).trans (running_of_woken hw.woken hr)
    rw [heq]
    split_ifs
    · exact h₁.back
    · exact h₁
  | schedule hr hsched =>
    obtain ⟨t, t', -, -, hsw, -⟩ := hs.switched hsched
    exact h.schedule hr hsw.sem
  | exit hrun hloc hvm hfamily hchildless hexit hfamily' =>
    have hloc' : s'.loc = Function.update s.loc s.curr (.calling .exit) := by
      rw [hexit.eq]
      rfl
    refine h.moves (fun _ => Or.inr (Or.inl (Or.inl ?_))) fun p hp hk => ⟨?_, ?_, fun hr => ?_⟩
    · rw [hloc', Function.update_self]
    · rw [hexit.eq] at hk
      exact hk
    · rw [hloc', Function.update_of_ne hp]
    · exact running_of_woken hexit.wakes.woken ((Function.update_of_ne hp _ _).trans hr)
  | unfork hcall hproc hun hret => exact (hun.heedful h hproc).back
  | fork hcall hproc hforked hfamily => exact (hforked.heedful h hproc).back

/-- In the beginning there are no user processes. -/
theorem Heedful.start (h : (kernelSystem κ ν μ ρ).init s) : s.Heedful := by
  obtain ⟨s₀, k, m, idle, hboot, hm, he⟩ := h
  obtain ⟨init, s₂, ret, rfl, hforked, -⟩ := initProcs_forked hboot hm he
  rintro p ⟨-, hu, -⟩
  change s₂.isUser p = true at hu
  rw [hforked.eq] at hu
  change Function.update s₀.isUser init (s₀.isUser idle) p = true at hu
  by_cases hp : p = init
  · rw [hp, Function.update_self, hboot.isUser] at hu
    cases hu
  · rw [Function.update_of_ne hp, hboot.isUser] at hu
    cases hu

end Kernel

open Kernel

/-- **No kill is lost** when user processes are killed in time.  In every state that is reached by
such steps no user process whose flag `PROC_FLAG_EXIT` is set is asleep in an interruptible wait. -/
theorem kill_not_lost {κ ν μ ρ : Type} [DecidableEq κ] [DecidableEq ν] [DecidableEq μ]
    [DecidableEq ρ] {s : Kernel κ ν μ ρ}
    (h : ((kernelSystem κ ν μ ρ).guard KillsInTime).Reachable s) {p : ν} (hp : s.inUse p = true)
    (hu : s.isUser p = true) (hflag : s.flagExit p = true) :
    ¬((s.sched.pcb p).state = .sleeping ∧ (s.sched.pcb p).waitState &&& waitInt ≠ 0) := by
  have hheedful : s.Heedful := by
    refine h.induct (fun s hs => Heedful.start hs) fun s l s' hr ih hl => ?_
    obtain ⟨hguard, hen, k, he⟩ := hl
    have hs := kernel_sound hr.of_guard
    exact (hs.effect hen he).heedful hs ih hguard
  exact (hheedful p ⟨hp, hu, hflag⟩).awake ((kernel_sound h.of_guard).placed.allows p hp)

/-- The steps up to the start of the first user process, 2, which creates the process 3. -/
def userOps : List (KernelOp ℕ ℕ ℕ ℕ) :=
  [.yieldKernel, .schedule, .start, .doFork true (forkMem 2), .doWait 0 none, .schedule, .start,
    .doExecve true, .loadBin ⟨some 2, some 2, true⟩ 1, .doFork false (forkMem 3), .trapEnd]

/-- The process 3 is killed while it sleeps: it wakes up. -/
theorem kill_not_lost_asleep : ∃ s s' : Kernel ℕ ℕ ℕ ℕ,
    (kernelSystem ℕ ℕ ℕ ℕ).step s (.doKill 3, .returned 0 none) s' ∧
      s.sched.pcb 3 = ⟨.sleeping, waitTimer⟩ ∧ s'.flagExit 3 = true ∧
      ¬((s'.sched.pcb 3).state = .sleeping ∧ (s'.sched.pcb 3).waitState &&& waitInt ≠ 0) := by
  -- nobody is killed before
  obtain ⟨s, hs, hasleep, hin, huser, hpid, hloc, hcall, hout⟩ := exists_guarded
    (fun s l => (match l.1 with
      | .doKill _ => false
      | .loadBin _ _ => !s.flagExit s.curr
      | _ => true) = true)
    (userOps ++ [.doYield, .trapEnd, .schedule, .start, .doSleep 5, .schedule, .resume])
    (fun s => s.sched.pcb 3 = ⟨.sleeping, waitTimer⟩ ∧ s.inUse 3 = true ∧ s.isUser 3 = true ∧
      s.table.pid 3 = 3 ∧ s.loc 3 = .within .sleep ∧ s.MayCall ∧
      (exec 20 s (.doKill 3)).toOption.any
        (fun r => r.2 = .returned 0 none ∧ r.1.inUse 3 = true ∧ r.1.isUser 3 = true ∧
          r.1.flagExit 3 = true) = true) (by decide +kernel)
  have hs' : ((kernelSystem ℕ ℕ ℕ ℕ).guard KillsInTime).Reachable s := by
    refine hs.weaken fun s ⟨op, out⟩ hl => ?_
    cases op with
    | doKill pid => cases hl
    | loadBin m ret => exact fun _ => by simpa using hl
    | _ => trivial
  cases he : exec 20 s (.doKill 3) with
  | error e => simp [he, Except.toOption] at hout
  | ok r =>
    obtain ⟨s', out⟩ := r
    obtain ⟨rfl, hin', hu, hflag⟩ : out = .returned 0 none ∧ s'.inUse 3 = true ∧
        s'.isUser 3 = true ∧ s'.flagExit 3 = true := by
      simpa [he, Except.toOption] using hout
    have hstep : (kernelSystem ℕ ℕ ℕ ℕ).step s (.doKill 3, .returned 0 none) s' := ⟨hcall, 20, he⟩
    refine ⟨s, s', hstep, hasleep, hflag, kill_not_lost (hs'.step ⟨?_, hstep⟩) hin' hu hflag⟩
    -- no other process has this pid
    intro p hp hp3 hpu _
    have hsound := kernel_sound hs.of_guard
    obtain ⟨ps, kids, hfamily, -⟩ := hsound.family
    have hmem : ∀ q, s.inUse q = true → s.isUser q = true → q ∈ ps := by
      intro q hq hqu
      refine (hfamily.table.mem q).2 ⟨hq, ?_⟩
      rintro rfl
      rw [hsound.placed.idle_kernel] at hqu
      cases hqu
    obtain rfl := hfamily.table.pid_inj p (hmem p hp hpu) 3 (hmem 3 hin huser) (hp3.trans hpid.symm)
    exact Or.inr (Or.inr (Or.inr (Or.inr hloc)))

/-- The process 3 is killed before it has run: it goes to sleep all the same. -/
theorem kill_lost : ∃ s : Kernel ℕ ℕ ℕ ℕ, (kernelSystem ℕ ℕ ℕ ℕ).Reachable s ∧ s.inUse 3 = true ∧
    s.isUser 3 = true ∧ s.flagExit 3 = true ∧
    (s.sched.pcb 3).state = .sleeping ∧ (s.sched.pcb 3).waitState &&& waitInt ≠ 0 :=
  exists_replayed
    (userOps ++ [.doKill 3, .trapEnd, .doWait 0 none, .schedule, .start, .doSleep 5])
    (fun s => s.inUse 3 = true ∧ s.isUser 3 = true ∧ s.flagExit 3 = true ∧
      (s.sched.pcb 3).state = .sleeping ∧ (s.sched.pcb 3).waitState &&& waitInt ≠ 0)
    (by decide +kernel)

end GarretOS
