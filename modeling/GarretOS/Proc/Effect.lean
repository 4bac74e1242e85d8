import GarretOS.Proc.Sound

/-!
# What the steps do

`Effect s op out s'` lists the kinds of steps from a state `s`, each with what it changes.  What a
step keeps is proved from it, and no proof looks at the functions of the kernel again.

* `Sound.effect` : every step of a kernel for which the invariant holds has an effect.
-/

namespace GarretOS

open ProcTable Sched Countdown

namespace Kernel

variable {κ ν μ ρ : Type} [DecidableEq κ] [DecidableEq ν] [DecidableEq μ] [DecidableEq ρ]
  {s s' : Kernel κ ν μ ρ} {k : ℕ} {op : KernelOp κ ν μ ρ} {out : Outcome ν}

/-- The running process runs on: it is not in one of the functions that call `schedule`, and a user
process that has been killed is not at the end of `trap`. -/
structure Runs (s : Kernel κ ν μ ρ) : Prop where
  free : (s.loc s.curr).Free
  calling : ∀ r, s.loc s.curr ≠ .calling r
  alive : s.loc s.curr = .trapEnd → s.flagExit s.curr = false

/-- The step is a round of `do_wait` with the argument `pid`; `store` says whether its argument
`exit_code` is not `NULL`. -/
def Round (s : Kernel κ ν μ ρ) (op : KernelOp κ ν μ ρ) (pid : ℤ) (store : Bool) : Prop :=
  (∃ o, op = .doWait pid o ∧ o ≠ some false ∧ o.isSome = store ∧ s.MayCall) ∨
    op = .resume ∧ s.loc s.curr = .within (.wait pid store) ∧ s.flagExit s.curr = false

/-- The process whose state `up` changes, if there is one. -/
def UpWakes (s : Kernel κ ν μ ρ) (sem : κ) (p : ν) : Prop := s.sched.sem.waitQueueFirst sem = some p

/-- The kinds of steps. -/
inductive Effect (s : Kernel κ ν μ ρ) : KernelOp κ ν μ ρ → Outcome ν → Kernel κ ν μ ρ → Prop
  /-- The running process goes on at `l`. -/
  | go {op : KernelOp κ ν μ ρ} {out : Outcome ν} {l : Loc κ} {need : ν → Bool} {prio : ν → ℕ}
      {value : κ → ℤ} : s.Runs → l.Free → ¬ l.Away →
      (s.curr = s.sched.idle → l = .kernel ∨ l.At .kernel) →
      (∀ p, prio p = s.sched.queue.priority p ∨ 0 < prio p ∧ prio p < 2 ^ 32) →
      (∀ pid store, ¬ s.Round op pid store) → (∀ ret z, out ≠ .returned ret (some z)) →
      Effect s op out { s with
        sched := { s.sched with
          sem := { s.sched.sem with value }
          queue := { s.sched.queue with needReschedule := need, priority := prio } }
        loc := Function.update s.loc s.curr l }
  /-- `do_execve` gives up the address space. -/
  | execve : s.MayCall → Effect s (.doExecve true) .none (({ s with
      vm := s.vm.leaveVmm s.curr } : Kernel κ ν μ ρ).setLoc s.curr .loading)
  /-- `load_bin` succeeds. -/
  | load {m : VmMem μ ρ} {ret : ℤ} {vm : VmTable ν μ ρ} {l : Loc κ} : s.loc s.curr = .loading →
      s.vm.loadBin s.curr m = .ok (vm, true) → (l = .trapEnd ∨ l = .user) →
      Effect s (.loadBin m ret) (.returned 0 none) (({ s with
        vm
        isUser := Function.update s.isUser s.curr true } : Kernel κ ν μ ρ).setLoc s.curr l)
  /-- `do_wait` finds no child to wait for. -/
  | waitNone {op : KernelOp κ ν μ ρ} {pid : ℤ} {store : Bool} : s.Round op pid store →
      (∀ c, ¬ s.WaitsFor s.curr pid c) → Effect s op (.returned (-eBadProc) none) s.back
  /-- `do_wait` blocks. -/
  | waitBlock {op : KernelOp κ ν μ ρ} {pid : ℤ} {store : Bool} : s.Round op pid store →
      (∃ c, s.WaitsFor s.curr pid c) → (∀ c, s.WaitsFor s.curr pid c → ¬ s.Zombie c) →
      Effect s op .none (({ s with sched := s.sched.setPcb s.curr ⟨.sleeping, waitChild⟩ } :
        Kernel κ ν μ ρ).setLoc s.curr (.calling (.wait pid store)))
  /-- `do_wait` reaps the zombie `z`. -/
  | reap {op : KernelOp κ ν μ ρ} {pid : ℤ} {store : Bool} {z : ν} {s' : Kernel κ ν μ ρ} :
      s.Round op pid store → s.WaitsFor s.curr pid z → Reaped s s' z store → s'.Family →
      Effect s op (.returned 0 (some z)) s'
  /-- `do_sleep` blocks. -/
  | sleep {time : ℕ} {timers : Timers ν ν} {s' : Kernel κ ν μ ρ} : s.MayCall →
      s' = (({ s with sched := s.sched.setPcb s.curr ⟨.sleeping, waitTimer⟩, timers } :
        Kernel κ ν μ ρ).setLoc s.curr (.calling .sleep)) → s'.TimersOk →
      Effect s (.doSleep time) .none s'
  /-- `do_sleep` returns. -/
  | sleepBack {timers : Timers ν ν} {s' : Kernel κ ν μ ρ} : s.loc s.curr = .within .sleep →
      s' = ({ s with timers } : Kernel κ ν μ ρ).back → s'.TimersOk →
      Effect s .resume (.returned 0 none) s'
  /-- `down` blocks. -/
  | down {k : κ} {sem : SemState κ ν} : s.loc s.curr = .kernel → s.curr ≠ s.sched.idle →
      sem.blockedIn = Function.update s.sched.sem.blockedIn s.curr (some k) →
      sem.pcb = Function.update s.sched.sem.pcb s.curr ⟨.sleeping, waitSem⟩ →
      (∃ qs, sem.QueueOk qs) →
      Effect s (.down k) .none (({ s with sched := { s.sched with sem } } :
        Kernel κ ν μ ρ).setLoc s.curr (.calling (.down k)))
  /-- `down` returns after `schedule`. -/
  | downBack {k : κ} : s.loc s.curr = .within (.down k) →
      (∃ qs, ({ s.sched.sem with
        blockedIn := Function.update s.sched.sem.blockedIn s.curr none } :
        SemState κ ν).QueueOk qs) →
      Effect s .resume .none ({ s with sched := { s.sched with sem := { s.sched.sem with
        blockedIn := Function.update s.sched.sem.blockedIn s.curr none } } } :
        Kernel κ ν μ ρ).back
  /-- `up` wakes the first process of the queue. -/
  | up {k : κ} {p : ν} {sem : SemState κ ν} {sched : Sched κ ν} : s.loc s.curr = .kernel →
      s.curr ≠ s.sched.idle → s.UpWakes k p → s.sched.sem.Blocked p k →
      sem.blockedIn = s.sched.sem.blockedIn → sem.pcb = s.sched.sem.pcb →
      Wakes [p] { s.sched with sem } sched → (∃ qs, sched.sem.QueueOk qs) →
      Effect s (.up k) .none ({ s with sched } : Kernel κ ν μ ρ).back
  /-- `do_kill` sets the flag of the process `p`, and wakes it if it is in an interruptible wait. -/
  | kill {pid : ℤ} {p : ν} {ws : List ν} {sched : Sched κ ν} : s.MayCall → p ∈ s.used →
      p ≠ s.sched.idle → s.table.pid p = pid → s.flagExit p = false →
      (ws = [p] ∧ (s.sched.pcb p).waitState &&& waitInt ≠ 0 ∨
        ws = [] ∧ (s.sched.pcb p).waitState &&& waitInt = 0) → Wakes ws s.sched sched →
      Effect s (.doKill pid) (.returned 0 none) ({ s with
        sched, flagExit := Function.update s.flagExit p true } : Kernel κ ν μ ρ).back
  /-- A timer interrupt wakes the processes `ws` whose timers expire. -/
  | tick {ws : List ν} {timers : Timers ν ν} {sched : Sched κ ν} {s₁ s' : Kernel κ ν μ ρ} :
      (∀ p ∈ ws, p ∈ s.used ∧ (s.loc p).At .sleep ∧
        ∃ K xs, Timers.TimerList s.timers K xs ∧ ((p, p), 1) ∈ xs) →
      Wakes ws s.sched sched → s₁ = { s with timers, sched := sched.schedulerProcTick } →
      s₁.TimersOk → s' = (if s₁.loc s₁.curr = .user then s₁.back else s₁) →
      Effect s .tick .none s'
  /-- `schedule` switches to another process. -/
  | schedule {r : Ret κ} {k : ℕ} {sched : Sched κ ν} : s.loc s.curr = .calling r →
      s.sched.schedule k = .ok sched →
      Effect s .schedule .none { s with
        sched
        loc := Function.update s.loc s.curr (.within r) }
  /-- `do_exit` -/
  | exit {op : KernelOp κ ν μ ρ} {vm : VmTable ν μ ρ} {errno : ℤ} {ps ws : List ν}
      {kids kids' : ν → List ν} {s' : Kernel κ ν μ ρ} :
      s.sched.pcb s.curr = .running → (s.loc s.curr).Unqueued →
      (vm = s.vm ∧ s.loc s.curr ≠ .loading ∨ ∃ m ret, op = .loadBin m ret ∧
        s.loc s.curr = .loading ∧ s.vm.loadBin s.curr m = .ok (vm, false)) →
      s.FamilyOk ps kids → (∀ z ∈ s.used, s.Zombie z → z ≠ s.initProc → kids z = []) →
      Exited { s with vm } s' errno kids ws kids' → s'.FamilyOk ps kids' → Effect s op .none s'
  /-- `do_fork` fails after it has allocated the structure `proc`. -/
  | unfork {cloneVm : Bool} {m : ForkMem ν μ ρ} {ret : ℤ} {proc : ν} {s' : Kernel κ ν μ ρ} :
      s.MayCall → s.inUse proc = false → Unforked s s' proc cloneVm m → ret < 0 →
      Effect s (.doFork cloneVm m) (.returned ret none) s'.back
  /-- `do_fork` creates the process `proc`. -/
  | fork {cloneVm : Bool} {m : ForkMem ν μ ρ} {ret : ℤ} {proc : ν} {s' : Kernel κ ν μ ρ} :
      s.MayCall → s.inUse proc = false → Forked s s' proc cloneVm m ret → s'.Family →
      Effect s (.doFork cloneVm m) (.returned ret none) s'.back

omit [DecidableEq κ] [DecidableEq μ] [DecidableEq ρ] in
theorem back_loc_of_ne {p : ν} (hp : p ≠ s.curr) : s.back.loc p = s.loc p :=
  Function.update_of_ne hp _ _

omit [DecidableEq κ] [DecidableEq ν] [DecidableEq μ] [DecidableEq ρ] in
theorem MayCall.runs (h : s.MayCall) : s.Runs := by
  rcases h with h | ⟨h, -⟩
  · exact ⟨by simp [h, Loc.Free], by simp [h], by simp [h]⟩
  · exact ⟨by simp [h, Loc.Free], by simp [h], by simp [h]⟩

omit [DecidableEq κ] [DecidableEq ν] [DecidableEq μ] [DecidableEq ρ] in
theorem MayCall.ne_idle (h : s.MayCall) (hp : s.Placed) : s.curr ≠ s.sched.idle := by
  rcases h with h | ⟨-, h⟩
  · exact hp.ne_idle (by simp [h, Loc.At])
  · exact h

omit [DecidableEq κ] [DecidableEq ν] [DecidableEq μ] [DecidableEq ρ] in
theorem Runs.running (h : s.Runs) (hp : s.Placed) : s.sched.pcb s.curr = .running :=
  hp.curr_running h.calling

omit [DecidableEq κ] [DecidableEq ν] [DecidableEq μ] [DecidableEq ρ] in
theorem Round.running {pid : ℤ} {store : Bool} (h : s.Round op pid store) (hp : s.Placed) :
    s.sched.pcb s.curr = .running := by
  rcases h with ⟨-, -, -, -, hcall⟩ | ⟨-, hl, -⟩
  · exact hcall.runs.running hp
  · exact hp.curr_running (by simp [hl])

omit [DecidableEq κ] [DecidableEq ν] [DecidableEq μ] [DecidableEq ρ] in
theorem Round.unqueued {pid : ℤ} {store : Bool} (h : s.Round op pid store) :
    (s.loc s.curr).Unqueued := by
  rcases h with ⟨-, -, -, -, hcall⟩ | ⟨-, hl, -⟩
  · exact hcall.runs.free.unqueued
  · exact ⟨by simp [hl, Loc.At], by simp [hl, Loc.At]⟩

omit [DecidableEq κ] [DecidableEq ν] [DecidableEq μ] [DecidableEq ρ] in
theorem Round.ne_idle {pid : ℤ} {store : Bool} (h : s.Round op pid store) (hp : s.Placed) :
    s.curr ≠ s.sched.idle := by
  rcases h with ⟨-, -, -, -, hcall⟩ | ⟨-, hl, -⟩
  · exact hcall.ne_idle hp
  · exact hp.ne_idle (by simp [hl, Loc.At])

namespace Sound

/-- The running process returns to the code that has called a kernel function, with these
changes. -/
theorem effect_back (h : s.Sound) (hruns : s.Runs) (need : ν → Bool) (prio : ν → ℕ) (value : κ → ℤ)
    (hprio : ∀ p, prio p = s.sched.queue.priority p ∨ 0 < prio p ∧ prio p < 2 ^ 32)
    (hround : ∀ pid store, ¬ s.Round op pid store) (hout : ∀ ret z, out ≠ .returned ret (some z)) :
    Effect s op out ({ s with
      sched := { s.sched with
        sem := { s.sched.sem with value }
        queue := { s.sched.queue with needReschedule := need, priority := prio } } } :
      Kernel κ ν μ ρ).back := by
  refine Effect.go hruns ?_ ?_ (fun hidle => Or.inl ?_) hprio hround hout
  · show (if s.isUser s.curr then Loc.trapEnd else Loc.kernel).Free
    split_ifs <;> trivial
  · show ¬(if s.isUser s.curr then Loc.trapEnd else Loc.kernel).Away
    split_ifs <;> exact not_false
  · show (if s.isUser s.curr then Loc.trapEnd else Loc.kernel) = .kernel
    rw [hidle, h.placed.idle_kernel]
    rfl

/-- Nothing changes but the place of the running process. -/
theorem effect_go (hruns : s.Runs) {l : Loc κ} (hfree : l.Free) (haway : ¬ l.Away)
    (hidle : s.curr = s.sched.idle → l = .kernel ∨ l.At .kernel)
    (hround : ∀ pid store, ¬ s.Round op pid store) (hout : ∀ ret z, out ≠ .returned ret (some z)) :
    Effect s op out (s.setLoc s.curr l) :=
  show Effect s op out { s with
      sched := { s.sched with
        sem := { s.sched.sem with value := s.sched.sem.value }
        queue := { s.sched.queue with
          needReschedule := s.sched.queue.needReschedule
          priority := s.sched.queue.priority } }
      loc := Function.update s.loc s.curr l } from
    .go hruns hfree haway hidle (fun _ => Or.inl rfl) hround hout

theorem effect_doExit (h : s.Sound) (hrun : s.sched.pcb s.curr = .running)
    (hloc : (s.loc s.curr).Unqueued) {errno : ℤ} (vm : VmTable ν μ ρ)
    (hvm : vm = s.vm ∧ s.loc s.curr ≠ .loading ∨ ∃ m ret, op = .loadBin m ret ∧
      s.loc s.curr = .loading ∧ s.vm.loadBin s.curr m = .ok (vm, false))
    (he : ({ s with vm } : Kernel κ ν μ ρ).doExit k errno = .ok s') : Effect s op .none s' := by
  obtain ⟨ps, kids, hfamily, hchildless⟩ := h.family
  have hfamily' : ({ s with vm } : Kernel κ ν μ ρ).FamilyOk ps kids :=
    hfamily.congr rfl rfl rfl rfl
  have hwait : (s.sched.pcb s.sched.idle).waitState ≠ waitChild := by
    rw [h.placed.idle_running]
    decide
  obtain ⟨ws, kids', hexit, hok⟩ := hfamily'.doExit h.placed.curr_mem hwait he
  exact .exit hrun hloc hvm hfamily hchildless hexit hok

/-- A round of `do_wait`. -/
theorem effect_round (h : s.Sound) {pid : ℤ} {store : Bool} (hround : s.Round op pid store)
    (he : s.waitRound k pid store = .ok (s', out)) : Effect s op out s' := by
  obtain ⟨ps, kids, hfamily, hchildless⟩ := h.family
  rcases hfamily.waitRound h.placed.curr_mem hchildless he with
    ⟨z, rfl, hwaits, hreaped, hfamily'⟩ | ⟨rfl, hsome, hall, rfl⟩ | ⟨rfl, hnone, rfl⟩
  · refine .reap hround hwaits hreaped ⟨_, _, hfamily', fun y hy hzombie hne => ?_⟩
    have hy' := hreaped.mem_used.1 hy
    have hzombie' : s.Zombie y := by
      rw [hreaped.eq] at hzombie
      exact hzombie
    have hne' : y ≠ s.initProc := by
      rw [hreaped.eq] at hne
      exact hne
    have hyc : y ≠ s.curr := by
      rintro rfl
      rw [Zombie, hround.running h.placed] at hzombie'
      cases hzombie'
    rw [Function.update_of_ne hyc]
    exact hchildless y hy'.1 hzombie' hne'
  · exact .waitBlock hround hsome hall
  · exact .waitNone hround hnone

/-- A kernel function fails, or has nothing to do. -/
theorem effect_fail (h : s.Sound) (hruns : s.Runs) (hround : ∀ pid store, ¬ s.Round op pid store)
    (hout : ∀ ret z, out ≠ .returned ret (some z)) : Effect s op out s.back :=
  h.effect_back hruns s.sched.queue.needReschedule s.sched.queue.priority s.sched.sem.value
    (fun _ => Or.inl rfl) hround hout

theorem effect_doWait (h : s.Sound) (hcall : s.MayCall) {pid : ℤ} {store : Option Bool}
    (he : s.doWait k pid store = .ok (s', out)) : Effect s (.doWait pid store) out s' := by
  unfold doWait at he
  split_ifs at he with hstore
  · cases he
    refine h.effect_fail hcall.runs ?_ (by simp)
    rintro pid' store' (⟨o, ho, hne, -⟩ | ⟨ho, -⟩)
    · cases ho
      exact hne hstore
    · cases ho
  · exact h.effect_round (Or.inl ⟨store, rfl, hstore, rfl, hcall⟩) he

theorem effect_doKill (h : s.Sound) (hcall : s.MayCall) {pid : ℤ}
    (he : exec k s (.doKill pid) = .ok (s', out)) : Effect s (.doKill pid) out s' := by
  have hround : ∀ p store, ¬ s.Round (.doKill pid) p store := by
    rintro p store (⟨o, ho, -⟩ | ⟨ho, -⟩) <;> cases ho
  obtain ⟨⟨s₁, ret⟩, hkill, he⟩ := bind_eq_ok.1 he
  cases he
  obtain ⟨o, hget, hkill⟩ := bind_eq_ok.1 hkill
  obtain ⟨ps, kids, hfamily, -⟩ := h.family
  cases o with
  | none =>
    cases hkill
    exact h.effect_fail hcall.runs hround (by simp)
  | some p =>
    obtain ⟨hp, hpid⟩ := (hfamily.table.getProc hget).1 p rfl
    obtain ⟨hpU, hpi⟩ := (hfamily.table.mem p).1 hp
    simp only at hkill
    split_ifs at hkill with hflag hwait
    · cases hkill
      exact h.effect_fail hcall.runs hround (by simp)
    · obtain ⟨s₂, hwake, hkill⟩ := bind_eq_ok.1 hkill
      cases hkill
      obtain ⟨sched, hsched, hwake⟩ := bind_eq_ok.1 hwake
      cases hwake
      exact .kill hcall hpU hpi hpid (by simpa using hflag) (Or.inl ⟨rfl, hwait⟩) (.single hsched)
    · cases hkill
      exact .kill hcall hpU hpi hpid (by simpa using hflag)
        (Or.inr ⟨rfl, not_not.1 hwait⟩) .nil

theorem effect_doFork (h : s.Sound) (hcall : s.MayCall) {cloneVm : Bool} {m : ForkMem ν μ ρ}
    (hfresh : ∀ proc, m.pcb = some proc → s.inUse proc = false)
    (he : exec k s (.doFork cloneVm m) = .ok (s', out)) : Effect s (.doFork cloneVm m) out s' := by
  have hround : ∀ p store, ¬ s.Round (.doFork cloneVm m) p store := by
    rintro p store (⟨o, ho, -⟩ | ⟨ho, -⟩) <;> cases ho
  obtain ⟨⟨s₁, ret⟩, hfork, he⟩ := bind_eq_ok.1 he
  cases he
  obtain ⟨ps, kids, hfamily, hchildless⟩ := h.family
  rcases doFork_ok hfamily.table h.placed.curr_mem hfresh hfork with
    ⟨rfl, -⟩ | ⟨proc, hun, hret⟩ | ⟨proc, hforked, htable⟩
  · exact h.effect_fail hcall.runs hround (by simp)
  · exact .unfork hcall (hfresh proc hun.fresh) hun hret
  · have hproc := hfresh proc hforked.fresh
    refine .fork hcall hproc hforked ⟨_, _, hforked.familyOk hfamily hproc
      (hcall.ne_idle h.placed) htable, fun z hz hzombie hne => ?_⟩
    rw [Zombie] at hzombie
    by_cases hzp : z = proc
    · rw [hzp, hforked.pcb_self] at hzombie
      cases hzombie
    rw [hforked.pcb_of_ne hzp] at hzombie
    rw [hforked.used_eq] at hz
    have hzc : z ≠ s.curr := by
      rintro rfl
      rw [hcall.runs.running h.placed] at hzombie
      cases hzombie
    rw [Function.update_of_ne hzc]
    refine hchildless z (hz.resolve_left hzp) hzombie ?_
    rw [hforked.eq] at hne
    exact hne

omit [DecidableEq κ] [DecidableEq μ] [DecidableEq ρ] in
/-- The processes of the timers that expire are woken one after the other. -/
theorem wakes_of_fire {l : List (ν × ν)} {S S' : Sched κ ν}
    (h : l.foldlM (fun S a => Sched.fire S k a.2) S = .ok S') :
    Wakes (l.map Prod.snd) S S' := by
  induction l generalizing S with
  | nil =>
    cases h
    exact .nil
  | cons a l ih =>
    rw [List.foldlM_cons] at h
    obtain ⟨S₁, hfire, h⟩ := bind_eq_ok.1 h
    obtain ⟨_, -, hfire⟩ := bind_eq_ok.1 hfire
    exact .cons hfire (ih h)

theorem effect_doSleep (h : s.Sound) (hcall : s.MayCall) {time : ℕ}
    (he : s.doSleep k time = .ok (s', out)) : Effect s (.doSleep time) out s' := by
  unfold doSleep at he
  split_ifs at he with htime
  · cases he
    refine h.effect_fail hcall.runs ?_ (by simp)
    rintro p store (⟨o, ho, -⟩ | ⟨ho, -⟩) <;> cases ho
  · obtain ⟨timers, hadd, he⟩ := bind_eq_ok.1 he
    cases he
    refine .sleep hcall rfl ?_
    obtain ⟨K, xs, ys, h1, h2, h3, h4, h5⟩ := h.timers
    have hnot : ¬(s.loc s.curr).At .sleep := by
      rcases hcall with hl | ⟨hl, -⟩ <;> simp [Loc.At, hl]
    have hne : ∀ x ∈ xs, x.1.1 ≠ s.curr := by
      intro x hx he
      exact hnot (he ▸ (h4 x hx).2.2)
    obtain ⟨xs', h1', h2', h3', hmem⟩ := h1.add_ok h2 h3 hne (Nat.pos_of_ne_zero htime)
      (Nat.mod_lt _ (by decide)) hadd
    have hother : ∀ p, p ≠ s.curr → ((Function.update s.loc s.curr (.calling .sleep) p).At .sleep ↔
        (s.loc p).At .sleep) := fun p hp => by rw [Function.update_of_ne hp]
    refine ⟨_, xs', _, h1', h2', h3', fun x hx => ?_, fun p hp hl => ?_⟩
    · rcases (hmem x).1 hx with hx | rfl
      · obtain ⟨h6, h7, h8⟩ := h4 x hx
        exact ⟨h6, h7, (hother _ (hne x hx)).2 h8⟩
      · refine ⟨rfl, h.placed.curr_mem, Or.inl ?_⟩
        exact Function.update_self _ _ _
    · by_cases hpc : p = s.curr
      · exact Or.inl hpc
      · exact Or.inr (h5 p hp ((hother p hpc).1 hl))

theorem effect_sleepBack (h : s.Sound) (hl : s.loc s.curr = .within .sleep)
    (he : s.resume k .sleep = .ok (s', out)) : Effect s .resume out s' := by
  obtain ⟨timers, hdel, he⟩ := bind_eq_ok.1 he
  cases he
  refine .sleepBack hl rfl ?_
  obtain ⟨K, xs, ys, h1, h2, h3, h4, h5⟩ := h.timers
  have hK : s.curr ∈ K := h5 s.curr h.placed.curr_mem (Or.inr hl)
  have hother : ∀ p, p ≠ s.curr → ((s.back.loc p).At .sleep ↔ (s.loc p).At .sleep) := by
    intro p hp
    rw [back_loc_of_ne hp]
  refine ⟨K, _, _, h1.del_ok hK hdel, h2.filter _, fun x hx => h3 x (List.mem_of_mem_filter hx),
    fun x hx => ?_, fun p hp hpl => ?_⟩
  · obtain ⟨hx, hne⟩ := List.mem_filter.1 hx
    obtain ⟨h6, h7, h8⟩ := h4 x hx
    have hne' : x.1.1 ≠ s.curr := by simpa using hne
    exact ⟨h6, h7, (hother _ hne').2 h8⟩
  · by_cases hpc : p = s.curr
    · exact hpc ▸ hK
    · exact h5 p hp ((hother p hpc).1 hpl)

theorem effect_tick (h : s.Sound) (he : exec k s .tick = .ok (s', out)) :
    Effect s .tick out s' := by
  obtain ⟨s₁, hrun, he⟩ := bind_eq_ok.1 he
  cases he
  obtain ⟨⟨timers, sched⟩, htick, hs₁⟩ := bind_eq_ok.1 hrun
  cases hs₁
  obtain ⟨K, xs, ys, h1, h2, h3, h4, h5⟩ := h.timers
  obtain ⟨xs', h1', h2', h3', hmem, S₁, hfire, rfl⟩ := h1.tick_ok h2 h3 htick
  refine .tick (fun p hp => ?_) (wakes_of_fire hfire) rfl
    ⟨K, xs', _, h1', h2', h3', fun x hx => ?_, h5⟩ rfl
  · obtain ⟨a, ha, rfl⟩ := List.mem_map.1 hp
    obtain ⟨⟨⟨t, q⟩, r⟩, hx, rfl⟩ := List.mem_map.1 ha
    obtain ⟨hx, hone⟩ := List.mem_filter.1 hx
    obtain rfl : r = 1 := by simpa using hone
    have hx' := h2.mem_iff.2 hx
    obtain ⟨h6, h7, h8⟩ := h4 _ hx'
    obtain rfl : q = t := h6
    exact ⟨h7, h8, K, xs, h1, hx'⟩
  · obtain ⟨-, hx⟩ := (hmem x).1 hx
    exact h4 (x.1, x.2 + 1) hx

/-- The process is at a call of a kernel thread that is not `idle`. -/
theorem effect_down (h : s.Sound) (hl : s.loc s.curr = .kernel) (hidle : s.curr ≠ s.sched.idle)
    {sem : κ} (he : exec k s (.down sem) = .ok (s', out)) : Effect s (.down sem) out s' := by
  obtain ⟨⟨sched, granted⟩, hdown, he⟩ := bind_eq_ok.1 he
  cases he
  obtain ⟨⟨t, granted'⟩, hdown, he⟩ := bind_eq_ok.1 hdown
  cases he
  obtain ⟨qs, hqueue⟩ := h.queues
  by_cases hv : 0 < s.sched.sem.value sem
  · unfold SemState.down at hdown
    rw [if_pos hv] at hdown
    cases hdown
    refine h.effect_back (MayCall.runs (Or.inr ⟨hl, hidle⟩)) s.sched.queue.needReschedule
      s.sched.queue.priority _ (fun _ => Or.inl rfl) ?_ (by simp)
    rintro p store (⟨o, ho, -⟩ | ⟨ho, -⟩) <;> cases ho
  · have hnone : s.sched.sem.blockedIn s.curr = none := by
      rw [Option.eq_none_iff_forall_ne_some]
      intro j hj
      have := ((h.placed.down s.curr j).1 hj).2
      rw [hl] at this
      rcases this with hj | hj <;> cases hj
    obtain ⟨t', hdown', -, hin, hpcb, hok⟩ := hqueue.down hnone hv
    obtain ⟨rfl, rfl⟩ := Prod.mk.inj (Except.ok.inj (hdown'.symm.trans hdown))
    exact .down hl hidle hin hpcb ⟨_, hok⟩

theorem effect_downBack (h : s.Sound) {sem : κ} (hl : s.loc s.curr = .within (.down sem))
    (he : s.resume k (.down sem) = .ok (s', out)) : Effect s .resume out s' := by
  obtain ⟨sched, hdown, he⟩ := bind_eq_ok.1 he
  cases he
  obtain ⟨t, hsem, hsched⟩ := bind_eq_ok.1 hdown
  cases hsched
  obtain ⟨qs, hqueue⟩ := h.queues
  have hin : s.sched.sem.blockedIn s.curr = some sem :=
    (h.placed.down s.curr sem).2 ⟨h.placed.curr_mem, Or.inr hl⟩
  have hrun : (s.sched.sem.pcb s.curr).state = .runnable := by
    have := h.placed.curr_running (by simp [hl])
    rw [Sched.pcb] at this
    rw [show s.sched.sem.pcb s.curr = .running from this]
    rfl
  obtain ⟨hback, hok⟩ := hqueue.downResume hin hrun
  obtain rfl := Except.ok.inj (hback.symm.trans hsem)
  exact .downBack hl ⟨_, hok⟩

theorem effect_up (h : s.Sound) (hl : s.loc s.curr = .kernel) (hidle : s.curr ≠ s.sched.idle)
    {sem : κ} (he : exec k s (.up sem) = .ok (s', out)) : Effect s (.up sem) out s' := by
  obtain ⟨sched, hup, he⟩ := bind_eq_ok.1 he
  cases he
  obtain ⟨⟨t, woken⟩, hup, he⟩ := bind_eq_ok.1 hup
  obtain ⟨qs, hqueue⟩ := h.queues
  cases hq : qs sem with
  | nil =>
    rw [hqueue.up_nil hq] at hup
    cases hup
    cases he
    refine h.effect_back (MayCall.runs (Or.inr ⟨hl, hidle⟩)) s.sched.queue.needReschedule
      s.sched.queue.priority _ (fun _ => Or.inl rfl) ?_ (by simp)
    rintro p store (⟨o, ho, -⟩ | ⟨ho, -⟩) <;> cases ho
  | cons p ps =>
    obtain ⟨t', hup', hvalue, hin, hpcb, hok⟩ := hqueue.up hq
    obtain ⟨rfl, rfl⟩ := Prod.mk.inj (Except.ok.inj (hup'.symm.trans hup))
    simp only at he
    have hblocked := hqueue.blocked sem p (by simp [hq])
    have hfirst : s.UpWakes sem p := by
      rw [UpWakes, hqueue.waitQueueFirst_eq, hq, List.head?_cons]
    have hasleep : (s.sched.pcb p).state = .sleeping := hblocked.2
    -- what is left is a call of `wakeup_proc`
    have hwake : ({ s.sched with sem := { t' with pcb := s.sched.sem.pcb } } :
        Sched κ ν).wakeupProc k p = .ok sched := by
      have hpcb' : ({ s.sched with sem := { t' with pcb := s.sched.sem.pcb } } : Sched κ ν).setPcb p
          .running = { s.sched with sem := t' } := by
        rw [setPcb]
        simp only [← hpcb]
      have hstate : (({ s.sched with sem := { t' with pcb := s.sched.sem.pcb } } :
          Sched κ ν).pcb p).state = .sleeping := hasleep
      rw [Sched.wakeupProc, assert_of (by rw [hstate]; decide), ok_bind,
        if_pos (by rw [hstate]; decide), hpcb', ← he]
      by_cases hpc : p = s.sched.curr
      · rw [if_neg (not_not.2 hpc), if_neg fun hn => hn.2 hpc]
      · rw [if_pos hpc, if_pos ⟨by rw [hasleep]; decide, hpc⟩]
    refine .up hl hidle hfirst hblocked
      (show ({ t' with pcb := s.sched.sem.pcb } : SemState κ ν).blockedIn = _ from hin) rfl
      (.single hwake) ⟨Function.update qs sem ps, ?_⟩
    have hsem : sched.sem = t' := by
      have hpcb' : (fun x => if x ∈ [p] then (s.sched.sem.pcb x).woken else s.sched.sem.pcb x) =
          t'.pcb := by
        funext x
        rw [hpcb]
        by_cases hx : x = p
        · rw [if_pos (by simp [hx]), hx, Function.update_self]
          exact RunState.woken_running fun hr => by
            rw [show (s.sched.sem.pcb p).state = .sleeping from hasleep] at hr
            cases hr
        · rw [if_neg (by simpa using hx), Function.update_of_ne hx]
      rw [(wakeupProc_woken hwake).sem]
      simp only [hpcb']
    rw [hsem]
    exact hok

theorem effect_trapEnd (h : s.Sound) (hl : s.loc s.curr = .trapEnd)
    (he : exec k s .trapEnd = .ok (s', out)) : Effect s .trapEnd out s' := by
  have hround : ∀ p store, ¬ s.Round .trapEnd p store := by
    rintro p store (⟨o, ho, -⟩ | ⟨ho, -⟩) <;> cases ho
  have hne : s.curr ≠ s.sched.idle := h.placed.ne_idle (by simp [hl, Loc.At])
  obtain ⟨s₁, hend, he⟩ := bind_eq_ok.1 he
  cases he
  unfold Kernel.trapEnd at hend
  split_ifs at hend with hflag hneed
  · exact h.effect_doExit (h.placed.curr_running (by simp [hl]))
      ⟨by simp [hl, Loc.At], by simp [hl, Loc.At]⟩ s.vm (Or.inl ⟨rfl, by simp [hl]⟩) hend
  · cases hend
    exact effect_go ⟨by simp [hl, Loc.Free], by simp [hl], fun _ => by simpa using hflag⟩
      (Or.inl rfl) id (fun hi => absurd hi hne) hround (by simp)
  · cases hend
    exact effect_go ⟨by simp [hl, Loc.Free], by simp [hl], fun _ => by simpa using hflag⟩
      trivial id (fun hi => absurd hi hne) hround (by simp)

theorem effect_resume (h : s.Sound) {r : Ret κ} (hl : s.loc s.curr = .within r)
    (he : s.resume k r = .ok (s', out)) : Effect s .resume out s' := by
  have hround : ∀ ret, ret = .trap ∨ ret = .kernel → r = ret →
      ∀ pid store, ¬ s.Round .resume pid store := by
    rintro ret hret rfl pid store (⟨o, ho, -⟩ | ⟨-, hl', -⟩)
    · cases ho
    · rw [hl] at hl'
      rcases hret with rfl | rfl <;> cases hl'
  cases r with
  | trap =>
    cases he
    refine effect_go ⟨by simp [hl, Loc.Free], by simp [hl], by simp [hl]⟩ trivial id (fun hi => ?_)
      (hround _ (Or.inl rfl) rfl) (by simp)
    exact absurd hi (h.placed.ne_idle (by simp [hl, Loc.At]))
  | kernel =>
    cases he
    exact effect_go ⟨by simp [hl, Loc.Free], by simp [hl], by simp [hl]⟩ trivial id
      (fun _ => Or.inl rfl) (hround _ (Or.inr rfl) rfl) (by simp)
  | wait pid store =>
    unfold Kernel.resume at he
    split_ifs at he with hflag
    · obtain ⟨s₁, hexit, he⟩ := bind_eq_ok.1 he
      cases he
      exact h.effect_doExit (h.placed.curr_running (by simp [hl]))
        ⟨by simp [hl, Loc.At], by simp [hl, Loc.At]⟩ s.vm (Or.inl ⟨rfl, by simp [hl]⟩) hexit
    · exact h.effect_round (Or.inr ⟨rfl, hl, by simpa using hflag⟩) he
  | sleep => exact h.effect_sleepBack hl he
  | down sem => exact h.effect_downBack hl he
  | exit => cases he

theorem effect_loadBin (h : s.Sound) (hl : s.loc s.curr = .loading) {m : VmMem μ ρ} {ret : ℤ}
    (he : s.loadBin k m ret = .ok (s', out)) : Effect s (.loadBin m ret) out s' := by
  obtain ⟨⟨vm, ok⟩, hload, he⟩ := bind_eq_ok.1 he
  cases ok with
  | true =>
    cases he
    refine .load hl hload ?_
    by_cases hu : s.isUser s.curr
    · exact Or.inl (if_pos hu)
    · exact Or.inr (if_neg hu)
  | false =>
    obtain ⟨s₁, hexit, he⟩ := bind_eq_ok.1 he
    cases he
    exact h.effect_doExit (h.placed.curr_running (by simp [hl]))
      ⟨by simp [hl, Loc.At], by simp [hl, Loc.At]⟩ vm (Or.inr ⟨m, ret, rfl, hl, hload⟩)
      hexit

/-- **Every step has an effect.** -/
theorem effect (h : s.Sound) (hen : s.Enabled op) (he : exec k s op = .ok (s', out)) :
    Effect s op out s' := by
  have hno : ∀ {op : KernelOp κ ν μ ρ}, (∀ pid o, op ≠ .doWait pid o) → op ≠ .resume →
      ∀ pid store, ¬ s.Round op pid store := by
    rintro op h1 h2 pid store (⟨o, ho, -⟩ | ⟨ho, -⟩)
    · exact h1 pid o ho
    · exact h2 ho
  cases op with
  | schedule =>
    obtain ⟨r, hr⟩ := hen
    simp only [exec, hr] at he
    obtain ⟨sched, hs, he⟩ := bind_eq_ok.1 he
    cases he
    exact .schedule hr hs
  | resume =>
    obtain ⟨r, hr⟩ := hen
    simp only [exec, hr] at he
    exact h.effect_resume hr he
  | start =>
    have hl : s.loc s.curr = .newborn := hen
    cases he
    refine effect_go ⟨by simp [hl, Loc.Free], by simp [hl], by simp [hl]⟩ ?_ ?_
      (fun hi => absurd hi (h.placed.ne_idle (by simp [hl, Loc.At]))) (hno (by simp) (by simp))
      (by simp)
    · split_ifs <;> trivial
    · split_ifs <;> exact id
  | trapEnd => exact h.effect_trapEnd hen he
  | trap =>
    cases he
    exact h.effect_fail (MayCall.runs (Or.inl hen)) (hno (by simp) (by simp)) (by simp)
  | tick => exact h.effect_tick he
  | yieldKernel =>
    have hl : s.loc s.curr = .kernel := hen
    cases he
    exact effect_go ⟨by simp [hl, Loc.Free], by simp [hl], by simp [hl]⟩ (Or.inr rfl) id
      (fun _ => Or.inr (Or.inl rfl)) (hno (by simp) (by simp)) (by simp)
  | doYield =>
    cases he
    exact h.effect_back hen.runs _ s.sched.queue.priority s.sched.sem.value
      (fun _ => Or.inl rfl) (hno (by simp) (by simp)) (by simp)
  | setPriority priority =>
    cases he
    refine h.effect_back hen.runs s.sched.queue.needReschedule _ s.sched.sem.value
      (fun p => ?_) (hno (by simp) (by simp)) (by simp)
    by_cases hp : p = s.curr
    · rw [hp, Function.update_self]
      refine Or.inr ?_
      have : u32 priority < 2 ^ 32 := Nat.mod_lt _ (by decide)
      split_ifs
      · decide
      · omega
    · exact Or.inl (Function.update_of_ne hp _ _)
  | doKill pid => exact h.effect_doKill hen he
  | doFork cloneVm m => exact h.effect_doFork hen.1 hen.2.1 he
  | doWait pid store => exact h.effect_doWait hen he
  | doSleep time => exact h.effect_doSleep hen he
  | doExit errno =>
    obtain ⟨s₁, hexit, he⟩ := bind_eq_ok.1 he
    cases he
    refine h.effect_doExit (hen.runs.running h.placed) hen.runs.free.unqueued s.vm
      (Or.inl ⟨rfl, ?_⟩) hexit
    rcases hen with hl | ⟨hl, -⟩ <;> simp [hl]
  | doExecve valid =>
    cases valid with
    | true =>
      cases he
      exact .execve hen
    | false =>
      cases he
      exact h.effect_fail hen.runs (hno (by simp) (by simp)) (by simp)
  | loadBin m ret => exact h.effect_loadBin hen.1 he
  | down sem => exact h.effect_down hen.1 hen.2 he
  | up sem => exact h.effect_up hen.1 hen.2 he

end Sound

end Kernel

end GarretOS
