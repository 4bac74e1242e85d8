import GarretOS.Proc.SoundRuns

/-!
# How long a process sleeps

A process that calls `do_sleep` sleeps until as many timer interrupts have come as it has asked for,
whatever the other processes do meanwhile: they start and stop timers of their own, fork, exit, wait
and kill each other.

* `Left.step`, `Left.tick` : the ticks that are left of a timer, after a step;
* `Effect.sleeper` : who wakes a process that sleeps in `do_sleep`;
* `sleep_lasts` : along runs.
-/

namespace GarretOS

open Sched Countdown

/-- The fields of the timers determine the countdowns. -/
theorem Timers.TimerList.unique {τ π : Type} [DecidableEq τ] {T : Timers τ π} {K K' : Set τ}
    {xs ys : List ((τ × π) × ℕ)} (h : TimerList T K xs) (h' : TimerList T K' ys) : xs = ys := by
  have hkeys : ∀ {K : Set τ} {zs : List ((τ × π) × ℕ)}, TimerList T K zs →
      (zs.map node).map (fun o => o.map fun t => (t, T.proc t)) = (zs.map Prod.fst).map some := by
    intro K zs hz
    rw [List.map_map, List.map_map]
    refine List.map_congr_left fun z hzm => ?_
    simp [node, hz.proc z hzm]
  have hfst : (xs.map Prod.fst).map some = (ys.map Prod.fst).map some := by
    rw [← hkeys h, ← hkeys h', h.ring.unique h'.ring]
  exact h.deltas.unique h'.deltas ((Option.some_injective _).list_map hfst)

namespace Kernel

variable {κ ν μ ρ : Type} [DecidableEq ν] {s s' : Kernel κ ν μ ρ} {k r : ℕ} {p : ν}

/-- The timer of the process has `r` ticks left. -/
def Left (s : Kernel κ ν μ ρ) (p : ν) (r : ℕ) : Prop :=
  ∃ K xs, Timers.TimerList s.timers K xs ∧ ((p, p), r) ∈ xs

theorem Left.mem (h : s.Left p r) {K : Set ν} {xs : List ((ν × ν) × ℕ)}
    (hxs : Timers.TimerList s.timers K xs) : ((p, p), r) ∈ xs := by
  obtain ⟨K', ys, hys, hmem⟩ := h
  rwa [hxs.unique hys]

theorem Left.congr (h : s.Left p r) (htimers : s'.timers = s.timers) : s'.Left p r := by
  unfold Left
  rwa [htimers]

variable [DecidableEq κ] [DecidableEq μ] [DecidableEq ρ] {op : KernelOp κ ν μ ρ} {out : Outcome ν}

/-- **A timer interrupt** takes one tick, and wakes the process when it was the last one. -/
theorem Left.tick (h : s.Left p r) (hs : s.Sound) (he : exec k s .tick = .ok (s', out)) :
    (r = 1 → s'.sched.pcb p = .running) ∧ (1 < r → s'.Left p (r - 1)) := by
  obtain ⟨s₁, hrun, he⟩ := bind_eq_ok.1 he
  cases he
  obtain ⟨⟨timers, sched⟩, htick, hs₁⟩ := bind_eq_ok.1 hrun
  cases hs₁
  obtain ⟨K, xs, ys, h1, h2, h3, h4, -⟩ := hs.timers
  obtain ⟨xs', h1', -, -, hmem, S₁, hfire, rfl⟩ := h1.tick_ok h2 h3 htick
  have hp := h.mem h1
  refine ⟨fun hr => ?_, fun hr => ?_⟩
  · have hdue : p ∈ (due ys).map Prod.snd := by
      refine List.mem_map.2 ⟨(p, p), mem_due.2 ?_, rfl⟩
      rw [← hr]
      exact h2.mem_iff.1 hp
    have hwoken : S₁.schedulerProcTick.pcb p = .running := by
      rw [S₁.schedulerProcTick_pcb, (Sound.wakes_of_fire hfire).woken.pcb_eq, if_pos hdue]
      exact RunState.woken_running (hs.placed.allows p (h4 _ hp).2.1).eq_running
    split_ifs
    · exact hwoken
    · exact hwoken
  · have hleft : ((p, p), r - 1) ∈ xs' := by
      refine (hmem _).2 ⟨by simp only; omega, ?_⟩
      simpa [Nat.sub_add_cancel hr.le] using hp
    split_ifs
    · exact ⟨K, xs', h1', hleft⟩
    · exact ⟨K, xs', h1', hleft⟩

/-- **Any other step** leaves the timer alone, until the process returns from `do_sleep`. -/
theorem Left.step (h : s.Left p r) (hs : s.Sound) (hen : s.Enabled op)
    (htick : op ≠ .tick) (hres : op = .resume → s.curr ≠ p)
    (he : exec k s op = .ok (s', out)) : s'.Left p r := by
  obtain ⟨K, xs, ys, h1, h2, h3, h4, h5⟩ := hs.timers
  have hp := h.mem h1
  have heffect := hs.effect hen he
  cases heffect with
  | @sleep time timers s' hcall heq htimers =>
    have hnot : ¬(s.loc s.curr).At .sleep := hcall.runs.free.unqueued.sleep
    have hne : ∀ x ∈ xs, x.1.1 ≠ s.curr := fun x hx hxc => hnot (hxc ▸ (h4 x hx).2.2)
    replace he : s.doSleep k time = .ok (s', .none) := he
    unfold doSleep at he
    split_ifs at he with htime
    · cases he
    obtain ⟨timers', hadd, he⟩ := bind_eq_ok.1 he
    cases he
    obtain ⟨xs', h1', -, -, hmem⟩ := h1.add_ok h2 h3 hne (Nat.pos_of_ne_zero htime)
      (Nat.mod_lt _ (by decide)) hadd
    exact ⟨_, xs', h1', (hmem _).2 (Or.inl hp)⟩
  | @sleepBack timers s' hlc heq htimers =>
    have hcp : p ≠ s.curr := (hres rfl).symm
    simp only [exec, hlc, Kernel.resume] at he
    obtain ⟨timers', hdel, he⟩ := bind_eq_ok.1 he
    cases he
    refine ⟨K, _, h1.del_ok (h5 s.curr hs.placed.curr_mem (Or.inr hlc)) hdel, ?_⟩
    exact List.mem_filter.2 ⟨hp, by simpa using hcp⟩
  | tick => exact absurd rfl htick
  | go | execve | load | waitNone | waitBlock | down | downBack | up | kill | schedule =>
    exact h.congr rfl
  | reap hround hwaits hreaped hfamily => exact h.congr (by rw [hreaped.eq]; rfl)
  | exit hrun hloc hvm hfamily hchildless hexit hfamily' => exact h.congr (by rw [hexit.eq])
  | @unfork cloneVm m ret proc s' hcall hproc hun hret =>
    exact h.congr (show s'.timers = _ by rw [hun.eq]; rfl)
  | @fork cloneVm m ret proc s' hcall hproc hforked hfamily =>
    exact h.congr (show s'.timers = _ by rw [hforked.eq])

/-- The process is still in `do_sleep` after a step, and it is only woken by `do_kill`, or by the
timer interrupt at which its timer expires. -/
structure Slept (s : Kernel κ ν μ ρ) (op : KernelOp κ ν μ ρ) (p : ν) (s' : Kernel κ ν μ ρ) :
    Prop where
  used : p ∈ s'.used
  loc : (s'.loc p).At .sleep
  pcb : s'.sched.pcb p = s.sched.pcb p ∨ s'.sched.pcb p = .running ∧
    ((∃ pid, op = .doKill pid ∧ s.table.pid p = pid) ∨ op = .tick ∧ s.Left p 1)

omit [DecidableEq κ] [DecidableEq μ] [DecidableEq ρ] in
/-- Only the running process moves, and the other states stay the same. -/
theorem Slept.of_same (hp : p ∈ s.used) (hl : (s.loc p).At .sleep) (hpc : p ≠ s.curr)
    (hused : s'.used = s.used) (hloc : ∀ q, q ≠ s.curr → s'.loc q = s.loc q)
    (hpcb : s'.sched.pcb p = s.sched.pcb p) : Slept s op p s' :=
  ⟨hused ▸ hp, by rwa [hloc p hpc], Or.inl hpcb⟩

omit [DecidableEq κ] [DecidableEq μ] [DecidableEq ρ] in
/-- Calls of `wakeup_proc` leave a process as it is, or wake it. -/
theorem Placed.wakes_pcb (hs : s.Placed) (hp : p ∈ s.used) {ws : List ν} {S : Sched κ ν}
    (hw : Wakes ws s.sched S) :
    S.pcb p = s.sched.pcb p ∨ S.pcb p = .running ∧ p ∈ ws := by
  by_cases hpw : p ∈ ws
  · refine Or.inr ⟨?_, hpw⟩
    rw [hw.woken.pcb_eq, if_pos hpw]
    exact RunState.woken_running (hs.allows p hp).eq_running
  · exact Or.inl (hw.woken.pcb_of_notMem hpw)

omit [DecidableEq κ] [DecidableEq μ] [DecidableEq ρ] in
/-- `do_wait` takes a zombie away, which does not sleep. -/
theorem Reaped.slept {store : Bool} {z : ν} (hreaped : Reaped s s' z store) (hs : s.Placed)
    (hp : p ∈ s.used) (hl : (s.loc p).At .sleep) (hpc : p ≠ s.curr) : Slept s op p s' := by
  have hpz : p ≠ z := by
    rintro rfl
    cases Loc.at_unique hl ((hs.allows p hp).zombie_iff.1 hreaped.zombie)
  refine ⟨hreaped.mem_used.2 ⟨hp, hpz⟩, ?_, Or.inl ?_⟩
  · rw [hreaped.eq]
    exact (back_loc_of_ne hpc).symm ▸ hl
  · rw [hreaped.eq]
    rfl

omit [DecidableEq κ] [DecidableEq μ] [DecidableEq ρ] in
/-- `up` wakes a process that sleeps in `down`. -/
theorem Slept.up (hs : s.Placed) (hp : p ∈ s.used) (hl : (s.loc p).At .sleep) (hpc : p ≠ s.curr)
    {j : κ} {w : ν} {sem : SemState κ ν} {sched : Sched κ ν} (hblocked : s.sched.sem.Blocked w j)
    (hpcb : sem.pcb = s.sched.sem.pcb) (hw : Wakes [w] { s.sched with sem } sched) :
    Slept s op p ({ s with sched } : Kernel κ ν μ ρ).back := by
  have hpw : p ∉ [w] := by
    intro hm
    obtain rfl := List.mem_singleton.1 hm
    cases Loc.at_unique hl ((hs.down p j).1 hblocked.1).2
  have hcurr : sched.curr = s.curr := hw.woken.curr
  refine .of_same hp hl hpc rfl (fun q hq => ?_) ?_
  · exact back_loc_of_ne (s := { s with sched }) (hq.trans_eq hcurr.symm)
  · show sched.pcb p = _
    rw [hw.woken.pcb_of_notMem hpw, Sched.pcb]
    exact congrFun hpcb p

omit [DecidableEq μ] [DecidableEq ρ] in
/-- A timer interrupt wakes the processes whose timers expire. -/
theorem Slept.tick (hs : s.Placed) (hp : p ∈ s.used) (hl : (s.loc p).At .sleep) {ws : List ν}
    {timers : Timers ν ν} {sched : Sched κ ν} {s₁ : Kernel κ ν μ ρ}
    (hws : p ∈ ws → s.Left p 1) (hw : Wakes ws s.sched sched)
    (hs₁ : s₁ = { s with timers, sched := sched.schedulerProcTick }) :
    Slept s .tick p (if s₁.loc s₁.curr = .user then s₁.back else s₁) := by
  have hcurr : s₁.curr = s.curr := by
    rw [hs₁]
    exact sched.schedulerProcTick_curr.trans hw.woken.curr
  have hloc : s₁.loc = s.loc := by rw [hs₁]
  have hpcb : s₁.sched.pcb p = sched.pcb p := by
    rw [hs₁]
    exact sched.schedulerProcTick_pcb p
  have h₁ : Slept s .tick p s₁ := by
    refine ⟨by rw [hs₁]; exact hp, by rwa [hloc], ?_⟩
    rw [hpcb]
    exact (hs.wakes_pcb hp hw).imp id (And.imp_right fun hpw => Or.inr ⟨rfl, hws hpw⟩)
  split_ifs with huser
  · have hpc : p ≠ s₁.curr := by
      rintro rfl
      rw [← hloc, huser] at hl
      simp [Loc.At] at hl
    exact ⟨h₁.used, (back_loc_of_ne hpc).symm ▸ h₁.loc, h₁.pcb⟩
  · exact h₁

omit [DecidableEq μ] [DecidableEq ρ] in
/-- `schedule` changes the place of the running process, which stays in the function that has called
`schedule`. -/
theorem Slept.schedule (hs : s.Sound) (hp : p ∈ s.used) (hl : (s.loc p).At .sleep) {ret : Ret κ}
    {sched : Sched κ ν} (hr : s.loc s.curr = .calling ret)
    (hsched : s.sched.schedule k = .ok sched) :
    Slept s op p { s with sched, loc := Function.update s.loc s.curr (.within ret) } := by
  obtain ⟨t, t', -, -, hsw, -⟩ := hs.switched hsched
  refine ⟨hp, ?_, Or.inl ?_⟩
  · show (Function.update s.loc s.curr (.within ret) p).At .sleep
    by_cases hpc : p = s.curr
    · rw [hpc, hr] at hl
      rw [hpc, Function.update_self]
      exact Or.inr (congrArg Loc.within (Loc.at_unique (Or.inl rfl) hl))
    · rwa [Function.update_of_ne hpc]
  · show sched.pcb p = _
    rw [Sched.pcb, hsw.sem]
    rfl

omit [DecidableEq κ] in
/-- `do_exit` wakes processes that wait for children. -/
theorem Exited.slept {vm : VmTable ν μ ρ} {errno : ℤ} {ws : List ν} {kids kids' : ν → List ν}
    (hexit : Exited { s with vm } s' errno kids ws kids') (hs : s.Placed) (hp : p ∈ s.used)
    (hl : (s.loc p).At .sleep) (hpc : p ≠ s.curr) : Slept s op p s' := by
  have hpw : p ∉ ws := by
    intro hpw
    have hwait := (hexit.woken p hpw).2.2
    have hallows := hs.allows p hp
    rw [Loc.Allows.of_at hl] at hallows
    rcases hallows with hr | hr
    · rw [show s.sched.pcb p = .running from hr] at hwait
      exact absurd hwait (by decide)
    · rw [show s.sched.pcb p = _ from hr] at hwait
      exact absurd hwait (by decide)
  refine .of_same hp hl hpc (by rw [hexit.eq]; rfl) (fun q hq => ?_) ?_
  · rw [hexit.eq]
    exact Function.update_of_ne hq _ _
  · rw [hexit.wakes.woken.pcb_of_notMem hpw]
    exact Function.update_of_ne hpc _ _

omit [DecidableEq κ] in
/-- `do_fork` fails. -/
theorem Unforked.slept {proc : ν} {cloneVm : Bool} {m : ForkMem ν μ ρ}
    (hun : Unforked s s' proc cloneVm m) (hproc : s.inUse proc = false) (hp : p ∈ s.used)
    (hl : (s.loc p).At .sleep) (hpc : p ≠ s.curr) : Slept s op p s'.back := by
  have hpp := ne_of_unused hproc hp
  refine ⟨?_, ?_, Or.inl (hun.pcb_of_ne hpp)⟩
  · show p ∈ s'.used
    rwa [hun.used_eq hproc]
  · rw [back_loc_of_ne (hun.curr_eq.symm ▸ hpc), hun.loc_eq]
    exact hl

omit [DecidableEq κ] in
/-- `do_fork` creates the process `proc`. -/
theorem Forked.slept {proc : ν} {cloneVm : Bool} {m : ForkMem ν μ ρ} {ret : ℤ}
    (hforked : Forked s s' proc cloneVm m ret) (hproc : s.inUse proc = false) (hp : p ∈ s.used)
    (hl : (s.loc p).At .sleep) (hpc : p ≠ s.curr) : Slept s op p s'.back := by
  have hpp := ne_of_unused hproc hp
  refine ⟨?_, ?_, Or.inl (hforked.pcb_of_ne hpp)⟩
  · show p ∈ s'.used
    rw [hforked.used_eq]
    exact Or.inr hp
  · rw [back_loc_of_ne (hforked.curr_eq.symm ▸ hpc), hforked.eq]
    show (Function.update s.loc proc .newborn p).At .sleep
    rwa [Function.update_of_ne hpp]

/-- **Who wakes a process that sleeps.** -/
theorem Effect.sleeper (he : Effect s op out s') (hs : s.Sound) (hp : p ∈ s.used)
    (hl : (s.loc p).At .sleep) (hres : op = .resume → s.curr ≠ p) : Slept s op p s' := by
  have hne : ¬(s.loc s.curr).At .sleep → p ≠ s.curr := by
    rintro hn rfl
    exact hn hl
  cases he with
  | go hruns hfree haway hidle hprio =>
    exact .of_same hp hl (hne hruns.free.unqueued.sleep) rfl
      (fun q hq => Function.update_of_ne hq _ _) rfl
  | execve hcall =>
    exact .of_same hp hl (hne hcall.runs.free.unqueued.sleep) rfl
      (fun q hq => Function.update_of_ne hq _ _) rfl
  | load hlc hload hl' =>
    exact .of_same hp hl (hne (by simp [hlc, Loc.At])) rfl
      (fun q hq => Function.update_of_ne hq _ _) rfl
  | waitNone hround hnone =>
    exact .of_same hp hl (hne hround.unqueued.sleep) rfl (fun q hq => back_loc_of_ne hq) rfl
  | waitBlock hround hsome hall =>
    have hpc := hne hround.unqueued.sleep
    exact .of_same hp hl hpc rfl (fun q hq => Function.update_of_ne hq _ _)
      (Function.update_of_ne hpc _ _)
  | reap hround hwaits hreaped hfamily =>
    exact hreaped.slept hs.placed hp hl (hne hround.unqueued.sleep)
  | sleep hcall heq htimers =>
    have hpc := hne hcall.runs.free.unqueued.sleep
    subst heq
    exact .of_same hp hl hpc rfl (fun q hq => Function.update_of_ne hq _ _)
      (Function.update_of_ne hpc _ _)
  | sleepBack hlc heq htimers =>
    subst heq
    exact .of_same hp hl (hres rfl).symm rfl (fun q hq => back_loc_of_ne hq) rfl
  | @down j sem hlc hidle hin hpcb hqueues =>
    have hpc := hne (by simp [hlc, Loc.At])
    refine .of_same hp hl hpc rfl (fun q hq => Function.update_of_ne hq _ _) ?_
    show sem.pcb p = _
    rw [hpcb]
    exact Function.update_of_ne hpc _ _
  | downBack hlc hqueues =>
    exact .of_same hp hl (hne (by simp [hlc, Loc.At])) rfl (fun q hq => back_loc_of_ne hq) rfl
  | up hlc hidle hfirst hblocked hin hpcb hw hqueues =>
    exact .up hs.placed hp hl (hne (by simp [hlc, Loc.At])) hblocked hpcb hw
  | @kill pid q ws sched hcall hq hidle hpid hflag hws hw =>
    have hpc : p ≠ sched.curr := hw.woken.curr.symm ▸ hne hcall.runs.free.unqueued.sleep
    refine ⟨hp, ?_, (hs.placed.wakes_pcb hp hw).imp id (And.imp_right fun hpw => Or.inl ?_)⟩
    · rw [back_loc_of_ne (s := { s with sched, flagExit := Function.update s.flagExit q true }) hpc]
      exact hl
    · rcases hws with ⟨rfl, -⟩ | ⟨rfl, -⟩
      · exact ⟨pid, rfl, List.mem_singleton.1 hpw ▸ hpid⟩
      · cases hpw
  | tick hws hw hs₁ htimers heq =>
    subst heq
    exact .tick hs.placed hp hl (fun hpw => (hws p hpw).2.2) hw hs₁
  | schedule hr hsched => exact .schedule hs hp hl hr hsched
  | exit hrun hloc hvm hfamily hchildless hexit hfamily' =>
    exact hexit.slept hs.placed hp hl (hne hloc.sleep)
  | unfork hcall hproc hun hret =>
    exact hun.slept hproc hp hl (hne hcall.runs.free.unqueued.sleep)
  | fork hcall hproc hforked hfamily =>
    exact hforked.slept hproc hp hl (hne hcall.runs.free.unqueued.sleep)

/-- The process is in `do_sleep`, with `r` ticks left: it sleeps until there are none. -/
structure Sleeps (s : Kernel κ ν μ ρ) (p : ν) (r : ℕ) : Prop where
  used : p ∈ s.used
  loc : (s.loc p).At .sleep
  state : 0 < r ∧ s.sched.pcb p = ⟨.sleeping, waitTimer⟩ ∧ s.Left p r ∨
    r = 0 ∧ s.sched.pcb p = .running

/-- The process is not killed, and does not return from `do_sleep`. -/
def Undisturbed (p : ν) (s : Kernel κ ν μ ρ) (l : KernelOp κ ν μ ρ × Outcome ν) : Prop :=
  match l.1 with
  | .resume => s.curr ≠ p
  | .doKill pid => s.table.pid p ≠ pid
  | _ => True

instance (p : ν) (s : Kernel κ ν μ ρ) : DecidablePred (Undisturbed p s)
  | (.resume, _) => inferInstanceAs (Decidable (s.curr ≠ p))
  | (.doKill pid, _) => inferInstanceAs (Decidable (s.table.pid p ≠ pid))
  | (.schedule, _) | (.start, _) | (.trapEnd, _) | (.trap, _) | (.tick, _) | (.yieldKernel, _)
  | (.doYield, _) | (.setPriority _, _) | (.doFork _ _, _) | (.doWait _ _, _) | (.doSleep _, _)
  | (.doExit _, _) | (.doExecve _, _) | (.loadBin _ _, _) | (.down _, _) | (.up _, _) =>
    .isTrue trivial

/-- The step is a timer interrupt. -/
def isTick : KernelOp κ ν μ ρ → Bool
  | .tick => true
  | _ => false

/-- The number of timer interrupts. -/
def timerTicks (ls : List (KernelOp κ ν μ ρ × Outcome ν)) : ℕ := ls.countP fun l => isTick l.1

omit [DecidableEq ν] [DecidableEq κ] [DecidableEq μ] [DecidableEq ρ] in
theorem timerTicks_eq (ls : List (KernelOp κ ν μ ρ × Outcome ν)) :
    timerTicks ls = (ls.map Prod.fst).countP isTick := by
  rw [timerTicks, List.countP_map]
  rfl

/-- Executing steps is a run. -/
theorem replay_run {C : Kernel κ ν μ ρ → KernelOp κ ν μ ρ × Outcome ν → Prop}
    [∀ s, DecidablePred (C s)] {ops : List (KernelOp κ ν μ ρ)} (h : replay C k ops s = some s') :
    ∃ ls, (((kernelSystem κ ν μ ρ).guard C).startAt s).Run ls s' ∧ ls.map Prod.fst = ops := by
  induction ops generalizing s with
  | nil =>
    cases h
    exact ⟨[], .start rfl, rfl⟩
  | cons op ops ih =>
    rw [replay] at h
    split_ifs at h with hen
    cases he : exec k s op with
    | error e => simp [he] at h
    | ok r =>
      obtain ⟨s₁, out⟩ := r
      simp only [he] at h
      split_ifs at h with hC
      obtain ⟨ls, hls, rfl⟩ := ih h
      have hstep : ((kernelSystem κ ν μ ρ).guard C).step s (op, out) s₁ := ⟨hC, hen, k, he⟩
      exact ⟨(op, out) :: ls, (System.Run.single hstep).trans hls, rfl⟩

/-- `do_sleep` starts the timer of the running process. -/
theorem Sleeps.start {time : ℕ} (hs : s.Sound) (hcall : s.MayCall)
    (he : exec k s (.doSleep time) = .ok (s', .none)) : s'.Sleeps s.curr (u32 time) := by
  replace he : s.doSleep k time = .ok (s', .none) := he
  unfold doSleep at he
  split_ifs at he with htime
  · cases he
  obtain ⟨timers, hadd, he⟩ := bind_eq_ok.1 he
  cases he
  obtain ⟨K, xs, ys, h1, h2, h3, h4, -⟩ := hs.timers
  have hnot : ¬(s.loc s.curr).At .sleep := hcall.runs.free.unqueued.sleep
  have hne : ∀ x ∈ xs, x.1.1 ≠ s.curr := fun x hx hxc => hnot (hxc ▸ (h4 x hx).2.2)
  obtain ⟨xs', h1', -, -, hmem⟩ := h1.add_ok h2 h3 hne (Nat.pos_of_ne_zero htime)
    (Nat.mod_lt _ (by decide)) hadd
  refine ⟨hs.placed.curr_mem, Or.inl (Function.update_self _ _ _), Or.inl ⟨?_, ?_, ?_⟩⟩
  · exact Nat.pos_of_ne_zero htime
  · exact Function.update_self _ _ _
  · exact ⟨_, xs', h1', (hmem _).2 (Or.inr rfl)⟩

/-- **A step** takes a tick if it is a timer interrupt. -/
theorem Sleeps.step (h : s.Sleeps p r) (hs : s.Sound) (hen : s.Enabled op)
    (hfree : Undisturbed p s (op, out)) (he : exec k s op = .ok (s', out)) :
    s'.Sleeps p (r - timerTicks [(op, out)]) := by
  have hres : op = .resume → s.curr ≠ p := by
    rintro rfl
    exact hfree
  obtain ⟨hused, hloc, hpcb⟩ := (hs.effect hen he).sleeper hs h.used h.loc hres
  have hkill : ¬∃ pid, op = .doKill pid ∧ s.table.pid p = pid := by
    rintro ⟨pid, rfl, hpid⟩
    exact hfree hpid
  refine ⟨hused, hloc, ?_⟩
  rcases h.state with ⟨hr, hasleep, hleft⟩ | ⟨rfl, hrun⟩
  · by_cases htick : op = .tick
    · subst htick
      obtain ⟨hlast, hmore⟩ := hleft.tick hs he
      by_cases hone : r = 1
      · exact Or.inr ⟨by simp [hone, timerTicks, isTick], hlast hone⟩
      · refine Or.inl ⟨by simp only [timerTicks, isTick]; grind, ?_, hmore (by omega)⟩
        refine (hpcb.resolve_right fun hw => ?_).trans hasleep
        rcases hw.2 with hk | ⟨-, hone'⟩
        · exact hkill hk
        · obtain ⟨K, xs, hxs, hmem⟩ := hone'
          have := Timers.ring_inj hxs.ring (hleft.mem hxs) hmem rfl
          exact hone (congrArg Prod.snd this)
    · have h0 : timerTicks [(op, out)] = 0 := by
        cases op <;> first | rfl | exact absurd rfl htick
      rw [h0]
      refine Or.inl ⟨hr, ?_, hleft.step hs hen htick hres he⟩
      refine (hpcb.resolve_right fun hw => ?_).trans hasleep
      exact hw.2.elim hkill fun ht => htick ht.1
  · refine Or.inr ⟨Nat.zero_sub _, ?_⟩
    rcases hpcb with hsame | ⟨hr, -⟩
    · exact hsame.trans hrun
    · exact hr

/-- **A run** after a call of `do_sleep`. -/
theorem Run.sleeps {s₀ s₁ : Kernel κ ν μ ρ} {time : ℕ}
    {ls : List (KernelOp κ ν μ ρ × Outcome ν)} (h : (kernelSystem κ ν μ ρ).Reachable s₀)
    (h₁ : (kernelSystem κ ν μ ρ).step s₀ (.doSleep time, .none) s₁)
    (hrun : (((kernelSystem κ ν μ ρ).guard (Undisturbed s₀.curr)).startAt s₁).Run ls s) :
    (kernelSystem κ ν μ ρ).Reachable s ∧ s.Sleeps s₀.curr (u32 time - timerTicks ls) := by
  induction hrun with
  | start hs =>
    obtain rfl := hs
    obtain ⟨hen, k, he⟩ := id h₁
    exact ⟨h.step h₁, .start (kernel_sound h) hen he⟩
  | @step ls s s' l _ hl ih =>
    obtain ⟨hfree, hstep⟩ := hl
    obtain ⟨hr, hsleeps⟩ := ih
    obtain ⟨hen, k, he⟩ := id hstep
    have hticks : timerTicks (ls ++ [l]) = timerTicks ls + timerTicks [l] := List.countP_append
    refine ⟨hr.step hstep, ?_⟩
    rw [hticks, ← Nat.sub_sub]
    exact hsleeps.step (kernel_sound hr) hen hfree he

end Kernel

open Kernel

/-- **How long `do_sleep` lasts.**  A process has called `do_sleep(time)` and blocked.  As long as it
is not killed it sleeps until `time` timer interrupts have come, exactly, and is runnable from then
on, whatever steps the other processes take; when it goes on it returns 0. -/
theorem sleep_lasts {κ ν μ ρ : Type} [DecidableEq κ] [DecidableEq ν] [DecidableEq μ] [DecidableEq ρ]
    {s₀ s₁ s : Kernel κ ν μ ρ} {time : ℕ} {ls : List (KernelOp κ ν μ ρ × Outcome ν)}
    (h : (kernelSystem κ ν μ ρ).Reachable s₀)
    (h₁ : (kernelSystem κ ν μ ρ).step s₀ (.doSleep time, .none) s₁)
    (hrun : (((kernelSystem κ ν μ ρ).guard (Undisturbed s₀.curr)).startAt s₁).Run ls s) :
    (timerTicks ls < u32 time → s.sched.pcb s₀.curr = ⟨.sleeping, waitTimer⟩ ∧
      ∀ out s', (kernelSystem κ ν μ ρ).step s (.resume, out) s' → s.curr ≠ s₀.curr) ∧
    (u32 time ≤ timerTicks ls → s.sched.pcb s₀.curr = .running) ∧
    ∀ out s', (kernelSystem κ ν μ ρ).step s (.resume, out) s' → s.curr = s₀.curr →
      out = .returned 0 none := by
  obtain ⟨hr, hsleeps⟩ := Run.sleeps h h₁ hrun
  have hs := kernel_sound hr
  have hwithin : ∀ {out s'}, (kernelSystem κ ν μ ρ).step s (.resume, out) s' → s.curr = s₀.curr →
      s.loc s.curr = .within .sleep := by
    intro out s' hl hc
    obtain ⟨⟨r, hr⟩, -⟩ := hl
    have hat := hsleeps.loc
    rw [← hc, hr] at hat
    rw [hr, Loc.at_unique (Or.inr rfl) hat]
  refine ⟨fun hlt => ?_, fun hle => ?_, fun out s' hl hc => ?_⟩
  · obtain ⟨-, hasleep, -⟩ := hsleeps.state.resolve_right fun h => by omega
    refine ⟨hasleep, fun out s' hl hc => ?_⟩
    have hrunning := hs.placed.curr_running (by simp [hwithin hl hc])
    rw [hc, hasleep] at hrunning
    cases hrunning
  · exact (hsleeps.state.resolve_left fun h => by omega).2
  · have hlc := hwithin hl hc
    obtain ⟨-, k, he⟩ := hl
    simp only [exec, hlc, Kernel.resume] at he
    obtain ⟨timers, -, he⟩ := bind_eq_ok.1 he
    cases he
    rfl

/-- `init` sleeps for two timer interrupts, while `idle` runs. -/
theorem sleep_lasts_two : ∃ s s' : Kernel ℕ ℕ ℕ ℕ, s.curr = 0 ∧
    s.sched.pcb 1 = ⟨.sleeping, waitTimer⟩ ∧ s'.curr = 0 ∧ s'.sched.pcb 1 = .running := by
  obtain ⟨s₀, hs, hcurr, hen, hout⟩ := exists_replayed [.yieldKernel, .schedule, .start]
    (fun s => s.curr = 1 ∧ s.Enabled (.doSleep 2) ∧
      (exec 20 s (.doSleep 2)).toOption.any (fun r => r.2 = .none ∧
        (replay (Undisturbed 1) 20 [.schedule, .resume, .tick] r.1).any (fun t => t.curr = 0) ∧
        (replay (Undisturbed 1) 20 [.schedule, .resume, .tick, .yieldKernel, .tick] r.1).any
          (fun t => t.curr = 0)) = true) (by decide +kernel)
  obtain ⟨⟨s₁, out⟩, he, hP⟩ := (Option.any_eq_true _ _).1 hout
  obtain ⟨rfl, h1, h2⟩ := of_decide_eq_true hP
  have hstep : (kernelSystem ℕ ℕ ℕ ℕ).step s₀ (.doSleep 2, .none) s₁ := by
    refine ⟨hen, 20, ?_⟩
    cases hx : exec 20 s₀ (.doSleep 2) with
    | error e => simp [hx, Except.toOption] at he
    | ok r => exact congrArg Except.ok (by simpa [hx, Except.toOption] using he)
  obtain ⟨s, hrun, h0⟩ := (Option.any_eq_true _ _).1 h1
  obtain ⟨s', hrun', h0'⟩ := (Option.any_eq_true _ _).1 h2
  rw [← hcurr] at hrun hrun'
  obtain ⟨ls, hls, hops⟩ := replay_run hrun
  obtain ⟨ls', hls', hops'⟩ := replay_run hrun'
  refine ⟨s, s', of_decide_eq_true h0, ?_, of_decide_eq_true h0', ?_⟩
  · rw [← hcurr]
    exact ((sleep_lasts hs hstep hls).1 (by rw [timerTicks_eq, hops]; decide)).1
  · rw [← hcurr]
    exact (sleep_lasts hs hstep hls').2.1 (by rw [timerTicks_eq, hops']; decide)

end GarretOS
