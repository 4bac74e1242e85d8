import GarretOS.Proc.Preempt
import GarretOS.Proc.Reparent
import GarretOS.Proc.VmRuns
import GarretOS.Proc.WaitRuns

/-!
# Forking, exiting and waiting

What a process gets from `do_wait` goes back to a call of `do_fork` and a call of `do_exit`, however
many other processes come and go meanwhile.

* `exec_callsExit` : the steps after which a process has exited are the calls of `do_exit`;
* `Effect.record` : the pid and the exit code of a process stay;
* `Effect.exited` : a process exits by calling `do_exit`, with the argument of that call;
* `Run.born` : each process has been created by `do_fork`, which has returned its pid;
* `fork_exit_wait` : the way of a process from `do_fork` to `do_wait`;
* `init_main_asserts` : what `init` finds when its last child has gone.
-/

namespace GarretOS

open ProcTable Sched

namespace Kernel

variable {κ ν μ ρ : Type} [DecidableEq κ] [DecidableEq ν] [DecidableEq μ] [DecidableEq ρ]
  {s s' : Kernel κ ν μ ρ} {k : ℕ} {op : KernelOp κ ν μ ρ} {out : Outcome ν}

/-! ### Who exits, and with which value -/

/-- The argument of the call of `do_exit` in a step that makes one. -/
def exitValue : KernelOp κ ν μ ρ → ℤ
  | .doExit errno => errno
  | .loadBin _ ret => ret
  | _ => -eKilled

theorem exec_doExit (hcall : s.CallsExit op) (he : exec k s op = .ok (s', out)) :
    ∃ vm, ({ s with vm } : Kernel κ ν μ ρ).doExit k (exitValue op) = .ok s' := by
  cases op with
  | doExit errno =>
    obtain ⟨s₁, h1, he⟩ := bind_eq_ok.1 he
    cases he
    exact ⟨s.vm, h1⟩
  | trapEnd =>
    have hflag : s.flagExit s.curr = true := hcall
    obtain ⟨s₁, h1, he⟩ := bind_eq_ok.1 he
    cases he
    rw [Kernel.trapEnd, if_pos hflag] at h1
    exact ⟨s.vm, h1⟩
  | resume =>
    obtain ⟨⟨pid, store, hl⟩, hflag⟩ := hcall
    simp only [exec, hl, Kernel.resume, if_pos hflag] at he
    obtain ⟨s₁, h1, he⟩ := bind_eq_ok.1 he
    cases he
    exact ⟨s.vm, h1⟩
  | loadBin m ret =>
    obtain ⟨vm, hload⟩ := hcall
    replace he : s.loadBin k m ret = .ok (s', out) := he
    rw [Kernel.loadBin, hload, ok_bind] at he
    obtain ⟨s₁, h1, he⟩ := bind_eq_ok.1 he
    cases he
    exact ⟨vm, h1⟩
  | _ => cases hcall

omit [DecidableEq κ] [DecidableEq μ] [DecidableEq ρ] in
theorem setLoc_ne_exit {l : Loc κ} (hl : l ≠ .calling .exit) :
    (s.setLoc s.curr l).loc s.curr ≠ .calling .exit := by
  rwa [show (s.setLoc s.curr l).loc s.curr = l from Function.update_self ..]

omit [DecidableEq κ] [DecidableEq μ] [DecidableEq ρ] in
theorem back_ne_exit (s : Kernel κ ν μ ρ) : s.back.loc s.back.curr ≠ .calling .exit :=
  setLoc_ne_exit (by split_ifs <;> simp)

omit [DecidableEq κ] [DecidableEq μ] [DecidableEq ρ] in
theorem waitRound_ne_exit {pid : ℤ} {store : Bool} (he : s.waitRound k pid store = .ok (s', out)) :
    s'.loc s'.curr ≠ .calling .exit := by
  obtain ⟨⟨hasChild, zombie⟩, -, he⟩ := bind_eq_ok.1 he
  cases zombie with
  | some z =>
    obtain ⟨s₁, -, he⟩ := bind_eq_ok.1 he
    cases he
    exact back_ne_exit s₁
  | none =>
    cases hasChild with
    | true =>
      cases he
      exact setLoc_ne_exit (by simp)
    | false =>
      cases he
      exact back_ne_exit s

theorem resume_ne_exit {r : Ret κ} (hr : s.loc s.curr = .within r) (hcall : ¬ s.CallsExit .resume)
    (he : s.resume k r = .ok (s', out)) : s'.loc s'.curr ≠ .calling .exit := by
  cases r with
  | trap | kernel =>
    cases he
    exact setLoc_ne_exit (by simp)
  | wait pid store =>
    have hflag : ¬ s.flagExit s.curr = true := fun hflag => hcall ⟨⟨pid, store, hr⟩, hflag⟩
    rw [Kernel.resume, if_neg hflag] at he
    exact waitRound_ne_exit he
  | sleep | down sem =>
    obtain ⟨x, -, he⟩ := bind_eq_ok.1 he
    cases he
    exact back_ne_exit _
  | exit => cases he

/-- **The running process exits** only by a call of `do_exit`. -/
theorem exec_ne_exit (hen : s.Enabled op) (hcall : ¬ s.CallsExit op)
    (he : exec k s op = .ok (s', out)) (hbefore : s.loc s.curr ≠ .calling .exit)
    (hcurr : s'.curr = s.curr) : s'.loc s'.curr ≠ .calling .exit := by
  cases op with
  | schedule =>
    obtain ⟨r, hr⟩ := hen
    simp only [exec, hr] at he
    obtain ⟨sched, -, he⟩ := bind_eq_ok.1 he
    cases he
    rw [hcurr]
    exact setLoc_ne_exit (l := .within r) (by simp)
  | resume =>
    obtain ⟨r, hr⟩ := hen
    simp only [exec, hr] at he
    exact resume_ne_exit hr hcall he
  | start =>
    cases he
    exact setLoc_ne_exit (by split_ifs <;> simp)
  | trapEnd =>
    have hflag : ¬ s.flagExit s.curr = true := hcall
    obtain ⟨s₁, hend, he⟩ := bind_eq_ok.1 he
    cases he
    rw [Kernel.trapEnd, if_neg hflag] at hend
    split_ifs at hend
    · cases hend
      exact setLoc_ne_exit (by simp)
    · cases hend
      exact setLoc_ne_exit (by simp)
  | tick =>
    obtain ⟨s₁, hrun, he⟩ := bind_eq_ok.1 he
    cases he
    obtain ⟨⟨timers, sched⟩, -, hs₁⟩ := bind_eq_ok.1 hrun
    cases hs₁
    split_ifs at hcurr ⊢ with huser
    · exact back_ne_exit _
    · rwa [hcurr]
  | trap | doYield | setPriority _ =>
    cases he
    exact back_ne_exit _
  | doKill _ | doFork _ _ | up _ =>
    obtain ⟨x, -, he⟩ := bind_eq_ok.1 he
    cases he
    exact back_ne_exit _
  | yieldKernel =>
    cases he
    exact setLoc_ne_exit (by simp)
  | doWait pid store =>
    replace he : s.doWait k pid store = .ok (s', out) := he
    unfold doWait at he
    split_ifs at he
    · cases he
      exact back_ne_exit s
    · exact waitRound_ne_exit he
  | doSleep time =>
    replace he : s.doSleep k time = .ok (s', out) := he
    unfold doSleep at he
    split_ifs at he
    · cases he
      exact back_ne_exit s
    · obtain ⟨timers, -, he⟩ := bind_eq_ok.1 he
      cases he
      exact setLoc_ne_exit (by simp)
  | doExit errno => exact absurd trivial hcall
  | doExecve valid =>
    cases valid with
    | true =>
      cases he
      exact setLoc_ne_exit (by simp)
    | false =>
      cases he
      exact back_ne_exit s
  | loadBin m ret =>
    obtain ⟨⟨vm, loaded⟩, hload, he⟩ := bind_eq_ok.1 he
    cases loaded with
    | true =>
      cases he
      refine setLoc_ne_exit (s := s) (l := if s.isUser s.curr then .trapEnd else .user) ?_
      split_ifs <;> simp
    | false => exact absurd ⟨vm, hload⟩ hcall
  | down sem =>
    obtain ⟨⟨sched, granted⟩, -, he⟩ := bind_eq_ok.1 he
    cases he
    cases granted with
    | true => exact back_ne_exit _
    | false => exact setLoc_ne_exit (by simp)

/-! ### What stays -/

/-- **The record of a process.**  Its pid stays the same, and so does its exit code once it has
exited. -/
theorem Effect.record (he : Effect s op out s') {c : ν} (hc : c ∈ s.used) :
    s'.table.pid c = s.table.pid c ∧ (s.Zombie c → s'.exitCode c = s.exitCode c) := by
  cases he with
  | go | execve | load | waitNone | waitBlock | down | downBack | up | kill | schedule =>
    exact ⟨rfl, fun _ => rfl⟩
  | sleep hcall heq htimers | sleepBack hl heq htimers =>
    subst heq
    exact ⟨rfl, fun _ => rfl⟩
  | reap hround hwaits hreaped hfamily =>
    exact ⟨congrFun hreaped.pid c, fun _ => by rw [hreaped.eq]; rfl⟩
  | tick hws hw hs₁ htimers heq =>
    subst hs₁
    rw [heq]
    split_ifs
    · exact ⟨rfl, fun _ => rfl⟩
    · exact ⟨rfl, fun _ => rfl⟩
  | exit hrun hloc hvm hfamily hchildless hexit hfamily' =>
    refine ⟨congrFun hexit.pid c, fun hz => ?_⟩
    have hne : c ≠ s.curr := by
      rintro rfl
      rw [Zombie, hrun] at hz
      cases hz
    rw [hexit.eq]
    exact Function.update_of_ne hne _ _
  | @unfork cloneVm m ret proc s' hcall hproc hun hret =>
    have hne := ne_of_unused hproc hc
    refine ⟨hun.pid_of_ne hne, fun _ => ?_⟩
    rw [hun.eq]
    exact Function.update_of_ne hne _ _
  | @fork cloneVm m ret proc s' hcall hproc hforked hfamily =>
    have hne := ne_of_unused hproc hc
    refine ⟨hforked.pid c hne, fun _ => ?_⟩
    rw [hforked.eq]
    exact Function.update_of_ne hne _ _

/-- **A new process** is alive, and `do_fork` returns its pid. -/
theorem Effect.born (he : Effect s op out s') {c : ν} (hc : c ∉ s.used) (hc' : c ∈ s'.used) :
    (∃ cloneVm m, op = .doFork cloneVm m ∧ m.pcb = some c) ∧
      out = .returned (s'.table.pid c) none ∧ s'.table.parent c = some s.curr ∧ ¬ s'.Zombie c := by
  have hrel := he.relates
  rcases hrel.member c hc' with ⟨hold, -⟩ | ⟨⟨cloneVm, m, ret, hl, -, hm⟩, hparent⟩
  · exact absurd hold hc
  obtain ⟨rfl, rfl⟩ := Prod.mk.inj hl
  cases he with
  | go | waitNone => exact absurd hc' hc
  | @unfork cloneVm m ret proc s' hcall hproc hun hret =>
    rw [show s'.back.used = s.used from hun.used_eq hproc] at hc'
    exact absurd hc' hc
  | @fork cloneVm m ret proc s' hcall hproc hforked hfamily =>
    obtain rfl := Option.some.inj (hm.symm.trans hforked.fresh)
    refine ⟨⟨cloneVm, m, rfl, hm⟩, by rw [hforked.ret]; rfl, hparent, fun hz => ?_⟩
    rw [show s'.back.Zombie c ↔ (s'.sched.pcb c).state = .zombie from Iff.rfl, hforked.pcb_self] at hz
    cases hz

/-- **A process that has become a zombie** has just called `do_exit`. -/
theorem Effect.exited (he : Effect s op out s') (hs : s.Sound) (hen : s.Enabled op)
    (hexec : exec k s op = .ok (s', out)) {z : ν} (hz : z ∈ s.used) (halive : ¬ s.Zombie z)
    (hzombie : s'.Zombie z) : z = s.curr ∧ s.CallsExit op ∧ s'.exitCode z = exitValue op := by
  obtain ⟨rfl, vm, errno, ps, ws, kids, kids', hexit, -⟩ :=
    (he.zombie hs hz hzombie).resolve_left halive
  have hcurr : s'.curr = s.curr := hexit.wakes.woken.curr
  have hloc : s'.loc s'.curr = .calling .exit := by
    rw [hcurr, hexit.eq]
    exact Function.update_self ..
  have hcall : s.CallsExit op := by
    by_contra hcall
    refine exec_ne_exit hen hcall hexec (fun hl => halive ?_) hcurr hloc
    exact (hs.placed.allows _ hz).zombie_iff.2 (Or.inl hl)
  refine ⟨rfl, hcall, ?_⟩
  obtain ⟨vm', hdo⟩ := exec_doExit hcall hexec
  obtain ⟨qs, kids₁, hfamily, -⟩ := hs.family
  have hfamily' : ({ s with vm := vm' } : Kernel κ ν μ ρ).FamilyOk qs kids₁ :=
    hfamily.congr rfl rfl rfl rfl
  obtain ⟨ws', kids₂, hexit', -⟩ := hfamily'.doExit hs.placed.curr_mem
    (by rw [hs.placed.idle_running]; decide) hdo
  rw [hexit'.eq]
  exact Function.update_self ..

/-! ### The way of a process -/

variable {ls l₁ l₂ : List (KernelOp κ ν μ ρ × Outcome ν)} {z : ν} {errno : ℤ}

/-- Among the steps `l₂`, which a run takes after the steps `l₁`, is a call of `do_exit` by `z` with
the argument `errno`. -/
def ExitsIn (l₁ l₂ : List (KernelOp κ ν μ ρ × Outcome ν)) (z : ν) (errno : ℤ) : Prop :=
  ∃ m₁ op out m₂ s₁, l₂ = m₁ ++ (op, out) :: m₂ ∧ (kernelSystem κ ν μ ρ).Run (l₁ ++ m₁) s₁ ∧
    s₁.curr = z ∧ s₁.CallsExit op ∧ exitValue op = errno

theorem ExitsIn.snoc (h : ExitsIn l₁ l₂ z errno) (l : KernelOp κ ν μ ρ × Outcome ν) :
    ExitsIn l₁ (l₂ ++ [l]) z errno := by
  obtain ⟨m₁, op, out, m₂, s₁, rfl, h⟩ := h
  exact ⟨m₁, op, out, m₂ ++ [l], s₁, by simp, h⟩

/-- In the run `ls` to `s` the process `z` has been created by a call of `do_fork` that has returned
its pid, and has not been reaped since.  Its parent is the process that has created it, which has not
been reaped either, or it is `init`.  If `z` is a zombie then it has called `do_exit` since, with its
exit code. -/
def Born (ls : List (KernelOp κ ν μ ρ × Outcome ν)) (s : Kernel κ ν μ ρ) (z : ν) : Prop :=
  ∃ l₁ cloneVm m l₂ s₁, ls = l₁ ++ (.doFork cloneVm m, .returned (s.table.pid z) none) :: l₂ ∧
    (kernelSystem κ ν μ ρ).Run l₁ s₁ ∧ m.pcb = some z ∧ (∀ l ∈ l₂, ¬ Reaps z l) ∧
    (s.table.parent z = some s.initProc ∨
      s.table.parent z = some s₁.curr ∧ ∀ l ∈ l₂, ¬ Reaps s₁.curr l) ∧
    (s.Zombie z → ExitsIn (l₁ ++ [(.doFork cloneVm m, .returned (s.table.pid z) none)]) l₂ z
      (s.exitCode z))

omit [DecidableEq κ] [DecidableEq ν] [DecidableEq μ] [DecidableEq ρ] in
/-- A process that is created was not a process before. -/
theorem Creates.notMem (h : Creates z (op, out)) (hen : s.Enabled op) : z ∉ s.used := by
  obtain ⟨cloneVm, m, ret, hl, -, hm⟩ := h
  obtain ⟨rfl, -⟩ := Prod.mk.inj hl
  exact not_mem_used (hen.2.1 z hm)

/-- **A step** of the other processes, or of `z` itself. -/
theorem Born.step (h : Born ls s z) (hrun : (kernelSystem κ ν μ ρ).Run ls s) (hz : z ∈ s.used)
    (hz' : z ∈ s'.used) (hl : (kernelSystem κ ν μ ρ).step s (op, out) s') :
    Born (ls ++ [(op, out)]) s' z := by
  have hs := kernel_sound ⟨ls, hrun⟩
  have he := step_effect hrun hl
  have hrel := he.relates
  obtain ⟨hpid, hcode⟩ := he.record hz
  obtain ⟨l₁, cloneVm, m, l₂, s₁, rfl, hrun₁, hm, hreaps, hparent, hexits⟩ := h
  have hsince : ∀ {p}, (∀ l ∈ l₂, ¬ Reaps p l) → ¬ Reaps p (op, out) →
      ∀ l ∈ l₂ ++ [(op, out)], ¬ Reaps p l := by
    intro p hl₂ hlast l hmem
    rcases List.mem_append.1 hmem with hmem | hmem
    · exact hl₂ l hmem
    · rwa [List.mem_singleton.1 hmem]
  refine ⟨l₁, cloneVm, m, l₂ ++ [(op, out)], s₁, by simp [hpid], hrun₁, hm,
    hsince hreaps fun hr => (hrel.reaps z hr).2.2.2.2 hz', ?_, fun hzombie => ?_⟩
  · rw [hrel.init]
    rcases hrel.member z hz' with ⟨-, hsame | hinit⟩ | ⟨hnew, -⟩
    · rw [hsame]
      rcases hparent with hp | ⟨hp, hl₂⟩
      · exact Or.inl hp
      · by_cases hinit : s₁.curr = s.initProc
        · exact Or.inl (hinit ▸ hp)
        · exact Or.inr ⟨hp, hsince hl₂ fun hr =>
            hs.family.alive hz hp hinit (hrel.reaps _ hr).2.2.1⟩
    · exact Or.inl hinit
    · exact absurd hz (hnew.notMem hl.1)
  · rw [hpid]
    by_cases halive : s.Zombie z
    · rw [hcode halive]
      exact (hexits halive).snoc _
    · obtain ⟨hen, k, hexec⟩ := hl
      obtain ⟨hcurr, hcall, hvalue⟩ := he.exited hs hen hexec hz halive hzombie
      rw [hvalue]
      exact ⟨l₂, op, out, [], s, rfl, by simpa using hrun, hcurr.symm, hcall, rfl⟩

/-- **Every process** besides `idle` and `init` has been created. -/
theorem Run.born (h : (kernelSystem κ ν μ ρ).Run ls s) (hz : z ∈ s.used) (hinit : z ≠ s.initProc)
    (hidle : z ≠ s.sched.idle) : Born ls s z := by
  induction h with
  | start h => exact absurd ((init_used h).2 z hz) (not_or.2 ⟨hinit, hidle⟩)
  | @step ls s s' l hrun hl ih =>
    obtain ⟨op, out⟩ := l
    have he := step_effect hrun hl
    by_cases hold : z ∈ s.used
    · have hidle_eq := he.relates.idle_eq (kernel_sound ⟨ls, hrun⟩)
        (kernel_sound ⟨_, hrun.step hl⟩) hl.1
      exact (ih hold (he.relates.init ▸ hinit) (hidle_eq ▸ hidle)).step hrun hold hz hl
    · obtain ⟨⟨cloneVm, m, rfl, hm⟩, rfl, hparent, halive⟩ := he.born hold hz
      exact ⟨ls, cloneVm, m, [], s, rfl, hrun, hm, by simp, Or.inr ⟨hparent, by simp⟩,
        fun hzombie => absurd hzombie halive⟩

end Kernel

open Kernel

/-- **From `do_fork` to `do_wait`.**  When `do_wait` of the process `p` reaps a process `z`, then in
the run `z` has been created by a call of `do_fork` that has returned the pid of `z`, has called
`do_exit` after that, and has not been reaped in between.  It was `p` itself that called `do_fork`,
unless `p` is `init`; `p` waits for any child or for that pid, which no other process has; and the
word for the exit code gets the argument of that call of `do_exit`. -/
theorem fork_exit_wait {κ ν μ ρ : Type} [DecidableEq κ] [DecidableEq ν] [DecidableEq μ]
    [DecidableEq ρ] {ls : List (KernelOp κ ν μ ρ × Outcome ν)} {s s' : Kernel κ ν μ ρ}
    (h : (kernelSystem κ ν μ ρ).Run ls s) {op : KernelOp κ ν μ ρ} {pid : ℤ} {store : Bool} {z : ν}
    (hin : s.InWait op pid store)
    (hl : (kernelSystem κ ν μ ρ).step s (op, .returned 0 (some z)) s') :
    ∃ l₁ cloneVm m l₂ op' out' l₃ s₁ s₂,
      ls = l₁ ++ (.doFork cloneVm m, .returned (s.table.pid z) none) :: (l₂ ++ (op', out') :: l₃) ∧
      (∀ l ∈ l₂ ++ (op', out') :: l₃, ¬ Reaps z l) ∧
      ((kernelSystem κ ν μ ρ).Run l₁ s₁ ∧ m.pcb = some z ∧
        (s.curr = s.initProc ∨ s.curr = s₁.curr ∧
          ∀ l ∈ l₂ ++ (op', out') :: l₃, ¬ Reaps s₁.curr l)) ∧
      ((kernelSystem κ ν μ ρ).Run
          (l₁ ++ (.doFork cloneVm m, .returned (s.table.pid z) none) :: l₂) s₂ ∧
        s₂.curr = z ∧ s₂.CallsExit op' ∧ (store = true → s'.waitStatus s.curr = exitValue op')) ∧
      (pid = 0 ∨ pid = s.table.pid z) ∧
      (∀ c, s.inUse c = true → c ≠ s.sched.idle → s.table.pid c = s.table.pid z → c = z) ∧
      s'.inUse z = false := by
  obtain ⟨hen, k, hexec⟩ := id hl
  have hs := kernel_sound ⟨ls, h⟩
  obtain ⟨ps, kids, hfamily, -⟩ := hs.family
  have hround := (hin.round hen hexec).resolve_right (by decide)
  obtain ⟨_, -, hz, hwaits, hreaped⟩ := ((step_effect h hl).waited hround).resolve_right
    fun hnone => by cases hnone.1
  obtain rfl := Option.some.inj hz
  obtain ⟨hused, hparent, hpid⟩ := hwaits
  have hgone : s'.inUse z = false := by
    rw [hreaped.eq]
    exact Function.update_self ..
  have hstatus : store = true → s'.waitStatus s.curr = s.exitCode z := by
    rintro rfl
    rw [hreaped.eq]
    exact Function.update_self ..
  obtain ⟨l₁, cloneVm, m, l₂, s₁, rfl, hrun₁, hm, hreaps, hby, hexits⟩ :=
    Run.born h hused hreaped.ne_init hreaped.ne_idle
  obtain ⟨m₁, op', out', m₂, s₂, rfl, hrun₂, hcurr₂, hcall, hvalue⟩ := hexits hreaped.zombie
  rw [List.append_assoc, List.singleton_append] at hrun₂
  refine ⟨l₁, cloneVm, m, m₁, op', out', m₂, s₁, s₂, rfl, hreaps, ⟨hrun₁, hm, ?_⟩,
    ⟨hrun₂, hcurr₂, hcall, fun hstore => hvalue ▸ hstatus hstore⟩, ?_, fun c hc hne hcpid => ?_, hgone⟩
  · rw [hparent, Option.some.injEq, Option.some.injEq] at hby
    exact hby
  · exact hpid.imp id Eq.symm
  · exact hfamily.table.pid_inj c ((hfamily.table.mem c).2 ⟨hc, hne⟩) z
      ((hfamily.table.mem z).2 ⟨hused, hreaped.ne_idle⟩) hcpid

/-- `init` waits for its child 2, which exits with 7. -/
theorem fork_exit_wait_seven : ∃ (s s' : Kernel ℕ ℕ ℕ ℕ) (op' : KernelOp ℕ ℕ ℕ ℕ),
    (kernelSystem ℕ ℕ ℕ ℕ).step s (.resume, .returned 0 (some 2)) s' ∧
      exitValue op' = s'.waitStatus 1 ∧ s'.inUse 2 = false := by
  obtain ⟨s, ⟨ls, hs⟩, hcurr, hl, hout⟩ := exists_replayed
    [.yieldKernel, .schedule, .start, .doFork true (forkMem 2), .doWait 0 (some true), .schedule,
      .start, .doExit 7, .schedule]
    (fun s => s.curr = 1 ∧ s.loc s.curr = .within (.wait 0 true) ∧
      (exec 20 s .resume).toOption.map Prod.snd = some (.returned 0 (some 2))) (by decide +kernel)
  cases he : exec 20 s .resume with
  | error e => simp [he, Except.toOption] at hout
  | ok r =>
    obtain ⟨s', out⟩ := r
    obtain rfl : out = .returned 0 (some 2) := by simpa [he, Except.toOption] using hout
    have hstep : (kernelSystem ℕ ℕ ℕ ℕ).step s (.resume, .returned 0 (some 2)) s' :=
      ⟨⟨_, hl⟩, 20, he⟩
    obtain ⟨_, _, _, _, op', _, _, _, _, -, -, -, ⟨-, -, -, hstatus⟩, -, -, hgone⟩ :=
      fork_exit_wait hs (Or.inr ⟨rfl, hl⟩) hstep
    exact ⟨s, s', op', hstep, hcurr ▸ (hstatus rfl).symm, hgone⟩

/-! ### The end of `init_main` -/

namespace VmTable

variable {ν μ ρ : Type} [DecidableEq ν] [DecidableEq μ] [DecidableEq ρ] {V V' : VmTable ν μ ρ}
  {p q curr : ν} {m : VmMem μ ρ} {ok : Bool}

theorem leaveVmm_other (V : VmTable ν μ ρ) (hq : q ≠ p) : (V.leaveVmm p).vmm q = V.vmm q := by
  unfold leaveVmm
  cases V.vmm p with
  | none => rfl
  | some v =>
    refine (Function.update_of_ne hq _ _).trans ?_
    split_ifs
    · simp only [delVmm, freeGpt]
      split <;> rfl
    · rfl

theorem newVmm_other (hq : q ≠ p) (h : V.newVmm p m = (V', ok)) :
    V'.vmm q = V.vmm q ∧ V'.pGpt q = V.pGpt q := by
  unfold newVmm at h
  split at h
  · cases h
    exact ⟨rfl, rfl⟩
  split at h
  · cases h
    exact ⟨rfl, rfl⟩
  split_ifs at h
  · cases h
    exact ⟨Function.update_of_ne hq _ _, Function.update_of_ne hq _ _⟩
  · cases h
    simp only [delVmm, freeGpt]
    split <;> exact ⟨rfl, rfl⟩

theorem loadBin_other (hq : q ≠ p) (h : V.loadBin p m = .ok (V', ok)) :
    V'.vmm q = V.vmm q ∧ V'.pGpt q = V.pGpt q := by
  unfold loadBin at h
  split_ifs at h
  exact newVmm_other hq (Except.ok.inj h)

theorem copyVmm_other {cloneVm : Bool} (hq : q ≠ p) (h : V.copyVmm curr p cloneVm m = (V', ok)) :
    V'.vmm q = V.vmm q ∧ V'.pGpt q = V.pGpt q := by
  unfold copyVmm at h
  split at h
  · cases h
    exact ⟨rfl, rfl⟩
  split_ifs at h
  · cases h
    exact ⟨Function.update_of_ne hq _ _, Function.update_of_ne hq _ _⟩
  · exact newVmm_other hq h

end VmTable

namespace Kernel

variable {κ ν μ ρ : Type} [DecidableEq κ] [DecidableEq ν] [DecidableEq μ] [DecidableEq ρ]
  {s s' : Kernel κ ν μ ρ} {op : KernelOp κ ν μ ρ} {o : Option ν} {pid : ℤ} {store : Bool}

/-- When `do_wait` finds no child it changes nothing. -/
theorem Effect.waitedNone (he : Effect s op (.returned (-eBadProc) o) s')
    (hround : s.Round op pid store) : s' = s.back := by
  generalize hout : Outcome.returned (-eBadProc) o = out at he
  cases he with
  | waitNone => rfl
  | go hruns hl haway hidle hprio hnone => exact absurd hround (hnone pid store)
  | sleepBack hl heq htimers =>
    rcases hround with ⟨o₂, h₂, -⟩ | ⟨-, hl', -⟩
    · cases h₂
    · rw [hl] at hl'
      cases hl'
  | load | kill | unfork | fork => rcases hround with ⟨o₂, h₂, -⟩ | ⟨h₂, -⟩ <;> cases h₂
  | _ => cases hout

/-- The idle process has no address space of its own. -/
theorem Effect.idle_vmm (he : Effect s op out s') (hs : s.Sound)
    (h : s.vm.vmm s.sched.idle = none) : s'.vm.vmm s.sched.idle = none := by
  cases he with
  | go | waitNone | waitBlock | down | downBack | up | kill | schedule => exact h
  | sleep hcall heq htimers | sleepBack hl heq htimers =>
    subst heq
    exact h
  | reap hround hwaits hreaped hfamily =>
    rw [hreaped.eq]
    exact h
  | tick hws hw hs₁ htimers heq =>
    subst hs₁
    rw [heq]
    split_ifs
    · exact h
    · exact h
  | execve hcall => exact (s.vm.leaveVmm_other (hcall.ne_idle hs.placed).symm).trans h
  | load hl hload hl' =>
    exact (VmTable.loadBin_other (hs.placed.ne_idle (by simp [hl, Loc.At])).symm hload).1.trans h
  | @exit op vm errno ps ws kids kids' s' hrun hloc hvm hfamily hchildless hexit hfamily' =>
    have hne : s.sched.idle ≠ s.curr := Ne.symm hexit.ne_idle
    have hvmm : vm.vmm s.sched.idle = s.vm.vmm s.sched.idle := by
      rcases hvm with ⟨rfl, -⟩ | ⟨m, ret, -, -, hload⟩
      · rfl
      · exact (VmTable.loadBin_other hne hload).1
    rw [hexit.eq]
    exact ((vm.leaveVmm_other hne).trans hvmm).trans h
  | @unfork cloneVm m ret proc s' hcall hproc hun hret =>
    have hne := ne_of_unused hproc hs.placed.idle_mem
    have halloc : (s.vm.allocProc proc).vmm s.sched.idle = none :=
      (Function.update_of_ne hne _ _).trans h
    rcases hun.vm with hvm | hvm
    · exact (congrArg (fun V => V.vmm s.sched.idle) hvm).trans halloc
    · exact (VmTable.copyVmm_other hne hvm).1.trans halloc
  | @fork cloneVm m ret proc s' hcall hproc hforked hfamily =>
    have hne := ne_of_unused hproc hs.placed.idle_mem
    have halloc : (s.vm.allocProc proc).vmm s.sched.idle = none :=
      (Function.update_of_ne hne _ _).trans h
    exact (VmTable.copyVmm_other hne hforked.vm).1.trans halloc

theorem Reachable.idle_vmm (h : (kernelSystem κ ν μ ρ).Reachable s) :
    s.vm.vmm s.sched.idle = none := by
  refine h.induct (I := fun s => s.vm.vmm s.sched.idle = none) ?_ fun s l s' hr ih hl => ?_
  · rintro s ⟨s₀, k, m, idle, hboot, hm, he⟩
    obtain ⟨init, s₂, ret, rfl, hforked, -⟩ := initProcs_forked hboot hm he
    have hidle : s₂.sched.idle = idle := hforked.idle_eq
    have hnone : ((initIdle idle s₀).vm.allocProc init).vmm idle = none :=
      (Function.update_of_ne (hm init hforked.fresh).symm _ _).trans (Function.update_self ..)
    show s₂.vm.vmm s₂.sched.idle = none
    rw [hidle]
    exact (VmTable.copyVmm_other (hm init hforked.fresh).symm hforked.vm).1.trans hnone
  · obtain ⟨op, out⟩ := l
    have hs := kernel_sound hr
    obtain ⟨hen, k, he⟩ := id hl
    have heffect := hs.effect hen he
    rw [heffect.relates.idle_eq hs (kernel_sound (hr.step hl)) hen]
    exact heffect.idle_vmm hs ih

end Kernel

/-- **The end of `init_main`.**  When `do_wait(0)` finds no child of `init`, the assertions after the
loop hold: `init` is an only child without children, there are two processes, and `g_proc_list` holds
just `init`.  All other processes have been reaped, and no address space is left but that of
`init`, if it has one. -/
theorem init_main_asserts {κ ν μ ρ : Type} [DecidableEq κ] [DecidableEq ν] [DecidableEq μ]
    [DecidableEq ρ] {s s' : Kernel κ ν μ ρ} (h : (kernelSystem κ ν μ ρ).Reachable s)
    {op : KernelOp κ ν μ ρ} {store : Bool} {o : Option ν} (hcurr : s.curr = s.initProc)
    (hin : s.InWait op 0 store)
    (hl : (kernelSystem κ ν μ ρ).step s (op, .returned (-eBadProc) o) s') :
    (s'.table.child s'.initProc = none ∧ s'.table.younger s'.initProc = none ∧
      s'.table.older s'.initProc = none) ∧
    s'.table.numProc = 2 ∧ s'.table.procList.next none = some s'.initProc ∧
    s'.table.procList.prev none = some s'.initProc ∧
    (∀ p, s'.inUse p = true ↔ p = s'.initProc ∨ p = s'.sched.idle) ∧
    ∀ v, s'.vm.vmms v = true → s'.vm.vmm s'.initProc = some v := by
  obtain ⟨hen, k, hexec⟩ := id hl
  obtain ⟨ls, hrun⟩ := id h
  have hs := kernel_sound h
  obtain ⟨ps, kids, hfamily, -⟩ := hs.family
  have htable := hfamily.table
  have hround := (hin.round hen hexec).resolve_right (by decide)
  have he := step_effect hrun hl
  obtain ⟨-, rfl, hnone⟩ := (he.waited hround).resolve_left
    fun hz => by cases hz.choose_spec.1
  obtain rfl := he.waitedNone hround
  have hkids : kids s.initProc = [] := by
    refine List.eq_nil_iff_forall_not_mem.2 fun c hc => ?_
    obtain ⟨hcU, hparent⟩ := (htable.kin.mem _ c).1 hc
    exact hnone c ⟨hcU, hcurr.symm ▸ hparent, Or.inl rfl⟩
  have honly : ∀ p, p ∈ s.used ↔ p = s.initProc ∨ p = s.sched.idle := by
    refine fun p => ⟨fun hp => hfamily.only (fun c hc hparent => ?_) hp, ?_⟩
    · have hmem := (htable.kin.mem _ c).2 ⟨hc, hparent⟩
      rw [hkids] at hmem
      cases hmem
    · rintro (rfl | rfl)
      · exact hfamily.init_mem
      · exact htable.idle_mem
  have hne := hfamily.init_ne
  -- `init` is alone in the list, and an only child
  have hps : ps = [s.initProc] := by
    refine List.perm_singleton.1 ((List.perm_ext_iff_of_nodup htable.lists.nodup
      (List.nodup_singleton _)).2 fun p => ?_)
    rw [htable.mem, honly, List.mem_singleton]
    exact ⟨fun hp => hp.1.resolve_right hp.2, fun hp => ⟨Or.inl hp, hp ▸ hne⟩⟩
  have hidle : kids s.sched.idle = [s.initProc] := by
    refine List.perm_singleton.1 ((List.perm_ext_iff_of_nodup (htable.kin.nodup _)
      (List.nodup_singleton _)).2 fun p => ?_)
    rw [List.mem_singleton]
    refine ⟨hfamily.only_init p, ?_⟩
    rintro rfl
    exact (htable.kin.mem _ _).2 ⟨hfamily.init_mem, hfamily.init_parent⟩
  have hlists := htable.lists
  rw [hps] at hlists
  have hsiblings := htable.kin.siblings _ htable.idle_mem
  rw [hidle] at hsiblings
  refine ⟨⟨?_, hsiblings.1, hsiblings.2.1⟩, ?_, ?_, ?_, honly, fun v hv => ?_⟩
  · exact (htable.kin.child_eq_none hfamily.init_mem).2 hkids
  · exact htable.num.trans (by rw [hps]; rfl)
  · exact hlists.next_head
  · exact hlists.prev_head
  · obtain ⟨p, hp, hpv⟩ := (Reachable.vmSound h).used v hv
    rcases (honly p).1 hp with rfl | rfl
    · exact hpv
    · cases (Reachable.idle_vmm h).symm.trans hpv

/-- `init` has reaped its child 2, and calls `do_wait` again. -/
theorem init_main_asserts_reaped : ∃ s s' : Kernel ℕ ℕ ℕ ℕ,
    (kernelSystem ℕ ℕ ℕ ℕ).step s (.doWait 0 none, .returned (-eBadProc) none) s' ∧
      s'.table.numProc = 2 ∧ s'.table.procList.next none = some s'.initProc := by
  obtain ⟨s, hs, hcurr, hinit, hcall, hout⟩ := exists_replayed
    [.yieldKernel, .schedule, .start, .doFork true (forkMem 2), .doWait 0 none, .schedule, .start,
      .doExit 7, .schedule, .resume]
    (fun s => s.curr = 1 ∧ s.initProc = 1 ∧ s.MayCall ∧
      (exec 20 s (.doWait 0 none)).toOption.map Prod.snd = some (.returned (-eBadProc) none))
    (by decide +kernel)
  cases he : exec 20 s (.doWait 0 none) with
  | error e => simp [he, Except.toOption] at hout
  | ok r =>
    obtain ⟨s', out⟩ := r
    obtain rfl : out = .returned (-eBadProc) none := by simpa [he, Except.toOption] using hout
    have hstep : (kernelSystem ℕ ℕ ℕ ℕ).step s (.doWait 0 none, .returned (-eBadProc) none) s' :=
      ⟨hcall, 20, he⟩
    obtain ⟨-, hnum, hnext, -⟩ := init_main_asserts hs (hcurr.trans hinit.symm)
      (Or.inl ⟨none, rfl, rfl⟩) hstep
    exact ⟨s, s', hstep, hnum, hnext⟩

end GarretOS
