import GarretOS.Proc.WaitRuns

/-!
# Handing children over to `init`

The loop of `do_exit` takes the children of the exiting process one by one and makes them children
of `init`.  If `init` itself exits it takes each child from its own list and puts it back, so the
loop does not come to an end.

* `do_exit_reparents` : `do_exit` comes to an end, and every child has a parent that can reap it, if
  and only if the exiting process is not `init` or has no children;
* `do_exit_diverges` : `init` can be killed while it waits for a child.
-/

namespace GarretOS

open ProcTable Sched

namespace Kernel

section

variable {κ ν μ ρ : Type} [DecidableEq ν] {s s' : Kernel κ ν μ ρ} {ps : List ν}
  {kids : ν → List ν}

/-! ### The loop -/

/-- `init` takes its first child, puts it back, and goes on with it. -/
theorem reparentLoop_diverges (hinit : s.initProc = s.curr) (hchild : s.table.child s.curr ≠ none)
    (hwait : (s.sched.pcb s.initProc).waitState ≠ waitChild) (k : ℕ) :
    reparentLoop k s = .error .diverges := by
  induction k generalizing s with
  | zero => rfl
  | succ k ih =>
    rw [reparentLoop]
    cases hc : s.table.child s.curr with
    | none => exact absurd hc hchild
    | some proc =>
      simp only [if_neg fun h : _ ∧ _ => hwait h.2, ok_bind]
      refine ih hinit ?_ hwait
      show (s.reparent proc).child s.curr ≠ none
      rw [← hinit]
      simp [reparent, setChild]

/-- The loop comes to an end for a process other than `init`: the list of children, which are linked
by `older`, gets shorter. -/
theorem reparentLoop_fueled {U : Set ν} {t : Tree ν} {cs : List ν}
    (hinit : s.initProc ≠ s.curr) (hchild : s.table.child s.curr = cs.head?)
    (hcs : ∀ as c bs, cs = as ++ c :: bs → s.table.older c = bs.head?) (hnodup : cs.Nodup)
    (hpool : s.sched.PoolOk U t) (hfew : Few U s.sched.idle) (hU : s.initProc ∈ U)
    (hidle : s.initProc ≠ s.sched.idle) (halive : (s.sched.pcb s.initProc).state ≠ .zombie) :
    ∃ n s', Fueled n (fun k => reparentLoop k s) (.ok s') := by
  induction cs generalizing s t with
  | nil =>
    refine ⟨0, s, Fueled.now rfl fun k => ?_⟩
    rw [reparentLoop, hchild]
    rfl
  | cons proc cs ih =>
    obtain ⟨hproc, hnodup'⟩ := List.nodup_cons.1 hnodup
    -- the call of `wakeup_proc`
    obtain ⟨m, S, t', hm, hcurr, hidle', hpool', halive'⟩ : ∃ m S t',
        Fueled m (fun k => if (s.sched.pcb proc).state = .zombie ∧
          (s.sched.pcb s.initProc).waitState = waitChild then
            ({ s with table := s.reparent proc } : Kernel κ ν μ ρ).wakeupProc k s.initProc
          else .ok { s with table := s.reparent proc })
          (.ok { s with table := s.reparent proc, sched := S }) ∧
        S.curr = s.sched.curr ∧ S.idle = s.sched.idle ∧ S.PoolOk U t' ∧
        (S.pcb s.initProc).state ≠ .zombie := by
      split_ifs with hcond
      · obtain ⟨m, S, hF⟩ := hpool.wakeupProc_fueled halive
        have hwake : s.sched.wakeupProc (m + 1) s.initProc = .ok S := hF.of_lt (Nat.lt_succ_self m)
        have hwoken := wakeupProc_woken hwake
        obtain ⟨t', hpool', -⟩ := hpool.wakeupProc hfew hU hidle hwake
        refine ⟨m, S, t', hF.bind _, hwoken.curr, hwoken.idle, hpool', ?_⟩
        simp [hwoken.pcb_eq]
      · exact ⟨0, s.sched, t, .const, rfl, rfl, hpool, halive⟩
    have hchild' : (s.reparent proc).child S.curr = cs.head? := by
      have hne : s.curr ≠ s.initProc := hinit.symm
      rw [hcurr, ← hcs [] proc cs rfl]
      simp only [reparent, setYoungerOf_eq]
      exact (Function.update_of_ne hne _ _).trans (Function.update_self _ _ _)
    have hcs' : ∀ as c bs, cs = as ++ c :: bs → (s.reparent proc).older c = bs.head? := by
      intro as c bs he
      have hne : c ≠ proc := by
        rintro rfl
        exact hproc (by simp [he])
      simp only [reparent, setYoungerOf_eq]
      exact (Function.update_of_ne hne _ _).trans (hcs (proc :: as) c bs (by rw [he]; rfl))
    have hinit' : s.initProc ≠ S.curr := by rwa [hcurr]
    obtain ⟨n, s', hn⟩ := ih (s := { s with table := s.reparent proc, sched := S }) hinit' hchild'
      hcs' hnodup' hpool' (by rwa [hidle']) hU (by rwa [hidle']) halive'
    refine ⟨max m n + 1, s', (hm.seq hn).succ (Nat.lt_succ_self _) rfl fun k => ?_⟩
    simp only [reparentLoop, hchild, List.head?_cons]

end

/-! ### `do_exit` -/

variable {κ ν μ ρ : Type} [DecidableEq κ] [DecidableEq ν] {s s' : Kernel κ ν μ ρ} {k : ℕ}

section

variable [DecidableEq μ] [DecidableEq ρ]

/-- The exiting process has given up its address space and is a zombie. -/
def leaving (s : Kernel κ ν μ ρ) (errno : ℤ) : Kernel κ ν μ ρ :=
  { s with
    vm := s.vm.leaveVmm s.curr
    sched := s.sched.setPcb s.curr ⟨.zombie, (s.sched.pcb s.curr).waitState⟩
    exitCode := Function.update s.exitCode s.curr errno }

omit [DecidableEq κ] in
theorem leaving_pcb {p : ν} (hp : p ≠ s.curr) (errno : ℤ) :
    (s.leaving errno).sched.pcb p = s.sched.pcb p := Function.update_of_ne hp _ _

omit [DecidableEq κ] in
/-- `do_exit` wakes the parent and then runs its loop. -/
theorem doExit_eq (hidle : s.curr ≠ s.sched.idle) {parent : ν}
    (hparent : s.table.parent s.curr = some parent) (errno : ℤ) :
    s.doExit k errno = ((if ((s.leaving errno).sched.pcb parent).waitState = waitChild then
      (s.leaving errno).wakeupProc k parent else .ok (s.leaving errno)) >>= fun s₁ =>
        reparentLoop k s₁ >>= fun s₁ => .ok (s₁.setLoc s₁.curr (.calling .exit))) := by
  have hd : deref (s.table.parent s.curr) = .ok parent := deref_eq_ok.2 hparent
  unfold Kernel.doExit
  rw [if_neg hidle]
  show (deref (s.table.parent s.curr) >>= fun parent =>
    (if ((s.leaving errno).sched.pcb parent).waitState = waitChild then
      (s.leaving errno).wakeupProc k parent else .ok (s.leaving errno)) >>= fun s₁ =>
        reparentLoop k s₁ >>= fun s₁ => .ok (s₁.setLoc s₁.curr (.calling .exit))) = _
  rw [hd]
  rfl

/-- The parent is woken if it waits for a child. -/
theorem Sound.wakeParent (h : s.Sound) {parent : ν} (hparent : s.table.parent s.curr = some parent)
    {t : Tree ν} (hpool : s.sched.PoolOk s.used t) {s₁ : Kernel κ ν μ ρ} {vm : VmTable ν μ ρ}
    {errno : ℤ} (hs₁ : s₁ = ({ s with vm } : Kernel κ ν μ ρ).leaving errno) :
    ∃ m S t', Fueled m (fun k => if (s₁.sched.pcb parent).waitState = waitChild then
        s₁.wakeupProc k parent else .ok s₁) (.ok { s₁ with sched := S }) ∧
      S.idle = s.sched.idle ∧ S.curr = s.curr ∧ S.PoolOk s.used t' ∧
      (s.initProc ≠ s.curr → ¬ s.Zombie s.initProc → (S.pcb s.initProc).state ≠ .zombie) := by
  obtain ⟨ps, kids, hfamily, -⟩ := h.family
  have hcurr := h.placed.curr_mem
  have hparentU := hfamily.table.kin.parent s.curr hcurr parent hparent
  have hpc : parent ≠ s.curr := by
    rintro rfl
    exact (hfamily.table.descends _ hcurr).parent_ne hfamily.table.root hparent
  have hpcb : ∀ p, p ≠ s.curr → s₁.sched.pcb p = s.sched.pcb p := by
    intro p hp
    rw [hs₁]
    exact leaving_pcb hp errno
  have hpool₁ : s₁.sched.PoolOk s.used t := by
    rw [hs₁]
    exact hpool.setPcb_curr _
  have hidle₁ : s₁.sched.idle = s.sched.idle := by
    rw [hs₁]
    rfl
  have hcurr₁ : s₁.sched.curr = s.curr := by
    rw [hs₁]
    rfl
  rw [hpcb parent hpc]
  split_ifs with hcond
  · have hstate : (s₁.sched.pcb parent).state ≠ .zombie := by
      rw [hpcb parent hpc, ((h.placed.allows parent hparentU).waitChild hcond).1]
      decide
    have hne : parent ≠ s₁.sched.idle := by
      rw [hidle₁]
      rintro rfl
      rw [h.placed.idle_running] at hcond
      exact absurd hcond (by decide)
    obtain ⟨m, S, hF⟩ := hpool₁.wakeupProc_fueled hstate
    have hwake := hF.of_lt (Nat.lt_succ_self m)
    have hwoken := wakeupProc_woken hwake
    obtain ⟨t', hpool', -⟩ := hpool₁.wakeupProc (hidle₁ ▸ h.few) hparentU hne hwake
    refine ⟨m, S, t', hF.bind _, hwoken.idle.trans hidle₁, hwoken.curr.trans hcurr₁, hpool',
      fun hi hz => ?_⟩
    rw [hwoken.pcb_eq]
    split_ifs
    · simp
    · exact (congrArg RunState.state (hpcb _ hi)).trans_ne hz
  · exact ⟨0, s₁.sched, t, .const, hidle₁, hcurr₁, hpool₁, fun hi hz => by rwa [hpcb _ hi]⟩

/-- **`do_exit` comes to an end**, unless `init` has children. -/
theorem Sound.doExit_fueled (h : s.Sound) (hidle : s.curr ≠ s.sched.idle)
    (hloop : s.initProc ≠ s.curr ∧ ¬ s.Zombie s.initProc ∨ s.table.child s.curr = none)
    (vm : VmTable ν μ ρ) (errno : ℤ) :
    ∃ n s', Fueled n (fun k => ({ s with vm } : Kernel κ ν μ ρ).doExit k errno) (.ok s') := by
  obtain ⟨ps, kids, hfamily, -⟩ := h.family
  obtain ⟨t, hpool⟩ := h.pool
  have hcurr := h.placed.curr_mem
  obtain ⟨parent, -, hparent⟩ := hfamily.table.exists_parent hcurr hidle
  obtain ⟨s₁, hs₁⟩ : ∃ s₁, s₁ = ({ s with vm } : Kernel κ ν μ ρ).leaving errno := ⟨_, rfl⟩
  obtain ⟨m, S, t', hm, hidle', hcurr', hpool', halive⟩ := h.wakeParent hparent hpool hs₁
  obtain ⟨s₂, hs₂⟩ : ∃ s₂ : Kernel κ ν μ ρ, s₂ = { s₁ with sched := S } := ⟨_, rfl⟩
  obtain ⟨n, s', hn⟩ : ∃ n s', Fueled n (fun k => reparentLoop k s₂) (.ok s') := by
    have hsame : s₂.table = s.table ∧ s₂.initProc = s.initProc ∧ s₂.sched = S ∧
        s₂.curr = s.curr := by
      rw [hs₂, hs₁]
      exact ⟨rfl, rfl, rfl, hcurr'⟩
    obtain ⟨htable, hinit, hsched, hcurr₂⟩ := hsame
    have hchild : s₂.table.child s₂.curr = s.table.child s.curr := by rw [htable, hcurr₂]
    rcases hloop with ⟨hne, hz⟩ | hnone
    · have hsib := hfamily.table.kin.siblings s.curr hcurr
      refine reparentLoop_fueled (by rwa [hinit, hcurr₂])
        (hchild.trans (hfamily.table.kin.child s.curr hcurr))
        (fun as c bs he => by rw [htable]; exact (he ▸ hsib).links.1)
        (hfamily.table.kin.nodup s.curr) (hsched ▸ hpool') ?_ ?_ ?_ ?_
      · rw [hsched, hidle']
        exact h.few
      · rw [hinit]
        exact hfamily.init_mem
      · rw [hinit, hsched, hidle']
        exact hfamily.init_ne
      · rw [hinit, hsched]
        exact halive hne hz
    · refine ⟨0, s₂, Fueled.now rfl fun k => ?_⟩
      rw [reparentLoop, hchild, hnone]
  have heq := fun k => doExit_eq (s := { s with vm }) (k := k) hidle hparent errno
  simp only [heq, ← hs₁]
  exact ⟨_, _, hm.seq (hs₂ ▸ hn.bind fun s => .ok (s.setLoc s.curr (.calling .exit)))⟩

/-- **`do_exit` does not come to an end** when `init` has children. -/
theorem Sound.doExit_diverges (h : s.Sound) (hinit : s.initProc = s.curr)
    (hrun : s.sched.pcb s.curr = .running) (hchild : s.table.child s.curr ≠ none)
    (vm : VmTable ν μ ρ) (errno : ℤ) :
    ({ s with vm } : Kernel κ ν μ ρ).doExit k errno = .error .diverges := by
  obtain ⟨ps, kids, hfamily, -⟩ := h.family
  have hidle : s.curr ≠ s.sched.idle := hinit ▸ hfamily.init_ne
  have hparent : s.table.parent s.curr = some s.sched.idle := hinit ▸ hfamily.init_parent
  obtain ⟨s₁, hs₁⟩ : ∃ s₁, s₁ = ({ s with vm } : Kernel κ ν μ ρ).leaving errno := ⟨_, rfl⟩
  have hnoWait : (s₁.sched.pcb s.sched.idle).waitState ≠ waitChild := by
    rw [show s₁.sched.pcb s.sched.idle = s.sched.pcb s.sched.idle by
      rw [hs₁]
      exact leaving_pcb hidle.symm errno, h.placed.idle_running]
    decide
  have hloop : reparentLoop k s₁ = .error .diverges := by
    have hpcb : s₁.sched.pcb s₁.initProc = ⟨.zombie, (s.sched.pcb s.curr).waitState⟩ := by
      rw [hs₁]
      show Function.update s.sched.sem.pcb s.curr _ s.initProc = _
      rw [hinit, Function.update_self]
      rfl
    refine reparentLoop_diverges ?_ ?_ ?_ k
    · rw [hs₁]
      exact hinit
    · rw [hs₁]
      exact hchild
    · rw [hpcb, hrun]
      exact show waitNone ≠ waitChild by decide
  rw [doExit_eq (s := { s with vm }) hidle hparent, ← hs₁, if_neg hnoWait, ok_bind, hloop]
  rfl

end

/-! ### `init` stays alive -/

variable [DecidableEq μ] [DecidableEq ρ] {op : KernelOp κ ν μ ρ} {out : Outcome ν}

/-- A process becomes a zombie by calling `do_exit`. -/
theorem Effect.zombie (hs : s.Sound) (he : Effect s op out s') {p : ν} (hp : p ∈ s.used)
    (hz : s'.Zombie p) : s.Zombie p ∨ p = s.curr ∧ ∃ vm errno ps ws kids kids',
      Exited { s with vm } s' errno kids ws kids' ∧ s'.FamilyOk ps kids' := by
  -- a process that goes to sleep does not become a zombie by it
  have hasleep : ∀ w, ¬(Function.update s.sched.sem.pcb s.curr ⟨.sleeping, w⟩ p).state = .zombie ∨
      s.Zombie p := by
    intro w
    by_cases hpc : p = s.curr
    · exact Or.inl (by simp [hpc])
    · by_cases hzp : s.Zombie p
      · exact Or.inr hzp
      · exact Or.inl (by rwa [Function.update_of_ne hpc])
  cases he with
  | go hruns hl haway hidle hprio => exact Or.inl hz
  | execve hcall => exact Or.inl hz
  | load hl hload hl' => exact Or.inl hz
  | waitNone hround hnone => exact Or.inl hz
  | waitBlock hround hsome hall => exact Or.inl ((hasleep waitChild).resolve_left (not_not.2 hz))
  | reap hround hwaits hreaped hfamily =>
    rw [hreaped.eq] at hz
    exact Or.inl hz
  | sleep hcall heq htimers =>
    subst heq
    exact Or.inl ((hasleep waitTimer).resolve_left (not_not.2 hz))
  | sleepBack hl heq htimers =>
    subst heq
    exact Or.inl hz
  | @down j sem hl hidle hin hpcb hqueues =>
    refine Or.inl ((hasleep waitSem).resolve_left (not_not.2 ?_))
    rw [← hpcb]
    exact hz
  | downBack hl hqueues => exact Or.inl hz
  | @up j w sem sched hl hidle hfirst hblocked hin hpcb hw hqueues =>
    obtain ⟨-, hz'⟩ := hw.woken.zombie hz
    rw [Sched.pcb, hpcb] at hz'
    exact Or.inl hz'
  | kill hcall hp hidle hpid hflag hws hw => exact Or.inl (hw.woken.zombie hz).2
  | @tick ws timers sched s₁ s' hws hw hs₁ htimers heq =>
    have hpcb : s'.sched.pcb p = sched.pcb p := by
      rw [heq, ← sched.schedulerProcTick_pcb, hs₁]
      split_ifs
      · rfl
      · rfl
    rw [Zombie, hpcb] at hz
    exact Or.inl (hw.woken.zombie hz).2
  | @schedule r k sched hr hsched =>
    obtain ⟨t, t', -, -, hsw, -⟩ := hs.switched hsched
    refine Or.inl ?_
    have hz' : (sched.pcb p).state = .zombie := hz
    rwa [Sched.pcb, hsw.sem] at hz'
  | exit hrun hloc hvm hfamily hchildless hexit hfamily' =>
    by_cases hpc : p = s.curr
    · exact Or.inr ⟨hpc, _, _, _, _, _, _, hexit, hfamily'⟩
    · refine Or.inl ?_
      obtain ⟨-, hz'⟩ := hexit.wakes.woken.zombie hz
      exact (congrArg RunState.state (Function.update_of_ne hpc _ _)).symm.trans hz'
  | @unfork cloneVm m ret proc s' hcall hproc hun hret =>
    have hz' : (s'.sched.pcb p).state = .zombie := hz
    rw [hun.pcb_of_ne (ne_of_unused hproc hp)] at hz'
    exact Or.inl hz'
  | @fork cloneVm m ret proc s' hcall hproc hforked hfamily =>
    have hz' : (s'.sched.pcb p).state = .zombie := hz
    rw [hforked.pcb_of_ne (ne_of_unused hproc hp)] at hz'
    exact Or.inl hz'

omit [DecidableEq κ] [DecidableEq ν] [DecidableEq μ] [DecidableEq ρ] in
/-- Without children of `init` there is nobody else besides `idle`. -/
theorem FamilyOk.only {ps : List ν} {kids : ν → List ν} (h : s.FamilyOk ps kids)
    (hnone : ∀ p ∈ s.used, s.table.parent p ≠ some s.initProc) {p : ν} (hp : p ∈ s.used) :
    p = s.initProc ∨ p = s.sched.idle := by
  have hdescends := h.table.descends p hp
  induction hdescends using Relation.ReflTransGen.head_induction_on with
  | refl => exact Or.inr rfl
  | @head a b hab _ ih =>
    rcases ih (h.table.kin.parent a hp b hab) with rfl | rfl
    · exact absurd hab (hnone a hp)
    · exact Or.inl (h.only_init a ((h.table.kin.mem _ a).2 ⟨hp, hab⟩))

/-- When `init` is a zombie, there is nobody else besides `idle`. -/
def InitAlive (s : Kernel κ ν μ ρ) : Prop :=
  s.Zombie s.initProc → ∀ p ∈ s.used, p = s.initProc ∨ p = s.sched.idle

theorem Effect.initAlive (hs : s.Sound) (hs' : s'.Sound) (hen : s.Enabled op) (h : s.InitAlive)
    (he : Effect s op out s') : s'.InitAlive := by
  have hrel := he.relates
  obtain ⟨ps, kids, hfamily, -⟩ := hs.family
  intro hz p hp
  rw [hrel.init] at hz
  rcases he.zombie hs hfamily.init_mem hz with
    hz | ⟨hcurr, vm, errno, qs, ws, kids₁, kids', hexit, hok⟩
  · rw [hrel.init, hrel.idle_eq hs hs' hen]
    rcases hrel.member p hp with ⟨hold, -⟩ | ⟨⟨cloneVm, m, ret, hl, -, -⟩, -⟩
    · exact h hz p hold
    · -- a zombie does not call `do_fork`
      obtain ⟨rfl, -⟩ := Prod.mk.inj hl
      rcases h hz s.curr hs.placed.curr_mem with hc | hc
      · rw [Zombie, ← hc, hen.1.runs.running hs.placed] at hz
        cases hz
      · exact absurd hc (hen.1.ne_idle hs.placed)
  · -- no process has `init` as its parent when `init` exits
    refine hok.only (fun q hq hparent => ?_) hp
    have hinit : s'.initProc = s.curr := hrel.init.trans hcurr
    have hmem : q ∈ kids' s.curr := (hok.table.kin.mem _ q).2 ⟨hq, hinit ▸ hparent⟩
    rw [show kids' s.curr = [] from hexit.nil] at hmem
    cases hmem

/-! ### Calls of `do_exit` -/

/-- The step calls `do_exit`. -/
def CallsExit (s : Kernel κ ν μ ρ) : KernelOp κ ν μ ρ → Prop
  | .doExit _ => True
  | .trapEnd => s.flagExit s.curr = true
  | .resume => (∃ pid store, s.loc s.curr = .within (.wait pid store)) ∧ s.flagExit s.curr = true
  | .loadBin m _ => ∃ vm, s.vm.loadBin s.curr m = .ok (vm, false)
  | _ => False

theorem CallsExit.exec (hcall : s.CallsExit op) (hen : s.Enabled op) (hs : s.Placed) :
    s.sched.pcb s.curr = .running ∧ s.curr ≠ s.sched.idle ∧ ∃ vm errno, ∀ k,
      exec k s op = (({ s with vm } : Kernel κ ν μ ρ).doExit k errno >>= fun s => .ok (s, .none)) := by
  cases op with
  | doExit errno =>
    exact ⟨MayCall.runs hen |>.running hs, MayCall.ne_idle hen hs, s.vm, errno, fun k => rfl⟩
  | trapEnd =>
    have hl : s.loc s.curr = .trapEnd := hen
    have hflag : s.flagExit s.curr = true := hcall
    refine ⟨hs.curr_running (by simp [hl]), hs.ne_idle (by simp [hl, Loc.At]), s.vm,
      -eKilled, fun k => ?_⟩
    simp only [Kernel.exec, Kernel.trapEnd, if_pos hflag]
    rfl
  | resume =>
    obtain ⟨⟨pid, store, hl⟩, hflag⟩ := hcall
    refine ⟨hs.curr_running (by simp [hl]), hs.ne_idle (by simp [hl, Loc.At]), s.vm,
      -eKilled, fun k => ?_⟩
    simp only [Kernel.exec, hl, Kernel.resume, if_pos hflag]
    rfl
  | loadBin m ret =>
    obtain ⟨vm, hload⟩ := hcall
    have hl : s.loc s.curr = .loading := hen.1
    refine ⟨hs.curr_running (by simp [hl]), hs.ne_idle (by simp [hl, Loc.At]), vm, ret,
      fun k => ?_⟩
    simp only [Kernel.exec, Kernel.loadBin, hload, ok_bind]
    rfl
  | _ => cases hcall

/-- The process `c` is a child of `p`: its link `parent` says so, and it is reached from `p` by the
link `child` and then the links `older`. -/
def ChildOf (s : Kernel κ ν μ ρ) (c p : ν) : Prop :=
  s.table.parent c = some p ∧
    ∃ cs, s.table.child p = cs.head? ∧ s.table.forest.Siblings none cs ∧ c ∈ cs

/-- In `s'` the process that runs in `s` has no children, and each child that it had is a child of a
process that has not exited. -/
structure HasReparented (s s' : Kernel κ ν μ ρ) : Prop where
  child : s'.table.child s.curr = none
  parent : ∀ c ∈ s'.used, s'.table.parent c ≠ some s.curr
  used : s'.used = s.used
  adopted : ∀ c ∈ s.used, s.table.parent c = some s.curr →
    ∃ p ∈ s'.used, s'.ChildOf c p ∧ ¬ s'.Zombie p

omit [DecidableEq κ] in
theorem Exited.hasReparented {vm : VmTable ν μ ρ} {errno : ℤ} {ws ps : List ν}
    {kids kids' : ν → List ν} (h : Exited { s with vm } s' errno kids ws kids')
    (hok : s'.FamilyOk ps kids') (hcurr : s.curr ∈ s.used) (halive : s.initProc ≠ s.curr →
      ¬ s.Zombie s.initProc) (hinit : s.initProc ∈ s.used) : HasReparented s s' := by
  have hused : s'.used = s.used := by
    rw [h.eq]
    rfl
  have hnil : kids' s.curr = [] := h.nil
  have hparent : ∀ c ∈ s.used, s'.table.parent c ≠ some s.curr := by
    intro c hc hp
    have hmem : c ∈ kids' s.curr := (hok.table.kin.mem _ c).2 ⟨hused ▸ hc, hp⟩
    rw [hnil] at hmem
    cases hmem
  refine ⟨(hok.table.kin.child_eq_none (hused ▸ hcurr)).2 hnil, hused ▸ hparent, hused,
    fun c hc hp => ?_⟩
  have hadopted : s'.table.parent c = some s.initProc := (h.parent c hc).trans (if_pos hp)
  have hne : s.initProc ≠ s.curr := by
    intro hi
    exact hparent c hc (hi ▸ hadopted)
  have hinit' : s.initProc ∈ s'.used := hused ▸ hinit
  refine ⟨s.initProc, hinit', ⟨hadopted, kids' s.initProc, hok.table.kin.child _ hinit',
    hok.table.kin.siblings _ hinit', (hok.table.kin.mem _ c).2 ⟨hused ▸ hc, hadopted⟩⟩, fun hz => ?_⟩
  obtain ⟨-, hz⟩ := h.wakes.woken.zombie hz
  exact halive hne ((congrArg RunState.state (Function.update_of_ne hne _ _)).symm.trans hz)

end Kernel

open Kernel

/-- **`do_exit` hands the children over** to a process that can reap them, if and only if it is not
called by `init` or `init` has no children; otherwise its loop does not come to an end. -/
theorem do_exit_reparents {κ ν μ ρ : Type} [DecidableEq κ] [DecidableEq ν] [DecidableEq μ]
    [DecidableEq ρ] {s : Kernel κ ν μ ρ} (h : (kernelSystem κ ν μ ρ).Reachable s)
    {op : KernelOp κ ν μ ρ} (hen : s.Enabled op) (hcall : s.CallsExit op) :
    (∃ n s', (∀ k, n < k → exec k s op = .ok (s', .none)) ∧ HasReparented s s') ↔
      s.curr ≠ s.initProc ∨ s.table.child s.curr = none := by
  have hs := kernel_sound h
  have hinitAlive : s.InitAlive := by
    refine h.induct (fun s hs _ p hp => (init_used hs).2 p hp) fun s l s' hr ih hl => ?_
    obtain ⟨hen, k, he⟩ := hl
    have hs := kernel_sound hr
    have heffect := hs.effect hen he
    exact heffect.initAlive hs (heffect.sound hs) hen ih
  obtain ⟨hrun, hidle, vm, errno, hexec⟩ := hcall.exec hen hs.placed
  obtain ⟨ps, kids, hfamily, -⟩ := hs.family
  have hcurr := hs.placed.curr_mem
  have halive : s.initProc ≠ s.curr → ¬ s.Zombie s.initProc := by
    intro hne hz
    rcases hinitAlive hz s.curr hcurr with hc | hc
    · exact hne hc.symm
    · exact hidle hc
  constructor
  · rintro ⟨n, s', hn, -⟩
    by_contra hno
    push Not at hno
    have hdiverges := hs.doExit_diverges (k := n + 1) hno.1.symm hrun hno.2 vm errno
    have hok := hn (n + 1) (Nat.lt_succ_self n)
    rw [hexec, hdiverges] at hok
    cases hok
  · intro hcond
    obtain ⟨n, s', hF⟩ := hs.doExit_fueled hidle
      (hcond.imp (fun hne => ⟨hne.symm, halive hne.symm⟩) id) vm errno
    refine ⟨n, s', fun k hk => by rw [hexec, hF.of_lt hk]; rfl, ?_⟩
    have hwait : (s.sched.pcb s.sched.idle).waitState ≠ waitChild := by
      rw [hs.placed.idle_running]
      decide
    have hfamily' : ({ s with vm } : Kernel κ ν μ ρ).FamilyOk ps kids :=
      hfamily.congr rfl rfl rfl rfl
    obtain ⟨ws, kids', hexit, hok⟩ :=
      hfamily'.doExit hcurr hwait (hF.of_lt (Nat.lt_succ_self n))
    exact hexit.hasReparented hok hcurr halive hfamily.init_mem

/-- A child of the process 2 is handed over when 2 exits. -/
theorem do_exit_reparents_three : ∃ s s' : Kernel ℕ ℕ ℕ ℕ, s.curr = 2 ∧
    s.table.parent 3 = some 2 ∧ (kernelSystem ℕ ℕ ℕ ℕ).step s (.doExit 0, .none) s' ∧
      s'.table.child 2 = none ∧ ∃ p, s'.ChildOf 3 p ∧ ¬ s'.Zombie p := by
  obtain ⟨s, hs, hcurr, hinit, hparent, hin, hcall⟩ := exists_replayed
    [.yieldKernel, .schedule, .start, .doFork true (forkMem 2), .doWait 0 none, .schedule, .start,
      .doFork true (forkMem 3)]
    (fun s => s.curr = 2 ∧ s.initProc = 1 ∧ s.table.parent 3 = some 2 ∧ s.inUse 3 = true ∧
      s.MayCall) (by decide +kernel)
  have hne : s.curr ≠ s.initProc := by
    rw [hcurr, hinit]
    decide
  have hen : s.Enabled (.doExit 0) := hcall
  obtain ⟨n, s', hexec, hchild, -, -, hadopted⟩ :=
    (do_exit_reparents hs hen trivial).2 (Or.inl hne)
  obtain ⟨p, -, hp⟩ := hadopted 3 hin (hparent.trans (by rw [hcurr]))
  exact ⟨s, s', hcurr, hparent, ⟨hcall, n + 1, hexec _ (Nat.lt_succ_self n)⟩, hcurr ▸ hchild, p, hp⟩

/-- `init` is killed while it waits for its child 2: `do_exit` does not come to an end. -/
theorem do_exit_diverges : ∃ s : Kernel ℕ ℕ ℕ ℕ, (kernelSystem ℕ ℕ ℕ ℕ).Reachable s ∧
    s.Enabled .resume ∧ s.CallsExit .resume ∧ s.curr = s.initProc ∧
    s.table.child s.curr = some 2 ∧ ∀ k, exec k s .resume = .error .diverges := by
  obtain ⟨s, hs, hcurr, hinit, hchild, hl, hflag⟩ := exists_replayed
    [.yieldKernel, .schedule, .start, .doFork true (forkMem 2), .doWait 0 none, .schedule, .start,
      .doExecve true, .loadBin ⟨some 2, some 2, true⟩ 1, .doKill 1, .trapEnd, .doSleep 5, .schedule]
    (fun s => s.curr = 1 ∧ s.initProc = 1 ∧ s.table.child 1 = some 2 ∧
      s.loc 1 = .within (.wait 0 false) ∧ s.flagExit 1 = true) (by decide +kernel)
  rw [← hcurr] at hchild hl hflag
  have hcall : s.CallsExit .resume := ⟨⟨0, false, hl⟩, hflag⟩
  have hsound := kernel_sound hs
  obtain ⟨hrun, -, vm, errno, hexec⟩ := hcall.exec ⟨_, hl⟩ hsound.placed
  refine ⟨s, hs, ⟨_, hl⟩, hcall, hcurr.trans hinit.symm, hchild, fun k => ?_⟩
  rw [hexec, hsound.doExit_diverges (hinit.trans hcurr.symm) hrun (by simp [hchild])]
  rfl

end GarretOS
