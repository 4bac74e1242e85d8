import GarretOS.Proc.SoundRuns

/-!
# Waiting for children

A process that sleeps in `do_wait` has a child that it waits for, and none of the children that it
waits for is a zombie (`Waits`): `do_wait` only blocks then, a child that exits wakes its parent, and
when a process hands zombies over to `init` it wakes `init`.

* `Effect.waits` : a step keeps this;
* `Effect.relates` : who comes, who goes, and who gets another parent in a step;
* `Made` : a process was created by its parent, unless that is `init`;
* `do_wait_correct` : no exit is lost and none is reported twice.
-/

namespace GarretOS

open ProcTable Sched

namespace Kernel

variable {κ ν μ ρ : Type} {s s' : Kernel κ ν μ ρ} {op : KernelOp κ ν μ ρ} {out : Outcome ν}

/-- A process that waits for a child sleeps in `do_wait`, and none of the children that it waits for
is a zombie. -/
def Waits (s : Kernel κ ν μ ρ) : Prop :=
  ∀ p ∈ s.used, (s.sched.pcb p).waitState = waitChild →
    ∃ pid store, (s.loc p).At (.wait pid store) ∧ (∃ c, s.WaitsFor p pid c) ∧
      ∀ c, s.WaitsFor p pid c → ¬ s.Zombie c

/-- The family stays the same, nobody begins to wait for a child, and nobody exits. -/
theorem Waits.congr (h : s.Waits) (hused : s'.used = s.used)
    (hparent : ∀ c ∈ s.used, s'.table.parent c = s.table.parent c)
    (hpid : ∀ c ∈ s.used, s'.table.pid c = s.table.pid c)
    (hpcb : ∀ p ∈ s.used, s'.sched.pcb p = s.sched.pcb p ∨
      (s'.sched.pcb p).waitState ≠ waitChild ∧ (s'.sched.pcb p).state ≠ .zombie)
    (hloc : ∀ p ∈ s.used, s'.sched.pcb p = s.sched.pcb p → (s.sched.pcb p).waitState = waitChild →
      s'.loc p = s.loc p ∨ ∀ ret, (s'.loc p).At ret ↔ (s.loc p).At ret) : s'.Waits := by
  intro p hp hwait
  rw [hused] at hp
  rcases hpcb p hp with hsame | ⟨hne, -⟩
  · rw [hsame] at hwait
    obtain ⟨pid, store, hl, ⟨c, hc⟩, hall⟩ := h p hp hwait
    have hfor : ∀ c, s'.WaitsFor p pid c ↔ s.WaitsFor p pid c := by
      intro c
      rw [WaitsFor, WaitsFor, hused]
      refine and_congr_right fun hcU => ?_
      rw [hparent c hcU, hpid c hcU]
    refine ⟨pid, store, ?_, ⟨c, (hfor c).2 hc⟩, fun c hc hz => ?_⟩
    · rcases hloc p hp hsame hwait with he | he
      · rw [he]
        exact hl
      · exact (he _).2 hl
    · have hc' := (hfor c).1 hc
      rcases hpcb c hc'.1 with hsame' | ⟨-, hne⟩
      · refine hall c hc' ?_
        rw [Zombie, ← hsame']
        exact hz
      · exact hne hz
  · exact absurd hwait hne

/-- Only the running process moves, and it does not wait for a child. -/
theorem Waits.moves (h : s.Waits) (hused : s'.used = s.used) (htable : s'.table = s.table)
    (hother : ∀ p, p ≠ s.curr → s'.sched.pcb p = s.sched.pcb p ∧ s'.loc p = s.loc p)
    (hrun : s.sched.pcb s.curr = .running)
    (hcurr : (s'.sched.pcb s.curr).waitState ≠ waitChild)
    (halive : (s'.sched.pcb s.curr).state ≠ .zombie) : s'.Waits := by
  refine h.congr hused (fun c _ => by rw [htable]) (fun c _ => by rw [htable]) (fun p _ => ?_)
    fun p _ _ hwait => ?_
  · by_cases hp : p = s.curr
    · rw [hp]
      exact Or.inr ⟨hcurr, halive⟩
    · exact Or.inl (hother p hp).1
  · by_cases hp : p = s.curr
    · rw [hp, hrun] at hwait
      exact absurd hwait (by decide)
    · exact Or.inl (hother p hp).2

variable [DecidableEq ν]

omit [DecidableEq ν] in
/-- Only the place of the running process changes. -/
theorem Waits.stays (h : s.Waits) (hused : s'.used = s.used) (htable : s'.table = s.table)
    (hpcb : ∀ p, s'.sched.pcb p = s.sched.pcb p) (hloc : ∀ p, p ≠ s.curr → s'.loc p = s.loc p)
    (hrun : s.sched.pcb s.curr = .running) : s'.Waits := by
  refine h.moves hused htable (fun p hp => ⟨hpcb p, hloc p hp⟩) hrun ?_ ?_
  · rw [hpcb, hrun]
    decide
  · rw [hpcb, hrun]
    decide

/-- The running process returns to the code that has called a kernel function. -/
theorem Waits.back (h : s.Waits) (hrun : s.sched.pcb s.curr = .running) : s.back.Waits :=
  h.stays rfl rfl (fun _ => rfl) (fun _ hp => back_loc_of_ne hp) hrun

/-- Calls of `wakeup_proc`. -/
theorem Waits.wakes (h : s.Waits) (hs : s.Placed) {ws : List ν}
    (hpcb : ∀ p, s'.sched.pcb p = if p ∈ ws then (s.sched.pcb p).woken else s.sched.pcb p)
    (hused : s'.used = s.used) (htable : s'.table = s.table) (hloc : s'.loc = s.loc) :
    s'.Waits := by
  refine h.congr hused (fun c _ => by rw [htable]) (fun c _ => by rw [htable]) (fun p hp => ?_)
    fun p _ _ _ => Or.inl (by rw [hloc])
  rw [hpcb]
  by_cases hpw : p ∈ ws
  · rw [if_pos hpw, RunState.woken_running (hs.allows p hp).eq_running]
    exact Or.inr ⟨by decide, by decide⟩
  · rw [if_neg hpw]
    exact Or.inl rfl

/-- Calls of `wakeup_proc`, after which the running process returns. -/
theorem Waits.wakes_back (h : s.Waits) (hs : s.Placed) {ws : List ν}
    (hrun : s.sched.pcb s.curr = .running)
    (hpcb : ∀ p, s'.sched.pcb p = if p ∈ ws then (s.sched.pcb p).woken else s.sched.pcb p)
    (hcurr : s'.curr = s.curr) (hused : s'.used = s.used) (htable : s'.table = s.table)
    (hloc : s'.loc = s.loc) : s'.back.Waits := by
  refine (h.wakes hs hpcb hused htable hloc).back ?_
  rw [hcurr, hpcb, hrun]
  split_ifs <;> rfl

/-- `do_wait` blocks. -/
theorem Waits.block (h : s.Waits) {pid : ℤ} {store : Bool} (hsome : ∃ c, s.WaitsFor s.curr pid c)
    (hall : ∀ c, s.WaitsFor s.curr pid c → ¬ s.Zombie c) :
    (({ s with sched := s.sched.setPcb s.curr ⟨.sleeping, waitChild⟩ } :
      Kernel κ ν μ ρ).setLoc s.curr (.calling (.wait pid store))).Waits := by
  intro p hp hwait
  have hzombie : ∀ c, (({ s with sched := s.sched.setPcb s.curr ⟨.sleeping, waitChild⟩ } :
      Kernel κ ν μ ρ).setLoc s.curr (.calling (.wait pid store))).Zombie c → s.Zombie c := by
    intro c hc
    by_cases hcc : c = s.curr
    · simp [Zombie, setLoc, setPcb, Sched.pcb, hcc] at hc
    · simpa [Zombie, setLoc, setPcb, Sched.pcb, hcc] using hc
  by_cases hpc : p = s.curr
  · subst hpc
    exact ⟨pid, store, Or.inl (Function.update_self _ _ _), hsome,
      fun c hc hz => hall c hc (hzombie c hz)⟩
  · have hwait' : (s.sched.pcb p).waitState = waitChild := by
      simpa [setLoc, setPcb, Sched.pcb, hpc] using hwait
    obtain ⟨pid', store', hl, hsome', hall'⟩ := h p hp hwait'
    refine ⟨pid', store', ?_, hsome', fun c hc hz => hall' c hc (hzombie c hz)⟩
    show (Function.update s.loc s.curr _ p).At _
    rw [Function.update_of_ne hpc]
    exact hl

/-- `do_wait` takes a zombie of the running process away. -/
theorem Reaped.waits (h : s.Waits) {pid : ℤ} {store : Bool} {z : ν}
    (hrun : s.sched.pcb s.curr = .running) (hwaits : s.WaitsFor s.curr pid z)
    (hreaped : Reaped s s' z store) : s'.Waits := by
  have hpcb : ∀ p, s'.sched.pcb p = s.sched.pcb p := by
    rw [hreaped.eq]
    exact fun _ => rfl
  intro p hp hwait
  rw [hpcb] at hwait
  have hpc : p ≠ s.curr := by
    rintro rfl
    rw [hrun] at hwait
    exact absurd hwait (by decide)
  obtain ⟨pid', store', hl, ⟨c, hc⟩, hall⟩ := h p (hreaped.mem_used.1 hp).1 hwait
  -- the children of other processes are not touched
  have hfor : ∀ c, s'.WaitsFor p pid' c ↔ s.WaitsFor p pid' c := by
    intro c
    rw [WaitsFor, WaitsFor, hreaped.mem_used, hreaped.parent, hreaped.pid]
    refine ⟨fun hc => ⟨hc.1.1, hc.2⟩, fun hc => ⟨⟨hc.1, ?_⟩, hc.2⟩⟩
    rintro rfl
    exact hpc (Option.some.inj (hc.2.1.symm.trans hwaits.2.1))
  refine ⟨pid', store', ?_, ⟨c, (hfor c).2 hc⟩, fun c hc hz => hall c ((hfor c).1 hc) ?_⟩
  · rw [hreaped.eq]
    show (Function.update s.loc s.curr _ p).At _
    rw [Function.update_of_ne hpc]
    exact hl
  · rw [Zombie, ← hpcb]
    exact hz

variable [DecidableEq μ] [DecidableEq ρ]

/-- A process that has been given back leaves nobody waiting. -/
theorem Unforked.waits {proc : ν} {cloneVm : Bool} {m : ForkMem ν μ ρ} (h : s.Waits)
    (hproc : s.inUse proc = false) (hun : Unforked s s' proc cloneVm m) : s'.Waits := by
  have hne : ∀ p ∈ s.used, p ≠ proc := fun _ => ne_of_unused hproc
  refine h.congr (hun.used_eq hproc) (fun c hc => hun.parent_of_ne (hne c hc))
    (fun c hc => hun.pid_of_ne (hne c hc)) (fun p hp => Or.inl (hun.pcb_of_ne (hne p hp)))
    fun p _ _ _ => Or.inl ?_
  rw [hun.loc_eq]

/-- A new process waits for nothing, and nobody but its parent waits for it. -/
theorem Forked.waits {proc : ν} {cloneVm : Bool} {m : ForkMem ν μ ρ} {ret : ℤ} (h : s.Waits)
    (hrun : s.sched.pcb s.curr = .running) (hproc : s.inUse proc = false)
    (hforked : Forked s s' proc cloneVm m ret) : s'.Waits := by
  intro p hp hwait
  rw [hforked.used_eq] at hp
  have hpp : p ≠ proc := by
    rintro rfl
    rw [hforked.pcb_self] at hwait
    exact absurd hwait (by decide)
  rw [hforked.pcb_of_ne hpp] at hwait
  have hpc : p ≠ s.curr := by
    rintro rfl
    rw [hrun] at hwait
    exact absurd hwait (by decide)
  obtain ⟨pid, store, hl, ⟨c, hcU, hcp, hcpid⟩, hall⟩ := h p (hp.resolve_left hpp) hwait
  refine ⟨pid, store, ?_, ⟨c, ?_, ?_, ?_⟩, fun x hx hz => ?_⟩
  · rw [hforked.eq]
    show (Function.update s.loc proc _ p).At _
    rw [Function.update_of_ne hpp]
    exact hl
  · rw [hforked.used_eq]
    exact Or.inr hcU
  · have hcne : c ≠ proc := ne_of_unused hproc hcU
    rw [hforked.parent, Function.update_of_ne hcne]
    exact hcp
  · have hcne : c ≠ proc := ne_of_unused hproc hcU
    rw [hforked.pid c hcne]
    exact hcpid
  · obtain ⟨hxU, hxp, hxpid⟩ := hx
    rw [hforked.parent] at hxp
    have hxne : x ≠ proc := by
      rintro rfl
      rw [Function.update_self] at hxp
      exact hpc (Option.some.inj hxp).symm
    rw [Function.update_of_ne hxne] at hxp
    rw [hforked.used_eq] at hxU
    rw [hforked.pid x hxne] at hxpid
    rw [Zombie, hforked.pcb_of_ne hxne] at hz
    exact hall x ⟨hxU.resolve_left hxne, hxp, hxpid⟩ hz

variable [DecidableEq κ]

/-- What `do_exit` does: the parent is woken, and so is `init` if it gets zombies. -/
theorem Exited.waits {vm : VmTable ν μ ρ} {errno : ℤ} {ps ws : List ν} {kids kids' : ν → List ν}
    (hs : s.Sound) (h : s.Waits) (hrun : s.sched.pcb s.curr = .running)
    (hfamily : s.FamilyOk ps kids) (hexit : Exited { s with vm } s' errno kids ws kids') :
    s'.Waits := by
  have hcurr : s.curr ∈ s.used := hs.placed.curr_mem
  have hused : s'.used = s.used := by
    rw [hexit.eq]
    rfl
  have hparent : ∀ c ∈ s.used, s'.table.parent c =
      if s.table.parent c = some s.curr then some s.initProc else s.table.parent c := hexit.parent
  have hpid : s'.table.pid = s.table.pid := hexit.pid
  have hself : s.table.parent s.curr ≠ some s.curr :=
    (hfamily.table.descends s.curr hcurr).parent_ne hfamily.table.root
  have hpcb : ∀ p, s'.sched.pcb p = if p ∈ ws then
      ((s.sched.setPcb s.curr ⟨.zombie, (s.sched.pcb s.curr).waitState⟩).pcb p).woken
      else (s.sched.setPcb s.curr ⟨.zombie, (s.sched.pcb s.curr).waitState⟩).pcb p :=
    hexit.wakes.woken.pcb_eq
  intro p hp hwait
  rw [hused] at hp
  have hzombie : ∀ c, c ≠ s.curr → s'.Zombie c → s.Zombie c := by
    intro c hc hz
    rw [Zombie, hpcb] at hz
    split_ifs at hz with hcw
    · simp at hz
    · simpa [Zombie, setPcb, Sched.pcb, hc] using hz
  -- a process that still waits has not been woken, and it is not the one that exits
  have hpw : p ∉ ws := by
    intro hm
    obtain ⟨-, -, hwait'⟩ := hexit.woken p hm
    have hpc : p ≠ s.curr := by
      rintro rfl
      rw [show ({ s with vm } : Kernel κ ν μ ρ).sched.pcb s.curr = .running from hrun] at hwait'
      exact absurd hwait' (by decide)
    rw [hpcb, if_pos hm, RunState.woken_running] at hwait
    · exact absurd hwait (by decide)
    · rw [show (s.sched.setPcb s.curr ⟨.zombie, (s.sched.pcb s.curr).waitState⟩).pcb p =
        s.sched.pcb p from Function.update_of_ne hpc _ _]
      exact (hs.placed.allows p hp).eq_running
  rw [hpcb, if_neg hpw] at hwait
  have hpc : p ≠ s.curr := by
    rintro rfl
    simp only [setPcb, Sched.pcb, Function.update_self] at hwait
    rw [show s.sched.sem.pcb s.curr = .running from hrun] at hwait
    exact absurd hwait (by decide)
  rw [show (s.sched.setPcb s.curr ⟨.zombie, (s.sched.pcb s.curr).waitState⟩).pcb p =
    s.sched.pcb p from Function.update_of_ne hpc _ _] at hwait
  obtain ⟨pid, store, hl, ⟨c, hcU, hcp, hcpid⟩, hall⟩ := h p hp hwait
  refine ⟨pid, store, ?_, ⟨c, hused ▸ hcU, ?_, hpid ▸ hcpid⟩, fun x hx hz => ?_⟩
  · rw [hexit.eq]
    show (Function.update s.loc s.curr _ p).At _
    rw [Function.update_of_ne hpc]
    exact hl
  · rw [hparent c hcU, hcp, if_neg fun he => hpc (Option.some.inj he)]
  · obtain ⟨hxU, hxp, hxpid⟩ := hx
    rw [hused] at hxU
    rw [hparent x hxU] at hxp
    rw [hpid] at hxpid
    by_cases hxc : s.table.parent x = some s.curr
    · -- `init` gets a zombie, so it has been woken
      rw [if_pos hxc] at hxp
      obtain rfl := Option.some.inj hxp
      have hx' : x ≠ s.curr := by
        rintro rfl
        exact hself hxc
      exact hpw (hexit.init_woken ⟨x, (hfamily.table.kin.mem s.curr x).2 ⟨hxU, hxc⟩,
        hzombie x hx' hz⟩ hwait)
    · rw [if_neg hxc] at hxp
      have hx' : x ≠ s.curr := by
        rintro rfl
        exact hpw (hexit.parent_woken p hxp hwait)
      exact hall x ⟨hxU, hxp, hxpid⟩ (hzombie x hx' hz)

omit [DecidableEq μ] [DecidableEq ρ] in
/-- A timer interrupt wakes the processes `ws`, and in user mode it enters `trap`. -/
theorem Waits.tick (h : s.Waits) (hs : s.Placed) {s₁ : Kernel κ ν μ ρ} {sched : Sched κ ν}
    {timers : Timers ν ν} {ws : List ν} (hw : Wakes ws s.sched sched)
    (hs₁ : s₁ = { s with timers, sched := sched.schedulerProcTick }) :
    (if s₁.loc s₁.curr = .user then s₁.back else s₁).Waits := by
  have hpcb : ∀ x, s₁.sched.pcb x =
      if x ∈ ws then (s.sched.pcb x).woken else s.sched.pcb x := by
    intro x
    rw [hs₁, sched.schedulerProcTick_pcb]
    exact hw.woken.pcb_eq x
  have hcurr : s₁.curr = s.curr := by
    rw [hs₁]
    exact sched.schedulerProcTick_curr.trans hw.woken.curr
  by_cases hl : s₁.loc s₁.curr = .user
  · rw [if_pos hl]
    rw [hcurr, hs₁] at hl
    have hrun := hs.curr_running fun r he => by
      cases he.symm.trans hl
    exact h.wakes_back hs hrun hpcb hcurr (by rw [hs₁]; rfl) (by rw [hs₁]) (by rw [hs₁])
  · rw [if_neg hl]
    exact h.wakes hs hpcb (by rw [hs₁]; rfl) (by rw [hs₁]) (by rw [hs₁])

/-- **A step keeps the invariant.** -/
theorem Effect.waits (hs : s.Sound) (h : s.Waits) (he : Effect s op out s') : s'.Waits := by
  cases he with
  | go hruns hl haway hidle hprio =>
    exact h.stays rfl rfl (fun _ => rfl) (fun p hp => Function.update_of_ne hp _ _)
      (hruns.running hs.placed)
  | execve hcall =>
    exact h.stays rfl rfl (fun _ => rfl) (fun p hp => Function.update_of_ne hp _ _)
      (hcall.runs.running hs.placed)
  | load hl hload hl' =>
    exact h.stays rfl rfl (fun _ => rfl) (fun p hp => Function.update_of_ne hp _ _)
      (hs.placed.curr_running (by simp [hl]))
  | waitNone hround hnone => exact h.back (hround.running hs.placed)
  | @waitBlock op pid store hround hsome hall => exact h.block hsome hall
  | reap hround hwaits hreaped hfamily =>
    exact hreaped.waits h (hround.running hs.placed) hwaits
  | @sleep time timers s' hcall heq htimers =>
    subst heq
    refine h.moves rfl rfl (fun p hp => ⟨Function.update_of_ne hp _ _, Function.update_of_ne hp _ _⟩)
      (hcall.runs.running hs.placed) ?_ ?_
    · simp [setLoc, setPcb, Sched.pcb]
      decide
    · simp [setLoc, setPcb, Sched.pcb]
  | sleepBack hl heq htimers =>
    subst heq
    exact h.stays rfl rfl (fun _ => rfl) (fun p hp => back_loc_of_ne (s := s) hp)
      (hs.placed.curr_running (by simp [hl]))
  | @down j sem hl hidle hin hpcb hqueues =>
    refine h.moves rfl rfl (fun p hp => ⟨?_, Function.update_of_ne hp _ _⟩)
      (hs.placed.curr_running (by simp [hl])) ?_ ?_
    · simp [setLoc, Sched.pcb, hpcb, hp]
    · simp [setLoc, Sched.pcb, hpcb]
      decide
    · simp [setLoc, Sched.pcb, hpcb]
  | @downBack j hl hqueues =>
    exact h.stays rfl rfl (fun _ => rfl) (fun p hp => back_loc_of_ne (s := s) hp)
      (hs.placed.curr_running (by simp [hl]))
  | @up j p sem sched hl hidle hfirst hblocked hin hpcb hw hqueues =>
    have hwoken : ∀ x, ({ s with sched } : Kernel κ ν μ ρ).sched.pcb x =
        if x ∈ [p] then (s.sched.pcb x).woken else s.sched.pcb x := by
      intro x
      refine (hw.woken.pcb_eq x).trans ?_
      simp only [Sched.pcb, hpcb]
    exact h.wakes_back hs.placed (hs.placed.curr_running (by simp [hl])) hwoken hw.woken.curr rfl
      rfl rfl
  | @kill pid p ws sched hcall hp hidle hpid hflag hws hw =>
    have hwoken : ∀ x, ({ s with sched, flagExit := Function.update s.flagExit p true } :
        Kernel κ ν μ ρ).sched.pcb x =
        if x ∈ ws then (s.sched.pcb x).woken else s.sched.pcb x := hw.woken.pcb_eq
    exact h.wakes_back hs.placed (hcall.runs.running hs.placed) hwoken hw.woken.curr rfl rfl rfl
  | @tick ws timers sched s₁ s' hws hw hs₁ htimers heq =>
    rw [heq]
    exact h.tick hs.placed hw hs₁
  | @schedule r k sched hr hsched =>
    obtain ⟨t, t', -, -, hsw, -⟩ := hs.switched hsched
    refine h.congr rfl (fun _ _ => rfl) (fun _ _ => rfl) (fun p _ => Or.inl ?_) fun p _ _ _ => ?_
    · show sched.pcb p = _
      rw [Sched.pcb, hsw.sem]
      rfl
    · by_cases hp : p = s.curr
      · refine Or.inr fun ret => ?_
        show (Function.update s.loc s.curr _ p).At ret ↔ _
        rw [hp, Function.update_self, hr]
        simp [Loc.At]
      · exact Or.inl (Function.update_of_ne hp _ _)
  | exit hrun hloc hvm hfamily hchildless hexit hfamily' =>
    exact hexit.waits hs h hrun hfamily
  | @unfork cloneVm m ret proc s' hcall hproc hun hret =>
    refine (hun.waits h hproc).back ?_
    rw [hun.curr_eq, hun.pcb_of_ne (ne_of_unused hproc hs.placed.curr_mem)]
    exact hcall.runs.running hs.placed
  | @fork cloneVm m ret proc s' hcall hproc hforked hfamily =>
    have hrun := hcall.runs.running hs.placed
    refine (hforked.waits h hrun hproc).back ?_
    rw [hforked.curr_eq, hforked.pcb_of_ne (ne_of_unused hproc hs.placed.curr_mem)]
    exact hrun

/-! ### Creating and reaping -/

/-- The step creates the process `z`. -/
def Creates (z : ν) (l : KernelOp κ ν μ ρ × Outcome ν) : Prop :=
  ∃ cloneVm m ret, l = (.doFork cloneVm m, .returned ret none) ∧ 0 < ret ∧ m.pcb = some z

/-- The step reaps the process `z`. -/
def Reaps (z : ν) (l : KernelOp κ ν μ ρ × Outcome ν) : Prop := ∃ ret, l.2 = .returned ret (some z)

/-- What a step does to the family. -/
structure Relates (s s' : Kernel κ ν μ ρ) (l : KernelOp κ ν μ ρ × Outcome ν) : Prop where
  init : s'.initProc = s.initProc
  member : ∀ c ∈ s'.used, (c ∈ s.used ∧ (s'.table.parent c = s.table.parent c ∨
    s'.table.parent c = some s.initProc)) ∨ Creates c l ∧ s'.table.parent c = some s.curr
  reaps : ∀ z, Reaps z l → z ∈ s.used ∧ z ≠ s.initProc ∧ s.Zombie z ∧
    s.table.parent z = some s.curr ∧ z ∉ s'.used

omit [DecidableEq κ] [DecidableEq ν] [DecidableEq μ] [DecidableEq ρ] in
/-- No process comes or goes, and none gets another parent. -/
theorem Relates.same (hinit : s'.initProc = s.initProc) (hused : s'.used = s.used)
    (hparent : ∀ c ∈ s.used, s'.table.parent c = s.table.parent c)
    (hout : ∀ ret z, out ≠ .returned ret (some z)) : Relates s s' (op, out) := by
  refine ⟨hinit, fun c hc => ?_, fun z ⟨ret, hz⟩ => absurd hz (hout ret z)⟩
  rw [hused] at hc
  exact Or.inl ⟨hc, Or.inl (hparent c hc)⟩

/-- **What the steps do to the family.** -/
theorem Effect.relates (he : Effect s op out s') : Relates s s' (op, out) := by
  cases he with
  | go hruns hl haway hidle hprio hround hout => exact .same rfl rfl (fun _ _ => rfl) hout
  | execve hcall => exact .same rfl rfl (fun _ _ => rfl) (by simp)
  | load hl hload hl' => exact .same rfl rfl (fun _ _ => rfl) (by simp)
  | waitNone hround hnone => exact .same rfl rfl (fun _ _ => rfl) (by simp)
  | waitBlock hround hsome hall => exact .same rfl rfl (fun _ _ => rfl) (by simp)
  | @reap op pid store z s' hround hwaits hreaped hfamily =>
    refine ⟨by rw [hreaped.eq]; rfl, fun c hc => ?_, ?_⟩
    · exact Or.inl ⟨(hreaped.mem_used.1 hc).1, Or.inl (congrFun hreaped.parent c)⟩
    · rintro y ⟨ret, hy⟩
      obtain ⟨-, hy⟩ := Outcome.returned.inj hy
      obtain rfl := Option.some.inj hy
      exact ⟨hwaits.1, hreaped.ne_init, hreaped.zombie, hwaits.2.1,
        fun hy => (hreaped.mem_used.1 hy).2 rfl⟩
  | sleep hcall heq htimers =>
    subst heq
    exact .same rfl rfl (fun _ _ => rfl) (by simp)
  | sleepBack hl heq htimers =>
    subst heq
    exact .same rfl rfl (fun _ _ => rfl) (by simp)
  | down hl hidle hin hpcb hqueues => exact .same rfl rfl (fun _ _ => rfl) (by simp)
  | downBack hl hqueues => exact .same rfl rfl (fun _ _ => rfl) (by simp)
  | up hl hidle hfirst hblocked hin hpcb hw hqueues => exact .same rfl rfl (fun _ _ => rfl) (by simp)
  | kill hcall hp hidle hpid hflag hws hw => exact .same rfl rfl (fun _ _ => rfl) (by simp)
  | tick hws hw hs₁ htimers heq =>
    subst hs₁
    rw [heq]
    split_ifs
    · exact .same rfl rfl (fun _ _ => rfl) (by simp)
    · exact .same rfl rfl (fun _ _ => rfl) (by simp)
  | schedule hr hs => exact .same rfl rfl (fun _ _ => rfl) (by simp)
  | exit hrun hloc hvm hfamily hchildless hexit hfamily' =>
    have hused : s'.used = s.used := by
      rw [hexit.eq]
      rfl
    refine ⟨by rw [hexit.eq], fun c hc => Or.inl ?_, ?_⟩
    swap
    · rintro z ⟨ret, hz⟩
      cases hz
    rw [hused] at hc
    refine ⟨hc, ?_⟩
    have hparent : s'.table.parent c =
      if s.table.parent c = some s.curr then some s.initProc else s.table.parent c :=
      hexit.parent c hc
    by_cases hcc : s.table.parent c = some s.curr
    · rw [if_pos hcc] at hparent
      exact Or.inr hparent
    · rw [if_neg hcc] at hparent
      exact Or.inl hparent
  | @unfork cloneVm m ret proc s' hcall hproc hun hret =>
    exact .same (by rw [hun.eq]; rfl) (hun.used_eq hproc)
      (fun c hc => hun.parent_of_ne (ne_of_unused hproc hc)) (by simp)
  | @fork cloneVm m ret proc s' hcall hproc hforked hfamily =>
    refine ⟨by rw [hforked.eq]; rfl, fun c hc => ?_, ?_⟩
    swap
    · rintro z ⟨ret, hz⟩
      cases hz
    have hc' : c ∈ s'.used := hc
    rw [hforked.used_eq] at hc'
    have hparent : s'.back.table.parent c = Function.update s.table.parent proc (some s.curr) c :=
      congrFun hforked.parent c
    by_cases hcp : c = proc
    · subst hcp
      rw [Function.update_self] at hparent
      refine Or.inr ⟨⟨cloneVm, m, ret, rfl, ?_, hforked.fresh⟩, hparent⟩
      obtain ⟨ps, kids, hok, -⟩ := hfamily
      have hne : c ≠ s'.sched.idle := by
        intro hi
        have hroot := hok.table.root
        rw [← hi] at hroot
        cases hparent.symm.trans hroot
      rw [hforked.ret]
      exact (hok.table.pid_pos c ((hok.table.mem c).2 ⟨hc, hne⟩)).1
    · rw [Function.update_of_ne hcp] at hparent
      exact Or.inl ⟨hc'.resolve_left hcp, Or.inl hparent⟩

omit [DecidableEq μ] [DecidableEq ρ] in
/-- `idle` stays the same process: it is the parent of `init`. -/
theorem Relates.idle_eq (hrel : Relates s s' (op, out)) (hs : s.Sound) (hs' : s'.Sound)
    (hen : s.Enabled op) : s'.sched.idle = s.sched.idle := by
  obtain ⟨ps, kids, hfamily, -⟩ := hs.family
  obtain ⟨ps', kids', hfamily', -⟩ := hs'.family
  have hmem := hfamily'.init_mem
  have hparent := hfamily'.init_parent
  have hne := hfamily'.init_ne
  rw [hrel.init] at hmem hparent hne
  rcases hrel.member s.initProc hmem with ⟨-, hsame | hinit⟩ | ⟨⟨cloneVm, m, ret, hl, -, hm⟩, -⟩
  · rw [hparent, hfamily.init_parent] at hsame
    exact Option.some.inj hsame
  · rw [hparent] at hinit
    exact absurd (Option.some.inj hinit).symm hne
  · obtain ⟨rfl, -⟩ := Prod.mk.inj hl
    exact absurd hfamily.init_mem (not_mem_used (hen.2.1 _ hm))

/-! ### Runs -/

omit [DecidableEq κ] [DecidableEq ν] [DecidableEq μ] [DecidableEq ρ] in
/-- A process that has children is not a zombie, unless it is `init`. -/
theorem Family.alive (h : s.Family) {c p : ν} (hc : c ∈ s.used) (hp : s.table.parent c = some p)
    (hne : p ≠ s.initProc) : ¬ s.Zombie p := by
  intro hz
  obtain ⟨ps, kids, hok, hchildless⟩ := h
  have hmem : c ∈ kids p := (hok.table.kin.mem p c).2 ⟨hc, hp⟩
  rw [hchildless p (hok.table.kin.parent c hc p hp) hz hne] at hmem
  cases hmem

/-- In the run `ls`, the process `p` has created the process `z`, and neither of them has been
reaped since. -/
def Made (ls : List (KernelOp κ ν μ ρ × Outcome ν)) (p z : ν) : Prop :=
  ∃ l₁ l l₂ s₁, ls = l₁ ++ l :: l₂ ∧ (kernelSystem κ ν μ ρ).Run l₁ s₁ ∧ s₁.curr = p ∧
    Creates z l ∧ ∀ l' ∈ l₂, ¬ Reaps z l' ∧ ¬ Reaps p l'

variable {ls : List (KernelOp κ ν μ ρ × Outcome ν)} {l : KernelOp κ ν μ ρ × Outcome ν}

theorem Made.snoc {p z : ν} (h : Made ls p z) (hz : ¬ Reaps z l) (hp : ¬ Reaps p l) :
    Made (ls ++ [l]) p z := by
  obtain ⟨l₁, l₀, l₂, s₁, rfl, hrun, hcurr, hmade, hsince⟩ := h
  refine ⟨l₁, l₀, l₂ ++ [l], s₁, by simp, hrun, hcurr, hmade, fun l' hl' => ?_⟩
  rcases List.mem_append.1 hl' with hl' | hl'
  · exact hsince l' hl'
  · rw [List.mem_singleton.1 hl']
    exact ⟨hz, hp⟩

/-- What a step of a run does. -/
theorem step_effect (h : (kernelSystem κ ν μ ρ).Run ls s)
    (hl : (kernelSystem κ ν μ ρ).step s (op, out) s') : Effect s op out s' := by
  obtain ⟨hen, k, he⟩ := hl
  exact (kernel_sound ⟨ls, h⟩).effect hen he

/-- The first two processes. -/
theorem init_used (h : (kernelSystem κ ν μ ρ).init s) :
    s.Waits ∧ ∀ c ∈ s.used, c = s.initProc ∨ c = s.sched.idle := by
  obtain ⟨s₀, k, m, idle, hboot, hm, he⟩ := h
  obtain ⟨init, s₂, ret, rfl, hforked, -⟩ := initProcs_forked hboot hm he
  have halone := initIdle_alone idle hboot
  have hproc : (initIdle idle s₀).inUse init = false := by
    show Function.update s₀.inUse idle true init = false
    rw [Function.update_of_ne (hm init hforked.fresh)]
    exact hboot.inUse init
  have hwaits : (initIdle idle s₀).Waits := by
    intro p hp hwait
    rw [(halone.used p).1 hp, ← halone.idle, halone.placed.idle_running] at hwait
    exact absurd hwait (by decide)
  have hrun : (initIdle idle s₀).sched.pcb (initIdle idle s₀).curr = .running := by
    rw [← halone.idle]
    exact halone.placed.idle_running
  have hwaits₂ : s₂.Waits := hforked.waits hwaits hrun hproc
  refine ⟨hwaits₂.congr rfl (fun _ _ => rfl) (fun _ _ => rfl) (fun _ _ => Or.inl rfl)
    fun _ _ _ _ => Or.inl rfl, fun c hc => ?_⟩
  have hc' : c ∈ s₂.used := hc
  rw [hforked.used_eq, Set.mem_insert_iff, halone.used] at hc'
  refine hc'.imp id fun hc => ?_
  rw [hc]
  exact hforked.idle_eq.symm

theorem Run.waits (h : (kernelSystem κ ν μ ρ).Run ls s) : s.Waits := by
  induction h with
  | start h => exact (init_used h).1
  | step h hl ih => exact (step_effect h hl).waits (kernel_sound ⟨_, h⟩) ih

/-- A process that has been reaped is not a process any more, until it is created again. -/
theorem Run.reaped (h : (kernelSystem κ ν μ ρ).Run ls s) {z : ν} :
    ∀ l₁ l l₂, ls = l₁ ++ l :: l₂ → Reaps z l → (∃ l' ∈ l₂, Creates z l') ∨ z ∉ s.used := by
  induction h with
  | start h =>
    intro l₁ l l₂ he
    simp at he
  | @step ls s s' l₀ h hl ih =>
    intro l₁ l l₂ he hz
    have hrel : Relates s s' l₀ := (step_effect h hl).relates
    rcases List.eq_nil_or_concat l₂ with rfl | ⟨l₂, l', rfl⟩
    · obtain ⟨-, rfl⟩ := List.append_singleton_inj.1 he
      exact Or.inr (hrel.reaps z hz).2.2.2.2
    · obtain ⟨rfl, rfl⟩ : ls = l₁ ++ l :: l₂ ∧ l₀ = l' := by
        rw [List.concat_eq_append, ← List.cons_append, ← List.append_assoc] at he
        exact List.append_singleton_inj.1 he
      rcases ih l₁ l l₂ rfl hz with ⟨l', hl', hmade⟩ | hgone
      · exact Or.inl ⟨l', by simp [hl'], hmade⟩
      · by_cases hzU : z ∈ s'.used
        · rcases hrel.member z hzU with ⟨hold, -⟩ | ⟨hmade, -⟩
          · exact absurd hold hgone
          · exact Or.inl ⟨l₀, by simp, hmade⟩
        · exact Or.inr hzU

/-- The parent of a process is `init`, or has created it. -/
theorem Run.made (h : (kernelSystem κ ν μ ρ).Run ls s) {c p : ν} (hc : c ∈ s.used)
    (hne : c ≠ s.initProc) (hp : s.table.parent c = some p) : p = s.initProc ∨ Made ls p c := by
  induction h generalizing c p with
  | @start s h =>
    rcases (init_used h).2 c hc with rfl | rfl
    · exact absurd rfl hne
    · obtain ⟨ps, kids, hok, -⟩ := (kernel_sound ⟨[], .start h⟩).family
      rw [hok.table.root] at hp
      cases hp
  | @step ls s s' l₀ h hl ih =>
    have hrel : Relates s s' l₀ := (step_effect h hl).relates
    rw [hrel.init] at hne ⊢
    rcases hrel.member c hc with ⟨hold, hsame | hinit⟩ | ⟨hmade, hcurr⟩
    · rw [hsame] at hp
      rcases ih hold hne hp with rfl | hmade
      · exact Or.inl rfl
      · by_cases hpi : p = s.initProc
        · exact Or.inl hpi
        · refine Or.inr (hmade.snoc (fun hz => (hrel.reaps c hz).2.2.2.2 hc) fun hz => ?_)
          exact (kernel_sound ⟨_, h⟩).family.alive hold hp hpi (hrel.reaps p hz).2.2.1
    · exact Or.inl (Option.some.inj (hp.symm.trans hinit))
    · refine Or.inr ⟨ls, l₀, [], s, rfl, h, ?_, hmade, by simp⟩
      exact Option.some.inj (hcurr.symm.trans hp)

/-! ### The value of `do_wait` -/

/-- The step is a part of a call of `do_wait` with the argument `pid`; `store` says whether its
argument `exit_code` is not `NULL`. -/
def InWait (s : Kernel κ ν μ ρ) (op : KernelOp κ ν μ ρ) (pid : ℤ) (store : Bool) : Prop :=
  (∃ o, op = .doWait pid o ∧ o.isSome = store) ∨
    op = .resume ∧ s.loc s.curr = .within (.wait pid store)

omit [DecidableEq ν] in
/-- A step of `do_wait` that returns is a round of its loop, or refuses the argument `exit_code`. -/
theorem InWait.round {pid ret : ℤ} {store : Bool} {o : Option ν} {k : ℕ} [DecidableEq ν]
    (h : s.InWait op pid store) (hen : s.Enabled op)
    (he : exec k s op = .ok (s', .returned ret o)) : s.Round op pid store ∨ ret = -eInval := by
  rcases h with ⟨o', rfl, hstore⟩ | ⟨rfl, hl⟩
  · by_cases ho : o' = some false
    · rw [ho] at he
      cases he
      exact Or.inr rfl
    · exact Or.inl (Or.inl ⟨o', rfl, ho, hstore, hen⟩)
  · cases hflag : s.flagExit s.curr with
    | false => exact Or.inl (Or.inr ⟨rfl, hl, hflag⟩)
    | true =>
      simp only [exec, hl, Kernel.resume, hflag, if_true] at he
      obtain ⟨s₁, -, he⟩ := bind_eq_ok.1 he
      cases he

/-- What a round of `do_wait` returns. -/
theorem Effect.waited {pid ret : ℤ} {store : Bool} {o : Option ν}
    (he : Effect s op (.returned ret o) s') (hround : s.Round op pid store) :
    (∃ z, ret = 0 ∧ o = some z ∧ s.WaitsFor s.curr pid z ∧ Reaped s s' z store) ∨
      ret = -eBadProc ∧ o = none ∧ ∀ c, ¬ s.WaitsFor s.curr pid c := by
  have hsame : ∀ {pid' store'}, s.Round op pid' store' → pid' = pid ∧ store' = store := by
    rintro pid' store' (⟨o₁, rfl, -, rfl, -⟩ | ⟨rfl, hl, -⟩)
    · rcases hround with ⟨o₂, h₂, -, rfl, -⟩ | ⟨h₂, -⟩
      · cases h₂
        exact ⟨rfl, rfl⟩
      · cases h₂
    · rcases hround with ⟨o₂, h₂, -⟩ | ⟨-, hl', -⟩
      · cases h₂
      · rw [hl] at hl'
        cases hl'
        exact ⟨rfl, rfl⟩
  generalize hout : Outcome.returned ret o = out at he
  cases he with
  | go hruns hl haway hidle hprio hnone hout => exact absurd hround (hnone pid store)
  | waitNone hround' hnone =>
    obtain ⟨rfl, rfl⟩ := hsame hround'
    cases hout
    exact Or.inr ⟨rfl, rfl, hnone⟩
  | @reap op pid' store' z s' hround' hwaits hreaped hfamily =>
    obtain ⟨rfl, rfl⟩ := hsame hround'
    cases hout
    exact Or.inl ⟨z, rfl, rfl, hwaits, hreaped⟩
  | sleepBack hl heq htimers =>
    rcases hround with ⟨o₂, h₂, -⟩ | ⟨-, hl', -⟩
    · cases h₂
    · rw [hl] at hl'
      cases hl'
  | load | kill | unfork | fork => rcases hround with ⟨o₂, h₂, -⟩ | ⟨h₂, -⟩ <;> cases h₂
  | _ => cases hout

end Kernel

open Kernel

/-- **No exit is lost.**  After every run of the kernel, a process that sleeps in `do_wait` has a
child that it waits for, and none of those children is a zombie.  A step that reaps a process `z`
finds a zombie whose parent is the running process, that is `init` or the process that created `z`;
if `z` has been reaped before then it has been created again since.  `do_wait` returns 0 only after
removing exactly one zombie that it waits for, with the exit code of that process, and
`-E_BAD_PROC` only if there is no child to wait for. -/
theorem do_wait_correct {κ ν μ ρ : Type} [DecidableEq κ] [DecidableEq ν] [DecidableEq μ]
    [DecidableEq ρ] {ls : List (KernelOp κ ν μ ρ × Outcome ν)} {s : Kernel κ ν μ ρ}
    (h : (kernelSystem κ ν μ ρ).Run ls s) :
    (∀ p, s.inUse p = true → (s.sched.pcb p).state = .sleeping →
      (s.sched.pcb p).waitState = waitChild →
      ∃ pid store, (s.loc p).At (.wait pid store) ∧ (∃ c, s.WaitsFor p pid c) ∧
        ∀ c, s.WaitsFor p pid c → ¬ s.Zombie c) ∧
    (∀ l s' z, (kernelSystem κ ν μ ρ).step s l s' → Reaps z l →
      s.inUse z = true ∧ s.Zombie z ∧ s.table.parent z = some s.curr ∧ s'.inUse z = false ∧
      (s.curr = s.initProc ∨ Made ls s.curr z) ∧
      ∀ l₁ l' l₂, ls = l₁ ++ l' :: l₂ → Reaps z l' → ∃ l'' ∈ l₂, Creates z l'') ∧
    ∀ op pid store ret o s', s.InWait op pid store →
      (kernelSystem κ ν μ ρ).step s (op, .returned ret o) s' →
      (ret = 0 → ∃ z, o = some z ∧ s.WaitsFor s.curr pid z ∧ s.Zombie z ∧
        s'.inUse = Function.update s.inUse z false ∧
        (store = true → s'.waitStatus s.curr = s.exitCode z)) ∧
      (ret = -eBadProc → ∀ c, ¬ s.WaitsFor s.curr pid c) := by
  refine ⟨fun p hp _ hwait => Run.waits h p hp hwait, fun l s' z hl hz => ?_,
    fun op pid store ret o s' hin hl => ?_⟩
  · obtain ⟨hzU, hne, hzombie, hparent, hgone⟩ := (step_effect h hl).relates.reaps z hz
    refine ⟨hzU, hzombie, hparent, by simpa [used] using hgone, Run.made h hzU hne hparent,
      fun l₁ l' l₂ he hz' => ?_⟩
    exact (Run.reaped h l₁ l' l₂ he hz').resolve_right (not_not.2 hzU)
  · obtain ⟨hen, k, he⟩ := id hl
    rcases hin.round hen he with hround | rfl
    · rcases (step_effect h hl).waited hround with
        ⟨z, rfl, rfl, hwaits, hreaped⟩ | ⟨rfl, rfl, hnone⟩
      · refine ⟨fun _ => ⟨z, rfl, hwaits, hreaped.zombie, by rw [hreaped.eq]; rfl, ?_⟩,
          fun hret => (by cases hret)⟩
        rintro rfl
        rw [hreaped.eq]
        exact Function.update_self _ _ _
      · exact ⟨fun hret => (by cases hret), fun _ => hnone⟩
    · exact ⟨fun hret => (by cases hret), fun hret => (by cases hret)⟩

/-- `init` waits for its child 2, which exits with 7. -/
theorem do_wait_correct_seven : ∃ s s' : Kernel ℕ ℕ ℕ ℕ,
    (kernelSystem ℕ ℕ ℕ ℕ).step s (.resume, .returned 0 (some 2)) s' ∧ s.Zombie 2 ∧
      s'.inUse = Function.update s.inUse 2 false ∧ s'.waitStatus 1 = 7 := by
  obtain ⟨s, ⟨ls, hs⟩, hcurr, hl, hcode, hout⟩ := exists_replayed
    [.yieldKernel, .schedule, .start, .doFork true (forkMem 2), .doWait 0 (some true), .schedule,
      .start, .doExit 7, .schedule]
    (fun s => s.curr = 1 ∧ s.loc s.curr = .within (.wait 0 true) ∧ s.exitCode 2 = 7 ∧
      (exec 20 s .resume).toOption.map Prod.snd = some (.returned 0 (some 2))) (by decide +kernel)
  cases he : exec 20 s .resume with
  | error e => simp [he, Except.toOption] at hout
  | ok r =>
    obtain ⟨s', out⟩ := r
    obtain rfl : out = .returned 0 (some 2) := by simpa [he, Except.toOption] using hout
    have hstep : (kernelSystem ℕ ℕ ℕ ℕ).step s (.resume, .returned 0 (some 2)) s' :=
      ⟨⟨_, hl⟩, 20, he⟩
    obtain ⟨-, -, hwait⟩ := do_wait_correct hs
    obtain ⟨z, hz, -, hzombie, hinUse, hstatus⟩ :=
      (hwait .resume 0 true 0 (some 2) s' (Or.inr ⟨rfl, hl⟩) hstep).1 rfl
    obtain rfl := Option.some.inj hz
    rw [hcurr, hcode] at hstatus
    exact ⟨s, s', hstep, hzombie, hinUse, hstatus rfl⟩

end GarretOS
