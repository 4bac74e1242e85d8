import GarretOS.Proc.SoundSteps

/-!
# The invariant of the process kernel along runs

`init_proc` establishes the invariant (`Sound.initProcs`), so it holds in every state that a run
reaches (`kernel_sound`).

* `process_family` : the process list and the process tree are well formed in every such state.
-/

namespace GarretOS

open ProcTable Sched Countdown

namespace Kernel

variable {κ ν μ ρ : Type} [DecidableEq κ] [DecidableEq ν] [DecidableEq μ] [DecidableEq ρ]
  {s s' : Kernel κ ν μ ρ} {k : ℕ} {op : KernelOp κ ν μ ρ} {out : Outcome ν}

/-! ### Boot -/

/-- What holds after the first part of `init_proc` : `idle` is the only process, and it is
running. -/
structure Alone (s : Kernel κ ν μ ρ) : Prop where
  used : ∀ p, p ∈ s.used ↔ p = s.curr
  idle : s.sched.idle = s.curr
  table : s.table.TableOk s.used s.sched.idle [] (fun _ => none) fun _ => []
  placed : s.Placed
  pool : s.sched.PoolOk s.used .leaf
  queues : s.sched.sem.QueueOk fun _ => []
  timers : s.TimersOk

omit [DecidableEq μ] [DecidableEq ρ] in
theorem initIdle_inUse {idle p : ν} (hboot : Boot s) (hp : p ≠ idle) :
    (initIdle idle s).inUse p = false := by
  show Function.update s.inUse idle true p = false
  rw [Function.update_of_ne hp]
  exact hboot.inUse p

omit [DecidableEq μ] [DecidableEq ρ] in
theorem initIdle_alone (idle : ν) (hboot : Boot s) : Alone (initIdle idle s) := by
  have hused : ∀ p, p ∈ (initIdle idle s).used ↔ p = idle := by
    intro p
    show Function.update s.inUse idle true p = true ↔ p = idle
    by_cases hp : p = idle
    · simp [hp]
    · simp [hp, hboot.inUse]
  have hpcb : (initIdle idle s).sched.pcb idle = .running := by
    simp [initIdle, Sched.pcb, setPcb]
  have hloc : ∀ p, (initIdle idle s).loc p = .kernel := hboot.loc
  have hin : ∀ p, (initIdle idle s).sched.sem.blockedIn p = none := hboot.blockedIn
  have hlinks : (initIdle idle s).table.parent idle = none ∧
      (initIdle idle s).table.child idle = none := by
    simp [initIdle, Kernel.allocProc, ProcTable.allocProc, setPid, setParent, setChild, setYounger,
      setOlder]
  have htable : (initIdle idle s).table.TableOk (initIdle idle s).used idle [] (fun _ => none)
      fun _ => [] := by
    refine ⟨?_, fun p => ?_, (hused idle).2 rfl, ?_, Nat.zero_le _, ?_, by simp, by simp,
      ⟨fun p hp => ?_, fun _ _ => trivial, fun p c => ?_, fun _ => List.nodup_nil,
        fun c hc p hp => ?_⟩,
      hlinks.1, fun p hp => ?_⟩
    · exact ProcTable.Lists.initList (T := { s.table with procList := s.table.procList.initList none })
        (Ring.initList_nil _ _) List.not_mem_nil
    · simp [hused]
    · show u32 (s.table.numProc + 1) = 1
      rw [hboot.numProc]
      rfl
    · exact ⟨by rw [show (initIdle idle s).table.prevPid = _ from hboot.prevPid]; decide,
        le_of_eq hboot.prevPid, le_of_eq hboot.nextPid, by simp⟩
    · rw [(hused p).1 hp]
      exact hlinks.2
    · simp only [List.not_mem_nil, hused, false_iff]
      rintro ⟨rfl, hc⟩
      rw [show (initIdle c s).table.forest.parent c = none from hlinks.1] at hc
      cases hc
    · rw [(hused c).1 hc, show (initIdle idle s).table.forest.parent idle = none from hlinks.1] at hp
      cases hp
    · rw [(hused p).1 hp]
      exact .refl
  refine ⟨hused, rfl, htable, ⟨(hused _).2 rfl, (hused _).2 rfl, fun p hp => ?_, fun p hp hpc => ?_,
    fun _ => hpcb, fun p j => ?_, Or.inl (hloc _), hboot.isUser _⟩, ⟨⟨?_, rfl, ?_⟩, fun p => ?_⟩,
    ?_, ?_⟩
  · rw [hloc, (hused p).1 hp, hpcb]
    rfl
  · exact absurd ((hused p).1 hp) hpc
  · rw [hin, hloc]
    simp [Loc.At]
  · refine ⟨trivial, rfl, List.nodup_nil, ?_⟩
    rintro p ⟨⟩
  · rintro p ⟨⟩
  · simp only [Tree.nodes_leaf, List.not_mem_nil, hused, false_iff]
    rintro ⟨rfl, -, hp, -⟩
    exact hp rfl
  · exact SemState.QueueOk.of_init hboot.sem hin
  · refine ⟨∅, [], [], ⟨?_, by simp, trivial, by simp, by simp, by simp⟩, .nil, by simp, by simp,
      fun p _ hl => ?_⟩
    · exact Ring.initList_nil _ _
    · rw [hloc] at hl
      rcases hl with hl | hl <;> cases hl

/-- What `init_proc` does after its first part: `do_fork` creates `init`. -/
theorem initProcs_forked {m : ForkMem ν μ ρ} {idle : ν} (hboot : Boot s)
    (hm : ∀ proc, m.pcb = some proc → proc ≠ idle) (he : Kernel.initProcs k m idle s = .ok s') :
    ∃ init s₂ ret, s' = { s₂ with initProc := init } ∧
      Forked (initIdle idle s) s₂ init true m ret ∧
      s₂.table.TableOk s₂.used idle [init] (fun _ => none)
        (Function.update (fun _ => []) idle [init]) := by
  have halone := initIdle_alone idle hboot
  obtain ⟨⟨s₂, pid⟩, hfork, he⟩ := bind_eq_ok.1 he
  by_cases hpid : pid ≤ 0
  · simp only [if_pos hpid] at he
    cases he
  simp only [if_neg hpid] at he
  obtain ⟨o, hget, he⟩ := bind_eq_ok.1 he
  obtain ⟨init, hinit, he⟩ := bind_eq_ok.1 he
  cases he
  obtain rfl := deref_eq_ok.1 hinit
  have hfresh : ∀ proc, m.pcb = some proc → (initIdle idle s).inUse proc = false := by
    intro proc hproc
    show Function.update s.inUse idle true proc = false
    rw [Function.update_of_ne (hm proc hproc)]
    exact hboot.inUse proc
  rcases doFork_ok halone.table halone.placed.curr_mem hfresh hfork with
    ⟨-, hneg⟩ | ⟨proc, -, hneg⟩ | ⟨proc, hforked, htable⟩
  · omega
  · omega
  obtain rfl : init = proc := by simpa using ((htable.getProc hget).1 init rfl).1
  exact ⟨init, s₂, pid, rfl, hforked, htable⟩

/-- **`init_proc`** -/
theorem Sound.initProcs {m : ForkMem ν μ ρ} {idle : ν} (hboot : Boot s)
    (hm : ∀ proc, m.pcb = some proc → proc ≠ idle) (he : Kernel.initProcs k m idle s = .ok s') :
    s'.Sound := by
  have halone := initIdle_alone idle hboot
  obtain ⟨init, s₂, ret, rfl, hforked, htable⟩ := initProcs_forked hboot hm he
  have hproc := initIdle_inUse hboot (hm init hforked.fresh)
  have hne : init ≠ idle := hm init hforked.fresh
  have hidle : s₂.sched.idle = idle := hforked.idle_eq
  have hused : ∀ p, p ∈ s₂.used ↔ p = init ∨ p = idle := by
    intro p
    rw [hforked.used_eq, Set.mem_insert_iff, halone.used]
    rfl
  have hfew : Few s₂.used s₂.sched.idle := by
    rw [hidle]
    exact fun l hl hlU => htable.few hl hlU
  obtain ⟨t, hpool⟩ := hforked.pool halone.pool hproc halone.placed.idle_mem hfew
  obtain ⟨h1, h2, h3, h4, h5, h6, h7, h8⟩ := hforked.placed halone.placed hproc
  refine ⟨⟨[init], Function.update (fun _ => []) idle [init],
      ⟨?_, (hused init).2 (Or.inl rfl), ?_, fun c hc => ?_⟩, fun z hz hzombie hzi => ?_⟩,
    ⟨h1, h2, h3, h4, h5, h6, h7, h8⟩, ⟨t, hpool⟩,
    ⟨_, hforked.queues halone.queues (hboot.blockedIn init)⟩,
    (hforked.timers halone.timers hproc).congr rfl rfl fun _ _ => Iff.rfl⟩
  · show s₂.table.TableOk s₂.used s₂.sched.idle [init] _ _
    rw [hidle]
    exact htable
  · show s₂.table.parent init = some s₂.sched.idle
    rw [hforked.parent, Function.update_self, hidle]
    rfl
  · have hc' : c ∈ Function.update (fun _ => []) idle [init] s₂.sched.idle := hc
    rw [hidle, Function.update_self] at hc'
    exact List.mem_singleton.1 hc'
  · exfalso
    have hstate : (s₂.sched.pcb z).state = .zombie := hzombie
    rcases (hused z).1 hz with rfl | rfl
    · exact hzi rfl
    · rw [hforked.pcb_of_ne hne.symm, show (initIdle z s).sched.pcb z = .running from
        halone.placed.idle_running] at hstate
      cases hstate

end Kernel

/-- **The invariant holds in every state that a run of the kernel reaches.** -/
theorem kernel_sound {κ ν μ ρ : Type} [DecidableEq κ] [DecidableEq ν] [DecidableEq μ]
    [DecidableEq ρ] {s : Kernel κ ν μ ρ} (h : (kernelSystem κ ν μ ρ).Reachable s) : s.Sound := by
  refine h.invariant ?_ fun s l s' hs hl => ?_
  · rintro s ⟨s₀, k, m, idle, hboot, hm, he⟩
    exact Kernel.Sound.initProcs hboot hm he
  · obtain ⟨hen, k, he⟩ := hl
    exact (hs.effect hen he).sound hs

/-! ### Executing runs -/

namespace Kernel

variable {κ ν μ ρ : Type} [DecidableEq κ] [DecidableEq ν] [DecidableEq μ] [DecidableEq ρ]

instance (s : Kernel κ ν μ ρ) : Decidable s.MayCall := inferInstanceAs (Decidable (_ ∨ _))

instance decidableCalling (l : Loc κ) : Decidable (∃ r, l = .calling r) :=
  match l with
  | .calling r => isTrue ⟨r, rfl⟩
  | .user | .kernel | .trapEnd | .newborn | .loading | .within _ => isFalse (by simp)

instance decidableWithin (l : Loc κ) : Decidable (∃ r, l = .within r) :=
  match l with
  | .within r => isTrue ⟨r, rfl⟩
  | .user | .kernel | .trapEnd | .newborn | .loading | .calling _ => isFalse (by simp)

/-- A condition on the value of a pointer that may be `none`. -/
instance decidableSome {α : Type} (o : Option α) (P : α → Prop) [DecidablePred P] :
    Decidable (∀ a, o = some a → P a) :=
  match o with
  | none => isTrue nofun
  | some a => decidable_of_iff (P a) ⟨fun h _ hb => Option.some.inj hb ▸ h, fun h => h a rfl⟩

instance (s : Kernel κ ν μ ρ) (m : VmMem μ ρ) : Decidable (s.FreshVm m) :=
  inferInstanceAs (Decidable (_ ∧ _))

instance (s : Kernel κ ν μ ρ) : DecidablePred s.Enabled
  | .schedule => inferInstanceAs (Decidable (∃ r, s.loc s.curr = .calling r))
  | .resume => inferInstanceAs (Decidable (∃ r, s.loc s.curr = .within r))
  | .start => inferInstanceAs (Decidable (s.loc s.curr = .newborn))
  | .trapEnd => inferInstanceAs (Decidable (s.loc s.curr = .trapEnd))
  | .trap => inferInstanceAs (Decidable (s.loc s.curr = .user))
  | .tick => isTrue trivial
  | .yieldKernel => inferInstanceAs (Decidable (s.loc s.curr = .kernel))
  | .doFork _ _ => inferInstanceAs (Decidable (_ ∧ _ ∧ _))
  | .loadBin _ _ => inferInstanceAs (Decidable (_ ∧ _ ∧ _))
  | .doYield => inferInstanceAs (Decidable s.MayCall)
  | .setPriority _ => inferInstanceAs (Decidable s.MayCall)
  | .doKill _ => inferInstanceAs (Decidable s.MayCall)
  | .doWait _ _ => inferInstanceAs (Decidable s.MayCall)
  | .doSleep _ => inferInstanceAs (Decidable s.MayCall)
  | .doExit _ => inferInstanceAs (Decidable s.MayCall)
  | .doExecve _ => inferInstanceAs (Decidable s.MayCall)
  | .down _ => inferInstanceAs (Decidable (_ ∧ _))
  | .up _ => inferInstanceAs (Decidable (_ ∧ _))

/-- The state after the steps `ops`, if each of them may come next and satisfies `C`. -/
def replay (C : Kernel κ ν μ ρ → KernelOp κ ν μ ρ × Outcome ν → Prop) [∀ s, DecidablePred (C s)]
    (k : ℕ) : List (KernelOp κ ν μ ρ) → Kernel κ ν μ ρ → Option (Kernel κ ν μ ρ)
  | [], s => some s
  | op :: ops, s =>
    if s.Enabled op then
      match exec k s op with
      | .ok (s', out) => if C s (op, out) then replay C k ops s' else none
      | .error _ => none
    else none

/-- A state that has been reached by executing steps. -/
theorem replay_reachable {C : Kernel κ ν μ ρ → KernelOp κ ν μ ρ × Outcome ν → Prop}
    [∀ s, DecidablePred (C s)] {s s' : Kernel κ ν μ ρ} {k : ℕ} {ops : List (KernelOp κ ν μ ρ)}
    (hs : ((kernelSystem κ ν μ ρ).guard C).Reachable s) (h : replay C k ops s = some s') :
    ((kernelSystem κ ν μ ρ).guard C).Reachable s' := by
  induction ops generalizing s with
  | nil =>
    cases h
    exact hs
  | cons op ops ih =>
    rw [replay] at h
    split_ifs at h with hen
    cases he : exec k s op with
    | error e => simp [he] at h
    | ok r =>
      obtain ⟨s₁, out⟩ := r
      simp only [he] at h
      split_ifs at h with hC
      exact ih (hs.step ⟨hC, hen, k, he⟩) h

/-- The variables of the kernel before `init_proc`. -/
def blank : Kernel ℕ ℕ ℕ ℕ where
  sched :=
    { sem := ⟨fun _ => 0, ⟨id, id⟩, fun p => ⟨p, 0, 0⟩, fun _ => ⟨.uninit, waitNone⟩, fun _ => none⟩
      queue := ⟨none, ⟨fun _ => none, fun _ => none, fun _ => none⟩, 0, fun _ => false, fun _ => 0,
        fun _ => 0, fun _ => 0, fun _ => false⟩
      curr := 0
      idle := 0 }
  table := ⟨⟨id, id⟩, fun _ => 0, fun _ => none, fun _ => none, fun _ => none, fun _ => none, 0,
    maxPid, maxPid⟩
  timers := ⟨fun _ => 0, id, ⟨id, id⟩⟩
  vm := ⟨fun _ => none, fun _ => none, fun _ => 0, fun _ => none, fun _ => false, fun _ => false⟩
  initProc := 0
  flagExit _ := false
  exitCode _ := 0
  waitStatus _ := 0
  inUse _ := false
  isUser _ := false
  loc _ := .kernel

theorem blank_boot : Boot blank where
  inUse _ := rfl
  numProc := rfl
  prevPid := rfl
  nextPid := rfl
  sem k := by simp [blank, Links.initList, Links.setNext, Links.setPrev]
  blockedIn _ := rfl
  loc _ := rfl
  isUser _ := rfl
  vmms _ := rfl
  gpts _ := rfl

/-- What `do_fork` gets for the process `p`. -/
def forkMem (p : ℕ) : ForkMem ℕ ℕ ℕ := ⟨some p, true, ⟨some p, some p, true⟩⟩

/-- The state after `init_proc` and the steps `ops`, if all of them satisfy `C`; process 0 is `idle`,
and process 1 is `init`. -/
def replayed (C : Kernel ℕ ℕ ℕ ℕ → KernelOp ℕ ℕ ℕ ℕ × Outcome ℕ → Prop) [∀ s, DecidablePred (C s)]
    (ops : List (KernelOp ℕ ℕ ℕ ℕ)) : Option (Kernel ℕ ℕ ℕ ℕ) :=
  match initProcs 20 (forkMem 1) 0 blank with
  | .ok s => replay C 20 ops s
  | .error _ => none

/-- A property of the state after some steps that satisfy `C`, which can be evaluated. -/
theorem exists_guarded (C : Kernel ℕ ℕ ℕ ℕ → KernelOp ℕ ℕ ℕ ℕ × Outcome ℕ → Prop)
    [∀ s, DecidablePred (C s)] (ops : List (KernelOp ℕ ℕ ℕ ℕ)) (P : Kernel ℕ ℕ ℕ ℕ → Prop)
    [DecidablePred P] (h : (replayed C ops).any (fun s => P s) = true) :
    ∃ s, ((kernelSystem ℕ ℕ ℕ ℕ).guard C).Reachable s ∧ P s := by
  obtain ⟨s, hs, hP⟩ := (Option.any_eq_true _ _).1 h
  refine ⟨s, ?_, of_decide_eq_true hP⟩
  unfold replayed at hs
  cases hi : initProcs 20 (forkMem 1) 0 blank with
  | error e => simp [hi] at hs
  | ok s₀ =>
    simp only [hi] at hs
    refine replay_reachable (.start ⟨blank, 20, forkMem 1, 0, blank_boot, ?_, hi⟩) hs
    rintro proc hp rfl
    cases hp

/-- A property of the state after some steps. -/
theorem exists_replayed (ops : List (KernelOp ℕ ℕ ℕ ℕ)) (P : Kernel ℕ ℕ ℕ ℕ → Prop)
    [DecidablePred P] (h : (replayed (fun _ _ => True) ops).any (fun s => P s) = true) :
    ∃ s, (kernelSystem ℕ ℕ ℕ ℕ).Reachable s ∧ P s := by
  obtain ⟨s, hs, hP⟩ := exists_guarded _ ops P h
  exact ⟨s, hs.of_guard, hP⟩

end Kernel

/-! ### The process family -/

/-- **The process list and the process tree.**  In every state that a run reaches, `g_proc_list`
holds every process except `idle` exactly once; for each process the `child` link and then the
`older` links enumerate its children, each once, and `younger` is the inverse of `older` along this
chain; parents are processes, every process descends from `idle`; and `g_num_proc` is one more than
the length of the list. -/
theorem process_family {κ ν μ ρ : Type} [DecidableEq κ] [DecidableEq ν] [DecidableEq μ]
    [DecidableEq ρ] {s : Kernel κ ν μ ρ} (h : (kernelSystem κ ν μ ρ).Reachable s) :
    ∃ (ps : List ν) (kids : ν → List ν),
      Ring s.table.procList none (ps.map some) ∧ ps.Nodup ∧
      (∀ p, p ∈ ps ↔ s.inUse p = true ∧ p ≠ s.sched.idle) ∧
      (∀ p, s.inUse p = true → s.table.child p = (kids p).head? ∧
        s.table.forest.Siblings none (kids p) ∧ (kids p).Nodup ∧
        ∀ c, c ∈ kids p ↔ s.inUse c = true ∧ s.table.parent c = some p) ∧
      (∀ c p, s.inUse c = true → s.table.parent c = some p → p = s.sched.idle ∨ p ∈ ps) ∧
      (∀ p, s.inUse p = true → s.table.forest.Descends s.sched.idle p) ∧
      s.table.numProc = ps.length + 1 := by
  obtain ⟨ps, kids, hfamily, -⟩ := (kernel_sound h).family
  have htable := hfamily.table
  refine ⟨ps, kids, htable.lists, htable.lists.nodup, htable.mem, fun p hp =>
    ⟨htable.kin.child p hp, htable.kin.siblings p hp, htable.kin.nodup p, htable.kin.mem p⟩,
    fun c p hc hcp => ?_, htable.descends, htable.num⟩
  have hp := htable.kin.parent c hc p hcp
  by_cases hpi : p = s.sched.idle
  · exact Or.inl hpi
  · exact Or.inr ((htable.mem p).2 ⟨hp, hpi⟩)

/-- A child of `init` that has exited stays in the list until it is reaped. -/
theorem process_family_zombie : ∃ s : Kernel ℕ ℕ ℕ ℕ, (s.sched.pcb 2).state = .zombie ∧
    ∃ (ps : List ℕ) (kids : ℕ → List ℕ), Ring s.table.procList none (ps.map some) ∧ 2 ∈ ps ∧
      2 ∈ kids 1 := by
  obtain ⟨s, hs, hz, h2, hparent, hidle, h1⟩ := Kernel.exists_replayed
    [.yieldKernel, .schedule, .start, .doFork true (Kernel.forkMem 2), .doWait 0 none, .schedule,
      .start, .doExit 7]
    (fun s => (s.sched.pcb 2).state = .zombie ∧ s.inUse 2 = true ∧ s.table.parent 2 = some 1 ∧
      s.sched.idle = 0 ∧ s.inUse 1 = true) (by decide +kernel)
  obtain ⟨ps, kids, hring, -, hmem, hkids, -⟩ := process_family hs
  exact ⟨s, hz, ps, kids, hring, (hmem 2).2 ⟨h2, by rw [hidle]; decide⟩,
    ((hkids 1 h1).2.2.2 2).2 ⟨h2, hparent⟩⟩

end GarretOS
