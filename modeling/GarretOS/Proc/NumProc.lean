import GarretOS.Proc.WaitRuns

/-!
# The number of processes

`do_fork` refuses to create a process when `g_num_proc` is greater than `MAX_PROCESS`, so it still
creates one when `MAX_PROCESS` processes exist.

* `num_proc_bounded` : if `do_fork` is never called with `MAX_PROCESS` processes, there are never
  more, and every call of `do_fork` reports a full table as it should;
* `num_proc_exceeded` : `init` can create processes until there is one too many.
-/

namespace GarretOS

open ProcTable Sched

/-! ### `do_fork` comes to an end -/

section

variable {π : Type} [DecidableEq π] {T : ProcTable π}

theorem setLinks_ends {proc p : π} (hp : T.parent proc = some p) :
    ∃ T', T.setLinks proc = .ok T' := by
  simp only [setLinks, setYounger, hp, deref_some, ok_bind]
  exact ⟨_, rfl⟩

theorem ProcTable.TableOk.enterProc_fueled {U : Set π} {idle : π} {ps : List π} {young : π → Option π}
    {kids : π → List π} (h : T.TableOk U idle ps young kids) (hroom : T.numProc ≤ maxProcess)
    {proc p : π} (hp : T.parent proc = some p) :
    ∃ n T', Fueled n (fun k => T.enterProc k proc) (.ok T') := by
  have hlen : (ps.length : ℤ) + 2 ≤ maxPid := by
    have hle : ps.length + 1 ≤ maxProcess := h.num ▸ hroom
    have hlt : (maxProcess : ℤ) + 2 ≤ maxPid := by decide
    omega
  obtain ⟨n, pid, next, hF, -⟩ := h.pids.allocPid h.lists hlen
  obtain ⟨T', hT'⟩ := setLinks_ends (T := ({ T with
    prevPid := pid
    nextPid := next } : ProcTable π).setPid proc pid) hp
  refine ⟨n, T', ?_⟩
  have hbind := hF.bind fun r => (r.1.setPid proc r.2).setLinks proc
  rw [ok_bind, hT'] at hbind
  exact hbind

end

namespace Kernel

variable {κ ν μ ρ : Type} [DecidableEq ν] [DecidableEq μ] [DecidableEq ρ]
  {s s' : Kernel κ ν μ ρ} {ps : List ν} {kids : ν → List ν} {k : ℕ}

/-- `do_fork` comes to an end when all allocations succeed. -/
theorem doFork_fueled {t : Tree ν}
    (h : s.table.TableOk s.used s.sched.idle ps (fun _ => none) kids)
    (hpool : s.sched.PoolOk s.used t) (hrun : s.sched.pcb s.curr = .running)
    (hcurr : s.curr ∈ s.used) (hroom : s.table.numProc ≤ maxProcess) {cloneVm : Bool}
    {m : ForkMem ν μ ρ} {proc : ν} (hm : m.pcb = some proc) (hproc : s.inUse proc = false)
    (hstack : m.stack = true)
    (hvm : ((s.vm.allocProc proc).copyVmm s.curr proc cloneVm m.vm).2 = true) :
    ∃ n s' ret, Fueled n (fun k => s.doFork k cloneVm m) (.ok (s', ret)) ∧
      s'.inUse proc = true := by
  have hU : proc ∉ s.used := not_mem_used hproc
  have hne : s.curr ≠ proc := ne_of_unused hproc hcurr
  have hnone : ((s.allocProc proc).sched.pcb s.curr).waitState = waitNone := by
    simp only [Kernel.allocProc, Sched.allocProc, Sched.pcb, setPcb, Function.update_of_ne hne]
    rw [show s.sched.sem.pcb s.curr = .running from hrun]
    rfl
  obtain ⟨vm, hvm'⟩ : ∃ vm, (s.vm.allocProc proc).copyVmm s.curr proc cloneVm m.vm = (vm, true) :=
    ⟨_, Prod.ext rfl hvm⟩
  have halloc := h.allocProc hU (some s.curr)
  have hparent : ((s.table.allocProc proc).setParent proc (some s.curr)).parent proc =
    some s.curr := Function.update_self _ _ _
  obtain ⟨n₁, T', hF₁⟩ := halloc.enterProc_fueled hroom hparent
  have hpool' : (s.sched.allocProc proc).PoolOk s.used t := hpool.allocProc hU fun _ _ => Iff.rfl
  have halive : ((s.sched.allocProc proc).pcb proc).state ≠ .zombie := by
    simp [Sched.allocProc, Sched.pcb, setPcb]
  obtain ⟨n₂, sched, hF₂⟩ := hpool'.wakeupProc_fueled halive
  simp only [Kernel.doFork, if_neg (Nat.not_lt.2 hroom), hm, hstack]
  have hnone' : ((s.allocProc proc).sched.pcb (s.allocProc proc).sched.curr).waitState = waitNone :=
    hnone
  have hvm'' : (s.allocProc proc).vm.copyVmm (s.allocProc proc).sched.curr proc cloneVm m.vm =
    (vm, true) := hvm'
  simp only [Kernel.curr, hvm'', not_true_eq_false, if_false]
  exact ⟨_, _, _, Fueled.seq (m := 0) (fun _ => Or.inl (assert_of hnone'))
    (hF₁.seq ((hF₂.bind _).bind _)), Function.update_self _ _ _⟩

/-- `do_fork` has run out of memory, or the process is in use now. -/
theorem doFork_noMem (hroom : s.table.numProc ≤ maxProcess) {cloneVm : Bool} {m : ForkMem ν μ ρ}
    {ret : ℤ} (he : s.doFork k cloneVm m = .ok (s', ret)) :
    ret = -eNoMem ∨ ∃ proc, m.pcb = some proc ∧ s'.inUse proc = true := by
  rw [Kernel.doFork, if_neg (Nat.not_lt.2 hroom)] at he
  cases hm : m.pcb with
  | none =>
    simp only [hm] at he
    cases he
    exact Or.inl rfl
  | some proc =>
    simp only [hm] at he
    obtain ⟨-, -, he⟩ := bind_eq_ok.1 he
    split_ifs at he with hstack
    · split at he
      · cases he
        exact Or.inl rfl
      · obtain ⟨table, -, he⟩ := bind_eq_ok.1 he
        obtain ⟨s₁, hwake, he⟩ := bind_eq_ok.1 he
        obtain ⟨sched, -, hwake⟩ := bind_eq_ok.1 hwake
        cases hwake
        cases he
        exact Or.inr ⟨proc, rfl, by simp [Kernel.allocProc]⟩
    · cases he
      exact Or.inl rfl

/-- A process that is in use after `do_fork` has been created by it. -/
theorem doFork_new (h : s.table.TableOk s.used s.sched.idle ps (fun _ => none) kids)
    (hcurr : s.curr ∈ s.used) {cloneVm : Bool} {m : ForkMem ν μ ρ} {ret : ℤ} {proc : ν}
    (hm : m.pcb = some proc) (hproc : s.inUse proc = false)
    (he : s.doFork k cloneVm m = .ok (s', ret)) (hin : s'.inUse proc = true) :
    Forked s s' proc cloneVm m ret ∧ 0 < ret ∧ s'.table.numProc = s.table.numProc + 1 := by
  have hfresh : ∀ z, m.pcb = some z → s.inUse z = false := by
    intro z hz
    rw [← Option.some.inj (hm.symm.trans hz)]
    exact hproc
  rcases doFork_ok h hcurr hfresh he with ⟨rfl, -⟩ | ⟨z, hun, -⟩ | ⟨z, hforked, htable⟩
  · rw [hproc] at hin
    cases hin
  · obtain rfl : proc = z := Option.some.inj (hm.symm.trans hun.fresh)
    rw [hun.inUse_eq hproc, hproc] at hin
    cases hin
  · obtain rfl : proc = z := Option.some.inj (hm.symm.trans hforked.fresh)
    refine ⟨hforked, ?_, by rw [htable.num, h.num, List.length_cons]⟩
    rw [hforked.ret]
    exact (htable.pid_pos proc List.mem_cons_self).1

/-- **`do_fork` refuses to create a process** when there are more than `MAX_PROCESS`. -/
theorem doFork_full (h : s.table.TableOk s.used s.sched.idle ps (fun _ => none) kids)
    (hcurr : s.curr ∈ s.used) {cloneVm : Bool} {m : ForkMem ν μ ρ} {ret : ℤ}
    (hfresh : ∀ proc, m.pcb = some proc → s.inUse proc = false)
    (he : s.doFork k cloneVm m = .ok (s', ret)) :
    (ret = -eNoFreeProc ↔ maxProcess < s.table.numProc) ∧ (ret = -eNoFreeProc → s' = s) := by
  by_cases hfull : maxProcess < s.table.numProc
  · rw [Kernel.doFork, if_pos hfull] at he
    cases he
    exact ⟨iff_of_true rfl hfull, fun _ => rfl⟩
  suffices hne : ret ≠ -eNoFreeProc from ⟨iff_of_false hne hfull, fun h => absurd h hne⟩
  rcases doFork_noMem (Nat.not_lt.1 hfull) he with rfl | ⟨proc, hm, hin⟩
  · decide
  obtain ⟨-, hpos, -⟩ := doFork_new h hcurr hm (hfresh proc hm) he hin
  rw [eNoFreeProc]
  omega

/-! ### Counting the processes -/

variable [DecidableEq κ] {op : KernelOp κ ν μ ρ} {out : Outcome ν}

omit [DecidableEq μ] [DecidableEq ρ] in
/-- A step creates at most one process, and only `do_fork` creates one. -/
theorem Relates.numProc_le (hrel : Relates s s' (op, out)) (hs : s.Sound) (hs' : s'.Sound)
    (hen : s.Enabled op) : s'.table.numProc ≤ s.table.numProc ∨
      (∃ cloneVm m, op = .doFork cloneVm m) ∧ s'.table.numProc ≤ s.table.numProc + 1 := by
  obtain ⟨ps, kids, hfamily, -⟩ := hs.family
  obtain ⟨ps', kids', hfamily', -⟩ := hs'.family
  have hidle := hrel.idle_eq hs hs' hen
  have hmem : ∀ c ∈ ps', c ∈ ps ∨ Creates c (op, out) := by
    intro c hc
    obtain ⟨hc, hci⟩ := (hfamily'.table.mem c).1 hc
    exact (hrel.member c hc).imp (fun h => (hfamily.table.mem c).2 ⟨h.1, hidle ▸ hci⟩) (·.1)
  rw [hfamily'.table.num, hfamily.table.num]
  by_cases hnew : ∃ z, Creates z (op, out)
  · obtain ⟨z, cloneVm, m, ret, hl, -, hm⟩ := hnew
    have hsub : ps' ⊆ z :: ps := by
      intro c hc
      rcases hmem c hc with hc | ⟨cloneVm', m', ret', hl', -, hm'⟩
      · exact List.mem_cons_of_mem z hc
      · obtain ⟨-, rfl⟩ := KernelOp.doFork.inj (Prod.mk.inj (hl.symm.trans hl')).1
        rw [Option.some.inj (hm'.symm.trans hm)]
        exact List.mem_cons_self
    exact Or.inr ⟨⟨cloneVm, m, (Prod.mk.inj hl).1⟩,
      Nat.succ_le_succ (List.subperm_of_subset hfamily'.table.lists.nodup hsub).length_le⟩
  · have hsub : ps' ⊆ ps := fun c hc => (hmem c hc).resolve_right fun h => hnew ⟨c, h⟩
    exact Or.inl (Nat.succ_le_succ
      (List.subperm_of_subset hfamily'.table.lists.nodup hsub).length_le)

/-- `do_fork` is not called with `MAX_PROCESS` processes. -/
def ForksBelow (s : Kernel κ ν μ ρ) (l : KernelOp κ ν μ ρ × Outcome ν) : Prop :=
  match l.1 with
  | .doFork _ _ => s.table.numProc ≠ maxProcess
  | _ => True

end Kernel

open Kernel

/-- **The number of processes** never exceeds `MAX_PROCESS`, as long as `do_fork` is not called with
exactly `MAX_PROCESS` processes.  A call of `do_fork` returns `-E_NO_FREE_PROC`, and changes nothing
then, exactly when there are `MAX_PROCESS` processes, if and only if it is such a call. -/
theorem num_proc_bounded {κ ν μ ρ : Type} [DecidableEq κ] [DecidableEq ν] [DecidableEq μ]
    [DecidableEq ρ] {s : Kernel κ ν μ ρ}
    (h : ((kernelSystem κ ν μ ρ).guard ForksBelow).Reachable s) :
    s.table.numProc ≤ maxProcess ∧
      ∀ k cloneVm m s' ret, s.Enabled (.doFork cloneVm m) →
        s.doFork k cloneVm m = .ok (s', ret) →
        ((ret = -eNoFreeProc ↔ s.table.numProc = maxProcess) ↔ s.table.numProc ≠ maxProcess) ∧
          (ret = -eNoFreeProc → s' = s) := by
  have hle : s.table.numProc ≤ maxProcess := by
    refine h.induct (I := fun s => s.table.numProc ≤ maxProcess) (fun s hs => ?_)
      fun s l s' hr ih hl => ?_
    · obtain ⟨ps, kids, hfamily, -⟩ := (kernel_sound ⟨[], .start hs⟩).family
      have hsub : ps ⊆ [s.initProc] := by
        intro c hc
        obtain ⟨hc, hci⟩ := (hfamily.table.mem c).1 hc
        exact List.mem_singleton.2 (((init_used hs).2 c hc).resolve_right hci)
      have hlen := (List.subperm_of_subset hfamily.table.lists.nodup hsub).length_le
      rw [hfamily.table.num]
      exact (Nat.succ_le_succ hlen).trans (show 2 ≤ maxProcess by decide)
    · obtain ⟨op, out⟩ := l
      obtain ⟨hguard, hen, k, he⟩ := hl
      have hs := kernel_sound hr.of_guard
      have heffect := hs.effect hen he
      rcases heffect.relates.numProc_le hs (heffect.sound hs) hen with hle | ⟨⟨_, _, rfl⟩, hle⟩
      · exact hle.trans ih
      · exact hle.trans (lt_of_le_of_ne ih hguard)
  refine ⟨hle, fun k cloneVm m s' ret hen he => ?_⟩
  have hs := kernel_sound h.of_guard
  obtain ⟨ps, kids, hfamily, -⟩ := hs.family
  obtain ⟨h1, h2⟩ := doFork_full hfamily.table hs.placed.curr_mem hen.2.1 he
  refine ⟨?_, h2⟩
  rw [h1, iff_false_left (Nat.not_lt.2 hle)]

/-- A third process is created. -/
theorem num_proc_bounded_three : ∃ s s' : Kernel ℕ ℕ ℕ ℕ, s.table.numProc = 2 ∧
    s'.table.numProc = 3 ∧ s'.table.numProc ≤ maxProcess ∧
      ∃ ret, s.doFork 20 true (forkMem 2) = .ok (s', ret) ∧ ret ≠ -eNoFreeProc := by
  obtain ⟨s, hs, hnum, hcall, hin, hv, hg, hfork⟩ := exists_guarded
    (fun s l => (match l.1 with
      | .doFork _ _ => s.table.numProc != maxProcess
      | _ => true) = true)
    [.yieldKernel, .schedule, .start] (fun s => s.table.numProc = 2 ∧ s.MayCall ∧
      s.inUse 2 = false ∧ s.vm.vmms 2 = false ∧ s.vm.gpts 2 = false ∧
      (s.doFork 20 true (forkMem 2)).toOption.any (fun r => r.1.table.numProc = 3) = true)
    (by decide +kernel)
  have hs' : ((kernelSystem ℕ ℕ ℕ ℕ).guard ForksBelow).Reachable s := by
    refine hs.weaken fun s ⟨op, out⟩ hl => ?_
    cases op with
    | doFork cloneVm m =>
      show s.table.numProc ≠ maxProcess
      simpa using hl
    | _ => trivial
  have hen : s.Enabled (.doFork true (forkMem 2)) := by
    refine ⟨hcall, ?_, ?_, ?_⟩
    · exact fun proc hproc => Option.some.inj hproc ▸ hin
    · exact fun v hvm => Option.some.inj hvm ▸ hv
    · exact fun g hgpt => Option.some.inj hgpt ▸ hg
  cases he : s.doFork 20 true (forkMem 2) with
  | error e => simp [he, Except.toOption] at hfork
  | ok r =>
    obtain ⟨s', ret⟩ := r
    have hnum' : s'.table.numProc = 3 := by simpa [he, Except.toOption] using hfork
    refine ⟨s, s', hnum, hnum', by rw [hnum']; decide, ret, he, fun hret => ?_⟩
    obtain ⟨-, h⟩ := num_proc_bounded hs'
    have hsame := (h 20 true (forkMem 2) s' ret hen he).2 hret
    rw [hsame, hnum] at hnum'
    cases hnum'

/-! ### Too many processes -/

/-- What `do_fork` gets for a kernel thread. -/
def threadMem (p : ℕ) : ForkMem ℕ ℕ ℕ := ⟨some p, true, ⟨none, none, false⟩⟩

/-- The processes are those below `n`, and a kernel thread is running. -/
structure Forking (s : Kernel ℕ ℕ ℕ ℕ) (n : ℕ) : Prop where
  reachable : (kernelSystem ℕ ℕ ℕ ℕ).Reachable s
  num : s.table.numProc = n
  unused : ∀ p, n ≤ p → s.inUse p = false
  loc : s.loc s.curr = .kernel
  ne_idle : s.curr ≠ s.sched.idle
  thread : s.isUser s.curr = false
  vmm : s.vm.vmm s.curr = none

/-- `init` has started. -/
theorem exists_forking : ∃ s, Forking s 2 := by
  obtain ⟨s, hs, hnum, hcurr, hidle, hinit, hin, hloc, huser, hvmm⟩ := exists_replayed
    [.yieldKernel, .schedule, .start] (fun s => s.table.numProc = 2 ∧ s.curr = 1 ∧
      s.sched.idle = 0 ∧ s.initProc = 1 ∧ s.inUse 1 = true ∧ s.loc 1 = .kernel ∧
      s.isUser 1 = false ∧ s.vm.vmm 1 = none) (by decide +kernel)
  obtain ⟨ps, kids, hfamily, -⟩ := (kernel_sound hs).family
  refine ⟨s, hs, hnum, fun p hp => ?_, by rwa [hcurr], by rw [hcurr, hidle]; decide, by rwa [hcurr],
    by rwa [hcurr]⟩
  by_contra hused
  have hmem := (hfamily.table.mem p).2 ⟨by simpa [used] using hused, by rw [hidle]; omega⟩
  have hmem₁ := (hfamily.table.mem 1).2 ⟨hin, by rw [hidle]; decide⟩
  have hlen := hfamily.table.num
  rw [hnum] at hlen
  obtain ⟨z, hz⟩ := List.length_eq_one_iff.1 (show ps.length = 1 by omega)
  rw [hz, List.mem_singleton] at hmem hmem₁
  omega

/-- A call of `do_fork` creates one more kernel thread. -/
theorem Forking.fork {s : Kernel ℕ ℕ ℕ ℕ} {n : ℕ} (h : Forking s n) (hn : n ≤ maxProcess) :
    ∃ s' ret, 0 < ret ∧ (kernelSystem ℕ ℕ ℕ ℕ).step s
      (.doFork true (threadMem n), .returned ret none) s' ∧ Forking s' (n + 1) := by
  have hs := kernel_sound h.reachable
  obtain ⟨ps, kids, hfamily, -⟩ := hs.family
  obtain ⟨t, hpool⟩ := hs.pool
  have hcall : s.MayCall := Or.inr ⟨h.loc, h.ne_idle⟩
  have hfresh : ∀ proc, (threadMem n).pcb = some proc → s.inUse proc = false := by
    intro proc hproc
    exact h.unused proc (Option.some.inj hproc).le
  have hne : s.curr ≠ n := ne_of_unused (h.unused n le_rfl) hs.placed.curr_mem
  have hvm : (s.vm.allocProc n).copyVmm s.curr n true (threadMem n).vm =
      (s.vm.allocProc n, true) := by
    simp only [VmTable.copyVmm, VmTable.allocProc, Function.update_of_ne hne, h.vmm]
  obtain ⟨N, s₁, ret, hF, hin⟩ := doFork_fueled hfamily.table hpool
    (hcall.runs.running hs.placed) hs.placed.curr_mem (h.num.le.trans hn) (m := threadMem n) rfl
    (h.unused n le_rfl) rfl (show _ = true by rw [hvm])
  have he : s.doFork (N + 1) true (threadMem n) = .ok (s₁, ret) := hF.of_lt (Nat.lt_succ_self N)
  obtain ⟨hforked, hpos, hnum⟩ := doFork_new hfamily.table hs.placed.curr_mem rfl
    (h.unused n le_rfl) he hin
  have hstep : (kernelSystem ℕ ℕ ℕ ℕ).step s
      (.doFork true (threadMem n), .returned ret none) s₁.back := by
    refine ⟨⟨hcall, hfresh, nofun, nofun⟩, N + 1, ?_⟩
    simp only [exec, he, ok_bind]
    rfl
  have hcurr : s₁.sched.curr = s.curr := hforked.curr_eq
  have huser : s₁.isUser s₁.sched.curr = false := by
    rw [congrArg Kernel.isUser hforked.eq, hcurr]
    exact (Function.update_of_ne hne _ _).trans h.thread
  refine ⟨s₁.back, ret, hpos, hstep, h.reachable.step hstep, hnum.trans (by rw [h.num]),
    fun p hp => ?_, ?_, ?_, huser, ?_⟩
  · show s₁.inUse p = false
    rw [congrArg Kernel.inUse hforked.eq]
    exact (Function.update_of_ne (by omega) _ _).trans (h.unused p (by omega))
  · show Function.update s₁.loc s₁.sched.curr _ s₁.sched.curr = _
    rw [Function.update_self, Kernel.curr, huser]
    rfl
  · show s₁.sched.curr ≠ s₁.sched.idle
    rw [hcurr, hforked.idle_eq]
    exact h.ne_idle
  · show s₁.vm.vmm s₁.sched.curr = none
    rw [← (Prod.mk.inj (hvm.symm.trans hforked.vm)).1, hcurr]
    simp only [VmTable.allocProc, Function.update_of_ne hne, h.vmm]

/-- As long as the table is not full, one more process can be created. -/
theorem exists_forking_of_le (n : ℕ) (hn : n + 2 ≤ maxProcess) : ∃ s, Forking s (n + 2) := by
  induction n with
  | zero => exact exists_forking
  | succ n ih =>
    obtain ⟨s, hs⟩ := ih (by omega)
    obtain ⟨s', ret, -, -, hs'⟩ := hs.fork (by omega)
    exact ⟨s', hs'⟩

/-- With `MAX_PROCESS` processes, `do_fork` creates another one. -/
theorem num_proc_exceeded : ∃ (s s' : Kernel ℕ ℕ ℕ ℕ) (ret : ℤ),
    (kernelSystem ℕ ℕ ℕ ℕ).Reachable s ∧ s.table.numProc = maxProcess ∧ 0 < ret ∧
      (kernelSystem ℕ ℕ ℕ ℕ).step s
        (.doFork true (threadMem maxProcess), .returned ret none) s' ∧
      s'.table.numProc = maxProcess + 1 := by
  obtain ⟨s, hs⟩ := exists_forking_of_le 4094 (by decide)
  obtain ⟨s', ret, hpos, hstep, hs'⟩ := hs.fork le_rfl
  exact ⟨s, s', ret, hs.reachable, hs.num, hpos, hstep, hs'.num⟩

end GarretOS
