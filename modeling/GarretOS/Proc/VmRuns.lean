import GarretOS.Proc.SoundRuns
import GarretOS.Proc.VmShare

/-!
# The address spaces of the processes

`VmSound s` : the address spaces are in order for the processes of `s`.  A process that has given up
its address space keeps the old `p_gpt` while it is in `do_exit`, or in `do_execve` before `load_bin`
has succeeded (`Loc.Stale`); `schedule` never switches to it there.

* `Effect.vmSound` : a step keeps this, and says when it releases an address space;
* `vmm_shared` : counts, lifetimes and page tables along runs.
-/

namespace GarretOS

open ProcTable Sched VmTable

/-- Places at which `p_gpt` may be the table of an address space that has been given up. -/
def Loc.Stale {κ : Type} (l : Loc κ) : Prop := l.At .exit ∨ l = .loading

theorem Loc.Free.not_stale {κ : Type} {l : Loc κ} (h : l.Free) : ¬ l.Stale := by
  rintro ((rfl | rfl) | rfl)
  · rcases h with h | h <;> cases h
  · rcases h with h | h <;> cases h
  · exact h

namespace Kernel

variable {κ ν μ ρ : Type} {s s' : Kernel κ ν μ ρ} {op : KernelOp κ ν μ ρ} {out : Outcome ν}

/-- The address spaces are in order. -/
structure VmSound (s : Kernel κ ν μ ρ) : Prop where
  ok : s.vm.VmOk s.used {p | (s.loc p).Stale}
  used : s.vm.Used s.used

/-- The address spaces that a step releases: those that the running process leaves as the last one,
by `do_exit` or by `do_execve`. -/
def Released (s s' : Kernel κ ν μ ρ) : Prop :=
  ∀ v g, s.vm.vmms v = true → s.vm.root v = some g →
    (s'.vm.vmms v = false ↔ s.vm.users s.used v = {s.curr} ∧
      (s'.loc s.curr = .calling .exit ∨ s'.loc s.curr = .loading)) ∧
    s'.vm.gpts g = s'.vm.vmms v

/-- Nothing is released. -/
theorem Released.of_keeps (h : s.VmSound) (h' : s'.VmSound) (hkeep : Keeps s.vm s'.vm)
    (hcurr : s.curr ∈ s.used) (hloc : (s'.loc s.curr).Stale → (s.loc s.curr).Stale) :
    Released s s' := by
  intro v g hv hg
  obtain ⟨hv', hroot⟩ := hkeep v hv
  obtain ⟨g', hg', hlive⟩ := h'.ok.root v hv'
  rw [hroot, hg] at hg'
  obtain rfl := Option.some.inj hg'
  refine ⟨⟨fun he => ?_, fun ⟨hone, hleaves⟩ => ?_⟩, hlive.trans hv'.symm⟩
  · cases hv'.symm.trans he
  · have hmem : s.curr ∈ s.vm.users s.used v := by
      rw [hone]
      rfl
    have hstale : (s'.loc s.curr).Stale := hleaves.imp Or.inl id
    cases hmem.2.symm.trans (h.ok.left s.curr hcurr (hloc hstale))

/-- The address spaces are not touched. -/
theorem VmSound.same (h : s.VmSound) (hcurr : s.curr ∈ s.used) (hvm : s'.vm = s.vm)
    (hused : s'.used = s.used) (hstale : ∀ p ∈ s.used, (s'.loc p).Stale ↔ (s.loc p).Stale) :
    s'.VmSound ∧ Released s s' := by
  have h' : s'.VmSound := by
    constructor
    · rw [hvm, hused]
      exact h.ok.stale_congr hstale
    · rw [hvm, hused]
      exact h.used
  exact ⟨h', .of_keeps h h' (hvm ▸ .refl _) hcurr (hstale s.curr hcurr).1⟩

variable [DecidableEq ν]

/-- The running process moves, and does not begin or end `do_exit` or `do_execve`. -/
theorem VmSound.moves (h : s.VmSound) (hcurr : s.curr ∈ s.used) (hvm : s'.vm = s.vm)
    (hused : s'.used = s.used) {l : Loc κ} (hloc : s'.loc = Function.update s.loc s.curr l)
    (hbefore : ¬(s.loc s.curr).Stale) (hafter : ¬ l.Stale) : s'.VmSound ∧ Released s s' := by
  refine h.same hcurr hvm hused fun p _ => ?_
  rw [hloc]
  by_cases hp : p = s.curr
  · rw [hp, Function.update_self]
    exact ⟨fun hl => absurd hl hafter, fun hl => absurd hl hbefore⟩
  · rw [Function.update_of_ne hp]

omit [DecidableEq ν] in
theorem Round.not_stale {pid : ℤ} {store : Bool} (h : s.Round op pid store) :
    ¬(s.loc s.curr).Stale := by
  rcases h with ⟨-, -, -, -, hcall⟩ | ⟨-, hl, -⟩
  · exact hcall.runs.free.not_stale
  · simp [hl, Loc.Stale, Loc.At]

omit [DecidableEq ν] in
/-- The place to which a kernel function returns. -/
theorem not_stale_back (s : Kernel κ ν μ ρ) :
    ¬(if s.isUser s.curr then Loc.trapEnd else Loc.kernel : Loc κ).Stale := by
  refine Loc.Free.not_stale ?_
  split_ifs <;> trivial

/-- The running process returns to the code that has called a kernel function, which has not changed
the address spaces. -/
theorem VmSound.returns (h : s.VmSound) (hmem : s.curr ∈ s.used) (hcurr : s'.curr = s.curr)
    (hvm : s'.vm = s.vm) (hused : s'.used = s.used) (hloc : s'.loc = s.loc)
    (huser : s'.isUser = s.isUser) (hl : ¬(s.loc s.curr).Stale) :
    s'.back.VmSound ∧ Released s s'.back := by
  refine h.moves hmem hvm hused (l := if s.isUser s.curr then .trapEnd else .kernel) ?_ hl
    (not_stale_back s)
  show Function.update s'.loc s'.curr _ = _
  rw [hcurr, hloc, huser]

/-- The running process returns from `do_fork`. -/
theorem VmSound.back_keeps (h : s.VmSound) (hmem : s.curr ∈ s.used) (h' : s'.VmSound)
    (hkeep : Keeps s.vm s'.vm) (hcurr : s'.curr = s.curr) (hmem' : s'.curr ∈ s'.used)
    (hl : ¬(s'.loc s'.curr).Stale) : s'.back.VmSound ∧ Released s s'.back := by
  have h'' := (h'.returns hmem' rfl rfl rfl rfl rfl hl).1
  refine ⟨h'', .of_keeps h h'' hkeep hmem fun hl => ?_⟩
  rw [← hcurr, show s'.back.loc s'.curr = _ from Function.update_self _ _ _] at hl
  exact absurd hl (not_stale_back s')

variable [DecidableEq κ]

/-- There are fewer processes than a `u32` can count. -/
theorem Sound.used_finite (h : s.Sound) : s.used.Finite ∧ s.used.ncard + 1 < 2 ^ 32 := by
  obtain ⟨ps, kids, hok, -⟩ := h.family
  have hsub : s.used ⊆ ↑(s.sched.idle :: ps).toFinset := by
    intro p hp
    rw [Finset.mem_coe, List.mem_toFinset, List.mem_cons]
    by_cases hpi : p = s.sched.idle
    · exact Or.inl hpi
    · exact Or.inr ((hok.table.mem p).2 ⟨hp, hpi⟩)
  have hfin : s.used.Finite := (Finset.finite_toSet _).subset hsub
  refine ⟨hfin, ?_⟩
  have h1 := Set.ncard_le_ncard hsub (Finset.finite_toSet _)
  rw [Set.ncard_coe_finset] at h1
  have h2 := List.toFinset_card_le (s.sched.idle :: ps)
  have h3 := hok.table.room
  have h4 : maxProcess = 4096 := rfl
  rw [List.length_cons] at h2
  omega

omit [DecidableEq κ] in
/-- A structure `proc` is initialised for `do_fork`. -/
theorem VmSound.allocProc (h : s.VmSound) {proc : ν} (hproc : s.inUse proc = false) :
    (s.vm.allocProc proc).VmOk (insert proc s.used) ({p | (s.loc p).Stale} \ {proc}) ∧
      (s.vm.allocProc proc).Used (insert proc s.used) := by
  have hne : ∀ p ∈ s.used, p ≠ proc := fun _ => Kernel.ne_of_unused hproc
  have hvmm : ∀ p ∈ s.used, (s.vm.allocProc proc).vmm p = s.vm.vmm p :=
    fun p hp => Function.update_of_ne (hne p hp) _ _
  have hok : (s.vm.allocProc proc).VmOk s.used {p | (s.loc p).Stale} :=
    h.ok.congr hvmm (fun p hp => Function.update_of_ne (hne p hp) _ _) rfl (fun _ _ => rfl)
      (fun _ _ => rfl) rfl
  refine ⟨hok.join (Function.update_self _ _ _) (Function.update_self _ _ _), fun v hv => ?_⟩
  obtain ⟨p, hp⟩ := h.used.congr hvmm (fun _ hv => hv) v hv
  exact ⟨p, Or.inr hp.1, hp.2⟩

variable [DecidableEq μ] [DecidableEq ρ]

omit [DecidableEq κ] in
/-- `do_fork` creates the process `proc`. -/
theorem Forked.vmSound {proc : ν} {cloneVm : Bool} {m : ForkMem ν μ ρ} {ret : ℤ} (h : s.VmSound)
    (hfin : s.used.Finite) (hcard : s.used.ncard + 1 < 2 ^ 32) (hcurr : s.curr ∈ s.used)
    (hproc : s.inUse proc = false) (hfresh : s.FreshVm m.vm)
    (hforked : Forked s s' proc cloneVm m ret) : s'.VmSound ∧ Keeps s.vm s'.vm := by
  obtain ⟨hok, hused⟩ := h.allocProc hproc
  have hcard' : (insert proc s.used).ncard < 2 ^ 32 :=
    (Set.ncard_insert_le proc s.used).trans_lt hcard
  obtain ⟨hok', hused', hkeep, -⟩ := hok.copyVmm hused (hfin.insert proc) hcard' (Or.inr hcurr)
    (Or.inl rfl) (Function.update_self _ _ _) (fun hp => hp.2 rfl) hfresh.1 hfresh.2 hforked.vm
  refine ⟨⟨?_, ?_⟩, hkeep⟩
  · rw [hforked.used_eq]
    refine hok'.stale_congr fun p hp => ?_
    have hloc : s'.loc p = Function.update s.loc proc .newborn p := by rw [hforked.eq]
    rw [Set.mem_ofPred_eq, hloc]
    by_cases hpp : p = proc
    · simp [hpp, Loc.Stale, Loc.At]
    · simp [hpp]
  · rw [hforked.used_eq]
    exact hused'

omit [DecidableEq κ] in
/-- `do_fork` fails. -/
theorem Unforked.vmSound {proc : ν} {cloneVm : Bool} {m : ForkMem ν μ ρ} (h : s.VmSound)
    (hfin : s.used.Finite) (hcard : s.used.ncard + 1 < 2 ^ 32) (hcurr : s.curr ∈ s.used)
    (hproc : s.inUse proc = false) (hfresh : s.FreshVm m.vm)
    (hun : Unforked s s' proc cloneVm m) : s'.VmSound ∧ Keeps s.vm s'.vm := by
  obtain ⟨hok, hused⟩ := h.allocProc hproc
  have hcard' : (insert proc s.used).ncard < 2 ^ 32 :=
    (Set.ncard_insert_le proc s.used).trans_lt hcard
  obtain ⟨hok', hused', hkeep, hnone⟩ : s'.vm.VmOk (insert proc s.used)
      ({p | (s.loc p).Stale} \ {proc}) ∧ s'.vm.Used (insert proc s.used) ∧ Keeps s.vm s'.vm ∧
      s'.vm.vmm proc = none := by
    rcases hun.vm with hvm | hvm
    · rw [hvm]
      exact ⟨hok, hused, .refl s.vm, Function.update_self _ _ _⟩
    · obtain ⟨h1, h2, h3, h4⟩ := hok.copyVmm hused (hfin.insert proc) hcard' (Or.inr hcurr)
        (Or.inl rfl) (Function.update_self _ _ _) (fun hp => hp.2 rfl) hfresh.1 hfresh.2 hvm
      exact ⟨h1, h2, h3, h4 rfl⟩
  have hne : ∀ p ∈ s.used, p ≠ proc := fun _ => Kernel.ne_of_unused hproc
  refine ⟨⟨?_, fun v hv => ?_⟩, hkeep⟩
  · rw [hun.used_eq hproc]
    refine (hok'.depart (fun q => ⟨fun hq => ⟨Or.inr hq, hne q hq⟩, fun hq => ?_⟩)
      hnone).stale_congr fun p hp => ?_
    · exact hq.1.resolve_left hq.2
    · rw [hun.eq]
      exact ⟨fun hm => ⟨hm, hne p hp⟩, fun hm => hm.1⟩
  · rw [hun.used_eq hproc]
    obtain ⟨p, hp, hpv⟩ := hused' v hv
    refine ⟨p, hp.resolve_left ?_, hpv⟩
    rintro rfl
    cases hnone.symm.trans hpv

/-- The running process gives up its address space. -/
theorem VmSound.leaves (h : s.VmSound) (hs : s.Sound) (hvm : s'.vm = s.vm.leaveVmm s.curr)
    (hused : s'.used = s.used) {l : Loc κ} (hloc : s'.loc = Function.update s.loc s.curr l)
    (hl : l = .calling .exit ∨ l = .loading) : s'.VmSound ∧ Released s s' := by
  obtain ⟨hfin, hcard⟩ := hs.used_finite
  have hcurr := hs.placed.curr_mem
  have hcard' : s.used.ncard < 2 ^ 32 := by omega
  have hself : s'.loc s.curr = l := by
    rw [hloc]
    exact Function.update_self _ _ _
  refine ⟨⟨?_, ?_⟩, fun v g hv hg => ?_⟩
  · rw [hvm, hused]
    refine (h.ok.leaveVmm hfin hcard' hcurr).stale_congr fun p _ => ?_
    rw [Set.mem_insert_iff, Set.mem_ofPred_eq, Set.mem_ofPred_eq]
    by_cases hp : p = s.curr
    · rw [hp, hself]
      exact ⟨fun _ => Or.inl rfl, fun _ => hl.imp Or.inl id⟩
    · rw [hloc, Function.update_of_ne hp, or_iff_right hp]
  · rw [hvm, hused]
    exact h.ok.leaveVmm_used h.used hfin hcard' hcurr
  · obtain ⟨hreleased, hgpts, -⟩ := h.ok.leaveVmm_released hfin hcard' hcurr hv hg
    rw [hvm, hself, hreleased, hgpts]
    exact ⟨⟨fun he => ⟨he, hl⟩, fun he => he.1⟩, rfl⟩

omit [DecidableEq κ] [DecidableEq μ] [DecidableEq ρ] in
/-- `do_wait` takes a zombie away, which has left its address space. -/
theorem Reaped.vmSound {store : Bool} {z : ν} (hreaped : Reaped s s' z store) (h : s.VmSound)
    (hs : s.Placed) (hz : z ∈ s.used) (hbefore : ¬(s.loc s.curr).Stale) :
    s'.VmSound ∧ Released s s' := by
  have hzl : (s.loc z).Stale := Or.inl ((hs.allows z hz).zombie_iff.1 hreaped.zombie)
  have hnone : s.vm.vmm z = none := h.ok.left z hz hzl
  have hvm : s'.vm = s.vm := by rw [hreaped.eq]; rfl
  have hback := not_stale_back s
  have hloc : ∀ p, (s'.loc p).Stale ↔ (s.loc p).Stale := by
    intro p
    rw [hreaped.eq]
    show (Function.update s.loc s.curr _ p).Stale ↔ _
    by_cases hp : p = s.curr
    · rw [hp, Function.update_self]
      exact ⟨fun hl => absurd hl hback, fun hl => absurd hl hbefore⟩
    · rw [Function.update_of_ne hp]
  have h' : s'.VmSound := by
    constructor
    · rw [hvm]
      exact (h.ok.depart (fun q => hreaped.mem_used) hnone).stale_congr fun p _ => hloc p
    · rw [hvm]
      intro v hv
      obtain ⟨q, hq⟩ := h.used v hv
      refine ⟨q, hreaped.mem_used.2 ⟨hq.1, ?_⟩, hq.2⟩
      rintro rfl
      cases hnone.symm.trans hq.2
  exact ⟨h', .of_keeps h h' (hvm ▸ .refl _) hs.curr_mem (hloc s.curr).1⟩

/-- `load_bin` begins with a process that has no address space. -/
theorem VmSound.loadBin (h : s.VmSound) (hs : s.Sound) (hl : s.loc s.curr = .loading)
    {m : VmMem μ ρ} (hfresh : s.FreshVm m) {vm : VmTable ν μ ρ} {ok : Bool}
    (hload : s.vm.loadBin s.curr m = .ok (vm, ok)) :
    vm.VmOk s.used (if ok then {p | (s.loc p).Stale} \ {s.curr} else {p | (s.loc p).Stale}) ∧
      vm.Used s.used ∧ Keeps s.vm vm ∧ (ok = false → vm.vmm s.curr = none) := by
  obtain ⟨hfin, hcard⟩ := hs.used_finite
  have hcurr := hs.placed.curr_mem
  have hnone : s.vm.vmm s.curr = none := h.ok.left s.curr hcurr (Or.inr hl)
  have hnew : s.vm.newVmm s.curr m = (vm, ok) := by
    rw [VmTable.loadBin, if_neg (not_not.2 hnone)] at hload
    exact Except.ok.inj hload
  exact h.ok.newVmm h.used hfin (by omega) hcurr hnone hfresh.1 hfresh.2 hnew

/-- `load_bin` succeeds. -/
theorem VmSound.loaded (h : s.VmSound) (hs : s.Sound) (hl : s.loc s.curr = .loading)
    {m : VmMem μ ρ} (hfresh : s.FreshVm m) {vm : VmTable ν μ ρ} {l : Loc κ}
    (hload : s.vm.loadBin s.curr m = .ok (vm, true)) (hl' : l = .trapEnd ∨ l = .user) :
    (({ s with vm, isUser := Function.update s.isUser s.curr true } : Kernel κ ν μ ρ).setLoc s.curr
      l).VmSound ∧ Released s (({ s with vm, isUser := Function.update s.isUser s.curr true } :
        Kernel κ ν μ ρ).setLoc s.curr l) := by
  obtain ⟨hok, hused, hkeep, -⟩ := h.loadBin hs hl hfresh hload
  have hfree : ¬ l.Stale := by rcases hl' with rfl | rfl <;> simp [Loc.Stale, Loc.At]
  have h' : (({ s with vm, isUser := Function.update s.isUser s.curr true } :
      Kernel κ ν μ ρ).setLoc s.curr l).VmSound := by
    refine ⟨hok.stale_congr fun p _ => ?_, hused⟩
    show (Function.update s.loc s.curr l p).Stale ↔ _
    by_cases hp : p = s.curr
    · simp [hp, hfree]
    · simp [hp]
  exact ⟨h', .of_keeps h h' hkeep hs.placed.curr_mem fun _ => Or.inr hl⟩

/-- `do_exit` gives up the address space. -/
theorem Exited.vmSound {errno : ℤ} {ws : List ν} {kids kids' : ν → List ν}
    (hexit : Exited s s' errno kids ws kids') (h : s.VmSound) (hs : s.Sound) :
    s'.VmSound ∧ Released s s' := by
  refine h.leaves hs ?_ ?_ (l := .calling .exit) ?_ (Or.inl rfl)
  · rw [hexit.eq]
  · rw [hexit.eq]
    rfl
  · rw [hexit.eq]

/-- `load_bin` fails, and `do_exit` finds no address space. -/
theorem Exited.vmSound_loading {m : VmMem μ ρ} {vm : VmTable ν μ ρ} {errno : ℤ} {ws : List ν}
    {kids kids' : ν → List ν} (hexit : Exited { s with vm } s' errno kids ws kids')
    (h : s.VmSound) (hs : s.Sound) (hl : s.loc s.curr = .loading) (hfresh : s.FreshVm m)
    (hload : s.vm.loadBin s.curr m = .ok (vm, false)) : s'.VmSound ∧ Released s s' := by
  obtain ⟨hok, hused, hkeep, hnone⟩ := h.loadBin hs hl hfresh hload
  have hvm : s'.vm = vm := by
    rw [hexit.eq]
    show vm.leaveVmm s.curr = vm
    simp [VmTable.leaveVmm, hnone rfl]
  have hused' : s'.used = s.used := by
    rw [hexit.eq]
    rfl
  have hloc : s'.loc = Function.update s.loc s.curr (.calling .exit) := by
    rw [hexit.eq]
    rfl
  have h' : s'.VmSound := by
    constructor
    · rw [hvm, hused']
      refine hok.stale_congr fun p _ => ?_
      rw [Set.mem_ofPred_eq, hloc]
      by_cases hp : p = s.curr
      · simp [hp, hl, Loc.Stale, Loc.At]
      · simp [hp]
    · rw [hvm, hused']
      exact hused
  exact ⟨h', .of_keeps h h' (hvm ▸ hkeep) hs.placed.curr_mem fun _ => Or.inr hl⟩

/-- **A step keeps the invariant**, and an address space is released when the last process leaves
it. -/
theorem Effect.vmSound (hs : s.Sound) (h : s.VmSound) (hen : s.Enabled op)
    (he : Effect s op out s') : s'.VmSound ∧ Released s s' := by
  have hcurr := hs.placed.curr_mem
  obtain ⟨hfin, hcard⟩ := hs.used_finite
  cases he with
  | go hruns hl haway hidle hprio =>
    exact h.moves hcurr rfl rfl rfl hruns.free.not_stale hl.not_stale
  | execve hcall => exact h.leaves hs rfl rfl rfl (Or.inr rfl)
  | load hl hload hl' => exact h.loaded hs hl hen.2.1 hload hl'
  | waitNone hround hnone =>
    exact h.returns hcurr rfl rfl rfl rfl rfl hround.not_stale
  | waitBlock hround hsome hall =>
    exact h.moves hcurr rfl rfl rfl hround.not_stale (by simp [Loc.Stale, Loc.At])
  | reap hround hwaits hreaped hfamily =>
    exact hreaped.vmSound h hs.placed hwaits.1 hround.not_stale
  | sleep hcall heq htimers =>
    subst heq
    exact h.moves hcurr rfl rfl rfl hcall.runs.free.not_stale (by simp [Loc.Stale, Loc.At])
  | sleepBack hl heq htimers =>
    subst heq
    exact h.returns hcurr rfl rfl rfl rfl rfl (by simp [hl, Loc.Stale, Loc.At])
  | down hl hidle hin hpcb hqueues =>
    exact h.moves hcurr rfl rfl rfl (by simp [hl, Loc.Stale, Loc.At]) (by simp [Loc.Stale, Loc.At])
  | downBack hl hqueues =>
    exact h.returns hcurr rfl rfl rfl rfl rfl (by simp [hl, Loc.Stale, Loc.At])
  | @up j p sem sched hl hidle hfirst hblocked hin hpcb hw hqueues =>
    exact h.returns hcurr hw.woken.curr rfl rfl rfl rfl (by simp [hl, Loc.Stale, Loc.At])
  | @kill pid p ws sched hcall hp hidle hpid hflag hws hw =>
    exact h.returns hcurr hw.woken.curr rfl rfl rfl rfl hcall.runs.free.not_stale
  | @tick ws timers sched s₁ s' hws hw hs₁ htimers heq =>
    have hc : s₁.curr = s.curr := by
      rw [hs₁]
      exact sched.schedulerProcTick_curr.trans hw.woken.curr
    have hsame : s₁.vm = s.vm ∧ s₁.used = s.used ∧ s₁.loc = s.loc ∧ s₁.isUser = s.isUser := by
      rw [hs₁]
      exact ⟨rfl, rfl, rfl, rfl⟩
    obtain ⟨hvm, hused, hloc, huser⟩ := hsame
    rw [heq]
    by_cases hl : s₁.loc s₁.curr = .user
    · rw [if_pos hl]
      rw [hc, hloc] at hl
      exact h.returns hcurr hc hvm hused hloc huser (by simp [hl, Loc.Stale, Loc.At])
    · rw [if_neg hl]
      exact h.same hcurr hvm hused fun p _ => by rw [hloc]
  | @schedule r k sched hr hsched =>
    refine h.same hcurr rfl rfl fun p _ => ?_
    show (Function.update s.loc s.curr _ p).Stale ↔ _
    by_cases hp : p = s.curr
    · rw [hp, Function.update_self, hr]
      simp [Loc.Stale, Loc.At]
    · rw [Function.update_of_ne hp]
  | exit hrun hloc hvm hfamily hchildless hexit hfamily' =>
    rcases hvm with ⟨rfl, -⟩ | ⟨m, ret, rfl, hl, hload⟩
    · exact hexit.vmSound h hs
    · exact hexit.vmSound_loading h hs hl hen.2.1 hload
  | @unfork cloneVm m ret proc s' hcall hproc hun hret =>
    obtain ⟨h', hkeep⟩ := hun.vmSound h hfin hcard hcurr hproc hen.2.2
    have hc : s'.curr = s.curr := hun.curr_eq
    have hbefore : ¬(s'.loc s'.curr).Stale := by
      rw [hc, hun.loc_eq]
      exact hcall.runs.free.not_stale
    have hmem : s'.curr ∈ s'.used := by
      rw [hc, hun.used_eq hproc]
      exact hcurr
    exact h.back_keeps hcurr h' hkeep hc hmem hbefore
  | @fork cloneVm m ret proc s' hcall hproc hforked hfamily =>
    obtain ⟨h', hkeep⟩ := hforked.vmSound h hfin hcard hcurr hproc hen.2.2
    have hc : s'.curr = s.curr := hforked.curr_eq
    have hne : s.curr ≠ proc := Kernel.ne_of_unused hproc hcurr
    have hbefore : ¬(s'.loc s'.curr).Stale := by
      rw [hc, hforked.eq]
      show ¬(Function.update s.loc proc .newborn s.curr).Stale
      rw [Function.update_of_ne hne]
      exact hcall.runs.free.not_stale
    have hmem : s'.curr ∈ s'.used := by
      rw [hc, hforked.used_eq]
      exact Or.inr hcurr
    exact h.back_keeps hcurr h' hkeep hc hmem hbefore

/-- After `init_proc` there are two processes, without address spaces. -/
theorem VmSound.initProcs {m : ForkMem ν μ ρ} {idle : ν} {k : ℕ} (hboot : Boot s)
    (hm : ∀ proc, m.pcb = some proc → proc ≠ idle) (he : Kernel.initProcs k m idle s = .ok s') :
    s'.VmSound := by
  have halone := initIdle_alone idle hboot
  obtain ⟨init, s₂, ret, rfl, hforked, -⟩ := initProcs_forked hboot hm he
  have hproc := initIdle_inUse hboot (hm init hforked.fresh)
  have hused : (initIdle idle s).used = {idle} := by
    ext p
    rw [halone.used]
    rfl
  have hvmms : ∀ v, (initIdle idle s).vm.vmms v = false := hboot.vmms
  have hnone : (initIdle idle s).vm.vmm idle = none := Function.update_self _ _ _
  have hgpt : (initIdle idle s).vm.pGpt idle = none := Function.update_self _ _ _
  have hfree : ¬((initIdle idle s).loc idle).Stale := by
    rw [show (initIdle idle s).loc idle = .kernel from hboot.loc idle]
    simp [Loc.Stale, Loc.At]
  have h : (initIdle idle s).VmSound := by
    refine ⟨⟨fun v hv => ?_, fun p hp v hv => ?_, fun v hv => ?_, fun v w hv => ?_,
      fun p hp _ => ?_, fun p hp hl => ?_⟩, fun v hv => ?_⟩
    · cases (hvmms v).symm.trans hv
    · rw [hused] at hp
      rw [Set.mem_singleton_iff.1 hp, hnone] at hv
      cases hv
    · cases (hvmms v).symm.trans hv
    · cases (hvmms v).symm.trans hv
    · rw [hused] at hp
      rw [Set.mem_singleton_iff.1 hp, hnone, hgpt]
      rfl
    · rw [hused] at hp
      rw [Set.mem_singleton_iff.1 hp]
      exact hnone
    · cases (hvmms v).symm.trans hv
  have hcard : (initIdle idle s).used.ncard + 1 < 2 ^ 32 := by
    rw [hused, Set.ncard_singleton]
    decide
  obtain ⟨h', -⟩ := hforked.vmSound h (hused ▸ Set.finite_singleton idle) hcard
    halone.placed.curr_mem hproc ⟨fun v _ => hvmms v, fun g _ => hboot.gpts g⟩
  exact ⟨h'.ok, h'.used⟩

/-- **The address spaces are in order in every state that a run reaches.** -/
theorem Reachable.vmSound (h : (kernelSystem κ ν μ ρ).Reachable s) : s.VmSound := by
  refine h.induct ?_ fun s l s' hr hs hl => ?_
  · rintro s ⟨s₀, k, m, idle, hboot, hm, he⟩
    exact VmSound.initProcs hboot hm he
  · obtain ⟨hen, k, he⟩ := hl
    have hsound := kernel_sound hr
    exact ((hsound.effect hen he).vmSound hsound hs hen).1

omit [DecidableEq μ] [DecidableEq ρ] in
/-- `schedule` does not switch to a process whose `p_gpt` may be stale. -/
theorem Sound.switched_not_stale (hs : s.Sound) {r : Ret κ} {sched : Sched κ ν} {k : ℕ}
    (hr : s.loc s.curr = .calling r) (hsched : s.sched.schedule k = .ok sched) :
    ¬(Function.update s.loc s.curr (.within r) sched.curr).Stale := by
  obtain ⟨t, t', -, -, hsw, hmem⟩ := hs.switched hsched
  have hexit : ¬(s.loc sched.curr).At .exit := by
    intro hl
    have hzombie := (hs.placed.allows sched.curr hmem).zombie_iff.2 hl
    rw [show (s.sched.pcb sched.curr).state = .runnable from hsw.runnable] at hzombie
    cases hzombie
  by_cases hc : sched.curr = s.curr
  · rw [hc, hr] at hexit
    rw [hc, Function.update_self]
    rintro (hl | hl)
    · rcases hl with hl | hl
      · cases hl
      · cases hl
        exact hexit (Or.inl rfl)
    · cases hl
  · rw [Function.update_of_ne hc]
    rintro (hl | hl)
    · exact hexit hl
    · have haway := hs.placed.away sched.curr hmem hc
      rw [hl] at haway
      exact haway

end Kernel

open Kernel

/-- **The address spaces of the processes.**  In every state that a run reaches, `use_count` of a
`vm_manager` is the number of the processes whose `vmm` points to it, there is such a process, and
no `vmm` points to a `vm_manager` that has been released; a step releases a `vm_manager`, and its
root table, exactly if the running process was the last one to use it and leaves it in `do_exit` or
`do_execve`; and the process that `schedule` switches to has the table `g_bpt`, or the live root
table of its own live `vm_manager`. -/
theorem vmm_shared {κ ν μ ρ : Type} [DecidableEq κ] [DecidableEq ν] [DecidableEq μ] [DecidableEq ρ]
    {s : Kernel κ ν μ ρ} (h : (kernelSystem κ ν μ ρ).Reachable s) :
    (∀ v, s.vm.vmms v = true →
      s.vm.useCount v = {p | s.inUse p = true ∧ s.vm.vmm p = some v}.ncard ∧
      ∃ g, s.vm.root v = some g ∧ s.vm.gpts g = true) ∧
    (∀ v, s.vm.vmms v = true ↔ ∃ p, s.inUse p = true ∧ s.vm.vmm p = some v) ∧
    (∀ l s', (kernelSystem κ ν μ ρ).step s l s' → ∀ v g, s.vm.vmms v = true →
      s.vm.root v = some g →
      (s'.vm.vmms v = false ↔ {p | s.inUse p = true ∧ s.vm.vmm p = some v} = {s.curr} ∧
        (s'.loc s.curr = .calling .exit ∨ s'.loc s.curr = .loading)) ∧
      s'.vm.gpts g = s'.vm.vmms v) ∧
    ∀ out s', (kernelSystem κ ν μ ρ).step s (.schedule, out) s' →
      s'.vm.pGpt s'.curr = none ∨ ∃ v g, s'.vm.vmm s'.curr = some v ∧ s'.vm.vmms v = true ∧
        s'.vm.root v = some g ∧ s'.vm.gpts g = true ∧ s'.vm.pGpt s'.curr = some g := by
  have hs := kernel_sound h
  have hvm := Reachable.vmSound h
  refine ⟨fun v hv => ⟨hvm.ok.count v hv, hvm.ok.root v hv⟩, fun v => ⟨fun hv => ?_, ?_⟩,
    fun l s' hl => ?_, fun out s' hl => ?_⟩
  · obtain ⟨p, hp, hpv⟩ := hvm.used v hv
    exact ⟨p, hp, hpv⟩
  · rintro ⟨p, hp, hpv⟩
    exact hvm.ok.live p hp v hpv
  · obtain ⟨hen, k, he⟩ := hl
    exact ((hs.effect hen he).vmSound hs hvm hen).2
  · have hvm' := Reachable.vmSound (h.step hl)
    obtain ⟨⟨r, hr⟩, k, he⟩ := hl
    simp only [exec, hr] at he
    obtain ⟨sched, hsched, he⟩ := bind_eq_ok.1 he
    cases he
    have hmem : sched.curr ∈ s.used := by
      obtain ⟨-, -, -, -, -, hmem⟩ := hs.switched hsched
      exact hmem
    have hgpt := hvm'.ok.pGpt sched.curr hmem (hs.switched_not_stale hr hsched)
    cases hv : s.vm.vmm sched.curr with
    | none => exact Or.inl (hgpt.trans (by rw [hv]; rfl))
    | some v =>
      have hlive : s.vm.vmms v = true := hvm'.ok.live sched.curr hmem v hv
      obtain ⟨g, hg, hgl⟩ := hvm'.ok.root v hlive
      refine Or.inr ⟨v, g, hv, hlive, hg, hgl, hgpt.trans ?_⟩
      rw [hv]
      exact hg

/-- A user process and a child that it has created with `CLONE_VM`. -/
theorem vmm_shared_two : ∃ s : Kernel ℕ ℕ ℕ ℕ, s.vm.useCount 2 = 2 ∧ s.vm.pGpt 3 = some 2 ∧
    {p | s.inUse p = true ∧ s.vm.vmm p = some 2}.ncard = 2 := by
  obtain ⟨s, hs, hv, hcount, hgpt⟩ := exists_replayed
    [.yieldKernel, .schedule, .start, .doFork true (forkMem 2), .doWait 0 none, .schedule, .start,
      .doExecve true, .loadBin ⟨some 2, some 2, true⟩ 1, .doFork true (forkMem 3)]
    (fun s => s.vm.vmms 2 = true ∧ s.vm.useCount 2 = 2 ∧ s.vm.pGpt 3 = some 2) (by decide +kernel)
  obtain ⟨hshared, -⟩ := vmm_shared hs
  exact ⟨s, hcount, hgpt, (hshared 2 hv).1.symm.trans hcount⟩

end GarretOS
