import GarretOS.Proc.Family
import GarretOS.Proc.Kernel
import GarretOS.Proc.RunPool

/-!
# Creating, ending and reaping processes

What `do_fork`, `do_exit` and `do_wait` do to a kernel whose processes form a family (`FamilyOk`):
`idle` is the root, `init` is its only child, and every other process descends from `init`.
-/

namespace GarretOS

open ProcTable Sched

namespace Kernel

variable {κ ν μ ρ : Type} [DecidableEq ν]
  {s s' : Kernel κ ν μ ρ} {ps : List ν} {kids : ν → List ν} {k : ℕ}

/-- The processes. -/
def used (s : Kernel κ ν μ ρ) : Set ν := {p | s.inUse p = true}

omit [DecidableEq ν] in
theorem not_mem_used {p : ν} (hp : s.inUse p = false) : p ∉ s.used := by
  rw [used, Set.mem_ofPred_eq, hp]
  simp

omit [DecidableEq ν] in
/-- A structure that is not allocated is none of the processes. -/
theorem ne_of_unused {p proc : ν} (hproc : s.inUse proc = false) (hp : p ∈ s.used) : p ≠ proc :=
  fun he => not_mem_used hproc (he ▸ hp)

/-- The processes form a family. -/
structure FamilyOk (s : Kernel κ ν μ ρ) (ps : List ν) (kids : ν → List ν) : Prop where
  table : s.table.TableOk s.used s.sched.idle ps (fun _ => none) kids
  init_mem : s.initProc ∈ s.used
  init_parent : s.table.parent s.initProc = some s.sched.idle
  only_init : ∀ c ∈ kids s.sched.idle, c = s.initProc

omit [DecidableEq ν] in
/-- The family depends only on the process set, and on which structures are processes. -/
theorem FamilyOk.congr (h : s.FamilyOk ps kids) (htable : s'.table = s.table)
    (hinUse : s'.inUse = s.inUse) (hidle : s'.sched.idle = s.sched.idle)
    (hinit : s'.initProc = s.initProc) : s'.FamilyOk ps kids := by
  have hused : s'.used = s.used := by
    unfold used
    rw [hinUse]
  refine ⟨?_, ?_, ?_, ?_⟩
  · rw [htable, hused, hidle]
    exact h.table
  · rw [hinit, hused]
    exact h.init_mem
  · rw [htable, hinit, hidle]
    exact h.init_parent
  · rw [hidle, hinit]
    exact h.only_init

/-! ### `do_exit` -/

theorem reparent_forest (s : Kernel κ ν μ ρ) (proc : ν) :
    (s.reparent proc).forest = s.table.forest.handOver proc s.curr s.initProc := by
  simp only [reparent, setYoungerOf_eq]
  refine Forest.ext ?_ ?_ ?_ ?_
  · funext x
    show Function.update s.table.parent proc (some s.initProc) x =
      if x = proc then some s.initProc else Function.update s.table.parent proc none x
    by_cases hx : x = proc
    · rw [if_pos hx, hx, Function.update_self]
    · rw [if_neg hx, Function.update_of_ne hx, Function.update_of_ne hx]
  · funext x
    exact Function.update_apply _ _ _ _
  · funext x
    show (if Function.update s.table.child s.curr (s.table.older proc) s.initProc = some x then
      some proc else Function.update s.table.younger proc none x) = _
    rw [Function.update_apply s.table.younger]
    rfl
  · funext x
    exact Function.update_apply _ _ _ _

theorem reparent_same (s : Kernel κ ν μ ρ) (proc : ν) :
    (s.reparent proc).procList = s.table.procList ∧ (s.reparent proc).pid = s.table.pid ∧
      (s.reparent proc).numProc = s.table.numProc ∧ (s.reparent proc).prevPid = s.table.prevPid ∧
      (s.reparent proc).nextPid = s.table.nextPid := by
  simp only [reparent, setYoungerOf_eq]
  exact ⟨rfl, rfl, rfl, rfl, rfl⟩

/-- `init` cannot hand its children over to itself. -/
theorem reparentLoop_init (hinit : s.initProc = s.curr) (hchild : s.table.child s.curr ≠ none) :
    reparentLoop k s ≠ .ok s' := by
  induction k generalizing s with
  | zero => simp [reparentLoop]
  | succ k ih =>
    intro he
    rw [reparentLoop] at he
    cases hc : s.table.child s.curr with
    | none => exact hchild hc
    | some proc =>
      simp only [hc] at he
      obtain ⟨s₁, hs₁, he⟩ := bind_eq_ok.1 he
      have hnext : s₁.initProc = s₁.curr ∧ s₁.table.child s₁.curr ≠ none := by
        split_ifs at hs₁
        · obtain ⟨S, hS, hs₁⟩ := bind_eq_ok.1 hs₁
          cases hs₁
          have hcurr : S.curr = s.sched.curr := (wakeupProc_woken hS).curr
          refine ⟨hinit.trans hcurr.symm, ?_⟩
          show (s.reparent proc).child S.curr ≠ none
          rw [hcurr]
          show (s.reparent proc).child s.curr ≠ none
          rw [← hinit]
          simp [reparent, setChild]
        · cases hs₁
          refine ⟨hinit, ?_⟩
          show (s.reparent proc).child s.curr ≠ none
          rw [← hinit]
          simp [reparent, setChild]
      exact ih hnext.1 hnext.2 he

/-- What the loop of `do_exit` leaves behind: the children of `curr` have become children of `init`,
and `init` has been woken if one of them is a zombie and `init` waits for its children. -/
structure HandedOver (s s' : Kernel κ ν μ ρ) (curr idle : ν) (ps : List ν) (kids : ν → List ν)
    (ws : List ν) (kids' : ν → List ν) : Prop where
  eq : s' = { s with sched := s'.sched, table := s'.table }
  wakes : Wakes ws s.sched s'.sched
  woken : ∀ w ∈ ws, w = s.initProc ∧ (s.sched.pcb s.initProc).waitState = waitChild
  handed : ws ≠ [] → ∃ c ∈ kids curr, (s.sched.pcb c).state = .zombie
  zombie : (∃ c ∈ kids curr, (s.sched.pcb c).state = .zombie) →
    (s.sched.pcb s.initProc).waitState = waitChild → s.initProc ∈ ws
  table : s'.table.TableOk s.used idle ps (fun _ => none) kids'
  nil : kids' curr = []
  kids : ∀ p, p ≠ curr → p ≠ s.initProc → kids' p = kids p
  parent : ∀ x ∈ s.used, s'.table.parent x =
    if s.table.parent x = some curr then some s.initProc else s.table.parent x
  pid : s'.table.pid = s.table.pid

/-- **The loop of `do_exit`** hands the children of the running process over to `init`. -/
theorem reparentLoop_ok {young : ν → Option ν} {curr : ν} (idle : ν) (hscurr : s.curr = curr)
    (h : s.table.TableOk s.used idle ps young kids) (hcurr : curr ∈ s.used) (hidle : curr ≠ idle)
    (hinit : s.initProc ∈ s.used) (hroot : s.table.parent s.initProc = some idle)
    (hyoung : ∀ p, p ≠ curr → young p = none) (he : reparentLoop k s = .ok s') :
    ∃ ws kids', HandedOver s s' curr idle ps kids ws kids' := by
  induction k generalizing s kids young with
  | zero => cases he
  | succ k ih =>
    have hloop := he
    rw [reparentLoop] at he
    cases hc : s.table.child s.curr with
    | none =>
      simp only [hc] at he
      cases he
      have hnil : kids curr = [] := (h.kin.child_eq_none hcurr).1 (hscurr ▸ hc)
      refine ⟨[], kids, rfl, .nil, by simp, by simp, fun ⟨c, hc, _⟩ => ?_, ?_, hnil,
        fun _ _ _ => rfl, fun x hx => ?_, rfl⟩
      · rw [hnil] at hc
        cases hc
      · refine ⟨h.lists, h.mem, h.idle_mem, h.num, h.room, h.pids, h.pid_pos, h.pid_inj,
          h.kin.of_young fun p hp => ?_, h.root, h.descends⟩
        refine (hyoung p ?_).symm
        rintro rfl
        exact hp hnil
      · rw [if_neg]
        intro hx'
        have := (h.kin.mem curr x).2 ⟨hx, hx'⟩
        rw [hnil] at this
        cases this
    | some proc =>
      have hic : s.initProc ≠ curr := by
        rintro hi
        refine reparentLoop_init (hi.trans hscurr.symm) ?_ hloop
        rw [hc]
        simp
      simp only [hc] at he
      obtain ⟨s₂, hs₂, he⟩ := bind_eq_ok.1 he
      obtain ⟨cs, hk⟩ : ∃ cs, kids curr = proc :: cs := by
        have := h.kin.child curr hcurr
        rw [show s.table.forest.child curr = some proc from hscurr ▸ hc] at this
        exact List.head?_eq_some_iff.1 this.symm
      obtain ⟨hprocU, hproc⟩ := (h.kin.mem curr proc).1 (by simp [hk])
      have hpi : proc ≠ s.initProc := by
        rintro rfl
        rw [show s.table.forest.parent s.initProc = some idle from hroot] at hproc
        exact hidle (Option.some.inj hproc).symm
      obtain ⟨hsame1, hsame2, hsame3, hsame4, hsame5⟩ := reparent_same s proc
      have hforest : (s.reparent proc).forest = s.table.forest.handOver proc curr s.initProc :=
        hscurr ▸ reparent_forest s proc
      obtain ⟨h₁, hpar₁⟩ := h.handOver hk hinit hic hpi hroot hforest hsame1 hsame2 hsame3 hsame4
        hsame5
      -- the call of `wakeup_proc`
      obtain ⟨ws₁, hs₂', hwakes, hws₁, hzombie₁, hnone⟩ : ∃ ws₁,
          s₂ = { s with sched := s₂.sched, table := s.reparent proc } ∧
          Wakes ws₁ s.sched s₂.sched ∧
          (∀ w ∈ ws₁, w = s.initProc ∧ (s.sched.pcb s.initProc).waitState = waitChild) ∧
          (ws₁ ≠ [] → (s.sched.pcb proc).state = .zombie) ∧
          (s.initProc ∈ ws₁ ∨ s₂.sched = s.sched ∧ ¬((s.sched.pcb proc).state = .zombie ∧
            (s.sched.pcb s.initProc).waitState = waitChild)) := by
        split_ifs at hs₂ with hcond
        · obtain ⟨S, hS, hs₂⟩ := bind_eq_ok.1 hs₂
          cases hs₂
          exact ⟨[s.initProc], rfl, .single hS, by simpa using hcond.2, fun _ => hcond.1,
            Or.inl (by simp)⟩
        · cases hs₂
          exact ⟨[], rfl, .nil, by simp, fun hn => absurd rfl hn, Or.inr ⟨rfl, hcond⟩⟩
      have hinit₂ : s₂.initProc = s.initProc := by rw [hs₂']
      have htable₂ : s₂.table = s.reparent proc := by rw [hs₂']
      have hused₂ : s₂.used = s.used := by rw [hs₂']; rfl
      have hparInit : s₂.table.parent s₂.initProc = some idle := by
        rw [htable₂, hinit₂, hpar₁, if_neg hpi.symm]
        exact hroot
      have hyoung₂ : ∀ p, p ≠ curr →
          Function.update (Function.update young curr (some proc)) s.initProc none p = none := by
        intro p hp
        by_cases hpi' : p = s.initProc
        · rw [hpi', Function.update_self]
        · rw [Function.update_of_ne hpi', Function.update_of_ne hp]
          exact hyoung p hp
      obtain ⟨ws₂, kids', hrest⟩ := ih (s := s₂) (by rw [← hscurr]; exact hwakes.woken.curr)
        (by rw [htable₂, hused₂]; exact h₁) (hused₂ ▸ hcurr) (by rw [hused₂, hinit₂]; exact hinit)
        hparInit hyoung₂ he
      have hcs : Function.update (Function.update kids curr cs) s.initProc
          (proc :: kids s.initProc) curr = cs := by
        rw [Function.update_of_ne hic.symm, Function.update_self]
      refine ⟨ws₁ ++ ws₂, kids', ?_, hwakes.trans hrest.wakes, fun w hw => ?_, fun hne => ?_,
        fun ⟨c, hc, hz⟩ hwait => ?_, ?_, hrest.nil, fun p hp hpi' => ?_, fun x hx => ?_, ?_⟩
      · rw [hrest.eq, hs₂']
      · rcases List.mem_append.1 hw with hw | hw
        · exact hws₁ w hw
        · obtain ⟨hw1, hw2⟩ := hrest.woken w hw
          rw [hinit₂] at hw1 hw2
          rcases hnone with hmem | ⟨hsame, -⟩
          · exact ⟨hw1, (hws₁ _ hmem).2⟩
          · exact ⟨hw1, hsame ▸ hw2⟩
      · by_cases hws : ws₁ = []
        · obtain ⟨c, hc, hz⟩ := hrest.handed fun hn => hne (by rw [hws, hn]; rfl)
          refine ⟨c, by rw [hk]; exact List.mem_cons_of_mem _ (hcs ▸ hc), ?_⟩
          rcases hnone with hmem | ⟨hsame, -⟩
          · rw [hws] at hmem
            cases hmem
          · rw [← hsame]
            exact hz
        · exact ⟨proc, by rw [hk]; exact List.mem_cons_self, hzombie₁ hws⟩
      · rw [List.mem_append]
        rcases hnone with hmem | ⟨hsame, hn⟩
        · exact Or.inl hmem
        · rw [hk] at hc
          rcases List.mem_cons.1 hc with rfl | hc
          · exact absurd ⟨hz, hwait⟩ hn
          · have := hrest.zombie ⟨c, hcs.symm ▸ hc, hsame.symm ▸ hz⟩
              (by rw [hinit₂, hsame]; exact hwait)
            exact Or.inr (hinit₂ ▸ this)
      · rw [← hused₂]
        exact hrest.table
      · rw [hrest.kids p hp (hinit₂ ▸ hpi'), Function.update_of_ne hpi', Function.update_of_ne hp]
      · rw [hrest.parent x (hused₂ ▸ hx), htable₂, hpar₁, hinit₂]
        by_cases hx' : x = proc
        · rw [if_pos hx', if_neg fun he => hic (Option.some.inj he), hx',
            if_pos (show s.table.parent proc = some curr from hproc)]
        · rw [if_neg hx']
      · rw [hrest.pid, htable₂, hsame2]

omit [DecidableEq ν] in
/-- `init` is not `idle`. -/
theorem FamilyOk.init_ne (h : s.FamilyOk ps kids) : s.initProc ≠ s.sched.idle := by
  intro he
  have := h.init_parent
  rw [he, h.table.root] at this
  cases this

/-- What `do_exit` leaves behind: the running process is a zombie without children, and the
processes `ws` that were waiting for a child have been woken. -/
structure Exited [DecidableEq μ] [DecidableEq ρ] (s s' : Kernel κ ν μ ρ) (errno : ℤ)
    (kids : ν → List ν) (ws : List ν) (kids' : ν → List ν) : Prop where
  eq : s' = { s with
    sched := s'.sched
    table := s'.table
    vm := s.vm.leaveVmm s.curr
    exitCode := Function.update s.exitCode s.curr errno
    loc := Function.update s.loc s.curr (.calling .exit) }
  ne_idle : s.curr ≠ s.sched.idle
  wakes : Wakes ws (s.sched.setPcb s.curr ⟨.zombie, (s.sched.pcb s.curr).waitState⟩) s'.sched
  woken : ∀ w ∈ ws, w ∈ s.used ∧ w ≠ s.sched.idle ∧ (s.sched.pcb w).waitState = waitChild
  woken_by : ∀ w ∈ ws, s.table.parent s.curr = some w ∨
    w = s.initProc ∧ ∃ c ∈ kids s.curr, (s.sched.pcb c).state = .zombie
  parent_woken : ∀ p, s.table.parent s.curr = some p → (s.sched.pcb p).waitState = waitChild →
    p ∈ ws
  init_woken : (∃ c ∈ kids s.curr, (s.sched.pcb c).state = .zombie) →
    (s.sched.pcb s.initProc).waitState = waitChild → s.initProc ∈ ws
  nil : kids' s.curr = []
  kids : ∀ p, p ≠ s.curr → p ≠ s.initProc → kids' p = kids p
  parent : ∀ x ∈ s.used, s'.table.parent x =
    if s.table.parent x = some s.curr then some s.initProc else s.table.parent x
  pid : s'.table.pid = s.table.pid

/-- **`do_exit`** -/
theorem FamilyOk.doExit [DecidableEq μ] [DecidableEq ρ] (h : s.FamilyOk ps kids) {errno : ℤ}
    (hcurr : s.curr ∈ s.used)
    (hwait : (s.sched.pcb s.sched.idle).waitState ≠ waitChild) (he : s.doExit k errno = .ok s') :
    ∃ ws kids', Exited s s' errno kids ws kids' ∧ s'.FamilyOk ps kids' := by
  unfold Kernel.doExit at he
  split_ifs at he with hidle
  · cases he
  obtain ⟨parent, hparent, he⟩ := bind_eq_ok.1 he
  obtain ⟨s₂, hs₂, he⟩ := bind_eq_ok.1 he
  obtain ⟨s₃, hs₃, he⟩ := bind_eq_ok.1 he
  cases he
  have hpar : s.table.parent s.curr = some parent := deref_eq_ok.1 hparent
  have hstate : ∀ p, ((s.sched.setPcb s.curr ⟨.zombie, (s.sched.pcb s.curr).waitState⟩).pcb
      p).waitState = (s.sched.pcb p).waitState := by
    intro p
    by_cases hp : p = s.curr
    · simp [setPcb, pcb, hp]
    · simp [setPcb, pcb, hp]
  -- the call of `wakeup_proc` for the parent
  obtain ⟨ws₁, hs₂', hwakes, hws₁, hmem₁⟩ : ∃ ws₁,
      s₂ = { s with
        sched := s₂.sched
        vm := s.vm.leaveVmm s.curr
        exitCode := Function.update s.exitCode s.curr errno } ∧
      Wakes ws₁ (s.sched.setPcb s.curr ⟨.zombie, (s.sched.pcb s.curr).waitState⟩) s₂.sched ∧
      (∀ w ∈ ws₁, w = parent ∧ (s.sched.pcb w).waitState = waitChild) ∧
      ((s.sched.pcb parent).waitState = waitChild → parent ∈ ws₁) := by
    split_ifs at hs₂ with hcond
    · obtain ⟨S, hS, hs₂⟩ := bind_eq_ok.1 hs₂
      cases hs₂
      have hcond' := (hstate parent).symm.trans hcond
      exact ⟨[parent], rfl, .single hS, by simpa using hcond', by simp⟩
    · cases hs₂
      exact ⟨[], rfl, .nil, by simp, fun h => absurd ((hstate parent).trans h) hcond⟩
  have hwoken := hwakes.woken
  obtain ⟨htable₂, hinit₂, hused₂⟩ :
      s₂.table = s.table ∧ s₂.initProc = s.initProc ∧ s₂.used = s.used := by
    rw [hs₂']
    exact ⟨rfl, rfl, rfl⟩
  have hcurr₂ : s₂.curr = s.curr := hwoken.curr
  obtain ⟨ws₂, kids', hloop⟩ := reparentLoop_ok s.sched.idle hcurr₂
    (by rw [htable₂, hused₂]; exact h.table) (hused₂ ▸ hcurr) hidle
    (by rw [hused₂, hinit₂]; exact h.init_mem) (by rw [htable₂, hinit₂]; exact h.init_parent)
    (fun _ _ => rfl) hs₃
  have hwait₂ : ∀ p, p ∉ ws₁ → (s₂.sched.pcb p).waitState = (s.sched.pcb p).waitState := by
    intro p hp
    rw [← hstate p, ← hwoken.pcb_of_notMem hp]
  have hparentU : parent ∈ s.used := h.table.kin.parent s.curr hcurr parent hpar
  have hinit : s.initProc ∈ ws₁ ∨
      (s₂.sched.pcb s.initProc).waitState = (s.sched.pcb s.initProc).waitState := by
    by_cases hi : s.initProc ∈ ws₁
    · exact Or.inl hi
    · exact Or.inr (hwait₂ _ hi)
  have hparent' : ∀ x ∈ s.used, s₃.table.parent x =
      if s.table.parent x = some s.curr then some s.initProc else s.table.parent x := by
    intro x hx
    rw [hloop.parent x (hused₂.symm ▸ hx), htable₂, hinit₂]
  refine ⟨ws₁ ++ ws₂, kids', ⟨?_, hidle, hwakes.trans hloop.wakes, fun w hw => ?_, fun w hw => ?_,
    fun p hp hpw => ?_, fun hc hw => ?_, hloop.nil,
    fun p hp hpi => hloop.kids p hp (hinit₂.symm ▸ hpi), hparent', ?_⟩, ?_⟩
  · show s₃.setLoc s₃.curr _ = _
    have hcurr₃ : s₃.curr = s.curr := hloop.wakes.woken.curr.trans hcurr₂
    have heq := hloop.eq
    rw [hs₂'] at heq
    rw [hcurr₃, heq]
    rfl
  · rcases List.mem_append.1 hw with hw | hw
    · obtain ⟨rfl, hww⟩ := hws₁ w hw
      exact ⟨hparentU, fun he => hwait (he ▸ hww), hww⟩
    · obtain ⟨hwi, hww⟩ := hloop.woken w hw
      rw [hinit₂] at hwi hww
      subst hwi
      refine ⟨h.init_mem, h.init_ne, ?_⟩
      rcases hinit with hi | hi
      · exact (hws₁ _ hi).2
      · rw [← hi]
        exact hww
  · rcases List.mem_append.1 hw with hw | hw
    · obtain ⟨rfl, -⟩ := hws₁ w hw
      exact Or.inl hpar
    · obtain ⟨hwi, -⟩ := hloop.woken w hw
      obtain ⟨c, hc, hz⟩ := hloop.handed (List.ne_nil_of_mem hw)
      refine Or.inr ⟨hwi.trans hinit₂, c, hc, ?_⟩
      -- a child that has been woken is not a zombie, and the running process is not its own child
      obtain ⟨hc₁, hz⟩ := hwoken.zombie hz
      have hcc : c ≠ s.curr := by
        rintro rfl
        exact (h.table.descends _ hcurr).parent_ne h.table.root ((h.table.kin.mem _ _).1 hc).2
      simpa only [pcb, setPcb, Function.update_of_ne hcc] using hz
  · obtain rfl : parent = p := Option.some.inj (hpar.symm.trans hp)
    exact List.mem_append_left _ (hmem₁ hpw)
  · rw [List.mem_append]
    obtain ⟨c, hc, hz⟩ := hc
    rcases hinit with hi | hi
    · exact Or.inl hi
    · refine Or.inr (hinit₂ ▸ hloop.zombie ⟨c, hc, ?_⟩ ?_)
      · have hcS : ((s.sched.setPcb s.curr ⟨.zombie, (s.sched.pcb s.curr).waitState⟩).pcb
            c).state = .zombie := by
          by_cases hcc : c = s.curr
          · simp [setPcb, pcb, hcc]
          · simpa [setPcb, pcb, hcc] using hz
        have hc₁ : c ∉ ws₁ := fun hm => hwoken.alive c hm hcS
        exact (congrArg RunState.state (hwoken.pcb_of_notMem hc₁)).trans hcS
      · rw [hinit₂, hi]
        exact hw
  · rw [← htable₂]
    exact hloop.pid
  · have hidle₃ : s₃.sched.idle = s.sched.idle := by
      rw [hloop.wakes.woken.idle]
      exact hwoken.idle
    have hused₃ : s₃.used = s.used := by
      rw [hloop.eq]
      exact hused₂
    have hinit₃ : s₃.initProc = s.initProc := by
      rw [hloop.eq]
      exact hinit₂
    refine ⟨?_, ?_, ?_, fun c hc => ?_⟩
    · show s₃.table.TableOk s₃.used s₃.sched.idle ps _ kids'
      rw [hused₃, hidle₃, ← hused₂]
      exact hloop.table
    · show s₃.initProc ∈ s₃.used
      rw [hinit₃, hused₃]
      exact h.init_mem
    · show s₃.table.parent s₃.initProc = some s₃.sched.idle
      rw [hinit₃, hidle₃, hparent' _ h.init_mem, h.init_parent, if_neg]
      exact fun he => hidle (Option.some.inj he).symm
    · show c = s₃.initProc
      have hc' : c ∈ kids' s₃.sched.idle := hc
      rw [hidle₃, hloop.kids _ (fun he => hidle he.symm)
        (fun he => h.init_ne (hinit₂ ▸ he.symm))] at hc'
      rw [hinit₃]
      exact h.only_init c hc'

/-! ### `do_wait` -/

/-- The process `c` is a child of `p` that `p` waits for with the argument `pid`. -/
def WaitsFor (s : Kernel κ ν μ ρ) (p : ν) (pid : ℤ) (c : ν) : Prop :=
  c ∈ s.used ∧ s.table.parent c = some p ∧ (pid = 0 ∨ s.table.pid c = pid)

/-- The process is a zombie. -/
def Zombie (s : Kernel κ ν μ ρ) (p : ν) : Prop := (s.sched.pcb p).state = .zombie

omit [DecidableEq ν] in
/-- The loop of `do_wait` over the children. -/
theorem childLoop_ok {y : Option ν} {cs : List ν} (h : s.table.forest.Siblings y cs)
    {hasChild hasChild' : Bool} {o : Option ν}
    (he : s.childLoop k cs.head? hasChild = .ok (hasChild', o)) :
    (∀ z, o = some z → z ∈ cs ∧ s.Zombie z) ∧
      (o = none → (hasChild' = true ↔ hasChild = true ∨ cs ≠ []) ∧ ∀ c ∈ cs, ¬ s.Zombie c) := by
  induction k generalizing y cs hasChild with
  | zero => cases he
  | succ k ih =>
    cases cs with
    | nil =>
      cases he
      exact ⟨nofun, fun _ => ⟨by simp, by simp⟩⟩
    | cons c cs =>
      rw [List.head?_cons, childLoop] at he
      obtain ⟨-, ho, hcs⟩ := h
      split_ifs at he with hz
      · cases he
        refine ⟨fun z hz' => ?_, nofun⟩
        obtain rfl := Option.some.inj hz'
        exact ⟨List.mem_cons_self, hz⟩
      · rw [show s.table.older c = cs.head? from ho] at he
        obtain ⟨h1, h2⟩ := ih hcs he
        refine ⟨fun z hz => ⟨List.mem_cons_of_mem c (h1 z hz).1, (h1 z hz).2⟩, fun hn => ?_⟩
        obtain ⟨h3, h4⟩ := h2 hn
        refine ⟨by simp [h3], fun x hx => ?_⟩
        rcases List.mem_cons.1 hx with rfl | hx
        · exact hz
        · exact h4 x hx

/-- The first part of a round of `do_wait`. -/
theorem FamilyOk.findZombie (h : s.FamilyOk ps kids) (hcurr : s.curr ∈ s.used) {pid : ℤ}
    {hasChild : Bool} {o : Option ν} (he : s.findZombie k pid = .ok (hasChild, o)) :
    (∀ z, o = some z → s.WaitsFor s.curr pid z ∧ s.Zombie z) ∧
      (o = none → (hasChild = true ↔ ∃ c, s.WaitsFor s.curr pid c) ∧
        ∀ c, s.WaitsFor s.curr pid c → ¬ s.Zombie c) := by
  unfold Kernel.findZombie at he
  split_ifs at he with hpid
  · obtain ⟨q, hq, he⟩ := bind_eq_ok.1 he
    obtain ⟨h1, h2⟩ := h.table.getProc hq
    -- a child is in the process list
    have hps : ∀ c, s.WaitsFor s.curr pid c → c ∈ ps := by
      rintro c ⟨hcU, hc, -⟩
      refine (h.table.mem c).2 ⟨hcU, ?_⟩
      rintro rfl
      rw [h.table.root] at hc
      cases hc
    cases q with
    | none =>
      cases he
      have hno : ∀ c, ¬ s.WaitsFor s.curr pid c := fun c hc =>
        h2 rfl c (hps c hc) (hc.2.2.resolve_left hpid)
      exact ⟨nofun, fun _ => ⟨by simpa using hno, fun c hc => absurd hc (hno c)⟩⟩
    | some proc =>
      obtain ⟨hproc, hprocPid⟩ := h1 proc rfl
      have huniq : ∀ c, s.WaitsFor s.curr pid c → c = proc := fun c hc =>
        h.table.pid_inj c (hps c hc) proc hproc ((hc.2.2.resolve_left hpid).trans hprocPid.symm)
      by_cases hparent : s.table.parent proc = some s.curr
      · simp only [if_pos hparent] at he
        have hwaits : s.WaitsFor s.curr pid proc :=
          ⟨((h.table.mem proc).1 hproc).1, hparent, Or.inr hprocPid⟩
        obtain ⟨rfl, rfl⟩ := Prod.mk.inj (Except.ok.inj he)
        refine ⟨fun z hz => ?_, fun hn => ⟨by simpa using ⟨proc, hwaits⟩, fun c hc hz => ?_⟩⟩
        · split_ifs at hz with hzombie
          obtain rfl := Option.some.inj hz
          exact ⟨hwaits, hzombie⟩
        · rw [huniq c hc] at hz
          rw [if_pos (show (s.sched.pcb proc).state = .zombie from hz)] at hn
          cases hn
      · simp only [if_neg hparent] at he
        cases he
        have hno : ∀ c, ¬ s.WaitsFor s.curr pid c := fun c hc => hparent (huniq c hc ▸ hc.2.1)
        exact ⟨nofun, fun _ => ⟨by simpa using hno, fun c hc => absurd hc (hno c)⟩⟩
  · rw [show s.table.child s.curr = (kids s.curr).head? from h.table.kin.child s.curr hcurr] at he
    obtain ⟨h1, h2⟩ := childLoop_ok (h.table.kin.siblings s.curr hcurr) he
    have hkids : ∀ c, s.WaitsFor s.curr pid c ↔ c ∈ kids s.curr := by
      intro c
      rw [h.table.kin.mem]
      exact ⟨fun hc => ⟨hc.1, hc.2.1⟩, fun hc => ⟨hc.1, hc.2, Or.inl (not_not.1 hpid)⟩⟩
    refine ⟨fun z hz => ⟨(hkids z).2 (h1 z hz).1, (h1 z hz).2⟩, fun hn => ?_⟩
    obtain ⟨h3, h4⟩ := h2 hn
    refine ⟨?_, fun c hc => h4 c ((hkids c).1 hc)⟩
    rw [h3]
    simp only [hkids, Bool.false_eq_true, false_or]
    cases kids s.curr with
    | nil => simp
    | cons c cs => simp

/-- What is left of a zombie `z` that the running process has reaped. -/
structure Reaped (s s' : Kernel κ ν μ ρ) (z : ν) (store : Bool) : Prop where
  eq : s' = ({ s with
    table := s'.table
    waitStatus :=
      if store then Function.update s.waitStatus s.curr (s.exitCode z) else s.waitStatus
    inUse := Function.update s.inUse z false } : Kernel κ ν μ ρ).back
  zombie : s.Zombie z
  ne_init : z ≠ s.initProc
  ne_idle : z ≠ s.sched.idle
  parent : s'.table.parent = s.table.parent
  pid : s'.table.pid = s.table.pid

theorem Reaped.mem_used {z : ν} {store : Bool} (h : Reaped s s' z store) {p : ν} :
    p ∈ s'.used ↔ p ∈ s.used ∧ p ≠ z := by
  rw [h.eq]
  by_cases hp : p = z
  · simp [used, Kernel.back, setLoc, hp]
  · simp [used, Kernel.back, setLoc, hp]

/-- **The end of `do_wait`** takes the zombie out of the family. -/
theorem FamilyOk.reap (h : s.FamilyOk ps kids) {z : ν} {store : Bool} (hzU : z ∈ s.used)
    (hz : s.Zombie z) (hparent : s.table.parent z = some s.curr)
    (hnil : z ≠ s.initProc → kids z = []) (he : s.reap z store = .ok s') :
    Reaped s s'.back z store ∧
      s'.FamilyOk (ps.erase z) (Function.update kids s.curr ((kids s.curr).erase z)) := by
  unfold Kernel.reap at he
  by_cases hbad : z = s.sched.idle ∨ z = s.initProc
  · rw [if_pos hbad] at he
    cases he
  rw [if_neg hbad] at he
  obtain ⟨hzi, hzinit⟩ := not_or.1 hbad
  have hzps : z ∈ ps := (h.table.mem z).2 ⟨hzU, hzi⟩
  obtain ⟨table, hlinks, hs'⟩ : ∃ table, s.table.removeLinks z = .ok table ∧ s' = { s with
      table
      waitStatus :=
        if store then Function.update s.waitStatus s.curr (s.exitCode z) else s.waitStatus
      inUse := Function.update s.inUse z false } := by
    cases store with
    | true =>
      obtain ⟨table, hlinks, he⟩ := bind_eq_ok.1 he
      cases he
      exact ⟨table, hlinks, rfl⟩
    | false =>
      obtain ⟨table, hlinks, he⟩ := bind_eq_ok.1 he
      cases he
      exact ⟨table, hlinks, rfl⟩
  obtain ⟨htable, hpar, hpid⟩ := h.table.removeLinks hzps hparent (hnil hzinit) hlinks
  have hused : s'.used = s.used \ {z} := by
    rw [hs']
    ext p
    by_cases hp : p = z
    · simp [used, hp]
    · simp [used, hp]
  rw [← hused] at htable
  subst hs'
  refine ⟨⟨rfl, hz, hzinit, hzi, hpar, hpid⟩, htable, ?_, ?_, fun c hc => ?_⟩
  · rw [hused]
    exact ⟨h.init_mem, fun hi => hzinit hi.symm⟩
  · exact (congrFun hpar s.initProc).trans h.init_parent
  · refine h.only_init c ?_
    have hc' : c ∈ Function.update kids s.curr ((kids s.curr).erase z) s.sched.idle := hc
    by_cases hidle : s.sched.idle = s.curr
    · rw [hidle, Function.update_self] at hc'
      rw [hidle]
      exact List.mem_of_mem_erase hc'
    · rwa [Function.update_of_ne hidle] at hc'

/-- **A round of `do_wait`** reaps a zombie, blocks the running process, or fails. -/
theorem FamilyOk.waitRound (h : s.FamilyOk ps kids) (hcurr : s.curr ∈ s.used)
    (hchildless : ∀ z ∈ s.used, s.Zombie z → z ≠ s.initProc → kids z = []) {pid : ℤ} {store : Bool}
    {out : Outcome ν} (he : s.waitRound k pid store = .ok (s', out)) :
    (∃ z, out = .returned 0 (some z) ∧ s.WaitsFor s.curr pid z ∧ Reaped s s' z store ∧
      s'.FamilyOk (ps.erase z) (Function.update kids s.curr ((kids s.curr).erase z))) ∨
    (out = .none ∧ (∃ c, s.WaitsFor s.curr pid c) ∧
      (∀ c, s.WaitsFor s.curr pid c → ¬ s.Zombie c) ∧
      s' = ({ s with sched := s.sched.setPcb s.curr ⟨.sleeping, waitChild⟩ } :
        Kernel κ ν μ ρ).setLoc s.curr (.calling (.wait pid store))) ∨
    (out = .returned (-eBadProc) none ∧ (∀ c, ¬ s.WaitsFor s.curr pid c) ∧ s' = s.back) := by
  obtain ⟨⟨hasChild, o⟩, hfind, he⟩ := bind_eq_ok.1 he
  obtain ⟨hsome, hnone⟩ := h.findZombie hcurr hfind
  cases o with
  | none =>
    obtain ⟨h1, h2⟩ := hnone rfl
    cases hasChild with
    | true =>
      cases he
      exact Or.inr (Or.inl ⟨rfl, h1.1 rfl, h2, rfl⟩)
    | false =>
      cases he
      exact Or.inr (Or.inr ⟨rfl, fun c hc => by simpa using h1.2 ⟨c, hc⟩, rfl⟩)
  | some z =>
    obtain ⟨hwaits, hz⟩ := hsome z rfl
    simp only at he
    obtain ⟨s₁, hreap, he⟩ := bind_eq_ok.1 he
    cases he
    obtain ⟨hreaped, hfamily⟩ := h.reap hwaits.1 hz hwaits.2.1 (hchildless z hwaits.1 hz) hreap
    exact Or.inl ⟨z, rfl, hwaits, hreaped, hfamily.congr rfl rfl rfl rfl⟩

/-! ### `do_fork` -/

variable [DecidableEq μ] [DecidableEq ρ]

/-- What is left of a structure `proc` that has been freed again: nothing about any process. -/
structure Unforked (s s' : Kernel κ ν μ ρ) (proc : ν) (cloneVm : Bool) (m : ForkMem ν μ ρ) :
    Prop where
  eq : s' = ({ s.allocProc proc with
    table := (s.table.allocProc proc).setParent proc (some s.curr)
    vm := s'.vm } : Kernel κ ν μ ρ).freeProc proc
  fresh : m.pcb = some proc
  vm : s'.vm = s.vm.allocProc proc ∨
    (s.vm.allocProc proc).copyVmm s.curr proc cloneVm m.vm = (s'.vm, false)

namespace Unforked

variable {proc : ν} {cloneVm : Bool} {m : ForkMem ν μ ρ}

theorem inUse_eq (h : Unforked s s' proc cloneVm m) (hproc : s.inUse proc = false) :
    s'.inUse = s.inUse := by
  rw [h.eq]
  funext p
  by_cases hp : p = proc
  · simp [freeProc, hp, hproc]
  · simp [freeProc, Kernel.allocProc, hp]

theorem used_eq (h : Unforked s s' proc cloneVm m) (hproc : s.inUse proc = false) :
    s'.used = s.used := by
  unfold used
  rw [h.inUse_eq hproc]

theorem sched_eq (h : Unforked s s' proc cloneVm m) : s'.sched = s.sched.allocProc proc := by
  rw [h.eq]
  rfl

theorem curr_eq (h : Unforked s s' proc cloneVm m) : s'.curr = s.curr := by
  rw [h.eq]
  rfl

theorem loc_eq (h : Unforked s s' proc cloneVm m) : s'.loc = s.loc := by
  rw [h.eq]
  rfl

theorem pcb_of_ne (h : Unforked s s' proc cloneVm m) {p : ν} (hp : p ≠ proc) :
    s'.sched.pcb p = s.sched.pcb p := by
  rw [h.sched_eq]
  exact Function.update_of_ne hp _ _

theorem parent_of_ne (h : Unforked s s' proc cloneVm m) {c : ν} (hc : c ≠ proc) :
    s'.table.parent c = s.table.parent c := by
  rw [h.eq]
  simp [freeProc, setParent, ProcTable.allocProc, setChild, setYounger, setOlder, setPid, hc]

theorem pid_of_ne (h : Unforked s s' proc cloneVm m) {c : ν} (hc : c ≠ proc) :
    s'.table.pid c = s.table.pid c := by
  rw [h.eq]
  simp [freeProc, setParent, ProcTable.allocProc, setChild, setYounger, setOlder, setPid, hc]

end Unforked

/-- A new process `proc`. -/
structure Forked (s s' : Kernel κ ν μ ρ) (proc : ν) (cloneVm : Bool) (m : ForkMem ν μ ρ) (ret : ℤ) :
    Prop where
  eq : s' = { s with
    sched := s'.sched
    table := s'.table
    vm := s'.vm
    flagExit := Function.update s.flagExit proc false
    exitCode := Function.update s.exitCode proc 0
    inUse := Function.update s.inUse proc true
    isUser := Function.update s.isUser proc (s.isUser s.curr)
    loc := Function.update s.loc proc .newborn }
  fresh : m.pcb = some proc
  wakes : Wakes [proc] (s.sched.allocProc proc) s'.sched
  vm : (s.vm.allocProc proc).copyVmm s.curr proc cloneVm m.vm = (s'.vm, true)
  parent : s'.table.parent = Function.update s.table.parent proc (some s.curr)
  pid : ∀ x, x ≠ proc → s'.table.pid x = s.table.pid x
  ret : ret = s'.table.pid proc

namespace Forked

variable {proc : ν} {cloneVm : Bool} {m : ForkMem ν μ ρ} {ret : ℤ}

theorem used_eq (h : Forked s s' proc cloneVm m ret) : s'.used = insert proc s.used := by
  rw [h.eq]
  ext p
  by_cases hp : p = proc
  · simp [used, hp]
  · simp [used, hp]

theorem pcb_self (h : Forked s s' proc cloneVm m ret) : s'.sched.pcb proc = .running := by
  rw [h.wakes.woken.pcb_eq]
  simp [Sched.allocProc, setPcb, RunState.woken, Sched.pcb]

theorem pcb_of_ne (h : Forked s s' proc cloneVm m ret) {p : ν} (hp : p ≠ proc) :
    s'.sched.pcb p = s.sched.pcb p := by
  rw [h.wakes.woken.pcb_of_notMem (by simpa using hp)]
  simp [Sched.allocProc, setPcb, hp, Sched.pcb]

theorem idle_eq (h : Forked s s' proc cloneVm m ret) : s'.sched.idle = s.sched.idle :=
  h.wakes.woken.idle

theorem curr_eq (h : Forked s s' proc cloneVm m ret) : s'.curr = s.curr := h.wakes.woken.curr

/-- The family has one more member. -/
theorem familyOk (h : Forked s s' proc cloneVm m ret) (hs : s.FamilyOk ps kids)
    (hproc : s.inUse proc = false) (hidle : s.curr ≠ s.sched.idle)
    (htable : s'.table.TableOk s'.used s.sched.idle (proc :: ps) (fun _ => none)
      (Function.update kids s.curr (proc :: kids s.curr))) :
    s'.FamilyOk (proc :: ps) (Function.update kids s.curr (proc :: kids s.curr)) := by
  have hinit : s'.initProc = s.initProc := by rw [h.eq]
  have hne : s.initProc ≠ proc := by
    rintro hi
    have : s.inUse s.initProc = true := hs.init_mem
    rw [hi, hproc] at this
    cases this
  refine ⟨?_, ?_, ?_, fun c hc => ?_⟩
  · rw [h.idle_eq]
    exact htable
  · rw [h.used_eq, hinit]
    exact Or.inr hs.init_mem
  · rw [hinit, h.idle_eq, h.parent, Function.update_of_ne hne]
    exact hs.init_parent
  · rw [h.idle_eq, Function.update_of_ne hidle.symm] at hc
    rw [hinit]
    exact hs.only_init c hc

end Forked

/-- **`do_fork`** creates a process, or changes nothing. -/
theorem doFork_ok (h : s.table.TableOk s.used s.sched.idle ps (fun _ => none) kids)
    (hcurr : s.curr ∈ s.used) {cloneVm : Bool} {m : ForkMem ν μ ρ} {ret : ℤ}
    (hfresh : ∀ proc, m.pcb = some proc → s.inUse proc = false)
    (he : s.doFork k cloneVm m = .ok (s', ret)) :
    (s' = s ∧ ret < 0) ∨ (∃ proc, Unforked s s' proc cloneVm m ∧ ret < 0) ∨
      ∃ proc, Forked s s' proc cloneVm m ret ∧
        s'.table.TableOk s'.used s.sched.idle (proc :: ps) (fun _ => none)
          (Function.update kids s.curr (proc :: kids s.curr)) := by
  unfold Kernel.doFork at he
  by_cases hfull : maxProcess < s.table.numProc
  · rw [if_pos hfull] at he
    cases he
    exact Or.inl ⟨rfl, by decide⟩
  rw [if_neg hfull] at he
  cases hm : m.pcb with
  | none =>
    simp only [hm] at he
    cases he
    exact Or.inl ⟨rfl, by decide⟩
  | some proc =>
    have hproc : proc ∉ s.used := by
      show ¬ s.inUse proc = true
      rw [hfresh proc hm]
      simp
    simp only [hm] at he
    obtain ⟨-, -, he⟩ := bind_eq_ok.1 he
    by_cases hstack : m.stack
    · rw [if_neg (not_not.2 hstack)] at he
      obtain ⟨⟨vm, ok⟩, hvm⟩ : ∃ r, (s.vm.allocProc proc).copyVmm s.curr proc cloneVm m.vm = r :=
        ⟨_, rfl⟩
      have hvm' : (s.allocProc proc).vm.copyVmm (s.allocProc proc).curr proc cloneVm m.vm =
        (vm, ok) := hvm
      cases ok with
      | false =>
        simp only [Kernel.curr] at hvm' he
        rw [hvm'] at he
        cases he
        exact Or.inr (Or.inl ⟨proc, ⟨rfl, hm, Or.inr hvm⟩, by decide⟩)
      | true =>
        simp only [Kernel.curr] at hvm' he
        rw [hvm'] at he
        simp only at he
        obtain ⟨table, htable, he⟩ := bind_eq_ok.1 he
        obtain ⟨s₁, hwake, he⟩ := bind_eq_ok.1 he
        obtain ⟨sched, hsched, hwake⟩ := bind_eq_ok.1 hwake
        cases hwake
        cases he
        have halloc := h.allocProc hproc (some s.curr)
        obtain ⟨hok, hpar, hpid⟩ := halloc.enterProc hproc hcurr (by simp [setParent])
          (by simp [setParent, ProcTable.allocProc, setChild, setOlder, setYounger])
          (Nat.not_lt.1 hfull) htable
        refine Or.inr (Or.inr ⟨proc, ⟨rfl, hm, .single hsched, hvm, ?_, fun x hx => ?_, rfl⟩, ?_⟩)
        · funext x
          rw [hpar]
          by_cases hx : x = proc
          · simp [setParent, hx]
          · simp [setParent, ProcTable.allocProc, setChild, setOlder, setYounger, setPid, hx]
        · rw [hpid x hx]
          simp [setParent, ProcTable.allocProc, setChild, setOlder, setYounger, setPid, hx]
        · have hused : insert proc s.used =
              {p | Function.update s.inUse proc true p = true} := by
            ext p
            by_cases hp : p = proc
            · simp [hp]
            · simp [used, hp]
          rw [hused] at hok
          exact hok
    · rw [if_pos hstack] at he
      cases he
      exact Or.inr (Or.inl ⟨proc, ⟨rfl, hm, Or.inl rfl⟩, by decide⟩)

end Kernel

end GarretOS
