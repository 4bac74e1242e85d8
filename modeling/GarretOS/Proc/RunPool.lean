import GarretOS.Proc.RunQueue
import GarretOS.Proc.Table
import Mathlib.Data.Set.Insert

/-!
# The run pool

`PoolOk S U t` says that the run pool of the scheduler `S` is the heap `t`, and that its nodes are
the processes of `U` that are runnable and neither running nor `idle`.

* `PoolOk.wakeupProc`, `PoolOk.schedule` : the two functions that change the pool keep this;
* `Wakes` : several calls of `wakeup_proc`, one after the other, and what they change (`Woken`).
-/

namespace GarretOS

/-- What `wakeup_proc` does to a process that is not a zombie. -/
def RunState.woken (r : RunState) : RunState := if r.state ≠ .runnable then .running else r

@[simp] theorem RunState.woken_state (r : RunState) : r.woken.state = .runnable := by
  unfold RunState.woken
  split_ifs with h
  · rfl
  · exact not_not.1 h

theorem RunState.woken_running {r : RunState} (h : r.state = .runnable → r = .running) :
    r.woken = .running := by
  unfold RunState.woken
  split_ifs with hr
  · rfl
  · exact h (not_not.1 hr)

namespace RunQueue

variable {ν : Type} [DecidableEq ν] {q q' : RunQueue ν} {t : Tree ν} {p : ν} {k : ℕ}

/-- The run pool is the heap `t`. -/
structure Holds (q : RunQueue ν) (t : Tree ν) : Prop where
  heap : TreeLinks.IsHeap q.pool q.runPool t
  num : q.numProc = t.nodes.length
  queued : ∀ p ∈ t.nodes, q.runQueue p = true

/-- The fields that `stride_enqueue` and `stride_dequeue` leave alone. -/
structure SameStrides (q q' : RunQueue ν) : Prop where
  stride : q'.stride = q.stride
  priority : q'.priority = q.priority
  needReschedule : q'.needReschedule = q.needReschedule

omit [DecidableEq ν] in
theorem SameStrides.trans {q'' : RunQueue ν} (h : SameStrides q q') (h' : SameStrides q' q'') :
    SameStrides q q'' :=
  ⟨h'.stride.trans h.stride, h'.priority.trans h.priority,
    h'.needReschedule.trans h.needReschedule⟩

/-- The comparison of two roots. -/
def first (q : RunQueue ν) : ν → ν → Bool := TreeLinks.before (strideCompFn q.stride)

/-- Only the time slice is refilled. -/
theorem refill_eq (q : RunQueue ν) (p : ν) :
    (q.refill p).runPool = q.runPool ∧ (q.refill p).pool = q.pool ∧
      (q.refill p).numProc = q.numProc ∧ (q.refill p).runQueue = q.runQueue ∧
      SameStrides q (q.refill p) := by
  unfold refill
  split_ifs
  · exact ⟨rfl, rfl, rfl, rfl, rfl, rfl, rfl⟩
  · exact ⟨rfl, rfl, rfl, rfl, rfl, rfl, rfl⟩

theorem strideEnqueue_same (he : q.strideEnqueue k p = .ok q') : SameStrides q q' := by
  obtain ⟨⟨pool, runPool⟩, -, he⟩ := bind_eq_ok.1 he
  obtain ⟨-, -, -, -, hsame⟩ := refill_eq ({ q with pool, runPool } : RunQueue ν) p
  obtain rfl := Except.ok.inj he
  exact ⟨hsame.stride, hsame.priority, hsame.needReschedule⟩

/-- **`stride_enqueue`** adds a process to the pool. -/
theorem Holds.strideEnqueue (h : q.Holds t) (hp : p ∉ t.nodes) (hlen : t.nodes.length + 1 < 2 ^ 32)
    (he : q.strideEnqueue k p = .ok q') : q'.Holds (t.merge q.first (.single p)) := by
  obtain ⟨⟨pool, runPool⟩, ha, he⟩ := bind_eq_ok.1 he
  obtain ⟨L', hheap, hF⟩ := TreeLinks.addSkewHeap_spec (strideCompFn q.stride) h.heap hp
  obtain ⟨rfl, rfl⟩ := Prod.mk.inj (Except.ok.inj (hF.of_ok ha))
  have hperm : (t.merge q.first (.single p)).nodes.length = _ := (Tree.nodes_merge _ _).length_eq
  rw [List.length_append, Tree.nodes_single, List.length_singleton] at hperm
  obtain ⟨h1, h2, h3, h4, -⟩ := refill_eq ({ q with
    pool := L'
    runPool := (t.merge (TreeLinks.before (strideCompFn q.stride)) (.single p)).root } :
      RunQueue ν) p
  obtain rfl := Except.ok.inj he
  refine ⟨?_, ?_, fun x hx => ?_⟩
  · simp only [h1, h2]
    exact hheap
  · rw [hperm]
    show u32 (_ + 1) = _
    rw [h3.trans h.num, u32_of_lt hlen]
  · rw [Tree.mem_merge, Tree.nodes_single, List.mem_singleton] at hx
    simp only [h4]
    by_cases hxp : x = p
    · rw [hxp, Function.update_self]
    · rw [Function.update_of_ne hxp]
      exact h.queued x (hx.resolve_right hxp)

/-- `stride_enqueue` comes to an end. -/
theorem Holds.strideEnqueue_fueled (h : q.Holds t) (hp : p ∉ t.nodes) :
    ∃ n q', Fueled n (fun k => q.strideEnqueue k p) (.ok q') := by
  obtain ⟨L', -, hF⟩ := TreeLinks.addSkewHeap_spec (strideCompFn q.stride) h.heap hp
  exact ⟨_, _, hF.bind _⟩

/-- **`stride_pick_next`** advances the stride of the root. -/
theorem Holds.stridePickNext {l r : Tree ν} (h : q.Holds (.node l p r)) :
    ∃ q', q.stridePickNext = (q', some p) ∧ q'.Holds (.node l p r) ∧
      q'.stride = Function.update q.stride p (u32 (q.stride p + bigStride / q.priority p)) ∧
      q'.priority = q.priority ∧ q'.needReschedule = q.needReschedule := by
  have hroot : q.runPool = some p := h.heap.root_eq
  unfold RunQueue.stridePickNext
  split
  next hnone =>
    rw [hroot] at hnone
    cases hnone
  next proc hproc =>
    obtain rfl : p = proc := Option.some.inj (hroot.symm.trans hproc)
    exact ⟨_, rfl, ⟨h.heap, h.num, h.queued⟩, rfl, rfl, rfl⟩

/-- **`stride_dequeue`** of the root. -/
theorem Holds.strideDequeue {l r : Tree ν} (h : q.Holds (.node l p r))
    (hlen : (Tree.node l p r).nodes.length < 2 ^ 32) (he : q.strideDequeue k p = .ok q') :
    q'.Holds (l.merge q.first r) ∧ SameStrides q q' := by
  have hroot : q.runPool = some p := h.heap.root_eq
  have hheap := h.heap
  rw [hroot] at hheap
  obtain ⟨-, -, he⟩ := bind_eq_ok.1 he
  simp only [hroot] at he
  obtain ⟨⟨pool, runPool⟩, ha, he⟩ := bind_eq_ok.1 he
  obtain ⟨L', hheap', hF⟩ := TreeLinks.delSkewHeap_root (strideCompFn q.stride) hheap
  obtain ⟨rfl, rfl⟩ := Prod.mk.inj (Except.ok.inj (hF.of_ok ha))
  cases he
  have hnum := h.num
  rw [Tree.nodes_node, List.length_cons, List.length_append] at hnum hlen
  refine ⟨⟨hheap', ?_, fun x hx => ?_⟩, rfl, rfl, rfl⟩
  · have hperm : (l.merge q.first r).nodes.length = _ := (Tree.nodes_merge _ _).length_eq
    rw [List.length_append] at hperm
    rw [hperm]
    simp only [hnum, u32]
    omega
  · refine h.queued x ?_
    rw [Tree.mem_merge] at hx
    rw [Tree.nodes_node, List.mem_cons, List.mem_append]
    exact Or.inr hx

theorem strideProcTick_same (q : RunQueue ν) (p : ν) : (q.strideProcTick p).stride = q.stride ∧
    (q.strideProcTick p).priority = q.priority ∧ ∀ t, q.Holds t → (q.strideProcTick p).Holds t := by
  unfold strideProcTick
  simp only
  split_ifs <;> exact ⟨rfl, rfl, fun t h => ⟨h.heap, h.num, h.queued⟩⟩

/-- The initialisation of a structure outside the pool. -/
theorem Holds.allocProc (h : q.Holds t) (hp : p ∉ t.nodes) : (q.allocProc p).Holds t := by
  have hne : ∀ x ∈ t.nodes, x ≠ p := fun x hx he => hp (he ▸ hx)
  have hinit : ∀ x ∈ t.nodes, (q.pool.initSkewHeap p).parent x = q.pool.parent x ∧
      (q.pool.initSkewHeap p).left x = q.pool.left x ∧
      (q.pool.initSkewHeap p).right x = q.pool.right x := by
    intro x hx
    simp [TreeLinks.initSkewHeap, TreeLinks.setLeft, TreeLinks.setRight, TreeLinks.setParent,
      hne x hx]
  refine ⟨⟨h.heap.holds.congr h.heap.nodup (fun x hx => (hinit x hx).2) fun x hx _ => (hinit x hx).1,
    h.heap.root_eq, h.heap.nodup, fun a ha => ?_⟩, h.num, fun x hx => ?_⟩
  · show (q.pool.initSkewHeap p).parent a = none
    rw [(hinit a (Tree.root_mem ha)).1]
    exact h.heap.parent a ha
  · show Function.update q.runQueue p false x = true
    rw [Function.update_of_ne (hne x hx)]
    exact h.queued x hx

end RunQueue

namespace Sched

variable {κ ν : Type} [DecidableEq ν] {S S' : Sched κ ν} {U : Set ν} {t : Tree ν}
  {p : ν} {k : ℕ}

/-- The process may be running. -/
def Runnable (S : Sched κ ν) (p : ν) : Prop := (S.pcb p).state = .runnable

/-- The run pool is the heap `t`, of the processes that wait for the processor. -/
structure PoolOk (S : Sched κ ν) (U : Set ν) (t : Tree ν) : Prop where
  holds : S.queue.Holds t
  mem : ∀ p, p ∈ t.nodes ↔ p ∈ U ∧ S.Runnable p ∧ p ≠ S.curr ∧ p ≠ S.idle

/-- There are not more processes besides `idle` than the process list can hold. -/
def Few (U : Set ν) (idle : ν) : Prop :=
  ∀ l : List ν, l.Nodup → (∀ p ∈ l, p ∈ U ∧ p ≠ idle) → l.length ≤ maxProcess + 1

omit [DecidableEq ν] in
theorem PoolOk.length_le (h : S.PoolOk U t) (hfew : Few U S.idle) :
    t.nodes.length ≤ maxProcess + 1 := by
  refine hfew t.nodes h.holds.heap.nodup fun p hp => ?_
  obtain ⟨hpU, -, -, hpi⟩ := (h.mem p).1 hp
  exact ⟨hpU, hpi⟩

/-- What calls of `wakeup_proc` for the processes `ws` change besides the pool. -/
structure Woken (S S' : Sched κ ν) (ws : List ν) : Prop where
  sem : S'.sem =
    { S.sem with pcb := fun x => if x ∈ ws then (S.sem.pcb x).woken else S.sem.pcb x }
  curr : S'.curr = S.curr
  idle : S'.idle = S.idle
  strides : RunQueue.SameStrides S.queue S'.queue
  alive : ∀ w ∈ ws, (S.pcb w).state ≠ .zombie

namespace Woken

variable {ws : List ν}

/-- The states of the processes afterwards. -/
theorem pcb_eq (hw : Woken S S' ws) (p : ν) :
    S'.pcb p = if p ∈ ws then (S.pcb p).woken else S.pcb p := by
  rw [Sched.pcb, hw.sem]
  rfl

theorem pcb_of_notMem (hw : Woken S S' ws) {p : ν} (hp : p ∉ ws) : S'.pcb p = S.pcb p := by
  rw [hw.pcb_eq, if_neg hp]

/-- Nobody becomes a zombie by being woken. -/
theorem zombie (hw : Woken S S' ws) {p : ν} (hz : (S'.pcb p).state = .zombie) :
    p ∉ ws ∧ (S.pcb p).state = .zombie := by
  rw [hw.pcb_eq] at hz
  split_ifs at hz with hp
  · simp at hz
  · exact ⟨hp, hz⟩

end Woken

theorem wakeupProc_woken (hw : S.wakeupProc k p = .ok S') : Woken S S' [p] := by
  obtain ⟨_, ha, hw⟩ := bind_eq_ok.1 hw
  have halive : ∀ w ∈ [p], (S.pcb w).state ≠ .zombie := by
    simpa using assert_eq_ok.1 ha
  by_cases hrun : (S.pcb p).state = .runnable
  · rw [if_neg (not_not.2 hrun)] at hw
    cases hw
    refine ⟨?_, rfl, rfl, ⟨rfl, rfl, rfl⟩, halive⟩
    have hpcb : (fun x => if x ∈ [p] then (S.sem.pcb x).woken else S.sem.pcb x) = S.sem.pcb := by
      funext x
      by_cases hx : x = p
      · rw [if_pos (by simp [hx]), hx]
        exact if_neg (not_not.2 hrun)
      · rw [if_neg (by simpa using hx)]
    rw [hpcb]
  · rw [if_pos hrun] at hw
    have hpcb : Function.update S.sem.pcb p RunState.running =
        fun x => if x ∈ [p] then (S.sem.pcb x).woken else S.sem.pcb x := by
      funext x
      by_cases hx : x = p
      · rw [if_pos (by simp [hx]), hx, Function.update_self]
        exact (if_pos hrun).symm
      · rw [if_neg (by simpa using hx), Function.update_of_ne hx]
    simp only [setPcb, hpcb] at hw
    split_ifs at hw with hcurr
    · unfold schedulerEnqueue at hw
      split_ifs at hw with hidle
      · obtain ⟨queue, hq, hw⟩ := bind_eq_ok.1 hw
        cases hw
        exact ⟨rfl, rfl, rfl, RunQueue.strideEnqueue_same hq, halive⟩
      · cases hw
        exact ⟨rfl, rfl, rfl, ⟨rfl, rfl, rfl⟩, halive⟩
    · cases hw
      exact ⟨rfl, rfl, rfl, ⟨rfl, rfl, rfl⟩, halive⟩

/-- **`wakeup_proc`** enters the process into the pool, unless it is runnable already or it is the
running process. -/
theorem PoolOk.wakeupProc (h : S.PoolOk U t) (hfew : Few U S.idle) (hp : p ∈ U)
    (hidle : p ≠ S.idle) (hw : S.wakeupProc k p = .ok S') :
    ∃ t', S'.PoolOk U t' ∧ (t' = t ∨ t' = t.merge S.queue.first (.single p)) := by
  have hwoken := wakeupProc_woken hw
  have hrunnable : ∀ x, S'.Runnable x ↔ x = p ∨ S.Runnable x := by
    intro x
    rw [Runnable, Runnable, hwoken.pcb_eq]
    by_cases hx : x = p
    · simp [hx]
    · simp [hx]
  obtain ⟨-, -, hw⟩ := bind_eq_ok.1 hw
  by_cases hrun : (S.pcb p).state = .runnable
  · rw [if_neg (not_not.2 hrun)] at hw
    cases hw
    exact ⟨t, h, Or.inl rfl⟩
  · rw [if_pos hrun] at hw
    by_cases hcurr : p = S.curr
    · have hcurr' : ¬ p ≠ (S.setPcb p .running).curr := not_not.2 hcurr
      rw [if_neg hcurr'] at hw
      cases hw
      refine ⟨t, ⟨h.holds, fun x => ?_⟩, Or.inl rfl⟩
      rw [h.mem, hrunnable]
      show _ ↔ _ ∧ _ ∧ x ≠ S.curr ∧ x ≠ S.idle
      rw [← hcurr]
      tauto
    · have hne : p ≠ (S.setPcb p .running).curr := hcurr
      have hidle' : p ≠ (S.setPcb p .running).idle := hidle
      simp only [if_pos hne, schedulerEnqueue, if_pos hidle'] at hw
      obtain ⟨queue, hq, hw⟩ := bind_eq_ok.1 hw
      cases hw
      have hpt : p ∉ t.nodes := fun hm => hrun ((h.mem p).1 hm).2.1
      have hlen : t.nodes.length + 1 < 2 ^ 32 := by
        have := h.length_le hfew
        have : maxProcess = 4096 := rfl
        omega
      refine ⟨_, ⟨RunQueue.Holds.strideEnqueue h.holds hpt hlen hq, fun x => ?_⟩, Or.inr rfl⟩
      rw [Tree.mem_merge, Tree.nodes_single, List.mem_singleton, h.mem, hrunnable]
      constructor
      · rintro (hx | rfl)
        · exact ⟨hx.1, Or.inr hx.2.1, hx.2.2⟩
        · exact ⟨hp, Or.inl rfl, hcurr, hidle⟩
      · rintro ⟨hx, rfl | hxr, hxc⟩
        · exact Or.inr rfl
        · exact Or.inl ⟨hx, hxr, hxc⟩

/-- `wakeup_proc` comes to an end, for a process that is not a zombie. -/
theorem PoolOk.wakeupProc_fueled (h : S.PoolOk U t) (halive : (S.pcb p).state ≠ .zombie) :
    ∃ n S', Fueled n (fun k => S.wakeupProc k p) (.ok S') := by
  simp only [Sched.wakeupProc, assert_of halive, ok_bind]
  by_cases hrun : (S.pcb p).state = .runnable
  · simp only [if_neg (not_not.2 hrun)]
    exact ⟨0, S, .const⟩
  simp only [if_pos hrun]
  by_cases hcurr : p = S.curr
  · have hcurr' : ¬ p ≠ (S.setPcb p .running).curr := not_not.2 hcurr
    simp only [if_neg hcurr']
    exact ⟨0, _, .const⟩
  have hcurr' : p ≠ (S.setPcb p .running).curr := hcurr
  simp only [if_pos hcurr', schedulerEnqueue]
  by_cases hidle : p = (S.setPcb p .running).idle
  · simp only [if_neg (not_not.2 hidle)]
    exact ⟨0, _, .const⟩
  simp only [if_pos hidle]
  have hpt : p ∉ t.nodes := fun hm => hrun ((h.mem p).1 hm).2.1
  obtain ⟨n, q, hF⟩ := h.holds.strideEnqueue_fueled hpt
  exact ⟨n, _, hF.bind _⟩

/-- The pool does not depend on the state of the running process. -/
theorem PoolOk.setPcb_curr (h : S.PoolOk U t) (r : RunState) :
    (S.setPcb S.curr r).PoolOk U t := by
  refine ⟨h.holds, fun p => ?_⟩
  have hrun : p ≠ S.curr → ((S.setPcb S.curr r).Runnable p ↔ S.Runnable p) := by
    intro hp
    simp [Runnable, Sched.pcb, setPcb, hp]
  rw [h.mem]
  constructor
  · rintro ⟨h1, h2, h3, h4⟩
    exact ⟨h1, (hrun h3).2 h2, h3, h4⟩
  · rintro ⟨h1, h2, h3, h4⟩
    exact ⟨h1, (hrun h3).1 h2, h3, h4⟩

/-- The initialisation of a structure that is not a process. -/
theorem PoolOk.allocProc {V : Set ν} (h : S.PoolOk U t) (hp : p ∉ U)
    (hV : ∀ x, x ≠ p → (x ∈ V ↔ x ∈ U)) : (S.allocProc p).PoolOk V t := by
  have hpt : p ∉ t.nodes := fun hm => hp ((h.mem p).1 hm).1
  refine ⟨RunQueue.Holds.allocProc h.holds hpt, fun x => ?_⟩
  by_cases hx : x = p
  · subst hx
    refine ⟨fun hm => absurd hm hpt, fun hm => ?_⟩
    have hrun := hm.2.1
    simp [Runnable, Sched.allocProc, pcb, setPcb] at hrun
  · rw [h.mem, hV x hx]
    have hrun : (S.allocProc p).Runnable x ↔ S.Runnable x := by
      simp [Runnable, Sched.allocProc, pcb, setPcb, hx]
    rw [hrun]
    rfl

/-- `scheduler_proc_tick` changes only the run queue, and not the pool. -/
theorem schedulerProcTick_eq (S : Sched κ ν) :
    S.schedulerProcTick = { S with queue := S.schedulerProcTick.queue } ∧
      S.schedulerProcTick.queue.stride = S.queue.stride ∧
      S.schedulerProcTick.queue.priority = S.queue.priority ∧
      ∀ t, S.queue.Holds t → S.schedulerProcTick.queue.Holds t := by
  unfold Sched.schedulerProcTick
  split_ifs
  · exact ⟨rfl, RunQueue.strideProcTick_same S.queue S.curr⟩
  · exact ⟨rfl, rfl, rfl, fun t h => ⟨h.heap, h.num, h.queued⟩⟩

@[simp] theorem schedulerProcTick_curr (S : Sched κ ν) : S.schedulerProcTick.curr = S.curr := by
  rw [S.schedulerProcTick_eq.1]

@[simp] theorem schedulerProcTick_pcb (S : Sched κ ν) (p : ν) :
    S.schedulerProcTick.pcb p = S.pcb p := by
  rw [S.schedulerProcTick_eq.1]
  rfl

/-- Calls of `wakeup_proc` for the processes `ws`, in this order. -/
inductive Wakes : List ν → Sched κ ν → Sched κ ν → Prop
  | nil {S : Sched κ ν} : Wakes [] S S
  | cons {k : ℕ} {w : ν} {ws : List ν} {S S₁ S' : Sched κ ν} : S.wakeupProc k w = .ok S₁ →
      Wakes ws S₁ S' → Wakes (w :: ws) S S'

theorem Wakes.single (hw : S.wakeupProc k p = .ok S') : Wakes [p] S S' := .cons hw .nil

theorem Wakes.trans {S₁ : Sched κ ν} {ws ws' : List ν} (h : Wakes ws S S₁)
    (h' : Wakes ws' S₁ S') : Wakes (ws ++ ws') S S' := by
  induction h with
  | nil => exact h'
  | cons hw _ ih => exact .cons hw (ih h')

theorem Wakes.woken {ws : List ν} (h : Wakes ws S S') : Woken S S' ws := by
  induction h with
  | nil => exact ⟨by simp, rfl, rfl, ⟨rfl, rfl, rfl⟩, by simp⟩
  | @cons k w ws S S₁ S' hw _ ih =>
    have h₁ := wakeupProc_woken hw
    have hidem : ∀ r : RunState, r.woken.woken = r.woken := fun r =>
      if_neg (not_not.2 (RunState.woken_state r))
    refine ⟨?_, ih.curr.trans h₁.curr, ih.idle.trans h₁.idle, h₁.strides.trans ih.strides,
      fun x hx => ?_⟩
    · rw [ih.sem, h₁.sem]
      simp only [SemState.mk.injEq, true_and, and_true]
      funext x
      by_cases hx : x = w
      · simp [hx, hidem]
      · simp [hx]
    · by_cases hxw : x = w
      · exact h₁.alive x (by simp [hxw])
      · have := ih.alive x ((List.mem_cons.1 hx).resolve_left hxw)
        simpa [pcb, h₁.sem, hxw] using this

theorem PoolOk.wakes {ws : List ν} (h : S.PoolOk U t) (hfew : Few U S.idle)
    (hws : ∀ w ∈ ws, w ∈ U ∧ w ≠ S.idle) (hw : Wakes ws S S') : ∃ t', S'.PoolOk U t' := by
  induction hw generalizing t with
  | nil => exact ⟨t, h⟩
  | @cons k w ws S S₁ S' hw _ ih =>
    obtain ⟨hwU, hwi⟩ := hws w List.mem_cons_self
    obtain ⟨t₁, h₁, -⟩ := h.wakeupProc hfew hwU hwi hw
    have hidle := (wakeupProc_woken hw).idle
    refine ih h₁ (hidle ▸ hfew) fun x hx => ?_
    rw [hidle]
    exact hws x (List.mem_cons_of_mem w hx)

/-- What `schedule` changes, the pool being the heap `t` before and `t'` after it. -/
structure Switched (S S' : Sched κ ν) (t t' : Tree ν) : Prop where
  sem : S'.sem = S.sem
  idle : S'.idle = S.idle
  priority : S'.queue.priority = S.queue.priority
  needReschedule : S'.queue.needReschedule = Function.update S.queue.needReschedule S.curr false
  runnable : S.Runnable S'.curr
  /-- First the running process goes back into the pool, if it is runnable, and then the root is
  taken out. -/
  pick : ∃ t₁, (t₁ = t ∨ t₁ = t.merge S.queue.first (.single S.curr) ∧ S.Runnable S.curr ∧
      S.curr ≠ S.idle) ∧
    ((t₁ = .leaf ∧ t' = .leaf ∧ S'.curr = S.idle ∧ S'.queue.stride = S.queue.stride) ∨
      ∃ l r, t₁ = .node l S'.curr r ∧ t' = l.merge S'.queue.first r ∧
        S'.queue.stride = Function.update S.queue.stride S'.curr
          (u32 (S.queue.stride S'.curr + bigStride / S.queue.priority S'.curr)))

/-- The first part of `schedule`. -/
theorem PoolOk.requeue (h : S.PoolOk U t) (hfew : Few U S.idle) (hcurr : S.curr ∈ U)
    (he : (if (S.pcb S.curr).state = .runnable then S.schedulerEnqueue k S.curr else .ok S) =
      .ok S') :
    ∃ t₁, S'.sem = S.sem ∧ S'.idle = S.idle ∧ S'.queue.Holds t₁ ∧
      RunQueue.SameStrides S.queue S'.queue ∧
      (t₁ = t ∨ t₁ = t.merge S.queue.first (.single S.curr) ∧ S.Runnable S.curr ∧
        S.curr ≠ S.idle) ∧
      ∀ p, p ∈ t₁.nodes ↔ p ∈ U ∧ S.Runnable p ∧ p ≠ S.idle := by
  have hnot : ¬(S.Runnable S.curr ∧ S.curr ≠ S.idle) →
      ∀ p, p ∈ t.nodes ↔ p ∈ U ∧ S.Runnable p ∧ p ≠ S.idle := by
    intro hn p
    rw [h.mem]
    refine ⟨fun hp => ⟨hp.1, hp.2.1, hp.2.2.2⟩, fun hp => ⟨hp.1, hp.2.1, ?_, hp.2.2⟩⟩
    rintro rfl
    exact hn hp.2
  by_cases hrun : S.Runnable S.curr
  · rw [if_pos (show (S.pcb S.curr).state = .runnable from hrun), schedulerEnqueue] at he
    by_cases hidle : S.curr ≠ S.idle
    · rw [if_pos hidle] at he
      obtain ⟨queue, hq, he⟩ := bind_eq_ok.1 he
      cases he
      have hct : S.curr ∉ t.nodes := fun hm => ((h.mem S.curr).1 hm).2.2.1 rfl
      have hlen : t.nodes.length + 1 < 2 ^ 32 := by
        have := h.length_le hfew
        have : maxProcess = 4096 := rfl
        omega
      refine ⟨_, rfl, rfl, RunQueue.Holds.strideEnqueue h.holds hct hlen hq,
        RunQueue.strideEnqueue_same hq, Or.inr ⟨rfl, hrun, hidle⟩, fun p => ?_⟩
      rw [Tree.mem_merge, Tree.nodes_single, List.mem_singleton, h.mem]
      constructor
      · rintro (hp | rfl)
        · exact ⟨hp.1, hp.2.1, hp.2.2.2⟩
        · exact ⟨hcurr, hrun, hidle⟩
      · rintro ⟨hpU, hpr, hpi⟩
        by_cases hpc : p = S.curr
        · exact Or.inr hpc
        · exact Or.inl ⟨hpU, hpr, hpc, hpi⟩
    · rw [if_neg hidle] at he
      cases he
      exact ⟨t, rfl, rfl, h.holds, ⟨rfl, rfl, rfl⟩, Or.inl rfl, hnot fun hn => hidle hn.2⟩
  · rw [if_neg (show ¬(S.pcb S.curr).state = .runnable from hrun)] at he
    cases he
    exact ⟨t, rfl, rfl, h.holds, ⟨rfl, rfl, rfl⟩, Or.inl rfl, hnot fun hn => hrun hn.1⟩

/-- **`schedule`** puts the running process back and takes the root of the pool out. -/
theorem PoolOk.schedule (h : S.PoolOk U t) (hfew : Few U S.idle) (hcurr : S.curr ∈ U)
    (hidle : S.idle ∈ U) (hrun : S.Runnable S.idle) (hs : S.schedule k = .ok S') :
    ∃ t', S'.PoolOk U t' ∧ Switched S S' t t' ∧ S'.curr ∈ U := by
  have h₁ : ({ S with queue := { S.queue with
      needReschedule := Function.update S.queue.needReschedule S.curr false } } :
      Sched κ ν).PoolOk U t := ⟨⟨h.holds.heap, h.holds.num, h.holds.queued⟩, h.mem⟩
  obtain ⟨S₂, he, hs⟩ := bind_eq_ok.1 hs
  obtain ⟨t₁, hsem, hidle₂, hholds, ⟨hstride, hpriority, hneed⟩, ht₁, hmem⟩ :=
    h₁.requeue hfew hcurr he
  have hlen : t₁.nodes.length < 2 ^ 32 := by
    have := hfew t₁.nodes hholds.heap.nodup fun p hp => ⟨((hmem p).1 hp).1, ((hmem p).1 hp).2.2⟩
    have : maxProcess = 4096 := rfl
    omega
  cases t₁ with
  | leaf =>
    have hroot : S₂.queue.runPool = none := hholds.heap.root_eq
    simp only [RunQueue.stridePickNext, hroot] at hs
    cases hs
    refine ⟨.leaf, ⟨⟨hholds.heap, hholds.num, hholds.queued⟩, fun p => ?_⟩,
      ⟨hsem, hidle₂, hpriority, hneed, ?_, .leaf, ht₁, Or.inl ⟨rfl, rfl, hidle₂, hstride⟩⟩, ?_⟩
    · rw [hmem, Sched.Runnable, Sched.pcb, hsem, hidle₂]
      refine ⟨fun hp => ⟨hp.1, hp.2.1, hp.2.2, hp.2.2⟩, fun hp => ⟨hp.1, hp.2.1, hp.2.2.2⟩⟩
    · exact hidle₂ ▸ hrun
    · exact hidle₂ ▸ hidle
  | node l a r =>
    obtain ⟨q, hpick, hq, hqstride, hqpriority, hqneed⟩ := hholds.stridePickNext
    simp only [hpick] at hs
    obtain ⟨queue, hdeq, hs⟩ := bind_eq_ok.1 hs
    cases hs
    obtain ⟨haU, har, hai⟩ := (hmem a).1 (by simp)
    obtain ⟨hholds', hsame'⟩ := hq.strideDequeue hlen hdeq
    have hfirst : q.first = queue.first := congrArg
      (fun stride => TreeLinks.before (strideCompFn stride)) hsame'.stride.symm
    rw [hfirst] at hholds'
    refine ⟨_, ⟨hholds', fun p => ?_⟩, ⟨hsem, hidle₂,
      hsame'.priority.trans (hqpriority.trans hpriority),
      hsame'.needReschedule.trans (hqneed.trans hneed), har, .node l a r, ht₁,
      Or.inr ⟨l, r, rfl, rfl, ?_⟩⟩, haU⟩
    · have hnodup := hholds.heap.nodup
      rw [Tree.nodes_node, List.nodup_cons, List.mem_append] at hnodup
      have hp := hmem p
      rw [Tree.nodes_node, List.mem_cons, List.mem_append] at hp
      rw [Tree.mem_merge, Sched.Runnable, Sched.pcb, hsem, hidle₂]
      constructor
      · intro hm
        obtain ⟨h1, h2, h3⟩ := hp.1 (Or.inr hm)
        refine ⟨h1, h2, ?_, h3⟩
        rintro rfl
        exact hnodup.1 hm
      · rintro ⟨h1, h2, h3, h4⟩
        exact (hp.2 ⟨h1, h2, h4⟩).resolve_left h3
    · rw [hsame'.stride, hqstride, hstride, hpriority]

end Sched

end GarretOS
