import Mathlib.Algebra.BigOperators.Group.List.Basic
import Mathlib.Algebra.GroupWithZero.Nat
import GarretOS.Proc.Kernel
import GarretOS.Proc.StrideWindow

/-!
# The stride scheduler and the ideal one

An ideal scheduler keeps its strides as natural numbers and picks any process whose stride is least
(`idealStrides`).  Processes that start with equal strides and stay runnable are scheduled by the
kernel as by the ideal scheduler (`stride_refines`): the strides of the kernel are the ideal ones
modulo `2 ^ 32`, and the ideal ones never differ by more than `BIG_STRIDE`.
-/

namespace GarretOS

open Serial

/-- What happens to the processor. -/
inductive StrideOp (ν : Type) where
  /-- `schedule()` picks `next`, which has this priority. -/
  | schedule (next : ν) (priority : ℕ)
  /-- The running process calls `set_priority(priority)`. -/
  | setPriority (priority : ℕ)

/-- The priority that `set_priority` sets. -/
def newPriority (priority : ℕ) : ℕ := if u32 priority = 0 then 1 else u32 priority

theorem newPriority_pos (priority : ℕ) : 0 < newPriority priority := by
  unfold newPriority
  split_ifs with h
  · exact one_pos
  · exact Nat.pos_of_ne_zero h

/-! ### The ideal scheduler -/

/-- The state of the ideal scheduler. -/
structure Ideal (ν : Type) where
  stride : ν → ℕ
  priority : ν → ℕ
  curr : ν

variable {ν : Type} [DecidableEq ν]

/-- The ideal scheduler of the processes `P`. -/
def idealStrides (P : Set ν) : System (Ideal ν) (StrideOp ν) where
  init I := ∀ p ∈ P, ∀ q ∈ P, I.stride p = I.stride q
  step I l I' := match l with
    | .schedule next priority => next ∈ P ∧ (∀ p ∈ P, I.stride next ≤ I.stride p) ∧
        priority = I.priority next ∧ 0 < priority ∧ I' = { I with
          stride := Function.update I.stride next (I.stride next + bigStride / priority)
          curr := next }
    | .setPriority priority =>
        I' = { I with priority := Function.update I.priority I.curr (newPriority priority) }

/-- How much a step adds to the stride of `p`. -/
def StrideOp.pass (p : ν) : StrideOp ν → ℕ
  | .schedule next priority => if next = p then bigStride / priority else 0
  | .setPriority _ => 0

/-- The stride of the process that is picked advances. -/
theorem update_pass (stride : ν → ℕ) (next p : ν) (priority : ℕ) :
    Function.update stride next (stride next + bigStride / priority) p =
      stride p + (StrideOp.schedule next priority).pass p := by
  rw [StrideOp.pass]
  by_cases hp : next = p
  · rw [hp, Function.update_self, if_pos rfl]
  · rw [Function.update_of_ne (Ne.symm hp), if_neg hp, Nat.add_zero]

/-- The picks of `p`, each counted as `BIG_STRIDE / priority`. -/
def served (p : ν) (ls : List (StrideOp ν)) : ℕ := (ls.map (StrideOp.pass p)).sum

/-- How often `p` is picked. -/
def picks (p : ν) (ls : List (StrideOp ν)) : ℕ :=
  ls.countP fun | .schedule next _ => next = p | .setPriority _ => false

/-- At a fixed priority all picks count the same. -/
theorem served_eq {p : ν} {n : ℕ} {ls : List (StrideOp ν)}
    (h : ∀ priority, .schedule p priority ∈ ls → priority = n) :
    served p ls = picks p ls * (bigStride / n) := by
  induction ls with
  | nil => simp [served, picks]
  | cons l ls ih =>
    have ih' := ih fun priority hm => h priority (List.mem_cons_of_mem l hm)
    rw [served, picks] at ih' ⊢
    rw [List.map_cons, List.sum_cons, ih', List.countP_cons]
    cases l with
    | schedule next priority =>
      by_cases hn : next = p
      · subst hn
        rw [h priority List.mem_cons_self]
        simp [StrideOp.pass, Nat.add_mul, Nat.add_comm]
      · simp [StrideOp.pass, hn]
    | setPriority priority => simp [StrideOp.pass]

/-- The ideal stride of a process is what it has been served. -/
theorem idealStrides_served {P : Set ν} {ls : List (StrideOp ν)} {I : Ideal ν}
    (h : (idealStrides P).Run ls I) {p q : ν} (hp : p ∈ P) (hq : q ∈ P) :
    I.stride p + served q ls = I.stride q + served p ls := by
  induction h with
  | start h => simp [served, h p hp q hq]
  | @step ls I I' l _ hl ih =>
    have hserved : ∀ x, served x (ls ++ [l]) = served x ls + l.pass x := by
      intro x
      simp [served]
    rw [hserved, hserved]
    cases l with
    | schedule next priority =>
      obtain ⟨-, -, -, -, rfl⟩ := hl
      simp only [update_pass]
      omega
    | setPriority priority =>
      obtain rfl := hl
      simpa [StrideOp.pass] using ih

/-- Where `set_priority` has not been called, the picks have had the priorities of now. -/
theorem idealStrides_priority {P : Set ν} {ls : List (StrideOp ν)} {I : Ideal ν}
    (h : (idealStrides P).Run ls I) (hls : ∀ priority, .setPriority priority ∉ ls) :
    ∀ p priority, .schedule p priority ∈ ls → priority = I.priority p := by
  induction h with
  | start _ => exact fun p priority hm => absurd hm List.not_mem_nil
  | @step ls I I' l _ hl ih =>
    intro p priority hm
    have ih' := ih fun n hn => hls n (List.mem_append_left _ hn)
    cases l with
    | schedule next n =>
      obtain ⟨-, -, hn, -, rfl⟩ := hl
      rcases List.mem_append.1 hm with hm | hm
      · exact ih' p priority hm
      · obtain ⟨rfl, rfl⟩ := StrideOp.schedule.inj (List.mem_singleton.1 hm)
        exact hn
    | setPriority n => exact absurd (by simp) (hls n)

/-! ### The kernel's scheduler -/

namespace Sched

variable {κ : Type} (S : Sched κ ν)

/-- `set_priority`; the argument is a `u32`. -/
def setPriority (priority : ℕ) : Sched κ ν :=
  { S with queue := { S.queue with
    priority := Function.update S.queue.priority S.curr (newPriority priority) } }

/-- The function of the same name on the whole kernel does nothing else. -/
theorem setPriority_sched {μ ρ : Type} (s : Kernel κ ν μ ρ) (priority : ℕ) :
    (s.setPriority priority).sched = s.sched.setPriority priority := rfl

/-- The processes `P` are all runnable, and one of them or `idle` has the processor. -/
structure Sharing (P : Set ν) (t : Tree ν) : Prop where
  pool : S.PoolOk (insert S.idle P) t
  few : Few (insert S.idle P) S.idle
  curr : S.curr ∈ insert S.idle P
  idle : S.idle ∉ P
  runnable : ∀ p ∈ insert S.idle P, S.Runnable p
  priority : ∀ p ∈ P, 0 < S.queue.priority p

end Sched

variable {κ : Type}

/-- The scheduler of the kernel, for processes `P` that start with equal strides and stay
runnable. -/
def kernelStrides (P : Set ν) : System (Sched κ ν) (StrideOp ν) where
  init S := P.Nonempty ∧ (∃ t, S.Sharing P t) ∧ (∀ p ∈ P, S.queue.stride p < 2 ^ 32) ∧
    ∀ p ∈ P, ∀ q ∈ P, S.queue.stride p = S.queue.stride q
  step S l S' := match l with
    | .schedule next priority => next = S'.curr ∧ priority = S.queue.priority next ∧
        ∃ k, S.schedule k = .ok S'
    | .setPriority priority => S' = S.setPriority priority

/-- The kernel is where the ideal scheduler is. -/
structure Agrees (P : Set ν) (S : Sched κ ν) (I : Ideal ν) : Prop where
  nonempty : P.Nonempty
  sharing : ∃ t, S.Sharing P t ∧ S.PoolOrdered t
  stride : ∀ p ∈ P, S.queue.stride p = I.stride p % 2 ^ 32
  priority : S.queue.priority = I.priority
  curr : S.curr = I.curr
  close : ∀ p ∈ P, ∀ q ∈ P, I.stride p ≤ I.stride q + bigStride

variable {P : Set ν} {S S' : Sched κ ν} {I : Ideal ν}

omit [DecidableEq ν] in
/-- The distances of the kernel are the differences of the ideal strides. -/
theorem Agrees.diff_eq (h : Agrees P S I) {p q : ν} (hp : p ∈ P) (hq : q ∈ P) :
    strideDiff S.queue.stride p q = I.stride p - I.stride q := by
  have h1 := h.close p hp q hq
  have h2 := h.close q hq p hp
  have hb : bigStride = 2 ^ 30 := by decide
  rw [hb] at h1 h2
  have hcast : ∀ x ∈ P, (S.queue.stride x : ℤ) = (I.stride x : ℤ) % (2 ^ 32 : ℕ) := by
    intro x hx
    rw [h.stride x hx, Int.natCast_mod]
  rw [strideDiff, hcast p hp, hcast q hq, diff_emod]
  exact diff_of_lt (by omega) (by omega)

omit [DecidableEq ν] in
theorem Agrees.window (h : Agrees P S I) : InWindow S.queue.stride P := by
  intro p hp q hq
  have h1 := h.close p hp q hq
  have h2 := h.close q hq p hp
  change -_ ≤ strideDiff S.queue.stride p q ∧ strideDiff S.queue.stride p q ≤ _
  rw [h.diff_eq hp hq]
  exact ⟨by omega, by omega⟩

omit [DecidableEq ν] in
theorem Sched.Sharing.ready_eq {t : Tree ν} (h : S.Sharing P t) : S.Ready (insert S.idle P) = P := by
  ext p
  constructor
  · rintro ⟨hp, -, hne⟩
    exact hp.resolve_left hne
  · intro hp
    exact ⟨Or.inr hp, h.runnable p (Or.inr hp), fun he => h.idle (he ▸ hp)⟩

/-- After `schedule` the processes still share the processor. -/
theorem Sched.Sharing.next {t t' : Tree ν} (h : S.Sharing P t) (hsw : Switched S S' t t')
    (hpool : S'.PoolOk (insert S.idle P) t') (hcurr : S'.curr ∈ insert S.idle P) :
    S'.Sharing P t' := by
  have hrun : ∀ p, S'.Runnable p ↔ S.Runnable p := by
    intro p
    rw [Sched.Runnable, Sched.Runnable, Sched.pcb, hsw.sem, Sched.pcb]
  obtain ⟨-, hfew, -, hidle, hrunnable, hpriority⟩ := h
  rw [← hsw.idle] at hpool hfew hcurr hidle hrunnable
  exact ⟨hpool, hfew, hcurr, hidle, fun p hp => (hrun p).2 (hrunnable p hp),
    hsw.priority ▸ hpriority⟩

/-- **One step** of the kernel is one of the ideal scheduler. -/
theorem Agrees.step (h : Agrees P S I) {l : StrideOp ν} (hl : (kernelStrides P).step S l S') :
    ∃ I', (idealStrides P).step I l I' ∧ Agrees P S' I' := by
  obtain ⟨t, hsh, ho⟩ := h.sharing
  cases l with
  | setPriority priority =>
    obtain rfl := hl
    refine ⟨_, rfl, h.nonempty, ⟨t, ⟨⟨⟨hsh.pool.holds.heap, hsh.pool.holds.num,
      hsh.pool.holds.queued⟩, hsh.pool.mem⟩, hsh.few, hsh.curr, hsh.idle, hsh.runnable,
      fun p hp => ?_⟩, ho⟩, h.stride, ?_, h.curr, h.close⟩
    · by_cases hpc : p = S.curr
      · rw [hpc]
        simp [Sched.setPriority, newPriority_pos]
      · simpa [Sched.setPriority, hpc] using hsh.priority p hp
    · rw [← h.priority, ← h.curr]
      rfl
  | schedule next priority =>
    obtain ⟨rfl, rfl, k, hs⟩ := hl
    obtain ⟨t', hpool', hsw, hcurr'⟩ := hsh.pool.schedule hsh.few hsh.curr (Or.inl rfl)
      (hsh.runnable _ (Or.inl rfl)) hs
    have hready := hsh.ready_eq
    have hw := h.window
    rw [← hready] at hw
    obtain ⟨hpick, -, ho'⟩ := hsw.window hsh.pool hpool' hsh.curr ho hw
    rw [hready] at hpick
    rcases hpick with ⟨hnext, hmin, hstride⟩ | ⟨hempty, -⟩
    · have hleast : ∀ p ∈ P, I.stride S'.curr ≤ I.stride p := by
        intro p hp
        have hle := strideCompFn_le.1 (hmin p hp)
        rw [h.diff_eq hnext hp] at hle
        omega
      have hpriority : S.queue.priority S'.curr = I.priority S'.curr := by rw [h.priority]
      have hpass : bigStride / S.queue.priority S'.curr ≤ bigStride := Nat.div_le_self _ _
      refine ⟨_, ⟨hnext, hleast, hpriority, hsh.priority _ hnext, rfl⟩, h.nonempty,
        ⟨t', hsh.next hsw hpool' hcurr', ho'⟩, fun p hp => ?_, hsw.priority.trans h.priority, rfl,
        fun p hp q hq => ?_⟩
      · rw [hstride]
        dsimp only
        by_cases hpn : p = S'.curr
        · rw [hpn, Function.update_self, Function.update_self, h.stride _ hnext, u32,
            Nat.mod_add_mod]
        · rw [Function.update_of_ne hpn, Function.update_of_ne hpn, h.stride p hp]
      · simp only [update_pass]
        by_cases hpn : S'.curr = p
        · -- the least stride is now ahead by at most one pass
          have hle := hpn ▸ hleast q hq
          rw [StrideOp.pass, if_pos hpn]
          omega
        · have hle := h.close p hp q hq
          rw [StrideOp.pass, if_neg hpn]
          omega
    · exact absurd hempty h.nonempty.ne_empty

/-- In the beginning. -/
theorem Agrees.start (h : (kernelStrides P).init S) :
    ∃ I, (idealStrides P).init I ∧ Agrees P S I := by
  obtain ⟨hne, ⟨t, hsh⟩, hlt, heq⟩ := h
  refine ⟨⟨S.queue.stride, S.queue.priority, S.curr⟩, heq, hne, ⟨t, hsh, ?_⟩,
    fun p hp => (Nat.mod_eq_of_lt (hlt p hp)).symm, rfl, rfl, fun p hp q hq => ?_⟩
  · -- equal strides are in any order
    have hP : ∀ p ∈ t.nodes, p ∈ P := fun p hp => hsh.ready_eq ▸ hsh.pool.subset p hp
    refine Tree.ordered_of_forall fun a ha b hb => ?_
    rw [strideCompFn_le, strideDiff, heq a (hP a ha) b (hP b hb)]
    simp [diff]
  · exact (heq p hp q hq).le.trans (Nat.le_add_right _ _)

/-- **The stride scheduler** is the ideal one: every run of it is a run of the ideal scheduler, so
each pick has the least ideal stride; the strides are the ideal ones modulo `2 ^ 32`; no priority
is `0`; the ideal strides differ by at most `BIG_STRIDE`, and so does what the processes have
been served. -/
theorem stride_refines {ls : List (StrideOp ν)} (h : (kernelStrides P).Run ls S) :
    (∃ I, (idealStrides P).Run ls I ∧
      (∀ p ∈ P, S.queue.stride p = I.stride p % 2 ^ 32) ∧
      ∀ p ∈ P, ∀ q ∈ P, I.stride p ≤ I.stride q + bigStride) ∧
    (∀ p ∈ P, 0 < S.queue.priority p) ∧
    (∀ p ∈ P, ∀ q ∈ P, served p ls ≤ served q ls + bigStride) ∧
    ((∀ priority, .setPriority priority ∉ ls) → ∀ p ∈ P, ∀ q ∈ P,
      picks p ls * (bigStride / S.queue.priority p) ≤
        picks q ls * (bigStride / S.queue.priority q) + bigStride) := by
  obtain ⟨I, hI, hag⟩ := h.simulate (Agrees P) (fun S hS => Agrees.start hS)
    fun S I l S' hag hl => hag.step hl
  have hserved : ∀ p ∈ P, ∀ q ∈ P, served p ls ≤ served q ls + bigStride := by
    intro p hp q hq
    have h1 := hag.close p hp q hq
    have h2 := idealStrides_served hI hp hq
    omega
  obtain ⟨t, hsh, -⟩ := hag.sharing
  refine ⟨⟨I, hI, hag.stride, hag.close⟩, hsh.priority, hserved, fun hls p hp q hq => ?_⟩
  have hconst := idealStrides_priority hI hls
  rw [← hag.priority] at hconst
  rw [← served_eq (hconst p), ← served_eq (hconst q)]
  exact hserved p hp q hq

/-- Three processes, all runnable: `0` is `idle`, `1` has the processor, `2` is in the pool. -/
def twoSharing : Sched Unit ℕ where
  sem := ⟨fun _ => 1, ⟨fun a => a, fun a => a⟩, fun p => ⟨p, waitNone, ()⟩, fun _ => .running,
    fun _ => none⟩
  queue :=
    { runPool := some 2
      pool := ⟨fun _ => none, fun _ => none, fun _ => none⟩
      numProc := 1
      runQueue := fun _ => true
      timeSlice := fun _ => 5
      stride := fun _ => 0
      priority := fun _ => 1
      needReschedule := fun _ => false }
  curr := 1
  idle := 0

theorem twoSharing_init : (kernelStrides {1, 2}).init twoSharing := by
  have hpool : twoSharing.PoolOk (insert 0 {1, 2}) (.single 2) := by
    refine ⟨⟨⟨⟨rfl, rfl, nofun, nofun, trivial, trivial⟩, rfl, List.nodup_singleton 2,
      fun _ _ => rfl⟩, rfl, fun _ _ => rfl⟩, fun p => ?_⟩
    have hrun : twoSharing.Runnable p := rfl
    have hcurr : twoSharing.curr = 1 := rfl
    have hidle : twoSharing.idle = 0 := rfl
    simp only [Tree.nodes_single, List.mem_singleton, Set.mem_insert_iff, Set.mem_singleton_iff,
      hrun, hcurr, hidle, true_and]
    omega
  have hfew : Sched.Few (insert 0 {1, 2}) 0 := by
    intro l hl hP
    have hsub : l ⊆ [1, 2] := by
      intro p hp
      obtain ⟨h1, h2⟩ := hP p hp
      simpa using h1.resolve_left h2
    have hlen := (List.subperm_of_subset hl hsub).length_le
    exact hlen.trans (by decide)
  refine ⟨⟨1, Or.inl rfl⟩, ⟨_, hpool, hfew, Or.inr (Or.inl rfl), ?_, fun _ _ => rfl,
    fun _ _ => one_pos⟩, fun p _ => ?_, fun _ _ _ _ => rfl⟩
  · simp [twoSharing]
  · simp [twoSharing]

/-- Both processes are picked once; in between the first one asks for more. -/
theorem stride_refines_two : ∃ S : Sched Unit ℕ,
    (kernelStrides {1, 2}).Run [.schedule 1 1, .setPriority 3, .schedule 2 1] S ∧
      served 1 [.schedule 1 1, .setPriority 3, .schedule 2 1] ≤
        served 2 [.schedule 1 1, .setPriority 3, .schedule 2 1] + bigStride := by
  obtain ⟨S₁, S₂, h₁, hc₁, h₂, hc₂, hp₂⟩ : ∃ S₁ S₂, twoSharing.schedule 3 = .ok S₁ ∧ S₁.curr = 1 ∧
      (S₁.setPriority 3).schedule 3 = .ok S₂ ∧ S₂.curr = 2 ∧
      (S₁.setPriority 3).queue.priority S₂.curr = 1 := ⟨_, _, rfl, rfl, rfl, rfl, rfl⟩
  have hl₁ : (kernelStrides {1, 2}).step twoSharing (.schedule 1 1) S₁ := ⟨hc₁.symm, rfl, 3, h₁⟩
  have hl₂ : (kernelStrides {1, 2}).step S₁ (.setPriority 3) (S₁.setPriority 3) := rfl
  have hl₃ : (kernelStrides {1, 2}).step (S₁.setPriority 3) (.schedule 2 1) S₂ :=
    ⟨hc₂.symm, hc₂ ▸ hp₂.symm, 3, h₂⟩
  have hr := (((System.Run.start twoSharing_init).step hl₁).step hl₂).step hl₃
  obtain ⟨-, -, hserved, -⟩ := stride_refines hr
  exact ⟨S₂, hr, hserved 1 (Or.inl rfl) 2 (Or.inr rfl)⟩

end GarretOS
