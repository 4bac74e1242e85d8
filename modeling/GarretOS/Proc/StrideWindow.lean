import GarretOS.Proc.HeapRuns
import GarretOS.Proc.RunPool
import GarretOS.Serial.Basic

/-!
# The window of the strides

Strides are serial numbers, so `stride_comp_fn` is an order on processes whose strides are pairwise
within `BIG_STRIDE` (`InWindow`).  The strides of the processes that are ready, the running one
included, stay in this window when `schedule` advances the least of them
(`Switched.window`).
-/

namespace GarretOS

open Serial TreeLinks

variable {ν : Type} {stride : ν → ℕ} {N M : Set ν}

/-- The difference of two strides, as an `i32`. -/
def strideDiff (stride : ν → ℕ) (a b : ν) : ℤ := diff (2 ^ 32) (stride a) (stride b)

/-- The strides differ by at most `BIG_STRIDE`. -/
def InWindow (stride : ν → ℕ) (N : Set ν) : Prop :=
  ∀ a ∈ N, ∀ b ∈ N, Near (2 ^ 32) bigStride (stride a) (stride b)

theorem strideCompFn_eq (stride : ν → ℕ) (a b : ν) :
    strideCompFn stride a b = (strideDiff stride a b).sign := by
  obtain ⟨d, hd⟩ : ∃ d, d = strideDiff stride a b := ⟨_, rfl⟩
  rw [← hd]
  have hcomp : strideCompFn stride a b = (if 0 < d then 1 else 0) - (if d < 0 then 1 else 0) := by
    rw [hd]
    rfl
  rw [hcomp]
  rcases Int.lt_trichotomy d 0 with h | h | h
  · rw [Int.sign_eq_neg_one_of_neg h, if_neg (by omega), if_pos h]
    rfl
  · rw [h]
    rfl
  · rw [Int.sign_eq_one_of_pos h, if_pos h, if_neg (by omega)]
    rfl

theorem strideCompFn_le {a b : ν} : strideCompFn stride a b ≤ 0 ↔ strideDiff stride a b ≤ 0 := by
  rw [strideCompFn_eq, Int.sign_nonpos_iff]

theorem InWindow.mono (h : InWindow stride N) (hM : M ⊆ N) : InWindow stride M :=
  fun a ha b hb => h a (hM ha) b (hM hb)

/-- **In the window** the comparison is an order. -/
theorem InWindow.isComparison (h : InWindow stride N) : IsComparison (strideCompFn stride) N where
  values a ha b hb := by
    rw [strideCompFn_eq]
    rcases Int.lt_trichotomy (strideDiff stride a b) 0 with hd | hd | hd
    · exact Or.inl (Int.sign_eq_neg_one_of_neg hd)
    · exact Or.inr (Or.inl (by rw [hd]; rfl))
    · exact Or.inr (Or.inr (Int.sign_eq_one_of_pos hd))
  swap a ha b hb := by
    have hw : 2 * (bigStride : ℤ) < (2 ^ 32 : ℕ) := by decide
    rw [strideCompFn_eq, strideCompFn_eq, ← Int.sign_neg, strideDiff, (h a ha b hb).diff_comm hw]
    rfl
  trans a ha b hb c hc := by
    have hw : 3 * (bigStride : ℤ) < (2 ^ 32 : ℕ) := by decide
    have hadd : strideDiff stride a c = strideDiff stride a b + strideDiff stride b c :=
      diff_add hw (h a ha b hb) (h b hb c hc) (h a ha c hc)
    simp only [strideCompFn_le]
    omega

/-- **A least process advances** by at most `BIG_STRIDE`. -/
theorem InWindow.advance [DecidableEq ν] (h : InWindow stride N) {p : ν} (hp : p ∈ N)
    (hle : ∀ b ∈ N, strideCompFn stride p b ≤ 0) {d : ℕ} (hd : d ≤ bigStride) :
    InWindow (Function.update stride p (u32 (stride p + d))) N := by
  have hw : 2 * (bigStride : ℤ) < (2 ^ 32 : ℕ) := by decide
  have hnear : ∀ b ∈ N, Near (2 ^ 32) bigStride (u32 (stride p + d) : ℕ) (stride b) := by
    intro b hb
    have hpb : strideDiff stride p b ≤ 0 := strideCompFn_le.1 (hle b hb)
    have hadv := (h p hp b hb).advance hw hpb (Int.natCast_nonneg d) (by exact_mod_cast hd)
    have hcast : ((u32 (stride p + d) : ℕ) : ℤ) = (stride p + d : ℤ) % (2 ^ 32 : ℕ) := by
      rw [u32, Int.natCast_mod, Int.natCast_add]
    obtain ⟨h1, h2⟩ := h p hp b hb
    change diff (2 ^ 32) (stride p) (stride b) ≤ 0 at hpb
    rw [hcast, Near, diff_emod_left, hadv]
    have : (d : ℤ) ≤ bigStride := by exact_mod_cast hd
    exact ⟨by omega, by omega⟩
  intro a ha b hb
  by_cases hap : a = p
  · rw [hap, Function.update_self]
    by_cases hbp : b = p
    · rw [hbp, Function.update_self]
      exact near_self (by decide) _
    · rw [Function.update_of_ne hbp]
      exact hnear b hb
  · rw [Function.update_of_ne hap]
    by_cases hbp : b = p
    · rw [hbp, Function.update_self]
      exact (hnear a ha).symm hw
    · rw [Function.update_of_ne hbp]
      exact h a ha b hb

namespace Sched

variable {κ : Type} [DecidableEq ν] {S S' : Sched κ ν} {U : Set ν} {t t' : Tree ν}

/-- The processes that have the processor or wait for it. -/
def Ready (S : Sched κ ν) (U : Set ν) : Set ν := {p | p ∈ U ∧ S.Runnable p ∧ p ≠ S.idle}

/-- No process in the pool comes before its parent. -/
def PoolOrdered (S : Sched κ ν) (t : Tree ν) : Prop :=
  t.Ordered fun a b => strideCompFn S.queue.stride a b ≤ 0

omit [DecidableEq ν] in
theorem PoolOk.subset (h : S.PoolOk U t) : ∀ p ∈ t.nodes, p ∈ S.Ready U := fun p hp => by
  obtain ⟨h1, h2, -, h3⟩ := (h.mem p).1 hp
  exact ⟨h1, h2, h3⟩

omit [DecidableEq ν] in
/-- The pool after the running process has gone back into it. -/
theorem PoolOk.requeued (h : S.PoolOk U t) (hcurr : S.curr ∈ U)
    (ho : S.PoolOrdered t) (hw : InWindow S.queue.stride (S.Ready U)) {t₁ : Tree ν}
    (ht₁ : t₁ = t ∨ t₁ = t.merge S.queue.first (.single S.curr) ∧ S.Runnable S.curr ∧
      S.curr ≠ S.idle) : (∀ p ∈ t₁.nodes, p ∈ S.Ready U) ∧ S.PoolOrdered t₁ := by
  rcases ht₁ with rfl | ⟨rfl, hrun, hidle⟩
  · exact ⟨h.subset, ho⟩
  · have hsingle : ∀ p ∈ (Tree.single S.curr).nodes, p ∈ S.Ready U := by
      intro p hp
      rw [Tree.nodes_single, List.mem_singleton] at hp
      exact hp ▸ ⟨hcurr, hrun, hidle⟩
    refine ⟨fun p hp => ?_, hw.isComparison.merge h.subset hsingle ho (Tree.ordered_single _)⟩
    rcases Tree.mem_merge.1 hp with hp | hp
    · exact h.subset p hp
    · exact hsingle p hp

/-- **`schedule`** picks a least ready process, and keeps the window and the heap order. -/
theorem Switched.window (hsw : Switched S S' t t') (h : S.PoolOk U t) (h' : S'.PoolOk U t')
    (hcurr : S.curr ∈ U) (ho : S.PoolOrdered t)
    (hw : InWindow S.queue.stride (S.Ready U)) :
    (S'.curr ∈ S.Ready U ∧ (∀ b ∈ S.Ready U, strideCompFn S.queue.stride S'.curr b ≤ 0) ∧
        S'.queue.stride = Function.update S.queue.stride S'.curr
          (u32 (S.queue.stride S'.curr + bigStride / S.queue.priority S'.curr)) ∨
      S.Ready U = ∅ ∧ S'.curr = S.idle ∧ S'.queue.stride = S.queue.stride) ∧
    InWindow S'.queue.stride (S.Ready U) ∧ S'.PoolOrdered t' := by
  have hready : ∀ p, p ∈ S.Ready U → p = S'.curr ∨ p ∈ t'.nodes := by
    rintro p ⟨h1, h2, h3⟩
    by_cases hp : p = S'.curr
    · exact Or.inl hp
    · refine Or.inr ((h'.mem p).2 ⟨h1, ?_, hp, hsw.idle ▸ h3⟩)
      rw [Runnable, pcb, hsw.sem]
      exact h2
  obtain ⟨t₁, ht₁, hpick⟩ := hsw.pick
  obtain ⟨hsub, ho₁⟩ := h.requeued hcurr ho hw ht₁
  rcases hpick with ⟨rfl, rfl, hidle, hstride⟩ | ⟨l, r, rfl, rfl, hstride⟩
  · have hempty : S.Ready U = ∅ := by
      refine Set.eq_empty_of_forall_notMem fun p hp => ?_
      rcases hready p hp with rfl | hp'
      · exact hp.2.2 hidle
      · cases hp'
    refine ⟨Or.inr ⟨hempty, hidle, hstride⟩, ?_, trivial⟩
    rw [hempty]
    exact fun a ha => absurd ha (Set.notMem_empty a)
  · have hnext := hsub S'.curr (by simp)
    have hl : ∀ p ∈ l.nodes, p ∈ S.Ready U := fun p hp => hsub p (by simp [hp])
    have hr : ∀ p ∈ r.nodes, p ∈ S.Ready U := fun p hp => hsub p (by simp [hp])
    have hmin : ∀ b ∈ S.Ready U, strideCompFn S.queue.stride S'.curr b ≤ 0 := by
      have hroot := hw.isComparison.root_le hsub ho₁ (a := S'.curr) rfl
      intro b hb
      refine hroot b ?_
      rcases hready b hb with rfl | hb
      · simp
      · rw [Tree.mem_merge] at hb
        simpa using Or.inr hb
    have hw' : InWindow S'.queue.stride (S.Ready U) := by
      rw [hstride]
      exact hw.advance hnext hmin (Nat.div_le_self _ _)
    refine ⟨Or.inl ⟨hnext, hmin, hstride⟩, hw', ?_⟩
    -- the strides in the two subtrees have not changed
    have hkeep : ∀ u : Tree ν, (∀ p ∈ u.nodes, p ∈ (l.merge S'.queue.first r).nodes) →
        S.PoolOrdered u → S'.PoolOrdered u := by
      intro u hu hou
      refine Tree.Ordered.mono hou fun a ha b hb hab => ?_
      have hne : ∀ p ∈ u.nodes, p ≠ S'.curr := fun p hp =>
        ((h'.mem p).1 (hu p hp)).2.2.1
      rw [strideCompFn_le, strideDiff] at hab ⊢
      rwa [hstride, Function.update_of_ne (hne a ha), Function.update_of_ne (hne b hb)]
    obtain ⟨-, -, hol, hor⟩ := ho₁
    exact hw'.isComparison.merge hl hr (hkeep l (fun p hp => Tree.mem_merge.2 (Or.inl hp)) hol)
      (hkeep r (fun p hp => Tree.mem_merge.2 (Or.inr hp)) hor)

end Sched

end GarretOS
