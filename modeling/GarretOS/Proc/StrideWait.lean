import GarretOS.Proc.StrideRuns
import Mathlib.Algebra.BigOperators.Group.Finset.Basic
import Mathlib.Algebra.Order.BigOperators.Group.Finset
import Mathlib.Data.Set.Card

/-!
# Waiting for the processor

A process that has been picked waits for the processor until it is picked again.  While it waits,
another process can be picked only as long as its stride is not beyond that of the one that waits;
so the picks of every other process are bounded by the priorities of the two (`stride_waits`), and
the process is picked again after a bounded number of calls of `schedule`.
-/

namespace GarretOS

variable {ν κ : Type} [DecidableEq ν] {P : Set ν} {I I' : Ideal ν} {S : Sched κ ν}
  {ls ls₁ ls₂ : List (StrideOp ν)} {p q : ν} {n m M d c : ℕ}

/-- Since it was picked at the stride `M`, the process `p` waits, with the stride `M + d`; every
pick of another one counts at least `c`. -/
structure Waiting (P : Set ν) (p : ν) (M d c : ℕ) (ls : List (StrideOp ν)) (I : Ideal ν) :
    Prop where
  stride : I.stride p = M + d
  ahead : ∀ q ∈ P, M + picks q ls * c ≤ I.stride q
  few : ∀ q ∈ P, (picks q ls - 1) * c ≤ d

theorem picks_concat_schedule (q next : ν) (n : ℕ) :
    picks q (ls ++ [.schedule next n]) = picks q ls + if next = q then 1 else 0 := by
  simp [picks]

theorem picks_concat_setPriority (q : ν) (n : ℕ) :
    picks q (ls ++ [.setPriority n]) = picks q ls := by
  simp [picks]

/-- It has just been picked. -/
theorem Waiting.start (hl : (idealStrides P).step I (.schedule p n) I') (c : ℕ) :
    Waiting P p (I.stride p) (bigStride / n) c [] I' := by
  obtain ⟨-, hmin, -, -, rfl⟩ := hl
  refine ⟨Function.update_self .., fun q hq => ?_, fun q _ => by simp [picks]⟩
  have hle := hmin q hq
  have hpass := update_pass I.stride p q n
  simp only [picks, List.countP_nil, Nat.zero_mul, Nat.add_zero]
  omega

/-- **Another process is picked** only while its stride is not beyond `M + d`. -/
theorem Waiting.step (h : Waiting P p M d c ls I) (hp : p ∈ P) {l : StrideOp ν}
    (hl : (idealStrides P).step I l I') (hne : ∀ k, l ≠ .schedule p k)
    (hc : ∀ q k, l = .schedule q k → c ≤ bigStride / k) : Waiting P p M d c (ls ++ [l]) I' := by
  cases l with
  | setPriority k =>
    obtain rfl := hl
    refine ⟨h.stride, fun q hq => ?_, fun q hq => ?_⟩
    · rw [picks_concat_setPriority]
      exact h.ahead q hq
    · rw [picks_concat_setPriority]
      exact h.few q hq
  | schedule next k =>
    obtain ⟨hnext, hmin, -, -, rfl⟩ := hl
    have hnp : next ≠ p := fun he => hne k (by rw [he])
    have hpass := hc next k rfl
    refine ⟨by rw [← h.stride]; exact Function.update_of_ne hnp.symm .., fun q hq => ?_,
      fun q hq => ?_⟩
    · have hq' := h.ahead q hq
      rw [picks_concat_schedule]
      simp only [update_pass, StrideOp.pass]
      split_ifs
      · rw [Nat.add_mul]
        omega
      · omega
    · rw [picks_concat_schedule]
      split_ifs with hnq
      · -- before it is picked, its stride is not beyond the one of `p`
        subst hnq
        have h1 := h.ahead next hnext
        have h2 := hmin p hp
        rw [h.stride] at h2
        rw [Nat.add_sub_cancel]
        omega
      · exact h.few q hq

/-- A run of steps that do not pick `p`. -/
theorem Waiting.run {I₀ : Ideal ν} (h : Waiting P p M d c [] I₀) (hp : p ∈ P)
    (hrun : ((idealStrides P).startAt I₀).Run ls I) (hne : ∀ k, .schedule p k ∉ ls)
    (hc : ∀ q k, .schedule q k ∈ ls → c ≤ bigStride / k) : Waiting P p M d c ls I := by
  induction hrun with
  | start hI =>
    obtain rfl := hI
    exact h
  | step _ hl ih =>
    refine (ih (fun k hm => hne k (List.mem_append_left _ hm)) fun q k hm =>
      hc q k (List.mem_append_left _ hm)).step hp hl (fun k he => ?_) fun q k he => ?_
    · exact hne k (by simp [he])
    · exact hc q k (by simp [he])

omit [DecidableEq ν] in
/-- There are only finitely many processes. -/
theorem Sched.Few.finite {idle : ν} (h : Sched.Few (insert idle P) idle) (hidle : idle ∉ P) :
    P.Finite := by
  by_contra hinf
  obtain ⟨T, hT, hcard⟩ := Set.Infinite.exists_subset_card_eq hinf (maxProcess + 2)
  have hle := h T.toList T.nodup_toList fun p hp => by
    have hpP := hT (Finset.mem_toList.1 hp)
    exact ⟨Or.inr hpP, fun he => hidle (he ▸ hpP)⟩
  rw [Finset.length_toList, hcard] at hle
  omega

end GarretOS
