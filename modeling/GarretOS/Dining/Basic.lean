import Mathlib.Logic.Function.Basic
import Mathlib.Data.Set.Insert

/-!
# Neighbours that exclude each other

A set of parties, each of which has a left and a right neighbour and a flag that says whether it
is thinking, hungry or eating.  A party may eat only while neither neighbour does (`tryEat`).

* `Apart` : no two neighbours eat;
* `Served flag S` : every hungry party outside of `S` has a neighbour that eats, so that it is kept
  waiting for a reason; `S` are the parties that still have to be looked at.

Both are kept by the three changes of a flag: getting hungry, trying to eat, and stopping to eat.
-/

namespace GarretOS

/-- The flag of a party. -/
inductive Appetite where
  | thinking
  | hungry
  | eating
  deriving DecidableEq, Repr

/-- The neighbours of each party. -/
structure Neighbours (P : Type*) where
  left : P → P
  right : P → P
  left_right : ∀ p, left (right p) = p
  right_left : ∀ p, right (left p) = p
  right_ne : ∀ p, right p ≠ p

namespace Neighbours

variable {P : Type*} (N : Neighbours P) {flag : P → Appetite} {S : Set P} {p q : P}

/-- `p` is hungry, and neither neighbour eats. -/
def CanEat (flag : P → Appetite) (p : P) : Prop :=
  flag p = .hungry ∧ flag (N.left p) ≠ .eating ∧ flag (N.right p) ≠ .eating

instance (flag : P → Appetite) (p : P) : Decidable (N.CanEat flag p) :=
  inferInstanceAs (Decidable (_ ∧ _))

/-- No two neighbours eat. -/
def Apart (flag : P → Appetite) : Prop := ∀ p, flag p = .eating → flag (N.right p) ≠ .eating

/-- Every hungry party outside of `S` has a neighbour that eats. -/
def Served (flag : P → Appetite) (S : Set P) : Prop :=
  ∀ p, flag p = .hungry → p ∉ S → flag (N.left p) = .eating ∨ flag (N.right p) = .eating

variable {N}

theorem left_ne (p : P) : N.left p ≠ p := by
  intro h
  have := N.right_left p
  rw [h] at this
  exact N.right_ne p this

theorem Apart.left (h : N.Apart flag) (hp : flag p = .eating) : flag (N.left p) ≠ .eating := by
  intro hl
  have := h _ hl
  rw [N.right_left] at this
  exact this hp

theorem Served.mono {T : Set P} (h : N.Served flag S) (hST : S ⊆ T) : N.Served flag T :=
  fun p hp hpT => h p hp fun hS => hpT (hST hS)

variable [DecidableEq P] (N)

/-- `p` eats if it can. -/
def tryEat (flag : P → Appetite) (p : P) : P → Appetite :=
  if N.CanEat flag p then Function.update flag p .eating else flag

variable {N}

theorem tryEat_of_ne (hq : q ≠ p) : N.tryEat flag p q = flag q := by
  unfold tryEat
  split_ifs
  · exact Function.update_of_ne hq _ _
  · rfl

theorem tryEat_eating (hq : flag q = .eating) : N.tryEat flag p q = .eating := by
  by_cases hqp : q = p
  · subst hqp
    rw [tryEat, if_neg, hq]
    rintro ⟨hh, -⟩
    rw [hq] at hh
    cases hh
  · rw [tryEat_of_ne hqp, hq]

/-! ### Exclusion -/

/-- A flag other than `eating` does no harm. -/
theorem Apart.update {a : Appetite} (h : N.Apart flag) (ha : a ≠ .eating) :
    N.Apart (Function.update flag p a) := by
  intro q hq
  have hqp : q ≠ p := by
    rintro rfl
    rw [Function.update_self] at hq
    exact ha hq
  rw [Function.update_of_ne hqp] at hq
  by_cases hr : N.right q = p
  · rw [hr, Function.update_self]
    exact ha
  · rw [Function.update_of_ne hr]
    exact h q hq

theorem Apart.tryEat (h : N.Apart flag) : N.Apart (N.tryEat flag p) := by
  unfold Neighbours.tryEat
  split_ifs with hcan
  · obtain ⟨-, hl, hr⟩ := hcan
    intro q hq
    by_cases hqp : q = p
    · subst hqp
      rw [Function.update_of_ne (N.right_ne q)]
      exact hr
    · rw [Function.update_of_ne hqp] at hq
      -- the left neighbour of `p` does not eat
      have hrq : N.right q ≠ p := by
        rintro rfl
        rw [N.left_right] at hl
        exact hl hq
      rw [Function.update_of_ne hrq]
      exact h q hq
  · exact h

/-! ### Nobody is forgotten -/

/-- A party that gets hungry has to be looked at. -/
theorem Served.hungry (h : N.Served flag S) (hp : flag p ≠ .eating) :
    N.Served (Function.update flag p .hungry) (insert p S) := by
  intro q hq hqS
  rw [Set.mem_insert_iff, not_or] at hqS
  rw [Function.update_of_ne hqS.1] at hq
  rcases h q hq hqS.2 with hl | hr
  · have hne : N.left q ≠ p := by
      rintro rfl
      exact hp hl
    exact Or.inl (by rw [Function.update_of_ne hne, hl])
  · have hne : N.right q ≠ p := by
      rintro rfl
      exact hp hr
    exact Or.inr (by rw [Function.update_of_ne hne, hr])

/-- When a party stops eating, its neighbours have to be looked at. -/
theorem Served.thinking (h : N.Served flag S) :
    N.Served (Function.update flag p .thinking) (insert (N.left p) (insert (N.right p) S)) := by
  intro q hq hqS
  simp only [Set.mem_insert_iff, not_or] at hqS
  obtain ⟨hql, hqr, hqS⟩ := hqS
  have hqp : q ≠ p := by
    rintro rfl
    rw [Function.update_self] at hq
    cases hq
  rw [Function.update_of_ne hqp] at hq
  have hl : N.left q ≠ p := fun he => hqr (by rw [← he, N.right_left])
  have hr : N.right q ≠ p := fun he => hql (by rw [← he, N.left_right])
  rw [Function.update_of_ne hl, Function.update_of_ne hr]
  exact h q hq hqS

/-- A party that has tried to eat need not be looked at any more. -/
theorem Served.tryEat (h : N.Served flag S) : N.Served (N.tryEat flag p) (S \ {p}) := by
  intro q hq hqS
  by_cases hqp : q = p
  · subst hqp
    by_cases hcan : N.CanEat flag q
    · rw [Neighbours.tryEat, if_pos hcan, Function.update_self] at hq
      cases hq
    · rw [Neighbours.tryEat, if_neg hcan] at hq ⊢
      by_contra hne
      rw [not_or] at hne
      exact hcan ⟨hq, hne⟩
  · rw [tryEat_of_ne hqp] at hq
    rcases h q hq (fun hS => hqS ⟨hS, hqp⟩) with hl | hr
    · exact Or.inl (tryEat_eating hl)
    · exact Or.inr (tryEat_eating hr)

end Neighbours

end GarretOS
