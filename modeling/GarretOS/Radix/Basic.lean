import Mathlib.Data.List.Induction
import Mathlib.Data.Set.Basic
import Mathlib.Tactic.Common

/-!
# Radix trees in a memory of tables

A radix tree kept in memory is a set of *tables*; the entry of the table `f` at the index `i`
either names another table or is empty: `child f i : Option α`.  A path is a list of indices, and
`walk child r p` is the table that the path `p` leads to from the root `r`.

Several trees may live in the same memory.  They are `Separated` when no table is reached along
two different paths, from one root or from two.  Then the change of one entry is visible only
below that entry:

* `walk_setChild` : the paths that do not pass the entry lead where they led;
* `walk_graft` : a fresh table hung into an empty entry adds one path;
* `walk_leaf` : the entries of the tables at the end of the longest paths do not matter.
-/

namespace GarretOS

namespace Radix

variable {α ι : Type*}

/-- The table that the path leads to. -/
def walk (child : α → ι → Option α) : α → List ι → Option α
  | f, [] => some f
  | f, i :: p => (child f i).bind fun g => walk child g p

variable {child child' : α → ι → Option α}

@[simp] theorem walk_nil (f : α) : walk child f [] = some f := rfl

theorem walk_append (f : α) (p q : List ι) :
    walk child f (p ++ q) = (walk child f p).bind fun g => walk child g q := by
  induction p generalizing f with
  | nil => rfl
  | cons i p ih =>
    simp only [List.cons_append, walk]
    cases child f i with
    | none => rfl
    | some g => exact ih g

theorem walk_concat (f : α) (p : List ι) (i : ι) :
    walk child f (p ++ [i]) = (walk child f p).bind fun g => child g i := by
  rw [walk_append]
  cases walk child f p with
  | none => rfl
  | some g =>
    simp only [Option.bind_some, walk]
    cases child g i <;> rfl

/-- A walk depends only on the entries it passes. -/
theorem walk_congr {f : α} {q : List ι}
    (h : ∀ p i g, (p ++ [i]).IsPrefix q → walk child f p = some g → child' g i = child g i) :
    walk child' f q = walk child f q := by
  induction q using List.reverseRecOn with
  | nil => rfl
  | append_singleton q i ih =>
    have ih := ih fun p j g hp => h p j g (hp.trans (List.prefix_append q [i]))
    rw [walk_concat, walk_concat, ih]
    cases hq : walk child f q with
    | none => rfl
    | some g => exact h q i g (List.prefix_refl _) hq

/-- The paths `P` from the roots `R` all lead to different tables. -/
structure Separated (child : α → ι → Option α) (R : Set α) (P : List ι → Prop) : Prop where
  /-- A prefix of a path is a path. -/
  prefix_closed : ∀ p q, P (p ++ q) → P p
  /-- A table is reached along one path only. -/
  unique : ∀ r ∈ R, ∀ r' ∈ R, ∀ p p' f, P p → P p' → walk child r p = some f →
    walk child r' p' = some f → r = r' ∧ p = p'

section

variable {R : Set α} {P : List ι → Prop}

/-- Trees with fewer tables are separated too. -/
theorem Separated.of_walk (h : Separated child R P)
    (hw : ∀ r ∈ R, ∀ p f, P p → walk child' r p = some f → walk child r p = some f) :
    Separated child' R P :=
  ⟨h.prefix_closed, fun r hr r' hr' p p' f hp hp' h1 h2 =>
    h.unique r hr r' hr' p p' f hp hp' (hw r hr p f hp h1) (hw r' hr' p' f hp' h2)⟩

variable [DecidableEq α] [DecidableEq ι]

/-- Change the entry of the table `f` at the index `i`. -/
def setChild (child : α → ι → Option α) (f : α) (i : ι) (v : Option α) : α → ι → Option α :=
  fun g j => if g = f ∧ j = i then v else child g j

variable {r f : α} {p : List ι} {i : ι} {v : Option α}

/-- Paths that do not pass the changed entry lead where they led. -/
theorem walk_setChild (h : Separated child R P) (hr : r ∈ R) (hp : P p)
    (hf : walk child r p = some f) {r' : α} (hr' : r' ∈ R) {q : List ι} (hq : P q)
    (hne : ¬ (r' = r ∧ (p ++ [i]).IsPrefix q)) :
    walk (setChild child f i v) r' q = walk child r' q := by
  refine walk_congr fun p' j g hp' hg => if_neg ?_
  rintro ⟨rfl, rfl⟩
  obtain ⟨t, rfl⟩ := hp'
  have hPp' : P p' := h.prefix_closed p' ([j] ++ t) (by simpa using hq)
  obtain ⟨rfl, rfl⟩ := h.unique r' hr' r hr p' p g hPp' hp hg hf
  exact hne ⟨rfl, List.prefix_append _ t⟩

/-- Paths through the changed entry continue at the new table. -/
theorem walk_setChild_through (h : Separated child R P) (hr : r ∈ R) (hp : P p)
    (hf : walk child r p = some f) (q : List ι) :
    walk (setChild child f i v) r (p ++ i :: q) =
      v.bind fun g => walk (setChild child f i v) g q := by
  have hwalk : walk (setChild child f i v) r p = some f := by
    rw [walk_setChild h hr hp hf hr hp, hf]
    rintro ⟨-, hpre⟩
    have hlen := hpre.length_le
    simp only [List.length_append, List.length_singleton] at hlen
    omega
  rw [walk_append, hwalk, Option.bind_some, walk, setChild, if_pos ⟨rfl, rfl⟩]

/-- The entries of the tables that end the longest paths lead to no further path. -/
theorem walk_leaf (h : Separated child R P) (hr : r ∈ R) (hp : P p)
    (hf : walk child r p = some f) (hend : ¬ P (p ++ [i])) {r' : α} (hr' : r' ∈ R) {q : List ι}
    (hq : P q) : walk (setChild child f i v) r' q = walk child r' q := by
  refine walk_setChild h hr hp hf hr' hq ?_
  rintro ⟨-, t, rfl⟩
  exact hend (h.prefix_closed _ t hq)

/-- Hanging a fresh empty table into an empty entry. -/
theorem walk_graft (h : Separated child R P) (hr : r ∈ R) (hp : P p)
    (hf : walk child r p = some f) (hi : child f i = none) {n : α} (hnf : n ≠ f)
    (hn : ∀ j, child n j = none) {r' : α} (hr' : r' ∈ R) {q : List ι} (hq : P q) :
    walk (setChild child f i (some n)) r' q =
      if r' = r ∧ q = p ++ [i] then some n else walk child r' q := by
  by_cases hpre : r' = r ∧ (p ++ [i]).IsPrefix q
  · obtain ⟨rfl, t, rfl⟩ := hpre
    have hold : walk child r' (p ++ [i] ++ t) = none := by
      rw [walk_append, walk_concat, hf, Option.bind_some, hi]
      rfl
    have hnew : walk (setChild child f i (some n)) r' (p ++ [i] ++ t) =
        walk (setChild child f i (some n)) n t := by
      rw [List.append_assoc, List.singleton_append, walk_setChild_through h hr hp hf]
      rfl
    rw [hold, hnew]
    cases t with
    | nil => simp
    | cons j t =>
      have hj : setChild child f i (some n) n j = none := by
        rw [setChild, if_neg (fun hc => hnf hc.1), hn]
      simp [walk, hj]
  · have hne : ¬ (r' = r ∧ q = p ++ [i]) := fun hc => hpre ⟨hc.1, hc.2 ▸ List.prefix_refl _⟩
    rw [walk_setChild h hr hp hf hr' hq hpre, if_neg hne]

/-- A fresh table keeps the trees separated. -/
theorem Separated.graft (h : Separated child R P) (hr : r ∈ R) (hp : P p)
    (hf : walk child r p = some f) (hi : child f i = none) {n : α} (hn : ∀ j, child n j = none)
    (hfresh : ∀ r' ∈ R, ∀ q, P q → walk child r' q ≠ some n) :
    Separated (setChild child f i (some n)) R P := by
  have hnf : n ≠ f := by
    rintro rfl
    exact hfresh r hr p hp hf
  refine ⟨h.prefix_closed, fun r₁ hr₁ r₂ hr₂ p₁ p₂ g hp₁ hp₂ h₁ h₂ => ?_⟩
  rw [walk_graft h hr hp hf hi hnf hn hr₁ hp₁] at h₁
  rw [walk_graft h hr hp hf hi hnf hn hr₂ hp₂] at h₂
  split_ifs at h₁ h₂ with hc₁ hc₂ hc₂
  · exact ⟨hc₁.1.trans hc₂.1.symm, hc₁.2.trans hc₂.2.symm⟩
  · obtain rfl := Option.some.inj h₁
    exact absurd h₂ (hfresh r₂ hr₂ p₂ hp₂)
  · obtain rfl := Option.some.inj h₂
    exact absurd h₁ (hfresh r₁ hr₁ p₁ hp₁)
  · exact h.unique r₁ hr₁ r₂ hr₂ p₁ p₂ g hp₁ hp₂ h₁ h₂

end

end Radix

end GarretOS
