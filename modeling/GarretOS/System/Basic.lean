import Mathlib.Data.List.Basic
import Mathlib.Data.List.Induction

/-!
# Transition systems and their runs

The subsystems of the kernel are studied as transition systems: a set of initial states and a
labelled step relation.  A *run* records the labels of the steps taken since the start, so that
a property may speak about the history (how often an operation was called, with which
arguments), and a *guarded* system keeps only the steps that satisfy a condition on the state
before the step and on its label.

## Main definitions

* `System S L` : initial states and steps `S → L → S → Prop`.
* `System.Run ls s` : the steps `ls`, in this order, lead from an initial state to `s`.
* `System.Reachable s` : some run leads to `s`.
* `System.guard C` : the steps whose state and label satisfy `C`.
* `System.startAt s₀` : the runs that begin in `s₀`.
-/

namespace GarretOS

/-- A transition system with states `S` and labels `L`. -/
structure System (S : Type*) (L : Type*) where
  /-- The states in which a run may begin. -/
  init : S → Prop
  /-- `step s l s'` : the step `l` leads from `s` to `s'`. -/
  step : S → L → S → Prop

namespace System

variable {S L : Type*} (A : System S L)

/-- `A.Run ls s` : taking the steps `ls` in order, from some initial state, leads to `s`. -/
inductive Run : List L → S → Prop
  | start {s : S} : A.init s → Run [] s
  | step {ls : List L} {s s' : S} {l : L} : Run ls s → A.step s l s' → Run (ls ++ [l]) s'

/-- `s` is reached by some run. -/
def Reachable (s : S) : Prop := ∃ ls, A.Run ls s

/-- The steps of `A` whose state before the step and whose label satisfy `C`. -/
def guard (C : S → L → Prop) : System S L where
  init := A.init
  step s l s' := C s l ∧ A.step s l s'

/-- The same steps, from the state `s₀`. -/
def startAt (s₀ : S) : System S L where
  init s := s = s₀
  step := A.step

variable {A}

theorem Reachable.start {s : S} (h : A.init s) : A.Reachable s := ⟨[], .start h⟩

theorem Reachable.step {s s' : S} {l : L} (h : A.Reachable s) (hl : A.step s l s') :
    A.Reachable s' := by
  obtain ⟨ls, hr⟩ := h
  exact ⟨ls ++ [l], hr.step hl⟩

/-- The state before a step of a run, and the one after it. -/
theorem Run.split {l₁ l₂ : List L} {l : L} {s : S} (h : A.Run (l₁ ++ l :: l₂) s) :
    ∃ s₁ s₂, A.Run l₁ s₁ ∧ A.step s₁ l s₂ := by
  induction l₂ using List.reverseRecOn generalizing s with
  | nil =>
    generalize hls : l₁ ++ [l] = ls at h
    cases h with
    | start _ => simp at hls
    | step hr hl =>
      obtain ⟨rfl, rfl⟩ := List.append_singleton_inj.1 hls
      exact ⟨_, _, hr, hl⟩
  | append_singleton l₂ m ih =>
    rw [← List.cons_append, ← List.append_assoc] at h
    generalize hls : l₁ ++ l :: l₂ ++ [m] = ls at h
    cases h with
    | start _ => simp at hls
    | step hr hl =>
      obtain ⟨rfl, rfl⟩ := List.append_singleton_inj.1 hls
      exact ih hr

/-- What holds initially and is kept by every step taken from a reached state holds in every
state a run reaches. -/
theorem Run.invariant {I : S → Prop} {ls : List L} {s : S} (h : A.Run ls s)
    (h₀ : ∀ s, A.init s → I s) (hstep : ∀ s l s', I s → A.step s l s' → I s') : I s := by
  induction h with
  | start h => exact h₀ _ h
  | step _ hl ih => exact hstep _ _ _ ih hl

theorem Reachable.invariant {I : S → Prop} {s : S} (h : A.Reachable s)
    (h₀ : ∀ s, A.init s → I s) (hstep : ∀ s l s', I s → A.step s l s' → I s') : I s := by
  obtain ⟨ls, hr⟩ := h
  exact hr.invariant h₀ hstep

/-- As `Reachable.invariant`, for a property that steps keep in the states that runs reach. -/
theorem Reachable.induct {I : S → Prop} {s : S} (h : A.Reachable s) (h₀ : ∀ s, A.init s → I s)
    (hstep : ∀ s l s', A.Reachable s → I s → A.step s l s' → I s') : I s := by
  obtain ⟨ls, hr⟩ := h
  induction hr with
  | start h => exact h₀ _ h
  | step hr hl ih => exact hstep _ _ _ ⟨_, hr⟩ ih hl

/-- **Simulation**: if every step of `A` is matched by a step of `B` with the same label, then so
is every run. -/
theorem Run.simulate {T : Type*} {B : System T L} (R : S → T → Prop) {ls : List L} {s : S}
    (h : A.Run ls s) (hinit : ∀ s, A.init s → ∃ t, B.init t ∧ R s t)
    (hstep : ∀ s t l s', R s t → A.step s l s' → ∃ t', B.step t l t' ∧ R s' t') :
    ∃ t, B.Run ls t ∧ R s t := by
  induction h with
  | start h =>
    obtain ⟨t, ht, hR⟩ := hinit _ h
    exact ⟨t, .start ht, hR⟩
  | step _ hl ih =>
    obtain ⟨t, ht, hR⟩ := ih
    obtain ⟨t', hl', hR'⟩ := hstep _ _ _ _ hR hl
    exact ⟨t', ht.step hl', hR'⟩

/-- The last step of a run. -/
theorem Run.last {ls : List L} {l : L} {s : S} (h : A.Run (ls ++ [l]) s) :
    ∃ s₁, A.Run ls s₁ ∧ A.step s₁ l s := by
  generalize hls : ls ++ [l] = ls' at h
  cases h with
  | start _ => simp at hls
  | step hr hl =>
    obtain ⟨rfl, rfl⟩ := List.append_singleton_inj.1 hls
    exact ⟨_, hr, hl⟩

/-- A run is a run to a state, and one from there. -/
theorem Run.append {l₁ l₂ : List L} {s : S} (h : A.Run (l₁ ++ l₂) s) :
    ∃ s₁, A.Run l₁ s₁ ∧ (A.startAt s₁).Run l₂ s := by
  induction l₂ using List.reverseRecOn generalizing s with
  | nil => exact ⟨s, by rwa [List.append_nil] at h, .start rfl⟩
  | append_singleton l₂ l ih =>
    rw [← List.append_assoc] at h
    obtain ⟨s', hr, hl⟩ := h.last
    obtain ⟨s₁, h₁, h₂⟩ := ih hr
    exact ⟨s₁, h₁, h₂.step hl⟩

/-- A step from `s`. -/
theorem Run.single {s s' : S} {l : L} (h : A.step s l s') : (A.startAt s).Run [l] s' :=
  Run.step (A := A.startAt s) (.start rfl) h

/-- A run from `s`, and one from the state that it leads to. -/
theorem Run.trans {s s₁ s₂ : S} {l₁ l₂ : List L} (h : (A.startAt s).Run l₁ s₁)
    (h' : (A.startAt s₁).Run l₂ s₂) : (A.startAt s).Run (l₁ ++ l₂) s₂ := by
  induction h' with
  | start hs =>
    obtain rfl := hs
    rwa [List.append_nil]
  | @step ls s' s'' l _ hl ih =>
    rw [← List.append_assoc]
    exact ih.step hl

/-- A run from a reachable state leads to reachable states. -/
theorem Run.of_startAt {s₀ s : S} {ls : List L} (h : (A.startAt s₀).Run ls s)
    (h₀ : A.Reachable s₀) : A.Reachable s := by
  induction h with
  | start hs => exact hs.symm ▸ h₀
  | step _ hl ih => exact ih.step hl

/-! ### Guards -/

theorem Reachable.of_guard {C : S → L → Prop} {s : S} (h : (A.guard C).Reachable s) :
    A.Reachable s := by
  obtain ⟨ls, hr⟩ := h
  induction hr with
  | start h => exact .start h
  | step _ hl ih => exact ih.step hl.2

/-- A weaker guard allows more runs. -/
theorem Reachable.weaken {C D : S → L → Prop} {s : S} (h : (A.guard C).Reachable s)
    (hCD : ∀ s l, C s l → D s l) : (A.guard D).Reachable s := by
  obtain ⟨ls, hr⟩ := h
  induction hr with
  | start h => exact .start h
  | step _ hl ih => exact ih.step ⟨hCD _ _ hl.1, hl.2⟩

end System

end GarretOS
