import Mathlib.Data.List.Basic
import Mathlib.Data.List.Pairwise
import Mathlib.Data.Set.BooleanAlgebra
import Mathlib.Order.CompletePartialOrder
import Mathlib.Order.Interval.Set.Basic

/-!
# Lists of spans

Records that stand for half-open intervals `[lo v, hi v)` of a linear order.  A list of them is
*sorted* if each ends before those after it begin; then a point is in at most one of them
(`Sorted.eq_of_mem`), and every search of the list finds that one (`Sorted.find?_eq`).

To see that a list stays sorted when a record is inserted, it is enough to look at the two
neighbours (`Sorted.insert`).  A walk that goes on from the end of each span it meets looks at all
points (`forall_ico_split`).
-/

namespace GarretOS

namespace Spans

open Set

variable {α β : Type*} [LinearOrder α] {lo hi : β → α} {l : List β} {v w : β} {a : α}

/-- The spans are in increasing order and do not overlap. -/
def Sorted (lo hi : β → α) (l : List β) : Prop := l.Pairwise fun v w => hi v ≤ lo w

namespace Sorted

/-- Spans that are not empty begin in increasing order. -/
theorem starts (h : Sorted lo hi l) (hne : ∀ v ∈ l, lo v < hi v) :
    l.Pairwise fun v w => lo v < lo w :=
  h.imp_of_mem fun hv _ hle => lt_of_lt_of_le (hne _ hv) hle

/-- No two spans have a point in common. -/
theorem disjoint (h : Sorted lo hi l) :
    l.Pairwise fun v w => Disjoint (Ico (lo v) (hi v)) (Ico (lo w) (hi w)) := by
  refine h.imp fun {v w} hle => Set.disjoint_left.2 fun a ha ha' => ?_
  exact absurd (lt_of_lt_of_le ha.2 hle) (not_lt.2 ha'.1)

/-- A point is in at most one span. -/
theorem eq_of_mem (h : Sorted lo hi l) (hv : v ∈ l) (hw : w ∈ l) (ha : a ∈ Ico (lo v) (hi v))
    (ha' : a ∈ Ico (lo w) (hi w)) : v = w := by
  have hsymm : Std.Symm fun v w : β => Disjoint (Ico (lo v) (hi v)) (Ico (lo w) (hi w)) :=
    ⟨fun _ _ hd => hd.symm⟩
  by_contra hne
  exact Set.disjoint_left.1 (h.disjoint.forall hv hw hne) ha ha'

/-- A search of the list finds the span that the point is in. -/
theorem find?_eq (h : Sorted lo hi l) {p : β → Bool} (hp : ∀ v, p v = true ↔ a ∈ Ico (lo v) (hi v)) :
    l.find? p = some v ↔ v ∈ l ∧ a ∈ Ico (lo v) (hi v) := by
  constructor
  · intro hf
    exact ⟨List.mem_of_find?_eq_some hf, (hp v).1 (List.find?_some hf)⟩
  · rintro ⟨hv, ha⟩
    cases hf : l.find? p with
    | none => exact absurd ((hp v).2 ha) (by simpa using List.find?_eq_none.1 hf v hv)
    | some w =>
      have hw := (hp w).1 (List.find?_some hf)
      rw [h.eq_of_mem (List.mem_of_find?_eq_some hf) hv hw ha]

/-! ### Inserting a span -/

variable {before after : List β}

/-- Both neighbours of a new span bound it, and so do all spans. -/
theorem insert (h : Sorted lo hi (before ++ after)) (hne : ∀ w ∈ before ++ after, lo w < hi w)
    (hbefore : ∀ w ∈ before.getLast?, hi w ≤ lo v) (hafter : ∀ w ∈ after.head?, hi v ≤ lo w) :
    Sorted lo hi (before ++ v :: after) := by
  obtain ⟨h1, h2, h3⟩ := List.pairwise_append.1 h
  have hb : ∀ w ∈ before, hi w ≤ lo v := by
    intro w hw
    rcases List.eq_nil_or_concat before with rfl | ⟨ws, u, rfl⟩
    · simp at hw
    · rw [List.concat_eq_append] at h1 hw hne hbefore
      have hu : hi u ≤ lo v := hbefore u (by simp)
      rcases List.mem_append.1 hw with hw | hw
      · have hwu := (List.pairwise_append.1 h1).2.2 w hw u (by simp)
        exact hwu.trans ((hne u (by simp)).le.trans hu)
      · rw [List.mem_singleton.1 hw]
        exact hu
  have ha : ∀ w ∈ after, hi v ≤ lo w := by
    intro w hw
    cases after with
    | nil => simp at hw
    | cons u ws =>
      have hu : hi v ≤ lo u := hafter u (by simp)
      rcases List.mem_cons.1 hw with rfl | hw
      · exact hu
      · exact hu.trans ((hne u (by simp)).le.trans ((List.pairwise_cons.1 h2).1 w hw))
  refine List.pairwise_append.2 ⟨h1, List.pairwise_cons.2 ⟨ha, h2⟩, fun x hx y hy => ?_⟩
  rcases List.mem_cons.1 hy with rfl | hy
  · exact hb x hx
  · exact h3 x hx y hy

end Sorted

/-- What holds of every point from `b` on holds of those in the span of `b` and of those after
it. -/
theorem forall_ico_split {b e : α} {P : α → Prop} (hb : b ∈ Ico (lo v) (hi v)) :
    (∀ a ∈ Ico b e, P a) ↔ (∀ a ∈ Ico b e, a < hi v → P a) ∧ ∀ a ∈ Ico (hi v) e, P a := by
  constructor
  · exact fun h => ⟨fun a ha _ => h a ha, fun a ha => h a ⟨hb.2.le.trans ha.1, ha.2⟩⟩
  · rintro ⟨h1, h2⟩ a ha
    rcases lt_or_ge a (hi v) with hlt | hge
    · exact h1 a ha hlt
    · exact h2 a ⟨hge, ha.2⟩

end Spans

end GarretOS
