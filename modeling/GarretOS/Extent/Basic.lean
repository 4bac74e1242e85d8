import Mathlib.Algebra.BigOperators.Group.List.Basic
import Mathlib.Algebra.GroupWithZero.Nat
import Mathlib.Data.Set.Lattice
import Mathlib.Order.CompletePartialOrder
import Mathlib.Order.Interval.Set.Basic

/-!
# Lists of extents

An extent `(p, k)` is the interval of the `k` numbers `p`, ..., `p + k - 1`.  A free list, a list
of memory areas or a disk map is a list of extents in increasing order, no two of which overlap
(`Extents.Sorted`); what it stands for is the set of the numbers it covers (`Extents.cover`).

The operations on such a list are cutting a prefix off one extent (`cover_cut`), inserting an
extent into a gap and joining it with the neighbours it touches (`Extents.insertAt`,
`cover_insertAt`, `sorted_insertAt`).
-/

namespace GarretOS

namespace Extents

open Set

/-- The extents are in increasing order and do not overlap. -/
def Sorted (bs : List (ℕ × ℕ)) : Prop := bs.Pairwise fun a b => a.1 + a.2 ≤ b.1

/-- The numbers an extent stands for. -/
def span (b : ℕ × ℕ) : Set ℕ := Ico b.1 (b.1 + b.2)

/-- The numbers covered by a list of extents. -/
def cover (bs : List (ℕ × ℕ)) : Set ℕ := {i | ∃ b ∈ bs, i ∈ span b}

@[simp] theorem mem_span {b : ℕ × ℕ} {i : ℕ} : i ∈ span b ↔ b.1 ≤ i ∧ i < b.1 + b.2 := Iff.rfl

theorem mem_cover {bs : List (ℕ × ℕ)} {i : ℕ} :
    i ∈ cover bs ↔ ∃ b ∈ bs, b.1 ≤ i ∧ i < b.1 + b.2 := Iff.rfl

@[simp] theorem cover_nil : cover [] = ∅ := by
  ext i; simp [mem_cover]

@[simp] theorem cover_cons (b : ℕ × ℕ) (bs : List (ℕ × ℕ)) :
    cover (b :: bs) = span b ∪ cover bs := by
  ext i; simp [mem_cover]

@[simp] theorem cover_append (as bs : List (ℕ × ℕ)) :
    cover (as ++ bs) = cover as ∪ cover bs := by
  induction as with
  | nil => simp
  | cons a as ih => simp [ih, union_assoc]

/-- Extents that touch cover what their union covers. -/
theorem span_join (p k m : ℕ) : span (p, k + m) = span (p, k) ∪ span (p + k, m) := by
  ext i
  simp only [mem_span, mem_union]
  omega

/-- The sizes of sorted extents between `lo` and `hi` add up to at most `hi - lo`. -/
theorem sum_le {lo hi : ℕ} {bs : List (ℕ × ℕ)} (hs : Sorted bs) (hle : lo ≤ hi)
    (hin : ∀ b ∈ bs, lo ≤ b.1 ∧ b.1 + b.2 ≤ hi) : lo + (bs.map Prod.snd).sum ≤ hi := by
  induction bs generalizing lo with
  | nil => simpa
  | cons b bs ih =>
    obtain ⟨h1, h2⟩ := List.pairwise_cons.1 hs
    obtain ⟨hlo, hhi⟩ := hin b List.mem_cons_self
    have := ih h2 hhi fun c hc =>
      ⟨h1 c hc, (hin c (List.mem_cons_of_mem _ hc)).2⟩
    simp only [List.map_cons, List.sum_cons]
    omega

/-- There are at most as many non-empty extents as numbers they cover. -/
theorem length_le_sum {bs : List (ℕ × ℕ)} (hpos : ∀ b ∈ bs, 0 < b.2) :
    bs.length ≤ (bs.map Prod.snd).sum := by
  induction bs with
  | nil => simp
  | cons b bs ih =>
    have h1 := hpos b List.mem_cons_self
    have h2 := ih fun c hc => hpos c (List.mem_cons_of_mem _ hc)
    simp only [List.length_cons, List.map_cons, List.sum_cons]
    omega

/-- Around one extent: those before it end before it begins, those after it begin after it
ends. -/
theorem sorted_mid {as bs : List (ℕ × ℕ)} {b : ℕ × ℕ} :
    Sorted (as ++ b :: bs) ↔ Sorted (as ++ bs) ∧ (∀ a ∈ as, a.1 + a.2 ≤ b.1) ∧
      ∀ c ∈ bs, b.1 + b.2 ≤ c.1 := by
  simp only [Sorted, List.pairwise_append, List.pairwise_cons, List.mem_cons]
  constructor
  · rintro ⟨h1, ⟨h2, h3⟩, h4⟩
    exact ⟨⟨h1, h3, fun a ha c hc => h4 a ha c (Or.inr hc)⟩, fun a ha => h4 a ha b (Or.inl rfl), h2⟩
  · rintro ⟨⟨h1, h2, h3⟩, h4, h5⟩
    refine ⟨h1, ⟨h5, h2⟩, ?_⟩
    rintro a ha c (rfl | hc)
    · exact h4 a ha
    · exact h3 a ha c hc

/-- Sorted non-empty extents have different, increasing beginnings. -/
theorem sorted_fst {bs : List (ℕ × ℕ)} (hs : Sorted bs) (hpos : ∀ b ∈ bs, 0 < b.2) :
    (bs.map Prod.fst).Pairwise (· < ·) := by
  rw [List.pairwise_map]
  refine hs.imp_of_mem fun {a b} ha _ h => ?_
  have := hpos a ha
  omega

/-- Sorted extents are pairwise disjoint. -/
theorem sorted_disjoint {bs : List (ℕ × ℕ)} (hs : Sorted bs) :
    bs.Pairwise fun a b => Disjoint (span a) (span b) := by
  refine hs.imp fun {a b} h => ?_
  rw [Set.disjoint_left]
  intro i h1 h2
  simp only [mem_span] at h1 h2
  omega

/-! ### Inserting an extent -/

/-- The extent `b` and the one before it, joined if they touch. -/
def joinPrev (as : List (ℕ × ℕ)) (b : ℕ × ℕ) : List (ℕ × ℕ) × (ℕ × ℕ) :=
  match as.getLast? with
  | none => (as, b)
  | some a => if a.1 + a.2 = b.1 then (as.dropLast, (a.1, a.2 + b.2)) else (as, b)

/-- The extent `b` and the one after it, joined if they touch. -/
def joinNext (b : ℕ × ℕ) : List (ℕ × ℕ) → List (ℕ × ℕ)
  | [] => [b]
  | c :: bs => if b.1 + b.2 = c.1 then (b.1, b.2 + c.2) :: bs else b :: c :: bs

/-- Insert `b` between `as` and `bs`, joining it with the neighbours it touches. -/
def insertAt (as : List (ℕ × ℕ)) (b : ℕ × ℕ) (bs : List (ℕ × ℕ)) : List (ℕ × ℕ) :=
  (joinPrev as b).1 ++ joinNext (joinPrev as b).2 bs

theorem joinPrev_nil (b : ℕ × ℕ) : joinPrev [] b = ([], b) := rfl

theorem joinPrev_concat (as : List (ℕ × ℕ)) (a b : ℕ × ℕ) : joinPrev (as ++ [a]) b =
    if a.1 + a.2 = b.1 then (as, (a.1, a.2 + b.2)) else (as ++ [a], b) := by
  simp [joinPrev]

theorem cover_joinPrev (as : List (ℕ × ℕ)) (b : ℕ × ℕ) :
    cover (joinPrev as b).1 ∪ span (joinPrev as b).2 = cover as ∪ span b := by
  rcases List.eq_nil_or_concat as with rfl | ⟨as, a, rfl⟩
  · rfl
  · rw [List.concat_eq_append, joinPrev_concat]
    split_ifs with h
    · have := span_join a.1 a.2 b.2
      rw [h] at this
      simp [this, union_assoc]
    · rfl

theorem cover_joinNext (b : ℕ × ℕ) (bs : List (ℕ × ℕ)) :
    cover (joinNext b bs) = span b ∪ cover bs := by
  cases bs with
  | nil => simp [joinNext]
  | cons c bs =>
    simp only [joinNext]
    split_ifs with h
    · have := span_join b.1 b.2 c.2
      rw [h] at this
      simp [this, union_assoc]
    · simp

/-- Inserting an extent adds its numbers. -/
theorem cover_insertAt (as : List (ℕ × ℕ)) (b : ℕ × ℕ) (bs : List (ℕ × ℕ)) :
    cover (insertAt as b bs) = cover as ∪ span b ∪ cover bs := by
  rw [insertAt, cover_append, cover_joinNext, ← union_assoc, cover_joinPrev]

/-- Cutting the first `n` numbers off an extent takes them out of the cover. -/
theorem cover_cut (as bs : List (ℕ × ℕ)) (p k n : ℕ) (h : n ≤ k) :
    cover (as ++ (p, k) :: bs) = span (p, n) ∪ cover (as ++ (p + n, k - n) :: bs) := by
  have := span_join p n (k - n)
  rw [Nat.add_sub_cancel' h] at this
  simp only [cover_append, cover_cons, this]
  ext i
  simp only [mem_union]
  tauto

end Extents

end GarretOS
