import GarretOS.Extent.Basic
import Mathlib.Data.List.Sort

/-!
# Maximal runs

`Runs F bs` says that the extents `bs` are the maximal runs of consecutive numbers of the set
`F`, in increasing order: neighbouring extents do not touch.  A set has at most one such list
(`Runs.unique`), so whatever keeps a list of extents in this form has a state that depends only
on the set it stands for.

* `Runs.mem_iff` : the extents are exactly the maximal runs;
* `Runs.cut` : cutting a prefix off one run leaves the runs of the rest;
* `Runs.insert` : inserting an extent and joining it with the neighbours it touches yields the
  runs of the union.
-/

namespace GarretOS

namespace Extents

open Set

/-- The extent `b` is a maximal run of consecutive numbers of `F`. -/
structure IsRun (F : Set ℕ) (b : ℕ × ℕ) : Prop where
  pos : 0 < b.2
  subset : span b ⊆ F
  /-- It does not go on to the left. -/
  left : ∀ i, i + 1 = b.1 → i ∉ F
  /-- It does not go on to the right. -/
  right : b.1 + b.2 ∉ F

/-- The extents are the maximal runs of `F`, in increasing order. -/
structure Runs (F : Set ℕ) (bs : List (ℕ × ℕ)) : Prop where
  cover : cover bs = F
  pos : ∀ b ∈ bs, 0 < b.2
  /-- Between two extents there is a gap. -/
  apart : bs.Pairwise fun a b => a.1 + a.2 < b.1

/-- Around one extent, there is a gap on both sides. -/
theorem apart_mid {as bs : List (ℕ × ℕ)} {b : ℕ × ℕ} :
    (as ++ b :: bs).Pairwise (fun a b => a.1 + a.2 < b.1) ↔
      (as ++ bs).Pairwise (fun a b => a.1 + a.2 < b.1) ∧ (∀ a ∈ as, a.1 + a.2 < b.1) ∧
        ∀ c ∈ bs, b.1 + b.2 < c.1 := by
  simp only [List.pairwise_append, List.pairwise_cons, List.mem_cons]
  constructor
  · rintro ⟨h1, ⟨h2, h3⟩, h4⟩
    exact ⟨⟨h1, h3, fun a ha c hc => h4 a ha c (Or.inr hc)⟩, fun a ha => h4 a ha b (Or.inl rfl), h2⟩
  · rintro ⟨⟨h1, h2, h3⟩, h4, h5⟩
    refine ⟨h1, ⟨h5, h2⟩, ?_⟩
    rintro a ha c (rfl | hc)
    · exact h4 a ha
    · exact h3 a ha c hc

/-- After joining with the extent before it, there is a gap to the left. -/
theorem joinPrev_gap {as : List (ℕ × ℕ)} {b : ℕ × ℕ} (hbefore : ∀ a ∈ as, a.1 + a.2 ≤ b.1)
    (has : as.Pairwise fun a b => a.1 + a.2 < b.1) :
    (joinPrev as b).1.Sublist as ∧ (∀ a ∈ (joinPrev as b).1, a.1 + a.2 < (joinPrev as b).2.1) ∧
      (joinPrev as b).2.1 + (joinPrev as b).2.2 = b.1 + b.2 ∧ b.2 ≤ (joinPrev as b).2.2 := by
  rcases List.eq_nil_or_concat as with rfl | ⟨as, a, rfl⟩
  · simp [joinPrev_nil]
  · rw [List.concat_eq_append] at has hbefore ⊢
    obtain ⟨-, -, hlast⟩ := List.pairwise_append.1 has
    have ha := hbefore a (by simp)
    rw [joinPrev_concat]
    split_ifs with hc
    · refine ⟨by simp, fun d hd => hlast d hd a (by simp), ?_, ?_⟩
      · simp only
        omega
      · simp only
        omega
    · refine ⟨List.Sublist.refl _, fun d hd => ?_, rfl, le_rfl⟩
      show d.1 + d.2 < b.1
      rcases List.mem_append.1 hd with hm | hm
      · have := hlast d hm a (by simp)
        omega
      · obtain rfl := List.mem_singleton.1 hm
        omega

/-- After joining with the extent after it, there is a gap on both sides. -/
theorem joinNext_apart {as bs : List (ℕ × ℕ)} {b : ℕ × ℕ}
    (h : (as ++ bs).Pairwise fun a b => a.1 + a.2 < b.1) (hgap : ∀ a ∈ as, a.1 + a.2 < b.1)
    (hafter : ∀ c ∈ bs, b.1 + b.2 ≤ c.1) :
    (as ++ joinNext b bs).Pairwise fun a b => a.1 + a.2 < b.1 := by
  cases bs with
  | nil => exact apart_mid.2 ⟨h, hgap, by simp⟩
  | cons c bs =>
    obtain ⟨hrest, -, hc⟩ := apart_mid.1 h
    have hbc := hafter c List.mem_cons_self
    simp only [joinNext]
    split_ifs with he
    · refine apart_mid.2 ⟨hrest, hgap, fun d hd => ?_⟩
      have := hc d hd
      simp only
      omega
    · refine apart_mid.2 ⟨h, hgap, fun d hd => ?_⟩
      rcases List.mem_cons.1 hd with rfl | hm
      · omega
      · have := hc d hm
        omega

theorem joinNext_pos {bs : List (ℕ × ℕ)} {b : ℕ × ℕ} (hb : 0 < b.2) (h : ∀ c ∈ bs, 0 < c.2) :
    ∀ c ∈ joinNext b bs, 0 < c.2 := by
  cases bs with
  | nil => simpa [joinNext] using hb
  | cons c bs =>
    intro d hd
    simp only [joinNext] at hd
    split_ifs at hd with he
    · rcases List.mem_cons.1 hd with rfl | hm
      · simp only
        omega
      · exact h d (List.mem_cons_of_mem _ hm)
    · rcases List.mem_cons.1 hd with rfl | hm
      · exact hb
      · exact h d hm

namespace Runs

variable {F G : Set ℕ} {as bs cs : List (ℕ × ℕ)} {b : ℕ × ℕ}

theorem sorted (h : Runs F bs) : Sorted bs := h.apart.imp fun h => h.le

/-- Different extents are separated by a gap. -/
theorem gap (h : Runs F bs) {c : ℕ × ℕ} (hb : b ∈ bs) (hc : c ∈ bs) (hbc : b ≠ c) :
    b.1 + b.2 < c.1 ∨ c.1 + c.2 < b.1 := by
  obtain ⟨as, cs, rfl⟩ := List.append_of_mem hb
  obtain ⟨-, hbefore, hafter⟩ := apart_mid.1 h.apart
  rcases List.mem_append.1 hc with hm | hm
  · exact Or.inr (hbefore c hm)
  · rcases List.mem_cons.1 hm with rfl | hm
    · exact absurd rfl hbc
    · exact Or.inl (hafter c hm)

theorem isRun (h : Runs F bs) (hb : b ∈ bs) : IsRun F b := by
  have hpos := h.pos b hb
  refine ⟨hpos, fun i hi => h.cover ▸ ⟨b, hb, hi⟩, fun i hi hF => ?_, fun hF => ?_⟩
  · obtain ⟨c, hc, h1, h2⟩ := h.cover ▸ hF
    have hne : b ≠ c := by rintro rfl; omega
    have hposc := h.pos c hc
    rcases h.gap hb hc hne with h3 | h3
    · omega
    · omega
  · obtain ⟨c, hc, h1, h2⟩ := h.cover ▸ hF
    have hne : b ≠ c := by rintro rfl; omega
    rcases h.gap hb hc hne with h3 | h3
    · omega
    · omega

/-- **The extents are exactly the maximal runs.** -/
theorem mem_iff (h : Runs F bs) : b ∈ bs ↔ IsRun F b := by
  refine ⟨h.isRun, fun hb => ?_⟩
  have hfirst : b.1 ∈ F := hb.subset ⟨le_rfl, by have := hb.pos; omega⟩
  obtain ⟨c, hc, h1, h2⟩ := h.cover ▸ hfirst
  have hrun := h.isRun hc
  -- the run that holds the first number of `b` begins there, and ends where `b` ends
  have hbegin : c.1 = b.1 := by
    by_contra hne
    exact hb.left (b.1 - 1) (by omega) (hrun.subset ⟨by omega, by omega⟩)
  have hend : c.2 = b.2 := by
    by_contra hne
    rcases Nat.lt_or_gt_of_ne hne with hlt | hlt
    · exact hrun.right (hb.subset ⟨by omega, by omega⟩)
    · exact hb.right (hrun.subset ⟨by omega, by omega⟩)
  rwa [← Prod.ext hbegin hend]

/-- A set has `n` consecutive numbers just when one of its runs is that long. -/
theorem exists_ge_iff (h : Runs F bs) {n : ℕ} (hn : 0 < n) :
    (∃ b ∈ bs, n ≤ b.2) ↔ ∃ p, Ico p (p + n) ⊆ F := by
  constructor
  · rintro ⟨b, hb, hnb⟩
    refine ⟨b.1, fun i hi => (h.isRun hb).subset ⟨hi.1, lt_of_lt_of_le hi.2 ?_⟩⟩
    omega
  · rintro ⟨p, hp⟩
    obtain ⟨b, hb, h1, h2⟩ := h.cover ▸ hp ⟨le_rfl, by omega⟩
    refine ⟨b, hb, ?_⟩
    -- the end of the run that holds `p` is not in the set
    by_contra hlt
    exact (h.isRun hb).right (hp ⟨by omega, by omega⟩)

/-- **A set has one list of maximal runs.** -/
theorem unique (h : Runs F as) (h' : Runs F bs) : as = bs := by
  let r : ℕ × ℕ → ℕ × ℕ → Prop := fun a b => a.1 + a.2 < b.1
  have : Std.Irrefl r := ⟨fun a ha => by simp only [r] at ha; omega⟩
  have : Std.Antisymm r := ⟨fun a b ha hb => by simp only [r] at ha hb; omega⟩
  exact List.Pairwise.eq_of_mem_iff (r := r) h.apart h'.apart fun b => by
    rw [h.mem_iff, h'.mem_iff]

theorem single {p k : ℕ} (hk : 0 < k) : Runs (Ico p (p + k)) [(p, k)] := by
  refine ⟨?_, by simpa using hk, by simp⟩
  ext i
  simp

/-- Cutting the first numbers off one run. -/
theorem cut {p k n : ℕ} (h : Runs F (as ++ (p, k) :: bs)) (hn : 0 < n) (hnk : n ≤ k) :
    Runs (F \ Ico p (p + n)) (as ++ (if n < k then [(p + n, k - n)] else []) ++ bs) := by
  -- what replaces `(p, k)` is the rest behind its first `n` cells, if there is any
  obtain ⟨hrest, hbefore, hafter⟩ := apart_mid.1 h.apart
  have hsub : ∀ b ∈ as ++ (if n < k then [(p + n, k - n)] else []) ++ bs,
      b ∈ as ++ bs ∨ n < k ∧ b = (p + n, k - n) := by
    intro b hb
    split_ifs at hb with hc <;> simp only [List.mem_append, List.mem_singleton, List.not_mem_nil,
      or_false] at hb ⊢ <;> tauto
  refine ⟨?_, fun b hb => ?_, ?_⟩
  · rw [← h.cover]
    ext i
    simp only [mem_sdiff, mem_Ico, mem_cover]
    constructor
    · rintro ⟨b, hb, h1, h2⟩
      rcases hsub b hb with hb' | ⟨hc, rfl⟩
      · refine ⟨⟨b, ?_, h1, h2⟩, ?_⟩
        · simp only [List.mem_append, List.mem_cons] at hb' ⊢
          tauto
        · rcases List.mem_append.1 hb' with hm | hm
          · have := hbefore b hm
            simp only at this
            omega
          · have := hafter b hm
            simp only at this
            omega
      · simp only at h1 h2
        exact ⟨⟨(p, k), by simp, by simp only; omega, by simp only; omega⟩, by omega⟩
    · rintro ⟨⟨b, hb, h1, h2⟩, h3⟩
      simp only [List.mem_append, List.mem_cons] at hb
      rcases hb with hb | rfl | hb
      · exact ⟨b, by simp [hb], h1, h2⟩
      · simp only at h1 h2
        have hc : n < k := by omega
        exact ⟨(p + n, k - n), by simp [hc], by simp only; omega, by simp only; omega⟩
      · exact ⟨b, by simp [hb], h1, h2⟩
  · rcases hsub b hb with hb' | ⟨hc, rfl⟩
    · refine h.pos b ?_
      simp only [List.mem_append, List.mem_cons] at hb' ⊢
      tauto
    · simp only
      omega
  · split_ifs with hc
    · rw [List.append_assoc, List.singleton_append, apart_mid]
      refine ⟨hrest, fun a ha => ?_, fun c hc' => ?_⟩
      · have := hbefore a ha
        simp only at this ⊢
        omega
      · have := hafter c hc'
        simp only at this ⊢
        omega
    · simpa using hrest

/-- Inserting an extent into a gap of the runs. -/
theorem insert (h : Runs F (as ++ bs)) (hb : 0 < b.2) (hbefore : ∀ a ∈ as, a.1 + a.2 ≤ b.1)
    (hafter : ∀ c ∈ bs, b.1 + b.2 ≤ c.1) : Runs (F ∪ span b) (insertAt as b bs) := by
  obtain ⟨hsub, hgap, hend, hle⟩ := joinPrev_gap hbefore (List.pairwise_append.1 h.apart).1
  refine ⟨?_, fun c hc => ?_, ?_⟩
  · rw [cover_insertAt, ← h.cover, cover_append, union_right_comm]
  · rcases List.mem_append.1 hc with hm | hm
    · exact h.pos c (List.mem_append_left _ (hsub.subset hm))
    · exact joinNext_pos (by omega) (fun d hd => h.pos d (List.mem_append_right _ hd)) c hm
  · refine joinNext_apart (h.apart.sublist (hsub.append_right bs)) hgap fun c hc => ?_
    rw [hend]
    exact hafter c hc

end Runs

end Extents

end GarretOS
