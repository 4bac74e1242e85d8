import GarretOS.Mm.Allocator
import GarretOS.Extent.Runs

/-!
# Which block is taken, and what the free list looks like

* `FreeList.best_fit_exact` : an allocation fails just when no block is large enough, and takes
  its pages from the first of the smallest blocks that are;
* `free_list_canonical` : along every run the blocks are the maximal runs of free pages, so the
  free list depends only on which pages are allocated.
-/

namespace GarretOS

namespace BestFit

open Extents Set

variable {s : BestFit} {lo hi : ℕ} {as bs : List (ℕ × ℕ)}

/-! ### The search for a block -/

namespace FreeList

/-- The search leaves the best block so far, or finds the first of the smallest blocks that are
large enough and smaller than it. -/
theorem bestOf_cases (n : ℕ) (bs : List (ℕ × ℕ)) (page : Option ℕ) (m : ℕ) :
    (bestOf n bs page m = page ∧ ∀ b ∈ bs, n ≤ b.2 → m ≤ b.2) ∨
      ∃ as p k cs, bs = as ++ (p, k) :: cs ∧ bestOf n bs page m = some p ∧ n ≤ k ∧ k < m ∧
        (∀ b ∈ as, n ≤ b.2 → k < b.2) ∧ ∀ b ∈ cs, n ≤ b.2 → k ≤ b.2 := by
  induction bs generalizing page m with
  | nil => exact Or.inl ⟨rfl, by simp⟩
  | cons b bs ih =>
    by_cases hc : n ≤ b.2 ∧ b.2 < m
    · rw [bestOf, if_pos hc]
      rcases ih (some b.1) b.2 with ⟨h1, h2⟩ | ⟨as, p, k, cs, rfl, h1, h2, h3, h4, h5⟩
      · exact Or.inr ⟨[], b.1, b.2, bs, rfl, h1, hc.1, hc.2, by simp, h2⟩
      · refine Or.inr ⟨b :: as, p, k, cs, rfl, h1, h2, h3.trans hc.2, ?_, h5⟩
        rintro a (_ | ⟨_, ha⟩) hn
        · exact h3
        · exact h4 a ha hn
    · rw [bestOf, if_neg hc]
      rcases ih page m with ⟨h1, h2⟩ | ⟨as, p, k, cs, rfl, h1, h2, h3, h4, h5⟩
      · refine Or.inl ⟨h1, ?_⟩
        rintro a (_ | ⟨_, ha⟩) hn
        · omega
        · exact h2 a ha hn
      · refine Or.inr ⟨b :: as, p, k, cs, rfl, h1, h2, h3, ?_, h5⟩
        rintro a (_ | ⟨_, ha⟩) hn
        · omega
        · exact h4 a ha hn

/-- No block is larger than the number of free pages. -/
theorem size_le_numFree (h : FreeList s lo hi bs) {b : ℕ × ℕ} (hb : b ∈ bs) : b.2 ≤ s.numFree := by
  obtain ⟨as, cs, rfl⟩ := List.append_of_mem hb
  rw [h.numFree, List.map_append, List.map_cons, List.sum_append, List.sum_cons]
  omega

/-- A smallest block that comes before all others of its size is the lowest one. -/
theorem lowest {p k : ℕ} (h : FreeList s lo hi (as ++ (p, k) :: bs))
    (has : ∀ a ∈ as, a.2 ≠ k) : ∀ b ∈ as ++ (p, k) :: bs, b.2 = k → p ≤ b.1 := by
  intro b hb hk
  obtain ⟨-, -, hafter⟩ := sorted_mid.1 h.sorted
  rcases List.mem_append.1 hb with hm | hm
  · exact absurd hk (has b hm)
  · rcases List.mem_cons.1 hm with rfl | hm
    · exact le_rfl
    · have := hafter b hm
      simp only at this
      omega

/-- **The choice of the allocator.**  An allocation of `n` pages returns `NULL` just when no free
block has `n` pages, and then changes nothing.  Otherwise it returns the head of a smallest block
among those that have, of the lowest one among equals; it takes the first `n` pages of this
block, and leaves the other blocks and the rest of this one free at their places in the list.
The running minimum of the search begins at `UINT32_MAX`; the pool is smaller than that. -/
theorem best_fit_exact (h : FreeList s lo hi bs) (hsz : hi - lo < uint32Max) {n : ℕ}
    (hn : 0 < n) :
    ∃ s' page, s.bestFitAllocPages n = .ok (s', page) ∧
      (page = none ↔ ∀ b ∈ bs, b.2 < n) ∧ (page = none → s' = s) ∧
      ∀ p, page = some p → ∃ as k cs, bs = as ++ (p, k) :: cs ∧ n ≤ k ∧
        (∀ b ∈ bs, n ≤ b.2 → k ≤ b.2) ∧ (∀ b ∈ bs, b.2 = k → p ≤ b.1) ∧
        FreeList s' lo hi (as ++ tailOf p k n ++ cs) ∧
        cover bs = Ico p (p + n) ∪ cover (as ++ tailOf p k n ++ cs) ∧
        Disjoint (Ico p (p + n)) (cover (as ++ tailOf p k n ++ cs)) ∧
        ∀ i, (s'.page i).ref = (s.page i).ref := by
  have hsize : ∀ b ∈ bs, b.2 < uint32Max := by
    intro b hb
    have := h.inside b hb
    omega
  unfold BestFit.bestFitAllocPages
  rw [assert_of hn, ok_bind]
  by_cases hlt : s.numFree < n
  · exact ⟨s, none, if_pos hlt, iff_of_true rfl fun b hb => (h.size_le_numFree hb).trans_lt hlt,
      fun _ => rfl, by simp⟩
  · have hfind := (show FreeList s lo hi ([] ++ bs) from h).findBest_eq n s.rounds
      h.length_lt_rounds none uint32Max
    simp only [List.map_nil, List.getLastD_nil] at hfind
    rw [if_neg hlt, hfind, ok_bind]
    rcases bestOf_cases n bs none uint32Max with ⟨h1, h2⟩ | ⟨as, p, k, cs, rfl, h1, h2, h3, h4, h5⟩
    · rw [h1]
      refine ⟨s, none, rfl, iff_of_true rfl fun b hb => ?_, fun _ => rfl, by simp⟩
      by_contra hc
      have := h2 b hb (by omega)
      have := hsize b hb
      omega
    · rw [h1]
      have hk : k < 2 ^ 32 := h3.trans (by decide)
      obtain ⟨hcov, hdisj⟩ := h.cover_tailOf h2
      refine ⟨s.takeBlock p n, some p, rfl, ?_, by simp, ?_⟩
      · refine iff_of_false (by simp) fun hall => ?_
        have := hall (p, k) (by simp)
        simp only at this
        omega
      · rintro q hq
        obtain rfl : p = q := Option.some.inj hq
        refine ⟨as, k, cs, rfl, h2, fun b hb hnb => ?_, h.lowest fun a ha hak => ?_,
          h.takeBlock hn h2 hk, hcov, hdisj, h.takeBlock_ref hn hk⟩
        · rcases List.mem_append.1 hb with hm | hm
          · exact (h4 b hm hnb).le
          · rcases List.mem_cons.1 hm with rfl | hm
            · exact le_rfl
            · exact h5 b hm hnb
        · have := h4 a ha (by omega)
          omega

end FreeList

/-- Of three free pages two are asked for. -/
theorem best_fit_exact_three : ∃ s s' : BestFit, ∃ page, FreeList s 4 7 [(4, 3)] ∧
    s.bestFitAllocPages 2 = .ok (s', page) ∧ page ≠ none := by
  have h : FreeList _ 4 (4 + 3) [(4, 3)] :=
    (FreeList.of_initMemmap (s := ⟨fun _ => ⟨0, 0, 0⟩, ⟨id, id⟩, 0⟩) (by decide) rfl).1
  obtain ⟨s', page, h1, h2, -⟩ := h.best_fit_exact (by decide) (show 0 < 2 by decide)
  refine ⟨_, s', page, h, h1, fun hnone => ?_⟩
  have := h2.1 hnone (4, 3) (by simp)
  omega

/-! ### The list of free blocks -/

/-- The blocks that the free list names after `list`. -/
def blocksFrom (s : BestFit) : ℕ → FreeLink → List (ℕ × ℕ)
  | 0, _ => []
  | k + 1, list =>
    match s.freeLink.next list with
    | .freeList => []
    | .page p => (p, (s.page p).property) :: blocksFrom s k (.page p)

/-- The free list, as the addresses and sizes of its blocks. -/
def freeBlocks (s : BestFit) : List (ℕ × ℕ) := s.blocksFrom s.rounds .freeList

theorem FreeList.blocksFrom_eq (h : FreeList s lo hi (as ++ bs)) (k : ℕ) (hk : bs.length < k) :
    s.blocksFrom k ((as.map blockLink).getLastD .freeList) = bs := by
  induction bs generalizing as k with
  | nil =>
    obtain ⟨k, rfl⟩ : ∃ j, k = j + 1 := ⟨k - 1, by simp at hk; omega⟩
    have hr := h.ring
    rw [List.map_append] at hr
    simp only [blocksFrom, hr.next_getLastD, List.map_nil, List.headD_nil]
  | cons b bs ih =>
    obtain ⟨k, rfl⟩ : ∃ j, k = j + 1 := ⟨k - 1, by simp at hk; omega⟩
    have hr := h.ring
    rw [List.map_append] at hr
    have hp := (h.head b (by simp)).2
    have ih' := @ih (as ++ [b]) (by simpa using h) k (by simpa using hk)
    simp only [List.map_append, List.map_cons, List.map_nil, List.getLastD_concat] at ih'
    have hl : blockLink b = .page b.1 := rfl
    rw [hl] at ih'
    simp only [blocksFrom, hr.next_getLastD, List.map_cons, List.headD_cons, hl, hp, ih']

theorem FreeList.freeBlocks_eq (h : FreeList s lo hi bs) : s.freeBlocks = bs :=
  (show FreeList s lo hi ([] ++ bs) from h).blocksFrom_eq s.rounds h.length_lt_rounds

/-! ### Runs -/

/-- The free blocks are the maximal runs of the managed pages that are not allocated. -/
structure Canonical (s : AllocState) (lo hi : ℕ) (bs : List (ℕ × ℕ)) : Prop where
  /-- The free list holds the blocks. -/
  freeList : FreeList s.area lo hi bs
  /-- They are the runs of free pages. -/
  runs : Runs (Ico lo hi \ s.live) bs
  /-- Only managed pages are allocated. -/
  managed : s.live ⊆ Ico lo hi

namespace Canonical

variable {s : AllocState}

theorem alloc (h : Canonical s lo hi bs) (hsz : hi - lo < 2 ^ 32) {n : ℕ} (hn : 0 < n)
    {a : BestFit} {page : Option ℕ} (ha : s.area.bestFitAllocPages n = .ok (a, page)) :
    ∃ bs', Canonical ⟨a, s.live ∪ granted n page⟩ lo hi bs' := by
  rcases h.freeList.bestFitAllocPages hsz hn with h1 | ⟨as, p, k, cs, rfl, hnk, h1, h2⟩
  · obtain ⟨rfl, rfl⟩ : s.area = a ∧ none = page := by simpa [h1] using ha
    exact ⟨bs, h.freeList, by simpa [granted] using h.runs, by simpa [granted] using h.managed⟩
  · obtain ⟨rfl, rfl⟩ : s.area.takeBlock p n = a ∧ some p = page := by simpa [h1] using ha
    have hruns := h.runs.cut hn hnk
    rw [sdiff_sdiff] at hruns
    refine ⟨_, h2, hruns, union_subset h.managed ?_⟩
    have hsub := (h.freeList.cover_tailOf hnk).1
    exact (subset_union_left.trans hsub.ge).trans h.freeList.cover_subset

theorem free (h : Canonical s lo hi bs) (hsz : hi - lo < 2 ^ 32) {base n : ℕ} (hn : 0 < n)
    (hlive : Ico base (base + n) ⊆ s.live) {a : BestFit}
    (ha : s.area.bestFitFreePages base n = .ok a) :
    ∃ bs', Canonical ⟨a, s.live \ Ico base (base + n)⟩ lo hi bs' := by
  have hd : Disjoint (Ico base (base + n)) (cover bs) := by
    rw [h.runs.cover]
    exact disjoint_sdiff_right.mono_left hlive
  obtain ⟨as, cs, rfl, hbefore, hafter⟩ := h.freeList.exists_gap hn hd
  have h1 := h.managed (hlive (show base ∈ _ from ⟨le_rfl, by omega⟩))
  have h2 := h.managed (hlive (show base + n - 1 ∈ _ from ⟨by omega, by omega⟩))
  simp only [mem_Ico] at h1 h2
  obtain ⟨a', ha', hfl, -⟩ := h.freeList.bestFitFreePages hsz hn h1.1 (by omega) hbefore hafter
  obtain rfl : a' = a := by simpa [ha'] using ha
  have hruns := h.runs.insert (b := (base, n)) hn hbefore hafter
  have hset : Ico lo hi \ s.live ∪ span (base, n) =
      Ico lo hi \ (s.live \ Ico base (base + n)) := by
    ext i
    have hin : i ∈ Ico base (base + n) → i ∈ Ico lo hi := fun hi => h.managed (hlive hi)
    have hsp : i ∈ span (base, n) ↔ i ∈ Ico base (base + n) := Iff.rfl
    simp only [mem_union, mem_sdiff, hsp]
    tauto
  rw [hset] at hruns
  exact ⟨_, hfl, hruns, sdiff_subset.trans h.managed⟩

end Canonical

/-- Along every run the free blocks are the maximal runs of free pages. -/
theorem run_canonical {base n : ℕ} (hn : n < 2 ^ 32) {ls : List AllocOp} {s : AllocState}
    (h : (bestFitSystem base n).Run ls s) :
    0 < n ∧ ∃ bs, Canonical s base (base + n) bs := by
  have hsz : base + n - base < 2 ^ 32 := by omega
  refine h.invariant (I := fun s => 0 < n ∧ ∃ bs, Canonical s base (base + n) bs) ?_ ?_
  · rintro s ⟨⟨s₀, h0⟩, hlive⟩
    have hfl := (FreeList.of_initMemmap hn h0).1
    have hpos : 0 < n := hfl.pos (base, n) (by simp)
    refine ⟨hpos, [(base, n)], hfl, ?_, by simp [hlive]⟩
    rw [hlive, sdiff_empty]
    exact Runs.single hpos
  · rintro s (⟨k, page⟩ | ⟨p, k⟩) s' ⟨hpos, bs, hs⟩ hstep
    · obtain ⟨h1, h2⟩ := hstep
      obtain ⟨x, hk, -⟩ := bind_eq_ok.1 h1
      obtain ⟨bs', hs'⟩ := hs.alloc hsz (assert_eq_ok.1 hk) h1
      rw [← h2] at hs'
      exact ⟨hpos, bs', hs'⟩
    · obtain ⟨h1, h2, h3⟩ := hstep
      obtain ⟨x, hk, -⟩ := bind_eq_ok.1 h2
      obtain ⟨bs', hs'⟩ := hs.free hsz (assert_eq_ok.1 hk) h1 h2
      rw [← h3] at hs'
      exact ⟨hpos, bs', hs'⟩

/-- **The free list has no memory.**  Two runs from the same initial block after which the same
pages are allocated end with the same list of blocks, the maximal runs of free pages in the order
of their addresses; when everything is free again, that is the initial block. -/
theorem free_list_canonical {base n : ℕ} (hn : n < 2 ^ 32) {ls ls' : List AllocOp}
    {s s' : AllocState} (h : (bestFitSystem base n).Run ls s)
    (h' : (bestFitSystem base n).Run ls' s') (hlive : s.live = s'.live) :
    s.area.freeBlocks = s'.area.freeBlocks ∧
      FreeList s.area base (base + n) s.area.freeBlocks ∧
      FreeList s'.area base (base + n) s'.area.freeBlocks ∧
      (∀ b, b ∈ s.area.freeBlocks ↔ IsRun (Ico base (base + n) \ s.live) b) ∧
      s.area.freeBlocks.Pairwise (fun b c => b.1 + b.2 < c.1) ∧
      (s.live = ∅ → s.area.freeBlocks = [(base, n)]) := by
  obtain ⟨hpos, bs, hs⟩ := run_canonical hn h
  obtain ⟨-, bs', hs'⟩ := run_canonical hn h'
  have hruns' := hs'.runs
  rw [← hlive] at hruns'
  obtain rfl : bs = bs' := hs.runs.unique hruns'
  have hfl := hs.freeList
  have hfl' := hs'.freeList
  rw [hfl.freeBlocks_eq, hfl'.freeBlocks_eq]
  refine ⟨rfl, hfl, hfl', fun b => hs.runs.mem_iff, hs.runs.apart, fun hempty => ?_⟩
  have hruns := hs.runs
  rw [hempty, sdiff_empty] at hruns
  exact hruns.unique (Runs.single hpos)

/-- Two pages are allocated together and freed one by one, in either order. -/
theorem free_list_canonical_two : ∃ s s',
    (bestFitSystem 4 3).Run [.alloc 2 (some 4), .free 4 1, .free 5 1] s ∧
      (bestFitSystem 4 3).Run [.alloc 2 (some 4), .free 5 1, .free 4 1] s' ∧
      s.area.freeBlocks = s'.area.freeBlocks := by
  have h₀ : (bestFitSystem 4 3).Run [] ⟨_, ∅⟩ :=
    .start ⟨⟨⟨fun _ => ⟨0, 0, 0⟩, ⟨id, id⟩, 0⟩, rfl⟩, rfl⟩
  have h₁ : (bestFitSystem 4 3).Run [.alloc 2 (some 4)] ⟨_, ∅ ∪ Ico 4 6⟩ := h₀.step ⟨rfl, rfl⟩
  have h₂ : (bestFitSystem 4 3).Run [.alloc 2 (some 4), .free 4 1]
      ⟨_, (∅ ∪ Ico 4 6) \ Ico 4 5⟩ := h₁.step ⟨by intro i hi; simp at hi ⊢; omega, rfl, rfl⟩
  have h₃ : (bestFitSystem 4 3).Run [.alloc 2 (some 4), .free 5 1]
      ⟨_, (∅ ∪ Ico 4 6) \ Ico 5 6⟩ := h₁.step ⟨by intro i hi; simp at hi ⊢; omega, rfl, rfl⟩
  have ha : (bestFitSystem 4 3).Run [.alloc 2 (some 4), .free 4 1, .free 5 1]
      ⟨_, ((∅ ∪ Ico 4 6) \ Ico 4 5) \ Ico 5 6⟩ :=
    h₂.step ⟨by intro i hi; simp at hi ⊢; omega, rfl, rfl⟩
  have hb : (bestFitSystem 4 3).Run [.alloc 2 (some 4), .free 5 1, .free 4 1]
      ⟨_, ((∅ ∪ Ico 4 6) \ Ico 5 6) \ Ico 4 5⟩ :=
    h₃.step ⟨by intro i hi; simp at hi ⊢; omega, rfl, rfl⟩
  exact ⟨_, _, ha, hb, (free_list_canonical (by decide) ha hb (sdiff_right_comm _ _ _)).1⟩

end BestFit

end GarretOS
