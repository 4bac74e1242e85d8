import GarretOS.Mm.FreeList

/-!
# Runs of the best-fit allocator

The functions of the allocator as operations on the list of free blocks, and the system of all
runs of `best_fit_alloc_pages` and `best_fit_free_pages` after `best_fit_init` and
`best_fit_init_memmap`.

* `FreeList.of_initMemmap` : after initialisation one block is free;
* `FreeList.bestFitAllocPages` : an allocation succeeds or returns `NULL`, and takes its pages
  from one block;
* `FreeList.bestFitFreePages` : freeing pages that are not free succeeds, and adds one extent;
* `bestFit_invariant` : along every run the free blocks and the live pages partition the
  managed pages.
-/

namespace GarretOS

namespace BestFit

open Extents Set

variable {s s' : BestFit} {lo hi : ℕ} {as bs : List (ℕ × ℕ)}

/-! ### Initialisation -/

theorem initPages_eq {base k : ℕ} {page page' : ℕ → Page}
    (h : initPages base k page = .ok page') :
    page' = fun i => if base ≤ i ∧ i < base + k then ⟨0, 0, 0⟩ else page i := by
  induction k generalizing page' with
  | zero =>
    obtain rfl : page = page' := by simpa [initPages] using h
    funext i
    rw [if_neg (by omega)]
  | succ k ih =>
    obtain ⟨q, hq, h⟩ := bind_eq_ok.1 h
    obtain ⟨x, -, h⟩ := bind_eq_ok.1 h
    obtain rfl : Function.update q (base + k) ⟨0, 0, 0⟩ = page' := by
      simpa [pure, Except.pure] using h
    funext i
    by_cases hi : i = base + k
    · subst hi
      simp
    · have hiff : (base ≤ i ∧ i < base + (k + 1)) ↔ (base ≤ i ∧ i < base + k) := by omega
      simp [hi, ih hq, hiff]

/-- After initialisation all managed pages form one free block. -/
theorem FreeList.of_initMemmap {base n : ℕ} (hn : n < 2 ^ 32)
    (h : s.bestFitInit.bestFitInitMemmap base n = .ok s') :
    FreeList s' base (base + n) [(base, n)] ∧
      (∀ i, base ≤ i → i < base + n → (s'.page i).ref = 0) ∧
      ∀ i, ¬ (base ≤ i ∧ i < base + n) → s'.page i = s.page i := by
  obtain ⟨x, hpos, h⟩ := bind_eq_ok.1 h
  obtain ⟨q, hq, h⟩ := bind_eq_ok.1 h
  rw [assert_eq_ok] at hpos
  have hq := initPages_eq hq
  have hpage : ∀ i, s'.page i = if base ≤ i ∧ i < base + n then
      (if i = base then ⟨0, pageProperty, n⟩ else ⟨0, 0, 0⟩) else s.page i := by
    intro i
    rw [← Except.ok.inj h]
    by_cases hi : i = base
    · subst hi
      simp [hq, hpos, u32_of_lt hn]
    · simp [hq, hi, bestFitInit]
  have hlink : s'.freeLink = (s.freeLink.initList .freeList).addList .freeList .freeList
      (.page base) := by
    rw [← Except.ok.inj h]
    simp [bestFitInit, Links.initList]
  have hnum : s'.numFree = n := by
    rw [← Except.ok.inj h]
    simp [bestFitInit, u64_of_lt (show n < 2 ^ 64 by omega)]
  refine ⟨⟨?_, ?_, ?_, ?_, ?_, ?_, ?_⟩, ?_, ?_⟩
  · have hr : Ring (s.freeLink.initList .freeList) .freeList ([] ++ []) := Ring.initList_nil _ _
    have := hr.insert (e := .page base) (by simp)
    simpa [hlink, blockLink] using this
  · simp [Sorted]
  · simpa using hpos
  · simp
  · simp [hpage, hpos]
  · intro i h1 h2 hi
    have hne : i ≠ base := fun he => hi (base, n) (by simp) he.symm
    simp [hpage, h1, h2, hne]
  · simp [hnum]
  · intro i h1 h2
    rw [hpage, if_pos ⟨h1, h2⟩]
    split_ifs <;> rfl
  · intro i hi
    rw [hpage, if_neg hi]

namespace FreeList

/-! ### Allocation -/

/-- **Allocation** never fails: either it returns `NULL` and changes nothing, or it cuts the
pages it returns off one of the free blocks. -/
theorem bestFitAllocPages (h : FreeList s lo hi bs) (hsz : hi - lo < 2 ^ 32) {n : ℕ}
    (hn : 0 < n) :
    s.bestFitAllocPages n = .ok (s, none) ∨
      ∃ as p k cs, bs = as ++ (p, k) :: cs ∧ n ≤ k ∧
        s.bestFitAllocPages n = .ok (s.takeBlock p n, some p) ∧
        FreeList (s.takeBlock p n) lo hi (as ++ tailOf p k n ++ cs) := by
  unfold BestFit.bestFitAllocPages
  rw [assert_of hn, ok_bind]
  by_cases hlt : s.numFree < n
  · exact Or.inl (if_pos hlt)
  · have hfind := (show FreeList s lo hi ([] ++ bs) from h).findBest_eq n s.rounds
      h.length_lt_rounds none uint32Max
    simp only [List.map_nil, List.getLastD_nil] at hfind
    rw [if_neg hlt, hfind, ok_bind]
    cases hb : bestOf n bs none uint32Max with
    | none => exact Or.inl rfl
    | some p =>
      obtain ⟨k, hk, hnk⟩ := (bestOf_spec hb).resolve_left (by simp)
      obtain ⟨as, cs, rfl⟩ := List.append_of_mem hk
      obtain ⟨hlo, hhi⟩ := h.inside (p, k) hk
      simp only at hlo hhi
      exact Or.inr ⟨as, p, k, cs, rfl, hnk, rfl, h.takeBlock hn hnk (by omega)⟩

/-- An allocation leaves the reference counters alone. -/
theorem takeBlock_ref {p k n : ℕ} (h : FreeList s lo hi (as ++ (p, k) :: bs)) (hn : 0 < n)
    (hk : k < 2 ^ 32) (i : ℕ) : ((s.takeBlock p n).page i).ref = (s.page i).ref := by
  rw [h.takeBlock_page hn hk]
  split_ifs with h1
  · rw [h1]
  · rfl
  · rfl

/-- The pages an allocation takes are free, and the others stay free. -/
theorem cover_tailOf {p k n : ℕ} (h : FreeList s lo hi (as ++ (p, k) :: bs)) (hnk : n ≤ k) :
    cover (as ++ (p, k) :: bs) = Ico p (p + n) ∪ cover (as ++ tailOf p k n ++ bs) ∧
      Disjoint (Ico p (p + n)) (cover (as ++ tailOf p k n ++ bs)) := by
  have htail : cover (tailOf p k n) = span (p + n, k - n) := by
    unfold tailOf
    split_ifs with hc
    · simp
    · ext i
      simp only [cover_nil, mem_empty_iff_false, mem_span, false_iff]
      omega
  refine ⟨?_, ?_⟩
  · rw [cover_cut as bs p k n hnk]
    simp only [cover_append, cover_cons, htail, union_assoc]
    rfl
  · obtain ⟨-, hbefore, hafter⟩ := sorted_mid.1 h.sorted
    rw [Set.disjoint_left]
    rintro i ⟨h1, h2⟩ hc
    simp only [cover_append, htail, mem_union, mem_cover, mem_span] at hc
    rcases hc with (⟨a, ha, h3, h4⟩ | ⟨h3, h4⟩) | ⟨c, hc, h3, h4⟩
    · have := hbefore a ha
      simp only at this
      omega
    · omega
    · have := hafter c hc
      simp only at this
      omega

/-! ### Freeing -/

/-- The blocks before and after an extent that is not free. -/
theorem exists_gap (h : FreeList s lo hi bs) {base n : ℕ} (hn : 0 < n)
    (hd : Disjoint (Ico base (base + n)) (cover bs)) :
    ∃ as cs, bs = as ++ cs ∧ (∀ a ∈ as, a.1 + a.2 ≤ base) ∧ ∀ c ∈ cs, base + n ≤ c.1 := by
  have hsep : ∀ b ∈ bs, b.1 + b.2 ≤ base ∨ base + n ≤ b.1 := by
    intro b hb
    have hp := h.pos b hb
    by_contra hc
    refine Set.disjoint_left.1 hd (show max base b.1 ∈ Ico base (base + n) from ?_) ⟨b, hb, ?_⟩
    · simp only [mem_Ico]; omega
    · simp only [mem_span]; omega
  have hs := h.sorted
  have hpos := h.pos
  clear h hd
  induction bs with
  | nil => exact ⟨[], [], rfl, by simp, by simp⟩
  | cons b bs ih =>
    obtain ⟨h1, h2⟩ := List.pairwise_cons.1 hs
    rcases hsep b List.mem_cons_self with hb | hb
    · obtain ⟨as, cs, rfl, ha, hc⟩ := ih (fun c hc => hsep c (List.mem_cons_of_mem _ hc)) h2
        fun c hc => hpos c (List.mem_cons_of_mem _ hc)
      refine ⟨b :: as, cs, rfl, ?_, hc⟩
      rintro a (_ | ⟨_, ha'⟩)
      · exact hb
      · exact ha a ha'
    · refine ⟨[], b :: bs, rfl, by simp, ?_⟩
      rintro c (_ | ⟨_, hc⟩)
      · exact hb
      · have := h1 c hc
        omega

/-- Joining two blocks leaves the reference counters alone. -/
theorem mergeBlock_ref (s : BestFit) (p q i : ℕ) :
    ((s.mergeBlock p q).page i).ref = (s.page i).ref := by
  simp only [BestFit.mergeBlock, modifyPage_page]
  split_ifs <;> simp_all

theorem mergePrev_ref (s : BestFit) (base i : ℕ) :
    ((s.mergePrev base).1.page i).ref = (s.page i).ref := by
  unfold BestFit.mergePrev
  split
  · rfl
  · split_ifs
    · exact mergeBlock_ref s _ _ i
    · rfl

theorem mergeNext_ref (s : BestFit) (base i : ℕ) :
    ((s.mergeNext base).page i).ref = (s.page i).ref := by
  unfold BestFit.mergeNext
  split
  · rfl
  · split_ifs
    · exact mergeBlock_ref s _ _ i
    · rfl

end FreeList

/-- The pages `base`, ..., `base + n - 1` marked as one free block that is not linked yet. -/
def markBlock (s : BestFit) (base n : ℕ) : BestFit where
  page i := if i = base then ⟨0, pageProperty, n⟩
    else if base ≤ i ∧ i < base + n then { s.page i with flags := 0, ref := 0 } else s.page i
  freeLink := s.freeLink
  numFree := s.numFree + n

/-- A block is linked in front of the first block behind it, and joined with its neighbours. -/
theorem linkBlock_eq {s s₁ : BestFit} {base : ℕ} {list : FreeLink} (hs : s₁ = s)
    (hfind : s.findPrev base s.rounds .freeList = .ok list) : (do
      let list ← s₁.findPrev base s₁.rounds .freeList
      let s := { s₁ with
        freeLink := s₁.freeLink.addList list (s₁.freeLink.next list) (.page base) }
      let (s, base) := s.mergePrev base
      return s.mergeNext base) =
      let s' := { s with
        freeLink := s.freeLink.addList list (s.freeLink.next list) (.page base) }
      (.ok ((s'.mergePrev base).1.mergeNext (s'.mergePrev base).2) : Res BestFit) := by
  subst hs
  rw [hfind]
  rfl

/-- Freeing pages that are unmarked: mark them as one block, link it, and join it with its
neighbours. -/
theorem bestFitFreePages_eq {base n : ℕ} (hn : 0 < n) (hn' : n < 2 ^ 32)
    (hclean : ∀ i, base ≤ i → i < base + n → (s.page i).flags = 0)
    (hnum : s.numFree + n < 2 ^ 64) {list : FreeLink}
    (hfind : (s.markBlock base n).findPrev base (s.numFree + n + 1) .freeList = .ok list) :
    s.bestFitFreePages base n =
      let s₁ := { s.markBlock base n with
        freeLink := s.freeLink.addList list (s.freeLink.next list) (.page base) }
      .ok ((s₁.mergePrev base).1.mergeNext (s₁.mergePrev base).2) := by
  have hclear : clearPages base n s.page = _ :=
    FreeList.clearPages_eq fun j hj => hclean (base + j) (by omega) (by omega)
  unfold bestFitFreePages
  rw [assert_of hn, ok_bind, hclear, ok_bind]
  -- what the assignments to the page descriptors amount to
  refine linkBlock_eq (s := s.markBlock base n) ?_ hfind
  simp only [markBlock, modifyPage_freeLink, modifyPage_numFree, u64_of_lt hnum, BestFit.mk.injEq,
    and_true]
  funext i
  by_cases hi : i = base
  · subst hi
    simp [hn, u32_of_lt hn']
  · simp [hi]

namespace FreeList

/-- **Freeing** pages that are not free never fails, adds their extent to the free blocks and
clears their reference counters. -/
theorem bestFitFreePages (h : FreeList s lo hi (as ++ bs)) (hsz : hi - lo < 2 ^ 32) {base n : ℕ}
    (hn : 0 < n) (hlo : lo ≤ base) (hhi : base + n ≤ hi) (hbefore : ∀ a ∈ as, a.1 + a.2 ≤ base)
    (hafter : ∀ c ∈ bs, base + n ≤ c.1) :
    ∃ s', s.bestFitFreePages base n = .ok s' ∧ FreeList s' lo hi (insertAt as (base, n) bs) ∧
      ∀ i, (s'.page i).ref = if base ≤ i ∧ i < base + n then 0 else (s.page i).ref := by
  have hheads : ∀ i, base ≤ i → i < base + n → ∀ b ∈ as ++ bs, b.1 ≠ i := by
    intro i h1 h2 b hb he
    rcases List.mem_append.1 hb with hb' | hb'
    · have h3 := hbefore b hb'
      have h4 := h.pos b hb
      omega
    · have h3 := hafter b hb'
      omega
  have hclean : ∀ i, base ≤ i → i < base + n → (s.page i).flags = 0 := fun i h1 h2 =>
    (h.other i (by omega) (by omega) (hheads i h1 h2)).1
  have hnum : s.numFree + n < 2 ^ 64 := by
    have h1 := h.sum_le (by omega)
    omega
  have hr := h.ring
  rw [List.map_append] at hr
  have hfind : (s.markBlock base n).findPrev base (s.numFree + n + 1) .freeList =
      .ok ((as.map blockLink).getLastD .freeList) := by
    have hr' : Ring (s.markBlock base n).freeLink .freeList (([] ++ as ++ bs).map blockLink) :=
      h.ring
    have hlen := h.length_lt_rounds
    simp only [rounds, List.length_append] at hlen
    have hlt : ∀ a ∈ as, a.1 < base := by
      intro a ha
      have h1 := hbefore a ha
      have h2 := h.pos a (by simp [ha])
      omega
    exact findPrev_eq hr' hlt (fun c hc => by have := hafter c hc; omega) _ (by omega)
  refine ⟨_, bestFitFreePages_eq hn (by omega) hclean hnum hfind, ?_, fun i => ?_⟩
  · rw [hr.next_getLastD]
    have hins : FreeList { s.markBlock base n with
        freeLink := s.freeLink.addList ((as.map blockLink).getLastD .freeList)
          ((bs.map blockLink).headD .freeList) (.page base) } lo hi (as ++ (base, n) :: bs) := by
      refine h.insert hn hlo hhi hbefore hafter rfl rfl fun i => ?_
      simp only [markBlock]
      split_ifs with h1 h2
      · simp
      · simp [hclean i h2.1 h2.2]
      · simp
    obtain ⟨h1, h2⟩ := hins.mergePrev hsz
    simp only at h1
    simp only [h1]
    exact h2.mergeNext hsz
  · rw [mergeNext_ref, mergePrev_ref]
    simp only [markBlock]
    split_ifs with h3 h4 h5
    · rfl
    · omega
    · rfl
    · rfl

end FreeList

/-! ### Runs -/

/-- The calls of the allocator. -/
inductive AllocOp where
  /-- `alloc_pages(n)`, which returned `page`. -/
  | alloc (n : ℕ) (page : Option ℕ)
  /-- `free_pages(base, n)` -/
  | free (base n : ℕ)

/-- The allocator, and the pages that are allocated. -/
structure AllocState where
  /-- The page descriptors and the free list. -/
  area : BestFit
  /-- The pages handed out and not freed since. -/
  live : Set ℕ

/-- The pages a call of `alloc_pages(n)` hands out. -/
def granted (n : ℕ) : Option ℕ → Set ℕ
  | none => ∅
  | some page => Ico page (page + n)

/-- Allocations, and frees of allocated pages, after the initialisation of the allocator with the
pages `base`, ..., `base + n - 1`. -/
def bestFitSystem (base n : ℕ) : System AllocState AllocOp where
  init s := (∃ s₀ : BestFit, s₀.bestFitInit.bestFitInitMemmap base n = .ok s.area) ∧ s.live = ∅
  step s op s' := match op with
    | .alloc k page => s.area.bestFitAllocPages k = .ok (s'.area, page) ∧
        s'.live = s.live ∪ granted k page
    | .free p k => Ico p (p + k) ⊆ s.live ∧ s.area.bestFitFreePages p k = .ok s'.area ∧
        s'.live = s.live \ Ico p (p + k)

/-- The free blocks and the allocated pages partition the managed pages. -/
structure Partition (s : AllocState) (lo hi : ℕ) (bs : List (ℕ × ℕ)) : Prop where
  /-- The free list holds the blocks. -/
  freeList : FreeList s.area lo hi bs
  /-- No page is lost. -/
  union : cover bs ∪ s.live = Ico lo hi
  /-- No allocated page is free. -/
  disjoint : Disjoint (cover bs) s.live

namespace Partition

variable {s s' : AllocState}

/-- Allocating never fails, and hands out pages that were free. -/
theorem alloc (h : Partition s lo hi bs) (hsz : hi - lo < 2 ^ 32) {n : ℕ} (hn : 0 < n) :
    ∃ a page, s.area.bestFitAllocPages n = .ok (a, page) ∧ granted n page ⊆ cover bs ∧
      ∃ bs', Partition ⟨a, s.live ∪ granted n page⟩ lo hi bs' := by
  rcases h.freeList.bestFitAllocPages hsz hn with h1 | ⟨as, p, k, cs, rfl, hnk, h1, h2⟩
  · refine ⟨_, _, h1, empty_subset _, bs, h.freeList, ?_, ?_⟩
    · simpa [granted] using h.union
    · simpa [granted] using h.disjoint
  · obtain ⟨hcov, hdisj⟩ := h.freeList.cover_tailOf hnk
    refine ⟨_, _, h1, ?_, _, h2, ?_, ?_⟩
    · rw [hcov]
      exact subset_union_left
    · rw [← h.union, hcov]
      simp only [granted]
      ext i
      simp only [mem_union]
      tauto
    · have h3 := h.disjoint
      rw [hcov, disjoint_union_left] at h3
      exact disjoint_union_right.2 ⟨h3.2, hdisj.symm⟩

/-- Freeing allocated pages never fails. -/
theorem free (h : Partition s lo hi bs) (hsz : hi - lo < 2 ^ 32) {base n : ℕ} (hn : 0 < n)
    (hlive : Ico base (base + n) ⊆ s.live) :
    ∃ a, s.area.bestFitFreePages base n = .ok a ∧
      ∃ bs', Partition ⟨a, s.live \ Ico base (base + n)⟩ lo hi bs' := by
  have hd : Disjoint (Ico base (base + n)) (cover bs) := (h.disjoint.mono_right hlive).symm
  obtain ⟨as, cs, rfl, hbefore, hafter⟩ := h.freeList.exists_gap hn hd
  have hin : ∀ i ∈ Ico base (base + n), lo ≤ i ∧ i < hi := by
    intro i hi
    have : i ∈ cover (as ++ cs) ∪ s.live := Or.inr (hlive hi)
    rwa [h.union] at this
  have h1 := hin base ⟨le_rfl, by omega⟩
  have h2 := hin (base + n - 1) ⟨by omega, by omega⟩
  obtain ⟨a, ha, hfl, -⟩ := h.freeList.bestFitFreePages hsz hn h1.1 (by omega) hbefore hafter
  have hcov : cover (insertAt as (base, n) cs) = cover (as ++ cs) ∪ Ico base (base + n) := by
    rw [cover_insertAt, cover_append, union_right_comm]
    rfl
  refine ⟨a, ha, _, hfl, ?_, ?_⟩
  · rw [hcov, union_assoc, union_sdiff_cancel hlive]
    exact h.union
  · rw [hcov, disjoint_union_left]
    exact ⟨h.disjoint.mono_right sdiff_subset, disjoint_sdiff_right⟩

end Partition

/-- Along every run the free list and the allocated pages partition the managed pages. -/
theorem run_partition {base n : ℕ} (hn : n < 2 ^ 32) {ls : List AllocOp} {s : AllocState}
    (h : (bestFitSystem base n).Run ls s) : ∃ bs, Partition s base (base + n) bs := by
  have hsz : base + n - base < 2 ^ 32 := by omega
  refine h.invariant (I := fun s => ∃ bs, Partition s base (base + n) bs) ?_ ?_
  · rintro s ⟨⟨s₀, h0⟩, hlive⟩
    refine ⟨[(base, n)], (FreeList.of_initMemmap hn h0).1, ?_, ?_⟩
    · ext i
      simp [hlive]
    · simp [hlive]
  · rintro s (⟨k, page⟩ | ⟨p, k⟩) s' ⟨bs, hs⟩ hstep
    · obtain ⟨h1, h2⟩ := hstep
      have hk : 0 < k := by
        obtain ⟨x, hx, -⟩ := bind_eq_ok.1 h1
        exact assert_eq_ok.1 hx
      obtain ⟨a, page', ha, -, bs', hs'⟩ := hs.alloc hsz hk
      obtain ⟨rfl, rfl⟩ : s'.area = a ∧ page = page' := by simpa [h1] using ha
      rw [← h2] at hs'
      exact ⟨bs', hs'⟩
    · obtain ⟨h1, h2, h3⟩ := hstep
      have hk : 0 < k := by
        obtain ⟨x, hx, -⟩ := bind_eq_ok.1 h2
        exact assert_eq_ok.1 hx
      obtain ⟨a, ha, bs', hs'⟩ := hs.free hsz hk h1
      obtain rfl : s'.area = a := by simpa [h2] using ha
      rw [← h3] at hs'
      exact ⟨bs', hs'⟩

/-- **The best-fit allocator is sound.**  Along every run of allocations and of frees of
allocated pages, the free list is a well formed ring in increasing order; its blocks are marked,
sized, disjoint and inside the managed pages, and nothing else is marked; `num_free` counts the
free pages; free and allocated pages partition the managed pages.  In the state reached every
further call succeeds, and an allocation hands out pages that nobody holds. -/
theorem bestFit_invariant {base n : ℕ} (hn : n < 2 ^ 32) {ls : List AllocOp} {s : AllocState}
    (h : (bestFitSystem base n).Run ls s) :
    ∃ bs : List (ℕ × ℕ),
      Ring s.area.freeLink .freeList (bs.map blockLink) ∧
      (bs.map Prod.fst).Pairwise (· < ·) ∧
      (∀ b ∈ bs, (s.area.page b.1).flags &&& pageProperty ≠ 0 ∧
        (s.area.page b.1).property = b.2 ∧ 0 < b.2 ∧ base ≤ b.1 ∧ b.1 + b.2 ≤ base + n) ∧
      bs.Pairwise (fun b c => Disjoint (Ico b.1 (b.1 + b.2)) (Ico c.1 (c.1 + c.2))) ∧
      (∀ i, base ≤ i → i < base + n → (∀ b ∈ bs, b.1 ≠ i) →
        (s.area.page i).flags &&& pageProperty = 0 ∧ (s.area.page i).property = 0) ∧
      s.area.numFree = (bs.map fun b => (s.area.page b.1).property).sum ∧
      cover bs ∪ s.live = Ico base (base + n) ∧ Disjoint (cover bs) s.live ∧
      (∀ k, 0 < k → ∃ a page, s.area.bestFitAllocPages k = .ok (a, page) ∧
        granted k page ⊆ cover bs) ∧
      ∀ p k, 0 < k → Ico p (p + k) ⊆ s.live → ∃ a, s.area.bestFitFreePages p k = .ok a := by
  obtain ⟨bs, hs⟩ := run_partition hn h
  have hsz : base + n - base < 2 ^ 32 := by omega
  have hfl := hs.freeList
  refine ⟨bs, hfl.ring, sorted_fst hfl.sorted hfl.pos, fun b hb => ?_, sorted_disjoint hfl.sorted,
    fun i h1 h2 hi => ?_, ?_, hs.union, hs.disjoint, fun k hk => ?_, fun p k hk hp => ?_⟩
  · obtain ⟨h1, h2⟩ := hfl.head b hb
    exact ⟨by rw [h1]; decide, h2, hfl.pos b hb, hfl.inside b hb⟩
  · obtain ⟨h3, h4⟩ := hfl.other i h1 h2 hi
    exact ⟨by rw [h3]; decide, h4⟩
  · rw [hfl.numFree]
    congr 1
    exact List.map_congr_left fun b hb => (hfl.head b hb).2.symm
  · obtain ⟨a, page, ha, hsub, -⟩ := hs.alloc hsz hk
    exact ⟨a, page, ha, hsub⟩
  · obtain ⟨a, ha, -⟩ := hs.free hsz hk hp
    exact ⟨a, ha⟩

/-- Of three pages two are allocated, and then the second of them is freed. -/
theorem bestFit_invariant_small : ∃ s bs,
    (bestFitSystem 4 3).Run [.alloc 2 (some 4), .free 5 1] s ∧ cover bs ∪ s.live = Ico 4 7 ∧
      s.area.numFree = 2 := by
  have h₀ : (bestFitSystem 4 3).Run [] ⟨_, ∅⟩ :=
    .start ⟨⟨⟨fun _ => ⟨0, 0, 0⟩, ⟨id, id⟩, 0⟩, rfl⟩, rfl⟩
  have h₁ : (bestFitSystem 4 3).Run [.alloc 2 (some 4)] ⟨_, ∅ ∪ Ico 4 6⟩ := h₀.step ⟨rfl, rfl⟩
  have h₂ : (bestFitSystem 4 3).Run [.alloc 2 (some 4), .free 5 1] ⟨_, (∅ ∪ Ico 4 6) \ Ico 5 6⟩ :=
    h₁.step ⟨by intro i hi; simp at hi ⊢; omega, rfl, rfl⟩
  obtain ⟨bs, -, -, -, -, -, -, hu, -⟩ := bestFit_invariant (by decide) h₂
  exact ⟨_, bs, h₂, hu, rfl⟩

end BestFit

end GarretOS
