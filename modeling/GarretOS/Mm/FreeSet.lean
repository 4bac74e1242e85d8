import GarretOS.Mm.Allocator
import GarretOS.Mm.Pmm

/-!
# The allocator as a set of free pages

`FreeSet s F` : the free pages of the allocator state `s` are the set `F`.  This is what the rest
of the memory management needs to know of the allocator: `allocPage` takes a page out of the set,
`freePage` puts one back, and reference counters do not matter to it.
-/

namespace GarretOS

open Extents Set

/-- The free pages are the pages of `F`. -/
def FreeSet (s : BestFit) (F : Set ℕ) : Prop :=
  ∃ bs, BestFit.FreeList s poolBegin poolEnd bs ∧ cover bs = F

namespace FreeSet

variable {s : BestFit} {F : Set ℕ}

theorem pool_size : poolEnd - poolBegin < 2 ^ 32 := by decide

/-- Free pages belong to the pool. -/
theorem mem_pool (h : FreeSet s F) {p : ℕ} (hp : p ∈ F) : poolBegin ≤ p ∧ p < poolEnd := by
  obtain ⟨bs, hfl, rfl⟩ := h
  exact hfl.cover_subset hp

/-- The set of free pages is determined by the allocator state. -/
theorem unique {G : Set ℕ} (h : FreeSet s F) (h' : FreeSet s G) : F = G := by
  obtain ⟨bs, hfl, rfl⟩ := h
  obtain ⟨cs, hfl', rfl⟩ := h'
  have hsub : ∀ {as bs : List (ℕ × ℕ)}, BestFit.FreeList s poolBegin poolEnd as →
      BestFit.FreeList s poolBegin poolEnd bs → cover as ⊆ cover bs := by
    rintro as bs ha hb i ⟨a, ham, hi⟩
    refine ⟨a, ?_, hi⟩
    have hhead := ha.head a ham
    have hin := ha.inside a ham
    have hpos := ha.pos a ham
    by_contra hnb
    by_cases hex : ∃ b ∈ bs, b.1 = a.1
    · obtain ⟨b, hbm, hba⟩ := hex
      have hb2 := hb.head b hbm
      rw [hba] at hb2
      exact hnb (Prod.ext hba.symm (hhead.2.symm.trans hb2.2) ▸ hbm)
    · have := (hb.other a.1 hin.1 (by omega) fun b hbm hba => hex ⟨b, hbm, hba⟩).2
      omega
  exact Set.Subset.antisymm (hsub hfl hfl') (hsub hfl' hfl)

/-- The allocator does not look at reference counters. -/
theorem modifyRef (h : FreeSet s F) (i n : ℕ) :
    FreeSet (s.modifyPage i fun q => { q with ref := n }) F := by
  obtain ⟨bs, hfl, hF⟩ := h
  have hpage : ∀ j, ((s.modifyPage i fun q => { q with ref := n }).page j).flags =
      (s.page j).flags ∧ ((s.modifyPage i fun q => { q with ref := n }).page j).property =
      (s.page j).property := by
    intro j
    rw [BestFit.modifyPage_page]
    split_ifs with hj
    · rw [hj]
      exact ⟨rfl, rfl⟩
    · exact ⟨rfl, rfl⟩
  refine ⟨bs, ⟨hfl.ring, hfl.sorted, hfl.pos, hfl.inside, fun b hb => ?_, fun j h1 h2 hj => ?_,
    hfl.numFree⟩, hF⟩
  · rw [(hpage b.1).1, (hpage b.1).2]
    exact hfl.head b hb
  · rw [(hpage j).1, (hpage j).2]
    exact hfl.other j h1 h2 hj

/-- Allocating pages takes them out of the free pages. -/
theorem allocPages (h : FreeSet s F) {n : ℕ} (hn : 0 < n) : s.bestFitAllocPages n = .ok (s, none) ∨
    ∃ s' p, s.bestFitAllocPages n = .ok (s', some p) ∧ Ico p (p + n) ⊆ F ∧
      FreeSet s' (F \ Ico p (p + n)) ∧ ∀ i, (s'.page i).ref = (s.page i).ref := by
  obtain ⟨bs, hfl, rfl⟩ := h
  rcases hfl.bestFitAllocPages pool_size hn with h | ⟨as, p, k, cs, rfl, hk, h, hfl'⟩
  · exact Or.inl h
  · obtain ⟨h1, h2⟩ := hfl.cover_tailOf hk
    have hlo := (hfl.inside (p, k) (by simp)).1
    have hhi := (hfl.inside (p, k) (by simp)).2
    refine Or.inr ⟨_, p, h, ?_, ⟨_, hfl', ?_⟩, fun i => hfl.takeBlock_ref hn ?_ i⟩
    · rw [h1]
      exact subset_union_left
    · rw [h1, union_sdiff_distrib, sdiff_self, h2.symm.sdiff_eq_left]
      simp
    · have := pool_size
      simp only at hlo hhi
      omega

/-- Freeing pages of the pool that are not free puts them back. -/
theorem freePages (h : FreeSet s F) {base n : ℕ} (hn : 0 < n) (h1 : poolBegin ≤ base)
    (h2 : base + n ≤ poolEnd) (hd : Disjoint (Ico base (base + n)) F) :
    ∃ s', s.bestFitFreePages base n = .ok s' ∧ FreeSet s' (F ∪ Ico base (base + n)) ∧
      ∀ i, (s'.page i).ref = if base ≤ i ∧ i < base + n then 0 else (s.page i).ref := by
  obtain ⟨bs, hfl, rfl⟩ := h
  obtain ⟨as, cs, rfl, hbefore, hafter⟩ := hfl.exists_gap hn hd
  obtain ⟨s', h3, h4, h5⟩ := hfl.bestFitFreePages pool_size hn h1 h2 hbefore hafter
  refine ⟨s', h3, ⟨_, h4, ?_⟩, h5⟩
  rw [cover_insertAt, cover_append]
  ext i
  simp only [mem_union, mem_span, mem_Ico]
  tauto

theorem Ico_one (p : ℕ) : Ico p (p + 1) = {p} := by
  ext i
  simp only [mem_Ico, mem_singleton_iff]
  omega

/-- Allocating a page takes it out of the free pages. -/
theorem alloc (h : FreeSet s F) : s.bestFitAllocPages 1 = .ok (s, none) ∨
    ∃ s' p, s.bestFitAllocPages 1 = .ok (s', some p) ∧ p ∈ F ∧ FreeSet s' (F \ {p}) ∧
      ∀ i, (s'.page i).ref = (s.page i).ref := by
  rcases h.allocPages one_pos with h | ⟨s', p, h1, h2, h3, h4⟩
  · exact Or.inl h
  · rw [Ico_one] at h2 h3
    exact Or.inr ⟨s', p, h1, h2 rfl, h3, h4⟩

/-- Freeing a page of the pool that is not free puts it back. -/
theorem free (h : FreeSet s F) {p : ℕ} (h1 : poolBegin ≤ p) (h2 : p < poolEnd) (hp : p ∉ F) :
    ∃ s', s.bestFitFreePages p 1 = .ok s' ∧ FreeSet s' (insert p F) ∧
      ∀ i, (s'.page i).ref = if i = p then 0 else (s.page i).ref := by
  obtain ⟨s', h3, h4, h5⟩ := h.freePages one_pos h1 h2
    (by rw [Ico_one]; exact disjoint_singleton_left.2 hp)
  rw [Ico_one, union_singleton] at h4
  refine ⟨s', h3, h4, fun i => (h5 i).trans (if_congr ?_ rfl rfl)⟩
  omega

/-- The free list with the one block of `k` pages at `p`. -/
def oneBlock (p k : ℕ) : BestFit where
  page i := if i = p then ⟨0, pageProperty, k⟩ else ⟨0, 0, 0⟩
  freeLink := ⟨fun l => if l = .freeList then .page p else .freeList,
    fun l => if l = .freeList then .page p else .freeList⟩
  numFree := k

theorem freeList_oneBlock {p k : ℕ} (hk : 0 < k) (h1 : poolBegin ≤ p) (h2 : p + k ≤ poolEnd) :
    BestFit.FreeList (oneBlock p k) poolBegin poolEnd [(p, k)] := by
  refine ⟨⟨?_, by simp [BestFit.blockLink]⟩, ?_, by simpa using hk, by simp [h1, h2],
    by simp [oneBlock], fun i _ _ hi => ?_, by simp [oneBlock]⟩
  · simp [BestFit.blockLink, Links.Linked, oneBlock]
  · simp [Sorted]
  · have hne : i ≠ p := fun he => hi (p, k) (by simp) he.symm
    simp [oneBlock, hne]

theorem freeSet_oneBlock {p k : ℕ} (hk : 0 < k) (h1 : poolBegin ≤ p) (h2 : p + k ≤ poolEnd) :
    FreeSet (oneBlock p k) (Set.Ico p (p + k)) := by
  refine ⟨[(p, k)], freeList_oneBlock hk h1 h2, ?_⟩
  ext i
  simp

end FreeSet

/-! ### Pages and addresses -/

theorem page2ppn_eq {p : ℕ} (h1 : poolBegin ≤ p) (h2 : p < poolEnd) : page2ppn p = .ok p := by
  rw [page2ppn, assert_of ⟨h1, h2⟩]
  rfl

theorem page2va_sat (p : ℕ) :
    Sat (page2va p) fun f => f = p ∧ poolBegin ≤ p ∧ p < poolEnd ∧ p * pageSize < dramEndPa := by
  refine Sat.bind (P := fun f => f = p ∧ poolBegin ≤ p ∧ p < poolEnd) ?_ ?_
  · exact sat_assert.bind fun _ h => ⟨rfl, h⟩
  · rintro _ ⟨rfl, h1, h2⟩
    exact sat_assert.bind fun _ h => ⟨rfl, h1, h2, h.2⟩

theorem page2va_eq {p : ℕ} (h1 : poolBegin ≤ p) (h2 : p * pageSize < dramEndPa) :
    page2va p = .ok p := by
  rw [pageSize_eq, dramEndPa] at h2
  rw [poolBegin_eq] at h1
  rw [page2va, page2ppn_eq (by rw [poolBegin_eq]; omega) (by rw [poolEnd_eq]; omega), ok_bind,
    assert_of (by rw [pageSize_eq, dramBeginPa, dramEndPa]; omega)]
  rfl

namespace Mm

variable {m m' : Mm} {F : Set ℕ}

@[simp] theorem setRef_mem (m : Mm) (page n : ℕ) : (m.setRef page n).mem = m.mem := rfl

@[simp] theorem setRef_swapInit (m : Mm) (page n : ℕ) :
    (m.setRef page n).swapInit = m.swapInit := rfl

@[simp] theorem setRef_ref (m : Mm) (page n i : ℕ) :
    (m.setRef page n).ref i = if i = page then n else m.ref i := by
  simp only [ref, setRef, BestFit.modifyPage_page]
  split_ifs with h
  · rfl
  · rfl

@[simp] theorem store_ref (m : Mm) (p : PtePtr) (v : ℕ) : (m.store p v).ref = m.ref := rfl

@[simp] theorem store_pmm (m : Mm) (p : PtePtr) (v : ℕ) : (m.store p v).pmm = m.pmm := rfl

@[simp] theorem store_swapInit (m : Mm) (p : PtePtr) (v : ℕ) :
    (m.store p v).swapInit = m.swapInit := rfl

theorem store_mem (m : Mm) (p : PtePtr) (v f i : ℕ) :
    (m.store p v).mem f i = if f = p.1 ∧ i = p.2 then v else m.mem f i := by
  simp only [store, Function.update_apply]
  by_cases hf : f = p.1
  · subst hf
    by_cases hi : i = p.2 <;> simp [hi]
  · simp [hf]

/-- What an allocation returns, and what it leaves alone. -/
structure Allocated (m m' : Mm) (F : Set ℕ) (page : ℕ) : Prop where
  mem_free : page ∈ F
  free : FreeSet m'.pmm (F \ {page})
  mem : m'.mem = m.mem
  ref : ∀ i, m'.ref i = m.ref i
  swapInit : m'.swapInit = m.swapInit

/-- `alloc_pages` returns free pages, or `NULL` and changes nothing. -/
theorem allocPages_sat (h : FreeSet m.pmm F) {n : ℕ} (hn : 0 < n) :
    Sat (m.allocPages n) fun r =>
      match r.2 with
      | none => r.1 = m
      | some p => Set.Ico p (p + n) ⊆ F ∧ FreeSet r.1.pmm (F \ Set.Ico p (p + n)) ∧
          r.1.mem = m.mem ∧ (∀ i, r.1.ref i = m.ref i) ∧ r.1.swapInit = m.swapInit := by
  unfold allocPages
  rcases h.allocPages hn with h | ⟨s', p, h, h1, h2, h3⟩
  · simp only [h, ok_bind]
    split_ifs
    · simp [Sat]
    · rfl
  · simp only [h, ok_bind]
    rw [if_neg (by simp)]
    exact ⟨h1, h2, rfl, h3, rfl⟩

/-- **`alloc_page`** returns a free page, or `NULL` and changes nothing. -/
theorem allocPage_sat (h : FreeSet m.pmm F) : Sat m.allocPage fun r =>
    match r.2 with
    | none => r.1 = m
    | some page => Allocated m r.1 F page := by
  refine (allocPages_sat h one_pos).mono ?_
  rintro ⟨m', _ | page⟩ hr
  · exact hr
  · obtain ⟨h1, h2, h3, h4, h5⟩ := hr
    rw [FreeSet.Ico_one] at h1 h2
    exact ⟨h1 rfl, h2, h3, h4, h5⟩

/-- `malloc` of at most a page returns a free page. -/
theorem malloc_sat (h : FreeSet m.pmm F) {n : ℕ} (hn : numPages n = 1) :
    Sat (m.malloc n) fun res => Allocated m res.1 F res.2 ∧ poolBegin ≤ res.2 ∧
      res.2 * pageSize < dramEndPa := by
  unfold malloc
  rw [hn, assert_of ⟨one_pos, by decide⟩, ok_bind]
  refine (allocPage_sat h).bind ?_
  rintro ⟨m', _ | page⟩ ha
  · simp [Sat]
  · refine (page2va_sat page).bind ?_
    rintro va ⟨rfl, h1, -, h2⟩
    exact ⟨ha, h1, h2⟩

/-- `free_pages` of pages of the pool that are not free succeeds. -/
theorem freePages_eq (h : FreeSet m.pmm F) {base n : ℕ} (hn : 0 < n) (h1 : poolBegin ≤ base)
    (h2 : base + n ≤ poolEnd) (hd : Disjoint (Set.Ico base (base + n)) F) :
    ∃ m', m.freePages base n = .ok m' ∧ FreeSet m'.pmm (F ∪ Set.Ico base (base + n)) ∧
      m'.mem = m.mem := by
  obtain ⟨s', h3, h4, -⟩ := h.freePages hn h1 h2 hd
  refine ⟨{ m with pmm := s' }, ?_, h4, rfl⟩
  rw [freePages, h3]
  rfl

/-- **`free_page`** of a page of the pool that is not free succeeds. -/
theorem freePage_eq (h : FreeSet m.pmm F) {p : ℕ} (h1 : poolBegin ≤ p) (h2 : p < poolEnd)
    (hp : p ∉ F) : ∃ m', m.freePage p = .ok m' ∧ FreeSet m'.pmm (insert p F) ∧ m'.mem = m.mem ∧
      m'.swapInit = m.swapInit ∧ ∀ i, m'.ref i = if i = p then 0 else m.ref i := by
  obtain ⟨s', h3, h4, h5⟩ := h.free h1 h2 hp
  refine ⟨{ m with pmm := s' }, ?_, h4, rfl, rfl, h5⟩
  rw [freePage, freePages, h3]
  rfl

end Mm

end GarretOS
