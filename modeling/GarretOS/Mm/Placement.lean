import GarretOS.Mm.Allocator
import GarretOS.Mm.Pmm

/-!
# Where the allocated pages are

`init_page` puts the array `g_pages` behind the kernel image and hands the pages behind the kernel
area to the allocator.  The number of these pages, `g_num_free_pages`, is the size of the user
part of the virtual address space.

* `placed_iff` : the pages of the pool that lie in the memory of the machine and outside
  `g_pages`;
* `placement` : in a run of `alloc_pages` and `free_pages` all pages handed out are such pages
  only if no page is handed out at all: the first page of the pool always lies inside `g_pages`,
  and it is the first to be handed out.
-/

namespace GarretOS

open Set

/-- `VA_PA_OFFSET` -/
def vaPaOffset : ℕ := 0xFFFFFFFF00000000

/-- `KERNEL_BEGIN_PA` -/
def kernelBeginPa : ℕ := 0x80200000

/-- `KERNEL_BEGIN_VA` -/
def kernelBeginVa : ℕ := kernelBeginPa + vaPaOffset

/-- `KERNEL_END_VA` -/
def kernelEndVa : ℕ := kernelEndPa + vaPaOffset

/-- `sizeof(struct page)`: two list nodes, three `u32` with four bytes of padding, and a `u64`. -/
def sizeofPage : ℕ := 16 + (3 * 4 + 4) + 16 + 8

/-- The address `init_page` assigns to `g_pages`; `stop` is the symbol `end` of the linker. -/
def gPages (stop : ℕ) : ℕ := roundup stop pageSize

namespace BestFit

/-- The loop of `init_page` over the descriptors `0`, ..., `k - 1`. -/
def reservePages : ℕ → BestFit → BestFit
  | 0, s => s
  | k + 1, s => (reservePages k s).modifyPage k fun p => { p with flags := p.flags ||| pageReserved }

/-- `init_page`, without the assignment to `g_pages`. -/
def initPage (s : BestFit) : Res BestFit :=
  (s.reservePages (numQemuPages + numKernelPages)).bestFitInitMemmap
    (numQemuPages + numKernelPages) numFreePages

/-- Marking descriptors leaves the free list alone. -/
theorem reservePages_bestFitInit (k : ℕ) (s : BestFit) :
    reservePages k s.bestFitInit = (reservePages k s).bestFitInit := by
  induction k with
  | zero => rfl
  | succ k ih =>
    simp only [reservePages, ih]
    rfl

theorem reservePages_page {k i : ℕ} (s : BestFit) (hi : k ≤ i) :
    (reservePages k s).page i = s.page i := by
  induction k with
  | zero => rfl
  | succ k ih =>
    have hne : i ≠ k := by omega
    simp only [reservePages, modifyPage]
    rw [Function.update_of_ne hne, ih (by omega)]

/-- The loop of `best_fit_init_memmap` over pages that are not reserved. -/
theorem initPages_ok {base k : ℕ} {page : ℕ → Page}
    (h : ∀ i, base ≤ i → (page i).flags &&& pageReserved = 0) :
    ∃ page', initPages base k page = .ok page' ∧
      ∀ i, base ≤ i → (page' i).flags &&& pageReserved = 0 := by
  induction k with
  | zero => exact ⟨page, rfl, h⟩
  | succ k ih =>
    obtain ⟨q, hq, hflags⟩ := ih
    refine ⟨Function.update q (base + k) ⟨0, 0, 0⟩, ?_, fun i hi => ?_⟩
    · rw [initPages, hq, ok_bind, assert_of (hflags (base + k) (by omega)), ok_bind]
      rfl
    · by_cases hik : i = base + k
      · subst hik
        rw [Function.update_self]
        decide
      · rw [Function.update_of_ne hik]
        exact hflags i hi

theorem bestFitInitMemmap_ok {s : BestFit} {base n : ℕ} (hn : 0 < n)
    (h : ∀ i, base ≤ i → (s.page i).flags &&& pageReserved = 0) :
    ∃ s', s.bestFitInitMemmap base n = .ok s' := by
  obtain ⟨page, hpage, -⟩ := initPages_ok (k := n) h
  rw [bestFitInitMemmap, assert_of hn, ok_bind, hpage]
  exact ⟨_, rfl⟩

/-- `init_page` succeeds when no descriptor of the pool is marked as reserved. -/
theorem initPage_ok {s : BestFit} (h : ∀ i, poolBegin ≤ i → (s.page i).flags &&& pageReserved = 0) :
    ∃ s', s.initPage = .ok s' := by
  have hpos : 0 < numFreePages := by decide
  refine bestFitInitMemmap_ok hpos fun i hi => ?_
  rw [reservePages_page s hi]
  exact h i hi

/-- The first allocation is cut off the front of the pool. -/
theorem FreeList.first_alloc {s : BestFit} {base n k : ℕ}
    (h : FreeList s base (base + n) [(base, n)]) (hn : n < uint32Max) (hk : 0 < k) (hkn : k ≤ n) :
    s.bestFitAllocPages k = .ok (s.takeBlock base k, some base) := by
  have hnum : s.numFree = n := by simpa using h.numFree
  have hfind := (show FreeList s base (base + n) ([] ++ [(base, n)]) from h).findBest_eq k s.rounds
    h.length_lt_rounds none uint32Max
  have hbest : bestOf k [(base, n)] none uint32Max = some base := by
    rw [bestOf, if_pos ⟨hkn, hn⟩, bestOf]
  simp only [List.map_nil, List.getLastD_nil, hbest] at hfind
  unfold BestFit.bestFitAllocPages
  rw [assert_of hk, ok_bind, if_neg (by omega), hfind]
  rfl

end BestFit

/-! ### The pages of the pool -/

/-- The bytes of a frame. -/
def frameBytes (page : ℕ) : Set ℕ := Ico (page * pageSize) ((page + 1) * pageSize)

/-- The physical addresses of the descriptors `g_pages[0]`, ..., up to the end of the pool. -/
def descriptorBytes (stop : ℕ) : Set ℕ :=
  Ico (gPages stop - vaPaOffset) (gPages stop - vaPaOffset + poolEnd * sizeofPage)

/-- A frame lies in the memory of the machine above the kernel, `page2va` accepts it, and no
descriptor lies in it. -/
structure Placed (stop page : ℕ) : Prop where
  dram : frameBytes page ⊆ Ico kernelEndPa dramEndPa
  page2va : page2va page = .ok page
  apart : Disjoint (frameBytes page) (descriptorBytes stop)

/-- The array `g_pages` begins at or below the end of the kernel area. -/
theorem gPages_bounds {stop : ℕ} (h : kernelBeginVa ≤ stop) (h' : stop < kernelEndVa) :
    kernelBeginPa ≤ gPages stop - vaPaOffset ∧ gPages stop - vaPaOffset ≤ kernelEndPa := by
  simp only [kernelBeginVa, kernelEndVa, kernelBeginPa, kernelEndPa, vaPaOffset] at h h'
  have hlt : stop + pageSize - 1 < 2 ^ 64 := by
    rw [pageSize_eq]
    omega
  rw [gPages, roundup, u64_of_lt hlt, pageSize_eq, kernelBeginPa, kernelEndPa, vaPaOffset]
  omega

/-- The pages of the pool with a proper place: those between the end of `g_pages` and the end of
the memory. -/
theorem placed_iff {stop page : ℕ} (h : kernelBeginVa ≤ stop) (h' : stop < kernelEndVa)
    (hp : poolBegin ≤ page) (hp' : page < poolEnd) :
    Placed stop page ↔
      gPages stop - vaPaOffset + poolEnd * sizeofPage ≤ page * pageSize ∧
        (page + 1) * pageSize ≤ dramEndPa := by
  obtain ⟨-, hle⟩ := gPages_bounds h h'
  rw [poolBegin_eq] at hp
  simp only [kernelEndPa] at hle
  have hsize : poolEnd * sizeofPage = 59150336 := by decide
  constructor
  · rintro ⟨hdram, -, hapart⟩
    have hlast := hdram (show (page + 1) * pageSize - 1 ∈ frameBytes page by
      simp only [frameBytes, mem_Ico, pageSize_eq]
      omega)
    simp only [mem_Ico, kernelEndPa, dramEndPa, pageSize_eq] at hlast
    rw [dramEndPa, pageSize_eq]
    refine ⟨?_, by omega⟩
    by_contra hlt
    -- the frame begins inside the array, since the array begins below the pool
    refine Set.disjoint_left.1 hapart (show page * pageSize ∈ frameBytes page from ?_) ?_
    · simp only [frameBytes, mem_Ico, pageSize_eq]
      omega
    · simp only [descriptorBytes, mem_Ico, hsize, pageSize_eq] at hlt ⊢
      omega
  · rintro ⟨habove, hbelow⟩
    rw [hsize, pageSize_eq] at habove
    rw [dramEndPa, pageSize_eq] at hbelow
    refine ⟨fun i hi => ?_, ?_, ?_⟩
    · simp only [frameBytes, mem_Ico, pageSize_eq, kernelEndPa, dramEndPa] at hi ⊢
      omega
    · have hpool : poolBegin ≤ page ∧ page < poolEnd := ⟨by rw [poolBegin_eq]; exact hp, hp'⟩
      have hpa : dramBeginPa < page * pageSize ∧ page * pageSize < dramEndPa := by
        rw [dramBeginPa, dramEndPa, pageSize_eq]
        omega
      rw [GarretOS.page2va, page2ppn, assert_of hpool, ok_bind]
      simp only [pure_bind]
      rw [assert_of hpa, ok_bind]
      rfl
    · rw [Set.disjoint_left]
      intro i hi hd
      simp only [frameBytes, descriptorBytes, mem_Ico, pageSize_eq, hsize] at hi hd
      omega

/-- The array `g_pages` always covers the first page of the pool. -/
theorem not_placed_poolBegin {stop : ℕ} (h : kernelBeginVa ≤ stop) (h' : stop < kernelEndVa) :
    ¬ Placed stop poolBegin := by
  obtain ⟨hge, -⟩ := gPages_bounds h h'
  have hend : poolBegin * pageSize < kernelBeginPa + poolEnd * sizeofPage := by decide
  rw [placed_iff h h' le_rfl (by decide)]
  omega

/-- Most pages of the pool lie beyond the end of the memory. -/
theorem not_placed_dramEnd {stop page : ℕ} (hp : dramEndPa / pageSize ≤ page) :
    ¬ Placed stop page := by
  rintro ⟨hdram, -, -⟩
  have hfirst := hdram (show page * pageSize ∈ frameBytes page by
    simp only [frameBytes, mem_Ico, pageSize_eq]
    omega)
  rw [show dramEndPa / pageSize = 0x88000 by decide] at hp
  simp only [mem_Ico, dramEndPa, pageSize_eq] at hfirst
  omega

/-! ### Runs -/

/-- The memory, and the pages that are allocated. -/
structure PmmState where
  /-- The allocator and the content of memory. -/
  mm : Mm
  /-- The pages handed out and not freed since. -/
  live : Set ℕ

/-- The calls of `alloc_pages`, and of `free_pages` for allocated pages, after `init_pm_manager`
and `init_page`. -/
def pmmSystem : System PmmState BestFit.AllocOp where
  init s := (∃ s₀ : BestFit, s₀.bestFitInit.initPage = .ok s.mm.pmm) ∧ s.live = ∅
  step s op s' := match op with
    | .alloc k page => s.mm.allocPages k = .ok (s'.mm, page) ∧
        s'.live = s.live ∪ BestFit.granted k page
    | .free p k => Ico p (p + k) ⊆ s.live ∧ s.mm.freePages p k = .ok s'.mm ∧
        s'.live = s.live \ Ico p (p + k)

namespace PmmState

variable {s : PmmState} {ls : List BestFit.AllocOp}

/-- The runs of `alloc_pages` and `free_pages` are runs of the allocator. -/
theorem run_bestFit (h : pmmSystem.Run ls s) :
    (BestFit.bestFitSystem poolBegin numFreePages).Run ls ⟨s.mm.pmm, s.live⟩ := by
  induction h with
  | start h =>
    obtain ⟨⟨s₀, h0⟩, hlive⟩ := h
    refine .start ⟨⟨s₀.reservePages poolBegin, ?_⟩, hlive⟩
    rw [← BestFit.reservePages_bestFitInit]
    exact h0
  | @step ls s s' op _ hstep ih =>
    refine ih.step ?_
    cases op with
    | alloc k page =>
      obtain ⟨hk, hlive⟩ := hstep
      obtain ⟨⟨a, page'⟩, ha, hk⟩ := bind_eq_ok.1 hk
      dsimp only at hk
      split_ifs at hk
      obtain ⟨hmm, rfl⟩ := Prod.mk.inj (Except.ok.inj hk)
      exact ⟨by rw [ha, ← hmm], hlive⟩
    | free p k =>
      obtain ⟨hsub, hk, hlive⟩ := hstep
      obtain ⟨a, ha, hk⟩ := bind_eq_ok.1 hk
      exact ⟨hsub, by rw [ha, ← Except.ok.inj hk], hlive⟩

/-- Nothing has been handed out: all pages of the pool form one free block. -/
structure Untouched (s : PmmState) : Prop where
  freeList : s.mm.pmm.FreeList poolBegin poolEnd [(poolBegin, numFreePages)]
  live : s.live = ∅

theorem Untouched.start (h : pmmSystem.init s) : Untouched s := by
  obtain ⟨⟨s₀, h0⟩, hlive⟩ := h
  have hlt : numFreePages < 2 ^ 32 := by decide
  have hinit : (s₀.reservePages poolBegin).bestFitInit.bestFitInitMemmap poolBegin numFreePages =
      .ok s.mm.pmm := by
    rw [← BestFit.reservePages_bestFitInit]
    exact h0
  exact ⟨(BestFit.FreeList.of_initMemmap hlt hinit).1, hlive⟩

/-- The first successful allocation returns the first page of the pool; one that is not larger
than the pool succeeds. -/
theorem Untouched.alloc {s' : PmmState} {k : ℕ} {page : Option ℕ} (h : Untouched s)
    (hstep : pmmSystem.step s (.alloc k page) s') :
    0 < k ∧ (k ≤ numFreePages → page = some poolBegin) ∧ (page = none → Untouched s') := by
  obtain ⟨hk, hlive⟩ := hstep
  obtain ⟨⟨a, page'⟩, ha, hk⟩ := bind_eq_ok.1 hk
  dsimp only at hk
  split_ifs at hk
  obtain ⟨hmm, rfl⟩ := Prod.mk.inj (Except.ok.inj hk)
  have hpos : 0 < k := by
    obtain ⟨_, hx, -⟩ := bind_eq_ok.1 ha
    exact assert_eq_ok.1 hx
  have hsz : poolEnd - poolBegin < 2 ^ 32 := by decide
  refine ⟨hpos, fun hle => ?_, ?_⟩
  · have hfirst := h.freeList.first_alloc (by decide) hpos hle
    rw [hfirst] at ha
    exact (Prod.mk.inj (Except.ok.inj ha)).2.symm
  · rintro rfl
    rcases h.freeList.bestFitAllocPages hsz hpos with hnone | ⟨_, _, _, _, -, -, hsome, -⟩
    · rw [hnone] at ha
      obtain ⟨rfl, -⟩ := Prod.mk.inj (Except.ok.inj ha)
      rw [h.live] at hlive
      refine ⟨?_, by simpa [BestFit.granted] using hlive⟩
      rw [← hmm]
      exact h.freeList
    · rw [hsome] at ha
      cases (Prod.mk.inj (Except.ok.inj ha)).2

/-- Without an allocated page nothing can be freed. -/
theorem Untouched.not_free {s' : PmmState} {p k : ℕ} (h : Untouched s)
    (hstep : pmmSystem.step s (.free p k) s') : False := by
  obtain ⟨hsub, hk, -⟩ := hstep
  obtain ⟨a, ha, -⟩ := bind_eq_ok.1 hk
  obtain ⟨_, hx, -⟩ := bind_eq_ok.1 ha
  have hpos : 0 < k := assert_eq_ok.1 hx
  rw [h.live] at hsub
  exact hsub (show p ∈ Ico p (p + k) from ⟨le_rfl, by omega⟩)

/-- A run whose allocations all return `NULL` leaves the pool untouched. -/
theorem Untouched.run (h : pmmSystem.Run ls s) (hls : ∀ k p, .alloc k (some p) ∉ ls) :
    Untouched s := by
  induction h with
  | start h => exact .start h
  | @step ls s s' op _ hstep ih =>
    have hs := ih fun k p hm => hls k p (List.mem_append_left _ hm)
    rcases op with ⟨k, _ | p⟩ | ⟨p, k⟩
    · exact (hs.alloc hstep).2.2 rfl
    · exact absurd (List.mem_append_right _ (List.mem_singleton.2 rfl)) (hls k p)
    · exact (hs.not_free hstep).elim

/-- A page is handed out in a run just when some call asks for no more pages than the pool
has. -/
theorem grants_iff (h : pmmSystem.Run ls s) :
    (∃ k p, .alloc k (some p) ∈ ls) ↔ ∃ k page, .alloc k page ∈ ls ∧ k ≤ numFreePages := by
  constructor
  · rintro ⟨k, p, hm⟩
    refine ⟨k, some p, hm, ?_⟩
    obtain ⟨l₁, l₂, rfl⟩ := List.append_of_mem hm
    obtain ⟨s₁, s₂, hr, hstep⟩ := (run_bestFit h).split
    obtain ⟨bs, hpart⟩ := BestFit.run_partition (by decide) (hr.step hstep)
    have hsub : Ico p (p + k) ⊆ Ico poolBegin (poolBegin + numFreePages) := by
      rw [← hpart.union, hstep.2]
      exact fun i hi => Or.inr (Or.inr hi)
    rcases Nat.eq_zero_or_pos k with rfl | hpos
    · exact Nat.zero_le _
    · have hfirst := hsub (show p ∈ Ico p (p + k) from ⟨le_rfl, by omega⟩)
      have hlast := hsub (show p + k - 1 ∈ Ico p (p + k) from ⟨by omega, by omega⟩)
      rw [mem_Ico] at hfirst hlast
      omega
  · rintro ⟨k, page, hm, hk⟩
    by_contra hnone
    push Not at hnone
    obtain ⟨l₁, l₂, rfl⟩ := List.append_of_mem hm
    obtain ⟨s₁, s₂, hr, hstep⟩ := h.split
    have hs := Untouched.run hr fun k p hm => hnone k p (List.mem_append_left _ hm)
    obtain rfl := (hs.alloc hstep).2.1 hk
    exact hnone k poolBegin hm

/-- The first page handed out in a run is the first page of the pool. -/
theorem first_grant (h : pmmSystem.Run ls s) (hls : ∃ k p, .alloc k (some p) ∈ ls) :
    ∃ k, 0 < k ∧ .alloc k (some poolBegin) ∈ ls := by
  induction h with
  | start h => simp at hls
  | @step ls s s' op hr hstep ih =>
    by_cases hprev : ∃ k p, .alloc k (some p) ∈ ls
    · obtain ⟨k, hk, hm⟩ := ih hprev
      exact ⟨k, hk, List.mem_append_left _ hm⟩
    · push Not at hprev
      have hs := Untouched.run hr hprev
      obtain ⟨k, p, hm⟩ := hls
      rcases List.mem_append.1 hm with hm | hm
      · exact absurd hm (hprev k p)
      · obtain rfl := List.mem_singleton.1 hm
        obtain ⟨hpos, hfirst, -⟩ := hs.alloc hstep
        obtain ⟨k', page, hm', hle⟩ := (grants_iff (hr.step hstep)).1 ⟨k, p, by simp⟩
        rcases List.mem_append.1 hm' with hm' | hm'
        · cases page with
          | some q => exact absurd hm' (hprev k' q)
          | none =>
            obtain ⟨k'', q, hq⟩ := (grants_iff hr).2 ⟨k', none, hm', hle⟩
            exact absurd hq (hprev k'' q)
        · obtain ⟨rfl, -⟩ := BestFit.AllocOp.alloc.inj (List.mem_singleton.1 hm')
          obtain rfl := Option.some.inj (hfirst hle)
          exact ⟨k', hpos, by simp⟩

end PmmState

/-- **Placement**: the pages handed out in a run have a proper place only if every call asks for
more pages than the pool has, and so returns `NULL`. -/
theorem placement {stop : ℕ} (h : kernelBeginVa ≤ stop) (h' : stop < kernelEndVa)
    {ls : List BestFit.AllocOp} {s : PmmState} (hr : pmmSystem.Run ls s) :
    (∀ k p, .alloc k (some p) ∈ ls → ∀ i ∈ Ico p (p + k), Placed stop i) ↔
      ∀ k page, .alloc k page ∈ ls → numFreePages < k := by
  constructor
  · intro hplaced k page hm
    by_contra hle
    have hsome := (PmmState.grants_iff hr).2 ⟨k, page, hm, by omega⟩
    obtain ⟨k', hpos, hfirst⟩ := PmmState.first_grant hr hsome
    exact not_placed_poolBegin h h' (hplaced k' poolBegin hfirst poolBegin ⟨le_rfl, by omega⟩)
  · intro hlarge k p hm
    obtain ⟨k', page, hm', hle⟩ := (PmmState.grants_iff hr).1 ⟨k, p, hm⟩
    have hlt := hlarge k' page hm'
    omega

/-- After the initialisation one page is allocated. -/
theorem one_page_allocated : ∃ s, pmmSystem.Run [.alloc 1 (some poolBegin)] s := by
  obtain ⟨a, ha⟩ := BestFit.initPage_ok
    (s := (⟨fun _ => ⟨0, 0, 0⟩, ⟨id, id⟩, 0⟩ : BestFit).bestFitInit) fun _ _ => by
      change (0 : UInt32) &&& pageReserved = 0
      decide
  have h₀ : pmmSystem.Run [] ⟨⟨a, fun _ _ => 0, false⟩, ∅⟩ := .start ⟨⟨_, ha⟩, rfl⟩
  have halloc := (PmmState.Untouched.start (s := ⟨⟨a, fun _ _ => 0, false⟩, ∅⟩)
    ⟨⟨_, ha⟩, rfl⟩).freeList.first_alloc (k := 1) (by decide) (by decide) (by decide)
  refine ⟨⟨⟨a.takeBlock poolBegin 1, fun _ _ => 0, false⟩, ∅ ∪ Ico poolBegin (poolBegin + 1)⟩,
    h₀.step ⟨?_, rfl⟩⟩
  rw [Mm.allocPages, halloc]
  rfl

/-- With the smallest kernel image, one allocation hands out a page that `g_pages` covers. -/
theorem placement_first : ∃ s, pmmSystem.Run [.alloc 1 (some poolBegin)] s ∧
    ¬ Placed kernelBeginVa poolBegin := by
  obtain ⟨s, hs⟩ := one_page_allocated
  have hiff := placement le_rfl (by decide) hs
  refine ⟨s, hs, fun hp => ?_⟩
  have hall : ∀ k p, .alloc k (some p) ∈ [BestFit.AllocOp.alloc 1 (some poolBegin)] →
      ∀ i ∈ Ico p (p + k), Placed kernelBeginVa i := by
    intro k p hm i hi
    obtain ⟨rfl, hp'⟩ := BestFit.AllocOp.alloc.inj (List.mem_singleton.1 hm)
    obtain rfl := Option.some.inj hp'
    obtain rfl : i = poolBegin := by
      rw [mem_Ico] at hi
      omega
    exact hp
  exact absurd (hiff.1 hall 1 (some poolBegin) (by simp)) (by decide)

/-- The first page handed out lies inside `g_pages`. -/
theorem first_page_covered : ¬ ∀ stop, kernelBeginVa ≤ stop → stop < kernelEndVa →
    ∀ ls s, pmmSystem.Run ls s → ∀ k p, .alloc k (some p) ∈ ls →
      ∀ i ∈ Ico p (p + k), Placed stop i := by
  intro hall
  obtain ⟨s, hs⟩ := one_page_allocated
  have hp := hall kernelBeginVa le_rfl (by decide) _ s hs 1 poolBegin (by simp) poolBegin
    ⟨le_rfl, by omega⟩
  exact not_placed_poolBegin le_rfl (by decide) hp

end GarretOS
