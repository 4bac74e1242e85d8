import Mathlib
import GarretOS.Mm.FreeBlocks
import GarretOS.Mm.PageMap
import GarretOS.Mm.SwapSlots

/-!
# Allocation when memory runs low

After `init_swap` has set `g_swap_init_flag`, `alloc_pages(n)` does not return `NULL`: as long as
no `n` consecutive pages are free it has `n` pages of `g_test_vmm` swapped out and tries again.

* `FreeRuns.alloc`, `FreeRuns.free` : the allocator on the set of free pages;
* `TestVmm.swapOut` : `swap_out` frees the pages of `g_pra_list`, the oldest first, and fails when
  there are fewer than it is to free;
* `Ready.allocPages_cases` : what `alloc_pages` has done when it returns;
* `alloc_pages_serves` : just when it does return.
-/

namespace GarretOS

open Extents Radix Set

/-! ### The allocator and the runs of free pages -/

/-- The free pages are those of `F`, and the blocks of the free list are its runs. -/
def FreeRuns (s : BestFit) (F : Set ℕ) : Prop :=
  ∃ bs, BestFit.FreeList s poolBegin poolEnd bs ∧ Runs F bs

namespace FreeRuns

variable {s : BestFit} {F : Set ℕ}

theorem freeSet (h : FreeRuns s F) : FreeSet s F := by
  obtain ⟨bs, hfl, hruns⟩ := h
  exact ⟨bs, hfl, hruns.cover⟩

/-- An allocation of `n` pages returns `NULL` and changes nothing if no `n` consecutive pages are
free, and takes such pages otherwise. -/
theorem alloc (h : FreeRuns s F) {n : ℕ} (hn : 0 < n) :
    ((¬ ∃ p, Ico p (p + n) ⊆ F) ∧ s.bestFitAllocPages n = .ok (s, none)) ∨
      ∃ s' p, s.bestFitAllocPages n = .ok (s', some p) ∧ Ico p (p + n) ⊆ F ∧
        FreeRuns s' (F \ Ico p (p + n)) ∧ ∀ i, (s'.page i).ref = (s.page i).ref := by
  obtain ⟨bs, hfl, hruns⟩ := h
  obtain ⟨s', page, hok, hnone, hsame, hsome⟩ := hfl.best_fit_exact (by decide) hn
  cases page with
  | none =>
    obtain rfl := hsame rfl
    refine Or.inl ⟨fun hp => ?_, hok⟩
    obtain ⟨b, hb, hnb⟩ := (hruns.exists_ge_iff hn).2 hp
    have := hnone.1 rfl b hb
    omega
  | some p =>
    obtain ⟨as, k, cs, rfl, hnk, -, -, hfl', hcov, -, href⟩ := hsome p rfl
    refine Or.inr ⟨s', p, hok, ?_, ⟨_, hfl', hruns.cut hn hnk⟩, href⟩
    rw [← hruns.cover, hcov]
    exact subset_union_left

/-- Freeing pages of the pool that are not free. -/
theorem free (h : FreeRuns s F) {base n : ℕ} (hn : 0 < n) (hlo : poolBegin ≤ base)
    (hhi : base + n ≤ poolEnd) (hd : Disjoint (Ico base (base + n)) F) :
    ∃ s', s.bestFitFreePages base n = .ok s' ∧ FreeRuns s' (F ∪ Ico base (base + n)) ∧
      ∀ i, (s'.page i).ref = if base ≤ i ∧ i < base + n then 0 else (s.page i).ref := by
  obtain ⟨bs, hfl, hruns⟩ := h
  rw [← hruns.cover] at hd
  obtain ⟨as, cs, rfl, hbefore, hafter⟩ := hfl.exists_gap hn hd
  obtain ⟨s', hok, hfl', href⟩ :=
    hfl.bestFitFreePages FreeSet.pool_size hn hlo hhi hbefore hafter
  exact ⟨s', hok, ⟨_, hfl', hruns.insert (b := (base, n)) hn hbefore hafter⟩, href⟩

end FreeRuns

namespace SwapMm

/-! ### The pages that can be swapped out -/

/-- The pages of `g_pra_list` before the link `list`, the next one first. -/
def praPages (s : SwapMm) : ℕ → Option ℕ → List ℕ
  | 0, _ => []
  | k + 1, list =>
    match s.praLink.prev list with
    | none => []
    | some page => page :: s.praPages k (some page)

/-- The pages that `swap_out` can take from `g_test_vmm`, in the order in which it takes them. -/
def victims (s : SwapMm) : List ℕ :=
  match s.testVmm with
  | none => []
  | some _ => s.praPages numFreePages none

/-- After the first `m` of them are swapped out, `n` consecutive pages are free. -/
def RunAfter (s : SwapMm) (m n : ℕ) : Prop :=
  m ≤ s.victims.length ∧
    ∃ p, Ico p (p + n) ⊆ s.mm.pmm.freePages ∪ {q | q ∈ s.victims.take m}

/-- An allocation of `n` pages is served: `alloc_pages(n)` returns, with `n` pages that are free or
can be made free by swapping, or with `NULL` if there are none; and a `malloc` that asks for `n`
pages returns `NULL` just when `alloc_pages(n)` does. -/
structure Serves (s : SwapMm) (n : ℕ) : Prop where
  alloc : ∃ k s' page, s.allocPages n k = .ok (s', page) ∧ (page = none ↔ ∀ m, ¬ s.RunAfter m n) ∧
    ∀ p, page = some p → Ico p (p + n) ⊆ s.mm.pmm.freePages ∪ {q | q ∈ s.victims} ∧
      Disjoint (Ico p (p + n)) s'.mm.pmm.freePages
  malloc : ∀ size, Mm.numPages size = n →
    ((∃ k s', s.malloc size k = .ok (s', none)) ↔ ∃ k s', s.allocPages n k = .ok (s', none))

/-- The page is mapped once in the page table `r`, at its address, and this address has a slot on
the disk. -/
structure Swappable (s : SwapMm) (r page : ℕ) : Prop where
  once : s.mm.ref page = 1
  slot : 0 < s.praAddr page / 4096 ∧ s.praAddr page / 4096 < 8
  mapped : ∃ pte, s.mm.entry r (s.praAddr page) = some pte ∧ pte2ppn pte = page
  addressable : page * pageSize < dramEndPa

/-- The address space `v` is set up for swapping: the pages `ps` can be swapped out, the first of
them is the oldest one. -/
structure TestVmm (s : SwapMm) (v : ℕ) (F : Set ℕ) (ps : List ℕ) : Prop where
  praList : s.praList v = true
  ring : Ring s.praLink none (ps.reverse.map some)
  table : ∃ r D, (s.vmm v).pGpt = some r ∧ s.mm.Consistent {r} userEntries D F ∧
    ∀ p ∈ ps, s.Swappable r p

/-- A state after `init_swap` has set `g_swap_init_flag`. -/
structure Ready (s : SwapMm) (F : Set ℕ) (ps : List ℕ) : Prop where
  swapInit : s.mm.swapInit = true
  free : FreeRuns s.mm.pmm F
  noVmm : s.testVmm = none → ps = []
  test : ∀ v, s.testVmm = some v → s.TestVmm v F ps

variable {s s' : SwapMm} {v r n : ℕ} {F : Set ℕ} {p : ℕ} {ps : List ℕ}

theorem Swappable.index (h : s.Swappable r p) : getGptx (s.praAddr p) ∈ userEntries := by
  have := h.slot.2
  refine getGptx_user ?_
  rw [userEnd]
  omega

theorem Swappable.addr_lt (h : s.Swappable r p) : s.praAddr p < 2 ^ 56 := by
  have := h.slot.2
  omega

/-! ### Swapping out -/

theorem swapEntry_invalid {addr : ℕ} (h : addr < 2 ^ 56) : Mm.target (addr2swap addr) = none := by
  have hpow : (addr / 2 ^ 12) * 2 ^ 8 < 2 ^ 64 := by omega
  refine if_neg ?_
  rw [isValid_iff, addr2swap, Nat.shiftRight_eq_div_pow, Nat.shiftLeft_eq, pageShift, swapShift,
    u64_of_lt hpow]
  omega

/-- The leaf entry of a page that can be swapped out. -/
theorem Swappable.findPte {D : Set ℕ} (h : s.Swappable r p)
    (hc : s.mm.Consistent {r} userEntries D F) (hgpt : (s.vmm v).pGpt = some r) :
    ∃ q, s.findPte v (s.praAddr p) = .ok q ∧ s.mm.slot r (s.praAddr p) = some q ∧
      isValid (s.mm.load q) ∧ s.mm.child q.1 q.2 = some p := by
  obtain ⟨pte, he, hp⟩ := h.mapped
  cases hs : s.mm.slot r (s.praAddr p) with
  | none => simp [Mm.entry, hs] at he
  | some q =>
    obtain ⟨hv, rfl⟩ := (Mm.entry_eq_some_iff hs).1 he
    refine ⟨q, ?_, rfl, hv, hp ▸ Mm.child_of_valid hv⟩
    rw [SwapMm.findPte, VmManager.gpt, hgpt, ok_bind, Mm.getPte_false hc.tables rfl h.index, hs]
    rfl

/-- The state after the page `p` with the leaf entry `q` is swapped out; `a` is the allocator then. -/
def evicted (s : SwapMm) (p : ℕ) (q : PtePtr) (a : BestFit) : SwapMm :=
  { s.writeIdeSects p (u32 (s.praAddr p / 4096 * pageSect)) pageSect with
    praLink := s.praLink.delList (some p)
    mm := { s.mm.store q (addr2swap (s.praAddr p)) with pmm := a } }

/-- What `swap_out` does to one page. -/
theorem Swappable.swapOutPage {q : PtePtr} {a : BestFit} (h : s.Swappable r p)
    (hfind : s.findPte v (s.praAddr p) = .ok q) (hv : isValid (s.mm.load q))
    (hpra : s.praList v = true) (hring : Ring s.praLink none (ps.map some ++ [some p]))
    (hlo : poolBegin ≤ p) (ha : s.mm.pmm.bestFitFreePages p 1 = .ok a) :
    s.swapOutPage v = .ok (s.evicted p q a) := by
  have hprev : s.praLink.prev none = some p := by rw [hring.prev_head]; simp
  have hne : s.praLink.listEmpty none = false := by rw [hring.listEmpty_head]; simp
  have hoff : swapOffset (addr2swap (s.praAddr p)) = .ok (s.praAddr p / 4096) :=
    (swapOffset_addr2swap h.addr_lt).2 ⟨h.slot, rfl⟩
  have hfifo : s.fifoSwapOutPage v =
      .ok ({ s with praLink := s.praLink.delList (some p) }, p) := by
    rw [fifoSwapOutPage, checkPraList, if_pos hpra, ok_bind, assert_of (by simp [hne]), ok_bind,
      hprev]
    rfl
  set s₁ : SwapMm := { s with praLink := s.praLink.delList (some p) }
  have hfind₁ : s₁.findPte v (s.praAddr p) = .ok q := hfind
  have hv₁ : isValid (s₁.mm.load q) := hv
  have hwrite : s₁.writeSwapIde (addr2swap (s.praAddr p)) p =
      .ok (s₁.writeIdeSects p (u32 (s.praAddr p / 4096 * pageSect)) pageSect) := by
    rw [SwapMm.writeSwapIde, page2va_eq hlo h.addressable, ok_bind, hoff, ok_bind]
    rfl
  have hfree : (s.mm.store q (addr2swap (s.praAddr p))).freePage p =
      .ok { s.mm.store q (addr2swap (s.praAddr p)) with pmm := a } := by
    have ha' : (s.mm.store q (addr2swap (s.praAddr p))).pmm.bestFitFreePages p 1 = .ok a := ha
    rw [Mm.freePage, Mm.freePages, ha']
    rfl
  rw [SwapMm.swapOutPage, hfifo, ok_bind]
  simp only
  rw [hfind₁, ok_bind, assert_of hv₁, ok_bind, hwrite, ok_bind]
  exact (congrArg (· >>= _) hfree).trans rfl

/-- The entry of a page that is swapped out loses its page, and this was the only entry that
mapped it. -/
theorem Swappable.rewritten {q : PtePtr} {a : BestFit} (h : s.Swappable r p)
    (hchild : s.mm.child q.1 q.2 = some p) (hfree : FreeRuns a (F ∪ {p}))
    (href : ∀ i, (a.page i).ref = if i = p then 0 else (s.mm.pmm.page i).ref) :
    Mm.Rewritten s.mm (s.evicted p q a).mm F q (addr2swap (s.praAddr p)) ∧
      s.mm.dropped q (addr2swap (s.praAddr p)) = {p} := by
  have hwt := swapEntry_invalid h.addr_lt
  have hdrop : s.mm.dropped q (addr2swap (s.praAddr p)) = {p} := by
    ext x
    simp only [Mm.dropped, mem_ofPred_eq, hchild, hwt, mem_singleton_iff]
    constructor
    · rintro ⟨hx, -⟩
      exact (Option.some.inj hx).symm
    · rintro rfl
      exact ⟨rfl, by simp, h.once⟩
  refine ⟨⟨rfl, hdrop ▸ hfree.freeSet, fun x => ?_, rfl⟩, hdrop⟩
  have hx : (s.evicted p q a).mm.ref x = (a.page x).ref := rfl
  rw [hwt, hchild, hx, href]
  by_cases hxp : x = p
  · subst hxp
    simp [h.once]
  · rw [if_neg hxp, if_neg (by simpa using Ne.symm hxp), if_neg (by simp)]
    rfl

theorem TestVmm.nodup (h : s.TestVmm v F ps) : ps.Nodup :=
  List.nodup_reverse.1 (h.ring.nodup.of_cons.of_map some)

/-- **`swap_out`** of one page: the oldest page becomes free. -/
theorem TestVmm.swapOutPage (h : s.TestVmm v F (p :: ps)) (hfree : FreeRuns s.mm.pmm F) :
    ∃ s', s.swapOutPage v = .ok s' ∧ s'.TestVmm v (F ∪ {p}) ps ∧
      FreeRuns s'.mm.pmm (F ∪ {p}) ∧ s'.mm.swapInit = s.mm.swapInit ∧ s'.testVmm = s.testVmm := by
  obtain ⟨r, D, hgpt, hc, hps⟩ := h.table
  have hp := hps p (by simp)
  obtain ⟨q, hfind, hslot, hv, hchild⟩ := hp.findPte hc hgpt
  obtain ⟨hl, hk⟩ := Mm.slot_leaf (R := {r}) rfl hp.index hslot
  obtain ⟨hlo, hhi, hF⟩ := hc.tables.data p (hc.tables.mapped p q ⟨hl, hk, hchild⟩)
  have hring : Ring s.praLink none (ps.reverse.map some ++ [some p]) := by simpa using h.ring
  obtain ⟨a, ha, hfree', href⟩ := hfree.free one_pos hlo (by omega)
    (by rw [FreeSet.Ico_one]; exact disjoint_singleton_left.2 hF)
  rw [FreeSet.Ico_one] at hfree'
  have href' : ∀ i, (a.page i).ref = if i = p then 0 else (s.mm.pmm.page i).ref := by
    intro i
    rw [href]
    exact if_congr (by omega) rfl rfl
  obtain ⟨hrw, hdrop⟩ := hp.rewritten hchild hfree' href'
  have ht := hrw.touched hc.tables (rfl : r ∈ ({r} : Set ℕ)) hslot
  rw [hdrop] at ht
  have hc' := hc.touched (r := r) rfl hp.index ht fun x hx y hy => by
    obtain rfl := Option.some.inj hx
    rw [swapEntry_invalid hp.addr_lt] at hy
    cases hy
  refine ⟨s.evicted p q a, hp.swapOutPage hfind hv h.praList hring hlo ha,
    ⟨h.praList, ?_, r, D \ {p}, hgpt, hc', fun x hx => ?_⟩, hfree', rfl, rfl⟩
  · have := hring.remove
    rwa [List.append_nil] at this
  · have hne : x ≠ p := by
      rintro rfl
      exact (List.nodup_cons.1 h.nodup).1 hx
    have hsx := hps x (List.mem_cons_of_mem _ hx)
    obtain ⟨pte, he, hpx⟩ := hsx.mapped
    have hind : ¬ (r = r ∧ indices (s.praAddr x) = indices (s.praAddr p)) := by
      rintro ⟨-, hi⟩
      rw [Mm.entry, Mm.slot_congr_indices hi, ← Mm.entry] at he
      obtain ⟨pte', he', hpp⟩ := hp.mapped
      obtain rfl := Option.some.inj (he.symm.trans he')
      exact hne (hpx.symm.trans hpp)
    have hentry := hrw.entry_eq hc.tables (rfl : r ∈ ({r} : Set ℕ)) hp.index hslot rfl hsx.index
    rw [if_neg hind] at hentry
    exact ⟨(href' x).trans ((if_neg hne).trans hsx.once), hsx.slot, ⟨pte, hentry.trans he, hpx⟩,
      hsx.addressable⟩

/-- **`swap_out`** of the oldest pages. -/
theorem TestVmm.swapOut {as : List ℕ} (h : s.TestVmm v F (as ++ ps)) (hfree : FreeRuns s.mm.pmm F) :
    ∃ s', SwapMm.swapOut v as.length s = .ok s' ∧ s'.TestVmm v (F ∪ {p | p ∈ as}) ps ∧
      FreeRuns s'.mm.pmm (F ∪ {p | p ∈ as}) ∧ s'.mm.swapInit = s.mm.swapInit ∧
      s'.testVmm = s.testVmm := by
  induction as generalizing s F with
  | nil => exact ⟨s, rfl, by simpa using h, by simpa using hfree, rfl, rfl⟩
  | cons a as ih =>
    obtain ⟨s₁, hs₁, h₁, hfree₁, hinit₁, hvmm₁⟩ := h.swapOutPage hfree
    obtain ⟨s₂, hs₂, h₂, hfree₂, hinit₂, hvmm₂⟩ := ih h₁ hfree₁
    have hset : F ∪ {a} ∪ {p | p ∈ as} = F ∪ {p | p ∈ a :: as} := by
      ext p
      simp [or_left_comm, or_assoc]
    rw [hset] at h₂ hfree₂
    refine ⟨s₂, ?_, h₂, hfree₂, hinit₂.trans hinit₁, hvmm₂.trans hvmm₁⟩
    rw [List.length_cons, SwapMm.swapOut, hs₁]
    exact hs₂

/-- `swap_out` cannot free more pages than there are in the list. -/
theorem TestVmm.swapOut_fails (h : s.TestVmm v F ps) (hfree : FreeRuns s.mm.pmm F)
    (hn : ps.length < n) : SwapMm.swapOut v n s ≠ .ok s' := by
  induction ps generalizing s F n with
  | nil =>
    obtain ⟨n, rfl⟩ : ∃ k, n = k + 1 := ⟨n - 1, by simp at hn; omega⟩
    have hring : Ring s.praLink none [] := h.ring
    have hempty : s.praLink.listEmpty none = true := hring.listEmpty_head
    intro hok
    obtain ⟨t, ht, -⟩ := bind_eq_ok.1 hok
    obtain ⟨⟨u, x⟩, hu, -⟩ := bind_eq_ok.1 ht
    obtain ⟨-, -, hu⟩ := bind_eq_ok.1 hu
    obtain ⟨_, hne, -⟩ := bind_eq_ok.1 hu
    exact assert_eq_ok.1 hne hempty
  | cons p ps ih =>
    obtain ⟨n, rfl⟩ : ∃ k, n = k + 1 := ⟨n - 1, by simp at hn; omega⟩
    obtain ⟨s₁, hs₁, h₁, hfree₁, -⟩ := h.swapOutPage hfree
    rw [SwapMm.swapOut, hs₁]
    exact ih h₁ hfree₁ (by simpa using hn)

/-! ### Allocation -/

/-- The state after the allocator has become `a`. -/
theorem TestVmm.pmm {a : BestFit} {F' : Set ℕ} (h : s.TestVmm v F ps)
    (hc : ∀ r D, s.mm.Consistent {r} userEntries D F →
      ∃ D', Mm.Consistent { s.mm with pmm := a } {r} userEntries D' F')
    (href : ∀ p ∈ ps, (a.page p).ref = s.mm.ref p) :
    TestVmm { s with mm := { s.mm with pmm := a } } v F' ps := by
  obtain ⟨r, D, hgpt, hcons, hps⟩ := h.table
  obtain ⟨D', hc'⟩ := hc r D hcons
  exact ⟨h.praList, h.ring, r, D', hgpt, hc', fun p hp => ⟨(href p hp).trans (hps p hp).once,
    (hps p hp).slot, (hps p hp).mapped, (hps p hp).addressable⟩⟩

/-- Where `n` consecutive pages are free, `alloc_pages(n)` takes such pages. -/
theorem Ready.allocPages_of_run (h : s.Ready F ps) (hn : 0 < n) (hrun : ∃ p, Ico p (p + n) ⊆ F)
    (k : ℕ) : ∃ s' p, s.allocPages n (k + 1) = .ok (s', some p) ∧ Ico p (p + n) ⊆ F ∧
      s'.Ready (F \ Ico p (p + n)) ps := by
  rcases h.free.alloc hn with ⟨hno, -⟩ | ⟨a, p, ha, hp, hfree, href⟩
  · exact absurd hrun hno
  · refine ⟨{ s with mm := { s.mm with pmm := a } }, p, ?_, hp, h.swapInit, hfree, h.noVmm,
      fun v hv => (h.test v hv).pmm (fun r D hc => ⟨D, ?_⟩) fun q _ => href q⟩
    · rw [allocPages, ha]
      rfl
    · exact hc.shrink rfl href hfree.freeSet sdiff_subset

/-- Where there are none, `n` pages are swapped out. -/
theorem Ready.allocPages_of_not_run (h : s.Ready F ps) (hn : 0 < n)
    (hrun : ¬ ∃ p, Ico p (p + n) ⊆ F) (k : ℕ) : s.allocPages n (k + 1) =
      match s.testVmm with
      | none => .error (.panic "handle page fault failed.")
      | some v => SwapMm.swapOut v n s >>= SwapMm.allocPages n k := by
  rcases h.free.alloc hn with ⟨-, ha⟩ | ⟨a, p, -, hp, -⟩
  · rw [allocPages, ha, ok_bind]
    exact if_neg (by simp [h.swapInit])
  · exact absurd ⟨p, hp⟩ hrun

/-- The pages are swapped out `n` at a time. -/
theorem Ready.swapOut (h : s.Ready F ps) (hv : s.testVmm = some v) (hn : n ≤ ps.length) :
    ∃ s', SwapMm.swapOut v n s = .ok s' ∧ s'.Ready (F ∪ {q | q ∈ ps.take n}) (ps.drop n) := by
  have ht := h.test v hv
  rw [← List.take_append_drop n ps] at ht
  obtain ⟨s', hs', ht', hfree, hinit, hvmm⟩ := ht.swapOut h.free
  rw [List.length_take_of_le hn] at hs'
  refine ⟨s', hs', hinit.trans h.swapInit, hfree, fun hnone => ?_, fun w hw => ?_⟩
  · rw [hvmm, hv] at hnone
    cases hnone
  · rw [hvmm, hv] at hw
    obtain rfl := Option.some.inj hw
    exact ht'

theorem take_rounds (F : Set ℕ) (ps : List ℕ) (j n : ℕ) :
    F ∪ {q | q ∈ ps.take n} ∪ {q | q ∈ (ps.drop n).take (j * n)} =
      F ∪ {q | q ∈ ps.take ((j + 1) * n)} := by
  rw [Nat.add_one_mul, Nat.add_comm, List.take_add]
  ext q
  simp [or_assoc]

/-- **What `alloc_pages` has done when it returns**: some times over it has swapped out `n` pages,
and now it takes `n` consecutive pages. -/
theorem Ready.allocPages_cases (h : s.Ready F ps) (hn : 0 < n) {k : ℕ} {page : Option ℕ}
    (hok : s.allocPages n k = .ok (s', page)) : ∃ j p, page = some p ∧ j * n ≤ ps.length ∧
      Ico p (p + n) ⊆ F ∪ {q | q ∈ ps.take (j * n)} ∧
      s'.Ready ((F ∪ {q | q ∈ ps.take (j * n)}) \ Ico p (p + n)) (ps.drop (j * n)) := by
  induction k generalizing s F ps with
  | zero => cases hok
  | succ k ih =>
    by_cases hrun : ∃ p, Ico p (p + n) ⊆ F
    · obtain ⟨s₁, p, hs₁, hp, h₁⟩ := h.allocPages_of_run hn hrun k
      obtain ⟨rfl, rfl⟩ := Prod.mk.inj (Except.ok.inj (hs₁.symm.trans hok))
      exact ⟨0, p, rfl, by simp, by simpa using hp, by simpa using h₁⟩
    · rw [h.allocPages_of_not_run hn hrun] at hok
      cases hv : s.testVmm with
      | none =>
        rw [hv] at hok
        cases hok
      | some v =>
        rw [hv] at hok
        obtain ⟨s₁, hs₁, hok⟩ := bind_eq_ok.1 hok
        have hlen : n ≤ ps.length := by
          by_contra hlt
          exact (h.test v hv).swapOut_fails h.free (by omega) hs₁
        obtain ⟨s₂, hs₂, h₂⟩ := h.swapOut hv hlen
        obtain rfl := Except.ok.inj (hs₁.symm.trans hs₂)
        obtain ⟨j, p, hpage, hj, hp, h'⟩ := ih h₂ hok
        rw [take_rounds] at hp h'
        rw [List.length_drop] at hj
        rw [List.drop_drop, show n + j * n = (j + 1) * n by rw [Nat.add_one_mul, Nat.add_comm]] at h'
        exact ⟨j + 1, p, hpage, by rw [Nat.add_one_mul]; omega, hp, h'⟩

/-- **`alloc_pages` returns** when swapping out pages, `n` at a time, makes `n` consecutive pages
free. -/
theorem Ready.allocPages_of_swap (h : s.Ready F ps) (hn : 0 < n) {j : ℕ} (hj : j * n ≤ ps.length)
    (hrun : ∃ p, Ico p (p + n) ⊆ F ∪ {q | q ∈ ps.take (j * n)}) :
    ∃ k s' p, s.allocPages n k = .ok (s', some p) := by
  induction j generalizing s F ps with
  | zero =>
    obtain ⟨s', p, hok, -⟩ := h.allocPages_of_run hn (by simpa using hrun) 0
    exact ⟨1, s', p, hok⟩
  | succ j ih =>
    by_cases hnow : ∃ p, Ico p (p + n) ⊆ F
    · obtain ⟨s', p, hok, -⟩ := h.allocPages_of_run hn hnow 0
      exact ⟨1, s', p, hok⟩
    · rw [Nat.add_one_mul] at hj
      cases hv : s.testVmm with
      | none =>
        rw [h.noVmm hv] at hj
        simp only [List.length_nil] at hj
        omega
      | some v =>
        obtain ⟨s₁, hs₁, h₁⟩ := h.swapOut hv (by omega : n ≤ ps.length)
        obtain ⟨k, s', p, hok⟩ := ih h₁ (by rw [List.length_drop]; omega)
          (by rwa [take_rounds])
        refine ⟨k + 1, s', p, ?_⟩
        rw [h.allocPages_of_not_run hn hnow, hv]
        simp only [hs₁, ok_bind, hok]

/-! ### The list of swappable pages -/

theorem TestVmm.praPages_eq {as : List ℕ} (h : s.TestVmm v F (as ++ ps)) (k : ℕ)
    (hk : ps.length ≤ k) : s.praPages k ((as.reverse.map some).headD none) = ps := by
  have hring := h.ring
  rw [List.reverse_append, List.map_append] at hring
  induction ps generalizing as k with
  | nil =>
    cases k with
    | zero => rfl
    | succ k =>
      have hprev := hring.prev_headD
      simp only [List.reverse_nil, List.map_nil, List.getLastD_nil] at hprev
      simp only [praPages, hprev]
  | cons p ps ih =>
    obtain ⟨k, rfl⟩ : ∃ j, k = j + 1 := ⟨k - 1, by simp at hk; omega⟩
    have hprev : s.praLink.prev ((as.reverse.map some).headD none) = some p := by
      rw [hring.prev_headD]
      simp
    have hrest := @ih (as ++ [p]) (by simpa using h) k (by simpa using hk) (by simpa using hring)
    simp only [List.reverse_append, List.reverse_singleton, List.singleton_append, List.map_cons,
      List.headD_cons] at hrest
    simp only [praPages, hprev, hrest]

theorem TestVmm.length_le (h : s.TestVmm v F ps) : ps.length ≤ numFreePages := by
  obtain ⟨r, D, hgpt, hc, hps⟩ := h.table
  have hsub : ps.toFinset ⊆ Finset.Ico poolBegin poolEnd := by
    intro p hp
    have hp := hps p (List.mem_toFinset.1 hp)
    obtain ⟨pte, he, rfl⟩ := hp.mapped
    obtain ⟨h1, h2, -⟩ := hc.tables.data _ (Mm.entry_mem hc.tables rfl hp.index he)
    exact Finset.mem_Ico.2 ⟨h1, h2⟩
  have hcard := Finset.card_le_card hsub
  rwa [List.toFinset_card_of_nodup h.nodup, Nat.card_Ico, poolEnd, Nat.add_sub_cancel_left] at hcard

theorem Ready.victims_eq (h : s.Ready F ps) : s.victims = ps := by
  unfold victims
  cases hv : s.testVmm with
  | none => exact (h.noVmm hv).symm
  | some v =>
    have ht : s.TestVmm v F ([] ++ ps) := h.test v hv
    exact ht.praPages_eq _ (h.test v hv).length_le

theorem Ready.runAfter_iff (h : s.Ready F ps) (m n : ℕ) : s.RunAfter m n ↔
    m ≤ ps.length ∧ ∃ p, Ico p (p + n) ⊆ F ∪ {q | q ∈ ps.take m} := by
  rw [RunAfter, h.victims_eq, h.free.freeSet.freePages_eq]

/-- After `init_swap` no call of `alloc_pages` returns `NULL`. -/
theorem Ready.allocPages_ne_null (h : s.Ready F ps) (hn : 0 < n) (k : ℕ) :
    s.allocPages n k ≠ .ok (s', none) := by
  intro hok
  obtain ⟨j, p, hpage, -⟩ := h.allocPages_cases hn hok
  cases hpage

/-- `malloc` never returns `NULL`, not even where `alloc_pages` does. -/
theorem malloc_ne_null (s : SwapMm) (size k : ℕ) : s.malloc size k ≠ .ok (s', none) := by
  intro hok
  obtain ⟨_, -, hok⟩ := bind_eq_ok.1 hok
  obtain ⟨⟨t, page⟩, -, hok⟩ := bind_eq_ok.1 hok
  cases page with
  | none => cases hok
  | some page =>
    obtain ⟨va, -, hok⟩ := bind_eq_ok.1 hok
    cases hok

/-- An allocation is served just when some number of rounds of swapping out leads to a run. -/
theorem Ready.serves_iff (h : s.Ready F ps) (hn : 0 < n) :
    s.Serves n ↔ ∃ j, s.RunAfter (j * n) n := by
  constructor
  · rintro ⟨⟨k, s', page, hok, -⟩, -⟩
    obtain ⟨j, p, -, hj, hp, -⟩ := h.allocPages_cases hn hok
    exact ⟨j, (h.runAfter_iff _ _).2 ⟨hj, p, hp⟩⟩
  · rintro ⟨j, hrun⟩
    obtain ⟨hj, hex⟩ := (h.runAfter_iff _ _).1 hrun
    obtain ⟨k, s', p, hok⟩ := h.allocPages_of_swap hn hj hex
    obtain ⟨i, p', hp', hi, hsub, h'⟩ := h.allocPages_cases hn hok
    obtain rfl := Option.some.inj hp'
    refine ⟨⟨k, s', some p, hok, iff_of_false (by simp) fun hno => hno _ hrun, ?_⟩, ?_⟩
    · rintro q hq
      obtain rfl := Option.some.inj hq
      rw [h.victims_eq, h.free.freeSet.freePages_eq, h'.free.freeSet.freePages_eq]
      exact ⟨hsub.trans (union_subset_union_right F fun q hq => List.mem_of_mem_take hq),
        disjoint_sdiff_right⟩
    · rintro size -
      exact iff_of_false (fun ⟨k, t, hk⟩ => malloc_ne_null s size k hk)
        fun ⟨k, t, hk⟩ => h.allocPages_ne_null hn k hk

/-! ### Runs -/

/-- The page belongs to the address space that `g_test_vmm` points to: it is a table of it, or it is
mapped. -/
def InTestVmm (s : SwapMm) (page : ℕ) : Prop :=
  ∃ v ∈ s.testVmm, ∃ r ∈ (s.vmm v).pGpt, (s.mm.mappings {r} userEntries page).Nonempty ∨
    ∃ path, Mm.TablePath userEntries path ∧ walk s.mm.child r path = some page

end SwapMm

/-- The calls of the allocator. -/
inductive SwapOp where
  /-- `alloc_pages(n)` returns `page`, after less than `k` rounds of swapping out. -/
  | allocPages (n k : ℕ) (page : Option ℕ)
  /-- `free_pages(base, n)` -/
  | freePages (base n : ℕ)

/-- Allocations, and frees of pages that are allocated and not in use by `g_test_vmm`, after
`init_swap` has set `g_swap_init_flag`.  A run may begin with any number of swappable pages. -/
def swapping : System SwapMm SwapOp where
  init s := ∃ F ps, s.Ready F ps
  step s l s' := match l with
    | .allocPages n k page => s.allocPages n k = .ok (s', page)
    | .freePages base n => Ico base (base + n) ⊆ Ico poolBegin poolEnd \ s.mm.pmm.freePages ∧
        (∀ p ∈ Ico base (base + n), ¬ s.InTestVmm p) ∧
        ∃ mm, s.mm.freePages base n = .ok mm ∧ s' = { s with mm }

namespace SwapMm

variable {s s' : SwapMm} {n : ℕ} {F : Set ℕ} {ps : List ℕ}

/-- When `init_swap` returns, `g_test_vmm` is `NULL`. -/
theorem ready_of_run {ls : List BestFit.AllocOp} {a : BestFit.AllocState}
    (h : (BestFit.bestFitSystem poolBegin numFreePages).Run ls a) (hpmm : s.mm.pmm = a.area)
    (hinit : s.mm.swapInit = true) (hvmm : s.testVmm = none) : ∃ F, s.Ready F [] := by
  obtain ⟨-, bs, hcan⟩ := BestFit.run_canonical (by decide) h
  refine ⟨_, hinit, ⟨bs, hpmm ▸ hcan.freeList, hcan.runs⟩, fun _ => rfl, fun v hv => ?_⟩
  rw [hvmm] at hv
  cases hv

theorem Ready.freePages (h : s.Ready F ps) {base : ℕ} {mm : Mm}
    (hsub : Ico base (base + n) ⊆ Ico poolBegin poolEnd \ F)
    (hvmm : ∀ p ∈ Ico base (base + n), ¬ s.InTestVmm p) (hok : s.mm.freePages base n = .ok mm) :
    Ready { s with mm } (F ∪ Ico base (base + n)) ps := by
  obtain ⟨a, ha, hmm⟩ := bind_eq_ok.1 hok
  obtain rfl := Except.ok.inj hmm
  obtain ⟨_, hass, -⟩ := bind_eq_ok.1 ha
  have hn : 0 < n := assert_eq_ok.1 hass
  have hlo := (hsub (show base ∈ _ from ⟨le_rfl, by omega⟩)).1.1
  have hhi := (hsub (show base + n - 1 ∈ _ from ⟨by omega, by omega⟩)).1.2
  obtain ⟨a', ha', hfree, href⟩ := h.free.free hn hlo (by omega)
    (Set.disjoint_left.2 fun p hp => (hsub hp).2)
  obtain rfl := Except.ok.inj (ha.symm.trans ha')
  refine ⟨h.swapInit, hfree, h.noVmm, fun v hv => ?_⟩
  obtain ⟨hpra, hring, r, D, hgpt, hc, hps⟩ := h.test v hv
  have hin : ∀ p, s.InTestVmm p → p ∉ Ico base (base + n) := fun p hp hm => hvmm p hm hp
  have hmapped : ∀ p, (s.mm.mappings {r} userEntries p).Nonempty → p ∉ Ico base (base + n) :=
    fun p hp => hin p ⟨v, hv, r, hgpt, Or.inl hp⟩
  have hc' : Mm.Consistent { s.mm with pmm := a } {r} userEntries (D \ Ico base (base + n))
      (F ∪ Ico base (base + n)) := by
    refine hc.widen rfl hfree.freeSet
      (fun p hp => Set.not_nonempty_iff_eq_empty.1 fun hne => hmapped p hne hp) ?_
      fun i => ⟨fun hi => (href i).trans (if_pos hi), fun hi => (href i).trans (if_neg hi)⟩
    rintro _ rfl path f hpath hf
    exact hin f ⟨v, hv, _, hgpt, Or.inr ⟨path, hpath, hf⟩⟩
  refine ⟨hpra, hring, r, _, hgpt, hc', fun p hp => ?_⟩
  have hp := hps p hp
  obtain ⟨q, -, hslot, -, hchild⟩ := hp.findPte hc hgpt
  obtain ⟨hl, hk⟩ := Mm.slot_leaf (R := {r}) rfl hp.index hslot
  exact ⟨(href p).trans ((if_neg (hmapped p ⟨q, hl, hk, hchild⟩)).trans hp.once), hp.slot,
    hp.mapped, hp.addressable⟩

theorem swapping_ready (h : swapping.Reachable s) : ∃ F ps, s.Ready F ps := by
  refine h.invariant (I := fun s : SwapMm => ∃ F ps, s.Ready F ps) ?_ ?_
  · rintro s ⟨F, ps, hs⟩
    exact ⟨F, ps, hs⟩
  rintro s (⟨n, k, page⟩ | ⟨base, n⟩) s' ⟨F, ps, hs⟩ hstep
  · have hn : 0 < n := by
      cases k with
      | zero => cases hstep
      | succ k =>
        obtain ⟨_, halloc, -⟩ := bind_eq_ok.1 hstep
        obtain ⟨_, hass, -⟩ := bind_eq_ok.1 halloc
        exact assert_eq_ok.1 hass
    obtain ⟨j, p, -, -, -, hs'⟩ := hs.allocPages_cases hn hstep
    exact ⟨_, _, hs'⟩
  · obtain ⟨hsub, hvmm, mm, hok, rfl⟩ := hstep
    rw [hs.free.freeSet.freePages_eq] at hsub
    exact ⟨_, _, hs.freePages hsub hvmm hok⟩

end SwapMm

open SwapMm

/-- **When an allocation is served.**  After `init_swap` has set `g_swap_init_flag`, a call of
`alloc_pages(n)` returns what it should just when, for some `j`, there are `j * n` swappable pages
such that `n` consecutive pages are free or among the oldest `j * n` of them.  Otherwise it stops
the kernel: `swap_out` is called with `NULL`, or finds the list of swappable pages empty. -/
theorem alloc_pages_serves {s : SwapMm} (h : swapping.Reachable s) {n : ℕ} (hn : 0 < n) :
    s.Serves n ↔ ∃ j, s.RunAfter (j * n) n := by
  obtain ⟨F, ps, hs⟩ := swapping_ready h
  exact hs.serves_iff hn

/-- A machine without swappable pages whose free pages are the first `k` pages of the pool. -/
def withFree (k : ℕ) : SwapMm where
  mm := ⟨if k = 0 then ⟨fun _ => ⟨0, 0, 0⟩, ⟨id, id⟩, 0⟩ else FreeSet.oneBlock poolBegin k,
    fun _ _ => 0, true⟩
  praLink := ⟨id, id⟩
  praAddr _ := 0
  ide _ := 0
  vmm _ := ⟨0, [], none, none, 0, 0⟩
  praList _ := false
  testVmm := none

theorem withFree_zero : swapping.init (withFree 0) := by
  refine ⟨∅, [], rfl, ⟨[], ⟨?_, by simp [Sorted], by simp, by simp, by simp, ?_, rfl⟩,
    ⟨by simp, by simp, by simp⟩⟩, fun _ => rfl, fun v hv => by cases hv⟩
  · exact ⟨by simp [Links.Linked, withFree], by simp⟩
  · exact fun i _ _ _ => ⟨rfl, rfl⟩

theorem withFree_pos {k : ℕ} (hk : 0 < k) (h : poolBegin + k ≤ poolEnd) :
    (withFree k).Ready (Ico poolBegin (poolBegin + k)) [] := by
  have hpmm : (withFree k).mm.pmm = FreeSet.oneBlock poolBegin k := if_neg (by omega)
  refine ⟨rfl, ⟨[(poolBegin, k)], ?_, Runs.single hk⟩, fun _ => rfl, fun v hv => by cases hv⟩
  rw [hpmm]
  exact FreeSet.freeList_oneBlock hk le_rfl h

/-- The last free page is gone, and one page is asked for. -/
theorem alloc_pages_faults : swapping.Reachable (withFree 0) ∧
    (withFree 0).allocPages 1 1 = .error (.panic "handle page fault failed.") ∧
    ¬ (withFree 0).Serves 1 := by
  refine ⟨.start withFree_zero, rfl, ?_⟩
  rintro ⟨⟨k, s', page, hok, -⟩, -⟩
  cases k with
  | zero => cases hok
  | succ k => cases hok

/-- Two of three free pages are asked for. -/
theorem alloc_pages_serves_two : (withFree 3).Serves 2 := by
  have h := withFree_pos (k := 3) (by decide) (by decide)
  refine (alloc_pages_serves (.start ⟨_, _, h⟩) (by decide)).2 ⟨0, (h.runAfter_iff _ _).2 ⟨le_rfl,
    poolBegin, fun i hi => Or.inl ⟨hi.1, ?_⟩⟩⟩
  have := hi.2
  omega

end GarretOS
