import GarretOS.Mm.BestFit
import GarretOS.Extent.Basic
import GarretOS.System.Basic

/-!
# The free list of the best-fit allocator

`FreeList s lo hi bs` says that the free list of the state `s`, which manages the pages
`lo`, ..., `hi - 1`, stands for the list `bs` of free blocks (first page and size).  The allocator
functions are then operations on block lists:

* `FreeList.takeBlock` : an allocation cuts the first pages off one block;
* `FreeList.insert`, `FreeList.mergeBlock` : a free inserts a block and joins it with the
  neighbours it touches.
-/

namespace GarretOS

namespace BestFit

open Extents

/-- The link field of the head of a block. -/
def blockLink (b : ℕ × ℕ) : FreeLink := .page b.1

/-- The free list of `s` consists of the blocks `bs` of the pages `lo`, ..., `hi - 1`. -/
structure FreeList (s : BestFit) (lo hi : ℕ) (bs : List (ℕ × ℕ)) : Prop where
  /-- The heads of the blocks are linked in this order. -/
  ring : Ring s.freeLink .freeList (bs.map blockLink)
  /-- Blocks are in increasing order and disjoint. -/
  sorted : Sorted bs
  /-- No block is empty. -/
  pos : ∀ b ∈ bs, 0 < b.2
  /-- Blocks consist of managed pages. -/
  inside : ∀ b ∈ bs, lo ≤ b.1 ∧ b.1 + b.2 ≤ hi
  /-- The head of a block is marked and knows the size of the block. -/
  head : ∀ b ∈ bs, (s.page b.1).flags = pageProperty ∧ (s.page b.1).property = b.2
  /-- Other managed pages are unmarked. -/
  other : ∀ i, lo ≤ i → i < hi → (∀ b ∈ bs, b.1 ≠ i) →
    (s.page i).flags = 0 ∧ (s.page i).property = 0
  /-- The counter of free pages. -/
  numFree : s.numFree = (bs.map Prod.snd).sum

variable {s : BestFit} {lo hi : ℕ} {as bs : List (ℕ × ℕ)}

@[simp] theorem modifyPage_page (s : BestFit) (i : ℕ) (f : Page → Page) (j : ℕ) :
    (s.modifyPage i f).page j = if j = i then f (s.page i) else s.page j := by
  simp [modifyPage, Function.update_apply]

@[simp] theorem modifyPage_freeLink (s : BestFit) (i : ℕ) (f : Page → Page) :
    (s.modifyPage i f).freeLink = s.freeLink := rfl

@[simp] theorem modifyPage_numFree (s : BestFit) (i : ℕ) (f : Page → Page) :
    (s.modifyPage i f).numFree = s.numFree := rfl

namespace FreeList

theorem blockLink_mem {i : ℕ} : FreeLink.page i ∈ bs.map blockLink ↔ ∃ b ∈ bs, b.1 = i := by
  simp [blockLink]

theorem length_lt_rounds (h : FreeList s lo hi bs) : bs.length < s.rounds := by
  have := length_le_sum h.pos
  rw [← h.numFree] at this
  simp only [rounds]
  omega

theorem sum_le (h : FreeList s lo hi bs) (hle : lo ≤ hi) : s.numFree ≤ hi - lo := by
  have := Extents.sum_le h.sorted hle h.inside
  rw [← h.numFree] at this
  omega

/-- The free pages are managed pages. -/
theorem cover_subset (h : FreeList s lo hi bs) : cover bs ⊆ Set.Ico lo hi := by
  rintro i ⟨b, hb, h1, h2⟩
  obtain ⟨h3, h4⟩ := h.inside b hb
  exact ⟨h3.trans h1, lt_of_lt_of_le h2 h4⟩

/-! ### Allocation -/

/-- The search of `findBest` on the list of blocks. -/
def bestOf (n : ℕ) : List (ℕ × ℕ) → Option ℕ → ℕ → Option ℕ
  | [], page, _ => page
  | b :: bs, page, m => if n ≤ b.2 ∧ b.2 < m then bestOf n bs (some b.1) b.2 else bestOf n bs page m

theorem findBest_eq (h : FreeList s lo hi (as ++ bs)) (n k : ℕ) (hk : bs.length < k)
    (page : Option ℕ) (m : ℕ) :
    s.findBest n k ((as.map blockLink).getLastD .freeList) page m = .ok (bestOf n bs page m) := by
  induction bs generalizing as k page m with
  | nil =>
    obtain ⟨k, rfl⟩ : ∃ j, k = j + 1 := ⟨k - 1, by simp at hk; omega⟩
    have hr := h.ring
    rw [List.map_append] at hr
    simp only [findBest, hr.next_getLastD, List.map_nil, List.headD_nil, bestOf]
  | cons b bs ih =>
    obtain ⟨k, rfl⟩ : ∃ j, k = j + 1 := ⟨k - 1, by simp at hk; omega⟩
    have hr := h.ring
    rw [List.map_append] at hr
    have hp := (h.head b (by simp)).2
    have ih' := fun page m => @ih (as ++ [b]) (by simpa using h) k
      (by simpa using hk) page m
    simp only [List.map_append, List.map_cons, List.map_nil, List.getLastD_concat] at ih'
    simp only [findBest, hr.next_getLastD, List.map_cons, List.headD_cons, bestOf]
    have hl : blockLink b = .page b.1 := rfl
    simp only [hl] at ih' ⊢
    rw [hp]
    split_ifs <;> exact ih' _ _

theorem bestOf_spec {n : ℕ} {page : Option ℕ} {m p : ℕ} (h : bestOf n bs page m = some p) :
    page = some p ∨ ∃ k, (p, k) ∈ bs ∧ n ≤ k := by
  induction bs generalizing page m with
  | nil => exact Or.inl h
  | cons b bs ih =>
    rw [bestOf] at h
    split_ifs at h with hc
    · rcases ih h with h' | ⟨k, hk, hn⟩
      · obtain rfl : b.1 = p := by simpa using h'
        exact Or.inr ⟨b.2, by simp, hc.1⟩
      · exact Or.inr ⟨k, List.mem_cons_of_mem _ hk, hn⟩
    · rcases ih h with h' | ⟨k, hk, hn⟩
      · exact Or.inl h'
      · exact Or.inr ⟨k, List.mem_cons_of_mem _ hk, hn⟩

/-- What an allocation leaves of the block `(p, k)` it takes `n` pages from. -/
def tailOf (p k n : ℕ) : List (ℕ × ℕ) := if n < k then [(p + n, k - n)] else []

theorem takeBlock_page {p k n : ℕ} (h : FreeList s lo hi (as ++ (p, k) :: bs)) (hn : 0 < n)
    (hk : k < 2 ^ 32) (i : ℕ) :
    (s.takeBlock p n).page i =
      if i = p then { s.page p with flags := 0, property := 0 }
      else if i = p + n ∧ n < k then
        { s.page i with flags := (s.page i).flags ||| pageProperty, property := k - n }
      else s.page i := by
  obtain ⟨hf, hp⟩ := h.head (p, k) (by simp)
  simp only at hf hp
  have hu : u32 (k - n) = k - n := u32_of_lt (by omega)
  have hn' : n ≠ 0 := by omega
  by_cases hnk : n < k
  · by_cases hip : i = p
    · subst hip
      simp [takeBlock, splitTail, hp, hnk, hn', hf]
    · by_cases hin : i = p + n
      · subst hin
        simp [takeBlock, splitTail, hp, hnk, hn', hu]
      · simp [takeBlock, splitTail, hp, hnk, hip, hin]
  · by_cases hip : i = p
    · subst hip
      simp [takeBlock, hp, hnk, hf]
    · simp [takeBlock, hp, hnk, hip]

theorem takeBlock_ring {p k n : ℕ} (h : FreeList s lo hi (as ++ (p, k) :: bs)) (hn : 0 < n) :
    Ring (s.takeBlock p n).freeLink .freeList ((as ++ tailOf p k n ++ bs).map blockLink) := by
  have hp : (s.page p).property = k := (h.head (p, k) (by simp)).2
  have hr := h.ring
  rw [List.map_append, List.map_cons] at hr
  have hrem := hr.remove
  by_cases hnk : n < k
  · -- the tail goes where the block was; the links of the deleted head still say where that is
    have hfresh :
        FreeLink.page (p + n) ∉ FreeLink.freeList :: (as.map blockLink ++ bs.map blockLink) := by
      obtain ⟨-, hbefore, hafter⟩ := sorted_mid.1 h.sorted
      simp only [List.mem_cons, List.mem_append, blockLink_mem, reduceCtorEq, false_or, not_or]
      refine ⟨?_, ?_⟩
      · rintro ⟨a, ha, he⟩
        have h1 := hbefore a ha
        have h2 := h.pos a (by simp [ha])
        simp only at h1
        omega
      · rintro ⟨c, hc, he⟩
        have h1 := hafter c hc
        simp only at h1
        omega
    have hins := hrem.insert hfresh
    have hprev := hr.delList_self.2.trans hr.prev_mem
    have hnext := hr.delList_self.1.trans hr.next_mem
    have hl : blockLink (p, k) = .page p := rfl
    rw [hl] at hins hprev hnext
    simpa [takeBlock, splitTail, hp, hnk, tailOf, hprev, hnext, blockLink] using hins
  · simpa [takeBlock, hp, hnk, tailOf, blockLink] using hrem

/-- **Allocation.**  Taking `n` pages from a block leaves the other blocks and its tail. -/
theorem takeBlock {p k n : ℕ} (h : FreeList s lo hi (as ++ (p, k) :: bs)) (hn : 0 < n)
    (hnk : n ≤ k) (hk : k < 2 ^ 32) :
    FreeList (s.takeBlock p n) lo hi (as ++ tailOf p k n ++ bs) := by
  obtain ⟨hsort, hbefore, hafter⟩ := sorted_mid.1 h.sorted
  simp only at hbefore hafter
  have hpos := h.pos
  have hin := h.inside
  -- the blocks afterwards are old ones, or the tail
  have hsub : ∀ b ∈ as ++ tailOf p k n ++ bs, b ∈ as ++ bs ∨ (n < k ∧ b = (p + n, k - n)) := by
    intro b hb
    unfold tailOf at hb
    split_ifs at hb with hc <;> simp only [List.mem_append, List.mem_singleton, List.not_mem_nil,
      or_false] at hb ⊢ <;> tauto
  -- an old block begins at `p + n` only if no tail is left
  have hold : ∀ b ∈ as ++ bs, b.1 ≠ p ∧ b.1 ≠ p + n ∨ b.1 = p + n ∧ ¬ n < k := by
    intro b hb
    rcases List.mem_append.1 hb with hb' | hb'
    · have h1 := hbefore b hb'
      have h2 := hpos b (by simp [hb'])
      omega
    · have h1 := hafter b hb'
      omega
  have hmem : ∀ b ∈ as ++ bs, b ∈ as ++ (p, k) :: bs := by
    intro b hb
    simp only [List.mem_append, List.mem_cons] at hb ⊢
    tauto
  obtain ⟨hlo, hhi⟩ := hin (p, k) (by simp)
  refine ⟨h.takeBlock_ring hn, ?_, ?_, ?_, ?_, ?_, ?_⟩
  · unfold tailOf
    split_ifs with hc
    · rw [List.append_assoc, List.singleton_append, sorted_mid]
      refine ⟨hsort, fun a ha => ?_, fun c hc' => ?_⟩
      · have := hbefore a ha; simp only; omega
      · have := hafter c hc'; simp only; omega
    · simpa using hsort
  · intro b hb
    rcases hsub b hb with hb' | ⟨hc, rfl⟩
    · exact hpos b (hmem b hb')
    · simp only; omega
  · intro b hb
    rcases hsub b hb with hb' | ⟨hc, rfl⟩
    · exact hin b (hmem b hb')
    · simp only at hlo hhi ⊢; omega
  · intro b hb
    rw [h.takeBlock_page hn hk]
    rcases hsub b hb with hb' | ⟨hc, rfl⟩
    · have h1 := h.head b (hmem b hb')
      rcases hold b hb' with ⟨h2, h3⟩ | ⟨h2, h3⟩
      · simpa [h2, h3] using h1
      · have h4 : b.1 ≠ p := by omega
        simpa [h4, h3] using h1
    · have h2 : p + n ≠ p := by omega
      have h1 := h.other (p + n) (by omega) (by simp only at hhi; omega) ?_
      · have hn' : n ≠ 0 := by omega
        simp [hn', hc, h1]
      · intro b hb
        rcases List.mem_append.1 hb with hb' | hb'
        · have h3 := hbefore b hb'
          have h4 := hpos b hb
          omega
        · rcases List.mem_cons.1 hb' with rfl | hb''
          · simp only; omega
          · have h3 := hafter b hb''
            omega
  · intro i h1 h2 hi
    rw [h.takeBlock_page hn hk]
    by_cases hip : i = p
    · simp [hip]
    · have hc : ¬ (i = p + n ∧ n < k) := by
        rintro ⟨rfl, hc⟩
        exact hi (p + n, k - n) (by simp [tailOf, hc]) rfl
      rw [if_neg hip, if_neg hc]
      refine h.other i h1 h2 fun b hb => ?_
      rcases List.mem_append.1 hb with hb' | hb'
      · exact hi b (by simp [hb'])
      · rcases List.mem_cons.1 hb' with rfl | hb''
        · exact Ne.symm hip
        · exact hi b (by simp [hb''])
  · have hp : (s.page p).property = k := (h.head (p, k) (by simp)).2
    have hnf := h.numFree
    simp only [List.map_append, List.map_cons, List.sum_append, List.sum_cons] at hnf ⊢
    have : (s.takeBlock p n).numFree = s.numFree - n := by
      simp only [BestFit.takeBlock]
      split_ifs <;> simp [splitTail]
    rw [this, hnf]
    unfold tailOf
    split_ifs with hc
    · simp only [List.map_cons, List.map_nil, List.sum_cons, List.sum_nil]; omega
    · simp only [List.map_nil, List.sum_nil]; omega

/-! ### Freeing -/

/-- The loop of `findPrev` stops at the last block before `base`. -/
theorem findPrev_eq {cs : List (ℕ × ℕ)} {base : ℕ}
    (hr : Ring s.freeLink .freeList ((as ++ bs ++ cs).map blockLink))
    (hb : ∀ b ∈ bs, b.1 < base) (hc : ∀ c ∈ cs, base ≤ c.1) (k : ℕ) (hk : bs.length < k) :
    s.findPrev base k ((as.map blockLink).getLastD .freeList) =
      .ok (((as ++ bs).map blockLink).getLastD .freeList) := by
  induction bs generalizing as k with
  | nil =>
    obtain ⟨k, rfl⟩ : ∃ j, k = j + 1 := ⟨k - 1, by simp at hk; omega⟩
    rw [List.append_nil, List.map_append] at hr
    simp only [findPrev, hr.next_getLastD, List.append_nil]
    rw [if_neg]
    rintro ⟨h1, h2⟩
    cases cs with
    | nil => exact h2 rfl
    | cons c cs =>
      have := hc c (by simp)
      simp [blockLink, FreeLink.lt] at h1
      omega
  | cons b bs ih =>
    obtain ⟨k, rfl⟩ : ∃ j, k = j + 1 := ⟨k - 1, by simp at hk; omega⟩
    have ih' := @ih (as ++ [b]) (by simpa using hr)
      (fun c hc => hb c (List.mem_cons_of_mem _ hc)) k (by simpa using hk)
    simp only [List.map_append, List.map_cons, List.map_nil, List.getLastD_concat,
      List.append_assoc, List.singleton_append] at ih'
    have hlt := hb b List.mem_cons_self
    rw [List.append_assoc, List.map_append] at hr
    simp only [findPrev, hr.next_getLastD, List.map_cons, List.headD_cons, List.cons_append,
      List.map_append]
    rw [if_pos ⟨by simpa [blockLink, FreeLink.lt] using hlt, by simp [blockLink]⟩]
    exact ih'

theorem mergeBlock_page {p k m : ℕ} (h : FreeList s lo hi (as ++ (p, k) :: (p + k, m) :: bs))
    (hk : k + m < 2 ^ 32) (i : ℕ) :
    (s.mergeBlock p (p + k)).page i =
      if i = p then { s.page p with property := k + m }
      else if i = p + k then { s.page (p + k) with flags := 0, property := 0 }
      else s.page i := by
  have h1 := (h.head (p, k) (by simp)).2
  obtain ⟨h2, h3⟩ := h.head (p + k, m) (by simp)
  have h4 : k ≠ 0 := Nat.pos_iff_ne_zero.1 (h.pos (p, k) (by simp))
  simp only at h1 h2 h3
  have hu : u32 (k + m) = k + m := u32_of_lt hk
  by_cases hip : i = p
  · subst hip
    simp [mergeBlock, h1, h3, h4, hu]
  · by_cases hiq : i = p + k
    · subst hiq
      simp [mergeBlock, h2, h4]
    · simp [mergeBlock, hip, hiq]

/-- **Coalescing.**  A block takes over the next one, which it touches. -/
theorem mergeBlock {p k m : ℕ} (h : FreeList s lo hi (as ++ (p, k) :: (p + k, m) :: bs))
    (hk : k + m < 2 ^ 32) : FreeList (s.mergeBlock p (p + k)) lo hi (as ++ (p, k + m) :: bs) := by
  have hpk : 0 < k := h.pos (p, k) (by simp)
  obtain ⟨hsort, hbefore, hafter⟩ := sorted_mid.1 h.sorted
  obtain ⟨hsort', hbefore', hafter'⟩ := sorted_mid.1 hsort
  simp only at hbefore hafter hbefore' hafter'
  -- the other blocks begin elsewhere
  have hold : ∀ b ∈ as ++ bs, b ∈ as ++ (p, k) :: (p + k, m) :: bs ∧ b.1 ≠ p ∧ b.1 ≠ p + k := by
    intro b hb
    rcases List.mem_append.1 hb with hb' | hb'
    · have h1 := hbefore b hb'
      have h2 := h.pos b (by simp [hb'])
      exact ⟨by simp [hb'], by omega, by omega⟩
    · have h1 := hafter' b hb'
      have h2 := h.pos (p + k, m) (by simp)
      exact ⟨by simp [hb'], by omega, by omega⟩
  have hsub : ∀ b ∈ as ++ (p, k + m) :: bs, b ∈ as ++ bs ∨ b = (p, k + m) := by
    intro b hb
    simp only [List.mem_append, List.mem_cons] at hb ⊢
    tauto
  refine ⟨?_, ?_, ?_, ?_, ?_, ?_, ?_⟩
  · have hr := h.ring
    have hsplit : (as ++ (p, k) :: (p + k, m) :: bs).map blockLink =
        (as ++ [(p, k)]).map blockLink ++ blockLink (p + k, m) :: bs.map blockLink := by simp
    rw [hsplit] at hr
    simpa [BestFit.mergeBlock, blockLink] using hr.remove
  · rw [sorted_mid]
    exact ⟨hsort', hbefore, fun c hc => by have := hafter' c hc; simp only; omega⟩
  · intro b hb
    rcases hsub b hb with hb' | rfl
    · exact h.pos b (hold b hb').1
    · simp only; omega
  · intro b hb
    rcases hsub b hb with hb' | rfl
    · exact h.inside b (hold b hb').1
    · have h1 := (h.inside (p, k) (by simp)).1
      have h2 := (h.inside (p + k, m) (by simp)).2
      simp only at h1 h2 ⊢
      omega
  · intro b hb
    rw [h.mergeBlock_page hk]
    rcases hsub b hb with hb' | rfl
    · obtain ⟨h1, h2, h3⟩ := hold b hb'
      simpa [h2, h3] using h.head b h1
    · simpa using (h.head (p, k) (by simp)).1
  · intro i h1 h2 hi
    rw [h.mergeBlock_page hk]
    have hip : i ≠ p := fun he => hi (p, k + m) (by simp) he.symm
    rw [if_neg hip]
    by_cases hiq : i = p + k
    · simp [hiq]
    · rw [if_neg hiq]
      refine h.other i h1 h2 fun b hb => ?_
      simp only [List.mem_append, List.mem_cons] at hb
      rcases hb with hb | rfl | rfl | hb
      · exact hi b (by simp [hb])
      · exact Ne.symm hip
      · exact Ne.symm hiq
      · exact hi b (by simp [hb])
  · have hnf := h.numFree
    have : (s.mergeBlock p (p + k)).numFree = s.numFree := rfl
    simp only [this, hnf, List.map_append, List.map_cons, List.sum_append, List.sum_cons]
    omega

/-- The sizes of two neighbouring blocks add up to a `u32`. -/
theorem add_size_lt {b c : ℕ × ℕ} (h : FreeList s lo hi (as ++ b :: c :: bs))
    (hsz : hi - lo < 2 ^ 32) : b.2 + c.2 < 2 ^ 32 := by
  have h1 := h.inside b (by simp)
  have h2 := h.inside c (by simp)
  obtain ⟨-, -, h3⟩ := sorted_mid.1 h.sorted
  have h4 := h3 c (by simp)
  omega

theorem mergePrev {b : ℕ × ℕ} (h : FreeList s lo hi (as ++ b :: bs)) (hsz : hi - lo < 2 ^ 32) :
    (s.mergePrev b.1).2 = (joinPrev as b).2.1 ∧
      FreeList (s.mergePrev b.1).1 lo hi ((joinPrev as b).1 ++ (joinPrev as b).2 :: bs) := by
  have hr := h.ring
  rw [List.map_append, List.map_cons] at hr
  have hprev : s.freeLink.prev (.page b.1) = _ := hr.prev_mem
  rcases List.eq_nil_or_concat as with rfl | ⟨as, a, rfl⟩
  · simp only [List.map_nil, List.getLastD_nil] at hprev
    simpa [BestFit.mergePrev, hprev, joinPrev_nil] using h
  · simp only [List.concat_eq_append, List.map_append, List.map_cons, List.map_nil,
      List.getLastD_concat, blockLink] at hprev h
    have ha := (h.head a (by simp)).2
    simp only [BestFit.mergePrev, hprev, ha, List.concat_eq_append, joinPrev_concat]
    split_ifs with hc
    · refine ⟨rfl, ?_⟩
      have h' : FreeList s lo hi (as ++ (a.1, a.2) :: (a.1 + a.2, b.2) :: bs) := by
        rw [hc]; simpa using h
      have := h'.mergeBlock (h'.add_size_lt hsz)
      rwa [hc] at this
    · exact ⟨rfl, h⟩

theorem mergeNext {b : ℕ × ℕ} (h : FreeList s lo hi (as ++ b :: bs)) (hsz : hi - lo < 2 ^ 32) :
    FreeList (s.mergeNext b.1) lo hi (as ++ joinNext b bs) := by
  have hr := h.ring
  rw [List.map_append, List.map_cons] at hr
  have hnext : s.freeLink.next (.page b.1) = _ := hr.next_mem
  have hb := (h.head b (by simp)).2
  cases bs with
  | nil =>
    simp only [List.map_nil, List.headD_nil] at hnext
    simpa [BestFit.mergeNext, hnext, joinNext] using h
  | cons c bs =>
    simp only [List.map_cons, List.headD_cons, blockLink] at hnext
    simp only [BestFit.mergeNext, hnext, hb, joinNext]
    split_ifs with hc
    · have h' : FreeList s lo hi (as ++ (b.1, b.2) :: (b.1 + b.2, c.2) :: bs) := by
        rw [hc]; exact h
      have := h'.mergeBlock (h'.add_size_lt hsz)
      rwa [hc] at this
    · exact h

theorem clearPages_eq {base k : ℕ} {page : ℕ → Page} (h : ∀ j < k, (page (base + j)).flags = 0) :
    clearPages base k page = .ok fun i =>
      if base ≤ i ∧ i < base + k then { page i with flags := 0, ref := 0 } else page i := by
  induction k with
  | zero =>
    simp only [clearPages, Except.ok.injEq]
    funext i
    rw [if_neg (by omega)]
  | succ k ih =>
    have h0 := h k (by omega)
    simp only [clearPages, ih fun j hj => h j (by omega), ok_bind]
    rw [assert_of (by simp [h0])]
    simp only [ok_bind, pure, Except.pure, Except.ok.injEq]
    funext i
    by_cases hi : i = base + k
    · subst hi
      simp
    · have : (base ≤ i ∧ i < base + (k + 1)) ↔ (base ≤ i ∧ i < base + k) := by omega
      simp [hi, this]

/-- The state in which a freed block has been marked and linked has it in its free list. -/
theorem insert {s' : BestFit} {base n : ℕ} (h : FreeList s lo hi (as ++ bs)) (hn : 0 < n)
    (hlo : lo ≤ base) (hhi : base + n ≤ hi) (hbefore : ∀ a ∈ as, a.1 + a.2 ≤ base)
    (hafter : ∀ c ∈ bs, base + n ≤ c.1)
    (hlink : s'.freeLink = s.freeLink.addList ((as.map blockLink).getLastD .freeList)
      ((bs.map blockLink).headD .freeList) (.page base))
    (hnum : s'.numFree = s.numFree + n)
    (hpage : ∀ i, (s'.page i).flags = (if i = base then pageProperty else (s.page i).flags) ∧
      (s'.page i).property = if i = base then n else (s.page i).property) :
    FreeList s' lo hi (as ++ (base, n) :: bs) := by
  have hold : ∀ b ∈ as ++ bs, b.1 ≠ base := by
    intro b hb
    rcases List.mem_append.1 hb with hb' | hb'
    · have h1 := hbefore b hb'
      have h2 := h.pos b hb
      omega
    · have h1 := hafter b hb'
      omega
  have hsub : ∀ b ∈ as ++ (base, n) :: bs, b ∈ as ++ bs ∨ b = (base, n) := by
    intro b hb
    simp only [List.mem_append, List.mem_cons] at hb ⊢
    tauto
  refine ⟨?_, ?_, ?_, ?_, ?_, ?_, ?_⟩
  · have hr := h.ring
    rw [List.map_append] at hr
    -- the first page is not in the ring yet
    have hfresh :
        FreeLink.page base ∉ FreeLink.freeList :: (as.map blockLink ++ bs.map blockLink) := by
      rw [← List.map_append]
      simp only [List.mem_cons, reduceCtorEq, false_or, blockLink_mem]
      rintro ⟨b, hb, he⟩
      exact hold b hb he
    have := hr.insert hfresh
    rw [← hlink] at this
    simpa [blockLink] using this
  · rw [sorted_mid]
    exact ⟨h.sorted, hbefore, hafter⟩
  · intro b hb
    rcases hsub b hb with hb' | rfl
    · exact h.pos b hb'
    · exact hn
  · intro b hb
    rcases hsub b hb with hb' | rfl
    · exact h.inside b hb'
    · exact ⟨hlo, hhi⟩
  · intro b hb
    obtain ⟨h1, h2⟩ := hpage b.1
    rw [h1, h2]
    rcases hsub b hb with hb' | rfl
    · rw [if_neg (hold b hb'), if_neg (hold b hb')]
      exact h.head b hb'
    · simp
  · intro i h1 h2 hi
    obtain ⟨h3, h4⟩ := hpage i
    have hne : i ≠ base := fun he => hi (base, n) (by simp) he.symm
    rw [h3, h4, if_neg hne, if_neg hne]
    refine h.other i h1 h2 fun b hb => hi b ?_
    simp only [List.mem_append, List.mem_cons] at hb ⊢
    tauto
  · rw [hnum, h.numFree]
    simp only [List.map_append, List.map_cons, List.sum_append, List.sum_cons]
    omega

end FreeList

end BestFit

end GarretOS
