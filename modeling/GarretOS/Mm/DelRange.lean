import GarretOS.Mm.PageMap
import GarretOS.Mm.Teardown

/-!
# Unmapping a range

`del_range` on the page tables that `get_pte`, `add_page` and `del_page` build, which may map one
page many times.  `Cleared m₀ m R r S D F` says that the pages with numbers in `S` have been
unmapped from the page table `r`: the other entries of all page tables are as before, each page
has lost as many references as mappings, and the pages that have none left are free.

* `delStep_cleared` : one round of the loop unmaps one page, or skips an address without a table;
* `del_range_clears` : the loop comes to an end, stays inside the range, and unmaps all of it.
-/

namespace GarretOS

open Radix

/-- The addresses at which a loop over a range makes its rounds. -/
def rangeRounds (step : Mm → ℕ → Res (Mm × ℕ)) (stop : ℕ) : ℕ → Mm → ℕ → Res (List ℕ)
  | 0, _, _ => .error .diverges
  | k + 1, m, start => do
    let (m, next) ← step m start
    let as ← (if next ≠ 0 ∧ next < stop then rangeRounds step stop k m next else .ok [])
    return start :: as

/-- The addresses for which `del_range` calls `get_pte` and `del_page`. -/
def delRounds (k : ℕ) (m : Mm) (pGpt start stop : ℕ) : Res (List ℕ) :=
  rangeRounds (fun m start => delStep m pGpt start) stop k m start

namespace Mm

variable {m₀ m m' : Mm} {R D₀ D F₀ F S : Set ℕ} {r : ℕ}

/-- The pages with numbers in `S` at which the page table `r` maps `p`. -/
def mapped (m : Mm) (r : ℕ) (S : Set ℕ) (p : ℕ) : Set ℕ :=
  {vpn | vpn ∈ S ∧ ∃ pte, m.entry r (vpn * pageSize) = some pte ∧ pte2ppn pte = p}

/-- The pages with numbers in `S` have been unmapped from the page table `r`. -/
structure Cleared (m₀ m : Mm) (R D₀ F₀ : Set ℕ) (r : ℕ) (S D F : Set ℕ) : Prop where
  consistent : Consistent m R userEntries D F
  walk_eq : ∀ p, TablePath userEntries p → walk m.child r p = walk m₀.child r p
  gone : ∀ a < userEnd, a / pageSize ∈ S → m.entry r a = none
  kept : ∀ r' ∈ R, ∀ a < userEnd, ¬ (r' = r ∧ a / pageSize ∈ S) → m.entry r' a = m₀.entry r' a
  root : ∀ r' ∈ R, ∀ i, i ∉ userEntries → m.mem r' i = m₀.mem r' i
  inside : ∀ vpn ∈ S, vpn * pageSize < userEnd
  /-- Each page has lost a reference for each mapping. -/
  ref : ∀ p, m.ref p + (m₀.mapped r S p).ncard = m₀.ref p
  /-- The pages without a reference left have been freed. -/
  freed : ∀ p, p ∈ F ↔ p ∈ F₀ ∨ (m₀.mapped r S p).Nonempty ∧ m.ref p = 0

theorem page_begin_lt {a : ℕ} (ha : a < userEnd) : a / pageSize * pageSize < userEnd :=
  (Nat.div_mul_le_self a pageSize).trans_lt ha

theorem page_begin_div (a : ℕ) : a / pageSize * pageSize / pageSize = a / pageSize :=
  Nat.mul_div_cancel _ (by decide)

/-- The entry of an address is the one of its page. -/
theorem entry_page_begin {a : ℕ} (ha : a < userEnd) :
    m.entry r (a / pageSize * pageSize) = m.entry r a :=
  entry_congr_page ha (page_begin_lt ha) (page_begin_div a)

theorem Consistent.cleared (h : Consistent m R userEntries D F) :
    Cleared m m R D F r ∅ D F := by
  refine ⟨h, fun _ _ => rfl, fun _ _ hS => absurd hS (Set.notMem_empty _), fun _ _ _ _ _ => rfl,
    fun _ _ _ _ => rfl, fun _ hS => absurd hS (Set.notMem_empty _), fun p => ?_, fun p => ?_⟩
  · simp [mapped]
  · simp [mapped]

theorem mapped_finite (m : Mm) (r : ℕ) (hS : ∀ vpn ∈ S, vpn * pageSize < userEnd) (p : ℕ) :
    (m.mapped r S p).Finite := by
  refine (Set.finite_Iio userEnd).subset fun vpn hv => ?_
  have := hS vpn hv.1
  rw [pageSize_eq] at this
  rw [Set.mem_Iio]
  omega

/-- A page that is not mapped adds no mapping. -/
theorem mapped_insert_none {vpn : ℕ} (he : m.entry r (vpn * pageSize) = none) (p : ℕ) :
    m.mapped r (insert vpn S) p = m.mapped r S p := by
  ext i
  constructor
  · rintro ⟨rfl | hi, pte, hp, hpte⟩
    · rw [he] at hp
      cases hp
    · exact ⟨hi, pte, hp, hpte⟩
  · rintro ⟨hi, h⟩
    exact ⟨Or.inr hi, h⟩

theorem mapped_insert_some {vpn pte : ℕ} (he : m.entry r (vpn * pageSize) = some pte) (p : ℕ) :
    m.mapped r (insert vpn S) p =
      if pte2ppn pte = p then insert vpn (m.mapped r S p) else m.mapped r S p := by
  ext i
  split_ifs with hp
  · constructor
    · rintro ⟨rfl | hi, h⟩
      · exact Or.inl rfl
      · exact Or.inr ⟨hi, h⟩
    · rintro (rfl | ⟨hi, h⟩)
      · exact ⟨Or.inl rfl, pte, he, hp⟩
      · exact ⟨Or.inr hi, h⟩
  · constructor
    · rintro ⟨rfl | hi, q, hq, hpq⟩
      · rw [he] at hq
        exact absurd (Option.some.inj hq ▸ hpq) hp
      · exact ⟨hi, q, hq, hpq⟩
    · rintro ⟨hi, h⟩
      exact ⟨Or.inr hi, h⟩

namespace Cleared

theorem slot_eq (h : Cleared m₀ m R D₀ F₀ r S D F) {a : ℕ} (hau : a < userEnd) :
    m.slot r a = m₀.slot r a := by
  rw [slot, slot, h.walk_eq _ (tablePath_addr (getGptx_user hau))]

/-- A page that is not mapped any more is done. -/
theorem skip (h : Cleared m₀ m R D₀ F₀ r S D F) (hr : r ∈ R) {a : ℕ} (hau : a < userEnd)
    (he : m.entry r a = none) : Cleared m₀ m R D₀ F₀ r (insert (a / pageSize) S) D F := by
  have hmapped : ∀ p, m₀.mapped r (insert (a / pageSize) S) p = m₀.mapped r S p := by
    intro p
    by_cases hS : a / pageSize ∈ S
    · rw [Set.insert_eq_of_mem hS]
    · refine mapped_insert_none ?_ p
      rw [entry_page_begin hau, ← h.kept r hr a hau fun hc => hS hc.2, he]
  refine ⟨h.consistent, h.walk_eq, fun b hb hS => ?_, fun r' hr' b hb hS => ?_, h.root,
    fun vpn hv => ?_, fun p => ?_, fun p => ?_⟩
  · rcases hS with hba | hm
    · rw [entry_congr_page hau hb hba, he]
    · exact h.gone b hb hm
  · exact h.kept r' hr' b hb fun hc => hS ⟨hc.1, Or.inr hc.2⟩
  · rcases hv with rfl | hv
    · exact page_begin_lt hau
    · exact h.inside vpn hv
  · rw [hmapped]
    exact h.ref p
  · rw [hmapped]
    exact h.freed p

/-- **`del_page`** of an address. -/
theorem delPage (h : Cleared m₀ m R D₀ F₀ r S D F) (hr : r ∈ R) {a : ℕ} (hau : a < userEnd) :
    ∃ m' D' F', m.delPage r a = .ok m' ∧
      Cleared m₀ m' R D₀ F₀ r (insert (a / pageSize) S) D' F' := by
  have hc := h.consistent
  have hU := getGptx_user hau
  cases he : m.entry r a with
  | none => exact ⟨m, D, F, delPage_of_none hc.tables hr hU he, h.skip hr hau he⟩
  | some pte =>
    rcases delPage_cases hc hr hU with ⟨hnone, -⟩ | ⟨s, m', hs, hdel, hrw⟩
    · rw [he] at hnone
      cases hnone
    · have ht := hrw.touched hc.tables hr hs
      obtain ⟨hv, hload⟩ := (entry_eq_some_iff hs).1 he
      have hchild : m.child s.1 s.2 = some (pte2ppn pte) := hload ▸ child_of_valid hv
      -- the page is mapped here for the first time, so it has not been freed
      have hS : a / pageSize ∉ S := by
        intro hS
        rw [h.gone a hau hS] at he
        cases he
      have hF : pte2ppn pte ∉ F := (hc.tables.data _ (entry_mem hc.tables hr hU he)).2.2
      have he₀ : m₀.entry r (a / pageSize * pageSize) = some pte := by
        rw [entry_page_begin hau, ← h.kept r hr a hau fun hm => hS hm.2, he]
      have hentry : ∀ r' ∈ R, ∀ b < userEnd, m'.entry r' b =
          if r' = r ∧ b / pageSize = a / pageSize then none else m.entry r' b :=
        fun r' hr' b hb => by
          rw [ht.entry_eq hc hr hU hr' (getGptx_user hb)]
          simp only [isValid_zero, Bool.false_eq_true, if_false, indices_user hau hb]
      have hcount := fun p => hrw.ref p
      simp only [hchild, Option.some.injEq, show target 0 = none from rfl, reduceCtorEq, if_false,
        Nat.add_zero] at hcount
      have hdropped : ∀ p, p ∈ m.dropped s 0 ↔ pte2ppn pte = p ∧ m.ref p = 1 := by
        intro p
        simp only [dropped, Set.mem_ofPred_eq, hchild, Option.some.injEq,
          show target 0 = none from rfl, ne_eq, reduceCtorEq, not_false_eq_true, true_and]
      refine ⟨m', _, _, hdel, hc.touched hr hU ht (by simp [target]), fun p hp => ?_,
        fun b hb hbS => ?_, fun r' hr' b hb hbS => ?_, fun r' hr' i hi => ?_, fun vpn hvpn => ?_,
        fun p => ?_, fun p => ?_⟩
      · rw [child_congr hrw.mem, walk_store hc.tables (slot_leaf hr hU hs).1 hr hp, h.walk_eq p hp]
      · rw [hentry r hr b hb]
        split_ifs with hba
        · rfl
        · exact h.gone b hb (hbS.resolve_left fun he => hba ⟨rfl, he⟩)
      · rw [hentry r' hr' b hb, if_neg fun hc => hbS ⟨hc.1, Or.inl hc.2⟩]
        exact h.kept r' hr' b hb fun hc => hbS ⟨hc.1, Or.inr hc.2⟩
      · rw [ht.root_eq hc hr hU hr' hi, h.root r' hr' i hi]
      · rcases hvpn with rfl | hvpn
        · exact page_begin_lt hau
        · exact h.inside vpn hvpn
      · have href := h.ref p
        have hp := hcount p
        rw [mapped_insert_some he₀]
        split_ifs at hp ⊢ with hpq
        · rw [Set.ncard_insert_of_notMem (fun hm => hS hm.1) (mapped_finite m₀ r h.inside p)]
          omega
        · omega
      · have hfreed := h.freed p
        have hp := hcount p
        rw [Set.mem_union, hdropped, mapped_insert_some he₀]
        split_ifs at hp ⊢ with hpq
        · subst hpq
          have hne : (insert (a / pageSize) (m₀.mapped r S (pte2ppn pte))).Nonempty := ⟨_, Or.inl rfl⟩
          have hF₀ : pte2ppn pte ∉ F₀ := fun hm => hF (hfreed.2 (Or.inl hm))
          simp only [hF, hF₀, hne, false_or, true_and]
          omega
        · rw [hfreed, show m'.ref p = m.ref p by omega]
          simp [hpq]

end Cleared

/-- **One round of `del_range`** unmaps one page, if there is one. -/
theorem delStep_cleared (h : Cleared m₀ m R D₀ F₀ r S D F) (hr : r ∈ R) {start : ℕ}
    (hau : start < userEnd) : ∃ m' D' F', delStep m r start = .ok (m', nextAddr m₀ r start) ∧
      Cleared m₀ m' R D₀ F₀ r (insert (start / pageSize) S) D' F' := by
  rcases delStep_cases h.consistent.tables hr hau (h.slot_eq hau) with ⟨he, hstep⟩ | hstep
  · exact ⟨m, D, F, hstep, h.skip hr hau he⟩
  · obtain ⟨m', D', F', hdel, h'⟩ := h.delPage hr hau
    exact ⟨m', D', F', hstep m' hdel, h'⟩

/-- The rounds of a loop over a range are made inside the range. -/
theorem rangeRounds_eq {step : Mm → ℕ → Res (Mm × ℕ)} {stop : ℕ} {I : ℕ → Mm → Prop}
    (hstep : ∀ m start, start < stop → I start m → ∃ m' next, step m start = .ok (m', next) ∧
      start + ptSize ≤ next ∧ next ≤ stop ∧ I next m') (k : ℕ) :
    ∀ {m : Mm} {start : ℕ}, start < stop → (stop - start) / ptSize < k → I start m →
      ∃ as, rangeRounds step stop k m start = .ok as ∧ ∀ a ∈ as, start ≤ a ∧ a < stop := by
  induction k with
  | zero => exact fun _ hk _ => absurd hk (Nat.not_lt_zero _)
  | succ k ih =>
    intro m start hlt hk h
    obtain ⟨m', next, h1, h2, h3, h4⟩ := hstep m start hlt h
    rw [ptSize_eq] at h2
    simp only [rangeRounds, h1, ok_bind]
    by_cases hnext : next < stop
    · obtain ⟨as, h5, h6⟩ := ih hnext (by rw [ptSize_eq] at hk ⊢; omega) h4
      refine ⟨start :: as, by rw [if_pos ⟨by omega, hnext⟩, h5]; rfl, ?_⟩
      rintro a (_ | ⟨_, ha⟩)
      · exact ⟨le_rfl, hlt⟩
      · have := h6 a ha
        omega
    · refine ⟨[start], by rw [if_neg fun hc => hnext hc.2]; rfl, fun a ha => ?_⟩
      obtain rfl := List.mem_singleton.1 ha
      exact ⟨le_rfl, hlt⟩

/-- The invariant of the loop of `del_range`, at the address `start`. -/
structure Clearing (m₀ : Mm) (R D₀ F₀ : Set ℕ) (r start₀ start : ℕ) (m : Mm) : Prop where
  le : start₀ ≤ start
  aligned : start % ptSize = 0
  table : start % pageSize = 0 ∨ m₀.slot r start = none
  cleared : ∃ D F, Cleared m₀ m R D₀ F₀ r (pageRange start₀ start) D F

theorem clearing_step {stop start₀ : ℕ} (hstop : stop ≤ userEnd) (h₀ : start₀ % pageSize = 0)
    (hend : stop % pageSize = 0) (hr : r ∈ R) (m : Mm) (start : ℕ) (hlt : start < stop)
    (h : Clearing m₀ R D₀ F₀ r start₀ start m) :
    ∃ m' next, delStep m r start = .ok (m', next) ∧ start + ptSize ≤ next ∧ next ≤ stop ∧
      Clearing m₀ R D₀ F₀ r start₀ next m' := by
  obtain ⟨hle, h512, halign, D, F, h⟩ := h
  obtain ⟨h1, h2, h3, h4, h5, h6⟩ := nextAddr_spec hstop hlt h512 hend halign
  obtain ⟨m', D', F', h7, h8⟩ := delStep_cleared h hr (lt_of_lt_of_le hlt hstop)
  have hpages := insert_pageRange (S := ∅) h₀ hle h1 h4
  rw [Set.empty_union, Set.empty_union] at hpages
  rw [hpages] at h8
  exact ⟨m', _, h7, h5, h2, by omega, h3, h6, D', F', h8⟩

theorem clearing_start {start : ℕ} (h : Consistent m R userEntries D F)
    (h₀ : start % pageSize = 0) : Clearing m R D F r start start m := by
  have hempty : pageRange start start = ∅ := by
    rw [← Set.empty_union (pageRange start start), union_pageRange_self]
  refine ⟨le_rfl, ?_, Or.inl h₀, D, F, hempty ▸ h.cleared⟩
  rw [pageSize_eq] at h₀
  rw [ptSize_eq]
  omega

end Mm

/-- **`del_range` unmaps its range and nothing else.**  On page tables built by `get_pte`,
`add_page` and `del_page`, and for a page-aligned range of user addresses, the loop comes to an
end without a failed assertion, wherever tables are missing; it calls `get_pte` and `del_page` for
addresses of the range only.  Afterwards no page of the range is mapped; every other address, of
every page table, is mapped as before; each page has lost a reference for each mapping in the
range, and has been freed if that was its last one. -/
theorem del_range_clears {R : Set ℕ} {s : PtState} (hs : (pageTables R).Reachable s) {r : ℕ}
    (hr : r ∈ R) {start stop : ℕ} (h₀ : start % pageSize = 0) (h₁ : stop % pageSize = 0)
    (hu : userAccess start stop) {k : ℕ} (hk : userEnd / ptSize ≤ k) :
    ∃ m as, delRange k s.mm r start stop = .ok m ∧ delRounds k s.mm r start stop = .ok as ∧
      (∀ a ∈ as, start ≤ a ∧ a < stop) ∧
      (∀ b, start ≤ b → b < stop → m.lookup r b = .ok none) ∧
      (∀ r' ∈ R, ∀ b, s.mm.UserOrKernel r' b → ¬ (r' = r ∧ start ≤ b ∧ b < stop) →
        m.lookup r' b = s.mm.lookup r' b) ∧
      (∀ p, m.ref p + (s.mm.mapped r (Mm.pageRange start stop) p).ncard = s.mm.ref p) ∧
      ∀ p, p ∈ m.pmm.freePages ↔ p ∈ s.mm.pmm.freePages ∨
        (s.mm.mapped r (Mm.pageRange start stop) p).Nonempty ∧ m.ref p = 0 := by
  obtain ⟨F, hF⟩ := pageTables_consistent hs
  obtain ⟨h2, hlt, h3⟩ := hu
  have hrounds := rounds_lt ⟨h2, hlt, h3⟩ hk
  have hstep := fun m a hlt (h : Mm.Clearing s.mm R s.held F r start a m) =>
    Mm.clearing_step h3 h₀ h₁ hr m a hlt h
  have hstart := Mm.clearing_start (r := r) hF h₀
  obtain ⟨m, h4, -, -, -, D', F', h5⟩ := rangeLoop_eq hstep k hlt hrounds hstart
  obtain ⟨as, h6, h7⟩ := Mm.rangeRounds_eq hstep k hlt hrounds hstart
  have hpage : ∀ b < userEnd, b / pageSize ∈ Mm.pageRange start stop ↔ start ≤ b ∧ b < stop := by
    intro b hb
    rw [pageSize_eq] at h₀ h₁
    simp only [Mm.pageRange, pageSize_eq, Set.mem_ofPred_eq]
    omega
  have hc := h5.consistent
  refine ⟨m, as, ?_, h6, h7, fun b hb hb' => ?_, fun r' hr' b hb hne => ?_, h5.ref, ?_⟩
  · rw [delRange, checkRange, assert_of ⟨h₀, h₁⟩, ok_bind, assert_of ⟨h2, hlt, h3⟩]
    exact h4
  · have hbu : b < userEnd := hb'.trans_le h3
    rw [Mm.lookup_eq hc.tables hr (getGptx_user hbu), h5.gone b hbu ((hpage b hbu).2 ⟨hb, hb'⟩)]
    rfl
  · rcases hb with hbu | ⟨hi, hkernel⟩
    · have hU := getGptx_user hbu
      rw [Mm.lookup_eq hc.tables hr' hU, Mm.lookup_eq hF.tables hr' hU, h5.kept r' hr' b hbu]
      exact fun hm => hne ⟨hm.1, (hpage b hbu).1 hm.2⟩
    · exact Mm.lookup_kernel (h5.root r' hr' _ hi) hkernel
  · rw [hc.tables.free.freePages_eq, hF.tables.free.freePages_eq]
    exact h5.freed

/-- A page is mapped at `USER_BEGIN`, and two pages of addresses are unmapped. -/
theorem del_range_clears_one : ∃ s m, (pageTables {0x80100}).Run
    [.allocPage, .addPage 0x80100 0x82000 userBegin pteR 0] s ∧
      delRange (userEnd / ptSize) s.mm 0x80100 userBegin (userBegin + 2 * pageSize) = .ok m ∧
      m.lookup 0x80100 userBegin = .ok none := by
  have h₀ : (pageTables {0x80100}).Run [] emptyTables := .start (emptyTables_init (by simp))
  obtain ⟨m₁, m, hm₁, hm⟩ : ∃ m₁ m, emptyTables.mm.allocPage = .ok (m₁, some 0x82000) ∧
    m₁.addPage 0x80100 0x82000 userBegin pteR = .ok (m, 0) := ⟨_, _, rfl, rfl⟩
  have h₁ : (pageTables {0x80100}).Run [.allocPage] ⟨m₁, ∅ ∪ {p | some 0x82000 = some p}⟩ :=
    h₀.step ⟨_, hm₁, rfl⟩
  have h₂ : (pageTables {0x80100}).Run [.allocPage, .addPage 0x80100 0x82000 userBegin pteR 0]
      ⟨m, _ \ m.pmm.freePages⟩ :=
    h₁.step ⟨rfl, ⟨by decide, by decide⟩, Or.inr rfl, by decide, hm, rfl⟩
  have haccess : userAccess userBegin (userBegin + 2 * pageSize) := by decide
  obtain ⟨m', as, h3, -, -, h4, -⟩ :=
    del_range_clears ⟨_, h₂⟩ rfl (by decide) (by decide) haccess le_rfl
  exact ⟨_, m', h₂, h3, h4 userBegin le_rfl (by decide)⟩

end GarretOS
