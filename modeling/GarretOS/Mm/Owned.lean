import GarretOS.Mm.Areas

/-!
# The frames of an address space

`Owned m R D₀ r A X D F` : the page tables with the roots `R` are consistent; the pages `D₀` belong
to other page tables than `r`; every other data page is mapped just once, by `r`, apart from the
pages `X` that have been allocated and are not mapped yet; and the free pages, the tables below
`r` and the data pages are together the frames `A`.

The operations that fill an address space move frames between these parts and lose none:

* `Owned.grown`, `Owned.take`, `Owned.fill`, `Owned.write`, `Owned.release` : the single steps;
* `owned_allocPageGpte`, `owned_copyLoop`, `owned_handlePageFault` : the functions.
-/

namespace GarretOS

open Radix

namespace Mm

/-- The tables below a root. -/
def tablesOf (m : Mm) (r : ℕ) : Set ℕ :=
  {f | ∃ p, p ≠ [] ∧ TablePath userEntries p ∧ walk m.child r p = some f}

/-- The page table maps the page. -/
def Maps (m : Mm) (r p : ℕ) : Prop :=
  ∃ a < userEnd, ∃ pte, m.entry r a = some pte ∧ pte2ppn pte = p

/-- The frames `A` are the free pages, the tables of `r` and the data pages. -/
structure Owned (m : Mm) (R D₀ : Set ℕ) (r : ℕ) (A X D F : Set ℕ) : Prop where
  consistent : Consistent m R userEntries D F
  root : r ∈ R
  total : F ∪ m.tablesOf r ∪ D = A
  base : D₀ ⊆ D
  /-- The pages of other page tables are not mapped by `r`. -/
  others : ∀ p ∈ D₀, ¬ m.Maps r p
  /-- The other data pages are mapped by `r`, once. -/
  single : ∀ p ∈ D, p ∉ D₀ → p ∉ X → m.ref p = 1 ∧ m.Maps r p
  pending : ∀ p ∈ X, p ∈ D ∧ p ∉ D₀ ∧ m.ref p = 0

variable {m m' : Mm} {R D₀ A X D F D' F' : Set ℕ} {r addr page v : ℕ} {s : PtePtr}

/-! ### Tables -/

theorem Grown.tablesOf_eq {N : Set ℕ} (hg : Grown m m' R userEntries D F r N) :
    m'.tablesOf r = m.tablesOf r ∪ N := by
  ext f
  constructor
  · rintro ⟨p, hne, hp, hw⟩
    rcases hg.walk_new r hg.root p f hp hw with hw | hN
    · exact Or.inl ⟨p, hne, hp, hw⟩
    · exact Or.inr hN
  · rintro (⟨p, hne, hp, hw⟩ | hN)
    · exact ⟨p, hne, hp, hg.walk_mono r hg.root p f hp hw⟩
    · exact hg.hung f hN

theorem tablesOf_congr (h : ∀ p, TablePath userEntries p → walk m'.child r p = walk m.child r p) :
    m'.tablesOf r = m.tablesOf r := by
  ext f
  constructor
  · rintro ⟨p, hne, hp, hw⟩
    exact ⟨p, hne, hp, h p hp ▸ hw⟩
  · rintro ⟨p, hne, hp, hw⟩
    exact ⟨p, hne, hp, (h p hp).symm ▸ hw⟩

/-- A mapped page has a reference. -/
theorem Maps.ref_pos (h : Consistent m R userEntries D F) (hr : r ∈ R) {p : ℕ} (hm : m.Maps r p) :
    0 < m.ref p := by
  obtain ⟨a, ha, pte, he, rfl⟩ := hm
  have hU := getGptx_user ha
  rw [h.refs _ (entry_mem h.tables hr hU he), Set.ncard_pos (mappings_finite h.tables _)]
  cases hs : m.slot r a with
  | none => simp [entry, hs] at he
  | some s =>
    obtain ⟨hl, hk⟩ := slot_leaf (U := userEntries) hr hU hs
    obtain ⟨hv, rfl⟩ := (entry_eq_some_iff hs).1 he
    exact ⟨s, hl, hk, child_of_valid hv⟩

theorem entry_congr_page {a b : ℕ} (ha : a < userEnd) (hb : b < userEnd)
    (hab : b / pageSize = a / pageSize) : m.entry r b = m.entry r a := by
  rw [entry, entry, slot_congr_indices ((indices_user ha hb).2 hab)]

namespace Owned

theorem grown (h : Owned m R D₀ r A X D F) {N : Set ℕ} (hg : Grown m m' R userEntries D F r N) :
    Owned m' R D₀ r A X D (F \ N) := by
  have hc := h.consistent
  have hmaps : ∀ p, m'.Maps r p ↔ m.Maps r p := by
    intro p
    constructor
    · rintro ⟨a, ha, pte, he, hp⟩
      exact ⟨a, ha, pte, hg.entry_eq hc.tables h.root (getGptx_user ha) ▸ he, hp⟩
    · rintro ⟨a, ha, pte, he, hp⟩
      exact ⟨a, ha, pte, (hg.entry_eq hc.tables h.root (getGptx_user ha)).symm ▸ he, hp⟩
  have href : ∀ p ∈ D, m'.ref p = m.ref p := fun p hp =>
    hg.ref p fun hN => (hc.tables.data p hp).2.2 (hg.sub hN)
  refine ⟨hc.grown hg, h.root, ?_, h.base, fun p hp => by rw [hmaps]; exact h.others p hp,
    fun p hp h0 hX => ?_, fun p hp => ?_⟩
  · rw [hg.tablesOf_eq, ← h.total, Set.union_comm (m.tablesOf r) N, ← Set.union_assoc,
      Set.sdiff_union_of_subset hg.sub]
  · rw [href p hp, hmaps]
    exact h.single p hp h0 hX
  · obtain ⟨h1, h2, h3⟩ := h.pending p hp
    exact ⟨h1, h2, by rw [href p h1, h3]⟩

/-- A frame is taken away for a record. -/
theorem take (h : Owned m R D₀ r A X D F) (ha : Allocated m m' F page) :
    Owned m' R D₀ r (A \ {page}) X D (F \ {page}) ∧ page ∈ A := by
  have hc := h.consistent
  have hfree := ha.mem_free
  have hmaps : ∀ p, m'.Maps r p ↔ m.Maps r p := by
    intro p
    simp only [Maps, entry_congr ha.mem]
  have htables : m'.tablesOf r = m.tablesOf r := by
    simp only [tablesOf, child_congr ha.mem]
  have hnotTable : page ∉ m.tablesOf r := by
    rintro ⟨p, -, hp, hw⟩
    exact (hc.tables.table r h.root p page hp hw).1 hfree
  have hnotData : page ∉ D := fun hD => (hc.tables.data page hD).2.2 hfree
  refine ⟨⟨hc.take ha, h.root, ?_, h.base, fun p hp => by rw [hmaps]; exact h.others p hp,
    fun p hp h0 hX => by rw [ha.ref, hmaps]; exact h.single p hp h0 hX,
    fun p hp => by rw [ha.ref]; exact h.pending p hp⟩, ?_⟩
  · rw [htables, ← h.total, Set.union_sdiff_distrib, Set.union_sdiff_distrib,
      Set.sdiff_singleton_eq_self hnotTable, Set.sdiff_singleton_eq_self hnotData]
  · rw [← h.total]
    exact Or.inl (Or.inl hfree)

/-- A frame is taken as a data page, and filled. -/
theorem fill (h : Owned m R D₀ r A ∅ D F) {m₁ : Mm} (ha : Allocated m m₁ F page)
    (hmem : ∀ f, f ≠ page → m'.mem f = m₁.mem f) (hpmm : m'.pmm = m₁.pmm) :
    Owned m' R D₀ r A {page} (insert page D) (F \ {page}) := by
  have hc₁ := h.consistent.alloc ha
  have hpage : page ∈ insert page D := Set.mem_insert page D
  have hfree := ha.mem_free
  have hnotData : page ∉ D := fun hD => (h.consistent.tables.data page hD).2.2 hfree
  have hmaps : ∀ p, m'.Maps r p ↔ m.Maps r p := by
    intro p
    have hentry : ∀ a < userEnd, m'.entry r a = m.entry r a := by
      intro a hau
      rw [hc₁.entry_write hpage hmem h.root (getGptx_user hau), entry_congr ha.mem]
    constructor
    · rintro ⟨a, hau, pte, he, hp⟩
      exact ⟨a, hau, pte, hentry a hau ▸ he, hp⟩
    · rintro ⟨a, hau, pte, he, hp⟩
      exact ⟨a, hau, pte, (hentry a hau).symm ▸ he, hp⟩
  have htables : m'.tablesOf r = m.tablesOf r := tablesOf_congr fun p hp => by
    rw [hc₁.walk_write hpage hmem h.root hp, child_congr ha.mem]
  have href : ∀ p, m'.ref p = m.ref p := by
    intro p
    rw [← ha.ref]
    simp only [ref, hpmm]
  refine ⟨hc₁.write hpage hmem hpmm, h.root, ?_, h.base.trans (Set.subset_insert page D),
    fun p hp => by rw [hmaps]; exact h.others p hp, fun p hp h0 hX => ?_, ?_⟩
  · have hF : insert page (F \ {page}) = F := by
      rw [Set.insert_sdiff_singleton, Set.insert_eq_of_mem hfree]
    rw [htables, ← h.total, Set.union_insert, ← Set.insert_union, ← Set.insert_union, hF]
  · rw [href, hmaps]
    exact h.single p (hp.resolve_left hX) h0 (Set.notMem_empty p)
  · rintro p rfl
    exact ⟨hpage, fun h0 => hnotData (h.base h0), by rw [href, h.consistent.unused _ hfree]⟩

/-- A page that is mapped is not one of the pending pages. -/
theorem maps_single (h : Owned m R D₀ r A X D F) {p : ℕ} (hp : p ∈ D) (hm : m.Maps r p) :
    p ∉ D₀ ∧ p ∉ X ∧ m.ref p = 1 := by
  have h0 : p ∉ D₀ := fun h0 => h.others p h0 hm
  have hX : p ∉ X := by
    intro hX
    have := hm.ref_pos h.consistent h.root
    rw [(h.pending p hX).2.2] at this
    exact lt_irrefl 0 this
  exact ⟨h0, hX, (h.single p hp h0 hX).1⟩

/-- **A leaf entry is written** : the page that was mapped there is freed, and the pending page,
if there is one, is mapped. -/
theorem write (h : Owned m R D₀ r A X D F) (hau : addr < userEnd)
    (hv : ∀ q, target v = some q ↔ q ∈ X)
    (ht : Touched m m' R userEntries D F r addr (some v) D' F') : Owned m' R D₀ r A ∅ D' F' := by
  have hU := getGptx_user hau
  have hcons : Consistent m' R userEntries D' F' := by
    refine h.consistent.touched h.root hU ht ?_
    rintro w ⟨⟩ q hq
    exact (h.pending q ((hv q).1 hq)).1
  obtain ⟨m₁, N, hg, s, hs, hrw, rfl, rfl⟩ := ht
  have h₁ := h.grown hg
  have hc₁ := h₁.consistent
  obtain ⟨hl, hk⟩ := slot_leaf (U := userEntries) h.root hU hs
  -- what was mapped at the address has no other reference
  have hold : ∀ q, m₁.child s.1 s.2 = some q → q ∈ D ∧ m₁.Maps r q := by
    intro q hq
    refine ⟨hc₁.tables.mapped q s ⟨hl, hk, hq⟩, addr, hau, m₁.load s, ?_⟩
    rw [child_eq_target, target] at hq
    split_ifs at hq with hval
    exact ⟨(entry_eq_some_iff hs).2 ⟨hval, rfl⟩, Option.some.inj hq⟩
  have hdrop : ∀ q, q ∈ m₁.dropped s v ↔ m₁.child s.1 s.2 = some q := by
    intro q
    refine ⟨fun hq => hq.1, fun hq => ?_⟩
    obtain ⟨hD, hm⟩ := hold q hq
    obtain ⟨-, hX, href⟩ := h₁.maps_single hD hm
    exact ⟨hq, fun ht => hX ((hv q).1 ht), href⟩
  have hentry : ∀ b < userEnd, m'.entry r b = if b / pageSize = addr / pageSize then
      (if isValid v then some v else none) else m₁.entry r b := by
    intro b hb
    rw [hrw.entry_eq hc₁.tables h.root hU hs h.root (getGptx_user hb)]
    simp only [true_and, indices_user hau hb]
  refine ⟨hcons, h.root, ?_, fun p h0 => ⟨h.base h0, fun hd => ?_⟩, fun p h0 => ?_,
    fun p hp h0 _ => ?_, fun p hp => absurd hp (Set.notMem_empty p)⟩
  · have htables : m'.tablesOf r = m₁.tablesOf r := tablesOf_congr fun p hp => by
      rw [child_congr hrw.mem, walk_store hc₁.tables hl h.root hp]
    have hsub : m₁.dropped s v ⊆ D := Rewritten.dropped_subset hc₁.tables hl hk
    rw [htables, ← h₁.total]
    ext f
    simp only [Set.mem_union, Set.mem_sdiff]
    constructor
    · rintro (((hf | hf) | hf) | hf)
      · exact Or.inl (Or.inl hf)
      · exact Or.inr (hsub hf)
      · exact Or.inl (Or.inr hf)
      · exact Or.inr hf.1
    · rintro ((hf | hf) | hf)
      · exact Or.inl (Or.inl (Or.inl hf))
      · exact Or.inl (Or.inr hf)
      · by_cases hd : f ∈ m₁.dropped s v
        · exact Or.inl (Or.inl (Or.inr hd))
        · exact Or.inr ⟨hf, hd⟩
  · exact h₁.others p h0 (hold p ((hdrop p).1 hd)).2
  · rintro ⟨b, hb, pte, he, hp⟩
    rw [hentry b hb] at he
    split_ifs at he with hba hval
    · have htarget : target v = some p := by
        rw [target, if_pos hval, ← hp, ← Option.some.inj he]
      exact (h.pending p ((hv p).1 htarget)).2.1 h0
    · exact h₁.others p h0 ⟨b, hb, pte, he, hp⟩
  · have hnot : m₁.child s.1 s.2 ≠ some p := fun hc => hp.2 ((hdrop p).2 hc)
    have href := hrw.ref p
    rw [if_neg hnot] at href
    by_cases hX : p ∈ X
    · have htarget := (hv p).2 hX
      rw [if_pos htarget, (h₁.pending p hX).2.2] at href
      refine ⟨by omega, addr, hau, v, ?_⟩
      rw [target] at htarget
      split_ifs at htarget with hval
      rw [hentry addr hau, if_pos rfl, if_pos hval]
      exact ⟨rfl, Option.some.inj htarget⟩
    · obtain ⟨href₁, b, hb, pte, he, hpp⟩ := h₁.single p hp.1 h0 hX
      rw [if_neg fun ht => hX ((hv p).1 ht), href₁] at href
      refine ⟨by omega, b, hb, pte, ?_, hpp⟩
      rw [hentry b hb, if_neg, he]
      intro hba
      rw [entry_congr_page hau hb hba] at he
      obtain ⟨hval, hload⟩ := (entry_eq_some_iff hs).1 he
      exact hnot (by rw [child_eq_target, target, if_pos hval, hload, hpp])

/-- The pending page is freed. -/
theorem release (h : Owned m R D₀ r A {page} D F) :
    ∃ m', m.freePage page = .ok m' ∧ Owned m' R D₀ r A ∅ (D \ {page}) (insert page F) := by
  obtain ⟨hD, h0, href⟩ := h.pending page rfl
  have hempty : m.mappings R userEntries page = ∅ := by
    rw [← Set.ncard_eq_zero (mappings_finite h.consistent.tables page),
      ← h.consistent.refs page hD, href]
  obtain ⟨h1, h2, h3⟩ := h.consistent.tables.data page hD
  obtain ⟨m', h4, h5, h6⟩ := h.consistent.free hD hempty
  obtain ⟨m'', h4', -, -, -, href'⟩ := freePage_eq h.consistent.tables.free h1 h2 h3
  obtain rfl := Except.ok.inj (h4.symm.trans h4')
  have hmaps : ∀ p, m'.Maps r p ↔ m.Maps r p := by
    intro p
    simp only [Maps, entry_congr h6]
  refine ⟨m', h4, h5, h.root, ?_, fun p hp => ⟨h.base hp, ?_⟩,
    fun p hp => by rw [hmaps]; exact h.others p hp, fun p hp hp0 _ => ?_,
    fun p hp => absurd hp (Set.notMem_empty p)⟩
  · have htables : m'.tablesOf r = m.tablesOf r := by
      simp only [tablesOf, child_congr h6]
    rw [htables, ← h.total, Set.insert_union, Set.insert_union, ← Set.union_insert,
      Set.insert_sdiff_singleton, Set.insert_eq_of_mem hD]
  · rintro rfl
    exact h0 hp
  · rw [href', if_neg (show p ≠ page from hp.2), hmaps]
    exact h.single p hp.1 hp0 hp.2

end Owned

/-! ### The functions that fill an address space -/

/-- `add_page` does not fail where the table exists. -/
theorem addPage_of_slot (h : Consistent m R userEntries D F) (hr : r ∈ R) (hau : addr < userEnd)
    (hs : m.slot r addr = some s) {flags : ℕ} (hpage : page ∈ D) (hf : flags < 1024) :
    Sat (m.addPage r page addr flags) fun res => res.2 = 0 ∧ ∃ D' F',
      Touched m res.1 R userEntries D F r addr (some (ppn2pte page (pteV ||| flags))) D' F' := by
  have hU := getGptx_user hau
  have hsat := addPage_touched h hr hU hpage hf
  cases hres : m.addPage r page addr flags with
  | error e =>
    rw [hres] at hsat
    exact hsat
  | ok res =>
    rw [hres] at hsat
    obtain ⟨w, D', F', ht, ⟨-, hret⟩ | ⟨rfl, hret⟩⟩ := hsat
    · -- the entry has been found, so the function has returned `0`
      rw [addPage, getPte_of_slot h.tables hr hU hs, ok_bind] at hres
      obtain ⟨m₁, -, hres⟩ := bind_eq_ok.1 hres
      obtain ⟨ppn, -, hres⟩ := bind_eq_ok.1 hres
      have hret' : (0 : ℤ) = res.2 := congrArg Prod.snd (Except.ok.inj hres)
      rw [hret] at hret'
      exact absurd hret' (by decide)
    · exact ⟨hret, D', F', ht⟩

theorem Owned.target_pending (h : Owned m R D₀ r A {page} D F) {flags : ℕ} (hf : flags < 1024)
    (q : ℕ) : target (ppn2pte page (pteV ||| flags)) = some q ↔ q ∈ ({page} : Set ℕ) := by
  rw [target_of_mem h.consistent (h.pending page rfl).1 hf, Option.some.injEq,
    Set.mem_singleton_iff, eq_comm]

/-- **`alloc_page_gpte`** keeps the account of the frames. -/
theorem owned_allocPageGpte (h : Owned m R D₀ r A ∅ D F) (hau : addr < userEnd) {flags : ℕ}
    (hf : flags < 1024) :
    Sat (m.allocPageGpte r addr flags) fun res => ∃ D' F', Owned res.1 R D₀ r A ∅ D' F' := by
  refine (allocPage_sat h.consistent.tables.free).bind ?_
  rintro ⟨m₁, _ | page⟩ ha
  · obtain rfl : m₁ = m := ha
    exact ⟨D, F, h⟩
  have ha : Allocated m m₁ F page := ha
  have h₁ : Owned m₁ R D₀ r A {page} (insert page D) (F \ {page}) := h.fill ha (fun _ _ => rfl) rfl
  refine (addPage_touched h₁.consistent h.root (getGptx_user hau)
    (Set.mem_insert page D) hf).bind ?_
  rintro ⟨m₂, ret⟩ ⟨w, D', F', ht, ⟨rfl, hret⟩ | ⟨rfl, hret⟩⟩
  · have hret : ret ≠ 0 := by
      simp only at hret
      rw [hret]
      decide
    obtain ⟨m', N, hg, rfl, rfl, rfl⟩ := ht
    obtain ⟨m₃, h3, h4⟩ := (h₁.grown hg).release
    simp only [ne_eq, hret, not_false_eq_true, if_true] at h3 ⊢
    rw [h3, ok_bind]
    exact ⟨_, _, h4⟩
  · have hret : ret = 0 := hret
    simp only [ne_eq, hret, not_true_eq_false, if_false]
    exact ⟨D', F', h₁.write hau (h₁.target_pending hf) ht⟩

theorem pte2page_sat (pte : ℕ) : Sat (pte2page pte) fun _ => True :=
  sat_assert.bind fun _ _ => trivial

/-- One round of `copy_range`. -/
theorem owned_copyStep (h : Owned m R D₀ r A ∅ D F) {fr start : ℕ} (hfr : fr ∈ R)
    (hau : start < userEnd) :
    Sat (copyStep m fr r start) fun res => ∃ D' F', Owned res.1 R D₀ r A ∅ D' F' := by
  have hc := h.consistent
  have hU := getGptx_user hau
  unfold copyStep
  rw [getPte_false hc.tables hfr hU, ok_bind]
  cases m.slot fr start with
  | none => exact ⟨D, F, h⟩
  | some p =>
    simp only
    split_ifs
    · refine (getPte_sat hc.tables h.root hU true).bind ?_
      rintro ⟨m₁, _ | q⟩ ⟨N, hg, hslot⟩
      · exact ⟨_, _, h.grown hg⟩
      have h₁ := h.grown hg
      refine (pte2page_sat (m₁.load p)).bind fun src _ => ?_
      refine (allocPage_sat h₁.consistent.tables.free).bind ?_
      rintro ⟨m₂, _ | page⟩ ha
      · simp [Sat]
      have ha : Allocated m₁ m₂ (F \ N) page := ha
      refine (page2va_sat page).bind ?_
      rintro dst ⟨hdst, -⟩
      refine (page2va_sat src).bind ?_
      rintro va -
      rw [hdst]
      have hmem : ∀ f, f ≠ page → (m₂.memcpyPage page va).mem f = m₂.mem f := by
        intro f hf
        simp only [memcpyPage, Function.update_of_ne hf]
      have h₃ := h₁.fill ha hmem rfl
      have hs : (m₂.memcpyPage page va).slot r start = some q := by
        rw [← hslot q rfl, slot, slot, (h₁.consistent.alloc ha).walk_write
          (Set.mem_insert page D) hmem h.root (tablePath_addr hU), child_congr ha.mem]
      refine (addPage_of_slot h₃.consistent h.root hau hs (Set.mem_insert page D)
        (user_flags (m₁.load p))).bind ?_
      rintro ⟨m₄, ret⟩ ⟨-, D', F', ht⟩
      exact ⟨D', F', h₃.write hau (h₃.target_pending (user_flags (m₁.load p))) ht⟩
    · exact ⟨D, F, h⟩

/-- **The loop of `copy_range`** keeps the account of the frames. -/
theorem owned_copyLoop {fr stop : ℕ} (hfr : fr ∈ R) (hstop : stop ≤ userEnd) (k : ℕ) :
    ∀ {m : Mm} {D F : Set ℕ} {start : ℕ} {res : Mm × ℤ}, Owned m R D₀ r A ∅ D F →
      start < userEnd → copyLoop fr r stop k m start = .ok res →
      ∃ D' F', Owned res.1 R D₀ r A ∅ D' F' := by
  induction k with
  | zero =>
    intro m D F start res _ _ hres
    cases hres
  | succ k ih =>
    intro m D F start res h hau hres
    obtain ⟨⟨m₁, ret, next⟩, hstep, hres⟩ := bind_eq_ok.1 hres
    obtain ⟨D', F', h₁⟩ := (owned_copyStep h hfr hau).of_ok hstep
    simp only at hres
    split_ifs at hres with hret hcont
    · obtain rfl := Except.ok.inj hres
      exact ⟨D', F', h₁⟩
    · exact ih h₁ (by omega) hres
    · obtain rfl := Except.ok.inj hres
      exact ⟨D', F', h₁⟩

/-- **`swap_in`** leaves a pending page. -/
theorem owned_swapIn (h : Owned m R D₀ r A ∅ D F) (hau : addr < userEnd) (ide : ℕ → ℕ → ℕ) :
    Sat (swapIn m r addr ide) fun res => res.1.slot r addr = m.slot r addr ∧
      ∃ D' F', Owned res.1 R D₀ r A {res.2} D' F' := by
  have hU := getGptx_user hau
  refine (allocPage_sat h.consistent.tables.free).bind ?_
  rintro ⟨m₁, _ | page⟩ ha
  · simp [Sat]
  have ha : Allocated m m₁ F page := ha
  have h₁ : Owned m₁ R D₀ r A {page} (insert page D) (F \ {page}) := h.fill ha (fun _ _ => rfl) rfl
  simp only
  rw [getPte_false h₁.consistent.tables h.root hU, ok_bind]
  cases m₁.slot r addr with
  | none => simp [Sat]
  | some p =>
    refine sat_assert.bind fun _ _ => ?_
    refine (page2va_sat page).bind ?_
    rintro va ⟨rfl, -⟩
    refine Sat.bind (P := fun _ => True) (sat_assert.bind fun _ _ => trivial) fun offset _ => ?_
    obtain ⟨m₂, hm₂⟩ : ∃ m₂ : Mm, m₂ = { m₁ with mem := Function.update m₁.mem va (ide offset) } :=
      ⟨_, rfl⟩
    have hmem : ∀ f, f ≠ va → m₂.mem f = m₁.mem f := by
      intro f hf
      rw [hm₂]
      exact Function.update_of_ne hf _ _
    have hpmm : m₂.pmm = m₁.pmm := by rw [hm₂]
    simp only [sat_pure, ← hm₂]
    refine ⟨?_, _, _, h.fill ha hmem hpmm⟩
    rw [slot, slot, (h.consistent.alloc ha).walk_write (Set.mem_insert va D) hmem h.root
      (tablePath_addr hU), child_congr ha.mem]

end Mm

/-! ### Page faults -/

variable {m : Mm} {R D₀ A D F : Set ℕ} {r : ℕ} {vmm : VmManager}

theorem faultFlags_lt (vma : Vma) : faultFlags vma < 1024 := by
  unfold faultFlags
  split_ifs <;> decide

theorem faultFlags_not_user (vma : Vma) : (pteV ||| faultFlags vma) &&& pteU = 0 := by
  unfold faultFlags
  split_ifs <;> decide

/-- **`handle_page_fault`** keeps the account of the frames. -/
theorem owned_handlePageFault (h : m.Owned R D₀ r A ∅ D F) (hareas : AreasOk vmm)
    (hgpt : vmm.pGpt = some r) (addr : ℕ) (ide : ℕ → ℕ → ℕ) :
    Sat (handlePageFault m vmm addr ide) fun res => (∃ c, res.2.1 = { vmm with vmaCurr := c }) ∧
      AreasOk res.2.1 ∧ ∃ D' F', res.1.Owned R D₀ r A ∅ D' F' := by
  obtain ⟨⟨c, hc⟩, hareas', hfound⟩ := findVma_spec hareas addr
  unfold handlePageFault
  cases hv : findVma vmm addr with
  | mk vmm' o =>
    rw [hv] at hc hareas' hfound
    simp only at hc hareas' hfound ⊢
    have hres : (∃ c, vmm' = { vmm with vmaCurr := c }) := ⟨c, hc⟩
    cases o with
    | none => exact ⟨hres, hareas', D, F, h⟩
    | some vma =>
      obtain ⟨hmem, hholds⟩ := hfound vma rfl
      obtain ⟨-, -, -, -, hend⟩ := hareas.area vma hmem
      have hau : rounddown addr pageSize < userEnd := by
        simp only [Vma.holds, decide_eq_true_eq] at hholds
        have : rounddown addr pageSize ≤ addr := Nat.div_mul_le_self addr pageSize
        omega
      have hgpt' : vmm'.gpt = .ok r := by
        rw [hc, VmManager.gpt, hgpt]
      simp only
      split_ifs
      · exact ⟨hres, hareas', D, F, h⟩
      · rw [hgpt', ok_bind]
        refine (Mm.getPte_sat h.consistent.tables h.root (getGptx_user hau) true).bind ?_
        rintro ⟨m₁, _ | p⟩ ⟨N, hg, hslot⟩
        · simp [Sat]
        have h₁ := h.grown hg
        have hs : m₁.slot r (rounddown addr pageSize) = some p := hslot p rfl
        simp only
        split_ifs
        · refine (Mm.owned_allocPageGpte h₁ hau (faultFlags_lt vma)).bind ?_
          rintro ⟨m₂, _ | page⟩ ⟨D', F', h₂⟩
          · exact ⟨hres, hareas', D', F', h₂⟩
          · exact ⟨hres, hareas', D', F', h₂⟩
        · refine (Mm.owned_swapIn h₁ hau ide).bind ?_
          rintro ⟨m₂, page⟩ ⟨hs₂, D', F', h₂⟩
          refine (Mm.addPage_of_slot h₂.consistent h.root hau (hs₂.trans hs)
            (h₂.pending page rfl).1 (faultFlags_lt vma)).bind ?_
          rintro ⟨m₃, ret⟩ ⟨-, D'', F'', ht⟩
          exact ⟨hres, hareas', D'', F'',
            h₂.write hau (h₂.target_pending (faultFlags_lt vma)) ht⟩
        · exact ⟨hres, hareas', _, _, h₁⟩

end GarretOS
