import GarretOS.Mm.Twin
import GarretOS.Proc.Segments

/-!
# The pages of a segment in two runs

`load_bin` is run in two memories that differ in the contents of free pages only.  `Twin` relates
the two runs: they have the same page table, and the same bytes at the addresses that have been
written; a byte of a user page that has not been written is in each run the one that was there
before.

* `Twin.along` : steps that write tables only;
* `Twin.allocPageGpte`, `Twin.fillPage` : a new page, and bytes that are written to it;
* `fillLoop_twin`, `fillTail_twin`, `fillSegment_twin` : the pages of a segment.
-/

namespace GarretOS

open Radix Logged Mm

/-- The byte for an address in the page that a leaf entry maps. -/
def pageByte (w : ℕ → ℕ → ℕ) (pte a : ℕ) : ℕ := Bytes.get (w (pte2ppn pte)) (a % pageSize)

/-- The memories of two runs, `m` and `m` with the contents `w`: they have the same page table, and
the same bytes at the addresses `C`.  The bytes of other mapped addresses and of free pages are
related by `S`. -/
structure Twin (S : ℕ → ℕ → Prop) (C : Set ℕ) (m : Mm) (w : ℕ → ℕ → ℕ) (r : ℕ) : Prop where
  same : m.SameTables w r
  free : ∀ f ∈ m.pmm.freePages, ∀ o < pageSize, S (Bytes.get (m.mem f) o) (Bytes.get (w f) o)
  mapped : ∀ a ∈ C, a < userEnd ∧ m.entry r a ≠ none
  equal : ∀ a ∈ C, ∀ pte, m.entry r a = some pte → pageByte w pte a = pageByte m.mem pte a
  other : ∀ a < userEnd, a ∉ C → ∀ pte, m.entry r a = some pte →
    S (pageByte m.mem pte a) (pageByte w pte a)

/-- What `alloc_page_gpte` does to the leaf entries. -/
structure PageAdded (m m' : Mm) (r addr flags : ℕ) (page : Option ℕ) : Prop where
  owned : ∃ R D₀ A D F, m'.Owned R D₀ r A ∅ D F
  entry : ∀ p ∈ page, p < poolEnd ∧ m'.entry r addr = some (ppn2pte p (pteV ||| flags))
  elsewhere : ∀ b < userEnd, (b / pageSize = addr / pageSize → page = none) →
    m'.entry r b = m.entry r b

variable {S : ℕ → ℕ → Prop} {C : Set ℕ} {m m' : Mm} {w w' : ℕ → ℕ → ℕ} {R D₀ A D F : Set ℕ}
  {r addr flags : ℕ} {im : Image}

/-! ### Pages -/

/-- A mapped page is not a table. -/
theorem Mm.Owned.not_isTable (h : m.Owned R D₀ r A ∅ D F) (hau : addr < userEnd) {pte : ℕ}
    (he : m.entry r addr = some pte) : ¬ m.IsTable r (pte2ppn pte) := by
  rintro ⟨p, hp, hw⟩
  have hU : getGptx addr ∈ userEntries := getGptx_user hau
  exact (h.consistent.tables.table r h.root p _ hp hw).2.1
    (entry_mem h.consistent.tables h.root hU he)

theorem allocPageGpte_added (h : m.Owned R D₀ r A ∅ D F) (hau : addr < userEnd)
    (hf : flags < 1024) :
    Sat (m.allocPageGpte r addr flags) fun res => PageAdded m res.1 r addr flags res.2 := by
  have hU : getGptx addr ∈ userEntries := getGptx_user hau
  refine ((owned_allocPageGpte h hau hf).and
    (allocPageGpte_effect h.consistent h.root hU hf)).mono ?_
  rintro ⟨m', page⟩ ⟨⟨D', F', ho⟩, hp, F'', he⟩
  have hentry := he.entry r h.root
  cases page with
  | none => exact ⟨⟨R, D₀, A, D', F', ho⟩, by simp, fun b hb _ => hentry b (getGptx_user hb)⟩
  | some p =>
    refine ⟨⟨R, D₀, A, D', F', ho⟩, ?_, fun b hb hne => ?_⟩
    · rintro q ⟨⟩
      have hlt : p < poolEnd := hp p rfl
      refine ⟨hlt, ?_⟩
      rw [poolEnd_eq] at hlt
      rw [hentry addr hU, Option.map_some, written]
      simp only [and_self, if_true]
      rw [if_pos ((isValid_ppn2pte (by omega) (pteV_or hf).1).2 (pteV_or hf).2)]
    · rw [hentry b (getGptx_user hb), Option.map_some, written, if_neg]
      rintro ⟨-, hi⟩
      cases hne ((indices_user hau hb).1 hi)

/-- A step that writes tables only: pages that are mapped stay mapped, and new ones were free. -/
theorem Twin.along (h : Twin S C m w r) (ha : m.Along w m' w' r) (ho : m'.Owned R D₀ r A ∅ D F)
    (hold : ∀ b < userEnd, m.entry r b ≠ none → m'.entry r b = m.entry r b)
    (hnew : ∀ b < userEnd, m.entry r b = none → ∀ pte, m'.entry r b = some pte →
      pte2ppn pte ∈ m.pmm.freePages) : Twin S C m' w' r := by
  have hkeep : ∀ b < userEnd, ∀ pte, m'.entry r b = some pte →
      pageByte m'.mem pte b = pageByte m.mem pte b ∧ pageByte w' pte b = pageByte w pte b :=
    fun b hb pte he => by
      obtain ⟨h1, h2⟩ := ha.keep _ (ho.not_isTable hb he)
      rw [pageByte, pageByte, pageByte, pageByte, h1, h2]
      exact ⟨rfl, rfl⟩
  have hC : ∀ b ∈ C, m'.entry r b = m.entry r b := fun b hb =>
    hold b (h.mapped b hb).1 (h.mapped b hb).2
  refine ⟨ha.same, fun f hf o hoff => ?_, fun a ha => ⟨(h.mapped a ha).1, ?_⟩,
    fun a ha pte he => ?_, fun a hau ha pte he => ?_⟩
  · -- what is free is not a table
    have hnot : ¬ m'.IsTable r f := by
      rintro ⟨p, hp, hw⟩
      have hF : f ∈ F := ho.consistent.tables.free.freePages_eq.subset hf
      exact (ho.consistent.tables.table r ho.root p f hp hw).1 hF
    obtain ⟨h1, h2⟩ := ha.keep f hnot
    rw [h1, h2]
    exact h.free f (ha.free hf) o hoff
  · rw [hC a ha]
    exact (h.mapped a ha).2
  · obtain ⟨h1, h2⟩ := hkeep a (h.mapped a ha).1 pte he
    rw [h1, h2]
    exact h.equal a ha pte (hC a ha ▸ he)
  · obtain ⟨h1, h2⟩ := hkeep a hau pte he
    rw [h1, h2]
    by_cases hnone : m.entry r a = none
    · -- the page has just been mapped: its bytes are those of a free page
      exact h.free _ (hnew a hau hnone pte he) _ (Nat.mod_lt _ (by rw [pageSize_eq]; decide))
    · exact h.other a hau ha pte (hold a hau hnone ▸ he)

/-- Only the allocator has done something. -/
theorem Twin.congr (h : Twin S C m w r) (hmem : m'.mem = m.mem)
    (hfree : m'.pmm.freePages ⊆ m.pmm.freePages) (ho : m'.Owned R D₀ r A ∅ D F) :
    Twin S C m' w r := by
  have hentry : ∀ a, m'.entry r a = m.entry r a := fun a => entry_congr hmem r a
  refine h.along ((Along.refl h.same).congr hmem hfree) ho (fun b _ _ => hentry b)
    fun b _ hnone pte he => ?_
  rw [hentry, hnone] at he
  cases he

/-- **A new page** is related like the free page that it was. -/
theorem Twin.allocPageGpte (h : Twin S C m w r) (ho : m.Owned R D₀ r A ∅ D F)
    (hau : addr < userEnd) (hf : flags < 1024) (hnone : m.entry r addr = none) :
    Follows (m.allocPageGpte r addr flags) ((m.withMem w).allocPageGpte r addr flags) fun y z =>
      PageAdded m y.1 r addr flags y.2 ∧ ∃ w', z = (y.1.withMem w', y.2) ∧ Twin S C y.1 w' r := by
  refine ((allocPageGpte_along ho.consistent ho.root hau hf hnone h.same).sat
    (allocPageGpte_added ho hau hf)).mono ?_
  rintro ⟨m', page⟩ z ⟨hadd, ⟨w', rfl, ha⟩, hpage⟩
  refine ⟨hadd, w', rfl, ?_⟩
  obtain ⟨R', D₀', A', D', F', ho'⟩ := hadd.owned
  refine h.along ha ho' (fun b hb hne => ?_) fun b hb hnone' pte he => ?_
  · refine hadd.elsewhere b hb fun hba => absurd ?_ hne
    rw [entry_congr_page hau hb hba, hnone]
  · by_cases hba : b / pageSize = addr / pageSize
    · cases page with
      | none =>
        rw [hadd.elsewhere b hb fun _ => rfl, hnone'] at he
        cases he
      | some p =>
        have hpF : p ∈ F := hpage p rfl
        obtain ⟨hlt, hentry⟩ := hadd.entry p rfl
        rw [poolEnd_eq] at hlt
        rw [entry_congr_page hau hb hba, hentry] at he
        obtain rfl := Option.some.inj he
        rw [pte2ppn_ppn2pte (by omega) (pteV_or hf).1]
        exact ho.consistent.tables.free.freePages_eq.superset hpF
    · rw [hadd.elsewhere b hb fun he' => absurd he' hba, hnone'] at he
      cases he

/-! ### Writing to a page -/

/-- `memcpy` and `memset` write the same bytes in both memories. -/
theorem fillPage_follows (m : Mm) (w : ℕ → ℕ → ℕ) {page pOff size : ℕ} (fromBegin : Option ℕ)
    (hoff : pOff + size ≤ pageSize) :
    Follows (m.fillPage im page pOff fromBegin size).result
      ((m.withMem w).fillPage im page pOff fromBegin size).result fun y z =>
        y = m.withPage page (Bytes.fill (fillByte im fromBegin) size (m.mem page) pOff) ∧
        z = y.withMem (Function.update w page
          (Bytes.fill (fillByte im fromBegin) size (w page) pOff)) := by
  unfold fillPage
  refine follows_bind ((follows_self (Q := Eq) fun _ _ => rfl).sat (page2va_sat page)) ?_
  rintro va _ ⟨⟨rfl, h1, -, h3⟩, rfl⟩
  have h2 : dramBeginPa < va * pageSize := by
    rw [poolBegin_eq] at h1
    rw [dramBeginPa, pageSize_eq]
    omega
  have hstore : ∀ m : Mm, (do
      Logged.emit (LoadEvent.write pOff size)
      Logged.lift (storeBytes (fillByte im fromBegin) size m (va * pageSize + pOff))).result =
      .ok (m.withPage va (Bytes.fill (fillByte im fromBegin) size (m.mem va) pOff)) := by
    intro m
    rw [storeBytes_eq _ hoff m h2 h3]
    rfl
  have hrest : Follows (do
      Logged.emit (LoadEvent.write pOff size)
      Logged.lift (storeBytes (fillByte im fromBegin) size m (va * pageSize + pOff))).result
    (do
      Logged.emit (LoadEvent.write pOff size)
      Logged.lift (storeBytes (fillByte im fromBegin) size (m.withMem w)
        (va * pageSize + pOff))).result fun y z =>
        y = m.withPage va (Bytes.fill (fillByte im fromBegin) size (m.mem va) pOff) ∧
        z = y.withMem (Function.update w va
          (Bytes.fill (fillByte im fromBegin) size (w va) pOff)) := by
    rw [hstore, hstore]
    exact follows_ok ⟨rfl, rfl⟩
  cases fromBegin with
  | none => exact hrest
  | some a => exact follows_bind (follows_self (Q := Eq) fun _ _ => rfl) fun _ _ _ => hrest

theorem pageByte_fill (f : ℕ → ℕ) (n : ℕ) (w : ℕ → ℕ → ℕ) (page off q a : ℕ) :
    pageByte (Function.update w page (Bytes.fill f n (w page) off)) q a =
      if pte2ppn q = page ∧ off ≤ a % pageSize ∧ a % pageSize < off + n then
        f (a % pageSize - off) % 2 ^ 8 else pageByte w q a := by
  unfold pageByte
  by_cases hq : pte2ppn q = page
  · rw [hq, Function.update_self, Bytes.get_fill]
    simp only [true_and]
  · rw [Function.update_of_ne hq, if_neg fun hc => hq hc.1]

/-- Bytes that are written become equal. -/
theorem Twin.fillPage (h : Twin S C m w r) (im : Image) (ho : m.Owned R D₀ r A ∅ D F)
    (hau : addr < userEnd) {pte : ℕ} (hpte : m.entry r addr = some pte)
    (haligned : addr % pageSize = 0) {lo hi : ℕ} (h1 : addr ≤ lo) (h2 : lo ≤ hi)
    (h3 : hi ≤ addr + pageSize) (fromBegin : Option ℕ) :
    Follows (m.fillPage im (pte2ppn pte) (lo - addr) fromBegin (hi - lo)).result
      ((m.withMem w).fillPage im (pte2ppn pte) (lo - addr) fromBegin (hi - lo)).result fun m' z =>
        m'.Owned R D₀ r A ∅ D F ∧ (∀ b < userEnd, m'.entry r b = m.entry r b) ∧
        ∃ w', z = m'.withMem w' ∧ Twin S (C ∪ Set.Ico lo hi) m' w' r := by
  have hue : userEnd = 0x80000000 := rfl
  refine (fillPage_follows m w fromBegin (by omega)).mono ?_
  rintro m' z ⟨hm', rfl⟩
  have hc := ho.consistent
  have hU : getGptx addr ∈ userEntries := getGptx_user hau
  have hD := entry_mem hc.tables ho.root hU hpte
  have hmem : ∀ f, f ≠ pte2ppn pte → m'.mem f = m.mem f := by
    intro f hf
    rw [hm']
    exact Function.update_of_ne hf _ _
  have hpmm : m'.pmm = m.pmm := by rw [hm']; rfl
  have hentry : ∀ b < userEnd, m'.entry r b = m.entry r b := fun b hb =>
    hc.entry_write hD hmem ho.root (getGptx_user hb)
  have htable : ∀ f, m'.IsTable r f ↔ m.IsTable r f := fun f =>
    exists_congr fun p => and_congr_right fun hp => by rw [hc.walk_write hD hmem ho.root hp]
  refine ⟨ho.store hD hmem hpmm, hentry, _, rfl, ?_⟩
  -- the page of an address is the written one just when the address is on it
  have hpage : ∀ a < userEnd, ∀ q, m.entry r a = some q →
      (pte2ppn q = pte2ppn pte ↔ a / pageSize = addr / pageSize) := by
    intro a hau' q hq
    refine ⟨fun he => ho.page_inj hau' hau hq hpte he, fun he => ?_⟩
    rw [entry_congr_page hau hau' he, hpte] at hq
    rw [Option.some.inj hq]
  have hin : ∀ a < userEnd, ∀ q, m.entry r a = some q →
      (pte2ppn q = pte2ppn pte ∧ lo - addr ≤ a % pageSize ∧
        a % pageSize < lo - addr + (hi - lo) ↔ a ∈ Set.Ico lo hi) := by
    intro a hau' q hq
    rw [hpage a hau' q hq, Set.mem_Ico]
    rw [pageSize_eq] at haligned h3 ⊢
    omega
  have hbyte : ∀ (v : ℕ → ℕ → ℕ), ∀ a < userEnd, ∀ q, m.entry r a = some q →
      pageByte (Function.update v (pte2ppn pte) (Bytes.fill (fillByte im fromBegin) (hi - lo)
        (v (pte2ppn pte)) (lo - addr))) q a = if a ∈ Set.Ico lo hi then
          fillByte im fromBegin (a % pageSize - (lo - addr)) % 2 ^ 8 else pageByte v q a :=
    fun v a hau' q hq => by
      rw [pageByte_fill]
      exact if_congr (hin a hau' q hq) rfl rfl
  have hrow : m'.mem = Function.update m.mem (pte2ppn pte) (Bytes.fill (fillByte im fromBegin)
      (hi - lo) (m.mem (pte2ppn pte)) (lo - addr)) := by rw [hm']; rfl
  have hmapped : ∀ a ∈ C ∪ Set.Ico lo hi, a < userEnd ∧ m.entry r a ≠ none := by
    rintro a (ha | ⟨ha1, ha2⟩)
    · exact h.mapped a ha
    · rw [pageSize_eq] at haligned h3
      have hau' : a < userEnd := by omega
      have he : a / pageSize = addr / pageSize := by rw [pageSize_eq]; omega
      rw [entry_congr_page hau hau' he, hpte]
      exact ⟨hau', by simp⟩
  refine ⟨fun f hf => ?_, fun f hf o hoff => ?_, fun a ha => ?_, fun a ha q hq => ?_,
    fun a hau' ha q hq => ?_⟩
  · have hne : f ≠ pte2ppn pte := fun he => ho.not_isTable hau hpte (he ▸ (htable f).1 hf)
    rw [Function.update_of_ne hne, hmem f hne]
    exact h.same f ((htable f).1 hf)
  · rw [hpmm] at hf
    have hF : f ∈ F := hc.tables.free.freePages_eq.subset hf
    have hne : f ≠ pte2ppn pte := by
      rintro rfl
      exact (hc.tables.data _ hD).2.2 hF
    rw [Function.update_of_ne hne, hmem f hne]
    exact h.free f hf o hoff
  · obtain ⟨hau', hne⟩ := hmapped a ha
    rw [hentry a hau']
    exact ⟨hau', hne⟩
  · have hau' := (hmapped a ha).1
    rw [hentry a hau'] at hq
    rw [hrow, hbyte _ a hau' q hq, hbyte _ a hau' q hq]
    split_ifs with hnew
    · rfl
    · exact h.equal a (ha.resolve_right hnew) q hq
  · rw [hentry a hau'] at hq
    rw [hrow, hbyte _ a hau' q hq, hbyte _ a hau' q hq, if_neg fun hnew => ha (Or.inr hnew),
      if_neg fun hnew => ha (Or.inr hnew)]
    exact h.other a hau' (fun hC => ha (Or.inl hC)) q hq

/-! ### The pages of a segment -/

/-- The two runs while segments are filled: every mapped page has an address in `C`. -/
structure Filling (S : ℕ → ℕ → Prop) (C : Set ℕ) (m : Mm) (w : ℕ → ℕ → ℕ) (r : ℕ) : Prop where
  twin : Twin S C m w r
  owned : ∃ R D₀ A D F, m.Owned R D₀ r A ∅ D F
  cover : ∀ a < userEnd, m.entry r a ≠ none → ∃ b ∈ C, b / pageSize = a / pageSize

/-- The addresses from `lo` to `hi` are not mapped. -/
def Unmapped (m : Mm) (r lo hi : ℕ) : Prop := ∀ b, lo ≤ b → b < hi → m.entry r b = none

variable {fromBegin : Option ℕ} {pVa toBegin toEnd stop : ℕ}

theorem Filling.congr (h : Filling S C m w r) (hmem : m'.mem = m.mem)
    (hfree : m'.pmm.freePages ⊆ m.pmm.freePages) (ho : ∃ R D₀ A D F, m'.Owned R D₀ r A ∅ D F) :
    Filling S C m' w r := by
  obtain ⟨R, D₀, A, D, F, ho⟩ := ho
  refine ⟨h.twin.congr hmem hfree ho, ⟨R, D₀, A, D, F, ho⟩, fun a hau hne => ?_⟩
  rw [entry_congr hmem] at hne
  exact h.cover a hau hne

/-- A new page, of which some bytes are written. -/
theorem Filling.round (h : Filling S C m w r) (im : Image) (fromBegin : Option ℕ)
    (hf : flags < 1024) (haligned : pVa % pageSize = 0)
    (h1 : pVa ≤ toBegin) (h2 : toBegin < stop) (h3 : stop ≤ pVa + pageSize) (h4 : pVa < userEnd)
    {m₁ : Mm} {w₁ : ℕ → ℕ → ℕ} {page : ℕ} (hadd : PageAdded m m₁ r pVa flags (some page))
    (ht : Twin S C m₁ w₁ r) :
    Follows (m₁.fillPage im page (toBegin - pVa) fromBegin (stop - toBegin)).result
      ((m₁.withMem w₁).fillPage im page (toBegin - pVa) fromBegin (stop - toBegin)).result
      fun m' z => (∀ b < userEnd, b / pageSize ≠ pVa / pageSize → m'.entry r b = m.entry r b) ∧
        ∃ w', z = m'.withMem w' ∧ Filling S (C ∪ Set.Ico toBegin stop) m' w' r := by
  obtain ⟨R, D₀, A, D, F, ho⟩ := hadd.owned
  obtain ⟨hlt, hentry⟩ := hadd.entry page rfl
  rw [poolEnd_eq] at hlt
  have hpage : pte2ppn (ppn2pte page (pteV ||| flags)) = page :=
    pte2ppn_ppn2pte (by omega) (pteV_or hf).1
  have hfill := ht.fillPage im ho h4 hentry haligned h1 h2.le h3 fromBegin
  rw [hpage] at hfill
  refine hfill.mono ?_
  rintro m' z ⟨ho', hentry', w', rfl, ht'⟩
  have helse : ∀ b < userEnd, b / pageSize ≠ pVa / pageSize → m'.entry r b = m.entry r b :=
    fun b hb hne => by
      rw [hentry' b hb]
      exact hadd.elsewhere b hb fun he => absurd he hne
  refine ⟨helse, w', rfl, ht', ⟨R, D₀, A, D, F, ho'⟩, fun a hau hne => ?_⟩
  by_cases he : a / pageSize = pVa / pageSize
  · refine ⟨toBegin, Or.inr ⟨le_rfl, h2⟩, ?_⟩
    rw [pageSize_eq] at haligned h3 he ⊢
    omega
  · rw [helse a hau he] at hne
    obtain ⟨b, hb, hba⟩ := h.cover a hau hne
    exact ⟨b, Or.inl hb, hba⟩

/-- **A loop over pages**, at addresses that are not mapped. -/
theorem fillLoop_twin (im : Image) (hf : flags < 1024) (hend : toEnd ≤ stop)
    (hstop : stop ≤ userEnd) (k : ℕ) (h : Filling S C m w r) (fromBegin : Option ℕ) (vars : LoadVars)
    (haligned : vars.pVa % pageSize = 0) (hvars : vars.toBegin < toEnd →
      vars.pVa ≤ vars.toBegin ∧ vars.toBegin < vars.pVa + pageSize)
    (hfree : Unmapped m r vars.pVa stop) :
    Follows (fillLoop im r flags toEnd k m fromBegin vars).result
      (fillLoop im r flags toEnd k (m.withMem w) fromBegin vars).result fun y z =>
        ∃ w', z = (y.1.withMem w', y.2) ∧ (y.2.1 = 0 → Unmapped y.1 r y.2.2.pVa stop ∧
          Filling S (C ∪ Set.Ico vars.toBegin toEnd) y.1 w' r) := by
  induction k generalizing C m w fromBegin vars with
  | zero => exact follows_error
  | succ k ih =>
    have hue : userEnd = 0x80000000 := rfl
    have hps := pageSize_eq
    unfold fillLoop
    by_cases hlt : vars.toBegin < toEnd
    · obtain ⟨h1, h2⟩ := hvars hlt
      obtain ⟨h3, h4, h5⟩ := chunk_eq h1 h2 hlt (by omega)
      have hau : vars.pVa < userEnd := by omega
      simp only [hlt, if_true]
      obtain ⟨R, D₀, A, D, F, ho⟩ := h.owned
      -- a round: a new page, and the bytes of the segment on it
      refine follows_bind (h.twin.allocPageGpte ho hau hf (hfree _ le_rfl (by omega))) ?_
      rintro ⟨m₁, _ | page⟩ _ ⟨hadd, w₁, rfl, ht⟩
      · exact follows_ok ⟨w₁, rfl, fun h0 => absurd h0 (show -eNoMem ≠ 0 by decide)⟩
      simp only [h3, h4, h5]
      have hround := h.round im fromBegin hf haligned h1
        (show vars.toBegin < min (vars.pVa + pageSize) toEnd by omega) (min_le_left _ _) hau hadd ht
      refine follows_bind hround ?_
      rintro m₂ _ ⟨helse, w₂, rfl, hfill⟩
      rw [chunk_end (show vars.toBegin ≤ min (vars.pVa + pageSize) toEnd by omega) (by omega)]
      -- the pages after it are still to come
      have hnext : Unmapped m₂ r (vars.pVa + pageSize) stop := by
        intro b hb hb'
        rw [helse b (by omega) (by rw [pageSize_eq] at haligned hb ⊢; omega)]
        exact hfree b (by omega) hb'
      refine (ih hfill _ ⟨min (vars.pVa + pageSize) toEnd, vars.pVa + pageSize, some page⟩
        (by rw [Nat.add_mod_right, haligned]) (by simp only; omega) hnext).mono ?_
      rintro y z ⟨w', rfl, hres⟩
      refine ⟨w', rfl, fun h0 => ?_⟩
      obtain ⟨hun, hfill'⟩ := hres h0
      refine ⟨hun, ?_⟩
      rw [Set.union_assoc, Set.Ico_union_Ico_eq_Ico (by omega) (min_le_right _ _)] at hfill'
      exact hfill'
    · simp only [hlt, if_false]
      refine follows_ok ⟨w, rfl, fun _ => ⟨hfree, ?_⟩⟩
      rw [Set.Ico_eq_empty hlt, Set.union_empty]
      exact h

/-- The zeros after the file. -/
theorem fillTail_twin (h : Filling S C m w r) {vars : LoadVars} {toEnd' : ℕ}
    (hat : vars.AtEnd m r flags toEnd) (hlt : toEnd < vars.pVa) (hmem : toEnd ≤ toEnd')
    (hend : toEnd' ≤ userEnd) :
    Follows (fillTail im toEnd' m vars).result (fillTail im toEnd' (m.withMem w) vars).result
      fun y z => (∀ b < userEnd, y.1.entry r b = m.entry r b) ∧
        ∃ w', z = (y.1.withMem w', y.2) ∧
          Filling S (C ∪ Set.Ico toEnd (min vars.pVa toEnd')) y.1 w' r := by
  obtain ⟨R, D₀, A, D, F, ho⟩ := h.owned
  obtain ⟨pte, hpage, -, hentry⟩ := hat.page
  obtain ⟨hoff, hsize, hstop⟩ := hat.chunk hlt hmem hend
  have h1 := hat.le
  have h2 := hat.lt
  have h3 := hat.aligned
  have hue : userEnd = 0x80000000 := rfl
  have hau : vars.pVa - pageSize < userEnd := by
    rw [pageSize_eq] at h2 ⊢
    omega
  unfold fillTail
  simp only [hpage, hoff, hsize, hstop]
  rw [pageSize_eq] at h2 h3
  refine follows_bind (h.twin.fillPage im ho hau hentry ?_ ?_ ?_ ?_ none) ?_
  · rw [pageSize_eq]
    omega
  · rw [pageSize_eq]
    omega
  · omega
  · rw [pageSize_eq]
    omega
  rintro m' _ ⟨ho', hentry', w', rfl, ht⟩
  refine follows_bind (follows_self (Q := Eq) fun _ _ => rfl) fun _ _ _ => ?_
  refine follows_ok ⟨hentry', w', rfl, ht, ⟨R, D₀, A, D, F, ho'⟩, fun a ha hne => ?_⟩
  rw [hentry' a ha] at hne
  obtain ⟨b, hb, hba⟩ := h.cover a ha hne
  exact ⟨b, Or.inl hb, hba⟩

variable {ph : ProgHeader}

/-- The loop over the rest of a segment, when the file has been read. -/
theorem fillRest_twin (hf : flags < 1024) (hend : ph.pVa + ph.pMemSize ≤ stop)
    (hstop : stop ≤ userEnd) (k : ℕ) {vars : LoadVars}
    (h : Filling S (C ∪ Set.Ico ph.pVa vars.toBegin) m w r) (haligned : vars.pVa % pageSize = 0)
    (hbegin : ph.pVa ≤ vars.toBegin) (hle : vars.toBegin ≤ ph.pVa + ph.pMemSize)
    (hvars : vars.toBegin < ph.pVa + ph.pMemSize →
      vars.pVa ≤ vars.toBegin ∧ vars.toBegin < vars.pVa + pageSize)
    (hfree : Unmapped m r vars.pVa stop) :
    Follows (do
        let (m, ret, _) ← fillLoop im r flags (ph.pVa + ph.pMemSize) k m none vars
        return (m, ret)).result (do
        let (m, ret, _) ← fillLoop im r flags (ph.pVa + ph.pMemSize) k (m.withMem w) none vars
        return (m, ret)).result fun y z => ∃ w', z = (y.1.withMem w', y.2) ∧
          (y.2 = 0 → Filling S (C ∪ Set.Ico ph.pVa (ph.pVa + ph.pMemSize)) y.1 w' r) := by
  refine follows_bind (fillLoop_twin im hf hend hstop k h none vars haligned hvars hfree) ?_
  rintro ⟨m', ret, vars'⟩ _ ⟨w', rfl, hres⟩
  refine follows_ok ⟨w', rfl, fun h0 => ?_⟩
  have hfill := (hres h0).2
  rw [Set.union_assoc, Set.Ico_union_Ico_eq_Ico hbegin hle] at hfill
  exact hfill

/-- **The pages of a segment**, at addresses that are not mapped. -/
theorem fillSegment_twin (hf : flags < 1024) (huser : pagesEnd ph.pVa ph.pMemSize ≤ userEnd)
    (hsize : ph.pFileSize ≤ ph.pMemSize) (k : ℕ) (h : Filling S C m w r)
    (hfree : Unmapped m r (rounddown ph.pVa pageSize) (pagesEnd ph.pVa ph.pMemSize)) :
    Follows (fillSegment k im ph r flags m).result
      (fillSegment k im ph r flags (m.withMem w)).result fun y z =>
        ∃ w', z = (y.1.withMem w', y.2) ∧
          (y.2 = 0 → Filling S (C ∪ Set.Ico ph.pVa (ph.pVa + ph.pMemSize)) y.1 w' r) := by
  have hue : userEnd = 0x80000000 := rfl
  have hps := pageSize_eq
  have hend := le_pagesEnd ph.pVa ph.pMemSize
  obtain ⟨h1, h2, h3⟩ := rounddown_pageSize ph.pVa
  obtain ⟨R, D₀, A, D, F, ho⟩ := h.owned
  unfold fillSegment
  rw [u64_of_lt (show ph.pVa + ph.pFileSize < 2 ^ 64 by omega),
    u64_of_lt (show ph.pVa + ph.pMemSize < 2 ^ 64 by omega)]
  have hfile := (fillLoop_meets im hf (show ph.pVa + ph.pFileSize ≤ userEnd by omega) k
    (some (u64 (im.bin + ph.pOffset))) ⟨ph.pVa, rounddown ph.pVa pageSize, none⟩ ⟨D, F, ho⟩ h3
    fun _ => ⟨h1, h2⟩).result
  have hloop := fillLoop_twin im hf (show ph.pVa + ph.pFileSize ≤
    pagesEnd ph.pVa ph.pMemSize by omega) huser k h (some (u64 (im.bin + ph.pOffset)))
    ⟨ph.pVa, rounddown ph.pVa pageSize, none⟩ h3 (fun _ => ⟨h1, h2⟩) hfree
  refine follows_bind (hloop.knowing hfile) ?_
  rintro ⟨m₁, ret, vars⟩ _ ⟨hfile, w₁, rfl, hres⟩
  simp only at hfile hres ⊢
  by_cases hret : ret = 0
  swap
  · rw [if_pos hret, if_pos hret]
    exact follows_ok ⟨w₁, rfl, fun h0 => absurd h0 hret⟩
  obtain ⟨ho₁, hfile⟩ := hfile hret
  obtain ⟨hun, hfill⟩ := hres hret
  rw [if_neg (not_not.2 hret), if_neg (not_not.2 hret)]
  by_cases hsome : ph.pVa < ph.pVa + ph.pFileSize
  · -- the file part ends in the last page that has been filled
    rw [if_pos hsome] at hfile
    obtain ⟨hat, -⟩ := hfile
    have hle := hat.le
    have hlt := hat.lt
    have hbegin := hat.toBegin
    by_cases hpage : vars.toBegin < vars.pVa
    · rw [if_pos hpage, if_pos hpage]
      by_cases hdone : vars.toBegin = ph.pVa + ph.pMemSize
      · rw [if_pos hdone, if_pos hdone]
        refine follows_ok ⟨w₁, rfl, fun _ => ?_⟩
        rw [← hdone, hbegin]
        exact hfill
      · rw [if_neg hdone, if_neg hdone]
        have hmem : ph.pVa + ph.pFileSize ≤ ph.pVa + ph.pMemSize := by omega
        have hmem' : ph.pVa + ph.pMemSize ≤ userEnd := by omega
        refine follows_bind ((fillTail_twin hfill hat (by omega) hmem hmem').knowing
          (fillTail_meets im ho₁ hat (by omega) hmem hmem').result) ?_
        rintro ⟨m₂, vars₂⟩ _ ⟨⟨-, hbegin₂, hva₂, -⟩, hentry₂, w₂, rfl, hfill₂⟩
        simp only at hbegin₂ hva₂ hentry₂ hfill₂ ⊢
        rw [Set.union_assoc, Set.Ico_union_Ico_eq_Ico (by omega) (by omega), ← hbegin₂] at hfill₂
        refine fillRest_twin hf hend huser k hfill₂ (hva₂ ▸ hat.aligned) (by omega) (by omega)
          (fun _ => by omega) fun b hb hb' => ?_
        rw [hentry₂ b (by omega)]
        exact hun b (by omega) hb'
    · rw [if_neg hpage, if_neg hpage]
      refine fillRest_twin hf hend huser k ?_ hat.aligned (by omega) (by omega) (fun _ => ?_) hun
      · rw [hbegin]
        exact hfill
      · omega
  · rw [if_neg hsome] at hfile
    obtain ⟨rfl, rfl⟩ := hfile
    rw [if_neg h1.not_gt, if_neg h1.not_gt]
    refine fillRest_twin hf hend huser k ?_ h3 le_rfl (Nat.le_add_right _ _)
      (fun _ => ⟨h1, h2⟩) hun
    rwa [Set.Ico_eq_empty hsome, ← Set.Ico_self ph.pVa] at hfill

end GarretOS
