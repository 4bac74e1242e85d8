import GarretOS.Mm.AddressSpace

/-!
# What is written for an address space

The *zone* of an address space is its root table, the tables below it, the pages that only it maps,
and the free pages.  The functions that fill an address space write nothing outside of its zone:

* `Owned.writes_grown`, `Owned.writes_touched`, `Owned.writes_fill` : the single steps;
* `writes_allocPageGpte`, `writes_copyLoop`, `writes_handlePageFault` : the functions.

`Apart m R D₀ F₀` : the page tables with the roots `R` map each of the pages `D₀` once, no other
pages, and have no table among the frames `F₀`.  Writing the frames `F₀` changes nothing for them
(`Apart.frame`, `Apart.entry_eq`, `Apart.mem_eq`).
-/

namespace GarretOS

open Radix

namespace Mm

/-- The frames of the address space with the root table `r` and the frames `A`, of which `D₀` are
mapped by others. -/
def zone (r : ℕ) (A D₀ : Set ℕ) : Set ℕ := insert r (A \ D₀)

variable {m m' m₁ : Mm} {R D₀ A X D F D' F' N : Set ℕ} {r r' addr page v : ℕ}

theorem freePage_mem (h : m.freePage page = .ok m') : m'.mem = m.mem := by
  obtain ⟨a, -, h⟩ := bind_eq_ok.1 h
  obtain rfl := Except.ok.inj h
  rfl

namespace Owned

theorem free_zone (h : Owned m R D₀ r A X D F) {f : ℕ} (hf : f ∈ F) : f ∈ zone r A D₀ :=
  Or.inr ⟨h.total ▸ Or.inl (Or.inl hf),
    fun h0 => (h.consistent.tables.data f (h.base h0)).2.2 hf⟩

theorem table_zone (h : Owned m R D₀ r A X D F) {p : List ℕ} {f : ℕ}
    (hp : TablePath userEntries p) (hw : walk m.child r p = some f) : f ∈ zone r A D₀ := by
  by_cases hne : p = []
  · subst hne
    exact Or.inl (Option.some.inj hw).symm
  · exact Or.inr ⟨h.total ▸ Or.inl (Or.inr ⟨p, hne, hp, hw⟩),
      fun h0 => (h.consistent.tables.table r h.root p f hp hw).2.1 (h.base h0)⟩

theorem data_zone (h : Owned m R D₀ r A X D F) {p : ℕ} (hp : p ∈ D) (h0 : p ∉ D₀) :
    p ∈ zone r A D₀ :=
  Or.inr ⟨h.total ▸ Or.inr hp, h0⟩

/-! ### The single steps -/

theorem writes_grown (h : Owned m R D₀ r A X D F) (hg : Grown m m' R userEntries D F r N) :
    WritesOnly m m' (zone r A D₀) := fun f hf =>
  hg.mem f (fun hF => hf (h.free_zone hF)) fun _ hp _ hw => hf (h.table_zone hp hw)

/-- A leaf entry is written. -/
theorem writes_touched (h : Owned m R D₀ r A X D F) (hau : addr < userEnd)
    (ht : Touched m m' R userEntries D F r addr (some v) D' F') :
    WritesOnly m m' (zone r A D₀) := by
  obtain ⟨m₁, N, hg, s, hs, hrw, -, -⟩ := ht
  obtain ⟨p, -, hp, hw⟩ := slot_mem_tablesOf (getGptx_user hau) hs
  have hzone := (h.grown hg).table_zone hp hw
  refine (h.writes_grown hg).trans fun f hf => ?_
  rw [hrw.mem]
  exact WritesOnly.store m₁ s v f fun heq => hf (heq ▸ hzone)

/-- A page that was free is filled. -/
theorem writes_fill (h : Owned m R D₀ r A X D F) (ha : Allocated m m₁ F page)
    (hmem : ∀ f, f ≠ page → m'.mem f = m₁.mem f) : WritesOnly m m' (zone r A D₀) := fun f hf => by
  rw [hmem f fun heq => hf (heq ▸ h.free_zone ha.mem_free), ha.mem]

/-- A data page may be written. -/
theorem data_write (h : Owned m R D₀ r A X D F) (hp : page ∈ D)
    (hmem : ∀ f, f ≠ page → m'.mem f = m.mem f) (hpmm : m'.pmm = m.pmm) :
    Owned m' R D₀ r A X D F := by
  have hc := h.consistent
  have hmaps : ∀ p, m'.Maps r p ↔ m.Maps r p := by
    intro p
    constructor
    · rintro ⟨a, hau, pte, he, hpp⟩
      exact ⟨a, hau, pte, hc.entry_write hp hmem h.root (getGptx_user hau) ▸ he, hpp⟩
    · rintro ⟨a, hau, pte, he, hpp⟩
      exact ⟨a, hau, pte, (hc.entry_write hp hmem h.root (getGptx_user hau)).symm ▸ he, hpp⟩
  have htables : m'.tablesOf r = m.tablesOf r :=
    tablesOf_congr fun _ hq => hc.walk_write hp hmem h.root hq
  have href : ∀ p, m'.ref p = m.ref p := fun p => by simp only [ref, hpmm]
  refine ⟨hc.write hp hmem hpmm, h.root, htables ▸ h.total, h.base, fun p h0 => ?_,
    fun p hpD h0 hX => ?_, fun p hX => ?_⟩
  · rw [hmaps]
    exact h.others p h0
  · rw [href, hmaps]
    exact h.single p hpD h0 hX
  · rw [href]
    exact h.pending p hX

/-! ### The functions -/

/-- **`alloc_page_gpte`** -/
theorem writes_allocPageGpte (h : Owned m R D₀ r A ∅ D F) (hau : addr < userEnd) {flags : ℕ}
    (hf : flags < 1024) :
    Sat (m.allocPageGpte r addr flags) fun res => WritesOnly m res.1 (zone r A D₀) := by
  refine (allocPage_sat h.consistent.tables.free).bind ?_
  rintro ⟨m₁, _ | page⟩ ha
  · obtain rfl : m₁ = m := ha
    exact .of_eq rfl
  have ha : Allocated m m₁ F page := ha
  have h₁ : Owned m₁ R D₀ r A {page} (insert page D) (F \ {page}) := h.fill ha (fun _ _ => rfl) rfl
  have hw₁ : WritesOnly m m₁ (zone r A D₀) := .of_eq ha.mem
  refine (addPage_touched h₁.consistent h.root (getGptx_user hau)
    (Set.mem_insert page D) hf).bind ?_
  rintro ⟨m₂, ret⟩ ⟨w, D', F', ht, ⟨rfl, hret⟩ | ⟨rfl, hret⟩⟩
  · have hret : ret ≠ 0 := by
      simp only at hret
      rw [hret]
      decide
    obtain ⟨m', N, hg, rfl, rfl, rfl⟩ := ht
    obtain ⟨m₃, h3, -⟩ := (h₁.grown hg).release
    simp only [ne_eq, hret, not_false_eq_true, if_true] at h3 ⊢
    rw [h3, ok_bind]
    exact (hw₁.trans (h₁.writes_grown hg)).trans (.of_eq (freePage_mem h3))
  · have hret : ret = 0 := hret
    simp only [ne_eq, hret, not_true_eq_false, if_false]
    exact hw₁.trans (h₁.writes_touched hau ht)

/-- One round of `copy_range`. -/
theorem writes_copyStep (h : Owned m R D₀ r A ∅ D F) {fr start : ℕ} (hfr : fr ∈ R)
    (hau : start < userEnd) :
    Sat (copyStep m fr r start) fun res => WritesOnly m res.1 (zone r A D₀) := by
  have hc := h.consistent
  have hU := getGptx_user hau
  unfold copyStep
  rw [getPte_false hc.tables hfr hU, ok_bind]
  cases m.slot fr start with
  | none => exact .of_eq rfl
  | some p =>
    simp only
    split_ifs
    · refine (getPte_sat hc.tables h.root hU true).bind ?_
      rintro ⟨m₁, _ | q⟩ ⟨N, hg, hslot⟩
      · exact h.writes_grown hg
      have h₁ := h.grown hg
      refine (pte2page_sat (m₁.load p)).bind fun src _ => ?_
      refine (allocPage_sat h₁.consistent.tables.free).bind ?_
      rintro ⟨m₂, _ | page⟩ ha
      · simp [Sat]
      have ha : Allocated m₁ m₂ (F \ N) page := ha
      refine (page2va_sat page).bind ?_
      rintro dst ⟨hdst, -⟩
      refine (page2va_sat src).bind ?_
      rintro va -
      rw [hdst]
      have hmem : ∀ f, f ≠ page → (m₂.memcpyPage page va).mem f = m₂.mem f := by
        intro f hf
        simp only [memcpyPage, Function.update_of_ne hf]
      have h₃ := h₁.fill ha hmem rfl
      have hs : (m₂.memcpyPage page va).slot r start = some q := by
        rw [← hslot q rfl, slot, slot, (h₁.consistent.alloc ha).walk_write
          (Set.mem_insert page D) hmem h.root (tablePath_addr hU), child_congr ha.mem]
      refine (addPage_of_slot h₃.consistent h.root hau hs (Set.mem_insert page D)
        (user_flags (m₁.load p))).bind ?_
      rintro ⟨m₄, ret⟩ ⟨-, D', F', ht⟩
      exact ((h.writes_grown hg).trans (h₁.writes_fill ha hmem)).trans (h₃.writes_touched hau ht)
    · exact .of_eq rfl

/-- **The loop of `copy_range`** -/
theorem writes_copyLoop {fr stop : ℕ} (hfr : fr ∈ R) (hstop : stop ≤ userEnd) (k : ℕ) :
    ∀ {m : Mm} {D F : Set ℕ} {start : ℕ} {res : Mm × ℤ}, Owned m R D₀ r A ∅ D F →
      start < userEnd → copyLoop fr r stop k m start = .ok res →
      WritesOnly m res.1 (zone r A D₀) := by
  induction k with
  | zero =>
    intro m D F start res _ _ hres
    cases hres
  | succ k ih =>
    intro m D F start res h hau hres
    obtain ⟨⟨m₁, ret, next⟩, hstep, hres⟩ := bind_eq_ok.1 hres
    obtain ⟨D', F', h₁⟩ := (owned_copyStep h hfr hau).of_ok hstep
    have hw := (h.writes_copyStep hfr hau).of_ok hstep
    simp only at hres
    split_ifs at hres with hret hcont
    · obtain rfl := Except.ok.inj hres
      exact hw
    · exact hw.trans (ih h₁ (by omega) hres)
    · obtain rfl := Except.ok.inj hres
      exact hw

/-- **`swap_in`** -/
theorem writes_swapIn (h : Owned m R D₀ r A ∅ D F) (hau : addr < userEnd) (ide : ℕ → ℕ → ℕ) :
    Sat (swapIn m r addr ide) fun res => WritesOnly m res.1 (zone r A D₀) := by
  refine (allocPage_sat h.consistent.tables.free).bind ?_
  rintro ⟨m₁, _ | page⟩ ha
  · simp [Sat]
  have ha : Allocated m m₁ F page := ha
  have h₁ : Owned m₁ R D₀ r A {page} (insert page D) (F \ {page}) := h.fill ha (fun _ _ => rfl) rfl
  simp only
  rw [getPte_false h₁.consistent.tables h.root (getGptx_user hau), ok_bind]
  cases m₁.slot r addr with
  | none => simp [Sat]
  | some p =>
    refine sat_assert.bind fun _ _ => ?_
    refine (page2va_sat page).bind ?_
    rintro va ⟨rfl, -⟩
    refine Sat.bind (P := fun _ => True) (sat_assert.bind fun _ _ => trivial) fun offset _ => ?_
    exact h.writes_fill ha fun f hf => Function.update_of_ne hf _ _

end Owned

end Mm

/-- **`handle_page_fault`** -/
theorem writes_handlePageFault {m : Mm} {R D₀ A D F : Set ℕ} {r : ℕ} {vmm : VmManager}
    (h : m.Owned R D₀ r A ∅ D F) (hareas : AreasOk vmm) (hgpt : vmm.pGpt = some r) (addr : ℕ)
    (ide : ℕ → ℕ → ℕ) :
    Sat (handlePageFault m vmm addr ide) fun res => m.WritesOnly res.1 (Mm.zone r A D₀) := by
  obtain ⟨⟨c, hc⟩, -, hfound⟩ := findVma_spec hareas addr
  unfold handlePageFault
  cases hv : findVma vmm addr with
  | mk vmm' o =>
    rw [hv] at hc hfound
    simp only at hc hfound ⊢
    cases o with
    | none => exact .of_eq rfl
    | some vma =>
      obtain ⟨hmem, hholds⟩ := hfound vma rfl
      obtain ⟨-, -, -, -, hend⟩ := hareas.area vma hmem
      have hau : rounddown addr pageSize < userEnd := by
        simp only [Vma.holds, decide_eq_true_eq] at hholds
        have : rounddown addr pageSize ≤ addr := Nat.div_mul_le_self addr pageSize
        omega
      have hgpt' : vmm'.gpt = .ok r := by
        rw [hc, VmManager.gpt, hgpt]
      simp only
      split_ifs
      · exact .of_eq rfl
      · rw [hgpt', ok_bind]
        refine (Mm.getPte_sat h.consistent.tables h.root (getGptx_user hau) true).bind ?_
        rintro ⟨m₁, _ | p⟩ ⟨N, hg, hslot⟩
        · simp [Sat]
        have h₁ := h.grown hg
        have hw₁ := h.writes_grown hg
        have hs : m₁.slot r (rounddown addr pageSize) = some p := hslot p rfl
        simp only
        split_ifs
        · refine (h₁.writes_allocPageGpte hau (faultFlags_lt vma)).bind ?_
          rintro ⟨m₂, _ | page⟩ hw₂
          · exact hw₁.trans hw₂
          · exact hw₁.trans hw₂
        · refine ((Mm.owned_swapIn h₁ hau ide).and (h₁.writes_swapIn hau ide)).bind ?_
          rintro ⟨m₂, page⟩ ⟨⟨hs₂, D', F', h₂⟩, hw₂⟩
          refine (Mm.addPage_of_slot h₂.consistent h.root hau (hs₂.trans hs)
            (h₂.pending page rfl).1 (faultFlags_lt vma)).bind ?_
          rintro ⟨m₃, ret⟩ ⟨-, D'', F'', ht⟩
          exact (hw₁.trans hw₂).trans (h₂.writes_touched hau ht)
        · exact hw₁


/-! ### The page tables of others -/

namespace Mm

variable {m m' : Mm} {R D₀ F₀ A D F : Set ℕ} {r a p : ℕ}

/-- An entry is one of the mappings of its page. -/
theorem exists_mapping {U : Set ℕ} (hr : r ∈ R) (hU : getGptx a ∈ U) {v : ℕ}
    (hv : m.entry r a = some v) : ∃ f, walk m.child r [getGptx a, getMptx a] = some f ∧
      (f, getPtx a) ∈ m.mappings R U (pte2ppn v) := by
  obtain ⟨s, hs, he⟩ := Option.bind_eq_some_iff.1 hv
  obtain ⟨f, hf, rfl⟩ := Option.map_eq_some_iff.1 hs
  obtain ⟨hl, hk⟩ := slot_leaf hr hU hs
  split_ifs at he with hval
  obtain rfl := Option.some.inj he
  exact ⟨f, hf, hl, hk, child_of_valid hval⟩

/-- The page tables with the roots `R` use the pages `D₀` and none of the frames `F₀`. -/
structure Apart (m : Mm) (R D₀ F₀ : Set ℕ) : Prop where
  separated : Separated m.child R (TablePath userEntries)
  table : ∀ r ∈ R, ∀ p f, TablePath userEntries p → walk m.child r p = some f → f ∉ F₀ ∧ f ∉ D₀ ∧
    (p ≠ [] → poolBegin ≤ f ∧ f * pageSize < dramEndPa)
  data : ∀ p ∈ D₀, poolBegin ≤ p ∧ p < poolEnd ∧ p ∉ F₀
  mapped : ∀ p s, s ∈ m.mappings R userEntries p → p ∈ D₀
  single : ∀ p ∈ D₀, (m.mappings R userEntries p).ncard = 1

namespace Apart

theorem walk_eq (h : Apart m R D₀ F₀) (hw : WritesOnly m m' F₀) (hr : r ∈ R) {p : List ℕ}
    (hp : TablePath userEntries p) : walk m'.child r p = walk m.child r p := by
  refine walk_congr fun q i f hq hf => ?_
  obtain ⟨t, rfl⟩ := hq
  rw [List.append_assoc] at hp
  simp only [child, hw f (h.table r hr q f hp.prefix hf).1]

theorem tablesOf_eq (h : Apart m R D₀ F₀) (hw : WritesOnly m m' F₀) (hr : r ∈ R) :
    m'.tablesOf r = m.tablesOf r :=
  tablesOf_congr fun _ hp => h.walk_eq hw hr hp

theorem mappings_eq (h : Apart m R D₀ F₀) (hw : WritesOnly m m' F₀) (p : ℕ) :
    m'.mappings R userEntries p = m.mappings R userEntries p := by
  have hleaf : ∀ f, m'.IsLeaf R userEntries f ↔ m.IsLeaf R userEntries f := by
    intro f
    constructor
    · rintro ⟨r, hr, i, j, hp, hf⟩
      exact ⟨r, hr, i, j, hp, h.walk_eq hw hr hp ▸ hf⟩
    · rintro ⟨r, hr, i, j, hp, hf⟩
      exact ⟨r, hr, i, j, hp, (h.walk_eq hw hr hp).symm ▸ hf⟩
  ext ⟨f, k⟩
  simp only [mappings, Set.mem_ofPred_eq, hleaf]
  refine and_congr_right fun hl => ?_
  obtain ⟨r, hr, i, j, hp, hf⟩ := hl
  simp only [child, hw f (h.table r hr _ f hp hf).1]

/-- **Writing other frames** changes nothing. -/
theorem frame (h : Apart m R D₀ F₀) (hw : WritesOnly m m' F₀) : Apart m' R D₀ F₀ where
  separated := h.separated.of_walk fun r hr p f hp hf => by rwa [h.walk_eq hw hr hp] at hf
  table r hr p f hp hf := h.table r hr p f hp (h.walk_eq hw hr hp ▸ hf)
  data := h.data
  mapped p s hs := h.mapped p s (h.mappings_eq hw p ▸ hs)
  single p hp := (h.mappings_eq hw p).symm ▸ h.single p hp

theorem entry_eq (h : Apart m R D₀ F₀) (hw : WritesOnly m m' F₀) (hr : r ∈ R) (ha : a < userEnd) :
    m'.entry r a = m.entry r a := by
  have hp := tablePath_addr (U := userEntries) (getGptx_user ha)
  have hslot : m'.slot r a = m.slot r a := by rw [slot, slot, h.walk_eq hw hr hp]
  rw [entry, entry, hslot]
  cases hs : m.slot r a with
  | none => rfl
  | some s =>
    obtain ⟨f, hf, rfl⟩ := Option.map_eq_some_iff.1 hs
    rw [Option.bind_some, Option.bind_some, load, load, hw f (h.table r hr _ f hp hf).1]

/-- The page of an entry is one of the pages `D₀`. -/
theorem entry_mem (h : Apart m R D₀ F₀) (hr : r ∈ R) (ha : a < userEnd) {pte : ℕ}
    (he : m.entry r a = some pte) : pte2ppn pte ∈ D₀ := by
  obtain ⟨f, -, hs⟩ := exists_mapping (U := userEntries) hr (getGptx_user ha) he
  exact h.mapped _ _ hs

/-- The content of the pages stays. -/
theorem mem_eq (h : Apart m R D₀ F₀) (hw : WritesOnly m m' F₀) (hp : p ∈ D₀) :
    m'.mem p = m.mem p := hw p (h.data p hp).2.2

end Apart

/-- An address with given indices. -/
theorem exists_addr {i j k : ℕ} (hp : TablePath userEntries [i, j]) (hk : k < 512) :
    ∃ a < userEnd, getGptx a = i ∧ getMptx a = j ∧ getPtx a = k := by
  have hi : i < 2 := hp.2.2 i rfl
  have hj : j < 512 := hp.2.1 j (by simp)
  refine ⟨i * 1073741824 + j * 2097152 + k * 4096, by rw [userEnd]; omega, ?_, ?_, ?_⟩
  · rw [getGptx_eq]
    omega
  · rw [getMptx_eq]
    omega
  · rw [getPtx_eq]
    omega

/-- A page is mapped where a leaf table of the page table names it. -/
theorem maps_of_leaf {i j k f : ℕ} (hp : TablePath userEntries [i, j])
    (hf : walk m.child r [i, j] = some f) (hk : k < 512) (hc : m.child f k = some p) :
    m.Maps r p := by
  obtain ⟨a, ha, rfl, rfl, rfl⟩ := exists_addr hp hk
  have hs : m.slot r a = some (f, getPtx a) := by rw [slot, hf, Option.map_some]
  refine ⟨a, ha, m.load (f, getPtx a), (entry_eq_some_iff hs).2 ⟨?_, rfl⟩, ?_⟩
  · unfold child at hc
    split_ifs at hc with hv
    exact hv
  · unfold child at hc
    split_ifs at hc with hv
    exact Option.some.inj hc

/-- A page that a page table does not map is mapped by the others only. -/
theorem mappings_insert (hp : ¬ m.Maps r p) :
    m.mappings (insert r R) userEntries p = m.mappings R userEntries p := by
  ext ⟨f, k⟩
  constructor
  · rintro ⟨⟨r', rfl | hr', i, j, hpath, hf⟩, hk, hc⟩
    · exact absurd (maps_of_leaf hpath hf hk hc) hp
    · exact ⟨⟨r', hr', i, j, hpath, hf⟩, hk, hc⟩
  · rintro ⟨⟨r', hr', i, j, hpath, hf⟩, hk, hc⟩
    exact ⟨⟨r', Or.inr hr', i, j, hpath, hf⟩, hk, hc⟩

theorem eq_of_single {U : Set ℕ} (h : Consistent m R U D F) (hp : p ∈ D) (href : m.ref p = 1)
    {s t : PtePtr} (hs : s ∈ m.mappings R U p) (ht : t ∈ m.mappings R U p) : s = t := by
  rw [h.refs p hp] at href
  obtain ⟨x, hx⟩ := Set.ncard_eq_one.1 href
  rw [hx] at hs ht
  exact hs.trans ht.symm

/-- A page with one reference is mapped by one page table, at one page of addresses. -/
theorem maps_unique (h : Consistent m R userEntries D F) {r' b v w : ℕ} (hr : r ∈ R) (hr' : r' ∈ R)
    (ha : a < userEnd) (hb : b < userEnd) (hv : m.entry r a = some v) (hw : m.entry r' b = some w)
    (hvw : pte2ppn v = pte2ppn w) (href : m.ref (pte2ppn v) = 1) :
    r = r' ∧ a / pageSize = b / pageSize := by
  obtain ⟨f, hf, hs⟩ := exists_mapping (U := userEntries) hr (getGptx_user ha) hv
  obtain ⟨g, hg, ht⟩ := exists_mapping (U := userEntries) hr' (getGptx_user hb) hw
  have hD : pte2ppn v ∈ D := h.tables.mapped _ _ hs
  obtain ⟨rfl, hk⟩ := Prod.mk.inj (eq_of_single h hD href hs (hvw ▸ ht))
  obtain ⟨rfl, hpath⟩ := h.tables.separated.unique r hr r' hr' _ _ f
    (tablePath_addr (getGptx_user ha)) (tablePath_addr (getGptx_user hb)) hf hg
  simp only [List.cons.injEq, and_true] at hpath
  refine ⟨rfl, (indices_user hb ha).1 ?_⟩
  rw [indices, indices, hpath.1, hpath.2, hk]

/-! ### One page table and the others -/

/-- The pages that a page table does not map. -/
def others (m : Mm) (D : Set ℕ) (r : ℕ) : Set ℕ := {p | p ∈ D ∧ ¬ m.Maps r p}

namespace Consistent

/-- The others map their pages once. -/
theorem single_others (h : Consistent m (insert r R) userEntries D F)
    (hsingle : ∀ p ∈ D, m.ref p = 1) (hp : p ∈ m.others D r) :
    (m.mappings R userEntries p).ncard = 1 := by
  rw [← mappings_insert hp.2, ← h.refs p hp.1, hsingle p hp.1]

variable (h : Consistent m (insert r R) userEntries D F) (hr : r ∉ R)

include h hr

/-- The tables of the others are not tables of this one. -/
theorem notMem_tablesOf {r' f : ℕ} {p : List ℕ} (hr' : r' ∈ R) (hp : TablePath userEntries p)
    (hw : walk m.child r' p = some f) : f ∉ m.tablesOf r := by
  rintro ⟨q, -, hq, hwq⟩
  obtain ⟨rfl, -⟩ := h.tables.separated.unique r' (Or.inr hr') r (Or.inl rfl) p q f hp hq hw hwq
  exact hr hr'

variable (hsingle : ∀ p ∈ D, m.ref p = 1)

include hsingle

/-- A page that another one maps is not mapped by this one. -/
theorem mapped_others {s : PtePtr} (hs : s ∈ m.mappings R userEntries p) : p ∈ m.others D r := by
  obtain ⟨⟨r', hr', i, j, hp, hf⟩, hk, hc⟩ := hs
  have hmem : s ∈ m.mappings (insert r R) userEntries p :=
    ⟨⟨r', Or.inr hr', i, j, hp, hf⟩, hk, hc⟩
  have hD : p ∈ D := h.tables.mapped p s hmem
  refine ⟨hD, ?_⟩
  rintro ⟨a, ha, pte, he, rfl⟩
  obtain ⟨g, hg, hs'⟩ := exists_mapping (U := userEntries) (Set.mem_insert r R)
    (getGptx_user ha) he
  obtain rfl := eq_of_single h hD (hsingle _ hD) hmem hs'
  exact h.notMem_tablesOf hr hr' hp hf ⟨_, by simp, tablePath_addr (getGptx_user ha), hg⟩

end Consistent

end Mm

end GarretOS
