import GarretOS.Mm.Consistent
import GarretOS.System.Basic

/-!
# Page tables as maps

Runs of `alloc_page`, `get_pte`, `add_page`, `del_page` and `alloc_page_gpte` over any number of
page tables whose user entries are empty in the beginning.

* `page_table_refines_map` : each page table is a finite map from user pages to pages and
  permissions; looking up an address evaluates the map, `add_page` and `del_page` change it at
  one point, and nothing else changes it;
* `ref_counts_mappings` : the reference counter of a page counts the leaf entries that map it,
  and the page is freed by the step that takes away the last of them.
-/

namespace GarretOS

open Radix

namespace Mm

/-- The map from user pages to pages and permissions that a page table stands for. -/
def pageMap (m : Mm) (r vpn : ℕ) : Option (ℕ × ℕ) :=
  if vpn < userEnd / pageSize then
    (m.entry r (vpn * pageSize)).map fun pte => (pte2ppn pte, pteFlags pte)
  else none

variable {m m' : Mm} {R U D F : Set ℕ} {r addr : ℕ}

/-- Kernel entries of a root table name no page of the pool, and are not followed. -/
theorem lookup_kernel (hroot : m'.mem r (getGptx addr) = m.mem r (getGptx addr))
    (hk : isValid (m.load (r, getGptx addr)) →
      ¬ (poolBegin ≤ pte2ppn (m.load (r, getGptx addr)) ∧
        pte2ppn (m.load (r, getGptx addr)) < poolEnd)) :
    m'.lookup r addr = m.lookup r addr := by
  have hload : m'.load (r, getGptx addr) = m.load (r, getGptx addr) := hroot
  unfold lookup getPage getPte ensureTable
  rw [hload]
  by_cases hv : isValid (m.load (r, getGptx addr))
  · have hva : pte2va (m.load (r, getGptx addr)) = .error (.assertion
        "ppn >= g_num_qemu_pages + g_num_kernel_pages && ppn < g_num_qemu_pages + g_num_kernel_pages + g_num_free_pages") := by
      rw [pte2va, pte2page, assert_of hv, ok_bind]
      simp only [pure, Except.pure, ok_bind, page2va, page2ppn, assert, if_neg (hk hv), error_bind]
    simp only [hv, if_true, ok_bind, hload, hva, error_bind, not_true_eq_false, if_false]
  · simp only [hv]
    rfl

end Mm

/-! ### Runs -/

/-- The memory, and the pages handed out by `alloc_page` and not freed since. -/
structure PtState where
  /-- The allocator and the content of memory. -/
  mm : Mm
  /-- The pages in use as data pages. -/
  held : Set ℕ

/-- The operations on page tables. -/
inductive PtOp where
  /-- `alloc_page()` -/
  | allocPage
  /-- `get_pte(p_gpt, addr, 1)` -/
  | getPte (r addr : ℕ)
  /-- `add_page(p_gpt, page, addr, flags)` returns `ret`. -/
  | addPage (r page addr flags : ℕ) (ret : ℤ)
  /-- `del_page(p_gpt, addr)` -/
  | delPage (r addr : ℕ)
  /-- `alloc_page_gpte(p_gpt, addr, flags)` returns `page`. -/
  | allocPageGpte (r addr flags : ℕ) (page : Option ℕ)

/-- The pages in the free list. -/
def BestFit.freePages (s : BestFit) : Set ℕ := {p | ∃ F, FreeSet s F ∧ p ∈ F}

/-- The page tables with the roots `R`.  In the beginning their user entries are empty, the roots
are not free, and free pages have no references, as `best_fit_init_memmap` and
`best_fit_free_pages` leave them. -/
def pageTables (R : Set ℕ) : System PtState PtOp where
  init s := s.held = ∅ ∧ (∃ F, FreeSet s.mm.pmm F ∧ (∀ p ∈ F, s.mm.ref p = 0) ∧ ∀ r ∈ R, r ∉ F) ∧
    ∀ r ∈ R, ∀ i ∈ userEntries, ¬ isValid (s.mm.mem r i)
  step s l s' := match l with
    | .allocPage => ∃ page, s.mm.allocPage = .ok (s'.mm, page) ∧
        s'.held = s.held ∪ {p | page = some p}
    | .getPte r addr => r ∈ R ∧ UserAddr addr ∧
        (∃ p, s.mm.getPte r addr true = .ok (s'.mm, p)) ∧ s'.held = s.held
    | .addPage r page addr flags ret => r ∈ R ∧ UserAddr addr ∧ page ∈ s.held ∧ flags < 1024 ∧
        s.mm.addPage r page addr flags = .ok (s'.mm, ret) ∧
        s'.held = s.held \ s'.mm.pmm.freePages
    | .delPage r addr => r ∈ R ∧ UserAddr addr ∧ s.mm.delPage r addr = .ok s'.mm ∧
        s'.held = s.held \ s'.mm.pmm.freePages
    | .allocPageGpte r addr flags page => r ∈ R ∧ UserAddr addr ∧ flags < 1024 ∧
        s.mm.allocPageGpte r addr flags = .ok (s'.mm, page) ∧
        s'.held = (s.held ∪ {p | page = some p}) \ s'.mm.pmm.freePages

namespace PtOp

/-- The leaf entry that the operation writes: the root, the address, and the new value. -/
def change : PtOp → Option (ℕ × ℕ × ℕ)
  | addPage r page addr flags ret =>
    if ret = 0 then some (r, addr, ppn2pte page (pteV ||| flags)) else none
  | delPage r addr => some (r, addr, 0)
  | allocPageGpte r addr flags page =>
    page.map fun page => (r, addr, ppn2pte page (pteV ||| flags))
  | _ => none

end PtOp

theorem FreeSet.freePages_eq {s : BestFit} {F : Set ℕ} (h : FreeSet s F) : s.freePages = F := by
  ext p
  constructor
  · rintro ⟨G, hG, hp⟩
    rwa [h.unique hG]
  · exact fun hp => ⟨F, h, hp⟩

variable {R : Set ℕ} {s s' : PtState} {l : PtOp}

/-- Empty page tables are in order. -/
theorem pageTables_init (h : (pageTables R).init s) :
    ∃ F, s.mm.Consistent R userEntries s.held F := by
  obtain ⟨hheld, ⟨F, hfree, hzero, hroot⟩, hempty⟩ := h
  have hwalk : ∀ r ∈ R, ∀ p f, Mm.TablePath userEntries p → walk s.mm.child r p = some f →
      p = [] ∧ f = r := by
    rintro r hr p f hp hw
    cases p with
    | nil => exact ⟨rfl, (Option.some.inj hw).symm⟩
    | cons i p =>
      rw [walk, Mm.child_of_invalid (hempty r hr i (hp.2.2 i rfl))] at hw
      cases hw
  refine ⟨F, ⟨hfree, ⟨fun p q hp => hp.prefix, fun r hr r' hr' p p' f hp hp' h1 h2 => ?_⟩,
    fun r hr p f hp hw => ?_, fun p hp => ?_, fun p t ht => ?_⟩, fun p hp => ?_, hzero⟩
  · obtain ⟨rfl, rfl⟩ := hwalk r hr p f hp h1
    obtain ⟨rfl, rfl⟩ := hwalk r' hr' p' f hp' h2
    exact ⟨rfl, rfl⟩
  · obtain ⟨rfl, rfl⟩ := hwalk r hr p f hp hw
    rw [hheld]
    exact ⟨hroot f hr, Set.notMem_empty f, fun hne => absurd rfl hne⟩
  · rw [hheld] at hp
    exact absurd hp (Set.notMem_empty p)
  · obtain ⟨⟨r, hr, i, j, hp, hw⟩, -, -⟩ := ht
    exact absurd (hwalk r hr _ _ hp hw).1 (by simp)
  · rw [hheld] at hp
    exact absurd hp (Set.notMem_empty p)

/-- What a step does. -/
theorem pageTables_step {F : Set ℕ} (h : s.mm.Consistent R userEntries s.held F)
    (hl : (pageTables R).step s l s') :
    ∃ F', s.mm.Effect s'.mm R userEntries F l.change s'.held F' := by
  cases l with
  | allocPage =>
    obtain ⟨page, h1, h2⟩ := hl
    rw [h2]
    exact (Mm.allocPage_effect h).of_ok h1
  | getPte r addr =>
    obtain ⟨hr, ha, ⟨p, h1⟩, h2⟩ := hl
    rw [h2]
    exact (Mm.getPte_effect h hr ha.index true).of_ok h1
  | addPage r page addr flags ret =>
    obtain ⟨hr, ha, hp, hf, h1, h2⟩ := hl
    obtain ⟨F', -, -, -, he⟩ := (Mm.addPage_effect h hr ha.index hp hf).of_ok h1
    rw [h2, he.consistent.tables.free.freePages_eq]
    exact ⟨F', he⟩
  | delPage r addr =>
    obtain ⟨hr, ha, h1, h2⟩ := hl
    obtain ⟨m', F', h3, he⟩ := Mm.delPage_effect h hr ha.index
    obtain rfl := Except.ok.inj (h1.symm.trans h3)
    rw [h2, he.consistent.tables.free.freePages_eq]
    exact ⟨F', he⟩
  | allocPageGpte r addr flags page =>
    obtain ⟨hr, ha, hf, h1, h2⟩ := hl
    obtain ⟨-, F', he⟩ := (Mm.allocPageGpte_effect h hr ha.index hf).of_ok h1
    rw [h2, he.consistent.tables.free.freePages_eq]
    exact ⟨F', he⟩

/-- The effect of the operation on the maps that the page tables stand for. -/
def PtOp.onMaps (M : ℕ → ℕ → Option (ℕ × ℕ)) : PtOp → ℕ → ℕ → Option (ℕ × ℕ)
  | addPage r page addr flags ret =>
    if ret = 0 then
      Function.update M r (Function.update (M r) (addr / pageSize) (some (page, pteV ||| flags)))
    else M
  | delPage r addr => Function.update M r (Function.update (M r) (addr / pageSize) none)
  | allocPageGpte r addr flags (some page) =>
    Function.update M r (Function.update (M r) (addr / pageSize) (some (page, pteV ||| flags)))
  | _ => M

/-- The page tables are in order in every reachable state. -/
theorem pageTables_consistent (h : (pageTables R).Reachable s) :
    ∃ F, s.mm.Consistent R userEntries s.held F := by
  refine h.invariant (fun s => pageTables_init) ?_
  rintro s l s' ⟨F, hF⟩ hl
  obtain ⟨F', he⟩ := pageTables_step hF hl
  exact ⟨F', he.consistent⟩

/-! ### The page tables as maps -/

/-- An address whose entry in the root table is for the user, or else names no page of the pool,
as the kernel entries that every root table begins with. -/
def Mm.UserOrKernel (m : Mm) (r b : ℕ) : Prop :=
  b < userEnd ∨ getGptx b ∉ userEntries ∧ (isValid (m.load (r, getGptx b)) →
    ¬ (poolBegin ≤ pte2ppn (m.load (r, getGptx b)) ∧ pte2ppn (m.load (r, getGptx b)) < poolEnd))

/-- The operation changes the mapping of the page that holds `b`. -/
def PtOp.Changes (l : PtOp) (r b : ℕ) : Prop :=
  ∃ c ∈ l.change, r = c.1 ∧ b / pageSize = c.2.1 / pageSize

/-- The operations are on user addresses. -/
theorem change_userAddr (hl : (pageTables R).step s l s') {c : ℕ × ℕ × ℕ} (hc : l.change = some c) :
    UserAddr c.2.1 := by
  cases l with
  | allocPage => cases hc
  | getPte r addr => cases hc
  | addPage r page addr flags ret =>
    obtain ⟨-, ha, -⟩ := hl
    simp only [PtOp.change] at hc
    split_ifs at hc
    obtain rfl := Option.some.inj hc
    exact ha
  | delPage r addr =>
    obtain ⟨-, ha, -⟩ := hl
    obtain rfl := Option.some.inj hc
    exact ha
  | allocPageGpte r addr flags page =>
    obtain ⟨-, ha, -⟩ := hl
    simp only [PtOp.change] at hc
    obtain ⟨p, -, rfl⟩ := Option.map_eq_some_iff.1 hc
    exact ha

theorem lookup_eq_pageMap {F : Set ℕ} (h : s.mm.Consistent R userEntries s.held F) {r b : ℕ}
    (hr : r ∈ R) (hb : b < userEnd) : s.mm.lookup r b = .ok (s.mm.pageMap r (b / pageSize)) := by
  have hlt : b / pageSize < userEnd / pageSize := by
    rw [pageSize_eq]
    simp only [userEnd] at hb ⊢
    omega
  have hidx : indices (b / pageSize * pageSize) = indices b := by
    rw [pageSize_eq]
    simp only [userEnd] at hb
    exact (indices_eq_iff (by omega) (by omega)).2 (by omega)
  rw [Mm.lookup_eq h.tables hr (getGptx_user hb), Mm.pageMap, if_pos hlt, Mm.entry, Mm.entry,
    Mm.slot_congr_indices hidx]

/-- The lookup of an address that the operation does not change. -/
theorem lookup_frame {F F' : Set ℕ} (h : s.mm.Consistent R userEntries s.held F)
    (he : s.mm.Effect s'.mm R userEntries F l.change s'.held F')
    (hl : (pageTables R).step s l s') {r b : ℕ} (hr : r ∈ R) (hb : s.mm.UserOrKernel r b)
    (hc : ¬ l.Changes r b) : s'.mm.lookup r b = s.mm.lookup r b := by
  rcases hb with hb | ⟨hi, hk⟩
  · have hU := getGptx_user hb
    rw [Mm.lookup_eq h.tables hr hU, Mm.lookup_eq he.consistent.tables hr hU, he.entry r hr b hU]
    congr 2
    cases hch : l.change with
    | none => rfl
    | some c =>
      obtain ⟨r₀, a, v⟩ := c
      have ha := (change_userAddr hl hch).2
      rw [Mm.written, if_neg]
      rintro ⟨rfl, hidx⟩
      exact hc ⟨_, hch, rfl, (indices_user ha hb).1 hidx⟩
  · exact Mm.lookup_kernel (he.root r hr _ hi) hk

/-- The content of the entry that an operation writes. -/
theorem lookup_written {F F' : Set ℕ}
    (he : s.mm.Effect s'.mm R userEntries F l.change s'.held F') {r a v : ℕ} (hr : r ∈ R)
    (hc : l.change = some (r, a, v)) (ha : a < userEnd) : s'.mm.lookup r a =
      .ok (if isValid v then some (pte2ppn v, pteFlags v) else none) := by
  have hU := getGptx_user ha
  rw [Mm.lookup_eq he.consistent.tables hr hU, he.entry r hr a hU, hc, Mm.written,
    if_pos ⟨rfl, rfl⟩]
  split_ifs <;> rfl

theorem mapping_value {page flags : ℕ} (hp : page < poolEnd) (hf : flags < 1024) :
    (if isValid (ppn2pte page (pteV ||| flags)) then
      some (pte2ppn (ppn2pte page (pteV ||| flags)), pteFlags (ppn2pte page (pteV ||| flags)))
      else none) = some (page, pteV ||| flags) := by
  have hv := pteV_or hf
  have hlt : page < 2 ^ 54 := by
    rw [poolEnd_eq] at hp
    omega
  rw [if_pos ((isValid_ppn2pte hlt hv.1).2 hv.2), pte2ppn_ppn2pte hlt hv.1,
    pteFlags_ppn2pte hlt hv.1]

/-- The maps after a step, by the entry that it writes. -/
theorem pageMap_written {F F' : Set ℕ} (h : s.mm.Consistent R userEntries s.held F)
    (he : s.mm.Effect s'.mm R userEntries F l.change s'.held F')
    (hl : (pageTables R).step s l s') {r : ℕ} (hr : r ∈ R) (vpn : ℕ) :
    s'.mm.pageMap r vpn = match l.change with
      | none => s.mm.pageMap r vpn
      | some (r₀, a, v) => if r = r₀ ∧ vpn = a / pageSize then
          (if isValid v then some (pte2ppn v, pteFlags v) else none) else s.mm.pageMap r vpn := by
  by_cases hvpn : vpn < userEnd / pageSize
  · have hb : vpn * pageSize < userEnd := by
      rw [pageSize_eq] at hvpn ⊢
      simp only [userEnd] at hvpn ⊢
      omega
    have hdiv : vpn * pageSize / pageSize = vpn := Nat.mul_div_cancel vpn (by decide)
    have hmap := lookup_eq_pageMap h hr hb
    have hmap' := lookup_eq_pageMap he.consistent hr hb
    rw [hdiv] at hmap hmap'
    cases hc : l.change with
    | none =>
      have hframe := lookup_frame h he hl hr (Or.inl hb) (by rintro ⟨c, hc', -⟩; simp [hc] at hc')
      exact Except.ok.inj (hmap'.symm.trans (hframe.trans hmap))
    | some c =>
      obtain ⟨r₀, a, v⟩ := c
      have ha := (change_userAddr hl hc).2
      simp only
      split_ifs with hcond hv
      · obtain ⟨rfl, rfl⟩ := hcond
        have hw := lookup_written he hr hc ha
        rw [lookup_eq_pageMap he.consistent hr ha, if_pos hv] at hw
        exact Except.ok.inj hw
      · obtain ⟨rfl, rfl⟩ := hcond
        have hw := lookup_written he hr hc ha
        rw [lookup_eq_pageMap he.consistent hr ha, if_neg hv] at hw
        exact Except.ok.inj hw
      · have hframe := lookup_frame h he hl hr (Or.inl hb) (by
          rintro ⟨c, hc', h1, h2⟩
          rw [hc] at hc'
          obtain rfl := Option.some.inj hc'
          exact hcond ⟨h1, hdiv ▸ h2⟩)
        exact Except.ok.inj (hmap'.symm.trans (hframe.trans hmap))
  · have hnone : ∀ s : PtState, s.mm.pageMap r vpn = none := fun s => if_neg hvpn
    rw [hnone, hnone]
    cases hc : l.change with
    | none => rfl
    | some c =>
      obtain ⟨r₀, a, v⟩ := c
      have ha := (change_userAddr hl hc).2
      simp only
      rw [if_neg]
      rintro ⟨-, rfl⟩
      refine hvpn ?_
      rw [pageSize_eq]
      simp only [userEnd] at ha ⊢
      omega

/-- The pages and flags of the mappings that the operations write. -/
theorem pageTables_args {F : Set ℕ} (h : s.mm.Consistent R userEntries s.held F)
    (hl : (pageTables R).step s l s') : match l with
      | .addPage _ page _ flags _ => page < poolEnd ∧ flags < 1024
      | .allocPageGpte _ _ flags (some page) => page < poolEnd ∧ flags < 1024
      | _ => True := by
  cases l with
  | allocPage => trivial
  | getPte r addr => trivial
  | delPage r addr => trivial
  | addPage r page addr flags ret =>
    obtain ⟨-, -, hp, hf, -⟩ := hl
    exact ⟨(h.tables.data page hp).2.1, hf⟩
  | allocPageGpte r addr flags page =>
    obtain ⟨hr, ha, hf, h1, -⟩ := hl
    cases page with
    | none => trivial
    | some page => exact ⟨((Mm.allocPageGpte_effect h hr ha.index hf).of_ok h1).1 page rfl, hf⟩

/-- The maps after a step. -/
theorem pageMap_step {F F' : Set ℕ} (h : s.mm.Consistent R userEntries s.held F)
    (he : s.mm.Effect s'.mm R userEntries F l.change s'.held F')
    (hl : (pageTables R).step s l s') {r : ℕ} (hr : r ∈ R) :
    s'.mm.pageMap r = l.onMaps s.mm.pageMap r := by
  have hargs := pageTables_args h hl
  have hw := pageMap_written h he hl hr
  have hupdate : ∀ (M : ℕ → ℕ → Option (ℕ × ℕ)) (r₀ i : ℕ) (x : Option (ℕ × ℕ)) (vpn : ℕ),
      Function.update M r₀ (Function.update (M r₀) i x) r vpn =
        if r = r₀ ∧ vpn = i then x else M r vpn := by
    intro M r₀ i x vpn
    by_cases h1 : r = r₀
    · subst h1
      by_cases h2 : vpn = i <;> simp [h2]
    · simp [h1]
  funext vpn
  rw [hw vpn]
  cases l with
  | allocPage => rfl
  | getPte r addr => rfl
  | delPage r addr =>
    rw [PtOp.onMaps, hupdate]
    rfl
  | addPage r page addr flags ret =>
    simp only [PtOp.change, PtOp.onMaps]
    by_cases hret : ret = 0
    · simp only [hret, if_true]
      rw [hupdate, mapping_value hargs.1 hargs.2]
    · simp only [hret, if_false]
  | allocPageGpte r addr flags page =>
    cases page with
    | none => rfl
    | some page =>
      simp only [PtOp.change, PtOp.onMaps, Option.map_some]
      rw [hupdate, mapping_value hargs.1 hargs.2]

/-- **The page tables refine finite maps.**  In every reachable state each page table stands for
a finite map from user pages to pages and permissions, which looking up an address evaluates.
`del_page` always succeeds.  A step changes the maps as `PtOp.onMaps` says: `add_page` returns `0`
and maps the page, or returns `-E_NO_MEM`; `del_page` takes a mapping away; all other lookups, in
all page tables, are as before. -/
theorem page_table_refines_map (hs : (pageTables R).Reachable s) :
    (∀ r ∈ R, (∀ b < userEnd, s.mm.lookup r b = .ok (s.mm.pageMap r (b / pageSize))) ∧
      {vpn | s.mm.pageMap r vpn ≠ none}.Finite ∧
      ∀ a, UserAddr a → ∃ m, s.mm.delPage r a = .ok m) ∧
    ∀ l s', (pageTables R).step s l s' →
      (∀ r ∈ R, s'.mm.pageMap r = l.onMaps s.mm.pageMap r) ∧
      (∀ r page a flags ret, l = .addPage r page a flags ret →
        ret = 0 ∧ s'.mm.lookup r a = .ok (some (page, pteV ||| flags)) ∨ ret = -eNoMem) ∧
      (∀ r a, l = .delPage r a → s'.mm.lookup r a = .ok none) ∧
      ∀ r ∈ R, ∀ b, s.mm.UserOrKernel r b → ¬ l.Changes r b →
        s'.mm.lookup r b = s.mm.lookup r b := by
  obtain ⟨F, hF⟩ := pageTables_consistent hs
  refine ⟨fun r hr => ⟨fun b hb => lookup_eq_pageMap hF hr hb, ?_, fun a ha => ?_⟩,
    fun l s' hl => ?_⟩
  · refine (Set.finite_Iio (userEnd / pageSize)).subset fun vpn hvpn => ?_
    by_contra hlt
    exact hvpn (if_neg hlt)
  · obtain ⟨m, -, hm, -⟩ := Mm.delPage_effect hF hr ha.index
    exact ⟨m, hm⟩
  · obtain ⟨F', he⟩ := pageTables_step hF hl
    refine ⟨fun r hr => pageMap_step hF he hl hr, ?_, ?_,
      fun r hr b hb hc => lookup_frame hF he hl hr hb hc⟩
    · rintro r page a flags ret rfl
      obtain ⟨hr, ha, hp, hf, h1, -⟩ := hl
      obtain ⟨-, hret, -⟩ := (Mm.addPage_effect hF hr ha.index hp hf).of_ok h1
      refine hret.imp (fun hret => ⟨hret, ?_⟩) id
      rw [lookup_written he hr (if_pos hret) ha.2, mapping_value (hF.tables.data page hp).2.1 hf]
    · rintro r a rfl
      obtain ⟨hr, ha, -⟩ := hl
      rw [lookup_written he hr rfl ha.2]
      rfl

/-- Eight free pages, and nothing allocated. -/
def emptyTables : PtState := ⟨⟨FreeSet.oneBlock 0x82000 8, fun _ _ => 0, false⟩, ∅⟩

theorem emptyTables_init (hR : ∀ r ∈ R, r < 0x82000) : (pageTables R).init emptyTables := by
  refine ⟨rfl, ⟨_, FreeSet.freeSet_oneBlock (p := 0x82000) (k := 8) (by decide) (by decide)
    (by decide), fun p _ => ?_, fun r hr hm => ?_⟩, fun r _ i _ => ?_⟩
  · simp only [Mm.ref, emptyTables, FreeSet.oneBlock]
    split_ifs <;> rfl
  · have := hR r hr
    have := hm.1
    omega
  · simp [emptyTables]

/-- A page is allocated and mapped at `USER_BEGIN`. -/
theorem page_table_refines_map_add : ∃ s, (pageTables {0x80100}).Run
    [.allocPage, .addPage 0x80100 0x82000 userBegin pteR 0] s ∧
      s.mm.lookup 0x80100 userBegin = .ok (some (0x82000, pteV ||| pteR)) := by
  have h₀ : (pageTables {0x80100}).Run [] emptyTables := .start (emptyTables_init (by simp))
  obtain ⟨m₁, m, hm₁, hm⟩ : ∃ m₁ m, emptyTables.mm.allocPage = .ok (m₁, some 0x82000) ∧
    m₁.addPage 0x80100 0x82000 userBegin pteR = .ok (m, 0) := ⟨_, _, rfl, rfl⟩
  have h₁ : (pageTables {0x80100}).Run [.allocPage] ⟨m₁, ∅ ∪ {p | some 0x82000 = some p}⟩ :=
    h₀.step ⟨_, hm₁, rfl⟩
  have h₂ : (pageTables {0x80100}).step ⟨m₁, ∅ ∪ {p | some 0x82000 = some p}⟩
      (.addPage 0x80100 0x82000 userBegin pteR 0) ⟨m, _ \ m.pmm.freePages⟩ :=
    ⟨rfl, ⟨by decide, by decide⟩, Or.inr rfl, by decide, hm, rfl⟩
  obtain ⟨-, h₃⟩ := page_table_refines_map ⟨_, h₁⟩
  obtain ⟨-, hadd, -⟩ := h₃ _ _ h₂
  exact ⟨_, h₁.step h₂, ((hadd _ _ _ _ _ rfl).resolve_right (by decide)).2⟩

/-- **The reference counters count the mappings.**  In every reachable state the counter of each
page in use is the number of valid leaf entries, over all page tables, that map it, and no free
page is mapped.  A page is freed by just those steps that take away its last mapping. -/
theorem ref_counts_mappings (hs : (pageTables R).Reachable s) :
    (∀ p ∈ s.held, s.mm.ref p = (s.mm.mappings R userEntries p).ncard) ∧
    (∀ p, (s.mm.mappings R userEntries p).Nonempty → p ∈ s.held ∧ p ∉ s.mm.pmm.freePages) ∧
    ∀ l s', (pageTables R).step s l s' → ∀ p,
      (p ∈ s'.mm.pmm.freePages ∧ p ∉ s.mm.pmm.freePages) ↔
        (s.mm.mappings R userEntries p).Nonempty ∧ s'.mm.mappings R userEntries p = ∅ := by
  obtain ⟨F, hF⟩ := pageTables_consistent hs
  rw [hF.tables.free.freePages_eq]
  refine ⟨hF.refs, ?_, fun l s' hl p => ?_⟩
  · rintro p ⟨t, ht⟩
    have hp := hF.tables.mapped p t ht
    exact ⟨hp, (hF.tables.data p hp).2.2⟩
  · obtain ⟨F', he⟩ := pageTables_step hF hl
    rw [he.consistent.tables.free.freePages_eq]
    exact he.freed p

/-- After `alloc_page` and `add_page` the counter of the page is one. -/
theorem ref_counts_mappings_one : ∃ s, (pageTables {0x80100}).Run
    [.allocPage, .addPage 0x80100 0x82000 userBegin pteR 0] s ∧
      (s.mm.mappings {0x80100} userEntries 0x82000).ncard = 1 := by
  have h₀ : (pageTables {0x80100}).Run [] emptyTables := .start (emptyTables_init (by simp))
  obtain ⟨m₁, m, hm₁, hm, href⟩ : ∃ m₁ m, emptyTables.mm.allocPage = .ok (m₁, some 0x82000) ∧
    m₁.addPage 0x80100 0x82000 userBegin pteR = .ok (m, 0) ∧ m.ref 0x82000 = 1 :=
    ⟨_, _, rfl, rfl, rfl⟩
  have h₁ : (pageTables {0x80100}).Run [.allocPage] ⟨m₁, ∅ ∪ {p | some 0x82000 = some p}⟩ :=
    h₀.step ⟨_, hm₁, rfl⟩
  have h₂ : (pageTables {0x80100}).step ⟨m₁, ∅ ∪ {p | some 0x82000 = some p}⟩
      (.addPage 0x80100 0x82000 userBegin pteR 0) ⟨m, _ \ m.pmm.freePages⟩ :=
    ⟨rfl, ⟨by decide, by decide⟩, Or.inr rfl, by decide, hm, rfl⟩
  obtain ⟨F, hF⟩ := pageTables_consistent ⟨_, h₁⟩
  obtain ⟨F', -, hp, -, he⟩ := (Mm.addPage_effect hF rfl
    (UserAddr.index ⟨by decide, by decide⟩) (Or.inr rfl) (by decide)).of_ok hm
  obtain ⟨hcount, -⟩ := ref_counts_mappings ⟨_, h₁.step h₂⟩
  refine ⟨_, h₁.step h₂, ?_⟩
  rw [← hcount 0x82000 ⟨Or.inr rfl, ?_⟩]
  · exact href
  · rw [he.consistent.tables.free.freePages_eq]
    exact hp

end GarretOS
