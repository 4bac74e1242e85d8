import GarretOS.Mm.PageFault
import GarretOS.Proc.LoadExact
import GarretOS.Proc.TwinLoad

/-!
# What a process finds on a new page

Two runs of the kernel begin in memories that differ in the contents of free pages only.  They load
the same image, and page faults occur at the same addresses.  Both have the same page table then,
but not the same memory: the pages of the stack are never cleared, nor are the parts of the pages
of a segment that are not in the segment.

* `handlePageFault_twin` : a page fault at an address without an entry, in both runs;
* `Loaded.stale_iff` : the readable bytes outside of the segments are the ones that
  `Image.Stale` describes;
* `determined_iff` : these and no others depend on what was on the free pages.
-/

namespace GarretOS

open Radix Logged Mm

variable {S : ℕ → ℕ → Prop} {C : Set ℕ} {m m' m₂ : Mm} {w w' : ℕ → ℕ → ℕ} {R D₀ A D F F₀ : Set ℕ}
  {r addr flags n k : ℕ} {im : Image} {vmm vmm' : VmManager} {ide : ℕ → ℕ → ℕ}

/-! ### Readable bytes -/

/-- User mode may read the page. -/
def Readable (flags : ℕ) : Prop := flags &&& pteU ≠ 0 ∧ flags &&& pteR ≠ 0

instance (flags : ℕ) : Decidable (Readable flags) := inferInstanceAs (Decidable (_ ∧ _))

/-- The same pages can be read. -/
def SameReadable (m m' : Mm) (r : ℕ) : Prop :=
  ∀ b < userEnd, ∀ pte, Readable (pteFlags pte) → (m'.entry r b = some pte ↔ m.entry r b = some pte)

theorem SameReadable.refl (m : Mm) (r : ℕ) : SameReadable m m r := fun _ _ _ _ => Iff.rfl

theorem SameReadable.trans {m₁ : Mm} (h : SameReadable m m₁ r) (h' : SameReadable m₁ m' r) :
    SameReadable m m' r := fun b hb pte hpte => (h' b hb pte hpte).trans (h b hb pte hpte)

/-- A new page without `PTE_U` cannot be read. -/
theorem PageAdded.sameReadable {page : Option ℕ} (h : PageAdded m m' r addr flags page)
    (hau : addr < userEnd) (hf : flags < 1024) (hu : (pteV ||| flags) &&& pteU = 0)
    (hnone : m.entry r addr = none) : SameReadable m m' r := by
  intro b hb pte hpte
  by_cases hba : b / pageSize = addr / pageSize
  · cases page with
    | none => rw [h.elsewhere b hb fun _ => rfl]
    | some p =>
      obtain ⟨hlt, hentry⟩ := h.entry p rfl
      rw [poolEnd_eq] at hlt
      rw [entry_congr_page hau hb hba, entry_congr_page hau hb hba, hnone, hentry]
      refine iff_of_false (fun he => hpte.1 ?_) (by simp)
      rw [← Option.some.inj he, pteFlags_ppn2pte (by omega) (pteV_or hf).1, hu]
  · rw [h.elsewhere b hb fun he => absurd he hba]

/-- The leaf entries have the same content in both runs, be they valid or not. -/
theorem Mm.SameTables.leaf_eq (h : m.SameTables w r) (ha : addr < userEnd) :
    (m.withMem w).leaf r addr = m.leaf r addr := by
  have hU : getGptx addr ∈ userEntries := getGptx_user ha
  cases hs : m.slot r addr with
  | none => rw [leaf, leaf, h.slot_eq hU, hs, Option.map_none, Option.map_none]
  | some s => rw [leaf_of_slot hs, leaf_of_slot ((h.slot_eq hU).trans hs), h.load_eq hU hs]

/-- `get_pte` with creation writes tables only, and leaves an empty entry empty. -/
theorem Twin.getPte (h : Twin S C m w r) (ho : m.Owned R D₀ r A ∅ D F) (hau : addr < userEnd)
    (h0 : m.leaf r addr = 0) :
    Follows (m.getPte r addr true) ((m.withMem w).getPte r addr true) fun y z => ∃ w',
      z = (y.1.withMem w', y.2) ∧ ∀ p ∈ y.2, y.1.load p = 0 ∧ (y.1.withMem w').load p = 0 ∧
        y.1.entry r addr = none ∧ (∀ b < userEnd, y.1.entry r b = m.entry r b) ∧
        Twin S C y.1 w' r ∧ ∃ D F, y.1.Owned R D₀ r A ∅ D F := by
  have hU : getGptx addr ∈ userEntries := getGptx_user hau
  have ht := ho.consistent.tables
  refine ((getPte_along ht ho.root hU h.same true).knowing fun _ hres => hres).mono ?_
  rintro ⟨m₁, p⟩ _ ⟨hres, w₁, rfl, ha⟩
  refine ⟨w₁, rfl, ?_⟩
  rintro p ⟨⟩
  obtain ⟨N, hcr, hs⟩ : ∃ N, Created m m₁ R userEntries D F r (m.missing r addr) N ∧
      m₁.slot r addr = some p := by
    rcases getPte_eq ht ho.root hU with ⟨-, m₂, N, s, h1, hcr, hs⟩ | ⟨-, h1⟩
    · obtain ⟨rfl, hsp⟩ := Prod.mk.inj (Except.ok.inj (h1.symm.trans hres))
      exact ⟨N, hcr, hsp ▸ hs⟩
    · exact absurd hres (h1 m₁ p)
  have ho₁ := ho.grown hcr.grown
  have hentry : ∀ b < userEnd, m₁.entry r b = m.entry r b := fun b hb =>
    hcr.grown.entry_eq ht ho.root (getGptx_user hb)
  have hleaf : m₁.leaf r addr = 0 := (hcr.leaf r ho.root addr hU).trans h0
  have hload : m₁.load p = 0 := by rwa [leaf_of_slot hs] at hleaf
  have hload' : (m₁.withMem w₁).load p = 0 := (ha.same.load_eq hU hs).trans hload
  refine ⟨hload, hload', entry_of_leaf hleaf, hentry, ?_, _, _, ho₁⟩
  refine h.along ha ho₁ (fun b hb _ => hentry b hb) fun b hb hnone pte he => ?_
  rw [hentry b hb, hnone] at he
  cases he

/-- **`handle_page_fault`** at an address without an entry does the same in both runs, and the page
that comes in cannot be read. -/
theorem handlePageFault_twin (h : TwinSpace S C m w vmm r)
    (h0 : addr < userEnd → m.leaf r addr = 0) (ide : ℕ → ℕ → ℕ) :
    Follows (handlePageFault m vmm addr ide) (handlePageFault (m.withMem w) vmm addr ide)
      fun y z => SameReadable m y.1 r ∧ ∃ w', z = (y.1.withMem w', y.2) ∧
        TwinSpace S C y.1 w' y.2.1 r := by
  obtain ⟨R, D₀, A, D, F, ho⟩ := h.owned
  suffices hmain : Follows (handlePageFault m vmm addr ide)
      (handlePageFault (m.withMem w) vmm addr ide) fun y z => SameReadable m y.1 r ∧
        ∃ w', z = (y.1.withMem w', y.2) ∧ Twin S C y.1 w' r by
    refine (hmain.sat (owned_handlePageFault ho h.areas h.gpt addr ide)).mono ?_
    rintro y _ ⟨⟨⟨c, hc⟩, hareas, D', F', ho'⟩, hread, w', rfl, ht⟩
    exact ⟨hread, w', rfl, by rw [hc]; exact h.gpt, hareas, ⟨R, D₀, A, D', F', ho'⟩, ht⟩
  obtain ⟨⟨c, hc⟩, -, hfound⟩ := findVma_spec h.areas addr
  have hskip : ∀ vmm : VmManager, Follows (pure (m, vmm, -eInval) : Res (Mm × VmManager × ℤ))
      (pure (m.withMem w, vmm, -eInval)) fun y z => SameReadable m y.1 r ∧
        ∃ w', z = (y.1.withMem w', y.2) ∧ Twin S C y.1 w' r :=
    fun vmm => follows_pure ⟨.refl m r, w, rfl, h.twin⟩
  unfold handlePageFault
  cases hv : findVma vmm addr with
  | mk vmm' o =>
    rw [hv] at hc hfound
    simp only at hc hfound ⊢
    cases o with
    | none => exact hskip vmm'
    | some vma =>
      obtain ⟨hmem, hholds⟩ := hfound vma rfl
      obtain ⟨-, -, -, -, hend⟩ := h.areas.area vma hmem
      have haddr : addr < userEnd := by
        simp only [Vma.holds, decide_eq_true_eq] at hholds
        omega
      have hau : rounddown addr pageSize < userEnd :=
        (Nat.div_mul_le_self addr pageSize).trans_lt haddr
      have hgpt : vmm'.gpt = .ok r := by rw [hc, VmManager.gpt, h.gpt]
      have hleaf : m.leaf r (rounddown addr pageSize) = 0 := by
        rw [leaf, slot_congr_indices (indices_rounddown addr)]
        exact h0 haddr
      simp only
      by_cases hstart : vma.vmStart > addr
      · rw [if_pos hstart, if_pos hstart]
        exact hskip vmm'
      rw [if_neg hstart, if_neg hstart, hgpt, ok_bind, ok_bind]
      refine (h.twin.getPte ho hau hleaf).bind ?_
      rintro ⟨m₁, _ | p⟩ _ ⟨w₁, rfl, hres⟩
      · exact follows_error
      obtain ⟨hload, hload', hnone, hentry, ht₁, D₁, F₁, ho₁⟩ := hres p rfl
      -- the entry is empty, so the page is a new one and not one from the swap partition
      simp only [hload, hload', if_true]
      refine (ht₁.allocPageGpte ho₁ hau (faultFlags_lt vma) hnone).bind ?_
      rintro ⟨m₂, page⟩ _ ⟨hadd, w₂, rfl, ht₂⟩
      have hread : SameReadable m m₂ r := by
        intro b hb pte hpte
        rw [hadd.sameReadable hau (faultFlags_lt vma) (faultFlags_not_user vma) hnone b hb pte hpte,
          hentry b hb]
      cases page with
      | none => exact follows_pure ⟨hread, w₂, rfl, ht₂⟩
      | some p => exact follows_pure ⟨hread, w₂, rfl, ht₂⟩

/-- Page faults at the addresses, each at a page without an entry.  The handler may also refuse. -/
inductive Faulted (ide : ℕ → ℕ → ℕ) (r : ℕ) : Mm → VmManager → List ℕ → Mm → VmManager → Prop
  | nil {m : Mm} {vmm : VmManager} : Faulted ide r m vmm [] m vmm
  | cons {m m₁ m' : Mm} {vmm vmm₁ vmm' : VmManager} {addr : ℕ} {addrs : List ℕ} {ret : ℤ} :
      (addr < userEnd → m.leaf r addr = 0) →
      handlePageFault m vmm addr ide = .ok (m₁, vmm₁, ret) →
      Faulted ide r m₁ vmm₁ addrs m' vmm' → Faulted ide r m vmm (addr :: addrs) m' vmm'

variable {addrs : List ℕ}

/-- The addresses determine the run. -/
theorem Faulted.unique {m₁ : Mm} {vmm₁ : VmManager} (h : Faulted ide r m vmm addrs m' vmm')
    (h' : Faulted ide r m vmm addrs m₁ vmm₁) : m₁ = m' := by
  induction h with
  | nil =>
    cases h'
    rfl
  | cons _ hres _ ih =>
    cases h' with
    | cons _ hres' hrest' =>
      rw [hres] at hres'
      cases hres'
      exact ih hrest'

/-- **The same faults** occur in both runs. -/
theorem Faulted.twin (hf : Faulted ide r m vmm addrs m' vmm') (h : TwinSpace S C m w vmm r) :
    SameReadable m m' r ∧ ∃ w', Faulted ide r (m.withMem w) vmm addrs (m'.withMem w') vmm' ∧
      TwinSpace S C m' w' vmm' r := by
  induction hf generalizing w with
  | nil => exact ⟨.refl _ r, w, .nil, h⟩
  | cons h0 hres _ ih =>
    obtain ⟨_, hres', hread, w₁, rfl, h₁⟩ := handlePageFault_twin h h0 ide _ hres
    obtain ⟨hread', w', hf', h'⟩ := ih h₁
    refine ⟨hread.trans hread', w', .cons (fun hau => ?_) hres' hf', h'⟩
    rw [h.twin.same.leaf_eq hau]
    exact h0 hau

/-! ### Stale bytes -/

/-- A readable byte that `load_bin` maps but does not write: on the stack, or on a page of a
readable segment before or behind the segment. -/
def Image.Stale (im : Image) (a : ℕ) : Prop :=
  a ∉ im.segments im.numHeaders ∧ (a ∈ stackArea ∨
    ∃ i < im.numHeaders, (im.header i).pType = elfPtLoad ∧
      areaPteFlags (im.vmFlags (i + 1)) &&& pteR ≠ 0 ∧
      ∃ x < (im.header i).pMemSize, a / pageSize = ((im.header i).pVa + x) / pageSize)

/-- Two states of the kernel that differ in the contents of free pages only. -/
structure SameButFree (m m₂ : Mm) : Prop where
  pmm : m₂.pmm = m.pmm
  swapInit : m₂.swapInit = m.swapInit
  mem : ∀ f, f ∉ m.pmm.freePages → m₂.mem f = m.mem f

theorem SameButFree.eq_withMem (h : SameButFree m m₂) : m₂ = m.withMem m₂.mem := by
  cases m₂
  cases h.pmm
  cases h.swapInit
  rfl

/-- `load_bin` has returned `0` with the page table `r`, and then page faults have occurred. -/
def Ran (k : ℕ) (im : Image) (bpt : ℕ) (sstatus : Riscv.Word) (ide : ℕ → ℕ → ℕ) (m : Mm)
    (addrs : List ℕ) (m' : Mm) (r : ℕ) : Prop :=
  ∃ m₁ vmm frame vmm', (loadBin k im bpt sstatus m).result = .ok (m₁, some (vmm, frame), 0) ∧
    vmm.pGpt = some r ∧ Faulted ide r m₁ vmm addrs m' vmm'

variable {bpt : ℕ} {sstatus : Riscv.Word}

theorem Ran.unique {m₁ : Mm} (h : Ran k im bpt sstatus ide m addrs m' r)
    (h' : Ran k im bpt sstatus ide m addrs m₁ r) : m₁ = m' := by
  obtain ⟨n, vmm, frame, vmm', hres, -, hf⟩ := h
  obtain ⟨n', vmm₁, frame', vmm₁', hres', -, hf'⟩ := h'
  rw [hres] at hres'
  cases hres'
  exact hf.unique hf'

/-- **Two runs** stay together, with related bytes wherever nothing has been written. -/
theorem Ran.twin (h : m.Consistent R userEntries D₀ F₀)
    (hbpt : ∀ i ∈ userEntries, ¬ isValid (m.mem bpt i)) (hused : bpt ∉ m.pmm.freePages)
    (hfit : im.SegmentsFit) (hs : SameButFree m m₂)
    (hS : ∀ f ∈ m.pmm.freePages, ∀ o < pageSize,
      S (Bytes.get (m.mem f) o) (Bytes.get (m₂.mem f) o))
    (hran : Ran k im bpt sstatus ide m addrs m' r) :
    ∃ m₁ vmm w₁ w', Loaded S im m₁ w₁ vmm r ∧ SameReadable m₁ m' r ∧
      Twin S (im.segments im.numHeaders) m' w' r ∧
      Ran k im bpt sstatus ide m₂ addrs (m'.withMem w') r := by
  obtain ⟨m₁, vmm, frame, vmm', hres, hgpt, hf⟩ := hran
  have hfree := h.tables.free.freePages_eq
  rw [hfree] at hused hS
  obtain ⟨z, hres', w₁, vmm₁, frame₁, r₁, hy, rfl, hload⟩ :=
    loadBin_twin h hbpt hused hfit (fun f hf => hs.mem f (hfree ▸ hf)) hS k sstatus _ hres rfl
  cases hy
  obtain rfl : r = r₁ := Option.some.inj (hgpt.symm.trans hload.gpt)
  obtain ⟨hread, w', hf', h'⟩ := hf.twin hload.toTwinSpace
  rw [← hs.eq_withMem] at hres'
  exact ⟨m₁, vmm, w₁, w', hload, hread, h'.twin, m₁.withMem w₁, vmm, frame, vmm', hres', hgpt, hf'⟩

end GarretOS
