import GarretOS.Mm.CheckVmm
import GarretOS.Mm.Demand
import GarretOS.Mm.Owned
import GarretOS.Mm.PageMap

/-!
# Page faults

What `handle_page_fault` does to the leaf entry for the address, from the three kinds of content
that the entry may have: nothing, a swap entry, or a page.

* `faultEntry_empty`, `faultEntry_used` : the outcome of a fault, from the content of the entry and
  from the pages that can be had;
* `page_fault_handled_iff` : when a fault is repaired or refused, and when it stops the kernel;
* `faulted_page_not_user` : the permissions of a page that comes in by a fault.
-/

namespace GarretOS

namespace Mm

variable {m m' : Mm} {R U D F N : Set ℕ} {r addr page flags v : ℕ} {s : PtePtr}

/-! ### Mapping a page at an empty entry -/

/-- The leaf entries and the data pages are as before. -/
structure Unchanged (m m' : Mm) (R U D : Set ℕ) : Prop where
  leaf : ∀ r ∈ R, ∀ b, getGptx b ∈ U → m'.leaf r b = m.leaf r b
  data : ∀ p ∈ D, m'.mem p = m.mem p

/-- The leaf entry for the address has the value `v`, and nothing else has changed. -/
structure Written (m m' : Mm) (R U D : Set ℕ) (r addr v : ℕ) : Prop where
  leaf : ∀ r' ∈ R, ∀ b, getGptx b ∈ U →
    m'.leaf r' b = if r' = r ∧ indices b = indices addr then v else m.leaf r' b
  data : ∀ p ∈ D, m'.mem p = m.mem p

theorem Created.unchanged {k : ℕ} (h : Tables m R U D F) (hc : Created m m' R U D F r k N) :
    Unchanged m m' R U D := by
  refine ⟨hc.leaf, fun p hp => hc.grown.mem p (h.data p hp).2.2 fun q hq _ hw => ?_⟩
  exact (h.table r hc.grown.root q p hq hw).2.1 hp

theorem leaf_congr (h : m'.mem = m.mem) (r addr : ℕ) : m'.leaf r addr = m.leaf r addr := by
  have hload : m'.load = m.load := by
    funext t
    rw [load, load, h]
  rw [leaf, leaf, slot, slot, child_congr h, hload]

/-- A write changes the content for its address and no other. -/
theorem leaf_store (h : Tables m R U D F) (hr : r ∈ R) (hU : getGptx addr ∈ U)
    (hs : m.slot r addr = some s) {r' b : ℕ} (hr' : r' ∈ R) (hUb : getGptx b ∈ U) :
    (m.store s v).leaf r' b =
      if r' = r ∧ indices b = indices addr then v else m.leaf r' b := by
  have hl := (slot_leaf hr hU hs).1
  have hslot : (m.store s v).slot r' b = m.slot r' b := by
    simp only [slot, walk_store h hl hr' (tablePath_addr hUb)]
  unfold leaf
  rw [hslot]
  cases hb : m.slot r' b with
  | none =>
    rw [if_neg]
    · rfl
    · rintro ⟨rfl, hi⟩
      rw [slot_congr_indices hi, hs] at hb
      cases hb
  | some t =>
    rw [Option.map_some, Option.getD_some, load_store]
    by_cases hts : t = s
    · subst hts
      rw [if_pos rfl, if_pos (slot_inj h hr hU hs hr' hUb hb)]
    · have hne : ¬ (r' = r ∧ indices b = indices addr) := by
        rintro ⟨rfl, hi⟩
        rw [slot_congr_indices hi, hs] at hb
        exact hts (Option.some.inj hb).symm
      rw [if_neg hts, if_neg hne]
      rfl

/-- **`add_page`** at an entry that maps no page writes the entry. -/
theorem addPage_of_invalid (h : Tables m R U D F) (hr : r ∈ R) (hU : getGptx addr ∈ U)
    (hs : m.slot r addr = some s) (hv : ¬ isValid (m.load s)) (h1 : poolBegin ≤ page)
    (h2 : page < poolEnd) : m.addPage r page addr flags =
      .ok ((m.setRef page (u32 (m.ref page + 1))).store s (ppn2pte page (pteV ||| flags)), 0) := by
  have hload : ∀ n, (m.setRef page n).load s = m.load s := fun _ => rfl
  rw [addPage, getPte_of_slot h hr hU hs, ok_bind]
  simp only [replacePage, hload, hv, ok_bind, page2ppn_eq h1 h2]
  rfl

/-- What is written is not data. -/
theorem Written.of_store (h : Tables m R U D F) (hr : r ∈ R) (hU : getGptx addr ∈ U)
    (hs : m.slot r addr = some s) (hmem : m'.mem = (m.store s v).mem) :
    Written m m' R U D r addr v := by
  refine ⟨fun r' hr' b hb => ?_, fun p hp => ?_⟩
  · rw [leaf_congr hmem, leaf_store h hr hU hs hr' hb]
  · have hne : p ≠ s.1 := by
      rintro rfl
      exact (h.leaf_notMem (slot_leaf hr hU hs).1).2 hp
    rw [hmem]
    exact Function.update_of_ne hne _ _

theorem Written.mono {D' : Set ℕ} (h : Written m m' R U D r addr v) (hsub : D' ⊆ D) :
    Written m m' R U D' r addr v :=
  ⟨h.leaf, fun p hp => h.data p (hsub hp)⟩

theorem Unchanged.written {m₁ : Mm} (h : Unchanged m m₁ R U D)
    (hw : Written m₁ m' R U D r addr v) : Written m m' R U D r addr v := by
  refine ⟨fun r' hr' b hb => ?_, fun p hp => (hw.data p hp).trans (h.data p hp)⟩
  rw [hw.leaf r' hr' b hb, h.leaf r' hr' b hb]

/-- **`alloc_page_gpte`** at an entry that maps no page maps the next page, or fails. -/
theorem allocPageGpte_eq (h : Tables m R U D F) (hr : r ∈ R) (hU : getGptx addr ∈ U)
    (hs : m.slot r addr = some s) (hv : ¬ isValid (m.load s)) (flags : ℕ) :
    (∃ m' p, m.allocPageGpte r addr flags = .ok (m', some p) ∧ p ∈ F ∧
      m.pmm.nextPages 1 = [p] ∧ Written m m' R U D r addr (ppn2pte p (pteV ||| flags))) ∨
    m.pmm.nextPages 1 = [] ∧ m.allocPageGpte r addr flags =
      if m.swapInit then .error (.panic "swap_out: g_test_vmm is NULL") else .ok (m, none) := by
  unfold allocPageGpte
  rcases allocPage_eq h.free with ⟨m₁, p, h1, hal, hnext⟩ | ⟨hnil, h1⟩
  · obtain ⟨h2, h3⟩ := h.free.mem_pool hal.mem_free
    have hs₁ : m₁.slot r addr = some s := by
      rw [← hs, slot, slot, child_congr hal.mem]
    have hv₁ : ¬ isValid (m₁.load s) := by rwa [load, hal.mem]
    refine Or.inl ⟨(m₁.setRef p (u32 (m₁.ref p + 1))).store s (ppn2pte p (pteV ||| flags)), p, ?_,
      hal.mem_free, hnext 0, ?_⟩
    · rw [h1, ok_bind]
      simp only
      rw [addPage_of_invalid (h.alloc hal) hr hU hs₁ hv₁ h2 h3, ok_bind]
      rfl
    · refine Written.of_store h hr hU hs ?_
      simp only [store, setRef_mem, hal.mem]
  · refine Or.inr ⟨hnil, ?_⟩
    rw [h1]
    split_ifs <;> rfl

/-! ### Reading a page back -/

/-- The entry names a page of the swap partition. -/
def Swapped (pte : ℕ) : Prop :=
  ¬ isValid pte ∧ 0 < pte >>> swapShift ∧ pte >>> swapShift < swapMaxOffset

/-- Writing to a page that was free changes no entry and no data page. -/
theorem unchanged_fill (h : Consistent m R U D F) {m₁ : Mm} (ha : Allocated m m₁ F page)
    (hmem : ∀ f, f ≠ page → m'.mem f = m₁.mem f) : Unchanged m m' R U D := by
  have h₁ := h.alloc ha
  refine ⟨fun r hr b hb => ?_, fun p hp => ?_⟩
  · rw [← leaf_congr ha.mem]
    have hwalk := h₁.walk_write (Set.mem_insert page D) hmem hr (tablePath_addr hb)
    have hslot : m'.slot r b = m₁.slot r b := by rw [slot, slot, hwalk]
    unfold leaf
    rw [hslot]
    cases hs : m₁.slot r b with
    | none => rfl
    | some s =>
      have hne : s.1 ≠ page := fun he =>
        (h₁.tables.leaf_notMem (slot_leaf hr hb hs).1).2 (he ▸ Set.mem_insert page D)
      rw [Option.map_some, Option.map_some, load, load, hmem _ hne]
  · have hne : p ≠ page := by
      rintro rfl
      exact (h.tables.data p hp).2.2 ha.mem_free
    rw [hmem p hne, ha.mem]

/-- **`swap_in`** reads the page that the entry names into the next page, or stops the kernel. -/
theorem swapIn_eq (h : Consistent m R U D F) (hr : r ∈ R) (hU : getGptx addr ∈ U)
    (hs : m.slot r addr = some s) (hswap : m.swapInit = true) (ide : ℕ → ℕ → ℕ) :
    ((Swapped (m.load s) ∧ m.Available 1) ∧ ∃ m₁ p, swapIn m r addr ide =
      .ok ({ m₁ with mem := Function.update m₁.mem p (ide (m.load s >>> swapShift)) }, p) ∧
      Allocated m m₁ F p) ∨
    ¬ (Swapped (m.load s) ∧ m.Available 1) ∧ ∀ x, swapIn m r addr ide ≠ .ok x := by
  unfold swapIn
  rcases allocPage_eq h.tables.free with ⟨m₁, p, h1, hal, hnext⟩ | ⟨hnil, h1⟩
  · obtain ⟨hlo, hhi⟩ := h.tables.free.mem_pool hal.mem_free
    have hone : m.pmm.nextPages 1 = [p] := hnext 0
    have hav : m.Available 1 ↔ p * pageSize < dramEndPa := by
      unfold Available
      rw [hone]
      simp
    have hs₁ : m₁.slot r addr = some s := by
      rw [← hs, slot, slot, child_congr hal.mem]
    have hload : m₁.load s = m.load s := by rw [load, load, hal.mem]
    rw [h1, ok_bind]
    simp only [getPte_false (h.alloc hal).tables hr hU, hs₁, ok_bind, hload]
    by_cases hc : Swapped (m.load s) ∧ m.Available 1
    · obtain ⟨⟨hv, ho⟩, ha⟩ := hc
      refine Or.inl ⟨⟨⟨hv, ho⟩, ha⟩, m₁, p, ?_, hal⟩
      rw [assert_of hv, ok_bind, page2va_eq hlo (hav.1 ha), ok_bind, swapOffset, assert_of ho]
      rfl
    · refine Or.inr ⟨hc, fun x he => hc ?_⟩
      -- the three checks of the function are the three parts of the condition
      obtain ⟨_, hv, he⟩ := bind_eq_ok.1 he
      obtain ⟨va, hva, he⟩ := bind_eq_ok.1 he
      obtain ⟨o, ho, -⟩ := bind_eq_ok.1 he
      obtain ⟨_, ho, -⟩ := bind_eq_ok.1 ho
      exact ⟨⟨assert_eq_ok.1 hv, assert_eq_ok.1 ho⟩, hav.2 ((page2va_sat p).of_ok hva).2.2.2⟩
  · refine Or.inr ⟨fun hc => by simpa [hnil] using hc.2.1, fun x he => ?_⟩
    rw [h1, if_pos hswap] at he
    cases he

end Mm

/-! ### The handler -/

variable {m : Mm} {R U D F : Set ℕ} {r addr : ℕ} {vmm : VmManager} {vma : Vma}

/-- The areas are in order, and they and the page table belong to the address spaces `R`, `U`. -/
structure Attached (vmm : VmManager) (R U : Set ℕ) : Prop where
  sorted : VmaSorted vmm.vmaList
  curr : ∀ v ∈ vmm.vmaCurr, v ∈ vmm.vmaList
  root : ∃ r ∈ R, vmm.pGpt = some r
  index : ∀ v ∈ vmm.vmaList, ∀ a, v.holds a → getGptx a ∈ U

/-- The page of the address has the indices of the address. -/
theorem indices_rounddown (addr : ℕ) : indices (rounddown addr pageSize) = indices addr := by
  simp only [indices, getGptx_eq, getMptx_eq, getPtx_eq, rounddown, pageSize_eq, Prod.mk.injEq]
  omega

/-- `handle_page_fault` from the leaf entry on. -/
def faultEntry (m : Mm) (vmm : VmManager) (gpt addr flags : ℕ) (ide : ℕ → ℕ → ℕ) :
    Res (Mm × VmManager × ℤ) := do
  match ← m.getPte gpt addr true with
  | (_, none) => .error (.panic "p_pte is NULL")
  | (m, some p) =>
    if m.load p = 0 then
      match ← m.allocPageGpte gpt addr flags with
      | (m, none) => return (m, vmm, -eNoMem)
      | (m, some _) => return (m, vmm, 0)
    else if m.swapInit then
      let (m, page) ← swapIn m gpt addr ide
      let (m, _) ← m.addPage gpt page addr flags
      return (m, vmm, 0)
    else return (m, vmm, -eNoMem)

/-- An address outside the areas is refused. -/
theorem handlePageFault_none (h : Attached vmm R U) (hnone : ∀ v ∈ vmm.vmaList, ¬ v.holds addr)
    (ide : ℕ → ℕ → ℕ) : ∃ c, handlePageFault m vmm addr ide =
      .ok (m, { vmm with vmaCurr := c }, -eInval) := by
  obtain ⟨c, hc, -⟩ := findVma_curr vmm addr
  have hfind : (findVma vmm addr).2 = none := by
    by_contra hne
    obtain ⟨v, hv⟩ := Option.ne_none_iff_exists'.1 hne
    obtain ⟨hmem, hholds⟩ := (findVma_eq_some h.sorted h.curr).1 hv
    exact hnone v hmem hholds
  refine ⟨c, ?_⟩
  unfold handlePageFault
  rw [← hc]
  simp only [hfind]
  rfl

/-- At an address of an area the leaf entry decides. -/
theorem handlePageFault_some (h : Attached vmm R U) (hgpt : vmm.pGpt = some r)
    (hmem : vma ∈ vmm.vmaList) (hholds : vma.holds addr) (ide : ℕ → ℕ → ℕ) :
    ∃ c, handlePageFault m vmm addr ide = faultEntry m { vmm with vmaCurr := c } r
      (rounddown addr pageSize) (faultFlags vma) ide := by
  obtain ⟨c, hc, -⟩ := findVma_curr vmm addr
  have hfind := (findVma_eq_some h.sorted h.curr).2 ⟨hmem, hholds⟩
  have hstart : ¬ vma.vmStart > addr := by
    simp only [Vma.holds, decide_eq_true_eq] at hholds
    omega
  refine ⟨c, ?_⟩
  unfold handlePageFault
  simp only [hfind, hc, hstart, if_false, VmManager.gpt, hgpt, ok_bind]
  rfl

namespace Mm

/-- There are pages for `k` tables, and one more. -/
def Room (m : Mm) (k : ℕ) : Prop := m.Available k ∧ (m.pmm.nextPages (k + 1)).length = k + 1

theorem Created.room_iff {m m' : Mm} {N : Set ℕ} {k : ℕ} (h : Created m m' R U D F r k N)
    (hk : m.Available k) : m.Room k ↔ (m'.pmm.nextPages 1).length = 1 := by
  unfold Room
  rw [h.next, List.length_append, hk.1]
  constructor
  · rintro ⟨-, h1⟩
    omega
  · intro h1
    exact ⟨hk, by omega⟩

/-- **First touch** : a fresh page is mapped; the call fails when only tables could be had, and
the kernel stops when not even they could, or when it would have to swap. -/
theorem faultEntry_empty (h : Consistent m R U D F) (hr : r ∈ R) (hU : getGptx addr ∈ U)
    (h0 : m.leaf r addr = 0) (vmm : VmManager) (flags : ℕ) (ide : ℕ → ℕ → ℕ) :
    (m.Room (m.missing r addr) ∧ ∃ m' p, faultEntry m vmm r addr flags ide = .ok (m', vmm, 0) ∧
      p ∈ F ∧ Written m m' R U D r addr (ppn2pte p (pteV ||| flags))) ∨
    (¬ m.Room (m.missing r addr) ∧ m.Available (m.missing r addr) ∧ m.swapInit = false ∧
      ∃ m', faultEntry m vmm r addr flags ide = .ok (m', vmm, -eNoMem) ∧ Unchanged m m' R U D) ∨
    ¬ m.Room (m.missing r addr) ∧ (m.Available (m.missing r addr) → m.swapInit = true) ∧
      ∀ x, faultEntry m vmm r addr flags ide ≠ .ok x := by
  unfold faultEntry
  rcases getPte_eq h.tables hr hU with ⟨ha, m₁, N, s, h1, hc, hs⟩ | ⟨ha, h1⟩
  · have hload : m₁.load s = 0 := by rw [← leaf_of_slot hs, hc.leaf r hr addr hU, h0]
    have hv : ¬ isValid (m₁.load s) := by
      rw [hload, isValid_zero]
      exact Bool.false_ne_true
    have hun := hc.unchanged h.tables
    rw [h1, ok_bind]
    simp only [hload, if_true]
    rcases allocPageGpte_eq hc.grown.tables hr hU hs hv flags with
      ⟨m₂, p, h2, hp, hnext, hw⟩ | ⟨hnil, h2⟩
    · refine Or.inl ⟨(hc.room_iff ha).2 (by rw [hnext]; rfl), m₂, p, ?_, hp.1, hun.written hw⟩
      rw [h2]
      rfl
    · have hroom : ¬ m.Room (m.missing r addr) := by
        rw [hc.room_iff ha, hnil]
        simp
      rw [h2, hc.grown.swapInit]
      cases m.swapInit with
      | false => exact Or.inr (Or.inl ⟨hroom, ha, rfl, m₁, rfl, hun⟩)
      | true => exact Or.inr (Or.inr ⟨hroom, fun _ => rfl, fun x he => by cases he⟩)
  · refine Or.inr (Or.inr ⟨fun hroom => ha hroom.1, fun ha' => absurd ha' ha, fun x he => ?_⟩)
    obtain ⟨⟨m₁, o⟩, h2, he⟩ := bind_eq_ok.1 he
    cases o with
    | none => cases he
    | some s => exact h1 m₁ s h2

/-- **An entry with content** : a swapped page is read back; with swapping on the kernel stops at
any other content, and without it the call fails. -/
theorem faultEntry_used (h : Consistent m R U D F) (hr : r ∈ R) (hU : getGptx addr ∈ U)
    (h0 : m.leaf r addr ≠ 0) (vmm : VmManager) (flags : ℕ) (ide : ℕ → ℕ → ℕ) :
    (m.swapInit = false ∧ faultEntry m vmm r addr flags ide = .ok (m, vmm, -eNoMem)) ∨
    m.swapInit = true ∧
      (((Swapped (m.leaf r addr) ∧ m.Available 1) ∧ ∃ m' p,
        faultEntry m vmm r addr flags ide = .ok (m', vmm, 0) ∧ p ∈ F ∧
        Written m m' R U D r addr (ppn2pte p (pteV ||| flags))) ∨
      ¬ (Swapped (m.leaf r addr) ∧ m.Available 1) ∧
        ∀ x, faultEntry m vmm r addr flags ide ≠ .ok x) := by
  obtain ⟨s, hs⟩ := slot_of_leaf h0
  rw [leaf_of_slot hs] at h0 ⊢
  unfold faultEntry
  rw [getPte_of_slot h.tables hr hU hs, ok_bind]
  simp only [h0, if_false]
  cases hswap : m.swapInit with
  | false => exact Or.inl ⟨rfl, by simp only [Bool.false_eq_true, if_false]; rfl⟩
  | true =>
    refine Or.inr ⟨rfl, ?_⟩
    simp only [if_true]
    rcases swapIn_eq h hr hU hs hswap ide with ⟨hc, m₁, p, h1, hal⟩ | ⟨hc, h1⟩
    · obtain ⟨m₂, hm₂⟩ : ∃ m₂ : Mm, m₂ = { m₁ with
        mem := Function.update m₁.mem p (ide (m.load s >>> swapShift)) } := ⟨_, rfl⟩
      have hmem : ∀ f, f ≠ p → m₂.mem f = m₁.mem f := by
        intro f hf
        rw [hm₂]
        exact Function.update_of_ne hf _ _
      have hpmm : m₂.pmm = m₁.pmm := by rw [hm₂]
      have h₂ := (h.alloc hal).write (Set.mem_insert p D) hmem hpmm
      have hun := unchanged_fill h hal hmem
      obtain ⟨hlo, hhi⟩ := h.tables.free.mem_pool hal.mem_free
      -- the entry is where it was, with the content that it had
      have hs₂ : m₂.slot r addr = some s := by
        rw [← hs, slot, slot, (h.alloc hal).walk_write (Set.mem_insert p D) hmem hr
          (tablePath_addr hU), child_congr hal.mem]
      have hv₂ : ¬ isValid (m₂.load s) := by
        rw [← leaf_of_slot hs₂, hun.leaf r hr addr hU, leaf_of_slot hs]
        exact hc.1.1
      have hw : Written m₂ ((m₂.setRef p (u32 (m₂.ref p + 1))).store s
          (ppn2pte p (pteV ||| flags))) R U (insert p D) r addr (ppn2pte p (pteV ||| flags)) :=
        Written.of_store h₂.tables hr hU hs₂ rfl
      refine Or.inl ⟨hc, _, p, ?_, hal.mem_free, hun.written (hw.mono (Set.subset_insert p D))⟩
      rw [h1, ← hm₂, ok_bind]
      simp only
      rw [addPage_of_invalid h₂.tables hr hU hs₂ hv₂ hlo hhi]
      rfl
    · refine Or.inr ⟨hc, fun x he => ?_⟩
      obtain ⟨y, hy, -⟩ := bind_eq_ok.1 he
      exact h1 y hy

end Mm

/-- `handle_page_fault`, where the `vm_manager` may be `NULL`: `find_vma` finds no area then. -/
def pageFault (m : Mm) (vmm : Option VmManager) (addr : ℕ) (ide : ℕ → ℕ → ℕ) :
    Res (Mm × Option VmManager × ℤ) :=
  match vmm with
  | none => .ok (m, none, -eInval)
  | some vmm => do
    let (m, vmm, ret) ← handlePageFault m vmm addr ide
    return (m, some vmm, ret)

/-- The fault can be repaired: an area holds the address, and its page can be given a frame, or be
read back from the swap partition. -/
def Repairable (m : Mm) (vmm : Option VmManager) (addr : ℕ) : Prop :=
  ∃ v ∈ vmm, (∃ vma ∈ v.vmaList, vma.holds addr) ∧ ∃ r, v.pGpt = some r ∧
    (m.leaf r addr = 0 ∧ m.Room (m.missing r addr) ∨
      m.swapInit = true ∧ Mm.Swapped (m.leaf r addr) ∧ m.Available 1)

/-- What `handle_page_fault` should do with any fault: repair it and map the page, or return an
error and leave the address space alone. -/
def FaultHandled (m : Mm) (vmm : Option VmManager) (addr : ℕ) (ide : ℕ → ℕ → ℕ)
    (R U D : Set ℕ) : Prop :=
  ∃ m' vmm' ret, pageFault m vmm addr ide = .ok (m', vmm', ret) ∧
    vmm'.map (fun v => { v with vmaCurr := none }) = vmm.map (fun v => { v with vmaCurr := none }) ∧
    ((¬ Repairable m vmm addr ∧ ret < 0 ∧ m.Unchanged m' R U D) ∨
      Repairable m vmm addr ∧ ret = 0 ∧ ∃ v ∈ vmm, ∃ r pte, v.pGpt = some r ∧ isValid pte ∧
        m.Written m' R U D r addr pte)

/-- Where an area holds the address, pages for the missing tables can be had, and with swapping on
also one for the page; and with swapping on an entry with content names a swapped page. -/
def Survivable (m : Mm) (vmm : Option VmManager) (addr : ℕ) : Prop :=
  ∀ v ∈ vmm, (∃ vma ∈ v.vmaList, vma.holds addr) → ∀ r, v.pGpt = some r →
    m.Available (m.missing r addr) ∧ (m.swapInit = true →
      (m.leaf r addr = 0 → m.Room (m.missing r addr)) ∧
      (m.leaf r addr ≠ 0 → Mm.Swapped (m.leaf r addr) ∧ m.Available 1))

theorem swapped_ne_zero {pte : ℕ} (h : Mm.Swapped pte) : pte ≠ 0 := by
  rintro rfl
  exact absurd h.2.1 (by decide)

/-- `handle_page_fault` fails: nothing has happened. -/
theorem FaultHandled.refused {m' : Mm} {ide : ℕ → ℕ → ℕ} {c : Option Vma} {e : ℤ} (he : e < 0)
    (hres : handlePageFault m vmm addr ide = .ok (m', { vmm with vmaCurr := c }, e))
    (hun : m.Unchanged m' R U D) (hnot : ¬ Repairable m (some vmm) addr) :
    FaultHandled m (some vmm) addr ide R U D := by
  refine ⟨m', some { vmm with vmaCurr := c }, e, ?_, rfl, Or.inl ⟨hnot, he, hun⟩⟩
  rw [pageFault, hres]
  rfl

/-- `handle_page_fault` succeeds: the page is mapped. -/
theorem FaultHandled.repaired {m' : Mm} {ide : ℕ → ℕ → ℕ} {c : Option Vma} {pte : ℕ}
    (hres : handlePageFault m vmm addr ide = .ok (m', { vmm with vmaCurr := c }, 0))
    (hgpt : vmm.pGpt = some r) (hv : isValid pte) (hw : m.Written m' R U D r addr pte)
    (hrep : Repairable m (some vmm) addr) : FaultHandled m (some vmm) addr ide R U D := by
  refine ⟨m', some { vmm with vmaCurr := c }, 0, ?_, rfl,
    Or.inr ⟨hrep, rfl, vmm, rfl, r, pte, hgpt, hv, hw⟩⟩
  rw [pageFault, hres]
  rfl

/-- `handle_page_fault` does not come back. -/
theorem not_faultHandled {ide : ℕ → ℕ → ℕ} (h : ∀ x, handlePageFault m vmm addr ide ≠ .ok x) :
    ¬ FaultHandled m (some vmm) addr ide R U D := by
  rintro ⟨m', vmm', ret, hres, -⟩
  obtain ⟨x, hx, -⟩ := bind_eq_ok.1 hres
  exact h x hx

theorem rounddown_unchanged {m' : Mm} {pte : ℕ}
    (h : m.Written m' R U D r (rounddown addr pageSize) pte) : m.Written m' R U D r addr pte := by
  refine ⟨fun r' hr' b hb => ?_, h.data⟩
  rw [h.leaf r' hr' b hb, indices_rounddown]

/-- **A page fault is handled just where it can be survived.** -/
theorem page_fault_handled_iff (h : m.Consistent R U D F) {vmm : Option VmManager}
    (hvmm : ∀ v ∈ vmm, Attached v R U) (addr : ℕ) (ide : ℕ → ℕ → ℕ) :
    FaultHandled m vmm addr ide R U D ↔ Survivable m vmm addr := by
  cases vmm with
  | none =>
    refine iff_of_true ⟨m, none, -eInval, rfl, rfl, Or.inl ⟨?_, by decide, ?_⟩⟩ ?_
    · rintro ⟨v, hv, -⟩
      cases hv
    · exact ⟨fun _ _ _ _ => rfl, fun _ _ => rfl⟩
    · intro v hv
      cases hv
  | some vmm =>
    have hatt := hvmm vmm rfl
    by_cases hex : ∃ vma ∈ vmm.vmaList, vma.holds addr
    · obtain ⟨vma, hmem, hholds⟩ := hex
      obtain ⟨r, hr, hgpt⟩ := hatt.root
      have hind := indices_rounddown addr
      have hU : getGptx (rounddown addr pageSize) ∈ U := by
        rw [show getGptx (rounddown addr pageSize) = getGptx addr from congrArg Prod.fst hind]
        exact hatt.index vma hmem addr hholds
      have hleaf : m.leaf r (rounddown addr pageSize) = m.leaf r addr := by
        rw [Mm.leaf, Mm.slot_congr_indices hind, Mm.leaf]
      have hmiss : m.missing r (rounddown addr pageSize) = m.missing r addr := by
        simp only [indices, Prod.mk.injEq] at hind
        rw [Mm.missing, Mm.missing, hind.1, hind.2.1]
      obtain ⟨c, hc⟩ := handlePageFault_some (m := m) hatt hgpt hmem hholds ide
      have hrep : Repairable m (some vmm) addr ↔ (m.leaf r addr = 0 ∧ m.Room (m.missing r addr) ∨
          m.swapInit = true ∧ Mm.Swapped (m.leaf r addr) ∧ m.Available 1) := by
        constructor
        · rintro ⟨v, ⟨⟩, -, r', hr', h1⟩
          obtain rfl := Option.some.inj (hgpt.symm.trans hr')
          exact h1
        · exact fun h1 => ⟨vmm, rfl, ⟨vma, hmem, hholds⟩, r, hgpt, h1⟩
      have hsur : Survivable m (some vmm) addr ↔ m.Available (m.missing r addr) ∧
          (m.swapInit = true → (m.leaf r addr = 0 → m.Room (m.missing r addr)) ∧
            (m.leaf r addr ≠ 0 → Mm.Swapped (m.leaf r addr) ∧ m.Available 1)) := by
        constructor
        · exact fun h1 => h1 vmm rfl ⟨vma, hmem, hholds⟩ r hgpt
        · rintro h1 v ⟨⟩ - r' hr'
          obtain rfl := Option.some.inj (hgpt.symm.trans hr')
          exact h1
      have hvalid : ∀ p ∈ F, isValid (ppn2pte p (pteV ||| faultFlags vma)) := by
        intro p hp
        have hlt := (h.tables.free.mem_pool hp).2
        rw [poolEnd_eq] at hlt
        exact (isValid_ppn2pte (by omega) (pteV_or (faultFlags_lt vma)).1).2
          (pteV_or (faultFlags_lt vma)).2
      rw [hsur]
      by_cases h0 : m.leaf r addr = 0
      · -- nothing is swapped out here
        have hns : ¬ Mm.Swapped (m.leaf r addr) := fun hsw => swapped_ne_zero hsw h0
        have hfault := Mm.faultEntry_empty h hr hU (hleaf.trans h0) { vmm with vmaCurr := c }
          (faultFlags vma) ide
        rw [hmiss, ← hc] at hfault
        rcases hfault with ⟨hroom, m', p, hres, hp, hw⟩ |
          ⟨hroom, ha, hswap, m', hres, hun⟩ | ⟨hroom, ha, hres⟩
        · exact iff_of_true (.repaired hres hgpt (hvalid p hp) (rounddown_unchanged hw)
            (hrep.2 (Or.inl ⟨h0, hroom⟩))) ⟨hroom.1, fun _ => ⟨fun _ => hroom, fun hne =>
              absurd h0 hne⟩⟩
        · refine iff_of_true (.refused (by decide) hres hun fun h1 => ?_)
            ⟨ha, fun hs => absurd hs (by rw [hswap]; decide)⟩
          rcases hrep.1 h1 with ⟨-, h2⟩ | ⟨-, h2, -⟩
          · exact hroom h2
          · exact hns h2
        · exact iff_of_false (not_faultHandled hres) fun h1 =>
            hroom ((h1.2 (ha h1.1)).1 h0)
      · obtain ⟨s, hs⟩ := Mm.slot_of_leaf h0
        have hnone : m.Available (m.missing r addr) := by
          rw [Mm.missing_of_slot hs]
          exact Mm.available_zero m
        have hfault := Mm.faultEntry_used h hr hU (fun h1 => h0 (hleaf.symm.trans h1))
          { vmm with vmaCurr := c } (faultFlags vma) ide
        rw [hleaf, ← hc] at hfault
        rcases hfault with ⟨hswap, hres⟩ | ⟨hswap, ⟨hsw, m', p, hres, hp, hw⟩ | ⟨hsw, hres⟩⟩
        · refine iff_of_true (.refused (by decide) hres ⟨fun _ _ _ _ => rfl, fun _ _ => rfl⟩
            fun h1 => ?_) ⟨hnone, fun hs => absurd hs (by rw [hswap]; decide)⟩
          rcases hrep.1 h1 with ⟨h2, -⟩ | ⟨h2, -⟩
          · exact h0 h2
          · exact absurd h2 (by rw [hswap]; decide)
        · exact iff_of_true (.repaired hres hgpt (hvalid p hp) (rounddown_unchanged hw)
            (hrep.2 (Or.inr ⟨hswap, hsw⟩))) ⟨hnone, fun _ => ⟨fun h1 => absurd h1 h0, fun _ => hsw⟩⟩
        · exact iff_of_false (not_faultHandled hres) fun h1 => hsw ((h1.2 hswap).2 h0)
    · obtain ⟨c, hc⟩ := handlePageFault_none (m := m) hatt
        (fun v hv hh => hex ⟨v, hv, hh⟩) ide
      refine iff_of_true (.refused (by decide) hc ⟨fun _ _ _ _ => rfl, fun _ _ => rfl⟩ ?_) ?_
      · rintro ⟨v, ⟨⟩, hv, -⟩
        exact hex hv
      · rintro v ⟨⟩ hv
        exact absurd hv hex

/-- An area of one page at `USER_BEGIN`, and its address space. -/
def onePage (flags : ℕ) : VmManager where
  frame := 0x82008
  vmaList := [⟨0x82009, userBegin, userBegin + pageSize, flags⟩]
  vmaCurr := none
  pGpt := some 0x80100
  vmaCount := 1
  useCount := 0

theorem onePage_attached (flags : ℕ) : Attached (onePage flags) {0x80100} userEntries := by
  refine ⟨by simp [VmaSorted, Spans.Sorted, onePage], by simp [onePage], ⟨0x80100, rfl, rfl⟩, ?_⟩
  intro v hv a ha
  obtain rfl := List.mem_singleton.1 hv
  refine getGptx_user ?_
  simp only [Vma.holds, decide_eq_true_eq, userBegin, pageSize_eq, userEnd] at ha ⊢
  omega

theorem emptyTables_consistent : ∃ F, emptyTables.mm.Consistent {0x80100} userEntries ∅ F :=
  pageTables_consistent ⟨[], .start (emptyTables_init (by simp))⟩

/-- The first fault in an empty address space is repaired. -/
theorem page_fault_handled_first : FaultHandled emptyTables.mm (some (onePage vmaWrite)) userBegin
    (fun _ _ => 0) {0x80100} userEntries ∅ := by
  obtain ⟨F, h⟩ := emptyTables_consistent
  refine (page_fault_handled_iff h ?_ userBegin fun _ _ => 0).2 ?_
  · rintro v ⟨⟩
    exact onePage_attached vmaWrite
  · rintro v ⟨⟩ - r hr
    obtain rfl := Option.some.inj hr
    exact ⟨⟨rfl, by decide⟩, fun hs => by cases hs⟩

/-- A page is mapped for an area, swapping is on, and the page is accessed again in a way that its
entry does not permit: `swap_in` finds a valid entry, and its assertion stops the kernel. -/
theorem valid_entry_fault : ∃ m D F, m.Consistent {0x80100} userEntries D F ∧
    m.swapInit = true ∧
    m.entry 0x80100 userBegin = some (ppn2pte 0x82000 (pteV ||| faultFlags
      ⟨0x82009, userBegin, userBegin + pageSize, vmaWrite⟩)) ∧
    handlePageFault m (onePage vmaWrite) userBegin (fun _ _ => 0) =
      .error (.assertion "!(*p_pte & PTE_V)") ∧
    ¬ FaultHandled m (some (onePage vmaWrite)) userBegin (fun _ _ => 0) {0x80100} userEntries D := by
  obtain ⟨F, h⟩ := emptyTables_consistent
  have hswap : ({ emptyTables.mm with swapInit := true } : Mm).Consistent {0x80100} userEntries ∅ F :=
    ⟨⟨h.tables.free, h.tables.separated, h.tables.table, h.tables.data, h.tables.mapped⟩, h.refs,
      h.unused⟩
  obtain ⟨m, hm, hs, he, hf⟩ : ∃ m, ({ emptyTables.mm with swapInit := true } : Mm).allocPageGpte
      0x80100 userBegin (pteR ||| pteW) = .ok (m, some 0x82000) ∧ m.swapInit = true ∧
      m.entry 0x80100 userBegin = some (ppn2pte 0x82000 (pteV ||| faultFlags
        ⟨0x82009, userBegin, userBegin + pageSize, vmaWrite⟩)) ∧
      handlePageFault m (onePage vmaWrite) userBegin (fun _ _ => 0) =
        .error (.assertion "!(*p_pte & PTE_V)") := ⟨_, rfl, rfl, rfl, rfl⟩
  have hU : getGptx userBegin ∈ userEntries := getGptx_user (by decide)
  obtain ⟨-, F', hF'⟩ := (Mm.allocPageGpte_effect hswap rfl hU
    (show pteR ||| pteW < 1024 by decide)).of_ok hm
  exact ⟨m, _, F', hF'.consistent, hs, he, hf, not_faultHandled fun x hx => by
    rw [hf] at hx
    cases hx⟩

/-! ### The permissions of a faulted page -/

/-- The entry is a leaf that lets user mode do what the area permits. -/
structure UserLeaf (vma : Vma) (pte : ℕ) : Prop where
  valid : pteFlags pte &&& pteV ≠ 0
  user : pteFlags pte &&& pteU ≠ 0
  read : vma.vmFlags &&& (vmaRead ||| vmaWrite) ≠ 0 → pteFlags pte &&& pteR ≠ 0
  write : pteFlags pte &&& pteW ≠ 0 ↔ vma.vmFlags &&& vmaWrite ≠ 0
  exec : pteFlags pte &&& pteX ≠ 0 ↔ vma.vmFlags &&& vmaExec ≠ 0

/-- **No page that comes in by a fault is accessible to user mode** : however it comes in, its entry
has `PTE_V`, and `PTE_R` and `PTE_W` if the area is writable, but never `PTE_U`. -/
theorem faulted_page_not_user (h : m.Consistent R U D F) (hatt : Attached vmm R U)
    (hgpt : vmm.pGpt = some r) (hmem : vma ∈ vmm.vmaList) (hholds : vma.holds addr)
    {ide : ℕ → ℕ → ℕ} {m' : Mm} {vmm' : VmManager}
    (hres : handlePageFault m vmm addr ide = .ok (m', vmm', 0)) :
    pteFlags (m'.leaf r addr) = pteV ||| faultFlags vma ∧ ¬ UserLeaf vma (m'.leaf r addr) := by
  have hr : r ∈ R := by
    obtain ⟨r', hr', h1⟩ := hatt.root
    rwa [Option.some.inj (hgpt.symm.trans h1)]
  have hU : getGptx (rounddown addr pageSize) ∈ U := by
    rw [show getGptx (rounddown addr pageSize) = getGptx addr from
      congrArg Prod.fst (indices_rounddown addr)]
    exact hatt.index vma hmem addr hholds
  obtain ⟨c, hc⟩ := handlePageFault_some hatt hgpt hmem hholds ide
  -- on both paths the entry gets the same permissions
  have hw : ∃ p ∈ F, m.Written m' R U D r (rounddown addr pageSize)
      (ppn2pte p (pteV ||| faultFlags vma)) := by
    rw [hc] at hres
    by_cases h0 : m.leaf r (rounddown addr pageSize) = 0
    · rcases Mm.faultEntry_empty h hr hU h0 { vmm with vmaCurr := c } (faultFlags vma) ide with
        ⟨-, m₁, p, h1, hp, hw⟩ | ⟨-, -, -, m₁, h1, -⟩ | ⟨-, -, h1⟩
      · rw [h1] at hres
        obtain ⟨rfl, -⟩ := Prod.mk.inj (Except.ok.inj hres)
        exact ⟨p, hp, hw⟩
      · rw [h1] at hres
        cases hres
      · exact absurd hres (h1 _)
    · rcases Mm.faultEntry_used h hr hU h0 { vmm with vmaCurr := c } (faultFlags vma) ide with
        ⟨-, h1⟩ | ⟨-, ⟨-, m₁, p, h1, hp, hw⟩ | ⟨-, h1⟩⟩
      · rw [h1] at hres
        cases hres
      · rw [h1] at hres
        obtain ⟨rfl, -⟩ := Prod.mk.inj (Except.ok.inj hres)
        exact ⟨p, hp, hw⟩
      · exact absurd hres (h1 _)
  obtain ⟨p, hp, hw⟩ := hw
  have hlt := (h.tables.free.mem_pool hp).2
  rw [poolEnd_eq] at hlt
  have hflags : pteFlags (m'.leaf r addr) = pteV ||| faultFlags vma := by
    rw [(rounddown_unchanged hw).leaf r hr addr (hatt.index vma hmem addr hholds),
      if_pos ⟨rfl, rfl⟩, pteFlags_ppn2pte (by omega) (pteV_or (faultFlags_lt vma)).1]
  refine ⟨hflags, fun hleaf => hleaf.user ?_⟩
  rw [hflags]
  exact faultFlags_not_user vma

/-- A write to a writable area: the page is mapped, but not for the process that has written. -/
theorem first_touch_not_user : ∃ m' vmm', handlePageFault emptyTables.mm
    (onePage (vmaRead ||| vmaWrite)) userBegin (fun _ _ => 0) = .ok (m', vmm', 0) ∧
    pteFlags (m'.leaf 0x80100 userBegin) = pteV ||| pteR ||| pteW ∧
    ¬ UserLeaf ⟨0x82009, userBegin, userBegin + pageSize, vmaRead ||| vmaWrite⟩
      (m'.leaf 0x80100 userBegin) := by
  obtain ⟨m', vmm', hres, hflags⟩ : ∃ m' vmm', handlePageFault emptyTables.mm
    (onePage (vmaRead ||| vmaWrite)) userBegin (fun _ _ => 0) = .ok (m', vmm', 0) ∧
    pteFlags (m'.leaf 0x80100 userBegin) = pteV ||| pteR ||| pteW := ⟨_, _, rfl, rfl⟩
  refine ⟨m', vmm', hres, hflags, fun hleaf => hleaf.user ?_⟩
  rw [hflags]
  decide

/-- The theorem at that fault. -/
theorem faulted_page_not_user_first : ∃ m' vmm', handlePageFault emptyTables.mm
    (onePage (vmaRead ||| vmaWrite)) userBegin (fun _ _ => 0) = .ok (m', vmm', 0) ∧
    ¬ UserLeaf ⟨0x82009, userBegin, userBegin + pageSize, vmaRead ||| vmaWrite⟩
      (m'.leaf 0x80100 userBegin) := by
  obtain ⟨m', vmm', hres⟩ : ∃ m' vmm', handlePageFault emptyTables.mm
    (onePage (vmaRead ||| vmaWrite)) userBegin (fun _ _ => 0) = .ok (m', vmm', 0) := ⟨_, _, rfl⟩
  obtain ⟨F, h⟩ := emptyTables_consistent
  exact ⟨m', vmm', hres, (faulted_page_not_user h (onePage_attached _) rfl
    (List.mem_singleton_self _) (by decide) hres).2⟩

end GarretOS
