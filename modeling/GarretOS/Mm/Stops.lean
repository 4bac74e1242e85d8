import GarretOS.Mm.Vmm

/-!
# The assertions of memory management

The conditions of the assertions in the functions on pages, page tables and areas
(`mmAssertions`).  No other assertion stops such a function: one lemma for each function, up to
`vmMap_avoids`, `allocPageGpte_avoids` and `teardown_avoids`.
-/

namespace GarretOS

/-- The conditions of the assertions that the functions on memory may fail. -/
def mmAssertions : List String := [
  "n > 0",
  "(p->flags & (PAGE_RESERVED | PAGE_PROPERTY)) == 0",
  "ppn >= g_num_qemu_pages + g_num_kernel_pages && ppn < g_num_qemu_pages + g_num_kernel_pages + g_num_free_pages",
  "pa > DRAM_BEGIN_PA && pa < DRAM_END_PA",
  "pte & PTE_V",
  "num_pages > 0 && num_pages < g_num_free_pages",
  "vma_prev->vm_start < vma_prev->vm_end",
  "vma_prev->vm_end <= vma_next->vm_start",
  "vma_next->vm_start < vma_next->vm_end",
  "vma->vm_start < vma->vm_end",
  "start % PAGE_SIZE == 0 && end % PAGE_SIZE == 0",
  "user_access(start, end)",
  "vmm != NULL && vmm->use_count == 0"]

section

variable {C : List String} (hC : ∀ c ∈ mmAssertions, c ∉ C)
include hC

theorem mm_assert {c : Prop} {_ : Decidable c} (cond : String) (h : cond ∈ mmAssertions) :
    Avoids C (assert c cond) :=
  avoids_assert fun hc => absurd hc (hC cond h)

/-! ### The allocator -/

namespace BestFit

omit hC in
theorem findBest_avoids (s : BestFit) (n k : ℕ) (l : FreeLink) (page : Option ℕ) (m : ℕ) :
    Avoids C (s.findBest n k l page m) := by
  induction k generalizing l page m with
  | zero => exact avoids_diverges
  | succ k ih =>
    unfold findBest
    split
    · exact avoids_ok
    · split_ifs
      · exact ih _ _ _
      · exact ih _ _ _

theorem bestFitAllocPages_avoids (s : BestFit) (n : ℕ) : Avoids C (s.bestFitAllocPages n) := by
  refine (mm_assert hC "n > 0" (by decide)).bind fun _ _ => ?_
  split_ifs
  · exact avoids_pure
  · refine (findBest_avoids s n _ _ _ _).bind ?_
    rintro (_ | page) -
    · exact avoids_pure
    · exact avoids_pure

theorem clearPages_avoids (base k : ℕ) (page : ℕ → Page) : Avoids C (clearPages base k page) := by
  induction k with
  | zero => exact avoids_ok
  | succ k ih =>
    exact ih.bind fun _ _ => (mm_assert hC "(p->flags & (PAGE_RESERVED | PAGE_PROPERTY)) == 0"
      (by decide)).bind fun _ _ => avoids_pure

omit hC in
theorem findPrev_avoids (s : BestFit) (base k : ℕ) (l : FreeLink) :
    Avoids C (s.findPrev base k l) := by
  induction k generalizing l with
  | zero => exact avoids_diverges
  | succ k ih =>
    unfold findPrev
    simp only
    split_ifs
    · exact ih _
    · exact avoids_ok

theorem bestFitFreePages_avoids (s : BestFit) (base n : ℕ) :
    Avoids C (s.bestFitFreePages base n) :=
  (mm_assert hC "n > 0" (by decide)).bind fun _ _ => (clearPages_avoids hC base n _).bind
    fun _ _ => (findPrev_avoids _ base _ _).bind fun _ _ => avoids_pure

end BestFit

/-! ### Pages -/

theorem page2ppn_avoids (page : ℕ) : Avoids C (page2ppn page) :=
  (mm_assert hC _ (by decide)).bind fun _ _ => avoids_pure

theorem page2va_avoids (page : ℕ) : Avoids C (page2va page) :=
  (page2ppn_avoids hC page).bind fun _ _ => (mm_assert hC _ (by decide)).bind fun _ _ => avoids_pure

theorem va2page_avoids (va : ℕ) : Avoids C (va2page va) :=
  (mm_assert hC _ (by decide)).bind fun _ _ => avoids_pure

theorem pte2page_avoids (pte : ℕ) : Avoids C (pte2page pte) :=
  (mm_assert hC _ (by decide)).bind fun _ _ => avoids_pure

theorem pte2va_avoids (pte : ℕ) : Avoids C (pte2va pte) :=
  (pte2page_avoids hC pte).bind fun _ _ => page2va_avoids hC _

namespace Mm

theorem allocPages_avoids (m : Mm) (n : ℕ) : Avoids C (m.allocPages n) := by
  refine (BestFit.bestFitAllocPages_avoids hC m.pmm n).bind ?_
  rintro ⟨a, page⟩ -
  simp only
  split_ifs
  · exact avoids_panic
  · exact avoids_pure

theorem freePage_avoids (m : Mm) (page : ℕ) : Avoids C (m.freePage page) :=
  (BestFit.bestFitFreePages_avoids hC m.pmm page 1).bind fun _ _ => avoids_pure

theorem malloc_avoids (m : Mm) (n : ℕ) : Avoids C (m.malloc n) := by
  refine (mm_assert hC "num_pages > 0 && num_pages < g_num_free_pages" (by decide)).bind
    fun _ _ => (allocPages_avoids hC m _).bind ?_
  rintro ⟨m, _ | page⟩ -
  · -- `page2va` of `NULL`
    intro c hc he
    cases he
    exact hC _ (by decide) hc
  · exact (page2va_avoids hC page).bind fun _ _ => avoids_pure

theorem free_avoids (m : Mm) (ptr n : ℕ) : Avoids C (m.free ptr n) :=
  (mm_assert hC "num_pages > 0 && num_pages < g_num_free_pages" (by decide)).bind fun _ _ =>
    (va2page_avoids hC ptr).bind fun page _ =>
      (BestFit.bestFitFreePages_avoids hC m.pmm page _).bind fun _ _ => avoids_pure

/-! ### Page tables -/

theorem ensureTable_avoids (m : Mm) (p : PtePtr) (b : Bool) : Avoids C (m.ensureTable p b) := by
  unfold ensureTable
  split_ifs
  · exact avoids_ok
  · refine (allocPages_avoids hC m 1).bind ?_
    rintro ⟨m, _ | page⟩ -
    · exact avoids_pure
    · exact (page2va_avoids hC page).bind fun _ _ => (page2ppn_avoids hC page).bind fun _ _ =>
        avoids_pure
  · exact avoids_ok

theorem getPte_avoids (m : Mm) (r addr : ℕ) (b : Bool) : Avoids C (m.getPte r addr b) := by
  refine (ensureTable_avoids hC m _ b).bind ?_
  rintro ⟨m₁, _ | _⟩ -
  · exact avoids_pure
  · refine (pte2va_avoids hC _).bind fun mpt _ => (ensureTable_avoids hC m₁ _ b).bind ?_
    rintro ⟨m₂, _ | _⟩ -
    · exact avoids_pure
    · exact (pte2va_avoids hC _).bind fun _ _ => avoids_pure

theorem delPage_avoids (m : Mm) (r addr : ℕ) : Avoids C (m.delPage r addr) := by
  refine (getPte_avoids hC m r addr false).bind ?_
  rintro ⟨m, _ | p⟩ -
  · exact avoids_pure
  · simp only
    split_ifs
    · refine (pte2page_avoids hC _).bind fun page _ => Avoids.bind ?_ fun _ _ => avoids_pure
      split_ifs
      · exact freePage_avoids hC _ page
      · exact avoids_ok
    · exact avoids_pure

theorem replacePage_avoids (m : Mm) (r page addr : ℕ) (p : PtePtr) :
    Avoids C (m.replacePage r page addr p) := by
  unfold replacePage
  split_ifs
  · refine (pte2page_avoids hC _).bind fun q _ => ?_
    split_ifs
    · exact avoids_pure
    · exact delPage_avoids hC m r addr
  · exact avoids_ok

theorem addPage_avoids (m : Mm) (r page addr flags : ℕ) : Avoids C (m.addPage r page addr flags) := by
  refine (getPte_avoids hC m r addr true).bind ?_
  rintro ⟨m, _ | p⟩ -
  · exact avoids_pure
  · exact (replacePage_avoids hC _ r page addr p).bind fun _ _ =>
      (page2ppn_avoids hC page).bind fun _ _ => avoids_pure

theorem allocPageGpte_avoids (m : Mm) (r addr flags : ℕ) :
    Avoids C (m.allocPageGpte r addr flags) := by
  refine (allocPages_avoids hC m 1).bind ?_
  rintro ⟨m, _ | page⟩ -
  · exact avoids_pure
  · refine (addPage_avoids hC m r page addr flags).bind ?_
    rintro ⟨m, ret⟩ -
    simp only
    split_ifs
    · exact (freePage_avoids hC m page).bind fun _ _ => avoids_pure
    · exact avoids_pure

end Mm

/-! ### Areas -/

omit hC in
theorem VmManager.gpt_avoids (vmm : VmManager) : Avoids C vmm.gpt := by
  unfold VmManager.gpt
  cases vmm.pGpt with
  | none => exact avoids_panic
  | some r => exact avoids_ok

theorem testVmaOverlap_avoids (v w : Vma) : Avoids C (testVmaOverlap v w) :=
  (mm_assert hC _ (by decide)).bind fun _ _ => (mm_assert hC _ (by decide)).bind fun _ _ =>
    mm_assert hC _ (by decide)

/-- The part of `add_vma` behind the check of the area before. -/
theorem addBefore_avoids (vmm : VmManager) (vma : Vma) (before after : List Vma) : Avoids C (do
    match after.head? with
    | none => pure ()
    | some v => testVmaOverlap vma v
    return { vmm with
      vmaList := before ++ vma :: after, vmaCount := u32 (vmm.vmaCount + 1) } : Res VmManager) := by
  cases after.head? with
  | none => exact avoids_pure
  | some v => exact (testVmaOverlap_avoids hC vma v).bind fun _ _ => avoids_pure

theorem addVma_avoids (vmm : VmManager) (vma : Vma) : Avoids C (addVma vmm vma) := by
  refine (mm_assert hC "vma->vm_start < vma->vm_end" (by decide)).bind fun _ _ => ?_
  simp only
  cases (vmm.vmaList.takeWhile fun v => v.vmStart < vma.vmStart).getLast? with
  | none => exact addBefore_avoids hC vmm vma _ _
  | some v =>
    exact (testVmaOverlap_avoids hC v vma).bind fun _ _ => addBefore_avoids hC vmm vma _ _

theorem vmMap_avoids (m : Mm) (vmm : VmManager) (addr len vmFlags : ℕ) :
    Avoids C (vmMap m vmm addr len vmFlags) := by
  unfold vmMap
  simp only
  split_ifs
  · exact avoids_pure
  · refine Avoids.bind ((Mm.malloc_avoids hC m _).bind fun _ _ => avoids_pure) ?_
    rintro ⟨m₁, vma⟩ -
    exact (addVma_avoids hC _ vma).bind fun _ _ => avoids_pure
  · exact avoids_pure

/-! ### Address spaces -/

theorem initVmm_avoids (m : Mm) : Avoids C (initVmm m) :=
  (Mm.malloc_avoids hC m _).bind fun _ _ => avoids_pure

theorem allocGpt_avoids (bpt : ℕ) (m : Mm) (vmm : VmManager) : Avoids C (allocGpt bpt m vmm) := by
  refine (Mm.allocPages_avoids hC m 1).bind ?_
  rintro ⟨m, _ | page⟩ -
  · exact avoids_pure
  · exact (page2va_avoids hC page).bind fun _ _ => avoids_pure

theorem checkRange_avoids (start stop : ℕ) : Avoids C (checkRange start stop) :=
  (mm_assert hC _ (by decide)).bind fun _ _ => mm_assert hC _ (by decide)

omit hC in
theorem rangeLoop_avoids {step : Mm → ℕ → Res (Mm × ℕ)} (h : ∀ m start, Avoids C (step m start))
    (stop k : ℕ) (m : Mm) (start : ℕ) : Avoids C (rangeLoop step stop k m start) := by
  induction k generalizing m start with
  | zero => exact avoids_diverges
  | succ k ih =>
    refine (h m start).bind ?_
    rintro ⟨m, next⟩ -
    simp only
    split_ifs
    · exact ih m next
    · exact avoids_pure

theorem delRange_avoids (k : ℕ) (m : Mm) (r start stop : ℕ) :
    Avoids C (delRange k m r start stop) := by
  refine (checkRange_avoids hC start stop).bind fun _ _ =>
    rangeLoop_avoids (fun m start => ?_) stop k m start
  refine (Mm.getPte_avoids hC m r start false).bind ?_
  rintro ⟨m, _ | p⟩ -
  · exact avoids_pure
  · refine Avoids.bind ?_ fun _ _ => avoids_pure
    split_ifs
    · exact Mm.delPage_avoids hC m r start
    · exact avoids_ok

theorem freeRange_avoids (k : ℕ) (m : Mm) (r start stop : ℕ) :
    Avoids C (freeRange k m r start stop) := by
  refine (checkRange_avoids hC start stop).bind fun _ _ =>
    rangeLoop_avoids (fun m start => ?_) stop k m _
  refine Avoids.bind ?_ fun _ _ => avoids_pure
  split_ifs
  · exact (pte2page_avoids hC _).bind fun page _ => (Mm.freePage_avoids hC m page).bind
      fun _ _ => avoids_pure
  · exact avoids_ok

omit hC in
theorem forVmas_avoids {f : Mm → Vma → Res Mm} (h : ∀ m vma, Avoids C (f m vma)) (m : Mm)
    (vmas : List Vma) : Avoids C (forVmas f m vmas) := by
  induction vmas generalizing m with
  | nil => exact avoids_ok
  | cons vma vmas ih => exact (h m vma).bind fun m _ => ih m

theorem delVmas_avoids (k : ℕ) (m : Mm) (vmm : VmManager) : Avoids C (delVmas k m vmm) :=
  (mm_assert hC _ (by decide)).bind fun _ _ => (VmManager.gpt_avoids vmm).bind fun gpt _ =>
    (forVmas_avoids (fun m vma => delRange_avoids hC k m gpt _ _) m _).bind fun m _ =>
      forVmas_avoids (fun m vma => freeRange_avoids hC k m gpt _ _) m _

theorem freeGpt_avoids (m : Mm) (vmm : VmManager) : Avoids C (freeGpt m vmm) :=
  (VmManager.gpt_avoids vmm).bind fun gpt _ => (va2page_avoids hC gpt).bind fun page _ =>
    Mm.freePage_avoids hC m page

theorem delVmm_avoids (m : Mm) (vmm : VmManager) : Avoids C (delVmm m vmm) :=
  (forVmas_avoids (fun m vma => Mm.free_avoids hC m vma.frame _) m _).bind fun m _ =>
    Mm.free_avoids hC m vmm.frame _

theorem teardown_avoids (k : ℕ) (m : Mm) (vmm : VmManager) : Avoids C (teardown k m vmm) :=
  (delVmas_avoids hC k m vmm).bind fun m _ => (freeGpt_avoids hC m vmm).bind fun m _ =>
    delVmm_avoids hC m vmm

end

end GarretOS
