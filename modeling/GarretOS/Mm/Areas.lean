import GarretOS.Mm.Range

/-!
# Virtual memory areas

What the functions on areas do: `initVma_sat`, `findVma_spec`, and `addVma_sat` in general and
`addVma_front` for an area below all others.  The areas of an address space are page-aligned user
ranges (`AreasOk`, `VmasOk`), and so they are sets of pages (`vmaPages`).
-/

namespace GarretOS

/-- What `dup_vmm` copies of an area. -/
def Vma.triple (vma : Vma) : ℕ × ℕ × ℕ := (vma.vmStart, vma.vmEnd, vma.vmFlags)

/-- The areas are page-aligned user ranges, in order and disjoint. -/
structure VmasOk (vmas : List Vma) : Prop where
  sorted : vmas.Pairwise fun v w => v.vmEnd ≤ w.vmStart
  area : ∀ v ∈ vmas, v.vmStart % pageSize = 0 ∧ v.vmEnd % pageSize = 0 ∧
    userAccess v.vmStart v.vmEnd

/-- The areas are page-aligned user ranges, and the current one is one of them. -/
structure AreasOk (vmm : VmManager) : Prop where
  area : ∀ v ∈ vmm.vmaList, v.vmStart % pageSize = 0 ∧ v.vmEnd % pageSize = 0 ∧
    userAccess v.vmStart v.vmEnd
  curr : ∀ v ∈ vmm.vmaCurr, v ∈ vmm.vmaList

/-! ### The functions on areas -/

/-- `init_vma` takes a free page for the record. -/
theorem initVma_sat {m : Mm} {F : Set ℕ} (h : FreeSet m.pmm F) (vmStart vmEnd vmFlags : ℕ) :
    Sat (initVma m vmStart vmEnd vmFlags) fun res => Mm.Allocated m res.1 F res.2.frame ∧
      res.2.triple = (vmStart, vmEnd, vmFlags) := by
  refine (Mm.malloc_sat h (show Mm.numPages Vma.size = 1 by decide)).bind ?_
  rintro ⟨m', frame⟩ ⟨ha, -⟩
  exact ⟨ha, rfl⟩

/-- **`find_vma`** finds an area that holds the address, and changes nothing but `vma_curr`. -/
theorem findVma_spec {vmm : VmManager} (h : AreasOk vmm) (addr : ℕ) :
    (∃ c, (findVma vmm addr).1 = { vmm with vmaCurr := c }) ∧ AreasOk (findVma vmm addr).1 ∧
      ∀ v ∈ (findVma vmm addr).2, v ∈ vmm.vmaList ∧ v.holds addr := by
  unfold findVma
  cases hcurr : vmm.vmaCurr.filter (·.holds addr) with
  | some vma =>
    obtain ⟨h1, h2⟩ := Option.filter_eq_some_iff.1 hcurr
    refine ⟨⟨vmm.vmaCurr, rfl⟩, h, ?_⟩
    rintro v ⟨⟩
    exact ⟨h.curr vma h1, h2⟩
  | none =>
    cases hfind : vmm.vmaList.find? (·.holds addr) with
    | none =>
      refine ⟨⟨vmm.vmaCurr, rfl⟩, h, ?_⟩
      rintro v ⟨⟩
    | some vma =>
      have hmem := List.mem_of_find?_eq_some hfind
      have hholds : vma.holds addr := by simpa using List.find?_some hfind
      refine ⟨⟨some vma, rfl⟩, ⟨h.area, ?_⟩, ?_⟩
      · rintro v ⟨⟩
        exact hmem
      · rintro v ⟨⟩
        exact ⟨hmem, hholds⟩

/-- `add_vma` of an area below all others. -/
theorem addVma_front {vmm : VmManager} {vma : Vma} (hlt : vma.vmStart < vma.vmEnd)
    (h : ∀ v ∈ vmm.vmaList, vma.vmEnd ≤ v.vmStart ∧ v.vmStart < v.vmEnd) :
    addVma vmm vma = .ok { vmm with
      vmaList := vma :: vmm.vmaList, vmaCount := u32 (vmm.vmaCount + 1) } := by
  have hspan : (vmm.vmaList.takeWhile fun v => v.vmStart < vma.vmStart) = [] ∧
      (vmm.vmaList.dropWhile fun v => v.vmStart < vma.vmStart) = vmm.vmaList := by
    cases hl : vmm.vmaList with
    | nil => exact ⟨rfl, rfl⟩
    | cons v vs =>
      have hv := h v (by simp [hl])
      have hnot : ¬ v.vmStart < vma.vmStart := by omega
      simp [hnot]
  rw [addVma, assert_of hlt, ok_bind]
  simp only [hspan.1, hspan.2, List.getLast?_nil, List.nil_append]
  cases hl : vmm.vmaList with
  | nil => rfl
  | cons v vs =>
    obtain ⟨h1, h2⟩ := h v (by simp [hl])
    simp only [List.head?_cons, testVmaOverlap, assert_of hlt, assert_of h1, assert_of h2, ok_bind]
    rfl

/-- **`add_vma`** inserts the area. -/
theorem addVma_sat (vmm : VmManager) (vma : Vma) :
    Sat (addVma vmm vma) fun vmm' => ∃ before after c, vmm.vmaList = before ++ after ∧
      vmm' = { vmm with vmaList := before ++ vma :: after, vmaCount := c } := by
  have hoverlap : ∀ v w : Vma, Sat (testVmaOverlap v w) fun _ => True := fun v w =>
    sat_assert.bind fun _ _ => sat_assert.bind fun _ _ => sat_assert.mono fun _ _ => trivial
  have hspan := (List.takeWhile_append_dropWhile
    (p := fun v => decide (v.vmStart < vma.vmStart)) (l := vmm.vmaList)).symm
  refine sat_assert.bind fun _ _ => ?_
  -- the neighbours are only checked
  simp only
  split
  · split
    · exact ⟨_, _, _, hspan, rfl⟩
    · exact (hoverlap _ _).bind fun _ _ => ⟨_, _, _, hspan, rfl⟩
  · refine (hoverlap _ _).bind fun _ _ => ?_
    split
    · exact ⟨_, _, _, hspan, rfl⟩
    · exact (hoverlap _ _).bind fun _ _ => ⟨_, _, _, hspan, rfl⟩

/-- The rounds that a loop over a range makes. -/
theorem rounds_lt {start stop k : ℕ} (h : userAccess start stop) (hk : userEnd / ptSize ≤ k) :
    (stop - start) / ptSize < k := by
  obtain ⟨h1, -, h3⟩ := h
  refine lt_of_lt_of_le ?_ hk
  rw [ptSize_eq]
  simp only [userEnd, userBegin] at h1 h3 ⊢
  omega

/-! ### The pages in the areas -/

/-- The numbers of the pages in the areas. -/
def vmaPages (vmas : List Vma) : Set ℕ := {vpn | ∃ v ∈ vmas, vpn ∈ Mm.pageRange v.vmStart v.vmEnd}

theorem holds_iff {v : Vma} {a : ℕ} (h : v.vmStart % pageSize = 0 ∧ v.vmEnd % pageSize = 0) :
    v.holds a ↔ a / pageSize ∈ Mm.pageRange v.vmStart v.vmEnd := by
  rw [pageSize_eq] at h ⊢
  simp only [Vma.holds, Mm.pageRange, pageSize_eq, decide_eq_true_eq, Set.mem_ofPred_eq]
  omega

theorem vmaPages_iff {vmas : List Vma} (h : VmasOk vmas) {a : ℕ} :
    a / pageSize ∈ vmaPages vmas ↔ ∃ v ∈ vmas, v.holds a := by
  constructor
  · rintro ⟨v, hv, ha⟩
    obtain ⟨h1, h2, -⟩ := h.area v hv
    exact ⟨v, hv, (holds_iff ⟨h1, h2⟩).2 ha⟩
  · rintro ⟨v, hv, ha⟩
    obtain ⟨h1, h2, -⟩ := h.area v hv
    exact ⟨v, hv, (holds_iff ⟨h1, h2⟩).1 ha⟩

theorem vmaPages_nil : vmaPages [] = ∅ := by
  simp [vmaPages]

end GarretOS
