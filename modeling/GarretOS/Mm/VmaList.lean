import GarretOS.Mm.FreeSet
import GarretOS.Mm.Vmm
import GarretOS.Span.Basic
import GarretOS.System.Basic
import Mathlib.Data.List.Perm.Subperm

/-!
# The list of areas

The life of the list `vma_list` and of the cached area `vma_curr` from `init_vmm` on, under any
sequence of `add_vma` and `find_vma` calls.

* `VmaOk` : the invariant: the list is a sorted list of spans, and the cached area is in it;
* `addVma_eq_ok` : when `add_vma` passes its assertions, which look at the neighbours only;
* `find_vma_correct` : the cached search is the search of the list.
-/

namespace GarretOS

open Spans

/-- The areas of a list, as spans. -/
abbrev VmaSorted (vmas : List Vma) : Prop := Sorted Vma.vmStart Vma.vmEnd vmas

theorem Vma.holds_iff_mem {v : Vma} {addr : ℕ} :
    v.holds addr = true ↔ addr ∈ Set.Ico v.vmStart v.vmEnd := by
  simp [Vma.holds]

/-- The areas are not empty, in order and disjoint, the current one is one of them, and each has
its own record. -/
structure VmaOk (vmm : VmManager) : Prop where
  sorted : VmaSorted vmm.vmaList
  nonempty : ∀ v ∈ vmm.vmaList, v.vmStart < v.vmEnd
  curr : ∀ v ∈ vmm.vmaCurr, v ∈ vmm.vmaList
  records : (vmm.vmaList.map Vma.frame).Nodup
  pool : ∀ v ∈ vmm.vmaList, poolBegin ≤ v.frame ∧ v.frame < poolEnd
  count : vmm.vmaCount = vmm.vmaList.length

/-! ### Searching -/

/-- **`find_vma`** changes nothing but `vma_curr`, which it sets to what it has found. -/
theorem findVma_curr (vmm : VmManager) (addr : ℕ) : ∃ c, (findVma vmm addr).1 =
    { vmm with vmaCurr := c } ∧ (c = vmm.vmaCurr ∨ c = vmm.vmaList.find? (·.holds addr)) := by
  unfold findVma
  cases vmm.vmaCurr.filter (·.holds addr) with
  | some vma => exact ⟨_, rfl, Or.inl rfl⟩
  | none =>
    cases hf : vmm.vmaList.find? (·.holds addr) with
    | none => exact ⟨_, rfl, Or.inl rfl⟩
    | some vma => exact ⟨_, rfl, Or.inr rfl⟩

/-- In a sorted list the cached area is the one that the search of the list finds. -/
theorem findVma_eq {vmm : VmManager} (hs : VmaSorted vmm.vmaList)
    (hcurr : ∀ v ∈ vmm.vmaCurr, v ∈ vmm.vmaList) (addr : ℕ) :
    (findVma vmm addr).2 = vmm.vmaList.find? (·.holds addr) := by
  unfold findVma
  cases hc : vmm.vmaCurr.filter (·.holds addr) with
  | some vma =>
    obtain ⟨h1, h2⟩ := Option.filter_eq_some_iff.1 hc
    exact ((hs.find?_eq fun v => Vma.holds_iff_mem).2
      ⟨hcurr vma h1, Vma.holds_iff_mem.1 h2⟩).symm
  | none =>
    cases hf : vmm.vmaList.find? (·.holds addr) with
    | none => rfl
    | some vma => rfl

theorem findVma_eq_some {vmm : VmManager} (hs : VmaSorted vmm.vmaList)
    (hcurr : ∀ v ∈ vmm.vmaCurr, v ∈ vmm.vmaList) {addr : ℕ} {v : Vma} :
    (findVma vmm addr).2 = some v ↔ v ∈ vmm.vmaList ∧ v.holds addr := by
  rw [findVma_eq hs hcurr, hs.find?_eq fun v => Vma.holds_iff_mem, Vma.holds_iff_mem]

/-- A search keeps the list, and the current area stays one of its areas. -/
theorem findVma_keeps {vmm : VmManager} (hcurr : ∀ v ∈ vmm.vmaCurr, v ∈ vmm.vmaList) (addr : ℕ) :
    ∃ c, (findVma vmm addr).1 = { vmm with vmaCurr := c } ∧ ∀ v ∈ c, v ∈ vmm.vmaList := by
  obtain ⟨c, hc, rfl | rfl⟩ := findVma_curr vmm addr
  · exact ⟨_, hc, hcurr⟩
  · exact ⟨_, hc, fun v hv => List.mem_of_find?_eq_some hv⟩

theorem VmaOk.find {vmm : VmManager} (h : VmaOk vmm) (addr : ℕ) : VmaOk (findVma vmm addr).1 := by
  obtain ⟨c, hc, hmem⟩ := findVma_keeps h.curr addr
  rw [hc]
  exact ⟨h.sorted, h.nonempty, hmem, h.records, h.pool, h.count⟩

/-! ### Inserting -/

/-- The areas that `add_vma` leaves before the new one. -/
def vmasBefore (vmas : List Vma) (vma : Vma) : List Vma :=
  vmas.takeWhile fun v => v.vmStart < vma.vmStart

/-- The areas that `add_vma` leaves after the new one. -/
def vmasAfter (vmas : List Vma) (vma : Vma) : List Vma :=
  vmas.dropWhile fun v => v.vmStart < vma.vmStart

theorem before_append_after (vmas : List Vma) (vma : Vma) :
    vmasBefore vmas vma ++ vmasAfter vmas vma = vmas := List.takeWhile_append_dropWhile

/-- A test of two areas that are not empty, before the rest of `add_vma`. -/
theorem testVmaOverlap_bind {v w : Vma} {x : Unit → Res VmManager} {vmm' : VmManager}
    (hv : v.vmStart < v.vmEnd) (hw : w.vmStart < w.vmEnd) :
    (testVmaOverlap v w >>= x) = .ok vmm' ↔ v.vmEnd ≤ w.vmStart ∧ x () = .ok vmm' := by
  simp only [testVmaOverlap, assert_of hv, assert_of hw, ok_bind]
  by_cases hle : v.vmEnd ≤ w.vmStart
  · rw [assert_of hle]
    simp [hle]
  · simp [assert, hle]

/-- **`add_vma`** passes its assertions when the neighbours do not overlap the new area. -/
theorem addVma_eq_ok {vmm vmm' : VmManager} {vma : Vma}
    (hne : ∀ v ∈ vmm.vmaList, v.vmStart < v.vmEnd) :
    addVma vmm vma = .ok vmm' ↔ vma.vmStart < vma.vmEnd ∧
      (∀ v ∈ (vmasBefore vmm.vmaList vma).getLast?, v.vmEnd ≤ vma.vmStart) ∧
      (∀ v ∈ (vmasAfter vmm.vmaList vma).head?, vma.vmEnd ≤ v.vmStart) ∧
      vmm' = { vmm with
        vmaList := vmasBefore vmm.vmaList vma ++ vma :: vmasAfter vmm.vmaList vma,
        vmaCount := u32 (vmm.vmaCount + 1) } := by
  have hb : ∀ v ∈ (vmasBefore vmm.vmaList vma).getLast?, v.vmStart < v.vmEnd := fun v hv =>
    hne v ((List.takeWhile_sublist _).subset (List.mem_of_mem_getLast? hv))
  have ha : ∀ v ∈ (vmasAfter vmm.vmaList vma).head?, v.vmStart < v.vmEnd := fun v hv =>
    hne v ((List.dropWhile_sublist _).subset (List.mem_of_mem_head? hv))
  unfold vmasBefore at hb ⊢
  unfold vmasAfter at ha ⊢
  unfold addVma
  simp only [bind_eq_ok, assert_eq_ok, exists_and_left, exists_const]
  refine and_congr_right fun hlt => ?_
  generalize List.takeWhile _ _ = before at hb ⊢
  generalize List.dropWhile _ _ = after at ha ⊢
  -- each neighbour that there is adds one test
  cases hB : before.getLast? with
  | none =>
    cases hA : after.head? with
    | none => simp [pure, Except.pure, eq_comm]
    | some w =>
      simp only [testVmaOverlap_bind hlt (ha w hA)]
      simp [pure, Except.pure, eq_comm]
  | some v =>
    cases hA : after.head? with
    | none =>
      simp only [testVmaOverlap_bind (hb v hB) hlt]
      simp [pure, Except.pure, eq_comm]
    | some w =>
      simp only [testVmaOverlap_bind (hb v hB) hlt, testVmaOverlap_bind hlt (ha w hA)]
      simp [pure, Except.pure, eq_comm]

/-- What `add_vma` does to a list in order. -/
theorem VmaSorted.addVma {vmm vmm' : VmManager} {vma : Vma} (hs : VmaSorted vmm.vmaList)
    (hne : ∀ v ∈ vmm.vmaList, v.vmStart < v.vmEnd) (heq : addVma vmm vma = .ok vmm') :
    VmaSorted vmm'.vmaList ∧ (∀ v ∈ vmm'.vmaList, v.vmStart < v.vmEnd) ∧
      vmm'.vmaList.Perm (vma :: vmm.vmaList) ∧ vmm'.vmaCurr = vmm.vmaCurr ∧
      vmm'.vmaCount = u32 (vmm.vmaCount + 1) := by
  obtain ⟨hlt, hB, hA, rfl⟩ := (addVma_eq_ok hne).1 heq
  have hsplit := before_append_after vmm.vmaList vma
  have hperm : (vmasBefore vmm.vmaList vma ++ vma :: vmasAfter vmm.vmaList vma).Perm
      (vma :: vmm.vmaList) := by
    rw [← congrArg (vma :: ·) hsplit]
    exact List.perm_middle
  refine ⟨?_, fun v hv => ?_, hperm, rfl, rfl⟩
  · rw [← hsplit] at hs hne
    exact hs.insert hne hB hA
  · rcases List.mem_cons.1 (hperm.mem_iff.1 hv) with rfl | hv
    · exact hlt
    · exact hne v hv

/-- **`add_vma`** of a record that is not in the list keeps the invariant. -/
theorem VmaOk.add {vmm vmm' : VmManager} {vma : Vma} (h : VmaOk vmm)
    (hfresh : vma.frame ∉ vmm.vmaList.map Vma.frame)
    (hpool : poolBegin ≤ vma.frame ∧ vma.frame < poolEnd) (heq : addVma vmm vma = .ok vmm') :
    VmaOk vmm' := by
  obtain ⟨hs, hne, hperm, hcurr, hcount⟩ := h.sorted.addVma h.nonempty heq
  have hrecords : (vmm'.vmaList.map Vma.frame).Nodup :=
    ((hperm.map Vma.frame).nodup_iff).2 (List.nodup_cons.2 ⟨hfresh, h.records⟩)
  have hpool' : ∀ v ∈ vmm'.vmaList, poolBegin ≤ v.frame ∧ v.frame < poolEnd := by
    intro v hv
    rcases List.mem_cons.1 (hperm.mem_iff.1 hv) with rfl | hv
    · exact hpool
    · exact h.pool v hv
  refine ⟨hs, hne, fun v hv => ?_, hrecords, hpool', ?_⟩
  · exact hperm.mem_iff.2 (List.mem_cons_of_mem _ (h.curr v (hcurr ▸ hv)))
  · -- the records are different pages of the pool, so their number does not wrap around
    have hsub : vmm'.vmaList.map Vma.frame ⊆ List.range' poolBegin (poolEnd - poolBegin) := by
      intro f hf
      obtain ⟨v, hv, rfl⟩ := List.mem_map.1 hf
      have := hpool' v hv
      simp only [List.mem_range'_1]
      omega
    have hle := (List.subperm_of_subset hrecords hsub).length_le
    have hlen := hperm.length_eq
    simp only [List.length_map, List.length_range', List.length_cons] at hle hlen
    rw [hcount, h.count, u32_of_lt, hlen]
    have := FreeSet.pool_size
    omega

/-! ### Runs -/

/-- The calls that use the list of areas. -/
inductive VmaOp where
  /-- `add_vma(vmm, vma)` -/
  | addVma (vma : Vma)
  /-- `find_vma(vmm, addr)` -/
  | findVma (addr : ℕ)

/-- A `vm_manager` from `init_vmm` on.  `init_vma` has put each area that is added into a page of
its own. -/
def vmaLists : System VmManager VmaOp where
  init vmm := ∃ m m', initVmm m = .ok (m', vmm)
  step vmm l vmm' := match l with
    | .addVma vma => vma.frame ∉ vmm.vmaList.map Vma.frame ∧
        (poolBegin ≤ vma.frame ∧ vma.frame < poolEnd) ∧ addVma vmm vma = .ok vmm'
    | .findVma addr => vmm' = (findVma vmm addr).1

/-- `init_vmm` begins with no area. -/
theorem initVmm_empty {m m' : Mm} {vmm : VmManager} (h : initVmm m = .ok (m', vmm)) :
    vmm.vmaList = [] ∧ vmm.vmaCurr = none ∧ vmm.vmaCount = 0 := by
  obtain ⟨⟨m₁, frame⟩, -, heq⟩ := bind_eq_ok.1 h
  cases heq
  exact ⟨rfl, rfl, rfl⟩

theorem vmaOk_empty {vmm : VmManager}
    (h : vmm.vmaList = [] ∧ vmm.vmaCurr = none ∧ vmm.vmaCount = 0) : VmaOk vmm := by
  obtain ⟨h1, h2, h3⟩ := h
  refine ⟨?_, ?_, ?_, ?_, ?_, ?_⟩ <;> simp [h1, h2, h3, VmaSorted, Sorted]

/-- The invariant holds in every state that runs reach. -/
theorem vmaLists_ok {vmm : VmManager} (h : vmaLists.Reachable vmm) : VmaOk vmm := by
  refine h.invariant (fun vmm hinit => ?_) fun vmm l vmm' hok hl => ?_
  · obtain ⟨m, m', heq⟩ := hinit
    exact vmaOk_empty (initVmm_empty heq)
  · cases l with
    | addVma vma => exact hok.add hl.1 hl.2.1 hl.2.2
    | findVma addr =>
      obtain rfl : vmm' = (findVma vmm addr).1 := hl
      exact hok.find addr

/-- **The cached search**: in every `vm_manager` that runs reach the list is in order, its areas
are not empty and disjoint, `vma_count` counts them, `vma_curr` is one of them, and so `find_vma`
finds the one area that holds the address, as a search of the list does. -/
theorem find_vma_correct {vmm : VmManager} (h : vmaLists.Reachable vmm) :
    vmm.vmaList.Pairwise (fun v w => v.vmStart < w.vmStart) ∧
      (∀ v ∈ vmm.vmaList, v.vmStart < v.vmEnd) ∧
      vmm.vmaList.Pairwise (fun v w => ∀ addr, ¬ (v.holds addr ∧ w.holds addr)) ∧
      vmm.vmaCount = vmm.vmaList.length ∧
      (∀ v ∈ vmm.vmaCurr, v ∈ vmm.vmaList) ∧
      ∀ addr, (findVma vmm addr).2 = vmm.vmaList.find? (·.holds addr) ∧
        (∀ v, (findVma vmm addr).2 = some v ↔ v ∈ vmm.vmaList ∧ v.holds addr) ∧
        ((findVma vmm addr).2 = none ↔ ∀ v ∈ vmm.vmaList, ¬ v.holds addr) := by
  have hok := vmaLists_ok h
  refine ⟨hok.sorted.starts hok.nonempty, hok.nonempty, ?_, hok.count, hok.curr, fun addr => ?_⟩
  · refine hok.sorted.disjoint.imp fun hd addr ⟨h1, h2⟩ => ?_
    exact Set.disjoint_left.1 hd (Vma.holds_iff_mem.1 h1) (Vma.holds_iff_mem.1 h2)
  · have heq := findVma_eq hok.sorted hok.curr addr
    refine ⟨heq, fun v => findVma_eq_some hok.sorted hok.curr, ?_⟩
    rw [heq, List.find?_eq_none]

/-- Two areas are added, the second one below the first one, and one of them is looked up. -/
theorem find_vma_correct_two : ∃ vmm, vmaLists.Run [.addVma ⟨0x82001, 50, 52, 0⟩,
      .addVma ⟨0x82002, 5, 7, 0⟩, .findVma 6] vmm ∧ vmm.vmaCount = vmm.vmaList.length ∧
    (findVma vmm 51).2 = vmm.vmaList.find? (·.holds 51) := by
  obtain ⟨m, v₀, v₁, v₂, h₀, h₁, h₂, hf⟩ : ∃ m v₀ v₁ v₂,
      initVmm ⟨FreeSet.oneBlock 0x82000 8, fun _ _ => 0, false⟩ = .ok (m, v₀) ∧
      addVma v₀ ⟨0x82001, 50, 52, 0⟩ = .ok v₁ ∧ addVma v₁ ⟨0x82002, 5, 7, 0⟩ = .ok v₂ ∧
      (0x82001 ∉ v₀.vmaList.map Vma.frame ∧ 0x82002 ∉ v₁.vmaList.map Vma.frame) :=
    ⟨_, _, _, _, rfl, rfl, rfl, by decide⟩
  have hl₁ : vmaLists.step v₀ (.addVma ⟨0x82001, 50, 52, 0⟩) v₁ := ⟨hf.1, by decide, h₁⟩
  have hl₂ : vmaLists.step v₁ (.addVma ⟨0x82002, 5, 7, 0⟩) v₂ := ⟨hf.2, by decide, h₂⟩
  have hl₃ : vmaLists.step v₂ (.findVma 6) (findVma v₂ 6).1 := rfl
  have hr := (((System.Run.start (A := vmaLists) ⟨_, m, h₀⟩).step hl₁).step hl₂).step hl₃
  obtain ⟨-, -, -, hcount, -, hfind⟩ := find_vma_correct ⟨_, hr⟩
  exact ⟨_, hr, hcount, (hfind 51).1⟩

end GarretOS
