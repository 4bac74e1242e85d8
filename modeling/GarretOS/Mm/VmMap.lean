import GarretOS.Mm.Areas
import GarretOS.Mm.VmaList
import Mathlib.Data.List.TakeWhile

/-!
# Mapping a range

`vm_map` looks up the first page of a range only, and leaves it to the assertions of `add_vma` to
find an area further on.  So the kernel stops at a range that begins in a gap and reaches the next
area; and a range whose end is beyond `2 ^ 64` may pass as a single page (`MapsThrough`).  For all
other ranges `vm_map` does what it is for (`vm_map_atomic_iff`).
-/

namespace GarretOS

open Spans

/-- The areas are page-aligned user ranges, in order and disjoint. -/
structure MapOk (vmm : VmManager) : Prop extends AreasOk vmm where
  sorted : VmaSorted vmm.vmaList

theorem MapOk.nonempty {vmm : VmManager} (h : MapOk vmm) : ∀ v ∈ vmm.vmaList, v.vmStart < v.vmEnd :=
  fun v hv => (h.area v hv).2.2.2.1

/-! ### The range of a mapping -/

/-- The end of the pages that meet `[addr, addr + len)`. -/
def pagesEnd (addr len : ℕ) : ℕ := (addr + len + (pageSize - 1)) / pageSize * pageSize

/-- The end that `vm_map` computes. -/
def mapEnd (addr len : ℕ) : ℕ := roundup (u64 (addr + len)) pageSize

theorem mapEnd_of_lt {addr len : ℕ} (h : addr + len + pageSize ≤ 2 ^ 64) :
    mapEnd addr len = pagesEnd addr len := by
  rw [pageSize_eq] at h
  rw [mapEnd, pagesEnd, roundup, pageSize_eq, u64_of_lt (x := addr + len) (by omega),
    u64_of_lt (by omega)]
  omega

theorem mapEnd_le (addr len : ℕ) : mapEnd addr len ≤ pagesEnd addr len := by
  have h1 : u64 (addr + len) ≤ addr + len := Nat.mod_le _ _
  have h2 : u64 (u64 (addr + len) + pageSize - 1) ≤ u64 (addr + len) + pageSize - 1 :=
    Nat.mod_le _ _
  rw [pageSize_eq] at h2
  rw [mapEnd, pagesEnd, roundup, pageSize_eq]
  omega

theorem le_pagesEnd (addr len : ℕ) : addr + len ≤ pagesEnd addr len := by
  rw [pagesEnd, pageSize_eq]
  omega

/-- The rounding wraps around to `0`. -/
theorem mapEnd_eq_zero {addr len : ℕ} (h : addr + len < 2 ^ 64)
    (h' : 2 ^ 64 < addr + len + pageSize) : mapEnd addr len = 0 := by
  rw [pageSize_eq] at h'
  rw [mapEnd, roundup, pageSize_eq, u64_of_lt (x := addr + len) h, u64]
  omega

/-- The end is the right one, or none that a user range could have. -/
theorem mapEnd_cases (addr len : ℕ) : mapEnd addr len = pagesEnd addr len ∨
    userEnd < pagesEnd addr len ∧ (2 ^ 64 ≤ addr + len ∨ mapEnd addr len = 0) := by
  have hle := le_pagesEnd addr len
  have hps := pageSize_eq
  have hue : userEnd = 0x80000000 := rfl
  by_cases h : addr + len + pageSize ≤ 2 ^ 64
  · exact Or.inl (mapEnd_of_lt h)
  · refine Or.inr ⟨by omega, ?_⟩
    by_cases h' : addr + len < 2 ^ 64
    · exact Or.inr (mapEnd_eq_zero h' (by omega))
    · exact Or.inl (by omega)

/-! ### One call -/

/-- The pages from `start` to `stop` cannot become an area: there are none, some are not user
memory, or some are in an area. -/
def Unmappable (vmas : List Vma) (start stop : ℕ) : Prop :=
  ¬ userAccess start stop ∨ ∃ v ∈ vmas, v.vmStart < stop ∧ start < v.vmEnd

/-- `vm_map` either refuses a range and leaves the areas as they are, or adds it to them. -/
def VmMapsAtomically (m : Mm) (vmm : VmManager) (addr len vmFlags : ℕ) : Prop :=
  ∃ m' vmm' ret, vmMap m vmm addr len vmFlags = .ok (m', vmm', ret) ∧
    (Unmappable vmm.vmaList (rounddown addr pageSize) (pagesEnd addr len) →
      ret = -eInval ∧ vmm'.vmaList = vmm.vmaList ∧ vmm'.vmaCount = vmm.vmaCount) ∧
    (¬ Unmappable vmm.vmaList (rounddown addr pageSize) (pagesEnd addr len) →
      ret = 0 ∧ (∃ vma : Vma, vma.triple = (rounddown addr pageSize, pagesEnd addr len, vmFlags) ∧
          vmm'.vmaList.Perm (vma :: vmm.vmaList)) ∧
        vmm'.vmaCount = u32 (vmm.vmaCount + 1) ∧
        vmm'.vmaList.Pairwise fun v w => v.vmStart < w.vmStart ∧ v.vmEnd ≤ w.vmStart)

/-- `vm_map` does not see that the range is unmappable: it is a user range as computed, no area
has its first page, and yet its end is beyond all addresses, or an area begins further on. -/
def MapsThrough (vmas : List Vma) (addr len : ℕ) : Prop :=
  userAccess (rounddown addr pageSize) (mapEnd addr len) ∧
    (∀ v ∈ vmas, ¬ v.holds (rounddown addr pageSize)) ∧
    (2 ^ 64 ≤ addr + len ∨
      ∃ v ∈ vmas, rounddown addr pageSize < v.vmStart ∧ v.vmStart < mapEnd addr len)

variable {m m' : Mm} {vmm vmm' : VmManager} {addr len vmFlags : ℕ} {ret : ℤ}

/-- A range that is no user range. -/
theorem vmMap_of_not_user (hua : ¬ userAccess (rounddown addr pageSize) (mapEnd addr len)) :
    vmMap m vmm addr len vmFlags = .ok (m, vmm, -eInval) := by
  rw [mapEnd] at hua
  simp only [vmMap, if_pos hua]
  rfl

/-- A range whose first page is in an area. -/
theorem vmMap_of_holds (h : MapOk vmm)
    (hua : userAccess (rounddown addr pageSize) (mapEnd addr len))
    {v : Vma} (hv : v ∈ vmm.vmaList) (hholds : v.holds (rounddown addr pageSize)) :
    vmMap m vmm addr len vmFlags =
      .ok (m, (findVma vmm (rounddown addr pageSize)).1, -eInval) := by
  have hf := (findVma_eq_some h.sorted h.curr).2 ⟨hv, hholds⟩
  have hlt : v.vmStart < mapEnd addr len := lt_of_le_of_lt (Vma.holds_iff_mem.1 hholds).1 hua.2.1
  rw [mapEnd] at hua hlt
  simp only [vmMap, not_not.2 hua, if_false, hf, Option.any_some, hlt, decide_true, if_true]
  rfl

/-- A range whose first page is in no area is handed to `add_vma`. -/
theorem vmMap_of_gap (h : MapOk vmm)
    (hua : userAccess (rounddown addr pageSize) (mapEnd addr len))
    (hgap : ∀ v ∈ vmm.vmaList, ¬ v.holds (rounddown addr pageSize)) :
    vmMap m vmm addr len vmFlags = do
      let (m', frame) ← m.malloc Vma.size
      let vmm' ← addVma (findVma vmm (rounddown addr pageSize)).1
        ⟨frame, rounddown addr pageSize, mapEnd addr len, vmFlags⟩
      return (m', vmm', 0) := by
  have hf : (findVma vmm (rounddown addr pageSize)).2 = none := by
    rw [findVma_eq h.sorted h.curr, List.find?_eq_none]
    exact hgap
  rw [mapEnd] at hua ⊢
  simp only [vmMap, not_not.2 hua, if_false, hf, Option.any_none, initVma]
  cases m.malloc Vma.size with
  | error e => rfl
  | ok r => rfl

/-- Where the first page of a new area is in no area, its neighbours do not overlap it just when no
area begins inside it. -/
theorem addVma_of_gap {vma : Vma} (hs : VmaSorted vmm.vmaList)
    (hne : ∀ v ∈ vmm.vmaList, v.vmStart < v.vmEnd) (hlt : vma.vmStart < vma.vmEnd)
    (hgap : ∀ v ∈ vmm.vmaList, ¬ v.holds vma.vmStart) :
    (∃ vmm', addVma vmm vma = .ok vmm') ↔
      ∀ v ∈ vmm.vmaList, ¬ (vma.vmStart < v.vmStart ∧ v.vmStart < vma.vmEnd) := by
  constructor
  · rintro ⟨vmm', heq⟩ v hv ⟨h1, h2⟩
    obtain ⟨hs', -, hperm, -⟩ := hs.addVma hne heq
    have hmem : v ∈ vmm'.vmaList := hperm.mem_iff.2 (List.mem_cons_of_mem _ hv)
    have hmem' : vma ∈ vmm'.vmaList := hperm.mem_iff.2 List.mem_cons_self
    have heq := hs'.eq_of_mem hmem hmem' ⟨le_rfl, hne v hv⟩ ⟨h1.le, h2⟩
    rw [heq] at h1
    exact lt_irrefl _ h1
  · intro hno
    refine ⟨_, (addVma_eq_ok hne).2 ⟨hlt, fun v hv => ?_, fun v hv => ?_, rfl⟩⟩
    · have hmem := List.mem_of_mem_getLast? hv
      have hbelow : v.vmStart < vma.vmStart := by simpa using List.mem_takeWhile_imp hmem
      by_contra hover
      exact hgap v ((List.takeWhile_sublist _).subset hmem)
        (Vma.holds_iff_mem.2 ⟨hbelow.le, not_le.1 hover⟩)
    · have hmem := (List.dropWhile_sublist _).subset (List.mem_of_mem_head? hv)
      have hge : ¬ v.vmStart < vma.vmStart := by
        have hd := List.head?_dropWhile_not (fun v : Vma => decide (v.vmStart < vma.vmStart))
          vmm.vmaList
        rw [vmasAfter] at hv
        rw [hv] at hd
        simpa using hd
      have hfirst : v.vmStart ≠ vma.vmStart := fun he =>
        hgap v hmem (Vma.holds_iff_mem.2 ⟨he.le, he ▸ hne v hmem⟩)
      by_contra hover
      exact hno v hmem ⟨by omega, not_le.1 hover⟩

/-- A call that refuses the range. -/
theorem vmMapsAtomically_of_refused (heq : vmMap m vmm addr len vmFlags = .ok (m, vmm', -eInval))
    (hlist : vmm'.vmaList = vmm.vmaList) (hcount : vmm'.vmaCount = vmm.vmaCount)
    (hun : Unmappable vmm.vmaList (rounddown addr pageSize) (pagesEnd addr len)) :
    VmMapsAtomically m vmm addr len vmFlags :=
  ⟨m, vmm', -eInval, heq, fun _ => ⟨rfl, hlist, hcount⟩, fun h => absurd hun h⟩

/-- A range whose first page is in no area is mapped unless its end is wrong or an area begins
inside it. -/
theorem MapOk.vmMap_gap (h : MapOk vmm)
    (hua : userAccess (rounddown addr pageSize) (mapEnd addr len))
    (hgap : ∀ v ∈ vmm.vmaList, ¬ v.holds (rounddown addr pageSize)) {frame : ℕ}
    (hm : m.malloc Vma.size = .ok (m', frame)) :
    VmMapsAtomically m vmm addr len vmFlags ↔ ¬ (2 ^ 64 ≤ addr + len ∨
      ∃ v ∈ vmm.vmaList, rounddown addr pageSize < v.vmStart ∧ v.vmStart < mapEnd addr len) := by
  obtain ⟨c, hc, -⟩ := findVma_keeps h.curr (rounddown addr pageSize)
  have hmap : vmMap m vmm addr len vmFlags = _ := vmMap_of_gap h hua hgap
  rw [hm, hc, ok_bind] at hmap
  simp only at hmap
  have hs : VmaSorted { vmm with vmaCurr := c }.vmaList := h.sorted
  have hadd : (∃ vmm', addVma { vmm with vmaCurr := c }
      ⟨frame, rounddown addr pageSize, mapEnd addr len, vmFlags⟩ = .ok vmm') ↔ _ :=
    addVma_of_gap hs h.nonempty hua.2.1 hgap
  constructor
  · rintro ⟨m₂, vmm₂, ret, heq, hrefused, -⟩
    rw [hmap] at heq
    obtain ⟨vmm₁, hok, heq⟩ := bind_eq_ok.1 heq
    cases heq
    rintro (hwrap | ⟨v, hv, hin⟩)
    · -- the range is beyond user memory, but one page of it has been mapped
      have hun : Unmappable vmm.vmaList (rounddown addr pageSize) (pagesEnd addr len) := by
        refine Or.inl fun hacc => ?_
        have h1 := hacc.2.2
        have h2 := le_pagesEnd addr len
        have h3 : userEnd < 2 ^ 64 := by decide
        omega
      exact absurd (hrefused hun).1 (by decide)
    · exact hadd.1 ⟨_, hok⟩ v hv hin
  · intro hno
    rw [not_or] at hno
    have hend : mapEnd addr len = pagesEnd addr len := by
      rcases mapEnd_cases addr len with hend | ⟨-, hwrap | hzero⟩
      · exact hend
      · exact absurd hwrap hno.1
      · have := hua.2.1
        omega
    obtain ⟨vmm', hok⟩ := hadd.2 fun v hv hin => hno.2 ⟨v, hv, hin⟩
    obtain ⟨hs', hne', hperm, -, hcount⟩ := hs.addVma h.nonempty hok
    rw [hok, ok_bind] at hmap
    rw [hend] at hua hperm hno
    refine ⟨m', vmm', 0, hmap, fun hun => ?_, fun _ => ⟨rfl, ⟨_, rfl, hperm⟩, hcount, ?_⟩⟩
    · -- an area that overlaps the range has its first page or begins inside it
      rcases hun with hun | ⟨v, hv, h1, h2⟩
      · exact absurd hua hun
      · rcases le_or_gt v.vmStart (rounddown addr pageSize) with hle | hgt
        · exact absurd (Vma.holds_iff_mem.2 ⟨hle, h2⟩) (hgap v hv)
        · exact absurd ⟨v, hv, hgt, h1⟩ hno.2
    · exact List.Pairwise.and (hs'.starts hne') hs'

/-- **`vm_map` in one state**: it refuses or maps the range unless the range slips through. -/
theorem MapOk.vmMap_iff (h : MapOk vmm) (hm : ∃ m' frame, m.malloc Vma.size = .ok (m', frame)) :
    VmMapsAtomically m vmm addr len vmFlags ↔ ¬ MapsThrough vmm.vmaList addr len := by
  by_cases hua : userAccess (rounddown addr pageSize) (mapEnd addr len)
  · by_cases hgap : ∀ v ∈ vmm.vmaList, ¬ v.holds (rounddown addr pageSize)
    · obtain ⟨m', frame, hm⟩ := hm
      rw [h.vmMap_gap hua hgap hm, MapsThrough]
      exact not_congr ⟨fun ht => ⟨hua, hgap, ht⟩, fun ht => ht.2.2⟩
    · simp only [not_forall, not_not] at hgap
      obtain ⟨v, hv, hholds⟩ := hgap
      obtain ⟨c, hc, -⟩ := findVma_keeps h.curr (rounddown addr pageSize)
      have hmem := Vma.holds_iff_mem.1 hholds
      have hlt : v.vmStart < pagesEnd addr len :=
        lt_of_le_of_lt hmem.1 (lt_of_lt_of_le hua.2.1 (mapEnd_le addr len))
      exact iff_of_true (vmMapsAtomically_of_refused (vmMap_of_holds h hua hv hholds)
        (by rw [hc]) (by rw [hc]) (Or.inr ⟨v, hv, hlt, hmem.2⟩)) fun ht => ht.2.1 v hv hholds
  · -- a range that is no user range as computed is none at all
    have hun : ¬ userAccess (rounddown addr pageSize) (pagesEnd addr len) := by
      rintro ⟨h1, h2, h3⟩
      rcases mapEnd_cases addr len with hend | ⟨hend, -⟩
      · exact hua (hend ▸ ⟨h1, h2, h3⟩)
      · omega
    exact iff_of_true (vmMapsAtomically_of_refused (vmMap_of_not_user hua) rfl rfl (Or.inl hun))
      fun ht => hua ht.1

/-! ### Runs -/

/-- The calls that build and use a list of areas. -/
inductive MapOp where
  /-- `vm_map(vmm, addr, len, vm_flags, NULL)`, `m` being the memory -/
  | vmMap (m : Mm) (addr len vmFlags : ℕ)
  /-- `find_vma(vmm, addr)` -/
  | findVma (addr : ℕ)

/-- A `vm_manager` whose areas `vm_map` has made. -/
def vmMaps : System VmManager MapOp where
  init vmm := vmm.vmaList = [] ∧ vmm.vmaCurr = none ∧ vmm.vmaCount = 0
  step vmm l vmm' := match l with
    | .vmMap m addr len vmFlags => ∃ m' ret, vmMap m vmm addr len vmFlags = .ok (m', vmm', ret)
    | .findVma addr => vmm' = (findVma vmm addr).1

theorem MapOk.find (h : MapOk vmm) (addr : ℕ) : MapOk (findVma vmm addr).1 := by
  obtain ⟨c, hc, hmem⟩ := findVma_keeps h.curr addr
  rw [hc]
  exact ⟨⟨h.area, hmem⟩, h.sorted⟩

theorem MapOk.vmMap (h : MapOk vmm) (heq : vmMap m vmm addr len vmFlags = .ok (m', vmm', ret)) :
    MapOk vmm' := by
  by_cases hua : userAccess (rounddown addr pageSize) (mapEnd addr len)
  · by_cases hgap : ∀ v ∈ vmm.vmaList, ¬ v.holds (rounddown addr pageSize)
    · obtain ⟨c, hc, hmem⟩ := findVma_keeps h.curr (rounddown addr pageSize)
      rw [vmMap_of_gap h hua hgap, hc] at heq
      obtain ⟨⟨m₁, frame⟩, -, heq⟩ := bind_eq_ok.1 heq
      obtain ⟨vmm₁, hok, heq⟩ := bind_eq_ok.1 heq
      cases heq
      have hs : VmaSorted { vmm with vmaCurr := c }.vmaList := h.sorted
      obtain ⟨hs', -, hperm, hcurr, -⟩ := hs.addVma h.nonempty hok
      refine ⟨⟨fun v hv => ?_, fun v hv => ?_⟩, hs'⟩
      · rcases List.mem_cons.1 (hperm.mem_iff.1 hv) with rfl | hv
        · exact ⟨Nat.mul_mod_left _ _, Nat.mul_mod_left _ _, hua⟩
        · exact h.area v hv
      · rw [hcurr] at hv
        exact hperm.mem_iff.2 (List.mem_cons_of_mem _ (hmem v hv))
    · simp only [not_forall, not_not] at hgap
      obtain ⟨v, hv, hholds⟩ := hgap
      rw [vmMap_of_holds h hua hv hholds] at heq
      cases heq
      exact h.find _
  · rw [vmMap_of_not_user hua] at heq
    cases heq
    exact h

/-- The areas that `vm_map` has made are page-aligned user ranges, in order and disjoint. -/
theorem vmMaps_ok (h : vmMaps.Reachable vmm) : MapOk vmm := by
  refine h.invariant (fun vmm hinit => ?_) fun vmm l vmm' hok hl => ?_
  · obtain ⟨h1, h2, -⟩ := hinit
    refine ⟨⟨?_, ?_⟩, ?_⟩ <;> simp [h1, h2, VmaSorted, Sorted]
  · cases l with
    | vmMap m addr len vmFlags =>
      obtain ⟨m', ret, heq⟩ := hl
      exact hok.vmMap heq
    | findVma addr =>
      obtain rfl : vmm' = (findVma vmm addr).1 := hl
      exact hok.find addr

/-- **`vm_map`**: in every `vm_manager` whose areas `vm_map` has made, a call whose allocation
succeeds refuses a range that is empty, not user memory or in the way of an area, and maps every
other range, just when the range does not slip through. -/
theorem vm_map_atomic_iff (h : vmMaps.Reachable vmm)
    (hm : ∃ m' frame, m.malloc Vma.size = .ok (m', frame)) :
    VmMapsAtomically m vmm addr len vmFlags ↔ ¬ MapsThrough vmm.vmaList addr len :=
  (vmMaps_ok h).vmMap_iff hm

/-- An area of one page at `0x801000`. -/
theorem vmMaps_area : ∃ (m m₁ : Mm) (vmm : VmManager), vmMaps.Reachable vmm ∧
    vmm.vmaList = [⟨0x82000, 0x801000, 0x802000, vmaRead⟩] ∧
    m.malloc Vma.size = .ok (m₁, 0x82001) := by
  obtain ⟨m, m₁, vmm, h1, h2, h3⟩ : ∃ (m m₁ : Mm) (vmm : VmManager),
      vmMap ⟨FreeSet.oneBlock 0x82000 8, fun _ _ => 0, false⟩ ⟨0x80100, [], none, none, 0, 0⟩
        0x801000 0x1000 vmaRead = .ok (m, vmm, 0) ∧
      vmm.vmaList = [⟨0x82000, 0x801000, 0x802000, vmaRead⟩] ∧
      m.malloc Vma.size = .ok (m₁, 0x82001) := ⟨_, _, _, rfl, rfl, rfl⟩
  have hl : vmMaps.step ⟨0x80100, [], none, none, 0, 0⟩ (.vmMap
      ⟨FreeSet.oneBlock 0x82000 8, fun _ _ => 0, false⟩ 0x801000 0x1000 vmaRead) vmm := ⟨m, 0, h1⟩
  exact ⟨m, m₁, vmm, (System.Reachable.start (A := vmMaps) ⟨rfl, rfl, rfl⟩).step hl, h2, h3⟩

/-- A range right above the area is mapped. -/
theorem vm_map_atomic_iff_above : ∃ m vmm, vmMaps.Reachable vmm ∧
    VmMapsAtomically m vmm 0x802000 0x1000 vmaRead := by
  obtain ⟨m, m₁, vmm, hr, hlist, hm⟩ := vmMaps_area
  refine ⟨m, vmm, hr, (vm_map_atomic_iff hr ⟨m₁, _, hm⟩).2 ?_⟩
  rw [MapsThrough, hlist]
  decide

/-- A range of two pages whose second page is in the area stops the kernel. -/
theorem vm_map_overlap : ¬ ∀ (m : Mm) vmm addr len vmFlags, vmMaps.Reachable vmm →
    addr < 2 ^ 64 → len < 2 ^ 64 → (∃ m' frame, m.malloc Vma.size = .ok (m', frame)) →
    VmMapsAtomically m vmm addr len vmFlags := by
  intro hall
  obtain ⟨m, m₁, vmm, hr, hlist, hm⟩ := vmMaps_area
  have hmaps := hall m vmm 0x800000 0x2000 vmaRead hr (by decide) (by decide) ⟨m₁, _, hm⟩
  refine ((vmMaps_ok hr).vmMap_iff ⟨m₁, _, hm⟩).1 hmaps ?_
  rw [MapsThrough, hlist]
  decide

end GarretOS
