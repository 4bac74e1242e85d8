import GarretOS.Mm.Placement
import GarretOS.Mm.VmaList

/-!
# Checking user pointers

`check_vmm` looks at one address of each area that a range meets: the first one, and then the end
of each area it has passed.  The areas are disjoint, so this decides whether every byte of the
range may be accessed (`check_vmm_correct`).
-/

namespace GarretOS

open Spans

/-- `VMA_EXEC` -/
def vmaExec : ℕ := 0x00000004

/-- `VMA_STACK` -/
def vmaStack : ℕ := 0x00000008

/-- `kernel_access` -/
def kernelAccess (start stop : ℕ) : Bool :=
  kernelBeginVa ≤ start ∧ start < stop ∧ stop ≤ kernelEndVa

/-- `write ? VMA_WRITE : VMA_READ` -/
def accessFlag (write : Bool) : ℕ := if write then vmaWrite else vmaRead

/-- What `check_vmm` objects to at an address that `find_vma` has found in the area. -/
def Vma.refuses (vma : Vma) (write : Bool) (begin_ : ℕ) : Bool :=
  begin_ < vma.vmStart ∨ vma.vmFlags &&& accessFlag write = 0 ∨
    write ∧ vma.vmFlags &&& vmaStack ≠ 0 ∧ begin_ < u64 (vma.vmStart + pageSize)

/-- The loop of `check_vmm`, with at most `k` rounds. -/
def checkLoop (write : Bool) (stop : ℕ) : ℕ → VmManager → ℕ → Res (VmManager × Bool)
  | 0, _, _ => .error .diverges
  | k + 1, vmm, begin_ =>
    if begin_ < stop then
      match findVma vmm begin_ with
      | (vmm, none) => .ok (vmm, false)
      | (vmm, some vma) =>
        if vma.refuses write begin_ then .ok (vmm, false)
        else checkLoop write stop k vmm vma.vmEnd
    else .ok (vmm, true)

/-- `check_vmm`, with at most `k` rounds. -/
def checkVmm (k : ℕ) (vmm : Option VmManager) (addr len : ℕ) (write : Bool) :
    Res (Option VmManager × Bool) :=
  match vmm with
  | none => .ok (none, kernelAccess addr (u64 (addr + len)))
  | some vmm =>
    if ¬ userAccess addr (u64 (addr + len)) then .ok (some vmm, false)
    else do
      let (vmm, ok) ← checkLoop write (u64 (addr + len)) k vmm addr
      return (some vmm, ok)

/-- The byte may be accessed: an area that permits it has it, and it is not in the lowest page of
a stack that is written to. -/
def Accessible (vmas : List Vma) (write : Bool) (a : ℕ) : Prop :=
  ∃ v ∈ vmas, v.holds a ∧ v.vmFlags &&& accessFlag write ≠ 0 ∧
    ¬ (write ∧ v.vmFlags &&& vmaStack ≠ 0 ∧ a < v.vmStart + pageSize)

variable {vmm : VmManager} {write : Bool} {stop begin_ : ℕ}

/-- One look at an area decides about all its bytes from there on. -/
theorem accessible_iff (hs : VmaSorted vmm.vmaList) (hstop : stop ≤ userEnd) (hlt : begin_ < stop)
    {v : Vma} (hv : v ∈ vmm.vmaList) (hb : begin_ ∈ Set.Ico v.vmStart v.vmEnd) :
    (∀ a ∈ Set.Ico begin_ stop, a < v.vmEnd → Accessible vmm.vmaList write a) ↔
      v.refuses write begin_ = false := by
  have hpage : u64 (v.vmStart + pageSize) = v.vmStart + pageSize := by
    have h1 := hb.1
    rw [userEnd] at hstop
    rw [pageSize_eq]
    exact u64_of_lt (by omega)
  have hrefuses : v.refuses write begin_ = false ↔ v.vmFlags &&& accessFlag write ≠ 0 ∧
      ¬ (write ∧ v.vmFlags &&& vmaStack ≠ 0 ∧ begin_ < v.vmStart + pageSize) := by
    rw [Vma.refuses, hpage, decide_eq_false_iff_not, not_or, not_or]
    exact and_iff_right (not_lt.2 hb.1)
  rw [hrefuses]
  constructor
  · intro h
    obtain ⟨w, hw, hholds, hflag, hstack⟩ := h begin_ ⟨le_rfl, hlt⟩ hb.2
    obtain rfl := hs.eq_of_mem hw hv (Vma.holds_iff_mem.1 hholds) hb
    exact ⟨hflag, hstack⟩
  · rintro ⟨hflag, hstack⟩ a ha hend
    refine ⟨v, hv, Vma.holds_iff_mem.2 ⟨hb.1.trans ha.1, hend⟩, hflag, ?_⟩
    rintro ⟨h1, h2, h3⟩
    exact hstack ⟨h1, h2, lt_of_le_of_lt ha.1 h3⟩

/-- **The loop** comes to an end, and tells whether all bytes may be accessed. -/
theorem checkLoop_spec (hs : VmaSorted vmm.vmaList) (hcurr : ∀ v ∈ vmm.vmaCurr, v ∈ vmm.vmaList)
    (hstop : stop ≤ userEnd) {k : ℕ} (hk : stop - begin_ < k) :
    ∃ c ok, checkLoop write stop k vmm begin_ = .ok ({ vmm with vmaCurr := c }, ok) ∧
      (ok = true ↔ ∀ a ∈ Set.Ico begin_ stop, Accessible vmm.vmaList write a) := by
  induction k generalizing vmm begin_ with
  | zero => omega
  | succ k ih =>
    rw [checkLoop]
    by_cases hlt : begin_ < stop
    · rw [if_pos hlt]
      obtain ⟨c, hc, hmem⟩ := findVma_keeps hcurr begin_
      cases hf : findVma vmm begin_ with
      | mk vmm₁ o =>
        obtain rfl : vmm₁ = { vmm with vmaCurr := c } := by rw [← hc, hf]
        cases o with
        | none =>
          refine ⟨c, false, rfl, iff_of_false (by simp) fun hall => ?_⟩
          obtain ⟨v, hv, hholds, -⟩ := hall begin_ ⟨le_rfl, hlt⟩
          have hsome := (findVma_eq_some hs hcurr).2 ⟨hv, hholds⟩
          rw [hf] at hsome
          cases hsome
        | some v =>
          obtain ⟨hv, hholds⟩ := (findVma_eq_some hs hcurr).1 (congrArg Prod.snd hf)
          have hb := Vma.holds_iff_mem.1 hholds
          have hone : _ ↔ v.refuses write begin_ = false := accessible_iff hs hstop hlt hv hb
          simp only
          rw [forall_ico_split hb, hone]
          by_cases href : v.refuses write begin_
          · rw [if_pos href]
            exact ⟨c, false, rfl, by simp [href]⟩
          · -- the walk goes on after the area, with less to go
            rw [if_neg href]
            have hrest : stop - v.vmEnd < k := by
              have := hb.2
              omega
            have hs' : VmaSorted { vmm with vmaCurr := c }.vmaList := hs
            obtain ⟨c', ok, heq, hok⟩ := ih hs' hmem hrest
            exact ⟨c', ok, heq, by rw [hok]; simp [href]⟩
    · rw [if_neg hlt]
      refine ⟨vmm.vmaCurr, true, rfl, iff_of_true rfl fun a ha => ?_⟩
      exact absurd (lt_of_le_of_lt ha.1 ha.2) hlt

/-- **`check_vmm`** accepts the ranges all of whose bytes the process may access, and changes
nothing but `vma_curr`. -/
theorem check_vmm_correct (hs : VmaSorted vmm.vmaList)
    (hcurr : ∀ v ∈ vmm.vmaCurr, v ∈ vmm.vmaList) {addr len : ℕ} (haddr : addr < 2 ^ 64)
    (hlen : len < 2 ^ 64) {k : ℕ} (hk : len < k) :
    ∃ c ok, checkVmm k (some vmm) addr len write = .ok (some { vmm with vmaCurr := c }, ok) ∧
      (ok = true ↔ addr < addr + len ∧ addr + len < 2 ^ 64 ∧
        (userBegin ≤ addr ∧ addr + len ≤ userEnd) ∧
        ∀ a, addr ≤ a → a < addr + len → ∃ v ∈ vmm.vmaList, v.holds a ∧
          v.vmFlags &&& (if write then vmaWrite else vmaRead) ≠ 0 ∧
          ¬ (write ∧ v.vmFlags &&& vmaStack ≠ 0 ∧ a < v.vmStart + pageSize)) := by
  rw [checkVmm]
  by_cases hua : userAccess addr (u64 (addr + len))
  · obtain ⟨h1, h2, h3⟩ := hua
    -- the sum has not wrapped around, since it is above `addr`
    have hsum : u64 (addr + len) = addr + len := by
      rw [u64] at h2 ⊢
      omega
    have hlt : addr + len < 2 ^ 64 := hsum ▸ Nat.mod_lt _ (by decide)
    rw [hsum] at h2 h3 ⊢
    have hk' : addr + len - addr < k := by omega
    obtain ⟨c, ok, heq, hok⟩ : ∃ c ok, checkLoop write (addr + len) k vmm addr = .ok (_, ok) ∧ _ :=
      checkLoop_spec hs hcurr h3 hk'
    refine ⟨c, ok, ?_, ?_⟩
    · rw [if_neg (not_not.2 ⟨h1, h2, h3⟩), heq]
      rfl
    · rw [hok]
      constructor
      · exact fun h => ⟨h2, hlt, ⟨h1, h3⟩, fun a ha ha' => h a ⟨ha, ha'⟩⟩
      · exact fun h a ha => h.2.2.2 a ha.1 ha.2
  · rw [if_pos hua]
    refine ⟨vmm.vmaCurr, false, rfl, iff_of_false (by simp) ?_⟩
    rintro ⟨h1, h2, ⟨h3, h4⟩, -⟩
    exact hua (by rw [u64_of_lt h2]; exact ⟨h3, h1, h4⟩)

/-- An address space with a stack. -/
def stackVmm : VmManager :=
  ⟨0x82000, [⟨0x82001, 0x7FF00000, 0x80000000, vmaWrite ||| vmaStack⟩], none, none, 1, 0⟩

/-- The stack may be written to from its second page on. -/
theorem check_vmm_correct_stack : ∃ c,
    checkVmm 17 (some stackVmm) 0x7FF01000 16 true =
      .ok (some { stackVmm with vmaCurr := c }, true) := by
  have hs : VmaSorted stackVmm.vmaList := List.pairwise_singleton _ _
  have hcurr : ∀ v ∈ stackVmm.vmaCurr, v ∈ stackVmm.vmaList := nofun
  obtain ⟨c, ok, heq, hok⟩ : ∃ c ok, checkVmm 17 (some stackVmm) 0x7FF01000 16 true = .ok (_, ok) ∧
      (ok = true ↔ _) := check_vmm_correct hs hcurr (by decide) (by decide) (by decide)
  have htrue : ok = true := by
    refine hok.2 ⟨by decide, by decide, by decide, fun a h1 h2 => ⟨_, List.mem_singleton_self _,
      Vma.holds_iff_mem.2 ⟨?_, ?_⟩, by decide, fun h => ?_⟩⟩
    · change 0x7FF00000 ≤ a
      omega
    · change a < 0x80000000
      omega
    · have h3 : a < 0x7FF00000 + 4096 := h.2.2
      omega
  exact ⟨c, htrue ▸ heq⟩

end GarretOS
