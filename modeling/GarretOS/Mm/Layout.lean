import GarretOS.Kernel.Fault

/-!
# Addresses and page table entries

The constants and the bit fields of `kernel/mm/memlayout.h` and `kernel/mm/page.h`: the indices
of an Sv39 address, page table entries, and the rounding functions of `lib/defs.h`.  Each bit
field comes with the arithmetic it stands for.
-/

namespace GarretOS

/-- `PAGE_SHIFT` -/
def pageShift : ℕ := 12

/-- `PAGE_SIZE` -/
def pageSize : ℕ := 1 <<< pageShift

/-- `PT_SHIFT` -/
def ptShift : ℕ := 9

/-- `PT_SIZE` -/
def ptSize : ℕ := 1 <<< ptShift

/-- `PTX_SHIFT` -/
def ptxShift : ℕ := 12

/-- `MPTX_SHIFT` -/
def mptxShift : ℕ := ptxShift + ptShift

/-- `GPTX_SHIFT` -/
def gptxShift : ℕ := mptxShift + ptShift

/-- `DRAM_BEGIN_PA` -/
def dramBeginPa : ℕ := 0x80000000

/-- `DRAM_END_PA` -/
def dramEndPa : ℕ := 0x88000000

/-- `KERNEL_END_PA` -/
def kernelEndPa : ℕ := 0x82000000

/-- `USER_BEGIN` -/
def userBegin : ℕ := 0x00200000

/-- `USER_END` -/
def userEnd : ℕ := 0x80000000

/-- `g_num_qemu_pages` -/
def numQemuPages : ℕ := dramBeginPa / pageSize

/-- `g_num_kernel_pages`; the kernel addresses are the physical ones with a fixed offset. -/
def numKernelPages : ℕ := (kernelEndPa - dramBeginPa) / pageSize

/-- `g_num_free_pages` -/
def numFreePages : ℕ := (userEnd - userBegin) / pageSize

/-- The first page that `init_page` hands to the allocator. -/
def poolBegin : ℕ := numQemuPages + numKernelPages

/-- The end of the pages that `init_page` hands to the allocator. -/
def poolEnd : ℕ := poolBegin + numFreePages

theorem poolBegin_eq : poolBegin = 0x82000 := by decide

theorem poolEnd_eq : poolEnd = 0x101E00 := by decide

theorem pageSize_eq : pageSize = 4096 := by decide

theorem ptSize_eq : ptSize = 512 := by decide

/-- `PTE_V` : valid. -/
def pteV : ℕ := 0x001

/-- `PTE_R` : read. -/
def pteR : ℕ := 0x002

/-- `PTE_W` : write. -/
def pteW : ℕ := 0x004

/-- `PTE_X` : execute. -/
def pteX : ℕ := 0x008

/-- `PTE_U` : user. -/
def pteU : ℕ := 0x010

/-- `PTE_USER` -/
def pteUser : ℕ := pteV ||| pteR ||| pteW ||| pteX ||| pteU

/-- `PTE_SHIFT` -/
def pteShift : ℕ := 10

/-- `E_INVAL` -/
def eInval : ℤ := 3

/-- `E_NO_MEM` -/
def eNoMem : ℤ := 4

/-- `E_NO_DEV` -/
def eNoDev : ℤ := 13

/-- `get_ptx` -/
def getPtx (addr : ℕ) : ℕ := (addr >>> ptxShift) &&& 0x1FF

/-- `get_mptx` -/
def getMptx (addr : ℕ) : ℕ := (addr >>> mptxShift) &&& 0x1FF

/-- `get_gptx` -/
def getGptx (addr : ℕ) : ℕ := (addr >>> gptxShift) &&& 0x1FF

/-- `ppn2pte`; the flags are bits of the low ten. -/
def ppn2pte (ppn flags : ℕ) : ℕ := u64 (ppn <<< pteShift) ||| flags

/-- `pte2ppn` -/
def pte2ppn (pte : ℕ) : ℕ := pte >>> pteShift

/-- The permission bits of an entry. -/
def pteFlags (pte : ℕ) : ℕ := pte % 2 ^ pteShift

/-- `*p_pte & PTE_V` -/
def isValid (pte : ℕ) : Bool := pte &&& pteV ≠ 0

/-- `rounddown` -/
def rounddown (a n : ℕ) : ℕ := a / n * n

/-- `roundup` -/
def roundup (a n : ℕ) : ℕ := u64 (a + n - 1) / n * n

/-- `user_access` -/
def userAccess (start stop : ℕ) : Prop := userBegin ≤ start ∧ start < stop ∧ stop ≤ userEnd

instance (start stop : ℕ) : Decidable (userAccess start stop) := by
  unfold userAccess
  infer_instance

/-! ### Fields of addresses -/

theorem and_mask (n : ℕ) : n &&& 0x1FF = n % 512 := Nat.and_two_pow_sub_one_eq_mod n 9

theorem getPtx_eq (addr : ℕ) : getPtx addr = addr / 4096 % 512 := by
  rw [getPtx, and_mask, Nat.shiftRight_eq_div_pow]
  rfl

theorem getMptx_eq (addr : ℕ) : getMptx addr = addr / 2097152 % 512 := by
  rw [getMptx, and_mask, Nat.shiftRight_eq_div_pow]
  rfl

theorem getGptx_eq (addr : ℕ) : getGptx addr = addr / 1073741824 % 512 := by
  rw [getGptx, and_mask, Nat.shiftRight_eq_div_pow]
  rfl

/-- The three indices of an address. -/
def indices (addr : ℕ) : ℕ × ℕ × ℕ := (getGptx addr, getMptx addr, getPtx addr)

theorem index_lt (addr : ℕ) : getGptx addr < 512 ∧ getMptx addr < 512 ∧ getPtx addr < 512 := by
  rw [getGptx_eq, getMptx_eq, getPtx_eq]
  omega

/-- Two Sv39 addresses have the same indices just when they are on the same page. -/
theorem indices_eq_iff {a b : ℕ} (ha : a < 2 ^ 39) (hb : b < 2 ^ 39) :
    indices a = indices b ↔ a / 4096 = b / 4096 := by
  simp only [indices, Prod.mk.injEq, getGptx_eq, getMptx_eq, getPtx_eq]
  omega

/-- User addresses have the first two indices of the root table. -/
theorem getGptx_user {addr : ℕ} (h : addr < userEnd) : getGptx addr < 2 := by
  rw [getGptx_eq]
  simp only [userEnd] at h
  omega

/-! ### Fields of page table entries -/

theorem isValid_iff (pte : ℕ) : isValid pte ↔ pte % 2 = 1 := by
  have h : pte &&& pteV = pte % 2 := Nat.and_two_pow_sub_one_eq_mod pte 1
  simp only [isValid, h, decide_eq_true_eq]
  omega

@[simp] theorem isValid_zero : isValid 0 = false := rfl

theorem ppn2pte_eq {ppn flags : ℕ} (hp : ppn < 2 ^ 54) (hf : flags < 1024) :
    ppn2pte ppn flags = ppn * 1024 + flags := by
  have hshift : ppn <<< pteShift = 1024 * ppn := by
    rw [Nat.shiftLeft_eq]
    exact Nat.mul_comm ppn 1024
  have hlt : ppn <<< pteShift < 2 ^ 64 := by
    rw [hshift]
    omega
  have hor := Nat.two_pow_add_eq_or_of_lt (i := 10) hf ppn
  rw [ppn2pte, u64_of_lt hlt, hshift, ← hor]
  omega

theorem pte2ppn_eq (pte : ℕ) : pte2ppn pte = pte / 1024 := by
  rw [pte2ppn, Nat.shiftRight_eq_div_pow]
  rfl

theorem pte2ppn_ppn2pte {ppn flags : ℕ} (hp : ppn < 2 ^ 54) (hf : flags < 1024) :
    pte2ppn (ppn2pte ppn flags) = ppn := by
  rw [pte2ppn_eq, ppn2pte_eq hp hf]
  omega

theorem pteFlags_ppn2pte {ppn flags : ℕ} (hp : ppn < 2 ^ 54) (hf : flags < 1024) :
    pteFlags (ppn2pte ppn flags) = flags := by
  rw [pteFlags, ppn2pte_eq hp hf, pteShift]
  omega

/-- The valid bit of the flags of a mapping. -/
theorem pteV_or {flags : ℕ} (hf : flags < 1024) :
    pteV ||| flags < 1024 ∧ (pteV ||| flags) % 2 = 1 := by
  exact ⟨Nat.or_lt_two_pow (n := 10) (by decide) hf, Nat.or_mod_two_eq_one.2 (Or.inl rfl)⟩

theorem user_flags (pte : ℕ) : pte &&& pteUser < 1024 :=
  Nat.and_lt_two_pow pte (n := 10) (by decide)

theorem isValid_ppn2pte {ppn flags : ℕ} (hp : ppn < 2 ^ 54) (hf : flags < 1024) :
    isValid (ppn2pte ppn flags) ↔ flags % 2 = 1 := by
  rw [isValid_iff, ppn2pte_eq hp hf]
  omega

end GarretOS
