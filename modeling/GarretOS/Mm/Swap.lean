import GarretOS.Mm.Vmm
import GarretOS.Ring.Basic

/-!
# Swapping

The functions of `kernel/mm/swap.c`, `kernel/mm/swap.h`, `kernel/mm/fifo_swap.c` and
`kernel/driver/ide.c`, and `alloc_pages` and `malloc` of `kernel/mm/pmm.c`, for a `g_test_vmm` that
need not be `NULL`.

A `vm_manager` is named by the frame of its record.  Sectors and pages are counted in words of 64
bit: a sector has 64 of them.
-/

namespace GarretOS

/-- `SECTION_SIZE` -/
def sectionSize : ℕ := 512

/-- `IDE_SECTIONS` -/
def ideSections : ℕ := 64

/-- `PAGE_SECT` -/
def pageSect : ℕ := pageSize / sectionSize

/-- The disk has room for `SWAP_MAX_OFFSET` pages. -/
theorem swapMaxOffset_eq : swapMaxOffset = ideSections / pageSect := by decide

/-- `addr2swap` -/
def addr2swap (addr : ℕ) : ℕ := u64 ((addr >>> pageShift) <<< swapShift)

/-- The memory, the swap disk and the list of swappable pages. -/
structure SwapMm where
  /-- The page frames and the allocator. -/
  mm : Mm
  /-- The links of `g_pra_list` and of `page->pra_link`. -/
  praLink : Links (Option ℕ)
  /-- `page->pra_addr` -/
  praAddr : ℕ → ℕ
  /-- The words of `ide`. -/
  ide : ℕ → ℕ
  /-- The `vm_manager` records. -/
  vmm : ℕ → VmManager
  /-- `vmm->pra_list` is `&g_pra_list` and not `NULL`. -/
  praList : ℕ → Bool
  /-- `g_test_vmm` -/
  testVmm : Option ℕ

namespace SwapMm

variable (s : SwapMm)

/-! ### The disk -/

/-- `read_ide_sects` : from the sector `srcSect` on into the page `dst`. -/
def readIdeSects (dst srcSect numSects : ℕ) : SwapMm :=
  { s with mm := { s.mm with
      mem := Function.update s.mm.mem dst fun w =>
        if w < numSects * 64 then s.ide (srcSect * 64 + w) else s.mm.mem dst w } }

/-- `write_ide_sects` : from the page `src` to the sectors from `dstSect` on. -/
def writeIdeSects (src dstSect numSects : ℕ) : SwapMm :=
  { s with
    ide := fun w => if dstSect * 64 ≤ w ∧ w < dstSect * 64 + numSects * 64 then
      s.mm.mem src (w - dstSect * 64) else s.ide w }

/-- `read_swap_ide` -/
def readSwapIde (entry page : ℕ) : Res SwapMm := do
  let va ← page2va page
  let offset ← swapOffset entry
  return s.readIdeSects va (u32 (offset * pageSect)) pageSect

/-- `write_swap_ide` -/
def writeSwapIde (entry page : ℕ) : Res SwapMm := do
  let va ← page2va page
  let offset ← swapOffset entry
  return s.writeIdeSects va (u32 (offset * pageSect)) pageSect

/-! ### The list of swappable pages -/

/-- `fifo_init_vmm` -/
def fifoInitVmm (vmm : ℕ) : SwapMm :=
  { s with
    praLink := s.praLink.initList none
    praList := Function.update s.praList vmm true }

/-- A list that is reached through `vmm->pra_list`. -/
def checkPraList (vmm : ℕ) : Res Unit :=
  if s.praList vmm then .ok () else .error (.panic "handle page fault failed.")

/-- `fifo_set_swappable` -/
def fifoSetSwappable (vmm page : ℕ) : Res SwapMm := do
  s.checkPraList vmm
  return { s with praLink := s.praLink.addList none (s.praLink.next none) (some page) }

/-- `fifo_swap_out_page` -/
def fifoSwapOutPage (vmm : ℕ) : Res (SwapMm × ℕ) := do
  s.checkPraList vmm
  assert (¬ s.praLink.listEmpty none) "!list_empty(vmm->pra_list)"
  match s.praLink.prev none with
  | none => .error (.assertion "!list_empty(vmm->pra_list)")
  | some page => return ({ s with praLink := s.praLink.delList (some page) }, page)

/-- The pointer that `get_pte` returns where the table must exist. -/
def findPte (vmm addr : ℕ) : Res PtePtr := do
  let gpt ← (s.vmm vmm).gpt
  match ← s.mm.getPte gpt addr false with
  | (_, none) => .error (.panic "handle page fault failed.")
  | (_, some p) => return p

/-- One round of the loop of `swap_out`. -/
def swapOutPage (vmm : ℕ) : Res SwapMm := do
  let (s, page) ← s.fifoSwapOutPage vmm
  let addr := s.praAddr page
  let p ← s.findPte vmm addr
  assert (isValid (s.mm.load p)) "*p_pte & PTE_V"
  let s ← s.writeSwapIde (addr2swap addr) page
  let mm := s.mm.store p (addr2swap addr)
  let mm ← mm.freePage page
  return { s with mm }

/-- `swap_out` -/
def swapOut (vmm : ℕ) : ℕ → SwapMm → Res SwapMm
  | 0, s => .ok s
  | numPages + 1, s => do
    let s ← s.swapOutPage vmm
    swapOut vmm numPages s

/-! ### Allocation -/

/-- `alloc_pages`, its loop being given `k` rounds. -/
def allocPages (n : ℕ) : ℕ → SwapMm → Res (SwapMm × Option ℕ)
  | 0, _ => .error .diverges
  | k + 1, s => do
    let (pmm, page) ← s.mm.pmm.bestFitAllocPages n
    let s := { s with mm := { s.mm with pmm } }
    if page.isSome ∨ ¬ s.mm.swapInit then return (s, page)
    else match s.testVmm with
      | none => .error (.panic "handle page fault failed.")
      | some vmm => do
        let s ← swapOut vmm n s
        allocPages n k s

/-- `alloc_page` -/
def allocPage (k : ℕ) : Res (SwapMm × Option ℕ) := s.allocPages 1 k

/-- `malloc` : the pointer that it returns, which may be `NULL`. -/
def malloc (n k : ℕ) : Res (SwapMm × Option ℕ) := do
  assert (0 < Mm.numPages n ∧ Mm.numPages n < numFreePages)
    "num_pages > 0 && num_pages < g_num_free_pages"
  match ← s.allocPages (Mm.numPages n) k with
  | (_, none) => .error (.assertion
      "ppn >= g_num_qemu_pages + g_num_kernel_pages && ppn < g_num_qemu_pages + g_num_kernel_pages + g_num_free_pages")
  | (s, some page) =>
    let va ← page2va page
    return (s, some va)

/-- `swap_in` : the page that it stores through `p_page`. -/
def swapIn (k vmm addr : ℕ) : Res (SwapMm × ℕ) := do
  match ← s.allocPage k with
  | (_, none) => .error (.assertion "page")
  | (s, some page) =>
    let p ← s.findPte vmm addr
    assert (¬ isValid (s.mm.load p)) "!(*p_pte & PTE_V)"
    let _ ← swapOffset (s.mm.load p)
    let s ← s.readSwapIde (s.mm.load p) page
    return (s, page)

end SwapMm

end GarretOS
