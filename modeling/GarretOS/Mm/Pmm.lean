import GarretOS.Mm.BestFit
import GarretOS.Mm.Layout

/-!
# Physical memory and page tables

The functions of `kernel/mm/pmm.c` and `kernel/mm/pmm.h` on single pages and on page tables.

The memory is the content of the page frames, 512 words of 64 bit each; a frame is named by its
physical page number, and a pointer to a page table entry is a frame and an index.  The kernel
virtual address of a frame is represented by its number: `page2va` and `pte2va` check what the
kernel checks and return the frame.

`alloc_pages` calls `swap_out` for `g_test_vmm` when no page is free and swapping is switched on.
After the boot tests `g_test_vmm` is `NULL`, so that call ends in a fault.
-/

namespace GarretOS

/-- The page descriptors, the free list, and the content of memory. -/
structure Mm where
  /-- `g_pages` and the allocator. -/
  pmm : BestFit
  /-- The words of each frame. -/
  mem : ℕ → ℕ → ℕ
  /-- `g_swap_init_flag` -/
  swapInit : Bool

/-- A pointer to a page table entry: a frame and an index. -/
abbrev PtePtr := ℕ × ℕ

/-- `page2ppn` -/
def page2ppn (page : ℕ) : Res ℕ := do
  assert (poolBegin ≤ page ∧ page < poolEnd)
    "ppn >= g_num_qemu_pages + g_num_kernel_pages && ppn < g_num_qemu_pages + g_num_kernel_pages + g_num_free_pages"
  return page

/-- `page2va` -/
def page2va (page : ℕ) : Res ℕ := do
  let ppn ← page2ppn page
  assert (dramBeginPa < ppn * pageSize ∧ ppn * pageSize < dramEndPa)
    "pa > DRAM_BEGIN_PA && pa < DRAM_END_PA"
  return ppn

/-- `va2page` -/
def va2page (va : ℕ) : Res ℕ := do
  assert (poolBegin ≤ va ∧ va < poolEnd)
    "ppn >= g_num_qemu_pages + g_num_kernel_pages && ppn < g_num_qemu_pages + g_num_kernel_pages + g_num_free_pages"
  return va

/-- `pte2page` -/
def pte2page (pte : ℕ) : Res ℕ := do
  assert (isValid pte) "pte & PTE_V"
  return pte2ppn pte

/-- `pte2va` -/
def pte2va (pte : ℕ) : Res ℕ := do
  let page ← pte2page pte
  page2va page

namespace Mm

/-- Read a page table entry. -/
def load (m : Mm) (p : PtePtr) : ℕ := m.mem p.1 p.2

/-- Write a page table entry. -/
def store (m : Mm) (p : PtePtr) (v : ℕ) : Mm :=
  { m with mem := Function.update m.mem p.1 (Function.update (m.mem p.1) p.2 v) }

/-- `memset(va, 0, PAGE_SIZE)` -/
def memset0 (m : Mm) (va : ℕ) : Mm := { m with mem := Function.update m.mem va fun _ => 0 }

/-- `memcpy(to, from, PAGE_SIZE)` -/
def memcpyPage (m : Mm) (to_ from_ : ℕ) : Mm :=
  { m with mem := Function.update m.mem to_ (m.mem from_) }

/-- `page->ref` -/
def ref (m : Mm) (page : ℕ) : ℕ := (m.pmm.page page).ref

/-- The assignment `page->ref = n`. -/
def setRef (m : Mm) (page n : ℕ) : Mm :=
  { m with pmm := m.pmm.modifyPage page fun q => { q with ref := n } }

/-- `alloc_pages` -/
def allocPages (m : Mm) (n : ℕ) : Res (Mm × Option ℕ) := do
  let (a, page) ← m.pmm.bestFitAllocPages n
  if page = none ∧ m.swapInit then
    .error (.panic "swap_out: g_test_vmm is NULL")
  else
    return ({ m with pmm := a }, page)

/-- `alloc_page` -/
def allocPage (m : Mm) : Res (Mm × Option ℕ) := m.allocPages 1

/-- `free_pages` -/
def freePages (m : Mm) (base n : ℕ) : Res Mm := do
  let a ← m.pmm.bestFitFreePages base n
  return { m with pmm := a }

/-- `free_page` -/
def freePage (m : Mm) (page : ℕ) : Res Mm := m.freePages page 1

/-- The step of `get_pte` from one level to the next: whether the entry at `p` names a table
afterwards. -/
def ensureTable (m : Mm) (p : PtePtr) (needCreate : Bool) : Res (Mm × Bool) :=
  if isValid (m.load p) then .ok (m, true)
  else if ¬ needCreate then .ok (m, false)
  else do
    match ← m.allocPage with
    | (m, none) => return (m, false)
    | (m, some page) =>
      let m := m.setRef page 1
      let va ← page2va page
      let m := m.memset0 va
      let ppn ← page2ppn page
      return (m.store p (ppn2pte ppn pteV), true)

/-- `get_pte` -/
def getPte (m : Mm) (pGpt addr : ℕ) (needCreate : Bool) : Res (Mm × Option PtePtr) := do
  let (m, ok) ← m.ensureTable (pGpt, getGptx addr) needCreate
  if ¬ ok then
    return (m, none)
  let mpt ← pte2va (m.load (pGpt, getGptx addr))
  let (m, ok) ← m.ensureTable (mpt, getMptx addr) needCreate
  if ¬ ok then
    return (m, none)
  let pt ← pte2va (m.load (mpt, getMptx addr))
  return (m, some (pt, getPtx addr))

/-- `get_page` : the pointer it stores through `pp_pte`, and the page. -/
def getPage (m : Mm) (pGpt addr : ℕ) : Res (Option PtePtr × Option ℕ) := do
  match ← m.getPte pGpt addr false with
  | (_, none) => return (none, none)
  | (m, some p) =>
    if isValid (m.load p) then
      let page ← pte2page (m.load p)
      return (some p, some page)
    else return (some p, none)

/-- `del_page` -/
def delPage (m : Mm) (pGpt addr : ℕ) : Res Mm := do
  match ← m.getPte pGpt addr false with
  | (m, none) => return m
  | (m, some p) =>
    if isValid (m.load p) then
      let page ← pte2page (m.load p)
      let m := m.setRef page (u32 (m.ref page + 2 ^ 32 - 1))
      let m ← (if m.ref page = 0 then m.freePage page else .ok m)
      return m.store p 0
    else return m

/-- The part of `add_page` that deals with the previous mapping at `p`. -/
def replacePage (m : Mm) (pGpt page addr : ℕ) (p : PtePtr) : Res Mm :=
  if isValid (m.load p) then do
    let q ← pte2page (m.load p)
    if q = page then
      return m.setRef page (u32 (m.ref page + 2 ^ 32 - 1))
    else
      m.delPage pGpt addr
  else .ok m

/-- `add_page` -/
def addPage (m : Mm) (pGpt page addr flags : ℕ) : Res (Mm × ℤ) := do
  match ← m.getPte pGpt addr true with
  | (m, none) => return (m, -eNoMem)
  | (m, some p) =>
    let m := m.setRef page (u32 (m.ref page + 1))
    let m ← m.replacePage pGpt page addr p
    let ppn ← page2ppn page
    return (m.store p (ppn2pte ppn (pteV ||| flags)), 0)

/-- `alloc_page_gpte`; `g_test_vmm` is `NULL`, so the page is not made swappable. -/
def allocPageGpte (m : Mm) (pGpt addr flags : ℕ) : Res (Mm × Option ℕ) := do
  match ← m.allocPage with
  | (m, none) => return (m, none)
  | (m, some page) =>
    let (m, ret) ← m.addPage pGpt page addr flags
    if ret ≠ 0 then
      let m ← m.freePage page
      return (m, none)
    else
      return (m, some page)

/-- The number of pages that `malloc(n)` asks for. -/
def numPages (n : ℕ) : ℕ := roundup n pageSize >>> pageShift

/-- `malloc`; it does not return `NULL`, since `page2va` does not accept `NULL`. -/
def malloc (m : Mm) (n : ℕ) : Res (Mm × ℕ) := do
  assert (0 < numPages n ∧ numPages n < numFreePages) "num_pages > 0 && num_pages < g_num_free_pages"
  match ← m.allocPages (numPages n) with
  | (_, none) => .error (.assertion
      "ppn >= g_num_qemu_pages + g_num_kernel_pages && ppn < g_num_qemu_pages + g_num_kernel_pages + g_num_free_pages")
  | (m, some page) =>
    let va ← page2va page
    return (m, va)

/-- `free` -/
def free (m : Mm) (ptr n : ℕ) : Res Mm := do
  assert (0 < numPages n ∧ numPages n < numFreePages) "num_pages > 0 && num_pages < g_num_free_pages"
  let page ← va2page ptr
  m.freePages page (numPages n)

end Mm

end GarretOS
