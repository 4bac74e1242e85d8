import GarretOS.Mm.Pmm

/-!
# Address spaces

The functions of `kernel/mm/vmm.c`, `kernel/mm/pmm.c` and `kernel/proc/proc.c` that build, copy
and tear down the address space of a process: a `vm_manager`, its list of virtual memory areas,
and its page table.

The list `vma_list` is a list of records in the order of its links; each record knows the frame
that `malloc` has put it in.  The do-while loops over addresses take the number of rounds they may
make as an argument; a loop that has used them up ends in `Fault.diverges`.
-/

namespace GarretOS

/-- `VMA_READ` -/
def vmaRead : ℕ := 0x00000001

/-- `VMA_WRITE` -/
def vmaWrite : ℕ := 0x00000002

/-- `struct vm_area` -/
structure Vma where
  /-- The frame of the record. -/
  frame : ℕ
  /-- `vm_start` -/
  vmStart : ℕ
  /-- `vm_end` -/
  vmEnd : ℕ
  /-- `vm_flags` -/
  vmFlags : ℕ
  deriving DecidableEq

/-- `sizeof(struct vm_area)` -/
def Vma.size : ℕ := 48

/-- `struct vm_manager`, without the semaphore and the list of the page replacement algorithm. -/
structure VmManager where
  /-- The frame of the record. -/
  frame : ℕ
  /-- `vma_list`, from `next` of its head on. -/
  vmaList : List Vma
  /-- `vma_curr` -/
  vmaCurr : Option Vma
  /-- `p_gpt` -/
  pGpt : Option ℕ
  /-- `vma_count` -/
  vmaCount : ℕ
  /-- `use_count` -/
  useCount : ℕ

/-- `sizeof(struct vm_manager)` -/
def VmManager.size : ℕ := 88

/-- `p_gpt`, where it must not be `NULL`. -/
def VmManager.gpt (vmm : VmManager) : Res ℕ :=
  match vmm.pGpt with
  | none => .error (.panic "p_gpt is NULL")
  | some r => .ok r

/-! ### Virtual memory areas -/

/-- `init_vma` -/
def initVma (m : Mm) (vmStart vmEnd vmFlags : ℕ) : Res (Mm × Vma) := do
  let (m, frame) ← m.malloc Vma.size
  return (m, { frame, vmStart, vmEnd, vmFlags })

/-- `test_vma_overlap` -/
def testVmaOverlap (vmaPrev vmaNext : Vma) : Res Unit := do
  assert (vmaPrev.vmStart < vmaPrev.vmEnd) "vma_prev->vm_start < vma_prev->vm_end"
  assert (vmaPrev.vmEnd ≤ vmaNext.vmStart) "vma_prev->vm_end <= vma_next->vm_start"
  assert (vmaNext.vmStart < vmaNext.vmEnd) "vma_next->vm_start < vma_next->vm_end"

/-- `add_vma` : the new area goes before the first one that does not start below it. -/
def addVma (vmm : VmManager) (vma : Vma) : Res VmManager := do
  assert (vma.vmStart < vma.vmEnd) "vma->vm_start < vma->vm_end"
  let before := vmm.vmaList.takeWhile fun v => v.vmStart < vma.vmStart
  let after := vmm.vmaList.dropWhile fun v => v.vmStart < vma.vmStart
  match before.getLast? with
  | none => pure ()
  | some v => testVmaOverlap v vma
  match after.head? with
  | none => pure ()
  | some v => testVmaOverlap vma v
  return { vmm with vmaList := before ++ vma :: after, vmaCount := u32 (vmm.vmaCount + 1) }

/-- The address is in the area. -/
def Vma.holds (vma : Vma) (addr : ℕ) : Bool := vma.vmStart ≤ addr ∧ addr < vma.vmEnd

/-- `find_vma` : the area that holds the address, which becomes the current one. -/
def findVma (vmm : VmManager) (addr : ℕ) : VmManager × Option Vma :=
  match vmm.vmaCurr.filter (·.holds addr) with
  | some vma => (vmm, some vma)
  | none => match vmm.vmaList.find? (·.holds addr) with
    | some vma => ({ vmm with vmaCurr := some vma }, some vma)
    | none => (vmm, none)

/-- `vm_map` -/
def vmMap (m : Mm) (vmm : VmManager) (addr len vmFlags : ℕ) : Res (Mm × VmManager × ℤ) := do
  let vmStart := rounddown addr pageSize
  let vmEnd := roundup (u64 (addr + len)) pageSize
  if ¬ userAccess vmStart vmEnd then
    return (m, vmm, -eInval)
  let (vmm, vma) := findVma vmm vmStart
  if vma.any fun v => v.vmStart < vmEnd then
    return (m, vmm, -eInval)
  let (m, vma) ← initVma m vmStart vmEnd vmFlags
  let vmm ← addVma vmm vma
  return (m, vmm, 0)

/-! ### Copying an address space -/

/-- The checks that `del_range`, `free_range` and `copy_range` begin with. -/
def checkRange (start stop : ℕ) : Res Unit := do
  assert (start % pageSize = 0 ∧ stop % pageSize = 0) "start % PAGE_SIZE == 0 && end % PAGE_SIZE == 0"
  assert (userAccess start stop) "user_access(start, end)"

/-- One round of the loop of `copy_range` : the return value if it is not `0`, and the address to
go on with. -/
def copyStep (m : Mm) (from_ to_ start : ℕ) : Res (Mm × ℤ × ℕ) := do
  match ← m.getPte from_ start false with
  | (m, none) => return (m, 0, rounddown (u64 (start + ptSize)) ptSize)
  | (m, some p) =>
    if isValid (m.load p) then
      match ← m.getPte to_ start true with
      | (m, none) => return (m, -eNoMem, start)
      | (m, some _) =>
        let flags := m.load p &&& pteUser
        let page ← pte2page (m.load p)
        match ← m.allocPage with
        | (_, none) => .error (.assertion "new_page != NULL")
        | (m, some newPage) =>
          let dst ← page2va newPage
          let src ← page2va page
          let m := m.memcpyPage dst src
          let (m, ret) ← m.addPage to_ newPage start flags
          return (m, ret, u64 (start + pageSize))
    else return (m, 0, u64 (start + pageSize))

/-- The loop of `copy_range`, with at most `k` rounds. -/
def copyLoop (from_ to_ stop : ℕ) : ℕ → Mm → ℕ → Res (Mm × ℤ)
  | 0, _, _ => .error .diverges
  | k + 1, m, start => do
    let (m, ret, start) ← copyStep m from_ to_ start
    if ret ≠ 0 then return (m, ret)
    else if start ≠ 0 ∧ start < stop then copyLoop from_ to_ stop k m start
    else return (m, 0)

/-- `copy_range`, with at most `k` rounds. -/
def copyRange (k : ℕ) (m : Mm) (from_ to_ start stop : ℕ) : Res (Mm × ℤ) := do
  checkRange start stop
  copyLoop from_ to_ stop k m start

/-- The loop of `dup_vmm` over the areas of `from`. -/
def dupVmas (k : ℕ) (m : Mm) (from_ : VmManager) : List Vma → VmManager → Res (Mm × VmManager × ℤ)
  | [], to_ => .ok (m, to_, 0)
  | vma :: vmas, to_ => do
    let (m, newVma) ← initVma m vma.vmStart vma.vmEnd vma.vmFlags
    let to_ ← addVma to_ newVma
    let fromGpt ← from_.gpt
    let toGpt ← to_.gpt
    let (m, ret) ← copyRange k m fromGpt toGpt vma.vmStart vma.vmEnd
    if ret ≠ 0 then return (m, to_, -eNoMem)
    else dupVmas k m from_ vmas to_

/-- `dup_vmm`, with at most `k` rounds in each range; the areas are visited from the last to the
first. -/
def dupVmm (k : ℕ) (m : Mm) (from_ to_ : VmManager) : Res (Mm × VmManager × ℤ) :=
  dupVmas k m from_ from_.vmaList.reverse to_

/-! ### Demand faults -/

/-- `SWAP_SHIFT` -/
def swapShift : ℕ := 8

/-- `SWAP_MAX_OFFSET` -/
def swapMaxOffset : ℕ := 8

/-- `swap_offset` -/
def swapOffset (entry : ℕ) : Res ℕ := do
  let offset := entry >>> swapShift
  assert (0 < offset ∧ offset < swapMaxOffset) "offset > 0 && offset < SWAP_MAX_OFFSET"
  return offset

/-- `swap_in` : the frame that the page is read into; `ide` is the content of the swap partition,
page by page. -/
def swapIn (m : Mm) (pGpt addr : ℕ) (ide : ℕ → ℕ → ℕ) : Res (Mm × ℕ) := do
  match ← m.allocPage with
  | (_, none) => .error (.assertion "page")
  | (m, some page) =>
    match ← m.getPte pGpt addr false with
    | (_, none) => .error (.panic "p_pte is NULL")
    | (m, some p) =>
      assert (¬ isValid (m.load p)) "!(*p_pte & PTE_V)"
      let va ← page2va page
      let offset ← swapOffset (m.load p)
      return ({ m with mem := Function.update m.mem va (ide offset) }, page)

/-- The permissions that `handle_page_fault` gives to the pages of an area. -/
def faultFlags (vma : Vma) : ℕ := if vma.vmFlags &&& vmaWrite ≠ 0 then pteR ||| pteW else 0

/-- `handle_page_fault` -/
def handlePageFault (m : Mm) (vmm : VmManager) (addr : ℕ) (ide : ℕ → ℕ → ℕ) :
    Res (Mm × VmManager × ℤ) := do
  let (vmm, vma) := findVma vmm addr
  match vma with
  | none => return (m, vmm, -eInval)
  | some vma =>
    if vma.vmStart > addr then return (m, vmm, -eInval)
    else
      let pteFlags := faultFlags vma
      let addr := rounddown addr pageSize
      let gpt ← vmm.gpt
      match ← m.getPte gpt addr true with
      | (_, none) => .error (.panic "p_pte is NULL")
      | (m, some p) =>
        if m.load p = 0 then
          match ← m.allocPageGpte gpt addr pteFlags with
          | (m, none) => return (m, vmm, -eNoMem)
          | (m, some _) => return (m, vmm, 0)
        else if m.swapInit then
          let (m, page) ← swapIn m gpt addr ide
          let (m, _) ← m.addPage gpt page addr pteFlags
          return (m, vmm, 0)
        else return (m, vmm, -eNoMem)

/-! ### Building and tearing down -/

/-- `init_vmm` -/
def initVmm (m : Mm) : Res (Mm × VmManager) := do
  let (m, frame) ← m.malloc VmManager.size
  return (m, { frame, vmaList := [], vmaCurr := none, pGpt := none, vmaCount := 0, useCount := 0 })

/-- `alloc_gpt`; `bpt` is the frame of the page table `g_bpt`. -/
def allocGpt (bpt : ℕ) (m : Mm) (vmm : VmManager) : Res (Mm × VmManager × ℤ) := do
  match ← m.allocPage with
  | (m, none) => return (m, vmm, -eNoMem)
  | (m, some page) =>
    let pGpt ← page2va page
    return (m.memcpyPage pGpt bpt, { vmm with pGpt := some pGpt }, 0)

/-- One round of the loop of `del_range`, and the address to go on with. -/
def delStep (m : Mm) (pGpt start : ℕ) : Res (Mm × ℕ) := do
  match ← m.getPte pGpt start false with
  | (m, none) => return (m, rounddown (u64 (start + ptSize)) ptSize)
  | (m, some p) =>
    let m ← (if m.load p ≠ 0 then m.delPage pGpt start else .ok m)
    return (m, u64 (start + pageSize))

/-- One round of the loop of `free_range`, and the address to go on with. -/
def freeStep (m : Mm) (pGpt start : ℕ) : Res (Mm × ℕ) := do
  let index := getGptx start
  let m ← (if isValid (m.load (pGpt, index)) then do
      let page ← pte2page (m.load (pGpt, index))
      let m ← m.freePage page
      return m.store (pGpt, index) 0
    else .ok m)
  return (m, u64 (start + ptSize))

/-- A do-while loop over a range of addresses, with at most `k` rounds. -/
def rangeLoop (step : Mm → ℕ → Res (Mm × ℕ)) (stop : ℕ) : ℕ → Mm → ℕ → Res Mm
  | 0, _, _ => .error .diverges
  | k + 1, m, start => do
    let (m, start) ← step m start
    if start ≠ 0 ∧ start < stop then rangeLoop step stop k m start else return m

/-- `del_range` -/
def delRange (k : ℕ) (m : Mm) (pGpt start stop : ℕ) : Res Mm := do
  checkRange start stop
  rangeLoop (fun m start => delStep m pGpt start) stop k m start

/-- `free_range` -/
def freeRange (k : ℕ) (m : Mm) (pGpt start stop : ℕ) : Res Mm := do
  checkRange start stop
  rangeLoop (fun m start => freeStep m pGpt start) stop k m (rounddown start pageSize)

/-- A loop over the list of areas. -/
def forVmas (f : Mm → Vma → Res Mm) : Mm → List Vma → Res Mm
  | m, [] => .ok m
  | m, vma :: vmas => do
    let m ← f m vma
    forVmas f m vmas

/-- `del_vmas` -/
def delVmas (k : ℕ) (m : Mm) (vmm : VmManager) : Res Mm := do
  assert (vmm.useCount = 0) "vmm != NULL && vmm->use_count == 0"
  let gpt ← vmm.gpt
  let m ← forVmas (fun m vma => delRange k m gpt vma.vmStart vma.vmEnd) m vmm.vmaList
  forVmas (fun m vma => freeRange k m gpt vma.vmStart vma.vmEnd) m vmm.vmaList

/-- `free_gpt` -/
def freeGpt (m : Mm) (vmm : VmManager) : Res Mm := do
  let gpt ← vmm.gpt
  let page ← va2page gpt
  m.freePage page

/-- `del_vmm` -/
def delVmm (m : Mm) (vmm : VmManager) : Res Mm := do
  let m ← forVmas (fun m vma => m.free vma.frame Vma.size) m vmm.vmaList
  m.free vmm.frame VmManager.size

/-- The sequence `del_vmas`, `free_gpt`, `del_vmm` that gives up an address space. -/
def teardown (k : ℕ) (m : Mm) (vmm : VmManager) : Res Mm := do
  let m ← delVmas k m vmm
  let m ← freeGpt m vmm
  delVmm m vmm

end GarretOS
