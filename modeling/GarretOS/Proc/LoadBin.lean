import GarretOS.Kernel.Logged
import GarretOS.Mm.CheckVmm
import GarretOS.Mm.AddressSpace
import GarretOS.Trap.Entry
import GarretOS.Word.Bytes

/-!
# Loading a program

`load_bin` of `kernel/proc/proc.c` builds the address space of a process from an ELF image: an area
and pages for each loadable segment, and the user stack.  It runs on byte memory: the words of the
page frames are written byte by byte, and the image is read byte by byte.

The model logs the bytes of kernel memory that are read and the part of a page that each `memcpy`
and `memset` writes (`LoadEvent`), also when the kernel stops half-way.  The do-while loops over
addresses and the loops over pages may make at most `k` rounds.
-/

namespace GarretOS

/-! ### The image -/

/-- `ELF_MAGIC` -/
def elfMagic : ℕ := 0x464C457F

/-- `ELF_PT_LOAD` -/
def elfPtLoad : ℕ := 1

/-- `ELF_PF_X` -/
def elfPfX : ℕ := 1

/-- `ELF_PF_W` -/
def elfPfW : ℕ := 2

/-- `ELF_PF_R` -/
def elfPfR : ℕ := 4

/-- `E_INVAL_ELF` -/
def eInvalElf : ℤ := 8

/-- A byte string in kernel memory. -/
structure Image where
  /-- `bin` -/
  bin : ℕ
  /-- `size` -/
  size : ℕ
  /-- The bytes of kernel memory, those of the string and all others. -/
  byte : ℕ → UInt8
  /-- The string ends before the last address, and it is no larger than memory. -/
  fits : bin + size < 2 ^ 64 ∧ size ≤ dramEndPa - dramBeginPa

/-- The byte of kernel memory at an address. -/
def Image.at (im : Image) (addr : ℕ) : ℕ := (im.byte (u64 addr)).toNat

/-- The little-endian number with `n` bytes at `addr`. -/
def Image.load (im : Image) (addr n : ℕ) : ℕ := Bytes.value (fun i => im.at (addr + i)) n

/-- `struct elf_header` : `e_magic` -/
def Image.eMagic (im : Image) : ℕ := im.load im.bin 4

/-- `e_entry` -/
def Image.eEntry (im : Image) : ℕ := im.load (im.bin + 24) 8

/-- `e_phoff` -/
def Image.ePhoff (im : Image) : ℕ := im.load (im.bin + 32) 8

/-- `e_phnum` -/
def Image.ePhnum (im : Image) : ℕ := im.load (im.bin + 56) 2

/-- The fields of `struct prog_header` that the kernel reads. -/
structure ProgHeader where
  /-- `p_type` -/
  pType : ℕ
  /-- `p_flags` -/
  pFlags : ℕ
  /-- `p_offset` -/
  pOffset : ℕ
  /-- `p_va` -/
  pVa : ℕ
  /-- `p_file_size` -/
  pFileSize : ℕ
  /-- `p_mem_size` -/
  pMemSize : ℕ

/-- `sizeof(struct prog_header)` -/
def ProgHeader.size : ℕ := 56

/-- The program header at an address. -/
def Image.progHeader (im : Image) (prog : ℕ) : ProgHeader where
  pType := im.load prog 4
  pFlags := im.load (prog + 4) 4
  pOffset := im.load (prog + 8) 8
  pVa := im.load (prog + 16) 8
  pFileSize := im.load (prog + 32) 8
  pMemSize := im.load (prog + 40) 8

/-! ### Memory -/

/-- What `load_bin` does to memory, apart from page tables and records. -/
inductive LoadEvent where
  /-- `len` bytes of kernel memory are read from `addr` on. -/
  | read (addr len : ℕ)
  /-- `size` bytes of a page are written from `off` on. -/
  | write (off size : ℕ)
  deriving DecidableEq

/-- A field is read. -/
def readField (addr len : ℕ) : Logged LoadEvent Unit := .emit (.read addr len)

/-- The difference of two values of type `u64`. -/
def sub64 (a b : ℕ) : ℕ := u64 (a + 2 ^ 64 - b)

namespace Mm

/-- A store of one byte to physical memory; there is nothing outside it. -/
def storeByte (m : Mm) (pa b : ℕ) : Res Mm :=
  if dramBeginPa < pa ∧ pa < dramEndPa then
    let page := Bytes.put (m.mem (pa / pageSize)) (pa % pageSize) b
    .ok { m with mem := Function.update m.mem (pa / pageSize) page }
  else .error (.panic "handle page fault failed.")

/-- The loop of `memcpy` and `memset`. -/
def storeBytes (f : ℕ → ℕ) : ℕ → Mm → ℕ → Res Mm
  | 0, m, _ => .ok m
  | n + 1, m, pa => do
    let m ← m.storeByte pa (f 0)
    storeBytes (fun i => f (i + 1)) n m (pa + 1)

/-- `memcpy((void*) (page2va(page) + p_off), (void*) from_begin, size)`, and with `none` for
`from_begin` `memset((void*) (page2va(page) + p_off), 0, size)`. -/
def fillPage (im : Image) (m : Mm) (page pOff : ℕ) (fromBegin : Option ℕ) (size : ℕ) :
    Logged LoadEvent Mm := do
  let va ← .lift (page2va page)
  match fromBegin with
  | none => pure ()
  | some a => readField a size
  .emit (.write pOff size)
  .lift (storeBytes (fun i => match fromBegin with
    | none => 0
    | some a => im.at (a + i)) size m (va * pageSize + pOff))

end Mm

/-! ### Segments -/

/-- The variables of `load_bin` that its loops over pages share. -/
structure LoadVars where
  /-- `to_begin` -/
  toBegin : ℕ
  /-- `p_va` -/
  pVa : ℕ
  /-- `page` -/
  page : Option ℕ

/-- The two loops of `load_bin` over the pages of a segment: pages are allocated and filled, with
bytes of the image or with zeros, up to `to_end`; the return value is `0` or `-E_NO_MEM`. -/
def fillLoop (im : Image) (gpt pteFlags toEnd : ℕ) : ℕ → Mm → Option ℕ → LoadVars →
    Logged LoadEvent (Mm × ℤ × LoadVars)
  | 0, _, _, _ => .lift (.error .diverges)
  | k + 1, m, fromBegin, vars =>
    if vars.toBegin < toEnd then do
      match ← .lift (m.allocPageGpte gpt vars.pVa pteFlags) with
      | (m, none) => return (m, -eNoMem, vars)
      | (m, some page) =>
        let pOff := sub64 vars.toBegin vars.pVa
        let size := sub64 pageSize pOff
        let pVa := u64 (vars.pVa + pageSize)
        let size := if toEnd < pVa then sub64 size (sub64 pVa toEnd) else size
        let m ← m.fillPage im page pOff fromBegin size
        fillLoop im gpt pteFlags toEnd k m (fromBegin.map fun a => u64 (a + size))
          ⟨u64 (vars.toBegin + size), pVa, some page⟩
    else return (m, 0, vars)

/-- The zeros after the last byte of the file, in the page that has it. -/
def fillTail (im : Image) (toEnd : ℕ) (m : Mm) (vars : LoadVars) :
    Logged LoadEvent (Mm × LoadVars) := do
  let pOff := sub64 (u64 (vars.toBegin + pageSize)) vars.pVa
  let size := sub64 pageSize pOff
  let size := if toEnd < vars.pVa then sub64 size (sub64 vars.pVa toEnd) else size
  match vars.page with
  | none => .lift (.error (.panic "page is uninitialized"))
  | some page =>
    let m ← m.fillPage im page pOff none size
    let toBegin := u64 (vars.toBegin + size)
    .lift (assert ((toEnd < vars.pVa ∧ toBegin = toEnd) ∨ (toEnd ≥ vars.pVa ∧ toBegin = vars.pVa))
      "(to_end < p_va && to_begin == to_end) || (to_end >= p_va && to_begin == p_va)")
    return (m, { vars with toBegin })

/-- The permissions that a segment adds to `vm_flags`. -/
def addVmFlags (vmFlags pFlags : ℕ) : ℕ :=
  let vmFlags := if pFlags &&& elfPfX ≠ 0 then vmFlags ||| vmaExec else vmFlags
  let vmFlags := if pFlags &&& elfPfW ≠ 0 then vmFlags ||| vmaWrite else vmFlags
  if pFlags &&& elfPfR ≠ 0 then vmFlags ||| vmaRead else vmFlags

/-- The permissions of the pages of an area. -/
def areaPteFlags (vmFlags : ℕ) : ℕ :=
  let pteFlags := pteU ||| pteV
  let pteFlags := if vmFlags &&& vmaRead ≠ 0 then pteFlags ||| pteR else pteFlags
  let pteFlags := if vmFlags &&& vmaWrite ≠ 0 then pteFlags ||| (pteW ||| pteR) else pteFlags
  if vmFlags &&& vmaExec ≠ 0 then pteFlags ||| pteX else pteFlags

/-- The pages of a segment, after its area has been made. -/
def fillSegment (k : ℕ) (im : Image) (ph : ProgHeader) (gpt pteFlags : ℕ) (m : Mm) :
    Logged LoadEvent (Mm × ℤ) := do
  let toEnd := u64 (ph.pVa + ph.pFileSize)
  let (m, ret, vars) ← fillLoop im gpt pteFlags toEnd k m (some (u64 (im.bin + ph.pOffset)))
    ⟨ph.pVa, rounddown ph.pVa pageSize, none⟩
  if ret ≠ 0 then return (m, ret)
  let toEnd := u64 (ph.pVa + ph.pMemSize)
  if vars.toBegin < vars.pVa then
    if vars.toBegin = toEnd then return (m, 0)
    else
      let (m, vars) ← fillTail im toEnd m vars
      let (m, ret, _) ← fillLoop im gpt pteFlags toEnd k m none vars
      return (m, ret)
  else
    let (m, ret, _) ← fillLoop im gpt pteFlags toEnd k m none vars
    return (m, ret)

/-- One loadable segment: the memory, the address space, `vm_flags`, and the return value. -/
def loadSegment (k : ℕ) (im : Image) (prog : ℕ) (m : Mm) (vmm : VmManager) (vmFlags : ℕ) :
    Logged LoadEvent (Mm × VmManager × ℕ × ℤ) := do
  let ph := im.progHeader prog
  readField (prog + 32) 8
  readField (prog + 40) 8
  if ph.pFileSize > ph.pMemSize then
    return (m, vmm, vmFlags, -eInvalElf)
  readField (prog + 4) 4
  let vmFlags := addVmFlags vmFlags ph.pFlags
  readField (prog + 16) 8
  let (m, vmm, ret) ← .lift (vmMap m vmm ph.pVa ph.pMemSize vmFlags)
  if ret ≠ 0 then
    return (m, vmm, vmFlags, ret)
  readField (prog + 8) 8
  let gpt ← .lift vmm.gpt
  let (m, ret) ← fillSegment k im ph gpt (areaPteFlags vmFlags) m
  return (m, vmm, vmFlags, ret)

/-- The loop of `load_bin` over the program headers, with at most `n` rounds. -/
def loadSegments (k : ℕ) (im : Image) (progEnd : ℕ) : ℕ → ℕ → Mm → VmManager → ℕ →
    Logged LoadEvent (Mm × VmManager × ℤ)
  | 0, _, _, _, _ => .lift (.error .diverges)
  | n + 1, prog, m, vmm, vmFlags =>
    if prog < progEnd then do
      readField prog 4
      if (im.progHeader prog).pType ≠ elfPtLoad then
        loadSegments k im progEnd n (u64 (prog + ProgHeader.size)) m vmm vmFlags
      else
        let (m, vmm, vmFlags, ret) ← loadSegment k im prog m vmm vmFlags
        if ret ≠ 0 then return (m, vmm, ret)
        loadSegments k im progEnd n (u64 (prog + ProgHeader.size)) m vmm vmFlags
    else return (m, vmm, 0)

/-! ### The function -/

/-- `USER_STACK_SIZE` -/
def userStackSize : ℕ := 256 * pageSize

/-- `USER_STACK_END` -/
def userStackEnd : ℕ := userEnd

/-- `USER_STACK_BEGIN` -/
def userStackBegin : ℕ := userStackEnd - userStackSize

/-- The pages of the user stack that are allocated in advance, and the assertions that they are. -/
def userStackPages : List (ℕ × String) := [
  (userStackEnd - pageSize,
    "alloc_page_gpte(vmm->p_gpt, USER_STACK_END - PAGE_SIZE, PTE_USER) != NULL"),
  (userStackEnd - 2 * pageSize,
    "alloc_page_gpte(vmm->p_gpt, USER_STACK_END - 2 * PAGE_SIZE, PTE_USER) != NULL"),
  (userStackEnd - 3 * pageSize,
    "alloc_page_gpte(vmm->p_gpt, USER_STACK_END - 3 * PAGE_SIZE, PTE_USER) != NULL"),
  (userStackEnd - 4 * pageSize,
    "alloc_page_gpte(vmm->p_gpt, USER_STACK_END - 4 * PAGE_SIZE, PTE_USER) != NULL")]

/-- The assertions on the pages of the user stack. -/
def stackPages (gpt : ℕ) : List (ℕ × String) → Mm → Res Mm
  | [], m => .ok m
  | (addr, cond) :: pages, m => do
    let (m, page) ← m.allocPageGpte gpt addr pteUser
    assert (page ≠ none) cond
    stackPages gpt pages m

/-- `SSTATUS_SPIE` -/
def sstatusSpie : Riscv.Word := 0x00000020

/-- `struct trapframe` as `load_bin` sets it up; all other registers are `0`. -/
structure UserFrame where
  /-- `gpr.sp` -/
  sp : ℕ
  /-- `sepc` -/
  sepc : ℕ
  /-- `sstatus` -/
  sstatus : Riscv.Word

/-- `load_bin` : memory, the new address space and trapframe, and the return value.  `bpt` is the
frame of `g_bpt`, and `sstatus` the one of the process. -/
def loadBin (k : ℕ) (im : Image) (bpt : ℕ) (sstatus : Riscv.Word) (m : Mm) :
    Logged LoadEvent (Mm × Option (VmManager × UserFrame) × ℤ) := do
  let (m, vmm) ← .lift (initVmm m)
  let (m, vmm, ret) ← .lift (allocGpt bpt m vmm)
  if ret ≠ 0 then
    let m ← .lift (delVmm m vmm)
    return (m, none, -eNoMem)
  readField im.bin 4
  if im.eMagic ≠ elfMagic then
    let m ← .lift (freeGpt m vmm)
    let m ← .lift (delVmm m vmm)
    return (m, none, -eInvalElf)
  readField (im.bin + 32) 8
  readField (im.bin + 56) 2
  let prog := u64 (im.bin + im.ePhoff)
  let progEnd := u64 (prog + ProgHeader.size * im.ePhnum)
  let (m, vmm, ret) ← loadSegments k im progEnd (im.ePhnum + 1) prog m vmm 0
  if ret ≠ 0 then
    let m ← .lift (teardown k m vmm)
    return (m, none, ret)
  let (m, vmm, ret) ← .lift (vmMap m vmm userStackBegin userStackSize
    (vmaRead ||| vmaWrite ||| vmaStack))
  if ret ≠ 0 then
    let m ← .lift (teardown k m vmm)
    return (m, none, -eNoMem)
  let gpt ← .lift vmm.gpt
  let m ← .lift (stackPages gpt userStackPages m)
  readField (im.bin + 24) 8
  return (m, some ({ vmm with useCount := vmm.useCount + 1 },
    ⟨userStackEnd, im.eEntry, sstatus &&& ~~~(sstatusSpp ||| sstatusSpie)⟩), 0)

end GarretOS
