import GarretOS.Mm.Vmm
import GarretOS.Proc.Kernel

/-!
# `do_fork` and memory

`do_fork` and the functions of `kernel/proc/proc.c` that it calls, with the memory that they
allocate and free.  Processes and structures `vm_manager` are named by the frames that `malloc` has
put them in.

The register contexts, the names and the flags of the processes and the hash lists are left out, and
so is `vmm->owner_pid`, which nothing reads.  Loops are given `k` rounds.
-/

namespace GarretOS

/-- `sizeof(struct pcb)` -/
def pcbSize : ℕ := 320

/-- `KERNEL_STACK_PAGE` -/
def kernelStackPage : ℕ := 2

/-- Memory, the processes and their address spaces. -/
structure ForkState (κ : Type) where
  /-- The allocator and the content of memory. -/
  mm : Mm
  /-- The states of the processes and the run queue, and the semaphores: those named by `κ`, and
  `vmm->sem` for each `vmm`. -/
  sched : Sched (κ ⊕ ℕ) ℕ
  /-- The process list, the process tree and the pids. -/
  table : ProcTable ℕ
  /-- `proc->kernel_stack` -/
  kernelStack : ℕ → ℕ
  /-- `proc->vmm` -/
  vmm : ℕ → Option ℕ
  /-- `proc->p_gpt` -/
  pGpt : ℕ → Option ℕ
  /-- The structures `vm_manager`. -/
  space : ℕ → VmManager

namespace ForkState

variable {κ : Type} [DecidableEq κ] (s : ForkState κ)

/-- `g_curr_proc` -/
def curr : ℕ := s.sched.curr

/-- `alloc_proc`; `bpt` is the frame of the page table `g_bpt`. -/
def allocProc (bpt : ℕ) : Res (ForkState κ × ℕ) := do
  let (mm, proc) ← s.mm.malloc pcbSize
  return ({ s with
    mm
    sched := s.sched.allocProc proc
    table := s.table.allocProc proc
    kernelStack := Function.update s.kernelStack proc 0
    vmm := Function.update s.vmm proc none
    pGpt := Function.update s.pGpt proc (some bpt) }, proc)

/-- `free(proc, sizeof(struct pcb))` -/
def freeProc (proc : ℕ) : Res (ForkState κ) := do
  let mm ← s.mm.free proc pcbSize
  return { s with mm }

/-- `alloc_kernel_stack` -/
def allocKernelStack (proc : ℕ) : Res (ForkState κ × ℤ) := do
  match ← s.mm.allocPages kernelStackPage with
  | (mm, none) => return ({ s with mm }, -eNoMem)
  | (mm, some page) =>
    let va ← page2va page
    return ({ s with mm, kernelStack := Function.update s.kernelStack proc va }, 0)

/-- `free_kernel_stack` -/
def freeKernelStack (proc : ℕ) : Res (ForkState κ) := do
  let page ← va2page (s.kernelStack proc)
  let mm ← s.mm.freePages page kernelStackPage
  return { s with mm }

/-- `init_vmm` -/
def initVmm : Res (ForkState κ × VmManager) := do
  let (mm, vmm) ← GarretOS.initVmm s.mm
  let sem := s.sched.sem.initSem (.inr vmm.frame) 1
  return ({ s with mm, sched := { s.sched with sem } }, vmm)

/-- `lock_vmm`; when the semaphore is taken the process goes to sleep, and this is not followed any
further. -/
def lockVmm (vmm : ℕ) : Res (ForkState κ) := do
  match ← s.sched.down (.inr vmm) with
  | (sched, true) => return { s with sched }
  | (_, false) => .error .diverges

/-- `unlock_vmm` -/
def unlockVmm (k vmm : ℕ) : Res (ForkState κ) := do
  let sched ← s.sched.up k (.inr vmm)
  return { s with sched }

/-- The assignments by which `proc` begins to use `vmm`. -/
def useVmm (proc vmm : ℕ) : ForkState κ :=
  { s with
    space := Function.update s.space vmm
      { s.space vmm with useCount := u32 ((s.space vmm).useCount + 1) }
    vmm := Function.update s.vmm proc (some vmm)
    pGpt := Function.update s.pGpt proc (s.space vmm).pGpt }

/-- The part of `copy_vmm` that fills the page table of the child: the areas and pages of `oldVmm`
are copied under its lock, and on failure the child is torn down again. -/
def fillVmm (k proc oldVmm : ℕ) (vmm : VmManager) : Res (ForkState κ × ℤ) := do
  let s ← s.lockVmm oldVmm
  let (mm, vmm, ret) ← dupVmm k s.mm (s.space oldVmm) vmm
  let s ← ({ s with mm } : ForkState κ).unlockVmm k oldVmm
  if ret ≠ 0 then
    let mm ← teardown k s.mm vmm
    return ({ s with mm }, ret)
  else
    let s := { s with space := Function.update s.space vmm.frame vmm }
    return (s.useVmm proc vmm.frame, 0)

/-- `copy_vmm` -/
def copyVmm (bpt k proc : ℕ) (cloneVm : Bool) : Res (ForkState κ × ℤ) :=
  match s.vmm s.curr with
  | none => .ok (s, 0)
  | some oldVmm =>
    if cloneVm then .ok (s.useVmm proc oldVmm, 0)
    else do
      let (s, vmm) ← s.initVmm
      let (mm, vmm, ret) ← allocGpt bpt s.mm vmm
      if ret ≠ 0 then
        let mm ← delVmm mm vmm
        return ({ s with mm }, -eNoMem)
      else ({ s with mm } : ForkState κ).fillVmm k proc oldVmm vmm

/-- The end of `do_fork`, when nothing can fail any more. -/
def enter (k proc : ℕ) : Res (ForkState κ × ℤ) := do
  let table ← s.table.enterProc k proc
  let sched ← s.sched.wakeupProc k proc
  return ({ s with table, sched }, table.pid proc)

/-- `do_fork` -/
def doFork (bpt k : ℕ) (cloneVm : Bool) : Res (ForkState κ × ℤ) :=
  if maxProcess < s.table.numProc then .ok (s, -eNoFreeProc)
  else do
    let (s, proc) ← s.allocProc bpt
    let s := { s with table := s.table.setParent proc (some s.curr) }
    assert ((s.sched.pcb s.curr).waitState = waitNone) "g_curr_proc->wait_state == WAIT_NONE"
    let (s, ret) ← s.allocKernelStack proc
    if ret = -eNoMem then
      let s ← s.freeProc proc
      return (s, -eNoMem)
    else
      let (s, ret) ← s.copyVmm bpt k proc cloneVm
      if ret = -eNoMem then
        let s ← s.freeKernelStack proc
        let s ← s.freeProc proc
        return (s, -eNoMem)
      else s.enter k proc

end ForkState

end GarretOS
