import GarretOS.Kernel.Fault
import Mathlib.Logic.Function.Basic

/-!
# Address spaces of processes

The fields of `struct pcb` and `struct vm_manager` that tie processes to address spaces, and the
parts of `copy_vmm`, `do_exit`, `do_execve` and `load_bin` (`kernel/proc/proc.c`) that work on them.
Processes are named by `ν`, structures `vm_manager` by `μ`, and the frames of root page tables by
`ρ`.  What the functions do inside an address space is left out here.
-/

namespace GarretOS

/-- The address spaces and the processes that use them. -/
structure VmTable (ν μ ρ : Type) where
  /-- `proc->vmm` -/
  vmm : ν → Option μ
  /-- `proc->p_gpt`; `none` is the table `g_bpt`. -/
  pGpt : ν → Option ρ
  /-- `vmm->use_count` -/
  useCount : μ → ℕ
  /-- `vmm->p_gpt`; `none` is `NULL`. -/
  root : μ → Option ρ
  /-- The structures that are allocated. -/
  vmms : μ → Bool
  /-- The frames that are allocated as root tables. -/
  gpts : ρ → Bool

/-- What the allocations of an address space return, and whether it can be filled. -/
structure VmMem (μ ρ : Type) where
  /-- `init_vmm()` -/
  vmm : Option μ
  /-- `alloc_page()` in `alloc_gpt` -/
  gpt : Option ρ
  /-- `dup_vmm`, or the rest of `load_bin`, succeeds. -/
  filled : Bool

namespace VmTable

variable {ν μ ρ : Type} [DecidableEq ν] [DecidableEq μ] [DecidableEq ρ] (V : VmTable ν μ ρ)

/-- `init_vmm` -/
def initVmm (vmm : μ) : VmTable ν μ ρ :=
  { V with
    vmms := Function.update V.vmms vmm true
    root := Function.update V.root vmm none
    useCount := Function.update V.useCount vmm 0 }

/-- `alloc_gpt` -/
def allocGpt (vmm : μ) (gpt : ρ) : VmTable ν μ ρ :=
  { V with
    gpts := Function.update V.gpts gpt true
    root := Function.update V.root vmm (some gpt) }

/-- `free_gpt` -/
def freeGpt (vmm : μ) : VmTable ν μ ρ :=
  match V.root vmm with
  | none => V
  | some gpt => { V with gpts := Function.update V.gpts gpt false }

/-- `del_vmm` -/
def delVmm (vmm : μ) : VmTable ν μ ρ := { V with vmms := Function.update V.vmms vmm false }

/-- The assignments by which `proc` begins to use `vmm`. -/
def useVmm (proc : ν) (vmm : μ) : VmTable ν μ ρ :=
  { V with
    useCount := Function.update V.useCount vmm (u32 (V.useCount vmm + 1))
    vmm := Function.update V.vmm proc (some vmm)
    pGpt := Function.update V.pGpt proc (V.root vmm) }

/-- An address space is allocated, filled and used by `proc`; if that fails what has been allocated
is freed again.  The result says whether it has succeeded. -/
def newVmm (proc : ν) (m : VmMem μ ρ) : VmTable ν μ ρ × Bool :=
  match m.vmm with
  | none => (V, false)
  | some vmm =>
    match m.gpt with
    | none => ((V.initVmm vmm).delVmm vmm, false)
    | some gpt =>
      let V := (V.initVmm vmm).allocGpt vmm gpt
      if m.filled then (V.useVmm proc vmm, true) else ((V.freeGpt vmm).delVmm vmm, false)

/-- `copy_vmm` -/
def copyVmm (curr proc : ν) (cloneVm : Bool) (m : VmMem μ ρ) : VmTable ν μ ρ × Bool :=
  match V.vmm curr with
  | none => (V, true)
  | some oldVmm => if cloneVm then (V.useVmm proc oldVmm, true) else V.newVmm proc m

/-- The part of `do_exit` and `do_execve` that gives up the address space of the running
process. -/
def leaveVmm (curr : ν) : VmTable ν μ ρ :=
  match V.vmm curr with
  | none => V
  | some vmm =>
    let V := { V with useCount := Function.update V.useCount vmm (u32 (V.useCount vmm + 2 ^ 32 - 1)) }
    let V := if V.useCount vmm = 0 then (V.freeGpt vmm).delVmm vmm else V
    { V with vmm := Function.update V.vmm curr none }

/-- `load_bin` -/
def loadBin (curr : ν) (m : VmMem μ ρ) : Res (VmTable ν μ ρ × Bool) :=
  if V.vmm curr ≠ none then .error (.panic "load_bin: g_curr_proc->vmm must be empty.")
  else .ok (V.newVmm curr m)

/-- What `alloc_proc` does to these fields. -/
def allocProc (proc : ν) : VmTable ν μ ρ :=
  { V with vmm := Function.update V.vmm proc none, pGpt := Function.update V.pGpt proc none }

end VmTable

end GarretOS
