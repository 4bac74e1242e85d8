import Mathlib.Data.Int.Bitwise
import GarretOS.Kernel.Fault
import GarretOS.Ring.Basic

/-!
# The process set

The fields of `struct pcb` that tie processes together, and the functions of `kernel/proc/proc.c`
that work on them: the list `g_proc_list`, the process tree, and the allocation of pids.  Processes
are named by `π`; the links of the list are those of its head, `none`, and of the `list_link`
fields.  The hash lists hold the same processes as `g_proc_list` and are only ever written, so they
are left out.
-/

namespace GarretOS

/-- `MAX_PROCESS` -/
def maxProcess : ℕ := 4096

/-- `MAX_PID` -/
def maxPid : ℤ := (maxProcess : ℤ) <<< 1

@[simp] theorem maxPid_eq : maxPid = 8192 := rfl

/-- The value of a pointer that is dereferenced; at a null pointer the page fault handler gives
up. -/
def deref {α : Type} : Option α → Res α
  | none => .error (.panic "handle page fault failed.")
  | some a => .ok a

@[simp] theorem deref_some {α : Type} (a : α) : deref (some a) = .ok a := rfl

theorem deref_eq_ok {α : Type} {o : Option α} {a : α} : deref o = .ok a ↔ o = some a := by
  cases o <;> simp [deref]

/-- The process list, the process tree and the pids. -/
structure ProcTable (π : Type) where
  /-- The links of `g_proc_list` and of `proc->list_link`. -/
  procList : Links (Option π)
  /-- `proc->pid` -/
  pid : π → ℤ
  /-- `proc->parent` -/
  parent : π → Option π
  /-- `proc->child` -/
  child : π → Option π
  /-- `proc->younger` -/
  younger : π → Option π
  /-- `proc->older` -/
  older : π → Option π
  /-- `g_num_proc` -/
  numProc : ℕ
  /-- The variable `prev_pid` of `alloc_pid`. -/
  prevPid : ℤ
  /-- The variable `next_pid` of `alloc_pid`. -/
  nextPid : ℤ

namespace ProcTable

variable {π : Type} [DecidableEq π] (T : ProcTable π)

/-- The assignment `proc->pid = pid`. -/
def setPid (proc : π) (pid : ℤ) : ProcTable π :=
  { T with pid := Function.update T.pid proc pid }

/-- The assignment `proc->parent = p`. -/
def setParent (proc : π) (p : Option π) : ProcTable π :=
  { T with parent := Function.update T.parent proc p }

/-- The assignment `proc->child = p`. -/
def setChild (proc : π) (p : Option π) : ProcTable π :=
  { T with child := Function.update T.child proc p }

/-- The assignment `proc->younger = p`. -/
def setYounger (proc : π) (p : Option π) : ProcTable π :=
  { T with younger := Function.update T.younger proc p }

/-- The assignment `proc->older = p`. -/
def setOlder (proc : π) (p : Option π) : ProcTable π :=
  { T with older := Function.update T.older proc p }

/-- The assignment `*q->younger = p`, where `q` may be a null pointer and nothing is done then. -/
def setYoungerOf (q : Option π) (p : Option π) : ProcTable π :=
  match q with
  | none => T
  | some q => T.setYounger q p

/-- What `alloc_proc` does to these fields. -/
def allocProc (proc : π) : ProcTable π :=
  { (((((T.setPid proc (-1)).setParent proc none).setChild proc none).setYounger proc none).setOlder
      proc none) with procList := T.procList.initList (some proc) }

/-- `set_links` -/
def setLinks (proc : π) : Res (ProcTable π) := do
  let T := { T with procList := T.procList.addList none (T.procList.next none) (some proc) }
  let T := T.setYounger proc none
  let parent ← deref (T.parent proc)
  let T := T.setOlder proc (T.child parent)
  let T := T.setYoungerOf (T.older proc) (some proc)
  let T := T.setChild parent (some proc)
  return { T with numProc := u32 (T.numProc + 1) }

/-- `remove_links` -/
def removeLinks (proc : π) : Res (ProcTable π) := do
  let T := { T with procList := T.procList.delList (some proc) }
  let T := T.setYoungerOf (T.older proc) (T.younger proc)
  let T ← match T.younger proc with
    | some y => Except.ok (T.setOlder y (T.older proc))
    | none => do
      let parent ← deref (T.parent proc)
      pure (T.setChild parent (T.older proc))
  return { T with numProc := u32 (T.numProc + 2 ^ 32 - 1) }

/-- The loop of `alloc_pid`, at the node `list`. -/
def pidLoop (pid : π → ℤ) (L : Links (Option π)) : ℕ → ℤ → ℤ → Option π → Res (ℤ × ℤ)
  | 0, _, _, _ => .error .diverges
  | k + 1, prevPid, nextPid, list =>
    match L.next list with
    | none => .ok (prevPid, nextPid)
    | some proc =>
      if pid proc = prevPid then
        if prevPid + 1 ≥ nextPid then
          pidLoop pid L k (if prevPid + 1 ≥ maxPid then 1 else prevPid + 1) maxPid none
        else pidLoop pid L k (prevPid + 1) nextPid (some proc)
      else if prevPid < pid proc ∧ pid proc < nextPid then
        pidLoop pid L k prevPid (pid proc) (some proc)
      else pidLoop pid L k prevPid nextPid (some proc)

/-- `alloc_pid`, its loop being given `k` rounds. -/
def allocPid (k : ℕ) : Res (ProcTable π × ℤ) :=
  let prevPid := if T.prevPid + 1 ≥ maxPid then 1 else T.prevPid + 1
  if prevPid ≥ T.nextPid ∨ prevPid = 1 then do
    let (prevPid, nextPid) ← pidLoop T.pid T.procList k prevPid maxPid none
    return ({ T with prevPid, nextPid }, prevPid)
  else .ok ({ T with prevPid }, prevPid)

/-- The part of `do_fork` that enters a process into the process set. -/
def enterProc (k : ℕ) (proc : π) : Res (ProcTable π) := do
  let (T, pid) ← T.allocPid k
  (T.setPid proc pid).setLinks proc

/-- The loop of `get_proc`, at the node `list`. -/
def getLoop (pid : ℤ) : ℕ → Option π → Res (Option π)
  | 0, _ => .error .diverges
  | k + 1, list =>
    match T.procList.next list with
    | none => .ok none
    | some proc => if T.pid proc = pid then .ok (some proc) else getLoop pid k (some proc)

/-- `get_proc`, its loop being given `k` rounds. -/
def getProc (k : ℕ) (pid : ℤ) : Res (Option π) :=
  if 0 < pid ∧ pid < maxPid then T.getLoop pid k none else .ok none

end ProcTable

end GarretOS
