import GarretOS.Kernel.Fault

/-!
# Process states

The fields `state` and `wait_state` of `struct pcb`, their values (`kernel/proc/proc.h`), and what
`wakeup_proc` of `kernel/proc/schedule.c` does to them.
-/

namespace GarretOS

/-- `PROC_UNINIT`, `PROC_SLEEPING`, `PROC_RUNNABLE` and `PROC_ZOMBIE`. -/
inductive ProcState where
  | uninit
  | sleeping
  | runnable
  | zombie
  deriving DecidableEq, Repr

/-- `WAIT_NONE` -/
def waitNone : UInt32 := 0x00000000

/-- `WAIT_INT` : the wait state could be interrupted. -/
def waitInt : UInt32 := 0x80000000

/-- `WAIT_SEM` : wait for a kernel semaphore. -/
def waitSem : UInt32 := 0x00000100

/-- `WAIT_CHILD` : wait for a child process. -/
def waitChild : UInt32 := 0x00000001 ||| waitInt

/-- `WAIT_TIMER` : wait for a timer. -/
def waitTimer : UInt32 := 0x00000002 ||| waitInt

/-- The fields of `struct pcb` that say whether a process may run. -/
structure RunState where
  /-- `proc->state` -/
  state : ProcState
  /-- `proc->wait_state` -/
  waitState : UInt32
  deriving DecidableEq

namespace RunState

/-- A process that may run. -/
def running : RunState := ⟨.runnable, waitNone⟩

/-- What `wakeup_proc` does to the two fields. -/
def wakeup (r : RunState) : Res RunState := do
  assert (r.state ≠ .zombie) "proc->state != PROC_ZOMBIE"
  return if r.state ≠ .runnable then running else r

theorem wakeup_sleeping {r : RunState} (h : r.state = .sleeping) : r.wakeup = .ok running := by
  rw [wakeup, assert_of (by simp [h]), ok_bind, if_pos (by simp [h])]
  rfl

end RunState

end GarretOS
