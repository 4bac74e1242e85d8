import GarretOS.Proc.State
import GarretOS.Ring.Basic

/-!
# Semaphores and wait queues

The functions of `kernel/sync/wait.c` and `kernel/sync/sem.c` that implement semaphores.
Semaphores are named by `κ` and processes by `π`.  A process that blocks in `down` links the
variable `wait` of its kernel stack into the wait queue of the semaphore, so there is one such
variable for each process.

The function `down` is two steps, `down` up to its call of `schedule` and `downResume` after it;
in between the process is recorded in `blockedIn`.
-/

namespace GarretOS

/-- `struct wait`, without its link. -/
structure Wait (κ π : Type) where
  /-- `wait->proc` -/
  proc : π
  /-- `wait->wakeup_state` -/
  wakeupState : UInt32
  /-- `wait->wait_queue` -/
  waitQueue : κ

/-- The nodes of wait queues: the head `sem->wait_queue` of each queue, and the `wait_link` of the
variable `wait` of each process. -/
inductive WaitNode (κ π : Type) where
  | queue (sem : κ)
  | wait (proc : π)
  deriving DecidableEq

/-- The semaphores and the processes that use them. -/
structure SemState (κ π : Type) where
  /-- `sem->value`, an `i32` -/
  value : κ → ℤ
  /-- The links of the queues and of the `wait` variables. -/
  link : Links (WaitNode κ π)
  /-- The `wait` variables. -/
  wait : π → Wait κ π
  /-- `proc->state` and `proc->wait_state` -/
  pcb : π → RunState
  /-- The semaphore in whose `down` the process has called `schedule`. -/
  blockedIn : π → Option κ

namespace SemState

variable {κ π : Type} [DecidableEq κ] [DecidableEq π] (s : SemState κ π)

/-- `init_sem` -/
def initSem (sem : κ) (value : ℤ) : SemState κ π :=
  { s with value := Function.update s.value sem value, link := s.link.initList (.queue sem) }

/-- `init_wait` -/
def initWait (wait proc : π) : SemState κ π :=
  { s with
    wait := Function.update s.wait wait
      { s.wait wait with proc := proc, wakeupState := waitInt }
    link := s.link.initList (.wait wait) }

/-- `add_wait_queue` -/
def addWaitQueue (waitQueue : κ) (wait : π) : Res (SemState κ π) := do
  assert (s.link.listEmpty (.wait wait)) "list_empty(&(wait->wait_link)) && wait->proc != NULL"
  return { s with
    wait := Function.update s.wait wait { s.wait wait with waitQueue }
    link := s.link.addList (.queue waitQueue) (s.link.prev (.queue waitQueue)) (.wait wait) }

/-- `del_wait_queue` -/
def delWaitQueue (waitQueue : κ) (wait : π) : Res (SemState κ π) := do
  assert (¬ s.link.listEmpty (.wait wait) ∧ (s.wait wait).waitQueue = waitQueue)
    "!list_empty(&(wait->wait_link)) && wait->wait_queue == wait_queue"
  return { s with link := (s.link.delList (.wait wait)).initList (.wait wait) }

/-- `wait_queue_first` -/
def waitQueueFirst (waitQueue : κ) : Option π :=
  match s.link.next (.queue waitQueue) with
  | .queue _ => none
  | .wait wait => some wait

/-- `wakeup_proc`; a runnable process may then be scheduled at any time. -/
def wakeupProc (proc : π) : Res (SemState κ π) := do
  let r ← (s.pcb proc).wakeup
  return { s with pcb := Function.update s.pcb proc r }

/-- `wakeup_wait` -/
def wakeupWait (waitQueue : κ) (wait : π) (wakeupState : UInt32) (del : Bool) :
    Res (SemState κ π) := do
  let s ← (if del then s.delWaitQueue waitQueue wait else .ok s)
  let s := { s with wait := Function.update s.wait wait { s.wait wait with wakeupState } }
  s.wakeupProc (s.wait wait).proc

/-- `add_curr_wait` of the process `curr`, which waits with its variable `wait`. -/
def addCurrWait (curr : π) (waitQueue : κ) (waitState : UInt32) : Res (SemState κ π) := do
  let s := s.initWait curr curr
  let s := { s with pcb := Function.update s.pcb curr ⟨.sleeping, waitState⟩ }
  s.addWaitQueue waitQueue curr

/-- `del_curr_wait` -/
def delCurrWait (waitQueue : κ) (wait : π) : Res (SemState κ π) :=
  if ¬ s.link.listEmpty (.wait wait) then s.delWaitQueue waitQueue wait else .ok s

/-- `up` : the new state, and the process passed to `wakeup_proc`. -/
def up (sem : κ) : Res (SemState κ π × Option π) :=
  match s.waitQueueFirst sem with
  | none => .ok ({ s with value := Function.update s.value sem (i32 (s.value sem + 1)) }, none)
  | some wait => do
    assert ((s.pcb (s.wait wait).proc).waitState = waitSem) "wait->proc->wait_state == WAIT_SEM"
    let s' ← s.wakeupWait sem wait waitSem true
    return (s', some (s.wait wait).proc)

/-- `down` of the process `curr`: the new state, and whether the call returns at once. -/
def down (curr : π) (sem : κ) : Res (SemState κ π × Bool) :=
  if 0 < s.value sem then
    .ok ({ s with value := Function.update s.value sem (i32 (s.value sem - 1)) }, true)
  else do
    let s ← s.addCurrWait curr sem waitSem
    return ({ s with blockedIn := Function.update s.blockedIn curr (some sem) }, false)

/-- The rest of `down` of the process `curr`, after its call of `schedule`. -/
def downResume (curr : π) (sem : κ) : Res (SemState κ π) := do
  let s ← s.delCurrWait sem curr
  assert ((s.wait curr).wakeupState = waitSem) "wait.wakeup_state == WAIT_SEM"
  return { s with blockedIn := Function.update s.blockedIn curr none }

/-- `try_down` -/
def tryDown (sem : κ) : SemState κ π × Bool :=
  if 0 < s.value sem then
    ({ s with value := Function.update s.value sem (i32 (s.value sem - 1)) }, true)
  else (s, false)

end SemState

end GarretOS
