import GarretOS.Proc.SkewHeap
import GarretOS.Sync.WaitQueue

/-!
# The stride scheduler

The run queue of `kernel/proc/stride_scheduler.c`, and the functions of `kernel/proc/schedule.c`
that use it: `wakeup_proc`, `schedule`, and what `run_timers` does to the running process.  The
processes with their states are those of the semaphores (`SemState`), so that `up` can wake a
process.  The fields `run_times` and `run_link` are left out, nothing reads them.

The recursion of `merge_skew_heap` is given `k` calls.
-/

namespace GarretOS

/-- `BIG_STRIDE` -/
def bigStride : ℕ := 1 <<< 30

/-- `MAX_TIME_SLICE` -/
def maxTimeSlice : ℤ := 5

/-- The run queue, and the fields of `struct pcb` that the scheduler uses. -/
structure RunQueue (ν : Type) where
  /-- `run_queue->run_pool` -/
  runPool : Option ν
  /-- `proc->run_pool` -/
  pool : TreeLinks ν
  /-- `run_queue->num_proc` -/
  numProc : ℕ
  /-- `proc->run_queue == g_run_queue`; the field is `NULL` otherwise. -/
  runQueue : ν → Bool
  /-- `proc->time_slice` -/
  timeSlice : ν → ℤ
  /-- `proc->stride` -/
  stride : ν → ℕ
  /-- `proc->priority` -/
  priority : ν → ℕ
  /-- `proc->need_reschedule` -/
  needReschedule : ν → Bool

/-- `stride_comp_fn` -/
def strideCompFn {ν : Type} (stride : ν → ℕ) (left right : ν) : ℤ :=
  let ret := i32 ((stride left : ℤ) - stride right)
  (if 0 < ret then 1 else 0) - (if ret < 0 then 1 else 0)

namespace RunQueue

variable {ν : Type} [DecidableEq ν] (q : RunQueue ν)

/-- The assignment to `proc->time_slice` in `stride_enqueue`. -/
def refill (proc : ν) : RunQueue ν :=
  if q.timeSlice proc = 0 ∨ maxTimeSlice < q.timeSlice proc then
    { q with timeSlice := Function.update q.timeSlice proc maxTimeSlice }
  else q

/-- `stride_enqueue` -/
def strideEnqueue (k : ℕ) (proc : ν) : Res (RunQueue ν) := do
  let (pool, runPool) ← TreeLinks.addSkewHeap (strideCompFn q.stride) k q.pool q.runPool proc
  let q := ({ q with pool, runPool } : RunQueue ν).refill proc
  let q := { q with runQueue := Function.update q.runQueue proc true }
  return { q with numProc := u32 (q.numProc + 1) }

/-- `stride_dequeue` -/
def strideDequeue (k : ℕ) (proc : ν) : Res (RunQueue ν) := do
  assert (q.runQueue proc ∧ 0 < q.numProc)
    "proc->run_queue == run_queue && run_queue->num_proc > 0"
  let (pool, runPool) ←
    match q.runPool with
    | none => .error (.panic "handle page fault failed.")
    | some root =>
      TreeLinks.delSkewHeap (strideCompFn q.stride) k q.pool (some root) proc
  return { q with pool, runPool, numProc := u32 (q.numProc + 2 ^ 32 - 1) }

/-- `stride_pick_next` -/
def stridePickNext : RunQueue ν × Option ν :=
  match q.runPool with
  | none => (q, none)
  | some proc =>
    let stride := u32 (q.stride proc + bigStride / q.priority proc)
    ({ q with stride := Function.update q.stride proc stride }, some proc)

/-- `stride_proc_tick` -/
def strideProcTick (proc : ν) : RunQueue ν :=
  let q := if 0 < q.timeSlice proc then
    { q with timeSlice := Function.update q.timeSlice proc (q.timeSlice proc - 1) } else q
  if q.timeSlice proc = 0 then
    { q with needReschedule := Function.update q.needReschedule proc true }
  else q

/-- What `alloc_proc` does to these fields. -/
def allocProc (proc : ν) : RunQueue ν :=
  { q with
    needReschedule := Function.update q.needReschedule proc false
    runQueue := Function.update q.runQueue proc false
    timeSlice := Function.update q.timeSlice proc 0
    stride := Function.update q.stride proc 0
    priority := Function.update q.priority proc 1
    pool := q.pool.initSkewHeap proc }

end RunQueue

/-- The scheduler: the processes with their states, the semaphores, and the run queue. -/
structure Sched (κ ν : Type) where
  /-- The semaphores, and `proc->state` and `proc->wait_state`. -/
  sem : SemState κ ν
  /-- `g_run_queue` -/
  queue : RunQueue ν
  /-- `g_curr_proc` -/
  curr : ν
  /-- `g_idle_proc` -/
  idle : ν

namespace Sched

variable {κ ν : Type} [DecidableEq κ] [DecidableEq ν] (s : Sched κ ν)

/-- The fields `state` and `wait_state` of a process. -/
def pcb (proc : ν) : RunState := s.sem.pcb proc

/-- The assignments `proc->state = r.state` and `proc->wait_state = r.waitState`. -/
def setPcb (proc : ν) (r : RunState) : Sched κ ν :=
  { s with sem := { s.sem with pcb := Function.update s.sem.pcb proc r } }

/-- `scheduler_enqueue` -/
def schedulerEnqueue (k : ℕ) (proc : ν) : Res (Sched κ ν) :=
  if proc ≠ s.idle then do
    let queue ← s.queue.strideEnqueue k proc
    return { s with queue }
  else .ok s

/-- `scheduler_proc_tick` of the running process. -/
def schedulerProcTick : Sched κ ν :=
  if s.curr ≠ s.idle then { s with queue := s.queue.strideProcTick s.curr }
  else { s with queue :=
    { s.queue with needReschedule := Function.update s.queue.needReschedule s.curr true } }

/-- `wakeup_proc` -/
def wakeupProc (k : ℕ) (proc : ν) : Res (Sched κ ν) := do
  assert ((s.pcb proc).state ≠ .zombie) "proc->state != PROC_ZOMBIE"
  if (s.pcb proc).state ≠ .runnable then
    let s := s.setPcb proc .running
    if proc ≠ s.curr then s.schedulerEnqueue k proc else return s
  else
    return s

/-- `schedule`, and `run_proc` up to the point where the other process goes on. -/
def schedule (k : ℕ) : Res (Sched κ ν) := do
  let s := { s with queue :=
    { s.queue with needReschedule := Function.update s.queue.needReschedule s.curr false } }
  let s ← (if (s.pcb s.curr).state = .runnable then s.schedulerEnqueue k s.curr else .ok s)
  match s.queue.stridePickNext with
  | (queue, some next) => do
    let queue ← queue.strideDequeue k next
    return { s with queue, curr := next }
  | (queue, none) => return { s with queue, curr := s.idle }

/-- `up`; the function of the same name on semaphores leaves the run queue to `wakeup_proc`. -/
def up (k : ℕ) (sem : κ) : Res (Sched κ ν) := do
  let (t, woken) ← s.sem.up sem
  match woken with
  | none => return { s with sem := t }
  | some proc =>
    if (s.pcb proc).state ≠ .runnable ∧ proc ≠ s.curr then
      ({ s with sem := t } : Sched κ ν).schedulerEnqueue k proc
    else return { s with sem := t }

/-- `down` of the running process up to its call of `schedule`; whether it returns at once. -/
def down (sem : κ) : Res (Sched κ ν × Bool) := do
  let (t, granted) ← s.sem.down s.curr sem
  return ({ s with sem := t }, granted)

/-- The rest of `down` of the running process. -/
def downResume (sem : κ) : Res (Sched κ ν) := do
  let t ← s.sem.downResume s.curr sem
  return { s with sem := t }

/-- What the loop of `run_timers` does to the process of an expired timer. -/
def fire (k : ℕ) (proc : ν) : Res (Sched κ ν) := do
  let _ ← (if (s.pcb proc).waitState ≠ waitNone then
    assert ((s.pcb proc).waitState &&& waitInt ≠ 0) "proc->wait_state & WAIT_INT" else .ok ())
  s.wakeupProc k proc

/-- What `alloc_proc` does to these fields. -/
def allocProc (proc : ν) : Sched κ ν :=
  { s.setPcb proc ⟨.uninit, waitNone⟩ with queue := s.queue.allocProc proc }

end Sched

end GarretOS
