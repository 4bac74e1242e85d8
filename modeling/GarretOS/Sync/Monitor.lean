import GarretOS.Sync.WaitQueue

/-!
# Monitors

The functions of `kernel/sync/monitor.c`, and the system of the processes that use a monitor.
Like `down`, the functions `signal_cond` and `wait_cond` are cut at their calls of `up` and `down`:
each step is one such call or the code between two of them.

`mutex`, `next` and the semaphores of the `n` condition variables pass the control of the monitor
on.  The data that the monitor protects may be changed by a process inside the monitor.
-/

namespace GarretOS

/-- The semaphores of a monitor with `n` condition variables. -/
inductive MonitorSem (n : ℕ) where
  | mutex
  | next
  | cond (i : Fin n)
  deriving DecidableEq

/-- `struct monitor` and its array of `struct cond`. -/
structure Monitor (n : ℕ) (π : Type) where
  /-- `monitor->mutex`, `monitor->next` and `monitor->cond[i].sem`, and the processes. -/
  sem : SemState (MonitorSem n) π
  /-- `monitor->next_count`, an `i32` -/
  nextCount : ℤ
  /-- `monitor->cond[i].count`, an `i32` -/
  count : Fin n → ℤ

namespace Monitor

variable {n : ℕ} {π : Type} [DecidableEq π] (m : Monitor n π)

/-- One round of the loop of `init_monitor`. -/
def initCond (i : Fin n) : Monitor n π :=
  { m with count := Function.update m.count i 0, sem := m.sem.initSem (.cond i) 0 }

/-- `init_monitor` with `num_cond = n`; the array of condition variables has been allocated. -/
def initMonitor : Res (Monitor n π) := do
  assert (0 < n) "num_cond > 0"
  let m := { m with nextCount := 0 }
  let m := { m with sem := m.sem.initSem .mutex 1 }
  let m := { m with sem := m.sem.initSem .next 0 }
  return (List.finRange n).foldl initCond m

/-- The code that gives up the control of the monitor, in `wait_cond` and at the exit: the new
state, and the process that is woken. -/
def release : Res (Monitor n π × Option π) := do
  let (sem, woken) ← (if 0 < m.nextCount then m.sem.up .next else m.sem.up .mutex)
  return ({ m with sem }, woken)

/-- `down` of a semaphore of the monitor. -/
def down (curr : π) (k : MonitorSem n) : Res (Monitor n π × Bool) := do
  let (sem, granted) ← m.sem.down curr k
  return ({ m with sem }, granted)

/-- The rest of `down`, after the call of `schedule`. -/
def downResume (curr : π) (k : MonitorSem n) : Res (Monitor n π) := do
  let sem ← m.sem.downResume curr k
  return { m with sem }

/-- `signal_cond` up to its call of `up`, and whether that is reached. -/
def signalCond (i : Fin n) : Monitor n π × Bool :=
  if 0 < m.count i then ({ m with nextCount := i32 (m.nextCount + 1) }, true) else (m, false)

/-- The call of `up` in `signal_cond`. -/
def signalCondUp (i : Fin n) : Res (Monitor n π × Option π) := do
  let (sem, woken) ← m.sem.up (.cond i)
  return ({ m with sem }, woken)

/-- `signal_cond` after its call of `down`. -/
def signalCondEnd : Monitor n π := { m with nextCount := i32 (m.nextCount - 1) }

/-- `wait_cond` up to its call of `up`. -/
def waitCond (i : Fin n) : Monitor n π :=
  { m with count := Function.update m.count i (i32 (m.count i + 1)) }

/-- `wait_cond` after its call of `down`. -/
def waitCondEnd (i : Fin n) : Monitor n π :=
  { m with count := Function.update m.count i (i32 (m.count i - 1)) }

end Monitor

/-! ### Processes -/

/-- Where a process is. -/
inductive MonitorPos (n : ℕ) where
  /-- Not in the monitor. -/
  | outside
  /-- In `down(mutex)`, after its call of `schedule`. -/
  | entering
  /-- Inside the monitor. -/
  | inside
  /-- In `signal_cond`, before `up`. -/
  | notifying (i : Fin n)
  /-- In `signal_cond`, between `up` and `down`. -/
  | notified
  /-- In `signal_cond`, in `down`. -/
  | suspended
  /-- In `signal_cond`, after `down`. -/
  | resumed
  /-- In `wait_cond`, before `up`. -/
  | leaving (i : Fin n)
  /-- In `wait_cond`, between `up` and `down`. -/
  | left (i : Fin n)
  /-- In `wait_cond`, in `down`. -/
  | waiting (i : Fin n)
  /-- In `wait_cond`, after `down`. -/
  | awake (i : Fin n)
  deriving DecidableEq

namespace MonitorPos

variable {n : ℕ}

/-- The semaphore in whose `down` the process is. -/
def sem : MonitorPos n → Option (MonitorSem n)
  | entering => some .mutex
  | suspended => some .next
  | waiting i => some (.cond i)
  | _ => none

/-- The process executes code of the monitor. -/
def active : MonitorPos n → Bool
  | inside | notifying _ | resumed | leaving _ | awake _ => true
  | _ => false

/-- The process is inside `signal_cond`, between the increment and the decrement of
`next_count`. -/
def signalling : MonitorPos n → Bool
  | notifying _ | notified | suspended | resumed => true
  | _ => false

end MonitorPos

/-- A monitor, the data it protects, and the processes that use it. -/
structure MonitorState (n : ℕ) (π δ : Type) where
  /-- The monitor. -/
  mon : Monitor n π
  /-- The data it protects. -/
  data : δ
  /-- Where each process is. -/
  pos : π → MonitorPos n

/-- The steps of a process that uses a monitor. -/
inductive MonitorOp (n : ℕ) (π : Type) where
  /-- `down(mutex)` at the entry; whether it is granted at once. -/
  | enter (p : π) (granted : Bool)
  /-- `down(mutex)` returns. -/
  | entered (p : π)
  /-- Code inside the monitor. -/
  | work (p : π)
  /-- `signal_cond` is called. -/
  | signal (p : π) (i : Fin n)
  /-- `up` in `signal_cond`; the process that is woken. -/
  | notify (p : π) (i : Fin n) (woken : Option π)
  /-- `down` in `signal_cond`; whether it is granted at once. -/
  | suspend (p : π) (granted : Bool)
  /-- `down` in `signal_cond` returns. -/
  | resume (p : π)
  /-- `signal_cond` returns. -/
  | signalled (p : π)
  /-- `wait_cond` is called. -/
  | wait (p : π) (i : Fin n)
  /-- `up` in `wait_cond`; the process that is woken. -/
  | leave (p : π) (i : Fin n) (woken : Option π)
  /-- `down` in `wait_cond`; whether it is granted at once. -/
  | sleep (p : π) (i : Fin n) (granted : Bool)
  /-- `down` in `wait_cond` returns. -/
  | wake (p : π) (i : Fin n)
  /-- `wait_cond` returns. -/
  | waited (p : π) (i : Fin n)
  /-- `up` at the exit; the process that is woken. -/
  | exit (p : π) (woken : Option π)

/-- The steps that execute code of the monitor.  The calls of `down`, in which control of the
monitor is acquired, do not. -/
def MonitorOp.isCode {n : ℕ} {π : Type} : MonitorOp n π → Bool
  | work _ | signal _ _ | notify _ _ _ | signalled _ | wait _ _ | leave _ _ _ | waited _ _
  | exit _ _ => true
  | _ => false

namespace MonitorState

variable {n : ℕ} {π δ : Type} [DecidableEq π]

/-- The process `p` may run and has arrived at `x`. -/
def At (s : MonitorState n π δ) (p : π) (x : MonitorPos n) : Prop :=
  s.pos p = x ∧ (s.mon.sem.pcb p).state = .runnable

/-- The state after a step in which `p` moves from where it is to `x`. -/
def goto (s : MonitorState n π δ) (mon : Monitor n π) (p : π) (x : MonitorPos n) :
    MonitorState n π δ :=
  { s with mon, pos := Function.update s.pos p x }

end MonitorState

open MonitorState in
/-- The processes that use a monitor set up by `init_monitor`.  Each enters with `down(mutex)` and
leaves with `up(next)` or `up(mutex)`; inside it changes the data, and calls `signal_cond` and
`wait_cond`. -/
def monitorSystem (n : ℕ) (π δ : Type) [DecidableEq π] :
    System (MonitorState n π δ) (MonitorOp n π) where
  init s := (∃ m₀ : Monitor n π, m₀.initMonitor = .ok s.mon) ∧
    (∀ p, s.mon.sem.blockedIn p = none ∧ s.mon.sem.pcb p = .running) ∧ ∀ p, s.pos p = .outside
  step s op s' := match op with
    | .enter p granted => s.At p .outside ∧ ∃ m, s.mon.down p .mutex = .ok (m, granted) ∧
        s' = s.goto m p (if granted then .inside else .entering)
    | .entered p => s.At p .entering ∧ ∃ m, s.mon.downResume p .mutex = .ok m ∧
        s' = s.goto m p .inside
    | .work p => s.At p .inside ∧ ∃ d, s' = { s with data := d }
    | .signal p i => s.At p .inside ∧
        s' = s.goto (s.mon.signalCond i).1 p
          (if (s.mon.signalCond i).2 then .notifying i else .inside)
    | .notify p i woken => s.At p (.notifying i) ∧ ∃ m, s.mon.signalCondUp i = .ok (m, woken) ∧
        s' = s.goto m p .notified
    | .suspend p granted => s.At p .notified ∧ ∃ m, s.mon.down p .next = .ok (m, granted) ∧
        s' = s.goto m p (if granted then .resumed else .suspended)
    | .resume p => s.At p .suspended ∧ ∃ m, s.mon.downResume p .next = .ok m ∧
        s' = s.goto m p .resumed
    | .signalled p => s.At p .resumed ∧ s' = s.goto s.mon.signalCondEnd p .inside
    | .wait p i => s.At p .inside ∧ s' = s.goto (s.mon.waitCond i) p (.leaving i)
    | .leave p i woken => s.At p (.leaving i) ∧ ∃ m, s.mon.release = .ok (m, woken) ∧
        s' = s.goto m p (.left i)
    | .sleep p i granted => s.At p (.left i) ∧ ∃ m, s.mon.down p (.cond i) = .ok (m, granted) ∧
        s' = s.goto m p (if granted then .awake i else .waiting i)
    | .wake p i => s.At p (.waiting i) ∧ ∃ m, s.mon.downResume p (.cond i) = .ok m ∧
        s' = s.goto m p (.awake i)
    | .waited p i => s.At p (.awake i) ∧ s' = s.goto (s.mon.waitCondEnd i) p .inside
    | .exit p woken => s.At p .inside ∧ ∃ m, s.mon.release = .ok (m, woken) ∧
        s' = s.goto m p .outside

end GarretOS
