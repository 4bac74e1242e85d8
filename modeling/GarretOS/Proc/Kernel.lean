import GarretOS.Mm.Layout
import GarretOS.Proc.RunQueue
import GarretOS.Proc.Table
import GarretOS.Proc.Timer
import GarretOS.Proc.VmTable
import GarretOS.System.Basic

/-!
# The process kernel

The functions of `kernel/proc/proc.c` that create, suspend, kill and reap processes, the end of
`trap` (`kernel/trap/trap.c`), and the system of all their runs.

A process gives up the processor only by calling `schedule`.  Each function is cut at these calls:
up to the call it is one step, the call is a step of its own, and what follows it is a third one.
In the same way `do_execve` is one step up to its call of `load_bin`.  `Loc` says where a process is
between two steps, and `Ret` where it goes on after `schedule`.

Semaphores are named by `κ`, processes by `ν`, structures `vm_manager` by `μ` and root tables by
`ρ`; the timer of `do_sleep` is a variable on the kernel stack, so there is one for each process.
Loops are given `k` rounds.  The names of the processes, their register contexts and the hash lists
are left out, and so is `vmm->sem`, on which no process ever waits.
-/

namespace GarretOS

/-- `E_BAD_PROC` -/
def eBadProc : ℤ := 2

/-- `E_NO_FREE_PROC` -/
def eNoFreeProc : ℤ := 5

/-- `E_KILLED` -/
def eKilled : ℤ := 9

/-- The calls of `schedule`. -/
inductive Ret (κ : Type) where
  /-- At the end of `trap`. -/
  | trap
  /-- In the code of a kernel thread. -/
  | kernel
  /-- In `do_wait`; its argument `pid`, and whether `exit_code` is not `NULL`. -/
  | wait (pid : ℤ) (store : Bool)
  /-- In `do_sleep`. -/
  | sleep
  /-- In `down`. -/
  | down (sem : κ)
  /-- In `do_exit`. -/
  | exit
  deriving DecidableEq

/-- Where a process is. -/
inductive Loc (κ : Type) where
  /-- In user mode. -/
  | user
  /-- In the code of a kernel thread. -/
  | kernel
  /-- In `trap`, after `trap_dispatch`. -/
  | trapEnd
  /-- Created, but not started yet. -/
  | newborn
  /-- In `do_execve`, about to call `load_bin`. -/
  | loading
  /-- About to call `schedule`. -/
  | calling (r : Ret κ)
  /-- Inside `schedule`. -/
  | within (r : Ret κ)
  deriving DecidableEq

/-- The processes and the kernel data that tie them together. -/
structure Kernel (κ ν μ ρ : Type) where
  /-- The states of the processes, the semaphores and the run queue. -/
  sched : Sched κ ν
  /-- The process list, the process tree and the pids. -/
  table : ProcTable ν
  /-- `g_timer_list` and the timers on the kernel stacks. -/
  timers : Timers ν ν
  /-- The address spaces. -/
  vm : VmTable ν μ ρ
  /-- `g_init_proc` -/
  initProc : ν
  /-- `proc->flags & PROC_FLAG_EXIT` -/
  flagExit : ν → Bool
  /-- `proc->exit_code` -/
  exitCode : ν → ℤ
  /-- The word to which the argument `exit_code` of `do_wait` points. -/
  waitStatus : ν → ℤ
  /-- The structures that are allocated. -/
  inUse : ν → Bool
  /-- The process has entered the kernel from user mode, or will begin in user mode. -/
  isUser : ν → Bool
  /-- Where each process is. -/
  loc : ν → Loc κ

/-- What the allocations of `do_fork` return. -/
structure ForkMem (ν μ ρ : Type) where
  /-- `alloc_proc()` -/
  pcb : Option ν
  /-- `alloc_pages(KERNEL_STACK_PAGE)` succeeds. -/
  stack : Bool
  /-- The allocations of `copy_vmm`. -/
  vm : VmMem μ ρ

/-- What a step returns to the code that has called a kernel function. -/
inductive Outcome (ν : Type) where
  /-- No function returns. -/
  | none
  /-- A function returns `ret`, and the process `reaped` has been removed. -/
  | returned (ret : ℤ) (reaped : Option ν)
  deriving DecidableEq

namespace Kernel

variable {κ ν μ ρ : Type} [DecidableEq κ] [DecidableEq ν] [DecidableEq μ] [DecidableEq ρ]
  (s : Kernel κ ν μ ρ)

/-- `g_curr_proc` -/
def curr : ν := s.sched.curr

/-- The process `proc` is now at `l`. -/
def setLoc (proc : ν) (l : Loc κ) : Kernel κ ν μ ρ :=
  { s with loc := Function.update s.loc proc l }

/-- The running process returns to the code that has called a kernel function. -/
def back : Kernel κ ν μ ρ := s.setLoc s.curr (if s.isUser s.curr then .trapEnd else .kernel)

/-- `wakeup_proc` -/
def wakeupProc (k : ℕ) (proc : ν) : Res (Kernel κ ν μ ρ) := do
  let sched ← s.sched.wakeupProc k proc
  return { s with sched }

/-- `alloc_proc` -/
def allocProc (proc : ν) : Kernel κ ν μ ρ :=
  { s with
    sched := s.sched.allocProc proc
    table := s.table.allocProc proc
    vm := s.vm.allocProc proc
    flagExit := Function.update s.flagExit proc false
    exitCode := Function.update s.exitCode proc 0
    inUse := Function.update s.inUse proc true }

/-- `free(proc, sizeof(struct pcb))` -/
def freeProc (proc : ν) : Kernel κ ν μ ρ :=
  { s with inUse := Function.update s.inUse proc false }

/-- `do_fork` : the new state, and the value it returns. -/
def doFork (k : ℕ) (cloneVm : Bool) (m : ForkMem ν μ ρ) : Res (Kernel κ ν μ ρ × ℤ) :=
  if maxProcess < s.table.numProc then .ok (s, -eNoFreeProc)
  else match m.pcb with
  | none => .ok (s, -eNoMem)
  | some proc => do
    let s := s.allocProc proc
    let s := { s with table := s.table.setParent proc (some s.curr) }
    assert ((s.sched.pcb s.curr).waitState = waitNone) "g_curr_proc->wait_state == WAIT_NONE"
    if ¬ m.stack then
      return (s.freeProc proc, -eNoMem)
    match s.vm.copyVmm s.curr proc cloneVm m.vm with
    | (vm, false) => return (({ s with vm } : Kernel κ ν μ ρ).freeProc proc, -eNoMem)
    | (vm, true) =>
      -- `copy_proc`
      let s := { s with
        vm
        isUser := Function.update s.isUser proc (s.isUser s.curr)
        loc := Function.update s.loc proc .newborn }
      let table ← s.table.enterProc k proc
      let s ← ({ s with table } : Kernel κ ν μ ρ).wakeupProc k proc
      return (s, s.table.pid proc)

/-- The loop of `do_wait` over the children of the running process, at `proc`: whether there is a
child, and the first one that is a zombie. -/
def childLoop : ℕ → Option ν → Bool → Res (Bool × Option ν)
  | 0, _, _ => .error .diverges
  | _ + 1, none, hasChild => .ok (hasChild, none)
  | k + 1, some proc, _ =>
    if (s.sched.pcb proc).state = .zombie then .ok (true, some proc)
    else childLoop k (s.table.older proc) true

/-- The first part of a round of `do_wait`: whether there is a child to wait for, and the child
that can be reaped. -/
def findZombie (k : ℕ) (pid : ℤ) : Res (Bool × Option ν) :=
  if pid ≠ 0 then do
    match ← s.table.getProc k pid with
    | none => return (false, none)
    | some proc =>
      if s.table.parent proc = some s.curr then
        return (true, if (s.sched.pcb proc).state = .zombie then some proc else none)
      else return (false, none)
  else s.childLoop k (s.table.child s.curr) false

/-- The end of `do_wait`, when the zombie `proc` has been found. -/
def reap (proc : ν) (store : Bool) : Res (Kernel κ ν μ ρ) := do
  if proc = s.sched.idle ∨ proc = s.initProc then
    .error (.panic "wait idle proc or init proc")
  let s := if store then
    { s with waitStatus := Function.update s.waitStatus s.curr (s.exitCode proc) } else s
  let table ← s.table.removeLinks proc
  return ({ s with table } : Kernel κ ν μ ρ).freeProc proc

/-- A round of the loop of `do_wait`. -/
def waitRound (k : ℕ) (pid : ℤ) (store : Bool) : Res (Kernel κ ν μ ρ × Outcome ν) := do
  match ← s.findZombie k pid with
  | (_, some proc) => do
    let s ← s.reap proc store
    return (s.back, .returned 0 (some proc))
  | (true, none) =>
    let s := { s with sched := s.sched.setPcb s.curr ⟨.sleeping, waitChild⟩ }
    return (s.setLoc s.curr (.calling (.wait pid store)), .none)
  | (false, none) => return (s.back, .returned (-eBadProc) none)

/-- `do_wait` up to its first call of `schedule`; `store` is the result of `check_vmm` for the
argument `exit_code`, unless that is `NULL`. -/
def doWait (k : ℕ) (pid : ℤ) (store : Option Bool) : Res (Kernel κ ν μ ρ × Outcome ν) :=
  if store = some false then .ok (s.back, .returned (-eInval) none)
  else s.waitRound k pid store.isSome

/-- A round of the loop of `do_exit`, for the child `proc` of the running process. -/
def reparent (proc : ν) : ProcTable ν :=
  let T := s.table.setChild s.curr (s.table.older proc)
  let T := T.setYounger proc none
  let T := T.setOlder proc (T.child s.initProc)
  let T := T.setYoungerOf (T.child s.initProc) (some proc)
  let T := T.setParent proc (some s.initProc)
  T.setChild s.initProc (some proc)

/-- The loop of `do_exit`. -/
def reparentLoop : ℕ → Kernel κ ν μ ρ → Res (Kernel κ ν μ ρ)
  | 0, _ => .error .diverges
  | k + 1, s =>
    match s.table.child s.curr with
    | none => .ok s
    | some proc => do
      let s := { s with table := s.reparent proc }
      let s ← (if (s.sched.pcb proc).state = .zombie ∧
          (s.sched.pcb s.initProc).waitState = waitChild then s.wakeupProc k s.initProc else .ok s)
      reparentLoop k s

/-- `do_exit` up to its call of `schedule`. -/
def doExit (k : ℕ) (errno : ℤ) : Res (Kernel κ ν μ ρ) := do
  if s.curr = s.sched.idle then
    .error (.panic "idle proc can not exit\n")
  let s := { s with vm := s.vm.leaveVmm s.curr }
  let s := { s with
    sched := s.sched.setPcb s.curr ⟨.zombie, (s.sched.pcb s.curr).waitState⟩
    exitCode := Function.update s.exitCode s.curr errno }
  let parent ← deref (s.table.parent s.curr)
  let s ← (if (s.sched.pcb parent).waitState = waitChild then s.wakeupProc k parent else .ok s)
  let s ← reparentLoop k s
  return s.setLoc s.curr (.calling .exit)

/-- `do_execve` up to its call of `load_bin`; `valid` is the result of `check_vmm` for the argument
`name`. -/
def doExecve (valid : Bool) : Kernel κ ν μ ρ × Outcome ν :=
  if ¬ valid then (s.back, .returned (-eInval) none)
  else (({ s with vm := s.vm.leaveVmm s.curr } : Kernel κ ν μ ρ).setLoc s.curr .loading, .none)

/-- The rest of `do_execve`; `ret` is what `load_bin` returns when it fails.  A trap from the code of
a kernel thread has no tests at its end. -/
def loadBin (k : ℕ) (m : VmMem μ ρ) (ret : ℤ) : Res (Kernel κ ν μ ρ × Outcome ν) := do
  match ← s.vm.loadBin s.curr m with
  | (vm, true) =>
    let s := ({ s with vm } : Kernel κ ν μ ρ).setLoc s.curr
      (if s.isUser s.curr then .trapEnd else .user)
    return ({ s with isUser := Function.update s.isUser s.curr true }, .returned 0 none)
  | (vm, false) => do
    let s ← ({ s with vm } : Kernel κ ν μ ρ).doExit k ret
    return (s, .none)

/-- `do_kill` -/
def doKill (k : ℕ) (pid : ℤ) : Res (Kernel κ ν μ ρ × ℤ) := do
  match ← s.table.getProc k pid with
  | none => return (s, -eInval)
  | some proc =>
    if s.flagExit proc then return (s, -eKilled)
    else do
      let s := { s with flagExit := Function.update s.flagExit proc true }
      let s ← (if (s.sched.pcb proc).waitState &&& waitInt ≠ 0 then s.wakeupProc k proc else .ok s)
      return (s, 0)

/-- `do_yield` -/
def doYield : Kernel κ ν μ ρ :=
  { s with sched := { s.sched with queue := { s.sched.queue with
    needReschedule := Function.update s.sched.queue.needReschedule s.curr true } } }

/-- `set_priority`; the argument is a `u32`. -/
def setPriority (priority : ℕ) : Kernel κ ν μ ρ :=
  { s with sched := { s.sched with queue := { s.sched.queue with
    priority := Function.update s.sched.queue.priority s.curr
      (if u32 priority = 0 then 1 else u32 priority) } } }

/-- `do_sleep` up to its call of `schedule`; the argument is a `u32`. -/
def doSleep (k : ℕ) (time : ℕ) : Res (Kernel κ ν μ ρ × Outcome ν) :=
  if u32 time = 0 then .ok (s.back, .returned 0 none)
  else do
    let T := s.timers.initTimer s.curr s.curr (u32 time)
    let s := { s with sched := s.sched.setPcb s.curr ⟨.sleeping, waitTimer⟩ }
    let timers ← T.addTimer u32Arith k s.curr
    return (({ s with timers } : Kernel κ ν μ ρ).setLoc s.curr (.calling .sleep), .none)

/-- `run_timers` -/
def runTimers (k : ℕ) : Res (Kernel κ ν μ ρ) := do
  let (timers, sched) ← Timers.runTimers u32Arith (fun S _ proc => Sched.fire S k proc)
    Sched.schedulerProcTick k s.timers s.sched
  return { s with timers, sched }

/-- The end of `trap`, for a trap from user mode. -/
def trapEnd (k : ℕ) : Res (Kernel κ ν μ ρ) :=
  if s.flagExit s.curr then s.doExit k (-eKilled)
  else if s.sched.queue.needReschedule s.curr then .ok (s.setLoc s.curr (.calling .trap))
  else .ok (s.setLoc s.curr .user)

/-- What the running process does after `schedule` has returned. -/
def resume (k : ℕ) : Ret κ → Res (Kernel κ ν μ ρ × Outcome ν)
  | .trap => .ok (s.setLoc s.curr .user, .none)
  | .kernel => .ok (s.setLoc s.curr .kernel, .none)
  | .wait pid store =>
    if s.flagExit s.curr then do
      let s ← s.doExit k (-eKilled)
      return (s, .none)
    else s.waitRound k pid store
  | .sleep => do
    let timers ← s.timers.delTimer u32Arith s.curr
    return (({ s with timers } : Kernel κ ν μ ρ).back, .returned 0 none)
  | .down sem => do
    let sched ← s.sched.downResume sem
    return (({ s with sched } : Kernel κ ν μ ρ).back, .none)
  | .exit => .error (.panic " -- do_exit will not return!!")

end Kernel

/-! ### Steps -/

/-- The steps of the processes. -/
inductive KernelOp (κ ν μ ρ : Type) where
  /-- `schedule` is entered. -/
  | schedule
  /-- `schedule` has returned. -/
  | resume
  /-- A new process starts. -/
  | start
  /-- The end of `trap`. -/
  | trapEnd
  /-- A trap from user mode, or a system call, that concerns nothing modelled here. -/
  | trap
  /-- A timer interrupt. -/
  | tick
  /-- A kernel thread calls `schedule`. -/
  | yieldKernel
  | doYield
  | setPriority (priority : ℕ)
  | doKill (pid : ℤ)
  | doFork (cloneVm : Bool) (m : ForkMem ν μ ρ)
  | doWait (pid : ℤ) (store : Option Bool)
  | doSleep (time : ℕ)
  | doExit (errno : ℤ)
  | doExecve (valid : Bool)
  | loadBin (m : VmMem μ ρ) (ret : ℤ)
  | down (sem : κ)
  | up (sem : κ)

namespace Kernel

variable {κ ν μ ρ : Type} [DecidableEq κ] [DecidableEq ν] [DecidableEq μ] [DecidableEq ρ]

/-- The running process may call a kernel function: a user process by a system call, a kernel
thread directly.  The idle process only calls `schedule`. -/
def MayCall (s : Kernel κ ν μ ρ) : Prop :=
  s.loc s.curr = .user ∨ s.loc s.curr = .kernel ∧ s.curr ≠ s.sched.idle

/-- Allocations return what is not in use. -/
def FreshVm (s : Kernel κ ν μ ρ) (m : VmMem μ ρ) : Prop :=
  (∀ vmm, m.vmm = some vmm → s.vm.vmms vmm = false) ∧ ∀ gpt, m.gpt = some gpt → s.vm.gpts gpt = false

/-- The steps that may come next. -/
def Enabled (s : Kernel κ ν μ ρ) : KernelOp κ ν μ ρ → Prop
  | .schedule => ∃ r, s.loc s.curr = .calling r
  | .resume => ∃ r, s.loc s.curr = .within r
  | .start => s.loc s.curr = .newborn
  | .trapEnd => s.loc s.curr = .trapEnd
  | .trap => s.loc s.curr = .user
  | .tick => True
  | .yieldKernel => s.loc s.curr = .kernel
  | .doFork _ m => s.MayCall ∧ (∀ proc, m.pcb = some proc → s.inUse proc = false) ∧ s.FreshVm m.vm
  | .loadBin m ret => s.loc s.curr = .loading ∧ s.FreshVm m ∧ ret ≠ 0
  | .doYield | .setPriority _ | .doKill _ | .doWait _ _ | .doSleep _ | .doExit _ | .doExecve _ =>
    s.MayCall
  | .down _ | .up _ => s.loc s.curr = .kernel ∧ s.curr ≠ s.sched.idle

/-- The effect of a step, loops being given `k` rounds. -/
def exec (k : ℕ) (s : Kernel κ ν μ ρ) : KernelOp κ ν μ ρ → Res (Kernel κ ν μ ρ × Outcome ν)
  | .schedule =>
    match s.loc s.curr with
    | .calling r => do
      let sched ← s.sched.schedule k
      return ({ s with sched, loc := Function.update s.loc s.curr (.within r) }, .none)
    | _ => .ok (s, .none)
  | .resume =>
    match s.loc s.curr with
    | .within r => s.resume k r
    | _ => .ok (s, .none)
  | .start => .ok (s.setLoc s.curr (if s.isUser s.curr then .user else .kernel), .none)
  | .trapEnd => do
    let s ← s.trapEnd k
    return (s, .none)
  | .trap => .ok (s.back, .none)
  | .tick => do
    let s ← s.runTimers k
    return (if s.loc s.curr = .user then s.back else s, .none)
  | .yieldKernel => .ok (s.setLoc s.curr (.calling .kernel), .none)
  | .doYield => .ok (s.doYield.back, .returned 0 none)
  | .setPriority priority => .ok ((s.setPriority priority).back, .none)
  | .doKill pid => do
    let (s, ret) ← s.doKill k pid
    return (s.back, .returned ret none)
  | .doFork cloneVm m => do
    let (s, ret) ← s.doFork k cloneVm m
    return (s.back, .returned ret none)
  | .doWait pid store => s.doWait k pid store
  | .doSleep time => s.doSleep k time
  | .doExit errno => do
    let s ← s.doExit k errno
    return (s, .none)
  | .doExecve valid => .ok (s.doExecve valid)
  | .loadBin m ret => s.loadBin k m ret
  | .down sem => do
    let (sched, granted) ← s.sched.down sem
    let s := { s with sched }
    return (if granted then s.back else s.setLoc s.curr (.calling (.down sem)), .none)
  | .up sem => do
    let sched ← s.sched.up k sem
    return (({ s with sched } : Kernel κ ν μ ρ).back, .none)

/-! ### Boot -/

/-- The parts of `init_scheduler` that concern processes, and `init_proc` up to its call of
`kernel_proc`. -/
def initIdle (idle : ν) (s : Kernel κ ν μ ρ) : Kernel κ ν μ ρ :=
  -- `init_scheduler`
  let s := { s with timers := { s.timers with link := s.timers.link.initList none } }
  let s := { s with sched := { s.sched with
    queue := { s.sched.queue with runPool := none, numProc := 0 } } }
  -- `init_proc`
  let s := { s with table := { s.table with procList := s.table.procList.initList none } }
  let s := s.allocProc idle
  let s := { s with sched := { s.sched.setPcb idle .running with idle } }
  let s := { s with table := s.table.setPid idle 0 }
  let s := { s with sched := { s.sched with queue := { s.sched.queue with
    needReschedule := Function.update s.sched.queue.needReschedule idle true } } }
  let s := { s with table := { s.table with numProc := u32 (s.table.numProc + 1) } }
  { s with sched := { s.sched with curr := idle } }

/-- `init_proc` -/
def initProcs (k : ℕ) (m : ForkMem ν μ ρ) (idle : ν) (s : Kernel κ ν μ ρ) :
    Res (Kernel κ ν μ ρ) := do
  let (s, pid) ← (initIdle idle s).doFork k true m
  if pid ≤ 0 then
    .error (.panic "create init_main failed.")
  let init ← s.table.getProc k pid
  let initProc ← deref init
  return { s with initProc }

end Kernel

/-- What holds before `init_proc`: nothing is allocated, the variables have their initial values,
the idle process is running, and the semaphores have been initialised. -/
structure Boot {κ ν μ ρ : Type} [DecidableEq κ] [DecidableEq ν] (s : Kernel κ ν μ ρ) : Prop where
  inUse : ∀ p, s.inUse p = false
  numProc : s.table.numProc = 0
  prevPid : s.table.prevPid = maxPid
  nextPid : s.table.nextPid = maxPid
  sem : ∀ k, s.sched.sem.link.initList (.queue k) = s.sched.sem.link
  blockedIn : ∀ p, s.sched.sem.blockedIn p = none
  loc : ∀ p, s.loc p = .kernel
  isUser : ∀ p, s.isUser p = false
  vmms : ∀ v, s.vm.vmms v = false
  gpts : ∀ g, s.vm.gpts g = false

/-- The processes after `init_proc`, in any order of their steps. -/
def kernelSystem (κ ν μ ρ : Type) [DecidableEq κ] [DecidableEq ν] [DecidableEq μ]
    [DecidableEq ρ] : System (Kernel κ ν μ ρ) (KernelOp κ ν μ ρ × Outcome ν) where
  init s := ∃ s₀ k m idle, Boot s₀ ∧ (∀ proc, m.pcb = some proc → proc ≠ idle) ∧
    Kernel.initProcs k m idle s₀ = .ok s
  step s l s' := s.Enabled l.1 ∧ ∃ k, Kernel.exec k s l.1 = .ok (s', l.2)

end GarretOS
