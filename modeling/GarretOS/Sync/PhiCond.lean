import GarretOS.Sync.MonitorRuns
import GarretOS.Sync.Phi

/-!
# The philosophers at a monitor

The philosophers of `kernel/sync/test_phi.c` that use a monitor, `phi_func_cond` and the functions
it calls, in any interleaving.  They are processes of `monitorSystem` that follow a program
(`CondPos`): what a philosopher does when it is inside the monitor, or outside of it.  The calls of
`do_sleep` only keep a philosopher outside of the monitor for some time, and are left out.
-/

namespace GarretOS

/-- What a philosopher does next, when it is outside of the monitor or inside. -/
inductive CondPos where
  /-- Outside: it enters `phi_take_forks_cond`. -/
  | thinking
  /-- The assignment of `HUNGRY`, and `phi_test_cond(phi)`. -/
  | take
  /-- `signal_cond(&cond[phi])` in `phi_test_cond(phi)`. -/
  | takeSignal
  /-- The test whether the flag is still `HUNGRY`. -/
  | takeCheck
  /-- The exit of `phi_take_forks_cond`, after `wait_cond(&cond[phi])`. -/
  | takeDone
  /-- Outside: it enters `phi_put_forks_cond`. -/
  | eating
  /-- The assignment of `THINKING`, and `phi_test_cond(left(phi))`. -/
  | put
  /-- `signal_cond(&cond[left(phi)])` in `phi_test_cond(left(phi))`. -/
  | signalLeft
  /-- `phi_test_cond(right(phi))`. -/
  | putRight
  /-- `signal_cond(&cond[right(phi)])` in `phi_test_cond(right(phi))`. -/
  | signalRight
  /-- The exit of `phi_put_forks_cond`. -/
  | putDone
  deriving DecidableEq

/-- `g_phi_state_cond` -/
abbrev PhiFlags : Type := Phi → Appetite

/-- `phi_test_cond` up to its call of `signal_cond`, and whether that is reached. -/
def phiTestCond (flag : PhiFlags) (phi : Phi) : PhiFlags × Bool :=
  if phiTable.CanEat flag phi then (Function.update flag phi .eating, true) else (flag, false)

/-- The philosophers, the monitor and the flags. -/
structure CondState where
  /-- The monitor `g_phi_monitor`, which protects the flags, and where each philosopher is. -/
  mon : MonitorState numPhi Phi PhiFlags
  /-- The variable `i` of `phi_func_cond`. -/
  iter : Phi → ℕ
  /-- What each philosopher does next. -/
  prog : Phi → CondPos

namespace CondState

variable (s : CondState)

/-- `g_phi_state_cond` -/
def flag : PhiFlags := s.mon.data

/-- Where a philosopher is with respect to the monitor. -/
def pos : Phi → MonitorPos numPhi := s.mon.pos

/-- The code of a philosopher inside the monitor between two calls of monitor functions: the flags
after it, and what comes next. -/
def work (phi : Phi) : CondPos → Option (PhiFlags × CondPos)
  | .take =>
    match phiTestCond (Function.update s.flag phi .hungry) phi with
    | (flag, ate) => some (flag, if ate then .takeSignal else .takeCheck)
  | .put =>
    match phiTestCond (Function.update s.flag phi .thinking) phi.left with
    | (flag, ate) => some (flag, if ate then .signalLeft else .putRight)
  | .putRight =>
    match phiTestCond s.flag phi.right with
    | (flag, ate) => some (flag, if ate then .signalRight else .putDone)
  | _ => none

/-- The program: `Next s op flag phi x i` says that the step `op` is one of the philosopher `phi`,
after which its program is at `x`, the flags are `flag` and its variable `i` is `i`. -/
inductive Next : MonitorOp numPhi Phi → PhiFlags → Phi → CondPos → ℕ → Prop
  | enterTake {phi : Phi} {granted : Bool} : s.prog phi = .thinking → s.iter phi < phiTimes →
      Next (.enter phi granted) s.flag phi .take (s.iter phi)
  | enterPut {phi : Phi} {granted : Bool} : s.prog phi = .eating →
      Next (.enter phi granted) s.flag phi .put (s.iter phi)
  | work {phi : Phi} {flag : PhiFlags} {x : CondPos} : s.work phi (s.prog phi) = some (flag, x) →
      Next (.work phi) flag phi x (s.iter phi)
  | takeSignal {phi : Phi} : s.prog phi = .takeSignal →
      Next (.signal phi phi) s.flag phi .takeCheck (s.iter phi)
  | signalLeft {phi : Phi} : s.prog phi = .signalLeft →
      Next (.signal phi phi.left) s.flag phi .putRight (s.iter phi)
  | signalRight {phi : Phi} : s.prog phi = .signalRight →
      Next (.signal phi phi.right) s.flag phi .putDone (s.iter phi)
  | wait {phi : Phi} : s.prog phi = .takeCheck → s.flag phi = .hungry →
      Next (.wait phi phi) s.flag phi .takeDone (s.iter phi)
  | exitTake {phi : Phi} {w : Option Phi} : s.prog phi = .takeDone ∨
      s.prog phi = .takeCheck ∧ s.flag phi ≠ .hungry →
      Next (.exit phi w) s.flag phi .eating (s.iter phi)
  | exitPut {phi : Phi} {w : Option Phi} : s.prog phi = .putDone →
      Next (.exit phi w) s.flag phi .thinking (s.iter phi + 1)
  | entered {phi : Phi} : Next (.entered phi) s.flag phi (s.prog phi) (s.iter phi)
  | notify {phi : Phi} {i : Phi} {w : Option Phi} :
      Next (.notify phi i w) s.flag phi (s.prog phi) (s.iter phi)
  | suspend {phi : Phi} {granted : Bool} :
      Next (.suspend phi granted) s.flag phi (s.prog phi) (s.iter phi)
  | resume {phi : Phi} : Next (.resume phi) s.flag phi (s.prog phi) (s.iter phi)
  | signalled {phi : Phi} : Next (.signalled phi) s.flag phi (s.prog phi) (s.iter phi)
  | leave {phi : Phi} {i : Phi} {w : Option Phi} :
      Next (.leave phi i w) s.flag phi (s.prog phi) (s.iter phi)
  | sleep {phi : Phi} {i : Phi} {granted : Bool} :
      Next (.sleep phi i granted) s.flag phi (s.prog phi) (s.iter phi)
  | wake {phi : Phi} {i : Phi} : Next (.wake phi i) s.flag phi (s.prog phi) (s.iter phi)
  | waited {phi : Phi} {i : Phi} : Next (.waited phi i) s.flag phi (s.prog phi) (s.iter phi)

end CondState

/-- The philosophers after the loop of `test_phi_cond` that creates them. -/
def phiCondSystem : System CondState (MonitorOp numPhi Phi) where
  init s := (monitorSystem numPhi Phi PhiFlags).init s.mon ∧
    ∀ phi, s.flag phi = .thinking ∧ s.iter phi = 0 ∧ s.prog phi = .thinking
  step s op s' := (monitorSystem numPhi Phi PhiFlags).step s.mon op s'.mon ∧
    ∃ phi x i, s.Next op s'.flag phi x i ∧ s'.prog = Function.update s.prog phi x ∧
      s'.iter = Function.update s.iter phi i

end GarretOS
