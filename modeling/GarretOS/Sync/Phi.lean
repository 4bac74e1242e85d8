import Mathlib.Data.BitVec
import GarretOS.Dining.Basic
import GarretOS.Sync.WaitQueue

/-!
# The philosophers

The philosophers of `kernel/sync/test_phi.c` that use semaphores, `phi_func_sem` and the functions
it calls.  The state of a philosopher in the program is its position (`PhiPos`); a step runs from
one position to the next and contains one call of `up`, `down` or `do_sleep` at most.  `down` and
`do_sleep` are cut at their calls of `schedule`.  The output to the console is left out.

The philosophers are kernel threads: `schedule` is called in `down` and `do_sleep` only, and `curr`
is the philosopher that has not called it since it took its last step (`Cooperative`).
-/

namespace GarretOS

/-- `NUM_PHI` -/
def numPhi : ℕ := 5

/-- `TIMES` -/
def phiTimes : ℕ := 4

instance neZeroNumPhi : NeZero numPhi := ⟨by decide⟩

/-- The philosophers. -/
abbrev Phi : Type := Fin numPhi

/-- `left` -/
def Phi.left (phi : Phi) : Phi := ⟨(phi + numPhi - 1) % numPhi, Nat.mod_lt _ (by decide)⟩

/-- `right` -/
def Phi.right (phi : Phi) : Phi := ⟨(phi + 1) % numPhi, Nat.mod_lt _ (by decide)⟩

/-- The table. -/
def phiTable : Neighbours Phi where
  left := Phi.left
  right := Phi.right
  left_right := by decide
  right_left := by decide
  right_ne := by decide

/-- `g_phi_mutex`, and the semaphores `g_phi_sem[phi]`. -/
inductive PhiSem where
  | mutex
  | phi (phi : Phi)
  deriving DecidableEq

/-- Where a philosopher is. -/
inductive PhiPos where
  /-- At the beginning of the loop, before the first `do_sleep`. -/
  | thinking
  /-- In the first `do_sleep`. -/
  | dozing
  /-- In `phi_take_forks_sem`, before `down(&g_phi_mutex)`. -/
  | taking
  /-- In that `down`. -/
  | takeWait
  /-- In the critical section, before the assignment of `HUNGRY`. -/
  | claiming
  /-- Before `up(&g_phi_mutex)`. -/
  | claimed
  /-- Before `down(&g_phi_sem[phi])`. -/
  | sitting
  /-- In that `down`. -/
  | sitWait
  /-- Before the second `do_sleep`. -/
  | eating
  /-- In the second `do_sleep`. -/
  | digesting
  /-- In `phi_put_forks_sem`, before `down(&g_phi_mutex)`. -/
  | putting
  /-- In that `down`. -/
  | putWait
  /-- In the critical section, before the assignment of `THINKING`. -/
  | leaving
  /-- Before `phi_test_sem(right(phi))`. -/
  | testing
  /-- Before `up(&g_phi_mutex)`. -/
  | left
  /-- At the end. -/
  | quit
  deriving DecidableEq

namespace PhiPos

/-- The semaphore in whose `down` the philosopher `phi` is. -/
def sem (phi : Phi) : PhiPos → Option PhiSem
  | takeWait | putWait => some .mutex
  | sitWait => some (.phi phi)
  | _ => none

/-- Between the `down` and the `up` of `g_phi_mutex`. -/
def critical : PhiPos → Bool
  | claiming | claimed | leaving | testing | left => true
  | _ => false

/-- In `do_sleep`. -/
def dozes : PhiPos → Bool
  | dozing | digesting => true
  | _ => false

/-- Between the assignment of `HUNGRY` and the `down` of `g_phi_sem[phi]`. -/
def hopes : PhiPos → Bool
  | claimed | sitting => true
  | _ => false

/-- From the end of `phi_take_forks_sem` up to the assignment of `THINKING`. -/
def eats : PhiPos → Bool
  | eating | digesting | putting | putWait | leaving => true
  | _ => false

/-- The values of `g_phi_state_sem[phi]` at each position. -/
def Allows : PhiPos → Appetite → Prop
  | claimed, a | sitting, a | sitWait, a => a ≠ .thinking
  | eating, a | digesting, a | putting, a | putWait, a | leaving, a => a = .eating
  | _, a => a = .thinking

end PhiPos

/-- The philosophers and what they share. -/
structure PhiState where
  /-- The semaphores and the processes. -/
  sem : SemState PhiSem Phi
  /-- `g_phi_state_sem` -/
  flag : Phi → Appetite
  /-- The variable `i` of `phi_func_sem`. -/
  iter : Phi → ℕ
  /-- Where each philosopher is. -/
  pos : Phi → PhiPos
  /-- The philosopher that runs, if any. -/
  curr : Option Phi

namespace PhiState

variable (s : PhiState)

/-- The philosopher `phi` is now at `x`. -/
def goto (phi : Phi) (x : PhiPos) : PhiState := { s with pos := Function.update s.pos phi x }

/-- The assignment to `g_phi_state_sem[phi]`. -/
def setFlag (phi : Phi) (a : Appetite) : PhiState :=
  { s with flag := Function.update s.flag phi a }

/-- The assignments to `state` and `wait_state` of the pcb of `phi`. -/
def setPcb (phi : Phi) (r : RunState) : PhiState :=
  { s with sem := { s.sem with pcb := Function.update s.sem.pcb phi r } }

/-- `up` -/
def up (sem : PhiSem) : Res PhiState := do
  let (sem, _) ← s.sem.up sem
  return { s with sem }

/-- `down` of the philosopher `phi`, which is at `x` after it, or at `y` if it has to wait. -/
def down (phi : Phi) (sem : PhiSem) (x y : PhiPos) : Res PhiState := do
  let (sem, granted) ← s.sem.down phi sem
  return ({ s with sem } : PhiState).goto phi (if granted then x else y)

/-- The rest of `down`, after the call of `schedule`. -/
def downResume (phi : Phi) (sem : PhiSem) (x : PhiPos) : Res PhiState := do
  let sem ← s.sem.downResume phi sem
  return ({ s with sem } : PhiState).goto phi x

/-- `do_sleep` up to its call of `schedule`. -/
def doSleep (phi : Phi) : PhiState := s.setPcb phi ⟨.sleeping, waitTimer⟩

/-- `phi_test_sem` -/
def phiTestSem (phi : Phi) : Res PhiState :=
  if phiTable.CanEat s.flag phi then (s.setFlag phi .eating).up (.phi phi) else .ok s

/-- The end of a round of the loop of `phi_func_sem`. -/
def nextRound (phi : Phi) : PhiState :=
  ({ s with iter := Function.update s.iter phi (s.iter phi + 1) } : PhiState).goto phi
    (if s.iter phi + 1 < phiTimes then .thinking else .quit)

/-- The next step of the philosopher `phi`. -/
def exec (phi : Phi) : Res PhiState :=
  match s.pos phi with
  | .thinking => .ok ((s.doSleep phi).goto phi .dozing)
  | .dozing => .ok (s.goto phi .taking)
  | .taking => s.down phi .mutex .claiming .takeWait
  | .takeWait => s.downResume phi .mutex .claiming
  | .claiming => ((s.setFlag phi .hungry).goto phi .claimed).phiTestSem phi
  | .claimed => (s.goto phi .sitting).up .mutex
  | .sitting => s.down phi (.phi phi) .eating .sitWait
  | .sitWait => s.downResume phi (.phi phi) .eating
  | .eating => .ok ((s.doSleep phi).goto phi .digesting)
  | .digesting => .ok (s.goto phi .putting)
  | .putting => s.down phi .mutex .leaving .putWait
  | .putWait => s.downResume phi .mutex .leaving
  | .leaving => ((s.setFlag phi .thinking).goto phi .testing).phiTestSem phi.left
  | .testing => (s.goto phi .left).phiTestSem phi.right
  | .left => (s.nextRound phi).up .mutex
  | .quit => .ok s

/-- The philosopher `phi` may take its next step. -/
def Ready (phi : Phi) : Prop := (s.sem.pcb phi).state = .runnable ∧ s.pos phi ≠ .quit

/-- `phi` has taken a step; it goes on running unless it has called `schedule` or ended. -/
def setCurr (phi : Phi) : PhiState :=
  { s with curr :=
      if (s.sem.pcb phi).state = .runnable ∧ s.pos phi ≠ .quit then some phi else none }

end PhiState

/-- The steps of the philosophers. -/
inductive PhiOp where
  /-- The next step of a philosopher. -/
  | run (phi : Phi)
  /-- The timer of `do_sleep` has expired. -/
  | wakeup (phi : Phi)
  deriving DecidableEq

/-- The philosophers after the loop of `test_phi_sem` that creates them. -/
def phiSystem : System PhiState PhiOp where
  init s := s.sem.initSem .mutex 1 = s.sem ∧ (∀ phi, s.sem.initSem (.phi phi) 0 = s.sem) ∧
    (∀ phi, s.sem.blockedIn phi = none ∧ s.sem.pcb phi = .running) ∧
    (∀ phi, s.flag phi = .thinking ∧ s.iter phi = 0 ∧ s.pos phi = .thinking) ∧ s.curr = none
  step s op s' := match op with
    | .run phi => s.Ready phi ∧ ∃ t : PhiState, s.exec phi = .ok t ∧ s' = t.setCurr phi
    | .wakeup phi => (s.pos phi).dozes ∧ ∃ r, (s.sem.pcb phi).state = .sleeping ∧
        (s.sem.pcb phi).wakeup = .ok r ∧ s' = s.setPcb phi r

/-- Kernel threads are not preempted: a philosopher runs until it calls `schedule`. -/
def Cooperative (s : PhiState) : PhiOp → Prop
  | .run phi => s.curr = none ∨ s.curr = some phi
  | .wakeup _ => True

end GarretOS
