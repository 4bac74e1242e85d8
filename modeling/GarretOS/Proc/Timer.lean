import GarretOS.Kernel.Fault
import GarretOS.Ring.Basic

/-!
# Kernel timers

`add_timer`, `del_timer` and `run_timers` of `kernel/proc/schedule.c`, and the initialisation of a
timer in `do_sleep`.  Timers are named by `τ` and processes by `π`; the links of the list
`g_timer_list` are those of its head, `none`, and of the `timer_link` fields.

The functions are written over the subtraction and the addition on `u32` (`Arith`): the kernel
computes with `u32Arith`, where both wrap, and `checkedArith` stops when they would.
-/

namespace GarretOS

/-- Subtraction and addition on `u32`. -/
structure Arith where
  /-- `a - b` -/
  sub : ℕ → ℕ → Res ℕ
  /-- `a + b` -/
  add : ℕ → ℕ → Res ℕ

/-- The arithmetic of the machine. -/
def u32Arith : Arith where
  sub a b := .ok (u32 (a + 2 ^ 32 - b))
  add a b := .ok (u32 (a + b))

/-- The arithmetic that stops where the machine wraps. -/
def checkedArith : Arith where
  sub a b := if b ≤ a then .ok (a - b) else .error (.panic "u32 subtraction wraps")
  add a b := if a + b < 2 ^ 32 then .ok (a + b) else .error (.panic "u32 addition wraps")

/-- The arithmetic is exact as long as nothing wraps. -/
structure Arith.Exact (ar : Arith) : Prop where
  sub : ∀ {a b : ℕ}, b ≤ a → a < 2 ^ 32 → ar.sub a b = .ok (a - b)
  add : ∀ {a b : ℕ}, a + b < 2 ^ 32 → ar.add a b = .ok (a + b)

theorem u32Arith_exact : u32Arith.Exact where
  sub {a b} hb ha := by
    have h : u32 (a + 2 ^ 32 - b) = a - b := by
      unfold u32
      omega
    simp only [u32Arith, h]
  add h := by simp only [u32Arith, u32_of_lt h]

theorem checkedArith_exact : checkedArith.Exact where
  sub hb _ := if_pos hb
  add h := if_pos h

/-- The timers: their fields, and the list `g_timer_list`. -/
structure Timers (τ π : Type) where
  /-- `timer->expires` -/
  expires : τ → ℕ
  /-- `timer->proc` -/
  proc : τ → π
  /-- The links of the list head and of `timer->timer_link`. -/
  link : Links (Option τ)

namespace Timers

variable {τ π σ : Type} [DecidableEq τ] (ar : Arith)

/-- The assignment `timer->expires = e`. -/
def setExpires (T : Timers τ π) (timer : τ) (e : ℕ) : Timers τ π :=
  { T with expires := Function.update T.expires timer e }

/-- The initialisation of a timer in `do_sleep`. -/
def initTimer (T : Timers τ π) (timer : τ) (proc : π) (time : ℕ) : Timers τ π where
  proc := Function.update T.proc timer proc
  expires := Function.update T.expires timer time
  link := T.link.initList (some timer)

/-- The loop of `add_timer`: from `list` on, the node before which `timer` is inserted. -/
def addLoop (timer : τ) : ℕ → Timers τ π → Option τ → Res (Timers τ π × Option τ)
  | 0, _, _ => .error .diverges
  | _ + 1, T, none => .ok (T, none)
  | k + 1, T, some next =>
    if T.expires timer < T.expires next then do
      let e ← ar.sub (T.expires next) (T.expires timer)
      return (T.setExpires next e, some next)
    else do
      let e ← ar.sub (T.expires timer) (T.expires next)
      addLoop timer k (T.setExpires timer e) (T.link.next (some next))

/-- `add_timer`, its loop being given `k` rounds. -/
def addTimer (k : ℕ) (T : Timers τ π) (timer : τ) : Res (Timers τ π) := do
  assert (0 < T.expires timer) "timer->expires > 0 && timer->proc != NULL"
  assert (T.link.listEmpty (some timer)) "list_empty(&(timer->timer_link))"
  let (T, list) ← addLoop ar timer k T (T.link.next none)
  return { T with link := T.link.addList (T.link.prev list) list (some timer) }

/-- The first part of `del_timer`: the timer after `timer` takes over the ticks that `timer` had
left. -/
def giveBack (T : Timers τ π) (timer : τ) : Res (Timers τ π) :=
  if T.expires timer = 0 then .ok T
  else match T.link.next (some timer) with
    | none => .ok T
    | some next => do
      let e ← ar.add (T.expires next) (T.expires timer)
      return T.setExpires next e

/-- `del_timer` -/
def delTimer (T : Timers τ π) (timer : τ) : Res (Timers τ π) :=
  if T.link.listEmpty (some timer) then .ok T
  else do
    let T ← giveBack ar T timer
    return { T with link := (T.link.delList (some timer)).initList (some timer) }

/-- The loop of `run_timers`; `fire` is what happens to the process of a timer that has expired,
before the timer is deleted. -/
def expireLoop (fire : σ → τ → π → Res σ) : ℕ → τ → Timers τ π → σ → Res (Timers τ π × σ)
  | 0, _, _, _ => .error .diverges
  | k + 1, timer, T, s =>
    if T.expires timer = 0 then do
      let list := T.link.next (some timer)
      let s ← fire s timer (T.proc timer)
      let T ← delTimer ar T timer
      match list with
      | none => return (T, s)
      | some timer => expireLoop fire k timer T s
    else .ok (T, s)

/-- `run_timers`, its loop being given `k` rounds; `procTick` is the call of
`scheduler_proc_tick` for the running process. -/
def runTimers (fire : σ → τ → π → Res σ) (procTick : σ → σ) (k : ℕ) (T : Timers τ π) (s : σ) :
    Res (Timers τ π × σ) := do
  let (T, s) ← match T.link.next none with
    | none => Except.ok (T, s)
    | some timer => do
      assert (T.expires timer ≠ 0) "timer->expires != 0"
      let e ← ar.sub (T.expires timer) 1
      expireLoop ar fire k timer (T.setExpires timer e) s
  return (T, procTick s)

end Timers

end GarretOS
