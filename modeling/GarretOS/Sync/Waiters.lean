import GarretOS.Sync.WaitQueue

/-!
# The order of wait queues

The functions of `kernel/sync/wait.c` that walk along a wait queue, and the runs of
`add_wait_queue` and `del_wait_queue` on one queue.

* `Queued.inOrder` : on a well-formed queue of any length the functions show its waiters in the
  order of the links;
* `WaitOk.add`, `WaitOk.del` : an insertion into an empty queue, and a deletion from any queue,
  keep the waiters in the order of their arrival;
* `wait_queue_in_order` : so does every run in which waiters are added to the empty queue only,
  and the first addition to a queue that is not empty breaks the order.
-/

namespace GarretOS

namespace SemState

variable {κ π : Type}

/-- `wait_queue_last` -/
def waitQueueLast (s : SemState κ π) (waitQueue : κ) : Option π :=
  match s.link.prev (.queue waitQueue) with
  | .queue _ => none
  | .wait wait => some wait

/-- The wait queue `k` is a ring of the waiters `ws`, which know that they are in it. -/
structure Queued (s : SemState κ π) (k : κ) (ws : List π) : Prop where
  ring : Ring s.link (.queue k) (ws.map .wait)
  here : ∀ w ∈ ws, (s.wait w).waitQueue = k

namespace Queued

variable {s : SemState κ π} {k : κ} {ws : List π}

theorem nodup (h : Queued s k ws) : ws.Nodup :=
  (List.nodup_cons.1 h.ring.nodup).2.of_map _

theorem first (h : Queued s k ws) : s.waitQueueFirst k = ws.head? := by
  unfold waitQueueFirst
  rw [h.ring.next_head]
  cases ws <;> rfl

theorem last (h : Queued s k ws) : s.waitQueueLast k = ws.getLast? := by
  unfold waitQueueLast
  rw [h.ring.prev_head]
  rcases List.eq_nil_or_concat ws with rfl | ⟨vs, w, rfl⟩
  · rfl
  · simp

end Queued

variable [DecidableEq κ] [DecidableEq π]

/-- `wait_queue_next` -/
def waitQueueNext (s : SemState κ π) (waitQueue : κ) (wait : π) : Res (Option π) := do
  assert (¬ s.link.listEmpty (.wait wait) ∧ (s.wait wait).waitQueue = waitQueue)
    "!list_empty(&(wait->wait_link)) && wait->wait_queue == wait_queue"
  match s.link.next (.wait wait) with
  | .queue _ => return none
  | .wait next => return some next

/-- `wait_queue_prev` -/
def waitQueuePrev (s : SemState κ π) (waitQueue : κ) (wait : π) : Res (Option π) := do
  assert (¬ s.link.listEmpty (.wait wait) ∧ (s.wait wait).waitQueue = waitQueue)
    "!list_empty(&(wait->wait_link)) && wait->wait_queue == wait_queue"
  match s.link.prev (.wait wait) with
  | .queue _ => return none
  | .wait prev => return some prev

/-- The waiters that `wait_queue_next` visits from `wait` on. -/
def waitersFrom (s : SemState κ π) (waitQueue : κ) : ℕ → Option π → Res (List π)
  | _, none => .ok []
  | 0, some _ => .error .diverges
  | n + 1, some wait => do
    let next ← s.waitQueueNext waitQueue wait
    let ws ← s.waitersFrom waitQueue n next
    return wait :: ws

/-- The wait queue `k` holds the waiters `ws`, in this order. -/
structure InOrder (s : SemState κ π) (k : κ) (ws : List π) : Prop where
  /-- The links form a circular list of the waiters, each once. -/
  ring : Ring s.link (.queue k) (ws.map .wait)
  first : s.waitQueueFirst k = ws.head?
  last : s.waitQueueLast k = ws.getLast?
  /-- From the first waiter on, `wait_queue_next` visits them all. -/
  visits : ∀ n, ws.length ≤ n → s.waitersFrom k n (s.waitQueueFirst k) = .ok ws
  /-- `wait_queue_prev` is the way back. -/
  inverse : ∀ v ∈ ws, ∀ w ∈ ws,
    s.waitQueueNext k v = .ok (some w) ↔ s.waitQueuePrev k w = .ok (some v)

namespace Queued

variable {s : SemState κ π} {k : κ} {us vs ws : List π} {w : π}

theorem linked (h : Queued s k ws) (hw : w ∈ ws) :
    ¬ s.link.listEmpty (.wait w) ∧ (s.wait w).waitQueue = k := by
  refine ⟨?_, h.here w hw⟩
  rw [h.ring.listEmpty_mem (List.mem_map_of_mem hw)]
  exact Bool.false_ne_true

theorem next (h : Queued s k (us ++ w :: vs)) : s.waitQueueNext k w = .ok vs.head? := by
  have hr := h.ring
  rw [List.map_append, List.map_cons] at hr
  rw [waitQueueNext, assert_of (h.linked (by simp)), ok_bind, hr.next_mem]
  cases vs <;> rfl

theorem prev (h : Queued s k (us ++ w :: vs)) : s.waitQueuePrev k w = .ok us.getLast? := by
  have hr := h.ring
  rw [List.map_append, List.map_cons] at hr
  rw [waitQueuePrev, assert_of (h.linked (by simp)), ok_bind, hr.prev_mem]
  rcases List.eq_nil_or_concat us with rfl | ⟨us, u, rfl⟩
  · rfl
  · simp [pure, Except.pure]

theorem waitersFrom (h : Queued s k (us ++ vs)) (n : ℕ) (hn : vs.length ≤ n) :
    s.waitersFrom k n vs.head? = .ok vs := by
  induction vs generalizing us n with
  | nil => cases n <;> rfl
  | cons w vs ih =>
    obtain ⟨n, rfl⟩ : ∃ m, n = m + 1 := ⟨n - 1, by simp at hn; omega⟩
    have h' : Queued s k ((us ++ [w]) ++ vs) := by simpa using h
    have ih' := ih h' n (by simpa using hn)
    simp only [List.head?_cons, SemState.waitersFrom, h.next, ok_bind, ih']
    rfl

/-- **A well-formed queue is shown in the order of its links.** -/
theorem inOrder (h : Queued s k ws) : InOrder s k ws := by
  refine ⟨h.ring, h.first, h.last, fun n hn => ?_, fun v hv w hw => ⟨fun hnext => ?_,
    fun hprev => ?_⟩⟩
  · rw [h.first]
    exact (show Queued s k ([] ++ ws) from h).waitersFrom n hn
  · obtain ⟨us, vs, rfl⟩ := List.append_of_mem hv
    rw [h.next, Except.ok.injEq] at hnext
    obtain ⟨vs, rfl⟩ : ∃ t, vs = w :: t := by
      cases vs with
      | nil => simp at hnext
      | cons x t => exact ⟨t, by simpa using hnext⟩
    have h' : Queued s k ((us ++ [v]) ++ w :: vs) := by simpa using h
    rw [h'.prev, List.getLast?_concat]
  · obtain ⟨us, vs, rfl⟩ := List.append_of_mem hw
    rw [h.prev, Except.ok.injEq] at hprev
    obtain ⟨us, rfl⟩ := List.getLast?_eq_some_iff.1 hprev
    have h' : Queued s k (us ++ v :: (w :: vs)) := by simpa using h
    rw [h'.next]
    rfl

theorem delWaitQueue (h : Queued s k (us ++ w :: vs)) :
    s.delWaitQueue k w = .ok { s with link := (s.link.delList (.wait w)).initList (.wait w) } := by
  rw [SemState.delWaitQueue, assert_of (h.linked (by simp)), ok_bind]
  rfl

/-- Deleting a waiter keeps the others in order. -/
theorem remove (h : Queued s k (us ++ w :: vs)) :
    Queued { s with link := (s.link.delList (.wait w)).initList (.wait w) } k (us ++ vs) := by
  have hr := h.ring
  rw [List.map_append, List.map_cons] at hr
  have hnodup := h.nodup
  rw [List.nodup_middle] at hnodup
  have hw := (List.nodup_cons.1 hnodup).1
  refine ⟨?_, fun x hx => h.here x ?_⟩
  · rw [List.map_append]
    refine hr.remove.congr (fun z hz => ?_) fun z hz => ?_
    · have hzw : z ≠ .wait w := by
        rintro rfl
        rw [← List.map_append] at hz
        exact hw (wait_mem.1 hz)
      simp [Links.initList, hzw]
    · have hzw : z ≠ .wait w := by
        rintro rfl
        rw [← List.map_append] at hz
        exact hw (wait_mem.1 hz)
      simp [Links.initList, hzw]
  · simp only [List.mem_append, List.mem_cons] at hx ⊢
    tauto

end Queued

/-! ### Runs -/

/-- The calls on one wait queue. -/
inductive WaitOp (π : Type) where
  /-- `add_wait_queue` -/
  | add (wait : π)
  /-- `del_wait_queue` -/
  | del (wait : π)

/-- A wait queue, and who waits in it. -/
structure WaitState (κ π : Type) where
  /-- The links and the `wait` variables. -/
  queue : SemState κ π
  /-- The waiters added and not deleted since, in the order of their arrival. -/
  arrived : List π

/-- Additions and deletions on the queue `k` after `init_wait_queue`, for waiters that have been
set up by `init_wait`. -/
def waitSystem (k : κ) : System (WaitState κ π) (WaitOp π) where
  init s := s.queue.link.initList (.queue k) = s.queue.link ∧
    (∀ w, s.queue.link.listEmpty (.wait w)) ∧ s.arrived = []
  step s op s' := match op with
    | .add w => w ∉ s.arrived ∧ s.queue.addWaitQueue k w = .ok s'.queue ∧
        s'.arrived = s.arrived ++ [w]
    | .del w => w ∈ s.arrived ∧ s.queue.delWaitQueue k w = .ok s'.queue ∧
        s'.arrived = s.arrived.erase w

/-- Waiters are added to the empty queue only. -/
def AddsToEmpty (s : WaitState κ π) : WaitOp π → Prop
  | .add _ => s.arrived = []
  | .del _ => True

/-- The queue holds the waiters in the order of their arrival; the others are not linked. -/
structure WaitOk (k : κ) (s : WaitState κ π) : Prop where
  queued : Queued s.queue k s.arrived
  unlinked : ∀ w, w ∉ s.arrived → s.queue.link.listEmpty (.wait w)

namespace WaitOk

variable {k : κ} {s s' : WaitState κ π} {w : π}

theorem of_init (h : (waitSystem k).init s) : WaitOk k s := by
  obtain ⟨h1, h2, h3⟩ := h
  refine ⟨⟨?_, by simp [h3]⟩, fun w _ => h2 w⟩
  rw [h3, ← h1]
  exact Ring.initList_nil _ _

/-- Links that a call leaves alone are still those of a waiter that is not queued. -/
theorem listEmpty_congr {L L' : Links (WaitNode κ π)} {z : WaitNode κ π}
    (h : L'.next z = L.next z ∧ L'.prev z = L.prev z) : L'.listEmpty z = L.listEmpty z := by
  simp only [Links.listEmpty, h.1, h.2]

/-- Adding a waiter to the empty queue. -/
theorem add (h : WaitOk k s) (hempty : s.arrived = []) :
    s.queue.addWaitQueue k w = .ok { s.queue with
      wait := Function.update s.queue.wait w { s.queue.wait w with waitQueue := k }
      link := s.queue.link.addList (.queue k) (.queue k) (.wait w) } ∧
    WaitOk k ⟨{ s.queue with
      wait := Function.update s.queue.wait w { s.queue.wait w with waitQueue := k }
      link := s.queue.link.addList (.queue k) (.queue k) (.wait w) }, [w]⟩ := by
  have hr := h.queued.ring
  rw [hempty, List.map_nil] at hr
  have hadd := addWaitQueue_eq (k := k) (h.unlinked w (by simp [hempty]))
  have hprev : s.queue.link.prev (.queue k) = .queue k := hr.prev_head
  rw [hprev] at hadd
  refine ⟨hadd, ⟨?_, by simp⟩, fun v hv => ?_⟩
  · exact (show Ring s.queue.link (.queue k) ([] ++ []) from hr).insert (by simp)
  · have hvw : v ≠ w := by simpa using hv
    refine (listEmpty_congr ?_).trans (h.unlinked v (by simp [hempty]))
    exact Ring.addList_of_notMem (show WaitNode.wait v ∉ WaitNode.queue k :: ([] ++ []) by simp)
      (show WaitNode.wait v ≠ .wait w by simpa using hvw)

/-- Deleting a waiter. -/
theorem del (h : WaitOk k s) (hw : w ∈ s.arrived) :
    ∃ t, s.queue.delWaitQueue k w = .ok t ∧ WaitOk k ⟨t, s.arrived.erase w⟩ := by
  obtain ⟨us, vs, hs⟩ := List.append_of_mem hw
  have hq := h.queued
  have hnodup := hq.nodup
  rw [hs] at hq hnodup
  rw [List.nodup_middle] at hnodup
  have hnot : w ∉ us := fun hm => (List.nodup_cons.1 hnodup).1 (List.mem_append_left _ hm)
  have herase : s.arrived.erase w = us ++ vs := by
    rw [hs, List.erase_append_right _ hnot, List.erase_cons_head]
  refine ⟨_, hq.delWaitQueue, ?_, fun v hv => ?_⟩
  · rw [herase]
    exact hq.remove
  · rw [herase] at hv
    by_cases hvw : v = w
    · subst hvw
      simp [Links.listEmpty, Links.initList]
    · have hr := hq.ring
      rw [List.map_append, List.map_cons] at hr
      have hz := hr.delList_of_notMem (z := .wait v) (by
        rw [← List.map_append, wait_mem]
        exact hv)
      have hv' : v ∉ s.arrived := by
        rw [hs]
        simp only [List.mem_append, List.mem_cons, not_or] at hv ⊢
        exact ⟨hv.1, hvw, hv.2⟩
      have := h.unlinked v hv'
      simpa [Links.listEmpty, Links.initList, hvw, hz.1, hz.2] using this

/-- A waiter that is added is put before the others. -/
theorem add_first (h : WaitOk k s)
    (hstep : (waitSystem k).step s (.add w) s') : s'.queue.waitQueueFirst k = some w := by
  obtain ⟨hw, hadd, -⟩ := hstep
  have hr := h.queued.ring
  rw [addWaitQueue_eq (h.unlinked w hw), Except.ok.injEq] at hadd
  have hne' : s.queue.link.prev (.queue k) ≠ .wait w := by
    rw [hr.prev_head]
    intro he
    have hm := getLastD_mem (WaitNode.queue k) (s.arrived.map .wait)
    rw [he] at hm
    exact hw (wait_mem.1 hm)
  unfold waitQueueFirst
  rw [← hadd]
  simp [Links.addList]

end WaitOk

/-- **Wait queues keep the order of arrival, as long as nobody is added while somebody waits.**
In every state of a run in which waiters are added to the empty queue only, the queue is a
circular list of exactly the waiters added and not deleted, in the order of their arrival, and
no call fails.  The first addition to a queue that is not empty breaks the order:
`add_wait_queue` passes the head of the queue and its last node to `add_list` in the wrong
order. -/
theorem wait_queue_in_order {k : κ} {s : WaitState κ π}
    (h : ((waitSystem k).guard AddsToEmpty).Reachable s) :
    InOrder s.queue k s.arrived ∧
      (∀ w, s.arrived = [] → ∃ t, s.queue.addWaitQueue k w = .ok t) ∧
      (∀ w ∈ s.arrived, ∃ t, s.queue.delWaitQueue k w = .ok t) ∧
      ∀ w s', s.arrived ≠ [] → (waitSystem k).step s (.add w) s' →
        ¬ InOrder s'.queue k s'.arrived := by
  have hok : WaitOk k s := by
    refine h.invariant (fun s hs => .of_init hs) ?_
    rintro s (w | w) s' hs ⟨hg, hw, hop, harr⟩
    · obtain ⟨h1, h2⟩ := hs.add (w := w) hg
      have hq : s'.queue = _ := Except.ok.inj (hop.symm.trans h1)
      rw [hg, List.nil_append] at harr
      rw [← hq, ← harr] at h2
      exact h2
    · obtain ⟨t, h1, h2⟩ := hs.del hw
      have hq : s'.queue = t := Except.ok.inj (hop.symm.trans h1)
      rw [← hq, ← harr] at h2
      exact h2
  refine ⟨hok.queued.inOrder, fun w he => ⟨_, (hok.add he).1⟩, fun w hw => ?_,
    fun w s' hne hstep hord => ?_⟩
  · obtain ⟨t, ht, -⟩ := hok.del hw
    exact ⟨t, ht⟩
  · -- the newest waiter would have to be the one that has waited longest
    obtain ⟨v, vs, hv⟩ := List.exists_cons_of_ne_nil hne
    have hfirst := hord.first
    rw [hok.add_first hstep, hstep.2.2, hv] at hfirst
    have hw : w = v := by simpa using hfirst
    exact hstep.1 (by simp [hv, hw])

/-- An empty queue, and waiters that are not in it. -/
def idleQueue : WaitState Unit ℕ where
  queue :=
    { value := fun _ => 0
      link := ⟨id, id⟩
      wait := fun w => ⟨w, 0, ()⟩
      pcb := fun _ => ⟨.sleeping, waitSem⟩
      blockedIn := fun _ => none }
  arrived := []

theorem idleQueue_init : (waitSystem ()).init idleQueue := by
  refine ⟨?_, fun w => by simp [idleQueue, Links.listEmpty], rfl⟩
  simp [idleQueue, Links.initList, Links.setNext, Links.setPrev]

/-- One waiter is added, deleted, and another one added. -/
theorem wait_queue_in_order_two : ∃ s : WaitState Unit ℕ,
    ((waitSystem ()).guard AddsToEmpty).Reachable s ∧ InOrder s.queue () [1] := by
  let A := (waitSystem (κ := Unit) (π := ℕ) ()).guard AddsToEmpty
  have h₀ : A.Run [] idleQueue := .start idleQueue_init
  have h₁ : A.Run [.add 0] ⟨_, [0]⟩ := h₀.step ⟨rfl, by simp [idleQueue], rfl, rfl⟩
  have h₂ : A.Run [.add 0, .del 0] ⟨_, []⟩ := h₁.step ⟨trivial, by simp, rfl, rfl⟩
  have h₃ : A.Run [.add 0, .del 0, .add 1] ⟨_, [1]⟩ := h₂.step ⟨rfl, by simp, rfl, rfl⟩
  exact ⟨_, ⟨_, h₃⟩, (wait_queue_in_order ⟨_, h₃⟩).1⟩

/-- Of three waiters that are added one after the other, the last one comes first. -/
theorem wait_queue_overtaken : ¬ ∀ s : WaitState Unit ℕ, (waitSystem ()).Reachable s →
    InOrder s.queue () s.arrived := by
  intro hclaim
  let A := waitSystem (κ := Unit) (π := ℕ) ()
  have h₁ : A.Run [.add 0] ⟨_, [0]⟩ :=
    (System.Run.start idleQueue_init).step ⟨by simp [idleQueue], rfl, rfl⟩
  have h₂ : A.Run [.add 0, .add 1] ⟨_, [0, 1]⟩ := h₁.step ⟨by simp, rfl, rfl⟩
  have h₃ : A.Run [.add 0, .add 1, .add 2] ⟨_, [0, 1, 2]⟩ := h₂.step ⟨by simp, rfl, rfl⟩
  have hfirst := (hclaim _ ⟨_, h₃⟩).first
  revert hfirst
  decide

end SemState

end GarretOS
