import GarretOS.Sync.Sem
import GarretOS.System.Basic

/-!
# Wait queues

`QueueOk s qs` says that the wait queue of each semaphore `k` is a well-formed list of processes
`qs k` that are blocked on it.  It is kept by all functions.  `add_wait_queue` passes the head of
the queue and its last node to `add_list` in the wrong order: after that only the new process and
the one that was last are linked, the others stay blocked and are never woken again.

* `Ring.insertFirst` : what `add_list` does between the head of a ring and its last node;
* `QueueOk.up`, `QueueOk.down`, `QueueOk.downResume` : the functions keep `QueueOk`.
-/

namespace GarretOS

/-- Inserting a node between the head of a ring and its last node, as if these were neighbours,
takes the nodes between them out of the ring. -/
theorem Ring.insertFirst {α : Type*} [DecidableEq α] {L : Links α} {h e : α} {xs : List α}
    (hr : Ring L h xs) (he : e ∉ h :: xs) :
    Ring (L.addList h (xs.getLastD h) e) h (e :: xs.getLast?.toList) := by
  obtain ⟨heh, hex⟩ : e ≠ h ∧ e ∉ xs := by simpa using he
  cases hl : xs.getLast? with
  | none =>
    obtain rfl : xs = [] := by simpa using hl
    have hr' : Ring L h ([] ++ []) := hr
    exact hr'.insert he
  | some z =>
    obtain ⟨ys, rfl⟩ : ∃ ys, xs = ys ++ [z] := List.getLast?_eq_some_iff.1 hl
    have hz : z ≠ h := hr.ne_head (by simp)
    have hez : e ≠ z := by
      rintro rfl
      exact hex (by simp)
    have hnext : L.next z = h := by
      have hr' : Ring L h (ys ++ z :: []) := hr
      simpa using hr'.next_mem
    have hprev : L.prev h = z := by simpa using hr.prev_head
    refine ⟨?_, by simp [heh.symm, hez, hz.symm]⟩
    simp [Links.Linked, Links.addList, heh.symm, hez.symm, hz, hz.symm, hnext, hprev]

namespace SemState

variable {κ π : Type}

theorem wait_mem {p : π} {ps : List π} {k : κ} :
    WaitNode.wait p ∈ (.queue k :: ps.map .wait : List (WaitNode κ π)) ↔ p ∈ ps := by
  simp

/-- The process `p` is blocked in `down` of the semaphore `k`. -/
def Blocked (s : SemState κ π) (p : π) (k : κ) : Prop :=
  s.blockedIn p = some k ∧ (s.pcb p).state = .sleeping

variable [DecidableEq κ] [DecidableEq π]

/-- The wait queue of each semaphore `k` links the processes `qs k`. -/
structure QueueOk (s : SemState κ π) (qs : κ → List π) : Prop where
  /-- The queues are well formed. -/
  ring : ∀ k, Ring s.link (.queue k) ((qs k).map .wait)
  /-- They link blocked processes only. -/
  blocked : ∀ k p, p ∈ qs k → s.Blocked p k
  /-- A blocked process waits for the semaphore. -/
  asleep : ∀ k p, s.Blocked p k → (s.pcb p).waitState = waitSem ∧ (s.wait p).proc = p ∧
    (s.wait p).waitQueue = k
  /-- A process inside `down` that is not blocked has been woken by `up`. -/
  woken : ∀ k p, s.blockedIn p = some k → ¬ s.Blocked p k →
    (s.wait p).wakeupState = waitSem ∧ s.link.listEmpty (.wait p)

theorem addWaitQueue_eq {s : SemState κ π} {k : κ} {p : π} (h : s.link.listEmpty (.wait p)) :
    s.addWaitQueue k p = .ok { s with
      wait := Function.update s.wait p { s.wait p with waitQueue := k }
      link := s.link.addList (.queue k) (s.link.prev (.queue k)) (.wait p) } := by
  rw [addWaitQueue, assert_of h]
  rfl

namespace QueueOk

variable {s s' : SemState κ π} {qs : κ → List π}

/-- A process is in one queue only. -/
theorem mem_unique (h : QueueOk s qs) {j k : κ} {p : π} (hj : p ∈ qs j) (hk : p ∈ qs k) :
    j = k := by
  have h1 := (h.blocked j p hj).1
  rw [(h.blocked k p hk).1] at h1
  exact (Option.some.inj h1).symm

/-- A queue is left alone by changes to the links of other nodes. -/
theorem ring_other {L : Links (WaitNode κ π)} (h : QueueOk s qs) {j k : κ} (hjk : j ≠ k) {p : π}
    (hp : p ∉ qs j) (hL : ∀ z, z ∉ WaitNode.queue k :: (qs k).map .wait → z ≠ .wait p →
      L.next z = s.link.next z ∧ L.prev z = s.link.prev z) :
    Ring L (.queue j) ((qs j).map .wait) := by
  have hz : ∀ z ∈ WaitNode.queue j :: (qs j).map .wait,
      z ∉ WaitNode.queue k :: (qs k).map .wait ∧ z ≠ .wait p := by
    intro z hz
    cases z with
    | queue i =>
      obtain rfl : i = j := by simpa using hz
      simp [hjk]
    | wait q =>
      rw [wait_mem] at hz
      rw [wait_mem]
      exact ⟨fun hk => hjk (h.mem_unique hz hk), fun he => hp (WaitNode.wait.inj he ▸ hz)⟩
  exact (h.ring j).congr (fun z hm => (hL z (hz z hm).1 (hz z hm).2).1)
    fun z hm => (hL z (hz z hm).1 (hz z hm).2).2

theorem waitQueueFirst_eq (h : QueueOk s qs) (k : κ) : s.waitQueueFirst k = (qs k).head? := by
  unfold waitQueueFirst
  rw [(h.ring k).next_head]
  cases qs k <;> rfl

/-- The queues depend only on the links, and on the processes inside `down`. -/
theorem congr (h : QueueOk s qs) (hlink : s'.link = s.link)
    (hin : s'.blockedIn = s.blockedIn)
    (hwait : ∀ p, s.blockedIn p ≠ none → s'.wait p = s.wait p)
    (hpcb : ∀ p, s.blockedIn p ≠ none → s'.pcb p = s.pcb p) : QueueOk s' qs := by
  have hsome : ∀ {k p}, s.blockedIn p = some k → s'.wait p = s.wait p ∧ s'.pcb p = s.pcb p := by
    intro k p hp
    have hne : s.blockedIn p ≠ none := by simp [hp]
    exact ⟨hwait p hne, hpcb p hne⟩
  have hblocked : ∀ k p, s'.Blocked p k ↔ s.Blocked p k := by
    intro k p
    rw [Blocked, Blocked, hin]
    exact and_congr_right fun hp => by rw [(hsome hp).2]
  refine ⟨fun k => hlink ▸ h.ring k, fun k p hp => (hblocked k p).2 (h.blocked k p hp),
    fun k p hp => ?_, fun k p hp hn => ?_⟩
  · have hb := (hblocked k p).1 hp
    rw [(hsome hb.1).1, (hsome hb.1).2]
    exact h.asleep k p hb
  · rw [hin] at hp
    rw [(hsome hp).1, hlink]
    exact h.woken k p hp fun hb => hn ((hblocked k p).2 hb)

/-- **`up`** with an empty queue increments the value. -/
theorem up_nil (h : QueueOk s qs) {k : κ} (hk : qs k = []) :
    s.up k = .ok ({ s with value := Function.update s.value k (i32 (s.value k + 1)) }, none) := by
  have hfirst := h.waitQueueFirst_eq k
  rw [hk, List.head?_nil] at hfirst
  simp only [SemState.up, hfirst]

/-- **`up`** with a queued process wakes the first one in the queue and takes it out. -/
theorem up (h : QueueOk s qs) {k : κ} {a : π} {ps : List π} (hk : qs k = a :: ps) :
    ∃ s', s.up k = .ok (s', some a) ∧ s'.value = s.value ∧ s'.blockedIn = s.blockedIn ∧
      s'.pcb = Function.update s.pcb a .running ∧ QueueOk s' (Function.update qs k ps) := by
  have ha : a ∈ qs k := by simp [hk]
  have hblocked := h.blocked k a ha
  obtain ⟨hws, hproc, hqueue⟩ := h.asleep k a hblocked
  have hr : Ring s.link (.queue k) ([] ++ WaitNode.wait a :: ps.map .wait) := by
    simpa [hk] using h.ring k
  have hne : s.link.listEmpty (.wait a) = false := hr.listEmpty_mem (by simp)
  have hnodup : a ∉ ps := by
    have hn := (h.ring k).nodup
    rw [hk, List.map_cons, List.nodup_cons, List.nodup_cons] at hn
    exact fun hm => hn.2.1 (List.mem_map_of_mem hm)
  let s' : SemState κ π := { s with
    link := (s.link.delList (.wait a)).initList (.wait a)
    wait := Function.update s.wait a { s.wait a with wakeupState := waitSem }
    pcb := Function.update s.pcb a .running }
  -- nobody is blocked or unblocked but `a`
  have hafter : ∀ j p, s'.Blocked p j ↔ s.Blocked p j ∧ p ≠ a := by
    intro j p
    by_cases hpa : p = a
    · simp [s', Blocked, hpa, RunState.running]
    · simp [s', Blocked, hpa]
  refine ⟨s', ?_, rfl, rfl, rfl,
    ⟨fun j => ?_, fun j p hp => ?_, fun j p hp => ?_, fun j p hp hn => ?_⟩⟩
  · -- `a` is the first of the queue, and both assertions of `up` hold
    have hfirst := h.waitQueueFirst_eq k
    rw [hk, List.head?_cons] at hfirst
    simp only [SemState.up, hfirst, hproc]
    rw [assert_of hws, ok_bind]
    simp only [wakeupWait, delWaitQueue, if_true]
    rw [assert_of ⟨by simp [hne], hqueue⟩]
    simp only [ok_bind, wakeupProc, Function.update_self, hproc, pure, Except.pure]
    rw [RunState.wakeup_sleeping hblocked.2]
    simp only [ok_bind, s', hproc]
  · -- the ring of `k` loses its first node, the other rings are not written
    by_cases hjk : j = k
    · subst hjk
      have hrem := hr.remove
      rw [List.nil_append] at hrem
      rw [Function.update_self]
      refine hrem.congr (fun z hz => ?_) fun z hz => ?_
      · have hza : z ≠ .wait a := by rintro rfl; exact hnodup (wait_mem.1 hz)
        simp [s', Links.initList, hza]
      · have hza : z ≠ .wait a := by rintro rfl; exact hnodup (wait_mem.1 hz)
        simp [s', Links.initList, hza]
    · rw [Function.update_of_ne hjk]
      refine h.ring_other hjk (fun hm => hjk (h.mem_unique hm ha)) fun z hz hza => ?_
      have hz' : z ∉ WaitNode.queue k :: ([] ++ ps.map .wait) := by
        rw [hk] at hz
        simp only [List.map_cons, List.mem_cons, not_or] at hz
        simpa using ⟨hz.1, by simpa using hz.2.2⟩
      obtain ⟨h1, h2⟩ := hr.delList_of_notMem hz'
      simp [s', Links.initList, hza, h1, h2]
  · rw [hafter]
    by_cases hjk : j = k
    · subst hjk
      rw [Function.update_self] at hp
      exact ⟨h.blocked j p (by rw [hk]; exact List.mem_cons_of_mem _ hp),
        fun he => hnodup (he ▸ hp)⟩
    · rw [Function.update_of_ne hjk] at hp
      refine ⟨h.blocked j p hp, ?_⟩
      rintro rfl
      exact hjk (h.mem_unique hp ha)
  · obtain ⟨hb, hpa⟩ := (hafter j p).1 hp
    simpa [s', hpa] using h.asleep j p hb
  · by_cases hpa : p = a
    · subst hpa
      simp [s', Links.listEmpty, Links.initList]
    · have hnb : ¬ s.Blocked p j := fun hb => hn ((hafter j p).2 ⟨hb, hpa⟩)
      obtain ⟨h2, h3⟩ := h.woken j p hp hnb
      -- a process woken before is on no ring, so its node keeps its links
      have hz : WaitNode.wait p ∉ WaitNode.queue k :: ([] ++ ps.map .wait) := by
        rw [List.nil_append, wait_mem]
        intro hm
        have hb := h.blocked k p (by rw [hk]; exact List.mem_cons_of_mem _ hm)
        exact hnb ⟨hp, hb.2⟩
      obtain ⟨h4, h5⟩ := hr.delList_of_notMem hz
      refine ⟨by simpa [s', hpa] using h2, ?_⟩
      simpa [s', Links.listEmpty, Links.initList, hpa, h4, h5] using h3

/-- **`down`** of a semaphore that cannot be taken blocks the calling process.  After that it is
linked with the process that was last in the queue, and with no other. -/
theorem down (h : QueueOk s qs) {k : κ} {p : π} (hp : s.blockedIn p = none)
    (hv : ¬ 0 < s.value k) :
    ∃ s', s.down p k = .ok (s', false) ∧ s'.value = s.value ∧
      s'.blockedIn = Function.update s.blockedIn p (some k) ∧
      s'.pcb = Function.update s.pcb p ⟨.sleeping, waitSem⟩ ∧
      QueueOk s' (Function.update qs k (p :: (qs k).getLast?.toList)) := by
  have hnp : ∀ j, p ∉ qs j := by
    intro j hm
    have := (h.blocked j p hm).1
    rw [hp] at this
    cases this
  have hr : Ring (s.link.initList (.wait p)) (.queue k) ((qs k).map .wait) := by
    refine (h.ring k).congr (fun z hz => ?_) fun z hz => ?_
    · have hzp : z ≠ .wait p := by rintro rfl; exact hnp k (wait_mem.1 hz)
      simp [Links.initList, hzp]
    · have hzp : z ≠ .wait p := by rintro rfl; exact hnp k (wait_mem.1 hz)
      simp [Links.initList, hzp]
  have hfresh : WaitNode.wait p ∉ WaitNode.queue k :: (qs k).map .wait := by
    rw [wait_mem]
    exact hnp k
  let s' : SemState κ π := { s with
    link := (s.link.initList (.wait p)).addList (.queue k) (((qs k).map .wait).getLastD (.queue k))
      (.wait p)
    wait := Function.update s.wait p ⟨p, waitInt, k⟩
    pcb := Function.update s.pcb p ⟨.sleeping, waitSem⟩
    blockedIn := Function.update s.blockedIn p (some k) }
  have hafter : ∀ j q, s'.Blocked q j ↔ s.Blocked q j ∨ q = p ∧ j = k := by
    intro j q
    by_cases hqp : q = p
    · subst hqp
      simp [s', Blocked, hp, eq_comm]
    · simp [s', Blocked, hqp]
  -- only the links of `p`, of the head and of the last node change
  have hlink : ∀ z, z ∉ WaitNode.queue k :: (qs k).map .wait → z ≠ .wait p →
      s'.link.next z = s.link.next z ∧ s'.link.prev z = s.link.prev z := by
    intro z hz hzp
    have hzh : z ≠ .queue k := fun he => hz (he ▸ List.mem_cons_self)
    have hzl : z ≠ ((qs k).map .wait).getLastD (.queue k) :=
      fun he => hz (he ▸ getLastD_mem _ _)
    simp only [s', Links.addList, Links.initList, Links.setPrev_prev, Links.setNext_prev,
      Links.setNext_next, Links.setPrev_next, if_neg hzp, if_neg hzh, if_neg hzl, and_self]
  refine ⟨s', ?_, rfl, rfl, rfl,
    ⟨fun j => ?_, fun j q hq => ?_, fun j q hq => ?_, fun j q hq hn => ?_⟩⟩
  · have hself : (s.link.initList (.wait p)).listEmpty (.wait p) := by
      simp [Links.listEmpty, Links.initList]
    unfold SemState.down
    rw [if_neg hv, addCurrWait, addWaitQueue_eq hself]
    simp only [ok_bind, initWait, hr.prev_head, pure, Except.pure, Function.update_self,
      Function.update_idem, s']
  · by_cases hjk : j = k
    · subst hjk
      rw [Function.update_self, List.map_cons]
      have hlast : ((qs j).getLast?.toList).map WaitNode.wait =
          ((qs j).map (WaitNode.wait (κ := κ))).getLast?.toList := by
        rw [List.getLast?_map]
        cases (qs j).getLast? <;> rfl
      rw [hlast]
      exact hr.insertFirst hfresh
    · rw [Function.update_of_ne hjk]
      exact h.ring_other hjk (hnp j) hlink
  · rw [hafter]
    by_cases hjk : j = k
    · subst hjk
      rw [Function.update_self, List.mem_cons, Option.mem_toList] at hq
      rcases hq with rfl | hq
      · exact Or.inr ⟨rfl, rfl⟩
      · exact Or.inl (h.blocked j q (List.mem_of_getLast? hq))
    · rw [Function.update_of_ne hjk] at hq
      exact Or.inl (h.blocked j q hq)
  · rcases (hafter j q).1 hq with hb | ⟨rfl, rfl⟩
    · have hqp : q ≠ p := by
        rintro rfl
        have := hb.1
        rw [hp] at this
        cases this
      simpa [s', hqp] using h.asleep j q hb
    · simp [s']
  · have hqp : q ≠ p := by
      rintro rfl
      obtain rfl : k = j := by simpa [s'] using hq
      exact hn ((hafter k q).2 (Or.inr ⟨rfl, rfl⟩))
    have hq' : s.blockedIn q = some j := by simpa [s', hqp] using hq
    have hnb : ¬ s.Blocked q j := fun hb => hn ((hafter j q).2 (Or.inl hb))
    obtain ⟨h2, h3⟩ := h.woken j q hq' hnb
    have hz : WaitNode.wait q ∉ WaitNode.queue k :: (qs k).map .wait := by
      rw [wait_mem]
      exact fun hm => hnb ⟨hq', (h.blocked k q hm).2⟩
    obtain ⟨h4, h5⟩ := hlink (.wait q) hz (by simpa using hqp)
    refine ⟨by simpa [s', hqp] using h2, ?_⟩
    simp only [Links.listEmpty, h4, h5]
    exact h3

/-- A process that has been woken leaves `down`. -/
theorem downResume (h : QueueOk s qs) {k : κ} {p : π} (hp : s.blockedIn p = some k)
    (hrun : (s.pcb p).state = .runnable) :
    s.downResume p k = .ok { s with blockedIn := Function.update s.blockedIn p none } ∧
      QueueOk { s with blockedIn := Function.update s.blockedIn p none } qs := by
  have hnb : ¬ s.Blocked p k := fun hb => by rw [hb.2] at hrun; cases hrun
  obtain ⟨hws, hempty⟩ := h.woken k p hp hnb
  have hafter : ∀ j q, ({ s with blockedIn := Function.update s.blockedIn p none } :
      SemState κ π).Blocked q j ↔ s.Blocked q j := by
    intro j q
    by_cases hqp : q = p
    · subst hqp
      simp [Blocked, hrun]
    · simp [Blocked, hqp]
  refine ⟨?_, h.ring, fun j q hq => (hafter j q).2 (h.blocked j q hq),
    fun j q hq => h.asleep j q ((hafter j q).1 hq), fun j q hq hn => ?_⟩
  · simp only [SemState.downResume, delCurrWait, hempty, not_true_eq_false, if_false, ok_bind]
    rw [assert_of hws]
    rfl
  · have hqp : q ≠ p := by
      rintro rfl
      simp at hq
    exact h.woken j q (by simpa [hqp] using hq) fun hb => hn ((hafter j q).2 hb)

/-- The semaphores that have just been initialised. -/
theorem of_init (hinit : ∀ k, s.link.initList (.queue k) = s.link)
    (hin : ∀ p, s.blockedIn p = none) : QueueOk s fun _ => [] := by
  refine ⟨fun k => ?_, fun k p hp => absurd hp List.not_mem_nil, fun k p hb => ?_,
    fun k p hp => ?_⟩
  · rw [← hinit k]
    exact Ring.initList_nil _ _
  · have := hb.1
    rw [hin] at this
    cases this
  · rw [hin] at hp
    cases hp

end QueueOk

end SemState

end GarretOS
