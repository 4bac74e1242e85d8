import GarretOS.Sync.PhiCond

/-!
# The token among the philosophers

`CondOk s qs t` extends the invariant of the monitor, whose token is at `t`, to the program of the
philosophers.  A signal is given only to a philosopher whose flag has just been set to `EATING`, so
a philosopher that has the token of its condition may eat; and while a philosopher is inside
`signal_cond`, the token goes to the one that is woken and from there back to it (`HandedOn`), so
nobody else enters before the second neighbour has been looked at.

`CondOk.move` and `CondOk.changeFlag` say what a step has to show to keep this.
-/

namespace GarretOS

open SemState MonitorState

/-- The state of a monitor determines where its token is. -/
theorem MonitorState.MonitorOk.token_unique {n : ℕ} {π δ : Type} [DecidableEq π]
    {s : MonitorState n π δ} {qs qs' : MonitorSem n → List π} {t t' : Token n π}
    (h : MonitorOk s qs t) (h' : MonitorOk s qs' t') : t = t' := by
  cases t with
  | sem k =>
    have hv := h.value k
    rw [if_pos rfl, h'.value] at hv
    by_contra hne
    rw [if_neg (Ne.symm hne)] at hv
    cases hv
  | proc p => exact ((h'.holds p).1 ((h.holds p).2 rfl)).symm

theorem Monitor.down_count {n : ℕ} {π : Type} [DecidableEq π] {m m' : Monitor n π} {p : π}
    {k : MonitorSem n} {granted : Bool} (h : m.down p k = .ok (m', granted)) :
    m'.count = m.count := by
  obtain ⟨⟨sem, g⟩, -, hm⟩ := bind_eq_ok.1 h
  rw [← (Prod.mk.inj (Except.ok.inj hm)).1]

theorem Monitor.downResume_count {n : ℕ} {π : Type} [DecidableEq π] {m m' : Monitor n π} {p : π}
    {k : MonitorSem n} (h : m.downResume p k = .ok m') : m'.count = m.count := by
  obtain ⟨sem, -, hm⟩ := bind_eq_ok.1 h
  rw [← Except.ok.inj hm]

theorem Monitor.signalCondUp_count {n : ℕ} {π : Type} [DecidableEq π] {m m' : Monitor n π}
    {i : Fin n} {w : Option π} (h : m.signalCondUp i = .ok (m', w)) :
    m'.count = m.count ∧ m.sem.up (.cond i) = .ok (m'.sem, w) := by
  obtain ⟨⟨sem, v⟩, hup, hm⟩ := bind_eq_ok.1 h
  obtain ⟨rfl, rfl⟩ := Prod.mk.inj (Except.ok.inj hm)
  exact ⟨rfl, hup⟩

theorem Monitor.release_count {n : ℕ} {π : Type} [DecidableEq π] {m m' : Monitor n π}
    {w : Option π} (h : m.release = .ok (m', w)) : m'.count = m.count := by
  obtain ⟨⟨sem, v⟩, -, hm⟩ := bind_eq_ok.1 h
  rw [← (Prod.mk.inj (Except.ok.inj hm)).1]

/-- Nobody waits for a condition of a new monitor. -/
theorem Monitor.initMonitor_count {n : ℕ} {π : Type} [DecidableEq π] {m m' : Monitor n π}
    (h : m.initMonitor = .ok m') (i : Fin n) : m'.count i = 0 := by
  have hloop : ∀ (l : List (Fin n)) (m : Monitor n π), i ∈ l ∨ m.count i = 0 →
      (l.foldl Monitor.initCond m).count i = 0 := by
    intro l
    induction l with
    | nil => simp
    | cons j l ih =>
      intro m hm
      refine ih _ ?_
      by_cases hij : i = j
      · exact Or.inr (by rw [hij]; exact Function.update_self _ _ _)
      · rcases hm with hm | hm
        · exact Or.inl ((List.mem_cons.1 hm).resolve_left hij)
        · exact Or.inr ((Function.update_of_ne hij _ _).trans hm)
  obtain ⟨_, -, hm⟩ := bind_eq_ok.1 h
  rw [← Except.ok.inj hm]
  exact hloop _ _ (Or.inl (List.mem_finRange i))

/-- Between the increment and the decrement of `count` in `wait_cond`. -/
def MonitorPos.waits {n : ℕ} : MonitorPos n → Bool
  | leaving _ | left _ | waiting _ | awake _ => true
  | _ => false

namespace CondPos

/-- Where a philosopher may be with respect to the monitor. -/
def At (p : Phi) : CondPos → MonitorPos numPhi → Prop
  | thinking, x | eating, x => x = .outside
  | take, x | put, x => x = .entering ∨ x = .inside
  | takeSignal, x | takeCheck, x | signalLeft, x | signalRight, x => x = .inside
  | takeDone, x => x = .leaving p ∨ x = .left p ∨ x = .waiting p ∨ x = .awake p ∨ x = .inside
  | putRight, x => x = .inside ∨ x = .notifying p.left ∨ x = .notified ∨ x = .suspended ∨
      x = .resumed
  | putDone, x => x = .inside ∨ x = .notifying p.right ∨ x = .notified ∨ x = .suspended ∨
      x = .resumed

/-- The values of the flag. -/
def Allows : CondPos → MonitorPos numPhi → Appetite → Prop
  | takeSignal, _, a | eating, _, a | put, _, a => a = .eating
  | takeCheck, _, a => a ≠ .thinking
  | takeDone, x, a => a ≠ .thinking ∧ (x = .inside → a = .eating)
  | _, _, a => a = .thinking

/-- The right neighbour still has to be tested. -/
def owes : CondPos → Bool
  | signalLeft | putRight => true
  | _ => false

/-- From the end of `phi_take_forks_cond` up to the assignment of `THINKING`. -/
def eats : CondPos → Bool
  | eating | put => true
  | _ => false

end CondPos

namespace CondState

variable {s s' : CondState} {p q i : Phi} {x : CondPos} {y : MonitorPos numPhi}
  {qs qs' : MonitorSem numPhi → List Phi} {t t' : Token numPhi Phi} {op : MonitorOp numPhi Phi}

/-- A philosopher at `x` and `y` is about to signal the philosopher `i`. -/
def Announces (p : Phi) (x : CondPos) (y : MonitorPos numPhi) (i : Phi) : Prop :=
  y = .notifying i ∨ x = .signalLeft ∧ i = p.left ∨ x = .signalRight ∧ i = p.right

/-- The token is on its way from a philosopher in `signal_cond` to the one that it has signalled,
and back. -/
def HandedOn (s : CondState) : Token numPhi Phi → Prop
  | .sem k => k ≠ .mutex
  | .proc w => (s.pos w).signalling ∨
      s.prog w = .takeDone ∧ (s.pos w = .waiting w ∨ s.pos w = .awake w ∨ s.pos w = .inside)

/-- The philosophers that still have to be tested. -/
def pending (s : CondState) : Set Phi := {q | (s.prog q.left).owes}

/-- The philosophers between two steps: the wait queues are `qs`, and the token is at `t`. -/
structure CondOk (s : CondState) (qs : MonitorSem numPhi → List Phi) (t : Token numPhi Phi) :
    Prop where
  mon : MonitorOk s.mon qs t
  cnt : CountOk s.mon
  /-- The program and the monitor agree where a philosopher is. -/
  place : ∀ p, (s.prog p).At p (s.pos p)
  /-- Only the philosopher itself waits for its condition. -/
  count : ∀ i, s.mon.mon.count i = if (s.pos i).waits then 1 else 0
  /-- The flags. -/
  flag : ∀ p, (s.prog p).Allows (s.pos p) (s.flag p)
  /-- Who is signalled, or has the token of its condition, may eat. -/
  announce : ∀ p i, Announces p (s.prog p) (s.pos p) i → s.flag i = .eating
  forCond : ∀ i, s.mon.ForCond t i → s.flag i = .eating
  /-- Who may eat and still waits has been signalled, or will be. -/
  woken : ∀ i, (s.pos i).waits → s.flag i = .eating →
    s.mon.ForCond t i ∨ ∃ p, Announces p (s.prog p) (s.pos p) i
  /-- One philosopher at most is in `signal_cond`, and then the token comes back to it. -/
  unique : ∀ p q, (s.pos p).signalling → (s.pos q).signalling → p = q
  handedOn : ∀ p, (s.pos p).signalling → s.HandedOn t
  apart : phiTable.Apart s.flag
  served : phiTable.Served s.flag s.pending

/-- The philosopher with the token is the only one that executes code of the monitor. -/
theorem CondOk.token (h : CondOk s qs t) (hp : (s.pos p).active) : t = .proc p :=
  (h.mon.holds p).1 (Or.inl hp)

/-- Who signals executes code of the monitor. -/
theorem Announces.active (h : Announces p x y i) (hplace : x.At p y) : y.active := by
  rcases h with rfl | ⟨rfl, -⟩ | ⟨rfl, -⟩
  · rfl
  · rw [show y = .inside from hplace]
    rfl
  · rw [show y = .inside from hplace]
    rfl

/-- While a philosopher that signals nobody has the token, nobody waits without reason. -/
theorem CondOk.none_woken (h : CondOk s qs t) (ht : t = .proc p)
    (hp : ∀ i, s.pos p ≠ .waiting i ∧ s.pos p ≠ .awake i)
    (hann : ∀ i, ¬ Announces p (s.prog p) (s.pos p) i) (q : Phi) (hq : (s.pos q).waits) :
    s.flag q ≠ .eating := by
  intro heat
  subst ht
  rcases h.woken q hq heat with hfor | ⟨r, hr⟩
  · rcases hfor with hfor | ⟨r, hr, hpos⟩
    · cases hfor
    · obtain rfl := Token.proc.inj hr
      exact hpos.elim (hp q).1 (hp q).2
  · obtain rfl := Token.proc.inj (h.token (hr.active (h.place r)))
    exact hann q hr

/-- A step of the philosopher `p` that does not change the flags. -/
theorem CondOk.move (h : CondOk s qs t) (hmon : MonitorOk s'.mon qs' t') (hcnt : CountOk s'.mon)
    (hsig : Signals s.mon s'.mon op t t') (hflag : s'.flag = s.flag)
    (hpos : s'.pos = Function.update s.pos p y) (hprog : s'.prog = Function.update s.prog p x)
    (hcount : ∀ i, s'.mon.mon.count i = if (s'.pos i).waits then 1 else 0)
    (hplace : x.At p y) (hallow : x.Allows y (s.flag p))
    (hann : ∀ i, Announces p x y i → s.flag i = .eating)
    (hnotify : ∀ q i w, op = .notify q i w → s.pos q = .notifying i)
    (hunique : y.signalling → (s.pos p).signalling ∨ ∀ q, ¬ (s.pos q).signalling)
    (hhanded : ∀ q, (s'.pos q).signalling → s'.HandedOn t')
    (howes : (s.prog p).owes → x.owes)
    (hwoken : ∀ q, (s'.pos q).waits → s.flag q = .eating →
      s'.mon.ForCond t' q ∨ ∃ r, Announces r (s'.prog r) (s'.pos r) q) : CondOk s' qs' t' := by
  have hself : s'.pos p = y ∧ s'.prog p = x := by rw [hpos, hprog]; simp
  have hother : ∀ q, q ≠ p → s'.pos q = s.pos q ∧ s'.prog q = s.prog q := by
    intro q hq
    rw [hpos, hprog, Function.update_of_ne hq, Function.update_of_ne hq]
    exact ⟨rfl, rfl⟩
  refine ⟨hmon, hcnt, fun q => ?_, hcount, fun q => ?_, fun q i hq => ?_, fun i hi => ?_,
    fun q hq hq' => hwoken q hq (by rwa [hflag] at hq'), fun q r hq hr => ?_, hhanded,
    by rw [hflag]; exact h.apart, ?_⟩
  · by_cases hq : q = p
    · subst hq
      rw [hself.1, hself.2]
      exact hplace
    · rw [(hother q hq).1, (hother q hq).2]
      exact h.place q
  · rw [hflag]
    by_cases hq : q = p
    · subst hq
      rw [hself.1, hself.2]
      exact hallow
    · rw [(hother q hq).1, (hother q hq).2]
      exact h.flag q
  · rw [hflag]
    by_cases hqp : q = p
    · subst hqp
      rw [hself.1, hself.2] at hq
      exact hann i hq
    · rw [(hother q hqp).1, (hother q hqp).2] at hq
      exact h.announce q i hq
  · rw [hflag]
    obtain ⟨-, ⟨q, w, hop⟩ | ⟨-, hfor⟩⟩ := hsig i hi
    · exact h.announce q i (Or.inl (hnotify q i w hop))
    · exact h.forCond i hfor
  · by_cases hqp : q = p
    · by_cases hrp : r = p
      · rw [hqp, hrp]
      · rw [hqp, hself.1] at hq
        rw [(hother r hrp).1] at hr
        rcases hunique hq with hs | hno
        · rw [hqp]
          exact h.unique p r hs hr
        · exact absurd hr (hno r)
    · rw [(hother q hqp).1] at hq
      by_cases hrp : r = p
      · rw [hrp, hself.1] at hr
        rcases hunique hr with hs | hno
        · rw [hrp]
          exact h.unique q p hq hs
        · exact absurd hq (hno q)
      · rw [(hother r hrp).1] at hr
        exact h.unique q r hq hr
  · rw [hflag]
    refine h.served.mono fun q hq => ?_
    have hq : (s.prog q.left).owes := hq
    show (s'.prog q.left).owes
    by_cases hqp : q.left = p
    · rw [hqp, hself.2]
      rw [hqp] at hq
      exact howes hq
    · rw [(hother _ hqp).2]
      exact hq

/-! ### The token while a signal is on its way -/

/-- The token is not with a philosopher that moves. -/
theorem HandedOn.keep (h : s.HandedOn t) (hne : t ≠ .proc p)
    (hpos : s'.pos = Function.update s.pos p y) (hprog : s'.prog = Function.update s.prog p x) :
    s'.HandedOn t := by
  cases t with
  | sem k => exact h
  | proc w =>
    have hw : w ≠ p := fun he => hne (by rw [he])
    show (s'.pos w).signalling ∨ _
    rw [hpos, hprog, Function.update_of_ne hw, Function.update_of_ne hw]
    exact h

/-- While a philosopher that is not in `signal_cond` has the token inside the monitor, nobody is in
`signal_cond`, unless it has just been woken by a signal. -/
theorem CondOk.none_signalling (h : CondOk s qs t) (ht : t = .proc p)
    (hp : (s.pos p).signalling = false)
    (hrec : s.prog p ≠ .takeDone ∨ (s.pos p ≠ .waiting p ∧ s.pos p ≠ .awake p ∧ s.pos p ≠ .inside))
    (q : Phi) : ¬ (s.pos q).signalling := by
  intro hq
  have hh := h.handedOn q hq
  subst ht
  rcases hh with hh | ⟨hprog, hpos⟩
  · rw [hp] at hh
    cases hh
  · rcases hrec with hrec | ⟨h1, h2, h3⟩
    · exact hrec hprog
    · rcases hpos with hpos | hpos | hpos
      · exact h1 hpos
      · exact h2 hpos
      · exact h3 hpos

/-- The philosophers in `signal_cond` after a move out of it or elsewhere. -/
theorem signalling_of_move (hpos : s'.pos = Function.update s.pos p y)
    (hy : y.signalling → (s.pos p).signalling) (hq : (s'.pos q).signalling) :
    (s.pos q).signalling := by
  rw [hpos] at hq
  by_cases hqp : q = p
  · rw [hqp, Function.update_self] at hq
    rw [hqp]
    exact hy hq
  · rwa [Function.update_of_ne hqp] at hq

/-- Those who wait after a move that does not begin a wait without reason. -/
theorem not_waits_of_move {P : Prop} (hnone : ∀ q, (s.pos q).waits → s.flag q ≠ .eating)
    (hpos : s'.pos = Function.update s.pos p y) (hy : y.waits → s.flag p ≠ .eating) (q : Phi)
    (hq : (s'.pos q).waits) (heat : s.flag q = .eating) : P := by
  rw [hpos] at hq
  by_cases hqp : q = p
  · rw [hqp, Function.update_self] at hq
    rw [hqp] at heat
    exact absurd heat (hy hq)
  · rw [Function.update_of_ne hqp] at hq
    exact absurd heat (hnone q hq)

/-- A move without the token. -/
theorem CondOk.woken_keep (h : CondOk s qs t) (ht : t ≠ .proc p)
    (hpos : s'.pos = Function.update s.pos p y) (hprog : s'.prog = Function.update s.prog p x)
    (hy : y.waits = (s.pos p).waits) (q : Phi) (hq : (s'.pos q).waits)
    (heat : s.flag q = .eating) :
    s'.mon.ForCond t q ∨ ∃ r, Announces r (s'.prog r) (s'.pos r) q := by
  have hq' : (s.pos q).waits := by
    rw [hpos] at hq
    by_cases hqp : q = p
    · rw [hqp, Function.update_self, hy] at hq
      rwa [hqp]
    · rwa [Function.update_of_ne hqp] at hq
  rcases h.woken q hq' heat with hfor | ⟨r, hr⟩
  · refine Or.inl (hfor.imp id ?_)
    rintro ⟨r, rfl, hr⟩
    have hrp : r ≠ p := fun he => ht (by rw [he])
    refine ⟨r, rfl, ?_⟩
    show s'.pos r = _ ∨ s'.pos r = _
    rw [hpos, Function.update_of_ne hrp]
    exact hr
  · have hrp : r ≠ p := by
      rintro rfl
      exact ht (h.token (hr.active (h.place r)))
    refine Or.inr ⟨r, ?_⟩
    rw [hpos, hprog, Function.update_of_ne hrp, Function.update_of_ne hrp]
    exact hr

/-- The counters after a move that does not begin or end a wait. -/
theorem CondOk.count_same (h : CondOk s qs t) (hm : s'.mon.mon.count = s.mon.mon.count)
    (hpos : s'.pos = Function.update s.pos p y) (hy : y.waits = (s.pos p).waits) (i : Phi) :
    s'.mon.mon.count i = if (s'.pos i).waits then 1 else 0 := by
  rw [hm, h.count, hpos]
  by_cases hi : i = p
  · rw [hi, Function.update_self, hy]
  · rw [Function.update_of_ne hi]

/-- What a move of the monitor does to the philosopher. -/
theorem goto_fields {m : Monitor numPhi Phi} (h : s'.mon = s.mon.goto m p y) :
    s'.flag = s.flag ∧ s'.pos = Function.update s.pos p y := by
  rw [CondState.flag, CondState.pos, h]
  exact ⟨rfl, rfl⟩

/-- Only a philosopher at the end of `phi_take_forks_cond` waits. -/
theorem At.of_waits (h : x.At p y) (hy : y.waits) : x = .takeDone ∧
    (y = .leaving p ∨ y = .left p ∨ y = .waiting p ∨ y = .awake p) := by
  cases x <;> simp only [CondPos.At] at h
  all_goals first
    | (subst h; cases hy)
    | skip
  case takeDone =>
    rcases h with h | h | h | h | rfl
    · exact ⟨rfl, Or.inl h⟩
    · exact ⟨rfl, Or.inr (Or.inl h)⟩
    · exact ⟨rfl, Or.inr (Or.inr (Or.inl h))⟩
    · exact ⟨rfl, Or.inr (Or.inr (Or.inr h))⟩
    · cases hy
  all_goals
    rcases h with rfl | rfl | rfl | rfl | rfl <;> cases hy

/-- Inside `signal_cond` a philosopher has stopped to eat. -/
theorem At.of_signalling (h : x.At p y) (hy : y.signalling) : x = .putRight ∨ x = .putDone := by
  cases x <;> simp only [CondPos.At] at h
  case putRight => exact Or.inl rfl
  case putDone => exact Or.inr rfl
  case takeDone => rcases h with rfl | rfl | rfl | rfl | rfl <;> cases hy
  case take | put => rcases h with rfl | rfl <;> cases hy
  all_goals
    subst h
    cases hy

/-! ### The flags -/

/-- `phi_test_cond` is an attempt to eat. -/
theorem phiTestCond_eq (flag : PhiFlags) (phi : Phi) :
    phiTestCond flag phi = (phiTable.tryEat flag phi, decide (phiTable.CanEat flag phi)) := by
  unfold phiTestCond Neighbours.tryEat
  split_ifs with h <;> simp [h]

/-- A hungry philosopher may be at a place where it eats already. -/
theorem Allows.tryEat {flag : PhiFlags} (h : x.Allows y (flag q)) :
    x.Allows y (phiTable.tryEat flag i q) := by
  unfold Neighbours.tryEat
  split_ifs with hcan
  · by_cases hq : q = i
    · subst hq
      rw [hcan.1] at h
      rw [Function.update_self]
      cases x <;> simp_all [CondPos.Allows]
    · rwa [Function.update_of_ne hq]
  · exact h

/-- A step of a philosopher inside the monitor that changes the flags. -/
theorem CondOk.changeFlag (h : CondOk s qs t) {flag : PhiFlags} (hp : s.pos p = .inside)
    (hne : s.prog p ≠ .takeDone) (hmon : s'.mon = { s.mon with data := flag })
    (hprog : s'.prog = Function.update s.prog p x) (hplace : x.At p .inside)
    (hallow : x.Allows .inside (flag p))
    (hother : ∀ q, q ≠ p → (s.prog q).Allows (s.pos q) (s.flag q) →
      (s.prog q).Allows (s.pos q) (flag q))
    (hann : ∀ i, Announces p x .inside i → flag i = .eating)
    (hwoken : ∀ i, (s.pos i).waits → flag i = .eating → Announces p x .inside i)
    (hapart : phiTable.Apart flag)
    (hserved : phiTable.Served flag s'.pending) : CondOk s' qs t := by
  have hact : (s.pos p).active := by rw [hp]; rfl
  have ht := h.token hact
  have hnone := h.none_signalling ht (by rw [hp]; rfl) (Or.inl hne)
  have hpos : s'.pos = s.pos := by rw [CondState.pos, hmon]; rfl
  have hflag : s'.flag = flag := by rw [CondState.flag, hmon]
  have hself : s'.prog p = x := by rw [hprog, Function.update_self]
  have hrest : ∀ q, q ≠ p → s'.prog q = s.prog q := by
    intro q hq
    rw [hprog, Function.update_of_ne hq]
  refine ⟨?_, ?_, fun q => ?_, fun j => ?_, fun q => ?_, fun q j hq => ?_, fun j hj => ?_,
    fun j hj heat => Or.inr ⟨p, ?_⟩, fun q r hq => ?_, fun q hq => ?_, by rwa [hflag],
    by rwa [hflag]⟩
  · rw [hmon]
    exact ⟨h.mon.queue, h.mon.blockedIn, h.mon.runnable, h.mon.value, h.mon.holds⟩
  · rw [hmon]
    exact ⟨h.cnt.finite, h.cnt.nextCount⟩
  · rw [hpos]
    by_cases hq : q = p
    · rw [hq, hself, hp]
      exact hplace
    · rw [hrest q hq]
      exact h.place q
  · rw [hpos, hmon]
    exact h.count j
  · rw [hpos, hflag]
    by_cases hq : q = p
    · rw [hq, hself, hp]
      exact hallow
    · rw [hrest q hq]
      exact hother q hq (h.flag q)
  · rw [hflag]
    rw [hpos] at hq
    by_cases hqp : q = p
    · rw [hqp, hself, hp] at hq
      exact hann j hq
    · -- somebody who signals would have the token
      rw [hrest q hqp] at hq
      have hq' := hq.active (h.place q)
      have := h.token hq'
      rw [ht] at this
      exact absurd (Token.proc.inj this).symm hqp
  · -- the token is with `p`, which waits for no condition
    exfalso
    subst ht
    rcases hj with hj | ⟨w, hw, hj⟩
    · cases hj
    · obtain rfl := Token.proc.inj hw
      have hj : s'.pos p = .waiting j ∨ s'.pos p = .awake j := hj
      rw [hpos, hp] at hj
      rcases hj with hj | hj <;> cases hj
  · rw [hself, hpos, hp]
    rw [hpos] at hj
    rw [hflag] at heat
    exact hwoken j hj heat
  · rw [hpos] at hq
    exact absurd hq (hnone q)
  · rw [hpos] at hq
    exact absurd hq (hnone q)

theorem right_mem_pending : p.right ∈ s.pending ↔ (s.prog p).owes := by
  show (s.prog (p.right).left).owes ↔ _
  rw [show (p.right).left = p from phiTable.left_right p]

/-- A step of `p` concerns its right neighbour only. -/
theorem mem_pending_of_ne (hprog : s'.prog = Function.update s.prog p x) (hq : q ≠ p.right) :
    q ∈ s'.pending ↔ q ∈ s.pending := by
  have hl : q.left ≠ p := fun he => hq (by rw [← he]; exact (phiTable.right_left q).symm)
  show (s'.prog q.left).owes ↔ (s.prog q.left).owes
  rw [hprog, Function.update_of_ne hl]

end CondState

end GarretOS
