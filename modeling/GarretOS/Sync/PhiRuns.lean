import GarretOS.Sync.PhiSeats
import Mathlib.Algebra.BigOperators.Group.Finset.Basic
import Mathlib.Algebra.Order.BigOperators.Group.Finset

/-!
# The philosophers eat

* `PhiOk.exec` : a step of a philosopher succeeds, keeps `PhiOk`, and gets it on in its round;
* `phi_exclusive` : in every interleaving one philosopher at most is in the critical section, and no
  two neighbours eat;
* `phi_completes` : without preemption no philosopher ever waits for the mutex, nobody is left
  hungry, and after finitely many steps all have finished.
-/

namespace GarretOS

open SemState

/-- How far a position is from the end of a round. -/
def PhiPos.rank : PhiPos → ℕ
  | .thinking => 17
  | .dozing => 15
  | .taking => 14
  | .takeWait => 13
  | .claiming => 12
  | .claimed => 11
  | .sitting => 10
  | .sitWait => 9
  | .eating => 8
  | .digesting => 6
  | .putting => 5
  | .putWait => 4
  | .leaving => 3
  | .testing => 2
  | .left => 1
  | .quit => 0

namespace PhiState

variable {s s' : PhiState} {p q : Phi} {x y : PhiPos} {a : Appetite} {qs qs' : PhiSem → List Phi}
  {t : Option Phi}

/-! ### Steps -/

/-- A bound for the steps that a philosopher still takes. -/
def remaining (s : PhiState) (p : Phi) : ℕ :=
  17 * (phiTimes - 1 - s.iter p) + (s.pos p).rank +
    if (s.pos p).dozes ∧ (s.sem.pcb p).state = .sleeping then 1 else 0

/-- A philosopher ends after `TIMES` rounds. -/
def RoundOk (s : PhiState) (p : Phi) : Prop :=
  if s.pos p = .quit then s.iter p = phiTimes else s.iter p < phiTimes

/-- What a step of the philosopher `p` leaves as it is, and that it gets on. -/
structure Stepped (s s' : PhiState) (p : Phi) : Prop where
  pos : ∀ q, q ≠ p → s'.pos q = s.pos q
  iter : ∀ q, q ≠ p → s'.iter q = s.iter q
  pcb : ∀ q, q ≠ p → (s.pos q).dozes → s'.sem.pcb q = s.sem.pcb q
  less : s'.remaining p < s.remaining p
  round : s.RoundOk p → s'.RoundOk p
  served : phiTable.Served s.flag s.pending → phiTable.Served s'.flag s'.pending

/-- A philosopher that is in no `down` and in no `do_sleep` may run. -/
theorem PhiOk.awake (h : PhiOk s qs t) (hx : (s.pos p).sem p = none)
    (hx' : (s.pos p).dozes = false) : (s.sem.pcb p).state = .runnable := by
  refine (h.state p).resolve_right ?_
  rintro ⟨-, hc | hc⟩
  · exact hc hx
  · rw [hx'] at hc
    cases hc

/-- The outcome `r` of a step of the philosopher `p`: it does not fail, and if nobody waits for the
mutex, nor does anybody after it. -/
def Steps (s : PhiState) (t : Option Phi) (p : Phi) (r : Res PhiState) : Prop :=
  ∃ s' qs' t', r = .ok s' ∧ PhiOk s' qs' t' ∧ Stepped s s' p ∧
    ((∀ q, (s.pos q).sem q ≠ some .mutex) → t = none ∨ t = some p →
      ∀ q, (s'.pos q).sem q ≠ some .mutex)

/-- A step inside a round. -/
theorem Steps.of_move {r : Res PhiState} {t' : Option Phi} (hr : r = .ok s')
    (hok : PhiOk s' qs' t') (hs : s.pos p = x) (hx : x ≠ .quit) (hy : y ≠ .quit)
    (hpos : s'.pos = Function.update s.pos p y) (hiter : s'.iter = s.iter)
    (hpcb : ∀ q, q ≠ p → (s.pos q).dozes → s'.sem.pcb q = s.sem.pcb q)
    (hrank : y.rank + (if y.dozes ∧ (s'.sem.pcb p).state = .sleeping then 1 else 0) < x.rank)
    (hserved : phiTable.Served s.flag s.pending → phiTable.Served s'.flag s'.pending)
    (hmutex : t = none ∨ t = some p → y.sem p ≠ some .mutex) : Steps s t p r := by
  have hself : s'.pos p = y := by rw [hpos, Function.update_self]
  have hother : ∀ q, q ≠ p → s'.pos q = s.pos q := by
    intro q hq
    rw [hpos, Function.update_of_ne hq]
  refine ⟨s', qs', t', hr, hok, ⟨hother, fun q _ => by rw [hiter], hpcb, ?_, fun h => ?_, hserved⟩,
    fun hall ht q => ?_⟩
  · rw [remaining, remaining, hself, hiter, hs]
    omega
  · rw [RoundOk, hs, if_neg hx] at h
    rw [RoundOk, hself, if_neg hy, hiter]
    exact h
  · by_cases hq : q = p
    · rw [hq, hself]
      exact hmutex ht
    · rw [hother q hq]
      exact hall q

/-- A step that is not a step to or from `testing`. -/
theorem pending_eq (hs : s.pos p = x) (hx : x ≠ .testing) (hy : y ≠ .testing)
    (hpos : s'.pos = Function.update s.pos p y) : s'.pending = s.pending := by
  ext q
  show s'.pos q.left = .testing ↔ s.pos q.left = .testing
  rw [hpos]
  by_cases hq : q.left = p
  · rw [hq, Function.update_self, hs]
    exact iff_of_false hy hx
  · rw [Function.update_of_ne hq]

/-- A step that changes the semaphores only. -/
theorem Steps.of_sem {sem : SemState PhiSem Phi} {r : Res PhiState} {t' : Option Phi}
    (hr : r = .ok (({ s with sem } : PhiState).goto p y))
    (hok : PhiOk (({ s with sem } : PhiState).goto p y) qs' t') (hs : s.pos p = x)
    (hx : x ≠ .quit ∧ x ≠ .testing) (hy : y ≠ .quit ∧ y ≠ .testing)
    (hpcb : ∀ q, q ≠ p → (s.pos q).dozes → sem.pcb q = s.sem.pcb q)
    (hrank : y.rank + (if y.dozes then 1 else 0) < x.rank)
    (hmutex : t = none ∨ t = some p → y.sem p ≠ some .mutex) : Steps s t p r := by
  refine .of_move hr hok hs hx.1 hy.1 rfl rfl hpcb ?_ (fun hserved => ?_) hmutex
  rotate_left
  · rw [pending_eq hs hx.2 hy.2 rfl]
    exact hserved
  by_cases hd : y.dozes
  · rw [if_pos hd] at hrank
    split_ifs <;> omega
  · rw [if_neg hd] at hrank
    rw [if_neg fun hc => hd hc.1]
    exact hrank

/-- The test of the philosopher `q` after a change of flags. -/
theorem Steps.of_test {t' : Option Phi} (hok : PhiOk s' qs' t') (hs : s.pos p = x)
    (hx : x ≠ .quit) (hy : y ≠ .quit) (hpos : s'.pos = Function.update s.pos p y)
    (hiter : s'.iter = s.iter) (hsem : s'.sem = s.sem) (hrank : y.rank < x.rank)
    (hdoze : y.dozes = false)
    (hserved : phiTable.Served s.flag s.pending →
      phiTable.Served (phiTable.tryEat s'.flag q) s'.pending)
    (hmutex : y.sem p ≠ some .mutex) : Steps s t p (s'.phiTestSem q) := by
  obtain ⟨sem, qs'', htest, hok', hpcb⟩ := hok.test q
  refine .of_move htest hok' hs hx hy hpos hiter (fun r hr hd => ?_) ?_ hserved fun _ => hmutex
  · rw [← hsem]
    refine hpcb r (Or.inl fun hc => ?_)
    rw [hpos, Function.update_of_ne hr] at hc
    rw [hc] at hd
    cases hd
  · rw [hdoze]
    simpa using hrank

/-- The end of a round. -/
theorem PhiOk.execLeft (h : PhiOk s qs t) (hs : s.pos p = .left)
    (hrun : (s.sem.pcb p).state = .runnable) (hflag : s.flag p = .thinking)
    (hdoze : ∀ q, (s.pos q).dozes → (s.pos q).sem q ≠ some .mutex) :
    Steps s t p ((s.nextRound p).up .mutex) := by
  let y : PhiPos := if s.iter p + 1 < phiTimes then .thinking else .quit
  have hy : y = .thinking ∧ s.iter p + 1 < phiTimes ∨ y = .quit ∧ ¬ s.iter p + 1 < phiTimes := by
    by_cases hlt : s.iter p + 1 < phiTimes
    · exact Or.inl ⟨if_pos hlt, hlt⟩
    · exact Or.inr ⟨if_neg hlt, hlt⟩
  have hcases : y.critical = false ∧ y.sem p = none ∧ y.Allows (s.flag p) ∧ y.hopes = false ∧
      y ≠ .testing ∧ y.dozes = false := by
    rw [hflag]
    rcases hy with ⟨hy, -⟩ | ⟨hy, -⟩ <;> rw [hy] <;> simp [PhiPos.critical, PhiPos.sem,
      PhiPos.Allows, PhiPos.hopes, PhiPos.dozes]
  obtain ⟨hcrit, hsem, hallow, hhopes, htest, hd⟩ := hcases
  obtain ⟨sem, qs', t', hup, hok, -, hpcb⟩ :=
    (h.setLocals (Function.update s.iter p (s.iter p + 1)) s.curr).upMutex (y := y) hs rfl rfl hrun
      hcrit hsem hallow hhopes
  refine ⟨_, qs', t', hup, hok, ⟨fun q hq => goto_of_ne hq,
    fun q hq => Function.update_of_ne hq _ _, fun q _ hq => hpcb q (hdoze q hq), ?_,
    fun hround => ?_, fun hserved => ?_⟩, fun hall _ q => ?_⟩
  · rw [remaining, remaining, goto_self, goto_iter, hs, hd]
    have hleft : PhiPos.left.rank = 1 := rfl
    simp only [Function.update_self, PhiPos.dozes, Bool.false_eq_true, false_and, if_false, hleft]
    unfold phiTimes at *
    rcases hy with ⟨hy, hlt⟩ | ⟨hy, hlt⟩
    · have hr : y.rank = 17 := by rw [hy]; rfl
      omega
    · have hr : y.rank = 0 := by rw [hy]; rfl
      omega
  · rw [RoundOk, hs, if_neg (by simp)] at hround
    rw [RoundOk, goto_self, goto_iter]
    simp only [Function.update_self]
    rcases hy with ⟨hy, hlt⟩ | ⟨hy, hlt⟩
    · rw [hy, if_neg (by simp)]
      exact hlt
    · rw [hy, if_pos rfl]
      omega
  · have hp : (({ s with sem } : PhiState).goto p y).pending = s.pending :=
      pending_eq hs (by simp) htest rfl
    rw [← hp] at hserved
    exact hserved
  · by_cases hq : q = p
    · rw [hq, goto_self, hsem]
      simp
    · rw [goto_of_ne hq]
      exact hall q

/-- **A step of a philosopher** does not fail, and it keeps the philosophers in order. -/
theorem PhiOk.exec (h : PhiOk s qs t) (hp : s.Ready p) : Steps s t p (s.exec p) := by
  obtain ⟨hrun, hquit⟩ := hp
  have hflag := (h.seat p).flag
  have hnot : (s.pos p).critical = false → (s.pos p).sem p ≠ some .mutex →
      t = none ∨ t = some p → t = none := fun hc hc' ht =>
    ht.resolve_right fun he => not_holds hc hc' ((h.holds p).2 he)
  have hdoze : ∀ q, (s.pos q).dozes → (s.pos q).sem q ≠ some .mutex := by
    intro q hd
    cases hx : s.pos q <;> rw [hx] at hd <;> simp_all [PhiPos.dozes, PhiPos.sem]
  unfold PhiState.exec
  cases hs : s.pos p <;> rw [hs] at hflag
  case thinking =>
    have hok := (h.goto (y := .dozing) hs hrun rfl rfl rfl hflag (by simp [PhiPos.hopes])).setPcb
      (p := p) (r := ⟨.sleeping, waitTimer⟩) (by rw [goto_self]; rfl)
      (Or.inr ⟨rfl, by rw [goto_self]; rfl⟩)
    exact .of_sem (y := .dozing) rfl hok hs (by simp) (by simp)
      (fun q hq _ => Function.update_of_ne hq _ _) (by decide) fun _ => by simp [PhiPos.sem]
  case dozing =>
    have hok := h.goto (y := .taking) hs hrun rfl rfl rfl hflag (by simp [PhiPos.hopes])
    refine .of_sem ?_ hok hs (by simp) (by simp) (fun _ _ _ => rfl) (by decide)
      fun _ => by simp [PhiPos.sem]
    rfl
  case taking =>
    obtain ⟨sem, granted, qs', t', hdown, hok, hgr, -, hpcb⟩ := h.downMutex (y := .claiming)
      (z := .takeWait) hs hrun rfl rfl rfl rfl rfl rfl ⟨hflag, hflag⟩ ⟨rfl, rfl⟩
    refine .of_sem hdown hok hs (by simp) (by split_ifs <;> simp) (fun q hq _ => hpcb q hq)
      (by cases granted <;> decide) fun ht => ?_
    rw [if_pos (hgr.2 (hnot (by rw [hs]; rfl) (by rw [hs]; simp [PhiPos.sem]) ht))]
    simp [PhiPos.sem]
  case takeWait =>
    obtain ⟨sem, hres, hok, hpcb⟩ := h.resumeMutex (y := .claiming) hs hrun rfl rfl rfl hflag rfl
    exact .of_sem hres hok hs (by simp) (by simp) (fun q _ _ => by rw [hpcb]) (by decide)
      fun _ => by simp [PhiPos.sem]
  case claiming =>
    have hok := h.setFlag (y := .claimed) (a := .hungry) hs hrun rfl rfl rfl (by simp)
      (by simp [PhiPos.Allows]) rfl
    refine .of_test hok hs (by simp) (y := .claimed) (by simp) rfl rfl rfl (by decide) rfl
      (fun hserved => ?_) (by simp [PhiPos.sem])
    have hp : ((s.setFlag p .hungry).goto p .claimed).pending = s.pending :=
      pending_eq hs (by simp) (y := .claimed) (by simp) rfl
    rw [hp]
    have hne : s.flag p ≠ .eating := by rw [show s.flag p = .thinking from hflag]; simp
    exact ((hserved.hungry hne).tryEat (p := p)).mono (by simp)
  case claimed =>
    obtain ⟨sem, qs', t', hup, hok, -, hpcb⟩ := h.upMutex (y := .sitting) hs rfl rfl hrun rfl rfl
      hflag rfl
    exact .of_sem hup hok hs (by simp) (by simp) (fun q _ hd => hpcb q (hdoze q hd)) (by decide)
      fun _ => by simp [PhiPos.sem]
  case sitting =>
    obtain ⟨sem, granted, qs', hdown, hok, hpcb⟩ := h.sit hs hrun
    exact .of_sem hdown hok hs (by simp) (by split_ifs <;> simp) (fun q hq _ => hpcb q hq)
      (by cases granted <;> decide) fun _ => by split_ifs <;> simp [PhiPos.sem]
  case sitWait =>
    obtain ⟨sem, hres, hok, hpcb⟩ := h.sitResume hs hrun
    exact .of_sem hres hok hs (by simp) (by simp) (fun q _ _ => by rw [hpcb]) (by decide)
      fun _ => by simp [PhiPos.sem]
  case eating =>
    have hok := (h.goto (y := .digesting) hs hrun rfl rfl rfl hflag (by simp [PhiPos.hopes])).setPcb
      (p := p) (r := ⟨.sleeping, waitTimer⟩) (by rw [goto_self]; rfl)
      (Or.inr ⟨rfl, by rw [goto_self]; rfl⟩)
    exact .of_sem (y := .digesting) rfl hok hs (by simp) (by simp)
      (fun q hq _ => Function.update_of_ne hq _ _) (by decide) fun _ => by simp [PhiPos.sem]
  case digesting =>
    have hok := h.goto (y := .putting) hs hrun rfl rfl rfl hflag (by simp [PhiPos.hopes])
    refine .of_sem ?_ hok hs (by simp) (by simp) (fun _ _ _ => rfl) (by decide)
      fun _ => by simp [PhiPos.sem]
    rfl
  case putting =>
    obtain ⟨sem, granted, qs', t', hdown, hok, hgr, -, hpcb⟩ := h.downMutex (y := .leaving)
      (z := .putWait) hs hrun rfl rfl rfl rfl rfl rfl ⟨hflag, hflag⟩ ⟨rfl, rfl⟩
    refine .of_sem hdown hok hs (by simp) (by split_ifs <;> simp) (fun q hq _ => hpcb q hq)
      (by cases granted <;> decide) fun ht => ?_
    rw [if_pos (hgr.2 (hnot (by rw [hs]; rfl) (by rw [hs]; simp [PhiPos.sem]) ht))]
    simp [PhiPos.sem]
  case putWait =>
    obtain ⟨sem, hres, hok, hpcb⟩ := h.resumeMutex (y := .leaving) hs hrun rfl rfl rfl hflag rfl
    exact .of_sem hres hok hs (by simp) (by simp) (fun q _ _ => by rw [hpcb]) (by decide)
      fun _ => by simp [PhiPos.sem]
  case leaving =>
    have hok := h.setFlag (y := .testing) (a := .thinking) hs hrun rfl rfl rfl (by simp)
      (by simp [PhiPos.Allows]) rfl
    refine .of_test hok hs (by simp) (y := .testing) (by simp) rfl rfl rfl (by decide) rfl
      (fun hserved => ?_) (by simp [PhiPos.sem])
    refine (hserved.thinking.tryEat (p := p.left)).mono ?_
    rintro q ⟨rfl | rfl | hq, hne⟩
    · exact absurd rfl hne
    · show ((s.setFlag p .thinking).goto p .testing).pos (phiTable.left (phiTable.right p)) = _
      rw [phiTable.left_right, goto_self]
    · have hqp : q.left ≠ p := by
        rintro rfl
        rw [show s.pos q.left = .testing from hq] at hs
        cases hs
      exact (goto_of_ne hqp).trans hq
  case testing =>
    have hok := h.goto (y := .left) hs hrun rfl rfl rfl hflag (by simp [PhiPos.hopes])
    refine .of_test hok hs (by simp) (y := .left) (by simp) rfl rfl rfl (by decide) rfl
      (fun hserved => ?_) (by simp [PhiPos.sem])
    refine (hserved.tryEat (p := p.right)).mono ?_
    rintro q ⟨hq, hne⟩
    have hqp : q.left ≠ p := by
      rintro rfl
      exact hne (phiTable.right_left q).symm
    exact (goto_of_ne hqp).trans hq
  case left => exact h.execLeft hs hrun hflag hdoze
  case quit => exact absurd hs hquit

/-- The timer of `do_sleep` expires. -/
theorem PhiOk.wakeup (h : PhiOk s qs t) (hd : (s.pos p).dozes)
    (hsleep : (s.sem.pcb p).state = .sleeping) :
    PhiOk (s.setPcb p .running) qs t ∧ Stepped s (s.setPcb p .running) p := by
  have hsem : (s.pos p).sem p = none := by
    cases hx : s.pos p <;> rw [hx] at hd <;> simp_all [PhiPos.dozes, PhiPos.sem]
  have hself : (s.setPcb p .running).sem.pcb p = .running := Function.update_self _ _ _
  refine ⟨h.setPcb hsem (Or.inl rfl), fun _ _ => rfl, fun _ _ => rfl,
    fun q hq _ => Function.update_of_ne hq _ _, ?_, fun hround => hround, fun hserved => hserved⟩
  have hpos : (s.setPcb p .running).pos p = s.pos p := rfl
  have hiter : (s.setPcb p .running).iter p = s.iter p := rfl
  rw [remaining, remaining, hpos, hiter, hself, if_neg (by simp [RunState.running]),
    if_pos ⟨hd, hsleep⟩]
  omega

/-- The steps that all philosophers still take. -/
def total (s : PhiState) : ℕ := ∑ p, s.remaining p

theorem Stepped.total_lt (h : Stepped s s' p) : s'.total < s.total := by
  refine Finset.sum_lt_sum (fun q _ => ?_) ⟨p, Finset.mem_univ p, h.less⟩
  by_cases hq : q = p
  · rw [hq]
    exact h.less.le
  · rw [remaining, remaining, h.pos q hq, h.iter q hq]
    by_cases hd : (s.pos q).dozes
    · rw [h.pcb q hq hd]
    · simp [hd]

/-! ### Runs -/

theorem PhiOk.init (h : phiSystem.init s) : PhiOk s (fun _ => []) none ∧
    phiTable.Served s.flag s.pending ∧ (∀ p, s.RoundOk p) ∧ s.total = 340 := by
  obtain ⟨hmutex, hphi, hproc, hlocal, -⟩ := h
  have hpos : ∀ p, s.pos p = .thinking := fun p => (hlocal p).2.2
  have hlink : ∀ k, s.sem.link.initList (.queue k) = s.sem.link := by
    intro k
    cases k with
    | mutex => exact congrArg SemState.link hmutex
    | phi p => exact congrArg SemState.link (hphi p)
  have hval : s.sem.value .mutex = 1 := by
    have hv := congrFun (congrArg SemState.value hmutex) .mutex
    simpa [SemState.initSem] using hv.symm
  have hvalp : ∀ p, s.sem.value (.phi p) = 0 := by
    intro p
    have hv := congrFun (congrArg SemState.value (hphi p)) (.phi p)
    simpa [SemState.initSem] using hv.symm
  have hremain : ∀ p, s.remaining p = 68 := by
    intro p
    rw [remaining, hpos p, (hlocal p).2.1]
    rfl
  refine ⟨⟨.of_init hlink fun p => (hproc p).1, fun p => ?_, fun p => ?_, hval, fun p => ?_,
    fun p => ⟨?_, ?_, ?_, fun hp => ?_⟩, fun p hp => ?_⟩, fun p hp => ?_, fun p => ?_, ?_⟩
  · rw [(hproc p).1, hpos p]
    rfl
  · rw [(hproc p).2]
    exact Or.inl rfl
  · simp [Holds, hpos p, PhiPos.critical, PhiPos.sem]
  · rw [hpos p, (hlocal p).1]
    rfl
  · rw [hvalp, (hlocal p).1]
    simp
  · rw [(hlocal p).1]
    simp
  · rw [hpos p] at hp
    cases hp
  · rw [(hlocal p).1] at hp
    cases hp
  · rw [(hlocal p).1] at hp
    cases hp
  · rw [RoundOk, hpos p, if_neg (by simp), (hlocal p).2.1]
    decide
  · rw [total, Finset.sum_congr rfl fun p _ => hremain p]
    rfl

/-- Each step keeps the philosophers in order. -/
theorem PhiOk.step {op : PhiOp} (h : PhiOk s qs t) (hstep : phiSystem.step s op s') :
    ∃ qs' t' p, PhiOk s' qs' t' ∧ Stepped s s' p := by
  cases op with
  | run p =>
    obtain ⟨hp, u, hexec, rfl⟩ := hstep
    obtain ⟨u', qs', t', hr, hok, hst, -⟩ := h.exec hp
    obtain rfl := Except.ok.inj (hr.symm.trans hexec)
    exact ⟨qs', t', p, hok.setLocals u'.iter _, hst.pos, hst.iter, hst.pcb, hst.less, hst.round,
      hst.served⟩
  | wakeup p =>
    obtain ⟨hd, r, hsleep, hwake, rfl⟩ := hstep
    rw [RunState.wakeup_sleeping hsleep] at hwake
    obtain rfl := Except.ok.inj hwake
    obtain ⟨hok, hst⟩ := h.wakeup hd hsleep
    exact ⟨qs, t, p, hok, hst⟩

/-- Every state of a run is in order, and a run is short. -/
theorem PhiOk.run {ls : List PhiOp} (h : phiSystem.Run ls s) :
    ∃ qs t, PhiOk s qs t ∧ phiTable.Served s.flag s.pending ∧ (∀ p, s.RoundOk p) ∧
      ls.length + s.total ≤ 340 := by
  induction h with
  | start h =>
    obtain ⟨hok, hserved, hround, htotal⟩ := PhiOk.init h
    exact ⟨_, _, hok, hserved, hround, by simp [htotal]⟩
  | @step ls s s' op _ hstep ih =>
    obtain ⟨qs, t, hok, hserved, hround, htotal⟩ := ih
    obtain ⟨qs', t', p, hok', hst⟩ := hok.step hstep
    refine ⟨qs', t', hok', hst.served hserved, fun q => ?_, ?_⟩
    · by_cases hq : q = p
      · rw [hq]
        exact hst.round (hround p)
      · have hr := hround q
        rwa [RoundOk, hst.pos q hq, hst.iter q hq]
    · have hlt := hst.total_lt
      rw [List.length_append, List.length_singleton]
      omega

/-- The philosophers after the loop of `test_phi_sem`. -/
def phiStart : PhiState where
  sem := {
    value := fun k => if k = .mutex then 1 else 0
    link := ⟨id, id⟩
    wait := fun p => ⟨p, 0, .mutex⟩
    pcb := fun _ => .running
    blockedIn := fun _ => none }
  flag := fun _ => .thinking
  iter := fun _ => 0
  pos := fun _ => .thinking
  curr := none

theorem phiStart_init : phiSystem.init phiStart := by
  refine ⟨?_, fun p => ?_, fun p => ⟨rfl, rfl⟩, fun p => ⟨rfl, rfl, rfl⟩, rfl⟩
  · simp [SemState.initSem, phiStart, Links.initList, Links.setNext, Links.setPrev]
  · simp only [SemState.initSem, phiStart, Links.initList, Links.setNext, Links.setPrev]
    congr 1
    · funext k
      by_cases hk : k = .phi p
      · rw [hk, Function.update_self, if_neg (by simp)]
      · rw [Function.update_of_ne hk]
    · simp

/-- Philosopher 0 takes its forks. -/
theorem phiStart_run : ∃ s, (phiSystem.guard Cooperative).Run
    [.run 0, .wakeup 0, .run 0, .run 0, .run 0, .run 0, .run 0] s ∧ s.pos 0 = .eating := by
  let A := phiSystem.guard Cooperative
  have h₀ : A.Run [] phiStart := .start phiStart_init
  have h₁ := h₀.step (show A.step _ (.run 0) _ from ⟨Or.inl rfl, ⟨rfl, by decide⟩, _, rfl, rfl⟩)
  have h₂ := h₁.step (show A.step _ (.wakeup 0) _ from ⟨trivial, rfl, _, rfl, rfl, rfl⟩)
  have h₃ := h₂.step (show A.step _ (.run 0) _ from ⟨Or.inl rfl, ⟨rfl, by decide⟩, _, rfl, rfl⟩)
  have h₄ := h₃.step (show A.step _ (.run 0) _ from ⟨Or.inr rfl, ⟨rfl, by decide⟩, _, rfl, rfl⟩)
  have h₅ := h₄.step (show A.step _ (.run 0) _ from ⟨Or.inr rfl, ⟨rfl, by decide⟩, _, rfl, rfl⟩)
  have h₆ := h₅.step (show A.step _ (.run 0) _ from ⟨Or.inr rfl, ⟨rfl, by decide⟩, _, rfl, rfl⟩)
  have h₇ := h₆.step (show A.step _ (.run 0) _ from ⟨Or.inr rfl, ⟨rfl, by decide⟩, _, rfl, rfl⟩)
  exact ⟨_, h₇, rfl⟩

/-- **The philosophers exclude each other**, in every interleaving of their steps: at most one is in
the critical section, two neighbours never eat at the same time, and no step of a philosopher
fails. -/
theorem phi_exclusive (h : phiSystem.Reachable s) :
    (∀ p q, (s.pos p).critical → (s.pos q).critical → p = q) ∧
    (∀ p, (s.pos p).eats → ¬ (s.pos p.right).eats) ∧
    ∀ p, s.Ready p → ∃ s', phiSystem.step s (.run p) s' := by
  obtain ⟨ls, hr⟩ := h
  obtain ⟨qs, t, hok, -⟩ := PhiOk.run hr
  have heats : ∀ p, (s.pos p).eats → s.flag p = .eating := by
    intro p hp
    have hallow := (hok.seat p).flag
    cases hx : s.pos p <;> rw [hx] at hp hallow <;> first | exact hallow | cases hp
  refine ⟨fun p q hp hq => ?_, fun p hp hq => ?_, fun p hp => ?_⟩
  · have ht := (hok.holds p).1 (Or.inl hp)
    rw [(hok.holds q).1 (Or.inl hq)] at ht
    exact (Option.some.inj ht).symm
  · exact hok.apart p (heats p hp) (heats p.right hq)
  · obtain ⟨u, _, _, hexec, -⟩ := hok.exec hp
    exact ⟨_, hp, u, hexec, rfl⟩

/-- While philosopher 0 eats, philosopher 1 does not. -/
theorem phi_exclusive_eating : ∃ s, phiSystem.Reachable s ∧ (s.pos 0).eats ∧ ¬ (s.pos 1).eats := by
  obtain ⟨s, hs, hpos⟩ := phiStart_run
  have hr : phiSystem.Reachable s := System.Reachable.of_guard ⟨_, hs⟩
  have heats : (s.pos 0).eats := by
    rw [hpos]
    rfl
  exact ⟨s, hr, heats, (phi_exclusive hr).2.1 0 heats⟩

/-! ### Without preemption -/

/-- Nobody waits for the mutex, and only the philosopher that runs may hold it. -/
structure Alone (s : PhiState) : Prop where
  mutex : ∀ p, (s.pos p).sem p ≠ some .mutex
  holds : ∀ p, s.Holds p → s.curr = some p
  curr : ∀ p, s.curr = some p → s.Ready p

theorem Alone.init (h : phiSystem.init s) : s.Alone := by
  obtain ⟨-, -, -, hlocal, hcurr⟩ := h
  have hpos : ∀ p, s.pos p = .thinking := fun p => (hlocal p).2.2
  refine ⟨fun p => ?_, fun p hp => ?_, fun p hp => ?_⟩
  · rw [hpos p]
    simp [PhiPos.sem]
  · simp [Holds, hpos p, PhiPos.critical, PhiPos.sem] at hp
  · rw [hcurr] at hp
    cases hp

/-- Steps without preemption. -/
theorem Alone.step {op : PhiOp} (ha : s.Alone) (h : PhiOk s qs t)
    (hstep : (phiSystem.guard Cooperative).step s op s') : s'.Alone := by
  obtain ⟨hcoop, hstep⟩ := hstep
  cases op with
  | run p =>
    obtain ⟨hp, u, hexec, rfl⟩ := hstep
    obtain ⟨u', qs', t', hr, hok, hst, hfree⟩ := h.exec hp
    obtain rfl := Except.ok.inj (hr.symm.trans hexec)
    have ht : t = none ∨ t = some p := by
      cases ht : t with
      | none => exact Or.inl rfl
      | some q =>
        have hcurr := ha.holds q ((h.holds q).2 ht)
        have hcoop : s.curr = none ∨ s.curr = some p := hcoop
        rw [hcurr] at hcoop
        simpa using hcoop
    have hall := hfree ha.mutex ht
    refine ⟨hall, fun q hq => ?_, fun q hq => ?_⟩
    · have hq : u'.Holds q := hq
      -- only the philosopher that has taken the step is in the critical section
      have hcrit : (u'.pos q).critical := hq.resolve_right fun hc => hall q hc.1
      have hqp : q = p := by
        by_contra hne
        rw [hst.pos q hne] at hcrit
        have htq := (h.holds q).1 (Or.inl hcrit)
        rcases ht with ht | ht
        · rw [ht] at htq
          cases htq
        · rw [ht] at htq
          exact hne (Option.some.inj htq).symm
      subst hqp
      have hready : (u'.sem.pcb q).state = .runnable ∧ u'.pos q ≠ .quit := by
        refine ⟨hok.awake ?_ ?_, ?_⟩ <;> cases hx : u'.pos q <;> rw [hx] at hcrit <;>
          simp_all [PhiPos.critical, PhiPos.sem, PhiPos.dozes]
      exact if_pos hready
    · have hq : (if (u'.sem.pcb p).state = .runnable ∧ u'.pos p ≠ .quit then some p else none) =
        some q := hq
      split_ifs at hq with hready
      obtain rfl := Option.some.inj hq
      exact hready
  | wakeup p =>
    obtain ⟨hd, r, hsleep, hwake, rfl⟩ := hstep
    rw [RunState.wakeup_sleeping hsleep] at hwake
    obtain rfl := Except.ok.inj hwake
    refine ⟨ha.mutex, fun q hq => ha.holds q ?_, fun q hq => ?_⟩
    · exact hq.imp id fun hc => absurd hc.1 (ha.mutex q)
    · have hq' := ha.curr q hq
      refine ⟨?_, hq'.2⟩
      by_cases hqp : q = p
      · subst hqp
        have hself : (s.setPcb q .running).sem.pcb q = .running := Function.update_self _ _ _
        rw [hself]
        rfl
      · have hne : (s.setPcb p .running).sem.pcb q = s.sem.pcb q := Function.update_of_ne hqp _ _
        rw [hne]
        exact hq'.1

end PhiState

end GarretOS
