import GarretOS.Sync.PhiCondOk

/-!
# The steps of the philosophers at a monitor

One lemma for each step of the monitor: it keeps `CondOk`.  The token is somewhere else after it,
or the same philosopher goes on; `CondOk.block`, `CondOk.unblock` and `CondOk.release` are about the
calls of `down` and `up` that occur twice.
-/

namespace GarretOS

open SemState MonitorState

namespace CondState

variable {s s' : CondState} {p q i : Phi} {x : CondPos} {y : MonitorPos numPhi}
  {qs qs' : MonitorSem numPhi → List Phi} {t t' : Token numPhi Phi} {op : MonitorOp numPhi Phi}

/-- `down(mutex)` at the entry. -/
theorem CondOk.enter (h : CondOk s qs t) {granted : Bool}
    (hstep : (monitorSystem numPhi Phi PhiFlags).step s.mon (.enter p granted) s'.mon)
    (hx : x = .take ∧ s.prog p = .thinking ∨ x = .put ∧ s.prog p = .eating)
    (hprog : s'.prog = Function.update s.prog p x) : ∃ qs' t', CondOk s' qs' t' := by
  obtain ⟨qs', t', hok, hcnt, hsig⟩ := h.mon.step h.cnt hstep
  obtain ⟨⟨hp, -⟩, m, hdown, heq⟩ := hstep
  have hp : s.pos p = .outside := hp
  have hpos : s'.pos = Function.update s.pos p (if granted then .inside else .entering) := by
    rw [CondState.pos, heq]
    rfl
  have hflag : s'.flag = s.flag := by
    rw [CondState.flag, heq]
    rfl
  obtain ⟨-, qs'', t'', hok', hyes, hno⟩ := h.mon.down (x := .inside) (y := .entering)
    (by show (s.pos p).sem = none; rw [hp]; rfl) (by show (s.pos p).active = false; rw [hp]; rfl)
    hdown rfl rfl rfl
  rw [← heq] at hok'
  obtain rfl := hok.token_unique hok'
  have hsignal :
      (if granted then .inside else .entering : MonitorPos numPhi).signalling = false := by
    split_ifs <;> rfl
  refine ⟨qs', t', h.move hok hcnt hsig hflag hpos hprog (h.count_same ?_ hpos ?_) ?_ ?_
    (fun i hi => ?_) (by simp) (fun hs => ?_) (fun q hq => ?_) (fun ho => ?_) fun q hq heat => ?_⟩
  · rw [heq]
    exact Monitor.down_count hdown
  · rw [hp]
    split_ifs <;> rfl
  · rcases hx with ⟨rfl, -⟩ | ⟨rfl, -⟩ <;> split_ifs <;> simp [CondPos.At]
  · have hallow := h.flag p
    rcases hx with ⟨rfl, hx⟩ | ⟨rfl, hx⟩ <;> rw [hx] at hallow <;> exact hallow
  · rcases hi with hi | ⟨hi, -⟩ | ⟨hi, -⟩
    · split_ifs at hi
    · rcases hx with ⟨rfl, -⟩ | ⟨rfl, -⟩ <;> cases hi
    · rcases hx with ⟨rfl, -⟩ | ⟨rfl, -⟩ <;> cases hi
  · rw [hsignal] at hs
    cases hs
  · have hh := h.handedOn q (signalling_of_move hpos (by simp [hsignal]) hq)
    cases granted with
    | true =>
      obtain ⟨rfl, -⟩ := hyes rfl
      exact absurd rfl hh
    | false =>
      obtain ⟨rfl, hne⟩ := hno (by simp)
      exact hh.keep hne hpos hprog
  · rcases hx with ⟨-, hx⟩ | ⟨-, hx⟩ <;> rw [hx] at ho <;> cases ho
  · cases granted with
    | true =>
      obtain ⟨rfl, -⟩ := hyes rfl
      have hwaits : (s.pos q).waits := by
        rw [hpos] at hq
        by_cases hqp : q = p
        · rw [hqp, Function.update_self] at hq
          cases hq
        · rwa [Function.update_of_ne hqp] at hq
      rcases h.woken q hwaits heat with (hfor | ⟨r, hr, -⟩) | ⟨r, hr⟩
      · cases hfor
      · cases hr
      · cases h.token (hr.active (h.place r))
    | false =>
      obtain ⟨rfl, hne⟩ := hno (by simp)
      exact h.woken_keep hne hpos hprog (by rw [hp]; rfl) q hq heat

/-- `down(mutex)` returns. -/
theorem CondOk.entered (h : CondOk s qs t)
    (hstep : (monitorSystem numPhi Phi PhiFlags).step s.mon (.entered p) s'.mon)
    (hprog : s'.prog = Function.update s.prog p (s.prog p)) : ∃ qs' t', CondOk s' qs' t' := by
  obtain ⟨qs', t', hok, hcnt, hsig⟩ := h.mon.step h.cnt hstep
  obtain ⟨⟨hp, hrun⟩, m, hres, heq⟩ := hstep
  have hp : s.pos p = .entering := hp
  obtain ⟨hflag, hpos⟩ := goto_fields heq
  obtain ⟨-, ht, -⟩ := h.mon.downResume (y := .inside) (by show (s.pos p).sem = _; rw [hp]; rfl)
    hrun hres rfl
  have hx : s.prog p = .take ∨ s.prog p = .put := by
    have := h.place p
    rw [hp] at this
    cases hx : s.prog p <;> rw [hx] at this <;> simp [CondPos.At] at this ⊢
  have hnone := h.none_signalling ht (by rw [hp]; rfl)
    (Or.inl (by rcases hx with hx | hx <;> simp [hx]))
  refine ⟨qs', t', h.move hok hcnt hsig hflag hpos hprog (h.count_same ?_ hpos (by rw [hp]; rfl))
    ?_ ?_ (fun i hi => ?_) (by simp) (fun hs => by cases hs)
    (fun q hq => absurd (signalling_of_move hpos (fun hs => by cases hs) hq) (hnone q)) id
    fun q hq heat => not_waits_of_move (h.none_woken ht (by rw [hp]; simp) fun i hi => ?_) hpos
      (fun hw => by cases hw) q hq heat⟩
  · rw [heq]
    exact Monitor.downResume_count hres
  · rcases hx with hx | hx <;> rw [hx] <;> exact Or.inr rfl
  · have hallow := h.flag p
    rcases hx with hx | hx <;> rw [hx] at hallow ⊢ <;> exact hallow
  · rcases hx with hx | hx <;> rw [hx] at hi <;> simp [Announces] at hi
  · rw [hp] at hi
    rcases hx with hx | hx <;> rw [hx] at hi <;> simp [Announces] at hi

/-- While a philosopher is about to call `signal_cond`, the only one that may wait and eat is the one
that will be signalled. -/
theorem CondOk.announced (h : CondOk s qs t) (hp : s.pos p = .inside)
    (hx : s.prog p = .takeSignal ∨ s.prog p = .signalLeft ∧ i = p.left ∨
      s.prog p = .signalRight ∧ i = p.right)
    (hq : (s.pos q).waits) (heat : s.flag q = .eating) : q = i := by
  have ht := h.token (p := p) (by rw [hp]; rfl)
  subst ht
  rcases h.woken q hq heat with (hfor | ⟨r, hr, hpr⟩) | ⟨r, hr⟩
  · cases hfor
  · obtain rfl := Token.proc.inj hr
    rw [show s.mon.pos p = .inside from hp] at hpr
    rcases hpr with hpr | hpr <;> cases hpr
  · -- it has been announced by the philosopher that has the token
    obtain rfl := Token.proc.inj (h.token (hr.active (h.place r)))
    rcases hr with hr | ⟨hr, rfl⟩ | ⟨hr, rfl⟩
    · rw [hp] at hr
      cases hr
    · rcases hx with hx | ⟨-, rfl⟩ | ⟨hx, -⟩
      · rw [hx] at hr
        cases hr
      · rfl
      · rw [hx] at hr
        cases hr
    · rcases hx with hx | ⟨hx, -⟩ | ⟨-, rfl⟩
      · rw [hx] at hr
        cases hr
      · rw [hx] at hr
        cases hr
      · rfl

/-- `signal_cond` is called. -/
theorem CondOk.signal (h : CondOk s qs t)
    (hstep : (monitorSystem numPhi Phi PhiFlags).step s.mon (.signal p i) s'.mon)
    (hx : s.prog p = .takeSignal ∧ x = .takeCheck ∧ i = p ∨
      s.prog p = .signalLeft ∧ x = .putRight ∧ i = p.left ∨
      s.prog p = .signalRight ∧ x = .putDone ∧ i = p.right)
    (hprog : s'.prog = Function.update s.prog p x) : ∃ qs' t', CondOk s' qs' t' := by
  obtain ⟨qs', t', hok, hcnt, hsig⟩ := h.mon.step h.cnt hstep
  obtain ⟨⟨hp, -⟩, heq⟩ := hstep
  have hp : s.pos p = .inside := hp
  obtain ⟨hflag, hpos⟩ := goto_fields heq
  have hnone := h.none_signalling (h.token (by rw [hp]; rfl)) (by rw [hp]; rfl)
    (Or.inl (by rcases hx with ⟨hx, -⟩ | ⟨hx, -⟩ | ⟨hx, -⟩ <;> simp [hx]))
  have hself := h.count p
  rw [hp] at hself
  -- a philosopher that eats at once has nobody to signal
  have hy : (s.mon.mon.signalCond i).2 → x ≠ .takeCheck := by
    rintro hs rfl
    rcases hx with ⟨-, -, rfl⟩ | ⟨-, hx, -⟩ | ⟨-, hx, -⟩
    · have : s.mon.mon.count i = 0 := hself
      simp [Monitor.signalCond, this] at hs
    · cases hx
    · cases hx
  have hcount : (s.mon.mon.signalCond i).1.count = s.mon.mon.count := by
    unfold Monitor.signalCond
    split_ifs <;> rfl
  refine ⟨qs', t', h.move hok hcnt hsig hflag hpos hprog (h.count_same ?_ hpos ?_) ?_ ?_
    (fun j hj => ?_) (by simp) (fun _ => Or.inr hnone) (fun q hq => ?_) (fun ho => ?_)
    fun q hq heat => ?_⟩
  · rw [heq]
    exact hcount
  · rw [hp]
    split_ifs <;> rfl
  · split_ifs with hs
    · rcases hx with ⟨-, rfl, -⟩ | ⟨-, rfl, rfl⟩ | ⟨-, rfl, rfl⟩
      · exact absurd rfl (hy hs)
      · exact Or.inr (Or.inl rfl)
      · exact Or.inr (Or.inl rfl)
    · rcases hx with ⟨-, rfl, -⟩ | ⟨-, rfl, -⟩ | ⟨-, rfl, -⟩
      · rfl
      · exact Or.inl rfl
      · exact Or.inl rfl
  · have hallow := h.flag p
    rcases hx with ⟨hx, rfl, -⟩ | ⟨hx, rfl, -⟩ | ⟨hx, rfl, -⟩ <;> rw [hx] at hallow
    · have hallow : s.flag p = .eating := hallow
      show s.flag p ≠ .thinking
      rw [hallow]
      simp
    · exact hallow
    · exact hallow
  · obtain ⟨hs, rfl⟩ : (s.mon.mon.signalCond i).2 ∧ j = i := by
      rcases hj with hj | ⟨hj, -⟩ | ⟨hj, -⟩
      · split_ifs at hj with hs
        exact ⟨hs, (MonitorPos.notifying.inj hj).symm⟩
      · rcases hx with ⟨-, rfl, -⟩ | ⟨-, rfl, -⟩ | ⟨-, rfl, -⟩ <;> cases hj
      · rcases hx with ⟨-, rfl, -⟩ | ⟨-, rfl, -⟩ | ⟨-, rfl, -⟩ <;> cases hj
    rcases hx with ⟨-, rfl, -⟩ | ⟨hx, -, rfl⟩ | ⟨hx, -, rfl⟩
    · exact absurd rfl (hy hs)
    · exact h.announce p _ (Or.inr (Or.inl ⟨hx, rfl⟩))
    · exact h.announce p _ (Or.inr (Or.inr ⟨hx, rfl⟩))
  · have hqp : q = p := by
      by_contra hqp
      rw [hpos, Function.update_of_ne hqp] at hq
      exact hnone q hq
    subst hqp
    have hact : (s'.pos q).active := by
      rw [hpos, Function.update_self]
      split_ifs <;> rfl
    rw [(hok.holds q).1 (Or.inl hact)]
    exact Or.inl hq
  · rcases hx with ⟨hx, -⟩ | ⟨-, rfl, -⟩ | ⟨hx, -⟩
    · rw [hx] at ho
      cases ho
    · rfl
    · rw [hx] at ho
      cases ho
  · -- who waits has been announced, and is signalled now
    have hqp : q ≠ p := by
      rintro rfl
      rw [hpos, Function.update_self] at hq
      split_ifs at hq <;> cases hq
    rw [hpos, Function.update_of_ne hqp] at hq
    obtain rfl := h.announced hp (hx.imp And.left (Or.imp (And.imp_right And.right)
      (And.imp_right And.right))) hq heat
    have hc : s.mon.mon.count q = 1 := by rw [h.count, if_pos hq]
    have hs : (s.mon.mon.signalCond q).2 := by simp [Monitor.signalCond, hc]
    refine Or.inr ⟨p, Or.inl ?_⟩
    rw [hpos, Function.update_self, if_pos hs]

/-- A philosopher that is about to test whether one may eat has woken nobody: nobody who waits eats
already. -/
theorem CondOk.none_eats (h : CondOk s qs t) (hp : s.pos p = .inside)
    (hx : s.prog p = .take ∨ s.prog p = .put ∨ s.prog p = .putRight) :
    ∀ q, (s.pos q).waits → s.flag q ≠ .eating :=
  h.none_woken (h.token (by rw [hp]; rfl)) (by rw [hp]; simp) fun i hi => by
    rw [hp] at hi
    rcases hx with hx | hx | hx <;> simp [Announces, hx] at hi

/-- So only the philosopher that is tested may have to be signalled after the test. -/
theorem CondOk.tested (h : CondOk s qs t) (hp : s.pos p = .inside)
    (hx : s.prog p = .take ∨ s.prog p = .put ∨ s.prog p = .putRight) {f : PhiFlags}
    (hf : ∀ r, r ≠ p → f r = s.flag r) (hi : (s.pos i).waits)
    (heat : phiTable.tryEat f q i = .eating) : i = q ∧ phiTable.CanEat f q := by
  have hip : i ≠ p := by
    rintro rfl
    rw [hp] at hi
    cases hi
  have hne : f i ≠ .eating := by
    rw [hf i hip]
    exact h.none_eats hp hx i hi
  unfold Neighbours.tryEat at heat
  split_ifs at heat with hcan
  · refine ⟨?_, hcan⟩
    by_contra hiq
    rw [Function.update_of_ne hiq] at heat
    exact hne heat
  · exact absurd heat hne

/-- `phi_take_forks_cond`: the philosopher is hungry, and eats if it can. -/
theorem CondOk.take (h : CondOk s qs t) (hp : s.pos p = .inside) (hx : s.prog p = .take)
    (hmon : s'.mon = { s.mon with
      data := phiTable.tryEat (Function.update s.flag p .hungry) p })
    (hprog : s'.prog = Function.update s.prog p
      (if phiTable.CanEat (Function.update s.flag p .hungry) p then .takeSignal else .takeCheck)) :
    CondOk s' qs t := by
  have hallow : s.flag p = .thinking := by
    have := h.flag p
    rwa [hx] at this
  -- nothing is pending for the right neighbour at this place, and all the rest stays pending
  have howes : ∀ q, q ∈ s.pending → q ∈ s'.pending := by
    intro q hq
    have hqr : q ≠ p.right := by
      rintro rfl
      rw [right_mem_pending, hx] at hq
      cases hq
    exact (mem_pending_of_ne hprog hqr).2 hq
  refine h.changeFlag hp (by simp [hx]) hmon hprog ?_ ?_ (fun q hq hq' => ?_) (fun j hj => ?_)
    (fun j hj heat => ?_) (h.apart.update (by simp)).tryEat ?_
  · split_ifs <;> rfl
  · split_ifs with hcan
    · show phiTable.tryEat _ p p = _
      rw [Neighbours.tryEat, if_pos hcan, Function.update_self]
    · show phiTable.tryEat _ p p ≠ _
      rw [Neighbours.tryEat, if_neg hcan, Function.update_self]
      simp
  · refine Allows.tryEat ?_
    rwa [Function.update_of_ne hq]
  · split_ifs at hj <;> simp [Announces] at hj
  · obtain ⟨rfl, -⟩ := h.tested hp (Or.inl hx) (fun r hr => Function.update_of_ne hr _ _) hj heat
    rw [hp] at hj
    cases hj
  · refine (h.served.hungry (p := p) (by rw [hallow]; simp)).tryEat.mono fun q hq => ?_
    exact howes q ((Set.mem_insert_iff.1 hq.1).resolve_left hq.2)

/-- `phi_put_forks_cond`: the philosopher thinks, and its left neighbour eats if it can. -/
theorem CondOk.put (h : CondOk s qs t) (hp : s.pos p = .inside) (hx : s.prog p = .put)
    (hmon : s'.mon = { s.mon with
      data := phiTable.tryEat (Function.update s.flag p .thinking) p.left })
    (hprog : s'.prog = Function.update s.prog p
      (if phiTable.CanEat (Function.update s.flag p .thinking) p.left then .signalLeft
        else .putRight)) : CondOk s' qs t := by
  have hself := congrFun hprog p
  rw [Function.update_self] at hself
  refine h.changeFlag hp (by simp [hx]) hmon hprog ?_ ?_ (fun q hq hq' => ?_) (fun j hj => ?_)
    (fun j hj heat => ?_) (h.apart.update (by simp)).tryEat ?_
  · split_ifs
    · rfl
    · exact Or.inl rfl
  · have hthink : phiTable.tryEat (Function.update s.flag p .thinking) p.left p = .thinking :=
      (Neighbours.tryEat_of_ne (phiTable.left_ne p).symm).trans (Function.update_self _ _ _)
    split_ifs <;> exact hthink
  · refine Allows.tryEat ?_
    rwa [Function.update_of_ne hq]
  · split_ifs at hj with hcan
    · obtain rfl : j = p.left := by simpa [Announces] using hj
      rw [Neighbours.tryEat, if_pos hcan, Function.update_self]
    · simp [Announces] at hj
  · obtain ⟨rfl, hcan⟩ := h.tested hp (Or.inr (Or.inl hx))
      (fun r hr => Function.update_of_ne hr _ _) hj heat
    rw [if_pos hcan]
    exact Or.inr (Or.inl ⟨rfl, rfl⟩)
  · -- the right neighbour still has to be tested
    refine h.served.thinking.tryEat.mono fun q hq => ?_
    rcases Set.mem_insert_iff.1 hq.1 with hl | hq'
    · exact absurd hl hq.2
    · by_cases hqr : q = p.right
      · rw [hqr, right_mem_pending, hself]
        split_ifs <;> rfl
      · exact (mem_pending_of_ne hprog hqr).2 ((Set.mem_insert_iff.1 hq').resolve_left hqr)

/-- `phi_put_forks_cond`: the right neighbour eats if it can. -/
theorem CondOk.putRight (h : CondOk s qs t) (hp : s.pos p = .inside) (hx : s.prog p = .putRight)
    (hmon : s'.mon = { s.mon with data := phiTable.tryEat s.flag p.right })
    (hprog : s'.prog = Function.update s.prog p
      (if phiTable.CanEat s.flag p.right then .signalRight else .putDone)) : CondOk s' qs t := by
  have hallow : s.flag p = .thinking := by
    have := h.flag p
    rwa [hx] at this
  refine h.changeFlag hp (by simp [hx]) hmon hprog ?_ ?_ (fun q _ hq' => Allows.tryEat hq')
    (fun j hj => ?_) (fun j hj heat => ?_) h.apart.tryEat ?_
  · split_ifs
    · rfl
    · exact Or.inl rfl
  · have hthink : phiTable.tryEat s.flag p.right p = .thinking :=
      (Neighbours.tryEat_of_ne (phiTable.right_ne p).symm).trans hallow
    split_ifs <;> exact hthink
  · split_ifs at hj with hcan
    · obtain rfl : j = p.right := by simpa [Announces] using hj
      rw [Neighbours.tryEat, if_pos hcan, Function.update_self]
    · simp [Announces] at hj
  · obtain ⟨rfl, hcan⟩ := h.tested hp (Or.inr (Or.inr hx)) (fun _ _ => rfl) hj heat
    rw [if_pos hcan]
    exact Or.inr (Or.inr ⟨rfl, rfl⟩)
  · exact h.served.tryEat.mono fun q hq => (mem_pending_of_ne hprog hq.2).2 hq.1

/-- The code of a philosopher between two calls of monitor functions. -/
theorem CondOk.work (h : CondOk s qs t) {flag : PhiFlags}
    (hstep : (monitorSystem numPhi Phi PhiFlags).step s.mon (.work p) s'.mon)
    (hwork : s.work p (s.prog p) = some (flag, x)) (hflag : s'.flag = flag)
    (hprog : s'.prog = Function.update s.prog p x) : ∃ qs' t', CondOk s' qs' t' := by
  obtain ⟨⟨hp, -⟩, d, hmon⟩ := hstep
  have hp : s.pos p = .inside := hp
  obtain rfl : d = flag := by
    rw [← hflag, CondState.flag, hmon]
  refine ⟨qs, t, ?_⟩
  cases hx : s.prog p with
  | take =>
    rw [hx] at hwork
    simp only [CondState.work, phiTestCond_eq, Option.some.injEq, Prod.mk.injEq,
      decide_eq_true_eq] at hwork
    obtain ⟨rfl, rfl⟩ := hwork
    exact h.take hp hx hmon hprog
  | put =>
    rw [hx] at hwork
    simp only [CondState.work, phiTestCond_eq, Option.some.injEq, Prod.mk.injEq,
      decide_eq_true_eq] at hwork
    obtain ⟨rfl, rfl⟩ := hwork
    exact h.put hp hx hmon hprog
  | putRight =>
    rw [hx] at hwork
    simp only [CondState.work, phiTestCond_eq, Option.some.injEq, Prod.mk.injEq,
      decide_eq_true_eq] at hwork
    obtain ⟨rfl, rfl⟩ := hwork
    exact h.putRight hp hx hmon hprog
  | thinking | takeSignal | takeCheck | takeDone | eating | signalLeft | signalRight | putDone =>
    rw [hx] at hwork
    cases hwork

/-- `up` in `signal_cond`: the token goes to the philosopher that has been signalled. -/
theorem CondOk.notify (h : CondOk s qs t) {w : Option Phi}
    (hstep : (monitorSystem numPhi Phi PhiFlags).step s.mon (.notify p i w) s'.mon)
    (hprog : s'.prog = Function.update s.prog p (s.prog p)) : ∃ qs' t', CondOk s' qs' t' := by
  obtain ⟨qs', t', hok, hcnt, hsig⟩ := h.mon.step h.cnt hstep
  obtain ⟨⟨hp, -⟩, m, hup, heq⟩ := hstep
  have hp : s.pos p = .notifying i := hp
  obtain ⟨hflag, hpos⟩ := goto_fields heq
  obtain ⟨hcount, hsem⟩ := Monitor.signalCondUp_count hup
  obtain ⟨_, _, hok', ht'⟩ := h.mon.up (p := p) (y := .notified)
    (by show (s.pos p).active; rw [hp]; rfl) hsem rfl rfl
  rw [← heq] at hok'
  obtain rfl := hok.token_unique hok'
  have hplace := h.place p
  rw [hp] at hplace
  have hx : s.prog p = .putRight ∨ s.prog p = .putDone := by
    cases hx : s.prog p <;> rw [hx] at hplace <;> simp [CondPos.At] at hplace ⊢
  have hgoal : s'.HandedOn t' ∧ s'.mon.ForCond t' i := by
    rcases ht' with rfl | ⟨q, rfl, hqp, hq⟩
    · exact ⟨by simp [HandedOn], Or.inl rfl⟩
    · have hq : (s.pos q).sem = some (.cond i) := hq
      have hwait : s.pos q = .waiting i := by
        cases hy : s.pos q <;> rw [hy] at hq <;> simp [MonitorPos.sem] at hq ⊢
        exact hq
      obtain ⟨htake, hi⟩ := At.of_waits (h.place q) (by rw [hwait]; rfl)
      obtain rfl : i = q := by simpa [hwait] using hi
      have hstay : s'.pos i = .waiting i := by rw [hpos, Function.update_of_ne hqp, hwait]
      refine ⟨Or.inr ?_, Or.inr ⟨i, rfl, Or.inl hstay⟩⟩
      rw [hprog, Function.update_of_ne hqp]
      exact ⟨htake, Or.inl hstay⟩
  refine ⟨qs', t', h.move hok hcnt hsig hflag hpos hprog (h.count_same ?_ hpos (by rw [hp]; rfl))
    ?_ ?_ (fun j hj => ?_) (fun q j v he => ?_) (fun _ => Or.inl (by rw [hp]; rfl))
    (fun _ _ => hgoal.1) id fun q hq heat => ?_⟩
  · rw [heq]
    exact hcount
  · rcases hx with hx | hx <;> rw [hx] <;> exact Or.inr (Or.inr (Or.inl rfl))
  · have hallow := h.flag p
    rcases hx with hx | hx <;> rw [hx] at hallow ⊢ <;> exact hallow
  · rcases hx with hx | hx <;> rw [hx] at hj <;> simp [Announces] at hj
  · obtain ⟨rfl, rfl, -⟩ := MonitorOp.notify.inj he
    exact hp
  · -- the philosopher that is signalled is the only one that was to be
    have hqp : q ≠ p := by
      rintro rfl
      rw [hpos, Function.update_self] at hq
      cases hq
    rw [hpos, Function.update_of_ne hqp] at hq
    have ht := h.token (p := p) (by rw [hp]; rfl)
    subst ht
    rcases h.woken q hq heat with (hfor | ⟨r, hr, hpr⟩) | ⟨r, hr⟩
    · cases hfor
    · obtain rfl := Token.proc.inj hr
      rw [show s.mon.pos p = .notifying i from hp] at hpr
      rcases hpr with hpr | hpr <;> cases hpr
    · obtain rfl := Token.proc.inj (h.token (hr.active (h.place r)))
      obtain rfl : i = q := by
        rw [hp] at hr
        rcases hx with hx | hx <;> rw [hx] at hr <;> simpa [Announces] using hr
      exact Or.inl hgoal.2

/-- The calls of `down` in `signal_cond` and `wait_cond`. -/
theorem CondOk.block (h : CondOk s qs t) {k : MonitorSem numPhi} {granted : Bool}
    {y' : MonitorPos numPhi} {m : Monitor numPhi Phi}
    (hok : ∃ qs' t', MonitorOk s'.mon qs' t' ∧ CountOk s'.mon ∧ Signals s.mon s'.mon op t t')
    (hdown : s.mon.mon.down p k = .ok (m, granted))
    (heq : s'.mon = s.mon.goto m p (if granted then y else y'))
    (hprog : s'.prog = Function.update s.prog p (s.prog p))
    (hp : (s.pos p).sem = none) (hp' : (s.pos p).active = false) (hy : y.active)
    (hy' : y'.active = false) (hk : y'.sem = some k) (hop : ∀ q i w, op ≠ .notify q i w)
    (hwaits : ∀ z, z = y ∨ z = y' → z.waits = (s.pos p).waits ∧
      z.signalling = (s.pos p).signalling ∧ (s.prog p).At p z ∧
      (s.prog p).Allows z (s.flag p) ∧ ∀ i, ¬ Announces p (s.prog p) z i)
    (hown : k = .next ∧ y.signalling ∨ k = .cond p ∧ s.prog p = .takeDone ∧ y = .awake p) :
    ∃ qs' t', CondOk s' qs' t' := by
  obtain ⟨qs', t', hok, hcnt, hsig⟩ := hok
  obtain ⟨hflag, hpos⟩ := goto_fields heq
  obtain ⟨-, _, _, hok', hyes, hno⟩ := h.mon.down hp hp' hdown hy hy' hk
  rw [← heq] at hok'
  obtain rfl := hok.token_unique hok'
  obtain ⟨hw, hs, hplace, hallow, hann⟩ := hwaits (if granted then y else y') (by
    cases granted <;> simp)
  refine ⟨qs', t', h.move hok hcnt hsig hflag hpos hprog (h.count_same ?_ hpos hw) hplace hallow
    (fun j hj => absurd hj (hann j)) (fun q j w he => absurd he (hop q j w))
    (fun hy => Or.inl (by rwa [hs] at hy)) (fun q hq => ?_) id
    fun q hq heat => ?_⟩
  · rw [heq]
    exact Monitor.down_count hdown
  · have hh := h.handedOn q (signalling_of_move hpos (by rw [hs]; exact id) hq)
    cases granted with
    | true =>
      obtain ⟨-, rfl⟩ := hyes rfl
      show (s'.pos p).signalling ∨ _
      rw [hpos, hprog, Function.update_self, Function.update_self]
      rcases hown with ⟨-, hown⟩ | ⟨-, hx, hown⟩
      · exact Or.inl hown
      · exact Or.inr ⟨hx, Or.inr (Or.inl hown)⟩
    | false =>
      obtain ⟨rfl, hne⟩ := hno (by simp)
      exact hh.keep hne hpos hprog
  · cases granted with
    | true =>
      obtain ⟨rfl, rfl⟩ := hyes rfl
      have hwaits : (s.pos q).waits := by
        rw [hpos] at hq
        by_cases hqp : q = p
        · rw [hqp, Function.update_self, hw] at hq
          rwa [hqp]
        · rwa [Function.update_of_ne hqp] at hq
      rcases h.woken q hwaits heat with (hfor | ⟨r, hr, -⟩) | ⟨r, hr⟩
      · rcases hown with ⟨rfl, -⟩ | ⟨rfl, -, rfl⟩
        · cases hfor
        · obtain rfl := MonitorSem.cond.inj (Token.sem.inj hfor)
          refine Or.inl (Or.inr ⟨p, rfl, Or.inr ?_⟩)
          show s'.pos p = _
          rw [hpos, Function.update_self]
          rfl
      · cases hr
      · cases h.token (hr.active (h.place r))
    | false =>
      obtain ⟨rfl, hne⟩ := hno (by simp)
      exact h.woken_keep hne hpos hprog hw q hq heat

/-- The returns of `down` in `signal_cond` and `wait_cond`. -/
theorem CondOk.unblock (h : CondOk s qs t) {k : MonitorSem numPhi} {m : Monitor numPhi Phi}
    (hok : ∃ qs' t', MonitorOk s'.mon qs' t' ∧ CountOk s'.mon ∧ Signals s.mon s'.mon op t t')
    (hres : s.mon.mon.downResume p k = .ok m) (heq : s'.mon = s.mon.goto m p y)
    (hprog : s'.prog = Function.update s.prog p (s.prog p)) (hy : y.active)
    (hop : ∀ q i w, op ≠ .notify q i w) (ht : t = .proc p)
    (hw : y.waits = (s.pos p).waits) (hs : y.signalling = (s.pos p).signalling)
    (hplace : (s.prog p).At p y) (hallow : (s.prog p).Allows y (s.flag p))
    (hann : ∀ i, ¬ Announces p (s.prog p) y i)
    (hfor : ∀ i, s.pos p = .waiting i → y = .awake i) (hp : (s.pos p).active = false)
    (hown : y.signalling ∨ s.prog p = .takeDone ∧ y = .awake p) :
    ∃ qs' t', CondOk s' qs' t' := by
  obtain ⟨qs', t', hok, hcnt, hsig⟩ := hok
  obtain ⟨hflag, hpos⟩ := goto_fields heq
  have hact : (s'.pos p).active := by rwa [hpos, Function.update_self]
  obtain rfl := (hok.holds p).1 (Or.inl hact)
  subst ht
  refine ⟨qs', _, h.move hok hcnt hsig hflag hpos hprog (h.count_same ?_ hpos hw) hplace hallow
    (fun j hj => absurd hj (hann j)) (fun q j w he => absurd he (hop q j w))
    (fun hy => Or.inl (by rwa [hs] at hy)) (fun q hq => ?_) id
    fun q hq heat => ?_⟩
  · rw [heq]
    exact Monitor.downResume_count hres
  · show (s'.pos p).signalling ∨ _
    rw [hpos, hprog, Function.update_self, Function.update_self]
    rcases hown with hown | ⟨hx, hown⟩
    · exact Or.inl hown
    · exact Or.inr ⟨hx, Or.inr (Or.inl hown)⟩
  · have hwaits : (s.pos q).waits := by
      rw [hpos] at hq
      by_cases hqp : q = p
      · rw [hqp, Function.update_self, hw] at hq
        rwa [hqp]
      · rwa [Function.update_of_ne hqp] at hq
    rcases h.woken q hwaits heat with (hf | ⟨r, hr, hpr⟩) | ⟨r, hr⟩
    · cases hf
    · obtain rfl := Token.proc.inj hr
      refine Or.inl (Or.inr ⟨p, rfl, Or.inr ?_⟩)
      show s'.pos p = _
      rw [hpos, Function.update_self]
      rcases hpr with hpr | hpr
      · exact hfor q hpr
      · rw [show s.pos p = .awake q from hpr] at hp
        cases hp
    · have hr' := hr.active (h.place r)
      obtain rfl := Token.proc.inj (h.token hr')
      rw [hp] at hr'
      cases hr'

/-- `down` in `signal_cond`. -/
theorem CondOk.suspend (h : CondOk s qs t) {granted : Bool}
    (hstep : (monitorSystem numPhi Phi PhiFlags).step s.mon (.suspend p granted) s'.mon)
    (hprog : s'.prog = Function.update s.prog p (s.prog p)) : ∃ qs' t', CondOk s' qs' t' := by
  have hok := h.mon.step h.cnt hstep
  obtain ⟨⟨hp, -⟩, m, hdown, heq⟩ := hstep
  have hp : s.pos p = .notified := hp
  have hx := At.of_signalling (h.place p) (by rw [hp]; rfl)
  refine h.block hok hdown heq hprog (by rw [hp]; rfl) (by rw [hp]; rfl) rfl rfl rfl (by simp)
    (fun z hz => ?_) (Or.inl ⟨rfl, rfl⟩)
  have hallow := h.flag p
  rw [hp]
  rcases hx with hx | hx <;> rw [hx] at hallow ⊢ <;> rcases hz with rfl | rfl <;>
    exact ⟨rfl, rfl, by simp [CondPos.At], hallow, by simp [Announces]⟩

/-- `down` in `signal_cond` returns. -/
theorem CondOk.resume (h : CondOk s qs t)
    (hstep : (monitorSystem numPhi Phi PhiFlags).step s.mon (.resume p) s'.mon)
    (hprog : s'.prog = Function.update s.prog p (s.prog p)) : ∃ qs' t', CondOk s' qs' t' := by
  have hok := h.mon.step h.cnt hstep
  obtain ⟨⟨hp, hrun⟩, m, hres, heq⟩ := hstep
  have hp : s.pos p = .suspended := hp
  have hx := At.of_signalling (h.place p) (by rw [hp]; rfl)
  have hsem : (s.pos p).sem ≠ none := by rw [hp]; simp [MonitorPos.sem]
  have ht := (h.mon.holds p).1 (Or.inr ⟨hsem, hrun⟩)
  have hallow := h.flag p
  refine h.unblock hok hres heq hprog rfl (by simp) ht (by rw [hp]; rfl) (by rw [hp]; rfl) ?_ ?_
    (fun i hi => ?_) (by simp [hp]) (by rw [hp]; rfl) (Or.inl rfl)
  · rcases hx with hx | hx <;> rw [hx] <;> simp [CondPos.At]
  · rcases hx with hx | hx <;> rw [hx] at hallow ⊢ <;> exact hallow
  · rcases hx with hx | hx <;> rw [hx] at hi <;> simp [Announces] at hi

/-- `down` in `wait_cond`. -/
theorem CondOk.sleep (h : CondOk s qs t) {granted : Bool}
    (hstep : (monitorSystem numPhi Phi PhiFlags).step s.mon (.sleep p i granted) s'.mon)
    (hprog : s'.prog = Function.update s.prog p (s.prog p)) : ∃ qs' t', CondOk s' qs' t' := by
  have hok := h.mon.step h.cnt hstep
  obtain ⟨⟨hp, -⟩, m, hdown, heq⟩ := hstep
  have hp : s.pos p = .left i := hp
  obtain ⟨hx, hi⟩ := At.of_waits (h.place p) (by rw [hp]; rfl)
  obtain rfl : i = p := by simpa [hp] using hi
  have hallow := h.flag i
  rw [hx] at hallow
  refine h.block hok hdown heq hprog (by rw [hp]; rfl) (by rw [hp]; rfl) rfl rfl rfl (by simp)
    (fun z hz => ?_) (Or.inr ⟨rfl, hx, rfl⟩)
  rw [hp, hx]
  rcases hz with rfl | rfl <;>
    exact ⟨rfl, rfl, by simp [CondPos.At], ⟨hallow.1, fun he => by cases he⟩,
      by simp [Announces]⟩

/-- `down` in `wait_cond` returns. -/
theorem CondOk.wake (h : CondOk s qs t)
    (hstep : (monitorSystem numPhi Phi PhiFlags).step s.mon (.wake p i) s'.mon)
    (hprog : s'.prog = Function.update s.prog p (s.prog p)) : ∃ qs' t', CondOk s' qs' t' := by
  have hok := h.mon.step h.cnt hstep
  obtain ⟨⟨hp, hrun⟩, m, hres, heq⟩ := hstep
  have hp : s.pos p = .waiting i := hp
  obtain ⟨hx, hi⟩ := At.of_waits (h.place p) (by rw [hp]; rfl)
  obtain rfl : i = p := by simpa [hp] using hi
  have hsem : (s.pos i).sem ≠ none := by rw [hp]; simp [MonitorPos.sem]
  have ht := (h.mon.holds i).1 (Or.inr ⟨hsem, hrun⟩)
  have hallow := h.flag i
  rw [hx] at hallow
  refine h.unblock hok hres heq hprog rfl (by simp) ht (by rw [hp]; rfl) (by rw [hp]; rfl) ?_ ?_
    (fun j hj => ?_) (by simp [hp]) (by rw [hp]; rfl) (Or.inr ⟨hx, rfl⟩)
  · rw [hx]
    simp [CondPos.At]
  · rw [hx]
    exact ⟨hallow.1, fun he => by cases he⟩
  · rw [hx] at hj
    simp [Announces] at hj

/-- `signal_cond` returns. -/
theorem CondOk.signalled (h : CondOk s qs t)
    (hstep : (monitorSystem numPhi Phi PhiFlags).step s.mon (.signalled p) s'.mon)
    (hprog : s'.prog = Function.update s.prog p (s.prog p)) : ∃ qs' t', CondOk s' qs' t' := by
  obtain ⟨qs', t', hok, hcnt, hsig⟩ := h.mon.step h.cnt hstep
  obtain ⟨⟨hp, -⟩, heq⟩ := hstep
  have hp : s.pos p = .resumed := hp
  obtain ⟨hflag, hpos⟩ := goto_fields heq
  have hplace := h.place p
  rw [hp] at hplace
  have hx : s.prog p = .putRight ∨ s.prog p = .putDone := by
    cases hx : s.prog p <;> rw [hx] at hplace <;> simp [CondPos.At] at hplace ⊢
  refine ⟨qs', t', h.move hok hcnt hsig hflag hpos hprog (h.count_same ?_ hpos (by rw [hp]; rfl))
    ?_ ?_ (fun j hj => ?_) (by simp) (fun hs => by cases hs) (fun q hq => ?_) id
    fun q hq heat => not_waits_of_move (h.none_woken (h.token (by rw [hp]; rfl)) (by rw [hp]; simp)
      fun i hi => ?_) hpos (fun hw => by cases hw) q hq heat⟩
  · rw [heq]
    rfl
  · rcases hx with hx | hx <;> rw [hx] <;> exact Or.inl rfl
  · have hallow := h.flag p
    rcases hx with hx | hx <;> rw [hx] at hallow ⊢ <;> exact hallow
  · rcases hx with hx | hx <;> rw [hx] at hj <;> simp [Announces] at hj
  · -- it was the only one in `signal_cond`
    have hqp : q ≠ p := by
      rintro rfl
      rw [hpos, Function.update_self] at hq
      cases hq
    rw [hpos, Function.update_of_ne hqp] at hq
    exact absurd (h.unique q p hq (by rw [hp]; rfl)) hqp
  · rw [hp] at hi
    rcases hx with hx | hx <;> rw [hx] at hi <;> simp [Announces] at hi

/-- `wait_cond` is called. -/
theorem CondOk.wait (h : CondOk s qs t)
    (hstep : (monitorSystem numPhi Phi PhiFlags).step s.mon (.wait p p) s'.mon)
    (hx : s.prog p = .takeCheck) (hhungry : s.flag p = .hungry)
    (hprog : s'.prog = Function.update s.prog p .takeDone) : ∃ qs' t', CondOk s' qs' t' := by
  obtain ⟨qs', t', hok, hcnt, hsig⟩ := h.mon.step h.cnt hstep
  obtain ⟨⟨hp, -⟩, heq⟩ := hstep
  have hp : s.pos p = .inside := hp
  obtain ⟨hflag, hpos⟩ := goto_fields heq
  have hnone := h.none_signalling (h.token (by rw [hp]; rfl)) (by rw [hp]; rfl)
    (Or.inl (by simp [hx]))
  have hself := h.count p
  rw [hp] at hself
  refine ⟨qs', t', h.move hok hcnt hsig hflag hpos hprog (fun j => ?_) (Or.inl rfl)
    ⟨by simp [hhungry], fun he => by cases he⟩ (fun j hj => by simp [Announces] at hj) (by simp)
    (fun hs => by cases hs)
    (fun q hq => absurd (signalling_of_move hpos (fun hs => by cases hs) hq) (hnone q))
    (fun ho => ?_) fun q hq heat => not_waits_of_move (h.none_woken (h.token (by rw [hp]; rfl))
      (by rw [hp]; simp) fun i hi => ?_) hpos (fun _ => by simp [hhungry]) q hq heat⟩
  · rw [heq]
    show (s.mon.mon.waitCond p).count j = _
    simp only [Monitor.waitCond, hpos]
    by_cases hj : j = p
    · have hself : s.mon.mon.count p = 0 := hself
      rw [hj, Function.update_self, Function.update_self, hself]
      rfl
    · rw [Function.update_of_ne hj, Function.update_of_ne hj]
      exact h.count j
  · rw [hx] at ho
    cases ho
  · rw [hp, hx] at hi
    simp [Announces] at hi

/-- `wait_cond` returns: the flag is `EATING`. -/
theorem CondOk.waited (h : CondOk s qs t)
    (hstep : (monitorSystem numPhi Phi PhiFlags).step s.mon (.waited p i) s'.mon)
    (hprog : s'.prog = Function.update s.prog p (s.prog p)) : ∃ qs' t', CondOk s' qs' t' := by
  obtain ⟨qs', t', hok, hcnt, hsig⟩ := h.mon.step h.cnt hstep
  obtain ⟨⟨hp, -⟩, heq⟩ := hstep
  have hp : s.pos p = .awake i := hp
  obtain ⟨hflag, hpos⟩ := goto_fields heq
  obtain ⟨hx, hi⟩ := At.of_waits (h.place p) (by rw [hp]; rfl)
  obtain rfl : i = p := by simpa [hp] using hi
  have heat : s.flag i = .eating :=
    h.forCond i (Or.inr ⟨i, h.token (by rw [hp]; rfl), Or.inr hp⟩)
  have hact : (s'.pos i).active := by
    rw [hpos, Function.update_self]
    rfl
  obtain rfl := (hok.holds i).1 (Or.inl hact)
  have hself := h.count i
  rw [hp] at hself
  refine ⟨qs', _, h.move hok hcnt hsig hflag hpos hprog (fun j => ?_) ?_ ?_ (fun j hj => ?_)
    (by simp) (fun hs => by cases hs) (fun q hq => ?_) id fun q hq heat' => ?_⟩
  · rw [heq]
    show (s.mon.mon.waitCondEnd i).count j = _
    simp only [Monitor.waitCondEnd, hpos]
    by_cases hj : j = i
    · have hself : s.mon.mon.count i = 1 := hself
      rw [hj, Function.update_self, Function.update_self, hself]
      rfl
    · rw [Function.update_of_ne hj, Function.update_of_ne hj]
      exact h.count j
  · rw [hx]
    exact Or.inr (Or.inr (Or.inr (Or.inr rfl)))
  · rw [hx]
    exact ⟨by simp [heat], fun _ => heat⟩
  · rw [hx] at hj
    simp [Announces] at hj
  · show (s'.pos i).signalling ∨ _
    rw [hpos, hprog, Function.update_self, Function.update_self]
    exact Or.inr ⟨hx, Or.inr (Or.inr rfl)⟩
  · -- the token is no longer at a condition
    exfalso
    have hqi : q ≠ i := by
      rintro rfl
      rw [hpos, Function.update_self] at hq
      cases hq
    rw [hpos, Function.update_of_ne hqi] at hq
    have ht := h.token (p := i) (by rw [hp]; rfl)
    subst ht
    rcases h.woken q hq heat' with (hfor | ⟨r, hr, hpr⟩) | ⟨r, hr⟩
    · cases hfor
    · obtain rfl := Token.proc.inj hr
      rw [show s.mon.pos i = .awake i from hp] at hpr
      rcases hpr with hpr | hpr
      · cases hpr
      · exact hqi (MonitorPos.awake.inj hpr).symm
    · obtain rfl := Token.proc.inj (h.token (hr.active (h.place r)))
      rw [hp, hx] at hr
      simp [Announces] at hr

/-- The code that gives up the monitor, in `wait_cond` and at the exit.  While a philosopher is in
`signal_cond`, it passes the token back to it. -/
theorem CondOk.release (h : CondOk s qs t) {m : Monitor numPhi Phi} {w : Option Phi}
    (hok : ∃ qs' t', MonitorOk s'.mon qs' t' ∧ CountOk s'.mon ∧ Signals s.mon s'.mon op t t')
    (hrel : s.mon.mon.release = .ok (m, w)) (heq : s'.mon = s.mon.goto m p y)
    (hprog : s'.prog = Function.update s.prog p x) (hp : (s.pos p).active)
    (hp' : (s.pos p).signalling = false) (hy : y.active = false) (hy' : y.sem = none)
    (hop : ∀ q i w, op ≠ .notify q i w) (hw : y.waits = (s.pos p).waits)
    (hs : y.signalling = false) (hplace : x.At p y) (hallow : x.Allows y (s.flag p))
    (hann : ∀ i, ¬ Announces p x y i) (howes : (s.prog p).owes → x.owes)
    (hleave : ∀ i, s.pos p ≠ .waiting i ∧ s.pos p ≠ .awake i)
    (hmute : ∀ i, ¬ Announces p (s.prog p) (s.pos p) i) :
    ∃ qs' t', CondOk s' qs' t' := by
  obtain ⟨qs', t', hok, hcnt, hsig⟩ := hok
  obtain ⟨hflag, hpos⟩ := goto_fields heq
  have hnone := h.none_woken (h.token hp) hleave hmute
  refine ⟨qs', t', h.move hok hcnt hsig hflag hpos hprog (h.count_same ?_ hpos hw) hplace hallow
    (fun j hj => absurd hj (hann j)) (fun q j w he => absurd he (hop q j w))
    (fun hy => by rw [hs] at hy; cases hy) (fun q hq => ?_) howes
    (fun q hq heat => not_waits_of_move hnone hpos (fun hwait => hnone p (by rwa [hw] at hwait)) q
      hq heat)⟩
  · rw [heq]
    exact Monitor.release_count hrel
  · have hqp : q ≠ p := by
      rintro rfl
      rw [hpos, Function.update_self, hs] at hq
      cases hq
    have hq' : (s.pos q).signalling := by rwa [hpos, Function.update_of_ne hqp] at hq
    -- `q` is the only one in `signal_cond`
    have hsigs : s.mon.signallers = {q} := by
      ext r
      constructor
      · exact fun hr => h.unique r q hr hq'
      · rintro rfl
        exact hq'
    have hnext : 0 < s.mon.mon.nextCount := by
      rw [h.cnt.nextCount, hsigs, Set.ncard_singleton]
      decide
    obtain ⟨⟨sem, v⟩, hup, hm⟩ := bind_eq_ok.1 hrel
    rw [if_pos hnext] at hup
    obtain ⟨rfl, -⟩ := Prod.mk.inj (Except.ok.inj hm)
    obtain ⟨_, _, hok', ht'⟩ := h.mon.up (m := { s.mon.mon with sem }) (y := y) hp hup hy hy'
    rw [← heq] at hok'
    obtain rfl := hok.token_unique hok'
    rcases ht' with rfl | ⟨r, rfl, hrp, hr⟩
    · simp [HandedOn]
    · have hr : (s.pos r).sem = some .next := hr
      have hsusp : s.pos r = .suspended := by
        cases hz : s.pos r <;> rw [hz] at hr <;> simp [MonitorPos.sem] at hr ⊢
      refine Or.inl ?_
      rw [hpos, Function.update_of_ne hrp, hsusp]
      rfl

/-- `wait_cond` gives up the monitor. -/
theorem CondOk.leave (h : CondOk s qs t) {w : Option Phi}
    (hstep : (monitorSystem numPhi Phi PhiFlags).step s.mon (.leave p i w) s'.mon)
    (hprog : s'.prog = Function.update s.prog p (s.prog p)) : ∃ qs' t', CondOk s' qs' t' := by
  have hok := h.mon.step h.cnt hstep
  obtain ⟨⟨hp, -⟩, m, hrel, heq⟩ := hstep
  have hp : s.pos p = .leaving i := hp
  obtain ⟨hx, hi⟩ := At.of_waits (h.place p) (by rw [hp]; rfl)
  obtain rfl : i = p := by simpa [hp] using hi
  refine h.release hok hrel heq hprog (by rw [hp]; rfl) (by rw [hp]; rfl) rfl rfl (by simp)
    (by rw [hp]; rfl) rfl ?_ ?_ (fun j hj => ?_) id (by rw [hp]; simp) fun j hj => ?_
  · rw [hx]
    exact Or.inr (Or.inl rfl)
  · have hallow := h.flag i
    rw [hx] at hallow ⊢
    exact ⟨hallow.1, fun he => by cases he⟩
  · rw [hx] at hj
    simp [Announces] at hj
  · rw [hp, hx] at hj
    simp [Announces] at hj

/-- The exits of `phi_take_forks_cond` and `phi_put_forks_cond`. -/
theorem CondOk.exit (h : CondOk s qs t) {w : Option Phi}
    (hstep : (monitorSystem numPhi Phi PhiFlags).step s.mon (.exit p w) s'.mon)
    (hx : (s.prog p = .takeDone ∨ s.prog p = .takeCheck ∧ s.flag p ≠ .hungry) ∧ x = .eating ∨
      s.prog p = .putDone ∧ x = .thinking)
    (hprog : s'.prog = Function.update s.prog p x) : ∃ qs' t', CondOk s' qs' t' := by
  have hok := h.mon.step h.cnt hstep
  obtain ⟨⟨hp, -⟩, m, hrel, heq⟩ := hstep
  have hp : s.pos p = .inside := hp
  have hallow := h.flag p
  refine h.release hok hrel heq hprog (by rw [hp]; rfl) (by rw [hp]; rfl) rfl rfl (by simp)
    (by rw [hp]; rfl) rfl ?_ ?_ (fun j hj => ?_) (fun ho => ?_) (by rw [hp]; simp) fun j hj => ?_
  · rcases hx with ⟨-, rfl⟩ | ⟨-, rfl⟩ <;> rfl
  · rcases hx with ⟨hx | ⟨hx, hne⟩, rfl⟩ | ⟨hx, rfl⟩ <;> rw [hx] at hallow
    · exact hallow.2 hp
    · have hallow : s.flag p ≠ .thinking := hallow
      show s.flag p = .eating
      cases hf : s.flag p with
      | thinking => exact absurd hf hallow
      | hungry => exact absurd hf hne
      | eating => rfl
    · exact hallow
  · rcases hx with ⟨-, rfl⟩ | ⟨-, rfl⟩ <;> simp [Announces] at hj
  · rcases hx with ⟨hx | ⟨hx, -⟩, -⟩ | ⟨hx, -⟩ <;> rw [hx] at ho <;> cases ho
  · rw [hp] at hj
    rcases hx with ⟨hx | ⟨hx, -⟩, -⟩ | ⟨hx, -⟩ <;> rw [hx] at hj <;> simp [Announces] at hj

end CondState

end GarretOS
