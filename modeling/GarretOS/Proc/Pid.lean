import GarretOS.Proc.Table
import GarretOS.System.Basic
import Mathlib.Data.Finset.Card
import Mathlib.Data.Int.Interval
import Mathlib.Order.Interval.Finset.Nat

/-!
# Allocation of pids

`alloc_pid` keeps two numbers from one call to the next.  No process of the list has a pid strictly
between them, so that as long as the interval is not used up the next pid is found without looking
at the list.

* `pidLoop_spec` : the scan ends, with an interval that no pid of the list lies in;
* `ProcTable.PidsOk.allocPid` : a call of `alloc_pid`;
* `alloc_pid_fresh` : every call in every run of creations and reapings.
-/

namespace GarretOS

namespace ProcTable

variable {π : Type} {T : ProcTable π} {L : Links (Option π)} {pid : π → ℤ}

/-- The list `g_proc_list` holds the processes `ps`. -/
def Lists (T : ProcTable π) (ps : List π) : Prop := Ring T.procList none (ps.map some)

theorem getLastD_map_some (xs : List π) : (xs.map some).getLastD none = xs.getLast? := by
  rw [List.getLastD_eq_getLast?, List.getLast?_map]
  cases xs.getLast? <;> rfl

theorem headD_map_some (xs : List π) : (xs.map some).headD none = xs.head? := by
  cases xs <;> rfl

/-- The node after the processes `done`. -/
theorem next_getLast? {done rest : List π} (hr : Ring L none ((done ++ rest).map some)) :
    L.next done.getLast? = rest.head? := by
  rw [List.map_append] at hr
  rw [← getLastD_map_some, hr.next_getLastD, headD_map_some]

theorem Lists.nodup {ps : List π} (h : T.Lists ps) : ps.Nodup :=
  (List.nodup_map_iff (Option.some_injective π)).1 (List.nodup_cons.1 (Ring.nodup h)).2

/-- The list determines the processes. -/
theorem Lists.unique {ps qs : List π} (hp : T.Lists ps) (hq : T.Lists qs) : ps = qs := by
  -- both are read off by following `next` from the head
  have key : ∀ (a b done : List π), T.Lists (done ++ a) → T.Lists (done ++ b) → a = b := by
    intro a
    induction a with
    | nil =>
      intro b done ha hb
      have h := (next_getLast? ha).symm.trans (next_getLast? hb)
      exact (List.head?_eq_none_iff.1 h.symm).symm
    | cons x a ih =>
      intro b done ha hb
      have h := (next_getLast? ha).symm.trans (next_getLast? hb)
      cases b with
      | nil => cases h
      | cons y b =>
        obtain rfl : x = y := Option.some.inj h
        have hcons : ∀ l : List π, done ++ x :: l = (done ++ [x]) ++ l := by simp
        rw [hcons] at ha hb
        rw [ih b (done ++ [x]) ha hb]
  exact key ps qs [] hp hq

/-! ### The scan -/

/-- The number of steps from `prev` to `f` around the circle of pids. -/
def pidDist (f prev : ℤ) : ℕ :=
  if prev ≤ f then (f - prev).toNat else (maxPid - 1 - prev + f).toNat

/-- The next pid around the circle is closer to `f`. -/
theorem pidDist_next {f prev : ℤ} (hf₀ : 1 ≤ f) (hf : f < maxPid) (h₀ : 1 ≤ prev)
    (h : prev < maxPid) (hne : prev ≠ f) {prev₁ : ℤ}
    (hprev₁ : prev₁ = if prev + 1 ≥ maxPid then 1 else prev + 1) :
    1 ≤ prev₁ ∧ prev₁ < maxPid ∧ pidDist f prev₁ + 1 = pidDist f prev := by
  rw [maxPid_eq] at *
  by_cases hwrap : prev + 1 ≥ 8192
  · rw [if_pos hwrap] at hprev₁
    subst hprev₁
    refine ⟨le_rfl, by decide, ?_⟩
    rw [pidDist, pidDist, if_pos hf₀, if_neg (by omega), maxPid_eq]
    omega
  · rw [if_neg hwrap] at hprev₁
    subst hprev₁
    refine ⟨by omega, by omega, ?_⟩
    by_cases hle : prev + 1 ≤ f
    · rw [pidDist, pidDist, if_pos hle, if_pos (by omega)]
      omega
    · rw [pidDist, pidDist, if_neg hle, if_neg (by omega), maxPid_eq]
      omega

/-- The interval `[prev, next)` of the scan. -/
structure PidSpan (prev next : ℤ) : Prop where
  pos : 1 ≤ prev
  lt : prev < next
  le : next ≤ maxPid

/-- The scan goes through the list again and again, and each time it starts anew `prev_pid` has
come closer to a pid `f` that is not in use. -/
theorem pidLoop_spec {ps : List π} (hr : Ring L none (ps.map some)) {f : ℤ} (hf₀ : 1 ≤ f)
    (hf : f < maxPid) (hfree : ∀ p ∈ ps, pid p ≠ f) {n : ℕ} {done rest : List π} {prev next : ℤ}
    (hps : ps = done ++ rest) (hs : PidSpan prev next)
    (hdone : ∀ q ∈ done, ¬(prev ≤ pid q ∧ pid q < next))
    (hn : pidDist f prev * (ps.length + 1) + rest.length = n) :
    ∃ prev' next', PidSpan prev' next' ∧ (∀ q ∈ ps, ¬(prev' ≤ pid q ∧ pid q < next')) ∧
      Fueled n (fun k => pidLoop pid L k prev next done.getLast?) (.ok (prev', next')) := by
  induction n using Nat.strong_induction_on generalizing done rest prev next with
  | _ n ih =>
  obtain ⟨h1, h2, h3⟩ := hs
  have hnext : L.next done.getLast? = rest.head? := next_getLast? (hps ▸ hr)
  cases rest with
  | nil =>
    rw [List.append_nil] at hps
    subst hps
    refine ⟨prev, next, ⟨h1, h2, h3⟩, hdone, Fueled.now rfl fun k => ?_⟩
    simp only [pidLoop, hnext, List.head?_nil]
  | cons p rest =>
    have hp : p ∈ ps := by simp [hps]
    have hps' : ps = (done ++ [p]) ++ rest := by simp [hps]
    have hlast : (done ++ [p]).getLast? = some p := by simp
    have hlen : rest.length < ps.length := by simp [hps]; omega
    -- from here on the scan goes on with `done ++ [p]`, or starts anew
    by_cases hhit : pid p = prev
    · have hfp : prev ≠ f := hhit ▸ hfree p hp
      by_cases hwrap : prev + 1 ≥ next
      · obtain ⟨prev₁, hprev₁⟩ :
            ∃ prev₁, prev₁ = if prev + 1 ≥ maxPid then 1 else prev + 1 := ⟨_, rfl⟩
        have hb := pidDist_next hf₀ hf h1 (lt_of_lt_of_le h2 h3) hfp hprev₁
        have hlt : pidDist f prev₁ * (ps.length + 1) + ps.length < n := by
          rw [← hn, ← hb.2.2, Nat.succ_mul]
          omega
        obtain ⟨prev', next', hs', hq, hF⟩ := ih _ hlt (List.nil_append ps).symm
          (⟨hb.1, hb.2.1, le_rfl⟩ : PidSpan prev₁ maxPid) (fun q hq => absurd hq List.not_mem_nil) rfl
        refine ⟨prev', next', hs', hq, hF.succ hlt rfl fun k => ?_⟩
        simp only [pidLoop, hnext, List.head?_cons, if_pos hhit, if_pos hwrap, hprev₁,
          List.getLast?_nil]
      · have hmax : prev + 1 < maxPid := lt_of_lt_of_le (not_le.1 hwrap) h3
        have hb := (pidDist_next hf₀ hf h1 (by omega) hfp (if_neg (not_le.2 hmax)).symm).2.2
        have hlt : pidDist f (prev + 1) * (ps.length + 1) + rest.length < n := by
          rw [← hn, ← hb, Nat.succ_mul, List.length_cons]
          omega
        have hdone' : ∀ q ∈ done ++ [p], ¬(prev + 1 ≤ pid q ∧ pid q < next) := by
          intro q hq
          rcases List.mem_append.1 hq with hq | hq
          · have := hdone q hq
            omega
          · rw [List.mem_singleton.1 hq]
            omega
        obtain ⟨prev', next', hs', hq, hF⟩ := ih _ hlt hps' ⟨by omega, by omega, h3⟩ hdone' rfl
        rw [hlast] at hF
        refine ⟨prev', next', hs', hq, hF.succ hlt rfl fun k => ?_⟩
        simp only [pidLoop, hnext, List.head?_cons, if_pos hhit, if_neg hwrap]
    · have hlt : pidDist f prev * (ps.length + 1) + rest.length < n := by
        rw [← hn, List.length_cons]
        omega
      by_cases hin : prev < pid p ∧ pid p < next
      · have hdone' : ∀ q ∈ done ++ [p], ¬(prev ≤ pid q ∧ pid q < pid p) := by
          intro q hq
          rcases List.mem_append.1 hq with hq | hq
          · have := hdone q hq
            omega
          · rw [List.mem_singleton.1 hq]
            omega
        obtain ⟨prev', next', hs', hq, hF⟩ := ih _ hlt hps' ⟨h1, hin.1, by omega⟩ hdone' rfl
        rw [hlast] at hF
        refine ⟨prev', next', hs', hq, hF.succ hlt rfl fun k => ?_⟩
        simp only [pidLoop, hnext, List.head?_cons, if_neg hhit, if_pos hin]
      · have hdone' : ∀ q ∈ done ++ [p], ¬(prev ≤ pid q ∧ pid q < next) := by
          intro q hq
          rcases List.mem_append.1 hq with hq | hq
          · exact hdone q hq
          · rw [List.mem_singleton.1 hq]
            omega
        obtain ⟨prev', next', hs', hq, hF⟩ := ih _ hlt hps' ⟨h1, h2, h3⟩ hdone' rfl
        rw [hlast] at hF
        refine ⟨prev', next', hs', hq, hF.succ hlt rfl fun k => ?_⟩
        simp only [pidLoop, hnext, List.head?_cons, if_neg hhit, if_neg hin]

/-! ### `alloc_pid` -/

/-- The two variables of `alloc_pid`, and the interval between them that holds no pid of a listed
process. -/
structure PidsOk (T : ProcTable π) (ps : List π) : Prop where
  pos : 1 ≤ T.prevPid
  prev_le : T.prevPid ≤ maxPid
  next_le : T.nextPid ≤ maxPid
  gap : ∀ p ∈ ps, ¬(T.prevPid < T.pid p ∧ T.pid p < T.nextPid)

/-- As long as the list is not full some pid is not in use. -/
theorem exists_free {ps : List π} (pid : π → ℤ) (h : ps.length + 2 ≤ maxPid) :
    ∃ f, 1 ≤ f ∧ f < maxPid ∧ ∀ p ∈ ps, pid p ≠ f := by
  classical
  by_contra hno
  push Not at hno
  have hsub : Finset.Ico 1 maxPid ⊆ (ps.map pid).toFinset := by
    intro f hf
    obtain ⟨h1, h2⟩ := Finset.mem_Ico.1 hf
    obtain ⟨p, hp, he⟩ := hno f h1 h2
    exact List.mem_toFinset.2 (List.mem_map.2 ⟨p, hp, he⟩)
  have h1 := Finset.card_le_card hsub
  have h2 := List.toFinset_card_le (ps.map pid)
  rw [Int.card_Ico, maxPid_eq] at h1
  rw [List.length_map] at h2
  rw [maxPid_eq] at h
  omega

/-- **`alloc_pid`** ends and returns a pid that no listed process has. -/
theorem PidsOk.allocPid {ps : List π} (h : T.PidsOk ps) (hl : T.Lists ps)
    (hroom : ps.length + 2 ≤ maxPid) :
    ∃ n pid next, Fueled n (fun k => T.allocPid k)
        (.ok ({ T with prevPid := pid, nextPid := next }, pid)) ∧
      1 ≤ pid ∧ pid < maxPid ∧ (∀ p ∈ ps, T.pid p ≠ pid) ∧
      ({ T with prevPid := pid, nextPid := next } : ProcTable π).PidsOk ps := by
  obtain ⟨prev, hprev⟩ : ∃ prev, prev = if T.prevPid + 1 ≥ maxPid then 1 else T.prevPid + 1 :=
    ⟨_, rfl⟩
  obtain ⟨h1, h2, h3, h4⟩ := h
  have hb : 1 ≤ prev ∧ prev < maxPid := by
    rw [hprev]
    rw [maxPid_eq] at h2 ⊢
    split_ifs <;> omega
  by_cases hscan : prev ≥ T.nextPid ∨ prev = 1
  · obtain ⟨f, hf₀, hf, hfree⟩ := exists_free T.pid hroom
    obtain ⟨pid, next, ⟨hs1, hs2, hs3⟩, hq, hF⟩ := pidLoop_spec hl hf₀ hf hfree
      (List.nil_append ps).symm (⟨hb.1, hb.2, le_rfl⟩ : PidSpan prev maxPid)
      (fun q hq => absurd hq List.not_mem_nil) rfl
    have hcall : Fueled (pidDist f prev * (ps.length + 1) + ps.length) (fun k => T.allocPid k)
        (.ok ({ T with prevPid := pid, nextPid := next }, pid)) := by
      simp only [ProcTable.allocPid, ← hprev, if_pos hscan]
      exact hF.bind fun r => .ok ({ T with prevPid := r.1, nextPid := r.2 }, r.1)
    refine ⟨_, pid, next, hcall, hs1, by omega, fun p hp he => ?_, ⟨hs1, ?_, hs3, fun p hp => ?_⟩⟩
    · have := hq p hp
      omega
    · exact le_of_lt (lt_of_lt_of_le hs2 hs3)
    · have := hq p hp
      show ¬(pid < T.pid p ∧ T.pid p < next)
      omega
  · -- the interval is not used up, and `prev_pid` has only moved inside it
    push Not at hscan
    have hstep : prev = T.prevPid + 1 := by
      rw [maxPid_eq] at hprev
      split_ifs at hprev
      · omega
      · exact hprev
    refine ⟨0, prev, T.nextPid, fun k => Or.inl ?_, hb.1, hb.2, fun p hp he => ?_,
      ⟨hb.1, hb.2.le, h3, fun p hp => ?_⟩⟩
    · simp only [ProcTable.allocPid, ← hprev, if_neg (not_or.2 ⟨not_le.2 hscan.1, hscan.2⟩)]
    · have := h4 p hp
      omega
    · have := h4 p hp
      show ¬(prev < T.pid p ∧ T.pid p < T.nextPid)
      omega

/-! ### Runs -/

section

variable [DecidableEq π]

/-- A process is linked in front of the list. -/
theorem Lists.add {ps : List π} {proc : π} (h : T.Lists ps) (hproc : proc ∉ ps) :
    Ring (T.procList.addList none (T.procList.next none) (some proc)) none
      ((proc :: ps).map some) := by
  have hr : Ring T.procList none ([] ++ ps.map some) := h
  rw [Ring.next_head h]
  exact hr.insert (by simpa using hproc)

/-- A process is unlinked. -/
theorem Lists.del {ps : List π} {proc : π} (h : T.Lists ps) (hproc : proc ∈ ps) :
    Ring (T.procList.delList (some proc)) none ((ps.erase proc).map some) := by
  obtain ⟨as, bs, rfl⟩ := List.append_of_mem hproc
  have hn : proc ∉ as := fun hmem =>
    (List.nodup_append.1 h.nodup).2.2 proc hmem proc List.mem_cons_self rfl
  rw [List.erase_append_right _ hn, List.erase_cons_head, List.map_append]
  refine Ring.remove (e := some proc) ?_
  simpa only [Lists, List.map_append, List.map_cons] using h

/-- Initialising a link outside the list. -/
theorem Lists.initList {ps : List π} {proc : π} (h : T.Lists ps) (hproc : proc ∉ ps) :
    Ring (T.procList.initList (some proc)) none (ps.map some) := by
  have hne : ∀ a ∈ none :: ps.map some, a ≠ some proc := by
    rintro a ha rfl
    simp only [List.mem_cons, List.mem_map, reduceCtorEq, Option.some.injEq, exists_eq_right,
      false_or] at ha
    exact hproc ha
  refine Ring.congr h (fun a ha => ?_) fun a ha => ?_
  · simp [Links.initList, hne a ha]
  · simp [Links.initList, hne a ha]

/-- What `set_links` leaves alone. -/
theorem setLinks_ok {T' : ProcTable π} {proc : π} (h : T.setLinks proc = .ok T') :
    T'.procList = T.procList.addList none (T.procList.next none) (some proc) ∧ T'.pid = T.pid ∧
      T'.prevPid = T.prevPid ∧ T'.nextPid = T.nextPid := by
  obtain ⟨parent, -, h⟩ := bind_eq_ok.1 h
  cases h
  simp only [setYoungerOf]
  split <;> exact ⟨rfl, rfl, rfl, rfl⟩

/-- What `remove_links` leaves alone. -/
theorem removeLinks_ok {T' : ProcTable π} {proc : π} (h : T.removeLinks proc = .ok T') :
    T'.procList = T.procList.delList (some proc) ∧ T'.pid = T.pid ∧
      T'.prevPid = T.prevPid ∧ T'.nextPid = T.nextPid := by
  have hyo : ∀ (T : ProcTable π) (q p : Option π), (T.setYoungerOf q p).procList = T.procList ∧
      (T.setYoungerOf q p).pid = T.pid ∧ (T.setYoungerOf q p).prevPid = T.prevPid ∧
      (T.setYoungerOf q p).nextPid = T.nextPid := by
    intro T q p
    cases q <;> exact ⟨rfl, rfl, rfl, rfl⟩
  simp only [removeLinks] at h
  split at h
  · cases h
    exact hyo _ _ _
  · obtain ⟨parent, -, h⟩ := bind_eq_ok.1 h
    cases h
    exact hyo _ _ _

/-- The creations and reapings of processes. -/
inductive PidOp (π : Type)
  /-- A new process `proc` with the parent `parent`. -/
  | create (proc parent : π)
  /-- The process `proc` is reaped. -/
  | reap (proc : π)

/-- The effect of an operation on the process set, the loop of `alloc_pid` being given `k`
rounds. -/
def PidOp.exec (k : ℕ) (T : ProcTable π) : PidOp π → Res (ProcTable π)
  | .create proc parent => ((T.allocProc proc).setParent proc (some parent)).enterProc k proc
  | .reap proc => T.removeLinks proc

/-- The structure of a new process is not in the list, that of a reaped one is. -/
def PidOp.Enabled (T : ProcTable π) : PidOp π → Prop
  | .create proc _ => ∀ ps, T.Lists ps → proc ∉ ps
  | .reap proc => ∃ ps, T.Lists ps ∧ proc ∈ ps

/-- Processes are created and reaped, starting with an empty list. -/
def pidSystem (π : Type) [DecidableEq π] : System (ProcTable π) (PidOp π) where
  init T := T.Lists [] ∧ T.prevPid = maxPid ∧ T.nextPid = maxPid
  step T op T' := op.Enabled T ∧ ∃ k, op.exec k T = .ok T'

/-- A process is created only when at most `MAX_PID - 2` processes are in the list. -/
def Roomy (T : ProcTable π) : PidOp π → Prop
  | .create _ _ => ∀ ps, T.Lists ps → ps.length ≤ maxPid - 2
  | .reap _ => True

omit [DecidableEq π] in
/-- The scan of `alloc_pid` reads only the list and the pids in it. -/
theorem PidsOk.congr {T' : ProcTable π} {ps : List π} (h : T.PidsOk ps)
    (hpid : ∀ p ∈ ps, T'.pid p = T.pid p) (hprev : T'.prevPid = T.prevPid)
    (hnext : T'.nextPid = T.nextPid) : T'.PidsOk ps := by
  refine ⟨hprev ▸ h.pos, hprev ▸ h.prev_le, hnext ▸ h.next_le, fun p hp => ?_⟩
  rw [hprev, hnext, hpid p hp]
  exact h.gap p hp

/-- A new process keeps the interval free of pids: its own pid is the lower end. -/
theorem PidsOk.enterProc {T' : ProcTable π} {ps : List π} {proc : π} {k : ℕ} (h : T.PidsOk ps)
    (hl : T.Lists ps) (hproc : proc ∉ ps) (hroom : ps.length + 2 ≤ maxPid)
    (he : T.enterProc k proc = .ok T') : T'.PidsOk (proc :: ps) ∧ T'.Lists (proc :: ps) := by
  obtain ⟨n, pid, next, hF, -, -, -, h⟩ := h.allocPid hl hroom
  obtain ⟨⟨T₁, pid₁⟩, ha, he⟩ := bind_eq_ok.1 he
  have ha' := hF.of_ok ha
  rw [Except.ok.injEq, Prod.mk.injEq] at ha'
  obtain ⟨rfl, rfl⟩ := ha'
  obtain ⟨h1, h2, h3, h4⟩ := setLinks_ok he
  refine ⟨⟨h3 ▸ h.pos, h3 ▸ h.prev_le, h4 ▸ h.next_le, fun p hp => ?_⟩, ?_⟩
  · rw [h2, h3, h4]
    by_cases hpp : p = proc
    · subst hpp
      simp [setPid]
    · simp only [setPid, Function.update_of_ne hpp]
      exact h.gap p (List.mem_of_ne_of_mem hpp hp)
  · rw [Lists, h1]
    exact Lists.add hl hproc

/-- One operation. -/
theorem PidsOk.step {T' : ProcTable π} {ps : List π} {op : PidOp π} (h : T.PidsOk ps)
    (hl : T.Lists ps) (hroom : Roomy T op) (hs : (pidSystem π).step T op T') :
    ∃ ps', T'.PidsOk ps' ∧ T'.Lists ps' := by
  obtain ⟨hen, k, he⟩ := hs
  cases op with
  | create proc parent =>
    have hproc := hen ps hl
    have hlen := hroom ps hl
    have hne : ∀ p ∈ ps, p ≠ proc := fun p hp he => hproc (he ▸ hp)
    obtain ⟨T₁, hT₁⟩ : ∃ T₁, T₁ = (T.allocProc proc).setParent proc (some parent) := ⟨_, rfl⟩
    have hok : T₁.PidsOk ps := by
      subst hT₁
      exact h.congr (fun p hp => Function.update_of_ne (hne p hp) _ _) rfl rfl
    have hl₁ : T₁.Lists ps := by
      subst hT₁
      exact Lists.initList hl hproc
    rw [PidOp.exec, ← hT₁] at he
    exact ⟨_, hok.enterProc hl₁ hproc (by omega) he⟩
  | reap proc =>
    obtain ⟨qs, hq, hproc⟩ := hen
    obtain rfl := Lists.unique hl hq
    obtain ⟨h1, h2, h3, h4⟩ := removeLinks_ok he
    refine ⟨ps.erase proc, ⟨h3 ▸ h.pos, h3 ▸ h.prev_le, h4 ▸ h.next_le, fun p hp => ?_⟩, ?_⟩
    · rw [h2, h3, h4]
      exact h.gap p (List.mem_of_mem_erase hp)
    · rw [Lists, h1]
      exact Lists.del hl hproc

end

end ProcTable

open ProcTable

/-- **Pids are fresh.**  In every state that creations and reapings lead to, no listed process has
a pid strictly between the two variables of `alloc_pid`; and while the list has room a call of
`alloc_pid` ends, returns a pid between `1` and `MAX_PID - 1` that no listed process has, and keeps
the interval between the two variables free of pids. -/
theorem alloc_pid_fresh {π : Type} [DecidableEq π] {T : ProcTable π}
    (h : ((pidSystem π).guard Roomy).Reachable T) :
    ∃ ps, T.Lists ps ∧ (∀ p ∈ ps, ¬(T.prevPid < T.pid p ∧ T.pid p < T.nextPid)) ∧
      (ps.length ≤ maxPid - 2 → ∃ n T' pid, (∀ k, n < k → T.allocPid k = .ok (T', pid)) ∧
        1 ≤ pid ∧ pid < maxPid ∧ (∀ p ∈ ps, T.pid p ≠ pid) ∧ T'.Lists ps ∧
        ∀ p ∈ ps, ¬(T'.prevPid < T'.pid p ∧ T'.pid p < T'.nextPid)) := by
  obtain ⟨ps, hok, hl⟩ := h.invariant (I := fun T => ∃ ps, T.PidsOk ps ∧ T.Lists ps)
    (fun T hT => ⟨[], ⟨by simp [hT.2.1], hT.2.1.le, hT.2.2.le, by simp⟩, hT.1⟩)
    fun T op T' ⟨ps, hok, hl⟩ hs => hok.step hl hs.1 hs.2
  refine ⟨ps, hl, hok.gap, fun hroom => ?_⟩
  obtain ⟨n, pid, next, hF, h1, h2, h3, hok'⟩ := hok.allocPid hl (by omega)
  exact ⟨n, _, pid, fun k hk => hF.of_lt hk, h1, h2, h3, hl, hok'.gap⟩

/-- The call after the creation of a first process. -/
theorem alloc_pid_fresh_second : ∃ T : ProcTable ℕ, T.Lists [7] ∧ T.pid 7 = 1 ∧
    ∃ n T' pid, (∀ k, n < k → T.allocPid k = .ok (T', pid)) ∧ 1 ≤ pid ∧ pid < maxPid ∧ pid ≠ 1 := by
  obtain ⟨T₀, hT₀⟩ : ∃ T₀ : ProcTable ℕ, T₀ = ⟨⟨id, id⟩, fun _ => 0, fun _ => none, fun _ => none,
    fun _ => none, fun _ => none, 1, maxPid, maxPid⟩ := ⟨_, rfl⟩
  have hl₀ : T₀.Lists [] := by
    subst hT₀
    exact ⟨by simp [Links.Linked], by simp⟩
  have h₀ : ((pidSystem ℕ).guard Roomy).Reachable T₀ := .start (by subst hT₀; exact ⟨hl₀, rfl, rfl⟩)
  have hempty : ∀ ps, T₀.Lists ps → ps = [] := fun ps hps => Lists.unique hps hl₀
  obtain ⟨T₁, hT₁, hpid, hlist⟩ : ∃ T₁, (PidOp.create 7 0).exec 1 T₀ = .ok T₁ ∧ T₁.pid 7 = 1 ∧
      T₁.procList = (T₀.procList.initList (some 7)).addList none none (some 7) := by
    subst hT₀
    exact ⟨_, rfl, rfl, rfl⟩
  have hroomy : Roomy T₀ (.create 7 0) := by
    intro ps hps
    rw [hempty ps hps]
    decide
  have hen : (PidOp.create 7 0).Enabled T₀ := by
    intro ps hps
    rw [hempty ps hps]
    exact List.not_mem_nil
  have h₁ : ((pidSystem ℕ).guard Roomy).Reachable T₁ := h₀.step ⟨hroomy, hen, 1, hT₁⟩
  have hl₁ : T₁.Lists [7] := by
    subst hT₀
    rw [ProcTable.Lists, hlist]
    refine ⟨?_, by simp⟩
    simp [Links.Linked, Links.addList, Links.initList]
  obtain ⟨ps, hl, -, hfresh⟩ := alloc_pid_fresh h₁
  obtain rfl := Lists.unique hl hl₁
  obtain ⟨n, T', pid, hcall, h1, h2, h3, -⟩ := hfresh (by decide)
  exact ⟨T₁, hl₁, hpid, n, T', pid, hcall, h1, h2, fun he => h3 7 (by simp) (hpid.trans he.symm)⟩

end GarretOS
