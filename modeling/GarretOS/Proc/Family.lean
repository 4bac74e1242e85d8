import GarretOS.Forest.Basic
import GarretOS.Proc.Pid

/-!
# The process tree

`TableOk T U idle ps young kids` says that the process set `T` describes the processes `U`: the
list `g_proc_list` holds all of them but `idle`, their pids are different, and they form a tree
below `idle` in which `kids p` are the children of `p`.

* `TableOk.enterProc`, `TableOk.removeLinks` : a process is entered into the set and taken out;
* `TableOk.handOver` : a round of the loop of `do_exit`.
-/

namespace GarretOS

namespace ProcTable

variable {π : Type} {T T' : ProcTable π} {U : Set π} {idle : π} {ps : List π} {young : π → Option π}
  {kids : π → List π} {proc p r : π}

/-- The links of the process tree. -/
def forest (T : ProcTable π) : Forest π := ⟨T.parent, T.child, T.younger, T.older⟩

/-- The process set describes the processes `U`. -/
structure TableOk (T : ProcTable π) (U : Set π) (idle : π) (ps : List π) (young : π → Option π)
    (kids : π → List π) : Prop where
  lists : T.Lists ps
  mem : ∀ p, p ∈ ps ↔ p ∈ U ∧ p ≠ idle
  idle_mem : idle ∈ U
  num : T.numProc = ps.length + 1
  room : ps.length ≤ maxProcess + 1
  pids : T.PidsOk ps
  pid_pos : ∀ p ∈ ps, 1 ≤ T.pid p ∧ T.pid p < maxPid
  pid_inj : ∀ p ∈ ps, ∀ q ∈ ps, T.pid p = T.pid q → p = q
  kin : T.forest.Kin young U kids
  root : T.parent idle = none
  descends : ∀ p ∈ U, T.forest.Descends idle p

namespace TableOk

/-- Every process except `idle` has a parent. -/
theorem exists_parent (h : T.TableOk U idle ps young kids) (hp : p ∈ U) (hne : p ≠ idle) :
    ∃ q ∈ U, T.parent p = some q := by
  obtain ⟨q, hq, -⟩ := (h.descends p hp).parent hne
  exact ⟨q, h.kin.parent p hp q hq, hq⟩

/-- There are not more processes than pids. -/
theorem few (h : T.TableOk U idle ps young kids) {l : List π} (hl : l.Nodup)
    (hlU : ∀ p ∈ l, p ∈ U ∧ p ≠ idle) : l.length ≤ maxProcess + 1 :=
  (((List.subperm_of_subset hl fun p hp => (h.mem p).2 (hlU p hp)).length_le)).trans h.room

/-- Only the fields of the processes matter. -/
theorem congr (h : T.TableOk U idle ps young kids) (hlists : T'.Lists ps)
    (hnum : T'.numProc = T.numProc) (hprev : T'.prevPid = T.prevPid)
    (hnext : T'.nextPid = T.nextPid) (hpid : ∀ p ∈ U, T'.pid p = T.pid p)
    (hforest : ∀ p ∈ U, T'.parent p = T.parent p ∧ T'.child p = T.child p ∧
      T'.younger p = T.younger p ∧ T'.older p = T.older p) :
    T'.TableOk U idle ps young kids := by
  have hps : ∀ p ∈ ps, T'.pid p = T.pid p := fun p hp => hpid p ((h.mem p).1 hp).1
  refine ⟨hlists, h.mem, h.idle_mem, hnum.trans h.num, h.room, h.pids.congr hps hprev hnext,
    fun p hp => ?_, fun p hp q hq he => ?_, ?_, ?_, fun p hp => ?_⟩
  · rw [hps p hp]
    exact h.pid_pos p hp
  · rw [hps p hp, hps q hq] at he
    exact h.pid_inj p hp q hq he
  · exact h.kin.congr (fun x hx => (hforest x hx).1) (fun x hx => (hforest x hx).2.1)
      (fun x hx => (hforest x hx).2.2.1) fun x hx => (hforest x hx).2.2.2
  · rw [(hforest idle h.idle_mem).1]
    exact h.root
  · exact (h.descends p hp).move h.kin.parent
      (fun a ha b hab => Or.inl ((hforest a ha).1.trans hab)) hp

variable [DecidableEq π]

/-- A new structure is not yet a process. -/
theorem allocProc (h : T.TableOk U idle ps young kids) (hproc : proc ∉ U) (o : Option π) :
    ((T.allocProc proc).setParent proc o).TableOk U idle ps young kids := by
  have hne : ∀ p ∈ U, p ≠ proc := fun p hp he => hproc (he ▸ hp)
  refine h.congr (Lists.initList h.lists fun hm => hproc ((h.mem proc).1 hm).1) rfl rfl rfl
    (fun p hp => ?_) fun p hp => ?_
  · exact Function.update_of_ne (hne p hp) _ _
  · simp [ProcTable.allocProc, setParent, setChild, setYounger, setOlder, setPid, hne p hp]

end TableOk

/-- The loop of `get_proc` finds the process with a pid, if there is one. -/
theorem getLoop_ok {pid : ℤ} {k : ℕ} (done : List π) {rest : List π} {o : Option π}
    (hl : T.Lists (done ++ rest)) (h : T.getLoop pid k done.getLast? = .ok o) :
    (∀ p, o = some p → p ∈ rest ∧ T.pid p = pid) ∧ (o = none → ∀ p ∈ rest, T.pid p ≠ pid) := by
  induction k generalizing done rest with
  | zero => cases h
  | succ k ih =>
    rw [getLoop, next_getLast? hl] at h
    cases rest with
    | nil =>
      cases h
      exact ⟨nofun, fun _ => nofun⟩
    | cons q rest =>
      simp only [List.head?_cons] at h
      split_ifs at h with hq
      · cases h
        exact ⟨fun p hp => by simpa [← Option.some.inj hp] using hq, nofun⟩
      · have hl' : T.Lists ((done ++ [q]) ++ rest) := by simpa using hl
        obtain ⟨h1, h2⟩ := ih (done ++ [q]) hl' (by simpa using h)
        refine ⟨fun p hp => ⟨List.mem_cons_of_mem q (h1 p hp).1, (h1 p hp).2⟩, fun hn p hp => ?_⟩
        rcases List.mem_cons.1 hp with rfl | hp
        · exact hq
        · exact h2 hn p hp

/-- **`get_proc`** -/
theorem TableOk.getProc (h : T.TableOk U idle ps young kids) {pid : ℤ} {k : ℕ} {o : Option π}
    (hg : T.getProc k pid = .ok o) :
    (∀ p, o = some p → p ∈ ps ∧ T.pid p = pid) ∧ (o = none → ∀ p ∈ ps, T.pid p ≠ pid) := by
  unfold ProcTable.getProc at hg
  split_ifs at hg with hpid
  · exact getLoop_ok [] h.lists hg
  · cases hg
    refine ⟨nofun, fun _ p hp he => hpid ?_⟩
    obtain ⟨h1, h2⟩ := h.pid_pos p hp
    omega

/-! ### `set_links` and `remove_links` -/

variable [DecidableEq π]

theorem setYoungerOf_eq (q o : Option π) : T.setYoungerOf q o =
    { T with younger := fun x => if q = some x then o else T.younger x } := by
  cases q with
  | none => simp [setYoungerOf]
  | some q =>
    have : Function.update T.younger q o = fun x => if some q = some x then o else T.younger x := by
      funext x
      simp [Function.update_apply, eq_comm]
    rw [setYoungerOf, setYounger, this]

/-- **`set_links`** makes the process the first child of its parent. -/
theorem setLinks_forest (hp : T.parent proc = some p) (h : T.setLinks proc = .ok T') :
    T'.forest = T.forest.attach proc p ∧ T'.numProc = u32 (T.numProc + 1) := by
  have hparent : ∀ x, (if x = proc then some p else T.parent x) = T.parent x := by
    intro x
    by_cases hx : x = proc
    · rw [if_pos hx, hx, hp]
    · rw [if_neg hx]
  simp only [setLinks, setYoungerOf_eq, setYounger, setOlder, setChild, hp, deref_some, ok_bind,
    pure, Except.pure, Function.update_self, Except.ok.injEq] at h
  subst h
  refine ⟨Forest.ext ?_ ?_ ?_ ?_, rfl⟩
  · funext x
    exact (hparent x).symm
  · funext x
    exact Function.update_apply _ _ _ _
  · funext x
    show (if T.child p = some x then some proc else Function.update T.younger proc none x) =
      if T.child p = some x then some proc else if x = proc then none else T.younger x
    rw [Function.update_apply]
  · funext x
    exact Function.update_apply _ _ _ _

/-- **`remove_links`** takes the process out of the tree. -/
theorem removeLinks_forest (hp : T.parent proc = some p) (ho : T.older proc ≠ some proc)
    (h : T.removeLinks proc = .ok T') :
    T'.forest = T.forest.detach proc p ∧ T'.numProc = u32 (T.numProc + 2 ^ 32 - 1) := by
  simp only [removeLinks, setYoungerOf_eq, if_neg ho, hp] at h
  cases hy : T.younger proc with
  | none =>
    simp only [hy, deref_some, setChild, ok_bind, pure, Except.pure, Except.ok.injEq] at h
    subst h
    refine ⟨Forest.ext rfl ?_ ?_ ?_, rfl⟩
    · funext x
      simp [forest, Forest.detach, hy, Function.update_apply]
    · funext x
      simp [forest, Forest.detach, hy]
    · funext x
      simp [forest, Forest.detach, hy]
  | some y =>
    simp only [hy, setOlder, ok_bind] at h
    cases h
    refine ⟨Forest.ext rfl ?_ ?_ ?_, rfl⟩
    · funext x
      simp [forest, Forest.detach, hy]
    · funext x
      simp [forest, Forest.detach, hy]
    · funext x
      simp [forest, Forest.detach, hy, Function.update_apply, eq_comm]

namespace TableOk

/-- **`do_fork`** enters a new process whose parent is `p`. -/
theorem enterProc (h : T.TableOk U idle ps (fun _ => none) kids) {k : ℕ} (hproc : proc ∉ U)
    (hp : p ∈ U) (hparent : T.parent proc = some p) (hchild : T.child proc = none)
    (hroom : T.numProc ≤ maxProcess) (he : T.enterProc k proc = .ok T') :
    T'.TableOk (insert proc U) idle (proc :: ps) (fun _ => none)
        (Function.update kids p (proc :: kids p)) ∧
      (∀ x, T'.parent x = T.parent x) ∧ (∀ x, x ≠ proc → T'.pid x = T.pid x) := by
  have hne : ∀ x ∈ U, x ≠ proc := fun x hx he => hproc (he ▸ hx)
  have hps : proc ∉ ps := fun hm => hproc ((h.mem proc).1 hm).1
  have hlen : ps.length + 1 ≤ maxProcess := h.num ▸ hroom
  have hlt : maxProcess + 2 ≤ maxPid := by decide
  have hfit : (ps.length : ℤ) + 2 ≤ maxPid := by
    omega
  obtain ⟨hpids, hlists⟩ := h.pids.enterProc h.lists hps hfit he
  obtain ⟨n, pid, next, hF, hpid1, hpid2, hfresh, -⟩ := h.pids.allocPid h.lists hfit
  obtain ⟨⟨T₁, pid₁⟩, ha, he⟩ := bind_eq_ok.1 he
  obtain ⟨rfl, rfl⟩ := Prod.mk.inj (Except.ok.inj (hF.of_ok ha))
  have hparent' : (({ T with prevPid := pid, nextPid := next } : ProcTable π).setPid proc
      pid).parent proc = some p := hparent
  obtain ⟨hforest, hnum⟩ := setLinks_forest hparent' he
  obtain ⟨-, hpid, -, -⟩ := setLinks_ok he
  have hpid' : ∀ x, T'.pid x = if x = proc then pid else T.pid x := by
    intro x
    rw [hpid]
    exact Function.update_apply _ _ _ _
  -- `set_links` does not change the parents, which `do_fork` has set before
  have hpar : ∀ x, T'.parent x = T.parent x := by
    intro x
    have := congrArg (fun F => Forest.parent F x) hforest
    simp only [forest, Forest.attach] at this
    rw [this]
    by_cases hx : x = proc
    · rw [if_pos hx, hx]
      exact hparent.symm
    · rw [if_neg hx]
      rfl
  refine ⟨⟨hlists, fun x => ?_, Or.inr h.idle_mem, ?_, by simpa using by omega, hpids,
    fun x hx => ?_, fun x hx y hy hxy => ?_, ?_, ?_, fun x hx => ?_⟩, hpar, fun x hx => ?_⟩
  · rw [List.mem_cons, h.mem]
    have : x = proc → x ≠ idle := by
      rintro rfl
      exact (hne idle h.idle_mem).symm
    constructor
    · rintro (hx | hx)
      · exact ⟨Or.inl hx, this hx⟩
      · exact ⟨Or.inr hx.1, hx.2⟩
    · rintro ⟨hx | hx, hxi⟩
      · exact Or.inl hx
      · exact Or.inr ⟨hx, hxi⟩
  · rw [hnum]
    simp only [setPid, h.num, List.length_cons]
    rw [u32_of_lt]
    have : maxProcess = 4096 := rfl
    omega
  · rw [hpid']
    rcases List.mem_cons.1 hx with rfl | hx
    · rw [if_pos rfl]
      exact ⟨hpid1, hpid2⟩
    · rw [if_neg (hne x ((h.mem x).1 hx).1)]
      exact h.pid_pos x hx
  · -- the pid of the new process is not the pid of an old one
    rw [hpid', hpid'] at hxy
    rcases List.mem_cons.1 hx with hx | hx
    · rcases List.mem_cons.1 hy with hy | hy
      · rw [hx, hy]
      · rw [if_pos hx, if_neg (hne y ((h.mem y).1 hy).1)] at hxy
        exact absurd hxy.symm (hfresh y hy)
    · rw [if_neg (hne x ((h.mem x).1 hx).1)] at hxy
      rcases List.mem_cons.1 hy with hy | hy
      · rw [if_pos hy] at hxy
        exact absurd hxy (hfresh x hx)
      · rw [if_neg (hne y ((h.mem y).1 hy).1)] at hxy
        exact h.pid_inj x hx y hy hxy
  · rw [hforest]
    have hkin := h.kin.attach_new hp hproc hchild
    rw [Function.update_eq_self] at hkin
    exact hkin
  · rw [hpar]
    exact h.root
  · have hmove : ∀ x ∈ U, T'.forest.Descends idle x := fun x hx =>
      (h.descends x hx).move h.kin.parent (fun a _ b hab => Or.inl ((hpar a).trans hab)) hx
    rcases hx with rfl | hx
    · exact (hmove p hp).head ((hpar x).trans hparent)
    · exact hmove x hx
  · rw [hpid', if_neg hx]

/-- **`remove_links`** of a process without children. -/
theorem removeLinks (h : T.TableOk U idle ps (fun _ => none) kids) (hproc : proc ∈ ps)
    (hparent : T.parent proc = some p) (hnil : kids proc = [])
    (he : T.removeLinks proc = .ok T') :
    T'.TableOk (U \ {proc}) idle (ps.erase proc) (fun _ => none)
        (Function.update kids p ((kids p).erase proc)) ∧
      T'.parent = T.parent ∧ T'.pid = T.pid := by
  obtain ⟨hprocU, hidle⟩ := (h.mem proc).1 hproc
  obtain ⟨hlist, hpid, hprev, hnext⟩ := removeLinks_ok he
  have holder : T.older proc ≠ some proc := by
    intro ho
    have hm := (h.kin.mem p proc).2 ⟨hprocU, hparent⟩
    obtain ⟨as, bs, hk⟩ := List.append_of_mem hm
    have hs := hk ▸ h.kin.siblings p (h.kin.parent proc hprocU p hparent)
    have hb : proc ∈ bs := List.mem_of_head? (hs.links.1.symm.trans ho)
    have hn := (List.nodup_append.1 (hk ▸ h.kin.nodup p)).2.1
    exact (List.nodup_cons.1 hn).1 hb
  obtain ⟨hforest, hnum⟩ := removeLinks_forest hparent holder he
  have hpar : T'.parent = T.parent := congrArg Forest.parent hforest
  have hmem : ∀ x, x ∈ ps.erase proc ↔ x ≠ proc ∧ x ∈ ps := fun x => h.lists.nodup.mem_erase_iff
  refine ⟨⟨?_, fun x => ?_, ⟨h.idle_mem, fun he => hidle he.symm⟩, ?_, ?_, ?_, fun x hx => ?_,
    fun x hx y hy hxy => ?_, ?_, ?_, fun x hx => ?_⟩, hpar, hpid⟩
  · rw [Lists, hlist]
    exact Lists.del h.lists hproc
  · rw [hmem, h.mem]
    simp only [Set.mem_sdiff, Set.mem_singleton_iff]
    tauto
  · have hlen := h.room
    have hpos := List.length_pos_of_mem hproc
    have : maxProcess = 4096 := rfl
    rw [hnum, h.num, List.length_erase_of_mem hproc, u32]
    omega
  · have := h.room
    rw [List.length_erase_of_mem hproc]
    omega
  · refine ⟨hprev ▸ h.pids.pos, hprev ▸ h.pids.prev_le, hnext ▸ h.pids.next_le, fun x hx => ?_⟩
    rw [hpid, hprev, hnext]
    exact h.pids.gap x (List.mem_of_mem_erase hx)
  · rw [hpid]
    exact h.pid_pos x (List.mem_of_mem_erase hx)
  · rw [hpid] at hxy
    exact h.pid_inj x (List.mem_of_mem_erase hx) y (List.mem_of_mem_erase hy) hxy
  · rw [hforest]
    exact h.kin.detach hparent hprocU rfl hnil
  · rw [hpar]
    exact h.root
  · exact (h.descends x hx.1).move h.kin.parent
      (fun a _ b hab => Or.inl ((congrFun hpar a).trans hab)) hx.1

/-- **A round of the loop of `do_exit`**, of the process `p`: its first child becomes the first
child of `r`. -/
theorem handOver (h : T.TableOk U idle ps young kids) {cs : List π} (hk : kids p = proc :: cs)
    (hr : r ∈ U) (hrp : r ≠ p) (hcr : proc ≠ r) (hroot : T.parent r = some idle)
    (hforest : T'.forest = T.forest.handOver proc p r) (hlist : T'.procList = T.procList)
    (hpid : T'.pid = T.pid) (hnum : T'.numProc = T.numProc) (hprev : T'.prevPid = T.prevPid)
    (hnext : T'.nextPid = T.nextPid) :
    T'.TableOk U idle ps (Function.update (Function.update young p (some proc)) r none)
      (Function.update (Function.update kids p cs) r (proc :: kids r)) ∧
    ∀ x, T'.parent x = if x = proc then some r else T.parent x := by
  have hc := (h.kin.mem p proc).1 (by simp [hk])
  have hpar : ∀ x, T'.parent x = if x = proc then some r else T.parent x := by
    intro x
    have := congrArg (fun F => Forest.parent F x) hforest
    simp only [forest, Forest.handOver, Forest.attach, Forest.release] at this
    rw [this]
    by_cases hx : x = proc
    · rw [if_pos hx, if_pos hx]
    · rw [if_neg hx, if_neg hx, Function.update_of_ne hx]
  have hlists : T'.Lists ps := by
    rw [Lists, hlist]
    exact h.lists
  refine ⟨⟨hlists, h.mem, h.idle_mem, hnum.trans h.num, h.room,
    h.pids.congr (fun x _ => congrFun hpid x) hprev hnext, hpid ▸ h.pid_pos, hpid ▸ h.pid_inj, ?_,
    ?_, fun x hx => ?_⟩, hpar⟩
  · rw [hforest]
    exact h.kin.handOver hk hr hrp hcr
  · have hidle : idle ≠ proc := by
      rintro rfl
      have := h.root
      rw [show T.parent idle = some p from hc.2] at this
      cases this
    rw [hpar, if_neg hidle]
    exact h.root
  · refine (h.descends x hx).move h.kin.parent (fun a _ b hab => ?_) hx
    by_cases ha : a = proc
    · refine Or.inr (.head (b := r) ?_ (.single ?_))
      · show T'.parent a = some r
        rw [hpar, if_pos ha]
      · show T'.parent r = some idle
        rw [hpar, if_neg hcr.symm]
        exact hroot
    · refine Or.inl ?_
      show T'.parent a = some b
      rw [hpar, if_neg ha]
      exact hab

end TableOk

end ProcTable

end GarretOS
