import GarretOS.Proc.VmTable
import Mathlib.Data.Set.Card

/-!
# Sharing address spaces

`VmOk U S` says that the address spaces are in order for the processes `U`, of which those in `S`
have given up theirs and still have the old `p_gpt`: every process uses an address space that is
allocated, `use_count` is the number of processes that use it, and each has a root table of its own.

* `VmOk.newVmm`, `VmOk.copyVmm`, `VmOk.leaveVmm` : the functions of the kernel keep this;
* `VmOk.leaveVmm_released` : the last process that leaves an address space releases it.
-/

namespace GarretOS

namespace VmTable

variable {ν μ ρ : Type} {V V' : VmTable ν μ ρ} {U S : Set ν} {p : ν} {v : μ} {g : ρ}

/-- The processes of `U` that use `vmm`. -/
def users (V : VmTable ν μ ρ) (U : Set ν) (vmm : μ) : Set ν := {p | p ∈ U ∧ V.vmm p = some vmm}

/-- The address spaces of the processes `U`, of which those in `S` have left theirs. -/
structure VmOk (V : VmTable ν μ ρ) (U S : Set ν) : Prop where
  count : ∀ v, V.vmms v = true → V.useCount v = (V.users U v).ncard
  live : ∀ p ∈ U, ∀ v, V.vmm p = some v → V.vmms v = true
  root : ∀ v, V.vmms v = true → ∃ g, V.root v = some g ∧ V.gpts g = true
  root_inj : ∀ v w, V.vmms v = true → V.vmms w = true → V.root v = V.root w → v = w
  pGpt : ∀ p ∈ U, p ∉ S → V.pGpt p = (V.vmm p).bind V.root
  left : ∀ p ∈ U, p ∈ S → V.vmm p = none

/-- Every address space is used by some process of `U`. -/
def Used (V : VmTable ν μ ρ) (U : Set ν) : Prop := ∀ v, V.vmms v = true → (V.users U v).Nonempty

/-- No address space is released, and none gets another root table. -/
def Keeps (V V' : VmTable ν μ ρ) : Prop :=
  ∀ v, V.vmms v = true → V'.vmms v = true ∧ V'.root v = V.root v

theorem Keeps.refl (V : VmTable ν μ ρ) : Keeps V V := fun _ hv => ⟨hv, rfl⟩

theorem users_congr (hvmm : ∀ p ∈ U, V'.vmm p = V.vmm p) (v : μ) : V'.users U v = V.users U v := by
  ext p
  exact and_congr_right fun hp => by rw [hvmm p hp]

theorem Used.congr (h : V.Used U) (hvmm : ∀ p ∈ U, V'.vmm p = V.vmm p)
    (hlive : ∀ v, V'.vmms v = true → V.vmms v = true) : V'.Used U := by
  intro v hv
  rw [users_congr hvmm]
  exact h v (hlive v hv)

namespace VmOk

theorem congr (h : V.VmOk U S) (hvmm : ∀ p ∈ U, V'.vmm p = V.vmm p)
    (hpGpt : ∀ p ∈ U, V'.pGpt p = V.pGpt p) (hvmms : V'.vmms = V.vmms)
    (hcount : ∀ v, V.vmms v = true → V'.useCount v = V.useCount v)
    (hroot : ∀ v, V.vmms v = true → V'.root v = V.root v) (hgpts : V'.gpts = V.gpts) :
    V'.VmOk U S := by
  refine ⟨fun v hv => ?_, fun p hp v hv => ?_, fun v hv => ?_, fun v w hv hw he => ?_,
    fun p hp hpS => ?_, fun p hp hpS => ?_⟩
  · rw [hvmms] at hv
    rw [hcount v hv, users_congr hvmm, h.count v hv]
  · rw [hvmm p hp] at hv
    rw [hvmms]
    exact h.live p hp v hv
  · rw [hvmms] at hv
    rw [hroot v hv, hgpts]
    exact h.root v hv
  · rw [hvmms] at hv hw
    rw [hroot v hv, hroot w hw] at he
    exact h.root_inj v w hv hw he
  · rw [hpGpt p hp, hvmm p hp, h.pGpt p hp hpS]
    cases hv : V.vmm p with
    | none => rfl
    | some v => exact (hroot v (h.live p hp v hv)).symm
  · rw [hvmm p hp]
    exact h.left p hp hpS

/-- The processes that have left their address spaces. -/
theorem stale_congr {S' : Set ν} (h : V.VmOk U S) (hS : ∀ p ∈ U, p ∈ S' ↔ p ∈ S) : V.VmOk U S' :=
  ⟨h.count, h.live, h.root, h.root_inj, fun p hp hpS => h.pGpt p hp fun hm => hpS ((hS p hp).2 hm),
    fun p hp hpS => h.left p hp ((hS p hp).1 hpS)⟩

/-- A process without an address space comes. -/
theorem join (h : V.VmOk U S) (hvmm : V.vmm p = none) (hpGpt : V.pGpt p = none) :
    V.VmOk (insert p U) (S \ {p}) := by
  have husers : ∀ v, V.users (insert p U) v = V.users U v := by
    intro v
    ext q
    refine ⟨fun hq => ⟨hq.1.resolve_left ?_, hq.2⟩, fun hq => ⟨Or.inr hq.1, hq.2⟩⟩
    rintro rfl
    cases hvmm.symm.trans hq.2
  refine ⟨fun v hv => ?_, fun q hq v hv => ?_, h.root, h.root_inj, fun q hq hqS => ?_,
    fun q hq hqS => ?_⟩
  · rw [husers]
    exact h.count v hv
  · rcases hq with rfl | hq
    · cases hvmm.symm.trans hv
    · exact h.live q hq v hv
  · by_cases hqp : q = p
    · rw [hqp, hvmm, hpGpt]
      rfl
    · exact h.pGpt q (hq.resolve_left hqp) fun hm => hqS ⟨hm, hqp⟩
  · exact h.left q (hq.resolve_left hqS.2) hqS.1

/-- A process without an address space goes. -/
theorem depart {W : Set ν} (h : V.VmOk U S) (hW : ∀ q, q ∈ W ↔ q ∈ U ∧ q ≠ p)
    (hvmm : V.vmm p = none) : V.VmOk W S := by
  have husers : ∀ v, V.users W v = V.users U v := by
    intro v
    ext q
    refine ⟨fun hq => ⟨((hW q).1 hq.1).1, hq.2⟩, fun hq => ⟨(hW q).2 ⟨hq.1, ?_⟩, hq.2⟩⟩
    rintro rfl
    cases hvmm.symm.trans hq.2
  exact ⟨fun v hv => (husers v).symm ▸ h.count v hv, fun q hq => h.live q ((hW q).1 hq).1, h.root,
    h.root_inj, fun q hq => h.pGpt q ((hW q).1 hq).1, fun q hq => h.left q ((hW q).1 hq).1⟩

/-- An address space that is not allocated is used by nobody. -/
theorem users_eq_empty (h : V.VmOk U S) (hv : V.vmms v = false) : V.users U v = ∅ := by
  refine Set.eq_empty_iff_forall_notMem.2 fun p hp => ?_
  cases hv.symm.trans (h.live p hp.1 v hp.2)

variable [DecidableEq μ] [DecidableEq ρ]

/-- A new address space with a root table. -/
theorem create (h : V.VmOk U S) (hv : V.vmms v = false) (hg : V.gpts g = false) :
    ((V.initVmm v).allocGpt v g).VmOk U S ∧ Keeps V ((V.initVmm v).allocGpt v g) := by
  have hne : ∀ w, V.vmms w = true → w ≠ v := by
    rintro w hw rfl
    cases hv.symm.trans hw
  have hroot : ∀ w, V.vmms w = true →
      ((V.initVmm v).allocGpt v g).root w = V.root w := by
    intro w hw
    simp [initVmm, allocGpt, hne w hw]
  have hself : ((V.initVmm v).allocGpt v g).root v = some g := Function.update_self _ _ _
  have hother : ∀ w, w ≠ v → ((V.initVmm v).allocGpt v g).vmms w = true → V.vmms w = true := by
    intro w hw hlive
    simpa [initVmm, allocGpt, hw] using hlive
  -- `g` was not a live root, so the roots stay distinct
  have hdiff : ∀ w, V.vmms w = true → V.root w ≠ some g := by
    intro w hw he
    obtain ⟨g', hg', hlive⟩ := h.root w hw
    rw [he] at hg'
    obtain rfl := Option.some.inj hg'
    cases hg.symm.trans hlive
  refine ⟨⟨fun w hw => ?_, fun p hp w hw => ?_, fun w hw => ?_, fun w w' hw hw' he => ?_,
    fun p hp hpS => ?_, h.left⟩, fun w hw => ⟨?_, hroot w hw⟩⟩
  · show Function.update V.useCount v 0 w = (V.users U w).ncard
    by_cases hwv : w = v
    · rw [hwv, Function.update_self, h.users_eq_empty hv, Set.ncard_empty]
    · rw [Function.update_of_ne hwv]
      exact h.count w (hother w hwv hw)
  · have hw' := h.live p hp w hw
    simp [initVmm, allocGpt, hne w hw', hw']
  · by_cases hwv : w = v
    · exact ⟨g, hwv ▸ hself, Function.update_self _ _ _⟩
    · obtain ⟨g', hg', hlive⟩ := h.root w (hother w hwv hw)
      refine ⟨g', (hroot w (hother w hwv hw)).trans hg', ?_⟩
      by_cases hgg : g' = g
      · rw [hgg]
        exact Function.update_self _ _ _
      · exact (Function.update_of_ne hgg _ _).trans hlive
  · by_cases hwv : w = v
    · by_cases hwv' : w' = v
      · rw [hwv, hwv']
      · rw [hwv, hself, hroot w' (hother w' hwv' hw')] at he
        exact absurd he.symm (hdiff w' (hother w' hwv' hw'))
    · rw [hroot w (hother w hwv hw)] at he
      by_cases hwv' : w' = v
      · rw [hwv', hself] at he
        exact absurd he (hdiff w (hother w hwv hw))
      · rw [hroot w' (hother w' hwv' hw')] at he
        exact h.root_inj w w' (hother w hwv hw) (hother w' hwv' hw') he
  · show V.pGpt p = _
    rw [h.pGpt p hp hpS]
    show _ = (V.vmm p).bind _
    cases hp' : V.vmm p with
    | none => rfl
    | some w => exact (hroot w (h.live p hp w hp')).symm
  · simp [initVmm, allocGpt, hne w hw, hw]

/-- An address space that nobody uses is released. -/
theorem destroy (h : V.VmOk U S) (hv : V.vmms v = true) (hnone : ∀ p ∈ U, V.vmm p ≠ some v) :
    ((V.freeGpt v).delVmm v).VmOk U S ∧
      (∀ w, w ≠ v → ((V.freeGpt v).delVmm v).vmms w = V.vmms w) ∧
      ((V.freeGpt v).delVmm v).root = V.root ∧
      ∀ g, V.root v = some g → ((V.freeGpt v).delVmm v).gpts g = false := by
  obtain ⟨g, hg, hlive⟩ := h.root v hv
  have heq : (V.freeGpt v).delVmm v = { V with
      gpts := Function.update V.gpts g false, vmms := Function.update V.vmms v false } := by
    simp [freeGpt, hg, delVmm]
  have hother : ∀ w, Function.update V.vmms v false w = true → w ≠ v ∧ V.vmms w = true := by
    intro w hw
    by_cases hwv : w = v
    · rw [hwv, Function.update_self] at hw
      cases hw
    · exact ⟨hwv, by rwa [Function.update_of_ne hwv] at hw⟩
  rw [heq]
  refine ⟨⟨fun w hw => h.count w (hother w hw).2, fun p hp w hw => ?_, fun w hw => ?_,
    fun w w' hw hw' he => h.root_inj w w' (hother w hw).2 (hother w' hw').2 he, h.pGpt, h.left⟩,
    fun w hw => Function.update_of_ne hw _ _, rfl, fun g' hg' => ?_⟩
  · have hwv : w ≠ v := by
      rintro rfl
      exact hnone p hp hw
    exact (Function.update_of_ne hwv _ _).trans (h.live p hp w hw)
  · obtain ⟨hwv, hw⟩ := hother w hw
    obtain ⟨g', hg', hlive'⟩ := h.root w hw
    have hne : g' ≠ g := fun he => hwv (h.root_inj w v hw hv (hg'.trans (he ▸ hg.symm)))
    exact ⟨g', hg', (Function.update_of_ne hne _ _).trans hlive'⟩
  · obtain rfl := Option.some.inj (hg.symm.trans hg')
    exact Function.update_self _ _ _

variable [DecidableEq ν]

omit [DecidableEq ρ] in
/-- A process begins to use an address space. -/
theorem use (h : V.VmOk U S) (hfin : U.Finite) (hcard : U.ncard < 2 ^ 32) (hp : p ∈ U)
    (hvmm : V.vmm p = none) (hv : V.vmms v = true) : (V.useVmm p v).VmOk U (S \ {p}) := by
  have hself : (V.useVmm p v).users U v = insert p (V.users U v) := by
    ext q
    by_cases hq : q = p
    · simp [users, useVmm, hq, hp]
    · simp [users, useVmm, hq]
  have hother : ∀ w, w ≠ v → (V.useVmm p v).users U w = V.users U w := by
    intro w hw
    ext q
    by_cases hq : q = p
    · simp [users, useVmm, hq, hvmm, hw.symm]
    · simp [users, useVmm, hq]
  have hnew : p ∉ V.users U v := by
    rintro ⟨-, hpv⟩
    cases hvmm.symm.trans hpv
  have husersFin : (V.users U v).Finite := hfin.subset fun q hq => hq.1
  have hncard : ((V.useVmm p v).users U v).ncard = (V.users U v).ncard + 1 := by
    rw [hself, Set.ncard_insert_of_notMem hnew husersFin]
  refine ⟨fun w hw => ?_, fun q hq w hw => ?_, h.root, h.root_inj, fun q hq hqS => ?_,
    fun q hq hqS => ?_⟩
  · show Function.update V.useCount v (u32 (V.useCount v + 1)) w = _
    by_cases hwv : w = v
    · have hle : ((V.useVmm p v).users U v).ncard ≤ U.ncard :=
        Set.ncard_le_ncard (fun q hq => hq.1) hfin
      rw [hwv, Function.update_self, hncard, h.count v hv]
      exact Nat.mod_eq_of_lt (by omega)
    · rw [Function.update_of_ne hwv, hother w hwv]
      exact h.count w hw
  · by_cases hqp : q = p
    · have : v = w := by simpa [useVmm, hqp] using hw
      exact this ▸ hv
    · exact h.live q hq w (by simpa [useVmm, hqp] using hw)
  · by_cases hqp : q = p
    · simp [useVmm, hqp]
    · have := h.pGpt q hq fun hm => hqS ⟨hm, hqp⟩
      simpa [useVmm, hqp] using this
  · have hqp : q ≠ p := hqS.2
    simpa [useVmm, hqp] using h.left q hq hqS.1

/-- The address space `v` of the process `p` has one user less, before the test for the last one. -/
def forget (V : VmTable ν μ ρ) (p : ν) (v : μ) : VmTable ν μ ρ :=
  { V with
    useCount := Function.update V.useCount v (V.useCount v - 1)
    vmm := Function.update V.vmm p none }

omit [DecidableEq ρ] in
/-- A process forgets its address space. -/
theorem forget_ok (h : V.VmOk U S) (hp : p ∈ U) (hpv : V.vmm p = some v) :
    (forget V p v).VmOk U (insert p S) ∧ (forget V p v).users U v = V.users U v \ {p} := by
  have hself : (forget V p v).users U v = V.users U v \ {p} := by
    ext q
    by_cases hq : q = p
    · simp [users, forget, hq]
    · simp [users, forget, hq]
  have hother : ∀ w, w ≠ v → (forget V p v).users U w = V.users U w := by
    intro w hw
    ext q
    by_cases hq : q = p
    · simp [users, forget, hq, hpv, hw.symm]
    · simp [users, forget, hq]
  refine ⟨⟨fun w hw => ?_, fun q hq w hw => ?_, h.root, h.root_inj, fun q hq hqS => ?_,
    fun q hq hqS => ?_⟩, hself⟩
  · show Function.update V.useCount v (V.useCount v - 1) w = _
    by_cases hwv : w = v
    · have hmem : p ∈ V.users U v := ⟨hp, hpv⟩
      rw [hwv, Function.update_self, hself, Set.ncard_sdiff_singleton_of_mem hmem,
        h.count v (h.live p hp v hpv)]
    · rw [Function.update_of_ne hwv, hother w hwv]
      exact h.count w hw
  · by_cases hqp : q = p
    · simp [forget, hqp] at hw
    · exact h.live q hq w (by simpa [forget, hqp] using hw)
  · have hqp : q ≠ p := fun he => hqS (Or.inl he)
    have := h.pGpt q hq fun hm => hqS (Or.inr hm)
    simpa [forget, hqp] using this
  · by_cases hqp : q = p
    · simp [forget, hqp]
    · simpa [forget, hqp] using h.left q hq (hqS.resolve_left hqp)

/-- What the running process does when it gives up its address space `v`. -/
theorem leaveVmm_eq (h : V.VmOk U S) (hfin : U.Finite) (hcard : U.ncard < 2 ^ 32) (hp : p ∈ U)
    (hpv : V.vmm p = some v) : V.leaveVmm p = if V.users U v = {p} then
      ((forget V p v).freeGpt v).delVmm v else forget V p v := by
  have hcount := h.count v (h.live p hp v hpv)
  have husersFin : (V.users U v).Finite := hfin.subset fun q hq => hq.1
  have hpos : 0 < (V.users U v).ncard := (Set.ncard_pos husersFin).2 ⟨p, hp, hpv⟩
  have hle : (V.users U v).ncard ≤ U.ncard := Set.ncard_le_ncard (fun q hq => hq.1) hfin
  have hdec : u32 (V.useCount v + 2 ^ 32 - 1) = V.useCount v - 1 := by
    rw [hcount, u32]
    omega
  have hlast : V.useCount v - 1 = 0 ↔ V.users U v = {p} := by
    constructor
    · intro hone
      obtain ⟨q, hq⟩ := Set.ncard_eq_one.1 (show (V.users U v).ncard = 1 by omega)
      have hmem : p ∈ V.users U v := ⟨hp, hpv⟩
      rw [hq] at hmem ⊢
      rw [Set.mem_singleton_iff.1 hmem]
    · intro hone
      rw [hcount, hone, Set.ncard_singleton]
  obtain ⟨g, hg, -⟩ := h.root v (h.live p hp v hpv)
  unfold leaveVmm
  simp only [hpv, hdec, Function.update_self, hlast]
  by_cases hone : V.users U v = {p}
  · rw [if_pos hone, if_pos hone]
    simp [freeGpt, hg, delVmm, forget]
  · rw [if_neg hone, if_neg hone, forget]

/-- **A process gives up its address space.** -/
theorem leaveVmm (h : V.VmOk U S) (hfin : U.Finite) (hcard : U.ncard < 2 ^ 32) (hp : p ∈ U) :
    (V.leaveVmm p).VmOk U (insert p S) := by
  cases hpv : V.vmm p with
  | none =>
    have heq : V.leaveVmm p = V := by simp [VmTable.leaveVmm, hpv]
    rw [heq]
    refine ⟨h.count, h.live, h.root, h.root_inj,
      fun q hq hqS => h.pGpt q hq fun hm => hqS (Or.inr hm), fun q hq hqS => ?_⟩
    rcases hqS with rfl | hqS
    · exact hpv
    · exact h.left q hq hqS
  | some v =>
    obtain ⟨hok, hself⟩ := h.forget_ok hp hpv
    rw [h.leaveVmm_eq hfin hcard hp hpv]
    by_cases hone : V.users U v = {p}
    · rw [if_pos hone]
      refine (hok.destroy (h.live p hp v hpv) fun q hq hqv => ?_).1
      have hmem : q ∈ (forget V p v).users U v := ⟨hq, hqv⟩
      rw [hself, hone] at hmem
      exact hmem.2 hmem.1
    · rwa [if_neg hone]

/-- **The last process that leaves an address space releases it** and its root table, and nothing
else is released. -/
theorem leaveVmm_released (h : V.VmOk U S) (hfin : U.Finite) (hcard : U.ncard < 2 ^ 32)
    (hp : p ∈ U) (hv : V.vmms v = true) (hg : V.root v = some g) :
    ((V.leaveVmm p).vmms v = false ↔ V.users U v = {p}) ∧
      (V.leaveVmm p).gpts g = (V.leaveVmm p).vmms v ∧ (V.leaveVmm p).root v = V.root v := by
  have hgpt : V.gpts g = true := by
    obtain ⟨g', hg', hlive⟩ := h.root v hv
    rwa [Option.some.inj (hg.symm.trans hg')]
  have hsame : ∀ v', V.vmm p = some v' → v ≠ v' → V.users U v ≠ {p} := by
    intro v' hpv hne he
    have hmem : p ∈ V.users U v := by rw [he]; rfl
    exact hne (Option.some.inj (hmem.2.symm.trans hpv))
  cases hpv : V.vmm p with
  | none =>
    have heq : V.leaveVmm p = V := by simp [VmTable.leaveVmm, hpv]
    rw [heq, hv, hgpt]
    refine ⟨⟨nofun, fun he => ?_⟩, rfl, rfl⟩
    have hmem : p ∈ V.users U v := by rw [he]; rfl
    cases hpv.symm.trans hmem.2
  | some v' =>
    obtain ⟨hok, hself⟩ := h.forget_ok hp hpv
    rw [h.leaveVmm_eq hfin hcard hp hpv]
    by_cases hone : V.users U v' = {p}
    · -- the last user leaves: the address space and its root are freed
      rw [if_pos hone]
      obtain ⟨hok', hkept, hroot, hfreed⟩ :=
        hok.destroy (h.live p hp v' hpv) fun q hq hqv => by
          have hmem : q ∈ (forget V p v').users U v' := ⟨hq, hqv⟩
          rw [hself, hone] at hmem
          exact hmem.2 hmem.1
      by_cases hvv : v = v'
      · subst hvv
        have hgone : (((forget V p v).freeGpt v).delVmm v).vmms v = false :=
          Function.update_self _ _ _
        rw [hgone, hfreed g hg]
        exact ⟨⟨fun _ => hone, fun _ => rfl⟩, rfl, congrFun hroot v⟩
      · have hlive : (((forget V p v').freeGpt v').delVmm v').vmms v = true :=
          (hkept v hvv).trans hv
        obtain ⟨g', hg', hlive'⟩ := hok'.root v hlive
        rw [hroot] at hg'
        obtain rfl := Option.some.inj (hg.symm.trans hg')
        rw [hlive, hlive']
        exact ⟨⟨nofun, fun he => absurd he (hsame v' hpv hvv)⟩, rfl, congrFun hroot v⟩
    · rw [if_neg hone]
      refine ⟨⟨fun he => ?_, fun he => ?_⟩, ?_, rfl⟩
      · cases hv.symm.trans he
      · by_cases hvv : v = v'
        · exact absurd (hvv ▸ he) hone
        · exact absurd he (hsame v' hpv hvv)
      · exact hgpt.trans hv.symm

/-- The address spaces that are left all have users. -/
theorem leaveVmm_used (h : V.VmOk U S) (hused : V.Used U) (hfin : U.Finite)
    (hcard : U.ncard < 2 ^ 32) (hp : p ∈ U) : (V.leaveVmm p).Used U := by
  cases hpv : V.vmm p with
  | none =>
    have heq : V.leaveVmm p = V := by simp [VmTable.leaveVmm, hpv]
    rwa [heq]
  | some v =>
    rw [h.leaveVmm_eq hfin hcard hp hpv]
    -- a process that uses another address space still does so
    have hstill : ∀ w q, q ∈ V.users U w → q ≠ p → q ∈ (forget V p v).users U w := by
      intro w q hq hqp
      exact ⟨hq.1, (Function.update_of_ne hqp _ _).trans hq.2⟩
    have hne : ∀ w q, w ≠ v → q ∈ V.users U w → q ≠ p := by
      rintro w q hw hq rfl
      exact hw (Option.some.inj (hq.2.symm.trans hpv))
    obtain ⟨g, hg, -⟩ := h.root v (h.live p hp v hpv)
    by_cases hone : V.users U v = {p}
    · rw [if_pos hone]
      intro w hw
      have heq : ((forget V p v).freeGpt v).delVmm v = { forget V p v with
          gpts := Function.update V.gpts g false, vmms := Function.update V.vmms v false } := by
        simp [freeGpt, hg, delVmm, forget]
      rw [heq] at hw ⊢
      by_cases hwv : w = v
      · simp [hwv] at hw
      · obtain ⟨q, hq⟩ := hused w (by simpa [hwv] using hw)
        exact ⟨q, hstill w q hq (hne w q hwv hq)⟩
    · rw [if_neg hone]
      intro w hw
      obtain ⟨q, hq⟩ := hused w hw
      by_cases hqp : q = p
      · have hwv : w = v := Option.some.inj ((hqp ▸ hq.2).symm.trans hpv)
        by_contra hempty
        refine hone (Set.eq_singleton_iff_unique_mem.2 ⟨⟨hp, hpv⟩, fun r hr => ?_⟩)
        by_contra hrp
        exact hempty ⟨r, hstill w r (hwv ▸ hr) hrp⟩
      · exact ⟨q, hstill w q hq hqp⟩

/-- **A new address space.**  A process without an address space gets one, or nothing is left
behind. -/
theorem newVmm {m : VmMem μ ρ} {ok : Bool} (h : V.VmOk U S) (hused : V.Used U) (hfin : U.Finite)
    (hcard : U.ncard < 2 ^ 32) (hp : p ∈ U) (hpv : V.vmm p = none)
    (hvmm : ∀ v, m.vmm = some v → V.vmms v = false) (hgpt : ∀ g, m.gpt = some g → V.gpts g = false)
    (he : V.newVmm p m = (V', ok)) :
    V'.VmOk U (if ok then S \ {p} else S) ∧ V'.Used U ∧ Keeps V V' ∧
      (ok = false → V'.vmm p = none) := by
  unfold VmTable.newVmm at he
  cases hm : m.vmm with
  | none =>
    simp only [hm] at he
    cases he
    exact ⟨h, hused, .refl V, fun _ => hpv⟩
  | some v =>
    have hv := hvmm v hm
    have hne : ∀ w, V.vmms w = true → w ≠ v := by
      rintro w hw rfl
      cases hv.symm.trans hw
    cases hg : m.gpt with
    | none =>
      simp only [hm, hg] at he
      -- `alloc_gpt` has failed: the record is freed again
      cases he
      have hvmms : ((V.initVmm v).delVmm v).vmms = V.vmms := by
        funext w
        by_cases hw : w = v
        · simp [initVmm, delVmm, hw, hv]
        · simp [initVmm, delVmm, hw]
      refine ⟨h.congr (fun _ _ => rfl) (fun _ _ => rfl) hvmms (fun w hw => ?_) (fun w hw => ?_) rfl,
        hused.congr (fun _ _ => rfl) (fun w hw => hvmms ▸ hw), fun w hw => ⟨hvmms.symm ▸ hw, ?_⟩,
        fun _ => hpv⟩
      · exact Function.update_of_ne (hne w hw) _ _
      · exact Function.update_of_ne (hne w hw) _ _
      · exact Function.update_of_ne (hne w hw) _ _
    | some g =>
      simp only [hm, hg] at he
      obtain ⟨hok, hkeep⟩ := h.create hv (hgpt g hg)
      have hlive : ((V.initVmm v).allocGpt v g).vmms v = true := Function.update_self _ _ _
      have hold : ∀ w, w ≠ v → ((V.initVmm v).allocGpt v g).vmms w = true → V.vmms w = true := by
        intro w hw hlive
        simpa [initVmm, allocGpt, hw] using hlive
      by_cases hfilled : m.filled = true
      · rw [if_pos hfilled] at he
        cases he
        refine ⟨hok.use hfin hcard hp hpv hlive, fun w hw => ?_, hkeep, nofun⟩
        by_cases hwv : w = v
        · exact ⟨p, hp, hwv ▸ Function.update_self _ _ _⟩
        · obtain ⟨q, hq⟩ := hused w (hold w hwv hw)
          have hqp : q ≠ p := by
            rintro rfl
            cases hpv.symm.trans hq.2
          exact ⟨q, hq.1, (Function.update_of_ne hqp _ _).trans hq.2⟩
      · rw [if_neg hfilled] at he
        -- the copy has failed half way: root and record are freed again
        cases he
        have hnone : ∀ q ∈ U, V.vmm q ≠ some v := fun q hq he => hne v (h.live q hq v he) rfl
        obtain ⟨hok', hkept, hroot, -⟩ := hok.destroy hlive hnone
        have hgone : ((((V.initVmm v).allocGpt v g).freeGpt v).delVmm v).vmms v = false :=
          Function.update_self _ _ _
        have hsame : ((((V.initVmm v).allocGpt v g).freeGpt v).delVmm v).vmm = V.vmm := by
          simp [freeGpt, allocGpt, initVmm, delVmm]
        refine ⟨hok', hused.congr (fun q _ => congrFun hsame q) fun w hw => ?_, fun w hw => ?_,
          fun _ => (congrFun hsame p).trans hpv⟩
        · by_cases hwv : w = v
          · rw [hwv, hgone] at hw
            cases hw
          · exact hold w hwv (hkept w hwv ▸ hw)
        · obtain ⟨hw', hroot'⟩ := hkeep w hw
          exact ⟨(hkept w (hne w hw)).trans hw', (congrFun hroot w).trans hroot'⟩

/-- **`copy_vmm`** -/
theorem copyVmm {m : VmMem μ ρ} {curr : ν} {cloneVm ok : Bool} (h : V.VmOk U S) (hused : V.Used U)
    (hfin : U.Finite) (hcard : U.ncard < 2 ^ 32) (hcurr : curr ∈ U) (hp : p ∈ U)
    (hpv : V.vmm p = none) (hpS : p ∉ S) (hvmm : ∀ v, m.vmm = some v → V.vmms v = false)
    (hgpt : ∀ g, m.gpt = some g → V.gpts g = false)
    (he : V.copyVmm curr p cloneVm m = (V', ok)) :
    V'.VmOk U S ∧ V'.Used U ∧ Keeps V V' ∧ (ok = false → V'.vmm p = none) := by
  have hS : S \ {p} = S := Set.sdiff_singleton_eq_self hpS
  unfold VmTable.copyVmm at he
  cases hc : V.vmm curr with
  | none =>
    simp only [hc] at he
    cases he
    exact ⟨h, hused, .refl V, nofun⟩
  | some v =>
    simp only [hc] at he
    cases cloneVm with
    | true =>
      simp only [if_true] at he
      cases he
      have hok := h.use hfin hcard hp hpv (h.live curr hcurr v hc)
      rw [hS] at hok
      refine ⟨hok, fun w hw => ?_, .refl _, nofun⟩
      obtain ⟨q, hq⟩ := hused w hw
      have hqp : q ≠ p := by
        rintro rfl
        cases hpv.symm.trans hq.2
      exact ⟨q, hq.1, (Function.update_of_ne hqp _ _).trans hq.2⟩
    | false =>
      obtain ⟨hok, hrest⟩ := h.newVmm hused hfin hcard hp hpv hvmm hgpt he
      rw [hS, ite_self] at hok
      exact ⟨hok, hrest⟩

end VmOk

end VmTable

end GarretOS
