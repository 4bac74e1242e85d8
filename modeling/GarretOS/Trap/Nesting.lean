import Mathlib
import GarretOS.Trap.Frame

/-!
# Nested traps

A hart computes in user mode or in the kernel, takes traps, and returns from them.  The trap frames
that have not been returned from yet lie on the kernel stack, each with the hart as it was when
`SAVE_ALL` began.

* `TrapState.Inv.step` : `sscratch` is `0` in the kernel and the top of the kernel stack in user mode;
* `trap_restores` : every return finds what the trap interrupted.
-/

namespace GarretOS

open Riscv

/-- A hart, and the trap frames on its kernel stack, the last one first. -/
structure TrapState where
  /-- The hart. -/
  hart : Hart
  /-- The address of each trap frame, and the hart when it was written. -/
  frames : List (Word × Hart)

/-- What the hart does next. -/
inductive TrapOp where
  /-- It computes. -/
  | compute
  /-- It takes a trap and saves its registers. -/
  | trap (pc cause val : Word)
  /-- It restores its registers and returns from a trap. -/
  | ret

/-- The convention for `sscratch` in a trap frame at `a`: the top of the kernel stack if the trap
came from user mode, and `0` otherwise. -/
def ScratchOk (a : Word) (c : Hart) : Prop :=
  if c.csr .sstatus &&& sstatusSpp = 0 then c.csr .sscratch = a + 288 ∧ c.csr .sscratch ≠ 0
  else c.csr .sscratch = 0

/-- A computation leaves `sscratch` and the trap frames alone; a nested trap finds room on the
stack; and a return begins with the stack pointer at the trap frame. -/
def TrapOp.Step (s : TrapState) (op : TrapOp) (s' : TrapState) : Prop :=
  match op with
  | .compute => s'.frames = s.frames ∧ s'.hart.priv = s.hart.priv ∧
      s'.hart.csr .sscratch = s.hart.csr .sscratch ∧
      ∀ f ∈ s.frames, ∀ b ∈ Bytes f.1 288, s'.hart.mem b = s.hart.mem b
  | .trap pc cause val => s'.hart = Hart.run 0 saveAll (s.hart.takeTrap pc cause val) ∧
      s'.frames = (s'.hart.get 2, s.hart.takeTrap pc cause val) :: s.frames ∧
      ∀ f ∈ s.frames, Disjoint (Bytes (s'.hart.get 2) 288) (Bytes f.1 288)
  | .ret => ∃ f fs, s.frames = f :: fs ∧ s.hart.priv = .supervisor ∧ s.hart.get 2 = f.1 ∧
      s' = ⟨(Hart.run 0 restoreAll s.hart).sret, fs⟩

/-- Runs begin in user mode, in the kernel, or in `fork_ret` with the trap frame that was set up for
a new process. -/
def trapSystem : System TrapState TrapOp where
  init s := (s.frames = [] ∧ s.hart.priv = .user ∧ s.hart.csr .sscratch ≠ 0) ∨
    (s.hart.priv = .supervisor ∧ s.hart.csr .sscratch = 0 ∧ (s.frames = [] ∨
      ∃ f, s.frames = [f] ∧ FrameAt s.hart.mem f.1 f.2 ∧ ScratchOk f.1 f.2))
  step s op s' := op.Step s s'

/-- The convention for `sscratch`, and the content of the trap frames. -/
structure TrapState.Inv (s : TrapState) : Prop where
  kernel : s.hart.priv = .supervisor → s.hart.csr .sscratch = 0
  user : s.hart.priv = .user → s.frames = [] ∧ s.hart.csr .sscratch ≠ 0
  holds : ∀ f ∈ s.frames, FrameAt s.hart.mem f.1 f.2
  scratch : ∀ f ∈ s.frames, ScratchOk f.1 f.2
  nested : s.frames.Pairwise fun f _ => f.2.csr .sstatus &&& sstatusSpp ≠ 0

theorem FrameAt.congr {m m' : Memory} {a : Word} {c : Hart} (h : FrameAt m a c)
    (hm : ∀ b ∈ Bytes a 288, m' b = m b) : FrameAt m' a c := by
  intro f
  rw [← h f]
  refine load_congr fun b hb => hm b ?_
  by_contra hno
  exact f.notMem_bytes hno hb

theorem TrapState.Inv.init {s : TrapState} (h : trapSystem.init s) : s.Inv := by
  rcases h with ⟨hf, hp, hs⟩ | ⟨hp, hs, hf⟩
  · refine ⟨fun hk => ?_, fun _ => ⟨hf, hs⟩, ?_, ?_, ?_⟩
    · rw [hp] at hk
      cases hk
    all_goals simp [hf]
  · refine ⟨fun _ => hs, fun hk => ?_, ?_, ?_, ?_⟩
    · rw [hp] at hk
      cases hk
    all_goals
      rcases hf with hf | ⟨f, hf, h1, h2⟩
      · simp [hf]
      · simp [hf, h1, h2]

/-- A trap. -/
theorem TrapState.Inv.trap {s s' : TrapState} {pc cause val : Word} (h : s.Inv)
    (hs : TrapOp.Step s (.trap pc cause val) s') : s'.Inv := by
  obtain ⟨hh, hf, hd⟩ := hs
  obtain ⟨c, hc⟩ : ∃ c, c = s.hart.takeTrap pc cause val := ⟨_, rfl⟩
  rw [← hc] at hh hf
  obtain ⟨t, ht, h2, h0, hp, hframe, hmem⟩ := saveAll_spec c
  rw [ht] at hh
  have hspp := s.hart.takeTrap_spp pc cause val
  have hscr := s.hart.takeTrap_sscratch pc cause val
  rw [← hc] at hspp hscr
  have hcm : c.mem = s.hart.mem := by rw [hc]; rfl
  have hpriv : s'.hart.priv = .supervisor := by rw [hh, hp, hc]; rfl
  rw [← hh] at h2 h0 hframe hmem
  rw [← h2] at hframe hmem
  refine ⟨fun _ => h0, fun hu => ?_, ?_, ?_, ?_⟩
  · rw [hpriv] at hu
    cases hu
  · rw [hf, List.forall_mem_cons]
    refine ⟨hframe, fun f hfs => (h.holds f hfs).congr fun b hb => ?_⟩
    rw [hmem b fun hb' => Set.disjoint_left.1 (hd f hfs) hb' hb, hcm]
  · rw [hf, List.forall_mem_cons]
    refine ⟨?_, h.scratch⟩
    show if c.csr .sstatus &&& Hart.spp = 0 then _ else _
    rw [hspp]
    cases hpr : s.hart.priv with
    | user =>
      obtain ⟨-, hne⟩ := h.user hpr
      rw [← hscr] at hne
      rw [if_pos rfl, if_pos rfl, h2, stackTop, if_neg hne]
      exact ⟨(BitVec.sub_add_cancel _ _).symm, hne⟩
    | supervisor =>
      rw [if_neg (by decide)]
      exact hscr.trans (h.kernel hpr)
  · rw [hf, List.pairwise_cons]
    refine ⟨fun g hg => ?_, h.nested⟩
    show c.csr .sstatus &&& Hart.spp ≠ 0
    rw [hspp]
    cases hpr : s.hart.priv with
    | user =>
      rw [(h.user hpr).1] at hg
      cases hg
    | supervisor =>
      rw [if_neg (by decide)]
      decide

/-- A return. -/
theorem TrapState.Inv.ret {s s' : TrapState} (h : s.Inv) (hs : TrapOp.Step s .ret s') : s'.Inv := by
  obtain ⟨f, fs, hf, hp, hsp, rfl⟩ := hs
  have hmem : f ∈ s.frames := by simp [hf]
  have hframe := h.holds f hmem
  rw [← hsp] at hframe
  obtain ⟨u, hu, -, hst, -, hscr, hm, -⟩ := restoreAll_spec hframe
  have hnest := h.nested
  rw [hf, List.pairwise_cons] at hnest
  have hok := h.scratch f hmem
  have hpriv : (Hart.sret u).priv =
      if f.2.csr .sstatus &&& sstatusSpp = 0 then .user else .supervisor := by
    rw [← hst]
    rfl
  have hscr' : (Hart.sret u).csr .sscratch = u.csr .sscratch := by
    simp [Hart.sret, Hart.setCsr]
  rw [hu]
  refine ⟨fun hk => ?_, fun hk => ?_, fun g hg => ?_, fun g hg => ?_, hnest.2⟩
  · rw [hpriv] at hk
    by_cases hspp : f.2.csr .sstatus &&& sstatusSpp = 0
    · rw [if_pos hspp] at hk
      cases hk
    · show (Hart.sret u).csr .sscratch = 0
      rw [hscr', hscr, if_neg hspp]
      exact h.kernel hp
  · rw [hpriv] at hk
    by_cases hspp : f.2.csr .sstatus &&& sstatusSpp = 0
    · rw [ScratchOk, if_pos hspp] at hok
      refine ⟨?_, ?_⟩
      · cases fs with
        | nil => rfl
        | cons g gs => exact absurd hspp (hnest.1 g (by simp))
      · show (Hart.sret u).csr .sscratch ≠ 0
        rw [hscr', hscr, if_pos hspp, hsp, ← hok.1]
        exact hok.2
    · rw [if_neg hspp] at hk
      cases hk
  · have hg' := h.holds g (by rw [hf]; exact List.mem_cons_of_mem _ hg)
    rw [← hm] at hg'
    exact hg'
  · exact h.scratch g (by rw [hf]; exact List.mem_cons_of_mem _ hg)

/-- What the hart does keeps the convention. -/
theorem TrapState.Inv.step {s s' : TrapState} {op : TrapOp} (h : s.Inv)
    (hs : trapSystem.step s op s') : s'.Inv := by
  cases op with
  | compute =>
    obtain ⟨hf, hp, hscr, hm⟩ := hs
    refine ⟨fun hk => ?_, fun hk => ?_, fun f hfs => ?_, hf ▸ h.scratch, hf ▸ h.nested⟩
    · rw [hscr]
      exact h.kernel (hp.symm.trans hk)
    · rw [hf, hscr]
      exact h.user (hp.symm.trans hk)
    · rw [hf] at hfs
      exact (h.holds f hfs).congr (hm f hfs)
  | trap pc cause val => exact h.trap hs
  | ret => exact h.ret hs

/-- Every register has a name. -/
theorem Gpr.exists_reg (r : Reg) : ∃ g : Gpr, g.reg = r :=
  ⟨Gpr.ofNat r, by revert r; decide⟩

/-- **A return restores what the trap interrupted.**  Whatever traps are taken in user mode, in the
kernel and in the handlers of other traps: while a trap is handled `sscratch` is `0`, each trap
frame has every register in the field with its name, and `RESTORE_ALL` gives all registers,
`sstatus`, `sepc` and `sscratch` the values they had when `SAVE_ALL` began. -/
theorem trap_restores {s : TrapState} (h : trapSystem.Reachable s) :
    (s.frames ≠ [] → s.hart.csr .sscratch = 0) ∧
      (∀ f ∈ s.frames, ∀ field : Trapframe,
        load s.hart.mem (f.1 + field.offset) = frameValue f.2 field) ∧
      ∀ f fs, s.frames = f :: fs → s.hart.get 2 = f.1 → ∃ u, Hart.run 0 restoreAll s.hart = u ∧
        (∀ r : Reg, u.get r = f.2.get r) ∧ u.csr .sstatus = f.2.csr .sstatus ∧
        u.csr .sepc = f.2.csr .sepc ∧ u.csr .sscratch = f.2.csr .sscratch ∧
        u.csr .sscratch = if f.2.csr .sstatus &&& sstatusSpp = 0 then f.1 + 288 else 0 := by
  have hi : s.Inv := h.invariant (fun _ => TrapState.Inv.init) fun _ _ _ hi => hi.step
  have hkernel : s.frames ≠ [] → s.hart.csr .sscratch = 0 := by
    intro hne
    cases hp : s.hart.priv with
    | user => exact absurd (hi.user hp).1 hne
    | supervisor => exact hi.kernel hp
  refine ⟨hkernel, hi.holds, fun f fs hf hsp => ?_⟩
  have hmem : f ∈ s.frames := by simp [hf]
  have hframe := hi.holds f hmem
  rw [← hsp] at hframe
  obtain ⟨u, hu, hreg, hst, hpc, hscr, -, -⟩ := restoreAll_spec hframe
  rw [hkernel (by simp [hf]), hsp] at hscr
  have hok := hi.scratch f hmem
  rw [ScratchOk] at hok
  refine ⟨u, hu, fun r => ?_, hst, hpc, ?_, hscr⟩
  · obtain ⟨g, rfl⟩ := Gpr.exists_reg r
    exact hreg g
  · rw [hscr]
    split_ifs at hok ⊢ with hspp
    · exact hok.1.symm
    · exact hok.symm

/-- A trap from user mode, and a trap in its handler. -/
theorem trap_restores_nested : ∃ s : TrapState, s.frames.length = 2 ∧ s.hart.csr .sscratch = 0 ∧
    ∃ c u : Hart, c.csr .sepc = 0x80200000 ∧ Hart.run 0 restoreAll s.hart = u ∧
      (∀ r : Reg, u.get r = c.get r) ∧ u.csr .sepc = c.csr .sepc ∧ u.csr .sscratch = 0 := by
  obtain ⟨h₀, hh₀⟩ : ∃ h₀ : Hart, h₀ = ⟨fun r => BitVec.ofNat 64 r, fun _ => 0x82000000,
    fun _ => 0, .user⟩ := ⟨_, rfl⟩
  have hr₀ : trapSystem.Reachable ⟨h₀, []⟩ :=
    .start (Or.inl ⟨rfl, by rw [hh₀], by rw [hh₀]; decide⟩)
  -- an environment call, then a timer interrupt
  obtain ⟨c₁, hc₁⟩ : ∃ c₁, c₁ = h₀.takeTrap 0x800100 8 0 := ⟨_, rfl⟩
  obtain ⟨t₁, ht₁, h2₁, h0₁, -⟩ := saveAll_spec c₁
  have hr₁ : trapSystem.Reachable ⟨t₁, [(t₁.get 2, c₁)]⟩ :=
    hr₀.step (l := .trap 0x800100 8 0) ⟨by rw [← hc₁, ht₁], by rw [← hc₁], by simp⟩
  obtain ⟨c₂, hc₂⟩ : ∃ c₂, c₂ = t₁.takeTrap 0x80200000 5 0 := ⟨_, rfl⟩
  obtain ⟨t₂, ht₂, h2₂, -⟩ := saveAll_spec c₂
  have hsp : t₂.get 2 = t₁.get 2 - 288 := by
    have hscr : c₂.csr .sscratch = 0 := by
      rw [hc₂, Hart.takeTrap_sscratch, h0₁]
    rw [h2₂, stackTop, if_pos hscr, hc₂]
    rfl
  have hdisj : Disjoint (Bytes (t₂.get 2) 288) (Bytes (t₁.get 2) 288) := by
    rw [Set.disjoint_left]
    intro b (hb : (b - t₂.get 2).toNat < 288) (hb' : (b - t₁.get 2).toNat < 288)
    rw [hsp] at hb
    bv_omega
  have hr₂ : trapSystem.Reachable ⟨t₂, [(t₂.get 2, c₂), (t₁.get 2, c₁)]⟩ :=
    hr₁.step (l := .trap 0x80200000 5 0)
      ⟨by rw [← hc₂, ht₂], by rw [← hc₂], by simpa using hdisj⟩
  have hpc : c₂.csr .sepc = 0x80200000 := by
    simp [hc₂, Hart.takeTrap, Hart.setCsr]
  have hscr : c₂.csr .sscratch = 0 := by
    rw [hc₂, Hart.takeTrap_sscratch, h0₁]
  obtain ⟨hk, -, hret⟩ := trap_restores hr₂
  obtain ⟨u, hu, hreg, -, hsepc, hsscr, -⟩ := hret _ _ rfl rfl
  exact ⟨_, rfl, hk (by simp), c₂, u, hpc, hu, hreg, hsepc, hsscr.trans hscr⟩

end GarretOS
