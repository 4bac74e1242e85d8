import GarretOS.Trap.Entry

/-!
# Trap frames

What `SAVE_ALL` leaves in memory, and what `RESTORE_ALL` makes of it, for a single trap and then
for traps that are nested to any depth.

* `saveAll_spec`, `restoreAll_spec` : the two macros;
* `trap_restores` : along every run of traps, computations in their handlers, and returns.
-/

namespace GarretOS

open Riscv

/-- The stack pointer with which the kernel handles a trap. -/
def stackTop (c : Hart) : Word := if c.csr .sscratch = 0 then c.get 2 else c.csr .sscratch

/-- The content of a field of the trap frame for a trap taken with the registers of `c`. -/
def frameValue (c : Hart) : Trapframe → Word
  | .gpr r => c.get r.reg
  | .sstatus => c.csr .sstatus
  | .sepc => c.csr .sepc
  | .stval => c.csr .stval
  | .scause => c.csr .scause

/-- The memory holds a trap frame at `a`. -/
def FrameAt (m : Memory) (a : Word) (c : Hart) : Prop :=
  ∀ f : Trapframe, load m (a + f.offset) = frameValue c f

/-- The registers that `SAVE_ALL` stores first. -/
def savedFirst : List Gpr :=
  [.zero, .ra, .gp, .tp, .t0, .t1, .t2, .s0, .s1, .a0, .a1, .a2, .a3, .a4, .a5, .a6, .a7, .s2, .s3,
    .s4, .s5, .s6, .s7, .s8, .s9, .s10, .s11, .t3, .t4, .t5, .t6]

/-- The fields that `SAVE_ALL` stores last. -/
def savedLast : List Trapframe := [.gpr .sp, .sstatus, .sepc, .stval, .scause]

/-- The registers that `SAVE_ALL` stores these fields from. -/
def lastReg : Trapframe → Reg
  | .sstatus => 9
  | .sepc => 18
  | .stval => 19
  | .scause => 20
  | _ => 8

theorem saveAll_eq : saveAll =
    [.csrrw 2 .sscratch 2, .bnez 2 1, .csrr 2 .sscratch, .addi 2 2 (-288)] ++
      (savedFirst.map (fun r => .sd r.reg r.offset 2) ++
        ([.csrrw 8 .sscratch 0, .csrr 9 .sstatus, .csrr 18 .sepc, .csrr 19 .stval,
          .csrr 20 .scause] ++ (savedLast.map (fun f => .sd (lastReg f) f.offset 2) ++ []))) := by
  rfl

theorem mem_saved (f : Trapframe) : (∃ r ∈ savedFirst, f = .gpr r) ∨ f ∈ savedLast := by
  cases f with
  | gpr r => cases r <;> simp [savedFirst, savedLast]
  | _ => simp [savedLast]

/-- The stack pointer is set to the frame, the old one is in `sscratch`. -/
theorem run_saveHead (is : List Instr) (c : Hart) :
    Hart.run 0 ([.csrrw 2 .sscratch 2, .bnez 2 1, .csrr 2 .sscratch, .addi 2 2 (-288)] ++ is) c =
      Hart.run 0 is ((c.setCsr .sscratch (c.get 2)).set 2 (stackTop c - 288)) := by
  rw [show stackTop c - 288 = stackTop c + -288 from BitVec.sub_eq_add_neg _ _]
  generalize (-288 : Word) = imm
  obtain ⟨c₁, hc₁⟩ : ∃ c₁, c₁ = (c.setCsr .sscratch (c.get 2)).set 2 (c.csr .sscratch) := ⟨_, rfl⟩
  have hget : c₁.get 2 = c.csr .sscratch := by
    rw [hc₁, Hart.get_set, if_neg (by decide), if_pos rfl]
  have hset : ∀ v, c₁.set 2 v = (c.setCsr .sscratch (c.get 2)).set 2 v := by
    intro v
    rw [hc₁, Hart.set_set]
  have hswap : c.exec (.csrrw 2 .sscratch 2) = c₁ := hc₁.symm
  by_cases h : c.csr .sscratch = 0
  · -- from the kernel: the old stack pointer is read back
    have hcsr : c₁.csr .sscratch = c.get 2 := by
      rw [hc₁, Hart.csr_set, Hart.csr_setCsr, if_pos rfl]
    simp only [List.cons_append, List.nil_append, Hart.run, hswap]
    rw [if_pos (hget.trans h)]
    simp only [Hart.run, Hart.exec, hcsr, Hart.set_set, hset, stackTop, if_pos h]
    rw [Hart.get_set, if_neg (by decide), if_pos rfl]
  · simp only [List.cons_append, List.nil_append, Hart.run, hswap]
    rw [if_neg (hget.trans_ne h)]
    simp only [Hart.run, Hart.exec, hget, hset, stackTop, if_neg h]

/-- **`SAVE_ALL`** builds a trap frame below the stack pointer of the kernel and clears
`sscratch`. -/
theorem saveAll_spec (c : Hart) :
    ∃ t, Hart.run 0 saveAll c = t ∧ t.get 2 = stackTop c - 288 ∧ t.csr .sscratch = 0 ∧
      t.priv = c.priv ∧ FrameAt t.mem (stackTop c - 288) c ∧
      ∀ b ∉ Bytes (stackTop c - 288) 288, t.mem b = c.mem b := by
  obtain ⟨c₁, hc₁⟩ : ∃ c₁, c₁ = (c.setCsr .sscratch (c.get 2)).set 2 (stackTop c - 288) := ⟨_, rfl⟩
  have hsp : c₁.get 2 = stackTop c - 288 := by
    rw [hc₁, Hart.get_set, if_neg (by decide), if_pos rfl]
  have hget : ∀ r : Reg, r ≠ 2 → c₁.get r = c.get r := by
    intro r hr
    rw [hc₁, Hart.get_set, if_neg hr, Hart.get_setCsr]
    unfold Hart.get
    split_ifs <;> rfl
  have hcsr : ∀ k, k ≠ .sscratch → c₁.csr k = c.csr k := by
    intro k hk
    rw [hc₁, Hart.csr_set, Hart.csr_setCsr, if_neg hk]
  have hscratch : c₁.csr .sscratch = c.get 2 := by
    rw [hc₁, Hart.csr_set, Hart.csr_setCsr, if_pos rfl]
  have hmem : c₁.mem = c.mem := by rw [hc₁, Hart.mem_set, Hart.mem_setCsr]
  have hpriv : c₁.priv = c.priv := by rw [hc₁, Hart.priv_set, Hart.priv_setCsr]
  obtain ⟨m₁, hm₁⟩ : ∃ m₁, m₁ = savedFirst.foldl
      (fun m r => store m (c₁.get 2 + r.offset) (c₁.get r.reg)) c₁.mem := ⟨_, rfl⟩
  -- the CSRs are read into registers that have been stored
  obtain ⟨c₂, hc₂⟩ : ∃ c₂, c₂ = ((((({ c₁ with mem := m₁ } : Hart).exec
    (.csrrw 8 .sscratch 0)).exec (.csrr 9 .sstatus)).exec (.csrr 18 .sepc)).exec
      (.csrr 19 .stval)).exec (.csrr 20 .scause) := ⟨_, rfl⟩
  have hget₁ : ∀ r, ({ c₁ with mem := m₁ } : Hart).get r = c₁.get r := fun _ => rfl
  have h2 : c₂.get 2 = stackTop c - 288 := by
    simp [hc₂, Hart.exec, hget₁, hsp]
  have hlast : ∀ f ∈ savedLast, c₂.get (lastReg f) = frameValue c f := by
    simp [savedLast, lastReg, frameValue, hc₂, Hart.exec, hscratch, hcsr, Gpr.reg]
  have hscratch₂ : c₂.csr .sscratch = 0 := by
    simp [hc₂, Hart.exec, Hart.get]
  have hmem₂ : c₂.mem = m₁ := by simp [hc₂, Hart.exec]
  have hpriv₂ : c₂.priv = c.priv := by simp [hc₂, Hart.exec, hpriv]
  rw [saveAll_eq, run_saveHead, ← hc₁, Hart.run_sd, ← hm₁]
  simp only [List.cons_append, List.nil_append, Hart.run, ← hc₂]
  obtain ⟨m₂, hm₂⟩ : ∃ m₂, m₂ = savedLast.foldl
      (fun m f => store m (stackTop c - 288 + f.offset) (c₂.get (lastReg f))) m₁ := ⟨_, rfl⟩
  rw [Hart.run_sd, Hart.run, hmem₂, h2, ← hm₂]
  refine ⟨{ c₂ with mem := m₂ }, rfl, h2, hscratch₂, hpriv₂, fun f => ?_, fun b hb => ?_⟩
  · show load m₂ (stackTop c - 288 + f.offset) = frameValue c f
    rw [hm₂]
    by_cases hf : f ∈ savedLast
    · rw [← hlast f hf]
      exact load_foldl_store (fun i _ j _ hij => Trapframe.apart _ hij) hf
    · obtain ⟨r, hr, rfl⟩ := (mem_saved f).resolve_right hf
      have hr2 : r.reg ≠ 2 := by
        revert hr
        cases r <;> decide
      have hne : ∀ g ∈ savedLast, g ≠ .gpr r := fun g hg he => hf (he ▸ hg)
      rw [load_foldl_store_of_apart _ fun g hg => Trapframe.apart _ (hne g hg), hm₁, hsp]
      refine (load_foldl_store (o := Gpr.offset) (fun i _ j _ hij => ?_) hr).trans (hget _ hr2)
      exact Trapframe.apart (f := .gpr i) (g := .gpr j) _ fun he => hij (Trapframe.gpr.inj he)
  · show m₂ b = c.mem b
    have hfirst : ∀ r ∈ savedFirst, b ∉ Bytes (stackTop c - 288 + r.offset) 8 :=
      fun r _ => (Trapframe.gpr r).notMem_bytes hb
    rw [hm₂, foldl_store_of_notMem _ fun f _ => Trapframe.notMem_bytes f hb, hm₁, hsp,
      foldl_store_of_notMem _ hfirst, hmem]

/-- The registers that `RESTORE_ALL` loads, without the stack pointer. -/
def restored : List Reg :=
  [1, 3, 4, 5, 6, 7, 8, 9, 10, 11, 12, 13, 14, 15, 16, 17, 18, 19, 20, 21, 22, 23, 24, 25, 26, 27,
    28, 29, 30, 31]

/-- The slot of a register in the trap frame. -/
def slot (r : Reg) : Word := BitVec.ofNat 64 r * 8

theorem restoreAll_eq : restoreAll =
    [.ld 9 (256) 2, .ld 18 (264) 2, .andi 8 9 sstatusSpp, .bnez 8 2, .addi 8 2 (288),
      .csrw .sscratch 8, .csrw .sstatus 9, .csrw .sepc 18] ++
      (restored.map (fun r => .ld r (slot r) 2) ++ [.ld 2 (slot 2) 2]) := by
  rfl

theorem slot_reg (g : Gpr) : slot g.reg = g.offset := by
  rw [slot, Gpr.offset, Gpr.reg_val]

/-- **`RESTORE_ALL`** gives the registers the values in the trap frame, and sets `sscratch` when the
trap came from user mode. -/
theorem restoreAll_spec {t c : Hart} (h : FrameAt t.mem (t.get 2) c) :
    ∃ u, Hart.run 0 restoreAll t = u ∧ (∀ g : Gpr, u.get g.reg = c.get g.reg) ∧
      u.csr .sstatus = c.csr .sstatus ∧ u.csr .sepc = c.csr .sepc ∧
      u.csr .sscratch = (if c.csr .sstatus &&& sstatusSpp = 0 then t.get 2 + 288
        else t.csr .sscratch) ∧ u.mem = t.mem ∧ u.priv = t.priv := by
  have hst : load t.mem (t.get 2 + 256#64) = c.csr .sstatus := h .sstatus
  have hpc : load t.mem (t.get 2 + 264#64) = c.csr .sepc := h .sepc
  obtain ⟨a, ha⟩ : ∃ a, a = t.get 2 := ⟨_, rfl⟩
  rw [← ha] at h hst hpc ⊢
  rw [restoreAll_eq]
  obtain ⟨t₁, ht₁⟩ : ∃ t₁, t₁ = ((t.exec (.ld 9 (256) 2)).exec (.ld 18 (264) 2)).exec
      (.andi 8 9 sstatusSpp) := ⟨_, rfl⟩
  have h8 : t₁.get 8 = c.csr .sstatus &&& sstatusSpp := by
    simp [ht₁, Hart.exec, ← ha, hst]
  have h9 : t₁.get 9 = c.csr .sstatus := by
    simp [ht₁, Hart.exec, ← ha, hst]
  have h18 : t₁.get 18 = c.csr .sepc := by
    simp [ht₁, Hart.exec, ← ha, hpc]
  have h2 : t₁.get 2 = a := by simp [ht₁, Hart.exec, ← ha]
  have hmem : t₁.mem = t.mem := by simp [ht₁, Hart.exec]
  have hpriv : t₁.priv = t.priv := by simp [ht₁, Hart.exec]
  have hcsr : t₁.csr = t.csr := by simp [ht₁, Hart.exec]
  -- after the two branches the loads begin with a hart `t₂`
  obtain ⟨t₂, hrun, h2', hst', hpc', hscratch, hmem', hpriv'⟩ : ∃ t₂ : Hart,
      (∀ is, Hart.run 0 ([.ld 9 (256) 2, .ld 18 (264) 2, .andi 8 9 sstatusSpp, .bnez 8 2,
        .addi 8 2 (288), .csrw .sscratch 8, .csrw .sstatus 9, .csrw .sepc 18] ++ is) t =
          Hart.run 0 is t₂) ∧ t₂.get 2 = a ∧ t₂.csr .sstatus = c.csr .sstatus ∧
      t₂.csr .sepc = c.csr .sepc ∧ t₂.csr .sscratch =
        (if c.csr .sstatus &&& sstatusSpp = 0 then a + 288 else t.csr .sscratch) ∧
      t₂.mem = t.mem ∧ t₂.priv = t.priv := by
    by_cases hspp : c.csr .sstatus &&& sstatusSpp = 0
    · refine ⟨(((t₁.exec (.addi 8 2 288)).exec (.csrw .sscratch 8)).exec (.csrw .sstatus 9)).exec
        (.csrw .sepc 18), fun is => ?_, ?_, ?_, ?_, ?_, ?_, ?_⟩
      · simp only [List.cons_append, List.nil_append, Hart.run, ← ht₁]
        rw [if_pos (h8.trans hspp)]
        simp only [Hart.run]
      · simp [Hart.exec, h2]
      · simp [Hart.exec, h9]
      · simp [Hart.exec, h18]
      · simp [Hart.exec, h2, hspp]
      · simp [Hart.exec, hmem]
      · simp [Hart.exec, hpriv]
    · refine ⟨(t₁.exec (.csrw .sstatus 9)).exec (.csrw .sepc 18), fun is => ?_, ?_, ?_, ?_, ?_, ?_,
        ?_⟩
      · simp only [List.cons_append, List.nil_append, Hart.run, ← ht₁]
        rw [if_neg (h8.trans_ne hspp)]
        simp only [Hart.run]
      · simp [Hart.exec, h2]
      · simp [Hart.exec, h9]
      · simp [Hart.exec, h18]
      · rw [if_neg hspp]
        simp [Hart.exec, hcsr]
      · simp [Hart.exec, hmem]
      · simp [Hart.exec, hpriv]
  obtain ⟨t₃, ht₃⟩ : ∃ t₃ : Hart, t₃ = { t₂ with
    x := fun r => if r ∈ restored then load t₂.mem (a + slot r) else t₂.x r } := ⟨_, rfl⟩
  rw [hrun, Hart.run_ld slot (by decide), h2', ← ht₃]
  have h2₃ : t₃.get 2 = a := by
    rw [← h2', ht₃]
    rfl
  have hmem₃ : t₃.mem = t.mem := by rw [ht₃, hmem']
  refine ⟨t₃.set 2 (load t.mem (a + slot 2)), ?_, fun g => ?_, ?_, ?_, ?_, ?_, ?_⟩
  · simp only [Hart.run, Hart.exec, h2₃, hmem₃]
  · have hg := h (.gpr g)
    simp only [Trapframe.offset, frameValue, ← slot_reg] at hg
    rw [← hg, Hart.get_set]
    by_cases hg0 : g.reg = 0
    · rw [if_pos hg0, hg, hg0]
      rfl
    · rw [if_neg hg0]
      by_cases hg2 : g.reg = 2
      · rw [if_pos hg2, hg2]
      · have hmem : g.reg ∈ restored := by
          revert hg0 hg2
          cases g <;> decide
        rw [if_neg hg2, ht₃, Hart.get, if_neg hg0, ← hmem']
        exact if_pos hmem
  · rw [Hart.csr_set, ht₃, hst']
  · rw [Hart.csr_set, ht₃, hpc']
  · rw [Hart.csr_set, ht₃, hscratch]
  · rw [Hart.mem_set, hmem₃]
  · rw [Hart.priv_set, ht₃, hpriv']

end GarretOS
