import GarretOS.Trap.Nesting
import GarretOS.Trap.Switch

/-!
# Processes on the hart

One hart runs all processes.  Each of them has a kernel stack with its trap frames and a context in
its structure `struct pcb`; they take traps, return from them, create other processes and switch to
them with `run_proc`, in any order.

* `Machine.Ok` : the trap frames of a process lie on its own kernel stack and are intact, and a
  process that is not running has its context in memory;
* `Machine.Ok.step` : what the hart does keeps this.

The address space that `run_proc` changes is left out: kernel memory is the same in all of them.
-/

namespace GarretOS

open Riscv

/-- The addresses of `proc->context`, and of `curr_fork_ret`. -/
structure Layout (ν : Type) where
  context : ν → Word
  currForkRet : Word

/-- The hart and the processes. -/
structure Machine (ν : Type) where
  /-- The hart. -/
  hart : Hart
  /-- `g_curr_proc` -/
  curr : ν
  /-- The structures that are allocated. -/
  inUse : ν → Bool
  /-- `proc->kernel_stack` -/
  kernelStack : ν → Word
  /-- The trap frames on the kernel stack of a process, the last one first. -/
  frames : ν → List (Word × (Trapframe → Word))
  /-- The registers with which a process called `switch_proc`. -/
  saved : ν → Context → Word

/-- What the hart does next. -/
inductive MachineOp (ν : Type) where
  /-- It computes. -/
  | compute
  /-- It writes a field of the trap frame of the trap that it handles. -/
  | write (field : Trapframe) (v : Word)
  /-- It takes a trap and saves its registers. -/
  | trap (pc cause val : Word)
  /-- It restores its registers and returns from a trap. -/
  | ret
  /-- It begins to run a new process, in `fork_ret`. -/
  | forkRet
  /-- `run_proc` -/
  | runProc (proc : ν)
  /-- `alloc_proc` and `copy_proc` -/
  | doFork (proc : ν) (kernelStack stack tf : Word)
  /-- `free(proc, sizeof(struct pcb))`, after `free_kernel_stack` -/
  | free (proc : ν)
  deriving DecidableEq

namespace Machine

variable {ν : Type} (L : Layout ν) (s : Machine ν)

/-- The bytes of the kernel stack of a process. -/
def stack (p : ν) : Set Word := Bytes (s.kernelStack p) 8192

/-- `m` has the trap frames and the contexts of the processes. -/
def Keeps (m : Memory) : Prop :=
  ∀ p, s.inUse p = true → (∀ f ∈ s.frames p, ∀ b ∈ Bytes f.1 288, m b = s.hart.mem b) ∧
    ∀ b ∈ Bytes (L.context p) 112, m b = s.hart.mem b

/-- The structure `proc` and the kernel stack at `kernelStack` have been allocated for a new
process: they are apart from each other and from those of the other processes. -/
structure Fresh (proc : ν) (kernelStack : Word) : Prop where
  unused : s.inUse proc = false
  high : kernelStack.toNat + 8192 < 2 ^ 64
  own : Disjoint (Bytes (L.context proc) 112) (Bytes kernelStack 8192)
  stack : ∀ p, s.inUse p = true → Disjoint (s.stack p) (Bytes kernelStack 8192)
  context : ∀ p, s.inUse p = true → Disjoint (Bytes (L.context p) 112) (Bytes (L.context proc) 112)
  stack_context : ∀ p, s.inUse p = true → Disjoint (Bytes (L.context proc) 112) (s.stack p)
  context_stack : ∀ p, s.inUse p = true → Disjoint (Bytes (L.context p) 112) (Bytes kernelStack 8192)

/-- The hart becomes `h`, and the running process has the trap frames `l`. -/
def setFrames [DecidableEq ν] (h : Hart) (l : List (Word × (Trapframe → Word))) : Machine ν :=
  { s with hart := h, frames := Function.update s.frames s.curr l }

end Machine

/-- A computation leaves `sscratch`, the trap frames and the contexts alone.  A handler clears `SPP`
only in the last trap frame that is left.  A trap from the kernel finds room on the stack.  A return
begins with the stack pointer at the trap frame, and `fork_ret` with its argument. -/
def MachineOp.Step {ν : Type} [DecidableEq ν] (L : Layout ν) (s : Machine ν) (op : MachineOp ν)
    (s' : Machine ν) : Prop :=
  match op with
  | .compute => ∃ h : Hart, s' = { s with hart := h } ∧ h.priv = s.hart.priv ∧
      h.csr .sscratch = s.hart.csr .sscratch ∧ s.Keeps L h.mem
  | .write field v => ∃ a w fs, s.frames s.curr = (a, w) :: fs ∧ s.hart.priv = .supervisor ∧
      field ≠ .gpr .zero ∧ (field = .sstatus → v &&& sstatusSpp = 0 → fs = []) ∧
      s' = s.setFrames { s.hart with mem := store s.hart.mem (a + field.offset) v }
        ((a, Function.update w field v) :: fs)
  | .trap pc cause val => ∃ c t, c = s.hart.takeTrap pc cause val ∧ t = Hart.run 0 saveAll c ∧
      (s.hart.priv = .supervisor → Bytes (t.get 2) 288 ⊆ s.stack s.curr ∧
        ∀ f ∈ s.frames s.curr, Disjoint (Bytes (t.get 2) 288) (Bytes f.1 288)) ∧
      s' = s.setFrames t ((t.get 2, frameValue c) :: s.frames s.curr)
  | .ret => ∃ f fs, s.frames s.curr = f :: fs ∧ s.hart.priv = .supervisor ∧ s.hart.get 2 = f.1 ∧
      s' = s.setFrames (Hart.run 0 restoreAll s.hart).sret fs
  | .forkRet => ∃ f fs, s.frames s.curr = f :: fs ∧ s.hart.priv = .supervisor ∧
      s.hart.get 10 = f.1 ∧ s' = s.setFrames (Hart.run 0 GarretOS.forkRet s.hart).sret fs
  | .runProc proc => proc ≠ s.curr ∧ s.inUse proc = true ∧ s.hart.priv = .supervisor ∧
      s.hart.get 10 = L.context s.curr ∧ s.hart.get 11 = L.context proc ∧
      s' = { s with
        hart := Hart.run 0 switchProc s.hart
        curr := proc
        saved := Function.update s.saved s.curr fun f => s.hart.get f.reg }
  | .doFork proc kernelStack stack tf => s.Fresh L proc kernelStack ∧ s.hart.priv = .supervisor ∧
      Disjoint (Bytes tf 288) (Bytes (L.context proc) 112) ∧
      load s.hart.mem (tf + (Trapframe.gpr .zero).offset) = 0 ∧
      s' = { s with
        hart := { s.hart with
          mem := copyProc (initContext s.hart.mem (L.context proc)) (L.context proc) kernelStack
            stack tf L.currForkRet }
        inUse := Function.update s.inUse proc true
        kernelStack := Function.update s.kernelStack proc kernelStack
        frames := Function.update s.frames proc [(newTrapframe kernelStack,
          childFrame (fun f => load s.hart.mem (tf + f.offset)) stack (newTrapframe kernelStack))]
        saved := Function.update s.saved proc
          (firstContext L.currForkRet (newTrapframe kernelStack)) }
  | .free proc => proc ≠ s.curr ∧ s' = { s with inUse := Function.update s.inUse proc false }

/-- After boot only `idle` runs, on the boot stack. -/
def machineSystem {ν : Type} [DecidableEq ν] (L : Layout ν) :
    System (Machine ν) (MachineOp ν) where
  init s := (∀ p, s.inUse p = true ↔ p = s.curr) ∧ s.hart.priv = .supervisor ∧
    s.hart.csr .sscratch = 0 ∧ s.frames s.curr = [] ∧ (s.kernelStack s.curr).toNat + 8192 < 2 ^ 64 ∧
    Disjoint (Bytes (L.context s.curr) 112) (s.stack s.curr)
  step s op s' := op.Step L s s'

/-! ### The trap frames of one process -/

/-- The trap frames of a process, the last one first, on the kernel stack at `k`. -/
structure FramesOk (m : Memory) (k : Word) (l : List (Word × (Trapframe → Word))) : Prop where
  holds : ∀ f ∈ l, HoldsFrame m f.1 f.2
  zero : ∀ f ∈ l, f.2 (.gpr .zero) = 0
  inside : ∀ f ∈ l, Bytes f.1 288 ⊆ Bytes k 8192
  nested : l.Pairwise fun f g =>
    f.2 .sstatus &&& sstatusSpp ≠ 0 ∧ Disjoint (Bytes f.1 288) (Bytes g.1 288)

section FramesOk

variable {m m' : Memory} {k a : Word} {w : Trapframe → Word} {f : Word × (Trapframe → Word)}
  {l : List (Word × (Trapframe → Word))}

theorem FramesOk.congr (h : FramesOk m k l) (hm : ∀ f ∈ l, ∀ b ∈ Bytes f.1 288, m' b = m b) :
    FramesOk m' k l :=
  ⟨fun f hf => (h.holds f hf).congr (hm f hf), h.zero, h.inside, h.nested⟩

/-- Memory that is not on the kernel stack changes. -/
theorem FramesOk.apart (h : FramesOk m k l) {R : Set Word} (hd : Disjoint R (Bytes k 8192))
    (hm : ∀ b ∉ R, m' b = m b) : FramesOk m' k l :=
  h.congr fun f hf b hb => hm b (Set.disjoint_right.1 hd (h.inside f hf hb))

theorem FramesOk.nil : FramesOk m k [] := ⟨by simp, by simp, by simp, .nil⟩

theorem FramesOk.tail (h : FramesOk m k (f :: l)) : FramesOk m k l :=
  ⟨fun g hg => h.holds g (List.mem_cons_of_mem _ hg),
    fun g hg => h.zero g (List.mem_cons_of_mem _ hg),
    fun g hg => h.inside g (List.mem_cons_of_mem _ hg), (List.pairwise_cons.1 h.nested).2⟩

/-- Another trap frame is written. -/
theorem FramesOk.cons (h : FramesOk m k l) (hf : HoldsFrame m' a w) (h0 : w (.gpr .zero) = 0)
    (hin : Bytes a 288 ⊆ Bytes k 8192) (hspp : l ≠ [] → w .sstatus &&& sstatusSpp ≠ 0)
    (hd : ∀ f ∈ l, Disjoint (Bytes a 288) (Bytes f.1 288)) (hm : ∀ b ∉ Bytes a 288, m' b = m b) :
    FramesOk m' k ((a, w) :: l) := by
  have hl : FramesOk m' k l := h.congr fun f hfl b hb => hm b (Set.disjoint_right.1 (hd f hfl) hb)
  refine ⟨?_, ?_, ?_, List.pairwise_cons.2 ⟨fun g hg => ⟨hspp (List.ne_nil_of_mem hg), hd g hg⟩,
    h.nested⟩⟩
  · exact List.forall_mem_cons.2 ⟨hf, hl.holds⟩
  · exact List.forall_mem_cons.2 ⟨h0, h.zero⟩
  · exact List.forall_mem_cons.2 ⟨hin, h.inside⟩

/-- A trap frame on a kernel stack does not end at address 0. -/
theorem end_ne_zero (hin : Bytes a 288 ⊆ Bytes k 8192) (hhigh : k.toNat + 8192 < 2 ^ 64) :
    a + 288 ≠ 0 := by
  intro h0
  have hlast : a + 287 ∈ Bytes a 288 := by
    show (a + 287 - a).toNat < 288
    bv_omega
  have hk : (a + 287 - k).toNat < 8192 := hin hlast
  bv_omega

end FramesOk

/-! ### The invariant -/

namespace Machine

variable {ν : Type} {L : Layout ν} {s s' : Machine ν} {h : Hart} {p : ν}

/-- What holds of the hart and of the processes. -/
structure Ok (L : Layout ν) (s : Machine ν) : Prop where
  curr_mem : s.inUse s.curr = true
  kernel : s.hart.priv = .supervisor → s.hart.csr .sscratch = 0
  /-- A trap from user mode finds room on the kernel stack of the running process. -/
  user : s.hart.priv = .user → s.frames s.curr = [] ∧ s.hart.csr .sscratch ≠ 0 ∧
    Bytes (s.hart.csr .sscratch - 288) 288 ⊆ s.stack s.curr
  frames : ∀ p, s.inUse p = true → FramesOk s.hart.mem (s.kernelStack p) (s.frames p)
  context : ∀ p, s.inUse p = true → p ≠ s.curr →
    HoldsContext s.hart.mem (L.context p) (s.saved p)
  high : ∀ p, s.inUse p = true → (s.kernelStack p).toNat + 8192 < 2 ^ 64
  stack_stack : ∀ p q, s.inUse p = true → s.inUse q = true → p ≠ q → Disjoint (s.stack p) (s.stack q)
  contexts : ∀ p q, s.inUse p = true → s.inUse q = true → p ≠ q →
    Disjoint (Bytes (L.context p) 112) (Bytes (L.context q) 112)
  context_stack : ∀ p q, s.inUse p = true → s.inUse q = true →
    Disjoint (Bytes (L.context p) 112) (s.stack q)

theorem Ok.init [DecidableEq ν] (hs : (machineSystem L).init s) : s.Ok L := by
  obtain ⟨huse, hpriv, hscr, hframes, hhigh, hd⟩ := hs
  have heq : ∀ p, s.inUse p = true → p = s.curr := fun p => (huse p).1
  refine ⟨(huse _).2 rfl, fun _ => hscr, fun hu => ?_, fun p hp => ?_, fun p hp hne => ?_,
    fun p hp => ?_, fun p q hp hq hne => ?_, fun p q hp hq hne => ?_, fun p q hp hq => ?_⟩
  · rw [hpriv] at hu
    cases hu
  · rw [heq p hp, hframes]
    exact .nil
  · exact absurd (heq p hp) hne
  · rw [heq p hp]
    exact hhigh
  · exact absurd ((heq p hp).trans (heq q hq).symm) hne
  · exact absurd ((heq p hp).trans (heq q hq).symm) hne
  · rw [heq p hp, heq q hq]
    exact hd

/-- The memory changes only in a part `R` of the kernel stack of the running process. -/
theorem Ok.others (hs : s.Ok L) {R : Set Word} (hR : R ⊆ s.stack s.curr) {m : Memory}
    (hm : ∀ b ∉ R, m b = s.hart.mem b) :
    (∀ p, s.inUse p = true → p ≠ s.curr → FramesOk m (s.kernelStack p) (s.frames p)) ∧
      ∀ p, s.inUse p = true → p ≠ s.curr → HoldsContext m (L.context p) (s.saved p) := by
  refine ⟨fun p hp hne => ?_, fun p hp hne => ?_⟩
  · exact (hs.frames p hp).apart
      (Set.disjoint_of_subset_left hR (hs.stack_stack _ p hs.curr_mem hp hne.symm)) hm
  · refine (hs.context p hp hne).congr fun b hb => hm b fun hbR => ?_
    exact Set.disjoint_left.1 (hs.context_stack p _ hp hs.curr_mem) hb (hR hbR)

variable [DecidableEq ν]

/-- **A step of the running process on its own kernel stack.** -/
theorem Ok.setFrames (hs : s.Ok L) {l : List (Word × (Trapframe → Word))} {R : Set Word}
    (hR : R ⊆ s.stack s.curr) (hm : ∀ b ∉ R, h.mem b = s.hart.mem b)
    (hkernel : h.priv = .supervisor → h.csr .sscratch = 0)
    (huser : h.priv = .user → l = [] ∧ h.csr .sscratch ≠ 0 ∧
      Bytes (h.csr .sscratch - 288) 288 ⊆ s.stack s.curr)
    (hl : FramesOk h.mem (s.kernelStack s.curr) l) : (s.setFrames h l).Ok L := by
  obtain ⟨hframes, hcontext⟩ := hs.others hR hm
  refine ⟨hs.curr_mem, hkernel, fun hu => ?_, fun p hp => ?_, hcontext, hs.high, hs.stack_stack,
    hs.contexts, hs.context_stack⟩
  · show Function.update s.frames s.curr l s.curr = [] ∧ _
    rw [Function.update_self]
    exact huser hu
  · show FramesOk h.mem (s.kernelStack p) (Function.update s.frames s.curr l p)
    by_cases hpc : p = s.curr
    · rw [hpc, Function.update_self]
      exact hl
    · rw [Function.update_of_ne hpc]
      exact hframes p hp hpc

omit [DecidableEq ν] in
/-- The hart computes. -/
theorem Ok.compute (hs : s.Ok L) (hpriv : h.priv = s.hart.priv)
    (hscr : h.csr .sscratch = s.hart.csr .sscratch) (hm : s.Keeps L h.mem) :
    ({ s with hart := h } : Machine ν).Ok L := by
  refine ⟨hs.curr_mem, fun hk => ?_, fun hu => ?_, fun p hp => (hs.frames p hp).congr (hm p hp).1,
    fun p hp hne => (hs.context p hp hne).congr (hm p hp).2, hs.high, hs.stack_stack, hs.contexts,
    hs.context_stack⟩
  · exact hscr.trans (hs.kernel (hpriv.symm.trans hk))
  · show s.frames s.curr = [] ∧ h.csr .sscratch ≠ 0 ∧ Bytes (h.csr .sscratch - 288) 288 ⊆ _
    rw [hscr]
    exact hs.user (hpriv.symm.trans hu)

/-- A handler writes a field of its trap frame. -/
theorem Ok.write (hs : s.Ok L) {a v : Word} {w : Trapframe → Word}
    {fs : List (Word × (Trapframe → Word))} {field : Trapframe}
    (hf : s.frames s.curr = (a, w) :: fs) (hpriv : s.hart.priv = .supervisor)
    (hzero : field ≠ .gpr .zero) (hspp : field = .sstatus → v &&& sstatusSpp = 0 → fs = []) :
    (s.setFrames { s.hart with mem := store s.hart.mem (a + field.offset) v }
      ((a, Function.update w field v) :: fs)).Ok L := by
  have hok := hs.frames s.curr hs.curr_mem
  rw [hf] at hok
  have hin : Bytes a 288 ⊆ s.stack s.curr := hok.inside _ List.mem_cons_self
  have hm : ∀ b ∉ Bytes a 288, store s.hart.mem (a + field.offset) v b = s.hart.mem b :=
    fun b hb => store_frame_of_notMem hb
  obtain ⟨hnest, -⟩ := List.pairwise_cons.1 hok.nested
  refine hs.setFrames hin hm hs.kernel (fun hu => ?_) (hok.tail.cons ?_ ?_ hin (fun hne => ?_)
    (fun f hfs => (hnest f hfs).2) hm)
  · have hu' : s.hart.priv = .user := hu
    rw [hpriv] at hu'
    cases hu'
  · exact (hok.holds _ List.mem_cons_self).store field v
  · rw [Function.update_of_ne hzero.symm]
    exact hok.zero _ List.mem_cons_self
  · by_cases hst : field = .sstatus
    · rw [hst, Function.update_self]
      exact fun h0 => hne (hspp hst h0)
    · rw [Function.update_of_ne (Ne.symm hst)]
      obtain ⟨g, gs, rfl⟩ := List.exists_cons_of_ne_nil hne
      exact (hnest g List.mem_cons_self).1

/-- A trap. -/
theorem Ok.trap (hs : s.Ok L) {pc cause val : Word} {c t : Hart}
    (hc : c = s.hart.takeTrap pc cause val) (ht : t = Hart.run 0 saveAll c)
    (hroom : s.hart.priv = .supervisor → Bytes (t.get 2) 288 ⊆ s.stack s.curr ∧
      ∀ f ∈ s.frames s.curr, Disjoint (Bytes (t.get 2) 288) (Bytes f.1 288)) :
    (s.setFrames t ((t.get 2, frameValue c) :: s.frames s.curr)).Ok L := by
  obtain ⟨t', ht', h2, h0, hp, hframe, hmem⟩ := saveAll_spec c
  obtain rfl : t = t' := ht.trans ht'
  have hspp := s.hart.takeTrap_spp pc cause val
  have hscr := s.hart.takeTrap_sscratch pc cause val
  rw [← hc] at hspp hscr
  have hcm : c.mem = s.hart.mem := by rw [hc]; rfl
  have hpriv : t.priv = .supervisor := by rw [hp, hc]; rfl
  rw [← h2] at hframe hmem
  rw [hcm] at hmem
  -- the trap frame lies on the kernel stack of the running process
  have hin : Bytes (t.get 2) 288 ⊆ s.stack s.curr ∧
      ∀ f ∈ s.frames s.curr, Disjoint (Bytes (t.get 2) 288) (Bytes f.1 288) := by
    cases hpr : s.hart.priv with
    | user =>
      obtain ⟨hnil, hne, hsub⟩ := hs.user hpr
      rw [← hscr] at hne hsub
      rw [h2, stackTop, if_neg hne, hnil]
      exact ⟨hsub, by simp⟩
    | supervisor => exact hroom hpr
  refine hs.setFrames hin.1 hmem (fun _ => h0) (fun hu => ?_)
    ((hs.frames _ hs.curr_mem).cons hframe ?_ hin.1 (fun hne => ?_) hin.2 hmem)
  · rw [hpriv] at hu
    cases hu
  · simp [frameValue, Hart.get, Gpr.reg]
  · show c.csr .sstatus &&& Hart.spp ≠ 0
    rw [hspp]
    cases hpr : s.hart.priv with
    | user => exact absurd (hs.user hpr).1 hne
    | supervisor =>
      rw [if_neg (by decide)]
      decide

/-- A return, after the registers have been loaded from the last trap frame. -/
theorem Ok.ret (hs : s.Ok L) {f : Word × (Trapframe → Word)}
    {fs : List (Word × (Trapframe → Word))} (hf : s.frames s.curr = f :: fs)
    (hpriv : s.hart.priv = .supervisor) {u : Hart}
    (hst : u.csr .sstatus = f.2 .sstatus)
    (hscr : u.csr .sscratch = if f.2 .sstatus &&& sstatusSpp = 0 then f.1 + 288
      else s.hart.csr .sscratch) (hmem : u.mem = s.hart.mem) :
    (s.setFrames u.sret fs).Ok L := by
  have hok := hs.frames s.curr hs.curr_mem
  rw [hf] at hok
  have hin : Bytes f.1 288 ⊆ s.stack s.curr := hok.inside _ List.mem_cons_self
  obtain ⟨hnest, -⟩ := List.pairwise_cons.1 hok.nested
  have hpriv' : (Hart.sret u).priv =
      if f.2 .sstatus &&& sstatusSpp = 0 then .user else .supervisor := by
    rw [← hst]
    rfl
  have hscr' : (Hart.sret u).csr .sscratch = u.csr .sscratch := by
    simp [Hart.sret, Hart.setCsr]
  refine hs.setFrames hin (fun b _ => ?_) (fun hk => ?_) (fun hu => ?_)
    (hok.tail.congr fun g _ b _ => ?_)
  · exact congrFun hmem b
  · rw [hpriv'] at hk
    by_cases hspp : f.2 .sstatus &&& sstatusSpp = 0
    · rw [if_pos hspp] at hk
      cases hk
    · rw [hscr', hscr, if_neg hspp]
      exact hs.kernel hpriv
  · rw [hpriv'] at hu
    by_cases hspp : f.2 .sstatus &&& sstatusSpp = 0
    · rw [hscr', hscr, if_pos hspp, BitVec.add_sub_cancel]
      refine ⟨?_, end_ne_zero hin (hs.high _ hs.curr_mem), hin⟩
      cases fs with
      | nil => rfl
      | cons g gs => exact absurd hspp (hnest g List.mem_cons_self).1
    · rw [if_neg hspp] at hu
      cases hu
  · exact congrFun hmem b

omit [DecidableEq ν] in
/-- `run_proc` : the registers of the process that goes on, and of the one that is suspended. -/
theorem Ok.switch (hs : s.Ok L) {q : ν} (hq : s.inUse q = true) (hne : q ≠ s.curr)
    (h10 : s.hart.get 10 = L.context s.curr) (h11 : s.hart.get 11 = L.context q) :
    ∃ u, Hart.run 0 switchProc s.hart = u ∧ (∀ f : Context, u.get f.reg = s.saved q f) ∧
      HoldsContext u.mem (L.context s.curr) (fun f => s.hart.get f.reg) ∧
      (∀ b ∉ Bytes (L.context s.curr) 112, u.mem b = s.hart.mem b) ∧
      u.csr = s.hart.csr ∧ u.priv = s.hart.priv := by
  have hd : Disjoint (Bytes (s.hart.get 10) 112) (Bytes (s.hart.get 11) 112) := by
    rw [h10, h11]
    exact hs.contexts _ _ hs.curr_mem hq hne.symm
  obtain ⟨u, hu, hsaved, hload, hmem, hcsr, hpriv⟩ := switchProc_spec hd
  rw [h10] at hsaved hmem
  rw [h11] at hload
  exact ⟨u, hu, fun f => (hload f).trans (hs.context q hq hne f), hsaved, hmem, hcsr, hpriv⟩

/-- **`run_proc`** -/
theorem Ok.runProc (hs : s.Ok L) {q : ν} (hq : s.inUse q = true) (hne : q ≠ s.curr)
    (hpriv : s.hart.priv = .supervisor) (h10 : s.hart.get 10 = L.context s.curr)
    (h11 : s.hart.get 11 = L.context q) :
    ({ s with
      hart := Hart.run 0 switchProc s.hart
      curr := q
      saved := Function.update s.saved s.curr fun f => s.hart.get f.reg } : Machine ν).Ok L := by
  obtain ⟨u, hu, -, hsaved, hmem, hcsr, hp⟩ := hs.switch hq hne h10 h11
  rw [hu]
  refine ⟨hq, fun _ => ?_, fun hk => ?_, fun p hp' => ?_, fun p hp' hpq => ?_, hs.high,
    hs.stack_stack, hs.contexts, hs.context_stack⟩
  · show u.csr .sscratch = 0
    rw [hcsr]
    exact hs.kernel hpriv
  · rw [show u.priv = .supervisor from hp.trans hpriv] at hk
    cases hk
  · exact (hs.frames p hp').apart (hs.context_stack _ p hs.curr_mem hp') hmem
  · show HoldsContext u.mem (L.context p) (Function.update s.saved s.curr _ p)
    by_cases hpc : p = s.curr
    · rw [hpc, Function.update_self]
      exact hsaved
    · rw [Function.update_of_ne hpc]
      refine (hs.context p hp' hpc).congr fun b hb => hmem b fun hbc => ?_
      exact Set.disjoint_left.1 (hs.contexts p _ hp' hs.curr_mem hpc) hb hbc

omit [DecidableEq ν] in
/-- The trap frame of a new process lies at the top of its kernel stack. -/
theorem newTrapframe_inside (k : Word) : Bytes (newTrapframe k) 288 ⊆ Bytes k 8192 := by
  intro b (hb : (b - newTrapframe k).toNat < 288)
  show (b - k).toNat < 8192
  have hb : (b - (k + 8192 - 288)).toNat < 288 := hb
  bv_omega

omit [DecidableEq ν] in
/-- `copy_proc` changes nothing apart from the new kernel stack and the new context. -/
theorem copyProc_init {m : Memory} {context k stack tf entry b : Word} (hb : b ∉ Bytes k 8192)
    (hbc : b ∉ Bytes context 112) :
    copyProc (initContext m context) context k stack tf entry b = m b := by
  rw [copyProc_other (fun hf => hb (newTrapframe_inside k hf)) hbc, initContext_of_notMem hbc]

omit [DecidableEq ν] in
/-- A relation between processes, when there is a new one. -/
theorem pairs_insert {U V : ν → Prop} {proc : ν} {R : ν → ν → Prop}
    (hV : ∀ p, V p → p = proc ∨ p ≠ proc ∧ U p)
    (hold : ∀ p q, p ≠ proc → q ≠ proc → U p → U q → p ≠ q → R p q)
    (hl : ∀ q, q ≠ proc → U q → R proc q) (hr : ∀ p, p ≠ proc → U p → R p proc) :
    ∀ p q, V p → V q → p ≠ q → R p q := by
  intro p q hp hq hpq
  rcases hV p hp with rfl | ⟨hpp, hp⟩
  · rcases hV q hq with rfl | ⟨hqp, hq⟩
    · exact absurd rfl hpq
    · exact hl q hqp hq
  · rcases hV q hq with rfl | ⟨hqp, hq⟩
    · exact hr p hpp hp
    · exact hold p q hpp hqp hp hq hpq

omit [DecidableEq ν] in
/-- The trap frame of a new process is a copy of the one at `tf`. -/
theorem copyProc_framesOk {m : Memory} {c k stack tf r : Word}
    (htf : Disjoint (Bytes tf 288) (Bytes c 112))
    (h0 : load m (tf + (Trapframe.gpr .zero).offset) = 0)
    (hown : Disjoint (Bytes (newTrapframe k) 288) (Bytes c 112)) :
    FramesOk (copyProc (initContext m c) c k stack tf r) k [(newTrapframe k,
      childFrame (fun f => load m (tf + f.offset)) stack (newTrapframe k))] := by
  have hframe : HoldsFrame (initContext m c) tf fun f => load m (tf + f.offset) :=
    HoldsFrame.congr (m := m) (fun _ => rfl) fun b hb =>
      initContext_of_notMem (Set.disjoint_left.1 htf hb)
  refine ⟨?_, ?_, ?_, List.pairwise_singleton _ _⟩
  · rw [List.forall_mem_singleton]
    exact copyProc_frame hframe hown
  · rw [List.forall_mem_singleton]
    exact h0
  · rw [List.forall_mem_singleton]
    exact newTrapframe_inside k

/-- **`do_fork`** -/
theorem Ok.doFork (hs : s.Ok L) {proc : ν} {k stack tf : Word} (hfresh : s.Fresh L proc k)
    (htf : Disjoint (Bytes tf 288) (Bytes (L.context proc) 112))
    (h0 : load s.hart.mem (tf + (Trapframe.gpr .zero).offset) = 0)
    (hs' : s' = { s with
      hart := { s.hart with
        mem := copyProc (initContext s.hart.mem (L.context proc)) (L.context proc) k stack tf
          L.currForkRet }
      inUse := Function.update s.inUse proc true
      kernelStack := Function.update s.kernelStack proc k
      frames := Function.update s.frames proc [(newTrapframe k,
        childFrame (fun f => load s.hart.mem (tf + f.offset)) stack (newTrapframe k))]
      saved := Function.update s.saved proc (firstContext L.currForkRet (newTrapframe k)) }) :
    s'.Ok L := by
  have hne : ∀ p, s.inUse p = true → p ≠ proc := by
    rintro p hp rfl
    rw [hfresh.unused] at hp
    cases hp
  have hcurr := hne _ hs.curr_mem
  have huse : ∀ p, s'.inUse p = true → p = proc ∨ p ≠ proc ∧ s.inUse p = true := by
    intro p hp
    by_cases hpp : p = proc
    · exact Or.inl hpp
    · refine Or.inr ⟨hpp, ?_⟩
      rw [hs'] at hp
      exact (Function.update_of_ne hpp true s.inUse) ▸ hp
  have hstack : ∀ p, p ≠ proc → s'.stack p = s.stack p := by
    intro p hp
    rw [hs', Machine.stack, Machine.stack]
    exact congrArg (Bytes · 8192) (Function.update_of_ne hp _ _)
  have hstack' : s'.stack proc = Bytes k 8192 := by
    rw [hs', Machine.stack]
    exact congrArg (Bytes · 8192) (Function.update_self _ _ _)
  have hk : s'.kernelStack proc = k := by
    rw [hs']
    exact Function.update_self _ _ _
  have hk' : ∀ p, p ≠ proc → s'.kernelStack p = s.kernelStack p := by
    intro p hp
    rw [hs']
    exact Function.update_of_ne hp _ _
  have hown : Disjoint (Bytes (newTrapframe k) 288) (Bytes (L.context proc) 112) :=
    Set.disjoint_of_subset_left (newTrapframe_inside k) hfresh.own.symm
  -- only the new kernel stack and the context of `proc` are written
  have hmem : ∀ b, b ∉ Bytes k 8192 → b ∉ Bytes (L.context proc) 112 →
      s'.hart.mem b = s.hart.mem b := by
    intro b hb hbc
    rw [hs']
    exact copyProc_init hb hbc
  -- the new process by what `copy_proc` has stored, the others because nothing of theirs is written
  refine ⟨?_, fun hk => ?_, fun hu => ?_, fun p hp => ?_, fun p hp hpc => ?_, fun p hp => ?_,
    pairs_insert huse (fun p q hpp hqp hp hq hpq => ?_) (fun q hqp hq => ?_) fun p hpp hp => ?_,
    pairs_insert huse (fun p q _ _ hp hq hpq => hs.contexts p q hp hq hpq)
      (fun q _ hq => (hfresh.context q hq).symm) fun p _ hp => hfresh.context p hp,
    fun p q hp hq => ?_⟩
  · rw [hs']
    exact (Function.update_of_ne hcurr _ _).trans hs.curr_mem
  · rw [hs'] at hk ⊢
    exact hs.kernel hk
  · have hstack_curr : s'.stack s'.curr = s.stack s.curr := by
      rw [show s'.curr = s.curr by rw [hs']]
      exact hstack _ hcurr
    rw [hstack_curr]
    rw [hs'] at hu ⊢
    show Function.update s.frames proc _ s.curr = [] ∧ _
    rw [Function.update_of_ne hcurr]
    exact hs.user hu
  · rcases huse p hp with rfl | ⟨hpp, hp⟩
    · rw [hk, hs']
      show FramesOk _ k (Function.update s.frames p _ p)
      rw [Function.update_self]
      exact copyProc_framesOk htf h0 hown
    · have hframes : s'.frames p = s.frames p := by
        rw [hs']
        exact Function.update_of_ne hpp _ _
      rw [hframes, hk' p hpp]
      refine (hs.frames p hp).congr fun f hf b hb => ?_
      have hbs := (hs.frames p hp).inside f hf hb
      exact hmem b (Set.disjoint_left.1 (hfresh.stack p hp) hbs)
        (Set.disjoint_right.1 (hfresh.stack_context p hp) hbs)
  · rcases huse p hp with rfl | ⟨hpp, hp⟩
    · rw [hs']
      show HoldsContext _ (L.context p) (Function.update s.saved p _ p)
      rw [Function.update_self]
      exact copyProc_context (initContext_holds _ _) hown
    · have hsaved : s'.saved p = s.saved p := by
        rw [hs']
        exact Function.update_of_ne hpp _ _
      have hcurr' : s'.curr = s.curr := by rw [hs']
      rw [hsaved]
      refine (hs.context p hp (hcurr' ▸ hpc)).congr fun b hb => hmem b ?_ ?_
      · exact Set.disjoint_left.1 (hfresh.context_stack p hp) hb
      · exact Set.disjoint_left.1 (hfresh.context p hp) hb
  · rcases huse p hp with rfl | ⟨hpp, hp⟩
    · rw [hk]
      exact hfresh.high
    · rw [hk' p hpp]
      exact hs.high p hp
  · rw [hstack p hpp, hstack q hqp]
    exact hs.stack_stack p q hp hq hpq
  · rw [hstack', hstack q hqp]
    exact (hfresh.stack q hq).symm
  · rw [hstack', hstack p hpp]
    exact hfresh.stack p hp
  · rcases huse p hp with rfl | ⟨hpp, hp⟩
    · rcases huse q hq with rfl | ⟨hqp, hq⟩
      · rw [hstack']
        exact hfresh.own
      · rw [hstack q hqp]
        exact hfresh.stack_context q hq
    · rcases huse q hq with rfl | ⟨hqp, hq⟩
      · rw [hstack']
        exact hfresh.context_stack p hp
      · rw [hstack q hqp]
        exact hs.context_stack p q hp hq

/-- A process that is not running is freed. -/
theorem Ok.free (hs : s.Ok L) {proc : ν} (hne : proc ≠ s.curr) :
    ({ s with inUse := Function.update s.inUse proc false } : Machine ν).Ok L := by
  have huse : ∀ p, Function.update s.inUse proc false p = true → s.inUse p = true := by
    intro p hp
    by_cases hpp : p = proc
    · rw [hpp, Function.update_self] at hp
      cases hp
    · rwa [Function.update_of_ne hpp] at hp
  exact ⟨(Function.update_of_ne hne.symm _ _).trans hs.curr_mem, hs.kernel, hs.user,
    fun p hp => hs.frames p (huse p hp), fun p hp => hs.context p (huse p hp),
    fun p hp => hs.high p (huse p hp),
    fun p q hp hq => hs.stack_stack p q (huse p hp) (huse q hq),
    fun p q hp hq => hs.contexts p q (huse p hp) (huse q hq),
    fun p q hp hq => hs.context_stack p q (huse p hp) (huse q hq)⟩

/-- **What the hart does keeps the invariant.** -/
theorem Ok.step {op : MachineOp ν} (hs : s.Ok L) (hop : op.Step L s s') : s'.Ok L := by
  cases op with
  | compute =>
    obtain ⟨h, rfl, hpriv, hscr, hm⟩ := hop
    exact hs.compute hpriv hscr hm
  | write field v =>
    obtain ⟨a, w, fs, hf, hpriv, hzero, hspp, rfl⟩ := hop
    exact hs.write hf hpriv hzero hspp
  | trap pc cause val =>
    obtain ⟨c, t, hc, ht, hroom, rfl⟩ := hop
    exact hs.trap hc ht hroom
  | ret =>
    obtain ⟨f, fs, hf, hpriv, hsp, rfl⟩ := hop
    have hok := hs.frames s.curr hs.curr_mem
    have hmem : f ∈ s.frames s.curr := by simp [hf]
    have hframe := hok.holds f hmem
    rw [← hsp] at hframe
    obtain ⟨u, hu, -, hst, -, hscr, hm, -⟩ := restoreAll_values hframe (hok.zero f hmem)
    rw [hsp] at hscr
    rw [hu]
    exact hs.ret hf hpriv hst hscr hm
  | forkRet =>
    obtain ⟨f, fs, hf, hpriv, hsp, rfl⟩ := hop
    have hok := hs.frames s.curr hs.curr_mem
    have hmem : f ∈ s.frames s.curr := by simp [hf]
    have hframe := hok.holds f hmem
    rw [← hsp] at hframe
    obtain ⟨u, hu, -, hst, -, hscr, hm, -⟩ := forkRet_values hframe (hok.zero f hmem)
    rw [hsp] at hscr
    rw [hu]
    exact hs.ret hf hpriv hst hscr hm
  | runProc proc =>
    obtain ⟨hne, hq, hpriv, h10, h11, rfl⟩ := hop
    exact hs.runProc hq hne hpriv h10 h11
  | doFork proc k stack tf =>
    obtain ⟨hfresh, -, htf, h0, heq⟩ := hop
    exact hs.doFork hfresh htf h0 heq
  | free proc =>
    obtain ⟨hne, rfl⟩ := hop
    exact hs.free hne

end Machine

/-- The invariant holds in every state that is reached. -/
theorem machine_ok {ν : Type} [DecidableEq ν] {L : Layout ν} {s : Machine ν}
    (h : (machineSystem L).Reachable s) : s.Ok L :=
  h.invariant (fun _ => Machine.Ok.init) fun _ _ _ hs hop => hs.step hop

end GarretOS
