import GarretOS.Trap.Frame
import Mathlib.Data.Set.Lattice
import Mathlib.Order.CompletePartialOrder

/-!
# Context switches

`switch_proc` of `kernel/proc/switch.S`, `fork_ret` of `kernel/trap/trap_entry.S`, and what
`copy_proc` of `kernel/proc/proc.c` writes for a new process: its trap frame, at the top of its
kernel stack, and the two fields of its context with which `switch_proc` goes to `curr_fork_ret`.

* `switchProc_spec` : `switch_proc` saves one context and loads the other one;
* `copyProc_frame`, `copyProc_context`, `copyProc_other` : the memory after `copy_proc`;
* `forkRet_values` : `fork_ret` loads the registers from a trap frame.
-/

namespace GarretOS

open Riscv

/-- `switch_proc`, without the jump to `ra` at its end. -/
def switchProc : List Instr :=
  -- save from's registers
  [.sd 1 (0 * regbytes) 10,
    .sd 2 (1 * regbytes) 10,
    .sd 8 (2 * regbytes) 10,
    .sd 9 (3 * regbytes) 10,
    .sd 18 (4 * regbytes) 10,
    .sd 19 (5 * regbytes) 10,
    .sd 20 (6 * regbytes) 10,
    .sd 21 (7 * regbytes) 10,
    .sd 22 (8 * regbytes) 10,
    .sd 23 (9 * regbytes) 10,
    .sd 24 (10 * regbytes) 10,
    .sd 25 (11 * regbytes) 10,
    .sd 26 (12 * regbytes) 10,
    .sd 27 (13 * regbytes) 10,
    -- restore to's registers
    .ld 1 (0 * regbytes) 11,
    .ld 2 (1 * regbytes) 11,
    .ld 8 (2 * regbytes) 11,
    .ld 9 (3 * regbytes) 11,
    .ld 18 (4 * regbytes) 11,
    .ld 19 (5 * regbytes) 11,
    .ld 20 (6 * regbytes) 11,
    .ld 21 (7 * regbytes) 11,
    .ld 22 (8 * regbytes) 11,
    .ld 23 (9 * regbytes) 11,
    .ld 24 (10 * regbytes) 11,
    .ld 25 (11 * regbytes) 11,
    .ld 26 (12 * regbytes) 11,
    .ld 27 (13 * regbytes) 11]

/-- `fork_ret` up to `sret`: it jumps to `trap_ret`. -/
def forkRet : List Instr := .addi 2 10 0 :: restoreAll

/-- The fields of `struct context`, in order. -/
inductive Context where
  | ra | sp | s0 | s1 | s2 | s3 | s4 | s5 | s6 | s7 | s8 | s9 | s10 | s11
  deriving DecidableEq

namespace Context

/-- The offset of a field: each field before it is a `u64`. -/
def offset (f : Context) : Word := BitVec.ofNat 64 f.ctorIdx * 8

/-- The register with a name, by the calling convention of RISC-V. -/
def reg : Context → Reg
  | ra => 1
  | sp => 2
  | s0 => 8
  | s1 => 9
  | s2 => 18
  | s3 => 19
  | s4 => 20
  | s5 => 21
  | s6 => 22
  | s7 => 23
  | s8 => 24
  | s9 => 25
  | s10 => 26
  | s11 => 27

/-- All fields. -/
def fields : List Context := [ra, sp, s0, s1, s2, s3, s4, s5, s6, s7, s8, s9, s10, s11]

theorem mem_fields (f : Context) : f ∈ fields := by
  cases f <;> decide

theorem ctorIdx_lt (f : Context) : f.ctorIdx < 14 := by
  cases f <;> decide

theorem ctorIdx_inj {f g : Context} (h : f.ctorIdx = g.ctorIdx) : f = g := by
  rw [← ofNat_ctorIdx f, h, ofNat_ctorIdx]

theorem offset_toNat (f : Context) : f.offset.toNat = 8 * f.ctorIdx := by
  have := f.ctorIdx_lt
  simp only [offset]
  bv_omega

/-- The fields lie inside the context. -/
theorem notMem_bytes {a b : Word} (f : Context) (h : b ∉ Bytes a 112) :
    b ∉ Bytes (a + f.offset) 8 := by
  intro hb
  have hf := f.ctorIdx_lt
  have hfo := f.offset_toNat
  have hb : (b - (a + f.offset)).toNat < 8 := hb
  refine h (show (b - a).toNat < 112 from ?_)
  bv_omega

/-- Different fields do not overlap. -/
theorem apart (a : Word) {f g : Context} (h : f ≠ g) : Apart (a + f.offset) (a + g.offset) := by
  have hf := f.ctorIdx_lt
  have hg := g.ctorIdx_lt
  have hne : f.ctorIdx ≠ g.ctorIdx := fun he => h (ctorIdx_inj he)
  have hfo := f.offset_toNat
  have hgo := g.offset_toNat
  constructor <;> bv_omega

/-- The offset of the field that a register is saved in. -/
def slot (r : Reg) : Word :=
  BitVec.ofNat 64 (if r.val ≤ 2 then r.val - 1 else if r.val ≤ 9 then r.val - 6 else r.val - 14) * 8

theorem slot_reg (f : Context) : slot f.reg = f.offset := by
  cases f <;> rfl

end Context

/-! ### `switch_proc` -/

theorem switchProc_eq : switchProc =
    Context.fields.map (fun f => .sd f.reg f.offset 10) ++
      ((Context.fields.map Context.reg).map (fun r => .ld r (Context.slot r) 11) ++ []) := by
  rfl

/-- **`switch_proc`** saves the registers in the one context and loads them from the other. -/
theorem switchProc_spec {t : Hart}
    (hd : Disjoint (Bytes (t.get 10) 112) (Bytes (t.get 11) 112)) :
    ∃ u, Hart.run 0 switchProc t = u ∧
      (∀ f : Context, load u.mem (t.get 10 + f.offset) = t.get f.reg) ∧
      (∀ f : Context, u.get f.reg = load t.mem (t.get 11 + f.offset)) ∧
      (∀ b ∉ Bytes (t.get 10) 112, u.mem b = t.mem b) ∧ u.csr = t.csr ∧ u.priv = t.priv := by
  obtain ⟨m, hm⟩ : ∃ m, m = Context.fields.foldl
      (fun m f => store m (t.get 10 + f.offset) (t.get f.reg)) t.mem := ⟨_, rfl⟩
  have hother : ∀ b ∉ Bytes (t.get 10) 112, m b = t.mem b := by
    intro b hb
    rw [hm, foldl_store_of_notMem _ fun f _ => f.notMem_bytes hb]
  have hload : ∀ f : Context, load m (t.get 11 + f.offset) = load t.mem (t.get 11 + f.offset) := by
    intro f
    refine load_congr fun b hb => hother b fun hb' => ?_
    exact f.notMem_bytes (Set.disjoint_left.1 hd hb') hb
  have h11 : ({ t with mem := m } : Hart).get 11 = t.get 11 := rfl
  rw [switchProc_eq, Hart.run_sd, ← hm, Hart.run_ld _ (by decide), Hart.run, h11]
  refine ⟨_, rfl, fun f => ?_, fun f => ?_, hother, rfl, rfl⟩
  · show load m (t.get 10 + f.offset) = t.get f.reg
    rw [hm]
    exact load_foldl_store (fun i _ j _ hij => Context.apart _ hij) f.mem_fields
  · have hreg : f.reg ≠ 0 := by cases f <;> decide
    have hmem : f.reg ∈ Context.fields.map Context.reg := List.mem_map_of_mem f.mem_fields
    rw [Hart.get, if_neg hreg, ← hload f, ← Context.slot_reg]
    exact if_pos hmem

/-! ### `copy_proc` -/

/-- `KERNEL_STACK_SIZE` -/
def kernelStackSize : Word := 2 <<< 12

/-- The memory holds a trap frame with these fields at `a`. -/
def HoldsFrame (m : Memory) (a : Word) (w : Trapframe → Word) : Prop :=
  ∀ f : Trapframe, load m (a + f.offset) = w f

/-- The memory holds a context with these fields at `a`. -/
def HoldsContext (m : Memory) (a : Word) (w : Context → Word) : Prop :=
  ∀ f : Context, load m (a + f.offset) = w f

/-- `*dst = *src`, for structures of `n` bytes. -/
def copyBytes (m : Memory) (dst src : Word) (n : ℕ) : Memory :=
  fun b => if (b - dst).toNat < n then m (b - dst + src) else m b

/-- `proc->context = (struct context) { 0 }` -/
def initContext (m : Memory) (context : Word) : Memory :=
  fun b => if (b - context).toNat < 112 then 0 else m b

/-- `proc->tf` of a new process. -/
def newTrapframe (kernelStack : Word) : Word := kernelStack + kernelStackSize - 288

/-- `copy_proc`, for a process with its context at `context`; `entry` is the address of
`curr_fork_ret`. -/
def copyProc (m : Memory) (context kernelStack stack tf entry : Word) : Memory :=
  let frame := newTrapframe kernelStack
  let m := copyBytes m frame tf 288
  let m := store m (frame + (Trapframe.gpr .a0).offset) 0
  let m := store m (frame + (Trapframe.gpr .sp).offset) (if stack ≠ 0 then stack else frame - 4)
  let m := store m (context + Context.ra.offset) entry
  store m (context + Context.sp.offset) frame

/-- The trap frame of a new process: the one of its parent, apart from two fields. -/
def childFrame (w : Trapframe → Word) (stack frame : Word) : Trapframe → Word :=
  Function.update (Function.update w (.gpr .a0) 0) (.gpr .sp) (if stack ≠ 0 then stack else frame - 4)

/-- The context of a new process. -/
def firstContext (entry frame : Word) : Context → Word
  | .ra => entry
  | .sp => frame
  | _ => 0

variable {m m' : Memory} {a b context kernelStack stack tf entry : Word} {w : Trapframe → Word}

theorem childFrame_eq (w : Trapframe → Word) (stack frame : Word) (f : Trapframe) :
    childFrame w stack frame f = if f = .gpr .a0 then 0
      else if f = .gpr .sp then (if stack ≠ 0 then stack else frame - 4) else w f := by
  by_cases hsp : f = .gpr .sp
  · rw [childFrame, hsp, Function.update_self]
    simp
  · rw [childFrame, Function.update_of_ne hsp, if_neg hsp, Function.update_apply]

theorem HoldsFrame.congr (h : HoldsFrame m a w) (hm : ∀ b ∈ Bytes a 288, m' b = m b) :
    HoldsFrame m' a w := by
  intro f
  rw [← h f]
  refine load_congr fun b hb => hm b ?_
  by_contra hno
  exact f.notMem_bytes hno hb

theorem HoldsContext.congr {w : Context → Word} (h : HoldsContext m a w)
    (hm : ∀ b ∈ Bytes a 112, m' b = m b) : HoldsContext m' a w := by
  intro f
  rw [← h f]
  refine load_congr fun b hb => hm b ?_
  by_contra hno
  exact f.notMem_bytes hno hb

/-- A field of a trap frame is written. -/
theorem HoldsFrame.store (h : HoldsFrame m a w) (f : Trapframe) (v : Word) :
    HoldsFrame (store m (a + f.offset) v) a (Function.update w f v) := by
  intro g
  by_cases hg : g = f
  · subst hg
    rw [load_store_self, Function.update_self]
  · rw [load_store_of_apart (Trapframe.apart a (Ne.symm hg)), Function.update_of_ne hg]
    exact h g

/-- A field of a context is written. -/
theorem HoldsContext.store {w : Context → Word} (h : HoldsContext m a w) (f : Context) (v : Word) :
    HoldsContext (Riscv.store m (a + f.offset) v) a (Function.update w f v) := by
  intro g
  by_cases hg : g = f
  · subst hg
    rw [load_store_self, Function.update_self]
  · rw [load_store_of_apart (Context.apart a (Ne.symm hg)), Function.update_of_ne hg]
    exact h g

/-- The copy of a trap frame. -/
theorem HoldsFrame.copyBytes (h : HoldsFrame m tf w) (a : Word) :
    HoldsFrame (copyBytes m a tf 288) a w := by
  intro f
  rw [← h f]
  have hf := f.index_lt
  have hfo := f.offset_toNat
  have hb : ∀ k : Word, k.toNat < 8 →
      GarretOS.copyBytes m a tf 288 (a + f.offset + k) = m (tf + f.offset + k) := by
    intro k hk
    have hin : (a + f.offset + k - a).toNat < 288 := by bv_omega
    have heq : a + f.offset + k - a + tf = tf + f.offset + k := by bv_omega
    rw [GarretOS.copyBytes, if_pos hin, heq]
  have h0 : GarretOS.copyBytes m a tf 288 (a + f.offset) = m (tf + f.offset) := by
    simpa using hb 0 (by decide)
  simp only [load, hb 7 (by decide), hb 6 (by decide), hb 5 (by decide), hb 4 (by decide),
    hb 3 (by decide), hb 2 (by decide), hb 1 (by decide), h0]

theorem copyBytes_of_notMem (h : b ∉ Bytes a 288) : copyBytes m a tf 288 b = m b := if_neg h

theorem initContext_of_notMem (h : b ∉ Bytes context 112) : initContext m context b = m b := if_neg h

theorem initContext_holds (m : Memory) (context : Word) :
    HoldsContext (initContext m context) context fun _ => 0 := by
  intro f
  have hf := f.ctorIdx_lt
  have hfo := f.offset_toNat
  have hb : ∀ k : Word, k.toNat < 8 → initContext m context (context + f.offset + k) = 0 := by
    intro k hk
    refine if_pos ?_
    bv_omega
  have h0 : initContext m context (context + f.offset) = 0 := by simpa using hb 0 (by decide)
  simp only [load, hb 7 (by decide), hb 6 (by decide), hb 5 (by decide), hb 4 (by decide),
    hb 3 (by decide), hb 2 (by decide), hb 1 (by decide), h0]
  decide

/-- A store into a field of a context. -/
theorem store_context_of_notMem {f : Context} {v : Word} (h : b ∉ Bytes context 112) :
    store m (context + f.offset) v b = m b := store_of_notMem (f.notMem_bytes h)

/-- A store into a field of a trap frame. -/
theorem store_frame_of_notMem {f : Trapframe} {v : Word} (h : b ∉ Bytes a 288) :
    store m (a + f.offset) v b = m b := store_of_notMem (f.notMem_bytes h)

/-- `copy_proc` writes the trap frame and the context of the new process only. -/
theorem copyProc_other (h₁ : b ∉ Bytes (newTrapframe kernelStack) 288)
    (h₂ : b ∉ Bytes context 112) : copyProc m context kernelStack stack tf entry b = m b := by
  unfold copyProc
  rw [store_context_of_notMem h₂, store_context_of_notMem h₂, store_frame_of_notMem h₁,
    store_frame_of_notMem h₁, copyBytes_of_notMem h₁]

/-- **The trap frame of a new process** is a copy, with `a0 = 0` and its own stack pointer. -/
theorem copyProc_frame (h : HoldsFrame m tf w)
    (hd : Disjoint (Bytes (newTrapframe kernelStack) 288) (Bytes context 112)) :
    HoldsFrame (copyProc m context kernelStack stack tf entry) (newTrapframe kernelStack)
      (childFrame w stack (newTrapframe kernelStack)) := by
  have h₁ := ((h.copyBytes (newTrapframe kernelStack)).store (.gpr .a0) 0).store (.gpr .sp)
    (if stack ≠ 0 then stack else newTrapframe kernelStack - 4)
  refine h₁.congr fun b hb => ?_
  have hno := Set.disjoint_left.1 hd hb
  unfold copyProc
  rw [store_context_of_notMem hno, store_context_of_notMem hno]

/-- **The context of a new process** leads to `curr_fork_ret`, with the trap frame on top of the
stack. -/
theorem copyProc_context (h : HoldsContext m context fun _ => 0)
    (hd : Disjoint (Bytes (newTrapframe kernelStack) 288) (Bytes context 112)) :
    HoldsContext (copyProc m context kernelStack stack tf entry) context
      (firstContext entry (newTrapframe kernelStack)) := by
  have h₁ : HoldsContext (store (store (copyBytes m (newTrapframe kernelStack) tf 288)
      (newTrapframe kernelStack + (Trapframe.gpr .a0).offset) 0)
      (newTrapframe kernelStack + (Trapframe.gpr .sp).offset)
      (if stack ≠ 0 then stack else newTrapframe kernelStack - 4)) context fun _ => 0 := by
    refine h.congr fun b hb => ?_
    have hno := Set.disjoint_right.1 hd hb
    rw [store_frame_of_notMem hno, store_frame_of_notMem hno, copyBytes_of_notMem hno]
  have hfields : firstContext entry (newTrapframe kernelStack) =
      Function.update (Function.update (fun _ => 0) .ra entry) .sp (newTrapframe kernelStack) := by
    funext f
    cases f <;> rfl
  rw [hfields]
  exact (h₁.store .ra entry).store .sp _

/-! ### Returns -/

/-- A hart with the registers of a trap frame. -/
def frameHart (w : Trapframe → Word) (t : Hart) : Hart where
  x r := w (.gpr (Gpr.ofNat r))
  csr
    | .sstatus => w .sstatus
    | .sscratch => 0
    | .sepc => w .sepc
    | .stval => w .stval
    | .scause => w .scause
  mem := t.mem
  priv := t.priv

theorem frameValue_frameHart {t : Hart} (h : w (.gpr .zero) = 0) (f : Trapframe) :
    frameValue (frameHart w t) f = w f := by
  cases f with
  | gpr g =>
    show (frameHart w t).get g.reg = _
    unfold Hart.get
    split_ifs with hg
    · have : g = .zero := by
        revert hg
        cases g <;> decide
      rw [this, h]
    · show w (.gpr (Gpr.ofNat g.reg.val)) = _
      rw [Gpr.reg_val, Gpr.ofNat_ctorIdx]
  | _ => rfl

/-- **`RESTORE_ALL`** loads the fields of the trap frame at `sp`. -/
theorem restoreAll_values {t : Hart} (h : HoldsFrame t.mem (t.get 2) w) (h0 : w (.gpr .zero) = 0) :
    ∃ u, Hart.run 0 restoreAll t = u ∧ (∀ g : Gpr, u.get g.reg = w (.gpr g)) ∧
      u.csr .sstatus = w .sstatus ∧ u.csr .sepc = w .sepc ∧
      u.csr .sscratch = (if w .sstatus &&& sstatusSpp = 0 then t.get 2 + 288
        else t.csr .sscratch) ∧ u.mem = t.mem ∧ u.priv = t.priv := by
  have hframe : FrameAt t.mem (t.get 2) (frameHart w t) := by
    intro f
    rw [frameValue_frameHart h0]
    exact h f
  obtain ⟨u, hu, hreg, hst, hpc, hscr, hmem, hpriv⟩ := restoreAll_spec hframe
  exact ⟨u, hu, fun g => (hreg g).trans (frameValue_frameHart h0 (.gpr g)), hst, hpc, hscr, hmem,
    hpriv⟩

/-- **`fork_ret`** loads the fields of the trap frame that it is given. -/
theorem forkRet_values {t : Hart} (h : HoldsFrame t.mem (t.get 10) w) (h0 : w (.gpr .zero) = 0) :
    ∃ u, Hart.run 0 forkRet t = u ∧ (∀ g : Gpr, u.get g.reg = w (.gpr g)) ∧
      u.csr .sstatus = w .sstatus ∧ u.csr .sepc = w .sepc ∧
      u.csr .sscratch = (if w .sstatus &&& sstatusSpp = 0 then t.get 10 + 288
        else t.csr .sscratch) ∧ u.mem = t.mem ∧ u.priv = t.priv := by
  obtain ⟨t₁, ht₁⟩ : ∃ t₁, t₁ = t.exec (.addi 2 10 0) := ⟨_, rfl⟩
  have h2 : t₁.get 2 = t.get 10 := by simp [ht₁, Hart.exec]
  have hmem : t₁.mem = t.mem := by simp [ht₁, Hart.exec]
  have hcsr : t₁.csr = t.csr := by simp [ht₁, Hart.exec]
  have hpriv : t₁.priv = t.priv := by simp [ht₁, Hart.exec]
  have hrun : Hart.run 0 forkRet t = Hart.run 0 restoreAll t₁ := by
    rw [forkRet, Hart.run, ht₁]
    all_goals simp
  have hframe : HoldsFrame t₁.mem (t₁.get 2) w := by
    rw [hmem, h2]
    exact h
  rw [hrun, ← h2, ← hcsr, ← hmem, ← hpriv]
  exact restoreAll_values hframe h0

end GarretOS
