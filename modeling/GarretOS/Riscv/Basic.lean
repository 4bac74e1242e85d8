import Mathlib.Data.BitVec
import Mathlib.Logic.Function.Basic
import Mathlib.Tactic.Common

/-!
# A fragment of the RISC-V instruction set

Registers, supervisor CSRs and byte memory of a hart, and the instructions that trap entry code is
made of: loads and stores of double words, additions of immediates, swaps with a CSR, and forward
branches.  A program is a list of instructions, and a branch skips a number of the following ones.

* `load_store_self`, `load_store_of_apart` : loads after stores;
* `run_sd`, `run_ld` : sequences of stores and loads relative to one base register.
-/

namespace GarretOS

namespace Riscv

/-- Double words. -/
abbrev Word := BitVec 64

/-- Byte memory. -/
abbrev Memory := Word → BitVec 8

/-- The double word at address `a`, little endian. -/
def load (m : Memory) (a : Word) : Word :=
  m (a + 7) ++ m (a + 6) ++ m (a + 5) ++ m (a + 4) ++ m (a + 3) ++ m (a + 2) ++ m (a + 1) ++ m a

/-- Write the double word `v` at address `a`. -/
def store (m : Memory) (a v : Word) : Memory :=
  fun b => if (b - a).toNat < 8 then v.extractLsb' (8 * (b - a).toNat) 8 else m b

/-- The `n` bytes from `a` on. -/
def Bytes (a : Word) (n : ℕ) : Set Word := {b | (b - a).toNat < n}

/-- The double words at `a` and at `b` have no byte in common. -/
def Apart (a b : Word) : Prop := 8 ≤ (b - a).toNat ∧ 8 ≤ (a - b).toNat

theorem load_congr {m m' : Memory} {a : Word} (h : ∀ b ∈ Bytes a 8, m' b = m b) :
    load m' a = load m a := by
  have hb : ∀ k : Word, k.toNat < 8 → m' (a + k) = m (a + k) := fun k hk => h _ (by
    show (a + k - a).toNat < 8
    bv_omega)
  have h0 : m' a = m a := by simpa using hb 0 (by decide)
  simp only [load, hb 7 (by decide), hb 6 (by decide), hb 5 (by decide), hb 4 (by decide),
    hb 3 (by decide), hb 2 (by decide), hb 1 (by decide), h0]

/-- A load reads back the double word that was stored. -/
theorem load_store_self (m : Memory) (a v : Word) : load (store m a v) a = v := by
  have hb : ∀ (k : Word) (n : ℕ), k.toNat < 8 → 8 * k.toNat = n →
      store m a v (a + k) = v.extractLsb' n 8 := by
    rintro k _ hk rfl
    have hak : a + k - a = k := by bv_omega
    rw [store, hak, if_pos hk]
  have h0 : store m a v a = v.extractLsb' 0 8 := by simpa using hb 0 0 (by decide) (by decide)
  rw [load, hb 7 56 (by decide) (by decide), hb 6 48 (by decide) (by decide),
    hb 5 40 (by decide) (by decide), hb 4 32 (by decide) (by decide),
    hb 3 24 (by decide) (by decide), hb 2 16 (by decide) (by decide),
    hb 1 8 (by decide) (by decide), h0]
  iterate 7 rw [BitVec.extractLsb'_append_extractLsb'_eq_extractLsb' (by decide)]
  exact BitVec.extractLsb'_eq_self

theorem load_store_of_apart {m : Memory} {a b v : Word} (h : Apart a b) :
    load (store m a v) b = load m b := by
  refine load_congr fun c hc => ?_
  obtain ⟨h1, h2⟩ := h
  have hc : (c - b).toNat < 8 := hc
  rw [store, if_neg (by bv_omega)]

/-- A store changes the eight bytes at its address only. -/
theorem store_of_notMem {m : Memory} {a b v : Word} (h : b ∉ Bytes a 8) : store m a v b = m b :=
  if_neg h

/-! ### Instructions -/

/-- The registers `x0` to `x31`. -/
abbrev Reg := Fin 32

/-- The numbers of registers are literals. -/
instance neZeroReg : NeZero 32 := ⟨by decide⟩

/-- Control and status registers of the supervisor. -/
inductive Csr where
  | sstatus
  | sscratch
  | sepc
  | stval
  | scause
  deriving DecidableEq

/-- Privilege modes. -/
inductive Priv where
  | user
  | supervisor
  deriving DecidableEq

/-- A hart and its memory. -/
structure Hart where
  /-- The registers; the entry for `x0` is not used. -/
  x : Reg → Word
  /-- The CSRs. -/
  csr : Csr → Word
  /-- The memory. -/
  mem : Memory
  /-- The privilege mode. -/
  priv : Priv

/-- The instructions; an immediate is given sign extended, and `bnez` skips `n` instructions. -/
inductive Instr where
  | csrrw (rd : Reg) (csr : Csr) (rs : Reg)
  | csrr (rd : Reg) (csr : Csr)
  | csrw (csr : Csr) (rs : Reg)
  | addi (rd rs : Reg) (imm : Word)
  | andi (rd rs : Reg) (imm : Word)
  | sd (rs : Reg) (off : Word) (base : Reg)
  | ld (rd : Reg) (off : Word) (base : Reg)
  | bnez (rs : Reg) (n : ℕ)

namespace Hart

variable (s : Hart)

/-- The value of a register. -/
def get (r : Reg) : Word := if r = 0 then 0 else s.x r

/-- Write a register. -/
def set (r : Reg) (v : Word) : Hart := { s with x := Function.update s.x r v }

/-- Write a CSR. -/
def setCsr (c : Csr) (v : Word) : Hart := { s with csr := Function.update s.csr c v }

@[simp] theorem get_set (r r' : Reg) (v : Word) :
    (s.set r v).get r' = if r' = 0 then 0 else if r' = r then v else s.get r' := by
  unfold get set
  split_ifs <;> simp_all

@[simp] theorem set_set (r : Reg) (v w : Word) : (s.set r v).set r w = s.set r w := by
  simp [set]

@[simp] theorem get_setCsr (c : Csr) (v : Word) (r : Reg) : (s.setCsr c v).get r = s.get r := rfl

@[simp] theorem csr_set (r : Reg) (v : Word) : (s.set r v).csr = s.csr := rfl

@[simp] theorem csr_setCsr (c c' : Csr) (v : Word) :
    (s.setCsr c v).csr c' = if c' = c then v else s.csr c' := by
  simp [setCsr, Function.update_apply]

@[simp] theorem mem_set (r : Reg) (v : Word) : (s.set r v).mem = s.mem := rfl

@[simp] theorem mem_setCsr (c : Csr) (v : Word) : (s.setCsr c v).mem = s.mem := rfl

@[simp] theorem priv_set (r : Reg) (v : Word) : (s.set r v).priv = s.priv := rfl

@[simp] theorem priv_setCsr (c : Csr) (v : Word) : (s.setCsr c v).priv = s.priv := rfl

/-- Execute an instruction; a branch alone does nothing. -/
def exec : Instr → Hart
  | .csrrw rd c rs => (s.setCsr c (s.get rs)).set rd (s.csr c)
  | .csrr rd c => s.set rd (s.csr c)
  | .csrw c rs => s.setCsr c (s.get rs)
  | .addi rd rs imm => s.set rd (s.get rs + imm)
  | .andi rd rs imm => s.set rd (s.get rs &&& imm)
  | .sd rs off base => { s with mem := store s.mem (s.get base + off) (s.get rs) }
  | .ld rd off base => s.set rd (load s.mem (s.get base + off))
  | .bnez _ _ => s

/-- Execute a program from its `n`-th instruction on. -/
def run : ℕ → List Instr → Hart → Hart
  | _, [], s => s
  | n + 1, _ :: is, s => run n is s
  | 0, .bnez rs n :: is, s => run (if s.get rs = 0 then 0 else n) is s
  | 0, i :: is, s => run 0 is (s.exec i)

variable {s}

/-- A sequence of stores of the registers `reg i` relative to the register `base`. -/
theorem run_sd {ι : Type*} (reg : ι → Reg) (o : ι → Word) (base : Reg) (l : List ι)
    (is : List Instr) (s : Hart) :
    run 0 (l.map (fun i => .sd (reg i) (o i) base) ++ is) s =
      run 0 is { s with
        mem := l.foldl (fun m i => store m (s.get base + o i) (s.get (reg i))) s.mem } := by
  induction l generalizing s with
  | nil => rfl
  | cons i l ih =>
    simp only [List.map_cons, List.cons_append, run, exec, ih, List.foldl_cons]
    rfl

/-- A sequence of loads relative to the register `base`, which is not loaded itself. -/
theorem run_ld (o : Reg → Word) {base : Reg} {rs : List Reg} (hb : base ∉ rs) (is : List Instr)
    (s : Hart) :
    run 0 (rs.map (fun r => .ld r (o r) base) ++ is) s =
      run 0 is { s with
        x := fun r => if r ∈ rs then load s.mem (s.get base + o r) else s.x r } := by
  induction rs generalizing s with
  | nil => simp
  | cons r rs ih =>
    rw [List.mem_cons, not_or] at hb
    simp only [List.map_cons, List.cons_append, run, exec, ih hb.2]
    have hget : (s.set r (load s.mem (s.get base + o r))).get base = s.get base := by
      rw [get_set, if_neg hb.1]
      unfold get
      split_ifs <;> rfl
    rw [hget]
    congr 1
    simp only [set, Hart.mk.injEq, and_true]
    funext q
    by_cases hq : q = r
    · subst hq
      simp
    · simp [hq]

/-! ### Traps -/

/-- The bit `SIE` of `sstatus`: interrupts are enabled. -/
def sie : Word := 0x2

/-- The bit `SPIE` of `sstatus`: interrupts were enabled before the trap. -/
def spie : Word := 0x20

/-- The bit `SPP` of `sstatus`: the trap came from supervisor mode. -/
def spp : Word := 0x100

/-- A trap at the address `pc`, up to the first instruction of the trap vector. -/
def takeTrap (s : Hart) (pc cause val : Word) : Hart :=
  let st := s.csr .sstatus
  let st := st &&& ~~~(sie ||| spie ||| spp) ||| (if st &&& sie = 0 then 0 else spie) |||
    (if s.priv = .user then 0 else spp)
  { ((((s.setCsr .sstatus st).setCsr .sepc pc).setCsr .scause cause).setCsr .stval val) with
    priv := .supervisor }

/-- `sret`, without the jump to `sepc`. -/
def sret (s : Hart) : Hart :=
  let st := s.csr .sstatus
  let st' := st &&& ~~~(sie ||| spp) ||| spie ||| (if st &&& spie = 0 then 0 else sie)
  { s.setCsr .sstatus st' with priv := if st &&& spp = 0 then .user else .supervisor }

/-- The trap records the privilege mode that it came from. -/
theorem takeTrap_spp (s : Hart) (pc cause val : Word) :
    (s.takeTrap pc cause val).csr .sstatus &&& spp = if s.priv = .user then 0 else spp := by
  have hst : (s.takeTrap pc cause val).csr .sstatus = s.csr .sstatus &&& ~~~(sie ||| spie ||| spp) |||
      (if s.csr .sstatus &&& sie = 0 then 0 else spie) ||| (if s.priv = .user then 0 else spp) := by
    simp [takeTrap, setCsr]
  have h1 : ~~~(sie ||| spie ||| spp) &&& spp = 0 := by decide
  have h2 : (if s.csr .sstatus &&& sie = 0 then 0 else spie) &&& spp = 0 := by
    split_ifs <;> decide
  have h3 : (if s.priv = .user then 0 else spp) &&& spp = if s.priv = .user then 0 else spp := by
    split_ifs <;> decide
  rw [hst, BitVec.and_or_distrib_right, BitVec.and_or_distrib_right, BitVec.and_assoc, h1, h2, h3]
  simp

theorem takeTrap_sscratch (s : Hart) (pc cause val : Word) :
    (s.takeTrap pc cause val).csr .sscratch = s.csr .sscratch := by
  simp [takeTrap, setCsr]

end Hart

/-! ### Sequences of stores -/

variable {ι : Type*} {a : Word} {o v : ι → Word} {m : Memory}

/-- A sequence of stores changes only the bytes at its addresses. -/
theorem foldl_store_of_notMem (is : List ι) {b : Word} (h : ∀ i ∈ is, b ∉ Bytes (a + o i) 8) :
    is.foldl (fun m i => store m (a + o i) (v i)) m b = m b := by
  induction is generalizing m with
  | nil => rfl
  | cons i is ih =>
    rw [List.foldl_cons, ih fun j hj => h j (by simp [hj])]
    exact store_of_notMem (h i (by simp))

/-- A load that overlaps none of a sequence of stores. -/
theorem load_foldl_store_of_apart (is : List ι) {b : Word} (h : ∀ i ∈ is, Apart (a + o i) b) :
    load (is.foldl (fun m i => store m (a + o i) (v i)) m) b = load m b := by
  induction is generalizing m with
  | nil => rfl
  | cons i is ih =>
    rw [List.foldl_cons, ih fun j hj => h j (by simp [hj])]
    exact load_store_of_apart (h i (by simp))

/-- Each double word is read back after a sequence of stores that do not overlap. -/
theorem load_foldl_store {is : List ι} (h : ∀ i ∈ is, ∀ j ∈ is, i ≠ j → Apart (a + o i) (a + o j))
    {i : ι} (hi : i ∈ is) :
    load (is.foldl (fun m i => store m (a + o i) (v i)) m) (a + o i) = v i := by
  induction is using List.reverseRecOn with
  | nil => cases hi
  | append_singleton is j ih =>
    rw [List.foldl_append, List.foldl_cons, List.foldl_nil]
    by_cases hij : i = j
    · subst hij
      exact load_store_self _ _ _
    · have hi' : i ∈ is := by simpa [hij] using hi
      rw [load_store_of_apart (h j (by simp) i hi (Ne.symm hij))]
      exact ih (fun p hp q hq => h p (by simp [hp]) q (by simp [hq])) hi'

end Riscv

end GarretOS
