import GarretOS.Riscv.Basic
import GarretOS.System.Basic

/-!
# Trap entry and exit

The macros `SAVE_ALL` and `RESTORE_ALL` of `kernel/trap/trap_entry.S`, and `struct trapframe` of
`kernel/trap/trap.h`.
-/

namespace GarretOS

open Riscv

/-- `REGBYTES` -/
def regbytes : Word := 1 <<< 3

/-- `SSTATUS_SPP` -/
def sstatusSpp : Word := 0x00000100

/-- `SAVE_ALL` -/
def saveAll : List Instr :=
  [.csrrw 2 .sscratch 2,
    .bnez 2 1,
    -- restore_kernel_sp
    .csrr 2 .sscratch,
    -- save_context
    .addi 2 2 (-36 * regbytes),
    .sd 0 (0 * regbytes) 2,
    .sd 1 (1 * regbytes) 2,
    .sd 3 (3 * regbytes) 2,
    .sd 4 (4 * regbytes) 2,
    .sd 5 (5 * regbytes) 2,
    .sd 6 (6 * regbytes) 2,
    .sd 7 (7 * regbytes) 2,
    .sd 8 (8 * regbytes) 2,
    .sd 9 (9 * regbytes) 2,
    .sd 10 (10 * regbytes) 2,
    .sd 11 (11 * regbytes) 2,
    .sd 12 (12 * regbytes) 2,
    .sd 13 (13 * regbytes) 2,
    .sd 14 (14 * regbytes) 2,
    .sd 15 (15 * regbytes) 2,
    .sd 16 (16 * regbytes) 2,
    .sd 17 (17 * regbytes) 2,
    .sd 18 (18 * regbytes) 2,
    .sd 19 (19 * regbytes) 2,
    .sd 20 (20 * regbytes) 2,
    .sd 21 (21 * regbytes) 2,
    .sd 22 (22 * regbytes) 2,
    .sd 23 (23 * regbytes) 2,
    .sd 24 (24 * regbytes) 2,
    .sd 25 (25 * regbytes) 2,
    .sd 26 (26 * regbytes) 2,
    .sd 27 (27 * regbytes) 2,
    .sd 28 (28 * regbytes) 2,
    .sd 29 (29 * regbytes) 2,
    .sd 30 (30 * regbytes) 2,
    .sd 31 (31 * regbytes) 2,
    .csrrw 8 .sscratch 0,
    .csrr 9 .sstatus,
    .csrr 18 .sepc,
    .csrr 19 .stval,
    .csrr 20 .scause,
    .sd 8 (2 * regbytes) 2,
    .sd 9 (32 * regbytes) 2,
    .sd 18 (33 * regbytes) 2,
    .sd 19 (34 * regbytes) 2,
    .sd 20 (35 * regbytes) 2]

/-- `RESTORE_ALL` -/
def restoreAll : List Instr :=
  [.ld 9 (32 * regbytes) 2,
    .ld 18 (33 * regbytes) 2,
    .andi 8 9 sstatusSpp,
    .bnez 8 2,
    -- save_kernel_sp
    .addi 8 2 (36 * regbytes),
    .csrw .sscratch 8,
    -- restore_context
    .csrw .sstatus 9,
    .csrw .sepc 18,
    .ld 1 (1 * regbytes) 2,
    .ld 3 (3 * regbytes) 2,
    .ld 4 (4 * regbytes) 2,
    .ld 5 (5 * regbytes) 2,
    .ld 6 (6 * regbytes) 2,
    .ld 7 (7 * regbytes) 2,
    .ld 8 (8 * regbytes) 2,
    .ld 9 (9 * regbytes) 2,
    .ld 10 (10 * regbytes) 2,
    .ld 11 (11 * regbytes) 2,
    .ld 12 (12 * regbytes) 2,
    .ld 13 (13 * regbytes) 2,
    .ld 14 (14 * regbytes) 2,
    .ld 15 (15 * regbytes) 2,
    .ld 16 (16 * regbytes) 2,
    .ld 17 (17 * regbytes) 2,
    .ld 18 (18 * regbytes) 2,
    .ld 19 (19 * regbytes) 2,
    .ld 20 (20 * regbytes) 2,
    .ld 21 (21 * regbytes) 2,
    .ld 22 (22 * regbytes) 2,
    .ld 23 (23 * regbytes) 2,
    .ld 24 (24 * regbytes) 2,
    .ld 25 (25 * regbytes) 2,
    .ld 26 (26 * regbytes) 2,
    .ld 27 (27 * regbytes) 2,
    .ld 28 (28 * regbytes) 2,
    .ld 29 (29 * regbytes) 2,
    .ld 30 (30 * regbytes) 2,
    .ld 31 (31 * regbytes) 2,
    .ld 2 (2 * regbytes) 2]

/-- The fields of `struct gpr`, in order. -/
inductive Gpr where
  | zero | ra | sp | gp | tp | t0 | t1 | t2 | s0 | s1 | a0 | a1 | a2 | a3 | a4 | a5 | a6 | a7
  | s2 | s3 | s4 | s5 | s6 | s7 | s8 | s9 | s10 | s11 | t3 | t4 | t5 | t6
  deriving DecidableEq

/-- The fields of `struct trapframe`. -/
inductive Trapframe where
  | gpr (r : Gpr)
  | sstatus
  | sepc
  | stval
  | scause
  deriving DecidableEq

/-- The offset of a field of `struct gpr`: each field before it is a `u64`. -/
def Gpr.offset (r : Gpr) : Word := BitVec.ofNat 64 r.ctorIdx * 8

/-- The offset of a field of `struct trapframe`, behind the 32 fields of `struct gpr`. -/
def Trapframe.offset : Trapframe → Word
  | .gpr r => r.offset
  | .sstatus => 32 * 8
  | .sepc => 33 * 8
  | .stval => 34 * 8
  | .scause => 35 * 8

/-- The register with a name, by the calling convention of RISC-V. -/
def Gpr.reg : Gpr → Reg
  | .zero => 0
  | .ra => 1
  | .sp => 2
  | .gp => 3
  | .tp => 4
  | .t0 => 5
  | .t1 => 6
  | .t2 => 7
  | .s0 => 8
  | .s1 => 9
  | .a0 => 10
  | .a1 => 11
  | .a2 => 12
  | .a3 => 13
  | .a4 => 14
  | .a5 => 15
  | .a6 => 16
  | .a7 => 17
  | .s2 => 18
  | .s3 => 19
  | .s4 => 20
  | .s5 => 21
  | .s6 => 22
  | .s7 => 23
  | .s8 => 24
  | .s9 => 25
  | .s10 => 26
  | .s11 => 27
  | .t3 => 28
  | .t4 => 29
  | .t5 => 30
  | .t6 => 31

/-- The number of fields before a field. -/
def Trapframe.index : Trapframe → ℕ
  | .gpr r => r.ctorIdx
  | .sstatus => 32
  | .sepc => 33
  | .stval => 34
  | .scause => 35

theorem Gpr.ctorIdx_lt (r : Gpr) : r.ctorIdx < 32 := by
  cases r <;> decide

theorem Gpr.reg_val (r : Gpr) : r.reg.val = r.ctorIdx := by
  cases r <;> rfl

theorem Gpr.ctorIdx_inj {r r' : Gpr} (h : r.ctorIdx = r'.ctorIdx) : r = r' := by
  rw [← Gpr.ofNat_ctorIdx r, h, Gpr.ofNat_ctorIdx]

theorem Trapframe.index_lt (f : Trapframe) : f.index < 36 := by
  cases f with
  | gpr r => exact lt_trans r.ctorIdx_lt (by decide)
  | _ => decide

theorem Trapframe.index_inj {f g : Trapframe} (h : f.index = g.index) : f = g := by
  cases f with
  | gpr r =>
    cases g with
    | gpr r' => rw [Gpr.ctorIdx_inj h]
    | _ => exact absurd h (Nat.ne_of_lt (lt_of_lt_of_le r.ctorIdx_lt (by decide)))
  | _ =>
    cases g with
    | gpr r => exact absurd h.symm (Nat.ne_of_lt (lt_of_lt_of_le r.ctorIdx_lt (by decide)))
    | _ => first | rfl | cases h

theorem Trapframe.offset_toNat (f : Trapframe) : f.offset.toNat = 8 * f.index := by
  cases f with
  | gpr r =>
    have := r.ctorIdx_lt
    simp only [offset, Gpr.offset, index]
    bv_omega
  | _ => rfl

/-- The fields lie inside the frame. -/
theorem Trapframe.notMem_bytes {a b : Word} (f : Trapframe) (h : b ∉ Bytes a 288) :
    b ∉ Bytes (a + f.offset) 8 := by
  intro hb
  have hf := f.index_lt
  have hfo := f.offset_toNat
  have hb : (b - (a + f.offset)).toNat < 8 := hb
  refine h (show (b - a).toNat < 288 from ?_)
  bv_omega

/-- Different fields do not overlap. -/
theorem Trapframe.apart (a : Word) {f g : Trapframe} (h : f ≠ g) :
    Apart (a + f.offset) (a + g.offset) := by
  have hf := f.index_lt
  have hg := g.index_lt
  have hne : f.index ≠ g.index := fun he => h (index_inj he)
  have hfo := f.offset_toNat
  have hgo := g.offset_toNat
  constructor <;> bv_omega

end GarretOS
