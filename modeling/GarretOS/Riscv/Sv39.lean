import Mathlib.Algebra.Group.Nat.Defs
import Mathlib.Data.Nat.Notation
import Mathlib.Tactic.Common

/-!
# Sv39 address translation

The page table walk of a RISC-V hart in the mode Sv39.  Physical memory is given by the page table
entries of each page: `pte p i` is the double word number `i` of the page `p`.  Of the virtual
address only the low 39 bits matter.  Whether the access is allowed by the leaf entry that the walk
ends at is not part of the walk.
-/

namespace GarretOS

namespace Riscv

namespace Sv39

/-- Bit `i` of an entry is set. -/
def Bit (e i : ℕ) : Prop := e / 2 ^ i % 2 = 1

instance (e i : ℕ) : Decidable (Bit e i) := by
  unfold Bit
  infer_instance

/-- The entry stops the walk: it is not valid (bit 0), it can be written but not read (bits 2 and
1), or a reserved bit is set. -/
def Faults (e : ℕ) : Prop := ¬ Bit e 0 ∨ (Bit e 2 ∧ ¬ Bit e 1) ∨ 2 ^ 54 ≤ e

instance (e : ℕ) : Decidable (Faults e) := by
  unfold Faults
  infer_instance

/-- The entry maps memory: it can be read (bit 1) or executed (bit 3). -/
def Maps (e : ℕ) : Prop := Bit e 1 ∨ Bit e 3

instance (e : ℕ) : Decidable (Maps e) := by
  unfold Maps
  infer_instance

/-- The physical page number of an entry. -/
def ppn (e : ℕ) : ℕ := e / 2 ^ 10 % 2 ^ 44

/-- The index of a virtual address in a table of a level. -/
def vpn (level va : ℕ) : ℕ := va / 2 ^ (12 + 9 * level) % 2 ^ 9

/-- What an entry of a table of a level leads to; `next` is where the walk goes on if it does. -/
def follow (e level va : ℕ) (next : Option ℕ) : Option ℕ :=
  if Faults e then none
  else if Maps e then
    -- a superpage is aligned to its size
    if ppn e % 2 ^ (9 * level) = 0 then some (ppn e * 2 ^ 12 + va % 2 ^ (12 + 9 * level)) else none
  else next

/-- The walk from a table of a level on: the physical address, or `none` for a page fault. -/
def walk (pte : ℕ → ℕ → ℕ) (va : ℕ) : ℕ → ℕ → Option ℕ
  | 0, table => follow (pte table (vpn 0 va)) 0 va none
  | level + 1, table => follow (pte table (vpn (level + 1) va)) (level + 1) va
      (walk pte va level (ppn (pte table (vpn (level + 1) va))))

/-- The translation of a virtual address with the root table `root`. -/
def translate (pte : ℕ → ℕ → ℕ) (root va : ℕ) : Option ℕ := walk pte va 2 root

variable {e level va : ℕ} {next : Option ℕ}

theorem follow_fault (h : Faults e) : follow e level va next = none := if_pos h

theorem follow_pointer (h : ¬ Faults e) (h' : ¬ Maps e) : follow e level va next = next := by
  rw [follow, if_neg h, if_neg h']

theorem follow_page (h : ¬ Faults e) (h' : Maps e) :
    follow e 0 va next = some (ppn e * 2 ^ 12 + va % 2 ^ 12) := by
  have haligned : ppn e % 2 ^ (9 * 0) = 0 := Nat.mod_one (ppn e)
  simp only [follow, if_neg h, if_pos h', if_pos haligned, Nat.mul_zero, Nat.add_zero]

/-- Without a next table the walk ends only at an entry that maps memory. -/
theorem follow_none (h : ¬ Maps e) : follow e level va none = none := by
  unfold follow
  split_ifs <;> rfl

end Sv39

end Riscv

end GarretOS
