import Mathlib.Data.Nat.Bitwise
import Mathlib.Logic.Function.Basic
import Mathlib.Tactic.Common

/-!
# Bytes in words

Memory as an array of little-endian words of eight bytes: reading one byte (`get`), writing one
byte (`put`), and writing a run of bytes (`fill`).

* `byteAt_setByte`, `get_put`, `get_fill` : a write changes the bytes that it is for, and no other.
-/

namespace GarretOS

namespace Bytes

/-- Byte `k` of a word. -/
def byteAt (w k : ℕ) : ℕ := (w >>> (8 * k)) % 2 ^ 8

/-- The word with `b` as byte `k`. -/
def setByte (w k b : ℕ) : ℕ :=
  ((w >>> (8 * (k + 1))) <<< (8 * (k + 1)) ||| (b % 2 ^ 8) <<< (8 * k)) ||| w % 2 ^ (8 * k)

/-- The byte at offset `o`. -/
def get (w : ℕ → ℕ) (o : ℕ) : ℕ := byteAt (w (o / 8)) (o % 8)

/-- Write the byte at offset `o`. -/
def put (w : ℕ → ℕ) (o b : ℕ) : ℕ → ℕ := Function.update w (o / 8) (setByte (w (o / 8)) (o % 8) b)

/-- Write the bytes `f 0`, ..., `f (n - 1)` from offset `o` on. -/
def fill (f : ℕ → ℕ) : ℕ → (ℕ → ℕ) → ℕ → ℕ → ℕ
  | 0, w, _ => w
  | n + 1, w, o => fill (fun i => f (i + 1)) n (put w o (f 0)) (o + 1)

/-- The number with the `n` little-endian bytes `f 0`, ..., `f (n - 1)`. -/
def value (f : ℕ → ℕ) : ℕ → ℕ
  | 0 => 0
  | n + 1 => value f n + f n * 2 ^ (8 * n)

theorem testBit_byteAt (w k i : ℕ) :
    (byteAt w k).testBit i = (decide (i < 8) && w.testBit (8 * k + i)) := by
  rw [byteAt, Nat.testBit_mod_two_pow, Nat.testBit_shiftRight]

theorem byteAt_setByte (w k b j : ℕ) :
    byteAt (setByte w k b) j = if j = k then b % 2 ^ 8 else byteAt w j := by
  refine Nat.eq_of_testBit_eq fun i => ?_
  rw [testBit_byteAt, setByte, Nat.testBit_or, Nat.testBit_or, Nat.testBit_shiftLeft,
    Nat.testBit_shiftLeft, Nat.testBit_shiftRight, Nat.testBit_mod_two_pow, Nat.testBit_mod_two_pow]
  by_cases hi : i < 8
  · rcases lt_trichotomy j k with hj | rfl | hj
    · have h1 : ¬ 8 * j + i ≥ 8 * (k + 1) := by omega
      have h2 : ¬ 8 * j + i ≥ 8 * k := by omega
      have h3 : 8 * j + i < 8 * k := by omega
      simp [hi, h1, h2, h3, hj.ne, testBit_byteAt]
    · have h1 : ¬ 8 * j + i ≥ 8 * (j + 1) := by omega
      rw [if_pos rfl, Nat.testBit_mod_two_pow]
      simp [hi, h1]
    · have h1 : 8 * j + i ≥ 8 * (k + 1) := by omega
      have h2 : ¬ 8 * j + i - 8 * k < 8 := by omega
      have h3 : ¬ 8 * j + i < 8 * k := by omega
      have h4 : 8 * (k + 1) + (8 * j + i - 8 * (k + 1)) = 8 * j + i := by omega
      simp [hi, h1, h2, h3, h4, hj.ne', testBit_byteAt]
  · split_ifs
    · rw [Nat.testBit_mod_two_pow]
      simp [hi]
    · simp [hi, testBit_byteAt]

/-- A byte that has been written is read back, and the others are as before. -/
theorem get_put (w : ℕ → ℕ) (o b p : ℕ) :
    get (put w o b) p = if p = o then b % 2 ^ 8 else get w p := by
  unfold get put
  by_cases hw : p / 8 = o / 8
  · rw [hw, Function.update_self, byteAt_setByte]
    by_cases hp : p = o
    · rw [if_pos hp, if_pos (by rw [hp])]
    · rw [if_neg hp, if_neg (by omega)]
  · rw [Function.update_of_ne hw, if_neg (by rintro rfl; exact hw rfl)]

/-- Bytes that have been written are read back, and the others are as before. -/
theorem get_fill (f : ℕ → ℕ) (n : ℕ) (w : ℕ → ℕ) (o p : ℕ) :
    get (fill f n w o) p = if o ≤ p ∧ p < o + n then f (p - o) % 2 ^ 8 else get w p := by
  induction n generalizing f w o with
  | zero => rw [fill, if_neg (by omega)]
  | succ n ih =>
    rw [fill, ih, get_put]
    rcases lt_trichotomy p o with hp | rfl | hp
    · rw [if_neg (by omega), if_neg (by omega), if_neg (by omega)]
    · rw [if_neg (by omega), if_pos rfl, if_pos (by omega), Nat.sub_self]
    · by_cases hlt : p < o + (n + 1)
      · rw [if_pos (by omega), if_pos (by omega), show p - (o + 1) + 1 = p - o by omega]
      · rw [if_neg (by omega), if_neg (by omega), if_neg (by omega)]

theorem value_lt {f : ℕ → ℕ} (hf : ∀ i, f i < 2 ^ 8) (n : ℕ) : value f n < 2 ^ (8 * n) := by
  induction n with
  | zero => exact Nat.one_pos
  | succ n ih =>
    have h := Nat.mul_le_mul_right (2 ^ (8 * n)) (Nat.le_sub_one_of_lt (hf n))
    have hpow : 2 ^ (8 * (n + 1)) = 2 ^ 8 * 2 ^ (8 * n) := by rw [← Nat.pow_add]; congr 1; omega
    rw [value, hpow]
    omega

end Bytes

end GarretOS
