import Mathlib.Algebra.Order.Group.Unbundled.Int
import Mathlib.Tactic.Common

/-!
# Serial numbers

Numbers modulo `m` that wrap around are compared by the signed residue of their difference
(`Serial.diff`).  This is no order on all residues, but it is one on every set of numbers that are
pairwise within a window `w` with `3 * w < m` (`Serial.diff_add`).  A number that is least in such
a set may advance by up to `w` without leaving the window (`Serial.Near.advance`).
-/

namespace GarretOS

namespace Serial

variable {m : ℕ} {w a b c d : ℤ}

/-- The signed distance from `b` to `a`. -/
def diff (m : ℕ) (a b : ℤ) : ℤ := Int.bmod (a - b) m

/-- The distance is at most `w` either way. -/
def Near (m : ℕ) (w a b : ℤ) : Prop := -w ≤ diff m a b ∧ diff m a b ≤ w

/-- The distance is the one small number that is congruent to the difference. -/
theorem diff_eq (hd : (m : ℤ) ∣ d - (a - b)) (h1 : -(m : ℤ) < 2 * d) (h2 : 2 * d < m) :
    diff m a b = d := by
  refine (Int.bmod_eq_iff (by omega)).2 ⟨by omega, by omega, hd⟩

theorem dvd_diff_sub (m : ℕ) (a b : ℤ) : (m : ℤ) ∣ diff m a b - (a - b) := Int.dvd_bmod_sub_self

/-- Only the residues matter. -/
theorem diff_emod_left (m : ℕ) (a b : ℤ) : diff m (a % m) b = diff m a b := Int.emod_sub_bmod _ _

theorem diff_emod (m : ℕ) (a b : ℤ) : diff m (a % m) (b % m) = diff m a b := by
  rw [diff_emod_left, diff, Int.sub_emod_bmod, diff]

/-- Between close numbers the distance is the difference. -/
theorem diff_of_lt (h1 : -(m : ℤ) < 2 * (a - b)) (h2 : 2 * (a - b) < m) : diff m a b = a - b :=
  diff_eq (by simp) h1 h2

/-- The distance the other way. -/
theorem Near.diff_comm (h : Near m w a b) (hw : 2 * w < m) : diff m b a = -diff m a b := by
  obtain ⟨h1, h2⟩ := h
  refine diff_eq ?_ (by omega) (by omega)
  have hdvd := Int.dvd_neg.2 (dvd_diff_sub m a b)
  rwa [show -diff m a b - (b - a) = -(diff m a b - (a - b)) by omega]

theorem near_self (h : 0 ≤ w) (a : ℤ) : Near m w a a := by
  simp [Near, diff, h]

theorem Near.symm (h : Near m w a b) (hw : 2 * w < m) : Near m w b a := by
  have hc := h.diff_comm hw
  obtain ⟨h1, h2⟩ := h
  exact ⟨by omega, by omega⟩

/-- **Distances add up** between three numbers in a window. -/
theorem diff_add (hw : 3 * w < m) (hab : Near m w a b) (hbc : Near m w b c) (hac : Near m w a c) :
    diff m a c = diff m a b + diff m b c := by
  obtain ⟨h1, h2⟩ := hab
  obtain ⟨h3, h4⟩ := hbc
  obtain ⟨h5, h6⟩ := hac
  have hdvd : (m : ℤ) ∣ diff m a b + diff m b c - diff m a c := by
    have h := Int.dvd_sub (Int.dvd_add (dvd_diff_sub m a b) (dvd_diff_sub m b c))
      (dvd_diff_sub m a c)
    rwa [show diff m a b - (a - b) + (diff m b c - (b - c)) - (diff m a c - (a - c)) =
      diff m a b + diff m b c - diff m a c by omega] at h
  have hzero := Int.eq_zero_of_abs_lt_dvd hdvd (abs_lt.2 ⟨by omega, by omega⟩)
  omega

/-- **A least number advances** by at most the window. -/
theorem Near.advance (hw : 2 * w < m) (h : Near m w a b) (hle : diff m a b ≤ 0) (h0 : 0 ≤ d)
    (hd : d ≤ w) : diff m (a + d) b = diff m a b + d := by
  obtain ⟨h1, h2⟩ := h
  refine diff_eq ?_ (by omega) (by omega)
  have hdvd := dvd_diff_sub m a b
  rwa [show diff m a b + d - (a + d - b) = diff m a b - (a - b) by omega]

end Serial

end GarretOS
