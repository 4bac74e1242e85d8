import Mathlib.Data.Nat.Digits.Lemmas
import Mathlib.Tactic.Common

/-!
# Numerals

The numeral of a number to the base `b` is a list of symbols, the most significant first.  The
symbol of a digit is given by `sym`, and the digit of a symbol by `num`; they are inverse to each
other on the digits below `b`.

* `read_write` : reading a numeral gives back the number;
* `isNumeral_iff` : it is the only list of symbols without leading zeros that does.
-/

namespace GarretOS

namespace Numeral

variable {α : Type*} {num : α → Option ℕ} {sym : ℕ → α} {b n : ℕ} {text : List α}

/-- The number that a list of symbols stands for, if all of them are digits. -/
def read (num : α → Option ℕ) (b : ℕ) (text : List α) : Option ℕ :=
  text.foldl (fun v c => v.bind fun v => (num c).bind fun d =>
    if d < b then some (v * b + d) else none) (some 0)

/-- The numeral of a number. -/
def write (sym : ℕ → α) (b n : ℕ) : List α :=
  if n = 0 then [sym 0] else ((Nat.digits b n).map sym).reverse

/-- `text` stands for `n`, and it does not begin with a zero unless that is its only symbol. -/
structure IsNumeral (num : α → Option ℕ) (b n : ℕ) (text : List α) : Prop where
  nonempty : text ≠ []
  read : read num b text = some n
  lead : text.head?.bind num = some 0 → text.length = 1

@[simp] theorem read_nil : read num b [] = some 0 := rfl

theorem read_concat (c : α) : read num b (text ++ [c]) = (read num b text).bind fun v =>
    (num c).bind fun d => if d < b then some (v * b + d) else none := by
  simp only [read, List.foldl_append, List.foldl_cons, List.foldl_nil]

/-- A list of symbols that can be read consists of the symbols of digits. -/
theorem read_eq_some (h : read num b text = some n) :
    ∃ ds : List ℕ, text.map num = ds.reverse.map some ∧ (∀ d ∈ ds, d < b) ∧
      Nat.ofDigits b ds = n := by
  induction text using List.reverseRecOn generalizing n with
  | nil =>
    obtain rfl := Option.some.inj h
    exact ⟨[], rfl, by simp, rfl⟩
  | append_singleton text c ih =>
    rw [read_concat] at h
    obtain ⟨v, hv, h⟩ := Option.bind_eq_some_iff.1 h
    obtain ⟨d, hd, h⟩ := Option.bind_eq_some_iff.1 h
    split_ifs at h with hlt
    obtain ⟨ds, h1, h2, h3⟩ := ih hv
    refine ⟨d :: ds, ?_, ?_, ?_⟩
    · simp [h1, hd]
    · exact List.forall_mem_cons.2 ⟨hlt, h2⟩
    · rw [Nat.ofDigits_cons, h3, ← Option.some.inj h, Nat.mul_comm, Nat.add_comm]

section Symbols

variable (hsym : ∀ d < b, num (sym d) = some d)

include hsym

/-- The digits of a number, written with their symbols, are read back. -/
theorem read_symbols {ds : List ℕ} (hds : ∀ d ∈ ds, d < b) :
    read num b (ds.map sym).reverse = some (Nat.ofDigits b ds) := by
  induction ds with
  | nil => rfl
  | cons d ds ih =>
    obtain ⟨hd, hds⟩ := List.forall_mem_cons.1 hds
    rw [List.map_cons, List.reverse_cons, read_concat, ih hds, hsym d hd]
    simp only [Option.bind_some, if_pos hd, Nat.ofDigits_cons]
    rw [Nat.mul_comm, Nat.add_comm]

/-- **Reading a numeral** gives back the number. -/
theorem read_write (hb : 1 < b) : read num b (write sym b n) = some n := by
  unfold write
  split_ifs with hn
  · have h0 : read num b (List.map sym [0]).reverse = some (Nat.ofDigits b [0]) :=
      read_symbols hsym (by simp; omega)
    simpa [hn] using h0
  · rw [read_symbols hsym fun d hd => Nat.digits_lt_base hb hd, Nat.ofDigits_digits]

theorem write_isNumeral (hb : 1 < b) : IsNumeral num b n (write sym b n) := by
  refine ⟨?_, read_write hsym hb, fun h => ?_⟩
  · unfold write
    split_ifs with hn
    · simp
    · simpa [Nat.digits_eq_nil_iff_eq_zero] using hn
  · unfold write at h ⊢
    split_ifs at h ⊢ with hn
    · rfl
    · -- the first symbol is the one of the last digit, which is not zero
      have hne : Nat.digits b n ≠ [] := Nat.digits_ne_nil_iff_ne_zero.2 hn
      rw [List.head?_reverse, List.getLast?_map, List.getLast?_eq_some_getLast hne, Option.map_some,
        Option.bind_some, hsym _ (Nat.digits_lt_base hb (List.getLast_mem hne))] at h
      exact absurd (Option.some.inj h) (Nat.getLast_digit_ne_zero b hn)

/-- **The numeral is the only one.** -/
theorem isNumeral_iff (hb : 1 < b) (hnum : ∀ c d, num c = some d → c = sym d) :
    IsNumeral num b n text ↔ text = write sym b n := by
  refine ⟨fun h => ?_, fun h => h ▸ write_isNumeral hsym hb⟩
  obtain ⟨ds, h1, h2, h3⟩ := read_eq_some h.read
  have htext : text = (ds.map sym).reverse := by
    have hmap : ∀ (l : List α) (es : List ℕ), l.map num = es.map some → l = es.map sym := by
      intro l
      induction l with
      | nil => intro es he; simpa using he.symm
      | cons c l ih =>
        intro es he
        cases es with
        | nil => cases he
        | cons e es =>
          obtain ⟨hc, he⟩ := List.cons.inj he
          rw [List.map_cons, hnum c e hc, ih es he]
    rw [hmap text ds.reverse h1, List.map_reverse]
  have hne : ds ≠ [] := by
    rintro rfl
    exact h.nonempty htext
  by_cases hlast : ds.getLast hne = 0
  · -- a leading zero is the only symbol
    have hlen : ds.length = 1 := by
      have hlead := h.lead
      rw [htext, List.head?_reverse, List.getLast?_map, List.getLast?_eq_some_getLast hne,
        Option.map_some, Option.bind_some, hsym _ (h2 _ (List.getLast_mem hne)), hlast] at hlead
      simpa using hlead rfl
    obtain ⟨d, rfl⟩ := List.length_eq_one_iff.1 hlen
    obtain rfl : d = 0 := hlast
    obtain rfl : 0 = n := by simpa using h3
    rw [htext, write, if_pos rfl]
    rfl
  · have hdigits := Nat.digits_ofDigits b hb ds h2 fun _ => hlast
    rw [h3] at hdigits
    have hn : n ≠ 0 := by
      rintro rfl
      rw [Nat.digits_zero] at hdigits
      exact hne hdigits.symm
    rw [htext, write, if_neg hn, hdigits]

end Symbols

end Numeral

end GarretOS
