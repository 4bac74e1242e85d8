import GarretOS.Kernel.Logged
import GarretOS.Numeral.Basic

/-!
# Numbers as text

`u64toa` and `i64toa` of `lib/stdlib.c`, with the functions of `lib/string.c` that they use.

The model logs the addresses of the characters that are read and written (`CharEvent`).  The digits
come out least significant first, and `strrev` turns them around; the loops may make at most `k`
rounds.

* `ntoa_exact` : both functions stay inside the buffer, succeed just when the numeral fits with its
  NUL, and then leave it there.
-/

namespace GarretOS

open Logged

/-! ### Characters in memory -/

/-- An access to one character. -/
inductive CharEvent where
  | read (addr : ℕ)
  | write (addr : ℕ)
  deriving DecidableEq

/-- The characters of memory. -/
abbrev Chars := ℕ → UInt8

/-- Read `*a`. -/
def loadChar (mem : Chars) (a : ℕ) : Logged CharEvent UInt8 := do
  .emit (.read a)
  return mem a

/-- The assignment `*a = c`. -/
def storeChar (mem : Chars) (a : ℕ) (c : UInt8) : Logged CharEvent Chars := do
  .emit (.write a)
  return Function.update mem a c

/-- The loop of `strlen`. -/
def strlenLoop (mem : Chars) (s : ℕ) : ℕ → ℕ → Logged CharEvent ℕ
  | 0, _ => .lift (.error .diverges)
  | k + 1, cnt => do
    let c ← loadChar mem (s + cnt)
    if c ≠ 0 then strlenLoop mem s k (cnt + 1) else return cnt

/-- `strlen` -/
def strlen (k : ℕ) (mem : Chars) (s : ℕ) : Logged CharEvent ℕ := strlenLoop mem s k 0

/-- The loop of `strrev`. -/
def strrevLoop (s len : ℕ) : ℕ → ℕ → Chars → Logged CharEvent Chars
  | 0, _, _ => .lift (.error .diverges)
  | k + 1, i, mem =>
    if i < len / 2 then do
      let temp ← loadChar mem (s + i)
      let c ← loadChar mem (s + (len - 1 - i))
      let mem ← storeChar mem (s + i) c
      let mem ← storeChar mem (s + (len - 1 - i)) temp
      strrevLoop s len k (i + 1) mem
    else return mem

/-- `strrev` -/
def strrev (k : ℕ) (mem : Chars) (s : ℕ) : Logged CharEvent Chars := do
  let len ← strlen k mem s
  strrevLoop s len k 0 mem

/-! ### The functions -/

/-- `u8toc` -/
def u8toc (value : ℕ) : UInt8 :=
  if value < 10 then UInt8.ofNat (value + 48) else UInt8.ofNat (value - 10 + 65)

/-- The loop of `u64toa` : memory, and the variables `value` and `sp`. -/
def u64toaLoop (base buf len : ℕ) : ℕ → ℕ → ℕ → Chars → Logged CharEvent (Chars × ℕ × ℕ)
  | 0, _, _, _ => .lift (.error .diverges)
  | k + 1, value, sp, mem =>
    if value ≠ 0 ∧ sp < len - 1 then do
      let mem ← storeChar mem (buf + sp) (u8toc (value % base))
      u64toaLoop base buf len k (value / base) (sp + 1) mem
    else return (mem, value, sp)

/-- `u64toa` : memory and the return value.  A null pointer is `0`. -/
def u64toa (k value base buf len : ℕ) (mem : Chars) : Logged CharEvent (Chars × Bool) :=
  if buf = 0 ∨ len < 2 ∨ base < 2 ∨ base > 36 then return (mem, false)
  else if value = 0 then do
    let mem ← storeChar mem buf 48
    let mem ← storeChar mem (buf + 1) 0
    return (mem, decide (value = 0))
  else do
    let (mem, value, sp) ← u64toaLoop base buf len k value 0 mem
    let mem ← storeChar mem (buf + sp) 0
    let mem ← strrev k mem buf
    return (mem, decide (value = 0))

/-- Conversion to `i64`. -/
def i64 (x : ℤ) : ℤ := Int.bmod x (2 ^ 64)

/-- The magnitude that `i64toa` computes; the conversion to `u64` is that of a value of type
`i64`. -/
def magnitude (value : ℤ) : ℕ :=
  if value < 0 then u64 ((i64 (-(value + 1)) % 2 ^ 64).toNat + 1) else (value % 2 ^ 64).toNat

/-- `i64toa` : memory and the return value. -/
def i64toa (k : ℕ) (value : ℤ) (base buf len : ℕ) (mem : Chars) : Logged CharEvent (Chars × Bool) :=
  if buf = 0 ∨ len < 2 ∨ base < 2 ∨ base > 36 then return (mem, false)
  else if value = 0 then do
    let mem ← storeChar mem buf 48
    let mem ← storeChar mem (buf + 1) 0
    return (mem, true)
  else
    let mag := magnitude value
    if value < 0 then do
      let mem ← storeChar mem buf 45
      u64toa k mag base (buf + 1) (len - 1) mem
    else u64toa k mag base buf len mem

/-! ### Text -/

/-- The digit that a character stands for: `0` to `9`, and then the capital letters. -/
def digitOf (c : UInt8) : Option ℕ :=
  if 48 ≤ c ∧ c ≤ 57 then some (c.toNat - 48)
  else if 65 ≤ c ∧ c ≤ 90 then some (c.toNat - 55)
  else none

/-- The number of type `u64` that a text stands for. -/
def readU64 (base : ℕ) (text : List UInt8) : Option ℕ := Numeral.read digitOf base text

/-- The number of type `i64` that a text stands for, with a minus sign or without one. -/
def readI64 (base : ℕ) : List UInt8 → Option ℤ
  | 45 :: text => (readU64 base text).map fun n : ℕ => -(n : ℤ)
  | text => (readU64 base text).map fun n : ℕ => (n : ℤ)

/-- The text is the numeral of `value`, without leading zeros. -/
def IsU64Text (base value : ℕ) (text : List UInt8) : Prop :=
  Numeral.IsNumeral digitOf base value text

/-- The same for signed numbers: a negative one has a minus sign. -/
def IsI64Text (base : ℕ) (value : ℤ) (text : List UInt8) : Prop :=
  if value < 0 then ∃ digits, text = 45 :: digits ∧ IsU64Text base value.natAbs digits
  else IsU64Text base value.natAbs text

/-- The `n` characters from an address on. -/
def charsAt (mem : Chars) (a n : ℕ) : List UInt8 := (List.range n).map fun i => mem (a + i)

/-- The access is to one of the `len` characters from `buf` on. -/
def CharEvent.Inside (buf len : ℕ) : CharEvent → Prop
  | .read a => buf ≤ a ∧ a < buf + len
  | .write a => buf ≤ a ∧ a < buf + len

/-- The function stays inside the buffer, returns `true` just when the text and a NUL fit, and then
they are in the buffer. -/
structure Prints (run : Logged CharEvent (Chars × Bool)) (mem : Chars) (buf len : ℕ)
    (text : List UInt8) : Prop where
  inside : ∀ e ∈ run.events, e.Inside buf len
  returns : ∃ mem', run.result = .ok (mem', decide (text.length < len)) ∧
    (∀ a, ¬ (buf ≤ a ∧ a < buf + len) → mem' a = mem a) ∧
    (text.length < len → charsAt mem' buf (text.length + 1) = text ++ [0])

/-! ### Texts in memory -/

/-- The text is written from `a` on. -/
def withText (mem : Chars) (a : ℕ) (text : List UInt8) : Chars := fun x =>
  if a ≤ x then (text[x - a]?).getD (mem x) else mem x

section

variable {mem : Chars} {a n k i s len sp base value buf : ℕ} {c : UInt8} {text : List UInt8}
  {P : CharEvent → Prop} {E : Fault → Prop}

@[simp] theorem withText_nil : withText mem a [] = mem := by
  funext x
  simp [withText]

theorem withText_update : withText (Function.update mem a c) (a + 1) text =
    withText mem a (c :: text) := by
  funext x
  rcases lt_trichotomy x a with hx | rfl | hx
  · simp [withText, hx.ne, show ¬ a ≤ x by omega, show ¬ a + 1 ≤ x by omega]
  · simp [withText]
  · obtain ⟨j, rfl⟩ : ∃ j, x = a + (j + 1) := ⟨x - a - 1, by omega⟩
    simp [withText, show a + (j + 1) - (a + 1) = j by omega, show a + 1 ≤ a + (j + 1) by omega]

theorem update_withText : Function.update (withText mem a text) (a + text.length) c =
    withText mem a (text ++ [c]) := by
  funext x
  by_cases hx : x = a + text.length
  · subst hx
    simp [withText]
  · rw [Function.update_of_ne hx, withText, withText]
    split_ifs with hax
    · rcases lt_or_ge (x - a) text.length with hlt | hge
      · rw [List.getElem?_append_left hlt]
      · rw [List.getElem?_eq_none hge, List.getElem?_eq_none (by simp; omega)]
    · rfl

theorem withText_at (h : i < text.length) : withText mem a text (a + i) = text[i] := by
  rw [withText, if_pos (by omega), Nat.add_sub_cancel_left, List.getElem?_eq_getElem h,
    Option.getD_some]

theorem withText_of_not {x : ℕ} (h : ¬ (a ≤ x ∧ x < a + text.length)) :
    withText mem a text x = mem x := by
  rw [withText]
  split_ifs with hax
  · rw [List.getElem?_eq_none (by omega), Option.getD_none]
  · rfl

theorem charsAt_withText : charsAt (withText mem a text) a text.length = text := by
  refine List.ext_getElem (by simp [charsAt]) fun i h1 h2 => ?_
  simp only [charsAt, List.getElem_map, List.getElem_range]
  exact withText_at h2

/-! ### The loops -/

theorem meets_loadChar (h : P (.read a)) : Meets (loadChar mem a) P E fun c => c = mem a :=
  (meets_emit h).bind fun _ _ => meets_pure rfl

theorem meets_storeChar (h : P (.write a)) :
    Meets (storeChar mem a c) P E fun mem' => mem' = Function.update mem a c :=
  (meets_emit h).bind fun _ _ => meets_pure rfl

/-- `strlen` finds the NUL. -/
theorem strlenLoop_meets (h : ∀ i < n, mem (s + i) ≠ 0) (hn : mem (s + n) = 0)
    (hP : ∀ i ≤ n, P (.read (s + i))) (hi : i ≤ n) (hk : n - i < k) :
    Meets (strlenLoop mem s k i) P E fun len => len = n := by
  induction k generalizing i with
  | zero => omega
  | succ k ih =>
    refine (meets_loadChar (hP i hi)).bind ?_
    rintro c rfl
    by_cases hin : i = n
    · rw [if_neg (by rw [hin, hn]; simp)]
      exact meets_pure hin
    · rw [if_pos (h i (by omega))]
      exact ih (by omega) (by omega)

/-- The characters from number `i` to number `len - 1 - i` change places. -/
def reversed (mem : Chars) (s len i : ℕ) : Chars := fun x =>
  if s + i ≤ x ∧ x + i < s + len then mem (2 * s + len - 1 - x) else mem x

/-- Two characters that change places, and those between them. -/
theorem reversed_swap (hi : i < len / 2) :
    reversed (Function.update (Function.update mem (s + i) (mem (s + (len - 1 - i))))
      (s + (len - 1 - i)) (mem (s + i))) s len (i + 1) = reversed mem s len i := by
  funext x
  unfold reversed
  by_cases h1 : x = s + i
  · subst h1
    rw [if_neg (by omega), if_pos (by omega), Function.update_of_ne (by omega), Function.update_self]
    congr 1
    omega
  · by_cases h2 : x = s + (len - 1 - i)
    · subst h2
      rw [if_neg (by omega), if_pos (by omega), Function.update_self]
      congr 1
      omega
    · by_cases h3 : s + i ≤ x ∧ x + i < s + len
      · rw [if_pos (by omega), if_pos h3, Function.update_of_ne (by omega),
          Function.update_of_ne (by omega)]
      · rw [if_neg (by omega), if_neg h3, Function.update_of_ne h2, Function.update_of_ne h1]

theorem strrevLoop_meets (hread : ∀ i < len, P (.read (s + i)))
    (hwrite : ∀ i < len, P (.write (s + i))) (hk : len / 2 - i < k) :
    Meets (strrevLoop s len k i mem) P E fun mem' => mem' = reversed mem s len i := by
  induction k generalizing i mem with
  | zero => omega
  | succ k ih =>
    unfold strrevLoop
    split_ifs with hi
    · refine (meets_loadChar (hread i (by omega))).bind ?_
      rintro _ rfl
      refine (meets_loadChar (hread (len - 1 - i) (by omega))).bind ?_
      rintro _ rfl
      refine (meets_storeChar (hwrite i (by omega))).bind ?_
      rintro _ rfl
      refine (meets_storeChar (hwrite (len - 1 - i) (by omega))).bind ?_
      rintro _ rfl
      rw [← reversed_swap hi]
      exact ih (by omega)
    · -- at most one character is left, and it stays where it is
      refine meets_pure (funext fun x => ?_)
      unfold reversed
      split_ifs with hx
      · congr 1
        omega
      · rfl

/-- **`strrev`** turns the text around. -/
theorem strrev_meets (htext : ∀ c ∈ text, c ≠ 0) (hread : ∀ i ≤ text.length, P (.read (s + i)))
    (hwrite : ∀ i < text.length, P (.write (s + i))) (hk : text.length < k) :
    Meets (strrev k (withText mem s (text ++ [0])) s) P E fun mem' =>
      mem' = withText mem s (text.reverse ++ [0]) := by
  have hat : ∀ i < text.length, withText mem s (text ++ [0]) (s + i) = text[i]! := by
    intro i hi
    rw [withText_at (by simp; omega), List.getElem_append_left hi, getElem!_pos text i hi]
  refine Meets.bind (strlenLoop_meets (n := text.length) (fun i hi => ?_) ?_ hread
    (Nat.zero_le _) (by omega)) ?_
  · rw [hat i hi, getElem!_pos text i hi]
    exact htext _ (List.getElem_mem hi)
  · rw [withText_at (by simp), List.getElem_concat_length]
    rfl
  rintro _ rfl
  refine (strrevLoop_meets (fun i hi => hread i hi.le) hwrite (by omega)).mono ?_
  rintro _ rfl
  funext x
  unfold reversed
  by_cases hx : s + 0 ≤ x ∧ x + 0 < s + text.length
  · obtain ⟨i, rfl⟩ : ∃ i, x = s + i := ⟨x - s, by omega⟩
    have hi : i < text.length := by omega
    rw [if_pos hx, show 2 * s + text.length - 1 - (s + i) = s + (text.length - 1 - i) by omega,
      hat _ (by omega), withText_at (by simp; omega), List.getElem_append_left (by simpa using hi),
      List.getElem_reverse, getElem!_pos]
  · rw [if_neg hx]
    by_cases hn : x = s + text.length
    · subst hn
      rw [withText_at (by simp), withText, if_pos (by omega), Nat.add_sub_cancel_left]
      simp
    · rw [withText_of_not (by simp; omega), withText_of_not (by simp; omega)]

/-- **The loop of `u64toa`** writes the digits that there is room for, least significant first. -/
theorem u64toaLoop_meets (hbase : 1 < base) (hP : ∀ i < len - 1, P (.write (buf + i)))
    (hk : len - 1 - sp < k) (hsp : sp ≤ len - 1) :
    Meets (u64toaLoop base buf len k value sp mem) P E fun res =>
      res.1 = withText mem (buf + sp)
        (((Nat.digits base value).take (len - 1 - sp)).map u8toc) ∧
      res.2.1 = value / base ^ (len - 1 - sp) ∧
      res.2.2 = sp + min (len - 1 - sp) (Nat.digits base value).length := by
  induction k generalizing value sp mem with
  | zero => omega
  | succ k ih =>
    unfold u64toaLoop
    split_ifs with h
    · obtain ⟨hv, hlt⟩ := h
      obtain ⟨n, hn⟩ : ∃ n, len - 1 - sp = n + 1 := ⟨len - 1 - sp - 1, by omega⟩
      have hn' : len - 1 - (sp + 1) = n := by omega
      refine (meets_storeChar (hP sp hlt)).bind ?_
      rintro _ rfl
      refine (ih (by omega) (by omega)).mono ?_
      rintro ⟨mem', value', sp'⟩ ⟨h1, h2, h3⟩
      simp only at h1 h2 h3 ⊢
      rw [hn'] at h1 h2 h3
      rw [hn, Nat.digits_def' hbase (by omega)]
      refine ⟨?_, ?_, ?_⟩
      · rw [h1, show buf + (sp + 1) = buf + sp + 1 by omega, withText_update, List.take_succ_cons,
          List.map_cons]
      · rw [h2, Nat.div_div_eq_div_mul, Nat.pow_succ, Nat.mul_comm]
      · rw [h3, List.length_cons]
        omega
    · refine meets_pure ?_
      by_cases hv : value = 0
      · subst hv
        simp
      · have hroom : len - 1 - sp = 0 := by omega
        simp [hroom]

end

/-! ### Digits -/

theorem digitOf_u8toc {base : ℕ} (hbase : base ≤ 36) : ∀ d < base, digitOf (u8toc d) = some d := by
  have h : ∀ d < 36, digitOf (u8toc d) = some d := by decide
  exact fun d hd => h d (by omega)

theorem u8toc_digitOf {c : UInt8} {d : ℕ} (h : digitOf c = some d) : c = u8toc d := by
  have hc := c.toNat_lt
  unfold digitOf at h
  split_ifs at h with h1 h2
  · obtain rfl := Option.some.inj h
    have h3 : 48 ≤ c.toNat ∧ c.toNat ≤ 57 := h1
    rw [u8toc, if_pos (by omega), Nat.sub_add_cancel h3.1, UInt8.ofNat_toNat]
  · obtain rfl := Option.some.inj h
    have h3 : 65 ≤ c.toNat ∧ c.toNat ≤ 90 := h2
    rw [u8toc, if_neg (by omega), show c.toNat - 55 - 10 + 65 = c.toNat by omega, UInt8.ofNat_toNat]

/-- The numeral that `u64toa` prints. -/
def u64Text (base value : ℕ) : List UInt8 := Numeral.write u8toc base value

/-- The numeral that `i64toa` prints. -/
def i64Text (base : ℕ) (value : ℤ) : List UInt8 :=
  if value < 0 then 45 :: u64Text base value.natAbs else u64Text base value.natAbs

section

variable {base : ℕ} (h2 : 2 ≤ base) (h36 : base ≤ 36)

include h2 h36

theorem isU64Text_iff {value : ℕ} {text : List UInt8} :
    IsU64Text base value text ↔ text = u64Text base value :=
  Numeral.isNumeral_iff (digitOf_u8toc h36) h2 fun _ _ => u8toc_digitOf

theorem isI64Text_iff {value : ℤ} {text : List UInt8} :
    IsI64Text base value text ↔ text = i64Text base value := by
  unfold IsI64Text i64Text
  split_ifs
  · simp only [isU64Text_iff h2 h36, exists_eq_right]
  · exact isU64Text_iff h2 h36

theorem readU64_u64Text (value : ℕ) : readU64 base (u64Text base value) = some value :=
  Numeral.read_write (digitOf_u8toc h36) h2

/-- The characters of a numeral are digits. -/
theorem digit_of_mem {value : ℕ} {c : UInt8} (hc : c ∈ u64Text base value) :
    ∃ d < base, c = u8toc d := by
  unfold u64Text Numeral.write at hc
  split_ifs at hc
  · exact ⟨0, by omega, List.mem_singleton.1 hc⟩
  · obtain ⟨d, hd, rfl⟩ := List.mem_map.1 (List.mem_reverse.1 hc)
    exact ⟨d, Nat.digits_lt_base h2 hd, rfl⟩

theorem readI64_i64Text (value : ℤ) : readI64 base (i64Text base value) = some value := by
  have hread := readU64_u64Text h2 h36 value.natAbs
  unfold i64Text
  split_ifs with hneg
  · rw [readI64, hread, Option.map_some]
    congr 1
    omega
  · obtain ⟨c, text, hc⟩ : ∃ c text, u64Text base value.natAbs = c :: text :=
      List.exists_cons_of_ne_nil (Numeral.write_isNumeral (digitOf_u8toc h36) h2).nonempty
    have hdigit : ∀ d < 36, u8toc d ≠ 45 := by decide
    have hne : c ≠ 45 := by
      obtain ⟨d, hd, rfl⟩ := digit_of_mem h2 h36 (hc ▸ List.mem_cons_self)
      exact hdigit d (by omega)
    have hplain : readI64 base (c :: text) =
        (readU64 base (c :: text)).map fun n : ℕ => (n : ℤ) := by
      rw [readI64]
      rintro text' heq
      exact hne (List.cons.inj heq).1
    rw [hc, hplain, ← hc, hread, Option.map_some]
    congr 1
    omega

end

/-! ### `u64toa` and `i64toa` -/

section

variable {k base buf len : ℕ} {mem : Chars}

theorem Prints.of_meets {run : Logged CharEvent (Chars × Bool)} {text : List UInt8}
    (h : Meets run (CharEvent.Inside buf len) (fun _ => False) fun res =>
      res.2 = decide (text.length < len) ∧ (∀ a, ¬ (buf ≤ a ∧ a < buf + len) → res.1 a = mem a) ∧
      (text.length < len → charsAt res.1 buf (text.length + 1) = text ++ [0])) :
    Prints run mem buf len text := by
  refine ⟨h.events, ?_⟩
  cases hres : run.result with
  | error e => exact (h.error e hres).elim
  | ok res =>
    obtain ⟨mem', ret⟩ := res
    obtain ⟨rfl, h1, h2⟩ := h.result _ hres
    exact ⟨mem', rfl, h1, h2⟩

/-- **`u64toa`** -/
theorem u64toa_prints (h2 : 2 ≤ base) (h36 : base ≤ 36) (hbuf : buf ≠ 0) (hk : len < k)
    (value : ℕ) : Prints (u64toa k value base buf len mem) mem buf len (u64Text base value) := by
  have hpos : 0 < (u64Text base value).length :=
    List.length_pos_iff.2 (Numeral.write_isNumeral (digitOf_u8toc h36) h2).nonempty
  refine .of_meets ?_
  unfold u64toa
  by_cases hlen : len < 2
  · -- not even one digit fits
    rw [if_pos (Or.inr (Or.inl hlen))]
    exact meets_pure ⟨(decide_eq_false (by omega)).symm, fun _ _ => rfl, fun h => by omega⟩
  rw [if_neg (by omega)]
  have hread : ∀ i < len, (CharEvent.read (buf + i)).Inside buf len := fun i hi =>
    ⟨by omega, by omega⟩
  have hwrite : ∀ i < len, (CharEvent.write (buf + i)).Inside buf len := fun i hi =>
    ⟨by omega, by omega⟩
  have hframe : ∀ text : List UInt8, text.length < len → ∀ a, ¬ (buf ≤ a ∧ a < buf + len) →
      withText mem buf (text ++ [0]) a = mem a := fun text htext a ha =>
    withText_of_not (by simp; omega)
  by_cases hv : value = 0
  · subst hv
    have htext : u64Text base 0 = [48] := rfl
    rw [if_pos rfl]
    refine (meets_storeChar (a := buf) (hwrite 0 (by omega))).bind ?_
    rintro _ rfl
    refine (meets_storeChar (hwrite 1 (by omega))).bind ?_
    rintro _ rfl
    have hmem : Function.update (Function.update mem buf 48) (buf + 1) 0 =
        withText mem buf ([48] ++ [0]) := by
      rw [List.singleton_append, ← withText_update, ← withText_update, withText_nil]
    rw [hmem, htext]
    refine meets_pure ⟨(decide_eq_true (by simp; omega)).symm, hframe [48] (by simp; omega),
      fun _ => charsAt_withText⟩
  · rw [if_neg hv]
    refine (u64toaLoop_meets h2 (fun i hi => hwrite i (by omega)) (by omega) (Nat.zero_le _)).bind ?_
    rintro ⟨mem', value', sp⟩ ⟨hmem, hvalue, hsp⟩
    simp only [Nat.sub_zero, Nat.add_zero, Nat.zero_add] at hmem hvalue hsp ⊢
    obtain ⟨digits, hdigits⟩ : ∃ digits, digits =
      ((Nat.digits base value).take (len - 1)).map u8toc := ⟨_, rfl⟩
    have hlength : digits.length = sp := by
      rw [hdigits, hsp, List.length_map, List.length_take]
    have hroom : digits.length < len := by omega
    have hnonzero : ∀ c ∈ digits, c ≠ 0 := by
      have h : ∀ d < 36, u8toc d ≠ 0 := by decide
      intro c hc
      rw [hdigits] at hc
      obtain ⟨d, hd, rfl⟩ := List.mem_map.1 hc
      have := Nat.digits_lt_base h2 (List.mem_of_mem_take hd)
      exact h d (by omega)
    refine (meets_storeChar (hwrite sp (by omega))).bind ?_
    rintro _ rfl
    rw [hmem, ← hdigits, ← hlength, update_withText]
    refine (strrev_meets hnonzero (fun i hi => hread i (by omega)) (fun i hi => hwrite i (by omega))
      (by omega)).bind ?_
    rintro _ rfl
    -- the loop has used up the value just when there was room for all digits
    have hlen' : (u64Text base value).length = (Nat.digits base value).length := by
      rw [u64Text, Numeral.write, if_neg hv, List.length_reverse, List.length_map]
    have hfits : value' = 0 ↔ (u64Text base value).length < len := by
      rw [hvalue, hlen', Nat.div_eq_zero_iff_lt (Nat.pow_pos (by omega)),
        ← Nat.digits_length_le_iff h2]
      omega
    refine meets_pure ⟨decide_eq_decide.2 hfits, hframe _ (by simpa using hroom), fun hlt => ?_⟩
    have htext : digits.reverse = u64Text base value := by
      rw [hdigits, List.take_of_length_le (by omega), u64Text, Numeral.write, if_neg hv]
    simp only [htext]
    rw [show (u64Text base value).length + 1 = (u64Text base value ++ [0]).length by simp]
    exact charsAt_withText

/-- The magnitude of the most negative number is right, too. -/
theorem magnitude_eq {value : ℤ} (h1 : -2 ^ 63 ≤ value) (h2 : value < 2 ^ 63) :
    magnitude value = value.natAbs := by
  unfold magnitude
  split_ifs with hneg
  · have hi64 : i64 (-(value + 1)) = -(value + 1) := by
      simp only [i64, Int.bmod]
      split_ifs <;> omega
    rw [hi64, u64]
    omega
  · omega

/-- **`i64toa`** -/
theorem i64toa_prints (h2 : 2 ≤ base) (h36 : base ≤ 36) (hbuf : buf ≠ 0) (hk : len < k) {value : ℤ}
    (hmin : -2 ^ 63 ≤ value) (hmax : value < 2 ^ 63) :
    Prints (i64toa k value base buf len mem) mem buf len (i64Text base value) := by
  have hu64 : ∀ value buf len mem, buf ≠ 0 → len < k →
      Prints (u64toa k value base buf len mem) mem buf len (u64Text base value) :=
    fun value _ _ _ hbuf hk => u64toa_prints h2 h36 hbuf hk value
  have hpos : 0 < (u64Text base value.natAbs).length :=
    List.length_pos_iff.2 (Numeral.write_isNumeral (digitOf_u8toc h36) h2).nonempty
  unfold i64toa i64Text
  by_cases hlen : len < 2
  · rw [if_pos (Or.inr (Or.inl hlen))]
    have hpos' : 0 < (if value < 0 then 45 :: u64Text base value.natAbs
        else u64Text base value.natAbs).length := by
      split_ifs
      · exact Nat.succ_pos _
      · exact hpos
    exact .of_meets (meets_pure ⟨(decide_eq_false (by omega)).symm, fun _ _ => rfl,
      fun h => by omega⟩)
  rw [if_neg (by omega)]
  by_cases hv : value = 0
  · -- the same as in `u64toa`
    subst hv
    have hzero := hu64 0 buf len mem hbuf hk
    rw [u64toa, if_neg (by omega), if_pos rfl] at hzero
    exact hzero
  rw [if_neg hv]
  simp only
  rw [magnitude_eq hmin hmax]
  split_ifs with hneg
  · -- a minus sign, and then the magnitude in the rest of the buffer
    obtain ⟨hinside, mem', hres, hframe, htext⟩ := hu64 value.natAbs (buf + 1) (len - 1)
      (Function.update mem buf 45) (by omega) (by omega)
    refine .of_meets ((meets_storeChar ⟨le_rfl, by omega⟩).bind ?_)
    rintro _ rfl
    refine ⟨fun e he => ?_, fun e he => ?_, ?_⟩
    · have h := hinside e he
      cases e with
      | read a => exact ⟨by have := h.1; omega, by have := h.2; omega⟩
      | write a => exact ⟨by have := h.1; omega, by have := h.2; omega⟩
    · cases hres.symm.trans he
    rintro res hres'
    obtain rfl := Except.ok.inj (hres.symm.trans hres')
    simp only
    refine ⟨decide_eq_decide.2 (by rw [List.length_cons]; omega), fun a ha => ?_, fun hlt => ?_⟩
    · rw [hframe a (by omega), Function.update_of_ne (by omega)]
    · rw [List.length_cons] at hlt
      have hrest := htext (by omega)
      have hfirst : mem' buf = 45 := by
        rw [hframe buf (by omega), Function.update_self]
      rw [charsAt, List.length_cons, List.range_succ_eq_map, List.map_cons, List.map_map,
        Nat.add_zero, hfirst, List.cons_append, ← hrest, charsAt]
      congr 1
      refine List.map_congr_left fun i _ => ?_
      show mem' (buf + (i + 1)) = mem' (buf + 1 + i)
      congr 1
      omega
  · exact hu64 value.natAbs buf len mem hbuf hk

/-- **Numbers as text.**  For every number, every base and every buffer there is exactly one numeral;
`u64toa` and `i64toa` stay inside the buffer, return `true` just when it fits, and then have written
it; and it is read back as the number. -/
theorem ntoa_exact (h2 : 2 ≤ base) (h36 : base ≤ 36) (hbuf : buf ≠ 0) (hk : len < k) :
    (∀ value < 2 ^ 64, ∃ text, (∀ t, IsU64Text base value t ↔ t = text) ∧
      readU64 base text = some value ∧
      Prints (u64toa k value base buf len mem) mem buf len text) ∧
    ∀ value : ℤ, -2 ^ 63 ≤ value → value < 2 ^ 63 →
      ∃ text, (∀ t, IsI64Text base value t ↔ t = text) ∧ readI64 base text = some value ∧
        Prints (i64toa k value base buf len mem) mem buf len text :=
  ⟨fun value _ => ⟨u64Text base value, fun _ => isU64Text_iff h2 h36,
      readU64_u64Text h2 h36 value, u64toa_prints h2 h36 hbuf hk value⟩,
    fun value hmin hmax => ⟨i64Text base value, fun _ => isI64Text_iff h2 h36,
      readI64_i64Text h2 h36 value, i64toa_prints h2 h36 hbuf hk hmin hmax⟩⟩

end

/-- `-128` to the base 16 just fits into four characters. -/
theorem ntoa_exact_hex : ∃ text, readI64 16 text = some (-128) ∧
    Prints (i64toa 5 (-128) 16 0x1000 4 fun _ => 0) (fun _ => 0) 0x1000 4 text ∧
    text = [45, 56, 48] := by
  obtain ⟨text, hiff, hread, hprints⟩ : ∃ text, (∀ t, IsI64Text 16 (-128) t ↔ t = text) ∧
      readI64 16 text = some (-128) ∧
      Prints (i64toa 5 (-128) 16 0x1000 4 fun _ => 0) (fun _ => 0) 0x1000 4 text :=
    (ntoa_exact (by decide) (by decide) (by decide) (by decide)).2 (-128) (by decide) (by decide)
  refine ⟨text, hread, hprints, ((hiff _).1 ?_).symm⟩
  exact ⟨[56, 48], rfl, by simp, by decide, by decide⟩

end GarretOS
