import Mathlib.Algebra.Group.Int.Defs
import Mathlib.Algebra.Group.Nat.Defs
import Mathlib.Data.Int.Notation
import Mathlib.Tactic.Common

/-!
# Faults and machine integers

Kernel functions return a value of `Res α`: either a result, or the reason why the kernel stops
(`Fault`): a failed `ASSERT`, a `PANIC`, or a loop that has used up the rounds it was given, which
stands for a loop that does not come to an end.

Unsigned machine integers are natural numbers; `u32` and `u64` are the conversions that every
assignment to a field of that width performs.
-/

namespace GarretOS

/-- Why the kernel stops. -/
inductive Fault where
  /-- `ASSERT(cond)` failed. -/
  | assertion (cond : String)
  /-- `PANIC(str)`. -/
  | panic (str : String)
  /-- A loop has not ended within the rounds it was given. -/
  | diverges
  deriving DecidableEq, Repr

/-- The outcome of a kernel function. -/
abbrev Res (α : Type*) := Except Fault α

/-- `ASSERT(c)`. -/
def assert (c : Prop) [Decidable c] (cond : String) : Res Unit :=
  if c then .ok () else .error (.assertion cond)

@[simp] theorem assert_eq_ok {c : Prop} {_ : Decidable c} {cond : String} {x : Unit} :
    assert c cond = .ok x ↔ c := by
  unfold assert
  split_ifs with h <;> simp [h]

theorem assert_of {c : Prop} {_ : Decidable c} {cond : String} (h : c) :
    assert c cond = .ok () := by
  simp [h]

/-- A sequence of two computations succeeds when both do. -/
theorem bind_eq_ok {α β : Type} {x : Res α} {f : α → Res β} {b : β} :
    (x >>= f) = .ok b ↔ ∃ a, x = .ok a ∧ f a = .ok b := by
  cases x with
  | error e => simp [bind, Except.bind]
  | ok a => simp [bind, Except.bind]

@[simp] theorem ok_bind {α β : Type} (a : α) (f : α → Res β) :
    ((Except.ok a : Res α) >>= f) = f a := rfl

@[simp] theorem error_bind {α β : Type} (e : Fault) (f : α → Res β) :
    ((Except.error e : Res α) >>= f) = .error e := rfl

/-- The computation comes to an end, and if it is not stopped by a failed assertion or a panic its
result satisfies `P`. -/
def Sat {α : Type} (x : Res α) (P : α → Prop) : Prop :=
  match x with
  | .ok a => P a
  | .error e => e ≠ .diverges

section Sat

variable {α β : Type} {x : Res α} {P Q : α → Prop}

@[simp] theorem sat_ok {a : α} : Sat (.ok a) P ↔ P a := Iff.rfl

@[simp] theorem sat_pure {a : α} : Sat (pure a) P ↔ P a := Iff.rfl

theorem Sat.of_ok {a : α} (h : Sat x P) (hx : x = .ok a) : P a := by
  rw [hx] at h
  exact h

theorem Sat.ne_diverges (h : Sat x P) : x ≠ .error .diverges := by
  rintro rfl
  exact h rfl

theorem Sat.mono (h : Sat x P) (hPQ : ∀ a, P a → Q a) : Sat x Q := by
  cases x with
  | ok a => exact hPQ a h
  | error e => exact h

theorem Sat.and (h : Sat x P) (h' : Sat x Q) : Sat x fun a => P a ∧ Q a := by
  cases x with
  | ok a => exact ⟨h, h'⟩
  | error e => exact h

theorem Sat.bind {f : α → Res β} {S : β → Prop} (h : Sat x P) (hf : ∀ a, P a → Sat (f a) S) :
    Sat (x >>= f) S := by
  cases x with
  | ok a => exact hf a h
  | error e => exact h

theorem sat_assert {c : Prop} {_ : Decidable c} {cond : String} :
    Sat (assert c cond) fun _ => c := by
  unfold assert
  split_ifs with h
  · exact h
  · simp [Sat]

end Sat

/-- The computation is not stopped by one of the assertions `C`. -/
def Avoids (C : List String) {α : Type} (x : Res α) : Prop := ∀ c ∈ C, x ≠ .error (.assertion c)

section Avoids

variable {C : List String} {α β : Type} {x : Res α}

@[simp] theorem avoids_ok {a : α} : Avoids C (.ok a) := nofun

@[simp] theorem avoids_pure {a : α} : Avoids C (pure a : Res α) := nofun

@[simp] theorem avoids_panic {str : String} : Avoids C (.error (.panic str) : Res α) := nofun

@[simp] theorem avoids_diverges : Avoids C (.error .diverges : Res α) := nofun

theorem avoids_assert {c : Prop} {_ : Decidable c} {cond : String} (h : cond ∈ C → c) :
    Avoids C (assert c cond) := by
  intro d hd he
  unfold assert at he
  split_ifs at he with hc
  obtain rfl : cond = d := by simpa using he
  exact hc (h hd)

theorem Avoids.bind {f : α → Res β} (h : Avoids C x) (hf : ∀ a, x = .ok a → Avoids C (f a)) :
    Avoids C (x >>= f) := by
  cases x with
  | ok a => exact hf a rfl
  | error e =>
    intro c hc he
    exact h c hc (by cases he; rfl)

end Avoids

/-- With `k` rounds the loop `r` yields `x`, or `k` is at most `n` and it needs more rounds. -/
def Fueled {α : Type} (n : ℕ) (r : ℕ → Res α) (x : Res α) : Prop :=
  ∀ k, r k = x ∨ k ≤ n ∧ r k = .error .diverges

/-- A loop whose remaining rounds are `r'`. -/
theorem Fueled.succ {α : Type} {m n : ℕ} {r r' : ℕ → Res α} {x : Res α} (h : Fueled m r' x)
    (hm : m < n) (h₀ : r 0 = .error .diverges) (hr : ∀ k, r (k + 1) = r' k) : Fueled n r x := by
  intro k
  cases k with
  | zero => exact Or.inr ⟨Nat.zero_le _, h₀⟩
  | succ k =>
    rw [hr]
    rcases h k with hk | ⟨hk, hk'⟩
    · exact Or.inl hk
    · exact Or.inr ⟨by omega, hk'⟩

/-- A loop that comes to an end in its first round. -/
theorem Fueled.now {α : Type} {n : ℕ} {r : ℕ → Res α} {x : Res α}
    (h₀ : r 0 = .error .diverges) (hr : ∀ k, r (k + 1) = x) : Fueled n r x := by
  intro k
  cases k with
  | zero => exact Or.inr ⟨Nat.zero_le _, h₀⟩
  | succ k => exact Or.inl (hr k)

theorem Fueled.bind {α β : Type} {n : ℕ} {r : ℕ → Res α} {x : Res α} (h : Fueled n r x)
    (f : α → Res β) : Fueled n (fun k => r k >>= f) (x >>= f) := by
  intro k
  rcases h k with hk | ⟨hn, hk⟩
  · exact Or.inl (by simp only [hk])
  · exact Or.inr ⟨hn, by simp only [hk, error_bind]⟩

theorem Fueled.const {α : Type} {x : Res α} : Fueled 0 (fun _ => x) x := fun _ => Or.inl rfl

/-- A loop that comes to an end, and then another one. -/
theorem Fueled.seq {α β : Type} {m n : ℕ} {r : ℕ → Res α} {a : α} (h : Fueled m r (.ok a))
    {f : ℕ → α → Res β} {x : Res β} (hf : Fueled n (fun k => f k a) x) :
    Fueled (max m n) (fun k => r k >>= f k) x := by
  intro k
  rcases h k with hk | ⟨hm, hk⟩
  · rcases hf k with hk' | ⟨hn, hk'⟩
    · exact Or.inl (by simp only [hk, ok_bind, hk'])
    · exact Or.inr ⟨Nat.le_trans hn (Nat.le_max_right m n), by simp only [hk, ok_bind, hk']⟩
  · exact Or.inr ⟨Nat.le_trans hm (Nat.le_max_left m n), by simp only [hk, error_bind]⟩

theorem Fueled.mono {α : Type} {m n : ℕ} {r : ℕ → Res α} {x : Res α} (h : Fueled m r x)
    (hm : m ≤ n) : Fueled n r x :=
  fun k => (h k).imp_right fun hk => ⟨Nat.le_trans hk.1 hm, hk.2⟩

theorem Fueled.of_lt {α : Type} {n k : ℕ} {r : ℕ → Res α} {x : Res α} (h : Fueled n r x)
    (hk : n < k) : r k = x := by
  rcases h k with h | ⟨h, -⟩
  · exact h
  · omega

theorem Fueled.of_ok {α : Type} {n k : ℕ} {r : ℕ → Res α} {x : Res α} {a : α} (h : Fueled n r x)
    (hk : r k = .ok a) : x = .ok a := by
  rcases h k with h | ⟨-, h⟩
  · rw [← h, hk]
  · rw [hk] at h
    cases h

/-- With enough rounds the loop comes to an end, and no assertion fails and nothing panics. -/
def Ends {α : Type} (r : ℕ → Res α) : Prop := ∃ n a, Fueled n r (.ok a)

section Ends

variable {α β : Type} {r : ℕ → Res α}

theorem Ends.const (a : α) : Ends fun _ => .ok a := ⟨0, a, .const⟩

theorem Ends.of_ok {x : Res α} {a : α} (hx : x = .ok a) : Ends fun _ => x := hx ▸ .const a

/-- A loop, and then one that comes to an end after every result of the first one. -/
theorem Ends.bind {f : ℕ → α → Res β} (h : Ends r)
    (hf : ∀ k a, r k = .ok a → Ends fun k => f k a) : Ends fun k => r k >>= f k := by
  obtain ⟨m, a, hF⟩ := h
  obtain ⟨n, b, hG⟩ := hf (m + 1) a (hF.of_lt (Nat.lt_succ_self m))
  exact ⟨max m n, b, hF.seq hG⟩

/-- A loop, and then a computation without loops that succeeds. -/
theorem Ends.map {f : α → Res β} (h : Ends r) (hf : ∀ a, ∃ b, f a = .ok b) :
    Ends fun k => r k >>= f :=
  h.bind fun _ a _ => Exists.elim (hf a) fun _ hb => .of_ok hb

end Ends

/-- Conversion to `u32`. -/
def u32 (x : ℕ) : ℕ := x % 2 ^ 32

/-- Conversion to `u64`. -/
def u64 (x : ℕ) : ℕ := x % 2 ^ 64

/-- Conversion to `i32`. -/
def i32 (x : ℤ) : ℤ := Int.bmod x (2 ^ 32)

theorem u32_of_lt {x : ℕ} (h : x < 2 ^ 32) : u32 x = x := Nat.mod_eq_of_lt h

theorem u64_of_lt {x : ℕ} (h : x < 2 ^ 64) : u64 x = x := Nat.mod_eq_of_lt h

theorem i32_of_lt {x : ℤ} (h₀ : -2 ^ 31 ≤ x) (h : x < 2 ^ 31) : i32 x = x := by
  simp only [i32, Int.bmod]
  split_ifs <;> omega

end GarretOS
