import Mathlib.Data.List.Induction
import Mathlib.Data.List.Nodup

/-!
# Countdowns

What a timer service is for: a set of countdowns, each with the number of ticks that are left.
`pending ops` are the countdowns that are running after the operations `ops`, oldest first; a
tick fires those with one tick left (`due`).

* `mem_due_iff` : a countdown started with `e` ticks and not stopped fires with the `e`-th tick
  that follows, whatever else is started or stopped;
* `due_sublist` : countdowns that fire with the same tick fire in the order they were started;
* `Deltas` : countdowns in the order of their deadlines, each stored as the difference to the one
  before it, with the rules for inserting, deleting and ticking.
-/

namespace GarretOS

namespace Countdown

variable {κ : Type*}

/-- The operations on countdowns. -/
inductive Op (κ : Type*) where
  /-- Start the countdown `k` with `e` ticks left. -/
  | add (k : κ) (e : ℕ)
  /-- Stop the countdowns that satisfy `p`. -/
  | del (p : κ → Bool)
  /-- One tick. -/
  | tick

/-- The countdowns that fire with the next tick, oldest first. -/
def due (xs : List (κ × ℕ)) : List κ := (xs.filter fun x => x.2 = 1).map Prod.fst

/-- The effect of an operation on the running countdowns. -/
def Op.apply (xs : List (κ × ℕ)) : Op κ → List (κ × ℕ)
  | .add k e => xs ++ [(k, e)]
  | .del p => xs.filter fun x => !p x.1
  | .tick => (xs.filter fun x => x.2 ≠ 1).map fun x => (x.1, x.2 - 1)

/-- The countdowns that are running after `ops`. -/
def pending (ops : List (Op κ)) : List (κ × ℕ) := ops.foldl Op.apply []

/-- The number of ticks among `ops`. -/
def ticks (ops : List (Op κ)) : ℕ := ops.countP fun | .tick => true | _ => false

@[simp] theorem pending_nil : pending ([] : List (Op κ)) = [] := rfl

@[simp] theorem pending_concat (ops : List (Op κ)) (op : Op κ) :
    pending (ops ++ [op]) = op.apply (pending ops) := by
  simp [pending]

@[simp] theorem ticks_concat_add (ops : List (Op κ)) (k : κ) (e : ℕ) :
    ticks (ops ++ [.add k e]) = ticks ops := by simp [ticks]

@[simp] theorem ticks_concat_del (ops : List (Op κ)) (p : κ → Bool) :
    ticks (ops ++ [.del p]) = ticks ops := by simp [ticks]

@[simp] theorem ticks_concat_tick (ops : List (Op κ)) :
    ticks (ops ++ [.tick]) = ticks ops + 1 := by simp [ticks]

/-- The operations `ops` neither start nor stop the countdown `k`. -/
def Untouched (k : κ) (ops : List (Op κ)) : Prop :=
  (∀ e, Op.add k e ∉ ops) ∧ ∀ p, Op.del p ∈ ops → p k = false

theorem Untouched.init {k : κ} {ops : List (Op κ)} {op : Op κ} (h : Untouched k (ops ++ [op])) :
    Untouched k ops :=
  ⟨fun e he => h.1 e (List.mem_append_left _ he), fun p hp => h.2 p (List.mem_append_left _ hp)⟩

theorem mem_due {xs : List (κ × ℕ)} {k : κ} : k ∈ due xs ↔ (k, 1) ∈ xs := by
  simp [due]

/-- A countdown that is not started does not run. -/
theorem notMem_pending {l₁ l₂ : List (Op κ)} {k : κ} (hk : ∀ r, (k, r) ∉ pending l₁)
    (h : ∀ e, Op.add k e ∉ l₂) (r : ℕ) : (k, r) ∉ pending (l₁ ++ l₂) := by
  induction l₂ using List.reverseRecOn generalizing r with
  | nil => simpa using hk r
  | append_singleton l₂ op ih =>
    have ih := ih fun e he => h e (List.mem_append_left _ he)
    rw [← List.append_assoc, pending_concat]
    cases op with
    | add c d =>
      have hc : k ≠ c := fun hc => h d (by simp [hc])
      simp [Op.apply, ih, hc]
    | del p => simp [Op.apply, ih]
    | tick =>
      simp only [Op.apply, List.mem_map, List.mem_filter, Prod.mk.injEq, not_exists, not_and]
      rintro ⟨c, d⟩ ⟨hx, -⟩ rfl
      exact absurd hx (ih d)

/-- How many ticks a countdown has left. -/
theorem mem_pending_iff {l₁ l₂ : List (Op κ)} {k : κ} {e r : ℕ}
    (hk : ∀ r, (k, r) ∉ pending l₁) (he : 0 < e) (h : Untouched k l₂) :
    (k, r) ∈ pending (l₁ ++ .add k e :: l₂) ↔ r + ticks l₂ = e ∧ 0 < r := by
  induction l₂ using List.reverseRecOn generalizing r with
  | nil =>
    have := hk r
    simp [Op.apply, this, ticks]
    omega
  | append_singleton l₂ op ih =>
    rw [← List.cons_append, ← List.append_assoc, pending_concat]
    have ih := @ih
    cases op with
    | add k' e' =>
      have hne : k ≠ k' := fun hk => h.1 e' (by simp [hk])
      simp [Op.apply, ih h.init, hne]
    | del p =>
      have hp := h.2 p (by simp)
      simp [Op.apply, ih h.init, hp]
    | tick =>
      simp only [Op.apply, List.mem_map, List.mem_filter, Prod.mk.injEq, Prod.exists,
        decide_eq_true_eq, ticks_concat_tick]
      constructor
      · rintro ⟨k', r', ⟨hm, hr⟩, rfl, rfl⟩
        have := (ih h.init).1 hm
        omega
      · rintro ⟨h1, h2⟩
        exact ⟨k, r + 1, ⟨(ih h.init).2 (by omega), by omega⟩, rfl, by omega⟩

/-- **Punctuality.**  A countdown started with `e` ticks and not stopped fires with the `e`-th
tick that follows. -/
theorem mem_due_iff {l₁ l₂ : List (Op κ)} {k : κ} {e : ℕ} (hk : ∀ r, (k, r) ∉ pending l₁)
    (he : 0 < e) (h : Untouched k l₂) :
    k ∈ due (pending (l₁ ++ .add k e :: l₂)) ↔ ticks l₂ + 1 = e := by
  rw [mem_due, mem_pending_iff hk he h]
  omega

/-- Where the countdowns `k` and `k'` are, if they run, once `k'` has been started after `k`. -/
theorem pending_order {l₁ l₂ l₃ : List (Op κ)} {k k' : κ} {e : ℕ} (e' : ℕ)
    (hk' : ∀ r, (k', r) ∉ pending (l₁ ++ .add k e :: l₂)) (hne : k ≠ k') (h : Untouched k l₃)
    (h' : Untouched k' l₃) :
    ∃ as bs, pending (l₁ ++ .add k e :: l₂ ++ .add k' e' :: l₃) = as ++ bs ∧
      (∀ r, (k', r) ∉ as) ∧ ∀ r, (k, r) ∉ bs := by
  induction l₃ using List.reverseRecOn with
  | nil =>
    refine ⟨pending (l₁ ++ .add k e :: l₂), [(k', e')], ?_, hk', by simp [hne]⟩
    rw [pending_concat, Op.apply]
  | append_singleton l₃ op ih =>
    obtain ⟨as, bs, hp, has, hbs⟩ := ih h.init h'.init
    rw [← List.cons_append, ← List.append_assoc, pending_concat, hp]
    cases op with
    | add c d =>
      have hc : k ≠ c := fun hc => h.1 d (by simp [hc])
      exact ⟨as, bs ++ [(c, d)], by simp [Op.apply], has, by simp [hbs, hc]⟩
    | del p =>
      exact ⟨as.filter fun x => !p x.1, bs.filter fun x => !p x.1, by simp [Op.apply],
        fun r hr => has r (List.mem_of_mem_filter hr), fun r hr => hbs r (List.mem_of_mem_filter hr)⟩
    | tick =>
      refine ⟨Op.tick.apply as, Op.tick.apply bs, by simp [Op.apply], ?_, ?_⟩
      · intro r hr
        simp only [Op.apply, List.mem_map, List.mem_filter, Prod.mk.injEq] at hr
        obtain ⟨⟨c, d⟩, ⟨hx, -⟩, rfl, -⟩ := hr
        exact has d hx
      · intro r hr
        simp only [Op.apply, List.mem_map, List.mem_filter, Prod.mk.injEq] at hr
        obtain ⟨⟨c, d⟩, ⟨hx, -⟩, rfl, -⟩ := hr
        exact hbs d hx

/-- **Order.**  Of two countdowns that fire with the same tick the older one fires first. -/
theorem due_sublist {l₁ l₂ l₃ : List (Op κ)} {k k' : κ} {e e' : ℕ}
    (hk' : ∀ r, (k', r) ∉ pending (l₁ ++ .add k e :: l₂)) (hne : k ≠ k') (h : Untouched k l₃)
    (h' : Untouched k' l₃) (hd : k ∈ due (pending (l₁ ++ .add k e :: l₂ ++ .add k' e' :: l₃)))
    (hd' : k' ∈ due (pending (l₁ ++ .add k e :: l₂ ++ .add k' e' :: l₃))) :
    [k, k'].Sublist (due (pending (l₁ ++ .add k e :: l₂ ++ .add k' e' :: l₃))) := by
  obtain ⟨as, bs, hp, has, hbs⟩ := pending_order e' hk' hne h h'
  rw [hp] at hd hd' ⊢
  rw [mem_due, List.mem_append] at hd hd'
  have h1 : k ∈ due as := mem_due.2 (hd.resolve_right (hbs 1))
  have h2 : k' ∈ due bs := mem_due.2 (hd'.resolve_left (has 1))
  have hsplit : due (as ++ bs) = due as ++ due bs := by simp [due]
  rw [hsplit]
  exact (List.singleton_sublist.2 h1).append (List.singleton_sublist.2 h2)

/-! ### Deadline order -/

/-- `xs` are the countdowns `ys` in the order of their deadlines; those with the same deadline are
in the same order in both lists. -/
structure ByDeadline (xs ys : List (κ × ℕ)) : Prop where
  /-- Earlier deadlines come first. -/
  sorted : xs.Pairwise fun x y => x.2 ≤ y.2
  /-- Countdowns with the same deadline keep their order. -/
  same : ∀ r, xs.filter (fun x => x.2 = r) = ys.filter fun x => x.2 = r

namespace ByDeadline

variable {xs ys as bs : List (κ × ℕ)}

theorem nil : ByDeadline ([] : List (κ × ℕ)) [] := ⟨List.Pairwise.nil, fun _ => rfl⟩

theorem mem_iff (h : ByDeadline xs ys) {x : κ × ℕ} : x ∈ xs ↔ x ∈ ys := by
  have := h.same x.2
  constructor <;> intro hx
  · have hm : x ∈ xs.filter fun y => y.2 = x.2 := by simp [hx]
    rw [this] at hm
    exact List.mem_of_mem_filter hm
  · have hm : x ∈ ys.filter fun y => y.2 = x.2 := by simp [hx]
    rw [← this] at hm
    exact List.mem_of_mem_filter hm

/-- A new countdown goes behind those that do not end later. -/
theorem add (h : ByDeadline (as ++ bs) ys) {k : κ} {e : ℕ} (has : ∀ a ∈ as, a.2 ≤ e)
    (hbs : ∀ b ∈ bs, e < b.2) : ByDeadline (as ++ (k, e) :: bs) (ys ++ [(k, e)]) := by
  obtain ⟨h1, h2, h3⟩ := List.pairwise_append.1 h.sorted
  refine ⟨?_, fun r => ?_⟩
  · simp only [List.pairwise_append, List.pairwise_cons, List.mem_cons]
    refine ⟨h1, ⟨fun b hb => Nat.le_of_lt (hbs b hb), h2⟩, ?_⟩
    rintro a ha c (rfl | hc)
    · exact has a ha
    · exact h3 a ha c hc
  · have hs := h.same r
    by_cases hr : e = r
    · have hnil : bs.filter (fun x => x.2 = r) = [] := by
        rw [List.filter_eq_nil_iff]
        intro b hb
        have := hbs b hb
        simp
        omega
      rw [List.filter_append, hnil, List.append_nil] at hs
      simp [hs, hr, hnil]
    · rw [List.filter_append] at hs
      simp [← hs, hr]

theorem filter (h : ByDeadline xs ys) (p : κ × ℕ → Bool) :
    ByDeadline (xs.filter p) (ys.filter p) := by
  refine ⟨h.sorted.filter p, fun r => ?_⟩
  rw [List.filter_comm, h.same, List.filter_comm]

/-- A tick takes the due countdowns off the front. -/
theorem tick (h : ByDeadline xs ys) (hpos : ∀ x ∈ xs, 0 < x.2) :
    ∃ as bs, xs = as ++ bs ∧ (∀ a ∈ as, a.2 = 1) ∧ (∀ b ∈ bs, 1 < b.2) ∧
      as.map Prod.fst = due ys ∧
      ByDeadline (bs.map fun x => (x.1, x.2 - 1)) (Op.tick.apply ys) := by
  have hsplit : ∃ as bs, xs = as ++ bs ∧ (∀ a ∈ as, a.2 = 1) ∧ ∀ b ∈ bs, 1 < b.2 := by
    have hs := h.sorted
    clear h
    induction xs with
    | nil => exact ⟨[], [], rfl, by simp, by simp⟩
    | cons x xs ih =>
      obtain ⟨h1, h2⟩ := List.pairwise_cons.1 hs
      have hx := hpos x List.mem_cons_self
      by_cases hx1 : x.2 = 1
      · obtain ⟨as, bs, rfl, has, hbs⟩ := ih (fun y hy => hpos y (List.mem_cons_of_mem _ hy)) h2
        exact ⟨x :: as, bs, rfl, by simpa using ⟨hx1, fun a b => has (a, b)⟩, hbs⟩
      · refine ⟨[], x :: xs, rfl, by simp, ?_⟩
        rintro b (_ | ⟨_, hb⟩)
        · omega
        · have := h1 b hb
          omega
  obtain ⟨as, bs, rfl, has, hbs⟩ := hsplit
  have hone : (as ++ bs).filter (fun x => x.2 = 1) = as := by
    rw [List.filter_append, List.filter_eq_self.2 (by simpa using fun a b => has (a, b)),
      List.filter_eq_nil_iff.2 (by simpa using fun a b hb => Nat.ne_of_gt (hbs (a, b) hb)),
      List.append_nil]
  refine ⟨as, bs, rfl, has, hbs, by rw [due, ← h.same, hone], ?_, fun r => ?_⟩
  · rw [List.pairwise_map]
    exact ((List.pairwise_append.1 h.sorted).2.1).imp fun hle => Nat.sub_le_sub_right hle 1
  · -- the countdowns with `r` ticks left after the tick are those that had `r + 1`
    have hmap : ∀ zs : List (κ × ℕ), (∀ z ∈ zs, 0 < z.2) →
        (zs.map fun x => (x.1, x.2 - 1)).filter (fun x => x.2 = r) =
          (zs.filter fun x => x.2 = r + 1).map fun x => (x.1, x.2 - 1) := by
      intro zs hz
      rw [List.filter_map]
      congr 1
      refine List.filter_congr fun z hzm => ?_
      have := hz z hzm
      simp only [Function.comp_apply, decide_eq_decide]
      omega
    have hs := h.same (r + 1)
    have hys : ∀ y ∈ ys, 0 < y.2 := fun y hy => hpos y (h.mem_iff.2 hy)
    simp only [Op.apply]
    rw [hmap bs fun b hb => by have := hbs b hb; omega,
      hmap _ fun y hy => hys y (List.mem_of_mem_filter hy), List.filter_filter]
    congr 1
    by_cases hr : r = 0
    · subst hr
      rw [List.filter_eq_nil_iff.2 (by simpa using fun a b hb => Nat.ne_of_gt (hbs (a, b) hb))]
      rw [List.filter_eq_nil_iff.2 (by simp)]
    · have hnil : as.filter (fun x => x.2 = r + 1) = [] := by
        rw [List.filter_eq_nil_iff]
        intro a ha
        have := has a ha
        simp
        omega
      rw [List.filter_append, hnil, List.nil_append] at hs
      rw [hs]
      refine List.filter_congr fun y _ => ?_
      by_cases hy : y.2 = r + 1
      · simp [hy, hr]
      · simp [hy]

end ByDeadline

/-! ### Delta encoding -/

/-- Each countdown of `xs` is stored in `f` as the difference to the one before it; `d` is the
number of ticks that the first one is relative to. -/
def Deltas (f : κ → ℕ) : ℕ → List (κ × ℕ) → Prop
  | _, [] => True
  | d, x :: xs => f x.1 + d = x.2 ∧ Deltas f x.2 xs

/-- The number of ticks the countdown after `xs` is relative to. -/
def lastDeadline (d : ℕ) (xs : List (κ × ℕ)) : ℕ := (xs.map Prod.snd).getLastD d

@[simp] theorem lastDeadline_nil (d : ℕ) : lastDeadline d ([] : List (κ × ℕ)) = d := rfl

@[simp] theorem lastDeadline_cons (d : ℕ) (x : κ × ℕ) (xs : List (κ × ℕ)) :
    lastDeadline d (x :: xs) = lastDeadline x.2 xs := by
  simp only [lastDeadline, List.map_cons]
  cases xs <;> simp [List.getLastD]

@[simp] theorem lastDeadline_concat (d : ℕ) (x : κ × ℕ) (xs : List (κ × ℕ)) :
    lastDeadline d (xs ++ [x]) = x.2 := by
  simp only [lastDeadline, List.map_append, List.map_cons, List.map_nil, List.getLastD_concat]

section Deltas

variable {f g : κ → ℕ} {d : ℕ} {xs as bs : List (κ × ℕ)}

theorem deltas_append :
    Deltas f d (as ++ bs) ↔ Deltas f d as ∧ Deltas f (lastDeadline d as) bs := by
  induction as generalizing d with
  | nil => simp [Deltas]
  | cons a as ih => simp [Deltas, ih, and_assoc]

theorem Deltas.congr (h : Deltas f d xs) (hg : ∀ x ∈ xs, g x.1 = f x.1) : Deltas g d xs := by
  induction xs generalizing d with
  | nil => trivial
  | cons x xs ih =>
    refine ⟨?_, ih h.2 fun y hy => hg y (List.mem_cons_of_mem _ hy)⟩
    rw [hg x List.mem_cons_self]
    exact h.1

/-- Counting everything one tick less. -/
theorem Deltas.pred (h : Deltas f (d + 1) xs) : Deltas f d (xs.map fun x => (x.1, x.2 - 1)) := by
  induction xs generalizing d with
  | nil => trivial
  | cons x xs ih =>
    obtain ⟨h1, h2⟩ := h
    refine ⟨by simp only; omega, ih (d := x.2 - 1) ?_⟩
    rwa [Nat.sub_add_cancel (by omega)]

/-- The differences determine the deadlines. -/
theorem Deltas.unique {ys : List (κ × ℕ)} (hx : Deltas f d xs) (hy : Deltas f d ys)
    (h : xs.map Prod.fst = ys.map Prod.fst) : xs = ys := by
  induction xs generalizing d ys with
  | nil => exact (List.map_eq_nil_iff.1 h.symm).symm
  | cons x xs ih =>
    cases ys with
    | nil => cases h
    | cons y ys =>
      obtain ⟨hk, ht⟩ := List.cons.inj h
      have hxy : x.2 = y.2 := by rw [← hx.1, ← hy.1, hk]
      obtain rfl : x = y := Prod.ext hk hxy
      rw [ih hx.2 hy.2 ht]

end Deltas

end Countdown

end GarretOS
