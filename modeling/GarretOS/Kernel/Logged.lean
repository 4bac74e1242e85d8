import GarretOS.Kernel.Fault

/-!
# Computations with a log

A computation of type `Logged ε α` may stop the kernel, like one of type `Res α`, and it leaves a
list of events of type `ε`, also when it stops.  `Meets x P E Q` says that all its events satisfy
`P`, that it stops for reasons in `E` at most, and that its result satisfies `Q`; there is one rule
for each way of putting computations together.
-/

namespace GarretOS

/-- A computation with its events. -/
structure Logged (ε α : Type) where
  events : List ε
  result : Res α

namespace Logged

variable {ε α β : Type}

/-- One computation after the other; the second does not begin if the first stops. -/
def bind (x : Logged ε α) (f : α → Logged ε β) : Logged ε β :=
  match x.result with
  | .ok a => ⟨x.events ++ (f a).events, (f a).result⟩
  | .error e => ⟨x.events, .error e⟩

instance : Monad (Logged ε) where
  pure a := ⟨[], .ok a⟩
  bind := bind

/-- A single event. -/
def emit (e : ε) : Logged ε Unit := ⟨[e], .ok ()⟩

/-- A computation without events. -/
def lift (x : Res α) : Logged ε α := ⟨[], x⟩

/-- The same computation, its events being called differently. -/
def rename {ε' : Type} (f : ε → ε') (x : Logged ε α) : Logged ε' α := ⟨x.events.map f, x.result⟩

theorem bind_of_ok {x : Logged ε α} {a : α} (h : x.result = .ok a) (f : α → Logged ε β) :
    x >>= f = ⟨x.events ++ (f a).events, (f a).result⟩ := by
  show bind x f = _
  rw [bind, h]

theorem bind_of_error {x : Logged ε α} {e : Fault} (h : x.result = .error e)
    (f : α → Logged ε β) : x >>= f = ⟨x.events, .error e⟩ := by
  show bind x f = _
  rw [bind, h]

theorem mem_bind_left {x : Logged ε α} {f : α → Logged ε β} {e : ε} (h : e ∈ x.events) :
    e ∈ (x >>= f).events := by
  cases hx : x.result with
  | error err =>
    rw [bind_of_error hx]
    exact h
  | ok a =>
    rw [bind_of_ok hx]
    exact List.mem_append_left _ h

/-- All events satisfy `P`, the computation stops for reasons in `E` only, and its result
satisfies `Q`. -/
structure Meets (x : Logged ε α) (P : ε → Prop) (E : Fault → Prop) (Q : α → Prop) : Prop where
  events : ∀ e ∈ x.events, P e
  error : ∀ f, x.result = .error f → E f
  result : ∀ a, x.result = .ok a → Q a

variable {x : Logged ε α} {P : ε → Prop} {E : Fault → Prop} {Q Q' : α → Prop}

theorem meets_pure {a : α} (h : Q a) : Meets (pure a : Logged ε α) P E Q where
  events e he := by cases he
  error f hf := by cases hf
  result b hb := by
    cases hb
    exact h

theorem meets_emit {e : ε} (h : P e) : Meets (emit e) P E fun _ => True where
  events e' he := by
    obtain rfl := List.mem_singleton.1 he
    exact h
  error f hf := by cases hf
  result _ _ := trivial

theorem meets_lift {y : Res α} (hE : ∀ f, y = .error f → E f) (hQ : ∀ a, y = .ok a → Q a) :
    Meets (lift y : Logged ε α) P E Q where
  events e he := by cases he
  error := hE
  result := hQ

theorem meets_any (y : Res α) :
    Meets (lift y : Logged ε α) P (fun _ => True) fun _ => True :=
  meets_lift (fun _ _ => trivial) fun _ _ => trivial

theorem Meets.bind {f : α → Logged ε β} {S : β → Prop} (h : Meets x P E Q)
    (hf : ∀ a, Q a → Meets (f a) P E S) : Meets (x >>= f) P E S := by
  obtain ⟨es, r⟩ := x
  cases r with
  | error e => exact ⟨h.events, fun f hf => h.error f (by cases hf; rfl), fun a ha => by cases ha⟩
  | ok a =>
    have hfa := hf a (h.result a rfl)
    refine ⟨fun e he => ?_, hfa.error, hfa.result⟩
    rcases List.mem_append.1 he with he | he
    · exact h.events e he
    · exact hfa.events e he

theorem Meets.mono (h : Meets x P E Q) (hQ : ∀ a, Q a → Q' a) : Meets x P E Q' :=
  ⟨h.events, h.error, fun a ha => hQ a (h.result a ha)⟩

end Logged

end GarretOS
