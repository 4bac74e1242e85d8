import GarretOS.Kernel.Logged

/-!
# Two runs of a computation

`Follows x y Q` compares two computations, as a rule the same function called in two states: where
the first has a result the second has one, too, and `Q` holds of the two results.  As for `Sat` and
`Meets` there is one rule for each way of putting computations together.
-/

namespace GarretOS

/-- Where `x` has a result `y` has one, too, and the results are related by `Q`. -/
def Follows {α β : Type} (x : Res α) (y : Res β) (Q : α → β → Prop) : Prop :=
  ∀ a, x = .ok a → ∃ b, y = .ok b ∧ Q a b

/-- The same for the results of `x` that satisfy `G`. -/
def FollowsOn {α β : Type} (G : α → Prop) (x : Res α) (y : Res β) (Q : α → β → Prop) : Prop :=
  ∀ a, x = .ok a → G a → ∃ b, y = .ok b ∧ Q a b

section

variable {α β α' β' : Type} {x : Res α} {y : Res β} {Q Q' : α → β → Prop}

theorem follows_ok {a : α} {b : β} (h : Q a b) : Follows (.ok a) (.ok b) Q := by
  intro c hc
  obtain rfl := Except.ok.inj hc
  exact ⟨b, rfl, h⟩

theorem follows_pure {a : α} {b : β} (h : Q a b) : Follows (pure a) (pure b) Q := follows_ok h

theorem follows_error {e : Fault} : Follows (.error e) y Q := by
  intro a ha
  cases ha

/-- A computation follows itself. -/
theorem follows_self {Q : α → α → Prop} (h : ∀ a, x = .ok a → Q a a) : Follows x x Q :=
  fun a ha => ⟨a, ha, h a ha⟩

namespace Follows

theorem mono (h : Follows x y Q) (hQ : ∀ a b, Q a b → Q' a b) : Follows x y Q' := by
  intro a ha
  obtain ⟨b, hb, hab⟩ := h a ha
  exact ⟨b, hb, hQ a b hab⟩

theorem bind {f : α → Res α'} {g : β → Res β'} {P : α' → β' → Prop} (h : Follows x y Q)
    (hfg : ∀ a b, Q a b → Follows (f a) (g b) P) : Follows (x >>= f) (y >>= g) P := by
  intro c hc
  obtain ⟨a, ha, hac⟩ := bind_eq_ok.1 hc
  obtain ⟨b, hb, hab⟩ := h a ha
  obtain ⟨d, hd, hcd⟩ := hfg a b hab c hac
  exact ⟨d, bind_eq_ok.2 ⟨b, hb, hd⟩, hcd⟩

/-- What is known about the result of the first computation. -/
theorem knowing {P : α → Prop} (h : Follows x y Q) (hP : ∀ a, x = .ok a → P a) :
    Follows x y fun a b => P a ∧ Q a b := by
  intro a ha
  obtain ⟨b, hb, hab⟩ := h a ha
  exact ⟨b, hb, hP a ha, hab⟩

theorem on {G : α → Prop} (h : Follows x y Q) : FollowsOn G x y Q := fun a ha _ => h a ha

theorem bind_on {f : α → Res α'} {g : β → Res β'} {P : α' → β' → Prop} {G : α' → Prop}
    (h : Follows x y Q) (hfg : ∀ a b, Q a b → FollowsOn G (f a) (g b) P) :
    FollowsOn G (x >>= f) (y >>= g) P := by
  intro c hc hG
  obtain ⟨a, ha, hac⟩ := bind_eq_ok.1 hc
  obtain ⟨b, hb, hab⟩ := h a ha
  obtain ⟨d, hd, hcd⟩ := hfg a b hab c hac hG
  exact ⟨d, bind_eq_ok.2 ⟨b, hb, hd⟩, hcd⟩

theorem sat {P : α → Prop} (h : Follows x y Q) (hP : Sat x P) :
    Follows x y fun a b => P a ∧ Q a b := h.knowing fun _ ha => hP.of_ok ha

end Follows

/-- Other results do not matter. -/
theorem followsOn_of_not {G : α → Prop} (h : ∀ a, x = .ok a → ¬ G a) : FollowsOn G x y Q :=
  fun a ha hG => absurd hG (h a ha)

end

namespace Logged

variable {ε ε' α β α' β' : Type} {x : Logged ε α} {y : Logged ε' β} {Q : α → β → Prop}

theorem result_bind (x : Logged ε α) (f : α → Logged ε α') :
    (x >>= f).result = x.result >>= fun a => (f a).result := by
  cases hx : x.result with
  | ok a => rw [bind_of_ok hx, ok_bind]
  | error e => rw [bind_of_error hx, error_bind]

/-- The rule for sequences, for computations with a log. -/
theorem follows_bind {f : α → Logged ε α'} {g : β → Logged ε' β'} {P : α' → β' → Prop}
    (h : Follows x.result y.result Q)
    (hfg : ∀ a b, Q a b → Follows (f a).result (g b).result P) :
    Follows (x >>= f).result (y >>= g).result P := by
  rw [result_bind, result_bind]
  exact h.bind hfg

theorem followsOn_bind {f : α → Logged ε α'} {g : β → Logged ε' β'} {P : α' → β' → Prop}
    {G : α' → Prop} (h : Follows x.result y.result Q)
    (hfg : ∀ a b, Q a b → FollowsOn G (f a).result (g b).result P) :
    FollowsOn G (x >>= f).result (y >>= g).result P := by
  rw [result_bind, result_bind]
  exact h.bind_on hfg

end Logged

end GarretOS
