/-
Computations that may fail, by what they return: a postcondition of every value
that one returns, and a relation that a second one keeps to the values of the
first.  Both rules follow the shape of a computation: a value, a failure, a
conditional, and one computation behind another.
-/
import Mathlib.Data.List.Basic

namespace CRiscV
namespace Transition

variable {E E' α β γ δ : Type}

@[simp] theorem ok_bind (a : α) (f : α → Except E β) : (Except.ok a >>= f) = f a := rfl

/-- A bind that returns had a first part that returned. -/
theorem exists_of_bind_ok {x : Except E α} {f : α → Except E β} {b : β}
    (h : x >>= f = .ok b) : ∃ a, x = .ok a ∧ f a = .ok b := by
  match x, h with
  | .ok a, h => exact ⟨a, rfl, h⟩

/-- A check that let the computation return. -/
theorem of_ite_ok {p : Prop} [Decidable p] {e : E} {a b : α}
    (h : (if p then .ok a else .error e : Except E α) = .ok b) : p ∧ a = b := by
  by_cases hp : p
  · rw [if_pos hp] at h
    exact ⟨hp, Except.ok.inj h⟩
  · rw [if_neg hp] at h
    cases h

/-- A check that did not end the computation. -/
theorem of_ite_error {p : Prop} [Decidable p] {e : E} {x : Except E α} {b : α}
    (h : (if p then .error e else x) = .ok b) : ¬ p ∧ x = .ok b := by
  by_cases hp : p
  · rw [if_pos hp] at h
    cases h
  · rw [if_neg hp] at h
    exact ⟨hp, h⟩

theorem exists_of_map_ok {x : Except E α} {f : α → β} {b : β} (h : x.map f = .ok b) :
    ∃ a, x = .ok a ∧ f a = b := by
  match x, h with
  | .ok a, h => exact ⟨a, rfl, Except.ok.inj h⟩

/-! ## Postconditions -/

/-- Whatever the computation returns satisfies `Q`. -/
def Returns (Q : α → Prop) (x : Except E α) : Prop := ∀ a, x = .ok a → Q a

theorem returns_ok {Q : α → Prop} {a : α} (h : Q a) : Returns Q (.ok a : Except E α) := by
  intro b hb
  cases hb
  exact h

theorem returns_error {Q : α → Prop} (e : E) : Returns Q (.error e : Except E α) := by
  intro b hb
  cases hb

theorem returns_ite {Q : α → Prop} {p : Prop} [Decidable p] {x y : Except E α}
    (hx : Returns Q x) (hy : Returns Q y) : Returns Q (if p then x else y) := by
  by_cases hp : p
  · rwa [if_pos hp]
  · rwa [if_neg hp]

/-- Each branch may use the test. -/
theorem returns_cases {Q : α → Prop} {p : Prop} [Decidable p] {x y : Except E α}
    (hx : p → Returns Q x) (hy : ¬ p → Returns Q y) : Returns Q (if p then x else y) := by
  by_cases hp : p
  · rw [if_pos hp]
    exact hx hp
  · rw [if_neg hp]
    exact hy hp

theorem returns_bind {Q : α → Prop} {R : β → Prop} {x : Except E α} {f : α → Except E β}
    (hx : Returns Q x) (hf : ∀ a, Q a → Returns R (f a)) : Returns R (x >>= f) := by
  intro b hb
  obtain ⟨a, ha, hb⟩ := exists_of_bind_ok hb
  exact hf a (hx a ha) b hb

theorem returns_imp {Q R : α → Prop} {x : Except E α} (hx : Returns Q x) (h : ∀ a, Q a → R a) :
    Returns R x := fun a ha => h a (hx a ha)

theorem returns_any (x : Except E α) : Returns (fun _ => True) x := fun _ _ => trivial

/-! ## Computations that return -/

/-- The computation returns something. -/
def Yields (x : Except E α) : Prop := ∃ a, x = .ok a

theorem yields_ok (a : α) : Yields (.ok a : Except E α) := ⟨a, rfl⟩

theorem not_yields_error (e : E) : ¬ Yields (.error e : Except E α) := by
  rintro ⟨a, ha⟩
  cases ha

theorem yields_ite {p : Prop} [Decidable p] {x y : Except E α} (hx : Yields x) (hy : Yields y) :
    Yields (if p then x else y) := by
  by_cases hp : p
  · rwa [if_pos hp]
  · rwa [if_neg hp]

/-- Each branch may use the test. -/
theorem yields_cases {p : Prop} [Decidable p] {x y : Except E α} (hx : p → Yields x)
    (hy : ¬ p → Yields y) : Yields (if p then x else y) := by
  by_cases hp : p
  · rw [if_pos hp]
    exact hx hp
  · rw [if_neg hp]
    exact hy hp

/-- A label of a switch, with a value at it. -/
theorem yields_ite_ok_iff {p : Prop} [Decidable p] {a : α} {x : Except E α} :
    Yields (if p then .ok a else x) ↔ p ∨ Yields x := by
  by_cases hp : p
  · rw [if_pos hp]
    exact iff_of_true (yields_ok a) (Or.inl hp)
  · rw [if_neg hp, or_iff_right hp]

/-- A check in front of a computation. -/
theorem yields_ite_error_iff {p : Prop} [Decidable p] {e : E} {x : Except E α} :
    Yields (if p then .error e else x) ↔ ¬ p ∧ Yields x := by
  by_cases hp : p
  · rw [if_pos hp]
    exact iff_of_false (not_yields_error e) fun h => h.1 hp
  · rw [if_neg hp, and_iff_right hp]

/-- Both parts return; the second is entered with what the first one returned. -/
theorem yields_bind {x : Except E α} {f : α → Except E β} (hx : Yields x)
    (hf : ∀ a, x = .ok a → Yields (f a)) : Yields (x >>= f) := by
  obtain ⟨a, ha⟩ := hx
  obtain ⟨b, hb⟩ := hf a ha
  refine ⟨b, ?_⟩
  rw [ha, ok_bind, hb]

/-! ## Failures that do not happen -/

/-- The computation does not fail with `e`. -/
def Avoids (e : E) (x : Except E α) : Prop := x ≠ .error e

theorem avoids_ok {e : E} (a : α) : Avoids e (.ok a) := by
  intro h
  cases h

theorem avoids_error {e e' : E} (h : e' ≠ e) : Avoids e (.error e' : Except E α) :=
  fun heq => h (Except.error.inj heq)

theorem avoids_ite {e : E} {p : Prop} [Decidable p] {x y : Except E α} (hx : Avoids e x)
    (hy : Avoids e y) : Avoids e (if p then x else y) := by
  by_cases hp : p
  · rwa [if_pos hp]
  · rwa [if_neg hp]

/-- The second part is entered with what the first one returned. -/
theorem avoids_bind {e : E} {x : Except E α} {f : α → Except E β} (hx : Avoids e x)
    (hf : ∀ a, x = .ok a → Avoids e (f a)) : Avoids e (x >>= f) := by
  match x, hx, hf with
  | .ok a, _, hf => exact hf a rfl
  | .error e', hx, _ => exact fun h => hx (congrArg Except.error (Except.error.inj h))

/-! ## Two computations -/

/-- Wherever the first computation returns, the second returns something related. -/
def Follows (R : α → β → Prop) (x : Except E α) (y : Except E' β) : Prop :=
  ∀ a, x = .ok a → ∃ b, y = .ok b ∧ R a b

theorem follows_ok {R : α → β → Prop} {a : α} {b : β} (h : R a b) :
    Follows R (.ok a : Except E α) (.ok b : Except E' β) := by
  intro a' ha
  cases ha
  exact ⟨b, rfl, h⟩

theorem follows_error {R : α → β → Prop} (e : E) (y : Except E' β) :
    Follows R (.error e : Except E α) y := by
  intro a ha
  cases ha

theorem follows_ite {R : α → β → Prop} {p q : Prop} [Decidable p] [Decidable q]
    {x x' : Except E α} {y y' : Except E' β} (hpq : p ↔ q)
    (hx : Follows R x y) (hx' : Follows R x' y') :
    Follows R (if p then x else x') (if q then y else y') := by
  by_cases hp : p
  · rwa [if_pos hp, if_pos (hpq.mp hp)]
  · rwa [if_neg hp, if_neg (fun hq => hp (hpq.mpr hq))]

theorem follows_bind {R : α → β → Prop} {S : γ → δ → Prop} {x : Except E α} {y : Except E' β}
    {f : α → Except E γ} {g : β → Except E' δ} (hxy : Follows R x y)
    (hfg : ∀ a b, R a b → Follows S (f a) (g b)) : Follows S (x >>= f) (y >>= g) := by
  intro c hc
  obtain ⟨a, ha, hc⟩ := exists_of_bind_ok hc
  obtain ⟨b, hb, hab⟩ := hxy a ha
  obtain ⟨d, hd, hcd⟩ := hfg a b hab c hc
  refine ⟨d, ?_, hcd⟩
  rw [hb, ok_bind, hd]

theorem follows_self {Q : α → Prop} {x : Except E α} (h : Returns Q x) :
    Follows (fun a b => b = a ∧ Q a) x x := fun a ha => ⟨a, ha, rfl, h a ha⟩

end Transition
end CRiscV
