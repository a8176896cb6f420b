/-
Computations that may fail and that say what they do: the log is there for as far as the
computation got, whether it returned or failed.
-/
import CRiscV.Transition.Result

namespace CRiscV
namespace Transition

variable {A E α β : Type}

structure Logged (A E α : Type) where
  log : List A
  result : Except E α

instance : Monad (Logged A E) where
  pure a := { log := [], result := .ok a }
  bind x f :=
    match x.result with
    | .ok a => { log := x.log ++ (f a).log, result := (f a).result }
    | .error e => { log := x.log, result := .error e }

namespace Logged

/-- A computation that has nothing to say. -/
def lift (x : Except E α) : Logged A E α := { log := [], result := x }

/-- A computation that is announced by one entry. -/
def entry (a : A) (x : Except E α) : Logged A E α := { log := [a], result := x }

/-- Everything that the computation said satisfies `P`. -/
def All (P : A → Prop) (x : Logged A E α) : Prop := ∀ a ∈ x.log, P a

variable {P : A → Prop} {x : Logged A E α} {f : α → Logged A E β}

@[simp] theorem result_pure (a : α) : (pure a : Logged A E α).result = .ok a := rfl

@[simp] theorem result_lift (y : Except E α) : (lift y : Logged A E α).result = y := rfl

@[simp] theorem result_entry (a : A) (y : Except E α) : (entry a y).result = y := rfl

/-- Without the log a bind is a bind. -/
@[simp] theorem result_bind (x : Logged A E α) (f : α → Logged A E β) :
    (x >>= f).result = x.result >>= fun a => (f a).result := by
  obtain ⟨log, result⟩ := x
  cases result with
  | ok a => rfl
  | error e => rfl

theorem result_ite {p : Prop} [Decidable p] (x y : Logged A E α) :
    (if p then x else y).result = if p then x.result else y.result := by
  by_cases hp : p
  · rw [if_pos hp, if_pos hp]
  · rw [if_neg hp, if_neg hp]

theorem all_pure (a : α) : (pure a : Logged A E α).All P := List.forall_mem_nil P

theorem all_lift (y : Except E α) : (lift y : Logged A E α).All P := List.forall_mem_nil P

theorem all_entry {a : A} {y : Except E α} : (entry a y).All P ↔ P a := List.forall_mem_singleton

/-- The second part is entered with what the first one returned. -/
theorem all_bind : (x >>= f).All P ↔ x.All P ∧ ∀ a, x.result = .ok a → (f a).All P := by
  obtain ⟨log, result⟩ := x
  cases result with
  | ok a =>
      constructor
      · intro h
        refine ⟨fun b hb => h b (List.mem_append_left _ hb), ?_⟩
        intro a' ha
        cases ha
        exact fun b hb => h b (List.mem_append_right _ hb)
      · rintro ⟨hx, hf⟩ b hb
        rcases List.mem_append.mp hb with hb | hb
        · exact hx b hb
        · exact hf a rfl b hb
  | error e =>
      constructor
      · intro h
        refine ⟨h, ?_⟩
        intro a ha
        cases ha
      · rintro ⟨hx, -⟩
        exact hx

theorem all_bind_of_ok {a : α} (h : x.result = .ok a) :
    (x >>= f).All P ↔ x.All P ∧ (f a).All P := by
  rw [all_bind, h]
  constructor
  · rintro ⟨hx, hf⟩
    exact ⟨hx, hf a rfl⟩
  · rintro ⟨hx, hf⟩
    refine ⟨hx, ?_⟩
    intro a' ha
    cases ha
    exact hf

/-- Both parts of a bind that returned. -/
theorem exists_of_all_bind_ok {b : β} (hall : (x >>= f).All P) (h : (x >>= f).result = .ok b) :
    ∃ a, x.result = .ok a ∧ (f a).All P ∧ (f a).result = .ok b := by
  rw [result_bind] at h
  obtain ⟨a, ha, h⟩ := exists_of_bind_ok h
  exact ⟨a, ha, (all_bind.mp hall).2 a ha, h⟩

/-! ## Postconditions that the log vouches for -/

/-- If everything that the computation said satisfies `P`, what it returned satisfies `Q`. -/
def Vouches (P : A → Prop) (Q : α → Prop) (x : Logged A E α) : Prop := x.All P → Returns Q x.result

theorem vouches_any (x : Logged A E α) : x.Vouches P fun _ => True := fun _ => returns_any _

theorem vouches_result {Q : α → Prop} {x : Logged A E α} (h : Returns Q x.result) :
    x.Vouches P Q := fun _ => h

theorem vouches_pure {Q : α → Prop} {a : α} (h : Q a) : (pure a : Logged A E α).Vouches P Q :=
  fun _ => returns_ok h

theorem vouches_lift {Q : α → Prop} {y : Except E α} (h : Returns Q y) :
    (lift y : Logged A E α).Vouches P Q := fun _ => h

theorem vouches_entry {Q : α → Prop} {a : A} {y : Except E α} (h : P a → Returns Q y) :
    (entry a y).Vouches P Q := fun hall => h (all_entry.mp hall)

theorem vouches_ite {Q : α → Prop} {p : Prop} [Decidable p] {x y : Logged A E α}
    (hx : x.Vouches P Q) (hy : y.Vouches P Q) : (if p then x else y).Vouches P Q := by
  by_cases hp : p
  · rwa [if_pos hp]
  · rwa [if_neg hp]

theorem vouches_bind {Q : α → Prop} {R : β → Prop} (hx : x.Vouches P Q)
    (hf : ∀ a, Q a → (f a).Vouches P R) : (x >>= f).Vouches P R := by
  intro hall
  obtain ⟨hfirst, hsecond⟩ := all_bind.mp hall
  rw [result_bind]
  intro b hb
  obtain ⟨a, ha, hb⟩ := exists_of_bind_ok hb
  exact hf a (hx hfirst a ha) (hsecond a ha) b hb

end Logged
end Transition
end CRiscV
