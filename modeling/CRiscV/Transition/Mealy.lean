/-
Machines that answer every request, and a machine run beside its reference: under which
condition on the requests an observer cannot tell the two apart.
-/
import Mathlib.Data.Prod.Basic
import Mathlib.Data.List.Basic

namespace CRiscV
namespace Transition

variable {S I O : Type}

/-- The answers to a list of requests, and the state after the last one. -/
def serve (step : S → I → O × S) : S → List I → List O × S
  | s, [] => ([], s)
  | s, i :: is =>
      let served := step s i
      let rest := serve step served.2 is
      (served.1 :: rest.1, rest.2)

/-- Every request meets `P` in the state in which it is served. -/
def Meets (step : S → I → O × S) (P : S → I → Prop) : S → List I → Prop
  | _, [] => True
  | s, i :: is => P s i ∧ Meets step P (step s i).2 is

variable {step ref : S → I → O × S} {P : S → I → Prop} {s t : S} {i : I}

@[simp] theorem serve_nil : serve step s [] = ([], s) := rfl

@[simp] theorem serve_cons (is : List I) : serve step s (i :: is) =
    ((step s i).1 :: (serve step (step s i).2 is).1, (serve step (step s i).2 is).2) := rfl

@[simp] theorem meets_nil : Meets step P s [] := trivial

@[simp] theorem meets_cons (is : List I) :
    Meets step P s (i :: is) ↔ P s i ∧ Meets step P (step s i).2 is := Iff.rfl

/-! ## A machine beside its reference -/

/-- States that are kept apart until an answer shows the difference are told apart. -/
theorem serve_ne_of_apart {Apart : S → S → Prop}
    (hkeep : ∀ {s t i}, Apart s t → (step s i).1 = (ref t i).1 →
      Apart (step s i).2 (ref t i).2)
    (hne : ∀ s, ¬ Apart s s) {is : List I} (h : Apart s t) :
    serve step s is ≠ serve ref t is := by
  induction is generalizing s t with
  | nil =>
      intro heq
      have hst : s = t := (Prod.ext_iff.mp heq).2
      exact hne t (hst ▸ h)
  | cons i is ih =>
      intro heq
      obtain ⟨hanswers, hstate⟩ := Prod.ext_iff.mp heq
      obtain ⟨hanswer, hrest⟩ := List.cons.inj hanswers
      exact ih (hkeep h hanswer) (Prod.ext hrest hstate)

/-- A machine does what its reference does where `P` holds.  If the states come apart as soon
as it does not, and stay apart until an answer shows it, then no observer sees a difference
exactly when every request has met `P`. -/
theorem serve_eq_iff {Apart : S → S → Prop}
    (hagree : ∀ {s i}, P s i → step s i = ref s i)
    (hpart : ∀ {s i}, ¬ P s i → Apart (step s i).2 (ref s i).2)
    (hkeep : ∀ {s t i}, Apart s t → (step s i).1 = (ref t i).1 →
      Apart (step s i).2 (ref t i).2)
    (hne : ∀ s, ¬ Apart s s) (is : List I) :
    serve step s is = serve ref s is ↔ Meets step P s is := by
  induction is generalizing s with
  | nil => simp only [serve_nil, meets_nil]
  | cons i is ih =>
      by_cases hP : P s i
      · have hserved := hagree hP
        rw [meets_cons, ← ih, serve_cons, serve_cons, ← hserved]
        constructor
        · intro heq
          obtain ⟨hanswers, hstate⟩ := Prod.ext_iff.mp heq
          exact ⟨hP, Prod.ext (List.cons.inj hanswers).2 hstate⟩
        · rintro ⟨-, hrest⟩
          rw [hrest]
      · constructor
        · intro heq
          obtain ⟨hanswers, hstate⟩ := Prod.ext_iff.mp heq
          have hrest : serve step (step s i).2 is = serve ref (ref s i).2 is :=
            Prod.ext (List.cons.inj hanswers).2 hstate
          exact absurd hrest (serve_ne_of_apart hkeep hne (hpart hP))
        · rintro ⟨hP', -⟩
          exact absurd hP' hP

end Transition
end CRiscV
