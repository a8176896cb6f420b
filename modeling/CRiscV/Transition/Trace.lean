/-
The last event of a kind in a history, oldest event first.
-/
import Mathlib.Data.List.Basic
import Mathlib.Data.List.Induction

namespace CRiscV
namespace Transition

variable {E : Type} {p q : E → Prop} {events : List E} {event : E}

/-- There is an event with `q`, and none with `p` after it.  Where `q` is a case of `p`, the
last event with `p` has `q`. -/
def Last (p q : E → Prop) (events : List E) : Prop :=
  ∃ before event after, events = before ++ event :: after ∧ q event ∧ ∀ e ∈ after, ¬ p e

theorem not_last_nil : ¬ Last p q [] := by
  rintro ⟨before, event, after, hsplit, -⟩
  cases before with
  | nil => cases hsplit
  | cons => cases hsplit

theorem last_snoc : Last p q (events ++ [event]) ↔ q event ∨ ¬ p event ∧ Last p q events := by
  constructor
  · rintro ⟨before, e, after, hsplit, hlast, hafter⟩
    rcases List.eq_nil_or_concat after with rfl | ⟨rest, last, rfl⟩
    · obtain ⟨-, hevent⟩ := List.append_inj' hsplit rfl
      cases hevent
      exact Or.inl hlast
    · rw [List.concat_eq_append, ← List.cons_append, ← List.append_assoc] at hsplit
      obtain ⟨hevents, hevent⟩ := List.append_inj' hsplit rfl
      cases hevent
      right
      refine ⟨hafter event (by simp), before, e, rest, hevents, hlast, ?_⟩
      intro e' he'
      exact hafter e' (by simp [he'])
  · rintro (hlast | ⟨hkept, before, e, after, rfl, hlast, hafter⟩)
    · exact ⟨events, event, [], rfl, hlast, nofun⟩
    · refine ⟨before, e, after ++ [event], by simp, hlast, ?_⟩
      intro e' he'
      rcases List.mem_append.mp he' with hold | hnew
      · exact hafter e' hold
      · rw [List.mem_singleton.mp hnew]
        exact hkept

end Transition
end CRiscV
