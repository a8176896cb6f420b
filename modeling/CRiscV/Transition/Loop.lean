/-
A `do ... while` loop that collects what its turns leave: its outcome with no bound on the
turns, and a measure under which a bounded loop is the same.
-/
import CRiscV.Transition.Result

namespace CRiscV
namespace Transition

variable {S E α : Type}

/-- The outcome of the loop from a state.  A turn that fails ends it, and so does one that
returns with false. -/
inductive DoWhile (turn : S → Except E (α × Bool × S)) : S → Except E (List α × S) → Prop
  | failed {s : S} {e : E} : turn s = .error e → DoWhile turn s (.error e)
  | last {s s' : S} {a : α} : turn s = .ok (a, false, s') → DoWhile turn s (.ok ([a], s'))
  | next {s s' : S} {a : α} {x : Except E (List α × S)} :
      turn s = .ok (a, true, s') → DoWhile turn s' x →
        DoWhile turn s (x.map fun r => (a :: r.1, r.2))

/-- The loop for a number of turns. -/
def doWhile (turn : S → Except E (α × Bool × S)) : Nat → S → Except E (List α × S)
  | 0, s => .ok ([], s)
  | fuel + 1, s =>
      turn s >>= fun r =>
        if r.2.1 then (doWhile turn fuel r.2.2).map fun x => (r.1 :: x.1, x.2)
        else .ok ([r.1], r.2.2)

variable {turn : S → Except E (α × Bool × S)} {s : S} {x y : Except E (List α × S)}

theorem DoWhile.unique (hx : DoWhile turn s x) (hy : DoWhile turn s y) : y = x := by
  induction hx generalizing y with
  | failed hturn =>
      cases hy with
      | failed hturn' => rw [hturn] at hturn'; cases hturn'; rfl
      | last hturn' | next hturn' => rw [hturn] at hturn'; cases hturn'
  | last hturn =>
      cases hy with
      | last hturn' => rw [hturn] at hturn'; cases hturn'; rfl
      | failed hturn' | next hturn' => rw [hturn] at hturn'; cases hturn'
  | next hturn _ ih =>
      cases hy with
      | next hturn' hy =>
          rw [hturn] at hturn'
          cases hturn'
          rw [ih hy]
      | failed hturn' | last hturn' => rw [hturn] at hturn'; cases hturn'

/-- A loop ends if each turn but the last lessens a measure, and as many turns as that and
one are enough. -/
theorem DoWhile.of_measure (measure : S → Nat)
    (hless : ∀ {s a s'}, turn s = .ok (a, true, s') → measure s' < measure s) {fuel : Nat}
    (hfuel : measure s < fuel) : DoWhile turn s (doWhile turn fuel s) := by
  induction fuel generalizing s with
  | zero => exact absurd hfuel (Nat.not_lt_zero _)
  | succ fuel ih =>
      rw [doWhile]
      cases hturn : turn s with
      | error e => exact .failed hturn
      | ok r =>
          obtain ⟨a, more, s'⟩ := r
          cases more with
          | false => exact .last hturn
          | true =>
              have hnext := hless hturn
              exact .next hturn (ih (by omega))

theorem DoWhile.iff_of_measure (measure : S → Nat)
    (hless : ∀ {s a s'}, turn s = .ok (a, true, s') → measure s' < measure s) {fuel : Nat}
    (hfuel : measure s < fuel) : DoWhile turn s x ↔ doWhile turn fuel s = x := by
  have hbounded := DoWhile.of_measure measure hless hfuel
  constructor
  · intro hx
    exact hx.unique hbounded
  · rintro rfl
    exact hbounded

end Transition
end CRiscV
