/-
Half-open ranges of a total map: the loops that fill, copy or rewrite
`a[lo], ..., a[hi - 1]` and leave the rest of `a` alone.
-/
import Mathlib.Data.List.Basic

namespace CRiscV
namespace Span

variable {α : Type}

/-- Rewrite every entry of `[lo, hi)` by a function of its index and value. -/
def update (lo hi : Nat) (g : Nat → α → α) (a : Nat → α) : Nat → α :=
  fun i => if lo ≤ i ∧ i < hi then g i (a i) else a i

def fill (lo hi : Nat) (v : α) (a : Nat → α) : Nat → α := update lo hi (fun _ _ => v) a

/-- Copy the entries of `src` from its start on into `[lo, hi)`. -/
def copy (lo hi : Nat) (src : Nat → α) (a : Nat → α) : Nat → α :=
  update lo hi (fun i _ => src (i - lo)) a

/-- Whether every entry of `[lo, hi)` passes a test. -/
def all (lo hi : Nat) (p : α → Bool) (a : Nat → α) : Bool :=
  (List.range (hi - lo)).all fun k => p (a (lo + k))

/-- The end of the entries that the test of `[lo, hi)` reads: it stops behind the first
entry that fails. -/
def tested (lo hi : Nat) (p : α → Bool) (a : Nat → α) : Nat :=
  lo + min (hi - lo) ((List.range (hi - lo)).findIdx (fun k => !p (a (lo + k))) + 1)

variable {lo hi i : Nat} {a : Nat → α}

theorem update_of_mem {g : Nat → α → α} (hlo : lo ≤ i) (hhi : i < hi) :
    update lo hi g a i = g i (a i) := if_pos ⟨hlo, hhi⟩

theorem update_of_not_mem {g : Nat → α → α} (h : i < lo ∨ hi ≤ i) :
    update lo hi g a i = a i := if_neg (by omega)

theorem update_empty {g : Nat → α → α} (h : hi ≤ lo) : update lo hi g a = a := by
  funext i
  exact update_of_not_mem (by omega)

theorem update_congr {g g' : Nat → α → α}
    (h : ∀ i, lo ≤ i → i < hi → g i (a i) = g' i (a i)) : update lo hi g a = update lo hi g' a := by
  funext i
  by_cases hi' : lo ≤ i ∧ i < hi
  · rw [update_of_mem hi'.1 hi'.2, update_of_mem hi'.1 hi'.2, h i hi'.1 hi'.2]
  · rw [update_of_not_mem (by omega), update_of_not_mem (by omega)]

/-- Two ranges in a row, rewritten one after the other. -/
theorem update_update {g : Nat → α → α} {mid : Nat} (hlo : lo ≤ mid) (hhi : mid ≤ hi) :
    update mid hi g (update lo mid g a) = update lo hi g a := by
  funext i
  by_cases hlow : i < mid
  · rw [update_of_not_mem (Or.inl hlow)]
    by_cases hstart : lo ≤ i
    · rw [update_of_mem hstart hlow, update_of_mem hstart (by omega)]
    · rw [update_of_not_mem (by omega), update_of_not_mem (by omega)]
  · by_cases hend : i < hi
    · rw [update_of_mem (by omega) hend, update_of_mem (by omega) hend,
        update_of_not_mem (by omega)]
    · rw [update_of_not_mem (by omega), update_of_not_mem (by omega), update_of_not_mem (by omega)]

theorem fill_of_mem {v : α} (hlo : lo ≤ i) (hhi : i < hi) : fill lo hi v a i = v :=
  update_of_mem hlo hhi

theorem fill_of_not_mem {v : α} (h : i < lo ∨ hi ≤ i) : fill lo hi v a i = a i :=
  update_of_not_mem h

theorem copy_of_mem {src : Nat → α} (hlo : lo ≤ i) (hhi : i < hi) :
    copy lo hi src a i = src (i - lo) := update_of_mem hlo hhi

theorem copy_of_not_mem {src : Nat → α} (h : i < lo ∨ hi ≤ i) : copy lo hi src a i = a i :=
  update_of_not_mem h

theorem copy_congr {src src' : Nat → α} (h : ∀ i < hi - lo, src i = src' i) :
    copy lo hi src a = copy lo hi src' a := by
  funext i
  by_cases hi' : lo ≤ i ∧ i < hi
  · rw [copy_of_mem hi'.1 hi'.2, copy_of_mem hi'.1 hi'.2, h (i - lo) (by omega)]
  · rw [copy_of_not_mem (by omega), copy_of_not_mem (by omega)]

/-- A copy in two parts. -/
theorem copy_copy {src : Nat → α} {k : Nat} (hhi : lo + k ≤ hi) :
    copy (lo + k) hi (fun i => src (k + i)) (copy lo (lo + k) src a) = copy lo hi src a := by
  have hrest : copy (lo + k) hi (fun i => src (k + i)) (copy lo (lo + k) src a) =
      update (lo + k) hi (fun i _ => src (i - lo)) (copy lo (lo + k) src a) := by
    apply update_congr
    intro i hmid _
    show src (k + (i - (lo + k))) = src (i - lo)
    rw [show k + (i - (lo + k)) = i - lo by omega]
  rw [hrest]
  exact update_update (Nat.le_add_right lo k) hhi

theorem all_eq_true_iff {p : α → Bool} :
    all lo hi p a = true ↔ ∀ i, lo ≤ i → i < hi → p (a i) = true := by
  simp only [all, List.all_eq_true, List.mem_range]
  constructor
  · intro h i hlo hhi
    have hp := h (i - lo) (by omega)
    rwa [show lo + (i - lo) = i by omega] at hp
  · intro h k hk
    exact h (lo + k) (by omega) (by omega)

theorem tested_le (p : α → Bool) : tested lo hi p a ≤ max lo hi := by
  unfold tested
  omega

end Span
end CRiscV
