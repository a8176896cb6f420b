/-
Allocation behind a bound that only moves up.

Everything claimed so far ends at or below the bound.  A fresh claim starts at the
bound or above it, so it is disjoint from all that were made before; a fixed claim
may lie anywhere, as long as the bound is moved behind it.
-/
import Mathlib.Order.CompletePartialOrder
import Mathlib.Order.Interval.Set.Disjoint
import CRiscV.Transition.Run

namespace CRiscV
namespace Alloc

open Transition (Run)

variable {α : Type}

/-- A claimed range, from `lo` up to `hi`, and whether the allocator has chosen its
place. -/
structure Claim (α : Type) where
  lo : α
  hi : α
  fresh : Bool

def Claim.range [Preorder α] (c : Claim α) : Set α := Set.Ico c.lo c.hi

/-- The claims, oldest first, and a bound on all of them. -/
structure Bump (α : Type) [LE α] where
  claims : List (Claim α)
  bound : α
  le_bound : ∀ c ∈ claims, c.hi ≤ bound

section LinearOrder

variable [LinearOrder α]

/-- Nothing is claimed yet. -/
def Bump.start (bound : α) : Bump α :=
  { claims := []
    bound := bound
    le_bound := fun _ hc => nomatch hc }

/-- One more claim, with the bound moved to `bound`. -/
def Bump.add (s : Bump α) (c : Claim α) (bound : α) (hmono : s.bound ≤ bound)
    (hc : c.hi ≤ bound) : Bump α where
  claims := s.claims ++ [c]
  bound := bound
  le_bound := by
    intro d hd
    rw [List.mem_append, List.mem_singleton] at hd
    rcases hd with hd | hd
    · exact le_trans (s.le_bound d hd) hmono
    · rw [hd]
      exact hc

/-- A request that claims something, or one that does not. -/
inductive BumpStep : Bump α → Option (Claim α) → Bump α → Prop
  | idle (s : Bump α) : BumpStep s none s
  | claim (s : Bump α) (c : Claim α) (bound : α) (hmono : s.bound ≤ bound) (hc : c.hi ≤ bound)
      (hfresh : c.fresh = true → s.bound ≤ c.lo) : BumpStep s (some c) (s.add c bound hmono hc)

variable {s t u : Bump α} {c : Claim α} {labels : List (Option (Claim α))}

/-- A fresh claim is disjoint from those that are there. -/
theorem BumpStep.disjoint (h : BumpStep s (some c) t) (hfresh : c.fresh = true) :
    ∀ d ∈ s.claims, Disjoint c.range d.range := by
  intro d hd
  cases h with
  | claim _ bound hmono hc hlo =>
      have hend : d.hi ≤ c.lo := le_trans (s.le_bound d hd) (hlo hfresh)
      rw [Claim.range, Claim.range, Set.Ico_disjoint_Ico]
      exact le_trans (min_le_right _ _) (le_trans hend (le_max_left _ _))

/-- A run keeps every claim it makes. -/
theorem claims_of_run (h : Run BumpStep s labels t) : ∀ d, some d ∈ labels → d ∈ t.claims := by
  induction h with
  | nil => exact fun d hd => nomatch hd
  | snoc hrun hstep ih =>
      intro d hd
      rw [List.mem_append, List.mem_singleton] at hd
      cases hstep with
      | idle =>
          rcases hd with hd | hd
          · exact ih d hd
          · cases hd
      | claim c bound hmono hc hlo =>
          rcases hd with hd | hd
          · exact List.mem_append_left _ (ih d hd)
          · cases hd
            exact List.mem_append_right _ (List.mem_singleton_self d)

/-- In every run, a fresh claim is disjoint from all claims made before it. -/
theorem disjoint_of_run (hrun : Run BumpStep s labels t) (h : BumpStep t (some c) u)
    (hfresh : c.fresh = true) : ∀ d, some d ∈ labels → Disjoint c.range d.range := by
  intro d hd
  exact h.disjoint hfresh d (claims_of_run hrun d hd)

end LinearOrder

end Alloc
end CRiscV
