/-
Patches of a map from addresses to cells: each rewrites the cells of its range, and a list
of them is laid on in order.  Patches of disjoint ranges may be laid on in any order.
-/
import Mathlib.Data.List.Pairwise
import Mathlib.Data.Set.Lattice
import Mathlib.Order.CompletePartialOrder

namespace CRiscV

/-- What a cell becomes, by its address.  Cells outside the range stay as they are. -/
structure Patch (α : Type) where
  range : Set Nat
  apply : Nat → α → α
  outside : ∀ a ∉ range, ∀ c, apply a c = c

namespace Patch

variable {α : Type} {p q : Patch α} {ps qs : List (Patch α)} {a : Nat} {c : α}

/-- The patches of a list, the first laid on first. -/
def fold (ps : List (Patch α)) (a : Nat) (c : α) : α := ps.foldl (fun c p => p.apply a c) c

/-- No two of the patches meet. -/
def Apart (ps : List (Patch α)) : Prop := ps.Pairwise fun p q => Disjoint p.range q.range

@[simp] theorem fold_cons : fold (p :: ps) a c = fold ps a (p.apply a c) := rfl

theorem fold_append : fold (ps ++ qs) a c = fold qs a (fold ps a c) := List.foldl_append

theorem fold_of_not_mem (h : ∀ p ∈ ps, a ∉ p.range) : fold ps a c = c := by
  induction ps generalizing c with
  | nil => rfl
  | cons p ps ih =>
      rw [fold_cons, p.outside a (h p List.mem_cons_self)]
      exact ih fun q hq => h q (List.mem_cons_of_mem p hq)

theorem Apart.disjoint (h : Apart ps) (hp : p ∈ ps) (hq : q ∈ ps) (hne : p ≠ q) :
    Disjoint p.range q.range := by
  have : Std.Symm fun p q : Patch α => Disjoint p.range q.range := ⟨fun _ _ hpq => hpq.symm⟩
  exact h.forall hp hq hne

/-- A cell is what the patch of its range makes of it. -/
theorem Apart.fold_eq (h : Apart ps) (hp : p ∈ ps) (ha : a ∈ p.range) :
    fold ps a c = p.apply a c := by
  induction ps generalizing c with
  | nil => cases hp
  | cons q ps ih =>
      obtain ⟨hfirst, hrest⟩ := List.pairwise_cons.mp h
      rw [fold_cons]
      cases List.mem_cons.mp hp with
      | inl heq =>
          subst heq
          exact fold_of_not_mem fun r hr => Set.disjoint_left.mp (hfirst r hr) ha
      | inr hmem =>
          rw [ih hrest hmem, q.outside a (Set.disjoint_right.mp (hfirst p hmem) ha)]

theorem apply_comm (h : Disjoint p.range q.range) :
    q.apply a (p.apply a c) = p.apply a (q.apply a c) := by
  by_cases ha : a ∈ p.range
  · have hout := Set.disjoint_left.mp h ha
    rw [q.outside a hout, q.outside a hout]
  · rw [p.outside a ha, p.outside a ha]

/-- The order makes no difference. -/
theorem Apart.fold_perm (h : Apart ps) (hperm : ps.Perm qs) : fold qs a c = fold ps a c := by
  refine (hperm.foldl_eq' ?_ c).symm
  intro p hp q hq z
  by_cases heq : p = q
  · rw [heq]
  · exact apply_comm (h.disjoint hp hq heq)

end Patch
end CRiscV
