/-
Ranges of a partial map from addresses to cells: what every cell of a range satisfies, what
a change leaves as it was, and a stack of equally wide records that grows downwards.
-/
import Mathlib.Data.List.Basic

namespace CRiscV
namespace Region

variable {α β : Type}

/-- The `n` cells from `a` on are there, and cell `i` of them satisfies `Q i`. -/
def Holds (m : Nat → Option α) (a n : Nat) (Q : Nat → α → Prop) : Prop :=
  ∀ i < n, ∃ c, m (a + i) = some c ∧ Q i c

/-- Outside `[lo, hi)` the map `m'` is `m`. -/
def Beside (m m' : Nat → Option α) (lo hi : Nat) : Prop :=
  ∀ a, a < lo ∨ hi ≤ a → m' a = m a

variable {m m' m'' : Nat → Option α} {a n lo hi : Nat} {Q R : Nat → α → Prop}

theorem Beside.refl (m : Nat → Option α) (lo hi : Nat) : Beside m m lo hi := fun _ _ => rfl

theorem Beside.mono {lo' hi' : Nat} (h : Beside m m' lo' hi') (hlo : lo ≤ lo') (hhi : hi' ≤ hi) :
    Beside m m' lo hi := fun a ha => h a (by omega)

theorem Beside.trans (h : Beside m m' lo hi) (h' : Beside m' m'' lo hi) :
    Beside m m'' lo hi := fun a ha => (h' a ha).trans (h a ha)

/-- A change beside a range keeps what holds of the range. -/
theorem Holds.beside (h : Holds m a n Q) (hbeside : Beside m m' lo hi)
    (hout : a + n ≤ lo ∨ hi ≤ a) : Holds m' a n Q := by
  intro i hi'
  obtain ⟨c, hc, hQ⟩ := h i hi'
  exact ⟨c, (hbeside (a + i) (by omega)).trans hc, hQ⟩

theorem Holds.imp (h : Holds m a n Q) (himp : ∀ i c, Q i c → R i c) : Holds m a n R := by
  intro i hi'
  obtain ⟨c, hc, hQ⟩ := h i hi'
  exact ⟨c, hc, himp i c hQ⟩

/-- A part of the range, if the cells are all held to the same. -/
theorem Holds.part {P : α → Prop} (h : Holds m a n fun _ => P) {b k : Nat} (hlo : a ≤ b)
    (hhi : b + k ≤ a + n) : Holds m b k fun _ => P := by
  intro i hi'
  obtain ⟨c, hc, hP⟩ := h (b - a + i) (by omega)
  refine ⟨c, ?_, hP⟩
  rw [← hc]
  congr 1
  omega

/-! ## Records -/

/-- The entries of the list as records of `w` cells, one behind the other. -/
def Laid (w : Nat) (q : β → Nat → α → Prop) (m : Nat → Option α) : Nat → List β → Prop
  | _, [] => True
  | a, x :: xs => Holds m a w (q x) ∧ Laid w q m (a + w) xs

variable {w : Nat} {q : β → Nat → α → Prop} {x : β} {xs : List β}

theorem Laid.beside (h : Laid w q m a xs) (hbeside : Beside m m' lo hi)
    (hout : a + w * xs.length ≤ lo ∨ hi ≤ a) : Laid w q m' a xs := by
  induction xs generalizing a with
  | nil => trivial
  | cons x xs ih =>
      obtain ⟨hrecord, hrest⟩ := h
      rw [List.length_cons, Nat.mul_succ] at hout
      exact ⟨hrecord.beside hbeside (by omega), ih hrest (by omega)⟩

/-! ## A stack that grows downwards -/

/-- The records of `xs`, the last pushed first, between the pointer `p` and `top`.  The cells
from `lo` up to the pointer are free, and the map is `start` outside `[lo, top)`. -/
structure Stack (w : Nat) (free : α → Prop) (q : β → Nat → α → Prop) (start m : Nat → Option α)
    (lo top p : Nat) (xs : List β) : Prop where
  room : lo ≤ p
  pointer : p + w * xs.length = top
  free : Holds m lo (p - lo) fun _ => free
  laid : Laid w q m p xs
  frame : Beside start m lo top

variable {free : α → Prop} {start : Nat → Option α} {top p : Nat}

theorem Stack.empty (hle : lo ≤ top) (hfree : Holds m lo (top - lo) fun _ => free) :
    Stack w free q m m lo top top ([] : List β) where
  room := hle
  pointer := rfl
  free := hfree
  laid := trivial
  frame := .refl m lo top

/-- One more record, in the cells below the pointer. -/
theorem Stack.push (h : Stack w free q start m lo top p xs) (hroom : lo + w ≤ p)
    (hbeside : Beside m m' (p - w) p) (hrecord : Holds m' (p - w) w (q x)) :
    Stack w free q start m' lo top (p - w) (x :: xs) where
  room := by omega
  pointer := by
    have hpointer := h.pointer
    rw [List.length_cons, Nat.mul_succ]
    omega
  free := (h.free.part (Nat.le_refl lo) (by omega)).beside hbeside (by omega)
  laid := by
    refine ⟨hrecord, ?_⟩
    rw [Nat.sub_add_cancel (by omega)]
    exact h.laid.beside hbeside (Or.inr (Nat.le_refl p))
  frame := by
    have hpointer := h.pointer
    exact h.frame.trans (hbeside.mono (by omega) (by omega))

end Region
end CRiscV
