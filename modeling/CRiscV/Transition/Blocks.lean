/-
A system whose steps are each a row of steps of another.

The coarse system's steps are followed by the fine one, row by row; and where the coarse
system gets to some state whatever comes in from outside, so does the fine one.
-/
import Mathlib.Data.List.Forall2
import Mathlib.Data.List.Induction
import CRiscV.Transition.Run

namespace CRiscV
namespace Transition

variable {S T E M L : Type}

section Rows

variable {step : S → L → S → Prop} {s t u : S} {ls ks : List L}

theorem Run.append (h : Run step s ls t) (h' : Run step t ks u) : Run step s (ls ++ ks) u := by
  induction h' with
  | nil => rwa [List.append_nil]
  | snoc _ hstep ih =>
      rw [← List.append_assoc]
      exact ih.snoc hstep

/-- A run in two parts. -/
theorem Run.append_inv (h : Run step s (ls ++ ks) u) : ∃ t, Run step s ls t ∧ Run step t ks u := by
  induction ks using List.reverseRecOn generalizing u with
  | nil => exact ⟨u, by rwa [List.append_nil] at h, .nil⟩
  | append_singleton ks k ih =>
      rw [← List.append_assoc] at h
      obtain ⟨v, hfirst, hlast⟩ := h.snoc_inv
      obtain ⟨t, hbefore, hbehind⟩ := ih hfirst
      exact ⟨t, hbefore, hbehind.snoc hlast⟩

theorem exists_of_forall₂_snoc {Row : M → L → Prop} {ms : List M} {m : M}
    (h : List.Forall₂ Row (ms ++ [m]) ls) :
    ∃ before l, ls = before ++ [l] ∧ List.Forall₂ Row ms before ∧ Row m l := by
  have hreverse := List.forall₂_reverse_iff.mpr h
  rw [List.reverse_append] at hreverse
  generalize hls : ls.reverse = rs at hreverse
  cases hreverse with
  | @cons _ l _ rest hlast hrest =>
      refine ⟨rest.reverse, l, ?_, List.forall₂_reverse_iff.mp (by simpa using hrest), hlast⟩
      rw [← List.reverse_reverse ls, hls, List.reverse_cons]

/-- A relation under which each step of a system is followed by the rows of steps that its
label allows. -/
theorem Run.rows {big : T → M → T → Prop} {Row : M → List L → Prop} {R : T → S → Prop}
    (hsim : ∀ a b m a' row, R a b → big a m a' → Row m row →
      ∃ b', Run step b row b' ∧ R a' b')
    {v w : T} {ms : List M} {rows : List (List L)} (h : Run big v ms w)
    (hrows : List.Forall₂ Row ms rows) (h0 : R v s) :
    ∃ t, Run step s rows.flatten t ∧ R w t := by
  induction h generalizing rows with
  | nil =>
      cases hrows
      exact ⟨s, .nil, h0⟩
  | @snoc ms a b m _ hstep ih =>
      obtain ⟨before, row, rfl, hfirst, hlast⟩ := exists_of_forall₂_snoc hrows
      obtain ⟨t, hrun, hR⟩ := ih hfirst
      obtain ⟨t', hrow, hR'⟩ := hsim _ _ _ _ _ hR hstep hlast
      refine ⟨t', ?_, hR'⟩
      rw [List.flatten_append, List.flatten_singleton]
      exact hrun.append hrow

end Rows

/-! ## Getting somewhere -/

/-- From `s` the system gets to a state with `Q`, whatever comes in from outside: a step
takes what comes in, or nothing. -/
inductive Leads (step : S → Option E → S → Prop) (Q : S → Prop) : S → Prop
  | here {s : S} : Q s → Leads step Q s
  | next {s : S} (l : E → Option E) (t : E → S) (hl : ∀ e, l e = none ∨ l e = some e)
      (hstep : ∀ e, step s (l e) (t e)) (hnext : ∀ e, Leads step Q (t e)) : Leads step Q s

section Leads

variable {step : S → Option E → S → Prop} {P Q R : S → Prop} {s t : S}

theorem Leads.silent (hstep : step s none t) (h : Leads step Q t) : Leads step Q s :=
  .next (fun _ => none) (fun _ => t) (fun _ => Or.inl rfl) (fun _ => hstep) fun _ => h

theorem Leads.trans (h : Leads step P s) (h' : ∀ t, P t → Leads step Q t) : Leads step Q s := by
  induction h with
  | here hP => exact h' _ hP
  | next l t hl hstep _ ih => exact .next l t hl hstep ih

theorem Leads.mono (h : Leads step P s) (h' : ∀ t, P t → Q t) : Leads step Q s :=
  h.trans fun t hP => .here (h' t hP)

/-- A loop: each turn ends it or keeps the invariant with a smaller measure. -/
theorem Leads.loop (measure : S → Nat)
    (hturn : ∀ s, P s → Leads step (fun t => Q t ∨ P t ∧ measure t < measure s) s) (h : P s) :
    Leads step Q s := by
  induction hn : measure s using Nat.strongRecOn generalizing s with
  | ind n ih =>
      refine (hturn s h).trans fun t ht => ?_
      cases ht with
      | inl hQ => exact .here hQ
      | inr hP => exact ih (measure t) (hn ▸ hP.2) hP.1 rfl

/-- What comes in at the first `n` moments. -/
def inputs (stream : Nat → L) (n : Nat) : List L := (List.range n).map stream

theorem inputs_add (stream : Nat → L) (n k : Nat) :
    inputs stream (n + k) = inputs stream n ++ inputs (fun i => stream (n + i)) k := by
  unfold inputs
  rw [List.range_add, List.map_append, List.map_map]
  rfl

/-- A finer system gets there too, on every stream of inputs, if it follows each step for
some of the stream. -/
theorem Leads.follow {fine : T → L → T → Prop} {R : S → T → Prop} {v : T}
    (hsim : ∀ {s v}, R s v → ∀ stream : Nat → L, ∃ e : E, ∀ l s',
      l = none ∨ l = some e → step s l s' →
        ∃ n w, Run fine v (inputs stream n) w ∧ R s' w)
    (h : Leads step Q s) (h0 : R s v) (stream : Nat → L) :
    ∃ n w t, Run fine v (inputs stream n) w ∧ R t w ∧ Q t := by
  induction h generalizing v stream with
  | @here s hQ => exact ⟨0, v, s, .nil, h0, hQ⟩
  | next l t hl hstep _ ih =>
      obtain ⟨e, hfollow⟩ := hsim h0 stream
      obtain ⟨n, w, hrun, hR⟩ := hfollow (l e) (t e) (hl e) (hstep e)
      obtain ⟨k, w', t', hrun', hR', hQ⟩ := ih e hR fun i => stream (n + i)
      refine ⟨n + k, w', t', ?_, hR', hQ⟩
      rw [inputs_add]
      exact hrun.append hrun'

end Leads

end Transition
end CRiscV
