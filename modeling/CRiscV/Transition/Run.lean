/-
Finite runs of a labelled transition relation, and the ways in which facts about one
step become facts about a run: an invariant of the states, a simulation, and the exact
condition on the steps under which a property is kept.
-/
import CRiscV.Transition.Result

namespace CRiscV
namespace Transition

variable {S T L : Type}

/-- The labels of a run from its first state, oldest first, and the state it
ends in. -/
inductive Run (step : S → L → S → Prop) (s : S) : List L → S → Prop
  | nil : Run step s [] s
  | snoc {ls : List L} {t u : S} {l : L} :
      Run step s ls t → step t l u → Run step s (ls ++ [l]) u

variable {step : S → L → S → Prop} {s t : S} {ls : List L} {l : L}

theorem Run.single (h : step s l t) : Run step s [l] t := Run.nil.snoc h

/-- A run that reads its labels through a function. -/
theorem Run.mapLabels {M : Type} {step : S → M → S → Prop} {f : L → M}
    (h : Run (fun a l b => step a (f l) b) s ls t) : Run step s (ls.map f) t := by
  induction h with
  | nil => exact .nil
  | snoc _ hstep ih =>
      rw [List.map_append, List.map_singleton]
      exact ih.snoc hstep

/-- What holds at the start and is kept by a step holds wherever a run ends. -/
theorem Run.invariant {I : S → Prop} (h0 : I s)
    (hstep : ∀ {a l b}, I a → step a l b → I b) (h : Run step s ls t) : I t := by
  induction h with
  | nil => exact h0
  | snoc _ hs ih => exact hstep ih hs

/-- A relation that every step can follow, label by label, is followed by every
run. -/
theorem Run.simulation {step' : T → L → T → Prop} {R : S → T → Prop}
    (hsim : ∀ {a b l a'}, R a b → step a l a' → ∃ b', step' b l b' ∧ R a' b')
    {v : T} (h0 : R s v) (h : Run step s ls t) : ∃ w, Run step' v ls w ∧ R t w := by
  induction h with
  | nil => exact ⟨v, .nil, h0⟩
  | snoc _ hs ih =>
      obtain ⟨w, hw, hR⟩ := ih
      obtain ⟨w', hw', hR'⟩ := hsim hR hs
      exact ⟨w', hw.snoc hw', hR'⟩

theorem Run.nil_inv (h : Run step s [] t) : t = s := by
  generalize hls : ([] : List L) = ls at h
  cases h with
  | nil => rfl
  | snoc => simp at hls

/-- The last step of a run. -/
theorem Run.snoc_inv (h : Run step s (ls ++ [l]) t) : ∃ u, Run step s ls u ∧ step u l t := by
  generalize hls : ls ++ [l] = ls' at h
  cases h with
  | nil => simp at hls
  | snoc hrun hstep =>
      obtain ⟨rfl, heq⟩ := List.append_inj' hls rfl
      cases heq
      exact ⟨_, hrun, hstep⟩

/-- A run of some steps is one of all steps that include them. -/
theorem Run.mono {step' : S → L → S → Prop} (hsub : ∀ {a l b}, step a l b → step' a l b)
    (h : Run step s ls t) : Run step' s ls t := by
  induction h with
  | nil => exact .nil
  | snoc _ hstep ih => exact ih.snoc (hsub hstep)

theorem Run.deterministic (hdet : ∀ a l b b', step a l b → step a l b' → b = b') {u : S}
    (h : Run step s ls t) (h' : Run step s ls u) : t = u := by
  induction h generalizing u with
  | nil =>
      cases Run.nil_inv h'
      rfl
  | snoc _ hstep ih =>
      obtain ⟨v, hrun, hstep'⟩ := Run.snoc_inv h'
      cases ih hrun
      exact hdet _ _ _ _ hstep hstep'

/-- What is seen at the end of a run was there at its start, or was set by a step behind which
it has not changed. -/
theorem Run.last_change {X : Type} {f : S → X} {I : S → Prop} {P : S → L → S → Prop} (h0 : I s)
    (hI : ∀ {a l b}, I a → step a l b → I b)
    (hstep : ∀ {a l b}, I a → step a l b → f b = f a ∨ P a l b) (h : Run step s ls t) :
    f t = f s ∨ ∃ before l behind a b, ls = before ++ l :: behind ∧ Run step s before a ∧
      step a l b ∧ P a l b ∧ Run step b behind t ∧ f t = f b := by
  induction h with
  | nil => exact Or.inl rfl
  | @snoc ls t u l hrun hlast ih =>
      rcases hstep (hrun.invariant h0 hI) hlast with hkept | hset
      · rcases ih with hfirst | ⟨before, k, behind, a, b, rfl, hbefore, hab, hP, hbehind, heq⟩
        · exact Or.inl (hkept.trans hfirst)
        · refine Or.inr ⟨before, k, behind ++ [l], a, b, ?_, hbefore, hab, hP,
            hbehind.snoc hlast, hkept.trans heq⟩
          rw [List.append_assoc, List.cons_append]
      · exact Or.inr ⟨ls, l, [], t, u, rfl, hrun, hlast, hset, .nil, rfl⟩

/-- Where every step adds what it has to say to a log, a run adds what its steps say, each of
them once and in their order. -/
theorem Run.logged {A : Type} {f : S → List A} {I : S → Prop} {P : S → L → S → List A → Prop}
    (h0 : I s) (hI : ∀ {a l b}, I a → step a l b → I b)
    (hstep : ∀ {a l b}, I a → step a l b → ∃ said, P a l b said ∧ f b = f a ++ said)
    (h : Run step s ls t) :
    ∃ log : List (L × List A), log.map Prod.fst = ls ∧
      Run (fun a x b => step a x.1 b ∧ P a x.1 b x.2) s log t ∧
        f t = f s ++ log.flatMap Prod.snd := by
  induction h with
  | nil => exact ⟨[], rfl, .nil, (List.append_nil _).symm⟩
  | @snoc ls t u l hrun hlast ih =>
      obtain ⟨log, hlabels, hlog, hbefore⟩ := ih
      obtain ⟨said, hsaid, hadded⟩ := hstep (hrun.invariant h0 hI) hlast
      refine ⟨log ++ [(l, said)], ?_, hlog.snoc ⟨hlast, hsaid⟩, ?_⟩
      · rw [List.map_append, hlabels, List.map_singleton]
      · rw [hadded, hbefore, List.flatMap_append, List.flatMap_singleton, List.append_assoc]

/-! ## The steps that keep a property -/

/-- `I` holds at the start and behind every step of the runs of `ls`. -/
def Throughout (step : S → L → S → Prop) (s : S) (I : List L → S → Prop) (ls : List L) : Prop :=
  ∀ pre t, pre <+: ls → Run step s pre t → I pre t

/-- A step that meets a condition on its label and the state before it. -/
def Meeting (step : S → L → S → Prop) (P : S → L → Prop) (s : S) (l : L) (t : S) : Prop :=
  step s l t ∧ P s l

/-- If a step behind which `I` still holds is one that meets the condition, `I` holds
throughout a run exactly when all its steps meet it. -/
theorem Run.throughout_iff {I : List L → S → Prop} {P : S → L → Prop}
    (hdet : ∀ a l b b', step a l b → step a l b' → b = b') (h0 : I [] s)
    (hstep : ∀ {ls t l u}, Run step s ls t → I ls t → step t l u → (I (ls ++ [l]) u ↔ P t l))
    (h : Run step s ls t) : Throughout step s I ls ↔ Run (Meeting step P) s ls t := by
  induction h with
  | nil =>
      refine ⟨fun _ => .nil, fun _ => ?_⟩
      intro pre t hpre hrun
      cases List.prefix_nil.mp hpre
      cases Run.nil_inv hrun
      exact h0
  | @snoc ls t u l hrun hlast ih =>
      constructor
      · intro hall
        have hbefore : Throughout step s I ls := fun pre v hpre hv =>
          hall pre v (hpre.trans (List.prefix_append ls [l])) hv
        have hI := hall ls t (List.prefix_append ls [l]) hrun
        have hI' := hall (ls ++ [l]) u List.prefix_rfl (hrun.snoc hlast)
        exact (ih.mp hbefore).snoc ⟨hlast, (hstep hrun hI hlast).mp hI'⟩
      · intro hmeets pre v hpre hv
        obtain ⟨t', hbefore, hlast', hcond⟩ := Run.snoc_inv hmeets
        have hplain : Run step s ls t' := hbefore.mono fun hab => hab.1
        have ht : t' = t := Run.deterministic hdet hplain hrun
        rw [ht] at hbefore hcond
        have hthrough := ih.mpr hbefore
        rcases List.prefix_concat_iff.mp hpre with heq | hpre
        · rw [heq] at hv ⊢
          have hu : v = u := Run.deterministic hdet hv (hrun.snoc hlast)
          rw [hu]
          exact (hstep hrun (hthrough ls t List.prefix_rfl hrun) hlast).mpr hcond
        · exact hthrough pre v hpre hv

/-! ## What can be seen of a run -/

variable {O : Type}

/-- A step together with what can be seen after it. -/
def Observed (step : S → L → S → Prop) (obs : S → O) (s : S) (l : L × O) (t : S) : Prop :=
  step s l.1 t ∧ obs t = l.2

/-- A relation that every step can follow, and under which the same is seen, makes
every run look like one of the other system. -/
theorem Run.observed_simulation {step' : T → L → T → Prop} {R : S → T → Prop} {obs : S → O}
    {obs' : T → O}
    (hsim : ∀ {a b l a'}, R a b → step a l a' → ∃ b', step' b l b' ∧ R a' b')
    (hobs : ∀ {a b}, R a b → obs' b = obs a) {v : T} (h0 : R s v) {ls : List (L × O)}
    (h : Run (Observed step obs) s ls t) :
    ∃ w, Run (Observed step' obs') v ls w ∧ R t w := by
  refine h.simulation ?_ h0
  intro a b l a' hab hstep
  obtain ⟨hstep, hseen⟩ := hstep
  obtain ⟨b', hstep', hab'⟩ := hsim hab hstep
  exact ⟨b', ⟨hstep', (hobs hab').trans hseen⟩, hab'⟩

end Transition
end CRiscV
