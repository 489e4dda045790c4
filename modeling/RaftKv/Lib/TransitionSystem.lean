-- SUMMARY: Transition systems with a side condition on steps: reachability, invariants, forward simulation.
import Mathlib.Logic.Relation

/-!
# Transition systems

A system is an initial state and a labelled step relation. Reachability is taken
relative to a condition on steps, so that "every run" and "every run whose steps all
meet a condition" are the same notion at two conditions.
-/

universe u v w x

structure TransitionSystem (σ : Type u) (α : Type v) where
  init : σ
  step : σ → α → σ → Prop

namespace TransitionSystem

variable {σ : Type u} {α : Type v} {τ : Type w} {β : Type x}

/-- One step whose label meets the condition at the state it starts from. -/
def Next (S : TransitionSystem σ α) (ok : σ → α → Prop) (s s' : σ) : Prop :=
  ∃ a, ok s a ∧ S.step s a s'

/-- Any number of such steps. -/
def Steps (S : TransitionSystem σ α) (ok : σ → α → Prop) : σ → σ → Prop :=
  Relation.ReflTransGen (S.Next ok)

def Reach (S : TransitionSystem σ α) (ok : σ → α → Prop) (s : σ) : Prop :=
  S.Steps ok S.init s

variable {S : TransitionSystem σ α} {ok ok' : σ → α → Prop}

theorem Steps.refl (s : σ) : S.Steps ok s s := Relation.ReflTransGen.refl

theorem Steps.single {s s' : σ} {a : α} (hok : ok s a) (hstep : S.step s a s') :
    S.Steps ok s s' :=
  Relation.ReflTransGen.single ⟨a, hok, hstep⟩

theorem Steps.trans {s s' s'' : σ} (h : S.Steps ok s s') (h' : S.Steps ok s' s'') :
    S.Steps ok s s'' :=
  Relation.ReflTransGen.trans h h'

theorem Steps.mono (hok : ∀ s a, ok s a → ok' s a) {s s' : σ} (h : S.Steps ok s s') :
    S.Steps ok' s s' := by
  induction h with
  | refl => exact Steps.refl _
  | tail _ hnext ih =>
    obtain ⟨a, ha, hst⟩ := hnext
    exact ih.trans (Steps.single (hok _ _ ha) hst)

theorem Reach.init : S.Reach ok S.init := Steps.refl _

theorem Reach.trans {s s' : σ} (h : S.Reach ok s) (h' : S.Steps ok s s') : S.Reach ok s' :=
  Steps.trans h h'

theorem Reach.step {s s' : σ} {a : α} (h : S.Reach ok s) (hok : ok s a)
    (hstep : S.step s a s') : S.Reach ok s' :=
  h.trans (Steps.single hok hstep)

theorem Reach.mono (hok : ∀ s a, ok s a → ok' s a) {s : σ} (h : S.Reach ok s) :
    S.Reach ok' s :=
  Steps.mono hok h

/-- What one step preserves, a run preserves, from any state of the run on. -/
theorem Steps.preserves {I : σ → Prop} {s s' : σ} (h : S.Steps ok s s')
    (hstep : ∀ t a t', S.Steps ok s t → I t → ok t a → S.step t a t' → I t')
    (hs : I s) : I s' := by
  induction h with
  | refl => exact hs
  | tail hsteps hnext ih =>
    obtain ⟨a, hok, hst⟩ := hnext
    exact hstep _ a _ hsteps ih hok hst

/-- The induction rule for invariants. -/
theorem Reach.invariant {I : σ → Prop} (hinit : I S.init)
    (hstep : ∀ s a s', S.Reach ok s → I s → ok s a → S.step s a s' → I s')
    {s : σ} (h : S.Reach ok s) : I s :=
  Steps.preserves h hstep hinit

/-- Forward simulation: a relation that holds initially, and that every step of `S`
can be matched under by some steps of `T`, relates every reachable state of `S` to a
reachable state of `T`. -/
theorem Reach.simulate (T : TransitionSystem τ β) (okT : τ → β → Prop) {R : σ → τ → Prop}
    (hinit : R S.init T.init)
    (hstep : ∀ s a s' t, S.Reach ok s → T.Reach okT t → R s t → ok s a → S.step s a s' →
      ∃ t', T.Steps okT t t' ∧ R s' t')
    {s : σ} (h : S.Reach ok s) : ∃ t, T.Reach okT t ∧ R s t := by
  refine Reach.invariant (I := fun s => ∃ t, T.Reach okT t ∧ R s t)
    ⟨T.init, Reach.init, hinit⟩ ?_ h
  rintro s a s' hs ⟨t, ht, hR⟩ hok hst
  obtain ⟨t', hsteps, hR'⟩ := hstep s a s' t hs ht hR hok hst
  exact ⟨t', ht.trans hsteps, hR'⟩

/-- The same from a related pair of reachable states on. -/
theorem Steps.simulate (T : TransitionSystem τ β) (okT : τ → β → Prop) {R : σ → τ → Prop}
    (hstep : ∀ s a s' t, T.Reach okT t → R s t → ok s a → S.step s a s' →
      ∃ t', T.Steps okT t t' ∧ R s' t')
    {s s' : σ} {t : τ} (ht : T.Reach okT t) (hR : R s t) (h : S.Steps ok s s') :
    ∃ t', T.Steps okT t t' ∧ R s' t' := by
  refine Steps.preserves (I := fun u => ∃ t', T.Steps okT t t' ∧ R u t') h ?_ ⟨t, Steps.refl t, hR⟩
  rintro u a u' - ⟨t', hsteps, hu⟩ hok hst
  obtain ⟨t'', hsteps', hu'⟩ := hstep u a u' t' (ht.trans hsteps) hu hok hst
  exact ⟨t'', hsteps.trans hsteps', hu'⟩

/-! ## Executing a run -/

section RunFrom

variable (step : σ → α → Option σ) (ok : σ → α → Prop) [∀ s, DecidablePred (ok s)]

/-- The state after the labels, if each is possible and meets the condition. -/
def runFrom (s : σ) : List α → Option σ
  | [] => some s
  | a :: as =>
    if ok s a then
      match step s a with
      | some s' => runFrom s' as
      | none => none
    else none

variable {step ok}

theorem steps_of_runFrom (hS : ∀ s a s', step s a = some s' → S.step s a s') {s s' : σ}
    {as : List α} (h : runFrom step ok s as = some s') : S.Steps ok s s' := by
  induction as generalizing s with
  | nil =>
    cases h
    exact Steps.refl _
  | cons a as ih =>
    simp only [runFrom] at h
    split at h
    · rename_i hok
      split at h
      · rename_i s₁ hstep
        exact (Steps.single hok (hS _ _ _ hstep)).trans (ih h)
      · cases h
    · cases h

end RunFrom

end TransitionSystem
