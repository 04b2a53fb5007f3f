/-
Runs of a labelled transition system, with the two rules every result
about a running system goes through: an invariant holds in every state a
run reaches (`Runs.invariant`), and a reflexive, transitive relation that
every step respects relates the ends of a run (`Runs.monotone`). A measure
that every step takes from bounds the length of a run (`Runs.measure`,
`Runs.measure_followed`), and a system whose every step another one follows is
followed run by run (`Runs.simulate`).

A step relation may be cut down to the steps that meet a condition
(`Guarded`); a run of the cut-down system is a run all of whose steps meet
it.
-/
import Mathlib.Order.Basic

namespace Transition

/-- What one action does: from a state, under a label, to a state. -/
abbrev Step (σ α : Type*) := σ → α → σ → Prop

variable {σ α : Type*} {step : Step σ α}

/-- Runs of `step`, the latest action at the end of the list. -/
inductive Runs (step : Step σ α) (s₀ : σ) : List α → σ → Prop
  | nil : Runs step s₀ [] s₀
  | snoc : Runs step s₀ as s → step s a s' → Runs step s₀ (as ++ [a]) s'

/-- The steps of `step` that meet `ok`, a condition on the state before and
the action. -/
def Guarded (step : Step σ α) (ok : σ → α → Prop) : Step σ α :=
  fun s a s' => ok s a ∧ step s a s'

/-- The step relation of a function that may refuse. -/
def ofPartial (f : σ → α → Option σ) : Step σ α := fun s a s' => f s a = some s'

/-- A machine and somebody who watches it and notes down a `γ`. -/
def observed {γ : Type*} (f : σ → α → Option σ) (observe : γ → σ → α → σ → γ) (s : σ × γ) (a : α) :
    Option (σ × γ) :=
  (f s.1 a).map fun s' => (s', observe s.2 s.1 a s')

theorem observed_some {γ : Type*} {f : σ → α → Option σ} {observe : γ → σ → α → σ → γ} {s s' : σ × γ} {a : α}
    (h : observed f observe s a = some s') : f s.1 a = some s'.1 ∧ s'.2 = observe s.2 s.1 a s'.1 := by
  obtain ⟨t, ht, rfl⟩ := Option.map_eq_some_iff.mp h
  exact ⟨ht, rfl⟩

theorem Runs.one {s s' : σ} {a : α} (h : step s a s') : Runs step s [a] s' := by
  simpa using Runs.nil.snoc h

theorem Runs.of_nil {s s' : σ} (h : Runs step s [] s') : s' = s := by
  generalize hl : ([] : List α) = l at h
  cases h with
  | nil => rfl
  | snoc _ _ => simp at hl

theorem Runs.of_one {s s' : σ} {a : α} (h : Runs step s [a] s') : step s a s' := by
  generalize hl : [a] = l at h
  cases h with
  | nil => cases hl
  | snoc hr hs =>
    have hsplit : [] ++ [a] = _ ++ [_] := hl
    obtain ⟨rfl, hb⟩ := List.append_inj' hsplit rfl
    cases hb
    rwa [hr.of_nil] at hs

theorem Runs.append {s₀ s s' : σ} {as bs : List α} (h₁ : Runs step s₀ as s) (h₂ : Runs step s bs s') :
    Runs step s₀ (as ++ bs) s' := by
  induction h₂ with
  | nil => simpa using h₁
  | snoc _ hs ih => rw [← List.append_assoc]; exact ih.snoc hs

theorem Runs.cons {s₀ s s' : σ} {a : α} {as : List α} (h : step s₀ a s) (hr : Runs step s as s') :
    Runs step s₀ (a :: as) s' :=
  (Runs.one h).append hr

theorem Runs.mono {step' : Step σ α} (hstep : ∀ s a s', step s a s' → step' s a s') {s₀ s : σ} {as : List α}
    (h : Runs step s₀ as s) : Runs step' s₀ as s := by
  induction h with
  | nil => exact .nil
  | snoc _ hs ih => exact ih.snoc (hstep _ _ _ hs)

/-- **The invariant rule.** -/
theorem Runs.invariant {I : σ → Prop} (hstep : ∀ s a s', I s → step s a s' → I s') {s₀ s : σ} {as : List α}
    (h : Runs step s₀ as s) (h₀ : I s₀) : I s := by
  induction h with
  | nil => exact h₀
  | snoc _ hs ih => exact hstep _ _ _ ih hs

/-- **The monotonicity rule**, for a relation steps respect in the states an
invariant holds of. -/
theorem Runs.monotone {I : σ → Prop} {R : σ → σ → Prop} (hI : ∀ s a s', I s → step s a s' → I s')
    (hrefl : ∀ s, R s s) (htrans : ∀ s s' s'', R s s' → R s' s'' → R s s'')
    (hstep : ∀ s a s', I s → step s a s' → R s s') {s₀ s : σ} {as : List α}
    (h : Runs step s₀ as s) (h₀ : I s₀) : R s₀ s := by
  induction h with
  | nil => exact hrefl _
  | snoc hr hs ih => exact htrans _ _ _ ih (hstep _ _ _ (hr.invariant hI h₀) hs)

/-- **The measure rule**: a run takes its length from what every step takes
from. -/
theorem Runs.measure {I : σ → Prop} {m : σ → Nat} (hI : ∀ s a s', I s → step s a s' → I s')
    (hstep : ∀ s a s', I s → step s a s' → m s' < m s) {s₀ s : σ} {as : List α} (h : Runs step s₀ as s)
    (h₀ : I s₀) : as.length + m s ≤ m s₀ := by
  induction h with
  | nil => simp
  | snoc hr hs ih =>
    have := hstep _ _ _ (hr.invariant hI h₀) hs
    simp only [List.length_append, List.length_singleton]
    omega

/-- **The measure rule, for a system that is followed**: the measure may speak
of the state that follows. -/
theorem Runs.measure_followed {τ : Type*} {R : σ → τ → Prop} {m : σ → τ → Nat}
    (hstep : ∀ s a s' t, R s t → step s a s' → ∃ t', R s' t' ∧ m s' t' < m s t) {s₀ s : σ} {as : List α} {t₀ : τ}
    (h : Runs step s₀ as s) (h₀ : R s₀ t₀) : ∃ t, R s t ∧ as.length + m s t ≤ m s₀ t₀ := by
  induction h with
  | nil => exact ⟨t₀, h₀, by simp⟩
  | snoc _ hs ih =>
    obtain ⟨t, hR, hle⟩ := ih
    obtain ⟨t', hR', hlt⟩ := hstep _ _ _ t hR hs
    refine ⟨t', hR', ?_⟩
    simp only [List.length_append, List.length_singleton]
    omega

/-- **The simulation rule**: if each step from matching states is followed by
some run of the other system, to matching states, so is each run. -/
theorem Runs.simulate {τ β : Type*} {step' : Step τ β} {R : σ → τ → Prop}
    (hstep : ∀ s a s' t, R s t → step s a s' → ∃ bs t', Runs step' t bs t' ∧ R s' t') {s₀ s : σ} {as : List α}
    {t₀ : τ} (h : Runs step s₀ as s) (h₀ : R s₀ t₀) : ∃ bs t, Runs step' t₀ bs t ∧ R s t := by
  induction h with
  | nil => exact ⟨[], t₀, .nil, h₀⟩
  | snoc _ hs ih =>
    obtain ⟨bs, t, hrun, hR⟩ := ih
    obtain ⟨cs, t', hrun', hR'⟩ := hstep _ _ _ t hR hs
    exact ⟨bs ++ cs, t', hrun.append hrun', hR'⟩

end Transition
