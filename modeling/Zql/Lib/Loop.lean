/-
Loops as programs have them: a body that goes round again or leaves with a
result, for as long as it takes. `loop` cuts the loop off after a number
of passes; `Returns` says that some number of passes is enough, and then
every larger one is, with the same result.

`Passes` chains passes together, so that what a loop does is told a few
passes at a time (`Passes.returns_iff`); a loop that cannot leave a set of
states returns nothing from any of them (`not_returns`). Two loops are
compared a pass at a time (`loop_rel`).
-/
import Mathlib.Logic.Basic

namespace Looping

/-- What one pass of the body does. -/
inductive Turn (σ ρ : Type*)
  | again (s : σ)
  | leave (r : ρ)

variable {σ ρ : Type*} {body : σ → Turn σ ρ}

/-- The loop, cut off after `fuel` passes. -/
def loop (body : σ → Turn σ ρ) : Nat → σ → Option ρ
  | 0, _ => none
  | fuel + 1, s =>
    match body s with
    | .again s' => loop body fuel s'
    | .leave r => some r

/-- The loop returns: enough passes give the result. -/
def Returns (body : σ → Turn σ ρ) (s : σ) (r : ρ) : Prop := ∃ fuel, loop body fuel s = some r

/-- Some passes, none of which leaves, lead from `s` to `s'`. -/
inductive Passes (body : σ → Turn σ ρ) : σ → σ → Prop
  | refl (s : σ) : Passes body s s
  | step {s s' s'' : σ} : body s = .again s' → Passes body s' s'' → Passes body s s''

theorem loop_again {s s' : σ} (h : body s = .again s') (fuel : Nat) : loop body (fuel + 1) s = loop body fuel s' := by
  simp only [loop, h]

theorem loop_leave {s : σ} {r : ρ} (h : body s = .leave r) (fuel : Nat) : loop body (fuel + 1) s = some r := by
  simp only [loop, h]

theorem returns_leave {s : σ} {r : ρ} (h : body s = .leave r) : Returns body s r := ⟨1, loop_leave h 0⟩

theorem returns_leave_iff {s : σ} {r r' : ρ} (h : body s = .leave r) : Returns body s r' ↔ r' = r := by
  constructor
  · intro ⟨fuel, hf⟩
    cases fuel with
    | zero => cases hf
    | succ fuel =>
      rw [loop_leave h] at hf
      exact (Option.some.inj hf).symm
  · intro hr
    rw [hr]
    exact returns_leave h

theorem returns_again {s s' : σ} (h : body s = .again s') (r : ρ) : Returns body s r ↔ Returns body s' r := by
  constructor
  · intro ⟨fuel, hf⟩
    cases fuel with
    | zero => cases hf
    | succ fuel => exact ⟨fuel, by rw [← loop_again h]; exact hf⟩
  · intro ⟨fuel, hf⟩
    exact ⟨fuel + 1, by rw [loop_again h]; exact hf⟩

theorem Passes.trans {s s' s'' : σ} (h₁ : Passes body s s') (h₂ : Passes body s' s'') : Passes body s s'' := by
  induction h₁ with
  | refl _ => exact h₂
  | step h _ ih => exact .step h (ih h₂)

/-- **Passes do not change what a loop returns.** -/
theorem Passes.returns_iff {s s' : σ} (h : Passes body s s') (r : ρ) : Returns body s r ↔ Returns body s' r := by
  induction h with
  | refl _ => exact Iff.rfl
  | step h _ ih => exact (returns_again h r).trans ih

theorem loop_mono {s : σ} {r : ρ} {fuel fuel' : Nat} (hle : fuel ≤ fuel') (h : loop body fuel s = some r) :
    loop body fuel' s = some r := by
  induction fuel generalizing s fuel' with
  | zero => cases h
  | succ fuel ih =>
    obtain ⟨fuel', rfl⟩ : ∃ m, fuel' = m + 1 := ⟨fuel' - 1, by omega⟩
    cases hb : body s with
    | again s' =>
      rw [loop_again hb] at h ⊢
      exact ih (by omega) h
    | leave r' =>
      rw [loop_leave hb] at h ⊢
      exact h

theorem Returns.unique {s : σ} {r r' : ρ} (h : Returns body s r) (h' : Returns body s r') : r = r' := by
  obtain ⟨fuel, hf⟩ := h
  obtain ⟨fuel', hf'⟩ := h'
  have hlong := loop_mono (Nat.le_add_right fuel fuel') hf
  rw [loop_mono (Nat.le_add_left fuel' fuel) hf'] at hlong
  cases hlong
  rfl

/-- Two passes that do alike: both go round again, to related states, or both
leave, with related results. -/
inductive Turn.Rel {σ' ρ' : Type*} (R : σ → σ' → Prop) (Q : ρ → ρ' → Prop) : Turn σ ρ → Turn σ' ρ' → Prop
  | again {s : σ} {s' : σ'} : R s s' → Rel R Q (.again s) (.again s')
  | leave {r : ρ} {r' : ρ'} : Q r r' → Rel R Q (.leave r) (.leave r')

/-- **The two-run rule**: loops whose passes do alike from related states
return alike, and for as many passes. -/
theorem loop_rel {σ' ρ' : Type*} {body' : σ' → Turn σ' ρ'} {R : σ → σ' → Prop} {Q : ρ → ρ' → Prop}
    (hbody : ∀ s s', R s s' → Turn.Rel R Q (body s) (body' s')) {s : σ} {s' : σ'} (h : R s s') (fuel : Nat) :
    Option.Rel Q (loop body fuel s) (loop body' fuel s') := by
  induction fuel generalizing s s' with
  | zero => exact .none
  | succ fuel ih =>
    have hpass := hbody s s' h
    generalize hb : body s = turn at hpass
    generalize hb' : body' s' = turn' at hpass
    cases hpass with
    | again hR =>
      rw [loop_again hb, loop_again hb']
      exact ih hR
    | leave hQ =>
      rw [loop_leave hb, loop_leave hb']
      exact .some hQ

/-- **The divergence rule**: states every pass stays within. -/
theorem not_returns {I : σ → Prop} (hI : ∀ s, I s → ∃ s', body s = .again s' ∧ I s') {s : σ} (hs : I s) (r : ρ) :
    ¬ Returns body s r := by
  intro ⟨fuel, hf⟩
  induction fuel generalizing s with
  | zero => cases hf
  | succ fuel ih =>
    obtain ⟨s', hb, hs'⟩ := hI s hs
    rw [loop_again hb] at hf
    exact ih hs' hf

end Looping
