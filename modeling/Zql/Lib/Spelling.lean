/-
What machines that pass over items make of the items they take.

A machine that waits for an item, goes on, and answers in the end spells a
language: the lists that take it to its answer with nothing passed over. One
item fed, it spells what may come after that item (`Spells.takes`), and there
is always something that may (`Spells.inhabited`).
-/
import Zql.Lib.Scan

namespace Scanning

variable {ε α σ κ μ : Type}

/-- An item that fits, and after it what may come after. -/
def Then (fits : ε → Option α) (after : α → List ε → Prop) : List ε → Prop
  | [] => False
  | e :: es =>
    match fits e with
    | none => False
    | some a => after a es

/-- Nothing more. -/
def Done (es : List ε) : Prop := es = []

theorem then_cons {fits : ε → Option α} {after : α → List ε → Prop} {e : ε} {a : α} (h : fits e = some a)
    (es : List ε) : Then fits after (e :: es) ↔ after a es := by
  simp [Then, h]

theorem then_skip {fits : ε → Option α} {after : α → List ε → Prop} {e : ε} (h : fits e = none) (es : List ε) :
    ¬ Then fits after (e :: es) := by
  simp [Then, h]

@[elab_as_elim]
theorem Then.elim {fits : ε → Option α} {after : α → List ε → Prop} {item : α → ε} {motive : List ε → Prop} {es : List ε}
    (h : Then fits after es) (hfits : ∀ e a, fits e = some a → e = item a)
    (step : ∀ a rest, after a rest → motive (item a :: rest)) : motive es := by
  cases es with
  | nil => cases h
  | cons e es =>
    simp only [Then] at h
    split at h
    · cases h
    · next a hf =>
      rw [hfits e a hf]
      exact step a es h

/-- The machine takes what it waits for, item by item, and answers the last
one. -/
inductive Spells (on : σ → ε → Option (σ × Option κ)) (keep : κ → Option μ) : σ → (List ε → Prop) → Prop
  | last {α : Type} {s : σ} {fits : ε → Option α} {go : α → σ} {out : α → μ}
      (waits : Waits on keep s fits go fun a => some (out a)) (fit : ∃ e a, fits e = some a) :
      Spells on keep s (Then fits fun _ => Done)
  | more {α : Type} {s : σ} {fits : ε → Option α} {go : α → σ} {after : α → List ε → Prop}
      (waits : Waits on keep s fits go fun _ => none) (fit : ∃ e a, fits e = some a)
      (spells : ∀ a, Spells on keep (go a) (after a)) : Spells on keep s (Then fits after)

variable {on : σ → ε → Option (σ × Option κ)} {keep : κ → Option μ} {s s' : σ} {spelt : List ε → Prop}

/-- **What one item does**: it is passed over and nothing is spelt with it, or
it is answered and all is spelt, or the rest is spelt from there. -/
theorem Spells.takes {e : ε} {call : Option κ} (h : Spells on keep s spelt) (hon : on s e = some (s', call)) :
    (s' = s ∧ call.bind keep = none ∧ ∀ es, ¬ spelt (e :: es)) ∨
    ((call.bind keep).isSome ∧ ∀ es, spelt (e :: es) ↔ es = []) ∨
    (call = none ∧ ∃ spelt', Spells on keep s' spelt' ∧ ∀ es, spelt (e :: es) ↔ spelt' es) := by
  cases h with
  | @last _ _ fits _ _ waits _ =>
    cases hf : fits e with
    | none =>
      obtain ⟨call, hcall, hkeep⟩ := waits.skips e hf
      rw [hon] at hcall
      cases hcall
      exact .inl ⟨rfl, hkeep, then_skip hf⟩
    | some a =>
      obtain ⟨call, hcall, hout⟩ := waits.answers hf rfl
      rw [hon] at hcall
      cases hcall
      exact .inr (.inl ⟨by simp [hout], then_cons hf⟩)
  | @more _ _ fits _ _ waits _ spells =>
    cases hf : fits e with
    | none =>
      obtain ⟨call, hcall, hkeep⟩ := waits.skips e hf
      rw [hon] at hcall
      cases hcall
      exact .inl ⟨rfl, hkeep, then_skip hf⟩
    | some a =>
      have hcall := waits.quiet hf rfl
      rw [hon] at hcall
      cases hcall
      exact .inr (.inr ⟨rfl, _, spells a, then_cons hf⟩)

theorem Spells.steps (h : Spells on keep s spelt) (e : ε) : ∃ s' call, on s e = some (s', call) := by
  cases h with
  | @last _ _ fits _ _ waits _ | @more _ _ fits _ _ waits _ _ =>
    cases hf : fits e with
    | none =>
      obtain ⟨call, hcall, -⟩ := waits.skips e hf
      exact ⟨_, _, hcall⟩
    | some a =>
      obtain ⟨call, hcall, -⟩ := waits.takes e a hf
      exact ⟨_, _, hcall⟩

theorem Spells.not_nil (h : Spells on keep s spelt) : ¬ spelt [] := by
  cases h <;> exact id

theorem Spells.inhabited (h : Spells on keep s spelt) : ∃ es, spelt es := by
  induction h with
  | last _ fit =>
    obtain ⟨e, a, hf⟩ := fit
    exact ⟨[e], (then_cons hf []).mpr rfl⟩
  | more _ fit _ ih =>
    obtain ⟨e, a, hf⟩ := fit
    obtain ⟨es, hes⟩ := ih a
    exact ⟨e :: es, (then_cons hf es).mpr hes⟩

end Scanning
