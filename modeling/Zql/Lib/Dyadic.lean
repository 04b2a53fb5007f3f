/-
Sides of a binary tree, positions as lists of sides from the root, and
the order in which an in-order walk meets positions (`Before`).

A position of at most `w` sides has a code of `w + 1` bits: its sides as
bits, a one, and zeros up to the full width (`code`). Codes compare as
numbers exactly as positions compare in order (`code_lt_iff`), whatever
the lengths of the positions.
-/
import Mathlib.Tactic.Ring
import Mathlib.Algebra.Order.Ring.Nat
import Mathlib.Data.Nat.Basic

namespace Dyadic

inductive Side
  | left
  | right
  deriving DecidableEq, Repr

abbrev Position := List Side

/-- An in-order walk meets the first position before the second. -/
def Before : Position → Position → Prop
  | [], [] => False
  | [], e :: _ => e = .right
  | d :: _, [] => d = .left
  | d :: ds, e :: es => if d = e then Before ds es else d = .left

@[simp] theorem before_nil_nil : Before [] [] = False := rfl
@[simp] theorem before_nil_cons {e es} : Before [] (e :: es) = (e = .right) := rfl
@[simp] theorem before_cons_nil {d ds} : Before (d :: ds) [] = (d = .left) := rfl
@[simp] theorem before_cons_same {d ds es} : Before (d :: ds) (d :: es) = Before ds es := by simp [Before]
@[simp] theorem before_left_right {ds es} : Before (.left :: ds) (.right :: es) = True := by simp [Before]
@[simp] theorem before_right_left {ds es} : Before (.right :: ds) (.left :: es) = False := by simp [Before]

theorem before_trichotomy : ∀ ds es : Position, ds = es ∨ Before ds es ∨ Before es ds
  | [], [] => .inl rfl
  | [], e :: _ => by cases e <;> simp
  | d :: _, [] => by cases d <;> simp
  | d :: ds, e :: es => by
    have ih := before_trichotomy ds es
    cases d <;> cases e <;> simp [ih]

/-- A side as a bit: right is one. -/
def Side.bit : Side → Nat
  | .left => 0
  | .right => 1

/-- The sides of a position read as a binary number, the first the highest. -/
def bits (ds : Position) : Nat := ds.foldl (fun n d => 2 * n + d.bit) 0

@[simp] theorem bits_nil : bits [] = 0 := rfl

theorem bits_snoc (ds : Position) (d : Side) : bits (ds ++ [d]) = 2 * bits ds + d.bit := by
  simp [bits]

theorem foldl_bits (ds : Position) (n : Nat) :
    ds.foldl (fun n d => 2 * n + d.bit) n = n * 2 ^ ds.length + bits ds := by
  induction ds generalizing n with
  | nil => simp
  | cons d ds ih =>
    rw [bits, List.foldl_cons, List.foldl_cons, ih, ih (2 * 0 + d.bit), List.length_cons]
    ring

theorem bits_cons (d : Side) (ds : Position) : bits (d :: ds) = d.bit * 2 ^ ds.length + bits ds := by
  rw [bits, List.foldl_cons, foldl_bits]
  simp

theorem bits_lt (ds : Position) : bits ds < 2 ^ ds.length := by
  induction ds with
  | nil => simp
  | cons d ds ih =>
    rw [bits_cons, List.length_cons, pow_succ]
    cases d <;> simp only [Side.bit] <;> omega

/-- The code of a position among positions of at most `w` sides. -/
def code (w : Nat) (ds : Position) : Nat := (2 * bits ds + 1) * 2 ^ (w - ds.length)

@[simp] theorem code_nil (w : Nat) : code w [] = 2 ^ w := by simp [code]

/-- The first side decides the half of the code space. -/
theorem code_cons {w : Nat} {d : Side} {ds : Position} (h : ds.length ≤ w) :
    code (w + 1) (d :: ds) = d.bit * 2 ^ (w + 1) + code w ds := by
  have hw : 2 ^ (w + 1) = 2 * (2 ^ ds.length * 2 ^ (w - ds.length)) := by
    rw [← pow_add, Nat.add_sub_of_le h, pow_succ, Nat.mul_comm]
  rw [code, code, bits_cons, List.length_cons, Nat.add_sub_add_right, hw]
  ring

theorem code_pos (w : Nat) (ds : Position) : 0 < code w ds := by
  exact Nat.mul_pos (Nat.succ_pos _) (Nat.two_pow_pos _)

theorem code_lt {w : Nat} {ds : Position} (h : ds.length ≤ w) : code w ds < 2 ^ (w + 1) := by
  induction ds generalizing w with
  | nil => simpa using Nat.pow_lt_pow_right (by omega) (Nat.lt_succ_self w)
  | cons d ds ih =>
    obtain ⟨w, rfl⟩ : ∃ v, w = v + 1 := ⟨w - 1, by simp at h; omega⟩
    simp only [List.length_cons, Nat.add_le_add_iff_right] at h
    have := ih h
    rw [code_cons h, pow_succ 2 (w + 1)]
    cases d <;> simp only [Side.bit] <;> omega

theorem code_lt_of_before {w : Nat} : ∀ {ds es : Position}, ds.length ≤ w → es.length ≤ w →
    Before ds es → code w ds < code w es
  | [], [], _, _, h => by simp at h
  | [], e :: es, _, he, h => by
    obtain ⟨w, rfl⟩ : ∃ v, w = v + 1 := ⟨w - 1, by simp at he; omega⟩
    simp only [List.length_cons, Nat.add_le_add_iff_right] at he
    obtain rfl : e = .right := by simpa using h
    have := code_pos w es
    rw [code_cons he, code_nil]
    simp only [Side.bit]
    omega
  | d :: ds, [], hd, _, h => by
    obtain ⟨w, rfl⟩ : ∃ v, w = v + 1 := ⟨w - 1, by simp at hd; omega⟩
    simp only [List.length_cons, Nat.add_le_add_iff_right] at hd
    obtain rfl : d = .left := by simpa using h
    have := code_lt hd
    rw [code_cons hd, code_nil]
    simpa [Side.bit] using this
  | d :: ds, e :: es, hd, he, h => by
    obtain ⟨w, rfl⟩ : ∃ v, w = v + 1 := ⟨w - 1, by simp at he; omega⟩
    simp only [List.length_cons, Nat.add_le_add_iff_right] at hd he
    rw [code_cons hd, code_cons he]
    by_cases hde : d = e
    · subst hde
      have := code_lt_of_before hd he (by simpa using h)
      omega
    · obtain ⟨rfl, rfl⟩ : d = .left ∧ e = .right := by
        cases d <;> cases e <;> simp_all
      have := code_lt hd
      simp only [Side.bit]
      omega

/-- **Codes compare as positions do.** -/
theorem code_lt_iff {w : Nat} {ds es : Position} (hd : ds.length ≤ w) (he : es.length ≤ w) :
    code w ds < code w es ↔ Before ds es := by
  refine ⟨fun h => ?_, code_lt_of_before hd he⟩
  rcases before_trichotomy ds es with rfl | hb | hb
  · omega
  · exact hb
  · have := code_lt_of_before he hd hb
    omega

end Dyadic
