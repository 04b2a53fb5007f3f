/-
Whether a reader stays inside its input. Its offset never passes the end and
never goes back, and no byte is read from outside, whatever the bytes are.

The one thing that can go wrong is seen in the bytes: a length of four bytes
from 2^31 on is a negative `int`, which `hasBytes` lets through to the
allocation (`reader_stays_inside_iff`).
-/
import Zql.Passes

namespace Zql

open Looping

namespace CborReader

/-- A length passed to the allocation of a payload, and to `getBytes` and
the listener after it. -/
def Asks (r : CborReader) (length : Int) : Prop :=
  (r.state = .bytesData ∨ r.state = .stringData) ∧ r.input.hasBytes length = true ∧ r.currentLength.toInt = length

/-- A pass from this state stays inside an input of `n` bytes. -/
structure Stays (r : CborReader) (n : Nat) : Prop where
  offset : r.input.offset ≤ n
  forward : ∀ r' event, r.pass = .again (r', event) → r.input.offset ≤ r'.input.offset
  reads : r.pass ≠ .leave .outOfBounds
  asks : ∀ length, r.Asks length → 0 ≤ length ∧ length ≤ n - r.input.offset

/-! ## Asking -/

theorem reading_thrown {α : Type} {read : Option (α × CborInput)} {next : α → CborInput → Pass}
    (h : reading read next = .leave .thrown) : ∃ value input, next value input = .leave .thrown := by
  unfold reading at h
  split at h
  · exact ⟨_, _, h⟩
  · cases h

theorem type_ne_thrown (r : CborReader) : r.type ≠ .leave .thrown := by
  intro h
  unfold type at h
  split at h
  · obtain ⟨value, input, h⟩ := reading_thrown h
    dsimp only [header] at h
    split at h
    all_goals repeat' split at h
    all_goals cases h
  · cases h

theorem argument_ne_thrown {r : CborReader} {short : UInt32 → CborReader → CborReader × Option CborEvent}
    {long : CborReader → Pass} (hlong : ∀ r, long r ≠ .leave .thrown) : r.argument short long ≠ .leave .thrown := by
  intro h
  unfold argument at h
  split at h
  · repeat' split at h
    all_goals first
      | exact hlong r h
      | cases h
      | (obtain ⟨value, input, h⟩ := reading_thrown h; cases h)
  · cases h

theorem long_ne_thrown {r : CborReader} {next : CborInput → CborReader × Option CborEvent} :
    (reading r.input.getLong fun _ input => .again (next input)) ≠ .leave .thrown := by
  intro h
  obtain ⟨value, input, h⟩ := reading_thrown h
  cases h

theorem payload_thrown {r : CborReader} {kind : List UInt8 → CborEvent} (h : r.payload kind = .leave .thrown) :
    r.input.hasBytes r.currentLength.toInt = true ∧ r.currentLength.toInt < 0 := by
  unfold payload at h
  split at h
  next hhas =>
    split at h
    · next hneg => exact ⟨hhas, hneg⟩
    · obtain ⟨data, input, h⟩ := reading_thrown h
      cases h
  · cases h

theorem asks_of_thrown {r : CborReader} (h : r.pass = .leave .thrown) : ∃ length < 0, r.Asks length := by
  unfold pass at h
  split at h
  · exact absurd h (type_ne_thrown r)
  · exact absurd h (argument_ne_thrown fun _ => long_ne_thrown)
  · exact absurd h (argument_ne_thrown fun _ => nofun)
  · exact absurd h (argument_ne_thrown fun _ => long_ne_thrown)
  · next hs =>
    obtain ⟨hhas, hneg⟩ := payload_thrown h
    exact ⟨_, hneg, .inl hs, hhas, rfl⟩
  · exact absurd h (argument_ne_thrown fun _ => long_ne_thrown)
  · next hs =>
    obtain ⟨hhas, hneg⟩ := payload_thrown h
    exact ⟨_, hneg, .inr hs, hhas, rfl⟩
  · exact absurd h (argument_ne_thrown fun _ => nofun)
  · exact absurd h (argument_ne_thrown fun _ => nofun)
  · exact absurd h (argument_ne_thrown fun _ => long_ne_thrown)
  · exact absurd h (argument_ne_thrown fun _ => long_ne_thrown)

theorem Faces.asks {r : CborReader} {f : Frame} {length : Int} (h : r.Faces f) (ha : r.Asks length) :
    ∃ major l, f = frameBytes major r.currentLength l ∧ r.input.At l := by
  have hrank : r.rank = 0 := by
    rcases ha.1 with hs | hs <;> rw [rank, hs]
  cases h with
  | header hs hi =>
    rw [rank_type hs] at hrank
    cases hrank
  | argument hm hs hw hi =>
    rw [rank_argument hs] at hrank
    cases hrank
  | long hm hs hc hi =>
    rw [rank_argument hs] at hrank
    cases hrank
  | payload hm hs hi => exact ⟨_, _, rfl, hi⟩

/-! ## Staying -/

theorem Faces.at_some {r : CborReader} {f : Frame} (h : r.Faces f) : ∃ l, r.input.At l := by
  cases h with
  | header _ hi => exact ⟨_, hi⟩
  | argument _ _ _ hi => exact ⟨_, hi⟩
  | long _ _ _ hi => exact ⟨_, hi⟩
  | payload _ _ hi => exact ⟨_, hi⟩

theorem Within.stays {r : CborReader} {l : List UInt8} {n : Nat} (hw : r.Within l) (hl : ¬ Throws l)
    (hsize : r.input.size = n) : r.Stays n where
  offset := by
    obtain ⟨l, hi⟩ := hw.faces.at_some
    have := hi.size
    omega
  forward := fun r' event hp => (pass_follows hp).offset
  reads := by
    intro hp
    have hturns := hw.faces.turns
    rw [hp] at hturns
    cases hturns
  asks := by
    intro length ha
    obtain ⟨major, rest, hf, hi⟩ := hw.faces.asks ha
    obtain ⟨-, hhas, rfl⟩ := ha
    rw [hi.hasBytes, decide_eq_true_eq] at hhas
    have hsize' := hi.size
    refine ⟨?_, by omega⟩
    by_contra hneg
    rw [frameBytes, if_pos (by omega)] at hf
    exact hl (frame_overlong_iff.mp hf)

end CborReader

/-- **A reader stays inside its input, whatever its listener does, exactly
when no item is bytes or a string of a four-byte length from 2^31 on.** -/
theorem reader_stays_inside_iff {L : Type*} (f : L → CborEvent → L) (x : L) {data : List UInt8}
    (h : data.length < 2 ^ 31) :
    (∀ r x', Passes (CborReader.body (always f)) (.new (.new data), x) (r, x') → r.Stays data.length) ↔
      ∀ l, Boundary data l → ¬ Throws l := by
  have hat := at_start h
  constructor
  · intro hstays l hb hl
    obtain ⟨events, hreads⟩ := hb.reads
    obtain ⟨r, hs, hi, hpasses⟩ := CborReader.passes_reads f hreads rfl hat x
    have hdoes := CborReader.does_frame hs hi
    rw [frame_overlong_iff.mpr hl] at hdoes
    obtain ⟨r', hp, hpasses'⟩ := CborReader.Leads.passes hdoes (always f) (events.foldl f x)
    obtain ⟨length, hneg, hasks⟩ := CborReader.asks_of_thrown hp
    have := (hstays r' _ (hpasses.trans hpasses')).asks length hasks
    omega
  · intro hl r x' hpasses
    obtain ⟨events, l, hreads, -, hw, hfollows⟩ := CborReader.faces_of_passes hpasses rfl hat
    exact hw.stays (hl l hreads.boundary) (hfollows.size.trans (new_size h))

theorem reader_stays_inside_iff_byte :
    (∀ r x', Passes (CborReader.body (always noted)) (.new (.new [1]), []) (r, x') → r.Stays 1) ↔
      ∀ l, Boundary [1] l → ¬ Throws l :=
  reader_stays_inside_iff noted [] (by decide)

/-- A length of 2^31 bytes and none of them. -/
theorem reader_asks_below_zero :
    ∃ r events, Passes (CborReader.body (always noted)) (.new (.new [0x5A, 0x80, 0, 0, 0]), []) (r, events) ∧
      ¬ r.Stays 5 := by
  refine ⟨⟨⟨[0x5A, 0x80, 0, 0, 0], 5, 5⟩, .bytesData, Int32.minValue⟩, [], .step rfl (.step rfl (.refl _)), fun h => ?_⟩
  have := h.asks (-2147483648) ⟨.inl rfl, rfl, rfl⟩
  omega

end Zql
