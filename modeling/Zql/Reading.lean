/-
What `Run` does with a whole message: it calls its listener for one item
after the other, and returns, unless it comes to an item it is never done
with or cannot hold (`reader_returns_iff`).

The size of a message is passed as an `int`, so of a long one only a part
is seen, or nothing (`visible`).
-/
import Zql.Framing

namespace Zql

open Looping

/-! ## Items -/

/-- A frame that leaves at most `n` bytes. -/
def Frame.Within (n : Nat) : Frame → Prop
  | .item _ rest => rest.length ≤ n
  | _ => True

/-- The bytes or the string a call hands over. -/
def CborEvent.payload : CborEvent → List UInt8
  | .bytes data => data
  | .string str => str
  | _ => []

/-- Where what a frame has comes from: bytes it hands over and bytes it leaves
are those of the list, one after the other. -/
inductive Frame.From (l : List UInt8) : Frame → Prop
  | incomplete : From l .incomplete
  | stuck : From l .stuck
  | overlong : From l .overlong
  | quiet (n : Nat) : From l (.item none (l.drop n))
  | plain (n : Nat) {event : CborEvent} : event.payload = [] → From l (.item (some event) (l.drop n))
  | contents (major n k : Nat) : From l (.item (some (contents major ((l.drop n).take k))) (l.drop (n + k)))

theorem Frame.From.drop {f : Frame} {l : List UInt8} (n : Nat) (h : f.From (l.drop n)) : f.From l := by
  cases h with
  | incomplete => exact .incomplete
  | stuck => exact .stuck
  | overlong => exact .overlong
  | quiet k =>
    rw [List.drop_drop]
    exact .quiet _
  | plain k he =>
    rw [List.drop_drop]
    exact .plain _ he
  | contents major k m =>
    rw [List.drop_drop, List.drop_drop, ← Nat.add_assoc]
    exact .contents ..

theorem Frame.From.within {f : Frame} {l : List UInt8} (h : f.From l) : f.Within l.length := by
  cases h <;> simp [Frame.Within]

theorem scalar_payload (major : Nat) (value : UInt32) : (scalar major value).payload = [] := by
  unfold scalar
  split <;> rfl

theorem frameBytes_from (major : Nat) (length : Int32) (l : List UInt8) : (frameBytes major length l).From l := by
  unfold frameBytes
  split
  · exact .overlong
  split
  · exact .incomplete
  · have hcontents := Frame.From.contents (l := l) major 0 length.toInt.toNat
    rwa [List.drop_zero, Nat.zero_add] at hcontents

theorem frameValue_from (major : Nat) (value : UInt32) (l : List UInt8) : (frameValue major value l).From l := by
  unfold frameValue
  split
  · exact frameBytes_from ..
  · exact .plain 0 (scalar_payload ..)

theorem frameArgument_from (major width : Nat) (l : List UInt8) : (frameArgument major width l).From l := by
  unfold frameArgument
  split
  · exact .incomplete
  · exact (frameValue_from ..).drop width

theorem frameLong_from (major : Nat) (l : List UInt8) : (frameLong major l).From l := by
  unfold frameLong
  split
  · exact .incomplete
  split
  · exact .stuck
  · exact (frameBytes_from ..).drop 8
  · exact (frameBytes_from ..).drop 8
  · exact .quiet 0
  · exact .quiet 0
  · exact .quiet 8

theorem frame_from (b : UInt8) (l : List UInt8) : (frame (b :: l)).From l := by
  simp only [frame]
  split
  · exact frameValue_from ..
  split
  · exact frameArgument_from ..
  split
  · exact frameArgument_from ..
  split
  · exact frameArgument_from ..
  split
  · exact frameLong_from ..
  · exact .plain 0 rfl

theorem frame_shorter {l rest : List UInt8} {event : Option CborEvent} (h : frame l = .item event rest) :
    rest.length < l.length := by
  cases l with
  | nil => cases h
  | cons b l =>
    have hw := (frame_from b l).within
    rw [h] at hw
    exact Nat.lt_succ_of_le hw

/-- What an item hands over is no longer than the bytes it stands in. -/
theorem frame_payload {l rest : List UInt8} {event : CborEvent} (h : frame l = .item (some event) rest) :
    event.payload.length ≤ l.length := by
  cases l with
  | nil => cases h
  | cons b l =>
    have hfrom := frame_from b l
    rw [h] at hfrom
    generalize hrest : Frame.item (some event) rest = f at hfrom
    cases hfrom with
    | plain n he =>
      cases hrest
      rw [he]
      exact Nat.zero_le _
    | contents major n k =>
      cases hrest
      have hcontents : (contents major ((l.drop n).take k)).payload = (l.drop n).take k := by
        unfold contents
        split <;> rfl
      rw [hcontents, List.length_take, List.length_drop, List.length_cons]
      omega
    | _ => cases hrest

/-- The calls for the items of the bytes, up to the first that is not all
there or is not done with. -/
def items (l : List UInt8) : List CborEvent :=
  match h : frame l with
  | .item event rest =>
    have := frame_shorter h
    event.toList ++ items rest
  | _ => []
termination_by l.length

theorem items_item {l rest : List UInt8} {event : Option CborEvent} (h : frame l = .item event rest) :
    items l = event.toList ++ items rest := by
  rw [items]
  split
  · next h' =>
    rw [h] at h'
    cases h'
    rfl
  · next hne => exact absurd h (hne _ _)

theorem items_ended {l : List UInt8} (h : ∀ event rest, frame l ≠ .item event rest) : items l = [] := by
  rw [items]
  split
  · next h' => exact absurd h' (h _ _)
  · rfl

theorem items_incomplete {l : List UInt8} (h : frame l = .incomplete) : items l = [] :=
  items_ended fun event rest h' => by
    rw [h] at h'
    cases h'

/-- The second bytes begin with an item of the first. -/
inductive Boundary : List UInt8 → List UInt8 → Prop
  | start (l : List UInt8) : Boundary l l
  | item {l rest l' : List UInt8} {event : Option CborEvent} : frame l = .item event rest → Boundary rest l' →
      Boundary l l'


/-! ## What is not done with -/

/-- A negative integer of eight bytes, all there. -/
def Hangs (l : List UInt8) : Prop := ∃ rest, l = 0x3B :: rest ∧ 8 ≤ rest.length

/-- Bytes or a string of a four-byte length, all there, from 2^31 on. -/
def Throws (l : List UInt8) : Prop :=
  ∃ high rest, (l = 0x5A :: high :: rest ∨ l = 0x7A :: high :: rest) ∧ 0x80 ≤ high ∧ 3 ≤ rest.length

theorem header_eq {b : UInt8} {major minor : Nat} (hmajor : (b >>> 5).toNat = major) (hminor : (b &&& 31).toNat = minor) :
    b = UInt8.ofNat (major * 32 + minor) := by
  rw [UInt8.toNat_shiftRight, Nat.shiftRight_eq_div_pow] at hmajor
  rw [UInt8.toNat_and, show (31 : UInt8).toNat = 2 ^ 5 - 1 from rfl, Nat.and_two_pow_sub_one_eq_mod] at hminor
  have hb := b.toNat_lt
  rw [← UInt8.toNat_inj, UInt8.toNat_ofNat']
  simp at hmajor hminor
  omega

theorem toInt_neg_iff {n : Nat} (h : n < 2 ^ 32) : (UInt32.ofNat n).toInt32.toInt < 0 ↔ 2 ^ 31 ≤ n := by
  rw [UInt32.toInt32_ofNat', Int32.toInt_ofNat', Int.bmod]
  norm_num
  omega

theorem frameBytes_ne_stuck (major : Nat) (length : Int32) (l : List UInt8) : frameBytes major length l ≠ .stuck := by
  unfold frameBytes
  split
  · nofun
  split <;> nofun

theorem frameValue_ne_stuck (major : Nat) (value : UInt32) (l : List UInt8) : frameValue major value l ≠ .stuck := by
  unfold frameValue
  split
  · exact frameBytes_ne_stuck _ _ _
  · nofun

theorem frameArgument_ne_stuck (major width : Nat) (l : List UInt8) : frameArgument major width l ≠ .stuck := by
  unfold frameArgument
  split
  · nofun
  · exact frameValue_ne_stuck _ _ _

theorem frameLong_stuck {major : Nat} {l : List UInt8} : frameLong major l = .stuck ↔ major = 1 ∧ 8 ≤ l.length := by
  unfold frameLong
  split
  · next h =>
    refine ⟨nofun, fun h' => ?_⟩
    omega
  next h =>
  split
  · exact ⟨fun _ => ⟨rfl, by omega⟩, fun _ => rfl⟩
  · exact ⟨fun h => absurd h (frameBytes_ne_stuck _ _ _), fun h => by cases h.1⟩
  · exact ⟨fun h => absurd h (frameBytes_ne_stuck _ _ _), fun h => by cases h.1⟩
  · exact ⟨nofun, fun h => by cases h.1⟩
  · exact ⟨nofun, fun h => by cases h.1⟩
  · next h₁ _ _ _ _ => exact ⟨nofun, fun h => absurd h.1 h₁⟩

theorem frame_stuck_iff {l : List UInt8} : frame l = .stuck ↔ Hangs l := by
  constructor
  · intro h
    cases l with
    | nil => cases h
    | cons b l =>
      simp only [frame] at h
      split at h
      · exact absurd h (frameValue_ne_stuck _ _ _)
      split at h
      · exact absurd h (frameArgument_ne_stuck _ _ _)
      split at h
      · exact absurd h (frameArgument_ne_stuck _ _ _)
      split at h
      · exact absurd h (frameArgument_ne_stuck _ _ _)
      split at h
      · next hminor =>
        obtain ⟨hmajor, hlen⟩ := frameLong_stuck.mp h
        exact ⟨l, by rw [header_eq hmajor (congrArg UInt8.toNat hminor)]; rfl, hlen⟩
      · cases h
  · rintro ⟨rest, rfl, hlen⟩
    exact frameLong_stuck.mpr ⟨rfl, hlen⟩

theorem frameBytes_overlong {major : Nat} {length : Int32} {l : List UInt8} :
    frameBytes major length l = .overlong ↔ length.toInt < 0 := by
  unfold frameBytes
  split
  · next h => exact ⟨fun _ => h, fun _ => rfl⟩
  next h =>
  split
  · exact ⟨nofun, fun h' => absurd h' h⟩
  · exact ⟨nofun, fun h' => absurd h' h⟩

theorem frameValue_overlong {major n : Nat} {l : List UInt8} (hn : n < 2 ^ 32) :
    frameValue major (UInt32.ofNat n) l = .overlong ↔ (major = 2 ∨ major = 3) ∧ 2 ^ 31 ≤ n := by
  unfold frameValue
  split
  · next ht => rw [frameBytes_overlong, toInt_neg_iff hn, and_iff_right ht]
  · next ht => exact ⟨nofun, fun h => absurd h.1 ht⟩

theorem frameArgument_ne_overlong {width : Nat} (major : Nat) (l : List UInt8) (hw : width ≤ 2) :
    frameArgument major width l ≠ .overlong := by
  unfold frameArgument
  split
  · nofun
  · have hlt := bigEndian_lt (l.take width)
    have hpow : 256 ^ (l.take width).length ≤ 256 ^ 2 :=
      Nat.pow_le_pow_right (by omega) ((List.length_take_le ..).trans hw)
    rw [Ne, frameValue_overlong (by omega)]
    omega

theorem frameLong_ne_overlong (major : Nat) (l : List UInt8) : frameLong major l ≠ .overlong := by
  unfold frameLong
  split
  · nofun
  split
  · nofun
  · rw [Ne, frameBytes_overlong]
    decide
  · rw [Ne, frameBytes_overlong]
    decide
  · nofun
  · nofun
  · nofun

theorem frameArgument_overlong {major : Nat} {l : List UInt8} :
    frameArgument major 4 l = .overlong ↔ (major = 2 ∨ major = 3) ∧
      ∃ high rest, l = high :: rest ∧ 0x80 ≤ high ∧ 3 ≤ rest.length := by
  unfold frameArgument
  split
  · next hshort =>
    refine ⟨nofun, ?_⟩
    rintro ⟨-, high, rest, rfl, -, hlen⟩
    simp only [List.length_cons] at hshort
    omega
  next hlen =>
  obtain ⟨b₀, b₁, b₂, b₃, rest, rfl⟩ : ∃ b₀ b₁ b₂ b₃ rest, l = b₀ :: b₁ :: b₂ :: b₃ :: rest := by
    match l, hlen with
    | b₀ :: b₁ :: b₂ :: b₃ :: rest, _ => exact ⟨b₀, b₁, b₂, b₃, rest, rfl⟩
    | [], h | [_], h | [_, _], h | [_, _, _], h => exact absurd (by simp) h
  have hvalue : bigEndian ((b₀ :: b₁ :: b₂ :: b₃ :: rest).take 4) =
      ((b₀.toNat * 256 + b₁.toNat) * 256 + b₂.toNat) * 256 + b₃.toNat := by
    simp [bigEndian]
  have h₀ := b₀.toNat_lt
  have h₁ := b₁.toNat_lt
  have h₂ := b₂.toNat_lt
  have h₃ := b₃.toNat_lt
  rw [hvalue, frameValue_overlong (by omega)]
  refine and_congr_right fun _ => ⟨fun h => ⟨b₀, b₁ :: b₂ :: b₃ :: rest, rfl, ?_, by simp⟩, ?_⟩
  · rw [UInt8.le_iff_toNat_le]
    show 128 ≤ b₀.toNat
    omega
  · rintro ⟨high, rest', heq, hhigh, -⟩
    cases heq
    rw [UInt8.le_iff_toNat_le] at hhigh
    have hhigh : 128 ≤ b₀.toNat := hhigh
    omega

theorem frame_overlong_iff {l : List UInt8} : frame l = .overlong ↔ Throws l := by
  constructor
  · intro h
    cases l with
    | nil => cases h
    | cons b l =>
      simp only [frame] at h
      split at h
      · next hminor =>
        rw [UInt8.lt_iff_toNat_lt] at hminor
        have hminor : (b &&& 31).toNat < 24 := hminor
        have hvalue : (b &&& 31).toUInt32 = UInt32.ofNat (b &&& 31).toNat := by
          rw [← UInt32.toNat_inj]
          simp
        rw [hvalue, frameValue_overlong (by omega)] at h
        omega
      split at h
      · exact absurd h (frameArgument_ne_overlong _ _ (by omega))
      split at h
      · exact absurd h (frameArgument_ne_overlong _ _ (by omega))
      split at h
      · next hminor =>
        obtain ⟨hmajor, high, rest, rfl, hhigh, hlen⟩ := frameArgument_overlong.mp h
        refine ⟨high, rest, ?_, hhigh, hlen⟩
        rcases hmajor with hmajor | hmajor
        · exact .inl (by rw [header_eq hmajor (congrArg UInt8.toNat hminor)]; rfl)
        · exact .inr (by rw [header_eq hmajor (congrArg UInt8.toNat hminor)]; rfl)
      split at h
      · exact absurd h (frameLong_ne_overlong _ _)
      · cases h
  · rintro ⟨high, rest, rfl | rfl, hhigh, hlen⟩
    · exact frameArgument_overlong.mpr ⟨.inl rfl, high, rest, rfl, hhigh, hlen⟩
    · exact frameArgument_overlong.mpr ⟨.inr rfl, high, rest, rfl, hhigh, hlen⟩

/-- No item of the bytes is of the two kinds. -/
def Readable (l : List UInt8) : Prop := ∀ l', Boundary l l' → ¬ Hangs l' ∧ ¬ Throws l'

theorem readable_nil : Readable [] := by
  intro l' hb
  cases hb with
  | start _ =>
    refine ⟨fun h => ?_, fun h => ?_⟩
    · obtain ⟨_, h, _⟩ := h
      cases h
    · obtain ⟨_, _, h | h, _⟩ := h <;> cases h
  | item hf _ => cases hf

theorem Readable.rest {l rest : List UInt8} {event : Option CborEvent} (h : Readable l)
    (hf : frame l = .item event rest) : Readable rest :=
  fun l' hl => h l' (.item hf hl)

/-! ## Runs -/

/-- The bytes of a message that the reader can see. -/
def visible (data : List UInt8) : List UInt8 := data.take (CborInput.new data).size.toNat

/-- Where `Run` ends after these calls. -/
def told {L E : Type*} (on : L → CborEvent → Except E L) (x : L) (events : List CborEvent) :
    Except E (CborEnd × L) :=
  (events.foldlM on x).map fun x => (.returned, x)

namespace CborReader

theorem Leads.passes {L E : Type*} {r : CborReader} {p : Pass} (h : Leads r p) (on : L → CborEvent → Except E L)
    (x : L) : ∃ r' : CborReader, r'.pass = p ∧ Passes (body on) (r, x) (r', x) := by
  induction h with
  | here r => exact ⟨r, rfl, .refl _⟩
  | @quiet r r' p hp _ ih =>
    obtain ⟨r'', hp'', hpasses⟩ := ih
    exact ⟨r'', hp'', .step (by simp only [body, hp]) hpasses⟩

theorem body_leave {L E : Type*} {on : L → CborEvent → Except E L} {r : CborReader} {e : CborEnd} (x : L)
    (h : r.pass = .leave e) : body on (r, x) = .leave (.ok (e, x)) := by
  simp only [body, h]

theorem body_quiet {L E : Type*} {on : L → CborEvent → Except E L} {r r' : CborReader} (x : L)
    (h : r.pass = .again (r', none)) : body on (r, x) = .again (r', x) := by
  simp only [body, h]

theorem body_call {L E : Type*} {on : L → CborEvent → Except E L} {r r' : CborReader} {event : CborEvent} {x x' : L}
    (h : r.pass = .again (r', some event)) (hx : on x event = .ok x') : body on (r, x) = .again (r', x') := by
  simp only [body, h, hx]

theorem body_error {L E : Type*} {on : L → CborEvent → Except E L} {r r' : CborReader} {event : CborEvent} {x : L}
    {e : E} (h : r.pass = .again (r', some event)) (hx : on x event = .error e) :
    body on (r, x) = .leave (.error e) := by
  simp only [body, h, hx]

/-- **On readable bytes `Run` calls its listener for the items, one after
the other, and returns.** -/
theorem returns_readable {L E : Type*} (on : L → CborEvent → Except E L) {r : CborReader} {l : List UInt8}
    (hs : r.state = .type) (hi : r.input.At l) (hl : Readable l) (x : L) :
    Returns (body on) (r, x) (told on x (items l)) := by
  induction hn : l.length using Nat.strong_induction_on generalizing r l x with
  | _ n ih =>
    have hdoes := does_frame hs hi
    have hnot := hl l (.start l)
    cases hf : frame l with
    | incomplete =>
      rw [hf] at hdoes
      obtain ⟨r', hp, hpasses⟩ := Leads.passes hdoes on x
      rw [hpasses.returns_iff, items_incomplete hf]
      exact returns_leave (body_leave x hp)
    | item event rest =>
      rw [hf] at hdoes
      obtain ⟨r'', hs'', hi'', hleads⟩ := hdoes
      obtain ⟨r', hp, hpasses⟩ := Leads.passes hleads on x
      have hrest := fun x => ih rest.length (hn ▸ frame_shorter hf) hs'' hi'' (hl.rest hf) x rfl
      rw [hpasses.returns_iff, items_item hf]
      cases event with
      | none => exact (returns_again (body_quiet x hp) _).mpr (hrest x)
      | some event =>
        cases hx : on x event with
        | ok x' =>
          rw [show told on x ((some event).toList ++ items rest) = told on x' (items rest) by
            simp only [told, Option.toList_some, List.singleton_append, List.foldlM_cons, hx]
            rfl]
          exact (returns_again (body_call hp hx) _).mpr (hrest x')
        | error e =>
          rw [show told on x ((some event).toList ++ items rest) = .error e by
            simp only [told, Option.toList_some, List.singleton_append, List.foldlM_cons, hx]
            rfl]
          exact returns_leave (body_error hp hx)
    | stuck => exact absurd (frame_stuck_iff.mp hf) hnot.1
    | overlong => exact absurd (frame_overlong_iff.mp hf) hnot.2

end CborReader

/-- A listener that never fails. -/
def always {L : Type*} (f : L → CborEvent → L) (x : L) (event : CborEvent) : Except Empty L := .ok (f x event)

theorem foldlM_always {L : Type*} (f : L → CborEvent → L) (x : L) (events : List CborEvent) :
    events.foldlM (always f) x = .ok (events.foldl f x) := by
  induction events generalizing x with
  | nil => rfl
  | cons event events ih => exact ih (f x event)

theorem told_always {L : Type*} (f : L → CborEvent → L) (x : L) (events : List CborEvent) :
    told (always f) x events = .ok (.returned, events.foldl f x) := by
  rw [told, foldlM_always]
  rfl

namespace CborReader

/-- `Run` does not return from bytes with an item it is not done with,
whatever its listener does. -/
theorem not_returns_unreadable {L E : Type*} (on : L → CborEvent → Except E L) {r : CborReader} {l l' : List UInt8}
    (hs : r.state = .type) (hi : r.input.At l) (hb : Boundary l l') (hl : Hangs l' ∨ Throws l') (x x' : L) :
    ¬ Returns (body on) (r, x) (.ok (.returned, x')) := by
  induction hb generalizing r x with
  | start l =>
    have hdoes := does_frame hs hi
    rcases hl with hl | hl
    · rw [frame_stuck_iff.mpr hl] at hdoes
      obtain ⟨r', hleads, hself⟩ := hdoes
      obtain ⟨r'', hp, hpasses⟩ := Leads.passes hleads on x
      rw [hpasses.returns_iff, returns_again (body_quiet x hp)]
      refine not_returns (I := fun s => s = (r', x)) (fun s hs => ⟨(r', x), ?_, rfl⟩) rfl _
      rw [hs]
      exact body_quiet x hself
    · rw [frame_overlong_iff.mpr hl] at hdoes
      obtain ⟨r', hp, hpasses⟩ := Leads.passes hdoes on x
      rw [hpasses.returns_iff, returns_leave_iff (body_leave x hp)]
      nofun
  | @item l rest l' event hf _ ih =>
    have hdoes := does_frame hs hi
    rw [hf] at hdoes
    obtain ⟨r'', hs'', hi'', hleads⟩ := hdoes
    obtain ⟨r', hp, hpasses⟩ := Leads.passes hleads on x
    rw [hpasses.returns_iff]
    cases event with
    | none =>
      rw [returns_again (body_quiet x hp)]
      exact ih hs'' hi'' hl x
    | some event =>
      cases hx : on x event with
      | ok x₁ =>
        rw [returns_again (body_call hp hx)]
        exact ih hs'' hi'' hl x₁
      | error e =>
        rw [returns_leave_iff (body_error hp hx)]
        nofun

end CborReader

theorem size_le (data : List UInt8) : (CborInput.new data).size ≤ data.length := by
  simp only [CborInput.new, Int.bmod]
  norm_num
  omega

theorem new_state (input : CborInput) : (CborReader.new input).state = .type := rfl

theorem at_new {data : List UInt8} (h : 0 ≤ (CborInput.new data).size) :
    (CborReader.new (.new data)).input.At (visible data) where
  size := by
    have := size_le data
    rw [visible, List.length_take]
    show (CborInput.new data).size - 0 = _
    omega
  data := ⟨data.drop (CborInput.new data).size.toNat, (List.take_append_drop ..).symm⟩

/-- Nothing is seen of a message whose size is negative as an `int`. -/
theorem unseen {data : List UInt8} (h : ¬ 0 ≤ (CborInput.new data).size) :
    visible data = [] ∧ (CborReader.new (.new data)).pass = .leave .returned := by
  constructor
  · rw [visible, Int.toNat_of_nonpos (by omega)]
    rfl
  · have hhas : (CborInput.new data).hasBytes 1 = false := by
      refine decide_eq_false ?_
      show ¬ (CborInput.new data).size - 0 ≥ 1
      omega
    simp only [CborReader.new, CborReader.pass, CborReader.type, hhas, Bool.false_eq_true, if_false]

theorem visible_eq {data : List UInt8} (h : data.length < 2 ^ 31) : visible data = data := by
  have hsize : (CborInput.new data).size = data.length := by
    simp only [CborInput.new]
    exact Int.bmod_eq_of_le (by omega) (by omega)
  rw [visible, hsize, Int.toNat_natCast, List.take_length]

theorem run_readable {L E : Type*} (on : L → CborEvent → Except E L) {data : List UInt8} (h : Readable (visible data))
    (x : L) : Returns (CborReader.body on) (.new (.new data), x) (told on x (items (visible data))) := by
  by_cases hsize : 0 ≤ (CborInput.new data).size
  · exact CborReader.returns_readable on (new_state _) (at_new hsize) h x
  · obtain ⟨hnil, hpass⟩ := unseen hsize
    rw [hnil, items_incomplete rfl]
    exact returns_leave (CborReader.body_leave x hpass)

theorem readable_of_returns {L E : Type*} {on : L → CborEvent → Except E L} {x x' : L} {data : List UInt8}
    (h : Returns (CborReader.body on) (.new (.new data), x) (.ok (.returned, x'))) : Readable (visible data) := by
  by_cases hsize : 0 ≤ (CborInput.new data).size
  · intro l hb
    by_contra hl
    have hl : Hangs l ∨ Throws l := by
      by_contra hnot
      exact hl (not_or.mp hnot)
    exact CborReader.not_returns_unreadable on (new_state _) (at_new hsize) hb hl x x' h
  · rw [(unseen hsize).1]
    exact readable_nil

/-- **`Run` returns on a message, whatever its listener does, exactly when
no item of it is a negative integer of eight bytes or bytes or a string of
a four-byte length from 2^31 on.** -/
theorem reader_returns_iff {L : Type*} (f : L → CborEvent → L) (x : L) (data : List UInt8) :
    (∃ x', Returns (CborReader.body (always f)) (.new (.new data), x) (.ok (.returned, x'))) ↔
      ∀ l, Boundary (visible data) l → ¬ Hangs l ∧ ¬ Throws l := by
  constructor
  · intro ⟨x', hreturns⟩
    exact readable_of_returns hreturns
  · intro h
    have hrun := run_readable (always f) h x
    rw [told_always] at hrun
    exact ⟨_, hrun⟩

/-- A negative integer of eight zero bytes. -/
theorem reader_hangs :
    ∃ data : List UInt8, ∀ (L : Type) (f : L → CborEvent → L) (x x' : L),
      ¬ Returns (CborReader.body (always f)) (.new (.new data), x) (.ok (.returned, x')) := by
  refine ⟨0x3B :: List.replicate 8 0, fun L f x x' => ?_⟩
  have hsize : 0 ≤ (CborInput.new (0x3B :: List.replicate 8 0)).size := by decide
  have hhangs : Hangs (visible (0x3B :: List.replicate 8 0)) := ⟨List.replicate 8 0, rfl, le_rfl⟩
  exact CborReader.not_returns_unreadable (always f) (new_state _) (at_new hsize) (.start _) (.inl hhangs) x x'

end Zql
