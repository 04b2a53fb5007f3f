/-
Where an item of a message ends and what it tells the listener, from the
bytes alone, and that the reader does just that (`CborReader.does_frame`).

Most items are as the encoding has them. Lengths and values of eight bytes
are the exceptions: a negative integer is never done with, an array or a
map leaves its argument to be read as items of their own, bytes and strings
have 123 bytes in any case, and the others are passed over without a call.
A length of four bytes from 2^31 on is negative, and no array of it is made.
-/
import Zql.Cbor

namespace Zql

open Looping

/-- Bytes as a number, the first the highest. -/
def bigEndian (bytes : List UInt8) : Nat := bytes.foldl (fun value b => value * 256 + b.toNat) 0

/-- What stands at the head of the bytes. -/
inductive Frame
  /-- Not all of an item. -/
  | incomplete
  /-- An item, and the bytes after it. -/
  | item (event : Option CborEvent) (rest : List UInt8)
  /-- A negative integer of eight bytes. -/
  | stuck
  /-- Bytes or a string of negative length. -/
  | overlong
  deriving DecidableEq

/-- The items that are a number: all but bytes and strings. -/
def scalar (major : Nat) (value : UInt32) : CborEvent :=
  match major with
  | 0 => .integer value.toInt32
  | 1 => .integer (-value.toInt32)
  | 4 => .array value.toInt32
  | 5 => .map value.toInt32
  | 6 => .tag value
  | _ => .special value.toInt32

def contents (major : Nat) (data : List UInt8) : CborEvent :=
  match major with
  | 2 => .bytes data
  | _ => .string data

/-- The complaint about a minor type above 27. -/
def complaint (major : Nat) : String :=
  match major with
  | 0 | 1 => "invalid integer type"
  | 2 => "invalid bytes type"
  | 3 => "invalid string type"
  | 4 | 5 => "invalid array type"
  | 6 => "invalid tag type"
  | _ => "invalid special type"

def frameBytes (major : Nat) (length : Int32) (l : List UInt8) : Frame :=
  if length.toInt < 0 then .overlong
  else if l.length < length.toInt.toNat then .incomplete
  else .item (some (contents major (l.take length.toInt.toNat))) (l.drop length.toInt.toNat)

/-- An item whose value, or whose length, has been read. -/
def frameValue (major : Nat) (value : UInt32) (l : List UInt8) : Frame :=
  if major = 2 ∨ major = 3 then frameBytes major value.toInt32 l else .item (some (scalar major value)) l

def frameArgument (major width : Nat) (l : List UInt8) : Frame :=
  if l.length < width then .incomplete
  else frameValue major (UInt32.ofNat (bigEndian (l.take width))) (l.drop width)

def frameLong (major : Nat) (l : List UInt8) : Frame :=
  if l.length < 8 then .incomplete
  else
    match major with
    | 1 => .stuck
    | 2 | 3 => frameBytes major 123 (l.drop 8)
    | 4 | 5 => .item none l
    | _ => .item none (l.drop 8)

def frame : List UInt8 → Frame
  | [] => .incomplete
  | b :: l =>
    let major := (b >>> 5).toNat
    let minor := b &&& 31
    if minor < 24 then frameValue major minor.toUInt32 l
    else if minor = 24 then frameArgument major 1 l
    else if minor = 25 then frameArgument major 2 l
    else if minor = 26 then frameArgument major 4 l
    else if minor = 27 then frameLong major l
    else .item (some (.error (complaint major))) l

/-! ## Input -/

/-- The bytes the input has left. -/
structure CborInput.At (i : CborInput) (l : List UInt8) : Prop where
  size : i.size - i.offset = l.length
  data : ∃ beyond, i.data.drop i.offset = l ++ beyond

theorem CborInput.At.hasBytes {i : CborInput} {l : List UInt8} (h : i.At l) (count : Int) :
    i.hasBytes count = decide (count ≤ l.length) := by
  rw [CborInput.hasBytes, h.size]

theorem CborInput.At.skip {i : CborInput} {l : List UInt8} {n : Nat} (h : i.At l) (hn : n ≤ l.length) :
    CborInput.At { i with offset := i.offset + n } (l.drop n) where
  size := by
    have := h.size
    rw [List.length_drop]
    simp only
    omega
  data := by
    obtain ⟨beyond, hb⟩ := h.data
    exact ⟨beyond, by rw [← List.drop_drop, hb, List.drop_append_of_le_length hn]⟩

theorem CborInput.At.take {i : CborInput} {l : List UInt8} {n : Nat} (h : i.At l) (hn : n ≤ l.length) :
    (i.data.drop i.offset).take n = l.take n := by
  obtain ⟨beyond, hb⟩ := h.data
  rw [hb, List.take_append_of_le_length hn]

theorem CborInput.At.getBigEndian {i : CborInput} {l : List UInt8} {n : Nat} (h : i.At l) (hn : n ≤ l.length) :
    i.getBigEndian n = some (bigEndian (l.take n), { i with offset := i.offset + n }) := by
  simp only [CborInput.getBigEndian, h.take hn, List.length_take, Nat.min_eq_left hn, if_true]
  rfl

theorem CborInput.At.getBytes {i : CborInput} {l : List UInt8} {n : Nat} (h : i.At l) (hn : n ≤ l.length) :
    i.getBytes n = some (l.take n, { i with offset := i.offset + n }) := by
  simp only [CborInput.getBytes, h.take hn, List.length_take, Nat.min_eq_left hn, if_true]

theorem bigEndian_foldl_lt (l : List UInt8) (v : Nat) :
    l.foldl (fun value b => value * 256 + b.toNat) v < (v + 1) * 256 ^ l.length := by
  induction l generalizing v with
  | nil => simp
  | cons b l ih =>
    have hb := b.toNat_lt
    calc (b :: l).foldl (fun value b => value * 256 + b.toNat) v
        < (v * 256 + b.toNat + 1) * 256 ^ l.length := ih _
      _ ≤ ((v + 1) * 256) * 256 ^ l.length := Nat.mul_le_mul_right _ (by omega)
      _ = (v + 1) * 256 ^ (b :: l).length := by rw [List.length_cons, Nat.pow_succ]; ring

theorem bigEndian_lt (l : List UInt8) : bigEndian l < 256 ^ l.length := by
  simpa [bigEndian] using bigEndian_foldl_lt l 0

/-! ## The reader -/

namespace CborReader

/-- The pass a reader gets to by passes that call nothing. -/
inductive Leads : CborReader → Pass → Prop
  | here (r : CborReader) : Leads r r.pass
  | quiet {r r' : CborReader} {p : Pass} : r.pass = .again (r', none) → Leads r' p → Leads r p

/-- What the reader does about what it has before it. -/
def Does (r : CborReader) : Frame → Prop
  | .incomplete => Leads r (.leave .returned)
  | .item event rest => ∃ r' : CborReader, r'.state = .type ∧ r'.input.At rest ∧ Leads r (.again (r', event))
  | .stuck => ∃ r' : CborReader, Leads r (.again (r', none)) ∧ r'.pass = .again (r', none)
  | .overlong => Leads r (.leave .thrown)

theorem Leads.of_pass {r : CborReader} {p : Pass} (h : r.pass = p) : Leads r p := h ▸ .here r

theorem Does.quiet {r r' : CborReader} {f : Frame} (h : r.pass = .again (r', none)) (hf : Does r' f) : Does r f := by
  cases f with
  | incomplete => exact Leads.quiet h hf
  | item event rest =>
    obtain ⟨r'', hs, hi, hl⟩ := hf
    exact ⟨r'', hs, hi, Leads.quiet h hl⟩
  | stuck =>
    obtain ⟨r'', hl, hp⟩ := hf
    exact ⟨r'', Leads.quiet h hl, hp⟩
  | overlong => exact Leads.quiet h hf

/-- The state a major type's argument is read in. -/
def argumentState (major : Nat) : CborReaderState :=
  match major with
  | 0 => .pint
  | 1 => .nint
  | 2 => .bytesSize
  | 3 => .stringSize
  | 4 => .array
  | 5 => .map
  | 6 => .tag
  | _ => .special

def dataState (major : Nat) : CborReaderState :=
  match major with
  | 2 => .bytesData
  | _ => .stringData

/-- What a value does: a length is kept, any other goes to the listener. -/
def value (r : CborReader) (major : Nat) (value : UInt32) : CborReader × Option CborEvent :=
  if major = 2 ∨ major = 3 then ({ r with state := dataState major, currentLength := value.toInt32 }, none)
  else (r, some (scalar major value))

theorem major_lt (b : UInt8) : (b >>> 5).toNat < 8 := by
  have := b.toNat_lt
  rw [UInt8.toNat_shiftRight, Nat.shiftRight_eq_div_pow]
  exact Nat.div_lt_of_lt_mul this

theorem type_eq {r : CborReader} {b : UInt8} {l : List UInt8} (hi : r.input.At (b :: l)) :
    ∃ input : CborInput, input.At l ∧
      r.type = header { r with input } (b &&& 31) (value { r with input } (b >>> 5).toNat (b &&& 31).toUInt32)
        (argumentState (b >>> 5).toNat) (complaint (b >>> 5).toNat) := by
  have hlen : 1 ≤ (b :: l).length := by simp
  refine ⟨_, hi.skip hlen, ?_⟩
  have hbyte : r.input.getByte = some (b, { r.input with offset := r.input.offset + 1 }) := by
    rw [CborInput.getByte, hi.getBigEndian hlen]
    simp [bigEndian]
  have hhas : r.input.hasBytes 1 = true := by
    rw [hi.hasBytes]
    simp
  simp only [type, hhas, if_true, hbyte, reading]
  have hlt := major_lt b
  generalize (b >>> 5).toNat = major at hlt ⊢
  interval_cases major <;> rfl

/-! ## Within an item -/

/-- The lengths of arguments that are read. -/
inductive Short : Nat → Int32 → Prop
  | one : Short 1 1
  | two : Short 2 2
  | four : Short 4 4

theorem Short.toInt {width : Nat} {length : Int32} (h : Short width length) : length.toInt = width := by
  cases h <;> rfl

/-- The frame a reader has before it: a whole item, or what is left of one
whose head, or whose argument, it has read. -/
inductive Faces : CborReader → Frame → Prop
  | header {r : CborReader} {l : List UInt8} : r.state = .type → r.input.At l → Faces r (frame l)
  | argument {r : CborReader} {major width : Nat} {l : List UInt8} : major < 8 → r.state = argumentState major →
      Short width r.currentLength → r.input.At l → Faces r (frameArgument major width l)
  | long {r : CborReader} {major : Nat} {l : List UInt8} : major < 8 → r.state = argumentState major →
      r.currentLength = 8 → r.input.At l → Faces r (frameLong major l)
  | payload {r : CborReader} {major : Nat} {l : List UInt8} : major = 2 ∨ major = 3 → r.state = dataState major →
      r.input.At l → Faces r (frameBytes major r.currentLength l)

/-- The parts of an item a reader has still to read, at most. -/
def rank (r : CborReader) : Nat :=
  match r.state with
  | .type => 2
  | .bytesData | .stringData => 0
  | _ => 1

/-- What a pass may come to before a frame. -/
inductive Turns (r : CborReader) (f : Frame) : Pass → Prop
  | within {r' : CborReader} : r'.Faces f → r'.rank < r.rank → Turns r f (.again (r', none))
  | item {r' : CborReader} {event : Option CborEvent} {rest : List UInt8} : f = .item event rest → r'.state = .type →
      r'.input.At rest → Turns r f (.again (r', event))
  | incomplete : f = .incomplete → Turns r f (.leave .returned)
  | stuck : f = .stuck → Turns r f (.again (r, none))
  | overlong : f = .overlong → Turns r f (.leave .thrown)

theorem rank_type {r : CborReader} (h : r.state = .type) : r.rank = 2 := by
  rw [rank, h]

theorem rank_argument {r : CborReader} {major : Nat} (h : r.state = argumentState major) : r.rank = 1 := by
  unfold argumentState at h
  split at h <;> simp only [rank, h]

theorem rank_data {r : CborReader} {major : Nat} (h : r.state = dataState major) : r.rank = 0 := by
  unfold dataState at h
  split at h <;> simp only [rank, h]

/-! ## Payloads -/

theorem turns_bytes {r : CborReader} {major : Nat} {l : List UInt8} (hm : major = 2 ∨ major = 3)
    (hs : r.state = dataState major) (hi : r.input.At l) :
    Turns r (frameBytes major r.currentLength l) r.pass := by
  have hpass : r.pass = r.payload (contents major) := by
    rcases hm with rfl | rfl <;> simp only [pass, hs, dataState] <;> rfl
  rw [hpass, payload, hi.hasBytes]
  by_cases hneg : r.currentLength.toInt < 0
  · -- a negative size is always there
    simp only [show r.currentLength.toInt ≤ l.length by omega, decide_true, if_true, hneg]
    exact .overlong (by rw [frameBytes, if_pos hneg])
  by_cases hshort : l.length < r.currentLength.toInt.toNat
  · simp only [show ¬ r.currentLength.toInt ≤ l.length by omega, decide_false, Bool.false_eq_true, if_false]
    exact .incomplete (by rw [frameBytes, if_neg hneg, if_pos hshort])
  · have hle : r.currentLength.toInt.toNat ≤ l.length := by omega
    simp only [show r.currentLength.toInt ≤ l.length by omega, decide_true, if_true, hneg, if_false, hi.getBytes hle,
      reading]
    exact .item (by rw [frameBytes, if_neg hneg, if_neg hshort]) rfl (hi.skip hle)

/-! ## Arguments -/

theorem toUInt32_ofNat8 {n : Nat} (h : n < 256 ^ 1) : (UInt8.ofNat n).toUInt32 = UInt32.ofNat n := by
  rw [← UInt32.toNat_inj]
  simp
  omega

theorem toUInt32_ofNat16 {n : Nat} (h : n < 256 ^ 2) : (UInt16.ofNat n).toUInt32 = UInt32.ofNat n := by
  rw [← UInt32.toNat_inj]
  simp
  omega

theorem argument_incomplete {r : CborReader} {l : List UInt8} (hi : r.input.At l)
    (hl : (l.length : Int) < r.currentLength.toInt) (short : UInt32 → CborReader → CborReader × Option CborEvent)
    (long : CborReader → Pass) : r.argument short long = .leave .returned := by
  have hhas : r.input.hasBytes r.currentLength.toInt = false := by
    rw [hi.hasBytes]
    exact decide_eq_false (by omega)
  simp only [argument, hhas, Bool.false_eq_true, if_false]

theorem argument_read {r : CborReader} {l : List UInt8} {width : Nat} (hi : r.input.At l)
    (hw : Short width r.currentLength) (hl : width ≤ l.length)
    (short : UInt32 → CborReader → CborReader × Option CborEvent) (long : CborReader → Pass) :
    ∃ input : CborInput, input.At (l.drop width) ∧
      r.argument short long = .again (short (UInt32.ofNat (bigEndian (l.take width))) { r with input }) := by
  refine ⟨_, hi.skip hl, ?_⟩
  have hlt := bigEndian_lt (l.take width)
  rw [List.length_take, Nat.min_eq_left hl] at hlt
  have hget := hi.getBigEndian hl
  have hhas : r.input.hasBytes r.currentLength.toInt = true := by
    rw [hi.hasBytes, hw.toInt]
    exact decide_eq_true (by omega)
  unfold argument
  rw [if_pos hhas]
  generalize hc : r.currentLength = length at hw
  cases hw with
  | one =>
    rw [if_pos rfl, CborInput.getByte, hget]
    simp only [Option.map_some, reading, toUInt32_ofNat8 hlt]
  | two =>
    rw [if_neg (by decide), if_pos rfl, CborInput.getShort, hget]
    simp only [Option.map_some, reading, toUInt32_ofNat16 hlt]
  | four =>
    rw [if_neg (by decide), if_neg (by decide), if_pos rfl, CborInput.getInt, hget]
    simp only [Option.map_some, reading]

theorem argument_long {r : CborReader} {l : List UInt8} (hi : r.input.At l) (hc : r.currentLength = 8)
    (hl : 8 ≤ l.length) (short : UInt32 → CborReader → CborReader × Option CborEvent) (long : CborReader → Pass) :
    r.argument short long = long r := by
  have hhas : r.input.hasBytes r.currentLength.toInt = true := by
    rw [hi.hasBytes, hc]
    exact decide_eq_true (by simpa using hl)
  have h₁ : r.currentLength ≠ 1 := by rw [hc]; decide
  have h₂ : r.currentLength ≠ 2 := by rw [hc]; decide
  have h₄ : r.currentLength ≠ 4 := by rw [hc]; decide
  rw [argument, if_pos hhas, if_neg h₁, if_neg h₂, if_neg h₄, if_pos hc]

/-- What eight bytes of argument do. -/
def eight (major : Nat) (r : CborReader) : Pass :=
  match major with
  | 1 => .again (r, none)
  | 2 | 3 => reading r.input.getLong fun _ input =>
      .again ({ input, currentLength := 123, state := dataState major }, none)
  | 4 | 5 => .again ({ r with state := .type }, none)
  | _ => r.skipLong

theorem pass_argument {r : CborReader} {major : Nat} (hm : major < 8) (hs : r.state = argumentState major) :
    ∃ short, r.pass = r.argument short (eight major) ∧
      (∀ v r, major = 2 ∨ major = 3 → short v r = r.value major v) ∧
      ∀ v r, ¬ (major = 2 ∨ major = 3) → ∃ length,
        short v r = ({ r with state := .type, currentLength := length }, some (scalar major v)) := by
  interval_cases major <;> simp only [pass, hs, argumentState] <;> refine ⟨_, rfl, ?_, ?_⟩
  all_goals first
    | exact fun _ _ h => absurd h (by decide)
    | exact fun _ _ _ => rfl
    | exact fun _ _ h => absurd (by decide) h
    | exact fun _ _ _ => ⟨_, rfl⟩

theorem turns_argument {r : CborReader} {major width : Nat} {l : List UInt8} (hm : major < 8)
    (hs : r.state = argumentState major) (hw : Short width r.currentLength) (hi : r.input.At l) :
    Turns r (frameArgument major width l) r.pass := by
  obtain ⟨short, hpass, htext, hscalar⟩ := pass_argument hm hs
  by_cases hshort : l.length < width
  · rw [hpass, argument_incomplete hi (by rw [hw.toInt]; omega)]
    exact .incomplete (by rw [frameArgument, if_pos hshort])
  obtain ⟨input, hinput, hread⟩ := argument_read hi hw (by omega) short (eight major)
  rw [hpass, hread, frameArgument, if_neg hshort, frameValue]
  by_cases ht : major = 2 ∨ major = 3
  · rw [htext _ _ ht, value, if_pos ht, if_pos ht]
    refine .within (.payload ht rfl hinput) ?_
    rw [rank_argument hs, rank_data rfl]
    exact Nat.one_pos
  · obtain ⟨length, hlength⟩ := hscalar (UInt32.ofNat (bigEndian (l.take width))) { r with input } ht
    rw [hlength, if_neg ht]
    exact .item rfl rfl hinput

theorem turns_long {r : CborReader} {major : Nat} {l : List UInt8} (hm : major < 8)
    (hs : r.state = argumentState major) (hc : r.currentLength = 8) (hi : r.input.At l) :
    Turns r (frameLong major l) r.pass := by
  obtain ⟨short, hpass, -⟩ := pass_argument hm hs
  by_cases hshort : l.length < 8
  · have hl : (l.length : Int) < r.currentLength.toInt := by
      rw [hc]
      exact Int.ofNat_lt.mpr hshort
    rw [hpass, argument_incomplete hi hl]
    exact .incomplete (by simp only [frameLong, hshort, if_true])
  have hlen : 8 ≤ l.length := by omega
  have hget : ∃ v, r.input.getLong = some (v, { r.input with offset := r.input.offset + 8 }) := by
    rw [CborInput.getLong, hi.getBigEndian hlen]
    exact ⟨_, rfl⟩
  obtain ⟨v, hget⟩ := hget
  have hdata : ∀ {r' : CborReader}, r'.state = dataState major → r'.rank < r.rank := by
    intro r' hs'
    rw [rank_argument hs, rank_data hs']
    exact Nat.one_pos
  rw [hpass, argument_long hi hc hlen]
  simp only [frameLong, hshort, if_false]
  interval_cases major <;> simp only [eight, skipLong, hget, reading]
  · exact .item rfl rfl (hi.skip hlen)
  · exact .stuck rfl
  · exact .within (.payload (.inl rfl) rfl (hi.skip hlen)) (hdata rfl)
  · exact .within (.payload (.inr rfl) rfl (hi.skip hlen)) (hdata rfl)
  · exact .item rfl rfl hi
  · exact .item rfl rfl hi
  · exact .item rfl rfl (hi.skip hlen)
  · exact .item rfl rfl (hi.skip hlen)

theorem turns_header {r : CborReader} {l : List UInt8} (hs : r.state = .type) (hi : r.input.At l) :
    Turns r (frame l) r.pass := by
  have hpass : r.pass = r.type := by rw [pass, hs]
  cases l with
  | nil =>
    have hhas : r.input.hasBytes 1 = false := by
      rw [hi.hasBytes]
      rfl
    simp only [hpass, type, hhas, Bool.false_eq_true, if_false]
    exact .incomplete rfl
  | cons b l =>
    obtain ⟨input, hinput, htype⟩ := type_eq hi
    have hm := major_lt b
    have hargument : ∀ {r' : CborReader}, r'.state = argumentState (b >>> 5).toNat → r'.rank < r.rank := by
      intro r' hs'
      rw [rank_type hs, rank_argument hs']
      exact Nat.one_lt_two
    rw [hpass, htype]
    simp only [frame, header]
    generalize (b >>> 5).toNat = major at hm hargument ⊢
    generalize b &&& 31 = minor
    split
    · rw [frameValue, value]
      split
      · next ht =>
        refine .within (.payload ht rfl hinput) ?_
        rw [rank_type hs, rank_data rfl]
        exact Nat.two_pos
      · exact .item rfl hs hinput
    split
    · exact .within (.argument hm rfl .one hinput) (hargument rfl)
    split
    · exact .within (.argument hm rfl .two hinput) (hargument rfl)
    split
    · exact .within (.argument hm rfl .four hinput) (hargument rfl)
    split
    · exact .within (.long hm rfl rfl hinput) (hargument rfl)
    · exact .item rfl hs hinput

/-- **A pass does what the frame before the reader says.** -/
theorem Faces.turns {r : CborReader} {f : Frame} (h : r.Faces f) : Turns r f r.pass := by
  cases h with
  | header hs hi => exact turns_header hs hi
  | argument hm hs hw hi => exact turns_argument hm hs hw hi
  | long hm hs hc hi => exact turns_long hm hs hc hi
  | payload hm hs hi => exact turns_bytes hm hs hi

/-- Within an item there are only so many passes. -/
theorem Faces.does {r : CborReader} {f : Frame} (h : r.Faces f) : Does r f := by
  induction hn : r.rank using Nat.strong_induction_on generalizing r with
  | _ n ih =>
    have hturns := h.turns
    generalize hp : r.pass = p at hturns
    cases hturns with
    | within hfaces hrank => exact Does.quiet hp (ih _ (hn ▸ hrank) hfaces rfl)
    | item hf hs hi =>
      subst hf
      exact ⟨_, hs, hi, Leads.of_pass hp⟩
    | incomplete hf =>
      subst hf
      exact Leads.of_pass hp
    | stuck hf =>
      subst hf
      exact ⟨r, Leads.of_pass hp, hp⟩
    | overlong hf =>
      subst hf
      exact Leads.of_pass hp

/-- **The reader does what the bytes before it say.** -/
theorem does_frame {r : CborReader} {l : List UInt8} (hs : r.state = .type) (hi : r.input.At l) :
    Does r (frame l) :=
  (Faces.header hs hi).does

end CborReader

end Zql
