/-
The calls of a writer, any of them in any order, and the calls a reader makes
for the bytes: one for each, of the same kind and with the same value, and
nothing is left (`tokens_round_trip`).
-/
import Zql.Wire
import Zql.Passes

namespace Zql

open Looping

/-- A call of a `CborWriter`, but for those with 64-bit values. -/
inductive CborCall
  | int (value : Int32)
  | uint (value : UInt32)
  | bytes (data : List UInt8)
  | string (str : Str)
  | array (size : Int32)
  | map (size : Int32)
  | tag (tag : UInt32)
  | special (special : Int32)
  deriving DecidableEq

namespace CborCall

def write : CborCall → CborWriter → CborWriter
  | .int value => (·.writeInt value)
  | .uint value => (·.writeUInt value)
  | .bytes data => (·.writeBytes data)
  | .string str => (·.writeString str)
  | .array size => (·.writeArray size)
  | .map size => (·.writeMap size)
  | .tag t => (·.writeTag t)
  | .special code => (·.writeSpecial code)

/-- What the listener is told of it. An `unsigned int` comes back as an `int`
of the same bits. -/
def event : CborCall → CborEvent
  | .int value => .integer value
  | .uint value => .integer value.toInt32
  | .bytes data => .bytes data
  | .string str => .string str
  | .array size => .array size
  | .map size => .map size
  | .tag t => .tag t
  | .special code => .special code

/-- The bytes and the string a call hands over. -/
def payload : CborCall → List UInt8
  | .bytes data => data
  | .string str => str
  | _ => []

def majorType : CborCall → UInt32
  | .int value => if value < 0 then 1 else 0
  | .uint _ => 0
  | .bytes _ => 2
  | .string _ => 3
  | .array _ => 4
  | .map _ => 5
  | .tag _ => 6
  | .special _ => 7

def value : CborCall → UInt32
  | .int value => if value < 0 then (-value).toUInt32 else value.toUInt32
  | .uint value => value
  | .bytes data => UInt32.ofNat data.length
  | .string str => UInt32.ofNat str.length
  | .array size => size.toUInt32
  | .map size => size.toUInt32
  | .tag t => t
  | .special code => code.toUInt32

/-- The bytes of a call with room for them. -/
def encoding (c : CborCall) : List UInt8 := head c.majorType c.value ++ c.payload

theorem putBytes_nil (o : CborOutput) : o.putBytes [] = o := by
  unfold CborOutput.putBytes
  split
  · rw [List.append_nil]
  · rfl

theorem write_eq (c : CborCall) (w : CborWriter) :
    c.write w = ⟨(w.writeTypeAndValue c.majorType c.value).output.putBytes c.payload⟩ := by
  cases c with
  | bytes data => rfl
  | string str => rfl
  | int value =>
    simp only [write, CborWriter.writeInt, majorType, CborCall.value, payload, putBytes_nil]
    split <;> rfl
  | _ =>
    simp only [payload, putBytes_nil]
    rfl

theorem emits (c : CborCall) : Emits c.write c.encoding := by
  have hparts := (emits_head c.majorType c.value).comp (emits_putBytes c.payload)
  intro w hw
  rw [write_eq]
  exact hparts w hw

theorem majorType_lt (c : CborCall) : c.majorType < 8 := by
  cases c <;> simp only [majorType]
  case int => split <;> decide
  all_goals decide

theorem frame_encoding {c : CborCall} (h : c.payload.length < 2 ^ 31) (rest : List UInt8) :
    frame (c.encoding ++ rest) = .item (some c.event) rest := by
  have hplain : ∀ majorType value : UInt32, majorType < 8 → ¬ (majorType.toNat = 2 ∨ majorType.toNat = 3) →
      frame (head majorType value ++ [] ++ rest) = .item (some (scalar majorType.toNat value)) rest := by
    intro majorType value hm ht
    rw [List.append_nil]
    exact frame_scalar value hm ht rest
  cases c with
  | bytes data => exact frame_contents (.inl rfl) h rest
  | string str => exact frame_contents (.inr rfl) h rest
  | int value =>
    simp only [encoding, payload, majorType, CborCall.value]
    split
    · have hback : scalar (1 : UInt32).toNat (-value).toUInt32 = .integer value :=
        congrArg _ (Int32.neg_neg (a := value))
      rw [event, ← hback]
      exact hplain _ _ (by decide) (by decide)
    · exact hplain _ value.toUInt32 (by decide) (by decide)
  | uint value => exact hplain 0 value (by decide) (by decide)
  | array size => exact hplain 4 size.toUInt32 (by decide) (by decide)
  | map size => exact hplain 5 size.toUInt32 (by decide) (by decide)
  | tag t => exact hplain 6 t (by decide) (by decide)
  | special code => exact hplain 7 code.toUInt32 (by decide) (by decide)

end CborCall

/-! ## Sequences of calls -/

def writeAll (calls : List CborCall) (w : CborWriter) : CborWriter := calls.foldl (fun w c => c.write w) w

/-- The bytes of calls with room for all of them. -/
def encodings (calls : List CborCall) : List UInt8 := calls.flatMap CborCall.encoding

/-- The bytes calls leave in an output. -/
def written (calls : List CborCall) (capacity : Int) : List UInt8 :=
  (writeAll calls (.new (.new capacity))).output.data

theorem emits_writeAll (calls : List CborCall) : Emits (writeAll calls) (encodings calls) := by
  unfold writeAll encodings
  induction calls with
  | nil => exact puts_nil.emits
  | cons c calls ih => exact c.emits.comp ih

theorem written_eq {calls : List CborCall} {capacity : Int} (hroom : (encodings calls).length ≤ capacity) :
    written calls capacity = encodings calls := by
  rw [written, emits_writeAll calls (.new (.new capacity)) (by
    show ((0 : Nat) : Int) + _ ≤ capacity
    omega)]
  rfl

theorem payload_le {calls : List CborCall} {c : CborCall} (hc : c ∈ calls) :
    c.payload.length ≤ (encodings calls).length := by
  have hle : c.encoding.length ≤ (encodings calls).length :=
    (List.sublist_flatten_of_mem (List.mem_map_of_mem hc)).length_le
  rw [CborCall.encoding, List.length_append] at hle
  omega

theorem reads_encodings {calls : List CborCall} (h : ∀ c ∈ calls, c.payload.length < 2 ^ 31) (rest : List UInt8) :
    Reads (encodings calls ++ rest) (calls.map CborCall.event) rest := by
  induction calls with
  | nil => exact .done rest
  | cons c calls ih =>
    have hframe := CborCall.frame_encoding (h c List.mem_cons_self) (encodings calls ++ rest)
    rw [← List.append_assoc] at hframe
    exact .item hframe (ih fun c' hc => h c' (List.mem_cons_of_mem _ hc))

/-- **The calls of a writer come back one call for each, in order and with
the same values**, and the reader ends where an item would begin, with every
byte read. -/
theorem tokens_round_trip (calls : List CborCall) {capacity : Int} (hroom : (encodings calls).length ≤ capacity)
    (hcapacity : capacity < 2 ^ 31) :
    ∃ r, Reached (written calls capacity) r (calls.map CborCall.event) ∧ r.state = .type ∧
      r.input.offset = (written calls capacity).length ∧ r.pass = .leave .returned := by
  have hlength : (encodings calls).length < 2 ^ 31 := by omega
  have hsmall : ∀ c ∈ calls, c.payload.length < 2 ^ 31 := fun c hc => Nat.lt_of_le_of_lt (payload_le hc) hlength
  have hreads := reads_encodings hsmall []
  rw [List.append_nil] at hreads
  rw [written_eq hroom]
  obtain ⟨r, hr, hs, hi⟩ := reached_reads hlength hreads
  obtain ⟨-, -, -, hfollows⟩ := hr.within hlength
  refine ⟨r, hr, hs, offset_of_at hlength hfollows hi, ?_⟩
  have hhas : r.input.hasBytes 1 = false := by
    rw [hi.hasBytes]
    rfl
  simp only [CborReader.pass, hs, CborReader.type, hhas, Bool.false_eq_true, if_false]

/-- A call of each kind: a least `int`, a largest `unsigned int`, nothing for
bytes, and a string of what would be the head of an array. -/
def callOfEach : List CborCall :=
  [.int Int32.minValue, .uint 4294967295, .bytes [], .string [0x83], .array 300, .map 0, .tag 70000, .special 20]

theorem tokens_round_trip_callOfEach :
    ∃ r, Reached (written callOfEach 40) r (callOfEach.map CborCall.event) ∧ r.state = .type ∧
      r.input.offset = (written callOfEach 40).length ∧ r.pass = .leave .returned :=
  tokens_round_trip callOfEach (by decide) (by decide)

end Zql
