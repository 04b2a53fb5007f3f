/-
The encoding: `CborInput` over the bytes of a message, `CborReader` as the
body of its loop, `CborOutput` and `CborWriter`.

An `int` is an `Int32` and an `unsigned int` a `UInt32` where a value is
converted from one to the other; sizes and offsets, which are compared and
added but never wrap, are integers. A read outside of the data has no
result. `new unsigned char[n]` throws when `n` is negative.

The reader calls its listener at most once in a pass of its loop: a pass is
told by the reader after it and the call it made.
-/
import Zql.Objects
import Zql.Lib.Loop

namespace Zql

open Looping (Turn)

/-! ## Input -/

structure CborInput where
  data : List UInt8
  size : Int
  offset : Nat
  deriving DecidableEq

/-- The input over a whole message. Its size is passed as an `int`. -/
def CborInput.new (data : List UInt8) : CborInput :=
  { data, size := (data.length : Int).bmod (2 ^ 32), offset := 0 }

def CborInput.hasBytes (i : CborInput) (count : Int) : Bool := i.size - i.offset ≥ count

/-- The `n` bytes at the offset as a number, the first the highest: `getByte`,
`getShort`, `getInt` and `getLong` differ in `n` alone. -/
def CborInput.getBigEndian (n : Nat) (i : CborInput) : Option (Nat × CborInput) :=
  let bytes := (i.data.drop i.offset).take n
  if bytes.length = n then
    some (bytes.foldl (fun value b => value * 256 + b.toNat) 0, { i with offset := i.offset + n })
  else none

def CborInput.getByte (i : CborInput) : Option (UInt8 × CborInput) :=
  (i.getBigEndian 1).map fun (value, i) => (UInt8.ofNat value, i)

def CborInput.getShort (i : CborInput) : Option (UInt16 × CborInput) :=
  (i.getBigEndian 2).map fun (value, i) => (UInt16.ofNat value, i)

def CborInput.getInt (i : CborInput) : Option (UInt32 × CborInput) :=
  (i.getBigEndian 4).map fun (value, i) => (UInt32.ofNat value, i)

def CborInput.getLong (i : CborInput) : Option (UInt64 × CborInput) :=
  (i.getBigEndian 8).map fun (value, i) => (UInt64.ofNat value, i)

def CborInput.getBytes (i : CborInput) (count : Nat) : Option (List UInt8 × CborInput) :=
  let bytes := (i.data.drop i.offset).take count
  if bytes.length = count then some (bytes, { i with offset := i.offset + count }) else none

/-! ## Reader -/

inductive CborReaderState
  | type
  | pint
  | nint
  | bytesSize
  | bytesData
  | stringSize
  | stringData
  | array
  | map
  | tag
  | special
  deriving DecidableEq

/-- A call of a `CborListener`. -/
inductive CborEvent
  | integer (value : Int32)
  | bytes (data : List UInt8)
  | string (str : Str)
  | array (size : Int32)
  | map (size : Int32)
  | tag (tag : UInt32)
  | special (code : Int32)
  | error (error : String)
  deriving DecidableEq

structure CborReader where
  input : CborInput
  state : CborReaderState
  currentLength : Int32
  deriving DecidableEq

/-- A reader from `STATE_TYPE`. Its length is set before it is read. -/
def CborReader.new (input : CborInput) : CborReader := { input, state := .type, currentLength := 0 }

/-- How `Run` ends. -/
inductive CborEnd
  /-- It returns. -/
  | returned
  /-- An allocation of a negative size throws. -/
  | thrown
  /-- A read outside of the data. -/
  | outOfBounds
  deriving DecidableEq

/-- A pass of the loop of `Run`. -/
abbrev CborReader.Pass := Turn (CborReader × Option CborEvent) CborEnd

/-- The pass goes on with what was read, if it could be. -/
def CborReader.reading {α : Type} (read : Option (α × CborInput)) (next : α → CborInput → Pass) : Pass :=
  match read with
  | some (value, input) => next value input
  | none => .leave .outOfBounds

/-- A case of the switch on the major type: a minor type below 24 does
`small`, the next four announce a length in another state. -/
def CborReader.header (r : CborReader) (minorType : UInt8) (small : CborReader × Option CborEvent)
    (state : CborReaderState) (error : String) : Pass :=
  if minorType < 24 then .again small
  else if minorType = 24 then .again ({ r with currentLength := 1, state }, none)
  else if minorType = 25 then .again ({ r with currentLength := 2, state }, none)
  else if minorType = 26 then .again ({ r with currentLength := 4, state }, none)
  else if minorType = 27 then .again ({ r with currentLength := 8, state }, none)
  else .again (r, some (.error error))

def CborReader.type (r : CborReader) : Pass :=
  if r.input.hasBytes 1 then
    reading r.input.getByte fun type input =>
      let r := { r with input }
      let majorType := type >>> 5
      let minorType := type &&& 31
      let minor := minorType.toUInt32.toInt32
      match majorType.toNat with
      | 0 => r.header minorType (r, some (.integer minor)) .pint "invalid integer type"
      | 1 => r.header minorType (r, some (.integer (-minor))) .nint "invalid integer type"
      | 2 => r.header minorType ({ r with state := .bytesData, currentLength := minor }, none) .bytesSize
          "invalid bytes type"
      | 3 => r.header minorType ({ r with state := .stringData, currentLength := minor }, none) .stringSize
          "invalid string type"
      | 4 => r.header minorType (r, some (.array minor)) .array "invalid array type"
      | 5 => r.header minorType (r, some (.map minor)) .map "invalid array type"
      | 6 => r.header minorType (r, some (.tag minorType.toUInt32)) .tag "invalid tag type"
      | 7 => r.header minorType (r, some (.special minor)) .special "invalid special type"
      | _ => .again (r, none)
  else .leave .returned

/-- The states that read an argument: a switch on its length, where lengths
1, 2 and 4 do `short` with its value and length 8 does `long`. -/
def CborReader.argument (r : CborReader) (short : UInt32 → CborReader → CborReader × Option CborEvent)
    (long : CborReader → Pass) : Pass :=
  if r.input.hasBytes r.currentLength.toInt then
    if r.currentLength = 1 then
      reading r.input.getByte fun value input => .again (short value.toUInt32 { r with input })
    else if r.currentLength = 2 then
      reading r.input.getShort fun value input => .again (short value.toUInt32 { r with input })
    else if r.currentLength = 4 then
      reading r.input.getInt fun value input => .again (short value { r with input })
    else if r.currentLength = 8 then long r
    else .again (r, none)
  else .leave .returned

/-- `input->getLong(); state = STATE_TYPE;` with the value left aside. -/
def CborReader.skipLong (r : CborReader) : Pass :=
  reading r.input.getLong fun _ input => .again ({ r with input, state := .type }, none)

/-- The states that read bytes into a new array. -/
def CborReader.payload (r : CborReader) (event : List UInt8 → CborEvent) : Pass :=
  if r.input.hasBytes r.currentLength.toInt then
    if r.currentLength.toInt < 0 then .leave .thrown
    else
      reading (r.input.getBytes r.currentLength.toInt.toNat) fun data input =>
        .again ({ r with input, state := .type }, some (event data))
  else .leave .returned

/-- A pass of the loop of `CborReader::Run`. -/
def CborReader.pass (r : CborReader) : Pass :=
  match r.state with
  | .type => r.type
  | .pint =>
    r.argument (fun value r => ({ r with state := .type }, some (.integer value.toInt32))) skipLong
  | .nint =>
    -- eight bytes are neither read nor is the state changed
    r.argument (fun value r => ({ r with state := .type }, some (.integer (-value.toInt32)))) fun r =>
      .again (r, none)
  | .bytesSize =>
    r.argument (fun value r => ({ r with currentLength := value.toInt32, state := .bytesData }, none)) fun r =>
      reading r.input.getLong fun _ input =>
        .again ({ input, currentLength := 123, state := .bytesData }, none)
  | .bytesData => r.payload .bytes
  | .stringSize =>
    r.argument (fun value r => ({ r with currentLength := value.toInt32, state := .stringData }, none)) fun r =>
      reading r.input.getLong fun _ input =>
        .again ({ input, currentLength := 123, state := .stringData }, none)
  | .stringData => r.payload .string
  | .array =>
    r.argument (fun value r =>
        ({ r with
            state := .type
            currentLength := if r.currentLength = 2 then value.toInt32 else r.currentLength },
          some (.array value.toInt32))) fun r =>
      .again ({ r with state := .type }, none)
  | .map =>
    r.argument (fun value r =>
        ({ r with
            state := .type
            currentLength := if r.currentLength = 2 then value.toInt32 else r.currentLength },
          some (.map value.toInt32))) fun r =>
      .again ({ r with state := .type }, none)
  | .tag => r.argument (fun value r => ({ r with state := .type }, some (.tag value))) skipLong
  | .special =>
    r.argument (fun value r => ({ r with state := .type }, some (.special value.toInt32))) skipLong

/-- The loop of `Run` with its listener, whose state is an `L`. A listener
may fail, and then so does `Run`. -/
def CborReader.body {L E : Type*} (on : L → CborEvent → Except E L) (s : CborReader × L) :
    Turn (CborReader × L) (Except E (CborEnd × L)) :=
  match s.1.pass with
  | .again (r, none) => .again (r, s.2)
  | .again (r, some event) =>
    match on s.2 event with
    | .ok l => .again (r, l)
    | .error e => .leave (.error e)
  | .leave e => .leave (.ok (e, s.2))

/-- `Run`, for at most so many passes of its loop. -/
def CborReader.run {L E : Type*} (on : L → CborEvent → Except E L) (fuel : Nat) (r : CborReader) (l : L) :
    Option (Except E (CborEnd × L)) :=
  Looping.loop (body on) fuel (r, l)

/-! ## Output -/

/-- The bytes put so far: as many as the offset says. -/
structure CborOutput where
  capacity : Int
  data : List UInt8
  deriving DecidableEq

def CborOutput.new (capacity : Int) : CborOutput := { capacity, data := [] }

def CborOutput.getSize (o : CborOutput) : Int := o.data.length

/-- A byte with no room is dropped: the source logs "buffer overflow error". -/
def CborOutput.putByte (o : CborOutput) (value : UInt8) : CborOutput :=
  if o.getSize < o.capacity then { o with data := o.data ++ [value] } else o

/-- Bytes with no room for all of them are dropped. -/
def CborOutput.putBytes (o : CborOutput) (data : List UInt8) : CborOutput :=
  if o.getSize + data.length - 1 < o.capacity then { o with data := o.data ++ data } else o

/-! ## Writer -/

structure CborWriter where
  output : CborOutput
  deriving DecidableEq

def CborWriter.new (output : CborOutput) : CborWriter := ⟨output⟩

/-- `output->putByte(value)` for an `unsigned int`: its lowest byte. -/
def CborWriter.putByte (w : CborWriter) (value : UInt32) : CborWriter := ⟨w.output.putByte value.toUInt8⟩

def CborWriter.writeTypeAndValue (w : CborWriter) (majorType value : UInt32) : CborWriter :=
  let majorType := majorType <<< 5
  if value < 24 then
    w.putByte (majorType ||| value)
  else if value < 256 then
    (w.putByte (majorType ||| 24)).putByte value
  else if value < 65536 then
    ((w.putByte (majorType ||| 25)).putByte (value >>> 8)).putByte value
  else
    ((((w.putByte (majorType ||| 26)).putByte (value >>> 24)).putByte (value >>> 16)).putByte
      (value >>> 8)).putByte value

def CborWriter.putByte64 (w : CborWriter) (value : UInt64) : CborWriter := ⟨w.output.putByte value.toUInt8⟩

/-- For an `unsigned long long`. Two bytes are announced below 65536, and
one is put. -/
def CborWriter.writeTypeAndValue64 (w : CborWriter) (majorType value : UInt64) : CborWriter :=
  let majorType := majorType <<< 5
  if value < 24 then
    w.putByte64 (majorType ||| value)
  else if value < 256 then
    (w.putByte64 (majorType ||| 24)).putByte64 value
  else if value < 65536 then
    (w.putByte64 (majorType ||| 25)).putByte64 (value >>> 8)
  else if value < 4294967296 then
    ((((w.putByte64 (majorType ||| 26)).putByte64 (value >>> 24)).putByte64 (value >>> 16)).putByte64
      (value >>> 8)).putByte64 value
  else
    ((((((((w.putByte64 (majorType ||| 27)).putByte64 (value >>> 56)).putByte64 (value >>> 48)).putByte64
      (value >>> 40)).putByte64 (value >>> 32)).putByte64 (value >>> 24)).putByte64 (value >>> 16)).putByte64
      (value >>> 8)).putByte64 value

/-- `writeInt(unsigned int)`. -/
def CborWriter.writeUInt (w : CborWriter) (value : UInt32) : CborWriter := w.writeTypeAndValue 0 value

/-- `writeInt(unsigned long long)`. -/
def CborWriter.writeUInt64 (w : CborWriter) (value : UInt64) : CborWriter := w.writeTypeAndValue64 0 value

/-- `writeInt(int)`. -/
def CborWriter.writeInt (w : CborWriter) (value : Int32) : CborWriter :=
  if value < 0 then w.writeTypeAndValue 1 (-value).toUInt32 else w.writeTypeAndValue 0 value.toUInt32

/-- `writeInt(long long)`. -/
def CborWriter.writeInt64 (w : CborWriter) (value : Int64) : CborWriter :=
  if value < 0 then w.writeTypeAndValue64 1 (-value).toUInt64 else w.writeTypeAndValue64 0 value.toUInt64

def CborWriter.writeBytes (w : CborWriter) (data : List UInt8) : CborWriter :=
  ⟨(w.writeTypeAndValue 2 (UInt32.ofNat data.length)).output.putBytes data⟩

def CborWriter.writeString (w : CborWriter) (str : Str) : CborWriter :=
  ⟨(w.writeTypeAndValue 3 (UInt32.ofNat str.length)).output.putBytes str⟩

def CborWriter.writeArray (w : CborWriter) (size : Int32) : CborWriter := w.writeTypeAndValue 4 size.toUInt32

def CborWriter.writeMap (w : CborWriter) (size : Int32) : CborWriter := w.writeTypeAndValue 5 size.toUInt32

def CborWriter.writeTag (w : CborWriter) (tag : UInt32) : CborWriter := w.writeTypeAndValue 6 tag

def CborWriter.writeSpecial (w : CborWriter) (special : Int32) : CborWriter :=
  w.writeTypeAndValue 7 special.toUInt32

end Zql
