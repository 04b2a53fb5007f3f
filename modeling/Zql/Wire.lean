/-
What a writer puts and what a reader makes of it: the bytes of an item as a
writer with room enough puts them (`Emits`), and the call a reader makes
for them whatever comes after (`Encodes`).
-/
import Zql.Reading
import Zql.Serialize

namespace Zql

/-! ## Putting -/

/-- With room for them, the writer puts these bytes. -/
def Emits (f : CborWriter → CborWriter) (bytes : List UInt8) : Prop :=
  ∀ w : CborWriter, w.output.getSize + bytes.length ≤ w.output.capacity →
    f w = ⟨{ w.output with data := w.output.data ++ bytes }⟩

theorem Emits.comp {f g : CborWriter → CborWriter} {xs ys : List UInt8} (hf : Emits f xs) (hg : Emits g ys) :
    Emits (fun w => g (f w)) (xs ++ ys) := by
  intro w hw
  rw [List.length_append] at hw
  have hfirst : f w = _ := hf w (by omega)
  have hsecond := hg ⟨{ w.output with data := w.output.data ++ xs }⟩ (by
    simp only [CborOutput.getSize, List.length_append] at hw ⊢
    omega)
  simp only [hfirst, hsecond, List.append_assoc]

theorem emits_byte (value : UInt8) : Emits (fun w => ⟨w.output.putByte value⟩) [value] := by
  intro w hw
  have hroom : w.output.getSize < w.output.capacity := by
    rw [List.length_singleton] at hw
    omega
  simp only [CborOutput.putByte, if_pos hroom]

theorem emits_putByte (value : UInt32) : Emits (·.putByte value) [value.toUInt8] := emits_byte value.toUInt8

theorem emits_putByte64 (value : UInt64) : Emits (·.putByte64 value) [value.toUInt8] := emits_byte value.toUInt8

theorem emits_putBytes (data : List UInt8) : Emits (fun w => ⟨w.output.putBytes data⟩) data := by
  intro w hw
  have hroom : w.output.getSize + data.length - 1 < w.output.capacity := by omega
  simp only [CborOutput.putBytes, if_pos hroom]

/-- The head of an item: its major type and a value, in as many bytes as
the value takes. -/
def head (majorType value : UInt32) : List UInt8 :=
  let majorType := majorType <<< 5
  if value < 24 then [(majorType ||| value).toUInt8]
  else if value < 256 then [(majorType ||| 24).toUInt8, value.toUInt8]
  else if value < 65536 then [(majorType ||| 25).toUInt8, (value >>> 8).toUInt8, value.toUInt8]
  else
    [(majorType ||| 26).toUInt8, (value >>> 24).toUInt8, (value >>> 16).toUInt8, (value >>> 8).toUInt8, value.toUInt8]

theorem emits_head (majorType value : UInt32) : Emits (·.writeTypeAndValue majorType value) (head majorType value) := by
  unfold CborWriter.writeTypeAndValue head
  split
  · exact emits_putByte _
  split
  · exact (emits_putByte _).comp (emits_putByte _)
  split
  · exact ((emits_putByte _).comp (emits_putByte _)).comp (emits_putByte _)
  · exact ((((emits_putByte _).comp (emits_putByte _)).comp (emits_putByte _)).comp (emits_putByte _)).comp
      (emits_putByte _)

theorem head_pos (majorType value : UInt32) : 0 < (head majorType value).length := by
  unfold head
  split
  · simp
  split
  · simp
  split <;> simp

/-- The head of an item with a value of up to eight bytes. The second byte
of a value of two is not put. -/
def head64 (majorType value : UInt64) : List UInt8 :=
  let majorType := majorType <<< 5
  if value < 24 then [(majorType ||| value).toUInt8]
  else if value < 256 then [(majorType ||| 24).toUInt8, value.toUInt8]
  else if value < 65536 then [(majorType ||| 25).toUInt8, (value >>> 8).toUInt8]
  else if value < 4294967296 then
    [(majorType ||| 26).toUInt8, (value >>> 24).toUInt8, (value >>> 16).toUInt8, (value >>> 8).toUInt8, value.toUInt8]
  else
    [(majorType ||| 27).toUInt8, (value >>> 56).toUInt8, (value >>> 48).toUInt8, (value >>> 40).toUInt8,
      (value >>> 32).toUInt8, (value >>> 24).toUInt8, (value >>> 16).toUInt8, (value >>> 8).toUInt8, value.toUInt8]

theorem emits_head64 (majorType value : UInt64) :
    Emits (·.writeTypeAndValue64 majorType value) (head64 majorType value) := by
  unfold CborWriter.writeTypeAndValue64 head64
  split
  · exact emits_putByte64 _
  split
  · exact (emits_putByte64 _).comp (emits_putByte64 _)
  split
  · exact (emits_putByte64 _).comp (emits_putByte64 _)
  split
  · exact ((((emits_putByte64 _).comp (emits_putByte64 _)).comp (emits_putByte64 _)).comp (emits_putByte64 _)).comp
      (emits_putByte64 _)
  · exact ((((((((emits_putByte64 _).comp (emits_putByte64 _)).comp (emits_putByte64 _)).comp
      (emits_putByte64 _)).comp (emits_putByte64 _)).comp (emits_putByte64 _)).comp (emits_putByte64 _)).comp
      (emits_putByte64 _)).comp (emits_putByte64 _)

/-! ## Reading back -/

/-- The reader makes these calls for the bytes, whatever comes after them. -/
def Encodes (bytes : List UInt8) (events : List CborEvent) : Prop :=
  ∀ rest, items (bytes ++ rest) = events ++ items rest ∧ (Readable rest → Readable (bytes ++ rest))

theorem Encodes.nil : Encodes [] [] := fun _ => ⟨rfl, id⟩

theorem Encodes.append {xs ys : List UInt8} {es fs : List CborEvent} (hx : Encodes xs es) (hy : Encodes ys fs) :
    Encodes (xs ++ ys) (es ++ fs) := by
  intro rest
  obtain ⟨hxi, hxr⟩ := hx (ys ++ rest)
  obtain ⟨hyi, hyr⟩ := hy rest
  rw [List.append_assoc, List.append_assoc, hxi, hyi]
  exact ⟨rfl, fun h => hxr (hyr h)⟩

theorem readable_item {l rest : List UInt8} {event : Option CborEvent} (hf : frame l = .item event rest)
    (h : Readable rest) : Readable l := by
  intro l' hb
  cases hb with
  | start _ =>
    refine ⟨fun hl => ?_, fun hl => ?_⟩
    · rw [frame_stuck_iff.mpr hl] at hf
      cases hf
    · rw [frame_overlong_iff.mpr hl] at hf
      cases hf
  | item hf' hb =>
    rw [hf] at hf'
    cases hf'
    exact h l' hb

theorem encodes_item {bytes : List UInt8} {event : CborEvent}
    (h : ∀ rest, frame (bytes ++ rest) = .item (some event) rest) : Encodes bytes [event] :=
  fun rest => ⟨items_item (h rest), readable_item (h rest)⟩

theorem head_byte {majorType : UInt32} (minor : UInt32) (hm : majorType < 8) (hn : minor < 32) :
    ((majorType <<< 5 ||| minor).toUInt8 >>> 5).toNat = majorType.toNat ∧
      (majorType <<< 5 ||| minor).toUInt8 &&& 31 = minor.toUInt8 := by
  have hm : majorType.toNat < 8 := hm
  have hn : minor.toNat < 32 := hn
  have hnat : (majorType <<< 5 ||| minor).toUInt8.toNat = majorType.toNat * 32 + minor.toNat := by
    have hshift : (majorType <<< 5).toNat = majorType.toNat <<< 5 := by
      rw [UInt32.toNat_shiftLeft, show (5 : UInt32).toNat % 32 = 5 from rfl]
      exact Nat.mod_eq_of_lt (by rw [Nat.shiftLeft_eq]; omega)
    rw [UInt32.toNat_toUInt8, UInt32.toNat_or, hshift,
      ← Nat.shiftLeft_add_eq_or_of_lt (show minor.toNat < 2 ^ 5 from hn), Nat.shiftLeft_eq]
    omega
  constructor
  · rw [UInt8.toNat_shiftRight, Nat.shiftRight_eq_div_pow, hnat]
    show (majorType.toNat * 32 + minor.toNat) / 32 = _
    omega
  · rw [← UInt8.toNat_inj, UInt8.toNat_and, show (31 : UInt8).toNat = 2 ^ 5 - 1 from rfl,
      Nat.and_two_pow_sub_one_eq_mod, hnat, UInt32.toNat_toUInt8]
    omega

theorem shift_toNat (value : UInt32) {k : UInt32} (hk : k.toNat < 32) :
    (value >>> k).toNat = value.toNat / 2 ^ k.toNat := by
  rw [UInt32.toNat_shiftRight, Nat.mod_eq_of_lt hk, Nat.shiftRight_eq_div_pow]

theorem bigEndian_one {value : UInt32} (h : value.toNat < 256) :
    UInt32.ofNat (bigEndian [value.toUInt8]) = value := by
  rw [← UInt32.toNat_inj]
  simp only [bigEndian, List.foldl_cons, List.foldl_nil, UInt32.toNat_toUInt8, UInt32.toNat_ofNat']
  omega

theorem bigEndian_two {value : UInt32} (h : value.toNat < 65536) :
    UInt32.ofNat (bigEndian [(value >>> 8).toUInt8, value.toUInt8]) = value := by
  have h₁ : (value >>> 8).toNat = value.toNat / 256 := shift_toNat value (by decide)
  rw [← UInt32.toNat_inj]
  simp only [bigEndian, List.foldl_cons, List.foldl_nil, UInt32.toNat_toUInt8, UInt32.toNat_ofNat', h₁]
  omega

theorem bigEndian_four (value : UInt32) :
    UInt32.ofNat (bigEndian [(value >>> 24).toUInt8, (value >>> 16).toUInt8, (value >>> 8).toUInt8, value.toUInt8]) =
      value := by
  have h := value.toNat_lt
  have h₁ : (value >>> 8).toNat = value.toNat / 256 := shift_toNat value (by decide)
  have h₂ : (value >>> 16).toNat = value.toNat / 65536 := shift_toNat value (by decide)
  have h₃ : (value >>> 24).toNat = value.toNat / 16777216 := shift_toNat value (by decide)
  rw [← UInt32.toNat_inj]
  simp only [bigEndian, List.foldl_cons, List.foldl_nil, UInt32.toNat_toUInt8, UInt32.toNat_ofNat', h₁, h₂, h₃]
  omega

theorem frameArgument_append (major : Nat) (bytes rest : List UInt8) :
    frameArgument major bytes.length (bytes ++ rest) = frameValue major (UInt32.ofNat (bigEndian bytes)) rest := by
  rw [frameArgument, if_neg (by simp), List.take_left, List.drop_left]

/-- The minor types of heads with a value after them, and its bytes. -/
inductive Wide : UInt32 → Nat → Prop
  | one : Wide 24 1
  | two : Wide 25 2
  | four : Wide 26 4

theorem frame_wide {majorType minor : UInt32} {width : Nat} (hw : Wide minor width) (hm : majorType < 8)
    (l : List UInt8) :
    frame ((majorType <<< 5 ||| minor).toUInt8 :: l) = frameArgument majorType.toNat width l := by
  obtain ⟨hmajor, hminor⟩ := head_byte minor hm (by cases hw <;> decide)
  simp only [frame, hmajor, hminor]
  cases hw <;> rfl

/-- **The head of an item is read as the value it was put for.** -/
theorem frame_head {majorType : UInt32} (value : UInt32) (hm : majorType < 8) (rest : List UInt8) :
    frame (head majorType value ++ rest) = frameValue majorType.toNat value rest := by
  unfold head
  split
  · next hv =>
    have hv : value.toNat < 24 := hv
    obtain ⟨hmajor, hminor⟩ := head_byte value hm (show value.toNat < 32 by omega)
    have hlt : value.toUInt8 < 24 := by
      rw [UInt8.lt_iff_toNat_lt, UInt32.toNat_toUInt8]
      show value.toNat % 2 ^ 8 < 24
      omega
    have hback : value.toUInt8.toUInt32 = value := by
      rw [← UInt32.toNat_inj, UInt8.toNat_toUInt32, UInt32.toNat_toUInt8]
      omega
    simp only [List.cons_append, List.nil_append, frame, hmajor, hminor, if_pos hlt, hback]
  split
  · next hv =>
    exact (frame_wide .one hm _).trans ((frameArgument_append _ [_] rest).trans (by rw [bigEndian_one hv]))
  split
  · next hv =>
    exact (frame_wide .two hm _).trans ((frameArgument_append _ [_, _] rest).trans (by rw [bigEndian_two hv]))
  · exact (frame_wide .four hm _).trans ((frameArgument_append _ [_, _, _, _] rest).trans (by rw [bigEndian_four]))

/-! ## Items -/

theorem frame_scalar {majorType : UInt32} (value : UInt32) (hm : majorType < 8)
    (ht : ¬ (majorType.toNat = 2 ∨ majorType.toNat = 3)) (rest : List UInt8) :
    frame (head majorType value ++ rest) = .item (some (scalar majorType.toNat value)) rest := by
  rw [frame_head value hm, frameValue, if_neg ht]

theorem frame_contents {majorType : UInt32} {data : List UInt8} (hm : majorType = 2 ∨ majorType = 3)
    (hl : data.length < 2 ^ 31) (rest : List UInt8) :
    frame (head majorType (UInt32.ofNat data.length) ++ data ++ rest) =
      .item (some (contents majorType.toNat data)) rest := by
  have hlt : majorType < 8 := by rcases hm with rfl | rfl <;> decide
  have ht : majorType.toNat = 2 ∨ majorType.toNat = 3 := by rcases hm with rfl | rfl <;> decide
  have hsize : (UInt32.ofNat data.length).toInt32.toInt = data.length := by
    rw [UInt32.toInt32_ofNat', Int32.toInt_ofNat_of_lt hl]
  rw [List.append_assoc, frame_head _ hlt, frameValue, if_pos ht, frameBytes, hsize, if_neg (by omega),
    Int.toNat_natCast, if_neg (by simp), List.take_left, List.drop_left]

theorem encodes_scalar {majorType : UInt32} (value : UInt32) (hm : majorType < 8)
    (ht : ¬ (majorType.toNat = 2 ∨ majorType.toNat = 3)) :
    Encodes (head majorType value) [scalar majorType.toNat value] :=
  encodes_item (frame_scalar value hm ht)

theorem encodes_contents {majorType : UInt32} {data : List UInt8} (hm : majorType = 2 ∨ majorType = 3)
    (hl : data.length < 2 ^ 31) :
    Encodes (head majorType (UInt32.ofNat data.length) ++ data) [contents majorType.toNat data] :=
  encodes_item (frame_contents hm hl)

/-! ## Writing -/

/-- The bytes are put, and read back as the calls unless there are too many
of them. -/
structure Puts (f : CborWriter → CborWriter) (bytes : List UInt8) (events : List CborEvent) : Prop where
  emits : Emits f bytes
  encodes : bytes.length < 2 ^ 31 → Encodes bytes events

theorem Puts.comp {f g : CborWriter → CborWriter} {xs ys : List UInt8} {es fs : List CborEvent} (hf : Puts f xs es)
    (hg : Puts g ys fs) : Puts (fun w => g (f w)) (xs ++ ys) (es ++ fs) where
  emits := hf.emits.comp hg.emits
  encodes := by
    intro h
    rw [List.length_append] at h
    exact (hf.encodes (by omega)).append (hg.encodes (by omega))

theorem puts_nil : Puts id [] [] where
  emits := by
    intro w _
    simp
  encodes := fun _ => .nil

theorem puts_scalar {majorType : UInt32} (value : UInt32) (hm : majorType < 8)
    (ht : ¬ (majorType.toNat = 2 ∨ majorType.toNat = 3)) :
    Puts (·.writeTypeAndValue majorType value) (head majorType value) [scalar majorType.toNat value] where
  emits := emits_head majorType value
  encodes := fun _ => encodes_scalar value hm ht

theorem puts_contents {majorType : UInt32} (data : List UInt8) (hm : majorType = 2 ∨ majorType = 3) :
    Puts (fun w => ⟨(w.writeTypeAndValue majorType (UInt32.ofNat data.length)).output.putBytes data⟩)
      (head majorType (UInt32.ofNat data.length) ++ data) [contents majorType.toNat data] where
  emits := (emits_head majorType _).comp (emits_putBytes data)
  encodes := by
    intro h
    rw [List.length_append] at h
    exact encodes_contents hm (by omega)

theorem puts_writeUInt (value : UInt32) : Puts (·.writeUInt value) (head 0 value) [.integer value.toInt32] :=
  puts_scalar value (by decide) (by decide)

def intBytes (value : Int32) : List UInt8 := if value < 0 then head 1 (-value).toUInt32 else head 0 value.toUInt32

theorem puts_writeInt (value : Int32) : Puts (·.writeInt value) (intBytes value) [.integer value] := by
  unfold CborWriter.writeInt intBytes
  split
  · have hback : scalar (1 : UInt32).toNat (-value).toUInt32 = .integer value := congrArg _ (Int32.neg_neg (a := value))
    rw [← hback]
    exact puts_scalar (-value).toUInt32 (by decide) (by decide)
  · exact puts_scalar value.toUInt32 (by decide) (by decide)

def contentsBytes (majorType : UInt32) (data : List UInt8) : List UInt8 :=
  head majorType (UInt32.ofNat data.length) ++ data

theorem puts_writeBytes (data : List UInt8) : Puts (·.writeBytes data) (contentsBytes 2 data) [.bytes data] :=
  puts_contents data (.inl rfl)

theorem puts_writeString (str : Str) : Puts (·.writeString str) (contentsBytes 3 str) [.string str] :=
  puts_contents str (.inr rfl)

theorem puts_writeArray (size : Int32) : Puts (·.writeArray size) (head 4 size.toUInt32) [.array size] :=
  puts_scalar size.toUInt32 (by decide) (by decide)

theorem puts_writeMap (size : Int32) : Puts (·.writeMap size) (head 5 size.toUInt32) [.map size] :=
  puts_scalar size.toUInt32 (by decide) (by decide)

theorem puts_writeTag (tag : UInt32) : Puts (·.writeTag tag) (head 6 tag) [.tag tag] :=
  puts_scalar tag (by decide) (by decide)

end Zql
