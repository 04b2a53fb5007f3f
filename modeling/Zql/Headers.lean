/-
Headers against RFC 7049: a major type, and an argument in the header or in
the one, two, four or eight bytes after it, in the shortest of these forms.

`writeTypeAndValue(int, unsigned int)` puts the shortest form of every
value. Its copy for `unsigned long long` announces two bytes below 65536
and puts one of them (`headers_agree_iff`). Negative integers are put under
major type 1 as `-v`, where the standard has `-1 - v`, and the reader takes
them the same way (`integers_conform_iff`).
-/
import Zql.Wire
import Zql.Items

namespace Zql

open Looping

/-- The shortest place with room for an argument. -/
def shortest (argument : Nat) : Width :=
  if argument < 24 then .immediate
  else if argument < 256 then .one
  else if argument < 65536 then .two
  else if argument < 4294967296 then .four
  else .eight

/-- The bytes of a header with its argument. -/
def header (major : Nat) (width : Width) (argument : Nat) : List UInt8 :=
  UInt8.ofNat (major * 32 + width.minor argument) :: bigEndianBytes width.size argument

/-- A complete header in the shortest form: its additional information
announces the bytes that follow, and these are the value. -/
def IsHeader (major value : Nat) (bytes : List UInt8) : Prop :=
  ∃ first rest, bytes = first :: rest ∧ (first >>> 5).toNat = major ∧
    (first &&& 31).toNat = (shortest value).minor value ∧ rest.length = (shortest value).size ∧
    (shortest value ≠ .immediate → bigEndian rest = value)

/-! ## What the writers put -/

theorem first_byte {majorType minor : UInt32} (hm : majorType < 8) (hn : minor < 32) :
    (majorType <<< 5 ||| minor).toUInt8 = UInt8.ofNat (majorType.toNat * 32 + minor.toNat) := by
  have hm : majorType.toNat < 8 := hm
  have hshift : (majorType <<< 5).toNat = majorType.toNat <<< 5 := by
    rw [UInt32.toNat_shiftLeft, show (5 : UInt32).toNat % 32 = 5 from rfl]
    exact Nat.mod_eq_of_lt (by rw [Nat.shiftLeft_eq]; omega)
  rw [← UInt8.toNat_inj, UInt32.toNat_toUInt8, UInt32.toNat_or, hshift,
    ← Nat.shiftLeft_add_eq_or_of_lt (show minor.toNat < 2 ^ 5 from hn), Nat.shiftLeft_eq, UInt8.toNat_ofNat']

theorem first_byte64 {majorType minor : UInt64} (hm : majorType < 8) (hn : minor < 32) :
    (majorType <<< 5 ||| minor).toUInt8 = UInt8.ofNat (majorType.toNat * 32 + minor.toNat) := by
  have hm : majorType.toNat < 8 := hm
  have hshift : (majorType <<< 5).toNat = majorType.toNat <<< 5 := by
    rw [UInt64.toNat_shiftLeft, show (5 : UInt64).toNat % 64 = 5 from rfl]
    exact Nat.mod_eq_of_lt (by rw [Nat.shiftLeft_eq]; omega)
  rw [← UInt8.toNat_inj, UInt64.toNat_toUInt8, UInt64.toNat_or, hshift,
    ← Nat.shiftLeft_add_eq_or_of_lt (show minor.toNat < 2 ^ 5 from hn), Nat.shiftLeft_eq, UInt8.toNat_ofNat']

theorem value_byte (value : UInt32) : value.toUInt8 = UInt8.ofNat value.toNat := by
  rw [← UInt8.toNat_inj, UInt32.toNat_toUInt8, UInt8.toNat_ofNat']

theorem value_byte64 (value : UInt64) : value.toUInt8 = UInt8.ofNat value.toNat := by
  rw [← UInt8.toNat_inj, UInt64.toNat_toUInt8, UInt8.toNat_ofNat']

theorem shifted_byte (value : UInt32) {k : UInt32} (hk : k.toNat < 32) :
    (value >>> k).toUInt8 = UInt8.ofNat (value.toNat / 2 ^ k.toNat) := by
  rw [value_byte, shift_toNat value hk]

theorem shift64_toNat (value : UInt64) {k : UInt64} (hk : k.toNat < 64) :
    (value >>> k).toNat = value.toNat / 2 ^ k.toNat := by
  rw [UInt64.toNat_shiftRight, Nat.mod_eq_of_lt hk, Nat.shiftRight_eq_div_pow]

theorem shifted_byte64 (value : UInt64) {k : UInt64} (hk : k.toNat < 64) :
    (value >>> k).toUInt8 = UInt8.ofNat (value.toNat / 2 ^ k.toNat) := by
  rw [value_byte64, shift64_toNat value hk]

theorem bigEndianBytes_four (n : Nat) :
    bigEndianBytes 4 n = [UInt8.ofNat (n / 2 ^ 24), UInt8.ofNat (n / 2 ^ 16), UInt8.ofNat (n / 2 ^ 8), UInt8.ofNat n] := by
  simp [bigEndianBytes, Nat.div_div_eq_div_mul]

theorem bigEndianBytes_eight (n : Nat) :
    bigEndianBytes 8 n =
      [UInt8.ofNat (n / 2 ^ 56), UInt8.ofNat (n / 2 ^ 48), UInt8.ofNat (n / 2 ^ 40), UInt8.ofNat (n / 2 ^ 32),
        UInt8.ofNat (n / 2 ^ 24), UInt8.ofNat (n / 2 ^ 16), UInt8.ofNat (n / 2 ^ 8), UInt8.ofNat n] := by
  simp [bigEndianBytes, Nat.div_div_eq_div_mul]

/-- **For an `unsigned int`**, the shortest form of every value. -/
theorem head_eq_header {majorType : UInt32} (hm : majorType < 8) (value : UInt32) :
    head majorType value = header majorType.toNat (shortest value.toNat) value.toNat := by
  have hlt : value.toNat < 4294967296 := value.toNat_lt
  have hfirst : ∀ {minor : UInt32}, minor < 32 →
      (majorType <<< 5 ||| minor).toUInt8 = UInt8.ofNat (majorType.toNat * 32 + minor.toNat) := first_byte hm
  simp only [head, header]
  split
  · next hv =>
    have hv : value.toNat < 24 := hv
    rw [shortest, if_pos hv, hfirst (show value.toNat < 32 by omega)]
    rfl
  next h₁ =>
  have h₁ : ¬ value.toNat < 24 := h₁
  split
  · next hv =>
    have hv : value.toNat < 256 := hv
    rw [shortest, if_neg h₁, if_pos hv, hfirst (by decide : (24 : UInt32) < 32), value_byte]
    rfl
  next h₂ =>
  have h₂ : ¬ value.toNat < 256 := h₂
  split
  · next hv =>
    have hv : value.toNat < 65536 := hv
    rw [shortest, if_neg h₁, if_neg h₂, if_pos hv, hfirst (by decide : (25 : UInt32) < 32),
      shifted_byte value (by decide : (8 : UInt32).toNat < 32), value_byte]
    rfl
  next h₃ =>
  have h₃ : ¬ value.toNat < 65536 := h₃
  rw [shortest, if_neg h₁, if_neg h₂, if_neg h₃, if_pos hlt, hfirst (by decide : (26 : UInt32) < 32),
    shifted_byte value (by decide : (24 : UInt32).toNat < 32), shifted_byte value (by decide : (16 : UInt32).toNat < 32),
    shifted_byte value (by decide : (8 : UInt32).toNat < 32), value_byte]
  exact congrArg _ (bigEndianBytes_four value.toNat).symm

/-- **For an `unsigned long long`**, that of every value but those of two
bytes. -/
theorem head64_eq_header {majorType : UInt64} (hm : majorType < 8) {value : UInt64}
    (hv : ¬ (256 ≤ value.toNat ∧ value.toNat < 65536)) :
    head64 majorType value = header majorType.toNat (shortest value.toNat) value.toNat := by
  have hfirst : ∀ {minor : UInt64}, minor < 32 →
      (majorType <<< 5 ||| minor).toUInt8 = UInt8.ofNat (majorType.toNat * 32 + minor.toNat) := first_byte64 hm
  have hshift : ∀ {k : UInt64}, k.toNat < 64 → (value >>> k).toUInt8 = UInt8.ofNat (value.toNat / 2 ^ k.toNat) :=
    shifted_byte64 value
  simp only [head64, header]
  split
  · next h =>
    have h : value.toNat < 24 := h
    rw [shortest, if_pos h, hfirst (show value.toNat < 32 by omega)]
    rfl
  next h₁ =>
  have h₁ : ¬ value.toNat < 24 := h₁
  split
  · next h =>
    have h : value.toNat < 256 := h
    rw [shortest, if_neg h₁, if_pos h, hfirst (by decide : (24 : UInt64) < 32), value_byte64]
    rfl
  next h₂ =>
  have h₂ : ¬ value.toNat < 256 := h₂
  split
  · next h =>
    have h : value.toNat < 65536 := h
    exact absurd ⟨by omega, h⟩ hv
  next h₃ =>
  have h₃ : ¬ value.toNat < 65536 := h₃
  split
  · next h =>
    have h : value.toNat < 4294967296 := h
    rw [shortest, if_neg h₁, if_neg h₂, if_neg h₃, if_pos h, hfirst (by decide : (26 : UInt64) < 32),
      hshift (by decide : (24 : UInt64).toNat < 64), hshift (by decide : (16 : UInt64).toNat < 64),
      hshift (by decide : (8 : UInt64).toNat < 64), value_byte64]
    exact congrArg _ (bigEndianBytes_four value.toNat).symm
  next h₄ =>
  have h₄ : ¬ value.toNat < 4294967296 := h₄
  rw [shortest, if_neg h₁, if_neg h₂, if_neg h₃, if_neg h₄, hfirst (by decide : (27 : UInt64) < 32),
    hshift (by decide : (56 : UInt64).toNat < 64), hshift (by decide : (48 : UInt64).toNat < 64),
    hshift (by decide : (40 : UInt64).toNat < 64), hshift (by decide : (32 : UInt64).toNat < 64),
    hshift (by decide : (24 : UInt64).toNat < 64), hshift (by decide : (16 : UInt64).toNat < 64),
    hshift (by decide : (8 : UInt64).toNat < 64), value_byte64]
  exact congrArg _ (bigEndianBytes_eight value.toNat).symm

/-! ## The two header encoders -/

theorem Emits.unique {f : CborWriter → CborWriter} {xs ys : List UInt8} (hx : Emits f xs) (hy : Emits f ys) : xs = ys := by
  let w := CborWriter.new (.new (xs.length + ys.length))
  have hw : w.output.getSize = 0 := rfl
  have hc : w.output.capacity = xs.length + ys.length := rfl
  have hsame := (hx w (by omega)).symm.trans (hy w (by omega))
  simpa [w, CborWriter.new, CborOutput.new] using hsame

theorem shortest_limit {value : Nat} (h : value < 2 ^ 64) : value < (shortest value).limit := by
  unfold shortest
  split
  · assumption
  split
  · simpa [Width.limit, Width.size]
  split
  · simpa [Width.limit, Width.size]
  split
  · simpa [Width.limit, Width.size]
  · simpa [Width.limit, Width.size] using h

theorem shortest_size {value : Nat} (h : value < 2 ^ 32) : (shortest value).size ≤ 4 := by
  unfold shortest
  split
  · decide
  split
  · decide
  split
  · decide
  rw [if_pos (show value < 4294967296 from h)]
  decide

/-- An item of the standard without bytes after its argument. -/
def Item.ofHeader (major : Nat) (width : Width) (argument : Nat) (hm : major < 8) (ht : ¬ (major = 2 ∨ major = 3))
    (ha : argument < width.limit) : Item where
  major := major
  width := width
  argument := argument
  payload := []
  major_lt := hm
  argument_lt := ha
  text := fun h => absurd h ht
  plain := fun _ => rfl

theorem isHeader_header {major value : Nat} (hm : major < 8) (hv : value < 2 ^ 64) :
    IsHeader major value (header major (shortest value) value) := by
  have hlimit := shortest_limit hv
  obtain ⟨hmajor, hminor⟩ := header_byte hm (Width.minor_lt hlimit)
  refine ⟨_, _, rfl, hmajor, hminor, bigEndianBytes_length _ _, fun hwide => bigEndian_bytes ?_⟩
  cases hw : shortest value with
  | immediate => exact absurd hw hwide
  | _ =>
    rw [hw] at hlimit
    exact hlimit

/-- **The two header encoders agree, on complete headers, exactly for the
values that do not take two bytes.** -/
theorem headers_agree_iff {majorType : UInt64} (hm : majorType < 8) (value : UInt64) :
    (∃ bytes, Emits (·.writeTypeAndValue64 majorType value) bytes ∧ IsHeader majorType.toNat value.toNat bytes ∧
      (value.toNat < 2 ^ 32 → Emits (·.writeTypeAndValue majorType.toUInt32 value.toUInt32) bytes)) ↔
      ¬ (256 ≤ value.toNat ∧ value.toNat < 65536) := by
  have hm' : majorType.toNat < 8 := hm
  constructor
  · rintro ⟨bytes, hemits, ⟨first, rest, rfl, -, -, hlength, -⟩, -⟩ ⟨hge, hlt⟩
    -- two bytes are announced, and one follows
    have hbytes := hemits.unique (emits_head64 majorType value)
    have h₁ : ¬ value < 24 := fun h => by
      have h : value.toNat < 24 := h
      omega
    have h₂ : ¬ value < 256 := fun h => by
      have h : value.toNat < 256 := h
      omega
    simp only [head64, if_neg h₁, if_neg h₂, if_pos (show value < 65536 from hlt), List.cons.injEq] at hbytes
    rw [hbytes.2, shortest, if_neg (by omega), if_neg (by omega), if_pos hlt] at hlength
    cases hlength
  · intro hv
    refine ⟨_, emits_head64 majorType value, ?_, fun hlt => ?_⟩
    · rw [head64_eq_header hm hv]
      exact isHeader_header hm' value.toNat_lt
    · have hmajor : majorType.toUInt32.toNat = majorType.toNat := by
        rw [UInt64.toNat_toUInt32]
        omega
      have hvalue : value.toUInt32.toNat = value.toNat := by
        rw [UInt64.toNat_toUInt32]
        omega
      rw [head64_eq_header hm hv, ← hmajor, ← hvalue, ← head_eq_header (show majorType.toUInt32.toNat < 8 by omega)]
      exact emits_head _ _

/-- Above 2^32, where there is only one of them. -/
theorem headers_agree_iff_long : ∃ bytes, Emits (·.writeTypeAndValue64 6 4294967296) bytes ∧
    IsHeader 6 4294967296 bytes ∧
    (4294967296 < 2 ^ 32 → Emits (·.writeTypeAndValue (6 : UInt64).toUInt32 (4294967296 : UInt64).toUInt32) bytes) :=
  (@headers_agree_iff 6 (by decide) 4294967296).mpr (by decide)

/-- 256 is put in two bytes, of three. -/
theorem headers_differ :
    Emits (·.writeTypeAndValue64 0 256) [0x19, 0x01] ∧ ¬ IsHeader 0 256 [0x19, 0x01] ∧
      Emits (·.writeTypeAndValue 0 256) [0x19, 0x01, 0x00] := by
  refine ⟨emits_head64 0 256, ?_, emits_head 0 256⟩
  rintro ⟨first, rest, hbytes, -, -, hlength, -⟩
  cases hbytes
  cases hlength

/-! ## Signed integers -/

/-- The major type of an integer: 1 below zero. -/
def integerMajor (value : Int) : Nat := if value < 0 then 1 else 0

/-- Its argument: `-1 - value` below zero. -/
def integerArgument (value : Int) : Nat := if value < 0 then (-1 - value).toNat else value.toNat

/-- The integer is put in its shortest form, and read from each of its forms
of up to four bytes. -/
def Conforms (value : Int32) : Prop :=
  Emits (·.writeInt value)
    (header (integerMajor value.toInt) (shortest (integerArgument value.toInt)) (integerArgument value.toInt)) ∧
  ∀ width : Width, width.size ≤ 4 → integerArgument value.toInt < width.limit →
    Returns (CborReader.body (always noted))
      (.new (.new (header (integerMajor value.toInt) width (integerArgument value.toInt))), [])
      (.ok (.returned, [.integer value]))

theorem returns_header {major argument : Nat} {width : Width} (hm : major < 2) (hw : width.size ≤ 4)
    (ha : argument < width.limit) :
    Returns (CborReader.body (always noted)) (.new (.new (header major width argument)), [])
      (.ok (.returned, [scalar major (UInt32.ofNat argument)])) := by
  have ht : ¬ (major = 2 ∨ major = 3) := by omega
  have hshort : width ≠ .eight := by
    rintro rfl
    exact absurd hw (by decide)
  have hlength : (header major width argument).length < 2 ^ 31 := by
    rw [header, List.length_cons, bigEndianBytes_length]
    omega
  have hbytes : (Item.ofHeader major width argument (by omega) ht ha).bytes ++ [] = header major width argument := by
    simp [Item.bytes, Item.ofHeader, header]
  have hframe : frame (header major width argument) = .item (some (scalar major (UInt32.ofNat argument))) [] := by
    rw [← hbytes]
    refine ((frame_item _ []).trans (if_neg hshort)).trans ?_
    exact if_neg ht
  exact returns_reads hlength (.one hframe) rfl

theorem conforms_of_nonneg {value : Int32} (h : 0 ≤ value.toInt) : Conforms value := by
  have hlt := value.toInt_lt
  obtain ⟨n, hn⟩ := Int.eq_ofNat_of_zero_le h
  have hvalue : value = Int32.ofNat n := by
    rw [← Int32.toInt_inj, Int32.toInt_ofNat_of_lt (by omega), hn]
  have hunsigned : value.toUInt32.toNat = n := by
    rw [hvalue, Int32.toUInt32_ofNat', UInt32.toNat_ofNat']
    omega
  have hmajor : integerMajor value.toInt = 0 := if_neg (by omega)
  have hargument : integerArgument value.toInt = n := (if_neg (by omega)).trans (by omega)
  rw [Conforms, hmajor, hargument]
  constructor
  · have hbytes : intBytes value = header 0 (shortest n) n := by
      have hneg : ¬ value < 0 := by
        rw [Int32.lt_iff_toInt_lt]
        simpa using h
      rw [intBytes, if_neg hneg, head_eq_header (by decide), hunsigned]
      rfl
    rw [← hbytes]
    exact (puts_writeInt value).emits
  · intro width hw ha
    have hreturns := returns_header (show 0 < 2 by decide) hw ha
    have hevent : scalar 0 (UInt32.ofNat n) = .integer value := by rw [hvalue]; rfl
    rwa [hevent] at hreturns

theorem not_conforms_of_neg {value : Int32} (h : value.toInt < 0) : ¬ Conforms value := by
  rintro ⟨-, hreads⟩
  have hle := value.le_toInt
  have hmajor : integerMajor value.toInt = 1 := if_pos h
  have hargument : integerArgument value.toInt = (-1 - value.toInt).toNat := if_pos h
  rw [hmajor, hargument] at hreads
  have hlimit := shortest_limit (show (-1 - value.toInt).toNat < 2 ^ 64 by omega)
  have hsize := shortest_size (show (-1 - value.toInt).toNat < 2 ^ 32 by omega)
  have hunique := Returns.unique (hreads _ hsize hlimit) (returns_header (by decide) hsize hlimit)
  have hsame : value = -(UInt32.ofNat (-1 - value.toInt).toNat).toInt32 := by
    simpa [scalar] using hunique
  have hint := congrArg Int32.toInt hsame
  rw [Int32.toInt_neg, UInt32.toInt32_ofNat', Int32.toInt_ofNat_of_lt (by omega), Int.bmod_def] at hint
  omega

/-- **Signed integers follow the standard exactly when they are not
negative.** -/
theorem integers_conform_iff (value : Int32) : Conforms value ↔ 0 ≤ value.toInt := by
  constructor
  · intro h
    by_contra hneg
    exact not_conforms_of_neg (by omega) h
  · exact conforms_of_nonneg

/-- -1 is `0x20` in the standard: it is put as `0x21`, and `0x20` is read as 0. -/
theorem integers_differ :
    header (integerMajor (-1 : Int32).toInt) (shortest (integerArgument (-1 : Int32).toInt))
        (integerArgument (-1 : Int32).toInt) = [0x20] ∧
      Emits (·.writeInt (-1)) [0x21] ∧ ¬ Conforms (-1) ∧
      Returns (CborReader.body (always noted)) (.new (.new [0x20]), []) (.ok (.returned, [.integer 0])) :=
  ⟨by decide, (puts_writeInt (-1)).emits, not_conforms_of_neg (by decide), ⟨3, rfl⟩⟩

end Zql
