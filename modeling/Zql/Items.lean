/-
The items of the encoding as its standard has them: a major type, an argument
in the header or in the one, two, four or eight bytes after it, and for
bytes and strings as many bytes as the argument says. Arrays, maps and tags
are told item by item, their contents after them.

The reader keeps to the items of every message but for arguments of eight
bytes (`framing_kept_iff`): these are left unread, never done with, passed
over without a call, or taken for a length of 123.
-/
import Zql.Passes

namespace Zql

open Looping

/-! ## Numbers as bytes -/

/-- The lowest `n` bytes of a number, the first the highest. -/
def bigEndianBytes : Nat → Nat → List UInt8
  | 0, _ => []
  | n + 1, value => bigEndianBytes n (value / 256) ++ [UInt8.ofNat value]

theorem bigEndianBytes_length (n value : Nat) : (bigEndianBytes n value).length = n := by
  induction n generalizing value with
  | zero => rfl
  | succ n ih => rw [bigEndianBytes, List.length_append, ih, List.length_singleton]

theorem bigEndian_bytes {n value : Nat} (h : value < 256 ^ n) : bigEndian (bigEndianBytes n value) = value := by
  induction n generalizing value with
  | zero =>
    rw [Nat.pow_zero] at h
    obtain rfl : value = 0 := by omega
    rfl
  | succ n ih =>
    have hrest : value / 256 < 256 ^ n := Nat.div_lt_of_lt_mul (by rwa [Nat.pow_succ, Nat.mul_comm] at h)
    have hlast : bigEndian (bigEndianBytes n (value / 256) ++ [UInt8.ofNat value]) =
        bigEndian (bigEndianBytes n (value / 256)) * 256 + value % 256 := by
      rw [bigEndian, List.foldl_append]
      simp [bigEndian]
    rw [bigEndianBytes, hlast, ih hrest]
    omega

/-! ## Items -/

/-- Where an argument stands. -/
inductive Width
  | immediate
  | one
  | two
  | four
  | eight
  deriving DecidableEq

/-- The bytes of an argument after the header. -/
def Width.size : Width → Nat
  | .immediate => 0
  | .one => 1
  | .two => 2
  | .four => 4
  | .eight => 8

/-- The arguments there is room for. -/
def Width.limit : Width → Nat
  | .immediate => 24
  | width => 256 ^ width.size

/-- The lower five bits of the header. -/
def Width.minor (argument : Nat) : Width → Nat
  | .immediate => argument
  | .one => 24
  | .two => 25
  | .four => 26
  | .eight => 27

/-- A well-formed item, or the header of one. -/
structure Item where
  major : Nat
  width : Width
  argument : Nat
  payload : List UInt8
  major_lt : major < 8
  argument_lt : argument < width.limit
  /-- The bytes of bytes and strings are there, and less than 2^31. -/
  text : major = 2 ∨ major = 3 → payload.length = argument ∧ argument < 2 ^ 31
  plain : ¬ (major = 2 ∨ major = 3) → payload = []

def Item.bytes (i : Item) : List UInt8 :=
  UInt8.ofNat (i.major * 32 + i.width.minor i.argument) :: (bigEndianBytes i.width.size i.argument ++ i.payload)

/-- The call is of the item's kind, with its bytes, or its argument where the
listener can take it, or a complaint. -/
def Item.Answered (i : Item) : CborEvent → Prop
  | .integer _ => i.major = 0 ∨ i.major = 1
  | .bytes data => i.major = 2 ∧ data = i.payload
  | .string str => i.major = 3 ∧ str = i.payload
  | .array size => i.major = 4 ∧ (i.argument < 2 ^ 31 → size.toInt = i.argument)
  | .map size => i.major = 5 ∧ (i.argument < 2 ^ 31 → size.toInt = i.argument)
  | .tag tag => i.major = 6 ∧ (i.argument < 2 ^ 32 → tag.toNat = i.argument)
  | .special _ => i.major = 7
  | .error _ => True

/-- The bytes of items one after the other. -/
def stream (is : List Item) : List UInt8 := is.flatMap Item.bytes

theorem Item.bytes_pos (i : Item) : 0 < i.bytes.length := Nat.succ_pos _

theorem Width.minor_lt {width : Width} {argument : Nat} (h : argument < width.limit) : width.minor argument < 32 := by
  cases width with
  | immediate => exact Nat.lt_trans h (by decide)
  | _ => simp [Width.minor]

theorem header_byte {major minor : Nat} (hm : major < 8) (hn : minor < 32) :
    (UInt8.ofNat (major * 32 + minor) >>> 5).toNat = major ∧ (UInt8.ofNat (major * 32 + minor) &&& 31).toNat = minor := by
  have hnat : (UInt8.ofNat (major * 32 + minor)).toNat = major * 32 + minor := by
    rw [UInt8.toNat_ofNat']
    omega
  constructor
  · rw [UInt8.toNat_shiftRight, Nat.shiftRight_eq_div_pow, hnat]
    show (major * 32 + minor) / 32 = _
    omega
  · rw [UInt8.toNat_and, show (31 : UInt8).toNat = 2 ^ 5 - 1 from rfl, Nat.and_two_pow_sub_one_eq_mod, hnat]
    omega

/-! ## Their frames -/

theorem Item.header_major (i : Item) :
    (UInt8.ofNat (i.major * 32 + i.width.minor i.argument) >>> 5).toNat = i.major ∧
      (UInt8.ofNat (i.major * 32 + i.width.minor i.argument) &&& 31).toNat = i.width.minor i.argument :=
  header_byte i.major_lt (Width.minor_lt i.argument_lt)

theorem frame_item (i : Item) (rest : List UInt8) :
    frame (i.bytes ++ rest) =
      if i.width = .eight then frameLong i.major (bigEndianBytes 8 i.argument ++ (i.payload ++ rest))
      else frameValue i.major (UInt32.ofNat i.argument) (i.payload ++ rest) := by
  obtain ⟨hmajor, hminor⟩ := i.header_major
  have hlt := i.argument_lt
  have hargument : ∀ {width : Nat}, i.argument < 256 ^ width →
      frameArgument i.major width (bigEndianBytes width i.argument ++ (i.payload ++ rest)) =
        frameValue i.major (UInt32.ofNat i.argument) (i.payload ++ rest) := by
    intro width hw
    have hlength := bigEndianBytes_length width i.argument
    rw [frameArgument, if_neg (by rw [List.length_append]; omega), List.take_left' hlength, List.drop_left' hlength,
      bigEndian_bytes hw]
  simp only [Item.bytes, List.cons_append, List.append_assoc, frame, hmajor]
  generalize hb : UInt8.ofNat (i.major * 32 + i.width.minor i.argument) &&& 31 = minor at hminor
  cases hwidth : i.width with
  | immediate =>
    rw [hwidth] at hlt hminor
    have hlt : i.argument < 24 := hlt
    have hminor : minor.toNat = i.argument := hminor
    have hsmall : minor < 24 := by
      rw [UInt8.lt_iff_toNat_lt, hminor]
      exact hlt
    have hvalue : minor.toUInt32 = UInt32.ofNat i.argument := by
      rw [← hminor, ← UInt32.toNat_inj]
      simp
    simp only [hsmall, if_true, hvalue]
    rfl
  | one =>
    rw [hwidth] at hlt hminor
    obtain rfl : minor = 24 := UInt8.toNat_inj.mp hminor
    exact hargument hlt
  | two =>
    rw [hwidth] at hlt hminor
    obtain rfl : minor = 25 := UInt8.toNat_inj.mp hminor
    exact hargument hlt
  | four =>
    rw [hwidth] at hlt hminor
    obtain rfl : minor = 26 := UInt8.toNat_inj.mp hminor
    exact hargument hlt
  | eight =>
    rw [hwidth] at hminor
    obtain rfl : minor = 27 := UInt8.toNat_inj.mp hminor
    rfl

/-- The argument is read as it is, and no more and no less than the item. -/
def Item.Fine (i : Item) : Prop := i.width = .eight → (i.major = 2 ∨ i.major = 3) ∧ i.argument = 123

theorem frameBytes_payload {major : Nat} {length : Int32} {payload : List UInt8}
    (hlength : length.toInt = payload.length) (rest : List UInt8) :
    frameBytes major length (payload ++ rest) = .item (some (contents major payload)) rest := by
  rw [frameBytes, hlength, if_neg (by omega), Int.toNat_natCast, if_neg (by simp), List.take_left, List.drop_left]

theorem frameLong_contents {major : Nat} (h : major = 2 ∨ major = 3) (value : Nat) (l : List UInt8) :
    frameLong major (bigEndianBytes 8 value ++ l) = frameBytes major 123 l := by
  have hlength := bigEndianBytes_length 8 value
  have hlong : ¬ (bigEndianBytes 8 value ++ l).length < 8 := by
    rw [List.length_append]
    omega
  rcases h with rfl | rfl <;> simp only [frameLong, hlong, if_false, List.drop_left' hlength]

theorem Item.answered_contents {i : Item} (h : i.major = 2 ∨ i.major = 3) : i.Answered (contents i.major i.payload) := by
  rcases h with h | h <;> rw [h] <;> exact ⟨h, rfl⟩

theorem Item.answered_scalar {i : Item} (h : ¬ (i.major = 2 ∨ i.major = 3)) :
    i.Answered (scalar i.major (UInt32.ofNat i.argument)) := by
  have hsize : i.argument < 2 ^ 31 → (UInt32.ofNat i.argument).toInt32.toInt = i.argument := by
    intro hlt
    rw [UInt32.toInt32_ofNat', Int32.toInt_ofNat_of_lt hlt]
  have htag : i.argument < 2 ^ 32 → (UInt32.ofNat i.argument).toNat = i.argument := by
    intro hlt
    rw [UInt32.toNat_ofNat', Nat.mod_eq_of_lt hlt]
  have hm := i.major_lt
  generalize hmajor : i.major = major at h hm
  interval_cases major
  · exact .inl hmajor
  · exact .inr hmajor
  · exact absurd (.inl rfl) h
  · exact absurd (.inr rfl) h
  · exact ⟨hmajor, hsize⟩
  · exact ⟨hmajor, hsize⟩
  · exact ⟨hmajor, htag⟩
  · exact hmajor

theorem Item.Fine.frame {i : Item} (h : i.Fine) (rest : List UInt8) :
    ∃ event, frame (i.bytes ++ rest) = .item (some event) rest ∧ i.Answered event := by
  rw [frame_item]
  by_cases hw : i.width = .eight
  · obtain ⟨htext, hargument⟩ := h hw
    refine ⟨_, ?_, i.answered_contents htext⟩
    rw [if_pos hw, frameLong_contents htext]
    refine frameBytes_payload ?_ rest
    rw [(i.text htext).1, hargument]
    rfl
  · rw [if_neg hw, frameValue]
    by_cases ht : i.major = 2 ∨ i.major = 3
    · obtain ⟨hlength, hlt⟩ := i.text ht
      refine ⟨_, ?_, i.answered_contents ht⟩
      rw [if_pos ht]
      refine frameBytes_payload ?_ rest
      rw [UInt32.toInt32_ofNat', Int32.toInt_ofNat_of_lt hlt, hlength]
    · exact ⟨_, by rw [if_neg ht, i.plain ht, List.nil_append], i.answered_scalar ht⟩

theorem Item.fine_of_frame {i : Item} {rest rest' : List UInt8} {event : CborEvent}
    (hf : Zql.frame (i.bytes ++ rest) = .item (some event) rest') (ha : i.Answered event) : i.Fine := by
  intro hw
  rw [frame_item, if_pos hw] at hf
  by_cases ht : i.major = 2 ∨ i.major = 3
  · refine ⟨ht, ?_⟩
    rw [frameLong_contents ht] at hf
    unfold frameBytes at hf
    split at hf
    · cases hf
    split at hf
    · cases hf
    next hlong =>
    cases hf
    have hpayload : ((i.payload ++ rest).take 123).length = i.payload.length := by
      rcases ht with ht | ht <;> rw [ht] at ha <;> exact congrArg List.length ha.2
    have hlong : 123 ≤ (i.payload ++ rest).length := Nat.le_of_not_lt hlong
    rw [List.length_take, Nat.min_eq_left hlong, (i.text ht).1] at hpayload
    exact hpayload.symm
  · have hm := i.major_lt
    unfold frameLong at hf
    split at hf
    · cases hf
    generalize i.major = major at ht hm hf
    interval_cases major
    all_goals first
      | exact absurd (by decide) ht
      | cases hf

/-! ## Sequences -/

theorem stream_append (is js : List Item) : stream (is ++ js) = stream is ++ stream js := List.flatMap_append ..

theorem stream_cons (i : Item) (is : List Item) : stream (i :: is) = i.bytes ++ stream is := rfl

/-- The reader keeps to the items of a sequence. -/
structure Framed (is : List Item) : Prop where
  /-- It gets to the end of each, with a call for every one so far. -/
  reaches : ∀ done left, is = done ++ left → ∃ r events, Reached (stream is) r events ∧ r.state = .type ∧
    r.input.offset = (stream done).length ∧ List.Forall₂ Item.Answered done events
  /-- What it takes for a header is one. -/
  headers : ∀ r events, Reached (stream is) r events → r.state = .type → ∃ done left, is = done ++ left ∧
    r.input.offset = (stream done).length ∧ List.Forall₂ Item.Answered done events
  returns : ∃ events, List.Forall₂ Item.Answered is events ∧
    Returns (CborReader.body (always noted)) (.new (.new (stream is)), []) (.ok (.returned, events))

/-! ## When it does -/

theorem reads_stream {is : List Item} (h : ∀ i ∈ is, i.Fine) (rest : List UInt8) :
    ∃ events, Reads (stream is ++ rest) events rest ∧ List.Forall₂ Item.Answered is events := by
  induction is with
  | nil => exact ⟨[], .done rest, .nil⟩
  | cons i is ih =>
    obtain ⟨event, hf, ha⟩ := (h i List.mem_cons_self).frame (stream is ++ rest)
    obtain ⟨events, hreads, hall⟩ := ih fun j hj => h j (List.mem_cons_of_mem _ hj)
    rw [← List.append_assoc] at hf
    exact ⟨event :: events, .item hf hreads, .cons ha hall⟩

theorem of_reads_stream {is : List Item} (h : ∀ i ∈ is, i.Fine) {events : List CborEvent} {l : List UInt8}
    (hreads : Reads (stream is) events l) :
    ∃ done left, is = done ++ left ∧ l = stream left ∧ List.Forall₂ Item.Answered done events := by
  induction is generalizing events with
  | nil =>
    cases hreads with
    | done _ => exact ⟨[], [], rfl, rfl, .nil⟩
    | item hf _ => cases hf
  | cons i is ih =>
    cases hreads with
    | done _ => exact ⟨[], i :: is, rfl, rfl, .nil⟩
    | item hf hrest =>
      obtain ⟨event, hf', ha⟩ := (h i List.mem_cons_self).frame (stream is)
      rw [stream_cons, hf'] at hf
      cases hf
      obtain ⟨done, left, his, hl, hall⟩ := ih (fun j hj => h j (List.mem_cons_of_mem _ hj)) hrest
      exact ⟨i :: done, left, by rw [his]; rfl, hl, .cons ha hall⟩

theorem framed_of_fine {is : List Item} (hlength : (stream is).length < 2 ^ 31) (h : ∀ i ∈ is, i.Fine) : Framed is where
  reaches := by
    rintro done left rfl
    obtain ⟨events, hreads, hall⟩ := reads_stream (fun i hi => h i (List.mem_append_left _ hi)) (stream left)
    rw [← stream_append] at hreads
    obtain ⟨r, hr, hs, hi⟩ := reached_reads hlength hreads
    refine ⟨r, events, hr, hs, ?_, hall⟩
    obtain ⟨-, -, -, hfollows⟩ := hr.within hlength
    have := offset_of_at hlength hfollows hi
    rw [stream_append, List.length_append] at this
    omega
  headers := by
    intro r events hr hs
    obtain ⟨l, hreads, hw, hfollows⟩ := hr.within hlength
    obtain ⟨done, left, rfl, rfl, hall⟩ := of_reads_stream h hreads
    refine ⟨done, left, rfl, ?_, hall⟩
    have := offset_of_at hlength hfollows (hw.header hs)
    rw [stream_append, List.length_append] at this
    omega
  returns := by
    obtain ⟨events, hreads, hall⟩ := reads_stream h []
    rw [List.append_nil] at hreads
    exact ⟨events, hall, returns_reads hlength hreads rfl⟩

/-! ## Only then -/

theorem Framed.length {is : List Item} (h : Framed is) : (stream is).length < 2 ^ 31 := by
  by_contra hlong
  obtain ⟨r, events, hr, hs, hoffset, -⟩ := h.reaches is [] (List.append_nil is).symm
  by_cases hsize : 0 ≤ (CborInput.new (stream is)).size
  · obtain ⟨_, l, -, -, hw, hfollows⟩ := CborReader.faces_of_passes hr rfl (at_new hsize)
    have hleft := (hw.header hs).size
    rw [hfollows.size] at hleft
    have hseen : (CborReader.new (.new (stream is))).input.size < 2 ^ 31 := by
      simp only [CborReader.new, CborInput.new, Int.bmod]
      norm_num
      omega
    omega
  · -- nothing is read at all
    cases hr with
    | refl _ =>
      have : (stream is).length = 0 := hoffset.symm
      omega
    | step hbody _ =>
      rw [CborReader.body_leave _ (unseen hsize).2] at hbody
      cases hbody

/-- An item of a sequence that is kept to is read to its end, with a call
for it. -/
theorem Framed.frame {is done left : List Item} {i : Item} (h : Framed is) (his : is = done ++ i :: left) :
    ∃ event rest, Zql.frame (i.bytes ++ stream left) = .item (some event) rest ∧ i.Answered event := by
  have hlength := h.length
  obtain ⟨r₁, es, hr₁, hs₁, hoffset₁, hall₁⟩ := h.reaches done (i :: left) his
  obtain ⟨r₂, fs, hr₂, hs₂, hoffset₂, -⟩ := h.reaches (done ++ [i]) left (by rw [his]; simp)
  obtain ⟨l₁, hreads₁, hw₁, hfollows₁⟩ := hr₁.within hlength
  obtain ⟨l₂, hreads₂, hw₂, hfollows₂⟩ := hr₂.within hlength
  have hleft₁ := offset_of_at hlength hfollows₁ (hw₁.header hs₁)
  have hleft₂ := offset_of_at hlength hfollows₂ (hw₂.header hs₂)
  have hl₁ : l₁ = i.bytes ++ stream left := by
    rw [left_of_at hlength hfollows₁ (hw₁.header hs₁), his, stream_append, List.drop_left' hoffset₁.symm, stream_cons]
  rw [stream_append, List.length_append, show stream [i] = i.bytes by simp [stream]] at hoffset₂
  have hpos := i.bytes_pos
  obtain ⟨gs, hbetween⟩ := hreads₁.between hreads₂ (by omega)
  rw [← hl₁]
  cases hbetween with
  | done _ => omega
  | @item _ rest _ event _ hf _ =>
    -- the reader takes up an item where this one ends
    have hshort := frame_shorter hf
    obtain ⟨r₃, hr₃, hs₃, hi₃⟩ := reached_reads hlength (hreads₁.trans (.one hf))
    obtain ⟨-, -, -, hfollows₃⟩ := hr₃.within hlength
    have hleft₃ := offset_of_at hlength hfollows₃ hi₃
    obtain ⟨done', left', his', hoffset₃, hall₃⟩ := h.headers r₃ _ hr₃ hs₃
    have hcount := hall₃.length_eq
    rw [List.length_append, ← hall₁.length_eq] at hcount
    cases event with
    | none =>
      obtain ⟨rfl, -⟩ := List.append_inj (his'.symm.trans his) hcount
      omega
    | some event =>
      have hsplit : done' ++ left' = (done ++ [i]) ++ left := by rw [← his', his]; simp
      obtain ⟨rfl, -⟩ := List.append_inj hsplit (by rw [hcount]; simp)
      have hlast := List.forall₂_drop done.length hall₃
      rw [List.drop_left, List.drop_left' hall₁.length_eq.symm] at hlast
      exact ⟨event, rest, hf, (List.forall₂_cons.mp hlast).1⟩

/-- **The reader keeps to the items of a sequence exactly when no argument
takes eight bytes, but for bytes and strings of length 123, and the message
is shorter than 2^31 bytes.** -/
theorem framing_kept_iff (is : List Item) :
    Framed is ↔ (stream is).length < 2 ^ 31 ∧
      ∀ i ∈ is, i.width = .eight → (i.major = 2 ∨ i.major = 3) ∧ i.argument = 123 := by
  constructor
  · intro h
    refine ⟨h.length, fun i hi => ?_⟩
    obtain ⟨done, left, his⟩ := List.append_of_mem hi
    obtain ⟨event, rest, hf, ha⟩ := h.frame his
    exact Item.fine_of_frame hf ha
  · intro h
    exact framed_of_fine h.1 h.2

/-- The header of an array of two items, its size in eight bytes. -/
def longArray : Item where
  major := 4
  width := .eight
  argument := 2
  payload := []
  major_lt := by decide
  argument_lt := by decide
  text := by decide
  plain := fun _ => rfl

theorem framing_lost : ¬ Framed [longArray] := by
  intro h
  obtain ⟨event, rest, hf, ha⟩ := h.frame (show [longArray] = [] ++ longArray :: [] from rfl)
  exact absurd (Item.fine_of_frame hf ha rfl).1 (by decide)

end Zql
