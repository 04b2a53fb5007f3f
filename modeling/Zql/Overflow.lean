/-
Outputs with too little room. A byte with no room is dropped, and so are
bytes with no room for all of them, but the writer goes on, and what is
shorter may still fit behind the gap.

It is never read as something else: of the first call that is cut the reader
sees too little, however much comes after (`CborCall.frame_cut`).
-/
import Zql.Tokens

namespace Zql

open Looping

/-! ## Room -/

namespace CborWriter

/-- The writer with these bytes behind those it has. -/
def append (w : CborWriter) (extra : List UInt8) : CborWriter :=
  ⟨{ w.output with data := w.output.data ++ extra }⟩

/-- No more has been put than there is room for. -/
def Holds (w : CborWriter) : Prop := w.output.getSize ≤ w.output.capacity

def room (w : CborWriter) : Nat := (w.output.capacity - w.output.getSize).toNat

theorem append_nil (w : CborWriter) : w.append [] = w := by
  rw [append, List.append_nil]

theorem append_append (w : CborWriter) (xs ys : List UInt8) : (w.append xs).append ys = w.append (xs ++ ys) := by
  rw [append, append, append, List.append_assoc]

theorem getSize_append (w : CborWriter) (extra : List UInt8) :
    (w.append extra).output.getSize = w.output.getSize + extra.length := by
  simp only [append, CborOutput.getSize, List.length_append]
  omega

theorem room_append (w : CborWriter) (extra : List UInt8) : (w.append extra).room = w.room - extra.length := by
  rw [room, room, getSize_append]
  show (w.output.capacity - _).toNat = _
  omega

theorem Holds.append {w : CborWriter} (hw : w.Holds) {extra : List UInt8} (h : extra.length ≤ w.room) :
    (w.append extra).Holds := by
  rw [Holds, getSize_append]
  show _ ≤ w.output.capacity
  rw [room] at h
  rw [Holds] at hw
  omega

/-- Bytes put one by one. -/
def putAll (bytes : List UInt8) (w : CborWriter) : CborWriter := bytes.foldl (fun w b => ⟨w.output.putByte b⟩) w

theorem putAll_eq (bytes : List UInt8) {w : CborWriter} (hw : w.Holds) : putAll bytes w = w.append (bytes.take w.room) := by
  induction bytes generalizing w with
  | nil => rw [List.take_nil, append_nil]; rfl
  | cons b bytes ih =>
    show putAll bytes ⟨w.output.putByte b⟩ = _
    rw [Holds] at hw
    by_cases hroom : w.output.getSize < w.output.capacity
    · have hput : (⟨w.output.putByte b⟩ : CborWriter) = w.append [b] := by
        rw [CborOutput.putByte, if_pos hroom, append]
      have hpos : w.room = (w.room - 1) + 1 := by
        rw [room]
        omega
      have hholds : (w.append [b]).Holds := Holds.append hw (by rw [List.length_singleton]; omega)
      rw [hput, ih hholds, append_append, room_append, List.length_singleton, hpos, List.take_succ_cons]
      rfl
    · have hnone : w.room = 0 := by
        rw [room]
        omega
      have hput : (⟨w.output.putByte b⟩ : CborWriter) = w := by
        rw [CborOutput.putByte, if_neg hroom]
      rw [hput, ih hw, hnone, List.take_zero, List.take_zero]

theorem writeTypeAndValue_eq (w : CborWriter) (majorType value : UInt32) :
    w.writeTypeAndValue majorType value = putAll (head majorType value) w := by
  unfold writeTypeAndValue head
  split
  · rfl
  split
  · rfl
  split <;> rfl

end CborWriter

/-! ## Calls -/

namespace CborCall

/-- The head of what a call puts. -/
def heading (c : CborCall) : List UInt8 := head c.majorType c.value

/-- Nothing of the call is dropped. -/
def Fits (c : CborCall) (w : CborWriter) : Prop := (c.write w).output.data = w.output.data ++ c.encoding

instance (c : CborCall) (w : CborWriter) : Decidable (c.Fits w) := inferInstanceAs (Decidable (_ = _))

/-- What a call puts where there is so much room: all of it, or as much as
there is of its head. -/
theorem write_append (c : CborCall) {w : CborWriter} (hw : w.Holds) :
    c.write w = w.append (if c.encoding.length ≤ w.room then c.encoding else c.heading.take w.room) := by
  have hlength : c.encoding.length = c.heading.length + c.payload.length := List.length_append
  split
  · next hroom =>
    rw [c.emits w (by rw [CborWriter.room] at hroom; rw [CborWriter.Holds] at hw; omega)]
    rfl
  next hroom =>
  rw [write_eq, CborWriter.writeTypeAndValue_eq, CborWriter.putAll_eq _ hw]
  show (⟨(w.append (c.heading.take w.room)).output.putBytes c.payload⟩ : CborWriter) = _
  by_cases hnil : c.payload = []
  · rw [hnil, putBytes_nil]
  · -- no room for the bytes, whether there was for the head or not
    have hpos := List.length_pos_of_ne_nil hnil
    have hfull : ¬ (w.append (c.heading.take w.room)).output.getSize + c.payload.length - 1 <
        (w.append (c.heading.take w.room)).output.capacity := by
      rw [CborWriter.getSize_append, List.length_take]
      show ¬ _ < w.output.capacity
      rw [CborWriter.Holds] at hw
      rw [CborWriter.room] at hroom ⊢
      omega
    rw [CborOutput.putBytes, if_neg hfull]

theorem fits_iff (c : CborCall) {w : CborWriter} (hw : w.Holds) : c.Fits w ↔ c.encoding.length ≤ w.room := by
  rw [Fits, write_append c hw]
  show w.output.data ++ _ = _ ↔ _
  rw [List.append_cancel_left_eq]
  split
  · next hroom => exact ⟨fun _ => hroom, fun _ => rfl⟩
  · next hroom =>
    refine ⟨fun h => ?_, fun h => absurd h hroom⟩
    have hlength := congrArg List.length h
    rw [List.length_take] at hlength
    omega

/-! ## What is read of a call that is cut -/

theorem frame_wide_take {majorType minor : UInt32} {width k : Nat} (hw : Wide minor width) (hm : majorType < 8)
    {l : List UInt8} (hl : l.length = width) (hk : k < (((majorType <<< 5 ||| minor).toUInt8) :: l).length) :
    frame ((((majorType <<< 5 ||| minor).toUInt8) :: l).take k) = .incomplete := by
  cases k with
  | zero => rfl
  | succ k =>
    rw [List.length_cons] at hk
    rw [List.take_succ_cons, frame_wide hw hm, frameArgument, if_pos (by rw [List.length_take]; omega)]

theorem frame_head_take {majorType : UInt32} (value : UInt32) (hm : majorType < 8) {k : Nat}
    (hk : k < (head majorType value).length) : frame ((head majorType value).take k) = .incomplete := by
  unfold head at hk ⊢
  split at hk
  · next h =>
    obtain rfl : k = 0 := Nat.lt_one_iff.mp hk
    rfl
  next h₁ =>
  rw [if_neg h₁]
  split at hk
  · next h =>
    rw [if_pos h]
    exact frame_wide_take .one hm rfl hk
  next h₂ =>
  rw [if_neg h₂]
  split at hk
  · next h =>
    rw [if_pos h]
    exact frame_wide_take .two hm rfl hk
  · next h =>
    rw [if_neg h]
    exact frame_wide_take .four hm rfl hk

theorem frame_heading {c : CborCall} {later : List UInt8} (hlength : c.payload.length < 2 ^ 31)
    (h : later.length < c.payload.length) : frame (c.heading ++ later) = .incomplete := by
  have hannounced : ∀ majorType : UInt32, majorType = 2 ∨ majorType = 3 →
      frame (head majorType (UInt32.ofNat c.payload.length) ++ later) = .incomplete := by
    intro majorType hm
    have hlt : majorType < 8 := by rcases hm with rfl | rfl <;> decide
    have ht : majorType.toNat = 2 ∨ majorType.toNat = 3 := by rcases hm with rfl | rfl <;> decide
    have hsize : (UInt32.ofNat c.payload.length).toInt32.toInt = c.payload.length := by
      rw [UInt32.toInt32_ofNat', Int32.toInt_ofNat_of_lt hlength]
    rw [frame_head _ hlt, frameValue, if_pos ht, frameBytes, hsize, if_neg (by omega), Int.toNat_natCast, if_pos h]
  cases c with
  | bytes data => exact hannounced 2 (.inl rfl)
  | string str => exact hannounced 3 (.inr rfl)
  | _ => exact absurd h (Nat.not_lt_zero _)

/-- **Of a call that is cut not all is there**, whatever there was room for
behind it. -/
theorem frame_cut {c : CborCall} {room : Nat} {later : List UInt8} (hlength : c.payload.length < 2 ^ 31)
    (hroom : room < c.encoding.length) (hlater : later.length ≤ room - (c.heading.take room).length) :
    frame (c.heading.take room ++ later) = .incomplete := by
  have hencoding : c.encoding.length = c.heading.length + c.payload.length := List.length_append
  rw [List.length_take] at hlater
  by_cases hhead : room < c.heading.length
  · obtain rfl : later = [] := List.length_eq_zero_iff.mp (by omega)
    rw [List.append_nil]
    exact frame_head_take c.value c.majorType_lt hhead
  · rw [List.take_of_length_le (by omega)]
    exact frame_heading hlength (by omega)

end CborCall

/-! ## Sequences of calls -/

/-- The calls before the first of which something is dropped. -/
def intact : List CborCall → CborWriter → List CborCall
  | [], _ => []
  | c :: calls, w => if c.Fits w then c :: intact calls (c.write w) else []

theorem writeAll_append (calls : List CborCall) {w : CborWriter} (hw : w.Holds) :
    ∃ extra, writeAll calls w = w.append extra ∧ extra.length ≤ w.room := by
  induction calls generalizing w with
  | nil => exact ⟨[], (w.append_nil).symm, Nat.zero_le _⟩
  | cons c calls ih =>
    obtain ⟨first, hfirst, hle⟩ : ∃ first, c.write w = w.append first ∧ first.length ≤ w.room := by
      refine ⟨_, c.write_append hw, ?_⟩
      split
      · next hroom => exact hroom
      · rw [List.length_take]
        omega
    obtain ⟨extra, hextra, hle'⟩ := ih (hw.append hle)
    rw [CborWriter.room_append] at hle'
    refine ⟨first ++ extra, ?_, ?_⟩
    · show writeAll calls (c.write w) = _
      rw [hfirst, hextra, CborWriter.append_append]
    · rw [List.length_append]
      omega

/-- What is left in the output: the calls before the first that is cut, and
not all of an item. -/
theorem writeAll_cut {calls : List CborCall} (hlength : ∀ c ∈ calls, c.payload.length < 2 ^ 31) {w : CborWriter}
    (hw : w.Holds) :
    ∃ tail, writeAll calls w = w.append (encodings (intact calls w) ++ tail) ∧ frame tail = .incomplete := by
  induction calls generalizing w with
  | nil => exact ⟨[], (w.append_nil).symm, rfl⟩
  | cons c calls ih =>
    have hwrite := c.write_append hw
    show ∃ tail, writeAll calls (c.write w) = _ ∧ _
    by_cases hfits : c.Fits w
    · have hroom := (c.fits_iff hw).mp hfits
      rw [if_pos hroom] at hwrite
      obtain ⟨tail, htail, hframe⟩ := ih (fun c' hc => hlength c' (List.mem_cons_of_mem _ hc)) (hw.append hroom)
      refine ⟨tail, ?_, hframe⟩
      rw [intact, if_pos hfits, hwrite, htail, CborWriter.append_append, ← List.append_assoc]
      rfl
    · have hroom := mt (c.fits_iff hw).mpr hfits
      rw [if_neg hroom] at hwrite
      have hle : (c.heading.take w.room).length ≤ w.room := by
        rw [List.length_take]
        omega
      obtain ⟨extra, hextra, hle'⟩ := writeAll_append calls (hw.append hle)
      rw [CborWriter.room_append] at hle'
      refine ⟨c.heading.take w.room ++ extra, ?_,
        CborCall.frame_cut (hlength c List.mem_cons_self) (by omega) hle'⟩
      rw [intact, if_neg hfits, hwrite, hextra, CborWriter.append_append]
      rfl

theorem holds_new {capacity : Int} (h : 0 ≤ capacity) : (CborWriter.new (.new capacity)).Holds := h

theorem written_cut {calls : List CborCall} (hlength : ∀ c ∈ calls, c.payload.length < 2 ^ 31) {capacity : Int}
    (h : 0 ≤ capacity) :
    ∃ tail, written calls capacity = encodings (intact calls (.new (.new capacity))) ++ tail ∧
      frame tail = .incomplete ∧ (written calls capacity).length ≤ capacity := by
  obtain ⟨tail, htail, hframe⟩ := writeAll_cut hlength (holds_new h)
  obtain ⟨extra, hextra, hle⟩ := writeAll_append calls (holds_new h)
  refine ⟨tail, by rw [written, htail]; rfl, hframe, ?_⟩
  rw [written, hextra]
  have hroom : (CborWriter.new (.new capacity)).room = capacity.toNat := by
    show (capacity - 0).toNat = _
    rw [Int.sub_zero]
  show ((([] ++ extra : List UInt8).length : Nat) : Int) ≤ capacity
  rw [List.nil_append]
  omega

theorem intact_subset (calls : List CborCall) (w : CborWriter) : ∀ c ∈ intact calls w, c ∈ calls := by
  induction calls generalizing w with
  | nil => exact fun c hc => hc
  | cons c calls ih =>
    intro c' hc
    rw [intact] at hc
    split at hc
    · rcases List.mem_cons.mp hc with rfl | hc
      · exact List.mem_cons_self
      · exact List.mem_cons_of_mem _ (ih _ c' hc)
    · cases hc

/-- **Of calls written into too little room the reader sees those before the
first that is cut, and nothing else.** -/
theorem reads_written {calls : List CborCall} {capacity : Int} (h : 0 ≤ capacity)
    (hpayload : ∀ c ∈ calls, capacity + c.payload.length < 2 ^ 31) :
    ∃ tail, Reads (written calls capacity) ((intact calls (.new (.new capacity))).map CborCall.event) tail ∧
      frame tail = .incomplete ∧ (written calls capacity).length < 2 ^ 31 := by
  have hlength : ∀ c ∈ calls, c.payload.length < 2 ^ 31 := by
    intro c hc
    have := hpayload c hc
    omega
  obtain ⟨tail, hdata, hframe, hle⟩ := written_cut hlength h
  refine ⟨tail, ?_, hframe, ?_⟩
  · rw [hdata]
    exact reads_encodings (fun c hc => hlength c (intact_subset calls _ c hc)) tail
  · cases calls with
    | nil => exact Nat.two_pow_pos 31
    | cons c calls =>
      have := hpayload c List.mem_cons_self
      omega

end Zql
