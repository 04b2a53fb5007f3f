/-
Requests that look something up or add a row, written and then parsed. A row
comes back unless it is empty (`add_round_trip_iff`): a map of no entries is
counted down from zero. A primary key comes back when the 64-bit writer and
the `int` it is read as agree on it (`get_round_trip_iff`).
-/
import Zql.Database
import Zql.Delivery
import Zql.Headers

namespace Zql

open Scanning

/-! ## Adding -/

theorem understood_add (id : UInt32) {request : RequestAdd} (hne : request.row ≠ ∅)
    (hlength : (Wrapper.request ⟨id, .add request⟩).bytes.length < 2 ^ 31) :
    (Wrapper.request ⟨id, .add request⟩).Understood := by
  have hbytes : (Wrapper.request ⟨id, .add request⟩).bytes =
      head 6 tagRequestWrapper ++ head 4 2 ++ head 0 id ++ request.bytes := rfl
  refine understood_of_body hbytes hlength (fun p hs => feed_requestWrapper hs id) request.puts.encodes ?_
  intro currentKey elements currentObject
  have hsize : (Int32.ofNat request.row.size).toUInt32.toNat = request.row.toList.length := by
    refine rowSize_toNat ?_
    simp only [Wrapper.bytes, Request.bytes, RequestAdd.bytes, List.length_append] at hlength
    omega
  let mapped : ObjectParser :=
    ⟨.requestAddRowMapKey, currentKey, Int32.ofNat request.row.size,
      some (.requestAdd { database := request.database, table := request.table }), id⟩
  have hhead : feed ObjectParser.on ⟨.requestWrapperBody, currentKey, elements, currentObject, id⟩
      [.tag tagRequestAdd, .array 3, .string request.database, .string request.table,
        .map (Int32.ofNat request.row.size)] = some (mapped, []) := rfl
  obtain ⟨p', hfeed, hs'⟩ := (ObjectParser.CountsDown.requestAdd request.database request.table).feeds
    (mt Std.ExtTreeMap.toList_eq_nil_iff.mp hne) (p := mapped) rfl rfl hsize
  rw [foldl_insert_toList] at hfeed
  exact ⟨p', feed_append hhead hfeed, hs'⟩

/-- The items of a request to add, before the entries of its row. -/
def addEvents (id : UInt32) (database table : Str) (size : Int32) : List CborEvent :=
  [.tag tagRequestWrapper, .array 2, .integer id.toInt32, .tag tagRequestAdd, .array 3, .string database,
    .string table, .map size]

/-- The items of a request to add a row that is empty, and of whatever comes
after it: 2^32 entries are waited for. -/
theorem messages_empty_add (id : UInt32) (database table : Str) {rest : List CborEvent} (h : rest.length < 2 ^ 32) :
    messages (addEvents id database table 0 ++ rest) = [] := by
  refine messages_none ?_
  have hcount : mapCount 0 = 2 ^ 32 := by simpa using mapCount_ofNat 0
  rw [addEvents, (headed_add id database table 0).run, rowOf_none (by omega), Option.map_none]

theorem items_length_le (l : List UInt8) : (items l).length ≤ l.length := by
  obtain ⟨l', hreads, -⟩ := reads_items l
  have := hreads.events_le
  omega

/-! ## Looking up -/

/-- The head of a value that has as many bytes put as are announced, and no
more than four. -/
theorem head64_eq_head {value : UInt64} (h : value.toNat < 256 ∨ 65536 ≤ value.toNat ∧ value.toNat < 2 ^ 32) :
    head64 0 value = head 0 value.toUInt32 := by
  have hsame : value.toUInt32.toNat = value.toNat := by
    rw [UInt64.toNat_toUInt32]
    exact Nat.mod_eq_of_lt (by omega)
  rw [head64_eq_header (by decide) (by omega), head_eq_header (by decide), hsame]
  rfl

/-- A number of four bytes read as an `int` and taken for an `unsigned long
long` is what it was below 2^31. -/
theorem integer_pk_iff {pk : UInt64} (h : pk.toNat < 2 ^ 32) :
    pk.toUInt32.toInt32.toInt64.toUInt64 = pk ↔ pk.toNat < 2 ^ 31 := by
  have hwide : pk.toInt64.toInt = Int.bmod pk.toNat (2 ^ 64) := by
    conv_lhs => rw [← UInt64.ofNat_toNat (x := pk), UInt64.toInt64_ofNat', Int64.toInt_ofNat']
    rfl
  have hnarrow : pk.toUInt32.toInt32.toInt64.toInt = Int.bmod pk.toNat (2 ^ 32) := by
    rw [Int32.toInt_toInt64]
    conv_lhs => rw [← UInt64.ofNat_toNat (x := pk), UInt64.toUInt32_ofNat', UInt32.toInt32_ofNat', Int32.toInt_ofNat']
    rfl
  have hiff : pk.toUInt32.toInt32.toInt64.toUInt64 = pk ↔ pk.toUInt32.toInt32.toInt64.toInt = pk.toInt64.toInt := by
    rw [Int64.toInt_inj]
    exact ⟨fun he => by rw [← he, Int64.toInt64_toUInt64, he], fun he => by rw [he, UInt64.toUInt64_toInt64]⟩
  rw [hiff, hwide, hnarrow, Int.bmod_def, Int.bmod_def]
  omega

theorem prepareKeybuf_pk {pk : UInt64} (h : pk.toNat < 2 ^ 31) :
    Database.prepareKeybuf pk.toUInt32.toInt32 = decimal pk.toNat := by
  have hvalue : pk.toUInt32.toInt32.toInt = pk.toNat := by
    conv_lhs =>
      rw [← UInt64.ofNat_toNat (x := pk), UInt64.toUInt32_ofNat', UInt32.toInt32_ofNat', Int32.toInt_ofNat_of_lt h]
  rw [Database.prepareKeybuf, hvalue, if_neg (by omega), Int.natAbs_natCast]

/-- A primary key that has as many bytes put as are announced, and that an
`int` has room for. -/
def RequestGet.Finds (r : RequestGet) : Prop := r.pk.toNat < 256 ∨ 65536 ≤ r.pk.toNat ∧ r.pk.toNat < 2 ^ 31

/-- The items of a request to look up, before its primary key. -/
def getEvents (id : UInt32) (r : RequestGet) : List CborEvent :=
  [.tag tagRequestWrapper, .array 2, .integer id.toInt32, .tag tagRequestGet, .array 3, .string r.database,
    .string r.table]

theorem messages_get (id : UInt32) (r : RequestGet) (pk : Int32) :
    messages (getEvents id r ++ [.integer pk]) = [.request ⟨id, .get { r with pk := pk.toInt64.toUInt64 }⟩] := by
  have hrun : message.run (getEvents id r ++ [.integer pk]) =
      some (.request ⟨id, .get { r with pk := pk.toInt64.toUInt64 }⟩, []) := rfl
  rw [messages_some hrun, messages_none rfl]

theorem messages_get_none (id : UInt32) (r : RequestGet) : messages (getEvents id r) = [] := messages_none rfl

/-- The bytes of a request to look up before its primary key. -/
def getBytes (id : UInt32) (r : RequestGet) : List UInt8 :=
  head 6 tagRequestWrapper ++ head 4 2 ++ head 0 id ++
    (head 6 tagRequestGet ++ head 4 3 ++ contentsBytes 3 r.database ++ contentsBytes 3 r.table)

theorem bytes_get (id : UInt32) (r : RequestGet) :
    (Wrapper.request ⟨id, .get r⟩).bytes = getBytes id r ++ head64 0 r.pk := by
  simp only [Wrapper.bytes, Request.bytes, RequestGet.bytes, getBytes, List.append_assoc]

theorem encodes_getBytes (id : UInt32) (r : RequestGet) (h : (getBytes id r).length < 2 ^ 31) :
    Encodes (getBytes id r) (getEvents id r) := by
  have hputs := (puts_wrapper tagRequestWrapper id).comp ((((puts_writeTag tagRequestGet).comp
    (puts_writeArray 3)).comp (puts_writeString r.database)).comp (puts_writeString r.table))
  exact hputs.encodes h

/-- The second of the bytes that are announced is missing. -/
theorem head64_missing {value : UInt64} (h : ¬ value.toNat < 256) (h' : value.toNat < 65536) :
    frame (head64 0 value) = .incomplete := by
  have h₁ : ¬ value < 24 := by
    show ¬ value.toNat < 24
    omega
  simp only [head64, if_neg h₁, if_neg (show ¬ value < 256 from h), if_pos (show value < 65536 from h')]
  rfl

theorem head64_skipped {value : UInt64} (h : ¬ value.toNat < 2 ^ 32) : frame (head64 0 value) = .item none [] := by
  have hge : ∀ n : UInt64, n.toNat ≤ 2 ^ 32 → ¬ value < n := by
    intro n hn hlt
    rw [UInt64.lt_iff_toNat_lt] at hlt
    omega
  simp only [head64, if_neg (hge 24 (by decide)), if_neg (hge 256 (by decide)), if_neg (hge 65536 (by decide)),
    if_neg (hge 4294967296 (by decide))]
  rfl

/-- **What a request to look up is received as**, by its primary key. -/
theorem delivers_get (id : UInt32) (r : RequestGet) (h : (Wrapper.request ⟨id, .get r⟩).bytes.length < 2 ^ 31) :
    Delivers (Wrapper.request ⟨id, .get r⟩).bytes
      (if r.pk.toNat < 256 ∨ 65536 ≤ r.pk.toNat ∧ r.pk.toNat < 2 ^ 32 then
        [.request ⟨id, .get { r with pk := r.pk.toUInt32.toInt32.toInt64.toUInt64 }⟩]
      else []) := by
  rw [bytes_get] at h ⊢
  have hencodes := encodes_getBytes id r (by rw [List.length_append] at h; omega)
  split
  · next hpk =>
    rw [head64_eq_head hpk] at h ⊢
    obtain ⟨hitems, hreadable⟩ := (puts_writeUInt r.pk.toUInt32).encodes (by simp only [List.length_append] at h; omega) []
    rw [List.append_nil] at hitems hreadable
    have hdelivers := delivers_encodes hencodes h (hreadable readable_nil)
    rwa [hitems, items_incomplete rfl, List.append_nil, messages_get] at hdelivers
  · next hpk =>
    by_cases hlong : r.pk.toNat < 2 ^ 32
    · have hframe : frame (head64 0 r.pk) = .incomplete := head64_missing (by omega) (by omega)
      have hdelivers := delivers_encodes hencodes h (readable_incomplete hframe)
      rwa [items_incomplete hframe, List.append_nil, messages_get_none] at hdelivers
    · have hframe := head64_skipped hlong
      have hdelivers := delivers_encodes hencodes h (readable_item hframe readable_nil)
      rwa [items_item hframe, items_incomplete rfl, List.append_nil, Option.toList_none, List.append_nil,
        messages_get_none] at hdelivers

/-! ## Coming back -/

/-- The messages that come back as they were: a request to add has columns
too, and one to look up a primary key that is found. -/
inductive Wrapper.ComesBack : Wrapper → Prop
  | faithful {m : Wrapper} (h : m.Faithful) : ComesBack m
  | add (id : UInt32) (request : RequestAdd) (h : request.row ≠ ∅) : ComesBack (.request ⟨id, .add request⟩)
  | get (id : UInt32) (request : RequestGet) (h : request.Finds) : ComesBack (.request ⟨id, .get request⟩)

theorem understood_get (id : UInt32) {request : RequestGet} (h : request.Finds)
    (hlength : (Wrapper.request ⟨id, .get request⟩).bytes.length < 2 ^ 31) :
    (Wrapper.request ⟨id, .get request⟩).Understood := by
  obtain ⟨hbytes, hlow⟩ : (request.pk.toNat < 256 ∨ 65536 ≤ request.pk.toNat ∧ request.pk.toNat < 2 ^ 32) ∧
      request.pk.toNat < 2 ^ 31 := by
    rcases h with h | h <;> omega
  have hpk := (integer_pk_iff (by omega)).mpr hlow
  have hputs := ((((puts_writeTag tagRequestGet).comp (puts_writeArray 3)).comp (puts_writeString request.database)).comp
    (puts_writeString request.table)).comp (puts_writeUInt request.pk.toUInt32)
  rw [← head64_eq_head hbytes] at hputs
  have hbytes : (Wrapper.request ⟨id, .get request⟩).bytes =
      head 6 tagRequestWrapper ++ head 4 2 ++ head 0 id ++ request.bytes := rfl
  refine understood_of_body hbytes hlength (fun p hs => feed_requestWrapper hs id) hputs.encodes ?_
  intro currentKey elements currentObject
  let received : RequestGet := { request with pk := request.pk.toUInt32.toInt32.toInt64.toUInt64 }
  have hfeed : feed ObjectParser.on ⟨.requestWrapperBody, currentKey, elements, currentObject, id⟩
      [.tag tagRequestGet, .array 3, .string request.database, .string request.table,
        .integer request.pk.toUInt32.toInt32] =
      some (⟨.init, currentKey, elements, some (.requestGet received), id⟩,
        [.message (.request ⟨id, .get received⟩)]) := rfl
  have hsame : received = request := by
    show { request with pk := request.pk.toUInt32.toInt32.toInt64.toUInt64 } = request
    rw [hpk]
  rw [hsame] at hfeed
  exact ⟨_, hfeed, rfl⟩

theorem Wrapper.ComesBack.understood {m : Wrapper} (h : m.ComesBack) (hlength : m.bytes.length < 2 ^ 31) :
    m.Understood := by
  cases h with
  | faithful h => exact h.understood hlength
  | add id request h => exact understood_add id h hlength
  | get id request h => exact understood_get id h hlength

/-- Bytes that are parsed into messages, and only these, with no call of
`OnError`. -/
theorem Delivers.of_run {data : List UInt8} {ms : List Wrapper} {fuel : Nat} {p p' : ObjectParser}
    (h : ObjectParser.run record fuel p data [] = some (.ok (.returned, p', ms.map .message))) {ms' : List Wrapper}
    (hdelivers : Delivers data ms') : ms = ms' := by
  obtain ⟨fuel', p'', calls, hrun, rfl⟩ := hdelivers p
  cases ObjectParser.run_unique h hrun
  rw [List.filterMap_map]
  exact List.filterMap_some.symm

theorem encodes_add (id : UInt32) (r : RequestAdd) (h : (Wrapper.request ⟨id, .add r⟩).bytes.length < 2 ^ 31) :
    Encodes (Wrapper.request ⟨id, .add r⟩).bytes
      (addEvents id r.database r.table (Int32.ofNat r.row.size) ++ r.row.toList.flatMap entryEvents) :=
  ((puts_wrapper tagRequestWrapper id).comp r.puts).encodes h

/-- A request to add a row that is empty is received as nothing, and nothing
behind it is received. -/
theorem delivers_empty_add (id : UInt32) (database table : Str) {tail : List UInt8}
    (hlength : ((Wrapper.request ⟨id, .add { database, table }⟩).bytes ++ tail).length < 2 ^ 31) (h : Readable tail) :
    Delivers ((Wrapper.request ⟨id, .add { database, table }⟩).bytes ++ tail) [] := by
  rw [List.length_append] at hlength
  have hencodes := encodes_add id { database, table } (by omega)
  have hdelivers := delivers_encodes hencodes (by rw [List.length_append]; exact hlength) h
  have hfew := items_length_le tail
  have hnone := messages_empty_add id database table (show (items tail).length < 2 ^ 32 by omega)
  have hevents : addEvents id database table (Int32.ofNat (∅ : Row).size) ++ (∅ : Row).toList.flatMap entryEvents =
      addEvents id database table 0 := by
    simp
  rwa [hevents, hnone] at hdelivers

/-- **A request to add comes back, and so do the messages behind it, when
its row has columns**, and otherwise nothing does. -/
theorem add_round_trip_iff (id : UInt32) (request : RequestAdd) {ms : List Wrapper} (hms : ∀ m ∈ ms, m.ComesBack)
    {capacity : Int} (hroom : ((.request ⟨id, .add request⟩ :: ms).flatMap Wrapper.bytes).length ≤ capacity)
    (hcapacity : capacity < 2 ^ 31) (p : ObjectParser) :
    (∃ fuel p',
      ObjectParser.run record fuel p
          (serializeAll (.request ⟨id, .add request⟩ :: ms) (.new (.new capacity))).output.data [] =
        some (.ok (.returned, p', (Wrapper.request ⟨id, .add request⟩ :: ms).map .message)) ∧
      p'.state = .init) ↔ request.row ≠ ∅ := by
  have hlength : ((.request ⟨id, .add request⟩ :: ms).flatMap Wrapper.bytes).length < 2 ^ 31 := by omega
  have hshort : ∀ m ∈ Wrapper.request ⟨id, .add request⟩ :: ms, m.bytes.length < 2 ^ 31 := by
    intro m hm
    have hle := bytes_length_le hm
    omega
  constructor
  · rintro ⟨fuel, p', hrun, -⟩ hempty
    rw [serializeAll_data hroom, List.flatMap_cons] at hrun
    rw [List.flatMap_cons] at hlength
    obtain ⟨database, table, row⟩ := request
    cases hempty
    obtain ⟨events, hencodes, -⟩ := understood_all fun m hm =>
      (hms m hm).understood (hshort m (List.mem_cons_of_mem _ hm))
    have hreadable := (hencodes []).2 readable_nil
    rw [List.append_nil] at hreadable
    cases Delivers.of_run hrun (delivers_empty_add id database table hlength hreadable)
  · intro hne
    refine run_understood (fun m hm => ?_) hroom hlength p
    rcases List.mem_cons.mp hm with rfl | hm'
    · exact understood_add id hne (hshort _ hm)
    · exact (hms m hm').understood (hshort m hm)

/-- A row with one column, and a response behind it. -/
theorem add_round_trip_iff_column :
    ∃ fuel p',
      ObjectParser.run record fuel .new
          (serializeAll [.request ⟨1, .add { table := [0x74], row := (∅ : Row).insert [0x6B] [0x76] }⟩,
            .response ⟨2, .addOk⟩] (.new (.new 100))).output.data [] =
        some (.ok (.returned, p', [Wrapper.request ⟨1, .add { table := [0x74], row := (∅ : Row).insert [0x6B] [0x76] }⟩,
          .response ⟨2, .addOk⟩].map .message)) ∧
      p'.state = .init :=
  (add_round_trip_iff 1 { table := [0x74], row := (∅ : Row).insert [0x6B] [0x76] }
    (List.forall_mem_singleton.mpr (.faithful (.addOk 2))) (by decide) (by decide) .new).mpr (by simp)

/-- A row with none. -/
theorem add_not_received :
    ¬ ∃ fuel p',
      ObjectParser.run record fuel .new
          (serializeAll [.request ⟨1, .add { table := [0x74] }⟩] (.new (.new 100))).output.data [] =
        some (.ok (.returned, p', [Wrapper.request ⟨1, .add { table := [0x74] }⟩].map .message)) ∧
      p'.state = .init := by
  rintro ⟨fuel, p', hrun, -⟩
  rw [serializeAll_data (by decide)] at hrun
  have hdelivers := delivers_empty_add 1 [] [0x74] (by decide) readable_nil
  cases Delivers.of_run hrun hdelivers

/-! ## Finding -/

theorem serialize_data {m : Wrapper} {capacity : Int} (hroom : m.bytes.length ≤ capacity) :
    (m.serialize (.new (.new capacity))).output.data = m.bytes := by
  have hall : ([m].flatMap Wrapper.bytes).length ≤ capacity := by rwa [List.flatMap_singleton]
  have hdata := serializeAll_data hall
  rwa [List.flatMap_singleton] at hdata

/-- **The primary key that is looked up is the one asked for** when it is
below 256, or from 65536 on and below 2^31. -/
theorem get_round_trip_iff (id : UInt32) (request : RequestGet) {capacity : Int}
    (hroom : (Wrapper.request ⟨id, .get request⟩).bytes.length ≤ capacity) (hcapacity : capacity < 2 ^ 31) :
    (Delivers ((Wrapper.request ⟨id, .get request⟩).serialize (.new (.new capacity))).output.data
        [.request ⟨id, .get request⟩] ∧
      Database.prepareKeybuf request.pk.toUInt32.toInt32 = decimal request.pk.toNat) ↔
    request.pk.toNat < 256 ∨ 65536 ≤ request.pk.toNat ∧ request.pk.toNat < 2 ^ 31 := by
  have hdelivers := delivers_get id request (by omega)
  rw [serialize_data hroom]
  constructor
  · rintro ⟨hreceived, -⟩
    have hsame := hdelivers.unique hreceived
    split at hsame
    · next hpk =>
      simp only [List.cons.injEq, Wrapper.request.injEq, RequestWrapper.mk.injEq, Request.get.injEq, and_true,
        true_and] at hsame
      have hlow := (integer_pk_iff (by omega)).mp (congrArg RequestGet.pk hsame)
      omega
    · cases hsame
  · intro hpk
    rw [if_pos (by omega), (integer_pk_iff (by omega)).mpr (by omega)] at hdelivers
    exact ⟨hdelivers, prepareKeybuf_pk (by omega)⟩

theorem get_round_trip_iff_large :
    Delivers ((Wrapper.request ⟨1, .get { pk := 65536 }⟩).serialize (.new (.new 100))).output.data
        [.request ⟨1, .get { pk := 65536 }⟩] ∧
      Database.prepareKeybuf (65536 : UInt64).toUInt32.toInt32 = decimal (65536 : UInt64).toNat :=
  (get_round_trip_iff 1 { pk := 65536 } (by decide) (by decide)).mpr (.inr ⟨by decide, by decide⟩)

/-- The second byte of 256 is not put, and the request is waited for. -/
theorem get_not_received :
    ¬ Delivers ((Wrapper.request ⟨1, .get { pk := 256 }⟩).serialize (.new (.new 100))).output.data
        [.request ⟨1, .get { pk := 256 }⟩] := by
  intro hreceived
  have hdelivers := delivers_get 1 { pk := 256 } (by decide)
  rw [serialize_data (by decide)] at hreceived
  cases hdelivers.unique hreceived

end Zql
