/-
What is written and then parsed: the responses and the request to continue
come back as they were, one call for each, and nothing is complained about
(`wire_round_trip`).

A message is understood when the items its bytes are read as make a parser
call its listener with that message and start again. A list of messages
that are understood is, whatever they are.
-/
import Zql.Wire
import Zql.Parsing

namespace Zql

open Looping Scanning

/-! ## Bytes -/

def entryBytes (entry : Str × Str) : List UInt8 := contentsBytes 3 entry.1 ++ contentsBytes 3 entry.2

def entryEvents (entry : Str × Str) : List CborEvent := [.string entry.1, .string entry.2]

theorem puts_writeRow (row : Row) :
    Puts (·.writeRow row) (row.toList.flatMap entryBytes) (row.toList.flatMap entryEvents) := by
  unfold CborWriter.writeRow
  induction row.toList with
  | nil => exact puts_nil
  | cons entry entries ih => exact ((puts_writeString entry.1).comp (puts_writeString entry.2)).comp ih

def RequestGet.bytes (r : RequestGet) : List UInt8 :=
  head 6 tagRequestGet ++ head 4 3 ++ contentsBytes 3 r.database ++ contentsBytes 3 r.table ++ head64 0 r.pk

def RequestAdd.bytes (r : RequestAdd) : List UInt8 :=
  head 6 tagRequestAdd ++ head 4 3 ++ contentsBytes 3 r.database ++ contentsBytes 3 r.table ++
    head 5 (Int32.ofNat r.row.size).toUInt32 ++ r.row.toList.flatMap entryBytes

def RequestAddContinue.bytes (r : RequestAddContinue) : List UInt8 :=
  head 6 tagRequestAddContinue ++ head 4 2 ++ head 0 r.initRequestId ++ intBytes r.compareResult

def Request.bytes : Request → List UInt8
  | .get r => r.bytes
  | .add r => r.bytes
  | .addContinue r => r.bytes

def ResponseGetOk.bytes (r : ResponseGetOk) : List UInt8 :=
  head 6 tagResponseGetOk ++ head 5 (Int32.ofNat r.values.size).toUInt32 ++ r.values.toList.flatMap entryBytes

def ResponseAddTraverse.bytes (r : ResponseAddTraverse) : List UInt8 :=
  head 6 tagResponseAddTraverse ++ head 4 2 ++ head 0 r.initRequestId ++ contentsBytes 2 r.ciphertext

def Response.bytes : Response → List UInt8
  | .getOk r => r.bytes
  | .getEmpty => head 6 tagResponseGetNotFound ++ head 5 0
  | .addOk => head 6 tagResponseAddOk ++ head 5 0
  | .addTraverse r => r.bytes

def Wrapper.serialize : Wrapper → CborWriter → CborWriter
  | .request wrapper => wrapper.serialize
  | .response wrapper => wrapper.serialize

/-- The bytes of a message, as they are put when there is room for them. -/
def Wrapper.bytes : Wrapper → List UInt8
  | .request wrapper => head 6 tagRequestWrapper ++ head 4 2 ++ head 0 wrapper.id ++ wrapper.request.bytes
  | .response wrapper => head 6 tagResponseWrapper ++ head 4 2 ++ head 0 wrapper.id ++ wrapper.response.bytes

theorem RequestGet.emits (r : RequestGet) : Emits r.serialize r.bytes :=
  ((((puts_writeTag _).emits.comp (puts_writeArray 3).emits).comp (puts_writeString r.database).emits).comp
    (puts_writeString r.table).emits).comp (emits_head64 0 r.pk)

theorem RequestAdd.puts (r : RequestAdd) :
    Puts r.serialize r.bytes
      ([.tag tagRequestAdd, .array 3, .string r.database, .string r.table, .map (Int32.ofNat r.row.size)] ++
        r.row.toList.flatMap entryEvents) :=
  (((((puts_writeTag _).comp (puts_writeArray 3)).comp (puts_writeString r.database)).comp
    (puts_writeString r.table)).comp (puts_writeMap _)).comp (puts_writeRow r.row)

theorem RequestAddContinue.puts (r : RequestAddContinue) :
    Puts r.serialize r.bytes
      [.tag tagRequestAddContinue, .array 2, .integer r.initRequestId.toInt32, .integer r.compareResult] :=
  (((puts_writeTag _).comp (puts_writeArray 2)).comp (puts_writeUInt r.initRequestId)).comp
    (puts_writeInt r.compareResult)

theorem ResponseGetOk.puts (r : ResponseGetOk) :
    Puts r.serialize r.bytes
      ([.tag tagResponseGetOk, .map (Int32.ofNat r.values.size)] ++ r.values.toList.flatMap entryEvents) :=
  ((puts_writeTag _).comp (puts_writeMap _)).comp (puts_writeRow r.values)

theorem ResponseAddTraverse.puts (r : ResponseAddTraverse) :
    Puts r.serialize r.bytes
      [.tag tagResponseAddTraverse, .array 2, .integer r.initRequestId.toInt32, .bytes r.ciphertext] :=
  (((puts_writeTag _).comp (puts_writeArray 2)).comp (puts_writeUInt r.initRequestId)).comp
    (puts_writeBytes r.ciphertext)

theorem puts_empty (tag : UInt32) :
    Puts (fun w => (w.writeTag tag).writeMap 0) (head 6 tag ++ head 5 0) [.tag tag, .map 0] :=
  (puts_writeTag tag).comp (puts_writeMap 0)

theorem Request.emits (r : Request) : Emits r.serialize r.bytes := by
  cases r with
  | get r => exact r.emits
  | add r => exact r.puts.emits
  | addContinue r => exact r.puts.emits

theorem Response.emits (r : Response) : Emits r.serialize r.bytes := by
  cases r with
  | getOk r => exact r.puts.emits
  | getEmpty => exact (puts_empty _).emits
  | addOk => exact (puts_empty _).emits
  | addTraverse r => exact r.puts.emits

theorem puts_wrapper (tag id : UInt32) :
    Puts (fun w => ((w.writeTag tag).writeArray 2).writeUInt id) (head 6 tag ++ head 4 2 ++ head 0 id)
      [.tag tag, .array 2, .integer id.toInt32] :=
  ((puts_writeTag tag).comp (puts_writeArray 2)).comp (puts_writeUInt id)

theorem Wrapper.emits (m : Wrapper) : Emits m.serialize m.bytes := by
  cases m with
  | request wrapper => exact (puts_wrapper _ wrapper.id).emits.comp wrapper.request.emits
  | response wrapper => exact (puts_wrapper _ wrapper.id).emits.comp wrapper.response.emits

def serializeAll (ms : List Wrapper) (w : CborWriter) : CborWriter := ms.foldl (fun w m => m.serialize w) w

theorem emits_serializeAll (ms : List Wrapper) : Emits (serializeAll ms) (ms.flatMap Wrapper.bytes) := by
  unfold serializeAll
  induction ms with
  | nil => exact puts_nil.emits
  | cons m ms ih => exact m.emits.comp ih

/-! ## Rows -/

theorem ofList_toList (row : Row) : Std.ExtTreeMap.ofList row.toList = row := by
  refine Std.ExtTreeMap.ext_getElem? fun key => ?_
  cases hkey : row[key]? with
  | some value =>
    exact Std.ExtTreeMap.getElem?_ofList_of_mem Std.ReflCmp.compare_self Std.ExtTreeMap.distinct_keys_toList
      (Std.ExtTreeMap.mem_toList_iff_getElem?_eq_some.mpr hkey)
  | none =>
    refine Std.ExtTreeMap.getElem?_ofList_of_contains_eq_false ?_
    rw [Std.ExtTreeMap.map_fst_toList_eq_keys]
    simpa using hkey

theorem foldl_insert_toList (row : Row) : row.toList.foldl (fun row entry => row.insert entry.1 entry.2) ∅ = row := by
  rw [← Std.ExtTreeMap.ofList_eq_foldl, ofList_toList]

theorem length_le_entryBytes (entries : List (Str × Str)) : entries.length ≤ (entries.flatMap entryBytes).length := by
  induction entries with
  | nil => exact Nat.le_refl _
  | cons entry entries ih =>
    have hpos := head_pos 3 (UInt32.ofNat entry.1.length)
    simp only [List.flatMap_cons, List.length_append, List.length_cons, entryBytes, contentsBytes]
    omega

/-- The map of a row whose bytes are counted by an `int` says how many entries
follow. -/
theorem rowSize_toNat {row : Row} (h : (row.toList.flatMap entryBytes).length < 2 ^ 31) :
    (Int32.ofNat row.size).toUInt32.toNat = row.toList.length := by
  have hle := length_le_entryBytes row.toList
  rw [Std.ExtTreeMap.length_toList] at hle ⊢
  show (UInt32.ofNat row.size).toNat = row.size
  rw [UInt32.toNat_ofNat']
  omega

namespace ObjectParser

theorem CountsDown.feeds {keyState valueState : ObjectParserState} {object : Row → Object} {body : UInt32 → Row → Wrapper}
    (h : CountsDown keyState valueState object body) {entries : List (Str × Str)} (hne : entries ≠ []) {p : ObjectParser}
    {row : Row} (hs : p.state = keyState) (ho : p.currentObject = some (object row))
    (hn : p.elements.toUInt32.toNat = entries.length) :
    ∃ p', feed on p (entries.flatMap entryEvents) =
        some (p', [.message (body p.currentRequestId
          (entries.foldl (fun row entry => row.insert entry.1 entry.2) row))]) ∧
      p'.state = .init := by
  induction entries generalizing p row with
  | nil => exact absurd rfl hne
  | cons entry entries ih =>
    obtain ⟨key, value⟩ := entry
    let keyed : ObjectParser := { p with currentKey := key, state := valueState }
    have hkeyed : on p (.string key) = some (keyed, none) := (h.awaits_key hs).quiet rfl rfl
    have hleft : (keyed.elements - 1).toUInt32.toNat = entries.length := toUInt32_pred hn
    cases entries with
    | nil =>
      obtain ⟨call, hvalued, hcall⟩ := (h.awaits_last (p := keyed) rfl ho hleft).answers (e := .string value) rfl rfl
      cases call with
      | message wrapper =>
        cases hcall
        exact ⟨_, feed_cons hkeyed (feed_cons hvalued rfl), rfl⟩
      | error error => cases hcall
    | cons entry' entries =>
      let valued : ObjectParser :=
        { keyed with
          currentObject := some (object (row.insert key value))
          elements := p.elements - 1
          state := keyState }
      have hvalued : on keyed (.string value) = some (valued, none) :=
        (h.awaits_more (p := keyed) rfl ho hleft).quiet (e := .string value) rfl rfl
      obtain ⟨p', hfeed, hs'⟩ := ih (List.cons_ne_nil _ _) (p := valued) rfl rfl hleft
      exact ⟨p', feed_cons hkeyed (feed_cons hvalued hfeed), hs'⟩

end ObjectParser

/-! ## Messages -/

/-- The items of the message are read as it. -/
def Wrapper.Understood (m : Wrapper) : Prop :=
  ∃ events, Encodes m.bytes events ∧
    ∀ p : ObjectParser, p.state = .init → ∃ p', feed ObjectParser.on p events = some (p', [.message m]) ∧ p'.state = .init

theorem feed_requestWrapper {p : ObjectParser} (hs : p.state = .init) (id : UInt32) :
    feed ObjectParser.on p [.tag tagRequestWrapper, .array 2, .integer id.toInt32] =
      some ({ p with state := .requestWrapperBody, currentRequestId := id }, []) := by
  obtain ⟨state, currentKey, elements, currentObject, currentRequestId⟩ := p
  cases hs
  rfl

theorem feed_responseWrapper {p : ObjectParser} (hs : p.state = .init) (id : UInt32) :
    feed ObjectParser.on p [.tag tagResponseWrapper, .array 2, .integer id.toInt32] =
      some ({ p with state := .responseWrapperBody, currentRequestId := id }, []) := by
  obtain ⟨state, currentKey, elements, currentObject, currentRequestId⟩ := p
  cases hs
  rfl

theorem understood_of_body {m : Wrapper} {tag id : UInt32} {state : ObjectParserState} {body : List UInt8}
    {events : List CborEvent} (hbytes : m.bytes = head 6 tag ++ head 4 2 ++ head 0 id ++ body)
    (hlength : m.bytes.length < 2 ^ 31)
    (hhead : ∀ p : ObjectParser, p.state = .init →
      feed ObjectParser.on p [.tag tag, .array 2, .integer id.toInt32] =
        some ({ p with state, currentRequestId := id }, []))
    (hencodes : body.length < 2 ^ 31 → Encodes body events)
    (hbody : ∀ currentKey elements currentObject,
      ∃ p', feed ObjectParser.on ⟨state, currentKey, elements, currentObject, id⟩ events = some (p', [.message m]) ∧
        p'.state = .init) : m.Understood := by
  rw [hbytes, List.length_append] at hlength
  refine ⟨([.tag tag, .array 2, .integer id.toInt32] : List CborEvent) ++ events, ?_, fun p hs => ?_⟩
  · rw [hbytes]
    exact ((puts_wrapper tag id).encodes (by omega)).append (hencodes (by omega))
  · obtain ⟨p', hfeed, hs'⟩ := hbody p.currentKey p.elements p.currentObject
    exact ⟨p', feed_append (hhead p hs) hfeed, hs'⟩

theorem understood_getOk (id : UInt32) {response : ResponseGetOk} (hne : response.values ≠ ∅)
    (hlength : (Wrapper.response ⟨id, .getOk response⟩).bytes.length < 2 ^ 31) :
    (Wrapper.response ⟨id, .getOk response⟩).Understood := by
  refine understood_of_body rfl hlength (fun p hs => feed_responseWrapper hs id) response.puts.encodes ?_
  intro currentKey elements currentObject
  have hsize : (Int32.ofNat response.values.size).toUInt32.toNat = response.values.toList.length := by
    refine rowSize_toNat ?_
    simp only [Wrapper.bytes, Response.bytes, ResponseGetOk.bytes, List.length_append] at hlength
    omega
  have hhead : feed ObjectParser.on ⟨.responseWrapperBody, currentKey, elements, currentObject, id⟩
      [.tag tagResponseGetOk, .map (Int32.ofNat response.values.size)] =
        some (⟨.responseGetOkMapKey, currentKey, Int32.ofNat response.values.size, some (.responseGetOk {}), id⟩, []) :=
    rfl
  obtain ⟨p', hfeed, hs'⟩ := ObjectParser.CountsDown.responseGetOk.feeds (mt Std.ExtTreeMap.toList_eq_nil_iff.mp hne)
    (p := ⟨.responseGetOkMapKey, currentKey, Int32.ofNat response.values.size, some (.responseGetOk {}), id⟩)
    rfl rfl hsize
  rw [foldl_insert_toList] at hfeed
  exact ⟨p', feed_append hhead hfeed, hs'⟩

/-- The messages that come back as they were: the responses, a row of which
has columns, and the request to continue. -/
inductive Wrapper.Faithful : Wrapper → Prop
  | getOk (id : UInt32) (response : ResponseGetOk) (h : response.values ≠ ∅) : Faithful (.response ⟨id, .getOk response⟩)
  | getEmpty (id : UInt32) : Faithful (.response ⟨id, .getEmpty⟩)
  | addOk (id : UInt32) : Faithful (.response ⟨id, .addOk⟩)
  | addTraverse (id : UInt32) (response : ResponseAddTraverse) : Faithful (.response ⟨id, .addTraverse response⟩)
  | addContinue (id : UInt32) (request : RequestAddContinue) : Faithful (.request ⟨id, .addContinue request⟩)

theorem Wrapper.Faithful.understood {m : Wrapper} (h : m.Faithful) (hlength : m.bytes.length < 2 ^ 31) :
    m.Understood := by
  cases h with
  | getOk id response hne => exact understood_getOk id hne hlength
  | getEmpty id =>
    exact understood_of_body rfl hlength (fun p hs => feed_responseWrapper hs id) (puts_empty _).encodes
      fun _ _ _ => ⟨_, rfl, rfl⟩
  | addOk id =>
    exact understood_of_body rfl hlength (fun p hs => feed_responseWrapper hs id) (puts_empty _).encodes
      fun _ _ _ => ⟨_, rfl, rfl⟩
  | addTraverse id response =>
    exact understood_of_body rfl hlength (fun p hs => feed_responseWrapper hs id) response.puts.encodes
      fun _ _ _ => ⟨_, rfl, rfl⟩
  | addContinue id request =>
    exact understood_of_body rfl hlength (fun p hs => feed_requestWrapper hs id) request.puts.encodes
      fun _ _ _ => ⟨_, rfl, rfl⟩

/-! ## Lists of messages -/

theorem understood_all {ms : List Wrapper} (h : ∀ m ∈ ms, m.Understood) :
    ∃ events, Encodes (ms.flatMap Wrapper.bytes) events ∧
      ∀ p : ObjectParser, p.state = .init →
        ∃ p', feed ObjectParser.on p events = some (p', ms.map .message) ∧ p'.state = .init := by
  induction ms with
  | nil => exact ⟨[], .nil, fun p hs => ⟨p, rfl, hs⟩⟩
  | cons m ms ih =>
    obtain ⟨es, hes, hm⟩ := h m List.mem_cons_self
    obtain ⟨fs, hfs, hms⟩ := ih fun m' hm' => h m' (List.mem_cons_of_mem _ hm')
    refine ⟨es ++ fs, hes.append hfs, fun p hs => ?_⟩
    obtain ⟨p₁, hfeed₁, hs₁⟩ := hm p hs
    obtain ⟨p₂, hfeed₂, hs₂⟩ := hms p₁ hs₁
    exact ⟨p₂, feed_append hfeed₁ hfeed₂, hs₂⟩

theorem ObjectParser.run_encoded {L E : Type} (call : L → ObjectCall → Except E L) {p p' : ObjectParser}
    {data : List UInt8} {events : List CborEvent} {calls : List ObjectCall} (hencodes : Encodes data events)
    (hlength : data.length < 2 ^ 31) (hfeed : feed on { p with state := .init } events = some (p', calls)) {x x' : L}
    (hcalls : calls.foldlM call x = .ok x') : ∃ fuel, run call fuel p data x = some (.ok (.returned, p', x')) := by
  obtain ⟨hitems, hreadable⟩ := hencodes []
  rw [List.append_nil, items_incomplete (l := []) rfl, List.append_nil] at hitems
  rw [List.append_nil] at hreadable
  have hvisible : Readable (visible data) := by
    rw [visible_eq hlength]
    exact hreadable readable_nil
  have hrun := run_readable (listen call) hvisible ({ p with state := .init }, x)
  rw [visible_eq hlength, hitems, told, foldlM_listen call hfeed, hcalls] at hrun
  exact hrun

/-- A listener that writes down the calls. -/
def record (calls : List ObjectCall) (call : ObjectCall) : Except Empty (List ObjectCall) := .ok (calls ++ [call])

theorem foldlM_record (calls calls' : List ObjectCall) : calls'.foldlM record calls = .ok (calls ++ calls') := by
  induction calls' generalizing calls with
  | nil =>
    rw [List.append_nil]
    rfl
  | cons call calls' ih =>
    rw [List.append_cons]
    exact ih (calls ++ [call])

theorem serializeAll_data {ms : List Wrapper} {capacity : Int} (hroom : (ms.flatMap Wrapper.bytes).length ≤ capacity) :
    (serializeAll ms (.new (.new capacity))).output.data = ms.flatMap Wrapper.bytes := by
  rw [emits_serializeAll ms (.new (.new capacity)) (by
    show ((0 : Nat) : Int) + _ ≤ capacity
    omega)]
  rfl

/-- What is understood is understood when it is parsed, whatever the parser
was left with. -/
theorem run_understood {ms : List Wrapper} (hms : ∀ m ∈ ms, m.Understood) {capacity : Int}
    (hroom : (ms.flatMap Wrapper.bytes).length ≤ capacity) (hlength : (ms.flatMap Wrapper.bytes).length < 2 ^ 31)
    (p : ObjectParser) :
    ∃ fuel p',
      ObjectParser.run record fuel p (serializeAll ms (.new (.new capacity))).output.data [] =
          some (.ok (.returned, p', ms.map .message)) ∧
        p'.state = .init := by
  obtain ⟨events, hencodes, hfeeds⟩ := understood_all hms
  obtain ⟨p', hfeed, hs'⟩ := hfeeds { p with state := .init } rfl
  rw [serializeAll_data hroom]
  obtain ⟨fuel, hrun⟩ := ObjectParser.run_encoded record hencodes hlength hfeed (foldlM_record [] _)
  exact ⟨fuel, p', hrun, hs'⟩

theorem bytes_length_le {m : Wrapper} {ms : List Wrapper} (hm : m ∈ ms) :
    m.bytes.length ≤ (ms.flatMap Wrapper.bytes).length :=
  (List.sublist_flatten_of_mem (List.mem_map_of_mem hm)).length_le

/-- **Messages written one after the other come back one call for each, in
order and as they were**, whatever the parser was left with, and it is left
where it starts. -/
theorem wire_round_trip {ms : List Wrapper} (hms : ∀ m ∈ ms, m.Faithful) {capacity : Int}
    (hroom : (ms.flatMap Wrapper.bytes).length ≤ capacity) (hlength : (ms.flatMap Wrapper.bytes).length < 2 ^ 31)
    (p : ObjectParser) :
    ∃ fuel p',
      ObjectParser.run record fuel p (serializeAll ms (.new (.new capacity))).output.data [] =
          some (.ok (.returned, p', ms.map .message)) ∧
        p'.state = .init := by
  refine run_understood (fun m hm => (hms m hm).understood ?_) hroom hlength p
  have hle := bytes_length_le hm
  omega

/-- One message of each kind: a row of one column without a name, an empty
ciphertext, and the least compare result. -/
def oneOfEach : List Wrapper :=
  [.response ⟨1, .getOk { values := (∅ : Row).insert [] [0] }⟩,
    .response ⟨2, .getEmpty⟩,
    .response ⟨300, .addOk⟩,
    .response ⟨70000, .addTraverse { initRequestId := 2 ^ 32 - 1, ciphertext := [] }⟩,
    .request ⟨5, .addContinue { initRequestId := 4, compareResult := Int32.minValue }⟩]

theorem wire_round_trip_oneOfEach :
    ∃ fuel p',
      ObjectParser.run record fuel .new (serializeAll oneOfEach (.new (.new 100))).output.data [] =
          some (.ok (.returned, p', oneOfEach.map .message)) ∧
        p'.state = .init := by
  refine wire_round_trip ?_ (by decide) (by decide) .new
  simp only [oneOfEach, List.forall_mem_cons]
  exact ⟨.getOk _ _ (by simp), .getEmpty _, .addOk _, .addTraverse _ _, .addContinue _ _, nofun⟩

end Zql
