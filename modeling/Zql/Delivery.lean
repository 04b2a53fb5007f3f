/-
What a receiver makes of bytes: the messages its parser calls its listener
for. They are those the grammar finds among the items (`delivers_reads`),
so that a message that was cut is told from its items alone.
-/
import Zql.RoundTrip
import Zql.Tokens

namespace Zql

open Looping Scanning

/-! ## Receiving -/

/-- Parsing the bytes ends, and these are the messages the listener is called
for. -/
def Delivers (data : List UInt8) (ms : List Wrapper) : Prop :=
  ∀ p, ∃ fuel p' calls, ObjectParser.run record fuel p data [] = some (.ok (.returned, p', calls)) ∧
    calls.filterMap ObjectParser.kept = ms

theorem ObjectParser.run_unique {L E : Type} {call : L → ObjectCall → Except E L} {p : ObjectParser} {data : List UInt8}
    {x : L} {fuel fuel' : Nat} {r r' : Except (Failure E) (CborEnd × ObjectParser × L)}
    (h : run call fuel p data x = some r) (h' : run call fuel' p data x = some r') : r = r' := by
  have hreturns : Returns (CborReader.body (listen call)) (.new (.new data), ({ p with state := .init }, x)) r :=
    ⟨fuel, h⟩
  exact hreturns.unique ⟨fuel', h'⟩

theorem Delivers.unique {data : List UInt8} {ms ms' : List Wrapper} (h : Delivers data ms) (h' : Delivers data ms') :
    ms = ms' := by
  obtain ⟨fuel, p, calls, hrun, rfl⟩ := h .new
  obtain ⟨fuel', p', calls', hrun', rfl⟩ := h' .new
  cases ObjectParser.run_unique hrun hrun'
  rfl

theorem delivers_items {data : List UInt8} (h : Readable (visible data)) :
    Delivers data (messages (items (visible data))) := by
  intro p
  obtain ⟨p', calls, hfeed, hcalls⟩ := ObjectParser.feeds (p := { p with state := .init }) rfl (items (visible data))
  have hrun := run_readable (ObjectParser.listen record) h ({ p with state := .init }, [])
  rw [told, ObjectParser.foldlM_listen record hfeed, foldlM_record, List.nil_append] at hrun
  obtain ⟨fuel, hrun⟩ := hrun
  exact ⟨fuel, p', calls, hrun, hcalls⟩

theorem Reads.items_eq {l l' : List UInt8} {events : List CborEvent} (h : Reads l events l') :
    items l = events ++ items l' := by
  induction h with
  | done l => rfl
  | item hf _ ih => rw [items_item hf, ih, List.append_assoc]

theorem Reads.readable {l l' : List UInt8} {events : List CborEvent} (h : Reads l events l') (hl : Readable l') :
    Readable l := by
  induction h with
  | done l => exact hl
  | item hf _ ih => exact readable_item hf (ih hl)

theorem readable_incomplete {l : List UInt8} (h : frame l = .incomplete) : Readable l := by
  intro l' hb
  cases hb with
  | start _ =>
    refine ⟨fun hl => ?_, fun hl => ?_⟩
    · rw [frame_stuck_iff.mpr hl] at h
      cases h
    · rw [frame_overlong_iff.mpr hl] at h
      cases h
  | item hf _ =>
    rw [h] at hf
    cases hf

/-- **The messages of bytes are those of their items.** -/
theorem delivers_reads {data l : List UInt8} {events : List CborEvent} (h : data.length < 2 ^ 31)
    (hreads : Reads data events l) (hf : frame l = .incomplete) : Delivers data (messages events) := by
  have hreadable : Readable (visible data) := by
    rw [visible_eq h]
    exact hreads.readable (readable_incomplete hf)
  have hdelivers := delivers_items hreadable
  rwa [visible_eq h, hreads.items_eq, items_incomplete hf, List.append_nil] at hdelivers

theorem delivers_encodes {bytes tail : List UInt8} {events : List CborEvent} (h : Encodes bytes events)
    (hlength : (bytes ++ tail).length < 2 ^ 31) (htail : Readable tail) :
    Delivers (bytes ++ tail) (messages (events ++ items tail)) := by
  obtain ⟨hitems, hreadable⟩ := h tail
  have hvisible : Readable (visible (bytes ++ tail)) := by
    rw [visible_eq hlength]
    exact hreadable htail
  have hdelivers := delivers_items hvisible
  rwa [visible_eq hlength, hitems] at hdelivers

theorem Reads.events_le {l l' : List UInt8} {events : List CborEvent} (h : Reads l events l') :
    events.length + l'.length ≤ l.length := by
  induction h with
  | done l => simp
  | @item l rest l' event events hf _ ih =>
    have hshort := frame_shorter hf
    rw [List.length_append]
    have : event.toList.length ≤ 1 := by cases event <;> simp
    omega

/-! ## Rows -/

theorem pair_takes {f : Str → Str → Scan CborEvent Row} {row : Row} {es rest : List CborEvent}
    (h : (do
      let key ← next string?
      let value ← next string?
      f key value : Scan CborEvent Row).run es = some (row, rest)) :
    ∃ key value mid, (f key value).run mid = some (row, rest) ∧ mid.length + 2 ≤ es.length := by
  rw [run_bind] at h
  split at h
  · cases h
  next key mid hkey =>
  rw [run_bind] at h
  split at h
  · cases h
  next value mid' hvalue =>
  have h₁ := shortens_next _ _ _ _ hkey
  have h₂ := shortens_next _ _ _ _ hvalue
  exact ⟨key, value, mid', h, by omega⟩

theorem entries_takes {n : Nat} {row row' : Row} {es rest : List CborEvent}
    (h : (entries n row).run es = some (row', rest)) : rest.length + 2 * (n + 1) ≤ es.length := by
  induction n generalizing row es with
  | zero =>
    obtain ⟨key, value, mid, h, hle⟩ := pair_takes h
    cases h
    omega
  | succ n ih =>
    obtain ⟨key, value, mid, h, hle⟩ := pair_takes h
    have := ih h
    omega

/-- Entries put one after the other into a row. -/
def putEntries (row : Row) (entries : List (Str × Str)) : Row :=
  entries.foldl (fun row entry => row.insert entry.1 entry.2) row

theorem entries_run {n : Nat} (row : Row) {es : List (Str × Str)} (h : es.length = n + 1) (rest : List CborEvent) :
    (entries n row).run (es.flatMap entryEvents ++ rest) = some (putEntries row es, rest) := by
  induction n generalizing row es with
  | zero =>
    obtain ⟨entry, rfl⟩ := List.length_eq_one_iff.mp h
    rfl
  | succ n ih =>
    obtain ⟨entry, es, rfl⟩ := List.exists_cons_of_length_eq_add_one h
    exact ih (row.insert entry.1 entry.2) (Nat.succ.inj h)

/-- The entries a map of this size is followed by. -/
def mapCount (size : Int32) : Nat := (size - 1).toUInt32.toNat + 1

theorem rowOf_none {size : Int32} {es : List CborEvent} (h : es.length < 2 * mapCount size) :
    (rowOf size).run es = none := by
  cases hrun : (rowOf size).run es with
  | none => rfl
  | some found =>
    have := entries_takes hrun
    rw [mapCount] at h
    omega

theorem rowOf_run {size : Int32} {es : List (Str × Str)} (h : es.length = mapCount size) (rest : List CborEvent) :
    (rowOf size).run (es.flatMap entryEvents ++ rest) = some (putEntries ∅ es, rest) :=
  entries_run ∅ h rest

theorem mapCount_ofNat (n : Nat) : mapCount (Int32.ofNat n) = if n % 2 ^ 32 = 0 then 2 ^ 32 else n % 2 ^ 32 := by
  rw [mapCount]
  have hsub : (Int32.ofNat n - 1).toUInt32 = UInt32.ofNat n - 1 := rfl
  rw [hsub]
  split
  · next h =>
    have hz : UInt32.ofNat n = 0 := by
      rw [← UInt32.toNat_inj, UInt32.toNat_ofNat', h]
      rfl
    rw [hz]
    rfl
  · next h =>
    have hle : (1 : UInt32) ≤ UInt32.ofNat n := by
      rw [UInt32.le_iff_toNat_le, UInt32.toNat_ofNat']
      show 1 ≤ _
      omega
    rw [UInt32.toNat_sub_of_le _ _ hle, UInt32.toNat_ofNat']
    show n % 2 ^ 32 - 1 + 1 = _
    omega

/-! ## Messages with rows -/

/-- The calls before the row of a message, the size they give it, and the
message it completes. -/
structure Headed (calls : List CborEvent) (size : Int32) (body : Row → Wrapper) : Prop where
  short : ∀ j < calls.length, message.run (calls.take j) = none
  run : ∀ rest, message.run (calls ++ rest) = ((rowOf size).run rest).map fun (row, rest) => (body row, rest)

theorem headed_add (id : UInt32) (database table : Str) (size : Int32) :
    Headed [.tag tagRequestWrapper, .array 2, .integer id.toInt32, .tag tagRequestAdd, .array 3, .string database,
      .string table, .map size] size fun row => .request ⟨id, .add { database, table, row }⟩ where
  short := by
    intro j hj
    have hj : j < 8 := hj
    interval_cases j <;> rfl
  run := by
    intro rest
    simp only [message, wrapper, requestWrapper, requestBody, run_bind, run_pure, next, seek, List.cons_append,
      List.nil_append, tag?, integer?, string?, map?, array?, if_true, show wrapperKind tagRequestWrapper = some .request from rfl,
      show requestKind tagRequestAdd = some .add from rfl]
    cases (rowOf size).run rest <;> rfl

theorem headed_getOk (id : UInt32) (size : Int32) :
    Headed [.tag tagResponseWrapper, .array 2, .integer id.toInt32, .tag tagResponseGetOk, .map size] size
      fun values => .response ⟨id, .getOk { values }⟩ where
  short := by
    intro j hj
    have hj : j < 5 := hj
    interval_cases j <;> rfl
  run := by
    intro rest
    simp only [message, wrapper, responseWrapper, responseBody, run_bind, run_pure, next, seek, List.cons_append,
      List.nil_append, tag?, integer?, map?, array?, if_true, show wrapperKind tagResponseWrapper = some .response from rfl,
      show responseKind tagResponseGetOk = some .getOk from rfl]
    cases (rowOf size).run rest <;> rfl

theorem entryEvents_length (es : List (Str × Str)) : (es.flatMap entryEvents).length = 2 * es.length := by
  induction es with
  | nil => rfl
  | cons entry es ih =>
    rw [List.flatMap_cons, List.length_append, ih, List.length_cons]
    show 2 + _ = _
    omega

theorem messages_strings {events : List CborEvent} (h : ∀ e ∈ events, ∃ str, e = .string str) : messages events = [] := by
  refine messages_none ?_
  have hseek : (next (tag? wrapperKind)).run events = none := by
    induction events with
    | nil => rfl
    | cons e events ih =>
      obtain ⟨str, rfl⟩ := h e List.mem_cons_self
      exact ih fun e he => h e (List.mem_cons_of_mem _ he)
  rw [message, run_bind, hseek]

section

variable {calls : List CborEvent} {size : Int32} {body : Row → Wrapper} {es : List (Str × Str)} {j : Nat}

theorem Headed.messages_short (h : Headed calls size body) (hj : j < calls.length + 2 * mapCount size) :
    messages ((calls ++ es.flatMap entryEvents).take j) = [] := by
  refine messages_none ?_
  by_cases hlt : j < calls.length
  · rw [List.take_append_of_le_length (Nat.le_of_lt hlt)]
    exact h.short j hlt
  · rw [List.take_append, List.take_of_length_le (Nat.le_of_not_lt hlt), h.run, rowOf_none, Option.map_none]
    rw [List.length_take]
    omega

theorem Headed.messages_long (h : Headed calls size body) (hes : mapCount size ≤ es.length)
    (hj : calls.length + 2 * mapCount size ≤ j) :
    messages ((calls ++ es.flatMap entryEvents).take j) = [body (putEntries ∅ (es.take (mapCount size)))] := by
  have hcount : (es.take (mapCount size)).length = mapCount size := by
    rw [List.length_take, Nat.min_eq_left hes]
  have hsplit : (calls ++ es.flatMap entryEvents).take j = calls ++ ((es.take (mapCount size)).flatMap entryEvents ++
      ((es.drop (mapCount size)).flatMap entryEvents).take (j - calls.length - 2 * mapCount size)) := by
    have hes' : es.flatMap entryEvents =
        (es.take (mapCount size)).flatMap entryEvents ++ (es.drop (mapCount size)).flatMap entryEvents := by
      rw [← List.flatMap_append, List.take_append_drop]
    rw [List.take_append, List.take_of_length_le (by omega), hes', List.take_append, entryEvents_length, hcount,
      List.take_of_length_le (by rw [entryEvents_length, hcount]; omega)]
  have hrun : message.run ((calls ++ es.flatMap entryEvents).take j) = some (body (putEntries ∅ (es.take (mapCount size))),
      ((es.drop (mapCount size)).flatMap entryEvents).take (j - calls.length - 2 * mapCount size)) := by
    rw [hsplit, h.run, rowOf_run hcount]
    rfl
  rw [messages_some hrun]
  refine congrArg _ (messages_strings fun e he => ?_)
  obtain ⟨entry, -, he⟩ := List.mem_flatMap.mp (List.mem_of_mem_take he)
  rcases List.mem_cons.mp he with rfl | he
  · exact ⟨_, rfl⟩
  · exact ⟨_, List.mem_singleton.mp he⟩

end

/-! ## The calls of a message -/

def entryCalls (entry : Str × Str) : List CborCall := [.string entry.1, .string entry.2]

def RequestAdd.calls (r : RequestAdd) : List CborCall :=
  [.tag tagRequestAdd, .array 3, .string r.database, .string r.table, .map (Int32.ofNat r.row.size)] ++
    r.row.toList.flatMap entryCalls

def RequestAddContinue.calls (r : RequestAddContinue) : List CborCall :=
  [.tag tagRequestAddContinue, .array 2, .uint r.initRequestId, .int r.compareResult]

def Response.calls : Response → List CborCall
  | .getOk r => [.tag tagResponseGetOk, .map (Int32.ofNat r.values.size)] ++ r.values.toList.flatMap entryCalls
  | .getEmpty => [.tag tagResponseGetNotFound, .map 0]
  | .addOk => [.tag tagResponseAddOk, .map 0]
  | .addTraverse r => [.tag tagResponseAddTraverse, .array 2, .uint r.initRequestId, .bytes r.ciphertext]

/-- The calls of `Serialize`. A `RequestGet` writes a 64-bit value, and is
left out. -/
def Wrapper.calls? : Wrapper → Option (List CborCall)
  | .request ⟨_, .get _⟩ => none
  | .request ⟨id, .add r⟩ => some ([.tag tagRequestWrapper, .array 2, .uint id] ++ r.calls)
  | .request ⟨id, .addContinue r⟩ => some ([.tag tagRequestWrapper, .array 2, .uint id] ++ r.calls)
  | .response ⟨id, r⟩ => some ([.tag tagResponseWrapper, .array 2, .uint id] ++ r.calls)

theorem writeAll_append_calls (cs ds : List CborCall) (w : CborWriter) :
    writeAll (cs ++ ds) w = writeAll ds (writeAll cs w) := List.foldl_append

theorem writeRow_calls (row : Row) (w : CborWriter) : w.writeRow row = writeAll (row.toList.flatMap entryCalls) w := by
  unfold CborWriter.writeRow
  induction row.toList generalizing w with
  | nil => rfl
  | cons entry entries ih => exact ih _

theorem RequestAdd.serialize_calls (r : RequestAdd) (w : CborWriter) : r.serialize w = writeAll r.calls w := by
  rw [RequestAdd.calls, writeAll_append_calls, ← writeRow_calls]
  rfl

theorem Response.serialize_calls (r : Response) (w : CborWriter) : r.serialize w = writeAll r.calls w := by
  cases r with
  | getOk r =>
    rw [Response.calls, writeAll_append_calls, ← writeRow_calls]
    rfl
  | _ => rfl

/-- **`Serialize` makes these calls, one after the other.** -/
theorem Wrapper.serialize_calls {m : Wrapper} {calls : List CborCall} (h : m.calls? = some calls) (w : CborWriter) :
    m.serialize w = writeAll calls w := by
  cases m with
  | request wrapper =>
    obtain ⟨id, request⟩ := wrapper
    cases request with
    | get r => cases h
    | add r =>
      cases h
      rw [writeAll_append_calls, ← r.serialize_calls]
      rfl
    | addContinue r =>
      cases h
      rfl
  | response wrapper =>
    cases h
    rw [writeAll_append_calls, ← wrapper.response.serialize_calls]
    rfl

theorem entryCalls_event (es : List (Str × Str)) :
    (es.flatMap entryCalls).map CborCall.event = es.flatMap entryEvents := by
  rw [List.map_flatMap]
  rfl

end Zql
