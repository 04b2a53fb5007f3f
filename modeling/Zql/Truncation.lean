/-
Messages in outputs with too little room. A receiver is not called for one,
but for a row of more than 2^32 columns: the size of its map is passed as an
`int`, and the columns this shows may all have room
(`overflow_never_misread_iff`).
-/
import Zql.Delivery
import Zql.Items
import Zql.Overflow

namespace Zql

open Looping

/-! ## What is intact -/

theorem intact_eq_take (calls : List CborCall) (w : CborWriter) :
    intact calls w = calls.take (intact calls w).length := by
  induction calls generalizing w with
  | nil => rfl
  | cons c calls ih =>
    rw [intact]
    split
    · rw [List.length_cons, List.take_succ_cons, ← ih]
    · rfl

theorem le_length_intact_iff {calls : List CborCall} {t : Nat} (ht : t ≤ calls.length) {w : CborWriter} (hw : w.Holds) :
    t ≤ (intact calls w).length ↔ (encodings (calls.take t)).length ≤ w.room := by
  induction calls generalizing t w with
  | nil =>
    obtain rfl : t = 0 := Nat.le_zero.mp ht
    simp [encodings]
  | cons c calls ih =>
    cases t with
    | zero => simp [encodings]
    | succ t =>
      have hlength : (encodings ((c :: calls).take (t + 1))).length =
          c.encoding.length + (encodings (calls.take t)).length := by
        rw [List.take_succ_cons]
        exact List.length_append
      rw [intact, hlength]
      by_cases hfits : c.Fits w
      · have hroom := (c.fits_iff hw).mp hfits
        have hwrite := c.write_append hw
        rw [if_pos hroom] at hwrite
        have hrest := ih (Nat.le_of_succ_le_succ ht) (hw.append hroom)
        rw [CborWriter.room_append] at hrest
        rw [if_pos hfits, List.length_cons, hwrite, Nat.succ_le_succ_iff, hrest]
        omega
      · have hroom := mt (c.fits_iff hw).mpr hfits
        rw [if_neg hfits, List.length_nil]
        omega

/-! ## Cut messages -/

/-- The columns of the row in a message. -/
def Wrapper.columns : Wrapper → Nat
  | .request ⟨_, .add r⟩ => r.row.size
  | .response ⟨_, .getOk r⟩ => r.values.size
  | _ => 0

/-- The columns the map of a message says it has: as many as an `int` shows. -/
def Wrapper.shown (m : Wrapper) : Nat := m.columns % 2 ^ 32

/-- What the calls of a message are: a head that says how many columns come,
and the columns, or a few calls with none. -/
inductive Wrapper.Shape (m : Wrapper) (calls : List CborCall) : Prop
  | plain : m.columns = 0 → (∀ j < calls.length, messages ((calls.map CborCall.event).take j) = []) → Shape m calls
  | row {head : List CborEvent} {body : Row → Wrapper} (es : List (Str × Str)) :
      Headed head (Int32.ofNat m.columns) body → (∀ row, (body row).columns = row.size) →
      calls.map CborCall.event = head ++ es.flatMap entryEvents → es.length = m.columns → Shape m calls

theorem Wrapper.shape {m : Wrapper} {calls : List CborCall} (h : m.calls? = some calls) : m.Shape calls := by
  have hplain : ∀ n : Nat, calls.length = n →
      (∀ j < n, message.run ((calls.map CborCall.event).take j) = none) →
      ∀ j < calls.length, messages ((calls.map CborCall.event).take j) = [] :=
    fun n hn hnone j hj => messages_none (hnone j (hn ▸ hj))
  cases m with
  | request wrapper =>
    obtain ⟨id, request⟩ := wrapper
    cases request with
    | get r => cases h
    | add r =>
      cases h
      refine .row r.row.toList (headed_add id r.database r.table _) (fun row => rfl) ?_ Std.ExtTreeMap.length_toList
      rw [RequestAdd.calls, ← List.append_assoc, List.map_append, entryCalls_event]
      rfl
    | addContinue r =>
      cases h
      refine .plain rfl (hplain 7 rfl fun j hj => ?_)
      interval_cases j <;> rfl
  | response wrapper =>
    obtain ⟨id, response⟩ := wrapper
    cases response with
    | getOk r =>
      cases h
      refine .row r.values.toList (headed_getOk id _) (fun row => rfl) ?_ Std.ExtTreeMap.length_toList
      rw [Response.calls, ← List.append_assoc, List.map_append, entryCalls_event]
      rfl
    | getEmpty =>
      cases h
      refine .plain rfl (hplain 5 rfl fun j hj => ?_)
      interval_cases j <;> rfl
    | addOk =>
      cases h
      refine .plain rfl (hplain 5 rfl fun j hj => ?_)
      interval_cases j <;> rfl
    | addTraverse r =>
      cases h
      refine .plain rfl (hplain 7 rfl fun j hj => ?_)
      interval_cases j <;> rfl

theorem size_putEntries_le (row : Row) (es : List (Str × Str)) : (putEntries row es).size ≤ row.size + es.length := by
  induction es generalizing row with
  | nil => exact Nat.le_refl _
  | cons entry es ih =>
    have hrest := ih (row.insert entry.1 entry.2)
    have hinsert := Std.ExtTreeMap.size_insert_le (t := row) (k := entry.1) (v := entry.2)
    rw [List.length_cons]
    show (putEntries (row.insert entry.1 entry.2) es).size ≤ _
    omega

/-- Of a message that is cut after `j` calls a receiver is called for
nothing, or for one with fewer columns where all the map shows were there. -/
theorem Wrapper.Shape.cut {m : Wrapper} {calls : List CborCall} (h : m.Shape calls) {j : Nat} (hj : j < calls.length)
    (hfew : j < 2 ^ 32) :
    (messages ((calls.map CborCall.event).take j) = [] ∧
      ¬ (0 < m.shown ∧ m.shown < m.columns ∧ calls.length - 2 * (m.columns - m.shown) ≤ j)) ∨
    ((∃ m' : Wrapper, messages ((calls.map CborCall.event).take j) = [m'] ∧ m'.columns < m.columns) ∧
      0 < m.shown ∧ m.shown < m.columns ∧ calls.length - 2 * (m.columns - m.shown) ≤ j) := by
  cases h with
  | plain hcolumns hnone =>
    refine .inl ⟨hnone j hj, ?_⟩
    rw [hcolumns]
    omega
  | @row head body es hheaded hbody hcalls hlength =>
    have hcount := mapCount_ofNat m.columns
    have htotal : calls.length = head.length + 2 * m.columns := by
      rw [← List.length_map CborCall.event, hcalls, List.length_append, entryEvents_length, hlength]
    rw [Wrapper.shown, hcalls]
    by_cases hshort : j < head.length + 2 * mapCount (Int32.ofNat m.columns)
    · refine .inl ⟨hheaded.messages_short hshort, ?_⟩
      split at hcount <;> omega
    · refine .inr ⟨⟨_, hheaded.messages_long (by omega) (by omega), ?_⟩, ?_⟩
      · have hle := size_putEntries_le ∅ (es.take (mapCount (Int32.ofNat m.columns)))
        rw [List.length_take, Std.ExtTreeMap.size_empty] at hle
        rw [hbody]
        omega
      · split at hcount <;> omega

/-! ## What is received -/

/-- The map of the message shows fewer columns than it has, and those it
shows have room. -/
def Wrapper.Misread (m : Wrapper) (calls : List CborCall) (capacity : Int) : Prop :=
  0 < m.shown ∧ m.shown < m.columns ∧
    (encodings (calls.take (calls.length - 2 * (m.columns - m.shown)))).length ≤ capacity

theorem room_new {capacity : Int} : (CborWriter.new (.new capacity)).room = capacity.toNat := by
  show (capacity - 0).toNat = _
  rw [Int.sub_zero]

/-- **A receiver is called for nothing when a message is cut**, unless what
its map shows is there, and then for one with fewer columns. -/
theorem delivers_cut {m : Wrapper} {calls : List CborCall} (h : m.calls? = some calls) {capacity : Int}
    (hcapacity : 0 ≤ capacity) (hpayload : ∀ c ∈ calls, capacity + c.payload.length < 2 ^ 31)
    (hcut : intact calls (.new (.new capacity)) ≠ calls) :
    (Delivers (m.serialize (.new (.new capacity))).output.data [] ∧ ¬ m.Misread calls capacity) ∨
    (∃ m' : Wrapper, Delivers (m.serialize (.new (.new capacity))).output.data [m'] ∧ m'.columns < m.columns) ∧
      m.Misread calls capacity := by
  obtain ⟨tail, hreads, hframe, hlength⟩ := reads_written hcapacity hpayload
  have hdelivers := delivers_reads hlength hreads hframe
  have hholds := holds_new hcapacity
  rw [m.serialize_calls h, ← written]
  rw [intact_eq_take] at hcut
  have hj : (intact calls (.new (.new capacity))).length < calls.length := by
    by_contra hle
    exact hcut (List.take_of_length_le (Nat.le_of_not_lt hle))
  have hfew := hreads.events_le
  rw [List.length_map] at hfew
  have hroom := le_length_intact_iff (t := calls.length - 2 * (m.columns - m.shown)) (Nat.sub_le _ _) hholds
  rw [room_new] at hroom
  rw [intact_eq_take, List.map_take] at hdelivers
  rcases (Wrapper.shape h).cut hj (by omega) with ⟨hnone, hnot⟩ | ⟨⟨m', hone, hcolumns⟩, hshown, hless, hle⟩
  · rw [hnone] at hdelivers
    refine .inl ⟨hdelivers, fun hmisread => hnot ⟨hmisread.1, hmisread.2.1, hroom.mpr ?_⟩⟩
    have := hmisread.2.2
    omega
  · rw [hone] at hdelivers
    have := hroom.mp hle
    exact .inr ⟨⟨m', hdelivers, hcolumns⟩, hshown, hless, by omega⟩

/-- **What overflows an output is never read as something else**: of calls
the reader sees those before the first that is cut, and a receiver is called
for nothing, exactly when the map of the message shows all its columns, or
none, or not all it shows have room. -/
theorem overflow_never_misread_iff {capacity : Int} (hcapacity : 0 ≤ capacity) :
    (∀ calls : List CborCall, (∀ c ∈ calls, capacity + c.payload.length < 2 ^ 31) →
      Returns (CborReader.body (always noted)) (.new (.new (written calls capacity)), [])
        (.ok (.returned, (intact calls (.new (.new capacity))).map CborCall.event))) ∧
    ∀ (m : Wrapper) (calls : List CborCall), m.calls? = some calls →
      (∀ c ∈ calls, capacity + c.payload.length < 2 ^ 31) → intact calls (.new (.new capacity)) ≠ calls →
      (Delivers (m.serialize (.new (.new capacity))).output.data [] ↔ ¬ m.Misread calls capacity) := by
  constructor
  · intro calls hpayload
    obtain ⟨tail, hreads, hframe, hlength⟩ := reads_written hcapacity hpayload
    exact returns_reads hlength hreads hframe
  · intro m calls h hpayload hcut
    rcases delivers_cut h hcapacity hpayload hcut with ⟨hnone, hnot⟩ | ⟨⟨m', hone, -⟩, hmisread⟩
    · exact ⟨fun _ => hnot, fun _ => hnone⟩
    · refine ⟨fun hnone => ?_, fun hnot => absurd hmisread hnot⟩
      cases hone.unique hnone

/-- Three bytes that are dropped and a number that is not, and a response
with no room for its last byte. -/
theorem overflow_never_misread_iff_cut :
    Returns (CborReader.body (always noted)) (.new (.new (written [.bytes [7, 7, 7], .int 1] 2)), [])
        (.ok (.returned, (intact [.bytes [7, 7, 7], .int 1] (.new (.new 2))).map CborCall.event)) ∧
      Delivers ((Wrapper.response ⟨1, .addOk⟩).serialize (.new (.new 8))).output.data [] :=
  ⟨(overflow_never_misread_iff (by decide)).1 _ (by decide),
    ((overflow_never_misread_iff (by decide)).2 (.response ⟨1, .addOk⟩) _ rfl (by decide) (by decide)).mpr
      fun h => absurd h.1 (by decide)⟩

/-! ## A row that is misread -/

/-- A row of `n` columns with nothing in them. -/
def wideRow (n : Nat) : Row := Std.ExtTreeMap.ofList ((List.range n).map fun i => (bigEndianBytes 5 i, []))

theorem wideRow_distinct {n : Nat} (hn : n ≤ 256 ^ 5) :
    ((List.range n).map fun i => (bigEndianBytes 5 i, ([] : Str))).Pairwise fun a b => ¬ compare a.1 b.1 = .eq := by
  rw [List.pairwise_map]
  refine List.Pairwise.imp_of_mem ?_ (List.nodup_range (n := n))
  intro i j hi hj hne heq
  rw [List.mem_range] at hi hj
  have hbytes := congrArg bigEndian (Std.LawfulEqCmp.compare_eq_iff_eq.mp heq)
  rw [bigEndian_bytes (by omega), bigEndian_bytes (by omega)] at hbytes
  exact hne hbytes

theorem wideRow_size {n : Nat} (hn : n ≤ 256 ^ 5) : (wideRow n).size = n := by
  rw [wideRow, Std.ExtTreeMap.size_ofList (wideRow_distinct hn), List.length_map, List.length_range]

theorem wideRow_entry {n : Nat} (hn : n ≤ 256 ^ 5) {entry : Str × Str} (h : entry ∈ (wideRow n).toList) :
    entry.1.length = 5 ∧ entry.2 = [] := by
  have hget := Std.ExtTreeMap.mem_toList_iff_getElem?_eq_some.mp h
  have hmem : entry.1 ∈ wideRow n := by
    rw [← Std.ExtTreeMap.isSome_getElem?_iff_mem, hget]
    rfl
  rw [wideRow, Std.ExtTreeMap.mem_ofList, List.contains_iff_mem, List.map_map, List.mem_map] at hmem
  obtain ⟨i, hi, hkey⟩ := hmem
  have hvalue : (wideRow n)[entry.1]? = some [] :=
    Std.ExtTreeMap.getElem?_ofList_of_mem Std.ReflCmp.compare_self (wideRow_distinct hn)
      (List.mem_map.mpr ⟨i, hi, by rw [← hkey]; rfl⟩)
  rw [hget] at hvalue
  exact ⟨by rw [← hkey]; exact bigEndianBytes_length 5 i, Option.some.inj hvalue⟩

theorem encoding_pos (c : CborCall) : 0 < c.encoding.length := by
  have hhead := head_pos c.majorType c.value
  rw [CborCall.encoding, List.length_append]
  omega

theorem length_le_encodings (calls : List CborCall) : calls.length ≤ (encodings calls).length := by
  induction calls with
  | nil => exact Nat.le_refl _
  | cons c calls ih =>
    have := encoding_pos c
    rw [encodings, List.flatMap_cons, List.length_append, List.length_cons]
    show _ ≤ _ + (encodings calls).length
    omega

/-- What is written of a response before its columns when the map shows one. -/
def wideHead : List CborCall := [.tag tagResponseWrapper, .array 2, .uint 0, .tag tagResponseGetOk, .map 1]

theorem wide_payload {entries : List (Str × Str)} (h : ∀ entry ∈ entries, entry.1.length = 5 ∧ entry.2 = []) :
    ∀ c ∈ wideHead ++ entries.flatMap entryCalls, (100 : Int) + c.payload.length < 2 ^ 31 := by
  intro c hc
  rcases List.mem_append.mp hc with hc | hc
  · have hall : ∀ c ∈ wideHead, (100 : Int) + c.payload.length < 2 ^ 31 := by decide
    exact hall c hc
  · obtain ⟨entry, hentry, hc⟩ := List.mem_flatMap.mp hc
    obtain ⟨hkey, hvalue⟩ := h entry hentry
    rcases List.mem_cons.mp hc with rfl | hc
    · show (100 : Int) + (entry.1.length : Nat) < 2 ^ 31
      rw [hkey]
      norm_num
    · obtain rfl := List.mem_singleton.mp hc
      show (100 : Int) + (entry.2.length : Nat) < 2 ^ 31
      rw [hvalue]
      norm_num

theorem wide_first {entry : Str × Str} (h : entry.1.length = 5 ∧ entry.2 = []) :
    ((encodings (wideHead ++ entryCalls entry)).length : Int) ≤ 100 := by
  have hbytes : encodings (wideHead ++ entryCalls entry) =
      encodings wideHead ++ (head 3 (UInt32.ofNat entry.1.length) ++ entry.1 ++
        (head 3 (UInt32.ofNat entry.2.length) ++ entry.2)) := by
    rw [encodings, List.flatMap_append]
    simp [encodings, entryCalls, CborCall.encoding, CborCall.majorType, CborCall.value, CborCall.payload]
  rw [hbytes, h.2]
  simp only [List.length_append, h.1]
  decide

theorem misread_of_wide {n : Nat} (hn : n % 2 ^ 32 = 1) (hmany : 100 < n) {row : Row} (hsize : row.size = n)
    (hentries : ∀ entry ∈ row.toList, entry.1.length = 5 ∧ entry.2 = []) :
    ∃ calls m', (Wrapper.response ⟨0, .getOk { values := row }⟩).calls? = some calls ∧
      (∀ c ∈ calls, (100 : Int) + c.payload.length < 2 ^ 31) ∧ intact calls (.new (.new 100)) ≠ calls ∧
      Delivers ((Wrapper.response ⟨0, .getOk { values := row }⟩).serialize (.new (.new 100))).output.data [m'] := by
  have hcolumns : (Wrapper.response ⟨0, .getOk { values := row }⟩).columns = n := hsize
  have hshown : (Wrapper.response ⟨0, .getOk { values := row }⟩).shown = 1 := by
    rw [Wrapper.shown, hcolumns, hn]
  have hmap : Int32.ofNat row.size = 1 := by
    have hone : UInt32.ofNat n = 1 := by
      rw [← UInt32.toNat_inj, UInt32.toNat_ofNat', hn]
      rfl
    rw [hsize, ← UInt32.toInt32_ofNat', hone]
    rfl
  have hcalls : (Wrapper.response ⟨0, .getOk { values := row }⟩).calls? =
      some (wideHead ++ row.toList.flatMap entryCalls) := by
    simp only [Wrapper.calls?, Response.calls, hmap]
    rfl
  have hpayload := wide_payload hentries
  have htotal : (wideHead ++ row.toList.flatMap entryCalls).length = 5 + 2 * n := by
    have hevents := entryEvents_length row.toList
    rw [← entryCalls_event, List.length_map, Std.ExtTreeMap.length_toList, hsize] at hevents
    rw [List.length_append, hevents]
    rfl
  have hcut : intact (wideHead ++ row.toList.flatMap entryCalls) (.new (.new 100)) ≠
      wideHead ++ row.toList.flatMap entryCalls := by
    intro hall
    have hroom := (le_length_intact_iff (Nat.le_refl _) (show (CborWriter.new (.new 100)).Holds from holds_new (by decide))).mp
      (by rw [hall])
    have hbytes := length_le_encodings (wideHead ++ row.toList.flatMap entryCalls)
    rw [List.take_length, room_new] at hroom
    omega
  rcases delivers_cut hcalls (by decide) hpayload hcut with ⟨-, hnot⟩ | ⟨⟨m', hone, -⟩, -⟩
  · refine absurd ⟨?_, ?_, ?_⟩ hnot
    · rw [hshown]
      exact Nat.one_pos
    · rw [hshown, hcolumns]
      omega
    · rw [htotal, hshown, hcolumns, show 5 + 2 * n - 2 * (n - 1) = 7 by omega]
      have hlength : row.toList.length = n := Std.ExtTreeMap.length_toList.trans hsize
      obtain ⟨entry, entries, hrow⟩ := List.exists_cons_of_length_eq_add_one (n := n - 1) (by omega : row.toList.length = _)
      rw [hrow]
      exact wide_first (hentries entry (by rw [hrow]; exact List.mem_cons_self))
  · exact ⟨_, m', hcalls, hpayload, hcut, hone⟩

/-- The first of 2^32 + 1 columns is received for all of them. -/
theorem overflow_misread :
    ∃ calls m', (Wrapper.response ⟨0, .getOk { values := wideRow 4294967297 }⟩).calls? = some calls ∧
      (∀ c ∈ calls, (100 : Int) + c.payload.length < 2 ^ 31) ∧ intact calls (.new (.new 100)) ≠ calls ∧
      Delivers ((Wrapper.response ⟨0, .getOk { values := wideRow 4294967297 }⟩).serialize
        (.new (.new 100))).output.data [m'] :=
  misread_of_wide (by norm_num) (by norm_num) (wideRow_size (by norm_num)) fun _ => wideRow_entry (by norm_num)

end Zql
