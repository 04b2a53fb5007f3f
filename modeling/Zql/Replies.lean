/-
The bytes a handler sends, as the client parses them. The outputs of the
handlers have room for 9000 bytes or 10000, and the values of a row or a node
may be of any length: a response is decoded as the one that was selected
exactly when there is room for all of it (`replies_decoded_iff`).
-/
import Zql.Lockstep
import Zql.Requests
import Zql.Truncation

namespace Zql

open Scanning Transition

/-! ## What can have been received -/

theorem Delivers.eq_messages {data : List UInt8} {ms : List Wrapper} (h : Delivers data ms) :
    ms = messages (items (visible data)) := by
  obtain ⟨fuel, p, calls, hrun, -⟩ := h .new
  exact h.unique (delivers_items (readable_of_returns ⟨fuel, hrun⟩))

theorem items_payload {l : List UInt8} {e : CborEvent} (he : e ∈ items l) : e.payload.length ≤ l.length := by
  fun_induction items l with
  | case1 l event rest hf _ ih =>
    have hshort := frame_shorter hf
    rcases List.mem_append.mp he with he | he
    · cases event with
      | none => cases he
      | some event =>
        obtain rfl := List.mem_singleton.mp he
        exact frame_payload hf
    · have := ih he
      omega
  | case2 l => cases he

/-- The columns of a row, name and value, are no longer than this. -/
def RowWithin (n : Nat) (row : Row) : Prop :=
  ∀ key value : Str, row[key]? = some value → key.length ≤ n ∧ value.length ≤ n

theorem RowWithin.insert {n : Nat} {row : Row} (h : RowWithin n row) {key value : Str} (hkey : key.length ≤ n)
    (hvalue : value.length ≤ n) : RowWithin n (row.insert key value) := by
  intro k v hk
  rw [getElem?_insert_if] at hk
  split at hk
  · next heq =>
    cases heq
    cases hk
    exact ⟨hkey, hvalue⟩
  · exact h k v hk

/-- What a request hands over is no longer than this. -/
def Request.Within (n : Nat) : Request → Prop
  | .get r => r.database.length ≤ n ∧ r.table.length ≤ n
  | .add r => r.database.length ≤ n ∧ r.table.length ≤ n ∧ RowWithin n r.row
  | .addContinue _ => True

def Response.Within (n : Nat) : Response → Prop
  | .getOk r => RowWithin n r.values
  | .addTraverse r => r.ciphertext.length ≤ n
  | _ => True

def Wrapper.Within (n : Nat) : Wrapper → Prop
  | .request wrapper => wrapper.request.Within n
  | .response wrapper => wrapper.response.Within n

section

variable {n : Nat}

/-- A scan of items that hand over no more than this. -/
abbrev Drawn (n : Nat) {α : Type} (p : Scan CborEvent α) (post : α → Prop) : Prop :=
  Draws (fun e : CborEvent => e.payload.length ≤ n) p post

theorem drawn_string : Drawn n (next string?) fun str => str.length ≤ n := by
  refine (draws_next _ _).mono fun str ⟨e, he, hf⟩ => ?_
  obtain rfl := string?_some e str hf
  exact he

theorem drawn_bytes : Drawn n (next bytes?) fun data => data.length ≤ n := by
  refine (draws_next _ _).mono fun data ⟨e, he, hf⟩ => ?_
  obtain rfl := bytes?_some e data hf
  exact he

theorem drawn_entries (k : Nat) {row : Row} (h : RowWithin n row) : Drawn n (entries k row) (RowWithin n) := by
  induction k generalizing row with
  | zero =>
    exact drawn_string.bind fun key hkey => drawn_string.bind fun value hvalue => draws_pure (h.insert hkey hvalue)
  | succ k ih =>
    exact drawn_string.bind fun key hkey => drawn_string.bind fun value hvalue => ih (h.insert hkey hvalue)

theorem drawn_rowOf (size : Int32) : Drawn n (rowOf size) (RowWithin n) :=
  drawn_entries _ fun key value h => by simp at h

theorem drawn_requestBody (kind : RequestKind) : Drawn n (requestBody kind) (Request.Within n) := by
  cases kind with
  | get =>
    exact (draws_next _ _).bind fun _ _ => drawn_string.bind fun database hdatabase => drawn_string.bind fun table htable =>
      (draws_next _ _).bind fun _ _ => draws_pure ⟨hdatabase, htable⟩
  | add =>
    exact (draws_next _ _).bind fun _ _ => drawn_string.bind fun database hdatabase => drawn_string.bind fun table htable =>
      (draws_next _ _).bind fun size _ => (drawn_rowOf size).bind fun row hrow => draws_pure ⟨hdatabase, htable, hrow⟩
  | addContinue =>
    exact (draws_next _ _).bind fun _ _ => (draws_next _ _).bind fun _ _ => (draws_next _ _).bind fun _ _ =>
      draws_pure trivial

theorem drawn_responseBody (kind : ResponseKind) : Drawn n (responseBody kind) (Response.Within n) := by
  cases kind with
  | getEmpty => exact (draws_next _ _).bind fun _ _ => draws_pure trivial
  | getOk => exact (draws_next _ _).bind fun size _ => (drawn_rowOf size).bind fun values hvalues => draws_pure hvalues
  | addOk => exact (draws_next _ _).bind fun _ _ => draws_pure trivial
  | addTraverse =>
    exact (draws_next _ _).bind fun _ _ => (draws_next _ _).bind fun _ _ => drawn_bytes.bind fun data hdata =>
      draws_pure hdata

/-- **A message hands over no more than the items it is read from.** -/
theorem drawn_message : Drawn n message (Wrapper.Within n) := by
  refine (draws_next _ _).bind fun kind _ => ?_
  cases kind with
  | request =>
    exact (draws_next _ _).bind fun _ _ => (draws_next _ _).bind fun _ _ => (draws_next _ _).bind fun kind _ =>
      (drawn_requestBody kind).bind fun request hrequest => draws_pure hrequest
  | response =>
    exact (draws_next _ _).bind fun _ _ => (draws_next _ _).bind fun _ _ => (draws_next _ _).bind fun kind _ =>
      (drawn_responseBody kind).bind fun response hresponse => draws_pure hresponse

end

theorem Delivers.within {data : List UInt8} {m : Wrapper} (h : Delivers data [m]) : m.Within data.length := by
  have hms := h.eq_messages
  cases hrun : message.run (items (visible data)) with
  | none =>
    rw [messages_none hrun] at hms
    cases hms
  | some found =>
    obtain ⟨m', rest⟩ := found
    rw [messages_some hrun] at hms
    obtain rfl : m = m' := (List.cons.inj hms).1
    have hvisible : (visible data).length ≤ data.length := by
      rw [visible, List.length_take]
      omega
    refine (drawn_message (n := data.length) _ (fun e he => ?_) m rest hrun).1
    exact Nat.le_trans (items_payload he) hvisible

/-! ## Sizes -/

def headSize (value : UInt32) : Nat := if value < 24 then 1 else if value < 256 then 2 else if value < 65536 then 3 else 5

theorem head_length (majorType value : UInt32) : (head majorType value).length = headSize value := by
  unfold head headSize
  split
  · rfl
  split
  · rfl
  split <;> rfl

/-- The size of a string or of bytes with their head. -/
def textSize (data : List UInt8) : Nat := headSize (UInt32.ofNat data.length) + data.length

theorem contentsBytes_length (majorType : UInt32) (data : List UInt8) :
    (contentsBytes majorType data).length = textSize data := by
  rw [contentsBytes, List.length_append, head_length, textSize]

/-- The size of a `ResponseGetOk` in its wrapper. -/
def rowReplySize (id : UInt32) (row : Row) : Nat :=
  7 + headSize id + headSize (UInt32.ofNat row.size) +
    (row.toList.map fun entry => textSize entry.1 + textSize entry.2).sum

/-- The size of a `ResponseAddTraverse` in its wrapper. -/
def traverseReplySize (id initRequestId : UInt32) (ciphertext : Ciphertext) : Nat :=
  8 + headSize id + headSize initRequestId + textSize ciphertext

theorem bytes_length_getOk (id : UInt32) (values : Row) :
    (Wrapper.response ⟨id, .getOk { values }⟩).bytes.length = rowReplySize id values := by
  have hrow : (values.toList.flatMap entryBytes).length =
      (values.toList.map fun entry => textSize entry.1 + textSize entry.2).sum := by
    simp [List.length_flatMap, entryBytes, contentsBytes_length]
  simp only [Wrapper.bytes, Response.bytes, ResponseGetOk.bytes, List.length_append, head_length, hrow, rowReplySize]
  show headSize 2000 + headSize 2 + _ + (headSize 2100 + headSize (UInt32.ofNat values.size) + _) = _
  rw [show headSize 2000 = 3 from rfl, show headSize 2 = 1 from rfl, show headSize 2100 = 3 from rfl]
  omega

theorem bytes_length_addTraverse (id : UInt32) (r : ResponseAddTraverse) :
    (Wrapper.response ⟨id, .addTraverse r⟩).bytes.length = traverseReplySize id r.initRequestId r.ciphertext := by
  simp only [Wrapper.bytes, Response.bytes, ResponseAddTraverse.bytes, List.length_append, head_length,
    contentsBytes_length, traverseReplySize]
  show headSize 2000 + headSize 2 + _ + (headSize 2201 + headSize 2 + _ + _) = _
  rw [show headSize 2000 = 3 from rfl, show headSize 2 = 1 from rfl, show headSize 2201 = 3 from rfl]
  omega

/-! ## One response -/

theorem Wrapper.Understood.delivers {m : Wrapper} (h : m.Understood) {capacity : Int}
    (hroom : m.bytes.length ≤ capacity) (hlength : m.bytes.length < 2 ^ 31) :
    Delivers (m.serialize (.new (.new capacity))).output.data [m] := by
  intro p
  have hall : ∀ m' ∈ [m], m'.Understood := List.forall_mem_singleton.mpr h
  have hbytes : [m].flatMap Wrapper.bytes = m.bytes := List.flatMap_singleton ..
  have hfits : ([m].flatMap Wrapper.bytes).length ≤ capacity := by rwa [hbytes]
  obtain ⟨fuel, p', hrun, -⟩ := run_understood hall hfits (by rwa [hbytes]) p
  exact ⟨fuel, p', _, hrun, rfl⟩

theorem bytes_eq_encodings {m : Wrapper} {calls : List CborCall} (h : m.calls? = some calls) :
    m.bytes = encodings calls := by
  let w : CborWriter := .new (.new (max m.bytes.length (encodings calls).length))
  have hbytes : m.serialize w = _ := m.emits w (by
    show ((0 : Nat) : Int) + _ ≤ max _ _
    omega)
  have hcalls : writeAll calls w = _ := emits_writeAll calls w (by
    show ((0 : Nat) : Int) + _ ≤ max _ _
    omega)
  rw [m.serialize_calls h, hcalls] at hbytes
  exact (congrArg (fun w : CborWriter => w.output.data) hbytes).symm

theorem payload_le_of_within {wrapper : ResponseWrapper} {calls : List CborCall}
    (hcalls : (Wrapper.response wrapper).calls? = some calls) {n : Nat} (h : (Wrapper.response wrapper).Within n) :
    ∀ c ∈ calls, c.payload.length ≤ n := by
  obtain ⟨id, response⟩ := wrapper
  cases hcalls
  cases response with
  | getOk r =>
    intro c hc
    simp only [Response.calls, List.cons_append, List.nil_append, List.mem_cons, List.mem_flatMap, entryCalls] at hc
    rcases hc with rfl | rfl | rfl | rfl | rfl | ⟨entry, hentry, hc⟩
    iterate 5 exact Nat.zero_le _
    obtain ⟨hkey, hvalue⟩ := h _ _ (Std.ExtTreeMap.mem_toList_iff_getElem?_eq_some.mp hentry)
    rcases hc with rfl | rfl | hc
    · exact hkey
    · exact hvalue
    · cases hc
  | addTraverse r =>
    intro c hc
    simp only [Response.calls, List.cons_append, List.nil_append, List.mem_cons] at hc
    rcases hc with rfl | rfl | rfl | rfl | rfl | rfl | rfl | hc
    iterate 6 exact Nat.zero_le _
    · exact h
    · cases hc
  | getEmpty => simp [Response.calls, CborCall.payload]
  | addOk => simp [Response.calls, CborCall.payload]

def getOkEvents (id : UInt32) (size : Int32) : List CborEvent :=
  [.tag tagResponseWrapper, .array 2, .integer id.toInt32, .tag tagResponseGetOk, .map size]

/-- A row that is empty is not received: 2^32 columns are waited for. -/
theorem delivers_empty_getOk (id : UInt32) (h : (Wrapper.response ⟨id, .getOk {}⟩).bytes.length < 2 ^ 31) :
    Delivers (Wrapper.response ⟨id, .getOk {}⟩).bytes [] := by
  have hputs := (puts_wrapper tagResponseWrapper id).comp (ResponseGetOk.puts {})
  have hdelivers := delivers_encodes (hputs.encodes h) (by rwa [List.append_nil]) readable_nil
  have hevents : getOkEvents id (Int32.ofNat (∅ : Row).size) ++ (∅ : Row).toList.flatMap entryEvents =
      getOkEvents id 0 ++ [] := by
    simp
  have hnone : messages (getOkEvents id 0 ++ []) = [] := by
    refine messages_none ?_
    have hcount : mapCount 0 = 2 ^ 32 := by simpa using mapCount_ofNat 0
    rw [getOkEvents, (headed_getOk id 0).run, rowOf_none (by rw [List.length_nil]; omega), Option.map_none]
  rw [items_incomplete rfl, List.append_nil, List.append_nil] at hdelivers
  rw [← hnone, ← hevents]
  exact hdelivers

theorem sent_length {wrapper : ResponseWrapper} {calls : List CborCall}
    (hcalls : (Wrapper.response wrapper).calls? = some calls) {capacity : Int} (hcapacity : 0 ≤ capacity) :
    (Sent.new capacity wrapper).data.length ≤ capacity := by
  obtain ⟨extra, hextra, hle⟩ := writeAll_append calls (holds_new hcapacity)
  rw [room_new] at hle
  show ((((Wrapper.response wrapper).serialize (.new (.new capacity))).output.data.length : Nat) : Int) ≤ _
  rw [Wrapper.serialize_calls hcalls, hextra]
  show ((([] ++ extra : List UInt8).length : Nat) : Int) ≤ capacity
  rw [List.nil_append]
  omega

theorem not_delivers_cut {wrapper : ResponseWrapper} {capacity : Int} (hcapacity : 0 ≤ capacity)
    (hsmall : capacity < 2 ^ 30) (hroom : capacity < (Wrapper.response wrapper).bytes.length) :
    ¬ Delivers (Sent.new capacity wrapper).data [.response wrapper] := by
  intro h
  obtain ⟨calls, hcalls⟩ : ∃ calls, (Wrapper.response wrapper).calls? = some calls := ⟨_, rfl⟩
  by_cases hpayload : ∀ c ∈ calls, capacity + c.payload.length < 2 ^ 31
  · have hcut : intact calls (.new (.new capacity)) ≠ calls := by
      intro hall
      have hfits := (le_length_intact_iff (Nat.le_refl _) (holds_new hcapacity)).mp (Nat.le_of_eq (congrArg _ hall.symm))
      rw [List.take_length, room_new, ← bytes_eq_encodings hcalls] at hfits
      omega
    rcases delivers_cut hcalls hcapacity hpayload hcut with ⟨hnone, -⟩ | ⟨⟨m', hone, hfewer⟩, -⟩
    · cases h.unique hnone
    · cases h.unique hone
      exact Nat.lt_irrefl _ hfewer
  · -- what is longer than an `int` says was not sent at all
    obtain ⟨c, hc, hlong⟩ : ∃ c ∈ calls, 2 ^ 31 ≤ capacity + c.payload.length := by
      simpa only [not_forall, Int.not_lt, exists_prop] using hpayload
    have hle := payload_le_of_within hcalls h.within c hc
    have hsent := sent_length hcalls hcapacity
    omega

/-- **A response comes back exactly when there is room for all of it**, and
its row is not empty. -/
theorem delivers_response_iff (wrapper : ResponseWrapper) {capacity : Int} (hcapacity : 0 ≤ capacity)
    (hsmall : capacity < 2 ^ 30) :
    Delivers (Sent.new capacity wrapper).data [.response wrapper] ↔
      (Wrapper.response wrapper).bytes.length ≤ capacity ∧ ∀ values, wrapper.response = .getOk { values } → values ≠ ∅ := by
  constructor
  · intro h
    have hroom : (Wrapper.response wrapper).bytes.length ≤ capacity := by
      by_contra hroom
      exact not_delivers_cut hcapacity hsmall (by omega) h
    refine ⟨hroom, fun values hvalues hempty => ?_⟩
    obtain ⟨id, response⟩ := wrapper
    cases hvalues
    cases hempty
    have hdata : (Sent.new capacity ⟨id, .getOk {}⟩).data = (Wrapper.response ⟨id, .getOk {}⟩).bytes := serialize_data hroom
    rw [hdata] at h
    cases h.unique (delivers_empty_getOk id (by omega))
  · rintro ⟨hroom, hvalues⟩
    have hfaithful : (Wrapper.response wrapper).Faithful := by
      obtain ⟨id, response⟩ := wrapper
      cases response with
      | getOk r => exact .getOk id r (hvalues r.values rfl)
      | getEmpty => exact .getEmpty id
      | addOk => exact .addOk id
      | addTraverse r => exact .addTraverse id r
    exact (hfaithful.understood (by omega)).delivers hroom (by omega)

/-! ## Handlers -/

/-- The client is called for the response that was selected, with the id of
the request, and for nothing else. -/
def Sent.Decoded (sent : Sent) (requestId : UInt32) : Prop :=
  sent.wrapper.id = requestId ∧ Delivers sent.data [.response sent.wrapper]

/-- There is room for a response, and its row has columns. -/
def Response.Fits (capacity : Int) (id : UInt32) : Response → Prop
  | .getOk r => r.values ≠ ∅ ∧ rowReplySize id r.values ≤ capacity
  | .addTraverse r => traverseReplySize id r.initRequestId r.ciphertext ≤ capacity
  | _ => True

theorem headSize_le (value : UInt32) : headSize value ≤ 5 := by
  unfold headSize
  split
  · omega
  split
  · omega
  split <;> omega

theorem decoded_iff (id : UInt32) (response : Response) {capacity : Int} (hcapacity : 13 ≤ capacity)
    (hsmall : capacity < 2 ^ 30) : (Sent.new capacity ⟨id, response⟩).Decoded id ↔ response.Fits capacity id := by
  have hiff := delivers_response_iff ⟨id, response⟩ (show 0 ≤ capacity by omega) hsmall
  have hdecoded : (Sent.new capacity ⟨id, response⟩).Decoded id ↔
      Delivers (Sent.new capacity ⟨id, response⟩).data [.response ⟨id, response⟩] := ⟨And.right, fun h => ⟨rfl, h⟩⟩
  rw [hdecoded, hiff]
  have hid := headSize_le id
  cases response with
  | getOk r =>
    rw [bytes_length_getOk]
    exact ⟨fun h => ⟨h.2 _ rfl, h.1⟩, fun h => ⟨h.2, fun values hvalues => by cases hvalues; exact h.1⟩⟩
  | addTraverse r =>
    rw [bytes_length_addTraverse]
    exact ⟨And.left, fun h => ⟨h, by simp⟩⟩
  | getEmpty =>
    have hlength : (Wrapper.response ⟨id, .getEmpty⟩).bytes.length = 8 + headSize id := by
      simp [Wrapper.bytes, Response.bytes, head_length, show headSize tagResponseWrapper = 3 from rfl,
        show headSize tagResponseGetNotFound = 3 from rfl, show headSize 2 = 1 from rfl, show headSize 0 = 1 from rfl]
      omega
    rw [hlength]
    exact ⟨fun _ => trivial, fun _ => ⟨by omega, by simp⟩⟩
  | addOk =>
    have hlength : (Wrapper.response ⟨id, .addOk⟩).bytes.length = 8 + headSize id := by
      simp [Wrapper.bytes, Response.bytes, head_length, show headSize tagResponseWrapper = 3 from rfl,
        show headSize tagResponseAddOk = 3 from rfl, show headSize 2 = 1 from rfl, show headSize 0 = 1 from rfl]
      omega
    rw [hlength]
    exact ⟨fun _ => trivial, fun _ => ⟨by omega, by simp⟩⟩

theorem onRequestAdd_sent {env : Env} {s s' : Server} {id : UInt32} {request : RequestAdd} {sent : Sent}
    (h : onRequestAdd env s id request = .ok (s', sent)) : sent = .new 9000 ⟨id, sent.wrapper.response⟩ := by
  unfold onRequestAdd at h
  split at h
  · cases h
    rfl
  split at h
  · cases h
    rfl
  simp only at h
  split at h
  · cases h
  · cases h
    rfl

theorem onRequestAddContinue_sent {env : Env} {s s' : Server} {id : UInt32} {request : RequestAddContinue} {sent : Sent}
    (h : onRequestAddContinue env s id request = .ok (s', sent)) : sent = .new 10000 ⟨id, sent.wrapper.response⟩ := by
  unfold onRequestAddContinue at h
  simp only at h
  split at h
  · cases h
    rfl
  split at h
  · cases h
  split at h
  · cases h
  · split at h
    · cases h
    · cases h
      rfl
  · unfold Server.complete at h
    split at h
    · cases h
    · cases h
      rfl

theorem decoded_get_iff (env : Env) (id : UInt32) (request : RequestGet) :
    (onRequestGet env id request).Decoded id ↔
      ∀ values, Database.get env.mysql request.database request.table request.pk ∅ = (true, values) →
        values ≠ ∅ ∧ rowReplySize id values ≤ 9000 := by
  unfold onRequestGet
  cases hget : Database.get env.mysql request.database request.table request.pk ∅ with | mk found values =>
  simp only
  rw [decoded_iff id _ (by omega) (by omega)]
  cases found with
  | false => exact ⟨fun _ _ h => (by cases h), fun _ => trivial⟩
  | true =>
    constructor
    · rintro ⟨hne, hle⟩ values' h
      cases h
      exact ⟨hne, Int.ofNat_le.mp hle⟩
    · intro h
      obtain ⟨hne, hle⟩ := h values rfl
      exact ⟨hne, Int.ofNat_le.mpr hle⟩

theorem decoded_ok_iff {done : Except Fault (Server × Sent)} {s : Server} {sent : Sent} {id : UInt32}
    (hok : done = .ok (s, sent)) : (∃ s' sent', done = .ok (s', sent') ∧ sent'.Decoded id) ↔ sent.Decoded id := by
  constructor
  · rintro ⟨s', sent', hok', hdecoded⟩
    rw [hok] at hok'
    cases hok'
    exact hdecoded
  · exact fun h => ⟨s, sent, hok, h⟩

theorem decoded_add_iff {s : Server} (hs : s.Sound) (env : Env) (id : UInt32) (request : RequestAdd) :
    (∃ s' sent, onRequestAdd env s id request = .ok (s', sent) ∧ sent.Decoded id) ↔
      ∀ entry tree node, opeEntry request.row = some entry →
        s.forest.getTree request.database request.table = some tree → s.heap[tree]? = some node →
        traverseReplySize id id node.ciphertext ≤ 9000 := by
  obtain ⟨s', sent, hok⟩ := onRequestAdd_ok env id fun tree htree =>
    hs.roots (BTreeForest.id request.database request.table) tree htree
  have hadded := onRequestAdd_added hok
  rw [decoded_ok_iff hok, onRequestAdd_sent hok, decoded_iff id _ (by omega) (by omega)]
  generalize sent.wrapper.response = response at hadded
  cases hadded with
  | plain hope => exact ⟨fun _ entry _ _ he => (by rw [hope] at he; cases he), fun _ => trivial⟩
  | root hope htree => exact ⟨fun _ _ tree _ _ ht => (by rw [htree] at ht; cases ht), fun _ => trivial⟩
  | started hope htree hnode =>
    constructor
    · intro h entry tree node _ ht hn
      rw [htree] at ht
      cases ht
      rw [hnode] at hn
      cases hn
      exact Int.ofNat_le.mp h
    · intro h
      exact Int.ofNat_le.mpr (h _ _ _ hope htree hnode)

theorem decoded_addContinue_iff {s : Server} (hs : s.Sound) (env : Env) (id : UInt32) {request : RequestAddContinue}
    {t : BTreeTraverse} (ht : s.holder.traverses[request.initRequestId]? = some (some t)) :
    (∃ s' sent, onRequestAddContinue env s id request = .ok (s', sent) ∧ sent.Decoded id) ↔
      ∀ side node next child, direction request.compareResult = some side → s.heap[t.current]? = some node →
        node.child side = some next → s.heap[next]? = some child →
        traverseReplySize id request.initRequestId child.ciphertext ≤ 10000 := by
  obtain ⟨⟨s', sent⟩, hok⟩ : ∃ done, onRequestAddContinue env s id request = .ok done :=
    (Worker.answer_addContinue_iff hs).mpr fun _ => ⟨t, ht⟩
  have hcontinued := onRequestAddContinue_continued hok
  rw [decoded_ok_iff hok, onRequestAddContinue_sent hok, decoded_iff id _ (by omega) (by omega)]
  generalize sent.wrapper.response = response at hcontinued
  cases hcontinued with
  | equal hd => exact ⟨fun _ side _ _ _ hside => (by rw [hd] at hside; cases hside), fun _ => trivial⟩
  | @moved side t₁ t₂ heap child hd ht' hgo hchild =>
    rw [ht] at ht'
    cases ht'
    obtain ⟨rfl, node, next, hnode, hnext, rfl⟩ := BTreeTraverse.goTo_moved hgo
    constructor
    · intro h side' node' next' child' hd' hnode' hnext' hchild'
      rw [hd] at hd'
      cases hd'
      rw [hnode] at hnode'
      cases hnode'
      rw [hnext] at hnext'
      cases hnext'
      rw [hchild] at hchild'
      cases hchild'
      exact Int.ofNat_le.mp h
    · intro h
      exact Int.ofNat_le.mpr (h _ _ _ _ hd hnode hnext hchild)
  | @ended side t₁ t₂ heap requestAdd row hd ht' hgo hr hrow =>
    rw [ht] at ht'
    cases ht'
    obtain ⟨node, hnode, hnone, -, -⟩ := BTreeTraverse.goTo_ended hgo
    refine ⟨fun _ side' node' next' _ hd' hnode' hnext' _ => ?_, fun _ => trivial⟩
    rw [hd] at hd'
    cases hd'
    rw [hnode] at hnode'
    cases hnode'
    rw [hnone] at hnext'
    cases hnext'

/-- **A reply is decoded as the response that was selected exactly when it
fits**: the row that was found has columns and room in 9000 bytes, the root
a traversal starts at has room in 9000, and the node it moves on to in 10000. -/
theorem replies_decoded_iff {s : Server} {as : List (Message × Env)}
    (hs : Runs (ofPartial Server.step) Server.init as s) (env : Env) (id : UInt32) :
    (∀ request : RequestGet, (onRequestGet env id request).Decoded id ↔
      ∀ values, Database.get env.mysql request.database request.table request.pk ∅ = (true, values) →
        values ≠ ∅ ∧ rowReplySize id values ≤ 9000) ∧
    (∀ request : RequestAdd,
      (∃ s' sent, onRequestAdd env s id request = .ok (s', sent) ∧ sent.Decoded id) ↔
        ∀ entry tree node, opeEntry request.row = some entry →
          s.forest.getTree request.database request.table = some tree → s.heap[tree]? = some node →
          traverseReplySize id id node.ciphertext ≤ 9000) ∧
    ∀ (request : RequestAddContinue) (t : BTreeTraverse),
      s.holder.traverses[request.initRequestId]? = some (some t) →
      ((∃ s' sent, onRequestAddContinue env s id request = .ok (s', sent) ∧ sent.Decoded id) ↔
        ∀ side node next child, direction request.compareResult = some side → s.heap[t.current]? = some node →
          node.child side = some next → s.heap[next]? = some child →
          traverseReplySize id request.initRequestId child.ciphertext ≤ 10000) := by
  have hsound := Server.Sound.reached hs
  exact ⟨decoded_get_iff env id, decoded_add_iff hsound env id,
    fun request t ht => decoded_addContinue_iff hsound env id ht⟩

/-- `5` is the root, and a traversal has started at it. -/
theorem replies_decoded_iff_pair :
    ∃ s, Runs (ofPartial Server.step) Server.init
        [(.add 1 (.ofValue [0x35]), .calm), (.add 2 (.ofValue [0x33]), .calm)] s ∧
      (onRequestGet .calm 3 {}).Decoded 3 ∧
      (∃ s' sent, onRequestAdd .calm s 3 (.ofValue [0x37]) = .ok (s', sent) ∧ sent.Decoded 3) ∧
      ∃ s' sent, onRequestAddContinue .calm s 3 ⟨2, -1⟩ = .ok (s', sent) ∧ sent.Decoded 3 := by
  have hrun : Runs (ofPartial Server.step) Server.init
      [(.add 1 (.ofValue [0x35]), .calm), (.add 2 (.ofValue [0x33]), .calm)] _ := .cons rfl (.cons rfl .nil)
  obtain ⟨hget, hadd, hcontinue⟩ := replies_decoded_iff hrun .calm 3
  refine ⟨_, hrun, (hget _).mpr ?_, (hadd _).mpr ?_, (hcontinue _ _ rfl).mpr ?_⟩
  · intro values h
    cases h
  · intro entry tree node _ htree hnode
    cases htree
    cases hnode
    decide
  · intro side node next child hside hnode hnext _
    cases hside
    cases hnode
    cases hnext

/-- A value as long as the output is. -/
def longValue : Str := List.replicate 9000 0x61

theorem textSize_gt (value : Str) : value.length < textSize value := by
  unfold textSize headSize
  split
  · omega
  split
  · omega
  split <;> omega

theorem long_not_decoded {value : Str} (h : 9000 ≤ value.length) :
    ¬ (onRequestGet { Env.calm with mysql := { Env.calm.mysql with index := fun _ => [[([0x76], some value)]] } } 1
        {}).Decoded 1 ∧
      ∃ s, Runs (ofPartial Server.step) Server.init [(.add 1 (.ofValue value), .calm)] s ∧
        ∀ s' sent, onRequestAdd .calm s 2 (.ofValue [0x33]) = .ok (s', sent) → ¬ sent.Decoded 2 := by
  have hsize := textSize_gt value
  constructor
  · intro hdecoded
    obtain ⟨-, hle⟩ := (decoded_get_iff _ 1 {}).mp hdecoded ((∅ : Row).insert [0x76] value) rfl
    have hlist : ((∅ : Row).insert [0x76] value).toList = [([0x76], value)] := rfl
    simp only [rowReplySize, hlist, List.map_singleton, List.sum_singleton] at hle
    omega
  · have hrun : Runs (ofPartial Server.step) Server.init [(.add 1 (.ofValue value), .calm)] _ := .cons rfl .nil
    refine ⟨_, hrun, fun s' sent hok hdecoded => ?_⟩
    have hle := (decoded_add_iff (Server.Sound.reached hrun) .calm 2 (.ofValue [0x33])).mp ⟨s', sent, hok, hdecoded⟩
      _ _ _ rfl rfl rfl
    have hle : traverseReplySize 2 2 value ≤ 9000 := hle
    rw [traverseReplySize] at hle
    omega

/-- A column with a long value, and a root that is one. -/
theorem replies_not_decoded :
    ¬ (onRequestGet { Env.calm with mysql := { Env.calm.mysql with index := fun _ => [[([0x76], some longValue)]] } } 1
        {}).Decoded 1 ∧
      ∃ s, Runs (ofPartial Server.step) Server.init [(.add 1 (.ofValue longValue), .calm)] s ∧
        ∀ s' sent, onRequestAdd .calm s 2 (.ofValue [0x33]) = .ok (s', sent) → ¬ sent.Decoded 2 :=
  long_not_decoded (Nat.le_of_eq List.length_replicate.symm)

end Zql
