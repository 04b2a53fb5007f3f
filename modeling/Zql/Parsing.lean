/-
The parser carries out the grammar of messages: each of its states waits
for the item that comes next in a message.
-/
import Zql.Grammar

namespace Zql

open Scanning

namespace ObjectParser

/-- The calls that are messages. -/
def kept : ObjectCall → Option Wrapper
  | .message wrapper => some wrapper
  | .error _ => none

abbrev Awaits {α : Type} (p : ObjectParser) (fits : CborEvent → Option α) (go : α → ObjectParser)
    (out : α → Option Wrapper) : Prop :=
  Waits on kept p fits go out

theorem awaits_of {α : Type} {p : ObjectParser} {fits : CborEvent → Option α} {go : α → ObjectParser}
    {out : α → Option Wrapper}
    (h : ∀ e, match fits e with
      | none => ∃ error, p.on e = p.onError error
      | some a => p.on e = some (go a, (out a).map .message)) : Awaits p fits go out where
  skips e he := by
    have := h e
    rw [he] at this
    obtain ⟨error, hon⟩ := this
    exact ⟨_, hon, rfl⟩
  takes e a he := by
    have := h e
    rw [he] at this
    exact ⟨_, this, by cases out a <;> rfl, fun ho => by rw [ho]; rfl⟩

/-! ## Wrappers -/

theorem awaits_wrapper {p : ObjectParser} (hs : p.state = .init) :
    Awaits p (tag? wrapperKind)
      (fun kind =>
        match kind with
        | .request => { p with state := .requestWrapperArray }
        | .response => { p with state := .responseWrapperArray })
      fun _ => none := by
  refine awaits_of fun e => ?_
  obtain ⟨state, currentKey, elements, currentObject, currentRequestId⟩ := p
  cases hs
  cases e with
  | tag tag =>
    by_cases h₁ : tag = 1000
    · subst h₁
      rfl
    by_cases h₂ : tag = 2000
    · subst h₂
      rfl
    simp only [tag?, wrapperKind, tagRequestWrapper, tagResponseWrapper, h₁, h₂, if_false]
    exact ⟨_, by simp only [on, onTag, h₁, h₂, if_false]; rfl⟩
  | _ => exact ⟨_, rfl⟩

/-- The parser at the body of a request. -/
def request (p : ObjectParser) : RequestKind → ObjectParser
  | .get => { p with currentObject := some (.requestGet {}), state := .requestGetArray }
  | .add => { p with currentObject := some (.requestAdd {}), state := .requestAddArray }
  | .addContinue => { p with currentObject := some (.requestAddContinue {}), state := .requestAddContinueArray }

theorem awaits_requestKind {p : ObjectParser} (hs : p.state = .requestWrapperBody) :
    Awaits p (tag? requestKind) p.request fun _ => none := by
  refine awaits_of fun e => ?_
  obtain ⟨state, currentKey, elements, currentObject, currentRequestId⟩ := p
  cases hs
  cases e with
  | tag tag =>
    by_cases h₁ : tag = tagRequestGet
    · subst h₁
      rfl
    by_cases h₂ : tag = tagRequestAdd
    · subst h₂
      rfl
    by_cases h₃ : tag = tagRequestAddContinue
    · subst h₃
      rfl
    simp only [tag?, requestKind, h₁, h₂, h₃, if_false]
    exact ⟨_, by simp only [on, onTag, show (1100 : UInt32) = tagRequestGet from rfl, h₁, h₂, h₃, if_false]; rfl⟩
  | _ => exact ⟨_, rfl⟩

/-- The parser at the body of a response. -/
def response (p : ObjectParser) : ResponseKind → ObjectParser
  | .getEmpty => { p with state := .responseGetEmptyMap }
  | .getOk => { p with state := .responseGetOkMap }
  | .addOk => { p with state := .responseAddOkMap }
  | .addTraverse => { p with currentObject := some (.responseAddTraverse {}), state := .responseAddTraverseArray }

theorem awaits_responseKind {p : ObjectParser} (hs : p.state = .responseWrapperBody) :
    Awaits p (tag? responseKind) p.response fun _ => none := by
  refine awaits_of fun e => ?_
  obtain ⟨state, currentKey, elements, currentObject, currentRequestId⟩ := p
  cases hs
  cases e with
  | tag tag =>
    by_cases h₁ : tag = tagResponseGetNotFound
    · subst h₁
      rfl
    by_cases h₂ : tag = tagResponseGetOk
    · subst h₂
      rfl
    by_cases h₃ : tag = tagResponseAddOk
    · subst h₃
      rfl
    by_cases h₄ : tag = tagResponseAddTraverse
    · subst h₄
      rfl
    simp only [tag?, responseKind, h₁, h₂, h₃, h₄, if_false]
    exact ⟨_, by simp only [on, onTag, show (2101 : UInt32) = tagResponseGetNotFound from rfl,
      show (2100 : UInt32) = tagResponseGetOk from rfl, h₁, h₂, h₃, h₄, if_false]; rfl⟩
  | _ => exact ⟨_, rfl⟩

/-- The states that wait for an array, its size, and the states after it. -/
inductive ArrayState : ObjectParserState → Int32 → ObjectParserState → Prop
  | requestWrapper : ArrayState .requestWrapperArray 2 .requestWrapperId
  | requestGet : ArrayState .requestGetArray 3 .requestGetDatabase
  | responseWrapper : ArrayState .responseWrapperArray 2 .responseWrapperId
  | requestAdd : ArrayState .requestAddArray 3 .requestAddDatabase
  | responseAddTraverse : ArrayState .responseAddTraverseArray 2 .responseAddTraverseInitRequestId
  | requestAddContinue : ArrayState .requestAddContinueArray 2 .requestAddContinueInitRequestId

theorem awaits_array {p : ObjectParser} {size : Int32} {state : ObjectParserState} (h : ArrayState p.state size state) :
    Awaits p (array? size) (fun _ => { p with state }) fun _ => none := by
  refine awaits_of fun e => ?_
  obtain ⟨_, currentKey, elements, currentObject, currentRequestId⟩ := p
  cases e with
  | array n =>
    by_cases hn : n = size
    · subst hn
      simp only [array?, if_true]
      cases h <;> rfl
    · simp only [array?, hn, if_false]
      cases h <;> exact ⟨_, by simp only [on, onArray, sized, hn, if_false]; rfl⟩
  | _ => cases h <;> exact ⟨_, rfl⟩

/-- The states that wait for the id of a wrapper, and the states after it. -/
inductive IdState : ObjectParserState → ObjectParserState → Prop
  | request : IdState .requestWrapperId .requestWrapperBody
  | response : IdState .responseWrapperId .responseWrapperBody

theorem awaits_id {p : ObjectParser} {state : ObjectParserState} (h : IdState p.state state) :
    Awaits p integer? (fun id => { p with currentRequestId := id.toUInt32, state }) fun _ => none := by
  refine awaits_of fun e => ?_
  obtain ⟨_, currentKey, elements, currentObject, currentRequestId⟩ := p
  cases h <;> cases e <;> first | exact rfl | exact ⟨_, rfl⟩

/-! ## Maps -/

theorem toUInt32_zero {v : Int32} (h : v.toUInt32.toNat = 0) : v = 0 := by
  have hz : v.toUInt32 = 0 := UInt32.toNat_inj.mp h
  rw [← Int32.toInt32_toUInt32 v, hz]
  rfl

theorem toUInt32_pred {v : Int32} {n : Nat} (h : v.toUInt32.toNat = n + 1) : (v - 1).toUInt32.toNat = n := by
  have hle : (1 : UInt32) ≤ v.toUInt32 := by
    rw [UInt32.le_iff_toNat_le]
    show 1 ≤ _
    omega
  rw [show (v - 1).toUInt32 = v.toUInt32 - 1 from rfl, UInt32.toNat_sub_of_le _ _ hle, h]
  rfl

/-- A map read one key and one value at a time and counted down: the states
it is read in, the object it is kept in, and the message it completes. -/
inductive CountsDown : ObjectParserState → ObjectParserState → (Row → Object) → (UInt32 → Row → Wrapper) → Prop
  | requestAdd (database table : Str) :
    CountsDown .requestAddRowMapKey .requestAddRowMapValue (fun row => .requestAdd { database, table, row }) fun id row =>
      .request ⟨id, .add { database, table, row }⟩
  | responseGetOk :
    CountsDown .responseGetOkMapKey .responseGetOkMapValue (fun values => .responseGetOk { values }) fun id values =>
      .response ⟨id, .getOk { values }⟩

section

variable {keyState valueState : ObjectParserState} {object : Row → Object} {body : UInt32 → Row → Wrapper}

theorem CountsDown.awaits_key (h : CountsDown keyState valueState object body) {p : ObjectParser}
    (hs : p.state = keyState) :
    Awaits p string? (fun key => { p with currentKey := key, state := valueState }) fun _ => none := by
  refine awaits_of fun e => ?_
  obtain ⟨_, currentKey, elements, currentObject, currentRequestId⟩ := p
  cases hs
  cases h <;> cases e <;> first | exact rfl | exact ⟨_, rfl⟩

theorem CountsDown.awaits_value (h : CountsDown keyState valueState object body) {p : ObjectParser} {row : Row}
    (hs : p.state = valueState) (ho : p.currentObject = some (object row)) :
    Awaits p string?
      (fun value =>
        { p with
          currentObject := some (object (row.insert p.currentKey value))
          elements := p.elements - 1
          state := if p.elements - 1 = 0 then .init else keyState })
      fun value =>
        if p.elements - 1 = 0 then some (body p.currentRequestId (row.insert p.currentKey value)) else none := by
  refine awaits_of fun e => ?_
  obtain ⟨_, currentKey, elements, currentObject, currentRequestId⟩ := p
  cases hs
  cases ho
  cases e with
  | string str =>
    by_cases hz : elements - 1 = 0
    · cases h <;> simp only [string?, on, onString, hz, if_true] <;> rfl
    · cases h <;> simp only [string?, on, onString, hz, if_false] <;> rfl
  | _ => cases h <;> exact ⟨_, rfl⟩

theorem CountsDown.awaits_last (h : CountsDown keyState valueState object body) {p : ObjectParser} {row : Row}
    (hs : p.state = valueState) (ho : p.currentObject = some (object row)) (hn : (p.elements - 1).toUInt32.toNat = 0) :
    Awaits p string?
      (fun value =>
        { p with
          currentObject := some (object (row.insert p.currentKey value))
          elements := p.elements - 1
          state := .init })
      fun value => some (body p.currentRequestId (row.insert p.currentKey value)) := by
  have hw := h.awaits_value hs ho
  simp only [toUInt32_zero hn, if_true] at hw
  rwa [toUInt32_zero hn]

theorem CountsDown.awaits_more (h : CountsDown keyState valueState object body) {p : ObjectParser} {row : Row} {n : Nat}
    (hs : p.state = valueState) (ho : p.currentObject = some (object row))
    (hn : (p.elements - 1).toUInt32.toNat = n + 1) :
    Awaits p string?
      (fun value =>
        { p with
          currentObject := some (object (row.insert p.currentKey value))
          elements := p.elements - 1
          state := keyState })
      fun _ => none := by
  have hmore : p.elements - 1 ≠ 0 := by
    intro hz
    rw [hz] at hn
    cases hn
  have hw := h.awaits_value hs ho
  simp only [hmore, if_false] at hw
  exact hw

theorem CountsDown.scans (h : CountsDown keyState valueState object body) {n : Nat} {p : ObjectParser} {row : Row}
    (hs : p.state = keyState) (ho : p.currentObject = some (object row)) (hn : (p.elements - 1).toUInt32.toNat = n) :
    Scans on kept p (entries n row) fun row p' ms => p'.state = .init ∧ ms = [body p.currentRequestId row] := by
  induction n generalizing p row with
  | zero =>
    refine (h.awaits_key hs).bind fun key => ?_
    exact (h.awaits_last (p := { p with currentKey := key, state := valueState }) rfl ho hn).last fun value => ⟨rfl, rfl⟩
  | succ n ih =>
    refine (h.awaits_key hs).bind fun key => ?_
    refine (h.awaits_more (p := { p with currentKey := key, state := valueState }) rfl ho hn).bind fun value => ?_
    exact ih rfl rfl (toUInt32_pred hn)

end

theorem awaits_requestAddMap {p : ObjectParser} (hs : p.state = .requestAddRowMap) :
    Awaits p map? (fun size => { p with elements := size, state := .requestAddRowMapKey }) fun _ => none := by
  refine awaits_of fun e => ?_
  obtain ⟨state, currentKey, elements, currentObject, currentRequestId⟩ := p
  cases hs
  cases e <;> first | exact rfl | exact ⟨_, rfl⟩

theorem awaits_responseGetOkMap {p : ObjectParser} (hs : p.state = .responseGetOkMap) :
    Awaits p map?
      (fun size => { p with elements := size, currentObject := some (.responseGetOk {}), state := .responseGetOkMapKey })
      fun _ => none := by
  refine awaits_of fun e => ?_
  obtain ⟨state, currentKey, elements, currentObject, currentRequestId⟩ := p
  cases hs
  cases e <;> first | exact rfl | exact ⟨_, rfl⟩

/-- The states that wait for an empty map, and the response that is. -/
inductive EmptyState : ObjectParserState → Response → Prop
  | getEmpty : EmptyState .responseGetEmptyMap .getEmpty
  | addOk : EmptyState .responseAddOkMap .addOk

theorem awaits_empty {p : ObjectParser} {response : Response} (h : EmptyState p.state response) :
    Awaits p emptyMap? (fun _ => { p with state := .init }) fun _ => some (.response ⟨p.currentRequestId, response⟩) := by
  refine awaits_of fun e => ?_
  obtain ⟨_, currentKey, elements, currentObject, currentRequestId⟩ := p
  cases e with
  | map n =>
    by_cases hn : n = 0
    · subst hn
      cases h <;> rfl
    · simp only [emptyMap?, hn, if_false]
      cases h <;> exact ⟨_, by simp only [on, onMap, hn, if_false]; rfl⟩
  | _ => cases h <;> exact ⟨_, rfl⟩

/-! ## Fields -/

/-- The states that wait for a text of an object, with the object, and the states
and objects after them. -/
inductive TextState : ObjectParserState → Object → ObjectParserState → (Str → Object) → Prop
  | requestGetDatabase (request : RequestGet) :
    TextState .requestGetDatabase (.requestGet request) .requestGetTable fun database =>
      .requestGet { request with database }
  | requestGetTable (request : RequestGet) :
    TextState .requestGetTable (.requestGet request) .requestGetPk fun table => .requestGet { request with table }
  | requestAddDatabase (request : RequestAdd) :
    TextState .requestAddDatabase (.requestAdd request) .requestAddTable fun database =>
      .requestAdd { request with database }
  | requestAddTable (request : RequestAdd) :
    TextState .requestAddTable (.requestAdd request) .requestAddRowMap fun table => .requestAdd { request with table }

theorem awaits_text {p : ObjectParser} {object : Object} {state : ObjectParserState} {next : Str → Object}
    (h : TextState p.state object state next) (ho : p.currentObject = some object) :
    Awaits p string? (fun str => { p with currentObject := some (next str), state }) fun _ => none := by
  refine awaits_of fun e => ?_
  obtain ⟨_, currentKey, elements, currentObject, currentRequestId⟩ := p
  cases ho
  cases h <;> cases e <;> first | exact rfl | exact ⟨_, rfl⟩

theorem awaits_requestGetPk {p : ObjectParser} {request : RequestGet} (hs : p.state = .requestGetPk)
    (ho : p.currentObject = some (.requestGet request)) :
    Awaits p integer?
      (fun pk =>
        { p with currentObject := some (.requestGet { request with pk := pk.toInt64.toUInt64 }), state := .init })
      fun pk => some (.request ⟨p.currentRequestId, .get { request with pk := pk.toInt64.toUInt64 }⟩) := by
  refine awaits_of fun e => ?_
  obtain ⟨state, currentKey, elements, currentObject, currentRequestId⟩ := p
  cases hs
  cases ho
  cases e <;> first | exact rfl | exact ⟨_, rfl⟩

/-- The states that wait for the id of an insert. -/
inductive InitRequestIdState : ObjectParserState → Object → ObjectParserState → (UInt32 → Object) → Prop
  | requestAddContinue (request : RequestAddContinue) :
    InitRequestIdState .requestAddContinueInitRequestId (.requestAddContinue request) .requestAddContinueCompareResult
      fun initRequestId => .requestAddContinue { request with initRequestId }
  | responseAddTraverse (response : ResponseAddTraverse) :
    InitRequestIdState .responseAddTraverseInitRequestId (.responseAddTraverse response) .responseAddTraverseCiphertext
      fun initRequestId => .responseAddTraverse { response with initRequestId }

theorem awaits_initRequestId {p : ObjectParser} {object : Object} {state : ObjectParserState} {next : UInt32 → Object}
    (h : InitRequestIdState p.state object state next) (ho : p.currentObject = some object) :
    Awaits p integer? (fun id => { p with currentObject := some (next id.toUInt32), state }) fun _ => none := by
  refine awaits_of fun e => ?_
  obtain ⟨_, currentKey, elements, currentObject, currentRequestId⟩ := p
  cases ho
  cases h <;> cases e <;> first | exact rfl | exact ⟨_, rfl⟩

theorem awaits_compareResult {p : ObjectParser} {request : RequestAddContinue}
    (hs : p.state = .requestAddContinueCompareResult) (ho : p.currentObject = some (.requestAddContinue request)) :
    Awaits p integer?
      (fun compareResult =>
        { p with currentObject := some (.requestAddContinue { request with compareResult }), state := .init })
      fun compareResult => some (.request ⟨p.currentRequestId, .addContinue { request with compareResult }⟩) := by
  refine awaits_of fun e => ?_
  obtain ⟨state, currentKey, elements, currentObject, currentRequestId⟩ := p
  cases hs
  cases ho
  cases e <;> first | exact rfl | exact ⟨_, rfl⟩

theorem awaits_ciphertext {p : ObjectParser} {response : ResponseAddTraverse}
    (hs : p.state = .responseAddTraverseCiphertext) (ho : p.currentObject = some (.responseAddTraverse response)) :
    Awaits p bytes?
      (fun ciphertext =>
        { p with currentObject := some (.responseAddTraverse { response with ciphertext }), state := .init })
      fun ciphertext => some (.response ⟨p.currentRequestId, .addTraverse { response with ciphertext }⟩) := by
  refine awaits_of fun e => ?_
  obtain ⟨state, currentKey, elements, currentObject, currentRequestId⟩ := p
  cases hs
  cases ho
  cases e <;> first | exact rfl | exact ⟨_, rfl⟩

/-! ## Messages -/

/-- The end of a message. -/
def Completes (wrapper : Wrapper) (p : ObjectParser) (ms : List Wrapper) : Prop := p.state = .init ∧ ms = [wrapper]

theorem scans_requestBody (p : ObjectParser) (kind : RequestKind) :
    Scans on kept (p.request kind) (requestBody kind) fun request =>
      Completes (.request ⟨p.currentRequestId, request⟩) := by
  cases kind with
  | get =>
    refine (awaits_array .requestGet).bind fun _ => ?_
    refine (awaits_text (.requestGetDatabase _) rfl).bind fun database => ?_
    refine (awaits_text (.requestGetTable _) rfl).bind fun table => ?_
    exact (awaits_requestGetPk rfl rfl).last fun pk => ⟨rfl, rfl⟩
  | add =>
    refine (awaits_array .requestAdd).bind fun _ => ?_
    refine (awaits_text (.requestAddDatabase _) rfl).bind fun database => ?_
    refine (awaits_text (.requestAddTable _) rfl).bind fun table => ?_
    refine (awaits_requestAddMap rfl).bind fun size => ?_
    exact Scans.map ((CountsDown.requestAdd database table).scans rfl rfl rfl)
  | addContinue =>
    refine (awaits_array .requestAddContinue).bind fun _ => ?_
    refine (awaits_initRequestId (.requestAddContinue _) rfl).bind fun initRequestId => ?_
    exact (awaits_compareResult rfl rfl).last fun compareResult => ⟨rfl, rfl⟩

theorem scans_responseBody (p : ObjectParser) (kind : ResponseKind) :
    Scans on kept (p.response kind) (responseBody kind) fun response =>
      Completes (.response ⟨p.currentRequestId, response⟩) := by
  cases kind with
  | getEmpty => exact (awaits_empty .getEmpty).last fun _ => ⟨rfl, rfl⟩
  | getOk =>
    refine (awaits_responseGetOkMap rfl).bind fun size => ?_
    exact Scans.map (CountsDown.responseGetOk.scans rfl rfl rfl)
  | addOk => exact (awaits_empty .addOk).last fun _ => ⟨rfl, rfl⟩
  | addTraverse =>
    refine (awaits_array .responseAddTraverse).bind fun _ => ?_
    refine (awaits_initRequestId (.responseAddTraverse _) rfl).bind fun initRequestId => ?_
    exact (awaits_ciphertext rfl rfl).last fun ciphertext => ⟨rfl, rfl⟩

theorem scans_message {p : ObjectParser} (hs : p.state = .init) :
    Scans on kept p message fun wrapper p' ms => Completes wrapper p' ms := by
  refine (awaits_wrapper hs).bind fun kind => ?_
  cases kind with
  | request =>
    refine (awaits_array .requestWrapper).bind fun _ => ?_
    refine (awaits_id .request).bind fun id => ?_
    refine (awaits_requestKind rfl).bind fun kind => ?_
    exact Scans.map (scans_requestBody _ kind)
  | response =>
    refine (awaits_array .responseWrapper).bind fun _ => ?_
    refine (awaits_id .response).bind fun id => ?_
    refine (awaits_responseKind rfl).bind fun kind => ?_
    exact Scans.map (scans_responseBody _ kind)

/-- **The parser's calls that are not errors are the messages its items
hold**, whatever they are, and no cast of it goes wrong. -/
theorem answers_messages {p : ObjectParser} (hs : p.state = .init) (events : List CborEvent) :
    answers on kept p events = some (messages events) :=
  answers_readAll shortens_message (fun p => p.state = .init) (fun _ hs => scans_message hs) hs events

theorem feeds {p : ObjectParser} (hs : p.state = .init) (events : List CborEvent) :
    ∃ p' calls, feed on p events = some (p', calls) ∧ calls.filterMap kept = messages events := by
  obtain ⟨⟨p', calls⟩, hfeed, hcalls⟩ := Option.map_eq_some_iff.mp (answers_messages hs events)
  exact ⟨p', calls, hfeed, hcalls⟩

/-! ## Listeners -/

/-- What the parser's listener is told: the parser's calls, one after the
other. -/
theorem foldlM_listen {L E : Type} (call : L → ObjectCall → Except E L) {p p' : ObjectParser} {calls : List ObjectCall}
    {events : List CborEvent} (h : feed on p events = some (p', calls)) (x : L) :
    events.foldlM (listen call) (p, x) =
      match calls.foldlM call x with
      | .ok x' => .ok (p', x')
      | .error e => .error (.listener e) := by
  induction events generalizing p x calls with
  | nil =>
    cases h
    rfl
  | cons e events ih =>
    simp only [feed] at h
    split at h
    · cases h
    next p₁ c hon =>
    obtain ⟨⟨p₂, rest⟩, hrest, heq⟩ := Option.map_eq_some_iff.mp h
    cases heq
    rw [List.foldlM_cons]
    cases c with
    | none =>
      simp only [listen, hon]
      exact ih hrest x
    | some c =>
      simp only [listen, hon, Option.toList_some, List.singleton_append, List.foldlM_cons]
      cases hc : call x c with
      | ok x' => exact ih hrest x'
      | error e => rfl

end ObjectParser

end Zql
