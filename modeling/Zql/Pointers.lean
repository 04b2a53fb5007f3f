/-
`ObjectParser` once more, with its objects in memory. `currentObject` is a
`void *`: each state casts it to what it takes it for, and the listener owns
an object once it has been called with it.

A cast to what is not there has no result here, and neither has one of an
object that was handed over, or a call with a field that was never assigned
(`on`). It always has one, from any memory the parser starts in, and no
object is handed over twice (`objects_handed_over`).
-/
import Zql.BTree
import Zql.ObjectParser
import Zql.Lib.Scan

namespace Zql

open Scanning

/-! ## Objects under construction -/

/-- A `RequestGet` as far as its fields have been assigned. -/
structure RequestGetDraft where
  database : Option Str := none
  table : Option Str := none
  pk : Option UInt64 := none

/-- The row is a map, and is there from the start. -/
structure RequestAddDraft where
  database : Option Str := none
  table : Option Str := none
  row : Row := ∅

structure RequestAddContinueDraft where
  initRequestId : Option UInt32 := none
  compareResult : Option Int32 := none

structure ResponseAddTraverseDraft where
  initRequestId : Option UInt32 := none
  ciphertext : Option Ciphertext := none

inductive Draft
  | requestGet (request : RequestGetDraft)
  | requestAdd (request : RequestAddDraft)
  | requestAddContinue (request : RequestAddContinueDraft)
  | responseGetOk (response : ResponseGetOk)
  | responseAddTraverse (response : ResponseAddTraverseDraft)

/-- The object where a field that was not assigned is as it starts out. -/
def Draft.object : Draft → Object
  | .requestGet r => .requestGet ⟨r.database.getD [], r.table.getD [], r.pk.getD 0⟩
  | .requestAdd r => .requestAdd ⟨r.database.getD [], r.table.getD [], r.row⟩
  | .requestAddContinue r => .requestAddContinue ⟨r.initRequestId.getD 0, r.compareResult.getD 0⟩
  | .responseGetOk r => .responseGetOk r
  | .responseAddTraverse r => .responseAddTraverse ⟨r.initRequestId.getD 0, r.ciphertext.getD []⟩

/-- All fields have been assigned, and the message is made of them. -/
inductive Draft.Complete : Draft → Wrapper → Prop
  | requestGet (id : UInt32) (database table : Str) (pk : UInt64) :
      Complete (.requestGet ⟨some database, some table, some pk⟩) (.request ⟨id, .get ⟨database, table, pk⟩⟩)
  | requestAdd (id : UInt32) (database table : Str) (row : Row) :
      Complete (.requestAdd ⟨some database, some table, row⟩) (.request ⟨id, .add ⟨database, table, row⟩⟩)
  | requestAddContinue (id initRequestId : UInt32) (compareResult : Int32) :
      Complete (.requestAddContinue ⟨some initRequestId, some compareResult⟩)
        (.request ⟨id, .addContinue ⟨initRequestId, compareResult⟩⟩)
  | responseGetOk (id : UInt32) (response : ResponseGetOk) :
      Complete (.responseGetOk response) (.response ⟨id, .getOk response⟩)
  | responseAddTraverse (id initRequestId : UInt32) (ciphertext : Ciphertext) :
      Complete (.responseAddTraverse ⟨some initRequestId, some ciphertext⟩)
        (.response ⟨id, .addTraverse ⟨initRequestId, ciphertext⟩⟩)

/-- A type `currentObject` is cast to: the object if it is of that type, and
the message with an id when all its fields are assigned. -/
structure ObjectType (α : Type) where
  cast : Draft → Option α
  draft : α → Draft
  message : UInt32 → α → Option Wrapper
  cast_draft : ∀ object, cast (draft object) = some object
  complete : ∀ id object wrapper, message id object = some wrapper → (draft object).Complete wrapper

namespace ObjectType

def requestGet : ObjectType RequestGetDraft where
  cast
    | .requestGet request => some request
    | _ => none
  draft := .requestGet
  message
    | id, ⟨some database, some table, some pk⟩ => some (.request ⟨id, .get ⟨database, table, pk⟩⟩)
    | _, _ => none
  cast_draft _ := rfl
  complete id object wrapper h := by
    split at h
    · cases h
      exact .requestGet ..
    · cases h

def requestAdd : ObjectType RequestAddDraft where
  cast
    | .requestAdd request => some request
    | _ => none
  draft := .requestAdd
  message
    | id, ⟨some database, some table, row⟩ => some (.request ⟨id, .add ⟨database, table, row⟩⟩)
    | _, _ => none
  cast_draft _ := rfl
  complete id object wrapper h := by
    split at h
    · cases h
      exact .requestAdd ..
    · cases h

def requestAddContinue : ObjectType RequestAddContinueDraft where
  cast
    | .requestAddContinue request => some request
    | _ => none
  draft := .requestAddContinue
  message
    | id, ⟨some initRequestId, some compareResult⟩ =>
      some (.request ⟨id, .addContinue ⟨initRequestId, compareResult⟩⟩)
    | _, _ => none
  cast_draft _ := rfl
  complete id object wrapper h := by
    split at h
    · cases h
      exact .requestAddContinue ..
    · cases h

def responseGetOk : ObjectType ResponseGetOk where
  cast
    | .responseGetOk response => some response
    | _ => none
  draft := .responseGetOk
  message id response := some (.response ⟨id, .getOk response⟩)
  cast_draft _ := rfl
  complete id response wrapper h := by
    cases h
    exact .responseGetOk ..

def responseAddTraverse : ObjectType ResponseAddTraverseDraft where
  cast
    | .responseAddTraverse response => some response
    | _ => none
  draft := .responseAddTraverse
  message
    | id, ⟨some initRequestId, some ciphertext⟩ =>
      some (.response ⟨id, .addTraverse ⟨initRequestId, ciphertext⟩⟩)
    | _, _ => none
  cast_draft _ := rfl
  complete id object wrapper h := by
    split at h
    · cases h
      exact .responseAddTraverse ..
    · cases h

end ObjectType

/-- An allocated object. The listener may have deleted it once it is passed. -/
structure Cell where
  draft : Draft
  passed : Bool

/-- The parser with its memory. -/
structure PointerParser where
  state : ObjectParserState
  currentKey : Str
  elements : Int32
  currentObject : Option Addr
  currentRequestId : UInt32
  memory : List Cell

/-- A call of the listener: with an object, at its address, or without one. -/
inductive PointerCall
  | object (address : Addr) (wrapper : Wrapper)
  | plain (call : ObjectCall)

/-- The address of the object that is passed. -/
def PointerCall.address? : PointerCall → Option Addr
  | .object address _ => some address
  | .plain _ => none

def PointerCall.told : PointerCall → ObjectCall
  | .object _ wrapper => .message wrapper
  | .plain call => call

namespace PointerParser

abbrev Step := Option (PointerParser × Option PointerCall)

def goTo (p : PointerParser) (state : ObjectParserState) : Step := some ({ p with state }, none)

def onError (p : PointerParser) (error : String) : Step := some (p, some (.plain (.error error)))

/-- `currentObject = new ...`. -/
def new (p : PointerParser) (draft : Draft) : PointerParser :=
  { p with memory := p.memory ++ [⟨draft, false⟩], currentObject := some p.memory.length }

/-- `currentObject` as a pointer to an object of the type. -/
def cast {α : Type} (p : PointerParser) (type : ObjectType α) : Option (Addr × α) := do
  let address ← p.currentObject
  let cell ← p.memory[address]?
  if cell.passed then none
  else
    let object ← type.cast cell.draft
    pure (address, object)

/-- A field of the object is assigned, or its map. -/
def assign {α : Type} (p : PointerParser) (type : ObjectType α) (set : α → α) : Option PointerParser := do
  let (address, object) ← p.cast type
  pure { p with memory := p.memory.set address ⟨type.draft (set object), false⟩ }

/-- The object is passed to the listener. -/
def pass {α : Type} (p : PointerParser) (type : ObjectType α) : Step := do
  let (address, object) ← p.cast type
  let wrapper ← type.message p.currentRequestId object
  pure ({ p with memory := p.memory.set address ⟨type.draft object, true⟩, state := .init },
    some (.object address wrapper))

def callEmpty (p : PointerParser) (response : Response) : Step :=
  some ({ p with state := .init }, some (.plain (.message (.response ⟨p.currentRequestId, response⟩))))

def onInteger (p : PointerParser) (value : Int32) : Step :=
  match p.state with
  | .requestWrapperId => { p with currentRequestId := value.toUInt32 }.goTo .requestWrapperBody
  | .requestGetPk => do
    let p ← p.assign .requestGet fun request => { request with pk := some value.toInt64.toUInt64 }
    p.pass .requestGet
  | .responseWrapperId => { p with currentRequestId := value.toUInt32 }.goTo .responseWrapperBody
  | .responseAddTraverseInitRequestId => do
    let p ← p.assign .responseAddTraverse fun response => { response with initRequestId := some value.toUInt32 }
    p.goTo .responseAddTraverseCiphertext
  | .requestAddContinueInitRequestId => do
    let p ← p.assign .requestAddContinue fun request => { request with initRequestId := some value.toUInt32 }
    p.goTo .requestAddContinueCompareResult
  | .requestAddContinueCompareResult => do
    let p ← p.assign .requestAddContinue fun request => { request with compareResult := some value }
    p.pass .requestAddContinue
  | _ => p.onError "unknown integer"

def onBytes (p : PointerParser) (data : List UInt8) : Step :=
  match p.state with
  | .responseAddTraverseCiphertext => do
    let p ← p.assign .responseAddTraverse fun response => { response with ciphertext := some data }
    p.pass .responseAddTraverse
  | _ => p.onError "unknown bytes"

def onString (p : PointerParser) (str : Str) : Step :=
  match p.state with
  | .requestGetDatabase => do
    let p ← p.assign .requestGet fun request => { request with database := some str }
    p.goTo .requestGetTable
  | .requestGetTable => do
    let p ← p.assign .requestGet fun request => { request with table := some str }
    p.goTo .requestGetPk
  | .responseGetOkMapKey => { p with currentKey := str }.goTo .responseGetOkMapValue
  | .responseGetOkMapValue => do
    let p ← p.assign .responseGetOk fun response => { response with values := response.values.insert p.currentKey str }
    let p := { p with elements := p.elements - 1 }
    if p.elements = (0 : Int32) then p.pass .responseGetOk else p.goTo .responseGetOkMapKey
  | .requestAddDatabase => do
    let p ← p.assign .requestAdd fun request => { request with database := some str }
    p.goTo .requestAddTable
  | .requestAddTable => do
    let p ← p.assign .requestAdd fun request => { request with table := some str }
    p.goTo .requestAddRowMap
  | .requestAddRowMapKey => { p with currentKey := str }.goTo .requestAddRowMapValue
  | .requestAddRowMapValue => do
    let p ← p.assign .requestAdd fun request => { request with row := request.row.insert p.currentKey str }
    let p := { p with elements := p.elements - 1 }
    if p.elements = (0 : Int32) then p.pass .requestAdd else p.goTo .requestAddRowMapKey
  | _ => p.onError "unknown string"

def sized (p : PointerParser) (size expected : Int32) (state : ObjectParserState) (error : String) : Step :=
  if size = expected then p.goTo state else p.onError error

def onArray (p : PointerParser) (size : Int32) : Step :=
  match p.state with
  | .requestWrapperArray => p.sized size 2 .requestWrapperId "unknown wrapper size"
  | .requestGetArray => p.sized size 3 .requestGetDatabase "unknown wrapper size"
  | .responseWrapperArray => p.sized size 2 .responseWrapperId "unknown wrapper size"
  | .requestAddArray => p.sized size 3 .requestAddDatabase "unknown wrapper size"
  | .responseAddTraverseArray => p.sized size 2 .responseAddTraverseInitRequestId "unknown array size"
  | .requestAddContinueArray => p.sized size 2 .requestAddContinueInitRequestId "unknown array size"
  | _ => p.onError "unknown array"

def onMap (p : PointerParser) (size : Int32) : Step :=
  match p.state with
  | .responseGetEmptyMap => if size = 0 then p.callEmpty .getEmpty else p.onError "invalid map size"
  | .responseGetOkMap => ({ p with elements := size }.new (.responseGetOk {})).goTo .responseGetOkMapKey
  | .requestAddRowMap => { p with elements := size }.goTo .requestAddRowMapKey
  | .responseAddOkMap => if size = 0 then p.callEmpty .addOk else p.onError "invalid map size"
  | _ => p.onError "invalid map"

def onTag (p : PointerParser) (tag : UInt32) : Step :=
  match p.state with
  | .init =>
    if tag = 1000 then p.goTo .requestWrapperArray
    else if tag = 2000 then p.goTo .responseWrapperArray
    else p.onError "unknown tag"
  | .requestWrapperBody =>
    if tag = 1100 then (p.new (.requestGet {})).goTo .requestGetArray
    else if tag = tagRequestAdd then (p.new (.requestAdd {})).goTo .requestAddArray
    else if tag = tagRequestAddContinue then (p.new (.requestAddContinue {})).goTo .requestAddContinueArray
    else p.onError "unknown tag"
  | .responseWrapperBody =>
    if tag = 2101 then p.goTo .responseGetEmptyMap
    else if tag = 2100 then p.goTo .responseGetOkMap
    else if tag = tagResponseAddOk then p.goTo .responseAddOkMap
    else if tag = tagResponseAddTraverse then (p.new (.responseAddTraverse {})).goTo .responseAddTraverseArray
    else p.onError "unknown tag"
  | _ => p.onError "unknown tag"

def onSpecial (p : PointerParser) (_code : Int32) : Step := p.onError "unknown special"

/-- The call of the reader, by its method. -/
def on (p : PointerParser) : CborEvent → Step
  | .integer value => p.onInteger value
  | .bytes data => p.onBytes data
  | .string str => p.onString str
  | .array size => p.onArray size
  | .map size => p.onMap size
  | .tag tag => p.onTag tag
  | .special code => p.onSpecial code
  | .error error => p.onError error

/-! ## The object of a state -/

/-- The states that use no object. -/
inductive Idle : ObjectParserState → Prop
  | init : Idle .init
  | requestWrapperArray : Idle .requestWrapperArray
  | requestWrapperId : Idle .requestWrapperId
  | requestWrapperBody : Idle .requestWrapperBody
  | responseWrapperArray : Idle .responseWrapperArray
  | responseWrapperId : Idle .responseWrapperId
  | responseWrapperBody : Idle .responseWrapperBody
  | responseGetEmptyMap : Idle .responseGetEmptyMap
  | responseGetOkMap : Idle .responseGetOkMap
  | responseAddOkMap : Idle .responseAddOkMap

/-- What the object of a state is, and what of it has been assigned. -/
inductive Filled : ObjectParserState → Draft → Prop
  | requestGetArray : Filled .requestGetArray (.requestGet {})
  | requestGetDatabase : Filled .requestGetDatabase (.requestGet {})
  | requestGetTable (database : Str) : Filled .requestGetTable (.requestGet { database := some database })
  | requestGetPk (database table : Str) :
      Filled .requestGetPk (.requestGet { database := some database, table := some table })
  | requestAddArray : Filled .requestAddArray (.requestAdd {})
  | requestAddDatabase : Filled .requestAddDatabase (.requestAdd {})
  | requestAddTable (database : Str) : Filled .requestAddTable (.requestAdd { database := some database })
  | requestAddRowMap (database table : Str) :
      Filled .requestAddRowMap (.requestAdd { database := some database, table := some table })
  | requestAddRowMapKey (database table : Str) (row : Row) :
      Filled .requestAddRowMapKey (.requestAdd { database := some database, table := some table, row })
  | requestAddRowMapValue (database table : Str) (row : Row) :
      Filled .requestAddRowMapValue (.requestAdd { database := some database, table := some table, row })
  | requestAddContinueArray : Filled .requestAddContinueArray (.requestAddContinue {})
  | requestAddContinueInitRequestId : Filled .requestAddContinueInitRequestId (.requestAddContinue {})
  | requestAddContinueCompareResult (initRequestId : UInt32) :
      Filled .requestAddContinueCompareResult (.requestAddContinue { initRequestId := some initRequestId })
  | responseGetOkMapKey (response : ResponseGetOk) : Filled .responseGetOkMapKey (.responseGetOk response)
  | responseGetOkMapValue (response : ResponseGetOk) : Filled .responseGetOkMapValue (.responseGetOk response)
  | responseAddTraverseArray : Filled .responseAddTraverseArray (.responseAddTraverse {})
  | responseAddTraverseInitRequestId : Filled .responseAddTraverseInitRequestId (.responseAddTraverse {})
  | responseAddTraverseCiphertext (initRequestId : UInt32) :
      Filled .responseAddTraverseCiphertext (.responseAddTraverse { initRequestId := some initRequestId })

/-- `currentObject` points to this, and it has not been passed. -/
structure Points (p : PointerParser) (address : Addr) (draft : Draft) : Prop where
  current : p.currentObject = some address
  stored : p.memory[address]? = some ⟨draft, false⟩

/-- A state that uses an object has one of its type, with what it relies on
assigned, and not passed. -/
inductive Sound (p : PointerParser) : Prop
  | idle : Idle p.state → Sound p
  | filling {address : Addr} {draft : Draft} : p.Points address draft → Filled p.state draft → Sound p

/-- The object at the address was passed, as this. -/
def Passed (p : PointerParser) (address : Addr) (draft : Draft) : Prop := p.memory[address]? = some ⟨draft, true⟩

/-! ## Steps -/

/-- The parser without its memory: what `currentObject` points to, a field
that was not assigned as it starts out there. -/
def forget (p : PointerParser) : ObjectParser where
  state := p.state
  currentKey := p.currentKey
  elements := p.elements
  currentObject := p.currentObject.bind fun address => p.memory[address]?.map fun cell => cell.draft.object
  currentRequestId := p.currentRequestId

/-- What an event does: nothing is cast to what it is not, an object that was
passed stays as it is, the one that is passed now was not before and is
complete, and the parser without memory does the same. -/
structure Moves (p : PointerParser) (e : CborEvent) (p' : PointerParser) (call : Option PointerCall) : Prop where
  on : p.on e = some (p', call)
  sound : p'.Sound
  kept : ∀ address draft, p.Passed address draft → p'.Passed address draft
  passes : ∀ address wrapper, call = some (.object address wrapper) →
    (∀ draft, ¬ p.Passed address draft) ∧ ∃ draft, p'.Passed address draft ∧ draft.Complete wrapper
  told : p.forget.on e = some (p'.forget, call.map PointerCall.told)

section

variable {p : PointerParser} {e : CborEvent}

theorem moves_quiet {p' : PointerParser} (hon : p.on e = some (p', none)) (htold : p.forget.on e = some (p'.forget, none))
    (hs : p'.Sound) (hmemory : p'.memory = p.memory) : ∃ p' call, p.Moves e p' call := by
  refine ⟨p', none, hon, hs, fun address draft h => ?_, nofun, htold⟩
  rw [Passed, hmemory]
  exact h

theorem moves_plain {p' : PointerParser} {call : ObjectCall} (hon : p.on e = some (p', some (.plain call)))
    (htold : p.forget.on e = some (p'.forget, some call)) (hs : p'.Sound) (hmemory : p'.memory = p.memory) :
    ∃ p' call, p.Moves e p' call := by
  refine ⟨p', some (.plain call), hon, hs, fun address draft h => ?_, nofun, htold⟩
  rw [Passed, hmemory]
  exact h

theorem moves_error {error : String} (hs : p.Sound) (hon : p.on e = p.onError error)
    (htold : p.forget.on e = p.forget.onError error) : ∃ p' call, p.Moves e p' call :=
  moves_plain hon htold hs rfl

theorem Points.forget {address : Addr} {draft : Draft} (h : p.Points address draft) :
    p.forget = ⟨p.state, p.currentKey, p.elements, some draft.object, p.currentRequestId⟩ := by
  rw [PointerParser.forget, h.current, Option.bind_some, h.stored]
  rfl

theorem points_new (p : PointerParser) (draft : Draft) : (p.new draft).Points p.memory.length draft where
  current := rfl
  stored := List.getElem?_concat_length

theorem moves_new {draft : Draft} {state : ObjectParserState} {elements : Int32} (hfilled : Filled state draft)
    (hon : p.on e = ({ p with elements }.new draft).goTo state)
    (htold : p.forget.on e =
      some (⟨state, p.currentKey, elements, some draft.object, p.currentRequestId⟩, none)) :
    ∃ p' call, p.Moves e p' call := by
  have hpoints : PointerParser.Points { { p with elements }.new draft with state } p.memory.length draft :=
    ⟨rfl, (points_new p draft).stored⟩
  refine ⟨_, none, hon, .filling hpoints hfilled, fun address draft' h => ?_, nofun, ?_⟩
  · have hlt := (List.getElem?_eq_some_iff.mp h).1
    exact (List.getElem?_append_left hlt).trans h
  · rw [htold, hpoints.forget]
    rfl

section

variable {α : Type} (type : ObjectType α) {object : α} {address : Addr}

theorem Points.cast (h : p.Points address (type.draft object)) : p.cast type = some (address, object) := by
  simp [PointerParser.cast, h.current, h.stored, type.cast_draft]

/-- The parser after its object has been written. -/
def written (p : PointerParser) (address : Addr) (draft : Draft) : PointerParser :=
  { p with memory := p.memory.set address ⟨draft, false⟩ }

theorem Points.assign (h : p.Points address (type.draft object)) (set : α → α) :
    p.assign type set = some (p.written address (type.draft (set object))) := by
  rw [PointerParser.assign, h.cast]
  rfl

theorem Points.written {draft : Draft} (h : p.Points address draft) (draft' : Draft) :
    (p.written address draft').Points address draft' where
  current := h.current
  stored := by
    have hlt := (List.getElem?_eq_some_iff.mp h.stored).1
    exact List.getElem?_set_self (by exact hlt)

theorem Points.kept {draft : Draft} (h : p.Points address draft) (cell : Cell) {a : Addr} {d : Draft}
    (hpassed : p.Passed a d) : (p.memory.set address cell)[a]? = some ⟨d, true⟩ := by
  have hne : address ≠ a := by
    rintro rfl
    rw [Passed, h.stored] at hpassed
    cases hpassed
  rw [List.getElem?_set_ne hne]
  exact hpassed

theorem moves_assign {set : α → α} {k : PointerParser → Step} {state : ObjectParserState} {elements : Int32}
    (hp : p.Points address (type.draft object)) (hon : p.on e = p.assign type set >>= k)
    (hk : k (p.written address (type.draft (set object))) =
      some ({ p.written address (type.draft (set object)) with state, elements }, none))
    (hfilled : Filled state (type.draft (set object)))
    (htold : ObjectParser.on ⟨p.state, p.currentKey, p.elements, some (type.draft object).object, p.currentRequestId⟩ e =
      some (⟨state, p.currentKey, elements, some (type.draft (set object)).object, p.currentRequestId⟩, none)) :
    ∃ p' call, p.Moves e p' call := by
  have hwritten := hp.written (type.draft (set object))
  have hpoints : PointerParser.Points { p.written address (type.draft (set object)) with state, elements } address
      (type.draft (set object)) := ⟨hwritten.current, hwritten.stored⟩
  refine ⟨_, none, ?_, .filling hpoints hfilled, fun a d h => hp.kept _ h, nofun, ?_⟩
  · rw [hon, hp.assign]
    exact hk
  · rw [hp.forget, htold, hpoints.forget]
    rfl

theorem moves_pass {set : α → α} {k : PointerParser → Step} {elements : Int32} {wrapper : Wrapper}
    (hp : p.Points address (type.draft object)) (hon : p.on e = p.assign type set >>= k)
    (hk : k (p.written address (type.draft (set object))) =
      { p.written address (type.draft (set object)) with elements }.pass type)
    (hmessage : type.message p.currentRequestId (set object) = some wrapper)
    (htold : ObjectParser.on ⟨p.state, p.currentKey, p.elements, some (type.draft object).object, p.currentRequestId⟩ e =
      some (⟨.init, p.currentKey, elements, some (type.draft (set object)).object, p.currentRequestId⟩,
        some (.message wrapper))) :
    ∃ p' call, p.Moves e p' call := by
  have hwritten := hp.written (type.draft (set object))
  have hpoints : PointerParser.Points { p.written address (type.draft (set object)) with elements } address
      (type.draft (set object)) := ⟨hwritten.current, hwritten.stored⟩
  let p' : PointerParser :=
    { p.written address (type.draft (set object)) with
      elements
      memory := (p.written address (type.draft (set object))).memory.set address ⟨type.draft (set object), true⟩
      state := .init }
  have hpass : p.on e = some (p', some (.object address wrapper)) := by
    rw [hon, hp.assign]
    show k (p.written address (type.draft (set object))) = _
    rw [hk, PointerParser.pass, hpoints.cast]
    show (type.message p.currentRequestId (set object) >>= _) = _
    rw [hmessage]
    rfl
  have hnow : p'.memory[address]? = some ⟨type.draft (set object), true⟩ := by
    have hlt := (List.getElem?_eq_some_iff.mp hwritten.stored).1
    exact List.getElem?_set_self (by exact hlt)
  refine ⟨p', _, hpass, .idle .init, fun a d h => ?_, fun a w h => ?_, ?_⟩
  · exact hwritten.kept _ (hp.kept _ h)
  · cases h
    refine ⟨fun d h => ?_, _, hnow, type.complete _ _ _ hmessage⟩
    rw [Passed, hp.stored] at h
    cases h
  · have hforget : p'.forget =
        ⟨.init, p.currentKey, elements, some (type.draft (set object)).object, p.currentRequestId⟩ := by
      rw [PointerParser.forget, show p'.currentObject = some address from hp.current, Option.bind_some, hnow]
      rfl
    rw [hp.forget, htold, hforget]
    rfl

end

theorem moves_sized {size expected : Int32} {state : ObjectParserState} {error : String} (hs : p.Sound)
    (hs' : PointerParser.Sound { p with state }) (hon : p.on (.array size) = p.sized size expected state error)
    (htold : p.forget.on (.array size) = p.forget.sized size expected state error) :
    ∃ p' call, p.Moves (.array size) p' call := by
  by_cases hsize : size = expected
  · rw [sized, if_pos hsize] at hon
    rw [ObjectParser.sized, if_pos hsize] at htold
    exact moves_quiet hon htold hs' rfl
  · rw [sized, if_neg hsize] at hon
    rw [ObjectParser.sized, if_neg hsize] at htold
    exact moves_error hs hon htold

theorem moves_empty {size : Int32} {response : Response} {error : String} (hs : p.Sound)
    (hon : p.on (.map size) = if size = 0 then p.callEmpty response else p.onError error)
    (htold : p.forget.on (.map size) = if size = 0 then p.forget.callResponse response else p.forget.onError error) :
    ∃ p' call, p.Moves (.map size) p' call := by
  by_cases hsize : size = 0
  · rw [if_pos hsize] at hon htold
    exact moves_plain hon htold (.idle .init) rfl
  · rw [if_neg hsize] at hon htold
    exact moves_error hs hon htold

theorem Sound.moves_idle (hs : p.Sound) (hidle : Idle p.state) (e : CborEvent) : ∃ p' call, p.Moves e p' call := by
  obtain ⟨state, currentKey, elements, currentObject, currentRequestId, memory⟩ := p
  cases hidle with
  | init =>
    cases e with
    | tag tag =>
      by_cases h₁ : tag = 1000
      · subst h₁
        exact moves_quiet rfl rfl (.idle .requestWrapperArray) rfl
      by_cases h₂ : tag = 2000
      · subst h₂
        exact moves_quiet rfl rfl (.idle .responseWrapperArray) rfl
      · exact moves_error hs ((if_neg h₁).trans (if_neg h₂)) ((if_neg h₁).trans (if_neg h₂))
    | _ => exact moves_error hs rfl rfl
  | requestWrapperArray =>
    cases e with
    | array size => exact moves_sized hs (.idle .requestWrapperId) rfl rfl
    | _ => exact moves_error hs rfl rfl
  | requestWrapperId =>
    cases e with
    | integer value => exact moves_quiet rfl rfl (.idle .requestWrapperBody) rfl
    | _ => exact moves_error hs rfl rfl
  | requestWrapperBody =>
    cases e with
    | tag tag =>
      by_cases h₁ : tag = 1100
      · subst h₁
        exact moves_new .requestGetArray rfl rfl
      by_cases h₂ : tag = tagRequestAdd
      · subst h₂
        exact moves_new .requestAddArray rfl rfl
      by_cases h₃ : tag = tagRequestAddContinue
      · subst h₃
        exact moves_new .requestAddContinueArray rfl rfl
      · exact moves_error hs ((if_neg h₁).trans ((if_neg h₂).trans (if_neg h₃)))
          ((if_neg h₁).trans ((if_neg h₂).trans (if_neg h₃)))
    | _ => exact moves_error hs rfl rfl
  | responseWrapperArray =>
    cases e with
    | array size => exact moves_sized hs (.idle .responseWrapperId) rfl rfl
    | _ => exact moves_error hs rfl rfl
  | responseWrapperId =>
    cases e with
    | integer value => exact moves_quiet rfl rfl (.idle .responseWrapperBody) rfl
    | _ => exact moves_error hs rfl rfl
  | responseWrapperBody =>
    cases e with
    | tag tag =>
      by_cases h₁ : tag = 2101
      · subst h₁
        exact moves_quiet rfl rfl (.idle .responseGetEmptyMap) rfl
      by_cases h₂ : tag = 2100
      · subst h₂
        exact moves_quiet rfl rfl (.idle .responseGetOkMap) rfl
      by_cases h₃ : tag = tagResponseAddOk
      · subst h₃
        exact moves_quiet rfl rfl (.idle .responseAddOkMap) rfl
      by_cases h₄ : tag = tagResponseAddTraverse
      · subst h₄
        exact moves_new .responseAddTraverseArray rfl rfl
      · exact moves_error hs ((if_neg h₁).trans ((if_neg h₂).trans ((if_neg h₃).trans (if_neg h₄))))
          ((if_neg h₁).trans ((if_neg h₂).trans ((if_neg h₃).trans (if_neg h₄))))
    | _ => exact moves_error hs rfl rfl
  | responseGetEmptyMap =>
    cases e with
    | map size => exact moves_empty hs rfl rfl
    | _ => exact moves_error hs rfl rfl
  | responseGetOkMap =>
    cases e with
    | map size => exact moves_new (.responseGetOkMapKey {}) rfl rfl
    | _ => exact moves_error hs rfl rfl
  | responseAddOkMap =>
    cases e with
    | map size => exact moves_empty hs rfl rfl
    | _ => exact moves_error hs rfl rfl

theorem Sound.moves_filling {address : Addr} {draft : Draft} (hp : p.Points address draft) (hfilled : Filled p.state draft)
    (e : CborEvent) : ∃ p' call, p.Moves e p' call := by
  have hs := Sound.filling hp hfilled
  obtain ⟨state, currentKey, elements, currentObject, currentRequestId, memory⟩ := p
  obtain ⟨hcurrent, hstored⟩ := hp
  have hp : ∀ state currentKey elements,
      PointerParser.Points ⟨state, currentKey, elements, currentObject, currentRequestId, memory⟩ address draft :=
    fun _ _ _ => ⟨hcurrent, hstored⟩
  cases hfilled with
  | requestGetArray =>
    cases e with
    | array size => exact moves_sized hs (.filling (hp _ _ _) .requestGetDatabase) rfl rfl
    | _ => exact moves_error hs rfl rfl
  | requestGetDatabase =>
    cases e with
    | string str => exact moves_assign .requestGet (hp _ _ _) rfl rfl (.requestGetTable str) rfl
    | _ => exact moves_error hs rfl rfl
  | requestGetTable database =>
    cases e with
    | string str => exact moves_assign .requestGet (hp _ _ _) rfl rfl (.requestGetPk database str) rfl
    | _ => exact moves_error hs rfl rfl
  | requestGetPk database table =>
    cases e with
    | integer value => exact moves_pass .requestGet (hp _ _ _) rfl rfl rfl rfl
    | _ => exact moves_error hs rfl rfl
  | requestAddArray =>
    cases e with
    | array size => exact moves_sized hs (.filling (hp _ _ _) .requestAddDatabase) rfl rfl
    | _ => exact moves_error hs rfl rfl
  | requestAddDatabase =>
    cases e with
    | string str => exact moves_assign .requestAdd (hp _ _ _) rfl rfl (.requestAddTable str) rfl
    | _ => exact moves_error hs rfl rfl
  | requestAddTable database =>
    cases e with
    | string str => exact moves_assign .requestAdd (hp _ _ _) rfl rfl (.requestAddRowMap database str) rfl
    | _ => exact moves_error hs rfl rfl
  | requestAddRowMap database table =>
    cases e with
    | map size => exact moves_quiet rfl rfl (.filling (hp _ _ _) (.requestAddRowMapKey database table ∅)) rfl
    | _ => exact moves_error hs rfl rfl
  | requestAddRowMapKey database table row =>
    cases e with
    | string str => exact moves_quiet rfl rfl (.filling (hp _ _ _) (.requestAddRowMapValue database table row)) rfl
    | _ => exact moves_error hs rfl rfl
  | requestAddRowMapValue database table row =>
    cases e with
    | string str =>
      by_cases hz : elements - 1 = 0
      · exact moves_pass .requestAdd (hp _ _ _) rfl (if_pos hz) rfl (if_pos hz)
      · exact moves_assign .requestAdd (hp _ _ _) rfl (if_neg hz)
          (.requestAddRowMapKey database table (row.insert currentKey str)) (if_neg hz)
    | _ => exact moves_error hs rfl rfl
  | requestAddContinueArray =>
    cases e with
    | array size => exact moves_sized hs (.filling (hp _ _ _) .requestAddContinueInitRequestId) rfl rfl
    | _ => exact moves_error hs rfl rfl
  | requestAddContinueInitRequestId =>
    cases e with
    | integer value =>
      exact moves_assign .requestAddContinue (hp _ _ _) rfl rfl (.requestAddContinueCompareResult value.toUInt32) rfl
    | _ => exact moves_error hs rfl rfl
  | requestAddContinueCompareResult initRequestId =>
    cases e with
    | integer value => exact moves_pass .requestAddContinue (hp _ _ _) rfl rfl rfl rfl
    | _ => exact moves_error hs rfl rfl
  | responseGetOkMapKey response =>
    cases e with
    | string str => exact moves_quiet rfl rfl (.filling (hp _ _ _) (.responseGetOkMapValue response)) rfl
    | _ => exact moves_error hs rfl rfl
  | responseGetOkMapValue response =>
    cases e with
    | string str =>
      by_cases hz : elements - 1 = 0
      · exact moves_pass .responseGetOk (hp _ _ _) rfl (if_pos hz) rfl (if_pos hz)
      · exact moves_assign .responseGetOk (hp _ _ _) rfl (if_neg hz)
          (.responseGetOkMapKey { values := response.values.insert currentKey str }) (if_neg hz)
    | _ => exact moves_error hs rfl rfl
  | responseAddTraverseArray =>
    cases e with
    | array size => exact moves_sized hs (.filling (hp _ _ _) .responseAddTraverseInitRequestId) rfl rfl
    | _ => exact moves_error hs rfl rfl
  | responseAddTraverseInitRequestId =>
    cases e with
    | integer value =>
      exact moves_assign .responseAddTraverse (hp _ _ _) rfl rfl (.responseAddTraverseCiphertext value.toUInt32) rfl
    | _ => exact moves_error hs rfl rfl
  | responseAddTraverseCiphertext initRequestId =>
    cases e with
    | bytes data => exact moves_pass .responseAddTraverse (hp _ _ _) rfl rfl rfl rfl
    | _ => exact moves_error hs rfl rfl

/-- **From a sound state every event has a result.** -/
theorem Sound.moves (hs : p.Sound) (e : CborEvent) : ∃ p' call, p.Moves e p' call := by
  cases hs with
  | idle hidle => exact (Sound.idle hidle).moves_idle hidle e
  | filling hp hfilled => exact moves_filling hp hfilled e

end

/-! ## Runs -/

/-- What a sequence of events does: all it passes was not passed before, is
passed once, and is complete. -/
structure Runs (p : PointerParser) (events : List CborEvent) (p' : PointerParser) (calls : List PointerCall) : Prop where
  feeds : feed on p events = some (p', calls)
  kept : ∀ address draft, p.Passed address draft → p'.Passed address draft
  once : (calls.filterMap PointerCall.address?).Nodup
  passes : ∀ address wrapper, .object address wrapper ∈ calls →
    (∀ draft, ¬ p.Passed address draft) ∧ ∃ draft, p'.Passed address draft ∧ draft.Complete wrapper
  told : feed ObjectParser.on p.forget events = some (p'.forget, calls.map PointerCall.told)

theorem mem_address {calls : List PointerCall} {address : Addr} (h : address ∈ calls.filterMap PointerCall.address?) :
    ∃ wrapper, .object address wrapper ∈ calls := by
  obtain ⟨call, hcall, haddress⟩ := List.mem_filterMap.mp h
  cases call with
  | object a wrapper =>
    cases haddress
    exact ⟨wrapper, hcall⟩
  | plain call => cases haddress

theorem Moves.runs {p p₁ p' : PointerParser} {e : CborEvent} {events : List CborEvent} {call : Option PointerCall}
    {calls : List PointerCall} (h : p.Moves e p₁ call) (hr : p₁.Runs events p' calls) :
    p.Runs (e :: events) p' (call.toList ++ calls) where
  feeds := feed_cons h.on hr.feeds
  kept address draft hp := hr.kept address draft (h.kept address draft hp)
  once := by
    cases call with
    | none => exact hr.once
    | some call =>
      cases call with
      | plain call => exact hr.once
      | object address wrapper =>
        refine List.nodup_cons.mpr ⟨fun hmem => ?_, hr.once⟩
        obtain ⟨wrapper', hmem⟩ := mem_address hmem
        obtain ⟨-, draft, hpassed, -⟩ := h.passes address wrapper rfl
        exact (hr.passes address wrapper' hmem).1 draft hpassed
  passes address wrapper hmem := by
    rcases List.mem_append.mp hmem with hmem | hmem
    · obtain ⟨hnot, draft, hpassed, hcomplete⟩ := h.passes address wrapper (Option.mem_toList.mp hmem)
      exact ⟨hnot, draft, hr.kept address draft hpassed, hcomplete⟩
    · obtain ⟨hnot, hpassed⟩ := hr.passes address wrapper hmem
      exact ⟨fun draft hp => hnot draft (h.kept address draft hp), hpassed⟩
  told := by
    have htold := feed_cons h.told hr.told
    rw [htold]
    cases call <;> rfl

theorem Sound.runs {p : PointerParser} (hs : p.Sound) (events : List CborEvent) :
    ∃ p' calls, p.Runs events p' calls := by
  induction events generalizing p with
  | nil => exact ⟨p, [], rfl, fun _ _ h => h, List.nodup_nil, nofun, rfl⟩
  | cons e events ih =>
    obtain ⟨p₁, call, hmoves⟩ := hs.moves e
    obtain ⟨p', calls, hruns⟩ := ih hmoves.sound
    exact ⟨p', _, hmoves.runs hruns⟩

/-- **Objects are handed over complete, once, and by their type.** From any
memory every sequence of events has a result: nothing is cast to what it is
not, or after it was passed. What is passed was not passed before, is passed
once, and has every field assigned; and the calls are those of the parser
that keeps its object by itself. -/
theorem objects_handed_over (p : PointerParser) (events : List CborEvent) :
    ∃ p' calls, feed on { p with state := .init } events = some (p', calls) ∧
      (calls.filterMap PointerCall.address?).Nodup ∧
      (∀ address wrapper, .object address wrapper ∈ calls →
        (∀ draft, ¬ p.Passed address draft) ∧ ∃ draft, p'.Passed address draft ∧ draft.Complete wrapper) ∧
      feed ObjectParser.on { p.forget with state := .init } events = some (p'.forget, calls.map PointerCall.told) := by
  have hs : PointerParser.Sound { p with state := .init } := .idle .init
  obtain ⟨p', calls, hruns⟩ := hs.runs events
  exact ⟨p', calls, hruns.feeds, hruns.once, hruns.passes, hruns.told⟩

end PointerParser

end Zql
