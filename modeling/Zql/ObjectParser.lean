/-
`ObjectParser`: the listener of a `CborReader` that puts messages together
from its calls, one state for each place in a message, and makes a call of
its own for each message it completes.

`currentObject` is a `void *`, cast by each state to what it takes it for.
It is the sum of what it may point to here, and a cast to what it does not
point to has no result.
-/
import Zql.Cbor

namespace Zql

inductive ObjectParserState
  | init
  | requestWrapperArray
  | requestWrapperId
  | requestWrapperBody
  | requestGetArray
  | requestGetDatabase
  | requestGetTable
  | requestGetPk
  | responseWrapperArray
  | responseWrapperId
  | responseWrapperBody
  | responseGetEmptyMap
  | responseGetOkMap
  | responseGetOkMapKey
  | responseGetOkMapValue
  | requestAddArray
  | requestAddDatabase
  | requestAddTable
  | requestAddRowMap
  | requestAddRowMapKey
  | requestAddRowMapValue
  | responseAddOkMap
  | responseAddTraverseArray
  | responseAddTraverseInitRequestId
  | responseAddTraverseCiphertext
  | requestAddContinueArray
  | requestAddContinueInitRequestId
  | requestAddContinueCompareResult
  deriving DecidableEq

inductive Wrapper
  | request (wrapper : RequestWrapper)
  | response (wrapper : ResponseWrapper)

/-- A call of an `ObjectListener`: of the method for the kind of the message
with its id and its body, or of `OnError`. -/
inductive ObjectCall
  | message (wrapper : Wrapper)
  | error (error : String)

inductive Object
  | requestGet (request : RequestGet)
  | requestAdd (request : RequestAdd)
  | requestAddContinue (request : RequestAddContinue)
  | responseGetOk (response : ResponseGetOk)
  | responseAddTraverse (response : ResponseAddTraverse)

structure ObjectParser where
  state : ObjectParserState
  currentKey : Str
  elements : Int32
  currentObject : Option Object
  currentRequestId : UInt32

/-- The constructor sets nothing. `Run` sets the state, and every other field
is set before it is read. -/
def ObjectParser.new : ObjectParser :=
  { state := .init, currentKey := [], elements := 0, currentObject := none, currentRequestId := 0 }

namespace ObjectParser

/-- The parser after a call of its listener's, and the call it makes. -/
abbrev Step := Option (ObjectParser × Option ObjectCall)

def goTo (p : ObjectParser) (state : ObjectParserState) : Step := some ({ p with state }, none)

def onError (p : ObjectParser) (error : String) : Step := some (p, some (.error error))

def callRequest (p : ObjectParser) (request : Request) : Step :=
  some ({ p with state := .init }, some (.message (.request ⟨p.currentRequestId, request⟩)))

def callResponse (p : ObjectParser) (response : Response) : Step :=
  some ({ p with state := .init }, some (.message (.response ⟨p.currentRequestId, response⟩)))

def onInteger (p : ObjectParser) (value : Int32) : Step :=
  match p.state with
  | .requestWrapperId => { p with currentRequestId := value.toUInt32 }.goTo .requestWrapperBody
  | .requestGetPk =>
    match p.currentObject with
    | some (.requestGet request) =>
      let request := { request with pk := value.toInt64.toUInt64 }
      { p with currentObject := some (.requestGet request) }.callRequest (.get request)
    | _ => none
  | .responseWrapperId => { p with currentRequestId := value.toUInt32 }.goTo .responseWrapperBody
  | .responseAddTraverseInitRequestId =>
    match p.currentObject with
    | some (.responseAddTraverse response) =>
      let response := { response with initRequestId := value.toUInt32 }
      { p with currentObject := some (.responseAddTraverse response) }.goTo .responseAddTraverseCiphertext
    | _ => none
  | .requestAddContinueInitRequestId =>
    match p.currentObject with
    | some (.requestAddContinue request) =>
      let request := { request with initRequestId := value.toUInt32 }
      { p with currentObject := some (.requestAddContinue request) }.goTo .requestAddContinueCompareResult
    | _ => none
  | .requestAddContinueCompareResult =>
    match p.currentObject with
    | some (.requestAddContinue request) =>
      let request := { request with compareResult := value }
      { p with currentObject := some (.requestAddContinue request) }.callRequest (.addContinue request)
    | _ => none
  | _ => p.onError "unknown integer"

def onBytes (p : ObjectParser) (data : List UInt8) : Step :=
  match p.state with
  | .responseAddTraverseCiphertext =>
    match p.currentObject with
    | some (.responseAddTraverse response) =>
      let response := { response with ciphertext := data }
      { p with currentObject := some (.responseAddTraverse response) }.callResponse (.addTraverse response)
    | _ => none
  | _ => p.onError "unknown bytes"

def onString (p : ObjectParser) (str : Str) : Step :=
  match p.state with
  | .requestGetDatabase =>
    match p.currentObject with
    | some (.requestGet request) =>
      { p with currentObject := some (.requestGet { request with database := str }) }.goTo .requestGetTable
    | _ => none
  | .requestGetTable =>
    match p.currentObject with
    | some (.requestGet request) =>
      { p with currentObject := some (.requestGet { request with table := str }) }.goTo .requestGetPk
    | _ => none
  | .responseGetOkMapKey => { p with currentKey := str }.goTo .responseGetOkMapValue
  | .responseGetOkMapValue =>
    match p.currentObject with
    | some (.responseGetOk response) =>
      let response := { response with values := response.values.insert p.currentKey str }
      let elements := p.elements - 1
      let p := { p with currentObject := some (.responseGetOk response), elements }
      if elements = 0 then p.callResponse (.getOk response) else p.goTo .responseGetOkMapKey
    | _ => none
  | .requestAddDatabase =>
    match p.currentObject with
    | some (.requestAdd request) =>
      { p with currentObject := some (.requestAdd { request with database := str }) }.goTo .requestAddTable
    | _ => none
  | .requestAddTable =>
    match p.currentObject with
    | some (.requestAdd request) =>
      { p with currentObject := some (.requestAdd { request with table := str }) }.goTo .requestAddRowMap
    | _ => none
  | .requestAddRowMapKey => { p with currentKey := str }.goTo .requestAddRowMapValue
  | .requestAddRowMapValue =>
    match p.currentObject with
    | some (.requestAdd request) =>
      let request := { request with row := request.row.insert p.currentKey str }
      let elements := p.elements - 1
      let p := { p with currentObject := some (.requestAdd request), elements }
      if elements = 0 then p.callRequest (.add request) else p.goTo .requestAddRowMapKey
    | _ => none
  | _ => p.onError "unknown string"

/-- An array that must have a size. -/
def sized (p : ObjectParser) (size expected : Int32) (state : ObjectParserState) (error : String) : Step :=
  if size = expected then p.goTo state else p.onError error

def onArray (p : ObjectParser) (size : Int32) : Step :=
  match p.state with
  | .requestWrapperArray => p.sized size 2 .requestWrapperId "unknown wrapper size"
  | .requestGetArray => p.sized size 3 .requestGetDatabase "unknown wrapper size"
  | .responseWrapperArray => p.sized size 2 .responseWrapperId "unknown wrapper size"
  | .requestAddArray => p.sized size 3 .requestAddDatabase "unknown wrapper size"
  | .responseAddTraverseArray => p.sized size 2 .responseAddTraverseInitRequestId "unknown array size"
  | .requestAddContinueArray => p.sized size 2 .requestAddContinueInitRequestId "unknown array size"
  | _ => p.onError "unknown array"

def onMap (p : ObjectParser) (size : Int32) : Step :=
  match p.state with
  | .responseGetEmptyMap => if size = 0 then p.callResponse .getEmpty else p.onError "invalid map size"
  | .responseGetOkMap =>
    { p with elements := size, currentObject := some (.responseGetOk {}) }.goTo .responseGetOkMapKey
  | .requestAddRowMap => { p with elements := size }.goTo .requestAddRowMapKey
  | .responseAddOkMap => if size = 0 then p.callResponse .addOk else p.onError "invalid map size"
  | _ => p.onError "invalid map"

def onTag (p : ObjectParser) (tag : UInt32) : Step :=
  match p.state with
  | .init =>
    if tag = 1000 then p.goTo .requestWrapperArray
    else if tag = 2000 then p.goTo .responseWrapperArray
    else p.onError "unknown tag"
  | .requestWrapperBody =>
    if tag = 1100 then { p with currentObject := some (.requestGet {}) }.goTo .requestGetArray
    else if tag = tagRequestAdd then { p with currentObject := some (.requestAdd {}) }.goTo .requestAddArray
    else if tag = tagRequestAddContinue then
      { p with currentObject := some (.requestAddContinue {}) }.goTo .requestAddContinueArray
    else p.onError "unknown tag"
  | .responseWrapperBody =>
    if tag = 2101 then p.goTo .responseGetEmptyMap
    else if tag = 2100 then p.goTo .responseGetOkMap
    else if tag = tagResponseAddOk then p.goTo .responseAddOkMap
    else if tag = tagResponseAddTraverse then
      { p with currentObject := some (.responseAddTraverse {}) }.goTo .responseAddTraverseArray
    else p.onError "unknown tag"
  | _ => p.onError "unknown tag"

def onSpecial (p : ObjectParser) (_code : Int32) : Step := p.onError "unknown special"

/-- The call of the reader, by its method. -/
def on (p : ObjectParser) : CborEvent → Step
  | .integer value => p.onInteger value
  | .bytes data => p.onBytes data
  | .string str => p.onString str
  | .array size => p.onArray size
  | .map size => p.onMap size
  | .tag tag => p.onTag tag
  | .special code => p.onSpecial code
  | .error error => p.onError error

/-- A run of the parser that goes wrong: in a cast, or in a call of its
listener. -/
inductive Failure (E : Type*)
  | badCast
  | listener (error : E)

/-- The parser as a listener, with a listener of its own. -/
def listen {L E : Type*} (call : L → ObjectCall → Except E L) (s : ObjectParser × L) (event : CborEvent) :
    Except (Failure E) (ObjectParser × L) :=
  match s.1.on event with
  | none => .error .badCast
  | some (p, none) => .ok (p, s.2)
  | some (p, some c) =>
    match call s.2 c with
    | .ok x => .ok (p, x)
    | .error e => .error (.listener e)

/-- `Run` over a whole message, for at most so many passes of the reader. -/
def run {L E : Type*} (call : L → ObjectCall → Except E L) (fuel : Nat) (p : ObjectParser) (data : List UInt8) (x : L) :
    Option (Except (Failure E) (CborEnd × ObjectParser × L)) :=
  CborReader.run (listen call) fuel (.new (.new data)) ({ p with state := .init }, x)

end ObjectParser

end Zql
