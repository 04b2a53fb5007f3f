/-
What a parser was left with has no say in what it does next. Its
constructor and that of its reader set next to nothing, `Run` sets the
parser's state alone, and an earlier message may have stopped in any state
with half an object; but a member is set by the message at hand in every
state that comes before one that reads it.

Two runs over the same bytes are compared a pass at a time. They stay in the
same states, and agree on the members which the state says are set (`Agree`).
-/
import Zql.Reading
import Zql.ObjectParser
import Zql.Lib.Scan

namespace Zql

open Looping Scanning

/-! ## The reader -/

namespace CborReader

/-- Two readers at the same place. Where a length is read, it was read from
the input. -/
structure Agree (r r' : CborReader) : Prop where
  input : r.input = r'.input
  state : r.state = r'.state
  currentLength : r.state ≠ .type → r.currentLength = r'.currentLength

theorem Agree.refl (r : CborReader) : r.Agree r := ⟨rfl, rfl, fun _ => rfl⟩

theorem Agree.eq {r r' : CborReader} (h : r.Agree r') (hs : r.state ≠ .type) : r = r' := by
  obtain ⟨input, state, currentLength⟩ := r
  obtain ⟨input', state', currentLength'⟩ := r'
  obtain ⟨rfl, rfl, hlength⟩ := h
  obtain rfl := hlength hs
  rfl

/-- The reader after the pass, and the call it made. -/
def Alike (s s' : CborReader × Option CborEvent) : Prop := s.1.Agree s'.1 ∧ s.2 = s'.2

abbrev Pass.Alike : Pass → Pass → Prop := Turn.Rel CborReader.Alike Eq

theorem Pass.Alike.refl (p : Pass) : p.Alike p := by
  cases p with
  | again s => exact .again ⟨.refl _, rfl⟩
  | leave e => exact .leave rfl

theorem reading_alike {α : Type} {read : Option (α × CborInput)} {next next' : α → CborInput → Pass}
    (h : ∀ value input, (next value input).Alike (next' value input)) :
    (reading read next).Alike (reading read next') := by
  cases read with
  | none => exact .leave rfl
  | some s => exact h s.1 s.2

theorem header_alike {r r' : CborReader} (h : r.Agree r') (minorType : UInt8)
    {small small' : CborReader × Option CborEvent} (hsmall : Alike small small') (state : CborReaderState)
    (error : String) : (r.header minorType small state error).Alike (r'.header minorType small' state error) := by
  have hlong : ∀ n : Int32, Alike ({ r with currentLength := n, state }, none) ({ r' with currentLength := n, state }, none) :=
    fun n => ⟨⟨h.input, rfl, fun _ => rfl⟩, rfl⟩
  unfold header
  split
  · exact .again hsmall
  split
  · exact .again (hlong 1)
  split
  · exact .again (hlong 2)
  split
  · exact .again (hlong 4)
  split
  · exact .again (hlong 8)
  · exact .again ⟨h, rfl⟩

/-- **A header is read without a length**, and leaves one where one is read
next. -/
theorem type_alike {r r' : CborReader} (h : r.Agree r') : r.type.Alike r'.type := by
  have hcall : ∀ input event, Alike ({ r with input }, some event) ({ r' with input }, some event) :=
    fun input event => ⟨⟨rfl, h.state, h.currentLength⟩, rfl⟩
  have hnext : ∀ input, Agree { r with input } { r' with input } := fun input => ⟨rfl, h.state, h.currentLength⟩
  have hdata : ∀ input (state : CborReaderState) (n : Int32),
      Alike ({ r with input, state, currentLength := n }, none) ({ r' with input, state, currentLength := n }, none) :=
    fun input state n => ⟨⟨rfl, rfl, fun _ => rfl⟩, rfl⟩
  unfold type
  rw [← h.input]
  split
  · refine reading_alike fun type input => ?_
    dsimp only
    split
    · exact header_alike (hnext input) _ (hcall input _) _ _
    · exact header_alike (hnext input) _ (hcall input _) _ _
    · exact header_alike (hnext input) _ (hdata input _ _) _ _
    · exact header_alike (hnext input) _ (hdata input _ _) _ _
    · exact header_alike (hnext input) _ (hcall input _) _ _
    · exact header_alike (hnext input) _ (hcall input _) _ _
    · exact header_alike (hnext input) _ (hcall input _) _ _
    · exact header_alike (hnext input) _ (hcall input _) _ _
    · exact .again ⟨hnext input, rfl⟩
  · exact .leave rfl

/-- **A pass of readers that agree** makes the same call, and they agree
after it. -/
theorem pass_alike {r r' : CborReader} (h : r.Agree r') : r.pass.Alike r'.pass := by
  by_cases hs : r.state = .type
  · have hs' : r'.state = .type := h.state ▸ hs
    simp only [pass, hs, hs']
    exact type_alike h
  · obtain rfl := h.eq hs
    exact .refl _

end CborReader

/-! ## The parser -/

namespace ObjectParserState

/-- The message's id has been read. -/
def hasRequestId : ObjectParserState → Bool
  | .init | .requestWrapperArray | .requestWrapperId | .responseWrapperArray | .responseWrapperId => false
  | _ => true

/-- There is an object for the message's body. -/
def hasObject : ObjectParserState → Bool
  | .requestWrapperBody | .responseWrapperBody | .responseGetEmptyMap | .responseGetOkMap | .responseAddOkMap => false
  | state => state.hasRequestId

/-- The size of a map has been read. -/
def hasElements : ObjectParserState → Bool
  | .responseGetOkMapKey | .responseGetOkMapValue | .requestAddRowMapKey | .requestAddRowMapValue => true
  | _ => false

/-- A key has been read. -/
def hasKey : ObjectParserState → Bool
  | .responseGetOkMapValue | .requestAddRowMapValue => true
  | _ => false

end ObjectParserState

namespace ObjectParser

/-- Two parsers at the same place in a message, which agree on what they have
of it. -/
structure Agree (p p' : ObjectParser) : Prop where
  state : p.state = p'.state
  currentRequestId : p.state.hasRequestId → p.currentRequestId = p'.currentRequestId
  currentObject : p.state.hasObject → p.currentObject = p'.currentObject
  elements : p.state.hasElements → p.elements = p'.elements
  currentKey : p.state.hasKey → p.currentKey = p'.currentKey

/-- The parser after a call of the reader's, and the call it made. -/
def Alike (s s' : ObjectParser × Option ObjectCall) : Prop := s.1.Agree s'.1 ∧ s.2 = s'.2

abbrev Step.Alike : Step → Step → Prop := Option.Rel ObjectParser.Alike

theorem goTo_alike {p p' : ObjectParser} {state : ObjectParserState}
    (hid : state.hasRequestId → p.currentRequestId = p'.currentRequestId)
    (hobject : state.hasObject → p.currentObject = p'.currentObject)
    (helements : state.hasElements → p.elements = p'.elements) (hkey : state.hasKey → p.currentKey = p'.currentKey) :
    (p.goTo state).Alike (p'.goTo state) :=
  .some ⟨⟨rfl, hid, hobject, helements, hkey⟩, rfl⟩

theorem onError_alike {p p' : ObjectParser} (h : p.Agree p') (error : String) :
    (p.onError error).Alike (p'.onError error) := .some ⟨h, rfl⟩

/-- Nothing is kept of a message that is complete, but it is called with its
id. -/
theorem callRequest_alike {p p' : ObjectParser} (hid : p.currentRequestId = p'.currentRequestId) (request : Request) :
    (p.callRequest request).Alike (p'.callRequest request) :=
  .some ⟨⟨rfl, nofun, nofun, nofun, nofun⟩, by rw [hid]⟩

theorem callResponse_alike {p p' : ObjectParser} (hid : p.currentRequestId = p'.currentRequestId) (response : Response) :
    (p.callResponse response).Alike (p'.callResponse response) :=
  .some ⟨⟨rfl, nofun, nofun, nofun, nofun⟩, by rw [hid]⟩

theorem onInteger_alike {p p' : ObjectParser} (h : p.Agree p') (value : Int32) :
    (p.onInteger value).Alike (p'.onInteger value) := by
  obtain ⟨hstate, hid, hobject, -, -⟩ := id h
  unfold onInteger
  rw [← hstate]
  split
  · exact goTo_alike (fun _ => rfl) nofun nofun nofun
  · next hs =>
    rw [hs] at hid hobject
    rw [← hobject rfl]
    split
    · refine callRequest_alike ?_ _
      exact hid rfl
    · exact .none
  · exact goTo_alike (fun _ => rfl) nofun nofun nofun
  · next hs =>
    rw [hs] at hid hobject
    rw [← hobject rfl]
    split
    · exact goTo_alike hid (fun _ => rfl) nofun nofun
    · exact .none
  · next hs =>
    rw [hs] at hid hobject
    rw [← hobject rfl]
    split
    · exact goTo_alike hid (fun _ => rfl) nofun nofun
    · exact .none
  · next hs =>
    rw [hs] at hid hobject
    rw [← hobject rfl]
    split
    · refine callRequest_alike ?_ _
      exact hid rfl
    · exact .none
  · exact onError_alike h _

theorem onBytes_alike {p p' : ObjectParser} (h : p.Agree p') (data : List UInt8) :
    (p.onBytes data).Alike (p'.onBytes data) := by
  obtain ⟨hstate, hid, hobject, -, -⟩ := id h
  unfold onBytes
  rw [← hstate]
  split
  · next hs =>
    rw [hs] at hid hobject
    rw [← hobject rfl]
    split
    · refine callResponse_alike ?_ _
      exact hid rfl
    · exact .none
  · exact onError_alike h _

theorem onString_alike {p p' : ObjectParser} (h : p.Agree p') (str : Str) :
    (p.onString str).Alike (p'.onString str) := by
  obtain ⟨hstate, hid, hobject, helements, hkey⟩ := id h
  unfold onString
  rw [← hstate]
  split
  · next hs =>
    rw [hs] at hid hobject
    rw [← hobject rfl]
    split
    · exact goTo_alike hid (fun _ => rfl) nofun nofun
    · exact .none
  · next hs =>
    rw [hs] at hid hobject
    rw [← hobject rfl]
    split
    · exact goTo_alike hid (fun _ => rfl) nofun nofun
    · exact .none
  · next hs =>
    rw [hs] at hid hobject helements
    exact goTo_alike hid hobject helements (fun _ => rfl)
  · next hs =>
    rw [hs] at hid hobject helements hkey
    rw [← hobject rfl, ← helements rfl, ← hkey rfl]
    split
    · dsimp only
      split
      · refine callResponse_alike ?_ _
        exact hid rfl
      · exact goTo_alike hid (fun _ => rfl) (fun _ => rfl) nofun
    · exact .none
  · next hs =>
    rw [hs] at hid hobject
    rw [← hobject rfl]
    split
    · exact goTo_alike hid (fun _ => rfl) nofun nofun
    · exact .none
  · next hs =>
    rw [hs] at hid hobject
    rw [← hobject rfl]
    split
    · exact goTo_alike hid (fun _ => rfl) nofun nofun
    · exact .none
  · next hs =>
    rw [hs] at hid hobject helements
    exact goTo_alike hid hobject helements (fun _ => rfl)
  · next hs =>
    rw [hs] at hid hobject helements hkey
    rw [← hobject rfl, ← helements rfl, ← hkey rfl]
    split
    · dsimp only
      split
      · refine callRequest_alike ?_ _
        exact hid rfl
      · exact goTo_alike hid (fun _ => rfl) (fun _ => rfl) nofun
    · exact .none
  · exact onError_alike h _

theorem sized_alike {p p' : ObjectParser} (h : p.Agree p') {state : ObjectParserState}
    (hgoTo : (p.goTo state).Alike (p'.goTo state)) (size expected : Int32) (error : String) :
    (p.sized size expected state error).Alike (p'.sized size expected state error) := by
  unfold sized
  split
  · exact hgoTo
  · exact onError_alike h error

theorem onArray_alike {p p' : ObjectParser} (h : p.Agree p') (size : Int32) :
    (p.onArray size).Alike (p'.onArray size) := by
  obtain ⟨hstate, hid, hobject, -, -⟩ := id h
  unfold onArray
  rw [← hstate]
  split
  · refine sized_alike h ?_ _ _ _
    exact goTo_alike nofun nofun nofun nofun
  · next hs =>
    rw [hs] at hid hobject
    refine sized_alike h ?_ _ _ _
    exact goTo_alike hid hobject nofun nofun
  · refine sized_alike h ?_ _ _ _
    exact goTo_alike nofun nofun nofun nofun
  · next hs =>
    rw [hs] at hid hobject
    refine sized_alike h ?_ _ _ _
    exact goTo_alike hid hobject nofun nofun
  · next hs =>
    rw [hs] at hid hobject
    refine sized_alike h ?_ _ _ _
    exact goTo_alike hid hobject nofun nofun
  · next hs =>
    rw [hs] at hid hobject
    refine sized_alike h ?_ _ _ _
    exact goTo_alike hid hobject nofun nofun
  · exact onError_alike h _

theorem onMap_alike {p p' : ObjectParser} (h : p.Agree p') (size : Int32) :
    (p.onMap size).Alike (p'.onMap size) := by
  obtain ⟨hstate, hid, hobject, -, -⟩ := id h
  unfold onMap
  rw [← hstate]
  split
  · next hs =>
    rw [hs] at hid
    split
    · exact callResponse_alike (hid rfl) _
    · exact onError_alike h _
  · next hs =>
    rw [hs] at hid
    exact goTo_alike hid (fun _ => rfl) (fun _ => rfl) nofun
  · next hs =>
    rw [hs] at hid hobject
    exact goTo_alike hid hobject (fun _ => rfl) nofun
  · next hs =>
    rw [hs] at hid
    split
    · exact callResponse_alike (hid rfl) _
    · exact onError_alike h _
  · exact onError_alike h _

theorem onTag_alike {p p' : ObjectParser} (h : p.Agree p') (tag : UInt32) :
    (p.onTag tag).Alike (p'.onTag tag) := by
  obtain ⟨hstate, hid, -, -, -⟩ := id h
  unfold onTag
  rw [← hstate]
  split
  · split
    · exact goTo_alike nofun nofun nofun nofun
    split
    · exact goTo_alike nofun nofun nofun nofun
    · exact onError_alike h _
  · next hs =>
    rw [hs] at hid
    split
    · exact goTo_alike hid (fun _ => rfl) nofun nofun
    split
    · exact goTo_alike hid (fun _ => rfl) nofun nofun
    split
    · exact goTo_alike hid (fun _ => rfl) nofun nofun
    · exact onError_alike h _
  · next hs =>
    rw [hs] at hid
    split
    · exact goTo_alike hid nofun nofun nofun
    split
    · exact goTo_alike hid nofun nofun nofun
    split
    · exact goTo_alike hid nofun nofun nofun
    split
    · exact goTo_alike hid (fun _ => rfl) nofun nofun
    · exact onError_alike h _
  · exact onError_alike h _

/-- **A call of parsers that agree** makes the same call, and they agree
after it. -/
theorem on_alike {p p' : ObjectParser} (h : p.Agree p') (event : CborEvent) : (p.on event).Alike (p'.on event) := by
  cases event with
  | integer value => exact onInteger_alike h value
  | bytes data => exact onBytes_alike h data
  | string str => exact onString_alike h str
  | array size => exact onArray_alike h size
  | map size => exact onMap_alike h size
  | tag tag => exact onTag_alike h tag
  | special code => exact onError_alike h _
  | error error => exact onError_alike h error

theorem feed_alike {p p' q : ObjectParser} (h : p.Agree p') {events : List CborEvent} {calls : List ObjectCall}
    (hfeed : feed on p events = some (q, calls)) : ∃ q', feed on p' events = some (q', calls) := by
  induction events generalizing p p' calls with
  | nil =>
    cases hfeed
    exact ⟨p', rfl⟩
  | cons event events ih =>
    have hstep := on_alike h event
    simp only [feed] at hfeed
    generalize hon : p.on event = step at hstep hfeed
    generalize hon' : p'.on event = step' at hstep
    cases hstep with
    | none => cases hfeed
    | @some t t' ht =>
      obtain ⟨p₁, call⟩ := t
      obtain ⟨p₁', call'⟩ := t'
      obtain ⟨hp, rfl⟩ := ht
      obtain ⟨⟨q, rest⟩, hrest, heq⟩ := Option.map_eq_some_iff.mp hfeed
      cases heq
      obtain ⟨q', hfeed'⟩ := ih hp hrest
      exact ⟨q', feed_cons hon' hfeed'⟩

/-! ## Runs -/

/-- `run` with a reader whose `currentLength` is what it happens to be. -/
def runFrom {L E : Type*} (currentLength : Int32) (call : L → ObjectCall → Except E L) (fuel : Nat) (p : ObjectParser)
    (data : List UInt8) (x : L) : Option (Except (Failure E) (CborEnd × ObjectParser × L)) :=
  CborReader.run (listen call) fuel { input := .new data, state := .type, currentLength } ({ p with state := .init }, x)

/-- What is seen of a run: how it ended, and what its listener was left with. -/
def seen {L E : Type*} (result : Except (Failure E) (CborEnd × ObjectParser × L)) : Except (Failure E) (CborEnd × L) :=
  result.map fun s => (s.1, s.2.2)

/-- Two runs at the same place, with listeners left with what looks the same. -/
structure Beside {L L' γ : Type*} (f : L → γ) (f' : L' → γ) (s : CborReader × ObjectParser × L)
    (s' : CborReader × ObjectParser × L') : Prop where
  reader : s.1.Agree s'.1
  parser : s.2.1.Agree s'.2.1
  listener : f s.2.2 = f' s'.2.2

section Listeners

variable {L L' E γ : Type*} {call : L → ObjectCall → Except E L} {call' : L' → ObjectCall → Except E L'} {f : L → γ}
  {f' : L' → γ}

/-- **A pass of two runs** does the same in both, if their listeners do. -/
theorem body_alike (hcall : ∀ x x' c, f x = f' x' → (call x c).map f = (call' x' c).map f')
    {s : CborReader × ObjectParser × L} {s' : CborReader × ObjectParser × L'} (h : Beside f f' s s') :
    Turn.Rel (Beside f f')
      (fun result result' => (seen result).map (Prod.map id f) = (seen result').map (Prod.map id f'))
      (CborReader.body (listen call) s) (CborReader.body (listen call') s') := by
  obtain ⟨r, p, x⟩ := s
  obtain ⟨r', p', x'⟩ := s'
  obtain ⟨hreader, hparser, hlistener⟩ := h
  have hpass := CborReader.pass_alike hreader
  simp only [CborReader.body]
  generalize r.pass = turn at hpass
  generalize r'.pass = turn' at hpass
  cases hpass with
  | @leave e e' he =>
    cases he
    exact .leave (congrArg (fun y => Except.ok (e, y)) hlistener)
  | @again s s' hs =>
    obtain ⟨r₁, event⟩ := s
    obtain ⟨r₁', event'⟩ := s'
    obtain ⟨hr, rfl⟩ := hs
    cases event with
    | none => exact .again ⟨hr, hparser, hlistener⟩
    | some event =>
      have hstep := on_alike hparser event
      simp only [listen]
      generalize p.on event = step at hstep
      generalize p'.on event = step' at hstep
      cases hstep with
      | none => exact .leave rfl
      | @some t t' ht =>
        obtain ⟨p₁, c⟩ := t
        obtain ⟨p₁', c'⟩ := t'
        obtain ⟨hp, rfl⟩ := ht
        cases c with
        | none => exact .again ⟨hr, hp, hlistener⟩
        | some c =>
          have hanswer := hcall x x' c hlistener
          dsimp only at hanswer ⊢
          generalize call x c = answer at hanswer
          generalize call' x' c = answer' at hanswer
          cases answer with
          | ok y =>
            cases answer' with
            | ok y' => exact .again ⟨hr, hp, Except.ok.inj hanswer⟩
            | error e' => cases hanswer
          | error e =>
            cases answer' with
            | ok y' => cases hanswer
            | error e' =>
              cases hanswer
              exact .leave rfl

/-- **Listeners that do alike** leave two parsers' runs over the same bytes
alike, whatever the parsers and their readers were left with. -/
theorem run_alike (hcall : ∀ x x' c, f x = f' x' → (call x c).map f = (call' x' c).map f') (fuel : Nat)
    (p p' : ObjectParser) (currentLength currentLength' : Int32) (data : List UInt8) {x : L} {x' : L'}
    (hx : f x = f' x') :
    (runFrom currentLength call fuel p data x).map (fun result => (seen result).map (Prod.map id f)) =
      (runFrom currentLength' call' fuel p' data x').map (fun result => (seen result).map (Prod.map id f')) := by
  have hstart : Beside f f'
      ({ input := .new data, state := .type, currentLength : CborReader }, { p with state := .init }, x)
      ({ input := .new data, state := .type, currentLength := currentLength' }, { p' with state := .init }, x') :=
    ⟨⟨rfl, rfl, fun h => absurd rfl h⟩, ⟨rfl, nofun, nofun, nofun, nofun⟩, hx⟩
  have hruns := loop_rel (fun _ _ => body_alike hcall) hstart fuel
  unfold runFrom CborReader.run
  generalize loop _ fuel (_, { p with state := .init }, x) = result at hruns ⊢
  generalize loop _ fuel (_, { p' with state := .init }, x') = result' at hruns ⊢
  cases hruns with
  | none => rfl
  | some h => exact congrArg some h

end Listeners

/-- **Parsing does not depend on what the parser or its reader was left
with**: whatever the two are, over the same bytes a listener is called the
same, whichever it is, and `Run` ends the same. -/
theorem run_independent {L E : Type*} (call : L → ObjectCall → Except E L) (fuel : Nat) (p p' : ObjectParser)
    (currentLength currentLength' : Int32) (data : List UInt8) (x : L) :
    (runFrom currentLength call fuel p data x).map seen = (runFrom currentLength' call fuel p' data x).map seen := by
  have hsame (result : Except (Failure E) (CborEnd × ObjectParser × L)) :
      (seen result).map (Prod.map id id) = seen result := by
    cases seen result <;> rfl
  have hruns : (runFrom currentLength call fuel p data x).map (fun result => (seen result).map (Prod.map id id)) =
      (runFrom currentLength' call fuel p' data x).map (fun result => (seen result).map (Prod.map id id)) :=
    run_alike (fun x x' c (h : x = x') => by rw [h]) fuel p p' currentLength currentLength' data rfl
  simpa only [hsame] using hruns

end ObjectParser

end Zql
