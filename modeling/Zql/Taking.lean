/-
How the parser takes the items it is fed. It takes an item when a production
begins with those it has taken since the last message and this one, and calls
a message when they are a whole one. Any other item it complains about, and
stays as it was.

That is so up to the first row whose map counts no entries (`items_taken`).
-/
import Zql.Productions
import Zql.Lib.Spelling

namespace Zql

open Scanning

/-- A production begins with the items. -/
def Begins (events : List CborEvent) : Prop := ∃ after, Production (events ++ after)

/-- The item is the header of a row of no entries, or of less than none. -/
def Uncounted (taken : List CborEvent) (e : CborEvent) : Prop := RowHead taken ∧ ∃ size, e = .map size ∧ size.toInt ≤ 0

/-- At each item, with those taken since the last message: a message is called
if they are a production, an error if none begins with them, and nothing
else; an item complained about is not taken. After a row that is not counted
nothing is said. -/
def ObjectParser.Takes (p : ObjectParser) (taken : List CborEvent) : List CborEvent → Prop
  | [] => True
  | e :: events => ¬ Uncounted taken e →
    match p.on e with
    | none => False
    | some (p', none) => Begins (taken ++ [e]) ∧ ¬ Production (taken ++ [e]) ∧ p'.Takes (taken ++ [e]) events
    | some (p', some (.message _)) => Production (taken ++ [e]) ∧ p'.Takes [] events
    | some (p', some (.error _)) => ¬ Begins (taken ++ [e]) ∧ p' = p ∧ p.Takes taken events

/-! ## How messages are spelt -/

namespace Spelt

def entries : Nat → List CborEvent → Prop
  | 0 => Then string? fun _ => Then string? fun _ => Done
  | n + 1 => Then string? fun _ => Then string? fun _ => entries n

/-- A row counted down to zero. -/
def row (size : Int32) : List CborEvent → Prop := entries (size - 1).toUInt32.toNat

def request : RequestKind → List CborEvent → Prop
  | .get => Then (array? 3) fun _ => Then string? fun _ => Then string? fun _ => Then integer? fun _ => Done
  | .add => Then (array? 3) fun _ => Then string? fun _ => Then string? fun _ => Then map? row
  | .addContinue => Then (array? 2) fun _ => Then integer? fun _ => Then integer? fun _ => Done

def response : ResponseKind → List CborEvent → Prop
  | .getEmpty => Then emptyMap? fun _ => Done
  | .getOk => Then map? row
  | .addOk => Then emptyMap? fun _ => Done
  | .addTraverse => Then (array? 2) fun _ => Then integer? fun _ => Then bytes? fun _ => Done

def wrapper : WrapperKind → List CborEvent → Prop
  | .request => Then (array? 2) fun _ => Then integer? fun _ => Then (tag? requestKind) request
  | .response => Then (array? 2) fun _ => Then integer? fun _ => Then (tag? responseKind) response

def message : List CborEvent → Prop := Then (tag? wrapperKind) wrapper

end Spelt

/-! ## Productions are spelt -/

theorem entries_spelt {n : Nat} {es : List CborEvent} (h : Pairs (n + 1) es) : Spelt.entries n es := by
  induction n generalizing es with
  | zero =>
    obtain _ | ⟨key, value, rest⟩ := h
    cases rest
    rfl
  | succ n ih =>
    obtain _ | ⟨key, value, rest⟩ := h
    exact ih rest

theorem RowHead.spelt {head : List CborEvent} (h : RowHead head) (size : Int32) (es : List CborEvent) :
    Spelt.message (head ++ .map size :: es) ↔ Spelt.row size es := by
  cases h <;> rfl

/-- **A production is spelt, and a whole one is if its row is not empty.** -/
theorem Production.spelt {events : List CborEvent} (h : Production events) :
    Spelt.message events ∨ EmptyRow events := by
  cases h with
  | row hhead hsize hrow =>
    obtain ⟨rfl, rfl⟩ | ⟨n, rfl⟩ := hrow.empty_or hsize
    · exact .inr ⟨_, hhead, rfl⟩
    · refine .inl ((hhead.spelt _ _).mpr ?_)
      rw [Spelt.row, size_pred hsize]
      exact entries_spelt hrow
  | _ => exact .inl rfl

theorem entries_inhabited (n : Nat) : ∃ es, Spelt.entries n es := by
  induction n with
  | zero => exact ⟨[.string [], .string []], rfl⟩
  | succ n ih =>
    obtain ⟨es, hes⟩ := ih
    exact ⟨.string [] :: .string [] :: es, hes⟩

/-! ## What is spelt is a production -/

def WrapperKind.tag : WrapperKind → UInt32
  | .request => tagRequestWrapper
  | .response => tagResponseWrapper

def RequestKind.tag : RequestKind → UInt32
  | .get => tagRequestGet
  | .add => tagRequestAdd
  | .addContinue => tagRequestAddContinue

def ResponseKind.tag : ResponseKind → UInt32
  | .getEmpty => tagResponseGetNotFound
  | .getOk => tagResponseGetOk
  | .addOk => tagResponseAddOk
  | .addTraverse => tagResponseAddTraverse

theorem wrapperKind_some (e : CborEvent) (kind : WrapperKind) (h : tag? wrapperKind e = some kind) :
    e = .tag kind.tag := by
  cases e <;> simp only [tag?, wrapperKind, reduceCtorEq] at h
  split_ifs at h <;> cases h <;> simp_all [WrapperKind.tag]

theorem requestKind_some (e : CborEvent) (kind : RequestKind) (h : tag? requestKind e = some kind) :
    e = .tag kind.tag := by
  cases e <;> simp only [tag?, requestKind, reduceCtorEq] at h
  split_ifs at h <;> cases h <;> simp_all [RequestKind.tag]

theorem responseKind_some (e : CborEvent) (kind : ResponseKind) (h : tag? responseKind e = some kind) :
    e = .tag kind.tag := by
  cases e <;> simp only [tag?, responseKind, reduceCtorEq] at h
  split_ifs at h <;> cases h <;> simp_all [ResponseKind.tag]

/-- The items begin with a message whose row is not counted. -/
def Miscounts (events : List CborEvent) : Prop :=
  ∃ head size after, RowHead head ∧ size.toInt ≤ 0 ∧ events = head ++ .map size :: after

theorem pairs_of_spelt {n : Nat} {es : List CborEvent} (h : Spelt.entries n es) : Pairs (n + 1) es := by
  induction n generalizing es with
  | zero =>
    refine h.elim string?_some fun key es h => ?_
    refine h.elim string?_some fun value es h => ?_
    obtain rfl : es = [] := h
    exact .cons key value .none
  | succ n ih =>
    refine h.elim string?_some fun key es h => ?_
    refine h.elim string?_some fun value es h => ?_
    exact .cons key value (ih h)

theorem row_of_spelt {head es : List CborEvent} {size : Int32} (hhead : RowHead head) (h : Spelt.row size es) :
    Production (head ++ .map size :: es) ∨ Miscounts (head ++ .map size :: es) := by
  by_cases hsize : size.toInt ≤ 0
  · exact .inr ⟨head, size, es, hhead, hsize, rfl⟩
  · have hn : size.toInt = (size.toInt.toNat - 1 + 1 : Nat) := by omega
    rw [Spelt.row, size_pred hn] at h
    exact .inl (.row hhead hn (pairs_of_spelt h))

theorem request_of_spelt (id : Int32) {kind : RequestKind} {es : List CborEvent} (h : Spelt.request kind es) :
    Production (.tag tagRequestWrapper :: .array 2 :: .integer id :: .tag kind.tag :: es) ∨
      Miscounts (.tag tagRequestWrapper :: .array 2 :: .integer id :: .tag kind.tag :: es) := by
  cases kind with
  | get =>
    refine h.elim (array?_some 3) fun _ es h => ?_
    refine h.elim string?_some fun database es h => ?_
    refine h.elim string?_some fun table es h => ?_
    refine h.elim integer?_some fun pk es h => ?_
    obtain rfl : es = [] := h
    exact .inl (.requestGet id database table pk)
  | add =>
    refine h.elim (array?_some 3) fun _ es h => ?_
    refine h.elim string?_some fun database es h => ?_
    refine h.elim string?_some fun table es h => ?_
    refine h.elim map?_some fun size es h => ?_
    exact row_of_spelt (.requestAdd id database table) h
  | addContinue =>
    refine h.elim (array?_some 2) fun _ es h => ?_
    refine h.elim integer?_some fun initRequestId es h => ?_
    refine h.elim integer?_some fun compareResult es h => ?_
    obtain rfl : es = [] := h
    exact .inl (.requestAddContinue id initRequestId compareResult)

theorem response_of_spelt (id : Int32) {kind : ResponseKind} {es : List CborEvent} (h : Spelt.response kind es) :
    Production (.tag tagResponseWrapper :: .array 2 :: .integer id :: .tag kind.tag :: es) ∨
      Miscounts (.tag tagResponseWrapper :: .array 2 :: .integer id :: .tag kind.tag :: es) := by
  cases kind with
  | getEmpty =>
    refine h.elim emptyMap?_some fun _ es h => ?_
    obtain rfl : es = [] := h
    exact .inl (.responseGetEmpty id)
  | getOk =>
    refine h.elim map?_some fun size es h => ?_
    exact row_of_spelt (.responseGetOk id) h
  | addOk =>
    refine h.elim emptyMap?_some fun _ es h => ?_
    obtain rfl : es = [] := h
    exact .inl (.responseAddOk id)
  | addTraverse =>
    refine h.elim (array?_some 2) fun _ es h => ?_
    refine h.elim integer?_some fun initRequestId es h => ?_
    refine h.elim bytes?_some fun ciphertext es h => ?_
    obtain rfl : es = [] := h
    exact .inl (.responseAddTraverse id initRequestId ciphertext)

/-- **What is spelt is a production, if its row is counted.** -/
theorem production_of_spelt {es : List CborEvent} (h : Spelt.message es) : Production es ∨ Miscounts es := by
  refine h.elim wrapperKind_some fun kind es h => ?_
  cases kind with
  | request =>
    refine h.elim (array?_some 2) fun _ es h => ?_
    refine h.elim integer?_some fun id es h => ?_
    exact h.elim requestKind_some fun kind es h => request_of_spelt id h
  | response =>
    refine h.elim (array?_some 2) fun _ es h => ?_
    refine h.elim integer?_some fun id es h => ?_
    exact h.elim responseKind_some fun kind es h => response_of_spelt id h

/-! ## Counted rows -/

theorem not_miscounts_nil : ¬ Miscounts [] := by
  rintro ⟨head, size, after, -, -, heq⟩
  simp at heq

theorem not_miscounts_concat {taken : List CborEvent} {e : CborEvent} (hcounted : ¬ Miscounts taken)
    (he : ¬ Uncounted taken e) : ¬ Miscounts (taken ++ [e]) := by
  rintro ⟨head, size, after, hhead, hsize, heq⟩
  rcases List.eq_nil_or_concat after with rfl | ⟨after', e', rfl⟩
  · obtain ⟨rfl, hlast⟩ := List.append_inj' heq rfl
    cases hlast
    exact he ⟨hhead, size, rfl, hsize⟩
  · rw [List.concat_eq_append, ← List.cons_append, ← List.append_assoc] at heq
    obtain ⟨rfl, -⟩ := List.append_inj' heq rfl
    exact hcounted ⟨head, size, after', hhead, hsize, rfl⟩

theorem EmptyRow.miscounts {events : List CborEvent} (h : EmptyRow events) : Miscounts events := by
  obtain ⟨head, hhead, rfl⟩ := h
  exact ⟨head, 0, [], hhead, Int.le_refl 0, rfl⟩

theorem production_iff {events : List CborEvent} (hcounted : ¬ Miscounts events) :
    Production events ↔ Spelt.message events := by
  constructor
  · intro hp
    exact hp.spelt.resolve_right fun hempty => hcounted hempty.miscounts
  · intro hspelt
    exact (production_of_spelt hspelt).resolve_right hcounted

theorem begins_iff {events : List CborEvent} (hcounted : ¬ Miscounts events) :
    Begins events ↔ ∃ after, Spelt.message (events ++ after) := by
  constructor
  · rintro ⟨after, hp⟩
    rcases hp.spelt with hspelt | ⟨head, hhead, heq⟩
    · exact ⟨after, hspelt⟩
    · obtain ⟨es, hes⟩ := entries_inhabited (0 - 1 : Int32).toUInt32.toNat
      refine ⟨after ++ es, ?_⟩
      rw [← List.append_assoc, heq, List.append_assoc]
      exact (hhead.spelt 0 es).mpr hes
  · rintro ⟨after, hspelt⟩
    rcases production_of_spelt hspelt with hp | ⟨head, size, after', hhead, hsize, heq⟩
    · exact ⟨after, hp⟩
    · -- The row is announced later, and one that is empty would have done.
      have hempty : EmptyRow (head ++ [.map 0]) := ⟨head, hhead, rfl⟩
      rcases List.append_eq_append_iff.mp heq with ⟨middle, rfl, -⟩ | ⟨middle, rfl, hmiddle⟩
      · refine ⟨middle ++ [.map 0], ?_⟩
        rw [← List.append_assoc]
        exact hempty.production
      · cases middle with
        | nil =>
          refine ⟨[.map 0], ?_⟩
          rw [List.append_nil]
          exact hempty.production
        | cons e middle =>
          cases hmiddle
          exact absurd ⟨head, size, middle, hhead, hsize, rfl⟩ hcounted

/-! ## What the parser spells -/

namespace ObjectParser

theorem fit_integer : ∃ e a, integer? e = some a := ⟨.integer 0, 0, rfl⟩

theorem fit_string : ∃ e a, string? e = some a := ⟨.string [], [], rfl⟩

theorem fit_map : ∃ e a, map? e = some a := ⟨.map 0, 0, rfl⟩

theorem fit_emptyMap : ∃ e a, emptyMap? e = some a := ⟨.map 0, (), rfl⟩

theorem fit_array (size : Int32) : ∃ e a, array? size e = some a := ⟨.array size, (), by simp [array?]⟩

theorem CountsDown.spells {keyState valueState : ObjectParserState} {object : Row → Object}
    {body : UInt32 → Row → Wrapper} (h : CountsDown keyState valueState object body) {n : Nat} {p : ObjectParser}
    {row : Row} (hs : p.state = keyState) (ho : p.currentObject = some (object row))
    (hn : (p.elements - 1).toUInt32.toNat = n) : Spells on kept p (Spelt.entries n) := by
  induction n generalizing p row with
  | zero =>
    refine .more (h.awaits_key hs) fit_string fun key => ?_
    exact .last (h.awaits_last (p := { p with currentKey := key, state := valueState }) rfl ho hn) fit_string
  | succ n ih =>
    refine .more (h.awaits_key hs) fit_string fun key => ?_
    refine .more (h.awaits_more (p := { p with currentKey := key, state := valueState }) rfl ho hn) fit_string
      fun value => ?_
    exact ih rfl rfl (toUInt32_pred hn)

theorem spells_request (p : ObjectParser) (kind : RequestKind) :
    Spells on kept (p.request kind) (Spelt.request kind) := by
  cases kind with
  | get =>
    refine .more (awaits_array .requestGet) (fit_array 3) fun _ => ?_
    refine .more (awaits_text (.requestGetDatabase _) rfl) fit_string fun database => ?_
    refine .more (awaits_text (.requestGetTable _) rfl) fit_string fun table => ?_
    exact .last (awaits_requestGetPk rfl rfl) fit_integer
  | add =>
    refine .more (awaits_array .requestAdd) (fit_array 3) fun _ => ?_
    refine .more (awaits_text (.requestAddDatabase _) rfl) fit_string fun database => ?_
    refine .more (awaits_text (.requestAddTable _) rfl) fit_string fun table => ?_
    refine .more (awaits_requestAddMap rfl) fit_map fun size => ?_
    exact (CountsDown.requestAdd database table).spells rfl rfl rfl
  | addContinue =>
    refine .more (awaits_array .requestAddContinue) (fit_array 2) fun _ => ?_
    refine .more (awaits_initRequestId (.requestAddContinue _) rfl) fit_integer fun initRequestId => ?_
    exact .last (awaits_compareResult rfl rfl) fit_integer

theorem spells_response (p : ObjectParser) (kind : ResponseKind) :
    Spells on kept (p.response kind) (Spelt.response kind) := by
  cases kind with
  | getEmpty => exact .last (awaits_empty .getEmpty) fit_emptyMap
  | getOk =>
    refine .more (awaits_responseGetOkMap rfl) fit_map fun size => ?_
    exact CountsDown.responseGetOk.spells rfl rfl rfl
  | addOk => exact .last (awaits_empty .addOk) fit_emptyMap
  | addTraverse =>
    refine .more (awaits_array .responseAddTraverse) (fit_array 2) fun _ => ?_
    refine .more (awaits_initRequestId (.responseAddTraverse _) rfl) fit_integer fun initRequestId => ?_
    exact .last (awaits_ciphertext rfl rfl) ⟨.bytes [], [], rfl⟩

/-- **A parser that begins spells messages.** -/
theorem spells_message {p : ObjectParser} (hs : p.state = .init) : Spells on kept p Spelt.message := by
  refine .more (awaits_wrapper hs) ⟨.tag tagRequestWrapper, .request, rfl⟩ fun kind => ?_
  cases kind with
  | request =>
    refine .more (awaits_array .requestWrapper) (fit_array 2) fun _ => ?_
    refine .more (awaits_id .request) fit_integer fun id => ?_
    refine .more (awaits_requestKind rfl) ⟨.tag tagRequestGet, .get, rfl⟩ fun kind => ?_
    exact spells_request _ kind
  | response =>
    refine .more (awaits_array .responseWrapper) (fit_array 2) fun _ => ?_
    refine .more (awaits_id .response) fit_integer fun id => ?_
    refine .more (awaits_responseKind rfl) ⟨.tag tagResponseAddOk, .addOk, rfl⟩ fun kind => ?_
    exact spells_response _ kind

/-! ## Calls and states -/

/-- What becomes of the parser with each call: without one it is in another
state, with a message it begins again, and with an error it stays. -/
def Does (p p' : ObjectParser) : Option ObjectCall → Prop
  | none => p'.state ≠ p.state
  | some (.message _) => p'.state = .init
  | some (.error _) => p' = p

theorem does_sized {p p' : ObjectParser} {size expected : Int32} {state : ObjectParserState} {error : String}
    {call : Option ObjectCall} (hon : p.sized size expected state error = some (p', call)) (hs : state ≠ p.state) :
    p.Does p' call := by
  unfold sized at hon
  split at hon
  · cases hon
    exact hs
  · cases hon
    rfl

theorem does {p p' : ObjectParser} {e : CborEvent} {call : Option ObjectCall} (hon : p.on e = some (p', call)) :
    p.Does p' call := by
  obtain ⟨state, currentKey, elements, currentObject, currentRequestId⟩ := p
  cases e with
  | array size =>
    simp only [on, onArray] at hon
    split at hon
    case h_7 =>
      cases hon
      rfl
    all_goals exact does_sized hon (by simp)
  | integer | bytes | string | map | tag | special | error =>
    simp only [on, onInteger, onBytes, onString, onMap, onTag, onSpecial] at hon
    repeat' split at hon
    all_goals cases hon
    all_goals simp [Does]

/-! ## Runs -/

/-- The items taken since the last message have been spelt so far, and their
row, if there is one, is counted. -/
structure Taken (p : ObjectParser) (taken : List CborEvent) (spelt : List CborEvent → Prop) : Prop where
  spells : Spells on kept p spelt
  rest : ∀ after, Spelt.message (taken ++ after) ↔ spelt after
  counted : ¬ Miscounts taken

theorem Taken.init {p : ObjectParser} (hs : p.state = .init) : p.Taken [] Spelt.message :=
  ⟨spells_message hs, fun _ => Iff.rfl, not_miscounts_nil⟩

theorem Taken.takes {p : ObjectParser} {taken : List CborEvent} {spelt : List CborEvent → Prop}
    (h : p.Taken taken spelt) (events : List CborEvent) : p.Takes taken events := by
  induction events generalizing p taken spelt with
  | nil => trivial
  | cons e events ih =>
    intro he
    have hcounted := not_miscounts_concat h.counted he
    have hrest : ∀ after, Spelt.message (taken ++ [e] ++ after) ↔ spelt (e :: after) := fun after => by
      rw [List.append_assoc]
      exact h.rest (e :: after)
    have hprod : Production (taken ++ [e]) ↔ spelt [e] := by
      rw [production_iff hcounted, ← hrest, List.append_nil]
    have hbegins : Begins (taken ++ [e]) ↔ ∃ after, spelt (e :: after) := by
      simp only [begins_iff hcounted, hrest]
    obtain ⟨p', call, hon⟩ := h.spells.steps e
    have hdoes := does hon
    rw [hon]
    rcases h.spells.takes hon with ⟨rfl, hkeep, hnot⟩ | ⟨hkeep, hwhole⟩ | ⟨rfl, spelt', hspells, hafter⟩
    · -- The item was passed over: it was an error, since any other call moves the parser on.
      match call, hdoes, hkeep with
      | none, hdoes, _ => exact absurd rfl hdoes
      | some (.error _), _, _ =>
        refine ⟨?_, rfl, ih h⟩
        rw [hbegins]
        rintro ⟨after, hafter⟩
        exact hnot after hafter
    · match call, hdoes, hkeep with
      | some (.message _), hdoes, _ => exact ⟨hprod.mpr ((hwhole []).mpr rfl), ih (.init hdoes)⟩
    · obtain ⟨after, hinhabited⟩ := hspells.inhabited
      refine ⟨hbegins.mpr ⟨after, (hafter after).mpr hinhabited⟩, ?_, ih ⟨hspells, ?_, hcounted⟩⟩
      · rw [hprod, hafter]
        exact hspells.not_nil
      · exact fun after => (hrest after).trans (hafter after)

end ObjectParser

/-- **The parser takes the items of productions, and no others**, and calls a
message for each one that is whole, up to a row that is not counted. -/
theorem items_taken {p : ObjectParser} (hs : p.state = .init) (events : List CborEvent) : p.Takes [] events :=
  (ObjectParser.Taken.init hs).takes events

theorem items_taken_interrupted : ObjectParser.new.Takes [] interrupted := items_taken (p := .new) rfl interrupted

end Zql
