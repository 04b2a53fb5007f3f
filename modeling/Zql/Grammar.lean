/-
What a message is, told without the parser's states: the items it is made
of, in their order. Items that do not fit where they stand are passed over,
as the parser passes over them with a call of `OnError`.

The parser makes a call for each message the items hold and for nothing
else, and casts nothing to what it is not (`answers_messages`).
-/
import Zql.ObjectParser
import Zql.Lib.Scan

namespace Zql

open Scanning

/-! ## Items -/

def integer? : CborEvent → Option Int32
  | .integer value => some value
  | _ => none

def bytes? : CborEvent → Option (List UInt8)
  | .bytes data => some data
  | _ => none

def string? : CborEvent → Option Str
  | .string str => some str
  | _ => none

def map? : CborEvent → Option Int32
  | .map size => some size
  | _ => none

def array? (expected : Int32) : CborEvent → Option Unit
  | .array size => if size = expected then some () else none
  | _ => none

def emptyMap? : CborEvent → Option Unit
  | .map size => if size = 0 then some () else none
  | _ => none

def tag? {κ : Type} (kind : UInt32 → Option κ) : CborEvent → Option κ
  | .tag tag => kind tag
  | _ => none

theorem integer?_some (e : CborEvent) (value : Int32) (h : integer? e = some value) : e = .integer value := by
  cases e <;> simp_all [integer?]

theorem bytes?_some (e : CborEvent) (data : List UInt8) (h : bytes? e = some data) : e = .bytes data := by
  cases e <;> simp_all [bytes?]

theorem string?_some (e : CborEvent) (str : Str) (h : string? e = some str) : e = .string str := by
  cases e <;> simp_all [string?]

theorem map?_some (e : CborEvent) (size : Int32) (h : map? e = some size) : e = .map size := by
  cases e <;> simp_all [map?]

theorem array?_some (size : Int32) (e : CborEvent) (u : Unit) (h : array? size e = some u) : e = .array size := by
  cases e <;> simp_all [array?]

theorem emptyMap?_some (e : CborEvent) (u : Unit) (h : emptyMap? e = some u) : e = .map 0 := by
  cases e <;> simp_all [emptyMap?]

/-! ## Messages -/

inductive WrapperKind
  | request
  | response

inductive RequestKind
  | get
  | add
  | addContinue

inductive ResponseKind
  | getEmpty
  | getOk
  | addOk
  | addTraverse

def wrapperKind (tag : UInt32) : Option WrapperKind :=
  if tag = tagRequestWrapper then some .request else if tag = tagResponseWrapper then some .response else none

def requestKind (tag : UInt32) : Option RequestKind :=
  if tag = tagRequestGet then some .get
  else if tag = tagRequestAdd then some .add
  else if tag = tagRequestAddContinue then some .addContinue
  else none

def responseKind (tag : UInt32) : Option ResponseKind :=
  if tag = tagResponseGetNotFound then some .getEmpty
  else if tag = tagResponseGetOk then some .getOk
  else if tag = tagResponseAddOk then some .addOk
  else if tag = tagResponseAddTraverse then some .addTraverse
  else none

/-- So many keys with their values, and one more. -/
def entries : Nat → Row → Scan CborEvent Row
  | 0, row => do
    let key ← next string?
    let value ← next string?
    pure (row.insert key value)
  | n + 1, row => do
    let key ← next string?
    let value ← next string?
    entries n (row.insert key value)

/-- A map of a size counted down to zero: none at all is 2^32 entries. -/
def rowOf (size : Int32) : Scan CborEvent Row := entries (size - 1).toUInt32.toNat ∅

def requestBody : RequestKind → Scan CborEvent Request
  | .get => do
    next (array? 3)
    let database ← next string?
    let table ← next string?
    let pk ← next integer?
    pure (.get { database, table, pk := pk.toInt64.toUInt64 })
  | .add => do
    next (array? 3)
    let database ← next string?
    let table ← next string?
    let size ← next map?
    let row ← rowOf size
    pure (.add { database, table, row })
  | .addContinue => do
    next (array? 2)
    let initRequestId ← next integer?
    let compareResult ← next integer?
    pure (.addContinue { initRequestId := initRequestId.toUInt32, compareResult })

def responseBody : ResponseKind → Scan CborEvent Response
  | .getEmpty => do
    let _ ← next emptyMap?
    pure .getEmpty
  | .getOk => do
    let size ← next map?
    let values ← rowOf size
    pure (.getOk { values })
  | .addOk => do
    let _ ← next emptyMap?
    pure .addOk
  | .addTraverse => do
    next (array? 2)
    let initRequestId ← next integer?
    let ciphertext ← next bytes?
    pure (.addTraverse { initRequestId := initRequestId.toUInt32, ciphertext })

def requestWrapper : Scan CborEvent Wrapper := do
  next (array? 2)
  let id ← next integer?
  let kind ← next (tag? requestKind)
  let request ← requestBody kind
  pure (.request ⟨id.toUInt32, request⟩)

def responseWrapper : Scan CborEvent Wrapper := do
  next (array? 2)
  let id ← next integer?
  let kind ← next (tag? responseKind)
  let response ← responseBody kind
  pure (.response ⟨id.toUInt32, response⟩)

def wrapper : WrapperKind → Scan CborEvent Wrapper
  | .request => requestWrapper
  | .response => responseWrapper

def message : Scan CborEvent Wrapper := do
  let kind ← next (tag? wrapperKind)
  wrapper kind

theorem cuts_entries (n : Nat) (row : Row) : Cuts (entries n row) := by
  induction n generalizing row with
  | zero => exact (cuts_next _).bind fun _ => (cuts_next _).bind fun _ => cuts_pure _
  | succ n ih => exact (cuts_next _).bind fun _ => (cuts_next _).bind fun _ => ih _

theorem cuts_requestBody (kind : RequestKind) : Cuts (requestBody kind) := by
  cases kind with
  | get =>
    exact (cuts_next _).bind fun _ => (cuts_next _).bind fun _ => (cuts_next _).bind fun _ =>
      (cuts_next _).bind fun _ => cuts_pure _
  | add =>
    exact (cuts_next _).bind fun _ => (cuts_next _).bind fun _ => (cuts_next _).bind fun _ =>
      (cuts_next _).bind fun _ => (cuts_entries _ _).bind fun _ => cuts_pure _
  | addContinue =>
    exact (cuts_next _).bind fun _ => (cuts_next _).bind fun _ => (cuts_next _).bind fun _ => cuts_pure _

theorem cuts_responseBody (kind : ResponseKind) : Cuts (responseBody kind) := by
  cases kind with
  | getEmpty => exact (cuts_next _).bind fun _ => cuts_pure _
  | getOk => exact (cuts_next _).bind fun _ => (cuts_entries _ _).bind fun _ => cuts_pure _
  | addOk => exact (cuts_next _).bind fun _ => cuts_pure _
  | addTraverse =>
    exact (cuts_next _).bind fun _ => (cuts_next _).bind fun _ => (cuts_next _).bind fun _ => cuts_pure _

theorem cuts_wrapper (kind : WrapperKind) : Cuts (wrapper kind) := by
  cases kind with
  | request =>
    exact (cuts_next _).bind fun _ => (cuts_next _).bind fun _ => (cuts_next _).bind fun _ =>
      (cuts_requestBody _).bind fun _ => cuts_pure _
  | response =>
    exact (cuts_next _).bind fun _ => (cuts_next _).bind fun _ => (cuts_next _).bind fun _ =>
      (cuts_responseBody _).bind fun _ => cuts_pure _

theorem cuts_message : Cuts message := (cuts_next _).bind cuts_wrapper

theorem shortens_message : Shortens message := (shortens_next _).bind fun kind => (cuts_wrapper kind).shrinks

/-- The messages the items hold, one after the other. -/
def messages (events : List CborEvent) : List Wrapper := readAll message shortens_message events

theorem messages_none {events : List CborEvent} (h : message.run events = none) : messages events = [] :=
  readAll_none h

theorem messages_some {events rest : List CborEvent} {wrapper : Wrapper} (h : message.run events = some (wrapper, rest)) :
    messages events = wrapper :: messages rest :=
  readAll_some h

end Zql
