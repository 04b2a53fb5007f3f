/-
Which items the parser takes for a message. A production of the grammar is
the items of one message with nothing between them, its row as many keys
with their values as its map says.

The parser passes over items it has no use for, and counts the entries of a
row down without a look at what it starts from. So it makes a call for items
that are no production, and none for a production with an empty row. Its
calls are the productions where neither comes up, and only there
(`messages_exact_iff`).
-/
import Zql.Parsing

namespace Zql

open Scanning

/-! ## Productions -/

/-- So many keys, each with its value. -/
inductive Pairs : Nat → List CborEvent → Prop
  | none : Pairs 0 []
  | cons {n : Nat} {events : List CborEvent} (key value : Str) (rest : Pairs n events) :
      Pairs (n + 1) (.string key :: .string value :: events)

/-- The items of a message before its row. -/
inductive RowHead : List CborEvent → Prop
  | requestAdd (id : Int32) (database table : Str) :
      RowHead [.tag tagRequestWrapper, .array 2, .integer id,
        .tag tagRequestAdd, .array 3, .string database, .string table]
  | responseGetOk (id : Int32) : RowHead [.tag tagResponseWrapper, .array 2, .integer id, .tag tagResponseGetOk]

/-- The items of a message. -/
inductive Production : List CborEvent → Prop
  | requestGet (id : Int32) (database table : Str) (pk : Int32) :
      Production [.tag tagRequestWrapper, .array 2, .integer id,
        .tag tagRequestGet, .array 3, .string database, .string table, .integer pk]
  | requestAddContinue (id initRequestId compareResult : Int32) :
      Production [.tag tagRequestWrapper, .array 2, .integer id,
        .tag tagRequestAddContinue, .array 2, .integer initRequestId, .integer compareResult]
  | responseGetEmpty (id : Int32) :
      Production [.tag tagResponseWrapper, .array 2, .integer id, .tag tagResponseGetNotFound, .map 0]
  | responseAddOk (id : Int32) :
      Production [.tag tagResponseWrapper, .array 2, .integer id, .tag tagResponseAddOk, .map 0]
  | responseAddTraverse (id initRequestId : Int32) (ciphertext : List UInt8) :
      Production [.tag tagResponseWrapper, .array 2, .integer id,
        .tag tagResponseAddTraverse, .array 2, .integer initRequestId, .bytes ciphertext]
  | row {head row : List CborEvent} {size : Int32} {n : Nat} (hhead : RowHead head) (hsize : size.toInt = n)
      (hrow : Pairs n row) : Production (head ++ .map size :: row)

/-- The items are a message whose row has no entries. -/
def EmptyRow (events : List CborEvent) : Prop := ∃ head, RowHead head ∧ events = head ++ [.map 0]

/-- The items are productions one after the other, none with an empty row,
and items that neither hold a message, whatever is passed over, nor begin
with a production with an empty row. -/
inductive InOrder : List CborEvent → Prop
  | more {events rest : List CborEvent} (production : Production events) (row : ¬ EmptyRow events)
      (order : InOrder rest) : InOrder (events ++ rest)
  | rest {events : List CborEvent} (unread : message.run events = none)
      (row : ∀ front, EmptyRow front → ¬ front <+: events) : InOrder events

namespace ObjectParser

/-- At each item a message is called if the items since the last message are
a production with it, and only then. -/
def Exact (p : ObjectParser) (since : List CborEvent) : List CborEvent → Prop
  | [] => True
  | e :: events =>
    match p.on e with
    | none => False
    | some (p', some (.message _)) => Production (since ++ [e]) ∧ Exact p' [] events
    | some (p', _) => ¬ Production (since ++ [e]) ∧ Exact p' (since ++ [e]) events

end ObjectParser

/-! ## Productions as messages -/

theorem Pairs.read {n : Nat} {events : List CborEvent} (h : Pairs (n + 1) events) (row : Row) :
    ∃ row', (entries n row).run events = some (row', []) := by
  induction n generalizing events row with
  | zero =>
    obtain _ | ⟨key, value, rest⟩ := h
    cases rest
    exact ⟨_, rfl⟩
  | succ n ih =>
    obtain _ | ⟨key, value, rest⟩ := h
    exact ih rest (row.insert key value)

theorem entries_nil (n : Nat) (row : Row) : (entries n row).run [] = none := by
  cases n <;> rfl

theorem size_pred {size : Int32} {n : Nat} (h : size.toInt = (n + 1 : Nat)) : (size - 1).toUInt32.toNat = n := by
  have hnonneg : 0 ≤ size := by
    rw [Int32.le_iff_toInt_le, h]
    exact Int.natCast_nonneg _
  have hsize := Int32.toInt_eq_toNatClampNeg hnonneg
  refine ObjectParser.toUInt32_pred ?_
  rw [Int32.toNat_toUInt32_of_le hnonneg]
  omega

theorem rowOf_read {size : Int32} {n : Nat} {events : List CborEvent} (hsize : size.toInt = (n + 1 : Nat))
    (hrow : Pairs (n + 1) events) : ∃ row, (rowOf size).run events = some (row, []) := by
  rw [rowOf, size_pred hsize]
  exact hrow.read ∅

theorem RowHead.run {head : List CborEvent} (h : RowHead head) : ∃ wrapper : Row → Wrapper, ∀ size events,
    message.run (head ++ .map size :: events) = (rowOf size >>= fun row => pure (wrapper row)).run events := by
  cases h with
  | requestAdd id database table =>
    refine ⟨fun row => .request ⟨id.toUInt32, .add { database, table, row }⟩, fun size events => ?_⟩
    show ((rowOf size >>= fun row => pure (Request.add { database, table, row })) >>=
      fun request => pure (Wrapper.request ⟨id.toUInt32, request⟩)).run events = _
    simp only [run_bind, run_pure]
    cases (rowOf size).run events <;> rfl
  | responseGetOk id =>
    refine ⟨fun values => .response ⟨id.toUInt32, .getOk { values }⟩, fun size events => ?_⟩
    show ((rowOf size >>= fun values => pure (Response.getOk { values })) >>=
      fun response => pure (Wrapper.response ⟨id.toUInt32, response⟩)).run events = _
    simp only [run_bind, run_pure]
    cases (rowOf size).run events <;> rfl

theorem Pairs.empty_or {size : Int32} {n : Nat} {row : List CborEvent} (hsize : size.toInt = n) (hrow : Pairs n row) :
    (size = 0 ∧ row = []) ∨ ∃ n', n = n' + 1 := by
  cases hrow with
  | none => exact .inl ⟨Int32.toInt.inj hsize, rfl⟩
  | cons key value rest => exact .inr ⟨_, rfl⟩

/-- **A production is read to its end, unless its row is empty.** -/
theorem Production.read {events : List CborEvent} (h : Production events) (hempty : ¬ EmptyRow events) :
    ∃ wrapper, message.run events = some (wrapper, []) := by
  cases h with
  | row hhead hsize hrow =>
    obtain ⟨rfl, rfl⟩ | ⟨n, rfl⟩ := hrow.empty_or hsize
    · exact absurd ⟨_, hhead, rfl⟩ hempty
    · obtain ⟨row, hread⟩ := rowOf_read hsize hrow
      obtain ⟨wrapper, hrun⟩ := hhead.run
      rw [hrun, run_bind, hread]
      exact ⟨wrapper row, rfl⟩
  | _ => exact ⟨_, rfl⟩

theorem EmptyRow.unread {events : List CborEvent} (h : EmptyRow events) : message.run events = none := by
  obtain ⟨head, hhead, rfl⟩ := h
  obtain ⟨wrapper, hrun⟩ := hhead.run
  rw [hrun, run_bind, rowOf, entries_nil]

theorem Pairs.of_zero {n : Nat} {row : List CborEvent} (hsize : (0 : Int32).toInt = n) (hrow : Pairs n row) :
    row = [] := by
  obtain rfl : n = 0 := by simpa using hsize.symm
  cases hrow
  rfl

theorem EmptyRow.production {events : List CborEvent} (h : EmptyRow events) : Production events := by
  obtain ⟨head, hhead, rfl⟩ := h
  exact .row hhead rfl .none

theorem not_prefix_nil (front : List CborEvent) (h : EmptyRow front) : ¬ front <+: [] := by
  obtain ⟨head, -, rfl⟩ := h
  simp

theorem EmptyRow.whole {front after : List CborEvent} (h : EmptyRow front) (hp : Production (front ++ after)) :
    after = [] := by
  obtain ⟨head, hhead, rfl⟩ := h
  generalize hall : head ++ [.map 0] ++ after = all at hp
  cases hp with
  | row hhead' hsize hrow =>
    cases hhead <;> cases hhead' <;> cases hall <;> exact hrow.of_zero hsize
  | _ => cases hhead <;> cases hall

/-! ## Items in order -/

theorem inOrder_message {front : List CborEvent} {wrapper : Wrapper} (hread : message.run front = some (wrapper, []))
    (events : List CborEvent) : InOrder (front ++ events) ↔ Production front ∧ InOrder events := by
  constructor
  · intro h
    have hfront := cuts_message.append hread events
    generalize hall : front ++ events = all at h hfront
    cases h with
    | @more events' rest hp hrow horder =>
      obtain ⟨wrapper', hread'⟩ := hp.read hrow
      rw [cuts_message.append hread' rest] at hfront
      cases hfront
      obtain rfl := List.append_cancel_right hall
      exact ⟨hp, horder⟩
    | rest hunread => simp [hunread] at hfront
  · rintro ⟨hp, horder⟩
    refine .more hp (fun hrow => ?_) horder
    simp [hrow.unread] at hread

theorem InOrder.not_production {front events : List CborEvent} (h : InOrder (front ++ events))
    (hunread : message.run front = none) : ¬ Production front := by
  intro hp
  have hrow : EmptyRow front := by
    by_contra hrow
    obtain ⟨wrapper, hread⟩ := hp.read hrow
    simp [hread] at hunread
  generalize hall : front ++ events = all at h
  cases h with
  | rest _ hnot => exact hnot front hrow (hall ▸ List.prefix_append front events)
  | @more events' rest hp' hrow' =>
    obtain ⟨wrapper, hread⟩ := hp'.read hrow'
    rcases List.append_eq_append_iff.mp hall with ⟨after, rfl, -⟩ | ⟨after, rfl, -⟩
    · -- The message goes on where the production ends.
      rw [hrow.whole hp', List.append_nil] at hrow'
      exact hrow' hrow
    · simp [cuts_message.append hread after] at hunread

/-! ## Calls -/

namespace ObjectParser

/-- From here the parser answers what the items hold, with those since the
last message before them. -/
def Tells (p : ObjectParser) (since : List CborEvent) : Prop :=
  ∀ events, answers on kept p events = some (messages (since ++ events))

theorem Tells.on {p : ObjectParser} {since : List CborEvent} (h : p.Tells since) (e : CborEvent) :
    ∃ p' call, p.on e = some (p', call) := by
  have he := h [e]
  cases hon : p.on e with
  | none => simp [answers, feed, hon] at he
  | some result => exact ⟨result.1, result.2, rfl⟩

theorem Tells.quiet {p p' : ObjectParser} {since : List CborEvent} {e : CborEvent} {call : Option ObjectCall}
    (h : p.Tells since) (hon : p.on e = some (p', call)) (hcall : call.bind kept = none) :
    message.run (since ++ [e]) = none ∧ p'.Tells (since ++ [e]) := by
  have htells : p'.Tells (since ++ [e]) := fun events => by
    have he := h (e :: events)
    rw [answers_cons hon, hcall] at he
    simpa using he
  refine ⟨?_, htells⟩
  cases hread : message.run (since ++ [e]) with
  | none => rfl
  | some found =>
    have hnone := htells []
    simp [messages_some hread] at hnone

theorem Tells.called {p p' : ObjectParser} {since : List CborEvent} {e : CborEvent} {wrapper : Wrapper}
    (h : p.Tells since) (hunread : message.run since = none) (hon : p.on e = some (p', some (.message wrapper))) :
    (∃ wrapper', message.run (since ++ [e]) = some (wrapper', [])) ∧ p'.Tells [] := by
  have hcalled : ∀ events,
      (answers ObjectParser.on kept p' events).map (wrapper :: ·) = some (messages (since ++ [e] ++ events)) := fun events => by
    have he := h (e :: events)
    rw [answers_cons hon] at he
    simpa [kept] using he
  cases hread : message.run (since ++ [e]) with
  | none =>
    have hone := hcalled []
    simp [messages_none hread] at hone
  | some found =>
    obtain ⟨wrapper', rest⟩ := found
    obtain rfl := cuts_message.last hunread hread
    refine ⟨⟨wrapper', rfl⟩, fun events => ?_⟩
    have hall := hcalled events
    rw [messages_some (cuts_message.append hread events)] at hall
    obtain ⟨ms, hms, heq⟩ := Option.map_eq_some_iff.mp hall
    cases heq
    exact hms

/-- **The parser's calls and the productions are the same for items that are
in order, and for no others.** -/
theorem Tells.exact_iff {p : ObjectParser} {since : List CborEvent} (h : p.Tells since)
    (hunread : message.run since = none) (hrow : ∀ front, EmptyRow front → ¬ front <+: since) (events : List CborEvent) :
    p.Exact since events ↔ InOrder (since ++ events) := by
  induction events generalizing p since with
  | nil =>
    rw [List.append_nil]
    exact ⟨fun _ => .rest hunread hrow, fun _ => trivial⟩
  | cons e events ih =>
    rw [List.append_cons]
    have hrow' : ¬ Production (since ++ [e]) → ∀ front, EmptyRow front → ¬ front <+: since ++ [e] := by
      intro hnot front hfront hprefix
      rcases List.prefix_concat_iff.mp hprefix with rfl | hprefix
      · exact hnot hfront.production
      · exact hrow front hfront hprefix
    have hquiet : ∀ p' call, p.on e = some (p', call) → call.bind kept = none →
        (¬ Production (since ++ [e]) ∧ p'.Exact (since ++ [e]) events ↔ InOrder (since ++ [e] ++ events)) := by
      intro p' call hon hcall
      obtain ⟨hunread', htells⟩ := h.quiet hon hcall
      constructor
      · rintro ⟨hnot, hexact⟩
        exact (ih htells hunread' (hrow' hnot)).mp hexact
      · intro horder
        have hnot := horder.not_production hunread'
        exact ⟨hnot, (ih htells hunread' (hrow' hnot)).mpr horder⟩
    obtain ⟨p', call, hon⟩ := h.on e
    rw [Exact, hon]
    cases call with
    | none => exact hquiet p' none hon rfl
    | some call =>
      cases call with
      | error error => exact hquiet p' _ hon rfl
      | message wrapper =>
        obtain ⟨⟨wrapper', hread⟩, htells⟩ := h.called hunread hon
        rw [inOrder_message hread]
        exact and_congr_right fun _ => ih htells rfl not_prefix_nil

end ObjectParser

/-- **A message is called for exactly the productions when the items are in
order**: when no message is completed whose items had others between them or
whose row counts less than one entry, and no empty row is announced. -/
theorem messages_exact_iff {p : ObjectParser} (hs : p.state = .init) (events : List CborEvent) :
    p.Exact [] events ↔ InOrder events := by
  have htells : p.Tells [] := fun events => ObjectParser.answers_messages hs events
  exact htells.exact_iff rfl not_prefix_nil events

/-- A request with an item in it that was complained about. -/
def interrupted : List CborEvent :=
  [.tag tagRequestWrapper, .special 22, .array 2, .integer 1,
    .tag tagRequestGet, .array 3, .string [], .string [], .integer 5]

def emptyRow : List CborEvent :=
  [.tag tagResponseWrapper, .array 2, .integer 1, .tag tagResponseGetOk, .map 0]

/-- The request is delivered all the same, and a response with an empty row
is not. -/
theorem interrupted_delivered :
    ((∃ p, feed ObjectParser.on .new interrupted =
      some (p, [.error "unknown special", .message (.request ⟨1, .get { pk := 5 }⟩)])) ∧
      ¬ ObjectParser.new.Exact [] interrupted) ∧
    (∃ p, feed ObjectParser.on .new emptyRow = some (p, [])) ∧ Production emptyRow ∧
      ¬ ObjectParser.new.Exact [] emptyRow := by
  have hempty : EmptyRow emptyRow := ⟨_, .responseGetOk 1, rfl⟩
  refine ⟨⟨⟨_, rfl⟩, fun h => ?_⟩, ⟨_, rfl⟩, hempty.production, fun h => ?_⟩
  · obtain ⟨-, -, -, -, -, -, -, -, hp, -⟩ := h
    change Production interrupted at hp
    generalize hall : interrupted = all at hp
    cases hp with
    | row hhead => cases hhead <;> cases hall
    | _ => cases hall
  · obtain ⟨-, -, -, -, hnot, -⟩ := h
    exact hnot hempty.production

end Zql
