/-
Which field of a row is its OPE field. Three loops over the sorted map pick
one: `OnRequestAdd` stops at the first whose name ends in `_ope`, the
constructor of `InsertExecutor` and `OnRequestAddContinue` go on to the
last. The node's ciphertext, what the client compares with, and the field
the code is written into are of one field exactly in a row with one such
field (`ope_field_iff`).

Beside the run this keeps the request whose traversal was last started
under each id.
-/
import Zql.Client
import Zql.Stored

namespace Zql

open Dyadic Transition

/-- The field `OnRequestAdd` takes: a node's ciphertext is its value, and in
the row of a new root the code replaces it. -/
def nodeField (row : Row) : Option Str := (opeEntry row).map (·.1)

/-- The field the constructor of `InsertExecutor` sets `_opeValue` from last. -/
def Client.comparedField (row : Row) : Str :=
  row.toList.foldl (fun opeField entry => if hasEnding entry.1 opeEnding then entry.1 else opeField) []

/-- The request whose traversal was last started under an id. -/
abbrev Opened := UInt32 → Option RequestAdd

namespace Opened

def observe (o : Opened) (e : Exchange) : Opened :=
  match e.message, e.response with
  | .add id request, .addTraverse _ => Function.update o id (some request)
  | _, _ => o

/-- The exchange completes the insert of a request with a new node, and the
handler writes the code into this field. -/
inductive Completes (o : Opened) (e : Exchange) : RequestAdd → Str → Prop
  | root {id : UInt32} {request : RequestAdd} {opeField opeValue : Str} : e.message = .add id request →
      opeEntry request.row = some (opeField, opeValue) →
      e.before.forest.getTree request.database request.table = none → Completes o e request opeField
  | leaf {id : UInt32} {request : RequestAddContinue} {side : Side} {t t' : BTreeTraverse} {heap : Heap}
      {requestAdd opened : RequestAdd} {coded : Str} : e.message = .addContinue id request →
      direction request.compareResult = some side →
      e.before.holder.traverses[request.initRequestId]? = some (some t) →
      t.goTo side e.env.undef e.before.heap = some (heap, t', false) → t.requestAdd = some requestAdd →
      o request.initRequestId = some opened → coded = opeFieldName requestAdd.row → Completes o e opened coded

/-- What a completed insert has done: the node's ciphertext is the value of
the first field, the client's executor compares with that of its own, and
the row is added with the code in `coded` and otherwise as it was sent. -/
structure Completed (e : Exchange) (request : RequestAdd) (coded : Str) : Prop where
  node : ∃ opeField opeValue, nodeField request.row = some opeField ∧ request.row[opeField]? = some opeValue ∧
    (e.after.heap[e.before.heap.length]?).map (·.ciphertext) = some opeValue
  compared : request.row[Client.comparedField request.row]? =
    some (Client.InsertExecutor.new request.database request.table request.row).opeValue
  replaced : coded ∈ request.row
  added : ∃ code call, e.after.database.adds = e.before.database.adds ++ [call] ∧
    call.database = request.database ∧ call.table = request.table ∧ call.row[coded]? = some (formatPath code) ∧
    ∀ k ≠ coded, call.row[k]? = request.row[k]?

/-! ## Picks -/

theorem nodeField_eq (row : Row) : nodeField row = ((opeEntries row).map (·.1)).head? := by
  rw [nodeField, opeEntry_eq, List.head?_map]

theorem comparedField_eq (row : Row) : Client.comparedField row = opeFieldName row := by
  rw [opeFieldName, ← Std.ExtTreeMap.map_fst_toList_eq_keys, List.foldl_map, Client.comparedField]

theorem comparedField_value {database table : Str} {row : Row} (h : opeEntry row ≠ none) :
    row[Client.comparedField row]? = some (Client.InsertExecutor.new database table row).opeValue := by
  have hne : opeEntries row ≠ [] := by
    intro hnil
    rw [opeEntry_eq, hnil] at h
    exact h rfl
  rw [Client.InsertExecutor.new_eq, comparedField_eq, opeFieldName_eq, List.getLast?_map,
    List.getLast?_eq_some_getLast hne]
  exact (mem_opeEntries.mp (List.getLast_mem hne)).1

/-- The first and the last field are the same when there is no other. -/
theorem first_last_iff {row : Row} (h : opeEntry row ≠ none) :
    nodeField row = some (opeFieldName row) ↔ ∃ opeField opeValue, OneOpe row opeField opeValue := by
  constructor
  · intro hsame
    have hnodup : ((opeEntries row).map (·.1)).Nodup := by
      have hkeys : (row.toList.map (·.1)).Nodup := by
        rw [Std.ExtTreeMap.map_fst_toList_eq_keys]
        exact Std.ExtTreeMap.nodup_keys
      exact hkeys.sublist (List.filter_sublist.map _)
    rw [nodeField_eq, opeFieldName_eq] at hsame
    cases hentries : opeEntries row with
    | nil =>
      rw [opeEntry_eq, hentries] at h
      exact absurd rfl h
    | cons first rest =>
      cases hrest : rest with
      | nil => exact ⟨first.1, first.2, hentries.trans (by rw [hrest])⟩
      | cons second others =>
        -- the last is among those after the first
        rw [hentries, hrest] at hsame hnodup
        have hlast : ((first :: second :: others).map (·.1)).getLast? =
            some (((second :: others).map (·.1)).getLast (by simp)) := by
          rw [List.map_cons, List.getLast?_cons_of_ne_nil (by simp), List.getLast?_eq_some_getLast]
        rw [hlast, List.map_cons, List.head?_cons, Option.getD_some, Option.some.injEq] at hsame
        refine absurd ?_ (List.nodup_cons.mp hnodup).1
        show first.1 ∈ (second :: others).map (·.1)
        rw [hsame]
        exact List.getLast_mem _
  · rintro ⟨opeField, opeValue, hone⟩
    rw [nodeField, hone.entry, hone.name]
    rfl

/-! ## The invariant -/

/-- A stored traversal carries the request it was started for, and the value
of its first field. -/
structure Kept (s : Server × Opened) : Prop where
  opened : ∀ (k : UInt32) t, s.1.holder.traverses[k]? = some (some t) →
    ∃ r opeField, s.2 k = some r ∧ Ledger.Carries t r ∧ opeEntry r.row = some (opeField, t.ciphertext)

theorem Kept.init : Kept (Server.init, fun _ => none) := ⟨fun _ _ h => by simp [Server.init] at h⟩

theorem Kept.added {env : Env} {s s' : Server} {o : Opened} {id : UInt32} {request : RequestAdd} {response : Response}
    (hk : Kept (s, o)) (h : Added env s id request s' response) :
    Kept (s', observe o ⟨env, .add id request, s, response, s'⟩) := by
  cases h with
  | plain _ => exact ⟨hk.opened⟩
  | root _ _ => exact ⟨hk.opened⟩
  | @started opeField opeValue tree node hope htree hnode =>
    refine ⟨fun k t ht => ?_⟩
    rcases BTreeTraverseHolder.update_cases ht with ⟨rfl, rfl⟩ | ⟨hid, ht⟩
    · exact ⟨request, opeField, Function.update_self .., ⟨by rw [hope]; nofun, request.row, rfl, .inl rfl⟩, hope⟩
    · obtain ⟨r, f, hr, hrest⟩ := hk.opened k t ht
      exact ⟨r, f, (Function.update_of_ne hid ..).trans hr, hrest⟩

theorem Kept.continued {env : Env} {s s' : Server} {o : Opened} {id : UInt32} {request : RequestAddContinue}
    {response : Response} (hk : Kept (s, o)) (h : Continued env s id request s' response) :
    Kept (s', observe o ⟨env, .addContinue id request, s, response, s'⟩) := by
  cases h with
  | equal _ => exact ⟨fun k t ht => hk.opened k t ((BTreeTraverseHolder.getTraverse_stored ..).mp ht)⟩
  | @moved side t t' heap node hd ht hgo hnode =>
    obtain ⟨-, _, _, -, -, rfl⟩ := BTreeTraverse.goTo_moved hgo
    refine ⟨fun k u hu => ?_⟩
    rcases BTreeTraverseHolder.update_cases hu with ⟨rfl, rfl⟩ | ⟨-, hu⟩
    · exact hk.opened _ t ht
    · exact hk.opened k u hu
  | @ended side t t' heap requestAdd row hd ht hgo hreq hrow =>
    obtain ⟨_, -, -, -, rfl⟩ := BTreeTraverse.goTo_ended hgo
    refine ⟨fun k u hu => ?_⟩
    obtain ⟨-, hu⟩ := BTreeTraverseHolder.removeTraverse_cases hu
    rcases BTreeTraverseHolder.update_cases hu with ⟨rfl, rfl⟩ | ⟨-, hu⟩
    · obtain ⟨r, f, hr, hc, hope⟩ := hk.opened _ t ht
      obtain ⟨hdatabase, htable, hsame⟩ := hc.sameRow hreq _
      refine ⟨r, f, hr, ⟨hc.1, row, ?_, .inr ⟨_, hrow.trans hsame⟩⟩, hope⟩
      simp [hdatabase, htable]
    · exact hk.opened k u hu

/-! ## Completed inserts -/

theorem added_row {s s' : Server} {mysql : Mysql} {request : RequestAdd} {coded : Str} {code : UInt64}
    (h : s'.database = (s.database.add mysql request.database request.table
      (request.row.insert coded (formatPath code))).1) :
    ∃ code call, s'.database.adds = s.database.adds ++ [call] ∧ call.database = request.database ∧
      call.table = request.table ∧ call.row[coded]? = some (formatPath code) ∧
      ∀ k ≠ coded, call.row[k]? = request.row[k]? := by
  refine ⟨code, _, by rw [h, Database.add_adds], rfl, rfl, getElem?_insert_self .., fun k hk => ?_⟩
  exact getElem?_insert_of_ne hk

/-- On the new-root path the code replaces the field the ciphertext is of. -/
theorem completed_root {e : Exchange} {id : UInt32} {request : RequestAdd} {opeField opeValue : Str}
    (h : Added e.env e.before id request e.after e.response) (hope : opeEntry request.row = some (opeField, opeValue))
    (htree : e.before.forest.getTree request.database request.table = none) : Completed e request opeField := by
  obtain ⟨hget, -⟩ := opeEntry_some hope
  generalize hafter : e.after = after at h
  generalize e.response = response at h
  cases h with
  | plain hnone =>
    rw [hope] at hnone
    cases hnone
  | started _ hsome _ =>
    rw [htree] at hsome
    cases hsome
  | @root opeField' opeValue' hope' _ =>
    obtain ⟨rfl, rfl⟩ := Prod.mk.inj (Option.some.inj (hope.symm.trans hope'))
    exact {
      node := ⟨opeField, opeValue, by rw [nodeField, hope]; rfl, hget, by rw [hafter]; simp [BTreeNode.new]⟩
      compared := comparedField_value (by rw [hope]; nofun)
      replaced := Std.ExtTreeMap.mem_iff_isSome_getElem?.mpr (by rw [hget]; rfl)
      added := added_row (by rw [hafter]) }

/-- At the end of a traversal it replaces the last field. -/
theorem Kept.completed_leaf {o : Opened} {e : Exchange} (hk : Kept (e.before, o)) {id : UInt32}
    {request : RequestAddContinue} {side : Side} {t t' : BTreeTraverse} {heap : Heap} {requestAdd opened : RequestAdd}
    (h : Continued e.env e.before id request e.after e.response) (hd : direction request.compareResult = some side)
    (ht : e.before.holder.traverses[request.initRequestId]? = some (some t))
    (hgo : t.goTo side e.env.undef e.before.heap = some (heap, t', false)) (hreq : t.requestAdd = some requestAdd)
    (hopened : o request.initRequestId = some opened) :
    opeEntry opened.row ≠ none ∧ opeFieldName requestAdd.row = opeFieldName opened.row ∧
      Completed e opened (opeFieldName opened.row) := by
  obtain ⟨r, opeField, hr, hc, hope⟩ := hk.opened _ t ht
  obtain rfl : r = opened := Option.some.inj (hr.symm.trans hopened)
  obtain ⟨hmem, -⟩ := opeFieldName_mem hc.1
  have hname : opeFieldName requestAdd.row = opeFieldName r.row := by
    obtain ⟨-, row, hrow, hcases⟩ := hc
    rw [hreq] at hrow
    obtain rfl := Option.some.inj hrow
    rcases hcases with hsame | ⟨code, hcode⟩
    · rw [hsame]
    · rw [hcode, opeFieldName_insert hmem]
  obtain ⟨requestAdd', row, hreq', hrow, hafter⟩ := h.of_ended hd ht hgo
  obtain rfl : requestAdd' = requestAdd := by
    obtain ⟨_, -, -, -, ht'⟩ := BTreeTraverse.goTo_ended hgo
    rw [ht'] at hreq'
    exact Option.some.inj (hreq'.symm.trans hreq)
  obtain ⟨_, -, -, rfl, -⟩ := BTreeTraverse.goTo_ended hgo
  obtain ⟨hdatabase, htable, hsame⟩ := hc.sameRow hreq t'.path
  have hadd : e.after.database = (e.before.database.add e.env.mysql r.database r.table
      (r.row.insert (opeFieldName r.row) (formatPath t'.path))).1 := by
    rw [hafter, hrow, hsame, hdatabase, htable]
  refine ⟨hc.1, hname, ?_⟩
  exact {
    node := ⟨opeField, t.ciphertext, by rw [nodeField, hope]; rfl, (opeEntry_some hope).1, by
      rw [hafter]
      simp [BTreeNode.new]⟩
    compared := comparedField_value hc.1
    replaced := hmem
    added := added_row hadd }

/-- **A completed insert and the fields it went by.** -/
theorem Kept.completed {s : Server × Opened} {a : Message × Env} {e : Exchange} (hk : Kept s)
    (he : s.1.exchange a = some e) {request : RequestAdd} {coded : Str} (hc : Completes s.2 e request coded) :
    opeEntry request.row ≠ none ∧ (coded = opeFieldName request.row ∨ nodeField request.row = some coded) ∧
      Completed e request coded := by
  obtain ⟨s, o⟩ := s
  obtain ⟨-, -, rfl, hh⟩ := Server.exchange_some he
  unfold Exchange.Handled at hh
  cases hc with
  | root hm hope htree =>
    rw [hm] at hh
    exact ⟨by rw [hope]; nofun, .inr (by rw [nodeField, hope]; rfl), completed_root hh hope htree⟩
  | leaf hm hd ht hgo hreq hopened hcoded =>
    rw [hm] at hh
    obtain ⟨hope, hname, hcompleted⟩ := hk.completed_leaf hh hd ht hgo hreq hopened
    rw [hcoded, hname]
    exact ⟨hope, .inl rfl, hcompleted⟩

/-- **The OPE field of an insert that completes with a new node is one field
all along exactly when its row has one such field.** -/
theorem ope_field_iff {s : Server × Opened} {as : List (Message × Env)}
    (h : Runs (ofPartial (served observe)) (Server.init, fun _ => none) as s) {a : Message × Env} {e : Exchange}
    (he : s.1.exchange a = some e) {request : RequestAdd} {coded : Str} (hc : Completes s.2 e request coded) :
    Completed e request coded ∧
      ((nodeField request.row = some coded ∧ Client.comparedField request.row = coded) ↔
        ∃ opeField opeValue, OneOpe request.row opeField opeValue) := by
  have hkeep : ∀ s a s', Kept s → ofPartial (served observe) s a s' → Kept s' := fun s a s' hk hs =>
    served_keeps (fun _ _ => True) (fun _ _ _ _ _ _ _ hk _ hh => hk.added hh)
      (fun _ _ _ _ _ _ _ hk _ hh => hk.continued hh) s a s' hk ⟨trivial, hs⟩
  have hk : Kept s := h.invariant hkeep Kept.init
  obtain ⟨hope, hcoded, hcompleted⟩ := hk.completed he hc
  refine ⟨hcompleted, ?_⟩
  rw [comparedField_eq, ← first_last_iff hope]
  constructor
  · rintro ⟨hnode, hlast⟩
    rw [hlast, hnode]
  · intro hsame
    have hlast : opeFieldName request.row = coded := by
      rcases hcoded with hcoded | hcoded
      · exact hcoded.symm
      · exact Option.some.inj (hsame.symm.trans hcoded)
    exact ⟨by rw [hsame, hlast], hlast⟩

/-- A leaf under the root `5`, its row with one such field. -/
theorem ope_field_iff_leaf :
    ∃ s e, Runs (ofPartial (served observe)) (Server.init, fun _ => none)
        [(.add 1 (.ofValue [0x35]), .calm), (.add 2 (.ofValue [0x33]), .calm)] s ∧
      s.1.exchange (.addContinue 3 ⟨2, -1⟩, .calm) = some e ∧ Completed e (.ofValue [0x33]) opeEnding := by
  have hrun : Runs (ofPartial (served observe)) (Server.init, fun _ => none)
      [(.add 1 (.ofValue [0x35]), .calm), (.add 2 (.ofValue [0x33]), .calm)] _ := .cons rfl (.cons rfl .nil)
  refine ⟨_, _, hrun, rfl, (ope_field_iff hrun (a := (.addContinue 3 ⟨2, -1⟩, .calm)) rfl ?_).1⟩
  exact .leaf rfl rfl rfl rfl rfl rfl rfl

/-- A row with the fields `a_ope` and `b_ope`. -/
def twoFields (first second : Str) : RequestAdd :=
  { database := [0x64], table := [0x74],
    row := ((∅ : Row).insert ([0x61] ++ opeEnding) first).insert ([0x62] ++ opeEnding) second }

/-- With two such fields the root is of `a_ope`, and the code replaces that,
while the client compares with `b_ope`; a leaf is of `a_ope`, and the code
replaces `b_ope`. -/
theorem ope_fields_differ :
    (∃ e, Server.init.exchange (.add 1 (twoFields [0x35] [0x36]), .calm) = some e ∧
      Completes (fun _ => none) e (twoFields [0x35] [0x36]) ([0x61] ++ opeEnding) ∧
      Client.comparedField (twoFields [0x35] [0x36]).row ≠ [0x61] ++ opeEnding) ∧
    ∃ s e, Runs (ofPartial (served observe)) (Server.init, fun _ => none)
        [(.add 1 (twoFields [0x35] [0x36]), .calm), (.add 2 (twoFields [0x33] [0x34]), .calm)] s ∧
      s.1.exchange (.addContinue 3 ⟨2, -1⟩, .calm) = some e ∧
      Completes s.2 e (twoFields [0x33] [0x34]) ([0x62] ++ opeEnding) ∧
      nodeField (twoFields [0x33] [0x34]).row ≠ some ([0x62] ++ opeEnding) := by
  refine ⟨⟨_, rfl, .root rfl rfl rfl, by decide⟩, _, _, .cons rfl (.cons rfl .nil), rfl, ?_, by decide⟩
  exact .leaf rfl rfl rfl rfl rfl rfl rfl

end Opened

end Zql
