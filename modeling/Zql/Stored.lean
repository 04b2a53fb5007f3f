/-
What an acknowledgement is worth. The server answers `ResponseAddOk` on
four branches, looks at no result of `Database::add` on any of them, and
calls it on three: for an insert whose value it finds in the tree it writes
nothing. A table that does not open is `true` to the caller in any case.

While MySQL takes every row and no insert is answered as equal, every
acknowledged insert's row was written (`acknowledged_stored`).
-/
import Zql.Service

namespace Zql

open Transition

/-- An insert, with the calls of `Database::add` made before it came. -/
structure Insert where
  request : RequestAdd
  since : Nat

/-- The inserts as seen from outside. -/
structure Ledger where
  /-- The insert whose traversal was last started under an id, and whether
  it has been acknowledged since. -/
  opener : UInt32 → Option (Insert × Bool)
  /-- The inserts answered with `ResponseAddOk`. -/
  acknowledged : List Insert

namespace Ledger

def init : Ledger := ⟨fun _ => none, []⟩

def observe (l : Ledger) (e : Exchange) : Ledger :=
  let since := e.before.database.adds.length
  match e.message, e.response with
  | .add id request, .addTraverse _ =>
    { l with opener := Function.update l.opener id (some (⟨request, since⟩, false)) }
  | .add _ request, _ => { l with acknowledged := l.acknowledged ++ [⟨request, since⟩] }
  | .addContinue _ _, .addTraverse _ => l
  | .addContinue _ request, _ =>
    match l.opener request.initRequestId with
    | none => l
    | some (insert, _) =>
      { opener := Function.update l.opener request.initRequestId (some (insert, true))
        acknowledged := l.acknowledged ++ [insert] }

/-- The row of the request, but for a code in one of its `_ope` fields. -/
def SameRow (row requested : Row) : Prop :=
  row = requested ∨
    ∃ opeField code, hasEnding opeField opeEnding = true ∧ opeField ∈ requested ∧
      row = requested.insert opeField (formatPath code)

/-- Since the insert came, a write that succeeded has put its row into its
table. -/
def IsStored (d : Database) (i : Insert) : Prop :=
  ∃ call ∈ d.adds.drop i.since, call.written = true ∧ call.database = i.request.database ∧
    call.table = i.request.table ∧ SameRow call.row i.request.row

/-- MySQL opens the table and takes the row in every call, and no insert in
progress is answered as equal. -/
def Healthy (s : Server × Ledger) (a : Message × Env) : Prop :=
  (s.1.Adds a.1 → a.2.mysql.opens = true ∧ a.2.mysql.writesRow = true) ∧
    ∀ id request insert, a.1 = .addContinue id request → direction request.compareResult = none →
      s.2.opener request.initRequestId ≠ some (insert, false)

theorem IsStored.add {d : Database} {i : Insert} (h : IsStored d i) (mysql : Mysql) (database table : Str)
    (row : Row) : IsStored (d.add mysql database table row).1 i := by
  obtain ⟨call, hc, hrest⟩ := h
  refine ⟨call, ?_, hrest⟩
  rw [Database.add_adds, List.drop_append]
  exact List.mem_append_left _ hc

theorem isStored_add {d : Database} {i : Insert} {mysql : Mysql} {row : Row}
    (hm : mysql.opens = true ∧ mysql.writesRow = true) (hi : i.since ≤ d.adds.length)
    (hrow : SameRow row i.request.row) :
    IsStored (d.add mysql i.request.database i.request.table row).1 i := by
  refine ⟨⟨i.request.database, i.request.table, row, mysql.opens && mysql.writesRow⟩, ?_, by simp [hm], rfl, rfl, hrow⟩
  rw [Database.add_adds, List.drop_append_of_le_length hi]
  exact List.mem_append_right _ (List.mem_singleton.mpr rfl)

theorem add_length (d : Database) (mysql : Mysql) (database table : Str) (row : Row) :
    d.adds.length ≤ (d.add mysql database table row).1.adds.length := by
  rw [Database.add_adds, List.length_append]
  omega

/-! ## The invariant -/

/-- The request a traversal carries is the one it was started for, but for
the code a finished traversal has put in. -/
def Carries (t : BTreeTraverse) (r : RequestAdd) : Prop :=
  opeEntry r.row ≠ none ∧ ∃ row, t.requestAdd = some { r with row } ∧
    (row = r.row ∨ ∃ code, row = r.row.insert (opeFieldName r.row) (formatPath code))

structure Kept (s : Server × Ledger) : Prop where
  carries : ∀ k t, s.1.holder.traverses[k]? = some (some t) →
    ∃ insert done, s.2.opener k = some (insert, done) ∧ Carries t insert.request
  since : ∀ k insert done, s.2.opener k = some (insert, done) → insert.since ≤ s.1.database.adds.length
  done : ∀ k insert, s.2.opener k = some (insert, true) → insert ∈ s.2.acknowledged
  stored : ∀ insert ∈ s.2.acknowledged, IsStored s.1.database insert

theorem Kept.init : Kept (Server.init, init) :=
  ⟨fun _ _ h => by simp [Server.init] at h, nofun, nofun, nofun⟩

theorem Carries.sameRow {t : BTreeTraverse} {r r' : RequestAdd} (h : Carries t r) (hr : t.requestAdd = some r')
    (path : UInt64) :
    r'.database = r.database ∧ r'.table = r.table ∧
      r'.row.insert (opeFieldName r'.row) (formatPath path) =
        r.row.insert (opeFieldName r.row) (formatPath path) := by
  obtain ⟨hope, row, ht, hrow⟩ := h
  rw [hr] at ht
  obtain rfl := Option.some.inj ht
  obtain ⟨hmem, -⟩ := opeFieldName_mem hope
  rcases hrow with rfl | ⟨code, rfl⟩
  · exact ⟨rfl, rfl, rfl⟩
  · exact ⟨rfl, rfl, by rw [opeFieldName_insert hmem, insert_insert]⟩

theorem Kept.acknowledge {s : Server} {l : Ledger} (hk : Kept (s, l)) (insert : Insert) {mysql : Mysql} {row : Row}
    (hm : mysql.opens = true ∧ mysql.writesRow = true) (hi : insert.since ≤ s.database.adds.length)
    (hrow : SameRow row insert.request.row) :
    ∀ i ∈ l.acknowledged ++ [insert],
      IsStored (s.database.add mysql insert.request.database insert.request.table row).1 i := by
  intro i hmem
  rcases List.mem_append.mp hmem with hmem | hmem
  · exact (hk.stored i hmem).add ..
  · obtain rfl := List.mem_singleton.mp hmem
    exact isStored_add hm hi hrow

theorem Kept.added {env : Env} {s s' : Server} {l : Ledger} {id : UInt32} {request : RequestAdd} {response : Response}
    (hk : Kept (s, l)) (ho : Healthy (s, l) (.add id request, env)) (h : Added env s id request s' response) :
    Kept (s', l.observe ⟨env, .add id request, s, response, s'⟩) := by
  cases h with
  | plain hope =>
    refine ⟨hk.carries, fun k i d hi => (hk.since k i d hi).trans (add_length ..), fun k i hi =>
      List.mem_append_left _ (hk.done k i hi), ?_⟩
    exact hk.acknowledge ⟨request, s.database.adds.length⟩ (ho.1 (.inl hope)) le_rfl (.inl rfl)
  | @root opeField opeValue hope htree =>
    refine ⟨hk.carries, fun k i d hi => (hk.since k i d hi).trans (add_length ..), fun k i hi =>
      List.mem_append_left _ (hk.done k i hi), ?_⟩
    obtain ⟨hget, hend⟩ := opeEntry_some hope
    exact hk.acknowledge ⟨request, s.database.adds.length⟩ (ho.1 (.inr htree)) le_rfl
      (.inr ⟨opeField, _, hend, Std.ExtTreeMap.mem_iff_isSome_getElem?.mpr (by rw [hget]; rfl), rfl⟩)
  | started hope htree hnode =>
    refine ⟨fun k t ht => ?_, fun k i d hi => ?_, fun k i hi => ?_, hk.stored⟩
    · rcases BTreeTraverseHolder.update_cases ht with ⟨rfl, rfl⟩ | ⟨hid, ht⟩
      · exact ⟨_, _, Function.update_self .., by rw [hope]; nofun, request.row, rfl, .inl rfl⟩
      · obtain ⟨i, d, hi, hc⟩ := hk.carries k t ht
        exact ⟨i, d, by rw [← hi]; exact Function.update_of_ne hid .., hc⟩
    · rcases update_cases hi with ⟨-, hi⟩ | ⟨-, hi⟩
      · cases hi
        exact le_rfl
      · exact hk.since k i d hi
    · rcases update_cases hi with ⟨-, hi⟩ | ⟨-, hi⟩
      · cases hi
      · exact hk.done k i hi

theorem Kept.continued {env : Env} {s s' : Server} {l : Ledger} {id : UInt32} {request : RequestAddContinue}
    {response : Response} (hk : Kept (s, l)) (ho : Healthy (s, l) (.addContinue id request, env))
    (h : Continued env s id request s' response) :
    Kept (s', l.observe ⟨env, .addContinue id request, s, response, s'⟩) := by
  cases h with
  | equal hd =>
    have hget : ∀ k t, ({ s with holder := (s.holder.getTraverse request.initRequestId).1 } : Server).holder.traverses[k]? =
        some (some t) → ∃ insert done, l.opener k = some (insert, done) ∧ Carries t insert.request :=
      fun k t ht => hk.carries k t ((BTreeTraverseHolder.getTraverse_stored ..).mp ht)
    cases hopen : l.opener request.initRequestId with
    | none =>
      simp only [observe, hopen]
      exact ⟨hget, hk.since, hk.done, hk.stored⟩
    | some opener =>
      -- an insert answered as equal has been acknowledged before
      obtain ⟨insert, done⟩ := opener
      have hdone : done = true := by
        cases done with
        | true => rfl
        | false => exact absurd hopen (ho.2 id request insert rfl hd)
      subst hdone
      have hold := hk.done _ insert hopen
      simp only [observe, hopen]
      rw [← hopen, Function.update_eq_self]
      refine ⟨hget, hk.since, fun k i hi => List.mem_append_left _ (hk.done k i hi), fun i hi => ?_⟩
      rcases List.mem_append.mp hi with hi | hi
      · exact hk.stored i hi
      · obtain rfl := List.mem_singleton.mp hi
        exact hk.stored i hold
  | @moved side t t' heap node hd ht hgo hnode =>
    refine ⟨fun k u hu => ?_, hk.since, hk.done, hk.stored⟩
    rcases BTreeTraverseHolder.update_cases hu with ⟨rfl, rfl⟩ | ⟨-, hu⟩
    · obtain ⟨-, _, _, -, -, rfl⟩ := BTreeTraverse.goTo_moved hgo
      exact hk.carries _ t ht
    · exact hk.carries k u hu
  | @ended side t t' heap requestAdd row hd ht hgo hr hrow =>
    obtain ⟨node, hnode, hchild, -, ht'⟩ := BTreeTraverse.goTo_ended hgo
    obtain ⟨insert, done, hopen, hc⟩ : ∃ insert done, l.opener request.initRequestId = some (insert, done) ∧
        Carries t insert.request := hk.carries _ t ht
    have hreq : t'.requestAdd = t.requestAdd := by rw [ht']
    rw [hreq] at hr
    obtain ⟨hdatabase, htable, hsame⟩ := hc.sameRow hr t'.path
    rw [← hrow] at hsame
    obtain ⟨hmem, hend⟩ := opeFieldName_mem hc.1
    simp only [observe, hopen, hdatabase, htable]
    refine ⟨fun k u hu => ?_, fun k i d hi => ?_, fun k i hi => ?_, ?_⟩
    · obtain ⟨-, hu⟩ := BTreeTraverseHolder.removeTraverse_cases hu
      rcases BTreeTraverseHolder.update_cases hu with ⟨rfl, rfl⟩ | ⟨hid, hu⟩
      · obtain ⟨hope, row₀, ht₀, -⟩ := hc
        rw [hr] at ht₀
        obtain rfl := Option.some.inj ht₀
        exact ⟨insert, true, Function.update_self .., hope, row, rfl, .inr ⟨_, hsame⟩⟩
      · obtain ⟨i, d, hi, hcu⟩ := hk.carries k u hu
        exact ⟨i, d, (Function.update_of_ne hid ..).trans hi, hcu⟩
    · refine le_trans ?_ (add_length ..)
      rcases update_cases hi with ⟨-, hi⟩ | ⟨-, hi⟩
      · cases hi
        exact hk.since _ insert done hopen
      · exact hk.since k i d hi
    · rcases update_cases hi with ⟨-, hi⟩ | ⟨-, hi⟩
      · cases hi
        exact List.mem_append_right _ (List.mem_singleton.mpr rfl)
      · exact List.mem_append_left _ (hk.done k i hi)
    · exact hk.acknowledge insert (ho.1 ⟨side, t, node, hd, ht, hnode, hchild⟩) (hk.since _ insert done hopen)
        (.inr ⟨_, _, hend, hmem, hsame⟩)

end Ledger

end Zql
