/-
The handlers of a worker. The forest and the traversals in progress are
shared by all workers, and a handler runs as one step over them.

`OnRequestAddContinue` looks its traversal up under the id of the
`RequestAdd`, and removes the one under its own message's id.

A response is sent as the bytes its serialization leaves in an output of
fixed capacity; the wrapper they were made from is kept beside them.
-/
import Zql.BTree
import Zql.Database
import Zql.Serialize

namespace Zql

open Dyadic (Side)

structure Server where
  heap : Heap
  forest : BTreeForest
  holder : BTreeTraverseHolder
  database : Database

def Server.init : Server := ⟨[], ⟨∅⟩, ⟨∅⟩, ⟨[]⟩⟩

/-- What a handler meets outside of the program: MySQL, and the value of a
shift out of range. -/
structure Env where
  mysql : Mysql
  undef : UInt64

/-- MySQL takes every row and finds none. -/
def Env.calm : Env := { mysql := { opens := true, writesRow := true, index := fun _ => [] }, undef := 0 }

/-- A handler that follows a pointer it should not. -/
inductive Fault
  | nullTraverse
  | nullRequest
  | noNode
  deriving DecidableEq

/-- A call of `zmq_send`. -/
structure Sent where
  wrapper : ResponseWrapper
  data : List UInt8

def Sent.new (capacity : Int) (wrapper : ResponseWrapper) : Sent :=
  { wrapper, data := (wrapper.serialize (.new (.new capacity))).output.data }

def onRequestGet (env : Env) (requestId : UInt32) (request : RequestGet) : Sent :=
  let (found, values) := Database.get env.mysql request.database request.table request.pk ∅
  .new 9000 ⟨requestId, if found then .getOk { values } else .getEmpty⟩

/-! ## Adding -/

/-- The first field whose name ends in `_ope`, with its value. -/
def opeEntry (row : Row) : Option (Str × Str) := row.toList.find? fun entry => hasEnding entry.1 opeEnding

def onRequestAdd (env : Env) (s : Server) (requestId : UInt32) (request : RequestAdd) :
    Except Fault (Server × Sent) :=
  match opeEntry request.row with
  | none =>
    let (database, _) := s.database.add env.mysql request.database request.table request.row
    .ok ({ s with database }, .new 9000 ⟨requestId, .addOk⟩)
  | some (opeField, opeValue) =>
    match s.forest.getTree request.database request.table with
    | none =>
      let (heap, forest) := BTreeForest.createTree s.heap s.forest request.database request.table opeValue
      let row := request.row.insert opeField (formatPath 9223372036854775808)
      let (database, _) := s.database.add env.mysql request.database request.table row
      .ok ({ s with heap, forest, database }, .new 9000 ⟨requestId, .addOk⟩)
    | some tree =>
      let (holder, traverse) := s.holder.createTraverse requestId tree opeValue
      let traverse := { traverse with requestAdd := some request }
      match traverse.value s.heap with
      | none => .error .noNode
      | some ciphertext =>
        .ok ({ s with holder := holder.update requestId traverse },
          .new 9000 ⟨requestId, .addTraverse { initRequestId := requestId, ciphertext }⟩)

/-- What handling a `RequestAdd` does: the server after it, and the answer. -/
inductive Added (env : Env) (s : Server) (requestId : UInt32) (request : RequestAdd) : Server → Response → Prop
  /-- A row with no such field is added as it is. -/
  | plain : opeEntry request.row = none →
      Added env s requestId request
        { s with database := (s.database.add env.mysql request.database request.table request.row).1 } .addOk
  /-- The first value of a table is the root of its tree. -/
  | root {opeField opeValue : Str} : opeEntry request.row = some (opeField, opeValue) →
      s.forest.getTree request.database request.table = none →
      Added env s requestId request
        { s with
          heap := s.heap ++ [BTreeNode.new opeValue]
          forest := ⟨s.forest.forest.insert (BTreeForest.id request.database request.table) s.heap.length⟩
          database := (s.database.add env.mysql request.database request.table
            (request.row.insert opeField (formatPath 9223372036854775808))).1 } .addOk
  /-- Any other value starts a traversal from the root. -/
  | started {opeField opeValue : Str} {tree : Addr} {node : BTreeNode} :
      opeEntry request.row = some (opeField, opeValue) →
      s.forest.getTree request.database request.table = some tree → s.heap[tree]? = some node →
      Added env s requestId request
        { s with
          holder := s.holder.update requestId { BTreeTraverse.new tree opeValue with requestAdd := some request } }
        (.addTraverse { initRequestId := requestId, ciphertext := node.ciphertext })

theorem onRequestAdd_added {env : Env} {s s' : Server} {requestId : UInt32} {request : RequestAdd} {sent : Sent}
    (h : onRequestAdd env s requestId request = .ok (s', sent)) :
    Added env s requestId request s' sent.wrapper.response := by
  unfold onRequestAdd at h
  split at h
  · next hope =>
    cases h
    exact .plain hope
  next opeField opeValue hope =>
  split at h
  · next htree =>
    cases h
    exact .root hope htree
  next tree htree =>
  simp only [BTreeTraverseHolder.createTraverse, BTreeTraverse.value] at h
  split at h
  · cases h
  next ciphertext hvalue =>
  obtain ⟨node, hnode, rfl⟩ := Option.map_eq_some_iff.mp hvalue
  cases h
  have hu : (s.holder.update requestId (.new tree opeValue)).update requestId
      { BTreeTraverse.new tree opeValue with requestAdd := some request } =
      s.holder.update requestId { BTreeTraverse.new tree opeValue with requestAdd := some request } :=
    BTreeTraverseHolder.update_update ..
  rw [hu]
  exact .started hope htree hnode

/-! ## Continuing -/

/-- The last field whose name ends in `_ope`; `""` when there is none. -/
def opeFieldName (row : Row) : Str :=
  row.keys.foldl (fun opeFieldName key => if hasEnding key opeEnding then key else opeFieldName) []

/-- Left for -1 and right for 1; any other result is taken as equal. -/
def direction (compareResult : Int32) : Option Side :=
  if compareResult = -1 then some .left else if compareResult = 1 then some .right else none

/-- The end of a traversal, at the node it created: the row is added with
its code, and the traversal stored under the message's id is removed. -/
def Server.complete (env : Env) (s : Server) (requestId initRequestId : UInt32) (traverse : BTreeTraverse) :
    Except Fault (Server × Sent) :=
  match traverse.requestAdd with
  | none => .error .nullRequest
  | some requestAdd =>
    let row := requestAdd.row.insert (opeFieldName requestAdd.row) (formatPath traverse.path)
    let requestAdd := { requestAdd with row }
    let (database, _) := s.database.add env.mysql requestAdd.database requestAdd.table row
    let holder := s.holder.update initRequestId { traverse with requestAdd := some requestAdd }
    .ok ({ s with holder := holder.removeTraverse requestId, database }, .new 10000 ⟨requestId, .addOk⟩)

def onRequestAddContinue (env : Env) (s : Server) (requestId : UInt32) (request : RequestAddContinue) :
    Except Fault (Server × Sent) :=
  let initRequestId := request.initRequestId
  let (holder, traverse) := s.holder.getTraverse initRequestId
  -- a null traversal is logged, and goes on
  let s := { s with holder }
  match direction request.compareResult with
  | none => .ok (s, .new 10000 ⟨requestId, .addOk⟩)
  | some side =>
    match traverse with
    | none => .error .nullTraverse
    | some traverse =>
      match traverse.goTo side env.undef s.heap with
      | none => .error .noNode
      | some (heap, traverse, true) =>
        match traverse.value heap with
        | none => .error .noNode
        | some ciphertext =>
          .ok ({ s with heap, holder := s.holder.update initRequestId traverse },
            .new 10000 ⟨requestId, .addTraverse { initRequestId, ciphertext }⟩)
      | some (heap, traverse, false) => { s with heap }.complete env requestId initRequestId traverse

/-- What handling a `RequestAddContinue` does: the server after it, and the
answer. -/
inductive Continued (env : Env) (s : Server) (requestId : UInt32) (request : RequestAddContinue) :
    Server → Response → Prop
  /-- Equal values: the insert is answered, and nothing else happens. -/
  | equal : direction request.compareResult = none →
      Continued env s requestId request { s with holder := (s.holder.getTraverse request.initRequestId).1 } .addOk
  | moved {side : Side} {t t' : BTreeTraverse} {heap : Heap} {node : BTreeNode} :
      direction request.compareResult = some side →
      s.holder.traverses[request.initRequestId]? = some (some t) →
      t.goTo side env.undef s.heap = some (heap, t', true) → heap[t'.current]? = some node →
      Continued env s requestId request
        { s with heap, holder := s.holder.update request.initRequestId t' }
        (.addTraverse { initRequestId := request.initRequestId, ciphertext := node.ciphertext })
  | ended {side : Side} {t t' : BTreeTraverse} {heap : Heap} {requestAdd : RequestAdd} {row : Row} :
      direction request.compareResult = some side →
      s.holder.traverses[request.initRequestId]? = some (some t) →
      t.goTo side env.undef s.heap = some (heap, t', false) → t'.requestAdd = some requestAdd →
      row = requestAdd.row.insert (opeFieldName requestAdd.row) (formatPath t'.path) →
      Continued env s requestId request
        { s with
          heap
          holder := (s.holder.update request.initRequestId
            { t' with requestAdd := some { requestAdd with row } }).removeTraverse requestId
          database := (s.database.add env.mysql requestAdd.database requestAdd.table row).1 } .addOk

theorem Continued.of_ended {env : Env} {s s' : Server} {requestId : UInt32} {request : RequestAddContinue}
    {response : Response} (h : Continued env s requestId request s' response) {side : Side} {t t' : BTreeTraverse}
    {heap : Heap} (hd : direction request.compareResult = some side)
    (ht : s.holder.traverses[request.initRequestId]? = some (some t))
    (hgo : t.goTo side env.undef s.heap = some (heap, t', false)) :
    ∃ requestAdd row, t'.requestAdd = some requestAdd ∧
      row = requestAdd.row.insert (opeFieldName requestAdd.row) (formatPath t'.path) ∧
      s' = { s with
        heap
        holder := (s.holder.update request.initRequestId
          { t' with requestAdd := some { requestAdd with row } }).removeTraverse requestId
        database := (s.database.add env.mysql requestAdd.database requestAdd.table row).1 } := by
  cases h with
  | equal hnone =>
    rw [hd] at hnone
    cases hnone
  | moved hd' ht' hgo' _ =>
    obtain rfl := Option.some.inj (hd'.symm.trans hd)
    obtain rfl := Option.some.inj (Option.some.inj (ht'.symm.trans ht))
    rw [hgo] at hgo'
    cases hgo'
  | ended hd' ht' hgo' hreq hrow =>
    obtain rfl := Option.some.inj (hd'.symm.trans hd)
    obtain rfl := Option.some.inj (Option.some.inj (ht'.symm.trans ht))
    rw [hgo] at hgo'
    cases hgo'
    exact ⟨_, _, hreq, hrow, rfl⟩

theorem onRequestAddContinue_continued {env : Env} {s s' : Server} {requestId : UInt32}
    {request : RequestAddContinue} {sent : Sent}
    (h : onRequestAddContinue env s requestId request = .ok (s', sent)) :
    Continued env s requestId request s' sent.wrapper.response := by
  unfold onRequestAddContinue at h
  split at h
  · next hd =>
    cases h
    exact .equal hd
  next side hd =>
  cases hg : s.holder.getTraverse request.initRequestId with | mk holder traverse =>
  simp only [hg] at h
  split at h
  · cases h
  next t =>
  obtain ⟨hsome, hsame⟩ := BTreeTraverseHolder.getTraverse_some (t := t) (by rw [hg])
  obtain rfl : holder = s.holder := by rw [← hsame, hg]
  split at h
  · cases h
  · next heap t' hgo =>
    split at h
    · cases h
    next ciphertext hvalue =>
    obtain ⟨node, hnode, rfl⟩ := Option.map_eq_some_iff.mp hvalue
    cases h
    exact .moved hd hsome hgo hnode
  · next heap t' hgo =>
    unfold Server.complete at h
    split at h
    · cases h
    next requestAdd hr =>
    cases h
    exact .ended hd hsome hgo hr rfl

theorem onRequestAdd_ok (env : Env) {s : Server} (requestId : UInt32) {request : RequestAdd}
    (hroot : ∀ tree, s.forest.getTree request.database request.table = some tree → tree < s.heap.length) :
    ∃ s' sent, onRequestAdd env s requestId request = .ok (s', sent) := by
  unfold onRequestAdd
  split
  · exact ⟨_, _, rfl⟩
  split
  · exact ⟨_, _, rfl⟩
  next tree htree =>
  simp only [BTreeTraverseHolder.createTraverse, BTreeTraverse.value, BTreeTraverse.new,
    List.getElem?_eq_getElem (hroot tree htree), Option.map_some]
  exact ⟨_, _, rfl⟩

/-- A `RequestAddContinue` is handled whenever it names a traversal that
has a request, at a node whose children are nodes. -/
theorem onRequestAddContinue_ok (env : Env) {s : Server} (requestId : UInt32) {request : RequestAddContinue}
    {t : BTreeTraverse} {node : BTreeNode} {requestAdd : RequestAdd}
    (ht : s.holder.traverses[request.initRequestId]? = some (some t)) (hnode : s.heap[t.current]? = some node)
    (hchild : ∀ side next, node.child side = some next → next < s.heap.length)
    (hr : t.requestAdd = some requestAdd) :
    ∃ s' sent, onRequestAddContinue env s requestId request = .ok (s', sent) := by
  unfold onRequestAddContinue
  simp only [BTreeTraverseHolder.getTraverse_of_stored ht]
  cases direction request.compareResult with
  | none => exact ⟨_, _, rfl⟩
  | some side =>
    simp only [BTreeTraverse.goTo, hnode]
    cases hc : node.child side with
    | none =>
      simp only [Server.complete, hr]
      exact ⟨_, _, rfl⟩
    | some next =>
      simp only [BTreeTraverse.value, List.getElem?_eq_getElem (hchild side next hc), Option.map_some]
      exact ⟨_, _, rfl⟩

/-- The insert of a value, in a row of its own, into a table `t` of a database `d`. -/
def RequestAdd.ofValue (value : Str) : RequestAdd :=
  { database := [0x64], table := [0x74], row := (∅ : Row).insert opeEnding value }

/-! ## What a client is shown -/

/-- The response with these bytes for a ciphertext. -/
def Response.showing (c : Ciphertext) : Response → Response
  | .addTraverse r => .addTraverse { r with ciphertext := c }
  | response => response

/-- The bytes are as many as the ciphertext has, and those of the node if `seen`. -/
def Shown (seen : Prop) (response : Response) (c : Ciphertext) : Prop :=
  ∀ r, response = .addTraverse r → c.length = r.ciphertext.length ∧ (seen → c = r.ciphertext)

theorem Shown.mono {seen seen' : Prop} {response : Response} {c : Ciphertext} (h : Shown seen response c)
    (hseen : seen' → seen) : Shown seen' response c :=
  fun r hr => ⟨(h r hr).1, fun hs => (h r hr).2 (hseen hs)⟩

theorem Shown.self (seen : Prop) (response : Response) : ∃ c, Shown seen response c ∧ response.showing c = response := by
  cases response with
  | addTraverse r => exact ⟨r.ciphertext, fun r' hr => by cases hr; exact ⟨rfl, fun _ => rfl⟩, rfl⟩
  | getOk _ | getEmpty | addOk => exact ⟨[], nofun, rfl⟩

/-! ## Rows written -/

/-- The rows MySQL took since `s`. -/
def writtenSince (s s' : Server) : List Row :=
  ((s'.database.adds.drop s.database.adds.length).filter (·.written)).map (·.row)

theorem writtenSince_same {s s' : Server} (h : s'.database = s.database) : writtenSince s s' = [] := by
  rw [writtenSince, h]
  simp

theorem writtenSince_add {s s' : Server} {mysql : Mysql} {database table : Str} {row : Row}
    (h : s'.database = (s.database.add mysql database table row).1) :
    writtenSince s s' = if mysql.opens && mysql.writesRow then [row] else [] := by
  rw [writtenSince, h, Database.add_adds, List.drop_left]
  cases mysql.opens <;> cases mysql.writesRow <;> rfl

/-- At most one row was written, and none when the answer is a traversal's. -/
def Writes (s s' : Server) (response : Response) : Prop :=
  (writtenSince s s').length ≤ 1 ∧ ∀ r, response = .addTraverse r → writtenSince s s' = []

theorem writes_add {s s' : Server} {mysql : Mysql} {database table : Str} {row : Row}
    (h : s'.database = (s.database.add mysql database table row).1) : Writes s s' .addOk := by
  refine ⟨?_, fun _ h => by cases h⟩
  rw [writtenSince_add h]
  split <;> simp

theorem writes_same {s s' : Server} {response : Response} (h : s'.database = s.database) : Writes s s' response := by
  have hnil := writtenSince_same h
  exact ⟨by rw [hnil]; simp, fun _ _ => hnil⟩

theorem Added.writes {env : Env} {s s' : Server} {requestId : UInt32} {request : RequestAdd} {response : Response}
    (h : Added env s requestId request s' response) : Writes s s' response := by
  cases h with
  | plain _ => exact writes_add rfl
  | root _ _ => exact writes_add rfl
  | started _ _ _ => exact writes_same rfl

theorem Continued.writes {env : Env} {s s' : Server} {requestId : UInt32} {request : RequestAddContinue}
    {response : Response} (h : Continued env s requestId request s' response) : Writes s s' response := by
  cases h with
  | equal _ => exact writes_same rfl
  | moved _ _ _ _ => exact writes_same rfl
  | ended _ _ _ _ _ => exact writes_add rfl

end Zql
