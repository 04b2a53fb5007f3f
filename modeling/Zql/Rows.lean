/-
Nodes and their rows. A handler changes the tree first and writes the row
after that, and looks at no result of the write: a write that fails leaves
a root or a leaf without a row, and so does a table that does not open,
which `Database::add` even reports as success.

Beside the run this keeps, for every node, its code and which call of
`Database::add` was its own. As long as every row of a new node is written,
every node has its row, with its code in it (`nodes_stored_iff`).
-/
import Zql.Service
import Zql.Tables

namespace Zql

open Dyadic SearchTree Transition

/-- The code of each node by address, and its call of `Database::add`. -/
abbrev Rows := List (UInt64 × Nat)

/-- The message makes a new node: the root of a table's tree, or a leaf at
the end of a traversal. -/
def Server.Plants (s : Server) : Message → Prop
  | .add _ request => opeEntry request.row ≠ none ∧ s.forest.getTree request.database request.table = none
  | .addContinue id request => s.Adds (.addContinue id request)

namespace Rows

def observe (c : Rows) (e : Exchange) : Rows :=
  let call := e.before.database.adds.length
  match e.message with
  | .add _ request =>
    match opeEntry request.row, e.before.forest.getTree request.database request.table with
    | some _, none => c ++ [(9223372036854775808, call)]
    | _, _ => c
  | .addContinue _ request =>
    match direction request.compareResult, (e.before.holder.getTraverse request.initRequestId).2 with
    | some side, some t =>
      match t.goTo side e.env.undef e.before.heap with
      | some (_, t', false) => c ++ [(t'.path, call)]
      | _ => c
    | _, _ => c

/-- The node's row is in its table, with its code in an `_ope` field. -/
def HasRow (s : Server × Rows) (key : Str) (a : Addr) : Prop :=
  ∃ code i call, s.2[a]? = some (code, i) ∧ s.1.database.adds[i]? = some call ∧ call.written = true ∧
    BTreeForest.id call.database call.table = key ∧
    ∃ opeField, hasEnding opeField opeEnding = true ∧ call.row[opeField]? = some (formatPath code)

/-- When a node is made, its table opens and MySQL takes its row. -/
def Taken (s : Server × Rows) (a : Message × Env) : Prop :=
  s.1.Plants a.1 → a.2.mysql.opens = true ∧ a.2.mysql.writesRow = true

structure Planted (s : Server × Rows) : Prop where
  rooted : ∃ ts, Rooted s.1.heap s.1.forest ts
  length : s.2.length = s.1.heap.length
  calls : ∀ i ∈ s.2.map (·.2), i < s.1.database.adds.length
  own : (s.2.map (·.2)).Pairwise (· < ·)
  stored : ∀ key, ∀ a ∈ s.1.forest.nodes s.1.heap key, HasRow s key a
  /-- A traversal stands in the tree its request was for. -/
  traverses : ∀ (k : UInt32) t, s.1.holder.traverses[k]? = some (some t) → ∃ r, t.requestAdd = some r ∧
    opeEntry r.row ≠ none ∧ t.current ∈ s.1.forest.nodes s.1.heap (BTreeForest.id r.database r.table)

theorem Planted.init : Planted (Server.init, []) where
  rooted := ⟨[], Rooted.nil⟩
  length := rfl
  calls := by simp
  own := by simp
  stored := fun key a ha => by
    have hnil : Server.init.forest.tree Server.init.heap key = .nil := Rooted.tree_none (by simp [Server.init])
    rw [BTreeForest.nodes, hnil] at ha
    cases ha
  traverses := fun k t ht => by simp [Server.init] at ht

theorem HasRow.later {s s' : Server × Rows} {key : Str} {a : Addr} (h : HasRow s key a) {new : Rows}
    {call : DatabaseAdd} (hrows : s'.2 = s.2 ++ new) (hadds : s'.1.database.adds = s.1.database.adds ++ [call]) :
    HasRow s' key a := by
  obtain ⟨code, i, own, hcode, hown, hrest⟩ := h
  refine ⟨code, i, own, ?_, ?_, hrest⟩
  · rw [hrows, List.getElem?_append_left (List.getElem?_eq_some_iff.mp hcode).1, hcode]
  · rw [hadds, List.getElem?_append_left (List.getElem?_eq_some_iff.mp hown).1, hown]

theorem hasRow_new {s s' : Server × Rows} {code : UInt64} {call : DatabaseAdd} {opeField : Str} {row : Row}
    (hlength : s.2.length = s.1.heap.length) (hrows : s'.2 = s.2 ++ [(code, s.1.database.adds.length)])
    (hadds : s'.1.database.adds = s.1.database.adds ++ [call]) (hwritten : call.written = true)
    (hope : hasEnding opeField opeEnding = true) (hrow : call.row = row.insert opeField (formatPath code)) :
    HasRow s' (BTreeForest.id call.database call.table) s.1.heap.length := by
  refine ⟨code, s.1.database.adds.length, call, ?_, ?_, hwritten, rfl, opeField, hope, ?_⟩
  · rw [hrows, ← hlength, List.getElem?_concat_length]
  · rw [hadds, List.getElem?_concat_length]
  · rw [hrow, getElem?_insert_self]

/-- **A new node with a row of its own.** -/
theorem Planted.grow {s s' : Server × Rows} {code : UInt64} {call : DatabaseAdd} {opeField : Str} {row : Row}
    (hs : Planted s) (hrooted : ∃ ts, Rooted s'.1.heap s'.1.forest ts)
    (hlength : s'.1.heap.length = s.1.heap.length + 1)
    (hnodes : ∀ key, ∀ b ∈ s'.1.forest.nodes s'.1.heap key, b ∈ s.1.forest.nodes s.1.heap key ∨
      b = s.1.heap.length ∧ key = BTreeForest.id call.database call.table)
    (hrows : s'.2 = s.2 ++ [(code, s.1.database.adds.length)])
    (hadds : s'.1.database.adds = s.1.database.adds ++ [call]) (hwritten : call.written = true)
    (hope : hasEnding opeField opeEnding = true) (hrow : call.row = row.insert opeField (formatPath code))
    (htraverses : ∀ (k : UInt32) t, s'.1.holder.traverses[k]? = some (some t) → ∃ r, t.requestAdd = some r ∧
      opeEntry r.row ≠ none ∧ t.current ∈ s'.1.forest.nodes s'.1.heap (BTreeForest.id r.database r.table)) :
    Planted s' where
  rooted := hrooted
  length := by rw [hrows, hlength, List.length_append, hs.length, List.length_singleton]
  calls := by
    intro i hi
    rw [hadds, List.length_append, List.length_singleton]
    rw [hrows, List.map_append, List.mem_append] at hi
    rcases hi with hi | hi
    · exact Nat.lt_succ_of_lt (hs.calls i hi)
    · obtain rfl := List.mem_singleton.mp hi
      exact Nat.lt_succ_self _
  own := by
    rw [hrows, List.map_append, List.pairwise_append]
    refine ⟨hs.own, by simp, fun i hi j hj => ?_⟩
    obtain rfl := List.mem_singleton.mp hj
    exact hs.calls i hi
  stored := by
    intro key a ha
    rcases hnodes key a ha with ha | ⟨rfl, rfl⟩
    · exact (hs.stored key a ha).later hrows hadds
    · exact hasRow_new hs.length hrows hadds hwritten hope hrow
  traverses := htraverses

theorem opeEntry_insert {row : Row} {opeField value : Str} (h : hasEnding opeField opeEnding = true) :
    opeEntry (row.insert opeField value) ≠ none := by
  have hmem : (opeField, value) ∈ opeEntries (row.insert opeField value) :=
    mem_opeEntries.mpr ⟨getElem?_insert_self .., h⟩
  rw [opeEntry_eq, ne_eq, List.head?_eq_none_iff]
  exact List.ne_nil_of_mem hmem

theorem Planted.added {env : Env} {s s' : Server} {c : Rows} {id : UInt32} {request : RequestAdd}
    {response : Response} (hs : Planted (s, c)) (ht : Taken (s, c) (.add id request, env))
    (h : Added env s id request s' response) :
    Planted (s', observe c ⟨env, .add id request, s, response, s'⟩) := by
  obtain ⟨ts, hr⟩ := hs.rooted
  cases h with
  | plain hope =>
    simp only [observe, hope]
    refine ⟨⟨ts, hr⟩, hs.length, fun i hi => (hs.calls i hi).trans_le ?_, hs.own, fun key a ha => ?_, hs.traverses⟩
    · simp [Database.add_adds]
    · exact (hs.stored key a ha).later (List.append_nil _).symm (Database.add_adds ..)
  | @root opeField opeValue hope htree =>
    have hwritten : (env.mysql.opens && env.mysql.writesRow) = true :=
      Bool.and_eq_true_iff.mpr (ht ⟨by rw [hope]; nofun, htree⟩)
    have hadds := Database.add_adds env.mysql s.database request.database request.table
      (request.row.insert opeField (formatPath 9223372036854775808))
    refine hs.grow ⟨_, hr.create _ opeValue⟩ (by simp) (fun key b hb => ?_) (by simp only [observe, hope, htree]) hadds
      hwritten (opeEntry_some hope).2 rfl fun k t hk => ?_
    · rcases (hr.mem_create key b).mp hb with ⟨hkey, hb⟩ | ⟨-, hb⟩
      · exact .inr ⟨hb, hkey⟩
      · exact .inl hb
    · obtain ⟨r, hreq, hrope, hcurrent⟩ := hs.traverses k t hk
      refine ⟨r, hreq, hrope, (hr.mem_create _ _).mpr (.inr ⟨fun he => ?_, hcurrent⟩)⟩
      -- no traversal stands in a tree that was not there
      rw [he, BTreeForest.nodes, Rooted.tree_none htree] at hcurrent
      cases hcurrent
  | @started opeField opeValue tree node hope htree hnode =>
    simp only [observe, hope, htree]
    refine ⟨⟨ts, hr⟩, hs.length, hs.calls, hs.own, hs.stored, fun k t hk => ?_⟩
    rcases BTreeTraverseHolder.update_cases hk with ⟨-, rfl⟩ | ⟨-, hk⟩
    · exact ⟨request, rfl, by rw [hope]; nofun, hr.root_mem htree⟩
    · exact hs.traverses k t hk

theorem Planted.continued {env : Env} {s s' : Server} {c : Rows} {id : UInt32} {request : RequestAddContinue}
    {response : Response} (hs : Planted (s, c)) (ht : Taken (s, c) (.addContinue id request, env))
    (h : Continued env s id request s' response) :
    Planted (s', observe c ⟨env, .addContinue id request, s, response, s'⟩) := by
  obtain ⟨ts, hr⟩ := hs.rooted
  cases h with
  | equal hd =>
    simp only [observe, hd]
    exact ⟨⟨ts, hr⟩, hs.length, hs.calls, hs.own, hs.stored, fun k t hk =>
      hs.traverses k t ((BTreeTraverseHolder.getTraverse_stored ..).mp hk)⟩
  | @moved side t t' heap node hd hstored hgo hnode =>
    obtain ⟨rfl, -, hmoved⟩ := hr.moved hgo
    obtain ⟨-, _, _, -, -, ht'⟩ := BTreeTraverse.goTo_moved hgo
    simp only [observe, hd, BTreeTraverseHolder.getTraverse_of_stored hstored, hgo]
    refine ⟨⟨ts, hr⟩, hs.length, hs.calls, hs.own, hs.stored, fun k u hk => ?_⟩
    rcases BTreeTraverseHolder.update_cases hk with ⟨-, rfl⟩ | ⟨-, hk⟩
    · obtain ⟨r, hreq, hope, hcurrent⟩ := hs.traverses _ t hstored
      exact ⟨r, by rw [ht']; exact hreq, hope, (hmoved _).mpr hcurrent⟩
    · exact hs.traverses k u hk
  | @ended side t t' heap requestAdd row hd hstored hgo hreq hrow =>
    obtain ⟨hcurrent', hgrown, hrooted, -⟩ := hr.ended hgo
    obtain ⟨node, hnode, hchild, -, ht'⟩ := BTreeTraverse.goTo_ended hgo
    obtain ⟨r, hreq', hope, hcurrent⟩ := hs.traverses _ t hstored
    obtain rfl : requestAdd = r := by
      rw [ht'] at hreq
      exact Option.some.inj (hreq.symm.trans hreq')
    obtain ⟨-, hending⟩ := opeFieldName_mem hope
    have hwritten : (env.mysql.opens && env.mysql.writesRow) = true :=
      Bool.and_eq_true_iff.mpr (ht ⟨side, t, node, hd, hstored, hnode, hchild⟩)
    refine hs.grow hrooted hgrown.length (fun key b hb => ?_)
      (by simp only [observe, hd, BTreeTraverseHolder.getTraverse_of_stored hstored, hgo]) (Database.add_adds ..) hwritten
      hending hrow fun k u hk => ?_
    · rcases (hr.mem_ended hgo key b).mp hb with hb | ⟨hb, hkey⟩
      · exact .inl hb
      · exact .inr ⟨hb, hr.key_unique hkey hcurrent⟩
    · obtain ⟨-, hk⟩ := BTreeTraverseHolder.removeTraverse_cases hk
      rcases BTreeTraverseHolder.update_cases hk with ⟨-, rfl⟩ | ⟨-, hk⟩
      · refine ⟨_, rfl, by rw [hrow]; exact opeEntry_insert hending, (hr.mem_ended hgo _ _).mpr (.inr ?_)⟩
        exact ⟨hcurrent', hcurrent⟩
      · obtain ⟨r, hreq, hope, hin⟩ := hs.traverses k u hk
        exact ⟨r, hreq, hope, (hr.mem_ended hgo _ _).mpr (.inl hin)⟩

/-! ## Failed writes -/

/-- A node more in the tree of a table, with a code and a call of
`Database::add` of its own. -/
structure NewNode (env : Env) (s s' : Server × Rows) : Prop where
  call : ∃ code call, s'.2 = s.2 ++ [(code, s.1.database.adds.length)] ∧
    s'.1.database.adds = s.1.database.adds ++ [call] ∧ call.written = (env.mysql.opens && env.mysql.writesRow)
  sits : ∃ database table, s.1.heap.length ∈ s'.1.forest.nodes s'.1.heap (BTreeForest.id database table)

theorem Planted.newNode_added {env : Env} {s s' : Server} {c : Rows} {id : UInt32} {request : RequestAdd}
    {response : Response} (hs : Planted (s, c)) (hp : s.Plants (.add id request))
    (h : Added env s id request s' response) :
    NewNode env (s, c) (s', observe c ⟨env, .add id request, s, response, s'⟩) := by
  obtain ⟨ts, hr⟩ := hs.rooted
  obtain ⟨hope, htree⟩ := hp
  cases h with
  | plain hnone => exact absurd hnone hope
  | @root opeField opeValue hope' _ =>
    refine ⟨⟨9223372036854775808, _, by simp only [observe, hope', htree], Database.add_adds .., rfl⟩,
      request.database, request.table, ?_⟩
    exact (hr.mem_create _ _).mpr (.inl ⟨rfl, rfl⟩)
  | started _ hsome _ =>
    rw [htree] at hsome
    cases hsome

theorem Planted.newNode_continued {env : Env} {s s' : Server} {c : Rows} {id : UInt32} {request : RequestAddContinue}
    {response : Response} (hs : Planted (s, c)) (hp : s.Plants (.addContinue id request))
    (h : Continued env s id request s' response) :
    NewNode env (s, c) (s', observe c ⟨env, .addContinue id request, s, response, s'⟩) := by
  obtain ⟨ts, hr⟩ := hs.rooted
  obtain ⟨side, t, node, hd, hstored, hnode, hchild⟩ := hp
  obtain ⟨heap, t', hgo⟩ : ∃ heap t', t.goTo side env.undef s.heap = some (heap, t', false) := by
    simp only [BTreeTraverse.goTo, hnode, hchild]
    exact ⟨_, _, rfl⟩
  have hrows : observe c ⟨env, .addContinue id request, s, response, s'⟩ = c ++ [(t'.path, s.database.adds.length)] := by
    simp only [observe, hd, BTreeTraverseHolder.getTraverse_of_stored hstored, hgo]
  obtain ⟨requestAdd, row, -, -, rfl⟩ := h.of_ended hd hstored hgo
  obtain ⟨r, -, -, hcurrent⟩ := hs.traverses _ t hstored
  refine ⟨⟨t'.path, _, hrows, Database.add_adds .., rfl⟩, r.database, r.table, ?_⟩
  exact (hr.mem_ended hgo _ _).mpr (.inr ⟨rfl, hcurrent⟩)

theorem Planted.newNode {s s' : Server × Rows} {a : Message × Env} (hs : Planted s) (hp : s.1.Plants a.1)
    (h : served observe s a = some s') : NewNode a.2 s s' := by
  obtain ⟨_, c⟩ := s
  obtain ⟨_, _⟩ := a
  obtain ⟨⟨env, message, s, response, after⟩, rfl, rfl, rfl, hh, rfl⟩ := served_some h
  cases message with
  | add id request => exact hs.newNode_added hp hh
  | addContinue id request => exact hs.newNode_continued hp hh

end Rows

end Zql
