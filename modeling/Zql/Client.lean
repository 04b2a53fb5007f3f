/-
The client's side of an insert: `InsertExecutor`, and the functions it
compares values with. It remembers the value of the last field whose name
ends in `_ope`, and compares the node it is shown with that.
-/
import Zql.Fields

namespace Zql

namespace Client

def encrypt (data : Str) : Str := data

def decrypt (data : Str) : Str := data

/-- -1, 0 or 1, as `std::string::compare` orders the two. -/
def compare (a b : Str) : Int32 :=
  match Ord.compare a b with
  | .lt => -1
  | .eq => 0
  | .gt => 1

structure InsertExecutor where
  database : Str
  table : Str
  row : Row
  opeValue : Str

/-- The constructor: each field whose name ends in `_ope` is encrypted. -/
def InsertExecutor.new (database table : Str) (row : Row) : InsertExecutor :=
  row.toList.foldl (fun e entry =>
    if hasEnding entry.1 opeEnding then
      { e with opeValue := entry.2, row := e.row.insert entry.1 (encrypt entry.2) }
    else e) ⟨database, table, row, []⟩

/-- What `Run` sends. -/
def InsertExecutor.run (e : InsertExecutor) : RequestAdd := { database := e.database, table := e.table, row := e.row }

def InsertExecutor.onResponseAddTraverse (e : InsertExecutor) (response : ResponseAddTraverse) : RequestAddContinue :=
  { initRequestId := response.initRequestId, compareResult := compare (decrypt response.ciphertext) e.opeValue }

/-- The compare result the executor of an insert answers a node's value with. -/
def answer (r : RequestAdd) (node : Ciphertext) : Int32 :=
  ((InsertExecutor.new r.database r.table r.row).onResponseAddTraverse
    { initRequestId := 0, ciphertext := node }).compareResult

theorem foldl_new {row : Row} {l : List (Str × Str)} (hl : ∀ entry ∈ l, row[entry.1]? = some entry.2)
    (e : InsertExecutor) (he : e.row = row) :
    l.foldl (fun e entry =>
      if hasEnding entry.1 opeEnding then
        { e with opeValue := entry.2, row := e.row.insert entry.1 (encrypt entry.2) }
      else e) e =
      { e with
        opeValue := ((l.filter fun entry => hasEnding entry.1 opeEnding).getLast?.map (·.2)).getD e.opeValue } := by
  induction l generalizing e with
  | nil => rfl
  | cons entry l ih =>
    rw [List.foldl_cons, List.filter_cons]
    by_cases hp : hasEnding entry.1 opeEnding
    · have hsame : e.row.insert entry.1 (encrypt entry.2) = row := by
        rw [he]
        exact insert_same (hl entry List.mem_cons_self)
      rw [if_pos hp, if_pos hp, hsame, ih (fun x hx => hl x (List.mem_cons_of_mem _ hx)) _ rfl]
      cases hf : l.filter fun entry => hasEnding entry.1 opeEnding with
      | nil => simp [he]
      | cons z zs => simp [List.getLast?_eq_some_getLast, he]
    · rw [if_neg hp, if_neg hp, ih (fun x hx => hl x (List.mem_cons_of_mem _ hx)) e he]

/-- **The executor of a row**: the row as it is, and the value of its last
such field. -/
theorem InsertExecutor.new_eq (database table : Str) (row : Row) :
    InsertExecutor.new database table row =
      ⟨database, table, row, ((opeEntries row).getLast?.map (·.2)).getD []⟩ :=
  foldl_new (fun _ h => Std.ExtTreeMap.mem_toList_iff_getElem?_eq_some.mp h) _ rfl

theorem InsertExecutor.run_new (database table : Str) (row : Row) :
    (InsertExecutor.new database table row).run = { database, table, row } := by
  rw [InsertExecutor.new_eq]
  rfl

theorem answer_eq {r : RequestAdd} {opeField opeValue : Str} (h : OneOpe r.row opeField opeValue)
    (node : Ciphertext) : answer r node = compare node opeValue := by
  rw [answer, InsertExecutor.new_eq, show opeEntries r.row = _ from h]
  rfl

end Client

end Zql
