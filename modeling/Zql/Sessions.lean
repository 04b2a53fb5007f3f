/-
What a worker's `Database` asks of MySQL, call by call. `get`, `execute` and
`add` each open a table, lock it, work on its handler and unlock it; the first
two close the tables of the thread then, and `add` closes none.

MySQL wants its calls in an order (`Turn`): rows are read only while an index
is, and read and written only while the table is locked. `Database` looks at
neither the lock nor the index that MySQL gives it, and so its calls come in that
order exactly if it is given both whenever a table opens (`sessions_in_turn`). The
tables that `add` has opened stay open until a lookup opens one.
-/
import Zql.Worker

namespace Zql

/-- What MySQL answers during a call of `get`, `execute` or `add`. -/
structure Answers extends Mysql where
  /-- What `mysql_lock_tables` returns, `none` for null. -/
  lock : Option Nat
  /-- `ha_index_init` returns 0. -/
  indexInit : Bool
  /-- The names of the table's fields. -/
  fields : List Str

/-- MySQL gives the lock and the index that a lookup asks for. -/
def Answers.grantsLookup (a : Answers) : Bool := !a.opens || (a.lock.isSome && a.indexInit)

/-- And the lock that `add` asks for. -/
def Answers.grantsAdd (a : Answers) : Bool := !a.opens || a.lock.isSome

/-- The calls that reach MySQL, with what it returned where that is used. -/
inductive MysqlCall
  | openTable (database table : Str) (forWrite opened : Bool)
  | lockTables (lock : Option Nat)
  /-- The key's text, stored into the record's key field. -/
  | storeKey (value : Str)
  | initTableHandle
  | indexOrRndEnd
  | indexInit (index : Int32) (begun : Bool)
  | indexReadMap
  | indexNextSame
  | writeRow (record : List (Str × Option Str))
  | commitStmt
  | unlockTables (lock : Option Nat)
  | closeThreadTables
  | releaseTransactionalLocks
  deriving DecidableEq

/-- The worker's `thd`: the lock it holds, and the calls so far. -/
structure Thd where
  lock : Option Nat
  calls : List MysqlCall

namespace Thd

def call (t : Thd) (c : MysqlCall) : Thd := { t with calls := t.calls ++ [c] }

/-- `initThread`. -/
def initThread : Thd := ⟨none, []⟩

def lockTables (a : Answers) (t : Thd) : Thd := { t.call (.lockTables a.lock) with lock := a.lock }

def unlockTables (t : Thd) : Thd := { (t.call .commitStmt).call (.unlockTables t.lock) with lock := none }

def deinitThread (t : Thd) : Thd := t.unlockTables

/-- The loop over the rows an index lookup finds, each followed by a call for
the next: whether there was one, and the result they fill. -/
def readRows : List (List (Str × Option Str)) → Thd → Bool × Row → (Bool × Row) × Thd
  | [], t, found => (found, t)
  | fields :: rows, t, (_, result) => readRows rows (t.call .indexNextSame) (true, Database.readFields result fields)

/-- `init_table_handle_for_HANDLER`, for a lookup that does not write. -/
def initHandle (t : Thd) (forWrite : Bool) : Thd := if forWrite then t else t.call .initTableHandle

/-- What `get` and `execute` do, unless the table does not open. -/
def lookup (a : Answers) (t : Thd) (databaseName tableName : Str) (forWrite : Bool) (index : Int32) (key : Str)
    (result : Row) : Option (Bool × Row) × Thd :=
  let t := t.call (.openTable databaseName tableName forWrite a.opens)
  if a.opens then
    let t := ((t.lockTables a).call (.storeKey key)).initHandle forWrite
    let t := ((t.call .indexOrRndEnd).call (.indexInit index a.indexInit)).call .indexReadMap
    let (found, t) := readRows (a.index key) t (false, result)
    let t := (t.call .indexOrRndEnd).unlockTables
    (some found, (t.call .closeThreadTables).call .releaseTransactionalLocks)
  else (none, t)

def get (a : Answers) (t : Thd) (databaseName tableName : Str) (pk : UInt64) (result : Row) : (Bool × Row) × Thd :=
  match t.lookup a databaseName tableName false 0 (Database.prepareKeybuf pk.toUInt32.toInt32) result with
  | (some found, t) => (found, t)
  | (none, t) => ((false, result), t)

/-- It prints what it finds. The index comes as a text, and is read by `atoi`. -/
def execute (atoi : Str → Int32) (a : Answers) (t : Thd) (databaseName tableName : Str) (forWrite : Bool) (index : Str)
    (value : Int32) : Int32 × Thd :=
  match t.lookup a databaseName tableName forWrite (atoi index) (Database.prepareKeybuf value) ∅ with
  | (some _, t) => (0, t)
  | (none, t) => (-1, t)

/-- The record of a row: a field without a column is null. -/
def record (fields : List Str) (row : Row) : List (Str × Option Str) := fields.map fun name => (name, row[name]?)

/-- A table that does not open is `return -1`, which is `true`. -/
def add (a : Answers) (t : Thd) (databaseName tableName : Str) (row : Row) : Bool × Thd :=
  let t := t.call (.openTable databaseName tableName true a.opens)
  if a.opens then
    let t := (t.lockTables a).call (.writeRow (record a.fields row))
    (a.writesRow, t.unlockTables)
  else (true, t)

end Thd

/-! ## The abstract database -/

theorem Thd.readRows_fst (rows : List (List (Str × Option Str))) (t : Thd) (found : Bool × Row) :
    (Thd.readRows rows t found).1 = (found.1 || !rows.isEmpty, rows.foldl Database.readFields found.2) := by
  induction rows generalizing t found with
  | nil => simp [Thd.readRows]
  | cons fields rows ih =>
    rw [Thd.readRows, ih]
    simp

/-- **A lookup finds what `Database.get` does.** -/
theorem Thd.get_fst (a : Answers) (t : Thd) (databaseName tableName : Str) (pk : UInt64) (result : Row) :
    (t.get a databaseName tableName pk result).1 = Database.get a.toMysql databaseName tableName pk result := by
  cases ho : a.opens with
  | true => simp [Thd.get, Thd.lookup, Database.get, ho, Thd.readRows_fst]
  | false => simp [Thd.get, Thd.lookup, Database.get, ho]

/-- **And a row is added as by `Database.add`.** -/
theorem Thd.add_fst (a : Answers) (t : Thd) (d : Database) (databaseName tableName : Str) (row : Row) :
    (t.add a databaseName tableName row).1 = (d.add a.toMysql databaseName tableName row).2 := by
  cases ho : a.opens <;> simp [Thd.add, Database.add, ho]

/-! ## Turns -/

/-- What MySQL's calls may come in: which tables are open, which lock is held,
and whether a handler's index is read. -/
structure Turn where
  opened : List (Str × Str × Bool)
  locked : Option Nat
  index : Option Int32
  deriving DecidableEq

namespace Turn

def init : Turn := ⟨[], none, none⟩

/-- The next call, when it is its turn. A lock or an index that MySQL does not give
is not held. -/
def on (s : Turn) : MysqlCall → Option Turn
  | .openTable database table forWrite opened =>
    if s.locked = none then some (if opened then { s with opened := s.opened ++ [(database, table, forWrite)] } else s)
    else none
  | .lockTables lock => if s.locked = none ∧ s.opened ≠ [] then some { s with locked := lock } else none
  | .storeKey _ | .initTableHandle => if s.locked.isSome ∧ s.index = none then some s else none
  | .indexOrRndEnd => if s.locked.isSome then some { s with index := none } else none
  | .indexInit index begun =>
    if s.locked.isSome ∧ s.index = none then some { s with index := if begun then some index else none } else none
  | .indexReadMap | .indexNextSame => if s.locked.isSome ∧ s.index.isSome then some s else none
  | .writeRow _ =>
    if s.locked.isSome ∧ s.index = none ∧ s.opened.getLast?.any (·.2.2) then some s else none
  | .commitStmt => if s.locked.isSome ∧ s.index = none then some s else none
  | .unlockTables lock =>
    if s.locked.isSome ∧ s.locked = lock ∧ s.index = none then some { s with locked := none } else none
  | .closeThreadTables => if s.locked = none then some { s with opened := [] } else none
  | .releaseTransactionalLocks => if s.locked = none ∧ s.opened = [] then some s else none

end Turn

namespace Thd

/-- The calls so far, taken one after the other. -/
def turn (t : Thd) : Option Turn := t.calls.foldlM Turn.on Turn.init

theorem turn_call {t : Thd} {s : Turn} (h : t.turn = some s) (c : MysqlCall) : (t.call c).turn = s.on c := by
  simp only [turn, call] at h ⊢
  rw [List.foldlM_append, h]
  simp

/-- The calls of `t` and then others. -/
def Extends (t t' : Thd) : Prop := t.calls <+: t'.calls

theorem Extends.refl (t : Thd) : Extends t t := List.prefix_refl _

theorem Extends.trans {t t' t'' : Thd} (h : Extends t t') (h' : Extends t' t'') : Extends t t'' :=
  List.IsPrefix.trans h h'

theorem Extends.call {t t' : Thd} (h : Extends t t') (c : MysqlCall) : Extends t (t'.call c) :=
  h.trans (List.prefix_append ..)

theorem Extends.lockTables {t t' : Thd} (h : Extends t t') (a : Answers) : Extends t (t'.lockTables a) :=
  h.call (.lockTables a.lock)

theorem Extends.unlockTables {t t' : Thd} (h : Extends t t') : Extends t t'.unlockTables :=
  (h.call .commitStmt).call (.unlockTables t'.lock)

theorem Extends.initHandle {t t' : Thd} (h : Extends t t') (forWrite : Bool) : Extends t (t'.initHandle forWrite) := by
  unfold Thd.initHandle
  split
  · exact h
  · exact h.call _

theorem Extends.readRows {t t' : Thd} (h : Extends t t') (rows : List (List (Str × Option Str))) (found : Bool × Row) :
    Extends t (Thd.readRows rows t' found).2 := by
  induction rows generalizing t' found with
  | nil => exact h
  | cons fields rows ih => exact ih (h.call .indexNextSame) _

theorem Extends.readMap {t t' : Thd} (h : Extends t t') (a : Answers) (forWrite : Bool) (index : Int32) :
    Extends t ((((t'.initHandle forWrite).call .indexOrRndEnd).call (.indexInit index a.indexInit)).call .indexReadMap) :=
  (((h.initHandle forWrite).call _).call _).call _

theorem Extends.close {t t' : Thd} (h : Extends t t') :
    Extends t (((t'.call .indexOrRndEnd).unlockTables.call .closeThreadTables).call .releaseTransactionalLocks) :=
  (((h.call _).unlockTables).call _).call _

/-- Calls out of turn stay so, whatever is called afterwards. -/
theorem Extends.turn {t t' : Thd} (h : Extends t t') (hturn : t.turn = none) : t'.turn = none := by
  obtain ⟨calls, hcalls⟩ := h
  rw [Thd.turn, ← hcalls, List.foldlM_append, show t.calls.foldlM Turn.on Turn.init = none from hturn]
  rfl

@[simp] theorem call_lock (t : Thd) (c : MysqlCall) : (t.call c).lock = t.lock := rfl

@[simp] theorem initHandle_lock (t : Thd) (forWrite : Bool) : (t.initHandle forWrite).lock = t.lock := by
  cases forWrite <;> rfl

@[simp] theorem readRows_lock (rows : List (List (Str × Option Str))) (t : Thd) (found : Bool × Row) :
    (readRows rows t found).2.lock = t.lock := by
  induction rows generalizing t found with
  | nil => rfl
  | cons fields rows ih => exact ih _ _

theorem lockTables_turn {t : Thd} {s : Turn} (a : Answers) (h : t.turn = some s) (hlocked : s.locked = none)
    (hopened : s.opened ≠ []) : (t.lockTables a).turn = some { s with locked := a.lock } :=
  (turn_call h (.lockTables a.lock)).trans (by simp [Turn.on, hlocked, hopened])

/-- **A lock is given back.** -/
theorem unlockTables_turn {t : Thd} {s : Turn} (h : t.turn = some s) (hheld : s.locked.isSome)
    (hlocked : s.locked = t.lock) (hindex : s.index = none) : t.unlockTables.turn = some { s with locked := none } := by
  have hcommit : (t.call .commitStmt).turn = some s := (turn_call h _).trans (by simp [Turn.on, hheld, hindex])
  exact (turn_call hcommit (.unlockTables t.lock)).trans (by simp [Turn.on, hlocked ▸ hheld, hlocked, hindex])

theorem initHandle_turn {t : Thd} {s : Turn} (forWrite : Bool) (h : t.turn = some s) (hheld : s.locked.isSome)
    (hindex : s.index = none) : (t.initHandle forWrite).turn = some s := by
  unfold initHandle
  split
  · exact h
  · exact (turn_call h _).trans (by simp [Turn.on, hheld, hindex])

theorem readRows_turn {t : Thd} {s : Turn} (rows : List (List (Str × Option Str))) (found : Bool × Row)
    (h : t.turn = some s) (hheld : s.locked.isSome) (hindex : s.index.isSome) :
    (readRows rows t found).2.turn = some s := by
  induction rows generalizing t found with
  | nil => exact h
  | cons fields rows ih => exact ih _ ((turn_call h .indexNextSame).trans (by simp [Turn.on, hheld, hindex]))

/-! ## One operation -/

theorem lookup_extends (a : Answers) (t : Thd) (databaseName tableName : Str) (forWrite : Bool) (index : Int32)
    (key : Str) (result : Row) : Extends t (t.lookup a databaseName tableName forWrite index key result).2 := by
  have hopen := (Extends.refl t).call (.openTable databaseName tableName forWrite a.opens)
  unfold lookup
  split
  · have hkey := (hopen.lockTables a).call (.storeKey key)
    exact ((hkey.readMap a forWrite index).readRows (a.index key) (false, result)).close
  · exact hopen

theorem add_extends (a : Answers) (t : Thd) (databaseName tableName : Str) (row : Row) :
    Extends t (t.add a databaseName tableName row).2 := by
  have hopen := (Extends.refl t).call (.openTable databaseName tableName true a.opens)
  unfold add
  split
  · exact ((hopen.lockTables a).call _).unlockTables
  · exact hopen

/-- **A lookup** leaves no table open, unless it opens none. Its rows are read
out of turn when it has no lock or no index. -/
theorem lookup_turn {t : Thd} {opened : List (Str × Str × Bool)} (a : Answers) (databaseName tableName : Str)
    (forWrite : Bool) (index : Int32) (key : Str) (result : Row) (h : t.turn = some ⟨opened, none, none⟩) :
    (t.lookup a databaseName tableName forWrite index key result).2.turn =
      if a.grantsLookup then some ⟨if a.opens then [] else opened, none, none⟩ else none := by
  have hopen := turn_call h (.openTable databaseName tableName forWrite a.opens)
  cases ho : a.opens with
  | false =>
    rw [ho] at hopen
    simpa [lookup, ho, Answers.grantsLookup, Turn.on] using hopen
  | true =>
    rw [ho] at hopen
    have hlocked := lockTables_turn a hopen rfl (by simp)
    have hkey := turn_call hlocked (.storeKey key)
    cases hl : a.lock with
    | none =>
      have hdenied : (call _ (.storeKey key)).turn = none := hkey.trans (by simp [Turn.on, hl])
      have hafter := ((Extends.refl _).readMap a forWrite index |>.readRows (a.index key) (false, result)).close.turn hdenied
      simpa [lookup, ho, hl, Answers.grantsLookup] using hafter
    | some lock =>
      have hheld : a.lock.isSome := by simp [hl]
      have hkey := hkey.trans (if_pos ⟨hheld, rfl⟩)
      have hhandle := initHandle_turn forWrite hkey hheld rfl
      have hend := (turn_call hhandle .indexOrRndEnd).trans (if_pos hheld)
      have hindex := (turn_call hend (.indexInit index a.indexInit)).trans (if_pos ⟨hheld, rfl⟩)
      have hmap := turn_call hindex .indexReadMap
      cases hi : a.indexInit with
      | false =>
        have hdenied : (call _ .indexReadMap).turn = none := hmap.trans (by simp [Turn.on, hi])
        have hafter := ((Extends.refl _).readRows (a.index key) (false, result)).close.turn hdenied
        simpa [lookup, ho, hi, Answers.grantsLookup] using hafter
      | true =>
        have hmap := hmap.trans (if_pos ⟨hheld, by simp [hi]⟩)
        have hrows := readRows_turn (a.index key) (false, result) hmap hheld (by simp [hi])
        have hclose := (turn_call hrows .indexOrRndEnd).trans (if_pos hheld)
        have hdone := unlockTables_turn hclose hheld (by simp [lockTables]) rfl
        have hclosed := turn_call (turn_call hdone .closeThreadTables) .releaseTransactionalLocks
        simpa [lookup, ho, hi, hl, Answers.grantsLookup, Turn.on] using hclosed

/-- **A row added** leaves its table open, and is written out of turn without a
lock. -/
theorem add_turn {t : Thd} {opened : List (Str × Str × Bool)} (a : Answers) (databaseName tableName : Str) (row : Row)
    (h : t.turn = some ⟨opened, none, none⟩) :
    (t.add a databaseName tableName row).2.turn =
      if a.grantsAdd then some ⟨if a.opens then opened ++ [(databaseName, tableName, true)] else opened, none, none⟩
      else none := by
  have hopen := turn_call h (.openTable databaseName tableName true a.opens)
  cases ho : a.opens with
  | false =>
    rw [ho] at hopen
    simpa [add, ho, Answers.grantsAdd, Turn.on] using hopen
  | true =>
    rw [ho] at hopen
    have hlocked := lockTables_turn a hopen rfl (by simp)
    have hwritten := turn_call hlocked (.writeRow (record a.fields row))
    cases hl : a.lock with
    | none =>
      have hdenied : (call _ (.writeRow (record a.fields row))).turn = none := hwritten.trans (by simp [Turn.on, hl])
      simpa [add, ho, hl, Answers.grantsAdd] using (Extends.refl _).unlockTables.turn hdenied
    | some lock =>
      have hheld : a.lock.isSome := by simp [hl]
      have hwritten := hwritten.trans (if_pos ⟨hheld, rfl, by simp⟩)
      have hdone := unlockTables_turn hwritten hheld (by simp [lockTables]) rfl
      simpa [add, ho, hl, Answers.grantsAdd] using hdone

theorem deinitThread_turn {t : Thd} {opened : List (Str × Str × Bool)} (h : t.turn = some ⟨opened, none, none⟩) :
    t.deinitThread.turn = none := by
  have hcommit : (t.call .commitStmt).turn = none := (turn_call h _).trans (by simp [Turn.on])
  exact ((Extends.refl _).call (.unlockTables t.lock)).turn hcommit

theorem lookup_lock {t : Thd} (a : Answers) (databaseName tableName : Str) (forWrite : Bool) (index : Int32) (key : Str)
    (result : Row) (h : t.lock = none) : (t.lookup a databaseName tableName forWrite index key result).2.lock = none := by
  unfold lookup
  split
  · rfl
  · exact h

/-! ## Runs -/

/-- A call of the program's own, with MySQL's answers during it. -/
inductive Operation
  | get (a : Answers) (databaseName tableName : Str) (pk : UInt64) (result : Row)
  | execute (a : Answers) (databaseName tableName : Str) (forWrite : Bool) (index : Str) (value : Int32)
  | add (a : Answers) (databaseName tableName : Str) (row : Row)

def perform (atoi : Str → Int32) (t : Thd) : Operation → Thd
  | .get a databaseName tableName pk result => (t.get a databaseName tableName pk result).2
  | .execute a databaseName tableName forWrite index value =>
    (t.execute atoi a databaseName tableName forWrite index value).2
  | .add a databaseName tableName row => (t.add a databaseName tableName row).2

/-- MySQL gives what the operation asks for. -/
def granted : Operation → Bool
  | .get a _ _ _ _ | .execute a _ _ _ _ _ => a.grantsLookup
  | .add a _ _ _ => a.grantsAdd

/-- The tables left open: a lookup that opens one closes all. -/
def leaves (opened : List (Str × Str × Bool)) : Operation → List (Str × Str × Bool)
  | .get a _ _ _ _ | .execute a _ _ _ _ _ => if a.opens then [] else opened
  | .add a databaseName tableName _ => if a.opens then opened ++ [(databaseName, tableName, true)] else opened

theorem get_snd (a : Answers) (t : Thd) (databaseName tableName : Str) (pk : UInt64) (result : Row) :
    (t.get a databaseName tableName pk result).2 =
      (t.lookup a databaseName tableName false 0 (Database.prepareKeybuf pk.toUInt32.toInt32) result).2 := by
  unfold get
  split
  · next heq => rw [heq]
  · next heq => rw [heq]

theorem execute_snd (atoi : Str → Int32) (a : Answers) (t : Thd) (databaseName tableName : Str) (forWrite : Bool)
    (index : Str) (value : Int32) :
    (t.execute atoi a databaseName tableName forWrite index value).2 =
      (t.lookup a databaseName tableName forWrite (atoi index) (Database.prepareKeybuf value) ∅).2 := by
  unfold execute
  split
  · next heq => rw [heq]
  · next heq => rw [heq]

theorem perform_extends (atoi : Str → Int32) (t : Thd) (op : Operation) : Extends t (t.perform atoi op) := by
  cases op with
  | get a databaseName tableName pk result =>
    rw [perform, get_snd]
    exact lookup_extends ..
  | execute a databaseName tableName forWrite index value =>
    rw [perform, execute_snd]
    exact lookup_extends ..
  | add a databaseName tableName row => exact add_extends ..

theorem perform_turn {atoi : Str → Int32} {t : Thd} {opened : List (Str × Str × Bool)}
    (h : t.turn = some ⟨opened, none, none⟩) (op : Operation) :
    (t.perform atoi op).turn = if granted op then some ⟨leaves opened op, none, none⟩ else none := by
  cases op with
  | get a databaseName tableName pk result =>
    rw [perform, get_snd]
    exact lookup_turn (h := h) ..
  | execute a databaseName tableName forWrite index value =>
    rw [perform, execute_snd]
    exact lookup_turn (h := h) ..
  | add a databaseName tableName row => exact add_turn a databaseName tableName row h

theorem perform_lock {atoi : Str → Int32} {t : Thd} (h : t.lock = none) (op : Operation) :
    (t.perform atoi op).lock = none := by
  cases op with
  | get a databaseName tableName pk result =>
    rw [perform, get_snd]
    exact lookup_lock (h := h) ..
  | execute a databaseName tableName forWrite index value =>
    rw [perform, execute_snd]
    exact lookup_lock (h := h) ..
  | add a databaseName tableName row =>
    simp only [perform, add]
    split
    · rfl
    · exact h

theorem performs_extends (atoi : Str → Int32) (ops : List Operation) (t : Thd) :
    Extends t (ops.foldl (perform atoi) t) := by
  induction ops generalizing t with
  | nil => exact .refl t
  | cons op ops ih => exact (perform_extends atoi t op).trans (ih _)

theorem performs_lock (atoi : Str → Int32) (ops : List Operation) {t : Thd} (h : t.lock = none) :
    (ops.foldl (perform atoi) t).lock = none := by
  induction ops generalizing t with
  | nil => exact h
  | cons op ops ih => exact ih (perform_lock h op)

theorem performs_turn {atoi : Str → Int32} {t : Thd} {opened : List (Str × Str × Bool)}
    (h : t.turn = some ⟨opened, none, none⟩) (ops : List Operation) :
    (ops.foldl (perform atoi) t).turn = if ops.all granted then some ⟨ops.foldl leaves opened, none, none⟩ else none := by
  induction ops generalizing t opened with
  | nil => exact h
  | cons op ops ih =>
    have hop := @perform_turn atoi t opened h op
    cases hg : granted op with
    | true =>
      rw [hg] at hop
      simpa [hg] using ih hop
    | false =>
      rw [hg] at hop
      simpa [hg] using (performs_extends atoi ops _).turn hop

/-- **MySQL's calls come in turn** exactly when it gives each of `get`, `execute`
and `add` whose table opens its lock, and each lookup its index. In whatever order
they are called, those tables are open then that `add` has opened since a lookup
last opened one; a worker ends up without a lock in any case, and `deinitThread`
gives back one it does not hold. -/
theorem sessions_in_turn (atoi : Str → Int32) (ops : List Operation) :
    (ops.foldl (perform atoi) initThread).turn =
        (if ops.all granted then some ⟨ops.foldl leaves [], none, none⟩ else none) ∧
      (ops.foldl (perform atoi) initThread).lock = none ∧
      (ops.foldl (perform atoi) initThread).deinitThread.turn = none := by
  have hturn := @performs_turn atoi initThread [] rfl ops
  refine ⟨hturn, performs_lock atoi ops rfl, ?_⟩
  split at hturn
  · exact deinitThread_turn hturn
  · exact (Extends.refl _).unlockTables.turn hturn

end Thd

end Zql
