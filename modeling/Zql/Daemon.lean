/-
The workers of the daemon, step by step. `ZqlDaemon::run` starts its workers as
threads, and they share the forest with its nodes, the traversals in progress and
the tables; no lock guards any of them. Elsewhere a handler runs as one step. Here
it runs access by access, and the others may get in between any two: a root is
looked up in one step and created in another, a child is found missing in one step
and put there in another.

A handler that has found a traversal keeps the pointer while others work. So
traversals are objects here, and the holder has pointers to them. A `RequestGet`
touches nothing of this.
-/
import Zql.Protocol
import Zql.Lib.Runs

namespace Zql

open Dyadic (Side)

namespace Daemon

/-- What the workers share. -/
structure Shared where
  heap : Heap
  forest : BTreeForest
  /-- The traversals made so far, `none` once deleted. -/
  traverses : List (Option BTreeTraverse)
  /-- `_traverses`, with pointers. -/
  holder : Std.ExtTreeMap UInt32 (Option Nat)
  database : Database

namespace Shared

def init : Shared := ⟨[], ⟨∅⟩, [], ∅, ⟨[]⟩⟩

/-- The traversal a pointer points to. -/
def traverse? (s : Shared) (t : Nat) : Option BTreeTraverse := s.traverses[t]?.join

/-- A write through the pointer. -/
def write (s : Shared) (t : Nat) (traverse : BTreeTraverse) : Shared :=
  { s with traverses := s.traverses.set t (some traverse) }

/-- A call of `Database::add`. -/
def add (s : Shared) (env : Env) (request : RequestAdd) : Shared :=
  { s with database := (s.database.add env.mysql request.database request.table request.row).1 }

end Shared

/-- A message a worker handles: its id, the insert its client makes, and what the
handler will meet outside of the program. -/
structure Job where
  requestId : UInt32
  insert : RequestAdd
  env : Env

/-- The row of the insert with its code. -/
def Job.withCode (job : Job) (opeField : Str) (code : UInt64) : RequestAdd :=
  { job.insert with row := job.insert.row.insert opeField (formatPath code) }

/-- Where a worker stands in a handler: what it does next. -/
inductive Stage
  | add
  /-- `getTree` has returned a null pointer. -/
  | createTree (opeField opeValue : Str)
  | addRoot (opeField : Str)
  /-- `getTree` has returned a tree. -/
  | createTraverse (tree : Addr) (opeValue : Str)
  /-- `traverse->requestAdd() = request`. -/
  | keepRequest (t : Nat)
  | addContinue (request : RequestAddContinue)
  /-- `getTraverse` has returned a traversal. -/
  | goTo (side : Side) (initRequestId : UInt32) (t : Nat)
  /-- `goToLeft` or `goToRight` has found no child there. -/
  | newNode (side : Side) (initRequestId : UInt32) (t : Nat)
  | value (initRequestId : UInt32) (t : Nat)
  /-- The step has returned `false`. -/
  | addRow (initRequestId : UInt32) (t : Nat)
  | removeTraverse
  | send (response : Response)

/-- The next step of a handler, unless it follows a pointer it should not. -/
def Shared.advance (s : Shared) (job : Job) : Stage → Option (Shared × Stage)
  | .add =>
    match opeEntry job.insert.row with
    | none => some (s.add job.env job.insert, .send .addOk)
    | some (opeField, opeValue) =>
      match s.forest.getTree job.insert.database job.insert.table with
      | none => some (s, .createTree opeField opeValue)
      | some tree => some (s, .createTraverse tree opeValue)
  | .createTree opeField opeValue =>
    let (heap, forest) := BTreeForest.createTree s.heap s.forest job.insert.database job.insert.table opeValue
    some ({ s with heap, forest }, .addRoot opeField)
  | .addRoot opeField => some (s.add job.env (job.withCode opeField 9223372036854775808), .send .addOk)
  | .createTraverse tree opeValue =>
    let t := s.traverses.length
    some ({ s with
      traverses := s.traverses ++ [some (.new tree opeValue)]
      holder := s.holder.insert job.requestId (some t) }, .keepRequest t)
  | .keepRequest t =>
    (s.traverse? t).map fun traverse =>
      (s.write t { traverse with requestAdd := some job.insert }, .value job.requestId t)
  | .value initRequestId t =>
    (s.traverse? t).bind fun traverse => (traverse.value s.heap).map fun ciphertext =>
      (s, .send (.addTraverse { initRequestId, ciphertext }))
  | .addContinue request =>
    -- a missing key gets a null pointer
    let t := s.holder[request.initRequestId]?.join
    let s := { s with holder := s.holder.insertIfNew request.initRequestId none }
    match direction request.compareResult with
    | none => some (s, .send .addOk)
    | some side => t.map fun t => (s, .goTo side request.initRequestId t)
  | .goTo side initRequestId t =>
    (s.traverse? t).bind fun traverse => s.heap[traverse.current]?.map fun node =>
      let traverse := { traverse with path := pathStep side traverse.path, pathLength := traverse.pathLength + 1 }
      match node.child side with
      | some next => (s.write t { traverse with current := next }, .value initRequestId t)
      | none => (s.write t traverse, .newNode side initRequestId t)
  | .newNode side initRequestId t =>
    (s.traverse? t).bind fun traverse => s.heap[traverse.current]?.map fun node =>
      let newNode := s.heap.length
      let heap := s.heap.set traverse.current (node.setChild side newNode) ++ [BTreeNode.new traverse.ciphertext]
      let path := pathEnd job.env.undef traverse.path traverse.pathLength
      ({ s with heap }.write t { traverse with path, current := newNode }, .addRow initRequestId t)
  | .addRow _ t =>
    (s.traverse? t).bind fun traverse => traverse.requestAdd.map fun requestAdd =>
      let row := requestAdd.row.insert (opeFieldName requestAdd.row) (formatPath traverse.path)
      let requestAdd := { requestAdd with row }
      ((s.write t { traverse with requestAdd := some requestAdd }).add job.env requestAdd, .removeTraverse)
  | .removeTraverse =>
    let traverses :=
      match s.holder[job.requestId]?.join with
      | some t => s.traverses.set t none
      | none => s.traverses
    some ({ s with traverses, holder := s.holder.erase job.requestId }, .send .addOk)
  | .send _ => none

end Daemon

/-- The daemon, its workers and its clients. A worker without a handler waits
for a message. -/
structure Daemon where
  shared : Daemon.Shared
  workers : List (Option (Daemon.Job × Daemon.Stage))
  /-- The clients that have been shown a node, and are to answer. -/
  waiting : List Pending
  /-- The inserts answered with `ResponseAddOk`. -/
  acknowledged : List RequestAdd
  used : List UInt32

namespace Daemon

def workerCount : Nat := 30

/-- So many workers, none of which has a message. -/
def start (n : Nat) : Daemon := ⟨.init, List.replicate n none, [], [], []⟩

def init : Daemon := start workerCount

/-- What the worker `k` does next. -/
inductive Act
  | add (k : Nat) (id : UInt32) (request : RequestAdd) (env : Env)
  /-- It gets the answer of the `j`th client that waits. -/
  | addContinue (k : Nat) (id : UInt32) (j : Nat) (env : Env)
  | advance (k : Nat)

/-- The client gets the response, and the worker waits for the next message. -/
def reply (d : Daemon) (k : Nat) (job : Job) (response : Response) : Daemon :=
  let workers := d.workers.set k none
  match response with
  | .addTraverse r => { d with workers, waiting := d.waiting ++ [⟨r.initRequestId, job.insert, r.ciphertext⟩] }
  | _ => { d with workers, acknowledged := d.acknowledged ++ [job.insert] }

def step (answer : RequestAdd → Ciphertext → Int32) (d : Daemon) : Act → Option Daemon
  | .add k id request env =>
    match d.workers[k]? with
    | some none => some { d with workers := d.workers.set k (some (⟨id, request, env⟩, .add)), used := d.used ++ [id] }
    | _ => none
  | .addContinue k id j env =>
    match d.workers[k]?, d.waiting[j]? with
    | some none, some q =>
      let request := { initRequestId := q.initRequestId, compareResult := answer q.request q.ciphertext }
      some { d with
        workers := d.workers.set k (some (⟨id, q.request, env⟩, .addContinue request))
        waiting := d.waiting.eraseIdx j
        used := d.used ++ [id] }
    | _, _ => none
  | .advance k =>
    match d.workers[k]? with
    | some (some (job, .send response)) => some (d.reply k job response)
    | some (some (job, stage)) =>
      (d.shared.advance job stage).map fun (shared, stage) =>
        { d with shared, workers := d.workers.set k (some (job, stage)) }
    | _ => none

/-- What the handler has found missing is still missing where it puts it. -/
def Shared.Current (s : Shared) (job : Job) : Stage → Prop
  | .createTree _ _ => s.forest.getTree job.insert.database job.insert.table = none
  | .newNode side _ t => ∀ traverse node, s.traverse? t = some traverse → s.heap[traverse.current]? = some node →
      node.child side = none
  | _ => True

/-- No message has the id of another, and no worker is overtaken between a check
and what it does on it. -/
def Ordered (d : Daemon) : Act → Prop
  | .add _ id _ _ => id ∉ d.used
  | .addContinue _ id _ _ => id ∉ d.used
  | .advance k => ∀ job stage, d.workers[k]? = some (some (job, stage)) → d.shared.Current job stage

/-! ## A step of a handler -/

variable {answer : RequestAdd → Ciphertext → Int32} {d d' : Daemon} {k : Nat} {job : Job}

theorem step_add {id : UInt32} {request : RequestAdd} {env : Env} (h : step answer d (.add k id request env) = some d') :
    d.workers[k]? = some none ∧
      d' = { d with workers := d.workers.set k (some (⟨id, request, env⟩, .add)), used := d.used ++ [id] } := by
  simp only [step] at h
  split at h
  · next hk => exact ⟨hk, (Option.some.inj h).symm⟩
  · cases h

theorem step_addContinue {id : UInt32} {j : Nat} {env : Env}
    (h : step answer d (.addContinue k id j env) = some d') :
    ∃ q, d.workers[k]? = some none ∧ d.waiting[j]? = some q ∧
      d' = { d with
        workers := d.workers.set k (some (⟨id, q.request, env⟩,
          .addContinue { initRequestId := q.initRequestId, compareResult := answer q.request q.ciphertext }))
        waiting := d.waiting.eraseIdx j
        used := d.used ++ [id] } := by
  simp only [step] at h
  split at h
  · next q hk hj => exact ⟨q, hk, hj, (Option.some.inj h).symm⟩
  · cases h

theorem step_advance (h : step answer d (.advance k) = some d') :
    ∃ job stage, d.workers[k]? = some (some (job, stage)) ∧
      ((∃ response, stage = .send response ∧ d' = d.reply k job response) ∨
        ∃ s' stage', d.shared.advance job stage = some (s', stage') ∧
          d' = { d with shared := s', workers := d.workers.set k (some (job, stage')) }) := by
  simp only [step] at h
  split at h
  · next job response hk => exact ⟨job, _, hk, .inl ⟨response, rfl, (Option.some.inj h).symm⟩⟩
  · next job stage _ hk =>
    obtain ⟨⟨s', stage'⟩, hs, rfl⟩ := Option.map_eq_some_iff.mp h
    exact ⟨job, stage, hk, .inr ⟨s', stage', hs, rfl⟩⟩
  · cases h

end Daemon

end Zql
