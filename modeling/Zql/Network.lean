/-
The client, the server, and what is between them: byte strings. An executor's
message is serialized into an output of 10000 bytes and handed to the socket;
a worker parses what it receives, answers the requests it finds in it, and its
answers go back as bytes; the client parses those, and calls its executors.
Messages arrive in any order, and any number of executors is on its way. A worker
that has nothing to reply receives nothing more (`Pool.workers_lost`). What a
`ResponseAddTraverse` shows of a node is what stands where the node's string was, an
input of the step.

Beside the bytes this keeps whose `OnSuccess` has been called, as the row the
executor was made for.
-/
import Zql.Daemon
import Zql.Letters
import Zql.MainLoop
import Zql.Progress
import Zql.Sockets
import Zql.Stale

namespace Zql

open Transition

open Client (Main InsertExecutor)

open Strings (Intact Remains)

namespace Strings

/-- `Worker.answer`, over the strings. -/
def answer (env : Nat → Env) (remains : Nat → Remains) (w : Worker × Strings) (wrapper : RequestWrapper) :
    Except Fault (Worker × Strings) :=
  let call := w.1.sent.length
  let handle (message : Message) : Except Fault (Worker × Strings) :=
    (serve (env call) (remains call) (w.1.server, w.2) message).map fun (s, sent) =>
      (⟨s.1, w.1.sent ++ [sent]⟩, s.2)
  match wrapper.request with
  | .get request => .ok ({ w.1 with sent := w.1.sent ++ [onRequestGet (env call) wrapper.id request] }, w.2)
  | .add request => handle (.add wrapper.id request)
  | .addContinue request => handle (.addContinue wrapper.id request)

/-- `Worker.call`, over the strings. -/
def call (env : Nat → Env) (remains : Nat → Remains) (w : Worker × Strings) :
    ObjectCall → Except Fault (Worker × Strings)
  | .message (.request wrapper) => answer env remains w wrapper
  | .message (.response _) => .ok w
  | .error _ => .ok w

/-- `Worker.pass`, over the strings. -/
def pass (env : Nat → Env) (remains : Nat → Remains) (fuel : Nat) (s : Server × Strings) (data : List UInt8) :
    Option (Except (ObjectParser.Failure Fault) (CborEnd × ObjectParser × Worker × Strings)) :=
  ObjectParser.run (call env remains) fuel .new data (⟨s.1, []⟩, s.2)

theorem call_plain (env : Nat → Env) (remains : Nat → Remains) {w : Worker × Strings} {w' : Worker}
    (h : (w.1.server, w.1.sent.length) = (w'.server, w'.sent.length)) (c : ObjectCall) :
    (call env remains w c).map (fun w => (w.1.server, w.1.sent.length)) =
      (Worker.call env w' c).map fun w => (w.server, w.sent.length) := by
  obtain ⟨⟨s, sent⟩, strings⟩ := w
  obtain ⟨s', sent'⟩ := w'
  obtain ⟨rfl, hlength⟩ := Prod.mk.inj h
  dsimp only at hlength
  match c with
  | .error _ => exact congrArg Except.ok h
  | .message (.response _) => exact congrArg Except.ok h
  | .message (.request ⟨id, .get request⟩) =>
    simp only [call, answer, Worker.call, Worker.answer, Except.map, List.length_append, hlength]
  | .message (.request ⟨id, .add request⟩) =>
    simp only [call, answer, serve, Server.serve, Message.id, Worker.call, Worker.answer, hlength]
    cases onRequestAdd (env sent'.length) s id request with
    | error e => rfl
    | ok r => simp [Except.map, hlength]
  | .message (.request ⟨id, .addContinue request⟩) =>
    simp only [call, answer, serve, Server.serve, Message.id, Worker.call, Worker.answer, hlength]
    cases onRequestAddContinue (env sent'.length) s id request with
    | error e => rfl
    | ok r => simp [Except.map, hlength]

/-- **What nodes show makes no difference to a pass** but in the bytes it sends:
it ends as the worker's does, with the same server and as many responses. -/
theorem pass_plain (env : Nat → Env) (remains : Nat → Remains) (fuel : Nat) (s : Server × Strings) (data : List UInt8) :
    (pass env remains fuel s data).map (fun result =>
        (ObjectParser.seen result).map (Prod.map id fun w => (w.1.server, w.1.sent.length))) =
      (Worker.pass env fuel s.1 data).map fun result =>
        (ObjectParser.seen result).map (Prod.map id fun w => (w.server, w.sent.length)) :=
  ObjectParser.run_alike (fun _ _ c h => call_plain env remains h c) fuel .new .new 0 0 data rfl

end Strings

/-- No traversal has gone deeper than 63 steps. -/
def Server.Shallow (s : Server) : Prop := ∀ e ∈ s.holder.traverses.toList, ∀ t ∈ e.2, t.pathLength ≤ 63

instance (s : Server) : Decidable s.Shallow :=
  inferInstanceAs (Decidable (∀ e ∈ s.holder.traverses.toList, ∀ t ∈ e.2, t.pathLength ≤ 63))

structure Network where
  main : Main
  server : Server
  strings : Strings
  /-- On their way to the server. -/
  requests : List (List UInt8)
  /-- On their way to the client. -/
  responses : List (List UInt8)
  /-- The workers that owe a reply, and receive nothing more. -/
  stuck : Nat
  /-- The inserts whose executors have been called with `OnSuccess`. -/
  acknowledged : List RequestAdd

namespace Network

def init : Network := ⟨.init, .init, .init, [], [], 0, []⟩

/-- The bytes of a message of the client. -/
def outgoing (wrapper : RequestWrapper) : List UInt8 := (wrapper.serialize (.new (.new 10000))).output.data

/-- The inserts of the `RequestAdd`s among the requests sent. -/
def begun (sent : List RequestWrapper) : List RequestAdd :=
  sent.filterMap fun wrapper =>
    match wrapper.request with
    | .add request => some request
    | _ => none

theorem begun_append (sent sent' : List RequestWrapper) : begun (sent ++ sent') = begun sent ++ begun sent' :=
  List.filterMap_append ..

/-- What the client has sent since. -/
def sentSince (m m' : Main) : List (List UInt8) := (m'.sent.drop m.sent.length).map outgoing

/-- Whose `OnSuccess` has been called since. -/
def finishedSince (m m' : Main) : List RequestAdd :=
  (m'.successes.drop m.successes.length).filterMap fun a => (m.heap[a]?.join).map InsertExecutor.run

inductive Act
  /-- The client queues, takes over or runs executors. -/
  | client (a : Main.Act)
  /-- A worker receives the `k`th request on its way. -/
  | serve (k : Nat) (env : Nat → Env) (remains : Nat → Remains)
  /-- The client receives the `k`th response on its way. -/
  | receive (k : Nat)

inductive Steps (rand : Nat → UInt32) : Step Network Act
  | client {n : Network} {a : Main.Act} {main : Main} : (∀ c, a ≠ .receive c) → n.main.step rand a = .ok main →
      Steps rand n (.client a) { n with main, requests := n.requests ++ sentSince n.main main }
  | serve {n : Network} {k : Nat} {env : Nat → Env} {remains : Nat → Remains} {data : List UInt8} {fuel : Nat}
      {p : ObjectParser} {w : Worker × Strings} : n.stuck < Daemon.workerCount → n.requests[k]? = some data →
      Strings.pass env remains fuel (n.server, n.strings) data = some (.ok (.returned, p, w)) →
      Steps rand n (.serve k env remains)
        { n with
          server := w.1.server
          strings := w.2
          requests := n.requests.eraseIdx k
          responses := n.responses ++ (w.1.sent.take 1).map (·.data)
          stuck := n.stuck + if w.1.sent.isEmpty then 1 else 0 }
  | receive {n : Network} {k : Nat} {data : List UInt8} {fuel : Nat} {p : ObjectParser} {main : Main} :
      n.responses[k]? = some data →
      ObjectParser.run (Main.call rand) fuel .new data n.main = some (.ok (.returned, p, main)) →
      Steps rand n (.receive k)
        { n with
          main
          requests := n.requests ++ sentSince n.main main
          responses := n.responses.eraseIdx k
          acknowledged := n.acknowledged ++ finishedSince n.main main }

/-- The bytes of every node are still there when a worker looks. -/
def Sees (n : Network) : Act → Prop
  | .serve _ _ remains => ∀ i, Intact n.server.heap (remains i)
  | _ => True

/-- The steps after which no traversal has gone deeper than 63 steps. -/
def ShallowSteps (rand : Nat → UInt32) : Step Network Act := fun n a n' => Steps rand n a n' ∧ n'.server.Shallow

/-! ## Letters -/

/-- A message on its way, with what it is about. -/
inductive Letter
  | add (id : UInt32) (request : RequestAdd)
  | addContinue (id : UInt32) (q : Pending)
  | addOk (capacity : Int) (id : UInt32) (request : RequestAdd)
  | addTraverse (capacity : Int) (id : UInt32) (q : Pending)

namespace Letter

def wrapper : Letter → Wrapper
  | .add id request => .request ⟨id, .add request⟩
  | .addContinue id q =>
    .request ⟨id, .addContinue
      { initRequestId := q.initRequestId, compareResult := Client.answer q.request q.ciphertext }⟩
  | .addOk _ id _ => .response ⟨id, .addOk⟩
  | .addTraverse _ id q => .response ⟨id, .addTraverse { initRequestId := q.initRequestId, ciphertext := q.ciphertext }⟩

def capacity : Letter → Int
  | .add _ _ | .addContinue _ _ => 10000
  | .addOk capacity _ _ | .addTraverse capacity _ _ => capacity

def data (l : Letter) : List UInt8 := (l.wrapper.serialize (.new (.new l.capacity))).output.data

def id : Letter → UInt32
  | .add id _ | .addContinue id _ | .addOk _ id _ | .addTraverse _ id _ => id

/-- The insert it is about. -/
def request : Letter → RequestAdd
  | .add _ request | .addOk _ _ request => request
  | .addContinue _ q | .addTraverse _ _ q => q.request

/-- That insert, when it is on its way and the client has been shown a node. -/
def pending? : Letter → Option Pending
  | .addContinue _ q | .addTraverse _ _ q => some q
  | _ => none

def toServer : Letter → Bool
  | .add _ _ | .addContinue _ _ => true
  | _ => false

/-- An insert that has not reached the server yet. -/
def new? : Letter → Option RequestAdd
  | .add _ request => some request
  | _ => none

/-- An insert whose acknowledgement is on its way. -/
def done? : Letter → Option RequestAdd
  | .addOk _ _ request => some request
  | _ => none

end Letter

/-- Texts short enough for an `int` beside an output's capacity, and fewer
columns than an `int` tells apart. -/
def Modest (r : RequestAdd) : Prop := r.row.size < 2 ^ 32 ∧ ∀ c ∈ r.calls, c.payload.length < 2 ^ 30

/-- **A letter arrives as it was, or is lost.** -/
theorem Letter.whole_or_lost {l : Letter} (hcapacity : 0 ≤ l.capacity ∧ l.capacity < 2 ^ 30) (hmodest : Modest l.request)
    (hshown : ∀ q, l.pending? = some q → q.ciphertext.length < 2 ^ 30) :
    Delivers l.data [l.wrapper] ∨ Delivers l.data [] := by
  cases l with
  | add id request =>
    refine whole_or_nothing rfl hcapacity.1 hcapacity.2 (fun c hc => ?_) hmodest.1
    rcases List.mem_append.mp hc with hc | hc
    · fin_cases hc <;> simp [CborCall.payload]
    · exact hmodest.2 c hc
  | addContinue id q =>
    refine whole_or_nothing rfl hcapacity.1 hcapacity.2 (fun c hc => ?_) (by simp [wrapper, Wrapper.columns])
    fin_cases hc <;> simp [CborCall.payload]
  | addOk capacity id request =>
    refine whole_or_nothing rfl hcapacity.1 hcapacity.2 (fun c hc => ?_) (by simp [wrapper, Wrapper.columns])
    fin_cases hc <;> simp [CborCall.payload]
  | addTraverse capacity id q =>
    have hq := hshown q rfl
    refine whole_or_nothing rfl hcapacity.1 hcapacity.2 (fun c hc => ?_) (by simp [wrapper, Wrapper.columns])
    fin_cases hc <;> simp [CborCall.payload]
    exact hq

theorem Modest.value {r : RequestAdd} (h : Modest r) {value : Ciphertext} (hv : r.value? = some value) :
    value.length < 2 ^ 30 := by
  obtain ⟨entry, hentry, rfl⟩ := Option.map_eq_some_iff.mp hv
  refine h.2 (.string entry.2) (List.mem_append_right _ ?_)
  have hmem : entry ∈ r.row.toList := Std.ExtTreeMap.mem_toList_iff_getElem?_eq_some.mpr (opeEntry_some hentry).1
  exact List.mem_flatMap.mpr ⟨entry, hmem, by simp [entryCalls]⟩

end Network

end Zql
