/-
A pass of `Worker::run`: a message is received, parsed, and answered by the
handlers the parser calls. Nothing but a handler of a request sends, so a
pass sends as many responses as the message holds requests, where the
socket expects one.

A message that holds one request is answered by one response, unless it is
a step of a traversal that is not stored: then the handler follows a null
pointer (`lockstep_iff`).
-/
import Zql.Parsing
import Zql.Reading
import Zql.Service

namespace Zql

open Looping Scanning Transition

/-- A worker while it parses: the shared state, and what it has sent. -/
structure Worker where
  server : Server
  sent : List Sent

namespace Worker

def answer (env : Nat → Env) (w : Worker) (wrapper : RequestWrapper) : Except Fault Worker :=
  let env := env w.sent.length
  match wrapper.request with
  | .get request => .ok { w with sent := w.sent ++ [onRequestGet env wrapper.id request] }
  | .add request =>
    (onRequestAdd env w.server wrapper.id request).map fun (server, sent) => ⟨server, w.sent ++ [sent]⟩
  | .addContinue request =>
    (onRequestAddContinue env w.server wrapper.id request).map fun (server, sent) => ⟨server, w.sent ++ [sent]⟩

/-- The worker as a listener. Responses and errors are logged. -/
def call (env : Nat → Env) (w : Worker) : ObjectCall → Except Fault Worker
  | .message (.request wrapper) => w.answer env wrapper
  | .message (.response _) => .ok w
  | .error _ => .ok w

/-- The loop body of `run`, on a message received, for at most so many
passes of the reader. -/
def pass (env : Nat → Env) (fuel : Nat) (s : Server) (data : List UInt8) :
    Option (Except (ObjectParser.Failure Fault) (CborEnd × ObjectParser × Worker)) :=
  ObjectParser.run (call env) fuel .new data ⟨s, []⟩

end Worker

/-- The pass is done, and has sent one response. -/
def SendsOne (env : Nat → Env) (s : Server) (data : List UInt8) : Prop :=
  ∃ fuel p server sent, Worker.pass env fuel s data = some (.ok (.returned, p, ⟨server, [sent]⟩))

/-- The reader is done with the message, as far as it is up to it. -/
def ParsingTerminates (data : List UInt8) : Prop :=
  ∃ x, Returns (CborReader.body (always fun (_ : Unit) _ => ())) (.new (.new data), ()) (.ok (.returned, x))

def Wrapper.request? : Wrapper → Option RequestWrapper
  | .request wrapper => some wrapper
  | .response _ => none

/-- The requests a message holds. -/
def requests (data : List UInt8) : List RequestWrapper :=
  (messages (items (visible data))).filterMap Wrapper.request?

/-- A request other than a step of a traversal that is not stored. -/
def Answerable (s : Server) (wrapper : RequestWrapper) : Prop :=
  ∀ request, wrapper.request = .addContinue request → direction request.compareResult ≠ none →
    ∃ t, s.holder.traverses[request.initRequestId]? = some (some t)

/-- The message holds one request, and that can be answered. -/
def OneRequest (s : Server) (data : List UInt8) : Prop := ∃ wrapper, requests data = [wrapper] ∧ Answerable s wrapper

/-! ## The shared state -/

/-- The server after a message of any client. -/
def Server.step (s : Server) (a : Message × Env) : Option Server := (s.exchange a).map (·.after)

/-- Pointers point to nodes, and every traversal has its request. -/
structure Server.Sound (s : Server) : Prop where
  roots : ∀ (key : Str) (tree : Addr), s.forest.forest[key]? = some tree → tree < s.heap.length
  children : ∀ (a : Nat) (node : BTreeNode) side next, s.heap[a]? = some node → node.child side = some next →
    next < s.heap.length
  traverses : ∀ (k : UInt32) (t : BTreeTraverse), s.holder.traverses[k]? = some (some t) →
    t.current < s.heap.length ∧ t.requestAdd ≠ none

theorem Server.Sound.init : Server.init.Sound where
  roots := fun _ _ h => by simp [Server.init] at h
  children := fun _ _ _ _ h => by simp [Server.init] at h
  traverses := fun _ _ h => by simp [Server.init] at h

theorem Server.Sound.added {env : Env} {s s' : Server} {id : UInt32} {request : RequestAdd} {response : Response}
    (hs : s.Sound) (h : Added env s id request s' response) : s'.Sound := by
  cases h with
  | plain _ => exact ⟨hs.roots, hs.children, hs.traverses⟩
  | @root opeField opeValue hope htree =>
    refine ⟨fun key tree hroot => ?_, fun a node side next ha hc => ?_, fun k t ht => ?_⟩
    · simp only [List.length_append, List.length_singleton]
      rw [Std.ExtTreeMap.getElem?_insert] at hroot
      split at hroot
      · cases hroot
        exact Nat.lt_succ_self _
      · exact Nat.lt_succ_of_lt (hs.roots key tree hroot)
    · simp only [List.length_append, List.length_singleton]
      rcases Nat.lt_or_ge a s.heap.length with hlt | hge
      · rw [List.getElem?_append_left hlt] at ha
        exact Nat.lt_succ_of_lt (hs.children a node side next ha hc)
      · rw [List.getElem?_append_right hge] at ha
        obtain ⟨rfl⟩ := List.mem_singleton.mp (List.mem_of_getElem? ha)
        cases side <;> cases hc
    · obtain ⟨hcurrent, hrequest⟩ := hs.traverses k t ht
      simp only [List.length_append, List.length_singleton]
      exact ⟨Nat.lt_succ_of_lt hcurrent, hrequest⟩
  | @started opeField opeValue tree node hope htree hnode =>
    refine ⟨hs.roots, hs.children, fun k t ht => ?_⟩
    rcases BTreeTraverseHolder.update_cases ht with ⟨-, rfl⟩ | ⟨-, ht⟩
    · exact ⟨hs.roots _ tree htree, nofun⟩
    · exact hs.traverses k t ht

/-- The nodes after a child has been hung up: the child, its parent, and
those that were there. -/
theorem hung_cases {h : Heap} {a b : Addr} {parent child x : BTreeNode}
    (hx : (h.set a parent ++ [child])[b]? = some x) : x = child ∨ x = parent ∨ h[b]? = some x := by
  rcases Nat.lt_or_ge b (h.set a parent).length with hlt | hge
  · rw [List.getElem?_append_left hlt, List.getElem?_set] at hx
    split at hx
    · split at hx
      · exact .inr (.inl (Option.some.inj hx).symm)
      · cases hx
    · exact .inr (.inr hx)
  · rw [List.getElem?_append_right hge] at hx
    exact .inl (List.mem_singleton.mp (List.mem_of_getElem? hx))

theorem Server.Sound.continued {env : Env} {s s' : Server} {id : UInt32} {request : RequestAddContinue}
    {response : Response} (hs : s.Sound) (h : Continued env s id request s' response) : s'.Sound := by
  cases h with
  | equal _ =>
    exact ⟨hs.roots, hs.children, fun k t ht => hs.traverses k t ((BTreeTraverseHolder.getTraverse_stored ..).mp ht)⟩
  | @moved side t t' heap node hd ht hgo hnode =>
    obtain ⟨rfl, _, next, hcurrent, hnext, ht'⟩ := BTreeTraverse.goTo_moved hgo
    refine ⟨hs.roots, hs.children, fun k u hu => ?_⟩
    rcases BTreeTraverseHolder.update_cases hu with ⟨-, rfl⟩ | ⟨-, hu⟩
    · rw [ht']
      exact ⟨hs.children _ _ side next hcurrent hnext, (hs.traverses _ t ht).2⟩
    · exact hs.traverses k u hu
  | @ended side t t' heap requestAdd row hd ht hgo hr hrow =>
    obtain ⟨node, hnode, hchild, rfl, ht'⟩ := BTreeTraverse.goTo_ended hgo
    have hlength : (s.heap.set t.current (node.setChild side s.heap.length) ++ [BTreeNode.new t.ciphertext]).length =
        s.heap.length + 1 := by simp
    refine ⟨fun key tree hroot => ?_, fun a x side' next ha hc => ?_, fun k u hu => ?_⟩
    · rw [hlength]
      exact Nat.lt_succ_of_lt (hs.roots key tree hroot)
    · rw [hlength]
      rcases hung_cases ha with rfl | rfl | ha
      · cases side' <;> cases hc
      · have hnext : next = s.heap.length ∨ node.child side' = some next := by
          cases side <;> cases side'
          · exact .inl (Option.some.inj hc).symm
          · exact .inr hc
          · exact .inr hc
          · exact .inl (Option.some.inj hc).symm
        rcases hnext with rfl | hnext
        · exact Nat.lt_succ_self _
        · exact Nat.lt_succ_of_lt (hs.children _ node side' next hnode hnext)
      · exact Nat.lt_succ_of_lt (hs.children a x side' next ha hc)
    · rw [hlength]
      obtain ⟨-, hu⟩ := BTreeTraverseHolder.removeTraverse_cases hu
      rcases BTreeTraverseHolder.update_cases hu with ⟨-, rfl⟩ | ⟨-, hu⟩
      · rw [ht']
        exact ⟨Nat.lt_succ_self _, nofun⟩
      · obtain ⟨hcurrent, hrequest⟩ := hs.traverses k u hu
        exact ⟨Nat.lt_succ_of_lt hcurrent, hrequest⟩

theorem Server.Sound.reached {s : Server} {as : List (Message × Env)}
    (h : Runs (ofPartial Server.step) Server.init as s) : s.Sound := by
  refine h.invariant (fun s a s' hs hstep => ?_) Server.Sound.init
  obtain ⟨e, he, rfl⟩ := Option.map_eq_some_iff.mp hstep
  obtain ⟨-, -, rfl, hh⟩ := Server.exchange_some he
  unfold Exchange.Handled at hh
  split at hh
  · exact hs.added hh
  · exact hs.continued hh

/-! ## Passes -/

/-- Calls that are passed over do not matter to a fold. -/
theorem foldlM_filterMap {κ μ L E : Type} {call : L → κ → Except E L} {answer : L → μ → Except E L} {keep : κ → Option μ}
    (hskip : ∀ x c, keep c = none → call x c = .ok x) (hkeep : ∀ x c m, keep c = some m → call x c = answer x m)
    (calls : List κ) (x : L) : calls.foldlM call x = (calls.filterMap keep).foldlM answer x := by
  induction calls generalizing x with
  | nil => rfl
  | cons c calls ih =>
    cases hk : keep c with
    | none =>
      rw [List.foldlM_cons, hskip x c hk, List.filterMap_cons_none hk]
      exact ih x
    | some m =>
      rw [List.foldlM_cons, hkeep x c m hk, List.filterMap_cons_some hk, List.foldlM_cons]
      congr 1
      funext x'
      exact ih x'

theorem map_ok {E α β : Type} {x : Except E α} {f : α → β} {b : β} :
    x.map f = .ok b ↔ ∃ a, x = .ok a ∧ f a = b := by
  cases x with
  | error e => exact ⟨nofun, fun ⟨_, h, _⟩ => by cases h⟩
  | ok a =>
    constructor
    · intro h
      exact ⟨a, rfl, Except.ok.inj h⟩
    · rintro ⟨a', h, rfl⟩
      cases h
      rfl

namespace Worker

theorem answer_sent {env : Nat → Env} {w w' : Worker} {wrapper : RequestWrapper} (h : w.answer env wrapper = .ok w') :
    w'.sent.length = w.sent.length + 1 := by
  unfold answer at h
  split at h
  · cases h
    simp
  · obtain ⟨_, -, rfl⟩ := map_ok.mp h
    simp
  · obtain ⟨_, -, rfl⟩ := map_ok.mp h
    simp

theorem answers_sent {env : Nat → Env} {wrappers : List RequestWrapper} {w w' : Worker}
    (h : wrappers.foldlM (answer env) w = .ok w') : w'.sent.length = w.sent.length + wrappers.length := by
  induction wrappers generalizing w with
  | nil =>
    cases h
    rfl
  | cons wrapper wrappers ih =>
    rw [List.foldlM_cons] at h
    cases hw : w.answer env wrapper with
    | error e =>
      rw [hw] at h
      cases h
    | ok w₁ =>
      rw [hw] at h
      rw [ih h, answer_sent hw, List.length_cons]
      omega

theorem answer_addContinue_iff {env : Env} {s : Server} {id : UInt32} {request : RequestAddContinue} (hs : s.Sound) :
    (∃ done, onRequestAddContinue env s id request = .ok done) ↔
      (direction request.compareResult ≠ none → ∃ t, s.holder.traverses[request.initRequestId]? = some (some t)) := by
  constructor
  · rintro ⟨⟨s', sent⟩, hdone⟩ hd
    have hcontinued := onRequestAddContinue_continued hdone
    generalize sent.wrapper.response = response at hcontinued
    cases hcontinued with
    | equal hequal => exact absurd hequal hd
    | moved _ ht _ _ => exact ⟨_, ht⟩
    | ended _ ht _ _ _ => exact ⟨_, ht⟩
  · intro h
    by_cases hd : direction request.compareResult = none
    · simp only [onRequestAddContinue, hd]
      exact ⟨_, rfl⟩
    · obtain ⟨t, ht⟩ := h hd
      obtain ⟨hcurrent, hrequest⟩ := hs.traverses _ t ht
      obtain ⟨requestAdd, hr⟩ := Option.ne_none_iff_exists'.mp hrequest
      obtain ⟨s', sent, hdone⟩ := onRequestAddContinue_ok env id ht
        (List.getElem?_eq_getElem hcurrent) (fun side next => hs.children _ _ side next (List.getElem?_eq_getElem hcurrent))
        hr
      exact ⟨_, hdone⟩

/-- A request is answered unless it is a step of a traversal that is not
stored. -/
theorem answer_iff (env : Nat → Env) {w : Worker} {wrapper : RequestWrapper} (hs : w.server.Sound) :
    (∃ w', w.answer env wrapper = .ok w') ↔ Answerable w.server wrapper := by
  unfold answer Answerable
  cases wrapper.request with
  | get request => exact ⟨fun _ => nofun, fun _ => ⟨_, rfl⟩⟩
  | add request =>
    refine ⟨fun _ => nofun, fun _ => ?_⟩
    obtain ⟨s', sent, h⟩ := onRequestAdd_ok (env w.sent.length) wrapper.id fun tree htree =>
      hs.roots (BTreeForest.id request.database request.table) tree htree
    exact ⟨_, map_ok.mpr ⟨_, h, rfl⟩⟩
  | addContinue request =>
    constructor
    · rintro ⟨w', h⟩ _ he
      cases he
      obtain ⟨done, hdone, -⟩ := map_ok.mp h
      exact (answer_addContinue_iff hs).mp ⟨done, hdone⟩
    · intro h
      obtain ⟨done, hdone⟩ := (answer_addContinue_iff hs).mpr (h request rfl)
      exact ⟨_, map_ok.mpr ⟨done, hdone, rfl⟩⟩

/-- **What a worker makes of items**: the requests they hold, answered one after
the other. -/
theorem listens (env : Nat → Env) (w : Worker) (events : List CborEvent) :
    ∃ p, events.foldlM (ObjectParser.listen (call env)) (ObjectParser.new, w) =
      match ((messages events).filterMap Wrapper.request?).foldlM (answer env) w with
      | .ok w' => .ok (p, w')
      | .error e => .error (.listener e) := by
  obtain ⟨p, calls, hfeed, hcalls⟩ := ObjectParser.feeds (p := .new) rfl events
  have hfold : calls.foldlM (call env) w = ((messages events).filterMap Wrapper.request?).foldlM (answer env) w := by
    rw [← hcalls, List.filterMap_filterMap]
    refine foldlM_filterMap (fun w c hc => ?_) (fun w c wrapper hc => ?_) calls _
    · match c with
      | .message (.request _) => cases hc
      | .message (.response _) => rfl
      | .error _ => rfl
    · match c with
      | .message (.request _) =>
        cases hc
        rfl
      | .message (.response _) => cases hc
      | .error _ => cases hc
  refine ⟨p, ?_⟩
  rw [ObjectParser.foldlM_listen (call env) hfeed, hfold]
  cases ((messages events).filterMap Wrapper.request?).foldlM (answer env) w <;> rfl

/-- **What a pass over a readable message comes to.** -/
theorem pass_returns (env : Nat → Env) (s : Server) {data : List UInt8} (h : Readable (visible data)) :
    ∃ p, ∀ r, (∃ fuel, pass env fuel s data = some r) ↔
      r = match (requests data).foldlM (answer env) ⟨s, []⟩ with
        | .ok w => .ok (.returned, p, w)
        | .error e => .error (.listener e) := by
  obtain ⟨p, hlistens⟩ := listens env ⟨s, []⟩ (items (visible data))
  have hrun := run_readable (ObjectParser.listen (call env)) h (ObjectParser.new, ⟨s, []⟩)
  rw [told, hlistens, ← requests] at hrun
  refine ⟨p, fun r => ⟨fun hr => ?_, fun hr => ?_⟩⟩
  · rw [Returns.unique hr hrun]
    cases (requests data).foldlM (answer env) ⟨s, []⟩ <;> rfl
  · rw [hr]
    cases hw : (requests data).foldlM (answer env) ⟨s, []⟩ <;> rw [hw] at hrun <;> exact hrun

end Worker

/-- **A pass is done and has sent one response exactly when the message
holds one request, and that is not a step of a traversal that is not
stored.** -/
theorem lockstep_iff (env : Nat → Env) {s : Server} {as : List (Message × Env)} {data : List UInt8}
    (hs : Runs (ofPartial Server.step) Server.init as s) (hdata : ParsingTerminates data) :
    SendsOne env s data ↔ OneRequest s data := by
  obtain ⟨x, hreturns⟩ := hdata
  obtain ⟨p, hpass⟩ := Worker.pass_returns env s (readable_of_returns hreturns)
  have hsound := Server.Sound.reached hs
  have hone : ∀ wrapper, requests data = [wrapper] →
      (requests data).foldlM (Worker.answer env) ⟨s, []⟩ = Worker.answer env ⟨s, []⟩ wrapper := by
    intro wrapper h
    rw [h, List.foldlM_cons]
    cases Worker.answer env ⟨s, []⟩ wrapper <;> rfl
  constructor
  · rintro ⟨fuel, p', server, sent, hrun⟩
    have hr := (hpass _).mp ⟨fuel, hrun⟩
    cases hfold : (requests data).foldlM (Worker.answer env) ⟨s, []⟩ with
    | error e =>
      rw [hfold] at hr
      cases hr
    | ok w =>
      rw [hfold] at hr
      cases hr
      have hcount := Worker.answers_sent hfold
      obtain ⟨wrapper, hw⟩ := List.length_eq_one_iff.mp (by simpa using hcount.symm)
      rw [hone wrapper hw] at hfold
      exact ⟨wrapper, hw, (Worker.answer_iff env (w := ⟨s, []⟩) hsound).mp ⟨_, hfold⟩⟩
  · rintro ⟨wrapper, hw, hanswerable⟩
    obtain ⟨⟨server, sent⟩, hdone⟩ := (Worker.answer_iff env (w := ⟨s, []⟩) hsound).mpr hanswerable
    have hcount := Worker.answer_sent hdone
    obtain ⟨response, rfl⟩ := List.length_eq_one_iff.mp hcount
    obtain ⟨fuel, hrun⟩ := (hpass (.ok (.returned, p, ⟨server, [response]⟩))).mpr (by rw [hone wrapper hw, hdone])
    exact ⟨fuel, p, server, response, hrun⟩

/-- A `RequestAddContinue` under id 1 of the insert 2, with the result 0. -/
def equalMessage : List UInt8 := [0xD9, 0x03, 0xE8, 0x82, 0x01, 0xD9, 0x0C, 0x1C, 0x82, 0x02, 0x00]

theorem lockstep_iff_equal :
    SendsOne (fun _ => .calm) Server.init equalMessage ∧
      (SendsOne (fun _ => .calm) Server.init equalMessage ↔ OneRequest Server.init equalMessage) :=
  ⟨⟨60, _, _, _, rfl⟩, lockstep_iff _ .nil ⟨(), 60, rfl⟩⟩

/-- An empty message is not answered, and two requests in one are answered
twice. -/
theorem out_of_step :
    (ParsingTerminates [] ∧ ¬ SendsOne (fun _ => .calm) Server.init []) ∧
      ParsingTerminates (equalMessage ++ equalMessage) ∧
      ¬ SendsOne (fun _ => .calm) Server.init (equalMessage ++ equalMessage) := by
  refine ⟨⟨⟨(), 1, rfl⟩, ?_⟩, ⟨(), 60, rfl⟩, ?_⟩
  · rintro ⟨fuel, p, server, sent, hrun⟩
    have hnone : Worker.pass (fun _ => .calm) 1 Server.init [] = some (.ok (.returned, _, ⟨_, []⟩)) := rfl
    cases Returns.unique ⟨fuel, hrun⟩ ⟨1, hnone⟩
  · rintro ⟨fuel, p, server, sent, hrun⟩
    have htwo : Worker.pass (fun _ => .calm) 60 Server.init (equalMessage ++ equalMessage) =
        some (.ok (.returned, _, ⟨_, [_, _]⟩)) := rfl
    cases Returns.unique ⟨fuel, hrun⟩ ⟨60, htwo⟩

end Zql
