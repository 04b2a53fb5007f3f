/-
Whose bytes a ciphertext has. In a node a `Ciphertext` is the bytes it was made
from; in the source it is a pointer to them. `OnRequestAdd` makes it of its local
string `opeValue`, and the nodes and traversals keep the pointer. The string's
buffer goes with the string, when the call returns.

So no node ever has its value when it is looked at: whatever messages come, what
`value()` points to when a `ResponseAddTraverse` is serialized is the buffer of a
call that has returned (`ciphertexts_dangle`). What a client is sent for a node is
as many bytes as its value had, from what is there now: an input of the handler
(`serve_ok`).
-/
import Zql.Service

namespace Zql

open Transition

/-- The strings that ciphertexts point into. -/
structure Strings where
  /-- The `opeValue`s, `none` once the call has returned. -/
  strings : List (Option Str)
  /-- The string of each node's ciphertext. -/
  nodes : List Nat
  /-- And of the ciphertext a traversal is to insert. -/
  traverses : UInt32 → Nat
  /-- What `value()` had when it was serialized. -/
  reads : List (Option Str)

namespace Strings

def init : Strings := ⟨[], [], fun _ => 0, []⟩

/-- The bytes of a node's ciphertext, `none` if they are gone. -/
def bytes? (c : Strings) (a : Addr) : Option Str := (c.nodes[a]?.bind (c.strings[·]?)).join

/-- `OnRequestAdd` has found the field. -/
def enter (c : Strings) (opeValue : Str) : Strings := { c with strings := c.strings ++ [some opeValue] }

/-- It returns. -/
def leave (c : Strings) : Strings := { c with strings := c.strings.dropLast ++ [none] }

/-- A node gets a ciphertext. -/
def keep (c : Strings) (string : Nat) : Strings := { c with nodes := c.nodes ++ [string] }

/-- `value()` of a node goes into the response. -/
def read (c : Strings) (a : Addr) : Strings := { c with reads := c.reads ++ [c.bytes? a] }

/-- What a handler does to them. The branch of `onRequestAddContinue` is told by
whether a node was made, and by the answer. -/
def observe (c : Strings) (e : Exchange) : Strings :=
  match e.message with
  | .add id request =>
    match opeEntry request.row with
    | none => c
    | some (_, opeValue) =>
      let string := c.strings.length
      let c := c.enter opeValue
      let c :=
        match e.before.forest.getTree request.database request.table with
        | none => c.keep string
        | some tree => { c with traverses := Function.update c.traverses id string }.read tree
      c.leave
  | .addContinue _ request =>
    if e.before.heap.length < e.after.heap.length then c.keep (c.traverses request.initRequestId)
    else
      match e.response, e.after.holder.traverses[request.initRequestId]? with
      | .addTraverse _, some (some t) => c.read t.current
      | _, _ => c

theorem strings_old {c : Strings} {i : Nat} {string : Option Str} (h : c.strings[i]? = some none) :
    (c.strings ++ [string])[i]? = some none := by
  rw [List.getElem?_append_left (List.getElem?_eq_some_iff.mp h).1]
  exact h

theorem bytes?_gone {c : Strings} (h : ∀ i ∈ c.nodes, c.strings[i]? = some none) (a : Addr) : c.bytes? a = none := by
  rw [bytes?]
  cases ha : c.nodes[a]? with
  | none => rfl
  | some i => rw [Option.bind_some, h i (List.mem_of_getElem? ha), Option.join_some]

/-- Between the calls no string is left, and none was while a node was read. -/
structure Gone (s : Server × Strings) : Prop where
  length : s.2.nodes.length = s.1.heap.length
  nodes : ∀ i ∈ s.2.nodes, s.2.strings[i]? = some none
  traverses : ∀ k t, s.1.holder.traverses[k]? = some (some t) → s.2.strings[s.2.traverses k]? = some none
  reads : ∀ bytes ∈ s.2.reads, bytes = none

theorem Gone.init : Gone (Server.init, init) where
  length := rfl
  nodes := by simp [Strings.init]
  traverses := by simp [Server.init]
  reads := by simp [Strings.init]

theorem Gone.added {env : Env} {s s' : Server} {c : Strings} {id : UInt32} {request : RequestAdd} {response : Response}
    (hg : Gone (s, c)) (h : Added env s id request s' response) :
    Gone (s', observe c ⟨env, .add id request, s, response, s'⟩) := by
  cases h with
  | plain hope =>
    simp only [observe, hope]
    exact ⟨hg.length, hg.nodes, hg.traverses, hg.reads⟩
  | @root opeField opeValue hope htree =>
    simp only [observe, hope, htree, keep, enter, leave, List.dropLast_concat]
    refine ⟨?_, fun i hi => ?_, fun k t ht => strings_old (hg.traverses k t ht), hg.reads⟩
    · simpa using hg.length
    · rcases List.mem_append.mp hi with hi | hi
      · exact strings_old (hg.nodes i hi)
      · rw [List.mem_singleton.mp hi]
        simp
  | @started opeField opeValue tree node hope htree hnode =>
    simp only [observe, hope, htree, read, enter, leave, List.dropLast_concat]
    refine ⟨hg.length, fun i hi => strings_old (hg.nodes i hi), fun k t ht => ?_, fun bytes hb => ?_⟩
    · rcases BTreeTraverseHolder.update_cases ht with ⟨rfl, -⟩ | ⟨hne, ht⟩
      · simp
      · simp only [Function.update_of_ne hne]
        exact strings_old (hg.traverses k t ht)
    · rcases List.mem_append.mp hb with hb | hb
      · exact hg.reads bytes hb
      · rw [List.mem_singleton.mp hb]
        refine bytes?_gone ?_ tree
        exact fun i hi => strings_old (hg.nodes i hi)

theorem Gone.continued {env : Env} {s s' : Server} {c : Strings} {id : UInt32} {request : RequestAddContinue}
    {response : Response} (hg : Gone (s, c)) (h : Continued env s id request s' response) :
    Gone (s', observe c ⟨env, .addContinue id request, s, response, s'⟩) := by
  cases h with
  | equal _ =>
    simp only [observe, Nat.lt_irrefl, if_false]
    exact ⟨hg.length, hg.nodes, fun k t ht => hg.traverses k t ((BTreeTraverseHolder.getTraverse_stored ..).mp ht), hg.reads⟩
  | @moved side t t' heap node hd hstored hgo hnode =>
    obtain ⟨rfl, -⟩ := BTreeTraverse.goTo_moved hgo
    simp only [observe, Nat.lt_irrefl, if_false, BTreeTraverseHolder.update_self, read]
    refine ⟨hg.length, hg.nodes, fun k u hu => ?_, fun bytes hb => ?_⟩
    · rcases BTreeTraverseHolder.update_cases hu with ⟨rfl, -⟩ | ⟨-, hu⟩
      · exact hg.traverses _ t hstored
      · exact hg.traverses k u hu
    · rcases List.mem_append.mp hb with hb | hb
      · exact hg.reads bytes hb
      · rw [List.mem_singleton.mp hb]
        exact bytes?_gone hg.nodes _
  | @ended side t t' heap requestAdd row hd hstored hgo hr hrow =>
    obtain ⟨node, -, -, rfl, -⟩ := BTreeTraverse.goTo_ended hgo
    have hmade : s.heap.length < (s.heap.set t.current (node.setChild side s.heap.length) ++
        [BTreeNode.new t.ciphertext]).length := by simp
    simp only [observe, hmade, if_true, keep]
    refine ⟨?_, fun i hi => ?_, fun k u hu => ?_, hg.reads⟩
    · simpa using hg.length
    · rcases List.mem_append.mp hi with hi | hi
      · exact hg.nodes i hi
      · rw [List.mem_singleton.mp hi]
        exact hg.traverses _ t hstored
    · obtain ⟨-, hu⟩ := BTreeTraverseHolder.removeTraverse_cases hu
      rcases BTreeTraverseHolder.update_cases hu with ⟨rfl, -⟩ | ⟨-, hu⟩
      · exact hg.traverses _ t hstored
      · exact hg.traverses k u hu

theorem Gone.handled {e : Exchange} {c : Strings} (hg : Gone (e.before, c)) (hh : e.Handled) :
    Gone (e.after, observe c e) := by
  obtain ⟨env, message, s, response, s'⟩ := e
  cases message with
  | add id request => exact hg.added hh
  | addContinue id request => exact hg.continued hh

/-- **No node has its value when it is looked at.** Every node has a ciphertext,
and its string is gone; and so it was each time one went into a response. -/
theorem ciphertexts_dangle {s : Server × Strings} {as : List (Message × Env)}
    (h : Runs (ofPartial (served observe)) (Server.init, init) as s) :
    s.2.nodes.length = s.1.heap.length ∧ (∀ i ∈ s.2.nodes, s.2.strings[i]? = some none) ∧
      ∀ bytes ∈ s.2.reads, bytes = none := by
  have hkeeps : ∀ s a s', Gone s → Guarded (ofPartial (served observe)) (fun _ _ => True) s a s' → Gone s' :=
    served_keeps _ (fun _ _ _ _ _ _ _ hg _ hh => hg.added hh) fun _ _ _ _ _ _ _ hg _ hh => hg.continued hh
  have hg := h.invariant (fun s a s' hg hs => hkeeps s a s' hg ⟨trivial, hs⟩) Gone.init
  exact ⟨hg.length, hg.nodes, hg.reads⟩

/-- A root is shown, and a second node made. -/
theorem ciphertexts_dangle_pair :
    ∃ s, Runs (ofPartial (served observe)) (Server.init, init)
        [(.add 1 (.ofValue [0x35]), .calm), (.add 2 (.ofValue [0x33]), .calm), (.addContinue 3 ⟨2, 1⟩, .calm)] s ∧
      s.2.nodes = [0, 1] ∧ s.2.reads.length = 1 ∧ ∀ bytes ∈ s.2.reads, bytes = none :=
  have hrun : Runs (ofPartial (served observe)) (Server.init, init)
      [(.add 1 (.ofValue [0x35]), .calm), (.add 2 (.ofValue [0x33]), .calm), (.addContinue 3 ⟨2, 1⟩, .calm)] _ :=
    .cons rfl (.cons rfl (.cons rfl .nil))
  ⟨_, hrun, rfl, rfl, (ciphertexts_dangle hrun).2.2⟩

/-! ## What is shown -/

/-- What the pointers of the nodes point to once their strings are gone, byte by
byte. -/
abbrev Remains := Addr → Nat → UInt8

/-- As many bytes as the ciphertext of the node says. -/
def look (remains : Remains) (a : Addr) (size : Nat) : Ciphertext := (List.range size).map (remains a)

/-- The node whose `value()` goes into the response. -/
def looked? (e : Exchange) : Option Addr :=
  match e.message with
  | .add _ request => e.before.forest.getTree request.database request.table
  | .addContinue _ request => e.after.holder.traverses[request.initRequestId]?.join.map (·.current)

/-- The response as it is sent: with the bytes the string has, if it is there. -/
def shown (c : Strings) (remains : Remains) (e : Exchange) : Response :=
  match e.response, looked? e with
  | .addTraverse r, some a =>
    .addTraverse { r with
      ciphertext := ((observe c e).reads.getLast?.join).getD (look remains a r.ciphertext.length) }
  | response, _ => response

/-- A handler and what it does to the strings. -/
def serve (env : Env) (remains : Remains) (s : Server × Strings) (message : Message) :
    Except Fault ((Server × Strings) × Sent) :=
  (s.1.serve env message).map fun (after, sent) =>
    let e : Exchange := ⟨env, message, s.1, sent.wrapper.response, after⟩
    ((after, observe s.2 e), .new message.capacity ⟨message.id, shown s.2 remains e⟩)

theorem serve_of_serve {env : Env} (remains : Remains) {s : Server × Strings} {message : Message} {after : Server}
    {sent : Sent} (h : s.1.serve env message = .ok (after, sent)) :
    ∃ strings sent', serve env remains s message = .ok ((after, strings), sent') := by
  rw [serve, h]
  exact ⟨_, _, rfl⟩

/-- Every node's bytes are still there. -/
def Intact (heap : Heap) (remains : Remains) : Prop :=
  ∀ (a : Addr) node, heap[a]? = some node → look remains a node.ciphertext.length = node.ciphertext

instance (heap : Heap) (remains : Remains) : Decidable (Intact heap remains) :=
  decidable_of_iff
    (∀ a ∈ List.range heap.length, ∀ node ∈ heap[a]?, look remains a node.ciphertext.length = node.ciphertext)
    ⟨fun h a node ha => h a (List.mem_range.mpr (List.getElem?_eq_some_iff.mp ha).1) node ha, fun h a _ node ha => h a node ha⟩

/-- The bytes of these values stand where the strings were. -/
def standing (values : List Str) : Remains := fun a i => ((values[a]?.getD [])[i]?).getD 0

/-- What is sent is what a client may be shown, for there is no string to read. -/
theorem Gone.shown {e : Exchange} {c : Strings} (hg : Gone (e.after, observe c e)) (hh : e.Handled) (remains : Remains) :
    ∃ b, Shown (Intact e.before.heap remains) e.response b ∧ shown c remains e = e.response.showing b := by
  have hlast : (observe c e).reads.getLast?.join = none := by
    cases hl : (observe c e).reads.getLast? with
    | none => rfl
    | some bytes => rw [hg.reads bytes (List.mem_of_getLast? hl), Option.join_some]
  have hlooked : ∀ (a : Addr) node i, looked? e = some a → e.before.heap[a]? = some node →
      e.response = .addTraverse { initRequestId := i, ciphertext := node.ciphertext } →
      ∃ b, Shown (Intact e.before.heap remains) e.response b ∧ Strings.shown c remains e = e.response.showing b := by
    intro a node i ha hnode hr
    refine ⟨look remains a node.ciphertext.length, fun r hr' => ?_, ?_⟩
    · obtain rfl := Response.addTraverse.inj (hr.symm.trans hr')
      exact ⟨by simp [look], fun hintact => hintact a node hnode⟩
    · simp only [Strings.shown, hr, ha, hlast, Option.getD_none, Response.showing]
  have hnone : e.response = .addOk →
      ∃ b, Shown (Intact e.before.heap remains) e.response b ∧ Strings.shown c remains e = e.response.showing b := by
    intro hr
    refine ⟨[], fun r hr' => ?_, ?_⟩
    · rw [hr] at hr'
      cases hr'
    · simp only [Strings.shown, hr, Response.showing]
  obtain ⟨env, message, s, response, s'⟩ := e
  cases message with
  | add id request =>
    have hadded : Added env s id request s' response := hh
    cases hadded with
    | plain _ => exact hnone rfl
    | root _ _ => exact hnone rfl
    | started _ htree hnode => exact hlooked _ _ _ htree hnode rfl
  | addContinue id request =>
    have hcontinued : Continued env s id request s' response := hh
    cases hcontinued with
    | equal _ => exact hnone rfl
    | moved _ _ hgo hnode =>
      obtain ⟨rfl, -⟩ := BTreeTraverse.goTo_moved hgo
      exact hlooked _ _ _ (by simp only [looked?, BTreeTraverseHolder.update_self, Option.join_some, Option.map_some]) hnode rfl
    | ended _ _ _ _ _ => exact hnone rfl

/-- **What a handler comes to over the strings**: the client is sent bytes from
where they were. -/
theorem serve_ok {env : Env} {remains : Remains} {s s' : Server × Strings} {message : Message} {sent : Sent}
    (hg : Gone s) (h : serve env remains s message = .ok (s', sent)) :
    ∃ response b, (⟨env, message, s.1, response, s'.1⟩ : Exchange).Handled ∧ Gone s' ∧
      Shown (Intact s.1.heap remains) response b ∧
      sent = .new message.capacity ⟨message.id, response.showing b⟩ := by
  obtain ⟨s, c⟩ := s
  unfold serve at h
  cases hs : s.serve env message with
  | error _ =>
    simp only [hs] at h
    cases h
  | ok result =>
    obtain ⟨after, plain⟩ := result
    simp only [hs] at h
    cases h
    have hh : (⟨env, message, s, plain.wrapper.response, after⟩ : Exchange).Handled := Server.handled_of_serve hs
    have hg' := hg.handled hh
    obtain ⟨b, hb, hshown⟩ := hg'.shown hh remains
    exact ⟨_, b, hh, hg', hb, by rw [hshown]⟩

end Strings

end Zql
