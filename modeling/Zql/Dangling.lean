/-
Inserts on their way, as the program has it: the protocol of `Protocol` with the
strings its ciphertexts point into. What a client is shown of a node is what
stands where the node's string was, an input of the step.

Each step is one of the protocol in which the client is shown as many bytes as
the node's value has, and the value itself if no byte has changed (`takes_step`).
So what holds of every run in which clients are shown anything, or of every run in
which they are shown what nodes have, holds here (`takes_runs`).
-/
import Zql.Insertion
import Zql.Strings

namespace Zql

open Transition

open Strings (Gone Intact Remains)

open Protocol (Takes Valid)

structure Dangling where
  protocol : Protocol
  strings : Strings

namespace Dangling

def init : Dangling := ⟨.init, .init⟩

/-- A message, and what stands where the strings were. -/
abbrev Act := Protocol.Act × Remains

def state (d : Dangling) : Server × Strings := (d.protocol.server, d.strings)

def step (answer : RequestAdd → Ciphertext → Int32) (d : Dangling) : Act → Option Dangling
  | (.add id request env, remains) =>
    match Strings.serve env remains d.state (.add id request) with
    | .error _ => none
    | .ok ((server, strings), sent) => some ⟨d.protocol.receive id request server sent.wrapper.response, strings⟩
  | (.addContinue id k env, remains) =>
    match d.protocol.pending[k]? with
    | none => none
    | some q =>
      match Strings.serve env remains d.state
          (.addContinue id { initRequestId := q.initRequestId, compareResult := answer q.request q.ciphertext }) with
      | .error _ => none
      | .ok ((server, strings), sent) =>
        let p := { d.protocol with pending := d.protocol.pending.eraseIdx k }
        some ⟨p.receive id q.request server sent.wrapper.response, strings⟩

/-- The bytes of every node are still there. -/
def Sees (d : Dangling) (a : Act) : Prop := Intact d.protocol.server.heap a.2

instance (d : Dangling) (a : Act) : Decidable (d.Sees a) := inferInstanceAs (Decidable (Intact ..))

variable {answer : RequestAdd → Ciphertext → Int32} {seen : Prop} {d d' : Dangling} {a : Act}

/-- **What a step comes to.** -/
theorem takes_step (hg : Gone d.state) (h : step answer d a = some d') :
    Takes answer (d.Sees a) d.protocol a.1 d'.protocol ∧ Gone d'.state := by
  obtain ⟨_ | _, remains⟩ := a
  · simp only [step] at h
    split at h
    · cases h
    next server strings sent hserve =>
    obtain rfl := Option.some.inj h
    obtain ⟨response, c, hhandled, hg', hc, rfl⟩ := Strings.serve_ok hg hserve
    refine ⟨⟨server, response, c, hhandled, hc, rfl⟩, ?_⟩
    rw [state, Protocol.receive_server]
    exact hg'
  · simp only [step] at h
    split at h
    · cases h
    next q hq =>
    split at h
    · cases h
    next server strings sent hserve =>
    obtain rfl := Option.some.inj h
    obtain ⟨response, c, hhandled, hg', hc, rfl⟩ := Strings.serve_ok hg hserve
    refine ⟨⟨q, server, response, c, hq, hhandled, hc, rfl⟩, ?_⟩
    rw [state, Protocol.receive_server]
    exact hg'

/-- **The rule of the protocol as it is**: a run is one in which clients are
shown anything, and one in which they are shown what nodes have if the bytes of every
node are there at every step. -/
theorem takes_runs {ok : Protocol → Protocol.Act → Prop} {as : List Act}
    (h : Runs (Guarded (ofPartial (step answer)) fun d a => ok d.protocol a.1 ∧ (seen → d.Sees a)) init as d) :
    Gone d.state ∧ Runs (Guarded (Takes answer seen) ok) .init (as.map (·.1)) d.protocol := by
  induction h with
  | nil => exact ⟨.init, .nil⟩
  | snoc _ hs ih =>
    obtain ⟨⟨hok, hsees⟩, hstep⟩ := hs
    obtain ⟨htakes, hg⟩ := takes_step ih.1 hstep
    rw [List.map_append]
    exact ⟨hg, ih.2.snoc ⟨hok, htakes.mono hsees⟩⟩

/-- No handler stops on a message of these clients, whatever it finds. -/
theorem progress {ts : List (BinaryTree Addr)} (hi : Valid answer seen d.protocol ts) (remains : Remains) :
    (∀ id request env, ∃ d', step answer d (.add id request env, remains) = some d') ∧
      ∀ id k env, k < d.protocol.pending.length → ∃ d', step answer d (.addContinue id k env, remains) = some d' := by
  constructor
  · intro id request env
    obtain ⟨after, sent, hs⟩ := hi.serves.1 env id request
    obtain ⟨strings, sent', hserve⟩ := @Strings.serve_of_serve env remains d.state (.add id request) after sent hs
    exact ⟨_, by simp only [step, hserve]; rfl⟩
  · intro id k env hk
    obtain ⟨after, sent, hs⟩ := hi.serves.2 env id d.protocol.pending[k] (List.getElem_mem hk)
      (answer d.protocol.pending[k].request d.protocol.pending[k].ciphertext)
    obtain ⟨strings, sent', hserve⟩ := @Strings.serve_of_serve env remains d.state
      (.addContinue id ⟨d.protocol.pending[k].initRequestId, _⟩) after sent hs
    exact ⟨_, by simp only [step, List.getElem?_eq_getElem hk, hserve]; rfl⟩

end Dangling

end Zql
