/-
The server as its clients' messages drive it, with no assumption about who
sends what when: any message may come at any time. What happened beside
the server's own state is left to whoever watches the exchanges.
-/
import Zql.Fields
import Zql.Lib.Runs

namespace Zql

open Transition

inductive Message
  | add (id : UInt32) (request : RequestAdd)
  | addContinue (id : UInt32) (request : RequestAddContinue)

def Message.id : Message → UInt32
  | .add id _ => id
  | .addContinue id _ => id

/-- The room its response is serialized into. -/
def Message.capacity : Message → Int
  | .add _ _ => 9000
  | .addContinue _ _ => 10000

/-- The id of the insert the message is about. -/
def Message.insert : Message → UInt32
  | .add id _ => id
  | .addContinue _ request => request.initRequestId

def Server.serve (env : Env) (s : Server) : Message → Except Fault (Server × Sent)
  | .add id request => onRequestAdd env s id request
  | .addContinue id request => onRequestAddContinue env s id request

/-- A message handled: the servers before and after, and the answer. -/
structure Exchange where
  env : Env
  message : Message
  before : Server
  response : Response
  after : Server

/-- What the handlers do, message by message. -/
def Exchange.Handled (e : Exchange) : Prop :=
  match e.message with
  | .add id request => Added e.env e.before id request e.after e.response
  | .addContinue id request => Continued e.env e.before id request e.after e.response

def Server.exchange (s : Server) (a : Message × Env) : Option Exchange :=
  match s.serve a.2 a.1 with
  | .error _ => none
  | .ok (after, sent) => some { env := a.2, message := a.1, before := s, response := sent.wrapper.response, after }

theorem Server.handled_of_serve {env : Env} {s after : Server} {message : Message} {sent : Sent}
    (h : s.serve env message = .ok (after, sent)) :
    (⟨env, message, s, sent.wrapper.response, after⟩ : Exchange).Handled := by
  cases message with
  | add id request => exact onRequestAdd_added h
  | addContinue id request => exact onRequestAddContinue_continued h

theorem Server.exchange_some {s : Server} {a : Message × Env} {e : Exchange} (h : s.exchange a = some e) :
    e.env = a.2 ∧ e.message = a.1 ∧ e.before = s ∧ e.Handled := by
  unfold Server.exchange at h
  split at h
  · cases h
  next after sent hs =>
  obtain rfl := Option.some.inj h
  exact ⟨rfl, rfl, rfl, Server.handled_of_serve hs⟩

/-- The server and somebody who watches its exchanges. -/
def served {γ : Type*} (observe : γ → Exchange → γ) (s : Server × γ) (a : Message × Env) : Option (Server × γ) :=
  (s.1.exchange a).map fun e => (e.after, observe s.2 e)

theorem served_some {γ : Type*} {observe : γ → Exchange → γ} {s s' : Server × γ} {a : Message × Env}
    (h : served observe s a = some s') :
    ∃ e : Exchange, e.env = a.2 ∧ e.message = a.1 ∧ e.before = s.1 ∧ e.Handled ∧ s' = (e.after, observe s.2 e) := by
  obtain ⟨e, he, rfl⟩ := Option.map_eq_some_iff.mp h
  obtain ⟨henv, hm, hb, hh⟩ := Server.exchange_some he
  exact ⟨e, henv, hm, hb, hh, rfl⟩

/-- **The rule of the service**: what a handled message of either kind
keeps, under a condition on it, every step that meets the condition keeps. -/
theorem served_keeps {γ : Type*} {observe : γ → Exchange → γ} {I : Server × γ → Prop}
    (ok : Server × γ → Message × Env → Prop)
    (hadd : ∀ env s c id request s' response, I (s, c) → ok (s, c) (.add id request, env) →
      Added env s id request s' response → I (s', observe c ⟨env, .add id request, s, response, s'⟩))
    (hcontinue : ∀ env s c id request s' response, I (s, c) → ok (s, c) (.addContinue id request, env) →
      Continued env s id request s' response → I (s', observe c ⟨env, .addContinue id request, s, response, s'⟩)) :
    ∀ s a s', I s → Guarded (ofPartial (served observe)) ok s a s' → I s' := by
  rintro ⟨_, c⟩ ⟨_, _⟩ _ hI ⟨hok, h⟩
  obtain ⟨⟨env, message, s, response, after⟩, rfl, rfl, rfl, hh, rfl⟩ := served_some h
  cases message with
  | add id request => exact hadd env s c id request after response hI hok hh
  | addContinue id request => exact hcontinue env s c id request after response hI hok hh

/-- The message makes a call of `Database::add`: it adds a row as it is, or
as the first of its table, or ends a traversal. -/
def Server.Adds (s : Server) : Message → Prop
  | .add _ request => opeEntry request.row = none ∨ s.forest.getTree request.database request.table = none
  | .addContinue _ request => ∃ side t node, direction request.compareResult = some side ∧
      s.holder.traverses[request.initRequestId]? = some (some t) ∧ s.heap[t.current]? = some node ∧
      node.child side = none

theorem update_cases {β : Type*} {f : UInt32 → β} {a k : UInt32} {v w : β} (h : Function.update f a v k = w) :
    k = a ∧ v = w ∨ k ≠ a ∧ f k = w := by
  by_cases hk : k = a
  · subst hk
    rw [Function.update_self] at h
    exact .inl ⟨rfl, h⟩
  · rw [Function.update_of_ne hk] at h
    exact .inr ⟨hk, h⟩

end Zql
