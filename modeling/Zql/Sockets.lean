/-
The workers' sockets. Each worker receives and replies on a reply socket of
ZeroMQ, which takes turns: after a message it expects one reply, and until then
receives nothing more. `Worker::run` looks at no result of a socket's call. So of
several responses to one message the first is sent; and a message without a
request, to which nothing is sent, is the last its worker receives
(`workers_lost`). `run` then goes round with an empty message.

A worker is lost too to a message its parser never comes out of, and on one that
makes an allocation throw or follows a null traversal the process dies. The messages
are taken one after the other, each as far as its worker comes with it.

What a socket is beside that is left open: it is a parameter, with its turns for
laws.
-/
import Zql.Passes
import Zql.Replies

namespace Zql

open Looping Scanning Transition

/-- A reply socket. A call out of turn fails, and changes nothing. -/
structure RepSocket (σ : Type*) where
  /-- A message was received, and no reply sent yet. -/
  owes : σ → Bool
  /-- `zmq_msg_recv` with a message at hand, `none` when it fails. -/
  recv : σ → List UInt8 → Option σ
  /-- `zmq_send`, `none` when it fails. -/
  send : σ → List UInt8 → Option σ
  recv_iff : ∀ s data, (∃ s', recv s data = some s') ↔ owes s = false
  recv_owes : ∀ s data s', recv s data = some s' → owes s' = true
  send_iff : ∀ s data, (∃ s', send s data = some s') ↔ owes s = true
  send_owes : ∀ s data s', send s data = some s' → owes s' = false

namespace RepSocket

variable {σ : Type*} (socket : RepSocket σ)

/-- The responses of a pass, and those of them that are sent. -/
def sendAll : σ → List Sent → σ × List Sent
  | s, [] => (s, [])
  | s, sent :: rest =>
    match socket.send s sent.data with
    | some s' => ((sendAll s' rest).1, sent :: (sendAll s' rest).2)
    | none => sendAll s rest

variable {socket} {s : σ}

theorem send_free (h : socket.owes s = false) (data : List UInt8) : socket.send s data = none := by
  by_contra hsend
  rw [(socket.send_iff s data).mp (Option.ne_none_iff_exists'.mp hsend)] at h
  cases h

theorem sendAll_free (h : socket.owes s = false) (sent : List Sent) : socket.sendAll s sent = (s, []) := by
  induction sent with
  | nil => rfl
  | cons sent rest ih =>
    rw [sendAll, send_free h]
    exact ih

/-- With one owed the first response is, if there is any. -/
theorem sendAll_owing (h : socket.owes s = true) (sent : List Sent) :
    (socket.sendAll s sent).2 = sent.take 1 ∧ socket.owes (socket.sendAll s sent).1 = sent.isEmpty := by
  cases sent with
  | nil => exact ⟨rfl, h⟩
  | cons sent rest =>
    obtain ⟨s', hs'⟩ := (socket.send_iff s sent.data).mpr h
    have hfree := socket.send_owes _ _ _ hs'
    rw [sendAll, hs']
    simp only [sendAll_free hfree]
    exact ⟨rfl, hfree⟩

end RepSocket

/-! ## Messages being parsed -/

namespace Worker

/-- The loop of `CborReader::Run` in a worker's pass. -/
def loopBody (env : Nat → Env) (x : CborReader × ObjectParser × Worker) :
    Looping.Turn (CborReader × ObjectParser × Worker)
      (Except (ObjectParser.Failure Fault) (CborEnd × ObjectParser × Worker)) :=
  CborReader.body (ObjectParser.listen (call env)) x

def loopStart (s : Server) (data : List UInt8) : CborReader × ObjectParser × Worker :=
  (.new (.new data), .new, ⟨s, []⟩)

end Worker

/-- The workers, with what they have received and sent. -/
structure Pool (σ : Type*) where
  server : Server
  /-- `none` of a worker that never comes out of a message. -/
  sockets : List (Option σ)
  received : List (List UInt8)
  replies : List Sent
  /-- The process has not died. -/
  alive : Bool

namespace Pool

variable {σ : Type*} {socket : RepSocket σ} {p p' : Pool σ}

def start (sockets : List σ) : Pool σ := ⟨.init, sockets.map some, [], [], true⟩

/-- A turn of the loop of worker `k`, when this is the next message for it. -/
structure Act where
  k : Nat
  data : List UInt8
  env : Nat → Env

/-- A worker has received a message, and its responses go to its socket. -/
def took (socket : RepSocket σ) (p : Pool σ) (a : Act) (s : σ) (w : Worker) : Pool σ :=
  { p with
    server := w.server
    sockets := p.sockets.set a.k (some (socket.sendAll s w.sent).1)
    received := p.received ++ [a.data]
    replies := p.replies ++ (socket.sendAll s w.sent).2 }

inductive Steps (socket : RepSocket σ) : Step (Pool σ) Act
  | receive {p : Pool σ} {a : Act} {s s' : σ} {fuel : Nat} {q : ObjectParser} {w : Worker} : p.alive = true →
      p.sockets[a.k]? = some (some s) → socket.recv s a.data = some s' →
      Worker.pass a.env fuel p.server a.data = some (.ok (.returned, q, w)) → Steps socket p a (took socket p a s' w)
  /-- The parser goes round for ever. -/
  | hang {p : Pool σ} {a : Act} {s s' : σ} {r : CborReader} {q : ObjectParser} {w : Worker} : p.alive = true →
      p.sockets[a.k]? = some (some s) → socket.recv s a.data = some s' →
      Passes (Worker.loopBody a.env) (Worker.loopStart p.server a.data) (r, q, w) →
      Worker.loopBody a.env (r, q, w) = .again (r, q, w) →
      Steps socket p a { took socket p a s' w with sockets := p.sockets.set a.k none }
  /-- An allocation throws, or a null traversal is followed. -/
  | die {p : Pool σ} {a : Act} {s s' : σ} {r : CborReader} {q : ObjectParser} {w : Worker}
      {result : Except (ObjectParser.Failure Fault) (CborEnd × ObjectParser × Worker)} : p.alive = true →
      p.sockets[a.k]? = some (some s) → socket.recv s a.data = some s' →
      Passes (Worker.loopBody a.env) (Worker.loopStart p.server a.data) (r, q, w) →
      Worker.loopBody a.env (r, q, w) = .leave result → (∀ done, result ≠ .ok (.returned, done)) →
      Steps socket p a { took socket p a s' w with alive := false }
  /-- The message received is empty. -/
  | fail {p : Pool σ} {a : Act} {s : σ} {fuel : Nat} {q : ObjectParser} {w : Worker} : p.alive = true →
      p.sockets[a.k]? = some (some s) → socket.recv s a.data = none →
      Worker.pass a.env fuel p.server [] = some (.ok (.returned, q, w)) →
      Steps socket p a
        { p with
          server := w.server
          sockets := p.sockets.set a.k (some (socket.sendAll s w.sent).1)
          replies := p.replies ++ (socket.sendAll s w.sent).2 }

/-- The message of a request the shared state knows of. -/
def message? (wrapper : RequestWrapper) : Option Message :=
  match wrapper.request with
  | .get _ => none
  | .add request => some (.add wrapper.id request)
  | .addContinue request => some (.addContinue wrapper.id request)

theorem step_of_serve {env : Env} {s s' : Server} {message : Message} {sent : Sent}
    (h : s.serve env message = .ok (s', sent)) :
    ∃ as, Runs (ofPartial Server.step) s as s' ∧ as.map (·.1) = [message] := by
  refine ⟨[(message, env)], .one ?_, rfl⟩
  simp only [ofPartial, Server.step, Server.exchange, h, Option.map_some]

/-- A request that is answered is a step of the server, or a `RequestGet`, and
its id is on the response. -/
theorem answer_step {env : Nat → Env} {w w' : Worker} {wrapper : RequestWrapper} (h : w.answer env wrapper = .ok w') :
    (∃ as, Runs (ofPartial Server.step) w.server as w'.server ∧ as.map (·.1) = (message? wrapper).toList) ∧
      ∃ sent, w'.sent = w.sent ++ [sent] ∧ sent.wrapper.id = wrapper.id := by
  obtain ⟨id, request⟩ := wrapper
  cases request with
  | get request =>
    cases h
    exact ⟨⟨[], .nil, rfl⟩, _, rfl, rfl⟩
  | add request =>
    simp only [Worker.answer] at h
    obtain ⟨⟨s', sent⟩, hdone, rfl⟩ := map_ok.mp h
    refine ⟨step_of_serve hdone, sent, rfl, ?_⟩
    rw [onRequestAdd_sent hdone]
    rfl
  | addContinue request =>
    simp only [Worker.answer] at h
    obtain ⟨⟨s', sent⟩, hdone, rfl⟩ := map_ok.mp h
    refine ⟨step_of_serve hdone, sent, rfl, ?_⟩
    rw [onRequestAddContinue_sent hdone]
    rfl

/-- **All requests of a message take effect**, and each has a response. -/
theorem answers_steps {env : Nat → Env} {wrappers : List RequestWrapper} {w w' : Worker}
    (h : wrappers.foldlM (Worker.answer env) w = .ok w') :
    (∃ as, Runs (ofPartial Server.step) w.server as w'.server ∧ as.map (·.1) = wrappers.filterMap message?) ∧
      w'.sent.map (·.wrapper.id) = w.sent.map (·.wrapper.id) ++ wrappers.map (·.id) := by
  induction wrappers generalizing w with
  | nil =>
    cases h
    exact ⟨⟨[], .nil, rfl⟩, (List.append_nil _).symm⟩
  | cons wrapper wrappers ih =>
    rw [List.foldlM_cons] at h
    cases hw : w.answer env wrapper with
    | error e =>
      rw [hw] at h
      cases h
    | ok w₁ =>
      rw [hw] at h
      obtain ⟨⟨as, hrun, has⟩, sent, hsent, hid⟩ := answer_step hw
      obtain ⟨⟨bs, hrun', hbs⟩, hids⟩ := ih h
      refine ⟨⟨as ++ bs, hrun.append hrun', ?_⟩, ?_⟩
      · rw [List.map_append, has, hbs]
        cases hm : message? wrapper <;> simp [hm]
      · rw [hids, hsent]
        simp [hid]

theorem requests_part {data l : List UInt8} {events : List CborEvent} (h : Reads (visible data) events l) :
    (messages events).filterMap Wrapper.request? <+: requests data := by
  obtain ⟨q, calls, hfeed, hcalls⟩ := ObjectParser.feeds (p := .new) rfl (items (visible data))
  rw [h.items_eq] at hfeed
  obtain ⟨q', first, rest, hfirst, -, rfl⟩ := feed_split hfeed
  obtain ⟨_, _, hfirst', hmessages⟩ := ObjectParser.feeds (p := .new) rfl events
  rw [hfirst] at hfirst'
  cases hfirst'
  rw [requests, ← hcalls, ← hmessages, List.filterMap_append, List.filterMap_append]
  exact List.prefix_append ..

/-- **What a worker has done so far**: the requests of the items read. -/
theorem parsing_steps {env : Nat → Env} {s : Server} {data : List UInt8} {r : CborReader} {q : ObjectParser} {w : Worker}
    (hsize : 0 ≤ (CborInput.new data).size)
    (h : Passes (Worker.loopBody env) (Worker.loopStart s data) (r, q, w)) :
    ∃ events l, Reads (visible data) events l ∧ r.Within l ∧
      (∃ as, Runs (ofPartial Server.step) s as w.server ∧
        as.map (·.1) = ((messages events).filterMap Wrapper.request?).filterMap message?) ∧
      w.sent.map (·.wrapper.id) = ((messages events).filterMap Wrapper.request?).map (·.id) := by
  obtain ⟨events, l, hreads, hfold, hw, -⟩ := CborReader.within_of_passes h (.start (new_state _) (at_new hsize))
  obtain ⟨q', hlistens⟩ := Worker.listens env ⟨s, []⟩ events
  rw [show events.foldlM (ObjectParser.listen (Worker.call env)) (ObjectParser.new, ⟨s, []⟩) = .ok (q, w) from hfold]
    at hlistens
  cases hanswers : ((messages events).filterMap Wrapper.request?).foldlM (Worker.answer env) ⟨s, []⟩ with
  | error e =>
    rw [hanswers] at hlistens
    cases hlistens
  | ok w' =>
    rw [hanswers] at hlistens
    cases hlistens
    obtain ⟨hsteps, hids⟩ := answers_steps hanswers
    exact ⟨events, l, hreads, hw, hsteps, by simpa using hids⟩

theorem unseen_steps {env : Nat → Env} {s : Server} {data : List UInt8} {r : CborReader} {q : ObjectParser} {w : Worker}
    (hsize : ¬ 0 ≤ (CborInput.new data).size)
    (h : Passes (Worker.loopBody env) (Worker.loopStart s data) (r, q, w)) :
    Worker.loopBody env (r, q, w) = .leave (.ok (.returned, q, w)) := by
  have hleave : Worker.loopBody env (Worker.loopStart s data) = .leave (.ok (.returned, .new, ⟨s, []⟩)) :=
    CborReader.body_leave _ (unseen hsize).2
  cases h with
  | refl => exact hleave
  | step hb _ => cases hb.symm.trans hleave

theorem pass_steps {env : Nat → Env} {fuel : Nat} {s : Server} {data : List UInt8} {q : ObjectParser} {w : Worker}
    (h : Worker.pass env fuel s data = some (.ok (.returned, q, w))) :
    (∃ as, Runs (ofPartial Server.step) s as w.server ∧ as.map (·.1) = (requests data).filterMap message?) ∧
      w.sent.map (·.wrapper.id) = (requests data).map (·.id) := by
  have hreadable : Readable (visible data) := readable_of_returns ⟨fuel, h⟩
  obtain ⟨p, hpass⟩ := Worker.pass_returns env s hreadable
  have hr := (hpass _).mp ⟨fuel, h⟩
  cases hfold : (requests data).foldlM (Worker.answer env) ⟨s, []⟩ with
  | error e =>
    rw [hfold] at hr
    cases hr
  | ok w' =>
    rw [hfold] at hr
    cases hr
    obtain ⟨hsteps, hids⟩ := answers_steps hfold
    rw [List.map_nil, List.nil_append] at hids
    exact ⟨hsteps, hids⟩

/-- The id its reply is under. -/
def firstId (data : List UInt8) : Option UInt32 := (requests data).head?.map (·.id)

/-- The parser never comes out of the message. -/
def Endless (data : List UInt8) : Prop := ending (visible data) = .stuck

instance (data : List UInt8) : Decidable (Endless data) := inferInstanceAs (Decidable (ending (visible data) = .stuck))

theorem not_endless_of_returns {env : Nat → Env} {fuel : Nat} {s : Server} {data : List UInt8} {q : ObjectParser}
    {w : Worker} (h : Worker.pass env fuel s data = some (.ok (.returned, q, w))) : ¬ Endless data := by
  intro hendless
  have hreadable : Readable (visible data) := readable_of_returns ⟨fuel, h⟩
  obtain ⟨l, hreads, hend⟩ := reads_items (visible data)
  rw [Endless, hreads.ending, ending_ended hend] at hendless
  exact (hreadable l hreads.boundary).1 (frame_stuck_iff.mp hendless)

/-- What hangs has taken all requests of its message. -/
theorem hang_steps {env : Nat → Env} {s : Server} {data : List UInt8} {r : CborReader} {q : ObjectParser} {w : Worker}
    (h : Passes (Worker.loopBody env) (Worker.loopStart s data) (r, q, w))
    (hagain : Worker.loopBody env (r, q, w) = .again (r, q, w)) :
    Endless data ∧ (∃ as, Runs (ofPartial Server.step) s as w.server ∧ as.map (·.1) = (requests data).filterMap message?) ∧
      w.sent.map (·.wrapper.id) = (requests data).map (·.id) := by
  by_cases hsize : 0 ≤ (CborInput.new data).size
  · obtain ⟨events, l, hreads, hw, hsteps, hids⟩ := parsing_steps hsize h
    have hstuck := CborReader.stuck_of_again hw hagain
    have hend : ∀ event rest, frame l ≠ .item event rest := by simp [hstuck]
    have hitems : items (visible data) = events := by rw [hreads.items_eq, items_ended hend, List.append_nil]
    rw [requests, hitems]
    exact ⟨by rw [Endless, hreads.ending, ending_ended hend, hstuck], hsteps, hids⟩
  · cases hagain.symm.trans (unseen_steps hsize h)

theorem fail_same {a : Act} {s : σ} {fuel : Nat} {q : ObjectParser} {w : Worker} (hs : p.sockets[a.k]? = some (some s))
    (h : Worker.pass a.env fuel p.server [] = some (.ok (.returned, q, w))) :
    { p with
      server := w.server
      sockets := p.sockets.set a.k (some (socket.sendAll s w.sent).1)
      replies := p.replies ++ (socket.sendAll s w.sent).2 } = p := by
  have hnone : Worker.pass a.env 1 p.server [] = some (.ok (.returned, _, ⟨p.server, []⟩)) := rfl
  cases Looping.Returns.unique ⟨fuel, h⟩ ⟨1, hnone⟩
  obtain ⟨hlt, hsome⟩ := List.getElem?_eq_some_iff.mp hs
  simp only [RepSocket.sendAll, ← hsome, List.set_getElem_self, List.append_nil]

/-- The worker receives nothing more. -/
def Lost (socket : RepSocket σ) (s : Option σ) : Bool := s.all socket.owes

/-- The message costs its worker. -/
def Costs (data : List UInt8) : Bool := (requests data).isEmpty || decide (Endless data)

/-- The requests received have taken effect, the first of each message has its
reply, and a worker is lost to each message that costs one. The last message of a
process that has died may have been left at any of its requests. -/
structure Told (socket : RepSocket σ) (p : Pool σ) : Prop where
  server : ∃ done as, done <+: p.received.flatMap requests ∧ (p.alive = true → done = p.received.flatMap requests) ∧
    Runs (ofPartial Server.step) Server.init as p.server ∧ as.map (·.1) = done.filterMap message?
  replies : p.replies.map (·.wrapper.id) <+: p.received.filterMap firstId ∧
    (p.alive = true → p.replies.map (·.wrapper.id) = p.received.filterMap firstId)
  lost : p.alive = true → p.sockets.countP (Lost socket) = p.received.countP Costs

theorem Told.start {sockets : List σ} (h : ∀ s ∈ sockets, socket.owes s = false) :
    Told socket (Pool.start sockets) where
  server := ⟨[], [], List.prefix_refl _, fun _ => rfl, .nil, rfl⟩
  replies := ⟨List.prefix_refl _, fun _ => rfl⟩
  lost _ := List.countP_eq_zero.mpr fun s hs => by
    obtain ⟨s', hs', rfl⟩ := List.mem_map.mp hs
    simp [Lost, h s' hs']

theorem owes_of_ids {data : List UInt8} {s : σ} {sent : List Sent} (hs : socket.owes s = true)
    (h : sent.map (·.wrapper.id) = (requests data).map (·.id)) :
    socket.owes (socket.sendAll s sent).1 = (requests data).isEmpty := by
  have hlength := congrArg List.length h
  rw [List.length_map, List.length_map] at hlength
  rw [(RepSocket.sendAll_owing hs sent).2, Bool.eq_iff_iff, List.isEmpty_iff_length_eq_zero,
    List.isEmpty_iff_length_eq_zero, hlength]

theorem replies_of_part {data : List UInt8} {s : σ} {sent : List Sent} {part : List RequestWrapper}
    (hs : socket.owes s = true) (hpart : part <+: requests data) (h : sent.map (·.wrapper.id) = part.map (·.id)) :
    (socket.sendAll s sent).2.map (·.wrapper.id) <+: (firstId data).toList ∧
      (part = requests data → (socket.sendAll s sent).2.map (·.wrapper.id) = (firstId data).toList) := by
  rw [(RepSocket.sendAll_owing hs sent).1, List.map_take, h, firstId]
  cases part with
  | nil =>
    refine ⟨List.nil_prefix, fun hall => ?_⟩
    rw [← hall]
    rfl
  | cons wrapper part =>
    obtain ⟨rest, hrest⟩ := hpart
    rw [← hrest]
    exact ⟨List.prefix_refl _, fun _ => rfl⟩

/-- A message taken as far as some of its requests, and all of them if the process
lives on. -/
theorem Told.took {a : Act} {s : σ} {w : Worker} {part : List RequestWrapper} {alive : Bool} (ht : Told socket p)
    (halive : p.alive = true) (hs : socket.owes s = true) (hpart : part <+: requests a.data)
    (hall : alive = true → part = requests a.data)
    (hsteps : ∃ bs, Runs (ofPartial Server.step) p.server bs w.server ∧ bs.map (·.1) = part.filterMap message?)
    (hids : w.sent.map (·.wrapper.id) = part.map (·.id))
    (hlost : alive = true → p'.sockets.countP (Lost socket) = (p.received ++ [a.data]).countP Costs)
    (hsame : p' = { took socket p a s w with sockets := p'.sockets, alive }) : Told socket p' := by
  obtain ⟨done, as, -, hdone, hrun, has⟩ := ht.server
  obtain rfl := hdone halive
  obtain ⟨bs, hrun', hbs⟩ := hsteps
  obtain ⟨hreply, hreplyAll⟩ := replies_of_part hs hpart hids
  have hreceived : (p.received ++ [a.data]).flatMap requests = p.received.flatMap requests ++ requests a.data := by simp
  have hfirst : (p.received ++ [a.data]).filterMap firstId = p.received.filterMap firstId ++ (firstId a.data).toList := by
    rw [List.filterMap_append]
    cases hf : firstId a.data <;> simp [hf]
  rw [hsame]
  refine ⟨⟨p.received.flatMap requests ++ part, as ++ bs, ?_, fun hlives => ?_, hrun.append hrun', ?_⟩, ⟨?_, fun hlives => ?_⟩,
    hlost⟩
  · rw [Pool.took, hreceived]
    exact (List.prefix_append_right_inj _).mpr hpart
  · rw [Pool.took, hreceived, hall hlives]
  · rw [List.map_append, List.filterMap_append, has, hbs]
  · rw [Pool.took, List.map_append, hfirst, ht.replies.2 halive]
    exact (List.prefix_append_right_inj _).mpr hreply
  · rw [Pool.took, List.map_append, hfirst, ht.replies.2 halive, hreplyAll (hall hlives)]

theorem Told.step {a : Act} (ht : Told socket p) (h : Steps socket p a p') : Told socket p' := by
  cases h with
  | @receive _ _ s s' _ _ w halive hs hrecv hpass =>
    have hfree := (socket.recv_iff s a.data).mp ⟨s', hrecv⟩
    have howes := socket.recv_owes _ _ _ hrecv
    obtain ⟨hsteps, hids⟩ := pass_steps hpass
    refine ht.took halive howes (List.prefix_refl _) (fun _ => rfl) hsteps hids (fun _ => ?_)
      (by rw [Pool.took, halive])
    obtain ⟨hlt, hsome⟩ := List.getElem?_eq_some_iff.mp hs
    simp only [Pool.took, List.countP_set hlt, List.countP_append, ht.lost halive, hsome, Lost, Option.all_some, hfree,
      owes_of_ids howes hids, List.countP_singleton, Costs, not_endless_of_returns hpass, decide_false, Bool.or_false]
    simp
  | @hang _ _ s s' _ _ w halive hs hrecv hpasses hagain =>
    have hfree := (socket.recv_iff s a.data).mp ⟨s', hrecv⟩
    obtain ⟨hendless, hsteps, hids⟩ := hang_steps hpasses hagain
    refine ht.took halive (socket.recv_owes _ _ _ hrecv) (List.prefix_refl _) (fun _ => rfl) hsteps hids (fun _ => ?_)
      (by rw [Pool.took, halive])
    obtain ⟨hlt, hsome⟩ := List.getElem?_eq_some_iff.mp hs
    simp only [List.countP_set hlt, List.countP_append, ht.lost halive, hsome, Lost, Option.all_some, Option.all_none, hfree,
      List.countP_singleton, Costs, hendless, decide_true, Bool.or_true]
    simp
  | @die _ _ s s' _ _ w _ halive hs hrecv hpasses hleave hnot =>
    by_cases hsize : 0 ≤ (CborInput.new a.data).size
    · obtain ⟨events, l, hreads, -, hsteps, hids⟩ := parsing_steps hsize hpasses
      exact ht.took halive (socket.recv_owes _ _ _ hrecv) (requests_part hreads) (nofun : false = true → _) hsteps hids
        nofun rfl
    · cases hleave.symm.trans (unseen_steps hsize hpasses)
      exact absurd rfl (hnot _)
  | fail _ hs _ hpass =>
    rw [fail_same hs hpass]
    exact ht

/-- **A worker that is not lost takes whatever comes.** -/
theorem receives (socket : RepSocket σ) {a : Act} {s : σ} (halive : p.alive = true) (hs : p.sockets[a.k]? = some (some s))
    (hfree : socket.owes s = false) : ∃ p', Steps socket p a p' := by
  obtain ⟨s', hrecv⟩ := (socket.recv_iff s a.data).mpr hfree
  by_cases hsize : 0 ≤ (CborInput.new a.data).size
  · obtain ⟨⟨r, q, w⟩, hpasses, hend⟩ := CborReader.ends_or_again (ObjectParser.listen (Worker.call a.env))
      (new_state _) (at_new hsize) (.new, ⟨p.server, []⟩)
    rcases hend with hagain | ⟨result, hleave⟩
    · exact ⟨_, .hang halive hs hrecv hpasses hagain⟩
    · by_cases hreturned : ∃ done, result = .ok (.returned, done)
      · obtain ⟨⟨q', w'⟩, rfl⟩ := hreturned
        obtain ⟨fuel, hpass⟩ := (hpasses.returns_iff _).mpr (returns_leave hleave)
        exact ⟨_, .receive halive hs hrecv hpass⟩
      · exact ⟨_, .die halive hs hrecv hpasses hleave fun done hdone => hreturned ⟨done, hdone⟩⟩
  · have hleave : Worker.loopBody a.env (Worker.loopStart p.server a.data) =
        .leave (.ok (.returned, .new, ⟨p.server, []⟩)) := CborReader.body_leave _ (unseen hsize).2
    obtain ⟨fuel, hpass⟩ := returns_leave hleave
    exact ⟨_, .receive halive hs hrecv hpass⟩

theorem over_same {a : Act} (hover : p.alive = true → ∀ s ∈ p.sockets, Lost socket s = true) (h : Steps socket p a p') :
    p' = p := by
  have hlost : ∀ {s s' : σ}, p.alive = true → p.sockets[a.k]? = some (some s) → socket.recv s a.data ≠ some s' := by
    intro s s' halive hs hrecv
    have hfree := (socket.recv_iff s a.data).mp ⟨s', hrecv⟩
    have howes : socket.owes s = true := hover halive _ (List.mem_of_getElem? hs)
    rw [hfree] at howes
    cases howes
  cases h with
  | receive halive hs hrecv _ => exact absurd hrecv (hlost halive hs)
  | hang halive hs hrecv _ _ => exact absurd hrecv (hlost halive hs)
  | die halive hs hrecv _ _ _ => exact absurd hrecv (hlost halive hs)
  | fail _ hs _ hpass => exact fail_same hs hpass

/-- **A message without a request costs its worker**, and so does one the parser
never comes out of. Whatever comes in, while the process lives: all requests received
have taken effect, one after the other, and only the first of a message is replied
to; and as many workers are lost as messages cost one. A worker that is not takes
whatever comes next, and with none left nothing happens again. -/
theorem workers_lost {sockets : List σ} {as : List Act} (hfree : ∀ s ∈ sockets, socket.owes s = false)
    (h : Runs (Steps socket) (start sockets) as p) :
    (∃ done bs, done <+: p.received.flatMap requests ∧ (p.alive = true → done = p.received.flatMap requests) ∧
      Runs (ofPartial Server.step) Server.init bs p.server ∧ bs.map (·.1) = done.filterMap message?) ∧
    (p.replies.map (·.wrapper.id) <+: p.received.filterMap firstId ∧
      (p.alive = true → p.replies.map (·.wrapper.id) = p.received.filterMap firstId)) ∧
    (p.alive = true → p.sockets.countP (Lost socket) = p.received.countP Costs) ∧
    (∀ (a : Act) s, p.alive = true → p.sockets[a.k]? = some (some s) → socket.owes s = false →
      ∃ p', Steps socket p a p') ∧
    ((p.alive = true → ∀ s ∈ p.sockets, Lost socket s = true) → ∀ bs p', Runs (Steps socket) p bs p' → p' = p) := by
  have ht : Told socket p := h.invariant (fun _ _ _ ht hs => ht.step hs) (Told.start hfree)
  refine ⟨ht.server, ht.replies, ht.lost, fun a s halive hs hfree => receives socket halive hs hfree,
    fun hover bs p' hrun => ?_⟩
  refine hrun.invariant (I := fun p' => p' = p) (fun p₁ a p₂ hsame hs => ?_) rfl
  rw [hsame] at hs
  exact over_same hover hs

/-- A socket that knows nothing but whose turn it is. -/
def turns : RepSocket Bool where
  owes s := s
  recv s _ := if s then none else some true
  send s _ := if s then some false else none
  recv_iff s _ := by cases s <;> simp
  recv_owes s _ s' h := by cases s <;> simp_all
  send_iff s _ := by cases s <;> simp
  send_owes s _ s' h := by cases s <;> simp_all

/-- A request, and then a negative integer of eight bytes. -/
def endlessMessage : List UInt8 := equalMessage ++ 0x3B :: List.replicate 8 0

/-- Three workers: two requests in one message are replied to once; an empty message
costs a worker, and so does a request that the parser never comes out after, though
that is replied to. -/
theorem workers_lost_three :
    ∃ p, Runs (Steps turns) (start [false, false, false])
        [⟨0, [], fun _ => .calm⟩, ⟨1, equalMessage ++ equalMessage, fun _ => .calm⟩, ⟨2, endlessMessage, fun _ => .calm⟩,
          ⟨1, [], fun _ => .calm⟩] p ∧
      p.replies.length = 2 ∧ p.replies.map (·.wrapper.id) = p.received.filterMap firstId ∧
      p.sockets.countP (Lost turns) = 3 ∧ p.received.countP Costs = 3 ∧
      ∀ bs p', Runs (Steps turns) p bs p' → p' = p := by
  have hfree : ∀ s ∈ [false, false, false], turns.owes s = false := by decide
  have hruns : ∃ p, Runs (Steps turns) (start [false, false, false])
      [⟨0, [], fun _ => .calm⟩, ⟨1, equalMessage ++ equalMessage, fun _ => .calm⟩, ⟨2, endlessMessage, fun _ => .calm⟩,
        ⟨1, [], fun _ => .calm⟩] p ∧ p.alive = true ∧ p.replies.length = 2 ∧
      p.sockets.countP (Lost turns) = 3 ∧ ∀ s ∈ p.sockets, Lost turns s = true :=
    ⟨_, .cons (.receive rfl rfl rfl (rfl : Worker.pass _ 1 _ _ = _))
      (.cons (.receive rfl rfl rfl (rfl : Worker.pass _ 60 _ _ = _))
        (.cons (.hang rfl rfl rfl (.step rfl (.step rfl (.step rfl (.step rfl (.step rfl (.step rfl (.step rfl (.step rfl
            (.step rfl (.step rfl (.refl _))))))))))) rfl)
          (.cons (.receive rfl rfl rfl (rfl : Worker.pass _ 1 _ _ = _)) .nil))), rfl, rfl, by decide, by decide⟩
  obtain ⟨p, hrun, halive, htwo, hthree, hall⟩ := hruns
  obtain ⟨-, ⟨-, hreplies⟩, hlost, -, hover⟩ := workers_lost hfree hrun
  exact ⟨p, hrun, htwo, hreplies halive, hthree, (hlost halive).symm.trans hthree, hover fun _ => hall⟩

end Pool

end Zql
