/-
The byte strings on their way follow the protocol of `Protocol`: each is a
letter of an insert whose executor is still waiting for it, and what the server
and the client make of it is a step of the protocol over the strings
(`Dangling`), or nothing when it was too long for its output. No letter is there
twice, so the server sees every id once and no executor is called for an answer
that is not its own (`network_follows`).

So in any run over the network in which workers find the nodes' bytes where they
were, a table's tree is the textbook insertion of inserts the client has made, each
of those at most once, and among them every insert that was acknowledged
(`network_trees`).
-/
import Zql.Network

namespace Zql

open Dyadic SearchTree Transition

open Client (Main InsertExecutor)

open Protocol (Valid Fresh Takes used_step)

open Strings (Gone Intact Remains)

namespace Network

/-- The executor registered under an id, and its request. -/
def Awaits (m : Main) (id : UInt32) (request : RequestAdd) : Prop :=
  ∃ a e, m.requestListeners[id]? = some (some a) ∧ m.heap[a]? = some (some e) ∧ e.run = request

/-- What is on its way, beside the client, the inserts the server knows of,
and those acknowledged. -/
structure Mail (m : Main) (p : Protocol) (acknowledged : List RequestAdd) (ls : List Letter) : Prop where
  awaited : ∀ l ∈ ls, Awaits m l.id l.request
  pending : ∀ l ∈ ls, ∀ q, l.pending? = some q → q ∈ p.pending
  ids : (ls.map Letter.id).Nodup
  inserts : ((ls.filterMap Letter.pending?).map (·.initRequestId)).Nodup
  fresh : ∀ l ∈ ls, l.toServer = true → l.id ∉ p.used
  room : ∀ l ∈ ls, 9000 ≤ l.capacity ∧ l.capacity < 2 ^ 30
  answered : (acknowledged ++ ls.filterMap Letter.done?).Subperm p.answered
  begun : (p.requests ++ ls.filterMap Letter.new?).Subperm (begun m.sent)

variable {m : Main} {p : Protocol} {acknowledged : List RequestAdd} {l : Letter} {ls ls' : List Letter}

theorem new?_cons (l : Letter) (ls : List Letter) :
    (l :: ls).filterMap Letter.new? = l.new?.toList ++ ls.filterMap Letter.new? := by
  cases hn : l.new? <;> simp [hn]

theorem Mail.nil : Mail .init .init [] [] := by
  constructor <;> simp [Protocol.requests, Protocol.init]

theorem Mail.perm (h : Mail m p acknowledged ls) (hp : ls.Perm ls') : Mail m p acknowledged ls' where
  awaited := fun l hl => h.awaited l (hp.mem_iff.mpr hl)
  pending := fun l hl => h.pending l (hp.mem_iff.mpr hl)
  ids := (hp.map _).nodup_iff.mp h.ids
  inserts := ((hp.filterMap _).map _).nodup_iff.mp h.inserts
  fresh := fun l hl => h.fresh l (hp.mem_iff.mpr hl)
  room := fun l hl => h.room l (hp.mem_iff.mpr hl)
  answered := ((hp.filterMap _).append_left _).symm.subperm.trans h.answered
  begun := ((hp.filterMap _).append_left _).symm.subperm.trans h.begun

theorem Mail.ask (h : Mail m p acknowledged (l :: (ls ++ ls'))) : Mail m p acknowledged (ls ++ [l] ++ ls') :=
  h.perm (by simp [List.perm_middle.symm])

theorem Mail.lose (h : Mail m p acknowledged (l :: ls)) : Mail m p acknowledged ls where
  awaited := fun l hl => h.awaited l (List.mem_cons_of_mem _ hl)
  pending := fun l hl => h.pending l (List.mem_cons_of_mem _ hl)
  ids := h.ids.of_cons
  inserts := h.inserts.sublist (((List.sublist_cons_self l ls).filterMap _).map _)
  fresh := fun l hl => h.fresh l (List.mem_cons_of_mem _ hl)
  room := fun l hl => h.room l (List.mem_cons_of_mem _ hl)
  answered := (((List.sublist_cons_self l ls).filterMap _).append_left _).subperm.trans h.answered
  begun := (((List.sublist_cons_self l ls).filterMap _).append_left _).subperm.trans h.begun

theorem Mail.ne_id (h : Mail m p acknowledged (l :: ls)) : ∀ l' ∈ ls, l'.id ≠ l.id := by
  have hids := h.ids
  rw [List.map_cons, List.nodup_cons] at hids
  exact fun l' hl' he => hids.1 (List.mem_map.mpr ⟨l', hl', he⟩)

theorem Mail.ne_insert {q : Pending} (h : Mail m p acknowledged (l :: ls)) (hq : l.pending? = some q) :
    ∀ l' ∈ ls, ∀ q', l'.pending? = some q' → q'.initRequestId ≠ q.initRequestId := by
  have hinserts := h.inserts
  rw [List.filterMap_cons_some hq, List.map_cons, List.nodup_cons] at hinserts
  intro l' hl' q' hq' he
  exact hinserts.1 (List.mem_map.mpr ⟨q', List.mem_filterMap.mpr ⟨l', hl', hq'⟩, he⟩)

theorem Mail.client {m' : Main} (h : Mail m p acknowledged ls)
    (hkept : ∀ l ∈ ls, Awaits m l.id l.request → Awaits m' l.id l.request) (hsent : m'.sent = m.sent) :
    Mail m' p acknowledged ls :=
  { h with
    awaited := fun l hl => hkept l hl (h.awaited l hl)
    begun := by
      rw [hsent]
      exact h.begun }

theorem Mail.post {m' : Main} {wrapper : RequestWrapper} (h : Mail m p acknowledged ls)
    (hkept : ∀ l ∈ ls, Awaits m l.id l.request → Awaits m' l.id l.request) (hsent : m'.sent = m.sent ++ [wrapper])
    (hl : Awaits m' l.id l.request) (hnew : ∀ l' ∈ ls, l'.id ≠ l.id) (hused : l.id ∉ p.used)
    (hpending : ∀ q, l.pending? = some q → q ∈ p.pending ∧ ∀ l' ∈ ls, ∀ q', l'.pending? = some q' →
      q'.initRequestId ≠ q.initRequestId)
    (hroom : 9000 ≤ l.capacity ∧ l.capacity < 2 ^ 30) (hdone : l.done? = none)
    (hbegun : Network.begun [wrapper] = l.new?.toList) : Mail m' p acknowledged (l :: ls) where
  awaited := List.forall_mem_cons.mpr ⟨hl, fun l' hl' => hkept l' hl' (h.awaited l' hl')⟩
  pending := List.forall_mem_cons.mpr ⟨fun q hq => (hpending q hq).1, h.pending⟩
  ids := by
    rw [List.map_cons, List.nodup_cons]
    refine ⟨fun hmem => ?_, h.ids⟩
    obtain ⟨l', hl', he⟩ := List.mem_map.mp hmem
    exact hnew l' hl' he
  inserts := by
    cases hq : l.pending? with
    | none =>
      rw [List.filterMap_cons_none hq]
      exact h.inserts
    | some q =>
      rw [List.filterMap_cons_some hq, List.map_cons, List.nodup_cons]
      refine ⟨fun hmem => ?_, h.inserts⟩
      obtain ⟨q', hq', he⟩ := List.mem_map.mp hmem
      obtain ⟨l', hl', hlq⟩ := List.mem_filterMap.mp hq'
      exact (hpending q hq).2 l' hl' q' hlq he
  fresh := List.forall_mem_cons.mpr ⟨fun _ => hused, h.fresh⟩
  room := List.forall_mem_cons.mpr ⟨hroom, h.room⟩
  answered := by
    rw [List.filterMap_cons_none hdone]
    exact h.answered
  begun := by
    have hbefore := h.begun.append (List.Subperm.refl l.new?.toList)
    have hafter : Network.begun m'.sent = Network.begun m.sent ++ l.new?.toList := by
      rw [hsent, ← hbegun, Network.begun, Network.begun, Network.begun, List.filterMap_append]
    rw [new?_cons, hafter]
    refine List.Perm.subperm ?_ |>.trans hbefore
    rw [List.append_assoc]
    exact (List.perm_append_comm).append_left _

/-! ## Answers -/

/-- The letter of a response. -/
def Letter.reply (capacity : Int) (id : UInt32) (request : RequestAdd) : Response → Letter
  | .addTraverse r => .addTraverse capacity id ⟨r.initRequestId, request, r.ciphertext⟩
  | _ => .addOk capacity id request

/-- What a handler of an insert's request answers. -/
def OfInsert : Response → Prop
  | .addOk | .addTraverse _ => True
  | _ => False

theorem data_reply {capacity : Int} {id : UInt32} {request : RequestAdd} {response : Response} (h : OfInsert response) :
    (Letter.reply capacity id request response).data = (Sent.new capacity ⟨id, response⟩).data := by
  cases response with
  | addOk => rfl
  | addTraverse _ => rfl
  | getOk _ => exact h.elim
  | getEmpty => exact h.elim

theorem reply_new? (capacity : Int) (id : UInt32) (request : RequestAdd) (response : Response) :
    (Letter.reply capacity id request response).new? = none := by
  cases response <;> rfl

theorem reply_id (capacity : Int) (id : UInt32) (request : RequestAdd) (response : Response) :
    (Letter.reply capacity id request response).id = id := by
  cases response <;> rfl

theorem reply_request (capacity : Int) (id : UInt32) (request : RequestAdd) (response : Response) :
    (Letter.reply capacity id request response).request = request := by
  cases response <;> rfl

theorem reply_toServer (capacity : Int) (id : UInt32) (request : RequestAdd) (response : Response) :
    (Letter.reply capacity id request response).toServer = false := by
  cases response <;> rfl

theorem reply_capacity (capacity : Int) (id : UInt32) (request : RequestAdd) (response : Response) :
    (Letter.reply capacity id request response).capacity = capacity := by
  cases response <;> rfl

/-- **A request is handled**, and its answer takes its place. -/
theorem Mail.reply (p₀ : Protocol) {server : Server} {response : Response} {capacity : Int}
    (h : Mail m p acknowledged (l :: ls)) (hcapacity : 9000 ≤ capacity ∧ capacity < 2 ^ 30)
    (hanswered : p₀.answered = p.answered) (hused : p₀.used = p.used)
    (hkept : ∀ l' ∈ ls, ∀ q, l'.pending? = some q → q ∈ p₀.pending)
    (hinsert : ∀ r, response = .addTraverse r → ∀ l' ∈ ls, ∀ q, l'.pending? = some q →
      q.initRequestId ≠ r.initRequestId)
    (hrequests : (p₀.receive l.id l.request server response).requests.Perm (p.requests ++ l.new?.toList)) :
    Mail m (p₀.receive l.id l.request server response) acknowledged
      (Letter.reply capacity l.id l.request response :: ls) where
  awaited := by
    refine List.forall_mem_cons.mpr ⟨?_, fun l' hl' => h.awaited l' (List.mem_cons_of_mem _ hl')⟩
    rw [reply_id, reply_request]
    exact h.awaited l List.mem_cons_self
  pending := by
    have hold : ∀ l' ∈ ls, ∀ q, l'.pending? = some q → q ∈ (p₀.receive l.id l.request server response).pending := by
      intro l' hl' q hq
      unfold Protocol.receive
      split
      · exact List.mem_append_left _ (hkept l' hl' q hq)
      · exact hkept l' hl' q hq
    refine List.forall_mem_cons.mpr ⟨fun q hq => ?_, hold⟩
    cases response with
    | addTraverse r =>
      obtain rfl := Option.some.inj hq
      exact List.mem_append_right _ (List.mem_singleton.mpr rfl)
    | _ => cases hq
  ids := by
    rw [List.map_cons, reply_id, ← List.map_cons]
    exact h.ids
  inserts := by
    have hrest := h.lose.inserts
    cases response with
    | addTraverse r =>
      refine List.nodup_cons.mpr ⟨fun hmem => ?_, hrest⟩
      obtain ⟨q, hq, he⟩ := List.mem_map.mp hmem
      obtain ⟨l', hl', hlq⟩ := List.mem_filterMap.mp hq
      exact hinsert r rfl l' hl' q hlq he
    | _ => exact hrest
  fresh := by
    refine List.forall_mem_cons.mpr ⟨fun ht => ?_, fun l' hl' ht hmem => ?_⟩
    · rw [reply_toServer] at ht
      cases ht
    · rw [Protocol.receive_used, hused, List.mem_append, List.mem_singleton] at hmem
      rcases hmem with hmem | hmem
      · exact h.fresh l' (List.mem_cons_of_mem _ hl') ht hmem
      · exact h.ne_id l' hl' hmem
  room := by
    refine List.forall_mem_cons.mpr ⟨?_, fun l' hl' => h.room l' (List.mem_cons_of_mem _ hl')⟩
    rw [reply_capacity]
    exact hcapacity
  answered := by
    have hbefore := h.lose.answered
    unfold Protocol.receive
    split
    · rw [hanswered]
      exact hbefore
    · next hne =>
      have hcons : (Letter.reply capacity l.id l.request response :: ls).filterMap Letter.done? =
          l.request :: ls.filterMap Letter.done? := by
        cases response with
        | addTraverse r => exact absurd rfl (hne r)
        | _ => rfl
      rw [hcons, hanswered]
      refine (List.perm_middle.trans ?_).subperm.trans (hbefore.append (List.Subperm.refl [l.request]))
      exact List.perm_append_singleton .. |>.symm
  begun := by
    rw [List.filterMap_cons_none (reply_new? ..)]
    have hbefore := h.begun
    rw [new?_cons, ← List.append_assoc] at hbefore
    exact (hrequests.append_right _).subperm.trans hbefore

/-! ## The server -/

variable {seen : Prop}

/-- The server and its strings are those of the protocol, and the values in memory,
shown and inserted, are short. -/
structure Agrees (seen : Prop) (m : Main) (s : Server × Strings) (p : Protocol) : Prop where
  server : p.server = s.1
  gone : Gone s
  valid : ∃ ts, Valid Client.answer seen p ts
  used : ∀ q ∈ p.pending, q.initRequestId ∈ p.used
  sent : ∀ id ∈ p.used, id ∈ m.sent.map (·.id)
  values : ∀ value ∈ s.1.heap.map (·.ciphertext), value.length < 2 ^ 30
  modest : ∀ q ∈ p.pending, Modest q.request

theorem Agrees.init : Agrees seen .init (.init, .init) .init where
  server := rfl
  gone := .init
  valid := ⟨_, Valid.init ..⟩
  used := by simp [Protocol.init]
  sent := by simp [Protocol.init]
  values := by simp [Server.init]
  modest := by simp [Protocol.init]

theorem Agrees.shown {s : Server × Strings} (ha : Agrees seen m s p) {q : Pending} (hq : q ∈ p.pending) :
    q.ciphertext.length < 2 ^ 30 := by
  obtain ⟨ts, hi⟩ := ha.valid
  obtain ⟨t, u, ds, hw⟩ := hi.waiting q hq
  rw [hw.size, value_eq, ha.server]
  cases hvalue : (s.1.heap.map (·.ciphertext))[t.current]? with
  | none => simp
  | some value => exact ha.values value (List.mem_of_getElem? hvalue)

theorem added_values {env : Env} {s s' : Server} {id : UInt32} {request : RequestAdd} {response : Response}
    (h : Added env s id request s' response) :
    s'.heap.map (·.ciphertext) = s.heap.map (·.ciphertext) ∨
      ∃ value, request.value? = some value ∧ Grown s.heap s'.heap value := by
  cases h with
  | plain _ => exact .inl rfl
  | root hope _ =>
    refine .inr ⟨_, ?_, grown_create _ _⟩
    rw [RequestAdd.value?, hope]
    rfl
  | started _ _ _ => exact .inl rfl

theorem continued_values {env : Env} {s s' : Server} {id : UInt32} {request : RequestAddContinue} {response : Response}
    {t : BTreeTraverse} (h : Continued env s id request s' response)
    (ht : s.holder.traverses[request.initRequestId]? = some (some t)) :
    s'.heap.map (·.ciphertext) = s.heap.map (·.ciphertext) ∨ Grown s.heap s'.heap t.ciphertext := by
  cases h with
  | equal _ => exact .inl rfl
  | moved _ _ hgo _ =>
    obtain ⟨rfl, -⟩ := BTreeTraverse.goTo_moved hgo
    exact .inl rfl
  | @ended _ t₀ _ _ _ _ _ ht₀ hgo _ _ =>
    obtain rfl : t₀ = t := Option.some.inj (Option.some.inj (ht₀.symm.trans ht))
    obtain ⟨node, hnode, -, rfl, -⟩ := BTreeTraverse.goTo_ended hgo
    exact .inr (grown_hang hnode ..)

theorem short_of_grown {s s' : Server} (hs : ∀ value ∈ s.heap.map (·.ciphertext), value.length < 2 ^ 30)
    (h : s'.heap.map (·.ciphertext) = s.heap.map (·.ciphertext) ∨
      ∃ value : Ciphertext, value.length < 2 ^ 30 ∧ Grown s.heap s'.heap value) :
    ∀ value ∈ s'.heap.map (·.ciphertext), value.length < 2 ^ 30 := by
  intro v hv
  rcases h with h | ⟨value, hvalue, h⟩
  · exact hs v (h ▸ hv)
  · rw [h, List.mem_append, List.mem_singleton] at hv
    rcases hv with hv | rfl
    · exact hs v hv
    · exact hvalue

theorem added_ofInsert {env : Env} {s s' : Server} {id : UInt32} {request : RequestAdd} {response : Response}
    (h : Added env s id request s' response) : OfInsert response := by
  cases h <;> trivial

theorem continued_ofInsert {env : Env} {s s' : Server} {id : UInt32} {request : RequestAddContinue} {response : Response}
    (h : Continued env s id request s' response) : OfInsert response := by
  cases h <;> trivial

theorem receive_modest {id : UInt32} {request : RequestAdd} {server : Server} {response : Response}
    (h : ∀ q ∈ p.pending, Modest q.request) (hrequest : Modest request) :
    ∀ q ∈ (p.receive id request server response).pending, Modest q.request := by
  unfold Protocol.receive
  split
  · intro q hq
    rcases List.mem_append.mp hq with hq | hq
    · exact h q hq
    · obtain rfl := List.mem_singleton.mp hq
      exact hrequest
  · exact h

/-- The message's id is new, and the bytes of every node are there if `seen`. -/
def Watched (seen : Prop) (d : Dangling) (a : Dangling.Act) : Prop := Fresh d.protocol a.1 ∧ (seen → d.Sees a)

/-- A step of the protocol, for a message of the client that is not known to
the server. -/
theorem Agrees.step {s s' : Server × Strings} {p' : Protocol} {a : Protocol.Act} (ha : Agrees seen m s p)
    (hfresh : Fresh p a) (hsent : a.id ∈ m.sent.map (·.id)) (h : Takes Client.answer seen p a p')
    (hserver : p'.server = s'.1) (hgone : Gone s') (hused : p'.used = p.used ++ [a.id])
    (hvalues : ∀ value ∈ s'.1.heap.map (·.ciphertext), value.length < 2 ^ 30)
    (hmodest : ∀ q ∈ p'.pending, Modest q.request) : Agrees seen m s' p' where
  server := hserver
  gone := hgone
  valid := by
    obtain ⟨ts, hi⟩ := ha.valid
    obtain ⟨ts', hi', -⟩ := hi.step (hfresh.apart ha.used) h
    exact ⟨ts', hi'⟩
  used := used_step ha.used h
  sent := by
    intro id hid
    rw [hused, List.mem_append, List.mem_singleton] at hid
    rcases hid with hid | rfl
    · exact ha.sent id hid
    · exact hsent
  values := hvalues
  modest := hmodest

/-- The protocol's step for a letter, and what is left to be handled. -/
def Handled (seen : Prop) (m : Main) (s : Server × Strings) (p : Protocol) (acknowledged : List RequestAdd)
    (ls : List Letter) (s' : Server × Strings) (sent : Sent) : Prop :=
  ∃ a p', Guarded (ofPartial (Dangling.step Client.answer)) (Watched seen) ⟨p, s.2⟩ a ⟨p', s'.2⟩ ∧
    Agrees seen m s' p' ∧ ∃ l', l'.data = sent.data ∧ l'.toServer = false ∧ Mail m p' acknowledged (l' :: ls)

theorem added_insert {env : Env} {s s' : Server} {id : UInt32} {request : RequestAdd} {response : Response}
    {c : Ciphertext} {r : ResponseAddTraverse} (h : Added env s id request s' response)
    (hr : response.showing c = .addTraverse r) : r.initRequestId = id := by
  cases h <;> cases hr
  rfl

theorem continued_insert {env : Env} {s s' : Server} {id : UInt32} {request : RequestAddContinue} {response : Response}
    {c : Ciphertext} {r : ResponseAddTraverse} (h : Continued env s id request s' response)
    (hr : response.showing c = .addTraverse r) : r.initRequestId = request.initRequestId := by
  cases h <;> cases hr
  rfl

theorem showing_ofInsert {response : Response} (h : OfInsert response) (c : Ciphertext) : OfInsert (response.showing c) := by
  cases response with
  | addOk | addTraverse _ => trivial
  | getOk _ | getEmpty => exact h

/-- **A `RequestAdd` that arrives is a step of the protocol.** -/
theorem Agrees.add {s s' : Server × Strings} {env : Env} {remains : Remains} {id : UInt32} {request : RequestAdd}
    {sent : Sent} (ha : Agrees seen m s p) (hm : Mail m p acknowledged (.add id request :: ls))
    (hid : id ∈ m.sent.map (·.id)) (hmodest : Modest request) (hseen : seen → Intact s.1.heap remains)
    (h : Strings.serve env remains s (.add id request) = .ok (s', sent)) :
    Handled seen m s p acknowledged ls s' sent := by
  obtain ⟨response, c, hhandled, hgone, hc, rfl⟩ := Strings.serve_ok ha.gone h
  have hadded : Added env s.1 id request s'.1 response := hhandled
  have hfresh : id ∉ p.used := hm.fresh _ List.mem_cons_self rfl
  have hstate : Dangling.state ⟨p, s.2⟩ = s := by rw [Dangling.state, ha.server]
  have hstep : Dangling.step Client.answer ⟨p, s.2⟩ (.add id request env, remains) =
      some ⟨p.receive id request s'.1 (response.showing c), s'.2⟩ := by
    simp only [Dangling.step, hstate, h]
    rfl
  have htakes : Takes Client.answer seen p (.add id request env) (p.receive id request s'.1 (response.showing c)) :=
    ⟨s'.1, response, c, ha.server ▸ hadded, hc.mono hseen, rfl⟩
  refine ⟨(.add id request env, remains), _, ⟨⟨hfresh, fun hs => ?_⟩, hstep⟩, ?_,
    .reply 9000 id request (response.showing c), ?_, reply_toServer .., ?_⟩
  · show Intact p.server.heap remains
    rw [ha.server]
    exact hseen hs
  · refine ha.step (a := .add id request env) hfresh hid htakes (p.receive_server ..) hgone (p.receive_used ..) ?_
      (receive_modest ha.modest hmodest)
    refine short_of_grown ha.values ((added_values hadded).imp_right fun h => ?_)
    obtain ⟨value, hvalue, hgrown⟩ := h
    exact ⟨value, hmodest.value hvalue, hgrown⟩
  · exact data_reply (showing_ofInsert (added_ofInsert hadded) c)
  · refine hm.reply p (by decide) rfl rfl (fun l' hl' => hm.pending l' (List.mem_cons_of_mem _ hl')) ?_
      (p.receive_requests ..)
    intro r hr l' hl' q hq he
    -- a traversal is new under the id of its request
    exact hfresh (added_insert hadded hr ▸ he ▸ ha.used q (hm.pending l' (List.mem_cons_of_mem _ hl') q hq))

/-- **A `RequestAddContinue` that arrives is a step of the protocol.** -/
theorem Agrees.addContinue {s s' : Server × Strings} {env : Env} {remains : Remains} {id : UInt32} {q : Pending}
    {sent : Sent} (ha : Agrees seen m s p) (hm : Mail m p acknowledged (.addContinue id q :: ls))
    (hid : id ∈ m.sent.map (·.id)) (hseen : seen → Intact s.1.heap remains)
    (h : Strings.serve env remains s (.addContinue id
      { initRequestId := q.initRequestId, compareResult := Client.answer q.request q.ciphertext }) = .ok (s', sent)) :
    Handled seen m s p acknowledged ls s' sent := by
  obtain ⟨response, c, hhandled, hgone, hc, rfl⟩ := Strings.serve_ok ha.gone h
  have hcontinued : Continued env s.1 id
    { initRequestId := q.initRequestId, compareResult := Client.answer q.request q.ciphertext } s'.1 response := hhandled
  have hfresh : id ∉ p.used := hm.fresh _ List.mem_cons_self rfl
  have hq := hm.pending _ List.mem_cons_self q rfl
  obtain ⟨k, hk⟩ := List.mem_iff_getElem?.mp hq
  let p₀ : Protocol := { p with pending := p.pending.eraseIdx k }
  have hstate : Dangling.state ⟨p, s.2⟩ = s := by rw [Dangling.state, ha.server]
  have hstep : Dangling.step Client.answer ⟨p, s.2⟩ (.addContinue id k env, remains) =
      some ⟨p₀.receive id q.request s'.1 (response.showing c), s'.2⟩ := by
    simp only [Dangling.step, hk, hstate, h]
    rfl
  have htakes : Takes Client.answer seen p (.addContinue id k env) (p₀.receive id q.request s'.1 (response.showing c)) :=
    ⟨q, s'.1, response, c, hk, ha.server ▸ hcontinued, hc.mono hseen, rfl⟩
  obtain ⟨ts, hi⟩ := ha.valid
  have hothers : ∀ l' ∈ ls, ∀ q', l'.pending? = some q' → q'.initRequestId ≠ q.initRequestId := hm.ne_insert rfl
  refine ⟨(.addContinue id k env, remains), _, ⟨⟨hfresh, fun hs => ?_⟩, hstep⟩, ?_,
    .reply 10000 id q.request (response.showing c), ?_, reply_toServer .., ?_⟩
  · show Intact p.server.heap remains
    rw [ha.server]
    exact hseen hs
  · refine ha.step (a := .addContinue id k env) hfresh hid htakes (p₀.receive_server ..) hgone (p₀.receive_used ..) ?_
      (receive_modest (fun q' hq' => ha.modest q' (List.mem_of_mem_eraseIdx hq')) (ha.modest q hq))
    obtain ⟨t, u, ds, hw⟩ := hi.waiting q hq
    have hstored := hw.stored
    rw [ha.server] at hstored
    exact short_of_grown ha.values ((continued_values hcontinued hstored).imp_right fun hgrown =>
      ⟨_, (ha.modest q hq).value hw.value, hgrown⟩)
  · exact data_reply (showing_ofInsert (continued_ofInsert hcontinued) c)
  · refine hm.reply p₀ (by decide) rfl rfl (fun l' hl' q' hq' => ?_) ?_ ?_
    · have hmem := hm.pending l' (List.mem_cons_of_mem _ hl') q' hq'
      obtain ⟨hlt, rfl⟩ := List.getElem?_eq_some_iff.mp hk
      rw [← (List.getElem_cons_eraseIdx_perm hlt).mem_iff, List.mem_cons] at hmem
      exact hmem.resolve_left fun he => hothers l' hl' q' hq' (he ▸ rfl)
    · intro r hr l' hl' q' hq'
      rw [continued_insert hcontinued hr]
      exact hothers l' hl' q' hq'
    · rw [show (Letter.addContinue id q).new?.toList = [] from rfl, List.append_nil]
      exact (Protocol.receive_requests ..).trans (Protocol.requests_erase hk)

/-! ## The client -/

/-- Executors are as they were made, for rows an output has room for, and are
registered under ids that were drawn. -/
structure Composed (m : Main) : Prop where
  safe : m.Safe
  made : ∀ (a : Nat) e, m.heap[a]? = some (some e) → e = InsertExecutor.new e.database e.table e.row ∧ Modest e.run
  drawn : ∀ (id : UInt32) a, m.requestListeners[id]? = some (some a) → id ∈ m.sent.map (·.id)

theorem Composed.init : Composed .init where
  safe := Main.Safe.init
  made := by simp [Main.init]
  drawn := by simp [Main.init]

theorem Composed.awaits {id : UInt32} {request : RequestAdd} (hc : Composed m) (h : Awaits m id request) :
    id ∈ m.sent.map (·.id) ∧ Modest request := by
  obtain ⟨a, e, hlistener, he, rfl⟩ := h
  exact ⟨hc.drawn id a hlistener, (hc.made a e he).2⟩

/-- An executor answers as the protocol's client does. -/
theorem Composed.answers {a : Nat} {e : InsertExecutor} (hc : Composed m) (he : m.heap[a]? = some (some e))
    (r : ResponseAddTraverse) :
    e.onResponseAddTraverse r =
      { initRequestId := r.initRequestId, compareResult := Client.answer e.run r.ciphertext } := by
  have hmade := (hc.made a e he).1
  rw [Client.answer, show InsertExecutor.new e.run.database e.run.table e.run.row = e from hmade.symm]
  rfl

/-- **A request sent** under an id drawn for the first time. -/
theorem Composed.send (rand : Nat → UInt32) {a : Nat} {e : InsertExecutor} (request : Request) (hc : Composed m)
    (hlive : m.heap[a]? = some (some e)) (hnew : ∀ id : UInt32, m.requestListeners[id]? ≠ some (some a))
    (hnot : a ∉ m.executors ++ m.executorQueue) (hdrawn : rand m.drawn ∉ m.sent.map (·.id)) :
    Composed (m.send rand a request) ∧ Awaits (m.send rand a request) (rand m.drawn) e.run ∧
      ∀ id request', Awaits m id request' → Awaits (m.send rand a request) id request' := by
  have hlookup : ∀ id : UInt32, (m.send rand a request).requestListeners[id]? =
      if id = rand m.drawn then some (some a) else m.requestListeners[id]? := fun id => getElem?_insert_if ..
  refine ⟨⟨hc.safe.send ⟨e, hlive⟩ hnew hnot request, hc.made, fun id b hb => ?_⟩, ⟨a, e, ?_, hlive, rfl⟩, ?_⟩
  · rw [hlookup] at hb
    show id ∈ (m.sent ++ [_]).map _
    rw [List.map_append, List.mem_append]
    split at hb
    · next hid => exact .inr (by simp [hid])
    · exact .inl (hc.drawn id b hb)
  · rw [hlookup, if_pos rfl]
  · rintro id request' ⟨b, e', hb, he', rfl⟩
    have hne : id ≠ rand m.drawn := fun hid => hdrawn (hid ▸ hc.drawn id b hb)
    refine ⟨b, e', ?_, he', rfl⟩
    rw [hlookup, if_neg hne, hb]

theorem Awaits.erase {requestId id : UInt32} {request : RequestAdd} (h : Awaits m id request) (hne : id ≠ requestId) :
    Awaits { m with requestListeners := m.requestListeners.erase requestId } id request := by
  obtain ⟨a, e, ha, he, hr⟩ := h
  exact ⟨a, e, Main.erase_some.mpr ⟨hne, ha⟩, he, hr⟩

theorem Composed.erase (hc : Composed m) (requestId : UInt32) :
    Composed { m with requestListeners := m.requestListeners.erase requestId } where
  safe := ⟨fun id b hb => hc.safe.registered id b (Main.erase_some.mp hb).2,
    fun id id' b hb hb' => hc.safe.once id id' b (Main.erase_some.mp hb).2 (Main.erase_some.mp hb').2,
    hc.safe.queued, hc.safe.apart, hc.safe.done, hc.safe.successes⟩
  made := hc.made
  drawn := fun id a ha => hc.drawn id a (Main.erase_some.mp ha).2

/-- **An acknowledgement** is the executor's last call. -/
theorem Composed.onResponseAddOk {a : Nat} {requestId : UInt32} (hc : Composed m)
    (ha : m.requestListeners[requestId]? = some (some a)) :
    Composed (m.onResponseAddOk a requestId) ∧
      ∀ id request, id ≠ requestId → Awaits m id request → Awaits (m.onResponseAddOk a requestId) id request := by
  refine ⟨⟨hc.safe.onResponseAddOk ha, fun b e he => hc.made b e ?_, fun id b hb =>
    hc.drawn id b (Main.erase_some.mp hb).2⟩, ?_⟩
  · have hset : (m.heap.set a none)[b]? = some (some e) := he
    rw [List.getElem?_set] at hset
    split at hset
    · split at hset <;> cases hset
    · exact hset
  · rintro id request hne ⟨b, e, hb, he, hr⟩
    have hab : a ≠ b := by
      rintro rfl
      exact hne (hc.safe.once id requestId a hb ha)
    exact ⟨b, e, Main.erase_some.mpr ⟨hne, hb⟩, (List.getElem?_set_ne hab).trans he, hr⟩

theorem Composed.quiet {m' : Main} (hc : Composed m) (hsafe : m'.Safe) (hlisteners : m'.requestListeners = m.requestListeners)
    (hheap : ∀ (a : Nat) e, m.heap[a]? = some (some e) → m'.heap[a]? = some (some e))
    (hmade : ∀ (a : Nat) e, m'.heap[a]? = some (some e) → m.heap[a]? = some (some e) ∨
      e = InsertExecutor.new e.database e.table e.row ∧ Modest e.run)
    (hsent : m'.sent = m.sent) :
    Composed m' ∧ ∀ id request, Awaits m id request → Awaits m' id request := by
  refine ⟨⟨hsafe, fun a e he => (hmade a e he).elim (hc.made a e) fun h => h, fun id a ha => ?_⟩, ?_⟩
  · rw [hlisteners] at ha
    rw [hsent]
    exact hc.drawn id a ha
  · rintro id request ⟨a, e, ha, he, hr⟩
    exact ⟨a, e, by rw [hlisteners, ha], hheap a e he, hr⟩

/-! ## Steps -/

structure Follows (seen : Prop) (n : Network) (p : Protocol) : Prop where
  agrees : Agrees seen n.main (n.server, n.strings) p
  client : Composed n.main
  mail : ∃ asks tells : List Letter, n.requests = asks.map Letter.data ∧ n.responses = tells.map Letter.data ∧
    (∀ l ∈ asks, l.toServer = true) ∧ (∀ l ∈ tells, l.toServer = false) ∧
    Mail n.main p n.acknowledged (asks ++ tells)

theorem Follows.init : Follows seen init .init :=
  ⟨.init, .init, [], [], rfl, rfl, nofun, nofun, .nil⟩

/-- The next id drawn is new, and rows are not too long for an output. -/
def Clean (rand : Nat → UInt32) (n : Network) (a : Act) : Prop :=
  rand n.main.drawn ∉ n.main.sent.map (·.id) ∧
    ∀ database table row, a = .client (.addExecutor database table row) → Modest { database, table, row }

/-- What follows the network, in the protocol over the strings. -/
def Followed (seen : Prop) (n : Network) (d : Dangling) : Prop := Follows seen n d.protocol ∧ d.strings = n.strings

theorem Followed.stay {d : Dangling} {n' : Network} (h : Followed seen n' d) :
    ∃ bs d', Runs (Guarded (ofPartial (Dangling.step Client.answer)) (Watched seen)) d bs d' ∧ Followed seen n' d' :=
  ⟨[], d, .nil, h⟩

theorem sentSince_same {m m' : Main} (h : m'.sent = m.sent) : sentSince m m' = [] := by
  simp [sentSince, h]

theorem sentSince_one {m m' : Main} {wrapper : RequestWrapper} (h : m'.sent = m.sent ++ [wrapper]) :
    sentSince m m' = [outgoing wrapper] := by
  simp [sentSince, h]

theorem letter_at {datas : List (List UInt8)} {ls : List Letter} {k : Nat} {data : List UInt8}
    (hdatas : datas = ls.map Letter.data) (hk : datas[k]? = some data) :
    ∃ l, l ∈ ls ∧ l.data = data ∧ ls.Perm (l :: ls.eraseIdx k) ∧ datas.eraseIdx k = (ls.eraseIdx k).map Letter.data := by
  subst hdatas
  rw [List.getElem?_map, Option.map_eq_some_iff] at hk
  obtain ⟨l, hl, rfl⟩ := hk
  obtain ⟨hlt, rfl⟩ := List.getElem?_eq_some_iff.mp hl
  exact ⟨_, List.getElem_mem hlt, rfl, (List.getElem_cons_eraseIdx_perm hlt).symm, List.eraseIdx_map ..⟩

theorem Agrees.client {s : Server × Strings} {m' : Main} (ha : Agrees seen m s p)
    (hsent : ∀ id, id ∈ m.sent.map (·.id) → id ∈ m'.sent.map (·.id)) : Agrees seen m' s p :=
  { ha with sent := fun id hid => hsent id (ha.sent id hid) }

theorem Follows.quiet {n : Network} {m' : Main} (hf : Follows seen n p)
    (h : Composed m' ∧ ∀ id request, Awaits n.main id request → Awaits m' id request) (hsent : m'.sent = n.main.sent) :
    Follows seen { n with main := m', requests := n.requests ++ sentSince n.main m' } p := by
  obtain ⟨asks, tells, hasks, htells, htoServer, htoClient, hmail⟩ := hf.mail
  refine ⟨hf.agrees.client fun id hid => by rwa [hsent], h.1, asks, tells, ?_, htells, htoServer, htoClient,
    hmail.client (fun l _ => h.2 l.id l.request) hsent⟩
  rw [sentSince_same hsent, List.append_nil]
  exact hasks

theorem Composed.dequeue {a : Nat} {executors : List Nat} (hc : Composed m) (hm : m.executors = a :: executors) :
    Composed { m with executors } ∧ a ∉ executors ++ m.executorQueue := by
  have hs := hc.safe
  have hapart := hs.apart
  rw [hm, List.cons_append, List.nodup_cons] at hapart
  have hmem : ∀ b, b ∈ executors ++ m.executorQueue → b ∈ m.executors ++ m.executorQueue := fun b hb => by
    rw [hm, List.cons_append]
    exact List.mem_cons_of_mem _ hb
  refine ⟨⟨⟨fun id b hb => ?_, hs.once, fun b hb => hs.queued b (hmem b hb), hapart.2, hs.done, hs.successes⟩,
    hc.made, hc.drawn⟩, hapart.1⟩
  obtain ⟨hlive, hnot⟩ := hs.registered id b hb
  exact ⟨hlive, fun hin => hnot (hmem b hin)⟩

/-- **What the client does on its own.** -/
theorem Follows.act {rand : Nat → UInt32} {n : Network} {a : Main.Act} {main : Main} (hf : Follows seen n p)
    (hclean : Clean rand n (.client a)) (hreceive : ∀ c, a ≠ .receive c) (h : n.main.step rand a = .ok main) :
    Follows seen { n with main, requests := n.requests ++ sentSince n.main main } p := by
  have hsafe : main.Safe := by
    obtain ⟨main', hmain', hsafe⟩ : ∃ main', n.main.step rand a = .ok main' ∧ main'.Safe := hf.client.safe.step a
    rwa [Except.ok.inj (h.symm.trans hmain')]
  cases a with
  | addExecutor database table row =>
    cases h
    have hnew := InsertExecutor.new_eq database table row
    refine hf.quiet (hf.client.quiet hsafe rfl (fun a e he => ?_) (fun a e he => ?_) rfl) rfl
    · exact (List.getElem?_append_left (List.getElem?_eq_some_iff.mp he).1).trans he
    · rcases Nat.lt_or_ge a n.main.heap.length with ha | ha
      · exact .inl ((List.getElem?_append_left ha).symm.trans he)
      · right
        have hlast := (List.getElem?_append_right ha).symm.trans he
        rw [List.getElem?_singleton] at hlast
        split at hlast
        · obtain rfl := Option.some.inj (Option.some.inj hlast)
          refine ⟨?_, ?_⟩
          · rw [hnew]
            exact hnew.symm
          · rw [InsertExecutor.run_new]
            exact hclean.2 database table row rfl
        · cases hlast
  | takeQueue =>
    cases h
    exact hf.quiet (hf.client.quiet hsafe rfl (fun _ _ he => he) (fun _ _ he => .inl he) rfl) rfl
  | runExecutor =>
    cases hm : n.main.executors with
    | nil =>
      obtain rfl : n.main = main := by simpa only [Main.step, hm, Except.ok.injEq] using h
      exact hf.quiet ⟨hf.client, fun _ _ hw => hw⟩ rfl
    | cons a executors =>
      obtain ⟨hdequeued, hnot⟩ := hf.client.dequeue hm
      have hmem : a ∈ n.main.executors ++ n.main.executorQueue := by simp [hm]
      obtain ⟨e, he⟩ : n.main.Live a := hf.client.safe.queued a hmem
      have hnew : ∀ id : UInt32, n.main.requestListeners[id]? ≠ some (some a) := fun id hid =>
        (hf.client.safe.registered id a hid).2 hmem
      obtain ⟨hcomposed, hawaits, hkept⟩ := hdequeued.send rand (.add e.run) he hnew hnot hclean.1
      obtain rfl : ({ n.main with executors } : Main).send rand a (.add e.run) = main := by
        simpa only [Main.step, hm, Main.run, Main.executor, he, Except.map, Except.ok.injEq] using h
      obtain ⟨asks, tells, hasks, htells, htoServer, htoClient, hmail⟩ := hf.mail
      refine ⟨hf.agrees.client fun id hid => ?_, hcomposed, asks ++ [.add (rand n.main.drawn) e.run], tells, ?_, htells,
        ?_, htoClient, ?_⟩
      · show id ∈ (n.main.sent ++ [_]).map _
        rw [List.map_append]
        exact List.mem_append_left _ hid
      · rw [sentSince_one rfl, List.map_append, ← hasks]
        rfl
      · simpa [or_imp, forall_and] using ⟨htoServer, rfl⟩
      · have hother : ∀ l ∈ asks ++ tells, l.id ≠ rand n.main.drawn := by
          intro l hl hid
          have hdrawn := (hf.client.awaits (hmail.awaited l hl)).1
          rw [hid] at hdrawn
          exact hclean.1 hdrawn
        exact Mail.ask (hmail.post (fun l _ hw => hkept _ _ hw) rfl hawaits hother
          (fun hid => hclean.1 (hf.agrees.sent _ hid)) (fun _ hq => by cases hq)
          ⟨by simp [Letter.capacity], by simp [Letter.capacity]⟩
          rfl rfl)
  | receive c => exact absurd rfl (hreceive c)

theorem Follows.arrives {n : Network} (hf : Follows seen n p) (hmail : Mail n.main p acknowledged ls) :
    ∀ l ∈ ls, Delivers l.data [l.wrapper] ∨ Delivers l.data [] := by
  intro l hl
  obtain ⟨hroom, hsmall⟩ := hmail.room l hl
  exact l.whole_or_lost ⟨by omega, hsmall⟩ (hf.client.awaits (hmail.awaited l hl)).2 fun q hq =>
    hf.agrees.shown (hmail.pending l hl q hq)

/-- A message on its way is too long for its output. -/
def Lossy (n : Network) (p : Protocol) : Prop :=
  ∃ ls l, Mail n.main p n.acknowledged ls ∧ l ∈ ls ∧ Delivers l.data []

/-- What a worker makes of a message: nothing, and it is its last, or a step
and a response. -/
def Served (seen : Prop) (n n' : Network) (p p' : Protocol) : Prop :=
  Lossy n p ∧ p' = p ∧ n'.strings = n.strings ∧ n'.responses.length = n.responses.length ∧ n'.stuck = n.stuck + 1 ∨
    (∃ a, Guarded (ofPartial (Dangling.step Client.answer)) (Watched seen) ⟨p, n.strings⟩ a ⟨p', n'.strings⟩) ∧
      n'.responses.length = n.responses.length + 1 ∧ n'.stuck = n.stuck

theorem Follows.takes {n : Network} {p' : Protocol} {strings : Strings} {a : Dangling.Act} (hf : Follows seen n p)
    (h : Guarded (ofPartial (Dangling.step Client.answer)) (Watched seen) ⟨p, n.strings⟩ a ⟨p', strings⟩) :
    Fresh p a.1 ∧ Takes Client.answer seen p a.1 p' := by
  have hgone : Gone (Dangling.state ⟨p, n.strings⟩) := by
    rw [Dangling.state, hf.agrees.server]
    exact hf.agrees.gone
  exact ⟨h.1.1, (Dangling.takes_step hgone h.2).1.mono h.1.2⟩

/-- What the client makes of one: nothing, or a request or an acknowledgement. -/
def Received (n n' : Network) (p : Protocol) : Prop :=
  Lossy n p ∧ n'.requests.length = n.requests.length ∧ n'.acknowledged = n.acknowledged ∨
    n'.requests.length + n'.acknowledged.length = n.requests.length + n.acknowledged.length + 1

theorem Follows.handled {n : Network} {k : Nat} {s' : Server × Strings} {sent : Sent} {asks tells : List Letter}
    (hf : Follows seen n p) (hasks : n.requests.eraseIdx k = asks.map Letter.data)
    (htells : n.responses = tells.map Letter.data) (htoServer : ∀ l ∈ asks, l.toServer = true)
    (htoClient : ∀ l ∈ tells, l.toServer = false)
    (h : Handled seen n.main (n.server, n.strings) p n.acknowledged (asks ++ tells) s' sent) :
    let n' := { n with
      server := s'.1
      strings := s'.2
      requests := n.requests.eraseIdx k
      responses := n.responses ++ [sent.data] }
    ∃ p', Follows seen n' p' ∧ Served seen n n' p p' := by
  obtain ⟨a, p', hstep, hagrees, l', hdata, hto, hmail⟩ := h
  refine ⟨p', ⟨hagrees, hf.client, asks, tells ++ [l'], hasks, ?_, htoServer, ?_, ?_⟩,
    .inr ⟨⟨a, hstep⟩, by simp, rfl⟩⟩
  · rw [List.map_append, ← htells, ← hdata]
    rfl
  · simpa [or_imp, forall_and] using ⟨htoClient, hto⟩
  · exact hmail.perm (by rw [← List.append_assoc]; exact (List.perm_append_singleton ..).symm)

/-- **What a worker makes of a letter** is a step of the protocol, or nothing. -/
theorem Follows.serve {rand : Nat → UInt32} {n n' : Network} {k : Nat} {env : Nat → Env} {remains : Nat → Remains}
    (hf : Follows seen n p) (hsees : seen → n.Sees (.serve k env remains)) (h : Steps rand n (.serve k env remains) n') :
    ∃ p', Follows seen n' p' ∧ Served seen n n' p p' := by
  cases h with
  | serve _ hdata hpass =>
  obtain ⟨asks, tells, hasks, htells, htoServer, htoClient, hmail⟩ := hf.mail
  obtain ⟨l, hl, rfl, hperm, herase⟩ := letter_at hasks hdata
  have hmail : Mail n.main p n.acknowledged (l :: (asks.eraseIdx k ++ tells)) := hmail.perm (hperm.append_right tells)
  have htoServer' : ∀ l ∈ asks.eraseIdx k, l.toServer = true := fun l' hl' => htoServer l' (List.mem_of_mem_eraseIdx hl')
  obtain ⟨hid, hmodest⟩ := hf.client.awaits (hmail.awaited l List.mem_cons_self)
  have hintact : seen → Intact n.server.heap (remains 0) := fun hs => hsees hs 0
  rcases hf.arrives hmail l List.mem_cons_self with hwhole | hlost
  · have hto := htoServer l hl
    cases l with
    | add id request =>
      have hcall := run_whole (fun _ _ => rfl) hwhole hpass
      obtain ⟨⟨s', sent⟩, hdone, rfl⟩ := map_ok.mp hcall
      exact hf.handled herase htells htoServer' htoClient (hf.agrees.add hmail hid hmodest hintact hdone)
    | addContinue id q =>
      have hcall := run_whole (fun _ _ => rfl) hwhole hpass
      obtain ⟨⟨s', sent⟩, hdone, rfl⟩ := map_ok.mp hcall
      exact hf.handled herase htells htoServer' htoClient (hf.agrees.addContinue hmail hid hintact hdone)
    | addOk _ _ _ => cases hto
    | addTraverse _ _ _ => cases hto
  · obtain rfl := run_lost (fun _ _ => rfl) hlost hpass
    refine ⟨p, ⟨hf.agrees, hf.client, asks.eraseIdx k, tells, herase, ?_, htoServer', htoClient, hmail.lose⟩,
      .inl ⟨⟨_, l, hmail, List.mem_cons_self, hlost⟩, rfl, rfl, by simp, rfl⟩⟩
    rw [← htells]
    exact List.append_nil _

theorem finishedSince_same {m m' : Main} (h : m'.successes = m.successes) : finishedSince m m' = [] := by
  simp [finishedSince, h]

theorem call_awaited (rand : Nat → UInt32) {a : Nat} {e : InsertExecutor} {wrapper : Wrapper}
    (ha : m.requestListeners[wrapper.id]? = some (some a)) (he : m.heap[a]? = some (some e)) :
    m.call rand (.message wrapper) = .ok (m.callback rand a e wrapper) := by
  have hlistener : m.listener wrapper.id = (m, some a) := by
    unfold Main.listener
    rw [ha]
  simp only [Main.call, hlistener, Main.executor, he]
  rfl

theorem Follows.received {n : Network} {k : Nat} {m' : Main} {tells : List Letter} {asks : List Letter}
    (finished : List RequestAdd) (hf : Follows seen n p) (hc : Composed m') (hsent : m'.sent = n.main.sent)
    (hasks : n.requests = asks.map Letter.data) (htells : n.responses.eraseIdx k = tells.map Letter.data)
    (htoServer : ∀ l ∈ asks, l.toServer = true) (htoClient : ∀ l ∈ tells, l.toServer = false)
    (hfinished : finishedSince n.main m' = finished)
    (hmail : Mail m' p (n.acknowledged ++ finished) (asks ++ tells)) :
    Follows seen
      { n with
        main := m'
        requests := n.requests ++ sentSince n.main m'
        responses := n.responses.eraseIdx k
        acknowledged := n.acknowledged ++ finishedSince n.main m' } p := by
  refine ⟨hf.agrees.client fun id hid => by rwa [hsent], hc, asks, tells, ?_, htells, htoServer, htoClient, ?_⟩
  · rw [sentSince_same hsent, List.append_nil]
    exact hasks
  · rw [hfinished]
    exact hmail

theorem Mail.acknowledge {capacity : Int} {id : UInt32} {request : RequestAdd}
    (h : Mail m p acknowledged (.addOk capacity id request :: ls)) : Mail m p (acknowledged ++ [request]) ls :=
  { h.lose with
    answered := by
      have hbefore := h.answered
      rw [List.filterMap_cons_some (show (Letter.addOk capacity id request).done? = some request from rfl)] at hbefore
      rwa [List.append_assoc, List.singleton_append] }

theorem Follows.answered {rand : Nat → UInt32} {n : Network} {k a : Nat} {e : InsertExecutor} {capacity : Int}
    {id : UInt32} {q : Pending} {tells asks : List Letter} (hf : Follows seen n p)
    (hdrawn : rand n.main.drawn ∉ n.main.sent.map (·.id)) (ha : n.main.requestListeners[id]? = some (some a))
    (he : n.main.heap[a]? = some (some e)) (hrequest : e.run = q.request) (hasks : n.requests = asks.map Letter.data)
    (htells : n.responses.eraseIdx k = tells.map Letter.data) (htoServer : ∀ l ∈ asks, l.toServer = true)
    (htoClient : ∀ l ∈ tells, l.toServer = false)
    (hmail : Mail n.main p n.acknowledged (.addTraverse capacity id q :: (asks ++ tells))) :
    let main := n.main.onResponseAddTraverse rand a e id { initRequestId := q.initRequestId, ciphertext := q.ciphertext }
    Follows seen
      { n with
        main
        requests := n.requests ++ sentSince n.main main
        responses := n.responses.eraseIdx k
        acknowledged := n.acknowledged ++ finishedSince n.main main } p := by
  intro main
  have hwrapper : main.sent = n.main.sent ++ [⟨rand n.main.drawn, .addContinue
      { initRequestId := q.initRequestId, compareResult := Client.answer q.request q.ciphertext }⟩] := by
    rw [← hrequest, ← hf.client.answers he { initRequestId := q.initRequestId, ciphertext := q.ciphertext }]
    rfl
  have hnew : ∀ id' : UInt32, (n.main.requestListeners.erase id)[id']? ≠ some (some a) := fun id' hid' =>
    (Main.erase_some.mp hid').1 (hf.client.safe.once id' id a (Main.erase_some.mp hid').2 ha)
  obtain ⟨hcomposed, hawaits, hkept⟩ := (hf.client.erase id).send rand
    (.addContinue (e.onResponseAddTraverse { initRequestId := q.initRequestId, ciphertext := q.ciphertext })) he hnew
    (hf.client.safe.registered id a ha).2 hdrawn
  rw [hrequest] at hawaits
  have hother : ∀ l ∈ asks ++ tells, l.id ≠ rand n.main.drawn := by
    intro l hl hid
    have hawaited := (hf.client.awaits (hmail.lose.awaited l hl)).1
    rw [hid] at hawaited
    exact hdrawn hawaited
  refine ⟨hf.agrees.client fun id' hid' => ?_, hcomposed, asks ++ [.addContinue (rand n.main.drawn) q], tells, ?_,
    htells, ?_, htoClient, ?_⟩
  · rw [hwrapper, List.map_append]
    exact List.mem_append_left _ hid'
  · rw [sentSince_one hwrapper, List.map_append, ← hasks]
    rfl
  · simpa [or_imp, forall_and] using ⟨htoServer, rfl⟩
  · rw [show finishedSince n.main main = [] from finishedSince_same rfl, List.append_nil]
    refine Mail.ask (hmail.lose.post (fun l hl hw => hkept _ _ (hw.erase (hmail.ne_id l hl))) hwrapper hawaits hother
      (fun hid => hdrawn (hf.agrees.sent _ hid)) (fun q' hq' => ?_) ⟨by simp [Letter.capacity], by simp [Letter.capacity]⟩
      rfl rfl)
    cases hq'
    exact ⟨hmail.pending _ List.mem_cons_self q rfl, hmail.ne_insert rfl⟩

/-- **What the client makes of a letter** is an answer to it, or nothing. -/
theorem Follows.receive {rand : Nat → UInt32} {n n' : Network} {k : Nat} (hf : Follows seen n p)
    (hclean : Clean rand n (.receive k)) (h : Steps rand n (.receive k) n') :
    Follows seen n' p ∧ begun n'.main.sent = begun n.main.sent ∧ Received n n' p := by
  cases h with
  | @receive _ _ _ _ _ main hdata hrun =>
  obtain ⟨asks, tells, hasks, htells, htoServer, htoClient, hmail⟩ := hf.mail
  obtain ⟨l, hl, rfl, hperm, herase⟩ := letter_at htells hdata
  have hmail : Mail n.main p n.acknowledged (l :: (asks ++ tells.eraseIdx k)) :=
    (hmail.perm (hperm.append_left asks)).perm List.perm_middle
  have htoClient' : ∀ l ∈ tells.eraseIdx k, l.toServer = false := fun l' hl' =>
    htoClient l' (List.mem_of_mem_eraseIdx hl')
  rcases hf.arrives hmail l List.mem_cons_self with hwhole | hlost
  · have hto := htoClient l hl
    have hcall : n.main.call rand (.message l.wrapper) = .ok main := run_whole (fun _ _ => rfl) hwhole hrun
    obtain ⟨a, e, ha, he, hrequest⟩ := hmail.awaited l List.mem_cons_self
    cases l with
    | add _ _ => cases hto
    | addContinue _ _ => cases hto
    | addOk capacity id request =>
      obtain rfl : n.main.onResponseAddOk a id = main := Except.ok.inj ((call_awaited rand ha he).symm.trans hcall)
      obtain ⟨hcomposed, hkept⟩ := hf.client.onResponseAddOk ha
      have hfinished : finishedSince n.main (n.main.onResponseAddOk a id) = [request] := by
        simp [finishedSince, Main.onResponseAddOk, he, show e.run = request from hrequest]
      refine ⟨hf.received [request] hcomposed rfl hasks herase htoServer htoClient' hfinished ?_, rfl, .inr ?_⟩
      · exact hmail.acknowledge.client (fun l' hl' => hkept _ _ (hmail.ne_id l' hl')) rfl
      · have hsent : sentSince n.main (n.main.onResponseAddOk a id) = [] := sentSince_same rfl
        rw [hfinished, hsent]
        simp [Nat.add_assoc]
    | addTraverse capacity id q =>
      obtain rfl : n.main.onResponseAddTraverse rand a e id ⟨q.initRequestId, q.ciphertext⟩ = main :=
        Except.ok.inj ((call_awaited rand ha he).symm.trans hcall)
      refine ⟨hf.answered hclean.1 ha he hrequest hasks herase htoServer htoClient' hmail, ?_, .inr ?_⟩
      · simp [begun, Main.onResponseAddTraverse, Main.send]
      · have hnone : finishedSince n.main (n.main.onResponseAddTraverse rand a e id ⟨q.initRequestId, q.ciphertext⟩) = [] :=
          finishedSince_same rfl
        have hsent : sentSince n.main (n.main.onResponseAddTraverse rand a e id ⟨q.initRequestId, q.ciphertext⟩) =
            [outgoing _] := sentSince_one rfl
        rw [hnone, hsent]
        simp [Nat.add_right_comm]
  · obtain rfl : main = n.main := run_lost (fun _ _ => rfl) hlost hrun
    refine ⟨hf.received [] hf.client rfl hasks herase htoServer htoClient' (finishedSince_same rfl) ?_, rfl,
      .inl ⟨⟨_, l, hmail, List.mem_cons_self, hlost⟩, ?_, ?_⟩⟩
    · rw [List.append_nil]
      exact hmail.lose
    · simp [sentSince]
    · simp [finishedSince]

/-- **Every step is followed.** -/
theorem Followed.step {rand : Nat → UInt32} {n n' : Network} {d : Dangling} {a : Act} (hf : Followed seen n d)
    (h : Guarded (Steps rand) (fun n a => Clean rand n a ∧ (seen → n.Sees a)) n a n') :
    ∃ bs d', Runs (Guarded (ofPartial (Dangling.step Client.answer)) (Watched seen)) d bs d' ∧ Followed seen n' d' := by
  obtain ⟨p, strings⟩ := d
  obtain ⟨hf, rfl⟩ := hf
  obtain ⟨⟨hclean, hsees⟩, hstep⟩ := h
  cases a with
  | client a =>
    cases hstep with
    | client hreceive hmain => exact Followed.stay ⟨hf.act hclean hreceive hmain, rfl⟩
  | serve k env remains =>
    obtain ⟨p', hf', ⟨-, rfl, hstrings, -⟩ | ⟨⟨a, ha⟩, -⟩⟩ := hf.serve hsees hstep
    · exact Followed.stay ⟨hf', hstrings.symm⟩
    · exact ⟨[a], ⟨p', n'.strings⟩, .one ha, hf', rfl⟩
  | receive k =>
    have hstrings : n'.strings = n.strings := by
      cases hstep
      rfl
    exact Followed.stay ⟨(hf.receive hclean hstep).1, hstrings.symm⟩

theorem Follows.answerable {n : Network} {l : Letter} (hf : Follows seen n p) (hto : l.toServer = true)
    (hpending : ∀ q, l.pending? = some q → q ∈ p.pending) (env : Nat → Env) (remains : Nat → Remains) :
    ∃ w, Strings.call env remains (⟨n.server, []⟩, n.strings) (.message l.wrapper) = .ok w := by
  obtain ⟨ts, hi⟩ := hf.agrees.valid
  have hserver : p.server = n.server := hf.agrees.server
  obtain ⟨hadd, hcontinue⟩ := hi.serves
  rw [hserver] at hadd hcontinue
  have hserves : ∀ message : Message, (∃ s' sent, n.server.serve (env 0) message = .ok (s', sent)) →
      ∃ w, ((Strings.serve (env 0) (remains 0) (n.server, n.strings) message).map fun done =>
        ((⟨done.1.1, [] ++ [done.2]⟩, done.1.2) : Worker × Strings)) = .ok w := by
    rintro message ⟨s', sent, hs⟩
    obtain ⟨strings, sent', hserve⟩ := Strings.serve_of_serve (remains 0) (s := (n.server, n.strings)) hs
    exact ⟨_, map_ok.mpr ⟨_, hserve, rfl⟩⟩
  cases l with
  | add id request => exact hserves (.add id request) (hadd (env 0) id request)
  | addContinue id q => exact hserves (.addContinue id _) (hcontinue (env 0) id q (hpending q rfl) _)
  | addOk _ _ _ => cases hto
  | addTraverse _ _ _ => cases hto

/-- Whatever is on its way is received when its turn comes, by a worker that
owes no reply. -/
theorem Follows.enabled {n : Network} (rand : Nat → UInt32) (hf : Follows seen n p) :
    (n.stuck < Daemon.workerCount → ∀ k env remains, k < n.requests.length →
      ∃ n', Steps rand n (.serve k env remains) n') ∧
      ∀ k, k < n.responses.length → ∃ n', Steps rand n (.receive k) n' := by
  obtain ⟨asks, tells, hasks, htells, htoServer, -, hmail⟩ := hf.mail
  have harrives := hf.arrives hmail
  constructor
  · intro hfree k env remains hk
    obtain ⟨l, hl, hdata, -⟩ := letter_at hasks (List.getElem?_eq_getElem hk)
    have hmem : l ∈ asks ++ tells := List.mem_append_left _ hl
    obtain ⟨w, hw⟩ := hf.answerable (htoServer l hl) (hmail.pending l hmem) env remains
    obtain ⟨fuel, q, w', hrun⟩ := run_returns (fun _ _ => rfl) (harrives l hmem) hw
    exact ⟨_, .serve hfree (List.getElem?_eq_getElem hk) (hdata ▸ hrun)⟩
  · intro k hk
    obtain ⟨l, hl, hdata, -⟩ := letter_at htells (List.getElem?_eq_getElem hk)
    have hmem : l ∈ asks ++ tells := List.mem_append_right _ hl
    obtain ⟨m', hm', -⟩ : ∃ m', n.main.call rand (.message l.wrapper) = .ok m' ∧ m'.Safe := hf.client.safe.call _
    obtain ⟨fuel, q, m'', hrun⟩ := run_returns (fun _ _ => rfl) (harrives l hmem) hm'
    exact ⟨_, .receive (List.getElem?_eq_getElem hk) (hdata ▸ hrun)⟩

theorem Followed.runs {rand : Nat → UInt32} {n : Network} {as : List Act}
    (h : Runs (Guarded (Steps rand) fun n a => Clean rand n a ∧ (seen → n.Sees a)) Network.init as n) :
    ∃ bs p, Runs (Guarded (ofPartial (Dangling.step Client.answer)) (Watched seen)) .init bs ⟨p, n.strings⟩ ∧
      Follows seen n p := by
  have hstart : Followed seen Network.init .init := ⟨Follows.init, rfl⟩
  obtain ⟨bs, ⟨p, strings⟩, hrun, hf, rfl⟩ := h.simulate (R := Followed seen) (fun _ _ _ _ hf hs => hf.step hs) hstart
  exact ⟨bs, p, hrun, hf⟩

theorem unwatched {rand : Nat → UInt32} {n n' : Network} {as : List Act}
    (h : Runs (Guarded (Steps rand) (Clean rand)) n as n') :
    Runs (Guarded (Steps rand) fun n a => Clean rand n a ∧ (False → n.Sees a)) n as n' :=
  h.mono fun _ _ _ hs => ⟨⟨hs.1, False.elim⟩, hs.2⟩

/-- **Over byte strings the server and the client do what the protocol
does**, in any order of the messages and whatever stands where the nodes' strings
were, as long as no id is drawn twice and rows are modest: a message too long for its
output is lost, and does nothing but hold up its worker. No handler follows a null
pointer, the client calls no executor that is gone, and what is on its way can be
received while no worker is held up. -/
theorem network_follows {rand : Nat → UInt32} {n : Network} {as : List Act}
    (h : Runs (Guarded (Steps rand) (Clean rand)) init as n) :
    (∃ bs p, Runs (Guarded (ofPartial (Dangling.step Client.answer)) fun d a => Fresh d.protocol a.1) .init bs
        ⟨p, n.strings⟩ ∧ p.server = n.server ∧
      n.acknowledged.Subperm p.answered ∧ p.requests.Subperm (begun n.main.sent)) ∧
    (n.stuck = 0 → ∀ k env remains, k < n.requests.length → ∃ n', Steps rand n (.serve k env remains) n') ∧
    ∀ k, k < n.responses.length → ∃ n', Steps rand n (.receive k) n' := by
  obtain ⟨bs, p, hrun, hf⟩ := Followed.runs (unwatched h)
  obtain ⟨hserve, hreceive⟩ := hf.enabled rand
  refine ⟨⟨bs, p, hrun.mono fun _ _ _ hs => ⟨hs.1.1, hs.2⟩, hf.agrees.server, ?_, ?_⟩,
    fun hnone => hserve (hnone ▸ by decide), hreceive⟩
  · obtain ⟨_, _, -, -, -, -, hmail⟩ := hf.mail
    exact (List.sublist_append_left ..).subperm.trans hmail.answered
  · obtain ⟨_, _, -, -, -, -, hmail⟩ := hf.mail
    exact (List.sublist_append_left ..).subperm.trans hmail.begun

/-- The values of two inserts stand where the strings were. -/
def pairRemains : Nat → Remains := fun _ => Strings.standing [[0x35], [0x33]]

/-- Two inserts into one table have been sent, and the client of the second has been
shown the root. -/
def pairActs : List Act :=
  [.client (.addExecutor [0x64] [0x74] (RequestAdd.ofValue [0x35]).row),
    .client (.addExecutor [0x64] [0x74] (RequestAdd.ofValue [0x33]).row), .client .takeQueue,
    .client .runExecutor, .client .runExecutor, .serve 0 (fun _ => .calm) pairRemains,
    .serve 0 (fun _ => .calm) pairRemains, .receive 0, .receive 0]

set_option maxRecDepth 8000 in
/-- And then it is answered. -/
theorem pair_runs :
    let step := Guarded (ShallowSteps UInt32.ofNat) fun n a => Clean UInt32.ofNat n a ∧ n.Sees a
    ∃ n n' n'', Runs step init pairActs n ∧ step n (.serve 0 (fun _ => .calm) pairRemains) n' ∧
      step n' (.receive 0) n'' ∧ n.stuck = 0 ∧ n.requests.length = 1 ∧
      begun n.main.sent = [.ofValue [0x35], .ofValue [0x33]] ∧ (writtenSince .init n'.server).length = 2 ∧
      n''.acknowledged.length = 2 ∧ n''.requests = [] ∧ n''.responses = [] := by
  intro step
  have hmade : ∀ value, Modest (.ofValue value) → ∀ database table row,
      Act.client (.addExecutor [0x64] [0x74] (RequestAdd.ofValue value).row) =
        .client (.addExecutor database table row) → Modest { database, table, row } := by
    rintro value h _ _ _ ⟨⟩
    exact h
  exact ⟨_, _, _, .cons ⟨⟨⟨by decide, hmade _ ⟨by decide, by decide⟩⟩, trivial⟩, .client nofun rfl, by decide⟩
    (.cons ⟨⟨⟨by decide, hmade _ ⟨by decide, by decide⟩⟩, trivial⟩, .client nofun rfl, by decide⟩
    (.cons ⟨⟨⟨by decide, nofun⟩, trivial⟩, .client nofun rfl, by decide⟩
    (.cons ⟨⟨⟨by decide, nofun⟩, trivial⟩, .client nofun rfl, by decide⟩
    (.cons ⟨⟨⟨by decide, nofun⟩, trivial⟩, .client nofun rfl, by decide⟩
    (.cons ⟨⟨⟨by decide, nofun⟩, fun _ => nofun⟩,
      @Steps.serve _ _ 0 _ _ (outgoing ⟨0, .add (.ofValue [0x35])⟩) 60 _ _ (by decide) rfl
        (rfl : Strings.pass _ _ 60 _ _ = _), by decide⟩
    (.cons ⟨⟨⟨by decide, nofun⟩, fun _ => (by decide : Intact _ (pairRemains 0))⟩,
      @Steps.serve _ _ 0 _ _ (outgoing ⟨1, .add (.ofValue [0x33])⟩) 60 _ _ (by decide) rfl
        (rfl : Strings.pass _ _ 60 _ _ = _), by decide⟩
    (.cons ⟨⟨⟨by decide, nofun⟩, trivial⟩, @Steps.receive _ _ 0 (Sent.new 9000 ⟨0, .addOk⟩).data 60 _ _ rfl
        (rfl : ObjectParser.run _ 60 _ _ _ = _), by decide⟩
    (.cons ⟨⟨⟨by decide, nofun⟩, trivial⟩,
      @Steps.receive _ _ 0 (Sent.new 9000 ⟨1, .addTraverse ⟨1, [0x35]⟩⟩).data 60 _ _ rfl
        (rfl : ObjectParser.run _ 60 _ _ _ = _), by decide⟩ .nil)))))))),
    ⟨⟨⟨by decide, nofun⟩, fun _ => (by decide : Intact _ (pairRemains 0))⟩,
      @Steps.serve _ _ 0 _ _ (outgoing ⟨2, .addContinue ⟨1, 1⟩⟩) 60 _ _ (by decide) rfl
        (rfl : Strings.pass _ _ 60 _ _ = _), by decide⟩,
    ⟨⟨⟨by decide, nofun⟩, trivial⟩, @Steps.receive _ _ 0 (Sent.new 10000 ⟨2, .addOk⟩).data 60 _ _ rfl
        (rfl : ObjectParser.run _ 60 _ _ _ = _), by decide⟩,
    rfl, rfl, rfl, rfl, rfl, rfl, rfl⟩

/-- The answer of the second insert's client is on its way. -/
theorem network_follows_pair :
    ∃ n, Runs (Guarded (Steps UInt32.ofNat) (Clean UInt32.ofNat)) init pairActs n ∧
      ∃ n', Steps UInt32.ofNat n (.serve 0 (fun _ => .calm) fun _ _ _ => 0) n' := by
  obtain ⟨n, -, -, hrun, -, -, hstuck, hone, -⟩ := pair_runs
  have hrun : Runs (Guarded (Steps UInt32.ofNat) (Clean UInt32.ofNat)) init _ n :=
    hrun.mono fun _ _ _ hs => ⟨hs.1.1, hs.2.1⟩
  exact ⟨n, hrun, (network_follows hrun).2.1 hstuck 0 _ _ (by rw [hone]; decide)⟩

/-- **What the network leaves in the trees**: as long as workers find the nodes'
bytes where they were, a table's tree is the textbook insertion of inserts of the
client, each made at most as often as it was sent, and among them each that was
acknowledged. -/
theorem network_trees {rand : Nat → UInt32} {n : Network} {as : List Act}
    (h : Runs (Guarded (Steps rand) fun n a => Clean rand n a ∧ n.Sees a) init as n) :
    ∃ rs : List RequestAdd, n.acknowledged.Subperm rs ∧ rs.Subperm (begun n.main.sent) ∧
      ∀ key, Protocol.values n.server key = Protocol.textbook Client.answer key rs := by
  obtain ⟨bs, p, hrun, hf⟩ := @Followed.runs True rand n as (h.mono fun _ _ _ hs => ⟨⟨hs.1.1, fun _ => hs.1.2⟩, hs.2⟩)
  obtain ⟨ts, hi⟩ := hf.agrees.valid
  obtain ⟨_, _, -, -, -, -, hmail⟩ := hf.mail
  refine ⟨p.answered, (List.sublist_append_left ..).subperm.trans hmail.answered, ?_, fun key => ?_⟩
  · have hanswered : p.answered.Sublist p.requests := List.sublist_append_left ..
    exact (hanswered.trans (List.sublist_append_left ..)).subperm.trans hmail.begun
  · rw [← hi.textbook trivial key, hf.agrees.server]

/-- Both inserts are in the tree, the second over a traversal. -/
theorem network_trees_pair :
    ∃ n, Runs (Guarded (Steps UInt32.ofNat) fun n a => Clean UInt32.ofNat n a ∧ n.Sees a) init
        (pairActs ++ [.serve 0 (fun _ => .calm) pairRemains, .receive 0]) n ∧
      n.acknowledged.length = 2 ∧
      ∃ rs : List RequestAdd, n.acknowledged.Subperm rs ∧ rs.Subperm (begun n.main.sent) ∧
        ∀ key, Protocol.values n.server key = Protocol.textbook Client.answer key rs := by
  obtain ⟨n, n', n'', hrun, hserve, hreceive, -, -, -, -, hboth, -⟩ := pair_runs
  have hrun : Runs (Guarded (Steps UInt32.ofNat) fun n a => Clean UInt32.ofNat n a ∧ n.Sees a) init _ n'' :=
    (hrun.append (.cons hserve (.one hreceive))).mono fun _ _ _ hs => ⟨hs.1, hs.2.1⟩
  exact ⟨n'', hrun, hboth, network_trees hrun⟩

end Network

end Zql
