/-
What is on its way comes to its end. Once the client makes no more executors,
the messages that go to and fro between it and the server are bounded: each
costs some of the walking the inserts have left (`Protocol.work`), and of that
an insert the server has not seen yet brings only as much as there are nodes
(`Protocol.ahead`). If rows are short enough for the outputs, no message is
lost on the way, and so at the end every insert has been acknowledged, once
(`network_completes`), whatever workers found where the nodes' strings were.
-/
import Zql.Mail

namespace Zql

open Dyadic SearchTree Transition

open Client (Main)

open Protocol (Fresh)

namespace Protocol

variable {answer : RequestAdd → Ciphertext → Int32} {seen : Prop} {p p' : Protocol} {ts : List (BinaryTree Addr)} {a : Act}

/-- The steps left when `k` inserts more are to come, at most. -/
def ahead (p : Protocol) (k : Nat) : Nat := p.work + p.pending.length * k + k * (p.nodesToBe + k + 1)

theorem ahead_le (p : Protocol) (k : Nat) :
    p.ahead k ≤ (p.pending.length + k) * (p.server.heap.length + (p.pending.length + k) + 1) := by
  have hwork := p.work_le
  simp only [ahead, nodesToBe] at hwork ⊢
  nlinarith

/-- A client's answer brings no insert and no more than the leaf it costs. -/
theorem answering_bounds (hg : Answering p a) (h : Takes answer seen p a p') :
    p'.pending.length ≤ p.pending.length ∧ p'.nodesToBe ≤ p.nodesToBe := by
  cases a with
  | add _ _ _ => exact hg.elim
  | addContinue id k env =>
  obtain ⟨q, server, response, c, hq, hcont, -, rfl⟩ := h
  have hlength := length_erase hq
  cases hcont with
  | equal _ => simp only [receive, Response.showing, nodesToBe]; omega
  | moved _ _ hgo _ =>
    obtain ⟨rfl, -⟩ := BTreeTraverse.goTo_moved hgo
    simp only [receive, Response.showing, nodesToBe, List.length_append, List.length_singleton]
    omega
  | ended _ _ hgo _ _ =>
    obtain ⟨node, -, -, rfl, -⟩ := BTreeTraverse.goTo_ended hgo
    simp only [receive, Response.showing, nodesToBe, List.length_append, List.length_singleton, List.length_set]
    omega

/-- Who waited has a step more when a node more is to be, and who came has all
of them. -/
theorem work_le_of_kept {q? : Option Pending} (hnodes : p'.nodesToBe ≤ p.nodesToBe + 1)
    (hpending : p'.pending = p.pending ++ q?.toList)
    (hkept : ∀ q ∈ p.pending,
      p'.server.holder.traverses[q.initRequestId]? = p.server.holder.traverses[q.initRequestId]?) :
    p'.work ≤ p.work + p.pending.length + p.nodesToBe + 1 := by
  have hold : (p.pending.map fun q => p'.nodesToBe - p'.depth q).sum ≤
      (p.pending.map fun q => p.nodesToBe - p.depth q + 1).sum := by
    refine List.sum_le_sum fun q hq => ?_
    have hdepth : p'.depth q = p.depth q := by simp only [depth, hkept q hq]
    omega
  have hsplit : (p.pending.map fun q => p.nodesToBe - p.depth q + 1).sum = p.work + p.pending.length := by
    rw [List.sum_map_add]
    simp [work]
  have hnew : (q?.toList.map fun q => p'.nodesToBe - p'.depth q).sum ≤ p'.nodesToBe := by
    cases q? <;> simp
  rw [work, hpending, List.map_append, List.sum_append]
  omega

/-- A new insert brings one node, and a walk past those there are. -/
theorem adding_bounds {id : UInt32} {request : RequestAdd} {env : Env} (hid : ∀ q ∈ p.pending, q.initRequestId ≠ id)
    (h : Takes answer seen p (.add id request env) p') :
    p'.pending.length ≤ p.pending.length + 1 ∧ p'.nodesToBe ≤ p.nodesToBe + 1 ∧
      p'.work ≤ p.work + p.pending.length + p.nodesToBe + 1 := by
  obtain ⟨server, response, c, hadded, -, rfl⟩ := h
  have hcomes : ∃ q? : Option Pending,
      (p.receive id request server (response.showing c)).pending = p.pending ++ q?.toList ∧
      (p.receive id request server (response.showing c)).nodesToBe ≤ p.nodesToBe + 1 ∧ ∀ q ∈ p.pending,
        server.holder.traverses[q.initRequestId]? = p.server.holder.traverses[q.initRequestId]? := by
    cases hadded with
    | plain _ => exact ⟨none, (List.append_nil _).symm, Nat.le_succ _, fun _ _ => rfl⟩
    | root _ _ =>
      refine ⟨none, (List.append_nil _).symm, ?_, fun _ _ => rfl⟩
      simp only [receive, Response.showing, nodesToBe, List.length_append, List.length_singleton]
      omega
    | started _ _ _ =>
      refine ⟨some _, rfl, ?_, fun q hq => BTreeTraverseHolder.update_of_ne (hid q hq)⟩
      simp only [receive, Response.showing, nodesToBe, List.length_append, List.length_singleton]
      omega
  obtain ⟨q?, hpending, hnodes, hkept⟩ := hcomes
  refine ⟨?_, hnodes, work_le_of_kept hnodes hpending fun q hq => ?_⟩
  · rw [hpending, List.length_append]
    cases q? <;> simp
  · rw [receive_server]
    exact hkept q hq

/-- **A new insert takes from what was ahead with it.** -/
theorem ahead_adding {id : UInt32} {request : RequestAdd} {env : Env} {k : Nat}
    (hid : ∀ q ∈ p.pending, q.initRequestId ≠ id) (h : Takes answer seen p (.add id request env) p') :
    p'.ahead k < p.ahead (k + 1) := by
  obtain ⟨hpending, hnodes, hwork⟩ := adding_bounds hid h
  have hothers : p'.pending.length * k ≤ (p.pending.length + 1) * k := Nat.mul_le_mul_right k hpending
  have hnew : k * (p'.nodesToBe + k + 1) ≤ k * (p.nodesToBe + 1 + k + 1) := Nat.mul_le_mul_left k (by omega)
  simp only [ahead]
  nlinarith

/-- **And so does every answer.** -/
theorem Valid.ahead_answering (hi : Valid answer seen p ts) (hg : Answering p a) (h : Takes answer seen p a p')
    (k : Nat) : p'.ahead k < p.ahead k := by
  obtain ⟨hpending, hnodes⟩ := answering_bounds hg h
  have hwork := hi.work_lt hg h
  have hothers : p'.pending.length * k ≤ p.pending.length * k := Nat.mul_le_mul_right k hpending
  have hnew : k * (p'.nodesToBe + k + 1) ≤ k * (p.nodesToBe + k + 1) := Nat.mul_le_mul_left k (by omega)
  simp only [ahead]
  omega

/-! ## Where the values come from -/

/-- The values in memory are those of inserts answered, no more than one of each. -/
def Sourced (p : Protocol) : Prop := (p.server.heap.map (·.ciphertext)).Subperm (p.answered.filterMap (·.value?))

theorem Sourced.init : Sourced .init := List.Subperm.refl []

theorem Sourced.same {id : UInt32} {request : RequestAdd} {server : Server} {response : Response} (hs : Sourced p)
    (h : server.heap = p.server.heap) : Sourced (p.receive id request server response) := by
  rw [Sourced, receive_server, h]
  unfold receive
  split
  · exact hs
  · refine hs.trans (List.Sublist.subperm ?_)
    rw [List.filterMap_append]
    exact List.sublist_append_left ..

theorem Sourced.grow {id : UInt32} {request : RequestAdd} {server : Server} {value : Ciphertext} (hs : Sourced p)
    (hvalue : request.value? = some value) (h : Grown p.server.heap server.heap value) :
    Sourced (p.receive id request server .addOk) := by
  show (server.heap.map _).Subperm ((p.answered ++ [request]).filterMap (·.value?))
  rw [h, List.filterMap_append, List.filterMap_cons_some hvalue]
  exact hs.append (.refl _)

theorem Sourced.step (hs : Sourced p) (hi : Valid answer seen p ts) (h : Takes answer seen p a p') : Sourced p' := by
  cases a with
  | add id request env =>
    obtain ⟨server, response, c, hadded, -, rfl⟩ := h
    cases hadded with
    | plain _ => exact hs.same rfl
    | root hope _ => exact hs.grow (by rw [RequestAdd.value?, hope]; rfl) (grown_create ..)
    | started _ _ _ => exact hs.same rfl
  | addContinue id k env =>
    obtain ⟨q, server, response, c, hq, hcont, -, rfl⟩ := h
    obtain ⟨t, u, ds, hw⟩ := hi.waiting q (List.mem_of_getElem? hq)
    have hs₀ : Sourced { p with pending := p.pending.eraseIdx k } := hs
    cases hcont with
    | equal _ => exact hs₀.same rfl
    | moved _ _ hgo _ =>
      obtain ⟨rfl, -⟩ := BTreeTraverse.goTo_moved hgo
      exact hs₀.same rfl
    | @ended _ t₀ _ _ _ _ _ hstored hgo _ _ =>
      obtain rfl : t₀ = t := Option.some.inj (Option.some.inj (hstored.symm.trans hw.stored))
      obtain ⟨node, hnode, -, rfl, -⟩ := BTreeTraverse.goTo_ended hgo
      exact hs₀.grow hw.value (grown_hang hnode ..)

theorem Sourced.shown {q : Pending} (hs : Sourced p) (hi : Valid answer seen p ts) (hq : q ∈ p.pending) :
    ∃ r ∈ p.requests, ∃ value, r.value? = some value ∧ q.ciphertext.length = value.length := by
  obtain ⟨t, u, ds, hw⟩ := hi.waiting q hq
  have hlt := hi.forest.lt_length ⟨u, hw.tree, hw.sits⟩
  have hmem : p.server.heap.value t.current ∈ p.server.heap.map (·.ciphertext) := by
    rw [Heap.value, List.getElem?_eq_getElem hlt]
    exact List.mem_map_of_mem (List.getElem_mem hlt)
  obtain ⟨r, hr, hvalue⟩ := List.mem_filterMap.mp (hs.subset hmem)
  exact ⟨r, List.mem_append_left _ hr, _, hvalue, hw.size⟩

end Protocol

/-! ## Sizes -/

/-- The size of a `RequestAdd` in its wrapper. -/
def addSize (id : UInt32) (request : RequestAdd) : Nat :=
  8 + headSize id + textSize request.database + textSize request.table +
    headSize (Int32.ofNat request.row.size).toUInt32 +
    (request.row.toList.map fun entry => textSize entry.1 + textSize entry.2).sum

theorem bytes_length_add (id : UInt32) (request : RequestAdd) :
    (Wrapper.request ⟨id, .add request⟩).bytes.length = addSize id request := by
  have hrow : (request.row.toList.flatMap entryBytes).length =
      (request.row.toList.map fun entry => textSize entry.1 + textSize entry.2).sum := by
    simp [List.length_flatMap, entryBytes, contentsBytes_length]
  simp only [Wrapper.bytes, Request.bytes, RequestAdd.bytes, List.length_append, head_length, contentsBytes_length,
    hrow, addSize]
  rw [show headSize tagRequestWrapper = 3 from rfl, show headSize 2 = 1 from rfl,
    show headSize tagRequestAdd = 3 from rfl, show headSize 3 = 1 from rfl]
  omega

theorem bytes_length_addContinue_le (id : UInt32) (request : RequestAddContinue) :
    (Wrapper.request ⟨id, .addContinue request⟩).bytes.length ≤ 23 := by
  have hid := headSize_le id
  have hinit := headSize_le request.initRequestId
  have hresult : (intBytes request.compareResult).length ≤ 5 := by
    unfold intBytes
    split <;> exact (head_length ..).trans_le (headSize_le _)
  simp only [Wrapper.bytes, Request.bytes, RequestAddContinue.bytes, List.length_append, head_length]
  rw [show headSize tagRequestWrapper = 3 from rfl, show headSize 2 = 1 from rfl,
    show headSize tagRequestAddContinue = 3 from rfl]
  omega

theorem bytes_length_addOk_le (id : UInt32) : (Wrapper.response ⟨id, .addOk⟩).bytes.length ≤ 13 := by
  have hid := headSize_le id
  simp only [Wrapper.bytes, Response.bytes, List.length_append, head_length]
  rw [show headSize tagResponseWrapper = 3 from rfl, show headSize 2 = 1 from rfl,
    show headSize tagResponseAddOk = 3 from rfl, show headSize 0 = 1 from rfl]
  omega

namespace Network

variable {rand : Nat → UInt32} {seen : Prop} {n n' : Network} {p p' : Protocol} {a : Act}

/-- The outputs have room for the row, and for its value when it is shown,
whatever the ids. -/
structure Roomy (r : RequestAdd) : Prop where
  columns : r.row ≠ ∅
  request : ∀ id, addSize id r ≤ 10000
  response : ∀ value, r.value? = some value → ∀ id initRequestId, traverseReplySize id initRequestId value ≤ 9000

/-- **Nothing is lost** of inserts the outputs have room for. -/
theorem Follows.not_lossy (hf : Follows False n p) (hs : p.Sourced) (hroomy : ∀ r ∈ begun n.main.sent, Roomy r) :
    ¬ Lossy n p := by
  rintro ⟨ls, l, hmail, hl, hlost⟩
  obtain ⟨hroom, hsmall⟩ := hmail.room l hl
  have hbegun : ∀ r ∈ p.requests ++ ls.filterMap Letter.new?, Roomy r := fun r hr => hroomy r (hmail.begun.subset hr)
  have harrives : l.wrapper.bytes.length ≤ l.capacity →
      (l.wrapper.bytes.length < 2 ^ 31 → l.wrapper.Understood) → False := by
    intro hfits hunderstood
    have hlength : l.wrapper.bytes.length < 2 ^ 31 := by omega
    have hwhole : Delivers l.data [l.wrapper] := (hunderstood hlength).delivers hfits hlength
    cases hwhole.unique hlost
  cases l with
  | add id request =>
    have hrequest : Roomy request := hbegun request
      (List.mem_append_right _ (List.mem_filterMap.mpr ⟨_, hl, rfl⟩))
    have hsize : (Letter.add id request).wrapper.bytes.length ≤ 10000 :=
      (bytes_length_add id request).trans_le (hrequest.request id)
    exact harrives (Int.ofNat_le.mpr hsize) (understood_add id hrequest.columns)
  | addContinue id q =>
    have hsize : (Letter.addContinue id q).wrapper.bytes.length ≤ 23 := bytes_length_addContinue_le id _
    exact harrives (by omega) (Wrapper.Faithful.addContinue id _).understood
  | addOk capacity id request =>
    have hsize : (Letter.addOk capacity id request).wrapper.bytes.length ≤ 13 := bytes_length_addOk_le id
    exact harrives (by omega) (Wrapper.Faithful.addOk id).understood
  | addTraverse capacity id q =>
    obtain ⟨ts, hi⟩ := hf.agrees.valid
    obtain ⟨r, hr, value, hvalue, hlength⟩ := hs.shown hi (hmail.pending _ hl q rfl)
    have hroomy := (hbegun r (List.mem_append_left _ hr)).response value hvalue id q.initRequestId
    rw [traverseReplySize, textSize, ← hlength] at hroomy
    have hsize : (Letter.addTraverse capacity id q).wrapper.bytes.length ≤ 9000 :=
      (bytes_length_addTraverse id _).trans_le hroomy
    exact harrives (by omega) (Wrapper.Faithful.addTraverse id _).understood

/-! ## How many are on their way -/

theorem act_sends {m m' : Main} {a : Main.Act} (hreceive : ∀ c, a ≠ .receive c) (h : m.step rand a = .ok m') :
    ∃ ws, m'.sent = m.sent ++ ws ∧ (begun ws).length = ws.length := by
  cases a with
  | addExecutor _ _ _ =>
    cases h
    exact ⟨[], (List.append_nil _).symm, rfl⟩
  | takeQueue =>
    cases h
    exact ⟨[], (List.append_nil _).symm, rfl⟩
  | runExecutor =>
    cases hm : m.executors with
    | nil =>
      obtain rfl : m = m' := by simpa only [Main.step, hm, Except.ok.injEq] using h
      exact ⟨[], (List.append_nil _).symm, rfl⟩
    | cons a executors =>
      simp only [Main.step, hm, Main.run] at h
      obtain ⟨e, -, rfl⟩ := map_ok.mp h
      exact ⟨[_], rfl, rfl⟩
  | receive c => exact absurd rfl (hreceive c)

theorem serve_takes {k : Nat} {env : Nat → Env} {remains : Nat → Strings.Remains}
    (h : Steps rand n (.serve k env remains) n') :
    n'.requests.length + 1 = n.requests.length ∧ n'.main = n.main ∧ n'.acknowledged = n.acknowledged := by
  cases h with
  | serve _ hdata _ =>
  obtain ⟨hlt, -⟩ := List.getElem?_eq_some_iff.mp hdata
  refine ⟨?_, rfl, rfl⟩
  show (n.requests.eraseIdx k).length + 1 = _
  rw [List.length_eraseIdx_of_lt hlt]
  omega

theorem receive_takes {k : Nat} (h : Steps rand n (.receive k) n') :
    n'.responses.length + 1 = n.responses.length ∧ n.acknowledged.length ≤ n'.acknowledged.length ∧
      n'.stuck = n.stuck := by
  cases h with
  | receive hdata _ =>
  obtain ⟨hlt, -⟩ := List.getElem?_eq_some_iff.mp hdata
  refine ⟨?_, by simp, rfl⟩
  show (n.responses.eraseIdx k).length + 1 = _
  rw [List.length_eraseIdx_of_lt hlt]
  omega

/-- The protocol state that follows, whose values are those of inserts; and
while no insert is too long, each has one message on its way or was
acknowledged, and every worker has had something to reply. -/
structure Counts (n : Network) (p : Protocol) : Prop where
  follows : Follows False n p
  sourced : p.Sourced
  counted : (∀ r ∈ begun n.main.sent, Roomy r) →
    n.requests.length + n.responses.length + n.acknowledged.length = (begun n.main.sent).length ∧ n.stuck = 0

theorem Counts.init : Counts Network.init .init := ⟨.init, .init, fun _ => ⟨rfl, rfl⟩⟩

theorem Counts.step (hc : Counts n p) (h : Guarded (Steps rand) (Clean rand) n a n') : ∃ p', Counts n' p' := by
  obtain ⟨hclean, hstep⟩ := h
  have hf := hc.follows
  cases a with
  | client a =>
    cases hstep with
    | @client _ _ main hreceive hmain =>
    refine ⟨p, hf.act hclean hreceive hmain, hc.sourced, fun hroomy => ?_⟩
    obtain ⟨ws, hws, hbegun⟩ := act_sends hreceive hmain
    have hsplit : begun main.sent = begun n.main.sent ++ begun ws := by rw [hws, begun_append]
    have hsent : (sentSince n.main main).length = ws.length := by simp [sentSince, hws]
    obtain ⟨hbefore, hstuck⟩ := hc.counted fun r hr => hroomy r (hsplit ▸ List.mem_append_left _ hr)
    refine ⟨?_, hstuck⟩
    simp only [hsplit, List.length_append, hsent]
    omega
  | serve k env remains =>
    obtain ⟨hrequests, hmain, hacknowledged⟩ := serve_takes hstep
    obtain ⟨p', hf', hserved⟩ := hf.serve False.elim hstep
    obtain ⟨ts, hi⟩ := hf.agrees.valid
    refine ⟨p', hf', ?_, fun hroomy => ?_⟩
    · rcases hserved with ⟨-, rfl, -⟩ | ⟨⟨a, ha⟩, -, -⟩
      · exact hc.sourced
      · exact hc.sourced.step hi (hf.takes ha).2
    · rw [hmain] at hroomy ⊢
      obtain ⟨hbefore, hstuck⟩ := hc.counted hroomy
      rcases hserved with ⟨hlossy, -⟩ | ⟨-, hresponses, hsame⟩
      · exact absurd hlossy (hf.not_lossy hc.sourced hroomy)
      · rw [hacknowledged, hsame]
        exact ⟨by omega, hstuck⟩
  | receive k =>
    obtain ⟨hresponses, -, hsame⟩ := receive_takes hstep
    obtain ⟨hf', hbegun, hreceived⟩ := hf.receive hclean hstep
    refine ⟨p, hf', hc.sourced, fun hroomy => ?_⟩
    rw [hbegun] at hroomy ⊢
    obtain ⟨hbefore, hstuck⟩ := hc.counted hroomy
    rcases hreceived with ⟨hlossy, -⟩ | hreceived
    · exact absurd hlossy (hf.not_lossy hc.sourced hroomy)
    · exact ⟨by omega, hsame.trans hstuck⟩

theorem Counts.runs {as : List Act} (h : Runs (Guarded (Steps rand) (Clean rand)) Network.init as n) : ∃ p, Counts n p :=
  h.invariant (I := fun n => ∃ p, Counts n p) (fun _ _ _ ⟨_, hc⟩ hs => hc.step hs) ⟨_, Counts.init⟩

/-- **When nothing is on its way** every insert has been acknowledged. -/
theorem Counts.acknowledged (hc : Counts n p) (hroomy : ∀ r ∈ begun n.main.sent, Roomy r)
    (hrequests : n.requests = []) (hresponses : n.responses = []) : n.acknowledged.Perm (begun n.main.sent) := by
  obtain ⟨asks, tells, -, -, -, -, hmail⟩ := hc.follows.mail
  have hanswered : p.answered.Sublist p.requests := List.sublist_append_left ..
  have hsubperm : n.acknowledged.Subperm (begun n.main.sent) :=
    ((List.sublist_append_left ..).subperm.trans hmail.answered).trans
      ((hanswered.trans (List.sublist_append_left ..)).subperm.trans hmail.begun)
  refine hsubperm.perm_of_length_le ?_
  obtain ⟨hcounted, -⟩ := hc.counted hroomy
  rw [hrequests, hresponses] at hcounted
  simp only [List.length_nil] at hcounted
  omega

/-! ## How long it takes -/

/-- A message is delivered, and the client does nothing on its own. -/
def Delivering (rand : Nat → UInt32) (n : Network) (a : Act) : Prop := (∀ c, a ≠ .client c) ∧ Clean rand n a

/-- The inserts the server has not seen. -/
def toCome (n : Network) (p : Protocol) : Nat := (begun n.main.sent).length - p.requests.length

/-- The deliveries left, at most. -/
def toDeliver (n : Network) (p : Protocol) : Nat :=
  2 * p.ahead (toCome n p) + 2 * n.responses.length + n.requests.length

theorem Follows.requests_subperm (hf : Follows seen n p) : p.requests.Subperm (begun n.main.sent) := by
  obtain ⟨asks, tells, -, -, -, -, hmail⟩ := hf.mail
  exact (List.sublist_append_left ..).subperm.trans hmail.begun

/-- What a request comes to at the server takes from what is ahead. -/
theorem Follows.ahead_lt {b : Protocol.Act} (hf : Follows seen n p) (hf' : Follows seen n' p') (hmain : n'.main = n.main)
    (hfresh : Fresh p b) (h : Protocol.Takes Client.answer seen p b p') :
    p'.ahead (toCome n' p') < p.ahead (toCome n p) := by
  obtain ⟨ts, hi⟩ := hf.agrees.valid
  have hapart := hfresh.apart hf.agrees.used
  cases b with
  | add id request env =>
    have hlength : p'.requests.length = p.requests.length + 1 := by
      obtain ⟨server, response, c, -, -, rfl⟩ := h
      simpa using (p.receive_requests id request server (response.showing c)).length_eq
    have hle := hf'.requests_subperm.length_le
    have hnext : toCome n p = toCome n' p' + 1 := by
      simp only [toCome, hmain] at hle ⊢
      omega
    rw [hnext]
    exact Protocol.ahead_adding hapart h
  | addContinue id k env =>
    have hanswering : Protocol.Answering p (.addContinue id k env) := hapart
    have hsame : toCome n' p' = toCome n p := by
      rw [toCome, toCome, hmain, (Protocol.requests_perm hanswering h).length_eq]
    rw [hsame]
    exact hi.ahead_answering hanswering h _

/-- **Every delivery takes from those left.** -/
theorem Follows.toDeliver_lt (hf : Follows False n p) (h : Guarded (Steps rand) (Delivering rand) n a n') :
    ∃ p', (Follows False n' p' ∧ begun n'.main.sent = begun n.main.sent) ∧ toDeliver n' p' < toDeliver n p := by
  obtain ⟨hdelivering, hstep⟩ := h
  cases a with
  | client c => exact absurd rfl (hdelivering.1 c)
  | serve k env remains =>
    obtain ⟨hrequests, hmain, -⟩ := serve_takes hstep
    obtain ⟨p', hf', hserved⟩ := hf.serve False.elim hstep
    refine ⟨p', ⟨hf', by rw [hmain]⟩, ?_⟩
    rcases hserved with ⟨-, rfl, -, hresponses, -⟩ | ⟨⟨b, hb⟩, hresponses, -⟩
    · have hsame : toCome n' p' = toCome n p' := by rw [toCome, toCome, hmain]
      rw [toDeliver, toDeliver, hsame]
      omega
    · obtain ⟨hfresh, htakes⟩ := hf.takes hb
      have hahead := hf.ahead_lt hf' hmain hfresh htakes
      rw [toDeliver, toDeliver]
      omega
  | receive k =>
    obtain ⟨hresponses, hacknowledged, -⟩ := receive_takes hstep
    obtain ⟨hf', hbegun, hreceived⟩ := hf.receive hdelivering.2 hstep
    refine ⟨p, ⟨hf', hbegun⟩, ?_⟩
    have hsame : toCome n' p = toCome n p := by rw [toCome, toCome, hbegun]
    rw [toDeliver, toDeliver, hsame]
    rcases hreceived with ⟨-, hrequests, -⟩ | hrequests <;> omega

theorem Follows.toDeliver_le (hf : Follows seen n p) :
    let made := (begun n.main.sent).length
    toDeliver n p ≤ 2 * (made * (n.server.heap.length + made + 1)) + 2 * n.responses.length + n.requests.length := by
  intro made
  have hle := hf.requests_subperm.length_le
  have hwaiting : p.pending.length ≤ p.requests.length := by simp [Protocol.requests]
  have hcount : p.pending.length + toCome n p ≤ made := by
    simp only [toCome, made]
    omega
  have hahead : p.ahead (toCome n p) ≤ made * (n.server.heap.length + made + 1) := by
    rw [← show p.server = n.server from hf.agrees.server]
    exact (p.ahead_le _).trans (Nat.mul_le_mul hcount (by omega))
  rw [toDeliver]
  omega

theorem delivering (ha : ∀ c, a ≠ .client c) (hdrawn : rand n.main.drawn ∉ n.main.sent.map (·.id)) :
    Delivering rand n a :=
  ⟨ha, hdrawn, fun _ _ _ he => absurd he (ha _)⟩

theorem Follows.delivers (hf : Follows seen n p) (hstuck : n.stuck = 0)
    (hdrawn : rand n.main.drawn ∉ n.main.sent.map (·.id)) (hsome : n.requests ≠ [] ∨ n.responses ≠ []) :
    ∃ a n', Guarded (Steps rand) (Delivering rand) n a n' := by
  obtain ⟨hserve, hreceive⟩ := hf.enabled rand
  rcases hsome with hne | hne
  · have hfree : n.stuck < Daemon.workerCount := by
      rw [hstuck]
      decide
    obtain ⟨n', h⟩ := hserve hfree 0 (fun _ => .calm) (fun _ _ _ => 0) (List.length_pos_iff.mpr hne)
    exact ⟨.serve 0 (fun _ => .calm) fun _ _ _ => 0, n', delivering (by simp) hdrawn, h⟩
  · obtain ⟨n', h⟩ := hreceive 0 (List.length_pos_iff.mpr hne)
    exact ⟨.receive 0, n', delivering (by simp) hdrawn, h⟩

/-- **What is on its way comes to its end.** Once the client makes no more
inserts, messages are delivered a bounded number of times, in whatever order. If
the outputs have room for the rows and values of the inserts made, there is
always one to be delivered until all inserts have been acknowledged, once each. -/
theorem network_completes {as : List Act} (h : Runs (Guarded (Steps rand) (Clean rand)) init as n) {bs : List Act}
    (h' : Runs (Guarded (Steps rand) (Delivering rand)) n bs n') :
    let made := begun n.main.sent
    bs.length ≤ 2 * (made.length * (n.server.heap.length + made.length + 1)) + 2 * n.responses.length +
        n.requests.length ∧
      ((∀ r ∈ made, Roomy r) →
        (rand n'.main.drawn ∉ n'.main.sent.map (·.id) → n'.requests ≠ [] ∨ n'.responses ≠ [] →
          ∃ a n'', Guarded (Steps rand) (Delivering rand) n' a n'') ∧
        (n'.requests = [] → n'.responses = [] → n'.acknowledged.Perm made)) := by
  intro made
  obtain ⟨p, hc⟩ := Counts.runs h
  obtain ⟨p', ⟨-, hbegun⟩, hlength⟩ := h'.measure_followed (R := fun n' p' => Follows False n' p' ∧ begun n'.main.sent = made)
    (m := toDeliver) (fun n₁ a n₂ p₁ ⟨hf₁, hmade⟩ hs => by
      obtain ⟨p₂, ⟨hf₂, hsame⟩, hlt⟩ := hf₁.toDeliver_lt hs
      exact ⟨p₂, ⟨hf₂, hsame.trans hmade⟩, hlt⟩) ⟨hc.follows, rfl⟩
  obtain ⟨p'', hc''⟩ := h'.invariant (I := fun n => ∃ p, Counts n p)
    (fun _ _ _ ⟨_, hc⟩ hs => hc.step ⟨hs.1.2, hs.2⟩) ⟨p, hc⟩
  refine ⟨?_, fun hroomy => ?_⟩
  · have hle := hc.follows.toDeliver_le
    simp only [made] at hle ⊢
    omega
  · rw [← hbegun] at hroomy ⊢
    exact ⟨hc''.follows.delivers (hc''.counted hroomy).2, hc''.acknowledged hroomy⟩

theorem roomy_ofValue (b : UInt8) : Roomy (.ofValue [b]) where
  columns := by
    intro he
    have hsize : (RequestAdd.ofValue [b]).row.size = 1 := rfl
    rw [he] at hsize
    cases hsize
  request := fun id => by
    have hid := headSize_le id
    have hlist : (RequestAdd.ofValue [b]).row.toList = [(opeEnding, [b])] := rfl
    have hsize : addSize id (.ofValue [b]) =
        8 + headSize id + 2 + 2 + 1 + (textSize opeEnding + textSize [b] + 0) := by
      rw [addSize, hlist]
      rfl
    rw [hsize, show textSize opeEnding = 5 from rfl, show textSize [b] = 2 from rfl]
    omega
  response := fun value hvalue id initRequestId => by
    have hid := headSize_le id
    have hinit := headSize_le initRequestId
    obtain rfl : [b] = value := Option.some.inj hvalue
    rw [traverseReplySize, show textSize [b] = 2 from rfl]
    omega

/-- Two inserts, the second over a traversal, are answered and acknowledged. -/
theorem network_completes_pair :
    ∃ n n', Runs (Guarded (Steps UInt32.ofNat) (Clean UInt32.ofNat)) init pairActs n ∧
      Runs (Guarded (Steps UInt32.ofNat) (Delivering UInt32.ofNat)) n
        [.serve 0 (fun _ => .calm) pairRemains, .receive 0] n' ∧
      n'.acknowledged.length = 2 ∧ n'.acknowledged.Perm (begun n.main.sent) := by
  obtain ⟨n, n', n'', hrun, hserve, hreceive, -, -, hbegun, -, hboth, hrequests, hresponses⟩ := pair_runs
  have hrun : Runs (Guarded (Steps UInt32.ofNat) (Clean UInt32.ofNat)) init pairActs n :=
    hrun.mono fun _ _ _ hs => ⟨hs.1.1, hs.2.1⟩
  have hdelivered : Runs (Guarded (Steps UInt32.ofNat) (Delivering UInt32.ofNat)) n
      [.serve 0 (fun _ => .calm) pairRemains, .receive 0] n'' :=
    .cons ⟨⟨by simp, hserve.1.1⟩, hserve.2.1⟩ (.one ⟨⟨by simp, hreceive.1.1⟩, hreceive.2.1⟩)
  refine ⟨n, n'', hrun, hdelivered, hboth, ((network_completes hrun hdelivered).2 fun r hr => ?_).2 hrequests hresponses⟩
  rw [hbegun, List.mem_pair] at hr
  rcases hr with rfl | rfl <;> exact roomy_ofValue _

end Network

end Zql
