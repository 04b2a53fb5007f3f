/-
The order of the codes of stored rows, for inserts a client's `InsertExecutor`s
make one at a time into one table, whatever stands where the nodes' strings were.

An executor compares the node's value with its own, and the server goes left for
-1, where the codes are smaller; so where an executor answers what it would answer
to the node's value, its own is put on the wrong side of it. The order of the
values is kept in every run in which that never happens (`order_preserved`): there
the clients do what clients would that compare their own value with the node's.
-/
import Zql.Interleaved

namespace Zql

open SearchTree Transition

open Protocol (CodedRow Orderly Placed Plain Takes Valid dir storedCode values)

namespace Dangling

/-- Inserts of new values, one at a time, into one table: rows have one
field whose name ends in `_ope`, and no traversal goes deeper than 63 steps. -/
def Sequential (database table : Str) (d : Dangling) : Act → Prop
  | (.add _ request _, _) =>
    d.protocol.pending = [] ∧ request.database = database ∧ request.table = table ∧
      (∃ opeField opeValue, OneOpe request.row opeField opeValue) ∧
      ∀ r ∈ d.protocol.answered, r.value? ≠ request.value?
  | (.addContinue _ k _, _) =>
    ∀ q t, d.protocol.pending[k]? = some q → d.protocol.server.holder.traverses[q.initRequestId]? = some (some t) →
      direction (Client.answer q.request q.ciphertext) ≠ none → t.pathLength < 63

/-- No client answers what it would answer to the value of the node. -/
def Turned (d : Dangling) : Act → Prop
  | (.add _ _ _, _) => True
  | (.addContinue _ k _, _) =>
    ∀ q t, d.protocol.pending[k]? = some q → d.protocol.server.holder.traverses[q.initRequestId]? = some (some t) →
      Client.answer q.request q.ciphertext ≠ Client.answer q.request (d.protocol.server.heap.value t.current)

/-- The codes of stored rows are ordered as their values are. -/
def OrderPreserved (p : Protocol) : Prop :=
  ∀ e ∈ p.stored, ∀ e' ∈ p.stored, ∃ v v' c c', e.1.value? = some v ∧ e'.1.value? = some v' ∧
    storedCode e = some (formatPath c) ∧ storedCode e' = some (formatPath c') ∧ (compare v v' = .lt ↔ c < c')

/-! ## Clients that compare the other way round -/

/-- The compare result of the own value with the node's. -/
def turned (r : RequestAdd) (node : Ciphertext) : Int32 :=
  match r.value? with
  | some value => Client.compare value node
  | none => 0

theorem dir_turned {r : RequestAdd} {v : Ciphertext} (hv : r.value? = some v) (node : Ciphertext) :
    dir turned r node =
      match compare v node with
      | .lt => some .left
      | .gt => some .right
      | .eq => none := by
  rw [dir, turned, hv]
  show direction (Client.compare v node) = _
  rw [Client.compare]
  cases compare v node <;> rfl

theorem rising {key : Str} {rs : List RequestAdd} :
    (inorder (Protocol.textbook turned key rs)).Pairwise fun x y => compare x y = .lt := by
  refine Protocol.sorted (fun a b c => Std.TransCmp.lt_trans) fun r _ v hv node => ?_
  rw [dir_turned hv]
  cases hcmp : compare v node with
  | lt => exact ⟨fun _ => rfl, nofun⟩
  | eq => exact ⟨nofun, nofun⟩
  | gt => exact ⟨nofun, fun _ => Std.OrientedCmp.lt_of_gt hcmp⟩

/-- A client that does not answer what it would to the node's value, and goes on,
goes where they would. -/
theorem answer_turned {r : RequestAdd} {opeField opeValue : Str} (hone : OneOpe r.row opeField opeValue)
    {c node : Ciphertext} (hnode : node ≠ opeValue) (hne : Client.answer r c ≠ Client.answer r node)
    (hgo : direction (Client.answer r c) ≠ none) : Client.answer r c = turned r node := by
  have hother : compare node opeValue ≠ .eq := fun he => hnode (Std.compare_eq_iff_eq.mp he)
  rw [Client.answer_eq hone] at hne hgo ⊢
  rw [Client.answer_eq hone] at hne
  rw [turned, Protocol.OneOpe.value? hone]
  show Client.compare c opeValue = Client.compare opeValue node
  simp only [Client.compare] at hne hgo ⊢
  cases hn : compare node opeValue with
  | eq => exact absurd hn hother
  | lt =>
    rw [Std.OrientedCmp.gt_of_lt hn]
    rw [hn] at hne
    cases hc : compare c opeValue with
    | lt => exact absurd (by rw [hc]) hne
    | eq => exact absurd (by rw [hc]; rfl) hgo
    | gt => rfl
  | gt =>
    rw [Std.OrientedCmp.lt_of_gt hn]
    rw [hn] at hne
    cases hc : compare c opeValue with
    | lt => rfl
    | eq => exact absurd (by rw [hc]; rfl) hgo
    | gt => exact absurd (by rw [hc]) hne

/-! ## What they see -/

/-- Two views of one server: the same inserts on their way, who may have been shown
other bytes, and the answered ones of the one among those of the other. -/
structure Alike (p p' : Protocol) : Prop where
  server : p'.server = p.server
  stored : p'.stored = p.stored
  pending : p'.pending.map (fun q => (q.initRequestId, q.request)) =
    p.pending.map fun q => (q.initRequestId, q.request)
  answered : p'.answered ⊆ p.answered

variable {p p' : Protocol} {k : Nat} {q : Pending}

theorem Alike.erase (h : Alike p p') (k : Nat) :
    Alike { p with pending := p.pending.eraseIdx k } { p' with pending := p'.pending.eraseIdx k } where
  server := h.server
  stored := h.stored
  pending := by
    rw [← List.eraseIdx_map, ← List.eraseIdx_map, h.pending]
  answered := h.answered

/-- A response may show other bytes in the one than in the other. -/
theorem Alike.receive (h : Alike p p') (id : UInt32) (request : RequestAdd) (server : Server) (response : Response)
    (c : Ciphertext) :
    Alike (p.receive id request server (response.showing c)) (p'.receive id request server response) where
  server := by rw [Protocol.receive_server, Protocol.receive_server]
  stored := by rw [Protocol.receive_stored, Protocol.receive_stored, h.stored, h.server]
  pending := by
    cases response with
    | addTraverse r => simp [Protocol.receive, Response.showing, h.pending]
    | getOk _ | getEmpty | addOk => exact h.pending
  answered := by
    cases response with
    | addTraverse r => exact h.answered
    | getOk _ | getEmpty | addOk =>
      exact List.append_subset.mpr ⟨fun r hr => List.mem_append_left _ (h.answered hr), List.subset_append_right ..⟩

theorem Alike.get (h : Alike p p') (hq : p.pending[k]? = some q) :
    ∃ q', p'.pending[k]? = some q' ∧ q'.initRequestId = q.initRequestId ∧ q'.request = q.request := by
  have hk : (p'.pending.map fun q => (q.initRequestId, q.request))[k]? = some (q.initRequestId, q.request) := by
    rw [h.pending, List.getElem?_map, hq]
    rfl
  rw [List.getElem?_map] at hk
  obtain ⟨q', hq', he⟩ := Option.map_eq_some_iff.mp hk
  exact ⟨q', hq', (Prod.mk.inj he).1, (Prod.mk.inj he).2⟩

/-- At most one insert is on its way, and its value has not been answered. -/
structure Lone (p : Protocol) : Prop where
  one : p.pending.length ≤ 1
  new : ∀ q ∈ p.pending, ∀ r ∈ p.answered, r.value? ≠ q.request.value?

theorem Lone.init : Lone .init := ⟨Nat.zero_le _, nofun⟩

theorem Lone.erase (h : Lone p) (hq : p.pending[k]? = some q) : p.pending.eraseIdx k = [] := by
  have hone := h.one
  obtain ⟨hlt, -⟩ := List.getElem?_eq_some_iff.mp hq
  refine List.length_eq_zero_iff.mp ?_
  rw [List.length_eraseIdx_of_lt hlt]
  omega

theorem Lone.receive {request : RequestAdd} (hnil : p.pending = []) (hnew : ∀ r ∈ p.answered, r.value? ≠ request.value?)
    (id : UInt32) (server : Server) (response : Response) : Lone (p.receive id request server response) := by
  unfold Protocol.receive
  split
  · refine ⟨by simp [hnil], fun q hq => ?_⟩
    rw [hnil, List.nil_append, List.mem_singleton] at hq
    subst hq
    exact hnew
  · exact ⟨by simp [hnil], fun q hq => by simp [hnil] at hq⟩

/-! ## The invariant -/

/-- The row goes into the table, and has one such field. -/
def Fits (database table : Str) (r : RequestAdd) : Prop :=
  r.tree = BTreeForest.id database table ∧ ∃ opeField opeValue, OneOpe r.row opeField opeValue

/-- The clients do what clients would that compare the other way round and are
shown what the nodes have, those apart whose value was not added. -/
structure Mirrored (database table : Str) (d : Dangling) (p : Protocol) : Prop where
  gone : Strings.Gone d.state
  lone : Lone d.protocol
  alike : Alike d.protocol p
  fits : ∀ r ∈ p.requests, Fits database table r
  valid : ∃ ts, Valid turned True p ts
  placed : Placed p
  noted : (p.stored.map (·.1)).Sublist p.answered

variable {database table : Str} {d d' : Dangling} {a : Act}

theorem Mirrored.init (database table : Str) : Mirrored database table init .init where
  gone := .init
  lone := .init
  alike := ⟨rfl, rfl, rfl, fun _ h => h⟩
  fits := by simp [Protocol.requests, Protocol.init]
  valid := ⟨[], .init ..⟩
  placed := by simp [Placed, Protocol.init]
  noted := .refl _

theorem Mirrored.takes {b : Protocol.Act} (hm : Mirrored database table d p) (hgone : Strings.Gone d'.state)
    (hlone : Lone d'.protocol) (halike : Alike d'.protocol p') (hfits : ∀ r ∈ p'.requests, Fits database table r)
    (hnoted : (p'.stored.map (·.1)).Sublist p'.answered) (hg : Orderly turned p b) (h : Takes turned True p b p') :
    Mirrored database table d' p' := by
  obtain ⟨ts, hi⟩ := hm.valid
  obtain ⟨ts', hi', -⟩ := hi.step hg.1 h
  exact ⟨hgone, hlone, halike, hfits, ⟨ts', hi'⟩, hm.placed.step hi hi' hg h, hnoted⟩

theorem Mirrored.add {id : UInt32} {request : RequestAdd} {env : Env} {remains : Strings.Remains}
    (hm : Mirrored database table d p) (hg : Sequential database table d (.add id request env, remains))
    (h : step Client.answer d (.add id request env, remains) = some d') : ∃ p', Mirrored database table d' p' := by
  obtain ⟨⟨server, response, c, hadded, -, hd'⟩, hgone⟩ := takes_step hm.gone h
  obtain ⟨hnil, rfl, rfl, hone, hnew⟩ := hg
  have hadded' : Added env p.server id request server response := hm.alike.server.symm ▸ hadded
  have hnil' : p.pending = [] := by
    have hpending := hm.alike.pending
    rw [hnil] at hpending
    exact List.map_eq_nil_iff.mp hpending
  have hfits : Fits request.database request.table request := ⟨rfl, hone⟩
  obtain ⟨c', hc', hsame⟩ := Shown.self True response
  refine ⟨p.receive id request server response, hm.takes (b := .add id request env) hgone (hd' ▸ Lone.receive hnil hnew ..)
    (hd' ▸ hm.alike.receive ..) (fun r hr => ?_) ?_ ⟨fun q hq => ?_, .inr hone⟩
    ⟨server, response, c', hadded', hc', by rw [hsame]⟩⟩
  · rcases List.mem_append.mp ((Protocol.receive_requests ..).mem_iff.mp hr) with hr | hr
    · exact hm.fits r hr
    · rw [List.mem_singleton.mp hr]
      exact hfits
  · have hnoted := @Protocol.receive_sublist p id request server response hm.noted hadded'.writes c'
    rwa [hsame] at hnoted
  · rw [Protocol.others, hnil'] at hq
    cases hq

/-- The value of the node has been answered, so it is another. -/
theorem Mirrored.value_ne (hm : Mirrored database table d p) {q' : Pending} {t : BTreeTraverse} {u : BinaryTree Addr}
    {ds : Dyadic.Position} {ts : List (BinaryTree Addr)} (hi : Valid turned True p ts)
    (hw : Protocol.Waiting turned True p.server ts q' t u ds) (hq : q ∈ d.protocol.pending) {v : Ciphertext}
    (hv : q.request.value? = some v) :
    p.server.heap.value t.current ≠ v := by
  rintro rfl
  have hlabel := hw.label
  rw [← hi.textbook_eq hw trivial] at hlabel
  obtain ⟨r, hr, hvalue⟩ := Protocol.mem_textbook (mem_inorder_iff.mpr ⟨ds, hlabel⟩)
  exact hm.lone.new q hq r (hm.alike.answered hr) (hvalue.trans hv.symm)

theorem Mirrored.addContinue {id : UInt32} {env : Env} {remains : Strings.Remains}
    (hm : Mirrored database table d p) (hg : Sequential database table d (.addContinue id k env, remains))
    (hturned : d.Turned (.addContinue id k env, remains))
    (h : step Client.answer d (.addContinue id k env, remains) = some d') : ∃ p', Mirrored database table d' p' := by
  obtain ⟨⟨q, server, response, c, hq, hcont, -, hd'⟩, hgone⟩ := takes_step hm.gone h
  obtain ⟨q', hq', hid, hrequest⟩ := hm.alike.get hq
  obtain ⟨ts, hi⟩ := hm.valid
  obtain ⟨t, u, ds, hw⟩ := hi.waiting q' (List.mem_of_getElem? hq')
  have hmem := List.mem_of_getElem? hq
  have hserver := hm.alike.server
  have hstored : d.protocol.server.holder.traverses[q.initRequestId]? = some (some t) := by
    rw [← hserver, ← hid, hw.stored]
  obtain ⟨-, opeField, opeValue, hone⟩ := hm.fits q'.request
    (List.mem_append_right _ (List.mem_map_of_mem (List.mem_of_getElem? hq')))
  rw [hrequest] at hone
  let d₀ : Protocol := { d.protocol with pending := d.protocol.pending.eraseIdx k }
  have hlone : Lone d'.protocol := by
    rw [hd']
    exact Lone.receive (p := d₀) (hm.lone.erase hq) (hm.lone.new q hmem) ..
  cases hgo : direction (Client.answer q.request q.ciphertext) with
  | none =>
    -- the bytes shown were its own value: it is answered, and not added
    have hequal : server = { d.protocol.server with holder := (d.protocol.server.holder.getTraverse q.initRequestId).1 } ∧
        response = .addOk := by
      cases hcont with
      | equal _ => exact ⟨rfl, rfl⟩
      | moved hside _ _ _ => exact absurd (hgo.symm.trans hside) nofun
      | ended hside _ _ _ _ => exact absurd (hgo.symm.trans hside) nofun
    obtain ⟨rfl, rfl⟩ := hequal
    have hunwritten : ∀ holder, writtenSince d.protocol.server { d.protocol.server with holder } = [] := fun _ =>
      writtenSince_same rfl
    have hdrop : Valid turned True _ ts := @Valid.drop _ _ p ts k hi q.initRequestId
    refine ⟨_, hgone, hlone, ?_, fun r hr => ?_, ⟨ts, hdrop⟩, hm.placed, hm.noted⟩
    · rw [hd']
      have herase := hm.alike.erase k
      exact {
        server := by rw [Protocol.receive_server, hserver]
        stored := by
          show p.stored = d.protocol.stored ++
            (writtenSince d.protocol.server { d.protocol.server with holder := _ }).map _
          rw [hunwritten, List.map_nil, List.append_nil, hm.alike.stored]
        pending := herase.pending
        answered := fun r hr => List.mem_append_left _ (herase.answered hr) }
    · refine hm.fits r (((Protocol.requests_erase hq').mem_iff).mp (List.mem_append_left _ hr))
  | some side =>
    have hsame : Client.answer q.request q.ciphertext = turned q'.request q'.ciphertext := by
      rw [hw.shown trivial, hrequest]
      refine answer_turned hone (hm.value_ne hi hw hmem (Protocol.OneOpe.value? hone)) ?_ (by rw [hgo]; nofun)
      rw [hserver]
      exact hturned q t hq hstored
    have hcont' : Continued env p.server id
        { initRequestId := q'.initRequestId, compareResult := turned q'.request q'.ciphertext } server response := by
      rw [hserver, hid, ← hsame]
      exact hcont
    obtain ⟨c', hc', hshowing⟩ := Shown.self True response
    let p₀ : Protocol := { p with pending := p.pending.eraseIdx k }
    have halike := (hm.alike.erase k).receive id q.request server response c
    rw [← hd', ← hrequest] at halike
    refine ⟨p₀.receive id q'.request server response, hm.takes (b := .addContinue id k env) hgone hlone halike
      (fun r hr => ?_) ?_ ⟨fun r hr => ?_, fun q'' t' hq'' ht' hne => ?_⟩
      ⟨q', server, response, c', hq', hcont', hc', by rw [hshowing]⟩⟩
    · exact hm.fits r (((Protocol.receive_requests ..).trans (Protocol.requests_erase hq')).mem_iff.mp hr)
    · have hnoted := @Protocol.receive_sublist p₀ id q'.request server response hm.noted hcont'.writes c'
      rwa [hshowing] at hnoted
    · have hnil : p.pending.eraseIdx k = [] := by
        have hpending := (hm.alike.erase k).pending
        rw [show d₀.pending = [] from hm.lone.erase hq] at hpending
        exact List.map_eq_nil_iff.mp hpending
      rw [Protocol.others, hnil] at hr
      cases hr
    · obtain rfl := Option.some.inj (hq'.symm.trans hq'')
      refine hg q t' hq ?_ (by rw [hgo]; nofun)
      rw [← hserver, ← hid, ht']

theorem Mirrored.step (hm : Mirrored database table d p)
    (h : Guarded (ofPartial (step Client.answer)) (fun d a => Sequential database table d a ∧ d.Turned a) d a d') :
    ∃ p', Mirrored database table d' p' := by
  obtain ⟨⟨hg, hturned⟩, hstep⟩ := h
  obtain ⟨_ | _, _⟩ := a
  · exact hm.add hg hstep
  · exact hm.addContinue hg hturned hstep

/-! ## Runs -/

theorem lt_iff_codes {v v' : Ciphertext} {c c' : UInt64} (hlt : c < c' → compare v v' = .lt)
    (hgt : c' < c → compare v' v = .lt) (heq : c = c' → v = v') : compare v v' = .lt ↔ c < c' := by
  refine ⟨fun h => ?_, hlt⟩
  cases hc : compare c c' with
  | lt => exact Std.compare_eq_lt.mp hc
  | eq =>
    rw [heq (Std.compare_eq_iff_eq.mp hc), show compare v' v' = Ordering.eq from Std.ReflCmp.compare_self] at h
    cases h
  | gt =>
    rw [Std.OrientedCmp.gt_of_lt (hgt (Std.compare_eq_gt.mp hc))] at h
    cases h

/-- **Inserts made one at a time keep the order of their values** in every run
in which no client answers what it would to the value of the node it stands at. -/
theorem order_preserved {as : List Act}
    (h : Runs (Guarded (ofPartial (step Client.answer)) fun d a => Sequential database table d a ∧ d.Turned a)
      init as d) : OrderPreserved d.protocol := by
  obtain ⟨p, hm⟩ := h.invariant (I := fun d => ∃ p, Mirrored database table d p) (fun _ _ _ ⟨_, hm⟩ hs => hm.step hs)
    ⟨_, Mirrored.init database table⟩
  obtain ⟨ts, hi⟩ := hm.valid
  have hfits : ∀ e ∈ p.stored, Fits database table e.1 := fun e he =>
    hm.fits e.1 (List.mem_append_left _ (hm.noted.subset (List.mem_map_of_mem he)))
  rw [OrderPreserved, ← hm.alike.stored]
  intro e he e' he'
  obtain ⟨htree, opeField, v, hone⟩ := hfits e he
  obtain ⟨htree', opeField', v', hone'⟩ := hfits e' he'
  have hv := Protocol.OneOpe.value? hone
  have hv' := Protocol.OneOpe.value? hone'
  obtain ⟨c, c', hc, hc', hlt, hgt, heq⟩ := hm.placed.codes hi (fun _ => rising) he he' (htree.trans htree'.symm) hv hv'
  exact ⟨v, v', c, c', hv, hv', hc, hc', lt_iff_codes hlt hgt heq⟩

/-- `1` and then `2`, which is shown a `3`. -/
theorem order_preserved_pair :
    ∃ d, Runs (Guarded (ofPartial (step Client.answer)) fun d a => Sequential [0x64] [0x74] d a ∧ d.Turned a) init
        [(.add 1 (.ofValue [0x31]) .calm, fun _ _ => 0x33), (.add 2 (.ofValue [0x32]) .calm, fun _ _ => 0x33),
          (.addContinue 3 0 .calm, fun _ _ => 0x33)] d ∧
      d.protocol.stored.length = 2 ∧ OrderPreserved d.protocol :=
  have hrun : Runs (Guarded (ofPartial (step Client.answer)) fun d a => Sequential [0x64] [0x74] d a ∧ d.Turned a) init
      [(.add 1 (.ofValue [0x31]) .calm, fun _ _ => 0x33), (.add 2 (.ofValue [0x32]) .calm, fun _ _ => 0x33),
        (.addContinue 3 0 .calm, fun _ _ => 0x33)] _ :=
    .cons ⟨⟨⟨rfl, rfl, rfl, ⟨opeEnding, [0x31], by decide⟩, by decide⟩, trivial⟩, rfl⟩
      (.cons ⟨⟨⟨rfl, rfl, rfl, ⟨opeEnding, [0x32], by decide⟩, by decide⟩, trivial⟩, rfl⟩
        (.cons ⟨⟨fun q t hq ht _ => by
          obtain rfl := Option.some.inj hq.symm
          obtain rfl := Option.some.inj (Option.some.inj ht.symm)
          decide, fun q t hq ht => by
          obtain rfl := Option.some.inj hq.symm
          obtain rfl := Option.some.inj (Option.some.inj ht.symm)
          decide⟩, rfl⟩ .nil))
  ⟨_, hrun, rfl, order_preserved hrun⟩

/-- `1` and then `25`, with a byte where the strings were. -/
def failingActs (b : UInt8) : List Act :=
  [(.add 1 (.ofValue [0x31]) .calm, fun _ _ => b), (.add 2 (.ofValue [0x32, 0x35]) .calm, fun _ _ => b),
    (.addContinue 3 0 .calm, fun _ _ => b)]

theorem failing_run {b : UInt8} (hb : b ∈ ([0x31, 0x32] : List UInt8)) :
    ∃ d, Runs (Guarded (ofPartial (step Client.answer)) (Sequential [0x64] [0x74])) init (failingActs b) d ∧
      d.protocol.pending = [] ∧ ¬ OrderPreserved d.protocol := by
  have hsequential : ∀ (d : Dangling) q t, d.protocol.pending[0]? = some q →
      d.protocol.server.holder.traverses[q.initRequestId]? = some (some t) → t.pathLength < 63 →
      Sequential [0x64] [0x74] d (.addContinue 3 0 .calm, fun _ _ => 0) := by
    intro d q t hq ht hlt q' t' hq' ht' _
    obtain rfl := Option.some.inj (hq.symm.trans hq')
    obtain rfl := Option.some.inj (Option.some.inj (ht.symm.trans ht'))
    exact hlt
  have hcodes : ∀ d : Dangling, d.protocol.stored.map (fun e => (e.1.value?, storedCode e)) =
      [(some [0x31], some (formatPath 9223372036854775808)),
        (some [0x32, 0x35], some (formatPath 4611686018427387904))] → ¬ OrderPreserved d.protocol := by
    intro d hstored hord
    obtain ⟨e, e', hst⟩ : ∃ e e', d.protocol.stored = [e, e'] :=
      List.length_eq_two.mp (by simpa using congrArg List.length hstored)
    rw [hst, List.map_cons, List.map_cons, List.map_nil, List.cons.injEq, List.cons.injEq, Prod.mk.injEq,
      Prod.mk.injEq] at hstored
    obtain ⟨⟨hv₁, hc₁⟩, ⟨hv₂, hc₂⟩, -⟩ := hstored
    obtain ⟨v, v', c, c', hv, hv', hc, hc', hiff⟩ := hord e (by simp [hst]) e' (by simp [hst])
    obtain rfl := Option.some.inj (hv₁.symm.trans hv)
    obtain rfl := Option.some.inj (hv₂.symm.trans hv')
    obtain rfl := formatPath_injective (Option.some.inj (hc₁.symm.trans hc))
    obtain rfl := formatPath_injective (Option.some.inj (hc₂.symm.trans hc'))
    exact absurd (hiff.mp (by decide)) (by decide)
  have hrun : ∃ d, Runs (Guarded (ofPartial (step Client.answer)) (Sequential [0x64] [0x74])) init
      (failingActs b) d ∧ d.protocol.pending = [] ∧
      d.protocol.stored.map (fun e => (e.1.value?, storedCode e)) =
        [(some [0x31], some (formatPath 9223372036854775808)),
          (some [0x32, 0x35], some (formatPath 4611686018427387904))] := by
    rcases List.mem_pair.mp hb with rfl | rfl <;>
    exact ⟨_, .cons ⟨⟨rfl, rfl, rfl, ⟨opeEnding, [0x31], by decide⟩, by decide⟩, rfl⟩
      (.cons ⟨⟨rfl, rfl, rfl, ⟨opeEnding, [0x32, 0x35], by decide⟩, by decide⟩, rfl⟩
        (.cons ⟨hsequential _ _ _ rfl rfl (by decide), rfl⟩ .nil)), rfl, rfl⟩
  obtain ⟨d, hrun, hnil, hstored⟩ := hrun
  exact ⟨d, hrun, hnil, hcodes d hstored⟩

/-- The client of `25` is shown the `1` or, where its own bytes stand in the place of
the node's, a `2`: it has the larger value and gets the smaller code. -/
theorem order_not_preserved :
    (∃ d, Runs (Guarded (ofPartial (step Client.answer)) (Sequential [0x64] [0x74])) init (failingActs 0x31) d ∧
      d.protocol.pending = [] ∧ ¬ OrderPreserved d.protocol) ∧
    ∃ d, Runs (Guarded (ofPartial (step Client.answer)) (Sequential [0x64] [0x74])) init (failingActs 0x32) d ∧
      d.protocol.pending = [] ∧ ¬ OrderPreserved d.protocol :=
  ⟨failing_run (by decide), failing_run (by decide)⟩

end Dangling

end Zql
