/-
Which codes stored rows get. Whatever the clients compare by, as long as they are
shown what the nodes have, the row of an insert carries the code of the place its
value has in the tree of its table (`Placed`), and along a tree values stand as
the comparisons put them (`sorted`); so of two rows of a table the codes tell how
their values stand (`Placed.codes`).

An executor compares the node's value with its own, in this order, and the
server goes left for -1: a smaller node sends a value to its left, where the codes
are smaller. So along a tree, from left to right, codes grow and values fall
(`falling`).
-/
import Zql.Insertion
import Zql.Client

namespace Zql

open Dyadic SearchTree Transition

namespace Protocol

variable {answer : RequestAdd → Ciphertext → Int32} {seen : Prop}

/-! ## Values along the tree -/

theorem OneOpe.value? {r : RequestAdd} {opeField opeValue : Str} (h : OneOpe r.row opeField opeValue) :
    r.value? = some opeValue := by
  rw [RequestAdd.value?, h.entry]
  rfl

theorem mem_textbook {key : Str} {rs : List RequestAdd} {v : Ciphertext} (h : v ∈ inorder (textbook answer key rs)) :
    ∃ r ∈ rs, r.value? = some v := by
  induction rs using List.reverseRecOn with
  | nil => cases h
  | append_singleton rs r ih =>
    have hold : v ∈ inorder (textbook answer key rs) → ∃ r' ∈ rs ++ [r], r'.value? = some v := fun h =>
      (ih h).imp fun r' hr' => ⟨List.mem_append_left _ hr'.1, hr'.2⟩
    rw [textbook_snoc, insertRequest] at h
    split at h
    · next value hvalue =>
      split at h
      · rcases mem_inorder_insert h with rfl | h
        · exact ⟨r, by simp, hvalue⟩
        · exact hold h
      · exact hold h
    · exact hold h

/-- **Along the tree of a table values stand as the comparisons put them.** -/
theorem sorted {R : Ciphertext → Ciphertext → Prop} (htrans : ∀ a b c, R a b → R b c → R a c) {key : Str}
    {rs : List RequestAdd}
    (h : ∀ r ∈ rs, ∀ v, r.value? = some v → ∀ node,
      (dir answer r node = some .left → R v node) ∧ (dir answer r node = some .right → R node v)) :
    (inorder (textbook answer key rs)).Pairwise R := by
  induction rs using List.reverseRecOn with
  | nil => exact .nil
  | append_singleton rs r ih =>
    have hsorted := ih fun x hx => h x (by simp [hx])
    rw [textbook_snoc, insertRequest]
    split
    · next v hv =>
      split
      · exact inorder_insert htrans (fun y _ => (h r (by simp) v hv y).1) (fun y _ => (h r (by simp) v hv y).2) hsorted
      · exact hsorted
    · exact hsorted

/-- The row has no field whose name ends in `_ope`, or one. -/
def Plain (r : RequestAdd) : Prop := r.value? = none ∨ ∃ opeField opeValue, OneOpe r.row opeField opeValue

theorem Plain.one {r : RequestAdd} (h : Plain r) {v : Ciphertext} (hv : r.value? = some v) :
    ∃ opeField, OneOpe r.row opeField v := by
  rcases h with hnone | ⟨opeField, opeValue, hone⟩
  · rw [hnone] at hv
    cases hv
  · obtain rfl := Option.some.inj ((OneOpe.value? hone).symm.trans hv)
    exact ⟨opeField, hone⟩

theorem dir_answer {r : RequestAdd} {opeField opeValue : Str} (h : OneOpe r.row opeField opeValue)
    (node : Ciphertext) :
    dir Client.answer r node =
      match compare node opeValue with
      | .lt => some .left
      | .gt => some .right
      | .eq => none := by
  rw [dir, Client.answer_eq h, Client.compare]
  cases compare node opeValue <;> rfl

/-- **Executors put larger values to the left.** -/
theorem falling {key : Str} {rs : List RequestAdd} (h : ∀ r ∈ rs, Plain r) :
    (inorder (textbook Client.answer key rs)).Pairwise fun x y => compare x y = .gt := by
  refine sorted (fun a b c => Std.TransCmp.gt_trans) fun r hr v hv node => ?_
  obtain ⟨opeField, hone⟩ := (h r hr).one hv
  rw [dir_answer hone]
  cases hcmp : compare node v with
  | lt => exact ⟨fun _ => Std.OrientedCmp.gt_of_lt hcmp, nofun⟩
  | eq => exact ⟨nofun, nofun⟩
  | gt => exact ⟨nofun, fun _ => rfl⟩

/-! ## Codes -/

/-- The row of an insert, with the code of the position its value has in the
tree of its table. -/
def CodedRow (s : Server) (r : RequestAdd) (row : Row) : Prop :=
  ∃ ds v, label? (values s r.tree) ds = some v ∧ r.value? = some v ∧ ds.length ≤ 63 ∧
    row = r.row.insert (opeFieldName r.row) (formatPath (UInt64.ofNat (code 63 ds)))

/-- The rows of order-preserving inserts carry the codes of their places. -/
def Placed (p : Protocol) : Prop := ∀ e ∈ p.stored, e.1.value? ≠ none → CodedRow p.server e.1 e.2

/-- The code in a stored row: what stands in the field of the insert's value. -/
def storedCode (e : RequestAdd × Row) : Option Str := e.2[opeFieldName e.1.row]?

/-- Rows have at most one such field, no two inserts on their way continue
under one id, and no traversal goes deeper than 63 steps. -/
def Orderly (answer : RequestAdd → Ciphertext → Int32) (p : Protocol) (a : Act) : Prop :=
  Apart p a ∧
    match a with
    | .add _ request _ => Plain request
    | .addContinue _ k _ =>
      ∀ q t, p.pending[k]? = some q → p.server.holder.traverses[q.initRequestId]? = some (some t) →
        direction (answer q.request q.ciphertext) ≠ none → t.pathLength < 63

/-- The inserts answered and those on their way. -/
def requests (p : Protocol) : List RequestAdd := p.answered ++ p.pending.map (·.request)

theorem receive_requests (p : Protocol) (id : UInt32) (request : RequestAdd) (server : Server) (response : Response) :
    (p.receive id request server response).requests.Perm (p.requests ++ [request]) := by
  unfold receive requests
  split
  · simp
  · simp only [List.append_assoc]
    exact (List.perm_append_comm).append_left _

theorem requests_erase {p : Protocol} {k : Nat} {q : Pending} (hq : p.pending[k]? = some q) :
    ({ p with pending := p.pending.eraseIdx k }.requests ++ [q.request]).Perm p.requests := by
  obtain ⟨hlt, rfl⟩ := List.getElem?_eq_some_iff.mp hq
  simp only [requests, List.append_assoc]
  refine List.Perm.append_left _ (List.perm_append_comm.trans ?_)
  rw [List.singleton_append, ← List.map_cons]
  exact (List.getElem_cons_eraseIdx_perm hlt).map _

theorem receive_sublist {p : Protocol} {id : UInt32} {request : RequestAdd} {server : Server} {response : Response}
    (h : (p.stored.map (·.1)).Sublist p.answered) (hw : Writes p.server server response) (c : Ciphertext) :
    ((p.receive id request server (response.showing c)).stored.map (·.1)).Sublist
      (p.receive id request server (response.showing c)).answered := by
  cases response with
  | addTraverse r => simpa [receive, Response.showing, hw.2 r rfl] using h
  | getOk _ | getEmpty | addOk =>
    have hnew : ((writtenSince p.server server).map fun _ => request).Sublist [request] := by
      have hlen := hw.1
      rcases hr : writtenSince p.server server with _ | ⟨row, _ | ⟨_, _⟩⟩
      · exact List.nil_sublist _
      · exact .refl _
      · rw [hr] at hlen
        simp at hlen
    simpa [receive, Response.showing] using h.append hnew

theorem CodedRow.receive {p : Protocol} {ts ts' : List (BinaryTree Addr)} {id : UInt32} {request : RequestAdd}
    {server : Server} {response : Response} (hi : Valid answer True p ts)
    (hi' : Valid answer True (p.receive id request server response) ts') {r : RequestAdd} {row : Row}
    (h : CodedRow p.server r row) : CodedRow server r row := by
  obtain ⟨ds, v, hl, hrest⟩ := h
  refine ⟨ds, v, ?_, hrest⟩
  have hvalues := hi'.textbook trivial r.tree
  rw [receive_server] at hvalues
  rw [hi.textbook trivial] at hl
  rw [hvalues]
  unfold Protocol.receive
  split
  · exact hl
  · show label? (textbook answer r.tree (p.answered ++ [request])) ds = some v
    rw [textbook_snoc]
    exact label?_insertRequest request hl

theorem Placed.receive {p : Protocol} {ts ts' : List (BinaryTree Addr)} {id : UInt32} {request : RequestAdd}
    {server : Server} {response : Response} (hc : Placed p) (hi : Valid answer True p ts)
    (hi' : Valid answer True (p.receive id request server response) ts')
    (hnew : request.value? ≠ none → ∀ row ∈ writtenSince p.server server, CodedRow server request row) :
    Placed (p.receive id request server response) := by
  intro e he hvalue
  rw [receive_server]
  rw [receive_stored, List.mem_append] at he
  rcases he with he | he
  · exact (hc e he hvalue).receive hi hi'
  · obtain ⟨row, hrow, rfl⟩ := List.mem_map.mp he
    exact hnew hvalue row hrow

theorem not_mem_writtenSince {s s' : Server} {row : Row} (h : s'.database = s.database) :
    row ∉ writtenSince s s' := by
  rw [writtenSince_same h]
  simp

theorem mem_writtenSince_add {s s' : Server} {mysql : Mysql} {database table : Str} {row row' : Row}
    (h : s'.database = (s.database.add mysql database table row).1) (hm : row' ∈ writtenSince s s') : row' = row := by
  rw [writtenSince_add h] at hm
  split at hm
  · exact List.mem_singleton.mp hm
  · cases hm

theorem Valid.root_coded {p : Protocol} {ts ts' : List (BinaryTree Addr)} {id : UInt32} {request : RequestAdd}
    {s' : Server} {opeField opeValue : Str} (hi : Valid answer True p ts)
    (hi' : Valid answer True (p.receive id request s' .addOk) ts') (hone : OneOpe request.row opeField opeValue)
    (htree : p.server.forest.getTree request.database request.table = none) :
    CodedRow s' request (request.row.insert opeField (formatPath 9223372036854775808)) := by
  have hvalues : values s' request.tree = Protocol.textbook answer request.tree (p.answered ++ [request]) :=
    hi'.textbook trivial request.tree
  have hnil : Protocol.textbook answer request.tree p.answered = .nil := by
    rw [← hi.textbook trivial]
    exact values_none htree
  refine ⟨[], opeValue, ?_, OneOpe.value? hone, by simp, ?_⟩
  · rw [hvalues, textbook_snoc, hnil, insertRequest, OneOpe.value? hone]
    simp only [if_true]
    rfl
  · rw [hone.name, code_nil]
    rfl

theorem Waiting.ended_coded {p : Protocol} {ts ts' : List (BinaryTree Addr)} {q : Pending} {k : Nat} {id : UInt32}
    {s' : Server} {t : BTreeTraverse} {u : BinaryTree Addr} {ds : Position} {side : Side} {undef : UInt64}
    (hi : Valid answer True p ts) (hw : Waiting answer True p.server ts q t u ds)
    (hi' : Valid answer True ({ p with pending := p.pending.eraseIdx k }.receive id q.request s' .addOk) ts')
    (hd : direction (answer q.request q.ciphertext) = some side) (hfree : label? u (ds ++ [side]) = none)
    (hlen : t.pathLength < 63) :
    CodedRow s' q.request (q.request.row.insert (opeFieldName q.request.row)
      (formatPath (pathEnd undef (pathStep side t.path) (t.pathLength + 1)))) := by
  have hvalues : values s' q.request.tree = Protocol.textbook answer q.request.tree (p.answered ++ [q.request]) :=
    hi'.textbook trivial q.request.tree
  have hopen : subtree (u.map p.server.heap.value) (ds ++ [side]) = .nil := by
    rw [← label?_eq_none, label?_map, hfree]
    rfl
  have hds : (ds ++ [side]).length ≤ 63 := by
    have := hw.length
    rw [List.length_append, List.length_singleton]
    omega
  have hpath : pathEnd undef (pathStep side t.path) (t.pathLength + 1) = UInt64.ofNat (code 63 (ds ++ [side])) := by
    have hl : t.pathLength + 1 = ((ds ++ [side]).length : Int) := by
      rw [hw.length, List.length_append]
      rfl
    rw [hw.path, pathStep_bits, hl, pathEnd_code hds]
  refine ⟨ds ++ [side], t.ciphertext, ?_, hw.value, hds, by rw [hpath]⟩
  rw [hvalues, textbook_snoc, hi.textbook_eq hw trivial, hw.insert_eq trivial hd hfree,
    label?_graft (slot_of_open hw.label hopen), if_pos rfl]

/-! ## One step -/

/-- What holds of the requests answered and on their way holds after a step
that brings no other. -/
theorem plain_step {p p' : Protocol} {a : Act} (hp : ∀ r ∈ p.requests, Plain r) (hg : Orderly answer p a)
    (h : Takes answer seen p a p') : ∀ r ∈ p'.requests, Plain r := by
  cases a with
  | add id request env =>
    obtain ⟨server, response, c, -, -, rfl⟩ := h
    intro r hr
    rcases List.mem_append.mp ((receive_requests ..).mem_iff.mp hr) with hr | hr
    · exact hp r hr
    · rw [List.mem_singleton.mp hr]
      exact hg.2
  | addContinue id k env =>
    obtain ⟨q, server, response, c, hq, -, -, rfl⟩ := h
    exact fun r hr => hp r (((receive_requests ..).trans (requests_erase hq)).mem_iff.mp hr)

/-- **A row is stored with the code of its place.** -/
theorem Placed.step {p p' : Protocol} {ts ts' : List (BinaryTree Addr)} {a : Act} (hc : Placed p)
    (hi : Valid answer True p ts) (hi' : Valid answer True p' ts') (hg : Orderly answer p a)
    (h : Takes answer True p a p') : Placed p' := by
  cases a with
  | add id request env =>
    obtain ⟨server, response, c, hadded, -, rfl⟩ := h
    refine hc.receive hi hi' fun hvalue row hrow => ?_
    rcases hg.2 with hnone | ⟨opeField, opeValue, hone⟩
    · exact absurd hnone hvalue
    cases hadded with
    | plain hope => exact absurd (hone.entry.symm.trans hope) nofun
    | root hope htree =>
      obtain ⟨rfl, rfl⟩ := Prod.mk.inj (Option.some.inj (hope.symm.trans hone.entry))
      rw [mem_writtenSince_add rfl hrow]
      exact hi.root_coded hi' hone htree
    | started _ _ _ => exact absurd hrow (not_mem_writtenSince rfl)
  | addContinue id k env =>
    obtain ⟨q, server, response, c, hq, hcont, -, rfl⟩ := h
    have hi₀ : Valid answer True { p with pending := p.pending.eraseIdx k } ts :=
      ⟨hi.forest, hi.roots, hi.distinct, fun q' hq' => hi.waiting q' (List.mem_of_mem_eraseIdx hq'),
        hi.others_nodup k, hi.textbook⟩
    have hc₀ : Placed { p with pending := p.pending.eraseIdx k } := hc
    refine hc₀.receive hi₀ hi' fun _ row hrow => ?_
    cases hcont with
    | equal _ => exact absurd hrow (not_mem_writtenSince rfl)
    | moved _ _ _ _ => exact absurd hrow (not_mem_writtenSince rfl)
    | @ended side t₀ t' heap requestAdd row' hd hstored hgo hr hrow' =>
      obtain ⟨t, u, ds, hw⟩ := hi.waiting q (List.mem_of_getElem? hq)
      obtain rfl : t₀ = t := Option.some.inj (Option.some.inj (hstored.symm.trans hw.stored))
      obtain ⟨node, hnode, hnext, rfl, rfl⟩ := BTreeTraverse.goTo_ended hgo
      obtain ⟨node', hnode', hchild⟩ := (hi.forest.laid u hw.tree).child hw.sits
      obtain rfl : node = node' := Option.some.inj (hnode.symm.trans hnode')
      obtain rfl : requestAdd = q.request := Option.some.inj (hr.symm.trans hw.request)
      subst hrow'
      rw [mem_writtenSince_add rfl hrow]
      have hlen := hg.2 q t₀ hq hw.stored (hd.symm ▸ nofun)
      exact hw.ended_coded hi hi' hd ((hchild side).symm.trans hnext) hlen

/-- What holds in every state of an orderly run. -/
theorem Orderly.runs {p : Protocol} {as : List Act}
    (h : Runs (Guarded (Takes answer True) (Orderly answer)) init as p) :
    ∃ ts, Valid answer True p ts ∧ (∀ r ∈ p.requests, Plain r) ∧ Placed p :=
  h.invariant (I := fun p => ∃ ts, Valid answer True p ts ∧ (∀ r ∈ p.requests, Plain r) ∧ Placed p)
    (fun p a p' ⟨ts, hi, hp, hc⟩ ⟨hg, hs⟩ => by
      obtain ⟨ts', hi', -⟩ := hi.step hg.1 hs
      exact ⟨ts', hi', plain_step hp hg hs, hc.step hi hi' hg hs⟩)
    ⟨[], Valid.init _ _, by simp [requests, init], by simp [Placed, init]⟩

/-! ## Two rows -/

/-- **The codes of two rows of a table tell how their values stand.** -/
theorem Placed.codes {R : Ciphertext → Ciphertext → Prop} {p : Protocol} {ts : List (BinaryTree Addr)} (hc : Placed p)
    (hi : Valid answer True p ts) (hR : ∀ key, (inorder (textbook answer key p.answered)).Pairwise R)
    {e e' : RequestAdd × Row} (he : e ∈ p.stored) (he' : e' ∈ p.stored) (htree : e.1.tree = e'.1.tree)
    {v v' : Ciphertext} (hv : e.1.value? = some v) (hv' : e'.1.value? = some v') :
    ∃ c c', storedCode e = some (formatPath c) ∧ storedCode e' = some (formatPath c') ∧
      (c < c' → R v v') ∧ (c' < c → R v' v) ∧ (c = c' → v = v') := by
  obtain ⟨ds, w, hl, hw, hds, hrow⟩ := hc e he (by simp [hv])
  obtain ⟨ds', w', hl', hw', hds', hrow'⟩ := hc e' he' (by simp [hv'])
  obtain rfl := Option.some.inj (hv.symm.trans hw)
  obtain rfl := Option.some.inj (hv'.symm.trans hw')
  rw [hi.textbook trivial] at hl hl'
  rw [← htree] at hl'
  have hsorted := pairwise_inorder_iff.mp (hR e.1.tree)
  have hlt : ∀ {es es' : Position}, es.length ≤ 63 → es'.length ≤ 63 →
      (UInt64.ofNat (code 63 es) < UInt64.ofNat (code 63 es') ↔ Before es es') := fun hes hes' => by
    rw [UInt64.lt_iff_toNat_lt, code_toNat hes, code_toNat hes', code_lt_iff hes hes']
  refine ⟨_, _, by rw [storedCode, hrow, getElem?_insert_self], by rw [storedCode, hrow', getElem?_insert_self],
    fun h => hsorted ds ds' v v' hl hl' ((hlt hds hds').mp h), fun h => hsorted ds' ds v' v hl' hl ((hlt hds' hds).mp h),
    fun heq => ?_⟩
  rcases before_trichotomy ds ds' with rfl | hb | hb
  · exact Option.some.inj (hl.symm.trans hl')
  · exact absurd ((hlt hds hds').mpr hb) (heq ▸ UInt64.lt_irrefl _)
  · exact absurd ((hlt hds' hds).mpr hb) (heq ▸ UInt64.lt_irrefl _)

end Protocol

end Zql
