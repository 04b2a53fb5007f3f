/-
Inserts on their way. A client sends a `RequestAdd` and answers every
`ResponseAddTraverse` it gets for it with one `RequestAddContinue`, until a
`ResponseAddOk`; any number of inserts take turns at the server, a handler
call at a time.

How a client compares is a parameter: `answer r c` is the compare result
it sends for the insert `r` when it is shown the node value `c`.

The invariant (`Valid`) says every interrupted insert still has its
traversal, at a node its value's walk from the root passes, in whatever the
other inserts have made of the tree since; and that each table's tree is
the textbook insertion of the inserts answered so far. It holds in every
run in which a message's id is not the id another insert in progress is
continued under (`Apart`).
-/
import Zql.Worker
import Zql.Traverse
import Zql.Lib.Runs

namespace Zql

open Dyadic SearchTree Transition

/-- The value a row is inserted into the tree by, if by any. -/
def RequestAdd.value? (r : RequestAdd) : Option Ciphertext := (opeEntry r.row).map (·.2)

/-- The key of the tree the row belongs to. -/
def RequestAdd.tree (r : RequestAdd) : Str := BTreeForest.id r.database r.table

/-- An insert whose client has been shown a node and is to answer: the id
it continues under, its request, and the node's value. -/
structure Pending where
  initRequestId : UInt32
  request : RequestAdd
  ciphertext : Ciphertext

structure Protocol where
  server : Server
  pending : List Pending
  /-- The inserts answered with `ResponseAddOk`, in the order of the answers. -/
  answered : List RequestAdd
  /-- The ids of all messages so far. -/
  used : List UInt32
  /-- The rows MySQL took, each with the insert that added it. -/
  stored : List (RequestAdd × Row)

namespace Protocol

def init : Protocol := ⟨Server.init, [], [], [], []⟩

inductive Act
  | add (id : UInt32) (request : RequestAdd) (env : Env)
  /-- The client of the `k`th insert on its way answers. -/
  | addContinue (id : UInt32) (k : Nat) (env : Env)

def Act.id : Act → UInt32
  | .add id _ _ => id
  | .addContinue id _ _ => id

/-- The client of an insert gets the server's answer. -/
def receive (p : Protocol) (id : UInt32) (request : RequestAdd) (server : Server) (response : Response) : Protocol :=
  let stored := p.stored ++ (writtenSince p.server server).map fun row => (request, row)
  let used := p.used ++ [id]
  match response with
  | .addTraverse r =>
    { p with server, pending := p.pending ++ [⟨r.initRequestId, request, r.ciphertext⟩], used, stored }
  | _ => { p with server, answered := p.answered ++ [request], used, stored }

theorem receive_server (p : Protocol) (id : UInt32) (request : RequestAdd) (server : Server) (response : Response) :
    (p.receive id request server response).server = server := by
  unfold receive
  split <;> rfl

theorem receive_stored (p : Protocol) (id : UInt32) (request : RequestAdd) (server : Server) (response : Response) :
    (p.receive id request server response).stored =
      p.stored ++ (writtenSince p.server server).map fun row => (request, row) := by
  unfold receive
  split <;> rfl

theorem receive_used (p : Protocol) (id : UInt32) (request : RequestAdd) (server : Server) (response : Response) :
    (p.receive id request server response).used = p.used ++ [id] := by
  unfold receive
  split <;> rfl

def step (answer : RequestAdd → Ciphertext → Int32) (p : Protocol) : Act → Option Protocol
  | .add id request env =>
    match onRequestAdd env p.server id request with
    | .error _ => none
    | .ok (server, sent) => some (p.receive id request server sent.wrapper.response)
  | .addContinue id k env =>
    match p.pending[k]? with
    | none => none
    | some q =>
      match onRequestAddContinue env p.server id
          { initRequestId := q.initRequestId, compareResult := answer q.request q.ciphertext } with
      | .error _ => none
      | .ok (server, sent) =>
        some ({ p with pending := p.pending.eraseIdx k }.receive id q.request server sent.wrapper.response)

theorem step_add {answer : RequestAdd → Ciphertext → Int32} {p p' : Protocol} {id : UInt32} {request : RequestAdd}
    {env : Env} (h : step answer p (.add id request env) = some p') :
    ∃ server response, Added env p.server id request server response ∧ p' = p.receive id request server response := by
  simp only [step] at h
  split at h
  · cases h
  next server sent hok =>
  exact ⟨server, _, onRequestAdd_added hok, (Option.some.inj h).symm⟩

theorem step_addContinue {answer : RequestAdd → Ciphertext → Int32} {p p' : Protocol} {id : UInt32} {k : Nat}
    {env : Env} (h : step answer p (.addContinue id k env) = some p') :
    ∃ q server response, p.pending[k]? = some q ∧
      Continued env p.server id
        { initRequestId := q.initRequestId, compareResult := answer q.request q.ciphertext } server response ∧
      p' = { p with pending := p.pending.eraseIdx k }.receive id q.request server response := by
  simp only [step] at h
  split at h
  · cases h
  next q hq =>
  split at h
  · cases h
  next server sent hok =>
  exact ⟨q, server, _, hq, onRequestAddContinue_continued hok, (Option.some.inj h).symm⟩

/-! ## What clients are shown -/

/-- What a step may come to when the client is shown as many bytes as the node's
value has, and the node's value if `seen`. -/
def Takes (answer : RequestAdd → Ciphertext → Int32) (seen : Prop) (p : Protocol) (a : Act) (p' : Protocol) : Prop :=
  match a with
  | .add id request env => ∃ server response c, Added env p.server id request server response ∧
      Shown seen response c ∧ p' = p.receive id request server (response.showing c)
  | .addContinue id k env => ∃ q server response c, p.pending[k]? = some q ∧
      Continued env p.server id
        { initRequestId := q.initRequestId, compareResult := answer q.request q.ciphertext } server response ∧
      Shown seen response c ∧ p' = { p with pending := p.pending.eraseIdx k }.receive id q.request server (response.showing c)

theorem takes_of_step {answer : RequestAdd → Ciphertext → Int32} {p p' : Protocol} {a : Act}
    (h : step answer p a = some p') : Takes answer True p a p' := by
  cases a with
  | add id request env =>
    obtain ⟨server, response, hadded, rfl⟩ := step_add h
    obtain ⟨c, hc, hsame⟩ := Shown.self True response
    exact ⟨server, response, c, hadded, hc, by rw [hsame]⟩
  | addContinue id k env =>
    obtain ⟨q, server, response, hq, hcont, rfl⟩ := step_addContinue h
    obtain ⟨c, hc, hsame⟩ := Shown.self True response
    exact ⟨q, server, response, c, hq, hcont, hc, by rw [hsame]⟩

theorem Takes.mono {answer : RequestAdd → Ciphertext → Int32} {seen seen' : Prop} {p p' : Protocol} {a : Act}
    (h : Takes answer seen p a p') (hseen : seen' → seen) : Takes answer seen' p a p' := by
  cases a with
  | add id request env =>
    obtain ⟨server, response, c, hadded, hc, hp'⟩ := h
    exact ⟨server, response, c, hadded, hc.mono hseen, hp'⟩
  | addContinue id k env =>
    obtain ⟨q, server, response, c, hq, hcont, hc, hp'⟩ := h
    exact ⟨q, server, response, c, hq, hcont, hc.mono hseen, hp'⟩

/-- The inserts in progress other than the one whose message this is. -/
def others (p : Protocol) : Act → List Pending
  | .add _ _ _ => p.pending
  | .addContinue _ k _ => p.pending.eraseIdx k

/-- No other insert in progress is continued under the message's id. -/
def Apart (p : Protocol) (a : Act) : Prop := ∀ q ∈ p.others a, q.initRequestId ≠ a.id

/-- The message's id is new. -/
def Fresh (p : Protocol) (a : Act) : Prop := a.id ∉ p.used

instance (p : Protocol) (a : Act) : Decidable (Fresh p a) := inferInstanceAs (Decidable (a.id ∉ p.used))

/-! ## Trees of values -/

/-- The values in the tree of a table. -/
def values (s : Server) (key : Str) : BinaryTree Ciphertext := (s.heap.tree s.forest.forest[key]?).map s.heap.value

/-- Where the insert goes at a node. -/
def dir (answer : RequestAdd → Ciphertext → Int32) (r : RequestAdd) (node : Ciphertext) : Option Side :=
  direction (answer r node)

/-- The textbook insertion of a request into the tree under a key. -/
def insertRequest (answer : RequestAdd → Ciphertext → Int32) (key : Str) (t : BinaryTree Ciphertext)
    (r : RequestAdd) : BinaryTree Ciphertext :=
  match r.value? with
  | some value => if r.tree = key then insert (dir answer r) value t else t
  | none => t

/-- The tree under a key after these requests, one after the other. -/
def textbook (answer : RequestAdd → Ciphertext → Int32) (key : Str) (rs : List RequestAdd) : BinaryTree Ciphertext :=
  rs.foldl (insertRequest answer key) .nil

theorem textbook_snoc (answer : RequestAdd → Ciphertext → Int32) (key : Str) (rs : List RequestAdd) (r : RequestAdd) :
    textbook answer key (rs ++ [r]) = insertRequest answer key (textbook answer key rs) r := by
  simp [textbook]

/-- No node moves in a table's tree. -/
theorem label?_insertRequest {answer : RequestAdd → Ciphertext → Int32} {key : Str} {t : BinaryTree Ciphertext}
    {ds : Position} {v : Ciphertext} (r : RequestAdd) (h : label? t ds = some v) :
    label? (insertRequest answer key t r) ds = some v := by
  unfold insertRequest
  split
  · split
    · exact label?_insert h
    · exact h
  · exact h

theorem insertRequest_of_ne {answer : RequestAdd → Ciphertext → Int32} {key : Str} {t : BinaryTree Ciphertext}
    {r : RequestAdd} (h : r.tree = key → r.value? = none) : insertRequest answer key t r = t := by
  unfold insertRequest
  split
  · next value hv =>
    rw [if_neg]
    intro hk
    rw [h hk] at hv
    cases hv
  · rfl

/-! ## The invariant -/

/-- An insert on its way: its traversal `t` sits at the position `ds` of
the tree `u` of its table. If clients are shown what nodes have, the walk of its
value passes there, and its client has been shown the value there. -/
structure Waiting (answer : RequestAdd → Ciphertext → Int32) (seen : Prop) (s : Server) (ts : List (BinaryTree Addr))
    (q : Pending) (t : BTreeTraverse) (u : BinaryTree Addr) (ds : Position) : Prop where
  stored : s.holder.traverses[q.initRequestId]? = some (some t)
  request : t.requestAdd = some q.request
  value : q.request.value? = some t.ciphertext
  tree : u ∈ ts
  root : s.forest.forest[q.request.tree]? = root? u
  sits : label? u ds = some t.current
  path : t.path = UInt64.ofNat (bits ds)
  length : t.pathLength = ds.length
  size : q.ciphertext.length = (s.heap.value t.current).length
  onPath : seen → OnPath (dir answer q.request) (u.map s.heap.value) ds
  shown : seen → q.ciphertext = s.heap.value t.current

structure Valid (answer : RequestAdd → Ciphertext → Int32) (seen : Prop) (p : Protocol) (ts : List (BinaryTree Addr)) :
    Prop where
  forest : Forest p.server.heap ts
  roots : ∀ (key : Str) (root : Addr), p.server.forest.forest[key]? = some root → At ts root []
  distinct : ∀ (key key' : Str) (root : Addr), p.server.forest.forest[key]? = some root →
    p.server.forest.forest[key']? = some root → key = key'
  waiting : ∀ q ∈ p.pending, ∃ t u ds, Waiting answer seen p.server ts q t u ds
  ids : (p.pending.map (·.initRequestId)).Nodup
  textbook : seen → ∀ key, values p.server key = Protocol.textbook answer key p.answered

variable {answer : RequestAdd → Ciphertext → Int32} {seen : Prop}

theorem Valid.init (answer : RequestAdd → Ciphertext → Int32) (seen : Prop) : Valid answer seen init [] :=
  ⟨Forest.nil, fun _ _ h => by simp [Protocol.init, Server.init] at h,
   fun _ _ _ h => by simp [Protocol.init, Server.init] at h, fun _ hq => by simp [Protocol.init] at hq,
   by simp [Protocol.init], fun _ _ => rfl⟩

theorem values_eq {s : Server} {ts : List (BinaryTree Addr)} (hf : Forest s.heap ts) {key : Str}
    {u : BinaryTree Addr} (hu : u ∈ ts) (hr : s.forest.forest[key]? = root? u) :
    values s key = u.map s.heap.value := by
  rw [values, hr, hf.tree hu]

theorem values_none {s : Server} {key : Str} (hr : s.forest.forest[key]? = none) : values s key = .nil := by
  rw [values, hr]
  unfold Heap.tree
  cases s.heap.length <;> rfl

/-- An insert on its way is untouched by a step that keeps its traversal,
the nodes of its tree and the values in them, and its walk. -/
theorem Waiting.carry {s s' : Server} {ts ts' : List (BinaryTree Addr)}
    {q : Pending} {t : BTreeTraverse} {u u' : BinaryTree Addr} {ds : Position} (h : Waiting answer seen s ts q t u ds)
    (hstored : s'.holder.traverses[q.initRequestId]? = s.holder.traverses[q.initRequestId]?)
    (hroot : s'.forest.forest[q.request.tree]? = s.forest.forest[q.request.tree]?) (hu' : u' ∈ ts')
    (hlabel : ∀ es a, label? u es = some a → label? u' es = some a)
    (hpath : OnPath (dir answer q.request) (u.map s.heap.value) ds →
      OnPath (dir answer q.request) (u'.map s'.heap.value) ds)
    (hvalue : s'.heap.value t.current = s.heap.value t.current) : Waiting answer seen s' ts' q t u' ds := by
  have hr : root? u' = root? u := by
    cases hu : root? u with
    | some a => exact hlabel [] a hu
    | none =>
      have hsits := h.sits
      rw [root?_eq_none.mp hu] at hsits
      simp at hsits
  exact {
    stored := hstored.trans h.stored
    request := h.request
    value := h.value
    tree := hu'
    root := by rw [hroot, h.root, hr]
    sits := hlabel _ _ h.sits
    path := h.path
    length := h.length
    size := by rw [hvalue]; exact h.size
    onPath := fun hseen => hpath (h.onPath hseen)
    shown := fun hseen => by rw [hvalue]; exact h.shown hseen }

theorem Waiting.grow {s s' : Server} {pre post : List (BinaryTree Addr)}
    {v : BinaryTree Addr} {es : Position} {c : Ciphertext} {q : Pending} {t : BTreeTraverse}
    {u : BinaryTree Addr} {ds : Position} (h : Waiting answer seen s (pre ++ v :: post) q t u ds)
    (hf : Forest s.heap (pre ++ v :: post)) (hslot : Slot v es) (hg : Grown s.heap s'.heap c)
    (hstored : s'.holder.traverses[q.initRequestId]? = s.holder.traverses[q.initRequestId]?)
    (hroot : s'.forest.forest[q.request.tree]? = s.forest.forest[q.request.tree]?) :
    ∃ u', Waiting answer seen s' (pre ++ SearchTree.graft s.heap.length v es :: post) q t u' ds := by
  have hcur : t.current < s.heap.length := hf.lt_length ⟨u, h.tree, h.sits⟩
  have hmap : u.map s'.heap.value = u.map s.heap.value :=
    map_congr fun a ha => hg.value_old ((hf.laid u h.tree).lt_length ha)
  by_cases huv : u = v
  · subst huv
    refine ⟨SearchTree.graft s.heap.length u es, h.carry hstored hroot (by simp)
      (fun _ _ => label?_graft_old hslot) ?_ (hg.value_old hcur)⟩
    rw [map_graft, hmap]
    exact OnPath.graft
  · have hu : u ∈ pre ++ SearchTree.graft s.heap.length v es :: post := by
      have hmem := h.tree
      simp only [List.mem_append, List.mem_cons, huv, false_or] at hmem ⊢
      rcases hmem with hmem | hmem
      · exact .inl hmem
      · exact .inr (.inr hmem)
    refine ⟨u, h.carry hstored hroot hu (fun _ _ => id) ?_ (hg.value_old hcur)⟩
    rw [hmap]
    exact id

/-! ## The trees after a step -/

theorem Valid.tree_cases {p : Protocol} {ts : List (BinaryTree Addr)}
    (hi : Valid answer seen p ts) (key : Str) :
    p.server.forest.forest[key]? = none ∨ ∃ u ∈ ts, p.server.forest.forest[key]? = root? u ∧ root? u ≠ none := by
  cases hk : p.server.forest.forest[key]? with
  | none => exact .inl rfl
  | some root =>
    obtain ⟨u, hu, hl⟩ := hi.roots key root hk
    exact .inr ⟨u, hu, hl.symm, by rw [show root? u = some root from hl]; simp⟩

theorem Valid.key_unique {p : Protocol} {ts : List (BinaryTree Addr)}
    (hi : Valid answer seen p ts) {key key' : Str} {u : BinaryTree Addr} (hne : root? u ≠ none)
    (hk : p.server.forest.forest[key]? = root? u) (hk' : p.server.forest.forest[key']? = root? u) : key = key' := by
  cases hr : root? u with
  | none => exact absurd hr hne
  | some root => exact hi.distinct key key' root (hk.trans hr) (hk'.trans hr)

theorem Valid.values_create {p : Protocol} {ts : List (BinaryTree Addr)}
    (hi : Valid answer seen p ts) {s' : Server} (key : Str) (c : Ciphertext)
    (hheap : s'.heap = p.server.heap ++ [BTreeNode.new c])
    (hforest : s'.forest.forest = p.server.forest.forest.insert key p.server.heap.length) (key' : Str) :
    values s' key' = if key' = key then leaf c else values p.server key' := by
  have hf' : Forest s'.heap (leaf p.server.heap.length :: ts) := hheap ▸ hi.forest.create c
  have hg : Grown p.server.heap s'.heap c := hheap ▸ grown_create _ c
  by_cases hk : key' = key
  · rw [if_pos hk, values_eq hf' List.mem_cons_self (by rw [hforest, hk]; simp [leaf])]
    simp [leaf, BinaryTree.map, hg.value_new]
  · have hsame : s'.forest.forest[key']? = p.server.forest.forest[key']? := by
      rw [hforest, getElem?_insert_if, if_neg hk]
    rw [if_neg hk]
    rcases hi.tree_cases key' with hnone | ⟨u, hu, hr, -⟩
    · rw [values_none (hsame.trans hnone), values_none hnone]
    · rw [values_eq hf' (List.mem_cons_of_mem _ hu) (hsame.trans hr), values_eq hi.forest hu hr]
      exact map_congr fun a ha => hg.value_old ((hi.forest.laid u hu).lt_length ha)

theorem Valid.values_grow {p : Protocol}
    {pre post : List (BinaryTree Addr)} {u : BinaryTree Addr} {es : Position}
    (hi : Valid answer seen p (pre ++ u :: post)) {s' : Server} {key : Str} {c : Ciphertext}
    (hf' : Forest s'.heap (pre ++ SearchTree.graft p.server.heap.length u es :: post))
    (hg : Grown p.server.heap s'.heap c) (hforest : s'.forest = p.server.forest) (hne : root? u ≠ none)
    (hk : p.server.forest.forest[key]? = root? u) (key' : Str) :
    values s' key' = if key' = key then SearchTree.graft c (values p.server key) es else values p.server key' := by
  have hold : ∀ v ∈ pre ++ u :: post, v.map s'.heap.value = v.map p.server.heap.value := fun v hv =>
    map_congr fun a ha => hg.value_old ((hi.forest.laid v hv).lt_length ha)
  by_cases hkk : key' = key
  · subst hkk
    have hroot : root? (SearchTree.graft p.server.heap.length u es) = root? u := by
      cases u with
      | nil => exact absurd rfl hne
      | node a l r => rcases es with _ | ⟨_ | _, es⟩ <;> rfl
    rw [if_pos rfl, values_eq hf' (u := SearchTree.graft p.server.heap.length u es) (by simp)
      (by rw [hforest, hk, hroot]), values_eq hi.forest (by simp) hk, map_graft, hg.value_new, hold u (by simp)]
  · rw [if_neg hkk]
    rcases hi.tree_cases key' with hnone | ⟨v, hv, hr, hvne⟩
    · rw [values_none (hforest ▸ hnone), values_none hnone]
    · have hvu : v ≠ u := by
        intro he
        subst he
        exact hkk (hi.key_unique hvne hr hk)
      have hv' : v ∈ pre ++ SearchTree.graft p.server.heap.length u es :: post := by
        simp only [List.mem_append, List.mem_cons, hvu, false_or] at hv ⊢
        rcases hv with hv | hv
        · exact .inl hv
        · exact .inr (.inr hv)
      rw [values_eq hf' hv' (hforest ▸ hr), values_eq hi.forest hv hr, hold v hv]

end Protocol

end Zql
