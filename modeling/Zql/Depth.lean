/-
How deep the trees may get. A code has 64 bits and a traversal spends one
for each step, so its last shift is by `63 - pathLength`; nothing bounds the
number of steps, and `n` inserts in falling or rising order make a tree of
depth `n - 1`.

Beside the run this keeps what the source does not: the amounts traversals
shift by when they create their nodes, the code of every node (2^63 for a
root), and the ids whose stored traversal has created its node already.
As long as no traversal creates a second node (its path is a code then, with
no room left), nor one after 63 steps, all amounts are in range and every
node's code is the code of its position (`codes_fit`).
-/
import Zql.Insertion
import Zql.Client

namespace Zql

open Dyadic SearchTree Transition

open Protocol (Act)

theorem ofValue_one (value : Str) : OneOpe (RequestAdd.ofValue value).row opeEnding value := rfl

structure Depth where
  ended : List UInt32
  amounts : List Int
  codes : List UInt64

namespace Depth

def init : Depth := ⟨[], [], []⟩

/-- The code of the node at an address. -/
def code (d : Depth) (a : Addr) : UInt64 := (d.codes[a]?).getD 0

/-- The step the answer of the `k`th insert makes, if any: the id of its
traversal, the side, and the traversal before. -/
def call (answer : RequestAdd → Ciphertext → Int32) (p : Protocol) (k : Nat) : Option (UInt32 × Side × BTreeTraverse) :=
  match p.pending[k]? with
  | none => none
  | some q =>
    match direction (answer q.request q.ciphertext), (p.server.holder.getTraverse q.initRequestId).2 with
    | some side, some t => some (q.initRequestId, side, t)
    | _, _ => none

def observe (answer : RequestAdd → Ciphertext → Int32) (d : Depth) (p : Protocol) (a : Act) (_p' : Protocol) : Depth :=
  match a with
  | .add id request _ =>
    match opeEntry request.row, p.server.forest.getTree request.database request.table with
    | none, _ => d
    | some _, none => { d with codes := d.codes ++ [9223372036854775808] }
    | some _, some _ => { d with ended := d.ended.filter fun i => i ≠ id }
  | .addContinue _ k env =>
    match call answer p k with
    | none => d
    | some (i, side, t) =>
      match t.goTo side env.undef p.server.heap with
      | some (_, t', false) =>
        { ended := i :: d.ended, amounts := d.amounts ++ [63 - t'.pathLength], codes := d.codes ++ [t'.path] }
      | _ => d

/-- The inserts of honest or other clients, watched. -/
def step (answer : RequestAdd → Ciphertext → Int32) (s : Protocol × Depth) (a : Act) : Option (Protocol × Depth) :=
  observed (Protocol.step answer) (observe answer) s a

/-- A step that creates a node is of a traversal that has not created one,
and has taken fewer than 63 steps. -/
def Shallow (answer : RequestAdd → Ciphertext → Int32) (s : Protocol × Depth) : Act → Prop
  | .add _ _ _ => True
  | .addContinue _ k _ =>
    ∀ i side t node, call answer s.1 k = some (i, side, t) → s.1.server.heap[t.current]? = some node →
      node.child side = none → i ∉ s.2.ended ∧ t.pathLength < 63

/-! ## The invariant -/

structure Sound (s : Protocol × Depth) (ts : List (BinaryTree Addr)) : Prop where
  forest : Forest s.1.server.heap ts
  roots : ∀ (key : Str) (root : Addr), s.1.server.forest.forest[key]? = some root → At ts root []
  walking : ∀ (i : UInt32) (t : BTreeTraverse), s.1.server.holder.traverses[i]? = some (some t) → i ∉ s.2.ended →
    ∃ ds, Walking ts t ds
  coding : Coding s.2.codes s.1.server.heap ts
  amounts : ∀ x ∈ s.2.amounts, 0 ≤ x ∧ x ≤ 63

theorem Sound.init : Sound (Protocol.init, init) [] :=
  ⟨Forest.nil, fun _ _ h => by simp [Protocol.init, Server.init] at h,
   fun _ _ h => by simp [Protocol.init, Server.init] at h, Coding.nil, fun _ h => by simp [Depth.init] at h⟩

theorem call_eq {answer : RequestAdd → Ciphertext → Int32} {p : Protocol} {k : Nat} {q : Pending} {side : Side}
    {t : BTreeTraverse} (hq : p.pending[k]? = some q) (hd : direction (answer q.request q.ciphertext) = some side)
    (ht : p.server.holder.traverses[q.initRequestId]? = some (some t)) :
    call answer p k = some (q.initRequestId, side, t) := by
  simp only [call, hq, hd, BTreeTraverseHolder.getTraverse_of_stored ht]

/-- **A `RequestAdd`** numbers the root it may create. -/
theorem Sound.add {answer : RequestAdd → Ciphertext → Int32} {p p' : Protocol} {d : Depth}
    {ts : List (BinaryTree Addr)} {id : UInt32} {request : RequestAdd} {env : Env} {s' : Server}
    {response : Response} (hi : Sound (p, d) ts) (h : Added env p.server id request s' response)
    (hp : p'.server = s') : ∃ ts', Sound (p', observe answer d p (.add id request env) p') ts' := by
  cases h with
  | plain hope =>
    simp only [observe, hope]
    refine ⟨ts, ?_, ?_, ?_, ?_, hi.amounts⟩ <;> rw [hp]
    · exact hi.forest
    · exact hi.roots
    · exact hi.walking
    · exact hi.coding
  | @root opeField opeValue hope htree =>
    simp only [observe, hope, htree]
    have he : Extends ts (leaf p.server.heap.length :: ts) := .of_subset (List.subset_cons_self _ _)
    refine ⟨leaf p.server.heap.length :: ts, ?_, ?_, ?_, ?_, hi.amounts⟩ <;> rw [hp]
    · exact hi.forest.create opeValue
    · exact at_root_insert hi.roots _ _
    · intro i t ht hn
      obtain ⟨ds, hw⟩ := hi.walking i t ht hn
      exact ⟨ds, hw.extends he⟩
    · exact hi.coding.create hi.forest opeValue
  | @started opeField opeValue tree node hope htree hnode =>
    simp only [observe, hope, htree]
    refine ⟨ts, ?_, ?_, ?_, ?_, hi.amounts⟩ <;> rw [hp]
    · exact hi.forest
    · exact hi.roots
    · intro i t ht hn
      rcases BTreeTraverseHolder.update_cases ht with ⟨rfl, rfl⟩ | ⟨hid, ht⟩
      · exact ⟨[], hi.roots _ tree htree, rfl, rfl⟩
      · refine hi.walking i t ht fun hm => hn ?_
        rw [List.mem_filter]
        exact ⟨hm, by simpa using hid⟩
    · exact hi.coding

/-- **A shallow `RequestAddContinue`** shifts within range, and its node's
code is that of its position. -/
theorem Sound.addContinue {answer : RequestAdd → Ciphertext → Int32} {p p' : Protocol} {d : Depth}
    {ts : List (BinaryTree Addr)} {k : Nat} {q : Pending} {id : UInt32} {env : Env} {s' : Server}
    {response : Response} (hi : Sound (p, d) ts) (hq : p.pending[k]? = some q)
    (hg : Shallow answer (p, d) (.addContinue id k env))
    (h : Continued env p.server id
      { initRequestId := q.initRequestId, compareResult := answer q.request q.ciphertext } s' response)
    (hp : p'.server = s') : ∃ ts', Sound (p', observe answer d p (.addContinue id k env) p') ts' := by
  cases h with
  | equal hd =>
    have hd' : direction (answer q.request q.ciphertext) = none := hd
    have hcall : call answer p k = none := by simp only [call, hq, hd']
    simp only [observe, hcall]
    refine ⟨ts, ?_, ?_, ?_, ?_, hi.amounts⟩ <;> rw [hp]
    · exact hi.forest
    · exact hi.roots
    · intro i t ht hn
      exact hi.walking i t ((BTreeTraverseHolder.getTraverse_stored ..).mp ht) hn
    · exact hi.coding
  | @moved side t t' heap node hd hstored hgo hnode =>
    have hcall := call_eq hq hd hstored
    simp only [observe, hcall, hgo]
    obtain ⟨rfl, -⟩ := BTreeTraverse.goTo_moved hgo
    refine ⟨ts, ?_, ?_, ?_, ?_, hi.amounts⟩ <;> rw [hp]
    · exact hi.forest
    · exact hi.roots
    · intro i t₁ ht hn
      rcases BTreeTraverseHolder.update_cases ht with ⟨rfl, rfl⟩ | ⟨-, ht⟩
      · obtain ⟨ds, hw⟩ := hi.walking _ _ hstored hn
        exact ⟨_, hw.moved hi.forest hgo⟩
      · exact hi.walking i t₁ ht hn
    · exact hi.coding
  | @ended side t t' heap requestAdd row hd hstored hgo hr hrow =>
    have hcall := call_eq hq hd hstored
    simp only [observe, hcall, hgo]
    obtain ⟨node, hnode, hchild, -, -⟩ := BTreeTraverse.goTo_ended hgo
    obtain ⟨hended, hlen⟩ := hg _ _ _ node hcall hnode hchild
    obtain ⟨ds, hw⟩ := hi.walking _ _ hstored hended
    rcases goTo_cases hi.forest hw side env.undef with ⟨_, hgo₂, _⟩ |
      ⟨pre, u, post, heap', t₂, rfl, -, hslot, hgo₂, hgrown, hf, -, -, -, hlength, hpath⟩
    · rw [hgo] at hgo₂
      cases hgo₂
    rw [hgo] at hgo₂
    cases hgo₂
    have hwl := hw.length
    have hds : (ds ++ [side]).length ≤ 63 := by
      rw [List.length_append, List.length_singleton]
      omega
    rw [pathEnd_code hds] at hpath
    have he : Extends (pre ++ u :: post) (pre ++ SearchTree.graft p.server.heap.length u (ds ++ [side]) :: post) :=
      Extends.graft hslot _
    refine ⟨pre ++ SearchTree.graft p.server.heap.length u (ds ++ [side]) :: post, ?_, ?_, ?_, ?_, ?_⟩
    · rw [hp]
      exact hf
    · rw [hp]
      exact fun key root hr => (hi.roots key root hr).extends he
    · rw [hp]
      intro i t₁ ht hn
      rw [List.mem_cons, not_or] at hn
      obtain ⟨-, ht⟩ := BTreeTraverseHolder.removeTraverse_cases ht
      rw [BTreeTraverseHolder.update_of_ne hn.1] at ht
      obtain ⟨es, hes⟩ := hi.walking i t₁ ht hn.2
      exact ⟨es, hes.extends he⟩
    · rw [hp, hpath]
      exact hi.coding.graft hi.forest hgrown hslot hds
    · intro x hx
      rcases List.mem_append.mp hx with hx | hx
      · exact hi.amounts x hx
      · rw [List.mem_singleton.mp hx, hlength]
        omega

theorem Sound.step {answer : RequestAdd → Ciphertext → Int32} {s s' : Protocol × Depth}
    {ts : List (BinaryTree Addr)} {a : Act} (hi : Sound s ts) (hg : Shallow answer s a)
    (h : Depth.step answer s a = some s') : ∃ ts', Sound s' ts' := by
  obtain ⟨p, d⟩ := s
  obtain ⟨p', d'⟩ := s'
  obtain ⟨hstep, hd'⟩ := observed_some h
  simp only at hstep hd'
  rw [hd']
  cases a with
  | add id request env =>
    obtain ⟨server, response, hadded, rfl⟩ := Protocol.step_add hstep
    exact hi.add hadded (Protocol.receive_server ..)
  | addContinue id k env =>
    obtain ⟨q, server, response, hq, hcont, rfl⟩ := Protocol.step_addContinue hstep
    exact hi.addContinue hq hg hcont (Protocol.receive_server ..)

/-- **Codes have room for every node** of a run whose traversals are
shallow: each shift is by 0 to 63, a node's code is all the sides of its
position, a one and zeros, and no two nodes of a tree share a code. -/
theorem codes_fit {answer : RequestAdd → Ciphertext → Int32} {s : Protocol × Depth} {as : List Act}
    (h : Runs (Guarded (ofPartial (step answer)) (Shallow answer)) (Protocol.init, init) as s) :
    (∀ x ∈ s.2.amounts, 0 ≤ x ∧ x ≤ 63) ∧
    (∀ database table ds a,
      label? (s.1.server.heap.tree (s.1.server.forest.getTree database table)) ds = some a →
      ds.length ≤ 63 ∧ (s.2.code a).toNat = (2 * bits ds + 1) * 2 ^ (63 - ds.length)) ∧
    (∀ database table, ((inorder (s.1.server.heap.tree (s.1.server.forest.getTree database table))).map
      s.2.code).Nodup) := by
  obtain ⟨ts, hi⟩ := h.invariant (I := fun s => ∃ ts, Sound s ts)
    (fun _ _ _ ⟨_, hi⟩ hs => hi.step hs.1 hs.2) ⟨[], Sound.init⟩
  have htree : ∀ database table, s.1.server.heap.tree (s.1.server.forest.getTree database table) = .nil ∨
      s.1.server.heap.tree (s.1.server.forest.getTree database table) ∈ ts := by
    intro database table
    rw [BTreeForest.getTree]
    cases hk : s.1.server.forest.forest[BTreeForest.id database table]? with
    | none =>
      left
      unfold Heap.tree
      cases s.1.server.heap.length <;> rfl
    | some root =>
      obtain ⟨u, hu, hl⟩ := hi.roots _ root hk
      right
      rw [← show root? u = some root from hl, hi.forest.tree hu]
      exact hu
  refine ⟨hi.amounts, fun database table ds a ha => ?_, fun database table => ?_⟩
  · rcases htree database table with hnil | hmem
    · rw [hnil] at ha
      simp at ha
    · obtain ⟨hds, hcode⟩ := hi.coding.code a ds ⟨_, hmem, ha⟩
      rw [code, hcode, Option.getD_some, code_toNat hds]
      exact ⟨hds, rfl⟩
  · rcases htree database table with hnil | hmem
    · rw [hnil]
      exact List.nodup_nil
    · have hord : (inorder _).Pairwise fun a b => s.2.code a < s.2.code b := hi.coding.ordered hmem
      refine List.pairwise_map.mpr (hord.imp fun hlt he => ?_)
      rw [he] at hlt
      exact UInt64.lt_irrefl _ hlt

/-- An insert to the left of a root. -/
theorem codes_fit_pair :
    ∃ s, Runs (Guarded (ofPartial (step Client.answer)) (Shallow Client.answer)) (Protocol.init, init)
        [.add 1 (.ofValue [0x31]) .calm, .add 2 (.ofValue [0x32]) .calm, .addContinue 3 0 .calm] s ∧
      ∀ x ∈ s.2.amounts, 0 ≤ x ∧ x ≤ 63 :=
  have hrun : Runs (Guarded (ofPartial (step Client.answer)) (Shallow Client.answer)) (Protocol.init, init)
      [.add 1 (.ofValue [0x31]) .calm, .add 2 (.ofValue [0x32]) .calm, .addContinue 3 0 .calm] _ :=
    .cons ⟨trivial, rfl⟩ (.cons ⟨trivial, rfl⟩ (.cons ⟨fun i side t _ ht _ _ => by
      obtain ⟨rfl, rfl, rfl⟩ : _ ∧ _ ∧ _ := by simpa using (Option.some.inj ht.symm)
      decide, rfl⟩ .nil))
  ⟨_, hrun, (codes_fit hrun).1⟩

/-! ## Inserts in rising order -/

/-- The values `a`, `aa`, `aaa` and so on. -/
def chainValue (n : Nat) : Str := List.replicate (n + 1) 0x61

theorem compare_replicate {i j : Nat} (h : i < j) (b : UInt8) :
    compare (List.replicate i b) (List.replicate j b) = .lt := by
  induction i generalizing j with
  | zero =>
    obtain ⟨j, rfl⟩ : ∃ m, j = m + 1 := ⟨j - 1, by omega⟩
    rfl
  | succ i ih =>
    obtain ⟨j, rfl⟩ : ∃ m, j = m + 1 := ⟨j - 1, by omega⟩
    rw [List.replicate_succ, List.replicate_succ, List.compare_cons_cons,
      show compare b b = .eq from Std.ReflCmp.compare_self]
    exact ih (by omega)

theorem answer_chain {j n : Nat} (h : j < n) :
    Client.answer (.ofValue (chainValue n)) (chainValue j) = -1 := by
  rw [Client.answer_eq (ofValue_one _), Client.compare, chainValue, chainValue, compare_replicate (by omega)]

/-- The tree of `n` of them: each to the left of the one before. -/
def chain (n : Nat) : Heap :=
  (List.range n).map fun i => ⟨chainValue i, if i + 1 < n then some (i + 1) else none, none⟩

theorem chain_get {n j : Nat} (h : j < n) :
    (chain n)[j]? = some ⟨chainValue j, if j + 1 < n then some (j + 1) else none, none⟩ := by
  simp [chain, h]

theorem chain_length (n : Nat) : (chain n).length = n := by simp [chain]

theorem chain_grow (n : Nat) :
    (chain (n + 1)).set n ((⟨chainValue n, none, none⟩ : BTreeNode).setChild .left (n + 1)) ++
      [BTreeNode.new (chainValue (n + 1))] = chain (n + 2) := by
  refine List.ext_getElem? fun i => ?_
  rcases Nat.lt_trichotomy i n with hi | rfl | hi
  · rw [List.getElem?_append_left (by simp [chain]; omega), List.getElem?_set_ne (by omega),
      chain_get (by omega), chain_get (by omega), if_pos (by omega), if_pos (by omega)]
  · rw [List.getElem?_append_left (by simp [chain]), List.getElem?_set_self (by simp [chain]),
      chain_get (by omega), if_pos (by omega)]
    rfl
  · by_cases hn : i = n + 1
    · subst hn
      rw [List.getElem?_append_right (by simp [chain]), chain_get (by omega), if_neg (by omega)]
      simp [chain, BTreeNode.new]
    · rw [List.getElem?_eq_none (by simp [chain]; omega), List.getElem?_eq_none (by simp [chain]; omega)]

/-- Nobody is on the way, and the table's tree is a chain. -/
structure Resting (p : Protocol) (n : Nat) : Prop where
  heap : p.server.heap = chain n
  tree : p.server.forest.getTree [0x64] [0x74] = some 0
  pending : p.pending = []

/-- The insert of value `n` stands at node `j` of the chain of the others. -/
structure Climbing (p : Protocol) (n j : Nat) : Prop where
  heap : p.server.heap = chain n
  tree : p.server.forest.getTree [0x64] [0x74] = some 0
  pending : ∃ i t, p.pending = [⟨i, .ofValue (chainValue n), chainValue j⟩] ∧
    p.server.holder.traverses[i]? = some (some t) ∧ t.current = j ∧ t.pathLength = j ∧
    t.requestAdd = some (.ofValue (chainValue n)) ∧ t.ciphertext = chainValue n

variable {p : Protocol} {d : Depth} {n j : Nat}

theorem step_watched {answer : RequestAdd → Ciphertext → Int32} {p' : Protocol} {a : Act}
    (h : Protocol.step answer p a = some p') : step answer (p, d) a = some (p', observe answer d p a p') := by
  rw [step, observed, h]
  rfl

theorem Resting.start (h : Resting p (n + 1)) (id : UInt32) :
    ∃ s, step Client.answer (p, d) (.add id (.ofValue (chainValue (n + 1))) .calm) = some s ∧
      Climbing s.1 (n + 1) 0 ∧ s.2.amounts = d.amounts ∧ s.1.used = p.used ++ [id] := by
  have hope : opeEntry (RequestAdd.ofValue (chainValue (n + 1))).row = some (opeEnding, chainValue (n + 1)) :=
    (ofValue_one _).entry
  have hnode : p.server.heap[0]? = some ⟨chainValue 0, if 0 + 1 < n + 1 then some 1 else none, none⟩ := by
    rw [h.heap, chain_get (by omega)]
  have htree : p.server.forest.getTree (RequestAdd.ofValue (chainValue (n + 1))).database
      (RequestAdd.ofValue (chainValue (n + 1))).table = some 0 := h.tree
  have hs : ∃ s' sent, onRequestAdd .calm p.server id (.ofValue (chainValue (n + 1))) = .ok (s', sent) := by
    refine onRequestAdd_ok _ _ fun tree ht => ?_
    rw [htree] at ht
    obtain rfl := Option.some.inj ht
    rw [h.heap, chain_length]
    exact Nat.succ_pos n
  obtain ⟨s', sent, hs⟩ := hs
  have hadded := onRequestAdd_added hs
  have hstep : Protocol.step Client.answer p (.add id (.ofValue (chainValue (n + 1))) .calm) =
      some (p.receive id (.ofValue (chainValue (n + 1))) s' sent.wrapper.response) := by
    simp only [Protocol.step, hs]
  refine ⟨_, step_watched hstep, ?_, ?_, Protocol.receive_used ..⟩
  · generalize sent.wrapper.response = response at hadded ⊢
    cases hadded with
    | plain hope' =>
      rw [hope] at hope'
      cases hope'
    | root _ ht =>
      rw [htree] at ht
      cases ht
    | started hope' ht hnode' =>
      rw [hope] at hope'
      rw [htree] at ht
      cases hope'
      cases ht
      rw [hnode] at hnode'
      cases hnode'
      exact ⟨h.heap, h.tree, id, _, by rw [Protocol.receive, h.pending]; rfl, BTreeTraverseHolder.update_self ..,
        rfl, rfl, rfl, rfl⟩
  · simp only [observe, hope, htree]

theorem Climbing.answered (h : Climbing p (n + 1) j) (hj : j ≤ n) (id : UInt32) :
    ∃ i t s' sent, p.pending = [⟨i, .ofValue (chainValue (n + 1)), chainValue j⟩] ∧
      call Client.answer p 0 = some (i, .left, t) ∧ t.current = j ∧ t.pathLength = j ∧
      t.requestAdd = some (.ofValue (chainValue (n + 1))) ∧ t.ciphertext = chainValue (n + 1) ∧
      p.server.holder.traverses[i]? = some (some t) ∧
      onRequestAddContinue .calm p.server id { initRequestId := i, compareResult := -1 } = .ok (s', sent) ∧
      Protocol.step Client.answer p (.addContinue id 0 .calm) =
        some ({ p with pending := [] }.receive id (.ofValue (chainValue (n + 1))) s' sent.wrapper.response) := by
  obtain ⟨i, t, hp, ht, hcur, hlen, hreq, hc⟩ := h.pending
  have hans := answer_chain (show j < n + 1 by omega)
  have hnode : p.server.heap[t.current]? = some ⟨chainValue j, if j + 1 < n + 1 then some (j + 1) else none, none⟩ := by
    rw [hcur, h.heap, chain_get (by omega)]
  obtain ⟨s', sent, hs⟩ : ∃ s' sent,
      onRequestAddContinue .calm p.server id { initRequestId := i, compareResult := -1 } = .ok (s', sent) := by
    refine onRequestAddContinue_ok _ _ ht hnode (fun side next hn => ?_) hreq
    rw [h.heap, chain_length]
    cases side with
    | left =>
      simp only [BTreeNode.child] at hn
      split at hn
      · next hlt =>
        obtain rfl := Option.some.inj hn
        exact hlt
      · cases hn
    | right => cases hn
  have hq : p.pending[0]? = some ⟨i, .ofValue (chainValue (n + 1)), chainValue j⟩ := by rw [hp]; rfl
  have hd : direction (Client.answer (.ofValue (chainValue (n + 1))) (chainValue j)) = some .left := by
    rw [hans]
    rfl
  have herase : p.pending.eraseIdx 0 = [] := by rw [hp]; rfl
  refine ⟨i, t, s', sent, hp, call_eq hq hd ht, hcur, hlen, hreq, hc, ht, hs, ?_⟩
  simp only [Protocol.step, hq, hans, hs, herase]

theorem Climbing.move (h : Climbing p (n + 1) j) (hj : j < n) (id : UInt32) :
    ∃ s, step Client.answer (p, d) (.addContinue id 0 .calm) = some s ∧
      Climbing s.1 (n + 1) (j + 1) ∧ s.2 = d ∧ s.1.used = p.used ++ [id] := by
  obtain ⟨i, t, s', sent, hp, hcall, hcur, hlen, hreq, hc, ht, hs, hstep⟩ := h.answered (by omega) id
  have hnode : p.server.heap[t.current]? = some ⟨chainValue j, some (j + 1), none⟩ := by
    rw [hcur, h.heap, chain_get (by omega), if_pos (by omega)]
  have hgo : t.goTo .left Env.calm.undef p.server.heap = some (p.server.heap,
      { t with path := pathStep .left t.path, pathLength := t.pathLength + 1, current := j + 1 }, true) := by
    simp only [BTreeTraverse.goTo, hnode, BTreeNode.child]
  have hcont := onRequestAddContinue_continued hs
  refine ⟨_, step_watched hstep, ?_, ?_, Protocol.receive_used ..⟩
  · generalize sent.wrapper.response = response at hcont ⊢
    cases hcont with
    | equal hd => cases hd
    | moved hd ht' hgo' hnode' =>
      cases hd
      rw [ht] at ht'
      cases ht'
      rw [hgo] at hgo'
      cases hgo'
      have hnext : (chain (n + 1))[j + 1]? = some _ := h.heap ▸ hnode'
      rw [chain_get (by omega)] at hnext
      cases hnext
      refine ⟨h.heap, h.tree, i, _, rfl, BTreeTraverseHolder.update_self .., rfl, ?_, hreq, hc⟩
      show t.pathLength + 1 = _
      rw [hlen]
      rfl
    | ended hd ht' hgo' _ _ =>
      cases hd
      rw [ht] at ht'
      cases ht'
      rw [hgo] at hgo'
      cases hgo'
  · simp only [observe, hcall, hgo]

theorem Climbing.finish (h : Climbing p (n + 1) n) (id : UInt32) :
    ∃ s, step Client.answer (p, d) (.addContinue id 0 .calm) = some s ∧
      Resting s.1 (n + 2) ∧ s.2.amounts = d.amounts ++ [63 - (n + 1 : Int)] ∧ s.1.used = p.used ++ [id] := by
  obtain ⟨i, t, s', sent, hp, hcall, hcur, hlen, hreq, hc, ht, hs, hstep⟩ := h.answered (Nat.le_refl n) id
  have hnode : p.server.heap[t.current]? = some ⟨chainValue n, none, none⟩ := by
    rw [hcur, h.heap, chain_get (by omega), if_neg (by omega)]
  have hgo : t.goTo .left Env.calm.undef p.server.heap = some (chain (n + 2),
      { t with
        path := pathEnd Env.calm.undef (pathStep .left t.path) (t.pathLength + 1)
        pathLength := t.pathLength + 1
        current := n + 1 }, false) := by
    simp only [BTreeTraverse.goTo, hnode, BTreeNode.child, hc]
    rw [hcur, h.heap, chain_length, chain_grow]
  have hcont := onRequestAddContinue_continued hs
  refine ⟨_, step_watched hstep, ?_, ?_, Protocol.receive_used ..⟩
  · generalize sent.wrapper.response = response at hcont ⊢
    cases hcont with
    | equal hd => cases hd
    | moved hd ht' hgo' hnode' =>
      cases hd
      rw [ht] at ht'
      cases ht'
      rw [hgo] at hgo'
      cases hgo'
    | ended hd ht' hgo' _ _ =>
      cases hd
      rw [ht] at ht'
      cases ht'
      rw [hgo] at hgo'
      cases hgo'
      exact ⟨rfl, h.tree, rfl⟩
  · simp only [observe, hcall, hgo, hlen]

/-- Runs of executors whose message ids are all different. -/
abbrev FreshRuns := Runs (Guarded (ofPartial (step Client.answer)) fun s a => Protocol.Fresh s.1 a)

/-- All ids so far are below `c`. -/
def Below (used : List UInt32) (c : Nat) : Prop := ∀ i ∈ used, i.toNat < c

theorem Below.fresh {used : List UInt32} {c : Nat} (h : Below used c) (hc : c < 2 ^ 32) : UInt32.ofNat c ∉ used := by
  intro hm
  have := h _ hm
  rw [UInt32.toNat_ofNat', Nat.mod_eq_of_lt hc] at this
  omega

theorem Below.snoc {used : List UInt32} {c : Nat} (h : Below used c) (hc : c < 2 ^ 32) :
    Below (used ++ [UInt32.ofNat c]) (c + 1) := by
  intro i hi
  rcases List.mem_append.mp hi with hi | hi
  · exact Nat.lt_succ_of_lt (h i hi)
  · rw [List.mem_singleton.mp hi, UInt32.toNat_ofNat', Nat.mod_eq_of_lt hc]
    omega

/-- From node `j` of the chain down to its end, `m` nodes below. -/
theorem Climbing.run (m : Nat) {c : Nat} (h : Climbing p (n + 1) j) (hm : j + m = n) (hb : Below p.used c)
    (hc : c + m + 1 ≤ 2 ^ 32) :
    ∃ as s, FreshRuns (p, d) as s ∧ Resting s.1 (n + 2) ∧ s.2.amounts = d.amounts ++ [63 - (n + 1 : Int)] ∧
      Below s.1.used (c + m + 1) := by
  induction m generalizing p d j c with
  | zero =>
    obtain rfl : j = n := hm
    obtain ⟨s, hs, hrest, hamounts, hused⟩ := h.finish (d := d) (UInt32.ofNat c)
    refine ⟨[.addContinue (UInt32.ofNat c) 0 .calm], s, .one ⟨hb.fresh (by omega), hs⟩, hrest, hamounts, ?_⟩
    rw [hused]
    exact hb.snoc (by omega)
  | succ m ih =>
    obtain ⟨s, hs, hclimb, hd, hused⟩ := h.move (d := d) (by omega) (UInt32.ofNat c)
    have hb' : Below s.1.used (c + 1) := by
      rw [hused]
      exact hb.snoc (by omega)
    obtain ⟨as, s', hrun, hrest, hamounts, hbelow⟩ := ih (d := s.2) hclimb (by omega) hb' (by omega)
    refine ⟨.addContinue (UInt32.ofNat c) 0 .calm :: as, s', .cons ⟨hb.fresh (by omega), hs⟩ hrun, hrest,
      by rw [hamounts, hd], ?_⟩
    rw [show c + (m + 1) + 1 = c + 1 + m + 1 by omega]
    exact hbelow

/-- **Inserts in rising order make a chain**: the node of the last of `n + 1`
is created by a shift by `63 - n`. -/
theorem rising_run (n : Nat) (hn : (n + 1) * (n + 1) ≤ 2 ^ 32) :
    ∃ as s, FreshRuns (Protocol.init, init) as s ∧ Resting s.1 (n + 1) ∧ Below s.1.used ((n + 1) * (n + 1)) ∧
      (1 ≤ n → 63 - (n : Int) ∈ s.2.amounts) := by
  induction n with
  | zero =>
    refine ⟨[.add 0 (.ofValue (chainValue 0)) .calm], _, .one ⟨by decide, rfl⟩, ⟨rfl, rfl, rfl⟩, ?_, by omega⟩
    intro i hi
    obtain rfl := List.mem_singleton.mp hi
    decide
  | succ n ih =>
    have hsq : (n + 1 + 1) * (n + 1 + 1) = (n + 1) * (n + 1) + 2 * n + 3 := by
      simp only [Nat.mul_add, Nat.add_mul]
      omega
    obtain ⟨as, s, hrun, hrest, hb, -⟩ := ih (by omega)
    obtain ⟨s₁, hs₁, hclimb, -, hused⟩ := hrest.start (d := s.2) (UInt32.ofNat ((n + 1) * (n + 1)))
    have hb' : Below s₁.1.used ((n + 1) * (n + 1) + 1) := by
      rw [hused]
      exact hb.snoc (by omega)
    obtain ⟨as', s', hrun', hrest', hamounts, hbelow⟩ := hclimb.run n (d := s₁.2) (by omega) hb' (by omega)
    refine ⟨as ++ .add (UInt32.ofNat ((n + 1) * (n + 1))) (.ofValue (chainValue (n + 1))) .calm :: as', s',
      hrun.append (.cons ⟨hb.fresh (by omega), hs₁⟩ hrun'), hrest', fun i hi => ?_, fun _ => ?_⟩
    · have := hbelow i hi
      omega
    · rw [hamounts]
      simp

/-- The sixty-fifth of the values `a`, `aa`, `aaa` and so on. -/
theorem codes_run_out : ¬ ∀ as s, FreshRuns (Protocol.init, init) as s → ∀ x ∈ s.2.amounts, 0 ≤ x ∧ x ≤ 63 := by
  intro hall
  obtain ⟨as, s, hrun, -, -, hmem⟩ := rising_run 64 (by omega)
  exact absurd (hall as s hrun _ (hmem (by omega))).1 (by decide)

end Depth

end Zql
