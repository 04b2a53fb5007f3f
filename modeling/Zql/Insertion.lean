/-
Inserts that take turns end up as if they had been made one after the
other: every step keeps the invariant of `Protocol`, and so in every state
of a run a table's tree is the textbook insertion of the values answered so
far, in the order of the answers.

The proof follows the handlers: an answer that is not a traversal's is the
insertion into the tree as it is at that moment, because the walk from the
root to where the traversal stands is the walk the insertion would make
now (`insert_eq_graft`, `insert_eq_self`).
-/
import Zql.Protocol

namespace Zql

open Dyadic SearchTree Transition

namespace Protocol

variable {answer : RequestAdd → Ciphertext → Int32} {seen : Prop}

/-- The server after keeps the trees, their nodes and the values in them. -/
structure Later (s s' : Server) (ts ts' : List (BinaryTree Addr)) : Prop where
  trees : Extends ts ts'
  length : s.heap.length ≤ s'.heap.length
  value : ∀ a < s.heap.length, s'.heap.value a = s.heap.value a

theorem Later.same {s s' : Server} {ts : List (BinaryTree Addr)} (h : s'.heap = s.heap) : Later s s' ts ts :=
  ⟨.of_subset (List.Subset.refl _), by rw [h], fun _ _ => by rw [h]⟩

theorem Later.grown {s s' : Server} {ts ts' : List (BinaryTree Addr)} {c : Ciphertext} (he : Extends ts ts')
    (hg : Grown s.heap s'.heap c) : Later s s' ts ts' :=
  ⟨he, by rw [hg.length]; omega, fun _ ha => hg.value_old ha⟩

/-! ## Adding -/

theorem Valid.add_plain {p : Protocol} {ts : List (BinaryTree Addr)} {request : RequestAdd} (hi : Valid answer seen p ts)
    (hvalue : request.value? = none) (id : UInt32) (database : Database) :
    Valid answer seen (p.receive id request { p.server with database } .addOk) ts := by
  refine ⟨hi.forest, hi.roots, hi.distinct, fun q hq => ?_, hi.ids, fun hseen key => ?_⟩
  · obtain ⟨t, u, ds, hw⟩ := hi.waiting q hq
    exact ⟨t, u, ds, hw.carry rfl rfl hw.tree (fun _ _ h => h) (fun h => h) rfl⟩
  · show values p.server key = Protocol.textbook answer key (p.answered ++ [request])
    rw [textbook_snoc, insertRequest_of_ne fun _ => hvalue, hi.textbook hseen]

theorem Waiting.tree_ne {s : Server} {ts : List (BinaryTree Addr)} {q : Pending} {t : BTreeTraverse}
    {u : BinaryTree Addr} {ds : Position} (hw : Waiting answer seen s ts q t u ds) {key : Str}
    (hkey : s.forest.forest[key]? = none) : q.request.tree ≠ key := by
  intro hk
  have hroot := hw.root
  have hsits := hw.sits
  rw [hk, hkey] at hroot
  rw [root?_eq_none.mp hroot.symm] at hsits
  simp at hsits

theorem Valid.add_root {p : Protocol} {ts : List (BinaryTree Addr)} {request : RequestAdd} (hi : Valid answer seen p ts)
    {opeValue : Ciphertext} (hvalue : request.value? = some opeValue)
    (hkey : p.server.forest.forest[request.tree]? = none) (id : UInt32) (database : Database) :
    Valid answer seen
      (p.receive id request
        { p.server with
          heap := p.server.heap ++ [BTreeNode.new opeValue]
          forest := ⟨p.server.forest.forest.insert request.tree p.server.heap.length⟩
          database } .addOk)
      (leaf p.server.heap.length :: ts) := by
  have hg := grown_create p.server.heap opeValue
  have hnew : ∀ k : Str, p.server.forest.forest[k]? ≠ some p.server.heap.length := fun k hk =>
    Nat.lt_irrefl _ (hi.forest.lt_length (hi.roots k _ hk))
  refine ⟨hi.forest.create opeValue, at_root_insert hi.roots _ _, distinct_insert hnew hi.distinct _,
    fun q hq => ?_, hi.ids, fun hseen key => ?_⟩
  · obtain ⟨t, u, ds, hw⟩ := hi.waiting q hq
    have hmap : u.map (p.server.heap ++ [BTreeNode.new opeValue]).value = u.map p.server.heap.value :=
      map_congr fun a ha => hg.value_old ((hi.forest.laid u hw.tree).lt_length ha)
    refine ⟨t, u, ds, hw.carry rfl ?_ (List.mem_cons_of_mem _ hw.tree) (fun _ _ h => h) ?_
      (hg.value_old (hi.forest.lt_length ⟨u, hw.tree, hw.sits⟩))⟩
    · exact (getElem?_insert_if ..).trans (if_neg (hw.tree_ne hkey))
    · intro hpath
      show OnPath _ (u.map (p.server.heap ++ [BTreeNode.new opeValue]).value) ds
      rw [hmap]
      exact hpath
  · show values _ key = Protocol.textbook answer key (p.answered ++ [request])
    rw [hi.values_create request.tree opeValue rfl rfl key, textbook_snoc, insertRequest, hvalue]
    by_cases hk : key = request.tree
    · rw [if_pos hk, ← hi.textbook hseen key, hk, values_none hkey]
      simp only [if_true]
      rfl
    · rw [if_neg hk, hi.textbook hseen]
      simp only [if_neg (Ne.symm hk)]

/-- A traversal that starts is an insert on its way, at the root. -/
theorem Valid.add_started {p : Protocol} {ts : List (BinaryTree Addr)} {id : UInt32} {request : RequestAdd}
    {opeValue c : Ciphertext} {tree : Addr} {node : BTreeNode} (hi : Valid answer seen p ts)
    (hap : ∀ q ∈ p.pending, q.initRequestId ≠ id) (hvalue : request.value? = some opeValue)
    (hkey : p.server.forest.forest[request.tree]? = some tree) (hnode : p.server.heap[tree]? = some node)
    (hsize : c.length = node.ciphertext.length) (hc : seen → c = node.ciphertext) :
    Valid answer seen
      (p.receive id request
        { p.server with
          holder := p.server.holder.update id { BTreeTraverse.new tree opeValue with requestAdd := some request } }
        (.addTraverse { initRequestId := id, ciphertext := c })) ts := by
  have hvalue' : node.ciphertext = p.server.heap.value tree := by
    rw [Heap.value, hnode]
    rfl
  refine ⟨hi.forest, hi.roots, hi.distinct, fun q hq => ?_, ?_, hi.textbook⟩
  · rcases List.mem_append.mp hq with hq | hq
    · obtain ⟨t, u, ds, hw⟩ := hi.waiting q hq
      refine ⟨t, u, ds, hw.carry ?_ rfl hw.tree (fun _ _ h => h) (fun h => h) rfl⟩
      exact BTreeTraverseHolder.update_of_ne (hap q hq)
    · obtain rfl := List.mem_singleton.mp hq
      obtain ⟨u, hu, hl⟩ := hi.roots _ tree hkey
      refine ⟨{ BTreeTraverse.new tree opeValue with requestAdd := some request }, u, [], ?_⟩
      exact {
        stored := BTreeTraverseHolder.update_self ..
        request := rfl
        value := hvalue
        tree := hu
        root := hkey.trans hl.symm
        sits := hl
        path := rfl
        length := rfl
        size := hsize.trans (congrArg List.length hvalue')
        onPath := fun _ => onPath_root (x := p.server.heap.value tree) (by
          show label? (u.map p.server.heap.value) [] = _
          rw [label?_map, hl]
          rfl)
        shown := fun hseen => (hc hseen).trans hvalue' }
  · show ((p.pending ++ [_]).map _).Nodup
    rw [List.map_append, List.nodup_append]
    refine ⟨hi.ids, by simp, fun i hm j hj => ?_⟩
    obtain ⟨q, hq, rfl⟩ := List.mem_map.mp hm
    simp only [List.map_cons, List.map_nil, List.mem_singleton] at hj
    rw [hj]
    exact hap q hq

/-- **Handling a `RequestAdd` keeps the invariant.** -/
theorem Valid.add {p : Protocol} {ts : List (BinaryTree Addr)} {id : UInt32} {request : RequestAdd} {env : Env}
    {s' : Server} {response : Response} {c : Ciphertext} (hi : Valid answer seen p ts)
    (hap : ∀ q ∈ p.pending, q.initRequestId ≠ id) (h : Added env p.server id request s' response)
    (hc : Shown seen response c) :
    ∃ ts', Valid answer seen (p.receive id request s' (response.showing c)) ts' ∧ Later p.server s' ts ts' := by
  cases h with
  | plain hope =>
    have hvalue : request.value? = none := by rw [RequestAdd.value?, hope]; rfl
    exact ⟨ts, hi.add_plain hvalue id _, .same rfl⟩
  | @root opeField opeValue hope htree =>
    have hvalue : request.value? = some opeValue := by rw [RequestAdd.value?, hope]; rfl
    have he : Extends ts (leaf p.server.heap.length :: ts) := .of_subset (List.subset_cons_self _ _)
    exact ⟨_, hi.add_root hvalue htree id _, .grown he (grown_create _ opeValue)⟩
  | @started opeField opeValue tree node hope htree hnode =>
    have hvalue : request.value? = some opeValue := by rw [RequestAdd.value?, hope]; rfl
    obtain ⟨hsize, hsame⟩ := hc _ rfl
    exact ⟨ts, hi.add_started hap hvalue htree hnode hsize hsame, .same rfl⟩

/-! ## Continuing -/

theorem Valid.others_ne {p : Protocol} {ts : List (BinaryTree Addr)} {k : Nat} {q : Pending}
    (hi : Valid answer seen p ts) (hq : p.pending[k]? = some q) {q' : Pending} (hq' : q' ∈ p.pending.eraseIdx k) :
    q'.initRequestId ≠ q.initRequestId := by
  obtain ⟨hlt, rfl⟩ := List.getElem?_eq_some_iff.mp hq
  have hperm := (List.getElem_cons_eraseIdx_perm hlt).map (·.initRequestId)
  have hn := hperm.nodup_iff.mpr hi.ids
  rw [List.map_cons, List.nodup_cons] at hn
  intro he
  exact hn.1 (List.mem_map.mpr ⟨q', hq', he⟩)

theorem Valid.others_nodup {p : Protocol} {ts : List (BinaryTree Addr)} (hi : Valid answer seen p ts) (k : Nat) :
    ((p.pending.eraseIdx k).map (·.initRequestId)).Nodup :=
  hi.ids.sublist ((List.eraseIdx_sublist _ _).map _)

theorem Waiting.label {s : Server} {ts : List (BinaryTree Addr)} {q : Pending} {t : BTreeTraverse}
    {u : BinaryTree Addr} {ds : Position} (hw : Waiting answer seen s ts q t u ds) :
    label? (u.map s.heap.value) ds = some (s.heap.value t.current) := by
  rw [label?_map, hw.sits]
  rfl

theorem Waiting.dir_eq {s : Server} {ts : List (BinaryTree Addr)} {q : Pending} {t : BTreeTraverse}
    {u : BinaryTree Addr} {ds : Position} (hw : Waiting answer seen s ts q t u ds) (hseen : seen) :
    dir answer q.request (s.heap.value t.current) = direction (answer q.request q.ciphertext) := by
  rw [dir, hw.shown hseen]

theorem Valid.textbook_eq {p : Protocol} {ts : List (BinaryTree Addr)} {q : Pending} {t : BTreeTraverse}
    {u : BinaryTree Addr} {ds : Position} (hi : Valid answer seen p ts) (hw : Waiting answer seen p.server ts q t u ds)
    (hseen : seen) : Protocol.textbook answer q.request.tree p.answered = u.map p.server.heap.value := by
  rw [← hi.textbook hseen, values_eq hi.forest hw.tree hw.root]

theorem Valid.drop {p : Protocol} {ts : List (BinaryTree Addr)} {k : Nat} (hi : Valid answer seen p ts) (i : UInt32) :
    Valid answer seen { p with
      server := { p.server with holder := (p.server.holder.getTraverse i).1 }
      pending := p.pending.eraseIdx k } ts := by
  refine ⟨hi.forest, hi.roots, hi.distinct, fun q' hq' => ?_, hi.others_nodup k, hi.textbook⟩
  obtain ⟨t', u', ds', hw'⟩ := hi.waiting q' (List.mem_of_mem_eraseIdx hq')
  refine ⟨t', u', ds', hw'.carry ?_ rfl hw'.tree (fun _ _ h => h) (fun h => h) rfl⟩
  rw [hw'.stored]
  exact (BTreeTraverseHolder.getTraverse_stored ..).mpr hw'.stored

/-- An insert whose value is equal to a node's changes no tree, and the
textbook insertion of it none either. -/
theorem Valid.equal {p : Protocol} {ts : List (BinaryTree Addr)} {k : Nat} {q : Pending} {id : UInt32}
    (hi : Valid answer seen p ts) (hq : p.pending[k]? = some q) (hd : direction (answer q.request q.ciphertext) = none) :
    Valid answer seen ({ p with pending := p.pending.eraseIdx k }.receive id q.request
      { p.server with holder := (p.server.holder.getTraverse q.initRequestId).1 } .addOk) ts := by
  obtain ⟨t, u, ds, hw⟩ := hi.waiting q (List.mem_of_getElem? hq)
  have hdrop : Valid answer seen _ ts := @Valid.drop _ _ p ts k hi q.initRequestId
  refine ⟨hdrop.forest, hdrop.roots, hdrop.distinct, hdrop.waiting, hdrop.ids, fun hseen key => ?_⟩
  show values p.server key = Protocol.textbook answer key (p.answered ++ [q.request])
  rw [textbook_snoc, hi.textbook hseen, insertRequest, hw.value]
  by_cases hk : q.request.tree = key
  · subst hk
    simp only [if_true, hi.textbook_eq hw hseen]
    rw [insert_eq_self (hw.onPath hseen) hw.label ((hw.dir_eq hseen).trans hd)]
  · simp only [if_neg hk]

/-- A step to a child keeps the insert on the walk of its value. -/
theorem Waiting.moved {s s' : Server} {ts : List (BinaryTree Addr)} {q : Pending} {t : BTreeTraverse}
    {u : BinaryTree Addr} {ds : Position} {side : Side} {next : Addr} {node : BTreeNode} {c : Ciphertext}
    (hw : Waiting answer seen s ts q t u ds) (hd : direction (answer q.request q.ciphertext) = some side)
    (hnext : label? u (ds ++ [side]) = some next) (hnode : s.heap[next]? = some node) (hheap : s'.heap = s.heap)
    (hforest : s'.forest = s.forest) (hsize : c.length = node.ciphertext.length)
    (hc : seen → c = node.ciphertext)
    (hstored : s'.holder.traverses[q.initRequestId]? = some (some
      { t with path := pathStep side t.path, pathLength := t.pathLength + 1, current := next })) :
    Waiting answer seen s' ts ⟨q.initRequestId, q.request, c⟩
      { t with path := pathStep side t.path, pathLength := t.pathLength + 1, current := next } u (ds ++ [side]) where
  stored := hstored
  request := hw.request
  value := hw.value
  tree := hw.tree
  root := by rw [hforest]; exact hw.root
  sits := hnext
  path := by
    show pathStep side t.path = _
    rw [hw.path, pathStep_bits]
  length := by
    show t.pathLength + 1 = _
    rw [hw.length, List.length_append]
    rfl
  size := by
    show c.length = (s'.heap.value next).length
    rw [hheap, Heap.value, hnode, hsize]
    rfl
  onPath := fun hseen => by
    have hlabel : label? (u.map s.heap.value) (ds ++ [side]) = some (s.heap.value next) := by
      rw [label?_map, hnext]
      rfl
    rw [hheap]
    exact (hw.onPath hseen).snoc hw.label ((hw.dir_eq hseen).trans hd) hlabel
  shown := fun hseen => by
    show c = s'.heap.value next
    rw [hheap, Heap.value, hnode, hc hseen]
    rfl

theorem Valid.moved {p : Protocol} {ts : List (BinaryTree Addr)} {k : Nat} {q : Pending} {id : UInt32}
    {s' : Server} {t : BTreeTraverse} {u : BinaryTree Addr} {ds : Position} {side : Side} {next : Addr}
    {node : BTreeNode} {c : Ciphertext} (hi : Valid answer seen p ts) (hq : p.pending[k]? = some q)
    (hw : Waiting answer seen p.server ts q t u ds) (hd : direction (answer q.request q.ciphertext) = some side)
    (hnext : label? u (ds ++ [side]) = some next) (hnode : p.server.heap[next]? = some node)
    (hheap : s'.heap = p.server.heap) (hforest : s'.forest = p.server.forest)
    (hholder : s'.holder = p.server.holder.update q.initRequestId
      { t with path := pathStep side t.path, pathLength := t.pathLength + 1, current := next })
    (hsize : c.length = node.ciphertext.length) (hc : seen → c = node.ciphertext) :
    Valid answer seen ({ p with pending := p.pending.eraseIdx k }.receive id q.request s'
      (.addTraverse { initRequestId := q.initRequestId, ciphertext := c })) ts := by
  refine ⟨?_, ?_, ?_, fun q' hq' => ?_, ?_, fun hseen key => ?_⟩
  · show Forest s'.heap ts
    rw [hheap]
    exact hi.forest
  · intro key root hr
    exact hi.roots key root (hforest ▸ hr)
  · intro key key' root hr hr'
    exact hi.distinct key key' root (hforest ▸ hr) (hforest ▸ hr')
  · rcases List.mem_append.mp hq' with hq' | hq'
    · obtain ⟨t', u', ds', hw'⟩ := hi.waiting q' (List.mem_of_mem_eraseIdx hq')
      refine ⟨t', u', ds', hw'.carry ?_ (by rw [← hforest]; rfl) hw'.tree (fun _ _ h => h) ?_ (by rw [← hheap]; rfl)⟩
      · show s'.holder.traverses[q'.initRequestId]? = _
        rw [hholder, BTreeTraverseHolder.update_of_ne (hi.others_ne hq hq')]
      · intro hpath
        show OnPath _ (u'.map s'.heap.value) ds'
        rw [hheap]
        exact hpath
    · obtain rfl := List.mem_singleton.mp hq'
      have hstored := BTreeTraverseHolder.update_self p.server.holder q.initRequestId
        { t with path := pathStep side t.path, pathLength := t.pathLength + 1, current := next }
      rw [← hholder] at hstored
      exact ⟨_, u, ds ++ [side], hw.moved hd hnext hnode hheap hforest hsize hc hstored⟩
  · show ((p.pending.eraseIdx k ++ [_]).map _).Nodup
    rw [List.map_append, List.nodup_append]
    refine ⟨hi.others_nodup k, by simp, fun i hm j hj => ?_⟩
    obtain ⟨q', hq', rfl⟩ := List.mem_map.mp hm
    simp only [List.map_cons, List.map_nil, List.mem_singleton] at hj
    rw [hj]
    exact hi.others_ne hq hq'
  · show values s' key = Protocol.textbook answer key p.answered
    rw [← hi.textbook hseen, values, values, hheap, hforest]

theorem Waiting.insert_eq {s : Server} {ts : List (BinaryTree Addr)} {q : Pending} {t : BTreeTraverse}
    {u : BinaryTree Addr} {ds : Position} {side : Side} (hw : Waiting answer seen s ts q t u ds) (hseen : seen)
    (hd : direction (answer q.request q.ciphertext) = some side) (hfree : label? u (ds ++ [side]) = none) :
    insertRequest answer q.request.tree (u.map s.heap.value) q.request =
      SearchTree.graft t.ciphertext (u.map s.heap.value) (ds ++ [side]) := by
  have hopen : subtree (u.map s.heap.value) (ds ++ [side]) = .nil := by
    rw [← label?_eq_none, label?_map, hfree]
    rfl
  simp only [insertRequest, hw.value, if_true]
  exact insert_eq_graft (hw.onPath hseen) hw.label ((hw.dir_eq hseen).trans hd) hopen

/-- A leaf grown at the end of a walk is the textbook insertion. -/
theorem Valid.ended {p : Protocol} {pre post : List (BinaryTree Addr)} {k : Nat} {q : Pending} {id : UInt32}
    {s' : Server} {t : BTreeTraverse} {u : BinaryTree Addr} {ds : Position} {side : Side}
    (hi : Valid answer seen p (pre ++ u :: post)) (hw : Waiting answer seen p.server (pre ++ u :: post) q t u ds)
    (hd : direction (answer q.request q.ciphertext) = some side) (hfree : label? u (ds ++ [side]) = none)
    (hf' : Forest s'.heap (pre ++ SearchTree.graft p.server.heap.length u (ds ++ [side]) :: post))
    (hg : Grown p.server.heap s'.heap t.ciphertext) (hforest : s'.forest = p.server.forest)
    (hholder : ∀ q' ∈ p.pending.eraseIdx k, s'.holder.traverses[q'.initRequestId]? =
      p.server.holder.traverses[q'.initRequestId]?) :
    Valid answer seen ({ p with pending := p.pending.eraseIdx k }.receive id q.request s' .addOk)
      (pre ++ SearchTree.graft p.server.heap.length u (ds ++ [side]) :: post) := by
  have hslot : Slot u (ds ++ [side]) := slot_of_open hw.sits (label?_eq_none.mp hfree)
  have hne : root? u ≠ none := by
    intro hnil
    have hsits := hw.sits
    rw [root?_eq_none.mp hnil] at hsits
    simp at hsits
  refine ⟨hf', fun key root hr => ?_, fun key key' root hr hr' => ?_, fun q' hq' => ?_, hi.others_nodup k,
    fun hseen key => ?_⟩
  · exact (hi.roots key root (hforest ▸ hr)).extends (Extends.graft hslot _)
  · exact hi.distinct key key' root (hforest ▸ hr) (hforest ▸ hr')
  · obtain ⟨t', u', ds', hw'⟩ := hi.waiting q' (List.mem_of_mem_eraseIdx hq')
    obtain ⟨v, hv⟩ := hw'.grow hi.forest hslot hg (hholder q' hq') (by rw [hforest])
    exact ⟨t', v, ds', hv⟩
  · show values s' key = Protocol.textbook answer key (p.answered ++ [q.request])
    rw [hi.values_grow hf' hg hforest hne hw.root key, textbook_snoc]
    by_cases hk : key = q.request.tree
    · rw [if_pos hk, hk, hi.textbook_eq hw hseen, hw.insert_eq hseen hd hfree, values_eq hi.forest hw.tree hw.root]
    · rw [if_neg hk, hi.textbook hseen, insertRequest_of_ne fun h => absurd h.symm hk]

/-- **Handling a `RequestAddContinue` keeps the invariant.** -/
theorem Valid.addContinue {p : Protocol} {ts : List (BinaryTree Addr)} {k : Nat} {q : Pending} {id : UInt32}
    {env : Env} {s' : Server} {response : Response} {c : Ciphertext} (hi : Valid answer seen p ts)
    (hq : p.pending[k]? = some q) (hap : ∀ q' ∈ p.pending.eraseIdx k, q'.initRequestId ≠ id)
    (h : Continued env p.server id
      { initRequestId := q.initRequestId, compareResult := answer q.request q.ciphertext } s' response)
    (hc : Shown seen response c) :
    ∃ ts', Valid answer seen
        ({ p with pending := p.pending.eraseIdx k }.receive id q.request s' (response.showing c)) ts' ∧
      Later p.server s' ts ts' := by
  obtain ⟨t, u, ds, hw⟩ := hi.waiting q (List.mem_of_getElem? hq)
  obtain ⟨node', hnode', hchild⟩ := (hi.forest.laid u hw.tree).child hw.sits
  cases h with
  | equal hd => exact ⟨ts, hi.equal hq hd, .same rfl⟩
  | @moved side t₀ t' heap node hd hstored hgo hnode =>
    obtain rfl : t₀ = t := Option.some.inj (Option.some.inj (hstored.symm.trans hw.stored))
    obtain ⟨rfl, node₀, next, hnode₀, hnext, rfl⟩ := BTreeTraverse.goTo_moved hgo
    obtain rfl : node₀ = node' := Option.some.inj (hnode₀.symm.trans hnode')
    obtain ⟨hsize, hsame⟩ := hc _ rfl
    exact ⟨ts, hi.moved hq hw hd ((hchild side).symm.trans hnext) hnode rfl rfl rfl hsize hsame, .same rfl⟩
  | @ended side t₀ t' heap requestAdd row hd hstored hgo hr hrow =>
    obtain rfl : t₀ = t := Option.some.inj (Option.some.inj (hstored.symm.trans hw.stored))
    obtain ⟨node₀, hnode₀, hnext, rfl, rfl⟩ := BTreeTraverse.goTo_ended hgo
    obtain rfl : node₀ = node' := Option.some.inj (hnode₀.symm.trans hnode')
    have hfree : label? u (ds ++ [side]) = none := (hchild side).symm.trans hnext
    have hslot : Slot u (ds ++ [side]) := slot_of_open hw.sits (label?_eq_none.mp hfree)
    have hg := grown_hang hnode₀ side p.server.heap.length t₀.ciphertext
    obtain ⟨pre, post, rfl⟩ := List.append_of_mem hw.tree
    refine ⟨_, hi.ended hw hd hfree (hi.forest.grow hw.sits hnode₀ hfree) hg rfl fun q' hq' => ?_,
      .grown (Extends.graft hslot _) hg⟩
    show ((p.server.holder.update q.initRequestId _).removeTraverse id).traverses[q'.initRequestId]? = _
    rw [BTreeTraverseHolder.removeTraverse_of_ne (hap q' hq'),
      BTreeTraverseHolder.update_of_ne (hi.others_ne hq hq')]

/-! ## Runs -/

theorem Fresh.apart {p : Protocol} {a : Act} (hused : ∀ q ∈ p.pending, q.initRequestId ∈ p.used) (h : Fresh p a) :
    Apart p a := by
  intro q hq he
  refine h (he ▸ hused q ?_)
  cases a with
  | add _ _ _ => exact hq
  | addContinue _ k _ => exact List.mem_of_mem_eraseIdx hq

/-- **The invariant, step by step.** -/
theorem Valid.step {p p' : Protocol} {ts : List (BinaryTree Addr)} {a : Act} (hi : Valid answer seen p ts)
    (hap : Apart p a) (h : Takes answer seen p a p') :
    ∃ ts', Valid answer seen p' ts' ∧ Later p.server p'.server ts ts' := by
  cases a with
  | add id request env =>
    obtain ⟨server, response, c, hadded, hc, rfl⟩ := h
    obtain ⟨ts', hi', hl⟩ := hi.add hap hadded hc
    refine ⟨ts', hi', ?_⟩
    rw [receive_server]
    exact hl
  | addContinue id k env =>
    obtain ⟨q, server, response, c, hq, hcont, hc, rfl⟩ := h
    obtain ⟨ts', hi', hl⟩ := hi.addContinue hq hap hcont hc
    refine ⟨ts', hi', ?_⟩
    rw [receive_server]
    exact hl

theorem Valid.runs {p₀ p : Protocol} {as : List Act} (h : Runs (Guarded (ofPartial (Protocol.step answer)) Apart) p₀ as p)
    (h₀ : ∃ ts, Valid answer True p₀ ts) : ∃ ts, Valid answer True p ts :=
  h.invariant (I := fun p => ∃ ts, Valid answer True p ts)
    (fun _ _ _ ⟨_, hi⟩ hs => (hi.step hs.1 (takes_of_step hs.2)).imp fun _ h => h.1) h₀

theorem used_step {p p' : Protocol} {a : Act} (hi : ∀ q ∈ p.pending, q.initRequestId ∈ p.used)
    (h : Takes answer seen p a p') : ∀ q ∈ p'.pending, q.initRequestId ∈ p'.used := by
  cases a with
  | add id request env =>
    obtain ⟨server, response, c, hadded, -, rfl⟩ := h
    intro q hq
    rw [receive_used, List.mem_append]
    cases hadded with
    | plain _ => exact .inl (hi q hq)
    | root _ _ => exact .inl (hi q hq)
    | started _ _ _ =>
      rcases List.mem_append.mp hq with hq | hq
      · exact .inl (hi q hq)
      · obtain rfl := List.mem_singleton.mp hq
        exact .inr (List.mem_singleton.mpr rfl)
  | addContinue id k env =>
    obtain ⟨q₀, server, response, c, hq₀, hcont, -, rfl⟩ := h
    intro q hq
    rw [receive_used, List.mem_append]
    have hold : q ∈ p.pending.eraseIdx k → q.initRequestId ∈ p.used := fun hq => hi q (List.mem_of_mem_eraseIdx hq)
    cases hcont with
    | equal _ => exact .inl (hold hq)
    | moved _ _ _ _ =>
      rcases List.mem_append.mp hq with hq | hq
      · exact .inl (hold hq)
      · obtain rfl := List.mem_singleton.mp hq
        exact .inl (hi q₀ (List.mem_of_getElem? hq₀))
    | ended _ _ _ _ _ => exact .inl (hold hq)

theorem apart_of_fresh {p₀ p : Protocol} {as : List Act}
    (h : Runs (Guarded (ofPartial (Protocol.step answer)) Fresh) p₀ as p)
    (h₀ : ∀ q ∈ p₀.pending, q.initRequestId ∈ p₀.used) :
    Runs (Guarded (ofPartial (Protocol.step answer)) Apart) p₀ as p ∧ ∀ q ∈ p.pending, q.initRequestId ∈ p.used := by
  induction h with
  | nil => exact ⟨.nil, h₀⟩
  | snoc _ hs ih => exact ⟨ih.1.snoc ⟨hs.1.apart ih.2, hs.2⟩, used_step ih.2 (takes_of_step hs.2)⟩

theorem Valid.serves {p : Protocol} {ts : List (BinaryTree Addr)} (hi : Valid answer seen p ts) :
    (∀ env id request, ∃ s' sent, onRequestAdd env p.server id request = .ok (s', sent)) ∧
    ∀ env id, ∀ q ∈ p.pending, ∀ compareResult, ∃ s' sent,
      onRequestAddContinue env p.server id ⟨q.initRequestId, compareResult⟩ = .ok (s', sent) := by
  constructor
  · exact fun env id request => onRequestAdd_ok _ _ fun tree htree => hi.forest.lt_length (hi.roots _ tree htree)
  · intro env id q hq compareResult
    obtain ⟨t, u, ds, hw⟩ := hi.waiting q hq
    obtain ⟨node, hnode, hchild⟩ := (hi.forest.laid u hw.tree).child hw.sits
    have hnext : ∀ side next, node.child side = some next → next < p.server.heap.length := fun side next hc =>
      hi.forest.lt_length ⟨u, hw.tree, by rw [← hchild, hc]⟩
    exact onRequestAddContinue_ok _ _ hw.stored hnode hnext hw.request

theorem Valid.progress {p : Protocol} {ts : List (BinaryTree Addr)} (hi : Valid answer seen p ts) :
    (∀ id request env, ∃ p', Protocol.step answer p (.add id request env) = some p') ∧
    ∀ id k env, k < p.pending.length → ∃ p', Protocol.step answer p (.addContinue id k env) = some p' := by
  constructor
  · intro id request env
    obtain ⟨s', sent, hs⟩ := hi.serves.1 env id request
    exact ⟨_, by simp only [Protocol.step, hs]; rfl⟩
  · intro id k env hk
    obtain ⟨s', sent, hs⟩ := hi.serves.2 env id p.pending[k] (List.getElem_mem hk)
      (answer p.pending[k].request p.pending[k].ciphertext)
    exact ⟨_, by simp only [Protocol.step, List.getElem?_eq_getElem hk, hs]; rfl⟩

/-- Along a run nodes keep their values, and every tree its nodes in the
order it had them. -/
theorem Valid.kept {p p' : Protocol} {as : List Act}
    (h : Runs (Guarded (ofPartial (Protocol.step answer)) Apart) p as p') (h₀ : ∃ ts, Valid answer True p ts) :
    p.server.heap.length ≤ p'.server.heap.length ∧ ∀ a < p.server.heap.length,
      p'.server.heap.value a = p.server.heap.value a ∧
      (inorder (p.server.heap.tree (some a))).Sublist (inorder (p'.server.heap.tree (some a))) := by
  refine h.monotone (I := fun p => ∃ ts, Valid answer True p ts)
    (R := fun p p' => p.server.heap.length ≤ p'.server.heap.length ∧ ∀ a < p.server.heap.length,
      p'.server.heap.value a = p.server.heap.value a ∧
      (inorder (p.server.heap.tree (some a))).Sublist (inorder (p'.server.heap.tree (some a))))
    ?_ (fun p => ⟨Nat.le_refl _, fun _ _ => ⟨rfl, .refl _⟩⟩) ?_ ?_ h₀
  · intro p a p' ⟨ts, hi⟩ hs
    obtain ⟨ts', hi', -⟩ := hi.step hs.1 (takes_of_step hs.2)
    exact ⟨ts', hi'⟩
  · intro p p' p'' h₁ h₂
    refine ⟨h₁.1.trans h₂.1, fun a ha => ?_⟩
    obtain ⟨hv₁, hs₁⟩ := h₁.2 a ha
    obtain ⟨hv₂, hs₂⟩ := h₂.2 a (Nat.lt_of_lt_of_le ha h₁.1)
    exact ⟨hv₂.trans hv₁, hs₁.trans hs₂⟩
  · intro p a p' ⟨ts, hi⟩ hs
    obtain ⟨ts', hi', hl⟩ := hi.step hs.1 (takes_of_step hs.2)
    exact ⟨hl.length, fun a ha => ⟨hl.value a ha, hi.forest.tree_extends hi'.forest hl.trees ha⟩⟩

/-! ## Values in an order -/

/-- The sign of a comparison. -/
def sign : Ordering → Int32
  | .lt => -1
  | .eq => 0
  | .gt => 1

/-- A client that compares the node's value with its own. -/
def honest (cmp : Str → Str → Ordering) (r : RequestAdd) (node : Ciphertext) : Int32 :=
  match r.value? with
  | some value => sign (cmp node value)
  | none => 0

/-- The textbook insertion of a value. -/
def insertValue (cmp : Str → Str → Ordering) (t : BinaryTree Ciphertext) (value : Ciphertext) :
    BinaryTree Ciphertext :=
  insert (fun node =>
    match cmp node value with
    | .lt => some .left
    | .gt => some .right
    | .eq => none) value t

/-- The values of the inserts into a table answered so far. -/
def answeredValues (p : Protocol) (database table : Str) : List Ciphertext :=
  (p.answered.filter fun r => r.tree = BTreeForest.id database table).filterMap (·.value?)

theorem insertRequest_honest (cmp : Str → Str → Ordering) {key : Str} {r : RequestAdd} {value : Ciphertext}
    (t : BinaryTree Ciphertext) (hv : r.value? = some value) (hk : r.tree = key) :
    insertRequest (honest cmp) key t r = insertValue cmp t value := by
  have hdir : dir (honest cmp) r = fun node =>
      match cmp node value with
      | .lt => some .left
      | .gt => some .right
      | .eq => none := by
    funext node
    rw [dir, honest, hv]
    show direction (sign (cmp node value)) = _
    cases cmp node value <;> rfl
  simp only [insertRequest, hv, if_pos hk, hdir]
  rfl

theorem textbook_honest (cmp : Str → Str → Ordering) (key : Str) (rs : List RequestAdd) :
    textbook (honest cmp) key rs =
      ((rs.filter fun r => r.tree = key).filterMap (·.value?)).foldl (insertValue cmp) .nil := by
  induction rs using List.reverseRecOn with
  | nil => rfl
  | append_singleton rs r ih =>
    rw [textbook_snoc, ih, List.filter_append, List.filterMap_append, List.foldl_append]
    by_cases hk : r.tree = key
    · cases hv : r.value? with
      | none =>
        rw [insertRequest_of_ne fun _ => hv]
        simp [hk, hv]
      | some value =>
        rw [insertRequest_honest cmp _ hv hk]
        simp [hk, hv]
    · rw [insertRequest_of_ne fun h => absurd h hk]
      simp [hk]

/-- **Inserts that take turns are as if made one after the other**: the tree
of a table is the textbook insertion of the values answered with
`ResponseAddOk`, in the order of the answers. No node is in a tree twice,
none is overwritten or lost later, and no handler stops. -/
theorem inserts_linearizable (cmp : Str → Str → Ordering) {p : Protocol} {as : List Act}
    (h : Runs (Guarded (ofPartial (step (honest cmp))) Fresh) init as p) :
    (∀ database table, values p.server (BTreeForest.id database table) =
      (p.answeredValues database table).foldl (insertValue cmp) .nil) ∧
    (∀ database table, (inorder (p.server.heap.tree (p.server.forest.getTree database table))).Nodup) ∧
    (∀ as' p', Runs (Guarded (ofPartial (step (honest cmp))) Fresh) p as' p' → ∀ a < p.server.heap.length,
      p'.server.heap.value a = p.server.heap.value a ∧
      (inorder (p.server.heap.tree (some a))).Sublist (inorder (p'.server.heap.tree (some a)))) ∧
    (∀ id request env, ∃ p', step (honest cmp) p (.add id request env) = some p') ∧
    (∀ id k env, k < p.pending.length → ∃ p', step (honest cmp) p (.addContinue id k env) = some p') := by
  obtain ⟨hrun, hused⟩ := apart_of_fresh h (by simp [init])
  obtain ⟨ts, hi⟩ := Valid.runs hrun ⟨_, Valid.init _ _⟩
  refine ⟨fun database table => ?_, fun database table => ?_, fun as' p' h' => ?_, hi.progress⟩
  · rw [hi.textbook trivial, textbook_honest]
    rfl
  · rcases hi.tree_cases (BTreeForest.id database table) with hnone | ⟨u, hu, hr, -⟩
    · have hnil : ∀ n, p.server.heap.treeTo n none = .nil := fun n => by cases n <;> rfl
      rw [BTreeForest.getTree, hnone, Heap.tree, hnil]
      exact List.nodup_nil
    · rw [BTreeForest.getTree, hr, hi.forest.tree hu]
      exact hi.forest.tree_nodup hu
  · exact (Valid.kept (apart_of_fresh h' hused).1 ⟨ts, hi⟩).2

/-- Two inserts started at the same root, the later one finished first. -/
theorem inserts_linearizable_pair :
    ∃ p, Runs (Guarded (ofPartial (step (honest compare))) Fresh) init
        [.add 1 (.ofValue [5]) .calm, .add 2 (.ofValue [3]) .calm, .add 3 (.ofValue [7]) .calm,
          .addContinue 4 1 .calm, .addContinue 5 0 .calm] p ∧
      values p.server (BTreeForest.id [0x64] [0x74]) =
        (p.answeredValues [0x64] [0x74]).foldl (insertValue compare) .nil :=
  have hrun : Runs (Guarded (ofPartial (step (honest compare))) Fresh) init
      [.add 1 (.ofValue [5]) .calm, .add 2 (.ofValue [3]) .calm, .add 3 (.ofValue [7]) .calm,
        .addContinue 4 1 .calm, .addContinue 5 0 .calm] _ :=
    .cons ⟨by decide, rfl⟩ (.cons ⟨by decide, rfl⟩ (.cons ⟨by decide, rfl⟩ (.cons ⟨by decide, rfl⟩
      (.cons ⟨by decide, rfl⟩ .nil))))
  ⟨_, hrun, (inserts_linearizable compare hrun).1 _ _⟩

end Protocol

end Zql
