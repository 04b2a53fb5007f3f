/-
What becomes of a table when a worker is overtaken. Two checks are acted on later:
`getTree` finds no tree and `createTree` makes one, a traversal finds no child and
hangs up its node there. If another worker was there in between, the second pointer
goes where the first was, and the node that was there is in no tree any more. As
long as that has not happened, every node is in the tree of a table
(`overtaken_iff`).
-/
import Zql.Linearize
import Zql.Permanent

namespace Zql

open Dyadic SearchTree Transition

/-! ## Pointers to a node -/

/-- A node of a tree in memory is what the pointer to the tree points to, or the
child of a node. -/
theorem mem_treeTo {h : Heap} {n : Nat} {r : Option Addr} {a : Addr} (ha : a ∈ inorder (h.treeTo n r)) :
    r = some a ∨ ∃ (b : Addr) (node : BTreeNode) (side : Side), h[b]? = some node ∧ node.child side = some a := by
  induction n generalizing r with
  | zero => cases ha
  | succ n ih =>
    cases r with
    | none => cases ha
    | some b =>
      cases hb : h[b]? with
      | none => simp [Heap.treeTo, hb, inorder] at ha
      | some node =>
        simp only [Heap.treeTo, hb, inorder, List.mem_append, List.mem_cons] at ha
        rcases ha with ha | rfl | ha
        · rcases ih ha with hleft | hdeep
          · exact .inr ⟨b, node, .left, hb, hleft⟩
          · exact .inr hdeep
        · exact .inl rfl
        · rcases ih ha with hright | hdeep
          · exact .inr ⟨b, node, .right, hb, hright⟩
          · exact .inr hdeep

theorem Rooted.child_place {h : Heap} {f : BTreeForest} {ts : List (BinaryTree Addr)} (hr : Rooted h f ts) {a b : Addr}
    {node : BTreeNode} {side : Side} (hb : h[b]? = some node) (ha : node.child side = some a) :
    ∃ u ∈ ts, ∃ ds, label? u ds = some b ∧ label? u (ds ++ [side]) = some a := by
  obtain ⟨ds, u, hu, hl⟩ := hr.forest.at_of_lt (List.getElem?_eq_some_iff.mp hb).1
  obtain ⟨node', hnode', hchild⟩ := (hr.forest.laid u hu).child hl
  obtain rfl : node = node' := Option.some.inj (hb.symm.trans hnode')
  exact ⟨u, hu, ds, hl, by rw [← hchild, ha]⟩

theorem Rooted.child_lt {h : Heap} {f : BTreeForest} {ts : List (BinaryTree Addr)} (hr : Rooted h f ts) {a b : Addr}
    {node : BTreeNode} {side : Side} (hb : h[b]? = some node) (ha : node.child side = some a) : a < h.length := by
  obtain ⟨u, hu, ds, -, hla⟩ := hr.child_place hb ha
  exact hr.forest.lt_length ⟨u, hu, hla⟩

/-- A node has one pointer to it: no root is a child, and no child is another's. -/
theorem Rooted.one_pointer {h : Heap} {f : BTreeForest} {ts : List (BinaryTree Addr)} (hr : Rooted h f ts) {a b : Addr}
    {node : BTreeNode} {side : Side} (hb : h[b]? = some node) (ha : node.child side = some a) :
    (∀ key : Str, f.forest[key]? ≠ some a) ∧
    ∀ (b' : Addr) (node' : BTreeNode) (side' : Side), h[b']? = some node' → node'.child side' = some a →
      b' = b ∧ side' = side := by
  obtain ⟨u, hu, ds, hl, hla⟩ := hr.child_place hb ha
  have hau : a ∈ inorder u := mem_inorder_iff.mpr ⟨_, hla⟩
  have hn := hr.forest.tree_nodup hu
  refine ⟨fun key hkey => ?_, fun b' node' side' hb' ha' => ?_⟩
  · obtain ⟨v, hv, hroot⟩ := hr.roots key a hkey
    obtain rfl := Rooted.same_tree hr.forest hv hu (mem_inorder_iff.mpr ⟨[], hroot⟩) hau
    have := position_unique hn hroot hla
    simp at this
  · obtain ⟨v, hv, es, hl', hla'⟩ := hr.child_place hb' ha'
    obtain rfl := Rooted.same_tree hr.forest hv hu (mem_inorder_iff.mpr ⟨_, hla'⟩) hau
    obtain ⟨rfl, hside⟩ := List.append_inj' (position_unique hn hla' hla) rfl
    exact ⟨Option.some.inj (hl'.symm.trans hl), List.head_eq_of_cons_eq hside⟩

/-! ## Lost nodes -/

/-- A pointer that is overwritten was the last to its node. -/
theorem Rooted.overwritten {h : Heap} {f : BTreeForest} {ts : List (BinaryTree Addr)} (hr : Rooted h f ts) {a b : Addr}
    {node : BTreeNode} {side : Side} (hb : h[b]? = some node) (ha : node.child side = some a) (c : Ciphertext)
    (key : Str) : a ∉ f.nodes (h.set b (node.setChild side h.length) ++ [BTreeNode.new c]) key := by
  obtain ⟨hroot, honly⟩ := hr.one_pointer hb ha
  intro hmem
  rcases mem_treeTo hmem with hkey | ⟨b', node', side', hb', ha'⟩
  · exact hroot key hkey
  by_cases hlt : b' < h.length
  · rw [List.getElem?_append_left (by simpa using hlt)] at hb'
    by_cases he : b = b'
    · subst he
      rw [List.getElem?_set_self hlt] at hb'
      obtain rfl := Option.some.inj hb'
      by_cases hside : side' = side
      · subst hside
        have hnew : (node.setChild side' h.length).child side' = some h.length := by cases side' <;> rfl
        rw [hnew] at ha'
        exact absurd (Option.some.inj ha') (Nat.ne_of_gt (hr.child_lt hb ha))
      · have hold : (node.setChild side h.length).child side' = node.child side' := by
          cases side <;> cases side' <;> first | rfl | exact absurd rfl hside
        rw [hold] at ha'
        exact hside (honly b node side' hb ha').2
    · rw [List.getElem?_set_ne he] at hb'
      exact he (honly b' node' side' hb' ha').1.symm
  · -- the new node has no children
    rw [List.getElem?_append_right (by simpa using hlt)] at hb'
    obtain rfl := List.mem_singleton.mp (List.mem_of_getElem? hb')
    cases side' <;> cases ha'

theorem Protocol.planted {answer : RequestAdd → Ciphertext → Int32} {ok : Protocol → Protocol.Act → Prop}
    {as : List Protocol.Act} {p : Protocol}
    (h : Runs (Guarded (ofPartial (Protocol.step answer)) ok) Protocol.init as p) : ∃ ts, p.server.Planted ts := by
  refine h.invariant (I := fun p => ∃ ts, p.server.Planted ts) (fun p a p' hp hs => ?_) ⟨[], Server.Planted.init⟩
  obtain ⟨ts, hp⟩ := hp
  cases a with
  | add id request env =>
    obtain ⟨server, response, hadded, rfl⟩ := Protocol.step_add hs.2
    obtain ⟨ts', hp', -⟩ := hp.added hadded
    exact ⟨ts', by rwa [Protocol.receive_server]⟩
  | addContinue id k env =>
    obtain ⟨q, server, response, -, hcontinued, rfl⟩ := Protocol.step_addContinue hs.2
    obtain ⟨ts', hp', -⟩ := hp.continued hcontinued
    exact ⟨ts', by rwa [Protocol.receive_server]⟩

namespace Daemon

variable {answer : RequestAdd → Ciphertext → Int32} {n k : Nat} {as : List Act} {d d' : Daemon}

/-- Every node in memory is in the tree of a table. -/
def NoneLost (s : Shared) : Prop := ∀ a < s.heap.length, ∃ key : Str, a ∈ s.forest.nodes s.heap key

theorem planted (h : Runs (Guarded (ofPartial (step answer)) Ordered) (start n) as d) :
    (∃ ts, Rooted d.shared.heap d.shared.forest ts) ∧ NoneLost d.shared := by
  obtain ⟨bs, p, hbs, hl, -⟩ := workers_linearize answer h
  obtain ⟨ts, hp⟩ := Protocol.planted hbs
  rw [NoneLost, hl.heap, hl.forest]
  exact ⟨⟨ts, hp.rooted⟩, fun a ha => (hp.unique ha).exists⟩

/-- A tree created where there was one takes its place. -/
theorem createTree_loses {s : Shared} {ts : List (BinaryTree Addr)} (hr : Rooted s.heap s.forest ts) {key : Str}
    {root : Addr} (hroot : s.forest.forest[key]? = some root) (c : Ciphertext) :
    ¬ NoneLost { s with heap := s.heap ++ [BTreeNode.new c], forest := ⟨s.forest.forest.insert key s.heap.length⟩ } := by
  intro hall
  have hlt : root < s.heap.length := hr.forest.lt_length (hr.roots key root hroot)
  obtain ⟨key', hmem⟩ := hall root (by rw [List.length_append]; exact Nat.lt_succ_of_lt hlt)
  rcases (hr.mem_create key' root).mp hmem with ⟨-, he⟩ | ⟨hne, hmem⟩
  · exact absurd he (Nat.ne_of_lt hlt)
  · exact hne (hr.key_unique hmem (hr.root_mem hroot))

/-- A node hung up where there was one takes its place. -/
theorem newNode_loses {s : Shared} {ts : List (BinaryTree Addr)} (hr : Rooted s.heap s.forest ts) {a b : Addr}
    {node : BTreeNode} {side : Side} (hb : s.heap[b]? = some node) (ha : node.child side = some a) (c : Ciphertext) :
    ¬ NoneLost { s with heap := s.heap.set b (node.setChild side s.heap.length) ++ [BTreeNode.new c] } := by
  intro hall
  have halt : a < s.heap.length := hr.child_lt hb ha
  obtain ⟨key, hmem⟩ := hall a (by rw [List.length_append, List.length_set]; exact Nat.lt_succ_of_lt halt)
  exact hr.overwritten hb ha c key hmem

/-- **No node is lost exactly as long as no worker is overtaken** between a check and
what it does on it. -/
theorem overtaken_iff (h : Runs (Guarded (ofPartial (step answer)) Ordered) (start n) as d)
    (hs : step answer d (.advance k) = some d') : NoneLost d'.shared ↔ Ordered d (.advance k) := by
  constructor
  · intro hall
    obtain ⟨ts, hr⟩ := (planted h).1
    obtain ⟨job, stage, hk, ⟨response, rfl, rfl⟩ | ⟨s', stage', hadvance, rfl⟩⟩ := step_advance hs
    · exact ordered_advance hk trivial
    · refine ordered_advance hk ?_
      cases stage with
      | createTree opeField opeValue =>
        cases hadvance
        cases htree : d.shared.forest.getTree job.insert.database job.insert.table with
        | none => exact htree
        | some root => exact absurd hall (createTree_loses hr htree opeValue)
      | newNode side i t =>
        obtain ⟨traverse, hobject, hadvance⟩ := Option.bind_eq_some_iff.mp hadvance
        obtain ⟨node, hnode, he⟩ := Option.map_eq_some_iff.mp hadvance
        cases he
        intro traverse' node' hobject' hnode'
        obtain rfl := Option.some.inj (hobject.symm.trans hobject')
        obtain rfl := Option.some.inj (hnode.symm.trans hnode')
        cases hchild : node.child side with
        | none => rfl
        | some a => exact absurd hall (newNode_loses hr hnode hchild traverse.ciphertext)
      | _ => trivial
  · exact fun ha => (planted (h.snoc ⟨ha, hs⟩)).2

/-- Two first inserts at once: both workers find no tree, and the second tree takes
the place of the first. -/
theorem overtaken_iff_first :
    ∃ d d', Runs (Guarded (ofPartial (step (Protocol.honest compare))) Ordered) (start 2)
        [.add 0 1 (.ofValue [5]) .calm, .add 1 2 (.ofValue [3]) .calm, .advance 0, .advance 1, .advance 0] d ∧
      step (Protocol.honest compare) d (.advance 1) = some d' ∧ ¬ NoneLost d'.shared := by
  have hrun : Runs (Guarded (ofPartial (step (Protocol.honest compare))) Ordered) (start 2)
      [.add 0 1 (.ofValue [5]) .calm, .add 1 2 (.ofValue [3]) .calm, .advance 0, .advance 1, .advance 0] _ :=
    .cons ⟨ordered_add (by decide), rfl⟩ (.cons ⟨ordered_add (by decide), rfl⟩ (.cons ⟨ordered_advance rfl trivial, rfl⟩
      (.cons ⟨ordered_advance rfl trivial, rfl⟩ (.cons ⟨ordered_advance rfl rfl, rfl⟩ .nil))))
  refine ⟨_, _, hrun, rfl, fun hall => ?_⟩
  have hnone := (overtaken_iff (k := 1) hrun rfl).mp hall ⟨2, .ofValue [3], .calm⟩ (.createTree opeEnding [3]) rfl
  cases hnone

end Daemon

end Zql
