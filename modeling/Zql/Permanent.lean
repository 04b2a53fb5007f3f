/-
What no message undoes. The clients of `Protocol` take turns and are honest;
here any messages come in any order, repeated or stale, under ids of other
inserts, with any compare results. Traversals may then stand where they have no
business to, and trees need not be in any order.

But a node once created stays where it is, with its value, in the tree of its
table, and every table keeps its root (`nodes_permanent`): the handlers only ever
hang new nodes where there were none.
-/
import Zql.Insertion
import Zql.Lockstep
import Zql.Tables

namespace Zql

open Dyadic SearchTree Transition

open Protocol (Later)

namespace Server

/-- The trees of the tables are all there is in memory. -/
structure Planted (s : Server) (ts : List (BinaryTree Addr)) : Prop where
  sound : s.Sound
  rooted : Rooted s.heap s.forest ts
  tables : ∀ u ∈ ts, ∃ (key : Str) (root : Addr), s.forest.forest[key]? = some root ∧ root? u = some root

/-- The trees after have all that was in the trees before. -/
structure Grows (s s' : Server) (ts ts' : List (BinaryTree Addr)) : Prop where
  later : Later s s' ts ts'
  roots : ∀ (key : Str) (root : Addr), s.forest.forest[key]? = some root → s'.forest.forest[key]? = some root

/-- Every table has its nodes where they were, with the values they had. -/
structure Keeps (s s' : Server) (key : Str) : Prop where
  nodes : (s.forest.nodes s.heap key).Sublist (s'.forest.nodes s'.heap key)
  places : ∀ ds a, label? (s.forest.tree s.heap key) ds = some a → label? (s'.forest.tree s'.heap key) ds = some a
  values : ∀ a ∈ s.forest.nodes s.heap key, s'.heap.value a = s.heap.value a

theorem Keeps.refl (s : Server) (key : Str) : Keeps s s key := ⟨.refl _, fun _ _ h => h, fun _ _ => rfl⟩

theorem Keeps.trans {s s' s'' : Server} {key : Str} (h : Keeps s s' key) (h' : Keeps s' s'' key) :
    Keeps s s'' key where
  nodes := h.nodes.trans h'.nodes
  places := fun ds a ha => h'.places ds a (h.places ds a ha)
  values := fun a ha => (h'.values a (h.nodes.subset ha)).trans (h.values a ha)

variable {s s' : Server} {ts ts' : List (BinaryTree Addr)}

theorem Planted.init : Server.init.Planted [] where
  sound := Sound.init
  rooted := Rooted.nil
  tables := fun _ h => by simp at h

theorem Planted.tree_eq (hp : s.Planted ts) {u : BinaryTree Addr} (hu : u ∈ ts) :
    ∃ key, s.forest.tree s.heap key = u := by
  obtain ⟨key, root, hk, hroot⟩ := hp.tables u hu
  refine ⟨key, ?_⟩
  rw [BTreeForest.tree, hk, ← hroot]
  exact hp.rooted.forest.tree hu

/-! ## A message -/

theorem Planted.same (hp : s.Planted ts) (hsound : s'.Sound) (hheap : s'.heap = s.heap)
    (hforest : s'.forest = s.forest) : ∃ ts', s'.Planted ts' ∧ Grows s s' ts ts' := by
  refine ⟨ts, ⟨hsound, ?_, ?_⟩, .same hheap, fun key root h => by rwa [hforest]⟩
  · rw [hheap, hforest]
    exact hp.rooted
  · rw [hforest]
    exact hp.tables

theorem Planted.added {env : Env} {id : UInt32} {request : RequestAdd} {response : Response} (hp : s.Planted ts)
    (h : Added env s id request s' response) : ∃ ts', s'.Planted ts' ∧ Grows s s' ts ts' := by
  have hsound := hp.sound.added h
  cases h with
  | plain _ => exact hp.same hsound rfl rfl
  | started _ _ _ => exact hp.same hsound rfl rfl
  | @root opeField opeValue hope hnone =>
    have hkept : ∀ (key : Str) (root : Addr), s.forest.forest[key]? = some root →
        (s.forest.forest.insert (BTreeForest.id request.database request.table) s.heap.length)[key]? = some root := by
      intro key root hroot
      have hne : key ≠ BTreeForest.id request.database request.table := by
        rintro rfl
        rw [BTreeForest.getTree, hroot] at hnone
        cases hnone
      rw [getElem?_insert_if, if_neg hne, hroot]
    have hgrown := grown_create s.heap opeValue
    refine ⟨_, ⟨hsound, hp.rooted.create _ opeValue, fun u hu => ?_⟩,
      .grown (.of_subset (List.subset_cons_self _ _)) hgrown, hkept⟩
    rcases List.mem_cons.mp hu with rfl | hu
    · exact ⟨_, _, by rw [getElem?_insert_if, if_pos rfl], rfl⟩
    · obtain ⟨key, root, hk, hroot⟩ := hp.tables u hu
      exact ⟨key, root, hkept key root hk, hroot⟩

theorem Planted.continued {env : Env} {id : UInt32} {request : RequestAddContinue} {response : Response}
    (hp : s.Planted ts) (h : Continued env s id request s' response) :
    ∃ ts', s'.Planted ts' ∧ Grows s s' ts ts' := by
  have hsound := hp.sound.continued h
  have hf := hp.rooted.forest
  cases h with
  | equal _ => exact hp.same hsound rfl rfl
  | moved _ _ hgo _ =>
    obtain ⟨rfl, -⟩ := BTreeTraverse.goTo_moved hgo
    exact hp.same hsound rfl rfl
  | @ended side t t' heap requestAdd row hd ht hgo hr hrow =>
    obtain ⟨node, hnode, hchild, rfl, -⟩ := BTreeTraverse.goTo_ended hgo
    -- wherever the traversal has got to, it stands at a node of some tree
    obtain ⟨ds, u, hu, hsits⟩ := hf.at_of_lt (hp.sound.traverses _ t ht).1
    obtain ⟨node', hnode', hchildren⟩ := (hf.laid u hu).child hsits
    obtain rfl : node = node' := Option.some.inj (hnode.symm.trans hnode')
    have hfree : label? u (ds ++ [side]) = none := (hchildren side).symm.trans hchild
    have hslot : Slot u (ds ++ [side]) := slot_of_open hsits (label?_eq_none.mp hfree)
    have hgrown := grown_hang hnode side s.heap.length t.ciphertext
    obtain ⟨pre, post, rfl⟩ := List.append_of_mem hu
    have hext : Extends (pre ++ u :: post) (pre ++ graft s.heap.length u (ds ++ [side]) :: post) := Extends.graft hslot _
    have hroots : ∀ (key : Str) (root : Addr), s.forest.forest[key]? = some root →
        At (pre ++ graft s.heap.length u (ds ++ [side]) :: post) root [] :=
      fun key root hk => (hp.rooted.roots key root hk).extends hext
    refine ⟨_, ⟨hsound, ⟨hf.grow hsits hnode hfree, hroots, hp.rooted.distinct⟩, fun v hv => ?_⟩,
      .grown hext hgrown, fun _ _ h => h⟩
    rw [List.mem_append, List.mem_cons] at hv
    rcases hv with hv | rfl | hv
    · exact hp.tables v (by simp [hv])
    · obtain ⟨key, root, hk, hroot⟩ := hp.tables u (by simp)
      have hlabel : label? u [] = some root := hroot
      exact ⟨key, root, hk, label?_graft_old hslot hlabel⟩
    · exact hp.tables v (by simp [hv])

/-- **Whatever message comes**, trees only grow. -/
theorem Planted.step {a : Message × Env} (hp : s.Planted ts) (h : s.step a = some s') :
    ∃ ts', s'.Planted ts' ∧ Grows s s' ts ts' := by
  obtain ⟨e, he, rfl⟩ := Option.map_eq_some_iff.mp h
  obtain ⟨-, -, rfl, hh⟩ := exchange_some he
  unfold Exchange.Handled at hh
  split at hh
  · exact hp.added hh
  · exact hp.continued hh

theorem Grows.keeps (hp : s.Planted ts) (hp' : s'.Planted ts') (hg : Grows s s' ts ts') (key : Str) :
    Keeps s s' key := by
  rcases hp.rooted.tree_cases key with ⟨-, hnil⟩ | ⟨hu, root, hk, hroot⟩
  · refine ⟨?_, ?_, ?_⟩ <;> simp [BTreeForest.nodes, hnil, inorder]
  · obtain ⟨u', hu', hext⟩ := hg.later.trees _ hu
    have hroot' : root? u' = some root := (hext []).1 root hroot
    have htree' : s'.forest.tree s'.heap key = u' := by
      rw [BTreeForest.tree, hg.roots key root hk, ← hroot']
      exact hp'.rooted.forest.tree hu'
    refine ⟨?_, fun ds a ha => ?_, fun a ha => ?_⟩
    · rw [BTreeForest.nodes, BTreeForest.nodes, htree']
      exact (hext []).2
    · rw [htree']
      exact (hext ds).1 a ha
    · exact hg.later.value a (hp.rooted.lt_length ha)

/-! ## A run -/

theorem Planted.reached {as : List (Message × Env)} (h : Runs (ofPartial Server.step) s as s')
    (h₀ : ∃ ts, s.Planted ts) : ∃ ts, s'.Planted ts :=
  h.invariant (I := fun s => ∃ ts, s.Planted ts)
    (fun _ _ _ hp hs => by
      obtain ⟨ts, hp⟩ := hp
      obtain ⟨ts', hp', -⟩ := hp.step hs
      exact ⟨ts', hp'⟩) h₀

theorem Planted.unique (hp : s.Planted ts) {a : Addr} (ha : a < s.heap.length) :
    ∃! key : Str, a ∈ s.forest.nodes s.heap key := by
  obtain ⟨u, hu, hmem⟩ := List.mem_flatMap.mp (hp.rooted.forest.cover a ha)
  obtain ⟨key, rfl⟩ := hp.tree_eq hu
  exact ⟨key, hmem, fun key' hmem' => hp.rooted.key_unique hmem' hmem⟩

/-- **No message undoes anything.** Whatever messages come, each node is in one
place of one table's tree; and whatever comes after, every table keeps its
nodes, where they are and with their values. -/
theorem nodes_permanent {as : List (Message × Env)} (h : Runs (ofPartial Server.step) Server.init as s) :
    (∀ key : Str, (s.forest.nodes s.heap key).Nodup) ∧
    (∀ a < s.heap.length, ∃! key : Str, a ∈ s.forest.nodes s.heap key) ∧
    ∀ bs s', Runs (ofPartial Server.step) s bs s' → ∀ key, Keeps s s' key := by
  obtain ⟨ts, hp⟩ := Planted.reached h ⟨_, Planted.init⟩
  refine ⟨fun key => ?_, fun a ha => hp.unique ha, fun bs s' h' key => ?_⟩
  · rcases hp.rooted.tree_cases key with ⟨-, hnil⟩ | ⟨hu, -⟩
    · simp [BTreeForest.nodes, hnil, inorder]
    · exact hp.rooted.forest.tree_nodup hu
  · exact h'.monotone (I := fun s => ∃ ts, s.Planted ts) (R := fun s s' => Keeps s s' key)
      (fun _ _ _ hp hs => Planted.reached (.one hs) hp) (fun s => .refl s key) (fun _ _ _ => .trans)
      (fun _ _ _ hp hs => by
        obtain ⟨ts, hp⟩ := hp
        obtain ⟨ts', hp', hg⟩ := hp.step hs
        exact hg.keeps hp hp' key) ⟨ts, hp⟩

/-- The client of the second insert lies about the order of the two values. -/
theorem nodes_permanent_lie :
    ∃ s s', Runs (ofPartial Server.step) Server.init
        [(.add 1 (.ofValue [0x35]), .calm), (.add 2 (.ofValue [0x33]), .calm)] s ∧
      Runs (ofPartial Server.step) s [(.addContinue 3 ⟨2, 1⟩, .calm)] s' ∧ s'.heap.length = 2 ∧
      ∀ key, Keeps s s' key := by
  have hrun : Runs (ofPartial Server.step) Server.init
      [(.add 1 (.ofValue [0x35]), .calm), (.add 2 (.ofValue [0x33]), .calm)] _ := .cons rfl (.cons rfl .nil)
  have hkept := (nodes_permanent hrun).2.2 [(.addContinue 3 ⟨2, 1⟩, .calm)] _ (.cons rfl .nil)
  exact ⟨_, _, hrun, .cons rfl .nil, rfl, hkept⟩

end Server

end Zql
