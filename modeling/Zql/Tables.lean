/-
The trees of the tables, by the keys the forest keeps their roots under.

A tree changes in two ways: `createTree` puts a new root under one key
(`Rooted.create`), and a step of a traversal grows a leaf in the tree that
holds the node it stands at (`Rooted.ended`). Under every other key the
tree stays as it is.

The key of a pair is `database + "." + table`, which is the key of another
pair as soon as one of the names holds a dot. While trees are created for
names without a dot only, every pair has a tree of its own
(`tables_apart_iff`).
-/
import Zql.Traverse
import Zql.Lib.Runs

namespace Zql

open Dyadic SearchTree Transition

/-- The tree under a key, in memory. -/
def BTreeForest.tree (f : BTreeForest) (h : Heap) (key : Str) : BinaryTree Addr := h.tree f.forest[key]?

/-- The addresses of its nodes. -/
def BTreeForest.nodes (f : BTreeForest) (h : Heap) (key : Str) : List Addr := inorder (f.tree h key)

/-- Memory holds the trees `ts`, and the forest roots of them, each under one key. -/
structure Rooted (h : Heap) (f : BTreeForest) (ts : List (BinaryTree Addr)) : Prop where
  forest : Forest h ts
  roots : ∀ (key : Str) (root : Addr), f.forest[key]? = some root → At ts root []
  distinct : ∀ (key key' : Str) (root : Addr), f.forest[key]? = some root → f.forest[key']? = some root → key = key'

namespace Rooted

variable {h h' : Heap} {f : BTreeForest} {ts : List (BinaryTree Addr)}

theorem nil : Rooted [] ⟨∅⟩ [] := ⟨Forest.nil, fun _ _ h => by simp at h, fun _ _ _ h => by simp at h⟩

theorem tree_none (hk : f.forest[key]? = none) : f.tree h key = .nil := by
  rw [BTreeForest.tree, hk]
  unfold Heap.tree
  cases h.length <;> rfl

theorem tree_cases (hr : Rooted h f ts) (key : Str) :
    f.forest[key]? = none ∧ f.tree h key = .nil ∨
      f.tree h key ∈ ts ∧ ∃ root, f.forest[key]? = some root ∧ root? (f.tree h key) = some root := by
  cases hk : f.forest[key]? with
  | none => exact .inl ⟨rfl, tree_none hk⟩
  | some root =>
    obtain ⟨u, hu, hl⟩ := hr.roots key root hk
    have htree : f.tree h key = u := by
      rw [BTreeForest.tree, hk, ← show root? u = some root from hl, hr.forest.tree hu]
    rw [htree]
    exact .inr ⟨hu, root, rfl, hl⟩

theorem root_mem (hr : Rooted h f ts) {key : Str} {root : Addr} (hk : f.forest[key]? = some root) :
    root ∈ f.nodes h key := by
  rcases hr.tree_cases key with ⟨hnone, -⟩ | ⟨-, root', hk', hroot⟩
  · rw [hk] at hnone
    cases hnone
  · obtain rfl : root = root' := Option.some.inj (hk.symm.trans hk')
    exact mem_inorder_iff.mpr ⟨[], hroot⟩

theorem lt_length (hr : Rooted h f ts) {key : Str} {a : Addr} (ha : a ∈ f.nodes h key) : a < h.length := by
  rcases hr.tree_cases key with ⟨-, hnil⟩ | ⟨hmem, -⟩
  · rw [BTreeForest.nodes, hnil] at ha
    cases ha
  · exact (hr.forest.laid _ hmem).lt_length ha

theorem same_tree (hf : Forest h ts) {t u : BinaryTree Addr} (ht : t ∈ ts) (hu : u ∈ ts) {a : Addr}
    (hat : a ∈ inorder t) (hau : a ∈ inorder u) : t = u := by
  by_contra hne
  have hsymm : Std.Symm (Function.onFun List.Disjoint (inorder : BinaryTree Addr → List Addr)) :=
    ⟨fun _ _ hd => hd.symm⟩
  exact (List.nodup_flatMap.mp hf.nodup).2.forall ht hu hne hat hau

theorem key_unique (hr : Rooted h f ts) {key key' : Str} {a : Addr} (ha : a ∈ f.nodes h key)
    (ha' : a ∈ f.nodes h key') : key = key' := by
  rcases hr.tree_cases key with ⟨-, hnil⟩ | ⟨hu, root, hk, hroot⟩
  · rw [BTreeForest.nodes, hnil] at ha
    cases ha
  rcases hr.tree_cases key' with ⟨-, hnil⟩ | ⟨hu', root', hk', hroot'⟩
  · rw [BTreeForest.nodes, hnil] at ha'
    cases ha'
  have hsame := same_tree hr.forest hu hu' ha ha'
  rw [hsame] at hroot
  obtain rfl : root = root' := Option.some.inj (hroot.symm.trans hroot')
  exact hr.distinct key key' root hk hk'

/-! ## A new root -/

theorem create (hr : Rooted h f ts) (key : Str) (c : Ciphertext) :
    Rooted (h ++ [BTreeNode.new c]) ⟨f.forest.insert key h.length⟩ (leaf h.length :: ts) := by
  have hnew : ∀ k : Str, f.forest[k]? ≠ some h.length := fun k hk =>
    Nat.lt_irrefl _ (hr.forest.lt_length (hr.roots k _ hk))
  exact ⟨hr.forest.create c, at_root_insert hr.roots _ _, distinct_insert hnew hr.distinct _⟩

theorem tree_create_self (hr : Rooted h f ts) (key : Str) (c : Ciphertext) :
    BTreeForest.tree ⟨f.forest.insert key h.length⟩ (h ++ [BTreeNode.new c]) key = leaf h.length := by
  have hk : (f.forest.insert key h.length)[key]? = root? (leaf h.length) := by simp [leaf]
  rw [BTreeForest.tree, hk]
  exact (hr.forest.create c).tree List.mem_cons_self

theorem tree_create_of_ne (hr : Rooted h f ts) {key key' : Str} (c : Ciphertext) (hne : key' ≠ key) :
    BTreeForest.tree ⟨f.forest.insert key h.length⟩ (h ++ [BTreeNode.new c]) key' = f.tree h key' := by
  have hk : (f.forest.insert key h.length)[key']? = f.forest[key']? := by rw [getElem?_insert_if, if_neg hne]
  rcases hr.tree_cases key' with ⟨hnone, hnil⟩ | ⟨hu, root, hroot, htree⟩
  · rw [hnil]
    exact tree_none (hk.trans hnone)
  · rw [BTreeForest.tree, hk, hroot, ← htree]
    exact (hr.forest.create c).tree (List.mem_cons_of_mem _ hu)

theorem mem_create (hr : Rooted h f ts) {key : Str} {c : Ciphertext} (key' : Str) (b : Addr) :
    b ∈ BTreeForest.nodes ⟨f.forest.insert key h.length⟩ (h ++ [BTreeNode.new c]) key' ↔
      key' = key ∧ b = h.length ∨ key' ≠ key ∧ b ∈ f.nodes h key' := by
  by_cases hk : key' = key
  · subst hk
    simp [BTreeForest.nodes, hr.tree_create_self, leaf, inorder]
  · simp [BTreeForest.nodes, hr.tree_create_of_ne c hk, hk]

/-! ## A step of a traversal -/

variable {t t' : BTreeTraverse} {side : Side} {undef : UInt64}

theorem moved (hr : Rooted h f ts) (hgo : t.goTo side undef h = some (h', t', true)) :
    h' = h ∧ t'.current < h.length ∧ ∀ key, t'.current ∈ f.nodes h key ↔ t.current ∈ f.nodes h key := by
  obtain ⟨hsame, node, next, hnode, hnext, rfl⟩ := BTreeTraverse.goTo_moved hgo
  obtain ⟨ds, u, hu, hl⟩ := hr.forest.at_of_lt (List.getElem?_eq_some_iff.mp hnode).1
  obtain ⟨node₀, hnode₀, hchild⟩ := (hr.forest.laid u hu).child hl
  obtain rfl : node₀ = node := Option.some.inj (hnode₀.symm.trans hnode)
  have hcurrent : t.current ∈ inorder u := mem_inorder_iff.mpr ⟨ds, hl⟩
  have hmem : next ∈ inorder u := mem_inorder_iff.mpr ⟨ds ++ [side], by rw [← hchild, hnext]⟩
  refine ⟨hsame, (hr.forest.laid u hu).lt_length hmem, fun key => ?_⟩
  rcases hr.tree_cases key with ⟨-, hnil⟩ | ⟨hv, -⟩
  · simp [BTreeForest.nodes, hnil, inorder]
  · constructor
    · intro hin
      rw [BTreeForest.nodes, ← same_tree hr.forest hu hv hmem hin]
      exact hcurrent
    · intro hin
      rw [BTreeForest.nodes, ← same_tree hr.forest hu hv hcurrent hin]
      exact hmem

/-- A leaf grows in the tree that holds the node it hangs under, and every
other tree stays as it is. -/
theorem ended (hr : Rooted h f ts) (hgo : t.goTo side undef h = some (h', t', false)) :
    t'.current = h.length ∧ Grown h h' t.ciphertext ∧ (∃ ts', Rooted h' f ts') ∧ ∀ key,
      (t.current ∉ f.nodes h key → f.tree h' key = f.tree h key) ∧
      (t.current ∈ f.nodes h key → (f.nodes h' key).Perm (h.length :: f.nodes h key)) := by
  obtain ⟨node, hnode, hfree, rfl, rfl⟩ := BTreeTraverse.goTo_ended hgo
  obtain ⟨ds, u, hu, hl⟩ := hr.forest.at_of_lt (List.getElem?_eq_some_iff.mp hnode).1
  obtain ⟨node₀, hnode₀, hchild⟩ := (hr.forest.laid u hu).child hl
  obtain rfl : node₀ = node := Option.some.inj (hnode₀.symm.trans hnode)
  rw [hchild] at hfree
  have hslot : Slot u (ds ++ [side]) := slot_of_open hl (label?_eq_none.mp hfree)
  have hcurrent : t.current ∈ inorder u := mem_inorder_iff.mpr ⟨ds, hl⟩
  obtain ⟨pre, post, rfl⟩ := List.append_of_mem hu
  have hgrown : Forest (h.set t.current (node₀.setChild side h.length) ++ [BTreeNode.new t.ciphertext])
      (pre ++ graft h.length u (ds ++ [side]) :: post) := hr.forest.grow hl hnode hfree
  refine ⟨rfl, grown_hang hnode _ _ _, ⟨_, hgrown, fun key root hk => ?_, hr.distinct⟩, fun key => ?_⟩
  · exact (hr.roots key root hk).extends (Extends.graft hslot _)
  rcases hr.tree_cases key with ⟨hnone, hnil⟩ | ⟨hv, root, hk, hroot⟩
  · refine ⟨fun _ => by rw [hnil, tree_none hnone], fun hin => ?_⟩
    rw [BTreeForest.nodes, hnil] at hin
    cases hin
  constructor
  · intro hnot
    have hne : f.tree h key ≠ u := fun he => hnot (by rw [BTreeForest.nodes, he]; exact hcurrent)
    rw [BTreeForest.tree, hk, ← hroot]
    have hother : f.tree h key ∈ pre ∨ f.tree h key ∈ post := by simpa [hne] using hv
    refine hgrown.tree ?_
    rcases hother with hpre | hpost
    · simp [hpre]
    · simp [hpost]
  · intro hin
    have hsame : f.tree h key = u := same_tree hr.forest hv (by simp) hin hcurrent
    have hroot' : root? (graft h.length u (ds ++ [side])) = some root := by
      rw [← hroot, hsame]
      cases u with
      | nil => simp at hl
      | node a l r => rcases ds with _ | ⟨_ | _, ds⟩ <;> cases side <;> rfl
    have htree : f.tree (h.set t.current (node₀.setChild side h.length) ++ [BTreeNode.new t.ciphertext]) key =
        graft h.length u (ds ++ [side]) := by
      rw [BTreeForest.tree, hk, ← hroot']
      exact hgrown.tree (by simp)
    rw [BTreeForest.nodes, htree, BTreeForest.nodes, hsame]
    exact inorder_graft_perm hslot

theorem mem_ended (hr : Rooted h f ts) (hgo : t.goTo side undef h = some (h', t', false)) (key : Str) (b : Addr) :
    b ∈ f.nodes h' key ↔ b ∈ f.nodes h key ∨ b = h.length ∧ t.current ∈ f.nodes h key := by
  obtain ⟨-, -, -, htrees⟩ := hr.ended hgo
  by_cases hin : t.current ∈ f.nodes h key
  · rw [((htrees key).2 hin).mem_iff]
    simp [hin, or_comm]
  · simp [BTreeForest.nodes, (htrees key).1 hin, show t.current ∉ inorder (f.tree h key) from hin]

end Rooted

/-! ## Keys -/

/-- A key with one dot has one reading. -/
theorem id_dotless {database table database' table' : Str}
    (h : BTreeForest.id database table = BTreeForest.id database' table') (hd : 0x2E ∉ database)
    (ht : 0x2E ∉ table) : database' = database ∧ table' = table := by
  simp only [BTreeForest.id, List.append_assoc, List.singleton_append] at h
  rcases List.append_eq_append_iff.mp h with ⟨as, hdatabase, htable⟩ | ⟨bs, hdatabase, htable⟩
  · cases as with
    | nil => simp_all
    | cons a as =>
      simp only [List.cons_append, List.cons.injEq] at htable
      exact absurd (by simp [htable.2]) ht
  · cases bs with
    | nil => simp_all
    | cons b bs =>
      simp only [List.cons_append, List.cons.injEq] at htable
      exact absurd (by simp [hdatabase, ← htable.1]) hd

/-- A key with more dots is the key of another pair as well. -/
theorem id_dotted {database table : Str} (h : 0x2E ∈ database ∨ 0x2E ∈ table) :
    ∃ database' table', BTreeForest.id database' table' = BTreeForest.id database table ∧
      (database', table') ≠ (database, table) ∧ (0x2E ∈ database' ∨ 0x2E ∈ table') := by
  rcases h with h | h
  · obtain ⟨before, after, rfl⟩ := List.append_of_mem h
    refine ⟨before, after ++ [0x2E] ++ table, by simp [BTreeForest.id], ?_, .inr (by simp)⟩
    simp
  · obtain ⟨before, after, rfl⟩ := List.append_of_mem h
    refine ⟨database ++ [0x2E] ++ before, after, by simp [BTreeForest.id], ?_, .inl (by simp)⟩
    simp

/-! ## Inserts at work in the forest -/

/-- An insert in the tree found for a pair. -/
structure Grove.Walker where
  database : Str
  table : Str
  traverse : BTreeTraverse

/-- The forest in memory, the inserts that walk its trees, and the pairs
`createTree` has been called for. -/
structure Grove where
  heap : Heap
  forest : BTreeForest
  walkers : List Grove.Walker
  created : List (Str × Str)

namespace Grove

def init : Grove := ⟨[], ⟨∅⟩, [], []⟩

inductive Act
  | createTree (database table : Str) (ciphertext : Ciphertext)
  | getTree (database table : Str)
  /-- A traversal from the root `getTree` finds. -/
  | createTraverse (database table : Str) (ciphertext : Ciphertext)
  /-- `goToLeft` or `goToRight` of the `k`th insert. -/
  | goTo (side : Side) (k : Nat) (undef : UInt64)

def step (s : Grove) : Act → Option Grove
  | .createTree database table ciphertext =>
    let (heap, forest) := BTreeForest.createTree s.heap s.forest database table ciphertext
    some { s with heap, forest, created := s.created ++ [(database, table)] }
  | .getTree _ _ => some s
  | .createTraverse database table ciphertext =>
    (s.forest.getTree database table).map fun root =>
      { s with walkers := s.walkers ++ [⟨database, table, .new root ciphertext⟩] }
  | .goTo side k undef =>
    match s.walkers[k]? with
    | none => none
    | some walker =>
      (walker.traverse.goTo side undef s.heap).map fun (heap, traverse, _) =>
        { s with heap, walkers := s.walkers.set k { walker with traverse } }

/-- The pair an operation is for. -/
def Act.pair (s : Grove) : Act → Option (Str × Str)
  | .createTree database table _ => some (database, table)
  | .getTree database table => some (database, table)
  | .createTraverse database table _ => some (database, table)
  | .goTo _ k _ => s.walkers[k]?.map fun walker => (walker.database, walker.table)

/-- A tree is created for names without a dot. -/
def Dotless (_ : Grove) : Act → Prop
  | .createTree database table _ => 0x2E ∉ database ∧ 0x2E ∉ table
  | _ => True

/-- `getTree` returns a tree for the pairs one was created for, and no other. -/
def Named (s : Grove) : Prop :=
  ∀ database table, s.forest.getTree database table ≠ none ↔ (database, table) ∈ s.created

/-- The tree of every pair but that of the operation is as it was: its root,
its nodes where they were, and their values. -/
def Keeps (s : Grove) (a : Act) (s' : Grove) : Prop :=
  ∀ database table, a.pair s ≠ some (database, table) →
    s'.forest.getTree database table = s.forest.getTree database table ∧
    s'.forest.tree s'.heap (BTreeForest.id database table) = s.forest.tree s.heap (BTreeForest.id database table) ∧
    ∀ n ∈ s.forest.nodes s.heap (BTreeForest.id database table), s'.heap.value n = s.heap.value n

/-- The node an insert stands at is under no key but that of its pair. -/
structure Within (s : Grove) (walker : Walker) : Prop where
  created : (walker.database, walker.table) ∈ s.created
  sits : walker.traverse.current < s.heap.length
  key : ∀ key, walker.traverse.current ∈ s.forest.nodes s.heap key →
    key = BTreeForest.id walker.database walker.table

structure Apart (s : Grove) : Prop where
  rooted : ∃ ts, Rooted s.heap s.forest ts
  named : s.Named
  dotless : ∀ database table, (database, table) ∈ s.created → 0x2E ∉ database ∧ 0x2E ∉ table
  within : ∀ walker ∈ s.walkers, s.Within walker

theorem Apart.init : init.Apart where
  rooted := ⟨[], Rooted.nil⟩
  named := fun _ _ => by simp [Grove.init, BTreeForest.getTree]
  dotless := fun _ _ h => by simp [Grove.init] at h
  within := fun _ h => by simp [Grove.init] at h

/-! ## What an operation keeps -/

variable {s s' : Grove}

theorem step_createTraverse {database table : Str} {ciphertext : Ciphertext}
    (h : s.step (.createTraverse database table ciphertext) = some s') :
    ∃ root, s.forest.getTree database table = some root ∧
      s' = { s with walkers := s.walkers ++ [⟨database, table, .new root ciphertext⟩] } := by
  obtain ⟨root, hroot, rfl⟩ := Option.map_eq_some_iff.mp h
  exact ⟨root, hroot, rfl⟩

theorem step_goTo {side : Side} {k : Nat} {undef : UInt64} (h : s.step (.goTo side k undef) = some s') :
    ∃ walker heap traverse moved, s.walkers[k]? = some walker ∧
      walker.traverse.goTo side undef s.heap = some (heap, traverse, moved) ∧
      s' = { s with heap, walkers := s.walkers.set k { walker with traverse } } := by
  simp only [step] at h
  split at h
  · cases h
  next walker hwalker =>
  obtain ⟨⟨heap, traverse, moved⟩, hgo, rfl⟩ := Option.map_eq_some_iff.mp h
  exact ⟨walker, heap, traverse, moved, hwalker, hgo, rfl⟩

theorem Keeps.refl (s : Grove) (a : Act) : s.Keeps a s := fun _ _ _ => ⟨rfl, rfl, fun _ _ => rfl⟩

theorem Apart.createTree (hs : s.Apart) {database table : Str} {ciphertext : Ciphertext}
    (h : s.step (.createTree database table ciphertext) = some s') (hdatabase : 0x2E ∉ database)
    (htable : 0x2E ∉ table) : s'.Apart ∧ s.Keeps (.createTree database table ciphertext) s' := by
  obtain ⟨ts, hr⟩ := hs.rooted
  obtain rfl := Option.some.inj h
  have hgrown := grown_create s.heap ciphertext
  have hne : ∀ database' table', (database', table') ≠ (database, table) →
      BTreeForest.id database' table' ≠ BTreeForest.id database table := by
    intro database' table' hne hid
    obtain ⟨rfl, rfl⟩ := id_dotless hid.symm hdatabase htable
    exact hne rfl
  refine ⟨⟨⟨_, hr.create _ ciphertext⟩, fun database' table' => ?_, fun database' table' hmem => ?_,
    fun walker hwalker => ?_⟩, fun database' table' hpair => ?_⟩
  · have hold := hs.named database' table'
    simp only [BTreeForest.getTree, getElem?_insert_if, List.mem_append, List.mem_singleton] at hold ⊢
    by_cases hsame : (database', table') = (database, table)
    · obtain ⟨rfl, rfl⟩ := Prod.mk.inj hsame
      simp
    · rw [if_neg (hne _ _ hsame), hold]
      simp [hsame]
  · rcases List.mem_append.mp hmem with hmem | hmem
    · exact hs.dotless _ _ hmem
    · obtain ⟨rfl, rfl⟩ := Prod.mk.inj (List.mem_singleton.mp hmem)
      exact ⟨hdatabase, htable⟩
  · have hw := hs.within walker hwalker
    refine ⟨List.mem_append_left _ hw.created, ?_, fun key hin => ?_⟩
    · show walker.traverse.current < (s.heap ++ [_]).length
      rw [List.length_append]
      exact Nat.lt_succ_of_lt hw.sits
    -- the only node of the new tree is new
    rcases (hr.mem_create key _).mp hin with ⟨-, he⟩ | ⟨-, hin⟩
    · exact absurd he (Nat.ne_of_lt hw.sits)
    · exact hw.key key hin
  · have hid := hne database' table' fun he => hpair (by rw [he]; rfl)
    refine ⟨?_, hr.tree_create_of_ne _ hid, fun n hn => hgrown.value_old (hr.lt_length hn)⟩
    simp only [BTreeForest.getTree, getElem?_insert_if, if_neg hid]

theorem Apart.createTraverse (hs : s.Apart) {database table : Str} {ciphertext : Ciphertext}
    (h : s.step (.createTraverse database table ciphertext) = some s') :
    s'.Apart ∧ s.Keeps (.createTraverse database table ciphertext) s' := by
  obtain ⟨ts, hr⟩ := hs.rooted
  obtain ⟨root, hroot, rfl⟩ := step_createTraverse h
  have hmem : root ∈ s.forest.nodes s.heap (BTreeForest.id database table) := hr.root_mem hroot
  refine ⟨⟨⟨ts, hr⟩, hs.named, hs.dotless, fun walker hwalker => ?_⟩, Keeps.refl s _⟩
  rcases List.mem_append.mp hwalker with hwalker | hwalker
  · have hw := hs.within walker hwalker
    exact ⟨hw.created, hw.sits, hw.key⟩
  · obtain rfl := List.mem_singleton.mp hwalker
    have hcreated := (hs.named database table).mp (by rw [hroot]; nofun)
    exact ⟨hcreated, hr.lt_length hmem, fun key hin => hr.key_unique hin hmem⟩

theorem Apart.goTo (hs : s.Apart) {side : Side} {k : Nat} {undef : UInt64}
    (h : s.step (.goTo side k undef) = some s') : s'.Apart ∧ s.Keeps (.goTo side k undef) s' := by
  obtain ⟨ts, hr⟩ := hs.rooted
  obtain ⟨walker, heap, traverse, moved, hwalker, hgo, rfl⟩ := step_goTo h
  have hw := hs.within walker (List.mem_of_getElem? hwalker)
  cases moved with
  | true =>
    obtain ⟨rfl, hlt, hmoved⟩ := hr.moved hgo
    refine ⟨⟨⟨ts, hr⟩, hs.named, hs.dotless, fun w hmem => ?_⟩, fun _ _ _ => ⟨rfl, rfl, fun _ _ => rfl⟩⟩
    rcases List.mem_or_eq_of_mem_set hmem with hmem | rfl
    · have hother := hs.within w hmem
      exact ⟨hother.created, hother.sits, hother.key⟩
    · exact ⟨hw.created, hlt, fun key hin => hw.key key ((hmoved key).mp hin)⟩
  | false =>
    obtain ⟨hcurrent, hgrown, hr', htrees⟩ := hr.ended hgo
    have hlength : s.heap.length < heap.length := by rw [hgrown.length]; exact Nat.lt_succ_self _
    refine ⟨⟨hr', hs.named, hs.dotless, fun w hmem => ?_⟩, fun database table hpair => ?_⟩
    · rcases List.mem_or_eq_of_mem_set hmem with hmem | rfl
      · have hother := hs.within w hmem
        refine ⟨hother.created, Nat.lt_trans hother.sits hlength, fun key hin => ?_⟩
        rcases (hr.mem_ended hgo key _).mp hin with hin | ⟨he, -⟩
        · exact hother.key key hin
        · exact absurd he (Nat.ne_of_lt hother.sits)
      · refine ⟨hw.created, hcurrent ▸ hlength, fun key hin => ?_⟩
        rcases (hr.mem_ended hgo key _).mp hin with hin | ⟨-, hin⟩
        · exact absurd hcurrent (Nat.ne_of_lt (hr.lt_length hin))
        · exact hw.key key hin
    · -- the leaf grows under the walker's key, which is not this one
      have hnot : walker.traverse.current ∉ s.forest.nodes s.heap (BTreeForest.id database table) := by
        intro hin
        obtain ⟨hdatabase, htable⟩ := hs.dotless _ _ hw.created
        obtain ⟨rfl, rfl⟩ := id_dotless (hw.key _ hin).symm hdatabase htable
        exact hpair (by simp [Act.pair, hwalker])
      exact ⟨rfl, (htrees _).1 hnot, fun n hn => hgrown.value_old (hr.lt_length hn)⟩

/-- **An operation that creates no tree under a name with a dot keeps the
tables apart, and every tree but its own.** -/
theorem Apart.step (hs : s.Apart) {a : Act} (ha : s.Dotless a) (h : s.step a = some s') : s'.Apart ∧ s.Keeps a s' := by
  cases a with
  | createTree database table ciphertext => exact hs.createTree h ha.1 ha.2
  | getTree database table =>
    obtain rfl := Option.some.inj h
    exact ⟨hs, Keeps.refl s _⟩
  | createTraverse database table ciphertext => exact hs.createTraverse h
  | goTo side k undef => exact hs.goTo h

theorem Apart.not_named (hs : s.Apart) {a : Act} (ha : ¬ s.Dotless a) (h : s.step a = some s') : ¬ s'.Named := by
  cases a with
  | createTree database table ciphertext =>
    intro hn
    have hdot : 0x2E ∈ database ∨ 0x2E ∈ table := by
      simp only [Dotless] at ha
      by_contra hno
      exact ha (not_or.mp hno)
    obtain ⟨database', table', hid, hne, hdot'⟩ := id_dotted hdot
    obtain rfl := Option.some.inj h
    have hcreated := (hn database' table').mp (by simp [BTreeForest.getTree, hid])
    rcases List.mem_append.mp hcreated with hcreated | hcreated
    · obtain ⟨hdatabase, htable⟩ := hs.dotless _ _ hcreated
      exact hdot'.elim hdatabase htable
    · exact hne (List.mem_singleton.mp hcreated)
  | getTree database table => exact absurd trivial ha
  | createTraverse database table ciphertext => exact absurd trivial ha
  | goTo side k undef => exact absurd trivial ha

/-- **Tables have separate trees exactly while every tree is created under
names without a dot.** -/
theorem tables_apart_iff {as : List Act} (h : Runs (Guarded (ofPartial Grove.step) Dotless) init as s) :
    s.Named ∧ ∀ a s', s.step a = some s' → ((s.Keeps a s' ∧ s'.Named) ↔ s.Dotless a) := by
  have hs : s.Apart := h.invariant (fun _ _ _ hs hstep => (hs.step hstep.1 hstep.2).1) Apart.init
  refine ⟨hs.named, fun a s' hstep => ⟨fun hboth => ?_, fun ha => ?_⟩⟩
  · by_contra ha
    exact hs.not_named ha hstep hboth.2
  · obtain ⟨hs', hkeeps⟩ := hs.step ha hstep
    exact ⟨hkeeps, hs'.named⟩

/-- Two tables, and an insert into each of them. -/
theorem tables_apart_iff_two :
    ∃ s, Runs (Guarded (ofPartial Grove.step) Dotless) init
        [.createTree [0x61] [0x62] [5], .createTree [0x61] [0x63] [6], .createTraverse [0x61] [0x62] [3],
          .createTraverse [0x61] [0x63] [7], .goTo .left 0 0, .goTo .right 1 0] s ∧
      s.Named := by
  have hrun : Runs (Guarded (ofPartial Grove.step) Dotless) init
      [.createTree [0x61] [0x62] [5], .createTree [0x61] [0x63] [6], .createTraverse [0x61] [0x62] [3],
        .createTraverse [0x61] [0x63] [7], .goTo .left 0 0, .goTo .right 1 0] _ :=
    .cons ⟨⟨by decide, by decide⟩, rfl⟩ (.cons ⟨⟨by decide, by decide⟩, rfl⟩ (.cons ⟨trivial, rfl⟩ (.cons ⟨trivial, rfl⟩
      (.cons ⟨trivial, rfl⟩ (.cons ⟨trivial, rfl⟩ .nil)))))
  exact ⟨_, hrun, (tables_apart_iff hrun).1⟩

/-- A tree created for the database `a.b` and the table `c` is found for the
database `a` and the table `b.c`, and an insert there grows it. -/
theorem tables_not_apart :
    ∃ s s', Runs (ofPartial Grove.step) init
        [.createTree [0x61, 0x2E, 0x62] [0x63] [5], .createTraverse [0x61] [0x62, 0x2E, 0x63] [3]] s ∧
      ¬ s.Named ∧ s.step (.goTo .left 0 0) = some s' ∧ ¬ s.Keeps (.goTo .left 0 0) s' := by
  refine ⟨_, _, .cons rfl (.cons rfl .nil), fun hn => ?_, rfl, fun hk => ?_⟩
  · have hcreated := (hn [0x61] [0x62, 0x2E, 0x63]).mp (by decide)
    revert hcreated
    decide
  · have htree := (hk [0x61, 0x2E, 0x62] [0x63] (by decide)).2.1
    revert htree
    decide

end Grove

end Zql
