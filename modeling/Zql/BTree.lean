/-
The order trees: nodes in the memory they are allocated in, the forest
that keeps one root for each table, and the traversals that walk from a
root to the place of a new value, a step for each answer of the client.

Nodes are never freed, so memory is the list of the nodes allocated so
far and an address is a place in it. A null pointer is `none`. Following
an address nothing was allocated at is `none` as a result.

`_pathLength` is an `int`: it is an integer here, with no wrap at 2^31.
A shift of the path by an amount outside 0..63 has no defined value in
the source; `undef` stands for whatever it leaves.
-/
import Zql.Objects
import Zql.Lib.SearchTree

namespace Zql

open Dyadic (Side)

abbrev Addr := Nat

structure BTreeNode where
  ciphertext : Ciphertext
  left : Option Addr
  right : Option Addr
  deriving DecidableEq

abbrev Heap := List BTreeNode

/-- `new BTreeNode()` with its ciphertext set. -/
def BTreeNode.new (ciphertext : Ciphertext) : BTreeNode := ⟨ciphertext, none, none⟩

def BTreeNode.child (node : BTreeNode) : Side → Option Addr
  | .left => node.left
  | .right => node.right

def BTreeNode.setChild (node : BTreeNode) (side : Side) (a : Addr) : BTreeNode :=
  match side with
  | .left => { node with left := some a }
  | .right => { node with right := some a }

/-! ## The forest -/

structure BTreeForest where
  forest : Std.ExtTreeMap Str Addr

/-- The key of a table's tree: `database + "." + table`. -/
def BTreeForest.id (database table : Str) : Str := database ++ [0x2E] ++ table

def BTreeForest.getTree (f : BTreeForest) (database table : Str) : Option Addr :=
  f.forest[BTreeForest.id database table]?

def BTreeForest.createTree (heap : Heap) (f : BTreeForest) (database table : Str) (ciphertext : Ciphertext) :
    Heap × BTreeForest :=
  (heap ++ [BTreeNode.new ciphertext], ⟨f.forest.insert (BTreeForest.id database table) heap.length⟩)

/-! ## Traversals -/

structure BTreeTraverse where
  ciphertext : Ciphertext
  current : Addr
  path : UInt64
  pathLength : Int
  requestAdd : Option RequestAdd

def BTreeTraverse.new (root : Addr) (ciphertext : Ciphertext) : BTreeTraverse :=
  { ciphertext, current := root, path := 0, pathLength := 0, requestAdd := none }

/-- `_path << 1`, and `(_path << 1) | 1` to the right. -/
def pathStep (side : Side) (path : UInt64) : UInt64 :=
  match side with
  | .left => path <<< 1
  | .right => path <<< 1 ||| 1

/-- `((path << 1) | 1) << (63 - pathLength)`. -/
def pathEnd (undef path : UInt64) (pathLength : Int) : UInt64 :=
  let amount := 63 - pathLength
  if 0 ≤ amount ∧ amount ≤ 63 then (path <<< 1 ||| 1) <<< UInt64.ofNat amount.toNat else undef

/-- A step of a traversal to one side: to the child there (`true`), or to
a node it creates there for its own ciphertext (`false`). -/
def BTreeTraverse.goTo (side : Side) (undef : UInt64) (heap : Heap) (t : BTreeTraverse) :
    Option (Heap × BTreeTraverse × Bool) :=
  let path := pathStep side t.path
  let pathLength := t.pathLength + 1
  match heap[t.current]? with
  | none => none
  | some node =>
    match node.child side with
    | some next => some (heap, { t with path, pathLength, current := next }, true)
    | none =>
      let newNode := heap.length
      some (heap.set t.current (node.setChild side newNode) ++ [BTreeNode.new t.ciphertext],
        { t with path := pathEnd undef path pathLength, pathLength, current := newNode }, false)

def BTreeTraverse.goToLeft (undef : UInt64) (heap : Heap) (t : BTreeTraverse) :
    Option (Heap × BTreeTraverse × Bool) :=
  t.goTo .left undef heap

def BTreeTraverse.goToRight (undef : UInt64) (heap : Heap) (t : BTreeTraverse) :
    Option (Heap × BTreeTraverse × Bool) :=
  t.goTo .right undef heap

def BTreeTraverse.value (heap : Heap) (t : BTreeTraverse) : Option Ciphertext :=
  heap[t.current]?.map (·.ciphertext)

/-! ## The traversals in progress -/

/-- `std::map<unsigned int, BTreeTraverse *>`: a key may hold a null pointer. -/
structure BTreeTraverseHolder where
  traverses : Std.ExtTreeMap UInt32 (Option BTreeTraverse)

/-- `_traverses[requestId]`: a missing key gets a null pointer. -/
def BTreeTraverseHolder.getTraverse (h : BTreeTraverseHolder) (requestId : UInt32) :
    BTreeTraverseHolder × Option BTreeTraverse :=
  match h.traverses[requestId]? with
  | some traverse => (h, traverse)
  | none => (⟨h.traverses.insert requestId none⟩, none)

/-- What a handler writes through the traversal's pointer. -/
def BTreeTraverseHolder.update (h : BTreeTraverseHolder) (requestId : UInt32) (t : BTreeTraverse) :
    BTreeTraverseHolder :=
  ⟨h.traverses.insert requestId (some t)⟩

def BTreeTraverseHolder.createTraverse (h : BTreeTraverseHolder) (requestId : UInt32) (root : Addr)
    (ciphertext : Ciphertext) : BTreeTraverseHolder × BTreeTraverse :=
  (h.update requestId (.new root ciphertext), .new root ciphertext)

/-- The entry is erased and its traversal deleted, with its request. (The
source reads the pointer from the erased entry.) -/
def BTreeTraverseHolder.removeTraverse (h : BTreeTraverseHolder) (requestId : UInt32) : BTreeTraverseHolder :=
  ⟨h.traverses.erase requestId⟩

theorem BTreeTraverseHolder.update_update (h : BTreeTraverseHolder) (requestId : UInt32) (t t' : BTreeTraverse) :
    (h.update requestId t).update requestId t' = h.update requestId t' := by
  simp only [BTreeTraverseHolder.update, BTreeTraverseHolder.mk.injEq]
  refine Std.ExtTreeMap.ext_getElem? fun k => ?_
  simp only [Std.ExtTreeMap.getElem?_insert]
  split <;> rfl

/-- A traversal that is found was stored, and looking it up stored nothing. -/
theorem BTreeTraverseHolder.getTraverse_some {h : BTreeTraverseHolder} {requestId : UInt32} {t : BTreeTraverse}
    (ht : (h.getTraverse requestId).2 = some t) :
    h.traverses[requestId]? = some (some t) ∧ (h.getTraverse requestId).1 = h := by
  unfold BTreeTraverseHolder.getTraverse at ht ⊢
  split at ht
  · next traverse hk =>
    obtain rfl : traverse = some t := ht
    rw [hk]
    exact ⟨rfl, rfl⟩
  · cases ht

theorem BTreeTraverseHolder.getTraverse_of_stored {h : BTreeTraverseHolder} {requestId : UInt32} {t : BTreeTraverse}
    (ht : h.traverses[requestId]? = some (some t)) : h.getTraverse requestId = (h, some t) := by
  simp only [BTreeTraverseHolder.getTraverse, ht]

/-! ## Lookups -/

theorem BTreeTraverseHolder.update_self (h : BTreeTraverseHolder) (requestId : UInt32) (t : BTreeTraverse) :
    (h.update requestId t).traverses[requestId]? = some (some t) := by
  simp [BTreeTraverseHolder.update]

theorem BTreeTraverseHolder.update_of_ne {h : BTreeTraverseHolder} {requestId k : UInt32} {t : BTreeTraverse}
    (hk : k ≠ requestId) : (h.update requestId t).traverses[k]? = h.traverses[k]? := by
  rw [BTreeTraverseHolder.update, getElem?_insert_if, if_neg hk]

theorem BTreeTraverseHolder.removeTraverse_self (h : BTreeTraverseHolder) (requestId : UInt32) :
    (h.removeTraverse requestId).traverses[requestId]? = none := by
  simp [BTreeTraverseHolder.removeTraverse]

theorem BTreeTraverseHolder.removeTraverse_of_ne {h : BTreeTraverseHolder} {requestId k : UInt32}
    (hk : k ≠ requestId) : (h.removeTraverse requestId).traverses[k]? = h.traverses[k]? := by
  rw [BTreeTraverseHolder.removeTraverse, Std.ExtTreeMap.getElem?_erase, if_neg]
  rw [Std.compare_eq_iff_eq]
  exact Ne.symm hk

theorem BTreeTraverseHolder.update_cases {h : BTreeTraverseHolder} {requestId k : UInt32} {t t' : BTreeTraverse}
    (ht : (h.update requestId t).traverses[k]? = some (some t')) :
    k = requestId ∧ t = t' ∨ k ≠ requestId ∧ h.traverses[k]? = some (some t') := by
  by_cases hk : k = requestId
  · rw [hk, BTreeTraverseHolder.update_self] at ht
    exact .inl ⟨hk, Option.some.inj (Option.some.inj ht)⟩
  · rw [BTreeTraverseHolder.update_of_ne hk] at ht
    exact .inr ⟨hk, ht⟩

theorem BTreeTraverseHolder.removeTraverse_cases {h : BTreeTraverseHolder} {requestId k : UInt32} {t : BTreeTraverse}
    (ht : (h.removeTraverse requestId).traverses[k]? = some (some t)) :
    k ≠ requestId ∧ h.traverses[k]? = some (some t) := by
  have hk : k ≠ requestId := by
    intro he
    rw [he, BTreeTraverseHolder.removeTraverse_self] at ht
    cases ht
  exact ⟨hk, by rw [← ht, BTreeTraverseHolder.removeTraverse_of_ne hk]⟩

theorem BTreeTraverseHolder.getTraverse_stored (h : BTreeTraverseHolder) (requestId k : UInt32)
    (t : BTreeTraverse) :
    (h.getTraverse requestId).1.traverses[k]? = some (some t) ↔ h.traverses[k]? = some (some t) := by
  unfold BTreeTraverseHolder.getTraverse
  split
  · rfl
  next hnone =>
  rw [getElem?_insert_if]
  split
  · next hk =>
    rw [hk, hnone]
    simp
  · rfl

/-! ## Steps -/

/-- A step that answers `true` went to the child there. -/
theorem BTreeTraverse.goTo_moved {side : Side} {undef : UInt64} {h h' : Heap} {t t' : BTreeTraverse}
    (hgo : t.goTo side undef h = some (h', t', true)) :
    h' = h ∧ ∃ node next, h[t.current]? = some node ∧ node.child side = some next ∧
      t' = { t with path := pathStep side t.path, pathLength := t.pathLength + 1, current := next } := by
  unfold BTreeTraverse.goTo at hgo
  split at hgo
  · cases hgo
  next node hnode =>
  split at hgo
  · next next hnext =>
    cases hgo
    exact ⟨rfl, node, next, hnode, hnext, rfl⟩
  · cases hgo

/-- A step that answers `false` created the child there. -/
theorem BTreeTraverse.goTo_ended {side : Side} {undef : UInt64} {h h' : Heap} {t t' : BTreeTraverse}
    (hgo : t.goTo side undef h = some (h', t', false)) :
    ∃ node, h[t.current]? = some node ∧ node.child side = none ∧
      h' = h.set t.current (node.setChild side h.length) ++ [BTreeNode.new t.ciphertext] ∧
      t' = { t with
        path := pathEnd undef (pathStep side t.path) (t.pathLength + 1)
        pathLength := t.pathLength + 1
        current := h.length } := by
  unfold BTreeTraverse.goTo at hgo
  split at hgo
  · cases hgo
  next node hnode =>
  split at hgo
  · cases hgo
  · next hnext =>
    cases hgo
    exact ⟨node, hnode, hnext, rfl, rfl⟩

end Zql
