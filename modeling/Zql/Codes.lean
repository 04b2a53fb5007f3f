/-
The codes nodes get. A forest grows by `createTree` and by traversals, any
number of them at a time, each taking one step when its turn comes; the
root of a tree has the code 2^63 and every other node the path of the
traversal that created it, as it stands right after the step that did.

A node's code is the code of its position, so the codes of a tree are in
order however the traversals that made them took turns, and a node that
comes later finds room between the codes already given out.

The codes and the number of steps a traversal has taken are not in the
source; they are kept beside it to say this.
-/
import Zql.Traverse
import Zql.Lib.Runs

namespace Zql

open Dyadic SearchTree Transition

/-- A traversal somebody drives: the steps it has taken, and whether one
of them has answered `false`. -/
structure Walker where
  traverse : BTreeTraverse
  calls : Nat
  done : Bool

structure Numbered where
  heap : Heap
  forest : BTreeForest
  walkers : List Walker
  codes : List UInt64

namespace Numbered

def init : Numbered := ⟨[], ⟨∅⟩, [], []⟩

/-- The code of the node at an address. -/
def code (s : Numbered) (a : Addr) : UInt64 := (s.codes[a]?).getD 0

inductive Act
  | createTree (database table : Str) (ciphertext : Ciphertext)
  /-- A new traversal from the root of a table's tree. -/
  | start (database table : Str) (ciphertext : Ciphertext)
  | goToLeft (k : Nat) (undef : UInt64)
  | goToRight (k : Nat) (undef : UInt64)

/-- A turn of the `k`th traversal: `go` is its next step. A traversal ends
with its first `false`, and takes no more than 63 steps. -/
def turn (s : Numbered) (k : Nat) (go : Heap → BTreeTraverse → Option (Heap × BTreeTraverse × Bool)) :
    Option Numbered :=
  match s.walkers[k]? with
  | none => none
  | some w =>
    if w.done ∨ 63 ≤ w.calls then none
    else match go s.heap w.traverse with
      | none => none
      | some (heap, t, true) => some { s with heap, walkers := s.walkers.set k ⟨t, w.calls + 1, false⟩ }
      | some (heap, t, false) =>
        some { s with heap, walkers := s.walkers.set k ⟨t, w.calls + 1, true⟩, codes := s.codes ++ [t.path] }

def step (s : Numbered) : Act → Option Numbered
  | .createTree database table ciphertext =>
    let (heap, forest) := BTreeForest.createTree s.heap s.forest database table ciphertext
    some { s with heap, forest, codes := s.codes ++ [9223372036854775808] }
  | .start database table ciphertext =>
    (s.forest.getTree database table).map fun root =>
      { s with walkers := s.walkers ++ [⟨.new root ciphertext, 0, false⟩] }
  | .goToLeft k undef => s.turn k fun heap t => t.goToLeft undef heap
  | .goToRight k undef => s.turn k fun heap t => t.goToRight undef heap

/-- The forest in memory, the traversals on their way at their positions,
and every code the code of its position. -/
structure Valid (s : Numbered) (ts : List (BinaryTree Addr)) : Prop where
  forest : Forest s.heap ts
  roots : ∀ (key : Str) (root : Addr), s.forest.forest[key]? = some root → At ts root []
  walking : ∀ w ∈ s.walkers, w.done = false → ∃ ds, ds.length = w.calls ∧ Walking ts w.traverse ds
  coding : Coding s.codes s.heap ts

theorem Valid.init : Valid init [] :=
  ⟨Forest.nil, fun _ _ h => by simp [Numbered.init] at h, fun _ hw => by simp [Numbered.init] at hw, Coding.nil⟩

/-- What a turn does, from a state of the invariant: the traversal moves
on, or it ends and its node is grown and numbered. -/
theorem turn_cases {s s' : Numbered} {ts : List (BinaryTree Addr)} {k : Nat} {side : Side} {undef : UInt64}
    (hi : Valid s ts) (h : s.turn k (fun heap t => t.goTo side undef heap) = some s') :
    ∃ w ds, s.walkers[k]? = some w ∧ w.done = false ∧ ds.length = w.calls ∧ w.calls < 63 ∧
      Walking ts w.traverse ds ∧
      ((∃ t', Walking ts t' (ds ++ [side]) ∧
          s' = { s with walkers := s.walkers.set k ⟨t', w.calls + 1, false⟩ }) ∨
       (∃ pre u post heap' t', ts = pre ++ u :: post ∧ label? u ds = some w.traverse.current ∧
          Slot u (ds ++ [side]) ∧ Grown s.heap heap' w.traverse.ciphertext ∧
          Forest heap' (pre ++ graft s.heap.length u (ds ++ [side]) :: post) ∧
          s' = { s with
            heap := heap'
            walkers := s.walkers.set k ⟨t', w.calls + 1, true⟩
            codes := s.codes ++ [UInt64.ofNat (Dyadic.code 63 (ds ++ [side]))] })) := by
  unfold turn at h
  split at h
  · cases h
  next w hw =>
  split at h
  · cases h
  next hgo =>
  simp only [not_or, Bool.not_eq_true, Nat.not_le] at hgo
  obtain ⟨hdone, hcalls⟩ := hgo
  obtain ⟨ds, hds, hwalk⟩ := hi.walking w (List.mem_of_getElem? hw) hdone
  refine ⟨w, ds, hw, hdone, hds, hcalls, hwalk, ?_⟩
  rcases goTo_cases hi.forest hwalk side undef with ⟨t', ht, hwalk', -, -⟩ |
    ⟨pre, u, post, heap', t', hts, hl, hslot, ht, hg, hf, -, -, -, -, hp⟩
  · simp only [ht] at h
    exact .inl ⟨t', hwalk', by simpa using h.symm⟩
  · simp only [ht] at h
    have hlen : (ds ++ [side]).length ≤ 63 := by simp; omega
    rw [pathEnd_code hlen] at hp
    exact .inr ⟨pre, u, post, heap', t', hts, hl, hslot, hg, hf, by simpa [hp] using h.symm⟩

theorem walking_set {s : Numbered} {ts : List (BinaryTree Addr)} {k : Nat} {w₀ w : Walker}
    (hi : ∀ w ∈ s.walkers, w.done = false → ∃ ds, ds.length = w.calls ∧ Walking ts w.traverse ds)
    (h₀ : w₀.done = false → ∃ ds, ds.length = w₀.calls ∧ Walking ts w₀.traverse ds)
    (hw : w ∈ s.walkers.set k w₀) (hd : w.done = false) : ∃ ds, ds.length = w.calls ∧ Walking ts w.traverse ds := by
  rcases List.mem_or_eq_of_mem_set hw with hm | rfl
  · exact hi w hm hd
  · exact h₀ hd

/-- The state after extends the one before: trees, and codes given out. -/
def Later (s s' : Numbered) (ts ts' : List (BinaryTree Addr)) : Prop :=
  Extends ts ts' ∧ s.heap.length ≤ s'.heap.length ∧ ∀ a < s.heap.length, s'.code a = s.code a

theorem Valid.code_old {s : Numbered} {ts : List (BinaryTree Addr)} (hi : Valid s ts) (c : UInt64) {a : Addr}
    (ha : a < s.heap.length) : ((s.codes ++ [c])[a]?).getD 0 = s.code a := by
  rw [getElem?_snoc_old (by rw [hi.coding.length]; exact ha)]
  rfl

theorem Valid.turn {s s' : Numbered} {ts : List (BinaryTree Addr)} {k : Nat} {side : Side} {undef : UInt64}
    (hi : Valid s ts) (h : s.turn k (fun heap t => t.goTo side undef heap) = some s') :
    ∃ ts', Valid s' ts' ∧ Later s s' ts ts' := by
  obtain ⟨w, ds, hw, hd, hds, hc, hwalk, hcase⟩ := turn_cases hi h
  rcases hcase with ⟨t', hwalk', rfl⟩ | ⟨pre, u, post, heap', t', rfl, hl, hslot, hg, hf, rfl⟩
  · refine ⟨ts, ⟨hi.forest, hi.roots, fun w' hw' hd' => ?_, hi.coding⟩,
      .of_subset (List.Subset.refl _), Nat.le_refl _, fun _ _ => rfl⟩
    exact walking_set hi.walking (fun _ => ⟨ds ++ [side], by simp [hds], hwalk'⟩) hw' hd'
  · have he : Extends (pre ++ u :: post) (pre ++ graft s.heap.length u (ds ++ [side]) :: post) :=
      Extends.graft hslot s.heap.length
    have hlen : (ds ++ [side]).length ≤ 63 := by simp; omega
    refine ⟨_, ⟨hf, fun key root hr => (hi.roots key root hr).extends he, fun w' hw' hd' => ?_,
      hi.coding.graft hi.forest hg hslot hlen⟩, he, by rw [hg.length]; omega, fun a ha => hi.code_old _ ha⟩
    obtain ⟨es, hes, hwe⟩ := walking_set hi.walking (by simp) hw' hd'
    exact ⟨es, hes, hwe.extends he⟩

theorem Valid.step {s s' : Numbered} {ts : List (BinaryTree Addr)} {a : Act} (hi : Valid s ts)
    (h : s.step a = some s') : ∃ ts', Valid s' ts' ∧ Later s s' ts ts' := by
  cases a with
  | createTree database table ciphertext =>
    obtain rfl := Option.some.inj h
    have he : Extends ts (leaf s.heap.length :: ts) := .of_subset (List.subset_cons_self _ _)
    refine ⟨leaf s.heap.length :: ts, ⟨hi.forest.create ciphertext, at_root_insert hi.roots _ _, fun w hw hd => ?_,
      hi.coding.create hi.forest ciphertext⟩, he, by simp, fun a ha => hi.code_old _ ha⟩
    obtain ⟨ds, hds, hwalk⟩ := hi.walking w hw hd
    exact ⟨ds, hds, hwalk.extends he⟩
  | start database table ciphertext =>
    simp only [Numbered.step, Option.map_eq_some_iff] at h
    obtain ⟨root, hroot, rfl⟩ := h
    refine ⟨ts, ⟨hi.forest, hi.roots, fun w hw hd => ?_, hi.coding⟩,
      .of_subset (List.Subset.refl _), Nat.le_refl _, fun _ _ => rfl⟩
    rcases List.mem_append.mp hw with hw | hw
    · exact hi.walking w hw hd
    · obtain rfl := List.mem_singleton.mp hw
      exact ⟨[], rfl, hi.roots _ root hroot, rfl, rfl⟩
  | goToLeft k undef => exact hi.turn h
  | goToRight k undef => exact hi.turn h

theorem Valid.runs {s₀ s : Numbered} {as : List Act} (h : Runs (ofPartial Numbered.step) s₀ as s)
    (h₀ : ∃ ts, Valid s₀ ts) : ∃ ts, Valid s ts :=
  h.invariant (I := fun s => ∃ ts, Valid s ts) (fun _ _ _ ⟨_, hi⟩ hs => (hi.step hs).imp fun _ h => h.1) h₀

/-- Whatever comes later keeps the codes given out, and the nodes of every
tree in the order it had them. -/
theorem Valid.kept {s s' : Numbered} {as : List Act} (h : Runs (ofPartial Numbered.step) s as s')
    (h₀ : ∃ ts, Valid s ts) : ∀ a < s.heap.length, s'.code a = s.code a ∧
      (inorder (s.heap.tree (some a))).Sublist (inorder (s'.heap.tree (some a))) := by
  refine And.right (h.monotone (I := fun s => ∃ ts, Valid s ts)
    (R := fun s s' => s.heap.length ≤ s'.heap.length ∧ ∀ a < s.heap.length, s'.code a = s.code a ∧
      (inorder (s.heap.tree (some a))).Sublist (inorder (s'.heap.tree (some a))))
    ?_ (fun s => ⟨Nat.le_refl _, fun _ _ => ⟨rfl, .refl _⟩⟩) ?_ ?_ h₀)
  · intro s a s' ⟨ts, hi⟩ hs
    obtain ⟨ts', hi', -⟩ := hi.step hs
    exact ⟨ts', hi'⟩
  · intro s s' s'' h₁ h₂
    refine ⟨h₁.1.trans h₂.1, fun a ha => ?_⟩
    obtain ⟨hc₁, hs₁⟩ := h₁.2 a ha
    obtain ⟨hc₂, hs₂⟩ := h₂.2 a (Nat.lt_of_lt_of_le ha h₁.1)
    exact ⟨hc₂.trans hc₁, hs₁.trans hs₂⟩
  · intro s a s' ⟨ts, hi⟩ hs
    obtain ⟨ts', hi', he, hlen, hcode⟩ := hi.step hs
    exact ⟨hlen, fun a ha => ⟨hcode a ha, hi.forest.tree_extends hi'.forest he ha⟩⟩

/-- **Codes are in the order of the tree.** In every state a forest and its
traversals reach, every node heads a tree in which all codes to its left
are smaller and all to its right larger, so that the codes of the tree in
order strictly increase and none is zero; and whatever comes later keeps
the codes given out, and their nodes in the same order. -/
theorem codes_in_order {s : Numbered} {as : List Act} (h : Runs (ofPartial step) init as s) :
    (∀ database table root, s.forest.getTree database table = some root → root < s.heap.length) ∧
    (∀ a < s.heap.length, ∃ l r, s.heap.tree (some a) = .node a l r ∧
      (∀ b ∈ inorder l, s.code b < s.code a) ∧ (∀ b ∈ inorder r, s.code a < s.code b) ∧
      ((inorder (s.heap.tree (some a))).map s.code).Pairwise (· < ·) ∧
      ∀ b ∈ inorder (s.heap.tree (some a)), s.code b ≠ 0) ∧
    (∀ as' s', Runs (ofPartial step) s as' s' → ∀ a < s.heap.length, s'.code a = s.code a ∧
      (inorder (s.heap.tree (some a))).Sublist (inorder (s'.heap.tree (some a)))) := by
  obtain ⟨ts, hi⟩ := Valid.runs h ⟨_, Valid.init⟩
  refine ⟨fun database table root hr => hi.forest.lt_length (hi.roots _ root hr), fun a ha => ?_, ?_⟩
  · obtain ⟨ds, t, ht, hl⟩ := hi.forest.at_of_lt ha
    have htree := hi.forest.tree_at ht hl
    have hsub := inorder_subtree_sublist t ds
    have hord : (inorder (subtree t ds)).Pairwise fun a b => s.code a < s.code b := (hi.coding.ordered ht).sublist hsub
    have hnz : ∀ b ∈ inorder (subtree t ds), s.code b ≠ 0 := by
      intro b hb
      obtain ⟨es, hes⟩ := mem_inorder_iff.mp (hsub.subset hb)
      obtain ⟨h63, hcode⟩ := hi.coding.code b es ⟨t, ht, hes⟩
      rw [code, hcode, Option.getD_some]
      intro h0
      have := congrArg UInt64.toNat h0
      rw [code_toNat h63] at this
      exact absurd this (Nat.ne_of_gt (code_pos 63 es))
    rw [htree]
    unfold label? at hl
    cases hu : subtree t ds with
    | nil => rw [hu] at hl; cases hl
    | node b l r =>
      rw [hu] at hl hord hnz
      obtain rfl : b = a := by simpa using hl
      refine ⟨l, r, rfl, ?_, ?_, List.pairwise_map.mpr hord, hnz⟩
      · simp only [inorder, List.pairwise_append, List.mem_cons] at hord
        exact fun c hc => hord.2.2 c hc b (.inl rfl)
      · simp only [inorder, List.pairwise_append, List.pairwise_cons] at hord
        exact hord.2.1.1
  · intro as' s' hr
    exact Valid.kept hr ⟨ts, hi⟩

/-- A root and a node to its left. -/
theorem codes_in_order_pair : ∃ s, Runs (ofPartial step) init
    [.createTree [1] [2] [7], .start [1] [2] [8], .goToLeft 0 0] s ∧
    ∀ a < s.heap.length, ∃ l r, s.heap.tree (some a) = .node a l r ∧
      (∀ b ∈ inorder l, s.code b < s.code a) ∧ (∀ b ∈ inorder r, s.code a < s.code b) ∧
      ((inorder (s.heap.tree (some a))).map s.code).Pairwise (· < ·) ∧
      ∀ b ∈ inorder (s.heap.tree (some a)), s.code b ≠ 0 :=
  have hrun : Runs (ofPartial step) init
      [.createTree [1] [2] [7], .start [1] [2] [8], .goToLeft 0 0] _ := .cons rfl (.cons rfl (.cons rfl .nil))
  ⟨_, hrun, (codes_in_order hrun).2.1⟩

end Numbered

end Zql
