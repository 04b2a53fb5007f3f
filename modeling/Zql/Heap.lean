/-
The trees in memory. `IsTree h t` says the nodes of `t` are laid out in
memory `h`, each label the address of its node; `Forest h ts` says memory
holds exactly the trees `ts`, no node in two places.

Memory only grows, and a tree only changes where a leaf is hung on it
(`Forest.create`, `Forest.grow`); every other tree is as it was.
-/
import Zql.BTree

namespace Zql

open Dyadic SearchTree

/-- The tree at a pointer, to a depth of `n` nodes. -/
def Heap.treeTo (h : Heap) : Nat → Option Addr → BinaryTree Addr
  | 0, _ => .nil
  | _, none => .nil
  | n + 1, some a =>
    match h[a]? with
    | none => .nil
    | some node => .node a (Heap.treeTo h n node.left) (Heap.treeTo h n node.right)

/-- The tree at a pointer: no branch is longer than memory. -/
def Heap.tree (h : Heap) (p : Option Addr) : BinaryTree Addr := h.treeTo h.length p

/-- The ciphertext of the node at an address. -/
def Heap.value (h : Heap) (a : Addr) : Ciphertext := (h[a]?.map (·.ciphertext)).getD []

def IsTree (h : Heap) : BinaryTree Addr → Prop
  | .nil => True
  | .node a l r =>
    (∃ node, h[a]? = some node ∧ node.left = root? l ∧ node.right = root? r) ∧ IsTree h l ∧ IsTree h r

/-- Memory holds the trees `ts` and nothing else, disjoint from each other. -/
structure Forest (h : Heap) (ts : List (BinaryTree Addr)) : Prop where
  laid : ∀ t ∈ ts, IsTree h t
  nodup : (ts.flatMap inorder).Nodup
  cover : ∀ a < h.length, a ∈ ts.flatMap inorder

/-- The address sits at this position of one of the trees. -/
def At (ts : List (BinaryTree Addr)) (a : Addr) (ds : Position) : Prop := ∃ t ∈ ts, label? t ds = some a

/-! ## Layout -/

theorem IsTree.subtree {h : Heap} : ∀ {t : BinaryTree Addr} (ds : Position), IsTree h t → IsTree h (subtree t ds)
  | _, [], ht => ht
  | .nil, _ :: _, _ => by rw [subtree_nil]; exact ht_nil
  | .node _ _ _, .left :: ds, ht => IsTree.subtree ds ht.2.1
  | .node _ _ _, .right :: ds, ht => IsTree.subtree ds ht.2.2
where
  ht_nil {h : Heap} : IsTree h .nil := trivial

theorem IsTree.lt_length {h : Heap} {t : BinaryTree Addr} (ht : IsTree h t) {a : Addr} (ha : a ∈ inorder t) :
    a < h.length := by
  induction t with
  | nil => cases ha
  | node b l r ihl ihr =>
    obtain ⟨⟨node, hb, -, -⟩, hl, hr⟩ := ht
    simp only [inorder, List.mem_append, List.mem_cons] at ha
    rcases ha with ha | rfl | ha
    · exact ihl hl ha
    · exact (List.getElem?_eq_some_iff.mp hb).1
    · exact ihr hr ha

theorem IsTree.child {h : Heap} {t : BinaryTree Addr} {ds : Position} {a : Addr} (ht : IsTree h t)
    (ha : label? t ds = some a) :
    ∃ node, h[a]? = some node ∧ ∀ d, node.child d = label? t (ds ++ [d]) := by
  have hs := ht.subtree ds
  unfold label? at ha
  cases hu : SearchTree.subtree t ds with
  | nil => rw [hu] at ha; cases ha
  | node b l r =>
    rw [hu] at hs ha
    obtain rfl : b = a := by simpa using ha
    obtain ⟨⟨node, hb, hl, hr⟩, -, -⟩ := hs
    refine ⟨node, hb, fun d => ?_⟩
    rw [label?, subtree_snoc, hu]
    cases d
    · exact hl
    · exact hr

theorem IsTree.height_le {h : Heap} {t : BinaryTree Addr} (ht : IsTree h t) (hn : (inorder t).Nodup) :
    t.height ≤ h.length := by
  have hlen : ∀ u : BinaryTree Addr, (inorder u).length = u.numNodes := by
    intro u
    induction u with
    | nil => rfl
    | node _ l r ihl ihr => simp only [inorder, List.length_append, List.length_cons, ihl, ihr,
        BinaryTree.numNodes]; omega
  have hsub : (inorder t).Subperm (List.range h.length) :=
    hn.subperm fun a ha => List.mem_range.mpr (ht.lt_length ha)
  have := hsub.length_le
  rw [hlen, List.length_range] at this
  exact t.height_le_numNodes.trans this

theorem IsTree.treeTo {h : Heap} {t : BinaryTree Addr} {n : Nat} (ht : IsTree h t) (hn : t.height ≤ n) :
    h.treeTo n (root? t) = t := by
  induction t generalizing n with
  | nil => cases n <;> rfl
  | node a l r ihl ihr =>
    obtain ⟨⟨node, ha, hl, hr⟩, htl, htr⟩ := ht
    simp only [BinaryTree.height] at hn
    obtain ⟨n, rfl⟩ : ∃ m, n = m + 1 := ⟨n - 1, by omega⟩
    simp only [root?_node, Heap.treeTo, ha, hl, hr]
    rw [ihl htl (by omega), ihr htr (by omega)]

theorem IsTree.tree {h : Heap} {t : BinaryTree Addr} (ht : IsTree h t) (hn : (inorder t).Nodup) :
    h.tree (root? t) = t :=
  ht.treeTo (ht.height_le hn)

/-- A node that does not sit in the tree may change, and memory may grow. -/
theorem IsTree.frame {h : Heap} {t : BinaryTree Addr} {a : Addr} {x y : BTreeNode} (ht : IsTree h t)
    (ha : a ∉ inorder t) : IsTree (h.set a x ++ [y]) t := by
  induction t with
  | nil => trivial
  | node b l r ihl ihr =>
    simp only [inorder, List.mem_append, List.mem_cons, not_or] at ha
    obtain ⟨⟨node, hb, hl, hr⟩, htl, htr⟩ := ht
    refine ⟨⟨node, ?_, hl, hr⟩, ihl htl ha.1, ihr htr ha.2.2⟩
    have hlt := (List.getElem?_eq_some_iff.mp hb).1
    rw [List.getElem?_append_left (by simpa using hlt), List.getElem?_set_ne ha.2.1, hb]

theorem IsTree.grow_new {h : Heap} {t : BinaryTree Addr} {x : BTreeNode} (ht : IsTree h t) :
    IsTree (h ++ [x]) t := by
  induction t with
  | nil => trivial
  | node b l r ihl ihr =>
    obtain ⟨⟨node, hb, hl, hr⟩, htl, htr⟩ := ht
    have hlt := (List.getElem?_eq_some_iff.mp hb).1
    exact ⟨⟨node, by rw [List.getElem?_append_left hlt, hb], hl, hr⟩, ihl htl, ihr htr⟩

/-- Hanging a new node under the node at a position grows the leaf there. -/
theorem IsTree.graft {h : Heap} {t : BinaryTree Addr} {ds : Position} {d : Side} {a : Addr} {node : BTreeNode}
    {ciphertext : Ciphertext} (ht : IsTree h t) (hn : (inorder t).Nodup) (ha : label? t ds = some a)
    (hnode : h[a]? = some node) (hfree : label? t (ds ++ [d]) = none) :
    IsTree (h.set a (node.setChild d h.length) ++ [BTreeNode.new ciphertext]) (graft h.length t (ds ++ [d])) := by
  have hlt := (List.getElem?_eq_some_iff.mp hnode).1
  have hnew : (h.set a (node.setChild d h.length) ++ [BTreeNode.new ciphertext])[h.length]? =
      some (BTreeNode.new ciphertext) := by
    simp
  induction t generalizing ds with
  | nil => simp at ha
  | node b l r ihl ihr =>
    obtain ⟨⟨nodeb, hb, hl, hr⟩, htl, htr⟩ := ht
    simp only [inorder, List.nodup_append, List.nodup_cons, List.mem_cons] at hn
    obtain ⟨hnl, ⟨hbr, hnr⟩, hdisj⟩ := hn
    rcases ds with _ | ⟨e, ds⟩
    · obtain rfl : b = a := by simpa using ha
      obtain rfl : nodeb = node := Option.some.inj (hb.symm.trans hnode)
      have hbl : b ∉ inorder l := fun hm => hdisj b hm b (.inl rfl) rfl
      have hset : (h.set b (nodeb.setChild d h.length) ++ [BTreeNode.new ciphertext])[b]? =
          some (nodeb.setChild d h.length) := by
        rw [List.getElem?_append_left (by simpa using hlt), List.getElem?_set_self hlt]
      cases d
      · obtain rfl : l = .nil := root?_eq_none.mp hfree
        exact ⟨⟨_, hset, rfl, hr⟩, ⟨⟨_, hnew, rfl, rfl⟩, trivial, trivial⟩, htr.frame hbr⟩
      · obtain rfl : r = .nil := root?_eq_none.mp hfree
        exact ⟨⟨_, hset, hl, rfl⟩, htl.frame hbl, ⟨⟨_, hnew, rfl, rfl⟩, trivial, trivial⟩⟩
    · have keep : a ≠ b → (h.set a (node.setChild d h.length) ++ [BTreeNode.new ciphertext])[b]? = some nodeb := by
        intro hab
        have hblt := (List.getElem?_eq_some_iff.mp hb).1
        rw [List.getElem?_append_left (by simpa using hblt), List.getElem?_set_ne hab, hb]
      have hroot : ∀ u es, label? u es = some a →
          root? (SearchTree.graft h.length u (es ++ [d])) = root? u := by
        intro u es hu
        cases u with
        | nil => simp at hu
        | node c _ _ => rcases es with _ | ⟨_ | _, es⟩ <;> cases d <;> rfl
      cases e
      · have hal : a ∈ inorder l := mem_inorder_iff.mpr ⟨ds, ha⟩
        have hab : a ≠ b := hdisj a hal b (.inl rfl)
        have har : a ∉ inorder r := fun hm => hdisj a hal a (.inr hm) rfl
        exact ⟨⟨nodeb, keep hab, by rw [hl]; exact (hroot l ds ha).symm, hr⟩, ihl htl hnl ha hfree, htr.frame har⟩
      · have har : a ∈ inorder r := mem_inorder_iff.mpr ⟨ds, ha⟩
        have hab : a ≠ b := fun he => hbr (he ▸ har)
        have hal : a ∉ inorder l := fun hm => hdisj a hm a (.inr har) rfl
        exact ⟨⟨nodeb, keep hab, hl, by rw [hr]; exact (hroot r ds ha).symm⟩, htl.frame hal, ihr htr hnr ha hfree⟩

/-! ## Forests -/

theorem Forest.nil : Forest [] [] := ⟨by simp, by simp, by simp⟩

theorem Forest.tree_nodup {h : Heap} {ts : List (BinaryTree Addr)} (hf : Forest h ts) {t : BinaryTree Addr}
    (ht : t ∈ ts) : (inorder t).Nodup :=
  (List.nodup_flatMap.mp hf.nodup).1 t ht

theorem Forest.tree {h : Heap} {ts : List (BinaryTree Addr)} (hf : Forest h ts) {t : BinaryTree Addr}
    (ht : t ∈ ts) : h.tree (root? t) = t :=
  (hf.laid t ht).tree (hf.tree_nodup ht)

theorem Forest.tree_at {h : Heap} {ts : List (BinaryTree Addr)} (hf : Forest h ts) {t : BinaryTree Addr}
    (ht : t ∈ ts) {ds : Position} {a : Addr} (ha : label? t ds = some a) :
    h.tree (some a) = subtree t ds := by
  rw [← ha]
  exact ((hf.laid t ht).subtree ds).tree ((hf.tree_nodup ht).sublist (inorder_subtree_sublist t ds))

theorem Forest.lt_length {h : Heap} {ts : List (BinaryTree Addr)} (hf : Forest h ts) {a : Addr} {ds : Position}
    (ha : At ts a ds) : a < h.length := by
  obtain ⟨t, ht, hl⟩ := ha
  exact (hf.laid t ht).lt_length (mem_inorder_iff.mpr ⟨ds, hl⟩)

theorem Forest.at_of_lt {h : Heap} {ts : List (BinaryTree Addr)} (hf : Forest h ts) {a : Addr}
    (ha : a < h.length) : ∃ ds, At ts a ds := by
  obtain ⟨t, ht, hm⟩ := List.mem_flatMap.mp (hf.cover a ha)
  obtain ⟨ds, hl⟩ := mem_inorder_iff.mp hm
  exact ⟨ds, t, ht, hl⟩

theorem Forest.create {h : Heap} {ts : List (BinaryTree Addr)} (hf : Forest h ts) (ciphertext : Ciphertext) :
    Forest (h ++ [BTreeNode.new ciphertext]) (leaf h.length :: ts) := by
  refine ⟨fun t ht => ?_, ?_, fun a ha => ?_⟩
  · rcases List.mem_cons.mp ht with rfl | ht
    · exact ⟨⟨BTreeNode.new ciphertext, by simp, rfl, rfl⟩, trivial, trivial⟩
    · exact (hf.laid t ht).grow_new
  · rw [List.flatMap_cons]
    refine List.nodup_cons.mpr ⟨fun hm => ?_, hf.nodup⟩
    obtain ⟨t, ht, hm⟩ := List.mem_flatMap.mp hm
    exact Nat.lt_irrefl _ ((hf.laid t ht).lt_length hm)
  · rw [List.length_append, List.length_singleton] at ha
    rw [List.flatMap_cons]
    rcases Nat.lt_or_ge a h.length with hlt | hge
    · exact List.mem_cons_of_mem _ (hf.cover a hlt)
    · obtain rfl : a = h.length := by omega
      exact List.mem_cons_self

/-- A leaf grown in one tree; the others are as they were. -/
theorem Forest.grow {h : Heap} {pre post : List (BinaryTree Addr)} {t : BinaryTree Addr} {ds : Position} {d : Side}
    {a : Addr} {node : BTreeNode} {ciphertext : Ciphertext} (hf : Forest h (pre ++ t :: post))
    (ha : label? t ds = some a) (hnode : h[a]? = some node) (hfree : label? t (ds ++ [d]) = none) :
    Forest (h.set a (node.setChild d h.length) ++ [BTreeNode.new ciphertext])
      (pre ++ graft h.length t (ds ++ [d]) :: post) := by
  have hslot : Slot t (ds ++ [d]) := slot_of_open ha (label?_eq_none.mp hfree)
  have hperm : ((pre ++ graft h.length t (ds ++ [d]) :: post).flatMap inorder).Perm
      (h.length :: (pre ++ t :: post).flatMap inorder) := by
    simp only [List.flatMap_append, List.flatMap_cons]
    refine (((inorder_graft_perm hslot).append_right _).append_left _).trans ?_
    exact List.perm_middle
  have hmem : t ∈ pre ++ t :: post := by simp
  have hat : a ∈ inorder t := mem_inorder_iff.mpr ⟨ds, ha⟩
  refine ⟨fun u hu => ?_, ?_, fun b hb => ?_⟩
  · have hother : u ∈ pre ++ post → a ∉ inorder u := by
      intro hu hm
      have hn := hf.nodup
      have hpm : ((pre ++ t :: post).flatMap inorder).Perm (inorder t ++ (pre ++ post).flatMap inorder) := by
        rw [← List.flatMap_cons]
        exact List.perm_middle.flatMap_right _
      have := (List.nodup_append.mp (hpm.nodup_iff.mp hn)).2.2
      exact this a hat a (List.mem_flatMap.mpr ⟨u, hu, hm⟩) rfl
    rw [List.mem_append, List.mem_cons] at hu
    rcases hu with hu | rfl | hu
    · exact (hf.laid u (by simp [hu])).frame (hother (by simp [hu]))
    · exact (hf.laid t hmem).graft (hf.tree_nodup hmem) ha hnode hfree
    · exact (hf.laid u (by simp [hu])).frame (hother (by simp [hu]))
  · rw [hperm.nodup_iff]
    refine List.nodup_cons.mpr ⟨fun hm => ?_, hf.nodup⟩
    obtain ⟨u, hu, hm⟩ := List.mem_flatMap.mp hm
    exact Nat.lt_irrefl _ ((hf.laid u hu).lt_length hm)
  · rw [hperm.mem_iff]
    rw [List.length_append, List.length_set, List.length_singleton] at hb
    rcases Nat.lt_or_ge b h.length with hlt | hge
    · exact List.mem_cons_of_mem _ (hf.cover b hlt)
    · obtain rfl : b = h.length := by omega
      exact List.mem_cons_self

end Zql
