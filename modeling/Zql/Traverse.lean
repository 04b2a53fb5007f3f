/-
What a traversal does. Its path is the position it has reached, read as a
binary number; the code it ends with is the code of the position of the
node it creates, as long as that has at most 63 sides. A step moves to the
child there is, or grows a leaf at the free position it was sent to
(`goTo_cases`).
-/
import Zql.Heap

namespace Zql

open Dyadic SearchTree

/-! ## Paths -/

theorem shiftLeft_one (x : UInt64) : (x <<< 1).toNat = 2 * x.toNat % 2 ^ 64 := by
  rw [UInt64.toNat_shiftLeft]
  show x.toNat <<< (1 % 64) % 2 ^ 64 = _
  rw [Nat.shiftLeft_eq, Nat.mul_comm]

theorem shiftLeft_one_or (x : UInt64) : (x <<< 1 ||| 1).toNat = (2 * x.toNat + 1) % 2 ^ 64 := by
  have heven : (x <<< 1).toNat = 2 * (x.toNat % 2 ^ 63) := by rw [shiftLeft_one]; omega
  have hor : 2 * (x.toNat % 2 ^ 63) ||| 1 = 2 * (x.toNat % 2 ^ 63) + 1 := by
    have := Nat.two_pow_add_eq_or_of_lt (i := 1) (b := 1) (by omega) (x.toNat % 2 ^ 63)
    simpa using this.symm
  rw [UInt64.toNat_or, heven]
  show 2 * (x.toNat % 2 ^ 63) ||| 1 = _
  rw [hor]
  omega

theorem pathStep_bits (side : Side) (ds : Position) :
    pathStep side (UInt64.ofNat (bits ds)) = UInt64.ofNat (bits (ds ++ [side])) := by
  apply UInt64.toNat_inj.mp
  rw [bits_snoc]
  cases side
  · rw [pathStep, shiftLeft_one, UInt64.toNat_ofNat', UInt64.toNat_ofNat']
    simp only [Side.bit]
    omega
  · rw [pathStep, shiftLeft_one_or, UInt64.toNat_ofNat', UInt64.toNat_ofNat']
    simp only [Side.bit]
    omega

/-- The last shift stays within its 64 bits and loses none of the path. -/
theorem pathEnd_toNat {undef : UInt64} {ds : Position} (h : ds.length ≤ 63) :
    (pathEnd undef (UInt64.ofNat (bits ds)) ds.length).toNat = code 63 ds := by
  have hlt := code_lt h
  have hbits := bits_lt ds
  have hb : bits ds < 2 ^ 63 := Nat.lt_of_lt_of_le hbits (Nat.pow_le_pow_right (by omega) h)
  have hamount : (63 - (ds.length : Int)).toNat = 63 - ds.length := by omega
  have hshift : (UInt64.ofNat (63 - ds.length)).toNat = 63 - ds.length := by
    rw [UInt64.toNat_ofNat']; omega
  unfold pathEnd
  rw [if_pos ⟨by omega, by omega⟩, hamount, UInt64.toNat_shiftLeft, hshift, shiftLeft_one_or,
    UInt64.toNat_ofNat', Nat.shiftLeft_eq, Nat.mod_eq_of_lt (show 63 - ds.length < 64 by omega),
    Nat.mod_eq_of_lt (show bits ds < 2 ^ 64 by omega), Nat.mod_eq_of_lt (show 2 * bits ds + 1 < 2 ^ 64 by omega)]
  exact Nat.mod_eq_of_lt hlt

theorem pathEnd_code {undef : UInt64} {ds : Position} (h : ds.length ≤ 63) :
    pathEnd undef (UInt64.ofNat (bits ds)) ds.length = UInt64.ofNat (code 63 ds) := by
  apply UInt64.toNat_inj.mp
  rw [pathEnd_toNat h, UInt64.toNat_ofNat', Nat.mod_eq_of_lt (code_lt h)]

theorem code_toNat {ds : Position} (h : ds.length ≤ 63) : (UInt64.ofNat (code 63 ds)).toNat = code 63 ds := by
  rw [UInt64.toNat_ofNat', Nat.mod_eq_of_lt (code_lt h)]

/-! ## Steps -/

/-- A traversal on its way, at the node of a position: its path is that
position. -/
structure Walking (ts : List (BinaryTree Addr)) (t : BTreeTraverse) (ds : Position) : Prop where
  sits : At ts t.current ds
  path : t.path = UInt64.ofNat (bits ds)
  length : t.pathLength = ds.length

/-- Memory with one node more, the others keeping their ciphertexts. -/
def Grown (h h' : Heap) (ciphertext : Ciphertext) : Prop :=
  h'.map (·.ciphertext) = h.map (·.ciphertext) ++ [ciphertext]

theorem Grown.length {h h' : Heap} {c : Ciphertext} (hg : Grown h h' c) : h'.length = h.length + 1 := by
  simpa using congrArg List.length hg

theorem value_eq (h : Heap) (a : Addr) : h.value a = ((h.map (·.ciphertext))[a]?).getD [] := by
  simp [Heap.value]

theorem Grown.value_old {h h' : Heap} {c : Ciphertext} (hg : Grown h h' c) {a : Addr} (ha : a < h.length) :
    h'.value a = h.value a := by
  rw [value_eq, value_eq, hg, List.getElem?_append_left (by simpa using ha)]

theorem Grown.value_new {h h' : Heap} {c : Ciphertext} (hg : Grown h h' c) : h'.value h.length = c := by
  rw [value_eq, hg]
  simp

theorem grown_create (h : Heap) (c : Ciphertext) : Grown h (h ++ [BTreeNode.new c]) c := by
  simp [Grown, BTreeNode.new]

theorem grown_hang {h : Heap} {a : Addr} {node : BTreeNode} (hnode : h[a]? = some node) (side : Side) (b : Addr)
    (c : Ciphertext) : Grown h (h.set a (node.setChild side b) ++ [BTreeNode.new c]) c := by
  have hc : (node.setChild side b).ciphertext = node.ciphertext := by cases side <;> rfl
  have hset : (h.set a (node.setChild side b)).map (·.ciphertext) = h.map (·.ciphertext) := by
    rw [List.map_set, hc]
    refine List.ext_getElem? fun i => ?_
    by_cases hi : a = i
    · subst hi
      have hlt := (List.getElem?_eq_some_iff.mp hnode).1
      rw [List.getElem?_set_self (by simpa using hlt), List.getElem?_map, hnode]
      rfl
    · rw [List.getElem?_set_ne hi]
  simp [Grown, hset, BTreeNode.new]

/-- Every tree is still there, each node where it was, and below each node
whatever was there, in the order it was. -/
def Extends (ts ts' : List (BinaryTree Addr)) : Prop :=
  ∀ t ∈ ts, ∃ t' ∈ ts', ∀ ds, (∀ a, label? t ds = some a → label? t' ds = some a) ∧
    (inorder (subtree t ds)).Sublist (inorder (subtree t' ds))

theorem Extends.of_subset {ts ts' : List (BinaryTree Addr)} (h : ts ⊆ ts') : Extends ts ts' :=
  fun t ht => ⟨t, h ht, fun _ => ⟨fun _ ha => ha, .refl _⟩⟩

theorem Extends.graft {pre post : List (BinaryTree Addr)} {t : BinaryTree Addr} {ds : Position} (hs : Slot t ds)
    (x : Addr) : Extends (pre ++ t :: post) (pre ++ SearchTree.graft x t ds :: post) := by
  intro u hu
  rw [List.mem_append, List.mem_cons] at hu
  rcases hu with hu | rfl | hu
  · have hsub : pre ⊆ pre ++ SearchTree.graft x t ds :: post := List.subset_append_left _ _
    exact Extends.of_subset hsub u hu
  · exact ⟨_, by simp, fun es => ⟨fun _ ha => label?_graft_old hs ha, inorder_subtree_graft u ds es x⟩⟩
  · exact ⟨u, by simp [hu], fun _ => ⟨fun _ ha => ha, .refl _⟩⟩

theorem At.extends {ts ts' : List (BinaryTree Addr)} (he : Extends ts ts') {a : Addr} {ds : Position}
    (ha : At ts a ds) : At ts' a ds := by
  obtain ⟨t, ht, hl⟩ := ha
  obtain ⟨t', ht', h⟩ := he t ht
  exact ⟨t', ht', (h ds).1 a hl⟩

theorem at_root_insert {roots : Std.ExtTreeMap Str Addr} {ts : List (BinaryTree Addr)}
    (hroots : ∀ (key : Str) (root : Addr), roots[key]? = some root → At ts root []) (x : Addr) (k key : Str) (root : Addr)
    (hr : (roots.insert k x)[key]? = some root) : At (leaf x :: ts) root [] := by
  rw [getElem?_insert_if] at hr
  split at hr
  · obtain rfl := Option.some.inj hr
    exact ⟨_, List.mem_cons_self, rfl⟩
  · exact (hroots key root hr).extends (.of_subset (List.subset_cons_self _ _))

theorem distinct_insert {roots : Std.ExtTreeMap Str Addr} {x : Addr} (hnew : ∀ k : Str, roots[k]? ≠ some x)
    (hdistinct : ∀ (key key' : Str) (root : Addr), roots[key]? = some root → roots[key']? = some root → key = key')
    (k key key' : Str) (root : Addr) (hr : (roots.insert k x)[key]? = some root)
    (hr' : (roots.insert k x)[key']? = some root) : key = key' := by
  rw [getElem?_insert_if] at hr hr'
  split at hr <;> split at hr'
  · next hk hk' => rw [hk, hk']
  · next hk hk' =>
    obtain rfl := Option.some.inj hr
    exact absurd hr' (hnew key')
  · next hk hk' =>
    obtain rfl := Option.some.inj hr'
    exact absurd hr (hnew key)
  · exact hdistinct key key' root hr hr'

theorem Walking.extends {ts ts' : List (BinaryTree Addr)} (he : Extends ts ts') {t : BTreeTraverse} {ds : Position}
    (hw : Walking ts t ds) : Walking ts' t ds :=
  ⟨hw.sits.extends he, hw.path, hw.length⟩

theorem Forest.tree_extends {h h' : Heap} {ts ts' : List (BinaryTree Addr)} (hf : Forest h ts) (hf' : Forest h' ts')
    (he : Extends ts ts') {a : Addr} (ha : a < h.length) :
    (inorder (h.tree (some a))).Sublist (inorder (h'.tree (some a))) := by
  obtain ⟨ds, t, ht, hl⟩ := hf.at_of_lt ha
  obtain ⟨t', ht', hext⟩ := he t ht
  rw [hf.tree_at ht hl, hf'.tree_at ht' ((hext ds).1 a hl)]
  exact (hext ds).2

theorem At.of_graft {pre post : List (BinaryTree Addr)} {t : BinaryTree Addr} {ds es : Position} {x a : Addr}
    (hs : Slot t ds) (ha : At (pre ++ SearchTree.graft x t ds :: post) a es) :
    At (pre ++ t :: post) a es ∨ (a = x ∧ es = ds) := by
  obtain ⟨u, hu, hl⟩ := ha
  rw [List.mem_append, List.mem_cons] at hu
  rcases hu with hu | rfl | hu
  · exact .inl ⟨u, by simp [hu], hl⟩
  · rw [label?_graft hs] at hl
    split at hl
    · next he => exact .inr ⟨(Option.some.inj hl).symm, he⟩
    · exact .inl ⟨t, by simp, hl⟩
  · exact .inl ⟨u, by simp [hu], hl⟩

theorem At.of_cons_leaf {ts : List (BinaryTree Addr)} {x a : Addr} {ds : Position} (ha : At (leaf x :: ts) a ds) :
    At ts a ds ∨ (a = x ∧ ds = []) := by
  obtain ⟨u, hu, hl⟩ := ha
  rcases List.mem_cons.mp hu with rfl | hu
  · rcases ds with _ | ⟨_ | _, ds⟩ <;> simp [leaf] at hl
    exact .inr ⟨hl.symm, rfl⟩
  · exact .inl ⟨u, hu, hl⟩

/-! ## Codes given to nodes -/

/-- Codes by address, each the code of the position its node has. -/
structure Coding (codes : List UInt64) (h : Heap) (ts : List (BinaryTree Addr)) : Prop where
  length : codes.length = h.length
  code : ∀ a ds, At ts a ds → ds.length ≤ 63 ∧ codes[a]? = some (UInt64.ofNat (Dyadic.code 63 ds))

theorem Coding.nil : Coding [] [] [] := ⟨rfl, fun _ _ h => by simp [At] at h⟩

theorem getElem?_snoc_old {codes : List UInt64} {c : UInt64} {a : Addr} (ha : a < codes.length) :
    (codes ++ [c])[a]? = codes[a]? :=
  List.getElem?_append_left ha

theorem Coding.create {codes : List UInt64} {h : Heap} {ts : List (BinaryTree Addr)} (hc : Coding codes h ts)
    (hf : Forest h ts) (ciphertext : Ciphertext) :
    Coding (codes ++ [9223372036854775808]) (h ++ [BTreeNode.new ciphertext]) (leaf h.length :: ts) := by
  refine ⟨by simp [hc.length], fun a ds ha => ?_⟩
  rcases ha.of_cons_leaf with ha | ⟨rfl, rfl⟩
  · rw [getElem?_snoc_old (by rw [hc.length]; exact hf.lt_length ha)]
    exact hc.code a ds ha
  · refine ⟨by simp, ?_⟩
    rw [← hc.length, List.getElem?_concat_length, code_nil]
    rfl

theorem Coding.graft {codes : List UInt64} {h h' : Heap} {pre post : List (BinaryTree Addr)} {u : BinaryTree Addr}
    {es : Position} {c : Ciphertext} (hc : Coding codes h (pre ++ u :: post)) (hf : Forest h (pre ++ u :: post))
    (hg : Grown h h' c) (hs : Slot u es) (hlen : es.length ≤ 63) :
    Coding (codes ++ [UInt64.ofNat (Dyadic.code 63 es)]) h' (pre ++ SearchTree.graft h.length u es :: post) := by
  refine ⟨by simp [hc.length, hg.length], fun a ds ha => ?_⟩
  rcases ha.of_graft hs with ha | ⟨rfl, rfl⟩
  · rw [getElem?_snoc_old (by rw [hc.length]; exact hf.lt_length ha)]
    exact hc.code a ds ha
  · exact ⟨hlen, by rw [← hc.length, List.getElem?_concat_length]⟩

/-- **Along a tree, in order, codes grow.** -/
theorem Coding.ordered {codes : List UInt64} {h : Heap} {ts : List (BinaryTree Addr)} (hc : Coding codes h ts)
    {t : BinaryTree Addr} (ht : t ∈ ts) :
    (inorder t).Pairwise fun a b => codes[a]?.getD 0 < codes[b]?.getD 0 := by
  refine pairwise_inorder_iff.mpr fun ds es a b ha hb hbefore => ?_
  obtain ⟨hds, hca⟩ := hc.code a ds ⟨t, ht, ha⟩
  obtain ⟨hes, hcb⟩ := hc.code b es ⟨t, ht, hb⟩
  rw [hca, hcb, Option.getD_some, Option.getD_some, UInt64.lt_iff_toNat_lt, code_toNat hds, code_toNat hes]
  exact code_lt_of_before hds hes hbefore

/-! ## One step -/

/-- **A step of a traversal.** It moves to the node at the next position;
or no node is there, and it grows one, the next address, for its own
ciphertext, in the tree it walks. -/
theorem goTo_cases {h : Heap} {ts : List (BinaryTree Addr)} {t : BTreeTraverse} {ds : Position} (hf : Forest h ts)
    (hw : Walking ts t ds) (side : Side) (undef : UInt64) :
    (∃ t', t.goTo side undef h = some (h, t', true) ∧ Walking ts t' (ds ++ [side]) ∧
      t'.ciphertext = t.ciphertext ∧ t'.requestAdd = t.requestAdd) ∨
    (∃ pre u post h' t', ts = pre ++ u :: post ∧ label? u ds = some t.current ∧ Slot u (ds ++ [side]) ∧
      t.goTo side undef h = some (h', t', false) ∧ Grown h h' t.ciphertext ∧
      Forest h' (pre ++ graft h.length u (ds ++ [side]) :: post) ∧
      t'.current = h.length ∧ t'.ciphertext = t.ciphertext ∧ t'.requestAdd = t.requestAdd ∧
      t'.pathLength = ds.length + 1 ∧
      t'.path = pathEnd undef (UInt64.ofNat (bits (ds ++ [side]))) (ds ++ [side]).length) := by
  obtain ⟨u, hu, hl⟩ := hw.sits
  obtain ⟨node, hnode, hchild⟩ := (hf.laid u hu).child hl
  have hlen : t.pathLength + 1 = ((ds ++ [side]).length : Int) := by
    rw [hw.length, List.length_append, List.length_singleton]; rfl
  have hpath : pathStep side t.path = UInt64.ofNat (bits (ds ++ [side])) := by
    rw [hw.path, pathStep_bits]
  cases hc : node.child side with
  | some next =>
    left
    let t' : BTreeTraverse :=
      { t with path := pathStep side t.path, pathLength := t.pathLength + 1, current := next }
    have hgo : t.goTo side undef h = some (h, t', true) := by simp only [BTreeTraverse.goTo, hnode, hc, t']
    exact ⟨t', hgo, ⟨⟨u, hu, by rw [← hchild, hc]⟩, hpath, hlen⟩, rfl, rfl⟩
  | none =>
    right
    let t' : BTreeTraverse :=
      { t with
        path := pathEnd undef (pathStep side t.path) (t.pathLength + 1)
        pathLength := t.pathLength + 1
        current := h.length }
    have hgo : t.goTo side undef h = some
        (h.set t.current (node.setChild side h.length) ++ [BTreeNode.new t.ciphertext], t', false) := by
      simp only [BTreeTraverse.goTo, hnode, hc, t']
    have hfree : label? u (ds ++ [side]) = none := by rw [← hchild, hc]
    obtain ⟨pre, post, rfl⟩ := List.append_of_mem hu
    refine ⟨pre, u, post, _, t', rfl, hl, slot_of_open hl (label?_eq_none.mp hfree), hgo,
      grown_hang hnode _ _ _, hf.grow hl hnode hfree, rfl, rfl, rfl, ?_, ?_⟩
    · simp only [t', hw.length]
    · simp only [t', hpath, hlen]

theorem Walking.moved {h h' : Heap} {ts : List (BinaryTree Addr)} {t t' : BTreeTraverse} {ds : Position} {side : Side}
    {undef : UInt64} (hw : Walking ts t ds) (hf : Forest h ts) (hgo : t.goTo side undef h = some (h', t', true)) :
    Walking ts t' (ds ++ [side]) := by
  rcases goTo_cases hf hw side undef with ⟨t₂, hgo₂, hw₂, -⟩ | ⟨_, _, _, _, _, _, _, _, hgo₂, _⟩
  · rw [hgo] at hgo₂
    cases hgo₂
    exact hw₂
  · rw [hgo] at hgo₂
    cases hgo₂

end Zql
