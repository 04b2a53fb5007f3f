/-
Binary trees by position: what sits where, growing a leaf at a free
position, and the textbook insertion that follows a comparison from the
root down.

`insert dir x` goes where `dir` sends it at each node it passes; the node
it stops at, if any, is its own. `OnPath dir t ds` says the walk of such an
insertion passes the node at `ds`. A walk that was interrupted there and is
taken up later ends as if it had never been: growing other leaves keeps it
on the path (`OnPath.graft`), and finishing it by hand is the insertion
(`insert_eq_graft`).
-/
import Mathlib.Data.Tree.Basic
import Mathlib.Data.List.Pairwise
import Mathlib.Data.List.Nodup
import Zql.Lib.Dyadic

namespace SearchTree

open Dyadic

variable {α β : Type*}

def leaf (x : α) : BinaryTree α := .node x .nil .nil

def child : Side → BinaryTree α → BinaryTree α
  | .left, t => t.left
  | .right, t => t.right

def root? : BinaryTree α → Option α
  | .nil => none
  | .node x _ _ => some x

/-- The subtree at a position, empty where there is none. -/
def subtree (t : BinaryTree α) : Position → BinaryTree α
  | [] => t
  | d :: ds => subtree (child d t) ds

/-- The label at a position. -/
def label? (t : BinaryTree α) (ds : Position) : Option α := root? (subtree t ds)

/-- A leaf labelled `x` grown at a free position; no change elsewhere. -/
def graft (x : α) : BinaryTree α → Position → BinaryTree α
  | .nil, [] => leaf x
  | .nil, _ :: _ => .nil
  | .node y l r, [] => .node y l r
  | .node y l r, .left :: ds => .node y (graft x l ds) r
  | .node y l r, .right :: ds => .node y l (graft x r ds)

/-- The textbook recursive insertion. -/
def insert (dir : α → Option Side) (x : α) : BinaryTree α → BinaryTree α
  | .nil => leaf x
  | .node y l r =>
    match dir y with
    | some .left => .node y (insert dir x l) r
    | some .right => .node y l (insert dir x r)
    | none => .node y l r

def inorder : BinaryTree α → List α
  | .nil => []
  | .node x l r => inorder l ++ x :: inorder r

/-- A free position whose parent is a node, or the root of the empty tree. -/
def Slot : BinaryTree α → Position → Prop
  | .nil, ds => ds = []
  | .node _ _ _, [] => False
  | .node _ l _, .left :: ds => Slot l ds
  | .node _ _ r, .right :: ds => Slot r ds

/-- The walk of `dir` from the root passes the node at this position. -/
def OnPath (dir : α → Option Side) : BinaryTree α → Position → Prop
  | .nil, _ => False
  | .node _ _ _, [] => True
  | .node y l _, .left :: ds => dir y = some .left ∧ OnPath dir l ds
  | .node y _ r, .right :: ds => dir y = some .right ∧ OnPath dir r ds

/-! ## Labels and subtrees -/

@[simp] theorem root?_nil : root? (.nil : BinaryTree α) = none := rfl
@[simp] theorem root?_node {x : α} {l r} : root? (.node x l r) = some x := rfl
@[simp] theorem child_nil (d : Side) : child d (.nil : BinaryTree α) = .nil := by cases d <;> rfl
@[simp] theorem subtree_root (t : BinaryTree α) : subtree t [] = t := rfl

@[simp] theorem subtree_nil (ds : Position) : subtree (.nil : BinaryTree α) ds = .nil := by
  induction ds with
  | nil => rfl
  | cons d ds ih => simpa [subtree] using ih

theorem subtree_append (t : BinaryTree α) (ds es : Position) :
    subtree t (ds ++ es) = subtree (subtree t ds) es := by
  induction ds generalizing t with
  | nil => rfl
  | cons d ds ih => exact ih _

theorem subtree_snoc (t : BinaryTree α) (ds : Position) (d : Side) :
    subtree t (ds ++ [d]) = child d (subtree t ds) := subtree_append t ds [d]

@[simp] theorem label?_nil (ds : Position) : label? (.nil : BinaryTree α) ds = none := by simp [label?]
@[simp] theorem label?_root (t : BinaryTree α) : label? t [] = root? t := rfl
@[simp] theorem label?_node_left {x : α} {l r ds} : label? (.node x l r) (.left :: ds) = label? l ds := rfl
@[simp] theorem label?_node_right {x : α} {l r ds} : label? (.node x l r) (.right :: ds) = label? r ds := rfl

theorem root?_eq_none {t : BinaryTree α} : root? t = none ↔ t = .nil := by cases t <;> simp

theorem label?_eq_none {t : BinaryTree α} {ds : Position} : label? t ds = none ↔ subtree t ds = .nil :=
  root?_eq_none

theorem mem_inorder_iff {t : BinaryTree α} {x : α} : x ∈ inorder t ↔ ∃ ds, label? t ds = some x := by
  induction t with
  | nil => simp [inorder]
  | node y l r ihl ihr =>
    simp only [inorder, List.mem_append, List.mem_cons, ihl, ihr]
    constructor
    · rintro (⟨ds, h⟩ | rfl | ⟨ds, h⟩)
      · exact ⟨.left :: ds, h⟩
      · exact ⟨[], rfl⟩
      · exact ⟨.right :: ds, h⟩
    · rintro ⟨_ | ⟨_ | _, ds⟩, h⟩
      · simp only [label?_root, root?_node, Option.some.injEq] at h
        exact .inr (.inl h.symm)
      · exact .inl ⟨ds, h⟩
      · exact .inr (.inr ⟨ds, h⟩)

theorem length_lt_height {t : BinaryTree α} {ds : Position} {x : α} (h : label? t ds = some x) :
    ds.length < t.height := by
  induction t generalizing ds with
  | nil => simp at h
  | node y l r ihl ihr =>
    rcases ds with _ | ⟨_ | _, ds⟩
    · simp [BinaryTree.height]
    · have := ihl h
      simp only [List.length_cons, BinaryTree.height]
      omega
    · have := ihr h
      simp only [List.length_cons, BinaryTree.height]
      omega

/-- **What holds of every two labels in order of position holds along the
in-order walk**, and the other way round. -/
theorem pairwise_inorder_iff {R : α → α → Prop} {t : BinaryTree α} :
    (inorder t).Pairwise R ↔
      ∀ ds es x y, label? t ds = some x → label? t es = some y → Before ds es → R x y := by
  induction t with
  | nil => simp [inorder]
  | node z l r ihl ihr =>
    simp only [inorder, List.pairwise_append, List.pairwise_cons, ihl, ihr, List.mem_cons, mem_inorder_iff]
    constructor
    · rintro ⟨hl, ⟨hz, hr⟩, hlr⟩ ds es x y hx hy hb
      rcases ds with _ | ⟨_ | _, ds⟩ <;> rcases es with _ | ⟨_ | _, es⟩ <;> simp at hx hy hb
      · subst hx; exact hz y ⟨es, hy⟩
      · subst hy; exact hlr x ⟨ds, hx⟩ _ (.inl rfl)
      · exact hl ds es x y hx hy hb
      · exact hlr x ⟨ds, hx⟩ y (.inr ⟨es, hy⟩)
      · exact hr ds es x y hx hy hb
    · intro h
      refine ⟨fun ds es x y hx hy hb => h (.left :: ds) (.left :: es) x y hx hy (by simpa), ⟨?_, ?_⟩, ?_⟩
      · rintro y ⟨es, hy⟩
        exact h [] (.right :: es) z y rfl hy rfl
      · exact fun ds es x y hx hy hb => h (.right :: ds) (.right :: es) x y hx hy (by simpa)
      · rintro x ⟨ds, hx⟩ y (rfl | ⟨es, hy⟩)
        · exact h (.left :: ds) [] x _ hx rfl rfl
        · exact h (.left :: ds) (.right :: es) x y hx hy (by simp)

theorem position_unique {t : BinaryTree α} (hn : (inorder t).Nodup) {ds es : Position} {x : α}
    (h : label? t ds = some x) (h' : label? t es = some x) : ds = es := by
  rcases before_trichotomy ds es with heq | hb | hb
  · exact heq
  · exact absurd rfl (pairwise_inorder_iff.mp hn ds es x x h h' hb)
  · exact absurd rfl (pairwise_inorder_iff.mp hn es ds x x h' h hb)

/-! ## Growing a leaf -/

theorem slot_of_open {t : BinaryTree α} {ds : Position} {d : Side} {x : α} (hp : label? t ds = some x)
    (ho : subtree t (ds ++ [d]) = .nil) : Slot t (ds ++ [d]) := by
  induction ds generalizing t with
  | nil =>
    cases t with
    | nil => simp at hp
    | node y l r => cases d <;> simp_all [subtree, child, Slot, BinaryTree.left, BinaryTree.right]
  | cons e ds ih =>
    cases t with
    | nil => simp at hp
    | node y l r => cases e <;> exact ih hp ho

theorem label?_graft {t : BinaryTree α} {ds : Position} {x : α} (hs : Slot t ds) (es : Position) :
    label? (graft x t ds) es = if es = ds then some x else label? t es := by
  induction t generalizing ds es with
  | nil =>
    obtain rfl : ds = [] := hs
    rcases es with _ | ⟨_ | _, es⟩ <;> simp [graft, leaf]
  | node y l r ihl ihr =>
    rcases ds with _ | ⟨_ | _, ds⟩
    · exact hs.elim
    · rcases es with _ | ⟨_ | _, es⟩ <;> simp [graft]
      exact ihl hs es
    · rcases es with _ | ⟨_ | _, es⟩ <;> simp [graft]
      exact ihr hs es

theorem label?_graft_old {t : BinaryTree α} {ds es : Position} {x y : α} (hs : Slot t ds)
    (h : label? t es = some y) : label? (graft x t ds) es = some y := by
  rw [label?_graft hs]
  split
  · next he =>
    subst he
    have hn : ∀ {t : BinaryTree α} {ds}, Slot t ds → label? t ds = none := by
      intro t ds hs
      induction t generalizing ds with
      | nil => simp
      | node z l r ihl ihr =>
        rcases ds with _ | ⟨_ | _, ds⟩
        · exact hs.elim
        · exact ihl hs
        · exact ihr hs
    rw [hn hs] at h; cases h
  · exact h

theorem inorder_graft_sublist (t : BinaryTree α) (ds : Position) (x : α) :
    (inorder t).Sublist (inorder (graft x t ds)) := by
  induction t generalizing ds with
  | nil => exact List.nil_sublist _
  | node y l r ihl ihr =>
    rcases ds with _ | ⟨_ | _, ds⟩
    · exact .refl _
    · exact (ihl ds).append_right _
    · exact ((ihr ds).cons_cons y).append_left _

theorem inorder_subtree_graft (t : BinaryTree α) (ds es : Position) (x : α) :
    (inorder (subtree t es)).Sublist (inorder (subtree (graft x t ds) es)) := by
  induction es generalizing t ds with
  | nil => exact inorder_graft_sublist t ds x
  | cons e es ih =>
    cases t with
    | nil => rw [subtree_nil]; exact List.nil_sublist _
    | node y l r =>
      rcases ds with _ | ⟨_ | _, ds⟩
      · exact .refl _
      · cases e
        · exact ih l ds
        · exact .refl _
      · cases e
        · exact .refl _
        · exact ih r ds

theorem inorder_subtree_sublist (t : BinaryTree α) (ds : Position) :
    (inorder (subtree t ds)).Sublist (inorder t) := by
  induction ds generalizing t with
  | nil => exact .refl _
  | cons d ds ih =>
    cases t with
    | nil => rw [subtree_nil]
    | node y l r =>
      cases d
      · exact (ih l).trans (List.sublist_append_left _ _)
      · exact (ih r).trans ((List.sublist_cons_self y _).trans (List.sublist_append_right _ _))

theorem inorder_graft_perm {t : BinaryTree α} {ds : Position} {x : α} (hs : Slot t ds) :
    (inorder (graft x t ds)).Perm (x :: inorder t) := by
  induction t generalizing ds with
  | nil => obtain rfl : ds = [] := hs; exact .refl _
  | node y l r ihl ihr =>
    rcases ds with _ | ⟨_ | _, ds⟩
    · exact hs.elim
    · exact (ihl hs).append_right _
    · exact (((ihr hs).cons y).trans (.swap x y _)).append_left (inorder l) |>.trans List.perm_middle

theorem map_graft (f : α → β) (x : α) (t : BinaryTree α) (ds : Position) :
    (graft x t ds).map f = graft (f x) (t.map f) ds := by
  induction t generalizing ds with
  | nil => cases ds <;> rfl
  | node y l r ihl ihr =>
    rcases ds with _ | ⟨_ | _, ds⟩ <;> simp [graft, BinaryTree.map, ihl, ihr]

theorem label?_map (f : α → β) (t : BinaryTree α) (ds : Position) :
    label? (t.map f) ds = (label? t ds).map f := by
  induction t generalizing ds with
  | nil => simp [BinaryTree.map]
  | node x l r ihl ihr =>
    rcases ds with _ | ⟨_ | _, ds⟩
    · rfl
    · exact ihl ds
    · exact ihr ds

theorem map_congr {f g : α → β} {t : BinaryTree α} (h : ∀ x ∈ inorder t, f x = g x) : t.map f = t.map g := by
  induction t with
  | nil => rfl
  | node y l r ihl ihr =>
    simp only [inorder, List.mem_append, List.mem_cons] at h
    simp only [BinaryTree.map]
    rw [ihl fun x hx => h x (.inl hx), ihr fun x hx => h x (.inr (.inr hx)), h y (.inr (.inl rfl))]

/-! ## Insertion -/

section Insertion

variable {dir : α → Option Side}

theorem onPath_root {t : BinaryTree α} {x : α} (h : root? t = some x) : OnPath dir t [] := by
  cases t with
  | nil => simp at h
  | node y l r => trivial

/-- Going on from a node of the path the way `dir` sends. -/
theorem OnPath.snoc {t : BinaryTree α} {ds : Position} {d : Side} {x y : α} (h : OnPath dir t ds)
    (hx : label? t ds = some x) (hd : dir x = some d) (hy : label? t (ds ++ [d]) = some y) :
    OnPath dir t (ds ++ [d]) := by
  induction t generalizing ds with
  | nil => simp at hx
  | node z l r ihl ihr =>
    rcases ds with _ | ⟨_ | _, ds⟩
    · obtain rfl : z = x := by simpa using hx
      cases d
      · exact ⟨hd, onPath_root hy⟩
      · exact ⟨hd, onPath_root hy⟩
    · exact ⟨h.1, ihl h.2 hx hy⟩
    · exact ⟨h.1, ihr h.2 hx hy⟩

theorem OnPath.graft {t : BinaryTree α} {ds es : Position} {y : α} (h : OnPath dir t ds) :
    OnPath dir (graft y t es) ds := by
  induction t generalizing ds es with
  | nil => exact h.elim
  | node z l r ihl ihr =>
    rcases es with _ | ⟨_ | _, es⟩
    · exact h
    all_goals
      rcases ds with _ | ⟨_ | _, ds⟩
      · trivial
      · exact ⟨h.1, by first | exact ihl h.2 | exact h.2⟩
      · exact ⟨h.1, by first | exact ihr h.2 | exact h.2⟩

/-- **Finishing an interrupted walk by hand is the insertion.** -/
theorem insert_eq_graft {t : BinaryTree α} {ds : Position} {d : Side} {x y : α} (h : OnPath dir t ds)
    (hy : label? t ds = some y) (hd : dir y = some d) (ho : subtree t (ds ++ [d]) = .nil) :
    insert dir x t = graft x t (ds ++ [d]) := by
  induction t generalizing ds with
  | nil => exact h.elim
  | node z l r ihl ihr =>
    rcases ds with _ | ⟨_ | _, ds⟩
    · obtain rfl : z = y := by simpa using hy
      cases d
      · obtain rfl : l = .nil := ho
        simp [insert, hd, SearchTree.graft]
      · obtain rfl : r = .nil := ho
        simp [insert, hd, SearchTree.graft]
    · simp [insert, h.1, SearchTree.graft, ihl h.2 hy ho]
    · simp [insert, h.1, SearchTree.graft, ihr h.2 hy ho]

/-- A walk that meets its own node inserts nothing. -/
theorem insert_eq_self {t : BinaryTree α} {ds : Position} {x y : α} (h : OnPath dir t ds)
    (hy : label? t ds = some y) (hd : dir y = none) : insert dir x t = t := by
  induction t generalizing ds with
  | nil => exact h.elim
  | node z l r ihl ihr =>
    rcases ds with _ | ⟨_ | _, ds⟩
    · obtain rfl : z = y := by simpa using hy
      simp [insert, hd]
    · simp [insert, h.1, ihl h.2 hy]
    · simp [insert, h.1, ihr h.2 hy]

theorem label?_insert {t : BinaryTree α} {ds : Position} {x y : α} (h : label? t ds = some y) :
    label? (insert dir x t) ds = some y := by
  induction t generalizing ds with
  | nil => simp at h
  | node z l r ihl ihr =>
    unfold insert
    split
    · rcases ds with _ | ⟨_ | _, ds⟩
      · exact h
      · exact ihl h
      · exact h
    · rcases ds with _ | ⟨_ | _, ds⟩
      · exact h
      · exact h
      · exact ihr h
    · exact h

theorem mem_inorder_insert {t : BinaryTree α} {x y : α} (h : y ∈ inorder (insert dir x t)) :
    y = x ∨ y ∈ inorder t := by
  induction t with
  | nil => simpa [insert, leaf, inorder] using h
  | node z l r ihl ihr =>
    simp only [insert] at h
    split at h <;> simp only [inorder, List.mem_append, List.mem_cons] at h ⊢
    · rcases h with h | h | h
      · rcases ihl h with h | h <;> simp [h]
      · simp [h]
      · simp [h]
    · rcases h with h | h | h
      · simp [h]
      · simp [h]
      · rcases ihr h with h | h <;> simp [h]
    · exact .inr h

/-- Insertion keeps a tree in the order its comparison decides by. -/
theorem inorder_insert {R : α → α → Prop} (htrans : ∀ a b c, R a b → R b c → R a c) {x : α}
    {t : BinaryTree α} (hleft : ∀ y ∈ inorder t, dir y = some .left → R x y)
    (hright : ∀ y ∈ inorder t, dir y = some .right → R y x) (h : (inorder t).Pairwise R) :
    (inorder (insert dir x t)).Pairwise R := by
  induction t with
  | nil => simp [insert, leaf, inorder]
  | node z l r ihl ihr =>
    simp only [inorder, List.mem_append, List.mem_cons] at hleft hright
    simp only [inorder, List.pairwise_append, List.pairwise_cons, List.mem_cons] at h
    obtain ⟨hl, ⟨hz, hr⟩, hlr⟩ := h
    have hl' := ihl (fun y hy => hleft y (.inl hy)) (fun y hy => hright y (.inl hy)) hl
    have hr' := ihr (fun y hy => hleft y (.inr (.inr hy))) (fun y hy => hright y (.inr (.inr hy))) hr
    simp only [insert]
    split
    · next hd =>
      have hxz := hleft z (.inr (.inl rfl)) hd
      simp only [inorder, List.pairwise_append, List.pairwise_cons, List.mem_cons]
      refine ⟨hl', ⟨hz, hr⟩, fun a ha b hb => ?_⟩
      rcases mem_inorder_insert ha with rfl | ha
      · rcases hb with rfl | hb
        · exact hxz
        · exact htrans _ _ _ hxz (hz b hb)
      · exact hlr a ha b hb
    · next hd =>
      have hzx := hright z (.inr (.inl rfl)) hd
      simp only [inorder, List.pairwise_append, List.pairwise_cons, List.mem_cons]
      refine ⟨hl, ⟨fun b hb => ?_, hr'⟩, fun a ha b hb => ?_⟩
      · rcases mem_inorder_insert hb with rfl | hb
        · exact hzx
        · exact hz b hb
      · rcases hb with rfl | hb
        · exact hlr a ha _ (.inl rfl)
        · rcases mem_inorder_insert hb with rfl | hb
          · exact htrans _ _ _ (hlr a ha z (.inl rfl)) hzx
          · exact hlr a ha b (.inr hb)
    · simp only [inorder, List.pairwise_append, List.pairwise_cons, List.mem_cons]
      exact ⟨hl, ⟨hz, hr⟩, hlr⟩

end Insertion

end SearchTree
