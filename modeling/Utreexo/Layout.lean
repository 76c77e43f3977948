import Mathlib.Data.Set.Basic
import Utreexo.Placed

/-! # Layouts of collapsed trees

A layout places collapsed trees at the nodes of a binary numbering: some nodes are roots, a root
has a tree or none, and the children of a tree are placed at the children of its node.  A forest
of an accumulator is one, and so is each stage of an addition, at which two roots have not been
joined yet.
-/
namespace Merkle

/-- Trees at the nodes below some roots, no leaf twice. -/
structure Layout (α : Type) where
  root : Node → Prop
  tree : Node → Option (CTree α)
  apart : ∀ {x y}, root x → root y → x.Above y → x = y
  child : ∀ {x r}, root r → r.Above x.parent →
    tree x = (tree x.parent).bind (CTree.child x.isRight)
  outside : ∀ {x}, (∀ r, root r → ¬ r.Above x) → tree x = none
  depth : ∀ {x l r}, tree x = some (.node l r) → 0 < x.row
  unique : ∀ {x y a}, tree x = some (.leaf a) → tree y = some (.leaf a) → x = y

namespace Layout
variable {α : Type} (L : Layout α) {W : Set α} {x y z : Node}

/-- At or below a root. -/
def Inside (x : Node) : Prop := ∃ r, L.root r ∧ r.Above x

variable {L}

theorem Inside.of_root (h : L.root x) : L.Inside x := ⟨x, h, Node.Above.refl x⟩

theorem Inside.below (h : L.Inside x) (hxy : x.Above y) : L.Inside y := by
  obtain ⟨r, hr, hx⟩ := h
  exact ⟨r, hr, hx.trans hxy⟩

theorem inside_of_parent (h : L.Inside x.parent) : L.Inside x := h.below (Node.parent_above x)

theorem Inside.parent (h : L.Inside x) (hx : ¬ L.root x) : L.Inside x.parent := by
  obtain ⟨r, hr, ha⟩ := h
  refine ⟨r, hr, ha.parent_of_ne ?_⟩
  rintro rfl
  exact hx hr

theorem not_root_of_parent (h : L.Inside x.parent) : ¬ L.root x := by
  intro hx
  obtain ⟨r, hr, ha⟩ := h
  obtain rfl := L.apart hr hx (ha.trans (Node.parent_above x))
  have hle := ha.row_le
  rw [Node.parent_row] at hle
  omega

/-- The sibling of a node below a root is below it too. -/
theorem Inside.sibling (h : L.Inside x) (hx : ¬ L.root x) : L.Inside x.sibling := by
  apply inside_of_parent
  rw [Node.sibling_parent]
  exact h.parent hx

theorem inside_of_tree {t : CTree α} (h : L.tree x = some t) : L.Inside x := by
  by_contra hout
  rw [L.outside fun r hr ha => hout ⟨r, hr, ha⟩] at h
  cases h

theorem tree_child (h : L.Inside x.parent) :
    L.tree x = (L.tree x.parent).bind (CTree.child x.isRight) := by
  obtain ⟨r, hr, ha⟩ := h
  exact L.child hr ha

/-! ### Children of a tree -/

theorem tree_left {l r : CTree α} (h : L.tree x = some (.node l r)) : L.tree x.left = some l := by
  have hp := Node.left_parent (L.depth h)
  rw [tree_child (hp.symm ▸ inside_of_tree h), hp, h, Node.isRight_left]
  rfl

theorem tree_right {l r : CTree α} (h : L.tree x = some (.node l r)) :
    L.tree x.right = some r := by
  have hp := Node.right_parent (L.depth h)
  rw [tree_child (hp.symm ▸ inside_of_tree h), hp, h, Node.isRight_right]
  rfl

/-- Both children of a tree are trees. -/
theorem tree_sibling {D : CTree α} (hp : L.Inside x.parent) (hx : L.tree x = some D) :
    ∃ S, L.tree x.sibling = some S ∧
      L.tree x.parent = some (if x.isRight then .node S D else .node D S) := by
  have hs : L.tree x.sibling = (L.tree x.parent).bind (CTree.child !x.isRight) := by
    rw [← Node.isRight_sibling, ← Node.sibling_parent]
    exact tree_child (by rwa [Node.sibling_parent])
  rw [tree_child hp] at hx
  obtain ⟨t, ht, hD⟩ := Option.bind_eq_some_iff.mp hx
  rw [hs, ht]
  cases t with
  | leaf a => cases hD
  | node l r =>
    cases hr : x.isRight <;> rw [hr] at hD <;> cases hD
    · exact ⟨r, rfl, rfl⟩
    · exact ⟨l, rfl, rfl⟩

theorem mem_leaves_parent {a : α} (hp : L.Inside x.parent)
    (ha : a ∈ CTree.leavesOpt (L.tree x)) : a ∈ CTree.leavesOpt (L.tree x.parent) := by
  cases hx : L.tree x with
  | none =>
    rw [hx] at ha
    cases ha
  | some D =>
    rw [hx] at ha
    obtain ⟨S, -, hS⟩ := tree_sibling hp hx
    rw [hS]
    cases x.isRight
    · exact List.mem_append_left _ ha
    · exact List.mem_append_right _ ha

theorem mem_leaves_above {a : α} (hx : L.Inside x) (h : x.Above y)
    (ha : a ∈ CTree.leavesOpt (L.tree y)) : a ∈ CTree.leavesOpt (L.tree x) := by
  obtain ⟨j, rfl⟩ := h
  induction j generalizing y with
  | zero => rwa [Node.up_zero]
  | succ j ih =>
    rw [← Node.parent_up] at hx ⊢
    exact ih (mem_leaves_parent (hx.below ⟨j, rfl⟩) ha) hx

theorem tree_ne_none_above (hx : L.Inside x) (h : x.Above y) (hy : L.tree y ≠ none) :
    L.tree x ≠ none := by
  intro hnone
  obtain ⟨T, hT⟩ := Option.ne_none_iff_exists'.mp hy
  obtain ⟨a, ha⟩ := List.exists_mem_of_ne_nil _ T.leaves_ne_nil
  have hmem := mem_leaves_above hx h (a := a) (by rw [hT]; exact ha)
  rw [hnone] at hmem
  cases hmem

/-- Every leaf of a tree is placed somewhere below it. -/
theorem exists_leaf {a : α} {t : CTree α} (hx : L.tree x = some t) (ha : a ∈ t.leaves) :
    ∃ z, x.Above z ∧ L.tree z = some (.leaf a) := by
  induction t generalizing x with
  | leaf b =>
    obtain rfl := List.mem_singleton.mp ha
    exact ⟨x, Node.Above.refl x, hx⟩
  | node l r ihl ihr =>
    have h0 := L.depth hx
    rcases List.mem_append.mp ha with ha | ha
    · obtain ⟨z, hz, ht⟩ := ihl (tree_left hx) ha
      exact ⟨z, Node.Above.trans ⟨1, by rw [Node.up_one, Node.left_parent h0]⟩ hz, ht⟩
    · obtain ⟨z, hz, ht⟩ := ihr (tree_right hx) ha
      exact ⟨z, Node.Above.trans ⟨1, by rw [Node.up_one, Node.right_parent h0]⟩ hz, ht⟩

/-- Trees with a common leaf are above one another. -/
theorem above_of_common {a : α} (hx : a ∈ CTree.leavesOpt (L.tree x))
    (hy : a ∈ CTree.leavesOpt (L.tree y)) : x.Above y ∨ y.Above x := by
  cases htx : L.tree x with
  | none =>
    rw [htx] at hx
    cases hx
  | some s =>
    cases hty : L.tree y with
    | none =>
      rw [hty] at hy
      cases hy
    | some t =>
      rw [htx] at hx
      rw [hty] at hy
      obtain ⟨z, hz, hza⟩ := exists_leaf htx hx
      obtain ⟨w, hw, hwa⟩ := exists_leaf hty hy
      obtain rfl := L.unique hza hwa
      exact hz.total hw

/-! ### Wanted leaves -/

variable (L) in
/-- One of the leaves is in the tree at the node. -/
def Meets (W : Set α) (x : Node) : Prop := ∃ a ∈ W, a ∈ CTree.leavesOpt (L.tree x)

theorem Meets.exists_tree (h : L.Meets W x) : ∃ t, L.tree x = some t := by
  obtain ⟨a, -, ha⟩ := h
  cases ht : L.tree x with
  | none =>
    rw [ht] at ha
    cases ha
  | some t => exact ⟨t, rfl⟩

theorem Meets.inside (h : L.Meets W x) : L.Inside x := by
  obtain ⟨t, ht⟩ := h.exists_tree
  exact inside_of_tree ht

theorem Meets.parent (h : L.Meets W x) (hp : L.Inside x.parent) : L.Meets W x.parent := by
  obtain ⟨a, ha, hx⟩ := h
  exact ⟨a, ha, mem_leaves_parent hp hx⟩

theorem meets_of_leaf {a : α} (ha : a ∈ W) (hx : L.tree x = some (.leaf a)) : L.Meets W x :=
  ⟨a, ha, by rw [hx]; exact List.mem_singleton_self a⟩

theorem Meets.leaf_mem {a : α} (h : L.Meets W x) (hx : L.tree x = some (.leaf a)) : a ∈ W := by
  obtain ⟨b, hb, hmem⟩ := h
  rw [hx] at hmem
  rwa [← List.mem_singleton.mp hmem]

/-- A wanted leaf is placed here or in a child. -/
theorem Meets.cases (h : L.Meets W x) :
    (∃ a ∈ W, L.tree x = some (.leaf a)) ∨ ∃ c : Node, c.parent = x ∧ L.Meets W c := by
  obtain ⟨a, ha, hx⟩ := h
  cases ht : L.tree x with
  | none =>
    rw [ht] at hx
    cases hx
  | some t =>
    rw [ht] at hx
    cases t with
    | leaf b =>
      obtain rfl := List.mem_singleton.mp hx
      exact Or.inl ⟨a, ha, rfl⟩
    | node l r =>
      have h0 := L.depth ht
      rcases List.mem_append.mp hx with hx | hx
      · exact Or.inr ⟨x.left, Node.left_parent h0, a, ha, by rw [tree_left ht]; exact hx⟩
      · exact Or.inr ⟨x.right, Node.right_parent h0, a, ha, by rw [tree_right ht]; exact hx⟩

end Layout

end Merkle
