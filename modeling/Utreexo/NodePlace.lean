import Utreexo.MoveUp

/-! # The place of a subtree in the collapsed forest

The slots below a node of the forest form a tree (`nodeTree`), which is empty if all of
them are vacant.  An empty tree makes its sibling take the place of their parent.  So the
place of a tree is found by climbing from its node to the root and moving up by one row
for every empty sibling on the way (`climb`, `place`).
-/
namespace Merkle.Node
variable {x y t : Node}

theorem raise_sibling_self (x : Node) : raise x.sibling x = x.parent := by
  have h := congrArg Node.off x.sibling_parent
  unfold raise
  rw [sibling_row, Nat.sub_self, Nat.pow_zero, Nat.mul_one, Nat.mod_one, Nat.add_zero]
  exact Node.ext rfl h

/-- Raising a lower node raises its parent. -/
theorem raise_parent (h : y.row < t.row) : raise t y.parent = (raise t y).parent := by
  obtain ⟨d, hd⟩ : ∃ d, t.row - y.row = d + 1 := ⟨t.row - y.row - 1, by omega⟩
  have hd' : t.row - (y.row + 1) = d := by omega
  have hp : 2 ^ (d + 1) = 2 * 2 ^ d := Nat.pow_succ'
  unfold raise parent
  dsimp only
  rw [hd, hd', hp, Node.mk.injEq]
  refine ⟨rfl, ?_⟩
  rw [show t.off / 2 * (2 * 2 ^ d) = 2 * (t.off / 2 * 2 ^ d) by ring,
    Nat.mul_add_div (by omega), Nat.mod_mul_right_div_self]

theorem isRight_raise (h : y.row < t.row) : (raise t y).isRight = y.isRight := by
  obtain ⟨d, hd⟩ : ∃ d, t.row - y.row = d + 1 := ⟨t.row - y.row - 1, by omega⟩
  have hp : 2 ^ (d + 1) = 2 * 2 ^ d := Nat.pow_succ'
  unfold isRight raise
  dsimp only
  rw [hd, hp, show t.off / 2 * (2 * 2 ^ d) = 2 * (t.off / 2 * 2 ^ d) by ring,
    Nat.mul_add_mod, Nat.mod_mul_right_mod]

theorem eq_of_parent_of_isRight (hp : x.parent = y.parent) (h : x.isRight = y.isRight) : x = y := by
  rcases eq_or_eq_sibling hp with rfl | rfl
  · rfl
  · rw [isRight_sibling] at h
    cases hx : x.isRight <;> rw [hx] at h <;> cases h

/-! ### Climbing -/

/-- The place of `y`, at or below `x`, after `j` rows: a vacant sibling on the way moves it
up. -/
def climb (vacant : Node → Bool) : Nat → Node → Node → Node
  | 0, _, y => y
  | j + 1, x, y => climb vacant j x.parent (if vacant x.sibling then raise x.sibling y else y)

section
variable {vacant : Node → Bool}

theorem climb_parent (j : Nat) (h : y.row < x.row) :
    climb vacant j x y.parent = (climb vacant j x y).parent := by
  induction j generalizing x y with
  | zero => rfl
  | succ j ih =>
    rw [climb, climb]
    by_cases hv : vacant x.sibling = true
    · rw [if_pos hv, if_pos hv, raise_parent (by rwa [sibling_row])]
      exact ih (by rw [raise_row, parent_row]; omega)
    · rw [if_neg hv, if_neg hv]
      exact ih (by rw [parent_row]; omega)

theorem isRight_climb (j : Nat) (h : y.row < x.row) :
    (climb vacant j x y).isRight = y.isRight := by
  induction j generalizing x y with
  | zero => rfl
  | succ j ih =>
    rw [climb]
    by_cases hv : vacant x.sibling = true
    · rw [if_pos hv, ih (by rw [raise_row, parent_row]; omega),
        isRight_raise (by rwa [sibling_row])]
    · rw [if_neg hv, ih (by rw [parent_row]; omega)]

theorem climb_sibling (j : Nat) (h : y.row < x.row) :
    climb vacant j x y.sibling = (climb vacant j x y).sibling := by
  refine eq_of_parent_of_isRight ?_ ?_
  · rw [← climb_parent j (by rwa [sibling_row]), sibling_parent, sibling_parent, climb_parent j h]
  · rw [isRight_climb j (by rwa [sibling_row]), isRight_sibling, isRight_sibling,
      isRight_climb j h]

end

end Merkle.Node

namespace Utreexo
open Merkle

variable {H : Type} {slots : List (Option H)} {x y : Node}

/-! ### The tree below a node -/

/-- The tree over the slots below a node. -/
def nodeTree (slots : List (Option H)) (x : Node) : Option (CTree H) :=
  CTree.perfect (slotAt slots) x.row (x.off * 2 ^ x.row)

theorem nodeTree_parent (slots : List (Option H)) (x : Node) :
    nodeTree slots x.parent = if x.isRight then
      CTree.join (nodeTree slots x.sibling) (nodeTree slots x)
    else CTree.join (nodeTree slots x) (nodeTree slots x.sibling) := by
  have hp : 2 ^ (x.row + 1) = 2 * 2 ^ x.row := Nat.pow_succ'
  unfold nodeTree
  rw [Node.parent_row, CTree.perfect, Node.sibling_row]
  by_cases hr : x.isRight = true
  · have hodd : x.off % 2 = 1 := by simpa [Node.isRight] using hr
    rw [if_pos hr, Node.sibling, if_neg (by omega), Node.parent, hp,
      show x.off / 2 * (2 * 2 ^ x.row) = (x.off - 1) * 2 ^ x.row by
        rw [← Nat.mul_assoc, show x.off / 2 * 2 = x.off - 1 by omega],
      show (x.off - 1) * 2 ^ x.row + 2 ^ x.row = x.off * 2 ^ x.row by
        rw [← Nat.succ_mul, Nat.succ_eq_add_one, show x.off - 1 + 1 = x.off by omega]]
  · have heven : x.off % 2 = 0 := by
      have : ¬ x.off % 2 = 1 := by simpa [Node.isRight] using hr
      omega
    rw [if_neg hr, Node.sibling, if_pos heven, Node.parent, hp,
      show x.off / 2 * (2 * 2 ^ x.row) = x.off * 2 ^ x.row by
        rw [← Nat.mul_assoc, show x.off / 2 * 2 = x.off by omega],
      show x.off * 2 ^ x.row + 2 ^ x.row = (x.off + 1) * 2 ^ x.row by rw [Nat.succ_mul]]

/-- A tree is part of that of the parent. -/
theorem nodeTree_parent_ne_none (hx : nodeTree slots x ≠ none) :
    nodeTree slots x.parent ≠ none := by
  obtain ⟨T, hT⟩ := Option.ne_none_iff_exists'.mp hx
  rw [nodeTree_parent, hT]
  rcases nodeTree slots x.sibling with _ | U
  · rw [CTree.join_none_left, CTree.join_none_right, ite_self]
    exact Option.some_ne_none T
  · rw [CTree.join_some, CTree.join_some]
    split
    · exact Option.some_ne_none _
    · exact Option.some_ne_none _

theorem rootTree_eq_nodeTree (slots : List (Option H)) (r : Nat) :
    rootTree slots r = nodeTree slots (Node.rootAt slots.length r) := by
  unfold rootTree nodeTree rootStart Node.rootAt
  rw [Nat.pow_succ', Nat.mul_assoc]

/-- A tree has the live leaves of its slots. -/
theorem mem_leavesOpt_nodeTree {h : H} : h ∈ CTree.leavesOpt (nodeTree slots x) ↔
    ∃ i, x.off * 2 ^ x.row ≤ i ∧ i < (x.off + 1) * 2 ^ x.row ∧ slotAt slots i = some h := by
  rw [nodeTree, CTree.leavesOpt_perfect, List.mem_filterMap, Nat.succ_mul]
  constructor
  · rintro ⟨i, hi, hs⟩
    obtain ⟨h1, h2⟩ := List.mem_range'_1.mp hi
    exact ⟨i, h1, h2, hs⟩
  · rintro ⟨i, h1, h2, hs⟩
    exact ⟨i, List.mem_range'_1.mpr ⟨h1, h2⟩, hs⟩

/-- A tree with a live slot is not empty. -/
theorem nodeTree_ne_none {i : Nat} {h : H} (hi : slotAt slots i = some h)
    (hlo : x.off * 2 ^ x.row ≤ i) (hhi : i < (x.off + 1) * 2 ^ x.row) :
    nodeTree slots x ≠ none := by
  intro hnone
  have hmem : h ∈ CTree.leavesOpt (nodeTree slots x) :=
    mem_leavesOpt_nodeTree.mpr ⟨i, hlo, hhi, hi⟩
  rw [hnone] at hmem
  cases hmem

/-! ### The place of a tree -/

/-- Whether there is no leaf below a node. -/
def vacantBelow (slots : List (Option H)) (x : Node) : Bool := (nodeTree slots x).isNone

theorem vacantBelow_iff : vacantBelow slots x = true ↔ nodeTree slots x = none :=
  Option.isNone_iff_eq_none

/-- The node where the collapsed forest places the tree below a node. -/
def place (slots : List (Option H)) (x : Node) : Node :=
  match rootAbove slots.length x with
  | some r => Node.climb (vacantBelow slots) (r - x.row) x x
  | none => x

/-- Climbing keeps the subtree that is found at the end of the path. -/
theorem subAt_climb {T S : CTree H} {i : Nat} (j : Nat) (hT : nodeTree slots x = some T)
    (hi : y.up i = x) (hS : T.subAt (y.path i) = some S) :
    ∃ T' i', nodeTree slots (x.up j) = some T' ∧
      (Node.climb (vacantBelow slots) j x y).up i' = x.up j ∧
      T'.subAt ((Node.climb (vacantBelow slots) j x y).path i') = some S := by
  induction j generalizing x y T i with
  | zero => exact ⟨T, i, by rwa [Node.up_zero], by rwa [Node.up_zero], hS⟩
  | succ j ih =>
    rw [Node.climb, ← Node.parent_up]
    have hpar := nodeTree_parent slots x
    by_cases hv : vacantBelow slots x.sibling = true
    · -- The parent has the tree of `x`.
      rw [vacantBelow_iff.mp hv, CTree.join_none_left, CTree.join_none_right, ite_self, hT] at hpar
      have hrow : x.sibling.row - y.row = i := by
        have := congrArg Node.row hi
        rw [Node.up_row] at this
        rw [Node.sibling_row]
        omega
      have hle : y.row ≤ x.sibling.row := by
        have := congrArg Node.row hi
        rw [Node.up_row] at this
        rw [Node.sibling_row]
        omega
      rw [if_pos hv]
      refine ih hpar (i := i) ?_ ?_
      · rw [← hrow, Node.raise_up hle, Node.sibling_parent]
      · rw [← hrow, Node.raise_path, hrow]
        exact hS
    · obtain ⟨U, hU⟩ : ∃ U, nodeTree slots x.sibling = some U :=
        Option.ne_none_iff_exists'.mp fun h => hv (vacantBelow_iff.mpr h)
      rw [hU, hT, CTree.join_some, CTree.join_some] at hpar
      rw [if_neg hv]
      have hpath : y.path (i + 1) = x.isRight :: y.path i := by
        rw [Node.path_add, hi]
        rfl
      have hup : y.up (i + 1) = x.parent := by rw [Node.up_succ, hi]
      rcases hr : x.isRight with _ | _
      · rw [hr, if_neg (by decide)] at hpar
        refine ih hpar hup ?_
        rw [hpath, hr, CTree.subAt_node]
        exact hS
      · rw [hr, if_pos rfl] at hpar
        refine ih hpar hup ?_
        rw [hpath, hr, CTree.subAt_node]
        exact hS

section
variable (hn : slots.length < 2 ^ 64)
include hn

theorem place_eq {j : Nat} (hroot : (x.up j).IsRoot slots.length) :
    place slots x = Node.climb (vacantBelow slots) j x x := by
  unfold place
  rw [rootAbove_eq hn hroot]
  dsimp only
  rw [Nat.add_sub_cancel_left]

/-- **The tree below a node is placed at the node's place.** -/
theorem placed_place {T : CTree H} (hx : x.InForest slots.length) (hT : nodeTree slots x = some T) :
    placed slots (place slots x) = some T := by
  obtain ⟨j, hj⟩ := hx.exists_root
  rw [place_eq hn hj]
  obtain ⟨T', i, hT', hup, hsub⟩ := subAt_climb j hT (Node.up_zero x) (CTree.subAt_nil T)
  have hroot : ((Node.climb (vacantBelow slots) j x x).up i).IsRoot slots.length := by rwa [hup]
  have hrow := congrArg Node.row hup
  rw [Node.up_row, Node.up_row] at hrow
  obtain ⟨-, heq⟩ := Node.isRoot_iff_rootAt.mp hj
  rw [Node.up_row] at heq
  rw [placed_eq hn hroot, hrow, rootTree_eq_nodeTree, ← heq, hT', Option.bind_some, hsub]

theorem place_root (hx : x.IsRoot slots.length) : place slots x = x := by
  rw [place_eq hn (j := 0) (by rwa [Node.up_zero])]
  rfl

/-- Beside an empty tree, a tree has the place of the parent. -/
theorem place_of_vacant (hp : x.parent.InForest slots.length)
    (hv : nodeTree slots x.sibling = none) : place slots x = place slots x.parent := by
  obtain ⟨j, hj⟩ := hp.exists_root
  rw [place_eq hn hj, place_eq hn (j := j + 1) (by rwa [← Node.parent_up]), Node.climb,
    if_pos (vacantBelow_iff.mpr hv), Node.raise_sibling_self]

section
variable (hp : x.parent.InForest slots.length) (hx : nodeTree slots x ≠ none)
  (hs : nodeTree slots x.sibling ≠ none)
include hp hs

/-- Two trees side by side have the places below that of the parent. -/
theorem place_parent : place slots x.parent = (place slots x).parent := by
  obtain ⟨j, hj⟩ := hp.exists_root
  rw [place_eq hn hj, place_eq hn (j := j + 1) (by rwa [← Node.parent_up]), Node.climb,
    if_neg fun h => hs (vacantBelow_iff.mp h)]
  exact Node.climb_parent j (Nat.lt_succ_self _)

theorem isRight_place : (place slots x).isRight = x.isRight := by
  obtain ⟨j, hj⟩ := hp.exists_root
  rw [place_eq hn (j := j + 1) (by rwa [← Node.parent_up]), Node.climb,
    if_neg fun h => hs (vacantBelow_iff.mp h)]
  exact Node.isRight_climb j (Nat.lt_succ_self _)

include hx in
theorem place_sibling : place slots x.sibling = (place slots x).sibling := by
  obtain ⟨j, hj⟩ := hp.exists_root
  have hj' : (x.sibling.up (j + 1)).IsRoot slots.length := by
    rwa [← Node.parent_up, Node.sibling_parent]
  rw [place_eq hn hj', place_eq hn (j := j + 1) (by rwa [← Node.parent_up]), Node.climb, Node.climb,
    Node.sibling_sibling, Node.sibling_parent, if_neg fun h => hs (vacantBelow_iff.mp h),
    if_neg fun h => hx (vacantBelow_iff.mp h)]
  exact Node.climb_sibling j (Nat.lt_succ_self _)

end

/-- Above the place of a tree are the places of the trees it is part of. -/
theorem exists_of_above_place (hx : x.InForest slots.length) (hT : nodeTree slots x ≠ none)
    (hy : y.Above (place slots x)) (hin : y.InForest slots.length) :
    ∃ z : Node, z.Above x ∧ z.InForest slots.length ∧ nodeTree slots z ≠ none ∧
      place slots z = y ∧
      (y.IsRoot slots.length ∨
        z.parent.InForest slots.length ∧ nodeTree slots z.sibling ≠ none) := by
  obtain ⟨j, hj⟩ := hx.exists_root
  induction j generalizing x with
  | zero =>
    rw [Node.up_zero] at hj
    rw [place_root hn hj] at hy
    have hyx : y = x := by
      by_contra hne
      exact Node.not_isRoot_of_parent ((hy.parent_of_ne hne).inForest hin) hj
    subst hyx
    exact ⟨y, .refl y, hx, hT, place_root hn hj, Or.inl hj⟩
  | succ j ih =>
    rw [← Node.parent_up] at hj
    have hp : x.parent.InForest slots.length := Node.inForest_of_up hj.inForest
    have hrec : y.Above (place slots x.parent) → _ :=
      fun h => ih hp (nodeTree_parent_ne_none hT) h hj
    by_cases hv : nodeTree slots x.sibling = none
    · rw [place_of_vacant hn hp hv] at hy
      obtain ⟨z, h1, h2⟩ := hrec hy
      exact ⟨z, h1.trans x.parent_above, h2⟩
    · by_cases he : y = place slots x
      · exact ⟨x, .refl x, hx, hT, he.symm, Or.inr ⟨hp, hv⟩⟩
      · have hy' := hy.parent_of_ne he
        rw [← place_parent hn hp hv] at hy'
        obtain ⟨z, h1, h2⟩ := hrec hy'
        exact ⟨z, h1.trans x.parent_above, h2⟩

end

end Utreexo
