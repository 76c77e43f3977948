import Mathlib.Data.List.Pairwise
import Utreexo.Node
import Utreexo.RootRows
import Utreexo.TreePath

/-! # Where the collapsed forest places its nodes

The root of a collapsed tree is placed at the root's node, and the children of a
placed tree at the children of its node.  So a node of the forest with one vacant
child holds what its other child would hold, and below a leaf nothing is placed.

`placed slots x` is the tree at the node `x`.  Deleting what is placed at `x` moves
what is below its sibling one row up and leaves all other places alone
(`placed_delSlots`, `placed_delSlots_moved`).
-/
namespace Merkle.Node
variable {x y : Node}

/-- Whether the node is a right child. -/
def isRight (x : Node) : Bool := x.off % 2 = 1

@[simp] theorem isRight_left (x : Node) : x.left.isRight = false := by
  simp [isRight, left]

@[simp] theorem isRight_right (x : Node) : x.right.isRight = true := by
  simp [isRight, right]

@[simp] theorem isRight_sibling (x : Node) : x.sibling.isRight = !x.isRight := by
  unfold isRight sibling
  by_cases h : x.off % 2 = 0
  · have h1 : (x.off + 1) % 2 = 1 := by omega
    simp [h, h1]
  · have h1 : (x.off - 1) % 2 = 0 := by omega
    have h2 : x.off % 2 = 1 := by omega
    simp [h1, h2]

/-- The turns from the ancestor `j` rows above down to the node. -/
def path (x : Node) : Nat → List Bool
  | 0 => []
  | j + 1 => x.parent.path j ++ [x.isRight]

@[simp] theorem path_zero (x : Node) : x.path 0 = [] := rfl

theorem path_succ (x : Node) (j : Nat) : x.path (j + 1) = x.parent.path j ++ [x.isRight] := rfl

@[simp] theorem length_path (x : Node) (j : Nat) : (x.path j).length = j := by
  induction j generalizing x with
  | zero => rfl
  | succ j ih => simp [path_succ, ih]

theorem path_add (x : Node) (i j : Nat) : x.path (i + j) = (x.up i).path j ++ x.path i := by
  induction i generalizing x with
  | zero => simp [up_zero]
  | succ i ih =>
    rw [show i + 1 + j = i + j + 1 from by omega, path_succ, ih, parent_up, path_succ,
      List.append_assoc]

/-- The turns from a common ancestor determine the node. -/
theorem eq_of_path_eq {j : Nat} (hup : x.up j = y.up j) (h : x.path j = y.path j) : x = y := by
  induction j generalizing x y with
  | zero => simpa [up_zero] using hup
  | succ j ih =>
    rw [path_succ, path_succ] at h
    obtain ⟨h1, h2⟩ := List.append_inj' h rfl
    have hp := ih (by rw [parent_up, parent_up]; exact hup) h1
    rcases eq_or_eq_sibling hp with rfl | rfl
    · rfl
    · simp at h2

/-- Under one ancestor the node with the shorter path is above the other exactly if
its path is the start of the other's. -/
theorem path_prefix_iff {i j : Nat} (hup : x.up i = y.up j) :
    x.path i <+: y.path j ↔ x.Above y := by
  constructor
  · intro h
    have hle : i ≤ j := by simpa using h.length_le
    obtain ⟨d, rfl⟩ := Nat.exists_eq_add_of_le' hle
    rw [path_add] at h
    rw [up_add] at hup
    have heq : x.path i = (y.up d).path i := by
      refine List.IsPrefix.eq_of_length ?_ (by simp)
      exact List.prefix_of_prefix_length_le h (List.prefix_append _ _) (by simp)
    exact ⟨d, (eq_of_path_eq hup heq).symm⟩
  · rintro ⟨d, rfl⟩
    have : d + i = j := by
      have := congrArg row hup
      simp only [up_row] at this
      omega
    rw [← this, path_add]
    exact List.prefix_append _ _

/-- The node at the end of the turns. -/
def down (x : Node) : List Bool → Node
  | [] => x
  | b :: p => (if b then x.right else x.left).down p

theorem down_spec {p : List Bool} (h : p.length ≤ x.row) :
    (x.down p).up p.length = x ∧ (x.down p).path p.length = p := by
  induction p generalizing x with
  | nil => exact ⟨up_zero x, rfl⟩
  | cons b p ih =>
    rw [List.length_cons] at h
    have hrow : (if b then x.right else x.left).row = x.row - 1 := by cases b <;> rfl
    obtain ⟨h1, h2⟩ := ih (x := if b then x.right else x.left) (by omega)
    rw [down, List.length_cons]
    constructor
    · rw [up_succ, h1]
      cases b
      · exact left_parent (by omega)
      · exact right_parent (by omega)
    · rw [path_add _ p.length 1, h1, h2]
      cases b <;> simp [path_succ]

end Merkle.Node

namespace Utreexo
open Merkle

section
variable {H : Type} {n : Nat} {x y : Node}

/-- The row of the root above a node. -/
def rootAbove (n : Nat) (x : Node) : Option Nat :=
  (rootRows n 0).find? fun r => x.row ≤ r && x.up (r - x.row) == Node.rootAt n r

theorem rootAbove_eq (hn : n < 2 ^ 64) {j : Nat} (hroot : (x.up j).IsRoot n) :
    rootAbove n x = some (x.row + j) := by
  obtain ⟨hbit, heq⟩ := Node.isRoot_iff_rootAt.mp hroot
  rw [Node.up_row] at hbit heq
  have hlt : x.row + j < 64 := by
    by_contra hge
    rw [Nat.testBit_lt_two_pow (Nat.lt_of_lt_of_le hn
      (Nat.pow_le_pow_right (by omega) (by omega)))] at hbit
    cases hbit
  have hmem : x.row + j ∈ rootRows n 0 := mem_rootRows.mpr ⟨by omega, hlt, hbit⟩
  rcases hf : rootAbove n x with _ | r
  · have := List.find?_eq_none.mp hf _ hmem
    simp [← heq] at this
  · obtain ⟨h1, h2⟩ : x.row ≤ r ∧ x.up (r - x.row) = Node.rootAt n r := by
      simpa using List.find?_some hf
    have hr : (x.up (r - x.row)).IsRoot n := by
      rw [h2]
      exact Node.rootAt_isRoot (mem_rootRows.mp (List.mem_of_find?_eq_some hf)).2.2
    have := Node.root_up_unique hr hroot
    rw [show r = x.row + j from by omega]

theorem mem_rootRows_of_isRoot (hn : n < 2 ^ 64) {j : Nat} (hroot : (x.up j).IsRoot n) :
    x.row + j ∈ rootRows n 0 :=
  List.mem_of_find?_eq_some (rootAbove_eq hn hroot)

theorem rootAbove_isRoot {r : Nat} (h : rootAbove n x = some r) :
    ∃ j, r = x.row + j ∧ (x.up j).IsRoot n := by
  obtain ⟨h1, h2⟩ : x.row ≤ r ∧ x.up (r - x.row) = Node.rootAt n r := by
    simpa using List.find?_some h
  refine ⟨r - x.row, by omega, ?_⟩
  rw [h2]
  exact Node.rootAt_isRoot (mem_rootRows.mp (List.mem_of_find?_eq_some h)).2.2

/-- The tree that the collapsed forest places at a node. -/
def placed (slots : List (Option H)) (x : Node) : Option (CTree H) :=
  (rootAbove slots.length x).bind fun r =>
    (rootTree slots r).bind (·.subAt (x.path (r - x.row)))

variable {slots : List (Option H)}

theorem placed_eq (hn : slots.length < 2 ^ 64) {j : Nat} (hroot : (x.up j).IsRoot slots.length) :
    placed slots x = (rootTree slots (x.row + j)).bind (·.subAt (x.path j)) := by
  rw [placed, rootAbove_eq hn hroot, Option.bind_some, Nat.add_sub_cancel_left]

theorem placed_inForest {t : CTree H} (h : placed slots x = some t) : x.InForest slots.length := by
  obtain ⟨r, hr, _⟩ := Option.bind_eq_some_iff.mp h
  obtain ⟨j, _, hj⟩ := rootAbove_isRoot hr
  exact Node.inForest_of_up hj.inForest

theorem placed_root (hn : slots.length < 2 ^ 64) (hroot : x.IsRoot slots.length) :
    placed slots x = rootTree slots x.row := by
  rw [placed_eq hn (j := 0) (by rwa [Node.up_zero])]
  simp

/-- The children of a placed tree are placed at the children of its node. -/
theorem placed_child (hn : slots.length < 2 ^ 64) (hp : x.parent.InForest slots.length) :
    placed slots x = (placed slots x.parent).bind (CTree.child x.isRight) := by
  obtain ⟨j, hj⟩ := hp.exists_root
  have hj' : (x.up (j + 1)).IsRoot slots.length := by rwa [← Node.parent_up]
  rw [placed_eq hn hj, placed_eq hn hj', Node.parent_row,
    show x.row + (j + 1) = x.row + 1 + j from by omega, Option.bind_assoc]
  refine congrArg _ (funext fun t => ?_)
  rw [Node.path_succ, CTree.subAt_concat]

/-! ### Leaves -/

theorem rootTree_leaves_subset (slots : List (Option H)) (r : Nat) :
    ∀ h ∈ CTree.leavesOpt (rootTree slots r), h ∈ liveLeaves slots :=
  leavesOpt_perfect_subset _ _ _

theorem placed_leaves_subset {t : CTree H} (h : placed slots x = some t) :
    ∀ a ∈ t.leaves, a ∈ liveLeaves slots := by
  intro a ha
  obtain ⟨r, _, h⟩ := Option.bind_eq_some_iff.mp h
  obtain ⟨T, hT, h⟩ := Option.bind_eq_some_iff.mp h
  refine rootTree_leaves_subset slots r a ?_
  rw [hT]
  exact (CTree.leaves_subAt h).subset ha

/-- The live leaves are the leaves that are placed. -/
theorem mem_liveLeaves_iff_placed (hn : slots.length < 2 ^ 64) {h : H} :
    h ∈ liveLeaves slots ↔ ∃ x, placed slots x = some (.leaf h) := by
  constructor
  · intro hh
    rw [← leaves_forestTrees hn] at hh
    obtain ⟨T, hT, hh⟩ := List.mem_flatMap.mp hh
    obtain ⟨r, hr, rfl⟩ := List.mem_map.mp hT
    rcases ht : rootTree slots r with _ | t
    · rw [ht] at hh
      cases hh
    · rw [ht] at hh
      obtain ⟨p, hp⟩ := CTree.exists_path_of_mem hh
      have hlen : p.length ≤ (Node.rootAt slots.length r).row :=
        CTree.length_le_of_subAt_perfect ht hp
      obtain ⟨h1, h2⟩ := Node.down_spec hlen
      refine ⟨(Node.rootAt slots.length r).down p, ?_⟩
      have hroot : (((Node.rootAt slots.length r).down p).up p.length).IsRoot slots.length := by
        rw [h1]
        exact Node.rootAt_isRoot (mem_rootRows.mp hr).2.2
      have hrow := congrArg Node.row h1
      rw [Node.up_row] at hrow
      rw [placed_eq hn hroot, hrow, h2]
      change (rootTree slots r).bind _ = _
      rw [ht, Option.bind_some, hp]
  · rintro ⟨x, hx⟩
    exact placed_leaves_subset hx h (by simp [CTree.leaves])

section Nodup
variable (hn : slots.length < 2 ^ 64) (hnd : (liveLeaves slots).Nodup)
include hn hnd

theorem rootTree_leaves_nodup {r : Nat} (hr : r ∈ rootRows slots.length 0) :
    (CTree.leavesOpt (rootTree slots r)).Nodup := by
  rw [← leaves_forestTrees hn, List.nodup_flatMap] at hnd
  exact hnd.1 _ (List.mem_map_of_mem hr)

/-- Different trees have no leaf in common. -/
theorem rootTree_leaves_disjoint {r r' : Nat} (hr : r ∈ rootRows slots.length 0)
    (hr' : r' ∈ rootRows slots.length 0) (hne : r ≠ r') {h : H}
    (h1 : h ∈ CTree.leavesOpt (rootTree slots r)) (h2 : h ∈ CTree.leavesOpt (rootTree slots r')) :
    False := by
  rw [← leaves_forestTrees hn, List.nodup_flatMap, forestTrees, List.pairwise_map] at hnd
  have hsymm : Std.Symm fun a b =>
      Function.onFun List.Disjoint CTree.leavesOpt (rootTree slots a) (rootTree slots b) :=
    ⟨fun _ _ h _ h1 h2 => h h2 h1⟩
  exact hnd.2.forall hr hr' hne h1 h2

/-- A live leaf has one place. -/
theorem placed_leaf_unique {h : H} (hx : placed slots x = some (.leaf h))
    (hy : placed slots y = some (.leaf h)) : x = y := by
  obtain ⟨i, hi⟩ := (placed_inForest hx).exists_root
  obtain ⟨j, hj⟩ := (placed_inForest hy).exists_root
  rw [placed_eq hn hi] at hx
  rw [placed_eq hn hj] at hy
  obtain ⟨s, hs, hx⟩ := Option.bind_eq_some_iff.mp hx
  obtain ⟨t, ht, hy⟩ := Option.bind_eq_some_iff.mp hy
  have hmi := mem_rootRows_of_isRoot hn hi
  have hmj := mem_rootRows_of_isRoot hn hj
  have hrow : x.row + i = y.row + j := by
    by_contra hne
    refine rootTree_leaves_disjoint hn hnd hmi hmj hne (h := h) ?_ ?_
    · rw [hs]; exact CTree.mem_leaves_of_subAt hx
    · rw [ht]; exact CTree.mem_leaves_of_subAt hy
  have hup : x.up i = y.up j := hi.eq_of_row_eq hj hrow
  have hst : s = t := by
    rw [hrow, ht] at hs
    exact (Option.some.inj hs).symm
  subst hst
  have hsnd : s.leaves.Nodup := by
    have := rootTree_leaves_nodup hn hnd hmi
    rwa [hs] at this
  have hpath := CTree.path_unique hsnd hx hy
  obtain rfl : i = j := by simpa using congrArg List.length hpath
  exact Node.eq_of_path_eq hup hpath

/-! ### Deletions -/

variable [DecidableEq H]

/-- Deleting what is placed at a node takes it out of its tree. -/
theorem rootTree_delSlots_self {D : CTree H} (hx : placed slots x = some D) {j : Nat}
    (hroot : (x.up j).IsRoot slots.length) :
    rootTree (delSlots slots D.leaves) (x.row + j) =
      (rootTree slots (x.row + j)).bind (·.removeAt (x.path j)) := by
  rw [placed_eq hn hroot] at hx
  obtain ⟨t, ht, hx⟩ := Option.bind_eq_some_iff.mp hx
  have hsnd := rootTree_leaves_nodup hn hnd (mem_rootRows_of_isRoot hn hroot)
  rw [ht] at hsnd
  rw [rootTree_delSlots, ht, Option.bind_some, Option.bind_some,
    CTree.removeAt_eq_prune hsnd hx]

/-- The other trees stay. -/
theorem rootTree_delSlots_other {D : CTree H} (hx : placed slots x = some D) {j r : Nat}
    (hroot : (x.up j).IsRoot slots.length) (hr : r ∈ rootRows slots.length 0)
    (hne : r ≠ x.row + j) : rootTree (delSlots slots D.leaves) r = rootTree slots r := by
  rw [placed_eq hn hroot] at hx
  obtain ⟨t, ht, hx⟩ := Option.bind_eq_some_iff.mp hx
  rw [rootTree_delSlots]
  rcases hs : rootTree slots r with _ | s
  · rfl
  · rw [Option.bind_some, CTree.prune_of_none_dead]
    intro a ha
    refine decide_eq_false fun hd => ?_
    refine rootTree_leaves_disjoint hn hnd hr (mem_rootRows_of_isRoot hn hroot) hne (h := a) ?_ ?_
    · rw [hs]; exact ha
    · rw [ht]; exact (CTree.leaves_subAt hx).subset hd

/-- The place that a deletion vacates or fills with the sibling. -/
def vacated (n : Nat) (x : Node) : Node := if x.IsRoot n then x else x.parent

/-- A place neither above nor below the vacated one keeps what it holds. -/
theorem placed_delSlots {D : CTree H} (hx : placed slots x = some D)
    (h1 : ¬ (vacated slots.length x).Above y) (h2 : ¬ y.Above (vacated slots.length x)) :
    placed (delSlots slots D.leaves) y = placed slots y := by
  by_cases hy : y.InForest slots.length
  · obtain ⟨i, hi⟩ := (placed_inForest hx).exists_root
    obtain ⟨j, hj⟩ := hy.exists_root
    have hj' : (y.up j).IsRoot (delSlots slots D.leaves).length := by rwa [length_delSlots]
    rw [placed_eq hn hj, placed_eq (by rwa [length_delSlots]) hj']
    by_cases hrow : y.row + j = x.row + i
    · -- The same tree: the path to `y` leaves the path to the vacated place.
      have hup : y.up j = x.up i := hj.eq_of_row_eq hi hrow
      rw [hrow, rootTree_delSlots_self hn hnd hx hi]
      rcases i with _ | i
      · rw [Node.up_zero] at hi hup
        rw [vacated, if_pos hi] at h1
        exact absurd ⟨j, hup⟩ h1
      · have hnr : ¬ x.IsRoot slots.length := by
          intro h
          have := Node.root_up_unique (i := 0) (by rwa [Node.up_zero]) hi
          omega
        rw [vacated, if_neg hnr] at h1 h2
        rw [← Node.parent_up] at hup
        rw [Option.bind_assoc]
        refine congrArg _ (funext fun t => ?_)
        rw [Node.path_succ, CTree.removeAt_concat, Option.bind_some,
          CTree.subAt_updateAt_of_not_prefix]
        · exact fun h => h1 ((Node.path_prefix_iff hup.symm).mp h)
        · exact fun h => h2 ((Node.path_prefix_iff hup).mp h)
    · rw [rootTree_delSlots_other hn hnd hx hi (mem_rootRows_of_isRoot hn hj) hrow]
  · have hnone : ∀ s : List (Option H), s.length = slots.length → placed s y = none := by
      intro s hs
      rcases hp : placed s y with _ | t
      · rfl
      · exact absurd (by rw [← hs]; exact placed_inForest hp) hy
    rw [hnone _ (length_delSlots _ _), hnone _ rfl]

/-- What is below the sibling moves one row up. -/
theorem placed_delSlots_moved {D : CTree H} (hx : placed slots x = some D)
    (hnr : ¬ x.IsRoot slots.length) {z w : Node} {j : Nat} (hz : z.up j = x.sibling)
    (hw : w.up j = x.parent) (hpath : w.path j = z.path j) :
    placed (delSlots slots D.leaves) w = placed slots z := by
  obtain ⟨i, hi⟩ := ((placed_inForest hx).parent hnr).exists_root
  have hix : (x.up (i + 1)).IsRoot slots.length := by rwa [← Node.parent_up]
  have hiw : (w.up (j + i)).IsRoot slots.length := by rwa [Node.up_add, hw]
  have hiz : (z.up (j + (i + 1))).IsRoot slots.length := by
    rwa [Node.up_add, hz, ← Node.parent_up, Node.sibling_parent]
  have hrw := congrArg Node.row hw
  have hrz := congrArg Node.row hz
  simp only [Node.up_row, Node.parent_row, Node.sibling_row] at hrw hrz
  rw [placed_eq hn hiz, placed_eq (by rwa [length_delSlots])
    (by rw [length_delSlots]; exact hiw),
    show w.row + (j + i) = x.row + (i + 1) from by omega,
    show z.row + (j + (i + 1)) = x.row + (i + 1) from by omega,
    rootTree_delSlots_self hn hnd hx hix, Option.bind_assoc]
  rw [placed_eq hn hix] at hx
  obtain ⟨t, ht, hx⟩ := Option.bind_eq_some_iff.mp hx
  rw [ht, Option.bind_some, Option.bind_some, Node.path_succ, CTree.removeAt_concat,
    Option.bind_some, Node.path_add, hw, CTree.subAt_updateAt, hpath, Node.path_add, hz,
    Node.path_succ, Node.sibling_parent, Node.isRight_sibling, List.append_assoc,
    CTree.subAt_append]
  rw [Node.path_succ, CTree.subAt_append] at hx
  obtain ⟨s, hs, hx⟩ := Option.bind_eq_some_iff.mp hx
  rw [hs, Option.bind_some, Option.bind_some]
  cases s with
  | leaf a => cases hx
  | node l r => cases x.isRight <;> simp [CTree.lift, CTree.subAt_node]

end Nodup

end

end Utreexo
