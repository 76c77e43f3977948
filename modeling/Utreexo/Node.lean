import Mathlib.Data.Nat.Bitwise
import Mathlib.Tactic.Ring

/-! # Nodes of a binary forest

A node is given by its row and its offset in the row; the leaves are on row 0.
A forest with `n` leaves has `n / 2 ^ r` nodes on row `r`, and its roots are the
nodes without a parent: the last one on every row with an odd number of nodes.

Nodes are ordered row by row, from left to right in a row.  This is the order in
which a sweep from the leaves to the roots visits them.
-/
namespace Merkle

@[ext] structure Node where
  row : Nat
  off : Nat
  deriving DecidableEq, Repr

namespace Node

/-- The order of the sweep. -/
def Before (x y : Node) : Prop := x.row < y.row ∨ x.row = y.row ∧ x.off < y.off

instance (x y : Node) : Decidable (x.Before y) := inferInstanceAs (Decidable (_ ∨ _))

def parent (x : Node) : Node := ⟨x.row + 1, x.off / 2⟩

def sibling (x : Node) : Node := ⟨x.row, if x.off % 2 = 0 then x.off + 1 else x.off - 1⟩

def left (x : Node) : Node := ⟨x.row - 1, 2 * x.off⟩

def right (x : Node) : Node := ⟨x.row - 1, 2 * x.off + 1⟩

/-- The ancestor `j` rows above. -/
def up (x : Node) (j : Nat) : Node := ⟨x.row + j, x.off / 2 ^ j⟩

/-- The nodes of a forest with `n` leaves. -/
def InForest (n : Nat) (x : Node) : Prop := x.off < n / 2 ^ x.row

instance (n : Nat) (x : Node) : Decidable (x.InForest n) := Nat.decLt _ _

/-- The roots of a forest with `n` leaves. -/
def IsRoot (n : Nat) (x : Node) : Prop := n / 2 ^ x.row = x.off + 1 ∧ x.off % 2 = 0

instance (n : Nat) (x : Node) : Decidable (x.IsRoot n) := inferInstanceAs (Decidable (_ ∧ _))

/-- The root on row `r`, if there is one. -/
def rootAt (n r : Nat) : Node := ⟨r, n / 2 ^ (r + 1) * 2⟩

variable {n : Nat} {x y z : Node}

/-! ### The order -/

theorem Before.trans (h1 : x.Before y) (h2 : y.Before z) : x.Before z := by
  unfold Before at *
  omega

theorem Before.irrefl (x : Node) : ¬ x.Before x := by
  unfold Before
  omega

theorem before_or_eq_or (x y : Node) : x.Before y ∨ x = y ∨ y.Before x := by
  unfold Before
  rw [Node.ext_iff]
  omega

theorem before_parent (x : Node) : x.Before x.parent := Or.inl (Nat.lt_succ_self _)

/-! ### Parents, children and siblings -/

theorem up_zero (x : Node) : x.up 0 = x := by simp [up]

theorem up_succ (x : Node) (j : Nat) : x.up (j + 1) = (x.up j).parent := by
  simp [up, parent, Nat.pow_succ, Nat.div_div_eq_div_mul, Nat.add_assoc]

theorem up_add (x : Node) (i j : Nat) : x.up (i + j) = (x.up i).up j := by
  simp [up, Nat.pow_add, Nat.div_div_eq_div_mul, Nat.add_assoc]

theorem up_one (x : Node) : x.up 1 = x.parent := by rw [up_succ, up_zero]

theorem parent_up (x : Node) (j : Nat) : x.parent.up j = x.up (j + 1) := by
  rw [← up_one, ← up_add, Nat.add_comm]

@[simp] theorem up_row (x : Node) (j : Nat) : (x.up j).row = x.row + j := rfl

@[simp] theorem parent_row (x : Node) : x.parent.row = x.row + 1 := rfl

@[simp] theorem sibling_row (x : Node) : x.sibling.row = x.row := rfl

theorem sibling_ne (x : Node) : x.sibling ≠ x := by
  rw [Ne, Node.ext_iff, sibling]
  dsimp only
  split <;> omega

@[simp] theorem sibling_sibling (x : Node) : x.sibling.sibling = x := by
  unfold sibling
  ext
  · rfl
  · dsimp only
    split <;> split <;> omega

@[simp] theorem sibling_parent (x : Node) : x.sibling.parent = x.parent := by
  unfold sibling parent
  ext
  · rfl
  · dsimp only
    split <;> omega

theorem eq_or_eq_sibling (hp : x.parent = y.parent) : y = x ∨ y = x.sibling := by
  unfold parent at hp
  simp only [Node.mk.injEq, Nat.add_right_cancel_iff] at hp
  rw [Node.ext_iff, Node.ext_iff, sibling]
  dsimp only
  split <;> omega

theorem left_parent (h : 0 < x.row) : x.left.parent = x := by
  unfold left parent
  ext <;> dsimp only <;> omega

theorem right_parent (h : 0 < x.row) : x.right.parent = x := by
  unfold right parent
  ext <;> dsimp only <;> omega

theorem left_sibling (x : Node) : x.left.sibling = x.right := by
  unfold left right sibling
  ext <;> dsimp only
  split <;> omega

theorem right_sibling (x : Node) : x.right.sibling = x.left := by
  rw [← left_sibling, sibling_sibling]

theorem parent_left (h : x.off % 2 = 0) : x.parent.left = x := by
  unfold left parent
  ext <;> dsimp only <;> omega

theorem parent_right (h : x.off % 2 = 1) : x.parent.right = x := by
  unfold right parent
  ext <;> dsimp only <;> omega

/-! ### The forest -/

theorem div_pow_succ (n r : Nat) : n / 2 ^ (r + 1) = n / 2 ^ r / 2 := by
  rw [Nat.pow_succ, Nat.div_div_eq_div_mul]

theorem IsRoot.inForest (h : x.IsRoot n) : x.InForest n := by
  unfold IsRoot at h
  unfold InForest
  omega

theorem InForest.mono {m : Nat} (h : x.InForest n) (hnm : n ≤ m) : x.InForest m :=
  Nat.lt_of_lt_of_le h (Nat.div_le_div_right hnm)

/-- A node that is not a root has its parent in the forest. -/
theorem InForest.parent (h : x.InForest n) (hr : ¬ x.IsRoot n) : x.parent.InForest n := by
  unfold InForest IsRoot Node.parent at *
  dsimp only
  rw [div_pow_succ]
  omega

/-- A node that is not a root has a sibling in the forest. -/
theorem InForest.sibling (h : x.InForest n) (hr : ¬ x.IsRoot n) : x.sibling.InForest n := by
  unfold InForest IsRoot Node.sibling at *
  dsimp only
  split <;> omega

theorem inForest_of_parent (h : x.parent.InForest n) : x.InForest n := by
  unfold InForest Node.parent at *
  dsimp only at h
  rw [div_pow_succ] at h
  omega

theorem not_isRoot_of_parent (h : x.parent.InForest n) : ¬ x.IsRoot n := by
  unfold InForest IsRoot Node.parent at *
  dsimp only at h
  rw [div_pow_succ] at h
  omega

theorem inForest_of_up {j : Nat} (h : (x.up j).InForest n) : x.InForest n := by
  induction j with
  | zero => simpa [up_zero] using h
  | succ j ih => exact ih (inForest_of_parent (up_succ x j ▸ h))

theorem IsRoot.sibling_not_inForest (h : x.IsRoot n) : ¬ x.sibling.InForest n := by
  unfold InForest IsRoot Node.sibling at *
  dsimp only
  rw [if_pos h.2]
  omega

theorem isRoot_iff_rootAt : x.IsRoot n ↔ n.testBit x.row = true ∧ x = rootAt n x.row := by
  rw [Nat.testBit_eq_decide_div_mod_eq, decide_eq_true_iff, rootAt, Node.ext_iff, div_pow_succ]
  unfold IsRoot
  dsimp only
  omega

theorem rootAt_isRoot {r : Nat} (h : n.testBit r = true) : (rootAt n r).IsRoot n :=
  isRoot_iff_rootAt.mpr ⟨h, rfl⟩

/-- Two roots on one row are the same. -/
theorem IsRoot.eq_of_row_eq (hx : x.IsRoot n) (hy : y.IsRoot n) (h : x.row = y.row) : x = y := by
  rw [(isRoot_iff_rootAt.mp hx).2, (isRoot_iff_rootAt.mp hy).2, h]

/-- Every node of the forest is under a root. -/
theorem InForest.exists_root (h : x.InForest n) : ∃ j, (x.up j).IsRoot n := by
  -- Rows above the number of leaves have no nodes.
  have key : ∀ d (x : Node), x.InForest n → n < x.row + d → ∃ j, (x.up j).IsRoot n := by
    intro d
    induction d with
    | zero =>
      intro x hx hd
      have hlt : n < 2 ^ x.row := Nat.lt_trans hd Nat.lt_two_pow_self
      unfold InForest at hx
      rw [Nat.div_eq_of_lt hlt] at hx
      exact absurd hx (Nat.not_lt_zero _)
    | succ d ih =>
      intro x hx hd
      by_cases hr : x.IsRoot n
      · exact ⟨0, by rwa [up_zero]⟩
      · obtain ⟨j, hj⟩ := ih x.parent (hx.parent hr) (by simp only [parent_row]; omega)
        exact ⟨j + 1, by rwa [← parent_up]⟩
  exact key (n + 1) x h (by omega)

/-- A path to a root is unique. -/
theorem root_up_unique {i j : Nat} (hi : (x.up i).IsRoot n) (hj : (x.up j).IsRoot n) : i = j := by
  -- A root has no node above it in the forest.
  have key : ∀ {i j : Nat}, (x.up i).IsRoot n → (x.up j).IsRoot n → ¬ i < j := by
    intro i j hi hj hlt
    obtain ⟨d, rfl⟩ := Nat.exists_eq_add_of_lt hlt
    refine not_isRoot_of_parent (x := x.up i) ?_ hi
    rw [← up_succ]
    refine inForest_of_up (j := d) ?_
    rw [← up_add, show i + 1 + d = i + d + 1 from by omega]
    exact hj.inForest
  have h1 := key hi hj
  have h2 := key hj hi
  omega

/-! ### Above and below -/

/-- `y` is `x` or one of its descendants. -/
def Above (x y : Node) : Prop := ∃ j, y.up j = x

theorem Above.refl (x : Node) : x.Above x := ⟨0, up_zero x⟩

theorem Above.trans (h1 : x.Above y) (h2 : y.Above z) : x.Above z := by
  obtain ⟨i, rfl⟩ := h1
  obtain ⟨j, rfl⟩ := h2
  exact ⟨j + i, up_add z j i⟩

theorem Above.row_le (h : x.Above y) : y.row ≤ x.row := by
  obtain ⟨j, rfl⟩ := h
  simp

theorem Above.eq_of_row_eq (h : x.Above y) (hr : x.row = y.row) : x = y := by
  obtain ⟨j, rfl⟩ := h
  obtain rfl : j = 0 := by simpa using hr
  exact up_zero y

theorem parent_above (x : Node) : x.parent.Above x := ⟨1, up_one x⟩

theorem Above.parent_of_ne (h : x.Above y) (hne : x ≠ y) : x.Above y.parent := by
  obtain ⟨j, rfl⟩ := h
  cases j with
  | zero => exact absurd (up_zero y) hne
  | succ j => exact ⟨j, parent_up y j⟩

theorem above_iff : x.Above y ↔ y.row ≤ x.row ∧ y.off / 2 ^ (x.row - y.row) = x.off := by
  constructor
  · rintro ⟨j, rfl⟩
    simp [up]
  · rintro ⟨h1, h2⟩
    refine ⟨x.row - y.row, ?_⟩
    ext
    · simp only [up]; omega
    · exact h2

instance (x y : Node) : Decidable (x.Above y) := decidable_of_iff _ above_iff.symm

/-- Two nodes above one node are above one another. -/
theorem Above.total (h1 : x.Above z) (h2 : y.Above z) : x.Above y ∨ y.Above x := by
  obtain ⟨i, rfl⟩ := h1
  obtain ⟨j, rfl⟩ := h2
  rcases Nat.le_total i j with h | h
  · obtain ⟨d, rfl⟩ := Nat.exists_eq_add_of_le h
    exact Or.inr ⟨d, (up_add z i d).symm⟩
  · obtain ⟨d, rfl⟩ := Nat.exists_eq_add_of_le h
    exact Or.inl ⟨d, (up_add z j d).symm⟩

theorem Above.inForest (h : x.Above y) (hx : x.InForest n) : y.InForest n := by
  obtain ⟨j, rfl⟩ := h
  exact inForest_of_up hx

end Node

end Merkle
