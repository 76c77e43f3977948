import Mathlib.Logic.Function.Iterate
import Utreexo.MoveUp

/-! # Positions as a tree

What it means for positions to be above one another, in terms of `parent`, `leftChild` and
`rightChild` alone: a position is at or below another one if going up leads from it to the
other, and a list of turns leads down.  On the positions of a perfect tree both are what they
are for nodes.
-/
namespace Utreexo
open Merkle

/-- Going up leads from `p` to `q`. -/
def AtOrBelow (forestRows p q : Nat) : Prop := ∃ j, (parent · forestRows)^[j] p = q

/-- The position at the end of the turns, `true` for the right child. -/
def descend (forestRows p : Nat) (turns : List Bool) : Nat :=
  turns.foldl (fun p b => if b then rightChild p forestRows else leftChild p forestRows) p

section
variable {k : Nat} {x y : Node}

theorem nodePos_top : nodePos k ⟨k, 0⟩ = 2 ^ (k + 1) - 2 := by
  rw [nodePos, show k + 1 - k = 1 by omega, Nat.pow_one, Nat.add_zero]

theorem Fits.eq_top (h : Fits k x) (hr : x.row = k) : x = ⟨k, 0⟩ := by
  have ho := h.2
  rw [hr, Nat.sub_self, Nat.pow_zero] at ho
  ext
  · exact hr
  · exact Nat.lt_one_iff.mp ho

theorem Fits.row_lt (h : Fits k x) (hp : nodePos k x ≠ 2 ^ (k + 1) - 2) : x.row < k := by
  refine Nat.lt_of_le_of_ne h.1 fun hr => hp ?_
  rw [h.eq_top hr, nodePos_top]

/-- A position other than the top is that of a node below the top row. -/
theorem exists_fits_row_lt {p : Nat} (hp : p < 2 ^ (k + 1) - 2) :
    ∃ x, Fits k x ∧ x.row < k ∧ p = nodePos k x := by
  obtain ⟨x, hx, rfl⟩ := Fits.exists_of_lt (k := k) (show p < 2 ^ (k + 1) - 1 by omega)
  exact ⟨x, hx, hx.row_lt (by omega), rfl⟩

theorem Fits.up {j : Nat} (h : Fits k x) (hj : x.row + j ≤ k) : Fits k (x.up j) := by
  induction j with
  | zero => rwa [Node.up_zero]
  | succ j ih =>
    rw [Node.up_succ]
    exact (ih (by omega)).parent (by rw [Node.up_row]; omega)

/-- A position that is the sibling of another one is that of its sibling: the number after the
top is no position. -/
theorem eq_sibling_of_nodePos (hx : Fits k x) (hy : Fits k y)
    (h : nodePos k y = nodePos k x.sibling) : y = x.sibling := by
  by_cases hrow : x.row < k
  · exact hy.pos_inj (hx.sibling hrow) h
  · have htop := hx.eq_top (Nat.le_antisymm hx.1 (Nat.not_lt.mp hrow))
    have hlt := hy.pos_lt_max
    have hsib : nodePos k x.sibling = nodePos k ⟨k, 0⟩ + 1 := by
      rw [htop]
      rfl
    rw [h, hsib, nodePos_top] at hlt
    omega

theorem exists_nodes_of_lt {l : List Nat} (h : ∀ p ∈ l, p < 2 ^ (k + 1) - 1) :
    ∃ xs : List Node, (∀ x ∈ xs, Fits k x) ∧ l = xs.map (nodePos k) := by
  induction l with
  | nil => exact ⟨[], by simp, rfl⟩
  | cons p l ih =>
    obtain ⟨hp, hl⟩ := List.forall_mem_cons.mp h
    obtain ⟨x, hx, rfl⟩ := Fits.exists_of_lt hp
    obtain ⟨xs, hxs, rfl⟩ := ih hl
    exact ⟨x :: xs, List.forall_mem_cons.mpr ⟨hx, hxs⟩, rfl⟩

/-- Two siblings that fit are below the top. -/
theorem Fits.parent_of_sibling (hx : Fits k x) (hs : Fits k x.sibling) : Fits k x.parent := by
  apply hx.parent
  by_contra hrow
  have hr : x.row = k := Nat.le_antisymm hx.1 (Nat.not_lt.mp hrow)
  exact x.sibling_ne ((hs.eq_top hr).trans (hx.eq_top hr).symm)

/-! ### Going up -/

variable (hk : k ≤ 63)
include hk

/-- Above the top there is one number more, its own parent. -/
theorem parent_eq_max {p : Nat} (h1 : 2 ^ (k + 1) - 2 ≤ p) (h2 : p ≤ 2 ^ (k + 1) - 1) :
    parent p k = 2 ^ (k + 1) - 1 := by
  have h0 : 2 ^ (k + 1) = 2 * 2 ^ k := by ring
  have hk' : (2 : Nat) ^ k < 2 ^ 64 := Nat.pow_lt_pow_right (by omega) (by omega)
  have hpos := Nat.two_pow_pos k
  have hor := Nat.two_pow_add_eq_or_of_lt (show p / 2 < 2 ^ k by omega) 1
  rw [Nat.mul_one] at hor
  rw [parent, shl64_of_lt (by omega), Nat.one_mul, Nat.shiftRight_one, Nat.or_comm, ← hor]
  omega

theorem iterate_parent (h : Fits k x) (j : Nat) : (parent · k)^[j] (nodePos k x) =
    if x.row + j ≤ k then nodePos k (x.up j) else 2 ^ (k + 1) - 1 := by
  induction j with
  | zero => rw [if_pos (by have := h.1; omega), Node.up_zero, Function.iterate_zero_apply]
  | succ j ih =>
    rw [Function.iterate_succ_apply', ih]
    by_cases hj : x.row + j ≤ k
    · rw [if_pos hj]
      by_cases hj' : x.row + (j + 1) ≤ k
      · rw [if_pos hj', Node.up_succ]
        exact parent_nodePos hk (h.up hj) (by rw [Node.up_row]; omega)
      · rw [if_neg hj', (h.up hj).eq_top (by rw [Node.up_row]; omega), nodePos_top]
        exact parent_eq_max hk (Nat.le_refl _) (by omega)
    · rw [if_neg hj, if_neg (by omega)]
      exact parent_eq_max hk (by omega) (Nat.le_refl _)

theorem atOrBelow_nodePos (hx : Fits k x) (hy : Fits k y) :
    AtOrBelow k (nodePos k x) (nodePos k y) ↔ y.Above x := by
  constructor
  · rintro ⟨j, hj⟩
    rw [iterate_parent hk hx] at hj
    by_cases hr : x.row + j ≤ k
    · rw [if_pos hr] at hj
      exact ⟨j, (hx.up hr).pos_inj hy hj⟩
    · rw [if_neg hr] at hj
      have := hy.pos_lt_max
      omega
  · rintro ⟨j, rfl⟩
    exact ⟨j, by rw [iterate_parent hk hx, if_pos (by exact hy.1)]⟩

/-- The source's test for ancestors. -/
theorem isAncestor_iff_atOrBelow {p q : Nat} (hp : p < 2 ^ (k + 1) - 1)
    (hq : q < 2 ^ (k + 1) - 1) : isAncestor q p k = true ↔ AtOrBelow k p q ∧ p ≠ q := by
  obtain ⟨x, hx, rfl⟩ := Fits.exists_of_lt hp
  obtain ⟨y, hy, rfl⟩ := Fits.exists_of_lt hq
  rw [isAncestor_nodePos hk hy hx, atOrBelow_nodePos hk hx hy]
  constructor
  · rintro ⟨habove, hne⟩
    exact ⟨habove, fun h => hne (hx.pos_inj hy h).symm⟩
  · rintro ⟨habove, hne⟩
    exact ⟨habove, fun h => hne (by rw [h])⟩

/-! ### Going down -/

/-- The turns to a node lead to it. -/
theorem descend_path {j : Nat} (h : Fits k (x.up j)) :
    descend k (nodePos k (x.up j)) (x.path j) = nodePos k x := by
  induction j generalizing x with
  | zero => rw [Node.up_zero, Node.path_zero, descend, List.foldl_nil]
  | succ j ih =>
    have hpar : Fits k x.parent := by
      rw [← Node.parent_up] at h
      exact h.of_above ⟨j, rfl⟩
    have hup := ih (x := x.parent) (by rwa [Node.parent_up])
    rw [Node.parent_up] at hup
    rw [descend] at hup
    rw [descend, Node.path_succ, List.foldl_append, hup, List.foldl_cons, List.foldl_nil]
    rcases hr : x.isRight with _ | _
    · have heven : x.off % 2 = 0 := by
        have : ¬ x.off % 2 = 1 := by simpa [Node.isRight] using hr
        omega
      rw [if_neg (by decide), leftChild_nodePos hk hpar (Nat.succ_pos _), Node.parent_left heven]
    · have hodd : x.off % 2 = 1 := by simpa [Node.isRight] using hr
      rw [if_pos rfl, rightChild_nodePos hk hpar (Nat.succ_pos _), Node.parent_right hodd]

end

end Utreexo
