import Utreexo.Antichain
import Utreexo.Offset
import Utreexo.Placed

/-! # Moving up over a deleted sibling

When the subtree of a node `t` is deleted, its parent is replaced by its sibling, so what
is below the sibling moves one row up and keeps its turns (`Node.raise`).  On positions
this is `calcNextPosition`: the bit that chose between `t` and its sibling is taken out.
-/
namespace Merkle.Node
variable {x y t : Node}

/-- The place of `y`, below the sibling of `t`, once the subtree of `t` is gone. -/
def raise (t y : Node) : Node :=
  ⟨y.row + 1, t.off / 2 * 2 ^ (t.row - y.row) + y.off % 2 ^ (t.row - y.row)⟩

@[simp] theorem raise_row (t y : Node) : (raise t y).row = y.row + 1 := rfl

/-- The low digits of the offset are the last turns. -/
theorem path_eq_of_mod {j : Nat} (h : x.off % 2 ^ j = y.off % 2 ^ j) : x.path j = y.path j := by
  induction j generalizing x y with
  | zero => rfl
  | succ j ih =>
    have hp : 2 ^ (j + 1) = 2 * 2 ^ j := Nat.pow_succ'
    rw [hp] at h
    have hlow : x.off % 2 = y.off % 2 := by
      rw [← Nat.mod_mul_right_mod x.off 2 (2 ^ j), h, Nat.mod_mul_right_mod]
    have hhigh : x.parent.off % 2 ^ j = y.parent.off % 2 ^ j := by
      have := congrArg (· / 2) h
      simp only [Nat.mod_mul_right_div_self] at this
      exact this
    rw [path_succ, path_succ, ih hhigh, isRight, isRight, hlow]

theorem raise_up (hr : y.row ≤ t.row) : (raise t y).up (t.row - y.row) = t.parent := by
  have hdiv : (t.off / 2 * 2 ^ (t.row - y.row) + y.off % 2 ^ (t.row - y.row)) /
      2 ^ (t.row - y.row) = t.off / 2 := by
    rw [Nat.mul_comm, Nat.mul_add_div (Nat.two_pow_pos _),
      Nat.div_eq_of_lt (Nat.mod_lt _ (Nat.two_pow_pos _)), Nat.add_zero]
  unfold raise up parent
  rw [hdiv, Node.mk.injEq]
  exact ⟨by dsimp only; omega, rfl⟩

theorem raise_path (t y : Node) :
    (raise t y).path (t.row - y.row) = y.path (t.row - y.row) := by
  refine path_eq_of_mod ?_
  rw [raise, Nat.mul_comm, Nat.mul_add_mod, Nat.mod_mod]

theorem parent_above_raise (hr : y.row ≤ t.row) : t.parent.Above (raise t y) :=
  ⟨_, raise_up hr⟩

end Merkle.Node

namespace Utreexo
open Merkle

section
variable {k : Nat} (hk : k ≤ 63) {x y t : Node}
include hk

omit hk in
theorem Fits.of_above (hx : Fits k x) (h : x.Above y) : Fits k y := by
  obtain ⟨j, rfl⟩ := h
  induction j generalizing y with
  | zero => rwa [Node.up_zero] at hx
  | succ j ih => exact Fits.child (ih (by rwa [Node.parent_up]))

theorem isAncestor_nodePos (hx : Fits k x) (hy : Fits k y) :
    isAncestor (nodePos k x) (nodePos k y) k = true ↔ x.Above y ∧ x ≠ y := by
  unfold isAncestor
  rw [detectRow_nodePos hk hx, detectRow_nodePos hk hy]
  have hxk := hx.1
  by_cases heq : x = y
  · simp [heq]
  · have hpos : nodePos k x ≠ nodePos k y := fun h => heq (hx.pos_inj hy h)
    rw [if_neg hpos]
    dsimp only
    by_cases hrow : x.row < y.row
    · rw [if_pos hrow]
      refine ⟨fun h => absurd h (by decide), fun h => absurd h.1.row_le (by omega)⟩
    · rw [if_neg hrow, sub8_of_le (by omega) (by omega),
        parentMany_nodePos hk hy (by omega)]
      have hfit : Fits k (y.up (x.row - y.row)) := by
        refine ⟨by simp only [Node.up_row]; omega, ?_⟩
        refine Nat.div_lt_of_lt_mul ?_
        rw [← Nat.pow_add, Node.up_row,
          show x.row - y.row + (k - (y.row + (x.row - y.row))) = k - y.row by omega]
        exact hy.2
      simp only [decide_eq_true_eq]
      constructor
      · intro h
        exact ⟨⟨_, (hx.pos_inj hfit h).symm⟩, heq⟩
      · rintro ⟨⟨j, rfl⟩, -⟩
        rw [Node.up_row, Nat.add_sub_cancel_left]

omit hk in
/-- `removeBit` on digits. -/
theorem testBit_removeBit {v b i : Nat} (hv : v < 2 ^ 64) (hb : b < 63) :
    (removeBit v b).testBit i = if i < b then v.testBit i else v.testBit (i + 1) := by
  have h1 : sub64 (shl64 2 b) 1 = 2 ^ (b + 1) - 1 := by
    have : 2 ^ (b + 1) < 2 ^ 64 := Nat.pow_lt_pow_right (by omega) (by omega)
    rw [shl64_of_lt (by rw [← Nat.pow_succ']; exact this), ← Nat.pow_succ',
      sub64_of_le this Nat.one_le_two_pow]
  have h2 : sub64 (shl64 1 b) 1 = 2 ^ b - 1 := by
    have : 2 ^ b < 2 ^ 64 := Nat.pow_lt_pow_right (by omega) (by omega)
    rw [shl64_of_lt (by rwa [Nat.one_mul]), Nat.one_mul, sub64_of_le this Nat.one_le_two_pow]
  have hhigh : 64 ≤ i + 1 → v.testBit (i + 1) = false := fun h =>
    Nat.testBit_lt_two_pow (Nat.lt_of_lt_of_le hv (Nat.pow_le_pow_right (by omega) h))
  rw [removeBit, h1, h2, Nat.testBit_or, Nat.testBit_shiftRight, Nat.testBit_and, Nat.testBit_and,
    not64, Nat.testBit_xor, Nat.testBit_two_pow_sub_one, Nat.testBit_two_pow_sub_one,
    Nat.testBit_two_pow_sub_one, Nat.add_comm 1 i]
  by_cases hi : i < b
  · rw [if_pos hi]
    simp [hi, show i + 1 < 64 by omega]
  · rw [if_neg hi]
    by_cases h64 : i + 1 < 64
    · simp [hi, h64]
    · rw [hhigh (by omega)]
      simp [hi]

omit hk in
/-- Raising a node takes one digit out of its offset. -/
theorem testBit_raise (hy : t.sibling.Above y) (i : Nat) : (Node.raise t y).off.testBit i =
    if i < t.row - y.row then y.off.testBit i else y.off.testBit (i + 1) := by
  have hyt := hy.row_le
  rw [Node.sibling_row] at hyt
  -- Above that digit the offset of `y` is that of the parent of `t`.
  have hdiv : t.off / 2 = y.off / 2 ^ (t.row - y.row + 1) := by
    have h := (Node.above_iff.mp ((t.sibling.parent_above).trans hy)).2
    rw [Node.sibling_parent, Node.parent_row,
      show t.row + 1 - y.row = t.row - y.row + 1 by omega] at h
    exact h.symm
  rw [Node.raise, Nat.mul_comm,
    Nat.testBit_two_pow_mul_add _ (Nat.mod_lt _ (Nat.two_pow_pos _))]
  by_cases hi : i < t.row - y.row
  · rw [if_pos hi, if_pos hi, Nat.testBit_mod_two_pow, decide_eq_true hi, Bool.true_and]
  · rw [if_neg hi, if_neg hi, hdiv, Nat.testBit_div_two_pow,
      show i - (t.row - y.row) + (t.row - y.row + 1) = i + 1 by omega]

/-- The bit of the top row, as it is put in front of the bits of a row. -/
theorem shl64_row {r : Nat} (hr : r ≤ k) : shl64 (shl64 1 r) (k - r) = 2 ^ k := by
  have h1 : 2 ^ r < 2 ^ 64 := Nat.pow_lt_pow_right (by omega) (by omega)
  have h2 : 2 ^ r * 2 ^ (k - r) = 2 ^ k := by
    rw [← Nat.pow_add, Nat.add_sub_cancel' hr]
  have h3 : 2 ^ k < 2 ^ 64 := Nat.pow_lt_pow_right (by omega) (by omega)
  have h4 : shl64 1 r = 2 ^ r := by rw [shl64_of_lt (by rwa [Nat.one_mul]), Nat.one_mul]
  rw [h4, shl64_of_lt (by rwa [h2]), h2]

/-- **`calcNextPosition` moves what is below the sibling of the deleted node one row up.** -/
theorem calcNextPosition_nodePos (ht : Fits k t) (hrow : t.row < k) (hy : t.sibling.Above y) :
    calcNextPosition (nodePos k y) (nodePos k t) k = .ok (nodePos k (Node.raise t y)) := by
  have hyt := hy.row_le
  rw [Node.sibling_row] at hyt
  have hfit : Fits k y := (ht.sibling hrow).of_above hy
  have hraise : Fits k (Node.raise t y) := (ht.parent hrow).of_above (Node.parent_above_raise hyt)
  have hword : nodePos k y < 2 ^ 64 := Fits.pos_lt_word hk hfit
  unfold calcNextPosition
  rw [detectRow_nodePos hk hfit, detectRow_nodePos hk ht]
  dsimp only
  rw [if_neg (by omega), sub8_of_le (by omega) hyt, add8_one (by omega),
    sub8_of_le (by omega) (by omega), shl64_row hk (by omega)]
  congr 1
  refine Nat.eq_of_testBit_eq fun i => ?_
  rw [Nat.testBit_or, testBit_removeBit hword (by omega), hraise.testBit, testBit_raise hy,
    hfit.testBit, hfit.testBit, Nat.testBit_two_pow, Node.raise_row]
  have hlow : k + 1 - y.row ≤ i → y.off.testBit i = false := fun h =>
    Nat.testBit_lt_two_pow (Nat.lt_of_lt_of_le hfit.off_lt (Nat.pow_le_pow_right (by omega) h))
  rw [Bool.eq_iff_iff]
  by_cases hi : i < t.row - y.row
  · rw [if_pos hi, if_pos hi]
    simp only [Bool.or_eq_true, Bool.and_eq_true, decide_eq_true_eq]
    constructor
    · rintro (h | h | h)
      · omega
      · exact Or.inl h
      · omega
    · rintro (h | h)
      · exact Or.inr (Or.inl h)
      · omega
  · rw [if_neg hi, if_neg hi]
    simp only [Bool.or_eq_true, Bool.and_eq_true, decide_eq_true_eq]
    constructor
    · rintro (h | h | h)
      · exact Or.inr (by omega)
      · exact Or.inl h
      · exact Or.inr (by omega)
    · rintro (h | h)
      · exact Or.inr (Or.inl h)
      · by_cases hki : k = i
        · exact Or.inl hki
        · exact Or.inr (Or.inr (by omega))

end

end Utreexo
