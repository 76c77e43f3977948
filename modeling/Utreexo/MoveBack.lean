import Utreexo.PosTree

/-! # Moving back down

`calcPrevPosition` undoes the move that `calcNextPosition` makes over a deleted node: the
bit that chose between the deleted node and its sibling is put back in.  Every position at
or below the parent of the deleted node, other than a leaf, comes from below the sibling.
-/
namespace Merkle.Node
variable {t y q : Node}

/-- The place below the sibling of `t` that `q`, below the parent of `t`, has come from. -/
def lower (t q : Node) : Node :=
  ⟨q.row - 1, t.sibling.off * 2 ^ (t.row + 1 - q.row) + q.off % 2 ^ (t.row + 1 - q.row)⟩

theorem sibling_above_lower (hr : q.row ≤ t.row + 1) (h0 : 0 < q.row) :
    t.sibling.Above (lower t q) := by
  apply above_iff.mpr
  have hrow : t.sibling.row - (lower t q).row = t.row + 1 - q.row := by
    simp only [sibling_row, lower]
    omega
  constructor
  · simp only [sibling_row, lower]
    omega
  · rw [hrow, lower, Nat.mul_comm, Nat.mul_add_div (Nat.two_pow_pos _),
      Nat.div_eq_of_lt (Nat.mod_lt _ (Nat.two_pow_pos _)), Nat.add_zero]

theorem raise_lower (h : t.parent.Above q) (h0 : 0 < q.row) : raise t (lower t q) = q := by
  obtain ⟨hr, hoff⟩ := above_iff.mp h
  rw [parent_row] at hr hoff
  have hrow : t.row - (lower t q).row = t.row + 1 - q.row := by
    simp only [lower]
    omega
  ext
  · simp only [raise_row, lower]
    omega
  · unfold raise
    rw [hrow]
    dsimp only [lower]
    rw [Nat.mul_comm t.sibling.off, Nat.mul_add_mod, Nat.mod_mod,
      show t.off / 2 = t.parent.off from rfl, ← hoff, Nat.mul_comm, Nat.div_add_mod]

end Merkle.Node

namespace Utreexo
open Merkle

/-- `addBit` on digits. -/
theorem testBit_addBit {v b i : Nat} (hv : v < 2 ^ 63) (hb : b < 64) (bit : Bool) :
    (addBit v b bit).testBit i =
      if i < b then v.testBit i else if i = b then bit else v.testBit (i - 1) := by
  have h1 : shl64 1 b = 2 ^ b := by
    have : 2 ^ b < 2 ^ 64 := Nat.pow_lt_pow_right (by omega) (by omega)
    rw [shl64_of_lt (by rwa [Nat.one_mul]), Nat.one_mul]
  have h2 : sub64 (2 ^ b) 1 = 2 ^ b - 1 :=
    sub64_of_le (Nat.pow_lt_pow_right (by omega) (by omega)) Nat.one_le_two_pow
  have hhigh : 63 ≤ i - 1 → v.testBit (i - 1) = false := fun h =>
    Nat.testBit_lt_two_pow (Nat.lt_of_lt_of_le hv (Nat.pow_le_pow_right (by omega) h))
  -- The digits but for the one at the place.
  have hrest : (shl64 (v &&& not64 (2 ^ b - 1)) 1 ||| v &&& (2 ^ b - 1)).testBit i =
      if i < b then v.testBit i else if i = b then false else v.testBit (i - 1) := by
    rw [Nat.testBit_or, testBit_shl64, Nat.testBit_and, Nat.testBit_and, not64, Nat.testBit_xor,
      Nat.testBit_two_pow_sub_one, Nat.testBit_two_pow_sub_one, Nat.testBit_two_pow_sub_one]
    by_cases hi : i < b
    · have : ¬ 1 ≤ i ∨ i - 1 < b := by omega
      rw [if_pos hi]
      rcases this with h | h
      · simp [h, hi]
      · simp [h, hi, show i - 1 < 64 by omega]
    · rw [if_neg hi]
      by_cases hib : i = b
      · subst hib
        by_cases h0 : 1 ≤ i
        · simp [h0, show i - 1 < i by omega, show i - 1 < 64 by omega]
        · simp [h0]
      · rw [if_neg hib]
        have h0 : 1 ≤ i := by omega
        have hb' : ¬ i - 1 < b := by omega
        by_cases h64 : i < 64
        · simp [h0, hi, hb', h64, show i - 1 < 64 by omega]
        · simp [hi, hhigh (by omega)]
  unfold addBit
  rw [h1, h2]
  dsimp only
  cases bit with
  | false => rw [if_neg (by decide), hrest]
  | true =>
    rw [if_pos rfl, Nat.testBit_or, hrest, Nat.testBit_two_pow]
    by_cases hi : i < b
    · simp [hi, show b ≠ i by omega]
    · by_cases hib : i = b
      · simp [hib]
      · simp [hi, hib, show b ≠ i by omega]

section
variable {k : Nat} (hk : k ≤ 63) {t y : Node}
include hk

omit hk in
/-- What is below the sibling has at the digit of the choice the turn that `t` does not take. -/
theorem testBit_sibling (hy : t.sibling.Above y) :
    y.off.testBit (t.row - y.row) = decide (t.off % 2 = 0) := by
  have hoff := (Node.above_iff.mp hy).2
  rw [Node.sibling_row] at hoff
  rw [Nat.testBit_eq_decide_div_mod_eq, hoff, Node.sibling]
  dsimp only
  by_cases h : t.off % 2 = 0
  · rw [if_pos h, decide_eq_decide]
    omega
  · rw [if_neg h, decide_eq_decide]
    omega

/-- **`calcPrevPosition` moves back what `calcNextPosition` has moved.** -/
theorem calcPrevPosition_nodePos (ht : Fits k t) (hrow : t.row < k) (hy : t.sibling.Above y) :
    calcPrevPosition (nodePos k (Node.raise t y)) (nodePos k t) k = nodePos k y := by
  have hyt := hy.row_le
  rw [Node.sibling_row] at hyt
  have hfit : Fits k y := (ht.sibling hrow).of_above hy
  have hraise : Fits k (Node.raise t y) := (ht.parent hrow).of_above (Node.parent_above_raise hyt)
  -- The mask clears the bit of the top row.
  have hbits (i : Nat) : (nodePos k (Node.raise t y) &&& not64 (2 ^ k)).testBit i =
      ((nodePos k (Node.raise t y)).testBit i && decide (i ≠ k)) := by
    have hhigh : 64 ≤ i → (nodePos k (Node.raise t y)).testBit i = false := fun h =>
      Nat.testBit_lt_two_pow (Nat.lt_of_lt_of_le (hraise.pos_lt_word hk)
        (Nat.pow_le_pow_right (by omega) h))
    rw [Nat.testBit_and, not64, Nat.testBit_xor, Nat.testBit_two_pow_sub_one,
      Nat.testBit_two_pow]
    by_cases hi : i < 64
    · by_cases hik : k = i
      · simp [hik, hi]
      · simp [hi, hik, Ne.symm hik]
    · rw [hhigh (by omega), Bool.false_and, Bool.false_and]
  have hlow : nodePos k (Node.raise t y) &&& not64 (2 ^ k) < 2 ^ 63 := by
    apply Nat.lt_pow_two_of_testBit
    intro i hi
    rw [hbits, hraise.testBit, Node.raise_row]
    have hoff : (Node.raise t y).off.testBit i = false := Nat.testBit_lt_two_pow
      (Nat.lt_of_lt_of_le hraise.2 (Nat.pow_le_pow_right (by omega) (by omega)))
    by_cases hik : i = k
    · simp [hik]
    · simp [hoff, show ¬ i ≤ k by omega]
  unfold calcPrevPosition
  rw [detectRow_nodePos hk hraise, detectRow_nodePos hk ht, isLeftNiece_nodePos ht]
  dsimp only [Node.raise_row]
  rw [sub8_of_le (by omega) (by omega), shl64_row hk (by omega),
    sub8_of_le (show y.row + 1 < 2 ^ 8 by omega) (by omega), Nat.add_sub_cancel,
    sub8_of_le (by omega) hyt]
  apply Nat.eq_of_testBit_eq
  intro i
  rw [testBit_addBit hlow (by omega), hbits, hbits, hraise.testBit, hraise.testBit,
    testBit_raise hy, testBit_raise hy, hfit.testBit, Node.raise_row]
  have hout : k + 1 ≤ i → y.off.testBit i = false := fun h =>
    Nat.testBit_lt_two_pow (Nat.lt_of_lt_of_le hfit.2 (Nat.pow_le_pow_right (by omega) (by omega)))
  by_cases hi : i < t.row - y.row
  · have h1 : ¬ k + 1 - (y.row + 1) ≤ i := by omega
    have h2 : ¬ k + 1 - y.row ≤ i := by omega
    rw [if_pos hi, if_pos hi, decide_eq_false h1, decide_eq_false h2,
      decide_eq_true (show i ≠ k by omega), Bool.and_true]
  · rw [if_neg hi]
    by_cases hid : i = t.row - y.row
    · have h2 : ¬ k + 1 - y.row ≤ t.row - y.row := by omega
      rw [if_pos hid, hid, testBit_sibling hy]
      simp [h2]
    · rw [if_neg hid, if_neg (by omega), show i - 1 + 1 = i by omega, Bool.eq_iff_iff]
      simp only [Bool.or_eq_true, Bool.and_eq_true, decide_eq_true_eq]
      constructor
      · rintro ⟨h | h, hne⟩
        · exact Or.inl h
        · exact Or.inr (by omega)
      · rintro (h | h)
        · have hik : ¬ k + 1 ≤ i := fun hki => by
            rw [hout hki] at h
            cases h
          exact ⟨Or.inl h, by omega⟩
        · exact ⟨Or.inr (by omega), by omega⟩

end

/-- **Moving up over a deleted node and moving back down are inverse to one another.**  What
is at or below the sibling of the deleted node moves to the same turns below their parent,
and every position at or below the parent that is not on the lowest row is reached. -/
theorem calcPrevPosition_calcNextPosition {T del : Nat} (hT : T ≤ 62)
    (hdel : del < 2 ^ (T + 1) - 2) :
    (∀ pos < 2 ^ (T + 1) - 1, AtOrBelow T pos (sibling del) →
      ∃ turns next, turns.length + detectRow pos T = detectRow del T ∧
        descend T (sibling del) turns = pos ∧ calcNextPosition pos del T = .ok next ∧
        descend T (parent del T) turns = next ∧ calcPrevPosition next del T = pos) ∧
    (∀ q < 2 ^ (T + 1) - 1, AtOrBelow T q (parent del T) → 1 ≤ detectRow q T →
      AtOrBelow T (calcPrevPosition q del T) (sibling del) ∧
        calcNextPosition (calcPrevPosition q del T) del T = .ok q) := by
  have hk : T ≤ 63 := by omega
  obtain ⟨t, ht, hrow, rfl⟩ := exists_fits_row_lt hdel
  have hsib := ht.sibling hrow
  have hpar := ht.parent hrow
  rw [sibling_nodePos ht, parent_nodePos hk ht hrow]
  constructor
  · intro pos hpos habove
    obtain ⟨y, hy, rfl⟩ := Fits.exists_of_lt hpos
    have hty := (atOrBelow_nodePos hk hy hsib).mp habove
    have hle : y.row ≤ t.row := hty.row_le
    have hup : y.up (t.row - y.row) = t.sibling := by
      obtain ⟨j, hj⟩ := hty
      have hrows := congrArg Node.row hj
      rw [Node.up_row, Node.sibling_row] at hrows
      rwa [show t.row - y.row = j by omega]
    refine ⟨y.path (t.row - y.row), nodePos T (t.raise y), ?_, ?_, ?_, ?_, ?_⟩
    · rw [Node.length_path, detectRow_nodePos hk hy, detectRow_nodePos hk ht]
      omega
    · rw [← hup]
      exact descend_path hk (by rwa [hup])
    · exact calcNextPosition_nodePos hk ht hrow hty
    · rw [← Node.raise_path, ← Node.raise_up hle]
      exact descend_path hk (by rwa [Node.raise_up hle])
    · exact calcPrevPosition_nodePos hk ht hrow hty
  · intro q hq habove hq1
    obtain ⟨y, hy, rfl⟩ := Fits.exists_of_lt hq
    rw [detectRow_nodePos hk hy] at hq1
    have hty := (atOrBelow_nodePos hk hy hpar).mp habove
    have hlow := Node.sibling_above_lower (t := t) hty.row_le hq1
    have hraise := Node.raise_lower hty hq1
    have hprev : calcPrevPosition (nodePos T y) (nodePos T t) T = nodePos T (t.lower y) := by
      rw [← calcPrevPosition_nodePos hk ht hrow hlow, hraise]
    rw [hprev, calcNextPosition_nodePos hk ht hrow hlow, hraise]
    exact ⟨(atOrBelow_nodePos hk (hsib.of_above hlow) hsib).mpr hlow, rfl⟩

/-- With three rows and 9 deleted, the leaf 1 below the sibling 8 moves to 9 and back, and 9
below the parent 12 comes from below 8. -/
theorem calcPrevPosition_calcNextPosition_nine :
    (∃ turns next, turns.length + detectRow 1 3 = detectRow 9 3 ∧
      descend 3 (sibling 9) turns = 1 ∧ calcNextPosition 1 9 3 = .ok next ∧
      descend 3 (parent 9 3) turns = next ∧ calcPrevPosition next 9 3 = 1) ∧
    AtOrBelow 3 (calcPrevPosition 9 9 3) (sibling 9) ∧
      calcNextPosition (calcPrevPosition 9 9 3) 9 3 = .ok 9 :=
  have h := calcPrevPosition_calcNextPosition (T := 3) (show 3 ≤ 62 by decide)
    (show 9 < 2 ^ (3 + 1) - 2 by decide)
  ⟨h.1 1 (by decide) ⟨1, by decide⟩, h.2 9 (by decide) ⟨1, by decide⟩ (by decide)⟩

end Utreexo
