import Utreexo.NodePos
import Utreexo.CalculateFlow

/-! # Positions of a forest

The position functions that depend on the number of leaves: the positions of the
roots, the greatest position on a row, and the tests whether a position is a root
or is in the forest at all.  `n` leaves are in a forest of `k ≤ 63` rows with room
for them, so `n ≤ 2 ^ k`.
-/
namespace Utreexo
open Merkle

section Forest
variable {n k : Nat} (hk : k ≤ 63) (hn : n ≤ 2 ^ k) {x : Node}

theorem div_pow_le {r : Nat} (hn : n ≤ 2 ^ k) (hr : r ≤ k) : n / 2 ^ r ≤ 2 ^ (k - r) := by
  calc n / 2 ^ r ≤ 2 ^ k / 2 ^ r := Nat.div_le_div_right hn
    _ = 2 ^ (k - r) := Nat.pow_div hr (by omega)

theorem div_pow_lt {r : Nat} (hn : n ≤ 2 ^ k) (hr : r ≤ k) : n / 2 ^ r < 2 ^ (k + 1 - r) :=
  Nat.lt_of_le_of_lt (div_pow_le hn hr) (Nat.pow_lt_pow_right (by omega) (by omega))

theorem testBit_row_le {r : Nat} (hn : n ≤ 2 ^ k) (hb : n.testBit r = true) : r ≤ k := by
  have := Nat.ge_two_pow_of_testBit hb
  by_contra hgt
  have h1 : 2 ^ k < 2 ^ r := Nat.pow_lt_pow_right (by omega) (by omega)
  omega

theorem shl64_and_ne_zero {r : Nat} (hn : n < 2 ^ 64) :
    (n &&& shl64 1 r != 0) = n.testBit r := by
  rcases Nat.lt_or_ge r 64 with hr | hr
  · have h1 : (2 : Nat) ^ r < 2 ^ 64 := Nat.pow_lt_pow_right (by omega) hr
    rw [shl64_of_lt (by omega), Nat.one_mul, Nat.and_two_pow]
    cases n.testBit r <;> simp
  · have h2 : n < 2 ^ r := Nat.lt_of_lt_of_le hn (Nat.pow_le_pow_right (by omega) hr)
    rw [shl64_eq_zero hr, Nat.and_zero, Nat.testBit_lt_two_pow h2]
    rfl

/-- Masking and shifting as `rootPosition` does it clears the bits of the trees on
the rows up to `r`. -/
theorem and_mask_shift {k n : Nat} (hk : k ≤ 63) (hn : n < 2 ^ (k + 1)) (r : Nat) :
    (n &&& shl64 (maxPosition k) (r + 1)) >>> r = n / 2 ^ (r + 1) * 2 := by
  refine Nat.eq_of_testBit_eq fun i => ?_
  rw [Nat.testBit_shiftRight, Nat.testBit_and, testBit_shl64, testBit_maxPosition hk,
    ← Nat.pow_one 2, Nat.mul_comm _ (2 ^ 1), Nat.testBit_two_pow_mul, Nat.pow_one,
    Nat.testBit_div_two_pow, Bool.eq_iff_iff]
  simp only [Bool.and_eq_true, decide_eq_true_eq, ge_iff_le]
  constructor
  · rintro ⟨hb, h1, h2, h3⟩
    refine ⟨by omega, ?_⟩
    rwa [show i - 1 + (r + 1) = r + i by omega]
  · rintro ⟨h1, hb⟩
    rw [show i - 1 + (r + 1) = r + i by omega] at hb
    have hle : r + i < k + 1 := by
      by_contra hge
      rw [Nat.testBit_lt_two_pow (Nat.lt_of_lt_of_le hn
        (Nat.pow_le_pow_right (by omega) (by omega)))] at hb
      cases hb
    exact ⟨hb, by omega, by omega, by omega⟩

include hk hn

theorem lt_word : n < 2 ^ 64 :=
  Nat.lt_of_le_of_lt hn (Nat.pow_lt_pow_right (by omega) (by omega))

theorem rootPosition_eq {r : Nat} (hr : r ≤ k) :
    rootPosition n r k = nodePos k (Node.rootAt n r) := by
  have hbefore := and_mask_shift hk (Nat.lt_of_le_of_lt hn
    (Nat.pow_lt_pow_right (by omega) (by omega))) r
  have hlt : n / 2 ^ (r + 1) * 2 < 2 ^ (k + 1 - r) := by
    have h1 := div_pow_lt hn hr
    have h2 := Node.div_pow_succ n r
    omega
  have h8 : add8 r 1 = r + 1 := Nat.mod_eq_of_lt (by omega)
  have h8' : sub8 (add8 k 1) r = k + 1 - r := by
    rw [show add8 k 1 = k + 1 from Nat.mod_eq_of_lt (by omega), sub8_of_le (by omega) (by omega)]
  simp only [rootPosition, h8, h8', hbefore]
  exact or_mask_eq hk hr hlt

/-- The greatest position on a row. -/
theorem maxPositionAtRow_eq {r : Nat} (hr : r ≤ k) :
    maxPositionAtRow r k n = .ok (nodePos k ⟨r, n / 2 ^ r⟩ - 1) := by
  rw [maxPositionAtRow, parentMany_eq hk hr (div_pow_lt hn hr)]
  by_cases h0 : nodePos k ⟨r, n / 2 ^ r⟩ = 0 <;> simp [bind, Except.bind, h0]

theorem maxPos_eq {r : Nat} (hr : r ≤ k) : maxPos r k n = nodePos k ⟨r, n / 2 ^ r⟩ - 1 := by
  rw [maxPos, maxPositionAtRow_eq hk hn hr]

theorem maxPos_lt_of_row_lt {r : Nat} (hx : Fits k x) (hr : r < x.row) :
    maxPos r k n < nodePos k x := by
  have hrow := hx.1
  have h1 := Fits.row_span (show r ≤ k by omega)
  have h2 := div_pow_le hn (show r ≤ k by omega)
  have h3 : 2 ^ (k + 1 - x.row) ≤ 2 ^ (k - r) := Nat.pow_le_pow_right (by omega) (by omega)
  have h4 : 2 ^ (k + 1 - x.row) < 2 ^ (k + 1) := Nat.pow_lt_pow_right (by omega) (by omega)
  rw [maxPos_eq hk hn (by omega)]
  simp only [nodePos]
  omega

theorem le_maxPos_of_inForest (hx : x.InForest n) : nodePos k x ≤ maxPos x.row k n := by
  have hfit := fits_of_inForest hn hx
  unfold Node.InForest at hx
  rw [maxPos_eq hk hn hfit.1]
  simp only [nodePos]
  omega

theorem maxPos_mono {r r' : Nat} (h : r ≤ r') (hr' : r' ≤ k) : maxPos r k n ≤ maxPos r' k n := by
  rcases Nat.lt_or_eq_of_le h with hlt | rfl
  · have h1 := Fits.row_span (show r ≤ k by omega)
    have h2 := div_pow_le hn (show r ≤ k by omega)
    have h3 : 2 ^ (k + 1 - r') ≤ 2 ^ (k - r) := Nat.pow_le_pow_right (by omega) (by omega)
    have h4 := Nat.zero_le (n / 2 ^ r')
    rw [maxPos_eq hk hn (by omega), maxPos_eq hk hn hr']
    refine Nat.sub_le_sub_right ?_ 1
    simp only [nodePos]
    omega
  · exact Nat.le_refl _

/-! ### `inForest` -/

omit hn in
/-- The rightmost leaf below a node. -/
theorem inForestLoop_nodePos (hx : Fits k x) {fuel : Nat} (hf : x.row < fuel) :
    inForestLoop (2 ^ k) (maxPosition k) fuel (nodePos k x) =
      .ok ((x.off + 1) * 2 ^ x.row - 1) := by
  induction fuel generalizing x with
  | zero => omega
  | succ fuel ih =>
    have hrow := hx.1
    have hbit : (nodePos k x).testBit k = decide (0 < x.row) := by
      rw [hx.testBit, Nat.testBit_lt_two_pow (Nat.lt_of_lt_of_le hx.2
        (Nat.pow_le_pow_right (by omega) (by omega))), Bool.false_or, Bool.eq_iff_iff]
      simp only [Bool.and_eq_true, decide_eq_true_eq]
      omega
    rw [inForestLoop, Nat.and_two_pow, hbit]
    rcases Nat.eq_zero_or_pos x.row with h0 | h0
    · simp [h0, nodePos]
    · have hfit : Fits k x.right := Fits.child (by rwa [Node.right_parent h0])
      have hr := rightChild_nodePos hk hx h0
      rw [rightChild] at hr
      rw [if_pos (by simp [h0]), hr, ih hfit (by simp only [Node.right]; omega)]
      simp only [Node.right]
      obtain ⟨r, hr'⟩ : ∃ r, x.row = r + 1 := ⟨x.row - 1, by omega⟩
      rw [hr', Nat.add_sub_cancel, Nat.pow_succ]
      congr 2
      ring

omit hn in
/-- The marker and the mask of `inForest`. -/
theorem inForest_eq (p : Nat) : inForest p n k = if p < n then .ok true else
    if 2 ^ (k + 1) - 1 ≤ p then .ok false else
      inForestLoop (2 ^ k) (maxPosition k) 65 p >>= fun leaf => .ok (decide (leaf < n)) := by
  have hmarker : shl64 1 k = 2 ^ k := by
    have : (2 : Nat) ^ k < 2 ^ 64 := Nat.pow_lt_pow_right (by omega) (by omega)
    rw [shl64_of_lt (by omega), Nat.one_mul]
  have hmask : sub64 (shl64 (2 ^ k) 1) 1 = maxPosition k := by
    rw [maxPosition, shl64, shl64, Nat.shiftLeft_eq, Nat.shiftLeft_eq, Nat.pow_one, Nat.mul_comm]
  rw [inForest, hmarker]
  dsimp only
  rw [hmask, maxPosition_eq hk]

/-- `inForest` goes to the rightmost leaf below a node. -/
theorem inForest_nodePos (hx : Fits k x) :
    inForest (nodePos k x) n k = .ok (decide (x.InForest n)) := by
  rw [inForest_eq hk]
  by_cases hlt : nodePos k x < n
  · -- A position less than the number of leaves is a leaf.
    have hleaf : Fits k ⟨0, nodePos k x⟩ := ⟨Nat.zero_le _, Nat.lt_of_lt_of_le hlt hn⟩
    have hin : (⟨0, nodePos k x⟩ : Node).InForest n := by simpa [Node.InForest] using hlt
    rw [if_pos hlt, hx.pos_inj hleaf (by simp [nodePos]), decide_eq_true hin]
  · have hrow := hx.1
    have hpos : 0 < (x.off + 1) * 2 ^ x.row := Nat.mul_pos (by omega) (Nat.two_pow_pos _)
    have hdiv : x.InForest n ↔ (x.off + 1) * 2 ^ x.row ≤ n := by
      rw [Node.InForest, ← Nat.le_div_iff_mul_le (Nat.two_pow_pos _)]
      rfl
    rw [if_neg hlt, if_neg (Nat.not_le.mpr hx.pos_lt_max),
      inForestLoop_nodePos hk hx (show x.row < 65 by omega), Exec.ok_bind, Except.ok.injEq,
      decide_eq_decide, hdiv]
    omega

theorem inForest_of_max_le {p : Nat} (hp : 2 ^ (k + 1) - 1 ≤ p) :
    inForest p n k = .ok false := by
  have h0 : 2 ^ (k + 1) = 2 * 2 ^ k := by ring
  rw [inForest_eq hk, if_neg (by omega), if_pos hp]

end Forest

/-! ### Roots -/

section Roots
variable {n : Nat} (hn : n ≤ 2 ^ 63) {x : Node}
include hn

theorem treeRows_le : treeRows n ≤ 63 := treeRows_le_iff.mpr hn

/-- The test for roots, on any position. -/
theorem isRootPositionOnRow_iff {p r : Nat} : isRootPositionOnRow p n r = true ↔
    n.testBit r = true ∧ p = nodePos (treeRows n) (Node.rootAt n r) := by
  have hk := treeRows_le hn
  have hn' := le_two_pow_treeRows n
  rw [isRootPositionOnRow, shl64_and_ne_zero (lt_word hk hn'), Bool.and_eq_true, beq_iff_eq]
  constructor
  · rintro ⟨hb, hp⟩
    exact ⟨hb, by rw [← hp, rootPosition_eq hk hn' (testBit_row_le hn' hb)]⟩
  · rintro ⟨hb, hp⟩
    exact ⟨hb, by rw [hp, rootPosition_eq hk hn' (testBit_row_le hn' hb)]⟩

theorem isRootPositionOnRow_nodePos {r : Nat} (hx : Fits (treeRows n) x) :
    isRootPositionOnRow (nodePos (treeRows n) x) n r = true ↔ x.IsRoot n ∧ r = x.row := by
  rw [isRootPositionOnRow_iff hn]
  constructor
  · rintro ⟨hb, hp⟩
    have hroot := Node.rootAt_isRoot hb
    have hfit := fits_of_inForest (le_two_pow_treeRows n) hroot.inForest
    obtain rfl := hx.pos_inj hfit hp
    exact ⟨hroot, rfl⟩
  · rintro ⟨hroot, rfl⟩
    obtain ⟨hb, he⟩ := Node.isRoot_iff_rootAt.mp hroot
    exact ⟨hb, by rw [← he]⟩

theorem isRootPosition_nodePos (hx : Fits (treeRows n) x) :
    isRootPosition (nodePos (treeRows n) x) n = true ↔ x.IsRoot n := by
  rw [isRootPosition, detectRow_nodePos (treeRows_le hn) hx, isRootPositionOnRow_nodePos hn hx]
  simp

/-- A root position is that of a root. -/
theorem isRoot_of_isRootPositionOnRow {p r : Nat} (h : isRootPositionOnRow p n r = true) :
    ∃ x : Node, x.IsRoot n ∧ x.row = r ∧ p = nodePos (treeRows n) x := by
  obtain ⟨hb, hp⟩ := (isRootPositionOnRow_iff hn).mp h
  exact ⟨_, Node.rootAt_isRoot hb, rfl, hp⟩

end Roots

/-! ### The loops that find a row -/

theorem add8_one {r : Nat} (h : r ≤ 64) : add8 r 1 = r + 1 := Nat.mod_eq_of_lt (by omega)

/-- `calculateHashes` finds the first row that reaches the position, if one does. -/
theorem rowLoop_spec {n k p fuel row : Nat} (hk : k ≤ 64) (hrow : row ≤ k)
    (hp : p ≤ maxPos k k n) (hf : k < row + fuel) :
    ∃ row', rowLoop p k n fuel row = .ok row' ∧ row ≤ row' ∧ row' ≤ k ∧
      p ≤ maxPos row' k n ∧ ∀ j, row ≤ j → j < row' → maxPos j k n < p := by
  induction fuel generalizing row with
  | zero => omega
  | succ fuel ih =>
    rw [rowLoop]
    by_cases hlt : maxPos row k n < p
    · have hne : row ≠ k := by rintro rfl; omega
      rw [if_pos hlt, add8_one (by omega)]
      obtain ⟨row', h1, h2, h3, h4, h5⟩ := ih (show row + 1 ≤ k by omega) (by omega)
      refine ⟨row', h1, by omega, h3, h4, fun j hj hj' => ?_⟩
      rcases Nat.lt_or_eq_of_le hj with hlt' | rfl
      · exact h5 j hlt' hj'
      · exact hlt
    · rw [if_neg hlt]
      exact ⟨row, rfl, Nat.le_refl _, hrow, by omega, fun j h1 h2 => absurd h2 (by omega)⟩

/-- A position that no row reaches is looked for forever: past the forest the
greatest position is 0, and the row wraps around. -/
theorem rowLoop_diverges {n k p : Nat} (hp : ∀ j, j ≤ k → maxPos j k n < p) (fuel row : Nat) :
    rowLoop p k n fuel row = .error .diverge := by
  have h0 := hp 0 (Nat.zero_le _)
  induction fuel generalizing row with
  | zero => rfl
  | succ fuel ih =>
    rw [rowLoop, if_pos]
    · exact ih _
    · rcases Nat.lt_or_ge k row with h | h
      · rw [maxPos_of_lt h]
        omega
      · exact hp row h

end Utreexo
