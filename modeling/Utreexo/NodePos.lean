import Utreexo.Positions
import Utreexo.Node

/-! # Positions of nodes

In a forest with `k` rows the node at offset `o` of row `r` has the position
`2 ^ (k + 1) - 2 ^ (k + 1 - r) + o`: its binary digits are `r` ones, a zero and
the digits of the offset.  For `k ≤ 63` all positions are words, and the position
arithmetic of the source computes what its names say on nodes.
-/
namespace Utreexo
open Merkle

/-- The position of a node in a forest with `k` rows. -/
def nodePos (k : Nat) (x : Node) : Nat := 2 ^ (k + 1) - 2 ^ (k + 1 - x.row) + x.off

/-- An entry of a slice at the position of its node. -/
def hashAndPos {H : Type} (k : Nat) (e : Node × H) : Nat × H := (nodePos k e.1, e.2)

/-- The node is one of a perfect tree with `k` rows. -/
def Fits (k : Nat) (x : Node) : Prop := x.row ≤ k ∧ x.off < 2 ^ (k - x.row)

instance (k : Nat) (x : Node) : Decidable (Fits k x) := inferInstanceAs (Decidable (_ ∧ _))

/-! ### Bits -/

theorem testBit_shl64 (a n i : Nat) :
    (shl64 a n).testBit i = (decide (i < 64) && (decide (n ≤ i) && a.testBit (i - n))) := by
  rw [shl64, Nat.testBit_mod_two_pow, Nat.testBit_shiftLeft]

theorem maxPosition_eq {k : Nat} (hk : k ≤ 63) : maxPosition k = 2 ^ (k + 1) - 1 := by
  rcases Nat.lt_or_ge k 63 with h | h
  · have h64 : (2 : Nat) ^ (k + 1) < 2 ^ 64 := Nat.pow_lt_pow_right (by omega) (by omega)
    have h2 : 2 * 2 ^ k = 2 ^ (k + 1) := by ring
    rw [maxPosition, shl64_of_lt (by omega), h2, sub64_of_le h64 (Nat.one_le_two_pow)]
  · obtain rfl : k = 63 := by omega
    rfl

theorem testBit_maxPosition {k : Nat} (hk : k ≤ 63) (i : Nat) :
    (maxPosition k).testBit i = decide (i ≤ k) := by
  rw [maxPosition_eq hk, Nat.testBit_two_pow_sub_one, decide_eq_decide]
  omega

/-- The digits of a position. -/
theorem testBit_nodePos {k : Nat} {x : Node} (hr : x.row ≤ k) (ho : x.off < 2 ^ (k + 1 - x.row))
    (i : Nat) : (nodePos k x).testBit i =
      (x.off.testBit i || (decide (k + 1 - x.row ≤ i) && decide (i ≤ k))) := by
  have hsplit : 2 ^ (k + 1) - 2 ^ (k + 1 - x.row) = 2 ^ (k + 1 - x.row) * (2 ^ x.row - 1) := by
    rw [Nat.mul_sub, ← Nat.pow_add, Nat.mul_one, show k + 1 - x.row + x.row = k + 1 by omega]
  rw [nodePos, hsplit, Nat.testBit_two_pow_mul_add _ ho]
  by_cases hi : i < k + 1 - x.row
  · rw [if_pos hi, decide_eq_false (Nat.not_le.mpr hi)]
    simp
  · have hoff : x.off.testBit i = false := Nat.testBit_lt_two_pow
      (Nat.lt_of_lt_of_le ho (Nat.pow_le_pow_right (by omega) (by omega)))
    rw [if_neg hi, Nat.testBit_two_pow_sub_one, hoff, decide_eq_true (Nat.not_lt.mp hi),
      Bool.false_or, Bool.true_and, decide_eq_decide]
    omega

namespace Fits
variable {k : Nat} {x y : Node}

theorem off_lt (h : Fits k x) : x.off < 2 ^ (k + 1 - x.row) :=
  Nat.lt_of_lt_of_le h.2 (Nat.pow_le_pow_right (by omega) (by omega))

theorem testBit (h : Fits k x) (i : Nat) : (nodePos k x).testBit i =
    (x.off.testBit i || (decide (k + 1 - x.row ≤ i) && decide (i ≤ k))) :=
  testBit_nodePos h.1 h.off_lt i

theorem parent (h : Fits k x) (hr : x.row < k) : Fits k x.parent := by
  refine ⟨hr, ?_⟩
  obtain ⟨_, h2⟩ := h
  have hp : 2 ^ (k - x.row) = 2 * 2 ^ (k - (x.row + 1)) := by
    rw [← Nat.pow_succ', show (k - (x.row + 1)).succ = k - x.row by omega]
  simp only [Node.parent]
  omega

theorem sibling (h : Fits k x) (hr : x.row < k) : Fits k x.sibling := by
  refine ⟨h.1, ?_⟩
  obtain ⟨_, h2⟩ := h
  have hp : 2 ^ (k - x.row) = 2 * 2 ^ (k - (x.row + 1)) := by
    rw [← Nat.pow_succ', show (k - (x.row + 1)).succ = k - x.row by omega]
  simp only [Node.sibling]
  split <;> omega

theorem child (h : Fits k x.parent) : Fits k x := by
  obtain ⟨h1, h2⟩ := h
  simp only [Node.parent] at h1 h2
  have hp : 2 ^ (k - x.row) = 2 * 2 ^ (k - (x.row + 1)) := by
    rw [← Nat.pow_succ', show (k - (x.row + 1)).succ = k - x.row by omega]
  exact ⟨by omega, by omega⟩

/-- The first position of a row and the number of its positions. -/
theorem row_span {r : Nat} (hr : r ≤ k) :
    2 ^ (k + 1) - 2 ^ (k + 1 - r) + 2 ^ (k - r) = 2 ^ (k + 1) - 2 ^ (k - r) := by
  have h1 : 2 ^ (k + 1 - r) = 2 * 2 ^ (k - r) := by
    rw [← Nat.pow_succ', show (k - r).succ = k + 1 - r by omega]
  have h2 : 2 ^ (k + 1 - r) ≤ 2 ^ (k + 1) := Nat.pow_le_pow_right (by omega) (by omega)
  omega

theorem pos_lt (h : Fits k x) : nodePos k x < 2 ^ (k + 1) - 2 ^ (k - x.row) := by
  have := row_span h.1
  have := h.2
  unfold nodePos
  omega

/-- The order of positions is the order of nodes. -/
theorem pos_lt_of_before (hx : Fits k x) (h : x.Before y) :
    nodePos k x < nodePos k y := by
  rcases h with h | ⟨h, ho⟩
  · have h1 := hx.pos_lt
    have h2 : 2 ^ (k + 1 - y.row) ≤ 2 ^ (k - x.row) := Nat.pow_le_pow_right (by omega) (by omega)
    unfold nodePos at h1 ⊢
    omega
  · unfold nodePos
    rw [h]
    omega

theorem pos_lt_iff (hx : Fits k x) (hy : Fits k y) :
    nodePos k x < nodePos k y ↔ x.Before y := by
  refine ⟨fun h => ?_, pos_lt_of_before hx⟩
  rcases Node.before_or_eq_or x y with hb | rfl | hb
  · exact hb
  · omega
  · have := pos_lt_of_before hy hb
    omega

theorem pos_inj (hx : Fits k x) (hy : Fits k y) (h : nodePos k x = nodePos k y) : x = y := by
  rcases Node.before_or_eq_or x y with hb | rfl | hb
  · have := pos_lt_of_before hx hb
    omega
  · rfl
  · have := pos_lt_of_before hy hb
    omega

theorem pos_lt_max (h : Fits k x) : nodePos k x < 2 ^ (k + 1) - 1 := by
  have h1 := h.pos_lt
  have h2 := Nat.two_pow_pos (k - x.row)
  omega

theorem pos_mod_two (h : Fits k x) : nodePos k x % 2 = x.off % 2 := by
  have h1 : 2 ^ (k + 1) = 2 * 2 ^ k := by ring
  have h2 : 2 ^ (k + 1 - x.row) = 2 * 2 ^ (k - x.row) := by
    have := h.1
    rw [← Nat.pow_succ', show (k - x.row).succ = k + 1 - x.row by omega]
  unfold nodePos
  omega

/-- Positions below the maximum are positions of nodes. -/
theorem exists_of_lt {p : Nat} (hp : p < 2 ^ (k + 1) - 1) : ∃ x, Fits k x ∧ nodePos k x = p := by
  -- The row is the first one whose positions reach `p`.
  have key : ∀ r, r ≤ k + 1 → p < 2 ^ (k + 1) - 2 ^ (k + 1 - r) →
      ∃ x, Fits k x ∧ nodePos k x = p := by
    intro r
    induction r with
    | zero => intro _ h; simp at h
    | succ r ih =>
      intro hr h
      by_cases hlt : p < 2 ^ (k + 1) - 2 ^ (k + 1 - r)
      · exact ih (by omega) hlt
      · refine ⟨⟨r, p - (2 ^ (k + 1) - 2 ^ (k + 1 - r))⟩, ⟨by simp only; omega, ?_⟩, ?_⟩
        · have hs := row_span (show r ≤ k by omega)
          rw [show k + 1 - (r + 1) = k - r by omega] at h
          simp only
          omega
        · simp only [nodePos]
          omega
  exact key (k + 1) (Nat.le_refl _) (by simpa using hp)

end Fits

theorem fits_of_inForest {n k : Nat} {x : Node} (hn : n ≤ 2 ^ k) (h : x.InForest n) :
    Fits k x := by
  unfold Node.InForest at h
  have hrow : x.row ≤ k := by
    by_contra hgt
    have h1 : 2 ^ k < 2 ^ x.row := Nat.pow_lt_pow_right (by omega) (by omega)
    rw [Nat.div_eq_of_lt (by omega)] at h
    omega
  refine ⟨hrow, Nat.lt_of_lt_of_le h ?_⟩
  calc n / 2 ^ x.row ≤ 2 ^ k / 2 ^ x.row := Nat.div_le_div_right hn
    _ = 2 ^ (k - x.row) := Nat.pow_div hrow (by omega)

/-! ### Rows of a forest -/

/-- `treeRows` is the least number of rows that has room for the leaves. -/
theorem treeRows_le_iff {n k : Nat} : treeRows n ≤ k ↔ n ≤ 2 ^ k := by
  unfold treeRows len64
  by_cases h0 : n = 0
  · simp [h0]
  rw [if_neg h0]
  by_cases h1 : n - 1 = 0
  · have := Nat.two_pow_pos k
    rw [if_pos h1]
    omega
  · rw [if_neg h1, Nat.succ_le_iff, Nat.log2_lt h1]
    omega

theorem le_two_pow_treeRows (n : Nat) : n ≤ 2 ^ treeRows n := treeRows_le_iff.mp (Nat.le_refl _)

/-! ### The source's arithmetic on nodes -/

section Nat

theorem xor_one_eq (p : Nat) : p ^^^ 1 = if p % 2 = 0 then p + 1 else p - 1 := by
  have h1 : (p ^^^ 1) / 2 = p / 2 := by rw [Nat.xor_div_two]; simp
  have h2 : (p ^^^ 1) % 2 = (p + 1) % 2 := by
    rcases Nat.mod_two_eq_zero_or_one p with h | h <;> simp [Nat.xor_mod_two_eq]
  split <;> omega

theorem or_one_eq (p : Nat) : p ||| 1 = if p % 2 = 0 then p + 1 else p := by
  have h1 : (p ||| 1) / 2 = p / 2 := by rw [Nat.or_div_two]; simp
  have h2 : (p ||| 1) % 2 = 1 := by rw [Nat.or_mod_two_eq_one]; simp
  split <;> omega

theorem and_not_one_eq {p : Nat} (hp : p < 2 ^ 64) : p &&& not64 1 = p - p % 2 := by
  have h1 : (p &&& not64 1) / 2 = p / 2 := by
    rw [Nat.and_div_two, show not64 1 / 2 = 2 ^ 63 - 1 by rfl, Nat.and_two_pow_sub_one_eq_mod]
    exact Nat.mod_eq_of_lt (by omega)
  have h2 : (p &&& not64 1) % 2 = 0 := by
    rw [← Nat.and_one_is_mod, Nat.and_assoc, show not64 1 &&& 1 = 0 by rfl, Nat.and_zero]
  omega

end Nat

section Functions
variable {k : Nat} (hk : k ≤ 63) {x : Node}

theorem isLeftNiece_nodePos (h : Fits k x) :
    isLeftNiece (nodePos k x) = decide (x.off % 2 = 0) := by
  rw [isLeftNiece, Nat.and_one_is_mod, h.pos_mod_two]

theorem sibling_nodePos (h : Fits k x) : sibling (nodePos k x) = nodePos k x.sibling := by
  rw [sibling, xor_one_eq, h.pos_mod_two]
  simp only [nodePos, Node.sibling]
  split <;> omega

theorem rightSib_nodePos (h : Fits k x) :
    rightSib (nodePos k x) = nodePos k (if x.off % 2 = 0 then x.sibling else x) := by
  rw [rightSib, or_one_eq, h.pos_mod_two]
  simp only [nodePos, Node.sibling]
  split <;> simp_all [Nat.add_assoc]

include hk

theorem Fits.pos_lt_word (h : Fits k x) : nodePos k x < 2 ^ 64 := by
  have h1 := h.pos_lt_max
  have h2 : 2 ^ (k + 1) ≤ 2 ^ 64 := Nat.pow_le_pow_right (by omega) (by omega)
  omega

theorem leftSib_nodePos (h : Fits k x) :
    leftSib (nodePos k x) = nodePos k (if x.off % 2 = 0 then x else x.sibling) := by
  rw [leftSib, and_not_one_eq (h.pos_lt_word hk), h.pos_mod_two]
  simp only [nodePos, Node.sibling]
  split
  · omega
  · dsimp only
    omega

theorem parent_nodePos (h : Fits k x) (hr : x.row < k) :
    parent (nodePos k x) k = nodePos k x.parent := by
  have h0 : 2 ^ (k + 1) = 2 * 2 ^ k := by ring
  have h1 : 2 ^ (k + 1 - x.row) = 2 * 2 ^ (k - x.row) := by
    rw [← Nat.pow_succ', show (k - x.row).succ = k + 1 - x.row by omega]
  have h2 : 2 ^ (k - x.row) ≤ 2 ^ k := Nat.pow_le_pow_right (by omega) (by omega)
  have h3 := h.pos_lt_max
  have hk' : (2 : Nat) ^ k < 2 ^ 64 := Nat.pow_lt_pow_right (by omega) (by omega)
  have hor := Nat.two_pow_add_eq_or_of_lt (show nodePos k x / 2 < 2 ^ k by omega) 1
  rw [Nat.mul_one] at hor
  rw [parent, shl64_of_lt (by omega), Nat.one_mul, Nat.shiftRight_one, Nat.or_comm, ← hor]
  simp only [nodePos, Node.parent, show k + 1 - (x.row + 1) = k - x.row by omega]
  omega

/-- Row bits put in front of an offset, as `parentMany` and `rootPosition` do it. -/
theorem or_mask_eq {j a : Nat} (hj : j ≤ k) (ha : a < 2 ^ (k + 1 - j)) :
    (a ||| shl64 (maxPosition k) (k + 1 - j)) &&& maxPosition k = nodePos k ⟨j, a⟩ := by
  refine Nat.eq_of_testBit_eq fun i => ?_
  rw [testBit_nodePos hj ha, Nat.testBit_and, Nat.testBit_or, testBit_shl64,
    testBit_maxPosition hk, testBit_maxPosition hk]
  have hbit : a.testBit i = true → i < k + 1 - j := by
    intro hi
    by_contra hge
    rw [Nat.testBit_lt_two_pow (Nat.lt_of_lt_of_le ha
      (Nat.pow_le_pow_right (by omega) (by omega)))] at hi
    cases hi
  rw [Bool.eq_iff_iff]
  simp only [Bool.and_eq_true, Bool.or_eq_true, decide_eq_true_eq]
  constructor
  · rintro ⟨h | h, hi⟩
    · exact Or.inl h
    · exact Or.inr ⟨h.2.1, hi⟩
  · rintro (h | h)
    · exact ⟨Or.inl h, by have := hbit h; omega⟩
    · exact ⟨Or.inr ⟨by omega, h.1, by omega⟩, h.2⟩

theorem parentMany_eq {p j : Nat} (hj : j ≤ k) (hp : p / 2 ^ j < 2 ^ (k + 1 - j)) :
    parentMany p j k = .ok (nodePos k ⟨j, p / 2 ^ j⟩) := by
  unfold parentMany
  by_cases h0 : j = 0
  · subst h0
    simp [nodePos]
  · have h1 : sub8 j 1 = j - 1 := sub8_of_le (by omega) (by omega)
    rw [if_neg h0, if_neg (by omega), h1, sub8_of_le (by omega) (by omega),
      Nat.shiftRight_eq_div_pow, show k - (j - 1) = k + 1 - j by omega, or_mask_eq hk hj hp]

theorem parentMany_nodePos {j : Nat} (h : Fits k x) (hj : x.row + j ≤ k) :
    parentMany (nodePos k x) j k = .ok (nodePos k (x.up j)) := by
  have hle : 2 ^ (k + 1 - (x.row + j)) ≤ 2 ^ (k + 1 - j) :=
    Nat.pow_le_pow_right (by omega) (by omega)
  -- Shifting drops the low digits of the offset and keeps the ones in front.
  have hdiv : nodePos k x / 2 ^ j =
      2 ^ (k + 1 - j) - 2 ^ (k + 1 - (x.row + j)) + x.off / 2 ^ j := by
    have h1 : 2 ^ (k + 1) = 2 ^ (k + 1 - j) * 2 ^ j := by
      rw [← Nat.pow_add, show k + 1 - j + j = k + 1 by omega]
    have h2 : 2 ^ (k + 1 - x.row) = 2 ^ (k + 1 - (x.row + j)) * 2 ^ j := by
      rw [← Nat.pow_add, show k + 1 - (x.row + j) + j = k + 1 - x.row by omega]
    rw [nodePos, h1, h2, ← Nat.sub_mul, Nat.mul_comm, Nat.mul_add_div (Nat.two_pow_pos j)]
  have hoff : x.off / 2 ^ j < 2 ^ (k + 1 - (x.row + j)) := by
    refine Nat.div_lt_of_lt_mul (Nat.lt_of_lt_of_le h.off_lt ?_)
    rw [← Nat.pow_add]
    exact Nat.pow_le_pow_right (by omega) (by omega)
  have hle2 : 2 ^ (k + 1 - j) ≤ 2 ^ (k + 1) := Nat.pow_le_pow_right (by omega) (by omega)
  rw [parentMany_eq hk (by omega) (by rw [hdiv]; omega), hdiv]
  simp only [nodePos, Node.up]
  congr 1
  omega

theorem childMany_nodePos {d : Nat} (h : Fits k x) (hd : d ≤ x.row) :
    childMany (nodePos k x) d k = .ok (nodePos k ⟨x.row - d, x.off * 2 ^ d⟩) := by
  unfold childMany
  have hrow := h.1
  by_cases h0 : d = 0
  · subst h0
    simp [nodePos]
  · have h1 : 2 ^ (k + 1 - (x.row - d)) = 2 ^ (k + 1 - x.row) * 2 ^ d := by
      rw [← Nat.pow_add, show k + 1 - x.row + d = k + 1 - (x.row - d) by omega]
    have h2 : 2 ^ (k + 1 - (x.row - d)) ≤ 2 ^ (k + 1) :=
      Nat.pow_le_pow_right (by omega) (by omega)
    have h3 : (x.off + 1) * 2 ^ d ≤ 2 ^ (k + 1 - x.row) * 2 ^ d :=
      Nat.mul_le_mul_right _ (Nat.succ_le_of_lt h.off_lt)
    have h4 : 2 ^ d ≤ 2 ^ (k + 1) := Nat.pow_le_pow_right (by omega) (by omega)
    have hdvd : 2 ^ (k + 1) ∣ 2 ^ 64 := Nat.pow_dvd_pow 2 (by omega)
    rw [if_neg h0, if_neg (by omega), maxPosition_eq hk, Nat.and_two_pow_sub_one_eq_mod, shl64,
      Nat.mod_mod_of_dvd _ hdvd, Nat.shiftLeft_eq]
    congr 1
    -- The shift moves `d` of the ones in front out of the position.
    have hsum : nodePos k x * 2 ^ d = 2 ^ (k + 1) * (2 ^ d - 1) +
        (2 ^ (k + 1) - 2 ^ (k + 1 - (x.row - d)) + x.off * 2 ^ d) := by
      rw [nodePos, Nat.add_mul, Nat.sub_mul, ← h1, Nat.mul_sub, Nat.mul_one]
      have : 2 ^ (k + 1) ≤ 2 ^ (k + 1) * 2 ^ d := Nat.le_mul_of_pos_right _ (Nat.two_pow_pos d)
      omega
    have hpos := Nat.two_pow_pos d
    rw [Nat.add_mul, Nat.one_mul] at h3
    rw [hsum, Nat.mul_add_mod, Nat.mod_eq_of_lt (by omega)]
    rfl

theorem leftChild_nodePos (h : Fits k x) (hr : 0 < x.row) :
    leftChild (nodePos k x) k = nodePos k x.left := by
  have hc := childMany_nodePos hk h (show 1 ≤ x.row by omega)
  have hrow := h.1
  rw [childMany, if_neg (by omega), if_neg (by omega)] at hc
  rw [leftChild, Except.ok.inj hc, Node.left, Nat.pow_one, Nat.mul_comm]

theorem rightChild_nodePos (h : Fits k x) (hr : 0 < x.row) :
    rightChild (nodePos k x) k = nodePos k x.right := by
  have hfit : Fits k x.left := by
    refine Fits.child ?_
    rwa [Node.left_parent hr]
  have hl := leftChild_nodePos hk h hr
  rw [leftChild] at hl
  rw [rightChild, hl]
  have hr' := rightSib_nodePos hfit
  rw [rightSib, if_pos (by simp [Node.left]), Node.left_sibling] at hr'
  exact hr'

/-! ### Rows -/

theorem detectRow_nodePos (h : Fits k x) : detectRow (nodePos k x) k = x.row := by
  have hrow := h.1
  have hk' : (2 : Nat) ^ k < 2 ^ 64 := Nat.pow_lt_pow_right (by omega) (by omega)
  -- `d` ones are left to pass before the zero in front of the offset.
  have key : ∀ d fuel r, r + d = x.row → d < fuel →
      detectRowLoop (nodePos k x) fuel (2 ^ (k - r)) r = x.row := by
    intro d
    induction d with
    | zero =>
      intro fuel r hr hf
      obtain ⟨fuel, rfl⟩ : ∃ f, fuel = f + 1 := ⟨fuel - 1, by omega⟩
      obtain rfl : r = x.row := by omega
      have hbit : (nodePos k x).testBit (k - x.row) = false := by
        rw [h.testBit, Nat.testBit_lt_two_pow h.2]
        simp only [Bool.false_or, Bool.and_eq_false_iff, decide_eq_false_iff_not]
        omega
      rw [detectRowLoop, if_neg]
      rw [Nat.and_two_pow, hbit]
      simp
    | succ d ih =>
      intro fuel r hr hf
      obtain ⟨fuel, rfl⟩ : ∃ f, fuel = f + 1 := ⟨fuel - 1, by omega⟩
      have hbit : (nodePos k x).testBit (k - r) = true := by
        rw [h.testBit, Bool.or_eq_true]
        refine Or.inr ?_
        simp only [Bool.and_eq_true, decide_eq_true_eq]
        omega
      rw [detectRowLoop, if_pos, Nat.shiftRight_one,
        show 2 ^ (k - r) / 2 = 2 ^ (k - (r + 1)) by
          rw [show k - r = k - (r + 1) + 1 by omega, Nat.pow_succ, Nat.mul_div_cancel _ (by omega)]]
      · exact ih fuel (r + 1) (by omega) (by omega)
      · rw [Nat.and_two_pow, hbit]
        simp
  rw [detectRow, shl64_of_lt (by omega), Nat.one_mul]
  exact key x.row 65 0 (by omega) (by omega)

theorem startPositionAtRow_eq {r : Nat} (hr : r ≤ k) :
    startPositionAtRow r k = 2 ^ (k + 1) - 2 ^ (k + 1 - r) := by
  have h1 : ∀ j, 2 * 2 ^ j = 2 ^ (j + 1) := fun j => (Nat.pow_succ').symm
  have hle : 2 ^ (k + 1 - r) ≤ 2 ^ (k + 1) := Nat.pow_le_pow_right (by omega) (by omega)
  rw [startPositionAtRow, sub8_of_le (by omega) hr, shl64, shl64, Nat.shiftLeft_eq,
    Nat.shiftLeft_eq, h1, h1, show k - r + 1 = k + 1 - r by omega]
  rcases Nat.lt_or_ge k 63 with h | h
  · have h64 : (2 : Nat) ^ (k + 1) < 2 ^ 64 := Nat.pow_lt_pow_right (by omega) (by omega)
    rw [Nat.mod_eq_of_lt h64, Nat.mod_eq_of_lt (by omega), sub64_of_le h64 hle]
  · obtain rfl : k = 63 := by omega
    rw [Nat.mod_self, sub64, Nat.mod_mod, Nat.zero_add]
    have hpos := Nat.two_pow_pos (63 + 1 - r)
    rcases Nat.eq_zero_or_pos r with rfl | h0
    · simp
    · have hlt : (2 : Nat) ^ (63 + 1 - r) < 2 ^ 64 := Nat.pow_lt_pow_right (by omega) (by omega)
      rw [Nat.mod_eq_of_lt hlt, Nat.mod_eq_of_lt (by omega)]

/-- The last position of a row. -/
theorem maxPossiblePosAtRow_eq {r : Nat} (hr : r ≤ k) :
    maxPossiblePosAtRow r k = 2 ^ (k + 1) - 2 ^ (k - r) - 1 := by
  have hm : shl64 (maxPosition k) (k - r) &&& maxPosition k = 2 ^ (k + 1) - 2 ^ (k - r) := by
    rcases Nat.lt_or_ge r k with hlt | hge
    · have h0 := or_mask_eq hk (j := r + 1) (a := 0) (by omega) (Nat.two_pow_pos _)
      rw [Nat.zero_or, show k + 1 - (r + 1) = k - r by omega] at h0
      rw [h0, nodePos, show k + 1 - (r + 1) = k - r by omega, Nat.add_zero]
    · obtain rfl : r = k := by omega
      rw [Nat.sub_self, shl64, Nat.shiftLeft_zero, maxPosition_eq hk, Nat.mod_eq_of_lt,
        Nat.and_self, Nat.pow_zero]
      have : 2 ^ (r + 1) ≤ 2 ^ 64 := Nat.pow_le_pow_right (by omega) (by omega)
      omega
  have h1 : 2 ^ (k + 1) ≤ 2 ^ 64 := Nat.pow_le_pow_right (by omega) (by omega)
  have h2 : 2 ^ (k - r) < 2 ^ (k + 1) := Nat.pow_lt_pow_right (by omega) (by omega)
  have h3 := Nat.two_pow_pos (k - r)
  rw [maxPossiblePosAtRow, sub8_of_le (by omega) hr, hm, sub64_of_le (by omega) (by omega)]

omit hk in
theorem nodePos_sub_start (x : Node) :
    nodePos k x - (2 ^ (k + 1) - 2 ^ (k + 1 - x.row)) = x.off := by
  unfold nodePos
  omega

/-- A position translated to another number of rows is that of the same node. -/
theorem translatePos_nodePos {k' : Nat} (hk' : k' ≤ 63) (h : Fits k x) (h' : Fits k' x) :
    translatePos (nodePos k x) k k' = nodePos k' x := by
  unfold translatePos
  rw [detectRow_nodePos hk h]
  by_cases h0 : x.row = 0
  · simp [h0, nodePos]
  · have hstart : 2 ^ (k + 1) - 2 ^ (k + 1 - x.row) ≤ nodePos k x := by unfold nodePos; omega
    simp only [if_neg h0]
    have hlt := h'.pos_lt_word hk'
    rw [startPositionAtRow_eq hk h.1, startPositionAtRow_eq hk' h'.1,
      sub64_of_le (h.pos_lt_word hk) hstart, nodePos_sub_start, add64_of_lt] <;>
    · unfold nodePos at *
      omega

end Functions

end Utreexo
