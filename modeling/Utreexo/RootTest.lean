import Utreexo.PosTree
import Utreexo.ProofPositions
import Utreexo.RootRows

/-! # The tests for positions

`inForest`, `maxPositionAtRow`, `RootPositions` and `isRootPositionTotalRows` compared with
one another.  The first three agree on what is in the forest.  The test for roots goes through
`translatePos`, which keeps the offset of a position in its row even if the row of the smaller
tree is too short for it.  The offset then counts on into the rows above, and can end at a root.
-/
namespace Utreexo
open Merkle

section
variable {n k : Nat} (hk : k ≤ 63) (hn : n ≤ 2 ^ k) {x : Node}
include hk hn

theorem mem_rootPositions {p : Nat} :
    p ∈ rootPositions n k ↔ ∃ x : Node, x.IsRoot n ∧ p = nodePos k x := by
  simp only [rootPositions, List.mem_map, List.mem_filter, List.mem_reverse, List.mem_range,
    rootExistsOnRow, decide_eq_true_eq, shiftRight_and_one]
  constructor
  · rintro ⟨r, ⟨hr, hb⟩, rfl⟩
    exact ⟨_, Node.rootAt_isRoot hb, rootPosition_eq hk hn (by omega)⟩
  · rintro ⟨x, hx, rfl⟩
    obtain ⟨hb, he⟩ := Node.isRoot_iff_rootAt.mp hx
    have hr := testBit_row_le hn hb
    exact ⟨x.row, ⟨by omega, hb⟩, by rw [rootPosition_eq hk hn hr, ← he]⟩

theorem nodePos_mem_rootPositions (hx : Fits k x) :
    nodePos k x ∈ rootPositions n k ↔ x.IsRoot n := by
  rw [mem_rootPositions hk hn]
  constructor
  · rintro ⟨y, hy, he⟩
    rwa [hx.pos_inj (fits_of_inForest hn hy.inForest) he]
  · intro h
    exact ⟨x, h, rfl⟩

/-! ### In the forest -/

theorem inForest_iff_root_above (hx : Fits k x) :
    x.InForest n ↔ ∃ q ∈ rootPositions n k, AtOrBelow k (nodePos k x) q := by
  constructor
  · intro h
    obtain ⟨j, hj⟩ := h.exists_root
    have hfit := fits_of_inForest hn hj.inForest
    exact ⟨_, (nodePos_mem_rootPositions hk hn hfit).mpr hj,
      (atOrBelow_nodePos hk hx hfit).mpr ⟨j, rfl⟩⟩
  · rintro ⟨q, hq, hbelow⟩
    obtain ⟨y, hy, rfl⟩ := (mem_rootPositions hk hn).mp hq
    have habove := (atOrBelow_nodePos hk hx (fits_of_inForest hn hy.inForest)).mp hbelow
    exact habove.inForest hy.inForest

omit hk hn in
theorem inForest_iff_le_max (hn0 : 1 ≤ n) (hx : Fits k x) :
    x.InForest n ↔ nodePos k x ≤ nodePos k ⟨x.row, n / 2 ^ x.row⟩ - 1 := by
  rw [Node.InForest]
  rcases Nat.eq_zero_or_pos x.row with h0 | h0
  · simp only [nodePos, h0, Nat.pow_zero, Nat.div_one]
    omega
  · have hrow := hx.1
    have : 2 ^ (k + 1 - x.row) < 2 ^ (k + 1) := Nat.pow_lt_pow_right (by omega) (by omega)
    simp only [nodePos]
    omega

omit hn in
theorem inForest_iff_leaves (hx : Fits k x) :
    x.InForest n ↔ ∀ l < 2 ^ k, AtOrBelow k l (nodePos k x) → l < n := by
  have hpos := Nat.two_pow_pos x.row
  have hdiv : x.InForest n ↔ (x.off + 1) * 2 ^ x.row ≤ n := by
    rw [Node.InForest, ← Nat.le_div_iff_mul_le hpos]
    rfl
  have hleaf {l : Nat} (hl : l < 2 ^ k) :
      AtOrBelow k l (nodePos k x) ↔ l / 2 ^ x.row = x.off := by
    have hfit : Fits k ⟨0, l⟩ := ⟨Nat.zero_le _, hl⟩
    have hl' : nodePos k ⟨0, l⟩ = l := by simp [nodePos]
    have h := atOrBelow_nodePos hk hfit hx
    rw [hl', Node.above_iff] at h
    simpa using h
  rw [hdiv]
  constructor
  · intro h l hl hbelow
    have hlt : l < (x.off + 1) * 2 ^ x.row := by
      apply (Nat.div_lt_iff_lt_mul hpos).mp
      rw [(hleaf hl).mp hbelow]
      exact Nat.lt_succ_self _
    omega
  · intro h
    -- The rightmost leaf below the node.
    have hone : 1 ≤ (x.off + 1) * 2 ^ x.row := Nat.mul_pos (by omega) hpos
    have hle : (x.off + 1) * 2 ^ x.row ≤ 2 ^ k := by
      calc (x.off + 1) * 2 ^ x.row ≤ 2 ^ (k - x.row) * 2 ^ x.row :=
            Nat.mul_le_mul_right _ hx.2
        _ = 2 ^ k := by rw [← Nat.pow_add, Nat.sub_add_cancel hx.1]
    have hlast := h ((x.off + 1) * 2 ^ x.row - 1) (by omega)
    rw [hleaf (by omega)] at hlast
    have := hlast (by
      rw [Nat.div_eq_iff hpos, Nat.add_mul, Nat.one_mul]
      omega)
    omega

end

/-- **The tests for the positions of a forest agree.**  `inForest` returns, and says whether a
position is at or below a root, whether it is at most the greatest position on its row, and
whether every leaf below it, a position less than `2 ^ T`, has been added. -/
theorem inForest_tests_agree {T n p : Nat} (hT : T ≤ 62) (hn0 : 1 ≤ n) (hn : n ≤ 2 ^ T)
    (hp : p < 2 ^ (T + 1) - 1) :
    ∃ b max, inForest p n T = .ok b ∧ maxPositionAtRow (detectRow p T) T n = .ok max ∧
      (b = true ↔ ∃ q ∈ rootPositions n T, AtOrBelow T p q) ∧
      (b = true ↔ p ≤ max) ∧
      (b = true ↔ ∀ l < 2 ^ T, AtOrBelow T l p → l < n) := by
  have hk : T ≤ 63 := by omega
  obtain ⟨x, hx, rfl⟩ := Fits.exists_of_lt hp
  rw [inForest_nodePos hk hn hx, detectRow_nodePos hk hx, maxPositionAtRow_eq hk hn hx.1]
  refine ⟨_, _, rfl, rfl, ?_, ?_, ?_⟩
  · rw [decide_eq_true_eq]
    exact inForest_iff_root_above hk hn hx
  · rw [decide_eq_true_eq]
    exact inForest_iff_le_max hn0 hx
  · rw [decide_eq_true_eq]
    exact inForest_iff_leaves hk hx

/-- The second position on row 1, where three leaves make one node. -/
theorem inForest_tests_agree_nine :
    ∃ b max, inForest 9 3 3 = .ok b ∧ maxPositionAtRow (detectRow 9 3) 3 3 = .ok max ∧
      (b = true ↔ ∃ q ∈ rootPositions 3 3, AtOrBelow 3 9 q) ∧ (b = true ↔ 9 ≤ max) ∧
      (b = true ↔ ∀ l < 2 ^ 3, AtOrBelow 3 l 9 → l < 3) :=
  inForest_tests_agree (by decide) (by decide) (by decide) (by decide)

/-! ### Roots -/

/-- The offset of `p` in its row is that of a root on a higher row, counted on past the end
of the row in the tree with the rows that the leaves need. -/
def Spills (n T p : Nat) : Prop :=
  ∃ r ∈ List.range (treeRows n + 1), n.testBit r = true ∧ detectRow p T < r ∧
    p - startPositionAtRow (detectRow p T) T =
      2 ^ (treeRows n + 1 - detectRow p T) - 2 ^ (treeRows n + 1 - r) + (Node.rootAt n r).off

instance (n T p : Nat) : Decidable (Spills n T p) := inferInstanceAs (Decidable (∃ _ ∈ _, _))

section
variable {n k : Nat} {x y : Node}

/-- The number at an offset, whether the row is long enough or not, against a position. -/
theorem nodePos_eq_cases (hx : x.row ≤ k) (hy : Fits k y) (h : nodePos k x = nodePos k y) :
    x = y ∨ x.row < y.row := by
  rcases Nat.lt_trichotomy x.row y.row with hlt | heq | hgt
  · exact Or.inr hlt
  · left
    unfold nodePos at h
    rw [heq] at h
    ext
    · exact heq
    · omega
  · have h1 := hy.pos_lt
    have h2 : 2 ^ (k + 1 - x.row) ≤ 2 ^ (k - y.row) := Nat.pow_le_pow_right (by omega) (by omega)
    rw [← h] at h1
    unfold nodePos at h1
    omega

theorem nodePos_eq_iff_off (hlt : x.row < y.row) (hy : y.row ≤ k) : nodePos k x = nodePos k y ↔
    x.off = 2 ^ (k + 1 - x.row) - 2 ^ (k + 1 - y.row) + y.off := by
  have h1 : 2 ^ (k + 1 - y.row) ≤ 2 ^ (k + 1 - x.row) := Nat.pow_le_pow_right (by omega) (by omega)
  have h2 : 2 ^ (k + 1 - x.row) ≤ 2 ^ (k + 1) := Nat.pow_le_pow_right (by omega) (by omega)
  unfold nodePos
  omega

/-- The test for roots, on any number. -/
theorem isRootPosition_iff (hn : n ≤ 2 ^ 63) {p : Nat} :
    isRootPosition p n = true ↔ ∃ y : Node, y.IsRoot n ∧ p = nodePos (treeRows n) y := by
  constructor
  · intro h
    obtain ⟨y, hy, -, hp⟩ := isRoot_of_isRootPositionOnRow hn h
    exact ⟨y, hy, hp⟩
  · rintro ⟨y, hy, rfl⟩
    exact (isRootPosition_nodePos hn (fits_of_inForest (le_two_pow_treeRows n) hy.inForest)).mpr hy

end

section
variable {n T : Nat} (hT : T ≤ 62) (hrows : treeRows n ≤ T) {x : Node}
include hT hrows

omit hrows in
theorem spills_nodePos (hx : Fits T x) : Spills n T (nodePos T x) ↔
    ∃ y : Node, y.IsRoot n ∧ x.row < y.row ∧ nodePos (treeRows n) x = nodePos (treeRows n) y := by
  have hk : T ≤ 63 := by omega
  rw [Spills, detectRow_nodePos hk hx, startPositionAtRow_eq hk hx.1, nodePos_sub_start]
  constructor
  · rintro ⟨r, hr, hb, hlt, hoff⟩
    have hr' := List.mem_range.mp hr
    exact ⟨_, Node.rootAt_isRoot hb, hlt,
      (nodePos_eq_iff_off hlt (show r ≤ treeRows n by omega)).mpr hoff⟩
  · rintro ⟨y, hy, hlt, heq⟩
    obtain ⟨hb, he⟩ := Node.isRoot_iff_rootAt.mp hy
    have hr := testBit_row_le (le_two_pow_treeRows n) hb
    refine ⟨y.row, List.mem_range.mpr (by omega), hb, hlt, ?_⟩
    rw [← he]
    exact (nodePos_eq_iff_off hlt hr).mp heq

omit hrows hT in
/-- A row above the top starts past the tree: the count of the shift wraps around. -/
theorem startPositionAtRow_above {k r : Nat} (hk : k ≤ 62) (hlt : k < r) (hr : r ≤ 63) :
    startPositionAtRow r k = 2 ^ (k + 1) := by
  have h8 : 64 ≤ sub8 k r := by
    unfold sub8
    omega
  have h64 : 2 * 2 ^ k < 2 ^ 64 := by
    rw [← Nat.pow_succ']
    exact Nat.pow_lt_pow_right (by omega) (by omega)
  rw [startPositionAtRow, shl64_eq_zero h8, shl64_of_lt h64, sub64_of_le h64 (Nat.zero_le _),
    Nat.sub_zero, ← Nat.pow_succ']

omit hrows in
theorem translatePos_row (hx : Fits T x) (h0 : x.row ≠ 0) (k : Nat) :
    translatePos (nodePos T x) T k = add64 x.off (startPositionAtRow x.row k) := by
  have hk : T ≤ 63 := by omega
  have hstart : 2 ^ (T + 1) - 2 ^ (T + 1 - x.row) ≤ nodePos T x := by
    unfold nodePos
    omega
  rw [translatePos, detectRow_nodePos hk hx, if_neg h0, startPositionAtRow_eq hk hx.1,
    sub64_of_le (hx.pos_lt_word hk) hstart, nodePos_sub_start]

/-- A position on a row that the smaller tree has keeps its offset. -/
theorem translatePos_down (hx : Fits T x) (hr : x.row ≤ treeRows n) :
    translatePos (nodePos T x) T (treeRows n) = nodePos (treeRows n) x := by
  by_cases h0 : x.row = 0
  · rw [translatePos, detectRow_nodePos (by omega) hx]
    simp [h0, nodePos]
  · have h1 : 2 ^ (T - x.row) ≤ 2 ^ 62 := Nat.pow_le_pow_right (by omega) (by omega)
    have h2 : 2 ^ (treeRows n + 1) ≤ 2 ^ 63 := Nat.pow_le_pow_right (by omega) (by omega)
    have h3 := Nat.two_pow_pos (treeRows n + 1 - x.row)
    have hoff := hx.2
    rw [translatePos_row hT hx h0, startPositionAtRow_eq (by omega) hr, add64_of_lt (by omega),
      nodePos, Nat.add_comm]

/-- A position on a higher row ends up past the smaller tree. -/
theorem le_translatePos_down (hx : Fits T x) (hr : treeRows n < x.row) :
    2 ^ (treeRows n + 1) ≤ translatePos (nodePos T x) T (treeRows n) := by
  have hrow := hx.1
  have h1 : 2 ^ (T - x.row) ≤ 2 ^ 62 := Nat.pow_le_pow_right (by omega) (by omega)
  have h2 : 2 ^ (treeRows n + 1) ≤ 2 ^ 63 := Nat.pow_le_pow_right (by omega) (by omega)
  have hoff := hx.2
  rw [translatePos_row hT hx (by omega), startPositionAtRow_above (by omega) hr (by omega),
    add64_of_lt (by omega)]
  omega

omit hrows in
/-- The number after the top is past every row. -/
theorem detectRow_max : detectRow (2 ^ (T + 1) - 1) T = T + 1 := by
  have key : ∀ d fuel r, r + d = T + 1 → d < fuel →
      detectRowLoop (2 ^ (T + 1) - 1) fuel (2 ^ T >>> r) r = T + 1 := by
    intro d
    induction d with
    | zero =>
      intro fuel r hr hf
      obtain ⟨fuel, rfl⟩ : ∃ f, fuel = f + 1 := ⟨fuel - 1, by omega⟩
      obtain rfl : r = T + 1 := by omega
      have hzero : 2 ^ T >>> (T + 1) = 0 := by
        rw [Nat.shiftRight_eq_div_pow]
        exact Nat.div_eq_of_lt (Nat.pow_lt_pow_right (by omega) (by omega))
      rw [detectRowLoop, if_neg (by rw [hzero, Nat.and_zero]; simp)]
    | succ d ih =>
      intro fuel r hr hf
      obtain ⟨fuel, rfl⟩ : ∃ f, fuel = f + 1 := ⟨fuel - 1, by omega⟩
      have hmark : 2 ^ T >>> r = 2 ^ (T - r) := by
        rw [Nat.shiftRight_eq_div_pow, Nat.pow_div (by omega) (by omega)]
      have hbit : (2 ^ (T + 1) - 1) &&& 2 ^ (T - r) ≠ 0 := by
        rw [Nat.and_two_pow, Nat.testBit_two_pow_sub_one, decide_eq_true (by omega)]
        simp
      rw [detectRowLoop, if_pos (by rwa [hmark]), ← Nat.shiftRight_add]
      exact ih fuel (r + 1) (by omega) (by omega)
  have h64 : (2 : Nat) ^ T < 2 ^ 64 := Nat.pow_lt_pow_right (by omega) (by omega)
  have h := key (T + 1) 65 0 (by omega) (by omega)
  rw [Nat.shiftRight_zero] at h
  rw [detectRow, shl64_of_lt (by omega), Nat.one_mul, h]

theorem isRootPositionTotalRows_max :
    isRootPositionTotalRows (2 ^ (T + 1) - 1) n T = false := by
  have hk : treeRows n ≤ 63 := by omega
  have hn : n ≤ 2 ^ 63 := treeRows_le_iff.mp hk
  -- The number past the top stays so in the smaller tree.
  have hmax : isRootPosition (2 ^ (treeRows n + 1) - 1) n = false := by
    rw [Bool.eq_false_iff, Ne, isRootPosition_iff hn]
    rintro ⟨y, hy, he⟩
    have := (fits_of_inForest (le_two_pow_treeRows n) hy.inForest).pos_lt_max
    omega
  rw [isRootPositionTotalRows]
  by_cases hT' : T = treeRows n
  · rw [if_neg (not_not.mpr hT'), hT', hmax]
  · have h1 : 2 ^ (treeRows n + 1) ≤ 2 ^ 63 := Nat.pow_le_pow_right (by omega) (by omega)
    have h2 : 2 ^ (T + 1) ≤ 2 ^ 63 := Nat.pow_le_pow_right (by omega) (by omega)
    have hpos := Nat.two_pow_pos T
    have hpos' := Nat.two_pow_pos (treeRows n)
    rw [if_pos hT', translatePos, detectRow_max hT, if_neg (Nat.succ_ne_zero _),
      startPositionAtRow_above hT (by omega) (by omega),
      startPositionAtRow_above (by omega) (by omega) (by omega), ← hmax]
    congr 1
    unfold add64 sub64
    omega

/-- The test finds a root or the number of a root that the offset counts on to. -/
theorem isRootPositionTotalRows_cases (hx : Fits T x) :
    isRootPositionTotalRows (nodePos T x) n T = true ↔
      x.IsRoot n ∨ Spills n T (nodePos T x) := by
  have hk : treeRows n ≤ 63 := by omega
  have hn : n ≤ 2 ^ 63 := treeRows_le_iff.mp hk
  have hn' := le_two_pow_treeRows n
  have hT' : (if T ≠ treeRows n then isRootPosition (translatePos (nodePos T x) T (treeRows n)) n
      else isRootPosition (nodePos T x) n) =
      isRootPosition (translatePos (nodePos T x) T (treeRows n)) n := by
    by_cases h : T = treeRows n
    · rw [if_neg (not_not.mpr h), ← h, translatePos_nodePos (by omega) (by omega) hx hx]
    · rw [if_pos h]
  rw [isRootPositionTotalRows, hT', isRootPosition_iff hn, spills_nodePos hT hx]
  by_cases hr : x.row ≤ treeRows n
  · rw [translatePos_down hT hrows hx hr]
    constructor
    · rintro ⟨y, hy, he⟩
      rcases nodePos_eq_cases hr (fits_of_inForest hn' hy.inForest) he with rfl | hlt
      · exact Or.inl hy
      · exact Or.inr ⟨y, hy, hlt, he⟩
    · rintro (h | ⟨y, hy, -, he⟩)
      · exact ⟨x, h, rfl⟩
      · exact ⟨y, hy, he⟩
  · have hpast := le_translatePos_down hT hrows hx (by omega)
    constructor
    · rintro ⟨y, hy, he⟩
      have := (fits_of_inForest hn' hy.inForest).pos_lt_max
      omega
    · rintro (h | ⟨y, hy, hlt, -⟩)
      · exact absurd (fits_of_inForest hn' h.inForest).1 hr
      · have := (fits_of_inForest hn' hy.inForest).1
        omega

theorem not_spills_of_inForest (hx : x.InForest n) : ¬ Spills n T (nodePos T x) := by
  have hn' := le_two_pow_treeRows n
  have hfit : Fits T x := fits_of_inForest (treeRows_le_iff.mp hrows) hx
  rw [spills_nodePos hT hfit]
  rintro ⟨y, hy, hlt, he⟩
  obtain rfl := (fits_of_inForest hn' hx).pos_inj (fits_of_inForest hn' hy.inForest) he
  omega

end

/-- **The test for roots agrees with the list of the roots exactly at the positions whose
offset does not spill into a higher row of the smaller tree.** -/
theorem rootTest_agrees_iff {n T p : Nat} (hrows : treeRows n ≤ T) (hT : T ≤ 62)
    (hp : p < 2 ^ (T + 1)) :
    (isRootPositionTotalRows p n T = true ↔ p ∈ rootPositions n T) ↔ ¬ Spills n T p := by
  have hk : T ≤ 63 := by omega
  have hn : n ≤ 2 ^ T := treeRows_le_iff.mp hrows
  by_cases hmax : p = 2 ^ (T + 1) - 1
  · have hspill : ¬ Spills n T p := by
      rintro ⟨r, hr, -, hlt, -⟩
      have := List.mem_range.mp hr
      rw [hmax, detectRow_max hT] at hlt
      omega
    have hroots : p ∉ rootPositions n T := by
      rw [mem_rootPositions hk hn]
      rintro ⟨x, hx, rfl⟩
      have := (fits_of_inForest hn hx.inForest).pos_lt_max
      omega
    rw [hmax, isRootPositionTotalRows_max hT hrows, ← hmax]
    simp [hspill, hroots]
  · obtain ⟨x, hx, rfl⟩ := Fits.exists_of_lt (k := T) (show p < 2 ^ (T + 1) - 1 by omega)
    rw [isRootPositionTotalRows_cases hT hrows hx, nodePos_mem_rootPositions hk hn hx]
    by_cases hroot : x.IsRoot n
    · have := not_spills_of_inForest hT hrows hroot.inForest
      simp [hroot, this]
    · simp [hroot]

/-- The root 8 of three leaves in the tree of three rows. -/
theorem rootTest_agrees_eight :
    (isRootPositionTotalRows 8 3 3 = true ↔ 8 ∈ rootPositions 3 3) ↔ ¬ Spills 3 3 8 :=
  rootTest_agrees_iff (by decide) (by decide) (by decide)

/-- In the tree of two rows, the empty leaf slot 4 has the number of the root on row 1. -/
theorem rootTest_accepts_empty_slot :
    isRootPositionTotalRows 4 3 3 = true ∧ rootPositions 3 3 = [8, 2] ∧ Spills 3 3 4 := by
  decide

end Utreexo
