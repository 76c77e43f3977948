import Utreexo.ForestPos
import Utreexo.Placed

/-! # Locating a position under its root

`detectOffset` finds the tree that a position is in, the distance to its root and the
turns that lead to it.  It compares the first leaf below the position with the sizes
of the trees, from the highest on.
-/
namespace Utreexo
open Merkle

theorem rootRows_prefix (n : Nat) {h : Nat} (hh : h ≤ 64) :
    ∃ lower, rootRows n 0 = rootRows n h ++ lower := by
  induction h with
  | zero => exact ⟨[], by simp⟩
  | succ h ih =>
    obtain ⟨lower, hl⟩ := ih (by omega)
    rw [rootRows_step n (h := h) (by omega), List.append_assoc] at hl
    exact ⟨_, hl⟩

/-- A root comes after the roots on the rows above. -/
theorem rootRows_getElem {n r : Nat} (hr : r ∈ rootRows n 0) :
    (rootRows n 0)[(rootRows n (r + 1)).length]? = some r := by
  obtain ⟨_, hlt, hbit⟩ := mem_rootRows.mp hr
  obtain ⟨lower, hl⟩ := rootRows_prefix n (Nat.le_of_lt hlt)
  rw [hl, rootRows_step n hlt, hbit]
  simp

theorem rootRows_eq_nil {n k : Nat} (hn : n ≤ 2 ^ k) : rootRows n (k + 1) = [] := by
  refine List.eq_nil_iff_forall_not_mem.mpr fun r hr => ?_
  obtain ⟨h1, _, h3⟩ := mem_rootRows.mp hr
  have := testBit_row_le hn h3
  omega

theorem shl64_and_maxPosition {q r t : Nat} (ht : t ≤ 63) :
    shl64 q r &&& maxPosition t = q * 2 ^ r % 2 ^ (t + 1) := by
  rw [maxPosition_eq ht, Nat.and_two_pow_sub_one_eq_mod, shl64, Nat.shiftLeft_eq]
  exact Nat.mod_mod_of_dvd _ (Nat.pow_dvd_pow 2 (by omega))

theorem shl64_one_and {n t : Nat} (ht : t ≤ 63) :
    shl64 1 t &&& n = if n.testBit t then 2 ^ t else 0 := by
  have h1 : (2 : Nat) ^ t < 2 ^ 64 := Nat.pow_lt_pow_right (by omega) (by omega)
  rw [shl64_of_lt (by omega), Nat.one_mul, Nat.and_comm, Nat.and_two_pow]
  cases n.testBit t <;> simp

theorem sub64_two_pow_mod {q s t : Nat} (hst : s ≤ t) (ht : t ≤ 63) :
    sub64 q (2 ^ t) % 2 ^ s = q % 2 ^ s := by
  have h1 : (2 : Nat) ^ t < 2 ^ 64 := Nat.pow_lt_pow_right (by omega) (by omega)
  rw [sub64, Nat.mod_mod_of_dvd _ (Nat.pow_dvd_pow 2 (by omega)), Nat.mod_eq_of_lt h1]
  obtain ⟨c, hc⟩ : 2 ^ s ∣ 2 ^ 64 - 2 ^ t :=
    Nat.dvd_sub (Nat.pow_dvd_pow 2 (by omega)) (Nat.pow_dvd_pow 2 hst)
  rw [hc, Nat.add_mul_mod_self_left]

/-- One row below, the remaining position still leads to the same leaf. -/
theorem leaf_mod_below {q q' r t leaf : Nat} (h : q * 2 ^ r % 2 ^ (t + 1) = leaf % 2 ^ (t + 1))
    (hq : q' % 2 ^ t = q % 2 ^ t) : q' * 2 ^ r % 2 ^ t = leaf % 2 ^ t := by
  have hmod := congrArg (· % 2 ^ t) h
  simp only [Nat.mod_mod_of_dvd _ (Nat.pow_dvd_pow 2 (show t ≤ t + 1 by omega))] at hmod
  rw [← hmod, Nat.mul_mod, hq, ← Nat.mul_mod]

/-- A leaf that passes every tree is not found. -/
theorem detectOffsetLoop_error {n r leaf : Nat} (orig : Nat)
    (hall : ∀ t, n.testBit t = true → 2 ^ t ≤ leaf % 2 ^ (t + 1)) {rows : Nat} :
    ∀ {q : Nat} (bigger : Nat), rows ≤ 64 → q * 2 ^ r % 2 ^ rows = leaf % 2 ^ rows →
      detectOffsetLoop n r orig rows q bigger = .error (.noOffset orig n) := by
  induction rows with
  | zero => exact fun _ _ _ => rfl
  | succ t ih =>
    intro q bigger ht hmod
    rw [detectOffsetLoop, maxLeafCount, shl64_one_and (by omega),
      shl64_and_maxPosition (by omega), hmod]
    rcases hb : n.testBit t with _ | _
    · simpa using ih bigger (by omega) (leaf_mod_below hmod rfl)
    · rw [if_pos rfl, if_pos (hall t hb)]
      simp only [ne_eq, Nat.pow_eq_zero, OfNat.ofNat_ne_zero, false_and, not_false_eq_true,
        if_true]
      exact ih _ (by omega) (leaf_mod_below hmod (sub64_two_pow_mod (Nat.le_refl _) (by omega)))

/-- The loop of `detectOffset` from row `R + d` on, where `leaf` is the first leaf below the
position and `R` the row of the highest tree that the leaf does not pass. -/
theorem detectOffsetLoop_spec {n r R leaf : Nat} (orig : Nat)
    (hbit : n.testBit R = true) (hlow : leaf % 2 ^ (R + 1) < 2 ^ R)
    (hhigh : ∀ t, R < t → n.testBit t = true → 2 ^ t ≤ leaf % 2 ^ (t + 1)) (d : Nat) :
    ∀ {q : Nat} (bigger : Nat), R + d ≤ 63 → q < 2 ^ 64 →
      q * 2 ^ r % 2 ^ (R + d + 1) = leaf % 2 ^ (R + d + 1) →
      ∃ q' c, q' < 2 ^ 64 ∧ q' % 2 ^ (R + 1) = q % 2 ^ (R + 1) ∧
        c + (rootRows n (R + d + 1)).length = bigger + (rootRows n (R + 1)).length ∧
        detectOffsetLoop n r orig (R + d + 1) q bigger =
          .ok (c, sub8 R r, not64 (q' ^^^ 1)) := by
  induction d with
  | zero =>
    intro q bigger hd hq hmod
    rw [Nat.add_zero] at hd hmod
    refine ⟨q, bigger, hq, rfl, rfl, ?_⟩
    rw [Nat.add_zero, detectOffsetLoop, maxLeafCount, shl64_one_and hd, if_pos hbit,
      shl64_and_maxPosition hd, hmod, if_neg (Nat.not_le.mpr hlow)]
  | succ d ih =>
    intro q bigger hd hq hmod
    have hlen := congrArg List.length (rootRows_step n (h := R + d + 1) (by omega))
    rw [List.length_append] at hlen
    rw [show R + (d + 1) + 1 = (R + d + 1) + 1 from by omega, detectOffsetLoop, maxLeafCount,
      shl64_one_and (by omega), shl64_and_maxPosition (by omega)]
    rw [show R + (d + 1) + 1 = (R + d + 1) + 1 from by omega] at hmod
    rw [hmod]
    rcases hb : n.testBit (R + d + 1) with _ | _
    · obtain ⟨q', c, h1, h2, h3, h4⟩ := ih bigger (by omega) hq (leaf_mod_below hmod rfl)
      refine ⟨q', c, h1, h2, ?_, ?_⟩
      · simp [hb] at hlen
        rwa [← hlen]
      · simpa using h4
    · have hge := hhigh (R + d + 1) (by omega) hb
      obtain ⟨q', c, h1, h2, h3, h4⟩ := ih (q := sub64 q (2 ^ (R + d + 1)))
        (bigger + 1) (by omega) (Nat.mod_lt _ (by decide))
        (leaf_mod_below hmod (sub64_two_pow_mod (Nat.le_refl _) (by omega)))
      refine ⟨q', c, h1, ?_, ?_, ?_⟩
      · rw [h2, sub64_two_pow_mod (by omega) (by omega)]
      · simp [hb] at hlen
        omega
      · rw [if_pos rfl, if_pos hge]
        simp only [ne_eq, Nat.pow_eq_zero, OfNat.ofNat_ne_zero, false_and, not_false_eq_true,
          if_true]
        exact h4

/-- The bits that `detectOffset` returns: those of the offset, all but the last one
inverted. -/
def Turns (bits off j : Nat) : Prop :=
  ∀ i < j, bits.testBit i = if i = 0 then off.testBit 0 else !off.testBit i

section
variable {n : Nat} (hn : n ≤ 2 ^ 63) {x : Node} {j : Nat}
include hn

omit hn in
/-- Shifted by its row, a position is the first leaf below it. -/
theorem nodePos_mul_mod {k : Nat} (hfit : Fits k x) :
    nodePos k x * 2 ^ x.row % 2 ^ (k + 1) = x.off * 2 ^ x.row % 2 ^ (k + 1) := by
  have h1 : 2 ^ (k + 1 - x.row) * 2 ^ x.row = 2 ^ (k + 1) := by
    rw [← Nat.pow_add, Nat.sub_add_cancel (by have := hfit.1; omega)]
  have h2 : 2 ^ (k + 1) * 2 ^ x.row - 2 ^ (k + 1) = 2 ^ (k + 1) * (2 ^ x.row - 1) := by
    rw [Nat.mul_sub, Nat.mul_one]
  rw [nodePos, Nat.add_mul, Nat.sub_mul, h1, h2, Nat.mul_add_mod]

/-- What `detectOffset` returns for any position: the highest tree that the first leaf below
the position does not pass. -/
theorem detectOffset_of_row (hfit : Fits (treeRows n) x) {R : Nat} (hbit : n.testBit R = true)
    (hlow : x.off * 2 ^ x.row % 2 ^ (R + 1) < 2 ^ R)
    (hhigh : ∀ t, R < t → n.testBit t = true → 2 ^ t ≤ x.off * 2 ^ x.row % 2 ^ (t + 1)) :
    ∃ bits, Turns bits x.off (R - x.row) ∧ detectOffset (nodePos (treeRows n) x) n =
      .ok ((rootRows n (R + 1)).length, sub8 R x.row, bits) := by
  have hk := treeRows_le hn
  have hn' := le_two_pow_treeRows n
  have hR := testBit_row_le hn' hbit
  obtain ⟨d, hd⟩ := Nat.exists_eq_add_of_le hR
  have hmod : nodePos (treeRows n) x * 2 ^ x.row % 2 ^ (R + d + 1) =
      x.off * 2 ^ x.row % 2 ^ (R + d + 1) := by
    rw [← hd]
    exact nodePos_mul_mod hfit
  obtain ⟨q', c, h1, h2, h3, h4⟩ := detectOffsetLoop_spec (nodePos (treeRows n) x)
    hbit hlow hhigh d 0 (by omega) (hfit.pos_lt_word hk) hmod
  refine ⟨not64 (q' ^^^ 1), ?_, ?_⟩
  · intro i hi
    have hq : q'.testBit i = x.off.testBit i := by
      have hbits := congrArg (Nat.testBit · i) h2
      simp only [Nat.testBit_mod_two_pow, show i < R + 1 by omega, decide_true,
        Bool.true_and] at hbits
      rw [hbits, hfit.testBit]
      have : ¬ treeRows n + 1 - x.row ≤ i := by omega
      simp [this]
    rw [not64, Nat.testBit_xor, Nat.testBit_two_pow_sub_one, Nat.testBit_xor, hq,
      decide_eq_true (by omega : i < 64)]
    by_cases h0 : i = 0
    · subst h0
      simp
    · rw [Nat.testBit_one_eq_true_iff_self_eq_zero.not.mpr h0 |> Bool.eq_false_iff.mpr]
      simp [h0]
  · rw [detectOffset, detectRow_nodePos hk hfit]
    rw [← hd] at h3 h4
    rw [rootRows_eq_nil hn', List.length_nil, Nat.add_zero, Nat.zero_add] at h3
    rw [h3] at h4
    exact h4

omit hn in
/-- The first leaf below a node of the forest passes the trees above its own, and not its
own. -/
theorem leaf_of_root (hroot : (x.up j).IsRoot n) :
    x.off * 2 ^ x.row % 2 ^ (x.row + j + 1) < 2 ^ (x.row + j) ∧
      ∀ t, x.row + j < t → n.testBit t = true → 2 ^ t ≤ x.off * 2 ^ x.row % 2 ^ (t + 1) := by
  obtain ⟨-, heq⟩ := Node.isRoot_iff_rootAt.mp hroot
  rw [Node.up_row] at heq
  -- The first leaf below the node, relative to the trees.
  have hoff : x.off * 2 ^ x.row =
      n / 2 ^ (x.row + j + 1) * 2 ^ (x.row + j + 1) + x.off % 2 ^ j * 2 ^ x.row := by
    have h1 : x.off / 2 ^ j = n / 2 ^ (x.row + j + 1) * 2 := congrArg Node.off heq
    have h2 := Nat.div_add_mod x.off (2 ^ j)
    rw [h1] at h2
    calc x.off * 2 ^ x.row
        = (2 ^ j * (n / 2 ^ (x.row + j + 1) * 2) + x.off % 2 ^ j) * 2 ^ x.row := by rw [h2]
      _ = _ := by ring
  have hrest : x.off % 2 ^ j * 2 ^ x.row < 2 ^ (x.row + j) := by
    rw [Nat.add_comm x.row j, Nat.pow_add]
    exact Nat.mul_lt_mul_of_pos_right (Nat.mod_lt _ (Nat.two_pow_pos _)) (Nat.two_pow_pos _)
  have hpow : (2 : Nat) ^ (x.row + j + 1) = 2 ^ (x.row + j) * 2 := Nat.pow_succ 2 _
  refine ⟨?_, fun t ht hb => ?_⟩
  · rw [hoff, Nat.mul_comm, Nat.mul_add_mod, Nat.mod_eq_of_lt (by omega)]
    exact hrest
  · -- The leaf and the number of leaves have the same bits above the row of the root.
    have hdiv : x.off * 2 ^ x.row / 2 ^ (x.row + j + 1) = n / 2 ^ (x.row + j + 1) := by
      have hz : x.off % 2 ^ j * 2 ^ x.row / 2 ^ (x.row + j + 1) = 0 :=
        Nat.div_eq_of_lt (by omega)
      rw [hoff, Nat.mul_comm (n / _), Nat.mul_add_div (Nat.two_pow_pos _), hz, Nat.add_zero]
    have hbits := congrArg (Nat.testBit · (t - (x.row + j + 1))) hdiv
    simp only [Nat.testBit_div_two_pow,
      show t - (x.row + j + 1) + (x.row + j + 1) = t by omega] at hbits
    refine Nat.ge_two_pow_of_testBit ?_
    rw [Nat.testBit_mod_two_pow, hbits, hb]
    simp

theorem detectOffset_nodePos (hroot : (x.up j).IsRoot n) :
    ∃ bits, Turns bits x.off j ∧ detectOffset (nodePos (treeRows n) x) n =
      .ok ((rootRows n (x.row + j + 1)).length, j, bits) := by
  have hn' := le_two_pow_treeRows n
  have hfit := fits_of_inForest hn' (Node.inForest_of_up hroot.inForest)
  obtain ⟨hbit, -⟩ := Node.isRoot_iff_rootAt.mp hroot
  rw [Node.up_row] at hbit
  have hR := testBit_row_le hn' hbit
  obtain ⟨hlow, hhigh⟩ := leaf_of_root hroot
  obtain ⟨bits, hbits, hrun⟩ := detectOffset_of_row hn hfit hbit hlow hhigh
  rw [Nat.add_sub_cancel_left] at hbits
  rw [sub8_of_le (by have := treeRows_le hn; omega) (Nat.le_add_right _ _),
    Nat.add_sub_cancel_left] at hrun
  exact ⟨bits, hbits, hrun⟩

end

end Utreexo
