import Utreexo.ProofReads

/-! # Forests of more than `2 ^ 63` leaves

With more than `2 ^ 63` leaves a forest has 64 rows, and `1 << 64` is zero in a
`uint64`.  The parent of a position is then half of it, so a target that is not itself
a root is followed by ever smaller positions, none of which is a root, until the proof
has no hash left.
-/
namespace Utreexo
open Merkle

/-- The target is a root on the row that `calculateHashes` finds for it. -/
def DirectRoot (n t : Nat) : Prop :=
  ∃ r, r ≤ 64 ∧ isRootPositionOnRow t n r = true ∧ (r = 0 ∨ 2 ≤ r ∧ n ≤ t)

/-- Row 1 is never the row of a position: its greatest position is less than that of
row 0. -/
def WideRow (r : Nat) : Prop := r = 0 ∨ 2 ≤ r ∧ r ≤ 64

section Wide
variable {n : Nat} (hlo : 2 ^ 63 < n) (hhi : n < 2 ^ 64)
include hlo hhi

theorem treeRows_wide : treeRows n = 64 := by
  have h1 : treeRows n ≤ 64 := treeRows_le_iff.mpr (by omega)
  have h2 : ¬ treeRows n ≤ 63 := fun h => by have := treeRows_le_iff.mp h; omega
  omega

omit hlo hhi in
theorem parent_wide (p : Nat) : parent p 64 = p / 2 := by
  rw [parent, shl64_eq_zero (Nat.le_refl _), Nat.or_zero, Nat.shiftRight_one]

omit hlo hhi in
theorem maxPos_wide_zero : maxPos 0 64 n = n - 1 := by
  by_cases h0 : n = 0 <;> simp [maxPos, maxPositionAtRow, parentMany, bind, Except.bind, h0]

theorem maxPos_wide_one : maxPos 1 64 n = n / 2 - 1 := by
  have h1 : parentMany n 1 64 = .ok (n / 2) := by
    rw [parentMany, if_neg (by decide), if_neg (by decide),
      show shl64 (maxPosition 64) (sub8 64 (sub8 1 1)) = 0 from by decide, Nat.or_zero,
      Nat.shiftRight_one, show maxPosition 64 = 2 ^ 64 - 1 from by decide,
      Nat.and_two_pow_sub_one_eq_mod, Nat.mod_eq_of_lt (by omega)]
  rw [maxPos, maxPositionAtRow, h1]
  have : n / 2 ≠ 0 := by omega
  simp [bind, Except.bind, this]

omit hlo in
theorem wide_off_lt {r : Nat} (h2 : 2 ≤ r) (hr : r ≤ 64) : n / 2 ^ r < 2 ^ (63 - (r - 1)) := by
  refine Nat.div_lt_of_lt_mul (Nat.lt_of_lt_of_le hhi ?_)
  rw [← Nat.pow_add]
  exact Nat.pow_le_pow_right (by omega) (by omega)

omit hlo in
/-- The greatest position on a row from 2 on is one less than the position of a node
in a forest with 63 rows, one row below. -/
theorem maxPos_wide {r : Nat} (h2 : 2 ≤ r) (hr : r ≤ 64) :
    maxPos r 64 n = nodePos 63 ⟨r - 1, n / 2 ^ r⟩ - 1 := by
  have hoff := wide_off_lt hhi h2 hr
  have hm := or_mask_eq (Nat.le_refl 63) (j := r - 1) (a := n / 2 ^ r) (by omega)
    (Nat.lt_of_lt_of_le hoff (Nat.pow_le_pow_right (by omega) (by omega)))
  have h1 : parentMany n r 64 = .ok (nodePos 63 ⟨r - 1, n / 2 ^ r⟩) := by
    rw [parentMany, if_neg (by omega), if_neg (by omega),
      show sub8 r 1 = r - 1 from sub8_of_le (by omega) (by omega),
      sub8_of_le (by omega) (by omega), show maxPosition 64 = maxPosition 63 from by decide,
      Nat.shiftRight_eq_div_pow, show 64 - (r - 1) = 63 + 1 - (r - 1) by omega, hm]
  rw [maxPos, maxPositionAtRow, h1]
  by_cases h0 : nodePos 63 ⟨r - 1, n / 2 ^ r⟩ = 0 <;> simp [bind, Except.bind, h0]

omit hlo in
theorem rootPosition_wide {r : Nat} (h2 : 2 ≤ r) (hr : r ≤ 64) :
    rootPosition n r 64 = nodePos 63 ⟨r - 1, n / 2 ^ (r + 1) * 2⟩ := by
  have hoff := wide_off_lt hhi h2 hr
  have hle : n / 2 ^ (r + 1) * 2 ≤ n / 2 ^ r := by rw [Node.div_pow_succ]; omega
  have hm := or_mask_eq (Nat.le_refl 63) (j := r - 1) (a := n / 2 ^ (r + 1) * 2) (by omega)
    (Nat.lt_of_le_of_lt hle
      (Nat.lt_of_lt_of_le hoff (Nat.pow_le_pow_right (by omega) (by omega))))
  have h8 : add8 r 1 = r + 1 := Nat.mod_eq_of_lt (by omega)
  have h8' : sub8 (add8 64 1) r = 63 + 1 - (r - 1) := by
    rw [show add8 64 1 = 65 from rfl, sub8_of_le (by omega) (by omega)]
    omega
  simp only [rootPosition, h8, h8', show maxPosition 64 = maxPosition 63 from by decide,
    and_mask_shift (Nat.le_refl 63) hhi r]
  exact hm

omit hlo in
theorem rootPosition_wide_zero : rootPosition n 0 64 = n - n % 2 := by
  have hdef : rootPosition n 0 64 = (((n &&& shl64 (maxPosition 64) (add8 0 1)) >>> 0) |||
      shl64 (maxPosition 64) (sub8 (add8 64 1) 0)) &&& maxPosition 64 := rfl
  rw [hdef, show shl64 (maxPosition 64) (add8 0 1) = not64 1 from by decide,
    show shl64 (maxPosition 64) (sub8 (add8 64 1) 0) = 0 from by decide, Nat.shiftRight_zero,
    Nat.or_zero, show maxPosition 64 = 2 ^ 64 - 1 from by decide,
    Nat.and_two_pow_sub_one_eq_mod, and_not_one_eq hhi]
  exact Nat.mod_eq_of_lt (by omega)

omit hlo hhi in
theorem wideRow_start {r : Nat} (h2 : 2 ≤ r) (hr : r ≤ 64) (a : Nat) :
    2 ^ 63 ≤ nodePos 63 ⟨r - 1, a⟩ := by
  have : 2 ^ (63 + 1 - (r - 1)) ≤ 2 ^ 63 := Nat.pow_le_pow_right (by omega) (by omega)
  simp only [nodePos]
  omega

/-- Every row that occurs reaches the positions below `2 ^ 63`, and its root is not
among them. -/
theorem WideRow.low {r : Nat} (hr : WideRow r) {q : Nat} (hq : q < 2 ^ 63) :
    q ≤ maxPos r 64 n ∧ isRootPositionOnRow q n r = false := by
  have hroot : 2 ^ 63 ≤ rootPosition n r 64 ∨ n.testBit r = false := by
    rcases hr with rfl | ⟨h2, h64⟩
    · refine Or.inl ?_
      rw [rootPosition_wide_zero hhi]
      omega
    · rw [rootPosition_wide hhi h2 h64]
      exact Or.inl (wideRow_start h2 h64 _)
  constructor
  · rcases hr with rfl | ⟨h2, h64⟩
    · rw [maxPos_wide_zero]
      omega
    · rw [maxPos_wide hhi h2 h64]
      have := wideRow_start h2 h64 (n / 2 ^ r)
      omega
  · rw [isRootPositionOnRow, treeRows_wide hlo hhi, shl64_and_ne_zero hhi, Bool.and_eq_false_iff]
    rcases hroot with h | h
    · exact Or.inr (beq_eq_false_iff_ne.mpr (by omega))
    · exact Or.inl h

theorem root_wide_zero {t : Nat} (h : isRootPositionOnRow t n 0 = true) : t = n - 1 := by
  rw [isRootPositionOnRow, treeRows_wide hlo hhi, shl64_and_ne_zero hhi, Bool.and_eq_true,
    beq_iff_eq, rootPosition_wide_zero hhi, Nat.testBit_eq_decide_div_mod_eq,
    decide_eq_true_iff, Nat.pow_zero, Nat.div_one] at h
  omega

/-- The root on a row from 2 on lies between the greatest positions of the rows below
and that of its own row. -/
theorem root_wide {t r : Nat} (h2 : 2 ≤ r) (hr : r ≤ 64) (h : isRootPositionOnRow t n r = true) :
    r < 64 ∧ t < 2 ^ 64 - 2 ∧ (∀ j, 2 ≤ j → j < r → maxPos j 64 n < t) ∧ t ≤ maxPos r 64 n := by
  rw [isRootPositionOnRow, treeRows_wide hlo hhi, shl64_and_ne_zero hhi, Bool.and_eq_true,
    beq_iff_eq, rootPosition_wide hhi h2 hr] at h
  obtain ⟨hbit, rfl⟩ := h
  have hr64 : r < 64 := by
    by_contra hge
    rw [Nat.testBit_lt_two_pow (Nat.lt_of_lt_of_le hhi
      (Nat.pow_le_pow_right (by omega) (by omega)))] at hbit
    cases hbit
  rw [Nat.testBit_eq_decide_div_mod_eq, decide_eq_true_iff] at hbit
  have hdiv := Node.div_pow_succ n r
  have hoff := wide_off_lt hhi h2 hr
  have hfit : Fits 63 ⟨r - 1, n / 2 ^ (r + 1) * 2⟩ := ⟨by simp only; omega, by simp only; omega⟩
  refine ⟨hr64, ?_, ?_, ?_⟩
  · have h1 := hfit.pos_lt
    have h3 : 2 ^ 1 ≤ 2 ^ (63 - (r - 1)) := Nat.pow_le_pow_right (by omega) (by omega)
    simp only at h1
    omega
  · intro j hj hjr
    have hfit' : Fits 63 ⟨j - 1, n / 2 ^ j⟩ :=
      ⟨by simp only; omega, wide_off_lt hhi hj (by omega)⟩
    have h1 := hfit'.pos_lt_of_before (y := ⟨r - 1, n / 2 ^ (r + 1) * 2⟩)
      (Or.inl (by simp only; omega))
    rw [maxPos_wide hhi hj (by omega)]
    omega
  · rw [maxPos_wide hhi h2 hr]
    simp only [nodePos]
    omega

/-- The row found for a target, if any: the target is a root on it exactly when it is a
direct root. -/
theorem rowLoop_wide {t r fuel : Nat} (hr : WideRow r) (hlow : ∀ j < r, maxPos j 64 n < t)
    (ht : t < 2 ^ 64 - 2 ∨ DirectRoot n t) (hf : 64 < fuel) :
    ∃ row, rowLoop t 64 n fuel r = .ok row ∧ WideRow row ∧ (∀ j < row, maxPos j 64 n < t) ∧
      (isRootPositionOnRow t n row = true ↔ DirectRoot n t) := by
  rcases Nat.lt_or_ge (2 ^ 64 - 3) t with hbig | hsmall
  · -- Only the root on row 0 is that high.
    obtain ⟨d, hd, hroot, h0 | ⟨h2, hnt⟩⟩ := ht.resolve_left (by omega)
    · subst h0
      have ht0 := root_wide_zero hlo hhi hroot
      have hr0 : r = 0 := by
        by_contra hne
        have := hlow 0 (by omega)
        rw [maxPos_wide_zero] at this
        omega
      subst hr0
      obtain ⟨f, rfl⟩ : ∃ f, fuel = f + 1 := ⟨fuel - 1, by omega⟩
      refine ⟨0, ?_, Or.inl rfl, hlow, fun _ => ⟨0, by omega, hroot, Or.inl rfl⟩, fun _ => hroot⟩
      rw [rowLoop, if_neg (by rw [maxPos_wide_zero]; omega)]
    · have := (root_wide hlo hhi h2 hd hroot).2.1
      omega
  · have htop : maxPos 64 64 n = 2 ^ 64 - 3 := by
      rw [maxPos_wide hhi (by omega) (Nat.le_refl _), Nat.div_eq_of_lt hhi]
      rfl
    have hr64 : r ≤ 64 := by rcases hr with rfl | h <;> omega
    obtain ⟨row, hrl, _, hle, hmax, hnew⟩ := rowLoop_spec (Nat.le_refl 64) hr64
      (show t ≤ maxPos 64 64 n by omega) (show 64 < r + fuel by omega)
    have hlow' : ∀ j < row, maxPos j 64 n < t := by
      intro j hj
      rcases Nat.lt_or_ge j r with h | h
      · exact hlow j h
      · exact hnew j h hj
    have hwide : WideRow row := by
      by_contra hno
      obtain rfl : row = 1 := by unfold WideRow at hno; omega
      have h0 := hlow' 0 (by omega)
      rw [maxPos_wide_zero] at h0
      rw [maxPos_wide_one hlo hhi] at hmax
      omega
    refine ⟨row, hrl, hwide, hlow', fun hroot => ⟨row, hle, hroot, ?_⟩, ?_⟩
    · rcases hwide with h | ⟨h2, _⟩
      · exact Or.inl h
      · have h0 := hlow' 0 (by omega)
        rw [maxPos_wide_zero] at h0
        exact Or.inr ⟨h2, by omega⟩
    · rintro ⟨d, hd, hroot, rfl | ⟨h2, hnt⟩⟩
      · have ht0 := root_wide_zero hlo hhi hroot
        have hrow : row = 0 := by
          by_contra hne
          have := hlow' 0 (by omega)
          rw [maxPos_wide_zero] at this
          omega
        rw [hrow]
        exact hroot
      · obtain ⟨hlt, _, hbelow, habove⟩ := root_wide hlo hhi h2 hd hroot
        rcases Nat.lt_trichotomy row d with h | rfl | h
        · rcases hwide with h0 | ⟨h2', _⟩
          · rw [h0, maxPos_wide_zero] at hmax
            omega
          · have := hbelow row h2' h
            omega
        · exact hroot
        · have := hlow' d h
          omega

/-- The two highest words are reached by no row, unless one of them is the root on
row 0. -/
theorem unreached_wide {t : Nat} (ht : ¬ (t < 2 ^ 64 - 2 ∨ DirectRoot n t)) :
    ∀ j, j ≤ 64 → maxPos j 64 n < t := by
  rw [not_or] at ht
  obtain ⟨hbig, hno⟩ := ht
  intro j hj
  rcases Nat.lt_or_ge j 2 with h | h2
  · obtain rfl | rfl : j = 0 ∨ j = 1 := by omega
    · rw [maxPos_wide_zero]
      by_contra hge
      obtain ⟨rfl, rfl⟩ : n = 2 ^ 64 - 1 ∧ t = 2 ^ 64 - 2 := by omega
      exact hno ⟨0, by omega, by decide, Or.inl rfl⟩
    · rw [maxPos_wide_one hlo hhi]
      omega
  · have hfit : Fits 63 ⟨j - 1, n / 2 ^ j⟩ := ⟨by simp only; omega, wide_off_lt hhi h2 hj⟩
    have := hfit.pos_lt_max
    rw [maxPos_wide hhi h2 hj]
    omega

/-! ### The loop -/

section Loop
variable {H : Type} (next : Nat → H → H → H)

/-- Once a position that is not a root has been taken, the queue holds one ever
smaller position, and the loop goes on until the proof has no hash left. -/
theorem calcLoop_wide_chain {fuel q : Nat} {st : CalcState H} {ps : PosState} (hl : Lock st ps)
    (hq : ps.queue = [q]) (hlt : q < 2 ^ 63) (hle : ∀ a ∈ ps.targets, q ≤ a)
    (hrow : WideRow st.row) (hf : st.load + st.proof.length + 66 ≤ fuel) :
    calcLoop next n 64 fuel st = .error .panic := by
  induction fuel generalizing st ps q with
  | zero => omega
  | succ fuel ih =>
    have hrow64 : st.row ≤ 64 := by rcases hrow with h | h <;> omega
    -- The queued position is next: it is not greater than any target.
    have hnext : getNextPos ps.targets ps.queue =
        some (q, .slice2, nextSibling q ps.targets []) := by
      rw [hq]
      cases hA : ps.targets with
      | nil => rfl
      | cons a A =>
        have : ¬ a < q := Nat.not_lt.mpr (hle a (by simp [hA]))
        simp [getNextPos, nextLeastSlice, this]
    obtain ⟨hmax, hroot⟩ := hrow.low hlo hhi hlt
    obtain ⟨f, rfl⟩ : ∃ f, fuel = f + 1 := ⟨fuel - 1, by omega⟩
    have hrl : rowLoop q 64 n (f + 1) st.row = .ok st.row := by
      rw [rowLoop, if_neg (by omega)]
    have hsub := PosState.sub_after ps .slice2 (nextSibling q ps.targets [])
    have hle' : ∀ a ∈ (ps.after .slice2 (nextSibling q ps.targets [])).targets, q / 2 ≤ a :=
      fun a ha => Nat.le_trans (Nat.div_le_self q 2) (hle a (hsub.targets.subset ha))
    have hqueue : (ps.after .slice2 (nextSibling q ps.targets [])).queue = [] := by
      cases hs : nextSibling q ps.targets [] with
      | none => simp [PosState.after, PosState.drop, hq]
      | some i => cases i <;> simp [PosState.after, PosState.drop, hq]
    rcases calcStep_round next hl hrow64 hnext hrl with
      ⟨hr, _⟩ | ⟨_, _, st', h1, h2, h3, h4, h5⟩ | ⟨_, _, ⟨_, h1⟩ | ⟨st', h1, h2, h3, h4, h5⟩⟩
    · rw [hroot] at hr
      cases hr
    · rw [calcLoop_of_some h1]
      refine ih h2 (q := q / 2) (by simp [PosState.push, hqueue, parent_wide]) (by omega) hle'
        (h3 ▸ hrow) ?_
      rw [h4]
      omega
    · exact calcLoop_of_error h1
    · rw [calcLoop_of_some h1]
      refine ih h2 (q := q / 2) (by simp [PosState.push, hqueue, parent_wide]) (by omega) hle'
        (h3 ▸ hrow) ?_
      omega

/-- **The outcome with 64 rows.**  `calculateHashes` returns exactly when every target
is a direct root; it reads past the end of the proof exactly when some target below
the two highest words is not. -/
theorem calcLoop_wide_outcome {fuel : Nat} {st : CalcState H} {ps : PosState} (hl : Lock st ps)
    (hq : ps.queue = []) (hsorted : ps.targets.Pairwise (· ≤ ·)) (hrow : WideRow st.row)
    (hlow : ∀ j < st.row, ∀ t ∈ ps.targets, maxPos j 64 n < t)
    (hf : st.load + st.proof.length + 67 ≤ fuel) :
    (calcLoop next n 64 fuel st = .error .panic ↔
      ∃ t ∈ ps.targets, t < 2 ^ 64 - 2 ∧ ¬ DirectRoot n t) ∧
    ((∃ st', calcLoop next n 64 fuel st = .ok st') ↔ ∀ t ∈ ps.targets, DirectRoot n t) := by
  induction hA : ps.targets generalizing fuel st ps with
  | nil =>
    obtain ⟨f, rfl⟩ : ∃ f, fuel = f + 1 := ⟨fuel - 1, by omega⟩
    have hrow64 : st.row ≤ 64 := by rcases hrow with h | h <;> omega
    have hst : calcStep next n 64 f st = .ok none := by
      unfold calcStep
      rw [if_neg (by omega), hl.targets, hl.queue, hA, hq]
      rfl
    rw [calcLoop_of_none hst]
    simp
  | cons t A ih =>
    obtain ⟨f, rfl⟩ : ∃ f, fuel = f + 1 := ⟨fuel - 1, by omega⟩
    have hrow64 : st.row ≤ 64 := by rcases hrow with h | h <;> omega
    rw [hA] at hsorted
    obtain ⟨hge, hsorted'⟩ := List.pairwise_cons.mp hsorted
    have hlow_t : ∀ j < st.row, maxPos j 64 n < t := fun j hj => hlow j hj t (by simp [hA])
    have hnext : getNextPos ps.targets ps.queue = some (t, .slice1, nextSibling t A []) := by
      rw [hA, hq]
      rfl
    by_cases hd : t < 2 ^ 64 - 2 ∨ DirectRoot n t
    · obtain ⟨row, hrl, hwide, hlow', hroot⟩ :=
        rowLoop_wide hlo hhi hrow hlow_t hd (show 64 < f by omega)
      by_cases hdirect : DirectRoot n t
      · rcases calcStep_round next hl hrow64 hnext hrl with
          ⟨_, st', h1, h2, h3, h4, h5⟩ | ⟨hr, _⟩ | ⟨hr, _⟩
        · have hrec := ih h2 (by simp [PosState.drop, hq]) (by simpa [PosState.drop, hA])
            (h3 ▸ hwide) (by
              rw [h3]
              intro j hj a ha
              have ha' : a ∈ A := by simpa [PosState.drop, hA] using ha
              exact Nat.lt_of_lt_of_le (hlow' j hj) (hge a ha'))
            (show _ ≤ f by rw [h4]; omega) (by simp [PosState.drop, hA])
          rw [calcLoop_of_some h1]
          refine ⟨hrec.1.trans ?_, hrec.2.trans ?_⟩
          · simp [hdirect]
          · simp [hdirect]
        · rw [hroot.mpr hdirect] at hr
          cases hr
        · rw [hroot.mpr hdirect] at hr
          cases hr
      · -- The chain of smaller positions starts here.
        have hlt := hd.resolve_right hdirect
        suffices hpanic : calcLoop next n 64 (f + 1) st = .error .panic by
          rw [hpanic]
          refine ⟨⟨fun _ => ⟨t, by simp, hlt, hdirect⟩, fun _ => rfl⟩,
            ⟨?_, fun h => absurd (h t (by simp)) hdirect⟩⟩
          rintro ⟨_, h⟩
          cases h
        have hsub := PosState.sub_after ps .slice1 (nextSibling t A [])
        have hhalf : parent t 64 < 2 ^ 63 := by
          rw [parent_wide]
          omega
        have hle' : ∀ a ∈ (ps.after .slice1 (nextSibling t A [])).targets, parent t 64 ≤ a := by
          intro a ha
          have hta : t ≤ a := by
            have := hsub.targets.subset ha
            rw [hA] at this
            rcases List.mem_cons.mp this with rfl | h
            · exact Nat.le_refl _
            · exact hge a h
          rw [parent_wide]
          omega
        have hqueue : (ps.after .slice1 (nextSibling t A [])).queue = [] := by
          cases hs : nextSibling t A [] with
          | none => simp [PosState.after, PosState.drop, hq]
          | some i => cases i <;> simp [PosState.after, PosState.drop, hq]
        rcases calcStep_round next hl hrow64 hnext hrl with
          ⟨hr, _⟩ | ⟨_, _, st', h1, h2, h3, h4, h5⟩ | ⟨_, _, ⟨_, h1⟩ | ⟨st', h1, h2, h3, h4, h5⟩⟩
        · exact absurd (hroot.mp hr) hdirect
        · rw [calcLoop_of_some h1]
          exact calcLoop_wide_chain hlo hhi next h2 (by simp [PosState.push, hqueue]) hhalf hle'
            (h3 ▸ hwide) (by rw [h4]; omega)
        · exact calcLoop_of_error h1
        · rw [calcLoop_of_some h1]
          exact calcLoop_wide_chain hlo hhi next h2 (by simp [PosState.push, hqueue]) hhalf hle'
            (h3 ▸ hwide) (by omega)
    · -- No row reaches the target.
      have hdiv := rowLoop_diverges (unreached_wide hlo hhi hd) f st.row
      obtain ⟨⟨rest, hs⟩, _, _, _⟩ := getNextPos_some hnext
      obtain ⟨h, st1, htake, _, hrow1, _⟩ := hl.take hs
      have hst : calcStep next n 64 f st = .error .diverge := by
        unfold calcStep
        rw [if_neg (by omega), hl.targets, hl.queue, hnext]
        simp only [htake, Exec.ok_bind, hrow1, hdiv, Exec.error_bind]
      rw [calcLoop_of_error hst]
      refine ⟨⟨fun h => (by cases h), ?_⟩, ⟨?_, ?_⟩⟩
      · rintro ⟨a, ha, hlt, _⟩
        rcases List.mem_cons.mp ha with rfl | ha
        · exact absurd (Or.inl hlt) hd
        · have := hge a ha
          exact absurd (Or.inl (show t < 2 ^ 64 - 2 by omega)) hd
      · rintro ⟨_, h⟩
        cases h
      · intro h
        exact absurd (Or.inr (h t (by simp))) hd

end Loop

end Wide

end Utreexo
