import Utreexo.Lockstep

/-! # How many hashes a check reads from the proof

For a forest of at most `2 ^ 63` leaves, `calculateHashes` reads one hash of the
proof for every position that `proofPositions` lists, as long as the position whose
sibling is listed is not past the greatest position of the forest.  A proof with
fewer hashes is read out of range.
-/
namespace Utreexo
open Merkle

/-! ### The order of the queues -/

theorem parent_eq {k p : Nat} (hk : k ≤ 63) (hp : p < 2 ^ (k + 1)) :
    parent p k = p / 2 + 2 ^ k := by
  have h0 : 2 ^ (k + 1) = 2 * 2 ^ k := by ring
  have hk' : (2 : Nat) ^ k < 2 ^ 64 := Nat.pow_lt_pow_right (by omega) (by omega)
  have hor := Nat.two_pow_add_eq_or_of_lt (show p / 2 < 2 ^ k by omega) 1
  rw [Nat.mul_one] at hor
  rw [parent, shl64_of_lt (by omega), Nat.one_mul, Nat.shiftRight_one, Nat.or_comm, ← hor,
    Nat.add_comm]

/-- Both queues ascend, and the parents still to be queued are not less than those
already queued. -/
structure Swept (k : Nat) (ps : PosState) : Prop where
  targets : ps.targets.Pairwise (· ≤ ·)
  queue : ps.queue.Pairwise (· ≤ ·)
  parents : ∀ q ∈ ps.queue, ∀ p ∈ ps.pending, p < 2 ^ (k + 1) - 1 → q ≤ p / 2 + 2 ^ k

namespace Swept
variable {k p : Nat} {ps ps' : PosState} {idx : Source} {sib : Option Source}

theorem of_sub (h : Swept k ps) (hs : ps'.Sub ps) : Swept k ps' :=
  ⟨h.targets.sublist hs.targets, h.queue.sublist hs.queue,
    fun q hq p hp => h.parents q (hs.queue.subset hq) p (hs.pending p hp)⟩

/-- The next position is the least. -/
theorem next_le (h : Swept k ps) (hnext : getNextPos ps.targets ps.queue = some (p, idx, sib)) :
    p ∈ ps.pending ∧ ∀ q ∈ ps.pending, p ≤ q := by
  obtain ⟨⟨rest, hs⟩, h1, h2, _⟩ := getNextPos_some hnext
  refine ⟨PosState.mem_slice (i := idx) (by rw [hs]; exact List.mem_cons_self), ?_⟩
  have key : ∀ {l : List Nat}, l.Pairwise (· ≤ ·) → (∀ q ∈ l.head?, p ≤ q) → ∀ q ∈ l, p ≤ q := by
    intro l hl hh q hq
    rcases l with _ | ⟨a, l⟩
    · cases hq
    · have ha : p ≤ a := hh a rfl
      rcases List.mem_cons.mp hq with rfl | hq
      · exact ha
      · exact Nat.le_trans ha ((List.pairwise_cons.mp hl).1 q hq)
  intro q hq
  rcases List.mem_append.mp hq with hq | hq
  · exact key h.targets h1 q hq
  · exact key h.queue h2 q hq

/-- Queueing the parent of a position that is not greater than any other. -/
theorem push (h : Swept k ps) (hp : p < 2 ^ (k + 1) - 1) (hmin : ∀ q ∈ ps.pending, p ≤ q)
    (hpar : ∀ q ∈ ps.queue, q ≤ p / 2 + 2 ^ k) : Swept k (ps.push (p / 2 + 2 ^ k)) := by
  refine ⟨h.targets, ?_, ?_⟩
  · rw [PosState.push, List.pairwise_append]
    refine ⟨h.queue, List.pairwise_singleton _ _, fun a ha b hb => ?_⟩
    rw [List.mem_singleton.mp hb]
    exact hpar a ha
  · intro q hq r hr hlt
    have hq' : q ≤ p / 2 + 2 ^ k := by
      rcases List.mem_append.mp hq with hq | hq
      · exact hpar q hq
      · exact Nat.le_of_eq (List.mem_singleton.mp hq)
    have hr' : p ≤ r := by
      rcases List.mem_append.mp hr with hr | hr
      · exact hmin r (List.mem_append_left _ hr)
      · rcases List.mem_append.mp hr with hr | hr
        · exact hmin r (List.mem_append_right _ hr)
        · rw [List.mem_singleton.mp hr]
          omega
    omega

end Swept

/-- The rows below `row` end before every position still to be visited. -/
def Passed (max : Nat → Nat) (row : Nat) (ps : PosState) : Prop :=
  ∀ j < row, ∀ p ∈ ps.pending, max j < p

theorem PosState.mem_pending_push {ps : PosState} {p q : Nat} (h : q ∈ (ps.push p).pending) :
    q ∈ ps.pending ∨ q = p := by
  rcases List.mem_append.mp h with h | h
  · exact Or.inl (List.mem_append_left _ h)
  · rcases List.mem_append.mp h with h | h
    · exact Or.inl (List.mem_append_right _ h)
    · exact Or.inr (List.mem_singleton.mp h)

/-! ### Both loops find the same roots -/

theorem possibleRowLoop_ok {p k fuel row row' : Nat} (hk : k ≤ 63) (hrow : row ≤ k + 1)
    (h : possibleRowLoop p k fuel row = .ok row') :
    row ≤ row' ∧ row' ≤ k + 1 ∧ (∀ j, row ≤ j → j < row' → maxPossiblePosAtRow j k < p) ∧
      (row' ≤ k → p ≤ maxPossiblePosAtRow row' k) := by
  induction fuel generalizing row with
  | zero => cases h
  | succ fuel ih =>
    rw [possibleRowLoop] at h
    split at h
    · rename_i hc
      rw [add8_one (by omega)] at h
      obtain ⟨h1, h2, h3, h4⟩ := ih (by omega) h
      refine ⟨by omega, h2, fun j hj hj' => ?_, h4⟩
      rcases Nat.lt_or_eq_of_le hj with hlt | rfl
      · exact h3 j hlt hj'
      · exact hc.1
    · rename_i hc
      cases h
      refine ⟨Nat.le_refl _, hrow, fun j h1 h2 => absurd h2 (by omega), fun hle => ?_⟩
      rw [not_and_or] at hc
      omega

/-- The positions of the roots. -/
def IsRootPos (n p : Nat) : Prop := ∃ x : Node, x.IsRoot n ∧ p = nodePos (treeRows n) x

/-- The positions of the nodes of the forest. -/
def InForestPos (n p : Nat) : Prop := ∃ x : Node, x.InForest n ∧ p = nodePos (treeRows n) x

/-- `inForest` tests what its name says. -/
theorem inForest_iff {n : Nat} (hn : n ≤ 2 ^ 63) (p : Nat) :
    inForest p n (treeRows n) = .ok true ↔ InForestPos n p := by
  have hk := treeRows_le hn
  have hn' := le_two_pow_treeRows n
  constructor
  · intro h
    by_cases hmax : p < 2 ^ (treeRows n + 1) - 1
    · obtain ⟨x, hfit, rfl⟩ := Fits.exists_of_lt hmax
      rw [inForest_nodePos hk hn' hfit, Except.ok.injEq, decide_eq_true_eq] at h
      exact ⟨x, h, rfl⟩
    · rw [inForest_of_max_le hk hn' (by omega)] at h
      cases h
  · rintro ⟨x, hx, rfl⟩
    rw [inForest_nodePos hk hn' (fits_of_inForest hn' hx), decide_eq_true hx]

theorem IsRootPos.inForestPos {n p : Nat} (h : IsRootPos n p) : InForestPos n p := by
  obtain ⟨x, hx, rfl⟩ := h
  exact ⟨x, hx.inForest, rfl⟩

section Forest
variable {n : Nat} (hn : n ≤ 2 ^ 63)
include hn

/-- A position that is not a root is in the forest exactly when its parent is. -/
theorem inForestPos_parent_iff {p : Nat} (hp : p < 2 ^ (treeRows n + 1) - 1)
    (hroot : ¬ IsRootPos n p) : InForestPos n (parent p (treeRows n)) ↔ InForestPos n p := by
  have hk := treeRows_le hn
  have hn' := le_two_pow_treeRows n
  constructor
  · rintro ⟨y, hy, he⟩
    obtain ⟨x, hfit, rfl⟩ := Fits.exists_of_lt hp
    have hyfit := fits_of_inForest hn' hy
    have hlt := hyfit.pos_lt_max
    -- The position at the top has its parent past the forest.
    have hrow : x.row < treeRows n := by
      by_contra hge
      have hx : x.row = treeRows n := by have := hfit.1; omega
      have hpar := parent_eq hk (show nodePos (treeRows n) x < 2 ^ (treeRows n + 1) by omega)
      have hoff := hfit.2
      have h0 : 2 ^ (treeRows n + 1) = 2 * 2 ^ treeRows n := by ring
      rw [← he, hpar, nodePos, hx, Nat.add_sub_cancel_left] at hlt
      omega
    rw [parent_nodePos hk hfit hrow] at he
    obtain rfl := (hfit.parent hrow).pos_inj hyfit he
    exact ⟨x, Node.inForest_of_parent hy, rfl⟩
  · rintro ⟨x, hx, rfl⟩
    have hnr : ¬ x.IsRoot n := fun h => hroot ⟨x, h, rfl⟩
    have hpar := hx.parent hnr
    have hfit := fits_of_inForest hn' hx
    have hrow : x.row < treeRows n := (fits_of_inForest hn' hpar).1
    exact ⟨x.parent, hpar, parent_nodePos hk hfit hrow⟩

omit hn in
theorem InForestPos.rightSib {p : Nat} (h : InForestPos n p) (hroot : ¬ IsRootPos n p) :
    InForestPos n (rightSib p) := by
  obtain ⟨x, hx, rfl⟩ := h
  have hnr : ¬ x.IsRoot n := fun h => hroot ⟨x, h, rfl⟩
  rw [rightSib_nodePos (fits_of_inForest (le_two_pow_treeRows n) hx)]
  split
  · exact ⟨x.sibling, hx.sibling hnr, rfl⟩
  · exact ⟨x, hx, rfl⟩

theorem InForestPos.le_maxPos {p : Nat} (h : InForestPos n p) :
    p ≤ maxPos (treeRows n) (treeRows n) n := by
  obtain ⟨x, hx, rfl⟩ := h
  have hk := treeRows_le hn
  have hn' := le_two_pow_treeRows n
  exact Nat.le_trans (le_maxPos_of_inForest hk hn' hx)
    (maxPos_mono hk hn' (fits_of_inForest hn' hx).1 (Nat.le_refl _))

/-- A position is a root on the row that `calculateHashes` finds for it exactly when
it is the position of a root. -/
theorem isRootPositionOnRow_of_maxPos {p r : Nat}
    (hlow : ∀ j < r, maxPos j (treeRows n) n < p) (hp : p ≤ maxPos r (treeRows n) n) :
    isRootPositionOnRow p n r = true ↔ IsRootPos n p := by
  have hk := treeRows_le hn
  have hn' := le_two_pow_treeRows n
  constructor
  · intro h
    obtain ⟨x, h1, _, h3⟩ := isRoot_of_isRootPositionOnRow hn h
    exact ⟨x, h1, h3⟩
  · rintro ⟨x, hx, rfl⟩
    have hfit := fits_of_inForest hn' hx.inForest
    refine (isRootPositionOnRow_nodePos hn hfit).mpr ⟨hx, ?_⟩
    rcases Nat.lt_trichotomy r x.row with hlt | heq | hgt
    · have := maxPos_lt_of_row_lt hk hn' hfit hlt
      omega
    · exact heq
    · have := hlow x.row hgt
      have := le_maxPos_of_inForest hk hn' hx.inForest
      omega

/-- The same for the row that `proofPositions` finds. -/
theorem isRootPositionOnRow_of_maxPossible {p r : Nat} (hr : r ≤ treeRows n)
    (hlow : ∀ j < r, maxPossiblePosAtRow j (treeRows n) < p)
    (hp : p ≤ maxPossiblePosAtRow r (treeRows n)) :
    isRootPositionOnRowTotalRows p n r (treeRows n) = true ↔ IsRootPos n p := by
  have hk := treeRows_le hn
  have hn' := le_two_pow_treeRows n
  rw [isRootPositionOnRowTotalRows, if_neg (by simp)]
  constructor
  · intro h
    obtain ⟨x, h1, _, h3⟩ := isRoot_of_isRootPositionOnRow hn h
    exact ⟨x, h1, h3⟩
  · rintro ⟨x, hx, rfl⟩
    have hfit := fits_of_inForest hn' hx.inForest
    have hxk := hfit.1
    refine (isRootPositionOnRow_nodePos hn hfit).mpr ⟨hx, ?_⟩
    rcases Nat.lt_trichotomy r x.row with hlt | heq | hgt
    · have h1 : 2 ^ (treeRows n + 1 - x.row) ≤ 2 ^ (treeRows n - r) :=
        Nat.pow_le_pow_right (by omega) (by omega)
      have h2 : 2 ^ (treeRows n + 1 - x.row) < 2 ^ (treeRows n + 1) :=
        Nat.pow_lt_pow_right (by omega) (by omega)
      rw [maxPossiblePosAtRow_eq hk hr, nodePos] at hp
      omega
    · exact heq
    · have h1 := hlow x.row hgt
      have h2 := hfit.pos_lt
      rw [maxPossiblePosAtRow_eq hk hxk] at h1
      omega

end Forest

/-! ### Rounds of `proofPositions` -/

/-- Rows passed before and in a round. -/
theorem Passed.extend {max : Nat → Nat} {row row' p : Nat} {ps : PosState} (h : Passed max row ps)
    (hp : p ∈ ps.pending) (hnew : ∀ j, row ≤ j → j < row' → max j < p) :
    ∀ j < row', max j < p := by
  intro j hj
  rcases Nat.lt_or_ge j row with hlt | hge
  · exact h j hlt p hp
  · exact hnew j hge hj

theorem Passed.of_le {max : Nat → Nat} {row p : Nat} {ps : PosState}
    (hlow : ∀ j < row, max j < p) (hmin : ∀ q ∈ ps.pending, p ≤ q) : Passed max row ps :=
  fun j hj q hq => Nat.lt_of_lt_of_le (hlow j hj) (hmin q hq)

/-- The queues after a round that has queued the parent of the least position. -/
theorem Swept.after_push {k p : Nat} {ps : PosState} {idx : Source} {sib : Option Source}
    (hk : k ≤ 63) (h : Swept k ps) (hnext : getNextPos ps.targets ps.queue = some (p, idx, sib))
    (hp : p < 2 ^ (k + 1) - 1) :
    Swept k ((ps.after idx sib).push (parent p k)) ∧
      ∀ q ∈ ((ps.after idx sib).push (parent p k)).pending, p ≤ q := by
  obtain ⟨hmem, hmin⟩ := h.next_le hnext
  have hsub := PosState.sub_after ps idx sib
  have hmin' : ∀ q ∈ (ps.after idx sib).pending, p ≤ q := fun q hq => hmin q (hsub.pending q hq)
  rw [parent_eq hk (by omega)]
  refine ⟨(h.of_sub hsub).push hp hmin' fun q hq => h.parents q (hsub.queue.subset hq) p hmem hp,
    fun q hq => ?_⟩
  rcases PosState.mem_pending_push hq with hq | rfl
  · exact hmin' q hq
  · omega

/-- What holds between rounds of `proofPositions`. -/
structure PosInv (n : Nat) (ps : PosState) : Prop where
  swept : Swept (treeRows n) ps
  row_le : ps.row ≤ treeRows n
  passed : Passed (maxPossiblePosAtRow · (treeRows n)) ps.row ps

section PosRounds
variable {n : Nat} (hn : n ≤ 2 ^ 63)
include hn

theorem maxPossible_top : maxPossiblePosAtRow (treeRows n) (treeRows n) =
    2 ^ (treeRows n + 1) - 2 := by
  rw [maxPossiblePosAtRow_eq (treeRows_le hn) (Nat.le_refl _), Nat.sub_self, Nat.pow_zero]
  omega

/-- What a round of `proofPositions` does.  It ends the loop when the queues are empty
or when the least position is past all rows; otherwise the positions left are not
less than the one it has taken. -/
theorem posStep_cases {fuel : Nat} {ps : PosState} {r : Option PosState} (hinv : PosInv n ps)
    (h : posStep n (treeRows n) fuel ps = .ok r) :
    (r = none ∧ getNextPos ps.targets ps.queue = none) ∨
    ∃ p idx sib, getNextPos ps.targets ps.queue = some (p, idx, sib) ∧
      ((r = none ∧ 2 ^ (treeRows n + 1) - 2 < p) ∨
        ∃ ps', r = some ps' ∧ p < 2 ^ (treeRows n + 1) - 1 ∧ PosInv n ps' ∧
          (∀ q ∈ ps'.pending, p ≤ q) ∧
          ((IsRootPos n p ∧ ps'.targets = (ps.drop idx).targets ∧
              ps'.queue = (ps.drop idx).queue ∧ ps'.proofPositions = ps.proofPositions) ∨
            (¬ IsRootPos n p ∧ ps'.targets = (ps.after idx sib).targets ∧
              ps'.queue = (ps.after idx sib).queue ++ [parent p (treeRows n)] ∧
              ps'.proofPositions =
                ps.proofPositions ++ if sib.isNone then [sibling p] else []))) := by
  have hk := treeRows_le hn
  cases hnext : getNextPos ps.targets ps.queue with
  | none =>
    rw [posStep_none hinv.row_le hnext] at h
    cases h
    exact Or.inl ⟨rfl, rfl⟩
  | some t =>
    obtain ⟨p, idx, sib⟩ := t
    refine Or.inr ⟨p, idx, sib, rfl, ?_⟩
    obtain ⟨hmem, hmin⟩ := hinv.swept.next_le hnext
    cases hrl : possibleRowLoop p (treeRows n) fuel ps.row with
    | error e =>
      exfalso
      have hrl' : possibleRowLoop p (treeRows n) fuel (ps.drop idx).row = .error e := by
        cases idx <;> exact hrl
      unfold posStep at h
      rw [if_neg (by have := hinv.row_le; omega), hnext] at h
      simp only [hrl', Exec.error_bind] at h
      cases h
    | ok row =>
      obtain ⟨_, _, h3, h4⟩ := possibleRowLoop_ok hk (by have := hinv.row_le; omega) hrl
      have hlow := hinv.passed.extend hmem h3
      rcases posStep_round (n := n) hinv.row_le hnext hrl with
        ⟨hgt, hs⟩ | ⟨hle, hroot, hs⟩ | ⟨hle, hroot, hs⟩
      · rw [hs] at h
        cases h
        refine Or.inl ⟨rfl, ?_⟩
        rw [← maxPossible_top hn]
        exact hlow _ hgt
      all_goals
        rw [hs] at h
        cases h
        refine Or.inr ⟨_, rfl, ?_⟩
        have hp : p < 2 ^ (treeRows n + 1) - 1 := by
          have hmax := h4 hle
          have h5 : 2 ^ (treeRows n - row) < 2 ^ (treeRows n + 1) :=
            Nat.pow_lt_pow_right (by omega) (by omega)
          have h6 := Nat.two_pow_pos (treeRows n - row)
          rw [maxPossiblePosAtRow_eq hk hle] at hmax
          omega
      · have hsub := PosState.sub_drop ps idx
        have hsub' : PosState.Sub { ps.drop idx with row := row } ps := ⟨hsub.targets, hsub.queue⟩
        have hge : ∀ q ∈ PosState.pending { ps.drop idx with row := row }, p ≤ q :=
          fun q hq => hmin q (hsub'.pending q hq)
        refine ⟨hp, ⟨hinv.swept.of_sub hsub', hle, Passed.of_le hlow hge⟩, hge, Or.inl ⟨?_, rfl,
          rfl, by cases idx <;> rfl⟩⟩
        exact (isRootPositionOnRow_of_maxPossible hn hle hlow (h4 hle)).mp hroot
      · obtain ⟨hsw, hge⟩ := hinv.swept.after_push hk hnext hp
        refine ⟨hp, ⟨⟨hsw.targets, hsw.queue, hsw.parents⟩, hle, Passed.of_le hlow hge⟩, hge,
          Or.inr ⟨?_, rfl, rfl, rfl⟩⟩
        rw [← isRootPositionOnRow_of_maxPossible hn hle hlow (h4 hle), hroot]
        simp

/-- The listed positions are siblings of positions that were still to be visited. -/
theorem posLoop_lists {fuel : Nat} {ps fin : PosState} (hinv : PosInv n ps)
    (h : posLoop n (treeRows n) fuel ps = .ok fin) {m : Nat} (hm : ∀ p ∈ ps.pending, m ≤ p) :
    ∃ L, fin.proofPositions = ps.proofPositions ++ L ∧ ∀ q ∈ L, m ≤ sibling q := by
  induction fuel generalizing ps with
  | zero => cases h
  | succ fuel ih =>
    rw [posLoop] at h
    obtain ⟨r, hr, h⟩ := Exec.bind_eq_ok.mp h
    cases r with
    | none =>
      cases h
      exact ⟨[], by simp, by simp⟩
    | some ps' =>
      rcases posStep_cases hn hinv hr with ⟨hr', _⟩ | ⟨p, idx, sib, hnext, hcase⟩
      · cases hr'
      rcases hcase with ⟨hr', _⟩ | ⟨ps'', hr', _, hinv', hge, hcase⟩
      · cases hr'
      cases hr'
      have hmp : m ≤ p := hm p (hinv.swept.next_le hnext).1
      obtain ⟨L, hL, hL'⟩ := ih hinv' h fun q hq => Nat.le_trans hmp (hge q hq)
      rcases hcase with ⟨_, _, _, hpp⟩ | ⟨_, _, _, hpp⟩
      · exact ⟨L, by rw [hL, hpp], hL'⟩
      · refine ⟨(if sib.isNone then [sibling p] else []) ++ L, by rw [hL, hpp, List.append_assoc],
          ?_⟩
        intro q hq
        rcases List.mem_append.mp hq with hq | hq
        · have : q = sibling p := by cases sib <;> simp_all
          rw [this, sibling, sibling, Nat.xor_assoc, Nat.xor_self, Nat.xor_zero]
          exact hmp
        · exact hL' q hq

end PosRounds

/-! ### `proofPositions` returns -/

/-- How many rounds a position can still cause: one for every row from its own on. -/
def rank (k p : Nat) : Nat := if p < 2 ^ (k + 1) - 1 then k + 2 - detectRow p k else 1

/-- The rounds that the queues can still cause. -/
def PosState.weight (k : Nat) (ps : PosState) : Nat :=
  (ps.targets.map (rank k)).sum + (ps.queue.map (rank k)).sum

theorem rank_parent {k p : Nat} (hk : k ≤ 63) (hp : p < 2 ^ (k + 1) - 1) :
    rank k (parent p k) + 1 = rank k p := by
  obtain ⟨x, hfit, rfl⟩ := Fits.exists_of_lt hp
  have hrow := hfit.1
  rw [rank, rank, if_pos hp, detectRow_nodePos hk hfit]
  rcases Nat.lt_or_ge x.row k with hlt | hge
  · have hpar := hfit.parent hlt
    rw [parent_nodePos hk hfit hlt, if_pos hpar.pos_lt_max, detectRow_nodePos hk hpar]
    simp only [Node.parent_row]
    omega
  · obtain hx : x.row = k := by omega
    have h0 : 2 ^ (k + 1) = 2 * 2 ^ k := by ring
    have hoff := hfit.2
    rw [parent_eq hk (by omega), if_neg]
    · omega
    · rw [nodePos, hx, Nat.add_sub_cancel_left]
      omega

theorem PosState.weight_drop {k : Nat} {ps : PosState} {i : Source} {p : Nat} {rest : List Nat}
    (hs : ps.slice i = p :: rest) : (ps.drop i).weight k + rank k p = ps.weight k := by
  cases i with
  | slice1 =>
    simp only [PosState.slice] at hs
    simp only [PosState.weight, PosState.drop, hs, List.tail_cons, List.map_cons, List.sum_cons]
    omega
  | slice2 =>
    simp only [PosState.slice] at hs
    simp only [PosState.weight, PosState.drop, hs, List.tail_cons, List.map_cons, List.sum_cons]
    omega

theorem PosState.weight_after {k : Nat} {ps : PosState} {idx : Source} {sib : Option Source}
    {p : Nat} (h : getNextPos ps.targets ps.queue = some (p, idx, sib)) :
    (ps.after idx sib).weight k + rank k p ≤ ps.weight k := by
  obtain ⟨⟨rest, hs⟩, _, _, hsib⟩ := getNextPos_some h
  have h1 := PosState.weight_drop (k := k) hs
  cases sib with
  | none => exact Nat.le_of_eq h1
  | some i =>
    obtain ⟨rest2, hs2⟩ := nextSibling_some hsib.symm
    have h2 := PosState.weight_drop (k := k) hs2
    simp only [PosState.after]
    omega

/-- The state before the first round. -/
def PosState.start (targets : List Nat) : PosState := ⟨0, targets, [], [], []⟩

theorem PosState.weight_start_le (targets : List Nat) (k : Nat) :
    (PosState.start targets).weight k ≤ targets.length * (k + 2) := by
  have hrank : ∀ p, rank k p ≤ k + 2 := by
    intro p
    unfold rank
    split <;> omega
  simp only [PosState.weight, PosState.start, List.map_nil, List.sum_nil, Nat.add_zero]
  induction targets with
  | nil => simp
  | cons p targets ih =>
    have h := hrank p
    rw [List.map_cons, List.sum_cons, List.length_cons, Nat.add_mul]
    omega

theorem possibleRowLoop_returns {p k fuel row : Nat} (hk : k ≤ 63) (hrow : row ≤ k + 1)
    (hf : k + 1 < row + fuel) : ∃ row', possibleRowLoop p k fuel row = .ok row' := by
  induction fuel generalizing row with
  | zero => omega
  | succ fuel ih =>
    rw [possibleRowLoop]
    split
    · rw [add8_one (by omega)]
      exact ih (by omega) (by omega)
    · exact ⟨row, rfl⟩

section Returns
variable {n : Nat} (hn : n ≤ 2 ^ 63)
include hn

/-- A round replaces the weight of the least position by the smaller one of its parent. -/
theorem weight_posStep {fuel : Nat} {ps ps' : PosState} (hinv : PosInv n ps)
    (h : posStep n (treeRows n) fuel ps = .ok (some ps')) :
    ps'.weight (treeRows n) < ps.weight (treeRows n) := by
  have hk := treeRows_le hn
  rcases posStep_cases hn hinv h with ⟨h', -⟩ | ⟨p, idx, sib, hnext, hcase⟩
  · cases h'
  rcases hcase with ⟨h', -⟩ | ⟨ps'', h', hp, -, -, hcase⟩
  · cases h'
  cases h'
  have hrank := rank_parent hk hp
  rcases hcase with ⟨-, ht, hq, -⟩ | ⟨-, ht, hq, -⟩
  · obtain ⟨⟨rest, hs⟩, -, -, -⟩ := getNextPos_some hnext
    have hw := PosState.weight_drop (k := treeRows n) hs
    rw [PosState.weight, ht, hq]
    rw [PosState.weight] at hw
    omega
  · have hw := PosState.weight_after (k := treeRows n) hnext
    rw [PosState.weight, ht, hq, List.map_append, List.sum_append, List.map_singleton,
      List.sum_singleton]
    rw [PosState.weight] at hw
    omega

/-- **`proofPositions` returns** on any sorted targets. -/
theorem posLoop_returns {fuel : Nat} {ps : PosState} (hinv : PosInv n ps)
    (hf : ps.weight (treeRows n) + 66 ≤ fuel) :
    ∃ fin, posLoop n (treeRows n) fuel ps = .ok fin := by
  have hk := treeRows_le hn
  induction fuel generalizing ps with
  | zero => omega
  | succ fuel ih =>
    have hrow := hinv.row_le
    have hstep : ∃ r, posStep n (treeRows n) fuel ps = .ok r := by
      cases hnext : getNextPos ps.targets ps.queue with
      | none => exact ⟨none, posStep_none hrow hnext⟩
      | some t =>
        obtain ⟨p, idx, sib⟩ := t
        obtain ⟨row, hrl⟩ := possibleRowLoop_returns (p := p) hk (show ps.row ≤ _ by omega)
          (show treeRows n + 1 < ps.row + fuel by omega)
        rcases posStep_round (n := n) hrow hnext hrl with ⟨_, hs⟩ | ⟨_, _, hs⟩ | ⟨_, _, hs⟩ <;>
          exact ⟨_, hs⟩
    obtain ⟨r, hr⟩ := hstep
    rw [posLoop, hr, Exec.ok_bind]
    rcases posStep_cases hn hinv hr with ⟨rfl, _⟩ | ⟨p, idx, sib, hnext, hcase⟩
    · exact ⟨ps, rfl⟩
    rcases hcase with ⟨rfl, _⟩ | ⟨ps', rfl, -, hinv', -, -⟩
    · exact ⟨ps, rfl⟩
    have hw := weight_posStep hn hinv hr
    exact ih hinv' (by omega)

omit hn in
theorem posInv_start {targets : List Nat} (hs : targets.Pairwise (· ≤ ·)) :
    PosInv n (PosState.start targets) :=
  ⟨⟨hs, List.Pairwise.nil, fun q hq => by cases hq⟩, Nat.zero_le _, fun j hj => by cases hj⟩

theorem proofPositions_returns {targets : List Nat} (hs : targets.Pairwise (· ≤ ·)) :
    ∃ fin, posLoop n (treeRows n) ((targets.length + 1) * (treeRows n + 2) + 257)
        (PosState.start targets) = .ok fin ∧
      proofPositions targets n (treeRows n) = .ok (fin.proofPositions, fin.nextTargets) := by
  have hw := PosState.weight_start_le targets (treeRows n)
  obtain ⟨fin, hfin⟩ := posLoop_returns hn (posInv_start hs)
    (show _ ≤ (targets.length + 1) * (treeRows n + 2) + 257 by rw [Nat.add_mul]; omega)
  refine ⟨fin, hfin, ?_⟩
  rw [proofPositions, show (⟨0, targets, [], [], []⟩ : PosState) = PosState.start targets from rfl,
    hfin, Exec.ok_bind]

end Returns

/-! ### Both loops in step -/

section InStep
variable {H : Type} {n : Nat}

/-- What holds between rounds of `calculateHashes`, with the state of
`proofPositions` next to it. -/
structure InStep (n : Nat) (st : CalcState H) (ps : PosState) : Prop where
  lock : Lock st ps
  posInv : PosInv n ps
  row_le : st.row ≤ treeRows n
  passed : Passed (maxPos · (treeRows n) n) st.row ps

variable {p : Nat} {st : CalcState H} {ps : PosState} {idx : Source} {sib : Option Source}

variable (hn : n ≤ 2 ^ 63) (next : Nat → H → H → H)
include hn

/-- A position past the greatest one is looked for forever. -/
theorem InStep.stuck (fuel : Nat) (hin : InStep n st ps)
    (hnext : getNextPos ps.targets ps.queue = some (p, idx, sib))
    (hp : maxPos (treeRows n) (treeRows n) n < p) :
    calcStep next n (treeRows n) fuel st = .error .diverge := by
  have hrows := rowLoop_diverges fun j hj => Nat.lt_of_le_of_lt
    (maxPos_mono (treeRows_le hn) (le_two_pow_treeRows n) hj (Nat.le_refl _)) hp
  obtain ⟨⟨rest, hs⟩, _, _, _⟩ := getNextPos_some hnext
  obtain ⟨h, st1, htake, _⟩ := hin.lock.take hs
  unfold calcStep
  rw [if_neg (by have := hin.row_le; omega), hin.lock.targets, hin.lock.queue, hnext]
  simp only [htake, Exec.ok_bind, hrows, Exec.error_bind]

/-- A round of `calculateHashes` on any other position. -/
theorem InStep.round (fuel : Nat) (hin : InStep n st ps)
    (hnext : getNextPos ps.targets ps.queue = some (p, idx, sib))
    (hp : p ≤ maxPos (treeRows n) (treeRows n) n) (hf : 64 < fuel) :
    (IsRootPos n p ∧ ∃ st', calcStep next n (treeRows n) fuel st = .ok (some st') ∧
      Lock st' (ps.drop idx) ∧ st'.row ≤ treeRows n ∧
      (∀ j < st'.row, maxPos j (treeRows n) n < p) ∧
      st'.proof.length = st.proof.length ∧ st'.load + 1 = st.load) ∨
    (¬ IsRootPos n p ∧ sib = none ∧ st.proof = [] ∧
      calcStep next n (treeRows n) fuel st = .error .panic) ∨
    (¬ IsRootPos n p ∧ ∃ st', calcStep next n (treeRows n) fuel st = .ok (some st') ∧
      Lock st' ((ps.after idx sib).push (parent p (treeRows n))) ∧ st'.row ≤ treeRows n ∧
      (∀ j < st'.row, maxPos j (treeRows n) n < p) ∧
      st'.proof.length + (if sib.isNone then 1 else 0) = st.proof.length ∧
      st'.load + st'.proof.length + 1 = st.load + st.proof.length) := by
  have hk := treeRows_le hn
  obtain ⟨row, hrl, _, hle, hmax, hnew⟩ :=
    rowLoop_spec (show treeRows n ≤ 64 by omega) hin.row_le hp
    (show treeRows n < st.row + fuel by omega)
  have hlow := hin.passed.extend (hin.posInv.swept.next_le hnext).1 hnew
  have hroot := isRootPositionOnRow_of_maxPos hn hlow hmax
  rcases calcStep_round next hin.lock hin.row_le hnext hrl with
    ⟨hr, st', h1, h2, rfl, h4, h5⟩ | ⟨hr, hsib, st', h1, h2, rfl, h4, h5⟩ |
      ⟨hr, hsib, ⟨h1, h2⟩ | ⟨st', h1, h2, rfl, h4, h5⟩⟩
  · exact Or.inl ⟨hroot.mp hr, st', h1, h2, hle, hlow, by rw [h4], h5⟩
  · have hnone : sib.isNone = false := by cases sib <;> simp_all
    refine Or.inr (Or.inr ⟨by rw [← hroot, hr]; simp, st', h1, h2, hle, hlow, ?_, ?_⟩)
    · simp [hnone, h4]
    · rw [h4]
      omega
  · exact Or.inr (Or.inl ⟨by rw [← hroot, hr]; simp, hsib, h1, h2⟩)
  · refine Or.inr (Or.inr ⟨by rw [← hroot, hr]; simp, st', h1, h2, hle, hlow, ?_, ?_⟩)
    · simp [hsib, h4]
    · omega

/-- **The outcome of `calculateHashes`.**  Let `L` be the positions that
`proofPositions` lists from here on, and let `reads` count those whose sibling is not
past the greatest position.  With enough fuel, `calculateHashes` reads past the end of
the proof exactly when the proof has fewer than `reads` hashes, and it returns exactly
when it has as many and every position still to be visited is in the forest. -/
theorem calcLoop_outcome {posFuel fuel : Nat} {fin : PosState} (hin : InStep n st ps)
    (hpos : posLoop n (treeRows n) posFuel ps = .ok fin)
    (hfuel : st.load + st.proof.length + 66 ≤ fuel) :
    ∃ L reads, fin.proofPositions = ps.proofPositions ++ L ∧
      reads = (L.filter fun q => sibling q ≤ maxPos (treeRows n) (treeRows n) n).length ∧
      (calcLoop next n (treeRows n) fuel st = .error .panic ↔ st.proof.length < reads) ∧
      ((∃ st', calcLoop next n (treeRows n) fuel st = .ok st') ↔
        reads ≤ st.proof.length ∧ ∀ p ∈ ps.pending, InForestPos n p) := by
  induction posFuel generalizing st ps fuel with
  | zero => cases hpos
  | succ posFuel ih =>
    obtain ⟨fuel, rfl⟩ : ∃ f, fuel = f + 1 := ⟨fuel - 1, by omega⟩
    have hpos' := hpos
    rw [posLoop] at hpos
    obtain ⟨r, hr, hpos⟩ := Exec.bind_eq_ok.mp hpos
    rw [calcLoop]
    rcases posStep_cases hn hin.posInv hr with ⟨rfl, hnext⟩ | ⟨p, idx, sib, hnext, hcase⟩
    · -- Both queues are empty, and both loops end.
      have hst : calcStep next n (treeRows n) fuel st = .ok none := by
        unfold calcStep
        rw [if_neg (by have := hin.row_le; omega), hin.lock.targets, hin.lock.queue, hnext]
      obtain ⟨h1, h2⟩ := getNextPos_none hnext
      rw [hst]
      cases hpos
      exact ⟨[], 0, by simp, by simp, by simp, by simp [PosState.pending, h1, h2]⟩
    have hall := forall_pending_iff hnext (InForestPos n)
    have hmin := (hin.posInv.swept.next_le hnext).2
    rcases Nat.lt_or_ge (maxPos (treeRows n) (treeRows n) n) p with hgt | hle
    · -- From here on `calculateHashes` is stuck; what is still listed is not counted.
      rw [hin.stuck hn next fuel hnext hgt]
      obtain ⟨L, hL, hL'⟩ := posLoop_lists hn hin.posInv hpos' hmin
      have hnil : (L.filter fun q => sibling q ≤ maxPos (treeRows n) (treeRows n) n) = [] := by
        refine List.filter_eq_nil_iff.mpr fun q hq => ?_
        have := hL' q hq
        simp only [decide_eq_true_eq]
        omega
      refine ⟨L, 0, hL, by simp [hnil], by simp, ?_⟩
      constructor
      · rintro ⟨st', h⟩
        cases h
      · rintro ⟨_, h⟩
        have := (hall.mp h).1.le_maxPos hn
        omega
    have htop : maxPos (treeRows n) (treeRows n) n ≤ 2 ^ (treeRows n + 1) - 2 := by
      have hn' := le_two_pow_treeRows n
      have h1 := div_pow_le hn' (Nat.le_refl (treeRows n))
      rw [maxPos_eq (treeRows_le hn) hn' (Nat.le_refl _)]
      simp only [nodePos, Nat.sub_self, Nat.add_sub_cancel_left, Nat.pow_zero, Nat.pow_one] at *
      omega
    have hsibsib : sibling (sibling p) = p := by
      rw [sibling, sibling, Nat.xor_assoc, Nat.xor_self, Nat.xor_zero]
    rcases hcase with ⟨_, hgt⟩ | ⟨ps', rfl, hlt, hinv', hge, hcase⟩
    · omega
    rcases hin.round hn next fuel hnext hle (by omega) with
      ⟨hroot, st', hs, hl, hrow, hlow, hpr, hload⟩ | ⟨hroot, hsib, hpr, hs⟩ |
        ⟨hroot, st', hs, hl, hrow, hlow, hpr, hload⟩
    · -- A root: both loops drop it.
      rcases hcase with ⟨_, ht, hq, hpp⟩ | ⟨hno, _⟩
      · obtain ⟨L, reads, hL, hreads, hpanic, hok⟩ := ih
          ⟨⟨hl.targets.trans ht.symm, hl.queue.trans hq.symm⟩, hinv', hrow,
            Passed.of_le hlow hge⟩ hpos (show _ ≤ fuel by omega)
        obtain ⟨⟨rest, hslice⟩, _, _, _⟩ := getNextPos_some hnext
        rw [hs]
        refine ⟨L, reads, by rw [hL, hpp], hreads, by rw [← hpr]; exact hpanic, ?_⟩
        rw [← hpr]
        refine hok.trans (and_congr_right fun _ => ?_)
        have hpend : ps'.pending = (ps.drop idx).pending := by
          rw [PosState.pending, PosState.pending, ht, hq]
        simp only [PosState.mem_pending_of_slice hslice, forall_eq_or_imp, hpend]
        exact ⟨fun h => ⟨hroot.inForestPos, h⟩, fun h => h.2⟩
      · exact absurd hroot hno
    · -- The sibling is neither queued nor in the proof.
      rcases hcase with ⟨hyes, _⟩ | ⟨_, ht, hq, hpp⟩
      · exact absurd hyes hroot
      obtain ⟨L, hL, _⟩ := posLoop_lists hn hinv' hpos hge
      refine ⟨sibling p :: L, _, by rw [hL, hpp, hsib]; simp, rfl, ?_, ?_⟩
      · rw [hs, hpr, List.filter_cons, if_pos (by rw [hsibsib]; simpa using hle)]
        simp
      · rw [hs, hpr, List.filter_cons, if_pos (by rw [hsibsib]; simpa using hle)]
        constructor
        · rintro ⟨st', h⟩
          cases h
        · rintro ⟨h, _⟩
          simp at h
    · -- The parent is queued.
      rcases hcase with ⟨hyes, _⟩ | ⟨_, ht, hq, hpp⟩
      · exact absurd hyes hroot
      obtain ⟨L, reads, hL, hreads, hpanic, hok⟩ := ih
        ⟨⟨hl.targets.trans ht.symm, hl.queue.trans hq.symm⟩, hinv', hrow,
          Passed.of_le hlow hge⟩ hpos (show _ ≤ fuel by omega)
      rw [hs]
      refine ⟨(if sib.isNone then [sibling p] else []) ++ L,
        (if sib.isNone then 1 else 0) + reads, by rw [hL, hpp, List.append_assoc], ?_, ?_, ?_⟩
      · cases hnone : sib.isNone with
        | true => simp [hsibsib, hle, hreads, Nat.add_comm]
        | false => simp [hreads]
      · exact hpanic.trans (by omega)
      · refine hok.trans (and_congr (by omega) ?_)
        have hpend : ∀ q, q ∈ ps'.pending ↔
            q ∈ (ps.after idx sib).pending ∨ q = parent p (treeRows n) := by
          intro q
          rw [PosState.pending, PosState.pending, ht, hq]
          simp [or_assoc]
        rw [hall]
        simp only [hpend, or_imp, forall_and, forall_eq]
        rw [inForestPos_parent_iff hn hlt hroot]
        constructor
        · rintro ⟨h1, h2⟩
          exact ⟨h2, fun _ => h2.rightSib hroot, h1⟩
        · rintro ⟨h1, _, h3⟩
          exact ⟨h3, h1⟩

end InStep

end Utreexo
