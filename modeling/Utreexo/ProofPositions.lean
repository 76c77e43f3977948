import Utreexo.Listing
import Utreexo.NodeSweep
import Utreexo.ProofReads

/-! # The positions that a proof needs

`proofPositions` sweeps the forest from the targets to the roots.  If the targets are
distinct nodes of the forest and none is above another, the positions that it computes
and those that it lists are those of the nodes that are computed and needed
(`proofPositions_sweep`), in a forest numbered with any number of rows that has room for
the leaves.
-/
namespace Utreexo
open Merkle

/-! ### Positions in order -/

section
variable {n k : Nat} (hn : n ≤ 2 ^ k) {S : Set Node} {l : List Nat} {x y : Node}
include hn

theorem nodePos_inj (hx : x.InForest n) (hy : y.InForest n) (h : nodePos k x = nodePos k y) :
    x = y :=
  (fits_of_inForest hn hx).pos_inj (fits_of_inForest hn hy) h

theorem nodePos_lt_iff (hx : x.InForest n) (hy : y.InForest n) :
    nodePos k x < nodePos k y ↔ x.Before y :=
  (fits_of_inForest hn hx).pos_lt_iff (fits_of_inForest hn hy)

theorem mem_nodePos_image (hS : ∀ y ∈ S, y.InForest n) (hx : x.InForest n) :
    nodePos k x ∈ nodePos k '' S ↔ x ∈ S := by
  constructor
  · rintro ⟨y, hy, he⟩
    rwa [← nodePos_inj hn (hS y hy) hx he]
  · exact Set.mem_image_of_mem _

theorem nodePos_image_sdiff {S' : Set Node} (hS : ∀ y ∈ S, y.InForest n)
    (hS' : ∀ y ∈ S', y.InForest n) :
    nodePos k '' (S \ S') = nodePos k '' S \ nodePos k '' S' := by
  ext p
  constructor
  · rintro ⟨x, ⟨hx, hno⟩, rfl⟩
    exact ⟨⟨x, hx, rfl⟩, fun h => hno ((mem_nodePos_image hn hS' (hS x hx)).mp h)⟩
  · rintro ⟨⟨x, hx, rfl⟩, hno⟩
    exact ⟨x, ⟨hx, fun h => hno ⟨x, h, rfl⟩⟩, rfl⟩

theorem listing_tail (hS : ∀ y ∈ S, y.InForest n) (hx : x.InForest n)
    (h : Listing (nodePos k x :: l) (nodePos k '' S)) : Listing l (nodePos k '' (S \ {x})) := by
  refine h.tail.congr fun p => ?_
  constructor
  · rintro ⟨⟨y, hy, rfl⟩, hne⟩
    exact ⟨y, ⟨hy, fun he => hne (congrArg _ he)⟩, rfl⟩
  · rintro ⟨y, ⟨hy, hne⟩, rfl⟩
    exact ⟨⟨y, hy, rfl⟩, fun he => hne (nodePos_inj hn (hS y hy) hx he)⟩

theorem listing_concat (hS : ∀ y ∈ S, y.InForest n) (hx : x.InForest n)
    (h : Listing l (nodePos k '' S)) (hlast : ∀ y ∈ S, y.Before x) :
    Listing (l ++ [nodePos k x]) (nodePos k '' insert x S) := by
  rw [Set.image_insert_eq]
  refine h.concat ?_
  rintro p ⟨y, hy, rfl⟩
  exact (nodePos_lt_iff hn (hS y hy) hx).mpr (hlast y hy)

end

/-! ### Roots and rows in any number of rows -/

section
variable {n k : Nat} (hk : k ≤ 63) {x : Node}
include hk

/-- The first row that reaches a position is its own row. -/
theorem possibleRowLoop_nodePos (hx : Fits k x) {fuel row : Nat} (hrow : row ≤ x.row)
    (hf : k + 1 < row + fuel) : possibleRowLoop (nodePos k x) k fuel row = .ok x.row := by
  have hxk := hx.1
  obtain ⟨r, hr⟩ := possibleRowLoop_returns (p := nodePos k x) hk (show row ≤ k + 1 by omega) hf
  obtain ⟨h1, h2, h3, h4⟩ := possibleRowLoop_ok hk (by omega) hr
  have hmax := hx.pos_lt
  rcases Nat.lt_trichotomy r x.row with hlt | rfl | hgt
  · have h5 := h4 (by omega)
    have h6 : 2 ^ (k + 1 - x.row) ≤ 2 ^ (k - r) := Nat.pow_le_pow_right (by omega) (by omega)
    have h7 : 2 ^ (k + 1 - x.row) < 2 ^ (k + 1) := Nat.pow_lt_pow_right (by omega) (by omega)
    rw [maxPossiblePosAtRow_eq hk (by omega), nodePos] at h5
    omega
  · exact hr
  · have h5 := h3 x.row hrow hgt
    rw [maxPossiblePosAtRow_eq hk hxk] at h5
    omega

variable (hn : n ≤ 2 ^ k)
include hn

theorem isRootPositionOnRowTotalRows_nodePos (hx : x.InForest n) :
    isRootPositionOnRowTotalRows (nodePos k x) n x.row k = true ↔ x.IsRoot n := by
  have hrows : treeRows n ≤ k := treeRows_le_iff.mpr hn
  have hfit := fits_of_inForest (le_two_pow_treeRows n) hx
  have hpos : (if treeRows n ≠ k then
        isRootPositionOnRow (translatePos (nodePos k x) k (treeRows n)) n x.row
      else isRootPositionOnRow (nodePos k x) n x.row) =
      isRootPositionOnRow (nodePos (treeRows n) x) n x.row := by
    by_cases h : treeRows n = k
    · rw [if_neg (not_not.mpr h), h]
    · rw [if_pos h, translatePos_nodePos hk (by omega) (fits_of_inForest hn hx) hfit]
  rw [isRootPositionOnRowTotalRows, hpos, isRootPositionOnRow_nodePos
    (Nat.le_trans hn (Nat.pow_le_pow_right (by omega) hk)) hfit]
  simp

theorem isRootPositionTotalRows_nodePos (hx : x.InForest n) :
    isRootPositionTotalRows (nodePos k x) n k = true ↔ x.IsRoot n := by
  have hrows : treeRows n ≤ k := treeRows_le_iff.mpr hn
  have hfit := fits_of_inForest (le_two_pow_treeRows n) hx
  have hpos : (if k ≠ treeRows n then
        isRootPosition (translatePos (nodePos k x) k (treeRows n)) n
      else isRootPosition (nodePos k x) n) = isRootPosition (nodePos (treeRows n) x) n := by
    by_cases h : k = treeRows n
    · rw [if_neg (not_not.mpr h), ← h]
    · rw [if_pos h, translatePos_nodePos hk (by omega) (fits_of_inForest hn hx) hfit]
  rw [isRootPositionTotalRows, hpos, isRootPosition_nodePos
    (Nat.le_trans hn (Nat.pow_le_pow_right (by omega) hk)) hfit]

theorem parent_nodePos_inForest (hx : x.InForest n) (hr : ¬ x.IsRoot n) :
    parent (nodePos k x) k = nodePos k x.parent := by
  have hpar := fits_of_inForest hn (hx.parent hr)
  exact parent_nodePos hk (fits_of_inForest hn hx) hpar.1

end

/-! ### The two queues -/

/-- The queues list the positions of two disjoint sets of nodes. -/
structure Queued (n k : Nat) (A B : Set Node) (ps : PosState) : Prop where
  inForest : ∀ x, x ∈ A ∨ x ∈ B → x.InForest n
  disjoint : ∀ x ∈ A, x ∉ B
  targets : Listing ps.targets (nodePos k '' A)
  queue : Listing ps.queue (nodePos k '' B)

namespace Queued
variable {n k : Nat} (hn : n ≤ 2 ^ k) {A B : Set Node} {ps : PosState} {x : Node}
  (h : Queued n k A B ps)
include h

theorem mem_pending {p : Nat} : p ∈ ps.pending ↔ ∃ x, (x ∈ A ∨ x ∈ B) ∧ nodePos k x = p := by
  rw [PosState.pending, List.mem_append, h.targets.mem, h.queue.mem]
  constructor
  · rintro (⟨x, hx, he⟩ | ⟨x, hx, he⟩)
    · exact ⟨x, Or.inl hx, he⟩
    · exact ⟨x, Or.inr hx, he⟩
  · rintro ⟨x, hx | hx, he⟩
    · exact Or.inl ⟨x, hx, he⟩
    · exact Or.inr ⟨x, hx, he⟩

theorem eq_empty (hnext : getNextPos ps.targets ps.queue = none) : ¬ (x ∈ A ∨ x ∈ B) := by
  obtain ⟨h1, h2⟩ := getNextPos_none hnext
  intro hx
  have hp := h.mem_pending.mpr ⟨x, hx, rfl⟩
  rw [PosState.pending, h1, h2] at hp
  cases hp

/-- The position that is next is the least. -/
theorem le_pending {p : Nat} {idx : Source} {sib : Option Source}
    (hnext : getNextPos ps.targets ps.queue = some (p, idx, sib)) :
    p ∈ ps.pending ∧ ∀ q ∈ ps.pending, p ≤ q := by
  obtain ⟨⟨rest, hs⟩, h1, h2, -⟩ := getNextPos_some hnext
  refine ⟨PosState.mem_slice (i := idx) (by rw [hs]; exact List.mem_cons_self), fun q hq => ?_⟩
  rcases List.mem_append.mp hq with hq | hq
  · exact h.targets.le_of_head? h1 hq
  · exact h.queue.le_of_head? h2 hq

variable (hx : x.InForest n)
include hn

include hx in
/-- The queues without the front of one of them. -/
theorem drop {i : Source} {rest : List Nat} (hs : ps.slice i = nodePos k x :: rest) :
    Queued n k (A \ {x}) (B \ {x}) (ps.drop i) := by
  have hA : ∀ y ∈ A, y.InForest n := fun y hy => h.inForest y (Or.inl hy)
  have hB : ∀ y ∈ B, y.InForest n := fun y hy => h.inForest y (Or.inr hy)
  refine ⟨fun y hy => h.inForest y (hy.imp And.left And.left),
    fun y hy hy' => h.disjoint y hy.1 hy'.1, ?_, ?_⟩
  · cases i with
    | slice1 =>
      have ht := h.targets
      simp only [PosState.slice] at hs
      rw [hs] at ht
      simp only [PosState.drop, hs, List.tail_cons]
      exact listing_tail hn hA hx ht
    | slice2 =>
      have hq := h.queue
      simp only [PosState.slice] at hs
      rw [hs] at hq
      have hxB := (mem_nodePos_image hn hB hx).mp hq.head_mem
      rw [Set.sdiff_singleton_eq_self fun hxA => h.disjoint x hxA hxB]
      exact h.targets
  · cases i with
    | slice1 =>
      have ht := h.targets
      simp only [PosState.slice] at hs
      rw [hs] at ht
      have hxA := (mem_nodePos_image hn hA hx).mp ht.head_mem
      rw [Set.sdiff_singleton_eq_self fun hxB => h.disjoint x hxA hxB]
      exact h.queue
    | slice2 =>
      have hq := h.queue
      simp only [PosState.slice] at hs
      rw [hs] at hq
      simp only [PosState.drop, hs, List.tail_cons]
      exact listing_tail hn hB hx hq

/-- The sibling is next if it is queued at all, and otherwise nothing is taken for it.
All positions queued are greater than that of the node. -/
theorem nextSibling_iff (hx : x.InForest n) (hr : ¬ x.IsRoot n)
    (hlt : ∀ q ∈ ps.pending, nodePos k x < q) :
    (nextSibling (nodePos k x) ps.targets ps.queue).isSome = true ↔
      x.sibling ∈ A ∨ x.sibling ∈ B := by
  have hfit := fits_of_inForest hn hx
  have hsib := sibling_nodePos hfit
  have hright := rightSib_nodePos hfit
  constructor
  · intro hsome
    obtain ⟨i, hi⟩ := Option.isSome_iff_exists.mp hsome
    obtain ⟨rest, hs⟩ := nextSibling_some hi
    have hmem : rightSib (nodePos k x) ∈ ps.pending :=
      PosState.mem_slice (i := i) (by rw [hs]; exact List.mem_cons_self)
    have hgt := hlt _ hmem
    rw [hright] at hmem hgt
    split at hmem
    · obtain ⟨y, hy, he⟩ := h.mem_pending.mp hmem
      obtain rfl := nodePos_inj hn (h.inForest y hy) (hx.sibling hr) he
      exact hy
    · rename_i hodd
      rw [if_neg hodd] at hgt
      omega
  · intro hs
    have hmem := h.mem_pending.mpr ⟨_, hs, rfl⟩
    have hgt := hlt _ hmem
    -- The sibling is greater, so it is the right one and the next number.
    have heq : nodePos k x.sibling = rightSib (nodePos k x) := by
      rw [hright]
      split
      · rfl
      · rename_i hodd
        have hb := (nodePos_lt_iff hn hx (hx.sibling hr)).mp hgt
        exact absurd ((Node.before_sibling_iff x).mp hb) hodd
    have hle : ∀ q ∈ ps.pending, rightSib (nodePos k x) ≤ q := by
      intro q hq
      have h1 := hlt q hq
      have h2 := or_one_eq (nodePos k x)
      rw [rightSib, h2]
      split <;> omega
    rw [heq] at hmem
    cases hl : nextLeastSlice ps.targets ps.queue with
    | none =>
      obtain ⟨h1, h2⟩ := nextLeastSlice_eq_none.mp hl
      rw [PosState.pending, h1, h2] at hmem
      cases hmem
    | some i =>
      obtain ⟨q, rest, hq, hq1, hq2⟩ := nextLeastSlice_some hl
      have hge : q ≤ rightSib (nodePos k x) := by
        rcases List.mem_append.mp hmem with hm | hm
        · exact h.targets.le_of_head? hq1 hm
        · exact h.queue.le_of_head? hq2 hm
      have hle' := hle q (PosState.mem_slice (i := i) (by rw [hq]; exact List.mem_cons_self))
      have hqe : q = rightSib (nodePos k x) := Nat.le_antisymm hge hle'
      unfold nextSibling
      rw [hl]
      cases i <;>
      · simp only [PosState.slice] at hq
        rw [hq]
        simp [hqe]

end Queued

/-! ### The sweep of `proofPositions` -/

/-- What holds between rounds when the nodes `D` have been visited. -/
structure PosSweep (n k : Nat) (T D : Set Node) (ps : PosState) : Prop where
  done : Done n T D
  queued : Queued n k (T \ D) (parentsOf n D \ D) ps
  nextTargets : Listing ps.nextTargets (nodePos k '' parentsOf n D)
  proofPositions : Listing ps.proofPositions (nodePos k '' siblingsOf n T D)
  row_le : ps.row ≤ k
  row_le_of : ∀ {x}, Touched n T x → x ∉ D → ps.row ≤ x.row

/-- The state of the loop after a round that takes the node `x`. -/
def PosState.round (n k : Nat) (ps : PosState) (x : Node) (idx : Source) (sib : Option Source) :
    PosState :=
  if x.IsRoot n then { ps.drop idx with row := x.row }
  else PosState.push
    { ps.after idx sib with
      row := x.row
      proofPositions := ps.proofPositions ++ if sib.isNone then [nodePos k x.sibling] else [] }
    (nodePos k x.parent)

namespace PosSweep
variable {n k : Nat} (hk : k ≤ 63) (hn : n ≤ 2 ^ k) {T D : Set Node} {ps : PosState} {x : Node}
  {idx : Source} {sib : Option Source} (h : PosSweep n k T D ps)

section
include h

/-- Nothing is queued once all touched nodes have been visited. -/
theorem eq_touched (hnext : getNextPos ps.targets ps.queue = none) : D = {x | Touched n T x} := by
  refine h.done.eq_touched fun y hy => ?_
  by_contra hyD
  refine h.queued.eq_empty (x := y) hnext ?_
  exact hy.imp (⟨·, hyD⟩) (⟨·, hyD⟩)

include hn

/-- The node that is taken is the next one of the sweep. -/
theorem next {p : Nat} (hnext : getNextPos ps.targets ps.queue = some (p, idx, sib)) :
    ∃ x, p = nodePos k x ∧ Next n T D x ∧ (x ∈ T ∨ x ∈ parentsOf n D) := by
  obtain ⟨hmem, hle⟩ := h.queued.le_pending hnext
  obtain ⟨x, hx, rfl⟩ := h.queued.mem_pending.mp hmem
  have hforest := h.queued.inForest x hx
  have hxD : x ∉ D := hx.elim And.right And.right
  have hpend : x ∈ T ∨ x ∈ parentsOf n D := hx.imp And.left And.left
  refine ⟨x, rfl, ⟨?_, hxD, fun {y} hy hyD => ?_⟩, hpend⟩
  · rcases hpend with hT | hP
    · exact ⟨hforest, x, hT, .refl x⟩
    · exact (h.done.parentsOf_computed hP).touched
  · obtain ⟨z, hz, hzD, hzy⟩ := Done.exists_next hy hyD
    have hz' : z ∈ T \ D ∨ z ∈ parentsOf n D \ D := hz.imp (⟨·, hzD⟩) (⟨·, hzD⟩)
    have hxz : z = x ∨ x.Before z := by
      rcases Nat.lt_or_eq_of_le (hle _ (h.queued.mem_pending.mpr ⟨z, hz', rfl⟩)) with hlt | he
      · exact Or.inr ((nodePos_lt_iff hn hforest (h.queued.inForest z hz')).mp hlt)
      · exact Or.inl (nodePos_inj hn (h.queued.inForest z hz') hforest he.symm)
    rcases hxz with rfl | hxz
    · exact hzy.imp Eq.symm id
    · rcases hzy with rfl | hzy
      · exact Or.inr hxz
      · exact Or.inr (hxz.trans hzy)

variable (hx : Next n T D x) (hnext : getNextPos ps.targets ps.queue = some (nodePos k x, idx, sib))
include hx hnext

/-- The queues without the node. -/
theorem queued_drop :
    Queued n k (T \ (D ∪ {x})) (parentsOf n D \ (D ∪ {x})) (ps.drop idx) ∧
      ∀ q ∈ (ps.drop idx).pending, nodePos k x < q := by
  obtain ⟨⟨rest, hs⟩, -, -, -⟩ := getNextPos_some hnext
  have hq := h.queued.drop hn hx.touched.1 hs
  rw [Set.sdiff_sdiff, Set.sdiff_sdiff] at hq
  refine ⟨hq, fun q hmem => ?_⟩
  obtain ⟨y, hy, rfl⟩ := hq.mem_pending.mp hmem
  have hle := (h.queued.le_pending hnext).2 _ ((PosState.sub_drop ps idx).pending _ hmem)
  refine Nat.lt_of_le_of_ne hle fun he => ?_
  obtain rfl := nodePos_inj hn hx.touched.1 (hq.inForest y hy) he
  exact hy.elim (fun hy => hy.2 (Or.inr rfl)) fun hy => hy.2 (Or.inr rfl)

/-- Its sibling is found exactly if it is touched. -/
theorem sibling_iff (hT : ∀ t ∈ T, t.InForest n) (hr : ¬ x.IsRoot n) :
    sib.isSome = true ↔ Touched n T x.sibling := by
  obtain ⟨-, -, -, hsib⟩ := getNextPos_some hnext
  obtain ⟨hq, hlt⟩ := h.queued_drop hn hx hnext
  rw [hsib, hq.nextSibling_iff hn hx.touched.1 hr hlt]
  constructor
  · rintro (hs | hs)
    · exact .of_mem hT hs.1
    · exact (h.done.parentsOf_computed hs.1).touched
  · intro hs
    have hnot : x.sibling ∉ D ∪ {x} := by
      rintro (h' | h')
      · exact h.done.sibling_not_mem hx h'
      · exact x.sibling_ne h'
    exact (Done.sibling_pending hx hs).imp (⟨·, hnot⟩) (⟨·, hnot⟩)

/-- The queues without the node and its sibling. -/
theorem queued_after (hT : ∀ t ∈ T, t.InForest n) (hr : ¬ x.IsRoot n) :
    Queued n k (T \ (D ∪ visited n T x)) (parentsOf n D \ (D ∪ visited n T x))
      (ps.after idx sib) := by
  obtain ⟨-, -, -, hsib⟩ := getNextPos_some hnext
  obtain ⟨hq, hlt⟩ := h.queued_drop hn hx hnext
  have hiff := h.sibling_iff hn hx hnext hT hr
  cases sib with
  | none =>
    rw [visited_single fun hs => by simpa using hiff.mpr hs]
    exact hq
  | some i =>
    have hs := hiff.mp rfl
    obtain ⟨rest, hslice⟩ := nextSibling_some hsib.symm
    have hfit := fits_of_inForest hn hx.touched.1
    have hright : rightSib (nodePos k x) = nodePos k x.sibling := by
      rw [rightSib_nodePos hfit, if_pos ((Node.before_sibling_iff x).mp
        (h.done.before_sibling hx hs))]
    rw [hright] at hslice
    have hq' := hq.drop hn (hx.touched.1.sibling hr) hslice
    rw [Set.sdiff_sdiff, Set.sdiff_sdiff, Set.union_assoc, ← Set.insert_eq] at hq'
    rw [visited_pair hr hs]
    exact hq'

variable (hT : ∀ t ∈ T, t.InForest n) (hA : IsAntichain Node.Above T)
include hT hA

/-- A round takes the next node, and its sibling if that is touched. -/
theorem round : PosSweep n k T (D ∪ visited n T x) (ps.round n k x idx sib) := by
  have hdone := h.done.visit hx
  have hrow : ∀ {y}, Touched n T y → y ∉ D ∪ visited n T x → x.row ≤ y.row := by
    intro y hy hyD
    rcases hx.first hy fun h' => hyD (Or.inl h') with rfl | hb
    · exact Nat.le_refl _
    · unfold Node.Before at hb
      omega
  have hxk := (fits_of_inForest hn hx.touched.1).1
  by_cases hr : x.IsRoot n
  · obtain ⟨hq, -⟩ := h.queued_drop hn hx hnext
    rw [PosState.round, if_pos hr]
    refine ⟨hdone, ?_, ?_, ?_, hxk, hrow⟩
    · rw [parentsOf_visit_root hr, visited_of_root hr]
      exact ⟨hq.inForest, hq.disjoint, hq.targets, hq.queue⟩
    · rw [parentsOf_visit_root hr]
      cases idx <;> exact h.nextTargets
    · rw [siblingsOf_visit_touched hx.touched (Or.inl hr)]
      cases idx <;> exact h.proofPositions
  · have hq := h.queued_after hn hx hnext hT hr
    have hpar := hx.touched.1.parent hr
    have hforest : ∀ y ∈ parentsOf n D, y.InForest n :=
      fun y hy => (h.done.parentsOf_computed hy).1
    rw [PosState.round, if_neg hr]
    refine ⟨hdone, ⟨?_, ?_, hq.targets, ?_⟩, ?_, ?_, hxk, hrow⟩
    · rintro y (hy | hy)
      · exact hT y hy.1
      · exact (hdone.parentsOf_computed hy.1).1
    · exact fun y hy hy' => (hdone.parentsOf_computed hy'.1).not_mem hA hy.1
    · rw [parentsOf_visit hr, Set.insert_sdiff_of_notMem _ (h.done.parent_not_mem hx)]
      exact listing_concat hn (fun y hy => hforest y hy.1) hpar hq.queue
        fun y hy => h.done.before_parent hx hy.1
    · rw [parentsOf_visit hr]
      have hnt : (ps.after idx sib).nextTargets = ps.nextTargets := by
        cases idx <;> rcases sib with _ | i <;> first | rfl | (cases i <;> rfl)
      exact listing_concat hn hforest hpar (hnt ▸ h.nextTargets)
        fun y hy => h.done.before_parent hx hy
    · have hiff := h.sibling_iff hn hx hnext hT hr
      cases sib with
      | some i =>
        rw [siblingsOf_visit_touched hx.touched (Or.inr (hiff.mp rfl))]
        simpa [PosState.push] using h.proofPositions
      | none =>
        rw [siblingsOf_visit_single hr fun hs => by simpa using hiff.mpr hs]
        refine listing_concat hn (fun y hy => ?_) (hx.touched.1.sibling hr) h.proofPositions
          fun y hy => h.done.before_sibling_of_mem hx hy
        have hy' := (h.done.touched _ hy.1).1.sibling hy.2.1
        rwa [Node.sibling_sibling] at hy'

end

/-- A round of the loop. -/
theorem posStep_eq {fuel : Nat} (hk : k ≤ 63) (hn : n ≤ 2 ^ k) (h : PosSweep n k T D ps)
    (hx : Next n T D x) (hnext : getNextPos ps.targets ps.queue = some (nodePos k x, idx, sib))
    (hf : k + 1 < fuel) : posStep n k fuel ps = .ok (some (ps.round n k x idx sib)) := by
  have hforest := hx.touched.1
  have hfit := fits_of_inForest hn hforest
  have hxk := hfit.1
  have hrl := possibleRowLoop_nodePos hk hfit (h.row_le_of hx.touched hx.not_mem)
    (show k + 1 < ps.row + fuel by omega)
  have hroot := isRootPositionOnRowTotalRows_nodePos hk hn hforest
  rcases posStep_round (n := n) h.row_le hnext hrl with ⟨hlt, -⟩ | ⟨-, hr, hs⟩ | ⟨-, hr, hs⟩
  · omega
  · rw [hs, PosState.round, if_pos (hroot.mp hr)]
  · have hr' : ¬ x.IsRoot n := fun h' => by simp [hroot.mpr h'] at hr
    rw [hs, PosState.round, if_neg hr', sibling_nodePos hfit,
      parent_nodePos_inForest hk hn hforest hr']

theorem weight_round (hk : k ≤ 63) (hn : n ≤ 2 ^ k) (hx : Next n T D x)
    (hnext : getNextPos ps.targets ps.queue = some (nodePos k x, idx, sib)) :
    (ps.round n k x idx sib).weight k < ps.weight k := by
  have hforest := hx.touched.1
  have hfit := fits_of_inForest hn hforest
  have hrank := rank_parent hk hfit.pos_lt_max
  by_cases hr : x.IsRoot n
  · obtain ⟨⟨rest, hs⟩, -, -, -⟩ := getNextPos_some hnext
    have hw := PosState.weight_drop (k := k) hs
    rw [PosState.round, if_pos hr]
    rw [PosState.weight] at hw ⊢
    dsimp only
    omega
  · have hw := PosState.weight_after (k := k) hnext
    rw [parent_nodePos_inForest hk hn hforest hr] at hrank
    rw [PosState.round, if_neg hr, PosState.push]
    rw [PosState.weight] at hw ⊢
    dsimp only
    rw [List.map_append, List.sum_append, List.map_singleton, List.sum_singleton]
    omega

/-- The run of the loop from a state on. -/
theorem posLoop_eq (hk : k ≤ 63) (hn : n ≤ 2 ^ k) (hT : ∀ t ∈ T, t.InForest n)
    (hA : IsAntichain Node.Above T) {fuel : Nat} (h : PosSweep n k T D ps)
    (hf : ps.weight k + k + 2 < fuel) :
    ∃ fin, posLoop n k fuel ps = .ok fin ∧
      Listing fin.proofPositions (nodePos k '' {x | Needed n T x}) ∧
      Listing fin.nextTargets (nodePos k '' {x | Computed n T x}) := by
  induction fuel generalizing ps D with
  | zero => omega
  | succ fuel ih =>
    rw [posLoop]
    cases hnext : getNextPos ps.targets ps.queue with
    | none =>
      have hend : posStep n k fuel ps = .ok none := posStep_none h.row_le hnext
      have hD := h.eq_touched hnext
      refine ⟨ps, by rw [hend, Exec.ok_bind], ?_, ?_⟩
      · have hl := h.proofPositions
        rwa [hD, siblingsOf_touched] at hl
      · have hl := h.nextTargets
        rwa [hD, parentsOf_touched] at hl
    | some t =>
      obtain ⟨p, idx, sib⟩ := t
      obtain ⟨x, rfl, hx, -⟩ := h.next hn hnext
      have hw := weight_round hk hn hx hnext
      obtain ⟨fin, hfin, hl⟩ := ih (h.round hn hx hnext hT hA) (by omega)
      exact ⟨fin, by rw [h.posStep_eq hk hn hx hnext (by omega), Exec.ok_bind]; exact hfin, hl⟩

/-- The state before the first round. -/
theorem start (hT : ∀ t ∈ T, t.InForest n) {targets : List Nat}
    (htargets : Listing targets (nodePos k '' T)) :
    PosSweep n k T ∅ (PosState.start targets) := by
  have hpar : parentsOf n ∅ = ∅ := by
    ext x
    simp [parentsOf]
  refine ⟨.empty n T, ⟨?_, ?_, ?_, ?_⟩, ?_, ?_, Nat.zero_le _, fun _ _ => Nat.zero_le _⟩
  · rintro x (hx | hx)
    · exact hT x hx.1
    · rw [hpar] at hx
      exact absurd hx.1 (Set.notMem_empty x)
  · rw [hpar]
    exact fun x _ hx => Set.notMem_empty x hx.1
  · rw [Set.sdiff_empty]
    exact htargets
  · rw [hpar, Set.empty_sdiff, Set.image_empty]
    exact .nil
  · rw [hpar, Set.image_empty]
    exact .nil
  · refine .of_empty ?_
    rintro p ⟨x, hx, -⟩
    exact Set.notMem_empty _ hx.1

end PosSweep

/-- **What `proofPositions` returns**: the positions of the needed nodes and those of the
computed ones, both in order. -/
theorem proofPositions_sweep {n k : Nat} (hk : k ≤ 63) (hn : n ≤ 2 ^ k) {T : Set Node}
    (hT : ∀ t ∈ T, t.InForest n) (hA : IsAntichain Node.Above T) {targets : List Nat}
    (htargets : Listing targets (nodePos k '' T)) :
    ∃ positions computed, proofPositions targets n k = .ok (positions, computed) ∧
      Listing positions (nodePos k '' {x | Needed n T x}) ∧
      Listing computed (nodePos k '' {x | Computed n T x}) := by
  have hw := PosState.weight_start_le targets k
  obtain ⟨fin, hfin, hl⟩ := (PosSweep.start hT htargets).posLoop_eq hk hn hT hA
    (show _ < (targets.length + 1) * (k + 2) + 257 by rw [Nat.add_mul]; omega)
  refine ⟨_, _, ?_, hl⟩
  rw [proofPositions, show (⟨0, targets, [], [], []⟩ : PosState) = PosState.start targets from rfl,
    hfin, Exec.ok_bind]

/-! ### A single target -/

section
variable {n k : Nat} {x y : Node} {j : Nat} (hj : (x.up j).IsRoot n)
include hj

/-- The nodes from a target up to its root. -/
theorem touched_singleton : Touched n {x} y ↔ ∃ i ≤ j, y = x.up i := by
  constructor
  · rintro ⟨hy, t, rfl, i, rfl⟩
    refine ⟨i, ?_, rfl⟩
    by_contra hlt
    obtain ⟨d, rfl⟩ := Nat.exists_eq_add_of_lt (Nat.lt_of_not_le hlt)
    refine Node.not_isRoot_of_parent (x := t.up j) (Node.inForest_of_up (j := d) ?_) hj
    rwa [← Node.up_succ, ← Node.up_add, show j + 1 + d = j + d + 1 by omega]
  · rintro ⟨i, hi, rfl⟩
    obtain ⟨d, rfl⟩ := Nat.exists_eq_add_of_le hi
    rw [Node.up_add] at hj
    exact ⟨Node.inForest_of_up hj.inForest, x, rfl, i, rfl⟩

theorem needed_singleton : Needed n {x} y ↔ ∃ i < j, y = (x.up i).sibling := by
  unfold Needed
  rw [touched_singleton hj, touched_singleton hj]
  constructor
  · rintro ⟨⟨i, hi, he⟩, hr, -⟩
    refine ⟨i, Nat.lt_of_le_of_ne hi ?_, by rw [← he, Node.sibling_sibling]⟩
    rintro rfl
    exact hr (he ▸ hj)
  · rintro ⟨i, hi, rfl⟩
    rw [Node.sibling_sibling]
    refine ⟨⟨i, hi.le, rfl⟩, fun hr => ?_, ?_⟩
    · exact hi.ne (Node.root_up_unique hr hj)
    · rintro ⟨i', -, he⟩
      have hrow := congrArg Node.row he
      rw [Node.sibling_row, Node.up_row, Node.up_row] at hrow
      obtain rfl : i = i' := by omega
      exact Node.sibling_ne _ he

theorem listing_needed_singleton (hn : n ≤ 2 ^ k) :
    Listing ((List.range j).map fun i => nodePos k (x.up i).sibling)
      (nodePos k '' {y | Needed n {x} y}) := by
  have hforest : ∀ i < j, (x.up i).sibling.InForest n := by
    intro i hi
    have hnr : ¬ (x.up i).IsRoot n := fun hr => hi.ne (Node.root_up_unique hr hj)
    refine Node.InForest.sibling ?_ hnr
    obtain ⟨d, rfl⟩ := Nat.exists_eq_add_of_lt hi
    rw [show i + d + 1 = i + (d + 1) by omega, Node.up_add] at hj
    exact Node.inForest_of_up hj.inForest
  refine ⟨?_, fun p => ?_⟩
  · rw [List.pairwise_map]
    refine List.pairwise_lt_range.imp_of_mem fun {a b} ha hb hlt => ?_
    rw [nodePos_lt_iff hn (hforest a (List.mem_range.mp ha)) (hforest b (List.mem_range.mp hb))]
    refine Or.inl ?_
    rw [Node.sibling_row, Node.sibling_row, Node.up_row, Node.up_row]
    omega
  · rw [List.mem_map]
    constructor
    · rintro ⟨i, hi, rfl⟩
      exact ⟨_, (needed_singleton hj).mpr ⟨i, List.mem_range.mp hi, rfl⟩, rfl⟩
    · rintro ⟨y, hy, rfl⟩
      obtain ⟨i, hi, rfl⟩ := (needed_singleton hj).mp hy
      exact ⟨i, List.mem_range.mpr hi, rfl⟩

/-- The loop of `proofPosition` lists the siblings up to the root. -/
theorem proofPositionLoop_eq (hk : k ≤ 63) (hn : n ≤ 2 ^ k) {d fuel : Nat} (hd : d ≤ j)
    (hf : d < fuel) (proofs : List Nat) :
    proofPositionLoop n k fuel (x.row + (j - d)) (nodePos k (x.up (j - d))) proofs =
      .ok (proofs ++ (List.range' (j - d) d).map fun i => nodePos k (x.up i).sibling) := by
  induction d generalizing fuel proofs with
  | zero =>
    obtain ⟨fuel, rfl⟩ : ∃ f, fuel = f + 1 := ⟨fuel - 1, by omega⟩
    have hrow : x.row + j ≤ k := (fits_of_inForest hn hj.inForest).1
    rw [proofPositionLoop, Nat.sub_zero, if_neg (by omega),
      if_pos ((isRootPositionTotalRows_nodePos hk hn hj.inForest).mpr hj)]
    simp
  | succ d ih =>
    obtain ⟨fuel, rfl⟩ : ∃ f, fuel = f + 1 := ⟨fuel - 1, by omega⟩
    have hrow : x.row + j ≤ k := (fits_of_inForest hn hj.inForest).1
    have hnr : ¬ (x.up (j - (d + 1))).IsRoot n := fun hr => by
      have := Node.root_up_unique hr hj
      omega
    have hforest : (x.up (j - (d + 1))).InForest n := by
      rw [show j = j - (d + 1) + (d + 1) by omega, Node.up_add] at hj
      exact Node.inForest_of_up hj.inForest
    have hnot : ¬ isRootPositionTotalRows (nodePos k (x.up (j - (d + 1)))) n k = true :=
      fun h => hnr ((isRootPositionTotalRows_nodePos hk hn hforest).mp h)
    have hstep : j - (d + 1) + 1 = j - d := by omega
    rw [proofPositionLoop, if_neg (by omega), if_neg hnot, add8_one (by omega),
      sibling_nodePos (fits_of_inForest hn hforest), parent_nodePos_inForest hk hn hforest hnr,
      ← Node.up_succ, hstep, Nat.add_assoc, hstep, ih (by omega) (by omega), List.range'_succ,
      List.map_cons, List.append_assoc, List.singleton_append, hstep]

end

theorem proofPosition_eq {n k : Nat} (hk : k ≤ 63) (hn : n ≤ 2 ^ k) {x : Node}
    (hx : x.InForest n) :
    ∃ positions, proofPosition (nodePos k x) n k = .ok positions ∧
      Listing positions (nodePos k '' {y | Needed n {x} y}) := by
  obtain ⟨j, hj⟩ := hx.exists_root
  refine ⟨_, ?_, listing_needed_singleton hj hn⟩
  have hrow : x.row + j ≤ k := (fits_of_inForest hn hj.inForest).1
  have hloop := proofPositionLoop_eq hj hk hn (Nat.le_refl j) (show j < 257 by omega) []
  rw [Nat.sub_self, Nat.add_zero, Node.up_zero, ← List.range_eq_range'] at hloop
  rw [proofPosition, detectRow_nodePos hk (fits_of_inForest hn hx), hloop, List.nil_append]

/-! ### The positions, spelled out -/

/-- **`proofPositions` returns exactly the needed positions.**  The targets are given as the
positions of nodes of a forest with `n` leaves, numbered with `k` rows. -/
theorem proof_positions_exact {n k : Nat} (hrows : treeRows n ≤ k) (hk : k ≤ 62) {xs : List Node}
    (hforest : ∀ x ∈ xs, x.InForest n) (hasc : (xs.map (nodePos k)).Pairwise (· < ·))
    (hanti : ∀ x ∈ xs, ∀ y ∈ xs, x.Above y → x = y) :
    ∃ needed computed, proofPositions (xs.map (nodePos k)) n k = .ok (needed, computed) ∧
      needed.Pairwise (· < ·) ∧
      (∀ p, p ∈ needed ↔ ∃ y, nodePos k y = p ∧
        (∃ t ∈ xs, y.sibling.Above t ∧ y.sibling.InForest n ∧ ¬ y.sibling.IsRoot n) ∧
        ∀ t ∈ xs, ¬ y.Above t) ∧
      computed.Pairwise (· < ·) ∧
      (∀ p, p ∈ computed ↔ ∃ y, nodePos k y = p ∧ y.InForest n ∧
        ∃ t ∈ xs, y.Above t ∧ y ≠ t) ∧
      ∀ x, xs = [x] → proofPosition (nodePos k x) n k = .ok needed := by
  have hn := treeRows_le_iff.mp hrows
  have htargets : Listing (xs.map (nodePos k)) (nodePos k '' {x | x ∈ xs}) :=
    ⟨hasc, fun p => List.mem_map⟩
  obtain ⟨needed, computed, hrun, hneeded, hcomputed⟩ :=
    proofPositions_sweep (T := {x | x ∈ xs}) (by omega) hn hforest
      (fun x hx y hy hne h => hne (hanti x hx y hy h))
      htargets
  refine ⟨needed, computed, hrun, hneeded.sorted, fun p => ?_, hcomputed.sorted, fun p => ?_, ?_⟩
  · rw [hneeded.mem]
    constructor
    · rintro ⟨y, ⟨⟨hs, t, ht, ha⟩, hr, hnot⟩, rfl⟩
      have hy := hs.sibling hr
      rw [Node.sibling_sibling] at hy
      exact ⟨y, rfl, ⟨t, ht, ha, hs, hr⟩, fun t' ht' ha' => hnot ⟨hy, t', ht', ha'⟩⟩
    · rintro ⟨y, rfl, ⟨t, ht, ha, hs, hr⟩, hnot⟩
      exact ⟨y, ⟨⟨hs, t, ht, ha⟩, hr, fun ⟨_, t', ht', ha'⟩ => hnot t' ht' ha'⟩, rfl⟩
  · rw [hcomputed.mem]
    constructor
    · rintro ⟨y, ⟨hy, t, ht, ha, hne⟩, rfl⟩
      exact ⟨y, rfl, hy, t, ht, ha, hne⟩
    · rintro ⟨y, rfl, hy, t, ht, ha, hne⟩
      exact ⟨y, ⟨hy, t, ht, ha, hne⟩, rfl⟩
  · rintro x rfl
    obtain ⟨positions, hpos, hlist⟩ :=
      proofPosition_eq (by omega) hn (hforest x List.mem_cons_self)
    have hset : {y | y ∈ [x]} = ({x} : Set Node) := by
      ext y
      simp
    rw [hset] at hneeded
    rw [hpos, hlist.unique hneeded]

/-- Three targets on two rows among seven leaves, numbered with four rows. -/
theorem proof_positions_seven :
    ∃ needed computed, proofPositions [0, 4, 17] 7 4 = .ok (needed, computed) ∧
      needed = [1, 5] ∧ needed.Pairwise (· < ·) := by
  obtain ⟨needed, computed, hrun, hasc, -⟩ := @proof_positions_exact 7 4 (by decide) (by decide)
    [⟨0, 0⟩, ⟨0, 4⟩, ⟨1, 1⟩] (by decide) (by decide) (by decide)
  have hval : proofPositions ([⟨0, 0⟩, ⟨0, 4⟩, ⟨1, 1⟩].map (nodePos 4)) 7 4 =
      .ok ([1, 5], [16, 18, 24]) := by decide
  rw [hrun] at hval
  cases hval
  exact ⟨_, _, hrun, rfl, hasc⟩

end Utreexo
