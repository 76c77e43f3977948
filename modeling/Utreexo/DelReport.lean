import Utreexo.SlotNeeds

/-! # `Stump.del` reports what is left of the forest

On the proof of leaves with the hashes of the forest, the second pass of `Stump.del` takes the
targets for empty.  Every hash it computes is then that of what remains of the subtree at the
position once the targets are gone (`remainHash`), still at the subtree's old position.
-/
namespace Utreexo
open Merkle

section
variable {H : Type} [DecidableEq H] {slots : List (Option H)} {dels : List H} {x y : Node}

/-- What remains of the tree placed at a node without the deleted leaves. -/
def remains (slots : List (Option H)) (dels : List H) (x : Node) : Option (CTree H) :=
  (placed slots x).bind (CTree.prune (· ∈ dels))

theorem remains_of_apart (h : ∀ a ∈ CTree.leavesOpt (placed slots x), a ∉ dels) :
    remains slots dels x = placed slots x := by
  rw [remains]
  cases hT : placed slots x with
  | none => rfl
  | some T =>
    rw [hT] at h
    exact CTree.prune_of_none_dead fun a ha => decide_eq_false (h a ha)

theorem remains_leaf {h : H} (hx : placed slots x = some (.leaf h)) (hh : h ∈ dels) :
    remains slots dels x = none := by
  rw [remains, hx]
  simp [CTree.prune, hh]

/-- What remains of two trees side by side. -/
theorem remains_parent (hn : slots.length < 2 ^ 64) (hp : x.parent.InForest slots.length)
    {D : CTree H} (hx : placed slots x = some D) :
    remains slots dels x.parent = if x.isRight then
      CTree.join (remains slots dels x.sibling) (remains slots dels x)
    else CTree.join (remains slots dels x) (remains slots dels x.sibling) := by
  obtain ⟨S, hS, hP⟩ := placed_parent hn hp hx
  rw [remains, remains, remains, hP, hx, hS, Option.bind_some, Option.bind_some, Option.bind_some]
  cases x.isRight
  · rfl
  · rfl

/-- The leaves that remain are live. -/
theorem leaves_remains : ∀ h ∈ CTree.leavesOpt (remains slots dels x), h ∈ liveLeaves slots := by
  intro h hh
  rw [remains] at hh
  cases hT : placed slots x with
  | none =>
    rw [hT] at hh
    cases hh
  | some T =>
    rw [hT, Option.bind_some, CTree.leavesOpt_prune] at hh
    exact placed_leaves_subset hT h (List.mem_of_mem_filter hh)

variable [HashOps H]

/-- The hash of the parent is that of the two trees in their order. -/
theorem getNextHash_eq_combine (pos : Nat) (hash sibHash : H) :
    getNextHash pos hash sibHash =
      if isLeftNiece pos then combine hash sibHash else combine sibHash hash := by
  unfold getNextHash combine
  by_cases h1 : hash = empty
  · by_cases h2 : sibHash = empty
    · simp [h1, h2]
    · simp [h1, h2]
  · by_cases h2 : sibHash = empty
    · simp [h1, h2]
    · simp [h1, h2]

/-- The hash of what remains of the tree at a position. -/
def remainHash (slots : List (Option H)) (dels : List H) (p : Nat) : H :=
  hashOpt (remains slots dels (nodeAt (treeRows slots.length) p))

theorem remainHash_nodePos (hn : slots.length ≤ 2 ^ 63) (hx : x.InForest slots.length) :
    remainHash slots dels (nodePos (treeRows slots.length) x) =
      hashOpt (remains slots dels x) := by
  rw [remainHash, nodeAt_nodePos (treeRows_le hn) (fits_of_inForest (le_two_pow_treeRows _) hx)]

omit [DecidableEq H] [HashOps H] in
/-- The leaves at the targets, by their hashes. -/
theorem leafNodes_eq (hn : slots.length < 2 ^ 64) (hnd : (liveLeaves slots).Nodup)
    {targets : List Nat} (h : List.Forall₂ (LeafAt slots) targets dels) :
    leafNodes slots targets = leavesAt slots {a | a ∈ dels} := by
  ext x
  constructor
  · rintro ⟨⟨a, hx⟩, hmem⟩
    obtain ⟨b, hb, y, hy, hye⟩ := exists_of_mem_left h hmem
    obtain rfl := nodePos_inj (le_two_pow_treeRows _) (placed_inForest hy) (placed_inForest hx) hye
    exact ⟨b, hb, hy⟩
  · rintro ⟨a, ha, hx⟩
    obtain ⟨t, ht, y, hy, rfl⟩ := exists_of_mem_left h.flip ha
    obtain rfl := placed_leaf_unique hn hnd hx hy
    exact ⟨⟨a, hx⟩, ht⟩

section
variable {leaf : H → Prop} (hi : IdealHash H leaf)
  (hleaf : ∀ h ∈ liveLeaves slots, h ≠ empty ∧ leaf h) (hn : slots.length ≤ 2 ^ 63)
  (hnd : (liveLeaves slots).Nodup)
include hi hleaf hn

/-- The hashes of what remains are computed from one another. -/
theorem hashing_remainHash :
    Hashing slots.length (treeRows slots.length) (leavesAt slots {a | a ∈ dels}) getNextHash
      (remainHash slots dels) := by
  intro x hx hr
  have hne : ∀ y : Node, ∀ h ∈ CTree.leavesOpt (remains slots dels y), h ≠ empty :=
    fun y h hh => (hleaf h (leaves_remains h hh)).1
  obtain ⟨D, hD⟩ : ∃ D, placed slots x = some D := by
    obtain ⟨h, -, hh⟩ := (touched_iff (by omega)).mp hx
    cases hT : placed slots x with
    | none =>
      rw [hT] at hh
      cases hh
    | some D => exact ⟨D, rfl⟩
  have hpar := hx.1.parent hr
  rw [remainHash_nodePos hn hpar, remainHash_nodePos hn hx.1,
    remainHash_nodePos hn (hx.1.sibling hr), remains_parent (by omega) hpar hD,
    getNextHash_eq_combine, isLeftNiece_nodePos (fits_of_inForest (le_two_pow_treeRows _) hx.1)]
  by_cases hright : x.isRight = true
  · have hodd : x.off % 2 = 1 := by simpa [Node.isRight] using hright
    rw [if_pos hright, hashOpt_join hi (hne _) (hne _), if_neg (by simp [hodd])]
  · have heven : x.off % 2 = 0 := by
      have : ¬ x.off % 2 = 1 := by simpa [Node.isRight] using hright
      omega
    rw [if_neg hright, hashOpt_join hi (hne _) (hne _), if_pos (by simp [heven])]

include hnd

/-- **`calculateHashes` without the hashes of the targets** returns the hashes of what remains,
at the targets and above them. -/
theorem calculateHashes_remains [SortAlg] {targets positions computed : List Nat}
    (h : List.Forall₂ (LeafAt slots) targets dels) (hd : dels.Nodup)
    (hpos : proofPositions (sortPositions targets) slots.length (treeRows slots.length) =
      .ok (positions, computed)) :
    ∃ touched roots,
      Listing touched (nodePos (treeRows slots.length) ''
        {x | Touched slots.length (leavesAt slots {a | a ∈ dels}) x}) ∧
      Listing roots (nodePos (treeRows slots.length) ''
        {x | Touched slots.length (leavesAt slots {a | a ∈ dels}) x ∧ x.IsRoot slots.length}) ∧
      calculateHashes slots.length none ⟨targets, positions.map (slotHash slots)⟩ =
        .ok (touched.map (withHash (remainHash slots dels)),
          roots.map (remainHash slots dels)) := by
  have hlt : slots.length < 2 ^ 64 := by omega
  obtain ⟨positions', computed', hpos', hneeded, -⟩ := proofPositions_forest hn h hd
  rw [hpos] at hpos'
  cases hpos'
  rw [leafNodes_eq hlt hnd h] at hneeded
  have htargets := mem_targets_iff h
  rw [leafNodes_eq hlt hnd h] at htargets
  -- The targets are empty.
  have hdel : (none : Option (List H)).getD (List.replicate targets.length empty) =
      targets.map (remainHash slots dels) := by
    refine (List.eq_replicate_iff.mpr ⟨List.length_map _, ?_⟩).symm
    intro v hv
    obtain ⟨t, ht, rfl⟩ := List.mem_map.mp hv
    obtain ⟨a, ha, y, hy, rfl⟩ := exists_of_mem_left h ht
    rw [remainHash_nodePos hn (placed_inForest hy), remains_leaf hy ha]
    rfl
  -- The hashes of the proof are those of trees without a target.
  have hproof : positions.map (slotHash slots) = positions.map (remainHash slots dels) := by
    refine List.map_congr_left fun p hp => ?_
    obtain ⟨y, hy, rfl⟩ := (hneeded.mem p).mp hp
    have hin := Needed.inForest hy
    rw [slotHash_nodePos hn hin, remainHash_nodePos hn hin, remains_of_apart]
    intro a ha hmem
    exact hy.2.2 ((touched_iff hlt).mpr ⟨a, hmem, ha⟩)
  have hcalc := calculateHashes_sweep hn inForest_of_leavesAt (antichain_leavesAt hlt)
    (hashing_remainHash hi hleaf hn) (targets_nodup hn h hd) htargets hneeded hdel []
  rw [List.append_nil] at hcalc
  rwa [hproof]

/-- **`Stump.del` on the proof of a forest** reports what remains at every touched position. -/
theorem Stump.del_honest [SortAlg] {targets positions computed : List Nat}
    (h : List.Forall₂ (LeafAt slots) targets dels) (hd : dels.Nodup)
    (hpos : proofPositions (sortPositions targets) slots.length (treeRows slots.length) =
      .ok (positions, computed)) :
    ∃ touched, Listing touched (nodePos (treeRows slots.length) ''
        {x | Touched slots.length (leavesAt slots {a | a ∈ dels}) x}) ∧
      (⟨(forestTrees slots).map hashOpt, slots.length⟩ : Stump H).del dels
          ⟨targets, positions.map (slotHash slots)⟩ =
        .ok (⟨(forestTrees (delSlots slots dels)).map hashOpt, slots.length⟩,
          .ok (touched.map (remainHash slots dels), touched)) := by
  have hlive : ∀ d ∈ dels, d ≠ empty ∧ leaf d :=
    fun d hd => hleaf d (targets_live h d hd)
  obtain ⟨idxs, hverify, -⟩ := verify_forest hi (fun h hh => (hleaf h hh).2)
    (fun h hh => (hleaf h hh).1) hn hnd h hd hpos
  obtain ⟨touched, roots, htouched, hroots, hcalc⟩ :=
    calculateHashes_remains hi hleaf hn hnd h hd hpos
  -- Both passes find as many roots.
  have hcount : (roots.map (remainHash slots dels)).length = idxs.length := by
    obtain ⟨-, _, cands, hcands, -, hmatched⟩ := verify_eq_ok hverify
    obtain ⟨_, roots', -, hroots', hcalc'⟩ := calculateHashes_forest hn hi.ne_empty
      (fun h hh => (hleaf h hh).1) h hd hpos []
    rw [List.append_nil] at hcalc'
    rw [leafNodes_eq (by omega) hnd h] at hroots'
    obtain rfl := hroots.unique hroots'
    dsimp only at hcands
    rw [hcalc'] at hcands
    cases hcands
    rw [List.length_map, ← hmatched, List.length_map]
  refine ⟨touched, htouched, ?_⟩
  have hrun : (⟨(forestTrees slots).map hashOpt, slots.length⟩ : Stump H).del dels
      ⟨targets, positions.map (slotHash slots)⟩ =
      .ok (⟨setRoots ((forestTrees slots).map hashOpt) idxs (roots.map (remainHash slots dels)),
          slots.length⟩,
        .ok (touched.map (remainHash slots dels), touched)) := by
    rw [Stump.del, hverify, Exec.ok_bind]
    dsimp only
    rw [hcalc, Exec.ok_bind]
    dsimp only
    rw [if_neg (not_not.mpr hcount), map_withHash_snd, map_withHash_fst]
  obtain ⟨-, -, hs⟩ := Stump.del_forest hi (by omega) hleaf hnd hlive hrun
  rw [hrun, hs]

end

end

end Utreexo
