import Utreexo.CalculateCollapse
import Utreexo.PollardProve
import Utreexo.StumpSound
import Utreexo.VerifyAgree

/-! # Proofs with the hashes of the forest

A proof whose targets are the positions of leaves, and whose hashes are those that the
forest has at the positions `proofPositions` names.  On such a proof every hash that
`calculateHashes` computes is the one of the forest (`calculateHashes_forest`), and the
verifiers find the roots of the trees with a target, and no others (`verify_forest`).
-/
namespace Utreexo
open Merkle

theorem exists_of_mem_left {α β : Type} {R : α → β → Prop} {l : List α} {m : List β}
    (h : List.Forall₂ R l m) {a : α} (ha : a ∈ l) : ∃ b ∈ m, R a b := by
  induction h with
  | nil => cases ha
  | cons hab _ ih =>
    rcases List.mem_cons.mp ha with rfl | ha
    · exact ⟨_, List.mem_cons_self, hab⟩
    · obtain ⟨b, hb, hr⟩ := ih ha
      exact ⟨b, List.mem_cons_of_mem _ hb, hr⟩

section
variable {H : Type} {slots : List (Option H)} {targets : List Nat} {hashes : List H} {x : Node}

/-! ### The hashes of the forest -/

/-- The hash that the forest has at a position. -/
def slotHash [HashOps H] (slots : List (Option H)) (p : Nat) : H :=
  hashOpt (placed slots (nodeAt (treeRows slots.length) p))

/-- The proof that the forest has for the leaves: their positions, and the hashes at the positions
that `proofPositions` names for them. -/
structure Proof.Proves [HashOps H] (slots : List (Option H)) (hashes : List H) (proof : Proof H) :
    Prop where
  targets : List.Forall₂ (LeafAt slots) proof.targets hashes
  needed : ∃ positions computed, proofPositions (sortPositions proof.targets) slots.length
    (treeRows slots.length) = .ok (positions, computed) ∧
      proof.proof = positions.map (slotHash slots)

/-- The leaves at the targets. -/
def leafNodes (slots : List (Option H)) (targets : List Nat) : Set Node :=
  {x | (∃ h, placed slots x = some (.leaf h)) ∧ nodePos (treeRows slots.length) x ∈ targets}

theorem inForest_of_leafNodes : ∀ x ∈ leafNodes slots targets, x.InForest slots.length := by
  rintro x ⟨⟨h, hx⟩, -⟩
  exact placed_inForest hx

theorem antichain_leafNodes (hn : slots.length < 2 ^ 64) :
    IsAntichain Node.Above (leafNodes slots targets) := by
  rintro x ⟨⟨a, hx⟩, -⟩ y ⟨⟨b, hy⟩, -⟩ hne
  exact (placed_leaf_apart hn hx hy hne).1

theorem mem_targets_iff (h : List.Forall₂ (LeafAt slots) targets hashes) (p : Nat) :
    p ∈ targets ↔ p ∈ nodePos (treeRows slots.length) '' leafNodes slots targets := by
  constructor
  · intro hp
    obtain ⟨a, -, y, hy, rfl⟩ := exists_of_mem_left h hp
    exact ⟨y, ⟨⟨a, hy⟩, hp⟩, rfl⟩
  · rintro ⟨y, ⟨-, hy⟩, rfl⟩
    exact hy

/-- Touched nodes hold subtrees. -/
theorem Touched.exists_placed (hn : slots.length < 2 ^ 64)
    (h : Touched slots.length (leafNodes slots targets) x) : ∃ t, placed slots x = some t := by
  obtain ⟨hx, y, ⟨⟨a, hy⟩, -⟩, ha⟩ := h
  cases ht : placed slots x with
  | some t => exact ⟨t, rfl⟩
  | none =>
    rw [placed_below_none hn hx ht ha] at hy
    cases hy

variable [HashOps H] (hn : slots.length ≤ 2 ^ 63)
include hn

theorem slotHash_nodePos (hx : x.InForest slots.length) :
    slotHash slots (nodePos (treeRows slots.length) x) = hashOpt (placed slots x) := by
  rw [slotHash, nodeAt_nodePos (treeRows_le hn) (fits_of_inForest (le_two_pow_treeRows _) hx)]

theorem LeafAt.slotHash_eq {t : Nat} {h : H} (ht : LeafAt slots t h) : slotHash slots t = h := by
  obtain ⟨x, hx, rfl⟩ := ht
  rw [slotHash_nodePos hn (placed_inForest hx), hx]
  rfl

theorem hashes_eq_map (h : List.Forall₂ (LeafAt slots) targets hashes) :
    hashes = targets.map (slotHash slots) := by
  induction h with
  | nil => rfl
  | cons ht _ ih => rw [List.map_cons, ← ih, ht.slotHash_eq hn]

theorem targets_nodup (h : List.Forall₂ (LeafAt slots) targets hashes) (hd : hashes.Nodup) :
    targets.Nodup := by
  rw [hashes_eq_map hn h] at hd
  exact hd.of_map

/-- The positions that the proof of leaves needs. -/
theorem proofPositions_forest (h : List.Forall₂ (LeafAt slots) targets hashes)
    (hd : hashes.Nodup) :
    ∃ positions computed, proofPositions (sortPositions targets) slots.length
        (treeRows slots.length) = .ok (positions, computed) ∧
      Listing positions (nodePos (treeRows slots.length) ''
        {x | Needed slots.length (leafNodes slots targets) x}) ∧
      Listing computed (nodePos (treeRows slots.length) ''
        {x | Computed slots.length (leafNodes slots targets) x}) :=
  proofPositions_sweep (treeRows_le hn) (le_two_pow_treeRows _) inForest_of_leafNodes
    (antichain_leafNodes (by omega))
    ((sort_listing (targets_nodup hn h hd)).congr (mem_targets_iff h))

variable [DecidableEq H]

/-- The hashes of the forest are computed from one another. -/
theorem hashing_slotHash (hne : ∀ a b : H, parentHash a b ≠ empty)
    (hleaf : ∀ h ∈ liveLeaves slots, h ≠ empty) :
    Hashing slots.length (treeRows slots.length) (leafNodes slots targets) getNextHash
      (slotHash slots) := by
  intro x hx hr
  obtain ⟨t, ht⟩ := Touched.exists_placed (by omega) hx
  have hpar := hx.1.parent hr
  obtain ⟨S, hS, hP⟩ := placed_parent (by omega) hpar ht
  have hval : ∀ {y : Node} {u : CTree H}, placed slots y = some u → treeHash u ≠ empty :=
    fun hy => treeHash_ne_empty hne fun h hh => hleaf h (placed_leaves_subset hy h hh)
  rw [slotHash_nodePos hn hpar, slotHash_nodePos hn hx.1, slotHash_nodePos hn (hx.1.sibling hr), ht,
    hS, hP, getNextHash, isLeftNiece_nodePos (fits_of_inForest (le_two_pow_treeRows _) hx.1),
    hashOpt_some, hashOpt_some, hashOpt_some, if_neg (hval ht), if_neg (hval hS)]
  by_cases hodd : x.off % 2 = 0
  · simp [Node.isRight, hodd]
  · have hodd' : x.off % 2 = 1 := by omega
    simp [Node.isRight, hodd']

/-- **The hashes that are computed are those of the forest.**  Hashes that are left over are not
read. -/
theorem calculateHashes_forest [SortAlg] (hne : ∀ a b : H, parentHash a b ≠ empty)
    (hleaf : ∀ h ∈ liveLeaves slots, h ≠ empty)
    (h : List.Forall₂ (LeafAt slots) targets hashes) (hd : hashes.Nodup)
    {positions computed : List Nat} (hpos : proofPositions (sortPositions targets) slots.length
      (treeRows slots.length) = .ok (positions, computed)) (extra : List H) :
    ∃ touched roots,
      Listing touched (nodePos (treeRows slots.length) ''
        {x | Touched slots.length (leafNodes slots targets) x}) ∧
      Listing roots (nodePos (treeRows slots.length) ''
        {x | Touched slots.length (leafNodes slots targets) x ∧ x.IsRoot slots.length}) ∧
      calculateHashes slots.length (some hashes)
          ⟨targets, positions.map (slotHash slots) ++ extra⟩ =
        .ok (touched.map (withHash (slotHash slots)), roots.map (slotHash slots)) := by
  obtain ⟨positions', computed', hpos', hneeded, -⟩ := proofPositions_forest hn h hd
  rw [hpos] at hpos'
  cases hpos'
  have hdel : (some hashes).getD (List.replicate targets.length empty) =
      targets.map (slotHash slots) := hashes_eq_map hn h
  exact calculateHashes_sweep hn inForest_of_leafNodes (antichain_leafNodes (by omega))
    (hashing_slotHash hn hne hleaf) (targets_nodup hn h hd) (mem_targets_iff h) hneeded hdel extra

end

/-! ### Matching the roots -/

section
variable {H α : Type} [DecidableEq H]

/-- Candidates that are the values of some of the rows are matched with those rows, if no
other row has the same value. -/
theorem matchRoots_filter (f : α → H) (P : α → Prop) [DecidablePred P] {rs : List α}
    (hnodup : rs.Nodup) (hf : ∀ r ∈ rs, ∀ r' ∈ rs, P r' → f r = f r' → r = r') (acc : List Nat) :
    ∃ idxs, matchRoots (rs.map f) ((rs.filter P).map f) acc = acc ++ idxs ∧
      idxs.length = (rs.filter P).length ∧ idxs.Pairwise (· > ·) ∧
      ∀ i, i ∈ idxs ↔ ∃ r, rs.reverse[i]? = some r ∧ P r := by
  induction rs generalizing acc with
  | nil => exact ⟨[], by simp [matchRoots], rfl, .nil, by simp⟩
  | cons r rs ih =>
    obtain ⟨hr, hnodup⟩ := List.nodup_cons.mp hnodup
    have hf' : ∀ r ∈ rs, ∀ r' ∈ rs, P r' → f r = f r' → r = r' :=
      fun a ha b hb => hf a (List.mem_cons_of_mem _ ha) b (List.mem_cons_of_mem _ hb)
    -- The indexes of the rows above, and the one of this row.
    have hidx : ∀ i s, (r :: rs).reverse[i]? = some s ↔
        rs.reverse[i]? = some s ∨ i = rs.length ∧ r = s := by
      intro i s
      rw [List.reverse_cons, List.getElem?_append]
      split
      · rename_i hlt
        rw [List.length_reverse] at hlt
        constructor
        · exact Or.inl
        · rintro (h | ⟨h, -⟩)
          · exact h
          · omega
      · rename_i hge
        rw [List.length_reverse] at hge ⊢
        have hnone : rs.reverse[i]? = none := by
          rw [List.getElem?_eq_none_iff, List.length_reverse]
          omega
        rw [hnone]
        rcases Nat.eq_or_lt_of_le (Nat.le_of_not_lt hge) with rfl | hlt
        · simp
        · have : ([r] : List α)[i - rs.length]? = none := by
            rw [List.getElem?_eq_none_iff, List.length_singleton]
            omega
          rw [this]
          simp
          omega
    by_cases hP : P r
    · obtain ⟨idxs, h1, h2, hdesc, h3⟩ := ih hnodup hf' (acc ++ [rs.length])
      refine ⟨rs.length :: idxs, ?_, ?_, List.pairwise_cons.mpr ⟨fun i hi => ?_, hdesc⟩,
        fun i => ?_⟩
      · rw [List.filter_cons_of_pos (by simpa using hP), List.map_cons, List.map_cons, matchRoots,
          if_pos rfl, List.length_map, h1, List.append_assoc, List.singleton_append]
      · rw [List.filter_cons_of_pos (by simpa using hP), List.length_cons, List.length_cons, h2]
      · obtain ⟨s, hs, -⟩ := (h3 i).mp hi
        have hlt := (List.getElem?_eq_some_iff.mp hs).1
        rwa [List.length_reverse] at hlt
      · rw [List.mem_cons, h3]
        constructor
        · rintro (rfl | ⟨s, hs, hPs⟩)
          · exact ⟨r, (hidx _ r).mpr (Or.inr ⟨rfl, rfl⟩), hP⟩
          · exact ⟨s, (hidx i s).mpr (Or.inl hs), hPs⟩
        · rintro ⟨s, hs, hPs⟩
          rcases (hidx i s).mp hs with hs | ⟨hi, -⟩
          · exact Or.inr ⟨s, hs, hPs⟩
          · exact Or.inl hi
    · obtain ⟨idxs, h1, h2, hdesc, h3⟩ := ih hnodup hf' acc
      have hskip : matchRoots ((r :: rs).map f) ((rs.filter P).map f) acc =
          matchRoots (rs.map f) ((rs.filter P).map f) acc := by
        cases hc : rs.filter P with
        | nil => rfl
        | cons c cs =>
          have hmem : c ∈ rs.filter P := by rw [hc]; exact List.mem_cons_self
          rw [List.mem_filter, decide_eq_true_iff] at hmem
          rw [List.map_cons, List.map_cons, matchRoots, if_neg]
          intro he
          have := hf r List.mem_cons_self c (List.mem_cons_of_mem _ hmem.1) hmem.2 he
          exact hr (this ▸ hmem.1)
      refine ⟨idxs, ?_, ?_, hdesc, fun i => ?_⟩
      · rw [List.filter_cons_of_neg (by simpa using hP), hskip, h1]
      · rw [List.filter_cons_of_neg (by simpa using hP), h2]
      · rw [h3]
        constructor
        · rintro ⟨s, hs, hPs⟩
          exact ⟨s, (hidx i s).mpr (Or.inl hs), hPs⟩
        · rintro ⟨s, hs, hPs⟩
          rcases (hidx i s).mp hs with hs | ⟨-, rfl⟩
          · exact ⟨s, hs, hPs⟩
          · exact absurd hPs hP

end

/-! ### The trees with a target -/

section
variable {H : Type} {slots : List (Option H)} {targets : List Nat} {hashes : List H}
  (hn : slots.length ≤ 2 ^ 63) (hnd : (liveLeaves slots).Nodup)
  (h : List.Forall₂ (LeafAt slots) targets hashes)
include hn hnd h

/-- A root is above a target exactly if its tree has a leaf of the list. -/
theorem root_above_iff {r : Nat} (hr : r ∈ rootRows slots.length 0) :
    (∃ x ∈ leafNodes slots targets, (Node.rootAt slots.length r).Above x) ↔
      ∃ a ∈ hashes, a ∈ CTree.leavesOpt (rootTree slots r) := by
  -- A placed leaf belongs to the tree of the root above it.
  have hleaf : ∀ {x : Node} {a : H} {j : Nat}, placed slots x = some (.leaf a) →
      (x.up j).IsRoot slots.length → a ∈ CTree.leavesOpt (rootTree slots (x.row + j)) := by
    intro x a j hx hj
    rw [placed_eq (by omega) hj] at hx
    obtain ⟨t, ht, hx⟩ := Option.bind_eq_some_iff.mp hx
    rw [ht]
    exact CTree.mem_leaves_of_subAt hx
  constructor
  · rintro ⟨x, ⟨⟨a, hx⟩, hmem⟩, j, hj⟩
    obtain ⟨b, hb, y, hy, hye⟩ := exists_of_mem_left h hmem
    obtain rfl := nodePos_inj (le_two_pow_treeRows _) (placed_inForest hy) (placed_inForest hx) hye
    rw [hx] at hy
    cases hy
    have hroot := Node.rootAt_isRoot (mem_rootRows.mp hr).2.2
    have hrow := congrArg Node.row hj
    rw [Node.up_row] at hrow
    rw [← hj] at hroot
    refine ⟨a, hb, ?_⟩
    have hmem := hleaf hx hroot
    rwa [hrow] at hmem
  · rintro ⟨a, ha, hat⟩
    obtain ⟨t, ht, x, hx, rfl⟩ := exists_of_mem_left h.flip ha
    obtain ⟨j, hj⟩ := (placed_inForest hx).exists_root
    have hmem := mem_rootRows_of_isRoot (by omega : slots.length < 2 ^ 64) hj
    have hrow : r = x.row + j := by
      by_contra hne
      exact rootTree_leaves_disjoint (by omega) hnd hr hmem hne hat (hleaf hx hj)
    refine ⟨x, ⟨⟨_, hx⟩, ht⟩, j, ?_⟩
    rw [(Node.isRoot_iff_rootAt.mp hj).2, Node.up_row, ← hrow]

end

/-! ### The verifiers accept -/

section
variable {H : Type} [DecidableEq H] [HashOps H] {slots : List (Option H)} {targets : List Nat}
  {hashes : List H} {leaf : H → Prop} (hi : IdealHash H leaf)
  (hleaf : ∀ h ∈ liveLeaves slots, leaf h) (hne : ∀ h ∈ liveLeaves slots, h ≠ empty)
  (hn : slots.length ≤ 2 ^ 63) (hnd : (liveLeaves slots).Nodup)
include hi hleaf hne hn hnd

omit [DecidableEq H] in
/-- A root with a leaf has a hash that no other root has. -/
theorem rootHash_inj {r r' : Nat} (hr : r ∈ rootRows slots.length 0)
    (hr' : r' ∈ rootRows slots.length 0) {a : H} (ha : a ∈ CTree.leavesOpt (rootTree slots r'))
    (he : hashOpt (rootTree slots r) = hashOpt (rootTree slots r')) : r = r' := by
  cases ht' : rootTree slots r' with
  | none =>
    rw [ht'] at ha
    cases ha
  | some t' =>
    rw [ht'] at he
    exact rootTree_hash_inj hi (by omega) hnd (fun h hh => ⟨hleaf h hh, hne h hh⟩) hr hr' ht' he

variable [SortAlg] (h : List.Forall₂ (LeafAt slots) targets hashes) (hd : hashes.Nodup)
include h hd

/-- **A Stump accepts a proof with the hashes of its forest**, and names the trees with a
target. -/
theorem verify_forest {positions computed : List Nat}
    (hpos : proofPositions (sortPositions targets) slots.length (treeRows slots.length) =
      .ok (positions, computed)) :
    ∃ idxs, verify ⟨(forestTrees slots).map hashOpt, slots.length⟩ hashes
        ⟨targets, positions.map (slotHash slots)⟩ = .ok (.ok idxs) ∧ idxs.Pairwise (· > ·) ∧
      ∀ i, i ∈ idxs ↔ ∃ t, (forestTrees slots)[i]? = some t ∧
        ∃ a ∈ hashes, a ∈ CTree.leavesOpt t := by
  classical
  obtain ⟨touched, roots, -, hroots, hcalc⟩ :=
    calculateHashes_forest hn hi.ne_empty hne h hd hpos []
  rw [List.append_nil] at hcalc
  have hrows := hroots.unique (listing_touched_roots (le_two_pow_treeRows _) (by omega)
    (fun r => ∃ x ∈ leafNodes slots targets, (Node.rootAt slots.length r).Above x)
    fun r => Iff.rfl)
  have hcands : roots.map (slotHash slots) = ((rootRows slots.length 0).reverse.filter
      fun r => ∃ x ∈ leafNodes slots targets, (Node.rootAt slots.length r).Above x).map
        fun r => hashOpt (rootTree slots r) := by
    rw [hrows, List.map_map]
    refine List.map_congr_left fun r hr => ?_
    have hroot := Node.rootAt_isRoot
      (mem_rootRows.mp (List.mem_reverse.mp (List.mem_filter.mp hr).1)).2.2
    rw [Function.comp_apply, slotHash_nodePos hn hroot.inForest, placed_root (by omega) hroot]
    rfl
  have hreverse : ((forestTrees slots).map hashOpt).reverse =
      (rootRows slots.length 0).reverse.map fun r => hashOpt (rootTree slots r) := by
    rw [forestTrees, List.map_map, ← List.map_reverse]
    rfl
  obtain ⟨idxs, hmatch, hlen, hdesc, hidx⟩ := matchRoots_filter
      (fun r => hashOpt (rootTree slots r))
    (fun r => ∃ x ∈ leafNodes slots targets, (Node.rootAt slots.length r).Above x)
    (List.nodup_reverse.mpr ((rootRows_pairwise slots.length 0).imp ne_of_gt))
    (fun r hr r' hr' hP he => by
      rw [List.mem_reverse] at hr hr'
      obtain ⟨a, -, ha⟩ := (root_above_iff hn hnd h hr').mp hP
      exact rootHash_inj hi hleaf hne hn hnd hr hr' ha he) []
  rw [List.nil_append] at hmatch
  refine ⟨idxs, ?_, hdesc, fun i => ?_⟩
  · rw [verify, if_neg (not_not.mpr h.length_eq.symm)]
    simp only [hcalc, Exec.ok_bind, hreverse, hcands, hmatch, List.length_map, hlen, ne_eq,
      not_true_eq_false, if_false]
  · rw [hidx, List.reverse_reverse, forestTrees, List.getElem?_map]
    constructor
    · rintro ⟨r, hr, hP⟩
      refine ⟨rootTree slots r, by rw [hr]; rfl, ?_⟩
      exact (root_above_iff hn hnd h (List.mem_of_getElem? hr)).mp hP
    · rintro ⟨t, ht, ha⟩
      obtain ⟨r, hr, rfl⟩ := Option.map_eq_some_iff.mp ht
      exact ⟨r, hr, (root_above_iff hn hnd h (List.mem_of_getElem? hr)).mpr ha⟩

end

end Utreexo
