import Utreexo.MissingPositions
import Utreexo.ProveComplete

/-! # Adding two proofs

The proof of two sets of targets together needs what either of them needs, less what is
computed on the way or is a target itself (`needed_union`).  `AddProof` merges and subtracts
the positions in that way and keeps the hashes that go with them.
-/
namespace Merkle

/-- What two sets of targets need together. -/
theorem needed_union {n : Nat} {T D : Set Node} (hT : ∀ t ∈ T, t.InForest n)
    (hD : ∀ t ∈ D, t.InForest n) :
    {x | Needed n (T ∪ D) x} = (({x | Needed n T x} ∪ {x | Needed n D x}) \
      ({x | Computed n T x} ∪ {x | Computed n D x})) \ (T ∪ D) := by
  ext x
  constructor
  · rintro ⟨hs, hr, hx⟩
    rw [touched_union, not_or] at hx
    refine ⟨⟨?_, ?_⟩, ?_⟩
    · exact (touched_union.mp hs).imp (fun h => ⟨h, hr, hx.1⟩) fun h => ⟨h, hr, hx.2⟩
    · rintro (h | h)
      · exact hx.1 (Computed.touched h)
      · exact hx.2 (Computed.touched h)
    · rintro (h | h)
      · exact hx.1 (.of_mem hT h)
      · exact hx.2 (.of_mem hD h)
  · rintro ⟨⟨hneed, hcomp⟩, hmem⟩
    have hx : ¬ Touched n (T ∪ D) x := by
      rw [touched_union]
      rintro (h | h)
      · exact h.mem_or_computed.elim (fun h => hmem (Or.inl h)) fun h => hcomp (Or.inl h)
      · exact h.mem_or_computed.elim (fun h => hmem (Or.inr h)) fun h => hcomp (Or.inr h)
    rcases hneed with ⟨hs, hr, -⟩ | ⟨hs, hr, -⟩
    · exact ⟨touched_union.mpr (Or.inl hs), hr, hx⟩
    · exact ⟨touched_union.mpr (Or.inr hs), hr, hx⟩

end Merkle

namespace Utreexo
open Merkle

section
variable {H : Type} {slots : List (Option H)} {targetsA targetsB : List Nat}

theorem leafNodes_union (slots : List (Option H)) {targetsC : List Nat}
    (hC : ∀ t, t ∈ targetsC ↔ t ∈ targetsA ∨ t ∈ targetsB) :
    leafNodes slots targetsC = leafNodes slots targetsA ∪ leafNodes slots targetsB := by
  ext x
  constructor
  · rintro ⟨hx, ht⟩
    exact ((hC _).mp ht).imp (fun h => ⟨hx, h⟩) fun h => ⟨hx, h⟩
  · rintro (⟨hx, ht⟩ | ⟨hx, ht⟩)
    · exact ⟨hx, (hC _).mpr (Or.inl ht)⟩
    · exact ⟨hx, (hC _).mpr (Or.inr ht)⟩

variable [HashOps H] (hn : slots.length ≤ 2 ^ 63)
include hn

/-- Positions of leaves with their hashes. -/
theorem leafAt_map {targets : List Nat} (h : ∀ t ∈ targets, ∃ a, LeafAt slots t a) :
    List.Forall₂ (LeafAt slots) targets (targets.map (slotHash slots)) := by
  induction targets with
  | nil => exact .nil
  | cons t targets ih =>
    obtain ⟨⟨a, ha⟩, h⟩ := List.forall_mem_cons.mp h
    refine .cons ?_ (ih h)
    rwa [ha.slotHash_eq hn]

/-- Leaves at different positions have different hashes. -/
theorem slotHash_nodup (hnd : (liveLeaves slots).Nodup) {targets : List Nat}
    (h : ∀ t ∈ targets, ∃ a, LeafAt slots t a) (hd : targets.Nodup) :
    (targets.map (slotHash slots)).Nodup := by
  refine List.Nodup.map_on (fun t ht u hu he => ?_) hd
  obtain ⟨a, ha⟩ := h t ht
  obtain ⟨b, hb⟩ := h u hu
  rw [ha.slotHash_eq hn, hb.slotHash_eq hn] at he
  subst he
  obtain ⟨x, hx, rfl⟩ := ha
  obtain ⟨y, hy, rfl⟩ := hb
  rw [placed_leaf_unique (by omega) hnd hx hy]

/-- **The union of two proofs with the hashes of the forest.** -/
theorem addProof_forest [SortAlg] {hashesA hashesB : List H}
    (hA : List.Forall₂ (LeafAt slots) targetsA hashesA) (hdA : hashesA.Nodup)
    (hB : List.Forall₂ (LeafAt slots) targetsB hashesB) (hdB : hashesB.Nodup)
    {posA compA posB compB : List Nat}
    (hposA : proofPositions (sortPositions targetsA) slots.length (treeRows slots.length) =
      .ok (posA, compA))
    (hposB : proofPositions (sortPositions targetsB) slots.length (treeRows slots.length) =
      .ok (posB, compB)) :
    ∃ targetsC posC compC,
      addProof ⟨targetsA, posA.map (slotHash slots)⟩ ⟨targetsB, posB.map (slotHash slots)⟩
        hashesA hashesB slots.length =
        .ok (targetsC.map (slotHash slots), ⟨targetsC, posC.map (slotHash slots)⟩) ∧
      Listing targetsC {t | t ∈ targetsA ∨ t ∈ targetsB} ∧
      proofPositions targetsC slots.length (treeRows slots.length) = .ok (posC, compC) := by
  have hk := le_two_pow_treeRows slots.length
  obtain ⟨posA', compA', hrunA, hneedA, hcompA⟩ := proofPositions_forest hn hA hdA
  obtain ⟨posB', compB', hrunB, hneedB, hcompB⟩ := proofPositions_forest hn hB hdB
  rw [hposA] at hrunA
  cases hrunA
  rw [hposB] at hrunB
  cases hrunB
  have hdA := targets_nodup hn hA hdA
  have hdB := targets_nodup hn hB hdB
  have htargets := mergeSlices_listing (sort_listing hdA) (sort_listing hdB)
  have hnodes := mergeSlices_listing ((sort_listing hdA).congr (mem_targets_iff hA))
    ((sort_listing hdB).congr (mem_targets_iff hB))
  have hunion := leafNodes_union slots htargets.mem
  rw [← Set.image_union, ← hunion] at hnodes
  obtain ⟨posC, compC, hrunC, hneedC, -⟩ := proofPositions_sweep (treeRows_le hn) hk
    inForest_of_leafNodes (antichain_leafNodes (by omega)) hnodes
  -- The positions that are left are those that the union needs.
  have hleft := subtractSlice_listing (subtractSlice_listing (mergeSlices_listing hneedA hneedB)
    (mergeSlices_listing hcompA hcompB)) hnodes
  rw [← Set.image_union, ← Set.image_union, ← nodePos_image_sdiff hk, ← nodePos_image_sdiff hk,
    hunion, ← needed_union inForest_of_leafNodes inForest_of_leafNodes, ← hunion] at hleft
  · refine ⟨_, posC, compC, ?_, htargets, hrunC⟩
    rw [hashes_eq_map hn hA, hashes_eq_map hn hB, addProof]
    simp only [copySorted, hposA, hposB, Exec.ok_bind, zip_map_eq, toHashAndPos_withHash _ hdA,
      toHashAndPos_withHash _ hdB, mergeSortedHashAndPos_withHash,
      subtractSortedHashAndPos_withHash, map_withHash_snd, hleft.unique hneedC]
  · rintro y ⟨hy | hy, -⟩
    · exact Needed.inForest hy
    · exact Needed.inForest hy
  · exact inForest_of_leafNodes
  · rintro y (hy | hy)
    · exact Needed.inForest hy
    · exact Needed.inForest hy
  · rintro y (hy | hy)
    · exact hy.1
    · exact hy.1

end

section
variable {H M : Type} [HashOps H] [MiniHash H M] [DecidableEq H] [DecidableEq M] [SortAlg]
  {p : Pollard H M}

/-- **Adding two proofs is proving the union.**  The targets are those of both proofs in
ascending order, each with the hash of its leaf, and the proof has the hashes of the forest
at the positions that `proofPositions` lists for them; the Pollard and the Stump with its
roots accept it. -/
theorem add_proof_union
    (hinj : ∀ {a b c d : H}, parentHash a b = parentHash c d → a = c ∧ b = d)
    (hne : ∀ a b : H, parentHash a b ≠ empty) {stack : List (PolBlock H × List H)}
    (hp : FullReach p stack) {hashesA hashesB : List H} (hdA : hashesA.Nodup)
    (hdB : hashesB.Nodup) (hliveA : ∀ h ∈ hashesA, h ∈ liveLeaves (stackSlots stack))
    (hliveB : ∀ h ∈ hashesB, h ∈ liveLeaves (stackSlots stack)) {proofA proofB : Proof H}
    (hA : p.prove hashesA = .ok (.ok proofA)) (hB : p.prove hashesB = .ok (.ok proofB))
    (remember : Bool) :
    ∃ hashes proof positions computed,
      addProof proofA proofB hashesA hashesB p.numLeaves = .ok (hashes, proof) ∧
      proof.targets.Pairwise (· < ·) ∧
      (∀ t, t ∈ proof.targets ↔ t ∈ proofA.targets ∨ t ∈ proofB.targets) ∧
      List.Forall₂ (LeafAt (stackSlots stack)) proof.targets hashes ∧
      proofPositions proof.targets p.numLeaves (treeRows p.numLeaves) =
        .ok (positions, computed) ∧
      proof.proof = positions.map (slotHash (stackSlots stack)) ∧
      p.verify hashes proof remember = .ok (.ok ()) ∧
      ∃ idxs, verify ⟨p.getRoots, p.numLeaves⟩ hashes proof = .ok (.ok idxs) := by
  have hp := hp.represents hne
  generalize stackSlots stack = slots at *
  have hn := hp.fine.counted
  obtain ⟨targetsA, posA, compA, hrunA, htsA, hposA⟩ := hp.prove_live hinj hne hdA hliveA
  obtain ⟨targetsB, posB, compB, hrunB, htsB, hposB⟩ := hp.prove_live hinj hne hdB hliveB
  rw [hrunA] at hA
  cases hA
  rw [hrunB] at hB
  cases hB
  obtain ⟨targetsC, posC, compC, hrun, hlist, hposC⟩ :=
    addProof_forest hn htsA hdA htsB hdB hposA hposB
  have hleaf : ∀ t ∈ targetsC, ∃ a, LeafAt slots t a := by
    intro t ht
    rcases (hlist.mem t).mp ht with ht | ht
    · obtain ⟨a, -, ha⟩ := exists_of_mem_left htsA ht
      exact ⟨a, ha⟩
    · obtain ⟨a, -, ha⟩ := exists_of_mem_left htsB ht
      exact ⟨a, ha⟩
  have htsC := leafAt_map hn hleaf
  obtain ⟨hverify, idxs, hstump, -⟩ := hp.accepts hinj hne htsC
    (slotHash_nodup hn hp.fine.nodup hleaf hlist.nodup)
    ((sortPositions_eq_self hlist).symm ▸ hposC) remember
  rw [← hp.numLeaves] at hrun hposC
  exact ⟨_, _, posC, compC, hrun, hlist.sorted, hlist.mem, htsC, hposC, rfl, hverify, idxs, hstump⟩

end

section
attribute [local instance] SortAlg.stable

/-- Two proofs that overlap. -/
theorem add_proof_union_secondDeleted :
    ∃ (p : Pollard FreeHash FreeHash) (proofA proofB : Proof FreeHash) (hashes : List FreeHash)
      (proof : Proof FreeHash),
      p.prove [.leaf 3, .leaf 0] = .ok (.ok proofA) ∧
      p.prove [.leaf 2, .leaf 3] = .ok (.ok proofB) ∧
      addProof proofA proofB [.leaf 3, .leaf 0] [.leaf 2, .leaf 3] p.numLeaves =
        .ok (hashes, proof) ∧
      p.verify hashes proof false = .ok (.ok ()) := by
  obtain ⟨p, stack, hp, hslots⟩ := secondDeleted_reach
  have hrep := hp.represents FreeHash.ideal.ne_empty
  have hliveA : ∀ h ∈ [FreeHash.leaf 3, FreeHash.leaf 0], h ∈ liveLeaves (stackSlots stack) := by
    rw [hslots]
    decide
  have hliveB : ∀ h ∈ [FreeHash.leaf 2, FreeHash.leaf 3], h ∈ liveLeaves (stackSlots stack) := by
    rw [hslots]
    decide
  obtain ⟨tA, posA, -, hA, -⟩ := hrep.prove_live FreeHash.ideal.inj FreeHash.ideal.ne_empty
    (by decide) hliveA
  obtain ⟨tB, posB, -, hB, -⟩ := hrep.prove_live FreeHash.ideal.inj FreeHash.ideal.ne_empty
    (by decide) hliveB
  obtain ⟨hashes, proof, -, -, hrun, -, -, -, -, -, hverify, -⟩ := add_proof_union
    FreeHash.ideal.inj FreeHash.ideal.ne_empty hp (by decide) (by decide) hliveA hliveB hA hB false
  exact ⟨p, _, _, hashes, proof, hA, hB, hrun, hverify⟩

end

end Utreexo
