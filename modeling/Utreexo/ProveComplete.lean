import Utreexo.ForestProof

/-! # Live leaves are proved

What `Prove` returns for live leaves is a proof with the hashes of the forest
(`Pollard.Represents.prove_live`), so that the Pollard itself and the Stump with its roots
accept it (`prove_complete`).
-/
namespace Utreexo
open Merkle

/-- Without leaves nothing is needed. -/
theorem proofPositions_none {H : Type} [HashOps H] {slots : List (Option H)}
    (hn : slots.length ≤ 2 ^ 63) :
    ∃ computed, proofPositions (sortPositions []) slots.length (treeRows slots.length) =
      .ok ([], computed) := by
  obtain ⟨positions, computed, hpos, hneeded, -⟩ :=
    proofPositions_forest hn List.Forall₂.nil List.nodup_nil
  have hnil : positions = [] := by
    refine hneeded.unique (Listing.of_empty ?_)
    rintro p ⟨x, ⟨⟨-, y, ⟨-, hy⟩, -⟩, -⟩, -⟩
    cases hy
  exact ⟨computed, hnil ▸ hpos⟩

section
variable {H M : Type} [HashOps H] [MiniHash H M] [DecidableEq H] [DecidableEq M]
  {slots : List (Option H)} {p : Pollard H M}
  (hinj : ∀ {a b c d : H}, parentHash a b = parentHash c d → a = c ∧ b = d)
  (hne : ∀ a b : H, parentHash a b ≠ empty)

omit [DecidableEq H] in
/-- The Pollard has the hashes of its forest. -/
theorem Pollard.RepresentsOn.getHash_slotHash {Q : M → Prop} (hp : p.RepresentsOn Q slots) {q : Nat}
    (hq : PlacedPos slots q) : p.getHash q = slotHash slots q := by
  obtain ⟨x, t, hx, rfl⟩ := hq
  rw [hp.getHash (placed_inForest hx),
    slotHash_nodePos hp.plain.counted (placed_inForest hx)]

include hinj hne

/-- **The proof of live leaves** whose keys lead to them. -/
theorem Pollard.RepresentsOn.prove_live {Q : M → Prop} (hp : p.RepresentsOn Q slots)
    {hashes : List H} (hd : hashes.Nodup) (hlive : ∀ h ∈ hashes, h ∈ liveLeaves slots)
    (hQ : ∀ h ∈ hashes, Q (mini h)) :
    ∃ targets positions computed,
      p.prove hashes = .ok (.ok ⟨targets, positions.map (slotHash slots)⟩) ∧
      List.Forall₂ (LeafAt slots) targets hashes ∧
      proofPositions (sortPositions targets) slots.length (treeRows slots.length) =
        .ok (positions, computed) := by
  by_cases hlist : hashes = []
  · subst hlist
    obtain ⟨computed, hpos⟩ := proofPositions_none hp.plain.counted
    exact ⟨[], [], computed, by simp [Pollard.prove], .nil, hpos⟩
  obtain ⟨h, hh⟩ := List.exists_mem_of_ne_nil hashes hlist
  have hnum := hp.numLeaves
  have hcount : (liveLeaves slots).length ≤ slots.length := List.length_filterMap_le _ _
  rcases (by omega : p.numLeaves = 0 ∨ p.numLeaves = 1 ∨ 2 ≤ p.numLeaves) with hn | hn | hn
  · have hpos := List.length_pos_of_mem (hlive h hh)
    omega
  · -- The only leaf is asked for.
    have hone : slots.length = 1 := by omega
    have hsingle : hashes = [h] := by
      have hle : hashes.length ≤ 1 := by
        have := (hd.subperm hlive).length_le
        omega
      obtain ⟨a, rfl⟩ := List.length_eq_one_iff.mp
        (Nat.le_antisymm hle (List.length_pos_of_mem hh))
      rw [List.mem_singleton.mp hh]
    refine ⟨[0], [], [], ?_, ?_, ?_⟩
    · rw [Pollard.prove, if_neg (by simp [hlist, hn]), if_pos hn]
      rfl
    · rw [hsingle]
      exact .cons ((leafAt_single hone).mpr ⟨hlive h hh, rfl⟩) .nil
    · rw [hone]
      decide
  · rcases hp.prove hinj hne hQ hlist hn with ⟨⟨h, hh, hnot⟩, -⟩ |
      ⟨-, targets, positions, computed, hrun, hts, hpos⟩
    · exact absurd ((hp.mem_nodeMap (hQ h hh)).mpr (List.mem_map_of_mem (hlive h hh))) hnot
    · have hts := leafAt_of_foundAt hp.keys hQ hts hlive
      refine ⟨targets, positions, computed, ?_, hts, hpos⟩
      have htargets : ∀ q ∈ targets, PlacedPos slots q := by
        intro q hq
        obtain ⟨g, -, hg⟩ := exists_of_mem_left hts hq
        exact hg.placedPos
      obtain ⟨positions', computed', hpos', hplaced⟩ :=
        proofPositions_placed hp.plain.counted htargets
      rw [hpos] at hpos'
      cases hpos'
      rw [hrun, List.map_congr_left fun q hq => hp.getHash_slotHash (hplaced q hq)]

theorem Pollard.Represents.prove_live (hp : p.Represents slots) {hashes : List H}
    (hd : hashes.Nodup) (hlive : ∀ h ∈ hashes, h ∈ liveLeaves slots) :
    ∃ targets positions computed,
      p.prove hashes = .ok (.ok ⟨targets, positions.map (slotHash slots)⟩) ∧
      List.Forall₂ (LeafAt slots) targets hashes ∧
      proofPositions (sortPositions targets) slots.length (treeRows slots.length) =
        .ok (positions, computed) :=
  hp.on.prove_live hinj hne hd hlive fun _ _ => trivial

/-- `Prove` returns the proof that the forest has. -/
theorem Pollard.Represents.prove_proves (hp : p.Represents slots) {hashes : List H}
    (hd : hashes.Nodup) (hlive : ∀ h ∈ hashes, h ∈ liveLeaves slots) :
    ∃ proof, p.prove hashes = .ok (.ok proof) ∧ proof.Proves slots hashes := by
  obtain ⟨targets, positions, computed, hrun, hts, hpos⟩ := hp.prove_live hinj hne hd hlive
  exact ⟨_, hrun, hts, positions, computed, hpos, rfl⟩

/-- **A proof with the hashes of the forest is accepted** by the Pollard and by the Stump with
its roots, which names the trees with a target. -/
theorem Pollard.Represents.accepts [SortAlg] (hp : p.Represents slots) {targets : List Nat}
    {hashes : List H} (h : List.Forall₂ (LeafAt slots) targets hashes) (hd : hashes.Nodup)
    {positions computed : List Nat}
    (hpos : proofPositions (sortPositions targets) slots.length (treeRows slots.length) =
      .ok (positions, computed)) (remember : Bool) :
    p.verify hashes ⟨targets, positions.map (slotHash slots)⟩ remember = .ok (.ok ()) ∧
    ∃ idxs, Utreexo.verify ⟨p.getRoots, p.numLeaves⟩ hashes
        ⟨targets, positions.map (slotHash slots)⟩ = .ok (.ok idxs) ∧ idxs.Pairwise (· > ·) ∧
      ∀ i, i ∈ idxs ↔ ∃ t, (forestTrees slots)[i]? = some t ∧
        ∃ a ∈ hashes, a ∈ CTree.leavesOpt t := by
  have hi : IdealHash H (LeafHash M) := ⟨hinj, hne, fun a b h => h.not_parent a b rfl⟩
  obtain ⟨idxs, hrun, hidxs⟩ := verify_forest hi hp.fine.isLeaf
    (fun h hh => (hp.fine.isLeaf h hh).ne_empty) hp.fine.counted hp.fine.nodup h hd hpos
  rw [← hp.getRoots, ← hp.numLeaves] at hrun
  refine ⟨?_, idxs, hrun, hidxs⟩
  by_cases hlist : hashes = []
  · subst hlist
    rfl
  · exact (Pollard.verify_iff_stump (s := ⟨p.getRoots, p.numLeaves⟩) rfl rfl hlist _ _).mpr
      ⟨idxs, hrun⟩

/-- **Proving is complete.**  For live leaves in any order a full Pollard returns their
positions and a proof that is accepted by the Pollard and by the Stump with its roots; the
root indexes are those of the trees with one of the leaves. -/
theorem prove_complete [SortAlg] {stack : List (PolBlock H × List H)} (hp : FullReach p stack)
    {hashes : List H} (hd : hashes.Nodup)
    (hlive : ∀ h ∈ hashes, h ∈ liveLeaves (stackSlots stack)) (remember : Bool) :
    ∃ proof, p.prove hashes = .ok (.ok proof) ∧
      List.Forall₂ (LeafAt (stackSlots stack)) proof.targets hashes ∧
      p.verify hashes proof remember = .ok (.ok ()) ∧
      ∃ idxs, Utreexo.verify ⟨p.getRoots, p.numLeaves⟩ hashes proof = .ok (.ok idxs) ∧
        idxs.Pairwise (· > ·) ∧
        ∀ i, i ∈ idxs ↔ ∃ t, (forestTrees (stackSlots stack))[i]? = some t ∧
          ∃ a ∈ hashes, a ∈ CTree.leavesOpt t := by
  have hp := hp.represents hne
  obtain ⟨targets, positions, computed, hrun, hts, hpos⟩ := hp.prove_live hinj hne hd hlive
  obtain ⟨hverify, hstump⟩ := hp.accepts hinj hne hts hd hpos remember
  exact ⟨_, hrun, hts, hverify, hstump⟩

end

section
attribute [local instance] SortAlg.stable

/-- The full Pollard after the run, with the forest it stands for. -/
theorem secondDeleted_reach :
    ∃ (p : Pollard FreeHash FreeHash) (stack : List (PolBlock FreeHash × List FreeHash)),
      FullReach p stack ∧
      stackSlots stack = [some (.leaf 0), none, some (.leaf 2), some (.leaf 3)] := by
  obtain ⟨hb, hb', -⟩ := secondDeleted_honest
  obtain ⟨p, hrun, hp⟩ := represents_newAccumulator.modify FreeHash.ideal.ne_empty hb
  obtain ⟨p', hrun', -⟩ := hp.modify FreeHash.ideal.ne_empty hb'
  exact ⟨p', _, .modify (.modify .new hb (by decide) hrun) hb' (by decide) hrun', rfl⟩

/-- Two of the leaves that are left, in the order of neither the slots nor the positions. -/
theorem prove_complete_secondDeleted :
    ∃ (p : Pollard FreeHash FreeHash) (proof : Proof FreeHash) (idxs : List Nat),
      p.prove [.leaf 3, .leaf 0] = .ok (.ok proof) ∧
      p.verify [.leaf 3, .leaf 0] proof false = .ok (.ok ()) ∧
      verify ⟨p.getRoots, p.numLeaves⟩ [.leaf 3, .leaf 0] proof = .ok (.ok idxs) ∧ 0 ∈ idxs := by
  obtain ⟨p, stack, hp, hslots⟩ := secondDeleted_reach
  obtain ⟨proof, hrun, -, hverify, idxs, hstump, -, hidxs⟩ := prove_complete
    FreeHash.ideal.inj FreeHash.ideal.ne_empty hp
    (show [FreeHash.leaf 3, FreeHash.leaf 0].Nodup by decide)
    (by rw [hslots]; decide) false
  refine ⟨p, proof, idxs, hrun, hverify, hstump, (hidxs 0).mpr ?_⟩
  rw [hslots]
  exact ⟨_, rfl, .leaf 0, by decide, by decide⟩

end

end Utreexo
