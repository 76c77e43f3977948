import Utreexo.MapRun
import Utreexo.UndoRun

/-! # What holds of every MapPollard that is reached

After any honest calls a MapPollard is the forest of the leaves, pruned to the cached ones.
-/
namespace Utreexo
open Merkle

section
variable {H : Type} [DecidableEq H] [HashOps H]

/-- The hash that the forest has at a position in the numbering of the map. -/
def MapPollard.forestHash (m : MapPollard H) (slots : List (Option H)) (pos : Nat) : H :=
  slotHash slots (translatePos pos m.totalRows (treeRows m.numLeaves))

/-- **A MapPollard after honest calls of `Verify` and `Modify`.**  The stack has the blocks,
the last one first, each with the roots before it.  `Modify` reads only
the targets of its proof. -/
inductive MapHistory [SortAlg] : MapPollard H → List (PolBlock H × List H) → Prop
  | new {rows : Nat} : rows ≤ 63 → MapHistory ⟨∅, ∅, 0, rows⟩ []
  | verify {m m' : MapPollard H} {stack : List (PolBlock H × List H)} {hashes : List H}
      {proof : Proof H} :
      MapHistory m stack → hashes.Nodup → proof.Proves (stackSlots stack) hashes →
      m.verify hashes proof true = .ok (m', .ok ()) → MapHistory m' stack
  | modify {m m' : MapPollard H} {stack : List (PolBlock H × List H)} {b : PolBlock H} :
      MapHistory m stack → b.Plain (stackSlots stack) → b.adds.length < 2 ^ 63 →
      (∀ a ∈ b.dels, a ∈ m.cachedLeaves) → m.modify b.adds b.dels b.proof = .ok (m', .ok ()) →
      MapHistory m' ((b, m.getRoots) :: stack)

/-! ### What a pruned forest has -/

section Kept
variable {m : MapPollard H} {slots : List (Option H)} {C : Set H}

theorem MapPollard.Kept.sane_forest (h : m.Kept True slots C C) :
    m.Sane (m.forestHash slots) := by
  obtain ⟨N, K, hs, -⟩ := h.view
  refine h.sane fun x hx => ?_
  rw [MapPollard.forestHash, hs.numLeaves, translatePos_nodePos h.rows (treeRows_le h.le_63)
    (fits_of_inForest h.room hx) (fits_of_inForest (le_two_pow_treeRows _) hx),
    slotHash_nodePos h.le_63 hx]

/-- The siblings on the way from a cached leaf to its root are there with their hashes. -/
theorem MapPollard.Kept.siblings (h : m.Kept True slots C C) {a : H} {pos : Nat}
    (ha : m.cachedLeaves.lookup a = some pos) :
    ∃ siblings, proofPosition pos m.numLeaves m.totalRows = .ok siblings ∧
      ∀ sib ∈ siblings, ∃ l, m.nodes.lookup sib = some l ∧ l.hash = m.forestHash slots sib := by
  have hsane := h.sane_forest
  obtain ⟨needs, computables, hrun, hmem⟩ := hsane.proofNodes a pos ha
  rw [h.proofPosition_cached ha hrun]
  refine ⟨needs, rfl, fun sib hsib => ?_⟩
  obtain ⟨l, hl⟩ := Finmap.mem_iff.mp (hmem sib hsib)
  exact ⟨l, hl, hsane.hashes sib l hl⟩

end Kept

variable (hinj : ∀ {a b c d : H}, parentHash a b = parentHash c d → a = c ∧ b = d)
  (hne : ∀ a b : H, parentHash a b ≠ empty)
include hinj hne

/-- **`Modify` with the proof of the MapPollard itself.** -/
theorem MapPollard.Kept.prove_modify {tight : Prop} {m : MapPollard H} {slots : List (Option H)}
    {C : Set H} (h : m.Kept tight slots C C) (hplain : PlainLeaves slots)
    {adds : List (Leaf H)} {dels : List H} (hd : dels.Nodup) (hC : ∀ a ∈ dels, a ∈ C)
    (hplain' : PlainLeaves (applyBlock slots ⟨dels, adds.map Leaf.hash⟩)) :
    ∃ proof m', m.prove dels = .ok (.ok proof) ∧ proof.Proves slots dels ∧
      m.modify adds dels proof = .ok (m', .ok ()) ∧
      m'.Kept tight (applyBlock slots ⟨dels, adds.map Leaf.hash⟩)
        ((MapAction.block adds dels).keep C) ((MapAction.block adds dels).keep C) := by
  obtain ⟨targets, positions, computed, hprove, hts, hpos⟩ := h.prove hC
  obtain ⟨m', hmodify, hm'⟩ := h.modify_plain hinj hne hplain
    (b := ⟨adds, dels, ⟨targets, positions.map (slotHash slots)⟩⟩) ⟨hts, hd, hplain'⟩ hC
  exact ⟨_, m', hprove, ⟨hts, positions, computed, hpos, rfl⟩, hmodify, hm'⟩

omit hinj hne in
theorem PlainStack.plainLeaves {stack : List (PolBlock H × List H)} (h : PlainStack stack) :
    PlainLeaves (stackSlots stack) := by
  cases stack with
  | nil => exact plainLeaves_nil
  | cons e stack => exact h.1.leaves

variable [SortAlg]

/-- **A MapPollard that has been reached is pruned to its cached leaves.** -/
theorem MapHistory.kept {m : MapPollard H} {stack : List (PolBlock H × List H)}
    (h : MapHistory m stack) :
    (∃ C, m.Kept True (stackSlots stack) C C) ∧ PlainStack stack := by
  induction h with
  | new hrows => exact ⟨⟨∅, MapPollard.kept_new hrows⟩, trivial⟩
  | verify _ hd hproof hrun ih =>
    obtain ⟨⟨C, hC⟩, hstack⟩ := ih
    obtain ⟨m', hverify, hm'⟩ := hC.verify_proves hinj hne hstack.plainLeaves hd hproof
    cases hrun.symm.trans hverify
    exact ⟨⟨_, hm'⟩, hstack⟩
  | modify _ hb hadds hcached hrun ih =>
    obtain ⟨⟨C, hC⟩, hstack⟩ := ih
    obtain ⟨m', hmodify, hm'⟩ := hC.modify_plain hinj hne hstack.plainLeaves hb fun a ha =>
      hC.mem_cachedLeaves.mp (hcached a ha)
    cases hrun.symm.trans hmodify
    exact ⟨⟨_, hm'⟩, hb, hadds, hstack.plainLeaves, hC.getRoots, hstack⟩

/-- **The representation invariant of a MapPollard.**  After any history of honest calls it passes
its sanity check against the forest of the leaves, the siblings on the way from a cached leaf to its
root are there with their hashes, and no honest call fails. -/
theorem map_pollard_invariant {m : MapPollard H} {stack : List (PolBlock H × List H)}
    (hm : MapHistory m stack) :
    m.Sane (m.forestHash (stackSlots stack)) ∧
    (∀ a pos, m.cachedLeaves.lookup a = some pos →
      ∃ siblings, proofPosition pos m.numLeaves m.totalRows = .ok siblings ∧
        ∀ sib ∈ siblings, ∃ l, m.nodes.lookup sib = some l ∧
          l.hash = m.forestHash (stackSlots stack) sib) ∧
    (∀ hashes proof, hashes.Nodup → proof.Proves (stackSlots stack) hashes →
      ∃ m', m.verify hashes proof true = .ok (m', .ok ())) ∧
    (∀ b : PolBlock H, b.Plain (stackSlots stack) → (∀ a ∈ b.dels, a ∈ m.cachedLeaves) →
      ∃ m', m.modify b.adds b.dels b.proof = .ok (m', .ok ())) := by
  obtain ⟨⟨C, hC⟩, hstack⟩ := hm.kept hinj hne
  refine ⟨hC.sane_forest, fun a pos ha => hC.siblings ha, fun hashes proof hd hproof => ?_,
    fun b hb hcached => ?_⟩
  · obtain ⟨m', hverify, -⟩ := hC.verify_proves hinj hne hstack.plainLeaves hd hproof
    exact ⟨m', hverify⟩
  · obtain ⟨m', hmodify, -⟩ := hC.modify_plain hinj hne hstack.plainLeaves hb fun a ha =>
      hC.mem_cachedLeaves.mp (hcached a ha)
    exact ⟨m', hmodify⟩

/-- After such a history the next honest block goes through. -/
theorem MapHistory.exists_modify {m : MapPollard H} {stack : List (PolBlock H × List H)}
    (h : MapHistory m stack) {adds : List (Leaf H)} {dels : List H} (hd : dels.Nodup)
    (hcached : ∀ a ∈ dels, a ∈ m.cachedLeaves) (hadds : adds.length < 2 ^ 63)
    (hplain : PlainLeaves (applyBlock (stackSlots stack) ⟨dels, adds.map Leaf.hash⟩)) :
    ∃ proof m', m.prove dels = .ok (.ok proof) ∧ m.modify adds dels proof = .ok (m', .ok ()) ∧
      MapHistory m' ((⟨adds, dels, proof⟩, m.getRoots) :: stack) ∧
      ∀ a, a ∈ m'.cachedLeaves ↔
        a ∈ (MapAction.block adds dels).keep {a | a ∈ m.cachedLeaves} := by
  obtain ⟨⟨C, hC⟩, hstack⟩ := h.kept hinj hne
  obtain ⟨proof, m', hprove, hproof, hmodify, hm'⟩ := hC.prove_modify hinj hne
    hstack.plainLeaves hd
    (fun a ha => hC.mem_cachedLeaves.mp (hcached a ha)) hplain
  have hset : {a | a ∈ m.cachedLeaves} = C := Set.ext fun a => hC.mem_cachedLeaves
  rw [hset]
  exact ⟨proof, m', hprove, hmodify, h.modify ⟨hproof.targets, hd, hplain⟩ hadds hcached hmodify,
    fun a => hm'.mem_cachedLeaves⟩

end

section
attribute [local instance] SortAlg.stable

/-- Two leaves are added, and the first is remembered. -/
theorem exists_rememberFirst :
    ∃ (m : MapPollard FreeHash) (proof : Proof FreeHash), MapHistory m
      [(⟨[⟨.leaf 0, true⟩, ⟨.leaf 1, false⟩], [], proof⟩, [])] ∧ .leaf 0 ∈ m.cachedLeaves := by
  have hnew : MapHistory (⟨∅, ∅, 0, 1⟩ : MapPollard FreeHash) [] := .new (by decide)
  have hplain : PlainLeaves (applyBlock []
      ⟨[], [⟨.leaf 0, true⟩, ⟨.leaf 1, false⟩].map (Leaf.hash : Leaf FreeHash → FreeHash)⟩) :=
    (FreeHash.leavesFine (by decide) (by decide) (by decide)).plain
  obtain ⟨proof, m, -, -, hm, hcached⟩ := hnew.exists_modify FreeHash.ideal.inj
    FreeHash.ideal.ne_empty List.nodup_nil (by simp) (by decide) hplain
  exact ⟨m, proof, hm, (hcached _).mpr (Or.inr (by decide))⟩

theorem map_pollard_invariant_rememberFirst :
    ∃ (m : MapPollard FreeHash) (stack : List (PolBlock FreeHash × List FreeHash)) (pos : Nat),
      MapHistory m stack ∧ m.cachedLeaves.lookup (.leaf 0) = some pos ∧
      m.Sane (m.forestHash (stackSlots stack)) ∧
      ∃ siblings, proofPosition pos m.numLeaves m.totalRows = .ok siblings ∧
        ∀ sib ∈ siblings, sib ∈ m.nodes := by
  obtain ⟨m, proof, hm, h0⟩ := exists_rememberFirst
  obtain ⟨pos, hpos⟩ := Finmap.mem_iff.mp h0
  obtain ⟨hsane, hsiblings, -⟩ := map_pollard_invariant FreeHash.ideal.inj FreeHash.ideal.ne_empty
    hm
  obtain ⟨siblings, hrun, hall⟩ := hsiblings _ _ hpos
  refine ⟨m, _, pos, hm, hpos, hsane, siblings, hrun, fun sib hsib => ?_⟩
  obtain ⟨l, hl, -⟩ := hall sib hsib
  exact Finmap.mem_of_lookup_eq_some hl

end

end Utreexo
