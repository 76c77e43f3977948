import Utreexo.CachedUpdate
import Utreexo.ProofSubset
import Utreexo.ProveComplete

/-! # A cached proof along a chain of blocks

A Stump and a cached proof take blocks with the proofs of what they delete.  Nobody hands the
cached proof another hash of the forest, and after every block it has the positions of the cached
leaves and the hashes of the forest that they need.  In the chain of `FuzzModifyProofChain` a full
Pollard proves the deletions, and the cached proof is always the one that the Pollard would give
for the cached leaves.
-/
namespace Utreexo
open Merkle

theorem stumpAt_self {H : Type} [HashOps H] (slots : List (Option H)) :
    stumpAt slots slots.length = ⟨(forestTrees slots).map hashOpt, slots.length⟩ := by
  have h := @stumpAt_length H slots [] _
  rwa [List.map_nil, List.append_nil] at h

theorem PlainLeaves.count_adds {H : Type} [HashOps H] {slots : List (Option H)} {adds : List H}
    (h : PlainLeaves (slots ++ adds.map some)) : slots.length + adds.length ≤ 2 ^ 63 := by
  have hlen := h.counted
  rwa [List.length_append, List.length_map] at hlen

section
variable {H : Type} [DecidableEq H] [HashOps H] [SortAlg] {slots : List (Option H)}
  {dels adds : List H}
  (hinj : ∀ {a b c d : H}, parentHash a b = parentHash c d → a = c ∧ b = d)
  (hne : ∀ a b : H, parentHash a b ≠ empty) (hplain : PlainLeaves slots)
  (hplain' : PlainLeaves (delSlots slots dels ++ adds.map some)) {proof : Proof H}
  (hproof : proof.Proves slots dels) (hd : dels.Nodup)
include hinj hne hplain hplain' hproof hd

/-- **A block with its proof**: the Stump has the roots of the forest after the block, and its
data describe what the block touched and what it added. -/
theorem Stump.update_honest :
    ∃ touched added, Listing touched (nodePos (treeRows slots.length) ''
        {x | Touched slots.length (leavesAt slots {a | a ∈ dels}) x}) ∧
      Listing added {p | ∃ c, (delSlots slots dels).length ≤ c ∧
        c < (delSlots slots dels ++ adds.map some).length ∧
        p ∈ leafPositions (delSlots slots dels ++ adds.map some) c} ∧
      (⟨(forestTrees slots).map hashOpt, slots.length⟩ : Stump H).update dels adds proof =
        .ok (⟨(forestTrees (delSlots slots dels ++ adds.map some)).map hashOpt,
            (delSlots slots dels ++ adds.map some).length⟩,
          .ok ⟨(overwritten (delSlots slots dels).length
              (delSlots slots dels ++ adds.map some).length fun r =>
                (rootTree (delSlots slots dels) r).isNone).map
                  (nodePos (treeRows (delSlots slots dels ++ adds.map some).length)),
            slots.length, touched.map (remainHash slots dels), touched,
            added.map (slotHash (delSlots slots dels ++ adds.map some)), added⟩) := by
  have hi := idealHash_not_parent hinj hne
  obtain ⟨positions, computed, hpos, hneeded⟩ := hproof.needed
  obtain ⟨touched, htouched, hdel⟩ := Stump.del_honest hi (fun y hy => (hplain.isLeaf y hy).symm)
    hplain.counted hplain.distinct hproof.targets hd hpos
  obtain ⟨added, hadd, hadded⟩ := Stump.add_listing hi hplain'.distinct
    (fun y hy => (hplain'.isLeaf y hy).symm) hplain'.count_adds
  rw [stumpAt_self, length_delSlots] at hadd
  rw [← hneeded] at hdel
  refine ⟨touched, added, htouched, hadded, ?_⟩
  rw [Stump.update, hdel, Exec.ok_bind]
  dsimp only
  rw [hadd, length_delSlots]
  rfl

/-- **A block keeps a cached proof exact.** -/
theorem Proof.update_exact {p : Proof H} {cached : List H} (hp : ExactProof slots p cached)
    {remembers touched added : List Nat} (hremembers : remembers.Pairwise (· < ·))
    (hindex : ∀ r ∈ remembers, r < 2 ^ 32)
    (htouched : Listing touched (nodePos (treeRows slots.length) ''
        {x | Touched slots.length (leavesAt slots {a | a ∈ dels}) x}))
    (hadded : Listing added {p | ∃ c, (delSlots slots dels).length ≤ c ∧
        c < (delSlots slots dels ++ adds.map some).length ∧
        p ∈ leafPositions (delSlots slots dels ++ adds.map some) c}) :
    ∃ p' cached', p.update cached adds proof.targets remembers
        ⟨(overwritten (delSlots slots dels).length
            (delSlots slots dels ++ adds.map some).length fun r =>
              (rootTree (delSlots slots dels) r).isNone).map
                (nodePos (treeRows (delSlots slots dels ++ adds.map some).length)),
          slots.length, touched.map (remainHash slots dels), touched,
          added.map (slotHash (delSlots slots dels ++ adds.map some)), added⟩ =
        .ok (p', cached') ∧
      ExactProof (delSlots slots dels ++ adds.map some) p' cached' ∧
      ∀ a, a ∈ cached' ↔ (a ∈ cached ∧ a ∉ dels) ∨ ∃ r ∈ remembers, adds[r]? = some a := by
  have hi := idealHash_not_parent hinj hne
  obtain ⟨p1, cached1, hrun1, hp1, hcached1⟩ := Proof.updateProofRemove_exact hi
    (fun y hy => (hplain.isLeaf y hy).symm) hplain.counted hplain.distinct hp hproof.targets hd
    htouched
  obtain ⟨p2, cached2, hrun2, hp2, hcached2⟩ := Proof.updateProofAdd_exact hi hplain'.distinct
    (fun y hy => (hplain'.isLeaf y hy).symm) hplain'.count_adds hp1 hremembers hindex hadded
  refine ⟨p2, cached2, ?_, hp2, fun a => ?_⟩
  · rw [Proof.update]
    dsimp only
    rw [zip_map_eq, hrun1, Exec.ok_bind]
    dsimp only
    rw [zip_map_eq]
    rw [length_delSlots] at hrun2 ⊢
    exact hrun2
  · rw [hcached2, hcached1]

end

/-! ### Blocks with their proofs -/

/-- A Stump and a cached proof that follow the same blocks. -/
structure StumpChain (H : Type) where
  stump : Stump H
  cachedProof : Proof H
  cachedHashes : List H

/-- A block as it is sent: what it adds and deletes, the proof of what it deletes, and the indexes
of the added leaves that the holder of the cached proof wants to remember. -/
structure ProvedBlock (H : Type) where
  adds : List H
  dels : List H
  proof : Proof H
  remembers : List Nat

section
variable {H : Type} [HashOps H] [DecidableEq H]

section
variable [SortAlg]

def StumpChain.new : StumpChain H := ⟨⟨[], 0⟩, ⟨[], []⟩, []⟩

/-- No state if one of the calls returns an error. -/
def StumpChain.block (c : StumpChain H) (b : ProvedBlock H) : Exec (Option (StumpChain H)) := do
  match ← c.stump.update b.dels b.adds b.proof with
  | (_, .error _) => .ok none
  | (stump, .ok updateData) =>
    let (cachedProof, cachedHashes) ← c.cachedProof.update c.cachedHashes b.adds b.proof.targets
      b.remembers updateData
    .ok (some ⟨stump, cachedProof, cachedHashes⟩)

def StumpChain.run (c : StumpChain H) : List (ProvedBlock H) → Exec (Option (StumpChain H))
  | [] => .ok (some c)
  | b :: bs => do
    match ← c.block b with
    | none => .ok none
    | some c => c.run bs

end

/-- The leaves after a block. -/
def ProvedBlock.apply (slots : List (Option H)) (b : ProvedBlock H) : List (Option H) :=
  applyBlock slots ⟨b.dels, b.adds⟩

/-- The leaves after the blocks. -/
def blockSlots (bs : List (ProvedBlock H)) : List (Option H) := bs.foldl ProvedBlock.apply []

/-- A block that can be applied to the leaves: distinct leaves are deleted, with the proof that
the forest has for them and `Prove` of a full Pollard returns. -/
structure ProvedBlock.Honest (slots : List (Option H)) (b : ProvedBlock H) : Prop where
  proof : b.proof.Proves slots b.dels
  distinct : b.dels.Nodup
  leaves : PlainLeaves (b.apply slots)
  remembers : b.remembers.Pairwise (· < ·)
  /-- The indexes are 32-bit numbers. -/
  index : ∀ r ∈ b.remembers, r < 2 ^ 32

def HonestBlocks (slots : List (Option H)) : List (ProvedBlock H) → Prop
  | [] => True
  | b :: bs => b.Honest slots ∧ HonestBlocks (b.apply slots) bs

/-- The state of the chain for the leaves. -/
structure StumpChain.Follows (c : StumpChain H) (slots : List (Option H)) : Prop where
  plain : PlainLeaves slots
  stump : c.stump = ⟨(forestTrees slots).map hashOpt, slots.length⟩
  proof : ExactProof slots c.cachedProof c.cachedHashes

omit [DecidableEq H] in
theorem ExactProof.nodup {slots : List (Option H)} (hplain : PlainLeaves slots) {q : Proof H}
    {hashes : List H} (h : ExactProof slots q hashes) : hashes.Nodup := by
  obtain ⟨hlist, hhashes, -⟩ := h.listing hplain.counted hplain.distinct
  rw [hhashes]
  refine slotHash_nodup hplain.counted hplain.distinct (fun t ht => ?_) hlist.nodup
  obtain ⟨a, -, ha⟩ := exists_of_mem_left h.targets ht
  exact ⟨a, ha⟩

omit [DecidableEq H] in
theorem StumpChain.follows_new : (StumpChain.new : StumpChain H).Follows [] where
  plain := plainLeaves_nil
  stump := by
    rw [forestTrees, List.length_nil, show rootRows 0 0 = [] by decide]
    rfl
  proof := ⟨.nil, .nil, [], [],
    show proofPositions [] 0 (treeRows 0) = .ok ([], []) by decide, rfl⟩

variable [SortAlg] (hinj : ∀ {a b c d : H}, parentHash a b = parentHash c d → a = c ∧ b = d)
  (hne : ∀ a b : H, parentHash a b ≠ empty) {slots : List (Option H)}
include hinj hne

/-- **One block**: what the Stump and the cached proof make of it. -/
theorem StumpChain.Follows.calls {c : StumpChain H} (h : c.Follows slots) {b : ProvedBlock H}
    (hb : b.Honest slots) :
    ∃ (updateData : UpdateData H) (c' : StumpChain H),
      c.stump.update b.dels b.adds b.proof = .ok (c'.stump, .ok updateData) ∧
      c.cachedProof.update c.cachedHashes b.adds b.proof.targets b.remembers updateData =
        .ok (c'.cachedProof, c'.cachedHashes) ∧
      c'.Follows (b.apply slots) ∧
      ∀ a, a ∈ c'.cachedHashes ↔
        (a ∈ c.cachedHashes ∧ a ∉ b.dels) ∨ ∃ r ∈ b.remembers, b.adds[r]? = some a := by
  have hplain' : PlainLeaves (delSlots slots b.dels ++ b.adds.map some) := hb.leaves
  obtain ⟨touched, added, htouched, hadded, hstump⟩ := Stump.update_honest hinj hne h.plain hplain'
    hb.proof hb.distinct
  obtain ⟨q, hashes, hproof, hexact, hcached⟩ := Proof.update_exact hinj hne h.plain hplain'
    hb.proof hb.distinct h.proof hb.remembers hb.index htouched hadded
  rw [← h.stump] at hstump
  exact ⟨_, ⟨_, q, hashes⟩, hstump, hproof, ⟨hplain', rfl, hexact⟩, hcached⟩

theorem StumpChain.Follows.block {c : StumpChain H} (h : c.Follows slots) {b : ProvedBlock H}
    (hb : b.Honest slots) :
    ∃ c', c.block b = .ok (some c') ∧ c'.Follows (b.apply slots) ∧
      ∀ a, a ∈ c'.cachedHashes ↔
        (a ∈ c.cachedHashes ∧ a ∉ b.dels) ∨ ∃ r ∈ b.remembers, b.adds[r]? = some a := by
  obtain ⟨updateData, c', hstump, hproof, h', hcached⟩ := h.calls hinj hne hb
  refine ⟨c', ?_, h', hcached⟩
  rw [StumpChain.block, hstump, Exec.ok_bind]
  dsimp only
  rw [hproof, Exec.ok_bind]

/-- **A run of blocks.** -/
theorem StumpChain.Follows.run {bs : List (ProvedBlock H)} {c : StumpChain H}
    (h : c.Follows slots) (hbs : HonestBlocks slots bs) :
    ∃ c', c.run bs = .ok (some c') ∧ c'.Follows (bs.foldl ProvedBlock.apply slots) := by
  induction bs generalizing c slots with
  | nil => exact ⟨c, rfl, h⟩
  | cons b bs ih =>
    obtain ⟨c1, hrun, h1, -⟩ := h.block hinj hne hbs.1
    obtain ⟨c2, hrun2, h2⟩ := ih h1 hbs.2
    refine ⟨c2, ?_, h2⟩
    rw [StumpChain.run, hrun, Exec.ok_bind]
    exact hrun2

/-- An exact proof is accepted. -/
theorem StumpChain.Follows.verify {c : StumpChain H} (h : c.Follows slots) :
    ∃ idxs, Utreexo.verify c.stump c.cachedHashes c.cachedProof = .ok (.ok idxs) := by
  obtain ⟨positions, computed, hpos, hproof⟩ := h.proof.proof
  rw [← sortPositions_eq_self ⟨h.proof.ascending, fun _ => Iff.rfl⟩] at hpos
  obtain ⟨idxs, hrun, -⟩ := verify_forest (idealHash_not_parent hinj hne) h.plain.not_parent
    h.plain.ne_empty h.plain.counted h.plain.distinct h.proof.targets (h.proof.nodup h.plain) hpos
  rw [← hproof, ← h.stump] at hrun
  exact ⟨idxs, hrun⟩

omit hinj hne [SortAlg] in
theorem honestBlocks_append {bs bs' : List (ProvedBlock H)} :
    HonestBlocks slots (bs ++ bs') ↔
      HonestBlocks slots bs ∧ HonestBlocks (bs.foldl ProvedBlock.apply slots) bs' := by
  induction bs generalizing slots with
  | nil => exact (true_and _).symm.to_iff
  | cons b bs ih => exact (and_congr_right fun _ => ih).trans and_assoc.symm

/-- **A cached proof stays exact from block to block.**  After any honest blocks the next one
takes the deleted leaves out of the cached ones and the remembered ones in.  Then the targets ascend
and are the positions of the cached leaves, the proof has the hashes of the forest at the positions
that `proofPositions` names for them, and the Stump accepts it. -/
theorem cached_proof_block_exact {bs : List (ProvedBlock H)} {b : ProvedBlock H}
    (hbs : HonestBlocks [] (bs ++ [b])) :
    ∃ c c' : StumpChain H, StumpChain.new.run bs = .ok (some c) ∧ c.block b = .ok (some c') ∧
      (∀ a, a ∈ c'.cachedHashes ↔
        (a ∈ c.cachedHashes ∧ a ∉ b.dels) ∨ ∃ r ∈ b.remembers, b.adds[r]? = some a) ∧
      c'.cachedProof.targets.Pairwise (· < ·) ∧
      List.Forall₂ (LeafAt (blockSlots (bs ++ [b]))) c'.cachedProof.targets c'.cachedHashes ∧
      (∃ positions computed, proofPositions c'.cachedProof.targets c'.stump.numLeaves
          (treeRows c'.stump.numLeaves) = .ok (positions, computed) ∧
        c'.cachedProof.proof = positions.map (slotHash (blockSlots (bs ++ [b])))) ∧
      c'.stump.numLeaves = (blockSlots (bs ++ [b])).length ∧
      ∃ idxs, verify c'.stump c'.cachedHashes c'.cachedProof = .ok (.ok idxs) := by
  obtain ⟨hbs, hb, -⟩ := honestBlocks_append.mp hbs
  obtain ⟨c, hrun, h⟩ := StumpChain.follows_new.run hinj hne hbs
  obtain ⟨c', hblock, h', hcached⟩ := h.block hinj hne hb
  have hslots : b.apply (bs.foldl ProvedBlock.apply []) = blockSlots (bs ++ [b]) := by
    rw [blockSlots, List.foldl_append]
    rfl
  rw [hslots] at h'
  have hnum : c'.stump.numLeaves = (blockSlots (bs ++ [b])).length := congrArg _ h'.stump
  exact ⟨c, c', hrun, hblock, hcached, h'.proof.ascending, h'.proof.targets,
    by rw [hnum]; exact h'.proof.proof, hnum, h'.verify hinj hne⟩

end

section
attribute [local instance] SortAlg.stable

/-- Two of three leaves are remembered. -/
def addThree : ProvedBlock FreeHash := ⟨[.leaf 0, .leaf 1, .leaf 2], [], ⟨[], []⟩, [0, 2]⟩

/-- The leaf beside a remembered one is deleted, and a fourth is added and remembered. -/
def deleteSecond : ProvedBlock FreeHash := ⟨[.leaf 3], [.leaf 1], ⟨[1], [.leaf 0]⟩, [0]⟩

theorem addThree_deleteSecond_honest : HonestBlocks [] ([addThree] ++ [deleteSecond]) :=
  ⟨⟨⟨.nil, [], [], by decide, rfl⟩, by decide,
      (FreeHash.leavesFine (by decide) (by decide) (by decide)).plain, by decide, by decide⟩,
    ⟨⟨.cons ⟨⟨0, 1⟩, rfl, rfl⟩ .nil, [0], [4], by decide, rfl⟩, by decide,
      (FreeHash.leavesFine (by decide) (by decide) (by decide)).plain, by decide, by decide⟩,
    trivial⟩

theorem cached_proof_block_exact_deleteSecond :
    ∃ c c' : StumpChain FreeHash, StumpChain.new.run [addThree] = .ok (some c) ∧
      c.block deleteSecond = .ok (some c') ∧
      (∀ a, a ∈ c'.cachedHashes ↔ (a ∈ c.cachedHashes ∧ a ≠ .leaf 1) ∨ a = .leaf 3) ∧
      ∃ idxs, verify c'.stump c'.cachedHashes c'.cachedProof = .ok (.ok idxs) := by
  obtain ⟨c, c', hrun, hblock, hcached, -, -, -, -, hverify⟩ := cached_proof_block_exact
    FreeHash.ideal.inj FreeHash.ideal.ne_empty addThree_deleteSecond_honest
  refine ⟨c, c', hrun, hblock, fun a => ?_, hverify⟩
  rw [hcached]
  simp [deleteSecond, eq_comm]

end

/-! ### The chain beside a full Pollard -/

/-- A full Pollard, a Stump and a cached proof that follow the same blocks. -/
structure ProofChain (H M : Type) where
  p : Pollard H M
  stump : Stump H
  cachedProof : Proof H
  cachedHashes : List H

/-- A block: the leaves it adds, those it deletes and the indexes of the added ones that the
holder of the cached proof wants to remember. -/
structure ChainBlock (H : Type) where
  adds : List (Leaf H)
  dels : List H
  remembers : List Nat

section
variable {H M : Type} [HashOps H] [MiniHash H M] [DecidableEq H] [DecidableEq M] [SortAlg]

def ProofChain.new : ProofChain H M := ⟨newAccumulator true, ⟨[], 0⟩, ⟨[], []⟩, []⟩

/-- One block: it is proved, the Stump and the cached proof take it, and then the Pollard.
No state if one of the calls returns an error. -/
def ProofChain.block (c : ProofChain H M) (b : ChainBlock H) : Exec (Option (ProofChain H M)) := do
  match ← c.p.prove b.dels with
  | .error _ => .ok none
  | .ok proof =>
    let addHashes := b.adds.map Leaf.hash
    match ← c.stump.update b.dels addHashes proof with
    | (_, .error _) => .ok none
    | (stump, .ok updateData) =>
      let (cachedProof, cachedHashes) ← c.cachedProof.update c.cachedHashes addHashes
        proof.targets b.remembers updateData
      match ← c.p.modify b.adds b.dels proof with
      | (_, .error _) => .ok none
      | (p, .ok ()) => .ok (some ⟨p, stump, cachedProof, cachedHashes⟩)

def ProofChain.run (c : ProofChain H M) : List (ChainBlock H) → Exec (Option (ProofChain H M))
  | [] => .ok (some c)
  | b :: bs => do
    match ← c.block b with
    | none => .ok none
    | some c => c.run bs

/-- The leaves after a block. -/
def ChainBlock.apply (slots : List (Option H)) (b : ChainBlock H) : List (Option H) :=
  applyBlock slots ⟨b.dels, b.adds.map Leaf.hash⟩

/-- The leaves that should be cached after a block. -/
def ChainBlock.keep (cached : Set H) (b : ChainBlock H) : Set H :=
  {a | (a ∈ cached ∧ a ∉ b.dels) ∨ ∃ r ∈ b.remembers, (b.adds.map Leaf.hash)[r]? = some a}

/-- A block of the chain: live leaves are deleted, each once, the leaves are fine afterwards,
and the remembered indexes ascend. -/
structure ChainBlock.Honest (M : Type) [MiniHash H M] (slots : List (Option H))
    (b : ChainBlock H) : Prop where
  live : ∀ d ∈ b.dels, d ∈ liveLeaves slots
  distinct : b.dels.Nodup
  leaves : LeavesFine M (b.apply slots)
  remembers : b.remembers.Pairwise (· < ·)
  /-- The indexes are 32-bit numbers. -/
  index : ∀ r ∈ b.remembers, r < 2 ^ 32

def HonestChain (M : Type) [MiniHash H M] (slots : List (Option H)) : List (ChainBlock H) → Prop
  | [] => True
  | b :: bs => b.Honest M slots ∧ HonestChain M (b.apply slots) bs

/-- The state of the chain for the leaves and the cached ones among them. -/
structure ProofChain.Follows (c : ProofChain H M) (slots : List (Option H)) (cached : Set H) :
    Prop where
  pollard : c.p.Represents slots
  stump : c.stump = ⟨(forestTrees slots).map hashOpt, slots.length⟩
  proof : ExactProof slots c.cachedProof c.cachedHashes
  cached : ∀ a, a ∈ c.cachedHashes ↔ a ∈ cached

variable (hinj : ∀ {a b c d : H}, parentHash a b = parentHash c d → a = c ∧ b = d)
  (hne : ∀ a b : H, parentHash a b ≠ empty) {slots : List (Option H)} {c : ProofChain H M}
  {cached : Set H}

include hinj hne

omit [SortAlg] in
/-- An exact proof is the one that the full Pollard gives. -/
theorem Pollard.Represents.prove_exact {p : Pollard H M} (hp : p.Represents slots) {q : Proof H}
    {hashes : List H} (h : ExactProof slots q hashes) : p.prove hashes = .ok (.ok q) := by
  obtain ⟨targets, positions, computed, hrun, hts, hpos⟩ :=
    hp.prove_live hinj hne (h.nodup hp.fine.plain) (targets_live h.targets)
  have hlt : slots.length < 2 ^ 64 := Nat.lt_of_le_of_lt hp.fine.counted (by decide)
  have htargets : targets = q.targets := leafAt_targets_unique hlt hp.fine.nodup hts h.targets
  obtain ⟨positions', computed', hrun', hproof⟩ := h.proof
  subst htargets
  rw [sortPositions_eq_self ⟨h.ascending, fun _ => Iff.rfl⟩, hrun'] at hpos
  cases hpos
  rw [hrun, ← hproof]

/-- **One block.** -/
theorem ProofChain.Follows.block (h : c.Follows slots cached) {b : ChainBlock H}
    (hb : b.Honest M slots) :
    ∃ c', c.block b = .ok (some c') ∧ c'.Follows (b.apply slots) (b.keep cached) := by
  have hp := h.pollard
  obtain ⟨proof, hprove, hproves⟩ := hp.prove_proves hinj hne hb.distinct hb.live
  -- What the Stump and the cached proof do with the block and its proof.
  have hlight : StumpChain.Follows ⟨c.stump, c.cachedProof, c.cachedHashes⟩ slots :=
    ⟨hp.fine.plain, h.stump, h.proof⟩
  obtain ⟨updateData, c1, hstump, hproof, h1, hcached⟩ := hlight.calls hinj hne
    (b := ⟨b.adds.map Leaf.hash, b.dels, proof, b.remembers⟩)
    ⟨hproves, hb.distinct, hb.leaves.plain, hb.remembers, hb.index⟩
  obtain ⟨p', hmodify, hp'⟩ := hp.modify hne
    (b := ⟨b.adds, b.dels, proof⟩) ⟨hproves.targets, hb.distinct, hb.leaves⟩
  refine ⟨⟨p', c1.stump, c1.cachedProof, c1.cachedHashes⟩, ?_, hp', h1.stump, h1.proof,
    fun a => ?_⟩
  · rw [ProofChain.block, hprove, Exec.ok_bind]
    dsimp only
    rw [hstump, Exec.ok_bind]
    dsimp only
    rw [hproof, Exec.ok_bind]
    dsimp only
    rw [hmodify, Exec.ok_bind]
  · rw [hcached, h.cached]
    rfl

/-- **A run of blocks.** -/
theorem ProofChain.Follows.run {bs : List (ChainBlock H)} (h : c.Follows slots cached)
    (hbs : HonestChain M slots bs) :
    ∃ c', c.run bs = .ok (some c') ∧
      c'.Follows (bs.foldl (fun s b => b.apply s) slots)
        (bs.foldl (fun C b => b.keep C) cached) := by
  induction bs generalizing c slots cached with
  | nil => exact ⟨c, rfl, h⟩
  | cons b bs ih =>
    obtain ⟨c1, hrun, h1⟩ := h.block hinj hne hbs.1
    obtain ⟨c2, hrun2, h2⟩ := ih h1 hbs.2
    refine ⟨c2, ?_, h2⟩
    rw [ProofChain.run, hrun, Exec.ok_bind]
    exact hrun2

omit hinj hne [DecidableEq H] [SortAlg] in
theorem ProofChain.follows_new : (ProofChain.new : ProofChain H M).Follows [] ∅ where
  pollard := represents_newAccumulator
  stump := by
    rw [forestTrees, List.length_nil, show rootRows 0 0 = [] by decide]
    rfl
  proof := ⟨.nil, .nil, [], [],
    show proofPositions [] 0 (treeRows 0) = .ok ([], []) by decide, rfl⟩
  cached := fun a => by simp [ProofChain.new]

/-- **A cached proof stays exact.**  After any chain of honest blocks no call has returned an
error, the cached leaves are the remembered ones that are not deleted, and the cached proof is,
targets and hashes in order, what the full Pollard proves for them.  So the Stump and the
Pollard accept it. -/
theorem cached_proof_exact {bs : List (ChainBlock H)} (hbs : HonestChain M [] bs) :
    ∃ c : ProofChain H M, ProofChain.new.run bs = .ok (some c) ∧
      c.stump = ⟨c.p.getRoots, c.p.numLeaves⟩ ∧
      c.p.prove c.cachedHashes = .ok (.ok c.cachedProof) ∧
      c.cachedProof.targets.Pairwise (· < ·) ∧
      List.Forall₂ (LeafAt (bs.foldl (fun s b => b.apply s) [])) c.cachedProof.targets
        c.cachedHashes ∧
      (∀ a, a ∈ c.cachedHashes ↔ a ∈ bs.foldl (fun C b => b.keep C) ∅) ∧
      (∃ idxs, verify c.stump c.cachedHashes c.cachedProof = .ok (.ok idxs)) ∧
      ∀ remember, c.p.verify c.cachedHashes c.cachedProof remember = .ok (.ok ()) := by
  obtain ⟨c, hrun, h⟩ := ProofChain.follows_new.run hinj hne hbs
  have hp := h.pollard
  have hstump : c.stump = ⟨c.p.getRoots, c.p.numLeaves⟩ := by
    rw [h.stump, hp.getRoots, hp.numLeaves]
  obtain ⟨positions, computed, hpos, hproof⟩ := h.proof.proof
  rw [← sortPositions_eq_self ⟨h.proof.ascending, fun _ => Iff.rfl⟩] at hpos
  have haccept := fun remember =>
    hp.accepts hinj hne h.proof.targets (h.proof.nodup hp.fine.plain) hpos remember
  rw [← hproof] at haccept
  obtain ⟨idxs, hidxs, -⟩ := (haccept false).2
  exact ⟨c, hrun, hstump, hp.prove_exact hinj hne h.proof, h.proof.ascending, h.proof.targets,
    h.cached, ⟨idxs, by rw [hstump]; exact hidxs⟩, fun remember => (haccept remember).1⟩

end

section
attribute [local instance] SortAlg.stable

/-- Two of three leaves are remembered; then the third is deleted and a fourth is added over
the slots, and remembered too. -/
def rememberTwo : List (ChainBlock FreeHash) :=
  [⟨[⟨.leaf 0, false⟩, ⟨.leaf 1, false⟩, ⟨.leaf 2, false⟩], [], [0, 2]⟩,
    ⟨[⟨.leaf 3, false⟩], [.leaf 2], [0]⟩]

theorem rememberTwo_honest : HonestChain FreeHash [] rememberTwo :=
  ⟨⟨by simp, by decide, FreeHash.leavesFine (by decide) (by decide) (by decide),
      by decide, by decide⟩,
    ⟨by decide, by decide, FreeHash.leavesFine (by decide) (by decide) (by decide),
      by decide, by decide⟩, trivial⟩

theorem cached_proof_exact_rememberTwo :
    ∃ c : ProofChain FreeHash FreeHash, ProofChain.new.run rememberTwo = .ok (some c) ∧
      c.p.prove c.cachedHashes = .ok (.ok c.cachedProof) ∧
      .leaf 0 ∈ c.cachedHashes ∧ .leaf 3 ∈ c.cachedHashes ∧ .leaf 2 ∉ c.cachedHashes := by
  obtain ⟨c, hrun, -, hprove, -, -, hcached, -⟩ := cached_proof_exact FreeHash.ideal.inj
    FreeHash.ideal.ne_empty rememberTwo_honest
  refine ⟨c, hrun, hprove, (hcached _).mpr ?_, (hcached _).mpr ?_, fun h => ?_⟩
  · exact Or.inl ⟨Or.inr ⟨0, by decide, rfl⟩, by decide⟩
  · exact Or.inr ⟨0, by decide, rfl⟩
  · rcases (hcached _).mp h with ⟨-, h⟩ | ⟨r, hr, h⟩
    · exact h (by decide)
    · obtain rfl : r = 0 := by simpa [rememberTwo] using hr
      cases h

end

end Utreexo
