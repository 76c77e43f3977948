import Utreexo.ProofOps
import Utreexo.Stump

/-! # Keeping a cached proof up to date

`Update` of `Proof` in `prove.go`, for a holder who has only a proof of some leaves and
follows the blocks with the data that `Stump.Update` returns.  A slice of positions and one of
hashes side by side is a list of pairs, as in `ProofOps`.
-/
namespace Utreexo

section
variable {H : Type}

/-- The entries of a sorted slice at the given ascending positions.  This is the loop over the
missing positions in `updateProofRemove` and the one over the needed positions in
`updateProofAdd`; the index into the slice only moves on. -/
def entriesAt : List Nat → List (Nat × H) → List (Nat × H)
  | [], _ => []
  | pos :: positions, slice =>
    match slice.dropWhile (fun e => e.1 < pos) with
    | [] => entriesAt positions []
    | e :: rest =>
      if e.1 = pos then e :: entriesAt positions (e :: rest) else entriesAt positions (e :: rest)

/-- The hash of a proof entry after the deletions: an updated one if there is one at the
position, and none if that is empty. -/
def keptHash [DecidableEq H] [HashOps H] (pos : Nat) (hash : H) : List (Nat × H) → Option H
  | [] => some hash
  | e :: _ => if e.1 = pos then (if e.2 ≠ empty then some e.2 else none) else some hash

/-- The loop of `updateProofRemove` over the old proof: the entries that are still needed, with
their updated hashes. -/
def keepProofs [DecidableEq H] [HashOps H] :
    List (Nat × H) → List Nat → List (Nat × H) → List (Nat × H)
  | [], _, _ => []
  | (pos, hash) :: oldProofs, extraPos, updated =>
    let extraPos := extraPos.dropWhile (· < pos)
    if extraPos.head? = some pos then keepProofs oldProofs extraPos updated
    else
      let updated := updated.dropWhile (fun e => e.1 < pos)
      match keptHash pos hash updated with
      | some hash => (pos, hash) :: keepProofs oldProofs extraPos updated
      | none => keepProofs oldProofs extraPos updated

/-- Takes the deletions of a block into the proof.  Returns the hashes that are still cached. -/
def Proof.updateProofRemove [DecidableEq H] [HashOps H] [SortAlg] (p : Proof H)
    (blockTargets : List Nat) (cachedHashes : List H) (updated : List (Nat × H))
    (numLeaves : Nat) : Exec (Proof H × List H) := do
  let totalRows := treeRows numLeaves
  let sortedBlockTargets := copySorted blockTargets
  let targetsWithHash := subtractSortedHashAndPos (toHashAndPos p.targets cachedHashes)
    sortedBlockTargets uint64Cmp
  let sortedCachedTargets := copySorted p.targets
  let (proofPos, _) ← proofPositions sortedCachedTargets numLeaves totalRows
  let oldProofs := toHashAndPos proofPos p.proof
  let (neededPos, _) ← proofPositions (targetsWithHash.map Prod.fst) numLeaves totalRows
  let extraPos := subtractSortedSlice (copySorted (oldProofs.map Prod.fst)) neededPos uint64Cmp
  let newProofs := keepProofs oldProofs extraPos updated
  let missingPos := subtractSortedSlice (copySorted neededPos) (oldProofs.map Prod.fst) uint64Cmp
  let missingPos := subtractSortedSlice missingPos sortedBlockTargets uint64Cmp
  -- The missing entries stand after the kept ones, so the slice as a whole is not sorted.
  let newProofs := newProofs ++ entriesAt missingPos updated
  let sortedBlockTargets := deTwin sortedBlockTargets totalRows
  let targetsWithHash ← getNewPositions sortedBlockTargets targetsWithHash numLeaves true
  let newProofs ← getNewPositions sortedBlockTargets newProofs numLeaves false
  .ok (⟨targetsWithHash.map Prod.fst, newProofs.map Prod.snd⟩, targetsWithHash.map Prod.snd)

/-- The positions in the rows of the grown forest. -/
def maybeRemap (numLeaves numAdds : Nat) (hnp : List (Nat × H)) : List (Nat × H) :=
  let newForestRows := treeRows (add64 numLeaves numAdds)
  let oldForestRows := treeRows numLeaves
  if oldForestRows < newForestRows then
    hnp.map fun e =>
      let row := detectRow e.1 oldForestRows
      let offset := sub64 e.1 (startPositionAtRow row oldForestRows)
      (add64 offset (startPositionAtRow row newForestRows), e.2)
  else hnp

/-- The loop over the empty roots that the block wrote over. -/
def moveOverRoots [DecidableEq H] [HashOps H] [SortAlg] (numLeaves : Nat) :
    List Nat → List (Nat × H) → Exec (List (Nat × H))
  | [], hnp => .ok hnp
  | del :: toDestroy, hnp => do
    let hnp ← getNewPositions [del] hnp numLeaves true
    moveOverRoots numLeaves toDestroy hnp

/-- The added hashes to be cached.  `i` is the index of the first of `adds`, compared as a
`uint32`; every round moves on in one of the slices, and `j` counts the rounds. -/
def rememberedLoop : Nat → Nat → List H → List Nat → List H
  | _, _, [], _ => []
  | _, _, _, [] => []
  | 0, _, _ :: _, _ :: _ => []
  | j + 1, i, add :: adds, remember :: remembers =>
    if i % 2 ^ 32 = remember then add :: rememberedLoop j (i + 1) adds remembers
    else if remember < i % 2 ^ 32 then rememberedLoop j i (add :: adds) remembers
    else rememberedLoop j (i + 1) adds (remember :: remembers)

def rememberedAdds (adds : List H) (remembers : List Nat) : List H :=
  rememberedLoop (adds.length + remembers.length) 0 adds remembers

/-- Takes the additions of a block into the proof.  Returns the hashes that are cached then. -/
def Proof.updateProofAdd [DecidableEq H] [HashOps H] [SortAlg] (p : Proof H)
    (adds cachedDelHashes : List H) (remembers : List Nat) (newNodes : List (Nat × H))
    (beforeNumLeaves : Nat) (toDestroy : List Nat) : Exec (Proof H × List H) := do
  let origTargetsWithHash := toHashAndPos p.targets cachedDelHashes
  let (proofPos, _) ← proofPositions (origTargetsWithHash.map Prod.fst) beforeNumLeaves
    (treeRows beforeNumLeaves)
  let proofWithPos := toHashAndPos proofPos p.proof
  let origTargetsWithHash := maybeRemap beforeNumLeaves adds.length origTargetsWithHash
  let proofWithPos := maybeRemap beforeNumLeaves adds.length proofWithPos
  let numLeaves := add64 beforeNumLeaves adds.length
  let origTargetsWithHash ← moveOverRoots numLeaves toDestroy origTargetsWithHash
  let proofWithPos ← moveOverRoots numLeaves toDestroy proofWithPos
  let newNodes := mergeSortedHashAndPos newNodes proofWithPos
  let remembersWithHash := getHashAndPosHashSubset newNodes (rememberedAdds adds remembers)
  let origTargetsWithHash := mergeSortedHashAndPos remembersWithHash origTargetsWithHash
  let (neededProofPositions, _) ← proofPositions (origTargetsWithHash.map Prod.fst) numLeaves
    (treeRows numLeaves)
  let newProofWithPos := SortAlg.sort Prod.fst (entriesAt neededProofPositions newNodes)
  .ok (⟨origTargetsWithHash.map Prod.fst, newProofWithPos.map Prod.snd⟩,
    origTargetsWithHash.map Prod.snd)

/-- Takes a block into the proof. -/
def Proof.update [DecidableEq H] [HashOps H] [SortAlg] (p : Proof H)
    (cachedHashes addHashes : List H) (blockTargets remembers : List Nat)
    (updateData : UpdateData H) : Exec (Proof H × List H) := do
  let (p, cachedHashes) ← p.updateProofRemove blockTargets cachedHashes
    (updateData.newDelPos.zip updateData.newDelHash) updateData.prevNumLeaves
  p.updateProofAdd addHashes cachedHashes remembers
    (updateData.newAddPos.zip updateData.newAddHash) updateData.prevNumLeaves
    updateData.toDestroy

end

end Utreexo
