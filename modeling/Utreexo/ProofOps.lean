import Utreexo.Calculate
import Utreexo.SortedSlices

/-! # Combining and trimming proofs

`GetMissingPositions`, `AddProof`, `GetProofSubset` and `getNewPositions` of `prove.go`.  A
slice of positions and one of hashes side by side is a list of pairs here.  Where the source
puts two slices together without looking at their lengths (the positions of a proof and its
hashes), they have the same length for the proofs that `Prove` returns.
-/
namespace Utreexo

/-- The positions that a proof of `proofTargets` lacks to prove `desiredTargets` as well. -/
def getMissingPositions (numLeaves : Nat) (proofTargets desiredTargets : List Nat) :
    Exec (List Nat) :=
  let forestRows := treeRows numLeaves
  let targets := sortPositions proofTargets
  let desiredTargets := subtractSortedSlice (sortPositions desiredTargets) targets uint64Cmp
  if desiredTargets.length = 0 then .ok []
  else do
    let (desiredPositions, _) ← proofPositions desiredTargets numLeaves forestRows
    let (havePositions, computablePos) ← proofPositions targets numLeaves forestRows
    .ok (subtractSortedSlice desiredPositions
      (sortPositions (havePositions ++ targets ++ computablePos)) uint64Cmp)

section
variable {H : Type} [SortAlg]

/-- The proof of the targets of both proofs, and the hashes of the targets. -/
def addProof (proofA proofB : Proof H) (targetHashesA targetHashesB : List H)
    (numLeaves : Nat) : Exec (List H × Proof H) := do
  let totalRows := treeRows numLeaves
  let targetsA := copySorted proofA.targets
  let (proofPosA, calculateableA) ← proofPositions targetsA numLeaves totalRows
  let targetsB := copySorted proofB.targets
  let (proofPosB, calculateableB) ← proofPositions targetsB numLeaves totalRows
  let proofAndPosC :=
    mergeSortedHashAndPos (proofPosA.zip proofA.proof) (proofPosB.zip proofB.proof)
  let calculateableC := mergeSortedSlicesFunc calculateableA calculateableB uint64Cmp
  let proofAndPosC := subtractSortedHashAndPos proofAndPosC calculateableC uint64Cmp
  let targetsC := mergeSortedSlicesFunc targetsA targetsB uint64Cmp
  let proofAndPosC := subtractSortedHashAndPos proofAndPosC targetsC uint64Cmp
  let cachedDelHashAndPosC := mergeSortedHashAndPos
    (toHashAndPos proofA.targets targetHashesA) (toHashAndPos proofB.targets targetHashesB)
  .ok (cachedDelHashAndPosC.map Prod.snd, ⟨targetsC, proofAndPosC.map Prod.snd⟩)

/-- The errors of `GetProofSubset`. -/
inductive SubsetErr
  /-- "Missing positions %v from the proof. Deletions %v, proof.Targets %v". -/
  | missing (positions wants targets : List Nat)
  /-- "Expected %d proofs but got %d". -/
  | expected (want got : Nat)
  deriving DecidableEq, Repr

/-- The hashes in the order of the wants; `slices.Index` gives -1 for a position that is
not there, and the read panics. -/
def wantHashes (targetHashesWithPos : List (Nat × H)) : List Nat → Exec (List H)
  | [] => .ok []
  | want :: wants =>
    match targetHashesWithPos.find? (fun e => e.1 = want) with
    | none => .error .panic
    | some e => do
      let hashes ← wantHashes targetHashesWithPos wants
      .ok (e.2 :: hashes)

/-- The part of a proof that proves the positions `wants`, and their hashes. -/
def getProofSubset [DecidableEq H] [HashOps H] (proof : Proof H) (hashes : List H)
    (wants : List Nat) (numLeaves : Nat) : Exec (Except SubsetErr (List H × Proof H)) :=
  let proofTargetsCopy := copySorted proof.targets
  let expectedEmpty := subtractSortedSlice (copySorted wants) proofTargetsCopy uint64Cmp
  if 0 < expectedEmpty.length then
    .ok (.error (.missing expectedEmpty wants proof.targets))
  else do
    -- The targets are sorted here and the hashes are not.
    let targetHashesWithPos := toHashAndPos proofTargetsCopy hashes
    let (posAndHashes, _) ← calculateHashes numLeaves (some hashes) proof
    let posAndHashes := SortAlg.sort Prod.fst posAndHashes
    let (positions, _) ← proofPositions proofTargetsCopy numLeaves (treeRows numLeaves)
    let proofPos := toHashAndPos positions proof.proof
    let posAndHashes := mergeSortedHashAndPos posAndHashes proofPos
    let sortedWants := copySorted wants
    let targetHashesWithPos := getHashAndPosSubset targetHashesWithPos sortedWants
    let (wantProofPos, _) ← proofPositions (targetHashesWithPos.map Prod.fst) numLeaves
      (treeRows numLeaves)
    let posAndHashes := getHashAndPosSubset posAndHashes wantProofPos
    if posAndHashes.length ≠ wantProofPos.length then
      .ok (.error (.expected wantProofPos.length posAndHashes.length))
    else do
      let retHashes ← wantHashes targetHashesWithPos wants
      .ok (.ok (retHashes, ⟨wants, posAndHashes.map Prod.snd⟩))

/-! ### Moving entries up after deletions -/

/-- The subtree of a position; the error of `detectOffset` is dropped and leaves zero. -/
def subtreeOf (position numLeaves : Nat) : Nat :=
  match detectOffset position numLeaves with
  | .ok (subtree, _, _) => subtree
  | .error _ => 0

/-- The inner loop of `getNewPositions` for an entry that was found on `row`.  The error of
`calcNextPosition` is dropped and leaves zero. -/
def nextPosLoop (numLeaves row : Nat) : List Nat → Nat → Nat
  | [], nextPos => nextPos
  | target :: blockTargets, nextPos =>
    if isRootPositionOnRow nextPos numLeaves row then nextPos
    else if subtreeOf target numLeaves ≠ subtreeOf nextPos numLeaves then
      nextPosLoop numLeaves row blockTargets nextPos
    else if isAncestor (parent target (treeRows numLeaves)) nextPos (treeRows numLeaves) then
      nextPosLoop numLeaves row blockTargets
        (match calcNextPosition nextPos target (treeRows numLeaves) with
        | .ok next => next
        | .error _ => 0)
    else nextPosLoop numLeaves row blockTargets nextPos

/-- The loop of `getNewPositions` over the entries; the row is carried from one to the next. -/
def newPositionsLoop [DecidableEq H] [HashOps H] (blockTargets : List Nat) (numLeaves : Nat)
    (appendRoots : Bool) : Nat → List (Nat × H) → Exec (List (Nat × H))
  | _, [] => .ok []
  | row, (pos, hash) :: slice =>
    if hash = empty then newPositionsLoop blockTargets numLeaves appendRoots row slice
    else do
      let row ← possibleRowLoop pos (treeRows numLeaves) 257 row
      if treeRows numLeaves < row then .ok []
      else do
        let nextPos := nextPosLoop numLeaves row blockTargets pos
        let newSlice ← newPositionsLoop blockTargets numLeaves appendRoots row slice
        .ok (if appendRoots || !isRootPositionOnRow nextPos numLeaves row then
          (nextPos, hash) :: newSlice else newSlice)

/-- The entries at their positions after the targets have been deleted. -/
def getNewPositions [DecidableEq H] [HashOps H] (blockTargets : List Nat)
    (slice : List (Nat × H)) (numLeaves : Nat) (appendRoots : Bool) :
    Exec (List (Nat × H)) := do
  let newSlice ← newPositionsLoop blockTargets numLeaves appendRoots 0 slice
  .ok (SortAlg.sort Prod.fst newSlice)

end

end Utreexo
