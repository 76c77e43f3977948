import Utreexo.HashAndPos

/-! # Walking from the targets to the roots

The two row loops of the repository: `proofPositions` of `utils.go`, which lists
the positions a proof needs, and `calculateHashes` of `prove.go`, which hashes
the targets up to the roots.  Both take the least position of two queues, the
targets and the parents computed so far, pair it with its sibling if that is the
next least one, and queue the parent.

A queue is the part of the source's slice from its index on.  The loops run with
fuel; running out of it is `Stop.diverge`.
-/
namespace Utreexo

/-- One of the two slices that `getNextPos` reads. -/
inductive Source
  | slice1
  | slice2
  deriving DecidableEq, Repr

/-- The slice with the lesser front; `none` stands for the source's `-1`. -/
def nextLeastSlice : List Nat → List Nat → Option Source
  | a :: _, b :: _ => if a < b then some .slice1 else some .slice2
  | _ :: _, [] => some .slice1
  | [], _ :: _ => some .slice2
  | [], [] => none

/-- Whether the next least position is the sibling of `pos`, and in which slice. -/
def nextSibling (pos : Nat) (slice1 slice2 : List Nat) : Option Source :=
  match nextLeastSlice slice1 slice2 with
  | some .slice1 => if slice1.head? = some (rightSib pos) then some .slice1 else none
  | some .slice2 => if slice2.head? = some (rightSib pos) then some .slice2 else none
  | none => none

/-- The next position, the slice it comes from, and the slice its sibling comes
from if the sibling is next. -/
def getNextPos (slice1 slice2 : List Nat) : Option (Nat × Source × Option Source) :=
  match nextLeastSlice slice1 slice2, slice1, slice2 with
  | some .slice1, pos :: rest, _ => some (pos, .slice1, nextSibling pos rest slice2)
  | some .slice2, _, pos :: rest => some (pos, .slice2, nextSibling pos slice1 rest)
  | _, _, _ => none

/-! ### The positions a proof needs -/

/-- The loop of `proofPosition`; `h` is a `uint8`. -/
def proofPositionLoop (numLeaves totalRows : Nat) : Nat → Nat → Nat → List Nat → Exec (List Nat)
  | 0, _, _, _ => .error .diverge
  | fuel + 1, h, pos, proofs =>
    if totalRows < h then .ok proofs
    else if isRootPositionTotalRows pos numLeaves totalRows then .ok proofs
    else proofPositionLoop numLeaves totalRows fuel (add8 h 1) (parent pos totalRows)
      (proofs ++ [sibling pos])

/-- The positions needed to prove a single target. -/
def proofPosition (target numLeaves totalRows : Nat) : Exec (List Nat) :=
  proofPositionLoop numLeaves totalRows 257 (detectRow target totalRows) target []

/-- The inner loop of `proofPositions`: the first row that reaches `target`. -/
def possibleRowLoop (target totalRows : Nat) : Nat → Nat → Exec Nat
  | 0, _ => .error .diverge
  | fuel + 1, row =>
    if maxPossiblePosAtRow row totalRows < target ∧ row ≤ totalRows then
      possibleRowLoop target totalRows fuel (add8 row 1)
    else .ok row

/-- The variables of the loop of `proofPositions`. -/
structure PosState where
  row : Nat
  /-- `targets` from `targetsIdx` on. -/
  targets : List Nat
  /-- `nextTargets` from `nextTargetsIdx` on. -/
  queue : List Nat
  nextTargets : List Nat
  proofPositions : List Nat
  deriving DecidableEq, Repr

/-- Takes the front of one of the two slices. -/
def PosState.drop (st : PosState) : Source → PosState
  | .slice1 => { st with targets := st.targets.tail }
  | .slice2 => { st with queue := st.queue.tail }

def PosState.push (st : PosState) (pos : Nat) : PosState :=
  { st with queue := st.queue ++ [pos], nextTargets := st.nextTargets ++ [pos] }

/-- One round of the loop of `proofPositions`; `none` means that the loop ends. -/
def posStep (numLeaves totalRows fuel : Nat) (st : PosState) : Exec (Option PosState) :=
  if totalRows < st.row then .ok none
  else match getNextPos st.targets st.queue with
  | none => .ok none
  | some (target, idx, sibIdx) => do
    let st := st.drop idx
    let row ← possibleRowLoop target totalRows fuel st.row
    let st := { st with row := row }
    if totalRows < row then .ok none
    else if isRootPositionOnRowTotalRows target numLeaves row totalRows then .ok (some st)
    else
      let st := match sibIdx with
        | some i => st.drop i
        | none => { st with proofPositions := st.proofPositions ++ [sibling target] }
      .ok (some (st.push (parent target totalRows)))

def posLoop (numLeaves totalRows : Nat) : Nat → PosState → Exec PosState
  | 0, _ => .error .diverge
  | fuel + 1, st => do
    match ← posStep numLeaves totalRows fuel st with
    | none => .ok st
    | some st' => posLoop numLeaves totalRows fuel st'

/-- The positions needed to prove the sorted `targets`, and the positions that are
computed on the way. -/
def proofPositions (targets : List Nat) (numLeaves totalRows : Nat) :
    Exec (List Nat × List Nat) := do
  let st ← posLoop numLeaves totalRows ((targets.length + 1) * (totalRows + 2) + 257)
    ⟨0, targets, [], [], []⟩
  .ok (st.proofPositions, st.nextTargets)

/-! ### The hashes from the targets up to the roots -/

section Calculate
variable {H : Type}

/-- The hash of the parent: an empty hash gives way to the other one. -/
def getNextHash [DecidableEq H] [HashOps H] (pos : Nat) (hash sibHash : H) : H :=
  if hash = empty then sibHash
  else if sibHash = empty then hash
  else if isLeftNiece pos then parentHash hash sibHash
  else parentHash sibHash hash

/-- `maxPositionAtRow` with the error ignored, as `calculateHashes` ignores it. -/
def maxPos (row totalRows numLeaves : Nat) : Nat :=
  match maxPositionAtRow row totalRows numLeaves with
  | .ok max => max
  | .error _ => 0

/-- The inner loop of `calculateHashes`: `row` is a `uint8` and wraps around. -/
def rowLoop (provePos totalRows numLeaves : Nat) : Nat → Nat → Exec Nat
  | 0, _ => .error .diverge
  | fuel + 1, row =>
    if maxPos row totalRows numLeaves < provePos then
      rowLoop provePos totalRows numLeaves fuel (add8 row 1)
    else .ok row

/-- The variables of the loop of `calculateHashes`. -/
structure CalcState (H : Type) where
  row : Nat
  /-- `toProve` from `toProveIdx` on. -/
  toProve : List (Nat × H)
  /-- `nextProves` from `nextProvesIdx` on. -/
  queue : List (Nat × H)
  nextProves : List (Nat × H)
  roots : List H
  /-- `proof.Proof` from `proofHashIdx` on. -/
  proof : List H
  deriving DecidableEq, Repr

/-- Takes the hash at the front of one of the two slices. -/
def CalcState.take (st : CalcState H) : Source → Exec (H × CalcState H)
  | .slice1 => match st.toProve with
    | [] => .error .panic
    | e :: rest => .ok (e.2, { st with toProve := rest })
  | .slice2 => match st.queue with
    | [] => .error .panic
    | e :: rest => .ok (e.2, { st with queue := rest })

/-- `proof.Proof[proofHashIdx]`, the read that a short proof makes go out of range. -/
def CalcState.takeProof (st : CalcState H) : Exec (H × CalcState H) :=
  match st.proof with
  | [] => .error .panic
  | h :: rest => .ok (h, { st with proof := rest })

/-- The sibling's hash: the next one if the sibling is next, else the next hash of
the proof. -/
def CalcState.takeSib (st : CalcState H) : Option Source → Exec (H × CalcState H)
  | some i => st.take i
  | none => st.takeProof

def CalcState.push (st : CalcState H) (pos : Nat) (hash : H) : CalcState H :=
  { st with queue := st.queue ++ [(pos, hash)], nextProves := st.nextProves ++ [(pos, hash)] }

/-- One round of the loop of `calculateHashes`; `none` means that the loop ends.
`next` is the hash of the parent, `getNextHash` in the source. -/
def calcStep (next : Nat → H → H → H) (numLeaves totalRows fuel : Nat) (st : CalcState H) :
    Exec (Option (CalcState H)) :=
  if totalRows < st.row then .ok none
  else match getNextPos (st.toProve.map Prod.fst) (st.queue.map Prod.fst) with
  | none => .ok none
  | some (provePos, idx, sibIdx) => do
    let (proveHash, st) ← st.take idx
    let row ← rowLoop provePos totalRows numLeaves fuel st.row
    let st := { st with row := row }
    if isRootPositionOnRow provePos numLeaves row then
      .ok (some { st with roots := st.roots ++ [proveHash] })
    else do
      let (sibHash, st) ← st.takeSib sibIdx
      .ok (some (st.push (parent provePos totalRows) (next provePos proveHash sibHash)))

def calcLoop (next : Nat → H → H → H) (numLeaves totalRows : Nat) :
    Nat → CalcState H → Exec (CalcState H)
  | 0, _ => .error .diverge
  | fuel + 1, st => do
    match ← calcStep next numLeaves totalRows fuel st with
    | none => .ok st
    | some st' => calcLoop next numLeaves totalRows fuel st'

/-- The state before the first round. -/
def CalcState.start (toProve : List (Nat × H)) (proof : List H) : CalcState H :=
  ⟨0, toProve, [], [], [], proof⟩

/-- A bound on the rounds: each one shortens a queue or the proof, and the row has
256 values. -/
def calcFuel (proof : Proof H) : Nat := proof.targets.length + proof.proof.length + 257

/-- The hashes of the roots and of all nodes used to calculate them.  Without
`delHashes` these are the hashes after the deletion of the targets. -/
def calculateHashes [DecidableEq H] [HashOps H] [SortAlg] (numLeaves : Nat)
    (delHashes : Option (List H)) (proof : Proof H) : Exec (List (Nat × H) × List H) := do
  let toProve := toHashAndPos proof.targets
    (delHashes.getD (List.replicate proof.targets.length empty))
  let st ← calcLoop getNextHash numLeaves (treeRows numLeaves) (calcFuel proof)
    (CalcState.start toProve proof.proof)
  .ok (mergeSortedHashAndPos st.nextProves toProve, st.roots)

end Calculate

end Utreexo
