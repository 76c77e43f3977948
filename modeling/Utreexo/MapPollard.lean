import Utreexo.Pollard

/-! # The MapPollard

`mappollard.go`: the accumulator that keeps its nodes in a map from positions.  The
positions are those of a forest with `TotalRows` rows, which may be more than the
leaves need; proofs carry the positions of a forest with `treeRows NumLeaves` rows.

A read of a missing key gives the zero value, as in the source.
-/
namespace Utreexo

structure MapPollard (H : Type) where
  /-- The positions of the leaves that are always cached. -/
  cachedLeaves : Finmap (fun _ : H => Nat)
  /-- The nodes at their positions. -/
  nodes : Finmap (fun _ : Nat => Leaf H)
  numLeaves : Nat
  totalRows : Nat

/-- The errors of the MapPollard, with the values that their messages name. -/
inductive MapErr (H : Type)
  /-- "Cannot prove:\n%s\nas not all of them are cached". -/
  | unprovable (hashes : List H)
  /-- "Proof position %v not cached for the requested target slice of: %v", with the
  hashes and the needed positions. -/
  | noProof (pos : Nat) (targets : List Nat) (hashes : List H) (needed : List Nat)
  /-- The error of `Verify`. -/
  | invalid (err : StumpErr)
  deriving DecidableEq, Repr

namespace MapPollard

section
variable {H : Type} [DecidableEq H] [HashOps H]

/-- `NewMapPollard`. -/
def new : MapPollard H := ⟨∅, ∅, 0, 50⟩

/-- `m.Nodes[pos]`. -/
def node (m : MapPollard H) (pos : Nat) : Leaf H := (m.nodes.lookup pos).getD ⟨empty, false⟩

/-! ### Roots and hashes -/

def getRoots (m : MapPollard H) : List H :=
  (rootPositions m.numLeaves m.totalRows).map fun pos => (m.node pos).hash

def getHash (m : MapPollard H) (pos : Nat) : H := (m.node pos).hash

def getStump (m : MapPollard H) : Stump H := ⟨m.getRoots, m.numLeaves⟩

/-! ### Proving -/

/-- Whether all the hashes are cached. -/
def cached (m : MapPollard H) (hashes : List H) : Bool := hashes.all (· ∈ m.cachedLeaves)

/-- `m.CachedLeaves[hash]`. -/
def cachedPos (m : MapPollard H) (hash : H) : Nat := (m.cachedLeaves.lookup hash).getD 0

/-- The hashes at the positions, up to the first one that is missing. -/
def hashesAt (m : MapPollard H) : List Nat → Except Nat (List H)
  | [] => .ok []
  | pos :: proofPos =>
    match m.nodes.lookup pos with
    | none => .error pos
    | some node =>
      match hashesAt m proofPos with
      | .error missing => .error missing
      | .ok hashes => .ok (node.hash :: hashes)

/-- Proves the leaves. -/
def prove (m : MapPollard H) (proveHashes : List H) : Exec (Except (MapErr H) (Proof H)) :=
  if m.cached proveHashes then do
    let origTargets := proveHashes.map m.cachedPos
    let (proofPos, _) ← proofPositions (sortPositions origTargets) m.numLeaves m.totalRows
    match m.hashesAt proofPos with
    | .error pos => .ok (.error (.noProof pos origTargets proveHashes proofPos))
    | .ok hashes =>
      let targets := if m.totalRows ≠ treeRows m.numLeaves
        then translatePositions origTargets m.totalRows (treeRows m.numLeaves) else origTargets
      .ok (.ok ⟨targets, hashes⟩)
  else .ok (.error (.unprovable proveHashes))

/-! ### Verifying -/

/-- The positions up to the first one that is not in the forest. -/
def trimProofPos (numLeaves : Nat) : List Nat → Exec (List Nat)
  | [] => .ok []
  | pos :: proofPos => do
    if ← inForest pos numLeaves (treeRows numLeaves) then do
      let rest ← trimProofPos numLeaves proofPos
      .ok (pos :: rest)
    else .ok []

/-- Places proof hashes at the positions that have no node yet. -/
def placeProof (m : MapPollard H) : List Nat → List H → Exec (MapPollard H)
  | [], _ => .ok m
  | pos :: proofPos, proof =>
    if pos ∈ m.nodes then placeProof m proofPos proof.tail
    else match proof with
    | [] => .error .panic
    | hash :: proof =>
      placeProof { m with nodes := m.nodes.insert pos ⟨hash, false⟩ } proofPos proof

/-- Places calculated nodes; the targets among them are remembered. -/
def placeNodes (targets : List Nat) (m : MapPollard H) (hnp : List (Nat × H)) : MapPollard H :=
  hnp.foldl (fun m e => { m with
    nodes := m.nodes.insert e.1 ⟨e.2, e.1 ∈ targets⟩
    cachedLeaves := if e.1 ∈ targets then m.cachedLeaves.insert e.2 e.1 else m.cachedLeaves }) m

/-- Positions of a forest with the rows that the leaves need, sorted after their
translation. -/
def translateSorted [SortAlg] (m : MapPollard H) (hnp : List (Nat × H)) : List (Nat × H) :=
  if m.totalRows ≠ treeRows m.numLeaves then
    SortAlg.sort Prod.fst
      (hnp.map fun e => (translatePos e.1 (treeRows m.numLeaves) m.totalRows, e.2))
  else hnp

/-- Places the proof in the nodes and caches its targets. -/
def ingest [SortAlg] (m : MapPollard H) (delHashes : List H) (proof : Proof H) :
    Exec (MapPollard H) := do
  let hnp := m.translateSorted (toHashAndPos proof.targets delHashes)
  let (proofPos, _) ← proofPositions (hnp.map Prod.fst) m.numLeaves m.totalRows
  let proofPos ← if m.totalRows < treeRows m.numLeaves then trimProofPos m.numLeaves proofPos
    else .ok proofPos
  let m ← m.placeProof proofPos proof.proof
  let (intermediate, _) ← calculateHashes m.numLeaves (some delHashes) proof
  .ok (placeNodes (hnp.map Prod.fst) m (m.translateSorted intermediate))

/-- The proof with its targets as the forest with the rows that the leaves need has
them. -/
def translateProof (m : MapPollard H) (proof : Proof H) : Proof H :=
  if treeRows m.numLeaves ≠ m.totalRows then
    { proof with targets := translatePositions proof.targets m.totalRows (treeRows m.numLeaves) }
  else proof

/-- Checks a proof against the roots, and caches it if it is to be remembered. -/
def verify [SortAlg] (m : MapPollard H) (delHashes : List H) (proof : Proof H) (remember : Bool) :
    Exec (MapPollard H × Except (MapErr H) Unit) := do
  let proof := m.translateProof proof
  match ← Utreexo.verify m.getStump delHashes proof with
  | .error err => .ok (m, .error (.invalid err))
  | .ok _ =>
    if remember then do
      let m ← m.ingest delHashes proof
      .ok (m, .ok ())
    else .ok (m, .ok ())

end

end MapPollard

end Utreexo
