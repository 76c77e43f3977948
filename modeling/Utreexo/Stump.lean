import Utreexo.Calculate

/-! # The Stump

`stump.go`: the accumulator that keeps only its roots.  It checks a proof, hashes
the targets up to the roots a second time as deleted, and then adds the new
leaves.
-/
namespace Utreexo

/-- The roots, from the highest row to the lowest, and the number of leaves ever
added. -/
structure Stump (H : Type) where
  roots : List H
  numLeaves : Nat
  deriving DecidableEq, Repr

/-- The data that `Update` hands to cached proofs. -/
structure UpdateData (H : Type) where
  toDestroy : List Nat
  prevNumLeaves : Nat
  newDelHash : List H
  newDelPos : List Nat
  newAddHash : List H
  newAddPos : List Nat
  deriving DecidableEq, Repr

/-- The errors of `Verify` and `Update`, with the counts their messages name. -/
inductive StumpErr
  /-- "Was given %d targets but got %d hashes for those targets". -/
  | lengths (targets hashes : Nat)
  /-- "Have %d roots but only matched %d roots". -/
  | roots (candidates matched : Nat)
  /-- "Stump update fail: Invalid proof. Error: %s". -/
  | invalid (err : StumpErr)
  /-- "expected %d modified roots but got %d". -/
  | modified (expected got : Nat)
  deriving DecidableEq, Repr

section
variable {H : Type} [DecidableEq H] [HashOps H]

/-- The loop of `Verify` over the roots from the lowest row to the highest: a root
that equals the next candidate is matched with it.  The roots left to visit are in
reverse order, so the index of the first is the number of those after it. -/
def matchRoots : List H → List H → List Nat → List Nat
  | [], _, rootIndexes => rootIndexes
  | root :: rest, candidates, rootIndexes =>
    match candidates with
    | [] => matchRoots rest [] rootIndexes
    | c :: cs =>
      if root = c then matchRoots rest cs (rootIndexes ++ [rest.length])
      else matchRoots rest (c :: cs) rootIndexes

/-- Checks a proof against the roots and returns the indexes of the roots that
matched. -/
def verify [SortAlg] (stump : Stump H) (delHashes : List H) (proof : Proof H) :
    Exec (Except StumpErr (List Nat)) :=
  if delHashes.length ≠ proof.targets.length then
    .ok (.error (.lengths proof.targets.length delHashes.length))
  else do
    let (_, rootCandidates) ← calculateHashes stump.numLeaves (some delHashes) proof
    let rootIndexes := matchRoots stump.roots.reverse rootCandidates []
    if rootCandidates.length ≠ rootIndexes.length then
      .ok (.error (.roots rootCandidates.length rootIndexes.length))
    else .ok (.ok rootIndexes)

/-- `s.Roots[index] = modifiedRoots[i]` for every matched root. -/
def setRoots (roots : List H) : List Nat → List H → List H
  | index :: indexes, m :: modifiedRoots => setRoots (roots.set index m) indexes modifiedRoots
  | _, _ => roots

/-- Verifies the proof and replaces the matched roots by the roots after the
deletion. -/
def Stump.del [SortAlg] (s : Stump H) (delHashes : List H) (proof : Proof H) :
    Exec (Stump H × Except StumpErr (List H × List Nat)) := do
  match ← verify s delHashes proof with
  | .error err => .ok (s, .error (.invalid err))
  | .ok rootIndexes =>
    let (intermediate, modifiedRoots) ← calculateHashes s.numLeaves none proof
    if modifiedRoots.length ≠ rootIndexes.length then
      .ok (s, .error (.modified rootIndexes.length modifiedRoots.length))
    else
      .ok ({ s with roots := setRoots s.roots rootIndexes modifiedRoots },
        .ok (intermediate.map Prod.snd, intermediate.map Prod.fst))

/-- The root on the lowest row and the rest: `roots[len(roots)-1]` and
`roots[:len(roots)-1]`. -/
def popRoot (roots : List H) : Exec (H × List H) :=
  match roots.getLast? with
  | none => .error .panic
  | some root => .ok (root, roots.dropLast)

/-- The inner loop of `rootsToDestory` from row `h` on: the roots that the next
leaf merges with are taken off, and the empty ones among them are collected. -/
def destroyLoop (numLeaves afterRows : Nat) :
    Nat → Nat → List H → List Nat → Exec (List H × List Nat)
  | 0, _, _, _ => .error .diverge
  | fuel + 1, h, roots, deleted =>
    if (numLeaves >>> h) &&& 1 = 1 then do
      let (root, roots) ← popRoot roots
      destroyLoop numLeaves afterRows fuel (h + 1) roots
        (if root = empty then deleted ++ [rootPosition numLeaves h afterRows] else deleted)
    else .ok (roots, deleted)

/-- The outer loop of `rootsToDestory`; `Hash{1}` stands for every added leaf. -/
def rootsToDestoryLoop : Nat → Nat → List H → List Nat → Exec (List Nat)
  | 0, _, _, deleted => .ok deleted
  | numAdds + 1, numLeaves, roots, deleted => do
    let (roots, deleted) ← destroyLoop numLeaves (treeRows (add64 numLeaves (numAdds + 1)))
      65 0 roots deleted
    rootsToDestoryLoop numAdds (add64 numLeaves 1) (roots ++ [HashOps.one]) deleted

/-- The positions of the empty roots that are written over by `numAdds` additions. -/
def rootsToDestory (numAdds numLeaves : Nat) (origRoots : List H) : Exec (List Nat) :=
  rootsToDestoryLoop numAdds numLeaves origRoots []

/-- The loop of `Stump.add` that merges the new leaf with the roots, from row `h`
on: the roots left, the new root, its position and the entries of the subtree. -/
def mergeRoots (numLeaves afterRows : Nat) :
    Nat → Nat → List H → H → Nat → List (Nat × H) → Exec (List H × H × Nat × List (Nat × H))
  | 0, _, _, _, _, _ => .error .diverge
  | fuel + 1, h, roots, newRoot, pos, subTree =>
    if (numLeaves >>> h) &&& 1 = 1 then do
      let (root, roots) ← popRoot roots
      if root ≠ empty then
        mergeRoots numLeaves afterRows fuel (h + 1) roots (parentHash root newRoot)
          (parent pos afterRows) (subTree ++ [(leftSib pos, root), (pos, newRoot)])
      else mergeRoots numLeaves afterRows fuel (h + 1) roots newRoot pos subTree
    else .ok (roots, newRoot, pos, subTree)

/-- Moves the position of the added leaf up for every empty root above which it is
written. -/
def moveOver (afterRows : Nat) (deleted : List Nat) (pos : Nat) : Nat :=
  deleted.foldl (fun pos del =>
    if isAncestor (parent del afterRows) pos afterRows then
      match calcNextPosition pos del afterRows with
      | .ok next => next
      | .error _ => 0
    else pos) pos

/-- The loop of `Stump.add` over the added hashes. -/
def addLoop (afterRows : Nat) :
    List H → Stump H → List (List (Nat × H)) → Exec (Stump H × List (List (Nat × H)))
  | [], s, subTrees => .ok (s, subTrees)
  | add :: adds, s, subTrees => do
    let deleted ← rootsToDestory (adds.length + 1) s.numLeaves s.roots
    let pos := moveOver afterRows deleted s.numLeaves
    let (roots, newRoot, pos, subTree) ← mergeRoots s.numLeaves afterRows 65 0 s.roots add pos []
    addLoop afterRows adds ⟨roots ++ [newRoot], add64 s.numLeaves 1⟩
      (subTrees ++ [subTree ++ [(pos, newRoot)]])

/-- The subtrees merged into one slice; a subtree that shares a hash with the next
one is skipped. -/
def mergeSubTrees : List (List (Nat × H)) → List (Nat × H) → List (Nat × H)
  | [], updated => updated
  | [subTree], updated => mergeSortedHashAndPos updated subTree
  | subTree :: next :: subTrees, updated =>
    if (getHashAndPosHashSubset subTree (next.map Prod.snd)).length > 0 then
      mergeSubTrees (next :: subTrees) updated
    else mergeSubTrees (next :: subTrees) (mergeSortedHashAndPos updated subTree)

/-- Adds the hashes as leaves.  Returns the new nodes with their positions and the
empty roots that were written over. -/
def Stump.add (s : Stump H) (adds : List H) :
    Exec (Stump H × List H × List Nat × List Nat) := do
  let afterRows := treeRows (add64 s.numLeaves adds.length)
  let allDeleted ← rootsToDestory adds.length s.numLeaves s.roots
  let (s, subTrees) ← addLoop afterRows adds s []
  let updated := mergeSubTrees subTrees []
  .ok (s, updated.map Prod.snd, updated.map Prod.fst, allDeleted)

/-- Verifies the proof, deletes the targets and adds the new leaves. -/
def Stump.update [SortAlg] (s : Stump H) (delHashes addHashes : List H) (proof : Proof H) :
    Exec (Stump H × Except StumpErr (UpdateData H)) := do
  match ← s.del delHashes proof with
  | (s, .error err) => .ok (s, .error err)
  | (s, .ok (delHash, delPos)) =>
    let prevNumLeaves := s.numLeaves
    let (s, addHash, addPos, toDestroy) ← s.add addHashes
    .ok (s, .ok ⟨toDestroy, prevNumLeaves, delHash, delPos, addHash, addPos⟩)

end

end Utreexo
