import Mathlib.Data.Finmap
import Utreexo.PolNode
import Utreexo.Stump

/-! # The Pollard

`pollard.go` and the methods of `Pollard` in `polnode.go` and `prove.go`: the
accumulator that keeps its trees as linked nodes.  `NodeMap` finds the node of a leaf
by the first bytes of its hash.
-/
namespace Utreexo

/-- The first 12 bytes of a hash. -/
class MiniHash (H : Type) (M : outParam Type) where
  mini : H → M

export MiniHash (mini)

/-- A leaf and whether it is to be remembered. -/
structure Leaf (H : Type) where
  hash : H
  remember : Bool
  deriving DecidableEq, Repr

structure Pollard (H M : Type) where
  heap : Heap H
  nodeMap : Finmap (fun _ : M => Addr)
  roots : List Addr
  numLeaves : Nat
  numDels : Nat
  full : Bool

section
variable {H M : Type} [DecidableEq H] [HashOps H] [DecidableEq M] [MiniHash H M]

/-- `NewAccumulator`.  What unused memory holds does not matter. -/
def newAccumulator (full : Bool) : Pollard H M where
  heap := ⟨fun _ => ⟨none, none, none, empty, false⟩, 0⟩
  nodeMap := ∅
  roots := []
  numLeaves := 0
  numDels := 0
  full := full

namespace Pollard

/-- The hashes of the roots. -/
def getRoots (p : Pollard H M) : List H := p.roots.map fun a => (p.heap.get a).data

/-! ### Reading -/

/-- The loop of `getNode`: down the nieces, along the bits of `bits` below `h`. -/
def getNodeLoop (heap : Heap H) (bits : Nat) :
    Nat → Addr → Option Addr → Option Addr → Option Addr × Option Addr × Option Addr
  | 0, n, sibling, parent => (some n, sibling, parent)
  | h + 1, n, sibling, _ =>
    let node := heap.get n
    let (next, nextSib) :=
      if isLeftNiece ((bits >>> h) &&& 1) then (node.lNiece, node.rNiece)
      else (node.rNiece, node.lNiece)
    match next with
    | none => (none, none, none)
    | some n => getNodeLoop heap bits h n nextSib sibling

/-- The node at a position, its sibling and its parent. -/
def getNode (p : Pollard H M) (pos : Nat) :
    Except (PolErr H) (Option Addr × Option Addr × Option Addr) :=
  if maxPosition (treeRows p.numLeaves) ≤ pos then .error (.noPosition pos p.numLeaves)
  else match detectOffset pos p.numLeaves with
  | .error e => .error (.pos e)
  | .ok (tree, branchLen, bits) =>
    if p.roots.length % 2 ^ 8 ≤ tree then .error (.noRoot pos tree p.roots.length)
    else match p.roots[tree]? with
    | none => .ok (none, none, none)
    | some root => .ok (getNodeLoop p.heap bits branchLen root (some root) none)

/-- The hash of the node that `getNode` returned. -/
def hashOfNode (heap : Heap H) : Except (PolErr H) (Option Addr × Option Addr × Option Addr) → H
  | .error _ => empty
  | .ok (none, _, _) => empty
  | .ok (some n, _, _) => (heap.get n).data

def getHash (p : Pollard H M) (pos : Nat) : H := hashOfNode p.heap (p.getNode pos)

/-- The first loop of `calculatePosition`: up the aunts.  Returns the root, the bits of
the way and its length. -/
def auntLoop (heap : Heap H) : Nat → Addr → Nat → Nat → Exec (Addr × Nat × Nat)
  | 0, _, _, _ => .error .diverge
  | fuel + 1, node, leftRightIndicator, rowsToTop =>
    match (heap.get node).aunt with
    | none => .ok (node, leftRightIndicator, rowsToTop)
    | some aunt =>
      let ind := if (heap.get aunt).lNiece = some node then shl64 leftRightIndicator 1
        else shl64 leftRightIndicator 1 ||| 1
      auntLoop heap fuel aunt (if rowsToTop = 0 then ind ^^^ 1 else ind) (rowsToTop + 1)

/-- The second loop of `calculatePosition`: the row of the root with the given data,
over the rows from the lowest on and the roots from the last on. -/
def rootRowLoop (numLeaves : Nat) (data : H) : List Nat → List H → Exec (Option Nat)
  | [], _ => .ok none
  | h :: rows, roots =>
    if (numLeaves >>> h) &&& 1 = 1 then
      match roots with
      | [] => .error .panic
      | root :: roots =>
        if root = data then .ok (some h) else rootRowLoop numLeaves data rows roots
    else rootRowLoop numLeaves data rows roots

/-- The third loop of `calculatePosition`: down from the root. -/
def descend (forestRows leftRightIndicator rowsToTop pos : Nat) : Nat :=
  (List.range rowsToTop).foldl (fun pos i =>
    let isRight := shl64 1 i
    if leftRightIndicator &&& isRight = isRight then sibling (rightChild pos forestRows)
    else sibling (leftChild pos forestRows)) pos

/-- The position of a node.  A root row that is not found is `-1`, 255 as a `uint8`. -/
def calculatePosition (p : Pollard H M) (node : Addr) : Exec Nat := do
  let (root, leftRightIndicator, rowsToTop) ← auntLoop p.heap (p.heap.next + 1) node 0 0
  let forestRows := treeRows p.numLeaves
  let rootRow ← rootRowLoop p.numLeaves (p.heap.get root).data (List.range (forestRows + 1))
    p.getRoots.reverse
  .ok (descend forestRows leftRightIndicator rowsToTop
    (rootPosition p.numLeaves (rootRow.getD 255) forestRows))

/-! ### Adding -/

/-- The loop of `calculateNewRoot` from row `h` on. -/
def newRootLoop (p : Pollard H M) : Nat → Nat → Addr → Exec (Pollard H M × Addr)
  | 0, _, _ => .error .diverge
  | fuel + 1, h, node =>
    if (p.numLeaves >>> h) &&& 1 = 1 then
      match p.roots.getLast? with
      | none => .error .panic
      | some root =>
        if (p.heap.get root).data = empty then
          newRootLoop { p with roots := p.roots.dropLast } fuel (h + 1) node
        else do
          let heap ← swapNieces p.heap root node
          let nHash := parentHash (heap.get root).data (heap.get node).data
          let (newRoot, heap) := heap.alloc ⟨some root, some node, none, nHash, p.full⟩
          let heap ← updateAunt heap newRoot
          let heap ← prune heap newRoot
          newRootLoop { p with roots := p.roots.dropLast, heap := heap } fuel (h + 1) newRoot
    else .ok (p, node)

/-- Merges the new leaf with the trees on the rows of the trailing ones. -/
def calculateNewRoot (p : Pollard H M) (node : Addr) : Exec (Pollard H M × Addr) :=
  newRootLoop p 65 0 node

/-- Adds one leaf. -/
def addLeaf (p : Pollard H M) (add : Leaf H) : Exec (Pollard H M) := do
  let remember := add.remember || p.full
  let (node, heap) := p.heap.alloc ⟨none, none, none, add.hash, remember⟩
  let p := { p with
    heap := heap
    nodeMap := if remember then p.nodeMap.insert (mini add.hash) node else p.nodeMap }
  let (p, newRoot) ← p.calculateNewRoot node
  .ok { p with roots := p.roots ++ [newRoot], numLeaves := add64 p.numLeaves 1 }

def add (p : Pollard H M) : List (Leaf H) → Exec (Pollard H M)
  | [] => .ok p
  | a :: adds => do
    let p ← p.addLeaf a
    add p adds

/-! ### Deleting -/

/-- The pointers of `deleteRoot`: the root forgets its children and its hash. -/
def emptyRoot (heap : Heap H) (root : Addr) : Heap H :=
  let heap := heap.clearAunt (heap.get root).lNiece
  let heap := heap.clearAunt (heap.get root).rNiece
  ((chop heap root).setAunt root none).setData root empty

/-- Empties a root. -/
def deleteRoot (p : Pollard H M) (del : Nat) : Exec (Pollard H M × Except (PolErr H) Unit) :=
  match detectOffset del p.numLeaves with
  | .error e => .ok (p, .error (.pos e))
  | .ok (tree, _, _) =>
    if (p.roots.length + 255) % 2 ^ 8 < tree then .ok (p, .error (.noRoot del tree p.roots.length))
    else match p.roots[tree]? with
    | none => .error .panic
    | some root =>
      let nodeMap := p.nodeMap.erase (mini (p.heap.get root).data)
      .ok ({ p with heap := emptyRoot p.heap root, nodeMap := nodeMap }, .ok ())

/-- The branch of `deleteSingle` that moves `fromNode` up to a node below a root. -/
def moveUpNode (heap : Heap H) (fromNode fromNodeSib toNode : Addr) (toSib : Option Addr) :
    Exec (Heap H) := do
  let (heap, _) ← transferAunt heap fromNode toNode
  let heap ← transferNiece heap fromNode toNode
  let toSib ← deref toSib
  let heap ← transferNiece heap toSib fromNodeSib
  let aunt ← deref (heap.get toNode).aunt
  updateAunt heap aunt

/-- The branch of `deleteSingle` that makes `fromNode` the root. -/
def moveUpRoot (heap : Heap H) (fromNode fromNodeSib toNode : Addr) : Exec (Heap H) := do
  let heap := heap.set toNode (heap.get fromNode)
  let heap ← transferNiece heap toNode fromNodeSib
  let heap ← updateAunt heap toNode
  .ok (delNode heap (some fromNode))

/-- The nodes moved by `deleteSingle`: `fromNode` takes the place of its parent
`toNode`, and its sibling is deleted. -/
def moveUp (p : Pollard H M) (fromNode fromNodeSib toNode : Addr) (toSib : Option Addr) :
    Exec (Pollard H M) := do
  let p ← if (p.heap.get toNode).aunt.isSome then do
      let heap ← moveUpNode p.heap fromNode fromNodeSib toNode toSib
      pure { p with heap := heap }
    else do
      let heap ← moveUpRoot p.heap fromNode fromNodeSib toNode
      let key := mini (heap.get toNode).data
      pure { p with
        heap := heap
        nodeMap := if key ∈ p.nodeMap then p.nodeMap.insert key toNode else p.nodeMap }
  .ok { p with
    nodeMap := p.nodeMap.erase (mini (p.heap.get fromNodeSib).data)
    heap := delNode p.heap (some fromNodeSib) }

/-- The last part of `deleteSingle`: the aunt of `toNode`, and the hashes of its
ancestors. -/
def rehash (p : Pollard H M) (del : Nat) (toNode : Addr) :
    Exec (Pollard H M × Except (PolErr H) Unit) :=
  if isRootPosition (parent del (treeRows p.numLeaves)) p.numLeaves then
    .ok ({ p with heap := p.heap.setAunt toNode none }, .ok ())
  else match getParent p.heap toNode with
  | .error e => .ok (p, .error e)
  | .ok parentNode => do
    let parentNode ← deref parentNode
    match getSibling p.heap parentNode with
    | .error e => .ok ({ p with heap := p.heap.setAunt toNode none }, .error e)
    | .ok sib =>
      let aunt := match sib with
        | none => some parentNode
        | some a => some a
      let (heap, res) ← hashToRoot (p.heap.setAunt toNode aunt) (some parentNode)
      .ok ({ p with heap := heap }, res)

/-- `deleteSingle` once `getNode` has found the sibling of the node. -/
def deleteNode (p : Pollard H M) (del : Nat) :
    Except (PolErr H) (Option Addr × Option Addr × Option Addr) →
      Exec (Pollard H M × Except (PolErr H) Unit)
  | .error e => .ok (p, .error e)
  | .ok (fromNode, fromNodeSib, _) => do
    let fromNodeSib ← deref fromNodeSib
    match getParent p.heap fromNodeSib with
    | .error e => .ok (p, .error e)
    | .ok toNode => do
      let toNode ← deref toNode
      let fromNode ← deref fromNode
      let p ← p.moveUp fromNode fromNodeSib toNode (p.heap.get fromNodeSib).aunt
      p.rehash del toNode

/-- Deletes one node; its sibling takes the place of their parent. -/
def deleteSingle (p : Pollard H M) (del : Nat) : Exec (Pollard H M × Except (PolErr H) Unit) :=
  p.deleteNode del (p.getNode (sibling del))

/-- The loop of `remove`. -/
def removeLoop (p : Pollard H M) : List Nat → Exec (Pollard H M × Except (PolErr H) Unit)
  | [] => .ok (p, .ok ())
  | del :: dels => do
    let (p, res) ←
      if isRootPosition del p.numLeaves then p.deleteRoot del else p.deleteSingle del
    match res with
    | .error e => .ok (p, .error e)
    | .ok () => removeLoop p dels

/-- Deletes the nodes at the positions. -/
def remove (p : Pollard H M) (dels : List Nat) : Exec (Pollard H M × Except (PolErr H) Unit) :=
  p.removeLoop (deTwin (sortPositions dels) (treeRows p.numLeaves))

def deleteFromMap (p : Pollard H M) (delHashes : List H) : Pollard H M :=
  { p with nodeMap := delHashes.foldl (fun m h => m.erase (mini h)) p.nodeMap }

/-- Deletes the targets and adds the leaves, without any check of the proof. -/
def modify (p : Pollard H M) (adds : List (Leaf H)) (delHashes : List H) (proof : Proof H) :
    Exec (Pollard H M × Except (PolErr H) Unit) := do
  let (p, res) ← (p.deleteFromMap delHashes).remove proof.targets
  match res with
  | .error e => .ok (p, .error e)
  | .ok () => do
    let p := { p with numDels := add64 p.numDels proof.targets.length }
    let p ← p.add adds
    .ok (p, .ok ())

/-! ### Proving -/

/-- The positions of the leaves. -/
def targetsOf (p : Pollard H M) : List H → Exec (Except (PolErr H) (List Nat))
  | [] => .ok (.ok [])
  | wanted :: hashes =>
    match p.nodeMap.lookup (mini wanted) with
    | none => .ok (.error (.notFound wanted))
    | some node => do
      let pos ← p.calculatePosition node
      match ← targetsOf p hashes with
      | .error e => .ok (.error e)
      | .ok targets => .ok (.ok (pos :: targets))

/-- The hashes at the positions. -/
def hashesAt (p : Pollard H M) : List Nat → Except (PolErr H) (List H)
  | [] => .ok []
  | pos :: positions =>
    if p.getHash pos = empty then .error (.unreadable pos)
    else match hashesAt p positions with
    | .error e => .error e
    | .ok hashes => .ok (p.getHash pos :: hashes)

/-- Proves the leaves. -/
def prove (p : Pollard H M) (hashes : List H) : Exec (Except (PolErr H) (Proof H)) :=
  if hashes.length = 0 ∨ p.numLeaves = 0 then .ok (.ok ⟨[], []⟩)
  else if p.numLeaves = 1 then .ok (.ok ⟨[0], []⟩)
  else do
    match ← p.targetsOf hashes with
    | .error e => .ok (.error e)
    | .ok targets =>
      let (positions, _) ← proofPositions (sortPositions targets) p.numLeaves
        (treeRows p.numLeaves)
      match p.hashesAt positions with
      | .error e => .ok (.error e)
      | .ok hashes => .ok (.ok ⟨targets, hashes⟩)

/-- Checks a proof against the roots.  `remember` is not used. -/
def verify [SortAlg] (p : Pollard H M) (delHashes : List H) (proof : Proof H) (_remember : Bool) :
    Exec (Except (PolErr H) Unit) :=
  if delHashes.length = 0 then .ok (.ok ())
  else if delHashes.length ≠ proof.targets.length then
    .ok (.error (.lengths proof.targets.length delHashes.length))
  else do
    let (_, rootCandidates) ← calculateHashes p.numLeaves (some delHashes) proof
    if rootCandidates.length = 0 then .ok (.error (.noRoots delHashes.length))
    else
      let rootMatches := (matchRoots p.getRoots.reverse rootCandidates []).length
      if rootCandidates.length ≠ rootMatches then
        .ok (.error (.roots rootCandidates.length rootMatches rootCandidates p.getRoots))
      else .ok (.ok ())

end Pollard

end

/-- A first part that tells the hashes of leaves apart, and only those. -/
def FreeHash.mini : FreeHash → FreeHash
  | .leaf i => .leaf i
  | _ => .empty

instance : MiniHash FreeHash FreeHash := ⟨FreeHash.mini⟩

end Utreexo
