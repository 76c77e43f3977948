import Utreexo.Pollard

/-! # Undoing a block of the Pollard

`Pollard.Undo` and its helpers.  The added leaves are taken off again one by one, the
roots that the additions passed over are put back as empty roots, and the deleted leaves
are put back as whole subtrees, the highest position first.
-/
namespace Utreexo

/-- A node that is not part of the Pollard yet, and the position it belongs to. -/
structure NodeAndPos where
  node : Addr
  pos : Nat
  deriving DecidableEq, Repr

/-- `sort.Search` for the first position above that of `el`, and the insertion before it. -/
def insertSortNodeAndPos (nodes : List NodeAndPos) (el : NodeAndPos) : List NodeAndPos :=
  let index := nodes.findIdx (el.pos < ·.pos)
  nodes.take index ++ el :: nodes.drop index

section
variable {H M : Type} [DecidableEq H] [HashOps H] [DecidableEq M] [MiniHash H M]

/-- Two nodes become the children of a new one. -/
def joinNodes (heap : Heap H) (node sibNode : Addr) : Exec (Heap H × Addr) := do
  let heap ← swapNieces heap node sibNode
  let (parentNode, heap) := heap.alloc
    ⟨some node, some sibNode, none, parentHash (heap.get node).data (heap.get sibNode).data, false⟩
  let heap ← updateAunt heap parentNode
  .ok (heap, parentNode)

/-- The loop of `deTwinPolNode`, as that of `deTwin`. -/
def deTwinPolNodeLoop (forestRows : Nat) :
    Nat → Nat → Heap H → List NodeAndPos → Exec (Heap H × List NodeAndPos)
  | 0, _, heap, polNodes => .ok (heap, polNodes)
  | fuel + 1, i, heap, polNodes =>
    if i < polNodes.length then
      match polNodes[i]?, polNodes[i + 1]? with
      | some pn, some next =>
        if rightSib pn.pos = next.pos then do
          let (heap, parentNode) ← joinNodes heap pn.node next.node
          deTwinPolNodeLoop forestRows fuel i heap
            (insertSortNodeAndPos (polNodes.take i ++ polNodes.drop (i + 2))
              ⟨parentNode, parent pn.pos forestRows⟩)
        else deTwinPolNodeLoop forestRows fuel (i + 1) heap polNodes
      | _, _ => deTwinPolNodeLoop forestRows fuel (i + 1) heap polNodes
    else .ok (heap, polNodes)

/-- Replaces siblings by their parent.  As for `deTwin`, twice the length bounds the
steps. -/
def deTwinPolNode (heap : Heap H) (polNodes : List NodeAndPos) (forestRows : Nat) :
    Exec (Heap H × List NodeAndPos) :=
  deTwinPolNodeLoop forestRows (2 * polNodes.length + 1) 0 heap polNodes

namespace Pollard

/-! ### Additions -/

/-- The loop of `undoSingleAdd`: the lowest root is split until it is a leaf. -/
def undoAddLoop (p : Pollard H M) : Nat → Exec (Pollard H M)
  | 0 => .ok p
  | row + 1 =>
    match p.roots.getLast? with
    | none => .error .panic
    | some lowestRoot =>
      let nodeMap := p.nodeMap.erase (mini (p.heap.get lowestRoot).data)
      match (p.heap.get lowestRoot).lNiece with
      | none => .ok { p with
          heap := delNode p.heap (some lowestRoot)
          nodeMap := nodeMap
          roots := p.roots.dropLast }
      | some lNiece => do
        let rNiece ← deref (p.heap.get lowestRoot).rNiece
        let heap ← swapNieces p.heap lNiece rNiece
        let heap := (heap.setAunt lNiece none).setAunt rNiece none
        undoAddLoop { p with
          heap := delNode heap (some lowestRoot)
          nodeMap := nodeMap
          roots := p.roots.dropLast ++ [lNiece, rNiece] } row

/-- Takes the leaf that was added last off again. -/
def undoSingleAdd (p : Pollard H M) : Exec (Pollard H M) := do
  let lowestRootRow := getLowestRoot p.numLeaves (treeRows p.numLeaves)
  let p ← p.undoAddLoop (lowestRootRow + 1)
  .ok { p with numLeaves := sub64 p.numLeaves 1 }

/-- The first loop of `Undo`. -/
def undoAdds (p : Pollard H M) : Nat → Exec (Pollard H M)
  | 0 => .ok p
  | numAdds + 1 => do
    let p ← p.undoSingleAdd
    undoAdds p numAdds

/-! ### Empty roots -/

/-- The first loop of `undoEmptyRoots`: the roots that the block deleted are empty. -/
def emptyDeleted (numLeaves : Nat) : List Nat → List H → Exec (Except (PolErr H) (List H))
  | [], roots => .ok (.ok roots)
  | del :: dels, roots =>
    if isRootPosition del numLeaves then
      match detectOffset del numLeaves with
      | .error e => .ok (.error (.pos e))
      | .ok (tree, _, _) =>
        if tree < roots.length then emptyDeleted numLeaves dels (roots.set tree empty)
        else .error .panic
    else emptyDeleted numLeaves dels roots

/-- Appends empty roots. -/
def appendEmpty (p : Pollard H M) : Nat → Pollard H M
  | 0 => p
  | k + 1 =>
    let (root, heap) := p.heap.alloc ⟨none, none, none, empty, p.full⟩
    appendEmpty { p with heap := heap, roots := p.roots ++ [root] } k

/-- Puts an empty root at index `i`, unless there is one. -/
def placeEmpty (p : Pollard H M) (i : Nat) : Pollard H M :=
  let p := p.appendEmpty (i + 1 - p.roots.length)
  match p.roots[i]? with
  | none => p
  | some root =>
    if (p.heap.get root).data = empty then p
    else
      let (root, heap) := p.heap.alloc ⟨none, none, none, empty, p.full⟩
      { p with heap := heap, roots := p.roots.take i ++ root :: p.roots.drop i }

/-- The second loop of `undoEmptyRoots`, from index `i` on. -/
def placeEmptyRoots (p : Pollard H M) : Nat → List H → Pollard H M
  | _, [] => p
  | i, prevRoot :: prevRoots =>
    placeEmptyRoots (if prevRoot = empty then p.placeEmpty i else p) (i + 1) prevRoots

/-- Puts the empty roots back after undoing the additions. -/
def undoEmptyRoots (p : Pollard H M) (origDels : List Nat) (prevRoots : List H) :
    Exec (Pollard H M × Except (PolErr H) Unit) :=
  if numRoots p.numLeaves ≤ p.roots.length then .ok (p, .ok ())
  else do
    let dels := deTwin (sortPositions origDels) (treeRows p.numLeaves)
    match ← emptyDeleted p.numLeaves dels prevRoots with
    | .error e => .ok (p, .error e)
    | .ok copyRoots => .ok (p.placeEmptyRoots 0 copyRoots, .ok ())

/-! ### Deletions -/

/-- The first loop of `undoDels`: nodes for the deleted leaves. -/
def allocLeaves (p : Pollard H M) : List Nat → List H → Pollard H M × List NodeAndPos
  | del :: dels, hash :: delHashes =>
    let (pn, heap) := p.heap.alloc ⟨none, none, none, hash, p.full⟩
    let (p, pnps) := allocLeaves { p with
      heap := heap
      nodeMap := p.nodeMap.insert (mini hash) pn } dels delHashes
    (p, ⟨pn, del⟩ :: pnps)
  | _, _ => (p, [])

/-- `node` and `sib` become the nieces of `aunt`, whose nieces go to `node`, and those of
`node` to `sib`. -/
def adopt (heap : Heap H) (pos : Nat) (node sib aunt : Addr) : Exec (Heap H) := do
  let auntLNiece := (heap.get aunt).lNiece
  let auntRNiece := (heap.get aunt).rNiece
  let heap := if isLeftNiece pos then heap.setNieces aunt (some node) (some sib)
    else heap.setNieces aunt (some sib) (some node)
  let heap ← updateAunt heap aunt
  let heap ← transferNiece heap sib node
  updateAunt (heap.setNieces node auntLNiece auntRNiece) node

/-- The branch of `undoSingleDel` that puts `node` beside a node below a root.  The new
`parentNode` takes the place of the sibling. -/
def moveDownNode (heap : Heap H) (pos : Nat) (node sib parentNode : Addr) (aunt : Option Addr) :
    Exec (Heap H) := do
  let (heap, _) ← transferAunt heap parentNode sib
  let heap ← transferNiece heap parentNode sib
  let heap ← updateAunt heap parentNode
  let aunt ← deref aunt
  adopt heap pos node sib aunt

/-- The branch of `undoSingleDel` that puts `node` beside a root.  The root moves to the
new node `sib`, and its old address is that of the parent. -/
def moveDownRoot (heap : Heap H) (pos : Nat) (node root sib : Addr) : Exec (Heap H) := do
  let parentCell := heap.get sib
  let heap := (heap.set sib (heap.get root)).set root parentCell
  let heap := if isLeftNiece pos then heap.setNieces root (some node) (some sib)
    else heap.setNieces root (some sib) (some node)
  let heap ← updateAunt heap root
  let heap ← updateAunt heap sib
  let l ← deref (heap.get root).lNiece
  let r ← deref (heap.get root).rNiece
  swapNieces heap l r

/-- `undoSingleDel` once `getNode` has found the sibling. -/
def undoNode (p : Pollard H M) (node : Addr) (pos : Nat) :
    Except (PolErr H) (Option Addr × Option Addr × Option Addr) →
      Exec (Pollard H M × Except (PolErr H) Unit)
  | .error e => .ok (p, .error (.undo (p.heap.get node).data pos e))
  | .ok (sib, aunt, _) => do
    let sib ← deref sib
    let pHash := calculateParentHash p.heap pos node sib
    let (parentNode, heap) := p.heap.alloc ⟨none, none, none, pHash, p.full⟩
    if (heap.get sib).aunt.isSome then do
      let heap ← moveDownNode heap pos node sib parentNode aunt
      let (heap, res) ← hashToRoot heap (some parentNode)
      .ok ({ p with heap := heap }, res)
    else do
      let heap ← moveDownRoot heap pos node sib parentNode
      let key := mini (heap.get parentNode).data
      .ok ({ p with
        heap := heap
        nodeMap := if key ∈ p.nodeMap then p.nodeMap.insert key parentNode else p.nodeMap }, .ok ())

/-- Puts a deleted subtree back. -/
def undoSingleDel (p : Pollard H M) (node : Addr) (pos : Nat) :
    Exec (Pollard H M × Except (PolErr H) Unit) :=
  p.undoNode node pos (p.getNode (parent pos (treeRows p.numLeaves)))

/-- The second loop of `undoDels`, the highest position first. -/
def undoDelLoop (p : Pollard H M) : List NodeAndPos → Exec (Pollard H M × Except (PolErr H) Unit)
  | [] => .ok (p, .ok ())
  | pnp :: pnps =>
    if isRootPosition pnp.pos p.numLeaves then
      match detectOffset pnp.pos p.numLeaves with
      | .error e => .ok (p, .error (.pos e))
      | .ok (tree, _, _) =>
        if tree < p.roots.length then undoDelLoop { p with roots := p.roots.set tree pnp.node } pnps
        else .error .panic
    else do
      let (p, res) ← p.undoSingleDel pnp.node pnp.pos
      match res with
      | .error e => .ok (p, .error e)
      | .ok () => undoDelLoop p pnps

/-- Puts the deleted leaves back. -/
def undoDels [SortAlg] (p : Pollard H M) (dels : List Nat) (delHashes : List H) :
    Exec (Pollard H M × Except (PolErr H) Unit) :=
  if dels.length ≠ delHashes.length then
    .ok (p, .error (.undoLengths dels.length delHashes.length))
  else do
    let (p, pnps) := p.allocLeaves dels delHashes
    let (heap, pnps) ← deTwinPolNode p.heap (SortAlg.sort NodeAndPos.pos pnps)
      (treeRows p.numLeaves)
    let (p, res) ← { p with heap := heap }.undoDelLoop pnps.reverse
    match res with
    | .error e => .ok (p, .error e)
    | .ok () => .ok ({ p with numDels := sub64 p.numDels delHashes.length }, .ok ())

/-- Takes a block back.  `int(numAdds)` is negative from `2 ^ 63` on. -/
def undo [SortAlg] (p : Pollard H M) (numAdds : Nat) (proof : Proof H) (delHashes : List H)
    (prevRoots : List H) : Exec (Pollard H M × Except (PolErr H) Unit) := do
  let p ← p.undoAdds (if numAdds < 2 ^ 63 then numAdds else 0)
  let (p, res) ← p.undoEmptyRoots proof.targets prevRoots
  match res with
  | .error e => .ok (p, .error e)
  | .ok () => p.undoDels proof.targets delHashes

end Pollard

end

end Utreexo
