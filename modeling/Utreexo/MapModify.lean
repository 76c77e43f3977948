import Utreexo.MapPollard
import Utreexo.SortedSlices

/-! # Changing a MapPollard

`Modify` of `mappollard.go` and what it calls.  A call that returns an error keeps what it
has changed until then, so an outcome is the changed map together with the result.  Rows are
`uint8` counters that a loop may pass over, so the loops over them have fuel for every value.
-/
namespace Utreexo

/-- The errors of `Modify`, with the values that their messages name. -/
inductive ModifyErr (H : Type)
  /-- "Cannot delete:\n%s\nas not all of them are cached". -/
  | undeletable (hashes : List H)
  /-- "Add fail. Didn't find root at %d. NumLeaves %d". -/
  | noRoot (rootPos numLeaves : Nat)
  /-- An error of the position functions. -/
  | position (err : PosErr)
  deriving DecidableEq, Repr

/-- The map with every value changed. -/
def mapValues {α β γ : Type} (f : β → γ) (s : Finmap fun _ : α => β) : Finmap fun _ : α => γ :=
  ⟨s.entries.map fun e => ⟨e.1, f e.2⟩, by
    rw [← Multiset.nodup_keys, Multiset.keys, Multiset.map_map]
    exact Multiset.nodup_keys.mpr s.nodupKeys⟩

namespace MapPollard

section
variable {H : Type} [DecidableEq H] [HashOps H]

/-- Goes on with the changed map unless an error was returned. -/
def andThen {ε α β : Type} (r : MapPollard H × Except ε α)
    (f : MapPollard H → α → MapPollard H × Except ε β) : MapPollard H × Except ε β :=
  match r with
  | (m, .error err) => (m, .error err)
  | (m, .ok a) => f m a

/-- `delete(m.Nodes, pos)`. -/
def dropNode (m : MapPollard H) (pos : Nat) : MapPollard H := { m with nodes := m.nodes.erase pos }

/-- `m.Nodes[pos] = node`. -/
def setNode (m : MapPollard H) (pos : Nat) (node : Leaf H) : MapPollard H :=
  { m with nodes := m.nodes.insert pos node }

/-- `m.CachedLeaves[hash] = pos`. -/
def setCached (m : MapPollard H) (hash : H) (pos : Nat) : MapPollard H :=
  { m with cachedLeaves := m.cachedLeaves.insert hash pos }

/-- `m.CachedLeaves[hash] = pos` if there is such an entry. -/
def moveCached (m : MapPollard H) (hash : H) (pos : Nat) : MapPollard H :=
  if hash ∈ m.cachedLeaves then m.setCached hash pos else m

/-! ### Pruning -/

/-- Whether a niece of the position is there. -/
def niecesPresent (m : MapPollard H) (pos : Nat) : Bool :=
  if detectRow pos m.totalRows = 0 then false
  else decide (leftChild (sibling pos) m.totalRows ∈ m.nodes) ||
    decide (rightChild (sibling pos) m.totalRows ∈ m.nodes)

/-- Drops the position if it has no niece. -/
def dropUnneeded (m : MapPollard H) (pos : Nat) : MapPollard H :=
  if m.niecesPresent pos then m else m.dropNode pos

/-- Drops the position and its sibling if neither is remembered, each if it has no niece. -/
def prunePosition (m : MapPollard H) (pos : Nat) : MapPollard H :=
  if !(m.node pos).remember && !(m.node (sibling pos)).remember then
    (m.dropUnneeded (sibling pos)).dropUnneeded pos
  else m

def pruneNieces (m : MapPollard H) (pos : Nat) : MapPollard H :=
  if detectRow pos m.totalRows = 0 then m else m.prunePosition (leftChild pos m.totalRows)

/-- The loop of `forgetUnneededDel`, with the row in a counter of its own. -/
def forgetUnneededLoop : Nat → Nat → Nat → MapPollard H → Exec (MapPollard H)
  | 0, _, _, _ => .error .diverge
  | fuel + 1, row, parentPos, m =>
    if row ≤ m.totalRows then
      let parentPos := parent parentPos m.totalRows
      if isRootPositionTotalRows parentPos m.numLeaves m.totalRows then .ok m
      else forgetUnneededLoop fuel (add8 row 1) parentPos (m.prunePosition parentPos)
    else .ok m

/-- Prunes what is not needed above a deleted position. -/
def forgetUnneededDel (m : MapPollard H) (del : Nat) : Exec (MapPollard H) :=
  if isRootPositionTotalRows del m.numLeaves m.totalRows then .ok m
  else forgetUnneededLoop 257 (detectRow del m.totalRows) del m

/-! ### Moving up -/

/-- Moves a child of the sibling of the position to where it is once `delPos` is gone. -/
def moveUpChild (m : MapPollard H) (position delPos : Nat) (child : Nat → Nat → Nat) :
    MapPollard H × Except PosErr (List Nat) :=
  let c := child (sibling position) m.totalRows
  match calcNextPosition c delPos m.totalRows with
  | .error err => (m, .error err)
  | .ok nextPos =>
    match m.nodes.lookup c with
    | none => (m, .ok [c])
    | some lVal =>
      (((m.dropNode c).setNode nextPos lVal).moveCached lVal.hash nextPos, .ok [c])

def moveUpNieces (m : MapPollard H) (position delPos : Nat) :
    MapPollard H × Except PosErr (List Nat) :=
  if detectRow position m.totalRows = 0 then (m, .ok [])
  else andThen (m.moveUpChild (sibling position) delPos leftChild) fun m l =>
    andThen (m.moveUpChild (sibling position) delPos rightChild) fun m r => (m, .ok (l ++ r))

/-- The inner loop of `moveUpDescendants`: one row, with the positions of the next one. -/
def moveUpRow (delPos : Nat) : List Nat → List Nat → MapPollard H →
    MapPollard H × Except PosErr (List Nat)
  | [], next, m => (m, .ok next)
  | pos :: toMoveUp, next, m =>
    andThen (m.moveUpNieces pos delPos) fun m nextChildren =>
      moveUpRow delPos toMoveUp (mergeSortedSlicesFunc next nextChildren uint64Cmp) m

/-- The outer loop of `moveUpDescendants`. -/
def moveUpRows (delPos : Nat) : Nat → List Nat → MapPollard H → MapPollard H × Except PosErr Unit
  | 0, _, m => (m, .ok ())
  | h + 1, toMoveUp, m =>
    andThen (moveUpRow delPos toMoveUp [] m) fun m next => moveUpRows delPos h next m

/-- Moves the nodes below the position and its sibling to where they are once `delPos` is
gone.  The number of leaves that the source passes along is never read. -/
def moveUpDescendants (m : MapPollard H) (position delPos : Nat) :
    MapPollard H × Except PosErr Unit :=
  let row := detectRow position m.totalRows
  if row = 0 then (m, .ok ())
  else moveUpRows delPos (row + 1) (sortPositions [position, sibling position]) m

/-! ### Adding -/

/-- Moves the node at `i` to `j` if there is one. -/
def moveNode (m : MapPollard H) (i j : Nat) : MapPollard H :=
  match m.nodes.lookup i with
  | none => m
  | some hash => (m.dropNode i).setNode j hash

/-- Moves the `count` nodes from `i` on to the positions from `j` on. -/
def remapLoop : Nat → Nat → Nat → MapPollard H → MapPollard H
  | 0, _, _, m => m
  | count + 1, i, j, m => remapLoop count (i + 1) (add64 j 1) (m.moveNode i j)

/-- Moves the nodes of the given rows to where a forest with `nextRows` rows has them. -/
def remapRows (nextRows : Nat) : List Nat → MapPollard H → MapPollard H × Except PosErr Unit
  | [], m => (m, .ok ())
  | h :: rows, m =>
    let startPos := startPositionAtRow h m.totalRows
    match maxPositionAtRow h m.totalRows m.numLeaves with
    | .error err => (m, .error err)
    | .ok maxPos =>
      remapRows nextRows rows
        (remapLoop (maxPos + 1 - startPos) startPos (startPositionAtRow h nextRows) m)

/-- Makes room for one more leaf.  The rows grow only from fewer than 64, so the loop over
them ends. -/
def remap (m : MapPollard H) : MapPollard H × Except PosErr Nat :=
  let nextRows := treeRows (add64 m.numLeaves 1)
  if nextRows ≤ m.totalRows then (m, .ok m.totalRows)
  else andThen (remapRows nextRows (List.range' 1 m.totalRows) m) fun m _ =>
    ({ m with
      cachedLeaves := mapValues (translatePos · m.totalRows nextRows) m.cachedLeaves
      totalRows := nextRows }, .ok nextRows)

/-- Puts the node at the position beside a root: the node for their parent.  Beside an empty
root the node itself moves up, with everything below it. -/
def joinRoot (add : Leaf H) (totalRows position rootPos : Nat) (node pNode : Leaf H)
    (m : MapPollard H) : MapPollard H × Except PosErr (Leaf H) :=
  if node.hash = empty then
    let m := m.dropNode position
    let m := if add.remember && pNode.hash = add.hash then
      m.moveCached add.hash (parent position totalRows) else m
    andThen (m.moveUpDescendants position rootPos) fun m _ => (m, .ok pNode)
  else (m, .ok ⟨parentHash node.hash pNode.hash, false⟩)

/-- The loop of `addSingle` from row `h` on. -/
def addSingleLoop (add : Leaf H) (totalRows : Nat) :
    Nat → Nat → Nat → Leaf H → MapPollard H → Exec (MapPollard H × Except (ModifyErr H) Unit)
  | 0, _, _, _, _ => .error .diverge
  | fuel + 1, h, position, pNode, m =>
    if (m.numLeaves >>> h) &&& 1 = 1 then
      let rootPos := rootPosition m.numLeaves h totalRows
      match m.nodes.lookup rootPos with
      | none => .ok (m, .error (.noRoot rootPos m.numLeaves))
      | some node =>
        match joinRoot add totalRows position rootPos node pNode m with
        | (m, .error err) => .ok (m, .error (.position err))
        | (m, .ok pNode) =>
          let position := parent position totalRows
          addSingleLoop add totalRows fuel (h + 1) position pNode
            ((m.setNode position pNode).pruneNieces position)
    else .ok (m, .ok ())

/-- Places the leaf at the position, and caches it if it is to be remembered. -/
def placeLeaf (m : MapPollard H) (add : Leaf H) (position : Nat) : MapPollard H :=
  let m := m.setNode position add
  if add.remember then m.setCached add.hash position else m

def addSingle (m : MapPollard H) (add : Leaf H) :
    Exec (MapPollard H × Except (ModifyErr H) Unit) :=
  match m.remap with
  | (m, .error err) => .ok (m, .error (.position err))
  | (m, .ok totalRows) =>
    addSingleLoop add totalRows 65 0 m.numLeaves add (m.placeLeaf add m.numLeaves)

def add (m : MapPollard H) : List (Leaf H) → Exec (MapPollard H × Except (ModifyErr H) Unit)
  | [] => .ok (m, .ok ())
  | leaf :: adds => do
    match ← m.addSingle leaf with
    | (m, .error err) => .ok (m, .error err)
    | (m, .ok ()) => add { m with numLeaves := add64 m.numLeaves 1 } adds

/-! ### Removing -/

def uncacheLeaves (m : MapPollard H) (dels : List H) : MapPollard H :=
  dels.foldl (fun m del => { m with cachedLeaves := m.cachedLeaves.erase del }) m

/-- Drops every node below the position. -/
def forgetBelowLoop : Nat → Nat → MapPollard H → Exec (MapPollard H)
  | 0, _, _ => .error .diverge
  | fuel + 1, position, m =>
    if detectRow position m.totalRows = 0 then .ok m
    else do
      let l := leftChild position m.totalRows
      let r := sibling l
      let m ← forgetBelowLoop fuel l ((m.dropNode l).dropNode r)
      forgetBelowLoop fuel r m

/-- Every call goes to a lower row, and there are at most 65. -/
def forgetBelow (m : MapPollard H) (position : Nat) : Exec (MapPollard H) :=
  forgetBelowLoop 66 position m

/-- The loop of `updateHashes`: `hash` is the hash at `pos`. -/
def updateHashesLoop : Nat → Nat → Nat → H → MapPollard H → Exec (MapPollard H)
  | 0, _, _, _, _ => .error .diverge
  | fuel + 1, row, pos, hash, m =>
    if row ≤ m.totalRows then
      let sibHash := (m.node (sibling pos)).hash
      let hash := if isLeftNiece pos then parentHash hash sibHash else parentHash sibHash hash
      let pos := parent pos m.totalRows
      let m := if pos ∈ m.nodes then m.setNode pos ⟨hash, false⟩ else m
      if isRootPositionTotalRows pos m.numLeaves m.totalRows then .ok m
      else updateHashesLoop fuel (add8 row 1) pos hash m
    else .ok m

/-- Updates the hashes that are there above the parent of the position, which has the given
hash. -/
def updateHashes (m : MapPollard H) (position : Nat) (hash : H) : Exec (MapPollard H) :=
  let pos := parent position m.totalRows
  updateHashesLoop 257 (detectRow pos m.totalRows) pos hash m

/-- Moves the sibling of a deleted position to its parent, with everything below it.  The
hash of the sibling is returned, which is empty if the sibling is not there. -/
def moveUpSibling (m : MapPollard H) (del : Nat) : MapPollard H × Except PosErr H :=
  match m.nodes.lookup (sibling del) with
  | none => (m, .ok empty)
  | some node =>
    let m := (m.dropNode (sibling del)).setNode (parent del m.totalRows) node
    if node.hash ∈ m.cachedLeaves then
      match calcNextPosition (sibling del) del m.totalRows with
      | .error err => (m, .error err)
      | .ok newPos =>
        andThen ((m.setCached node.hash newPos).moveUpDescendants (sibling del) del)
          fun m _ => (m, .ok node.hash)
    else andThen (m.moveUpDescendants (sibling del) del) fun m _ => (m, .ok node.hash)

def removeSingle (m : MapPollard H) (del : Nat) : Exec (MapPollard H × Except PosErr Unit) := do
  let m ← m.forgetBelow del
  if isRootPositionTotalRows del m.numLeaves m.totalRows then
    .ok (m.setNode del ⟨empty, false⟩, .ok ())
  else
    match (m.dropNode del).moveUpSibling del with
    | (m, .error err) => .ok (m, .error err)
    | (m, .ok hash) => do
      let m ← m.updateHashes del hash
      let m ← m.forgetUnneededDel del
      .ok (m, .ok ())

/-- The loop of `remove`; the errors of `removeSingle` are dropped. -/
def removeAll (m : MapPollard H) : List Nat → Exec (MapPollard H)
  | [] => .ok m
  | del :: dels => do
    let (m, _) ← m.removeSingle del
    removeAll m dels

/-- The sorted positions of a proof, as a forest with the rows of the map has them. -/
def sortedDels (m : MapPollard H) (targets : List Nat) : List Nat :=
  if m.totalRows ≠ treeRows m.numLeaves then
    translatePositions (sortPositions targets) (treeRows m.numLeaves) m.totalRows
  else sortPositions targets

def remove (m : MapPollard H) (proof : Proof H) (delHashes : List H) :
    Exec (MapPollard H × Except (ModifyErr H) Unit) :=
  if m.cached delHashes then do
    let m := m.uncacheLeaves delHashes
    let m ← m.removeAll (deTwin (m.sortedDels proof.targets) m.totalRows)
    .ok (m, .ok ())
  else .ok (m, .error (.undeletable delHashes))

/-- Removes the leaves, then adds the new ones. -/
def modify (m : MapPollard H) (adds : List (Leaf H)) (delHashes : List H) (proof : Proof H) :
    Exec (MapPollard H × Except (ModifyErr H) Unit) := do
  match ← m.remove proof delHashes with
  | (m, .error err) => .ok (m, .error err)
  | (m, .ok ()) => m.add adds

end

end MapPollard

end Utreexo
