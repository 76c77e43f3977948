import Utreexo.Words

/-! # Positions in the forest

The position arithmetic of `utils.go`.  A forest with `forestRows` rows numbers
its nodes row by row, starting with the leaves:

```text
14
|---------------\
12              13
|-------\       |-------\
08      09      10      11
|---\   |---\   |---\   |---\
00  01  02  03  04  05  06  07
```

Every definition keeps the name and the arithmetic of the function it models;
a function that returns an error returns an `Except` here.
-/
namespace Utreexo

/-- The errors of the position functions, with the values their messages name. -/
inductive PosErr
  /-- `childMany`: "drop of %d is greater than forestRows of %d". -/
  | drop (drop forestRows : Nat)
  /-- `parentMany`: "Cannot rise more than the forestRows". -/
  | rise (rise forestRows : Nat)
  /-- `calcNextPosition`: "delPos of %d is lower than %d". -/
  | lowDelPos (delPos position : Nat)
  /-- `detectOffset`: "position %d doesn't exist in a forest with %d leaves". -/
  | noOffset (position numLeaves : Nat)
  deriving DecidableEq, Repr

/-! ### Parents, children and siblings -/

/-- The biggest position for the given rows; the source also spells it out as
`uint64(2<<forestRows) - 1` wherever it needs the mask of all row bits. -/
def maxPosition (forestRows : Nat) : Nat := sub64 (shl64 2 forestRows) 1

/-- The number of leaves that fit into the given rows. -/
def maxLeafCount (forestRows : Nat) : Nat := shl64 1 forestRows

def leftChild (position forestRows : Nat) : Nat :=
  shl64 position 1 &&& maxPosition forestRows

def rightChild (position forestRows : Nat) : Nat :=
  (shl64 position 1 &&& maxPosition forestRows) ||| 1

/-- The leftmost descendant `drop` rows below. -/
def childMany (position drop forestRows : Nat) : Except PosErr Nat :=
  if drop = 0 then .ok position
  else if forestRows < drop then .error (.drop drop forestRows)
  else .ok (shl64 position drop &&& maxPosition forestRows)

def sibling (pos : Nat) : Nat := pos ^^^ 1

def leftSib (pos : Nat) : Nat := pos &&& not64 1

def rightSib (pos : Nat) : Nat := pos ||| 1

def parent (position forestRows : Nat) : Nat := (position >>> 1) ||| shl64 1 forestRows

/-- The ancestor `rise` rows above. -/
def parentMany (position rise forestRows : Nat) : Except PosErr Nat :=
  if rise = 0 then .ok position
  else if forestRows < rise then .error (.rise rise forestRows)
  else .ok (((position >>> rise) |||
    shl64 (maxPosition forestRows) (sub8 forestRows (sub8 rise 1))) &&& maxPosition forestRows)

def isLeftNiece (position : Nat) : Bool := position &&& 1 = 0

/-! ### Rows and roots -/

/-- `bits.Len64`. -/
def len64 (x : Nat) : Nat := if x = 0 then 0 else Nat.log2 x + 1

/-- `bits.OnesCount64`. -/
def onesCount64 (x : Nat) : Nat := ((List.range 64).filter (x.testBit ·)).length

/-- The number of rows a forest with `n` leaves allocates. -/
def treeRows (n : Nat) : Nat := if n = 0 then 0 else len64 (n - 1)

def numRoots (numLeaves : Nat) : Nat := onesCount64 numLeaves

def rootPosition (leaves h forestRows : Nat) : Nat :=
  let mask := maxPosition forestRows
  let before := leaves &&& shl64 mask (add8 h 1)
  let shifted := (before >>> h) ||| shl64 mask (sub8 (add8 forestRows 1) h)
  shifted &&& mask

def rootExistsOnRow (numLeaves h : Nat) : Bool := (numLeaves >>> h) &&& 1 = 1

/-- The positions of the roots, from the highest row to the lowest. -/
def rootPositions (numLeaves totalRows : Nat) : List Nat :=
  (((List.range (totalRows + 1)).reverse).filter (rootExistsOnRow numLeaves)).map
    (fun h => rootPosition numLeaves h totalRows)

/-- The loop of `detectRow`: the marker moves down one bit for every row. -/
def detectRowLoop (position : Nat) : Nat → Nat → Nat → Nat
  | 0, _, h => h
  | fuel + 1, marker, h =>
    if position &&& marker ≠ 0 then detectRowLoop position fuel (marker >>> 1) (h + 1) else h

/-- The row of a position.  The marker is a word, so it is zero after 64 steps. -/
def detectRow (position forestRows : Nat) : Nat :=
  detectRowLoop position 65 (shl64 1 forestRows) 0

def isRootPositionOnRow (position numLeaves row : Nat) : Bool :=
  (numLeaves &&& shl64 1 row != 0) &&
    rootPosition numLeaves row (treeRows numLeaves) == position

def isRootPosition (position numLeaves : Nat) : Bool :=
  isRootPositionOnRow position numLeaves (detectRow position (treeRows numLeaves))

def startPositionAtRow (row forestRows : Nat) : Nat :=
  sub64 (shl64 2 forestRows) (shl64 2 (sub8 forestRows row))

def maxPossiblePosAtRow (row totalRows : Nat) : Nat :=
  let mask := maxPosition totalRows
  sub64 (shl64 mask (sub8 totalRows row) &&& mask) 1

/-- The biggest position on a row that a forest with `numLeaves` leaves has. -/
def maxPositionAtRow (row forestRows numLeaves : Nat) : Except PosErr Nat := do
  let max ← parentMany numLeaves row forestRows
  .ok (if max ≠ 0 then max - 1 else max)

/-- A position of a forest with `fromTotalRow` rows, in one with `toTotalRow`. -/
def translatePos (pos fromTotalRow toTotalRow : Nat) : Nat :=
  let row := detectRow pos fromTotalRow
  if row = 0 then pos
  else add64 (sub64 pos (startPositionAtRow row fromTotalRow)) (startPositionAtRow row toTotalRow)

def translatePositions (positions : List Nat) (fromTotalRow toTotalRow : Nat) : List Nat :=
  positions.map (translatePos · fromTotalRow toTotalRow)

def isRootPositionTotalRows (position numLeaves totalRows : Nat) : Bool :=
  if totalRows ≠ treeRows numLeaves then
    isRootPosition (translatePos position totalRows (treeRows numLeaves)) numLeaves
  else isRootPosition position numLeaves

def isRootPositionOnRowTotalRows (position numLeaves row forestRows : Nat) : Bool :=
  if treeRows numLeaves ≠ forestRows then
    isRootPositionOnRow (translatePos position forestRows (treeRows numLeaves)) numLeaves row
  else isRootPositionOnRow position numLeaves row

def isAncestor (higherPos lowerPos forestRows : Nat) : Bool :=
  if higherPos = lowerPos then false
  else
    let lowerRow := detectRow lowerPos forestRows
    let higherRow := detectRow higherPos forestRows
    if higherRow < lowerRow then false
    else match parentMany lowerPos (sub8 higherRow lowerRow) forestRows with
      | .error _ => false
      | .ok ancestor => higherPos = ancestor

/-- The loop of `getLowestRoot`, from `row` on. -/
def getLowestRootLoop (numLeaves totalRows : Nat) : Nat → Nat → Nat
  | 0, row => row
  | fuel + 1, row =>
    if row ≤ totalRows ∧ numLeaves &&& shl64 1 row = 0 then
      getLowestRootLoop numLeaves totalRows fuel (row + 1)
    else row

def getLowestRoot (numLeaves totalRows : Nat) : Nat :=
  getLowestRootLoop numLeaves totalRows (totalRows + 1) 0

/-! ### Moving up and down one row -/

def removeBit (val bit : Nat) : Nat :=
  let upper := val &&& not64 (sub64 (shl64 2 bit) 1)
  let lower := val &&& sub64 (shl64 1 bit) 1
  (upper >>> 1) ||| lower

def addBit (val place : Nat) (bit : Bool) : Nat :=
  let mask := sub64 (shl64 1 place) 1
  let upper := shl64 (val &&& not64 mask) 1
  let lower := val &&& mask
  if bit then (upper ||| lower) ||| shl64 1 place else upper ||| lower

/-- Where `position` moves to when `delPos` is deleted. -/
def calcNextPosition (position delPos forestRows : Nat) : Except PosErr Nat :=
  let delRow := detectRow delPos forestRows
  let posRow := detectRow position forestRows
  if delRow < posRow then .error (.lowDelPos delPos position)
  else
    let lowerBits := removeBit position (sub8 delRow posRow)
    let toRow := add8 posRow 1
    let higherBits := shl64 (shl64 1 toRow) (sub8 forestRows toRow)
    .ok (higherBits ||| lowerBits)

/-- Where `position` was before `delPos` was deleted. -/
def calcPrevPosition (position delPos forestRows : Nat) : Nat :=
  let delRow := detectRow delPos forestRows
  let posRow := detectRow position forestRows
  let lowerBits := position &&& not64 (shl64 (shl64 1 posRow) (sub8 forestRows posRow))
  addBit lowerBits (sub8 delRow (sub8 posRow 1)) (isLeftNiece delPos)

/-! ### Locating a position under its root -/

/-- The loop of `detectOffset` with `tRows` one less than the first argument.
At `tRows = -1` the shift counts are `uint8(-1)`, so the comparison is with zero
and the loop body returns the error. -/
def detectOffsetLoop (numLeaves nr origPos : Nat) :
    Nat → Nat → Nat → Except PosErr (Nat × Nat × Nat)
  | 0, _, _ => .error (.noOffset origPos numLeaves)
  | tRows + 1, position, biggerTrees =>
    if maxLeafCount tRows &&& numLeaves ≤ shl64 position nr &&& maxPosition tRows then
      let treeSize := shl64 1 tRows &&& numLeaves
      if treeSize ≠ 0 then
        detectOffsetLoop numLeaves nr origPos tRows (sub64 position treeSize) (biggerTrees + 1)
      else detectOffsetLoop numLeaves nr origPos tRows position biggerTrees
    else .ok (biggerTrees, sub8 tRows nr, not64 (position ^^^ 1))

/-- The tree a position is in, its distance to the tree's root and the bits that
lead to it. -/
def detectOffset (position numLeaves : Nat) : Except PosErr (Nat × Nat × Nat) :=
  let tRows := treeRows numLeaves
  detectOffsetLoop numLeaves (detectRow position tRows) position (tRows + 1) position 0

/-! ### Lists of positions -/

/-- `sort.Search` for the first element above `el`, and the insertion before it. -/
def insertInOrder (dels : List Nat) (el : Nat) : List Nat :=
  let index := dels.findIdx (el < ·)
  dels.take index ++ el :: dels.drop index

/-- The loop of `deTwin`: two siblings at index `i` are replaced by their parent,
and the scan goes on at the same index. -/
def deTwinLoop (forestRows : Nat) : Nat → Nat → List Nat → List Nat
  | 0, _, dels => dels
  | fuel + 1, i, dels =>
    if i < dels.length then
      match dels[i]?, dels[i + 1]? with
      | some pos, some next =>
        if rightSib pos = next then
          deTwinLoop forestRows fuel i
            (insertInOrder (dels.take i ++ dels.drop (i + 2)) (parent pos forestRows))
        else deTwinLoop forestRows fuel (i + 1) dels
      | _, _ => deTwinLoop forestRows fuel (i + 1) dels
    else dels

/-- Replaces siblings by their parent.  Every step of the loop shortens the list
or moves the index on, so twice the length bounds the steps. -/
def deTwin (dels : List Nat) (forestRows : Nat) : List Nat :=
  deTwinLoop forestRows (2 * dels.length + 1) 0 dels

/-- The loop of `inForest`: down the right children to the bottom row. -/
def inForestLoop (marker mask : Nat) : Nat → Nat → Exec Nat
  | 0, _ => .error .diverge
  | fuel + 1, pos =>
    if pos &&& marker ≠ 0 then inForestLoop marker mask fuel ((shl64 pos 1 &&& mask) ||| 1)
    else .ok pos

/-- Whether a position can exist with the given leaves and rows. -/
def inForest (pos numLeaves forestRows : Nat) : Exec Bool :=
  if pos < numLeaves then .ok true
  else
    let marker := shl64 1 forestRows
    let mask := sub64 (shl64 marker 1) 1
    if mask ≤ pos then .ok false
    else do
      let leaf ← inForestLoop marker mask 65 pos
      .ok (leaf < numLeaves)

end Utreexo
