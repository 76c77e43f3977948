import Utreexo.HashAndPos

/-! # Nodes of the Pollard

`polnode.go`.  A node points to its *nieces*, the children of its sibling; a root
points to its own children.  `aunt` points back to the node whose niece it is.

Pointers are addresses in a heap.  A nil pointer is `none`; following it stops the
program (`Stop.panic`).  `&polNode{…}` takes the next address, and no address is used
twice.  Loops along pointers run with the number of addresses as fuel: a chain of
distinct nodes is no longer than that.
-/
namespace Utreexo

abbrev Addr := Nat

structure PolNode (H : Type) where
  lNiece : Option Addr
  rNiece : Option Addr
  aunt : Option Addr
  data : H
  remember : Bool
  deriving DecidableEq, Repr

/-- The memory that nodes live in. -/
structure Heap (H : Type) where
  get : Addr → PolNode H
  next : Nat

/-- The errors of the Pollard, with the values that their messages name. -/
inductive PolErr (H : Type)
  /-- An error of the position arithmetic. -/
  | pos (err : PosErr)
  /-- "Node with hash %s has an incorrect aunt pointer or the aunt with hash %s has
  incorrect pointer to its nieces". -/
  | badAunt (node aunt : H)
  /-- "Node with hash %s isn't a root but doens't have a sibling". -/
  | noSibling (node : H)
  /-- "Position %d does not exist in tree of %d leaves". -/
  | noPosition (pos numLeaves : Nat)
  /-- "getNode error: couldn't fetch %d, calculated root index of %d but only have %d
  roots". -/
  | noRoot (pos tree roots : Nat)
  /-- "Prove error: hash %s not found". -/
  | notFound (hash : H)
  /-- "Prove error: couldn't read position %d". -/
  | unreadable (pos : Nat)
  /-- "Pollard.Verify fail. Was given %d targets but got %d hashes". -/
  | lengths (targets hashes : Nat)
  /-- "Pollard.Verify fail. No roots calculated but have %d deletions". -/
  | noRoots (dels : Nat)
  /-- "Pollard.Verify fail. Have %d roots but only matched %d roots.", with the root
  candidates and the roots. -/
  | roots (candidates matched : Nat) (rootCandidates roots : List H)
  /-- "Got %d targets to be deleted but have %d hashes". -/
  | undoLengths (dels hashes : Nat)
  /-- "Couldn't undo %s at position %d, err: %v". -/
  | undo (node : H) (pos : Nat) (err : PolErr H)
  deriving DecidableEq, Repr

/-- Follows a pointer. -/
def deref : Option Addr → Exec Addr
  | none => .error .panic
  | some a => .ok a

section
variable {H : Type}

namespace Heap

/-- `*a = n`. -/
def set (h : Heap H) (a : Addr) (n : PolNode H) : Heap H :=
  { h with get := fun b => if b = a then n else h.get b }

def setLNiece (h : Heap H) (a : Addr) (v : Option Addr) : Heap H :=
  h.set a { h.get a with lNiece := v }

def setRNiece (h : Heap H) (a : Addr) (v : Option Addr) : Heap H :=
  h.set a { h.get a with rNiece := v }

def setNieces (h : Heap H) (a : Addr) (l r : Option Addr) : Heap H :=
  h.set a { h.get a with lNiece := l, rNiece := r }

def setAunt (h : Heap H) (a : Addr) (v : Option Addr) : Heap H :=
  h.set a { h.get a with aunt := v }

/-- Clears the aunt of a node, if there is a node. -/
def clearAunt (h : Heap H) : Option Addr → Heap H
  | none => h
  | some a => h.setAunt a none

def setData (h : Heap H) (a : Addr) (d : H) : Heap H :=
  h.set a { h.get a with data := d }

/-- `&polNode{…}`. -/
def alloc (h : Heap H) (n : PolNode H) : Addr × Heap H :=
  (h.next, { h.set h.next n with next := h.next + 1 })

end Heap

/-! ### Relatives -/

def getSibling (h : Heap H) (n : Addr) : Except (PolErr H) (Option Addr) :=
  match (h.get n).aunt with
  | none => .ok none
  | some aunt =>
    if (h.get aunt).lNiece = some n then .ok (h.get aunt).rNiece
    else if (h.get aunt).rNiece = some n then .ok (h.get aunt).lNiece
    else .error (.badAunt (h.get n).data (h.get aunt).data)

def getParent (h : Heap H) (n : Addr) : Except (PolErr H) (Option Addr) :=
  match (h.get n).aunt with
  | none => .ok none
  | some aunt =>
    match (h.get aunt).aunt with
    | none => .ok (some aunt)
    | some grand =>
      if (h.get grand).lNiece = some aunt then .ok (h.get grand).rNiece
      else if (h.get grand).rNiece = some aunt then .ok (h.get grand).lNiece
      else .error (.badAunt (h.get aunt).data (h.get grand).data)

def getChildren (h : Heap H) (n : Addr) : Except (PolErr H) (Option Addr × Option Addr) :=
  match (h.get n).aunt with
  | none => .ok ((h.get n).lNiece, (h.get n).rNiece)
  | some _ =>
    match getSibling h n with
    | .error e => .error e
    | .ok none => .error (.noSibling (h.get n).data)
    | .ok (some sib) => .ok ((h.get sib).lNiece, (h.get sib).rNiece)

/-! ### Pointers -/

def deadEnd (h : Heap H) (n : Addr) : Bool := (h.get n).lNiece.isNone && (h.get n).rNiece.isNone

/-- Makes the aunt of `node` forget it. -/
def forgetNiece (h : Heap H) (node : Addr) : Heap H :=
  match (h.get node).aunt with
  | none => h
  | some aunt =>
    if (h.get aunt).rNiece = some node then h.setRNiece aunt none
    else if (h.get aunt).lNiece = some node then h.setLNiece aunt none
    else h

/-- Removes the pointers to and from a node. -/
def delNode (h : Heap H) : Option Addr → Heap H
  | none => h
  | some node =>
    let h := forgetNiece h node
    let h := h.setAunt node none
    let h := (h.clearAunt (h.get node).lNiece).setLNiece node none
    (h.clearAunt (h.get node).rNiece).setRNiece node none

/-- Makes a node forget its nieces if neither is to be remembered. -/
def prune (h : Heap H) (n : Addr) : Exec (Heap H) := do
  let l ← deref (h.get n).lNiece
  let r ← deref (h.get n).rNiece
  let remember := (h.get l).remember || (h.get r).remember
  let h := if deadEnd h l && !remember then (delNode h (some l)).setLNiece n none else h
  let r ← deref (h.get n).rNiece
  .ok (if deadEnd h r && !remember then (delNode h (some r)).setRNiece n none else h)

/-- Turns a node into a dead end. -/
def chop (h : Heap H) (n : Addr) : Heap H :=
  let h := delNode h (h.get n).lNiece
  let h := delNode h (h.get n).rNiece
  h.setNieces n none none

/-- `updateAunt` with fuel: sets the aunts of the nieces, down to the first niece whose
aunt is right already. -/
def updateAuntLoop : Nat → Heap H → Addr → Exec (Heap H)
  | 0, _, _ => .error .diverge
  | fuel + 1, h, n =>
    let right (h : Heap H) : Exec (Heap H) :=
      match (h.get n).rNiece with
      | none => .ok h
      | some r =>
        if (h.get r).aunt = some n then .ok h
        else updateAuntLoop fuel (h.setAunt r (some n)) r
    match (h.get n).lNiece with
    | none => right h
    | some l =>
      if (h.get l).aunt = some n then .ok h
      else do
        let h ← updateAuntLoop fuel (h.setAunt l (some n)) l
        right h

def updateAunt (h : Heap H) (n : Addr) : Exec (Heap H) := updateAuntLoop (h.next + 1) h n

/-- Makes the nieces of `a` those of `b` and the other way around. -/
def swapNieces (h : Heap H) (a b : Addr) : Exec (Heap H) := do
  let na := h.get a
  let nb := h.get b
  let h := (h.setNieces a nb.lNiece nb.rNiece).setNieces b na.lNiece na.rNiece
  let h ← updateAunt h a
  updateAunt h b

/-- Gives the nieces of `b` to `a`. -/
def transferNiece (h : Heap H) (a b : Addr) : Exec (Heap H) := do
  let nb := h.get b
  let h := (h.setNieces a nb.lNiece nb.rNiece).setNieces b none none
  updateAunt h a

/-- The last part of `transferAunt`: `a` takes over the aunt of `b`. -/
def takeAunt (h : Heap H) (a b : Addr) : Exec (Heap H × Except (PolErr H) Unit) := do
  let h := h.setAunt a (h.get b).aunt
  match (h.get a).aunt with
  | none => .ok (h, .ok ())
  | some aunt => do
    let h ← updateAunt h aunt
    .ok (h, .ok ())

/-- The second part of `transferAunt`: the aunt of `b` points to `a` instead. -/
def replaceNiece (h : Heap H) (a b : Addr) : Exec (Heap H × Except (PolErr H) Unit) :=
  match (h.get b).aunt with
  | none => takeAunt h a b
  | some aunt =>
    if (h.get aunt).lNiece = some b then takeAunt (h.setLNiece aunt (some a)) a b
    else if (h.get aunt).rNiece = some b then takeAunt (h.setRNiece aunt (some a)) a b
    else .ok (h, .error (.badAunt (h.get b).data (h.get aunt).data))

/-- Gives the aunt of `b` to `a`. -/
def transferAunt (h : Heap H) (a b : Addr) : Exec (Heap H × Except (PolErr H) Unit) :=
  match (h.get a).aunt with
  | none => replaceNiece h a b
  | some aunt =>
    if (h.get aunt).lNiece = some a then replaceNiece (h.setLNiece aunt none) a b
    else if (h.get aunt).rNiece = some a then replaceNiece (h.setRNiece aunt none) a b
    else .ok (h, .error (.badAunt (h.get a).data (h.get aunt).data))

variable [HashOps H]

/-- `hashToRoot` with fuel: the hash of a node and of all its ancestors. -/
def hashToRootLoop : Nat → Heap H → Option Addr → Exec (Heap H × Except (PolErr H) Unit)
  | 0, _, _ => .error .diverge
  | _ + 1, h, none => .ok (h, .ok ())
  | fuel + 1, h, some node =>
    match getChildren h node with
    | .error e => .ok (h, .error e)
    | .ok (leftChild, rightChild) => do
      let l ← deref leftChild
      let r ← deref rightChild
      let h := h.setData node (parentHash (h.get l).data (h.get r).data)
      match getParent h node with
      | .error e => .ok (h, .error e)
      | .ok parent => hashToRootLoop fuel h parent

def hashToRoot (h : Heap H) (node : Option Addr) : Exec (Heap H × Except (PolErr H) Unit) :=
  hashToRootLoop (h.next + 1) h node

def calculateParentHash (h : Heap H) (nodePos : Nat) (node sibling : Addr) : H :=
  if isLeftNiece nodePos then parentHash (h.get node).data (h.get sibling).data
  else parentHash (h.get sibling).data (h.get node).data

end

end Utreexo
