import Utreexo.HashBytes

/-! # Writing and restoring a Pollard

`Pollard.WriteTo` and `RestorePollardFrom`.  A node is written with its hash, a byte that
says whether it is a leaf, a byte that says whether it has nieces, and then its nieces.

Counts of bytes are `int64` in the source; a file is far from having `2 ^ 63` bytes.
-/
namespace Utreexo
open Wire

section
variable {H M : Type} [DecidableEq H] [HashOps H] [HashBytes H] [DecidableEq M] [MiniHash H M]

/-! ### Writing -/

/-- What has been written, the count of it that is returned, and the error. -/
structure Written (H : Type) where
  bytes : Bytes
  totalBytes : Nat
  res : Except (PolErr H) Unit

namespace Written

def nothing : Written H := ⟨[], 0, .ok ()⟩

/-- A call of a writer that takes every byte. -/
def write (w : Written H) (bs : Bytes) : Written H :=
  { w with bytes := w.bytes ++ bs, totalBytes := w.totalBytes + bs.length }

/-- Goes on, unless there was an error.  What is written next counts only if it is
written without an error. -/
def andThen (w : Written H) (next : Exec (Written H)) : Exec (Written H) :=
  match w.res with
  | .error _ => .ok w
  | .ok () => do
    let v ← next
    match v.res with
    | .error e => .ok ⟨w.bytes ++ v.bytes, w.totalBytes, .error e⟩
    | .ok () => .ok ⟨w.bytes ++ v.bytes, w.totalBytes + v.totalBytes, .ok ()⟩

end Written

/-- The byte of a flag. -/
def flag (b : Bool) : UInt8 := if b then 1 else 0

/-- Writes a node and its nieces. -/
def writeOne (heap : Heap H) : Nat → Option Addr → Exec (Written H)
  | 0, _ => .error .diverge
  | _ + 1, none => .ok .nothing
  | fuel + 1, some n =>
    let node := heap.get n
    let w := Written.nothing.write (toBytes node.data)
    match getChildren heap n with
    | .error e => .ok { w with res := .error e }
    | .ok (lChild, rChild) =>
      let w := w.write [flag (lChild.isNone && rChild.isNone)]
      if node.lNiece.isSome && node.rNiece.isSome then do
        let w ← (w.write [1]).andThen (writeOne heap fuel node.lNiece)
        w.andThen (writeOne heap fuel node.rNiece)
      else .ok (w.write [0])

/-- How many nodes there are from a node on. -/
def getCount (heap : Heap H) : Nat → Option Addr → Exec Nat
  | 0, _ => .error .diverge
  | _ + 1, none => .ok 0
  | fuel + 1, some n => do
    let l ← getCount heap fuel (heap.get n).lNiece
    let r ← getCount heap fuel (heap.get n).rNiece
    .ok (l + 1 + r)

namespace Pollard

/-- The loop of `WriteTo`. -/
def writeRoots (heap : Heap H) (w : Written H) : List Addr → Exec (Written H)
  | [] => .ok w
  | root :: roots => do
    let w ← w.andThen (writeOne heap (heap.next + 1) (some root))
    writeRoots heap w roots

/-- Writes the Pollard. -/
def writeTo (p : Pollard H M) : Exec (Written H) :=
  writeRoots p.heap ((Written.nothing.write (putLE 8 p.numLeaves)).write (putLE 8 p.numDels))
    p.roots

/-- The loop of `GetTotalCount`. -/
def countRoots (heap : Heap H) (size : Nat) : List Addr → Exec Nat
  | [] => .ok size
  | root :: roots => do
    let count ← getCount heap (heap.next + 1) (some root)
    countRoots heap (size + count) roots

def getTotalCount (p : Pollard H M) : Exec Nat := countRoots p.heap 0 p.roots

def serializeSize (p : Pollard H M) : Exec Nat := do
  let count ← p.getTotalCount
  .ok (count * 32 + 16 + count * 2)

end Pollard

/-! ### Restoring -/

/-- The errors of `RestorePollardFrom`. -/
inductive RestoreErr
  | eof
  /-- "RestorePollard fail. Expect a total or %d leaves but only have %d leaves in the
  map". -/
  | leaves (expected found : Nat)
  deriving DecidableEq, Repr

/-- What `RestorePollardFrom` has at hand: the Pollard so far, the reader and the number of
bytes read. -/
structure Restoring (H M σ : Type) where
  p : Pollard H M
  rest : σ
  totalBytes : Nat

variable {σ : Type}

namespace Restoring

/-- One call of the reader; `none` at the end of the input. -/
def read [Reader σ] (s : Restoring H M σ) (buf : Bytes) : Option (Bytes × Restoring H M σ) :=
  match Reader.fill buf s.rest with
  | none => none
  | some (buf', rest) =>
    some (buf', { s with
      rest := rest
      totalBytes := s.totalBytes + (Reader.left s.rest - Reader.left rest) })

/-- A new node. -/
def alloc (s : Restoring H M σ) (aunt : Option Addr) : Addr × Restoring H M σ :=
  let (n, heap) := s.p.heap.alloc ⟨none, none, aunt, empty, false⟩
  (n, { s with p := { s.p with heap := heap } })

/-- The hash that was read into a node. -/
def setData (s : Restoring H M σ) (n : Addr) (data : H) : Restoring H M σ :=
  { s with p := { s.p with heap := s.p.heap.setData n data } }

/-- A leaf is stored in the node map, unless its hash is empty. -/
def setLeaf (s : Restoring H M σ) (n : Addr) (buf : Bytes) : Restoring H M σ :=
  if buf = [1] ∧ (s.p.heap.get n).data ≠ empty then
    { s with p := { s.p with nodeMap := s.p.nodeMap.insert (mini (s.p.heap.get n).data) n } }
  else s

/-- A new niece on the left, and one on the right. -/
def newLeft (s : Restoring H M σ) (n : Addr) : Addr × Restoring H M σ :=
  let (l, s) := s.alloc (some n)
  (l, { s with p := { s.p with heap := s.p.heap.setLNiece n (some l) } })

def newRight (s : Restoring H M σ) (n : Addr) : Addr × Restoring H M σ :=
  let (r, s) := s.alloc (some n)
  (r, { s with p := { s.p with heap := s.p.heap.setRNiece n (some r) } })

end Restoring

variable [Reader σ]

/-- Reads a node and its nieces.  Every call that goes on reads a byte, so that the
number of bytes bounds the depth. -/
def readOne : Nat → Addr → Restoring H M σ → Exec (Except RestoreErr (Restoring H M σ))
  | 0, _, _ => .error .diverge
  | fuel + 1, n, s =>
    -- The end of the input is taken for the end of the Pollard.
    match s.read (toBytes (s.p.heap.get n).data) with
    | none => .ok (.ok s)
    | some (data, s) =>
      match (s.setData n (ofBytes data)).read [0] with
      | none => .ok (.error .eof)
      | some (buf, s) =>
        match (s.setLeaf n buf).read buf with
        | none => .ok (.error .eof)
        | some (buf, s) =>
          if buf = [1] then do
            match ← readOne fuel (s.newLeft n).1 (s.newLeft n).2 with
            | .error e => .ok (.error e)
            | .ok s => readOne fuel (s.newRight n).1 (s.newRight n).2
          else .ok (.ok s)

/-- The loop over the roots.  An error comes with the bytes read before the root. -/
def readRoots : Nat → Restoring H M σ → Exec (Except (RestoreErr × Nat) (Restoring H M σ))
  | 0, s => .ok (.ok s)
  | i + 1, s => do
    let (root, s) := s.alloc none
    let s := { s with p := { s.p with roots := s.p.roots ++ [root] } }
    match ← readOne (Reader.left s.rest + 1) root s with
    | .error e => .ok (.error (e, s.totalBytes))
    | .ok s => readRoots i s

/-- The check at the end: the difference is compared as an `int`. -/
def checkLeaves (s : Restoring H M σ) : Except (RestoreErr × Nat) (Restoring H M σ) :=
  let expected := sub64 s.p.numLeaves s.p.numDels
  if expected < 2 ^ 63 ∧ s.p.nodeMap.keys.card = expected then .ok s
  else .error (.leaves expected s.p.nodeMap.keys.card, s.totalBytes)

/-- Restores the roots, once the counts have been read. -/
def restoreRoots (s : Restoring H M σ) :
    Exec (Except (RestoreErr × Nat) (Restoring H M σ)) := do
  match ← readRoots (numRoots s.p.numLeaves) s with
  | .error e => .ok (.error e)
  | .ok s => .ok (checkLeaves s)

/-- Restores a Pollard from a reader.  The buffer of the first count is used again for the
second one. -/
def restorePollardFrom (r : σ) : Exec (Except (RestoreErr × Nat) (Restoring H M σ)) :=
  match Restoring.read ⟨newAccumulator true, r, 0⟩ (List.replicate 8 0) with
  | none => .ok (.error (.eof, 0))
  | some (buf, s) =>
    match Restoring.read { s with p := { s.p with numLeaves := getLE buf } } buf with
    | none => .ok (.error (.eof, s.totalBytes))
    | some (buf, s) => restoreRoots { s with p := { s.p with numDels := getLE buf } }

end

end Utreexo
