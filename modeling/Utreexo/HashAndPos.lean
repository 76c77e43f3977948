import Mathlib.Data.List.Sort
import Utreexo.Positions

/-! # Hashes, proofs and sorted slices of positions

The data that the accumulators exchange: hashes, `Proof`, and the
`hashAndPos` slices of `prove.go`, here lists of pairs of a position and a
hash.

A hash is a 32-byte value in the source and `parentHash` is SHA-512/256, which
lives outside the repository.  Both are parameters: `HashOps H` fixes the
all-zero hash, the hash `Hash{1}` and `parentHash` on a type `H` of hashes, and
`IdealHash` states
what the results assume of them.  No injective function maps pairs of 32-byte
values to 32-byte values, so `H` has to stay abstract for that assumption to be
satisfiable.
-/
namespace Utreexo

/-- The hashes: the all-zero hash, the hash `Hash{1}` and the hash of two children. -/
class HashOps (H : Type) where
  empty : H
  one : H
  parentHash : H → H → H
  one_ne_empty : one ≠ empty

export HashOps (empty parentHash)

/-- What is assumed of `parentHash`: it is injective, never returns the all-zero
hash, and never returns one of the hashes in `leaf`, the hashes that leaves can
have. -/
structure IdealHash (H : Type) [HashOps H] (leaf : H → Prop) : Prop where
  inj : ∀ {a b c d : H}, parentHash a b = parentHash c d → a = c ∧ b = d
  ne_empty : ∀ a b : H, parentHash a b ≠ empty
  not_leaf : ∀ a b : H, ¬ leaf (parentHash a b)

/-- Terms: hashes of which nothing holds but what has to.  They satisfy the
assumptions, with the terms `leaf i` as the hashes of leaves. -/
inductive FreeHash where
  | empty
  | one
  | leaf (i : Nat)
  | node (l r : FreeHash)
  deriving DecidableEq, Repr

instance : HashOps FreeHash := ⟨.empty, .one, .node, FreeHash.noConfusion⟩

/-- The hashes of leaves among the terms. -/
def FreeHash.IsLeaf (h : FreeHash) : Prop := ∃ i, h = .leaf i

theorem FreeHash.ideal : IdealHash FreeHash FreeHash.IsLeaf where
  inj h := by cases h; exact ⟨rfl, rfl⟩
  ne_empty a b h := by cases h
  not_leaf a b := by rintro ⟨i, h⟩; cases h

/-- `sort.Sort` and `sort.Slice`.  The documentation leaves the order among equal
keys open, and so does this. -/
class SortAlg where
  sort : {α : Type} → (α → Nat) → List α → List α
  perm : ∀ {α : Type} (key : α → Nat) (l : List α), (sort key l).Perm l
  sorted : ∀ {α : Type} (key : α → Nat) (l : List α),
    (sort key l).Pairwise (fun a b => key a ≤ key b)

/-- A stable sort is one such algorithm. -/
@[reducible]
def SortAlg.stable : SortAlg where
  sort key l := l.insertionSort (fun a b => key a ≤ key b)
  perm key l := List.perm_insertionSort _ l
  sorted key l := by
    have : Std.Total (fun a b => key a ≤ key b) := ⟨fun a b => Nat.le_total _ _⟩
    have : IsTrans _ (fun a b => key a ≤ key b) := ⟨fun a b c => Nat.le_trans⟩
    exact List.pairwise_insertionSort _ l

/-- `sort.Slice` or `slices.SortFunc` on plain positions. -/
def sortPositions (l : List Nat) : List Nat := l.insertionSort (· ≤ ·)

theorem sortPositions_perm (l : List Nat) : (sortPositions l).Perm l :=
  List.perm_insertionSort _ l

theorem sortPositions_sorted (l : List Nat) : (sortPositions l).Pairwise (· ≤ ·) :=
  List.pairwise_insertionSort _ l

/-- Sorting goes with a function that keeps the order. -/
theorem sortPositions_map {f : Nat → Nat} {l : List Nat}
    (hf : ∀ p ∈ l, ∀ q ∈ l, p ≤ q → f p ≤ f q) :
    sortPositions (l.map f) = (sortPositions l).map f := by
  have hperm := sortPositions_perm l
  refine List.Perm.eq_of_pairwise (fun a b _ _ h1 h2 => Nat.le_antisymm h1 h2)
    (sortPositions_sorted _) ?_ ((sortPositions_perm _).trans (hperm.map f).symm)
  rw [List.pairwise_map]
  exact (sortPositions_sorted l).imp_of_mem fun hp hq hpq =>
    hf _ (hperm.mem_iff.mp hp) _ (hperm.mem_iff.mp hq) hpq

/-- An inclusion proof for several leaves. -/
structure Proof (H : Type) where
  targets : List Nat
  proof : List H
  deriving DecidableEq, Repr

section Slices
variable {H : Type}

/-- The pairs of a target and its hash, sorted by the target.  The callers check
that there are as many hashes as targets. -/
def toHashAndPos [SortAlg] (origTargets : List Nat) (origHashes : List H) : List (Nat × H) :=
  SortAlg.sort Prod.fst (origTargets.zip origHashes)

theorem toHashAndPos_length [SortAlg] {targets : List Nat} {hashes : List H}
    (hlen : hashes.length = targets.length) :
    (toHashAndPos targets hashes).length = targets.length := by
  rw [toHashAndPos, (SortAlg.perm _ _).length_eq, List.length_zip, hlen, Nat.min_self]

/-- The loop of `mergeSortedHashAndPos`; `j` counts the slots left in the result. -/
def mergeLoop : Nat → List (Nat × H) → List (Nat × H) → List (Nat × H)
  | _, [], b => b
  | _, a, [] => a
  | 0, _ :: _, _ :: _ => []
  | j + 1, (posA, hashA) :: a, (posB, hashB) :: b =>
    if posA < posB then (posA, hashA) :: mergeLoop j a ((posB, hashB) :: b)
    else if posB < posA then (posB, hashB) :: mergeLoop j ((posA, hashA) :: a) b
    else (posA, hashA) :: mergeLoop j a b

/-- Merges two sorted slices; of two entries at one position the first slice's stays. -/
def mergeSortedHashAndPos (a b : List (Nat × H)) : List (Nat × H) :=
  mergeLoop (a.length + b.length) a b

/-- The loop of `deTwinHashAndPos`, as that of `deTwin`. -/
def deTwinHashAndPosLoop [HashOps H] (forestRows : Nat) :
    Nat → Nat → List (Nat × H) → List (Nat × H)
  | 0, _, hnp => hnp
  | fuel + 1, i, hnp =>
    if i < hnp.length then
      match hnp[i]?, hnp[i + 1]? with
      | some (nodePos, nodeHash), some (sibPos, sibHash) =>
        if rightSib nodePos = sibPos then
          deTwinHashAndPosLoop forestRows fuel i
            (mergeSortedHashAndPos (hnp.take i ++ hnp.drop (i + 2))
              [(parent nodePos forestRows, parentHash nodeHash sibHash)])
        else deTwinHashAndPosLoop forestRows fuel (i + 1) hnp
      | _, _ => deTwinHashAndPosLoop forestRows fuel (i + 1) hnp
    else hnp

/-- Replaces siblings by their parent with its hash.  As for `deTwin`, twice the length bounds
the steps. -/
def deTwinHashAndPos [HashOps H] (hnp : List (Nat × H)) (forestRows : Nat) : List (Nat × H) :=
  deTwinHashAndPosLoop forestRows (2 * hnp.length + 1) 0 hnp

/-- The entries of `a` whose hash occurs in `b`. -/
def getHashAndPosHashSubset [DecidableEq H] (a : List (Nat × H)) (b : List H) : List (Nat × H) :=
  a.filter (fun e => e.2 ∈ b)

end Slices

end Utreexo
