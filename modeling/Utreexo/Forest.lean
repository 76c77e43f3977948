import Mathlib.Data.List.Induction
import Utreexo.HashAndPos
import Utreexo.CollapsedTree

/-! # The collapsed forest

What the accumulators stand for.  Slot `i` holds the `i`-th leaf ever added, or
nothing once that leaf has been deleted.  With `n` slots there is one perfect
tree of `2 ^ r` consecutive slots for every set bit `r` of `n`, the highest bit
first.  The value of a node is empty if both its children are, the other child's
value if one is, and their `parentHash` otherwise.

`nodeValue` and `forestRoots` state this on hashes.  `forestTrees` is the same
forest as collapsed trees, whose shape also says where each leaf has moved to.
-/
namespace Utreexo
open Merkle

variable {H : Type} [HashOps H]

/-- The leaf in slot `i`. -/
def slotAt (slots : List (Option H)) (i : Nat) : Option H := (slots[i]?).join

/-- The value of a node from the values of its children. -/
def combine [DecidableEq H] (l r : H) : H :=
  if l = empty then r else if r = empty then l else parentHash l r

/-- The value of the node over the `2 ^ h` slots from `lo` on. -/
def nodeValue [DecidableEq H] (slots : List (Option H)) : Nat → Nat → H
  | 0, lo => (slotAt slots lo).getD empty
  | h + 1, lo => combine (nodeValue slots h lo) (nodeValue slots h (lo + 2 ^ h))

/-- The rows from `h` on at which a forest with `n` leaves has a root, highest first. -/
def rootRows (n h : Nat) : List Nat := (List.range' h (64 - h)).reverse.filter (n.testBit ·)

/-- The first slot of the tree whose root is on row `r`. -/
def rootStart (n r : Nat) : Nat := n / 2 ^ (r + 1) * 2 ^ (r + 1)

/-- The roots of the collapsed forest. -/
def forestRoots [DecidableEq H] (slots : List (Option H)) : List H :=
  (rootRows slots.length 0).map fun r => nodeValue slots r (rootStart slots.length r)

/-- The tree whose root is on row `r`. -/
def rootTree (slots : List (Option H)) (r : Nat) : Option (CTree H) :=
  CTree.perfect (slotAt slots) r (rootStart slots.length r)

/-- The trees of the collapsed forest. -/
def forestTrees (slots : List (Option H)) : List (Option (CTree H)) :=
  (rootRows slots.length 0).map (rootTree slots)

/-- The hash of a tree. -/
def treeHash (t : CTree H) : H := t.value parentHash

/-- The hash of a tree that may be empty. -/
def hashOpt : Option (CTree H) → H
  | none => empty
  | some t => treeHash t

@[simp] theorem hashOpt_none : hashOpt (none : Option (CTree H)) = empty := rfl

@[simp] theorem hashOpt_some (t : CTree H) : hashOpt (some t) = treeHash t := rfl

@[simp] theorem treeHash_leaf (h : H) : treeHash (.leaf h) = h := rfl

@[simp] theorem treeHash_node (l r : CTree H) :
    treeHash (.node l r) = parentHash (treeHash l) (treeHash r) := rfl

/-! ### Blocks -/

/-- What one block deletes and adds. -/
structure Block (H : Type) where
  dels : List H
  adds : List H
  deriving DecidableEq, Repr

/-- Vacates the slots of the deleted leaves. -/
def delSlots [DecidableEq H] (slots : List (Option H)) (dels : List H) : List (Option H) :=
  slots.map fun s => s.filter fun h => h ∉ dels

/-- The slots after a block: its deletions, then its additions. -/
def applyBlock [DecidableEq H] (slots : List (Option H)) (b : Block H) : List (Option H) :=
  delSlots slots b.dels ++ b.adds.map some

/-- The slots after a list of blocks, oldest first. -/
def slotsOf [DecidableEq H] (bs : List (Block H)) : List (Option H) := bs.foldl applyBlock []

/-- The leaves that have been added and not deleted. -/
def liveLeaves (slots : List (Option H)) : List H := slots.filterMap id

/-- All leaves ever added. -/
def addedLeaves (bs : List (Block H)) : List H := bs.flatMap Block.adds

/-! ### Facts about slots -/

omit [HashOps H] in
theorem slotAt_eq_some {slots : List (Option H)} {i : Nat} {h : H} :
    slotAt slots i = some h ↔ slots[i]? = some (some h) := by
  unfold slotAt
  cases slots[i]? with
  | none => simp
  | some s => simp

omit [HashOps H] in
theorem mem_liveLeaves {slots : List (Option H)} {h : H} :
    h ∈ liveLeaves slots ↔ some h ∈ slots := by
  simp [liveLeaves]

omit [HashOps H] in
theorem slotAt_append_left {slots extra : List (Option H)} {i : Nat} (h : i < slots.length) :
    slotAt (slots ++ extra) i = slotAt slots i := by
  rw [slotAt, slotAt, List.getElem?_append_left h]

omit [HashOps H] in
theorem slotAt_delSlots [DecidableEq H] (slots : List (Option H)) (dels : List H) (i : Nat) :
    slotAt (delSlots slots dels) i = (slotAt slots i).filter fun h => h ∉ dels := by
  unfold slotAt delSlots
  rw [List.getElem?_map]
  cases slots[i]? <;> simp

omit [HashOps H] in
@[simp] theorem length_delSlots [DecidableEq H] (slots : List (Option H)) (dels : List H) :
    (delSlots slots dels).length = slots.length := by simp [delSlots]

omit [HashOps H] in
theorem slotsOf_concat [DecidableEq H] (bs : List (Block H)) (b : Block H) :
    slotsOf (bs ++ [b]) = applyBlock (slotsOf bs) b := by
  simp [slotsOf]

omit [HashOps H] in
theorem length_slotsOf [DecidableEq H] (bs : List (Block H)) :
    (slotsOf bs).length = (addedLeaves bs).length := by
  induction bs using List.reverseRecOn with
  | nil => rfl
  | append_singleton bs b ih =>
    rw [slotsOf_concat, applyBlock, List.length_append, length_delSlots, ih]
    simp [addedLeaves]

omit [HashOps H] in
theorem liveLeaves_delSlots [DecidableEq H] (slots : List (Option H)) (dels : List H) :
    liveLeaves (delSlots slots dels) = (liveLeaves slots).filter fun h => h ∉ dels := by
  induction slots with
  | nil => rfl
  | cons s slots ih =>
    simp only [liveLeaves, delSlots, List.map_cons, List.filterMap_cons] at ih ⊢
    cases s with
    | none => simpa using ih
    | some h => by_cases hd : h ∈ dels <;> simp_all [Option.filter]

omit [HashOps H] in
theorem liveLeaves_applyBlock [DecidableEq H] (slots : List (Option H)) (b : Block H) :
    liveLeaves (applyBlock slots b) =
      (liveLeaves slots).filter (fun h => h ∉ b.dels) ++ b.adds := by
  rw [applyBlock, ← liveLeaves_delSlots]
  simp [liveLeaves, List.filterMap_append]

omit [HashOps H] in
/-- The live leaves are some of the leaves ever added, in the order of addition. -/
theorem liveLeaves_sublist [DecidableEq H] (bs : List (Block H)) :
    (liveLeaves (slotsOf bs)).Sublist (addedLeaves bs) := by
  induction bs using List.reverseRecOn with
  | nil => exact List.Sublist.refl _
  | append_singleton bs b ih =>
    rw [slotsOf_concat, liveLeaves_applyBlock]
    have : addedLeaves (bs ++ [b]) = addedLeaves bs ++ b.adds := by simp [addedLeaves]
    rw [this]
    exact (List.filter_sublist.trans ih).append (List.Sublist.refl _)

/-! ### Values and trees -/

section Values
variable [DecidableEq H]

omit [DecidableEq H] in
/-- Hashes of trees with non-empty leaves are not empty. -/
theorem treeHash_ne_empty (hp : ∀ a b : H, parentHash a b ≠ empty) {t : CTree H}
    (ht : ∀ h ∈ t.leaves, h ≠ empty) : treeHash t ≠ empty := by
  cases t with
  | leaf h => exact ht h (by simp [CTree.leaves])
  | node l r => exact hp _ _

omit [DecidableEq H] in
/-- The hash determines the tree. -/
theorem treeHash_inj {leaf : H → Prop} (hi : IdealHash H leaf) {s t : CTree H}
    (hs : ∀ h ∈ s.leaves, leaf h) (ht : ∀ h ∈ t.leaves, leaf h)
    (h : treeHash s = treeHash t) : s = t := by
  induction s generalizing t with
  | leaf a =>
    cases t with
    | leaf b => exact congrArg _ h
    | node l r =>
      refine absurd (hs a (by simp [CTree.leaves])) ?_
      rw [show a = _ from h]
      exact hi.not_leaf _ _
  | node l r ihl ihr =>
    cases t with
    | leaf b =>
      refine absurd (ht b (by simp [CTree.leaves])) ?_
      rw [show b = _ from h.symm]
      exact hi.not_leaf _ _
    | node l' r' =>
      obtain ⟨h1, h2⟩ := hi.inj h
      rw [ihl (fun a ha => hs a (by simp [CTree.leaves, ha]))
          (fun a ha => ht a (by simp [CTree.leaves, ha])) h1,
        ihr (fun a ha => hs a (by simp [CTree.leaves, ha]))
          (fun a ha => ht a (by simp [CTree.leaves, ha])) h2]

theorem hashOpt_join {leaf : H → Prop} (hi : IdealHash H leaf) {s t : Option (CTree H)}
    (hs : ∀ h ∈ CTree.leavesOpt s, h ≠ empty) (ht : ∀ h ∈ CTree.leavesOpt t, h ≠ empty) :
    hashOpt (CTree.join s t) = combine (hashOpt s) (hashOpt t) := by
  cases s with
  | none => simp [combine]
  | some s =>
    have hs' := treeHash_ne_empty hi.ne_empty hs
    cases t with
    | none => simp [combine, hs']
    | some t => simp [combine, hs', treeHash_ne_empty hi.ne_empty ht]

omit [HashOps H] [DecidableEq H] in
theorem leavesOpt_perfect_subset (slots : List (Option H)) (r lo : Nat) :
    ∀ h ∈ CTree.leavesOpt (CTree.perfect (slotAt slots) r lo), h ∈ liveLeaves slots := by
  intro h hh
  rw [CTree.leavesOpt_perfect] at hh
  obtain ⟨i, _, hi⟩ := List.mem_filterMap.mp hh
  exact mem_liveLeaves.mpr (List.mem_of_getElem? (slotAt_eq_some.mp hi))

theorem nodeValue_eq_hashOpt {leaf : H → Prop} (hi : IdealHash H leaf)
    {slots : List (Option H)} (hs : ∀ h ∈ liveLeaves slots, h ≠ empty) (r lo : Nat) :
    nodeValue slots r lo = hashOpt (CTree.perfect (slotAt slots) r lo) := by
  induction r generalizing lo with
  | zero => rw [nodeValue, CTree.perfect]; cases slotAt slots lo <;> rfl
  | succ r ih =>
    rw [nodeValue, CTree.perfect, ih, ih,
      hashOpt_join hi (fun h hh => hs h (leavesOpt_perfect_subset slots r _ h hh))
        (fun h hh => hs h (leavesOpt_perfect_subset slots r _ h hh))]

/-- The roots are the hashes of the collapsed trees. -/
theorem forestRoots_eq {leaf : H → Prop} (hi : IdealHash H leaf)
    {slots : List (Option H)} (hs : ∀ h ∈ liveLeaves slots, h ≠ empty) :
    forestRoots slots = (forestTrees slots).map hashOpt := by
  rw [forestRoots, forestTrees, List.map_map]
  exact List.map_congr_left fun r _ => nodeValue_eq_hashOpt hi hs r _

end Values

end Utreexo
