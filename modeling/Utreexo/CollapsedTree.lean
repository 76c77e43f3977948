import Mathlib.Data.List.Basic
import Mathlib.Tactic.Ring

/-! # Collapsed trees

Binary trees from which leaves are deleted: a node that loses one child is
replaced by its other child, and a tree that loses all its leaves is gone.  An
`Option (CTree α)` is a tree or the empty tree; `join` puts two of them side by
side, and `prune` deletes the leaves that a test marks.

`perfect slots h lo` is the tree over the `2 ^ h` slots from `lo` on, with the
vacant slots collapsed away.
-/
namespace Merkle

inductive CTree (α : Type) where
  | leaf (a : α)
  | node (l r : CTree α)
  deriving DecidableEq, Repr

namespace CTree
variable {α β : Type}

/-- The leaves from left to right. -/
def leaves : CTree α → List α
  | leaf a => [a]
  | node l r => l.leaves ++ r.leaves

/-- The value of a tree, given the value of a node from those of its children. -/
def value (f : α → α → α) : CTree α → α
  | leaf a => a
  | node l r => f (l.value f) (r.value f)

/-- Two trees side by side. -/
def join : Option (CTree α) → Option (CTree α) → Option (CTree α)
  | none, t => t
  | t, none => t
  | some l, some r => some (node l r)

@[simp] theorem join_none_left (t : Option (CTree α)) : join none t = t := by cases t <;> rfl

@[simp] theorem join_none_right (t : Option (CTree α)) : join t none = t := by cases t <;> rfl

@[simp] theorem join_some (l r : CTree α) : join (some l) (some r) = some (node l r) := rfl

/-- The leaves of a tree that may be empty. -/
def leavesOpt : Option (CTree α) → List α
  | none => []
  | some t => t.leaves

@[simp] theorem leavesOpt_none : leavesOpt (none : Option (CTree α)) = [] := rfl

@[simp] theorem leavesOpt_some (t : CTree α) : leavesOpt (some t) = t.leaves := rfl

@[simp] theorem leavesOpt_join (s t : Option (CTree α)) :
    leavesOpt (join s t) = leavesOpt s ++ leavesOpt t := by
  cases s <;> cases t <;> simp [leaves]

theorem leaves_ne_nil (t : CTree α) : t.leaves ≠ [] := by
  induction t with
  | leaf a => simp [leaves]
  | node l r ihl _ => simp [leaves, ihl]

/-- Deletes the leaves marked `dead`. -/
def prune (dead : α → Bool) : CTree α → Option (CTree α)
  | leaf a => if dead a then none else some (leaf a)
  | node l r => join (l.prune dead) (r.prune dead)

theorem leavesOpt_prune (dead : α → Bool) (t : CTree α) :
    leavesOpt (t.prune dead) = t.leaves.filter (fun a => !dead a) := by
  induction t with
  | leaf a => cases h : dead a <;> simp [prune, leaves, h]
  | node l r ihl ihr => simp [prune, leaves, ihl, ihr]

theorem prune_congr {dead dead' : α → Bool} {t : CTree α}
    (h : ∀ a ∈ t.leaves, dead a = dead' a) : t.prune dead = t.prune dead' := by
  induction t with
  | leaf a => simp [prune, h a (by simp [leaves])]
  | node l r ihl ihr =>
    rw [prune, prune, ihl fun a ha => h a (by simp [leaves, ha]),
      ihr fun a ha => h a (by simp [leaves, ha])]

theorem prune_of_none_dead {dead : α → Bool} {t : CTree α} (h : ∀ a ∈ t.leaves, dead a = false) :
    t.prune dead = some t := by
  induction t with
  | leaf a => simp [prune, h a (by simp [leaves])]
  | node l r ihl ihr =>
    rw [prune, ihl fun a ha => h a (by simp [leaves, ha]),
      ihr fun a ha => h a (by simp [leaves, ha]), join_some]

theorem join_bind_prune (dead : α → Bool) (s t : Option (CTree α)) :
    (join s t).bind (prune dead) = join (s.bind (prune dead)) (t.bind (prune dead)) := by
  cases s <;> cases t <;> simp [prune]

theorem prune_prune (dead dead' : α → Bool) (t : CTree α) :
    (t.prune dead).bind (prune dead') = t.prune fun a => dead a || dead' a := by
  induction t with
  | leaf a => cases h : dead a <;> simp [prune, h]
  | node l r ihl ihr => rw [prune, join_bind_prune, ihl, ihr, prune]

/-! ### Trees over slots -/

/-- The tree over the `2 ^ h` slots from `lo` on. -/
def perfect (slots : Nat → Option α) : Nat → Nat → Option (CTree α)
  | 0, lo => (slots lo).map leaf
  | h + 1, lo => join (perfect slots h lo) (perfect slots h (lo + 2 ^ h))

theorem perfect_congr {slots slots' : Nat → Option α} {h lo : Nat}
    (hs : ∀ i, lo ≤ i → i < lo + 2 ^ h → slots i = slots' i) :
    perfect slots h lo = perfect slots' h lo := by
  induction h generalizing lo with
  | zero => simp [perfect, hs lo (Nat.le_refl _) (by simp)]
  | succ h ih =>
    have hp : 2 ^ (h + 1) = 2 ^ h + 2 ^ h := by ring
    rw [perfect, perfect, ih fun i h1 h2 => hs i h1 (by omega),
      ih fun i h1 h2 => hs i (by omega) (by omega)]

/-- Vacating the slots of dead leaves prunes the tree. -/
theorem perfect_prune (slots : Nat → Option α) (dead : α → Bool) (h lo : Nat) :
    perfect (fun i => (slots i).filter (fun a => !dead a)) h lo =
      (perfect slots h lo).bind (prune dead) := by
  induction h generalizing lo with
  | zero =>
    cases hs : slots lo with
    | none => simp [perfect, hs]
    | some a => cases hd : dead a <;> simp [perfect, hs, hd, prune]
  | succ h ih => rw [perfect, perfect, ih, ih, join_bind_prune]

theorem leavesOpt_perfect (slots : Nat → Option α) (h lo : Nat) :
    leavesOpt (perfect slots h lo) = (List.range' lo (2 ^ h)).filterMap slots := by
  induction h generalizing lo with
  | zero => cases hs : slots lo <;> simp [perfect, hs, leaves]
  | succ h ih =>
    have hp : 2 ^ (h + 1) = 2 ^ h + 2 ^ h := by ring
    rw [perfect, leavesOpt_join, ih, ih, hp, ← List.range'_append_1, List.filterMap_append]

end CTree

end Merkle
