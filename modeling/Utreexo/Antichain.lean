import Mathlib.Data.List.Pairwise
import Mathlib.Data.List.Sort
import Utreexo.Node

/-! # Sets of disjoint subtrees

A set of nodes of which none is above another stands for a set of disjoint subtrees.  It
is kept as a list in the order of the nodes.  Two siblings in it can be replaced by
their parent.
-/
namespace Merkle

namespace Node
variable {x y z : Node}

/-- Neither is above the other. -/
def Apart (x y : Node) : Prop := ¬ x.Above y ∧ ¬ y.Above x

theorem Apart.symm (h : x.Apart y) : y.Apart x := ⟨h.2, h.1⟩

theorem Apart.ne (h : x.Apart y) : x ≠ y := by
  rintro rfl
  exact h.1 (.refl x)

/-- What is strictly below the parent is below the node or its sibling. -/
theorem Above.of_parent (h : x.parent.Above y) (hne : x.parent ≠ y) :
    x.Above y ∨ x.sibling.Above y := by
  obtain ⟨j, hj⟩ := h
  cases j with
  | zero => exact absurd (hj.symm.trans (up_zero y)) hne
  | succ j =>
    rw [up_succ] at hj
    rcases eq_or_eq_sibling hj.symm with h | h
    · exact Or.inl ⟨j, h⟩
    · exact Or.inr ⟨j, h⟩

/-- What is apart from two siblings is apart from their parent. -/
theorem Apart.parent (h1 : x.Apart y) (h2 : x.sibling.Apart y) : x.parent.Apart y := by
  refine ⟨fun h => ?_, fun h => h1.2 (h.trans x.parent_above)⟩
  by_cases he : x.parent = y
  · exact h1.2 (he ▸ x.parent_above)
  · rcases h.of_parent he with h | h
    · exact h1.1 h
    · exact h2.1 h

/-- The parent is apart from whatever comes later than the node, unless that is the
sibling. -/
theorem Before.parent_apart (hb : x.Before y) (h : x.Apart y) (hs : y ≠ x.sibling) :
    x.parent.Apart y := by
  refine ⟨fun ha => ?_, fun ha => h.2 (ha.trans x.parent_above)⟩
  by_cases he : x.parent = y
  · exact h.2 (he ▸ x.parent_above)
  · rcases ha.of_parent he with ha | ha
    · exact h.1 ha
    · have hrow := ha.row_le
      rw [sibling_row] at hrow
      refine hs (ha.eq_of_row_eq ?_).symm
      unfold Before at hb
      rw [sibling_row]
      omega

/-- Of two siblings the left one comes first. -/
theorem before_sibling_iff (x : Node) : x.Before x.sibling ↔ x.off % 2 = 0 := by
  unfold Before sibling
  dsimp only
  split <;> omega

/-- The right one of two siblings is next after the left one. -/
theorem Before.sibling_next (hb : x.Before x.sibling) (hxz : x.Before z) :
    z = x.sibling ∨ x.sibling.Before z := by
  unfold Before sibling at *
  simp only [Node.ext_iff]
  split at hb <;> split <;> simp_all <;> omega

end Node

/-! ### Lists of nodes that are apart -/

/-- In the order of the nodes, and none above another. -/
def Antichain (xs : List Node) : Prop := xs.Pairwise fun x y => x.Before y ∧ x.Apart y

/-- No two siblings. -/
def Twinless (xs : List Node) : Prop := xs.Pairwise fun x y => y ≠ x.sibling

theorem Twinless.sibling_not_mem {xs : List Node} {x : Node} (h : Twinless xs) (hx : x ∈ xs) :
    x.sibling ∉ xs := by
  have : Std.Symm fun x y : Node => y ≠ x.sibling := by
    refine ⟨fun x y hxy hyx => hxy ?_⟩
    rw [hyx, Node.sibling_sibling]
  intro hs
  exact h.forall hx hs x.sibling_ne.symm rfl

namespace Antichain
variable {xs : List Node} {x : Node}

theorem insert (h : Antichain xs) (hx : ∀ y ∈ xs, x.Apart y) :
    Antichain (xs.orderedInsert Node.Before x) := by
  induction xs with
  | nil => exact List.pairwise_singleton _ _
  | cons y xs ih =>
    obtain ⟨hy, hxs⟩ := List.pairwise_cons.mp h
    rw [List.orderedInsert_cons]
    split
    · next hb =>
      refine List.pairwise_cons.mpr ⟨?_, h⟩
      intro z hz
      refine ⟨?_, hx z hz⟩
      rcases List.mem_cons.mp hz with rfl | hz
      · exact hb
      · exact hb.trans (hy z hz).1
    · next hb =>
      refine List.pairwise_cons.mpr ⟨?_, ih hxs fun z hz => hx z (List.mem_cons_of_mem _ hz)⟩
      intro z hz
      rcases (List.mem_orderedInsert _).mp hz with rfl | hz
      · have hap := hx y List.mem_cons_self
        rcases y.before_or_eq_or z with hyz | hyz | hyz
        · exact ⟨hyz, hap.symm⟩
        · exact absurd hyz.symm hap.ne
        · exact absurd hyz hb
      · exact hy z hz

theorem apart (h : Antichain xs) {y : Node} (hx : x ∈ xs) (hy : y ∈ xs) (hne : x ≠ y) :
    x.Apart y := by
  have : Std.Symm Node.Apart := ⟨fun _ _ => Node.Apart.symm⟩
  exact (List.Pairwise.imp And.right h).forall hx hy hne

theorem eq_of_above (h : Antichain xs) {y : Node} (hx : x ∈ xs) (hy : y ∈ xs)
    (habove : x.Above y) : x = y := by
  by_contra hne
  exact (h.apart hx hy hne).1 habove

/-- If no two neighbours in the list are siblings, no two nodes are. -/
theorem twinless (h : Antichain xs)
    (hadj : ∀ (m : Nat) x y, xs[m]? = some x → xs[m + 1]? = some y → y ≠ x.sibling) :
    Twinless xs := by
  induction xs with
  | nil => exact List.Pairwise.nil
  | cons x xs ih =>
    obtain ⟨hx, hxs⟩ := List.pairwise_cons.mp h
    refine List.pairwise_cons.mpr ⟨?_, ih hxs fun m => hadj (m + 1)⟩
    rintro y hy rfl
    -- The first of the others is the sibling, or comes between.
    cases xs with
    | nil => cases hy
    | cons z xs =>
      have hz := hadj 0 x z rfl rfl
      rcases List.mem_cons.mp hy with he | hy
      · exact hz he.symm
      · have hlt := ((List.pairwise_cons.mp hxs).1 _ hy).1
        rcases (hx _ (List.mem_cons_of_mem _ hy)).1.sibling_next (hx z List.mem_cons_self).1 with
          he | hb
        · exact hz he
        · exact Node.Before.irrefl _ (hb.trans hlt)

end Antichain

end Merkle
