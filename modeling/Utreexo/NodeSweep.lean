import Mathlib.Data.Set.Lattice
import Mathlib.Order.Antichain
import Utreexo.Antichain

/-! # Sweeping a forest from targets to roots

A set of targets in a forest touches the nodes from each target up to its root.  The
hashes of the touched nodes that are not targets are computed from those of their
children, and for that the sibling of every touched node below a root is needed, unless
it is touched itself.

A sweep visits the touched nodes in order.  `Done n T D` says what the set `D` of those
visited so far is like: it is an initial part of the touched nodes, and two touched
siblings are visited together.  The next node is always a target or the parent of a
visited node (`Done.exists_next`).
-/
namespace Merkle

namespace Node
variable {x y : Node}

theorem Before.parent_before (h : x.Before y) (hne : x.parent ≠ y.parent) :
    x.parent.Before y.parent := by
  unfold Before parent at *
  rw [Ne, Node.ext_iff] at hne
  dsimp only at *
  omega

theorem Before.sibling_before (h : x.Before y) (hne : x.parent ≠ y.parent) :
    x.sibling.Before y.sibling := by
  unfold Before parent sibling at *
  rw [Ne, Node.ext_iff] at hne
  dsimp only at *
  split <;> split <;> omega

/-- A node in the forest has no root for its sibling. -/
theorem InForest.sibling_not_isRoot {n : Nat} (h : x.InForest n) : ¬ x.sibling.IsRoot n := by
  intro hr
  have hs := hr.sibling_not_inForest
  rw [sibling_sibling] at hs
  exact hs h

end Node

section
variable (n : Nat) (T : Set Node)

/-- A node from a target up to its root. -/
def Touched (x : Node) : Prop := x.InForest n ∧ ∃ t ∈ T, x.Above t

/-- A proper ancestor of a target, up to the root. -/
def Computed (x : Node) : Prop := x.InForest n ∧ ∃ t ∈ T, x.Above t ∧ x ≠ t

/-- The sibling of a touched node below a root that is not touched itself. -/
def Needed (x : Node) : Prop := Touched n T x.sibling ∧ ¬ x.sibling.IsRoot n ∧ ¬ Touched n T x

end

variable {n : Nat} {T D : Set Node} {x y : Node}

theorem Touched.of_mem (hT : ∀ t ∈ T, t.InForest n) (h : x ∈ T) : Touched n T x :=
  ⟨hT x h, x, h, .refl x⟩

theorem Computed.touched (h : Computed n T x) : Touched n T x := by
  obtain ⟨hx, t, ht, ha, -⟩ := h
  exact ⟨hx, t, ht, ha⟩

/-- A proper ancestor of a target has a child on the way. -/
theorem Computed.exists_child (h : Computed n T x) :
    ∃ y, Touched n T y ∧ ¬ y.IsRoot n ∧ y.parent = x := by
  obtain ⟨hx, t, ht, ⟨j, rfl⟩, hne⟩ := h
  cases j with
  | zero => exact absurd (Node.up_zero t) hne
  | succ j =>
    rw [Node.up_succ] at hx
    exact ⟨t.up j, ⟨Node.inForest_of_parent hx, t, ht, j, rfl⟩, Node.not_isRoot_of_parent hx,
      (Node.up_succ t j).symm⟩

theorem Touched.computed_parent (h : Touched n T x) (hr : ¬ x.IsRoot n) :
    Computed n T x.parent := by
  obtain ⟨hx, t, ht, ha⟩ := h
  refine ⟨hx.parent hr, t, ht, x.parent_above.trans ha, ?_⟩
  rintro rfl
  have hrow := ha.row_le
  rw [Node.parent_row] at hrow
  omega

theorem Touched.mem_or_computed (h : Touched n T x) : x ∈ T ∨ Computed n T x := by
  obtain ⟨hx, t, ht, ha⟩ := h
  by_cases hxt : x = t
  · exact Or.inl (hxt ▸ ht)
  · exact Or.inr ⟨hx, t, ht, ha, hxt⟩

theorem touched_union : Touched n (T ∪ D) x ↔ Touched n T x ∨ Touched n D x := by
  constructor
  · rintro ⟨hx, t, ht | ht, ha⟩
    · exact Or.inl ⟨hx, t, ht, ha⟩
    · exact Or.inr ⟨hx, t, ht, ha⟩
  · rintro (⟨hx, t, ht, ha⟩ | ⟨hx, t, ht, ha⟩)
    · exact ⟨hx, t, Or.inl ht, ha⟩
    · exact ⟨hx, t, Or.inr ht, ha⟩

theorem union_computed (hT : ∀ t ∈ T, t.InForest n) :
    T ∪ {x | Computed n T x} = {x | Touched n T x} := by
  ext x
  constructor
  · rintro (hx | hx)
    · exact .of_mem hT hx
    · exact Computed.touched hx
  · exact Touched.mem_or_computed

theorem Needed.inForest (h : Needed n T x) : x.InForest n := by
  have hx := h.1.1.sibling h.2.1
  rwa [Node.sibling_sibling] at hx

theorem inForest_of_needed (T : Set Node) : ∀ y ∈ {x | Needed n T x}, y.InForest n :=
  fun _ hy => Needed.inForest hy

/-- No target is a proper ancestor of a target. -/
theorem Computed.not_mem (hT : IsAntichain Node.Above T) (h : Computed n T x) : x ∉ T := by
  obtain ⟨_, t, ht, ha, hne⟩ := h
  exact fun hx => hT hx ht hne ha

/-! ### The nodes visited so far -/

/-- The parents of the visited nodes below the roots. -/
def parentsOf (n : Nat) (D : Set Node) : Set Node := {x | ∃ y ∈ D, ¬ y.IsRoot n ∧ y.parent = x}

/-- The siblings of the visited nodes that are not touched. -/
def siblingsOf (n : Nat) (T D : Set Node) : Set Node :=
  {x | x.sibling ∈ D ∧ ¬ x.sibling.IsRoot n ∧ ¬ Touched n T x}

/-- An initial part of the touched nodes that separates no touched siblings. -/
structure Done (n : Nat) (T D : Set Node) : Prop where
  touched : ∀ x ∈ D, Touched n T x
  initial : ∀ {x y}, y ∈ D → Touched n T x → x.Before y → x ∈ D
  pairs : ∀ {x}, x ∈ D → ¬ x.IsRoot n → Touched n T x.sibling → x.sibling ∈ D

/-- The node is the first of the touched ones that have not been visited. -/
structure Next (n : Nat) (T D : Set Node) (x : Node) : Prop where
  touched : Touched n T x
  not_mem : x ∉ D
  first : ∀ {y}, Touched n T y → y ∉ D → y = x ∨ x.Before y

/-- What is visited with a node: the sibling, if that is touched too. -/
def visited (n : Nat) (T : Set Node) (x : Node) : Set Node :=
  {y | y = x ∨ y = x.sibling ∧ ¬ x.IsRoot n ∧ Touched n T y}

theorem visited_of_root (hr : x.IsRoot n) : visited n T x = {x} := by
  ext y
  simp [visited, hr]

theorem visited_single (hs : ¬ Touched n T x.sibling) : visited n T x = {x} := by
  ext y
  constructor
  · rintro (rfl | ⟨rfl, -, h⟩)
    · rfl
    · exact absurd h hs
  · exact Or.inl

theorem visited_pair (hr : ¬ x.IsRoot n) (hs : Touched n T x.sibling) :
    visited n T x = {x, x.sibling} := by
  ext y
  constructor
  · rintro (rfl | ⟨rfl, -, -⟩)
    · exact Or.inl rfl
    · exact Or.inr rfl
  · rintro (rfl | rfl)
    · exact Or.inl rfl
    · exact Or.inr ⟨rfl, hr, hs⟩

theorem parentsOf_visit_root (hr : x.IsRoot n) :
    parentsOf n (D ∪ visited n T x) = parentsOf n D := by
  rw [visited_of_root hr]
  ext y
  constructor
  · rintro ⟨z, hz | rfl, hz', he⟩
    · exact ⟨z, hz, hz', he⟩
    · exact absurd hr hz'
  · rintro ⟨z, hz, hz', he⟩
    exact ⟨z, Or.inl hz, hz', he⟩

theorem parentsOf_visit (hr : ¬ x.IsRoot n) :
    parentsOf n (D ∪ visited n T x) = insert x.parent (parentsOf n D) := by
  ext y
  constructor
  · rintro ⟨z, hz | rfl | ⟨rfl, -, -⟩, hz', rfl⟩
    · exact Or.inr ⟨z, hz, hz', rfl⟩
    · exact Or.inl rfl
    · exact Or.inl (Node.sibling_parent x)
  · rintro (rfl | ⟨z, hz, hz', he⟩)
    · exact ⟨x, Or.inr (Or.inl rfl), hr, rfl⟩
    · exact ⟨z, Or.inl hz, hz', he⟩

/-- A node whose sibling is visited is no sibling that is needed. -/
theorem siblingsOf_visit_touched (hx : Touched n T x) (hs : x.IsRoot n ∨ Touched n T x.sibling) :
    siblingsOf n T (D ∪ visited n T x) = siblingsOf n T D := by
  ext y
  constructor
  · rintro ⟨hy | hy | ⟨hy, -⟩, hr, hy'⟩
    · exact ⟨hy, hr, hy'⟩
    · rcases hs with hs | hs
      · exact absurd (hy ▸ hs) hr
      · rw [← hy, Node.sibling_sibling] at hs
        exact absurd hs hy'
    · rw [← Node.sibling_sibling y, hy, Node.sibling_sibling] at hy'
      exact absurd hx hy'
  · rintro ⟨hy, hr, hy'⟩
    exact ⟨Or.inl hy, hr, hy'⟩

theorem siblingsOf_visit_single (hr : ¬ x.IsRoot n) (hs : ¬ Touched n T x.sibling) :
    siblingsOf n T (D ∪ visited n T x) = insert x.sibling (siblingsOf n T D) := by
  rw [visited_single hs]
  ext y
  constructor
  · rintro ⟨hy | hy, hr', hy'⟩
    · exact Or.inr ⟨hy, hr', hy'⟩
    · refine Or.inl ?_
      rw [← Set.mem_singleton_iff.mp hy, Node.sibling_sibling]
  · rintro (rfl | ⟨hy, hr', hy'⟩)
    · refine ⟨Or.inr (Node.sibling_sibling x), ?_, hs⟩
      rwa [Node.sibling_sibling]
    · exact ⟨Or.inl hy, hr', hy'⟩

theorem Done.empty (n : Nat) (T : Set Node) : Done n T ∅ :=
  ⟨fun _ h => absurd h (Set.notMem_empty _), fun h => absurd h (Set.notMem_empty _),
    fun h => absurd h (Set.notMem_empty _)⟩

namespace Done

theorem parentsOf_computed (hD : Done n T D) (h : x ∈ parentsOf n D) : Computed n T x := by
  obtain ⟨y, hy, hr, rfl⟩ := h
  exact (hD.touched y hy).computed_parent hr

/-- A touched node is a target or the parent of a visited node, once all touched nodes on
the rows below have been visited. -/
theorem pending_of (h : Touched n T x)
    (hlow : ∀ y, Touched n T y → y.row < x.row → y ∈ D) : x ∈ T ∨ x ∈ parentsOf n D := by
  rcases h.mem_or_computed with h | h
  · exact Or.inl h
  · obtain ⟨y, hy, hr, rfl⟩ := h.exists_child
    exact Or.inr ⟨y, hlow y hy (Nat.lt_succ_self _), hr, rfl⟩

/-- Before every touched node that has not been visited there is one that is known: a
target or the parent of a visited node. -/
theorem exists_next (h : Touched n T x) (hx : x ∉ D) :
    ∃ y, (y ∈ T ∨ y ∈ parentsOf n D) ∧ y ∉ D ∧ (y = x ∨ y.Before x) := by
  -- By induction on the row: the child on the way to a target is visited, or comes first.
  induction hr : x.row generalizing x with
  | zero =>
    refine ⟨x, pending_of h fun y _ hy => ?_, hx, Or.inl rfl⟩
    omega
  | succ r ih =>
    rcases h.mem_or_computed with hT | hc
    · exact ⟨x, Or.inl hT, hx, Or.inl rfl⟩
    · obtain ⟨y, hy, hroot, rfl⟩ := hc.exists_child
      by_cases hyD : y ∈ D
      · exact ⟨_, Or.inr ⟨y, hyD, hroot, rfl⟩, hx, Or.inl rfl⟩
      · obtain ⟨z, hz, hzD, hzy⟩ := ih hy hyD (by rw [Node.parent_row] at hr; omega)
        refine ⟨z, hz, hzD, Or.inr ?_⟩
        rcases hzy with rfl | hzy
        · exact z.before_parent
        · exact hzy.trans y.before_parent

variable (hD : Done n T D) (hx : Next n T D x)
include hD hx

theorem before_of_mem (hy : y ∈ D) : y.Before x := by
  rcases y.before_or_eq_or x with h | rfl | h
  · exact h
  · exact absurd hy hx.not_mem
  · exact absurd (hD.initial hy hx.touched h) hx.not_mem

/-- A touched sibling has not been visited either. -/
theorem sibling_not_mem : x.sibling ∉ D := by
  intro hs
  have h := hD.pairs hs hx.touched.1.sibling_not_isRoot
    (by rw [Node.sibling_sibling]; exact hx.touched)
  rw [Node.sibling_sibling] at h
  exact hx.not_mem h

/-- The sibling of the first one comes next. -/
theorem before_sibling (hs : Touched n T x.sibling) : x.Before x.sibling := by
  rcases hx.first hs (hD.sibling_not_mem hx) with h | h
  · exact absurd h x.sibling_ne
  · exact h

omit hD in
/-- It is a target or the parent of a visited node. -/
theorem sibling_pending (hs : Touched n T x.sibling) :
    x.sibling ∈ T ∨ x.sibling ∈ parentsOf n D := by
  refine pending_of hs fun y hy hlt => ?_
  by_contra hyD
  rw [Node.sibling_row] at hlt
  rcases hx.first hy hyD with rfl | h
  · omega
  · unfold Node.Before at h
    omega

/-- The visited nodes after one more round. -/
theorem visit : Done n T (D ∪ visited n T x) where
  touched := by
    rintro y (hy | rfl | ⟨rfl, -, hy⟩)
    · exact hD.touched y hy
    · exact hx.touched
    · exact hy
  initial := by
    intro y z hz hy hb
    by_contra hcon
    rw [Set.mem_union, not_or] at hcon
    have hxy := hx.first hy hcon.1
    rcases hz with hz | rfl | ⟨rfl, hr, hs⟩
    · exact hcon.1 (hD.initial hz hy hb)
    · rcases hxy with rfl | h
      · exact hb.irrefl
      · exact (h.trans hb).irrefl
    · rcases hxy with rfl | h
      · exact hcon.2 (Or.inl rfl)
      · rcases (hD.before_sibling hx hs).sibling_next h with rfl | h'
        · exact hb.irrefl
        · exact (h'.trans hb).irrefl
  pairs := by
    rintro y (hy | rfl | ⟨rfl, hr, hy⟩) hroot hs
    · exact Or.inl (hD.pairs hy hroot hs)
    · exact Or.inr (Or.inr ⟨rfl, hroot, hs⟩)
    · exact Or.inr (Or.inl (Node.sibling_sibling x))

/-- The parents are met in order. -/
theorem before_parent (hy : y ∈ parentsOf n D) : y.Before x.parent := by
  obtain ⟨z, hz, -, rfl⟩ := hy
  refine (hD.before_of_mem hx hz).parent_before fun he => ?_
  rcases Node.eq_or_eq_sibling he.symm with rfl | rfl
  · exact hx.not_mem hz
  · exact hD.sibling_not_mem hx hz

/-- So are the siblings. -/
theorem before_sibling_of_mem (hy : y ∈ siblingsOf n T D) : y.Before x.sibling := by
  obtain ⟨hy, -, -⟩ := hy
  have hb := (hD.before_of_mem hx hy).sibling_before fun he => ?_
  · rwa [Node.sibling_sibling] at hb
  · rcases Node.eq_or_eq_sibling he.symm with he | he
    · exact hx.not_mem (he ▸ hy)
    · exact hD.sibling_not_mem hx (he ▸ hy)

theorem parent_not_mem : x.parent ∉ D ∪ visited n T x := by
  rintro (h | h | ⟨h, -⟩)
  · exact (x.before_parent.trans (hD.before_of_mem hx h)).irrefl
  · have := congrArg Node.row h
    rw [Node.parent_row] at this
    omega
  · have := congrArg Node.row h
    rw [Node.parent_row, Node.sibling_row] at this
    omega

omit hx in
/-- Once nothing is left, everything touched has been visited. -/
theorem eq_touched (hall : ∀ y, y ∈ T ∨ y ∈ parentsOf n D → y ∈ D) :
    D = {y | Touched n T y} := by
  ext y
  refine ⟨hD.touched y, fun hy => ?_⟩
  by_contra hyD
  obtain ⟨z, hz, hzD, -⟩ := exists_next hy hyD
  exact hzD (hall z hz)

end Done

theorem parentsOf_touched : parentsOf n {y | Touched n T y} = {x | Computed n T x} := by
  ext x
  constructor
  · rintro ⟨y, hy, hr, rfl⟩
    exact hy.computed_parent hr
  · exact Computed.exists_child

theorem siblingsOf_touched : siblingsOf n T {y | Touched n T y} = {x | Needed n T x} := rfl

end Merkle
