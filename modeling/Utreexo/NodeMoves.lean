import Utreexo.CachedScan
import Utreexo.NodeView

/-! # What moves up with a subtree

`moveUpDescendants` goes down row by row and moves every node below the sibling of a deleted
node, to where the row above has just been moved away.  `movedNodes t M N` is the map after
the nodes in `M` have been moved; one more child enlarges `M`.
-/
namespace Merkle.Node
variable {t x y z : Node}

@[simp] theorem lower_row (t y : Node) : (lower t y).row = y.row - 1 := rfl

theorem raise_sibling (h : y.row < t.row) : raise t y.sibling = (raise t y).sibling := by
  refine eq_of_parent_of_isRight ?_ ?_
  · rw [← raise_parent (by rwa [sibling_row]), sibling_parent, sibling_parent, raise_parent h]
  · rw [isRight_raise (by rwa [sibling_row]), isRight_sibling, isRight_sibling, isRight_raise h]

theorem raise_self (t : Node) : raise t t.sibling = t.parent := by
  have h := raise_sibling_self t.sibling
  rwa [sibling_sibling, sibling_parent] at h

/-- What is below the parent, but on the bottom row, comes from below the sibling. -/
theorem exists_raise (h : t.parent.Above z) (h0 : 0 < z.row) :
    ∃ y, t.sibling.Above y ∧ raise t y = z := by
  have hle := h.row_le
  rw [parent_row] at hle
  exact ⟨lower t z, sibling_above_lower hle h0, raise_lower h h0⟩

theorem Above.row_lt_of_ne (h : t.sibling.Above y) (hne : y ≠ t.sibling) : y.row < t.row := by
  have hle := (h.parent_of_ne (Ne.symm hne)).row_le
  rw [parent_row, sibling_row] at hle
  omega

theorem Above.sibling_of_ne (h : t.Above y) (hne : y ≠ t) : t.Above y.sibling := by
  have hp := h.parent_of_ne (Ne.symm hne)
  rw [← sibling_parent] at hp
  exact hp.trans (parent_above _)

theorem Above.of_sibling (h : t.Above y.sibling) (hne : y.sibling ≠ t) : t.Above y := by
  have hp := h.parent_of_ne (Ne.symm hne)
  rw [sibling_parent] at hp
  exact hp.trans (parent_above y)

/-- The sibling of a node on the way up is beside it. -/
theorem Above.sibling_apart (h : y.Above t) : ¬ t.Above y.sibling ∧ ¬ y.sibling.Above t := by
  constructor
  · intro hs
    have hrow := hs.row_le
    rw [sibling_row] at hrow
    have he := h.eq_of_row_eq (Nat.le_antisymm hrow h.row_le)
    exact sibling_ne y (by rw [← hs.eq_of_row_eq (congrArg Node.row he).symm, ← he])
  · intro hs
    rcases hs.total h with h' | h'
    · exact sibling_ne y (h'.eq_of_row_eq rfl)
    · exact sibling_ne y (h'.eq_of_row_eq rfl).symm

theorem raise_inj (hx : t.sibling.Above x) (hy : t.sibling.Above y) (h : raise t x = raise t y) :
    x = y := by
  have hrow : x.row = y.row := by
    have := congrArg Node.row h
    rw [raise_row, raise_row] at this
    omega
  obtain ⟨j, hj⟩ := hx
  obtain ⟨i, hi⟩ := hy
  have hjr := congrArg Node.row hj
  have hir := congrArg Node.row hi
  rw [up_row, sibling_row] at hjr hir
  obtain rfl : i = j := by omega
  refine eq_of_path_eq (hj.trans hi.symm) ?_
  have hpx := raise_path t x
  have hpy := raise_path t y
  rw [show t.row - x.row = i by omega] at hpx
  rw [show t.row - y.row = i by omega, ← h] at hpy
  exact hpx.symm.trans hpy

theorem lower_raise (hy : t.sibling.Above y) : lower t (raise t y) = y := by
  have hle : y.row ≤ t.row := hy.row_le
  have h0 : 0 < (raise t y).row := Nat.succ_pos _
  exact raise_inj (sibling_above_lower (by rw [raise_row]; omega) h0) hy
    (raise_lower (parent_above_raise hle) h0)

theorem lower_parent_self (t : Node) : lower t t.parent = t.sibling := by
  have h := lower_raise (t := t) (Above.refl t.sibling)
  rwa [raise_self] at h

/-- Strictly below the parent of `t` is what comes from strictly below its sibling. -/
theorem lower_ne_sibling (h : t.parent.Above y) (hne : y ≠ t.parent) (h0 : 0 < y.row) :
    lower t y ≠ t.sibling := by
  intro he
  have := raise_lower h h0
  rw [he, ← lower_parent_self t, raise_lower (Above.refl _) (Nat.succ_pos _)] at this
  exact hne this.symm

end Merkle.Node

namespace Utreexo
open Merkle

namespace MapPollard
variable {H : Type} {t : Node} {M : Set Node} {N : NodeMap H} {K : LeafMap H}

/-- Strictly below the sibling of the deleted node. -/
def Moving (t w : Node) : Prop := t.sibling.Above w ∧ w ≠ t.sibling

open Classical in
/-- The nodes once those in `M` have been moved.  A place that nothing moves to keeps what it
has, unless that has been moved away. -/
noncomputable def movedNodes (t : Node) (M : Set Node) (N : NodeMap H) : NodeMap H := fun z =>
  (if 0 < z.row ∧ t.parent.Above z ∧ Node.lower t z ∈ M then N (Node.lower t z) else none).or
    (if z ∈ M then none else N z)

open Classical in
noncomputable def movedLeaves (t : Node) (M : Set Node) (K : LeafMap H) : LeafMap H := fun h =>
  (K h).map fun x => if x ∈ M then Node.raise t x else x

/-- The cached leaves in the region are at the nodes with their hashes. -/
structure LeavesAgree (P : Node → Prop) (N : NodeMap H) (K : LeafMap H) : Prop where
  node : ∀ h x, K h = some x → P x → ∃ l, N x = some l ∧ l.hash = h
  leaf : ∀ w l, P w → N w = some l → ∀ x, K l.hash = some x → x = w

section
variable {c : Node}

open Classical in
theorem movedNodes_of_low (hlow : ∀ w ∈ M, c.row ≤ w.row) :
    movedNodes t M N c = if c ∈ M then none else N c := by
  unfold movedNodes
  rw [if_neg fun h => ?_, Option.none_or]
  have hle := hlow _ h.2.2
  rw [Node.lower_row] at hle
  omega

theorem movedNodes_self (hlow : ∀ w ∈ M, c.row ≤ w.row) (hc : c ∉ M) :
    movedNodes t M N c = N c := by
  classical
  rw [movedNodes_of_low hlow, if_neg hc]

theorem movedNodes_insert_none (hN : N c = none) :
    movedNodes t (insert c M) N = movedNodes t M N := by
  classical
  funext z
  unfold movedNodes
  congr 1
  · by_cases hz : Node.lower t z = c
    · rw [hz, hN, ite_self, ite_self]
    · simp only [Set.mem_insert_iff, hz, false_or]
  · by_cases hz : z = c
    · rw [hz, hN, ite_self, ite_self]
    · simp only [Set.mem_insert_iff, hz, false_or]

theorem movedNodes_insert_some (hmove : Moving t c) (hlow : ∀ w ∈ M, c.row ≤ w.row) {l : Leaf H}
    (hN : N c = some l) :
    movedNodes t (insert c M) N =
      Function.update (Function.update (movedNodes t M N) c none) (Node.raise t c) (some l) := by
  classical
  have hle : c.row ≤ t.row := hmove.1.row_le
  funext z
  by_cases hz : z = Node.raise t c
  · subst hz
    rw [Function.update_self, movedNodes, Node.lower_raise hmove.1,
      if_pos ⟨Nat.succ_pos _, Node.parent_above_raise hle, Set.mem_insert c M⟩, hN]
    rfl
  · rw [Function.update_of_ne hz]
    by_cases hzc : z = c
    · subst hzc
      rw [Function.update_self, movedNodes_of_low, if_pos (Set.mem_insert z M)]
      intro w hw
      rcases hw with rfl | hw
      · exact Nat.le_refl _
      · exact hlow w hw
    · rw [Function.update_of_ne hzc]
      unfold movedNodes
      have hne : 0 < z.row ∧ t.parent.Above z → Node.lower t z ≠ c := fun hz' he =>
        hz (by rw [← he, Node.raise_lower hz'.2 hz'.1])
      congr 1
      · by_cases hz' : 0 < z.row ∧ t.parent.Above z
        · simp only [Set.mem_insert_iff, hne hz', false_or]
        · rw [if_neg fun h => hz' ⟨h.1, h.2.1⟩, if_neg fun h => hz' ⟨h.1, h.2.1⟩]
      · simp only [Set.mem_insert_iff, hzc, false_or]

theorem movedLeaves_insert_none (hK : LeavesAgree (Moving t) N K) (hmove : Moving t c)
    (hN : N c = none) :
    movedLeaves t (insert c M) K = movedLeaves t M K := by
  classical
  funext h
  unfold movedLeaves
  cases hx : K h with
  | none => rfl
  | some x =>
    have hne : x ≠ c := by
      rintro rfl
      obtain ⟨l, hl, -⟩ := hK.node h x hx hmove
      rw [hN] at hl
      cases hl
    simp only [Option.map_some, Set.mem_insert_iff, hne, false_or]

theorem movedLeaves_insert_some [DecidableEq H] (hK : LeavesAgree (Moving t) N K)
    (hmove : Moving t c) {l : Leaf H} (hN : N c = some l) :
    movedLeaves t (insert c M) K = (movedLeaves t M K).move l.hash (Node.raise t c) := by
  classical
  funext h
  unfold movedLeaves LeafMap.move
  beta_reduce
  cases hx : K h with
  | none => simp
  | some x =>
    by_cases hh : h = l.hash
    · obtain rfl := hK.leaf c l hmove hN x (by rw [← hh, hx])
      rw [if_pos hh]
      simp
    · have hne : x ≠ c := by
        rintro rfl
        obtain ⟨l', hl', hh'⟩ := hK.node h x hx hmove
        rw [hN] at hl'
        cases hl'
        exact hh hh'.symm
      rw [if_neg hh]
      simp only [Option.map_some, Set.mem_insert_iff, hne, false_or]

end

theorem movedNodes_empty : movedNodes t ∅ N = N := by
  classical
  funext z
  unfold movedNodes
  rw [if_neg fun h => h.2.2, if_neg (Set.notMem_empty z), Option.none_or]

theorem movedLeaves_empty : movedLeaves t ∅ K = K := by
  classical
  funext h
  unfold movedLeaves
  cases K h with
  | none => rfl
  | some x => rw [Option.map_some, if_neg (Set.notMem_empty x)]

/-- Strictly below the parent of the deleted node. -/
def Under (t x : Node) : Prop := t.parent.Above x ∧ x ≠ t.parent

theorem Under.cases {x c : Node} (hx : Under t x) (hc : c.parent = x) :
    Moving t c ∨ t.Above c ∧ c ≠ t := by
  have hxc : x.Above c := hc ▸ Node.parent_above c
  have hlow : ∀ z : Node, z.Above x → c ≠ z := by
    rintro z hz rfl
    have hle := hz.row_le
    rw [← hc, Node.parent_row] at hle
    omega
  rcases Node.Above.of_parent hx.1 (Ne.symm hx.2) with h | h
  · exact Or.inr ⟨h.trans hxc, hlow t h⟩
  · exact Or.inl ⟨h.trans hxc, hlow _ h⟩

theorem Moving.not_above {w : Node} (h : Moving t w) : ¬ t.Above w := by
  intro ht
  rcases h.1.total ht with h' | h'
  · exact Node.sibling_ne t (h'.eq_of_row_eq rfl)
  · exact Node.sibling_ne t (h'.eq_of_row_eq rfl).symm

theorem Moving.under_parent {w : Node} (h : Moving t w) : Under t w.parent := by
  have hs := h.1.parent_of_ne (Ne.symm h.2)
  refine ⟨Node.parent_above_of_sibling hs, fun he => ?_⟩
  have hle := hs.row_le
  rw [he, Node.parent_row, Node.sibling_row] at hle
  omega

section
variable [DecidableEq H] {T n : Nat} (hT : T ≤ 63) (ht : Fits T t) (hrow : t.row < T)
  (hK : LeavesAgree (Moving t) N K) (hcut : ∀ z, t.Above z → z ≠ t → N z = none)
include hT ht hrow hK hcut

theorem moveUpChild_sees {m : MapPollard H} (hM : ∀ w ∈ M, Moving t w)
    (hm : m.Sees T n (movedNodes t M N) (movedLeaves t M K)) {child : Nat → Nat → Nat}
    {position : Nat} {c : Node} (hc : child (sibling position) T = nodePos T c)
    (hcase : Moving t c ∨ t.Above c ∧ c ≠ t) (hlow : ∀ w ∈ M, c.row ≤ w.row) :
    ∃ m', m.moveUpChild position (nodePos T t) child = (m', .ok [nodePos T c]) ∧
      m'.Sees T n (movedNodes t (M ∪ {w | Moving t w ∧ w = c}) N)
        (movedLeaves t (M ∪ {w | Moving t w ∧ w = c}) K) := by
  classical
  have hfit : Fits T c := hcase.elim (fun h => (ht.sibling hrow).of_above h.1)
    fun h => ht.of_above h.1
  unfold moveUpChild
  rw [hm.totalRows, hc]
  dsimp only
  rcases hcase with hmove | hbelow
  · have hset : M ∪ {w | Moving t w ∧ w = c} = insert c M := by
      ext w
      constructor
      · rintro (hw | ⟨-, rfl⟩)
        · exact Or.inr hw
        · exact Or.inl rfl
      · rintro (rfl | hw)
        · exact Or.inr ⟨hmove, rfl⟩
        · exact Or.inl hw
    rw [hset, calcNextPosition_nodePos hT ht hrow hmove.1, hm.nodes c hfit,
      movedNodes_of_low hlow]
    dsimp only
    by_cases hcM : c ∈ M
    · rw [if_pos hcM, Set.insert_eq_of_mem hcM]
      exact ⟨m, rfl, hm⟩
    · rw [if_neg hcM]
      cases hN : N c with
      | none =>
        rw [movedNodes_insert_none hN, movedLeaves_insert_none hK hmove hN]
        exact ⟨m, rfl, hm⟩
      | some l =>
        have hraise : Fits T (Node.raise t c) :=
          (ht.parent hrow).of_above (Node.parent_above_raise hmove.1.row_le)
        rw [movedNodes_insert_some hmove hlow hN, movedLeaves_insert_some hK hmove hN]
        exact ⟨_, rfl, ((hm.dropNode hfit).setNode hraise l).moveCached l.hash _⟩
  · have hset : M ∪ {w | Moving t w ∧ w = c} = M := by
      ext w
      refine or_iff_left ?_
      rintro ⟨hw, rfl⟩
      exact hw.not_above hbelow.1
    have hcM : c ∉ M := fun h => (hM c h).not_above hbelow.1
    obtain ⟨p, hp⟩ := calcNextPosition_ok hT hfit ht hbelow.1.row_le
    rw [hset, hp, hm.nodes c hfit, movedNodes_self hlow hcM, hcut c hbelow.1 hbelow.2]
    exact ⟨m, rfl, hm⟩

/-- The nieces that are moved are the children of the node itself. -/
theorem moveUpNieces_sees {m : MapPollard H} {y : Node} (hy : Under t y)
    (hM : ∀ w ∈ M, Moving t w ∧ y.row ≤ w.row + 1)
    (hm : m.Sees T n (movedNodes t M N) (movedLeaves t M K)) :
    ∃ m' next, m.moveUpNieces (nodePos T y) (nodePos T t) = (m', .ok next) ∧
      m'.Sees T n (movedNodes t (M ∪ {w | Moving t w ∧ w.parent = y}) N)
        (movedLeaves t (M ∪ {w | Moving t w ∧ w.parent = y}) K) ∧
      ∀ q, q ∈ next ↔ ∃ c : Node, c.parent = y ∧ q = nodePos T c := by
  have hfit : Fits T y := (ht.parent hrow).of_above hy.1
  unfold moveUpNieces
  rw [hm.totalRows, detectRow_nodePos hT hfit]
  by_cases h0 : y.row = 0
  · have hnone : ∀ c : Node, c.parent ≠ y := fun c hc => by
      have := congrArg Node.row hc
      rw [Node.parent_row] at this
      omega
    have hset : M ∪ {w | Moving t w ∧ w.parent = y} = M := by
      ext w
      exact or_iff_left fun h => hnone w h.2
    rw [if_pos h0, hset]
    exact ⟨m, [], rfl, hm, fun q => iff_of_false (List.not_mem_nil)
      fun ⟨c, hc, _⟩ => hnone c hc⟩
  · have hpos : 0 < y.row := Nat.pos_of_ne_zero h0
    have hl := Node.left_parent hpos
    have hr := Node.right_parent hpos
    have hlr : y.left.row + 1 = y.row := congrArg Node.row hl
    have hrr : y.right.row + 1 = y.row := congrArg Node.row hr
    have hsib : sibling (sibling (nodePos T y)) = nodePos T y := by
      unfold sibling
      rw [Nat.xor_assoc, Nat.xor_self, Nat.xor_zero]
    have hleft : leftChild (sibling (sibling (nodePos T y))) T = nodePos T y.left := by
      rw [hsib, leftChild_nodePos hT hfit hpos]
    have hright : rightChild (sibling (sibling (nodePos T y))) T = nodePos T y.right := by
      rw [hsib, rightChild_nodePos hT hfit hpos]
    obtain ⟨m1, h1, hs1⟩ := moveUpChild_sees hT ht hrow hK hcut (fun w hw => (hM w hw).1) hm
      hleft (hy.cases hl) fun w hw => by
        have := (hM w hw).2
        omega
    obtain ⟨m2, h2, hs2⟩ := moveUpChild_sees hT ht hrow hK hcut
      (fun w hw => hw.elim (fun hw => (hM w hw).1) And.left) hs1 hright (hy.cases hr)
      fun w hw => by
        rcases hw with hw | ⟨-, rfl⟩
        · have := (hM w hw).2
          omega
        · omega
    have hcases : ∀ c : Node, c.parent = y ↔ c = y.left ∨ c = y.right := by
      intro c
      constructor
      · intro hc
        have := Node.eq_or_eq_sibling (hl.trans hc.symm)
        rwa [Node.left_sibling] at this
      · rintro (rfl | rfl)
        · exact hl
        · exact hr
    have hset : M ∪ {w | Moving t w ∧ w = y.left} ∪ {w | Moving t w ∧ w = y.right} =
        M ∪ {w | Moving t w ∧ w.parent = y} := by
      ext w
      simp only [Set.mem_union, Set.mem_ofPred_eq, hcases, and_or_left, or_assoc]
    rw [hset] at hs2
    refine ⟨m2, [nodePos T y.left] ++ [nodePos T y.right], ?_, hs2, fun q => ?_⟩
    · rw [if_neg h0, h1]
      dsimp only [andThen]
      rw [h2]
    · simp only [List.mem_append, List.mem_singleton, hcases, or_and_right, exists_or,
        exists_eq_left]

theorem moveUpRow_sees {r : Nat} (xs : List Node) :
    ∀ (next : List Nat) {M : Set Node} {m : MapPollard H}, (∀ x ∈ xs, x.row = r ∧ Under t x) →
      (∀ w ∈ M, Moving t w ∧ r ≤ w.row + 1) →
      m.Sees T n (movedNodes t M N) (movedLeaves t M K) →
      ∃ m' next', moveUpRow (nodePos T t) (xs.map (nodePos T)) next m = (m', .ok next') ∧
        m'.Sees T n (movedNodes t (M ∪ {w | Moving t w ∧ w.parent ∈ xs}) N)
          (movedLeaves t (M ∪ {w | Moving t w ∧ w.parent ∈ xs}) K) ∧
        ∀ q, q ∈ next' ↔ q ∈ next ∨ ∃ c : Node, c.parent ∈ xs ∧ q = nodePos T c := by
  induction xs with
  | nil =>
    intro next M m _ _ hm
    have hset : M ∪ {w | Moving t w ∧ w.parent ∈ ([] : List Node)} = M := by
      ext w
      exact or_iff_left fun h => List.not_mem_nil h.2
    rw [hset]
    exact ⟨m, next, rfl, hm, fun q => by simp⟩
  | cons x xs ih =>
    intro next M m hxs hM hm
    obtain ⟨⟨hxr, hx⟩, hxs⟩ := List.forall_mem_cons.mp hxs
    obtain ⟨m1, children, h1, hs1, hchildren⟩ := moveUpNieces_sees hT ht hrow hK hcut hx
      (by rwa [hxr]) hm
    obtain ⟨m2, next', h2, hs2, hnext'⟩ := ih (mergeSortedSlicesFunc next children uint64Cmp) hxs
      (fun w hw => by
        rcases hw with hw | ⟨hw, hwp⟩
        · exact hM w hw
        · refine ⟨hw, ?_⟩
          have := congrArg Node.row hwp
          rw [Node.parent_row] at this
          omega) hs1
    have hset : M ∪ {w | Moving t w ∧ w.parent = x} ∪ {w | Moving t w ∧ w.parent ∈ xs} =
        M ∪ {w | Moving t w ∧ w.parent ∈ x :: xs} := by
      ext w
      simp only [Set.mem_union, Set.mem_ofPred_eq, List.mem_cons, and_or_left, or_assoc]
    rw [hset] at hs2
    refine ⟨m2, next', ?_, hs2, fun q => ?_⟩
    · rw [List.map_cons, moveUpRow, h1]
      exact h2
    · rw [hnext', mergeSortedSlicesFunc, mergeSlicesLoop_mem (Nat.le_refl _), hchildren, or_assoc]
      simp only [List.mem_cons, or_and_right, exists_or]

theorem moveUpRows_sees (h : Nat) :
    ∀ (toMoveUp : List Nat) {m : MapPollard H}, h ≤ t.row + 1 →
      (∀ q, q ∈ toMoveUp ↔ ∃ x : Node, x.row + 1 = h ∧ Under t x ∧ nodePos T x = q) →
      m.Sees T n (movedNodes t {w | Moving t w ∧ h ≤ w.row + 1} N)
        (movedLeaves t {w | Moving t w ∧ h ≤ w.row + 1} K) →
      ∃ m', moveUpRows (nodePos T t) h toMoveUp m = (m', .ok ()) ∧
        m'.Sees T n (movedNodes t {w | Moving t w} N) (movedLeaves t {w | Moving t w} K) := by
  induction h with
  | zero =>
    intro toMoveUp m _ _ hm
    refine ⟨m, rfl, ?_⟩
    simpa only [Nat.zero_le, and_true] using hm
  | succ h ih =>
    intro toMoveUp m hle hmove hm
    have hfit : ∀ {x : Node}, Under t x → Fits T x := fun hx => (ht.parent hrow).of_above hx.1
    obtain ⟨xs, hxs, rfl⟩ := exists_eq_map (f := nodePos T)
      (S := {x : Node | x.row + 1 = h + 1 ∧ Under t x}) fun q hq => by
        obtain ⟨x, hx, hu, rfl⟩ := (hmove q).mp hq
        exact ⟨x, ⟨hx, hu⟩, rfl⟩
    have hmem : ∀ x : Node, x ∈ xs ↔ x.row = h ∧ Under t x := by
      intro x
      constructor
      · intro hx
        exact ⟨Nat.succ.inj (hxs x hx).1, (hxs x hx).2⟩
      · rintro ⟨hx, hu⟩
        obtain ⟨y, hy, he⟩ := List.mem_map.mp ((hmove _).mpr ⟨x, by rw [hx], hu, rfl⟩)
        rwa [(hfit (hxs y hy).2).pos_inj (hfit hu) he] at hy
    obtain ⟨m1, next, h1, hs1, hnext⟩ := moveUpRow_sees hT ht hrow hK hcut xs []
      (fun x hx => (hmem x).mp hx) (fun w hw => ⟨hw.1, by have := hw.2; omega⟩) hm
    have hset : {w | Moving t w ∧ h + 1 ≤ w.row + 1} ∪ {w | Moving t w ∧ w.parent ∈ xs} =
        {w | Moving t w ∧ h ≤ w.row + 1} := by
      ext w
      simp only [Set.mem_union, Set.mem_ofPred_eq, hmem, Node.parent_row]
      constructor
      · rintro (⟨hw, hle⟩ | ⟨hw, hr, -⟩)
        · exact ⟨hw, by omega⟩
        · exact ⟨hw, by omega⟩
      · rintro ⟨hw, hle⟩
        rcases Nat.lt_or_ge w.row h with hlt | hge
        · exact Or.inr ⟨hw, by omega, hw.under_parent⟩
        · exact Or.inl ⟨hw, by omega⟩
    rw [hset] at hs1
    obtain ⟨m2, h2, hs2⟩ := ih next (by omega) (fun q => by
      rw [hnext]
      simp only [List.not_mem_nil, false_or, hmem, Node.parent_row]
      constructor
      · rintro ⟨c, ⟨hr, hu⟩, rfl⟩
        refine ⟨c, hr, ⟨hu.1.trans (Node.parent_above c), ?_⟩, rfl⟩
        rintro rfl
        have hle := hu.1.row_le
        rw [Node.parent_row] at hle
        omega
      · rintro ⟨c, hr, hu, rfl⟩
        refine ⟨c, ⟨hr, hu.1.parent_of_ne (Ne.symm hu.2), fun he => ?_⟩, rfl⟩
        have := congrArg Node.row he
        rw [Node.parent_row, Node.parent_row] at this
        omega) hs1
    refine ⟨m2, ?_, hs2⟩
    rw [moveUpRows, h1]
    exact h2

/-- **Everything strictly below the sibling moves up.** -/
theorem Sees.moveUpDescendants {m : MapPollard H} (hm : m.Sees T n N K) :
    ∃ m', m.moveUpDescendants (nodePos T t.sibling) (nodePos T t) = (m', .ok ()) ∧
      m'.Sees T n (movedNodes t {w | Moving t w} N) (movedLeaves t {w | Moving t w} K) := by
  have hs := ht.sibling hrow
  -- On the row of the sibling nothing has been moved yet.
  have hstart : {w | Moving t w ∧ t.row + 1 ≤ w.row + 1} = (∅ : Set Node) := by
    ext w
    refine iff_of_false (fun hw => hw.1.2 (hw.1.1.eq_of_row_eq ?_).symm) (Set.notMem_empty w)
    have hle := hw.1.1.row_le
    have := hw.2
    rw [Node.sibling_row] at hle ⊢
    omega
  unfold MapPollard.moveUpDescendants
  dsimp only
  rw [hm.totalRows, detectRow_nodePos hT hs, Node.sibling_row]
  by_cases h0 : t.row = 0
  · have hnone : {w | Moving t w} = (∅ : Set Node) := by
      rw [← hstart]
      ext w
      exact ⟨fun hw => ⟨hw, by omega⟩, fun hw => hw.1⟩
    rw [if_pos h0, hnone, movedNodes_empty, movedLeaves_empty]
    exact ⟨m, rfl, hm⟩
  · rw [if_neg h0]
    refine moveUpRows_sees hT ht hrow hK hcut (t.row + 1) _ (Nat.le_refl _) (fun q => ?_) ?_
    · rw [(sortPositions_perm _).mem_iff, sibling_nodePos hs, Node.sibling_sibling, List.mem_cons,
        List.mem_singleton]
      constructor
      · have hne : ∀ x : Node, x.row = t.row → x ≠ t.parent := fun x hx he => by
          have := congrArg Node.row he
          rw [Node.parent_row] at this
          omega
        rintro (rfl | rfl)
        · exact ⟨t.sibling, rfl, ⟨Node.sibling_parent t ▸ Node.parent_above _, hne _ rfl⟩, rfl⟩
        · exact ⟨t, rfl, ⟨Node.parent_above t, hne _ rfl⟩, rfl⟩
      · rintro ⟨x, hr, hu, rfl⟩
        have hr : x.row = t.row := Nat.succ.inj hr
        rcases Node.Above.of_parent hu.1 (Ne.symm hu.2) with h | h
        · exact Or.inr (by rw [h.eq_of_row_eq hr.symm])
        · exact Or.inl (by rw [h.eq_of_row_eq hr.symm])
    · rwa [hstart, movedNodes_empty, movedLeaves_empty]

end

end MapPollard

end Utreexo
