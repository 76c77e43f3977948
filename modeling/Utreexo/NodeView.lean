import Utreexo.MapRoots
import Utreexo.MoveBack

/-! # A MapPollard seen as a map from nodes

The MapPollard keys its nodes by positions, which depend on the number of its rows and which
the source computes with bit operations.  `Sees` relates it to a partial function on the nodes
of the forest and to one from the cached leaves to nodes.  Every call of `Modify` has one lemma
here that says what it does to these two functions.
-/
namespace Utreexo
open Merkle

/-- What is kept at the nodes. -/
abbrev NodeMap (H : Type) := Node → Option (Leaf H)

/-- Where the cached leaves are. -/
abbrev LeafMap (H : Type) := H → Option Node

/-- The leaf is at `x` now, if it is cached. -/
def LeafMap.move {H : Type} [DecidableEq H] (K : LeafMap H) (hash : H) (x : Node) : LeafMap H :=
  fun h => if h = hash then (K h).map fun _ => x else K h

namespace MapPollard
variable {H : Type} [DecidableEq H]

/-- The MapPollard with `T` rows and `n` leaves holds these nodes and these cached leaves. -/
structure Sees (m : MapPollard H) (T n : Nat) (N : NodeMap H) (K : LeafMap H) : Prop where
  totalRows : m.totalRows = T
  numLeaves : m.numLeaves = n
  nodes : ∀ x, Fits T x → m.nodes.lookup (nodePos T x) = N x
  keys : ∀ p ∈ m.nodes, ∃ x, Fits T x ∧ nodePos T x = p
  fits : ∀ x, N x ≠ none → Fits T x
  cached : ∀ h, m.cachedLeaves.lookup h = (K h).map (nodePos T)

namespace Sees
variable {m : MapPollard H} {T n : Nat} {N : NodeMap H} {K : LeafMap H} {x : Node}
  (h : m.Sees T n N K)
include h

theorem mem_nodes (hx : Fits T x) : nodePos T x ∈ m.nodes ↔ N x ≠ none := by
  rw [← h.nodes x hx, Finmap.mem_iff, Option.ne_none_iff_exists']

theorem mem_cached (hash : H) : hash ∈ m.cachedLeaves ↔ K hash ≠ none := by
  rw [Finmap.mem_iff, h.cached, ← Option.ne_none_iff_exists', Ne, Option.map_eq_none_iff]

theorem node [HashOps H] (hx : Fits T x) :
    m.node (nodePos T x) = (N x).getD ⟨empty, false⟩ := by
  rw [MapPollard.node, h.nodes x hx]

theorem setNode (hx : Fits T x) (l : Leaf H) :
    (m.setNode (nodePos T x) l).Sees T n (Function.update N x (some l)) K where
  totalRows := h.totalRows
  numLeaves := h.numLeaves
  nodes y hy := by
    by_cases he : y = x
    · subst he
      rw [Function.update_self]
      exact Finmap.lookup_insert _
    · rw [Function.update_of_ne he, ← h.nodes y hy]
      exact Finmap.lookup_insert_of_ne _ fun hp => he (hy.pos_inj hx hp)
  keys p hp := by
    rcases Finmap.mem_insert.mp hp with rfl | hp
    · exact ⟨x, hx, rfl⟩
    · exact h.keys p hp
  fits y hy := by
    by_cases he : y = x
    · exact he ▸ hx
    · rw [Function.update_of_ne he] at hy
      exact h.fits y hy
  cached := h.cached

theorem dropNode (hx : Fits T x) :
    (m.dropNode (nodePos T x)).Sees T n (Function.update N x none) K where
  totalRows := h.totalRows
  numLeaves := h.numLeaves
  nodes y hy := by
    by_cases he : y = x
    · subst he
      rw [Function.update_self]
      exact Finmap.lookup_erase _ _
    · rw [Function.update_of_ne he, ← h.nodes y hy]
      exact Finmap.lookup_erase_ne fun hp => he (hy.pos_inj hx hp)
  keys p hp := h.keys p (Finmap.mem_erase.mp hp).2
  fits y hy := by
    by_cases he : y = x
    · exact he ▸ hx
    · rw [Function.update_of_ne he] at hy
      exact h.fits y hy
  cached := h.cached

theorem setCached (hash : H) (x : Node) :
    (m.setCached hash (nodePos T x)).Sees T n N (Function.update K hash (some x)) where
  totalRows := h.totalRows
  numLeaves := h.numLeaves
  nodes := h.nodes
  keys := h.keys
  fits := h.fits
  cached b := by
    by_cases he : b = hash
    · subst he
      rw [Function.update_self]
      exact Finmap.lookup_insert _
    · rw [Function.update_of_ne he, ← h.cached]
      exact Finmap.lookup_insert_of_ne _ he

theorem moveCached (hash : H) (x : Node) :
    (m.moveCached hash (nodePos T x)).Sees T n N (K.move hash x) := by
  unfold MapPollard.moveCached
  split
  · next hin =>
    convert h.setCached hash x using 1
    funext b
    obtain ⟨y, hy⟩ := Option.ne_none_iff_exists'.mp ((h.mem_cached hash).mp hin)
    by_cases he : b = hash
    · subst he
      rw [LeafMap.move, if_pos rfl, Function.update_self, hy]
      rfl
    · rw [LeafMap.move, if_neg he, Function.update_of_ne he]
  · next hout =>
    convert h using 1
    funext b
    have hnone : K hash = none := by
      by_contra hne
      exact hout ((h.mem_cached hash).mpr hne)
    rw [LeafMap.move]
    split
    · next he => rw [he, hnone]; rfl
    · rfl

end Sees

/-! ### Forgetting what is below a node -/

section
variable {T n : Nat} (hT : T ≤ 63) {m : MapPollard H} {N : NodeMap H} {K : LeafMap H}
  {x y t : Node}

omit [DecidableEq H] in
/-- Nothing is left strictly below the node. -/
def cutBelow (x : Node) (N : NodeMap H) : NodeMap H :=
  fun y => if x.Above y ∧ y ≠ x then none else N y

omit [DecidableEq H] in
theorem cutBelow_of_row_zero (h0 : x.row = 0) : cutBelow x N = N := by
  funext y
  refine if_neg fun h => h.2 (h.1.eq_of_row_eq ?_).symm
  have := h.1.row_le
  omega

omit [DecidableEq H] in
/-- The children go, and then what is below them. -/
theorem cutBelow_children (h0 : 0 < x.row) :
    cutBelow x.right (cutBelow x.left (Function.update (Function.update N x.left none)
      x.right none)) = cutBelow x N := by
  have hl := Node.left_parent h0
  have hr := Node.right_parent h0
  have hsib := Node.left_sibling x
  have hbelow : ∀ c : Node, c.parent = x → x.Above c ∧ c ≠ x := fun c hc =>
    ⟨hc ▸ Node.parent_above c, fun he => by
      have := congrArg Node.row hc
      rw [Node.parent_row, he] at this
      omega⟩
  funext y
  unfold cutBelow
  by_cases hy : x.Above y ∧ y ≠ x
  · rw [if_pos hy]
    by_cases hyr : y = x.right
    · rw [if_neg (fun h => h.2 hyr), hyr]
      split
      · rfl
      · exact Function.update_self ..
    by_cases hyl : y = x.left
    · split
      · rfl
      · rw [if_neg (fun h => h.2 hyl), Function.update_of_ne hyr, hyl]
        exact Function.update_self ..
    · have hcase : x.left.Above y ∨ x.left.sibling.Above y :=
        Node.Above.of_parent (by rw [hl]; exact hy.1) (by rw [hl]; exact Ne.symm hy.2)
      rw [hsib] at hcase
      rcases hcase with hc | hc
      · split
        · rfl
        · rw [if_pos ⟨hc, hyl⟩]
      · rw [if_pos ⟨hc, hyr⟩]
  · have hnot : ∀ c : Node, c.parent = x → ¬ c.Above y := fun c hc h => by
      refine hy ⟨(hbelow c hc).1.trans h, fun he => ?_⟩
      have hle := h.row_le
      have := congrArg Node.row hc
      rw [Node.parent_row] at this
      rw [he] at hle
      omega
    rw [if_neg hy, if_neg (fun h => hnot _ hr h.1), if_neg (fun h => hnot _ hl h.1),
      Function.update_of_ne, Function.update_of_ne]
    · rintro rfl
      exact hnot _ hl (Node.Above.refl _)
    · rintro rfl
      exact hnot _ hr (Node.Above.refl _)

include hT

theorem forgetBelowLoop_sees (fuel : Nat) :
    ∀ {x : Node} {m : MapPollard H} {N : NodeMap H}, m.Sees T n N K → Fits T x → x.row < fuel →
      ∃ m', forgetBelowLoop fuel (nodePos T x) m = .ok m' ∧ m'.Sees T n (cutBelow x N) K := by
  induction fuel with
  | zero => exact fun _ _ h => absurd h (Nat.not_lt_zero _)
  | succ fuel ih =>
    intro x m N h hx hfuel
    unfold forgetBelowLoop
    rw [h.totalRows, detectRow_nodePos hT hx]
    by_cases h0 : x.row = 0
    · rw [if_pos h0, cutBelow_of_row_zero h0]
      exact ⟨m, rfl, h⟩
    · have hpos : 0 < x.row := Nat.pos_of_ne_zero h0
      have hfl : Fits T x.left := Fits.child (by rwa [Node.left_parent hpos])
      have hfr : Fits T x.right := Fits.child (by rwa [Node.right_parent hpos])
      obtain ⟨m1, h1, hs1⟩ := ih ((h.dropNode hfl).dropNode hfr) hfl
        (show x.row - 1 < fuel by omega)
      obtain ⟨m2, h2, hs2⟩ := ih hs1 hfr (show x.row - 1 < fuel by omega)
      rw [cutBelow_children hpos] at hs2
      refine ⟨m2, ?_, hs2⟩
      rw [if_neg h0]
      dsimp only
      rw [leftChild_nodePos hT hx hpos, sibling_nodePos hfl, Node.left_sibling, h1, Exec.ok_bind]
      exact h2

theorem Sees.forgetBelow (h : m.Sees T n N K) (hx : Fits T x) :
    ∃ m', m.forgetBelow (nodePos T x) = .ok m' ∧ m'.Sees T n (cutBelow x N) K :=
  forgetBelowLoop_sees hT 66 h hx (by have := hx.1; omega)

end

/-! ### Pruning -/

section
variable {T n : Nat} (hT : T ≤ 63) {m : MapPollard H} {N : NodeMap H} {K : LeafMap H} {y : Node}

/-- The node is kept and marked. -/
def Marked (N : NodeMap H) (y : Node) : Prop := ∃ l, N y = some l ∧ l.remember = true

/-- A child of the node is kept. -/
def HasChild (N : NodeMap H) (y : Node) : Prop := ∃ c : Node, c.parent = y ∧ N c ≠ none

open Classical in
/-- Of a pair that is not marked, each goes that has no niece. -/
noncomputable def pruneAt (y : Node) (N : NodeMap H) : NodeMap H := fun z =>
  if ¬ Marked N y ∧ ¬ Marked N y.sibling ∧
    ((z = y ∧ ¬ HasChild N y.sibling) ∨ (z = y.sibling ∧ ¬ HasChild N y)) then none else N z

omit [DecidableEq H] in
theorem pruneAt_of_ne {z : Node} (h1 : z ≠ y) (h2 : z ≠ y.sibling) : pruneAt y N z = N z :=
  if_neg fun h => h.2.2.elim (fun h => h1 h.1) fun h => h2 h.1

omit [DecidableEq H] in
theorem hasChild_iff (h0 : 0 < y.row) : HasChild N y ↔ N y.left ≠ none ∨ N y.right ≠ none := by
  constructor
  · rintro ⟨c, hc, hN⟩
    rcases Node.eq_or_eq_sibling ((Node.left_parent h0).trans hc.symm) with rfl | rfl
    · exact Or.inl hN
    · rw [Node.left_sibling] at hN
      exact Or.inr hN
  · rintro (hN | hN)
    · exact ⟨_, Node.left_parent h0, hN⟩
    · exact ⟨_, Node.right_parent h0, hN⟩

omit [DecidableEq H] in
theorem not_hasChild_of_row_zero (h0 : y.row = 0) : ¬ HasChild N y := by
  rintro ⟨c, rfl, -⟩
  exact Nat.succ_ne_zero _ h0

omit [DecidableEq H] in
/-- Whether a child is kept depends on the row below only. -/
theorem hasChild_congr {N' : NodeMap H} (h : ∀ c : Node, c.row + 1 = y.row → N c = N' c) :
    HasChild N y ↔ HasChild N' y := by
  refine exists_congr fun c => and_congr_right fun hc => ?_
  rw [h c (congrArg Node.row hc)]

include hT

theorem Sees.niecesPresent (h : m.Sees T n N K) (hy : Fits T y) (hrow : y.row < T) :
    m.niecesPresent (nodePos T y) = true ↔ HasChild N y.sibling := by
  have hs := hy.sibling hrow
  unfold MapPollard.niecesPresent
  rw [h.totalRows, detectRow_nodePos hT hy]
  by_cases h0 : y.row = 0
  · rw [if_pos h0]
    exact iff_of_false Bool.false_ne_true (not_hasChild_of_row_zero h0)
  · have hpos : 0 < y.sibling.row := Nat.pos_of_ne_zero h0
    have hfl : Fits T y.sibling.left := Fits.child (by rwa [Node.left_parent hpos])
    have hfr : Fits T y.sibling.right := Fits.child (by rwa [Node.right_parent hpos])
    rw [if_neg h0, sibling_nodePos hy, leftChild_nodePos hT hs hpos, rightChild_nodePos hT hs hpos,
      Bool.or_eq_true, decide_eq_true_eq, decide_eq_true_eq, h.mem_nodes hfl, h.mem_nodes hfr,
      hasChild_iff hpos]

open Classical in
theorem Sees.dropUnneeded (h : m.Sees T n N K) (hy : Fits T y) (hrow : y.row < T) :
    (m.dropUnneeded (nodePos T y)).Sees T n
      (fun z => if z = y ∧ ¬ HasChild N y.sibling then none else N z) K := by
  have hp := h.niecesPresent hT hy hrow
  unfold MapPollard.dropUnneeded
  by_cases hc : HasChild N y.sibling
  · rw [if_pos (hp.mpr hc)]
    convert h using 1
    funext z
    exact if_neg fun hz => hz.2 hc
  · rw [if_neg fun h => hc (hp.mp h)]
    convert h.dropNode hy using 1
    funext z
    rw [Function.update_apply]
    exact if_congr (and_iff_left hc) rfl rfl

omit hT in
theorem Sees.marked [HashOps H] (h : m.Sees T n N K) (hy : Fits T y) :
    (m.node (nodePos T y)).remember = true ↔ Marked N y := by
  rw [h.node hy, Marked]
  cases N y <;> simp

open Classical in
theorem Sees.prunePosition [HashOps H] (h : m.Sees T n N K) (hy : Fits T y) (hrow : y.row < T) :
    (m.prunePosition (nodePos T y)).Sees T n (pruneAt y N) K := by
  have hs := hy.sibling hrow
  have hmarks : (!(m.node (nodePos T y)).remember &&
      !(m.node (nodePos T y.sibling)).remember) = true ↔ ¬ Marked N y ∧ ¬ Marked N y.sibling := by
    rw [Bool.and_eq_true, Bool.not_eq_true', Bool.not_eq_true', ← Bool.not_eq_true,
      ← Bool.not_eq_true, h.marked hy, h.marked hs]
  unfold MapPollard.prunePosition
  rw [sibling_nodePos hy]
  by_cases hm : ¬ Marked N y ∧ ¬ Marked N y.sibling
  · rw [if_pos (hmarks.mpr hm)]
    -- The sibling goes first, which is on the same row and so no niece of the other.
    convert (h.dropUnneeded hT hs hrow).dropUnneeded hT hy hrow using 1
    funext z
    rw [pruneAt, ← hasChild_congr (N := N) fun c hc => (if_neg fun hz => by
      have := congrArg Node.row hz.1
      omega).symm, Node.sibling_sibling]
    by_cases hz : z = y ∧ ¬ HasChild N y.sibling
    · rw [if_pos hz, if_pos ⟨hm.1, hm.2, Or.inl hz⟩]
    · rw [if_neg hz]
      exact if_congr ⟨fun hc => hc.2.2.resolve_left hz, fun hc => ⟨hm.1, hm.2, Or.inr hc⟩⟩ rfl rfl
  · rw [if_neg fun h => hm (hmarks.mp h)]
    convert h using 1
    funext z
    exact if_neg fun hz => hm ⟨hz.1, hz.2.1⟩

theorem Sees.pruneNieces [HashOps H] (h : m.Sees T n N K) (hy : Fits T y) (h0 : 0 < y.row) :
    (m.pruneNieces (nodePos T y)).Sees T n (pruneAt y.left N) K := by
  unfold MapPollard.pruneNieces
  rw [h.totalRows, detectRow_nodePos hT hy, if_neg (Nat.pos_iff_ne_zero.mp h0),
    leftChild_nodePos hT hy h0]
  have hrow : y.left.row < T := by
    have := hy.1
    show y.row - 1 < T
    omega
  exact h.prunePosition hT (Fits.child (by rwa [Node.left_parent h0])) hrow

/-- Prunes the pairs of the `j` nodes above, from below. -/
noncomputable def pruneUp : Nat → Node → NodeMap H → NodeMap H
  | 0, _, N => N
  | j + 1, y, N => pruneUp j y.parent (pruneAt y.parent N)

variable [HashOps H] (hn : n ≤ 2 ^ T)
include hn

/-- The walk up from a deleted node ends below its root. -/
theorem forgetUnneededLoop_sees (j : Nat) :
    ∀ {fuel : Nat} {y : Node} {m : MapPollard H} {N : NodeMap H}, m.Sees T n N K → y.InForest n →
      (y.up (j + 1)).IsRoot n → T - y.row < fuel →
      ∃ m', forgetUnneededLoop fuel y.row (nodePos T y) m = .ok m' ∧
        m'.Sees T n (pruneUp j y N) K := by
  induction j with
  | zero =>
    intro fuel y m N h hy hroot hfuel
    obtain ⟨fuel, rfl⟩ : ∃ f, fuel = f + 1 := ⟨fuel - 1, by omega⟩
    rw [Node.up_one] at hroot
    have hnot := Node.not_isRoot_of_parent hroot.inForest
    have hrow : y.row < T := (fits_of_inForest hn hroot.inForest).1
    refine ⟨m, ?_, h⟩
    unfold forgetUnneededLoop
    rw [h.totalRows, h.numLeaves, if_pos (Nat.le_of_lt hrow)]
    dsimp only
    rw [parent_nodePos_inForest hT hn hy hnot,
      if_pos ((isRootPositionTotalRows_nodePos hT hn hroot.inForest).mpr hroot)]
  | succ j ih =>
    intro fuel y m N h hy hroot hfuel
    obtain ⟨fuel, rfl⟩ : ∃ f, fuel = f + 1 := ⟨fuel - 1, by omega⟩
    rw [← Node.parent_up] at hroot
    have hpp : y.parent.parent.InForest n := by
      rw [← Node.up_one]
      exact Node.Above.inForest ⟨j, by rw [← Node.up_add, Nat.add_comm]⟩ hroot.inForest
    have hpar := Node.inForest_of_parent hpp
    have hnot := Node.not_isRoot_of_parent hpar
    have hfit := fits_of_inForest hn hpar
    have hrow : y.row < T := hfit.1
    have hless : T - y.parent.row < fuel := by
      rw [Node.parent_row]
      omega
    obtain ⟨m', h', hs'⟩ :=
      ih (h.prunePosition hT hfit (fits_of_inForest hn hpp).1) hpar hroot hless
    refine ⟨m', ?_, hs'⟩
    unfold forgetUnneededLoop
    rw [h.totalRows, h.numLeaves, if_pos (Nat.le_of_lt hrow)]
    dsimp only
    rw [parent_nodePos_inForest hT hn hy hnot,
      if_neg fun hr => Node.not_isRoot_of_parent hpp
        ((isRootPositionTotalRows_nodePos hT hn hpar).mp hr),
      add8_one (by omega)]
    exact h'

theorem Sees.forgetUnneededDel (h : m.Sees T n N K) {j : Nat} (hroot : (y.up (j + 1)).IsRoot n) :
    ∃ m', m.forgetUnneededDel (nodePos T y) = .ok m' ∧ m'.Sees T n (pruneUp j y N) K := by
  have hy : y.InForest n := Node.inForest_of_up hroot.inForest
  have hnot : ¬ y.IsRoot n := fun hr =>
    absurd (Node.root_up_unique (i := 0) (by rwa [Node.up_zero]) hroot) (by omega)
  unfold MapPollard.forgetUnneededDel
  rw [h.totalRows, h.numLeaves,
    if_neg fun hr => hnot ((isRootPositionTotalRows_nodePos hT hn hy).mp hr),
    detectRow_nodePos hT (fits_of_inForest hn hy)]
  exact forgetUnneededLoop_sees hT hn j h hy hroot (by omega)

end

end MapPollard

end Utreexo
