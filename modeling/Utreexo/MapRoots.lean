import Utreexo.MapModify
import Utreexo.MoveUp
import Utreexo.ProofPositions
import Utreexo.StumpGrow

/-! # The roots stay in the map

`Modify` drops nodes in many places: when it prunes, forgets a deleted subtree, moves a
subtree up or makes room.  What it drops is always below a root of the forest that it leaves
behind.  `Keeps T R` is the frame of a call that keeps the nodes in `R`; from one lemma for
every call follows `Rooted`, with which no addition misses a root.
-/
namespace Utreexo
open Merkle

namespace MapPollard
variable {H : Type}

/-- The call keeps the sizes and the nodes in `R`, in a forest with `T` rows. -/
structure Keeps (T : Nat) (R : Node → Prop) (m m' : MapPollard H) : Prop where
  totalRows : m'.totalRows = m.totalRows
  numLeaves : m'.numLeaves = m.numLeaves
  nodes : ∀ x, R x → nodePos T x ∈ m.nodes → nodePos T x ∈ m'.nodes

namespace Keeps
variable {T : Nat} {R : Node → Prop} {m m' m'' : MapPollard H}

theorem refl (m : MapPollard H) : Keeps T R m m := ⟨rfl, rfl, fun _ _ h => h⟩

theorem trans (h : Keeps T R m m') (h' : Keeps T R m' m'') : Keeps T R m m'' :=
  ⟨h'.totalRows.trans h.totalRows, h'.numLeaves.trans h.numLeaves,
    fun x hx hin => h'.nodes x hx (h.nodes x hx hin)⟩

theorem setNode (m : MapPollard H) (pos : Nat) (node : Leaf H) :
    Keeps T R m (m.setNode pos node) :=
  ⟨rfl, rfl, fun _ _ h => Finmap.mem_insert.mpr (Or.inr h)⟩

variable [DecidableEq H]

theorem setCached (m : MapPollard H) (hash : H) (pos : Nat) :
    Keeps T R m (m.setCached hash pos) :=
  ⟨rfl, rfl, fun _ _ h => h⟩

theorem moveCached (m : MapPollard H) (hash : H) (pos : Nat) :
    Keeps T R m (m.moveCached hash pos) := by
  unfold MapPollard.moveCached
  split
  · exact setCached m hash pos
  · exact refl m

end Keeps

section
variable {T : Nat} {R : Node → Prop} (hT : T ≤ 63) (hR : ∀ x, R x → Fits T x)
  {m : MapPollard H} (hm : m.totalRows = T) {y : Node}

/-! ### Pruning outside the frame -/

include hR

theorem dropNode_keeps (hy : Fits T y) (hout : ¬ R y) :
    Keeps T R m (m.dropNode (nodePos T y)) := by
  refine ⟨rfl, rfl, fun x hx hin => Finmap.mem_erase.mpr ⟨fun heq => ?_, hin⟩⟩
  exact hout ((hR x hx).pos_inj hy heq ▸ hx)

theorem dropUnneeded_keeps (hy : Fits T y) (hout : ¬ R y) :
    Keeps T R m (m.dropUnneeded (nodePos T y)) := by
  unfold dropUnneeded
  split
  · exact Keeps.refl m
  · exact dropNode_keeps hR hy hout

variable [HashOps H]

theorem prunePosition_keeps (hy : Fits T y) (hrow : y.row < T) (hout : ¬ R y)
    (hsib : ¬ R y.sibling) : Keeps T R m (m.prunePosition (nodePos T y)) := by
  unfold prunePosition
  split
  · rw [sibling_nodePos hy]
    exact (dropUnneeded_keeps hR (hy.sibling hrow) hsib).trans (dropUnneeded_keeps hR hy hout)
  · exact Keeps.refl m

include hT hm

theorem pruneNieces_keeps (hy : Fits T y) (hout : ∀ z : Node, z.parent = y → ¬ R z) :
    Keeps T R m (m.pruneNieces (nodePos T y)) := by
  unfold pruneNieces
  rw [hm, detectRow_nodePos hT hy]
  by_cases h0 : y.row = 0
  · rw [if_pos h0]
    exact Keeps.refl m
  · have hpos : 0 < y.row := Nat.pos_of_ne_zero h0
    have hpar := Node.left_parent hpos
    have hfit : Fits T y.left := Fits.child (by rwa [hpar])
    have hrow : y.left.row < T := by
      have := hy.1
      show y.row - 1 < T
      omega
    rw [if_neg h0, leftChild_nodePos hT hy hpos]
    exact prunePosition_keeps hR hfit hrow (hout _ hpar)
      (hout _ (by rw [Node.sibling_parent, hpar]))

/-! ### Moving up outside the frame -/

omit hR hm [HashOps H] in
theorem calcNextPosition_ok {c d : Node} (hc : Fits T c) (hd : Fits T d) (hrow : c.row ≤ d.row) :
    ∃ p, calcNextPosition (nodePos T c) (nodePos T d) T = .ok p := by
  unfold calcNextPosition
  rw [detectRow_nodePos hT hc, detectRow_nodePos hT hd]
  exact ⟨_, if_neg (Nat.not_lt.mpr hrow)⟩

variable [DecidableEq H] {d : Node}

omit [HashOps H] in
theorem moveUpChild_keeps {child : Nat → Nat → Nat} {position : Nat} {c : Node}
    (hc : child (sibling position) T = nodePos T c) (hfit : Fits T c) (hd : Fits T d)
    (hrow : c.row ≤ d.row) (hout : ¬ R c) :
    ∃ m', m.moveUpChild position (nodePos T d) child = (m', .ok [nodePos T c]) ∧
      Keeps T R m m' := by
  obtain ⟨p, hp⟩ := calcNextPosition_ok hT hfit hd hrow
  unfold moveUpChild
  rw [hm, hc]
  dsimp only
  rw [hp]
  dsimp only
  cases m.nodes.lookup (nodePos T c) with
  | none => exact ⟨m, rfl, Keeps.refl m⟩
  | some lVal =>
    exact ⟨_, rfl, ((dropNode_keeps hR hfit hout).trans (Keeps.setNode _ _ _)).trans
      (Keeps.moveCached _ _ _)⟩

omit [HashOps H] in
/-- The nieces that are moved up are the children of the node itself. -/
theorem moveUpNieces_keeps (hy : Fits T y) (hd : Fits T d) (hrow : y.row ≤ d.row)
    (hout : ∀ z : Node, z.parent = y → ¬ R z) :
    ∃ m' next, m.moveUpNieces (nodePos T y) (nodePos T d) = (m', .ok next) ∧ Keeps T R m m' ∧
      ∀ p ∈ next, ∃ z : Node, z.parent = y ∧ p = nodePos T z := by
  unfold moveUpNieces
  rw [hm, detectRow_nodePos hT hy]
  by_cases h0 : y.row = 0
  · rw [if_pos h0]
    exact ⟨m, [], rfl, Keeps.refl m, by simp⟩
  · have hpos : 0 < y.row := Nat.pos_of_ne_zero h0
    have hsib : sibling (sibling (nodePos T y)) = nodePos T y := by
      unfold sibling
      rw [Nat.xor_assoc, Nat.xor_self, Nat.xor_zero]
    have hleft : leftChild (sibling (sibling (nodePos T y))) T = nodePos T y.left := by
      rw [hsib, leftChild_nodePos hT hy hpos]
    have hright : rightChild (sibling (sibling (nodePos T y))) T = nodePos T y.right := by
      rw [hsib, rightChild_nodePos hT hy hpos]
    have hl := Node.left_parent hpos
    have hr := Node.right_parent hpos
    have hlr : y.left.row ≤ d.row := Nat.le_trans (Nat.sub_le _ _) hrow
    have hrr : y.right.row ≤ d.row := Nat.le_trans (Nat.sub_le _ _) hrow
    obtain ⟨m1, h1, hk1⟩ := moveUpChild_keeps hT hR hm hleft
      (Fits.child (by rwa [hl])) hd hlr (hout _ hl)
    obtain ⟨m2, h2, hk2⟩ := moveUpChild_keeps hT hR (hk1.totalRows.trans hm) hright
      (Fits.child (by rwa [hr])) hd hrr (hout _ hr)
    refine ⟨m2, [nodePos T y.left] ++ [nodePos T y.right], ?_, hk1.trans hk2, fun p hp => ?_⟩
    · rw [if_neg h0, h1]
      dsimp only [andThen]
      rw [h2]
    · rcases List.mem_append.mp hp with hp | hp
      · exact ⟨y.left, hl, List.mem_singleton.mp hp⟩
      · exact ⟨y.right, hr, List.mem_singleton.mp hp⟩

omit [HashOps H] hm in
theorem moveUpRow_keeps {r : Nat} {w : Node} (hw : Fits T w) (hd : Fits T d) (hrow : r ≤ d.row)
    (hout : ∀ z, w.Above z → z ≠ w → ¬ R z) :
    ∀ (toMoveUp next : List Nat) {m : MapPollard H}, m.totalRows = T →
      (∀ p ∈ toMoveUp, ∃ x : Node, w.Above x ∧ x.row = r ∧ p = nodePos T x) →
      (∀ p ∈ next, ∃ x : Node, w.Above x ∧ x.row + 1 = r ∧ p = nodePos T x) →
      ∃ m' next', moveUpRow (nodePos T d) toMoveUp next m = (m', .ok next') ∧ Keeps T R m m' ∧
        ∀ p ∈ next', ∃ x : Node, w.Above x ∧ x.row + 1 = r ∧ p = nodePos T x := by
  intro toMoveUp
  induction toMoveUp with
  | nil => exact fun next m _ _ hnext => ⟨m, next, rfl, Keeps.refl m, hnext⟩
  | cons p toMoveUp ih =>
    intro next m hm hmove hnext
    obtain ⟨⟨x, hx, hxr, rfl⟩, hrest⟩ := List.forall_mem_cons.mp hmove
    subst hxr
    have hchild : ∀ z : Node, z.parent = x → w.Above z := fun z hz =>
      hx.trans (hz ▸ Node.parent_above z)
    obtain ⟨m1, children, h1, hk1, hchildren⟩ := moveUpNieces_keeps hT hR hm
      (hw.of_above hx) hd hrow fun z hz => hout z (hchild z hz) fun heq => by
        have hle := hx.row_le
        rw [← heq, ← hz, Node.parent_row] at hle
        omega
    obtain ⟨m2, next', h2, hk2, hnext'⟩ := ih
      (mergeSortedSlicesFunc next children uint64Cmp) (hk1.totalRows.trans hm) hrest
      fun q hq => by
        rcases (mergeSlicesLoop_mem (Nat.le_refl _)).mp hq with hq | hq
        · exact hnext q hq
        · obtain ⟨z, hz, rfl⟩ := hchildren q hq
          exact ⟨z, hchild z hz, by rw [← hz, Node.parent_row], rfl⟩
    refine ⟨m2, next', ?_, hk1.trans hk2, hnext'⟩
    rw [moveUpRow, h1]
    exact h2

omit [HashOps H] hm in
theorem moveUpRows_keeps {w : Node} (hw : Fits T w) (hd : Fits T d)
    (hout : ∀ z, w.Above z → z ≠ w → ¬ R z) :
    ∀ (h r : Nat) (toMoveUp : List Nat) {m : MapPollard H}, m.totalRows = T → r ≤ d.row →
      (∀ p ∈ toMoveUp, ∃ x : Node, w.Above x ∧ x.row = r ∧ p = nodePos T x) →
      ∃ m', moveUpRows (nodePos T d) h toMoveUp m = (m', .ok ()) ∧ Keeps T R m m' := by
  intro h
  induction h with
  | zero => exact fun r toMoveUp m _ _ _ => ⟨m, rfl, Keeps.refl m⟩
  | succ h ih =>
    intro r toMoveUp m hm hrow hmove
    obtain ⟨m1, next, h1, hk1, hnext⟩ := moveUpRow_keeps hT hR hw hd hrow hout toMoveUp [] hm
      hmove (by simp)
    obtain ⟨m2, h2, hk2⟩ := ih (r - 1) next (hk1.totalRows.trans hm)
      (Nat.le_trans (Nat.sub_le _ _) hrow) fun p hp => by
        obtain ⟨x, hx, hr, rfl⟩ := hnext p hp
        exact ⟨x, hx, by omega, rfl⟩
    refine ⟨m2, ?_, hk1.trans hk2⟩
    rw [moveUpRows, h1]
    exact h2

omit [HashOps H] in
/-- Everything that is moved is below the parent of the node. -/
theorem moveUpDescendants_keeps (hy : Fits T y) (hrow : y.row < T)
    (hout : ∀ z, y.parent.Above z → z ≠ y.parent → ¬ R z) :
    ∃ m', m.moveUpDescendants (nodePos T y) (nodePos T y.sibling) = (m', .ok ()) ∧
      Keeps T R m m' := by
  unfold moveUpDescendants
  dsimp only
  rw [hm, detectRow_nodePos hT hy]
  by_cases h0 : y.row = 0
  · rw [if_pos h0]
    exact ⟨m, rfl, Keeps.refl m⟩
  · rw [if_neg h0]
    refine moveUpRows_keeps hT hR (hy.parent hrow) (hy.sibling hrow) hout (y.row + 1) y.row _ hm
      (Nat.le_refl _) fun p hp => ?_
    rw [(sortPositions_perm _).mem_iff, sibling_nodePos hy] at hp
    rcases List.mem_cons.mp hp with rfl | hp
    · exact ⟨y, Node.parent_above y, rfl, rfl⟩
    · exact ⟨y.sibling, Node.sibling_parent y ▸ Node.parent_above y.sibling, rfl,
        List.mem_singleton.mp hp⟩

/-! ### Removing -/

omit [HashOps H] [DecidableEq H] hm in
theorem forgetBelowLoop_keeps :
    ∀ (fuel : Nat) {y : Node} {m : MapPollard H}, m.totalRows = T → Fits T y → y.row < fuel →
      (∀ z, y.Above z → z ≠ y → ¬ R z) →
      ∃ m', forgetBelowLoop fuel (nodePos T y) m = .ok m' ∧ Keeps T R m m' := by
  intro fuel
  induction fuel with
  | zero => exact fun _ _ h => absurd h (Nat.not_lt_zero _)
  | succ fuel ih =>
    intro y m hm hy hfuel hout
    unfold forgetBelowLoop
    rw [hm, detectRow_nodePos hT hy]
    by_cases h0 : y.row = 0
    · rw [if_pos h0]
      exact ⟨m, rfl, Keeps.refl m⟩
    · have hpos : 0 < y.row := Nat.pos_of_ne_zero h0
      have hl := Node.left_parent hpos
      have hr := Node.right_parent hpos
      have hfl : Fits T y.left := Fits.child (by rwa [hl])
      have hfr : Fits T y.right := Fits.child (by rwa [hr])
      have hlow : ∀ c : Node, c.parent = y → ∀ z, c.Above z → ¬ R z := fun c hc z hz =>
        hout z ((hc ▸ Node.parent_above c).trans hz) fun heq => by
          have hle := hz.row_le
          rw [heq, ← hc, Node.parent_row] at hle
          omega
      have hdrop := (dropNode_keeps (m := m) hR hfl (hlow _ hl _ (Node.Above.refl _))).trans
        (dropNode_keeps hR hfr (hlow _ hr _ (Node.Above.refl _)))
      obtain ⟨m1, h1, hk1⟩ := ih (hdrop.totalRows.trans hm) hfl
        (by show y.row - 1 < fuel; omega) fun z hz _ => hlow _ hl z hz
      obtain ⟨m2, h2, hk2⟩ := ih (hk1.totalRows.trans (hdrop.totalRows.trans hm)) hfr
        (by show y.row - 1 < fuel; omega) fun z hz _ => hlow _ hr z hz
      refine ⟨m2, ?_, (hdrop.trans hk1).trans hk2⟩
      rw [if_neg h0]
      dsimp only
      rw [leftChild_nodePos hT hy hpos, sibling_nodePos hfl, Node.left_sibling, h1, Exec.ok_bind]
      exact h2

omit [HashOps H] [DecidableEq H] in
theorem forgetBelow_keeps (hy : Fits T y) (hout : ∀ z, y.Above z → z ≠ y → ¬ R z) :
    ∃ m', m.forgetBelow (nodePos T y) = .ok m' ∧ Keeps T R m m' :=
  forgetBelowLoop_keeps hT hR 66 hm hy (by have := hy.1; omega) hout

omit hR hm [DecidableEq H] in
/-- The hashes are written only where there are nodes. -/
theorem updateHashesLoop_keeps (fuel row pos : Nat) (hash : H) :
    ∀ {m : MapPollard H}, m.totalRows = T → T + 1 - row < fuel →
      ∃ m', updateHashesLoop fuel row pos hash m = .ok m' ∧ Keeps T R m m' := by
  induction fuel generalizing row pos hash with
  | zero => exact fun _ h => absurd h (Nat.not_lt_zero _)
  | succ fuel ih =>
    intro m hm hfuel
    unfold updateHashesLoop
    by_cases hrow : row ≤ T
    · rw [if_pos (hm.symm ▸ hrow)]
      dsimp only
      generalize hset : (if parent pos m.totalRows ∈ m.nodes then m.setNode (parent pos m.totalRows)
        ⟨_, false⟩ else m) = m1
      have hk1 : Keeps T R m m1 := by
        rw [← hset]
        split
        · exact Keeps.setNode m _ _
        · exact Keeps.refl m
      split
      · exact ⟨m1, rfl, hk1⟩
      · obtain ⟨m2, h2, hk2⟩ := ih (add8 row 1) (parent pos m.totalRows) _
          (hk1.totalRows.trans hm) (by rw [add8_one (by omega)]; omega)
        exact ⟨m2, h2, hk1.trans hk2⟩
    · rw [if_neg (hm.symm ▸ hrow)]
      exact ⟨m, rfl, Keeps.refl m⟩

end

section
variable [HashOps H] {T n : Nat} (hT : T ≤ 63) (hn : n ≤ 2 ^ T) {y : Node}
include hT hn

/-- The walk up from a deleted node ends below its root. -/
theorem forgetUnneededLoop_keeps (fuel : Nat) :
    ∀ {y : Node} {m : MapPollard H}, m.totalRows = T → m.numLeaves = n → y.InForest n →
      ¬ y.IsRoot n → T - y.row < fuel →
      ∃ m', forgetUnneededLoop fuel y.row (nodePos T y) m = .ok m' ∧
        Keeps T (Node.IsRoot n) m m' := by
  induction fuel with
  | zero => exact fun _ _ _ _ h => absurd h (Nat.not_lt_zero _)
  | succ fuel ih =>
    intro y m hm hm' hy hroot hfuel
    have hpar := hy.parent hroot
    have hfit := fits_of_inForest hn hpar
    have hrow : y.row < T := hfit.1
    unfold forgetUnneededLoop
    rw [if_pos (hm.symm ▸ Nat.le_of_lt hrow)]
    dsimp only
    rw [hm, hm', parent_nodePos_inForest hT hn hy hroot]
    by_cases hproot : y.parent.IsRoot n
    · rw [if_pos ((isRootPositionTotalRows_nodePos hT hn hpar).mpr hproot)]
      exact ⟨m, rfl, Keeps.refl m⟩
    · have hpp := fits_of_inForest hn (hpar.parent hproot)
      have hk1 : Keeps T (Node.IsRoot n) m (m.prunePosition (nodePos T y.parent)) :=
        prunePosition_keeps (fun x hx => fits_of_inForest hn hx.inForest) hfit hpp.1 hproot
          (Node.not_isRoot_of_parent (by
            rw [Node.sibling_parent]
            exact hpar.parent hproot))
      obtain ⟨m2, h2, hk2⟩ := ih (hk1.totalRows.trans hm) (hk1.numLeaves.trans hm') hpar hproot
        (by rw [Node.parent_row]; omega)
      refine ⟨m2, ?_, hk1.trans hk2⟩
      rw [if_neg fun h => hproot ((isRootPositionTotalRows_nodePos hT hn hpar).mp h),
        add8_one (by omega)]
      exact h2

variable {m : MapPollard H} (hm : m.totalRows = T) (hm' : m.numLeaves = n)
include hm hm'

theorem forgetUnneededDel_keeps (hy : y.InForest n) :
    ∃ m', m.forgetUnneededDel (nodePos T y) = .ok m' ∧ Keeps T (Node.IsRoot n) m m' := by
  unfold forgetUnneededDel
  rw [hm, hm']
  by_cases hroot : y.IsRoot n
  · rw [if_pos ((isRootPositionTotalRows_nodePos hT hn hy).mpr hroot)]
    exact ⟨m, rfl, Keeps.refl m⟩
  · rw [if_neg fun h => hroot ((isRootPositionTotalRows_nodePos hT hn hy).mp h),
      detectRow_nodePos hT (fits_of_inForest hn hy)]
    exact forgetUnneededLoop_keeps hT hn 257 hm hm' hy hroot (by omega)

variable [DecidableEq H]

omit hm' in
/-- What moves up with the sibling is below its parent. -/
theorem moveUpSibling_keeps (hy : y.InForest n) (hroot : ¬ y.IsRoot n) :
    ∃ m' hash, m.moveUpSibling (nodePos T y) = (m', .ok hash) ∧
      Keeps T (Node.IsRoot n) m m' := by
  have hfit := fits_of_inForest hn hy
  have hpar := hy.parent hroot
  have hrow : y.row < T := (fits_of_inForest hn hpar).1
  have hR : ∀ x : Node, x.IsRoot n → Fits T x := fun x hx => fits_of_inForest hn hx.inForest
  have hlow : ∀ z, y.sibling.parent.Above z → z ≠ y.sibling.parent → ¬ z.IsRoot n := by
    intro z hz hne
    rw [Node.sibling_parent] at hz hne
    exact Node.not_isRoot_of_parent ((hz.parent_of_ne (Ne.symm hne)).inForest hpar)
  have hdrop : Keeps T (Node.IsRoot n) m (m.dropNode (nodePos T y.sibling)) :=
    dropNode_keeps hR (hfit.sibling hrow)
      (Node.not_isRoot_of_parent (by rwa [Node.sibling_parent]))
  unfold moveUpSibling
  rw [sibling_nodePos hfit]
  cases m.nodes.lookup (nodePos T y.sibling) with
  | none => exact ⟨m, empty, rfl, Keeps.refl m⟩
  | some node =>
    dsimp only
    have hset := hdrop.trans (Keeps.setNode _ (parent (nodePos T y) m.totalRows) node)
    have hdesc : ∀ m1 : MapPollard H, Keeps T (Node.IsRoot n) m m1 → ∃ m2,
        m1.moveUpDescendants (nodePos T y.sibling) (nodePos T y) = (m2, .ok ()) ∧
          Keeps T (Node.IsRoot n) m m2 := by
      intro m1 hk1
      obtain ⟨m2, h2, hk2⟩ := moveUpDescendants_keeps hT hR (hk1.totalRows.trans hm)
        (hfit.sibling hrow) hrow hlow
      rw [Node.sibling_sibling] at h2
      exact ⟨m2, h2, hk1.trans hk2⟩
    split
    · rw [hset.totalRows.trans hm]
      obtain ⟨p, hp⟩ := calcNextPosition_ok hT (hfit.sibling hrow) hfit (Nat.le_refl _)
      obtain ⟨m2, h2, hk2⟩ := hdesc _ (hset.trans (Keeps.setCached _ node.hash p))
      rw [hp]
      dsimp only
      rw [h2]
      exact ⟨m2, _, rfl, hk2⟩
    · obtain ⟨m2, h2, hk2⟩ := hdesc _ hset
      rw [h2]
      exact ⟨m2, _, rfl, hk2⟩

theorem removeSingle_keeps (hy : y.InForest n) :
    ∃ m', m.removeSingle (nodePos T y) = .ok (m', .ok ()) ∧ Keeps T (Node.IsRoot n) m m' := by
  have hR : ∀ x : Node, x.IsRoot n → Fits T x := fun x hx => fits_of_inForest hn hx.inForest
  have hfit := fits_of_inForest hn hy
  obtain ⟨m1, h1, hk1⟩ := forgetBelow_keeps hT hR hm hfit fun z hz hne =>
    Node.not_isRoot_of_parent ((hz.parent_of_ne (Ne.symm hne)).inForest hy)
  unfold removeSingle
  rw [h1, Exec.ok_bind, hk1.totalRows.trans hm, hk1.numLeaves.trans hm']
  by_cases hroot : y.IsRoot n
  · rw [if_pos ((isRootPositionTotalRows_nodePos hT hn hy).mpr hroot)]
    exact ⟨_, rfl, hk1.trans (Keeps.setNode _ _ _)⟩
  · rw [if_neg fun h => hroot ((isRootPositionTotalRows_nodePos hT hn hy).mp h)]
    have hk2 := hk1.trans (dropNode_keeps hR hfit hroot)
    obtain ⟨m3, hash, h3, hk3⟩ := moveUpSibling_keeps hT hn (hk2.totalRows.trans hm) hy
      hroot
    have hk3 := hk2.trans hk3
    obtain ⟨m4, h4, hk4⟩ := @updateHashesLoop_keeps H T (Node.IsRoot n) hT _ 257
      (detectRow (parent (nodePos T y) m3.totalRows) m3.totalRows)
      (parent (nodePos T y) m3.totalRows) hash m3 (hk3.totalRows.trans hm) (by omega)
    have hk4 := hk3.trans hk4
    obtain ⟨m5, h5, hk5⟩ := forgetUnneededDel_keeps hT hn (hk4.totalRows.trans hm)
      (hk4.numLeaves.trans hm') hy
    refine ⟨m5, ?_, hk4.trans hk5⟩
    rw [h3]
    dsimp only
    rw [updateHashes, h4, Exec.ok_bind, h5, Exec.ok_bind]

omit hm hm' in
theorem removeAll_keeps {ys : List Node} :
    ∀ {m : MapPollard H}, m.totalRows = T → m.numLeaves = n → (∀ y ∈ ys, y.InForest n) →
      ∃ m', m.removeAll (ys.map (nodePos T)) = .ok m' ∧ Keeps T (Node.IsRoot n) m m' := by
  induction ys with
  | nil => exact fun {m} _ _ _ => ⟨m, rfl, Keeps.refl m⟩
  | cons y ys ih =>
    intro m hm hm' hys
    obtain ⟨m1, h1, hk1⟩ := removeSingle_keeps hT hn hm hm' (hys y (List.mem_cons_self ..))
    obtain ⟨m2, h2, hk2⟩ := ih (hk1.totalRows.trans hm) (hk1.numLeaves.trans hm')
      fun z hz => hys z (List.mem_cons_of_mem _ hz)
    refine ⟨m2, ?_, hk1.trans hk2⟩
    rw [List.map_cons, removeAll, h1, Exec.ok_bind]
    exact h2

end

end MapPollard

end Utreexo
