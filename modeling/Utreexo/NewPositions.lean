import Utreexo.MoveUp
import Utreexo.PollardModify
import Utreexo.ProofOps
import Utreexo.ProofPositions

/-! # Where entries are after a block's deletions

`getNewPositions` takes the targets of a block one at a time, in ascending order, and moves
an entry up for every target whose parent is above the place where the entry is by then.
The targets are not moved.  Because no target is above or beside another, a target that is
still to come is beside the path of an entry exactly if it was so in the beginning
(`Node.Tracks`), so the entry ends up where the forest without all the targets has it
(`settled`).
-/
namespace Merkle.Node
variable {x y t u : Node} {ts : List Node}

/-- `y` is as far from being below one of the nodes, or below their siblings, as `x`. -/
def Tracks (ts : List Node) (x y : Node) : Prop :=
  ∀ t ∈ ts, ¬ t.Above y ∧ (t.sibling.Above x ↔ t.sibling.Above y)

theorem parent_above_of_sibling (h : t.sibling.Above y) : t.parent.Above y := by
  rw [← sibling_parent]
  exact t.sibling.parent_above.trans h

/-- Nodes that are not below `t` are below its sibling if they are below its parent. -/
theorem sibling_above_of_parent (h : t.parent.Above y) (hne : t.parent ≠ y) (ht : ¬ t.Above y) :
    t.sibling.Above y :=
  (h.of_parent hne).resolve_left ht

/-- A later node that is apart stays beside a path that an earlier one has shortened. -/
theorem sibling_above_raise_iff (hb : t.Before u) (ha : t.Apart u) (hs : u ≠ t.sibling)
    (hy : t.sibling.Above y) :
    u.sibling.Above (raise t y) ↔ u.sibling.Above y := by
  have hrow := hy.row_le
  rw [sibling_row] at hrow
  have htp := parent_above_raise hrow
  have hpa := hb.parent_apart ha hs
  constructor
  · intro h
    rcases h.total htp with h1 | h1
    · exact h1.trans (parent_above_of_sibling hy)
    · by_cases he : t.parent = u.sibling
      · rw [← he]
        exact parent_above_of_sibling hy
      · -- Then the parent of `t` would be above that of `u`.
        have h2 := h1.parent_of_ne he
        rw [sibling_parent] at h2
        exact absurd (h2.trans u.parent_above) hpa.1
  · intro h
    have hle : t.row ≤ u.row := by
      unfold Before at hb
      omega
    rcases h.total hy with h1 | h1
    · by_cases he : u.sibling = t.sibling
      · have hut : u = t := by rw [← sibling_sibling u, he, sibling_sibling]
        exact absurd (hut ▸ hb) (Before.irrefl t)
      · have h2 := h1.parent_of_ne he
        rw [sibling_parent] at h2
        exact h2.trans htp
    · have hle' := h1.row_le
      rw [sibling_row, sibling_row] at hle'
      have he := h1.eq_of_row_eq (by rw [sibling_row, sibling_row]; omega)
      have hut : u = t := by rw [← sibling_sibling u, ← he, sibling_sibling]
      exact absurd (hut ▸ hb) (Before.irrefl t)

/-- One target later the moved node still tracks the one it came from. -/
theorem Tracks.step (h : Tracks (t :: ts) x y) (hanti : Antichain (t :: ts))
    (htwin : Twinless (t :: ts)) (hy : t.sibling.Above y) : Tracks ts x (raise t y) := by
  intro u hu
  obtain ⟨hb, ha⟩ := (List.pairwise_cons.mp hanti).1 u hu
  have hs := (List.pairwise_cons.mp htwin).1 u hu
  obtain ⟨-, h2⟩ := h u (List.mem_cons_of_mem _ hu)
  refine ⟨fun hua => ?_, h2.trans (sibling_above_raise_iff hb ha hs hy).symm⟩
  have hrow := hy.row_le
  rw [sibling_row] at hrow
  rcases hua.total (parent_above_raise hrow) with h3 | h3
  · exact ha.2 (h3.trans t.parent_above)
  · exact (hb.parent_apart ha hs).1 h3

theorem Tracks.tail (h : Tracks (t :: ts) x y) : Tracks ts x y :=
  fun u hu => h u (List.mem_cons_of_mem _ hu)

theorem Tracks.start (h : ∀ t ∈ ts, ¬ t.Above x) : Tracks ts x x := fun t ht => ⟨h t ht, Iff.rfl⟩

end Merkle.Node

namespace Utreexo
open Merkle

/-! ### The places -/

/-- Whether the deletion of `t` moves what is at `x`. -/
def Beside (n : Nat) (t x : Node) : Prop := t.parent.InForest n ∧ t.sibling.Above x

instance (n : Nat) (t x : Node) : Decidable (Beside n t x) := inferInstanceAs (Decidable (_ ∧ _))

/-- The place of what was at `x`, moved up from `y` by the targets beside the path to `x`. -/
def settledFrom (n : Nat) (x : Node) : List Node → Node → Node
  | [], y => y
  | t :: targets, y => settledFrom n x targets (if Beside n t x then Node.raise t y else y)

/-- The place of what was at `x` once the subtrees of the targets are gone. -/
def settled (n : Nat) (targets : List Node) (x : Node) : Node := settledFrom n x targets x

section
variable {n : Nat} {x y t : Node} {targets : List Node}

theorem settledFrom_of_not_beside (h : ∀ t ∈ targets, ¬ Beside n t x) (y : Node) :
    settledFrom n x targets y = y := by
  induction targets with
  | nil => rfl
  | cons t targets ih =>
    rw [settledFrom, if_neg (h t List.mem_cons_self)]
    exact ih fun u hu => h u (List.mem_cons_of_mem _ hu)

/-- Nothing moves a root. -/
theorem not_beside_root (hx : x.IsRoot n) : ¬ Beside n t x := by
  rintro ⟨hp, hs⟩
  have hne : t.parent ≠ x := by
    rintro rfl
    have := hs.row_le
    rw [Node.parent_row, Node.sibling_row] at this
    omega
  have h := (Node.parent_above_of_sibling hs).parent_of_ne hne
  exact Node.not_isRoot_of_parent (h.inForest hp) hx

variable (hn : n ≤ 2 ^ 63)
include hn

/-! ### Trees by their index -/

theorem subtreeOf_nodePos {j : Nat} (hroot : (x.up j).IsRoot n) :
    subtreeOf (nodePos (treeRows n) x) n = (rootRows n (x.row + j + 1)).length := by
  obtain ⟨bits, -, h⟩ := detectOffset_nodePos hn hroot
  rw [subtreeOf, h]

/-- Nodes below one node of the forest are in the same subtree. -/
theorem subtreeOf_eq_of_above {z : Node} (hz : z.InForest n) (hx : z.Above x) (hy : z.Above y) :
    subtreeOf (nodePos (treeRows n) x) n = subtreeOf (nodePos (treeRows n) y) n := by
  obtain ⟨j, hj⟩ := hz.exists_root
  obtain ⟨a, rfl⟩ := hx
  obtain ⟨b, hb⟩ := hy
  have hrow := congrArg Node.row hb
  rw [Node.up_row, Node.up_row] at hrow
  rw [subtreeOf_nodePos hn (x := x) (j := a + j) (by rwa [Node.up_add]),
    subtreeOf_nodePos hn (x := y) (j := b + j) (by rwa [Node.up_add, hb]),
    show x.row + (a + j) + 1 = y.row + (b + j) + 1 by omega]

/-- A root is above the nodes of its subtree. -/
theorem root_above_of_subtreeOf (ht : t.IsRoot n) (hy : y.InForest n)
    (h : subtreeOf (nodePos (treeRows n) t) n = subtreeOf (nodePos (treeRows n) y) n) :
    t.Above y := by
  obtain ⟨j, hj⟩ := hy.exists_root
  have ht0 : (t.up 0).IsRoot n := by rwa [Node.up_zero]
  rw [subtreeOf_nodePos hn ht0, subtreeOf_nodePos hn hj] at h
  have h1 := rootRows_getElem (mem_rootRows_of_isRoot (by omega) ht0)
  rw [h, rootRows_getElem (mem_rootRows_of_isRoot (by omega) hj), Option.some.injEq] at h1
  exact ⟨j, hj.eq_of_row_eq ht (by rw [Node.up_row]; omega)⟩

/-! ### The loops -/

/-- A target beside the path of an entry is found, and the entry moves up. -/
theorem calcNextPosition_beside (hb : Beside n t y) :
    isAncestor (parent (nodePos (treeRows n) t) (treeRows n)) (nodePos (treeRows n) y)
      (treeRows n) = true ∧
    calcNextPosition (nodePos (treeRows n) y) (nodePos (treeRows n) t) (treeRows n) =
      .ok (nodePos (treeRows n) (Node.raise t y)) := by
  obtain ⟨hp, hs⟩ := hb
  have hk := treeRows_le hn
  obtain ⟨hpar, hfp⟩ := parent_nodePos_of_inForest hn hp
  have htp := Node.parent_above_of_sibling hs
  have hrow : t.row + 1 ≤ treeRows n := hfp.1
  have hne : t.parent ≠ y := by
    rintro rfl
    have := hs.row_le
    rw [Node.parent_row, Node.sibling_row] at this
    omega
  rw [hpar]
  exact ⟨(isAncestor_nodePos hk hfp (hfp.of_above htp)).mpr ⟨htp, hne⟩,
    calcNextPosition_nodePos hk (hfp.of_above t.parent_above) (by omega) hs⟩

theorem nextPosLoop_beside (hb : Beside n t y) (row : Nat) (rest : List Nat)
    (hroot : isRootPositionOnRow (nodePos (treeRows n) y) n row = false) :
    nextPosLoop n row (nodePos (treeRows n) t :: rest) (nodePos (treeRows n) y) =
      nextPosLoop n row rest (nodePos (treeRows n) (Node.raise t y)) := by
  obtain ⟨hanc, hnext⟩ := calcNextPosition_beside hn hb
  have hsub := subtreeOf_eq_of_above hn hb.1 t.parent_above (Node.parent_above_of_sibling hb.2)
  rw [nextPosLoop, if_neg (by rw [hroot]; decide), if_neg (not_not.mpr hsub), if_pos hanc, hnext]

/-- Any other target leaves the entry where it is. -/
theorem nextPosLoop_not_beside (hy : y.InForest n) (ht : t.InForest n) (hta : ¬ t.Above y)
    (hb : ¬ Beside n t y) (row : Nat) (rest : List Nat)
    (hroot : isRootPositionOnRow (nodePos (treeRows n) y) n row = false) :
    nextPosLoop n row (nodePos (treeRows n) t :: rest) (nodePos (treeRows n) y) =
      nextPosLoop n row rest (nodePos (treeRows n) y) := by
  rw [nextPosLoop, if_neg (by rw [hroot]; decide)]
  by_cases hsub : subtreeOf (nodePos (treeRows n) t) n = subtreeOf (nodePos (treeRows n) y) n
  · have hnr : ¬ t.IsRoot n := fun h => hta (root_above_of_subtreeOf hn h hy hsub)
    have hp := ht.parent hnr
    obtain ⟨hpar, hfp⟩ := parent_nodePos_of_inForest hn hp
    have hfy := fits_of_inForest (le_two_pow_treeRows n) hy
    rw [if_neg (not_not.mpr hsub), hpar, if_neg]
    rw [isAncestor_nodePos (treeRows_le hn) hfp hfy]
    rintro ⟨h1, h2⟩
    exact hb ⟨hp, Node.sibling_above_of_parent h1 h2 hta⟩
  · rw [if_pos hsub]

/-- **The loop over the targets.**  It does not depend on the row, which is used only to stop at a
root: no target is beside a root. -/
theorem nextPosLoop_nodePos (hanti : Antichain targets) (htwin : Twinless targets)
    (hin : ∀ t ∈ targets, t.InForest n) (htr : Node.Tracks targets x y) (hy : y.InForest n)
    (row : Nat) :
    nextPosLoop n row (targets.map (nodePos (treeRows n))) (nodePos (treeRows n) y) =
      nodePos (treeRows n) (settledFrom n x targets y) := by
  induction targets generalizing y with
  | nil => rfl
  | cons t targets ih =>
    obtain ⟨hta, hiff⟩ := htr t List.mem_cons_self
    have hbiff : Beside n t x ↔ Beside n t y := and_congr_right fun _ => hiff
    have hanti' := (List.pairwise_cons.mp hanti).2
    have htwin' := (List.pairwise_cons.mp htwin).2
    have hin' : ∀ u ∈ targets, u.InForest n := fun u hu => hin u (List.mem_cons_of_mem _ hu)
    rcases hroot : isRootPositionOnRow (nodePos (treeRows n) y) n row with _ | _
    · rw [List.map_cons, settledFrom]
      by_cases hb : Beside n t y
      · have hrow := hb.2.row_le
        rw [Node.sibling_row] at hrow
        rw [if_pos (hbiff.mpr hb), nextPosLoop_beside hn hb _ _ hroot]
        exact ih hanti' htwin' hin' (htr.step hanti htwin hb.2)
          ((Node.parent_above_raise hrow).inForest hb.1)
      · rw [if_neg fun h => hb (hbiff.mp h),
          nextPosLoop_not_beside hn hy (hin t List.mem_cons_self) hta hb _ _ hroot]
        exact ih hanti' htwin' hin' htr.tail hy
    · have hfy := fits_of_inForest (le_two_pow_treeRows n) hy
      obtain ⟨hr, -⟩ := (isRootPositionOnRow_nodePos hn hfy).mp hroot
      rw [settledFrom_of_not_beside, List.map_cons, nextPosLoop, if_pos hroot]
      intro u hu hb
      exact not_beside_root hr ⟨hb.1, (htr u hu).2.mp hb.2⟩

/-- **The loop over the entries** finds each on its own row and keeps them all. -/
theorem newPositionsLoop_entries {H : Type} [DecidableEq H] [HashOps H]
    (hanti : Antichain targets) (htwin : Twinless targets) (hin : ∀ t ∈ targets, t.InForest n)
    {slice : List (Node × H)}
    (hsorted : slice.Pairwise fun a b => nodePos (treeRows n) a.1 ≤ nodePos (treeRows n) b.1)
    (hslice : ∀ e ∈ slice, e.1.InForest n ∧ e.2 ≠ empty ∧ ∀ t ∈ targets, ¬ t.Above e.1)
    {row : Nat} (hrow : ∀ e ∈ slice, row ≤ e.1.row) :
    newPositionsLoop (targets.map (nodePos (treeRows n))) n true row
        (slice.map (hashAndPos (treeRows n))) =
      .ok (slice.map fun e => hashAndPos (treeRows n) (settled n targets e.1, e.2)) := by
  induction slice generalizing row with
  | nil => rfl
  | cons e slice ih =>
    have hk := treeRows_le hn
    obtain ⟨hlate, hsorted⟩ := List.pairwise_cons.mp hsorted
    obtain ⟨hxin, hne, hxa⟩ := hslice e List.mem_cons_self
    have hfit := fits_of_inForest (le_two_pow_treeRows n) hxin
    have hfr : e.1.row ≤ treeRows n := hfit.1
    have hnext : ∀ e' ∈ slice, e.1.row ≤ e'.1.row := by
      intro e' he'
      by_contra hlt
      have hfit' := fits_of_inForest (le_two_pow_treeRows n)
        (hslice e' (List.mem_cons_of_mem _ he')).1
      have := hfit'.pos_lt_of_before (y := e.1) (Or.inl (by omega))
      have := hlate e' he'
      omega
    rw [List.map_cons, hashAndPos, newPositionsLoop, if_neg hne,
      possibleRowLoop_nodePos hk hfit (hrow e List.mem_cons_self) (by omega), Exec.ok_bind,
      if_neg (by omega), ih hsorted (fun e' he' => hslice e' (List.mem_cons_of_mem _ he')) hnext,
      Exec.ok_bind, nextPosLoop_nodePos hn hanti htwin hin (.start hxa) hxin]
    rfl

end

/-! ### The trees at the places -/

section
variable {L : Type} [DecidableEq L] {slots : List (Option L)} {x y t : Node}
  (hn : slots.length ≤ 2 ^ 63) (hnd : (liveLeaves slots).Nodup)
include hn hnd

omit hn hnd in
/-- What is placed after a deletion has none of the deleted leaves. -/
theorem prune_placed {D E : CTree L} (h : placed (delSlots slots D.leaves) y = some E) :
    E.prune (· ∈ D.leaves) = some E := by
  refine CTree.prune_of_none_dead fun a ha => decide_eq_false ?_
  have hlive := placed_leaves_subset h a ha
  rw [liveLeaves_delSlots, List.mem_filter] at hlive
  simpa using hlive.2

/-- What is above a deleted subtree loses its leaves. -/
theorem placed_delSlots_above {D E : CTree L} (ht : placed slots t = some D)
    (hy : placed slots y = some E) (ha : y.Above t) (hne : y ≠ t) :
    ∃ E', E.prune (· ∈ D.leaves) = some E' ∧ placed (delSlots slots D.leaves) y = some E' := by
  have hlt : slots.length < 2 ^ 64 := by omega
  obtain ⟨i, hi⟩ := (placed_inForest hy).exists_root
  obtain ⟨d, rfl⟩ := ha
  obtain ⟨d, rfl⟩ : ∃ c, d = c + 1 := by
    cases d with
    | zero => exact absurd (Node.up_zero t) hne
    | succ d => exact ⟨d, rfl⟩
  have hroot : (t.up (d + 1 + i)).IsRoot slots.length := by rwa [Node.up_add]
  have hpath : t.path (d + 1 + i) = (t.up (d + 1)).path i ++ t.parent.path d ++ [t.isRight] := by
    rw [Node.path_add, Node.path_succ, List.append_assoc]
  have hroot' : ((t.up (d + 1)).up i).IsRoot (delSlots slots D.leaves).length := by
    rwa [length_delSlots]
  rw [placed_eq hlt hi] at hy
  obtain ⟨T, hT, hE⟩ := Option.bind_eq_some_iff.mp hy
  rw [Node.up_row, Nat.add_assoc] at hT
  have hdel := rootTree_delSlots_self hlt hnd ht hroot
  rw [hT, Option.bind_some, hpath, CTree.removeAt_concat] at hdel
  rw [placed_eq hlt hroot, hT, Option.bind_some, hpath, CTree.subAt_append,
    CTree.subAt_append, hE, Option.bind_some, ← CTree.subAt_append] at ht
  have hEnd : E.leaves.Nodup := by
    have h := rootTree_leaves_nodup hlt hnd (mem_rootRows_of_isRoot hlt hroot)
    rw [hT] at h
    exact (CTree.leaves_subAt hE).nodup h
  refine ⟨E.updateAt (CTree.lift t.isRight) (t.parent.path d), ?_, ?_⟩
  · rw [← CTree.removeAt_concat, CTree.removeAt_eq_prune hEnd ht]
  · rw [placed_eq (by rwa [length_delSlots]) hroot', Node.up_row, Nat.add_assoc, hdel,
      Option.bind_some, CTree.subAt_updateAt_above, hE, Option.map_some]

/-- A deletion leaves of each tree what it has not deleted, and places it where the tree was
or one row up. -/
theorem placed_delSlots_settled {D E : CTree L} (ht : placed slots t = some D)
    (hy : placed slots y = some E) (hta : ¬ t.Above y) :
    ∃ E', E.prune (· ∈ D.leaves) = some E' ∧ placed (delSlots slots D.leaves)
      (if Beside slots.length t y then Node.raise t y else y) = some E' := by
  by_cases hb : Beside slots.length t y
  · have hrow := hb.2.row_le
    rw [Node.sibling_row] at hrow
    have hz : y.up (t.row - y.row) = t.sibling := by
      obtain ⟨j, hj⟩ := hb.2
      have := congrArg Node.row hj
      rw [Node.up_row, Node.sibling_row] at this
      rw [← this, Nat.add_sub_cancel_left, hj]
    have hmoved := placed_delSlots_moved (by omega) hnd ht (Node.not_isRoot_of_parent hb.1) hz
      (Node.raise_up hrow) (Node.raise_path t y)
    rw [if_pos hb]
    exact ⟨E, prune_placed (hmoved.trans hy), hmoved.trans hy⟩
  · rw [if_neg hb]
    by_cases ha : y.Above t
    · exact placed_delSlots_above hn hnd ht hy ha fun h => hta (h ▸ .refl y)
    · have h1 : ¬ (vacated slots.length t).Above y := by
        rw [vacated]
        split
        · exact hta
        · next hnr =>
          intro h
          refine hb ⟨(placed_inForest ht).parent hnr, Node.sibling_above_of_parent h ?_ hta⟩
          rintro rfl
          exact ha t.parent_above
      have h2 : ¬ y.Above (vacated slots.length t) := by
        rw [vacated]
        split
        · exact ha
        · exact fun h => ha (h.trans t.parent_above)
      have hkeep := placed_delSlots (by omega) hnd ht h1 h2
      exact ⟨E, prune_placed (hkeep.trans hy), hkeep.trans hy⟩

omit hn hnd in
/-- **All the deletions.**  What is left of a tree is placed where the tree has settled. -/
theorem placed_settledFrom {targets : List Node} {Ds : List (CTree L)} {E : CTree L}
    (hn : slots.length ≤ 2 ^ 63) (hnd : (liveLeaves slots).Nodup)
    (hdel : Deletable slots targets Ds) (htr : Node.Tracks targets x y)
    (hy : placed slots y = some E) :
    ∃ E', E.prune (· ∈ Ds.flatMap CTree.leaves) = some E' ∧
      placed (delSlots slots (Ds.flatMap CTree.leaves)) (settledFrom slots.length x targets y) =
        some E' := by
  induction targets generalizing slots y Ds E with
  | nil =>
    cases hdel.placed
    refine ⟨E, CTree.prune_of_none_dead fun a _ => by simp, ?_⟩
    rwa [List.flatMap_nil, delSlots_nil]
  | cons t targets ih =>
    obtain ⟨D, Ds, hD, -, rfl⟩ := List.forall₂_cons_left_iff.mp hdel.placed
    obtain ⟨hta, hiff⟩ := htr t List.mem_cons_self
    have hbiff : Beside slots.length t x ↔ Beside slots.length t y :=
      and_congr_right fun _ => hiff
    obtain ⟨E1, hp1, hE1⟩ := placed_delSlots_settled hn hnd hD hy hta
    have htr1 : Node.Tracks targets x
        (if Beside slots.length t y then Node.raise t y else y) := by
      by_cases hb : Beside slots.length t y
      · rw [if_pos hb]
        exact htr.step hdel.antichain hdel.twinless hb.2
      · rw [if_neg hb]
        exact htr.tail
    have hnd1 : (liveLeaves (delSlots slots D.leaves)).Nodup := by
      rw [liveLeaves_delSlots]
      exact hnd.filter _
    obtain ⟨E2, hp2, hE2⟩ := ih (by rwa [length_delSlots]) hnd1
      (hdel.step (by omega) hnd) htr1 hE1
    refine ⟨E2, ?_, ?_⟩
    · have hpp := CTree.prune_prune (· ∈ D.leaves) (· ∈ Ds.flatMap CTree.leaves) E
      rw [hp1, Option.bind_some, hp2] at hpp
      rw [hpp]
      refine CTree.prune_congr fun a _ => ?_
      simp
    · rw [delSlots_append, length_delSlots] at hE2
      rw [List.flatMap_cons, settledFrom]
      simp only [hbiff]
      exact hE2

end

/-! ### The forest with all its leaves -/

/-- The leaves of a forest from which nothing has been deleted, by their numbers. -/
def fullForest (n : Nat) : List (Option Nat) := (List.range n).map some

theorem length_fullForest (n : Nat) : (fullForest n).length = n := by simp [fullForest]

/-- A tree with all its leaves has a subtree at the end of every path. -/
theorem perfect_fullForest {n : Nat} (h lo : Nat) (hle : lo + 2 ^ h ≤ n) :
    ∃ T, CTree.perfect (slotAt (fullForest n)) h lo = some T ∧
      ∀ p : List Bool, p.length ≤ h → ∃ E, T.subAt p = some E := by
  induction h generalizing lo with
  | zero =>
    have hlt : lo < n := hle
    refine ⟨.leaf lo, by simp [CTree.perfect, slotAt, fullForest, hlt], fun p hp => ?_⟩
    obtain rfl := List.length_eq_zero_iff.mp (Nat.le_zero.mp hp)
    exact ⟨_, CTree.subAt_nil _⟩
  | succ h ih =>
    have hp : 2 ^ (h + 1) = 2 ^ h + 2 ^ h := by ring
    have hpos := Nat.two_pow_pos h
    rw [hp] at hle
    obtain ⟨l, hl, hsl⟩ := ih lo (by omega)
    obtain ⟨r, hr, hsr⟩ := ih (lo + 2 ^ h) (by omega)
    refine ⟨.node l r, by rw [CTree.perfect, hl, hr, CTree.join_some], fun p hp => ?_⟩
    cases p with
    | nil => exact ⟨_, CTree.subAt_nil _⟩
    | cons b p =>
      rw [CTree.subAt_node]
      cases b
      · exact hsl p (Nat.le_of_succ_le_succ hp)
      · exact hsr p (Nat.le_of_succ_le_succ hp)

/-- Every node of the forest has a tree there. -/
theorem placed_fullForest {n : Nat} (hn : n < 2 ^ 64) {x : Node} (hx : x.InForest n) :
    ∃ E, placed (fullForest n) x = some E := by
  obtain ⟨j, hj⟩ := hx.exists_root
  obtain ⟨hbit, -⟩ := Node.isRoot_iff_rootAt.mp hj
  rw [Node.up_row] at hbit
  obtain ⟨T, hT, hsub⟩ := perfect_fullForest (x.row + j) _ (rootStart_add_le hbit)
  have hlen := length_fullForest n
  rw [placed_eq (j := j) (by rwa [hlen]) (by rwa [hlen]), rootTree, hlen, hT, Option.bind_some]
  exact hsub _ (by rw [Node.length_path]; omega)

/-! ### The result -/

/-- **`getNewPositions` moves every entry to its place after the deletions.**  The targets
are ascending nodes of the forest of which none is above or beside another, and no entry is
at or below one.  Every entry is kept, at the place where its node has settled.  In any
collapsed forest with trees `Ds` at the targets, taking out the leaves of all of them at once
leaves something of the tree at the entry's node, and the forest places it there.  The forest
with all its leaves has trees at all nodes (`placed_fullForest`). -/
theorem new_positions_settled [SortAlg] {H : Type} [DecidableEq H] [HashOps H] {n : Nat}
    (hn : n ≤ 2 ^ 63) (targets : List Node) (hanti : Antichain targets)
    (htwin : Twinless targets) (hin : ∀ t ∈ targets, t.InForest n) (slice : List (Node × H))
    (hsorted : slice.Pairwise fun a b => nodePos (treeRows n) a.1 ≤ nodePos (treeRows n) b.1)
    (hslice : ∀ e ∈ slice, e.1.InForest n ∧ e.2 ≠ empty ∧ ∀ t ∈ targets, ¬ t.Above e.1) :
    (∃ newSlice, getNewPositions (targets.map (nodePos (treeRows n)))
        (slice.map (hashAndPos (treeRows n))) n true = .ok newSlice ∧
      newSlice.Pairwise (fun a b => a.1 ≤ b.1) ∧
      newSlice.Perm (slice.map fun e => hashAndPos (treeRows n) (settled n targets e.1, e.2))) ∧
    ∀ {L : Type} [DecidableEq L] (slots : List (Option L)) (Ds : List (CTree L)),
      slots.length = n → (liveLeaves slots).Nodup →
      List.Forall₂ (fun t D => placed slots t = some D) targets Ds →
      ∀ e ∈ slice, ∀ E, placed slots e.1 = some E →
        ∃ E', E.prune (· ∈ Ds.flatMap CTree.leaves) = some E' ∧
          placed (delSlots slots (Ds.flatMap CTree.leaves)) (settled n targets e.1) =
            some E' := by
  constructor
  · refine ⟨_, ?_, SortAlg.sorted _ _, SortAlg.perm _ _⟩
    rw [getNewPositions, newPositionsLoop_entries hn hanti htwin hin hsorted hslice
      fun _ _ => Nat.zero_le _, Exec.ok_bind]
  · rintro L _ slots Ds rfl hnd hDs e he E hE
    exact placed_settledFrom hn hnd ⟨hDs, hanti, htwin⟩ (.start (hslice e he).2.2) hE

section
attribute [local instance] SortAlg.stable

/-- Four leaves without the first: the second moves up to the place of the parent, and what
is left of the parent is the second leaf as well. -/
theorem new_positions_four :
    (∃ newSlice, getNewPositions [0] [(1, FreeHash.leaf 1), (4, .leaf 4), (5, .leaf 5)] 4 true =
        .ok newSlice ∧ newSlice.Pairwise (fun a b => a.1 ≤ b.1) ∧
      newSlice.Perm [(4, .leaf 1), (4, .leaf 4), (5, .leaf 5)]) ∧
    placed (delSlots (fullForest 4) [0]) ⟨1, 0⟩ = some (.leaf 1) := by
  obtain ⟨hrun, hplaced⟩ := new_positions_settled (H := FreeHash) (n := 4) (by decide) [⟨0, 0⟩]
    (List.pairwise_singleton _ _) (List.pairwise_singleton _ _) (by decide)
    [(⟨0, 1⟩, .leaf 1), (⟨1, 0⟩, .leaf 4), (⟨1, 1⟩, .leaf 5)] (by decide) (by decide)
  refine ⟨hrun, ?_⟩
  obtain ⟨E', h1, h2⟩ := hplaced (fullForest 4) [.leaf 0] rfl (by decide)
    (.cons (by decide) .nil) (⟨0, 1⟩, .leaf 1) (by decide) (.leaf 1) (by decide)
  cases h1
  exact h2

end

end Utreexo
