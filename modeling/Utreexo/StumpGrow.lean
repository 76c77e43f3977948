import Utreexo.ForestProof
import Utreexo.NewPositions
import Utreexo.NodePlace
import Utreexo.StumpSound

/-! # What an addition reports

`Stump.add` returns the nodes on the paths of the added leaves, with their hashes and their
positions in the forest after all the additions, and the empty roots that were written over.
The final position of a leaf is known before the later leaves are added: its number, moved up
for every empty root among those that the additions write over, which is its place in the
final forest (`place`).
-/
namespace Merkle.Node

/-- The node of a leaf. -/
def leafNode (c : Nat) : Node := ⟨0, c⟩

theorem leafNode_up_row (c r : Nat) : ((leafNode c).up r).row = r := Nat.zero_add r

theorem leafNode_up_off (c r : Nat) : ((leafNode c).up r).off = c / 2 ^ r := rfl

theorem leafNode_inForest {c n : Nat} : (leafNode c).InForest n ↔ c < n := by
  rw [InForest, leafNode, Nat.pow_zero, Nat.div_one]

theorem isRight_leafNode_up (c r : Nat) : ((leafNode c).up r).isRight = c.testBit r := by
  rw [isRight, leafNode_up_off, Nat.testBit_eq_decide_div_mod_eq]

end Merkle.Node

namespace Utreexo
open Merkle

section
variable {c r : Nat}

/-- The roots of the forest are beside the path of the next leaf. -/
theorem sibling_leafNode_up (hb : c.testBit r = true) :
    ((Node.leafNode c).up r).sibling = Node.rootAt c r := by
  have hodd : c / 2 ^ r % 2 = 1 := testBit_iff.mp hb
  have hoff : ((Node.leafNode c).up r).off = c / 2 ^ r := Node.leafNode_up_off c r
  refine Node.ext (Node.leafNode_up_row c r) ?_
  rw [Node.sibling]
  dsimp only
  rw [if_neg (by omega), hoff, Node.rootAt, Node.div_pow_succ]
  dsimp only
  omega

theorem parent_rootAt (hb : c.testBit r = true) :
    (Node.rootAt c r).parent = (Node.leafNode c).up (r + 1) := by
  rw [← sibling_leafNode_up hb, Node.sibling_parent, Node.up_succ]

/-- The path of a leaf up to the lowest zero of its number. -/
theorem leafNode_up_inForest {t n : Nat} (hl : LowOnes c t) (hr : r ≤ t) (hn : c < n) :
    ((Node.leafNode c).up r).InForest n := by
  have hd := (hl.of_le hr).decompose
  rw [Node.InForest, Node.leafNode_up_row, Node.leafNode_up_off]
  refine Nat.lt_of_succ_le ((Nat.le_div_iff_mul_le (Nat.two_pow_pos r)).mpr ?_)
  rw [Nat.succ_eq_add_one, ← hd]
  exact hn

/-- A root stays one until the next leaf has a path to its parent. -/
theorem rootAt_isRoot_iff {m : Nat} (hb : c.testBit r = true) (hm : c ≤ m) :
    (Node.rootAt c r).IsRoot m ↔ ¬ ((Node.leafNode c).up (r + 1)).InForest m := by
  have hin : (Node.rootAt c r).InForest m := (Node.rootAt_isRoot hb).inForest.mono hm
  rw [← parent_rootAt hb]
  constructor
  · exact fun h hp => Node.not_isRoot_of_parent hp h
  · exact fun h => by_contra fun hr => h (hin.parent hr)

section
variable {t : Nat} (hl : LowOnes c t) (hb : c.testBit t = false)
include hl hb

/-- The next leaf leaves the roots above the lowest zero alone. -/
theorem rootAt_succ_of_lt (hr : t < r) : Node.rootAt (c + 1) r = Node.rootAt c r := by
  obtain ⟨d, rfl⟩ := Nat.exists_eq_add_of_le (Nat.succ_le_of_lt hr)
  rw [Node.rootAt, Node.rootAt, show t.succ + d + 1 = t + 1 + (d + 1) by omega, hl.succ_div hb]

/-- The new root is on the path of the leaf. -/
theorem rootAt_succ_self : Node.rootAt (c + 1) t = (Node.leafNode c).up t := by
  have heven : c / 2 ^ t % 2 = 0 := testBit_eq_false.mp hb
  refine Node.ext (Node.leafNode_up_row c t).symm ?_
  have h := hl.succ_div hb (d := 0)
  rw [Nat.add_zero] at h
  rw [Node.leafNode_up_off, Node.rootAt, h, Node.div_pow_succ]
  dsimp only
  omega

end

end

/-! ### The empty roots that are written over -/

section Destroy
variable {H : Type} [DecidableEq H] [HashOps H]

/-- The roots that are none any more with `m` leaves, lowest first, among those on the rows
for which `gone` holds. -/
def overwritten (n m : Nat) (gone : Nat → Bool) : List Node :=
  ((rootRows n 0).reverse.filter fun r => gone r && !decide ((Node.rootAt n r).IsRoot m)).map
    (Node.rootAt n)

omit [DecidableEq H] [HashOps H] in
/-- The roots that the next leaf writes over, and those that the others do. -/
theorem overwritten_step {c t m : Nat} (hl : LowOnes c t) (hb : c.testBit t = false) (ht : t < 64)
    (hm : c < m) (gone gone' : Nat → Bool) (h0 : gone' t = false)
    (hgone : ∀ r, t < r → gone' r = gone r) :
    overwritten c m gone =
      ((List.range' 0 t).filter gone).map (Node.rootAt c) ++ overwritten (c + 1) m gone' := by
  have hlow : ∀ r < t, ¬ (Node.rootAt c r).IsRoot m := by
    intro r hr
    rw [rootAt_isRoot_iff (hl.testBit_of_lt hr) (by omega), not_not]
    exact leafNode_up_inForest hl hr hm
  have hhigh : ∀ r, t < r → Node.rootAt (c + 1) r = Node.rootAt c r :=
    fun r hr => rootAt_succ_of_lt hl hb hr
  have hskip : rootRows c t = rootRows c (t + 1) := by
    rw [rootRows_step _ ht, hb]
    simp
  unfold overwritten
  rw [hl.rootRows_zero (by omega), hskip, hl.rootRows_succ hb ht, List.range_eq_range',
    List.reverse_append, List.reverse_reverse, List.filter_append, List.map_append,
    List.reverse_append, List.filter_append, List.map_append]
  congr 1
  · congr 1
    refine List.filter_congr fun r hr => ?_
    have hr' : r < t := by simpa using (List.mem_range'_1.mp hr).2
    simp [hlow r hr']
  · have hself : [t].reverse.filter
        (fun r => gone' r && !decide ((Node.rootAt (c + 1) r).IsRoot m)) = [] := by simp [h0]
    rw [hself, List.map_nil, List.nil_append]
    have hmem : ∀ r ∈ (rootRows c (t + 1)).reverse, t < r := fun r hr =>
      (mem_rootRows.mp (List.mem_reverse.mp hr)).1
    rw [List.filter_congr fun r hr => ?_]
    · refine List.map_congr_left fun r hr => (hhigh r (hmem r (List.mem_of_mem_filter hr))).symm
    · rw [hgone r (hmem r hr), hhigh r (hmem r hr)]

section
variable {c t k : Nat} (hl : LowOnes c t) (hb : c.testBit t = false) (hk : k ≤ 63)
  (hc : c ≤ 2 ^ k)
include hl hb hk hc

/-- One addition writes over the roots below the lowest zero. -/
theorem destroyLoop_spec (g : Nat → H) (keep : List H) {fuel h d : Nat} (deleted : List Nat)
    (hd : h + d = t) (hf : d < fuel) :
    destroyLoop c k fuel h (keep ++ ((List.range' h d).map g).reverse) deleted =
      .ok (keep, deleted ++ (((List.range' h d).filter fun r => g r = empty).map
        (Node.rootAt c)).map (nodePos k)) := by
  induction d generalizing fuel h deleted with
  | zero =>
    obtain ⟨fuel, rfl⟩ : ∃ f, fuel = f + 1 := ⟨fuel - 1, by omega⟩
    obtain rfl : h = t := hd
    rw [destroyLoop, if_neg (by rw [shiftRight_and_one, hb]; decide)]
    simp
  | succ d ih =>
    obtain ⟨fuel, rfl⟩ : ∃ f, fuel = f + 1 := ⟨fuel - 1, by omega⟩
    have hbit : c.testBit h = true := hl.testBit_of_lt (by omega)
    rw [destroyLoop, if_pos (shiftRight_and_one.mpr hbit), List.range'_succ, List.map_cons,
      List.reverse_cons, ← List.append_assoc, popRoot_concat, Exec.ok_bind,
      rootPosition_eq hk hc (testBit_row_le hc hbit)]
    dsimp only
    rw [ih (h := h + 1) _ (by omega) (by omega)]
    by_cases he : g h = empty
    · rw [if_pos he, List.filter_cons_of_pos (by simpa using he)]
      simp [Node.rootAt]
    · rw [if_neg he, List.filter_cons_of_neg (by simpa using he)]

end

/-- **All the additions.**  The roots are given by their rows.  The added leaf's root is
never empty, so only roots that were there before are listed. -/
theorem rootsToDestoryLoop_spec {c m k : Nat} (hk : k ≤ 63) (hm : c + m ≤ 2 ^ k)
    (hrows : treeRows (c + m) = k) (g : Nat → H) (deleted : List Nat) :
    rootsToDestoryLoop m c ((rootRows c 0).map g) deleted =
      .ok (deleted ++ (overwritten c (c + m) fun r => g r = empty).map (nodePos k)) := by
  induction m generalizing c g deleted with
  | zero =>
    -- Every root is still one.
    have hnone : overwritten c (c + 0) (fun r => g r = empty) = [] := by
      refine List.map_eq_nil_iff.mpr (List.filter_eq_nil_iff.mpr fun r hr => ?_)
      have hb := (mem_rootRows.mp (List.mem_reverse.mp hr)).2.2
      simp [Node.rootAt_isRoot hb]
    rw [rootsToDestoryLoop, hnone, List.map_nil, List.append_nil]
  | succ m ih =>
    have hpow : (2 : Nat) ^ k ≤ 2 ^ 63 := Nat.pow_le_pow_right (by omega) hk
    obtain ⟨t, ht, hl, hb⟩ := exists_lowZero (show c < 2 ^ 64 by omega)
    have ht' := hl.lt_sixtyFour (by omega)
    have hroots : (rootRows c 0).map g =
        (rootRows c (t + 1)).map g ++ ((List.range' 0 t).map g).reverse := by
      rw [hl.rootRows_zero ht, rootRows_step _ ht', hb, List.map_append, ← List.map_reverse,
        List.range_eq_range']
      simp
    have hnext : (rootRows c (t + 1)).map g ++ [HashOps.one] =
        (rootRows (c + 1) 0).map fun r => if r = t then HashOps.one else g r := by
      rw [hl.rootRows_succ hb ht', List.map_append, List.map_singleton, if_pos rfl]
      congr 1
      refine List.map_congr_left fun r hr => ?_
      rw [if_neg (by have := (mem_rootRows.mp hr).1; omega)]
    have hstep := overwritten_step hl hb ht' (m := c + 1 + m) (by omega)
      (fun r => g r = empty) (fun r => (if r = t then HashOps.one else g r) = empty)
      (by simp [HashOps.one_ne_empty])
      (fun r hr => by simp [show r ≠ t by omega])
    rw [rootsToDestoryLoop, add64_of_lt (by omega), hrows, hroots,
      destroyLoop_spec hl hb hk (by omega) g _ deleted (by omega) (by omega), Exec.ok_bind,
      add64_of_lt (by omega)]
    dsimp only
    rw [hnext, ih (by omega) (by rw [← hrows]; congr 1; omega),
      show c + (m + 1) = c + 1 + m by omega, hstep, List.map_append, List.append_assoc]

end Destroy

/-! ### The path of an added leaf

`F` is the forest after all the additions, in which the slots from the leaf `c` on are live:
the roots that `c` is merged with are the trees of `F` beside its path. -/

section Path
variable {H : Type} {F : List (Option H)} {c : Nat}

/-- The slots from `c` on are those of added leaves. -/
def LiveFrom (F : List (Option H)) (c : Nat) : Prop :=
  ∀ i, c ≤ i → i < F.length → ∃ h, slotAt F i = some h

theorem LiveFrom.mono (h : LiveFrom F c) {d : Nat} (hd : c ≤ d) : LiveFrom F d :=
  fun i h1 h2 => h i (Nat.le_trans hd h1) h2

variable (hF : F.length ≤ 2 ^ 63) (hlive : LiveFrom F c)
include hF hlive

omit hF in
/-- What is beside the path is vacant only if it was before the leaf. -/
theorem vacantBelow_beside_iff {r : Nat} (hin : ((Node.leafNode c).up (r + 1)).InForest F.length) :
    vacantBelow F ((Node.leafNode c).up r).sibling = true ↔
      c.testBit r = true ∧ vacantBelow F (Node.rootAt c r) = true := by
  by_cases hb : c.testBit r = true
  · rw [sibling_leafNode_up hb]
    simp [hb]
  · -- The sibling is on the right, and its slots are live.
    refine ⟨fun hv => ?_, fun h => absurd h.1 hb⟩
    rw [Node.up_succ, ← Node.sibling_parent] at hin
    have hsin := Node.inForest_of_parent hin
    have hpos := Nat.two_pow_pos r
    have heven : c / 2 ^ r % 2 = 0 := by
      rw [testBit_iff] at hb
      omega
    have hoff : ((Node.leafNode c).up r).sibling.off = c / 2 ^ r + 1 := by
      rw [Node.sibling, Node.leafNode_up_off]
      dsimp only
      rw [if_pos heven]
    have hrow : ((Node.leafNode c).up r).sibling.row = r := Node.leafNode_up_row c r
    have hle : (c / 2 ^ r + 1 + 1) * 2 ^ r ≤ F.length := by
      rw [Node.InForest, hoff, hrow] at hsin
      exact (Nat.le_div_iff_mul_le hpos).mp hsin
    have hlt : c < (c / 2 ^ r + 1) * 2 ^ r := by
      rw [Nat.mul_comm]
      exact Nat.lt_mul_div_succ c hpos
    rw [Nat.succ_mul] at hle
    obtain ⟨h, hh⟩ := hlive ((c / 2 ^ r + 1) * 2 ^ r) (by omega) (by omega)
    refine absurd (vacantBelow_iff.mp hv) (nodeTree_ne_none hh ?_ ?_)
    · rw [hoff, hrow]
    · rw [hoff, hrow, Nat.succ_mul (c / 2 ^ r + 1)]
      omega

/-- The roots that are written over are the vacant siblings on the path of the leaf. -/
theorem overwritten_eq {j : Nat} (hroot : ((Node.leafNode c).up j).IsRoot F.length) :
    overwritten c F.length (fun r => vacantBelow F (Node.rootAt c r)) =
      ((List.range' 0 j).filter fun r => vacantBelow F ((Node.leafNode c).up r).sibling).map
        fun r => ((Node.leafNode c).up r).sibling := by
  have hcF : c < F.length := Node.leafNode_inForest.mp (Node.inForest_of_up hroot.inForest)
  have hj : j < 64 := by
    have h := (mem_rootRows.mp (mem_rootRows_of_isRoot (by omega) hroot)).2.1
    simpa [Node.leafNode] using h
  have hrows : (rootRows c 0).reverse = (List.range' 0 64).filter (c.testBit ·) := by
    rw [rootRows, List.filter_reverse, List.reverse_reverse]
  have hsplit : List.range' 0 64 = List.range' 0 j ++ List.range' j (64 - j) := by
    have happ := List.range'_append_1 (s := 0) (m := j) (n := 64 - j)
    rw [Nat.zero_add] at happ
    rw [happ]
    congr 1
    omega
  -- Above the root of the leaf nothing is written over.
  have hhigh : ((List.range' j (64 - j)).filter (c.testBit ·)).filter (fun r =>
      vacantBelow F (Node.rootAt c r) && !decide ((Node.rootAt c r).IsRoot F.length)) = [] := by
    refine List.filter_eq_nil_iff.mpr fun r hr => ?_
    obtain ⟨hmem, hb⟩ := List.mem_filter.mp hr
    have hjr := (List.mem_range'_1.mp hmem).1
    have hnin : ¬ ((Node.leafNode c).up (r + 1)).InForest F.length := by
      intro hin
      rw [show r + 1 = j + (r - j) + 1 by omega, Node.up_succ, Node.up_add] at hin
      obtain ⟨d, hd⟩ : ∃ d, r - j = d := ⟨_, rfl⟩
      rw [hd, ← Node.up_succ, ← Node.parent_up] at hin
      exact Node.not_isRoot_of_parent (Node.inForest_of_up hin) hroot
    simp [(rootAt_isRoot_iff hb (by omega)).mpr hnin]
  unfold overwritten
  rw [hrows, hsplit, List.filter_append, List.filter_append, hhigh, List.append_nil,
    List.filter_filter]
  have hcongr : ∀ r ∈ List.range' 0 j, ((vacantBelow F (Node.rootAt c r) &&
      !decide ((Node.rootAt c r).IsRoot F.length)) && c.testBit r) =
      vacantBelow F ((Node.leafNode c).up r).sibling := by
    intro r hr
    have hrj : r < j := by simpa using (List.mem_range'_1.mp hr).2
    have hin : ((Node.leafNode c).up (r + 1)).InForest F.length := by
      obtain ⟨d, rfl⟩ := Nat.exists_eq_add_of_le hrj
      rw [Node.up_add] at hroot
      exact Node.inForest_of_up hroot.inForest
    have hiff := vacantBelow_beside_iff hlive hin
    rw [Bool.eq_iff_iff, hiff, Bool.and_eq_true, Bool.and_eq_true]
    constructor
    · rintro ⟨⟨h1, -⟩, h2⟩
      exact ⟨h2, h1⟩
    · rintro ⟨h1, h2⟩
      refine ⟨⟨h2, ?_⟩, h1⟩
      rw [Bool.not_eq_true', decide_eq_false_iff_not, rootAt_isRoot_iff h1 (by omega), not_not]
      exact hin
  rw [List.filter_congr hcongr]
  refine List.map_congr_left fun r hr => ?_
  obtain ⟨hmem, hv⟩ := List.mem_filter.mp hr
  have hb : c.testBit r = true := by
    have := hcongr r hmem
    rw [hv, Bool.and_eq_true] at this
    exact this.2
  rw [sibling_leafNode_up hb]

omit hlive in
/-- `Stump.add` moves the leaf's number up to its place. -/
theorem moveOver_climb {d r : Nat} {y : Node}
    (hroot : ((Node.leafNode c).up (r + d)).IsRoot F.length)
    (hy : ((Node.leafNode c).up r).Above y) :
    moveOver (treeRows F.length) ((((List.range' r d).filter fun i =>
        vacantBelow F ((Node.leafNode c).up i).sibling).map
          fun i => ((Node.leafNode c).up i).sibling).map (nodePos (treeRows F.length)))
        (nodePos (treeRows F.length) y) =
      nodePos (treeRows F.length)
        (Node.climb (vacantBelow F) d ((Node.leafNode c).up r) y) := by
  induction d generalizing r y with
  | zero => rfl
  | succ d ih =>
    have hroot' : ((Node.leafNode c).up (r + 1 + d)).IsRoot F.length := by
      rwa [show r + 1 + d = r + (d + 1) by omega]
    have hin : ((Node.leafNode c).up (r + 1)).InForest F.length := by
      rw [Node.up_add] at hroot'
      exact Node.inForest_of_up hroot'.inForest
    rw [Node.up_succ] at hin
    rw [List.range'_succ, Node.climb, ← Node.up_succ]
    by_cases hv : vacantBelow F ((Node.leafNode c).up r).sibling = true
    · have hb : Beside F.length ((Node.leafNode c).up r).sibling y :=
        ⟨by rwa [Node.sibling_parent], by rwa [Node.sibling_sibling]⟩
      obtain ⟨hanc, hnext⟩ := calcNextPosition_beside hF hb
      rw [List.filter_cons_of_pos (p := fun i => vacantBelow F ((Node.leafNode c).up i).sibling) hv,
        if_pos hv, List.map_cons, List.map_cons, moveOver, List.foldl_cons, if_pos hanc, hnext]
      refine ih hroot' ?_
      rw [Node.up_succ, ← Node.sibling_parent]
      exact Node.parent_above_raise (by rw [Node.sibling_row]; exact hy.row_le)
    · rw [List.filter_cons_of_neg (p := fun i => vacantBelow F ((Node.leafNode c).up i).sibling) hv,
        if_neg hv]
      refine ih hroot' ?_
      rw [Node.up_succ]
      exact (Node.parent_above _).trans hy

/-- **The position of an added leaf is that of its place in the final forest.** -/
theorem moveOver_leaf (hc : c < F.length) :
    moveOver (treeRows F.length) ((overwritten c F.length fun r =>
        vacantBelow F (Node.rootAt c r)).map (nodePos (treeRows F.length))) c =
      nodePos (treeRows F.length) (place F (Node.leafNode c)) := by
  have hin : (Node.leafNode c).InForest F.length := Node.leafNode_inForest.mpr hc
  obtain ⟨j, hj⟩ := hin.exists_root
  have hpos : c = nodePos (treeRows F.length) (Node.leafNode c) := by
    simp [nodePos, Node.leafNode]
  have hmove := moveOver_climb hF (r := 0) (d := j) (y := Node.leafNode c)
    (by rwa [Nat.zero_add]) (by rw [Node.up_zero]; exact .refl _)
  rw [Node.up_zero, ← place_eq (by omega) hj, ← hpos] at hmove
  rw [overwritten_eq hF hlive hj]
  exact hmove

end Path

end Utreexo
