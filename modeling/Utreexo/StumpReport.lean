import Utreexo.SortedSlices
import Utreexo.StumpGrow

/-! # The nodes that an addition reports

For every added leaf, `Stump.add` lists the pairs of siblings that it merges on the way to
its root, and the root (`grownNodes`), at their places in the final forest.  A list that
shares a hash with the next one is left out: that is the list of a leaf with an even number,
which has only the leaf itself, and the next leaf is its sibling.
-/
namespace Merkle

theorem Node.sibling_before_of_isRight {x : Node} (h : x.isRight = true) : x.sibling.Before x := by
  have hodd : x.off % 2 = 1 := by simpa [isRight] using h
  refine Or.inr ⟨rfl, ?_⟩
  rw [sibling]
  dsimp only
  rw [if_neg (by omega)]
  omega

end Merkle

namespace Utreexo
open Merkle

/-! ### One leaf -/

section Grown
variable {H : Type}

/-- The pairs of siblings below row `r` on the path of the leaf `c`. -/
def grownBelow (F : List (Option H)) (c : Nat) : Nat → List Node
  | 0 => []
  | r + 1 => grownBelow F c r ++
    if vacantBelow F ((Node.leafNode c).up r).sibling then []
    else [place F ((Node.leafNode c).up r).sibling, place F ((Node.leafNode c).up r)]

variable {F : List (Option H)} {c t : Nat}

theorem mem_grownBelow {y : Node} : y ∈ grownBelow F c t ↔ ∃ r < t,
    nodeTree F ((Node.leafNode c).up r).sibling ≠ none ∧
      (y = place F ((Node.leafNode c).up r).sibling ∨ y = place F ((Node.leafNode c).up r)) := by
  induction t with
  | zero => simp [grownBelow]
  | succ t ih =>
    rw [grownBelow, List.mem_append, ih]
    constructor
    · rintro (⟨r, hr, h⟩ | h)
      · exact ⟨r, by omega, h⟩
      · by_cases hv : vacantBelow F ((Node.leafNode c).up t).sibling = true
        · rw [if_pos hv] at h
          cases h
        · rw [if_neg hv, List.mem_cons, List.mem_singleton] at h
          exact ⟨t, by omega, fun hn => hv (vacantBelow_iff.mpr hn), h⟩
    · rintro ⟨r, hr, hn, h⟩
      by_cases hrt : r = t
      · subst hrt
        refine Or.inr ?_
        rw [if_neg fun hv => hn (vacantBelow_iff.mp hv), List.mem_cons, List.mem_singleton]
        exact h
      · exact Or.inl ⟨r, by omega, hn, h⟩

variable (hF : F.length ≤ 2 ^ 63) (hlive : LiveFrom F c) (hc : c < F.length) (hl : LowOnes c t)
include hF hlive hc hl

omit hF hl in
theorem nodeTree_path_ne_none (r : Nat) : nodeTree F ((Node.leafNode c).up r) ≠ none := by
  obtain ⟨h, hh⟩ := hlive c (Nat.le_refl c) hc
  refine nodeTree_ne_none hh ?_ ?_
  · rw [Node.leafNode_up_row, Node.leafNode_up_off]
    exact Nat.div_mul_le_self c _
  · rw [Node.leafNode_up_row, Node.leafNode_up_off, Nat.mul_comm]
    exact Nat.lt_mul_div_succ c (Nat.two_pow_pos r)

/-- The list is in ascending order, and the path goes on above it. -/
theorem grownBelow_sorted {r : Nat} (hr : r ≤ t) :
    (grownBelow F c r).Pairwise Node.Before ∧
      ∀ y ∈ grownBelow F c r, y.row < (place F ((Node.leafNode c).up r)).row := by
  have hlt : F.length < 2 ^ 64 := by omega
  induction r with
  | zero => exact ⟨.nil, fun y hy => absurd hy (List.not_mem_nil)⟩
  | succ r ih =>
    obtain ⟨hs, hrow⟩ := ih (by omega)
    have hin : ((Node.leafNode c).up r).parent.InForest F.length := by
      rw [← Node.up_succ]
      exact leafNode_up_inForest hl hr hc
    have hx := nodeTree_path_ne_none hlive hc r
    rw [grownBelow, Node.up_succ]
    by_cases hv : vacantBelow F ((Node.leafNode c).up r).sibling = true
    · rw [if_pos hv, List.append_nil, ← place_of_vacant hlt hin (vacantBelow_iff.mp hv)]
      exact ⟨hs, hrow⟩
    · have hsib : nodeTree F ((Node.leafNode c).up r).sibling ≠ none :=
        fun h => hv (vacantBelow_iff.mpr h)
      have hright : (place F ((Node.leafNode c).up r)).isRight = true := by
        rw [isRight_place hlt hin hsib, Node.isRight_leafNode_up]
        exact hl.testBit_of_lt hr
      have hbefore := Node.sibling_before_of_isRight hright
      rw [if_neg hv, place_parent hlt hin hsib, place_sibling hlt hin hx hsib]
      refine ⟨?_, fun y hy => ?_⟩
      · rw [List.pairwise_append]
        refine ⟨hs, ?_, fun y hy z hz => Or.inl ?_⟩
        · exact List.pairwise_pair.mpr hbefore
        · have := hrow y hy
          rcases List.mem_pair.mp hz with rfl | rfl
          · rwa [Node.sibling_row]
          · exact this
      · rw [Node.parent_row]
        rcases List.mem_append.mp hy with hy | hy
        · have := hrow y hy
          omega
        · rcases List.mem_pair.mp hy with rfl | rfl
          · rw [Node.sibling_row]
            omega
          · omega

/-- The nodes that the leaf `c` adds to the report, up to the lowest zero `t` of its number. -/
def grownNodes (F : List (Option H)) (c t : Nat) : List Node :=
  grownBelow F c t ++ [place F ((Node.leafNode c).up t)]

theorem grownNodes_sorted : (grownNodes F c t).Pairwise Node.Before := by
  obtain ⟨h1, h2⟩ := grownBelow_sorted hF hlive hc hl (Nat.le_refl t)
  rw [grownNodes, List.pairwise_append]
  refine ⟨h1, List.pairwise_singleton _ _, fun y hy z hz => Or.inl ?_⟩
  rw [List.mem_singleton.mp hz]
  exact h2 y hy

omit hF in
/-- The listed nodes are places of trees over the slots up to the leaf. -/
theorem grownNodes_trees {y : Node} (hy : y ∈ grownNodes F c t) :
    ∃ z : Node, y = place F z ∧ z.InForest F.length ∧ nodeTree F z ≠ none ∧
      (z.off + 1) * 2 ^ z.row ≤ c + 1 := by
  have hpath : ∀ r ≤ t, ((Node.leafNode c).up r).InForest F.length ∧
      (((Node.leafNode c).up r).off + 1) * 2 ^ ((Node.leafNode c).up r).row ≤ c + 1 := by
    intro r hr
    refine ⟨leafNode_up_inForest hl hr hc, ?_⟩
    rw [Node.leafNode_up_row, Node.leafNode_up_off]
    exact Nat.le_of_eq (hl.of_le hr).decompose.symm
  rcases List.mem_append.mp hy with hy | hy
  · obtain ⟨r, hr, hne, rfl | rfl⟩ := mem_grownBelow.mp hy
    · refine ⟨_, rfl, ?_, hne, ?_⟩
      · have hin := (hpath (r + 1) hr).1
        rw [Node.up_succ, ← Node.sibling_parent] at hin
        exact Node.inForest_of_parent hin
      · -- The sibling is on the left.
        have hb : c.testBit r = true := hl.testBit_of_lt hr
        have hodd : c / 2 ^ r % 2 = 1 := testBit_iff.mp hb
        have hoff : (Node.rootAt c r).off + 1 = c / 2 ^ r := by
          rw [Node.rootAt, Node.div_pow_succ]
          dsimp only
          omega
        rw [sibling_leafNode_up hb, hoff]
        exact Nat.le_succ_of_le (Nat.div_mul_le_self c (2 ^ r))
    · obtain ⟨h1, h2⟩ := hpath r (by omega)
      exact ⟨_, rfl, h1, nodeTree_path_ne_none hlive hc r, h2⟩
  · obtain ⟨h1, h2⟩ := hpath t (Nat.le_refl t)
    exact ⟨_, List.mem_singleton.mp hy, h1, nodeTree_path_ne_none hlive hc t, h2⟩

omit hlive in
/-- The leaf itself is listed. -/
theorem leaf_mem_grownNodes : place F (Node.leafNode c) ∈ grownNodes F c t := by
  have key : ∀ r ≤ t, place F (Node.leafNode c) ∈ grownBelow F c r ∨
      place F (Node.leafNode c) = place F ((Node.leafNode c).up r) := by
    intro r
    induction r with
    | zero => exact fun _ => Or.inr (by rw [Node.up_zero])
    | succ r ih =>
      intro hr
      rcases ih (by omega) with h | h
      · exact Or.inl (List.mem_append_left _ h)
      · by_cases hv : nodeTree F ((Node.leafNode c).up r).sibling = none
        · refine Or.inr ?_
          rw [h, Node.up_succ]
          refine place_of_vacant (by omega) ?_ hv
          rw [← Node.up_succ]
          exact leafNode_up_inForest hl hr hc
        · exact Or.inl (mem_grownBelow.mpr ⟨r, Nat.lt_succ_self r, hv, Or.inr h⟩)
  rcases key t (Nat.le_refl t) with h | h
  · exact List.mem_append_left _ h
  · exact List.mem_append_right _ (List.mem_singleton.mpr h)

end Grown

/-! ### The loop that merges the roots -/

section Merge
variable {H : Type} [DecidableEq H] [HashOps H] {F : List (Option H)} {c t : Nat}

/-- The entry that the report has for a node. -/
def reported (F : List (Option H)) (y : Node) : Nat × H :=
  withHash (slotHash F) (nodePos (treeRows F.length) y)

/-- The hash of the tree below a node. -/
def nodeHash (F : List (Option H)) (x : Node) : H := hashOpt (nodeTree F x)

variable (hF : F.length ≤ 2 ^ 63) (hlive : LiveFrom F c) (hc : c < F.length) (hl : LowOnes c t)
  (hb : c.testBit t = false) (hne : ∀ a b : H, parentHash a b ≠ empty)
  (hleaf : ∀ h ∈ liveLeaves F, h ≠ empty)

omit [DecidableEq H] in
include hne hleaf in
theorem nodeHash_eq_empty_iff {x : Node} : nodeHash F x = empty ↔ nodeTree F x = none := by
  constructor
  · intro h
    rcases hT : nodeTree F x with _ | T
    · rfl
    · rw [nodeHash, hT] at h
      refine absurd h (treeHash_ne_empty hne fun a ha => hleaf a ?_)
      refine leavesOpt_perfect_subset F x.row (x.off * 2 ^ x.row) a ?_
      rw [show CTree.perfect (slotAt F) x.row (x.off * 2 ^ x.row) = some T from hT]
      exact ha
  · intro h
    rw [nodeHash, h]
    rfl

omit [DecidableEq H] in
include hF in
theorem reported_place {x : Node} (hx : x.InForest F.length) (hT : nodeTree F x ≠ none) :
    reported F (place F x) = (nodePos (treeRows F.length) (place F x), nodeHash F x) := by
  obtain ⟨T, hT⟩ := Option.ne_none_iff_exists'.mp hT
  have hp := placed_place (by omega) hx hT
  rw [reported, withHash, slotHash_nodePos hF (placed_inForest hp), hp, nodeHash, hT]

include hF hlive hc hl hb hne hleaf in
/-- **The merging loop** lists the pairs of siblings on the path at their places. -/
theorem mergeRoots_spec (keep : List H) (fuel h d : Nat) (hd : h + d = t) (hf : d < fuel) :
    mergeRoots c (treeRows F.length) fuel h
        (keep ++ ((List.range' h d).map fun r => nodeHash F (Node.rootAt c r)).reverse)
        (nodeHash F ((Node.leafNode c).up h))
        (nodePos (treeRows F.length) (place F ((Node.leafNode c).up h)))
        ((grownBelow F c h).map (reported F)) =
      .ok (keep, nodeHash F ((Node.leafNode c).up t),
        nodePos (treeRows F.length) (place F ((Node.leafNode c).up t)),
        (grownBelow F c t).map (reported F)) := by
  have hlt : F.length < 2 ^ 64 := by omega
  induction d generalizing fuel h with
  | zero =>
    obtain ⟨fuel, rfl⟩ : ∃ f, fuel = f + 1 := ⟨fuel - 1, by omega⟩
    obtain rfl : h = t := hd
    rw [mergeRoots, if_neg (by rw [shiftRight_and_one, hb]; decide)]
    simp
  | succ d ih =>
    obtain ⟨fuel, rfl⟩ : ∃ f, fuel = f + 1 := ⟨fuel - 1, by omega⟩
    have hbit : c.testBit h = true := hl.testBit_of_lt (by omega)
    have hsib := sibling_leafNode_up hbit
    have hright : ((Node.leafNode c).up h).isRight = true := by
      rw [Node.isRight_leafNode_up, hbit]
    have hin : ((Node.leafNode c).up h).parent.InForest F.length := by
      rw [← Node.up_succ]
      exact leafNode_up_inForest hl (by omega) hc
    have hx := nodeTree_path_ne_none hlive hc h
    have hpar := nodeTree_parent F ((Node.leafNode c).up h)
    rw [if_pos hright] at hpar
    rw [mergeRoots, if_pos (shiftRight_and_one.mpr hbit), List.range'_succ, List.map_cons,
      List.reverse_cons, ← List.append_assoc, popRoot_concat, Exec.ok_bind]
    dsimp only
    have hnext := ih fuel (h + 1) (by omega) (by omega)
    rw [grownBelow, Node.up_succ] at hnext
    by_cases hv : nodeTree F ((Node.leafNode c).up h).sibling = none
    · rw [if_neg (not_not.mpr ((nodeHash_eq_empty_iff hne hleaf).mpr (hsib ▸ hv)))]
      rw [hv, CTree.join_none_left] at hpar
      rw [if_pos (vacantBelow_iff.mpr hv), List.append_nil, ← place_of_vacant hlt hin hv,
        nodeHash, hpar] at hnext
      exact hnext
    · have hsin : ((Node.leafNode c).up h).sibling.InForest F.length := by
        rw [← Node.sibling_parent] at hin
        exact Node.inForest_of_parent hin
      obtain ⟨T, hT⟩ := Option.ne_none_iff_exists'.mp hx
      obtain ⟨S, hS⟩ := Option.ne_none_iff_exists'.mp hv
      have hplace := place_parent hlt hin hv
      have hpin : (place F ((Node.leafNode c).up h)).parent.InForest F.length := by
        rw [← hplace]
        rw [hS, hT] at hpar
        exact placed_inForest (placed_place hlt hin hpar)
      obtain ⟨hpos, hfp⟩ := parent_nodePos_of_inForest hF hpin
      have hodd : (place F ((Node.leafNode c).up h)).off % 2 = 1 := by
        have := isRight_place hlt hin hv
        rw [hright] at this
        simpa [Node.isRight] using this
      have hleft := leftSib_nodePos (treeRows_le hF) (hfp.of_above (Node.parent_above _))
      rw [if_neg (by omega), ← place_sibling hlt hin hx hv] at hleft
      have hhash : nodeHash F ((Node.leafNode c).up h).parent =
          parentHash (nodeHash F (Node.rootAt c h)) (nodeHash F ((Node.leafNode c).up h)) := by
        rw [← hsib, nodeHash, hpar, nodeHash, nodeHash, hS, hT]
        rfl
      rw [if_pos fun he => hv (by rw [hsib]; exact (nodeHash_eq_empty_iff hne hleaf).mp he), hpos,
        hleft]
      rw [if_neg fun h => hv (vacantBelow_iff.mp h), List.map_append, List.map_cons,
        List.map_singleton, reported_place hF hsin hv,
        reported_place hF (Node.inForest_of_parent hin) hx, hplace, hhash, hsib] at hnext
      rw [hsib]
      exact hnext

end Merge

/-! ### All the leaves -/

/-- The lowest row without a root: the number of ones at the end of the number of leaves. -/
def lowZero (c : Nat) : Nat := ((List.range 64).takeWhile (c.testBit ·)).length

theorem lowZero_spec {c : Nat} (hc : c + 1 < 2 ^ 64) :
    LowOnes c (lowZero c) ∧ c.testBit (lowZero c) = false ∧ lowZero c < 64 := by
  obtain ⟨t, -, hl, hb⟩ := exists_lowZero (show c < 2 ^ 64 by omega)
  have ht := hl.lt_sixtyFour hc
  have heq : lowZero c = t := by
    have hsplit : List.range 64 = List.range t ++ t :: (List.range' (t + 1) (63 - t)) := by
      rw [List.range_eq_range', List.range_eq_range', ← List.range'_succ,
        show 63 - t + 1 = 64 - t by omega]
      have happ := List.range'_append_1 (s := 0) (m := t) (n := 64 - t)
      rw [Nat.zero_add] at happ
      rw [happ]
      congr 1
      omega
    rw [lowZero, hsplit, List.takeWhile_append_of_pos fun r hr =>
      hl.testBit_of_lt (List.mem_range.mp hr), List.takeWhile_cons_of_neg (by rw [hb]; decide),
      List.append_nil, List.length_range]
  rw [heq]
  exact ⟨hl, hb, ht⟩

/-- There is only one lowest zero. -/
theorem lowZero_eq {c t : Nat} (hc : c + 1 < 2 ^ 64) (hl : LowOnes c t) (hb : c.testBit t = false) :
    lowZero c = t := by
  obtain ⟨hl', hb', -⟩ := lowZero_spec hc
  rcases Nat.lt_trichotomy (lowZero c) t with h | h | h
  · rw [hl.testBit_of_lt h] at hb'
    cases hb'
  · exact h
  · rw [hl'.testBit_of_lt h] at hb
    cases hb

theorem le_lowZero {c t : Nat} (hc : c + 1 < 2 ^ 64) (hl : LowOnes c t) : t ≤ lowZero c := by
  obtain ⟨-, hb, -⟩ := lowZero_spec hc
  by_contra hlt
  rw [hl.testBit_of_lt (by omega)] at hb
  cases hb

section Loop
variable {H : Type} [DecidableEq H] [HashOps H] {F : List (Option H)}

/-- The Stump after the first `c` leaves. -/
def stumpAt (F : List (Option H)) (c : Nat) : Stump H :=
  ⟨(rootRows c 0).map fun r => nodeHash F (Node.rootAt c r), c⟩

/-- The report of the leaf `c`. -/
def leafReport (F : List (Option H)) (c : Nat) : List (Nat × H) :=
  (grownNodes F c (lowZero c)).map (reported F)

variable (hF : F.length ≤ 2 ^ 63) (hne : ∀ a b : H, parentHash a b ≠ empty)
  (hleaf : ∀ h ∈ liveLeaves F, h ≠ empty)
include hF hne hleaf

/-- `rootsToDestory` before the leaf `c` is added. -/
theorem rootsToDestory_spec {c : Nat} (hc : c ≤ F.length) :
    rootsToDestory (F.length - c) c (stumpAt F c).roots =
      .ok ((overwritten c F.length fun r => vacantBelow F (Node.rootAt c r)).map
        (nodePos (treeRows F.length))) := by
  have hsum : c + (F.length - c) = F.length := by omega
  have hspec := rootsToDestoryLoop_spec (c := c) (m := F.length - c) (treeRows_le hF)
    (by rw [hsum]; exact le_two_pow_treeRows _) (by rw [hsum])
    (fun r => nodeHash F (Node.rootAt c r)) []
  have hgone : (fun r => decide (nodeHash F (Node.rootAt c r) = empty)) =
      fun r => vacantBelow F (Node.rootAt c r) := by
    funext r
    rw [Bool.eq_iff_iff, decide_eq_true_iff, nodeHash_eq_empty_iff hne hleaf, vacantBelow_iff]
  rw [hsum, hgone, List.nil_append] at hspec
  exact hspec

/-- **The loop over the added leaves.** -/
theorem addLoop_spec (adds : List H) {c : Nat} (hc : c + adds.length = F.length)
    (hadds : ∀ i a, adds[i]? = some a → slotAt F (c + i) = some a)
    (subTrees : List (List (Nat × H))) :
    addLoop (treeRows F.length) adds (stumpAt F c) subTrees =
      .ok (stumpAt F F.length,
        subTrees ++ (List.range' c adds.length).map (leafReport F)) := by
  induction adds generalizing c subTrees with
  | nil =>
    obtain rfl : c = F.length := hc
    simp [addLoop]
  | cons a adds ih =>
    rw [List.length_cons] at hc
    have hlive : LiveFrom F c := by
      intro i h1 h2
      obtain ⟨d, rfl⟩ := Nat.exists_eq_add_of_le h1
      have hlt : d < (a :: adds).length := by rw [List.length_cons]; omega
      exact ⟨_, hadds d _ (List.getElem?_eq_getElem hlt)⟩
    obtain ⟨hl, hb, ht⟩ := lowZero_spec (show c + 1 < 2 ^ 64 by omega)
    have hdel := rootsToDestory_spec hF hne hleaf (show c ≤ F.length by omega)
    rw [show F.length - c = adds.length + 1 by omega] at hdel
    -- The roots that the leaf is merged with are the last ones.
    have hroots : (stumpAt F c).roots =
        (rootRows c (lowZero c + 1)).map (fun r => nodeHash F (Node.rootAt c r)) ++
          ((List.range' 0 (lowZero c)).map fun r => nodeHash F (Node.rootAt c r)).reverse := by
      rw [stumpAt, hl.rootRows_zero (by omega), rootRows_step _ ht, hb, List.map_append,
        ← List.map_reverse, List.range_eq_range']
      simp
    have hnew : nodeHash F (Node.leafNode c) = a := by
      have h0 := hadds 0 a rfl
      rw [Nat.add_zero] at h0
      simp [nodeHash, nodeTree, Node.leafNode, CTree.perfect, h0]
    have hm := mergeRoots_spec hF hlive (by omega) hl hb hne hleaf
      ((rootRows c (lowZero c + 1)).map fun r => nodeHash F (Node.rootAt c r)) 65 0 (lowZero c)
      (by omega) (by omega)
    rw [Node.up_zero, ← hroots, hnew, ← moveOver_leaf hF hlive (by omega)] at hm
    have hnext : stumpAt F (c + 1) =
        ⟨(rootRows c (lowZero c + 1)).map (fun r => nodeHash F (Node.rootAt c r)) ++
          [nodeHash F ((Node.leafNode c).up (lowZero c))], c + 1⟩ := by
      rw [stumpAt, hl.rootRows_succ hb ht, List.map_append, List.map_singleton,
        rootAt_succ_self hl hb]
      congr 2
      refine List.map_congr_left fun r hr => ?_
      rw [rootAt_succ_of_lt hl hb (mem_rootRows.mp hr).1]
    rw [addLoop_cons (s := stumpAt F c) hdel hm]
    rw [show add64 (stumpAt F c).numLeaves 1 = c + 1 from
        add64_of_lt (show c + 1 < 2 ^ 64 by omega), ← hnext,
      ih (by omega) (fun i b hi => by rw [Nat.add_right_comm]; exact hadds (i + 1) b hi),
      List.length_cons, List.range'_succ, List.map_cons, List.append_assoc]
    have hrep : leafReport F c = (grownBelow F c (lowZero c)).map (reported F) ++
        [(nodePos (treeRows F.length) (place F ((Node.leafNode c).up (lowZero c))),
          nodeHash F ((Node.leafNode c).up (lowZero c)))] := by
      rw [leafReport, grownNodes, List.map_append, List.map_singleton,
        reported_place hF (leafNode_up_inForest hl (Nat.le_refl _) (by omega))
          (nodeTree_path_ne_none hlive (by omega) _)]
    rw [hrep, List.singleton_append]

end Loop

/-! ### The reports merged -/

theorem slotAt_inj {H : Type} {slots : List (Option H)} (hnd : (liveLeaves slots).Nodup) {i j : Nat}
    {h : H} (hi : slotAt slots i = some h) (hj : slotAt slots j = some h) : i = j := by
  have key : ∀ a b, a < b → slotAt slots a = some h → slotAt slots b = some h → False := by
    intro a b hab ha hb
    rw [slotAt_eq_some] at ha hb
    rw [← List.take_append_drop b slots, liveLeaves, List.filterMap_append,
      List.nodup_append] at hnd
    refine hnd.2.2 h (mem_liveLeaves.mpr ?_) h (mem_liveLeaves.mpr ?_) rfl
    · refine List.mem_of_getElem? (i := a) ?_
      rw [List.getElem?_take_of_lt hab, ha]
    · refine List.mem_of_getElem? (i := 0) ?_
      rw [List.getElem?_drop, Nat.add_zero, hb]
  rcases Nat.lt_trichotomy i j with hlt | heq | hgt
  · exact absurd (key i j hlt hi hj) not_false
  · exact heq
  · exact absurd (key j i hgt hj hi) not_false

section Merged
variable {H : Type} [DecidableEq H] {V : Nat → H}

/-- Merging sorted reports lists the positions of all of them, as long as one that is left
out is part of the next one. -/
theorem mergeSubTrees_listing (ls : List (List Nat)) {u : List Nat} {S : Set Nat}
    (hsorted : ∀ l ∈ ls, l.Pairwise (· < ·)) (hu : Listing u S)
    (hskip : ls.IsChain fun l l' => (∃ p ∈ l, V p ∈ l'.map V) → l ⊆ l') :
    ∃ r, mergeSubTrees (ls.map (List.map (withHash V))) (u.map (withHash V)) =
        r.map (withHash V) ∧ Listing r (S ∪ {p | ∃ l ∈ ls, p ∈ l}) := by
  induction ls generalizing u S with
  | nil =>
    refine ⟨u, rfl, hu.congr fun p => ?_⟩
    simp
  | cons l ls ih =>
    have hl : Listing l {p | p ∈ l} := ⟨hsorted l List.mem_cons_self, fun _ => Iff.rfl⟩
    have hmerged := mergeSlices_listing hu hl
    cases ls with
    | nil =>
      refine ⟨_, mergeSortedHashAndPos_withHash V, hmerged.congr fun p => ?_⟩
      simp
    | cons l' ls =>
      obtain ⟨hrel, hchain⟩ := List.isChain_cons_cons.mp hskip
      have hsorted' : ∀ k ∈ l' :: ls, k.Pairwise (· < ·) :=
        fun k hk => hsorted k (List.mem_cons_of_mem _ hk)
      rw [List.map_cons, List.map_cons, mergeSubTrees, ← List.map_cons]
      by_cases hdup : 0 < (getHashAndPosHashSubset (l.map (withHash V))
          ((l'.map (withHash V)).map Prod.snd)).length
      · -- Left out: the next report has these positions too.
        have hsub : l ⊆ l' := by
          apply hrel
          obtain ⟨e, he⟩ := List.exists_mem_of_length_pos hdup
          obtain ⟨he1, he2⟩ := List.mem_filter.mp he
          obtain ⟨p, hp, rfl⟩ := List.mem_map.mp he1
          rw [map_withHash_snd, decide_eq_true_eq] at he2
          exact ⟨p, hp, he2⟩
        obtain ⟨r, hr, hlist⟩ := ih hsorted' hu hchain
        refine ⟨r, by rw [if_pos hdup, hr], hlist.congr fun p => ?_⟩
        simp only [Set.mem_union, Set.mem_ofPred_eq, List.mem_cons, exists_eq_or_imp]
        constructor
        · rintro (h | h)
          · exact Or.inl h
          · exact Or.inr (Or.inr h)
        · rintro (h | h | h)
          · exact Or.inl h
          · exact Or.inr (Or.inl (hsub h))
          · exact Or.inr h
      · obtain ⟨r, hr, hlist⟩ := ih hsorted' hmerged hchain
        refine ⟨r, by rw [if_neg hdup, mergeSortedHashAndPos_withHash, hr], hlist.congr fun p => ?_⟩
        simp only [Set.mem_union, Set.mem_ofPred_eq, List.mem_cons, exists_eq_or_imp, or_assoc]

end Merged

section Positions
variable {H : Type} {F : List (Option H)} {c : Nat}

/-- The positions that the leaf `c` adds to the report. -/
def leafPositions (F : List (Option H)) (c : Nat) : List Nat :=
  (grownNodes F c (lowZero c)).map (nodePos (treeRows F.length))

theorem leafReport_eq [DecidableEq H] [HashOps H] :
    leafReport F c = (leafPositions F c).map (withHash (slotHash F)) := by
  rw [leafReport, leafPositions, List.map_map]
  rfl

theorem mem_leafPositions {p : Nat} : p ∈ leafPositions F c ↔
    ∃ y ∈ grownNodes F c (lowZero c), nodePos (treeRows F.length) y = p := by
  rw [leafPositions, List.mem_map]

variable (hF : F.length ≤ 2 ^ 63) (hlive : LiveFrom F c) (hc : c < F.length)
include hF hlive hc

/-- A listed position is that of a tree over the slots up to the leaf. -/
theorem leafPositions_trees {p : Nat} (hp : p ∈ leafPositions F c) :
    ∃ z T, p = nodePos (treeRows F.length) (place F z) ∧ nodeTree F z = some T ∧
      placed F (place F z) = some T ∧ (z.off + 1) * 2 ^ z.row ≤ c + 1 := by
  obtain ⟨hl, -, -⟩ := lowZero_spec (show c + 1 < 2 ^ 64 by omega)
  obtain ⟨y, hy, rfl⟩ := mem_leafPositions.mp hp
  obtain ⟨z, rfl, hin, hne, hle⟩ := grownNodes_trees hlive hc hl hy
  obtain ⟨T, hT⟩ := Option.ne_none_iff_exists'.mp hne
  exact ⟨z, T, rfl, hT, placed_place (by omega) hin hT, hle⟩

theorem leafPositions_sorted : (leafPositions F c).Pairwise (· < ·) := by
  obtain ⟨hl, -, -⟩ := lowZero_spec (show c + 1 < 2 ^ 64 by omega)
  refine List.pairwise_map.mpr ((grownNodes_sorted hF hlive hc hl).imp_of_mem ?_)
  intro x y hx hy hb
  obtain ⟨z, rfl, hin, hne, -⟩ := grownNodes_trees hlive hc hl hx
  obtain ⟨T, hT⟩ := Option.ne_none_iff_exists'.mp hne
  have hplaced := placed_inForest (placed_place (by omega) hin hT)
  exact (fits_of_inForest (le_two_pow_treeRows _) hplaced).pos_lt_of_before hb

omit hF hlive hc in
/-- A leaf with an even number lists only itself. -/
theorem leafPositions_of_even (hw : c + 1 < 2 ^ 64) (hb : c.testBit 0 = false) :
    leafPositions F c = [nodePos (treeRows F.length) (place F (Node.leafNode c))] := by
  rw [leafPositions, lowZero_eq hw (lowOnes_zero c) hb, grownNodes, grownBelow, Node.up_zero]
  rfl

/-- The next leaf lists it again. -/
theorem leafPositions_subset (hb : c.testBit 0 = false) (hc' : c + 1 < F.length) :
    leafPositions F c ⊆ leafPositions F (c + 1) := by
  have heven : c % 2 = 0 := by simpa [testBit_eq_false] using hb
  have hsib : ((Node.leafNode (c + 1)).up 0).sibling = Node.leafNode c := by
    rw [Node.up_zero, Node.leafNode, Node.sibling]
    dsimp only
    rw [if_neg (by omega), Nat.add_sub_cancel, Node.leafNode]
  have hodd : LowOnes (c + 1) 1 := by
    unfold LowOnes
    omega
  have hne := nodeTree_path_ne_none hlive hc 0
  rw [leafPositions_of_even (by omega) hb]
  intro p hp
  rw [List.mem_singleton.mp hp]
  refine mem_leafPositions.mpr ⟨_, List.mem_append_left _ (mem_grownBelow.mpr
    ⟨0, le_lowZero (by omega) hodd, ?_, Or.inl ?_⟩), rfl⟩
  · rwa [hsib, ← Node.up_zero (Node.leafNode c)]
  · rw [hsib]

/-- A report is left out only if the next one has its positions. -/
theorem leafPositions_skip [HashOps H] {leaf : H → Prop} (hi : IdealHash H leaf)
    (hleaf : ∀ h ∈ liveLeaves F, leaf h) (hnd : (liveLeaves F).Nodup) (hc' : c + 1 < F.length)
    (hshare : ∃ p ∈ leafPositions F c, slotHash F p ∈ (leafPositions F (c + 1)).map (slotHash F)) :
    leafPositions F c ⊆ leafPositions F (c + 1) := by
  rcases hb : c.testBit 0 with _ | _
  · exact leafPositions_subset hF hlive hc hb hc'
  · -- The next leaf has an even number, and its hash is not among those before it.
    exfalso
    have heven : (c + 1).testBit 0 = false := by
      have : c % 2 = 1 := by simpa [testBit_iff] using hb
      rw [testBit_eq_false]
      simp
      omega
    obtain ⟨a, ha⟩ := hlive (c + 1) (by omega) hc'
    have hlive' := hlive.mono (Nat.le_succ c)
    have htree : nodeTree F (Node.leafNode (c + 1)) = some (.leaf a) := by
      simp [nodeTree, Node.leafNode, CTree.perfect, ha]
    have hin : (Node.leafNode (c + 1)).InForest F.length := Node.leafNode_inForest.mpr hc'
    have hplaced := placed_place (by omega) hin htree
    have hmem : a ∈ liveLeaves F := placed_leaves_subset hplaced a (by simp [CTree.leaves])
    obtain ⟨p, hp, hsh⟩ := hshare
    obtain ⟨z, T, rfl, hT, hTp, hle⟩ := leafPositions_trees hF hlive hc hp
    rw [leafPositions_of_even (by omega) heven, List.map_singleton, List.mem_singleton,
      slotHash_nodePos hF (placed_inForest hTp), slotHash_nodePos hF (placed_inForest hplaced), hTp,
      hplaced] at hsh
    have heq : T = .leaf a := treeHash_inj hi (fun h hh => hleaf h (placed_leaves_subset hTp h hh))
      (fun h hh => hleaf h (placed_leaves_subset hplaced h hh)) hsh
    obtain ⟨i, -, hlt, hs⟩ := mem_leavesOpt_nodeTree.mp
      (show a ∈ CTree.leavesOpt (nodeTree F z) by rw [hT, heq]; simp [CTree.leaves])
    have := slotAt_inj hnd hs ha
    omega

end Positions

end Utreexo
