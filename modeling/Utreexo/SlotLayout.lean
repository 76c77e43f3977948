import Utreexo.AddReport
import Utreexo.PartialForest

/-! # Layouts of a list of slots

The slots below a node form a collapsed tree.  Any set of nodes of which none is above another
gives a layout with these trees at its roots.  With the roots of the forest this is the forest
itself (`Layout.forest`).
-/
namespace Merkle
open Utreexo

namespace Layout
variable {H : Type} {F : List (Option H)} {R : Node → Prop} {x y r : Node}

open Classical in
/-- The tree at a node below one of the roots `R`. -/
noncomputable def treeBelow (F : List (Option H)) (R : Node → Prop) (x : Node) :
    Option (CTree H) :=
  if h : ∃ j, R (x.up j) then
    (nodeTree F (x.up h.choose)).bind (·.subAt (x.path h.choose))
  else none

theorem treeBelow_up (hR : ∀ {x y}, R x → R y → x.Above y → x = y) {j : Nat} (hr : R (x.up j)) :
    treeBelow F R x = (nodeTree F (x.up j)).bind (·.subAt (x.path j)) := by
  have h : ∃ j, R (x.up j) := ⟨j, hr⟩
  obtain heq : h.choose = j := by
    have hrow : ∀ {a b}, R (x.up a) → R (x.up b) → (x.up a).Above (x.up b) → a = b := by
      intro a b ha hb hab
      have := congrArg Node.row (hR ha hb hab)
      rw [Node.up_row, Node.up_row] at this
      omega
    rcases Node.Above.total (z := x) ⟨h.choose, rfl⟩ ⟨j, rfl⟩ with ha | ha
    · exact hrow h.choose_spec hr ha
    · exact (hrow hr h.choose_spec ha).symm
  rw [treeBelow, dif_pos h, heq]

/-- The leaves of the tree below a node are in the slots below it. -/
theorem exists_slot_below {a : H} (hx : a ∈ CTree.leavesOpt (nodeTree F x)) :
    ∃ i, slotAt F i = some a ∧ x.Above (Node.leafNode i) := by
  obtain ⟨i, hlo, hhi, hi⟩ := mem_leavesOpt_nodeTree.mp hx
  refine ⟨i, hi, Node.above_iff.mpr ⟨Nat.zero_le _, ?_⟩⟩
  exact Nat.div_eq_of_lt_le hlo hhi

theorem above_of_common_leaf (hnd : (liveLeaves F).Nodup) {a : H}
    (hx : a ∈ CTree.leavesOpt (nodeTree F x)) (hy : a ∈ CTree.leavesOpt (nodeTree F y)) :
    x.Above y ∨ y.Above x := by
  obtain ⟨i, hi, hix⟩ := exists_slot_below hx
  obtain ⟨j, hj, hjy⟩ := exists_slot_below hy
  obtain rfl := slotAt_inj hnd hi hj
  exact hix.total hjy

theorem nodeTree_leaves_nodup (hnd : (liveLeaves F).Nodup) (x : Node) :
    (CTree.leavesOpt (nodeTree F x)).Nodup := by
  rw [nodeTree, CTree.leavesOpt_perfect]
  refine List.Nodup.filterMap (fun i j a hi hj => slotAt_inj hnd hi hj) ?_
  exact List.nodup_range' 1 (by omega)

/-- The layout with the given roots. -/
noncomputable def ofSlots (F : List (Option H)) (R : Node → Prop)
    (hR : ∀ {x y}, R x → R y → x.Above y → x = y) (hnd : (liveLeaves F).Nodup) : Layout H where
  root := R
  tree := treeBelow F R
  apart := hR
  child := by
    rintro x r hr ⟨j, rfl⟩
    have hx : R (x.up (j + 1)) := by rwa [← Node.parent_up]
    rw [treeBelow_up hR hr, treeBelow_up hR hx, ← Node.parent_up, Option.bind_assoc]
    congr 1
    funext T
    rw [Node.path_succ, CTree.subAt_concat]
  outside := by
    intro x h
    rw [treeBelow, dif_neg]
    rintro ⟨j, hj⟩
    exact h _ hj ⟨j, rfl⟩
  depth := by
    intro x l r h
    by_cases hx : ∃ j, R (x.up j)
    · obtain ⟨j, hj⟩ := hx
      rw [treeBelow_up hR hj] at h
      obtain ⟨T, hT, hsub⟩ := Option.bind_eq_some_iff.mp h
      have hleft : T.subAt (x.path j ++ [false]) = some l := by
        rw [CTree.subAt_concat, hsub]
        rfl
      have hle := CTree.length_le_of_subAt_perfect hT hleft
      rw [List.length_append, Node.length_path, List.length_singleton, Node.up_row] at hle
      omega
    · rw [treeBelow, dif_neg hx] at h
      cases h
  unique := by
    intro x y a hx hy
    have hroot : ∀ {z}, treeBelow F R z = some (.leaf a) → ∃ j T, R (z.up j) ∧
        nodeTree F (z.up j) = some T ∧ T.subAt (z.path j) = some (.leaf a) := by
      intro z hz
      by_cases hex : ∃ j, R (z.up j)
      · obtain ⟨j, hj⟩ := hex
        rw [treeBelow_up hR hj] at hz
        obtain ⟨T, hT, hsub⟩ := Option.bind_eq_some_iff.mp hz
        exact ⟨j, T, hj, hT, hsub⟩
      · rw [treeBelow, dif_neg hex] at hz
        cases hz
    obtain ⟨i, S, hi, hS, hxS⟩ := hroot hx
    obtain ⟨j, T, hj, hT, hyT⟩ := hroot hy
    -- The leaf is in one tree only, and there on one path.
    have hup : x.up i = y.up j := by
      have hmemS : a ∈ CTree.leavesOpt (nodeTree F (x.up i)) := by
        rw [hS]
        exact CTree.mem_leaves_of_subAt hxS
      have hmemT : a ∈ CTree.leavesOpt (nodeTree F (y.up j)) := by
        rw [hT]
        exact CTree.mem_leaves_of_subAt hyT
      rcases above_of_common_leaf hnd hmemS hmemT with h | h
      · exact hR hi hj h
      · exact (hR hj hi h).symm
    have hST : S = T := by
      rw [hup, hT] at hS
      exact (Option.some.inj hS).symm
    subst hST
    have hSnd : S.leaves.Nodup := by
      have := nodeTree_leaves_nodup hnd (x.up i)
      rwa [hS] at this
    have hpath := CTree.path_unique hSnd hxS hyT
    have hlen := congrArg List.length hpath
    rw [Node.length_path, Node.length_path] at hlen
    subst hlen
    exact Node.eq_of_path_eq hup hpath

/-- The leaves of a layout are live. -/
theorem ofSlots_leaves (hR : ∀ {x y}, R x → R y → x.Above y → x = y)
    (hnd : (liveLeaves F).Nodup) {a : H} (h : a ∈ CTree.leavesOpt ((ofSlots F R hR hnd).tree x)) :
    a ∈ liveLeaves F := by
  cases hT : (ofSlots F R hR hnd).tree x with
  | none =>
    rw [hT] at h
    cases h
  | some T =>
    rw [hT] at h
    obtain ⟨r, hr, j, rfl⟩ := inside_of_tree hT
    obtain ⟨S, hS, hsub⟩ := Option.bind_eq_some_iff.mp ((treeBelow_up hR hr).symm.trans hT)
    have hmem : a ∈ CTree.leavesOpt (nodeTree F (x.up j)) := by
      rw [hS]
      exact (CTree.leaves_subAt hsub).subset h
    exact leavesOpt_perfect_subset F _ _ a hmem

/-! ### The forest -/

section
variable {slots : List (Option H)} (hnd : (liveLeaves slots).Nodup)

/-- The forest over the slots. -/
noncomputable def forest : Layout H :=
  ofSlots slots (Node.IsRoot slots.length) (fun hx hy h => by
    obtain ⟨j, rfl⟩ := h
    have := Node.root_up_unique (i := 0) (by rwa [Node.up_zero]) hx
    rw [← this, Node.up_zero]) hnd

theorem forest_root : (forest hnd).root x ↔ x.IsRoot slots.length := Iff.rfl

theorem forest_leaves {a : H} (h : a ∈ CTree.leavesOpt ((forest hnd).tree x)) :
    a ∈ liveLeaves slots :=
  ofSlots_leaves (forest hnd).apart hnd h

theorem forest_inside : (forest hnd).Inside x ↔ x.InForest slots.length := by
  constructor
  · rintro ⟨r, hr, ha⟩
    exact ha.inForest (Node.IsRoot.inForest hr)
  · intro h
    obtain ⟨j, hj⟩ := h.exists_root
    exact ⟨_, hj, j, rfl⟩

variable (hn : slots.length < 2 ^ 64)
include hn

theorem forest_tree (x : Node) : (forest hnd).tree x = placed slots x := by
  by_cases hx : x.InForest slots.length
  · obtain ⟨j, hj⟩ := hx.exists_root
    have hrow : Node.rootAt slots.length (x.row + j) = x.up j :=
      (Node.isRoot_iff_rootAt.mp hj).2.symm
    rw [placed_eq hn hj, rootTree_eq_nodeTree, hrow]
    exact treeBelow_up (forest hnd).apart hj
  · have hnone : placed slots x = none := by
      by_contra hne
      obtain ⟨T, hT⟩ := Option.ne_none_iff_exists'.mp hne
      exact hx (placed_inForest hT)
    rw [hnone]
    exact (forest hnd).outside fun r hr ha => hx (ha.inForest (Node.IsRoot.inForest hr))

variable [DecidableEq H] {t : Node} {D : CTree H} (hD : placed slots t = some D)
  (hnd' : (liveLeaves (delSlots slots D.leaves)).Nodup)
include hD

/-- What is placed below a root goes up when it is deleted. -/
theorem forest_raising (ht : ¬ t.IsRoot slots.length) (W : Set H) :
    Raising t (forest hnd) (forest hnd') W (W \ {a | a ∈ D.leaves}) := by
  have hv : vacated slots.length t = t.parent := if_neg ht
  have hn' : (delSlots slots D.leaves).length < 2 ^ 64 := by rwa [length_delSlots]
  refine Raising.of_tree (by rw [forest_tree hnd hn, hD]) ?_ ?_
    (fun z => by rw [forest_root, forest_root, length_delSlots]) fun z h1 h2 => ?_
  · exact (forest_inside hnd).mpr ((placed_inForest hD).parent ht)
  · rw [forest_tree hnd' hn', forest_tree hnd hn]
    exact placed_delSlots_moved hn hnd hD ht (Node.up_zero _) (Node.up_zero _) rfl
  · rw [forest_tree hnd' hn', forest_tree hnd hn]
    exact placed_delSlots hn hnd hD (by rwa [hv]) (by rwa [hv])

/-- What is placed at a root is gone when it is deleted. -/
theorem forest_tree_root (ht : t.IsRoot slots.length) (z : Node) :
    (forest hnd').tree z = if t.Above z then none else (forest hnd).tree z := by
  have hv : vacated slots.length t = t := if_pos ht
  have hn' : (delSlots slots D.leaves).length < 2 ^ 64 := by rwa [length_delSlots]
  have ht' : t.IsRoot (delSlots slots D.leaves).length := by rwa [length_delSlots]
  rw [forest_tree hnd' hn', forest_tree hnd hn]
  by_cases hz : t.Above z
  · rw [if_pos hz]
    refine placed_below_none hn' ht'.inForest ?_ hz
    have hroot : (t.up 0).IsRoot slots.length := by rwa [Node.up_zero]
    have hself := rootTree_delSlots_self hn hnd hD hroot
    rw [Node.path_zero, Nat.add_zero] at hself
    rw [placed_root hn' ht', hself]
    cases rootTree slots t.row with
    | none => rfl
    | some T => exact CTree.removeAt_nil T
  · rw [if_neg hz]
    by_cases hup : z.Above t
    · -- Nothing is above a root, before or after.
      have hout : ∀ {s : List (Option H)}, t.IsRoot s.length → placed s z = none := by
        intro s hs
        by_contra hne
        obtain ⟨T, hT⟩ := Option.ne_none_iff_exists'.mp hne
        have hne' : z ≠ t := by
          rintro rfl
          exact hz (Node.Above.refl z)
        exact Node.not_isRoot_of_parent ((hup.parent_of_ne hne').inForest (placed_inForest hT)) hs
      rw [hout ht, hout ht']
    · exact placed_delSlots hn hnd hD (by rwa [hv]) (by rwa [hv])

end

/-! ### The stages of an addition -/

section
variable {n h : Nat}

/-- The roots when the new leaf has been joined with the roots below row `h`. -/
def stageRoot (n h : Nat) (x : Node) : Prop :=
  x = (Node.leafNode n).up h ∨ x.IsRoot n ∧ h ≤ x.row

theorem leafNode_up_not_inForest (n h : Nat) : ¬ ((Node.leafNode n).up h).InForest n := fun hin =>
  Nat.lt_irrefl n (Node.leafNode_inForest.mp (Node.inForest_of_up hin))

theorem stageRoot_apart (hx : stageRoot n h x) (hy : stageRoot n h y) (ha : x.Above y) : x = y := by
  rcases hx with rfl | ⟨hx, hxh⟩ <;> rcases hy with rfl | ⟨hy, hyh⟩
  · rfl
  · refine ha.eq_of_row_eq (Nat.le_antisymm ?_ ha.row_le)
    rwa [Node.leafNode_up_row]
  · exact absurd (ha.inForest hx.inForest) (leafNode_up_not_inForest n h)
  · obtain ⟨j, rfl⟩ := ha
    have := Node.root_up_unique (i := 0) (by rwa [Node.up_zero]) hx
    rw [← this, Node.up_zero]

/-- The leaf is in all trees on its path. -/
theorem mem_path_tree {a : H} (hslot : slotAt F n = some a) (h : Nat) :
    a ∈ CTree.leavesOpt (nodeTree F ((Node.leafNode n).up h)) := by
  refine mem_leavesOpt_nodeTree.mpr ⟨n, ?_, ?_, hslot⟩
  · rw [Node.leafNode_up_row, Node.leafNode_up_off]
    exact Nat.div_mul_le_self n _
  · rw [Node.leafNode_up_row, Node.leafNode_up_off, Nat.mul_comm]
    exact Nat.lt_mul_div_succ n (Nat.two_pow_pos h)

variable (hnd : (liveLeaves F).Nodup)

noncomputable def stage (n h : Nat) : Layout H :=
  ofSlots F (stageRoot n h) stageRoot_apart hnd

theorem stage_root : (stage hnd n h).root x ↔ stageRoot n h x := Iff.rfl

theorem stage_leaves {a : H} (ha : a ∈ CTree.leavesOpt ((stage hnd n h).tree x)) :
    a ∈ liveLeaves F :=
  ofSlots_leaves stageRoot_apart hnd ha

theorem stage_tree (hx : stageRoot n h x) : (stage hnd n h).tree x = nodeTree F x := by
  have hroot : stageRoot n h (x.up 0) := by rwa [Node.up_zero]
  refine (treeBelow_up stageRoot_apart hroot).trans ?_
  rw [Node.up_zero, Node.path_zero]
  cases nodeTree F x with
  | none => rfl
  | some T => exact CTree.subAt_nil T

theorem stageRoot_succ (hb : n.testBit h = true)
    (hx : ¬ ((Node.leafNode n).up (h + 1)).Above x) :
    stageRoot n (h + 1) x ↔ stageRoot n h x := by
  have hpar : ((Node.leafNode n).up (h + 1)).Above ((Node.leafNode n).up h) := by
    rw [Node.up_succ]
    exact Node.parent_above _
  constructor
  · rintro (rfl | ⟨hr, hle⟩)
    · exact absurd (Node.Above.refl _) hx
    · exact Or.inr ⟨hr, by omega⟩
  · rintro (rfl | ⟨hr, hle⟩)
    · exact absurd hpar hx
    · refine Or.inr ⟨hr, Nat.lt_of_le_of_ne hle fun he => hx ?_⟩
      -- The root of this row is beside the node.
      have hxr := (Node.isRoot_iff_rootAt.mp hr).2
      rw [← he, ← sibling_leafNode_up hb] at hxr
      rw [hxr, Node.up_succ, ← Node.sibling_parent]
      exact Node.parent_above _

theorem stage_tree_succ (hb : n.testBit h = true)
    (hx : ¬ ((Node.leafNode n).up (h + 1)).Above x) :
    (stage hnd n (h + 1)).tree x = (stage hnd n h).tree x := by
  have hiff : ∀ j, stageRoot n (h + 1) (x.up j) ↔ stageRoot n h (x.up j) := fun j =>
    stageRoot_succ hb fun ha => hx (ha.trans ⟨j, rfl⟩)
  by_cases hex : ∃ j, stageRoot n h (x.up j)
  · obtain ⟨j, hj⟩ := hex
    exact (treeBelow_up stageRoot_apart ((hiff j).mpr hj)).trans
      (treeBelow_up stageRoot_apart hj).symm
  · rw [(stage hnd n h).outside, (stage hnd n (h + 1)).outside]
    · rintro r hr ⟨j, rfl⟩
      exact hex ⟨j, (hiff j).mp hr⟩
    · rintro r hr ⟨j, rfl⟩
      exact hex ⟨j, hr⟩

section
variable (hb : n.testBit h = true)
include hb

theorem rootAt_sibling : (Node.rootAt n h).sibling = (Node.leafNode n).up h := by
  rw [← sibling_leafNode_up hb, Node.sibling_sibling]

theorem rootAt_parent : (Node.rootAt n h).parent = (Node.leafNode n).up (h + 1) := by
  rw [← Node.sibling_parent, rootAt_sibling hb, Node.up_succ]

theorem stageRoot_rootAt : stageRoot n h (Node.rootAt n h) :=
  Or.inr ⟨Node.rootAt_isRoot hb, Nat.le_refl h⟩

theorem stageRoot_sibling : stageRoot n h (Node.rootAt n h).sibling :=
  Or.inl (rootAt_sibling hb)

theorem stageRoot_parent : stageRoot n (h + 1) (Node.rootAt n h).parent :=
  Or.inl (rootAt_parent hb)

theorem stage_roots_succ (x : Node) (hx : ¬ (Node.rootAt n h).parent.Above x) :
    (stage hnd n (h + 1)).root x ↔ (stage hnd n h).root x :=
  stageRoot_succ hb (rootAt_parent hb ▸ hx)

theorem stage_tree_parent : (stage hnd n (h + 1)).tree (Node.rootAt n h).parent =
    CTree.join (nodeTree F (Node.rootAt n h)) (nodeTree F ((Node.leafNode n).up h)) := by
  have hright : ((Node.leafNode n).up h).isRight = true := by
    rw [Node.isRight_leafNode_up, hb]
  rw [stage_tree hnd (stageRoot_parent hb), rootAt_parent hb, Node.up_succ, nodeTree_parent,
    if_pos hright, sibling_leafNode_up hb]

/-- Beside an empty root the new tree moves up. -/
theorem stage_raising (hempty : nodeTree F (Node.rootAt n h) = none) (W : Set H) :
    Raising (Node.rootAt n h) (stage hnd n h) (stage hnd n (h + 1)) W W := by
  have hp : (stage hnd n (h + 1)).root (Node.rootAt n h).parent := stageRoot_parent hb
  -- Above the new root there is nothing.
  have habove : ∀ z : Node, z.Above (Node.rootAt n h).parent → z ≠ (Node.rootAt n h).parent →
      (stage hnd n (h + 1)).tree z = none := by
    intro z hz hne
    refine (stage hnd n (h + 1)).outside fun r hr ha => hne ?_
    obtain rfl := (stage hnd n (h + 1)).apart hr hp (ha.trans hz)
    exact hz.eq_of_row_eq (Nat.le_antisymm ha.row_le hz.row_le)
  refine ⟨Inside.of_root (stageRoot_sibling hb), Inside.of_root hp, ?_, stage_roots_succ hnd hb,
    fun _ => hp, fun z hz _ => ?_, fun z a hz hne => ?_, fun z hz hne a ha => ?_,
    subset_rfl, fun a ha hno => absurd ha hno⟩
  · rw [stage_tree_parent hnd hb, hempty, CTree.join_none_left,
      stage_tree hnd (stageRoot_sibling hb), rootAt_sibling hb]
  · exact stage_tree_succ hnd hb (rootAt_parent hb ▸ hz)
  · rw [habove z hz hne]
    exact (Option.some_ne_none _).symm
  · rw [habove z hz hne] at ha
    cases ha

/-- Two roots with trees are joined. -/
theorem stage_tree_join {A G : CTree H} (hA : nodeTree F (Node.rootAt n h) = some A)
    (hG : nodeTree F ((Node.leafNode n).up h) = some G) :
    (stage hnd n (h + 1)).tree (Node.rootAt n h).parent = some (.node A G) ∧
      ∀ z, z ≠ (Node.rootAt n h).parent →
        (stage hnd n (h + 1)).tree z = (stage hnd n h).tree z := by
  have hnode : (stage hnd n (h + 1)).tree (Node.rootAt n h).parent = some (.node A G) := by
    rw [stage_tree_parent hnd hb, hA, hG, CTree.join_some]
  refine ⟨hnode, fun z hz => ?_⟩
  by_cases hpz : (Node.rootAt n h).parent.Above z
  · have hp : (stage hnd n (h + 1)).Inside (Node.rootAt n h).parent :=
      Inside.of_root (stageRoot_parent hb)
    have hright : (Node.rootAt n h).isRight = false := by
      rw [← sibling_leafNode_up hb, Node.isRight_sibling, Node.isRight_leafNode_up, hb]
      rfl
    rcases hpz.of_parent (Ne.symm hz) with ha | ha
    · refine tree_congr_below (Inside.of_root (stageRoot_rootAt hb)) (inside_of_parent hp) ?_ ha
      rw [tree_child hp, hnode, hright, stage_tree hnd (stageRoot_rootAt hb), hA]
      rfl
    · have hps : (stage hnd n (h + 1)).Inside (Node.rootAt n h).sibling.parent := by
        rwa [Node.sibling_parent]
      refine tree_congr_below (Inside.of_root (stageRoot_sibling hb)) (inside_of_parent hps) ?_ ha
      rw [tree_child hps, Node.sibling_parent, hnode, Node.isRight_sibling, hright,
        stage_tree hnd (stageRoot_sibling hb), rootAt_sibling hb, hG]
      rfl
  · exact stage_tree_succ hnd hb (rootAt_parent hb ▸ hpz)

end

/-- The forest with the new leaf as one more root. -/
theorem stage_tree_zero {slots : List (Option H)} {a : H} (hnd : (liveLeaves slots).Nodup)
    (hnd' : (liveLeaves (slots ++ [some a])).Nodup) (hx : x ≠ Node.leafNode slots.length) :
    (stage hnd' slots.length 0).tree x = (forest hnd).tree x := by
  have hiff : ∀ j, stageRoot slots.length 0 (x.up j) ↔ (x.up j).IsRoot slots.length := by
    intro j
    unfold stageRoot
    rw [Node.up_zero, and_iff_left (Nat.zero_le _), or_iff_right]
    intro he
    have hrow := congrArg Node.row he
    rw [Node.up_row] at hrow
    obtain ⟨-, rfl⟩ := Nat.eq_zero_of_add_eq_zero (show x.row + j = 0 from hrow)
    exact hx ((Node.up_zero x).symm.trans he)
  by_cases hex : ∃ j, (x.up j).IsRoot slots.length
  · obtain ⟨j, hj⟩ := hex
    refine (treeBelow_up stageRoot_apart ((hiff j).mpr hj)).trans ?_
    refine Eq.trans ?_ (treeBelow_up (forest hnd).apart hj).symm
    rw [nodeTree_append ((Nat.le_div_iff_mul_le (Nat.two_pow_pos _)).mp hj.inForest)]
  · rw [(stage hnd' slots.length 0).outside, (forest hnd).outside]
    · rintro r hr ⟨j, rfl⟩
      exact hex ⟨j, hr⟩
    · rintro r hr ⟨j, rfl⟩
      exact hex ⟨j, (hiff j).mp hr⟩

theorem ofSlots_congr {R' : Node → Prop} (hR : ∀ {x y}, R x → R y → x.Above y → x = y)
    (hR' : ∀ {x y}, R' x → R' y → x.Above y → x = y) (h : ∀ x, R x ↔ R' x) :
    ofSlots F R hR hnd = ofSlots F R' hR' hnd := by
  obtain rfl : R = R' := funext fun x => propext (h x)
  rfl

/-- The last stage is the grown forest. -/
theorem stage_last {k : Nat} (hn : F.length = n + 1) (hl : LowOnes n k)
    (hb : n.testBit k = false) : stage hnd n k = forest hnd := by
  refine ofSlots_congr hnd stageRoot_apart (forest hnd).apart fun x => ?_
  rw [forest_root, hn]
  constructor
  · rintro (rfl | ⟨hr, hle⟩)
    · rw [← rootAt_succ_self hl hb]
      exact Node.rootAt_isRoot (hl.testBit_succ_self hb)
    · obtain ⟨hbit, hxr⟩ := Node.isRoot_iff_rootAt.mp hr
      have hlt : k < x.row := by
        refine Nat.lt_of_le_of_ne hle ?_
        rintro rfl
        rw [hb] at hbit
        cases hbit
      refine Node.isRoot_iff_rootAt.mpr ⟨?_, ?_⟩
      · rw [hl.testBit_succ_of_lt hb hlt]
        exact hbit
      · rwa [rootAt_succ_of_lt hl hb hlt]
  · intro hx
    obtain ⟨hbit, hxr⟩ := Node.isRoot_iff_rootAt.mp hx
    rcases Nat.lt_trichotomy x.row k with hlt | heq | hgt
    · rw [hl.testBit_succ_of_gt hb hlt] at hbit
      cases hbit
    · rw [hxr, heq, rootAt_succ_self hl hb]
      exact Or.inl rfl
    · rw [rootAt_succ_of_lt hl hb hgt] at hxr
      rw [hl.testBit_succ_of_lt hb hgt] at hbit
      exact Or.inr ⟨Node.isRoot_iff_rootAt.mpr ⟨hbit, hxr⟩, Nat.le_of_lt hgt⟩

end

end Layout

end Merkle
