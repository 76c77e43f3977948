import Utreexo.MapSound

/-! # Adding a leaf keeps a MapPollard sound

`addSingle` places the leaf as a root of its own and joins it with the roots of the lowest rows,
one after the other.  Before row `h` the MapPollard is sound for `Layout.stage n h`.  An empty
root that is passed is not taken from the map by the join, but the pruning of the pair below the
new root takes it, or what moves up overwrites it.
-/
namespace Utreexo
open Merkle

namespace MapPollard
variable {H : Type} {t : Node} {N : NodeMap H} {K : LeafMap H}

/-- The nodes after the sibling of an empty root has moved up, with the root left behind. -/
noncomputable def joinedEmpty (t : Node) (node : Leaf H) (N : NodeMap H) : NodeMap H :=
  Function.update (movedNodes t {w | Moving t w} (Function.update N t.sibling none)) t.parent
    (some node)

theorem moving_lower {z : Node} (hz : t.parent.Above z) (hne : z ≠ t.parent) (h0 : 0 < z.row) :
    Moving t (Node.lower t z) := by
  have hle := hz.row_le
  rw [Node.parent_row] at hle
  exact ⟨Node.sibling_above_lower hle h0, Node.lower_ne_sibling hz hne h0⟩

theorem joinedEmpty_of_ne {node : Leaf H} (hnode : N t.sibling = some node)
    (hcut : ∀ z, t.Above z → z ≠ t → N z = none) {z : Node} (hz : z ≠ t) :
    joinedEmpty t node N z = raised t N z := by
  classical
  by_cases hzp : z = t.parent
  · subst hzp
    rw [joinedEmpty, Function.update_self, raised, if_pos (Node.Above.refl _),
      if_pos (show 0 < t.parent.row from Nat.succ_pos _), Node.lower_parent_self, hnode]
  · rw [← movedNodes_siblingUp hnode, joinedEmpty, Function.update_of_ne hzp]
    unfold movedNodes
    -- What moves is the same, and so is what stays.
    have hmoved : ∀ w, Moving t w →
        Function.update N t.sibling none w = siblingUp t node N w := fun w hw => by
      rw [siblingUp_of_moving hw, Function.update_of_ne hw.2]
    have hstay : Function.update N t.sibling none z = siblingUp t node N z := by
      by_cases hzs : z = t.sibling
      · rw [hzs, Function.update_self, siblingUp, Function.update_of_ne, Function.update_self]
        exact fun he => hzp (hzs.trans he)
      · rw [Function.update_of_ne hzs]
        by_cases hb : t.Above z
        · rw [hcut z hb hz, siblingUp, Function.update_of_ne hzp, Function.update_of_ne hzs,
            Function.update_of_ne hz, cutBelow, if_pos ⟨hb, hz⟩]
        · rw [siblingUp_of_not_below hb hzs hzp]
    rw [hstay]
    congr 1
    by_cases hc : 0 < z.row ∧ t.parent.Above z ∧ Node.lower t z ∈ {w | Moving t w}
    · rw [if_pos hc, if_pos hc, hmoved _ hc.2.2]
    · rw [if_neg hc, if_neg hc]

theorem joinedEmpty_self {node : Leaf H} :
    joinedEmpty t node N t = raised t N t ∨
      raised t N t = none ∧ joinedEmpty t node N t = N t := by
  classical
  have htp : t ≠ t.parent := fun he => by
    have := congrArg Node.row he
    rw [Node.parent_row] at this
    omega
  have hmem : t ∉ {w | Moving t w} := fun h => Moving.not_above h (Node.Above.refl t)
  rw [joinedEmpty, Function.update_of_ne htp, raised, if_pos (Node.parent_above t)]
  unfold movedNodes
  rw [if_neg hmem, Function.update_of_ne (Node.sibling_ne t).symm]
  by_cases h0 : 0 < t.row
  · have hmove := moving_lower (Node.parent_above t) htp h0
    rw [if_pos ⟨h0, Node.parent_above t, hmove⟩, if_pos h0, Function.update_of_ne hmove.2]
    cases N (Node.lower t t) with
    | none => exact Or.inr ⟨rfl, Option.none_or⟩
    | some l => exact Or.inl rfl
  · rw [if_neg fun h => h0 h.1, if_neg h0]
    exact Or.inr ⟨rfl, Option.none_or⟩

section
variable [DecidableEq H] [HashOps H] {T n : Nat} (hT : T ≤ 63)
include hT

/-- The sibling of an empty root moves up. -/
theorem Sees.joinRoot_empty {m : MapPollard H} (hm : m.Sees T n N K) (ht : Fits T t)
    (hrow : t.row < T) {add node pNode : Leaf H} (hempty : node.hash = empty)
    (hnode : N t.sibling = some pNode) (hcut : ∀ z, t.Above z → z ≠ t → N z = none)
    (hK : LeavesAgree (fun x => t.sibling.Above x) N K)
    (hadd : K pNode.hash ≠ none → add.remember = true ∧ pNode.hash = add.hash) :
    ∃ m', joinRoot add T (nodePos T t.sibling) (nodePos T t) node pNode m = (m', .ok pNode) ∧
      (m'.setNode (nodePos T t.parent) pNode).Sees T n (joinedEmpty t pNode N)
        (raisedLeaves t K) := by
  have hsib := ht.sibling hrow
  have hparent : parent (nodePos T t.sibling) T = nodePos T t.parent := by
    rw [parent_nodePos hT hsib hrow, Node.sibling_parent]
  have hs1 := hm.dropNode hsib
  -- The leaf itself is moved in the cache if it is what moves up.
  have hs2 : (if add.remember && pNode.hash = add.hash then
      (m.dropNode (nodePos T t.sibling)).moveCached add.hash (nodePos T t.parent)
      else m.dropNode (nodePos T t.sibling)).Sees T n (Function.update N t.sibling none)
        (K.move pNode.hash t.parent) := by
    split
    · next hc =>
      obtain ⟨-, hh⟩ := Bool.and_eq_true_iff.mp hc
      rw [← of_decide_eq_true hh]
      exact hs1.moveCached _ _
    · next hc =>
      have hnone : K pNode.hash = none := by
        by_contra hne
        obtain ⟨h1, h2⟩ := hadd hne
        exact hc (by rw [h1, h2, decide_eq_true rfl]; rfl)
      convert hs1 using 1
      funext b
      unfold LeafMap.move
      split
      · next hb => rw [hb, hnone]; rfl
      · rfl
  have hagree : LeavesAgree (Moving t) (Function.update N t.sibling none)
      (K.move pNode.hash t.parent) := by
    have h := hK.siblingUp hnode
    have heq : ∀ w, Moving t w → siblingUp t pNode N w = Function.update N t.sibling none w :=
      fun w hw => by rw [siblingUp_of_moving hw, Function.update_of_ne hw.2]
    refine ⟨fun a x hx hw => ?_, fun w l hw hl => ?_⟩
    · rw [← heq x hw]
      exact h.node a x hx hw
    · rw [← heq w hw] at hl
      exact h.leaf w l hw hl
  have hcut' : ∀ z, t.Above z → z ≠ t → Function.update N t.sibling none z = none := by
    intro z hz hne
    rw [Function.update_apply, hcut z hz hne, ite_self]
  obtain ⟨m', h1, hs3⟩ := hs2.moveUpDescendants hT ht hrow hagree hcut'
  rw [movedLeaves_move hK hnode] at hs3
  refine ⟨m', ?_, hs3.setNode (ht.parent hrow) pNode⟩
  unfold joinRoot
  rw [if_pos hempty, hparent]
  dsimp only
  rw [h1]
  rfl

end

/-! ### The stages -/

section
variable [DecidableEq H] [HashOps H] {F : List (Option H)}

/-- A MapPollard in the middle of an addition, with the node on the path of the new leaf. -/
structure Adding (m : MapPollard H) (tight : Prop) (hnd : (liveLeaves F).Nodup) (T n h : Nat)
    (W C : Set H) (pNode : Leaf H) : Prop where
  view : ∃ N K, m.Sees T n N K ∧ Sound tight (Layout.stage hnd n h) W ∅ N ∧
    CachedAt (Layout.stage hnd n h) C K ∧ N ((Node.leafNode n).up h) = some pNode

variable {tight : Prop} {hnd : (liveLeaves F).Nodup} {T n h : Nat} {W C : Set H}
  {m : MapPollard H} {add pNode : Leaf H}

section
variable (hT : T ≤ 63) (hn : n + 1 ≤ 2 ^ T) (hl : LowOnes n (h + 1))
include hn hl

omit [DecidableEq H] [HashOps H] hn hl in
theorem parent_ne (t : Node) : t.parent ≠ t ∧ t.parent ≠ t.sibling := by
  constructor <;>
  · intro he
    have := congrArg Node.row he
    simp only [Node.parent_row, Node.sibling_row] at this
    omega

omit [DecidableEq H] [HashOps H] in
theorem fits_path : Fits T ((Node.leafNode n).up (h + 1)) :=
  fits_of_inForest hn (leafNode_up_inForest hl (Nat.le_refl _) (Nat.lt_succ_self n))

omit [DecidableEq H] [HashOps H] in
theorem fits_rootAt : Fits T (Node.rootAt n h) ∧ (Node.rootAt n h).row < T := by
  have hfit := fits_path hn hl
  refine ⟨Fits.child ?_, ?_⟩
  · rwa [Layout.rootAt_parent (hl.testBit_of_lt (Nat.lt_succ_self h))]
  · have := hfit.1
    rw [Node.leafNode_up_row] at this
    exact this

include hT

/-- The pair below the new root is pruned. -/
theorem Sees.pruneNieces_path {N : NodeMap H} {K : LeafMap H} (hs : m.Sees T n N K) :
    (m.pruneNieces (nodePos T (Node.rootAt n h).parent)).Sees T n
      (pruneAt (Node.rootAt n h) N) K := by
  have hb : n.testBit h = true := hl.testBit_of_lt (Nat.lt_succ_self h)
  have hleft : (Node.rootAt n h).parent.left = Node.rootAt n h :=
    Node.parent_left (Nat.mul_mod_left _ 2)
  have hp := hs.pruneNieces hT (Layout.rootAt_parent hb ▸ fits_path hn hl) (Nat.succ_pos _)
  rwa [hleft] at hp

variable {N : NodeMap H} {K : LeafMap H} (hs : m.Sees T n N K)
  (hsound : Sound tight (Layout.stage hnd n h) W ∅ N) (hK : CachedAt (Layout.stage hnd n h) C K)
  (hN : N ((Node.leafNode n).up h) = some pNode) {node : Leaf H}
  (hnode : N (Node.rootAt n h) = some node) {G : CTree H}
  (hG : nodeTree F ((Node.leafNode n).up h) = some G)
include hs hsound hK hN hnode hG

/-- Passing an empty root. -/
theorem Adding.step_empty {leaf : H → Prop} (hi : IdealHash H leaf)
    (hfine : ∀ a ∈ liveLeaves F, leaf a ∧ a ≠ empty) (hC : C ⊆ W)
    (hadd : ∀ a ∈ C, G = .leaf a → add.remember = true ∧ a = add.hash)
    (hA : nodeTree F (Node.rootAt n h) = none) :
    ∃ m' pNode', joinRoot add T (nodePos T ((Node.leafNode n).up h)) (nodePos T (Node.rootAt n h))
        node pNode m = (m', .ok pNode') ∧
      ((m'.setNode (nodePos T ((Node.leafNode n).up (h + 1))) pNode').pruneNieces
        (nodePos T ((Node.leafNode n).up (h + 1)))).Adding tight hnd T n (h + 1) W C pNode' := by
  have hb : n.testBit h = true := hl.testBit_of_lt (Nat.lt_succ_self h)
  obtain ⟨hft, hrow⟩ := fits_rootAt hn hl
  have hroot : (Layout.stage hnd n h).root (Node.rootAt n h) := Layout.stageRoot_rootAt hb
  have hp' : (Layout.stage hnd n (h + 1)).root (Node.rootAt n h).parent :=
    Layout.stageRoot_parent hb
  have htree : (Layout.stage hnd n h).tree (Node.rootAt n h) = none := by
    rw [Layout.stage_tree hnd (Layout.stageRoot_rootAt hb), hA]
  have htree' : (Layout.stage hnd n h).tree (Node.rootAt n h).sibling = some G := by
    rw [Layout.stage_tree hnd (Layout.stageRoot_sibling hb), Layout.rootAt_sibling hb, hG]
  have hempty : node.hash = empty := by rw [hsound.hash _ _ hnode, htree, hashOpt_none]
  rw [← Layout.rootAt_sibling hb] at hN ⊢
  rw [← Layout.rootAt_parent hb]
  have hps := parent_ne (Node.rootAt n h)
  have hr := Layout.stage_raising hnd hb hA W
  have hagree := hsound.leavesAgree hi (fun x a ha => hfine a (Layout.stage_leaves hnd ha)) hK hC
    fun x => (Node.rootAt n h).sibling.Above x
  -- What moves up is a cached leaf only if it is the new one.
  have hadd' : K pNode.hash ≠ none → add.remember = true ∧ pNode.hash = add.hash := by
    intro hne
    obtain ⟨x, hx⟩ := Option.ne_none_iff_exists'.mp hne
    obtain rfl := hagree.leaf _ pNode (Node.Above.refl _) hN x hx
    obtain ⟨hmem, hleaf⟩ := hK.leaf _ _ hx
    exact hadd _ hmem (Option.some.inj (htree'.symm.trans hleaf))
  have hcut : ∀ z, (Node.rootAt n h).Above z → z ≠ Node.rootAt n h → N z = none := fun z =>
    hsound.nothing_below (Layout.Inside.of_root hroot) htree
  obtain ⟨m', h1, hs1⟩ := hs.joinRoot_empty hT hft hrow hempty hN hcut hagree hadd'
  refine ⟨m', pNode, h1, ⟨_, _, hs1.pruneNieces_path hT hn hl, ?_, ?_, ?_⟩⟩
  · have hY := Sound.raise_root hr hsound (by rw [hN]; exact Option.some_ne_none _)
      (by rw [htree']; exact Option.some_ne_none _) hp'
      fun hin => Layout.not_root_of_parent hin hroot
    have hunmarked : ¬ Marked N (Node.rootAt n h) := fun hm => by
      obtain ⟨T, hT⟩ := (hsound.meets_of_marked hm).exists_tree
      rw [htree] at hT
      cases hT
    have hself : joinedEmpty (Node.rootAt n h) pNode N (Node.rootAt n h) =
        raised (Node.rootAt n h) N (Node.rootAt n h) ∨
        raised (Node.rootAt n h) N (Node.rootAt n h) = none ∧
          ¬ Marked (joinedEmpty (Node.rootAt n h) pNode N) (Node.rootAt n h) := by
      refine joinedEmpty_self.imp_right fun hstale => ⟨hstale.1, ?_⟩
      unfold Marked
      rw [hstale.2]
      exact hunmarked
    rw [hY.pruneAt_stale (Layout.Inside.of_root hp') (fun z => joinedEmpty_of_ne hN hcut) hself]
    have hpr := hY.pruneAt (Layout.Inside.of_root hp') fun _ _ => Set.notMem_empty _
    rwa [Set.empty_sdiff] at hpr
  · refine hK.raise hr htree' (Layout.Inside.of_root hroot) ?_
    rw [htree]
    exact fun _ _ => List.not_mem_nil
  · rw [← Layout.rootAt_parent hb, pruneAt_of_ne hps.1 hps.2, joinedEmpty, Function.update_self]

variable (add) in
/-- Passing a root with a tree. -/
theorem Adding.step_join (hne : ∀ a b : H, parentHash a b ≠ empty)
    (hfine : ∀ a ∈ liveLeaves F, a ≠ empty) {A : CTree H}
    (hA : nodeTree F (Node.rootAt n h) = some A) :
    ∃ m' pNode', joinRoot add T (nodePos T ((Node.leafNode n).up h)) (nodePos T (Node.rootAt n h))
        node pNode m = (m', .ok pNode') ∧
      ((m'.setNode (nodePos T ((Node.leafNode n).up (h + 1))) pNode').pruneNieces
        (nodePos T ((Node.leafNode n).up (h + 1)))).Adding tight hnd T n (h + 1) W C pNode' := by
  have hb : n.testBit h = true := hl.testBit_of_lt (Nat.lt_succ_self h)
  have hroot : (Layout.stage hnd n h).root (Node.rootAt n h) := Layout.stageRoot_rootAt hb
  have hrs : (Layout.stage hnd n h).root (Node.rootAt n h).sibling := Layout.stageRoot_sibling hb
  have hp' : (Layout.stage hnd n (h + 1)).root (Node.rootAt n h).parent :=
    Layout.stageRoot_parent hb
  have htree : (Layout.stage hnd n h).tree (Node.rootAt n h) = some A := by
    rw [Layout.stage_tree hnd (Layout.stageRoot_rootAt hb), hA]
  have htree' : (Layout.stage hnd n h).tree (Node.rootAt n h).sibling = some G := by
    rw [Layout.stage_tree hnd (Layout.stageRoot_sibling hb), Layout.rootAt_sibling hb, hG]
  obtain ⟨hjoin, hsame⟩ := Layout.stage_tree_join hnd hb hA hG
  have hpf := fits_path hn hl
  rw [← Layout.rootAt_sibling hb] at hN ⊢
  rw [← Layout.rootAt_parent hb] at hpf ⊢
  have hps := parent_ne (Node.rootAt n h)
  have hhash : hashOpt ((Layout.stage hnd n (h + 1)).tree (Node.rootAt n h).parent) =
      parentHash node.hash pNode.hash := by
    rw [hjoin, hsound.hash _ _ hnode, hsound.hash _ _ hN, htree, htree']
    rfl
  have hnempty : node.hash ≠ empty := by
    rw [hsound.hash _ _ hnode, htree, hashOpt_some]
    refine treeHash_ne_empty hne fun a ha => ?_
    have hmem : a ∈ CTree.leavesOpt ((Layout.stage hnd n h).tree (Node.rootAt n h)) := by
      rw [htree]
      exact ha
    exact hfine a (Layout.stage_leaves hnd hmem)
  refine ⟨m, ⟨parentHash node.hash pNode.hash, false⟩, ?_, ⟨_, _,
    (hs.setNode hpf _).pruneNieces_path hT hn hl, ?_, ?_, ?_⟩⟩
  · rw [joinRoot, if_neg hnempty]
  · have hj := Sound.join ⟨hroot, hrs, by rw [htree]; exact Option.some_ne_none _,
      by rw [htree']; exact Option.some_ne_none _, hp', Layout.stage_roots_succ hnd hb,
      fun a => by rw [hjoin]; exact nofun, hsame⟩ hsound
    rw [Sound.joined, hhash] at hj
    have hpr := hj.pruneAt (Layout.Inside.of_root hp') fun c hc hmem => ?_
    · rwa [Set.sdiff_self] at hpr
    · have hrow := congrArg Node.row hc
      simp only [Node.parent_row] at hrow
      rcases hmem with rfl | rfl
      · omega
      · rw [Node.sibling_row] at hrow
        omega
  · refine hK.congr fun x a _ hx => ?_
    rw [hsame, hx]
    rintro rfl
    exact Layout.not_root_of_parent (Layout.inside_of_tree hx) hroot
  · rw [← Layout.rootAt_parent hb, pruneAt_of_ne hps.1 hps.2, Function.update_self]

end

section
variable {leaf : H → Prop} (hi : IdealHash H leaf)
  (hfine : ∀ a ∈ liveLeaves F, leaf a ∧ a ≠ empty) (hT : T ≤ 63) (hn : n + 1 ≤ 2 ^ T)
  (hslot : slotAt F n = some add.hash) (hC : C ⊆ W) (hadd : add.hash ∈ C → add.remember = true)
include hi hfine hT hn hslot hC hadd

/-- One row of an addition. -/
theorem Adding.step (hl : LowOnes n (h + 1)) (hm : m.Adding tight hnd T n h W C pNode) :
    ∃ node m' pNode', m.nodes.lookup (nodePos T (Node.rootAt n h)) = some node ∧
      joinRoot add T (nodePos T ((Node.leafNode n).up h)) (nodePos T (Node.rootAt n h)) node pNode
        m = (m', .ok pNode') ∧
      ((m'.setNode (nodePos T ((Node.leafNode n).up (h + 1))) pNode').pruneNieces
        (nodePos T ((Node.leafNode n).up (h + 1)))).Adding tight hnd T n (h + 1) W C pNode' := by
  obtain ⟨N, K, hs, hsound, hK, hN⟩ := hm.view
  have hb : n.testBit h = true := hl.testBit_of_lt (Nat.lt_succ_self h)
  obtain ⟨node, hnode⟩ := Option.ne_none_iff_exists'.mp
    (hsound.roots _ (Layout.stageRoot_rootAt hb))
  have hlook : m.nodes.lookup (nodePos T (Node.rootAt n h)) = some node :=
    (hs.nodes _ (fits_rootAt hn hl).1).trans hnode
  have hmem := Layout.mem_path_tree hslot h
  cases hG : nodeTree F ((Node.leafNode n).up h) with
  | none =>
    rw [hG] at hmem
    cases hmem
  | some G =>
    rw [hG] at hmem
    cases hA : nodeTree F (Node.rootAt n h) with
    | none =>
      have hcached : ∀ a ∈ C, G = .leaf a → add.remember = true ∧ a = add.hash := by
        rintro a ha rfl
        obtain rfl := List.mem_singleton.mp hmem
        exact ⟨hadd ha, rfl⟩
      obtain ⟨m', pNode', h1, h2⟩ := Adding.step_empty hT hn hl hs hsound hK hN hnode hG hi hfine
        hC hcached hA
      exact ⟨node, m', pNode', hlook, h1, h2⟩
    | some A =>
      obtain ⟨m', pNode', h1, h2⟩ := Adding.step_join add hT hn hl hs hsound hK hN hnode
        hG hi.ne_empty (fun a ha => (hfine a ha).2) hA
      exact ⟨node, m', pNode', hlook, h1, h2⟩

/-- The loop of `addSingle`. -/
theorem Adding.loop {k : Nat} (hl : LowOnes n k) (hb : n.testBit k = false) (d : Nat) :
    ∀ {fuel h : Nat} {pNode : Leaf H} {m : MapPollard H}, h + d = k → d < fuel →
      m.Adding tight hnd T n h W C pNode →
      ∃ m' pNode', addSingleLoop add T fuel h (nodePos T ((Node.leafNode n).up h)) pNode m =
        .ok (m', .ok ()) ∧ m'.Adding tight hnd T n k W C pNode' := by
  induction d with
  | zero =>
    intro fuel h pNode m hd hf hm
    obtain ⟨fuel, rfl⟩ : ∃ f, fuel = f + 1 := ⟨fuel - 1, by omega⟩
    obtain rfl : h = k := hd
    obtain ⟨N, K, hs, -⟩ := hm.view
    refine ⟨m, pNode, ?_, hm⟩
    rw [addSingleLoop, if_neg (by rw [hs.numLeaves, shiftRight_and_one, hb]; simp)]
  | succ d ih =>
    intro fuel h pNode m hd hf hm
    obtain ⟨fuel, rfl⟩ : ∃ f, fuel = f + 1 := ⟨fuel - 1, by omega⟩
    have hl' : LowOnes n (h + 1) := hl.of_le (by omega)
    have hbit : n.testBit h = true := hl.testBit_of_lt (by omega)
    obtain ⟨N, K, hs, -⟩ := hm.view
    obtain ⟨node, m1, pNode1, hlook, h1, hm1⟩ :=
      Adding.step hi hfine hT hn hslot hC hadd hl' hm
    obtain ⟨m2, pNode2, h2, hm2⟩ := @ih fuel (h + 1) pNode1 _ (by omega) (by omega) hm1
    refine ⟨m2, pNode2, ?_, hm2⟩
    have hrootPos : rootPosition n h T = nodePos T (Node.rootAt n h) :=
      rootPosition_eq hT (by omega) (testBit_row_le (by omega) hbit)
    have hfg : Fits T ((Node.leafNode n).up h) := by
      have := fits_path hn hl'
      rw [Node.up_succ] at this
      exact Fits.child this
    have hparent : parent (nodePos T ((Node.leafNode n).up h)) T =
        nodePos T ((Node.leafNode n).up (h + 1)) := by
      have hlt := (fits_path hn hl').1
      rw [Node.leafNode_up_row] at hlt
      rw [parent_nodePos hT hfg (by rw [Node.leafNode_up_row]; omega), Node.up_succ]
    rw [addSingleLoop, if_pos (by rw [hs.numLeaves, shiftRight_and_one, hbit])]
    dsimp only
    rw [hs.numLeaves, hrootPos, hlook]
    dsimp only
    rw [h1]
    dsimp only
    rw [hparent]
    exact h2

end

end

/-! ### A whole addition -/

section
variable [DecidableEq H] [HashOps H] {tight : Prop} {slots : List (Option H)} {C : Set H}
  {m : MapPollard H}
  {leaf : H → Prop} (hi : IdealHash H leaf)
include hi

omit [HashOps H] hi in
/-- The leaf is placed, and cached if it is to be remembered. -/
theorem Sees.placeLeaf {T n : Nat} (hs : m.Sees T n N K) {g : Node} (hg : Fits T g)
    (add : Leaf H) : (m.placeLeaf add (nodePos T g)).Sees T n (Function.update N g (some add))
      (if add.remember then Function.update K add.hash (some g) else K) := by
  unfold MapPollard.placeLeaf
  dsimp only
  split
  · exact (hs.setNode hg add).setCached _ _
  · exact hs.setNode hg add

omit hi in
theorem Kept.cached_live (h : m.Kept tight slots C C) : ∀ a ∈ C, a ∈ liveLeaves slots := by
  obtain ⟨N, K, -, -, hK⟩ := h.view
  intro a ha
  obtain ⟨x, hx⟩ := Option.ne_none_iff_exists'.mp (hK.mem a ha)
  have hmem : a ∈ CTree.leavesOpt ((Layout.forest h.nodup).tree x) := by
    rw [(hK.leaf a x hx).2]
    exact List.mem_singleton_self a
  exact Layout.forest_leaves h.nodup hmem

/-- **`addSingle` adds the leaf to the pruned forest.** -/
theorem Kept.addSingle (h : m.Kept tight slots C C) {add : Leaf H}
    (hnd : (liveLeaves (slots ++ [some add.hash])).Nodup)
    (hfine : ∀ a ∈ liveLeaves (slots ++ [some add.hash]), leaf a ∧ a ≠ empty)
    (hroom : slots.length < 2 ^ 63) :
    ∃ m', m.addSingle add = .ok (m', .ok ()) ∧ m'.numLeaves = slots.length ∧
      MapPollard.Kept { m' with numLeaves := add64 m'.numLeaves 1 } tight
        (slots ++ [some add.hash])
        {a | a ∈ C ∨ add.remember = true ∧ a = add.hash}
        {a | a ∈ C ∨ add.remember = true ∧ a = add.hash} := by
  obtain ⟨N, K, hs, hsound, hK⟩ := h.view
  -- The leaf is new.
  have hnew : add.hash ∉ liveLeaves slots := by
    rw [liveLeaves, List.filterMap_append] at hnd
    exact fun hmem => List.disjoint_of_nodup_append hnd hmem (List.mem_singleton_self _)
  have hC : add.hash ∉ C := fun hmem => hnew (h.cached_live _ hmem)
  have hfits : ∀ a x, K a = some x → Fits m.totalRows x := fun a x hx =>
    fits_of_inForest h.room ((Layout.forest_inside h.nodup).mp
      (Layout.inside_of_tree (hK.leaf a x hx).2))
  obtain ⟨m1, T, hremap, hT, hn, -, hs1⟩ := hs.remap h.rows h.room hroom hfits
  obtain ⟨k, -, hl, hb⟩ := exists_lowZero (show slots.length < 2 ^ 64 by omega)
  have hk := hl.lt_sixtyFour (by omega)
  have hin : (Node.leafNode slots.length).InForest (slots.length + 1) :=
    Node.leafNode_inForest.mpr (Nat.lt_succ_self _)
  have hpos : nodePos T (Node.leafNode slots.length) = slots.length := by
    rw [nodePos, Node.leafNode]
    dsimp only
    rw [Nat.sub_zero, Nat.sub_self, Nat.zero_add]
  have hslot : slotAt (slots ++ [some add.hash]) slots.length = some add.hash := by
    rw [slotAt_eq_some, List.getElem?_append_right (Nat.le_refl _), Nat.sub_self]
    rfl
  have hout : ¬ (Layout.forest h.nodup).Inside (Node.leafNode slots.length) := fun hin =>
    Nat.lt_irrefl _ (Node.leafNode_inForest.mp ((Layout.forest_inside h.nodup).mp hin))
  have hg : Layout.stageRoot slots.length 0 (Node.leafNode slots.length) :=
    Or.inl (Node.up_zero _).symm
  have hleaf : (Layout.stage hnd slots.length 0).tree (Node.leafNode slots.length) =
      some (.leaf add.hash) := by
    rw [Layout.stage_tree hnd hg]
    simp [nodeTree, Node.leafNode, CTree.perfect, hslot]
  have hroots : ∀ z, (Layout.stage hnd slots.length 0).root z ↔
      z = Node.leafNode slots.length ∨ (Layout.forest h.nodup).root z := by
    intro z
    rw [Layout.stage_root, Layout.forest_root, Layout.stageRoot, Node.up_zero,
      and_iff_left (Nat.zero_le _)]
  have hstart : (m1.placeLeaf add slots.length).Adding tight hnd T slots.length 0
      {a | a ∈ C ∨ add.remember = true ∧ a = add.hash}
      {a | a ∈ C ∨ add.remember = true ∧ a = add.hash} add := by
    have hs2 := hs1.placeLeaf (fits_of_inForest hn hin) add
    rw [hpos] at hs2
    have hkeep : ∀ a x, K a = some x → a ∈ {a | a ∈ C ∨ add.remember = true ∧ a = add.hash} ∧
        (Layout.stage hnd slots.length 0).tree x = some (.leaf a) := by
      intro a x hx
      obtain ⟨ha, hxa⟩ := hK.leaf a x hx
      refine ⟨Or.inl ha, ?_⟩
      rw [Layout.stage_tree_zero h.nodup hnd, hxa]
      rintro rfl
      exact hout (Layout.inside_of_tree hxa)
    refine ⟨_, _, hs2, ?_, ?_, ?_⟩
    · exact hsound.plant hout hroots hleaf
        (fun z hz => Layout.stage_tree_zero h.nodup hnd hz)
        (fun z hmem => hnew (Layout.forest_leaves h.nodup hmem)) hC
    · refine ⟨fun a x hx => ?_, fun a ha => ?_⟩
      · by_cases hr : add.remember = true
        · rw [if_pos hr] at hx
          by_cases he : a = add.hash
          · subst he
            rw [Function.update_self] at hx
            cases hx
            exact ⟨Or.inr ⟨hr, rfl⟩, hleaf⟩
          · rw [Function.update_of_ne he] at hx
            exact hkeep a x hx
        · rw [if_neg hr] at hx
          exact hkeep a x hx
      · rcases ha with ha | ⟨hr, rfl⟩
        · have hne : a ≠ add.hash := by
            rintro rfl
            exact hC ha
          split
          · rw [Function.update_of_ne hne]
            exact hK.mem a ha
          · exact hK.mem a ha
        · rw [if_pos hr, Function.update_self]
          exact Option.some_ne_none _
    · rw [Node.up_zero, Function.update_self]
  obtain ⟨m2, pNode, h2, hm2⟩ := Adding.loop hi hfine hT hn hslot subset_rfl
    (fun hmem => (hmem.resolve_left hC).1) hl hb k (Nat.zero_add k) (show k < 65 by omega) hstart
  obtain ⟨N', K', hs', hsound', hK', -⟩ := hm2.view
  have hlen : (slots ++ [some add.hash]).length = slots.length + 1 := by
    rw [List.length_append, List.length_singleton]
  rw [Layout.stage_last hnd hlen hl hb] at hsound' hK'
  obtain rfl := hs'.totalRows
  refine ⟨m2, ?_, hs'.numLeaves, hnd, hT, by rwa [hlen], subset_rfl, N', K', ?_, hsound', hK'⟩
  · rw [Node.up_zero, hpos] at h2
    rw [MapPollard.addSingle, hremap]
    dsimp only
    rw [hs1.numLeaves]
    exact h2
  · have hword : add64 m2.numLeaves 1 = slots.length + 1 := by
      rw [hs'.numLeaves, add64_of_lt (by omega)]
    rw [hlen]
    exact ⟨rfl, hword, hs'.nodes, hs'.keys, hs'.fits, hs'.cached⟩

/-- The additions one after the other. -/
theorem Kept.add (adds : List (Leaf H)) :
    ∀ {m : MapPollard H} {slots : List (Option H)} {C : Set H}, m.Kept tight slots C C →
      (liveLeaves (slots ++ (adds.map Leaf.hash).map some)).Nodup →
      (∀ a ∈ liveLeaves (slots ++ (adds.map Leaf.hash).map some), leaf a ∧ a ≠ empty) →
      slots.length + adds.length ≤ 2 ^ 63 →
      ∃ m', m.add adds = .ok (m', .ok ()) ∧
        m'.Kept tight (slots ++ (adds.map Leaf.hash).map some)
          {a | a ∈ C ∨ ∃ l ∈ adds, l.remember = true ∧ a = l.hash}
          {a | a ∈ C ∨ ∃ l ∈ adds, l.remember = true ∧ a = l.hash} := by
  induction adds with
  | nil =>
    intro m slots C h _ _ _
    refine ⟨m, rfl, ?_⟩
    simpa using h
  | cons l adds ih =>
    intro m slots C h hnd hfine hroom
    have hcons : slots ++ ((l :: adds).map Leaf.hash).map some =
        slots ++ [some l.hash] ++ (adds.map Leaf.hash).map some := by
      rw [List.append_assoc]
      rfl
    rw [hcons] at hnd hfine ⊢
    rw [List.length_cons] at hroom
    have hsub : ∀ a ∈ liveLeaves (slots ++ [some l.hash]),
        a ∈ liveLeaves (slots ++ [some l.hash] ++ (adds.map Leaf.hash).map some) := by
      intro a ha
      rw [liveLeaves, List.filterMap_append]
      exact List.mem_append_left _ ha
    have hnd1 : (liveLeaves (slots ++ [some l.hash])).Nodup := by
      rw [liveLeaves, List.filterMap_append] at hnd
      exact hnd.of_append_left
    obtain ⟨m1, h1, -, hh1⟩ := h.addSingle hi hnd1 (fun a ha => hfine a (hsub a ha)) (by omega)
    obtain ⟨m2, h2, hh2⟩ := ih hh1 hnd hfine (by
      rw [List.length_append, List.length_singleton]
      omega)
    refine ⟨m2, ?_, ?_⟩
    · rw [MapPollard.add, h1, Exec.ok_bind]
      exact h2
    · have hset : {a | a ∈ {a | a ∈ C ∨ l.remember = true ∧ a = l.hash} ∨
          ∃ l ∈ adds, l.remember = true ∧ a = l.hash} =
          {a | a ∈ C ∨ ∃ l' ∈ l :: adds, l'.remember = true ∧ a = l'.hash} := by
        ext a
        simp [or_assoc]
      rwa [hset] at hh2

/-- **`Modify` keeps the pruned forest.** -/
theorem Kept.modify (h : m.Kept tight slots C C) {b : PolBlock H} (hb : b.Aimed slots)
    (hC : ∀ a ∈ b.dels, a ∈ C) (hold : ∀ a ∈ liveLeaves slots, leaf a ∧ a ≠ empty)
    (hnd : (liveLeaves (applyBlock slots b.block)).Nodup)
    (hfine : ∀ a ∈ liveLeaves (applyBlock slots b.block), leaf a ∧ a ≠ empty) :
    ∃ m', m.modify b.adds b.dels b.proof = .ok (m', .ok ()) ∧
      m'.Kept tight (applyBlock slots b.block)
        {a | (a ∈ C ∧ a ∉ b.dels) ∨ ∃ l ∈ b.adds, l.remember = true ∧ a = l.hash}
        {a | (a ∈ C ∧ a ∉ b.dels) ∨ ∃ l ∈ b.adds, l.remember = true ∧ a = l.hash} := by
  obtain ⟨m1, h1, -, hh1⟩ := h.remove hi hold hb.targets hb.distinct hC
  obtain ⟨m2, h2, hh2⟩ := Kept.add hi b.adds hh1 hnd hfine (by
    rw [length_delSlots]
    exact hb.room)
  refine ⟨m2, ?_, hh2⟩
  rw [MapPollard.modify, h1, Exec.ok_bind]
  exact h2

end

end MapPollard

end Utreexo
