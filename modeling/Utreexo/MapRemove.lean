import Utreexo.NodeMoves

/-! # Removing a node, seen on the nodes

What `removeSingle` does to a MapPollard: below a root that is removed everything goes, and
otherwise the sibling moves up with what is below it, the hashes above are written anew, and
the pairs above are pruned.
-/
namespace Utreexo
open Merkle

namespace MapPollard
variable {H : Type} {t x : Node} {N : NodeMap H} {K : LeafMap H}

/-! ### Hashes above a node -/

/-- The `j` nodes above get their new hashes, where they are kept. -/
def rehashUp (V : Node → H) : Nat → Node → NodeMap H → NodeMap H
  | 0, _, N => N
  | j + 1, x, N => rehashUp V j x.parent fun z =>
    if z = x.parent ∧ N z ≠ none then some ⟨V z, false⟩ else N z

theorem rehashUp_of_ne {V : Node → H} {z : Node} (j : Nat) (h : ∀ i, z ≠ x.up (i + 1)) :
    rehashUp V j x N z = N z := by
  induction j generalizing x N with
  | zero => rfl
  | succ j ih =>
    rw [rehashUp, ih fun i => by rw [Node.parent_up]; exact h (i + 1)]
    have h0 := h 0
    rw [Node.up_one] at h0
    exact if_neg fun hz => h0 hz.1

theorem rehashUp_up {V : Node → H} {i j : Nat} (hi : i < j) :
    rehashUp V j x N (x.up (i + 1)) =
      (N (x.up (i + 1))).map fun _ => (⟨V (x.up (i + 1)), false⟩ : Leaf H) := by
  induction j generalizing x N i with
  | zero => omega
  | succ j ih =>
    rw [rehashUp]
    cases i with
    | zero =>
      rw [Node.up_one, rehashUp_of_ne j fun i he => by
        have := congrArg Node.row he
        rw [Node.up_row] at this
        omega]
      cases N x.parent with
      | none => exact if_neg fun h => h.2 rfl
      | some l => exact if_pos ⟨rfl, Option.some_ne_none l⟩
    | succ i =>
      rw [← Node.parent_up, ih (by omega), if_neg fun h => ?_]
      have := congrArg Node.row h.1
      rw [Node.up_row] at this
      omega

theorem rehashUp_none {V : Node → H} {z : Node} (j : Nat) (h : N z = none) :
    rehashUp V j x N z = none := by
  induction j generalizing x N with
  | zero => exact h
  | succ j ih => exact ih ((if_neg fun hz => hz.2 h).trans h)

/-- The hashes of the path, from the kept siblings. -/
structure Rehash [HashOps H] (V : Node → H) (N : NodeMap H) (x : Node) : Prop where
  sibling : ∃ l, N x.sibling = some l ∧ l.hash = V x.sibling
  parent : V x.parent = if x.isRight then parentHash (V x.sibling) (V x)
    else parentHash (V x) (V x.sibling)

section
variable [DecidableEq H] [HashOps H] {T n : Nat} (hT : T ≤ 63)
include hT

omit [DecidableEq H] [HashOps H] in
/-- The parent of the top is past all positions. -/
theorem parent_nodePos_top (hx : Fits T x) (hge : T ≤ x.row) :
    parent (nodePos T x) T = 2 ^ (T + 1) - 1 := by
  have hpow : 2 ^ T < 2 ^ 64 := Nat.pow_lt_pow_right (by omega) (by omega)
  have htwo : 2 ^ (T + 1) = 2 ^ T * 2 := Nat.pow_succ ..
  have hval : nodePos T x >>> 1 = 2 ^ T - 1 := by
    have hrow : T + 1 - x.row = 1 := by have := hx.1; omega
    have hoff := hx.2
    rw [show T - x.row = 0 by omega] at hoff
    rw [nodePos, Nat.shiftRight_eq_div_pow, hrow]
    omega
  have hor := Nat.two_pow_add_eq_or_of_lt (Nat.sub_one_lt_of_lt (Nat.two_pow_pos T)) 1
  rw [Nat.mul_one] at hor
  rw [parent, hval, shl64_of_lt (by rwa [Nat.one_mul]), Nat.one_mul, Nat.or_comm, ← hor]
  omega

/-- Above a root there is nothing to write. -/
theorem updateHashesLoop_above {fuel : Nat} {m : MapPollard H} (hm : m.Sees T n N K)
    {row pos : Nat} {hash : H} (hrow : T + 1 - row < fuel)
    (hpos : T < row ∨ ∃ x : Node, x.row = row ∧ Fits T x ∧ nodePos T x = pos ∧
      ∀ i, N (x.up (i + 1)) = none) :
    ∃ m', updateHashesLoop fuel row pos hash m = .ok m' ∧ m'.Sees T n N K := by
  induction fuel generalizing row pos hash with
  | zero => omega
  | succ fuel ih =>
    unfold updateHashesLoop
    rw [hm.totalRows]
    by_cases hle : row ≤ T
    · rw [if_pos hle]
      dsimp only
      obtain ⟨x, hxr, hx, hxp, hnone⟩ := hpos.resolve_left (Nat.not_lt.mpr hle)
      subst hxp hxr
      have hless : T + 1 - (x.row + 1) < fuel := by omega
      -- The next position is a node above, or past the last one.
      have hnext : (T < x.row + 1 ∨ ∃ y : Node, y.row = x.row + 1 ∧ Fits T y ∧
          nodePos T y = parent (nodePos T x) T ∧ ∀ i, N (y.up (i + 1)) = none) ∧
          parent (nodePos T x) T ∉ m.nodes := by
        rcases Nat.lt_or_ge x.row T with hlt | hge
        · have hp := hx.parent hlt
          rw [parent_nodePos hT hx hlt]
          refine ⟨Or.inr ⟨x.parent, rfl, hp, rfl, fun i => ?_⟩, fun hin => ?_⟩
          · rw [Node.parent_up]
            exact hnone (i + 1)
          · refine (hm.mem_nodes hp).mp hin ?_
            rw [← Node.up_one]
            exact hnone 0
        · refine ⟨Or.inl (by omega), fun hin => ?_⟩
          obtain ⟨y, hy, he⟩ := hm.keys _ hin
          have hlt := hy.pos_lt_max
          rw [he, parent_nodePos_top hT hx hge] at hlt
          exact Nat.lt_irrefl _ hlt
      rw [if_neg hnext.2]
      split
      · exact ⟨m, rfl, hm⟩
      · rw [add8_one (Nat.le_trans hle (Nat.le_succ_of_le hT))]
        exact ih hless hnext.1
    · rw [if_neg hle]
      exact ⟨m, rfl, hm⟩

variable (hn : n ≤ 2 ^ T)
include hn

/-- One step to the parent. -/
theorem updateHashesLoop_step {V : Node → H} (fuel : Nat) {m : MapPollard H}
    (hm : m.Sees T n N K) (hp : x.parent.InForest n) (hV : Rehash V N x) :
    ∃ m', m'.Sees T n (fun z => if z = x.parent ∧ N z ≠ none then some ⟨V z, false⟩ else N z) K ∧
      updateHashesLoop (fuel + 1) x.row (nodePos T x) (V x) m =
        if isRootPositionTotalRows (nodePos T x.parent) n T then .ok m'
        else updateHashesLoop fuel x.parent.row (nodePos T x.parent) (V x.parent) m' := by
  have hpf := fits_of_inForest hn hp
  have hrow : x.row < T := hpf.1
  have hx : Fits T x := Fits.child hpf
  obtain ⟨l, hl, hlh⟩ := hV.sibling
  have hsib : (m.node (nodePos T x.sibling)).hash = V x.sibling := by
    rw [hm.node (hx.sibling hrow), hl, ← hlh]
    rfl
  have hhash : (if isLeftNiece (nodePos T x) then parentHash (V x) (V x.sibling)
      else parentHash (V x.sibling) (V x)) = V x.parent := by
    rw [isLeftNiece_nodePos hx, hV.parent, Node.isRight]
    rcases Nat.mod_two_eq_zero_or_one x.off with h | h <;> simp [h]
  refine ⟨if nodePos T x.parent ∈ m.nodes then m.setNode (nodePos T x.parent) ⟨V x.parent, false⟩
    else m, ?_, ?_⟩
  · by_cases hin : N x.parent = none
    · rw [if_neg fun h => (hm.mem_nodes hpf).mp h hin]
      convert hm using 1
      funext z
      refine if_neg fun h => h.2 ?_
      rw [h.1, hin]
    · rw [if_pos ((hm.mem_nodes hpf).mpr hin)]
      convert hm.setNode hpf ⟨V x.parent, false⟩ using 1
      funext z
      by_cases hz : z = x.parent
      · subst hz
        rw [if_pos ⟨rfl, hin⟩, Function.update_self]
      · rw [if_neg fun h => hz h.1, Function.update_of_ne hz]
  · have hsame : ∀ m1 : MapPollard H, (if nodePos T x.parent ∈ m.nodes then m.setNode
        (nodePos T x.parent) ⟨V x.parent, false⟩ else m) = m1 → m1.numLeaves = n ∧
          m1.totalRows = T := by
      rintro m1 rfl
      split
      · exact ⟨hm.numLeaves, hm.totalRows⟩
      · exact ⟨hm.numLeaves, hm.totalRows⟩
    rw [updateHashesLoop, hm.totalRows, if_pos (Nat.le_of_lt hrow)]
    dsimp only
    rw [sibling_nodePos hx, hsib, hhash, parent_nodePos hT hx hrow, (hsame _ rfl).1,
      (hsame _ rfl).2, add8_one (by omega)]
    rfl

theorem updateHashesLoop_sees {V : Node → H} (j : Nat) :
    ∀ {fuel : Nat} {x : Node} {m : MapPollard H} {N : NodeMap H}, m.Sees T n N K →
      (x.up (j + 1)).IsRoot n → (∀ i ≤ j, Rehash V N (x.up i)) → T + 1 - x.row < fuel →
      ∃ m', updateHashesLoop fuel x.row (nodePos T x) (V x) m = .ok m' ∧
        m'.Sees T n (rehashUp V (j + 1) x N) K := by
  induction j with
  | zero =>
    intro fuel x m N hm hroot hV hfuel
    obtain ⟨fuel, rfl⟩ : ∃ f, fuel = f + 1 := ⟨fuel - 1, by omega⟩
    rw [Node.up_one] at hroot
    have hV0 := hV 0 (Nat.le_refl 0)
    rw [Node.up_zero] at hV0
    obtain ⟨m1, hs1, h1⟩ := updateHashesLoop_step hT hn fuel hm hroot.inForest hV0
    refine ⟨m1, ?_, hs1⟩
    rw [h1, if_pos ((isRootPositionTotalRows_nodePos hT hn hroot.inForest).mpr hroot)]
  | succ j ih =>
    intro fuel x m N hm hroot hV hfuel
    obtain ⟨fuel, rfl⟩ : ∃ f, fuel = f + 1 := ⟨fuel - 1, by omega⟩
    rw [← Node.parent_up] at hroot
    have hpp : x.parent.parent.InForest n := by
      rw [← Node.up_one]
      exact Node.Above.inForest ⟨j, by rw [← Node.up_add, Nat.add_comm]⟩ hroot.inForest
    have hp := Node.inForest_of_parent hpp
    have hV0 := hV 0 (Nat.zero_le _)
    rw [Node.up_zero] at hV0
    obtain ⟨m1, hs1, h1⟩ := updateHashesLoop_step hT hn fuel hm hp hV0
    have hrow : x.row < T := (fits_of_inForest hn hp).1
    -- The siblings of the path are not on the path.
    have hV1 : ∀ i ≤ j, Rehash V
        (fun z => if z = x.parent ∧ N z ≠ none then some ⟨V z, false⟩ else N z)
        (x.parent.up i) := by
      intro i hi
      have hVi := hV (i + 1) (by omega)
      rw [← Node.parent_up] at hVi
      refine ⟨?_, hVi.parent⟩
      rw [if_neg fun h => ?_]
      · exact hVi.sibling
      · have hr := congrArg Node.row h.1
        rw [Node.sibling_row, Node.up_row] at hr
        obtain rfl : i = 0 := by omega
        rw [Node.up_zero] at h
        exact Node.sibling_ne _ h.1
    have hless : T + 1 - x.parent.row < fuel := by
      rw [Node.parent_row]
      omega
    obtain ⟨m2, h2, hs2⟩ := ih hs1 hroot hV1 hless
    refine ⟨m2, ?_, hs2⟩
    rw [h1, if_neg fun h => Node.not_isRoot_of_parent hpp
      ((isRootPositionTotalRows_nodePos hT hn hp).mp h)]
    exact h2

theorem Sees.updateHashes {V : Node → H} {m : MapPollard H} {j : Nat} (hm : m.Sees T n N K)
    (hroot : (t.up (j + 1)).IsRoot n) (hV : ∀ i < j, Rehash V N (t.parent.up i))
    (hout : ∀ z, N z ≠ none → z.InForest n) :
    ∃ m', m.updateHashes (nodePos T t) (V t.parent) = .ok m' ∧
      m'.Sees T n (rehashUp V j t.parent N) K := by
  have hp : t.parent.InForest n := by
    rw [← Node.parent_up] at hroot
    exact Node.inForest_of_up hroot.inForest
  have hpf := fits_of_inForest hn hp
  unfold MapPollard.updateHashes
  dsimp only
  rw [hm.totalRows, parent_nodePos hT (Fits.child hpf) hpf.1, detectRow_nodePos hT hpf]
  cases j with
  | zero =>
    rw [Node.up_one] at hroot
    refine updateHashesLoop_above hT hm (by omega) (Or.inr ⟨t.parent, rfl, hpf, rfl, fun i => ?_⟩)
    by_contra hne
    -- A node above a root is not in the forest.
    have hin := hout _ hne
    rw [← Node.parent_up] at hin
    exact Node.not_isRoot_of_parent (Node.inForest_of_up hin) hroot
  | succ j =>
    rw [← Node.parent_up] at hroot
    exact updateHashesLoop_sees hT hn j hm hroot (fun i hi => hV i (by omega)) (by omega)

end

/-! ### The sibling moves up -/

/-- The nodes once the node `t` is gone: below its parent is what was below its sibling. -/
def raised (t : Node) (N : NodeMap H) : NodeMap H := fun z =>
  if t.parent.Above z then (if 0 < z.row then N (Node.lower t z) else none) else N z

def raisedLeaves (t : Node) (K : LeafMap H) : LeafMap H := fun h =>
  (K h).map fun x => if t.sibling.Above x then Node.raise t x else x

/-- What a removed node leaves behind before anything below the sibling is moved. -/
def siblingUp (t : Node) (node : Leaf H) (N : NodeMap H) : NodeMap H :=
  Function.update (Function.update (Function.update (cutBelow t N) t none) t.sibling none)
    t.parent (some node)

theorem siblingUp_of_not_below {node : Leaf H} {z : Node} (ht : ¬ t.Above z) (hs : z ≠ t.sibling)
    (hp : z ≠ t.parent) : siblingUp t node N z = N z := by
  have hzt : z ≠ t := by
    rintro rfl
    exact ht (Node.Above.refl z)
  rw [siblingUp, Function.update_of_ne hp, Function.update_of_ne hs, Function.update_of_ne hzt,
    cutBelow, if_neg fun h => ht h.1]

theorem siblingUp_of_moving {node : Leaf H} {w : Node} (hw : Moving t w) :
    siblingUp t node N w = N w := by
  refine siblingUp_of_not_below hw.not_above hw.2 ?_
  rintro rfl
  have hle := hw.1.row_le
  rw [Node.parent_row, Node.sibling_row] at hle
  omega

theorem movedNodes_siblingUp {node : Leaf H} (hnode : N t.sibling = some node) :
    movedNodes t {w | Moving t w} (siblingUp t node N) = raised t N := by
  classical
  have hne : t.sibling ≠ t.parent := fun he => by
    have := congrArg Node.row he
    rw [Node.sibling_row, Node.parent_row] at this
    omega
  funext z
  unfold movedNodes raised
  by_cases hz : t.parent.Above z
  · rw [if_pos hz]
    by_cases hzp : z = t.parent
    · -- The parent gets the sibling itself.
      subst hzp
      rw [if_pos (show 0 < t.parent.row from Nat.succ_pos _), Node.lower_parent_self,
        if_neg fun h => h.2.2.2 rfl, Option.none_or, if_neg, siblingUp, Function.update_self, hnode]
      intro h
      have hle := h.1.row_le
      rw [Node.parent_row, Node.sibling_row] at hle
      omega
    · have hrest : (if z ∈ {w | Moving t w} then none else siblingUp t node N z) = none := by
        by_cases hm : Moving t z
        · exact if_pos hm
        · refine (if_neg hm).trans ?_
          rw [siblingUp, Function.update_of_ne hzp]
          by_cases hzs : z = t.sibling
          · rw [hzs, Function.update_self]
          · rw [Function.update_of_ne hzs]
            have habove : t.Above z :=
              (Node.Above.of_parent hz (Ne.symm hzp)).resolve_right fun h => hm ⟨h, hzs⟩
            by_cases hzt : z = t
            · rw [hzt, Function.update_self]
            · rw [Function.update_of_ne hzt, cutBelow, if_pos ⟨habove, hzt⟩]
      rw [hrest, Option.or_none]
      by_cases h0 : 0 < z.row
      · have hle := hz.row_le
        rw [Node.parent_row] at hle
        have hmove : Moving t (Node.lower t z) :=
          ⟨Node.sibling_above_lower hle h0, Node.lower_ne_sibling hz hzp h0⟩
        rw [if_pos ⟨h0, hz, hmove⟩, if_pos h0, siblingUp_of_moving hmove]
      · rw [if_neg fun h => h0 h.1, if_neg h0]
  · have hzt : ¬ t.Above z := fun h => hz ((Node.parent_above t).trans h)
    have hzs : ¬ t.sibling.Above z := fun h => hz (Node.parent_above_of_sibling h)
    rw [if_neg hz, if_neg fun h => hz h.2.1, Option.none_or, if_neg fun h => hzs h.1,
      siblingUp_of_not_below hzt]
    · rintro rfl
      exact hzs (Node.Above.refl _)
    · rintro rfl
      exact hz (Node.Above.refl _)

theorem LeavesAgree.siblingUp [DecidableEq H] {node : Leaf H}
    (hK : LeavesAgree (fun x => t.sibling.Above x) N K) (hnode : N t.sibling = some node) :
    LeavesAgree (Moving t) (siblingUp t node N) (K.move node.hash t.parent) := by
  have hpar : ¬ Moving t t.parent := fun h => by
    have hle := h.1.row_le
    rw [Node.parent_row, Node.sibling_row] at hle
    omega
  constructor
  · intro h x hx hmove
    rw [siblingUp_of_moving hmove]
    unfold LeafMap.move at hx
    split at hx
    · obtain ⟨y, -, rfl⟩ := Option.map_eq_some_iff.mp hx
      exact absurd hmove hpar
    · exact hK.node h x hx hmove.1
  · intro w l hmove hl x hx
    rw [siblingUp_of_moving hmove] at hl
    unfold LeafMap.move at hx
    split at hx
    · next he =>
      obtain ⟨y, hy, -⟩ := Option.map_eq_some_iff.mp hx
      have h1 := hK.leaf w l hmove.1 hl y hy
      have h2 := hK.leaf _ node (Node.Above.refl _) hnode y (he ▸ hy)
      exact absurd (h1.symm.trans h2) hmove.2
    · exact hK.leaf w l hmove.1 hl x hx

theorem movedLeaves_move [DecidableEq H] {node : Leaf H}
    (hK : LeavesAgree (fun x => t.sibling.Above x) N K) (hnode : N t.sibling = some node) :
    movedLeaves t {w | Moving t w} (K.move node.hash t.parent) = raisedLeaves t K := by
  classical
  funext h
  unfold movedLeaves raisedLeaves LeafMap.move
  cases hx : K h with
  | none => simp
  | some x =>
    by_cases hh : h = node.hash
    · obtain rfl := hK.leaf _ node (Node.Above.refl _) hnode x (hh ▸ hx)
      have hpar : t.parent ∉ {w | Moving t w} := fun h => by
        have hle := h.1.row_le
        rw [Node.parent_row, Node.sibling_row] at hle
        omega
      rw [if_pos hh, Option.map_some, Option.map_some, Option.map_some, if_neg hpar,
        if_pos (Node.Above.refl _), Node.raise_self]
    · have hne : x ≠ t.sibling := by
        rintro rfl
        obtain ⟨l, hl, hlh⟩ := hK.node h _ hx (Node.Above.refl _)
        rw [hnode] at hl
        cases hl
        exact hh hlh.symm
      rw [if_neg hh, Option.map_some, Option.map_some]
      have hiff : x ∈ {w | Moving t w} ↔ t.sibling.Above x :=
        ⟨fun h => h.1, fun h => ⟨h, hne⟩⟩
      rw [if_congr hiff rfl rfl]

section
variable [DecidableEq H] [HashOps H] {T n : Nat} (hT : T ≤ 63)
include hT

theorem Sees.moveUpSibling (ht : Fits T t) (hrow : t.row < T) {m : MapPollard H}
    (hm : m.Sees T n (Function.update (cutBelow t N) t none) K) {node : Leaf H}
    (hnode : N t.sibling = some node) (hK : LeavesAgree (fun x => t.sibling.Above x) N K) :
    ∃ m', m.moveUpSibling (nodePos T t) = (m', .ok node.hash) ∧
      m'.Sees T n (raised t N) (raisedLeaves t K) := by
  have hsib := ht.sibling hrow
  have hnab : ¬ t.Above t.sibling := fun h => Node.sibling_ne t (h.eq_of_row_eq rfl).symm
  have hlook : m.nodes.lookup (nodePos T t.sibling) = some node := by
    rw [hm.nodes _ hsib, Function.update_of_ne (Node.sibling_ne t), cutBelow,
      if_neg fun h => hnab h.1, hnode]
  have hs1 := (((hm.dropNode hsib).setNode (ht.parent hrow) node).moveCached node.hash t.parent)
  have hcut : ∀ z, t.Above z → z ≠ t → siblingUp t node N z = none := by
    intro z hz hne
    have hzp : z ≠ t.parent := by
      rintro rfl
      have hle := hz.row_le
      rw [Node.parent_row] at hle
      omega
    have hzs : z ≠ t.sibling := by
      rintro rfl
      exact hnab hz
    rw [siblingUp, Function.update_of_ne hzp, Function.update_of_ne hzs, Function.update_of_ne hne,
      cutBelow, if_pos ⟨hz, hne⟩]
  obtain ⟨m', h1, hs⟩ := hs1.moveUpDescendants hT ht hrow (hK.siblingUp hnode) hcut
  rw [movedNodes_siblingUp hnode, movedLeaves_move hK hnode] at hs
  refine ⟨m', ?_, hs⟩
  unfold MapPollard.moveUpSibling
  unfold MapPollard.moveCached at h1
  rw [sibling_nodePos ht, hlook, hm.totalRows, parent_nodePos hT ht hrow]
  dsimp only
  rw [((hm.dropNode hsib).setNode (ht.parent hrow) node).totalRows,
    calcNextPosition_nodePos hT ht hrow (Node.Above.refl _), Node.raise_self]
  dsimp only
  split
  · next hin =>
    rw [if_pos hin] at h1
    rw [h1]
    rfl
  · next hin =>
    rw [if_neg hin] at h1
    rw [h1]
    rfl

variable (hn : n ≤ 2 ^ T) {m : MapPollard H} (hm : m.Sees T n N K)
include hn hm

theorem Sees.removeSingle_root (ht : t.IsRoot n) :
    ∃ m', m.removeSingle (nodePos T t) = .ok (m', .ok ()) ∧
      m'.Sees T n (Function.update (cutBelow t N) t (some ⟨empty, false⟩)) K := by
  have hfit := fits_of_inForest hn ht.inForest
  obtain ⟨m1, h1, hs1⟩ := hm.forgetBelow hT hfit
  refine ⟨_, ?_, hs1.setNode hfit ⟨empty, false⟩⟩
  unfold MapPollard.removeSingle
  rw [h1, Exec.ok_bind, hs1.numLeaves, hs1.totalRows,
    if_pos ((isRootPositionTotalRows_nodePos hT hn ht.inForest).mpr ht)]

/-- **A node below a root is removed.** -/
theorem Sees.removeSingle_below {j : Nat} (hroot : (t.up (j + 1)).IsRoot n) {node : Leaf H}
    (hnode : N t.sibling = some node) (hK : LeavesAgree (fun x => t.sibling.Above x) N K)
    (hout : ∀ z, N z ≠ none → z.InForest n) {V : Node → H} (hVp : V t.parent = node.hash)
    (hV : ∀ i < j, Rehash V (raised t N) (t.parent.up i)) :
    ∃ m', m.removeSingle (nodePos T t) = .ok (m', .ok ()) ∧
      m'.Sees T n (pruneUp j t (rehashUp V j t.parent (raised t N))) (raisedLeaves t K) := by
  have hin : t.InForest n := Node.inForest_of_up hroot.inForest
  have hpar : t.parent.InForest n := by
    have hup := hroot.inForest
    rw [← Node.parent_up] at hup
    exact Node.inForest_of_up hup
  have hnot : ¬ t.IsRoot n := fun hr => Node.not_isRoot_of_parent hpar hr
  have ht := fits_of_inForest hn hin
  have hrow : t.row < T := (fits_of_inForest hn hpar).1
  obtain ⟨m1, h1, hs1⟩ := hm.forgetBelow hT ht
  obtain ⟨m2, h2, hs2⟩ := (hs1.dropNode ht).moveUpSibling hT ht hrow hnode hK
  have hout' : ∀ z, raised t N z ≠ none → z.InForest n := by
    intro z hz
    unfold raised at hz
    split at hz
    · next ha => exact ha.inForest hpar
    · exact hout z hz
  obtain ⟨m3, h3, hs3⟩ := Sees.updateHashes hT hn hs2 hroot hV hout'
  obtain ⟨m4, h4, hs4⟩ := hs3.forgetUnneededDel hT hn hroot
  refine ⟨m4, ?_, hs4⟩
  unfold MapPollard.removeSingle
  rw [h1, Exec.ok_bind, hs1.numLeaves, hs1.totalRows,
    if_neg fun hr => hnot ((isRootPositionTotalRows_nodePos hT hn hin).mp hr), h2]
  dsimp only
  rw [← hVp, h3, Exec.ok_bind, h4, Exec.ok_bind]

end

end MapPollard

end Utreexo
