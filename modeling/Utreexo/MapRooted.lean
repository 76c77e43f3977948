import Utreexo.MapRoots
import Utreexo.PollardRun

/-! # Modify fails only before it changes anything

A map in which every root of the forest is present is `Rooted`.  `Modify` keeps that, and on
such a map an addition finds every root that it looks for.  So the one error that is left is
the first one: a leaf to delete that is not cached.
-/
namespace Utreexo
open Merkle

theorem Deletable.inForest {H : Type} {slots : List (Option H)} {ys : List Node}
    {Ds : List (CTree H)} (h : Deletable slots ys Ds) : ∀ y ∈ ys, y.InForest slots.length := by
  intro y hy
  obtain ⟨D, -, hD⟩ := h.exists_placed hy
  exact placed_inForest hD

namespace MapPollard
variable {H : Type}

/-- The forest fits into the rows of the map, and its roots are there. -/
structure Rooted (m : MapPollard H) : Prop where
  rows : m.totalRows ≤ 63
  room : m.numLeaves ≤ 2 ^ m.totalRows
  roots : ∀ x : Node, x.IsRoot m.numLeaves → nodePos m.totalRows x ∈ m.nodes

/-- A call that keeps the roots keeps the map rooted. -/
theorem Rooted.keeps {m m' : MapPollard H} (h : m.Rooted)
    (hk : Keeps m.totalRows (Node.IsRoot m.numLeaves) m m') : m'.Rooted := by
  refine ⟨hk.totalRows ▸ h.rows, ?_, fun x hx => ?_⟩
  · rw [hk.totalRows, hk.numLeaves]
    exact h.room
  · rw [hk.numLeaves] at hx
    rw [hk.totalRows]
    exact hk.nodes x hx (h.roots x hx)

/-! ### Making room -/

theorem moveNode_totalRows (m : MapPollard H) (i j : Nat) :
    (m.moveNode i j).totalRows = m.totalRows := by
  unfold moveNode
  cases m.nodes.lookup i <;> rfl

theorem moveNode_numLeaves (m : MapPollard H) (i j : Nat) :
    (m.moveNode i j).numLeaves = m.numLeaves := by
  unfold moveNode
  cases m.nodes.lookup i <;> rfl

theorem moveNode_mem {m : MapPollard H} {i p : Nat} (j : Nat) (hp : p ≠ i) (hin : p ∈ m.nodes) :
    p ∈ (m.moveNode i j).nodes := by
  unfold moveNode
  cases m.nodes.lookup i with
  | none => exact hin
  | some hash => exact Finmap.mem_insert.mpr (Or.inr (Finmap.mem_erase.mpr ⟨hp, hin⟩))

theorem moveNode_mem_self {m : MapPollard H} {i : Nat} (j : Nat) (hin : i ∈ m.nodes) :
    j ∈ (m.moveNode i j).nodes := by
  obtain ⟨hash, hlook⟩ := Finmap.mem_iff.mp hin
  unfold moveNode
  rw [hlook]
  exact Finmap.mem_insert.mpr (Or.inl rfl)

theorem remapLoop_totalRows (count i j : Nat) (m : MapPollard H) :
    (remapLoop count i j m).totalRows = m.totalRows := by
  induction count generalizing i j m with
  | zero => rfl
  | succ count ih => rw [remapLoop, ih, moveNode_totalRows]

theorem remapLoop_numLeaves (count i j : Nat) (m : MapPollard H) :
    (remapLoop count i j m).numLeaves = m.numLeaves := by
  induction count generalizing i j m with
  | zero => rfl
  | succ count ih => rw [remapLoop, ih, moveNode_numLeaves]

/-- Only the nodes at the `count` positions from `i` on are moved. -/
theorem remapLoop_mem {count i j p : Nat} {m : MapPollard H} (hp : p < i ∨ i + count ≤ p)
    (hin : p ∈ m.nodes) : p ∈ (remapLoop count i j m).nodes := by
  induction count generalizing i j m with
  | zero => exact hin
  | succ count ih => exact ih (by omega) (moveNode_mem j (by omega) hin)

/-- The rows grow when the forest is one perfect tree. -/
theorem grow_cases {T n : Nat} (hn : n ≤ 2 ^ T) (h : ¬ treeRows (n + 1) ≤ T) :
    n = 2 ^ T ∧ treeRows (n + 1) = T + 1 := by
  rw [treeRows_le_iff] at h
  obtain rfl : n = 2 ^ T := by omega
  refine ⟨rfl, Nat.le_antisymm (treeRows_le_iff.mpr ?_) (Nat.lt_of_not_le fun hle => ?_)⟩
  · have := Nat.two_pow_pos T
    rw [Nat.pow_succ]
    omega
  · rw [treeRows_le_iff] at hle
    omega

section
variable {T : Nat} (hT : T < 63)
include hT

/-- The nodes of a perfect tree on row `h`. -/
theorem remapRows_cons {m : MapPollard H} (hm : m.totalRows = T) (hm' : m.numLeaves = 2 ^ T)
    {h : Nat} (hh : h ≤ T) (nextRows : Nat) (rows : List Nat) :
    remapRows nextRows (h :: rows) m = remapRows nextRows rows
      (remapLoop (2 ^ (T - h)) (nodePos T ⟨h, 0⟩) (startPositionAtRow h nextRows) m) := by
  have hdiv : 2 ^ T / 2 ^ h = 2 ^ (T - h) := Nat.pow_div hh (by omega)
  have hpos := Nat.two_pow_pos (T - h)
  have hmax : maxPositionAtRow h T (2 ^ T) = .ok (nodePos T ⟨h, 2 ^ (T - h)⟩ - 1) := by
    rw [maxPositionAtRow, parentMany_eq (by omega) hh (div_pow_lt (Nat.le_refl _) hh), hdiv]
    have hne : nodePos T ⟨h, 2 ^ (T - h)⟩ ≠ 0 := by
      unfold nodePos
      dsimp only
      omega
    simp only [bind, Except.bind, if_pos hne]
  have hstart : startPositionAtRow h T = nodePos T ⟨h, 0⟩ := startPositionAtRow_eq (by omega) hh
  have hcount : nodePos T ⟨h, 2 ^ (T - h)⟩ - 1 + 1 - nodePos T ⟨h, 0⟩ = 2 ^ (T - h) := by
    unfold nodePos
    dsimp only
    omega
  rw [remapRows, hm, hm', hmax, hstart]
  dsimp only
  rw [hcount]

/-- The top of the tree is moved last. -/
theorem remapRows_top (rows : List Nat) (hrows : ∀ h ∈ rows, h < T) {m : MapPollard H}
    (hm : m.totalRows = T) (hm' : m.numLeaves = 2 ^ T) (htop : nodePos T ⟨T, 0⟩ ∈ m.nodes) :
    ∃ m', remapRows (T + 1) (rows ++ [T]) m = (m', .ok ()) ∧ m'.totalRows = T ∧
      m'.numLeaves = 2 ^ T ∧ nodePos (T + 1) ⟨T, 0⟩ ∈ m'.nodes := by
  induction rows generalizing m with
  | nil =>
    have hj : startPositionAtRow T (T + 1) = nodePos (T + 1) ⟨T, 0⟩ :=
      startPositionAtRow_eq (by omega) (by omega)
    refine ⟨m.moveNode (nodePos T ⟨T, 0⟩) (nodePos (T + 1) ⟨T, 0⟩), ?_,
      (moveNode_totalRows ..).trans hm, (moveNode_numLeaves ..).trans hm', moveNode_mem_self _ htop⟩
    rw [List.nil_append, remapRows_cons hT hm hm' (Nat.le_refl T), Nat.sub_self, hj]
    rfl
  | cons h rows ih =>
    obtain ⟨hh, hrows⟩ := List.forall_mem_cons.mp hrows
    have hspan := Fits.row_span (Nat.le_of_lt hh)
    have hle : 2 ^ (T + 1 - T) ≤ 2 ^ (T - h) := Nat.pow_le_pow_right (by omega) (by omega)
    rw [List.cons_append, remapRows_cons hT hm hm' (Nat.le_of_lt hh)]
    refine ih hrows ((remapLoop_totalRows ..).trans hm) ((remapLoop_numLeaves ..).trans hm')
      (remapLoop_mem (Or.inr ?_) htop)
    unfold nodePos
    dsimp only
    omega

end

/-- Making room for one more leaf. -/
theorem Rooted.remap {m : MapPollard H} (h : m.Rooted) (hn : m.numLeaves < 2 ^ 63) :
    ∃ m', m.remap = (m', .ok m'.totalRows) ∧ m'.Rooted ∧ m'.numLeaves = m.numLeaves ∧
      m.numLeaves + 1 ≤ 2 ^ m'.totalRows := by
  unfold MapPollard.remap
  rw [add64_of_lt (by omega)]
  dsimp only
  by_cases hrows : treeRows (m.numLeaves + 1) ≤ m.totalRows
  · rw [if_pos hrows]
    exact ⟨m, rfl, h, rfl, treeRows_le_iff.mp hrows⟩
  · obtain ⟨hfull, hnext⟩ := grow_cases h.room hrows
    have hT : m.totalRows < 63 := by
      by_contra hge
      have : 2 ^ 63 ≤ 2 ^ m.totalRows := Nat.pow_le_pow_right (by omega) (by omega)
      omega
    have hroot : (⟨m.totalRows, 0⟩ : Node).IsRoot m.numLeaves := by
      refine ⟨?_, rfl⟩
      rw [hfull]
      exact Nat.div_self (Nat.two_pow_pos _)
    obtain ⟨m1, h1, hr1, hn1, hin1⟩ : ∃ m1, remapRows (m.totalRows + 1)
        (List.range' 1 m.totalRows) m = (m1, .ok ()) ∧ m1.totalRows = m.totalRows ∧
          m1.numLeaves = 2 ^ m.totalRows ∧
          nodePos (m.totalRows + 1) ⟨m.totalRows, 0⟩ ∈ m1.nodes := by
      have htop := h.roots _ hroot
      cases hcase : m.totalRows with
      | zero =>
        rw [hcase] at htop hfull
        exact ⟨m, rfl, hcase, hfull, htop⟩
      | succ T =>
        rw [hcase] at htop hfull hT
        rw [List.range'_concat, Nat.one_mul, Nat.add_comm 1 T]
        exact remapRows_top hT _ (fun h hh => by rw [List.mem_range'_1] at hh; omega) hcase hfull
          htop
    rw [if_neg hrows, hnext, h1]
    refine ⟨_, rfl, ⟨by show m.totalRows + 1 ≤ 63; omega, ?_, fun x hx => ?_⟩,
      hn1.trans hfull.symm, ?_⟩
    · show m1.numLeaves ≤ 2 ^ (m.totalRows + 1)
      rw [hn1]
      exact Nat.pow_le_pow_right (by omega) (by omega)
    · -- A perfect tree has one root.
      have hx' : x.IsRoot m.numLeaves := by rwa [hfull, ← hn1]
      obtain rfl : x = ⟨m.totalRows, 0⟩ := by
        refine hx'.eq_of_row_eq hroot ?_
        have hb := (Node.isRoot_iff_rootAt.mp hx').1
        rw [hfull, Nat.testBit_two_pow, decide_eq_true_iff] at hb
        exact hb.symm
      exact hin1
    · show m.numLeaves + 1 ≤ 2 ^ (m.totalRows + 1)
      have := Nat.two_pow_pos m.totalRows
      rw [hfull, Nat.pow_succ]
      omega

/-! ### Adding -/

section
variable [DecidableEq H] [HashOps H] {T : Nat} (hT : T ≤ 63)
include hT

/-- Beside a root, whatever is moved is below the parent. -/
theorem joinRoot_keeps {R : Node → Prop} (hR : ∀ x, R x → Fits T x) (add node pNode : Leaf H)
    {y : Node} (hy : Fits T y) (hrow : y.row < T)
    (hout : ∀ z, y.parent.Above z → z ≠ y.parent → ¬ R z) {m : MapPollard H}
    (hm : m.totalRows = T) :
    ∃ m' pNode', joinRoot add T (nodePos T y) (nodePos T y.sibling) node pNode m =
      (m', .ok pNode') ∧ Keeps T R m m' := by
  unfold joinRoot
  split
  · dsimp only
    have hne : y ≠ y.parent := fun h => by
      have := congrArg Node.row h
      rw [Node.parent_row] at this
      omega
    have hk1 : Keeps T R m (m.dropNode (nodePos T y)) :=
      dropNode_keeps hR hy (hout y (Node.parent_above y) hne)
    generalize hm2 : (if add.remember && pNode.hash = add.hash then
      (m.dropNode (nodePos T y)).moveCached add.hash (parent (nodePos T y) T)
      else m.dropNode (nodePos T y)) = m2
    have hk2 : Keeps T R m m2 := by
      rw [← hm2]
      split
      · exact hk1.trans (Keeps.moveCached _ _ _)
      · exact hk1
    obtain ⟨m3, h3, hk3⟩ := moveUpDescendants_keeps hT hR (hk2.totalRows.trans hm) hy hrow hout
    rw [h3]
    exact ⟨m3, pNode, rfl, hk2.trans hk3⟩
  · exact ⟨m, _, rfl, Keeps.refl m⟩

variable {n t : Nat} (hn : n + 1 ≤ 2 ^ T) (hl : LowOnes n t) (hb : n.testBit t = false)
include hn hl hb

/-- The loop of an addition from row `h` on: it passes the roots below the lowest zero of the
number of leaves, and the rows above stay as they are. -/
theorem addSingleLoop_keeps (add : Leaf H) {fuel h d : Nat} (hd : h + d = t) (hf : d < fuel)
    (pNode : Leaf H) {m : MapPollard H} (hm : m.totalRows = T) (hm' : m.numLeaves = n)
    (hroots : ∀ x : Node, x.IsRoot n → h ≤ x.row → nodePos T x ∈ m.nodes)
    (hpos : nodePos T ((Node.leafNode n).up h) ∈ m.nodes) :
    ∃ m', addSingleLoop add T fuel h (nodePos T ((Node.leafNode n).up h)) pNode m =
        .ok (m', .ok ()) ∧ m'.totalRows = T ∧ m'.numLeaves = n ∧
      (∀ x : Node, x.IsRoot n → t ≤ x.row → nodePos T x ∈ m'.nodes) ∧
      nodePos T ((Node.leafNode n).up t) ∈ m'.nodes := by
  induction d generalizing fuel h pNode m with
  | zero =>
    obtain ⟨fuel, rfl⟩ : ∃ f, fuel = f + 1 := ⟨fuel - 1, by omega⟩
    obtain rfl : h = t := hd
    rw [addSingleLoop, if_neg (by rw [hm', shiftRight_and_one, hb]; simp)]
    exact ⟨m, rfl, hm, hm', hroots, hpos⟩
  | succ d ih =>
    obtain ⟨fuel, rfl⟩ : ∃ f, fuel = f + 1 := ⟨fuel - 1, by omega⟩
    have hbit : n.testBit h = true := hl.testBit_of_lt (by omega)
    have hfit : ∀ r, r ≤ t → Fits T ((Node.leafNode n).up r) := fun r hr =>
      fits_of_inForest hn (leafNode_up_inForest hl hr (Nat.lt_succ_self n))
    have hrow : ((Node.leafNode n).up h).row < T := by
      have := (hfit (h + 1) (by omega)).1
      rw [Node.leafNode_up_row] at this ⊢
      omega
    -- The call keeps the rows above `h`.
    let R : Node → Prop := fun x => Fits T x ∧ h < x.row
    have hlow : ∀ z, ((Node.leafNode n).up h).parent.Above z →
        z ≠ ((Node.leafNode n).up h).parent → ¬ R z := by
      intro z hz hne hR
      have hle := (hz.parent_of_ne (Ne.symm hne)).row_le
      rw [Node.parent_row, Node.parent_row, Node.leafNode_up_row] at hle
      exact absurd hR.2 (by omega)
    have hsib := sibling_leafNode_up hbit
    have hrootPos : rootPosition n h T = nodePos T ((Node.leafNode n).up h).sibling := by
      rw [hsib]
      exact rootPosition_eq hT (by omega) (testBit_row_le (by omega) hbit)
    obtain ⟨node, hnode⟩ := Finmap.mem_iff.mp (hroots _ (Node.rootAt_isRoot hbit) (Nat.le_refl h))
    obtain ⟨m1, pNode', h1, hk1⟩ := joinRoot_keeps hT (fun x hx => hx.1) add node pNode
      (hfit h (by omega)) hrow hlow hm
    have hparent : parent (nodePos T ((Node.leafNode n).up h)) T =
        nodePos T ((Node.leafNode n).up (h + 1)) := by
      rw [parent_nodePos hT (hfit h (by omega)) hrow, Node.up_succ]
    have hk2 := hk1.trans (Keeps.setNode m1 (nodePos T ((Node.leafNode n).up (h + 1))) pNode')
    have hprune := pruneNieces_keeps hT (R := R) (fun x hx => hx.1) (hk2.totalRows.trans hm)
      (hfit (h + 1) (by omega)) fun z hz hR => by
        have := congrArg Node.row hz
        rw [Node.parent_row, Node.leafNode_up_row] at this
        exact absurd hR.2 (by omega)
    have hk3 := hk2.trans hprune
    have hin := hprune.nodes _ ⟨hfit (h + 1) (by omega), by rw [Node.leafNode_up_row]; omega⟩
      (Finmap.mem_insert.mpr (Or.inl rfl))
    obtain ⟨m', hrun, hres⟩ := @ih fuel (h + 1) (by omega) (by omega) pNode' _
      (hk3.totalRows.trans hm) (hk3.numLeaves.trans hm')
      (fun x hx hle => hk3.nodes x ⟨fits_of_inForest (by omega) hx.inForest, hle⟩
        (hroots x hx (by omega))) hin
    refine ⟨m', ?_, hres⟩
    rw [addSingleLoop, if_pos (by rw [hm', shiftRight_and_one, hbit])]
    dsimp only
    rw [hm', hrootPos, hsib, hnode]
    dsimp only
    rw [← hsib, h1]
    dsimp only
    rw [hparent]
    exact hrun

end

section
variable [DecidableEq H] [HashOps H] {m : MapPollard H}

omit [DecidableEq H] [HashOps H] in
/-- The roots with one more leaf. -/
theorem rooted_succ {T n t : Nat} (hT : T ≤ 63) (hn : n + 1 ≤ 2 ^ T) (hl : LowOnes n t)
    (hb : n.testBit t = false) (hm : m.totalRows = T) (hm' : m.numLeaves = n)
    (hroots : ∀ x : Node, x.IsRoot n → t ≤ x.row → nodePos T x ∈ m.nodes)
    (hpos : nodePos T ((Node.leafNode n).up t) ∈ m.nodes) :
    Rooted { m with numLeaves := add64 m.numLeaves 1 } := by
  have hword : add64 m.numLeaves 1 = n + 1 := by
    have : n + 1 < 2 ^ 64 := lt_word hT hn
    rw [hm', add64_of_lt this]
  refine ⟨hm.symm ▸ hT, ?_, fun x hx => ?_⟩
  · rw [hword, hm]
    exact hn
  · rw [hword] at hx
    rw [hm]
    obtain ⟨hbit, hxr⟩ := Node.isRoot_iff_rootAt.mp hx
    rcases Nat.lt_trichotomy x.row t with hlt | heq | hgt
    · rw [hl.testBit_succ_of_gt hb hlt] at hbit
      cases hbit
    · rw [hxr, heq, rootAt_succ_self hl hb]
      exact hpos
    · rw [rootAt_succ_of_lt hl hb hgt] at hxr
      rw [hl.testBit_succ_of_lt hb hgt] at hbit
      exact hroots x (Node.isRoot_iff_rootAt.mpr ⟨hbit, hxr⟩) (Nat.le_of_lt hgt)

theorem Rooted.addSingle (h : m.Rooted) (hn : m.numLeaves < 2 ^ 63) (leaf : Leaf H) :
    ∃ m', m.addSingle leaf = .ok (m', .ok ()) ∧ m'.numLeaves = m.numLeaves ∧
      Rooted { m' with numLeaves := add64 m'.numLeaves 1 } := by
  obtain ⟨m1, h1, hr1, hn1, hroom⟩ := h.remap hn
  rw [← hn1] at hroom
  obtain ⟨t, -, hl, hb⟩ := exists_lowZero (show m1.numLeaves < 2 ^ 64 by omega)
  have ht := hl.lt_sixtyFour (by omega)
  have hk : Keeps m1.totalRows (Node.IsRoot m1.numLeaves) m1 (m1.placeLeaf leaf m1.numLeaves) := by
    unfold placeLeaf
    dsimp only
    split
    · exact (Keeps.setNode _ _ _).trans (Keeps.setCached _ _ _)
    · exact Keeps.setNode _ _ _
  have hpos : nodePos m1.totalRows ((Node.leafNode m1.numLeaves).up 0) = m1.numLeaves := by
    rw [Node.up_zero, nodePos, Node.leafNode]
    dsimp only
    rw [Nat.sub_zero, Nat.sub_self, Nat.zero_add]
  obtain ⟨m2, h2, hT2, hn2, hroots2, hpos2⟩ := addSingleLoop_keeps hr1.rows hroom hl hb leaf
    (Nat.zero_add t) (show t < 65 by omega) leaf hk.totalRows hk.numLeaves
    (fun x hx _ => hk.nodes x hx (hr1.roots x hx)) (by
      rw [hpos, placeLeaf]
      split <;> exact Finmap.mem_insert.mpr (Or.inl rfl))
  refine ⟨m2, ?_, hn2.trans hn1, rooted_succ hr1.rows hroom hl hb hT2 hn2 hroots2 hpos2⟩
  rw [hpos] at h2
  rw [MapPollard.addSingle, h1]
  exact h2

/-- With the roots in the map no addition fails. -/
theorem Rooted.add (h : m.Rooted) (adds : List (Leaf H))
    (hn : m.numLeaves + adds.length ≤ 2 ^ 63) :
    ∃ m', m.add adds = .ok (m', .ok ()) ∧ m'.Rooted ∧
      m'.numLeaves = m.numLeaves + adds.length := by
  induction adds generalizing m with
  | nil => exact ⟨m, rfl, h, rfl⟩
  | cons leaf adds ih =>
    rw [List.length_cons] at hn
    obtain ⟨m1, h1, hn1, hr1⟩ := h.addSingle (by omega) leaf
    have hword : add64 m1.numLeaves 1 = m.numLeaves + 1 := by
      rw [hn1, add64_of_lt (by omega)]
    obtain ⟨m2, h2, hr2, hn2⟩ := ih hr1 (by
      show add64 m1.numLeaves 1 + adds.length ≤ 2 ^ 63
      omega)
    refine ⟨m2, ?_, hr2, ?_⟩
    · rw [MapPollard.add, h1, Exec.ok_bind]
      exact h2
    · rw [hn2, List.length_cons]
      show add64 m1.numLeaves 1 + adds.length = _
      omega

/-! ### Removing -/

omit [HashOps H] in
theorem uncacheLeaves_nodes (m : MapPollard H) (dels : List H) :
    (m.uncacheLeaves dels).nodes = m.nodes ∧ (m.uncacheLeaves dels).totalRows = m.totalRows ∧
      (m.uncacheLeaves dels).numLeaves = m.numLeaves := by
  unfold uncacheLeaves
  induction dels generalizing m with
  | nil => exact ⟨rfl, rfl, rfl⟩
  | cons del dels ih => exact ih _

omit [HashOps H] [DecidableEq H] in
/-- The targets of a block as nodes, in order, with the rows of the map. -/
theorem sortedDels_eq {slots : List (Option H)} (hT : m.totalRows ≤ 63)
    (hn : m.numLeaves ≤ 2 ^ m.totalRows) (hlen : m.numLeaves = slots.length) {xs : List Node}
    {dels : List H} (hx : List.Forall₂ (fun x h => placed slots x = some (.leaf h)) xs dels)
    (hd : dels.Nodup) :
    ∃ zs, zs.Perm xs ∧ Antichain zs ∧
      m.sortedDels (xs.map (nodePos (treeRows slots.length))) = zs.map (nodePos m.totalRows) := by
  have hle : slots.length ≤ 2 ^ 63 :=
    hlen ▸ Nat.le_trans hn (Nat.pow_le_pow_right (by omega) hT)
  obtain ⟨zs, hperm, hsort, hanti⟩ := sorted_leaves hle hx hd
  refine ⟨zs, hperm, hanti, ?_⟩
  unfold sortedDels
  rw [hlen, hsort]
  by_cases heq : m.totalRows = treeRows slots.length
  · rw [if_neg (not_not.mpr heq), heq]
  · rw [if_pos heq, translatePositions, List.map_map]
    refine List.map_congr_left fun z hz => ?_
    obtain ⟨a, -, ha⟩ := exists_leaf_of_mem hx (hperm.mem_iff.mp hz)
    exact translatePos_nodePos (treeRows_le hle) hT
      (fits_of_inForest (le_two_pow_treeRows _) (placed_inForest ha))
      (fits_of_inForest (hlen ▸ hn) (placed_inForest ha))

/-- Removing cached leaves. -/
theorem Rooted.remove {slots : List (Option H)} (h : m.Rooted) (hlen : m.numLeaves = slots.length)
    {proof : Proof H} {dels : List H} (hx : List.Forall₂ (LeafAt slots) proof.targets dels)
    (hd : dels.Nodup) (hcached : m.cached dels = true) :
    ∃ m', m.remove proof dels = .ok (m', .ok ()) ∧ m'.Rooted ∧ m'.numLeaves = m.numLeaves := by
  obtain ⟨xs, hxs, htargets⟩ := exists_nodes hx
  obtain ⟨hnodes, hrows, hnum⟩ := uncacheLeaves_nodes m dels
  have h1 : (m.uncacheLeaves dels).Rooted := by
    refine h.keeps ⟨hrows, hnum, fun x _ hin => ?_⟩
    rwa [hnodes]
  obtain ⟨zs, hperm, hanti, hzs⟩ := sortedDels_eq h1.rows h1.room (hnum.trans hlen) hxs hd
  obtain ⟨ys, Ds, hys, hDs, -⟩ := deletable_of_sorted h1.rows
    (hlen ▸ hnum ▸ h1.room) hxs hperm hanti
  obtain ⟨m2, h2, hk2⟩ := removeAll_keeps h1.rows h1.room rfl rfl
    (by rw [hnum, hlen]; exact hDs.inForest)
  refine ⟨m2, ?_, h1.keeps hk2, hk2.numLeaves.trans hnum⟩
  rw [MapPollard.remove, if_pos hcached]
  dsimp only
  rw [htargets, hzs, hys, h2, Exec.ok_bind]

/-! ### Verifying -/

omit [DecidableEq H] [HashOps H] in
theorem placeProof_keeps {T : Nat} {R : Node → Prop} {proofPos : List Nat} {proof : List H}
    {m' : MapPollard H} (h : m.placeProof proofPos proof = .ok m') : Keeps T R m m' := by
  induction proofPos generalizing m proof with
  | nil =>
    cases h
    exact Keeps.refl _
  | cons pos proofPos ih =>
    unfold placeProof at h
    split at h
    · exact ih h
    · cases proof with
      | nil => cases h
      | cons hash proof => exact (Keeps.setNode m pos ⟨hash, false⟩).trans (ih h)

omit [HashOps H] in
theorem placeNodes_keeps {T : Nat} {R : Node → Prop} (targets : List Nat)
    (hnp : List (Nat × H)) : Keeps T R m (placeNodes targets m hnp) := by
  unfold placeNodes
  induction hnp generalizing m with
  | nil => exact Keeps.refl m
  | cons e hnp ih =>
    refine Keeps.trans ?_ ih
    exact ⟨rfl, rfl, fun _ _ hin => Finmap.mem_insert.mpr (Or.inr hin)⟩

/-- `Verify` only adds nodes, whatever the proof. -/
theorem verify_keeps [SortAlg] {T : Nat} {R : Node → Prop} {delHashes : List H} {proof : Proof H}
    {remember : Bool} {m' : MapPollard H} {res : Except (MapErr H) Unit}
    (h : m.verify delHashes proof remember = .ok (m', res)) : Keeps T R m m' := by
  unfold MapPollard.verify at h
  obtain ⟨checked, -, h⟩ := Exec.bind_eq_ok.mp h
  cases checked with
  | error err =>
    cases h
    exact Keeps.refl _
  | ok idxs =>
    cases remember with
    | false =>
      cases h
      exact Keeps.refl _
    | true =>
      obtain ⟨m1, h1, h⟩ := Exec.bind_eq_ok.mp h
      cases h
      unfold ingest at h1
      obtain ⟨⟨proofPos, _⟩, -, h1⟩ := Exec.bind_eq_ok.mp h1
      dsimp only at h1
      split at h1 <;>
      · obtain ⟨proofPos', -, h1⟩ := Exec.bind_eq_ok.mp h1
        obtain ⟨m2, h2, h1⟩ := Exec.bind_eq_ok.mp h1
        obtain ⟨⟨inter, _⟩, -, h1⟩ := Exec.bind_eq_ok.mp h1
        cases h1
        exact (placeProof_keeps h2).trans (placeNodes_keeps _ _)

end

end MapPollard

/-! ### Runs -/

section
variable {H : Type} [DecidableEq H] [HashOps H]

/-- A block whose targets are the positions of the distinct leaves that it deletes. -/
structure PolBlock.Aimed (slots : List (Option H)) (b : PolBlock H) : Prop where
  targets : List.Forall₂ (LeafAt slots) b.proof.targets b.dels
  distinct : b.dels.Nodup
  room : slots.length + b.adds.length ≤ 2 ^ 63

/-- A map with its leaves, after calls of `Modify` and `Verify`.  A block that is refused
leaves the leaves as they were. -/
inductive MapReach [SortAlg] : MapPollard H → List (Option H) → Prop
  | new {rows : Nat} (hrows : rows ≤ 63) : MapReach ⟨∅, ∅, 0, rows⟩ []
  | modified {m m' : MapPollard H} {slots : List (Option H)} {b : PolBlock H}
      (h : MapReach m slots) (hb : b.Aimed slots)
      (hrun : m.modify b.adds b.dels b.proof = .ok (m', .ok ())) :
      MapReach m' (applyBlock slots b.block)
  | refused {m m' : MapPollard H} {slots : List (Option H)} {b : PolBlock H}
      {err : ModifyErr H} (h : MapReach m slots) (hb : b.Aimed slots)
      (hrun : m.modify b.adds b.dels b.proof = .ok (m', .error err)) : MapReach m' slots
  | verified {m m' : MapPollard H} {slots : List (Option H)} {hashes : List H} {proof : Proof H}
      {remember : Bool} {res : Except (MapErr H) Unit} (h : MapReach m slots)
      (hrun : m.verify hashes proof remember = .ok (m', res)) : MapReach m' slots

omit [HashOps H] in
theorem MapPollard.cached_eq_false {m : MapPollard H} {hashes : List H} :
    m.cached hashes = false ↔ ∃ h ∈ hashes, h ∉ m.cachedLeaves := by
  unfold MapPollard.cached
  simp

/-- What `Modify` does to a map with its roots. -/
theorem MapPollard.Rooted.modify {m : MapPollard H} {slots : List (Option H)} {b : PolBlock H}
    (h : m.Rooted) (hlen : m.numLeaves = slots.length) (hb : b.Aimed slots) :
    (m.cached b.dels = false ∧
      m.modify b.adds b.dels b.proof = .ok (m, .error (.undeletable b.dels))) ∨
    (m.cached b.dels = true ∧ ∃ m', m.modify b.adds b.dels b.proof = .ok (m', .ok ()) ∧
      m'.Rooted ∧ m'.numLeaves = slots.length + b.adds.length) := by
  cases hcached : m.cached b.dels with
  | false =>
    refine Or.inl ⟨rfl, ?_⟩
    rw [MapPollard.modify, MapPollard.remove, if_neg (by rw [hcached]; decide), Exec.ok_bind]
  | true =>
    obtain ⟨m1, h1, hr1, hn1⟩ := h.remove hlen hb.targets hb.distinct hcached
    obtain ⟨m2, h2, hr2, hn2⟩ := hr1.add b.adds (by rw [hn1, hlen]; exact hb.room)
    refine Or.inr ⟨rfl, m2, ?_, hr2, by rw [hn2, hn1, hlen]⟩
    rw [MapPollard.modify, h1, Exec.ok_bind]
    exact h2

/-- The roots of the forest are in every map that is reached. -/
theorem MapReach.rooted [SortAlg] {m : MapPollard H} {slots : List (Option H)}
    (h : MapReach m slots) : m.Rooted ∧ m.numLeaves = slots.length := by
  induction h with
  | new hrows =>
    refine ⟨⟨hrows, Nat.zero_le _, fun x hx => ?_⟩, rfl⟩
    unfold Node.IsRoot at hx
    rw [Nat.zero_div] at hx
    omega
  | modified _ hb hrun ih =>
    rcases ih.1.modify ih.2 hb with ⟨-, h⟩ | ⟨-, m2, h, hr2, hn2⟩
    · rw [h] at hrun
      cases hrun
    · rw [h] at hrun
      cases hrun
      refine ⟨hr2, ?_⟩
      rw [hn2, applyBlock, List.length_append, length_delSlots, List.length_map]
      simp [PolBlock.block]
  | refused _ hb hrun ih =>
    rcases ih.1.modify ih.2 hb with ⟨-, h⟩ | ⟨-, m2, h, -, -⟩
    · rw [h] at hrun
      cases hrun
      exact ih
    · rw [h] at hrun
      cases hrun
  | verified _ hrun ih =>
    obtain ⟨hr, hlen⟩ := ih
    have hr' := hr.keeps (MapPollard.verify_keeps hrun)
    exact ⟨hr', (MapPollard.verify_keeps (T := 0) (R := fun _ => False) hrun).numLeaves.trans hlen⟩

/-- **`Modify` fails cleanly.**  It returns an error exactly if a leaf to delete is not cached,
and then nothing has changed.  Neither the hashes nor the proofs that were verified matter. -/
theorem map_modify_fails_cleanly [SortAlg] {m : MapPollard H} {slots : List (Option H)}
    (hreach : MapReach m slots) {b : PolBlock H} (hb : b.Aimed slots) :
    ∃ m' res, m.modify b.adds b.dels b.proof = .ok (m', res) ∧
      ((∃ err, res = .error err) ↔ ∃ h ∈ b.dels, h ∉ m.cachedLeaves) ∧
      ((∃ err, res = .error err) → m' = m) := by
  obtain ⟨hr, hlen⟩ := hreach.rooted
  rw [← MapPollard.cached_eq_false]
  rcases hr.modify hlen hb with ⟨hcached, h⟩ | ⟨hcached, m', h, -, -⟩
  · exact ⟨m, _, h, iff_of_true ⟨_, rfl⟩ hcached, fun _ => rfl⟩
  · refine ⟨m', _, h, iff_of_false ?_ (by rw [hcached]; decide), ?_⟩
    · rintro ⟨err, herr⟩
      cases herr
    · rintro ⟨err, herr⟩
      cases herr

end

section
attribute [local instance] SortAlg.stable

/-- Two leaves of which only the first is cached. -/
theorem modify_two_leaves : ∃ m', (⟨∅, ∅, 0, 0⟩ : MapPollard FreeHash).modify
    [⟨.leaf 0, true⟩, ⟨.leaf 1, false⟩] [] ⟨[], []⟩ = .ok (m', .ok ()) ∧
      FreeHash.leaf 0 ∈ m'.cachedLeaves ∧ FreeHash.leaf 1 ∉ m'.cachedLeaves :=
  ⟨_, rfl, by decide, by decide⟩

/-- A block that deletes the second is refused. -/
theorem map_modify_refuses_uncached : ∃ (m : MapPollard FreeHash) (slots : List (Option FreeHash)),
    MapReach m slots ∧ PolBlock.Aimed slots ⟨[⟨.leaf 2, true⟩], [.leaf 1], ⟨[1], []⟩⟩ ∧
      FreeHash.leaf 0 ∈ m.cachedLeaves ∧ FreeHash.leaf 1 ∉ m.cachedLeaves ∧
      ∃ m' res, m.modify [⟨.leaf 2, true⟩] [.leaf 1] ⟨[1], []⟩ = .ok (m', res) ∧
        ((∃ err, res = .error err) ↔ ∃ h ∈ [FreeHash.leaf 1], h ∉ m.cachedLeaves) ∧
        ((∃ err, res = .error err) → m' = m) := by
  obtain ⟨m, hm, h0, h1⟩ := modify_two_leaves
  have hnew : MapReach (⟨∅, ∅, 0, 0⟩ : MapPollard FreeHash) [] := MapReach.new (Nat.zero_le _)
  have hfirst : PolBlock.Aimed [] (⟨[⟨.leaf 0, true⟩, ⟨.leaf 1, false⟩], [], ⟨[], []⟩⟩ :
      PolBlock FreeHash) := ⟨.nil, .nil, by decide⟩
  have hreach : MapReach m [some (.leaf 0), some (.leaf 1)] := hnew.modified hfirst hm
  have hb : PolBlock.Aimed [some (.leaf 0), some (.leaf 1)]
      ⟨[⟨.leaf 2, true⟩], [FreeHash.leaf 1], ⟨[1], []⟩⟩ :=
    ⟨.cons ⟨⟨0, 1⟩, by decide, by decide⟩ .nil, by decide, by decide⟩
  exact ⟨m, _, hreach, hb, h0, h1, map_modify_fails_cleanly hreach hb⟩

end

end Utreexo
