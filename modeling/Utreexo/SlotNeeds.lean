import Utreexo.AddReport

/-! # What the proof of some leaves needs, told by the slots

A subtree of the collapsed forest is the tree over the slots below some node (`nodeTree`),
at that node's place.  The node stays the same when leaves are deleted or added, the place
does not.  So the places that a proof needs are described here by nodes over the slots
(`needed_iff`), and a change of the forest compares the places of the same nodes.
-/
namespace Utreexo
open Merkle

section
variable {H : Type} {slots : List (Option H)} {C : Set H} {x y z : Node}

/-! ### Nodes over the slots -/

/-- Whether one of the leaves is over the slots below a node. -/
def Meets (slots : List (Option H)) (C : Set H) (z : Node) : Prop :=
  ∃ h ∈ C, h ∈ CTree.leavesOpt (nodeTree slots z)

theorem Meets.tree_ne_none (h : Meets slots C z) : nodeTree slots z ≠ none := by
  obtain ⟨a, -, ha⟩ := h
  intro hnone
  rw [hnone] at ha
  cases ha

/-- Two trees side by side of which one has a leaf of the set and the other, below the node,
has none. -/
structure Lacking (slots : List (Option H)) (C : Set H) (z : Node) : Prop where
  parent : z.parent.InForest slots.length
  tree : nodeTree slots z ≠ none
  beside : Meets slots C z.sibling
  apart : ¬ Meets slots C z

theorem Lacking.inForest (h : Lacking slots C z) : z.InForest slots.length :=
  Node.inForest_of_parent h.parent

/-! ### Leaves below a place -/

/-- The places of the leaves of a set. -/
def leavesAt (slots : List (Option H)) (C : Set H) : Set Node :=
  {x | ∃ h ∈ C, placed slots x = some (.leaf h)}

theorem inForest_of_leavesAt : ∀ x ∈ leavesAt slots C, x.InForest slots.length := by
  rintro x ⟨h, -, hx⟩
  exact placed_inForest hx

section
variable (hn : slots.length < 2 ^ 64)
include hn

theorem antichain_leavesAt : IsAntichain Node.Above (leavesAt slots C) := by
  rintro x ⟨a, -, hx⟩ y ⟨b, -, hy⟩ hne
  exact (placed_leaf_apart hn hx hy hne).1

/-- What is placed below a tree is a subtree of it. -/
theorem placed_up {T : CTree H} {j : Nat} (hy : placed slots (x.up j) = some T) :
    placed slots x = T.subAt (x.path j) := by
  obtain ⟨i, hi⟩ := (placed_inForest hy).exists_root
  have hx : (x.up (j + i)).IsRoot slots.length := by rwa [Node.up_add]
  rw [placed_eq hn hi, Node.up_row] at hy
  obtain ⟨R, hR, hsub⟩ := Option.bind_eq_some_iff.mp hy
  rw [placed_eq hn hx, ← Nat.add_assoc, hR, Option.bind_some, Node.path_add, CTree.subAt_append,
    hsub, Option.bind_some]

/-- The leaves of a tree are placed below it. -/
theorem exists_leaf_below {T : CTree H} {h : H} (hy : placed slots y = some T)
    (hh : h ∈ T.leaves) : ∃ x, y.Above x ∧ placed slots x = some (.leaf h) := by
  obtain ⟨p, hp⟩ := CTree.exists_path_of_mem hh
  have hlen : p.length ≤ y.row := by
    obtain ⟨j, hj⟩ := (placed_inForest hy).exists_root
    rw [placed_eq hn hj] at hy
    obtain ⟨R, hR, hsub⟩ := Option.bind_eq_some_iff.mp hy
    have hpath : R.subAt (y.path j ++ p) = some (.leaf h) := by
      rw [CTree.subAt_append, hsub, Option.bind_some, hp]
    have hle := CTree.length_le_of_subAt_perfect hR hpath
    rw [List.length_append, Node.length_path] at hle
    omega
  obtain ⟨hup, hpath⟩ := Node.down_spec hlen
  refine ⟨y.down p, ⟨p.length, hup⟩, ?_⟩
  rw [placed_up hn (x := y.down p) (by rwa [hup]), hpath, hp]

theorem mem_leaves_of_above {T : CTree H} {h : H} (hx : placed slots x = some (.leaf h))
    (hy : placed slots y = some T) (ha : y.Above x) : h ∈ T.leaves := by
  obtain ⟨j, rfl⟩ := ha
  rw [placed_up hn hy] at hx
  exact CTree.mem_leaves_of_subAt hx

/-- Above the leaves of a set are the trees with a leaf of it. -/
theorem touched_iff : Touched slots.length (leavesAt slots C) y ↔
    ∃ h ∈ C, h ∈ CTree.leavesOpt (placed slots y) := by
  constructor
  · rintro ⟨hin, x, ⟨h, hC, hx⟩, ha⟩
    cases hT : placed slots y with
    | none =>
      rw [placed_below_none hn hin hT ha] at hx
      cases hx
    | some T => exact ⟨h, hC, mem_leaves_of_above hn hx hT ha⟩
  · rintro ⟨h, hC, hh⟩
    cases hT : placed slots y with
    | none =>
      rw [hT] at hh
      cases hh
    | some T =>
      rw [hT] at hh
      obtain ⟨x, ha, hx⟩ := exists_leaf_below hn hT hh
      exact ⟨placed_inForest hT, x, ⟨h, hC, hx⟩, ha⟩

variable (hnd : (liveLeaves slots).Nodup)
include hnd

/-- A tree is placed only once. -/
theorem placed_unique {T : CTree H} (hx : placed slots x = some T)
    (hy : placed slots y = some T) : x = y := by
  obtain ⟨a, ha⟩ := List.exists_mem_of_ne_nil _ T.leaves_ne_nil
  obtain ⟨w, ⟨i, rfl⟩, hw⟩ := exists_leaf_below hn hx ha
  obtain ⟨w', ⟨j, rfl⟩, hw'⟩ := exists_leaf_below hn hy ha
  obtain rfl := placed_leaf_unique hn hnd hw' hw
  have hT : T.leaves.Nodup := by
    obtain ⟨d, hd⟩ := (placed_inForest hx).exists_root
    rw [placed_eq hn hd] at hx
    obtain ⟨R, hR, hsub⟩ := Option.bind_eq_some_iff.mp hx
    have hRnd := rootTree_leaves_nodup hn hnd (mem_rootRows_of_isRoot hn hd)
    rw [hR] at hRnd
    exact (CTree.leaves_subAt hsub).nodup hRnd
  have hpath := CTree.path_unique hT ((placed_up hn hx).symm.trans hw)
    ((placed_up hn hy).symm.trans hw)
  have hij := congrArg List.length hpath
  rw [Node.length_path, Node.length_path] at hij
  rw [hij]

/-- A leaf is over a slot, at the place of the slot. -/
theorem exists_slot {h : H} (hh : h ∈ liveLeaves slots) :
    ∃ c, slotAt slots c = some h ∧ (Node.leafNode c).InForest slots.length ∧
      nodeTree slots (Node.leafNode c) = some (.leaf h) ∧
      ∀ x, placed slots x = some (.leaf h) → x = place slots (Node.leafNode c) := by
  obtain ⟨c, hc, hch⟩ := List.mem_iff_getElem.mp (mem_liveLeaves.mp hh)
  have hslot : slotAt slots c = some h :=
    slotAt_eq_some.mpr (List.getElem?_eq_some_iff.mpr ⟨hc, hch⟩)
  have htree : nodeTree slots (Node.leafNode c) = some (.leaf h) := by
    simp [nodeTree, Node.leafNode, CTree.perfect, hslot]
  have hin : (Node.leafNode c).InForest slots.length := Node.leafNode_inForest.mpr hc
  exact ⟨c, hslot, hin, htree,
    fun x hx => placed_leaf_unique hn hnd hx (placed_place hn hin htree)⟩

/-- What is placed is the tree over the slots below a node. -/
theorem exists_slotNode {T : CTree H} (hy : placed slots y = some T) :
    ∃ z : Node, z.InForest slots.length ∧ nodeTree slots z = some T ∧ place slots z = y ∧
      (y.IsRoot slots.length ∨
        z.parent.InForest slots.length ∧ nodeTree slots z.sibling ≠ none) := by
  obtain ⟨a, ha⟩ := List.exists_mem_of_ne_nil _ T.leaves_ne_nil
  obtain ⟨x, hax, hx⟩ := exists_leaf_below hn hy ha
  obtain ⟨c, -, hcin, hctree, hc⟩ := exists_slot hn hnd (placed_leaves_subset hy a ha)
  rw [hc x hx] at hax
  obtain ⟨z, -, hz, hzT, hzp, hr⟩ := exists_of_above_place hn hcin
    (by rw [hctree]; exact Option.some_ne_none _) hax (placed_inForest hy)
  obtain ⟨T', hT'⟩ := Option.ne_none_iff_exists'.mp hzT
  refine ⟨z, hz, ?_, hzp, hr⟩
  rw [hT', ← hy, ← hzp, placed_place hn hz hT']

/-! ### The places that a proof needs -/

omit hnd in
theorem meets_iff_placed (hz : z.InForest slots.length) (hT : nodeTree slots z ≠ none) :
    Meets slots C z ↔ Touched slots.length (leavesAt slots C) (place slots z) := by
  obtain ⟨T, hT⟩ := Option.ne_none_iff_exists'.mp hT
  rw [touched_iff hn, placed_place hn hz hT, Meets, hT]

/-- **The proof of a set of leaves needs the places of the trees beside those with a leaf of
the set.** -/
theorem needed_iff : Needed slots.length (leavesAt slots C) y ↔
    ∃ z, Lacking slots C z ∧ place slots z = y := by
  constructor
  · rintro ⟨hs, hr, hy⟩
    obtain ⟨T, hT⟩ : ∃ T, placed slots y.sibling = some T := by
      obtain ⟨h, -, hh⟩ := (touched_iff hn).mp hs
      cases hT : placed slots y.sibling with
      | none =>
        rw [hT] at hh
        cases hh
      | some T => exact ⟨T, rfl⟩
    obtain ⟨z, hz, hzT, hzp, hroot | ⟨hzpar, hzs⟩⟩ := exists_slotNode hn hnd hT
    · exact absurd hroot hr
    · have hzT' : nodeTree slots z ≠ none := by
        rw [hzT]
        exact Option.some_ne_none T
      have hplace : place slots z.sibling = y := by
        rw [place_sibling hn hzpar hzT' hzs, hzp, Node.sibling_sibling]
      have hpar : z.sibling.parent.InForest slots.length := by rwa [Node.sibling_parent]
      refine ⟨z.sibling, ⟨hpar, hzs, ?_, ?_⟩, hplace⟩
      · rw [Node.sibling_sibling, meets_iff_placed hn hz hzT', hzp]
        exact hs
      · rw [meets_iff_placed hn (Node.inForest_of_parent hpar) hzs, hplace]
        exact hy
  · rintro ⟨z, hz, rfl⟩
    have hsT := hz.beside.tree_ne_none
    have hspar : z.sibling.parent.InForest slots.length := by
      rw [Node.sibling_parent]
      exact hz.parent
    have hplace : (place slots z).sibling = place slots z.sibling :=
      (place_sibling hn hz.parent hz.tree hsT).symm
    have hps : (place slots z.sibling).parent.InForest slots.length := by
      have htree : nodeTree slots z.sibling.sibling ≠ none := by
        rw [Node.sibling_sibling]
        exact hz.tree
      rw [← place_parent hn hspar htree, Node.sibling_parent]
      obtain ⟨P, hP⟩ := Option.ne_none_iff_exists'.mp (nodeTree_parent_ne_none hz.tree)
      exact placed_inForest (placed_place hn hz.parent hP)
    rw [Needed, hplace]
    refine ⟨?_, Node.not_isRoot_of_parent hps, ?_⟩
    · exact (meets_iff_placed hn (Node.inForest_of_parent hspar) hsT).mp hz.beside
    · rw [← meets_iff_placed hn hz.inForest hz.tree]
      exact hz.apart

end

end

/-! ### The same nodes in another forest -/

section
variable {H : Type} [DecidableEq H] {slots : List (Option H)} {dels : List H} {z : Node}

theorem nodeTree_delSlots (slots : List (Option H)) (dels : List H) (z : Node) :
    nodeTree (delSlots slots dels) z = (nodeTree slots z).bind (CTree.prune (· ∈ dels)) := by
  rw [nodeTree, nodeTree, ← CTree.perfect_prune]
  refine CTree.perfect_congr fun i _ _ => ?_
  rw [slotAt_delSlots]
  simp

/-- A deletion takes the deleted leaves out of what is below a node. -/
theorem meets_delSlots {C : Set H} (hC : ∀ h ∈ C, h ∉ dels) :
    Meets (delSlots slots dels) C z ↔ Meets slots C z := by
  have hleaves : ∀ h, h ∈ CTree.leavesOpt (nodeTree (delSlots slots dels) z) ↔
      h ∈ CTree.leavesOpt (nodeTree slots z) ∧ h ∉ dels := by
    intro h
    rw [nodeTree_delSlots]
    cases nodeTree slots z with
    | none => simp
    | some T => rw [Option.bind_some, CTree.leavesOpt_prune, List.mem_filter]; simp
  constructor
  · rintro ⟨h, hh, hm⟩
    exact ⟨h, hh, ((hleaves h).mp hm).1⟩
  · rintro ⟨h, hh, hm⟩
    exact ⟨h, hh, (hleaves h).mpr ⟨hm, hC h hh⟩⟩

theorem lacking_delSlots {C : Set H} (hC : ∀ h ∈ C, h ∉ dels) :
    Lacking (delSlots slots dels) C z ↔
      Lacking slots C z ∧ nodeTree (delSlots slots dels) z ≠ none := by
  constructor
  · rintro ⟨h1, h2, h3, h4⟩
    rw [length_delSlots] at h1
    rw [meets_delSlots hC] at h3 h4
    refine ⟨⟨h1, fun hnone => h2 ?_, h3, h4⟩, h2⟩
    rw [nodeTree_delSlots, hnone]
    rfl
  · rintro ⟨⟨h1, -, h3, h4⟩, h2⟩
    refine ⟨by rwa [length_delSlots], h2, ?_, ?_⟩
    · rwa [meets_delSlots hC]
    · rwa [meets_delSlots hC]

end

end Utreexo
