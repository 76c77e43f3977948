import Utreexo.MapAdd
import Utreexo.ProveComplete
import Utreexo.DelReport
import Utreexo.RowChange

/-! # What a pruned forest proves and takes in

The positions of a MapPollard are those of a forest with `TotalRows` rows, and its proofs are
for one with as few rows as the leaves need.  Both number the same nodes in the same order, so
the loops over positions are loops over one list of nodes.

`Prove` finds every node that it looks for, since the siblings on the way up from a cached leaf
are kept.  `Verify` with `remember` set writes the nodes of an honest proof, and then its leaves
are cached as well.
-/
namespace Utreexo
open Merkle

/-! ### Nodes in the order of their positions -/

section
variable {k : Nat} {S : Set Node} {xs : List Node}

/-- The list has the nodes of the set, each once and in the order of their positions. -/
structure NodeListing (xs : List Node) (S : Set Node) : Prop where
  sorted : xs.Pairwise Node.Before
  mem : ∀ x, x ∈ xs ↔ x ∈ S

theorem NodeListing.positions (h : NodeListing xs S) (hS : ∀ x ∈ S, Fits k x) :
    Listing (xs.map (nodePos k)) (nodePos k '' S) := by
  refine ⟨?_, fun p => ?_⟩
  · rw [List.pairwise_map]
    refine h.sorted.imp_of_mem fun {x y} hx hy hxy => ?_
    exact (hS x ((h.mem x).mp hx)).pos_lt_of_before hxy
  · simp only [List.mem_map, Set.mem_image, h.mem]

/-- Positions of nodes of a set, as nodes. -/
theorem exists_nodes_among {ps : List Nat} (h : ∀ p ∈ ps, p ∈ nodePos k '' S) :
    ∃ xs : List Node, (∀ x ∈ xs, x ∈ S) ∧ ps = xs.map (nodePos k) := by
  have hrange : ps ∈ Set.range (List.map fun x : S => nodePos k x) := by
    rw [Set.range_list_map]
    intro p hp
    obtain ⟨x, hx, rfl⟩ := h p hp
    exact ⟨⟨x, hx⟩, rfl⟩
  obtain ⟨ys, rfl⟩ := hrange
  refine ⟨ys.map Subtype.val, fun x hx => ?_, ?_⟩
  · obtain ⟨y, -, rfl⟩ := List.mem_map.mp hx
    exact y.2
  · rw [List.map_map]
    rfl

/-- Positions in order are those of nodes in order. -/
theorem exists_nodeListing {ps : List Nat} (h : Listing ps (nodePos k '' S))
    (hS : ∀ x ∈ S, Fits k x) : ∃ xs, NodeListing xs S ∧ ps = xs.map (nodePos k) := by
  obtain ⟨xs, hxs, rfl⟩ := exists_nodes_among fun p hp => (h.mem p).mp hp
  refine ⟨xs, ⟨?_, fun x => ⟨hxs x, fun hx => ?_⟩⟩, rfl⟩
  · have hsorted := h.sorted
    rw [List.pairwise_map] at hsorted
    exact hsorted.imp_of_mem fun {x y} hx hy hxy =>
      ((hS x (hxs x hx)).pos_lt_iff (hS y (hxs y hy))).mp hxy
  · obtain ⟨y, hy, he⟩ := List.mem_map.mp ((h.mem (nodePos k x)).mpr ⟨x, hx, rfl⟩)
    rwa [← (hS y (hxs y hy)).pos_inj (hS x hx) he]

end

/-- What is beside a node below a root is in the forest. -/
theorem inForest_of_beside {n : Nat} {x : Node} (h : x.sibling.InForest n)
    (hr : ¬ x.sibling.IsRoot n) : x.InForest n := by
  have hp := h.parent hr
  rw [Node.sibling_parent] at hp
  exact Node.inForest_of_parent hp

/-! ### Two numberings -/

/-- Positions in the numbering of the map. -/
theorem translatePositions_nodes {n T : Nat} (hT : T ≤ 63) (hn : n ≤ 2 ^ T) {l : List Node}
    (hl : ∀ x ∈ l, x.InForest n) :
    translatePositions (l.map (nodePos (treeRows n))) (treeRows n) T = l.map (nodePos T) := by
  rw [translatePositions, List.map_map]
  refine List.map_congr_left fun x hx => ?_
  exact translatePos_nodePos ((treeRows_le_iff.mpr hn).trans hT) hT
    (fits_of_inForest (le_two_pow_treeRows _) (hl x hx)) (fits_of_inForest hn (hl x hx))

/-! ### The roots -/

/-- The root positions are those of the roots, from the highest row on. -/
theorem rootPositions_eq {n k : Nat} (hk : k ≤ 63) (hn : n ≤ 2 ^ k) :
    rootPositions n k = (rootRows n 0).map fun r => nodePos k (Node.rootAt n r) := by
  have hrows : (List.range (k + 1)).reverse.filter (rootExistsOnRow n) = rootRows n 0 := by
    have hpair : ((List.range (k + 1)).reverse.filter (rootExistsOnRow n)).Pairwise (· > ·) :=
      (List.pairwise_reverse.mpr List.pairwise_lt_range).filter _
    have hlist : Listing (rootRows n 0).reverse {r | r ∈ rootRows n 0} :=
      ⟨List.pairwise_reverse.mpr (rootRows_pairwise n 0), fun r => List.mem_reverse⟩
    refine List.reverse_injective (Listing.unique
      ⟨List.pairwise_reverse.mpr hpair, fun r => ?_⟩ hlist)
    rw [List.mem_reverse, List.mem_filter, List.mem_reverse, List.mem_range, rootExistsOnRow,
      decide_eq_true_eq, shiftRight_and_one, Set.mem_ofPred_eq, mem_rootRows]
    constructor
    · rintro ⟨hr, hb⟩
      exact ⟨Nat.zero_le r, by omega, hb⟩
    · rintro ⟨-, -, hb⟩
      exact ⟨Nat.lt_succ_of_le (testBit_row_le hn hb), hb⟩
  rw [rootPositions, hrows]
  refine List.map_congr_left fun r hr => ?_
  exact rootPosition_eq hk hn (testBit_row_le hn (mem_rootRows.mp hr).2.2)

namespace MapPollard
variable {H : Type} [DecidableEq H] [HashOps H] {m : MapPollard H} {slots : List (Option H)}
  {W C : Set H} {tight : Prop}

theorem Kept.getRoots (h : m.Kept tight slots W C) :
    m.getRoots = (forestTrees slots).map hashOpt := by
  obtain ⟨N, K, hs, hsound, -⟩ := h.view
  rw [MapPollard.getRoots, hs.numLeaves, rootPositions_eq h.rows h.room, forestTrees, List.map_map,
    List.map_map]
  refine List.map_congr_left fun r hr => ?_
  have hroot := Node.rootAt_isRoot (mem_rootRows.mp hr).2.2
  obtain ⟨l, hl⟩ := Option.ne_none_iff_exists'.mp (hsound.roots _ hroot)
  rw [Function.comp_apply, Function.comp_apply, hs.node (hs.fits _ (by simp [hl])), hl,
    Option.getD_some, hsound.hash _ l hl, Layout.forest_tree _ h.length_lt,
    placed_root h.length_lt hroot]
  rfl

theorem Kept.getStump (h : m.Kept tight slots W C) :
    m.getStump = ⟨(forestTrees slots).map hashOpt, slots.length⟩ := by
  obtain ⟨N, K, hs, -⟩ := h.view
  rw [MapPollard.getStump, h.getRoots, hs.numLeaves]

/-! ### Proving -/

omit [HashOps H] in
theorem Sees.hashesAt {T n : Nat} {N : NodeMap H} {K : LeafMap H} (h : m.Sees T n N K)
    {V : Node → H} {xs : List Node} (hxs : ∀ x ∈ xs, ∃ l, N x = some l ∧ l.hash = V x) :
    m.hashesAt (xs.map (nodePos T)) = .ok (xs.map V) := by
  induction xs with
  | nil => rfl
  | cons x xs ih =>
    obtain ⟨l, hl, hV⟩ := hxs x List.mem_cons_self
    rw [List.map_cons, MapPollard.hashesAt, h.nodes x (h.fits x (by simp [hl])), hl]
    dsimp only
    rw [ih fun y hy => hxs y (List.mem_cons_of_mem x hy), hV]
    rfl

theorem Kept.le_63 (h : m.Kept tight slots W C) : slots.length ≤ 2 ^ 63 :=
  h.room.trans (Nat.pow_le_pow_right (by decide) h.rows)

/-- The nodes of the cached leaves. -/
theorem Kept.exists_cachedNode (h : m.Kept tight slots W C) :
    ∃ f : H → Node, ∀ a ∈ C, placed slots (f a) = some (.leaf a) ∧
      a ∈ m.cachedLeaves ∧ m.cachedPos a = nodePos m.totalRows (f a) := by
  obtain ⟨N, K, hs, -, hK⟩ := h.view
  refine ⟨fun a => (K a).getD ⟨0, 0⟩, fun a ha => ?_⟩
  obtain ⟨x, hx⟩ := Option.ne_none_iff_exists'.mp (hK.mem a ha)
  have hleaf := (hK.leaf a x hx).2
  rw [Layout.forest_tree _ h.length_lt] at hleaf
  dsimp only
  rw [hx, Option.getD_some]
  refine ⟨hleaf, (hs.mem_cached a).mpr (by simp [hx]), ?_⟩
  rw [cachedPos, hs.cached, hx]
  rfl

theorem Kept.mem_cachedLeaves (h : m.Kept tight slots W C) {a : H} :
    a ∈ m.cachedLeaves ↔ a ∈ C := by
  obtain ⟨N, K, hs, -, hK⟩ := h.view
  rw [hs.mem_cached]
  constructor
  · intro ha
    obtain ⟨x, hx⟩ := Option.ne_none_iff_exists'.mp ha
    exact (hK.leaf a x hx).1
  · exact hK.mem a

/-- Beside the nodes above wanted leaves there are nodes. -/
theorem Kept.node_beside (h : m.Kept tight slots W C) {N : NodeMap H}
    (hsound : Sound tight (Layout.forest h.nodup) W ∅ N) {x : Node}
    (hx : (Layout.forest h.nodup).Meets W x.sibling) (hr : ¬ x.sibling.IsRoot slots.length) :
    ∃ l, N x = some l ∧ l.hash = hashOpt (placed slots x) := by
  have hne := hsound.beside x.sibling hx hr
  rw [Node.sibling_sibling] at hne
  obtain ⟨l, hl⟩ := Option.ne_none_iff_exists'.mp hne
  exact ⟨l, hl, by rw [hsound.hash x l hl, Layout.forest_tree _ h.length_lt]⟩

/-- The nodes that a proof of wanted leaves needs are kept. -/
theorem Kept.node_of_needed (h : m.Kept tight slots W C) {N : NodeMap H}
    (hsound : Sound tight (Layout.forest h.nodup) W ∅ N) {A : Set H} (hA : A ⊆ W) {x : Node}
    (hx : Needed slots.length (leavesAt slots A) x) :
    ∃ l, N x = some l ∧ l.hash = hashOpt (placed slots x) := by
  obtain ⟨a, ha, hmem⟩ := (touched_iff h.length_lt).mp hx.1
  refine h.node_beside hsound ⟨a, hA ha, ?_⟩ hx.2.1
  rwa [Layout.forest_tree _ h.length_lt]

/-- What a proof of cached leaves needs, in both numberings.  The leaves may repeat. -/
theorem Kept.proofPositions_cached (h : m.Kept tight slots W C) {xs : List Node}
    (hxs : ∀ x ∈ xs, (Layout.forest h.nodup).Meets C x) :
    ∃ (ys : List Node) (computed computed' : List Nat),
      (∀ y ∈ ys, (Layout.forest h.nodup).Meets C y.sibling ∧
        ¬ y.sibling.IsRoot slots.length) ∧
      proofPositions (sortPositions (xs.map (nodePos (treeRows slots.length)))) slots.length
        (treeRows slots.length) = .ok (ys.map (nodePos (treeRows slots.length)), computed) ∧
      proofPositions (sortPositions (xs.map (nodePos m.totalRows))) slots.length m.totalRows =
        .ok (ys.map (nodePos m.totalRows), computed') := by
  have hrows : treeRows slots.length ≤ m.totalRows := treeRows_le_iff.mpr h.room
  have hin : ∀ x, (Layout.forest h.nodup).Meets C x → x.InForest slots.length := fun x hx =>
    (Layout.forest_inside h.nodup).mp hx.inside
  have hfits : ∀ {x}, x ∈ xs → Fits (treeRows slots.length) x :=
    fun hx => fits_of_inForest (le_two_pow_treeRows _) (hin _ (hxs _ hx))
  have hsorted := sortPositions_sorted (xs.map (nodePos (treeRows slots.length)))
  have hnodes : ∀ p ∈ sortPositions (xs.map (nodePos (treeRows slots.length))),
      ∃ x, (Layout.forest h.nodup).Meets C x ∧ p = nodePos (treeRows slots.length) x := by
    intro p hp
    obtain ⟨x, hx, rfl⟩ := List.mem_map.mp ((sortPositions_perm _).mem_iff.mp hp)
    exact ⟨x, hxs x hx, rfl⟩
  have hsort : sortPositions (xs.map (nodePos m.totalRows)) =
      (sortPositions (xs.map (nodePos (treeRows slots.length)))).map
        (translatePos · (treeRows slots.length) m.totalRows) := by
    rw [← translatePositions_nodes h.rows h.room fun x hx => hin x (hxs x hx), translatePositions]
    refine sortPositions_map fun p hp q hq hpq => ?_
    obtain ⟨x, hx, rfl⟩ := List.mem_map.mp hp
    obtain ⟨y, hy, rfl⟩ := List.mem_map.mp hq
    by_contra hlt
    refine absurd hpq (Nat.not_le.mpr ?_)
    exact ((renumbers_translatePos hrows h.rows).lt_iff (hfits hy).pos_lt_max
      (hfits hx).pos_lt_max).mp (Nat.lt_of_not_le hlt)
  obtain ⟨positions, computed, hpos, hposT⟩ := proofPositions_translate hrows h.rows hsorted
    fun p hp => (hnodes p hp).imp fun x hx => ⟨hin x hx.1, hx.2⟩
  -- What is needed is beside a node above a cached leaf.
  obtain ⟨ys, hys, rfl⟩ : ∃ ys : List Node, (∀ y ∈ ys, y ∈ {y : Node |
      (Layout.forest h.nodup).Meets C y.sibling ∧ ¬ y.sibling.IsRoot slots.length}) ∧
      positions = ys.map (nodePos (treeRows slots.length)) := by
    refine exists_nodes_among fun q hq => ?_
    obtain ⟨x, hx, hroot, rfl⟩ := proofPositions_among hin
      (fun x hx hr => hx.parent ((Layout.forest_inside h.nodup).mpr ((hin x hx).parent hr)))
      h.le_63 hsorted hnodes hpos q hq
    exact ⟨x.sibling, by rw [Set.mem_ofPred_eq, Node.sibling_sibling]; exact ⟨hx, hroot⟩, rfl⟩
  have hys' := translatePositions_nodes h.rows h.room fun y hy =>
    inForest_of_beside (hin _ (hys y hy).1) (hys y hy).2
  rw [translatePositions] at hys'
  rw [← hsort, hys'] at hposT
  exact ⟨ys, computed, _, hys, hpos, hposT⟩

/-- **Cached leaves are proved as the whole forest proves them**, also where they repeat. -/
theorem Kept.prove (h : m.Kept tight slots W C) {hashes : List H} (hC : ∀ a ∈ hashes, a ∈ C) :
    ∃ targets positions computed,
      m.prove hashes = .ok (.ok ⟨targets, positions.map (slotHash slots)⟩) ∧
      List.Forall₂ (LeafAt slots) targets hashes ∧
      proofPositions (sortPositions targets) slots.length (treeRows slots.length) =
        .ok (positions, computed) := by
  obtain ⟨f, hf⟩ := h.exists_cachedNode
  obtain ⟨N, K, hs, hsound, -⟩ := h.view
  have htargets : List.Forall₂ (LeafAt slots)
      ((hashes.map f).map (nodePos (treeRows slots.length))) hashes := by
    rw [List.map_map, List.forall₂_map_left_iff, List.forall₂_same]
    exact fun a ha => ⟨f a, (hf a (hC a ha)).1, rfl⟩
  have hxs : ∀ x ∈ hashes.map f, (Layout.forest h.nodup).Meets C x := by
    intro x hx
    obtain ⟨a, ha, rfl⟩ := List.mem_map.mp hx
    refine Layout.meets_of_leaf (hC a ha) ?_
    rw [Layout.forest_tree _ h.length_lt, (hf a (hC a ha)).1]
  have hin : ∀ x ∈ hashes.map f, x.InForest slots.length := fun x hx =>
    (Layout.forest_inside h.nodup).mp (hxs x hx).inside
  obtain ⟨ys, computed, computed', hys, hpos, hposT⟩ := h.proofPositions_cached hxs
  have hhashes : m.hashesAt (ys.map (nodePos m.totalRows)) =
      .ok (ys.map fun y => hashOpt (placed slots y)) := by
    refine hs.hashesAt fun y hy => ?_
    obtain ⟨⟨a, ha, hmem⟩, hroot⟩ := hys y hy
    exact h.node_beside hsound ⟨a, h.cached ha, hmem⟩ hroot
  have hcachedPos : hashes.map m.cachedPos = (hashes.map f).map (nodePos m.totalRows) := by
    rw [List.map_map]
    exact List.map_congr_left fun a ha => (hf a (hC a ha)).2.2
  have hcached : m.cached hashes = true :=
    List.all_eq_true.mpr fun a ha => decide_eq_true (hf a (hC a ha)).2.1
  refine ⟨_, _, computed, ?_, htargets, hpos⟩
  rw [MapPollard.prove, if_pos hcached, hs.numLeaves, hcachedPos]
  dsimp only
  rw [hposT, Exec.ok_bind]
  dsimp only
  rw [hhashes]
  dsimp only
  congr 3
  · split
    · rw [translatePositions, List.map_map]
      refine List.map_congr_left fun x hx => ?_
      exact translatePos_nodePos h.rows (treeRows_le h.le_63) (fits_of_inForest h.room (hin x hx))
        (fits_of_inForest (le_two_pow_treeRows _) (hin x hx))
    · next heq => rw [← not_not.mp heq]
  · rw [List.map_map]
    refine List.map_congr_left fun y hy => ?_
    obtain ⟨hmeets, hroot⟩ := hys y hy
    rw [Function.comp_apply, slotHash_nodePos h.le_63
      (inForest_of_beside ((Layout.forest_inside h.nodup).mp hmeets.inside) hroot)]

/-- Leaves that are not all cached are refused. -/
theorem Kept.prove_refused (h : m.Kept tight slots W C) {hashes : List H}
    (hno : ∃ a ∈ hashes, a ∉ C) : m.prove hashes = .ok (.error (.unprovable hashes)) := by
  obtain ⟨a, ha, hno⟩ := hno
  refine if_neg fun hall => hno ?_
  exact h.mem_cachedLeaves.mp (of_decide_eq_true (List.all_eq_true.mp hall a ha))

/-! ### Taking in a proof -/

section
variable {T n : Nat} {N : NodeMap H} {K : LeafMap H} {xs : List Node} (V : Node → H)

omit [HashOps H] in
/-- The hashes of a proof are placed where no node is yet; those that are left over are not read. -/
theorem Sees.placeProof (h : m.Sees T n N K) (hxs : ∀ x ∈ xs, Fits T x) (extra : List H) :
    ∃ m', m.placeProof (xs.map (nodePos T)) (xs.map V ++ extra) = .ok m' ∧
      m'.Sees T n (fun z => (N z).or (if z ∈ xs then some ⟨V z, false⟩ else none)) K := by
  induction xs generalizing m N with
  | nil => exact ⟨m, rfl, by simpa using h⟩
  | cons x xs ih =>
    obtain ⟨hx, hxs⟩ := List.forall_mem_cons.mp hxs
    by_cases hN : N x = none
    · obtain ⟨m', hm', hs'⟩ := ih (h.setNode hx ⟨V x, false⟩) hxs
      refine ⟨m', ?_, ?_⟩
      · rw [List.map_cons, List.map_cons, List.cons_append, MapPollard.placeProof,
          if_neg fun hin => (h.mem_nodes hx).mp hin hN]
        exact hm'
      · convert hs' using 2 with z
        by_cases hz : z = x
        · subst hz
          simp [hN]
        · simp [hz]
    · obtain ⟨m', hm', hs'⟩ := ih h hxs
      refine ⟨m', ?_, ?_⟩
      · rw [List.map_cons, List.map_cons, List.cons_append, MapPollard.placeProof,
          if_pos ((h.mem_nodes hx).mpr hN), List.tail_cons]
        exact hm'
      · convert hs' using 2 with z
        by_cases hz : z = x
        · subst hz
          obtain ⟨l, hl⟩ := Option.ne_none_iff_exists'.mp hN
          simp [hl]
        · simp [hz]

omit [HashOps H] in
/-- The calculated nodes are written over, and the targets among them are cached. -/
theorem Sees.placeNodes (h : m.Sees T n N K) (hxs : ∀ x ∈ xs, Fits T x) (ts : List Nat) :
    ∃ K', (MapPollard.placeNodes ts m (xs.map fun x => (nodePos T x, V x))).Sees T n
        (fun z => if z ∈ xs then some ⟨V z, nodePos T z ∈ ts⟩ else N z) K' ∧
      (∀ a z, K' a = some z → K a = some z ∨ z ∈ xs ∧ nodePos T z ∈ ts ∧ a = V z) ∧
      (∀ a, K a ≠ none → K' a ≠ none) ∧ ∀ x ∈ xs, nodePos T x ∈ ts → K' (V x) ≠ none := by
  induction xs generalizing m N K with
  | nil =>
    exact ⟨K, by simpa [MapPollard.placeNodes] using h, fun a z hz => Or.inl hz, fun a ha => ha,
      by simp⟩
  | cons x xs ih =>
    obtain ⟨hx, hxs⟩ := List.forall_mem_cons.mp hxs
    have hs := h.setNode hx ⟨V x, nodePos T x ∈ ts⟩
    have hset : ∀ z, (if z ∈ xs then some (⟨V z, nodePos T z ∈ ts⟩ : Leaf H)
        else Function.update N x (some ⟨V x, nodePos T x ∈ ts⟩) z) =
          if z ∈ x :: xs then some ⟨V z, nodePos T z ∈ ts⟩ else N z := by
      intro z
      by_cases hz : z = x
      · subst hz
        simp
      · simp [hz]
    by_cases ht : nodePos T x ∈ ts
    · obtain ⟨K', hs', hleaf, hold, hnew⟩ := ih (hs.setCached (V x) x) hxs
      refine ⟨K', ?_, fun a z hz => ?_, fun a ha => hold a ?_,
        List.forall_mem_cons.mpr ⟨fun _ => hold _ (by simp), hnew⟩⟩
      · rw [List.map_cons, MapPollard.placeNodes, List.foldl_cons, if_pos ht]
        exact (funext hset : _ = _) ▸ hs'
      · rcases hleaf a z hz with hz | ⟨hmem, hts, rfl⟩
        · by_cases ha : a = V x
          · subst ha
            rw [Function.update_self] at hz
            cases hz
            exact Or.inr ⟨List.mem_cons_self, ht, rfl⟩
          · rw [Function.update_of_ne ha] at hz
            exact Or.inl hz
        · exact Or.inr ⟨List.mem_cons_of_mem x hmem, hts, rfl⟩
      · by_cases hV : a = V x
        · subst hV
          simp
        · rwa [Function.update_of_ne hV]
    · obtain ⟨K', hs', hleaf, hold, hnew⟩ := ih hs hxs
      refine ⟨K', ?_, fun a z hz => ?_, hold,
        List.forall_mem_cons.mpr ⟨fun hts => absurd hts ht, hnew⟩⟩
      · rw [List.map_cons, MapPollard.placeNodes, List.foldl_cons, if_neg ht]
        exact (funext hset : _ = _) ▸ hs'
      · rcases hleaf a z hz with hz | ⟨hmem, hts, rfl⟩
        · exact Or.inl hz
        · exact Or.inr ⟨List.mem_cons_of_mem x hmem, hts, rfl⟩

end

omit [HashOps H] [DecidableEq H] in
theorem sort_eq_self [SortAlg] {α : Type} {key : α → Nat} {l : List α}
    (h : l.Pairwise fun a b => key a < key b) : SortAlg.sort key l = l := by
  have hperm := SortAlg.perm key l
  refine hperm.eq_of_pairwise (fun a b ha hb hab hba => ?_) (SortAlg.sorted key l)
    (h.imp Nat.le_of_lt)
  have hinj := List.inj_on_of_nodup_map ((List.pairwise_map.mpr h).imp Nat.ne_of_lt)
  exact hinj (hperm.mem_iff.mp ha) hb (Nat.le_antisymm hab hba)

omit [HashOps H] [DecidableEq H] in
theorem translateSorted_nodes [SortAlg] {T n : Nat} (hrows : m.totalRows = T)
    (hnum : m.numLeaves = n) (V : Node → H) (hT : T ≤ 63) (hn : n ≤ 2 ^ T) {xs : List Node}
    {S : Set Node} (hxs : NodeListing xs S) (hS : ∀ x ∈ S, x.InForest n) :
    m.translateSorted (xs.map fun x => (nodePos (treeRows n) x, V x)) =
      xs.map fun x => (nodePos T x, V x) := by
  subst hrows hnum
  have hR : treeRows m.numLeaves ≤ 63 := (treeRows_le_iff.mpr hn).trans hT
  have hfits : ∀ x ∈ xs, Fits m.totalRows x :=
    fun x hx => fits_of_inForest hn (hS x ((hxs.mem x).mp hx))
  rw [translateSorted]
  split
  · have hmap : (xs.map fun x => (nodePos (treeRows m.numLeaves) x, V x)).map
        (fun e => (translatePos e.1 (treeRows m.numLeaves) m.totalRows, e.2)) =
          xs.map fun x => (nodePos m.totalRows x, V x) := by
      rw [List.map_map]
      refine List.map_congr_left fun x hx => ?_
      rw [Function.comp_apply, translatePos_nodePos hR hT
        (fits_of_inForest (le_two_pow_treeRows _) (hS x ((hxs.mem x).mp hx))) (hfits x hx)]
    rw [hmap]
    apply sort_eq_self
    rw [List.pairwise_map]
    exact hxs.sorted.imp_of_mem fun {x y} hx _ hxy => (hfits x hx).pos_lt_of_before hxy
  · next heq =>
    rw [not_not] at heq
    rw [← heq]

end MapPollard

/-! ### A pruned forest with more leaves wanted -/

section
variable {H : Type} [HashOps H] {tight : Prop} {L : Layout H} {W A : Set H} {E : Set Node}
  {N : NodeMap H}

open Classical in
/-- The nodes above the leaves of `A` are written, and those beside them where none is yet. -/
noncomputable def absorbed (L : Layout H) (A : Set H) (N : NodeMap H) : NodeMap H := fun z =>
  if L.Meets A z then some ⟨hashOpt (L.tree z), ∃ a ∈ A, L.tree z = some (.leaf a)⟩
  else (N z).or (if L.Meets A z.sibling ∧ ¬ L.root z.sibling then
    some ⟨hashOpt (L.tree z), false⟩ else none)

theorem absorbed_ne_none {z : Node} (h : N z ≠ none) : absorbed L A N z ≠ none := by
  obtain ⟨l, hl⟩ := Option.ne_none_iff_exists'.mp h
  rw [absorbed]
  split
  · simp
  · simp [hl]

/-- What is there besides the old nodes. -/
theorem absorbed_cases {z : Node} {l : Leaf H} (h : absorbed L A N z = some l) :
    (L.Meets A z ∧ l.hash = hashOpt (L.tree z) ∧
        (l.remember = true → ∃ a ∈ A, L.tree z = some (.leaf a))) ∨
      (¬ L.Meets A z ∧ N z = some l) ∨
      (L.Meets A z.sibling ∧ ¬ L.root z.sibling ∧ l = ⟨hashOpt (L.tree z), false⟩) := by
  rw [absorbed] at h
  by_cases hm : L.Meets A z
  · rw [if_pos hm] at h
    cases h
    exact Or.inl ⟨hm, rfl, fun hr => by simpa using hr⟩
  · rw [if_neg hm] at h
    cases hN : N z with
    | some l' =>
      rw [hN, Option.some_or] at h
      exact Or.inr (Or.inl ⟨hm, h⟩)
    | none =>
      rw [hN, Option.none_or] at h
      by_cases hs : L.Meets A z.sibling ∧ ¬ L.root z.sibling
      · rw [if_pos hs] at h
        cases h
        exact Or.inr (Or.inr ⟨hs.1, hs.2, rfl⟩)
      · rw [if_neg hs] at h
        cases h

/-- What is beside a node above a leaf of `A`. -/
theorem absorbed_sibling_ne_none {z : Node} (h : L.Meets A z) (hr : ¬ L.root z) :
    absorbed L A N z.sibling ≠ none := by
  have hm : L.Meets A z.sibling.sibling ∧ ¬ L.root z.sibling.sibling := by
    rw [Node.sibling_sibling]
    exact ⟨h, hr⟩
  rw [absorbed, if_pos hm]
  split
  · simp
  · cases N z.sibling <;> simp

theorem Sound.absorbed (h : Sound tight L W ∅ N) : Sound tight L (W ∪ A) ∅ (absorbed L A N) where
  inside x hx := by
    obtain ⟨l, hl⟩ := Option.ne_none_iff_exists'.mp hx
    rcases absorbed_cases hl with ⟨hm, -⟩ | ⟨-, hN⟩ | ⟨hm, hr, -⟩
    · exact hm.inside
    · exact h.inside x (by simp [hN])
    · have hin := hm.inside.sibling hr
      rwa [Node.sibling_sibling] at hin
  hash x l hl := by
    rcases absorbed_cases hl with ⟨-, hh, -⟩ | ⟨-, hN⟩ | ⟨-, -, rfl⟩
    · exact hh
    · exact h.hash x l hN
    · rfl
  flag x l hl hr := by
    rcases absorbed_cases hl with ⟨-, -, hA⟩ | ⟨-, hN⟩ | ⟨-, -, rfl⟩
    · obtain ⟨a, ha, hx⟩ := hA hr
      exact ⟨a, Or.inr ha, hx⟩
    · obtain ⟨a, ha, hx⟩ := h.flag x l hN hr
      exact ⟨a, Or.inl ha, hx⟩
    · cases hr
  roots x hx := absorbed_ne_none (h.roots x hx)
  wanted x a ha hx := by
    by_cases hm : L.Meets A x
    · refine ⟨_, if_pos hm, ?_⟩
      simpa using ⟨a, hm.leaf_mem hx, hx⟩
    · rcases ha with ha | ha
      · obtain ⟨l, hl, hr⟩ := h.wanted x a ha hx
        refine ⟨l, ?_, hr⟩
        rw [Utreexo.absorbed, if_neg hm, hl, Option.some_or]
      · exact absurd (Layout.meets_of_leaf ha hx) hm
  beside x hx hr := by
    obtain ⟨a, ha | ha, hmem⟩ := hx
    · exact absorbed_ne_none (h.beside x ⟨a, ha, hmem⟩ hr)
    · exact absorbed_sibling_ne_none ⟨a, ha, hmem⟩ hr
  solid x hx := by
    obtain ⟨l, hl⟩ := Option.ne_none_iff_exists'.mp hx
    rcases absorbed_cases hl with ⟨hm, -⟩ | ⟨-, hN⟩ | ⟨hm, hr, -⟩
    · obtain ⟨T, hT⟩ := hm.exists_tree
      exact Or.inr (by simp [hT])
    · exact h.solid x (by simp [hN])
    · obtain ⟨T, hT⟩ := hm.exists_tree
      obtain ⟨S, hS, -⟩ := Layout.tree_sibling (hm.inside.parent hr) hT
      rw [Node.sibling_sibling] at hS
      exact Or.inr (by simp [hS])
  closed x hc hin hr := by
    obtain ⟨c, rfl, hc⟩ := hc
    obtain ⟨l, hl⟩ := Option.ne_none_iff_exists'.mp hc
    rcases absorbed_cases hl with ⟨hm, -⟩ | ⟨-, hN⟩ | ⟨hm, -, -⟩
    · exact absorbed_sibling_ne_none (hm.parent hin) hr
    · exact absorbed_ne_none (h.closed _ ⟨c, rfl, by simp [hN]⟩ hin hr)
    · rw [← Node.sibling_parent] at hin hr ⊢
      exact absorbed_sibling_ne_none (hm.parent hin) hr
  minimal htight x hx hE := by
    have hmono : ∀ {B z}, B ⊆ W ∪ A → L.Meets B z → L.Meets (W ∪ A) z :=
      fun hB ⟨a, ha, hmem⟩ => ⟨a, hB ha, hmem⟩
    obtain ⟨l, hl⟩ := Option.ne_none_iff_exists'.mp hx
    rcases absorbed_cases hl with ⟨hm, -⟩ | ⟨-, hN⟩ | ⟨hm, -, -⟩
    · exact Or.inr (Or.inl (hmono Set.subset_union_right hm))
    · exact (h.minimal htight x (by simp [hN]) hE).imp_right
        (Or.imp (hmono Set.subset_union_left) (hmono Set.subset_union_left))
    · exact Or.inr (Or.inr (hmono Set.subset_union_right hm))

end

namespace MapPollard
variable {H : Type} [DecidableEq H] [HashOps H] [SortAlg] {m : MapPollard H}
  {slots : List (Option H)} {W C : Set H} {tight : Prop}

section
variable (hnd : (liveLeaves slots).Nodup) (hn : slots.length < 2 ^ 64) {A : Set H} {T : Nat}
  (hT : slots.length ≤ 2 ^ T) {us xs : List Node}
  (hus : NodeListing us {x | Touched slots.length (leavesAt slots A) x})
  (hxs : NodeListing xs {x | Needed slots.length (leavesAt slots A) x})
  {tpos : List Nat}
  (htpos : ∀ z, z.InForest slots.length → (nodePos T z ∈ tpos ↔ z ∈ leavesAt slots A))
include hn hus hxs htpos

omit [DecidableEq H] [SortAlg] in
/-- What is written for an honest proof: the touched nodes, and the needed ones where there is no
node yet. -/
theorem absorbed_forest (N : NodeMap H) :
    (fun z => if z ∈ us then some ⟨hashOpt (placed slots z), nodePos T z ∈ tpos⟩
      else (N z).or (if z ∈ xs then some ⟨hashOpt (placed slots z), false⟩ else none)) =
      absorbed (Layout.forest hnd) A N := by
  have htree := Layout.forest_tree hnd hn
  have hmeets : ∀ {z}, (Layout.forest hnd).Meets A z ↔
      Touched slots.length (leavesAt slots A) z := by
    intro z
    rw [touched_iff hn, Layout.Meets, htree]
  funext z
  rw [absorbed, htree]
  by_cases hz : z ∈ us
  · have ht := (hus.mem z).mp hz
    rw [if_pos hz, if_pos (hmeets.mpr ht)]
    have hiff : nodePos T z ∈ tpos ↔ ∃ a ∈ A, placed slots z = some (.leaf a) := htpos z ht.1
    simp [hiff]
  · have ht : ¬ Touched slots.length (leavesAt slots A) z := fun ht => hz ((hus.mem z).mpr ht)
    rw [if_neg hz, if_neg fun hm => ht (hmeets.mp hm)]
    have hiff : z ∈ xs ↔ (Layout.forest hnd).Meets A z.sibling ∧
        ¬ (Layout.forest hnd).root z.sibling := by
      rw [hxs.mem, hmeets]
      exact ⟨fun h => ⟨h.1, h.2.1⟩, fun h => ⟨h.1, h.2, ht⟩⟩
    by_cases hx : z ∈ xs
    · rw [if_pos hx, if_pos (hiff.mp hx)]
    · rw [if_neg hx, if_neg fun h => hx (hiff.mpr h)]

include hT

omit [SortAlg] in
/-- The nodes of an honest proof are placed, and its leaves are cached. -/
theorem Sees.absorb (hA : ∀ a ∈ A, a ∈ liveLeaves slots) {N : NodeMap H} {K : LeafMap H}
    (hs : m.Sees T slots.length N K) (hK : CachedAt (Layout.forest hnd) C K) (extra : List H) :
    ∃ m', m.placeProof (xs.map (nodePos T))
        ((xs.map fun x => hashOpt (placed slots x)) ++ extra) = .ok m' ∧
      m'.totalRows = T ∧ m'.numLeaves = slots.length ∧
      ∃ m'' K', MapPollard.placeNodes tpos m'
          (us.map fun x => (nodePos T x, hashOpt (placed slots x))) = m'' ∧
        m''.Sees T slots.length (absorbed (Layout.forest hnd) A N) K' ∧
        CachedAt (Layout.forest hnd) (C ∪ A) K' := by
  have hfits : ∀ {x}, x.InForest slots.length → Fits T x := fun hx => fits_of_inForest hT hx
  obtain ⟨m1, hm1, hs1⟩ := hs.placeProof (fun x => hashOpt (placed slots x))
    (fun x hx => hfits (Needed.inForest ((hxs.mem x).mp hx))) extra
  obtain ⟨K', hs2, hK1, hK2, hK3⟩ := hs1.placeNodes (fun x => hashOpt (placed slots x))
    (fun x hx => hfits ((hus.mem x).mp hx).1) tpos
  rw [absorbed_forest hnd hn hus hxs htpos N] at hs2
  refine ⟨m1, hm1, hs1.totalRows, hs1.numLeaves, _, K', rfl, hs2, fun a z hz => ?_, ?_⟩
  · rcases hK1 a z hz with hz | ⟨hu, hpz, rfl⟩
    · obtain ⟨ha, hleaf⟩ := hK.leaf a z hz
      exact ⟨Or.inl ha, hleaf⟩
    · obtain ⟨b, hb, hleaf⟩ := (htpos z ((hus.mem z).mp hu).1).mp hpz
      rw [Layout.forest_tree _ hn, hleaf]
      exact ⟨Or.inr hb, rfl⟩
  · rintro a (ha | ha)
    · exact hK2 a (hK.mem a ha)
    · obtain ⟨x, hx⟩ := (mem_liveLeaves_iff_placed hn).mp (hA a ha)
      have hmem : x ∈ leavesAt slots A := ⟨a, ha, hx⟩
      have hcached := hK3 x ((hus.mem x).mpr (.of_mem inForest_of_leavesAt hmem))
        ((htpos x (placed_inForest hx)).mpr hmem)
      rwa [hx] at hcached

end

/-- The positions of an honest proof, as nodes in their order. -/
structure ProofNodes (slots : List (Option H)) (dels : List H) (proof : Proof H)
    (ts xs us : List Node) : Prop where
  targets : NodeListing ts (leavesAt slots {a | a ∈ dels})
  needed : NodeListing xs {x | Needed slots.length (leavesAt slots {a | a ∈ dels}) x}
  touched : NodeListing us {x | Touched slots.length (leavesAt slots {a | a ∈ dels}) x}
  hashed : toHashAndPos proof.targets dels =
    ts.map fun x => (nodePos (treeRows slots.length) x, hashOpt (placed slots x))
  hashes : ∃ extra, proof.proof = (xs.map fun x => hashOpt (placed slots x)) ++ extra
  calculated : ∃ roots, calculateHashes slots.length (some dels) proof =
    .ok (us.map fun x => (nodePos (treeRows slots.length) x, hashOpt (placed slots x)), roots)

theorem exists_proofNodes (hle : slots.length ≤ 2 ^ 63) (hnd : (liveLeaves slots).Nodup)
    (hne : ∀ a b : H, parentHash a b ≠ empty)
    (hleaf : ∀ a ∈ liveLeaves slots, a ≠ empty) {targets : List Nat} {hashes : List H}
    (hts : List.Forall₂ (LeafAt slots) targets hashes) (hd : hashes.Nodup)
    {positions computed : List Nat}
    (hpos : proofPositions (sortPositions targets) slots.length (treeRows slots.length) =
      .ok (positions, computed)) (extra : List H) :
    ∃ ts xs us,
      ProofNodes slots hashes ⟨targets, positions.map (slotHash slots) ++ extra⟩ ts xs us := by
  have hn : slots.length < 2 ^ 64 := hle.trans_lt (by decide)
  have hfits : ∀ {x}, x.InForest slots.length → Fits (treeRows slots.length) x :=
    fun hx => fits_of_inForest (le_two_pow_treeRows _) hx
  have hleafNodes := leafNodes_eq hn hnd hts
  have htargets : Listing (sortPositions targets)
      (nodePos (treeRows slots.length) '' leavesAt slots {a | a ∈ hashes}) := by
    refine (sort_listing (targets_nodup hle hts hd)).congr fun p => ?_
    rw [Set.mem_ofPred_eq, mem_targets_iff hts, hleafNodes]
  obtain ⟨ts, hlist, hsort⟩ := exists_nodeListing htargets fun x hx =>
    hfits (inForest_of_leavesAt x hx)
  obtain ⟨positions', computed', hpos', hneeded, -⟩ := proofPositions_forest hle hts hd
  rw [hpos] at hpos'
  cases hpos'
  obtain ⟨touched, roots, htouched, -, hcalc⟩ := calculateHashes_forest hle hne hleaf hts hd hpos
    extra
  rw [hleafNodes] at hneeded htouched
  obtain ⟨xs, hxs, rfl⟩ := exists_nodeListing hneeded fun x hx => hfits (Needed.inForest hx)
  obtain ⟨us, hus, rfl⟩ := exists_nodeListing htouched fun x hx => hfits hx.1
  have hhashes : ∀ {l : List Node}, (∀ x ∈ l, x.InForest slots.length) →
      (l.map (nodePos (treeRows slots.length))).map (withHash (slotHash slots)) =
        l.map fun x => (nodePos (treeRows slots.length) x, hashOpt (placed slots x)) := by
    intro l hl
    rw [List.map_map]
    refine List.map_congr_left fun x hx => ?_
    rw [Function.comp_apply, withHash, slotHash_nodePos hle (hl x hx)]
  refine ⟨ts, xs, us, hlist, hxs, hus, ?_, ⟨extra, ?_⟩, roots.map (slotHash slots), ?_⟩
  · show toHashAndPos targets hashes = _
    rw [hashes_eq_map hle hts, toHashAndPos_withHash _ (targets_nodup hle hts hd), hsort]
    exact hhashes fun x hx => inForest_of_leavesAt x ((hlist.mem x).mp hx)
  · show (xs.map (nodePos (treeRows slots.length))).map (slotHash slots) ++ extra = _
    rw [List.map_map, List.append_left_inj]
    refine List.map_congr_left fun x hx => ?_
    rw [Function.comp_apply, slotHash_nodePos hle (Needed.inForest ((hxs.mem x).mp hx))]
  · rw [← hhashes fun x hx => ((hus.mem x).mp hx).1]
    exact hcalc

omit [DecidableEq H] [HashOps H] [SortAlg] in
theorem mem_target_positions {T : Nat} (hT : slots.length ≤ 2 ^ T) {A : Set H} {ts : List Node}
    (hts : ∀ x, x ∈ ts ↔ x ∈ leavesAt slots A) (z : Node) (hz : z.InForest slots.length) :
    nodePos T z ∈ ts.map (nodePos T) ↔ z ∈ leavesAt slots A := by
  rw [List.mem_map, ← hts]
  constructor
  · rintro ⟨x, hx, he⟩
    rwa [← (fits_of_inForest hT (inForest_of_leavesAt x ((hts x).mp hx))).pos_inj
      (fits_of_inForest hT hz) he]
  · exact fun hz => ⟨z, hz, rfl⟩

/-- An honest proof is taken in: its leaves are cached besides the old ones.  Hashes that are left
over are not read. -/
theorem Kept.ingest (h : m.Kept tight slots W C) (hne : ∀ a b : H, parentHash a b ≠ empty)
    (hleaf : ∀ a ∈ liveLeaves slots, a ≠ empty) {targets : List Nat} {hashes : List H}
    (hts : List.Forall₂ (LeafAt slots) targets hashes) (hd : hashes.Nodup)
    {positions computed : List Nat}
    (hpos : proofPositions (sortPositions targets) slots.length (treeRows slots.length) =
      .ok (positions, computed)) (extra : List H) :
    ∃ m', m.ingest hashes ⟨targets, positions.map (slotHash slots) ++ extra⟩ = .ok m' ∧
      m'.totalRows = m.totalRows ∧
      m'.Kept tight slots (W ∪ {a | a ∈ hashes}) (C ∪ {a | a ∈ hashes}) := by
  obtain ⟨N, K, hs, hsound, hK⟩ := h.view
  have hn := h.length_lt
  have hfits : ∀ {x}, x.InForest slots.length → Fits m.totalRows x :=
    fun hx => fits_of_inForest h.room hx
  obtain ⟨ts, xs, us, hp⟩ := exists_proofNodes h.le_63 h.nodup hne hleaf hts hd hpos extra
  obtain ⟨extra', hproof⟩ := hp.hashes
  obtain ⟨m1, hm1, hT1, hn1, m2, K', hm2, hs2, hK2⟩ := hs.absorb h.nodup hn h.room hp.touched
    hp.needed (mem_target_positions h.room hp.targets.mem) (fun a ha => targets_live hts a ha) hK
    extra'
  -- In the rows of the map the same nodes are needed.
  obtain ⟨positionsT, computedT, hposT, hneededT, -⟩ := proofPositions_sweep h.rows h.room
    inForest_of_leavesAt (antichain_leavesAt hn)
    (hp.targets.positions fun x hx => hfits (inForest_of_leavesAt x hx))
  obtain rfl := hneededT.unique (hp.needed.positions fun x hx => hfits (Needed.inForest hx))
  obtain ⟨roots, hcalc⟩ := hp.calculated
  have hfst : (ts.map fun x => (nodePos m.totalRows x, hashOpt (placed slots x))).map Prod.fst =
      ts.map (nodePos m.totalRows) := by
    rw [List.map_map]
    rfl
  change positions.map (slotHash slots) ++ extra = _ at hproof
  have hrows := hs2.totalRows
  refine ⟨m2, ?_, hrows, h.nodup, hrows ▸ h.rows, hrows ▸ h.room,
    Set.union_subset_union_left _ h.cached, _, K', hrows ▸ hs2, hsound.absorbed, hK2⟩
  rw [MapPollard.ingest]
  dsimp only
  rw [hp.hashed, translateSorted_nodes rfl hs.numLeaves _ h.rows h.room hp.targets
    inForest_of_leavesAt, hfst, hs.numLeaves, hposT, Exec.ok_bind]
  dsimp only
  rw [if_neg (Nat.not_lt.mpr (treeRows_le_iff.mpr h.room)), Exec.ok_bind, hproof, hm1,
    Exec.ok_bind, hn1, ← hproof, hcalc, Exec.ok_bind]
  dsimp only
  rw [translateSorted_nodes hT1 hn1 _ h.rows h.room hp.touched fun x hx => hx.1, hm2]

/-- **`Verify` accepts an honest proof, and with `remember` its leaves are cached.** -/
theorem Kept.verify {leaf : H → Prop} (hi : IdealHash H leaf) (h : m.Kept tight slots W C)
    (hfine : ∀ a ∈ liveLeaves slots, leaf a ∧ a ≠ empty) {targets : List Nat} {hashes : List H}
    (hts : List.Forall₂ (LeafAt slots) targets hashes) (hd : hashes.Nodup)
    {positions computed : List Nat}
    (hpos : proofPositions (sortPositions targets) slots.length (treeRows slots.length) =
      .ok (positions, computed)) :
    (m.verify hashes ⟨targets, positions.map (slotHash slots)⟩ false = .ok (m, .ok ())) ∧
    ∃ m', m.verify hashes ⟨targets, positions.map (slotHash slots)⟩ true = .ok (m', .ok ()) ∧
      m'.totalRows = m.totalRows ∧
      m'.Kept tight slots (W ∪ {a | a ∈ hashes}) (C ∪ {a | a ∈ hashes}) := by
  obtain ⟨N, K, hs, -⟩ := h.view
  -- The positions of the proof are on the bottom row of a forest with more rows.
  have htranslate : m.translateProof ⟨targets, positions.map (slotHash slots)⟩ =
      ⟨targets, positions.map (slotHash slots)⟩ := by
    rw [translateProof]
    split
    · next hrows =>
      rw [hs.numLeaves] at hrows ⊢
      have hlt : treeRows slots.length < m.totalRows :=
        lt_of_le_of_ne (treeRows_le_iff.mpr h.room) hrows
      congr 1
      refine (List.map_congr_left fun t ht => ?_).trans (List.map_id targets)
      obtain ⟨a, -, x, hx, rfl⟩ := exists_of_mem_left hts ht
      have hmax := (fits_of_inForest (le_two_pow_treeRows _) (placed_inForest hx)).pos_lt_max
      have hpow : 2 ^ (treeRows slots.length + 1) ≤ 2 ^ m.totalRows :=
        Nat.pow_le_pow_right (by decide) hlt
      exact translatePos_bottom (Or.inl (by omega)) _
    · rfl
  obtain ⟨idxs, hverify, -⟩ := verify_forest hi (fun a ha => (hfine a ha).1)
    (fun a ha => (hfine a ha).2) h.le_63 h.nodup hts hd hpos
  obtain ⟨m', hm', hrows, hh⟩ := h.ingest hi.ne_empty (fun a ha => (hfine a ha).2) hts hd hpos []
  rw [List.append_nil] at hm'
  rw [← h.getStump] at hverify
  refine ⟨?_, m', ?_, hrows, hh⟩
  · rw [MapPollard.verify, htranslate, hverify, Exec.ok_bind]
    rfl
  · rw [MapPollard.verify, htranslate, hverify, Exec.ok_bind]
    dsimp only
    rw [if_pos rfl, hm', Exec.ok_bind]

end MapPollard

end Utreexo
