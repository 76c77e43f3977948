import Utreexo.CachedScan
import Utreexo.DelReport

/-! # A cached proof after the deletions of a block

An exact proof of cached leaves has their positions in ascending order and the hashes of the
forest at the positions that `proofPositions` names (`ExactProof`); it is determined by the
set of the leaves.  `updateProofRemove` makes of the exact proof in a forest the one in the
forest without the deleted leaves.
-/
namespace Utreexo
open Merkle

section
variable {H : Type} {slots : List (Option H)} {C : Set H} {x y : Node}

/-! ### Exact proofs -/

/-- The proof of the cached leaves with the hashes of the forest. -/
structure ExactProof [HashOps H] (slots : List (Option H)) (p : Proof H) (cached : List H) :
    Prop where
  ascending : p.targets.Pairwise (· < ·)
  targets : List.Forall₂ (LeafAt slots) p.targets cached
  proof : ∃ positions computed, proofPositions p.targets slots.length (treeRows slots.length) =
    .ok (positions, computed) ∧ p.proof = positions.map (slotHash slots)

/-- What is needed for leaves is not above anything else that is. -/
theorem antichain_needed {n : Nat} {T : Set Node} : IsAntichain Node.Above {y | Needed n T y} := by
  rintro x hx y hy hne habove
  have hys : x.Above y.sibling := by
    have h := habove.parent_of_ne hne
    rw [← Node.sibling_parent] at h
    exact h.trans y.sibling.parent_above
  obtain ⟨-, t, ht, hyt⟩ := hy.1
  exact hx.2.2 ⟨Needed.inForest hx, t, ht, hys.trans hyt⟩

section
variable [HashOps H] (hn : slots.length ≤ 2 ^ 63)
include hn

/-- The exact proof is the one whose targets and positions list the leaves and what their
proof needs. -/
theorem ExactProof.of_listing {targets positions : List Nat}
    (htargets : Listing targets (nodePos (treeRows slots.length) '' leavesAt slots C))
    (hpositions : Listing positions (nodePos (treeRows slots.length) ''
      {y | Needed slots.length (leavesAt slots C) y})) :
    ExactProof slots ⟨targets, positions.map (slotHash slots)⟩ (targets.map (slotHash slots)) := by
  refine ⟨htargets.sorted, ?_, ?_⟩
  · rw [List.forall₂_map_right_iff, List.forall₂_same]
    intro p hp
    obtain ⟨x, ⟨h, -, hx⟩, rfl⟩ := (htargets.mem p).mp hp
    refine ⟨x, ?_, rfl⟩
    rw [slotHash_nodePos hn (placed_inForest hx), hx]
    rfl
  · obtain ⟨positions', computed, hrun, hlist, -⟩ := proofPositions_sweep (treeRows_le hn)
      (le_two_pow_treeRows _) inForest_of_leavesAt (antichain_leavesAt (by omega)) htargets
    exact ⟨positions', computed, hrun, by rw [hlist.unique hpositions]⟩

theorem mem_slotHash_of_listing (hC : ∀ h ∈ C, h ∈ liveLeaves slots) {targets : List Nat}
    (htargets : Listing targets (nodePos (treeRows slots.length) '' leavesAt slots C)) (h : H) :
    h ∈ targets.map (slotHash slots) ↔ h ∈ C := by
  have hlt : slots.length < 2 ^ 64 := by omega
  constructor
  · intro hh
    obtain ⟨p, hp, rfl⟩ := List.mem_map.mp hh
    obtain ⟨x, ⟨a, ha, hx⟩, rfl⟩ := (htargets.mem p).mp hp
    rw [slotHash_nodePos hn (placed_inForest hx), hx]
    exact ha
  · intro hh
    obtain ⟨x, hx⟩ := (mem_liveLeaves_iff_placed hlt).mp (hC h hh)
    refine List.mem_map.mpr ⟨nodePos (treeRows slots.length) x,
      (htargets.mem _).mpr ⟨x, ⟨h, hh, hx⟩, rfl⟩, ?_⟩
    rw [slotHash_nodePos hn (placed_inForest hx), hx]
    rfl

variable (hnd : (liveLeaves slots).Nodup) {p : Proof H} {cached : List H}
include hnd

/-- What an exact proof lists. -/
theorem ExactProof.listing (h : ExactProof slots p cached) :
    Listing p.targets (nodePos (treeRows slots.length) '' leavesAt slots {a | a ∈ cached}) ∧
      cached = p.targets.map (slotHash slots) ∧
      ∃ positions computed, proofPositions p.targets slots.length (treeRows slots.length) =
          .ok (positions, computed) ∧
        p.proof = positions.map (slotHash slots) ∧
        Listing positions (nodePos (treeRows slots.length) ''
          {y | Needed slots.length (leavesAt slots {a | a ∈ cached}) y}) := by
  have hlist : Listing p.targets
      (nodePos (treeRows slots.length) '' leavesAt slots {a | a ∈ cached}) := by
    refine ⟨h.ascending, fun t => ?_⟩
    rw [← leafNodes_eq (by omega) hnd h.targets]
    exact mem_targets_iff h.targets t
  obtain ⟨positions, computed, hrun, hproof⟩ := h.proof
  obtain ⟨positions', computed', hrun', hneeded, -⟩ := proofPositions_sweep (treeRows_le hn)
    (le_two_pow_treeRows _) inForest_of_leavesAt (antichain_leavesAt (by omega)) hlist
  rw [hrun] at hrun'
  cases hrun'
  exact ⟨hlist, hashes_eq_map hn h.targets, positions, computed, hrun, hproof, hneeded⟩

end

/-- The leaves of a set without some. -/
theorem leavesAt_sdiff {cached dels : List H} :
    leavesAt slots {a | a ∈ cached} \ leavesAt slots {a | a ∈ dels} =
      leavesAt slots {a | a ∈ cached ∧ a ∉ dels} := by
  ext x
  constructor
  · rintro ⟨⟨h, hh, hx⟩, hnot⟩
    exact ⟨h, ⟨hh, fun hd => hnot ⟨h, hd, hx⟩⟩, hx⟩
  · rintro ⟨h, ⟨hh, hnot⟩, hx⟩
    refine ⟨⟨h, hh, hx⟩, ?_⟩
    rintro ⟨a, ha, hxa⟩
    rw [hx] at hxa
    cases hxa
    exact hnot ha

end

/-! ### Where what remains is -/

section
variable {H : Type} [DecidableEq H] {slots : List (Option H)} {dels : List H} {x y z : Node}
  {targets : List Node} {Ds : List (CTree H)} (hn : slots.length ≤ 2 ^ 63)
  (hnd : (liveLeaves slots).Nodup) (hdel : Deletable slots targets Ds)
  (hDs : ∀ h, h ∈ Ds.flatMap CTree.leaves ↔ h ∈ dels)
include hn hnd

omit hnd in
theorem remains_place (hz : z.InForest slots.length) (hT : nodeTree slots z ≠ none) :
    remains slots dels (place slots z) = nodeTree (delSlots slots dels) z := by
  obtain ⟨T, hT⟩ := Option.ne_none_iff_exists'.mp hT
  rw [remains, placed_place (by omega) hz hT, nodeTree_delSlots, hT]

include hdel hDs

/-- What remains of a tree is where the tree has settled. -/
theorem settled_remains (hx : remains slots dels x ≠ none) :
    (∀ t ∈ targets, ¬ t.Above x) ∧
      placed (delSlots slots dels) (settled slots.length targets x) = remains slots dels x := by
  obtain ⟨E, hE⟩ := Option.ne_none_iff_exists'.mp hx
  rw [remains] at hE
  obtain ⟨T, hT, hE⟩ := Option.bind_eq_some_iff.mp hE
  have habove : ∀ t ∈ targets, ¬ t.Above x := by
    intro t ht ha
    obtain ⟨D, hDm, hD⟩ := exists_of_mem_left hdel.placed ht
    obtain ⟨j, rfl⟩ := ha
    rw [placed_up (by omega) hD] at hT
    have hnone : T.prune (· ∈ dels) = none := by
      refine CTree.prune_of_all_dead fun a ha => decide_eq_true ?_
      exact (hDs a).mp (List.mem_flatMap.mpr ⟨D, hDm, (CTree.leaves_subAt hT).subset ha⟩)
    rw [hnone] at hE
    cases hE
  refine ⟨habove, ?_⟩
  obtain ⟨E', hE', hplaced⟩ := placed_settledFrom hn hnd hdel (.start habove) hT
  rw [delSlots_congr hDs] at hplaced
  rw [settled, hplaced, remains, hT, Option.bind_some, ← hE']
  refine CTree.prune_congr fun a _ => ?_
  rw [decide_eq_decide]
  exact hDs a

/-- The place of the same node. -/
theorem settled_place (hz : z.InForest slots.length)
    (hT : nodeTree (delSlots slots dels) z ≠ none) :
    settled slots.length targets (place slots z) = place (delSlots slots dels) z := by
  have hlt : slots.length < 2 ^ 64 := by omega
  have hT0 : nodeTree slots z ≠ none := by
    intro hnone
    rw [nodeTree_delSlots, hnone] at hT
    exact hT rfl
  have hrem : remains slots dels (place slots z) = _ := remains_place hn hz hT0
  obtain ⟨-, hplaced⟩ := settled_remains hn hnd hdel hDs (x := place slots z) (by rwa [hrem])
  obtain ⟨E, hE⟩ := Option.ne_none_iff_exists'.mp hT
  have hnd' : (liveLeaves (delSlots slots dels)).Nodup := by
    rw [liveLeaves_delSlots]
    exact hnd.filter _
  rw [hrem, hE] at hplaced
  exact placed_unique (by rwa [length_delSlots]) hnd' hplaced
    (placed_place (by rwa [length_delSlots]) (by rwa [length_delSlots]) hE)

/-- Trees apart from one another do not settle in the same place. -/
theorem settled_inj (hx : remains slots dels x ≠ none) (hy : remains slots dels y ≠ none)
    (h : settled slots.length targets x = settled slots.length targets y) :
    x.Above y ∨ y.Above x := by
  have hlt : slots.length < 2 ^ 64 := by omega
  obtain ⟨-, hpx⟩ := settled_remains hn hnd hdel hDs hx
  obtain ⟨-, hpy⟩ := settled_remains hn hnd hdel hDs hy
  rw [h, hpy] at hpx
  obtain ⟨E, hE⟩ := Option.ne_none_iff_exists'.mp hx
  have hE' := hpx.trans hE
  obtain ⟨a, ha⟩ := List.exists_mem_of_ne_nil _ E.leaves_ne_nil
  -- A leaf of both trees is below both nodes.
  have hbelow : ∀ {w : Node}, remains slots dels w = some E →
      ∃ v, w.Above v ∧ placed slots v = some (.leaf a) := by
    intro w hw
    obtain ⟨T, hT, hw⟩ := Option.bind_eq_some_iff.mp hw
    refine exists_leaf_below hlt hT ?_
    have := CTree.leavesOpt_prune (· ∈ dels) T
    rw [hw, CTree.leavesOpt_some] at this
    rw [this] at ha
    exact List.mem_of_mem_filter ha
  obtain ⟨v, hv, hpv⟩ := hbelow hE
  obtain ⟨w, hw, hpw⟩ := hbelow hE'
  obtain rfl := placed_leaf_unique hlt hnd hpv hpw
  exact hv.total hw

/-- The leaves that stay move to their new places. -/
theorem settled_leavesAt {C : Set H} (hC : ∀ h ∈ C, h ∉ dels)
    (hlive : ∀ h ∈ C, h ∈ liveLeaves slots) :
    settled slots.length targets '' leavesAt slots C = leavesAt (delSlots slots dels) C := by
  have hlt : slots.length < 2 ^ 64 := by omega
  have hmove : ∀ {x : Node} {h : H}, h ∈ C → placed slots x = some (.leaf h) →
      placed (delSlots slots dels) (settled slots.length targets x) = some (.leaf h) := by
    intro x h hh hx
    have hrem : remains slots dels x = some (.leaf h) := by
      rw [remains_of_apart, hx]
      rw [hx]
      intro a ha
      obtain rfl : a = h := by simpa [CTree.leaves] using ha
      exact hC a hh
    rw [(settled_remains hn hnd hdel hDs (by rw [hrem]; exact Option.some_ne_none _)).2, hrem]
  ext w
  constructor
  · rintro ⟨x, ⟨h, hh, hx⟩, rfl⟩
    exact ⟨h, hh, hmove hh hx⟩
  · rintro ⟨h, hh, hw⟩
    obtain ⟨x, hx⟩ := (mem_liveLeaves_iff_placed hlt).mp (hlive h hh)
    have hnd' : (liveLeaves (delSlots slots dels)).Nodup := by
      rw [liveLeaves_delSlots]
      exact hnd.filter _
    exact ⟨x, ⟨h, hh, hx⟩, placed_leaf_unique (by rwa [length_delSlots]) hnd' (hmove hh hx) hw⟩

/-- Of what the proof of the leaves that stay needs, what remains moves to what it needs
then. -/
theorem settled_needed {C : Set H} (hC : ∀ h ∈ C, h ∉ dels) :
    settled slots.length targets '' {y | Needed slots.length (leavesAt slots C) y ∧
        remains slots dels y ≠ none} =
      {w | Needed slots.length (leavesAt (delSlots slots dels) C) w} := by
  have hlt : slots.length < 2 ^ 64 := by omega
  have hlen := length_delSlots slots dels
  have hnd' : (liveLeaves (delSlots slots dels)).Nodup := by
    rw [liveLeaves_delSlots]
    exact hnd.filter _
  ext w
  constructor
  · rintro ⟨y, ⟨hy, hrem⟩, rfl⟩
    obtain ⟨z, hz, rfl⟩ := (needed_iff hlt hnd).mp hy
    rw [remains_place hn hz.inForest hz.tree] at hrem
    have hneeded := (needed_iff (by rwa [hlen]) hnd').mpr
      ⟨z, (lacking_delSlots hC).mpr ⟨hz, hrem⟩, rfl⟩
    rw [hlen] at hneeded
    rw [settled_place hn hnd hdel hDs hz.inForest hrem]
    exact hneeded
  · intro hw
    have hw' : Needed (delSlots slots dels).length (leavesAt (delSlots slots dels) C) w := by
      rw [hlen]
      exact hw
    obtain ⟨z, hz, rfl⟩ := (needed_iff (by rwa [hlen]) hnd').mp hw'
    obtain ⟨hz, hrem⟩ := (lacking_delSlots hC).mp hz
    refine ⟨place slots z, ⟨(needed_iff hlt hnd).mpr ⟨z, hz, rfl⟩, ?_⟩,
      settled_place hn hnd hdel hDs hz.inForest hrem⟩
    rwa [remains_place hn hz.inForest hz.tree]

end

/-! ### The entries after the deletions -/

section
variable {H : Type} [DecidableEq H] [HashOps H] {slots : List (Option H)} {dels : List H}
  {x y : Node} {targets : List Node} {Ds : List (CTree H)} {leaf : H → Prop}
  (hi : IdealHash H leaf) (hleaf : ∀ h ∈ liveLeaves slots, h ≠ empty ∧ leaf h)
  (hn : slots.length ≤ 2 ^ 63) (hnd : (liveLeaves slots).Nodup)

omit [DecidableEq H] [HashOps H] in
theorem sort_withHash [SortAlg] (V : Nat → H) {l : List Nat} (h : l.Nodup) :
    SortAlg.sort Prod.fst (l.map (withHash V)) = (sortPositions l).map (withHash V) := by
  have hsort := toHashAndPos_withHash V h
  rwa [toHashAndPos, zip_map_eq] at hsort

include hi hleaf in
theorem hashOpt_remains_ne_empty (hx : remains slots dels x ≠ none) :
    hashOpt (remains slots dels x) ≠ empty := by
  obtain ⟨E, hE⟩ := Option.ne_none_iff_exists'.mp hx
  rw [hE]
  refine treeHash_ne_empty hi.ne_empty fun h hh => ?_
  have hmem : h ∈ CTree.leavesOpt (remains slots dels x) := by
    rw [hE]
    exact hh
  exact (hleaf h (leaves_remains h hmem)).1

include hi hleaf hn hnd

/-- **`getNewPositions` on entries with the hashes of what remains** moves those of which
something remains to where the forest has it after the deletions. -/
theorem getNewPositions_remains [SortAlg] (hdel : Deletable slots targets Ds)
    (hDs : ∀ h, h ∈ Ds.flatMap CTree.leaves ↔ h ∈ dels) {l : List Nat} (hl : l.Nodup)
    (hin : ∀ p ∈ l, ∃ x : Node, x.InForest slots.length ∧
      nodePos (treeRows slots.length) x = p)
    {S : Set Node} (hS : ∀ x : Node, x ∈ S ↔ x.InForest slots.length ∧
      nodePos (treeRows slots.length) x ∈ l ∧ remains slots dels x ≠ none)
    (hanti : IsAntichain Node.Above S) {appendRoots : Bool}
    (happend : ∀ x ∈ S, appendRoots = true ∨
      ¬ (settled slots.length targets x).IsRoot slots.length) :
    ∃ l', getNewPositions (targets.map (nodePos (treeRows slots.length)))
        (l.map (withHash (remainHash slots dels))) slots.length appendRoots =
        .ok (l'.map (withHash (slotHash (delSlots slots dels)))) ∧
      Listing l' (nodePos (treeRows slots.length) '' (settled slots.length targets '' S)) := by
  have hlen := length_delSlots slots dels
  -- The nodes of the entries.
  obtain ⟨xs, hxs, rfl⟩ : ∃ xs : List Node, (∀ x ∈ xs, x.InForest slots.length) ∧
      l = xs.map (nodePos (treeRows slots.length)) := exists_eq_map hin
  have hS' : ∀ x ∈ S, x ∈ xs ∧ x.InForest slots.length ∧ remains slots dels x ≠ none := by
    intro x hx
    obtain ⟨h1, h2, h3⟩ := (hS x).mp hx
    obtain ⟨y, hy, he⟩ := List.mem_map.mp h2
    obtain rfl := nodePos_inj (le_two_pow_treeRows _) (hxs y hy) h1 he
    exact ⟨hy, h1, h3⟩
  have hempty : ∀ {x : Node}, x.InForest slots.length →
      (remainHash slots dels (nodePos (treeRows slots.length) x) ≠ empty ↔
        remains slots dels x ≠ none) := by
    intro x hx
    rw [remainHash_nodePos hn hx]
    refine ⟨fun h hnone => h ?_, hashOpt_remains_ne_empty hi hleaf⟩
    rw [hnone]
    rfl
  have hmem : ∀ {x : Node}, x ∈ xs →
      remainHash slots dels (nodePos (treeRows slots.length) x) ≠ empty → x ∈ S := by
    intro x hx hne
    exact (hS x).mpr ⟨hxs x hx, List.mem_map_of_mem hx, (hempty (hxs x hx)).mp hne⟩
  have hsettled : ∀ x ∈ S, (∀ t ∈ targets, ¬ t.Above x) ∧
      placed (delSlots slots dels) (settled slots.length targets x) = remains slots dels x :=
    fun x hx => settled_remains hn hnd hdel hDs (hS' x hx).2.2
  have hsin : ∀ x ∈ S, (settled slots.length targets x).InForest slots.length := by
    intro x hx
    obtain ⟨E, hE⟩ := Option.ne_none_iff_exists'.mp (hS' x hx).2.2
    have := placed_inForest ((hsettled x hx).2.trans hE)
    rwa [hlen] at this
  have hentries : (xs.map (nodePos (treeRows slots.length))).map
        (withHash (remainHash slots dels)) =
      (xs.map fun x => (x, remainHash slots dels (nodePos (treeRows slots.length) x))).map
        (hashAndPos (treeRows slots.length)) := by
    rw [List.map_map, List.map_map]
    rfl
  have htargets : ∀ t ∈ targets, t.InForest slots.length := by
    intro t ht
    obtain ⟨D, -, hD⟩ := exists_of_mem_left hdel.placed ht
    exact placed_inForest hD
  have hslice : ∀ e ∈ xs.map fun x =>
        (x, remainHash slots dels (nodePos (treeRows slots.length) x)),
      e.1.InForest slots.length ∧ (e.2 ≠ empty → ∀ t ∈ targets, ¬ t.Above e.1) := by
    intro e he
    obtain ⟨x, hx, rfl⟩ := List.mem_map.mp he
    exact ⟨hxs x hx, fun hne => (hsettled x (hmem hx hne)).1⟩
  have hloop := newPositionsLoop_anyOrder hn hdel.antichain hdel.twinless htargets hslice
    (fun e he hne => by
      obtain ⟨x, hx, rfl⟩ := List.mem_map.mp he
      have hxS := hmem hx hne
      exact (happend x hxS).imp_right fun h => ⟨hsin x hxS, h⟩)
    (Nat.zero_le _)
  -- The moved entries have the hashes of the new forest.
  have hmoved : ((xs.map fun x =>
        (x, remainHash slots dels (nodePos (treeRows slots.length) x))).filter
          fun e => e.2 ≠ empty).map
        (fun e => hashAndPos (treeRows slots.length) (settled slots.length targets e.1, e.2)) =
      ((xs.filter fun x =>
          remainHash slots dels (nodePos (treeRows slots.length) x) ≠ empty).map fun x =>
            nodePos (treeRows slots.length) (settled slots.length targets x)).map
        (withHash (slotHash (delSlots slots dels))) := by
    rw [List.filter_map, List.map_map, List.map_map]
    refine List.map_congr_left fun x hx => ?_
    obtain ⟨hx, hne⟩ := List.mem_filter.mp hx
    have hxS := hmem hx (by simpa using hne)
    have hhash : slotHash (delSlots slots dels)
        (nodePos (treeRows slots.length) (settled slots.length targets x)) =
        remainHash slots dels (nodePos (treeRows slots.length) x) := by
      have hin' : (settled slots.length targets x).InForest (delSlots slots dels).length := by
        rw [hlen]
        exact hsin x hxS
      have h := slotHash_nodePos (by rwa [hlen]) hin'
      rw [hlen] at h
      rw [h, (hsettled x hxS).2, remainHash_nodePos hn (hxs x hx)]
    simp only [Function.comp_apply, hashAndPos, withHash, hhash]
  have hnodup : ((xs.filter fun x =>
      remainHash slots dels (nodePos (treeRows slots.length) x) ≠ empty).map fun x =>
        nodePos (treeRows slots.length) (settled slots.length targets x)).Nodup := by
    refine List.Nodup.map_on ?_ (hl.of_map.filter _)
    intro x hx y hy he
    obtain ⟨hx, hxne⟩ := List.mem_filter.mp hx
    obtain ⟨hy, hyne⟩ := List.mem_filter.mp hy
    have hxS := hmem hx (by simpa using hxne)
    have hyS := hmem hy (by simpa using hyne)
    by_contra hne
    have he' := nodePos_inj (le_two_pow_treeRows _) (hsin x hxS) (hsin y hyS) he
    rcases settled_inj hn hnd hdel hDs (hS' x hxS).2.2 (hS' y hyS).2.2 he' with h | h
    · exact hanti hxS hyS hne h
    · exact hanti hyS hxS (Ne.symm hne) h
  refine ⟨_, ?_, (sort_listing hnodup).congr fun p => ?_⟩
  · rw [getNewPositions, hentries, hloop, Exec.ok_bind, hmoved, sort_withHash _ hnodup]
  · simp only [Set.mem_ofPred_eq, List.mem_map, Set.mem_image]
    constructor
    · rintro ⟨x, hx, rfl⟩
      obtain ⟨hx, hne⟩ := List.mem_filter.mp hx
      exact ⟨_, ⟨x, hmem hx (by simpa using hne), rfl⟩, rfl⟩
    · rintro ⟨-, ⟨x, hx, rfl⟩, rfl⟩
      obtain ⟨h1, h2, h3⟩ := hS' x hx
      exact ⟨x, List.mem_filter.mpr ⟨h1, by simpa using (hempty h2).mpr h3⟩, rfl⟩

/-! ### The step -/

omit [HashOps H] hi hleaf hnd in
/-- What is needed only without the deleted leaves was computed from one of them. -/
theorem touched_of_newly_needed {cached : List H}
    (h' : Needed slots.length (leavesAt slots {a | a ∈ cached ∧ a ∉ dels}) y)
    (h : ¬ Needed slots.length (leavesAt slots {a | a ∈ cached}) y) :
    Touched slots.length (leavesAt slots {a | a ∈ dels}) y := by
  have hlt : slots.length < 2 ^ 64 := by omega
  have hsub : ∀ {x : Node}, Touched slots.length (leavesAt slots {a | a ∈ cached ∧ a ∉ dels}) x →
      Touched slots.length (leavesAt slots {a | a ∈ cached}) x := by
    intro x hx
    obtain ⟨a, ha, hm⟩ := (touched_iff hlt).mp hx
    exact (touched_iff hlt).mpr ⟨a, ha.1, hm⟩
  have hy : Touched slots.length (leavesAt slots {a | a ∈ cached}) y := by
    by_contra hnot
    exact h ⟨hsub h'.1, h'.2.1, hnot⟩
  obtain ⟨a, ha, hm⟩ := (touched_iff hlt).mp hy
  refine (touched_iff hlt).mpr ⟨a, ?_, hm⟩
  by_contra hd
  exact h'.2.2 ((touched_iff hlt).mpr ⟨a, ⟨ha, hd⟩, hm⟩)

omit [HashOps H] hi hleaf hnd in
/-- Trees without a deleted leaf remain. -/
theorem remains_of_not_touched (h : ¬ Touched slots.length (leavesAt slots {a | a ∈ dels}) y) :
    remains slots dels y = placed slots y :=
  remains_of_apart fun a ha hd => h ((touched_iff (by omega)).mpr ⟨a, hd, ha⟩)

omit [DecidableEq H] [HashOps H] hi hleaf in
theorem placed_of_needed {C : Set H} (h : Needed slots.length (leavesAt slots C) y) :
    placed slots y ≠ none := by
  have hlt : slots.length < 2 ^ 64 := by omega
  obtain ⟨z, hz, rfl⟩ := (needed_iff hlt hnd).mp h
  obtain ⟨T, hT⟩ := Option.ne_none_iff_exists'.mp hz.tree
  rw [placed_place hlt hz.inForest hT]
  exact Option.some_ne_none T

/-- The targets that stay, moved. -/
theorem getNewPositions_targets [SortAlg] (hdel : Deletable slots targets Ds)
    (hDs : ∀ h, h ∈ Ds.flatMap CTree.leaves ↔ h ∈ dels) {C : Set H} (hC : ∀ h ∈ C, h ∉ dels)
    (hlive : ∀ h ∈ C, h ∈ liveLeaves slots) {l : List Nat}
    (hl : Listing l (nodePos (treeRows slots.length) '' leavesAt slots C)) :
    ∃ l', getNewPositions (targets.map (nodePos (treeRows slots.length)))
        (l.map (withHash (slotHash slots))) slots.length true =
        .ok (l'.map (withHash (slotHash (delSlots slots dels)))) ∧
      Listing l' (nodePos (treeRows slots.length) '' leavesAt (delSlots slots dels) C) := by
  have hrem : ∀ x ∈ leavesAt slots C, remains slots dels x = placed slots x := by
    rintro x ⟨a, ha, hx⟩
    refine remains_of_apart fun b hb => ?_
    rw [hx] at hb
    obtain rfl : b = a := by simpa [CTree.leaves] using hb
    exact hC b ha
  have hhash : l.map (withHash (slotHash slots)) = l.map (withHash (remainHash slots dels)) := by
    refine List.map_congr_left fun q hq => ?_
    obtain ⟨x, hx, rfl⟩ := (hl.mem q).mp hq
    have hin := inForest_of_leavesAt x hx
    rw [withHash, withHash, slotHash_nodePos hn hin, remainHash_nodePos hn hin, hrem x hx]
  have hS : ∀ x : Node, x ∈ leavesAt slots C ↔ x.InForest slots.length ∧
      nodePos (treeRows slots.length) x ∈ l ∧ remains slots dels x ≠ none := by
    intro x
    constructor
    · intro hx
      refine ⟨inForest_of_leavesAt x hx, (hl.mem _).mpr ⟨x, hx, rfl⟩, ?_⟩
      rw [hrem x hx]
      obtain ⟨a, -, hx⟩ := hx
      rw [hx]
      exact Option.some_ne_none _
    · rintro ⟨hin, hmem, -⟩
      exact (mem_nodePos_image (le_two_pow_treeRows _) inForest_of_leavesAt hin).mp
        ((hl.mem _).mp hmem)
  have hin : ∀ q ∈ l, ∃ x : Node, x.InForest slots.length ∧
      nodePos (treeRows slots.length) x = q := by
    intro q hq
    obtain ⟨x, hx, rfl⟩ := (hl.mem q).mp hq
    exact ⟨x, inForest_of_leavesAt x hx, rfl⟩
  have hmoved := getNewPositions_remains hi hleaf hn hnd hdel hDs hl.nodup hin hS
    (antichain_leavesAt (by omega)) fun x _ => Or.inl (Eq.refl true)
  rwa [← hhash, settled_leavesAt hn hnd hdel hDs hC hlive] at hmoved

/-- The entries of the proof, moved. -/
theorem getNewPositions_proof [SortAlg] (hdel : Deletable slots targets Ds)
    (hDs : ∀ h, h ∈ Ds.flatMap CTree.leaves ↔ h ∈ dels) {C : Set H} (hC : ∀ h ∈ C, h ∉ dels)
    {l : List Nat} (hl : l.Nodup)
    (hneeded : ∀ q ∈ l, ∃ y, Needed slots.length (leavesAt slots C) y ∧
      nodePos (treeRows slots.length) y = q)
    (hall : ∀ y, Needed slots.length (leavesAt slots C) y → remains slots dels y ≠ none →
      nodePos (treeRows slots.length) y ∈ l) :
    ∃ l', getNewPositions (targets.map (nodePos (treeRows slots.length)))
        (l.map (withHash (remainHash slots dels))) slots.length false =
        .ok (l'.map (withHash (slotHash (delSlots slots dels)))) ∧
      Listing l' (nodePos (treeRows slots.length) ''
        {w | Needed slots.length (leavesAt (delSlots slots dels) C) w}) := by
  have hS : ∀ x : Node, x ∈ {y | Needed slots.length (leavesAt slots C) y ∧
      remains slots dels y ≠ none} ↔ x.InForest slots.length ∧
      nodePos (treeRows slots.length) x ∈ l ∧ remains slots dels x ≠ none := by
    intro x
    constructor
    · rintro ⟨hx, hrem⟩
      exact ⟨Needed.inForest hx, hall x hx hrem, hrem⟩
    · rintro ⟨hin, hmem, hrem⟩
      obtain ⟨y, hy, he⟩ := hneeded _ hmem
      obtain rfl := nodePos_inj (le_two_pow_treeRows _) (Needed.inForest hy) hin he
      exact ⟨hy, hrem⟩
  have hin : ∀ q ∈ l, ∃ x : Node, x.InForest slots.length ∧
      nodePos (treeRows slots.length) x = q := by
    intro q hq
    obtain ⟨y, hy, rfl⟩ := hneeded q hq
    exact ⟨y, Needed.inForest hy, rfl⟩
  have himage := settled_needed hn hnd hdel hDs hC
  -- What is needed is no root.
  have hnr : ∀ x ∈ {y | Needed slots.length (leavesAt slots C) y ∧ remains slots dels y ≠ none},
      (false = true) ∨ ¬ (settled slots.length targets x).IsRoot slots.length := by
    intro x hx
    right
    have hw : settled slots.length targets x ∈
        {w | Needed slots.length (leavesAt (delSlots slots dels) C) w} := by
      rw [← himage]
      exact ⟨x, hx, rfl⟩
    have := hw.1.1.sibling_not_isRoot
    rwa [Node.sibling_sibling] at this
  have hmoved := getNewPositions_remains hi hleaf hn hnd hdel hDs hl hin hS
    (fun x hx y hy hne => antichain_needed hx.1 hy.1 hne) hnr
  rwa [himage] at hmoved

/-- **`updateProofRemove` keeps a proof exact.**  The cached leaves that are not deleted stay
cached. -/
theorem Proof.updateProofRemove_exact [SortAlg] {p : Proof H} {cached : List H}
    (h : ExactProof slots p cached) {blockTargets touched : List Nat}
    (hb : List.Forall₂ (LeafAt slots) blockTargets dels) (hd : dels.Nodup)
    (htouched : Listing touched (nodePos (treeRows slots.length) ''
      {x | Touched slots.length (leavesAt slots {a | a ∈ dels}) x})) :
    ∃ p' cached', p.updateProofRemove blockTargets cached
        (touched.map (withHash (remainHash slots dels))) slots.length = .ok (p', cached') ∧
      ExactProof (delSlots slots dels) p' cached' ∧
      ∀ a, a ∈ cached' ↔ a ∈ cached ∧ a ∉ dels := by
  have hlt : slots.length < 2 ^ 64 := by omega
  have hlen := length_delSlots slots dels
  obtain ⟨hlist, hcached, positions, computed, hrun, hproof, hneeded⟩ := h.listing hn hnd
  -- The block's targets, and the cached leaves that stay.
  have hblock : Listing (sortPositions blockTargets)
      (nodePos (treeRows slots.length) '' leavesAt slots {a | a ∈ dels}) := by
    refine (sort_listing (targets_nodup hn hb hd)).congr fun t => ?_
    rw [← leafNodes_eq hlt hnd hb]
    exact mem_targets_iff hb t
  have hstay : Listing (subtractSortedSlice p.targets (sortPositions blockTargets) uint64Cmp)
      (nodePos (treeRows slots.length) '' leavesAt slots {a | a ∈ cached ∧ a ∉ dels}) := by
    refine (subtractSlice_listing hlist hblock).congr fun q => ?_
    rw [← nodePos_image_sdiff (le_two_pow_treeRows _) inForest_of_leavesAt inForest_of_leavesAt,
      leavesAt_sdiff]
  have hC : ∀ a ∈ {a | a ∈ cached ∧ a ∉ dels}, a ∉ dels := fun a ha => ha.2
  have hlive : ∀ a ∈ {a | a ∈ cached ∧ a ∉ dels}, a ∈ liveLeaves slots :=
    fun a ha => targets_live h.targets a ha.1
  obtain ⟨needed, computed', hrun', hneeded', -⟩ := proofPositions_sweep (treeRows_le hn)
    (le_two_pow_treeRows _) inForest_of_leavesAt (antichain_leavesAt hlt) hstay
  -- The loops over the slices.
  have htargets : toHashAndPos p.targets cached = p.targets.map (withHash (slotHash slots)) := by
    have hsort := toHashAndPos_withHash (slotHash slots) hlist.nodup
    rwa [← hcached, sortPositions_eq_self hlist] at hsort
  have hold : toHashAndPos positions p.proof = positions.map (withHash (slotHash slots)) := by
    have hsort := toHashAndPos_withHash (slotHash slots) hneeded.nodup
    rwa [← hproof, sortPositions_eq_self hneeded] at hsort
  have hextra : Listing (subtractSortedSlice positions needed uint64Cmp)
      (nodePos (treeRows slots.length) '' {y | Needed slots.length
          (leavesAt slots {a | a ∈ cached}) y} \
        nodePos (treeRows slots.length) '' {y | Needed slots.length
          (leavesAt slots {a | a ∈ cached ∧ a ∉ dels}) y}) :=
    subtractSlice_listing hneeded hneeded'
  have hmissing := subtractSlice_listing (subtractSlice_listing hneeded' hneeded) hblock
  have hkeep := keepProofs_withHash (slotHash slots) (remainHash slots dels) hneeded.sorted
    hextra.sorted htouched.sorted fun q hq hnot => by
      obtain ⟨y, hy, rfl⟩ := (hneeded.mem q).mp hq
      have hin := Needed.inForest hy
      have hrem : remains slots dels y = placed slots y :=
        remains_of_not_touched hn fun ht => hnot ((htouched.mem _).mpr ⟨y, ht, rfl⟩)
      rw [slotHash_nodePos hn hin, remainHash_nodePos hn hin, hrem]
      refine ⟨rfl, ?_⟩
      rw [← hrem]
      refine hashOpt_remains_ne_empty hi hleaf ?_
      rw [hrem]
      exact placed_of_needed hn hnd hy
  have hadd := entriesAt_withHash (remainHash slots dels) hmissing.sorted htouched.sorted
  -- The block's deletions.
  obtain ⟨xs, hxs, rfl⟩ := exists_nodes hb
  obtain ⟨ys, Ds, hys, hdel, hDs⟩ := exists_deletable hn hxs hd
  obtain ⟨stay', hrunT, hstay'⟩ :=
    getNewPositions_targets hi hleaf hn hnd hdel hDs hC hlive hstay
  have hnodup : ((positions.filter fun q => q ∉ subtractSortedSlice positions needed uint64Cmp ∧
        remainHash slots dels q ≠ empty) ++
      (subtractSortedSlice (subtractSortedSlice needed positions uint64Cmp)
        (sortPositions (xs.map (nodePos (treeRows slots.length)))) uint64Cmp).filter
          (· ∈ touched)).Nodup := by
    refine List.Nodup.append (hneeded.nodup.filter _) (hmissing.nodup.filter _) ?_
    intro q h1 h2
    exact ((hmissing.mem q).mp (List.mem_of_mem_filter h2)).1.2
      ((hneeded.mem q).mp (List.mem_of_mem_filter h1))
  obtain ⟨needed', hrunP, hneeded''⟩ := getNewPositions_proof hi hleaf hn hnd hdel hDs hC hnodup
    (fun q hq => by
      rcases List.mem_append.mp hq with hq | hq
      · obtain ⟨hq, hex⟩ := List.mem_filter.mp hq
        have hex' : q ∉ subtractSortedSlice positions needed uint64Cmp := by
          simp only [decide_eq_true_eq] at hex
          exact hex.1
        rw [hextra.mem] at hex'
        by_contra hnot
        exact hex' ⟨(hneeded.mem q).mp hq, hnot⟩
      · exact ((hmissing.mem q).mp (List.mem_of_mem_filter hq)).1.1)
    (fun y hy hrem => by
      have hin := Needed.inForest hy
      by_cases hold' : Needed slots.length (leavesAt slots {a | a ∈ cached}) y
      · refine List.mem_append_left _ (List.mem_filter.mpr
          ⟨(hneeded.mem _).mpr ⟨y, hold', rfl⟩, decide_eq_true ⟨?_, ?_⟩⟩)
        · rw [hextra.mem]
          exact fun h => h.2 ⟨y, hy, rfl⟩
        · rw [remainHash_nodePos hn hin]
          exact hashOpt_remains_ne_empty hi hleaf hrem
      · have hty := touched_of_newly_needed hn hy hold'
        refine List.mem_append_right _ (List.mem_filter.mpr
          ⟨(hmissing.mem _).mpr ⟨⟨⟨y, hy, rfl⟩, ?_⟩, ?_⟩,
            decide_eq_true ((htouched.mem _).mpr ⟨y, hty, rfl⟩)⟩)
        · rw [mem_nodePos_image (le_two_pow_treeRows _) (inForest_of_needed _) hin]
          exact hold'
        · rw [mem_nodePos_image (le_two_pow_treeRows _) inForest_of_leavesAt hin]
          rintro ⟨a, ha, hx⟩
          exact hrem (remains_leaf hx ha))
  -- The results are the exact proof in the new forest.
  have hstay2 : Listing stay' (nodePos (treeRows (delSlots slots dels).length) ''
      leavesAt (delSlots slots dels) {a | a ∈ cached ∧ a ∉ dels}) := by
    rwa [hlen]
  have hneeded2 : Listing needed' (nodePos (treeRows (delSlots slots dels).length) ''
      {w | Needed (delSlots slots dels).length
        (leavesAt (delSlots slots dels) {a | a ∈ cached ∧ a ∉ dels}) w}) := by
    rwa [hlen]
  have hlive' : ∀ a ∈ {a | a ∈ cached ∧ a ∉ dels}, a ∈ liveLeaves (delSlots slots dels) := by
    intro a ha
    rw [liveLeaves_delSlots, List.mem_filter]
    exact ⟨hlive a ha, by simpa using ha.2⟩
  refine ⟨_, _, ?_, ExactProof.of_listing (by rwa [hlen]) hstay2 hneeded2,
    mem_slotHash_of_listing (by rwa [hlen]) hlive' hstay2⟩
  rw [Proof.updateProofRemove]
  simp only [copySorted, htargets, subtractSortedHashAndPos_withHash, sortPositions_eq_self hlist,
    hrun, Exec.ok_bind, hold, map_withHash_fst, hrun', sortPositions_eq_self hneeded,
    sortPositions_eq_self hneeded', hkeep, hadd, hys, hrunT, ← List.map_append, hrunP,
    map_withHash_snd]

end

end Utreexo
