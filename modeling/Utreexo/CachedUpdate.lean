import Utreexo.CachedAdd

/-! # A block taken into the cached proof

`updateProofAdd` merges what the Stump reports about the additions with the moved proof and
picks the needed entries.  Every entry that is needed and was not before lies next to an added
leaf or next to an old root, and the report has it (`needed_grown`).
-/
namespace Utreexo
open Merkle

/-! ### The leaves to be cached -/

/-- Strictly increasing indexes are met in order: the loop finds each of them that is in the
slice.  They are `uint32`, so all are behind by the time that `i` does not fit any more. -/
theorem mem_rememberedLoop {H : Type} {a : H} {fuel i : Nat} {adds : List H}
    {remembers : List Nat} (hf : adds.length ≤ fuel)
    (hindex : ∀ r ∈ remembers, i ≤ r ∧ r < 2 ^ 32) (hsorted : remembers.Pairwise (· < ·)) :
    a ∈ rememberedLoop fuel i adds remembers ↔ ∃ r ∈ remembers, adds[r - i]? = some a := by
  induction fuel generalizing i adds remembers with
  | zero =>
    obtain rfl : adds = [] := List.eq_nil_of_length_eq_zero (Nat.le_zero.mp hf)
    simp [rememberedLoop]
  | succ fuel ih =>
    cases adds with
    | nil => simp [rememberedLoop]
    | cons b adds =>
      cases remembers with
      | nil => simp [rememberedLoop]
      | cons r remembers =>
        rw [List.length_cons, Nat.add_le_add_iff_right] at hf
        obtain ⟨hr, hsorted'⟩ := List.pairwise_cons.mp hsorted
        obtain ⟨hir, hr32⟩ := hindex r List.mem_cons_self
        -- An index behind `i` is one in the rest of the slice.
        have hrest : ∀ q, i < q → (b :: adds)[q - i]? = adds[q - (i + 1)]? := by
          intro q hq
          rw [show q - i = (q - (i + 1)) + 1 by omega, List.getElem?_cons_succ]
        rw [rememberedLoop, Nat.mod_eq_of_lt (hir.trans_lt hr32)]
        rcases Nat.eq_or_lt_of_le hir with rfl | hlt
        · rw [if_pos rfl, List.mem_cons, ih hf
            (fun q hq => ⟨hr q hq, (hindex q (List.mem_cons_of_mem _ hq)).2⟩) hsorted',
            List.exists_mem_cons_iff, Nat.sub_self, List.getElem?_cons_zero, Option.some_inj,
            eq_comm]
          refine or_congr_right (exists_congr fun q => and_congr_right fun hq => ?_)
          rw [hrest q (hr q hq)]
        · have hlt' : ∀ q ∈ r :: remembers, i < q := by
            intro q hq
            rcases List.mem_cons.mp hq with rfl | hq
            · exact hlt
            · exact hlt.trans (hr q hq)
          rw [if_neg (Nat.ne_of_lt hlt), if_neg (Nat.not_lt.mpr hir), ih hf
            (fun q hq => ⟨hlt' q hq, (hindex q hq).2⟩) hsorted]
          refine exists_congr fun q => and_congr_right fun hq => ?_
          rw [hrest q (hlt' q hq)]

theorem mem_rememberedAdds {H : Type} {a : H} {adds : List H} {remembers : List Nat}
    (hindex : ∀ r ∈ remembers, r < 2 ^ 32) (hsorted : remembers.Pairwise (· < ·)) :
    a ∈ rememberedAdds adds remembers ↔ ∃ r ∈ remembers, adds[r]? = some a := by
  rw [rememberedAdds, mem_rememberedLoop (Nat.le_add_right _ _)
    (fun r hr => ⟨Nat.zero_le r, hindex r hr⟩) hsorted]
  simp only [Nat.sub_zero]

/-! ### The same leaves in the grown forest -/

section
variable {H : Type} {slots : List (Option H)} {adds : List H} {C R : Set H} {y z : Node}

/-- The nodes of the slots that hold a leaf of the set. -/
def slotNodes (slots : List (Option H)) (C : Set H) : Set Node :=
  {z | ∃ c, ∃ h ∈ C, slotAt slots c = some h ∧ z = Node.leafNode c}

theorem slotNodes_tree (hz : z ∈ slotNodes slots C) :
    z.InForest slots.length ∧ ∃ h ∈ C, nodeTree slots z = some (.leaf h) := by
  obtain ⟨c, h, hh, hc, rfl⟩ := hz
  have hlt : c < slots.length := (List.getElem?_eq_some_iff.mp (slotAt_eq_some.mp hc)).1
  refine ⟨Node.leafNode_inForest.mpr hlt, h, hh, ?_⟩
  simp [nodeTree, Node.leafNode, CTree.perfect, hc]

/-- The leaves below an old node are old leaves. -/
theorem meets_grown (hz : z.InForest slots.length) (hR : ∀ h ∈ R, h ∉ liveLeaves slots) :
    Meets (slots ++ adds.map some) (C ∪ R) z ↔ Meets slots C z := by
  rw [Meets, Meets, nodeTree_grown hz]
  constructor
  · rintro ⟨h, hC | hh, hmem⟩
    · exact ⟨h, hC, hmem⟩
    · exact absurd (leavesOpt_perfect_subset slots _ _ h hmem) (hR h hh)
  · rintro ⟨h, hC, hmem⟩
    exact ⟨h, Or.inl hC, hmem⟩

theorem Lacking.of_grown (h : Lacking (slots ++ adds.map some) (C ∪ R) z)
    (hold : z.parent.InForest slots.length) (hR : ∀ h ∈ R, h ∉ liveLeaves slots) :
    Lacking slots C z := by
  have hz : z.InForest slots.length := Node.inForest_of_parent hold
  have hs : z.sibling.InForest slots.length :=
    Node.inForest_of_parent (by rwa [Node.sibling_parent])
  refine ⟨hold, ?_, (meets_grown hs hR).mp h.beside, fun hm => h.apart ((meets_grown hz hR).mpr hm)⟩
  rw [← nodeTree_grown hz]
  exact h.tree

theorem leavesAt_union : leavesAt slots (C ∪ R) = leavesAt slots C ∪ leavesAt slots R := by
  ext x
  simp only [leavesAt, Set.mem_union, Set.mem_ofPred_eq, or_and_right, exists_or]

theorem getHashAndPosHashSubset_withHash [DecidableEq H] (V : Nat → H) (l : List Nat)
    (b : List H) : getHashAndPosHashSubset (l.map (withHash V)) b =
      (l.filter fun p => V p ∈ b).map (withHash V) := by
  rw [getHashAndPosHashSubset, List.filter_map]
  rfl

theorem leavesAt_eq (hn : slots.length < 2 ^ 64) (hnd : (liveLeaves slots).Nodup) :
    leavesAt slots C = place slots '' slotNodes slots C := by
  ext x
  constructor
  · rintro ⟨h, hh, hx⟩
    obtain ⟨c, hc, -, -, huniq⟩ :=
      exists_slot hn hnd ((mem_liveLeaves_iff_placed hn).mpr ⟨x, hx⟩)
    exact ⟨_, ⟨c, h, hh, hc, rfl⟩, (huniq x hx).symm⟩
  · rintro ⟨z, hz, rfl⟩
    obtain ⟨hin, h, hh, hT⟩ := slotNodes_tree hz
    exact ⟨h, hh, placed_place hn hin hT⟩

variable (hnd : (liveLeaves (slots ++ adds.map some)).Nodup)
include hnd

theorem slotNodes_grown (hC : ∀ h ∈ C, h ∈ liveLeaves slots) :
    slotNodes (slots ++ adds.map some) C = slotNodes slots C := by
  have hold : ∀ {c h}, slotAt slots c = some h → slotAt (slots ++ adds.map some) c = some h := by
    intro c h hc
    rw [slotAt_append_left (List.getElem?_eq_some_iff.mp (slotAt_eq_some.mp hc)).1, hc]
  ext z
  constructor
  · rintro ⟨c, h, hh, hc, rfl⟩
    obtain ⟨d, hd⟩ := List.mem_iff_getElem?.mp (mem_liveLeaves.mp (hC h hh))
    obtain rfl := slotAt_inj hnd (hold (slotAt_eq_some.mpr hd)) hc
    exact ⟨d, h, hh, slotAt_eq_some.mpr hd, rfl⟩
  · rintro ⟨c, h, hh, hc, rfl⟩
    exact ⟨c, h, hh, hold hc, rfl⟩

variable (hcount : slots.length + adds.length ≤ 2 ^ 63)
include hcount

/-- **What is needed in the grown forest**: what was needed before, or what the report has. -/
theorem needed_grown (hR : ∀ h ∈ R, h ∉ liveLeaves slots)
    (hy : Needed (slots ++ adds.map some).length (leavesAt (slots ++ adds.map some) (C ∪ R)) y) :
    (∃ z, Lacking slots C z ∧ place (slots ++ adds.map some) z = y) ∨
      ∃ c, slots.length ≤ c ∧ c < (slots ++ adds.map some).length ∧
        nodePos (treeRows (slots ++ adds.map some).length) y ∈
          leafPositions (slots ++ adds.map some) c := by
  have hlen : (slots ++ adds.map some).length = slots.length + adds.length := length_grown
  obtain ⟨z, hz, rfl⟩ := (needed_iff (by omega) hnd).mp hy
  by_cases hold : z.parent.InForest slots.length
  · exact Or.inl ⟨z, hz.of_grown hold hR, rfl⟩
  · obtain ⟨c, h1, h2, hmem⟩ :=
      exists_report (by omega) hz.parent hold hz.tree hz.beside.tree_ne_none
    exact Or.inr ⟨c, h1, h2, mem_leafPositions.mpr ⟨_, hmem, rfl⟩⟩

end

/-! ### The additions -/

section
variable {H : Type} [DecidableEq H] [HashOps H] [SortAlg] {slots : List (Option H)}
  {adds : List H} {leaf : H → Prop} (hi : IdealHash H leaf)
  (hnd : (liveLeaves (slots ++ adds.map some)).Nodup)
  (hleaf : ∀ h ∈ liveLeaves (slots ++ adds.map some), h ≠ empty ∧ leaf h)
  (hcount : slots.length + adds.length ≤ 2 ^ 63)

omit [DecidableEq H] [HashOps H] [SortAlg] in
include hnd in
theorem not_live_of_added {a : H} (ha : a ∈ adds) : a ∉ liveLeaves slots := by
  rw [liveLeaves, List.filterMap_append] at hnd
  have hdis := (List.nodup_append.mp hnd).2.2
  intro h
  exact hdis a h a (by simpa [List.filterMap_map] using ha) rfl

include hi hnd hleaf hcount

omit [SortAlg] in
/-- The entries of the added leaves to be cached, found by their hashes: every entry has the
hash of a tree, and the report has every added leaf. -/
theorem remembered_listing {Z : Set Node}
    (hZ : ∀ z ∈ Z, z.InForest slots.length ∧ nodeTree slots z ≠ none) {l : List Nat}
    (hl : Listing l ({p | ∃ c, slots.length ≤ c ∧ c < (slots ++ adds.map some).length ∧
        p ∈ leafPositions (slots ++ adds.map some) c} ∪
      nodePos (treeRows (slots ++ adds.map some).length) ''
        (place (slots ++ adds.map some) '' Z)))
    {remembered : List H} (hR : ∀ a ∈ remembered, a ∈ adds) :
    Listing (l.filter fun p => slotHash (slots ++ adds.map some) p ∈ remembered)
      (nodePos (treeRows (slots ++ adds.map some).length) ''
        leavesAt (slots ++ adds.map some) {a | a ∈ remembered}) := by
  have hlen : (slots ++ adds.map some).length = slots.length + adds.length := length_grown
  have hF : (slots ++ adds.map some).length ≤ 2 ^ 63 := by omega
  have hltF : (slots ++ adds.map some).length < 2 ^ 64 := by omega
  have hlive : LiveFrom (slots ++ adds.map some) slots.length := liveFrom_adds
  have hadded : ∀ a ∈ adds, a ∈ liveLeaves (slots ++ adds.map some) := fun a ha =>
    mem_liveLeaves.mpr (List.mem_append_right _ (List.mem_map_of_mem ha))
  refine (hl.filter _).congr fun p => ?_
  constructor
  · rintro ⟨hp, hmem⟩
    obtain ⟨x, T, hx, rfl⟩ : ∃ x T, placed (slots ++ adds.map some) x = some T ∧
        nodePos (treeRows (slots ++ adds.map some).length) x = p := by
      rcases hp with ⟨c, h1, h2, hp⟩ | ⟨x, ⟨z, hz, rfl⟩, rfl⟩
      · obtain ⟨z, T, rfl, -, hT, -⟩ := leafPositions_trees hF (hlive.mono h1) h2 hp
        exact ⟨_, T, hT, rfl⟩
      · obtain ⟨hin, hT⟩ := hZ z hz
        obtain ⟨T, hT⟩ := Option.ne_none_iff_exists'.mp hT
        exact ⟨_, T, placed_place hltF (hin.mono (by omega)) (by rw [nodeTree_grown hin, hT]), rfl⟩
    rw [slotHash_nodePos hF (placed_inForest hx), hx] at hmem
    have ha := hadded _ (hR _ hmem)
    have hT : T = .leaf (hashOpt (some T)) := treeHash_inj hi
      (fun h hh => (hleaf h (placed_leaves_subset hx h hh)).2)
      (fun h hh => by
        rw [CTree.leaves, List.mem_singleton] at hh
        rw [hh]
        exact (hleaf _ ha).2) rfl
    exact ⟨x, ⟨_, hmem, hx.trans (congrArg some hT)⟩, rfl⟩
  · rintro ⟨x, ⟨a, ha, hx⟩, rfl⟩
    have hat : LeafAt (slots ++ adds.map some) _ a := ⟨x, hx, rfl⟩
    refine ⟨Or.inl ?_, ?_⟩
    · obtain ⟨i, hi, hia⟩ := List.mem_iff_getElem.mp (hR a ha)
      have hslot := @slotAt_adds H slots adds i a (List.getElem?_eq_some_iff.mpr ⟨hi, hia⟩)
      obtain ⟨c, hc, -, -, huniq⟩ := exists_slot hltF hnd (hadded a (hR a ha))
      obtain rfl := slotAt_inj hnd hslot hc
      obtain ⟨hones, -, -⟩ := lowZero_spec (show slots.length + i + 1 < 2 ^ 64 by omega)
      refine ⟨slots.length + i, by omega, by omega, mem_leafPositions.mpr ⟨_, ?_, rfl⟩⟩
      rw [huniq x hx]
      exact leaf_mem_grownNodes hF (by omega) hones
    · rw [hat.slotHash_eq hF]
      exact ha

/-- **The additions keep a cached proof exact**, with the data that the Stump reports. -/
theorem Proof.updateProofAdd_exact {p : Proof H} {cached : List H}
    (h : ExactProof slots p cached) {remembers : List Nat}
    (hremembers : remembers.Pairwise (· < ·)) (hindex : ∀ r ∈ remembers, r < 2 ^ 32)
    {positions : List Nat}
    (hpositions : Listing positions {p | ∃ c, slots.length ≤ c ∧
      c < (slots ++ adds.map some).length ∧ p ∈ leafPositions (slots ++ adds.map some) c}) :
    ∃ p' cached', p.updateProofAdd adds cached remembers
        (positions.map (withHash (slotHash (slots ++ adds.map some)))) slots.length
        ((overwritten slots.length (slots ++ adds.map some).length fun r =>
          (rootTree slots r).isNone).map (nodePos (treeRows (slots ++ adds.map some).length))) =
        .ok (p', cached') ∧
      ExactProof (slots ++ adds.map some) p' cached' ∧
      ∀ a, a ∈ cached' ↔ a ∈ cached ∨ ∃ r ∈ remembers, adds[r]? = some a := by
  have hlen : (slots ++ adds.map some).length = slots.length + adds.length := length_grown
  have hn : slots.length ≤ 2 ^ 63 := by omega
  have hlt : slots.length < 2 ^ 64 := by omega
  have hF : (slots ++ adds.map some).length ≤ 2 ^ 63 := by omega
  have hltF : (slots ++ adds.map some).length < 2 ^ 64 := by omega
  have hnd' := nodup_of_grown hnd
  have hlive : ∀ a ∈ {a | a ∈ cached}, a ∈ liveLeaves slots := targets_live h.targets
  obtain ⟨hlist, hcached, old, computed, hrun, hproof, hneeded⟩ := h.listing hn hnd'
  -- The old targets and the old proof, moved.
  have hT0 : Listing p.targets (nodePos (treeRows slots.length) ''
      (place slots '' slotNodes slots {a | a ∈ cached})) := by
    rwa [← leavesAt_eq hlt hnd']
  have hP0 : Listing old (nodePos (treeRows slots.length) ''
      (place slots '' {z | Lacking slots {a | a ∈ cached} z})) := by
    refine hneeded.congr fun q => ?_
    have himage : {y | Needed slots.length (leavesAt slots {a | a ∈ cached}) y} =
        place slots '' {z | Lacking slots {a | a ∈ cached} z} := by
      ext y
      exact needed_iff hlt hnd'
    rw [himage]
  have hZ : ∀ z ∈ {z | Lacking slots {a | a ∈ cached} z},
      z.InForest slots.length ∧ nodeTree slots z ≠ none := fun z hz => ⟨hz.inForest, hz.tree⟩
  obtain ⟨targets, hmoveT, htargets⟩ := moveOverRoots_grown hi hnd hleaf hcount
    (fun z hz => by
      obtain ⟨hin, h, -, hT⟩ := slotNodes_tree hz
      exact ⟨hin, by rw [hT]; exact Option.some_ne_none _⟩) hT0
  obtain ⟨moved, hmoveP, hmoved⟩ := moveOverRoots_grown hi hnd hleaf hcount hZ hP0
  -- The new targets.
  have hR : ∀ a ∈ rememberedAdds adds remembers, a ∈ adds := by
    intro a ha
    obtain ⟨r, -, hr⟩ := (mem_rememberedAdds hindex hremembers).mp ha
    exact List.mem_of_getElem? hr
  have hmerged := mergeSlices_listing hpositions hmoved
  have hnew := remembered_listing hi hnd hleaf hcount hZ hmerged hR
  have hall : Listing (mergeSortedSlicesFunc
        ((mergeSortedSlicesFunc positions moved uint64Cmp).filter fun q =>
          slotHash (slots ++ adds.map some) q ∈ rememberedAdds adds remembers) targets uint64Cmp)
      (nodePos (treeRows (slots ++ adds.map some).length) '' leavesAt (slots ++ adds.map some)
        ({a | a ∈ cached} ∪ {a | a ∈ rememberedAdds adds remembers})) := by
    refine (mergeSlices_listing hnew htargets).congr fun q => ?_
    rw [← slotNodes_grown hnd hlive, ← leavesAt_eq hltF hnd, ← Set.image_union,
      Set.union_comm, leavesAt_union]
  obtain ⟨needed, computed', hrun', hneeded', -⟩ := proofPositions_sweep (treeRows_le hF)
    (le_two_pow_treeRows _) inForest_of_leavesAt (antichain_leavesAt hltF) hall
  -- Every needed position has an entry.
  have hfilter : needed.filter (· ∈ mergeSortedSlicesFunc positions moved uint64Cmp) = needed := by
    refine List.filter_eq_self.mpr fun q hq => decide_eq_true ?_
    obtain ⟨y, hy, rfl⟩ := (hneeded'.mem q).mp hq
    rw [hmerged.mem]
    rcases needed_grown hnd hcount (fun a ha => not_live_of_added hnd (hR a ha)) hy with
      ⟨z, hz, rfl⟩ | hrep
    · exact Or.inr ⟨_, ⟨z, hz, rfl⟩, rfl⟩
    · exact Or.inl hrep
  have hentries := entriesAt_withHash (slotHash (slots ++ adds.map some)) hneeded'.sorted
    hmerged.sorted
  rw [hfilter] at hentries
  have hlive' : ∀ a ∈ ({a | a ∈ cached} ∪ {a | a ∈ rememberedAdds adds remembers} : Set H),
      a ∈ liveLeaves (slots ++ adds.map some) := by
    rintro a (ha | ha)
    · exact live_grown (hlive a ha)
    · exact mem_liveLeaves.mpr (List.mem_append_right _ (List.mem_map_of_mem (hR a ha)))
  refine ⟨_, _, ?_, ExactProof.of_listing hF hall hneeded', fun a => ?_⟩
  · have htargets0 : toHashAndPos p.targets cached =
        p.targets.map (withHash (slotHash slots)) := by
      have hsort := toHashAndPos_withHash (slotHash slots) hlist.nodup
      rwa [← hcached, sortPositions_eq_self hlist] at hsort
    have hold : toHashAndPos old p.proof = old.map (withHash (slotHash slots)) := by
      have hsort := toHashAndPos_withHash (slotHash slots) hneeded.nodup
      rwa [← hproof, sortPositions_eq_self hneeded] at hsort
    rw [Proof.updateProofAdd]
    simp only [htargets0, map_withHash_fst, hrun, Exec.ok_bind, hold,
      add64_of_lt (show slots.length + adds.length < 2 ^ 64 by omega), ← hlen, hmoveT, hmoveP,
      mergeSortedHashAndPos_withHash, getHashAndPosHashSubset_withHash, hrun', hentries,
      sort_withHash _ hneeded'.nodup, sortPositions_eq_self hneeded', map_withHash_snd]
  · rw [mem_slotHash_of_listing hF hlive' hall]
    exact or_congr_right (mem_rememberedAdds hindex hremembers)

end

end Utreexo
