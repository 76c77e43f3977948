import Mathlib.Data.List.Dedup
import Utreexo.CalculateCollapse
import Utreexo.ProofOps

/-! # The positions that a proof lacks

`GetMissingPositions` takes the positions needed for the targets that are desired and not
yet proved, and removes what the proof has or computes.  The rest is what the proof of
all targets needs and the proof at hand does not have (`needed_union_sdiff`).
-/
namespace Merkle

variable {n : Nat} {T D : Set Node} {x : Node}

/-- What the union needs and the first set does not. -/
theorem needed_union_sdiff : {x | Needed n (T ∪ D) x} \ {x | Needed n T x} =
    {x | Needed n (D \ T) x} \ ({x | Needed n T x} ∪ {x | Touched n T x}) := by
  rw [← Set.union_sdiff_self]
  ext x
  constructor
  · rintro ⟨⟨hs, hr, hx⟩, hno⟩
    rw [touched_union, not_or] at hx
    have hsD : Touched n (D \ T) x.sibling :=
      (touched_union.mp hs).resolve_left fun hsT => hno ⟨hsT, hr, hx.1⟩
    exact ⟨⟨hsD, hr, hx.2⟩, fun h => h.elim hno hx.1⟩
  · rintro ⟨⟨hs, hr, hx⟩, hno⟩
    refine ⟨⟨touched_union.mpr (Or.inr hs), hr, fun h => ?_⟩, fun h => hno (Or.inl h)⟩
    exact (touched_union.mp h).elim (fun h => hno (Or.inr h)) hx

end Merkle

namespace Utreexo
open Merkle

/-- The positions that a proof has, lists or computes. -/
theorem listing_have {n k : Nat} (hn : n ≤ 2 ^ k) {T : Set Node} (hT : ∀ t ∈ T, t.InForest n)
    (hA : IsAntichain Node.Above T) {positions targets computed : List Nat}
    (hp : Listing positions (nodePos k '' {x | Needed n T x}))
    (ht : Listing targets (nodePos k '' T))
    (hc : Listing computed (nodePos k '' {x | Computed n T x})) :
    Listing (sortPositions (positions ++ targets ++ computed))
      (nodePos k '' ({x | Needed n T x} ∪ {x | Touched n T x})) := by
  have hnodup : (positions ++ targets ++ computed).Nodup := by
    refine List.nodup_append.mpr ⟨List.nodup_append.mpr ⟨hp.nodup, ht.nodup, ?_⟩, hc.nodup, ?_⟩
    · rintro p hp' q hq rfl
      obtain ⟨x, hx, rfl⟩ := (hp.mem p).mp hp'
      obtain ⟨y, hy, he⟩ := (ht.mem _).mp hq
      obtain rfl := nodePos_inj hn (hT y hy) (Needed.inForest hx) he
      exact hx.2.2 (.of_mem hT hy)
    · rintro p hp' q hq rfl
      obtain ⟨y, hy, rfl⟩ := (hc.mem p).mp hq
      rcases List.mem_append.mp hp' with hp' | hp'
      · obtain ⟨x, hx, he⟩ := (hp.mem _).mp hp'
        obtain rfl := nodePos_inj hn (Needed.inForest hx) hy.1 he
        exact hx.2.2 hy.touched
      · obtain ⟨x, hx, he⟩ := (ht.mem _).mp hp'
        obtain rfl := nodePos_inj hn (hT x hx) hy.1 he
        exact hy.not_mem hA hx
  refine (sort_listing hnodup).congr fun p => ?_
  rw [Set.mem_ofPred_eq, List.mem_append, List.mem_append, hp.mem, ht.mem, hc.mem, Set.image_union,
    Set.mem_union, or_assoc]
  refine or_congr Iff.rfl ?_
  rw [← Set.mem_union, ← Set.image_union, union_computed hT]

theorem getMissingPositions_narrow {n : Nat} (hn : n ≤ 2 ^ 63) {T D : Set Node}
    (hT : ∀ x ∈ T, x.InForest n) (hD : ∀ x ∈ D, x.InForest n)
    (hA : IsAntichain Node.Above (T ∪ D)) {ts ds : List Nat} (hnt : ts.Nodup) (hnd : ds.Nodup)
    (hts : ∀ p, p ∈ ts ↔ p ∈ nodePos (treeRows n) '' T)
    (hds : ∀ p, p ∈ ds ↔ p ∈ nodePos (treeRows n) '' D) :
    ∃ missing, getMissingPositions n ts ds = .ok missing ∧ Listing missing
      (nodePos (treeRows n) '' ({x | Needed n (T ∪ D) x} \ {x | Needed n T x})) := by
  have hk := treeRows_le hn
  have hn' := le_two_pow_treeRows n
  have hlt := (sort_listing hnt).congr hts
  have hld : Listing (subtractSortedSlice (sortPositions ds) (sortPositions ts) uint64Cmp)
      (nodePos (treeRows n) '' (D \ T)) := by
    rw [nodePos_image_sdiff hn' hD hT]
    exact subtractSlice_listing ((sort_listing hnd).congr hds) hlt
  rw [needed_union_sdiff, getMissingPositions]
  by_cases hempty :
      (subtractSortedSlice (sortPositions ds) (sortPositions ts) uint64Cmp).length = 0
  · refine ⟨[], if_pos hempty, .of_empty ?_⟩
    rintro p ⟨x, ⟨⟨⟨-, t, ht, -⟩, -⟩, -⟩, -⟩
    have hmem := (hld.mem _).mpr (Set.mem_image_of_mem _ ht)
    rw [List.eq_nil_of_length_eq_zero hempty] at hmem
    cases hmem
  · obtain ⟨desired, computed, hrun, hdesired, -⟩ := proofPositions_sweep hk hn'
      (fun t ht => hD t ht.1) (hA.subset fun t ht => Or.inr ht.1) hld
    obtain ⟨old, computable, hrun', hold, hcomputable⟩ :=
      proofPositions_sweep hk hn' hT (hA.subset Set.subset_union_left) hlt
    refine ⟨subtractSortedSlice desired (sortPositions (old ++ sortPositions ts ++ computable))
      uint64Cmp, by simp only [if_neg hempty, hrun, hrun', Exec.ok_bind], ?_⟩
    rw [nodePos_image_sdiff hn' (inForest_of_needed _)]
    · exact subtractSlice_listing hdesired
        (listing_have hn' hT (hA.subset Set.subset_union_left) hold hlt hcomputable)
    · rintro y (hy | hy)
      · exact Needed.inForest hy
      · exact hy.1

theorem getMissingPositions_wide {n : Nat} (hlo : 2 ^ 63 < n) (hhi : n < 2 ^ 64) {ts ds : List Nat}
    (hnt : ts.Nodup) (hnd : ds.Nodup)
    (hts : ∀ t ∈ ts, isRootPositionOnRow t n 0 = true)
    (hds : ∀ t ∈ ds, isRootPositionOnRow t n 0 = true) :
    getMissingPositions n ts ds = .ok [] := by
  have hsub : subtractSortedSlice (sortPositions ds) (sortPositions ts) uint64Cmp =
      (sortPositions ds).filter (· ∉ sortPositions ts) :=
    subtractLoop_eq (Nat.le_refl _) (sort_listing hnd).sorted (sort_listing hnt).sorted
  have hrun : proofPositions (sortPositions ts) n 64 = .ok ([], []) :=
    proofPositions_wide_roots hlo hhi (sort_listing hnt).nodup
      fun t ht => hts t ((sortPositions_perm ts).mem_iff.mp ht)
  have hrun' : proofPositions ((sortPositions ds).filter (· ∉ sortPositions ts)) n 64 =
      .ok ([], []) :=
    proofPositions_wide_roots hlo hhi ((sort_listing hnd).nodup.filter _)
      fun t ht => hds t ((sortPositions_perm ds).mem_iff.mp (List.mem_of_mem_filter ht))
  rw [getMissingPositions, hsub, treeRows_wide hlo hhi]
  by_cases hempty : ((sortPositions ds).filter (· ∉ sortPositions ts)).length = 0
  · exact if_pos hempty
  · simp only [if_neg hempty, hrun, hrun', Exec.ok_bind]
    rw [subtractSortedSlice, subtractLoop]

/-- **`GetMissingPositions` is sufficient and minimal.**  The targets are the positions of
nodes `ts` and `ds` of the forest that fit into a word. -/
theorem missing_positions_exact {n : Nat} (hn : n < 2 ^ 64) {ts ds : List Node}
    (hts : ∀ x ∈ ts, x.InForest n) (hds : ∀ x ∈ ds, x.InForest n)
    (hword : ∀ x ∈ ts ++ ds, nodePos (treeRows n) x < 2 ^ 64) (hnt : ts.Nodup) (hnd : ds.Nodup)
    (hanti : ∀ x ∈ ts ++ ds, ∀ y ∈ ts ++ ds, x.Above y → x = y) :
    (n ≤ 2 ^ 63 → ∃ all computed have_ computable,
      proofPositions (sortPositions ((ts ++ ds).map (nodePos (treeRows n))).dedup) n
        (treeRows n) = .ok (all, computed) ∧
      proofPositions (sortPositions (ts.map (nodePos (treeRows n)))) n (treeRows n) =
        .ok (have_, computable)) ∧
    ∀ all computed have_ computable,
      proofPositions (sortPositions ((ts ++ ds).map (nodePos (treeRows n))).dedup) n
        (treeRows n) = .ok (all, computed) →
      proofPositions (sortPositions (ts.map (nodePos (treeRows n)))) n (treeRows n) =
        .ok (have_, computable) →
      ∃ missing, getMissingPositions n (ts.map (nodePos (treeRows n)))
          (ds.map (nodePos (treeRows n))) = .ok missing ∧
        missing.Pairwise (· < ·) ∧ ∀ p, p ∈ missing ↔ p ∈ all ∧ p ∉ have_ := by
  have hn' := le_two_pow_treeRows n
  have hmem : ∀ (xs : List Node) p, p ∈ xs.map (nodePos (treeRows n)) ↔
      p ∈ nodePos (treeRows n) '' {t | t ∈ xs} := fun xs p => List.mem_map
  have hinj : ∀ {xs : List Node}, (∀ x ∈ xs, x.InForest n) → xs.Nodup →
      (xs.map (nodePos (treeRows n))).Nodup := fun hxs hnodup =>
    hnodup.map_on fun x hx y hy => nodePos_inj hn' (hxs x hx) (hxs y hy)
  have hunion := sort_listing (List.nodup_dedup ((ts ++ ds).map (nodePos (treeRows n))))
  refine ⟨fun hnarrow => ?_, fun all computed have_ computable hall hhave => ?_⟩
  · obtain ⟨fin, -, h⟩ := proofPositions_returns hnarrow
      (sortPositions_sorted ((ts ++ ds).map (nodePos (treeRows n))).dedup)
    obtain ⟨fin', -, h'⟩ := proofPositions_returns hnarrow
      (sortPositions_sorted (ts.map (nodePos (treeRows n))))
    exact ⟨_, _, _, _, h, h'⟩
  rcases Nat.lt_or_ge (2 ^ 63) n with hlo | hnarrow
  · -- Only the last leaf is a target, and nothing is needed.
    have hroots : ∀ p ∈ (ts ++ ds).map (nodePos (treeRows n)),
        isRootPositionOnRow p n 0 = true := by
      intro p hp
      rw [treeRows_wide hlo hn] at hall
      refine proofPositions_wide hlo hn (fun q hq => ?_) hall p ?_
      · rw [← treeRows_wide hlo hn] at hq
        obtain ⟨x, hx, rfl⟩ := List.mem_map.mp (List.mem_dedup.mp ((hunion.mem q).mp hq))
        exact hword x hx
      · rw [← treeRows_wide hlo hn]
        exact (hunion.mem p).mpr (List.mem_dedup.mpr hp)
    rw [List.map_append] at hroots
    refine ⟨[], getMissingPositions_wide hlo hn (hinj hts hnt) (hinj hds hnd)
      (fun t ht => hroots t (List.mem_append_left _ ht))
      (fun t ht => hroots t (List.mem_append_right _ ht)), .nil, fun p => ?_⟩
    rw [← List.map_append] at hroots
    rw [treeRows_wide hlo hn, proofPositions_wide_roots hlo hn] at hall
    · cases hall
      simp
    · rw [← treeRows_wide hlo hn]
      exact hunion.nodup
    · intro t ht
      rw [← treeRows_wide hlo hn] at ht
      exact hroots t (List.mem_dedup.mp ((hunion.mem t).mp ht))
  · have hA : IsAntichain Node.Above ({t | t ∈ ts} ∪ {t | t ∈ ds}) := fun x hx y hy hne h =>
      hne (hanti x (List.mem_append.mpr hx) y (List.mem_append.mpr hy) h)
    have hlist : Listing (sortPositions ((ts ++ ds).map (nodePos (treeRows n))).dedup)
        (nodePos (treeRows n) '' ({t | t ∈ ts} ∪ {t | t ∈ ds})) := by
      refine hunion.congr fun p => ?_
      rw [Set.mem_ofPred_eq, List.mem_dedup, List.map_append, List.mem_append, hmem, hmem,
        Set.image_union, Set.mem_union]
    obtain ⟨all', _, hrun, hneeded, -⟩ := proofPositions_sweep (treeRows_le hnarrow) hn'
      (fun x hx => hx.elim (hts x) (hds x)) hA hlist
    obtain ⟨old, _, hrun', hneeded', -⟩ := proofPositions_sweep (T := {t | t ∈ ts})
      (treeRows_le hnarrow) hn' hts (hA.subset Set.subset_union_left)
      ((sort_listing (hinj hts hnt)).congr (hmem ts))
    rw [hall] at hrun
    cases hrun
    rw [hhave] at hrun'
    cases hrun'
    obtain ⟨missing, hmissing, hl⟩ := getMissingPositions_narrow (T := {t | t ∈ ts})
      (D := {t | t ∈ ds}) hnarrow hts hds hA (hinj hts hnt) (hinj hds hnd) (hmem ts) (hmem ds)
    refine ⟨missing, hmissing, hl.sorted, fun p => ?_⟩
    rw [hl.mem, nodePos_image_sdiff hn' (inForest_of_needed _) (inForest_of_needed _),
      Set.mem_sdiff, hneeded.mem, hneeded'.mem]

/-- Adding the third of eight leaves to a proof of the first. -/
theorem missing_positions_eight :
    ∃ missing, getMissingPositions 8 [0] [2] = .ok missing ∧ missing = [3] ∧
      missing.Pairwise (· < ·) := by
  obtain ⟨missing, hrun, hasc, -⟩ := (@missing_positions_exact 8 (by decide) [⟨0, 0⟩] [⟨0, 2⟩]
    (by decide) (by decide) (by decide) (by decide) (by decide) (by decide)).2
      [1, 3, 13] [8, 9, 12, 14] [1, 9, 13] [8, 12, 14] (by decide) (by decide)
  have hval : getMissingPositions 8 [0] [2] = .ok [3] := by decide
  have hrun' : getMissingPositions 8 [0] [2] = .ok missing := hrun
  rw [hval] at hrun'
  cases hrun'
  exact ⟨_, hval, rfl, hasc⟩

end Utreexo
