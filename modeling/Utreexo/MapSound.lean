import Utreexo.SlotLayout

/-! # Removing leaves keeps a MapPollard sound

`m.Kept tight slots W C`: the MapPollard is the pruned forest over the slots, in which the leaves
of `W` are wanted and those of `C` are cached.  A removal starts with all leaves wanted that were
cached, and after each node that is removed its leaves are no longer wanted.
-/
namespace Utreexo
open Merkle

theorem Deletable.leaves_live {H : Type} {slots : List (Option H)} {ys : List Node}
    {Ds : List (CTree H)} (h : Deletable slots ys Ds) :
    ∀ D ∈ Ds, ∀ a ∈ D.leaves, a ∈ liveLeaves slots := by
  obtain ⟨hplaced, -, -⟩ := h
  induction hplaced with
  | nil => simp
  | cons hD _ ih => exact List.forall_mem_cons.mpr ⟨placed_leaves_subset hD, ih⟩

namespace MapPollard
variable {H : Type} [DecidableEq H] [HashOps H]

/-- The pruned forest over the slots.  If it is `tight`, no node is kept without need. -/
structure Kept (m : MapPollard H) (tight : Prop) (slots : List (Option H)) (W C : Set H) :
    Prop where
  nodup : (liveLeaves slots).Nodup
  rows : m.totalRows ≤ 63
  room : slots.length ≤ 2 ^ m.totalRows
  cached : C ⊆ W
  view : ∃ N K, m.Sees m.totalRows slots.length N K ∧ Sound tight (Layout.forest nodup) W ∅ N ∧
    CachedAt (Layout.forest nodup) C K

variable {m : MapPollard H} {tight : Prop} {slots : List (Option H)} {W C : Set H}

theorem Kept.length_lt (h : m.Kept tight slots W C) : slots.length < 2 ^ 64 :=
  lt_word h.rows h.room

section
variable {N : NodeMap H} {t : Node} {L L' : Layout H} {W' : Set H}

omit [DecidableEq H] in
/-- The hashes on the way up are written as the new layout has them. -/
theorem rehashUp_raised {j : Nat} (hroot : L.root (t.up (j + 1))) (h : Sound tight L W ∅ N) :
    rehashUp (fun z => hashOpt (L'.tree z)) j t.parent (raised t N) = Sound.rebuilt t L' N := by
  funext z
  by_cases h1 : t.parent.Above z
  · have hne : ∀ i, z ≠ t.parent.up (i + 1) := by
      rintro i rfl
      have hle := h1.row_le
      rw [Node.up_row] at hle
      omega
    rw [rehashUp_of_ne j hne, Sound.rebuilt, if_pos h1]
  · have hraised : raised t N z = N z := if_neg h1
    by_cases h2 : z.Above t.parent
    · rw [Sound.rebuilt_above h1 h2]
      obtain ⟨i, rfl⟩ := h2
      cases i with
      | zero =>
        rw [Node.up_zero] at h1
        exact absurd (Node.Above.refl _) h1
      | succ i =>
        rcases Nat.lt_or_ge i j with hlt | hge
        · rw [rehashUp_up hlt, hraised]
        · -- Nothing is kept above the root.
          have hnone : N (t.parent.up (i + 1)) = none := by
            by_contra hne
            obtain ⟨r, hr, hra⟩ := h.inside _ hne
            have habove : (t.parent.up (i + 1)).Above (t.up (j + 1)) :=
              ⟨i + 1 - j, by rw [← Node.parent_up, ← Node.up_add]; congr 1; omega⟩
            have hrow := congrArg Node.row (L.apart hr hroot (hra.trans habove))
            have hle := hra.row_le
            rw [Node.up_row, Node.parent_row] at hle
            rw [Node.up_row] at hrow
            omega
          rw [rehashUp_none j (hraised.trans hnone), hnone, Option.map_none]
    · have hne : ∀ i, z ≠ t.parent.up (i + 1) := fun i he => h2 ⟨i + 1, he.symm⟩
      rw [rehashUp_of_ne j hne, hraised, Sound.rebuilt_apart h1 h2]

omit [DecidableEq H] in
/-- On the way up every sibling is kept, with its hash. -/
theorem rehash_of_raising (hr : Layout.Raising t L L' W W') (h : Sound tight L W ∅ N)
    (hm : L.Meets W t) {S : CTree H} (hS : L.tree t.sibling = some S) {i j : Nat} (hi : i < j)
    (hroot : L.root (t.up (j + 1))) :
    Rehash (fun z => hashOpt (L'.tree z)) (raised t N) (t.parent.up i) := by
  have hx : (t.parent.up i).Above t.parent := ⟨i, rfl⟩
  have hin : L.Inside (t.parent.up i).parent := by
    refine (Layout.Inside.of_root hroot).below ⟨j - (i + 1), ?_⟩
    rw [← Node.up_succ, Node.parent_up, ← Node.up_add]
    congr 1
    omega
  have hnot : ¬ t.parent.Above (t.parent.up i).parent := fun hle => by
    have := hle.row_le
    rw [Node.parent_row, Node.up_row] at this
    omega
  have hin' := (hr.inside_iff hnot).mpr hin
  obtain ⟨h1, h2⟩ := hx.sibling_apart
  constructor
  · obtain ⟨a, ha, hmem⟩ := hm
    have hmeets : L.Meets W (t.parent.up i) := ⟨a, ha, Layout.mem_leaves_above
      (Layout.inside_of_parent hin) (hx.trans (Node.parent_above t)) hmem⟩
    obtain ⟨l, hl⟩ := Option.ne_none_iff_exists'.mp
      (h.beside _ hmeets (Layout.not_root_of_parent hin))
    refine ⟨l, (if_neg h1).trans hl, ?_⟩
    rw [h.hash _ l hl, hr.apart _ h1 h2]
  · obtain ⟨b, hb⟩ := List.exists_mem_of_ne_nil _ S.leaves_ne_nil
    have hmem : b ∈ CTree.leavesOpt (L'.tree (t.parent.up i)) :=
      Layout.mem_leaves_above (Layout.inside_of_parent hin') hx (by rw [hr.top, hS]; exact hb)
    obtain ⟨X, hX⟩ := Layout.Meets.exists_tree (W := Set.univ) ⟨b, Set.mem_univ b, hmem⟩
    obtain ⟨Y, hY, hnode⟩ := Layout.tree_sibling hin' hX
    rw [hX, hY, hnode]
    cases (t.parent.up i).isRight <;> rfl

end

/-- One removal. -/
theorem Kept.removeSingle {leaf : H → Prop} (hi : IdealHash H leaf) (h : m.Kept tight slots W C)
    (hfine : ∀ a ∈ liveLeaves slots, leaf a ∧ a ≠ empty) {t : Node} {D : CTree H}
    (hD : placed slots t = some D) (hW : ∀ a ∈ D.leaves, a ∈ W) (hC : ∀ a ∈ C, a ∉ D.leaves) :
    ∃ m', m.removeSingle (nodePos m.totalRows t) = .ok (m', .ok ()) ∧
      m'.totalRows = m.totalRows ∧
      m'.Kept tight (delSlots slots D.leaves) (W \ {a | a ∈ D.leaves}) C := by
  obtain ⟨N, K, hs, hsound, hK⟩ := h.view
  have hn := h.length_lt
  have hnd' : (liveLeaves (delSlots slots D.leaves)).Nodup := by
    rw [liveLeaves_delSlots]
    exact h.nodup.filter _
  have hin := placed_inForest hD
  have hlen : (delSlots slots D.leaves).length = slots.length := length_delSlots ..
  have hcut : C ⊆ W \ {a | a ∈ D.leaves} := fun a ha => ⟨h.cached ha, hC a ha⟩
  have htree : (Layout.forest h.nodup).tree t = some D := by rw [Layout.forest_tree _ hn, hD]
  -- What is left of the proof, once the new view is known.
  have hdone : ∀ {m' : MapPollard H} {N' K'}, m'.Sees m.totalRows slots.length N' K' →
      Sound tight (Layout.forest hnd') (W \ {a | a ∈ D.leaves}) ∅ N' →
      CachedAt (Layout.forest hnd') C K' → m'.totalRows = m.totalRows ∧
        m'.Kept tight (delSlots slots D.leaves) (W \ {a | a ∈ D.leaves}) C := by
    intro m' N' K' hs' hsound' hK'
    refine ⟨hs'.totalRows, hnd', hs'.totalRows ▸ h.rows, ?_, hcut, N', K', ?_, hsound', hK'⟩
    · rw [hlen, hs'.totalRows]
      exact h.room
    · rw [hlen, hs'.totalRows]
      exact hs'
  by_cases hroot : t.IsRoot slots.length
  · obtain ⟨m', h1, hs'⟩ := hs.removeSingle_root h.rows h.room hroot
    have htree' := Layout.forest_tree_root h.nodup hn hD hnd' hroot
    refine ⟨m', h1, hdone hs' ?_ ?_⟩
    · refine Sound.empty_root ⟨hroot, fun z => ?_, fun z hz => ?_, fun z hz => ?_,
        Set.sdiff_subset, fun a ha hno => ?_⟩ hsound
      · rw [Layout.forest_root, Layout.forest_root, hlen]
      · rw [htree', if_pos hz]
      · rw [htree', if_neg hz]
      · rw [htree]
        by_contra hno'
        exact hno ⟨ha, hno'⟩
    · refine hK.congr fun x a ha hx => ?_
      rw [htree', if_neg, hx]
      intro hle
      have hmem := Layout.mem_leaves_above (Layout.Inside.of_root hroot) hle
        (by rw [hx]; exact List.mem_singleton_self a)
      rw [htree] at hmem
      exact hC a ha hmem
  · have hr := Layout.forest_raising h.nodup hn hD hnd' hroot W
    obtain ⟨k, hk⟩ := (hin.parent hroot).exists_root
    rw [Node.parent_up] at hk
    have hmeets : (Layout.forest h.nodup).Meets W t := by
      obtain ⟨a, ha⟩ := List.exists_mem_of_ne_nil _ D.leaves_ne_nil
      exact ⟨a, hW a ha, by rw [htree]; exact ha⟩
    obtain ⟨node, hnode⟩ := Option.ne_none_iff_exists'.mp (hsound.beside t hmeets hroot)
    obtain ⟨S, hS, -⟩ := Layout.tree_sibling
      ((Layout.forest_inside h.nodup).mpr (hin.parent hroot)) htree
    have hL : ∀ x, ∀ a ∈ CTree.leavesOpt ((Layout.forest h.nodup).tree x), leaf a ∧ a ≠ empty := by
      intro x a ha
      rw [Layout.forest_tree _ hn] at ha
      cases hT : placed slots x with
      | none =>
        rw [hT] at ha
        cases ha
      | some T =>
        rw [hT] at ha
        exact hfine a (placed_leaves_subset hT a ha)
    obtain ⟨m', h1, hs'⟩ := hs.removeSingle_below h.rows h.room hk hnode
      (hsound.leavesAgree hi hL hK h.cached _)
      (fun z hz => (Layout.forest_inside h.nodup).mp (hsound.inside z hz))
      (V := fun z => hashOpt ((Layout.forest hnd').tree z))
      (by rw [hr.top, hsound.hash _ _ hnode])
      (fun i hi => rehash_of_raising hr hsound hmeets hS hi hk)
    rw [rehashUp_raised hk hsound] at hs'
    refine ⟨m', h1, hdone hs' ?_ ?_⟩
    · have hk' : (Layout.forest hnd').root (t.up (k + 1)) := by
        rw [Layout.forest_root, hlen]
        exact hk
      refine Sound.pruneUp k (Sound.raise hr hsound (by rw [hnode]; exact Option.some_ne_none _)
        (by rw [hS]; exact Option.some_ne_none _))
        (Layout.Inside.of_root hk') ?_
      rintro x ⟨z, ⟨i, rfl⟩, ⟨r, hrr, hra⟩, hxz⟩
      refine ⟨i, ?_, by rwa [Node.parent_up] at hxz⟩
      -- A node with a parent in the forest is below the root.
      by_contra hge
      have habove : (t.parent.up i).parent.Above (t.up (k + 1)) :=
        ⟨i + 1 - k, by
          rw [← Node.up_succ, ← Node.parent_up, ← Node.up_add]
          congr 1
          omega⟩
      have hrow := congrArg Node.row ((Layout.forest hnd').apart hrr hk' (hra.trans habove))
      have hle := hra.row_le
      rw [Node.parent_row, Node.up_row, Node.parent_row] at hle
      rw [Node.up_row] at hrow
      omega
    · exact hK.raise hr hS ((Layout.forest_inside h.nodup).mpr hin) (by rw [htree]; exact hC)

/-- The removals one after the other. -/
theorem Kept.removeAll {leaf : H → Prop} (hi : IdealHash H leaf) (ys : List Node) :
    ∀ {m : MapPollard H} {slots : List (Option H)} {W : Set H} {Ds : List (CTree H)},
      m.Kept tight slots W C → (∀ a ∈ liveLeaves slots, leaf a ∧ a ≠ empty) →
      Deletable slots ys Ds →
      (∀ D ∈ Ds, ∀ a ∈ D.leaves, a ∈ W ∧ a ∉ C) →
      ∃ m', m.removeAll (ys.map (nodePos m.totalRows)) = .ok m' ∧
        m'.totalRows = m.totalRows ∧
        m'.Kept tight (delSlots slots (Ds.flatMap CTree.leaves))
          (W \ {a | a ∈ Ds.flatMap CTree.leaves}) C := by
  induction ys with
  | nil =>
    intro m slots W Ds h _ hDs _
    cases hDs.placed
    refine ⟨m, rfl, rfl, ?_⟩
    simpa [delSlots_nil] using h
  | cons y ys ih =>
    intro m slots W Ds h hfine hDs hW
    obtain ⟨D, Ds, hD, -, rfl⟩ := List.forall₂_cons_left_iff.mp hDs.placed
    rw [List.forall_mem_cons] at hW
    obtain ⟨m1, h1, hT1, hh1⟩ := h.removeSingle hi hfine hD (fun a ha => (hW.1 a ha).1)
      fun a ha hmem => (hW.1 a hmem).2 ha
    have hstep := hDs.step h.length_lt h.nodup
    have hlive : ∀ a ∈ liveLeaves (delSlots slots D.leaves), a ∈ liveLeaves slots ∧
        a ∉ D.leaves := by
      intro a ha
      rw [liveLeaves_delSlots, List.mem_filter] at ha
      exact ⟨ha.1, by simpa using ha.2⟩
    -- The leaves still to be removed are others.
    have hW' : ∀ D' ∈ Ds, ∀ a ∈ D'.leaves, a ∈ W \ {a | a ∈ D.leaves} ∧ a ∉ C := by
      intro D' hD' a ha
      exact ⟨⟨(hW.2 D' hD' a ha).1, (hlive a (hstep.leaves_live D' hD' a ha)).2⟩,
        (hW.2 D' hD' a ha).2⟩
    obtain ⟨m2, h2, hT2, hh2⟩ := ih hh1 (fun a ha => hfine a (hlive a ha).1) hstep hW'
    refine ⟨m2, ?_, hT2.trans hT1, ?_⟩
    · rw [hT1] at h2
      rw [List.map_cons, MapPollard.removeAll, h1, Exec.ok_bind]
      exact h2
    · rw [delSlots_append] at hh2
      rw [List.flatMap_cons]
      convert hh2 using 1
      ext a
      simp only [Set.mem_sdiff, Set.mem_ofPred_eq, List.mem_append, not_or, and_assoc]

omit [HashOps H] in
theorem Sees.uncacheLeaves {T n : Nat} {N : NodeMap H} (dels : List H) :
    ∀ {m : MapPollard H} {K : LeafMap H}, m.Sees T n N K →
      (m.uncacheLeaves dels).Sees T n N fun a => if a ∈ dels then none else K a := by
  induction dels with
  | nil =>
    intro m K h
    simp only [List.not_mem_nil, if_false]
    exact h
  | cons d dels ih =>
    intro m K h
    have h1 : ({ m with cachedLeaves := m.cachedLeaves.erase d } : MapPollard H).Sees T n N
        fun a => if a = d then none else K a :=
      { h with
        cached := fun a => by
          by_cases ha : a = d
          · subst ha
            rw [if_pos rfl]
            exact Finmap.lookup_erase ..
          · rw [if_neg ha, ← h.cached a]
            exact Finmap.lookup_erase_ne ha }
    have hK : (fun a => if a ∈ d :: dels then none else K a) =
        fun a => if a ∈ dels then none else if a = d then none else K a := by
      funext a
      by_cases ha : a = d <;> by_cases hd : a ∈ dels <;> simp [ha, hd]
    rw [hK]
    exact ih h1

/-- **`remove` prunes the forest to the cached leaves that are left.** -/
theorem Kept.remove {leaf : H → Prop} (hi : IdealHash H leaf) (h : m.Kept tight slots C C)
    (hfine : ∀ a ∈ liveLeaves slots, leaf a ∧ a ≠ empty) {proof : Proof H} {dels : List H}
    (hx : List.Forall₂ (LeafAt slots) proof.targets dels) (hd : dels.Nodup)
    (hC : ∀ a ∈ dels, a ∈ C) :
    ∃ m', m.remove proof dels = .ok (m', .ok ()) ∧ m'.totalRows = m.totalRows ∧
      m'.Kept tight (delSlots slots dels) (C \ {a | a ∈ dels}) (C \ {a | a ∈ dels}) := by
  obtain ⟨N, K, hs, hsound, hK⟩ := h.view
  have hs1 := hs.uncacheLeaves dels
  have h1 : (m.uncacheLeaves dels).Kept tight slots C (C \ {a | a ∈ dels}) := by
    refine ⟨h.nodup, hs1.totalRows ▸ h.rows, hs1.totalRows ▸ h.room, Set.sdiff_subset,
      N, _, hs1.totalRows.symm ▸ hs1, hsound, fun a x hax => ?_, fun a ha => ?_⟩
    · split at hax
      · cases hax
      · next hno =>
        obtain ⟨ha, hleaf⟩ := hK.leaf a x hax
        exact ⟨⟨ha, hno⟩, hleaf⟩
    · rw [if_neg (show a ∉ dels from ha.2)]
      exact hK.mem a ha.1
  have hcached : m.cached dels = true := by
    rw [MapPollard.cached, List.all_eq_true]
    exact fun a ha => decide_eq_true ((hs.mem_cached a).mpr (hK.mem a (hC a ha)))
  obtain ⟨xs, hxs, htargets⟩ := exists_nodes hx
  obtain ⟨zs, hperm, hanti, hzs⟩ := sortedDels_eq h1.rows
    (hs1.numLeaves.symm ▸ h1.room) hs1.numLeaves hxs hd
  obtain ⟨ys, Ds, hys, hDs, hmem⟩ := deletable_of_sorted h1.rows h1.room hxs hperm hanti
  obtain ⟨m2, h2, hT2, hh2⟩ := h1.removeAll hi ys hfine hDs fun D hD a ha => by
    have hdel := (hmem a).mp (List.mem_flatMap.mpr ⟨D, hD, ha⟩)
    exact ⟨hC a hdel, fun hno => hno.2 hdel⟩
  refine ⟨m2, ?_, hT2.trans hs1.totalRows, ?_⟩
  · rw [MapPollard.remove, if_pos hcached]
    dsimp only
    rw [htargets, hzs, hys, h2, Exec.ok_bind]
  · rw [delSlots_congr hmem] at hh2
    convert hh2 using 2
    ext a
    exact (hmem a).symm

end MapPollard

end Utreexo
