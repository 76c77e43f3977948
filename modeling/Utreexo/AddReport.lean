import Utreexo.StumpReport

/-! # `Stump.add` reports the forest after the addition

The reports of the added leaves together have every pair of siblings of the final forest
whose parent was not there before (`exists_report`): the parent's last leaf is one of the
added ones, and merging it goes through the pair.  So they have the siblings on the path of
every added leaf, and those on the paths of the old leaves above the old roots.
-/
namespace Utreexo
open Merkle

section Complete
variable {H : Type} {F : List (Option H)} {n : Nat}

/-- The leaf that completes the subtree of a node lists the node's children. -/
theorem exists_report (hF : F.length ≤ 2 ^ 63) {z : Node} (hz : z.parent.InForest F.length)
    (hnew : ¬ z.parent.InForest n) (hT : nodeTree F z ≠ none) (hS : nodeTree F z.sibling ≠ none) :
    ∃ c, n ≤ c ∧ c < F.length ∧ place F z ∈ grownNodes F c (lowZero c) := by
  have hpos := Nat.two_pow_pos (z.row + 1)
  have hle : (z.off / 2 + 1) * 2 ^ (z.row + 1) ≤ F.length :=
    (Nat.le_div_iff_mul_le hpos).mp hz
  have hgt : n < (z.off / 2 + 1) * 2 ^ (z.row + 1) :=
    (Nat.div_lt_iff_lt_mul hpos).mp (Nat.lt_succ_of_le (Nat.le_of_not_lt hnew))
  obtain ⟨c, hc⟩ : ∃ c, (z.off / 2 + 1) * 2 ^ (z.row + 1) = c + 1 :=
    ⟨(z.off / 2 + 1) * 2 ^ (z.row + 1) - 1, by omega⟩
  have hsum : c = z.off / 2 * 2 ^ (z.row + 1) + (2 ^ (z.row + 1) - 1) := by
    rw [Nat.succ_mul] at hc
    omega
  have hlow : LowOnes c (z.row + 1) := by
    unfold LowOnes
    rw [hsum, Nat.mul_comm, Nat.mul_add_mod, Nat.mod_eq_of_lt (by omega)]
  have hdiv : c / 2 ^ (z.row + 1) = z.off / 2 := by
    have hzero : (2 ^ (z.row + 1) - 1) / 2 ^ (z.row + 1) = 0 := Nat.div_eq_of_lt (by omega)
    rw [hsum, Nat.mul_comm, Nat.mul_add_div hpos, hzero, Nat.add_zero]
  -- The path of the leaf goes through one of the children.
  have hpar : ((Node.leafNode c).up z.row).parent = z.parent := by
    rw [← Node.up_succ]
    exact Node.ext (by rw [Node.leafNode_up_row]; rfl) hdiv
  refine ⟨c, by omega, by omega, List.mem_append_left _ (mem_grownBelow.mpr
    ⟨z.row, le_lowZero (by omega) hlow, ?_⟩)⟩
  rcases Node.eq_or_eq_sibling hpar with h | h
  · exact ⟨fun hn => hS (by rw [h]; exact hn), Or.inr (congrArg (place F) h)⟩
  · exact ⟨fun hn => hT (by rw [h]; exact hn), Or.inl (congrArg (place F) h)⟩

/-- The siblings above the place of a tree whose parent is new are listed. -/
theorem exists_report_above (hF : F.length ≤ 2 ^ 63) {x y : Node} (hx : x.InForest F.length)
    (hT : nodeTree F x ≠ none) (hnew : ¬ x.parent.InForest n) (hy : y.Above (place F x))
    (hin : y.parent.InForest F.length) :
    ∃ c, n ≤ c ∧ c < F.length ∧ y.sibling ∈ grownNodes F c (lowZero c) := by
  have hlt : F.length < 2 ^ 64 := by omega
  obtain ⟨z, hzx, hz, hzT, rfl, hroot | ⟨hzp, hzS⟩⟩ :=
    exists_of_above_place hlt hx hT hy (Node.inForest_of_parent hin)
  · exact absurd hroot (Node.not_isRoot_of_parent hin)
  · rw [← place_sibling hlt hzp hzT hzS]
    refine exists_report hF (by rwa [Node.sibling_parent]) ?_ hzS (by rwa [Node.sibling_sibling])
    rw [Node.sibling_parent]
    intro h
    refine hnew (Node.Above.inForest (x := z.parent) ?_ h)
    obtain ⟨j, rfl⟩ := hzx
    exact ⟨j, by rw [Node.parent_up, Node.up_succ]⟩

end Complete

/-! ### The forest before and after -/

section Append
variable {H : Type} {slots : List (Option H)} {adds : List H}

/-- A tree does not see the slots added after it. -/
theorem nodeTree_append {extra : List (Option H)} {x : Node}
    (hx : (x.off + 1) * 2 ^ x.row ≤ slots.length) :
    nodeTree (slots ++ extra) x = nodeTree slots x := by
  refine CTree.perfect_congr fun i _ hi => slotAt_append_left ?_
  rw [Nat.succ_mul] at hx
  omega

theorem nodeTree_rootAt {extra : List (Option H)} {r : Nat}
    (hr : slots.length.testBit r = true) :
    nodeTree (slots ++ extra) (Node.rootAt slots.length r) = rootTree slots r := by
  rw [rootTree_eq_nodeTree]
  refine nodeTree_append ?_
  have hin := (Node.rootAt_isRoot hr).inForest
  exact (Nat.le_div_iff_mul_le (Nat.two_pow_pos _)).mp hin

theorem slotAt_adds {i : Nat} {a : H} (h : adds[i]? = some a) :
    slotAt (slots ++ adds.map some) (slots.length + i) = some a := by
  rw [slotAt_eq_some, List.getElem?_append_right (by omega), Nat.add_sub_cancel_left,
    List.getElem?_map, h]
  rfl

theorem liveFrom_adds : LiveFrom (slots ++ adds.map some) slots.length := by
  intro i h1 h2
  obtain ⟨d, rfl⟩ := Nat.exists_eq_add_of_le h1
  have hd : d < adds.length := by
    rw [List.length_append, List.length_map] at h2
    omega
  exact ⟨_, slotAt_adds (List.getElem?_eq_getElem hd)⟩

theorem stumpAt_length [HashOps H] :
    stumpAt (slots ++ adds.map some) slots.length =
      ⟨(forestTrees slots).map hashOpt, slots.length⟩ := by
  rw [stumpAt, forestTrees, List.map_map]
  congr 1
  refine List.map_congr_left fun r hr => ?_
  rw [nodeHash, nodeTree_rootAt (mem_rootRows.mp hr).2.2]
  rfl

end Append

/-! ### The result -/

/-- `h` is the hash that the forest has at the position `p`. -/
def HashAt {H : Type} [HashOps H] (slots : List (Option H)) (p : Nat) (h : H) : Prop :=
  ∃ x T, placed slots x = some T ∧ p = nodePos (treeRows slots.length) x ∧ h = treeHash T

/-- What the additions report, against the forest `slots ++ adds.map some` after them. -/
structure AddReport {H : Type} [HashOps H] (slots : List (Option H)) (adds hashes : List H)
    (positions toDestroy : List Nat) : Prop where
  ascending : positions.Pairwise (· < ·)
  /-- The hashes are those of the forest. -/
  hashesAt : List.Forall₂ (HashAt (slots ++ adds.map some)) positions hashes
  /-- Every added leaf is there, at its final position. -/
  leaves : ∀ a ∈ adds, ∃ p, LeafAt (slots ++ adds.map some) p a ∧ (p, a) ∈ positions.zip hashes
  /-- The siblings on the path of an added leaf to its root. -/
  newPaths : ∀ a ∈ adds, ∀ x y : Node, placed (slots ++ adds.map some) x = some (.leaf a) →
    y.Above x → y.parent.InForest (slots ++ adds.map some).length →
    nodePos (treeRows (slots ++ adds.map some).length) y.sibling ∈ positions
  /-- The tree of an old root has moved to `z`: the siblings on the path from there. -/
  oldPaths : ∀ r ∈ rootRows slots.length 0, ∀ T, rootTree slots r = some T →
    ∃ z : Node, placed (slots ++ adds.map some) z = some T ∧ ∀ y : Node, y.Above z →
      y.parent.InForest (slots ++ adds.map some).length →
      nodePos (treeRows (slots ++ adds.map some).length) y.sibling ∈ positions
  /-- The empty roots that are roots no more. -/
  destroyed : toDestroy = (overwritten slots.length (slots ++ adds.map some).length
    fun r => (rootTree slots r).isNone).map (nodePos (treeRows (slots ++ adds.map some).length))
  once : toDestroy.Nodup
  /-- A leaf is merged with the roots lowest first, and when a root is none any more, neither
  are those before it in the list. -/
  inOrder : (overwritten slots.length (slots ++ adds.map some).length
    fun r => (rootTree slots r).isNone).Pairwise fun x y => x.row < y.row ∧
      ∀ m, slots.length ≤ m → ¬ y.IsRoot m → ¬ x.IsRoot m

/-- Lower roots are written over first. -/
theorem overwritten_inOrder (n m : Nat) (gone : Nat → Bool) :
    (overwritten n m gone).Pairwise fun x y => x.row < y.row ∧
      ∀ k, n ≤ k → ¬ y.IsRoot k → ¬ x.IsRoot k := by
  have hrows : (rootRows n 0).reverse.Pairwise (· < ·) :=
    List.pairwise_reverse.mpr (rootRows_pairwise n 0)
  refine List.pairwise_map.mpr ((hrows.filter _).imp_of_mem ?_)
  intro r r' hr hr' hlt
  have hbit : ∀ i ∈ (rootRows n 0).reverse.filter
      (fun r => gone r && !decide ((Node.rootAt n r).IsRoot m)), n.testBit i = true :=
    fun i hi => (mem_rootRows.mp (List.mem_reverse.mp (List.mem_of_mem_filter hi))).2.2
  refine ⟨hlt, fun k hk => ?_⟩
  rw [rootAt_isRoot_iff (hbit r hr) hk, rootAt_isRoot_iff (hbit r' hr') hk, not_not, not_not]
  intro hin
  obtain ⟨d, rfl⟩ := Nat.exists_eq_add_of_lt hlt
  rw [show r + d + 1 + 1 = r + 1 + (d + 1) by omega, Node.up_add] at hin
  exact Node.inForest_of_up hin

theorem inForest_of_overwritten {n m : Nat} (hm : n ≤ m) {gone : Nat → Bool} {x : Node}
    (hx : x ∈ overwritten n m gone) : x.InForest m := by
  obtain ⟨r, hr, rfl⟩ := List.mem_map.mp hx
  have hb := (mem_rootRows.mp (List.mem_reverse.mp (List.mem_of_mem_filter hr))).2.2
  exact (Node.rootAt_isRoot hb).inForest.mono hm

/-- Neighbours in the image of a range. -/
theorem isChain_map_range' {α : Type} {R : α → α → Prop} {f : Nat → α} {n m : Nat}
    (h : ∀ c, n ≤ c → c + 1 < n + m → R (f c) (f (c + 1))) :
    ((List.range' n m).map f).IsChain R := by
  induction m generalizing n with
  | zero => exact .nil
  | succ m ih =>
    rw [List.range'_succ, List.map_cons]
    cases m with
    | zero => exact .singleton _
    | succ m =>
      have hrest := ih (n := n + 1) fun c h1 h2 => h c (by omega) (by omega)
      rw [List.range'_succ, List.map_cons] at hrest ⊢
      exact .cons_cons (h n (Nat.le_refl n) (by omega)) hrest

section
variable {H : Type} [DecidableEq H] [HashOps H]

section
variable {leaf : H → Prop} (hi : IdealHash H leaf) {slots : List (Option H)} {adds : List H}
  (hnd : (liveLeaves (slots ++ adds.map some)).Nodup)
  (hleaf : ∀ h ∈ liveLeaves (slots ++ adds.map some), h ≠ empty ∧ leaf h)
  (hcount : slots.length + adds.length ≤ 2 ^ 63)
include hi hnd hleaf hcount

/-- `Stump.add` lists the positions of the reports of all the added leaves. -/
theorem Stump.add_listing :
    ∃ positions, (⟨(forestTrees slots).map hashOpt, slots.length⟩ : Stump H).add adds =
        .ok (stumpAt (slots ++ adds.map some) (slots ++ adds.map some).length,
          positions.map (slotHash (slots ++ adds.map some)), positions,
          (overwritten slots.length (slots ++ adds.map some).length fun r =>
            (rootTree slots r).isNone).map
              (nodePos (treeRows (slots ++ adds.map some).length))) ∧
      Listing positions {p | ∃ c, slots.length ≤ c ∧ c < (slots ++ adds.map some).length ∧
        p ∈ leafPositions (slots ++ adds.map some) c} := by
  have hlen : (slots ++ adds.map some).length = slots.length + adds.length := by
    rw [List.length_append, List.length_map]
  have hF : (slots ++ adds.map some).length ≤ 2 ^ 63 := by rwa [hlen]
  have hlive : LiveFrom (slots ++ adds.map some) slots.length := liveFrom_adds
  have hne : ∀ h ∈ liveLeaves (slots ++ adds.map some), h ≠ empty := fun h hh => (hleaf h hh).1
  have hdel := rootsToDestory_spec hF hi.ne_empty hne (c := slots.length) (by omega)
  have hloop := addLoop_spec hF hi.ne_empty hne adds (c := slots.length) hlen.symm
    (fun i a ha => slotAt_adds ha) []
  rw [stumpAt_length, show (slots ++ adds.map some).length - slots.length = adds.length by omega]
    at hdel
  rw [stumpAt_length, List.nil_append] at hloop
  have hgone : overwritten slots.length (slots ++ adds.map some).length (fun r =>
      vacantBelow (slots ++ adds.map some) (Node.rootAt slots.length r)) =
      overwritten slots.length (slots ++ adds.map some).length fun r =>
        (rootTree slots r).isNone := by
    unfold overwritten
    rw [List.filter_congr fun r hr => ?_]
    have hb := (mem_rootRows.mp (List.mem_reverse.mp hr)).2.2
    dsimp only
    rw [vacantBelow, nodeTree_rootAt hb]
  rw [hgone] at hdel
  -- The reports of the leaves, as lists of positions.
  have hreports : (List.range' slots.length adds.length).map
        (leafReport (slots ++ adds.map some)) =
      ((List.range' slots.length adds.length).map
        (leafPositions (slots ++ adds.map some))).map
          (List.map (withHash (slotHash (slots ++ adds.map some)))) := by
    rw [List.map_map]
    exact List.map_congr_left fun c _ => leafReport_eq
  obtain ⟨positions, hmerge, hlist⟩ := mergeSubTrees_listing
    (V := slotHash (slots ++ adds.map some)) (u := [])
    ((List.range' slots.length adds.length).map (leafPositions (slots ++ adds.map some)))
    (fun l hl => by
      obtain ⟨c, hc, rfl⟩ := List.mem_map.mp hl
      obtain ⟨h1, h2⟩ := List.mem_range'_1.mp hc
      exact leafPositions_sorted hF (hlive.mono h1) (by omega))
    Listing.nil
    (isChain_map_range' fun c h1 h2 => leafPositions_skip hF (hlive.mono h1) (by omega) hi
      (fun h hh => (hleaf h hh).2) hnd (by omega))
  refine ⟨positions, ?_, hlist.congr fun p => ?_⟩
  · rw [Stump.add]
    dsimp only
    rw [hdel, Exec.ok_bind, add64_of_lt (by omega), ← hlen, hloop, Exec.ok_bind]
    dsimp only
    rw [hreports, show ([] : List (Nat × H)) =
      ([] : List Nat).map (withHash (slotHash (slots ++ adds.map some))) from rfl, hmerge,
      map_withHash_snd, map_withHash_fst]
  · simp only [Set.empty_union, Set.mem_ofPred_eq, List.mem_map, List.mem_range'_1]
    constructor
    · rintro ⟨l, ⟨c, ⟨h1, h2⟩, rfl⟩, hp⟩
      exact ⟨c, h1, by omega, hp⟩
    · rintro ⟨c, h1, h2, hp⟩
      exact ⟨_, ⟨c, ⟨h1, by omega⟩, rfl⟩, hp⟩

/-- **`Stump.add` reports the forest after the addition.**  The Stump has the roots of any
collapsed forest, as after any run (`StumpRun.eq_forest`). -/
theorem stump_add_reports :
    ∃ s' hashes positions toDestroy,
      (⟨(forestTrees slots).map hashOpt, slots.length⟩ : Stump H).add adds =
        .ok (s', hashes, positions, toDestroy) ∧
      AddReport slots adds hashes positions toDestroy := by
  have hlen : (slots ++ adds.map some).length = slots.length + adds.length := by
    rw [List.length_append, List.length_map]
  have hF : (slots ++ adds.map some).length ≤ 2 ^ 63 := by rwa [hlen]
  have hlt : (slots ++ adds.map some).length < 2 ^ 64 := by omega
  have hlive : LiveFrom (slots ++ adds.map some) slots.length := liveFrom_adds
  obtain ⟨positions, hadd, hlist⟩ := Stump.add_listing hi hnd hleaf hcount
  have hmem : ∀ {c : Nat} {y : Node}, slots.length ≤ c → c < (slots ++ adds.map some).length →
      y ∈ grownNodes (slots ++ adds.map some) c (lowZero c) →
      nodePos (treeRows (slots ++ adds.map some).length) y ∈ positions :=
    fun h1 h2 hy => (hlist.mem _).mpr ⟨_, h1, h2, mem_leafPositions.mpr ⟨_, hy, rfl⟩⟩
  -- The node of an added leaf.
  have hleafAt : ∀ a ∈ adds, ∃ c, slots.length ≤ c ∧ c < (slots ++ adds.map some).length ∧
      (Node.leafNode c).InForest (slots ++ adds.map some).length ∧
      nodeTree (slots ++ adds.map some) (Node.leafNode c) = some (.leaf a) := by
    intro a ha
    obtain ⟨i, hi, hia⟩ := List.mem_iff_getElem.mp ha
    have hslot := @slotAt_adds H slots adds i a (List.getElem?_eq_some_iff.mpr ⟨hi, hia⟩)
    refine ⟨slots.length + i, by omega, by omega, Node.leafNode_inForest.mpr (by omega), ?_⟩
    · simp [nodeTree, Node.leafNode, CTree.perfect, hslot]
  refine ⟨_, _, _, _, hadd, ⟨hlist.sorted, ?_, ?_, ?_, ?_, rfl, ?_, overwritten_inOrder _ _ _⟩⟩
  · rw [List.forall₂_map_right_iff, List.forall₂_same]
    intro p hp
    obtain ⟨c, h1, h2, hp⟩ := (hlist.mem p).mp hp
    obtain ⟨z, T, rfl, -, hT, -⟩ := leafPositions_trees hF (hlive.mono h1) h2 hp
    refine ⟨_, T, hT, rfl, ?_⟩
    rw [slotHash_nodePos hF (placed_inForest hT), hT]
    rfl
  · intro a ha
    obtain ⟨c, h1, h2, hin, htree⟩ := hleafAt a ha
    obtain ⟨hl, -, -⟩ := lowZero_spec (show c + 1 < 2 ^ 64 by omega)
    have hplaced := placed_place hlt hin htree
    have hat : LeafAt (slots ++ adds.map some) _ a := ⟨_, hplaced, rfl⟩
    refine ⟨_, hat, ?_⟩
    rw [zip_map_eq, List.mem_map]
    refine ⟨_, hmem h1 h2 (leaf_mem_grownNodes hF h2 hl), ?_⟩
    rw [withHash, hat.slotHash_eq hF]
  · intro a ha x y hx hy hin
    obtain ⟨c, h1, h2, hcin, htree⟩ := hleafAt a ha
    have hplaced := placed_place hlt hcin htree
    obtain rfl := placed_leaf_unique hlt hnd hx hplaced
    have hnew : ¬ (Node.leafNode c).parent.InForest slots.length := by
      intro h
      have := Node.leafNode_inForest.mp (Node.inForest_of_parent h)
      omega
    obtain ⟨d, h3, h4, hd⟩ := exists_report_above hF hcin
      (by rw [htree]; exact Option.some_ne_none _)
      hnew hy hin
    exact hmem h3 h4 hd
  · intro r hr T hT
    have hb := (mem_rootRows.mp hr).2.2
    have hroot := Node.rootAt_isRoot hb
    have hrin : (Node.rootAt slots.length r).InForest (slots ++ adds.map some).length :=
      hroot.inForest.mono (by omega)
    have htree : nodeTree (slots ++ adds.map some) (Node.rootAt slots.length r) = some T := by
      rw [nodeTree_rootAt hb, hT]
    refine ⟨_, placed_place hlt hrin htree, fun y hy hin => ?_⟩
    obtain ⟨d, h3, h4, hd⟩ := exists_report_above hF hrin
      (by rw [htree]; exact Option.some_ne_none _)
      (fun h => Node.not_isRoot_of_parent h hroot) hy hin
    exact hmem h3 h4 hd
  · refine List.Pairwise.imp (R := (· < ·)) Nat.ne_of_lt ?_
    refine List.pairwise_map.mpr ((overwritten_inOrder _ _ _).imp_of_mem ?_)
    intro x y hx _ hxy
    have hfit := fits_of_inForest (le_two_pow_treeRows _)
      (inForest_of_overwritten (m := (slots ++ adds.map some).length) (by omega) hx)
    exact hfit.pos_lt_of_before (Or.inl hxy.1)

end

/-- Three leaves are added over one empty root. -/
theorem stump_add_reports_over_empty :
    ∃ s' hashes positions toDestroy,
      (⟨[.empty], 1⟩ : Stump FreeHash).add [.leaf 1, .leaf 2, .leaf 3] =
        .ok (s', hashes, positions, toDestroy) ∧
      AddReport [none] [.leaf 1, .leaf 2, .leaf 3] hashes positions toDestroy :=
  @stump_add_reports FreeHash _ _ _ FreeHash.ideal [none] _ (by decide)
    (by simp [liveLeaves, FreeHash.IsLeaf, empty]) (by decide)

end

end Utreexo
