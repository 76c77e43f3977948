import Utreexo.ForestProof
import Utreexo.Offset
import Utreexo.ProofCheck
import Utreexo.UndoRun

/-! # What an accepted proof says about positions

`Verify` compares the roots that it computes with the roots of the forest by their hashes, in
order.  It does not ask whether a root is that of the tree the targets are in, it passes over
all-zero hashes of the proof, and it takes the targets as they come.  The hashes of an accepted
proof are live leaves all the same, but they need not be at the targets.  They are exactly if
the proof is well placed: its targets are nodes of which none is above another, no hash that is
read is all-zero, and the matched roots are those above the targets (`verify_binds_iff`).
-/
namespace Utreexo
open Merkle

/-- What `Verify` does not check, for the indexes of the roots that it matched. -/
structure Proof.WellPlaced {H : Type} [HashOps H] (n : Nat) (proof : Proof H) (idxs : List Nat) :
    Prop where
  /-- The targets are positions of the forest, none twice and none above another. -/
  apart : ∃ xs : List Node, proof.targets = xs.map (nodePos (treeRows n)) ∧ xs.Nodup ∧
    (∀ x ∈ xs, x.InForest n) ∧ ∀ x ∈ xs, ∀ y ∈ xs, x.Above y → x = y
  /-- No hash that is read is all-zero. -/
  filled : ∀ positions computed, proofPositions (sortPositions proof.targets) n (treeRows n) =
    .ok (positions, computed) → empty ∉ proof.proof.take positions.length
  /-- The matched roots are those of the trees that `detectOffset` finds for the targets. -/
  trees : ∀ i, i ∈ idxs ↔ ∃ t ∈ proof.targets, ∃ branchLen bits,
    detectOffset t n = .ok (i, branchLen, bits)

/-! ### Below a computed hash -/

section Below
variable {H : Type} [DecidableEq H] [HashOps H] {leaf : H → Prop} (hi : IdealHash H leaf)
  {n k : Nat} (hk : n ≤ 2 ^ k) {T : Set Node} {V : Nat → H}
  (hV : Hashing n k T getNextHash V) (hT : ∀ t ∈ T, V (nodePos k t) ≠ empty)
include hi hV hT

/-- Above a target there is no all-zero hash. -/
theorem Hashing.ne_empty {t : Node} (ht : t ∈ T) {j : Nat} (hj : (t.up j).InForest n) :
    V (nodePos k (t.up j)) ≠ empty := by
  induction j with
  | zero =>
    rw [Node.up_zero]
    exact hT t ht
  | succ j ih =>
    rw [Node.up_succ] at hj ⊢
    have hx := Node.inForest_of_parent hj
    rw [hV (t.up j) ⟨hx, t, ht, j, rfl⟩ (Node.not_isRoot_of_parent hj), Ne,
      HashExpr.getNextHash_eq_empty hi]
    exact fun h => ih hx h.1

/-- A sibling on the way up is computed or read. -/
theorem Hashing.sibling_ne_empty
    (hS : ∀ y, Needed n T y → V (nodePos k y) ≠ empty) {x : Node} (hx : Touched n T x)
    (hr : ¬ x.IsRoot n) : V (nodePos k x.sibling) ≠ empty := by
  by_cases ht : Touched n T x.sibling
  · obtain ⟨hin, t, ht, j, hj⟩ := ht
    rw [← hj] at hin ⊢
    exact hV.ne_empty hi hT ht hin
  · refine hS _ ⟨?_, ?_, ht⟩ <;> rwa [Node.sibling_sibling]

/-- **Two tables of hashes are equal if they agree at the roots** and no hash is passed over. -/
theorem Hashing.eq_of_roots (hS : ∀ y, Needed n T y → V (nodePos k y) ≠ empty) {V' : Nat → H}
    (hV' : Hashing n k T getNextHash V') (hT' : ∀ t ∈ T, V' (nodePos k t) ≠ empty)
    (hS' : ∀ y, Needed n T y → V' (nodePos k y) ≠ empty)
    (hroots : ∀ x, Touched n T x → x.IsRoot n → V (nodePos k x) = V' (nodePos k x)) {x : Node}
    (hx : Touched n T x) (hr : ¬ x.IsRoot n) :
    V (nodePos k x) = V' (nodePos k x) ∧ V (nodePos k x.sibling) = V' (nodePos k x.sibling) := by
  obtain ⟨j, hj⟩ := hx.1.exists_root
  -- From the root down: the hash of the parent tells those of the two children.
  induction j generalizing x with
  | zero =>
    rw [Node.up_zero] at hj
    exact absurd hj hr
  | succ j ih =>
    have hpar := (hx.computed_parent hr).touched
    have heq : V (nodePos k x.parent) = V' (nodePos k x.parent) := by
      by_cases hr' : x.parent.IsRoot n
      · exact hroots _ hpar hr'
      · exact (ih hpar hr' (by rwa [Node.parent_up])).1
    have hval : ∀ {U : Nat → H}, (∀ t ∈ T, U (nodePos k t) ≠ empty) →
        Hashing n k T getNextHash U → U (nodePos k x) ≠ empty := fun hT hU =>
      let ⟨hin, t, ht, i, hi'⟩ := hx
      hi' ▸ hU.ne_empty hi hT ht (hi' ▸ hin)
    rw [hV x hx hr, hV' x hx hr, getNextHash, getNextHash, if_neg (hval hT hV),
      if_neg (hV.sibling_ne_empty hi hT hS hx hr), if_neg (hval hT' hV'),
      if_neg (hV'.sibling_ne_empty hi hT' hS' hx hr)] at heq
    split at heq
    · exact hi.inj heq
    · exact (hi.inj heq).symm

include hk

/-- **A target is in the tree whose hash is computed above it**, and it is at the path of the
node exactly if no sibling on the way up is passed over. -/
theorem Hashing.exists_path {t : Node} (ht : t ∈ T) (hleaf : leaf (V (nodePos k t))) {j : Nat}
    (hj : (t.up j).InForest n) {S : CTree H} (hS : ∀ h ∈ S.leaves, leaf h)
    (he : V (nodePos k (t.up j)) = treeHash S) :
    ∃ p, S.subAt p = some (.leaf (V (nodePos k t))) ∧ p.length ≤ j ∧
      (p.length = j → ∀ i < j, V (nodePos k (t.up i).sibling) ≠ empty) ∧
      ((∀ i < j, V (nodePos k (t.up i).sibling) ≠ empty) → p = t.path j) := by
  induction j generalizing S with
  | zero =>
    rw [Node.up_zero] at he
    cases S with
    | leaf a =>
      rw [he]
      exact ⟨[], rfl, Nat.le_refl _, fun _ i hi => absurd hi (Nat.not_lt_zero i), fun _ => rfl⟩
    | node l r =>
      rw [he] at hleaf
      exact absurd hleaf (hi.not_leaf _ _)
  | succ j ih =>
    rw [Node.up_succ] at hj he
    have hx := Node.inForest_of_parent hj
    rw [hV (t.up j) ⟨hx, t, ht, j, rfl⟩ (Node.not_isRoot_of_parent hj), getNextHash,
      if_neg (hV.ne_empty hi hT ht hx), isLeftNiece_nodePos (fits_of_inForest hk hx)] at he
    by_cases hs : V (nodePos k (t.up j).sibling) = empty
    · -- The sibling is passed over: the hash moves up as it is.
      rw [if_pos hs] at he
      obtain ⟨p, hp, hlen, -, -⟩ := ih hx hS he
      refine ⟨p, hp, by omega, fun h => by omega, fun h => ?_⟩
      exact absurd hs (h j (Nat.lt_succ_self j))
    · rw [if_neg hs] at he
      cases S with
      | leaf a =>
        have ha := hS a List.mem_cons_self
        rw [treeHash_leaf] at he
        split at he <;> exact absurd (he ▸ ha) (hi.not_leaf _ _)
      | node l r =>
        -- The child that the node is.
        have hchild : V (nodePos k (t.up j)) = treeHash (if (t.up j).isRight then r else l) := by
          rw [treeHash_node] at he
          by_cases hodd : (t.up j).off % 2 = 0
          · rw [if_pos (by simpa using hodd)] at he
            simpa [Node.isRight, hodd] using (hi.inj he).1
          · have hodd' : (t.up j).off % 2 = 1 := by omega
            rw [if_neg (by simpa using hodd)] at he
            simpa [Node.isRight, hodd'] using (hi.inj he).2
        have hleaves : ∀ h ∈ (if (t.up j).isRight then r else l).leaves, leaf h := by
          intro h hh
          refine hS h (List.mem_append.mpr ?_)
          split at hh
          · exact Or.inr hh
          · exact Or.inl hh
        obtain ⟨p, hp, hlen, hall, hpath⟩ := ih hx hleaves hchild
        refine ⟨(t.up j).isRight :: p, ?_, Nat.succ_le_succ hlen, fun h i hi => ?_, fun h => ?_⟩
        · rw [CTree.subAt_node]
          exact hp
        · rcases Nat.lt_succ_iff_lt_or_eq.mp hi with hi | rfl
          · exact hall (Nat.succ_injective h) i hi
          · exact hs
        · rw [hpath fun i hi => h i (Nat.lt_succ_of_lt hi), Node.path_add t j 1]
          rfl

end Below

/-! ### The roots above the targets -/

/-- The rows of the roots above the targets, from the lowest. -/
def touchedRows (n : Nat) (xs : List Node) : List Nat :=
  (rootRows n 0).reverse.filter fun r => ∃ x ∈ xs, (Node.rootAt n r).Above x

/-- The place of the root of a row in the list of the roots. -/
def rootIndex (n r : Nat) : Nat := (rootRows n (r + 1)).length

section Rows
variable {n : Nat} {xs : List Node}

theorem mem_touchedRows {r : Nat} :
    r ∈ touchedRows n xs ↔ r ∈ rootRows n 0 ∧ ∃ x ∈ xs, (Node.rootAt n r).Above x := by
  rw [touchedRows, List.mem_filter, List.mem_reverse, decide_eq_true_iff]

theorem rootIndex_inj {r r' : Nat} (hr : r ∈ rootRows n 0) (hr' : r' ∈ rootRows n 0)
    (h : rootIndex n r = rootIndex n r') : r = r' := by
  have h1 := rootRows_getElem hr
  rw [show (rootRows n (r + 1)).length = (rootRows n (r' + 1)).length from h,
    rootRows_getElem hr'] at h1
  exact (Option.some.inj h1).symm

theorem touchedRows_index_pairwise (n : Nat) (xs : List Node) :
    ((touchedRows n xs).map (rootIndex n)).Pairwise (· > ·) := by
  rw [List.pairwise_map]
  have hrows := (List.pairwise_reverse.mpr (rootRows_pairwise n 0)).filter
    fun r => decide (∃ x ∈ xs, (Node.rootAt n r).Above x)
  refine hrows.imp_of_mem fun {a b} ha hb hlt => ?_
  have ha' := (mem_touchedRows.mp ha).1
  have hb' := (mem_touchedRows.mp hb).1
  -- The rows of the list of the roots are descending.
  by_contra hge
  obtain ⟨h1, ha1⟩ := List.getElem?_eq_some_iff.mp (rootRows_getElem ha')
  obtain ⟨h2, hb1⟩ := List.getElem?_eq_some_iff.mp (rootRows_getElem hb')
  rcases Nat.eq_or_lt_of_le (Nat.le_of_not_lt hge) with he | hlt'
  · exact absurd (rootIndex_inj ha' hb' he) (Nat.ne_of_lt hlt)
  · have hdesc := List.pairwise_iff_getElem.mp (rootRows_pairwise n 0) _ _ h1 h2 hlt'
    rw [ha1, hb1] at hdesc
    omega

/-- The roots above the targets are those that `detectOffset` finds. -/
theorem mem_index_touchedRows (hn : n ≤ 2 ^ 63) (hforest : ∀ x ∈ xs, x.InForest n) {i : Nat} :
    i ∈ (touchedRows n xs).map (rootIndex n) ↔ ∃ t ∈ xs.map (nodePos (treeRows n)),
      ∃ branchLen bits, detectOffset t n = .ok (i, branchLen, bits) := by
  have hfound : ∀ {x : Node} {j : Nat}, (x.up j).IsRoot n → ∃ bits,
      detectOffset (nodePos (treeRows n) x) n = .ok (rootIndex n (x.row + j), j, bits) :=
    fun hj => (detectOffset_nodePos hn hj).imp fun _ h => h.2
  constructor
  · intro hmem
    obtain ⟨r, hr, rfl⟩ := List.mem_map.mp hmem
    obtain ⟨hr, x, hx, j, hj⟩ := mem_touchedRows.mp hr
    have hroot := Node.rootAt_isRoot (mem_rootRows.mp hr).2.2
    rw [← hj] at hroot
    obtain ⟨bits, hbits⟩ := hfound hroot
    have hrow : x.row + j = r := congrArg Node.row hj
    rw [hrow] at hbits
    exact ⟨_, List.mem_map_of_mem hx, j, bits, hbits⟩
  · rintro ⟨t, ht, branchLen, bits, hoff⟩
    obtain ⟨x, hx, rfl⟩ := List.mem_map.mp ht
    obtain ⟨j, hj⟩ := (hforest x hx).exists_root
    obtain ⟨bits', hbits⟩ := hfound hj
    rw [hbits] at hoff
    obtain ⟨rfl, -⟩ := Prod.mk.inj (Except.ok.inj hoff)
    have hmem := mem_rootRows_of_isRoot (by omega : n < 2 ^ 64) hj
    refine List.mem_map_of_mem (mem_touchedRows.mpr ⟨hmem, x, hx, j, ?_⟩)
    exact (Node.isRoot_iff_rootAt.mp hj).2

end Rows

/-! ### What the verifier computes -/

section Values
variable {H : Type} [DecidableEq H] [HashOps H] [SortAlg] {roots delHashes proof : List H} {n : Nat}
  {xs : List Node} {idxs : List Nat}

/-- **The values behind an accepted proof** whose targets are apart: the hashes of the targets
and of the proof, combined up to the roots, which are found at the returned indexes. -/
theorem verify_values (hn : n ≤ 2 ^ 63) (hnodup : xs.Nodup)
    (hforest : ∀ x ∈ xs, x.InForest n) (hanti : ∀ x ∈ xs, ∀ y ∈ xs, x.Above y → x = y)
    (hv : verify ⟨roots, n⟩ delHashes ⟨xs.map (nodePos (treeRows n)), proof⟩ = .ok (.ok idxs)) :
    ∃ (positions computed : List Nat) (V : Nat → H),
      proofPositions (sortPositions (xs.map (nodePos (treeRows n)))) n (treeRows n) =
        .ok (positions, computed) ∧
      Listing positions (nodePos (treeRows n) '' {x | Needed n {t | t ∈ xs} x}) ∧
      (xs.map (nodePos (treeRows n))).map V = delHashes ∧
      positions.map V = proof.take positions.length ∧
      Hashing n (treeRows n) {t | t ∈ xs} getNextHash V ∧
      idxs.Pairwise (· > ·) ∧
      List.Forall₂ (fun i r => roots[i]? = some (V (nodePos (treeRows n) (Node.rootAt n r))))
        idxs (touchedRows n xs) := by
  have hn' := le_two_pow_treeRows n
  have hk := treeRows_le hn
  obtain ⟨hlen, inter, cands, hcalc, hidxs, hmatched⟩ := verify_eq_ok hv
  rw [hidxs] at hmatched
  obtain ⟨hdesc, hfound⟩ := matchRoots_all hmatched
  rw [← hidxs] at hdesc hfound
  change calculateHashes n (some delHashes) _ = _ at hcalc
  have hA : IsAntichain Node.Above {t | t ∈ xs} :=
    fun x hx y hy hne h => hne (hanti x hx y hy h)
  have hnodup' : (xs.map (nodePos (treeRows n))).Nodup :=
    hnodup.map_on fun x hx y hy => nodePos_inj hn' (hforest x hx) (hforest y hy)
  obtain ⟨positions, computed, hpos, hneeded, -⟩ := proofPositions_sweep (T := {t | t ∈ xs})
    hk hn' hforest hA ((sort_listing hnodup').congr fun p => List.mem_map)
  -- The proof has a hash for every position.
  have hlong : positions.length ≤ proof.length := by
    have hread := ((calculateHashes_ok_iff (by omega) fun dels hd => by
      cases hd
      exact hlen).mp ⟨_, hcalc⟩).1
    rw [LongEnough, if_pos hn, proofReads, hpos] at hread
    change (positions.filter _).length ≤ proof.length at hread
    rwa [List.filter_eq_self.mpr] at hread
    intro q hq
    obtain ⟨y, hy, rfl⟩ := (hneeded.mem q).mp hq
    have hfit := fits_of_inForest hn' (Needed.inForest hy)
    rw [decide_eq_true_iff, sibling_nodePos hfit]
    exact (le_maxPos_of_inForest hk hn' hy.1.1).trans
      (maxPos_mono hk hn' (fits_of_inForest hn' hy.1.1).1 (Nat.le_refl _))
  obtain ⟨-, hVt, hVp, hV⟩ := collapsedAt_hashing hn hforest hnodup hanti
    (hlen.trans (List.length_map _)) hpos (List.length_take_of_le hlong)
  refine ⟨positions, computed, _, hpos, hneeded, hVt, hVp, hV, hdesc, ?_⟩
  have hdel : (some delHashes).getD
      (List.replicate (xs.map (nodePos (treeRows n))).length empty) = _ := hVt.symm
  obtain ⟨touched, tops, -, htops, hcalc'⟩ := calculateHashes_sweep hn hforest hA hV hnodup'
    (fun p => List.mem_map) hneeded hdel (proof.drop positions.length)
  rw [hVp, List.take_append_drop, hcalc] at hcalc'
  obtain ⟨-, rfl⟩ := Prod.mk.inj (Except.ok.inj hcalc')
  have hrows := htops.unique (listing_touched_roots hn' (by omega)
    (fun r => ∃ x ∈ xs, (Node.rootAt n r).Above x) fun r => Iff.rfl)
  rwa [hrows, List.map_map, List.forall₂_map_right_iff] at hfound

end Values

/-! ### Binding -/

section Binding
variable {H : Type} [DecidableEq H] [HashOps H] {slots : List (Option H)} {xs : List Node}
  {V : Nat → H} {idxs : List Nat}

omit [DecidableEq H] in
theorem getElem_forestRoots {i : Nat} {c : H}
    (h : ((forestTrees slots).map hashOpt)[i]? = some c) :
    ∃ r ∈ rootRows slots.length 0, i = rootIndex slots.length r ∧
      c = hashOpt (rootTree slots r) := by
  rw [forestTrees, List.map_map, List.getElem?_map] at h
  obtain ⟨r, hr, rfl⟩ := Option.map_eq_some_iff.mp h
  have hmem := List.mem_of_getElem? hr
  have hnodup : (rootRows slots.length 0).Nodup := (rootRows_pairwise _ 0).imp ne_of_gt
  refine ⟨r, hmem, ?_, rfl⟩
  obtain ⟨hi, -⟩ := List.getElem?_eq_some_iff.mp hr
  exact (List.getElem?_inj hi hnodup).mp (hr.trans (rootRows_getElem hmem).symm)

omit [DecidableEq H] in
/-- Roots that are found at their own indexes are those of the forest. -/
theorem roots_of_index (hfound : List.Forall₂ (fun i r => ((forestTrees slots).map hashOpt)[i]? =
      some (V (nodePos (treeRows slots.length) (Node.rootAt slots.length r))))
    ((touchedRows slots.length xs).map (rootIndex slots.length)) (touchedRows slots.length xs)) :
    ∀ r ∈ touchedRows slots.length xs,
      V (nodePos (treeRows slots.length) (Node.rootAt slots.length r)) =
        hashOpt (rootTree slots r) := by
  rw [List.forall₂_map_left_iff, List.forall₂_same] at hfound
  intro r hr
  obtain ⟨r', hr', he, hc⟩ := getElem_forestRoots (hfound r hr)
  rw [hc, rootIndex_inj (mem_touchedRows.mp hr).1 hr' he]

variable (hinj : ∀ {a b c d : H}, parentHash a b = parentHash c d → a = c ∧ b = d)
  (hne : ∀ a b : H, parentHash a b ≠ empty) (hplain : PlainLeaves slots)
  (hV : Hashing slots.length (treeRows slots.length) {t | t ∈ xs} getNextHash V)
  (hleaf : ∀ x ∈ xs, V (nodePos (treeRows slots.length) x) ≠ empty ∧
    ∀ a b : H, parentHash a b ≠ V (nodePos (treeRows slots.length) x))
include hinj hne hplain hV hleaf

/-- A root hash that is computed above a target belongs to a tree with the leaf. -/
theorem Hashing.root_path {x : Node} (hx : x ∈ xs) {j r : Nat}
    (hj : (x.up j).IsRoot slots.length)
    (he : V (nodePos (treeRows slots.length) (x.up j)) = hashOpt (rootTree slots r)) :
    ∃ S p, rootTree slots r = some S ∧
      S.subAt p = some (.leaf (V (nodePos (treeRows slots.length) x))) ∧
      (p.length = j → ∀ i < j,
        V (nodePos (treeRows slots.length) (x.up i).sibling) ≠ empty) ∧
      ((∀ i < j, V (nodePos (treeRows slots.length) (x.up i).sibling) ≠ empty) →
        p = x.path j) := by
  have hi := idealHash_not_parent hinj hne
  have hT : ∀ t ∈ {t | t ∈ xs}, V (nodePos (treeRows slots.length) t) ≠ empty :=
    fun t ht => (hleaf t ht).1
  cases hS : rootTree slots r with
  | none =>
    rw [hS] at he
    exact absurd he (hV.ne_empty hi hT hx hj.inForest)
  | some S =>
    rw [hS] at he
    have hleaves : ∀ h ∈ S.leaves, ∀ a b : H, parentHash a b ≠ h := fun h hh =>
      hplain.not_parent h (rootTree_leaves_subset slots r h (by rw [hS]; exact hh))
    obtain ⟨p, hp, -, h1, h2⟩ := hV.exists_path hi (le_two_pow_treeRows _) hT hx (hleaf x hx).2
      hj.inForest hleaves he
    exact ⟨S, p, rfl, hp, h1, h2⟩

/-- **Leaves whose own roots are computed are at their targets**, if no hash is passed over. -/
theorem Hashing.placed_leaf (hforest : ∀ x ∈ xs, x.InForest slots.length)
    (hneeded : ∀ y, Needed slots.length {t | t ∈ xs} y →
      V (nodePos (treeRows slots.length) y) ≠ empty)
    (hroots : ∀ r ∈ touchedRows slots.length xs,
      V (nodePos (treeRows slots.length) (Node.rootAt slots.length r)) =
        hashOpt (rootTree slots r)) {x : Node} (hx : x ∈ xs) :
    placed slots x = some (.leaf (V (nodePos (treeRows slots.length) x))) := by
  have hi := idealHash_not_parent hinj hne
  have hword : slots.length < 2 ^ 64 := Nat.lt_of_le_of_lt hplain.counted (by decide)
  obtain ⟨j, hj⟩ := (hforest x hx).exists_root
  have hrootAt := (Node.isRoot_iff_rootAt.mp hj).2
  have hmem : x.row + j ∈ touchedRows slots.length xs :=
    mem_touchedRows.mpr ⟨mem_rootRows_of_isRoot hword hj, x, hx, j, hrootAt⟩
  obtain ⟨S, p, hS, hp, -, hpath⟩ := hV.root_path hinj hne hplain hleaf hx hj
    (hrootAt ▸ hroots _ hmem)
  rw [placed_eq hword hj, hS, Option.bind_some, ← hp]
  congr 1
  refine (hpath fun i hij => ?_).symm
  have hup : (x.up i).parent.InForest slots.length := by
    obtain ⟨d, rfl⟩ := Nat.exists_eq_add_of_lt hij
    rw [← Node.up_succ]
    refine Node.inForest_of_up (j := d) ?_
    rw [← Node.up_add, show i + 1 + d = i + d + 1 by omega]
    exact hj.inForest
  exact hV.sibling_ne_empty hi (fun t ht => (hleaf t ht).1) hneeded
    ⟨Node.inForest_of_parent hup, x, hx, i, rfl⟩ (Node.not_isRoot_of_parent hup)

variable (hplaced : ∀ x ∈ xs,
  placed slots x = some (.leaf (V (nodePos (treeRows slots.length) x))))
include hplaced

/-- The root above a leaf at its target is found at its own index. -/
theorem Hashing.index_eq {r i : Nat} (hr : r ∈ touchedRows slots.length xs)
    (he : ((forestTrees slots).map hashOpt)[i]? =
      some (V (nodePos (treeRows slots.length) (Node.rootAt slots.length r)))) :
    i = rootIndex slots.length r := by
  have hword : slots.length < 2 ^ 64 := Nat.lt_of_le_of_lt hplain.counted (by decide)
  obtain ⟨hr, x, hx, j, hj⟩ := mem_touchedRows.mp hr
  have hroot := Node.rootAt_isRoot (mem_rootRows.mp hr).2.2
  obtain ⟨r', hr', rfl, he'⟩ := getElem_forestRoots he
  rw [← hj] at he' hroot
  obtain ⟨S, p, hS, hp, -⟩ := hV.root_path hinj hne hplain hleaf hx hroot he'
  -- The leaf is in the tree of the root above it, and in no other.
  have hrow : x.row + j = r := congrArg Node.row hj
  have hown := hplaced x hx
  rw [placed_eq hword hroot, hrow] at hown
  obtain ⟨S', hS', hp'⟩ := Option.bind_eq_some_iff.mp hown
  by_contra hne'
  have hmem := CTree.mem_leaves_of_subAt hp
  have hmem' := CTree.mem_leaves_of_subAt hp'
  exact rootTree_leaves_disjoint hword hplain.distinct hr' hr (fun h => hne' (by rw [h]))
    (by rw [hS]; exact hmem) (by rw [hS']; exact hmem')

/-- If every leaf is at its target, no hash is passed over. -/
theorem Hashing.needed_ne_empty
    (hroots : ∀ r ∈ touchedRows slots.length xs,
      V (nodePos (treeRows slots.length) (Node.rootAt slots.length r)) =
        hashOpt (rootTree slots r)) {y : Node} (hy : Needed slots.length {t | t ∈ xs} y) :
    V (nodePos (treeRows slots.length) y) ≠ empty := by
  have hword : slots.length < 2 ^ 64 := Nat.lt_of_le_of_lt hplain.counted (by decide)
  obtain ⟨⟨hin, x, hx, i, hi⟩, hnr, -⟩ := hy
  obtain ⟨d, hd⟩ := hin.exists_root
  rw [← hi, ← Node.up_add] at hd
  have hdpos : d ≠ 0 := by
    rintro rfl
    rw [Nat.add_zero, hi] at hd
    exact hnr hd
  have hrootAt := (Node.isRoot_iff_rootAt.mp hd).2
  have hmem := mem_rootRows_of_isRoot hword hd
  obtain ⟨S, p, hS, hp, hfull, -⟩ := hV.root_path hinj hne hplain hleaf hx hd
    (hrootAt ▸ hroots _ (mem_touchedRows.mpr ⟨hmem, x, hx, _, hrootAt⟩))
  have hown := hplaced x hx
  rw [placed_eq hword hd, hS] at hown
  have hnodup := rootTree_leaves_nodup hword hplain.distinct hmem
  rw [hS] at hnodup
  obtain rfl := CTree.path_unique hnodup hp hown
  have hsib := hfull (Node.length_path _ _) i (by omega)
  rwa [hi, Node.sibling_sibling] at hsib

/-- **The hashes that are read are those of the forest.** -/
theorem Hashing.read_eq
    (hneeded : ∀ y, Needed slots.length {t | t ∈ xs} y →
      V (nodePos (treeRows slots.length) y) ≠ empty)
    (hroots : ∀ r ∈ touchedRows slots.length xs,
      V (nodePos (treeRows slots.length) (Node.rootAt slots.length r)) =
        hashOpt (rootTree slots r)) {y : Node} (hy : Needed slots.length {t | t ∈ xs} y) :
    V (nodePos (treeRows slots.length) y) = slotHash slots (nodePos (treeRows slots.length) y) := by
  have hn := hplain.counted
  have hword : slots.length < 2 ^ 64 := Nat.lt_of_le_of_lt hn (by decide)
  -- The targets are the leaves at their positions, so the hashes of the forest are a table too.
  have hset : {t | t ∈ xs} = leafNodes slots (xs.map (nodePos (treeRows slots.length))) := by
    ext x
    constructor
    · exact fun hx => ⟨⟨_, hplaced x hx⟩, List.mem_map_of_mem hx⟩
    · rintro ⟨⟨a, ha⟩, hmem⟩
      obtain ⟨z, hz, he⟩ := List.mem_map.mp hmem
      obtain rfl := nodePos_inj (le_two_pow_treeRows _) (placed_inForest (hplaced z hz))
        (placed_inForest ha) he
      exact hz
  have hslot : Hashing slots.length (treeRows slots.length) (leafNodes slots
      (xs.map (nodePos (treeRows slots.length)))) getNextHash (slotHash slots) :=
    hashing_slotHash hn hne hplain.ne_empty
  have hval : ∀ {z : Node} {u : CTree H}, placed slots z = some u →
      slotHash slots (nodePos (treeRows slots.length) z) ≠ empty := by
    intro z u hz
    rw [slotHash_nodePos hn (placed_inForest hz), hz]
    exact treeHash_ne_empty hne fun a ha => hplain.ne_empty a (placed_leaves_subset hz a ha)
  have hboth := hV.eq_of_roots (idealHash_not_parent hinj hne) (fun t ht => (hleaf t ht).1) hneeded
    (hset ▸ hslot) (fun t ht => hval (hplaced t ht)) (fun z hz => ?_) (fun z hz hr => ?_) hy.1
    hy.2.1
  · have h2 := hboth.2
    rwa [Node.sibling_sibling] at h2
  · obtain ⟨t, ht⟩ := Touched.exists_placed hword (hset ▸ hz.1)
    obtain ⟨S, hS, -⟩ := placed_parent hword (hz.1.1.parent hz.2.1) ht
    rw [Node.sibling_sibling] at hS
    exact hval hS
  · obtain ⟨-, t, ht, habove⟩ := hz
    have he := (Node.isRoot_iff_rootAt.mp hr).2
    have hmem : z.row ∈ rootRows slots.length 0 :=
      mem_rootRows_of_isRoot (x := z) (j := 0) hword (by rwa [Node.up_zero])
    rw [slotHash_nodePos hn hr.inForest, placed_root hword hr,
      ← hroots _ (mem_touchedRows.mpr ⟨hmem, t, ht, he ▸ habove⟩), ← he]

end Binding

section Accepted
variable {H : Type} [DecidableEq H] [HashOps H] [SortAlg] {slots : List (Option H)}
  {delHashes : List H} {proof : Proof H} {idxs : List Nat}
  (hinj : ∀ {a b c d : H}, parentHash a b = parentHash c d → a = c ∧ b = d)
  (hne : ∀ a b : H, parentHash a b ≠ empty) (hplain : PlainLeaves slots)
  (hdels : ∀ h ∈ delHashes, h ≠ empty ∧ ∀ a b : H, parentHash a b ≠ h)
  (hv : verify ⟨(forestTrees slots).map hashOpt, slots.length⟩ delHashes proof = .ok (.ok idxs))
include hinj hne hplain hdels hv

/-- The hashes are at the targets, and the hashes that are read are those of the forest. -/
theorem Proof.WellPlaced.proves (hw : proof.WellPlaced slots.length idxs) :
    List.Forall₂ (LeafAt slots) proof.targets delHashes ∧ ∃ positions computed,
      proofPositions (sortPositions proof.targets) slots.length (treeRows slots.length) =
        .ok (positions, computed) ∧
      proof.proof.take positions.length = positions.map (slotHash slots) := by
  obtain ⟨targets, hashes⟩ := proof
  obtain ⟨⟨xs, rfl, hnodup, hforest, hanti⟩, hfilled, htrees⟩ := hw
  obtain ⟨positions, computed, V, hpos, hneeded, rfl, hread, hV, hdesc, hfound⟩ :=
    verify_values hplain.counted hnodup hforest hanti hv
  have hleaf : ∀ x ∈ xs, _ := fun x hx =>
    hdels _ (List.mem_map_of_mem (List.mem_map_of_mem hx))
  -- The roots that were matched are those above the targets, in the same order.
  have hidxs : idxs = (touchedRows slots.length xs).map (rootIndex slots.length) := by
    have hdesc' := touchedRows_index_pairwise slots.length xs
    refine List.Perm.eq_of_pairwise (fun a b _ _ h1 h2 => absurd h1 (Nat.lt_asymm h2)) hdesc hdesc'
      ((List.perm_ext_iff_of_nodup (hdesc.imp ne_of_gt) (hdesc'.imp ne_of_gt)).mpr fun i => ?_)
    rw [htrees, mem_index_touchedRows hplain.counted hforest]
  have hroots := roots_of_index (hidxs ▸ hfound)
  have hread' : ∀ y, Needed slots.length {t | t ∈ xs} y →
      V (nodePos (treeRows slots.length) y) ≠ empty := by
    intro y hy he
    refine hfilled positions computed hpos ?_
    rw [← hread, ← he]
    exact List.mem_map_of_mem ((hneeded.mem _).mpr ⟨y, hy, rfl⟩)
  have hplaced := fun x hx =>
    hV.placed_leaf hinj hne hplain hleaf hforest hread' hroots (x := x) hx
  refine ⟨?_, positions, computed, hpos, ?_⟩
  · rw [List.map_map, List.forall₂_map_left_iff, List.forall₂_map_right_iff, List.forall₂_same]
    exact fun x hx => ⟨x, hplaced x hx, rfl⟩
  · rw [← hread]
    refine List.map_congr_left fun q hq => ?_
    obtain ⟨y, hy, rfl⟩ := (hneeded.mem q).mp hq
    exact hV.read_eq hinj hne hplain hleaf hplaced hread' hroots hy

theorem wellPlaced_of_leafAt (hb : List.Forall₂ (LeafAt slots) proof.targets delHashes) :
    proof.WellPlaced slots.length idxs := by
  have hword : slots.length < 2 ^ 64 := Nat.lt_of_le_of_lt hplain.counted (by decide)
  have hi := idealHash_not_parent hinj hne
  obtain ⟨-, hd, -⟩ := verify_live hi hword
    (fun h hh => ⟨hplain.ne_empty h hh, hplain.not_parent h hh⟩) hplain.distinct hdels hv
  have hnodup := targets_nodup hplain.counted hb hd
  obtain ⟨targets, hashes⟩ := proof
  obtain ⟨xs, hxs, rfl⟩ := exists_nodes hb
  have hplace : ∀ x ∈ xs, ∃ h, placed slots x = some (.leaf h) := fun x hx =>
    let ⟨h, _, hh⟩ := exists_of_mem_left hxs hx
    ⟨h, hh⟩
  have hforest : ∀ x ∈ xs, x.InForest slots.length := fun x hx =>
    let ⟨_, hh⟩ := hplace x hx
    placed_inForest hh
  have hanti : ∀ x ∈ xs, ∀ y ∈ xs, x.Above y → x = y := by
    intro x hx y hy habove
    obtain ⟨a, ha⟩ := hplace x hx
    obtain ⟨b, hb⟩ := hplace y hy
    by_contra hxy
    exact (placed_leaf_apart hword ha hb hxy).1 habove
  obtain ⟨positions, computed, V, hpos, hneeded, rfl, hread, hV, hdesc, hfound⟩ :=
    verify_values hplain.counted hnodup.of_map hforest hanti hv
  have hleaf : ∀ x ∈ xs, _ := fun x hx =>
    hdels _ (List.mem_map_of_mem (List.mem_map_of_mem hx))
  rw [List.map_map, List.forall₂_map_right_iff, List.forall₂_same] at hxs
  have hindex := fun r hr i => hV.index_eq hinj hne hplain hleaf hxs (r := r) (i := i) hr
  have hidxs : idxs = (touchedRows slots.length xs).map (rootIndex slots.length) := by
    have hall := (List.forall₂_and_left _ _).mpr ⟨fun r hr => hr, hfound.flip⟩
    have heq := hall.flip.imp fun i r h => hindex r h.1 i h.2
    rwa [← List.forall₂_map_right_iff, List.forall₂_eq_eq_eq] at heq
  have hroots := roots_of_index (hidxs ▸ hfound)
  refine ⟨⟨xs, rfl, hnodup.of_map, hforest, hanti⟩, fun positions' computed' hpos' hmem => ?_,
    fun i => ?_⟩
  · cases hpos.symm.trans hpos'
    rw [← hread] at hmem
    obtain ⟨q, hq, he⟩ := List.mem_map.mp hmem
    obtain ⟨y, hy, rfl⟩ := (hneeded.mem q).mp hq
    exact hV.needed_ne_empty hinj hne hplain hleaf hxs hroots hy he
  · rw [hidxs, mem_index_touchedRows hplain.counted hforest]

end Accepted

section Reached
variable {H M : Type} [DecidableEq H] [HashOps H] [DecidableEq M] [MiniHash H M]

omit [DecidableEq H] [DecidableEq M] in
/-- No key has to be told apart if none is asked for. -/
theorem miniOk_false {slots : List (Option H)} (h : PlainLeaves slots) :
    MiniOk (fun _ : M => False) slots :=
  ⟨⟨h.distinct, fun _ _ hQ => hQ.elim⟩, fun _ _ hQ => hQ.elim⟩

end Reached

section Instances
attribute [local instance] SortAlg.stable

/-- Three leaves are added; then the second one is deleted, which moves the first one up. -/
def twoLeft : List (PolBlock FreeHash) :=
  [⟨[⟨.leaf 0, false⟩, ⟨.leaf 1, false⟩, ⟨.leaf 2, false⟩], [], ⟨[], []⟩⟩,
    ⟨[], [.leaf 1], ⟨[1], [.leaf 0]⟩⟩]

theorem twoLeft_honest : HonestRun FreeHash [] twoLeft :=
  ⟨⟨.nil, by decide, FreeHash.leavesFine (by decide) (by decide) (by decide)⟩,
    ⟨.cons ⟨⟨0, 1⟩, by decide, by decide⟩ .nil, by decide,
      FreeHash.leavesFine (by decide) (by decide) (by decide)⟩, trivial⟩

theorem twoLeft_reach :
    ∃ (p : Pollard FreeHash FreeHash) (stack : List (PolBlock FreeHash × List FreeHash))
      (visited : List (List (Option FreeHash))),
      (newAccumulator true).modifyAll twoLeft = .ok (p, .ok ()) ∧ PlainReach p stack visited ∧
      stackSlots stack = [some (.leaf 0), none, some (.leaf 2)] := by
  obtain ⟨hb, hb', -⟩ := twoLeft_honest
  obtain ⟨p, hrun, hp⟩ := represents_newAccumulator.modify FreeHash.ideal.ne_empty hb
  obtain ⟨p', hrun', -⟩ := hp.modify FreeHash.ideal.ne_empty hb'
  obtain ⟨visited, hreach, -⟩ :=
    (FullReach.modify (.modify .new hb (by decide) hrun) hb' (by decide) hrun').plain
  refine ⟨p', _, visited, ?_, hreach, rfl⟩
  simp only [twoLeft, Pollard.modifyAll, hrun, hrun', Exec.ok_bind]

end Instances

end Utreexo
