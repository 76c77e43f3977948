import Utreexo.CalculateSweep
import Utreexo.ManyLeaves
import Utreexo.RootRows

/-! # The collapse of the targets

`collapsed k known x` is the hash of a node when the hashes `known` are given: the given
one, or else the one computed from the children.  `calculate_hashes_collapse` says that
this is what `calculateHashes` computes from the hashes of the targets and those of the
proof.

With more than `2 ^ 63` leaves the positions do not fit into a word; `proofPositions` then
returns only if there is no target but the leaf that is itself a root.
-/
namespace Utreexo
open Merkle

/-! ### Given and computed hashes -/

section Collapsed
variable {H : Type} [DecidableEq H] [HashOps H]

/-- The hash of the node on row `r` with the given offset. -/
def collapsedRow (k : Nat) (known : Nat → Option H) : Nat → Nat → H
  | 0, off => (known (nodePos k ⟨0, off⟩)).getD empty
  | r + 1, off => (known (nodePos k ⟨r + 1, off⟩)).getD
      (combine (collapsedRow k known r (2 * off)) (collapsedRow k known r (2 * off + 1)))

/-- The hash of a node: the one that is known, or else the combination of its children's. -/
def collapsed (k : Nat) (known : Nat → Option H) (x : Node) : H :=
  collapsedRow k known x.row x.off

/-- The hashes of the targets, and those of the positions of the proof. -/
def knownHashes (targets : List Nat) (hashes : List H) (positions : List Nat) (proof : List H)
    (p : Nat) : Option H :=
  ((targets.zip hashes).lookup p).or ((positions.zip proof).lookup p)

theorem collapsed_known {k : Nat} {known : Nat → Option H} {x : Node} {h : H}
    (hx : known (nodePos k x) = some h) : collapsed k known x = h := by
  obtain ⟨row, off⟩ := x
  cases row with
  | zero => simp [collapsed, collapsedRow, hx]
  | succ r => simp [collapsed, collapsedRow, hx]

/-- The hash of a parent that is not known. -/
theorem collapsed_parent {k : Nat} (known : Nat → Option H) {x : Node} (hfit : Fits k x)
    (hx : known (nodePos k x.parent) = none) :
    collapsed k known x.parent =
      getNextHash (nodePos k x) (collapsed k known x) (collapsed k known x.sibling) := by
  have hpar : collapsed k known x.parent =
      combine (collapsed k known x.parent.left) (collapsed k known x.parent.right) := by
    rw [collapsed, Node.parent_row, collapsedRow]
    change Option.getD (known (nodePos k x.parent)) _ = _
    rw [hx]
    rfl
  rw [hpar, getNextHash, isLeftNiece_nodePos hfit]
  by_cases hodd : x.off % 2 = 0
  · rw [Node.parent_left hodd, ← Node.parent_left hodd, Node.left_sibling, Node.parent_left hodd]
    simp [combine, hodd]
  · have hodd' : x.off % 2 = 1 := by omega
    rw [Node.parent_right hodd', ← Node.parent_right hodd', Node.right_sibling,
      Node.parent_right hodd']
    simp only [combine, hodd, decide_false, Bool.false_eq_true, if_false]
    split <;> split <;> simp_all

end Collapsed

section Lookup
variable {α β : Type} [BEq α] [LawfulBEq α] {l : List α} {m : List β}

theorem lookup_zip_eq_none {a : α} (h : a ∉ l) : (l.zip m).lookup a = none := by
  rw [List.lookup_eq_none_iff]
  intro e he
  have hne : a ≠ e.1 := fun ha => h (ha ▸ (List.of_mem_zip he).1)
  simpa using hne

theorem map_lookup_zip (hl : l.Nodup) (hlen : m.length = l.length) :
    l.map (fun a => (l.zip m).lookup a) = m.map some := by
  induction l generalizing m with
  | nil => rw [List.eq_nil_of_length_eq_zero hlen]; rfl
  | cons a l ih =>
    cases m with
    | nil => cases hlen
    | cons b m =>
      obtain ⟨ha, hl⟩ := List.nodup_cons.mp hl
      rw [List.map_cons, List.zip_cons_cons, List.lookup_cons_self, List.map_cons,
        ← ih hl (by simpa using hlen)]
      refine congrArg _ (List.map_congr_left fun c hc => ?_)
      have hne : (c == a) = false := beq_false_of_ne fun he => ha (he ▸ hc)
      rw [List.lookup_cons, hne]

/-- A function that agrees with the table. -/
theorem map_eq_of_lookup (hl : l.Nodup) (hlen : m.length = l.length) {f : α → β}
    (hf : ∀ a ∈ l, ∀ b, (l.zip m).lookup a = some b → f a = b) : l.map f = m := by
  have hmap := map_lookup_zip hl hlen
  have hsome : l.map (fun a => (l.zip m).lookup a) = l.map (fun a => some (f a)) := by
    refine List.map_congr_left fun a ha => ?_
    have hmem : (l.zip m).lookup a ∈ m.map some := hmap ▸ List.mem_map_of_mem ha
    obtain ⟨b, -, hb⟩ := List.mem_map.mp hmem
    rw [hf a ha b hb.symm, hb]
  rw [hmap] at hsome
  have hinj : Function.Injective (List.map (some : β → Option β)) :=
    List.map_injective_iff.mpr (Option.some_injective β)
  refine (hinj ?_).symm
  rw [hsome, List.map_map]
  rfl

end Lookup

/-! ### The touched positions and roots -/

/-- The node at a position. -/
def nodeAt (k p : Nat) : Node := ⟨detectRow p k, p - startPositionAtRow (detectRow p k) k⟩

theorem nodeAt_nodePos {k : Nat} (hk : k ≤ 63) {x : Node} (hx : Fits k x) :
    nodeAt k (nodePos k x) = x := by
  rw [nodeAt, detectRow_nodePos hk hx, startPositionAtRow_eq hk hx.1, nodePos_sub_start]

theorem nodeAt_wide (p : Nat) : nodeAt 64 p = ⟨0, p⟩ := by
  have hrow : detectRow p 64 = 0 := by
    rw [detectRow, shl64_eq_zero (Nat.le_refl _), detectRowLoop, if_neg]
    simp
  rw [nodeAt, hrow, show startPositionAtRow 0 64 = 0 from by decide, Nat.sub_zero]

/-- The rows of the roots above a target, lowest first, give the positions of the touched
roots in order. -/
theorem listing_touched_roots {n k : Nat} (hn : n ≤ 2 ^ k) (hword : n < 2 ^ 64) {T : Set Node}
    (P : Nat → Prop) [DecidablePred P] (hP : ∀ r, P r ↔ ∃ t ∈ T, (Node.rootAt n r).Above t) :
    Listing (((rootRows n 0).reverse.filter P).map fun r => nodePos k (Node.rootAt n r))
      (nodePos k '' {x | Touched n T x ∧ x.IsRoot n}) := by
  have hroot : ∀ {r}, r ∈ rootRows n 0 → (Node.rootAt n r).IsRoot n :=
    fun hr => Node.rootAt_isRoot (mem_rootRows.mp hr).2.2
  refine ⟨?_, fun p => ?_⟩
  · rw [List.pairwise_map]
    have hpair := (List.pairwise_reverse.mpr (rootRows_pairwise n 0)).filter fun r => decide (P r)
    refine hpair.imp_of_mem fun {a b} ha hb hlt => ?_
    have ha' := hroot (List.mem_reverse.mp (List.mem_filter.mp ha).1)
    have hb' := hroot (List.mem_reverse.mp (List.mem_filter.mp hb).1)
    exact (nodePos_lt_iff hn ha'.inForest hb'.inForest).mpr (Or.inl hlt)
  · rw [List.mem_map]
    constructor
    · rintro ⟨r, hr, rfl⟩
      rw [List.mem_filter, List.mem_reverse, decide_eq_true_iff, hP] at hr
      exact ⟨_, ⟨⟨(hroot hr.1).inForest, hr.2⟩, hroot hr.1⟩, rfl⟩
    · rintro ⟨x, ⟨⟨hx, t, ht, ha⟩, hr⟩, rfl⟩
      obtain ⟨hbit, he⟩ := Node.isRoot_iff_rootAt.mp hr
      have hrow : x.row < 64 := by
        by_contra hge
        have := Nat.ge_two_pow_of_testBit hbit
        have : 2 ^ 64 ≤ 2 ^ x.row := Nat.pow_le_pow_right (by omega) (by omega)
        omega
      refine ⟨x.row, ?_, by rw [← he]⟩
      rw [List.mem_filter, List.mem_reverse, decide_eq_true_iff, hP, ← he]
      exact ⟨mem_rootRows.mpr ⟨Nat.zero_le _, hrow, hbit⟩, t, ht, ha⟩

/-! ### Up to `2 ^ 63` leaves -/

section Tables
variable {H : Type} [DecidableEq H] [HashOps H] [SortAlg] {n : Nat} {xs : List Node}
  {hashes proof : List H} {positions computed : List Nat} {delHashes : Option (List H)}

/-- The hash of a position, from the hashes of the targets and of the proof. -/
def collapsedAt (k : Nat) (targets : List Nat) (hashes : List H) (positions : List Nat)
    (proof : List H) (p : Nat) : H :=
  collapsed k (knownHashes targets hashes positions proof) (nodeAt k p)

omit [SortAlg] in
/-- The hashes that `collapsedAt` computes: those of the targets, those of the proof, and above
the targets the combination of two children. -/
theorem collapsedAt_hashing (hn : n ≤ 2 ^ 63) (hforest : ∀ x ∈ xs, x.InForest n)
    (hnodup : xs.Nodup) (hanti : ∀ x ∈ xs, ∀ y ∈ xs, x.Above y → x = y)
    (hlen : hashes.length = xs.length)
    (hpos : proofPositions (sortPositions (xs.map (nodePos (treeRows n)))) n (treeRows n) =
      .ok (positions, computed))
    (hproof : proof.length = positions.length) :
    let targets := xs.map (nodePos (treeRows n))
    let V := collapsedAt (treeRows n) targets hashes positions proof
    Listing positions (nodePos (treeRows n) '' {x | Needed n {t | t ∈ xs} x}) ∧
      targets.map V = hashes ∧ positions.map V = proof ∧
      Hashing n (treeRows n) {t | t ∈ xs} getNextHash V := by
  intro targets V
  have hk := treeRows_le hn
  have hn' := le_two_pow_treeRows n
  have hA : IsAntichain Node.Above {t | t ∈ xs} :=
    fun x hx y hy hne h => hne (hanti x hx y hy h)
  have hnodup' : targets.Nodup :=
    hnodup.map_on fun x hx y hy => nodePos_inj hn' (hforest x hx) (hforest y hy)
  have hmem : ∀ p, p ∈ targets ↔ p ∈ nodePos (treeRows n) '' {t | t ∈ xs} := fun p => List.mem_map
  obtain ⟨positions', computed', hpos', hneeded, -⟩ := proofPositions_sweep (T := {t | t ∈ xs})
    hk hn' hforest hA ((sort_listing hnodup').congr hmem)
  rw [hpos] at hpos'
  cases hpos'
  have hnode : ∀ {x : Node}, x.InForest n → nodeAt (treeRows n) (nodePos (treeRows n) x) = x :=
    fun hx => nodeAt_nodePos hk (fits_of_inForest hn' hx)
  -- A needed position is not that of a target.
  have hapart : ∀ p ∈ positions, p ∉ targets := by
    intro p hp hp'
    obtain ⟨y, hy, rfl⟩ := (hneeded.mem p).mp hp
    obtain ⟨t, ht, he⟩ := (hmem _).mp hp'
    obtain rfl := nodePos_inj hn' (hforest t ht) (Needed.inForest hy) he
    exact hy.2.2 (.of_mem hforest ht)
  have hVknown : ∀ {p b}, p ∈ nodePos (treeRows n) '' {x | x.InForest n} →
      knownHashes targets hashes positions proof p = some b → V p = b := by
    rintro p b ⟨x, hx, rfl⟩ hb
    refine collapsed_known ?_
    rwa [hnode hx]
  refine ⟨hneeded, ?_, ?_, ?_⟩
  · refine map_eq_of_lookup hnodup' (by rwa [List.length_map]) fun p hp b hb => hVknown ?_ ?_
    · obtain ⟨t, ht, rfl⟩ := (hmem p).mp hp
      exact ⟨t, hforest t ht, rfl⟩
    · rw [knownHashes, hb]
      rfl
  · refine map_eq_of_lookup hneeded.nodup hproof fun p hp b hb => hVknown ?_ ?_
    · obtain ⟨y, hy, rfl⟩ := (hneeded.mem p).mp hp
      exact ⟨y, Needed.inForest hy, rfl⟩
    · rw [knownHashes, lookup_zip_eq_none (hapart p hp), hb]
      rfl
  · intro x hx hr
    have hpar := hx.1.parent hr
    have hcomp := hx.computed_parent hr
    change collapsed _ _ _ = getNextHash _ (collapsed _ _ _) (collapsed _ _ _)
    rw [hnode hpar, hnode hx.1, hnode (hx.1.sibling hr)]
    refine collapsed_parent _ (fits_of_inForest hn' hx.1) ?_
    rw [knownHashes, lookup_zip_eq_none, lookup_zip_eq_none]
    · rfl
    · intro hp
      obtain ⟨y, hy, he⟩ := (hneeded.mem _).mp hp
      obtain rfl := nodePos_inj hn' (Needed.inForest hy) hpar he
      exact hy.2.2 hcomp.touched
    · intro hp
      obtain ⟨t, ht, he⟩ := (hmem _).mp hp
      obtain rfl := nodePos_inj hn' (hforest t ht) hpar he
      exact hcomp.not_mem hA ht

/-- The result of `calculateHashes`, as lists of touched positions.  The position of a
touched node leads back to the node. -/
def CollapseResult (n : Nat) (xs : List Node) (delHashes : Option (List H))
    (positions : List Nat) (proof : List H) : Prop :=
  let targets := xs.map (nodePos (treeRows n))
  let V := collapsedAt (treeRows n) targets
    (delHashes.getD (List.replicate targets.length empty)) positions proof
  (∀ y, Touched n {t | t ∈ xs} y → nodeAt (treeRows n) (nodePos (treeRows n) y) = y) ∧
  ∃ touched roots, Listing touched (nodePos (treeRows n) '' {x | Touched n {t | t ∈ xs} x}) ∧
    Listing roots (nodePos (treeRows n) '' {x | Touched n {t | t ∈ xs} x ∧ x.IsRoot n}) ∧
    calculateHashes n delHashes ⟨targets, proof⟩ = .ok (touched.map (withHash V), roots.map V)

theorem calculateHashes_narrow (hn : n ≤ 2 ^ 63) (hforest : ∀ x ∈ xs, x.InForest n)
    (hnodup : xs.Nodup) (hanti : ∀ x ∈ xs, ∀ y ∈ xs, x.Above y → x = y)
    (hlen : (delHashes.getD (List.replicate xs.length empty)).length = xs.length)
    (hpos : proofPositions (sortPositions (xs.map (nodePos (treeRows n)))) n (treeRows n) =
      .ok (positions, computed))
    (hproof : proof.length = positions.length) :
    CollapseResult n xs delHashes positions proof := by
  have hn' := le_two_pow_treeRows n
  unfold CollapseResult
  intro targets V
  have hlen' : (delHashes.getD (List.replicate targets.length empty)).length = xs.length := by
    simpa [targets] using hlen
  obtain ⟨hneeded, hVt, hVp, hV⟩ :=
    collapsedAt_hashing hn hforest hnodup hanti hlen' hpos hproof
  obtain ⟨touched, roots, ht, hr, hcalc⟩ := calculateHashes_sweep hn hforest
    (fun x hx y hy hne h => hne (hanti x hx y hy h)) hV
    (hnodup.map_on fun x hx y hy => nodePos_inj hn' (hforest x hx) (hforest y hy))
    (fun p => List.mem_map) hneeded hVt.symm []
  rw [List.append_nil, hVp] at hcalc
  exact ⟨fun y hy => nodeAt_nodePos (treeRows_le hn) (fits_of_inForest hn' hy.1), touched, roots,
    ht, hr, hcalc⟩

end Tables

/-! ### More than `2 ^ 63` leaves -/

section Wide
variable {n : Nat} (hlo : 2 ^ 63 < n) (hhi : n < 2 ^ 64)

theorem possibleRowLoop_wide {p fuel row : Nat} (hp : p < 2 ^ 64)
    (h : possibleRowLoop p 64 fuel 0 = .ok row) : row = 0 := by
  cases fuel with
  | zero => cases h
  | succ fuel =>
    rw [possibleRowLoop, if_neg] at h
    · cases h
      rfl
    · rw [show maxPossiblePosAtRow 0 64 = 2 ^ 64 - 1 from by decide]
      omega

include hlo hhi

/-- Row 0 has one root at most, the last leaf. -/
theorem isRootPositionOnRow_low {q : Nat} (hq : q < 2 ^ 63) : isRootPositionOnRow q n 0 = false :=
  (WideRow.low hlo hhi (Or.inl rfl) hq).2

/-- A position that is not a root is followed by its half for ever. -/
theorem posLoop_wide {fuel : Nat} {ps fin : PosState} (hrow : ps.row = 0)
    (hlt : ∀ p ∈ ps.pending, p < 2 ^ 64)
    (hq : ∃ q ∈ ps.pending, isRootPositionOnRow q n 0 = false) :
    posLoop n 64 fuel ps ≠ .ok fin := by
  induction fuel generalizing ps with
  | zero => exact fun h => by cases h
  | succ fuel ih =>
    intro h
    rw [posLoop] at h
    obtain ⟨r, hr, h⟩ := Exec.bind_eq_ok.mp h
    obtain ⟨q, hq, hqr⟩ := hq
    cases hnext : getNextPos ps.targets ps.queue with
    | none =>
      obtain ⟨h1, h2⟩ := getNextPos_none hnext
      rw [PosState.pending, h1, h2] at hq
      cases hq
    | some t =>
      obtain ⟨p, idx, sib⟩ := t
      obtain ⟨⟨rest, hs⟩, -, -, -⟩ := getNextPos_some hnext
      have hp : p ∈ ps.pending :=
        PosState.mem_slice (i := idx) (by rw [hs]; exact List.mem_cons_self)
      cases hrl : possibleRowLoop p 64 fuel ps.row with
      | error e =>
        have hrl' : possibleRowLoop p 64 fuel (ps.drop idx).row = .error e := by
          cases idx <;> exact hrl
        unfold posStep at hr
        rw [if_neg (by omega), hnext] at hr
        simp only [hrl', Exec.error_bind] at hr
        cases hr
      | ok row =>
        have hrow0 := possibleRowLoop_wide (hlt p hp) (hrow ▸ hrl)
        subst hrow0
        have hroot : isRootPositionOnRowTotalRows p n 0 64 = isRootPositionOnRow p n 0 := by
          rw [isRootPositionOnRowTotalRows, treeRows_wide hlo hhi, if_neg (by simp)]
        rcases posStep_round (n := n) (by omega) hnext hrl with
          ⟨hgt, -⟩ | ⟨-, hpr, hst⟩ | ⟨-, hpr, hst⟩
        · omega
        · rw [hst] at hr
          cases hr
          refine ih rfl (fun p' hp' => ?_) ⟨q, ?_, hqr⟩ h
          · exact hlt p' ((PosState.sub_drop ps idx).pending p' hp')
          · rcases (PosState.mem_pending_of_slice hs q).mp hq with rfl | hq
            · rw [← hroot, hpr] at hqr
              cases hqr
            · exact hq
        · rw [hst] at hr
          cases hr
          have hhalf : parent p 64 < 2 ^ 63 := by
            have := hlt p hp
            rw [parent_wide]
            omega
          refine ih rfl (fun p' hp' => ?_)
            ⟨parent p 64, ?_, isRootPositionOnRow_low hlo hhi hhalf⟩ h
          · rcases PosState.mem_pending_push hp' with hp' | rfl
            · exact hlt p' ((PosState.sub_after ps idx sib).pending p' hp')
            · omega
          · simp [PosState.pending, PosState.push]

/-- `proofPositions` returns only if there is no target but the root on row 0. -/
theorem proofPositions_wide {targets positions computed : List Nat}
    (hlt : ∀ p ∈ targets, p < 2 ^ 64)
    (hpos : proofPositions targets n 64 = .ok (positions, computed)) :
    ∀ p ∈ targets, isRootPositionOnRow p n 0 = true := by
  intro p hp
  by_contra hno
  rw [Bool.not_eq_true] at hno
  rw [proofPositions] at hpos
  obtain ⟨fin, hfin, -⟩ := Exec.bind_eq_ok.mp hpos
  exact posLoop_wide hlo hhi (show PosState.row ⟨0, targets, [], [], []⟩ = 0 from rfl)
    (fun q hq => hlt q (by simpa [PosState.pending] using hq))
    ⟨p, by simpa [PosState.pending] using hp, hno⟩ hfin

theorem proofPositions_wide_root {t : Nat} (ht : isRootPositionOnRow t n 0 = true) :
    proofPositions [t] n 64 = .ok ([], []) := by
  have hlt : t < 2 ^ 64 := by
    have := root_wide_zero hlo hhi ht
    omega
  have hrl : ∀ fuel, possibleRowLoop t 64 (fuel + 1) 0 = .ok 0 := by
    intro fuel
    rw [possibleRowLoop, if_neg]
    rw [show maxPossiblePosAtRow 0 64 = 2 ^ 64 - 1 from by decide]
    omega
  have hroot : isRootPositionOnRowTotalRows t n 0 64 = true := by
    rw [isRootPositionOnRowTotalRows, treeRows_wide hlo hhi, if_neg (by simp), ht]
  have hstep : ∀ fuel, posStep n 64 (fuel + 1) ⟨0, [t], [], [], []⟩ =
      .ok (some ⟨0, [], [], [], []⟩) := by
    intro fuel
    rcases posStep_round (n := n) (show PosState.row ⟨0, [t], [], [], []⟩ ≤ 64 from Nat.zero_le _)
      (show getNextPos [t] [] = some (t, .slice1, none) from rfl) (hrl fuel) with
      ⟨h, -⟩ | ⟨-, -, h⟩ | ⟨-, h, -⟩
    · omega
    · exact h
    · rw [hroot] at h
      cases h
  rw [proofPositions, show ([t].length + 1) * (64 + 2) + 257 = 386 + 1 + 1 + 1 from rfl, posLoop,
    hstep, Exec.ok_bind]
  rfl

/-- Nothing is needed then. -/
theorem proofPositions_wide_roots {targets : List Nat} (hnodup : targets.Nodup)
    (hroots : ∀ t ∈ targets, isRootPositionOnRow t n 0 = true) :
    proofPositions targets n 64 = .ok ([], []) := by
  rcases targets with _ | ⟨t, _ | ⟨u, targets⟩⟩
  · rfl
  · exact proofPositions_wide_root hlo hhi (hroots t List.mem_cons_self)
  · have ht := root_wide_zero hlo hhi (hroots t (by simp))
    have hu := root_wide_zero hlo hhi (hroots u (by simp))
    rw [ht, hu] at hnodup
    simp at hnodup

/-- The leaf that is a root on row 0. -/
theorem eq_last_leaf {x : Node} (hword : nodePos 64 x < 2 ^ 64)
    (hroot : isRootPositionOnRow (nodePos 64 x) n 0 = true) : x = ⟨0, n - 1⟩ ∧ x.IsRoot n := by
  have hlast := root_wide_zero hlo hhi hroot
  have hrow : x.row = 0 := by
    by_contra hne
    have : 2 ^ (64 + 1 - x.row) ≤ 2 ^ 64 := Nat.pow_le_pow_right (by omega) (by omega)
    rw [nodePos] at hword
    omega
  have hoff : x.off = n - 1 := by
    rw [nodePos, hrow] at hlast
    omega
  have hodd : n % 2 = 1 := by
    rw [isRootPositionOnRow, shl64_and_ne_zero hhi, Bool.and_eq_true,
      Nat.testBit_eq_decide_div_mod_eq, decide_eq_true_iff, Nat.pow_zero, Nat.div_one] at hroot
    exact hroot.1
  refine ⟨Node.ext hrow hoff, ?_⟩
  unfold Node.IsRoot
  rw [hrow, hoff, Nat.pow_zero, Nat.div_one]
  omega

variable {H : Type} [DecidableEq H] [HashOps H] [SortAlg]

theorem calculateHashes_wide_root {t : Nat} (ht : isRootPositionOnRow t n 0 = true)
    {delHashes : Option (List H)} {h : H}
    (hdel : delHashes.getD (List.replicate 1 empty) = [h]) :
    calculateHashes n delHashes ⟨[t], []⟩ = .ok ([(t, h)], [h]) := by
  have ht0 := root_wide_zero hlo hhi ht
  have hsort : toHashAndPos [t] [h] = [(t, h)] :=
    toHashAndPos_withHash (fun _ => h) (List.nodup_singleton t)
  have hrl : ∀ fuel, rowLoop t 64 n (fuel + 1) 0 = .ok 0 := by
    intro fuel
    rw [rowLoop, if_neg]
    rw [maxPos_wide_zero]
    omega
  have hstep : ∀ fuel, calcStep getNextHash n 64 (fuel + 1) (CalcState.start [(t, h)] []) =
      .ok (some ⟨0, [], [], [], [h], []⟩) := by
    intro fuel
    rw [calcStep, if_neg (by simp [CalcState.start])]
    simp only [CalcState.start, List.map_cons, List.map_nil,
      show getNextPos [t] [] = some (t, .slice1, none) from rfl, CalcState.take, Exec.ok_bind, hrl,
      ht, if_true]
    rfl
  have hend : ∀ fuel, calcStep getNextHash n 64 fuel (⟨0, [], [], [], [h], []⟩ : CalcState H) =
      .ok none := by
    intro fuel
    rw [calcStep, if_neg (by simp)]
    rfl
  have hloop : calcLoop getNextHash n 64 (256 + 1 + 1) (CalcState.start [(t, h)] []) =
      .ok ⟨0, [], [], [], [h], []⟩ := by
    rw [calcLoop_of_some (hstep 256), calcLoop_of_none (hend 256)]
  simp only [calculateHashes, treeRows_wide hlo hhi, List.length_cons, List.length_nil,
    Nat.zero_add, hdel, hsort, show calcFuel (⟨[t], []⟩ : Proof H) = 256 + 1 + 1 from rfl,
    hloop, Exec.ok_bind]
  rfl

variable {xs : List Node} {positions computed : List Nat} {proof : List H}
  {delHashes : Option (List H)}

theorem calculateHashes_wide (hword : ∀ x ∈ xs, nodePos (treeRows n) x < 2 ^ 64)
    (hnodup : xs.Nodup)
    (hlen : (delHashes.getD (List.replicate xs.length empty)).length = xs.length)
    (hpos : proofPositions (sortPositions (xs.map (nodePos (treeRows n)))) n (treeRows n) =
      .ok (positions, computed))
    (hproof : proof.length = positions.length) :
    CollapseResult n xs delHashes positions proof := by
  unfold CollapseResult
  rw [treeRows_wide hlo hhi] at hword hpos ⊢
  intro targets V
  have hroots : ∀ x ∈ xs, isRootPositionOnRow (nodePos 64 x) n 0 = true := by
    intro x hx
    have hmem : ∀ p, p ∈ sortPositions targets ↔ p ∈ targets :=
      fun p => (sortPositions_perm targets).mem_iff
    refine proofPositions_wide hlo hhi (fun p hp => ?_) hpos _
      ((hmem _).mpr (List.mem_map_of_mem hx))
    obtain ⟨y, hy, rfl⟩ := List.mem_map.mp ((hmem p).mp hp)
    exact hword y hy
  rcases xs with _ | ⟨x, _ | ⟨y, xs⟩⟩
  · have hnone : ∀ p, p ∉ nodePos 64 '' {x | Touched n {t | t ∈ ([] : List Node)} x} := by
      rintro p ⟨y, ⟨-, t, ht, -⟩, -⟩
      exact absurd ht List.not_mem_nil
    refine ⟨fun y hy => absurd ⟨y, hy, rfl⟩ (hnone _), [], [], .of_empty hnone, .of_empty ?_, ?_⟩
    · rintro p ⟨y, hy, he⟩
      exact hnone p ⟨y, hy.1, he⟩
    · exact calculateHashes_nil rfl (List.eq_nil_of_length_eq_zero hlen)
  · have hroot := hroots x List.mem_cons_self
    obtain ⟨hx, hxr⟩ := eq_last_leaf hlo hhi (hword x List.mem_cons_self) hroot
    obtain ⟨h, hh⟩ : ∃ h, delHashes.getD (List.replicate 1 empty) = [h] :=
      List.length_eq_one_iff.mp hlen
    have hempty : positions = [] ∧ proof = [] := by
      rw [show sortPositions (List.map (nodePos 64) [x]) = [nodePos 64 x] from rfl,
        proofPositions_wide_root hlo hhi hroot] at hpos
      cases hpos
      exact ⟨rfl, List.eq_nil_of_length_eq_zero hproof⟩
    obtain ⟨rfl, rfl⟩ := hempty
    have hV : V (nodePos 64 x) = h := by
      refine collapsed_known ?_
      have hpos0 : nodePos 64 ⟨0, nodePos 64 x⟩ = nodePos 64 x := by simp [nodePos]
      rw [nodeAt_wide, hpos0, knownHashes, List.length_map, List.length_singleton, hh]
      simp [targets]
    have htouched : ∀ y, Touched n {t | t ∈ [x]} y ↔ y = x := by
      intro y
      have hset : {t | t ∈ [x]} = ({x} : Set Node) := by
        ext t
        simp
      rw [hset, touched_singleton (j := 0) (by rwa [Node.up_zero])]
      simp [Node.up_zero]
    refine ⟨fun y hy => ?_, [nodePos 64 x], [nodePos 64 x],
      ⟨List.pairwise_singleton _ _, fun p => ?_⟩, ⟨List.pairwise_singleton _ _, fun p => ?_⟩, ?_⟩
    · rw [(htouched y).mp hy, nodeAt_wide, hx]
      simp [nodePos]
    · rw [List.mem_singleton]
      constructor
      · rintro rfl
        exact ⟨x, (htouched x).mpr rfl, rfl⟩
      · rintro ⟨y, hy, rfl⟩
        rw [(htouched y).mp hy]
    · rw [List.mem_singleton]
      constructor
      · rintro rfl
        exact ⟨x, ⟨(htouched x).mpr rfl, hxr⟩, rfl⟩
      · rintro ⟨y, hy, rfl⟩
        rw [(htouched y).mp hy.1]
    · rw [List.map_singleton, List.map_singleton, withHash, hV]
      exact calculateHashes_wide_root hlo hhi hroot hh
  · have hx := (eq_last_leaf hlo hhi (hword x (by simp)) (hroots x (by simp))).1
    have hy := (eq_last_leaf hlo hhi (hword y (by simp)) (hroots y (by simp))).1
    rw [hx, hy] at hnodup
    simp at hnodup

end Wide

/-! ### The result -/

/-- **`calculateHashes` computes the collapse of the targets**, from as many hashes as
`proofPositions` names.  The targets are the positions of nodes `xs` of the forest that
fit into a word; without `delHashes` their hashes are empty. -/
theorem calculate_hashes_collapse {H : Type} [DecidableEq H] [HashOps H] [SortAlg] {n : Nat}
    (hn : n < 2 ^ 64) {xs : List Node} (hforest : ∀ x ∈ xs, x.InForest n)
    (hword : ∀ x ∈ xs, nodePos (treeRows n) x < 2 ^ 64) (hnodup : xs.Nodup)
    (hanti : ∀ x ∈ xs, ∀ y ∈ xs, x.Above y → x = y) (delHashes : Option (List H))
    (hlen : (delHashes.getD (List.replicate xs.length empty)).length = xs.length) :
    (n ≤ 2 ^ 63 → ∃ positions computed, proofPositions
      (sortPositions (xs.map (nodePos (treeRows n)))) n (treeRows n) = .ok (positions, computed)) ∧
    ∀ positions computed (proof : List H), proofPositions
        (sortPositions (xs.map (nodePos (treeRows n)))) n (treeRows n) =
          .ok (positions, computed) → proof.length = positions.length →
      ∃ hashes roots, calculateHashes n delHashes ⟨xs.map (nodePos (treeRows n)), proof⟩ =
          .ok (hashes, roots) ∧
        (hashes.map Prod.fst).Pairwise (· < ·) ∧
        (∀ e, e ∈ hashes ↔ ∃ y, y.InForest n ∧ (∃ t ∈ xs, y.Above t) ∧
          e = (nodePos (treeRows n) y, collapsed (treeRows n)
            (knownHashes (xs.map (nodePos (treeRows n)))
              (delHashes.getD (List.replicate xs.length empty)) positions proof) y)) ∧
        roots = ((rootRows n 0).reverse.filter fun r =>
            ∃ t ∈ xs, (Node.rootAt n r).Above t).map fun r => collapsed (treeRows n)
          (knownHashes (xs.map (nodePos (treeRows n)))
            (delHashes.getD (List.replicate xs.length empty)) positions proof)
          (Node.rootAt n r) := by
  have hn' := le_two_pow_treeRows n
  refine ⟨fun hnarrow => ?_, fun positions computed proof hpos hproof => ?_⟩
  · obtain ⟨fin, -, h⟩ := proofPositions_returns hnarrow
      (sortPositions_sorted (xs.map (nodePos (treeRows n))))
    exact ⟨_, _, h⟩
  have hresult : CollapseResult n xs delHashes positions proof := by
    rcases Nat.lt_or_ge (2 ^ 63) n with hlo | hnarrow
    · exact calculateHashes_wide hlo hn hword hnodup hlen hpos hproof
    · exact calculateHashes_narrow hnarrow hforest hnodup hanti hlen hpos hproof
  obtain ⟨hnode, touched, roots, htouched, hroots, hcalc⟩ := hresult
  rw [List.length_map] at hcalc
  refine ⟨_, _, hcalc, ?_, fun e => ?_, ?_⟩
  · rw [map_withHash_fst]
    exact htouched.sorted
  · rw [List.mem_map]
    constructor
    · rintro ⟨p, hp, rfl⟩
      obtain ⟨y, hy, rfl⟩ := (htouched.mem p).mp hp
      refine ⟨y, hy.1, hy.2, ?_⟩
      rw [withHash, collapsedAt, hnode y hy]
    · rintro ⟨y, hy, ht, rfl⟩
      refine ⟨_, (htouched.mem _).mpr ⟨y, ⟨hy, ht⟩, rfl⟩, ?_⟩
      rw [withHash, collapsedAt, hnode y ⟨hy, ht⟩]
  · have hlist := listing_touched_roots hn' hn (T := {t | t ∈ xs})
      (fun r => ∃ t ∈ xs, (Node.rootAt n r).Above t) fun r => Iff.rfl
    rw [hroots.unique hlist, List.map_map]
    refine List.map_congr_left fun r hr => ?_
    rw [List.mem_filter, List.mem_reverse, decide_eq_true_iff] at hr
    have hroot := Node.rootAt_isRoot (mem_rootRows.mp hr.1).2.2
    rw [Function.comp_apply, collapsedAt, hnode _ ⟨hroot.inForest, hr.2⟩]

section
attribute [local instance] SortAlg.stable

/-- Deleting the first of three leaves, and the root that is the third. -/
theorem calculate_hashes_collapse_three :
    ∃ hashes roots, calculateHashes 3 none (⟨[2, 0], [.leaf 1]⟩ : Proof FreeHash) =
        .ok (hashes, roots) ∧ roots = [.empty, .leaf 1] ∧
      (hashes.map Prod.fst).Pairwise (· < ·) := by
  have hall := @calculate_hashes_collapse FreeHash _ _ _ 3 (by decide) [⟨0, 2⟩, ⟨0, 0⟩] (by decide)
    (by decide) (by decide) (by decide) none (by decide)
  obtain ⟨hashes, roots, hrun, hasc, -⟩ := hall.2 [1] [4] [.leaf 1] (by decide) rfl
  have hval : calculateHashes 3 none (⟨[2, 0], [.leaf 1]⟩ : Proof FreeHash) =
      .ok ([(0, .empty), (2, .empty), (4, .leaf 1)], [.empty, .leaf 1]) := by decide
  have hrun' : calculateHashes 3 none (⟨[2, 0], [.leaf 1]⟩ : Proof FreeHash) =
      .ok (hashes, roots) := hrun
  rw [hval] at hrun'
  cases hrun'
  exact ⟨_, _, hval, rfl, hasc⟩

end

end Utreexo
