import Utreexo.ProofUnion

/-! # Extracting a part of a proof

What a subset of the targets needs is computed for all targets or needed for them
(`needed_subset`), so that `GetProofSubset` finds every hash it looks for.  The hashes of
the targets themselves are another matter: `GetProofSubset` sorts a copy of the targets and
pairs it with the hashes, which are still in the order of the caller.  A wanted position
gets its own hash exactly if it has the same index in both orders (`subset_sound_iff`).
-/
namespace Merkle

theorem needed_subset {n : Nat} {T W : Set Node} (hW : W ⊆ T) :
    {x | Needed n W x} ⊆ {x | Touched n T x} ∪ {x | Needed n T x} := by
  rintro x ⟨⟨hs, t, ht, ha⟩, hr, -⟩
  by_cases hx : Touched n T x
  · exact Or.inl hx
  · exact Or.inr ⟨⟨hs, t, hW ht, ha⟩, hr, hx⟩

end Merkle

namespace Utreexo
open Merkle

/-! ### The hashes in another order -/

section
variable {H : Type} [HashOps H]

/-- The hash that has the index of a position. -/
def hashAtIndex (targets : List Nat) (hashes : List H) (p : Nat) : H :=
  hashes.getD (targets.idxOf p) empty

theorem map_hashAtIndex {targets : List Nat} (hd : targets.Nodup) {hashes : List H}
    (hlen : targets.length = hashes.length) :
    targets.map (hashAtIndex targets hashes) = hashes := by
  refine List.ext_getElem (by rw [List.length_map, hlen]) fun i hi hi' => ?_
  rw [List.length_map] at hi
  rw [List.getElem_map, hashAtIndex, hd.idxOf_getElem i hi, List.getD_eq_getElem _ _ hi']

/-- Different indexes have different hashes. -/
theorem hashAtIndex_inj {l l' : List Nat} {hashes : List H} (hd : hashes.Nodup)
    (hlen : l.length = hashes.length) (hlen' : l'.length = hashes.length) {p : Nat} (hp : p ∈ l)
    (hp' : p ∈ l') : hashAtIndex l hashes p = hashAtIndex l' hashes p ↔ l.idxOf p = l'.idxOf p := by
  have hi : l.idxOf p < hashes.length := hlen ▸ List.idxOf_lt_length_of_mem hp
  have hi' : l'.idxOf p < hashes.length := hlen' ▸ List.idxOf_lt_length_of_mem hp'
  rw [hashAtIndex, hashAtIndex, List.getD_eq_getElem _ _ hi, List.getD_eq_getElem _ _ hi',
    hd.getElem_inj_iff]

omit [HashOps H] in
theorem find?_withHash (V : Nat → H) {l : List Nat} {w : Nat} (h : w ∈ l) :
    (l.map (withHash V)).find? (fun e => e.1 = w) = some (withHash V w) := by
  induction l with
  | nil => cases h
  | cons p l ih =>
    rw [List.map_cons, List.find?_cons]
    by_cases hp : p = w
    · subst hp
      simp
    · have hl : w ∈ l := (List.mem_cons.mp h).resolve_left (Ne.symm hp)
      simp [hp, ih hl]

omit [HashOps H] in
/-- The hashes of the wants are read one by one. -/
theorem wantHashes_withHash (V : Nat → H) {l wants : List Nat} (h : ∀ w ∈ wants, w ∈ l) :
    wantHashes (l.map (withHash V)) wants = .ok (wants.map V) := by
  induction wants with
  | nil => rfl
  | cons w wants ih =>
    obtain ⟨hw, h⟩ := List.forall_mem_cons.mp h
    rw [wantHashes, find?_withHash V hw]
    simp only [ih h, Exec.ok_bind]
    rfl

end

/-! ### The part of a proof -/

section
variable {H : Type} [HashOps H] [DecidableEq H] [SortAlg] {slots : List (Option H)}
  {targets wants : List Nat} {hashes : List H} (hn : slots.length ≤ 2 ^ 63)
  (h : List.Forall₂ (LeafAt slots) targets hashes) (hd : hashes.Nodup) (hdw : wants.Nodup)
include hn h hd hdw

/-- A position that is not proved is reported. -/
theorem getProofSubset_missing (proof : List H) (hmiss : ∃ w ∈ wants, w ∉ targets) :
    ∃ e, getProofSubset ⟨targets, proof⟩ hashes wants slots.length = .ok (.error e) := by
  have hlist := subtractSlice_listing (sort_listing hdw) (sort_listing (targets_nodup hn h hd))
  obtain ⟨w, hw, hno⟩ := hmiss
  exact ⟨_, if_pos (List.length_pos_of_mem ((hlist.mem w).mpr ⟨hw, hno⟩))⟩

/-- **The part of a proof with the hashes of the forest.**  The proof is the one of the
wants; their hashes are those at the indexes of the wants among the sorted targets. -/
theorem getProofSubset_forest (hne : ∀ a b : H, parentHash a b ≠ empty)
    (hleaf : ∀ h ∈ liveLeaves slots, h ≠ empty) {positions computed : List Nat}
    (hpos : proofPositions (sortPositions targets) slots.length (treeRows slots.length) =
      .ok (positions, computed)) (hsub : ∀ w ∈ wants, w ∈ targets) :
    ∃ wantPos wantComp,
      getProofSubset ⟨targets, positions.map (slotHash slots)⟩ hashes wants slots.length =
        .ok (.ok (wants.map (hashAtIndex (sortPositions targets) hashes),
          ⟨wants, wantPos.map (slotHash slots)⟩)) ∧
      proofPositions (sortPositions wants) slots.length (treeRows slots.length) =
        .ok (wantPos, wantComp) := by
  have hk := le_two_pow_treeRows slots.length
  have hdt := targets_nodup hn h hd
  have hsorted := sort_listing hdt
  have hlen : (sortPositions targets).length = hashes.length :=
    (sortPositions_perm targets).length_eq.trans h.length_eq
  -- Every want is among the targets.
  have hexpected : subtractSortedSlice (copySorted wants) (copySorted targets) uint64Cmp = [] := by
    refine (subtractSlice_listing (sort_listing hdw) hsorted).unique (.of_empty ?_)
    rintro w ⟨hw, hno⟩
    exact hno (hsub w hw)
  obtain ⟨touched, roots, htouched, -, hcalc⟩ := calculateHashes_forest hn hne hleaf h hd hpos
    []
  rw [List.append_nil] at hcalc
  obtain ⟨positions', computed', hpos', hneeded, -⟩ := proofPositions_forest hn h hd
  rw [hpos] at hpos'
  cases hpos'
  have hsub' : leafNodes slots wants ⊆ leafNodes slots targets := fun x hx => ⟨hx.1, hsub _ hx.2⟩
  have hwants : ∀ w ∈ wants, ∃ a, LeafAt slots w a := by
    intro w hw
    obtain ⟨a, -, ha⟩ := exists_of_mem_left h (hsub w hw)
    exact ⟨a, ha⟩
  obtain ⟨wantPos, wantComp, hwantPos, hwantNeeded, -⟩ := proofPositions_sweep (treeRows_le hn) hk
    inForest_of_leafNodes (antichain_leafNodes (by omega))
    ((sort_listing hdw).congr (mem_targets_iff (leafAt_map hn hwants)))
  -- Each pair of slices, with the hashes as a function of the position.
  have hpairs : toHashAndPos (copySorted targets) hashes =
      (sortPositions targets).map (withHash (hashAtIndex (sortPositions targets) hashes)) := by
    have hmap := toHashAndPos_withHash (hashAtIndex (sortPositions targets) hashes) hsorted.nodup
    rwa [map_hashAtIndex hsorted.nodup hlen, sortPositions_eq_self hsorted] at hmap
  have hinter : SortAlg.sort Prod.fst (touched.map (withHash (slotHash slots))) =
      touched.map (withHash (slotHash slots)) := by
    have hmap := toHashAndPos_withHash (slotHash slots) htouched.nodup
    rwa [toHashAndPos, zip_map_eq, sortPositions_eq_self htouched] at hmap
  have hproofPos : toHashAndPos positions (positions.map (slotHash slots)) =
      positions.map (withHash (slotHash slots)) := by
    rw [toHashAndPos_withHash _ hneeded.nodup, sortPositions_eq_self hneeded]
  have hknown := mergeSlices_listing htouched hneeded
  rw [← Set.image_union] at hknown
  have hwantHashes := getHashAndPosSubset_withHash (hashAtIndex (sortPositions targets) hashes)
    hsorted (sort_listing hdw) hsub
  have hwantProof := getHashAndPosSubset_withHash (slotHash slots) hknown hwantNeeded
    (Set.image_mono (needed_subset hsub'))
  refine ⟨wantPos, wantComp, ?_, hwantPos⟩
  rw [getProofSubset]
  simp only [hexpected, List.length_nil, lt_irrefl, if_false, hpairs, hcalc, Exec.ok_bind, hinter]
  simp only [copySorted, hpos, Exec.ok_bind, hproofPos, mergeSortedHashAndPos_withHash,
    hwantHashes, map_withHash_fst, hwantPos, hwantProof, List.length_map, ne_eq,
    not_true_eq_false, if_false, map_withHash_snd,
    wantHashes_withHash _ fun w hw => ((sort_listing hdw).mem w).mpr hw]

end

/-! ### When the part is a proof -/

section
variable {H M : Type} [HashOps H] [MiniHash H M] [DecidableEq H] [DecidableEq M] [SortAlg]
  {p : Pollard H M}

/-- What `GetProofSubset` is for: an error means that a position is not proved, and
otherwise the wants come in the given order with their hashes and a proof that the Stump
accepts. -/
structure SubsetSound (slots : List (Option H)) (s : Stump H) (proof : Proof H)
    (hashes : List H) (wants : List Nat) : Prop where
  error_iff : (∃ e, getProofSubset proof hashes wants s.numLeaves = .ok (.error e)) ↔
    ∃ w ∈ wants, w ∉ proof.targets
  result : (∀ w ∈ wants, w ∈ proof.targets) → ∃ subHashes positions computed,
    getProofSubset proof hashes wants s.numLeaves =
      .ok (.ok (subHashes, ⟨wants, positions.map (slotHash slots)⟩)) ∧
    List.Forall₂ (LeafAt slots) wants subHashes ∧
    proofPositions (sortPositions wants) s.numLeaves (treeRows s.numLeaves) =
      .ok (positions, computed) ∧
    ∃ idxs, verify s subHashes ⟨wants, positions.map (slotHash slots)⟩ = .ok (.ok idxs)

/-- **When a part of a proof is a proof.**  A wanted position gets its own hash exactly if
it has the same index among the targets as among the sorted targets. -/
theorem subset_sound_iff
    (hinj : ∀ {a b c d : H}, parentHash a b = parentHash c d → a = c ∧ b = d)
    (hne : ∀ a b : H, parentHash a b ≠ empty) {stack : List (PolBlock H × List H)}
    (hp : FullReach p stack) {hashes : List H} (hd : hashes.Nodup)
    (hlive : ∀ h ∈ hashes, h ∈ liveLeaves (stackSlots stack)) {proof : Proof H}
    (hproof : p.prove hashes = .ok (.ok proof)) {wants : List Nat} (hdw : wants.Nodup) :
    SubsetSound (stackSlots stack) ⟨p.getRoots, p.numLeaves⟩ proof hashes wants ↔
      (∃ w ∈ wants, w ∉ proof.targets) ∨
      ∀ w ∈ wants, (sortPositions proof.targets).idxOf w = proof.targets.idxOf w := by
  have hp := hp.represents hne
  generalize stackSlots stack = slots at *
  have hn := hp.fine.counted
  obtain ⟨targets, positions, computed, hrun, hts, hpos⟩ := hp.prove_live hinj hne hd hlive
  rw [hrun] at hproof
  cases hproof
  have hdt := targets_nodup hn hts hd
  by_cases hmiss : ∃ w ∈ wants, w ∉ targets
  · refine iff_of_true ⟨?_, fun hall => ?_⟩ (Or.inl hmiss)
    · refine iff_of_true ?_ hmiss
      rw [hp.numLeaves]
      exact getProofSubset_missing hn hts hd hdw _ hmiss
    · obtain ⟨w, hw, hno⟩ := hmiss
      exact absurd (hall w hw) hno
  · have hsub : ∀ w ∈ wants, w ∈ targets := fun w hw => by
      by_contra hno
      exact hmiss ⟨w, hw, hno⟩
    obtain ⟨wantPos, wantComp, hsubset, hwantPos⟩ := getProofSubset_forest hn hts hd hdw hne
      (fun h hh => (hp.fine.isLeaf h hh).ne_empty) hpos hsub
    have hleaf : ∀ w ∈ wants, ∃ a, LeafAt slots w a := by
      intro w hw
      obtain ⟨a, -, ha⟩ := exists_of_mem_left hts (hsub w hw)
      exact ⟨a, ha⟩
    have hwants := leafAt_map hn hleaf
    -- The hash of a want is the one at its index among the targets.
    have hown : ∀ w ∈ wants, slotHash slots w = hashAtIndex targets hashes w := by
      have hmap := map_hashAtIndex hdt hts.length_eq
      rw [hashes_eq_map hn hts] at hmap ⊢
      exact fun w hw => (List.map_inj_left.mp hmap w (hsub w hw)).symm
    have hindex : ∀ w ∈ wants,
        (hashAtIndex (sortPositions targets) hashes w = slotHash slots w ↔
          (sortPositions targets).idxOf w = targets.idxOf w) := by
      intro w hw
      have hperm := sortPositions_perm targets
      rw [hown w hw]
      exact hashAtIndex_inj hd (hperm.length_eq.trans hts.length_eq) hts.length_eq
        (hperm.mem_iff.mpr (hsub w hw)) (hsub w hw)
    rw [or_iff_right hmiss]
    rw [← hp.numLeaves] at hsubset
    constructor
    · intro hsound w hw
      obtain ⟨subHashes, positions', -, hrun', hat, -⟩ := hsound.result hsub
      rw [hsubset] at hrun'
      simp only [Except.ok.injEq, Prod.mk.injEq] at hrun'
      obtain ⟨rfl, -⟩ := hrun'
      rw [← hindex w hw]
      have hmap := hashes_eq_map hn hat
      exact List.map_inj_left.mp hmap w hw
    · intro hkept
      have hhashes : wants.map (hashAtIndex (sortPositions targets) hashes) =
          wants.map (slotHash slots) :=
        List.map_congr_left fun w hw => (hindex w hw).mpr (hkept w hw)
      rw [hhashes] at hsubset
      refine ⟨iff_of_false ?_ hmiss, fun _ => ?_⟩
      · rintro ⟨e, he⟩
        rw [hsubset] at he
        cases he
      · obtain ⟨-, idxs, hstump, -⟩ := hp.accepts hinj hne hwants
          (slotHash_nodup hn hp.fine.nodup hleaf hdw) hwantPos false
        rw [← hp.numLeaves] at hwantPos
        exact ⟨_, wantPos, wantComp, hsubset, hwants, hwantPos, idxs, hstump⟩

end

section
attribute [local instance] SortAlg.stable

/-- Two leaves. -/
def twoLeaves : PolBlock FreeHash := ⟨[⟨.leaf 0, true⟩, ⟨.leaf 1, true⟩], [], ⟨[], []⟩⟩

theorem twoLeaves_reach :
    ∃ (p : Pollard FreeHash FreeHash) (stack : List (PolBlock FreeHash × List FreeHash)),
      FullReach p stack ∧ stackSlots stack = [some (.leaf 0), some (.leaf 1)] := by
  have hb : twoLeaves.Honest FreeHash (stackSlots []) :=
    ⟨.nil, by decide, FreeHash.leavesFine (by decide) (by decide) (by decide)⟩
  obtain ⟨p, hrun, -⟩ := represents_newAccumulator.modify FreeHash.ideal.ne_empty hb
  exact ⟨p, _, .modify .new hb (by decide) hrun, rfl⟩

/-- The positions of leaves are determined. -/
theorem leafAt_targets_unique {H : Type} {slots : List (Option H)} (hn : slots.length < 2 ^ 64)
    (hnd : (liveLeaves slots).Nodup) {targets targets' : List Nat} {hashes : List H}
    (h : List.Forall₂ (LeafAt slots) targets hashes)
    (h' : List.Forall₂ (LeafAt slots) targets' hashes) : targets = targets' := by
  induction h generalizing targets' with
  | nil => exact (List.forall₂_nil_right_iff.mp h').symm
  | cons ht _ ih =>
    obtain ⟨t', ts', ht', hts', rfl⟩ := List.forall₂_cons_right_iff.mp h'
    rw [ht.unique hn hnd ht', ih hts']

/-- The proof of the two leaves in the other order. -/
theorem prove_twoLeaves {p : Pollard FreeHash FreeHash}
    (hp : p.Represents [some (.leaf 0), some (.leaf 1)]) :
    p.prove [.leaf 1, .leaf 0] = .ok (.ok ⟨[1, 0], []⟩) := by
  obtain ⟨targets, positions, computed, hrun, hts, hpos⟩ := hp.prove_live FreeHash.ideal.inj
    FreeHash.ideal.ne_empty (show [FreeHash.leaf 1, FreeHash.leaf 0].Nodup by decide) (by decide)
  have htargets : targets = [1, 0] := by
    refine leafAt_targets_unique (by decide) (by decide) hts (.cons ⟨⟨0, 1⟩, by decide, by decide⟩
      (.cons ⟨⟨0, 0⟩, by decide, by decide⟩ .nil))
  subst htargets
  have hpos' : proofPositions (sortPositions [1, 0]) 2 (treeRows 2) = .ok ([], [2]) := by decide
  cases hpos.symm.trans hpos'
  exact hrun

/-- The hash of the second leaf is returned for the first one, and the Stump does not accept
it. -/
theorem subset_of_swapped :
    ∃ (p : Pollard FreeHash FreeHash) (stack : List (PolBlock FreeHash × List FreeHash)),
      FullReach p stack ∧ stackSlots stack = [some (.leaf 0), some (.leaf 1)] ∧
      p.prove [.leaf 1, .leaf 0] = .ok (.ok ⟨[1, 0], []⟩) ∧
      getProofSubset ⟨[1, 0], []⟩ [.leaf 1, .leaf 0] [0] p.numLeaves =
        .ok (.ok ([FreeHash.leaf 1], ⟨[0], [.leaf 1]⟩)) ∧
      verify ⟨p.getRoots, p.numLeaves⟩ [.leaf 1] ⟨[0], [.leaf 1]⟩ = .ok (.error (.roots 1 0)) ∧
      ¬ SubsetSound (stackSlots stack) ⟨p.getRoots, p.numLeaves⟩ ⟨[1, 0], []⟩
        [.leaf 1, .leaf 0] [0] := by
  obtain ⟨p, stack, hreach, hslots⟩ := twoLeaves_reach
  have hp := hreach.represents FreeHash.ideal.ne_empty
  rw [hslots] at hp
  have hnum : p.numLeaves = 2 := hp.numLeaves
  have hroots : p.getRoots = [.node (.leaf 0) (.leaf 1)] := hp.getRoots.trans (by decide)
  have hsubset : getProofSubset ⟨[1, 0], []⟩ [FreeHash.leaf 1, .leaf 0] [0] p.numLeaves =
      .ok (.ok ([.leaf 1], ⟨[0], [.leaf 1]⟩)) := by
    rw [hnum]
    decide
  refine ⟨p, stack, hreach, hslots, prove_twoLeaves hp, hsubset, ?_, fun hsound => ?_⟩
  · rw [hnum, hroots]
    decide
  · obtain ⟨subHashes, _, _, hrun, hat, -⟩ := hsound.result (by decide)
    rw [hsubset] at hrun
    simp only [Except.ok.injEq, Prod.mk.injEq] at hrun
    obtain ⟨rfl, -⟩ := hrun
    rw [hslots] at hat
    have hone : LeafAt [some (FreeHash.leaf 0), some (.leaf 1)] 1 (.leaf 1) :=
      ⟨⟨0, 1⟩, by decide, by decide⟩
    have := (List.forall₂_cons.mp hat).1.unique (by decide) (by decide) hone
    omega

/-- The same leaves asked for in their order. -/
theorem subset_sound_secondDeleted :
    ∃ (p : Pollard FreeHash FreeHash) (stack : List (PolBlock FreeHash × List FreeHash))
      (proof : Proof FreeHash),
      FullReach p stack ∧ p.prove [.leaf 3, .leaf 0] = .ok (.ok proof) ∧ proof.targets = [3, 4] ∧
      SubsetSound (stackSlots stack) ⟨p.getRoots, p.numLeaves⟩ proof [.leaf 3, .leaf 0] [4] := by
  obtain ⟨p, stack, hreach, hslots⟩ := secondDeleted_reach
  have hp := hreach.represents FreeHash.ideal.ne_empty
  have hd : [FreeHash.leaf 3, FreeHash.leaf 0].Nodup := by decide
  have hlive : ∀ h ∈ [FreeHash.leaf 3, FreeHash.leaf 0], h ∈ liveLeaves (stackSlots stack) := by
    rw [hslots]
    decide
  obtain ⟨targets, positions, computed, hrun, hts, -⟩ := hp.prove_live FreeHash.ideal.inj
    FreeHash.ideal.ne_empty hd hlive
  have htargets : targets = [3, 4] := by
    rw [hslots] at hts
    exact leafAt_targets_unique (by decide) (by decide) hts
      (.cons ⟨⟨0, 3⟩, by decide, by decide⟩ (.cons ⟨⟨1, 0⟩, by decide, by decide⟩ .nil))
  subst htargets
  refine ⟨p, stack, _, hreach, hrun, rfl, ?_⟩
  exact (subset_sound_iff FreeHash.ideal.inj FreeHash.ideal.ne_empty hreach hd hlive hrun
    (by decide)).mpr (Or.inr (show ∀ w ∈ [4], (sortPositions [3, 4]).idxOf w = [3, 4].idxOf w by
      decide))

end

end Utreexo
