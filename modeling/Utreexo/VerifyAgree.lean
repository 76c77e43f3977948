import Utreexo.MapPollard
import Utreexo.ProofCheck

/-! # The three verifiers

`Verify` on a Stump, `Pollard.Verify` and `MapPollard.Verify` all compare the roots that
`calculateHashes` returns with their own.  They differ at two places: `Pollard.Verify`
accepts an empty list of hashes without a look at the proof, and `MapPollard.Verify`
takes the targets for positions of a forest with `TotalRows` rows.
-/
namespace Utreexo
open Merkle

section
variable {H : Type} [DecidableEq H] [HashOps H] [SortAlg]

/-! ### Stump and Pollard -/

/-- Targets lead to at least one root. -/
theorem calculateHashes_roots_ne_nil {n : Nat} {delHashes : List H} {proof : Proof H}
    (hlen : delHashes.length = proof.targets.length) (hne : delHashes ≠ [])
    {inter : List (Nat × H)} {cands : List H}
    (h : calculateHashes n (some delHashes) proof = .ok (inter, cands)) : cands ≠ [] := by
  obtain ⟨exprs, _, rfl, -, hperm⟩ := calculateHashes_expr hlen h
  intro hnil
  obtain rfl : exprs = [] := List.map_eq_nil_iff.mp hnil
  exact hne hperm.symm.eq_nil

/-- With something to check, a Pollard accepts what the Stump with its roots accepts. -/
theorem Pollard.verify_iff_stump {M : Type} {p : Pollard H M} {s : Stump H}
    (hnum : p.numLeaves = s.numLeaves) (hroots : p.getRoots = s.roots) {delHashes : List H}
    (hne : delHashes ≠ []) (proof : Proof H) (remember : Bool) :
    p.verify delHashes proof remember = .ok (.ok ()) ↔
      ∃ idxs, Utreexo.verify s delHashes proof = .ok (.ok idxs) := by
  by_cases hlen : delHashes.length = proof.targets.length
  · rw [Pollard.verify, if_neg (by simpa using hne), if_neg (by simpa using hlen), Utreexo.verify,
      if_neg (by simpa using hlen), hnum, hroots]
    rcases hcalc : calculateHashes s.numLeaves (some delHashes) proof with e | ⟨inter, cands⟩
    · simp
    · have hcands := calculateHashes_roots_ne_nil hlen hne hcalc
      simp only [Exec.ok_bind]
      rw [if_neg (by simpa using hcands)]
      split <;> simp
  · rw [Pollard.verify, if_neg (by simpa using hne), if_pos hlen, Utreexo.verify, if_pos hlen]
    simp

omit [HashOps H] [SortAlg] in
theorem matchRoots_nil (roots : List H) (idxs : List Nat) : matchRoots roots [] idxs = idxs := by
  induction roots with
  | nil => rfl
  | cons root roots ih => rw [matchRoots, ih]

/-- Without hashes the Stump accepts only a proof without targets. -/
theorem verify_nil_iff (s : Stump H) (proof : Proof H) :
    (∃ idxs, verify s [] proof = .ok (.ok idxs)) ↔ proof.targets = [] := by
  by_cases hnil : proof.targets = []
  · rw [verify, if_neg (by simp [hnil]), calculateHashes_nil hnil rfl]
    simp [hnil, matchRoots_nil]
  · have hlen : ([] : List H).length ≠ proof.targets.length := by
      rw [List.length_nil, ne_comm]
      exact mt List.eq_nil_of_length_eq_zero hnil
    rw [verify, if_pos hlen]
    simp [hnil]

/-! ### Stump and MapPollard -/

omit [HashOps H] [DecidableEq H] [SortAlg] in
theorem translatePos_bottom {p r : Nat} (h : p < 2 ^ r ∨ 64 ≤ r) (k : Nat) :
    translatePos p r k = p := by
  have hmarker : p &&& shl64 1 r = 0 := by
    rcases Nat.lt_or_ge r 64 with hr | hr
    · have hp : p < 2 ^ r := h.resolve_right (by omega)
      rw [shl64, Nat.one_shiftLeft, Nat.mod_eq_of_lt (Nat.pow_lt_pow_right (by omega) hr),
        Nat.and_two_pow, Nat.testBit_lt_two_pow hp, Bool.toNat_false, Nat.zero_mul]
    · rw [shl64_eq_zero hr, Nat.and_zero]
  have hrow : detectRow p r = 0 := by
    rw [detectRow, detectRowLoop, if_neg (by simpa using hmarker)]
  rw [translatePos, hrow, if_pos rfl]

omit [DecidableEq H] [HashOps H] [SortAlg] in
/-- A proof that can be checked has targets which are on the bottom row if the forest is
thought to have more rows than it needs. -/
theorem MapPollard.translateProof_eq_self {m : MapPollard H} {proof : Proof H}
    (hn : m.numLeaves < 2 ^ 64) (hrows : treeRows m.numLeaves ≤ m.totalRows)
    (hreach : TargetsReached m.numLeaves proof) : m.translateProof proof = proof := by
  rw [translateProof]
  split
  · next hne =>
    have htargets : ∀ t ∈ proof.targets,
        translatePos t m.totalRows (treeRows m.numLeaves) = t := by
      intro t ht
      refine translatePos_bottom ?_ _
      by_cases hsmall : m.numLeaves ≤ 2 ^ 63
      · rw [TargetsReached, if_pos hsmall] at hreach
        obtain ⟨x, hx, rfl⟩ := (inForest_iff hsmall t).mp (hreach t ht)
        have hlt := (fits_of_inForest (le_two_pow_treeRows _) hx).pos_lt_max
        have hpow : 2 ^ (treeRows m.numLeaves + 1) ≤ 2 ^ m.totalRows :=
          Nat.pow_le_pow_right (by omega) (by omega)
        exact Or.inl (by omega)
      · rw [treeRows_wide (by omega) hn] at hrows
        exact Or.inr hrows
    rw [translatePositions, List.map_congr_left htargets, List.map_id']
  · rfl

omit [DecidableEq H] [HashOps H] [SortAlg] in
theorem MapPollard.length_translateProof (m : MapPollard H) (proof : Proof H) :
    (m.translateProof proof).targets.length = proof.targets.length := by
  rw [translateProof]
  split
  · rw [translatePositions, List.length_map]
  · rfl

theorem MapPollard.verify_iff (m : MapPollard H) (delHashes : List H) (proof : Proof H) :
    (∃ m', m.verify delHashes proof false = .ok (m', .ok ())) ↔
      ∃ idxs, Utreexo.verify m.getStump delHashes (m.translateProof proof) = .ok (.ok idxs) := by
  rw [MapPollard.verify]
  rcases Utreexo.verify m.getStump delHashes (m.translateProof proof) with e | err | idxs
  · simp
  · simp
  · simp

/-- The targets are the same for the MapPollard, or they are not looked at. -/
def MapPollard.KeepsTargets (m : MapPollard H) (delHashes : List H) (proof : Proof H) : Prop :=
  m.translateProof proof = proof ∨ delHashes.length ≠ proof.targets.length

/-- With rows enough every target is kept, provided the Stump comes to a decision. -/
theorem MapPollard.keepsTargets_of_rows {m : MapPollard H} (hn : m.numLeaves < 2 ^ 64)
    (hrows : treeRows m.numLeaves ≤ m.totalRows) {delHashes : List H} {proof : Proof H}
    (hret : ∃ res, Utreexo.verify m.getStump delHashes proof = .ok res) :
    m.KeepsTargets delHashes proof := by
  by_cases hlen : delHashes.length = proof.targets.length
  · have hcalc : ∃ res, calculateHashes m.numLeaves (some delHashes) proof = .ok res := by
      rw [Exec.ok_iff_not_error] at hret ⊢
      exact fun e he => hret e ((verify_stop_iff hlen e).mpr he)
    have hreach := ((calculateHashes_ok_iff hn (by rintro dels h; cases h; exact hlen)).mp hcalc).2
    exact Or.inl (translateProof_eq_self hn hrows hreach)
  · exact Or.inr hlen

/-- A MapPollard that keeps the targets accepts what the Stump with its roots accepts. -/
theorem MapPollard.verify_iff_stump {m : MapPollard H} {delHashes : List H} {proof : Proof H}
    (hkeeps : m.KeepsTargets delHashes proof) :
    (∃ m', m.verify delHashes proof false = .ok (m', .ok ())) ↔
      ∃ idxs, Utreexo.verify m.getStump delHashes proof = .ok (.ok idxs) := by
  rw [verify_iff]
  rcases hkeeps with hsame | hlen
  · rw [hsame]
  · rw [Utreexo.verify, if_pos (by rwa [length_translateProof]), Utreexo.verify, if_pos hlen]
    simp

/-! ### The three of them -/

/-- **The three verifiers agree** exactly if there is something to check or no target either, for
targets that the MapPollard does not take for others.  With `TotalRows` large enough there are no
others for which the Stump's call returns. -/
theorem verifiers_agree_iff {M : Type} {s : Stump H} {p : Pollard H M} {m : MapPollard H}
    (hn : s.numLeaves < 2 ^ 64) (hp : p.numLeaves = s.numLeaves) (hm : m.numLeaves = s.numLeaves)
    (hproots : p.getRoots = s.roots) (hmroots : m.getRoots = s.roots) (delHashes : List H)
    (proof : Proof H) (hret : ∃ res, verify s delHashes proof = .ok res) :
    (m.KeepsTargets delHashes proof →
      ((((∃ idxs, verify s delHashes proof = .ok (.ok idxs)) ↔
          p.verify delHashes proof false = .ok (.ok ())) ∧
        (p.verify delHashes proof false = .ok (.ok ()) ↔
          ∃ m', m.verify delHashes proof false = .ok (m', .ok ()))) ↔
        (delHashes ≠ [] ∨ proof.targets = []))) ∧
    (treeRows s.numLeaves ≤ m.totalRows → m.KeepsTargets delHashes proof) := by
  obtain rfl : m.getStump = s := by rw [MapPollard.getStump, hm, hmroots]
  refine ⟨fun hkeeps => ?_, fun hrows => MapPollard.keepsTargets_of_rows hn hrows hret⟩
  rw [MapPollard.verify_iff_stump hkeeps]
  by_cases hne : delHashes = []
  · subst hne
    have hpok : p.verify [] proof false = .ok (.ok ()) := rfl
    rw [verify_nil_iff]
    simp [hpok]
  · rw [Pollard.verify_iff_stump hp hproots hne]
    simp [hne]

end

section Instances
attribute [local instance] SortAlg.stable

/-- The Pollard after the first leaves have been added. -/
def firstLeavesPollard (n : Nat) :
    Exec (Pollard FreeHash FreeHash × Except (PolErr FreeHash) Unit) :=
  (newAccumulator true).modify ((List.range n).map fun i => ⟨.leaf i, false⟩) [] ⟨[], []⟩

theorem exists_firstLeavesPollard (n : Nat) (roots : List FreeHash)
    (h : (firstLeavesPollard n >>= fun r => .ok (r.2, r.1.numLeaves, r.1.getRoots)) =
      .ok (.ok (), n, roots)) :
    ∃ p, firstLeavesPollard n = .ok (p, .ok ()) ∧ p.numLeaves = n ∧ p.getRoots = roots := by
  rcases hrun : firstLeavesPollard n with e | ⟨p, res⟩
  · rw [hrun] at h
    cases h
  · rw [hrun, Exec.ok_bind] at h
    injection h with h
    injection h with hres h
    injection h with hnum hroots
    cases hres
    exact ⟨p, rfl, hnum, hroots⟩

/-- A MapPollard of three leaves that has more rows than it needs. -/
def threeLeafMap : MapPollard FreeHash :=
  ⟨∅, (Finmap.singleton 8 ⟨.node (.leaf 0) (.leaf 1), false⟩).insert 2 ⟨.leaf 2, false⟩, 3, 3⟩

/-- The Stump of three leaves. -/
def threeLeafStump : Stump FreeHash := ⟨[.node (.leaf 0) (.leaf 1), .leaf 2], 3⟩

theorem verifiers_agree_three_leaves :
    treeRows 3 < threeLeafMap.totalRows ∧
    (∃ idxs, verify threeLeafStump [.leaf 1] ⟨[1], [.leaf 0]⟩ = .ok (.ok idxs)) ∧
    (∃ p, firstLeavesPollard 3 = .ok (p, .ok ()) ∧
      p.verify [.leaf 1] ⟨[1], [.leaf 0]⟩ false = .ok (.ok ())) ∧
    ∃ m', threeLeafMap.verify [.leaf 1] ⟨[1], [.leaf 0]⟩ false = .ok (m', .ok ()) := by
  have hstump : verify threeLeafStump [.leaf 1] ⟨[1], [.leaf 0]⟩ = .ok (.ok [0]) := by
    decide +kernel
  have hrows : treeRows 3 < threeLeafMap.totalRows := by decide
  obtain ⟨p, hrun, hnum, hroots⟩ := exists_firstLeavesPollard 3 threeLeafStump.roots
    (by decide +kernel)
  obtain ⟨hagree, hkeeps⟩ := verifiers_agree_iff (s := threeLeafStump) (m := threeLeafMap)
    (by decide) hnum rfl hroots (by decide +kernel) [.leaf 1] ⟨[1], [.leaf 0]⟩ ⟨_, hstump⟩
  obtain ⟨hpol, hmap⟩ := (hagree (hkeeps hrows.le)).mpr (Or.inl (List.cons_ne_nil _ _))
  have haccept := hpol.mp ⟨_, hstump⟩
  exact ⟨hrows, ⟨_, hstump⟩, ⟨p, hrun, haccept⟩, hmap.mp haccept⟩

/-- A Pollard of one leaf. -/
def oneLeafPollard : Pollard FreeHash FreeHash :=
  ⟨⟨fun _ => ⟨none, none, none, .leaf 0, true⟩, 1⟩, Finmap.singleton (.leaf 0) 0, [0], 1, 0, true⟩

/-- A MapPollard of one leaf. -/
def oneLeafMap : MapPollard FreeHash :=
  ⟨Finmap.singleton (.leaf 0) 0, Finmap.singleton 0 ⟨.leaf 0, true⟩, 1, 0⟩

/-- The root of the first four of five leaves. -/
def firstFour : FreeHash :=
  .node (.node (.leaf 0) (.leaf 1)) (.node (.leaf 2) (.leaf 3))

/-- The roots of five leaves in a MapPollard with too few rows. -/
def fiveLeafMap : MapPollard FreeHash :=
  ⟨∅, (Finmap.singleton 6 ⟨firstFour, false⟩).insert 4 ⟨.leaf 4, false⟩, 5, 2⟩

/-- No hash, but a target: `Pollard.Verify` accepts what the others reject.  And with too few
rows `MapPollard.Verify` takes the target 4, a root, for the node 8 and rejects what the others
accept. -/
theorem verifiers_differ :
    ((oneLeafPollard.numLeaves = 1 ∧ oneLeafPollard.getRoots = [.leaf 0]) ∧
      (oneLeafMap.numLeaves = 1 ∧ oneLeafMap.getRoots = [.leaf 0]) ∧
      verify ⟨[.leaf 0], 1⟩ [] (⟨[0], []⟩ : Proof FreeHash) = .ok (.error (.lengths 1 0)) ∧
      oneLeafPollard.verify [] ⟨[0], []⟩ false = .ok (.ok ()) ∧
      oneLeafMap.verify [] ⟨[0], []⟩ false =
        .ok (oneLeafMap, .error (.invalid (.lengths 1 0)))) ∧
    (fiveLeafMap.numLeaves = 5 ∧ fiveLeafMap.getRoots = [firstFour, .leaf 4]) ∧
      verify ⟨[firstFour, .leaf 4], 5⟩ [.leaf 4] ⟨[4], [.leaf 9]⟩ = .ok (.ok [1]) ∧
      (∃ p, firstLeavesPollard 5 = .ok (p, .ok ()) ∧
        (p.numLeaves = 5 ∧ p.getRoots = [firstFour, .leaf 4]) ∧
        p.verify [.leaf 4] ⟨[4], [.leaf 9]⟩ false = .ok (.ok ())) ∧
      fiveLeafMap.verify [.leaf 4] ⟨[4], [.leaf 9]⟩ false =
        .ok (fiveLeafMap, .error (.invalid (.roots 1 0))) := by
  have hstump : verify ⟨[firstFour, .leaf 4], 5⟩ [.leaf 4] ⟨[4], [.leaf 9]⟩ = .ok (.ok [1]) := by
    decide +kernel
  obtain ⟨p, hrun, hnum, hroots⟩ := exists_firstLeavesPollard 5 [firstFour, .leaf 4]
    (by decide +kernel)
  have haccept := (Pollard.verify_iff_stump (s := ⟨[firstFour, .leaf 4], 5⟩) hnum hroots
    (List.cons_ne_nil _ _) _ false).mpr ⟨_, hstump⟩
  refine ⟨⟨⟨rfl, rfl⟩, ⟨rfl, by decide +kernel⟩, by decide +kernel, rfl, rfl⟩,
    ⟨rfl, by decide +kernel⟩, hstump, ⟨p, hrun, ⟨hnum, hroots⟩, haccept⟩, ?_⟩
  have hreject : verify fiveLeafMap.getStump [.leaf 4]
      (fiveLeafMap.translateProof ⟨[4], [.leaf 9]⟩) = .ok (.error (.roots 1 0)) := by
    decide +kernel
  rw [MapPollard.verify, hreject, Exec.ok_bind]

end Instances

end Utreexo
