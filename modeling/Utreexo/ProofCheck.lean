import Utreexo.ManyLeaves
import Utreexo.Pollard
import Utreexo.StumpSound

/-! # When checking a proof returns

`Verify` and `Update` run `calculateHashes` on a proof from an untrusted peer.  The
inner loop of `calculateHashes` never ends on a position outside the forest, and the
hashes of the proof are read without a check.  This module says exactly on which
inputs a check returns, and on which it does not read past the end of the proof.

A forest of more than `2 ^ 63` leaves has 64 rows.  Then `1 << 64` is zero in a
`uint64`, the parent of a position is just half of it, and a check returns only if
every target is a root.
-/
namespace Utreexo
open Merkle

/-! ### The targets in order -/

theorem toHashAndPos_fst [SortAlg] {H : Type} {targets : List Nat} {hashes : List H}
    (hlen : hashes.length = targets.length) :
    (toHashAndPos targets hashes).map Prod.fst = sortPositions targets := by
  refine List.Perm.eq_of_pairwise (fun a b _ _ h1 h2 => Nat.le_antisymm h1 h2) ?_
    (sortPositions_sorted targets) ?_
  · exact List.pairwise_map.mpr (SortAlg.sorted _ _)
  · refine ((SortAlg.perm _ _).map _).trans ?_
    rw [List.map_fst_zip (by omega)]
    exact (sortPositions_perm targets).symm

/-! ### Up to `2 ^ 63` leaves -/

/-- How many hashes of the proof a check of the targets reads: one for every position
that `proofPositions` lists, apart from those whose sibling is past the forest. -/
def proofReads (n : Nat) (targets : List Nat) : Nat :=
  match proofPositions (sortPositions targets) n (treeRows n) with
  | .ok (positions, _) =>
    (positions.filter fun q => sibling q ≤ maxPos (treeRows n) (treeRows n) n).length
  | .error _ => 0

section Small
variable {H : Type} {n : Nat} (hn : n ≤ 2 ^ 63)
include hn

theorem calcLoop_start_outcome (next : Nat → H → H → H) {toProve : List (Nat × H)}
    {targets : List Nat} (hfst : toProve.map Prod.fst = sortPositions targets) (proof : List H)
    {fuel : Nat} (hfuel : toProve.length + proof.length + 66 ≤ fuel) :
    (calcLoop next n (treeRows n) fuel (CalcState.start toProve proof) = .error .panic ↔
      proof.length < proofReads n targets) ∧
    ((∃ st', calcLoop next n (treeRows n) fuel (CalcState.start toProve proof) = .ok st') ↔
      proofReads n targets ≤ proof.length ∧
        ∀ t ∈ targets, inForest t n (treeRows n) = .ok true) := by
  have hsorted := sortPositions_sorted targets
  obtain ⟨fin, hloop, hpp⟩ := proofPositions_returns hn hsorted
  have hin : InStep n (CalcState.start toProve proof) (PosState.start (sortPositions targets)) :=
    ⟨⟨hfst, rfl⟩, posInv_start hsorted, Nat.zero_le _, fun j hj => by cases hj⟩
  obtain ⟨L, reads, hL, hreads, h1, h2⟩ := calcLoop_outcome hn next hin hloop
    (show _ ≤ fuel by simp only [CalcState.load, CalcState.start, List.length_nil]; omega)
  have hr : proofReads n targets = reads := by
    rw [proofReads, hpp, hL, hreads]
    rfl
  rw [hr]
  refine ⟨h1, h2.trans (and_congr_right fun _ => ?_)⟩
  simp only [PosState.pending, PosState.start, List.append_nil, inForest_iff hn]
  exact ⟨fun h t ht => h t ((sortPositions_perm targets).mem_iff.mpr ht),
    fun h t ht => h t ((sortPositions_perm targets).mem_iff.mp ht)⟩

end Small

/-! ### The outcome of a check -/

section Outcome
variable {H : Type} [DecidableEq H] [HashOps H] [SortAlg]

/-- The rounds of `calculateHashes` on a proof, with fuel. -/
def proofRounds (n : Nat) (delHashes : Option (List H)) (proof : Proof H) (fuel : Nat) :
    Exec (CalcState H) :=
  calcLoop getNextHash n (treeRows n) fuel (CalcState.start (toHashAndPos proof.targets
    (delHashes.getD (List.replicate proof.targets.length empty))) proof.proof)

/-- The proof has a hash for every read.  With 64 rows no number of hashes is enough,
unless every target is a root. -/
def LongEnough (n : Nat) (proof : Proof H) : Prop :=
  if n ≤ 2 ^ 63 then proofReads n proof.targets ≤ proof.proof.length
  else ∀ t ∈ proof.targets, t < 2 ^ 64 - 2 → DirectRoot n t

/-- Every target is a position of the forest, and with 64 rows a root. -/
def TargetsReached (n : Nat) (proof : Proof H) : Prop :=
  if n ≤ 2 ^ 63 then ∀ t ∈ proof.targets, inForest t n (treeRows n) = .ok true
  else ∀ t ∈ proof.targets, DirectRoot n t

omit [DecidableEq H] [HashOps H] [SortAlg] in
instance (n : Nat) (proof : Proof H) : Decidable (LongEnough n proof) := by
  unfold LongEnough DirectRoot
  infer_instance

omit [DecidableEq H] [HashOps H] [SortAlg] in
instance (n : Nat) (proof : Proof H) : Decidable (TargetsReached n proof) := by
  unfold TargetsReached DirectRoot
  infer_instance

variable {n : Nat} {delHashes : Option (List H)} {proof : Proof H}

theorem proofRounds_outcome (hn : n < 2 ^ 64)
    (hlen : ∀ dels, delHashes = some dels → dels.length = proof.targets.length) {fuel : Nat}
    (hfuel : calcFuel proof ≤ fuel) :
    (proofRounds n delHashes proof fuel = .error .panic ↔ ¬ LongEnough n proof) ∧
    ((∃ st, proofRounds n delHashes proof fuel = .ok st) ↔
      LongEnough n proof ∧ TargetsReached n proof) := by
  unfold LongEnough TargetsReached proofRounds
  have hlen' : (delHashes.getD (List.replicate proof.targets.length empty)).length =
      proof.targets.length := by
    rcases hdel : delHashes with _ | dels
    · simp
    · exact hlen dels hdel
  have hfst := toHashAndPos_fst hlen'
  have hload := toHashAndPos_length hlen'
  rw [calcFuel] at hfuel
  by_cases hsmall : n ≤ 2 ^ 63
  · simp only [if_pos hsmall, Nat.not_le]
    exact calcLoop_start_outcome hsmall getNextHash hfst proof.proof (by omega)
  · simp only [if_neg hsmall]
    have hlock : Lock (CalcState.start (toHashAndPos proof.targets
        (delHashes.getD (List.replicate proof.targets.length empty))) proof.proof)
        (PosState.start (sortPositions proof.targets)) := ⟨hfst, rfl⟩
    have hout := calcLoop_wide_outcome (by omega) hn getNextHash hlock rfl
      (sortPositions_sorted _) (Or.inl rfl) (fun j hj => by cases hj)
      (show _ ≤ fuel by simp only [CalcState.load, CalcState.start, List.length_nil]; omega)
    have hmem : ∀ t, t ∈ (PosState.start (sortPositions proof.targets)).targets ↔
        t ∈ proof.targets := fun t => (sortPositions_perm proof.targets).mem_iff
    simp only [hmem] at hout
    rw [treeRows_wide (by omega) hn]
    refine ⟨hout.1.trans ?_, hout.2.trans ⟨fun h => ⟨fun t ht _ => h t ht, h⟩, fun h => h.2⟩⟩
    push Not
    rfl

/-- The rounds never end exactly when no read is out of range and some target is not
reached. -/
theorem proofRounds_diverge_iff (hn : n < 2 ^ 64)
    (hlen : ∀ dels, delHashes = some dels → dels.length = proof.targets.length) :
    (∀ fuel, proofRounds n delHashes proof fuel = .error .diverge) ↔
      LongEnough n proof ∧ ¬ TargetsReached n proof := by
  have hout := proofRounds_outcome hn hlen (Nat.le_refl (calcFuel proof))
  constructor
  · intro h
    rw [h] at hout
    have h1 : LongEnough n proof := by simpa using hout.1
    exact ⟨h1, fun h2 => by simpa using hout.2.mpr ⟨h1, h2⟩⟩
  · rintro ⟨h1, h2⟩ fuel
    by_contra hne
    -- The rounds have ended with this fuel, so they end in the same way with enough of it.
    have hout' := proofRounds_outcome hn hlen
      (Nat.le_max_right fuel (calcFuel proof))
    rw [proofRounds, calcLoop_mono (Nat.le_max_left _ _) hne] at hout'
    rcases hr : proofRounds n delHashes proof fuel with e | st
    · rw [proofRounds] at hr
      rw [hr] at hout'
      rcases e with _ | _
      · exact hne hr
      · exact hout'.1.mp rfl h1
    · rw [proofRounds] at hr
      rw [hr] at hout'
      exact h2 (hout'.2.mp ⟨st, rfl⟩).2

theorem calculateHashes_eq (n : Nat) (delHashes : Option (List H)) (proof : Proof H) :
    calculateHashes n delHashes proof =
      proofRounds n delHashes proof (calcFuel proof) >>= fun st =>
        .ok (mergeSortedHashAndPos st.nextProves (toHashAndPos proof.targets
          (delHashes.getD (List.replicate proof.targets.length empty))), st.roots) := rfl

theorem calculateHashes_panic_iff (hn : n < 2 ^ 64)
    (hlen : ∀ dels, delHashes = some dels → dels.length = proof.targets.length) :
    calculateHashes n delHashes proof = .error .panic ↔ ¬ LongEnough n proof := by
  rw [← (proofRounds_outcome hn hlen (Nat.le_refl _)).1,
    calculateHashes_eq]
  rcases proofRounds n delHashes proof (calcFuel proof) with e | st <;> simp

theorem calculateHashes_ok_iff (hn : n < 2 ^ 64)
    (hlen : ∀ dels, delHashes = some dels → dels.length = proof.targets.length) :
    (∃ res, calculateHashes n delHashes proof = .ok res) ↔
      LongEnough n proof ∧ TargetsReached n proof := by
  rw [← (proofRounds_outcome hn hlen (Nat.le_refl _)).2,
    calculateHashes_eq]
  rcases proofRounds n delHashes proof (calcFuel proof) with e | st <;> simp

end Outcome

/-! ### `Verify` and `Update` -/

section Callers
variable {H : Type}

theorem length_setRoots (roots : List H) (idxs : List Nat) (modified : List H) :
    (setRoots roots idxs modified).length = roots.length := by
  induction idxs generalizing roots modified with
  | nil => cases modified <;> rfl
  | cons i idxs ih =>
    rcases modified with _ | ⟨m, modified⟩
    · rfl
    · rw [setRoots, ih, List.length_set]

variable [DecidableEq H] [HashOps H] [SortAlg] {s : Stump H} {delHashes : List H}
  {proof : Proof H}

/-- With as many hashes as targets `Verify` stops exactly as `calculateHashes` does. -/
theorem verify_stop_iff (hlen : delHashes.length = proof.targets.length) (e : Stop) :
    verify s delHashes proof = .error e ↔
      calculateHashes s.numLeaves (some delHashes) proof = .error e := by
  rw [verify, if_neg (by simpa using hlen)]
  rcases calculateHashes s.numLeaves (some delHashes) proof with e' | ⟨inter, cands⟩
  · simp
  · simp only [Exec.ok_bind, reduceCtorEq, iff_false]
    split <;> simp

theorem Pollard.verify_stop_iff {M : Type} {p : Pollard H M} {remember : Bool}
    (hlen : delHashes.length = proof.targets.length) (hne : delHashes ≠ []) (e : Stop) :
    p.verify delHashes proof remember = .error e ↔
      calculateHashes p.numLeaves (some delHashes) proof = .error e := by
  rw [Pollard.verify, if_neg (by simpa using hne), if_neg (by simpa using hlen)]
  rcases calculateHashes p.numLeaves (some delHashes) proof with e' | ⟨inter, cands⟩
  · simp
  · simp only [Exec.ok_bind, reduceCtorEq, iff_false]
    split
    · simp
    · split <;> simp

/-- The second pass and the additions return whenever `Verify` does. -/
theorem Stump.update_stop_iff (hn : s.numLeaves < 2 ^ 64)
    (hroots : s.roots.length = numRoots s.numLeaves)
    (hlen : delHashes.length = proof.targets.length) (adds : List H) (e : Stop) :
    s.update delHashes adds proof = .error e ↔ verify s delHashes proof = .error e := by
  rcases hv : verify s delHashes proof with e' | err | idxs
  · simp [Stump.update, Stump.del, hv]
  · simp [Stump.update, Stump.del, hv]
  · simp only [reduceCtorEq, iff_false]
    obtain ⟨_, inter, cands, hcalc, _, hcount⟩ := verify_eq_ok hv
    obtain ⟨exprs, inter', rfl, hafter, _⟩ := calculateHashes_expr hlen hcalc
    have hdel : ∃ data, s.del delHashes proof = .ok
        ({ s with roots := setRoots s.roots idxs (exprs.map HashExpr.after) }, .ok data) := by
      rw [List.length_map] at hcount
      simp only [Stump.del, hv, Exec.ok_bind, hafter, List.length_map]
      rw [if_neg (by simpa using hcount)]
      exact ⟨_, rfl⟩
    obtain ⟨data, hdel⟩ := hdel
    obtain ⟨res, hadd⟩ := Stump.add_returns
      (s := { s with roots := setRoots s.roots idxs (exprs.map HashExpr.after) }) adds hn
      (by rw [length_rootRows, ← hroots, length_setRoots])
    simp [Stump.update, hdel, hadd]

/-- **When checking a proof returns.**  The rounds of `calculateHashes` end exactly if
some read is out of range or every target is reached, and `Verify` and `Update` return
exactly if no read is out of range and every target is reached; with a number of
hashes that is not that of the targets both return an error at once. -/
theorem proof_check_returns_iff (hn : s.numLeaves < 2 ^ 64)
    (hroots : s.roots.length = numRoots s.numLeaves) (delHashes adds : List H)
    (proof : Proof H) :
    (delHashes.length = proof.targets.length →
      ((∃ fuel, proofRounds s.numLeaves (some delHashes) proof fuel ≠ .error .diverge) ↔
        (LongEnough s.numLeaves proof → TargetsReached s.numLeaves proof))) ∧
    ((∃ res, verify s delHashes proof = .ok res) ↔
      (delHashes.length = proof.targets.length →
        LongEnough s.numLeaves proof ∧ TargetsReached s.numLeaves proof)) ∧
    ((∃ res, s.update delHashes adds proof = .ok res) ↔
      (delHashes.length = proof.targets.length →
        LongEnough s.numLeaves proof ∧ TargetsReached s.numLeaves proof)) := by
  by_cases hlen : delHashes.length = proof.targets.length
  · have hlen' : ∀ dels, some delHashes = some dels → dels.length = proof.targets.length := by
      rintro dels h
      cases h
      exact hlen
    have hverify : (∃ res, verify s delHashes proof = .ok res) ↔
        LongEnough s.numLeaves proof ∧ TargetsReached s.numLeaves proof := by
      rw [← calculateHashes_ok_iff hn hlen', Exec.ok_iff_not_error, Exec.ok_iff_not_error]
      simp only [ne_eq, verify_stop_iff hlen]
    have hupdate : (∃ res, s.update delHashes adds proof = .ok res) ↔
        ∃ res, verify s delHashes proof = .ok res := by
      rw [Exec.ok_iff_not_error, Exec.ok_iff_not_error]
      simp only [ne_eq, Stump.update_stop_iff hn hroots hlen]
    refine ⟨fun _ => ?_, hverify.trans (by simp [hlen]), ?_⟩
    · have hdiv := not_congr (proofRounds_diverge_iff hn hlen')
      push Not at hdiv
      exact hdiv
    · exact hupdate.trans (hverify.trans (by simp [hlen]))
  · have hv : verify s delHashes proof =
        .ok (.error (.lengths proof.targets.length delHashes.length)) := by
      rw [verify, if_pos hlen]
    refine ⟨fun h => absurd h hlen, ⟨fun _ h => absurd h hlen, fun _ => ⟨_, hv⟩⟩,
      ⟨fun _ h => absurd h hlen, fun _ => ?_⟩⟩
    simp [Stump.update, Stump.del, hv]

end Callers

section Instances
attribute [local instance] SortAlg.stable

/-- One leaf and the target 5, which no row reaches: the row counter wraps around for
ever. -/
theorem proof_check_never_ends :
    ([.leaf 0] : List FreeHash).length = numRoots 1 ∧
      (∀ fuel, proofRounds 1 (some [.leaf 0]) (⟨[5], []⟩ : Proof FreeHash) fuel =
        .error .diverge) ∧
      verify ⟨[.leaf 0], 1⟩ [.leaf 0] (⟨[5], []⟩ : Proof FreeHash) = .error .diverge ∧
      Stump.update ⟨[.leaf 0], 1⟩ [.leaf 0] [] (⟨[5], []⟩ : Proof FreeHash) =
        .error .diverge := by
  refine ⟨by decide, ?_, by decide +kernel, by decide +kernel⟩
  refine (proofRounds_diverge_iff (by decide) ?_).mpr ⟨by decide +kernel, by decide +kernel⟩
  rintro dels h
  cases h
  rfl

/-- The second of three leaves, with the hash of the first as its proof. -/
theorem proof_check_returns_second_of_three :
    (∃ res, verify ⟨[.node (.leaf 0) (.leaf 1), .leaf 2], 3⟩ [.leaf 1]
      (⟨[1], [.leaf 0]⟩ : Proof FreeHash) = .ok res) ∧
    ∃ res, Stump.update ⟨[.node (.leaf 0) (.leaf 1), .leaf 2], 3⟩ [.leaf 1] [.leaf 3]
      (⟨[1], [.leaf 0]⟩ : Proof FreeHash) = .ok res := by
  have h := proof_check_returns_iff
    (s := ⟨[.node (.leaf 0) (.leaf 1), .leaf 2], 3⟩) (by decide) (by decide)
    [.leaf 1] [.leaf 3] (⟨[1], [.leaf 0]⟩ : Proof FreeHash)
  have hok : LongEnough 3 (⟨[1], [.leaf 0]⟩ : Proof FreeHash) ∧
      TargetsReached 3 (⟨[1], [.leaf 0]⟩ : Proof FreeHash) := by decide +kernel
  exact ⟨h.2.1.mpr fun _ => hok, h.2.2.mpr fun _ => hok⟩

end Instances

section Reads
variable {H : Type} [DecidableEq H] [HashOps H] [SortAlg] {s : Stump H} {delHashes : List H}
  {proof : Proof H}

/-- How a call that checks a proof ends: it reads past the proof exactly if this is too short, and
it returns exactly if, besides, every target is reached. -/
structure CheckOutcome (n : Nat) (proof : Proof H) {α : Type} (call : Exec α) : Prop where
  inRange : call ≠ .error .panic ↔ LongEnough n proof
  returns : (∃ res, call = .ok res) ↔ LongEnough n proof ∧ TargetsReached n proof

omit [DecidableEq H] [HashOps H] [SortAlg] in
/-- Calls that stop in the same way have the same outcome. -/
theorem CheckOutcome.congr {n : Nat} {α β : Type} {call : Exec α} {call' : Exec β}
    (h : CheckOutcome n proof call) (hstop : ∀ e, call' = .error e ↔ call = .error e) :
    CheckOutcome n proof call' where
  inRange := by rw [← h.inRange, ne_eq, hstop]
  returns := by
    rw [← h.returns, Exec.ok_iff_not_error, Exec.ok_iff_not_error]
    simp only [ne_eq, hstop]

theorem checkOutcome_calculateHashes {n : Nat} {delHashes : Option (List H)} (hn : n < 2 ^ 64)
    (hlen : ∀ dels, delHashes = some dels → dels.length = proof.targets.length) :
    CheckOutcome n proof (calculateHashes n delHashes proof) :=
  ⟨(calculateHashes_panic_iff hn hlen).not_left, calculateHashes_ok_iff hn hlen⟩

/-- **When no read of the proof is out of range, and when the callers return.**  This is so for
`calculateHashes` with and without the hashes, and for its three callers. -/
theorem proof_reads_in_range_iff {M : Type} (hn : s.numLeaves < 2 ^ 64)
    (hroots : s.roots.length = numRoots s.numLeaves)
    (hlen : delHashes.length = proof.targets.length) (adds : List H) :
    CheckOutcome s.numLeaves proof (calculateHashes s.numLeaves (some delHashes) proof) ∧
    CheckOutcome s.numLeaves proof (calculateHashes s.numLeaves none proof) ∧
    CheckOutcome s.numLeaves proof (verify s delHashes proof) ∧
    CheckOutcome s.numLeaves proof (s.update delHashes adds proof) ∧
    ∀ p : Pollard H M, p.numLeaves = s.numLeaves → ∀ remember,
      CheckOutcome s.numLeaves proof (p.verify delHashes proof remember) := by
  have hcalc : CheckOutcome s.numLeaves proof
      (calculateHashes s.numLeaves (some delHashes) proof) := by
    refine checkOutcome_calculateHashes hn ?_
    rintro dels h
    cases h
    exact hlen
  have hverify := hcalc.congr (verify_stop_iff hlen)
  refine ⟨hcalc, checkOutcome_calculateHashes hn (fun _ h => by cases h), hverify, ?_, ?_⟩
  · exact hverify.congr (Stump.update_stop_iff hn hroots hlen adds)
  · rintro p hp remember
    by_cases hne : delHashes = []
    · -- Nothing to check: `Pollard.Verify` returns at once, and no hash is read.
      subst hne
      refine hcalc.congr fun e => ?_
      rw [calculateHashes_nil (List.eq_nil_of_length_eq_zero hlen.symm) rfl]
      simp [Pollard.verify]
    · refine hcalc.congr fun e => ?_
      rw [Pollard.verify_stop_iff hlen hne, hp]

end Reads

section Instances
attribute [local instance] SortAlg.stable

/-- Too few hashes: the first of two leaves without the hash of the second makes every caller read
past the proof.  A target outside the forest: with one leaf and the target 5 no caller returns. -/
theorem proof_read_out_of_range :
    (([.node (.leaf 0) (.leaf 1)] : List FreeHash).length = numRoots 2 ∧
      calculateHashes 2 (some [.leaf 0]) (⟨[0], []⟩ : Proof FreeHash) = .error .panic ∧
      verify ⟨[.node (.leaf 0) (.leaf 1)], 2⟩ [.leaf 0] (⟨[0], []⟩ : Proof FreeHash) =
        .error .panic ∧
      Stump.update ⟨[.node (.leaf 0) (.leaf 1)], 2⟩ [.leaf 0] [] (⟨[0], []⟩ : Proof FreeHash) =
        .error .panic ∧
      ∀ p : Pollard FreeHash FreeHash, p.numLeaves = 2 →
        p.verify [.leaf 0] ⟨[0], []⟩ false = .error .panic) ∧
    (([.leaf 0] : List FreeHash).length = numRoots 1 ∧
      (∀ fuel, proofRounds 1 (some [.leaf 0]) (⟨[5], []⟩ : Proof FreeHash) fuel =
        .error .diverge) ∧
      verify ⟨[.leaf 0], 1⟩ [.leaf 0] (⟨[5], []⟩ : Proof FreeHash) = .error .diverge ∧
      Stump.update ⟨[.leaf 0], 1⟩ [.leaf 0] [] (⟨[5], []⟩ : Proof FreeHash) = .error .diverge ∧
      ∀ p : Pollard FreeHash FreeHash, p.numLeaves = 1 →
        p.verify [.leaf 0] ⟨[5], []⟩ false = .error .diverge) := by
  refine ⟨⟨by decide, by decide +kernel, by decide +kernel, by decide +kernel, fun p hp => ?_⟩,
    by decide, ?_, by decide +kernel, by decide +kernel, fun p hp => ?_⟩
  · have hlen : [FreeHash.leaf 0].length = (⟨[0], []⟩ : Proof FreeHash).targets.length := rfl
    rw [Pollard.verify_stop_iff hlen (by simp), hp]
    decide +kernel
  · refine (proofRounds_diverge_iff (by decide) ?_).mpr ⟨by decide +kernel, by decide +kernel⟩
    rintro dels h
    cases h
    rfl
  · have hlen : [FreeHash.leaf 0].length = (⟨[5], []⟩ : Proof FreeHash).targets.length := rfl
    rw [Pollard.verify_stop_iff hlen (by simp), hp]
    decide +kernel

/-- The second of three leaves, with the hash of the first as its proof. -/
theorem proof_reads_in_range_second_of_three :
    (∃ res, verify ⟨[.node (.leaf 0) (.leaf 1), .leaf 2], 3⟩ [.leaf 1]
      (⟨[1], [.leaf 0]⟩ : Proof FreeHash) = .ok res) ∧
    (∃ res, Stump.update ⟨[.node (.leaf 0) (.leaf 1), .leaf 2], 3⟩ [.leaf 1] [.leaf 3]
      (⟨[1], [.leaf 0]⟩ : Proof FreeHash) = .ok res) ∧
    ∀ p : Pollard FreeHash FreeHash, p.numLeaves = 3 →
      ∃ res, p.verify [.leaf 1] ⟨[1], [.leaf 0]⟩ false = .ok res := by
  have hlen : [FreeHash.leaf 1].length =
      (⟨[1], [.leaf 0]⟩ : Proof FreeHash).targets.length := rfl
  have hok : LongEnough 3 (⟨[1], [.leaf 0]⟩ : Proof FreeHash) ∧
      TargetsReached 3 (⟨[1], [.leaf 0]⟩ : Proof FreeHash) := by decide +kernel
  obtain ⟨-, -, hverify, hupdate, hpollard⟩ := proof_reads_in_range_iff (M := FreeHash)
    (s := ⟨[.node (.leaf 0) (.leaf 1), .leaf 2], 3⟩) (by decide) (by decide) hlen [.leaf 3]
  exact ⟨hverify.returns.mpr hok, hupdate.returns.mpr hok,
    fun p hp => (hpollard p hp false).returns.mpr hok⟩

end Instances

end Utreexo
