import Utreexo.CalculateFlow
import Utreexo.Forest

/-! # The two passes of a deletion

`Stump.del` runs `calculateHashes` twice on one proof: once with the hashes of the
targets, to check the proof, and once with empty hashes in their place, to get the
roots after the deletion.  Both runs are images of a single run on expressions, in
which the hashes of the targets, the hashes of the proof and the combinations of
hashes are kept apart.

The main lemma is about one expression.  If its value `before` is the hash of a
tree, then the targets in it are distinct leaves of that tree, and its value
`after` is the hash of the tree without them.  Nothing is assumed of positions or
of the hashes of the proof.
-/
namespace Utreexo
open Merkle

/-- What `calculateHashes` computes, before any hash is evaluated. -/
inductive HashExpr (H : Type) where
  /-- The hash of a target. -/
  | target (h : H)
  /-- A hash of the proof. -/
  | given (h : H)
  /-- The hash of the parent of `pos`. -/
  | next (pos : Nat) (hash sibHash : HashExpr H)
  deriving DecidableEq, Repr

namespace HashExpr
variable {H : Type}

/-- The hashes of the targets in an expression. -/
def targets : HashExpr H → List H
  | target h => [h]
  | given _ => []
  | next _ a b => a.targets ++ b.targets

section Values
variable [DecidableEq H] [HashOps H]

/-- The value in the pass that checks the proof. -/
def before : HashExpr H → H
  | target h => h
  | given h => h
  | next pos a b => getNextHash pos a.before b.before

/-- The value in the pass that deletes the targets. -/
def after : HashExpr H → H
  | target _ => empty
  | given h => h
  | next pos a b => getNextHash pos a.after b.after

theorem before_next (pos : Nat) (a b : HashExpr H) :
    (next pos a b).before = getNextHash pos a.before b.before := rfl

theorem after_next (pos : Nat) (a b : HashExpr H) :
    (next pos a b).after = getNextHash pos a.after b.after := rfl

theorem getNextHash_empty_left (pos : Nat) (h : H) : getNextHash pos empty h = h := by
  simp [getNextHash]

theorem getNextHash_empty_right (pos : Nat) (h : H) : getNextHash pos h empty = h := by
  by_cases hh : h = empty <;> simp [getNextHash, hh]

/-- The parent's hash combines the children's, whichever child `pos` is. -/
theorem getNextHash_eq_combine (pos : Nat) (a b : H) :
    getNextHash pos a b = if isLeftNiece pos then combine a b else combine b a := by
  by_cases ha : a = empty <;> by_cases hb : b = empty <;> by_cases hp : isLeftNiece pos <;>
    simp [getNextHash, combine, ha, hb, hp]

variable {leaf : H → Prop}

theorem combine_eq_empty (hi : IdealHash H leaf) {a b : H} :
    combine a b = empty ↔ a = empty ∧ b = empty := by
  by_cases ha : a = empty <;> by_cases hb : b = empty <;> simp [combine, ha, hb, hi.ne_empty]

theorem getNextHash_eq_empty (hi : IdealHash H leaf) {pos : Nat} {a b : H} :
    getNextHash pos a b = empty ↔ a = empty ∧ b = empty := by
  rw [getNextHash_eq_combine]
  split
  · exact combine_eq_empty hi
  · rw [combine_eq_empty hi, and_comm]

/-- An expression with an empty value has no target in it. -/
theorem of_before_eq_empty (hi : IdealHash H leaf) {e : HashExpr H}
    (ht : ∀ h ∈ e.targets, h ≠ empty) (h0 : e.before = empty) :
    e.targets = [] ∧ e.after = empty := by
  induction e with
  | target h => exact absurd h0 (ht h (by simp [targets]))
  | given h => exact ⟨rfl, h0⟩
  | next pos a b iha ihb =>
    obtain ⟨ha, hb⟩ := (getNextHash_eq_empty hi).mp h0
    obtain ⟨ta, aa⟩ := iha (fun h hh => ht h (by simp [targets, hh])) ha
    obtain ⟨tb, ab⟩ := ihb (fun h hh => ht h (by simp [targets, hh])) hb
    exact ⟨by simp [targets, ta, tb], by rw [after, aa, ab, getNextHash_empty_left]⟩

/-- What the targets of an expression are in a tree: distinct leaves, and the value
after the deletion is the hash of the tree without them. -/
structure Deletes (e : HashExpr H) (t : CTree H) : Prop where
  subset : ∀ h ∈ e.targets, h ∈ t.leaves
  nodup : e.targets.Nodup
  after_eq : e.after = hashOpt (t.prune fun h => decide (h ∈ e.targets))

/-- Two children that delete from disjoint trees, and the node above them. -/
theorem Deletes.node (hi : IdealHash H leaf) {a b e : HashExpr H} {l r : CTree H}
    (ha : Deletes a l) (hb : Deletes b r)
    (hne : ∀ h ∈ (CTree.node l r).leaves, h ≠ empty) (hnd : (CTree.node l r).leaves.Nodup)
    (htargets : e.targets.Perm (a.targets ++ b.targets))
    (hafter : e.after = combine a.after b.after) : Deletes e (.node l r) := by
  rw [CTree.leaves, List.nodup_append] at hnd
  obtain ⟨_, _, hdisj⟩ := hnd
  have hmem : ∀ h, h ∈ e.targets ↔ h ∈ a.targets ∨ h ∈ b.targets := by
    intro h
    rw [htargets.mem_iff, List.mem_append]
  refine ⟨?_, ?_, ?_⟩
  · intro h hh
    rw [CTree.leaves, List.mem_append]
    exact ((hmem h).mp hh).imp (ha.subset h) (hb.subset h)
  · rw [htargets.nodup_iff, List.nodup_append]
    exact ⟨ha.nodup, hb.nodup, fun x hx y hy => hdisj x (ha.subset x hx) y (hb.subset y hy)⟩
  · -- On either side only that side's targets count.
    have hl : l.prune (fun h => decide (h ∈ e.targets)) =
        l.prune fun h => decide (h ∈ a.targets) := by
      refine CTree.prune_congr fun h hh => decide_eq_decide.mpr ?_
      rw [hmem]
      exact or_iff_left fun hb' => hdisj h hh h (hb.subset h hb') rfl
    have hr : r.prune (fun h => decide (h ∈ e.targets)) =
        r.prune fun h => decide (h ∈ b.targets) := by
      refine CTree.prune_congr fun h hh => decide_eq_decide.mpr ?_
      rw [hmem]
      exact or_iff_right fun ha' => hdisj h (ha.subset h ha') h hh rfl
    have hleaf : ∀ (dead : H → Bool) (t : CTree H), (∀ h ∈ t.leaves, h ≠ empty) →
        ∀ h ∈ CTree.leavesOpt (t.prune dead), h ≠ empty := by
      intro dead t ht h hh
      rw [CTree.leavesOpt_prune] at hh
      exact ht h (List.mem_filter.mp hh).1
    rw [CTree.prune, hl, hr, hashOpt_join hi (hleaf _ l fun h hh => hne h
      (by simp [CTree.leaves, hh]))
      (hleaf _ r fun h hh => hne h (by simp [CTree.leaves, hh])), ← ha.after_eq, ← hb.after_eq,
      hafter]

/-- **One expression.**  An expression whose value is the hash of a tree deletes its
targets from that tree. -/
theorem deletes_of_before_eq (hi : IdealHash H leaf) {e : HashExpr H} {t : CTree H}
    (htar : ∀ h ∈ e.targets, h ≠ empty ∧ leaf h) (ht : ∀ h ∈ t.leaves, h ≠ empty ∧ leaf h)
    (hnd : t.leaves.Nodup) (heq : e.before = treeHash t) : Deletes e t := by
  induction e generalizing t with
  | target h =>
    -- The hash of a node is no leaf's hash, so the tree is the leaf itself.
    cases t with
    | leaf a =>
      obtain rfl : h = a := heq
      exact ⟨by simp [targets, CTree.leaves], by simp [targets],
        by simp [after, CTree.prune, targets]⟩
    | node l r =>
      refine absurd (htar h (by simp [targets])).2 ?_
      rw [show h = parentHash (treeHash l) (treeHash r) from heq]
      exact hi.not_leaf _ _
  | given h =>
    refine ⟨by simp [targets], by simp [targets], ?_⟩
    rw [CTree.prune_of_none_dead (by simp [targets])]
    exact heq
  | next pos a b iha ihb =>
    have hta : ∀ h ∈ a.targets, h ≠ empty ∧ leaf h := fun h hh => htar h (by simp [targets, hh])
    have htb : ∀ h ∈ b.targets, h ≠ empty ∧ leaf h := fun h hh => htar h (by simp [targets, hh])
    by_cases ha : a.before = empty
    · -- An empty side leaves the other one as it is, in both passes.
      obtain ⟨ta, aa⟩ := of_before_eq_empty hi (fun h hh => (hta h hh).1) ha
      rw [before, ha, getNextHash_empty_left] at heq
      have hb := ihb htb ht hnd heq
      have htg : (next pos a b).targets = b.targets := by simp [targets, ta]
      refine ⟨htg ▸ hb.subset, htg ▸ hb.nodup, ?_⟩
      rw [htg, after, aa, getNextHash_empty_left]
      exact hb.after_eq
    by_cases hb : b.before = empty
    · obtain ⟨tb, ab⟩ := of_before_eq_empty hi (fun h hh => (htb h hh).1) hb
      rw [before, hb, getNextHash_empty_right] at heq
      have ha := iha hta ht hnd heq
      have htg : (next pos a b).targets = a.targets := by simp [targets, tb]
      refine ⟨htg ▸ ha.subset, htg ▸ ha.nodup, ?_⟩
      rw [htg, after, ab, getNextHash_empty_right]
      exact ha.after_eq
    · -- Neither side is empty: the value is a `parentHash`, so the tree is a node.
      have hne : ∀ h ∈ t.leaves, h ≠ empty := fun h hh => (ht h hh).1
      rw [before, getNextHash_eq_combine] at heq
      cases t with
      | leaf x =>
        refine absurd (ht x (by simp [CTree.leaves])).2 ?_
        rw [show x = treeHash (.leaf x) from rfl, ← heq]
        split <;> simp [combine, ha, hb, hi.not_leaf]
      | node l r =>
        have hl : ∀ h ∈ l.leaves, h ≠ empty ∧ leaf h :=
          fun h hh => ht h (by simp [CTree.leaves, hh])
        have hr : ∀ h ∈ r.leaves, h ≠ empty ∧ leaf h :=
          fun h hh => ht h (by simp [CTree.leaves, hh])
        have hnd' := hnd
        rw [CTree.leaves, List.nodup_append] at hnd'
        obtain ⟨hndl, hndr, _⟩ := hnd'
        by_cases hp : isLeftNiece pos
        · rw [if_pos hp, combine, if_neg ha, if_neg hb] at heq
          obtain ⟨hla, hrb⟩ := hi.inj heq
          refine Deletes.node hi (iha hta hl hndl hla) (ihb htb hr hndr hrb) hne hnd
            (List.Perm.refl _) ?_
          rw [after, getNextHash_eq_combine, if_pos hp]
        · rw [if_neg hp, combine, if_neg hb, if_neg ha] at heq
          obtain ⟨hlb, hra⟩ := hi.inj heq
          refine Deletes.node hi (ihb htb hl hndl hlb) (iha hta hr hndr hra) hne hnd
            List.perm_append_comm ?_
          rw [after, getNextHash_eq_combine, if_neg hp]

end Values
end HashExpr

/-! ### The run on expressions -/

section Run
variable {H : Type}

/-- The targets in the expressions of a state, on their way to the roots. -/
def CalcState.targets (st : CalcState (HashExpr H)) : List H :=
  st.toProve.flatMap (·.2.targets) ++ st.queue.flatMap (·.2.targets) ++
    st.roots.flatMap HashExpr.targets

/-- What the rounds keep: the row stays in the forest, the rest of the proof has no
targets in it, and every target is in a queue or under a root, once. -/
structure CalcState.Carries (totalRows : Nat) (hashes : List H)
    (st : CalcState (HashExpr H)) : Prop where
  row_le : st.row ≤ totalRows
  proof_given : ∀ e ∈ st.proof, e.targets = []
  targets_perm : st.targets.Perm hashes

/-- Taking the front of a queue takes its targets out of the state. -/
theorem CalcState.take_targets {st st1 : CalcState (HashExpr H)} {i : Source} {e : HashExpr H}
    (ht : st.take i = .ok (e, st1)) :
    st.targets.Perm (e.targets ++ st1.targets) ∧ st1.proof = st.proof := by
  cases i with
  | slice1 =>
    cases htp : st.toProve with
    | nil => simp [CalcState.take, htp] at ht
    | cons x tp =>
      simp only [CalcState.take, htp] at ht
      cases ht
      simp [CalcState.targets, htp]
  | slice2 =>
    cases htp : st.queue with
    | nil => simp [CalcState.take, htp] at ht
    | cons x tp =>
      simp only [CalcState.take, htp] at ht
      cases ht
      refine ⟨?_, rfl⟩
      simp only [CalcState.targets, htp, List.flatMap_cons, List.append_assoc]
      exact List.perm_append_comm_assoc _ _ _

theorem CalcState.takeSib_targets (st : CalcState (HashExpr H)) {st1 : CalcState (HashExpr H)}
    {sib : Option Source} {e : HashExpr H} (hp : ∀ e ∈ st.proof, e.targets = [])
    (ht : st.takeSib sib = .ok (e, st1)) :
    st.targets.Perm (e.targets ++ st1.targets) ∧ ∀ e ∈ st1.proof, e.targets = [] := by
  cases sib with
  | some i =>
    obtain ⟨hperm, hproof⟩ := CalcState.take_targets ht
    exact ⟨hperm, hproof ▸ hp⟩
  | none =>
    cases hpr : st.proof with
    | nil => simp [CalcState.takeSib, CalcState.takeProof, hpr] at ht
    | cons x rest =>
      simp only [CalcState.takeSib, CalcState.takeProof, hpr] at ht
      cases ht
      rw [hpr] at hp
      refine ⟨?_, fun e he => hp e (by simp [he])⟩
      rw [hp e (by simp)]
      exact List.Perm.refl _

theorem CalcState.push_targets (st : CalcState (HashExpr H)) (pos : Nat) (e : HashExpr H) :
    (st.push pos e).targets.Perm (e.targets ++ st.targets) := by
  simp only [CalcState.targets, CalcState.push, List.flatMap_append, List.flatMap_cons,
    List.flatMap_nil, List.append_nil, List.append_assoc]
  exact (List.Perm.append_left _ (List.perm_append_comm_assoc _ _ _)).trans
    (List.perm_append_comm_assoc _ _ _)

/-- One round keeps the invariant. -/
theorem calcStep_carries {numLeaves totalRows fuel : Nat} {hashes : List H}
    {st st' : CalcState (HashExpr H)} (hc : st.Carries totalRows hashes)
    (h : calcStep HashExpr.next numLeaves totalRows fuel st = .ok (some st')) :
    st'.Carries totalRows hashes := by
  have hrow := calcStep_row h
  obtain ⟨_, pos, idx, sib, e, st1, row, _, ht, _, hcase⟩ := calcStep_cases h
  obtain ⟨hperm, hproof⟩ := CalcState.take_targets ht
  have hp1 : ∀ e ∈ st1.proof, e.targets = [] := hproof ▸ hc.proof_given
  have h1 : (e.targets ++ st1.targets).Perm hashes := hperm.symm.trans hc.targets_perm
  rcases hcase with ⟨_, rfl⟩ | ⟨_, e', st2, hsib, rfl⟩
  · refine ⟨hrow, hp1, List.Perm.trans ?_ h1⟩
    simp only [CalcState.targets, List.flatMap_append, List.flatMap_singleton]
    rw [← List.append_assoc]
    exact List.perm_append_comm
  · obtain ⟨hperm2, hp2⟩ := CalcState.takeSib_targets { st1 with row := row } hp1 hsib
    refine ⟨hrow, hp2, (CalcState.push_targets _ _ _).trans (List.Perm.trans ?_ h1)⟩
    rw [HashExpr.targets, List.append_assoc]
    exact hperm2.symm.append_left _

/-- **When the loop ends, the targets are under the roots.** -/
theorem calcLoop_targets {numLeaves totalRows fuel : Nat} {toProve : List (Nat × H)}
    {proof : List H} {fin : CalcState (HashExpr H)}
    (h : calcLoop HashExpr.next numLeaves totalRows fuel
      (CalcState.start (toProve.map (Prod.map id .target)) (proof.map .given)) = .ok fin) :
    (fin.roots.flatMap HashExpr.targets).Perm (toProve.map Prod.snd) := by
  have hstart : (CalcState.start (toProve.map (Prod.map id HashExpr.target))
      (proof.map HashExpr.given)).Carries totalRows (toProve.map Prod.snd) := by
    refine ⟨Nat.zero_le _, ?_, ?_⟩
    · simp [CalcState.start, HashExpr.targets]
    · simp only [CalcState.targets, CalcState.start, List.flatMap_map, Prod.map_snd,
        HashExpr.targets, List.flatMap_nil, List.append_nil]
      rw [List.map_eq_flatMap]
  obtain ⟨hc, fuel', hn⟩ := calcLoop_invariant (fun st => st.Carries totalRows _)
    (fun hc hs => calcStep_carries hc hs) hstart h
  rcases calcStep_none hn with hgt | ⟨htp, hq⟩
  · exact absurd hc.row_le (by omega)
  · simpa [CalcState.targets, htp, hq] using hc.targets_perm

end Run

/-! ### The two passes -/

section Passes
variable {H : Type} [SortAlg]

/-- Sorting does not look at the hashes: with one hash for all targets, the sorted
pairs are those of any other run with the hashes replaced. -/
theorem toHashAndPos_replicate {targets : List Nat} {hashes : List H} (x : H)
    (hlen : hashes.length = targets.length) :
    toHashAndPos targets (List.replicate targets.length x) =
      (toHashAndPos targets hashes).map (Prod.map id fun _ => x) := by
  have hzip : targets.zip (List.replicate targets.length x) =
      (targets.zip hashes).map (Prod.map id fun _ => x) := by
    rw [← List.zip_map_right, List.map_const', hlen]
  have hsnd : ∀ e ∈ toHashAndPos targets (List.replicate targets.length x), e.2 = x := by
    intro e he
    have he' := (SortAlg.perm Prod.fst _).mem_iff.mp he
    exact (List.mem_replicate.mp (List.of_mem_zip he').2).2
  have hsorted : (toHashAndPos targets (List.replicate targets.length x)).Pairwise
      (fun a b => a.1 ≤ b.1) := SortAlg.sorted _ _
  refine List.Perm.eq_of_pairwise ?_ hsorted ?_ ?_
  · intro a b ha hb hab hba
    obtain ⟨b', _, rfl⟩ := List.mem_map.mp hb
    exact Prod.ext (Nat.le_antisymm hab hba) (hsnd a ha)
  · exact List.pairwise_map.mpr (SortAlg.sorted _ _)
  · refine (SortAlg.perm _ _).trans ?_
    rw [hzip]
    exact ((SortAlg.perm _ _).map _).symm

variable [DecidableEq H] [HashOps H]

/-- **Both passes are one run.**  When the pass with the targets' hashes returns,
the pass with empty hashes returns as well, and the roots of both are the values
of the same expressions. -/
theorem calculateHashes_expr {numLeaves : Nat} {delHashes : List H} {proof : Proof H}
    (hlen : delHashes.length = proof.targets.length) {inter : List (Nat × H)} {cands : List H}
    (h : calculateHashes numLeaves (some delHashes) proof = .ok (inter, cands)) :
    ∃ (exprs : List (HashExpr H)) (inter' : List (Nat × H)),
      cands = exprs.map HashExpr.before ∧
      calculateHashes numLeaves none proof = .ok (inter', exprs.map HashExpr.after) ∧
      (exprs.flatMap HashExpr.targets).Perm delHashes := by
  obtain ⟨st, hst, h⟩ := Exec.bind_eq_ok.mp h
  cases h
  set toProve := toHashAndPos proof.targets delHashes with htp
  let start : CalcState (HashExpr H) :=
    CalcState.start (toProve.map (Prod.map id .target)) (proof.proof.map .given)
  have hbefore : start.map HashExpr.before = CalcState.start toProve proof.proof := by
    simp [start, CalcState.map, CalcState.start, HashExpr.before, Function.comp_def, Prod.map]
  have hafter : start.map HashExpr.after =
      CalcState.start (toProve.map (Prod.map id fun _ => empty)) proof.proof := by
    simp [start, CalcState.map, CalcState.start, HashExpr.after, Function.comp_def, Prod.map]
  have run := calcLoop_map HashExpr.before_next numLeaves (treeRows numLeaves) (calcFuel proof)
    start
  have run' := calcLoop_map HashExpr.after_next numLeaves (treeRows numLeaves) (calcFuel proof)
    start
  rw [hbefore, show calcLoop getNextHash numLeaves (treeRows numLeaves) (calcFuel proof)
    (CalcState.start toProve proof.proof) = .ok st from hst] at run
  cases hfin : calcLoop HashExpr.next numLeaves (treeRows numLeaves) (calcFuel proof) start with
  | error e => rw [hfin] at run; cases run
  | ok fin =>
    rw [hfin] at run run'
    cases run
    refine ⟨fin.roots, mergeSortedHashAndPos (fin.map HashExpr.after).nextProves
      (toProve.map (Prod.map id fun _ => empty)), rfl, ?_, ?_⟩
    · rw [calculateHashes]
      simp only [Option.getD_none]
      rw [toHashAndPos_replicate empty hlen, ← htp, ← hafter, run']
      rfl
    · refine (calcLoop_targets hfin).trans ?_
      refine ((SortAlg.perm _ _).map _).trans ?_
      rw [List.map_snd_zip (by omega)]

end Passes

end Utreexo
