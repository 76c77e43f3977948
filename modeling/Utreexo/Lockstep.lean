import Utreexo.ForestPos

/-! # The two row loops in lockstep

`proofPositions` and `calculateHashes` walk the same two queues.  They find the
row of a position differently, `proofPositions` among all positions that a forest
with that many rows can have and `calculateHashes` among those that the leaves
fill, but they agree on which positions are roots.  So the positions listed by the
first are those of the hashes that the second takes from the proof, up to the point
where the second one gets stuck.

The targets are any sorted list of words here: repeated ones, ancestors of one
another and positions outside the forest are all allowed.
-/
namespace Utreexo
open Merkle

/-! ### Taking the next position -/

namespace PosState
variable (ps : PosState)

/-- One of the two queues. -/
def slice : Source → List Nat
  | .slice1 => ps.targets
  | .slice2 => ps.queue

/-- All positions still to be visited. -/
def pending : List Nat := ps.targets ++ ps.queue

/-- The queues without the next position and its sibling, if that is next. -/
def after (idx : Source) : Option Source → PosState
  | some i => (ps.drop idx).drop i
  | none => ps.drop idx

variable {ps}

theorem mem_slice {i : Source} {p : Nat} (h : p ∈ ps.slice i) : p ∈ ps.pending := by
  cases i with
  | slice1 => exact List.mem_append_left _ h
  | slice2 => exact List.mem_append_right _ h

/-- The queues of one state are parts of those of another. -/
structure Sub (ps' ps : PosState) : Prop where
  targets : ps'.targets.Sublist ps.targets
  queue : ps'.queue.Sublist ps.queue

theorem Sub.pending {ps' : PosState} (h : ps'.Sub ps) : ∀ p ∈ ps'.pending, p ∈ ps.pending := by
  intro p hp
  rcases List.mem_append.mp hp with hp | hp
  · exact List.mem_append_left _ (h.targets.subset hp)
  · exact List.mem_append_right _ (h.queue.subset hp)

theorem sub_drop (ps : PosState) (i : Source) : (ps.drop i).Sub ps := by
  cases i with
  | slice1 => exact ⟨List.tail_sublist _, List.Sublist.refl _⟩
  | slice2 => exact ⟨List.Sublist.refl _, List.tail_sublist _⟩

theorem sub_after (ps : PosState) (idx : Source) (sib : Option Source) :
    (ps.after idx sib).Sub ps := by
  cases sib with
  | none => exact sub_drop ps idx
  | some i =>
    have h1 := sub_drop (ps.drop idx) i
    have h2 := sub_drop ps idx
    exact ⟨h1.targets.trans h2.targets, h1.queue.trans h2.queue⟩

end PosState

theorem nextLeastSlice_eq_none {A B : List Nat} : nextLeastSlice A B = none ↔ A = [] ∧ B = [] := by
  rcases A with _ | ⟨a, A⟩ <;> rcases B with _ | ⟨b, B⟩ <;> simp [nextLeastSlice]
  split <;> simp

/-- The slice with the lesser front has a front, and it is the least. -/
theorem nextLeastSlice_some {ps : PosState} {i : Source}
    (h : nextLeastSlice ps.targets ps.queue = some i) :
    ∃ p rest, ps.slice i = p :: rest ∧ (∀ q ∈ ps.targets.head?, p ≤ q) ∧
      ∀ q ∈ ps.queue.head?, p ≤ q := by
  obtain ⟨row, A, B, nt, pp⟩ := ps
  rcases A with _ | ⟨a, A⟩ <;> rcases B with _ | ⟨b, B⟩ <;>
    simp only [nextLeastSlice, Option.some.injEq, reduceCtorEq] at h
  · subst h
    exact ⟨b, B, rfl, by simp, by simp⟩
  · subst h
    exact ⟨a, A, rfl, by simp, by simp⟩
  · by_cases hab : a < b
    · rw [if_pos hab, Option.some.injEq] at h
      subst h
      exact ⟨a, A, rfl, by simp, by simp; omega⟩
    · rw [if_neg hab, Option.some.injEq] at h
      subst h
      exact ⟨b, B, rfl, by simp; omega, by simp⟩

/-- What `getNextPos` returns: the front of a slice that is the least of both, and
the slice that the sibling is at the front of once it has been taken. -/
theorem getNextPos_some {ps : PosState} {p : Nat} {idx : Source} {sib : Option Source}
    (h : getNextPos ps.targets ps.queue = some (p, idx, sib)) :
    (∃ rest, ps.slice idx = p :: rest) ∧ (∀ q ∈ ps.targets.head?, p ≤ q) ∧
      (∀ q ∈ ps.queue.head?, p ≤ q) ∧
      sib = nextSibling p (ps.drop idx).targets (ps.drop idx).queue := by
  cases hi : nextLeastSlice ps.targets ps.queue with
  | none =>
    obtain ⟨h1, h2⟩ := nextLeastSlice_eq_none.mp hi
    simp [getNextPos, h1, h2, nextLeastSlice] at h
  | some i =>
    obtain ⟨q, rest, hq, h1, h2⟩ := nextLeastSlice_some hi
    unfold getNextPos at h
    rw [hi] at h
    cases i with
    | slice1 =>
      simp only [PosState.slice] at hq
      rw [hq] at h
      simp only [Option.some.injEq, Prod.mk.injEq] at h
      obtain ⟨rfl, rfl, rfl⟩ := h
      exact ⟨⟨rest, hq⟩, h1, h2, by simp [PosState.drop, hq]⟩
    | slice2 =>
      simp only [PosState.slice] at hq
      rw [hq] at h
      simp only [Option.some.injEq, Prod.mk.injEq] at h
      obtain ⟨rfl, rfl, rfl⟩ := h
      exact ⟨⟨rest, hq⟩, h1, h2, by simp [PosState.drop, hq]⟩

theorem nextSibling_some {ps : PosState} {p : Nat} {i : Source}
    (h : nextSibling p ps.targets ps.queue = some i) :
    ∃ rest, ps.slice i = rightSib p :: rest := by
  unfold nextSibling at h
  cases hi : nextLeastSlice ps.targets ps.queue with
  | none => rw [hi] at h; cases h
  | some j =>
    obtain ⟨q, rest, hq, _, _⟩ := nextLeastSlice_some hi
    rw [hi] at h
    cases j <;>
    · simp only [PosState.slice] at hq
      rw [hq] at h
      simp only [List.head?_cons, Option.some.injEq] at h
      split at h
      · rename_i heq
        cases h
        exact ⟨rest, by rw [← heq]; exact hq⟩
      · cases h

/-- The position at the front of a slice, and the rest. -/
theorem PosState.mem_pending_of_slice {ps : PosState} {i : Source} {p : Nat} {rest : List Nat}
    (hs : ps.slice i = p :: rest) (q : Nat) :
    q ∈ ps.pending ↔ q = p ∨ q ∈ (ps.drop i).pending := by
  cases i with
  | slice1 =>
    simp only [PosState.slice] at hs
    simp [PosState.pending, PosState.drop, hs]
  | slice2 =>
    simp only [PosState.slice] at hs
    simp [PosState.pending, PosState.drop, hs, or_left_comm]

/-- The next position, its sibling if that is next, and the rest. -/
theorem forall_pending_iff {ps : PosState} {p : Nat} {idx : Source} {sib : Option Source}
    (h : getNextPos ps.targets ps.queue = some (p, idx, sib)) (P : Nat → Prop) :
    (∀ q ∈ ps.pending, P q) ↔
      P p ∧ (sib.isSome = true → P (rightSib p)) ∧ ∀ q ∈ (ps.after idx sib).pending, P q := by
  obtain ⟨⟨rest, hs⟩, _, _, hsib⟩ := getNextPos_some h
  have h1 := PosState.mem_pending_of_slice hs
  cases sib with
  | none => simp [h1, PosState.after]
  | some i =>
    obtain ⟨rest2, hs2⟩ := nextSibling_some hsib.symm
    have h2 := PosState.mem_pending_of_slice hs2
    simp [h1, h2, PosState.after]

theorem getNextPos_none {ps : PosState} (h : getNextPos ps.targets ps.queue = none) :
    ps.targets = [] ∧ ps.queue = [] := by
  cases hi : nextLeastSlice ps.targets ps.queue with
  | none => exact nextLeastSlice_eq_none.mp hi
  | some i =>
    exfalso
    obtain ⟨q, rest, hq, _, _⟩ := nextLeastSlice_some hi
    unfold getNextPos at h
    rw [hi] at h
    cases i <;>
    · simp only [PosState.slice] at hq
      rw [hq] at h
      simp at h

/-! ### Related states -/

section Lock
variable {H : Type}

/-- The queues hold the same positions. -/
structure Lock (st : CalcState H) (ps : PosState) : Prop where
  targets : st.toProve.map Prod.fst = ps.targets
  queue : st.queue.map Prod.fst = ps.queue

/-- Taking from a queue that is not empty. -/
theorem Lock.take {st : CalcState H} {ps : PosState} (hl : Lock st ps) {i : Source} {p : Nat}
    {rest : List Nat} (hs : ps.slice i = p :: rest) :
    ∃ h st1, st.take i = .ok (h, st1) ∧ Lock st1 (ps.drop i) ∧ st1.row = st.row ∧
      st1.proof = st.proof ∧
      st1.toProve.length + st1.queue.length + 1 = st.toProve.length + st.queue.length := by
  cases i with
  | slice1 =>
    have ht := hl.targets
    simp only [PosState.slice] at hs
    rw [hs, List.map_eq_cons_iff] at ht
    obtain ⟨e, tp, htp, _, hrest⟩ := ht
    refine ⟨e.2, { st with toProve := tp }, by simp [CalcState.take, htp], ⟨?_, hl.queue⟩, rfl,
      rfl, by simp [htp]; omega⟩
    simp [PosState.drop, hs, hrest]
  | slice2 =>
    have ht := hl.queue
    simp only [PosState.slice] at hs
    rw [hs, List.map_eq_cons_iff] at ht
    obtain ⟨e, tp, htp, _, hrest⟩ := ht
    refine ⟨e.2, { st with queue := tp }, by simp [CalcState.take, htp], ⟨hl.targets, ?_⟩, rfl,
      rfl, by simp [htp]; omega⟩
    simp [PosState.drop, hs, hrest]

theorem Lock.withRow {st : CalcState H} {ps : PosState} (hl : Lock st ps) (r r' : Nat) :
    Lock { st with row := r } { ps with row := r' } := ⟨hl.targets, hl.queue⟩

theorem Lock.push {st : CalcState H} {ps : PosState} (hl : Lock st ps) (p : Nat) (h : H) :
    Lock (st.push p h) (ps.push p) :=
  ⟨hl.targets, by simp [CalcState.push, PosState.push, hl.queue]⟩

/-- The rounds that the queues of a state can still last. -/
def CalcState.load (st : CalcState H) : Nat := st.toProve.length + st.queue.length

/-- What a round makes of a state, given the position it takes and its row: it
records a root, or it queues the parent with the sibling's hash from a queue or from
the proof, or the proof has no hash left. -/
theorem calcStep_round (next : Nat → H → H → H) {n k fuel p row : Nat} {idx : Source}
    {sib : Option Source} {st : CalcState H} {ps : PosState} (hl : Lock st ps) (hrow : st.row ≤ k)
    (hnext : getNextPos ps.targets ps.queue = some (p, idx, sib))
    (hrl : rowLoop p k n fuel st.row = .ok row) :
    (isRootPositionOnRow p n row = true ∧ ∃ st', calcStep next n k fuel st = .ok (some st') ∧
      Lock st' (ps.drop idx) ∧ st'.row = row ∧ st'.proof = st.proof ∧ st'.load + 1 = st.load) ∨
    (isRootPositionOnRow p n row = false ∧ sib.isSome = true ∧
      ∃ st', calcStep next n k fuel st = .ok (some st') ∧
        Lock st' ((ps.after idx sib).push (parent p k)) ∧ st'.row = row ∧ st'.proof = st.proof ∧
        st'.load + 1 = st.load) ∨
    (isRootPositionOnRow p n row = false ∧ sib = none ∧
      ((st.proof = [] ∧ calcStep next n k fuel st = .error .panic) ∨
        ∃ st', calcStep next n k fuel st = .ok (some st') ∧
          Lock st' ((ps.after idx sib).push (parent p k)) ∧ st'.row = row ∧
          st'.proof.length + 1 = st.proof.length ∧ st'.load = st.load)) := by
  obtain ⟨⟨rest, hs⟩, _, _, hsib⟩ := getNextPos_some hnext
  obtain ⟨h, st1, htake, hl1, hrow1, hproof1, hload1⟩ := hl.take hs
  rw [← hl.targets, ← hl.queue] at hnext
  rw [← hrow1] at hrl
  have hstep : calcStep next n k fuel st =
      if isRootPositionOnRow p n row = true then
        .ok (some { st1 with row := row, roots := st1.roots ++ [h] })
      else ({ st1 with row := row } : CalcState H).takeSib sib >>= fun r =>
        .ok (some (r.2.push (parent p k) (next p h r.1))) := by
    unfold calcStep
    rw [if_neg (by omega), hnext]
    simp only [htake, Exec.ok_bind, hrl]
  rw [hstep]
  by_cases hroot : isRootPositionOnRow p n row = true
  · refine Or.inl ⟨hroot, _, if_pos hroot, ⟨hl1.targets, hl1.queue⟩, rfl, hproof1, hload1⟩
  · refine Or.inr ?_
    rw [if_neg hroot]
    rw [Bool.not_eq_true] at hroot
    cases hsib' : sib with
    | some i =>
      rw [hsib'] at hsib
      obtain ⟨rest2, hs2⟩ := nextSibling_some hsib.symm
      obtain ⟨h2, st2, htake2, hl2, hrow2, hproof2, hload2⟩ := (hl1.withRow row 0).take
        (show PosState.slice _ i = rightSib p :: rest2 by cases i <;> exact hs2)
      refine Or.inl ⟨hroot, rfl, st2.push (parent p k) (next p h h2), ?_, ?_, hrow2, ?_, ?_⟩
      · rw [CalcState.takeSib, htake2]
        rfl
      · have hl2' : Lock st2 ((ps.drop idx).drop i) := by
          cases i <;> exact ⟨hl2.targets, hl2.queue⟩
        exact hl2'.push _ _
      · exact hproof2.trans hproof1
      · simp only [CalcState.load, CalcState.push, List.length_append, List.length_singleton] at *
        omega
    | none =>
      refine Or.inr ⟨hroot, rfl, ?_⟩
      rw [CalcState.takeSib, CalcState.takeProof]
      cases hpr : st1.proof with
      | nil => exact Or.inl ⟨hproof1.symm.trans hpr, by simp⟩
      | cons x rest2 =>
        have hl2 : Lock { st1 with row := row, proof := rest2 } (ps.drop idx) :=
          ⟨hl1.targets, hl1.queue⟩
        refine Or.inr ⟨_, rfl, hl2.push _ _, rfl, ?_, ?_⟩
        · rw [← hproof1, hpr]
          rfl
        · simp only [CalcState.load, CalcState.push, List.length_append, List.length_singleton]
          omega

end Lock

/-- The same for a round of `proofPositions`. -/
theorem posStep_round {n k fuel p row : Nat} {idx : Source} {sib : Option Source} {ps : PosState}
    (hrow : ps.row ≤ k) (hnext : getNextPos ps.targets ps.queue = some (p, idx, sib))
    (hrl : possibleRowLoop p k fuel ps.row = .ok row) :
    (k < row ∧ posStep n k fuel ps = .ok none) ∨
    (row ≤ k ∧ isRootPositionOnRowTotalRows p n row k = true ∧
      posStep n k fuel ps = .ok (some { ps.drop idx with row := row })) ∨
    (row ≤ k ∧ isRootPositionOnRowTotalRows p n row k = false ∧
      posStep n k fuel ps = .ok (some (PosState.push
        { ps.after idx sib with
          row := row
          proofPositions := ps.proofPositions ++ if sib.isNone then [sibling p] else [] }
        (parent p k)))) := by
  have hrl' : possibleRowLoop p k fuel (ps.drop idx).row = .ok row := by cases idx <;> exact hrl
  unfold posStep
  rw [if_neg (by omega), hnext]
  simp only [hrl', Exec.ok_bind]
  by_cases hk : k < row
  · exact Or.inl ⟨hk, by rw [if_pos hk]⟩
  · refine Or.inr ?_
    rw [if_neg hk]
    by_cases hroot : isRootPositionOnRowTotalRows p n row k = true
    · exact Or.inl ⟨by omega, hroot, by rw [if_pos hroot]⟩
    · refine Or.inr ⟨by omega, by simpa using hroot, ?_⟩
      rw [if_neg hroot]
      cases sib with
      | none => cases idx <;> rfl
      | some i => cases idx <;> cases i <;> simp [PosState.after, PosState.drop]

/-- Without a position left the loop ends. -/
theorem posStep_none {n k fuel : Nat} {ps : PosState} (hrow : ps.row ≤ k)
    (hnext : getNextPos ps.targets ps.queue = none) : posStep n k fuel ps = .ok none := by
  unfold posStep
  rw [if_neg (by omega), hnext]

end Utreexo
