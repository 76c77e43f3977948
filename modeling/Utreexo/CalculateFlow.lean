import Utreexo.Calculate

/-! # What a round of `calculateHashes` does

The rounds of `calculateHashes` look at positions only; hashes are moved around
and combined, never inspected.  So the loop commutes with any map of hashes that
respects the combination (`calcLoop_map`), and everything about its course can be
read off any type of hashes.

`calcStep_cases` says once what a round can do.
-/
namespace Utreexo

variable {H K : Type}

/-- A state with its hashes mapped. -/
def CalcState.map (f : H → K) (st : CalcState H) : CalcState K where
  row := st.row
  toProve := st.toProve.map (Prod.map id f)
  queue := st.queue.map (Prod.map id f)
  nextProves := st.nextProves.map (Prod.map id f)
  roots := st.roots.map f
  proof := st.proof.map f

theorem map_fst_map (f : H → K) (l : List (Nat × H)) :
    (l.map (Prod.map id f)).map Prod.fst = l.map Prod.fst := by
  rw [List.map_map]
  rfl

theorem CalcState.take_map (f : H → K) (st : CalcState H) (i : Source) :
    (st.map f).take i = (st.take i).map (fun r => (f r.1, r.2.map f)) := by
  obtain ⟨row, toProve, queue, nextProves, roots, proof⟩ := st
  cases i with
  | slice1 => cases toProve <;> rfl
  | slice2 => cases queue <;> rfl

theorem CalcState.takeProof_map (f : H → K) (st : CalcState H) :
    (st.map f).takeProof = st.takeProof.map (fun r => (f r.1, r.2.map f)) := by
  obtain ⟨row, toProve, queue, nextProves, roots, proof⟩ := st
  cases proof <;> rfl

theorem CalcState.takeSib_map (f : H → K) (st : CalcState H) (sib : Option Source) :
    (st.map f).takeSib sib = (st.takeSib sib).map (fun r => (f r.1, r.2.map f)) := by
  cases sib with
  | none => exact st.takeProof_map f
  | some i => exact st.take_map f i

theorem CalcState.push_map (f : H → K) (st : CalcState H) (pos : Nat) (h : H) :
    (st.map f).push pos (f h) = (st.push pos h).map f := by
  simp [CalcState.push, CalcState.map]

section Map
variable {next : Nat → H → H → H} {next' : Nat → K → K → K} {f : H → K}

theorem calcStep_map (hf : ∀ pos a b, f (next pos a b) = next' pos (f a) (f b))
    (numLeaves totalRows fuel : Nat) (st : CalcState H) :
    calcStep next' numLeaves totalRows fuel (st.map f) =
      (calcStep next numLeaves totalRows fuel st).map (Option.map (CalcState.map f)) := by
  unfold calcStep
  rw [show (st.map f).toProve.map Prod.fst = st.toProve.map Prod.fst from map_fst_map f _,
    show (st.map f).queue.map Prod.fst = st.queue.map Prod.fst from map_fst_map f _,
    show (st.map f).row = st.row from rfl]
  split
  · rfl
  · cases getNextPos (st.toProve.map Prod.fst) (st.queue.map Prod.fst) with
    | none => rfl
    | some r =>
      obtain ⟨pos, idx, sib⟩ := r
      simp only [CalcState.take_map]
      cases st.take idx with
      | error e => rfl
      | ok r =>
        obtain ⟨h, st1⟩ := r
        simp only [Except.map, Exec.ok_bind]
        rw [show (st1.map f).row = st1.row from rfl]
        cases rowLoop pos totalRows numLeaves fuel st1.row with
        | error e => rfl
        | ok row =>
          simp only [Exec.ok_bind]
          rw [show ({ st1.map f with row := row } : CalcState K) =
            ({ st1 with row := row } : CalcState H).map f from rfl]
          split
          · simp [CalcState.map]
          · simp only [CalcState.takeSib_map]
            cases ({ st1 with row := row } : CalcState H).takeSib sib with
            | error e => rfl
            | ok r => simp [Except.map, CalcState.push_map, ← hf]

/-- **The loop commutes with maps of hashes** that respect the combination. -/
theorem calcLoop_map (hf : ∀ pos a b, f (next pos a b) = next' pos (f a) (f b))
    (numLeaves totalRows fuel : Nat) (st : CalcState H) :
    calcLoop next' numLeaves totalRows fuel (st.map f) =
      (calcLoop next numLeaves totalRows fuel st).map (CalcState.map f) := by
  induction fuel generalizing st with
  | zero => rfl
  | succ fuel ih =>
    rw [calcLoop, calcLoop, calcStep_map hf]
    cases calcStep next numLeaves totalRows fuel st with
    | error e => rfl
    | ok r =>
      cases r with
      | none => rfl
      | some st' => exact ih st'

end Map

/-! ### One round -/

/-- What a round that goes on has done: it took `pos` from a queue, found its row,
and either recorded a root or queued the parent. -/
theorem calcStep_cases {next : Nat → H → H → H} {numLeaves totalRows fuel : Nat}
    {st st' : CalcState H} (h : calcStep next numLeaves totalRows fuel st = .ok (some st')) :
    st.row ≤ totalRows ∧ ∃ pos idx sib hash st1 row,
      getNextPos (st.toProve.map Prod.fst) (st.queue.map Prod.fst) = some (pos, idx, sib) ∧
      st.take idx = .ok (hash, st1) ∧
      rowLoop pos totalRows numLeaves fuel st1.row = .ok row ∧
      ((isRootPositionOnRow pos numLeaves row = true ∧
          st' = { st1 with row := row, roots := st1.roots ++ [hash] }) ∨
        (isRootPositionOnRow pos numLeaves row = false ∧ ∃ sibHash st2,
          ({ st1 with row := row } : CalcState H).takeSib sib = .ok (sibHash, st2) ∧
          st' = st2.push (parent pos totalRows) (next pos hash sibHash))) := by
  unfold calcStep at h
  split at h
  · cases h
  · rename_i hrow
    refine ⟨Nat.le_of_not_lt hrow, ?_⟩
    split at h
    · cases h
    · rename_i pos idx sib hnext
      obtain ⟨⟨hash, st1⟩, htake, h⟩ := Exec.bind_eq_ok.mp h
      obtain ⟨row, hrowLoop, h⟩ := Exec.bind_eq_ok.mp h
      refine ⟨pos, idx, sib, hash, st1, row, hnext, htake, hrowLoop, ?_⟩
      split at h
      · rename_i hroot
        exact Or.inl ⟨hroot, by cases h; rfl⟩
      · rename_i hroot
        obtain ⟨⟨sibHash, st2⟩, hsib, h⟩ := Exec.bind_eq_ok.mp h
        refine Or.inr ⟨Bool.eq_false_iff.mpr hroot, sibHash, st2, hsib, ?_⟩
        cases h
        rfl

/-- The loop ends when the row has passed the forest or both queues are empty. -/
theorem calcStep_none {next : Nat → H → H → H} {numLeaves totalRows fuel : Nat}
    {st : CalcState H} (h : calcStep next numLeaves totalRows fuel st = .ok none) :
    totalRows < st.row ∨ (st.toProve = [] ∧ st.queue = []) := by
  unfold calcStep at h
  split at h
  · exact Or.inl ‹_›
  · right
    split at h
    · rename_i hnext
      cases htp : st.toProve with
      | nil =>
        cases hq : st.queue with
        | nil => exact ⟨rfl, rfl⟩
        | cons e q => simp [htp, hq, getNextPos, nextLeastSlice] at hnext
      | cons e tp =>
        exfalso
        cases hq : st.queue with
        | nil => simp [htp, hq, getNextPos, nextLeastSlice] at hnext
        | cons e' q =>
          simp only [htp, hq, List.map_cons, getNextPos, nextLeastSlice] at hnext
          by_cases hlt : e.1 < e'.1 <;> simp [hlt] at hnext
    · exfalso
      obtain ⟨r, _, h⟩ := Exec.bind_eq_ok.mp h
      obtain ⟨row, _, h⟩ := Exec.bind_eq_ok.mp h
      split at h
      · cases h
      · obtain ⟨r, _, h⟩ := Exec.bind_eq_ok.mp h
        cases h

theorem calcLoop_succ {next : Nat → H → H → H} {numLeaves totalRows fuel : Nat}
    {st fin : CalcState H} (h : calcLoop next numLeaves totalRows (fuel + 1) st = .ok fin) :
    (calcStep next numLeaves totalRows fuel st = .ok none ∧ fin = st) ∨
      ∃ st', calcStep next numLeaves totalRows fuel st = .ok (some st') ∧
        calcLoop next numLeaves totalRows fuel st' = .ok fin := by
  rw [calcLoop] at h
  obtain ⟨r, hr, h⟩ := Exec.bind_eq_ok.mp h
  cases r with
  | none => exact Or.inl ⟨hr, by cases h; rfl⟩
  | some st' => exact Or.inr ⟨st', hr, h⟩

theorem calcLoop_of_some {next : Nat → H → H → H} {numLeaves totalRows fuel : Nat}
    {st st' : CalcState H} (h : calcStep next numLeaves totalRows fuel st = .ok (some st')) :
    calcLoop next numLeaves totalRows (fuel + 1) st =
      calcLoop next numLeaves totalRows fuel st' := by
  rw [calcLoop, h]
  rfl

theorem calcLoop_of_none {next : Nat → H → H → H} {numLeaves totalRows fuel : Nat}
    {st : CalcState H} (h : calcStep next numLeaves totalRows fuel st = .ok none) :
    calcLoop next numLeaves totalRows (fuel + 1) st = .ok st := by
  rw [calcLoop, h]
  rfl

theorem calcLoop_of_error {next : Nat → H → H → H} {numLeaves totalRows fuel : Nat}
    {st : CalcState H} {e : Stop} (h : calcStep next numLeaves totalRows fuel st = .error e) :
    calcLoop next numLeaves totalRows (fuel + 1) st = .error e := by
  rw [calcLoop, h]
  rfl

/-- Without targets no hash is calculated and none of the proof is read. -/
theorem calculateHashes_nil [DecidableEq H] [HashOps H] [SortAlg] {n : Nat} {proof : Proof H}
    {delHashes : Option (List H)} (h : proof.targets = []) (hdel : delHashes.getD [] = []) :
    calculateHashes n delHashes proof = .ok ([], []) := by
  have hnil : toHashAndPos ([] : List Nat) ([] : List H) = [] :=
    List.eq_nil_of_length_eq_zero (toHashAndPos_length rfl)
  rw [calculateHashes, h, List.length_nil, List.replicate_zero, hdel, hnil, calcFuel,
    calcLoop_of_none]
  · rfl
  · simp [calcStep, CalcState.start, getNextPos, nextLeastSlice]

/-- **An invariant of the rounds holds when the loop ends.** -/
theorem calcLoop_invariant {next : Nat → H → H → H} {numLeaves totalRows : Nat}
    (P : CalcState H → Prop)
    (step : ∀ {fuel st st'}, P st →
      calcStep next numLeaves totalRows fuel st = .ok (some st') → P st')
    {fuel : Nat} {st fin : CalcState H} (h0 : P st)
    (h : calcLoop next numLeaves totalRows fuel st = .ok fin) :
    P fin ∧ ∃ fuel', calcStep next numLeaves totalRows fuel' fin = .ok none := by
  induction fuel generalizing st with
  | zero => cases h
  | succ fuel ih =>
    rcases calcLoop_succ h with ⟨hn, rfl⟩ | ⟨st', hs, hl⟩
    · exact ⟨h0, fuel, hn⟩
    · exact ih (step h0 hs) hl

/-! ### Fuel

A loop that has come to an end does not change with more fuel. -/

theorem rowLoop_mono {pos totalRows numLeaves fuel row : Nat}
    (h : rowLoop pos totalRows numLeaves fuel row ≠ .error .diverge) :
    rowLoop pos totalRows numLeaves (fuel + 1) row =
      rowLoop pos totalRows numLeaves fuel row := by
  induction fuel generalizing row with
  | zero => exact absurd rfl h
  | succ fuel ih =>
    rw [rowLoop] at h ⊢
    by_cases hlt : maxPos row totalRows numLeaves < pos
    · rw [if_pos hlt] at h ⊢
      rw [ih h, rowLoop, if_pos hlt]
    · rw [if_neg hlt, rowLoop, if_neg hlt]

theorem calcStep_mono {next : Nat → H → H → H} {numLeaves totalRows fuel : Nat}
    {st : CalcState H} (h : calcStep next numLeaves totalRows fuel st ≠ .error .diverge) :
    calcStep next numLeaves totalRows (fuel + 1) st =
      calcStep next numLeaves totalRows fuel st := by
  unfold calcStep at h ⊢
  by_cases hrow : totalRows < st.row
  · simp only [if_pos hrow]
  · simp only [if_neg hrow] at h ⊢
    rcases hnext : getNextPos (st.toProve.map Prod.fst) (st.queue.map Prod.fst) with
      _ | ⟨pos, idx, sib⟩
    · rfl
    · rw [hnext] at h
      rcases htake : st.take idx with e | ⟨hash, st1⟩
      · simp only [htake, Exec.error_bind]
      · simp only [htake, Exec.ok_bind] at h ⊢
        rw [rowLoop_mono]
        intro hd
        rw [hd] at h
        exact h rfl

theorem calcLoop_mono {next : Nat → H → H → H} {numLeaves totalRows fuel fuel' : Nat}
    {st : CalcState H} (hle : fuel ≤ fuel')
    (h : calcLoop next numLeaves totalRows fuel st ≠ .error .diverge) :
    calcLoop next numLeaves totalRows fuel' st = calcLoop next numLeaves totalRows fuel st := by
  -- One unit of fuel at a time; a round that does not diverge is the same with more fuel.
  suffices key : ∀ {fuel st}, calcLoop next numLeaves totalRows fuel st ≠ .error .diverge →
      calcLoop next numLeaves totalRows (fuel + 1) st =
        calcLoop next numLeaves totalRows fuel st by
    induction hle with
    | refl => rfl
    | step _ ih => rw [key (by rw [ih]; exact h), ih]
  intro fuel
  induction fuel with
  | zero => intro st h; exact absurd rfl h
  | succ fuel ih =>
    intro st h
    rcases hst : calcStep next numLeaves totalRows fuel st with e | _ | st'
    · have hd : calcStep next numLeaves totalRows fuel st ≠ .error .diverge := by
        rw [calcLoop_of_error hst] at h
        rw [hst]
        exact fun he => h (congrArg _ (Except.error.inj he))
      rw [calcLoop_of_error hst, calcLoop_of_error ((calcStep_mono hd).trans hst)]
    · have hd : calcStep next numLeaves totalRows fuel st ≠ .error .diverge := by simp [hst]
      rw [calcLoop_of_none hst, calcLoop_of_none ((calcStep_mono hd).trans hst)]
    · have hd : calcStep next numLeaves totalRows fuel st ≠ .error .diverge := by simp [hst]
      rw [calcLoop_of_some hst] at h
      rw [calcLoop_of_some hst, calcLoop_of_some ((calcStep_mono hd).trans hst), ih h]

/-! ### Rows -/

theorem maxPos_of_lt {row totalRows numLeaves : Nat} (h : totalRows < row) :
    maxPos row totalRows numLeaves = 0 := by
  have h0 : row ≠ 0 := by omega
  simp [maxPos, maxPositionAtRow, parentMany, h0, h, bind, Except.bind]

theorem rowLoop_le {pos totalRows numLeaves fuel row row' : Nat} (hrow : row ≤ totalRows)
    (h : rowLoop pos totalRows numLeaves fuel row = .ok row') : row' ≤ totalRows := by
  -- A row past the forest has maximum 0, and only a positive position leaves its row.
  suffices key : ∀ fuel row, rowLoop pos totalRows numLeaves fuel row = .ok row' →
      row ≤ totalRows ∨ 0 < pos → row' ≤ totalRows from key fuel row h (Or.inl hrow)
  clear h hrow fuel row
  intro fuel
  induction fuel with
  | zero => intro row h; cases h
  | succ fuel ih =>
    intro row h hor
    rw [rowLoop] at h
    split at h
    · exact ih _ h (Or.inr (by omega))
    · rename_i hle
      cases h
      rcases hor with hr | hp
      · exact hr
      · by_contra hgt
        rw [maxPos_of_lt (by omega)] at hle
        omega

theorem CalcState.take_row {st st1 : CalcState H} {i : Source} {h : H}
    (ht : st.take i = .ok (h, st1)) : st1.row = st.row := by
  cases i with
  | slice1 =>
    unfold CalcState.take at ht
    cases htp : st.toProve with
    | nil => simp [htp] at ht
    | cons e tp => simp only [htp] at ht; cases ht; rfl
  | slice2 =>
    unfold CalcState.take at ht
    cases htp : st.queue with
    | nil => simp [htp] at ht
    | cons e tp => simp only [htp] at ht; cases ht; rfl

theorem CalcState.takeProof_row {st st1 : CalcState H} {h : H}
    (ht : st.takeProof = .ok (h, st1)) : st1.row = st.row := by
  unfold CalcState.takeProof at ht
  cases htp : st.proof with
  | nil => simp [htp] at ht
  | cons e tp => simp only [htp] at ht; cases ht; rfl

theorem CalcState.takeSib_row {st st1 : CalcState H} {sib : Option Source} {h : H}
    (ht : st.takeSib sib = .ok (h, st1)) : st1.row = st.row := by
  cases sib with
  | none => exact CalcState.takeProof_row ht
  | some i => exact CalcState.take_row ht

theorem calcStep_row {next : Nat → H → H → H} {numLeaves totalRows fuel : Nat}
    {st st' : CalcState H} (h : calcStep next numLeaves totalRows fuel st = .ok (some st')) :
    st'.row ≤ totalRows := by
  obtain ⟨hrow, pos, idx, sib, hash, st1, row, _, ht, hl, hcase⟩ := calcStep_cases h
  have hle : row ≤ totalRows := rowLoop_le (by rw [CalcState.take_row ht]; exact hrow) hl
  rcases hcase with ⟨_, rfl⟩ | ⟨_, sibHash, st2, hsib, rfl⟩
  · exact hle
  · rw [CalcState.push, CalcState.takeSib_row hsib]
    exact hle

end Utreexo
