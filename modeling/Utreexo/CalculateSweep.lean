import Utreexo.ProofPositions
import Utreexo.SortedSlices

/-! # The hashes that a proof check computes

`calculateHashes` sweeps the forest in the same order as `proofPositions`.  Let `V` give a
hash to every position, so that the hash of a parent is the one computed from its
children.  If the targets come with their hashes and the proof with the hashes of the
needed positions, then every computed position gets its hash, the roots that are found are
those of the trees with a target, and nothing of the proof is left over
(`calcLoop_sweep`).
-/
namespace Utreexo
open Merkle

section
variable {H : Type} {n k : Nat} {T D : Set Node} {V : Nat → H} {extra : List H}
  {st : CalcState H} {ps : PosState} {x : Node} {idx : Source} {sib : Option Source}

/-- What holds between rounds when the nodes `D` have been visited; `extra` are hashes after
those that are needed. -/
structure CalcSweep (n k : Nat) (T D : Set Node) (V : Nat → H) (extra : List H)
    (st : CalcState H) (ps : PosState) : Prop where
  sweep : PosSweep n k T D ps
  row : st.row = ps.row
  toProve : st.toProve = ps.targets.map (withHash V)
  queue : st.queue = ps.queue.map (withHash V)
  nextProves : st.nextProves = ps.nextTargets.map (withHash V)
  roots : ∃ rs, Listing rs (nodePos k '' {x | x ∈ D ∧ x.IsRoot n}) ∧ st.roots = rs.map V
  proof : ∃ l, Listing l (nodePos k '' ({x | Needed n T x} \ siblingsOf n T D)) ∧
    st.proof = l.map V ++ extra

/-- The hash of every parent is computed from those of its children. -/
def Hashing (n k : Nat) (T : Set Node) (next : Nat → H → H → H) (V : Nat → H) : Prop :=
  ∀ x, Touched n T x → ¬ x.IsRoot n →
    V (nodePos k x.parent) = next (nodePos k x) (V (nodePos k x)) (V (nodePos k x.sibling))

namespace CalcSweep

/-- Taking the front of a queue. -/
theorem take (ht : st.toProve = ps.targets.map (withHash V))
    (hq : st.queue = ps.queue.map (withHash V)) {i : Source} {p : Nat} {rest : List Nat}
    (hs : ps.slice i = p :: rest) :
    ∃ st1, st.take i = .ok (V p, st1) ∧ st1.row = st.row ∧ st1.roots = st.roots ∧
      st1.proof = st.proof ∧ st1.nextProves = st.nextProves ∧
      st1.toProve = (ps.drop i).targets.map (withHash V) ∧
      st1.queue = (ps.drop i).queue.map (withHash V) ∧ st1.load + 1 = st.load := by
  cases i with
  | slice1 =>
    simp only [PosState.slice] at hs
    rw [hs, List.map_cons] at ht
    refine ⟨{ st with toProve := rest.map (withHash V) }, by simp [CalcState.take, ht], rfl, rfl,
      rfl, rfl, by simp [PosState.drop, hs], hq, ?_⟩
    simp only [CalcState.load, ht, List.length_cons]
    omega
  | slice2 =>
    simp only [PosState.slice] at hs
    rw [hs, List.map_cons] at hq
    refine ⟨{ st with queue := rest.map (withHash V) }, by simp [CalcState.take, hq], rfl, rfl,
      rfl, rfl, ht, by simp [PosState.drop, hs], ?_⟩
    simp only [CalcState.load, hq, List.length_cons]
    omega

/-- The roots among the visited nodes. -/
theorem roots_visit (hx : x.IsRoot n) :
    {y | y ∈ D ∪ visited n T x ∧ y.IsRoot n} = insert x {y | y ∈ D ∧ y.IsRoot n} := by
  rw [visited_of_root hx]
  ext y
  constructor
  · rintro ⟨hy | rfl, hr⟩
    · exact Or.inr ⟨hy, hr⟩
    · exact Or.inl rfl
  · rintro (rfl | ⟨hy, hr⟩)
    · exact ⟨Or.inr rfl, hx⟩
    · exact ⟨Or.inl hy, hr⟩

theorem roots_visit_of_not (hx : x.InForest n) (hr : ¬ x.IsRoot n) :
    {y | y ∈ D ∪ visited n T x ∧ y.IsRoot n} = {y | y ∈ D ∧ y.IsRoot n} := by
  ext y
  constructor
  · rintro ⟨hy | rfl | ⟨rfl, -, -⟩, hr'⟩
    · exact ⟨hy, hr'⟩
    · exact absurd hr' hr
    · exact absurd hr' hx.sibling_not_isRoot
  · rintro ⟨hy, hr'⟩
    exact ⟨Or.inl hy, hr'⟩

section
variable (hn : n ≤ 2 ^ k) (hx : Next n T D x) (hr : ¬ x.IsRoot n)
  (hs : ¬ Touched n T x.sibling)
include hn hx hr hs

/-- The next hash of the proof is the one of the sibling that is needed next. -/
theorem next_needed {l : List Nat}
    (hl : Listing l (nodePos k '' ({y | Needed n T y} \ siblingsOf n T D))) :
    ∃ l', l = nodePos k x.sibling :: l' ∧ Listing l' (nodePos k ''
      ({y | Needed n T y} \ siblingsOf n T (D ∪ visited n T x))) := by
  have hforest : ∀ y ∈ {y | Needed n T y} \ siblingsOf n T D, y.InForest n :=
    fun y hy => Needed.inForest hy.1
  have hsib := hx.touched.1.sibling hr
  have hmem : x.sibling ∈ {y | Needed n T y} \ siblingsOf n T D := by
    refine ⟨⟨?_, ?_, hs⟩, fun h => ?_⟩
    · rw [Node.sibling_sibling]
      exact hx.touched
    · rwa [Node.sibling_sibling]
    · have := h.1
      rw [Node.sibling_sibling] at this
      exact hx.not_mem this
  have hleast : ∀ y ∈ {y | Needed n T y} \ siblingsOf n T D,
      y = x.sibling ∨ x.sibling.Before y := by
    rintro y ⟨⟨hy, hyr, hny⟩, hyD⟩
    rcases hx.first hy fun h => hyD ⟨h, hyr, hny⟩ with he | hb
    · exact Or.inl (by rw [← he, Node.sibling_sibling])
    · refine Or.inr ?_
      have hb' := hb.sibling_before fun he => ?_
      · rwa [Node.sibling_sibling] at hb'
      · rcases Node.eq_or_eq_sibling he with he | he
        · exact Node.Before.irrefl _ (he ▸ hb)
        · exact hs (he ▸ hy)
  cases l with
  | nil => exact absurd ((hl.mem _).mpr (Set.mem_image_of_mem _ hmem)) List.not_mem_nil
  | cons p l =>
    obtain ⟨y, hy, rfl⟩ := hl.head_mem
    have hye : y = x.sibling := by
      rcases hleast y hy with he | hb
      · exact he
      · have hle := hl.head_le (Set.mem_image_of_mem _ hmem)
        have hlt := (nodePos_lt_iff hn hsib (hforest y hy)).mpr hb
        omega
    subst hye
    refine ⟨l, rfl, ?_⟩
    have htail := listing_tail hn hforest hsib hl
    rwa [Set.sdiff_sdiff, Set.union_comm, ← Set.insert_eq, ← siblingsOf_visit_single hr hs] at htail

end

end CalcSweep

/-! ### Rounds -/

theorem rowLoop_nodePos (hn : n ≤ 2 ^ 63) (hx : x.InForest n) {fuel row : Nat}
    (hrow : row ≤ x.row) (hf : treeRows n < row + fuel) :
    rowLoop (nodePos (treeRows n) x) (treeRows n) n fuel row = .ok x.row := by
  have hk := treeRows_le hn
  have hn' := le_two_pow_treeRows n
  have hfit := fits_of_inForest hn' hx
  have hxk := hfit.1
  have hmax := le_maxPos_of_inForest hk hn' hx
  obtain ⟨r, hr, -, -, h1, h2⟩ := rowLoop_spec (show treeRows n ≤ 64 by omega)
    (show row ≤ treeRows n by omega)
    (Nat.le_trans hmax (maxPos_mono hk hn' hxk (Nat.le_refl _))) hf
  rcases Nat.lt_trichotomy r x.row with hlt | rfl | hgt
  · have := maxPos_lt_of_row_lt hk hn' hfit hlt
    omega
  · exact hr
  · have := h2 x.row hrow hgt
    omega

/-- A round that queues the parent with its hash. -/
theorem CalcSweep.pushed (h : CalcSweep n k T D V extra st ps)
    (hround : PosSweep n k T (D ∪ visited n T x) (ps.round n k x idx sib)) (hx : x.InForest n)
    (hr : ¬ x.IsRoot n) {st2 : CalcState H} (hrow : st2.row = x.row)
    (ht : st2.toProve = (ps.after idx sib).targets.map (withHash V))
    (hq : st2.queue = (ps.after idx sib).queue.map (withHash V))
    (hnp : st2.nextProves = st.nextProves) (hroots : st2.roots = st.roots)
    (hproof : ∃ l, Listing l (nodePos k ''
      ({y | Needed n T y} \ siblingsOf n T (D ∪ visited n T x))) ∧
        st2.proof = l.map V ++ extra) :
    CalcSweep n k T (D ∪ visited n T x) V extra
      (st2.push (nodePos k x.parent) (V (nodePos k x.parent))) (ps.round n k x idx sib) := by
  have hnt : (ps.after idx sib).nextTargets = ps.nextTargets := by
    cases idx <;> rcases sib with _ | i <;> first | rfl | (cases i <;> rfl)
  refine ⟨hround, ?_, ?_, ?_, ?_, ?_, hproof⟩
  · rw [PosState.round, if_neg hr]
    exact hrow
  · rw [PosState.round, if_neg hr]
    exact ht
  · rw [PosState.round, if_neg hr]
    simp only [CalcState.push, PosState.push, hq, List.map_append]
    rfl
  · rw [PosState.round, if_neg hr]
    simp only [CalcState.push, PosState.push, hnp, h.nextProves, hnt, List.map_append]
    rfl
  · obtain ⟨rs, hrs, hrse⟩ := h.roots
    refine ⟨rs, ?_, hroots.trans hrse⟩
    rw [CalcSweep.roots_visit_of_not hx hr]
    exact hrs

section Rounds
variable {next : Nat → H → H → H} (hn : n ≤ 2 ^ 63) (hT : ∀ t ∈ T, t.InForest n)
  (hA : IsAntichain Node.Above T) (hV : Hashing n (treeRows n) T next V)
include hn hT hA hV

/-- A round takes the next node and computes the hash of its parent. -/
theorem CalcSweep.step {fuel : Nat} (h : CalcSweep n (treeRows n) T D V extra st ps)
    (hx : Next n T D x)
    (hnext : getNextPos ps.targets ps.queue = some (nodePos (treeRows n) x, idx, sib))
    (hf : 64 < fuel) :
    ∃ st', calcStep next n (treeRows n) fuel st = .ok (some st') ∧
      CalcSweep n (treeRows n) T (D ∪ visited n T x) V extra st'
        (ps.round n (treeRows n) x idx sib) ∧
      st'.load + st'.proof.length < st.load + st.proof.length := by
  have hk := treeRows_le hn
  have hn' := le_two_pow_treeRows n
  have hround := h.sweep.round hn' hx hnext hT hA
  have hforest := hx.touched.1
  have hfit := fits_of_inForest hn' hforest
  obtain ⟨⟨rest, hslice⟩, -, -, hsib⟩ := getNextPos_some hnext
  obtain ⟨st1, htake, hrow1, hroots1, hproof1, hnp1, ht1, hq1, hload1⟩ :=
    CalcSweep.take h.toProve h.queue hslice
  have hrl : rowLoop (nodePos (treeRows n) x) (treeRows n) n fuel st1.row = .ok x.row := by
    rw [hrow1, h.row]
    exact rowLoop_nodePos hn hforest (h.sweep.row_le_of hx.touched hx.not_mem) (by omega)
  have hstep : calcStep next n (treeRows n) fuel st =
      if isRootPositionOnRow (nodePos (treeRows n) x) n x.row = true then
        .ok (some { st1 with row := x.row, roots := st1.roots ++ [V (nodePos (treeRows n) x)] })
      else ({ st1 with row := x.row } : CalcState H).takeSib sib >>= fun r =>
        .ok (some (r.2.push (parent (nodePos (treeRows n) x) (treeRows n))
          (next (nodePos (treeRows n) x) (V (nodePos (treeRows n) x)) r.1))) := by
    unfold calcStep
    rw [if_neg (by have := h.sweep.row_le; rw [h.row]; omega), h.toProve, h.queue,
      map_withHash_fst, map_withHash_fst, hnext]
    simp only [htake, Exec.ok_bind, hrl]
  have hroot := isRootPositionOnRow_nodePos (r := x.row) hn hfit
  rw [hstep]
  by_cases hr : x.IsRoot n
  · rw [if_pos (hroot.mpr ⟨hr, rfl⟩)]
    obtain ⟨rs, hrs, hrse⟩ := h.roots
    obtain ⟨l, hl, hle⟩ := h.proof
    refine ⟨_, rfl, ⟨hround, ?_, ?_, ?_, ?_, ?_, ?_⟩, ?_⟩
    · rw [PosState.round, if_pos hr]
    · rw [PosState.round, if_pos hr]
      exact ht1
    · rw [PosState.round, if_pos hr]
      exact hq1
    · rw [PosState.round, if_pos hr]
      refine hnp1.trans (h.nextProves.trans ?_)
      cases idx <;> rfl
    · refine ⟨rs ++ [nodePos (treeRows n) x], ?_, ?_⟩
      · rw [CalcSweep.roots_visit hr]
        exact listing_concat hn' (fun y hy => hy.2.inForest) hforest hrs
          fun y hy => h.sweep.done.before_of_mem hx hy.1
      · rw [List.map_append, ← hrse, ← hroots1]
        rfl
    · refine ⟨l, ?_, hproof1.trans hle⟩
      rw [siblingsOf_visit_touched hx.touched (Or.inl hr)]
      exact hl
    · have : (CalcState.load { st1 with
          row := x.row, roots := st1.roots ++ [V (nodePos (treeRows n) x)] }) = st1.load := rfl
      rw [this, hproof1]
      omega
  · rw [if_neg fun h' => hr (hroot.mp h').1, parent_nodePos_inForest hk hn' hforest hr]
    have hiff := h.sweep.sibling_iff hn' hx hnext hT hr
    obtain ⟨l, hl, hle⟩ := h.proof
    cases sib with
    | some i =>
      have hs := hiff.mp rfl
      obtain ⟨rest2, hslice2⟩ := nextSibling_some hsib.symm
      obtain ⟨st2, htake2, hrow2, hroots2, hproof2, hnp2, ht2, hq2, hload2⟩ :=
        CalcSweep.take (show ({ st1 with row := x.row } : CalcState H).toProve = _ from ht1)
          hq1 hslice2
      have hright : rightSib (nodePos (treeRows n) x) = nodePos (treeRows n) x.sibling := by
        rw [rightSib_nodePos hfit, if_pos ((Node.before_sibling_iff x).mp
          (h.sweep.done.before_sibling hx hs))]
      rw [hright] at htake2
      refine ⟨_, by rw [CalcState.takeSib, htake2, Exec.ok_bind, ← hV x hx.touched hr],
        h.pushed hround hforest hr hrow2 ht2 hq2 (hnp2.trans hnp1) (hroots2.trans hroots1)
          ⟨l, ?_, hproof2.trans (hproof1.trans hle)⟩, ?_⟩
      · rw [siblingsOf_visit_touched hx.touched (Or.inr hs)]
        exact hl
      · have hp : st2.proof = st.proof := hproof2.trans hproof1
        have hl2 : st2.load + 1 = st1.load := hload2
        simp only [CalcState.push, CalcState.load, List.length_append, List.length_singleton, hp]
          at hl2 hload1 ⊢
        omega
    | none =>
      have hs : ¬ Touched n T x.sibling := fun hs => by simpa using hiff.mpr hs
      obtain ⟨l', rfl, hl'⟩ := CalcSweep.next_needed hn' hx hr hs hl
      have hproof : st1.proof = V (nodePos (treeRows n) x.sibling) :: (l'.map V ++ extra) := by
        rw [hproof1, hle]
        rfl
      have hrow2 : ({ st1 with row := x.row, proof := l'.map V ++ extra } : CalcState H).row =
        x.row := rfl
      have hpushed := h.pushed hround hforest hr hrow2 ht1 hq1 hnp1 hroots1 ⟨l', hl', rfl⟩
      refine ⟨_, ?_, hpushed, ?_⟩
      · rw [CalcState.takeSib, CalcState.takeProof]
        simp only [hproof, Exec.ok_bind]
        rw [← hV x hx.touched hr]
      · have hp : st.proof.length = (l'.map V ++ extra).length + 1 := by
          rw [← hproof1, hproof, List.length_cons]
        simp only [CalcState.push, CalcState.load, List.length_append, List.length_singleton]
          at hp hload1 ⊢
        omega

/-- The run of the loop from a state on. -/
theorem CalcSweep.loop {fuel : Nat} (h : CalcSweep n (treeRows n) T D V extra st ps)
    (hf : st.load + st.proof.length + 65 < fuel) :
    ∃ computed roots, Listing computed (nodePos (treeRows n) '' {x | Computed n T x}) ∧
      Listing roots (nodePos (treeRows n) '' {x | Touched n T x ∧ x.IsRoot n}) ∧
      ∃ st', calcLoop next n (treeRows n) fuel st = .ok st' ∧
        st'.nextProves = computed.map (withHash V) ∧ st'.roots = roots.map V ∧
        st'.proof = extra := by
  induction fuel generalizing st ps D with
  | zero => omega
  | succ fuel ih =>
    rw [calcLoop]
    cases hnext : getNextPos ps.targets ps.queue with
    | none =>
      have hend : calcStep next n (treeRows n) fuel st = .ok none := by
        unfold calcStep
        rw [if_neg (by have := h.sweep.row_le; rw [h.row]; omega), h.toProve, h.queue,
          map_withHash_fst, map_withHash_fst, hnext]
      have hD := h.sweep.eq_touched hnext
      obtain ⟨rs, hrs, hrse⟩ := h.roots
      obtain ⟨l, hl, hle⟩ := h.proof
      refine ⟨ps.nextTargets, rs, ?_, ?_, st, by rw [hend, Exec.ok_bind], h.nextProves, hrse, ?_⟩
      · have hc := h.sweep.nextTargets
        rwa [hD, parentsOf_touched] at hc
      · rwa [hD] at hrs
      · rw [hD, siblingsOf_touched, Set.sdiff_self, Set.image_empty] at hl
        rw [hle, hl.unique .nil]
        rfl
    | some t =>
      obtain ⟨p, idx, sib⟩ := t
      obtain ⟨x, rfl, hx, -⟩ := h.sweep.next (le_two_pow_treeRows n) hnext
      obtain ⟨st', hstep, h', hlt⟩ := h.step hn hT hA hV hx hnext
        (show 64 < fuel by omega)
      rw [hstep, Exec.ok_bind]
      exact ih h' (by omega)

end Rounds

/-- The state before the first round. -/
theorem CalcSweep.start (hT : ∀ t ∈ T, t.InForest n) {targets positions : List Nat}
    (htargets : Listing targets (nodePos k '' T))
    (hpositions : Listing positions (nodePos k '' {x | Needed n T x})) (V : Nat → H)
    (extra : List H) :
    CalcSweep n k T ∅ V extra
      (CalcState.start (targets.map (withHash V)) (positions.map V ++ extra))
      (PosState.start targets) := by
  refine ⟨.start hT htargets, rfl, rfl, rfl, rfl, ⟨[], .of_empty ?_, rfl⟩, positions, ?_, rfl⟩
  · rintro p ⟨x, ⟨hx, -⟩, -⟩
    exact Set.notMem_empty x hx
  · have hnone : siblingsOf n T ∅ = ∅ := by
      ext x
      simp [siblingsOf]
    rwa [hnone, Set.sdiff_empty]

section
variable [DecidableEq H] [HashOps H] [SortAlg]

/-- **What `calculateHashes` returns**: the touched positions with their hashes and the
hashes of the touched roots, both in order. -/
theorem calculateHashes_sweep (hn : n ≤ 2 ^ 63) (hT : ∀ t ∈ T, t.InForest n)
    (hA : IsAntichain Node.Above T) (hV : Hashing n (treeRows n) T getNextHash V)
    {targets positions : List Nat} (hnodup : targets.Nodup)
    (htargets : ∀ p, p ∈ targets ↔ p ∈ nodePos (treeRows n) '' T)
    (hpositions : Listing positions (nodePos (treeRows n) '' {x | Needed n T x}))
    {delHashes : Option (List H)}
    (hdel : delHashes.getD (List.replicate targets.length empty) = targets.map V)
    (extra : List H) :
    ∃ touched roots, Listing touched (nodePos (treeRows n) '' {x | Touched n T x}) ∧
      Listing roots (nodePos (treeRows n) '' {x | Touched n T x ∧ x.IsRoot n}) ∧
      calculateHashes n delHashes ⟨targets, positions.map V ++ extra⟩ =
        .ok (touched.map (withHash V), roots.map V) := by
  have hsorted : Listing (sortPositions targets) (nodePos (treeRows n) '' T) :=
    (sort_listing hnodup).congr htargets
  have hload : (CalcState.start ((sortPositions targets).map (withHash V))
      (positions.map V ++ extra)).load = targets.length := by
    simp [CalcState.load, CalcState.start, (sortPositions_perm targets).length_eq]
  obtain ⟨computed, roots, hcomputed, hroots, st', hloop, hnp, hrs, -⟩ :=
    (CalcSweep.start hT hsorted hpositions V extra).loop hn hT hA hV
      (show _ < calcFuel ⟨targets, positions.map V ++ extra⟩ by
        rw [hload, calcFuel]
        simp only [CalcState.start]
        omega)
  refine ⟨mergeSortedSlicesFunc computed (sortPositions targets) uint64Cmp, roots, ?_, hroots, ?_⟩
  · refine (mergeSlices_listing hcomputed hsorted).congr fun p => ?_
    rw [← Set.image_union, Set.union_comm, union_computed hT]
  · simp only [calculateHashes, hdel, toHashAndPos_withHash V hnodup, hloop, Exec.ok_bind, hnp, hrs,
      mergeSortedHashAndPos_withHash]

end

end

end Utreexo
