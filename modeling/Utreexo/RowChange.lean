import Utreexo.DeTwin
import Utreexo.RootTest

/-! # The number of rows does not matter

A MapPollard numbers its nodes with the rows it has room for, proofs with the rows that the
leaves need.  `translatePos` goes from one to the other.  It keeps the order of the positions
and which of them are siblings (`Renumbers`), which is all that the scans of `deTwin` and
`proofPositions` look at, so these make the same rounds on the translated positions.
-/
namespace Utreexo
open Merkle

/-- What a renumbering has to keep on a set of positions for the scans not to see it. -/
structure Renumbers (f : Nat → Nat) (S : Set Nat) : Prop where
  lt_iff : ∀ {p q}, p ∈ S → q ∈ S → (f p < f q ↔ p < q)
  rightSib_iff : ∀ {p q}, p ∈ S → q ∈ S → (rightSib (f p) = f q ↔ rightSib p = q)

namespace Renumbers
variable {f : Nat → Nat} {S : Set Nat} (h : Renumbers f S)
include h

/-! ### `deTwin` -/

theorem insertInOrder_map {l : List Nat} {p : Nat} (hl : ∀ q ∈ l, q ∈ S) (hp : p ∈ S) :
    insertInOrder (l.map f) (f p) = (insertInOrder l p).map f := by
  rw [insertInOrder_eq, insertInOrder_eq]
  exact (List.map_orderedInsert (· < ·) (· < ·) f l p
    (fun q hq => (h.lt_iff (hl q hq) hp).symm) fun q hq => (h.lt_iff hp (hl q hq)).symm).symm

/-- The scan of `deTwin` on renumbered positions, where the parents of siblings are renumbered
as well. -/
theorem deTwinLoop_map {k T : Nat} (hpar : ∀ p ∈ S, rightSib p ∈ S →
      parent p k ∈ S ∧ parent (f p) T = f (parent p k)) (fuel : Nat) :
    ∀ {i : Nat} {l : List Nat}, (∀ q ∈ l, q ∈ S) →
      deTwinLoop T fuel i (l.map f) = (deTwinLoop k fuel i l).map f := by
  induction fuel with
  | zero =>
    intro i l _
    rfl
  | succ fuel ih =>
    intro i l hl
    rw [deTwinLoop, deTwinLoop, List.length_map, List.getElem?_map, List.getElem?_map]
    by_cases hi : i < l.length
    · rw [if_pos hi, if_pos hi]
      cases hp : l[i]? with
      | none => exact ih hl
      | some p =>
        cases hq : l[i + 1]? with
        | none => exact ih hl
        | some q =>
          have hpS := hl p (List.mem_of_getElem? hp)
          have hqS := hl q (List.mem_of_getElem? hq)
          simp only [Option.map_some]
          by_cases hsib : rightSib p = q
          · obtain ⟨hparS, hparf⟩ := hpar p hpS (by rwa [hsib])
            have hrest : ∀ r ∈ l.take i ++ l.drop (i + 2), r ∈ S := fun r hr =>
              (List.mem_append.mp hr).elim (fun hr => hl r (List.mem_of_mem_take hr))
                fun hr => hl r (List.mem_of_mem_drop hr)
            rw [if_pos ((h.rightSib_iff hpS hqS).mpr hsib), if_pos hsib, ← List.map_take,
              ← List.map_drop, ← List.map_append, hparf, h.insertInOrder_map hrest hparS]
            apply ih
            intro r hr
            rw [insertInOrder_eq, List.mem_orderedInsert] at hr
            rcases hr with rfl | hr
            · exact hparS
            · exact hrest r hr
          · rw [if_neg (mt (h.rightSib_iff hpS hqS).mp hsib), if_neg hsib]
            exact ih hl
    · rw [if_neg hi, if_neg hi]

/-! ### The next position -/

theorem nextLeastSlice_map {A B : List Nat} (hA : ∀ p ∈ A, p ∈ S) (hB : ∀ p ∈ B, p ∈ S) :
    nextLeastSlice (A.map f) (B.map f) = nextLeastSlice A B := by
  cases A with
  | nil => cases B <;> rfl
  | cons a A =>
    cases B with
    | nil => rfl
    | cons b B =>
      simp only [List.map_cons, nextLeastSlice,
        h.lt_iff (hA a List.mem_cons_self) (hB b List.mem_cons_self)]

theorem head?_map_eq {p : Nat} {A : List Nat} (hp : p ∈ S) (hA : ∀ q ∈ A, q ∈ S) :
    (A.map f).head? = some (rightSib (f p)) ↔ A.head? = some (rightSib p) := by
  cases A with
  | nil => simp
  | cons a A =>
    simp only [List.map_cons, List.head?_cons, Option.some.injEq]
    rw [eq_comm, h.rightSib_iff hp (hA a List.mem_cons_self), eq_comm]

theorem nextSibling_map {p : Nat} {A B : List Nat} (hp : p ∈ S) (hA : ∀ q ∈ A, q ∈ S)
    (hB : ∀ q ∈ B, q ∈ S) : nextSibling (f p) (A.map f) (B.map f) = nextSibling p A B := by
  unfold nextSibling
  simp only [h.nextLeastSlice_map hA hB, h.head?_map_eq hp hA, h.head?_map_eq hp hB]

theorem getNextPos_map {A B : List Nat} (hA : ∀ p ∈ A, p ∈ S) (hB : ∀ p ∈ B, p ∈ S) :
    getNextPos (A.map f) (B.map f) = (getNextPos A B).map fun t => (f t.1, t.2) := by
  unfold getNextPos
  rw [h.nextLeastSlice_map hA hB]
  cases hi : nextLeastSlice A B with
  | none => rfl
  | some i =>
    cases i with
    | slice1 =>
      cases A with
      | nil => rfl
      | cons a A =>
        simp only [List.map_cons, Option.map_some]
        rw [h.nextSibling_map (hA a List.mem_cons_self)
          (fun q hq => hA q (List.mem_cons_of_mem _ hq)) hB]
    | slice2 =>
      cases B with
      | nil => cases A <;> rfl
      | cons b B =>
        simp only [List.map_cons, Option.map_some]
        rw [h.nextSibling_map (hB b List.mem_cons_self) hA
          fun q hq => hB q (List.mem_cons_of_mem _ hq)]

end Renumbers

/-! ### Translated positions -/

section
variable {k T : Nat} {x y : Node}

theorem Fits.mono (h : Fits k x) (hkT : k ≤ T) : Fits T x :=
  ⟨Nat.le_trans h.1 hkT, Nat.lt_of_lt_of_le h.2 (Nat.pow_le_pow_right (by omega) (by omega))⟩

/-- In any number of rows, `rightSib` finds the same node. -/
theorem rightSib_nodePos_iff (hx : Fits k x) (hy : Fits k y) :
    rightSib (nodePos k x) = nodePos k y ↔ y = if x.off % 2 = 0 then x.sibling else x := by
  rw [rightSib_nodePos hx]
  by_cases heven : x.off % 2 = 0
  · rw [if_pos heven]
    constructor
    · intro he
      exact eq_sibling_of_nodePos hx hy he.symm
    · rintro rfl
      rfl
  · rw [if_neg heven]
    constructor
    · intro he
      exact hy.pos_inj hx he.symm
    · rintro rfl
      rfl

variable (hkT : k ≤ T) (hT : T ≤ 63)
include hkT hT

theorem translatePos_up (hx : Fits k x) : translatePos (nodePos k x) k T = nodePos T x :=
  translatePos_nodePos (by omega) (by omega) hx (hx.mono hkT)

/-- Translating the positions of a tree into one with more rows renumbers them. -/
theorem renumbers_translatePos :
    Renumbers (translatePos · k T) {p | p < 2 ^ (k + 1) - 1} := by
  constructor
  · intro p q hp hq
    obtain ⟨x, hx, rfl⟩ := Fits.exists_of_lt hp
    obtain ⟨y, hy, rfl⟩ := Fits.exists_of_lt hq
    simp only [translatePos_up hkT hT hx, translatePos_up hkT hT hy]
    rw [(hx.mono hkT).pos_lt_iff (hy.mono hkT), hx.pos_lt_iff hy]
  · intro p q hp hq
    obtain ⟨x, hx, rfl⟩ := Fits.exists_of_lt hp
    obtain ⟨y, hy, rfl⟩ := Fits.exists_of_lt hq
    simp only [translatePos_up hkT hT hx, translatePos_up hkT hT hy]
    rw [rightSib_nodePos_iff (hx.mono hkT) (hy.mono hkT), rightSib_nodePos_iff hx hy]

theorem translatePos_back {p : Nat} (hp : p < 2 ^ (k + 1) - 1) :
    translatePos (translatePos p k T) T k = p := by
  obtain ⟨x, hx, rfl⟩ := Fits.exists_of_lt hp
  rw [translatePos_up hkT hT hx, translatePos_nodePos (by omega) (by omega) (hx.mono hkT) hx]

theorem translatePos_parent {p : Nat} (hp : p < 2 ^ (k + 1) - 2) :
    translatePos (parent p k) k T = parent (translatePos p k T) T := by
  obtain ⟨x, hx, hrow, rfl⟩ := exists_fits_row_lt hp
  rw [translatePos_up hkT hT hx, parent_nodePos (by omega) hx hrow,
    parent_nodePos (by omega) (hx.mono hkT) (by omega), translatePos_up hkT hT (hx.parent hrow)]

theorem translatePos_sibling {p : Nat} (hp : p < 2 ^ (k + 1) - 2) :
    translatePos (sibling p) k T = sibling (translatePos p k T) := by
  obtain ⟨x, hx, hrow, rfl⟩ := exists_fits_row_lt hp
  rw [translatePos_up hkT hT hx, sibling_nodePos hx, sibling_nodePos (hx.mono hkT),
    translatePos_up hkT hT (hx.sibling hrow)]

theorem translatePos_leftChild {p : Nat} (hp : p < 2 ^ (k + 1) - 1) (hr : 1 ≤ detectRow p k) :
    translatePos (leftChild p k) k T = leftChild (translatePos p k T) T := by
  obtain ⟨x, hx, rfl⟩ := Fits.exists_of_lt hp
  rw [detectRow_nodePos (by omega) hx] at hr
  have hleft : Fits k x.left := Fits.child (by rwa [Node.left_parent hr])
  rw [translatePos_up hkT hT hx, leftChild_nodePos (by omega) hx hr,
    leftChild_nodePos (by omega) (hx.mono hkT) hr, translatePos_up hkT hT hleft]

theorem translatePos_rightChild {p : Nat} (hp : p < 2 ^ (k + 1) - 1) (hr : 1 ≤ detectRow p k) :
    translatePos (rightChild p k) k T = rightChild (translatePos p k T) T := by
  obtain ⟨x, hx, rfl⟩ := Fits.exists_of_lt hp
  rw [detectRow_nodePos (by omega) hx] at hr
  have hright : Fits k x.right := Fits.child (by rwa [Node.right_parent hr])
  rw [translatePos_up hkT hT hx, rightChild_nodePos (by omega) hx hr,
    rightChild_nodePos (by omega) (hx.mono hkT) hr, translatePos_up hkT hT hright]

theorem deTwin_translate {l : List Nat} (hl : ∀ p ∈ l, p < 2 ^ (k + 1) - 1) :
    deTwin (l.map (translatePos · k T)) T = (deTwin l k).map (translatePos · k T) := by
  rw [deTwin, deTwin, List.length_map]
  apply (renumbers_translatePos hkT hT).deTwinLoop_map
  · intro p hp hsib
    -- The top is no sibling.
    have hp' : p < 2 ^ (k + 1) - 2 := by
      have hpow : 2 ^ (k + 1) = 2 * 2 ^ k := by ring
      have hor := or_one_eq p
      simp only [Set.mem_ofPred_eq, rightSib] at hp hsib
      split at hor <;> omega
    have hpar : parent p k < 2 ^ (k + 1) - 1 := by
      obtain ⟨x, hx, hrow, rfl⟩ := exists_fits_row_lt hp'
      rw [parent_nodePos (by omega) hx hrow]
      exact (hx.parent hrow).pos_lt_max
    exact ⟨hpar, (translatePos_parent hkT hT hp').symm⟩
  · exact hl

end

/-! ### `proofPositions` -/

/-- The state of the loop with every position renumbered. -/
def PosState.map (f : Nat → Nat) (ps : PosState) : PosState :=
  ⟨ps.row, ps.targets.map f, ps.queue.map f, ps.nextTargets.map f, ps.proofPositions.map f⟩

section
variable {f : Nat → Nat} {ps : PosState}

theorem PosState.drop_map (i : Source) : (ps.map f).drop i = (ps.drop i).map f := by
  cases i <;> simp [PosState.drop, PosState.map, List.map_tail]

theorem PosState.after_map (idx : Source) (sib : Option Source) :
    (ps.map f).after idx sib = (ps.after idx sib).map f := by
  cases sib <;> simp only [PosState.after, PosState.drop_map]

end

section
variable {n T : Nat} (hrows : treeRows n ≤ T) (hT : T ≤ 63) {ps : PosState}
include hrows hT

/-- A round of `proofPositions` does the same on translated positions. -/
theorem posStep_translate (hinv : PosInv n ps) (hin : ∀ p ∈ ps.pending, InForestPos n p)
    {fuel fuel' : Nat} (hf : 65 ≤ fuel) (hf' : 65 ≤ fuel') :
    ∃ r, posStep n (treeRows n) fuel ps = .ok r ∧
      posStep n T fuel' (ps.map (translatePos · (treeRows n) T)) =
        .ok (r.map (PosState.map (translatePos · (treeRows n) T))) := by
  have hk : treeRows n ≤ 63 := by omega
  have hn : n ≤ 2 ^ 63 := treeRows_le_iff.mp hk
  have hn' := le_two_pow_treeRows n
  have hren := renumbers_translatePos hrows hT
  have hmem : ∀ p ∈ ps.pending, p ∈ {p | p < 2 ^ (treeRows n + 1) - 1} := by
    intro p hp
    obtain ⟨x, hx, rfl⟩ := hin p hp
    exact (fits_of_inForest hn' hx).pos_lt_max
  have hmap := hren.getNextPos_map (A := ps.targets) (B := ps.queue)
    (fun p hp => hmem p (List.mem_append_left _ hp))
    fun p hp => hmem p (List.mem_append_right _ hp)
  have hrow := hinv.row_le
  cases hnext : getNextPos ps.targets ps.queue with
  | none =>
    rw [hnext, Option.map_none] at hmap
    exact ⟨none, posStep_none hrow hnext, posStep_none (Nat.le_trans hrow hrows) hmap⟩
  | some t =>
    obtain ⟨p, idx, sib⟩ := t
    rw [hnext, Option.map_some] at hmap
    obtain ⟨x, hx, rfl⟩ := hin p (hinv.swept.next_le hnext).1
    have hfit := fits_of_inForest hn' hx
    have hxk := hfit.1
    -- Both find the row of the node, and both see whether it is a root.
    have hle : ps.row ≤ x.row := by
      by_contra hgt
      have h1 := hinv.passed x.row (by omega) _ (hinv.swept.next_le hnext).1
      have h2 := hfit.pos_lt
      dsimp only at h1
      rw [maxPossiblePosAtRow_eq hk hxk] at h1
      omega
    have hrl := possibleRowLoop_nodePos hk hfit hle
      (show treeRows n + 1 < ps.row + fuel by omega)
    have hrl' := possibleRowLoop_nodePos (show T ≤ 63 by omega) (hfit.mono hrows) hle
      (show T + 1 < ps.row + fuel' by omega)
    have hroot := isRootPositionOnRowTotalRows_nodePos hk hn' hx
    have hroot' := isRootPositionOnRowTotalRows_nodePos (show T ≤ 63 by omega)
      (treeRows_le_iff.mp hrows) hx
    simp only [translatePos_up hrows hT hfit] at hmap
    have hrow' : (ps.map (translatePos · (treeRows n) T)).row ≤ T := Nat.le_trans hrow hrows
    rcases posStep_round (n := n) hrow hnext hrl with ⟨hlt, -⟩ | ⟨-, hr, hs⟩ | ⟨-, hr, hs⟩
    · omega
    · refine ⟨_, hs, ?_⟩
      rcases posStep_round (n := n) hrow' hmap hrl' with ⟨hlt, -⟩ | ⟨-, hr', hs'⟩ | ⟨-, hr', hs'⟩
      · omega
      · rw [hs', PosState.drop_map]
        rfl
      · rw [hroot'.mpr (hroot.mp hr)] at hr'
        cases hr'
    · refine ⟨_, hs, ?_⟩
      have hnot : ¬ x.IsRoot n := fun h => by
        rw [hroot.mpr h] at hr
        cases hr
      have hmax : nodePos (treeRows n) x < 2 ^ (treeRows n + 1) - 2 := by
        have hpar := (fits_of_inForest hn' (hx.parent hnot)).1
        have h1 := hfit.pos_lt_of_before x.before_parent (y := x.parent)
        have h2 := (fits_of_inForest hn' (hx.parent hnot)).pos_lt_max
        omega
      rcases posStep_round (n := n) hrow' hmap hrl' with ⟨hlt, -⟩ | ⟨-, hr', hs'⟩ | ⟨-, hr', hs'⟩
      · omega
      · exact absurd (hroot'.mp hr') hnot
      · rw [hs', PosState.after_map, ← translatePos_up hrows hT hfit,
          ← translatePos_parent hrows hT hmax, ← translatePos_sibling hrows hT hmax]
        cases sib <;> simp [PosState.push, PosState.map]

section
variable {P : Node → Prop} (hP : ∀ x, P x → x.InForest n)
  (hup : ∀ x, P x → ¬ x.IsRoot n → P x.parent)
include hP hup
omit hrows hT

/-- What holds of the targets and goes up holds of all positions still to be visited, and what is
needed is beside such a position. -/
theorem posStep_among (hn : n ≤ 2 ^ 63) (hinv : PosInv n ps)
    (hps : ∀ p ∈ ps.pending, ∃ x, P x ∧ p = nodePos (treeRows n) x) {fuel : Nat} {ps' : PosState}
    (h : posStep n (treeRows n) fuel ps = .ok (some ps')) :
    PosInv n ps' ∧ (∀ p ∈ ps'.pending, ∃ x, P x ∧ p = nodePos (treeRows n) x) ∧
      ∀ q ∈ ps'.proofPositions, q ∈ ps.proofPositions ∨
        ∃ x, P x ∧ ¬ x.IsRoot n ∧ q = nodePos (treeRows n) x.sibling := by
  rcases posStep_cases hn hinv h with ⟨h', -⟩ | ⟨p, idx, sib, hnext, hcase⟩
  · cases h'
  rcases hcase with ⟨h', -⟩ | ⟨ps'', h', hp, hinv', -, hcase⟩
  · cases h'
  cases h'
  obtain ⟨x, hx, rfl⟩ := hps p (hinv.swept.next_le hnext).1
  have hn' := le_two_pow_treeRows n
  rcases hcase with ⟨-, ht, hqu, hproof⟩ | ⟨hroot, ht, hqu, hproof⟩
  · refine ⟨hinv', fun q hq => ?_, fun q hq => Or.inl (by rwa [← hproof])⟩
    rw [PosState.pending, ht, hqu] at hq
    exact hps q ((PosState.sub_drop ps idx).pending q hq)
  · have hxr : ¬ x.IsRoot n := fun hr => hroot ⟨x, hr, rfl⟩
    refine ⟨hinv', fun q hq => ?_, fun q hq => ?_⟩
    · rw [PosState.pending, ht, hqu, ← List.append_assoc, List.mem_append, List.mem_singleton] at hq
      rcases hq with hq | rfl
      · exact hps q ((PosState.sub_after ps idx sib).pending q hq)
      · exact ⟨x.parent, hup x hx hxr,
          parent_nodePos_inForest (treeRows_le hn) hn' (hP x hx) hxr⟩
    · rw [hproof, List.mem_append] at hq
      refine hq.imp_right fun hq => ⟨x, hx, hxr, ?_⟩
      rw [← sibling_nodePos (fits_of_inForest hn' (hP x hx))]
      cases sib with
      | none => exact List.mem_singleton.mp hq
      | some i => cases hq

/-- What a proof needs is beside the targets and what is above them, also where targets repeat. -/
theorem proofPositions_among (hn : n ≤ 2 ^ 63) {targets needed computed : List Nat}
    (hs : targets.Pairwise (· ≤ ·))
    (hts : ∀ p ∈ targets, ∃ x, P x ∧ p = nodePos (treeRows n) x)
    (h : proofPositions targets n (treeRows n) = .ok (needed, computed)) :
    ∀ q ∈ needed, ∃ x, P x ∧ ¬ x.IsRoot n ∧ q = nodePos (treeRows n) x.sibling := by
  have hloop : ∀ fuel {ps fin : PosState}, PosInv n ps →
      (∀ p ∈ ps.pending, ∃ x, P x ∧ p = nodePos (treeRows n) x) →
      posLoop n (treeRows n) fuel ps = .ok fin →
      ∀ q ∈ fin.proofPositions, q ∈ ps.proofPositions ∨
        ∃ x, P x ∧ ¬ x.IsRoot n ∧ q = nodePos (treeRows n) x.sibling := by
    intro fuel
    induction fuel with
    | zero =>
      intro ps fin _ _ h
      cases h
    | succ fuel ih =>
      intro ps fin hinv hps h q hq
      rw [posLoop] at h
      obtain ⟨r, hr, h⟩ := Exec.bind_eq_ok.mp h
      cases r with
      | none =>
        cases h
        exact Or.inl hq
      | some ps' =>
        obtain ⟨hinv', hps', hproof⟩ := posStep_among hP hup hn hinv hps hr
        rcases ih hinv' hps' h q hq with hq | hq
        · exact hproof q hq
        · exact Or.inr hq
  obtain ⟨fin, hfin, heq⟩ := proofPositions_returns hn hs
  rw [h] at heq
  cases heq
  intro q hq
  refine (hloop _ (posInv_start hs) (fun p hp => hts p ?_) hfin q hq).resolve_left ?_
  · simpa [PosState.pending, PosState.start] using hp
  · simp [PosState.start]

end

/-- The run of `proofPositions` on translated positions. -/
theorem posLoop_translate (hinv : PosInv n ps) (hin : ∀ p ∈ ps.pending, InForestPos n p)
    {fuel fuel' : Nat} (hf : ps.weight (treeRows n) + 66 ≤ fuel)
    (hf' : ps.weight (treeRows n) + 66 ≤ fuel') :
    ∃ fin, posLoop n (treeRows n) fuel ps = .ok fin ∧
      posLoop n T fuel' (ps.map (translatePos · (treeRows n) T)) =
        .ok (fin.map (translatePos · (treeRows n) T)) := by
  have hn : n ≤ 2 ^ 63 := treeRows_le_iff.mp (by omega)
  induction fuel generalizing ps fuel' with
  | zero => omega
  | succ fuel ih =>
    obtain ⟨fuel', rfl⟩ : ∃ f, fuel' = f + 1 := ⟨fuel' - 1, by omega⟩
    obtain ⟨r, hr, hr'⟩ := posStep_translate hrows hT hinv hin (show 65 ≤ fuel by omega)
      (show 65 ≤ fuel' by omega)
    rw [posLoop, posLoop, hr, hr', Exec.ok_bind, Exec.ok_bind]
    cases r with
    | none => exact ⟨ps, rfl, rfl⟩
    | some ps' =>
      have hw := weight_posStep hn hinv hr
      obtain ⟨hinv', hin', -⟩ := posStep_among (fun x hx => hx) (fun x hx hr => hx.parent hr) hn
        hinv hin hr
      exact ih hinv' hin' (by omega) (by omega)

theorem proofPositions_translate {targets : List Nat} (hs : targets.Pairwise (· ≤ ·))
    (hin : ∀ p ∈ targets, InForestPos n p) :
    ∃ needed computed, proofPositions targets n (treeRows n) = .ok (needed, computed) ∧
      proofPositions (targets.map (translatePos · (treeRows n) T)) n T =
        .ok (needed.map (translatePos · (treeRows n) T),
          computed.map (translatePos · (treeRows n) T)) := by
  have hw := PosState.weight_start_le targets (treeRows n)
  have hlen : (targets.length + 1) * (treeRows n + 2) ≤ (targets.length + 1) * (T + 2) :=
    Nat.mul_le_mul_left _ (by omega)
  rw [Nat.add_mul] at hlen
  obtain ⟨fin, h1, h2⟩ := posLoop_translate hrows hT (posInv_start hs)
    (fun p hp => hin p (by simpa [PosState.pending, PosState.start] using hp))
    (show _ ≤ (targets.length + 1) * (treeRows n + 2) + 257 by rw [Nat.add_mul]; omega)
    (show _ ≤ (targets.length + 1) * (T + 2) + 257 by omega)
  refine ⟨fin.proofPositions, fin.nextTargets, ?_, ?_⟩
  · rw [PosState.start] at h1
    rw [proofPositions, h1, Exec.ok_bind]
  · simp only [PosState.start, PosState.map, List.map_nil] at h2
    rw [proofPositions, List.length_map, h2, Exec.ok_bind]

/-! ### Roots and the forest -/

theorem rootPositions_translate :
    rootPositions n T = (rootPositions n (treeRows n)).map (translatePos · (treeRows n) T) := by
  have hn' := le_two_pow_treeRows n
  have hnT : n ≤ 2 ^ T := treeRows_le_iff.mp hrows
  -- The rows that only the larger tree has are without a root.
  have hfilter : (List.range (T + 1)).reverse.filter (rootExistsOnRow n) =
      (List.range (treeRows n + 1)).reverse.filter (rootExistsOnRow n) := by
    obtain ⟨d, rfl⟩ := Nat.exists_eq_add_of_le hrows
    have hnone : (List.map (treeRows n + 1 + ·) (List.range d)).reverse.filter
        (rootExistsOnRow n) = [] := by
      rw [List.filter_eq_nil_iff]
      intro r hr hroot
      rw [List.mem_reverse, List.mem_map] at hr
      obtain ⟨i, -, rfl⟩ := hr
      rw [rootExistsOnRow, decide_eq_true_eq, shiftRight_and_one] at hroot
      have := testBit_row_le hn' hroot
      omega
    rw [show treeRows n + d + 1 = treeRows n + 1 + d by omega, List.range_add, List.reverse_append,
      List.filter_append, hnone, List.nil_append]
  rw [rootPositions, rootPositions, hfilter, List.map_map]
  apply List.map_congr_left
  intro r hr
  have hr' : r ≤ treeRows n := by
    have := List.mem_range.mp (List.mem_reverse.mp (List.mem_filter.mp hr).1)
    omega
  have hb : n.testBit r = true := by
    have := (List.mem_filter.mp hr).2
    rwa [rootExistsOnRow, decide_eq_true_eq, shiftRight_and_one] at this
  rw [Function.comp_apply, rootPosition_eq (by omega) hnT (by omega),
    rootPosition_eq (by omega) hn' hr',
    translatePos_up hrows hT (fits_of_inForest hn' (Node.rootAt_isRoot hb).inForest)]

theorem inForest_translate {p : Nat} (hp : p < 2 ^ (treeRows n + 1) - 1) :
    inForest (translatePos p (treeRows n) T) n T = inForest p n (treeRows n) := by
  obtain ⟨x, hx, rfl⟩ := Fits.exists_of_lt hp
  rw [translatePos_up hrows hT hx,
    inForest_nodePos (by omega) (treeRows_le_iff.mp hrows) (hx.mono hrows),
    inForest_nodePos (by omega) (le_two_pow_treeRows n) hx]

end

/-- **The number of rows does not matter.**  For every number of rows `T` with room for the
leaves, the translation from the rows that the leaves need can be undone, keeps the order, the
parents, the siblings and the children, and is what the roots, the forest, the needed and the
computed positions of a proof and the merged deletions differ by.  The targets may repeat or be
above one another. -/
theorem rows_do_not_matter {n T : Nat} (hrows : treeRows n ≤ T) (hT : T ≤ 62) :
    let k := treeRows n
    let tr := fun p => translatePos p k T
    (∀ p < 2 ^ (k + 1) - 1, translatePos (tr p) T k = p) ∧
    (∀ p < 2 ^ (k + 1) - 1, ∀ q < 2 ^ (k + 1) - 1, p < q → tr p < tr q) ∧
    (∀ p < 2 ^ (k + 1) - 2,
      tr (parent p k) = parent (tr p) T ∧ tr (sibling p) = sibling (tr p)) ∧
    (∀ p < 2 ^ (k + 1) - 1, 1 ≤ detectRow p k →
      tr (leftChild p k) = leftChild (tr p) T ∧ tr (rightChild p k) = rightChild (tr p) T) ∧
    rootPositions n T = (rootPositions n k).map tr ∧
    (∀ p < 2 ^ (k + 1) - 1, inForest (tr p) n T = inForest p n k) ∧
    (∀ targets : List Nat, targets.Pairwise (· ≤ ·) →
      (∀ p ∈ targets, inForest p n k = .ok true) →
      (∃ needed computed, proofPositions targets n k = .ok (needed, computed) ∧
        proofPositions (targets.map tr) n T = .ok (needed.map tr, computed.map tr)) ∧
      deTwin (targets.map tr) T = (deTwin targets k).map tr) := by
  have hn : n ≤ 2 ^ 63 := treeRows_le_iff.mp (by omega)
  replace hT : T ≤ 63 := Nat.le_succ_of_le hT
  refine ⟨?_, ?_, ?_, ?_, ?_, ?_, ?_⟩
  · intro p hp
    exact translatePos_back hrows hT hp
  · intro p hp q hq hlt
    exact ((renumbers_translatePos hrows hT).lt_iff hp hq).mpr hlt
  · intro p hp
    exact ⟨translatePos_parent hrows hT hp, translatePos_sibling hrows hT hp⟩
  · intro p hp hr
    exact ⟨translatePos_leftChild hrows hT hp hr, translatePos_rightChild hrows hT hp hr⟩
  · exact rootPositions_translate hrows hT
  · intro p hp
    exact inForest_translate hrows hT hp
  · intro targets hs hin
    have hpos : ∀ p ∈ targets, InForestPos n p := fun p hp => (inForest_iff hn p).mp (hin p hp)
    refine ⟨proofPositions_translate hrows hT hs hpos, deTwin_translate hrows hT fun p hp => ?_⟩
    obtain ⟨x, hx, rfl⟩ := hpos p hp
    exact (fits_of_inForest (le_two_pow_treeRows n) hx).pos_lt_max

/-- Two siblings and a leaf of five, in a tree of three rows and in one of five. -/
theorem rows_do_not_matter_five :
    (∃ needed computed, proofPositions [0, 1, 4] 5 (treeRows 5) = .ok (needed, computed) ∧
      proofPositions ([0, 1, 4].map (translatePos · (treeRows 5) 5)) 5 5 =
        .ok (needed.map (translatePos · (treeRows 5) 5),
          computed.map (translatePos · (treeRows 5) 5))) ∧
    deTwin ([0, 1, 4].map (translatePos · (treeRows 5) 5)) 5 =
      (deTwin [0, 1, 4] (treeRows 5)).map (translatePos · (treeRows 5) 5) :=
  have h := rows_do_not_matter (n := 5) (T := 5) (by decide) (by decide)
  h.2.2.2.2.2.2 [0, 1, 4] (by decide) (by decide)

end Utreexo
