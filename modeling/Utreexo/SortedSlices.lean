import Utreexo.HashAndPos
import Utreexo.Listing

/-! # Merging and subtracting sorted slices

The loops of `prove.go` over two sorted slices.  On slices that list sets of positions they
list the union, the difference and the intersection of the sets.  A slice of positions with
hashes is here often the image of one of positions, `l.map (withHash V)`.
-/
namespace Utreexo
open Merkle

/-- `uint64Cmp`. -/
def uint64Cmp (a b : Nat) : Ordering := compare a b

/-- `copySortedFunc` with `uint64Less`. -/
def copySorted (slice : List Nat) : List Nat := sortPositions slice

section Loops
variable {E F : Type}

/-- The loop of `mergeSortedSlicesFunc`; `j` counts the slots left in the result. -/
def mergeSlicesLoop (cmp : E → E → Ordering) : Nat → List E → List E → List E
  | _, [], b => b
  | _, a, [] => a
  | 0, _ :: _, _ :: _ => []
  | j + 1, vala :: a, valb :: b =>
    match cmp vala valb with
    | .lt => vala :: mergeSlicesLoop cmp j a (valb :: b)
    | .gt => valb :: mergeSlicesLoop cmp j (vala :: a) b
    | .eq => vala :: mergeSlicesLoop cmp j a b

def mergeSortedSlicesFunc (a b : List E) (cmp : E → E → Ordering) : List E :=
  mergeSlicesLoop cmp (a.length + b.length) a b

/-- The loop of `subtractSortedSlice`: every round moves on in one of the slices. -/
def subtractLoop (cmp : E → F → Ordering) : Nat → List E → List F → List E
  | _, [], _ => []
  | _, a, [] => a
  | 0, _ :: _, _ :: _ => []
  | j + 1, x :: a, y :: b =>
    match cmp x y with
    | .eq => subtractLoop cmp j a b
    | .lt => x :: subtractLoop cmp j a (y :: b)
    | .gt => subtractLoop cmp j (x :: a) b

/-- The elements of `a` that are not in `b`. -/
def subtractSortedSlice (a : List E) (b : List F) (cmp : E → F → Ordering) : List E :=
  subtractLoop cmp (a.length + b.length) a b

/-- The same for a slice with hashes. -/
def subtractSortedHashAndPos {H : Type} (a : List (Nat × H)) (b : List F)
    (cmp : Nat → F → Ordering) : List (Nat × H) :=
  subtractSortedSlice a b fun e => cmp e.1

/-- The loop of `getHashAndPosSubset`. -/
def subsetLoop {H : Type} : Nat → List (Nat × H) → List Nat → List (Nat × H)
  | _, [], _ => []
  | _, _, [] => []
  | 0, _ :: _, _ :: _ => []
  | j + 1, e :: a, y :: b =>
    if e.1 = y then e :: subsetLoop j a b
    else if y < e.1 then subsetLoop j (e :: a) b
    else subsetLoop j a (y :: b)

/-- The entries of `a` at the positions `b`. -/
def getHashAndPosSubset {H : Type} (a : List (Nat × H)) (b : List Nat) : List (Nat × H) :=
  subsetLoop (a.length + b.length) a b

end Loops

/-! ### What the loops list -/

section Positions
variable {a b : List Nat} {S S' : Set Nat}

theorem sort_listing {l : List Nat} (h : l.Nodup) : Listing (sortPositions l) {p | p ∈ l} := by
  have hperm := sortPositions_perm l
  exact (Listing.of_nodup (sortPositions_sorted l) (hperm.nodup_iff.mpr h)).congr
    fun p => hperm.mem_iff

theorem sortPositions_eq_self (h : Listing a S) : sortPositions a = a :=
  ((sort_listing h.nodup).congr h.mem).unique h

theorem mergeSlicesLoop_mem {j p : Nat} (hj : a.length + b.length ≤ j) :
    p ∈ mergeSlicesLoop uint64Cmp j a b ↔ p ∈ a ∨ p ∈ b := by
  fun_induction mergeSlicesLoop uint64Cmp j a b with
  | case1 j b => simp
  | case2 j a _ => simp
  | case3 x a y b => simp at hj
  | case4 j x a y b hcmp ih =>
    rw [List.mem_cons, ih (by simp at hj ⊢; omega), List.mem_cons (l := a), or_assoc]
  | case5 j x a y b hcmp ih =>
    rw [List.mem_cons, ih (by simp at hj ⊢; omega), List.mem_cons (l := b), or_left_comm]
  | case6 j x a y b hcmp ih =>
    obtain rfl : x = y := compare_eq_iff_eq.mp hcmp
    rw [List.mem_cons, ih (by simp at hj ⊢; omega), List.mem_cons, List.mem_cons]
    tauto

theorem mergeSlicesLoop_sorted {j : Nat} (hj : a.length + b.length ≤ j)
    (ha : a.Pairwise (· < ·)) (hb : b.Pairwise (· < ·)) :
    (mergeSlicesLoop uint64Cmp j a b).Pairwise (· < ·) := by
  fun_induction mergeSlicesLoop uint64Cmp j a b with
  | case1 j b => exact hb
  | case2 j a _ => exact ha
  | case3 x a y b => exact .nil
  | case4 j x a y b hcmp ih =>
    have hxy : x < y := compare_lt_iff_lt.mp hcmp
    have hj' : a.length + (y :: b).length ≤ j := by simp at hj ⊢; omega
    obtain ⟨hx, ha⟩ := List.pairwise_cons.mp ha
    refine List.pairwise_cons.mpr ⟨fun p hp => ?_, ih hj' ha hb⟩
    rcases (mergeSlicesLoop_mem hj').mp hp with hp | hp
    · exact hx p hp
    · rcases List.mem_cons.mp hp with rfl | hp
      · exact hxy
      · exact hxy.trans ((List.pairwise_cons.mp hb).1 p hp)
  | case5 j x a y b hcmp ih =>
    have hxy : y < x := compare_gt_iff_gt.mp hcmp
    have hj' : (x :: a).length + b.length ≤ j := by simp at hj ⊢; omega
    obtain ⟨hy, hb⟩ := List.pairwise_cons.mp hb
    refine List.pairwise_cons.mpr ⟨fun p hp => ?_, ih hj' ha hb⟩
    rcases (mergeSlicesLoop_mem hj').mp hp with hp | hp
    · rcases List.mem_cons.mp hp with rfl | hp
      · exact hxy
      · exact hxy.trans ((List.pairwise_cons.mp ha).1 p hp)
    · exact hy p hp
  | case6 j x a y b hcmp ih =>
    obtain rfl : x = y := compare_eq_iff_eq.mp hcmp
    have hj' : a.length + b.length ≤ j := by simp at hj; omega
    obtain ⟨hx, ha⟩ := List.pairwise_cons.mp ha
    obtain ⟨hy, hb⟩ := List.pairwise_cons.mp hb
    refine List.pairwise_cons.mpr ⟨fun p hp => ?_, ih hj' ha hb⟩
    exact ((mergeSlicesLoop_mem hj').mp hp).elim (hx p) (hy p)

/-- The union is listed. -/
theorem mergeSlices_listing (ha : Listing a S) (hb : Listing b S') :
    Listing (mergeSortedSlicesFunc a b uint64Cmp) (S ∪ S') := by
  refine ⟨mergeSlicesLoop_sorted (Nat.le_refl _) ha.sorted hb.sorted, fun p => ?_⟩
  rw [mergeSortedSlicesFunc, mergeSlicesLoop_mem (Nat.le_refl _), ha.mem, hb.mem, Set.mem_union]

theorem subtractLoop_eq {j : Nat} (hj : a.length + b.length ≤ j) (ha : a.Pairwise (· < ·))
    (hb : b.Pairwise (· < ·)) :
    subtractLoop uint64Cmp j a b = a.filter (· ∉ b) := by
  fun_induction subtractLoop uint64Cmp j a b with
  | case1 j b => rfl
  | case2 j a _ => simp
  | case3 x a y b => simp at hj
  | case4 j x a y b hcmp ih =>
    obtain rfl : x = y := compare_eq_iff_eq.mp hcmp
    obtain ⟨hx, ha⟩ := List.pairwise_cons.mp ha
    obtain ⟨hy, hb⟩ := List.pairwise_cons.mp hb
    rw [ih (by simp at hj; omega) ha hb, List.filter_cons_of_neg (by simp)]
    refine List.filter_congr fun p hp => ?_
    have hne : p ≠ x := (hx p hp).ne'
    simp [hne]
  | case5 j x a y b hcmp ih =>
    have hxy : x < y := compare_lt_iff_lt.mp hcmp
    obtain ⟨hx, ha⟩ := List.pairwise_cons.mp ha
    have hnot : x ∉ y :: b := by
      intro h
      rcases List.mem_cons.mp h with rfl | h
      · omega
      · have := (List.pairwise_cons.mp hb).1 x h
        omega
    rw [ih (by simp at hj ⊢; omega) ha hb, List.filter_cons_of_pos (by simpa using hnot)]
  | case6 j x a y b hcmp ih =>
    have hxy : y < x := compare_gt_iff_gt.mp hcmp
    obtain ⟨hy, hb⟩ := List.pairwise_cons.mp hb
    rw [ih (by simp at hj ⊢; omega) ha hb]
    refine List.filter_congr fun p hp => ?_
    have hne : p ≠ y := by
      rcases List.mem_cons.mp hp with rfl | hp
      · omega
      · have := (List.pairwise_cons.mp ha).1 p hp
        omega
    simp [hne]

/-- The difference is listed. -/
theorem subtractSlice_listing (ha : Listing a S) (hb : Listing b S') :
    Listing (subtractSortedSlice a b uint64Cmp) (S \ S') := by
  rw [subtractSortedSlice, subtractLoop_eq (Nat.le_refl _) ha.sorted hb.sorted]
  refine (ha.filter (· ∉ b)).congr fun p => ?_
  rw [Set.mem_ofPred_eq, hb.mem, Set.mem_sdiff]

end Positions

/-! ### Slices with hashes -/

section WithHash
variable {H : Type} (V : Nat → H) {a b : List Nat} {S S' : Set Nat}

/-- An entry for a position. -/
def withHash (p : Nat) : Nat × H := (p, V p)

@[simp] theorem withHash_fst (p : Nat) : (withHash V p).1 = p := rfl

@[simp] theorem withHash_snd (p : Nat) : (withHash V p).2 = V p := rfl

theorem map_withHash_fst (l : List Nat) : (l.map (withHash V)).map Prod.fst = l := by
  rw [List.map_map, show Prod.fst ∘ withHash V = id from rfl, List.map_id]

theorem map_withHash_snd (l : List Nat) : (l.map (withHash V)).map Prod.snd = l.map V := by
  rw [List.map_map]
  rfl

theorem zip_map_eq (l : List Nat) : l.zip (l.map V) = l.map (withHash V) := by
  induction l with
  | nil => rfl
  | cons p l ih =>
    rw [List.map_cons, List.zip_cons_cons, ih, List.map_cons]
    rfl

/-- Merging entries is merging their positions. -/
theorem mergeLoop_withHash (j : Nat) :
    mergeLoop j (a.map (withHash V)) (b.map (withHash V)) =
      (mergeSlicesLoop uint64Cmp j a b).map (withHash V) := by
  fun_induction mergeSlicesLoop uint64Cmp j a b with
  | case1 j b => simp [mergeLoop]
  | case2 j a _ => cases a <;> simp [mergeLoop]
  | case3 x a y b => simp [mergeLoop]
  | case4 j x a y b hcmp ih =>
    have hxy : x < y := compare_lt_iff_lt.mp hcmp
    rw [List.map_cons, List.map_cons, List.map_cons, ← ih, withHash, withHash, mergeLoop,
      if_pos hxy]
    rfl
  | case5 j x a y b hcmp ih =>
    have hxy : y < x := compare_gt_iff_gt.mp hcmp
    rw [List.map_cons, List.map_cons, List.map_cons, ← ih, withHash, withHash, mergeLoop,
      if_neg (by omega), if_pos hxy]
    rfl
  | case6 j x a y b hcmp ih =>
    obtain rfl : x = y := compare_eq_iff_eq.mp hcmp
    rw [List.map_cons, List.map_cons, List.map_cons, ← ih, withHash, mergeLoop,
      if_neg (by omega), if_neg (by omega)]

theorem mergeSortedHashAndPos_withHash :
    mergeSortedHashAndPos (a.map (withHash V)) (b.map (withHash V)) =
      (mergeSortedSlicesFunc a b uint64Cmp).map (withHash V) := by
  rw [mergeSortedHashAndPos, mergeSortedSlicesFunc, List.length_map, List.length_map,
    mergeLoop_withHash]

theorem subtractSortedHashAndPos_withHash :
    subtractSortedHashAndPos (a.map (withHash V)) b uint64Cmp =
      (subtractSortedSlice a b uint64Cmp).map (withHash V) := by
  have key : ∀ j, subtractLoop (fun e : Nat × H => uint64Cmp e.1) j (a.map (withHash V)) b =
      (subtractLoop uint64Cmp j a b).map (withHash V) := by
    intro j
    fun_induction subtractLoop uint64Cmp j a b with
    | case1 j b => simp [subtractLoop]
    | case2 j a _ => cases a <;> simp [subtractLoop]
    | case3 x a y b => simp [subtractLoop]
    | case4 j x a y b hcmp ih => simp [subtractLoop, hcmp, ih]
    | case5 j x a y b hcmp ih => simp [subtractLoop, hcmp, ih]
    | case6 j x a y b hcmp ih => simpa [subtractLoop, hcmp] using ih
  rw [subtractSortedHashAndPos, subtractSortedSlice, subtractSortedSlice, List.length_map, key]

theorem subsetLoop_eq {j : Nat} (hj : a.length + b.length ≤ j) (ha : a.Pairwise (· < ·))
    (hb : b.Pairwise (· < ·)) :
    subsetLoop j (a.map (withHash V)) b = (a.filter (· ∈ b)).map (withHash V) := by
  induction j generalizing a b with
  | zero =>
    obtain rfl : a = [] := List.eq_nil_of_length_eq_zero (by omega)
    simp [subsetLoop]
  | succ j ih =>
    rcases a with _ | ⟨x, a⟩
    · simp [subsetLoop]
    rcases b with _ | ⟨y, b⟩
    · simp [subsetLoop]
    obtain ⟨hx, ha'⟩ := List.pairwise_cons.mp ha
    obtain ⟨hy, hb'⟩ := List.pairwise_cons.mp hb
    simp only [List.length_cons] at hj
    rw [List.map_cons, subsetLoop, withHash_fst]
    by_cases hxy : x = y
    · subst hxy
      rw [if_pos rfl, ih (by omega) ha' hb', List.filter_cons_of_pos (by simp), List.map_cons]
      congr 2
      refine List.filter_congr fun p hp => ?_
      have hne : p ≠ x := (hx p hp).ne'
      simp [hne]
    · rw [if_neg hxy]
      by_cases hlt : y < x
      · rw [if_pos hlt, ← List.map_cons, ih (by simp; omega) ha hb']
        congr 1
        refine List.filter_congr fun p hp => ?_
        have hne : p ≠ y := by
          rcases List.mem_cons.mp hp with rfl | hp
          · omega
          · have := hx p hp
            omega
        simp [hne]
      · have hnot : x ∉ y :: b := by
          intro h
          rcases List.mem_cons.mp h with h | h
          · exact hxy h
          · have := hy x h
            omega
        rw [if_neg hlt, ih (by simp; omega) ha' hb, List.filter_cons_of_neg (by simpa using hnot)]

/-- The entries at the positions of the other slice, if they are there. -/
theorem getHashAndPosSubset_withHash (ha : Listing a S) (hb : Listing b S') (hS : S' ⊆ S) :
    getHashAndPosSubset (a.map (withHash V)) b = b.map (withHash V) := by
  rw [getHashAndPosSubset, subsetLoop_eq V (by simp) ha.sorted hb.sorted]
  refine congrArg _ (((ha.filter (· ∈ b)).congr fun p => ?_).unique hb)
  rw [Set.mem_ofPred_eq, hb.mem]
  exact ⟨fun h => h.2, fun h => ⟨hS h, h⟩⟩

/-- Sorting entries is sorting their positions. -/
theorem toHashAndPos_withHash [SortAlg] {targets : List Nat} (h : targets.Nodup) :
    toHashAndPos targets (targets.map V) = (sortPositions targets).map (withHash V) := by
  rw [toHashAndPos, zip_map_eq]
  have hperm := SortAlg.perm Prod.fst (targets.map (withHash V))
  have hsorted := SortAlg.sorted Prod.fst (targets.map (withHash V))
  generalize SortAlg.sort Prod.fst (targets.map (withHash V)) = l at *
  have hfst : (l.map Prod.fst).Perm targets := by
    have h' := hperm.map Prod.fst
    rwa [map_withHash_fst] at h'
  have hl : l = (l.map Prod.fst).map (withHash V) := by
    rw [List.map_map]
    refine (List.map_id l).symm.trans (List.map_congr_left fun e he => ?_)
    obtain ⟨p, -, rfl⟩ := List.mem_map.mp (hperm.mem_iff.mp he)
    rfl
  have hlist : Listing (l.map Prod.fst) {p | p ∈ targets} :=
    (Listing.of_nodup (List.pairwise_map.mpr hsorted) (hfst.nodup_iff.mpr h)).congr
      fun p => hfst.mem_iff
  rw [hl, hlist.unique (sort_listing h)]

end WithHash

end Utreexo
