import Utreexo.Forest

/-! # The roots as a binary counter

The rows that have a root are the set bits of the number of leaves, so adding a
leaf is adding one to a binary counter: the trees on the rows of the trailing
ones are merged into one tree on the row of the lowest zero.
-/
namespace Utreexo
open Merkle

theorem testBit_iff {n r : Nat} : n.testBit r = true ↔ n / 2 ^ r % 2 = 1 := by
  rw [Nat.testBit_eq_decide_div_mod_eq]
  simp

theorem shiftRight_and_one {n r : Nat} : (n >>> r) &&& 1 = 1 ↔ n.testBit r = true := by
  rw [Nat.and_one_is_mod, Nat.shiftRight_eq_div_pow, testBit_iff]

theorem testBit_eq_false {n r : Nat} : n.testBit r = false ↔ n / 2 ^ r % 2 = 0 := by
  rw [Nat.testBit_eq_decide_div_mod_eq]
  simp

theorem length_rootRows (n : Nat) : (rootRows n 0).length = numRoots n := by
  rw [rootRows, numRoots, onesCount64, List.filter_reverse, List.length_reverse,
    List.range_eq_range']

theorem rootRows_step (n : Nat) {h : Nat} (hh : h < 64) :
    rootRows n h = rootRows n (h + 1) ++ (if n.testBit h then [h] else []) := by
  have hlen : 64 - h = 64 - (h + 1) + 1 := by omega
  rw [rootRows, rootRows, hlen, List.range'_succ, List.reverse_cons, List.filter_append,
    List.filter_singleton]
  cases n.testBit h <;> rfl

@[simp] theorem rootRows_sixtyFour (n : Nat) : rootRows n 64 = [] := by simp [rootRows]

theorem mem_rootRows {n h r : Nat} : r ∈ rootRows n h ↔ h ≤ r ∧ r < 64 ∧ n.testBit r = true := by
  simp only [rootRows, List.mem_filter, List.mem_reverse, List.mem_range'_1]
  constructor
  · rintro ⟨⟨h1, h2⟩, h3⟩; exact ⟨h1, by omega, h3⟩
  · rintro ⟨h1, h2, h3⟩; exact ⟨⟨h1, by omega⟩, h3⟩

theorem rootRows_congr {n m h : Nat} (hb : ∀ r, h ≤ r → n.testBit r = m.testBit r) :
    rootRows n h = rootRows m h := by
  refine List.filter_congr fun r hr => ?_
  rw [List.mem_reverse, List.mem_range'_1] at hr
  exact hb r hr.1

/-- The rows are listed from the highest to the lowest. -/
theorem rootRows_pairwise (n h : Nat) : (rootRows n h).Pairwise (· > ·) := by
  refine List.Pairwise.filter _ (List.pairwise_reverse.mpr ?_)
  exact List.pairwise_lt_range'

/-! ### Adding one -/

/-- The bits below `h` are all set. -/
def LowOnes (n h : Nat) : Prop := n % 2 ^ h = 2 ^ h - 1

theorem lowOnes_zero (n : Nat) : LowOnes n 0 := by simp [LowOnes, Nat.mod_one]

theorem LowOnes.succ {n h : Nat} (hl : LowOnes n h) (hb : n.testBit h = true) :
    LowOnes n (h + 1) := by
  unfold LowOnes at *
  rw [testBit_iff] at hb
  have hp : 2 ^ (h + 1) = 2 * 2 ^ h := by ring
  have h1 := Nat.mod_mul_right_div_self n (2 ^ h) 2
  have h2 : n % (2 ^ h * 2) % 2 ^ h = n % 2 ^ h := Nat.mod_mul_right_mod n _ _
  have h3 := Nat.div_add_mod (n % (2 ^ h * 2)) (2 ^ h)
  rw [h1, hb, h2, hl] at h3
  rw [hp, Nat.mul_comm 2]
  have : 0 < 2 ^ h := Nat.two_pow_pos h
  omega

theorem LowOnes.of_le {n t h : Nat} (hl : LowOnes n t) (hh : h ≤ t) : LowOnes n h := by
  unfold LowOnes at *
  obtain ⟨d, rfl⟩ := Nat.exists_eq_add_of_le hh
  have h1 : n % 2 ^ (h + d) % 2 ^ h = n % 2 ^ h :=
    Nat.mod_mod_of_dvd _ (Nat.pow_dvd_pow 2 (by omega))
  have h2 : 2 ^ (h + d) - 1 = (2 ^ d - 1) * 2 ^ h + (2 ^ h - 1) := by
    have := Nat.two_pow_pos h
    have := Nat.two_pow_pos d
    rw [Nat.sub_mul, Nat.one_mul, Nat.pow_add, Nat.mul_comm]
    have : 2 ^ h ≤ 2 ^ d * 2 ^ h := Nat.le_mul_of_pos_left _ (by omega)
    omega
  rw [← h1, hl, h2, Nat.mul_comm, Nat.mul_add_mod]
  exact Nat.mod_eq_of_lt (by have := Nat.two_pow_pos h; omega)

theorem LowOnes.le {n h : Nat} (hl : LowOnes n h) : 2 ^ h ≤ n + 1 := by
  have := Nat.mod_le n (2 ^ h)
  unfold LowOnes at hl
  omega

/-- With the bits below `h` set, `n + 1` is a multiple of `2 ^ h`. -/
theorem LowOnes.decompose {n h : Nat} (hl : LowOnes n h) : n + 1 = (n / 2 ^ h + 1) * 2 ^ h := by
  have h1 := Nat.div_add_mod n (2 ^ h)
  unfold LowOnes at hl
  have : 0 < 2 ^ h := Nat.two_pow_pos h
  rw [hl] at h1
  rw [Nat.add_mul, Nat.mul_comm]
  omega

theorem LowOnes.rootStart_eq {n h : Nat} (hl : LowOnes n h) (hb : n.testBit h = true) :
    rootStart n h = n + 1 - 2 ^ (h + 1) := by
  have hd := (hl.succ hb).decompose
  rw [Nat.add_mul] at hd
  rw [rootStart]
  omega

theorem LowOnes.testBit_of_lt {n h r : Nat} (hl : LowOnes n h) (hr : r < h) :
    n.testBit r = true := by
  have h1 := Nat.testBit_mod_two_pow n h r
  rw [show n % 2 ^ h = 2 ^ h - 1 from hl, Nat.testBit_two_pow_sub_one] at h1
  simpa [hr] using h1.symm

theorem LowOnes.rootRows_zero {n h : Nat} (hl : LowOnes n h) (hh : h ≤ 64) :
    rootRows n 0 = rootRows n h ++ (List.range h).reverse := by
  have key : ∀ r, r ≤ h → rootRows n 0 = rootRows n r ++ (List.range r).reverse := by
    intro r
    induction r with
    | zero => simp
    | succ r ih =>
      intro hr
      rw [ih (by omega), rootRows_step n (show r < 64 by omega), hl.testBit_of_lt (by omega),
        List.range_succ]
      simp
  exact key h (Nat.le_refl _)

/-- The lowest zero of a word. -/
theorem exists_lowZero {n : Nat} (hn : n < 2 ^ 64) :
    ∃ t, t ≤ 64 ∧ LowOnes n t ∧ n.testBit t = false := by
  by_contra hno
  have key : ∀ t, t ≤ 65 → LowOnes n t := by
    intro t
    induction t with
    | zero => exact fun _ => lowOnes_zero n
    | succ t ih =>
      intro ht
      have hl := ih (by omega)
      refine hl.succ ?_
      by_contra hb
      exact hno ⟨t, by omega, hl, by simpa using hb⟩
  have := (key 65 (Nat.le_refl _)).le
  omega

theorem LowOnes.lt_sixtyFour {n t : Nat} (hl : LowOnes n t) (hn : n + 1 < 2 ^ 64) : t < 64 := by
  by_contra ht
  have h1 := hl.le
  have h2 : 2 ^ 64 ≤ 2 ^ t := Nat.pow_le_pow_right (by omega) (by omega)
  omega

section Clear
variable {n h : Nat} (hl : LowOnes n h) (hb : n.testBit h = false)
include hl hb

/-- The leaves below and above the lowest zero `h`. -/
theorem LowOnes.split : n = n / 2 ^ (h + 1) * 2 ^ (h + 1) + (2 ^ h - 1) := by
  have h1 := Nat.div_add_mod n (2 ^ (h + 1))
  have hp : 2 ^ (h + 1) = 2 ^ h * 2 := by ring
  have h2 : n % (2 ^ h * 2) / 2 ^ h = n / 2 ^ h % 2 := Nat.mod_mul_right_div_self n (2 ^ h) 2
  have h3 : n % (2 ^ h * 2) % 2 ^ h = n % 2 ^ h := Nat.mod_mul_right_mod n _ _
  have h4 := Nat.div_add_mod (n % (2 ^ h * 2)) (2 ^ h)
  unfold LowOnes at hl
  rw [testBit_eq_false] at hb
  rw [h2, h3, hb, hl, ← hp] at h4
  rw [Nat.mul_comm]
  omega

theorem LowOnes.succ_div {d : Nat} : (n + 1) / 2 ^ (h + 1 + d) = n / 2 ^ (h + 1 + d) := by
  have hs := hl.split hb
  have hp : 2 ^ (h + 1) = 2 ^ h * 2 := by ring
  have hpos : 0 < 2 ^ h := Nat.two_pow_pos h
  rw [Nat.pow_add, ← Nat.div_div_eq_div_mul, ← Nat.div_div_eq_div_mul]
  congr 1
  rw [Nat.div_eq_of_lt_le (k := n / 2 ^ (h + 1)) (by omega) (by rw [Nat.add_mul]; omega)]

theorem LowOnes.testBit_succ_of_lt {r : Nat} (hr : h < r) : (n + 1).testBit r = n.testBit r := by
  obtain ⟨d, rfl⟩ := Nat.exists_eq_add_of_le (Nat.succ_le_of_lt hr)
  rw [Nat.testBit_eq_decide_div_mod_eq, Nat.testBit_eq_decide_div_mod_eq, Nat.succ_eq_add_one,
    hl.succ_div hb]

theorem LowOnes.rootStart_succ {r : Nat} (hr : h < r) : rootStart (n + 1) r = rootStart n r := by
  obtain ⟨d, rfl⟩ := Nat.exists_eq_add_of_le (Nat.succ_le_of_lt hr)
  rw [rootStart, rootStart, show h.succ + d + 1 = h + 1 + (d + 1) from by omega, hl.succ_div hb]

theorem LowOnes.testBit_succ_self : (n + 1).testBit h = true := by
  have hs := hl.split hb
  have hp : 2 ^ (h + 1) = 2 ^ h * 2 := by ring
  have hpos : 0 < 2 ^ h := Nat.two_pow_pos h
  rw [testBit_iff, Nat.div_eq_of_lt_le (k := n / 2 ^ (h + 1) * 2 + 1)]
  · omega
  · rw [Nat.add_mul, Nat.mul_assoc, Nat.mul_comm 2, ← hp]
    omega
  · rw [Nat.add_mul, Nat.add_mul, Nat.mul_assoc, Nat.mul_comm 2, ← hp]
    omega

theorem LowOnes.testBit_succ_of_gt {r : Nat} (hr : r < h) : (n + 1).testBit r = false := by
  have hd := hl.decompose
  obtain ⟨d, rfl⟩ := Nat.exists_eq_add_of_le (Nat.succ_le_of_lt hr)
  rw [testBit_eq_false, hd,
    show 2 ^ (r.succ + d) = 2 ^ d * 2 * 2 ^ r by rw [Nat.succ_eq_add_one]; ring, ← Nat.mul_assoc,
    Nat.mul_div_cancel _ (Nat.two_pow_pos r), ← Nat.mul_assoc, Nat.mul_mod_left]

theorem LowOnes.rootStart_succ_self : rootStart (n + 1) h = n + 1 - 2 ^ h := by
  have hs := hl.split hb
  have hpos : 0 < 2 ^ h := Nat.two_pow_pos h
  have h0 : (n + 1) / 2 ^ (h + 1) = n / 2 ^ (h + 1) := hl.succ_div hb (d := 0)
  rw [rootStart, h0]
  omega

/-- The rows of `n + 1` are those of `n` above the lowest zero, and the lowest zero. -/
theorem LowOnes.rootRows_succ (hh : h < 64) :
    rootRows (n + 1) 0 = rootRows n (h + 1) ++ [h] := by
  have low : ∀ r, r ≤ h → rootRows (n + 1) r = rootRows (n + 1) h := by
    intro r hr
    obtain ⟨d, rfl⟩ := Nat.exists_eq_add_of_le hr
    induction d generalizing r with
    | zero => rfl
    | succ d ih =>
      rw [rootRows_step _ (by omega), hl.testBit_succ_of_gt hb (by omega)]
      simp only [Bool.false_eq_true, if_false, List.append_nil]
      rw [show r + (d + 1) = r + 1 + d from by omega] at *
      exact ih (r + 1) hl hb hh (by omega)
  rw [low 0 (Nat.zero_le _), rootRows_step _ hh, hl.testBit_succ_self hb, if_pos rfl,
    rootRows_congr fun r hr => hl.testBit_succ_of_lt hb hr]

end Clear

/-! ### The trees after an addition -/

section Trees
variable {H : Type}

theorem rootStart_add_le {n r : Nat} (hb : n.testBit r = true) : rootStart n r + 2 ^ r ≤ n := by
  have h1 := Nat.div_add_mod n (2 ^ (r + 1))
  have hp : 2 ^ (r + 1) = 2 ^ r * 2 := by ring
  have h2 : n % (2 ^ r * 2) / 2 ^ r = n / 2 ^ r % 2 := Nat.mod_mul_right_div_self n (2 ^ r) 2
  have h4 := Nat.div_add_mod (n % (2 ^ r * 2)) (2 ^ r)
  rw [testBit_iff] at hb
  rw [h2, hb, ← hp] at h4
  rw [rootStart, Nat.mul_comm]
  omega

/-- A tree does not see the slots added after it. -/
theorem rootTree_append {slots extra : List (Option H)} {r : Nat}
    (hb : slots.length.testBit r = true)
    (hs : rootStart (slots ++ extra).length r = rootStart slots.length r) :
    rootTree (slots ++ extra) r = rootTree slots r := by
  rw [rootTree, rootTree, hs]
  refine CTree.perfect_congr fun i _ hi => slotAt_append_left ?_
  have := rootStart_add_le hb
  omega

/-- The tree that the new leaf `a` is the last of, once it has been merged with the
trees on the rows below `h`. -/
def grownTree (slots : List (Option H)) (a : H) (h : Nat) : Option (CTree H) :=
  CTree.perfect (slotAt (slots ++ [some a])) h (slots.length + 1 - 2 ^ h)

theorem grownTree_zero (slots : List (Option H)) (a : H) :
    grownTree slots a 0 = some (.leaf a) := by
  simp [grownTree, CTree.perfect, slotAt]

/-- Merging the tree on row `h` with the new one. -/
theorem grownTree_succ {slots : List (Option H)} {h : Nat} (hl : LowOnes slots.length h)
    (hb : slots.length.testBit h = true) (a : H) :
    grownTree slots a (h + 1) = CTree.join (rootTree slots h) (grownTree slots a h) := by
  have hle := (hl.succ hb).le
  have hp : 2 ^ (h + 1) = 2 ^ h + 2 ^ h := by ring
  have hst := hl.rootStart_eq hb
  rw [grownTree, CTree.perfect, grownTree, rootTree, hst,
    show slots.length + 1 - 2 ^ (h + 1) + 2 ^ h = slots.length + 1 - 2 ^ h from by omega]
  congr 1
  refine CTree.perfect_congr fun i _ hi => slotAt_append_left ?_
  have := Nat.two_pow_pos h
  omega

/-- The forest after an addition, given the lowest zero of the number of leaves. -/
theorem forestTrees_concat {slots : List (Option H)} {h : Nat} (hl : LowOnes slots.length h)
    (hb : slots.length.testBit h = false) (hh : h < 64) (a : H) :
    forestTrees (slots ++ [some a]) =
      (rootRows slots.length (h + 1)).map (rootTree slots) ++ [grownTree slots a h] := by
  have hlen : (slots ++ [some a]).length = slots.length + 1 := by simp
  rw [forestTrees, hlen, hl.rootRows_succ hb hh, List.map_append]
  congr 1
  · refine List.map_congr_left fun r hr => ?_
    obtain ⟨h1, _, h3⟩ := mem_rootRows.mp hr
    refine rootTree_append h3 ?_
    rw [hlen, hl.rootStart_succ hb (by omega)]
  · rw [List.map_singleton, rootTree, hlen, hl.rootStart_succ_self hb, grownTree]

/-- The new tree's leaves are live. -/
theorem leavesOpt_grownTree_subset (slots : List (Option H)) (a : H) (h : Nat) :
    ∀ x ∈ CTree.leavesOpt (grownTree slots a h), x ∈ liveLeaves (slots ++ [some a]) :=
  leavesOpt_perfect_subset _ _ _

/-- Deleting leaves prunes every tree. -/
theorem rootTree_delSlots [DecidableEq H] (slots : List (Option H)) (dels : List H) (r : Nat) :
    rootTree (delSlots slots dels) r =
      (rootTree slots r).bind (CTree.prune fun h => decide (h ∈ dels)) := by
  rw [rootTree, rootTree, length_delSlots, ← CTree.perfect_prune]
  congr 1
  funext i
  rw [slotAt_delSlots]
  simp

theorem forestTrees_delSlots [DecidableEq H] (slots : List (Option H)) (dels : List H) :
    forestTrees (delSlots slots dels) =
      (forestTrees slots).map (·.bind (CTree.prune fun h => decide (h ∈ dels))) := by
  rw [forestTrees, forestTrees, length_delSlots, List.map_map]
  exact List.map_congr_left fun r _ => rootTree_delSlots slots dels r

/-- **The trees hold the live leaves, in the order of the slots.** -/
theorem leaves_forestTrees {slots : List (Option H)} (hn : slots.length < 2 ^ 64) :
    (forestTrees slots).flatMap CTree.leavesOpt = liveLeaves slots := by
  have key : ∀ d h, h + d = 64 →
      ((rootRows slots.length h).map (rootTree slots)).flatMap CTree.leavesOpt =
        (List.range' 0 (slots.length / 2 ^ h * 2 ^ h)).filterMap (slotAt slots) := by
    intro d
    induction d with
    | zero =>
      intro h hh
      obtain rfl : h = 64 := by omega
      rw [rootRows_sixtyFour, Nat.div_eq_of_lt hn]
      rfl
    | succ d ih =>
      intro h hh
      rw [rootRows_step _ (by omega), List.map_append, List.flatMap_append,
        ih (h + 1) (by omega)]
      have hp : 2 ^ (h + 1) = 2 ^ h * 2 := by ring
      have hdm := Nat.div_add_mod (slots.length / 2 ^ h) 2
      have hdd : slots.length / 2 ^ h / 2 = slots.length / 2 ^ (h + 1) := by
        rw [Nat.div_div_eq_div_mul, ← hp]
      rw [hdd] at hdm
      cases hb : slots.length.testBit h with
      | false =>
        rw [testBit_eq_false] at hb
        rw [hb, Nat.add_zero] at hdm
        rw [← hdm, hp, Nat.mul_assoc, Nat.mul_comm 2, ← Nat.mul_assoc]
        simp
      | true =>
        rw [testBit_iff] at hb
        rw [hb] at hdm
        have hst : rootStart slots.length h = slots.length / 2 ^ (h + 1) * 2 ^ (h + 1) := rfl
        have hsum : slots.length / 2 ^ h * 2 ^ h =
            slots.length / 2 ^ (h + 1) * 2 ^ (h + 1) + 2 ^ h := by
          rw [← hdm, hp]; ring
        rw [hsum, ← List.range'_append_1, List.filterMap_append]
        simp only [if_true, List.map_singleton, List.flatMap_singleton, rootTree,
          CTree.leavesOpt_perfect, hst, Nat.zero_add]
  rw [forestTrees, key 64 0 rfl, Nat.pow_zero, Nat.div_one, Nat.mul_one, liveLeaves]
  clear key hn
  induction slots using List.reverseRecOn with
  | nil => rfl
  | append_singleton slots s ih =>
    rw [List.length_append, List.length_singleton, ← List.range'_append_1, List.filterMap_append,
      List.filterMap_append, ← ih]
    congr 1
    · refine List.filterMap_congr fun i hi => ?_
      rw [List.mem_range'_1] at hi
      exact slotAt_append_left (by omega)
    · cases s <;> simp [slotAt]

end Trees

end Utreexo
