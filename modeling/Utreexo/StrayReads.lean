import Utreexo.CalculateCollapse
import Utreexo.UndoRun

/-! # Reading positions outside of the forest

`detectOffset` looks only at the trees that exist.  A position outside of the forest whose
first leaf has a bit that the number of leaves lacks is taken for the position without that
bit, and `GetHash` returns the hash of another node (`Pollard.Represents.getHash_alias`).
-/
namespace Utreexo
open Merkle

/-- The row of the tree that a node is taken to be in: the highest one that the first leaf
below the node does not pass. -/
def aliasRow (n : Nat) (x : Node) : Option Nat :=
  (rootRows n 0).find? fun t => !(x.off * 2 ^ x.row).testBit t

/-- The node of the forest that a node is taken for: the one that the last turns of the node
lead to in that tree. -/
def aliasNode (n : Nat) (x : Node) : Option Node :=
  (aliasRow n x).bind fun t =>
    if x.row ≤ t then some ((Node.rootAt n t).down (x.path (t - x.row))) else none

/-- The node of the forest that a position is taken for. -/
def aliasOf (n pos : Nat) : Option Node :=
  if pos < maxPosition (treeRows n) then aliasNode n (nodeAt (treeRows n) pos) else none

theorem testBit_iff_le_mod (m t : Nat) : m.testBit t = true ↔ 2 ^ t ≤ m % 2 ^ (t + 1) := by
  have hlt : m % 2 ^ t < 2 ^ t := Nat.mod_lt _ (Nat.two_pow_pos _)
  have hbit : m / 2 ^ t % 2 < 2 := Nat.mod_lt _ (by omega)
  rw [testBit_iff, Nat.pow_succ, Nat.mod_mul]
  rcases (by omega : m / 2 ^ t % 2 = 0 ∨ m / 2 ^ t % 2 = 1) with h | h
  · rw [h]
    omega
  · rw [h]
    omega

/-- What the row of the alias is. -/
theorem aliasRow_eq_some {n R : Nat} {x : Node} (h : aliasRow n x = some R) :
    n.testBit R = true ∧ x.off * 2 ^ x.row % 2 ^ (R + 1) < 2 ^ R ∧
      ∀ t, R < t → t < 64 → n.testBit t = true → 2 ^ t ≤ x.off * 2 ^ x.row % 2 ^ (t + 1) := by
  obtain ⟨hR, l, l', hl, hno⟩ := List.find?_eq_some_iff_append.mp h
  have hsorted := rootRows_pairwise n 0
  rw [hl] at hsorted
  have hmem : R ∈ rootRows n 0 := by
    rw [hl]
    simp
  refine ⟨(mem_rootRows.mp hmem).2.2, ?_, fun t ht h64 hbit => ?_⟩
  · rw [Bool.not_eq_true', ← Bool.not_eq_true, testBit_iff_le_mod] at hR
    omega
  · rw [← testBit_iff_le_mod]
    have hmem : t ∈ rootRows n 0 := mem_rootRows.mpr ⟨Nat.zero_le _, h64, hbit⟩
    rw [hl, List.mem_append, List.mem_cons] at hmem
    rcases hmem with hmem | rfl | hmem
    · simpa using hno t hmem
    · omega
    · have := (List.pairwise_cons.mp (List.pairwise_append.mp hsorted).2.1).1 t hmem
      omega

/-- Without an alias the first leaf passes every tree. -/
theorem aliasRow_eq_none {n : Nat} {x : Node} (h : aliasRow n x = none) (t : Nat) (h64 : t < 64)
    (hbit : n.testBit t = true) : 2 ^ t ≤ x.off * 2 ^ x.row % 2 ^ (t + 1) := by
  rw [← testBit_iff_le_mod]
  have := List.find?_eq_none.mp h t (mem_rootRows.mpr ⟨Nat.zero_le _, h64, hbit⟩)
  simpa using this

/-- A position of the forest is its own alias. -/
theorem aliasOf_nodePos {n : Nat} (hn : n ≤ 2 ^ 63) {x : Node} (hx : x.InForest n) :
    aliasOf n (nodePos (treeRows n) x) = some x := by
  have hk := treeRows_le hn
  have hfit := fits_of_inForest (le_two_pow_treeRows n) hx
  obtain ⟨j, hj⟩ := hx.exists_root
  obtain ⟨hlow, hhigh⟩ := leaf_of_root hj
  obtain ⟨hbit, heq⟩ := Node.isRoot_iff_rootAt.mp hj
  rw [Node.up_row] at hbit heq
  have hR := testBit_row_le (le_two_pow_treeRows n) hbit
  have hrow : aliasRow n x = some (x.row + j) := by
    cases hrow : aliasRow n x with
    | none =>
      have := aliasRow_eq_none hrow (x.row + j) (by omega) hbit
      omega
    | some R =>
      obtain ⟨hbit', hlow', hhigh'⟩ := aliasRow_eq_some hrow
      rcases Nat.lt_trichotomy R (x.row + j) with hlt | rfl | hgt
      · have := hhigh' _ hlt (by omega) hbit
        omega
      · rfl
      · have := hhigh R hgt hbit'
        omega
  obtain ⟨hup, hpath⟩ := Node.down_spec (x := Node.rootAt n (x.row + j)) (p := x.path j)
    (by rw [Node.length_path]; exact Nat.le_add_left _ _)
  rw [Node.length_path] at hup hpath
  rw [aliasOf, maxPosition_eq hk, if_pos hfit.pos_lt_max, nodeAt_nodePos hk hfit, aliasNode, hrow,
    Option.bind_some, if_pos (Nat.le_add_right _ _), Nat.add_sub_cancel_left,
    Node.eq_of_path_eq (hup.trans heq.symm) hpath]

theorem length_turnsOf (bits d : Nat) : (turnsOf bits d).length = d := by
  induction d with
  | zero => rfl
  | succ d ih => rw [turnsOf, List.length_cons, ih]

section
variable {H : Type} [HashOps H] {slots : List (Option H)} (hn : slots.length ≤ 2 ^ 63) {x : Node}
include hn

/-- The hash that is read for a node is the one of its alias. -/
theorem forestHash_alias (hx : Fits (treeRows slots.length) x) :
    forestHash slots.length (forestTrees slots) (nodePos (treeRows slots.length) x) =
      hashOpt ((aliasNode slots.length x).bind (placed slots)) := by
  have hk := treeRows_le hn
  have h64 := length_forestTrees slots
  have hrow := hx.1
  rw [forestHash, maxPosition_eq hk, if_neg (Nat.not_le.mpr hx.pos_lt_max), aliasNode]
  cases hR : aliasRow slots.length x with
  | none =>
    have herr : detectOffset (nodePos (treeRows slots.length) x) slots.length =
        .error (.noOffset (nodePos (treeRows slots.length) x) slots.length) := by
      rw [detectOffset, detectRow_nodePos hk hx]
      refine detectOffsetLoop_error _ (fun t ht => ?_) 0 (by omega) (nodePos_mul_mod hx)
      exact aliasRow_eq_none hR t (by
        have := testBit_row_le (le_two_pow_treeRows _) ht
        omega) ht
    rw [herr]
    rfl
  | some R =>
    obtain ⟨hbit, hlow, hhigh⟩ := aliasRow_eq_some hR
    have hRk := testBit_row_le (le_two_pow_treeRows _) hbit
    obtain ⟨bits, hbits, hoff⟩ := detectOffset_of_row hn hx hbit hlow fun t ht hb => by
      refine hhigh t ht ?_ hb
      have := testBit_row_le (le_two_pow_treeRows _) hb
      omega
    have hroot := Node.rootAt_isRoot hbit
    have hget : (forestTrees slots)[(rootRows slots.length (R + 1)).length]? =
        some (rootTree slots R) := by
      have := forestTrees_getElem hn (x := Node.rootAt slots.length R) (j := 0)
        (by rwa [Node.up_zero])
      exact this
    have hlt := (List.getElem?_eq_some_iff.mp hget).1
    rw [hoff]
    simp only
    rw [if_neg (by rw [Nat.mod_eq_of_lt (by omega)]; omega), hget, Option.join_some,
      Option.bind_some]
    by_cases hle : x.row ≤ R
    · rw [if_pos hle, Option.bind_some, sub8_of_le (by omega) hle, turnsOf_eq_path hbits]
      obtain ⟨hup, hpath⟩ := Node.down_spec (x := Node.rootAt slots.length R)
        (p := x.path (R - x.row)) (by rw [Node.length_path]; exact Nat.sub_le _ _)
      rw [Node.length_path] at hup hpath
      have hrow' := congrArg Node.row hup
      rw [Node.up_row] at hrow'
      rw [placed_eq (by omega) (by rw [hup]; exact hroot), hpath, hrow']
      rfl
    · -- The length of the branch has wrapped around and is far beyond any tree.
      have hlong : R < sub8 R x.row := by
        rw [sub8]
        omega
      rw [if_neg hle, Option.bind_none]
      cases ht : rootTree slots R with
      | none => rfl
      | some t =>
        rw [Option.bind_some]
        cases hs : t.subAt (turnsOf bits (sub8 R x.row)) with
        | none => rfl
        | some s =>
          have := CTree.length_le_of_subAt_perfect ht hs
          rw [length_turnsOf] at this
          omega

end

section
variable {H M : Type} [HashOps H] [MiniHash H M] [DecidableEq M] {slots : List (Option H)}
  {p : Pollard H M}

/-- **What `GetHash` returns at any position**: the hash at the alias of the position. -/
theorem Pollard.Represents.getHash_alias (hp : p.Represents slots) (pos : Nat) :
    p.getHash pos = hashOpt ((aliasOf slots.length pos).bind (placed slots)) := by
  have hk := treeRows_le hp.fine.counted
  obtain ⟨F, hF⟩ := hp.holds
  rw [hF.rep.getHash, hF.numLeaves, hF.trees, aliasOf]
  by_cases hmax : pos < maxPosition (treeRows slots.length)
  · rw [if_pos hmax]
    rw [maxPosition_eq hk] at hmax
    obtain ⟨x, hx, rfl⟩ := Fits.exists_of_lt hmax
    rw [nodeAt_nodePos hk hx, forestHash_alias hp.fine.counted hx]
  · rw [if_neg hmax, forestHash, if_pos (Nat.not_lt.mp hmax)]
    rfl

/-- **When `GetHash` finds nothing at a position**: exactly if there is nothing at the alias
of the position.  A position of the forest is its own alias. -/
theorem getHash_empty_iff [DecidableEq H] [SortAlg] (hne : ∀ a b : H, parentHash a b ≠ empty)
    {stack : List (PolBlock H × List H)} (hp : FullReach p stack) (pos : Nat) :
    (p.getHash pos = empty ↔
      ∀ y, aliasOf p.numLeaves pos = some y → placed (stackSlots stack) y = none) ∧
    ∀ x, x.InForest p.numLeaves → nodePos (treeRows p.numLeaves) x = pos →
      aliasOf p.numLeaves pos = some x := by
  have hp := hp.represents hne
  rw [hp.getHash_alias, hp.numLeaves]
  generalize stackSlots stack = slots at *
  refine ⟨?_, ?_⟩
  · cases hy : aliasOf slots.length pos with
    | none =>
      refine iff_of_true rfl fun y h => ?_
      cases h
    | some y =>
      rw [Option.bind_some]
      cases ht : placed slots y with
      | none =>
        refine iff_of_true rfl fun z h => ?_
        cases h
        exact ht
      | some t =>
        refine iff_of_false ?_ fun h => ?_
        · exact treeHash_ne_empty hne fun h hh =>
            (hp.fine.isLeaf h (placed_leaves_subset ht h hh)).ne_empty
        · rw [h y rfl] at ht
          cases ht
  · rintro x hx rfl
    exact aliasOf_nodePos hp.fine.counted hx

end

section
attribute [local instance] SortAlg.stable

/-- Five leaves. -/
def fiveLeaves : PolBlock FreeHash :=
  ⟨(List.range 5).map fun i => ⟨.leaf i, true⟩, [], ⟨[], []⟩⟩

theorem fiveLeaves_reach :
    ∃ (p : Pollard FreeHash FreeHash) (stack : List (PolBlock FreeHash × List FreeHash)),
      FullReach p stack ∧
      stackSlots stack = [some (.leaf 0), some (.leaf 1), some (.leaf 2), some (.leaf 3),
        some (.leaf 4)] := by
  have hb : fiveLeaves.Honest FreeHash (stackSlots []) :=
    ⟨.nil, by decide, FreeHash.leavesFine (by decide) (by decide) (by decide)⟩
  obtain ⟨p, hrun, -⟩ := represents_newAccumulator.modify FreeHash.ideal.ne_empty hb
  exact ⟨p, _, .modify .new hb (by decide) hrun, rfl⟩

/-- With five leaves there is no position 6, and `GetHash` returns the fifth leaf for it. -/
theorem getHash_outside_fiveLeaves :
    ∃ (p : Pollard FreeHash FreeHash) (stack : List (PolBlock FreeHash × List FreeHash)),
      FullReach p stack ∧ p.numLeaves = 5 ∧
      (∀ x, x.InForest p.numLeaves → nodePos (treeRows p.numLeaves) x ≠ 6) ∧
      p.getHash 6 = .leaf 4 := by
  obtain ⟨p, stack, hreach, hslots⟩ := fiveLeaves_reach
  have hp := hreach.represents FreeHash.ideal.ne_empty
  rw [hslots] at hp
  have hnum : p.numLeaves = 5 := hp.numLeaves
  refine ⟨p, stack, hreach, hnum, fun x hx he => ?_, ?_⟩
  · rw [hnum] at hx he
    have hx' := nodeAt_nodePos (by decide) (fits_of_inForest (le_two_pow_treeRows 5) hx)
    rw [he, show nodeAt (treeRows 5) 6 = ⟨0, 6⟩ by decide] at hx'
    subst hx'
    exact absurd hx (by decide)
  · rw [hp.getHash_alias]
    decide

/-- Position 7 is found to be missing. -/
theorem getHash_empty_fiveLeaves :
    ∃ (p : Pollard FreeHash FreeHash) (stack : List (PolBlock FreeHash × List FreeHash)),
      FullReach p stack ∧ p.numLeaves = 5 ∧ p.getHash 7 = empty := by
  obtain ⟨p, stack, hreach, hslots⟩ := fiveLeaves_reach
  have hnum : p.numLeaves = 5 := by
    rw [(hreach.represents FreeHash.ideal.ne_empty).numLeaves, hslots]
    rfl
  refine ⟨p, stack, hreach, hnum, ?_⟩
  refine (getHash_empty_iff FreeHash.ideal.ne_empty hreach 7).1.mpr fun y hy => ?_
  rw [hnum, show aliasOf 5 7 = none by decide] at hy
  cases hy

end

end Utreexo
