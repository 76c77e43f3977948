import Utreexo.RowChange
import Utreexo.UndoRun

/-! # What a full Pollard proves

`Prove` looks the leaves up in the node map, lists the positions that the proof needs
and reads their hashes.  A listed position is the sibling of a node of the forest and so
holds a node itself (`proofPositions_placed`): nothing that is found fails to be proved.

The lookup is by the first part of a hash, and the accumulators with no leaf or one leaf
do not look at the hashes at all.  `prove_vouches_iff` says when a proof speaks for the
hashes it was asked for.
-/
namespace Utreexo
open Merkle

section
variable {H : Type} {slots : List (Option H)}

/-! ### The positions of a proof -/

/-- The position of a node that holds a subtree. -/
def PlacedPos (slots : List (Option H)) (p : Nat) : Prop :=
  ∃ x t, placed slots x = some t ∧ p = nodePos (treeRows slots.length) x

theorem LeafAt.placedPos {t : Nat} {h : H} (ht : LeafAt slots t h) : PlacedPos slots t := by
  obtain ⟨x, hx, rfl⟩ := ht
  exact ⟨x, _, hx, rfl⟩

variable (hn : slots.length ≤ 2 ^ 63)
include hn

/-- **The positions that a proof needs hold subtrees**, if those of the targets do. -/
theorem proofPositions_placed {targets : List Nat} (htargets : ∀ p ∈ targets, PlacedPos slots p) :
    ∃ positions computed, proofPositions (sortPositions targets) slots.length
        (treeRows slots.length) = .ok (positions, computed) ∧
      ∀ p ∈ positions, PlacedPos slots p := by
  obtain ⟨_, -, hpos⟩ := proofPositions_returns hn (sortPositions_sorted targets)
  refine ⟨_, _, hpos, fun q hq => ?_⟩
  -- The parent and the sibling of a node below a root hold subtrees as well.
  have habove : ∀ {x}, (∃ t, placed slots x = some t) → ¬ x.IsRoot slots.length →
      (∃ t, placed slots x.sibling = some t) ∧ ∃ t, placed slots x.parent = some t := by
    rintro x ⟨t, hx⟩ hr
    obtain ⟨S, hS, hP⟩ := placed_parent (by omega) ((placed_inForest hx).parent hr) hx
    exact ⟨⟨S, hS⟩, _, hP⟩
  have hts : ∀ p ∈ sortPositions targets,
      ∃ x, (∃ t, placed slots x = some t) ∧ p = nodePos (treeRows slots.length) x := by
    intro p hp
    obtain ⟨x, t, hx, rfl⟩ := htargets p ((sortPositions_perm targets).mem_iff.mp hp)
    exact ⟨x, ⟨t, hx⟩, rfl⟩
  obtain ⟨x, hx, hr, rfl⟩ := proofPositions_among (fun x ⟨_, hx⟩ => placed_inForest hx)
    (fun x hx hr => (habove hx hr).2) hn (sortPositions_sorted targets) hts hpos q hq
  obtain ⟨⟨t, ht⟩, -⟩ := habove hx hr
  exact ⟨x.sibling, t, ht, rfl⟩

end

section
variable {H M : Type} [HashOps H] [MiniHash H M] [DecidableEq H] [DecidableEq M]
  {slots : List (Option H)} {p : Pollard H M} {Q : M → Prop}

/-! ### Looking the leaves up -/

/-- A leaf that has the same first part. -/
def FoundAt (M : Type) [MiniHash H M] (slots : List (Option H)) (t : Nat) (h : H) : Prop :=
  ∃ g, mini (M := M) g = mini h ∧ LeafAt slots t g

omit [HashOps H] [DecidableEq H] [DecidableEq M] in
theorem FoundAt.placedPos {t : Nat} {h : H} (ht : FoundAt M slots t h) : PlacedPos slots t := by
  obtain ⟨g, -, hg⟩ := ht
  exact hg.placedPos

/-- The positions of leaves with these first parts. -/
theorem Pollard.RepresentsOn.targetsOf (hp : p.RepresentsOn Q slots)
    (hinj : ∀ {a b c d : H}, parentHash a b = parentHash c d → a = c ∧ b = d)
    (hne : ∀ a b : H, parentHash a b ≠ empty) {hashes : List H} (hQ : ∀ h ∈ hashes, Q (mini h)) :
    ((∃ h ∈ hashes, mini h ∉ p.nodeMap) ∧ ∃ h, p.targetsOf hashes = .ok (.error (.notFound h))) ∨
    ((∀ h ∈ hashes, mini h ∈ p.nodeMap) ∧ ∃ targets, p.targetsOf hashes = .ok (.ok targets) ∧
      List.Forall₂ (FoundAt M slots) targets hashes) := by
  have hi : IdealHash H fun h => ∀ a b : H, parentHash a b ≠ h :=
    ⟨hinj, hne, fun a b h => h a b rfl⟩
  induction hashes with
  | nil => exact Or.inr ⟨fun h hh => absurd hh List.not_mem_nil, [], rfl, .nil⟩
  | cons h hashes ih =>
    obtain ⟨hq, hQ⟩ := List.forall_mem_cons.mp hQ
    rw [Pollard.targetsOf]
    rcases hlook : p.nodeMap.lookup (mini h) with _ | a
    · have hnot : mini h ∉ p.nodeMap := by
        rw [← Finmap.lookup_isSome, hlook]
        simp
      exact Or.inl ⟨⟨h, List.mem_cons_self, hnot⟩, h, rfl⟩
    · have hmem : mini h ∈ p.nodeMap := by
        rw [← Finmap.lookup_isSome, hlook]
        rfl
      obtain ⟨g, t, hg, ht, hpos⟩ := hp.lookup hq hlook hi hp.plain.not_parent
      rcases ih hQ with ⟨⟨h', hh', hnot⟩, e, hrun⟩ | ⟨hall, targets, hrun, hts⟩
      · refine Or.inl ⟨⟨h', List.mem_cons_of_mem _ hh', hnot⟩, e, ?_⟩
        simp only [hpos, hrun, Exec.ok_bind]
      · refine Or.inr ⟨List.forall_mem_cons.mpr ⟨hmem, hall⟩, t :: targets, ?_,
          .cons ⟨g, hg, ht⟩ hts⟩
        simp only [hpos, hrun, Exec.ok_bind]

omit [MiniHash H M] [DecidableEq M] in
/-- The hashes at positions that hold subtrees. -/
theorem Pollard.hashesAt_eq {positions : List Nat} (h : ∀ q ∈ positions, p.getHash q ≠ empty) :
    p.hashesAt positions = .ok (positions.map p.getHash) := by
  induction positions with
  | nil => rfl
  | cons q positions ih =>
    obtain ⟨hq, h⟩ := List.forall_mem_cons.mp h
    rw [Pollard.hashesAt, if_neg hq, ih h, List.map_cons]

omit [DecidableEq H] in
theorem Pollard.RepresentsOn.getHash_ne (hp : p.RepresentsOn Q slots)
    (hne : ∀ a b : H, parentHash a b ≠ empty) {q : Nat} (hq : PlacedPos slots q) :
    p.getHash q ≠ empty := by
  obtain ⟨x, t, hx, rfl⟩ := hq
  rw [hp.getHash (placed_inForest hx), hx]
  exact treeHash_ne_empty hne fun h hh => hp.plain.ne_empty h (placed_leaves_subset hx h hh)

/-! ### Proving -/

/-- **What is found is proved.** -/
theorem Pollard.RepresentsOn.prove (hp : p.RepresentsOn Q slots)
    (hinj : ∀ {a b c d : H}, parentHash a b = parentHash c d → a = c ∧ b = d)
    (hne : ∀ a b : H, parentHash a b ≠ empty) {hashes : List H} (hQ : ∀ h ∈ hashes, Q (mini h))
    (hlist : hashes ≠ []) (hmany : 2 ≤ p.numLeaves) :
    ((∃ h ∈ hashes, mini h ∉ p.nodeMap) ∧ ∃ h, p.prove hashes = .ok (.error (.notFound h))) ∨
    ((∀ h ∈ hashes, mini h ∈ p.nodeMap) ∧ ∃ targets positions computed,
      p.prove hashes = .ok (.ok ⟨targets, positions.map p.getHash⟩) ∧
      List.Forall₂ (FoundAt M slots) targets hashes ∧
      proofPositions (sortPositions targets) slots.length (treeRows slots.length) =
        .ok (positions, computed)) := by
  have hlen : ¬ (hashes.length = 0 ∨ p.numLeaves = 0) := by
    rw [not_or, List.length_eq_zero_iff]
    exact ⟨hlist, by omega⟩
  rw [Pollard.prove, if_neg hlen, if_neg (by omega)]
  rcases hp.targetsOf hinj hne hQ with ⟨hnot, h, hrun⟩ | ⟨hall, targets, hrun, hts⟩
  · refine Or.inl ⟨hnot, h, ?_⟩
    simp only [hrun, Exec.ok_bind]
  · have htargets := ((List.forall₂_and_left _ _).mp (hts.imp fun t h ht => ⟨ht.placedPos, ht⟩)).1
    obtain ⟨positions, computed, hpos, hplaced⟩ := proofPositions_placed hp.plain.counted htargets
    refine Or.inr ⟨hall, targets, positions, computed, ?_, hts, hpos⟩
    simp only [hrun, Exec.ok_bind, hp.numLeaves, hpos,
      Pollard.hashesAt_eq fun q hq => hp.getHash_ne hne (hplaced q hq)]

omit [HashOps H] [DecidableEq H] in
/-- The only position of a single leaf. -/
theorem leafAt_single (hn : slots.length = 1) {t : Nat} {h : H} :
    LeafAt slots t h ↔ h ∈ liveLeaves slots ∧ t = 0 := by
  have hzero : ∀ x : Node, x.InForest slots.length → nodePos (treeRows slots.length) x = 0 := by
    intro x hx
    obtain ⟨hrow, hoff⟩ := fits_of_inForest (le_two_pow_treeRows _) hx
    rw [hn, show treeRows 1 = 0 by decide] at hrow hoff ⊢
    rw [Nat.le_zero.mp hrow] at hoff
    rw [nodePos, Nat.le_zero.mp hrow]
    omega
  constructor
  · rintro ⟨x, hx, rfl⟩
    exact ⟨LeafAt.live ⟨x, hx, rfl⟩, hzero x (placed_inForest hx)⟩
  · rintro ⟨hh, rfl⟩
    obtain ⟨x, hx⟩ := (mem_liveLeaves_iff_placed (by omega)).mp hh
    exact ⟨x, hx, hzero x (placed_inForest hx)⟩

omit [DecidableEq H] [DecidableEq M] in
/-- Leaves are found under their own position. -/
theorem FoundAt.leafAt (hm : MiniOk Q slots) {t : Nat} {h : H} (hQ : Q (mini h))
    (hf : FoundAt M slots t h) (hh : h ∈ liveLeaves slots) : LeafAt slots t h := by
  obtain ⟨g, hg, ht⟩ := hf
  rwa [← hm.inj ht.live hh (hg ▸ hQ) hg]

omit [DecidableEq H] [DecidableEq M] in
theorem leafAt_of_foundAt (hm : MiniOk Q slots) {targets : List Nat} {hashes : List H}
    (hQ : ∀ h ∈ hashes, Q (mini h)) (hts : List.Forall₂ (FoundAt M slots) targets hashes)
    (hlive : ∀ h ∈ hashes, h ∈ liveLeaves slots) :
    List.Forall₂ (LeafAt slots) targets hashes := by
  induction hts with
  | nil => exact .nil
  | cons hf _ ih =>
    obtain ⟨hh, hlive⟩ := List.forall_mem_cons.mp hlive
    obtain ⟨hq, hQ⟩ := List.forall_mem_cons.mp hQ
    exact .cons (hf.leafAt hm hq hh) (ih hQ hlive)

/-- No two leaves share the first part of the hash, and no other node shares it with a leaf. -/
def OwnKey (M : Type) [MiniHash H M] (slots : List (Option H)) (h : H) : Prop :=
  ∀ g ∈ liveLeaves slots, mini (M := M) g = mini h →
    (∀ g' ∈ liveLeaves slots, mini (M := M) g' = mini h → g' = g) ∧
    ∀ a b : H, mini (M := M) (parentHash a b) ≠ mini h

omit [DecidableEq H] [DecidableEq M] in
theorem miniOk_of_ownKey {hashes : List H} (hd : (liveLeaves slots).Nodup)
    (hown : ∀ h ∈ hashes, OwnKey M slots h) :
    MiniOk (fun k : M => ∃ h ∈ hashes, mini h = k) slots := by
  refine ⟨⟨hd, ?_⟩, ?_⟩
  · rintro a b ha hb ⟨h, hh, hk⟩ hab
    exact (hown h hh b hb (hab.symm.trans hk.symm)).1 a ha hk.symm
  · rintro y hy ⟨h, hh, hk⟩ a b
    rw [← hk]
    exact (hown h hh y hy hk.symm).2 a b

/-- **When a proof vouches for the hashes.**  No two leaves of a state of the run share the first
part of a listed hash; then the condition on the right fails exactly for an accumulator without
leaves, for one that has had one leaf and is asked for anything else, and for hashes that are no
leaves but share their first part with one. -/
theorem prove_vouches_iff [SortAlg]
    (hinj : ∀ {a b c d : H}, parentHash a b = parentHash c d → a = c ∧ b = d)
    (hne : ∀ a b : H, parentHash a b ≠ empty) {stack : List (PolBlock H × List H)}
    {visited : List (List (Option H))} (hp : PlainReach p stack visited) {hashes : List H}
    (hown : ∀ slots ∈ visited, ∀ h ∈ hashes, OwnKey M slots h) :
    (∀ proof, p.prove hashes = .ok (.ok proof) →
      List.Forall₂ (LeafAt (stackSlots stack)) proof.targets hashes) ↔
    hashes = [] ∨ (p.numLeaves = 1 ∧ ∃ h ∈ liveLeaves (stackSlots stack), hashes = [h]) ∨
      (2 ≤ p.numLeaves ∧
        ((∃ h ∈ hashes, ∀ g ∈ liveLeaves (stackSlots stack), mini (M := M) g ≠ mini h) ∨
          ∀ h ∈ hashes, h ∈ liveLeaves (stackSlots stack))) := by
  have hp := (hp.representsOn hne fun slots hs =>
    miniOk_of_ownKey (hp.plainLeaves hs).distinct (hown slots hs)).1
  have hQ : ∀ h ∈ hashes, ∃ h' ∈ hashes, mini (M := M) h' = mini h := fun h hh => ⟨h, hh, rfl⟩
  generalize stackSlots stack = slots at hp
  by_cases hlist : hashes = []
  · subst hlist
    refine iff_of_true ?_ (Or.inl rfl)
    rintro proof hrun
    cases hrun
    exact .nil
  rw [or_iff_right hlist]
  have hnum := hp.numLeaves
  rcases (by omega : p.numLeaves = 0 ∨ p.numLeaves = 1 ∨ 2 ≤ p.numLeaves) with hn | hn | hn
  · refine iff_of_false (fun h => hlist ?_) (by omega)
    have := h ⟨[], []⟩ (by rw [Pollard.prove, if_pos (Or.inr hn)])
    exact List.forall₂_nil_left_iff.mp this
  · have hrun : p.prove hashes = .ok (.ok ⟨[0], []⟩) := by
      rw [Pollard.prove, if_neg (by simp [hlist, hn]), if_pos hn]
    have hproof : (∀ proof, p.prove hashes = .ok (.ok proof) →
        List.Forall₂ (LeafAt slots) proof.targets hashes) ↔
          List.Forall₂ (LeafAt slots) [0] hashes := by
      rw [hrun]
      refine ⟨fun h => h ⟨[0], []⟩ rfl, fun h proof hproof => ?_⟩
      cases hproof
      exact h
    rw [hproof, or_iff_left (by omega), and_iff_right hn, List.forall₂_cons_left_iff]
    constructor
    · rintro ⟨h, hashes, hh, hnil, rfl⟩
      cases hnil
      exact ⟨h, hh.live, rfl⟩
    · rintro ⟨h, hh, rfl⟩
      exact ⟨h, [], (leafAt_single (by omega)).mpr ⟨hh, rfl⟩, .nil, rfl⟩
  · rw [or_iff_right (by omega), and_iff_right hn]
    rcases hp.prove hinj hne hQ hlist hn with ⟨⟨h, hh, hnot⟩, e, hrun⟩ |
      ⟨hall, targets, positions, computed, hrun, hts, -⟩
    · refine iff_of_true (fun proof hproof => ?_) (Or.inl ⟨h, hh, fun g hg he => hnot ?_⟩)
      · rw [hrun] at hproof
        cases hproof
      · rw [hp.mem_nodeMap (hQ h hh), ← he]
        exact List.mem_map_of_mem hg
    · have hno : ¬ ∃ h ∈ hashes, ∀ g ∈ liveLeaves slots, mini (M := M) g ≠ mini h := by
        rintro ⟨h, hh, hfar⟩
        obtain ⟨g, hg, he⟩ := List.mem_map.mp ((hp.mem_nodeMap (hQ h hh)).mp (hall h hh))
        exact hfar g hg he
      rw [or_iff_right hno]
      constructor
      · intro h
        exact targets_live (h _ hrun)
      · intro hlive proof hproof
        rw [hrun] at hproof
        cases hproof
        exact leafAt_of_foundAt hp.keys hQ hts hlive

end

section
attribute [local instance] SortAlg.stable

/-- Keys that the leaves share two by two. -/
def pairKey : FreeHash → Nat
  | .leaf i => i / 2 + 1
  | _ => 0

/-- The leaves are entered under `pairKey`. -/
@[reducible] def sharedKeys : MiniHash FreeHash Nat := ⟨pairKey⟩

attribute [local instance] sharedKeys

theorem FreeHash.plainLeaves {slots : List (Option FreeHash)}
    (hleaf : ∀ h ∈ liveLeaves slots, ∃ i, h = .leaf i) (hd : (liveLeaves slots).Nodup)
    (hn : slots.length ≤ 2 ^ 63) : PlainLeaves slots := by
  refine ⟨fun h hh he => ?_, fun h hh a b he => ?_, hd, hn⟩
  · obtain ⟨i, rfl⟩ := hleaf h hh
    cases he
  · obtain ⟨i, rfl⟩ := hleaf h hh
    exact FreeHash.ideal.not_leaf a b ⟨i, he⟩

/-- The first leaves, in a block of their own. -/
def firstLeaves (n : Nat) : PolBlock FreeHash :=
  ⟨(List.range n).map fun i => ⟨.leaf i, false⟩, [], ⟨[], []⟩⟩

theorem firstLeaves_reached {n : Nat} (hn : n < 2 ^ 63) :
    ∃ p : Pollard FreeHash Nat,
      (newAccumulator true).modify (firstLeaves n).adds (firstLeaves n).dels (firstLeaves n).proof =
        .ok (p, .ok ()) ∧ p.numLeaves = n ∧
      PlainReach p [(firstLeaves n, (newAccumulator true : Pollard FreeHash Nat).getRoots)]
        [applyBlock [] (firstLeaves n).block, []] := by
  have hslots : applyBlock [] (firstLeaves n).block =
      (List.range n).map fun i => some (FreeHash.leaf i) := by
    simp [applyBlock, firstLeaves, PolBlock.block, delSlots]
  have hlive : liveLeaves (applyBlock [] (firstLeaves n).block) =
      (List.range n).map FreeHash.leaf := by
    rw [hslots, liveLeaves, List.filterMap_map]
    exact congrFun List.filterMap_eq_map' _
  have hplain : (firstLeaves n).Plain (stackSlots []) := by
    refine ⟨.nil, List.nodup_nil, FreeHash.plainLeaves ?_ ?_ ?_⟩
    · intro h hh
      rw [stackSlots, hlive, List.mem_map] at hh
      obtain ⟨i, -, rfl⟩ := hh
      exact ⟨i, rfl⟩
    · rw [stackSlots, hlive]
      exact List.nodup_range.map fun i j h => FreeHash.leaf.inj h
    · rw [stackSlots, hslots, List.length_map, List.length_range]
      omega
  -- No key has to be told apart for the block to be applied.
  obtain ⟨p, hrun, hp⟩ := (representsOn_newAccumulator (Q := fun _ : Nat => False)).modify
    FreeHash.ideal.ne_empty hplain ⟨⟨hplain.leaves.distinct, fun _ _ h => h.elim⟩,
      fun _ _ h => h.elim⟩
  have hnum : p.numLeaves = n := by
    rw [hp.numLeaves, hslots, List.length_map, List.length_range]
  exact ⟨p, hrun, hnum, .modify .new hplain (by simpa [firstLeaves] using hn) hrun⟩

/-- A Pollard without leaves and one with a single leaf prove leaves that were never added, and with
two leaves that share their first part one is proved at the position of the other. -/
theorem prove_vouches_nonmember :
    ∃ p₀ p₁ p₂ : Pollard FreeHash Nat,
      PlainReach p₀ [] [[]] ∧ p₀.prove [.leaf 5] = .ok (.ok ⟨[], []⟩) ∧
      (∃ stack visited, PlainReach p₁ stack visited ∧ liveLeaves (stackSlots stack) = [.leaf 0] ∧
        p₁.prove [.leaf 5] = .ok (.ok ⟨[0], []⟩)) ∧
      ∃ stack visited, PlainReach p₂ stack visited ∧
        stackSlots stack = [some (.leaf 0), some (.leaf 1)] ∧
        p₂.prove [.leaf 0] = .ok (.ok ⟨[1], [.leaf 0]⟩) := by
  obtain ⟨p₁, hrun₁, -, hp₁⟩ := firstLeaves_reached (n := 1) (by decide)
  obtain ⟨p₂, hrun₂, -, hp₂⟩ := firstLeaves_reached (n := 2) (by decide)
  refine ⟨newAccumulator true, p₁, p₂, .new, by decide, ⟨_, _, hp₁, by decide, ?_⟩,
    ⟨_, _, hp₂, by decide, ?_⟩⟩
  · have h : ((newAccumulator true : Pollard FreeHash Nat).modify (firstLeaves 1).adds
        (firstLeaves 1).dels (firstLeaves 1).proof >>= fun r => r.1.prove [.leaf 5]) =
        .ok (.ok ⟨[0], []⟩) := by
      decide +kernel
    rwa [hrun₁] at h
  · have h : ((newAccumulator true : Pollard FreeHash Nat).modify (firstLeaves 2).adds
        (firstLeaves 2).dels (firstLeaves 2).proof >>= fun r => r.1.prove [.leaf 0]) =
        .ok (.ok ⟨[1], [.leaf 0]⟩) := by
      decide +kernel
    rwa [hrun₂] at h

/-- Asking for the third leaf, which does not share its first part; the two others do. -/
theorem prove_vouches_third_of_three :
    ∃ (p : Pollard FreeHash Nat) (stack : List (PolBlock FreeHash × List FreeHash))
      (visited : List (List (Option FreeHash))),
      PlainReach p stack visited ∧
      stackSlots stack = [some (.leaf 0), some (.leaf 1), some (.leaf 2)] ∧
      ∀ proof, p.prove [.leaf 2] = .ok (.ok proof) →
        List.Forall₂ (LeafAt (stackSlots stack)) proof.targets [.leaf 2] := by
  obtain ⟨p, -, hnum, hp⟩ := firstLeaves_reached (n := 3) (by decide)
  refine ⟨p, _, _, hp, by decide, ?_⟩
  refine (prove_vouches_iff FreeHash.ideal.inj FreeHash.ideal.ne_empty hp ?_).mpr ?_
  · intro slots hs h hh
    rw [List.mem_singleton.mp hh]
    rcases List.mem_cons.mp hs with rfl | hs
    · intro g hg hkey
      refine ⟨?_, fun a b => Nat.zero_ne_add_one _⟩
      revert g
      decide
    · rw [List.mem_singleton.mp hs]
      exact fun g hg => absurd hg List.not_mem_nil
  · exact Or.inr (Or.inr ⟨by omega, Or.inr (by decide)⟩)

end

end Utreexo
