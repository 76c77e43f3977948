import Utreexo.PollardModify
import Utreexo.PollardPos

/-! # Runs of a full Pollard

A block is honest if its targets are the current positions of the leaves it deletes.
After honest blocks a full Pollard is the collapsed forest of the leaves: `Represents`
says so, and `modify` keeps it.
-/
namespace Utreexo
open Merkle

/-- The arguments of one call of `Modify`. -/
structure PolBlock (H : Type) where
  adds : List (Leaf H)
  dels : List H
  proof : Proof H

/-- What the block does to the leaves. -/
def PolBlock.block {H : Type} (b : PolBlock H) : Block H := ⟨b.dels, b.adds.map Leaf.hash⟩

/-- `t` is the position of the leaf `h`. -/
def LeafAt {H : Type} (slots : List (Option H)) (t : Nat) (h : H) : Prop :=
  ∃ x, placed slots x = some (.leaf h) ∧ nodePos (treeRows slots.length) x = t

section
variable {H M : Type} [HashOps H] [MiniHash H M]

/-- A hash that can be a leaf: neither it nor its first part is that of anything else. -/
structure LeafHash (M : Type) [MiniHash H M] (h : H) : Prop where
  ne_empty : h ≠ empty
  not_parent : ∀ a b : H, mini (M := M) (parentHash a b) ≠ mini h

/-- What is assumed of the leaves: those present at one time have distinct first parts.
The number of leaves stays within the range of the positions. -/
structure LeavesFine (M : Type) [MiniHash H M] (slots : List (Option H)) : Prop where
  isLeaf : ∀ h ∈ liveLeaves slots, LeafHash M h
  distinct : ((liveLeaves slots).map (mini (M := M))).Nodup
  counted : slots.length ≤ 2 ^ 63

/-- What is assumed of the leaves as whole hashes, whatever their first parts are. -/
structure PlainLeaves (slots : List (Option H)) : Prop where
  ne_empty : ∀ h ∈ liveLeaves slots, h ≠ empty
  not_parent : ∀ h ∈ liveLeaves slots, ∀ a b : H, parentHash a b ≠ h
  distinct : (liveLeaves slots).Nodup
  counted : slots.length ≤ 2 ^ 63

omit [MiniHash H M] in
theorem plainLeaves_nil : PlainLeaves ([] : List (Option H)) :=
  ⟨fun _ h => absurd h List.not_mem_nil, fun _ h => absurd h List.not_mem_nil, List.nodup_nil,
    by simp⟩

omit [MiniHash H M] in
theorem PlainLeaves.isLeaf {slots : List (Option H)} (h : PlainLeaves slots) :
    ∀ y ∈ liveLeaves slots, (∀ a b : H, parentHash a b ≠ y) ∧ y ≠ empty :=
  fun y hy => ⟨h.not_parent y hy, h.ne_empty y hy⟩

omit [MiniHash H M] in
/-- What no two hashes are combined to can be a leaf. -/
theorem idealHash_not_parent
    (hinj : ∀ {a b c d : H}, parentHash a b = parentHash c d → a = c ∧ b = d)
    (hne : ∀ a b : H, parentHash a b ≠ empty) :
    IdealHash H fun h => ∀ a b : H, parentHash a b ≠ h :=
  ⟨hinj, hne, fun a b h => h a b rfl⟩

/-- Every first part tells the leaves apart. -/
theorem LeavesFine.miniOk {slots : List (Option H)} (h : LeavesFine M slots) :
    MiniOk (fun _ : M => True) slots :=
  ⟨⟨List.Nodup.of_map _ h.distinct, fun ha hb _ he => List.inj_on_of_nodup_map h.distinct ha hb he⟩,
    fun y hy _ => (h.isLeaf y hy).not_parent⟩

theorem LeavesFine.nodup {slots : List (Option H)} (h : LeavesFine M slots) :
    (liveLeaves slots).Nodup := h.miniOk.leaves_nodup

theorem LeavesFine.plain {slots : List (Option H)} (h : LeavesFine M slots) : PlainLeaves slots :=
  ⟨fun y hy => (h.isLeaf y hy).ne_empty,
    fun y hy a b he => (h.isLeaf y hy).not_parent a b (congrArg mini he), h.nodup, h.counted⟩

variable [DecidableEq H] [DecidableEq M]

/-- A block that can be applied to the leaves: distinct leaves are deleted, its targets
are their positions, and the leaves are fine afterwards. -/
structure PolBlock.Honest (M : Type) [MiniHash H M] (slots : List (Option H)) (b : PolBlock H) :
    Prop where
  targets : List.Forall₂ (LeafAt slots) b.proof.targets b.dels
  distinct : b.dels.Nodup
  leaves : LeavesFine M (applyBlock slots b.block)

/-- A block that can be applied to the leaves, which are distinct as whole hashes afterwards. -/
structure PolBlock.Plain (slots : List (Option H)) (b : PolBlock H) : Prop where
  targets : List.Forall₂ (LeafAt slots) b.proof.targets b.dels
  distinct : b.dels.Nodup
  leaves : PlainLeaves (applyBlock slots b.block)

omit [DecidableEq M] in
theorem PolBlock.Honest.plain {slots : List (Option H)} {b : PolBlock H} (h : b.Honest M slots) :
    b.Plain slots :=
  ⟨h.targets, h.distinct, h.leaves.plain⟩

/-- A run of honest blocks. -/
def HonestRun (M : Type) [MiniHash H M] (slots : List (Option H)) : List (PolBlock H) → Prop
  | [] => True
  | b :: bs => b.Honest M slots ∧ HonestRun M (applyBlock slots b.block) bs

/-- The calls of `Modify` one after the other, until one fails. -/
def Pollard.modifyAll (p : Pollard H M) : List (PolBlock H) →
    Exec (Pollard H M × Except (PolErr H) Unit)
  | [] => .ok (p, .ok ())
  | b :: bs => do
    let (p, res) ← p.modify b.adds b.dels b.proof
    match res with
    | .error e => .ok (p, .error e)
    | .ok () => modifyAll p bs

/-- The Pollard is the collapsed forest of the leaves, and its node map leads to them as far as
their keys are in `Q`. -/
structure Pollard.RepresentsOn (Q : M → Prop) (p : Pollard H M) (slots : List (Option H)) :
    Prop where
  holds : ∃ F, p.Holds Q F slots []
  plain : PlainLeaves slots
  keys : MiniOk Q slots
  numDels : p.numDels + (liveLeaves slots).length = slots.length

/-- **The Pollard is the collapsed forest of the leaves.** -/
structure Pollard.Represents (p : Pollard H M) (slots : List (Option H)) : Prop where
  holds : ∃ F, p.Holds (fun _ => True) F slots []
  fine : LeavesFine M slots
  numDels : p.numDels + (liveLeaves slots).length = slots.length

/-! ### One block -/

omit [HashOps H] [DecidableEq H] in
/-- The targets as nodes. -/
theorem exists_nodes {slots : List (Option H)} {targets : List Nat} {dels : List H}
    (h : List.Forall₂ (LeafAt slots) targets dels) :
    ∃ xs, List.Forall₂ (fun x h => placed slots x = some (.leaf h)) xs dels ∧
      targets = xs.map (nodePos (treeRows slots.length)) := by
  induction h with
  | nil => exact ⟨[], .nil, rfl⟩
  | cons ha _ ih =>
    obtain ⟨x, hx, rfl⟩ := ha
    obtain ⟨xs, hxs, rfl⟩ := ih
    exact ⟨x :: xs, .cons hx hxs, rfl⟩

omit [HashOps H] [DecidableEq H] in
theorem LeafAt.live {slots : List (Option H)} {t : Nat} {h : H} (ht : LeafAt slots t h) :
    h ∈ liveLeaves slots := by
  obtain ⟨x, hx, -⟩ := ht
  exact placed_leaves_subset hx h (by simp [CTree.leaves])

omit [HashOps H] [DecidableEq H] in
theorem targets_live {slots : List (Option H)} {targets : List Nat} {dels : List H}
    (h : List.Forall₂ (LeafAt slots) targets dels) : ∀ d ∈ dels, d ∈ liveLeaves slots := by
  induction h with
  | nil => simp
  | cons ha _ ih => exact List.forall_mem_cons.mpr ⟨ha.live, ih⟩

omit [HashOps H] in
/-- How many leaves are left. -/
theorem length_liveLeaves_delSlots {slots : List (Option H)} {dels : List H}
    (hnd : (liveLeaves slots).Nodup) (hd : dels.Nodup) (hlive : ∀ d ∈ dels, d ∈ liveLeaves slots) :
    (liveLeaves (delSlots slots dels)).length + dels.length = (liveLeaves slots).length := by
  have hperm : ((liveLeaves slots).filter (· ∈ dels)).Perm dels := by
    rw [List.perm_ext_iff_of_nodup (hnd.filter _) hd]
    intro a
    simp only [List.mem_filter, decide_eq_true_eq, and_iff_right_iff_imp]
    exact hlive a
  rw [liveLeaves_delSlots, ← hperm.length_eq,
    List.length_eq_length_filter_add (l := liveLeaves slots) (· ∈ dels), Nat.add_comm]
  simp

omit [HashOps H] [DecidableEq H] in
theorem liveLeaves_added (slots : List (Option H)) (adds : List (Leaf H)) :
    liveLeaves (slots ++ adds.map fun l => some l.hash) =
      liveLeaves slots ++ adds.map Leaf.hash := by
  simp [liveLeaves, List.filterMap_map]

variable {slots : List (Option H)} {p : Pollard H M} {b : PolBlock H} {Q : M → Prop}

omit [DecidableEq H] in
theorem Pollard.Represents.on (hp : p.Represents slots) :
    p.RepresentsOn (fun _ => True) slots :=
  ⟨hp.holds, hp.fine.plain, hp.fine.miniOk, hp.numDels⟩

omit [MiniHash H M] [DecidableEq M] in
theorem PlainLeaves.delSlots {slots : List (Option H)} (h : PlainLeaves slots) (dels : List H) :
    PlainLeaves (delSlots slots dels) := by
  have hsub : (liveLeaves (Utreexo.delSlots slots dels)).Sublist (liveLeaves slots) := by
    rw [liveLeaves_delSlots]
    exact List.filter_sublist
  refine ⟨fun a ha => h.ne_empty a (hsub.subset ha), fun a ha => h.not_parent a (hsub.subset ha),
    h.distinct.sublist hsub, ?_⟩
  rw [length_delSlots]
  exact h.counted

/-- The deletions of a block, whatever keys are told apart. -/
theorem Pollard.RepresentsOn.remove (hp : p.RepresentsOn Q slots) (hb : b.Plain slots) :
    ∃ p', (p.deleteFromMap b.dels).remove b.proof.targets = .ok (p', .ok ()) ∧
      Pollard.RepresentsOn Q { p' with numDels := add64 p'.numDels b.proof.targets.length }
        (delSlots slots b.dels) := by
  obtain ⟨F, hF⟩ := hp.holds
  have hn := hp.plain.counted
  have hlive := targets_live hb.targets
  obtain ⟨xs, hxs, htargets⟩ := exists_nodes hb.targets
  have hcount := length_liveLeaves_delSlots hp.plain.distinct hb.distinct hlive
  have htl : b.proof.targets.length = b.dels.length := hb.targets.length_eq
  have hd := hp.numDels
  obtain ⟨p1, F1, hrun1, hp1, hd1⟩ := Pollard.remove_spec (hF.deleteFromMap hn hp.keys hlive)
    hn hp.keys hxs hb.distinct (fun h hh => by simpa using hh)
  have hp1' := hp1.none_gone (by rwa [length_delSlots]) (fun h hh => by
    rw [liveLeaves_delSlots]
    simp at hh ⊢
    exact fun _ => hh)
  have hnum : add64 p1.numDels b.proof.targets.length = p.numDels + b.dels.length := by
    rw [hd1, htl, add64_of_lt]
    · rfl
    · show p.numDels + b.dels.length < 2 ^ 64
      omega
  refine ⟨p1, by rw [htargets, hrun1], ⟨F1, ⟨hp1'.rep.toHeapRep, hp1'.rep.roots⟩, hp1'.trees,
    hp1'.numLeaves, hp1'.full, hp1'.map⟩, hp.plain.delSlots _, hp.keys.delSlots _, ?_⟩
  show add64 p1.numDels b.proof.targets.length + _ = _
  rw [hnum, length_delSlots]
  omega

/-- The additions of a block, whatever keys are told apart. -/
theorem Pollard.RepresentsOn.add (hi : ∀ a b : H, parentHash a b ≠ empty)
    (hp : p.RepresentsOn Q slots) {adds : List (Leaf H)}
    (hplain : PlainLeaves (slots ++ adds.map fun l => some l.hash))
    (hkeys : MiniOk Q (slots ++ adds.map fun l => some l.hash)) :
    ∃ p', p.add adds = .ok p' ∧
      p'.RepresentsOn Q (slots ++ adds.map fun l => some l.hash) := by
  obtain ⟨F, hF⟩ := hp.holds
  have hlen := hplain.counted
  rw [List.length_append, List.length_map] at hlen
  have hall := liveLeaves_added slots adds
  obtain ⟨p', F', hrun, hp', hd⟩ := Pollard.add_spec hi adds hF
    (fun x hx => hplain.ne_empty x (by rwa [hall])) (by omega) (by rw [← hall]; exact hkeys.leaves)
  refine ⟨p', hrun, ⟨F', hp'⟩, hplain, hkeys, ?_⟩
  have hdels := hp.numDels
  rw [hd, hall, List.length_append, List.length_append, List.length_map, List.length_map]
  omega

omit [HashOps H] in
theorem applyBlock_eq (slots : List (Option H)) (b : PolBlock H) :
    applyBlock slots b.block = delSlots slots b.dels ++ b.adds.map fun l => some l.hash := by
  simp [applyBlock, PolBlock.block, List.map_map, Function.comp_def]

/-- `modify` applies a block, whatever keys are told apart. -/
theorem Pollard.RepresentsOn.modify (hi : ∀ a b : H, parentHash a b ≠ empty)
    (hp : p.RepresentsOn Q slots) (hb : b.Plain slots)
    (hkeys : MiniOk Q (applyBlock slots b.block)) :
    ∃ p', p.modify b.adds b.dels b.proof = .ok (p', .ok ()) ∧
      p'.RepresentsOn Q (applyBlock slots b.block) := by
  have hplain := hb.leaves
  rw [applyBlock_eq] at hplain hkeys ⊢
  obtain ⟨p1, hrun1, hp1⟩ := hp.remove hb
  obtain ⟨p2, hrun2, hp2⟩ := hp1.add hi hplain hkeys
  refine ⟨p2, ?_, hp2⟩
  rw [Pollard.modify, hrun1, Exec.ok_bind]
  simp only [hrun2, Exec.ok_bind]

/-- **`modify` applies an honest block.** -/
theorem Pollard.Represents.modify (hi : ∀ a b : H, parentHash a b ≠ empty)
    (hp : p.Represents slots) (hb : b.Honest M slots) :
    ∃ p', p.modify b.adds b.dels b.proof = .ok (p', .ok ()) ∧
      p'.Represents (applyBlock slots b.block) := by
  obtain ⟨p', hrun, hp'⟩ := hp.on.modify hi hb.plain hb.leaves.miniOk
  exact ⟨p', hrun, hp'.holds, hb.leaves, hp'.numDels⟩

/-- **A run of honest blocks.** -/
theorem Pollard.Represents.modifyAll (hi : ∀ a b : H, parentHash a b ≠ empty)
    {bs : List (PolBlock H)} (hp : p.Represents slots) (hbs : HonestRun M slots bs) :
    ∃ p', p.modifyAll bs = .ok (p', .ok ()) ∧
      p'.Represents ((bs.map PolBlock.block).foldl applyBlock slots) := by
  induction bs generalizing p slots with
  | nil => exact ⟨p, rfl, hp⟩
  | cons b bs ih =>
    obtain ⟨p1, hrun1, hp1⟩ := hp.modify hi hbs.1
    obtain ⟨p2, hrun2, hp2⟩ := ih hp1 hbs.2
    refine ⟨p2, ?_, hp2⟩
    rw [Pollard.modifyAll, hrun1]
    exact hrun2

omit [DecidableEq H] in
theorem holds_newAccumulator (Q : M → Prop) :
    ∃ F, (newAccumulator true : Pollard H M).Holds Q F [] [] := by
  have hrep : (newAccumulator true : Pollard H M).Rep [] :=
    ⟨⟨fun _ h => (List.not_mem_nil h).elim, List.nodup_nil, fun _ h => (List.not_mem_nil h).elim⟩,
      rfl⟩
  have htrees : ([] : List (PRoot H)).map PRoot.opt = forestTrees [] := by
    simp [forestTrees, show rootRows 0 0 = [] by decide]
  have hmap : MapOk Q (newAccumulator true : Pollard H M).nodeMap ([] : List (Addr × H)) [] := by
    intro k _ b
    simp [newAccumulator]
  exact ⟨[], hrep, htrees, rfl, rfl, hmap⟩

omit [DecidableEq H] in
theorem representsOn_newAccumulator {Q : M → Prop} :
    (newAccumulator true : Pollard H M).RepresentsOn Q [] := by
  refine ⟨holds_newAccumulator Q, plainLeaves_nil, ⟨⟨List.nodup_nil, ?_⟩, ?_⟩, rfl⟩
  · exact fun ha => absurd ha List.not_mem_nil
  · exact fun y hy => absurd hy List.not_mem_nil

omit [DecidableEq H] in
/-- The new accumulator has no leaves. -/
theorem represents_newAccumulator :
    (newAccumulator true : Pollard H M).Represents [] :=
  ⟨holds_newAccumulator _, ⟨fun _ h => (List.not_mem_nil h).elim, List.nodup_nil, by simp⟩, rfl⟩

/-! ### What the Pollard answers -/

section AnswersOn
variable (hp : p.RepresentsOn Q slots)
include hp

omit [DecidableEq H] in
theorem Pollard.RepresentsOn.numLeaves : p.numLeaves = slots.length := by
  obtain ⟨F, hF⟩ := hp.holds
  exact hF.numLeaves

omit [DecidableEq H] in
theorem Pollard.RepresentsOn.getRoots : p.getRoots = (forestTrees slots).map hashOpt := by
  obtain ⟨F, hF⟩ := hp.holds
  rw [hF.rep.getRoots, ← hF.trees, List.map_map]
  rfl

omit [DecidableEq H] in
/-- The hash at a position of the forest. -/
theorem Pollard.RepresentsOn.getHash {x : Node} (hx : x.InForest slots.length) :
    p.getHash (nodePos (treeRows slots.length) x) = hashOpt (placed slots x) := by
  obtain ⟨F, hF⟩ := hp.holds
  rw [hF.rep.getHash, hF.numLeaves, hF.trees, forestHash_nodePos hp.plain.counted hx]

/-- The leaf of an entry of the node map. -/
theorem Pollard.RepresentsOn.lookup {k : M} (hQ : Q k) {a : Addr}
    (hk : p.nodeMap.lookup k = some a) {leaf : H → Prop} (hi : IdealHash H leaf)
    (hleaf : ∀ h ∈ liveLeaves slots, leaf h) :
    ∃ h t, mini h = k ∧ LeafAt slots t h ∧ p.calculatePosition a = .ok t := by
  obtain ⟨F, hF⟩ := hp.holds
  obtain ⟨h, hmem, -, rfl⟩ := (hF.map k hQ a).mp hk
  obtain ⟨x, hx, hpos⟩ := hF.rep.calculatePosition hF.trees hF.numLeaves hp.plain.counted hi
    hp.plain.distinct (fun h hh => ⟨hleaf h hh, hp.plain.ne_empty h hh⟩) hmem
  exact ⟨h, _, rfl, ⟨x, hx, rfl⟩, hpos⟩

omit [DecidableEq H] in
/-- The keys of the node map. -/
theorem Pollard.RepresentsOn.mem_nodeMap {k : M} (hQ : Q k) :
    k ∈ p.nodeMap ↔ k ∈ (liveLeaves slots).map mini := by
  obtain ⟨F, hF⟩ := hp.holds
  have hn := hp.plain.counted
  rw [← Finmap.lookup_isSome, Option.isSome_iff_exists, ← cells_snd_of_trees hF.trees (by omega),
    List.map_map, List.mem_map]
  constructor
  · rintro ⟨a, ha⟩
    obtain ⟨h, hmem, -, rfl⟩ := (hF.map k hQ a).mp ha
    exact ⟨(a, h), hmem, rfl⟩
  · rintro ⟨⟨a, h⟩, hmem, rfl⟩
    exact ⟨a, (hF.map _ hQ a).mpr ⟨h, hmem, List.not_mem_nil, rfl⟩⟩

end AnswersOn

section Answers
variable (hp : p.Represents slots)
include hp

omit [DecidableEq H] in
theorem Pollard.Represents.numLeaves : p.numLeaves = slots.length := hp.on.numLeaves

omit [DecidableEq H] in
theorem Pollard.Represents.getRoots : p.getRoots = (forestTrees slots).map hashOpt :=
  hp.on.getRoots

omit [DecidableEq H] in
theorem Pollard.Represents.getHash {x : Node} (hx : x.InForest slots.length) :
    p.getHash (nodePos (treeRows slots.length) x) = hashOpt (placed slots x) :=
  hp.on.getHash hx

omit [DecidableEq H] in
theorem Pollard.Represents.mem_nodeMap {k : M} :
    k ∈ p.nodeMap ↔ k ∈ (liveLeaves slots).map mini :=
  hp.on.mem_nodeMap trivial

omit [DecidableEq H] in
/-- Every leaf that has not been deleted has one entry. -/
theorem Pollard.Represents.card_nodeMap : p.numDels + p.nodeMap.keys.card = p.numLeaves := by
  have hkeys : p.nodeMap.keys = ((liveLeaves slots).map mini).toFinset := by
    ext k
    rw [Finmap.mem_keys, hp.mem_nodeMap, List.mem_toFinset]
  rw [hkeys, List.toFinset_card_of_nodup hp.fine.distinct, List.length_map, hp.numLeaves]
  exact hp.numDels

end Answers

/-! ### The slots and the leaves added -/

omit [HashOps H] in
/-- Every slot is empty or holds the leaf that was added in it. -/
theorem slotsOf_added (bs : List (Block H)) :
    List.Forall₂ (fun s h => s = none ∨ s = some h) (slotsOf bs) (addedLeaves bs) := by
  induction bs using List.reverseRecOn with
  | nil => exact .nil
  | append_singleton bs b ih =>
    rw [slotsOf_concat, applyBlock, addedLeaves, List.flatMap_append, List.flatMap_singleton]
    refine List.rel_append ?_ ?_
    · rw [delSlots, List.forall₂_map_left_iff]
      refine ih.imp fun s h hs => ?_
      rcases hs with rfl | rfl
      · exact Or.inl rfl
      · by_cases hd : h ∈ b.dels <;> simp [hd]
    · rw [List.forall₂_map_left_iff]
      exact List.forall₂_same.mpr fun _ _ => Or.inr rfl

omit [HashOps H] [DecidableEq H] in
theorem live_of_added {slots : List (Option H)} {added : List H}
    (h : List.Forall₂ (fun s h => s = none ∨ s = some h) slots added) {a : H}
    (ha : a ∈ liveLeaves slots) : a ∈ added := by
  rw [mem_liveLeaves] at ha
  induction h with
  | nil => cases ha
  | cons hs _ ih =>
    rcases List.mem_cons.mp ha with rfl | ha
    · cases hs.resolve_left (by simp)
      exact List.mem_cons_self
    · exact List.mem_cons_of_mem _ (ih ha)

omit [HashOps H] in
/-- Distinct leaves, and those of them that are there, say what the slots are. -/
theorem slots_eq_map {slots : List (Option H)} {added : List H}
    (h : List.Forall₂ (fun s h => s = none ∨ s = some h) slots added) (hnd : added.Nodup) :
    slots = added.map fun h => if h ∈ liveLeaves slots then some h else none := by
  induction h with
  | nil => rfl
  | @cons s a slots added hs hrest ih =>
    obtain ⟨hnot, hnd⟩ := List.nodup_cons.mp hnd
    have hnot' : a ∉ liveLeaves slots := fun ha => hnot (live_of_added hrest ha)
    have htail : slots =
        added.map fun h => if h ∈ liveLeaves (s :: slots) then some h else none := by
      refine (ih hnd).trans (List.map_congr_left fun h hh => ?_)
      have hne : h ≠ a := fun he => hnot (he ▸ hh)
      have hiff : h ∈ liveLeaves (s :: slots) ↔ h ∈ liveLeaves slots := by
        rw [mem_liveLeaves, mem_liveLeaves, List.mem_cons, or_iff_right]
        rintro rfl
        exact hne (Option.some.inj (hs.resolve_left (by simp)))
      simp only [hiff]
    rw [List.map_cons, ← htail]
    congr 1
    rcases hs with rfl | rfl
    · rw [if_neg]
      simpa [mem_liveLeaves] using hnot'
    · rw [if_pos]
      simp [mem_liveLeaves]

/-- **A full Pollard is the collapsed forest.**  No call of an honest run fails, and
what the Pollard answers afterwards is read off the slots. -/
theorem full_pollard_is_forest
    (hinj : ∀ {a b c d : H}, parentHash a b = parentHash c d → a = c ∧ b = d)
    (hne : ∀ a b : H, parentHash a b ≠ empty) {bs : List (PolBlock H)} (hbs : HonestRun M [] bs) :
    ∃ p : Pollard H M, (newAccumulator true).modifyAll bs = .ok (p, .ok ()) ∧
      p.numLeaves = (slotsOf (bs.map PolBlock.block)).length ∧
      p.getRoots = forestRoots (slotsOf (bs.map PolBlock.block)) ∧
      (∀ x : Node, x.InForest p.numLeaves → p.getHash (nodePos (treeRows p.numLeaves) x) =
        hashOpt (placed (slotsOf (bs.map PolBlock.block)) x)) ∧
      (∀ k, k ∈ p.nodeMap ↔ k ∈ (liveLeaves (slotsOf (bs.map PolBlock.block))).map mini) ∧
      (∀ k a, p.nodeMap.lookup k = some a → ∃ h t, mini h = k ∧
        LeafAt (slotsOf (bs.map PolBlock.block)) t h ∧ p.calculatePosition a = .ok t) ∧
      p.numDels + p.nodeMap.keys.card = p.numLeaves ∧
      ((addedLeaves (bs.map PolBlock.block)).Nodup → slotsOf (bs.map PolBlock.block) =
        (addedLeaves (bs.map PolBlock.block)).map fun h =>
          if h ∈ liveLeaves (slotsOf (bs.map PolBlock.block)) then some h else none) := by
  obtain ⟨p, hrun, hp⟩ := represents_newAccumulator.modifyAll (M := M) hne hbs
  have hp : p.Represents (slotsOf (bs.map PolBlock.block)) := hp
  have hi : IdealHash H (LeafHash M) := ⟨hinj, hne, fun a b h => h.not_parent a b rfl⟩
  refine ⟨p, hrun, hp.numLeaves, ?_, ?_, fun k => hp.mem_nodeMap, ?_, hp.card_nodeMap,
    slots_eq_map (slotsOf_added _)⟩
  · rw [hp.getRoots, forestRoots_eq hi fun h hh => (hp.fine.isLeaf h hh).ne_empty]
  · rw [hp.numLeaves]
    exact fun x hx => hp.getHash hx
  · exact fun k a hk => hp.on.lookup trivial hk hi hp.fine.isLeaf

end

/-- Leaves of terms. -/
theorem FreeHash.leavesFine {slots : List (Option FreeHash)}
    (hl : ∀ h ∈ liveLeaves slots, h.mini = h ∧ h ≠ .empty) (hnd : (liveLeaves slots).Nodup)
    (hn : slots.length ≤ 2 ^ 63) : LeavesFine FreeHash slots := by
  have hmini : (liveLeaves slots).map FreeHash.mini = liveLeaves slots :=
    (List.map_congr_left fun h hh => (hl h hh).1).trans (List.map_id _)
  refine ⟨fun h hh => ⟨(hl h hh).2, fun a b he => (hl h hh).2 ?_⟩, ?_, hn⟩
  · rw [← (hl h hh).1]
    exact he.symm
  · show ((liveLeaves slots).map FreeHash.mini).Nodup
    rwa [hmini]

/-- Three leaves are added; then the second one is deleted and a fourth is added. -/
def secondDeleted : List (PolBlock FreeHash) :=
  [⟨[⟨.leaf 0, false⟩, ⟨.leaf 1, true⟩, ⟨.leaf 2, false⟩], [], ⟨[], []⟩⟩,
    ⟨[⟨.leaf 3, false⟩], [.leaf 1], ⟨[1], [.leaf 0]⟩⟩]

theorem secondDeleted_honest : HonestRun FreeHash [] secondDeleted :=
  ⟨⟨.nil, by decide, FreeHash.leavesFine (by decide) (by decide) (by decide)⟩,
    ⟨.cons ⟨⟨0, 1⟩, by decide, by decide⟩ .nil, by decide,
      FreeHash.leavesFine (by decide) (by decide) (by decide)⟩, trivial⟩

theorem full_pollard_of_secondDeleted :
    ∃ p : Pollard FreeHash FreeHash,
      (newAccumulator true).modifyAll secondDeleted = .ok (p, .ok ()) ∧
      p.getRoots = [.node (.leaf 0) (.node (.leaf 2) (.leaf 3))] := by
  obtain ⟨p, hrun, -, hroots, -⟩ := full_pollard_is_forest FreeHash.ideal.inj
    FreeHash.ideal.ne_empty secondDeleted_honest
  exact ⟨p, hrun, hroots.trans (by decide)⟩

end Utreexo
