import Utreexo.DeTwin
import Utreexo.PollardDel

/-! # Modifying a full Pollard

`Modify` deletes the leaves of a block and adds its new leaves.  `remove` replaces the
positions of the leaves by those of whole subtrees (`deTwin`) and deletes these one
after the other.  They are deleted from the bottom up, so that what a deletion moves is
not deleted later.
-/
namespace Utreexo
open Merkle

section
variable {H : Type} {slots : List (Option H)} {x y : Node}

/-! ### Places -/

/-- The children of a place. -/
theorem placed_parent (hn : slots.length < 2 ^ 64) (hp : x.parent.InForest slots.length)
    {D : CTree H} (hx : placed slots x = some D) :
    ∃ S, placed slots x.sibling = some S ∧
      placed slots x.parent = some (if x.isRight then .node S D else .node D S) := by
  rw [placed_child hn hp] at hx
  obtain ⟨P, hP, hx⟩ := Option.bind_eq_some_iff.mp hx
  have hs := placed_child (x := x.sibling) hn (by rwa [Node.sibling_parent])
  rw [Node.sibling_parent, hP, Option.bind_some, Node.isRight_sibling] at hs
  cases P with
  | leaf a => cases hx
  | node l r =>
    rcases hr : x.isRight with _ | _
    · rw [hr] at hx hs
      cases hx
      exact ⟨r, hs, hP⟩
    · rw [hr] at hx hs
      cases hx
      exact ⟨l, hs, hP⟩

theorem placed_below_none (hn : slots.length < 2 ^ 64) (hp : x.InForest slots.length)
    (hx : placed slots x = none) (h : x.Above y) : placed slots y = none := by
  obtain ⟨j, rfl⟩ := h
  induction j generalizing y with
  | zero => rwa [Node.up_zero] at hx
  | succ j ih =>
    rw [← Node.parent_up] at hp hx
    rw [placed_child hn (Node.inForest_of_up hp), ih hp hx]
    rfl

/-- Siblings and their parent. -/
theorem placed_siblings (hn : slots.length < 2 ^ 64) {D S : CTree H}
    (hD : placed slots x = some D) (hS : placed slots x.sibling = some S)
    (hb : x.Before x.sibling) : placed slots x.parent = some (.node D S) := by
  have hnr : ¬ x.IsRoot slots.length := fun h => h.sibling_not_inForest (placed_inForest hS)
  obtain ⟨S', hS', hp⟩ := placed_parent hn ((placed_inForest hD).parent hnr) hD
  obtain rfl : S' = S := Option.some.inj (hS'.symm.trans hS)
  have hleft := (Node.before_sibling_iff x).mp hb
  rw [hp, if_neg (by rw [Node.isRight, decide_eq_true_eq]; omega)]

/-- Leaves are apart. -/
theorem placed_leaf_apart (hn : slots.length < 2 ^ 64) {a b : H}
    (hx : placed slots x = some (.leaf a)) (hy : placed slots y = some (.leaf b)) (hne : x ≠ y) :
    x.Apart y := by
  have key : ∀ {z w : Node} {c : H}, placed slots z = some (.leaf c) → z.Above w → z ≠ w →
      placed slots w = none := by
    intro z w c hz h hzw
    obtain ⟨j, hj⟩ := h
    cases j with
    | zero => exact absurd (hj.symm.trans (Node.up_zero w)) hzw
    | succ j =>
      rw [Node.up_succ] at hj
      have hin : (w.up j).parent.InForest slots.length := hj ▸ placed_inForest hz
      refine placed_below_none (x := w.up j) hn (Node.inForest_of_parent hin) ?_ ⟨j, rfl⟩
      rw [placed_child hn hin, hj, hz]
      rfl
  refine ⟨fun h => ?_, fun h => ?_⟩
  · rw [key hx h hne] at hy
    cases hy
  · rw [key hy h hne.symm] at hx
    cases hx

/-- What is deleted later is neither above nor below the place that a deletion vacates. -/
theorem vacated_apart {n : Nat} (hb : x.Before y) (h : x.Apart y) (hs : y ≠ x.sibling) :
    (vacated n x).Apart y := by
  rw [vacated]
  split
  · exact h
  · exact hb.parent_apart h hs

end

section
variable {H M : Type} [DecidableEq H] [HashOps H] [DecidableEq M] [MiniHash H M] {Q : M → Prop}
  {slots : List (Option H)} {p : Pollard H M} {F : List (PRoot H)} {gone : List H}

/-! ### Deleting subtrees -/

omit [HashOps H] in
theorem delSlots_append (slots : List (Option H)) (a b : List H) :
    delSlots (delSlots slots a) b = delSlots slots (a ++ b) := by
  simp only [delSlots, List.map_map]
  refine List.map_congr_left fun s _ => ?_
  cases s with
  | none => rfl
  | some h =>
    by_cases ha : h ∈ a <;> simp [Option.filter_some, ha]

omit [HashOps H] in
theorem delSlots_congr {a b : List H} (h : ∀ y, y ∈ a ↔ y ∈ b) :
    delSlots slots a = delSlots slots b := by
  simp only [delSlots, h]

omit [HashOps H] in
theorem delSlots_nil (slots : List (Option H)) : delSlots slots [] = slots := by
  rw [delSlots]
  refine (List.map_congr_left fun s _ => ?_).trans (List.map_id slots)
  cases s <;> rfl

/-- Disjoint subtrees of the forest, in the order in which they are deleted. -/
structure Deletable (slots : List (Option H)) (ys : List Node) (Ds : List (CTree H)) : Prop where
  placed : List.Forall₂ (fun y D => placed slots y = some D) ys Ds
  antichain : Antichain ys
  twinless : Twinless ys

omit [HashOps H] [DecidableEq H] in
theorem Deletable.exists_placed {ys : List Node} {Ds : List (CTree H)} (h : Deletable slots ys Ds)
    {y : Node} (hy : y ∈ ys) : ∃ D ∈ Ds, Utreexo.placed slots y = some D := by
  obtain ⟨hplaced, -, -⟩ := h
  induction hplaced with
  | nil => cases hy
  | cons hD _ ih =>
    rcases List.mem_cons.mp hy with rfl | hy
    · exact ⟨_, List.mem_cons_self, hD⟩
    · obtain ⟨D, hmem, hD⟩ := ih hy
      exact ⟨D, List.mem_cons_of_mem _ hmem, hD⟩

omit [HashOps H] in
/-- What is deleted later is still in its place. -/
theorem Deletable.step {ys : List Node} {Ds : List (CTree H)} {y : Node} {D : CTree H}
    (h : Deletable slots (y :: ys) (D :: Ds)) (hn : slots.length < 2 ^ 64)
    (hnd : (liveLeaves slots).Nodup) : Deletable (delSlots slots D.leaves) ys Ds := by
  obtain ⟨hplaced, hanti, htwin⟩ := h
  obtain ⟨hD, hrest⟩ := List.forall₂_cons.mp hplaced
  obtain ⟨hy, hanti⟩ := List.pairwise_cons.mp hanti
  obtain ⟨hy', htwin⟩ := List.pairwise_cons.mp htwin
  refine ⟨?_, hanti, htwin⟩
  rw [List.forall₂_iff_zip] at hrest ⊢
  refine ⟨hrest.1, fun {z D'} hz => ?_⟩
  have hzs := (List.of_mem_zip hz).1
  obtain ⟨h1, h2⟩ := vacated_apart (n := slots.length) (hy z hzs).1 (hy z hzs).2 (hy' z hzs)
  rw [placed_delSlots hn hnd hD h1 h2]
  exact hrest.2 hz

/-- **The loop of `remove`.** -/
theorem Pollard.removeLoop_spec {ys : List Node} :
    ∀ {slots : List (Option H)} {p : Pollard H M} {F : List (PRoot H)} {Ds : List (CTree H)},
      p.Holds Q F slots gone → slots.length ≤ 2 ^ 63 → MiniOk Q slots → Deletable slots ys Ds →
      (∀ D ∈ Ds, ∀ h ∈ D.leaves, h ∈ gone) →
      ∃ p' F', p.removeLoop (ys.map (nodePos (treeRows slots.length))) = .ok (p', .ok ()) ∧
        p'.Holds Q F' (delSlots slots (Ds.flatMap CTree.leaves)) gone ∧ p'.numDels = p.numDels := by
  induction ys with
  | nil =>
    intro slots p F Ds hp _ _ hDs _
    cases hDs.placed
    exact ⟨p, F, rfl, by simpa [delSlots_nil] using hp, rfl⟩
  | cons y ys ih =>
    intro slots p F Ds hp hn hm hDs hgone
    obtain ⟨D, Ds, hD, -, rfl⟩ := List.forall₂_cons_left_iff.mp hDs.placed
    obtain ⟨p1, F1, hrun, hp1, hd1⟩ := deleteAt_spec hp hn hm hD (hgone D (by simp))
    obtain ⟨p2, F2, hrun2, hp2, hd2⟩ := ih hp1 (by rwa [length_delSlots]) (hm.delSlots _)
      (hDs.step (by omega) hm.leaves_nodup) fun D' hD' => hgone D' (by simp [hD'])
    rw [delSlots_append] at hp2
    refine ⟨p2, F2, ?_, by simpa using hp2, hd2.trans hd1⟩
    rw [length_delSlots] at hrun2
    rw [List.map_cons, removeLoop]
    split at hrun
    · next h =>
      rw [if_pos h, hrun]
      exact hrun2
    · next h =>
      rw [if_neg h, hrun]
      exact hrun2

/-! ### Deleting leaves -/

omit [HashOps H] [DecidableEq H] in
/-- Placed subtrees whose leaves are to be deleted, and these leaves. -/
theorem mergeable_placed {k : Nat} (hk : k ≤ 63) (hn : slots.length ≤ 2 ^ k) (gone : List H) :
    Mergeable k (fun x => ∃ D, placed slots x = some D ∧ ∀ h ∈ D.leaves, h ∈ gone)
      (fun x => CTree.leavesOpt (placed slots x)) := by
  have hlt : slots.length < 2 ^ 64 := lt_word hk hn
  refine ⟨?_, ?_, ?_⟩
  · rintro x ⟨D, hD, -⟩
    exact fits_of_inForest hn (placed_inForest hD)
  · rintro x ⟨D, hD, hgD⟩ ⟨S, hS, hgS⟩ hb
    refine ⟨_, placed_siblings hlt hD hS hb, ?_⟩
    intro h hh
    rcases List.mem_append.mp hh with hh | hh
    · exact hgD h hh
    · exact hgS h hh
  · rintro x ⟨D, hD, -⟩ ⟨S, hS, -⟩ hb
    rw [placed_siblings hlt hD hS hb, hD, hS]
    rfl

section
variable {dels : List H} {xs : List Node}

omit [HashOps H] [DecidableEq H] in
/-- The leaves at the places. -/
theorem flatMap_leaves (hx : List.Forall₂ (fun x h => placed slots x = some (.leaf h)) xs dels) :
    xs.flatMap (fun x => CTree.leavesOpt (placed slots x)) = dels := by
  induction hx with
  | nil => rfl
  | cons h _ ih =>
    rw [List.flatMap_cons, ih, h]
    rfl

omit [HashOps H] [DecidableEq H] in
theorem leaves_live (hx : List.Forall₂ (fun x h => placed slots x = some (.leaf h)) xs dels) :
    ∀ d ∈ dels, d ∈ liveLeaves slots := by
  induction hx with
  | nil => simp
  | cons h _ ih =>
    exact List.forall_mem_cons.mpr ⟨placed_leaves_subset h _ (by simp [CTree.leaves]), ih⟩

omit [HashOps H] [DecidableEq H] in
theorem exists_leaf_of_mem
    (hx : List.Forall₂ (fun x h => placed slots x = some (.leaf h)) xs dels) {x : Node}
    (h : x ∈ xs) : ∃ a ∈ dels, placed slots x = some (.leaf a) := by
  induction hx with
  | nil => cases h
  | cons ha _ ih =>
    rcases List.mem_cons.mp h with rfl | h
    · exact ⟨_, List.mem_cons_self, ha⟩
    · obtain ⟨a, hmem, ha⟩ := ih h
      exact ⟨a, List.mem_cons_of_mem _ hmem, ha⟩

omit [HashOps H] [DecidableEq H] in
/-- Distinct leaves are in distinct places. -/
theorem nodup_places (hx : List.Forall₂ (fun x h => placed slots x = some (.leaf h)) xs dels)
    (hnd : dels.Nodup) : xs.Nodup := by
  induction hx with
  | nil => exact List.nodup_nil
  | cons ha hrest ih =>
    obtain ⟨hnot, hnd⟩ := List.nodup_cons.mp hnd
    refine List.nodup_cons.mpr ⟨fun hmem => hnot ?_, ih hnd⟩
    obtain ⟨b, hb, hbx⟩ := exists_leaf_of_mem hrest hmem
    cases ha.symm.trans hbx
    exact hb

omit [HashOps H] [DecidableEq H] in
/-- Distinct leaves in the order of their positions. -/
theorem antichain_of_sorted (hn : slots.length ≤ 2 ^ 63)
    (hx : ∀ x ∈ xs, ∃ a, placed slots x = some (.leaf a)) (hnd : xs.Nodup)
    (hsorted : xs.Pairwise fun x y =>
      nodePos (treeRows slots.length) x ≤ nodePos (treeRows slots.length) y) : Antichain xs := by
  have hfits : ∀ x ∈ xs, Fits (treeRows slots.length) x := by
    intro x hxs
    obtain ⟨h, hh⟩ := hx x hxs
    exact fits_of_inForest (le_two_pow_treeRows _) (placed_inForest hh)
  refine (hsorted.and hnd).imp_of_mem ?_
  rintro x y hxs hys ⟨hle, hne⟩
  obtain ⟨a, ha⟩ := hx x hxs
  obtain ⟨b, hb⟩ := hx y hys
  refine ⟨((hfits x hxs).pos_lt_iff (hfits y hys)).mp (Nat.lt_of_le_of_ne hle fun h => ?_),
    placed_leaf_apart (by omega) ha hb hne⟩
  exact hne ((hfits x hxs).pos_inj (hfits y hys) h)

omit [HashOps H] [DecidableEq H] in
/-- The sorted positions of distinct leaves. -/
theorem sorted_leaves (hn : slots.length ≤ 2 ^ 63)
    (hx : List.Forall₂ (fun x h => placed slots x = some (.leaf h)) xs dels) (hnd : dels.Nodup) :
    ∃ ys, ys.Perm xs ∧ sortPositions (xs.map (nodePos (treeRows slots.length))) =
      ys.map (nodePos (treeRows slots.length)) ∧ Antichain ys := by
  let r : Node → Node → Prop := fun x y =>
    nodePos (treeRows slots.length) x ≤ nodePos (treeRows slots.length) y
  have hperm := List.perm_insertionSort r xs
  refine ⟨xs.insertionSort r, hperm, ?_, ?_⟩
  · exact (List.map_insertionSort r (· ≤ ·) _ _ fun x _ y _ => Iff.rfl).symm
  have : Std.Total r := ⟨fun x y => Nat.le_total _ _⟩
  have : IsTrans Node r := ⟨fun x y z => Nat.le_trans⟩
  refine antichain_of_sorted hn (fun x hxs => ?_) (hperm.nodup_iff.mpr (nodup_places hx hnd))
    (List.pairwise_insertionSort r xs)
  obtain ⟨a, -, ha⟩ := exists_leaf_of_mem hx (hperm.mem_iff.mp hxs)
  exact ⟨a, ha⟩

omit [HashOps H] [DecidableEq H] in
/-- The trees in the places. -/
theorem exists_trees {ys : List Node} (h : ∀ y ∈ ys, ∃ D, placed slots y = some D) :
    ∃ Ds, List.Forall₂ (fun y D => placed slots y = some D) ys Ds ∧
      Ds.flatMap CTree.leaves = ys.flatMap fun y => CTree.leavesOpt (placed slots y) := by
  induction ys with
  | nil => exact ⟨[], .nil, rfl⟩
  | cons y ys ih =>
    obtain ⟨D, hD⟩ := h y List.mem_cons_self
    obtain ⟨Ds, hDs, hl⟩ := ih fun z hz => h z (List.mem_cons_of_mem y hz)
    refine ⟨D :: Ds, .cons hD hDs, ?_⟩
    rw [List.flatMap_cons, List.flatMap_cons, hl, hD, CTree.leavesOpt_some]

omit [HashOps H] [DecidableEq H] in
/-- The subtrees that a block deletes, in a forest with any number of rows. -/
theorem deletable_of_sorted {k : Nat} (hk : k ≤ 63) (hn : slots.length ≤ 2 ^ k)
    (hx : List.Forall₂ (fun x h => placed slots x = some (.leaf h)) xs dels) {zs : List Node}
    (hperm : zs.Perm xs) (hanti : Antichain zs) :
    ∃ ys Ds, deTwin (zs.map (nodePos k)) k = ys.map (nodePos k) ∧ Deletable slots ys Ds ∧
      ∀ h, h ∈ Ds.flatMap CTree.leaves ↔ h ∈ dels := by
  have hleaves : ∀ z ∈ zs, ∃ D, placed slots z = some D ∧ ∀ h ∈ D.leaves, h ∈ dels := by
    intro z hz
    obtain ⟨a, ha, hza⟩ := exists_leaf_of_mem hx (hperm.mem_iff.mp hz)
    refine ⟨_, hza, fun h hh => ?_⟩
    rw [CTree.leaves, List.mem_singleton] at hh
    exact hh ▸ ha
  obtain ⟨ys, hys, hya, hyP, hyt, hyw⟩ := deTwin_spec hk (mergeable_placed hk hn dels) hanti
    hleaves
  obtain ⟨Ds, hDs, hDl⟩ := exists_trees fun y hy => (hyP y hy).imp fun D hD => hD.1
  refine ⟨ys, Ds, hys, ⟨hDs, hya, hyt⟩, fun h => ?_⟩
  rw [hDl, hyw.mem_iff, (hperm.flatMap_right _).mem_iff, flatMap_leaves hx]

omit [HashOps H] [DecidableEq H] in
/-- **The subtrees that a block deletes.** -/
theorem exists_deletable (hn : slots.length ≤ 2 ^ 63)
    (hx : List.Forall₂ (fun x h => placed slots x = some (.leaf h)) xs dels) (hnd : dels.Nodup) :
    ∃ ys Ds, deTwin (sortPositions (xs.map (nodePos (treeRows slots.length))))
        (treeRows slots.length) = ys.map (nodePos (treeRows slots.length)) ∧
      Deletable slots ys Ds ∧ ∀ h, h ∈ Ds.flatMap CTree.leaves ↔ h ∈ dels := by
  obtain ⟨zs, hperm, hsort, hanti⟩ := sorted_leaves hn hx hnd
  rw [hsort]
  exact deletable_of_sorted (treeRows_le hn) (le_two_pow_treeRows _) hx hperm hanti

/-- **`remove` deletes the leaves at the positions.** -/
theorem Pollard.remove_spec (hp : p.Holds Q F slots gone) (hn : slots.length ≤ 2 ^ 63)
    (hm : MiniOk Q slots)
    (hx : List.Forall₂ (fun x h => placed slots x = some (.leaf h)) xs dels) (hnd : dels.Nodup)
    (hgone : ∀ h ∈ dels, h ∈ gone) :
    ∃ p' F', p.remove (xs.map (nodePos (treeRows slots.length))) = .ok (p', .ok ()) ∧
      p'.Holds Q F' (delSlots slots dels) gone ∧ p'.numDels = p.numDels := by
  obtain ⟨ys, Ds, hys, hDs, hmem⟩ := exists_deletable hn hx hnd
  obtain ⟨p', F', hrun, hp', hd⟩ := removeLoop_spec hp hn hm hDs fun D hD h hh =>
    hgone h ((hmem h).mp (List.mem_flatMap.mpr ⟨D, hD, hh⟩))
  refine ⟨p', F', ?_, ?_, hd⟩
  · rw [remove, hp.numLeaves, hys, hrun]
  · rwa [delSlots_congr hmem] at hp'

/-! ### Whole blocks -/

omit [DecidableEq H] [HashOps H] in
/-- A leaf that leaves the node map. -/
theorem MapOk.forget {m : Finmap fun _ : M => Addr} {cells : List (Addr × H)} {h : H}
    (hm : MapOk Q m cells gone)
    (hinj : ∀ e ∈ cells, Q (mini e.2) → mini e.2 = mini h → e.2 = h) :
    MapOk Q (m.erase (mini h)) cells (h :: gone) := by
  intro k hQ b
  by_cases hk : k = mini h
  · subst hk
    rw [Finmap.lookup_erase]
    simp only [reduceCtorEq, false_iff]
    rintro ⟨x, hx, hnot, he⟩
    exact hnot (List.mem_cons.mpr (Or.inl (hinj _ hx (he ▸ hQ : Q (mini x)) he)))
  · rw [Finmap.lookup_erase_ne hk, hm k hQ b]
    refine exists_congr fun x => and_congr_right fun _ => and_congr_left fun he => ?_
    have hne : x ≠ h := by
      rintro rfl
      exact hk he.symm
    rw [List.mem_cons, not_or, and_iff_right hne]

omit [DecidableEq H] in
/-- The leaves that a block deletes leave the node map first. -/
theorem Pollard.Holds.deleteFromMap (hp : p.Holds Q F slots gone) (hn : slots.length ≤ 2 ^ 63)
    (hm : MiniOk Q slots) (hd : ∀ h ∈ dels, h ∈ liveLeaves slots) :
    (p.deleteFromMap dels).Holds Q F slots (dels.reverse ++ gone) := by
  induction dels generalizing p gone with
  | nil => exact hp
  | cons h dels ih =>
    obtain ⟨hh, hd⟩ := List.forall_mem_cons.mp hd
    have hstep : Pollard.Holds Q { p with nodeMap := p.nodeMap.erase (mini h) } F slots
        (h :: gone) :=
      ⟨⟨hp.rep.toHeapRep, hp.rep.roots⟩, hp.trees, hp.numLeaves, hp.full,
        hp.map.forget fun e he hQ heq => hm.inj (hp.cells_live (by omega) he) hh hQ heq⟩
    rw [List.reverse_cons, List.append_assoc]
    exact ih hstep hd

omit [DecidableEq H] in
/-- Once the leaves are deleted, the node map leads to all the leaves again. -/
theorem Pollard.Holds.none_gone (hp : p.Holds Q F slots gone) (hn : slots.length ≤ 2 ^ 63)
    (hgone : ∀ h ∈ gone, h ∉ liveLeaves slots) : p.Holds Q F slots [] := by
  refine ⟨hp.rep, hp.trees, hp.numLeaves, hp.full, fun k hQ b => ?_⟩
  rw [hp.map k hQ b]
  refine exists_congr fun x => and_congr_right fun hx => and_congr_left fun _ => ?_
  exact iff_of_true (fun h => hgone x h (hp.cells_live (by omega) hx)) List.not_mem_nil

end

end

end Utreexo
