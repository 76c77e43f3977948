import Utreexo.PollardModify
import Utreexo.UndoAdds

/-! # Putting empty roots back

`undoEmptyRoots` knows which roots were empty after the block's deletions: those that
were empty before the block, and those that the block deleted.
-/
namespace Utreexo
open Merkle

section
variable {H M : Type} [DecidableEq H] [HashOps H] [DecidableEq M] [MiniHash H M]

/-! ### Which roots were empty -/

/-- The hashes are empty where the trees are. -/
def EmptyWhere (trees : List (Option (CTree H))) (hashes : List H) : Prop :=
  List.Forall₂ (fun t h => h = empty ↔ t = none) trees hashes

namespace EmptyWhere
variable {trees : List (Option (CTree H))} {hashes : List H}

omit [DecidableEq H] in
theorem set_none (h : EmptyWhere trees hashes) (i : Nat) :
    EmptyWhere (trees.set i none) (hashes.set i empty) := by
  induction h generalizing i with
  | nil => exact .nil
  | cons hd hrest ih =>
    cases i with
    | zero => exact .cons (by simp) hrest
    | succ i => exact .cons hd (ih i)

omit [DecidableEq H] in
theorem set_some (h : EmptyWhere trees hashes) {i : Nat} {s : CTree H}
    (hi : trees[i]? = some (some s)) (t : CTree H) : EmptyWhere (trees.set i (some t)) hashes := by
  induction h generalizing i with
  | nil => exact .nil
  | cons hd hrest ih =>
    cases i with
    | zero =>
      cases hi
      exact .cons (by simpa using hd) hrest
    | succ i => exact .cons hd (ih hi)

end EmptyWhere

/-- **The roots that the block deleted.** -/
theorem emptyDeleted_spec {ys : List Node} :
    ∀ {slots : List (Option H)} {Ds : List (CTree H)} {hashes : List H}, Deletable slots ys Ds →
      slots.length ≤ 2 ^ 63 → (liveLeaves slots).Nodup → EmptyWhere (forestTrees slots) hashes →
      ∃ roots, Pollard.emptyDeleted slots.length (ys.map (nodePos (treeRows slots.length))) hashes =
          .ok (.ok roots) ∧
        EmptyWhere (forestTrees (delSlots slots (Ds.flatMap CTree.leaves))) roots := by
  induction ys with
  | nil =>
    intro slots Ds hashes hDs _ _ he
    cases hDs.placed
    exact ⟨hashes, rfl, by simpa [delSlots_nil] using he⟩
  | cons y ys ih =>
    intro slots Ds hashes hDs hn hnd he
    obtain ⟨D, Ds, hD, -, rfl⟩ := List.forall₂_cons_left_iff.mp hDs.placed
    have hin := placed_inForest hD
    have hfit := fits_of_inForest (le_two_pow_treeRows _) hin
    have hnext := hDs.step (by omega) hnd
    have hnd' : (liveLeaves (delSlots slots D.leaves)).Nodup := by
      rw [liveLeaves_delSlots]
      exact hnd.filter _
    have hrec : ∀ {hs : List H}, EmptyWhere (forestTrees (delSlots slots D.leaves)) hs →
        ∃ roots, Pollard.emptyDeleted slots.length (ys.map (nodePos (treeRows slots.length))) hs =
            .ok (.ok roots) ∧
          EmptyWhere (forestTrees (delSlots slots ((D :: Ds).flatMap CTree.leaves))) roots := by
      intro hs h
      have := ih hnext (by rwa [length_delSlots]) hnd' h
      rwa [length_delSlots, delSlots_append] at this
    obtain ⟨j, hj⟩ := hin.exists_root
    have hset := forestTrees_delSlots_set (by omega) hnd hD hj
    have hget := forestTrees_getElem hn hj
    rw [List.map_cons, Pollard.emptyDeleted]
    cases j with
    | zero =>
      obtain ⟨bits, -, hoff⟩ := detectOffset_nodePos hn hj
      have hroot : isRootPosition (nodePos (treeRows slots.length) y) slots.length = true := by
        rw [isRootPosition_nodePos hn hfit]
        rwa [Node.up_zero] at hj
      have hlt := (List.getElem?_eq_some_iff.mp hget).1
      rw [he.length_eq] at hlt
      rw [if_pos hroot, hoff]
      simp only [if_pos hlt]
      refine hrec ?_
      have hnone : (rootTree slots (y.row + 0)).bind (·.removeAt (y.path 0)) = none := by
        rw [Node.path_zero]
        cases rootTree slots (y.row + 0) with
        | none => rfl
        | some T => exact T.removeAt_nil
      rw [hset, hnone]
      exact he.set_none _
    | succ j =>
      have hnot : ¬ isRootPosition (nodePos (treeRows slots.length) y) slots.length = true := by
        rw [isRootPosition_nodePos hn hfit]
        refine Node.not_isRoot_of_parent (Node.inForest_of_up (j := j) ?_)
        rw [Node.parent_up]
        exact hj.inForest
      rw [if_neg hnot]
      refine hrec ?_
      obtain ⟨T, hT, -⟩ := Option.bind_eq_some_iff.mp ((placed_eq (by omega) hj).symm.trans hD)
      rw [hset, hT, Option.bind_some, Node.path_succ, CTree.removeAt_concat]
      exact he.set_some (hT ▸ hget) _

/-! ### Filling the gaps -/

omit [DecidableEq H] in
theorem HeapRep.allocVacant {h : Heap H} {F G : List (PRoot H)} (hr : HeapRep h (F ++ G))
    (full : Bool) :
    HeapRep (h.alloc ⟨none, none, none, empty, full⟩).2 (F ++ .vacant h.next :: G) := by
  have hget : (h.alloc ⟨none, none, none, empty, full⟩).2.get h.next =
      ⟨none, none, none, empty, full⟩ := if_pos rfl
  refine hr.alloc rfl ?_
  rw [RootOk, hget]
  exact ⟨⟨rfl, rfl⟩, rfl, rfl⟩

omit [HashOps H] [DecidableEq H] in
theorem Thin.of_cons_none {l l' : List (Option (CTree H))} (h : Thin l (none :: l')) :
    Thin l l' := by
  generalize hl : (none :: l' : List (Option (CTree H))) = m at h
  induction h with
  | nil => cases hl
  | drop _ ih => exact .drop (ih hl)
  | keep o h =>
    cases hl
    exact .drop h

variable {p : Pollard H M} {F : List (PRoot H)} {slots : List (Option H)} {Q : M → Prop}

omit [DecidableEq M] [MiniHash H M] in
/-- **An empty root at its index.** -/
theorem Pollard.placeEmpty_spec {F0 F1 : List (PRoot H)} (hr : p.Rep (F0 ++ F1))
    (hne : ∀ t, PRoot.full t ∈ F1 → treeHash t.tree ≠ empty) {l : List (Option (CTree H))}
    (hthin : Thin (none :: l) (F1.map PRoot.opt)) :
    ∃ h rs a F1', p.placeEmpty F0.length = { p with heap := h, roots := rs } ∧
      (p.placeEmpty F0.length).Rep (F0 ++ .vacant a :: F1') ∧ Thin l (F1'.map PRoot.opt) ∧
      F1'.flatMap PRoot.cells = F1.flatMap PRoot.cells ∧
      ∀ t, PRoot.full t ∈ F1' → PRoot.full t ∈ F1 := by
  have hroots := hr.roots
  rw [List.map_append] at hroots
  cases F1 with
  | nil =>
    -- No root is left: one is appended.
    have hlen : F0.length + 1 - p.roots.length = 1 := by simp [hroots]
    have hplace : p.placeEmpty F0.length = { p with
        heap := (p.heap.alloc ⟨none, none, none, empty, p.full⟩).2
        roots := p.roots ++ [p.heap.next] } := by
      have hget : (p.roots ++ [p.heap.next])[F0.length]? = some p.heap.next := by simp [hroots]
      have hempty : ((p.heap.alloc ⟨none, none, none, empty, p.full⟩).2.get p.heap.next).data =
          (empty : H) := congrArg PolNode.data (if_pos rfl)
      simp only [placeEmpty, hlen, appendEmpty]
      rw [show (p.heap.alloc ⟨none, none, none, empty, p.full⟩).1 = p.heap.next from rfl]
      simp only [hget, hempty, if_true]
    refine ⟨_, _, p.heap.next, [], hplace, ?_, ?_, rfl, by simp⟩
    · rw [hplace]
      refine ⟨hr.toHeapRep.allocVacant p.full, ?_⟩
      simp [hroots, PRoot.addr]
    · cases hthin with
      | drop h => exact h
  | cons R F1 =>
    have hlen : F0.length + 1 - p.roots.length = 0 := by simp [hroots]
    have hget : p.roots[F0.length]? = some R.addr := by simp [hroots]
    have hdata := (hr.ok R (by simp)).hash
    cases R with
    | vacant a =>
      have hplace : p.placeEmpty F0.length = p := by
        have hempty : (p.heap.get (PRoot.vacant a : PRoot H).addr).data = empty := hdata
        simp only [placeEmpty, hlen, appendEmpty, hget, hempty, if_true]
      refine ⟨p.heap, p.roots, a, F1, hplace, by rwa [hplace], ?_, rfl,
        fun t ht => List.mem_cons_of_mem _ ht⟩
      cases hthin with
      | drop h => exact h.of_cons_none
      | keep _ h => exact h
    | full t =>
      have hdata' : (p.heap.get (PRoot.full t).addr).data ≠ empty := by
        rw [hdata]
        exact hne t (by simp)
      have hplace : p.placeEmpty F0.length = { p with
          heap := (p.heap.alloc ⟨none, none, none, empty, p.full⟩).2
          roots := p.roots.take F0.length ++ p.heap.next :: p.roots.drop F0.length } := by
        simp only [placeEmpty, hlen, appendEmpty, hget, if_neg hdata']
        rfl
      refine ⟨_, _, p.heap.next, .full t :: F1, hplace, ?_, ?_, rfl, fun t ht => ht⟩
      · rw [hplace]
        refine ⟨hr.toHeapRep.allocVacant p.full, ?_⟩
        simp [hroots, PRoot.addr]
      · cases hthin with
        | drop h => exact h

omit [DecidableEq M] [MiniHash H M] in
/-- **All empty roots at their indices.** -/
theorem Pollard.placeEmptyRoots_spec {trees : List (Option (CTree H))} :
    ∀ {hashes : List H} {p : Pollard H M} {F0 F1 : List (PRoot H)}, p.Rep (F0 ++ F1) →
      (∀ t, PRoot.full t ∈ F1 → treeHash t.tree ≠ empty) → Thin trees (F1.map PRoot.opt) →
      EmptyWhere trees hashes →
      ∃ h rs F2, p.placeEmptyRoots F0.length hashes = { p with heap := h, roots := rs } ∧
        (p.placeEmptyRoots F0.length hashes).Rep (F0 ++ F2) ∧ F2.map PRoot.opt = trees ∧
        F2.flatMap PRoot.cells = F1.flatMap PRoot.cells := by
  induction trees with
  | nil =>
    intro hashes p F0 F1 hr _ hthin he
    cases he
    obtain rfl : F1 = [] := by
      cases F1 with
      | nil => rfl
      | cons R F1 => cases hthin
    exact ⟨p.heap, p.roots, [], rfl, hr, rfl, rfl⟩
  | cons t trees ih =>
    intro hashes p F0 F1 hr hne hthin he
    obtain ⟨x, hashes, hx, hrest, rfl⟩ := List.forall₂_cons_left_iff.mp he
    rw [placeEmptyRoots]
    cases t with
    | none =>
      rw [if_pos (hx.mpr rfl)]
      obtain ⟨h1, rs1, a, F1', hplace, hr1, hthin1, hcells1, hsub⟩ := placeEmpty_spec hr hne hthin
      obtain ⟨h2, rs2, F2, hrun, hr2, htrees, hcells2⟩ := ih
        (show (p.placeEmpty F0.length).Rep ((F0 ++ [.vacant a]) ++ F1') by simpa using hr1)
        (fun t ht => hne t (hsub t ht)) hthin1 hrest
      rw [List.length_append, List.length_singleton] at hrun hr2
      refine ⟨h2, rs2, .vacant a :: F2, ?_, by simpa using hr2, by simp [htrees, PRoot.opt], ?_⟩
      · rw [hrun, hplace]
      · simp [PRoot.cells, hcells2, hcells1]
    | some T =>
      rw [if_neg (fun h => by simpa using hx.mp h)]
      cases F1 with
      | nil => cases hthin
      | cons R F1 =>
        obtain ⟨hR, hthin1⟩ : R.opt = some T ∧ Thin trees (F1.map PRoot.opt) := by
          rw [List.map_cons] at hthin
          generalize R.opt = o at hthin
          cases hthin with
          | keep _ h => exact ⟨rfl, h⟩
        obtain ⟨h2, rs2, F2, hrun, hr2, htrees, hcells2⟩ := ih
          (show p.Rep ((F0 ++ [R]) ++ F1) by simpa using hr)
          (fun t ht => hne t (List.mem_cons_of_mem _ ht)) hthin1 hrest
        rw [List.length_append, List.length_singleton] at hrun hr2
        exact ⟨h2, rs2, R :: F2, hrun, by simpa using hr2, by simp [htrees, hR], by simp [hcells2]⟩

omit [DecidableEq H] in
/-- The roots of a forest are empty where its trees are. -/
theorem emptyWhere_forestTrees (hi : ∀ a b : H, parentHash a b ≠ empty)
    (hlive : ∀ x ∈ liveLeaves slots, x ≠ empty) :
    EmptyWhere (forestTrees slots) ((forestTrees slots).map hashOpt) := by
  rw [EmptyWhere, List.forall₂_map_right_iff, List.forall₂_same]
  intro t ht
  cases t with
  | none => simp
  | some T =>
    obtain ⟨r, -, hr⟩ := List.mem_map.mp ht
    have hne := treeHash_ne_empty hi (t := T) fun x hx => hlive x
      (rootTree_leaves_subset slots r x (by rw [hr]; exact hx))
    simpa using hne

/-- **`undoEmptyRoots` puts the missing roots back.** -/
theorem Pollard.Thinned.undoEmptyRoots {dels : List H} {xs : List Node}
    (hp : p.Thinned Q F (delSlots slots dels)) (hi : ∀ a b : H, parentHash a b ≠ empty)
    (hlive : ∀ x ∈ liveLeaves slots, x ≠ empty) (hnd : (liveLeaves slots).Nodup)
    (hn : slots.length ≤ 2 ^ 63)
    (hx : List.Forall₂ (fun x h => placed slots x = some (.leaf h)) xs dels) (hd : dels.Nodup) :
    ∃ p' F', p.undoEmptyRoots (xs.map (nodePos (treeRows slots.length)))
        ((forestTrees slots).map hashOpt) = .ok (p', .ok ()) ∧
      p'.Holds Q F' (delSlots slots dels) [] ∧ p'.numDels = p.numDels := by
  have hnum : p.numLeaves = slots.length := by rw [hp.numLeaves, length_delSlots]
  have hcount : (forestTrees (delSlots slots dels)).length = numRoots p.numLeaves := by
    rw [forestTrees, List.length_map, length_rootRows, hp.numLeaves]
  rw [Pollard.undoEmptyRoots]
  split
  · next hle =>
    refine ⟨p, F, rfl, ⟨hp.rep, ?_, hp.numLeaves, hp.full, hp.map⟩, rfl⟩
    refine hp.trees.eq_of_length_le ?_
    rw [hcount, List.length_map]
    rwa [hp.rep.roots, List.length_map] at hle
  · obtain ⟨ys, Ds, hys, hDs, hmem⟩ := exists_deletable hn hx hd
    obtain ⟨roots, hrun, hempty⟩ := emptyDeleted_spec hDs hn hnd (emptyWhere_forestTrees hi hlive)
    rw [delSlots_congr hmem] at hempty
    have hne : ∀ t, PRoot.full t ∈ F → treeHash t.tree ≠ empty := by
      intro t ht
      refine treeHash_ne_empty hi fun x hx => hlive x ?_
      have hcells := hp.cells_snd (by rw [length_delSlots]; omega)
      rw [← t.cells_snd] at hx
      have hmem : x ∈ liveLeaves (delSlots slots dels) := by
        rw [← hcells, List.map_flatMap]
        exact List.mem_flatMap.mpr ⟨_, ht, hx⟩
      rw [liveLeaves_delSlots] at hmem
      exact (List.mem_filter.mp hmem).1
    obtain ⟨h, rs, F2, hplace, hr2, htrees, hcells⟩ := placeEmptyRoots_spec
      (show p.Rep ([] ++ F) from hp.rep) hne hp.trees hempty
    rw [List.length_nil] at hplace hr2
    refine ⟨p.placeEmptyRoots 0 roots, F2, ?_, ⟨hr2, htrees, ?_, ?_, ?_⟩, ?_⟩
    · simp only [hnum, hys, hrun, Exec.ok_bind]
    · rw [hplace]
      exact hp.numLeaves
    · rw [hplace]
      exact hp.full
    · rw [hplace, hcells]
      exact hp.map
    · rw [hplace]

end

end Utreexo
