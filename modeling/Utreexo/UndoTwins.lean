import Utreexo.PolMoveDown
import Utreexo.UndoRoots

/-! # The subtrees that come back

`undoDels` makes a node for every deleted leaf and joins siblings to whole subtrees.
Until these are back in their places they are trees of their own beside the forest
(`Regrowing`).
-/
namespace Utreexo
open Merkle

/-- A reordered image is the image of a reordered list. -/
theorem exists_perm_map {α β : Type} {f : α → β} {l m : List β} (h : l.Perm m) :
    ∀ {xs : List α}, m = xs.map f → ∃ ys, List.Perm ys xs ∧ ys.map f = l := by
  induction h with
  | nil =>
    intro xs hxs
    exact ⟨[], by rw [List.map_eq_nil_iff.mp hxs.symm], rfl⟩
  | cons a _ ih =>
    intro xs hxs
    obtain ⟨x, xs, rfl, rfl, hrest⟩ := List.map_eq_cons_iff.mp hxs.symm
    obtain ⟨ys, hys, rfl⟩ := ih hrest.symm
    exact ⟨x :: ys, hys.cons x, rfl⟩
  | swap a b l =>
    intro xs hxs
    obtain ⟨x, xs, rfl, rfl, hrest⟩ := List.map_eq_cons_iff.mp hxs.symm
    obtain ⟨y, xs, rfl, rfl, rfl⟩ := List.map_eq_cons_iff.mp hrest
    exact ⟨y :: x :: xs, List.Perm.swap x y xs, rfl⟩
  | trans _ _ ih1 ih2 =>
    intro xs hxs
    obtain ⟨ys, hys, rfl⟩ := ih2 hxs
    obtain ⟨zs, hzs, rfl⟩ := ih1 rfl
    exact ⟨zs, hzs.trans hys, rfl⟩

section
variable {H M : Type} [DecidableEq H] [HashOps H] [DecidableEq M] [MiniHash H M]

omit [DecidableEq H] in
theorem HeapRep.perm {h : Heap H} {F G : List (PRoot H)} (hr : HeapRep h F) (hp : F.Perm G) :
    HeapRep h G :=
  ⟨fun R hR => hr.ok R (hp.mem_iff.mpr hR), (hp.flatMap_right _).nodup_iff.mp hr.nodup,
    fun a ha => hr.lt a ((hp.flatMap_right _).mem_iff.mpr ha)⟩

/-- The Pollard while deletions are undone: the trees `E` are not part of it yet. -/
structure Pollard.Regrowing (Q : M → Prop) (p : Pollard H M) (F : List (PRoot H))
    (E : List (PTree H)) (slots : List (Option H)) : Prop where
  heap : HeapRep p.heap (F ++ E.map PRoot.full)
  roots : p.roots = F.map PRoot.addr
  trees : F.map PRoot.opt = forestTrees slots
  numLeaves : p.numLeaves = slots.length
  full : p.full = true
  map : MapOk Q p.nodeMap ((F ++ E.map PRoot.full).flatMap PRoot.cells) []
  keys : ∀ a b : H, Q (mini (parentHash a b)) → mini (parentHash a b) ∉ p.nodeMap

/-- A tree and the node that it belongs to, as the source has it. -/
def nodeAndPos (k : Nat) (e : Node × PTree H) : NodeAndPos := ⟨e.2.addr, nodePos k e.1⟩

/-! ### Nodes for the leaves -/

variable {slots : List (Option H)} {F : List (PRoot H)} {Q : M → Prop}

omit [DecidableEq H] in
/-- **A node for every deleted leaf.** -/
theorem Pollard.Regrowing.allocLeaves {k : Nat} {xs : List Node} :
    ∀ {dels : List H} {p : Pollard H M} {E : List (PTree H)}, p.Regrowing Q F E slots →
      xs.length = dels.length →
      KeysApart Q (((F ++ E.map PRoot.full).flatMap PRoot.cells).map Prod.snd ++ dels) →
      (∀ d ∈ dels, Q (mini d) → ∀ a b : H, mini (parentHash a b) ≠ mini d) →
      ∃ (p' : Pollard H M) (ts : List (Node × PTree H)),
        p.allocLeaves (xs.map (nodePos k)) dels = (p', ts.map (nodeAndPos k)) ∧
        ts.map Prod.fst = xs ∧ ts.map (fun e => e.2.tree) = dels.map CTree.leaf ∧
        p'.Regrowing Q F (E ++ ts.map Prod.snd) slots ∧ p'.numDels = p.numDels := by
  induction xs with
  | nil =>
    intro dels p E hp hlen _ _
    obtain rfl : dels = [] := List.length_eq_zero_iff.mp hlen.symm
    exact ⟨p, [], rfl, rfl, rfl, by simpa using hp, rfl⟩
  | cons x xs ih =>
    intro dels p E hp hlen hnd hleaf
    cases dels with
    | nil => cases hlen
    | cons d dels =>
      set p1 : Pollard H M := { p with
        heap := (p.heap.alloc ⟨none, none, none, d, p.full⟩).2
        nodeMap := p.nodeMap.insert (mini d) p.heap.next } with hp1
      have hcells : (F ++ (E ++ [PTree.leaf p.heap.next d]).map PRoot.full).flatMap PRoot.cells =
          (F ++ E.map PRoot.full).flatMap PRoot.cells ++ [(p.heap.next, d)] := by
        simp [PRoot.cells, PTree.cells]
      have hgrow : p1.Regrowing Q F (E ++ [.leaf p.heap.next d]) slots := by
        refine ⟨?_, hp.roots, hp.trees, hp.numLeaves, hp.full, ?_, fun a b hQ => ?_⟩
        · have := HeapRep.allocLeaf (G := []) (by simpa using hp.heap) d p.full
          simpa using this
        · rw [hcells]
          refine MapOk.insert hp.map fun hQ hmem => ?_
          obtain ⟨y, hy, hkey⟩ := List.mem_map.mp hmem
          obtain rfl := hnd.inj (List.mem_append_right _ List.mem_cons_self)
            (List.mem_append_left _ hy) hQ hkey.symm
          exact (List.nodup_append.mp hnd.nodup).2.2 _ hy _ List.mem_cons_self rfl
        · rw [Finmap.mem_insert, not_or]
          refine ⟨fun he => ?_, hp.keys a b hQ⟩
          exact hleaf d List.mem_cons_self (he ▸ hQ) a b he
      obtain ⟨p2, ts, hrun, hfst, htree, hp2, hd⟩ := ih hgrow (by simpa using hlen)
        (by rw [hcells, List.map_append, List.append_assoc]; exact hnd)
        fun e he => hleaf e (List.mem_cons_of_mem d he)
      refine ⟨p2, (x, .leaf p.heap.next d) :: ts, ?_, by simp [hfst], by simp [htree, PTree.tree],
        by simpa using hp2, hd⟩
      exact congrArg (fun q => (q.1, (⟨p.heap.next, nodePos k x⟩ : NodeAndPos) :: q.2)) hrun

/-! ### Joining siblings -/

omit [DecidableEq H] in
theorem joinNodes_spec {h : Heap H} {F : List (PRoot H)} {T N : PTree H}
    (hr : HeapRep h (F ++ [.full T, .full N])) :
    ∃ h' a, joinNodes h T.addr N.addr = .ok (h', a) ∧ HeapRep h' (F ++ [.full (.node a T N)]) := by
  obtain ⟨h1, h3, hswap, hup, -, -, -, hrep⟩ := mergeNodes_spec hr false
  refine ⟨h3, h1.next, ?_, hrep⟩
  rw [joinNodes, hswap, Exec.ok_bind]
  exact congrArg (· >>= _) hup

theorem insertSortNodeAndPos_eq (nodes : List NodeAndPos) (el : NodeAndPos) :
    insertSortNodeAndPos nodes el = nodes.orderedInsert (fun a b => a.pos < b.pos) el := by
  induction nodes with
  | nil => rfl
  | cons d nodes ih =>
    rw [List.orderedInsert_cons, ← ih]
    unfold insertSortNodeAndPos
    by_cases h : el.pos < d.pos
    · simp [List.findIdx_cons, h]
    · simp [List.findIdx_cons, h]

section Twins
variable {k : Nat} {P : Node → CTree H → Prop}

omit [DecidableEq H] [HashOps H] in
/-- Inserting a tree in the order of the nodes. -/
theorem insertSortNodeAndPos_map {ts : List (Node × PTree H)} {e : Node × PTree H}
    (he : Fits k e.1) (hts : ∀ a ∈ ts, Fits k a.1) :
    insertSortNodeAndPos (ts.map (nodeAndPos k)) (nodeAndPos k e) =
      (ts.orderedInsert (fun a b => a.1.Before b.1) e).map (nodeAndPos k) := by
  rw [insertSortNodeAndPos_eq]
  exact (List.map_orderedInsert (fun a b => a.1.Before b.1) (fun a b => a.pos < b.pos)
    (nodeAndPos k) ts e (fun a ha => ((hts a ha).pos_lt_iff he).symm)
    fun a ha => (he.pos_lt_iff (hts a ha)).symm).symm

omit [DecidableEq H] in
/-- Two siblings have become their parent. -/
theorem join_siblings (hP : Joinable k P CTree.node) {heap : Heap H}
    {ta tb : List (Node × PTree H)} {x : Node} {T N : PTree H}
    (hr : HeapRep heap (F ++ (ta ++ (x, T) :: (x.sibling, N) :: tb).map fun e => .full e.2))
    (hb : x.Before x.sibling)
    (hts : ∀ e ∈ ta ++ (x, T) :: (x.sibling, N) :: tb, P e.1 e.2.tree) :
    ∃ heap' a, joinNodes heap T.addr N.addr = .ok (heap', a) ∧
      HeapRep heap' (F ++ ((ta ++ tb).orderedInsert (fun a b => a.1.Before b.1)
        (x.parent, .node a T N)).map fun e => .full e.2) ∧
      (∀ e ∈ (ta ++ tb).orderedInsert (fun a b => a.1.Before b.1) (x.parent, .node a T N),
        P e.1 e.2.tree) ∧
      (((ta ++ tb).orderedInsert (fun a b => a.1.Before b.1)
        (x.parent, .node a T N)).flatMap fun e => e.2.cells).Perm
          ((ta ++ (x, T) :: (x.sibling, N) :: tb).flatMap fun e => e.2.cells) := by
  have hsplit : (ta ++ (x, T) :: (x.sibling, N) :: tb).Perm
      ((ta ++ tb) ++ [(x, T), (x.sibling, N)]) := by
    have hswap : ([(x, T), (x.sibling, N)] ++ tb).Perm (tb ++ [(x, T), (x.sibling, N)]) :=
      List.perm_append_comm
    rw [List.append_assoc]
    exact hswap.append_left ta
  have hr1 : HeapRep heap ((F ++ (ta ++ tb).map fun e => .full e.2) ++ [.full T, .full N]) := by
    refine hr.perm ?_
    rw [List.append_assoc]
    refine List.Perm.append_left F ?_
    simpa using hsplit.map fun e => PRoot.full e.2
  obtain ⟨heap', a, hrun, hr'⟩ := joinNodes_spec hr1
  have hperm := List.perm_orderedInsert (fun a b : Node × PTree H => a.1.Before b.1)
    (x.parent, PTree.node a T N) (ta ++ tb)
  refine ⟨heap', a, hrun, hr'.perm ?_, fun e he => ?_, ?_⟩
  · rw [List.append_assoc]
    refine List.Perm.append_left F ?_
    refine List.Perm.trans ?_ (hperm.map fun e => PRoot.full e.2).symm
    exact List.perm_append_singleton _ _
  · rcases List.mem_cons.mp (hperm.mem_iff.mp he) with rfl | he
    · exact hP.parent (hts (x, T) (by simp)) (hts (x.sibling, N) (by simp)) hb
    · exact hts e (hsplit.mem_iff.mpr (List.mem_append_left _ he))
  · refine (hperm.flatMap_right _).trans (List.Perm.trans ?_ (hsplit.flatMap_right _).symm)
    simp only [List.flatMap_cons, List.flatMap_append, List.flatMap_nil, PTree.cells,
      List.append_nil]
    exact List.perm_append_comm

omit [DecidableEq H] in
/-- **The loop of `deTwinPolNode`** goes along with that of `deTwin`. -/
theorem deTwinPolNodeLoop_spec (hk : k ≤ 63) (hP : Joinable k P CTree.node) (fuel : Nat) :
    ∀ {i : Nat} {heap : Heap H} {ts : List (Node × PTree H)},
      HeapRep heap (F ++ ts.map fun e => .full e.2) → Antichain (ts.map Prod.fst) →
      (∀ e ∈ ts, P e.1 e.2.tree) →
      ∃ (heap' : Heap H) (ts' : List (Node × PTree H)),
        deTwinPolNodeLoop k fuel i heap (ts.map (nodeAndPos k)) =
          .ok (heap', ts'.map (nodeAndPos k)) ∧
        deTwinLoop k fuel i ((ts.map Prod.fst).map (nodePos k)) =
          (ts'.map Prod.fst).map (nodePos k) ∧
        HeapRep heap' (F ++ ts'.map fun e => .full e.2) ∧
        (∀ e ∈ ts', P e.1 e.2.tree) ∧
        (ts'.flatMap fun e => e.2.cells).Perm (ts.flatMap fun e => e.2.cells) := by
  induction fuel with
  | zero =>
    intro i heap ts hr _ hts
    exact ⟨heap, ts, rfl, rfl, hr, hts, List.Perm.refl _⟩
  | succ fuel ih =>
    intro i heap ts hr hanti hts
    have hfits : ∀ e ∈ ts, Fits k e.1 := fun e he => hP.fits (hts e he)
    rw [deTwinPolNodeLoop, deTwinLoop, List.length_map, List.length_map, List.length_map]
    rcases scan_cases hanti hfits i with hend | ⟨hlt, ⟨x, T⟩, hx, hy⟩ |
      ⟨hlt, ⟨x, T⟩, ⟨y, N⟩, hx, hy, hne⟩ | ⟨ta, tb, x, T, N, rfl, rfl, hb, hright⟩
    · rw [if_neg (Nat.not_lt.mpr hend), if_neg (Nat.not_lt.mpr hend)]
      exact ⟨heap, ts, rfl, rfl, hr, hts, List.Perm.refl _⟩
    · rw [if_pos hlt, if_pos hlt]
      simp only [List.getElem?_map, hx, hy, Option.map_none, Option.map_some]
      exact ih hr hanti hts
    · rw [if_pos hlt, if_pos hlt]
      simp only [List.getElem?_map, hx, hy, Option.map_some, nodeAndPos]
      rw [if_neg hne, if_neg hne]
      exact ih hr hanti hts
    · obtain ⟨heap', a, hrun, hr', hts', hcells⟩ := join_siblings hP hr hb hts
      have hfp : Fits k x.parent := hP.fits (hts' (x.parent, .node a T N)
        ((List.mem_orderedInsert _).mpr (Or.inl rfl)))
      have hrest : ∀ e ∈ ta ++ tb, Fits k e.1 := fun e he => hfits e (by
        simp only [List.mem_append, List.mem_cons] at he ⊢
        tauto)
      obtain ⟨heap2, ts2, h1, h2, h3, h4, h5⟩ := ih (i := ta.length) hr'
        (antichain_map_fst_merge hanti) hts'
      have hlt : ta.length < (ta ++ (x, T) :: (x.sibling, N) :: tb).length := by simp
      have hx : (ta ++ (x, T) :: (x.sibling, N) :: tb)[ta.length]? = some (x, T) := by simp
      have hy : (ta ++ (x, T) :: (x.sibling, N) :: tb)[ta.length + 1]? = some (x.sibling, N) := by
        simp
      rw [if_pos hlt, if_pos hlt]
      simp only [List.getElem?_map, hx, hy, Option.map_some, nodeAndPos]
      refine ⟨heap2, ts2, ?_, ?_, h3, h4, h5.trans hcells⟩
      · rw [if_pos hright, hrun, Exec.ok_bind, ← h1, map_take_append_drop,
          parent_nodePos hk (hfits (x, T) (by simp)) hfp.1, ← insertSortNodeAndPos_map hfp hrest]
        rfl
      · rw [if_pos hright, ← h2, merge_positions_map hk hanti hfits hfp]

/-- Positions tell nodes apart. -/
theorem map_nodePos_inj {xs : List Node} :
    ∀ {ys : List Node}, (∀ x ∈ xs, Fits k x) → (∀ y ∈ ys, Fits k y) →
      xs.map (nodePos k) = ys.map (nodePos k) → xs = ys := by
  induction xs with
  | nil =>
    intro ys _ _ h
    exact (List.map_eq_nil_iff.mp h.symm).symm
  | cons x xs ih =>
    intro ys hx hy h
    obtain ⟨y, ys, rfl, hpos, hrest⟩ := List.map_eq_cons_iff.mp h.symm
    obtain ⟨hx, hxs⟩ := List.forall_mem_cons.mp hx
    obtain ⟨hy, hys⟩ := List.forall_mem_cons.mp hy
    rw [hx.pos_inj hy hpos.symm, ih hxs hys hrest.symm]

omit [DecidableEq H] [HashOps H] in
/-- Subtrees of the forest at their places. -/
theorem joinable_placed (hn : slots.length ≤ 2 ^ 63) :
    Joinable (treeRows slots.length) (fun x D => placed slots x = some D) CTree.node := by
  constructor
  · intro x D hD
    exact fits_of_inForest (le_two_pow_treeRows _) (placed_inForest hD)
  · intro x D S hD hS hb
    exact placed_siblings (by omega) hD hS hb

omit [DecidableEq H] in
/-- **`deTwinPolNode` joins the subtrees that were deleted as one.** -/
theorem deTwinPolNode_spec (hn : slots.length ≤ 2 ^ 63) {heap : Heap H}
    {ts : List (Node × PTree H)} (hr : HeapRep heap (F ++ ts.map fun e => .full e.2))
    (hanti : Antichain (ts.map Prod.fst)) (hts : ∀ e ∈ ts, placed slots e.1 = some e.2.tree) :
    ∃ (heap' : Heap H) (ts' : List (Node × PTree H)),
      deTwinPolNode heap (ts.map (nodeAndPos (treeRows slots.length))) (treeRows slots.length) =
        .ok (heap', ts'.map (nodeAndPos (treeRows slots.length))) ∧
      HeapRep heap' (F ++ ts'.map fun e => .full e.2) ∧
      (ts'.flatMap fun e => e.2.cells).Perm (ts.flatMap fun e => e.2.cells) ∧
      Deletable slots (ts'.map Prod.fst) (ts'.map fun e => e.2.tree) := by
  obtain ⟨heap', ts', hrun, hpos, hr', hts', hcells⟩ :=
    deTwinPolNodeLoop_spec (treeRows_le hn) (joinable_placed hn) (2 * ts.length + 1) (i := 0) hr
      hanti hts
  have hmerge := mergeable_placed (treeRows_le hn) (le_two_pow_treeRows _)
    (ts.flatMap fun e => e.2.tree.leaves)
  obtain ⟨ys, hys, hya, hyP, hyt, -⟩ := deTwin_spec (treeRows_le hn) hmerge hanti (by
    intro x hx
    obtain ⟨e, he, rfl⟩ := List.mem_map.mp hx
    exact ⟨_, hts e he, fun a ha => List.mem_flatMap.mpr ⟨e, he, ha⟩⟩)
  obtain rfl : ts'.map Prod.fst = ys := by
    refine map_nodePos_inj ?_ (fun y hy => hmerge.fits (hyP y hy)) ?_
    · intro x hx
      obtain ⟨e, he, rfl⟩ := List.mem_map.mp hx
      exact fits_of_inForest (le_two_pow_treeRows _) (placed_inForest (hts' e he))
    · rw [← hpos, ← hys, deTwin, List.length_map, List.length_map]
  refine ⟨heap', ts', ?_, hr', hcells, ?_, hya, hyt⟩
  · rw [deTwinPolNode, List.length_map]
    exact hrun
  · rw [List.forall₂_map_left_iff, List.forall₂_map_right_iff, List.forall₂_same]
    exact hts'

end Twins

end

end Utreexo
