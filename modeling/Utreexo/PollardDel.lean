import Utreexo.PolMove
import Utreexo.PollardAdd

/-! # Deleting from a full Pollard

`deleteRoot` and `deleteSingle` replace one tree of the forest by the same tree without
the deleted subtree (`Pollard.Holds.replace`), and `remove` does this for all subtrees
whose leaves a block deletes.  While it runs the node map is ahead of the trees: the
leaves to be deleted are already `gone` from it.
-/
namespace Utreexo
open Merkle

section
variable {H M : Type} [DecidableEq H] [HashOps H] [DecidableEq M] [MiniHash H M]
  {slots : List (Option H)} {x : Node} {D : CTree H} {j : Nat}

/-! ### One tree of the forest -/

omit [HashOps H] in
/-- A deletion changes one tree. -/
theorem forestTrees_delSlots_set (hn : slots.length < 2 ^ 64) (hnd : (liveLeaves slots).Nodup)
    (hx : placed slots x = some D) (hj : (x.up j).IsRoot slots.length) :
    forestTrees (delSlots slots D.leaves) =
      (forestTrees slots).set (rootRows slots.length (x.row + j + 1)).length
        ((rootTree slots (x.row + j)).bind (·.removeAt (x.path j))) := by
  have hmem := mem_rootRows_of_isRoot hn hj
  have hidx := rootRows_getElem hmem
  refine List.ext_getElem? fun i => ?_
  rw [forestTrees, forestTrees, length_delSlots, List.getElem?_set, List.getElem?_map,
    List.getElem?_map, List.length_map]
  split
  · next he =>
    subst he
    rw [if_pos (List.getElem?_eq_some_iff.mp hidx).1, hidx, Option.map_some,
      rootTree_delSlots_self hn hnd hx hj]
  · next hne =>
    rcases hr : (rootRows slots.length 0)[i]? with _ | r
    · rfl
    · rw [Option.map_some, Option.map_some,
        rootTree_delSlots_other hn hnd hx hj (List.mem_of_getElem? hr)]
      rintro rfl
      refine hne ?_
      have hnodup := (rootRows_pairwise slots.length 0).imp (fun h => Nat.ne_of_gt h)
      obtain ⟨h1, _⟩ := List.getElem?_eq_some_iff.mp hidx
      exact (List.getElem?_inj h1 hnodup).mp (hidx.trans hr.symm)

/-! ### The node map -/

section Map
variable {Q : M → Prop} {m m' : Finmap fun _ : M => Addr} {cells cells' : List (Addr × H)}
  {gone : List H}

omit [DecidableEq H] [HashOps H] in
/-- Only the entries under the keys in `Q` matter. -/
theorem MapOk.of_lookup (hm : MapOk Q m cells gone) (hlook : ∀ k, Q k → m'.lookup k = m.lookup k)
    (h : ∀ b x, x ∉ gone → Q (mini x) → ((b, x) ∈ cells' ↔ (b, x) ∈ cells)) :
    MapOk Q m' cells' gone := by
  intro k hQ b
  rw [hlook k hQ, hm k hQ b]
  refine exists_congr fun x => ?_
  constructor
  · rintro ⟨h1, h2, rfl⟩
    exact ⟨(h b x h2 hQ).mpr h1, h2, rfl⟩
  · rintro ⟨h1, h2, rfl⟩
    exact ⟨(h b x h2 hQ).mp h1, h2, rfl⟩

omit [DecidableEq H] [HashOps H] in
theorem MapOk.congr (hm : MapOk Q m cells gone)
    (h : ∀ b x, x ∉ gone → ((b, x) ∈ cells' ↔ (b, x) ∈ cells)) : MapOk Q m cells' gone :=
  hm.of_lookup (fun _ _ => rfl) fun b x hx _ => h b x hx

omit [MiniHash H M] [DecidableEq H] [HashOps H] in
/-- Entering a key again leaves the other keys alone. -/
theorem lookup_reentered {k k' : M} (hne : k' ≠ k) (b : Addr) :
    (if k ∈ m then m.insert k b else m).lookup k' = m.lookup k' := by
  split
  · exact Finmap.lookup_insert_of_ne _ hne
  · rfl

omit [DecidableEq H] [HashOps H] in
/-- A key that no leaf of the map has. -/
theorem MapOk.erase {k : M} (hm : MapOk Q m cells gone)
    (hk : ∀ e ∈ cells, e.2 ∉ gone → Q (mini e.2) → mini e.2 ≠ k) :
    MapOk Q (m.erase k) cells gone := by
  intro k' hQ b
  by_cases he : k' = k
  · subst he
    rw [Finmap.lookup_erase]
    simp only [reduceCtorEq, false_iff]
    rintro ⟨x, h1, h2, h3⟩
    exact hk _ h1 h2 (h3 ▸ hQ) h3
  · rw [Finmap.lookup_erase_ne he, hm k' hQ b]

omit [DecidableEq H] [HashOps H] in
/-- A leaf that moves to another node. -/
theorem MapOk.move {y : H} {b : Addr} (hm : MapOk Q m cells gone) (hy : y ∉ gone)
    (huniq : ∀ c, (c, y) ∈ cells' ↔ c = b)
    (hother : ∀ c x, x ≠ y → x ∉ gone → ((c, x) ∈ cells' ↔ (c, x) ∈ cells))
    (hinj : ∀ e ∈ cells', e.2 ∉ gone → mini (M := M) e.2 = mini y → e.2 = y) :
    MapOk Q (m.insert (mini y) b) cells' gone := by
  intro k hQ c
  by_cases hk : k = mini y
  · subst hk
    rw [Finmap.lookup_insert]
    constructor
    · rintro ⟨rfl⟩
      exact ⟨y, (huniq b).mpr rfl, hy, rfl⟩
    · rintro ⟨x, h1, h2, h3⟩
      obtain rfl := hinj _ h1 h2 h3
      rw [(huniq c).mp h1]
  · rw [Finmap.lookup_insert_of_ne _ hk, hm k hQ c]
    refine exists_congr fun x => ?_
    by_cases hxy : x = y
    · subst hxy
      exact ⟨fun h => absurd h.2.2.symm hk, fun h => absurd h.2.2.symm hk⟩
    · constructor
      · rintro ⟨h1, h2, h3⟩
        exact ⟨(hother c x hxy h2).mpr h1, h2, h3⟩
      · rintro ⟨h1, h2, h3⟩
        exact ⟨(hother c x hxy h2).mp h1, h2, h3⟩

end Map

/-- **What the first parts of the hashes have to tell apart**: as far as they are in `Q`, the leaves
from each other and from the other nodes. -/
structure MiniOk (Q : M → Prop) (slots : List (Option H)) : Prop where
  leaves : KeysApart Q (liveLeaves slots)
  parent : ∀ y ∈ liveLeaves slots, Q (mini y) → ∀ a b : H, mini (parentHash a b) ≠ mini y

variable {Q : M → Prop}

section Mini
variable (hm : MiniOk Q slots)
include hm

omit [DecidableEq H] [DecidableEq M] in
theorem MiniOk.leaves_nodup : (liveLeaves slots).Nodup := hm.leaves.nodup

omit [DecidableEq H] [DecidableEq M] in
theorem MiniOk.inj {a b : H} (ha : a ∈ liveLeaves slots) (hb : b ∈ liveLeaves slots)
    (hQ : Q (mini a)) (h : mini a = mini b) : a = b :=
  hm.leaves.inj ha hb hQ h

omit [DecidableEq H] [DecidableEq M] in
/-- A leaf outside a tree does not have the key of the tree's hash. -/
theorem MiniOk.ne_tree {t : CTree H} (ht : ∀ a ∈ t.leaves, a ∈ liveLeaves slots) {y : H}
    (hy : y ∈ liveLeaves slots) (hnot : y ∉ t.leaves) (hQ : Q (mini y)) :
    mini y ≠ mini (treeHash t) := by
  cases t with
  | leaf a =>
    intro h
    refine hnot ?_
    rw [hm.inj hy (ht a (by simp [CTree.leaves])) hQ h]
    simp [CTree.leaves]
  | node l r => exact (hm.parent y hy hQ _ _).symm

omit [DecidableEq H] [DecidableEq M] in
/-- Fewer leaves are told apart as well. -/
theorem MiniOk.of_sublist {slots' : List (Option H)}
    (hsub : (liveLeaves slots').Sublist (liveLeaves slots)) : MiniOk Q slots' :=
  ⟨⟨hm.leaves_nodup.sublist hsub, fun ha hb => hm.inj (hsub.subset ha) (hsub.subset hb)⟩,
    fun y hy => hm.parent y (hsub.subset hy)⟩

omit [DecidableEq H] [DecidableEq M] in
/-- Fewer keys are told apart as well. -/
theorem MiniOk.mono {Q' : M → Prop} (h : ∀ k, Q' k → Q k) : MiniOk Q' slots :=
  ⟨⟨hm.leaves_nodup, fun ha hb hQ => hm.inj ha hb (h _ hQ)⟩,
    fun y hy hQ => hm.parent y hy (h _ hQ)⟩

omit [DecidableEq M] in
theorem MiniOk.delSlots (dels : List H) : MiniOk Q (delSlots slots dels) := by
  have hsub : (liveLeaves (Utreexo.delSlots slots dels)).Sublist (liveLeaves slots) := by
    rw [liveLeaves_delSlots]
    exact List.filter_sublist
  exact hm.of_sublist hsub

end Mini

/-! ### Replacing a tree -/

variable {p : Pollard H M} {F : List (PRoot H)} {gone : List H} {T : PTree H}

omit [DecidableEq H] [HashOps H] in
theorem mem_cells_set {i : Nat} {R R' : PRoot H} (hR : F[i]? = some R)
    {e : Addr × H} : e ∈ (F.set i R').flatMap PRoot.cells ↔
      e ∈ (F.take i).flatMap PRoot.cells ∨ e ∈ R'.cells ∨
        e ∈ (F.drop (i + 1)).flatMap PRoot.cells := by
  have hlt := (List.getElem?_eq_some_iff.mp hR).1
  rw [List.set_eq_take_append_cons_drop, if_pos hlt, List.flatMap_append, List.flatMap_cons,
    List.mem_append, List.mem_append]

omit [DecidableEq H] [HashOps H] in
theorem mem_cells_iff {i : Nat} {R : PRoot H} (hR : F[i]? = some R) {e : Addr × H} :
    e ∈ F.flatMap PRoot.cells ↔ e ∈ (F.take i).flatMap PRoot.cells ∨ e ∈ R.cells ∨
      e ∈ (F.drop (i + 1)).flatMap PRoot.cells := by
  have hself : F.set i R = F := by
    obtain ⟨hlt, rfl⟩ := List.getElem?_eq_some_iff.mp hR
    exact List.set_getElem_self hlt
  rw [← mem_cells_set hR, hself]

omit [DecidableEq H] [HashOps H] in
/-- With distinct leaves, a leaf of one tree is not in another. -/
theorem not_mem_other_cells {i : Nat} {R : PRoot H} (hR : F[i]? = some R)
    (hnd : ((F.flatMap PRoot.cells).map Prod.snd).Nodup) {b : Addr} {y : H} (hy : (b, y) ∈ R.cells)
    (c : Addr) : (c, y) ∉ (F.take i).flatMap PRoot.cells ∧
      (c, y) ∉ (F.drop (i + 1)).flatMap PRoot.cells := by
  have hsplit : F = F.take i ++ (R :: F.drop (i + 1)) := by
    obtain ⟨hlt, rfl⟩ := List.getElem?_eq_some_iff.mp hR
    rw [List.cons_getElem_drop_succ, List.take_append_drop]
  rw [hsplit, List.flatMap_append, List.flatMap_cons, List.map_append, List.map_append,
    List.nodup_append, List.nodup_append] at hnd
  obtain ⟨-, ⟨-, -, hdrop⟩, htake⟩ := hnd
  have hmem : y ∈ R.cells.map Prod.snd := List.mem_map_of_mem hy
  constructor
  · intro hc
    exact htake y (List.mem_map_of_mem hc) y (List.mem_append_left _ hmem) rfl
  · intro hc
    exact hdrop y hmem y (List.mem_map_of_mem hc) rfl

/-- **One tree without a subtree.** -/
theorem Pollard.Holds.replace (hp : p.Holds Q F slots gone) (hn : slots.length ≤ 2 ^ 63)
    (hnd : (liveLeaves slots).Nodup) (hx : placed slots x = some D)
    (hj : (x.up j).IsRoot slots.length)
    (hT : F[(rootRows slots.length (x.row + j + 1)).length]? = some (.full T))
    {N A C : List Addr} {h' : Heap H} {m : Finmap fun _ : M => Addr} {R : PRoot H}
    (k : Keeps N A C p.heap h') (hk : ∀ b, b ∈ N ∨ b ∈ A ∨ b ∈ C → b ∈ T.addrs)
    (hok : RootOk h' R) (haddr : R.addr = T.addr) (hndR : R.addrs.Nodup)
    (hsub : ∀ b ∈ R.addrs, b ∈ T.addrs) (hopt : R.opt = T.tree.removeAt (x.path j))
    (hm : MapOk Q m ((F.set (rootRows slots.length (x.row + j + 1)).length R).flatMap PRoot.cells)
      gone) :
    Pollard.Holds Q { p with heap := h', nodeMap := m }
      (F.set (rootRows slots.length (x.row + j + 1)).length R) (delSlots slots D.leaves) gone := by
  set i := (rootRows slots.length (x.row + j + 1)).length
  have hlt := (List.getElem?_eq_some_iff.mp hT).1
  have hsplit : F = F.take i ++ ([.full T] ++ F.drop (i + 1)) := by
    have hget := (List.getElem?_eq_some_iff.mp hT).2
    rw [List.singleton_append, ← hget, List.cons_getElem_drop_succ, List.take_append_drop]
  have hset : F.set i R = F.take i ++ ([R] ++ F.drop (i + 1)) := by
    rw [List.set_eq_take_append_cons_drop, if_pos hlt, List.singleton_append]
  have hrep : HeapRep p.heap (F.take i ++ ([.full T] ++ F.drop (i + 1))) := by
    rw [← hsplit]
    exact hp.rep.toHeapRep
  have hTlt : ∀ b ∈ T.addrs, b < p.heap.next := fun b hb =>
    hp.rep.lt b (List.mem_flatMap.mpr ⟨.full T, List.mem_of_getElem? hT, hb⟩)
  have hin : ∀ b, b ∈ T.addrs → b ∈ [PRoot.full T].flatMap PRoot.addrs := fun b hb => by
    simpa [PRoot.addrs] using hb
  have hTtree : rootTree slots (x.row + j) = some T.tree := by
    have h1 := forestTrees_getElem hn hj
    rw [← hp.trees, List.getElem?_map, hT, Option.map_some] at h1
    exact (Option.some.inj h1).symm
  refine ⟨⟨?_, ?_⟩, ?_, by rw [length_delSlots]; exact hp.numLeaves, hp.full, hm⟩
  · rw [hset]
    refine hrep.replace k (fun b hb => Or.inl (hin b (hk b hb))) ?_ (by simpa using hndR) ?_
    · intro R' hR'
      obtain rfl : R' = R := by simpa using hR'
      exact hok
    · intro b hb
      have hb' : b ∈ T.addrs := hsub b (by simpa using hb)
      exact ⟨Or.inl (hin b hb'), Nat.lt_of_lt_of_le (hTlt b hb') k.next⟩
  · rw [List.map_set, haddr, hp.rep.roots]
    symm
    refine List.ext_getElem? fun l => ?_
    rw [List.getElem?_set]
    split
    · next he =>
      subst he
      rw [List.getElem?_map, hT, List.length_map, if_pos hlt]
      rfl
    · rfl
  · rw [forestTrees_delSlots_set (by omega) hnd hx hj, List.map_set, hp.trees, hopt, hTtree]
    rfl

omit [DecidableEq H] in
/-- The tree that a placed subtree is in. -/
theorem Pollard.Holds.tree_of_placed (hp : p.Holds Q F slots gone) (hn : slots.length ≤ 2 ^ 63)
    (hx : placed slots x = some D) (hj : (x.up j).IsRoot slots.length) :
    ∃ T, F[(rootRows slots.length (x.row + j + 1)).length]? = some (.full T) ∧
      T.tree.subAt (x.path j) = some D := by
  have hget := forestTrees_getElem hn hj
  rw [← hp.trees, List.getElem?_map] at hget
  obtain ⟨R, hR, hopt⟩ := Option.map_eq_some_iff.mp hget
  rw [placed_eq (by omega) hj] at hx
  obtain ⟨T, hT, hx⟩ := Option.bind_eq_some_iff.mp hx
  rw [hT] at hopt
  cases R with
  | vacant a => cases hopt
  | full t =>
    obtain rfl : t.tree = T := Option.some.inj hopt
    exact ⟨t, hR, hx⟩

omit [DecidableEq H] in
theorem Pollard.Holds.cells_live (hp : p.Holds Q F slots gone) (hn : slots.length < 2 ^ 64)
    {e : Addr × H} (he : e ∈ F.flatMap PRoot.cells) : e.2 ∈ liveLeaves slots := by
  rw [← cells_snd_of_trees hp.trees hn]
  exact List.mem_map_of_mem he

omit [DecidableEq H] in
theorem Pollard.Holds.addrs_nodup (hp : p.Holds Q F slots gone) {i : Nat} {R : PRoot H}
    (hR : F[i]? = some R) : R.addrs.Nodup :=
  (List.nodup_flatMap.mp hp.rep.nodup).1 R (List.mem_of_getElem? hR)

/-! ### Deleting a root -/

/-- **`deleteRoot` empties a tree** whose leaves are all to be deleted. -/
theorem Pollard.deleteRoot_spec (hp : p.Holds Q F slots gone) (hn : slots.length ≤ 2 ^ 63)
    (hm : MiniOk Q slots) (hx : placed slots x = some D) (hroot : x.IsRoot slots.length)
    (hgone : ∀ y ∈ D.leaves, y ∈ gone) :
    ∃ p' F', p.deleteRoot (nodePos (treeRows slots.length) x) = .ok (p', .ok ()) ∧
      p'.Holds Q F' (delSlots slots D.leaves) gone ∧ p'.numDels = p.numDels := by
  have hj : (x.up 0).IsRoot slots.length := by rwa [Node.up_zero]
  obtain ⟨T, hT, hsub⟩ := hp.tree_of_placed hn hx hj
  obtain rfl : T.tree = D := by
    rw [Node.path_zero, CTree.subAt_nil] at hsub
    exact Option.some.inj hsub
  obtain ⟨bits, -, hoff⟩ := detectOffset_nodePos hn hj
  have hrootOk := hp.rep.ok _ (List.mem_of_getElem? hT)
  have hndT := hp.addrs_nodup hT
  obtain ⟨hok, hkeeps⟩ := emptyRoot_spec hrootOk.1 hndT
  set i := (rootRows slots.length (x.row + 0 + 1)).length with hi
  have haddr : p.roots[i]? = some T.addr := by
    rw [hp.rep.roots, List.getElem?_map, hT]
    rfl
  have hlen : p.roots.length = (forestTrees slots).length := by
    rw [hp.rep.roots, List.length_map, ← hp.trees, List.length_map]
  have h64 := length_forestTrees slots
  have hlt := (List.getElem?_eq_some_iff.mp haddr).1
  have hdata : (p.heap.get T.addr).data = treeHash T.tree := hrootOk.2.hash
  have hmap : MapOk Q (p.nodeMap.erase (mini (p.heap.get T.addr).data))
      ((F.set i (.vacant T.addr)).flatMap PRoot.cells) gone := by
    have hcells : ∀ b y, y ∉ gone → ((b, y) ∈ (F.set i (.vacant T.addr)).flatMap PRoot.cells ↔
        (b, y) ∈ F.flatMap PRoot.cells) := by
      intro b y hy
      have hnot : (b, y) ∉ (PRoot.full T).cells := by
        intro hmem
        refine hy (hgone y ?_)
        rw [← T.cells_snd]
        exact List.mem_map_of_mem hmem
      rw [mem_cells_set hT, mem_cells_iff hT]
      simp [PRoot.cells] at hnot ⊢
      simp [hnot]
    refine MapOk.erase (hp.map.congr hcells) ?_
    · intro e he hnot
      rw [hdata]
      exact hm.ne_tree (placed_leaves_subset hx)
        (hp.cells_live (by omega) ((hcells _ _ hnot).mp he))
        fun hmem => hnot (hgone _ hmem)
  refine ⟨_, _, ?_, hp.replace hn hm.leaves_nodup hx hj hT hkeeps (by simp) hok rfl ?_ ?_ ?_ hmap,
    rfl⟩
  · rw [deleteRoot, hp.numLeaves, hoff]
    simp only
    rw [if_neg (by omega), haddr]
  · simp [PRoot.addrs]
  · simp [PRoot.addrs, T.addr_mem]
  · rw [Node.path_zero, CTree.removeAt_nil]
    rfl

/-! ### Deleting a node below a root -/

omit [DecidableEq H] in
/-- The sibling of a placed subtree, as `deleteSingle` looks it up. -/
theorem Pollard.Holds.getNode_sibling (hp : p.Holds Q F slots gone) (hn : slots.length ≤ 2 ^ 63)
    (hx : placed slots x = some D) (hj : (x.up (j + 1)).IsRoot slots.length) :
    ∃ f fs u par, F[(rootRows slots.length (x.row + (j + 1) + 1)).length]? =
        some (.full (plug (f :: fs) u)) ∧
      x.path (j + 1) = turns fs ++ [!f.right] ∧ f.sib.tree = D ∧
      p.getNode (sibling (nodePos (treeRows slots.length) x)) =
        .ok (some u.addr, some f.sib.addr, par) := by
  have hup : x.sibling.up (j + 1) = x.up (j + 1) := by
    rw [← Node.parent_up, ← Node.parent_up, Node.sibling_parent]
  have hpin : x.parent.InForest slots.length :=
    Node.inForest_of_up (j := j) (by rw [Node.parent_up]; exact hj.inForest)
  obtain ⟨S, hS⟩ : ∃ S, placed slots x.sibling = some S := by
    rw [placed_child (by omega) hpin] at hx
    obtain ⟨P, hP, hx⟩ := Option.bind_eq_some_iff.mp hx
    rw [placed_child (by omega) (by rwa [Node.sibling_parent]), Node.sibling_parent, hP]
    cases P with
    | leaf a => cases hx
    | node l r => exact ⟨_, rfl⟩
  obtain ⟨f, fs, u, par, hT, hturns, -, hget⟩ := hp.rep.getNode_placed hn hp.trees hp.numLeaves hS
    (by rwa [hup])
  have hfit := fits_of_inForest (le_two_pow_treeRows _) (Node.inForest_of_up hj.inForest)
  rw [← sibling_nodePos hfit] at hget
  rw [turns_cons, Node.path_succ, Node.sibling_parent, Node.isRight_sibling] at hturns
  obtain ⟨h1, h2⟩ := List.append_inj' hturns rfl
  have hpath : x.path (j + 1) = turns fs ++ [!f.right] := by
    rw [Node.path_succ, h1]
    simp [List.singleton_inj.mp h2]
  refine ⟨f, fs, u, par, hT, hpath, ?_, hget⟩
  obtain ⟨T, hT', hsub⟩ := hp.tree_of_placed hn hx hj
  have he := hT.symm.trans hT'
  simp only [Option.some.injEq, PRoot.full.injEq] at he
  have hother := subAt_plug (⟨f.addr, !f.right, u⟩ :: fs) f.sib []
  rw [plug_swap, List.append_nil, turns_cons, CTree.subAt_nil, ← hpath, he, hsub] at hother
  exact (Option.some.inj hother).symm

theorem parent_nodePos_of_inForest {n : Nat} (hn : n ≤ 2 ^ 63) (hp : x.parent.InForest n) :
    parent (nodePos (treeRows n) x) (treeRows n) = nodePos (treeRows n) x.parent ∧
      Fits (treeRows n) x.parent := by
  have hfit := fits_of_inForest (le_two_pow_treeRows n) hp
  have hrow : x.row + 1 ≤ treeRows n := hfit.1
  refine ⟨parent_nodePos (treeRows_le hn) ?_ (by omega), hfit⟩
  exact fits_of_inForest (le_two_pow_treeRows n) (Node.inForest_of_parent hp)

omit [DecidableEq H] [HashOps H] in
/-- A tree without a subtree whose leaves are gone has the same other leaves. -/
theorem mem_cells_below {i : Nat} {f : Frame H} {fs : List (Frame H)} {u : PTree H}
    (hT : F[i]? = some (.full (plug (f :: fs) u))) (hgone : ∀ y ∈ f.sib.tree.leaves, y ∈ gone)
    (b : Addr) (y : H) (hy : y ∉ gone) :
    (b, y) ∈ (F.set i (.full (plug fs u))).flatMap PRoot.cells ↔
      (b, y) ∈ F.flatMap PRoot.cells := by
  have hnot : (b, y) ∉ f.sib.cells := by
    intro hmem
    refine hy (hgone y ?_)
    rw [← f.sib.cells_snd]
    exact List.mem_map_of_mem hmem
  rw [mem_cells_set hT, mem_cells_iff hT]
  simp only [PRoot.cells, mem_cells_plug, List.exists_mem_cons_iff, hnot, false_or]

section Node
variable {u : PTree H} {f g : Frame H} {gs : List (Frame H)}

omit [DecidableEq H] [HashOps H] in
theorem sublist_above (u : PTree H) (f : Frame H) (gs : List (Frame H)) :
    (u.addrs ++ ctxAddrs gs).Sublist (u.addrs ++ ctxAddrs (f :: gs)) :=
  (List.Sublist.refl _).append ((List.sublist_append_right _ _).cons _)

omit [DecidableEq H] [HashOps H] in
theorem nodup_above (hnd : (u.addrs ++ ctxAddrs (f :: gs)).Nodup) :
    (u.addrs ++ ctxAddrs gs).Nodup ∧ f.addr ∉ u.addrs ++ ctxAddrs gs := by
  refine ⟨hnd.sublist (sublist_above u f gs), ?_⟩
  rw [ctxAddrs, List.nodup_append, List.nodup_cons, List.mem_append, not_or] at hnd
  rw [List.mem_append, not_or]
  exact ⟨fun hu => hnd.2.2 _ hu _ List.mem_cons_self rfl, hnd.2.1.1.2⟩

omit [DecidableEq H] [HashOps H] in
/-- `deleteSingle` on the pointers, where the sibling of the deleted node does not become
a root. -/
theorem Pollard.moveUp_node (hpos : 0 < p.heap.next) (hc : CtxLinks p.heap (f :: g :: gs) u.addr)
    (hl : Links p.heap f.sib.addr u) (hnd : (u.addrs ++ ctxAddrs (f :: g :: gs)).Nodup) :
    ∃ h' N A, p.moveUp u.addr f.sib.addr f.addr (p.heap.get f.sib.addr).aunt =
        .ok { p with heap := h', nodeMap := p.nodeMap.erase (mini (p.heap.get f.sib.addr).data) } ∧
      CtxLinks h' (g :: gs) u.addr ∧ Links h' g.sib.addr u ∧
      (h'.get f.addr).aunt = (h'.get u.addr).aunt ∧ Keeps N A [] p.heap h' ∧
      ∀ b ∈ N ++ A, b ∈ u.addrs ++ ctxAddrs (f :: g :: gs) := by
  obtain ⟨h1, hrun, hc1, hl1, haunt, ⟨hln, hrn⟩, hsib, k1⟩ := moveUpNode_spec hpos hc hl hnd
  obtain ⟨hpair, ⟨haunt0, haunt0'⟩, hlsib, hpair2, ⟨haunt2, -⟩, -⟩ := hc
  have hmem := ctxN_subset (g :: gs) u.addr
  have hmem' := ctxA_subset (g :: gs) u.addr
  have hown := owner_mem gs g.addr
  have huk := u.kids_subset
  have hgk := g.sib.kids_subset
  have hout : f.sib.addr ∉ u.addrs ++ ctxAddrs (g :: gs) ∧ f.sib.addr ≠ f.addr := by
    simp only [ctxAddrs, PTree.addrs_eq, List.nodup_cons, List.nodup_append, List.mem_cons,
      List.mem_append, List.cons_append] at hnd ⊢
    grind
  have hgs : g.sib.addr ∈ ctxAddrs (g :: gs) := by simp [ctxAddrs, g.sib.addr_mem]
  simp only [PTree.addrs_eq, List.mem_append, List.mem_cons, not_or] at hout
  -- The deleted node is no longer a niece, and has none.
  have k2 := delNode_spec (h := h1) (n := f.sib.addr) (by
    intro b hb
    obtain rfl : g.sib.addr = b := Option.some.inj (hsib.symm.trans hb)
    exact hl1.not_niece fun hk => hout.1.1.2 (huk _ hk))
  rw [hln, hrn] at k2
  refine ⟨_, _, _, ?_, k2.ctx ?_ ?_ hc1, k2.links ?_ ?_ ?_ hl1, ?_, k1.trans k2, ?_⟩
  · have hsome : (p.heap.get f.addr).aunt.isSome := by rw [haunt2]; rfl
    have hdata : (h1.get f.sib.addr).data = (p.heap.get f.sib.addr).data := k1.data _ (by simp)
    rw [moveUp, if_pos hsome, haunt0', owner_cons, hrun]
    simp only [Exec.ok_bind, pure, Except.pure, hdata]
  · grind
  · grind
  · grind
  · grind
  · grind
  · rw [k2.aunt _ (by grind), k2.aunt _ (by grind), haunt]
  · simp only [ctxAddrs, PTree.addrs_eq, List.mem_append, List.mem_cons] at hown ⊢
    grind

omit [DecidableEq H] [DecidableEq M] [MiniHash H M] in
/-- The hashes above a node, and the aunt of a node that has left the tree. -/
theorem Pollard.rehash_node (hc : CtxLinks p.heap (g :: gs) u.addr)
    (hl : Links p.heap g.sib.addr u) (hd : Data p.heap u)
    (hs : ∀ e ∈ g :: gs, Data p.heap e.sib) (hnd : (u.addrs ++ ctxAddrs (g :: gs)).Nodup)
    (hlt : ∀ b ∈ u.addrs ++ ctxAddrs (g :: gs), b < p.heap.next) {a : Addr}
    (ha : a ∉ u.addrs ++ ctxAddrs (g :: gs))
    (haunt : (p.heap.get a).aunt = (p.heap.get u.addr).aunt) {del : Nat}
    (hdel : isRootPosition (parent del (treeRows p.numLeaves)) p.numLeaves = false) :
    ∃ h', p.rehash del a = .ok ({ p with heap := h' }, .ok ()) ∧ Rooted h' (plug (g :: gs) u) ∧
      Data h' (plug (g :: gs) u) ∧ Keeps [] [a] ((g :: gs).map Frame.addr) p.heap h' := by
  have hparent : getParent p.heap a = .ok (some g.addr) := by
    rw [← (getParent_ctx hc (List.nodup_append.mp hnd).2.1).1, getParent, getParent, haunt]
  obtain ⟨v, hsib⟩ : ∃ v, getSibling p.heap g.addr = .ok v := by
    obtain ⟨-, -, -, hup⟩ := hc
    cases gs with
    | nil =>
      have hnone : (p.heap.get g.addr).aunt = none := hup
      exact ⟨none, by rw [getSibling, hnone]⟩
    | cons e gs =>
      refine ⟨_, getSibling_ctx hup ?_⟩
      have hmem := e.sib.addr_mem
      simp only [ctxAddrs, List.nodup_cons, List.nodup_append, List.mem_cons, List.mem_append,
        not_or] at hnd
      rintro he
      exact hnd.2.1.1.2.2.1 (he ▸ hmem)
  have hfuel : (g :: gs).length < p.heap.next + 1 := by
    have h1 := length_lt_addrs_plug (g :: gs) u
    have h2 := length_le_of_nodup_lt hnd hlt
    rw [(addrs_plug (g :: gs) u).length_eq] at h1
    omega
  -- The aunt of the node outside does not show in the tree.
  set h1 := p.heap.setAunt a (v.or (some g.addr)) with h1_def
  have k1 : Keeps [] [a] [] p.heap h1 := keeps_setAunt _ _ _
  have hA : ∀ b ∈ u.addrs ++ ctxAddrs (g :: gs), b ∉ [a] := by
    rintro b hb hba
    rw [List.mem_singleton] at hba
    exact ha (hba ▸ hb)
  have hmem : ∀ b ∈ u.addr :: ctxAddrs (g :: gs), b ∈ u.addrs ++ ctxAddrs (g :: gs) := by
    intro b hb
    rcases List.mem_cons.mp hb with rfl | hb
    · exact List.mem_append_left _ u.addr_mem
    · exact List.mem_append_right _ hb
  have hc1 : CtxLinks h1 (g :: gs) u.addr :=
    k1.ctx (by simp) (fun b hb => hA b (hmem b (ctxA_subset _ _ b hb))) hc
  have hl1 : Links h1 (owner (g :: gs) u.addr) u :=
    k1.links (by simp) (by simp)
      (fun b hb => hA b (List.mem_append_left _ (PTree.mem_addrs_of_desc hb))) hl
  obtain ⟨h2, hrun, hdata, k2⟩ := hashToRootLoop_spec hc1 hl1 (k1.dataOf (by simp) hd)
    (fun e he => k1.dataOf (by simp) (hs e he)) hnd (show _ < h1.next + 1 from hfuel)
  refine ⟨h2, ?_, rooted_plug.mpr ⟨k2.ctx (by simp) (by simp) hc1, k2.links (by simp) (by simp)
    (by simp) hl1⟩, hdata, (k1.trans k2).mono (by simp) (by simp) (by simp)⟩
  have hroot : hashToRoot h1 (some g.addr) = .ok (h2, .ok ()) := hrun
  rw [rehash, hdel]
  simp only [Bool.false_eq_true, if_false, hparent, deref, Exec.ok_bind, hsib]
  rcases v with _ | w
  · exact congrArg (· >>= _) hroot
  · exact congrArg (· >>= _) hroot

/-- **`deleteSingle` where the sibling stays below a root.** -/
theorem Pollard.deleteSingle_below (hp : p.Holds Q F slots gone) (hn : slots.length ≤ 2 ^ 63)
    (hm : MiniOk Q slots) (hx : placed slots x = some D)
    (hj : (x.up (j + 2)).IsRoot slots.length) (hgone : ∀ y ∈ D.leaves, y ∈ gone) :
    ∃ p' F', p.deleteSingle (nodePos (treeRows slots.length) x) = .ok (p', .ok ()) ∧
      p'.Holds Q F' (delSlots slots D.leaves) gone ∧ p'.numDels = p.numDels := by
  obtain ⟨f, fs, u, par, hT, hpath, rfl, hget⟩ := hp.getNode_sibling hn hx hj
  obtain ⟨g, gs, rfl⟩ : ∃ g gs, fs = g :: gs := by
    have hlen := congrArg List.length hpath
    rcases fs with _ | ⟨g, gs⟩
    · simp [turns] at hlen
    · exact ⟨g, gs, rfl⟩
  have hpin : x.parent.InForest slots.length :=
    Node.inForest_of_up (j := j + 1) (by rw [Node.parent_up]; exact hj.inForest)
  set i := (rootRows slots.length (x.row + (j + 1 + 1) + 1)).length
  obtain ⟨hrooted, hdata⟩ := hp.rep.ok _ (List.mem_of_getElem? hT)
  obtain ⟨hc, hl⟩ := rooted_plug.mp hrooted
  have hperm := addrs_plug (f :: g :: gs) u
  have hnd : (u.addrs ++ ctxAddrs (f :: g :: gs)).Nodup := hperm.nodup_iff.mp (hp.addrs_nodup hT)
  have hlt : ∀ b ∈ u.addrs ++ ctxAddrs (f :: g :: gs), b < p.heap.next := fun b hb =>
    hp.rep.lt b (List.mem_flatMap.mpr ⟨_, List.mem_of_getElem? hT, hperm.mem_iff.mpr hb⟩)
  have hpos : 0 < p.heap.next :=
    Nat.zero_lt_of_lt (hlt u.addr (List.mem_append_left _ u.addr_mem))
  obtain ⟨h1, N, A, hmove, hc1, hl1, haunt, k1, hNA⟩ := moveUp_node hpos hc hl hnd
  have hparent := (getParent_ctx hc (List.nodup_append.mp hnd).2.1).2
  obtain ⟨hd, hs⟩ := hdata.of_plug
  have hsub : ∀ b ∈ u.addrs ++ ctxAddrs (g :: gs), b ∈ u.addrs ++ ctxAddrs (f :: g :: gs) :=
    (sublist_above u f (g :: gs)).subset
  have hnd' := nodup_above hnd
  have hdel : isRootPosition (parent (nodePos (treeRows slots.length) x) (treeRows p.numLeaves))
      p.numLeaves = false := by
    obtain ⟨hpar, hfit⟩ := parent_nodePos_of_inForest hn hpin
    rw [hp.numLeaves, hpar, Bool.eq_false_iff, ne_eq, isRootPosition_nodePos hn hfit]
    refine Node.not_isRoot_of_parent (Node.inForest_of_up (j := j) ?_)
    rw [Node.parent_up, Node.parent_up]
    exact hj.inForest
  obtain ⟨h2, hre, hroot2, hdata2, k2⟩ := rehash_node
    (p := { p with heap := h1, nodeMap := p.nodeMap.erase (mini (p.heap.get f.sib.addr).data) })
    hc1 hl1 (k1.dataOf (by simp) hd)
    (fun e he => k1.dataOf (by simp) (hs e (List.mem_cons_of_mem _ he))) hnd'.1
    (fun b hb => Nat.lt_of_lt_of_le (hlt b (hsub b hb)) k1.next) hnd'.2 haunt hdel
  have hmap : MapOk Q (p.nodeMap.erase (mini (p.heap.get f.sib.addr).data))
      ((F.set i (.full (plug (g :: gs) u))).flatMap PRoot.cells) gone := by
    have hcells := mem_cells_below hT (fun y hy => hgone y hy)
    refine MapOk.erase (hp.map.congr hcells) fun e he hnot => ?_
    rw [(hs f List.mem_cons_self).hash]
    exact hm.ne_tree (placed_leaves_subset hx) (hp.cells_live (by omega) ((hcells _ _ hnot).mp he))
      fun hmem => hnot (hgone _ hmem)
  refine ⟨_, _, ?_, hp.replace hn hm.leaves_nodup hx hj hT (k1.trans k2) ?_
    (show RootOk h2 (.full (plug (g :: gs) u)) from ⟨hroot2, hdata2⟩) ?_ ?_ ?_ ?_ hmap, rfl⟩
  · rw [deleteSingle, hget, deleteNode]
    simp only [deref, Exec.ok_bind, hparent, hmove]
    exact hre
  · intro b hb
    refine hperm.mem_iff.mpr ?_
    rcases hb with hb | hb | hb
    · exact hNA b (List.mem_append_left _ (by simpa using hb))
    · rcases List.mem_append.mp hb with hb | hb
      · exact hNA b (List.mem_append_right _ hb)
      · simp only [List.mem_singleton] at hb
        simp [ctxAddrs, hb]
    · obtain ⟨e, he, rfl⟩ := List.mem_map.mp (by simpa using hb : b ∈ (g :: gs).map Frame.addr)
      exact hsub _ (List.mem_append_right _ (mem_ctxAddrs_addr he))
  · exact plug_addr g gs u (f.fill u)
  · exact (addrs_plug (g :: gs) u).nodup_iff.mpr hnd'.1
  · intro b hb
    exact hperm.mem_iff.mpr (hsub b ((addrs_plug (g :: gs) u).mem_iff.mp hb))
  · rw [hpath]
    exact (removeAt_plug f (g :: gs) u).symm

/-! ### Becoming a root -/

omit [DecidableEq H] [HashOps H] in
/-- `deleteSingle` on the pointers, where the sibling of the deleted node becomes a root. -/
theorem Pollard.moveUp_root (hpos : 0 < p.heap.next) (hc : CtxLinks p.heap [f] u.addr)
    (hl : Links p.heap f.sib.addr u) (hnd : (u.addrs ++ ctxAddrs [f]).Nodup) :
    ∃ h' N A, p.moveUp u.addr f.sib.addr f.addr (p.heap.get f.sib.addr).aunt =
        .ok { p with
          heap := h'
          nodeMap := (if mini (p.heap.get u.addr).data ∈ p.nodeMap
            then p.nodeMap.insert (mini (p.heap.get u.addr).data) f.addr
            else p.nodeMap).erase (mini (p.heap.get f.sib.addr).data) } ∧
      Links h' f.addr u ∧ (h'.get f.addr).data = (p.heap.get u.addr).data ∧
      Keeps N A [f.addr] p.heap h' ∧ ∀ b ∈ N ++ A, b ∈ u.addrs ++ ctxAddrs [f] := by
  obtain ⟨h1, hrun, hl1, hdata, ⟨hln, hrn⟩, hsib, k1⟩ := moveUpRoot_spec hpos hc hl hnd
  obtain ⟨-, -, -, hroot⟩ := hc
  have huk := u.kids_subset
  have hsk := f.sib.kids_subset
  simp only [ctxAddrs, PTree.addrs_eq, List.nodup_cons, List.nodup_append, List.mem_cons,
    List.mem_append, List.cons_append, List.append_nil] at hnd
  have k2 := delNode_spec (h := h1) (n := f.sib.addr) (by
    intro b hb
    obtain rfl : f.addr = b := Option.some.inj (hsib.symm.trans hb)
    exact hl1.not_niece (by grind))
  rw [hln, hrn] at k2
  refine ⟨_, _, _, ?_, k2.links (by grind) (by grind) (by grind) hl1, ?_,
    (k1.trans k2).mono (List.Subset.refl _) (List.Subset.refl _) (by simp), ?_⟩
  · have hnone : (p.heap.get f.addr).aunt.isSome = false := by
      rw [show (p.heap.get f.addr).aunt = none from hroot]
      rfl
    have hsibData : (h1.get f.sib.addr).data = (p.heap.get f.sib.addr).data :=
      k1.data _ (by grind)
    rw [moveUp, hnone, hrun]
    simp only [Bool.false_eq_true, if_false, Exec.ok_bind, pure, Except.pure, hdata, hsibData]
  · rw [k2.data _ (by simp), hdata]
  · simp only [ctxAddrs, PTree.addrs_eq, List.mem_append, List.mem_cons]
    grind

omit [DecidableEq H] in
theorem Pollard.Holds.not_mem_map (hp : p.Holds Q F slots gone) (hn : slots.length < 2 ^ 64) {k : M}
    (hQ : Q k) (hk : ∀ y ∈ liveLeaves slots, y ∉ gone → mini y ≠ k) : k ∉ p.nodeMap := by
  rw [← Finmap.lookup_isSome, Option.not_isSome_iff_eq_none, Option.eq_none_iff_forall_ne_some]
  intro b hb
  obtain ⟨y, h1, h2, h3⟩ := (hp.map _ hQ _).mp hb
  exact hk y (hp.cells_live hn h1) h2 h3

omit [DecidableEq H] in
/-- The node map after a node has become a root: a leaf that is not to be deleted is now
found at the root. -/
theorem Pollard.Holds.map_root (hp : p.Holds Q F slots gone) (hn : slots.length < 2 ^ 64)
    (hm : MiniOk Q slots) {i : Nat} (hT : F[i]? = some (.full (f.fill u)))
    (hgone : ∀ y ∈ f.sib.tree.leaves, y ∈ gone) :
    MapOk Q (if mini (treeHash u.tree) ∈ p.nodeMap then p.nodeMap.insert (mini (treeHash u.tree))
      f.addr
      else p.nodeMap) ((F.set i (.full (u.withAddr f.addr))).flatMap PRoot.cells) gone := by
  have hbelow := mem_cells_below (show F[i]? = some (.full (plug [f] u)) from hT) hgone
  have hsub : ∀ e ∈ u.cells, e ∈ F.flatMap PRoot.cells := fun e he =>
    (mem_cells_iff hT).mpr (Or.inr (Or.inl ((mem_cells_plug [f]).mpr (Or.inl he))))
  cases u with
  | node a l r =>
    -- No leaf has the key, so that it is not found, or it does not matter.
    refine hp.map.of_lookup (fun k hQ => ?_) fun b y hy _ => ?_
    · by_cases hk : k = mini (treeHash (PTree.node a l r).tree)
      · subst hk
        have hno : mini (treeHash (PTree.node a l r).tree) ∉ p.nodeMap :=
          hp.not_mem_map hn hQ fun y hy _ hkey => hm.parent y hy (hkey ▸ hQ) _ _ hkey.symm
        rw [if_neg hno]
      · exact lookup_reentered hk _
    · rw [← hbelow b y hy, mem_cells_set hT, mem_cells_set hT]
      rfl
  | leaf a y =>
    have hay : (a, y) ∈ F.flatMap PRoot.cells := hsub _ (by simp [PTree.cells])
    have hylive : y ∈ liveLeaves slots := hp.cells_live hn hay
    have hother : ∀ c z, z ≠ y → z ∉ gone →
        ((c, z) ∈ (F.set i (.full ((PTree.leaf a y).withAddr f.addr))).flatMap PRoot.cells ↔
          (c, z) ∈ F.flatMap PRoot.cells) := by
      intro c z hzy hz
      rw [← hbelow c z hz, mem_cells_set hT, mem_cells_set hT]
      simp [PRoot.cells, plug, PTree.cells, PTree.withAddr, hzy]
    by_cases hQ : Q (mini y)
    swap
    · refine hp.map.of_lookup (fun k hk => lookup_reentered ?_ _) fun c z hz hzQ => hother c z ?_ hz
      · rintro rfl
        exact hQ hk
      · rintro rfl
        exact hQ hzQ
    by_cases hy : y ∈ gone
    · have hno : mini (treeHash (PTree.leaf a y).tree) ∉ p.nodeMap :=
        hp.not_mem_map hn hQ fun z hz hzg hkey =>
          hzg (hm.inj hz hylive (hkey ▸ hQ : Q (mini z)) hkey ▸ hy)
      rw [if_neg hno]
      exact hp.map.congr fun c z hz => hother c z (fun he => hz (he ▸ hy)) hz
    · have hfound : p.nodeMap.lookup (mini (treeHash (PTree.leaf a y).tree)) = some a :=
        (hp.map _ hQ a).mpr ⟨y, hay, hy, rfl⟩
      rw [if_pos (by rw [← Finmap.lookup_isSome, hfound]; rfl)]
      refine MapOk.move (y := y) hp.map hy (fun c => ?_) hother ?_
      · have hnd := cells_snd_of_trees hp.trees hn ▸ hm.leaves_nodup
        have hno := not_mem_other_cells hT hnd
          ((mem_cells_plug [f] (t := PTree.leaf a y)).mpr (Or.inl (List.mem_singleton.mpr rfl))) c
        have hself :
            (c, y) ∈ (PRoot.full ((PTree.leaf a y).withAddr f.addr)).cells ↔ c = f.addr := by
          simp [PRoot.cells, PTree.cells, PTree.withAddr]
        rw [mem_cells_set hT, hself]
        tauto
      · intro e he hz hkey
        by_cases hey : e.2 = y
        · exact hey
        · exact hm.inj (hp.cells_live hn ((hother e.1 e.2 hey hz).mp he)) hylive (hkey ▸ hQ) hkey

/-- **`deleteSingle` where the sibling becomes a root.** -/
theorem Pollard.deleteSingle_root (hp : p.Holds Q F slots gone) (hn : slots.length ≤ 2 ^ 63)
    (hm : MiniOk Q slots) (hx : placed slots x = some D)
    (hj : (x.up 1).IsRoot slots.length) (hgone : ∀ y ∈ D.leaves, y ∈ gone) :
    ∃ p' F', p.deleteSingle (nodePos (treeRows slots.length) x) = .ok (p', .ok ()) ∧
      p'.Holds Q F' (delSlots slots D.leaves) gone ∧ p'.numDels = p.numDels := by
  obtain ⟨f, fs, u, par, hT, hpath, rfl, hget⟩ := hp.getNode_sibling hn hx hj
  obtain rfl : fs = [] := by
    have hlen := congrArg List.length hpath
    rcases fs with _ | ⟨g, gs⟩
    · rfl
    · simp [turns] at hlen
  have hpin : x.parent.IsRoot slots.length := by rwa [← Node.up_one]
  obtain ⟨hrooted, hdata⟩ := hp.rep.ok _ (List.mem_of_getElem? hT)
  obtain ⟨hc, hl⟩ := rooted_plug.mp hrooted
  have hperm := addrs_plug [f] u
  have hnd : (u.addrs ++ ctxAddrs [f]).Nodup := hperm.nodup_iff.mp (hp.addrs_nodup hT)
  have hpos : 0 < p.heap.next :=
    Nat.zero_lt_of_lt (hp.rep.lt u.addr (List.mem_flatMap.mpr ⟨_, List.mem_of_getElem? hT,
      hperm.mem_iff.mpr (List.mem_append_left _ u.addr_mem)⟩))
  obtain ⟨h1, N, A, hmove, hl1, hdata1, k1, hNA⟩ := moveUp_root hpos hc hl hnd
  have hparent := (getParent_ctx hc (List.nodup_append.mp hnd).2.1).2
  obtain ⟨hd, hs⟩ := hdata.of_plug
  have hnot : f.addr ∉ u.desc := fun hmem =>
    (nodup_above hnd).2 (List.mem_append_left _ (PTree.mem_addrs_of_desc hmem))
  have hdel : isRootPosition (parent (nodePos (treeRows slots.length) x) (treeRows p.numLeaves))
      p.numLeaves = true := by
    obtain ⟨hpar, hfit⟩ := parent_nodePos_of_inForest hn hpin.inForest
    rw [hp.numLeaves, hpar, isRootPosition_nodePos hn hfit]
    exact hpin
  -- The new root loses the aunt that came with the contents of the node.
  have k2 := keeps_setAunt h1 f.addr none
  have hok : RootOk (h1.setAunt f.addr none) (.full (u.withAddr f.addr)) := by
    refine ⟨⟨?_, ?_⟩, ?_⟩
    · rw [PTree.withAddr_addr, setAunt_self]
    · rw [PTree.withAddr_addr, links_withAddr]
      refine k2.links (by simp) (by simp) ?_ hl1
      rintro b hb he
      exact hnot (List.mem_singleton.mp he ▸ hb)
    · refine (k1.trans k2).dataWithAddr (fun c hc he => hnot ?_) ?_ hd
      · rwa [← List.mem_singleton.mp (by simpa using he : c ∈ [f.addr])]
      · rw [k2.data _ (by simp), hdata1]
  have hlive : ∀ e ∈ (F.set (rootRows slots.length (x.row + (0 + 1) + 1)).length
      (.full (u.withAddr f.addr))).flatMap PRoot.cells, e.2 ∈ liveLeaves slots := by
    intro e he
    rcases (mem_cells_set hT).mp he with he | he | he
    · exact hp.cells_live (by omega) ((mem_cells_iff hT).mpr (Or.inl he))
    · have hmem : e.2 ∈ (u.withAddr f.addr).cells.map Prod.snd := List.mem_map_of_mem he
      rw [PTree.cells_snd, PTree.withAddr_tree, ← u.cells_snd] at hmem
      obtain ⟨e', he', heq⟩ := List.mem_map.mp hmem
      rw [← heq]
      exact hp.cells_live (by omega) ((mem_cells_iff hT).mpr
        (Or.inr (Or.inl ((mem_cells_plug [f]).mpr (Or.inl he')))))
    · exact hp.cells_live (by omega) ((mem_cells_iff hT).mpr (Or.inr (Or.inr he)))
  have hmap := (hp.map_root (by omega) hm hT hgone).erase (k := mini (treeHash f.sib.tree))
    fun e he hnot' => hm.ne_tree (placed_leaves_subset hx) (hlive e he) fun hmem =>
      hnot' (hgone _ hmem)
  rw [hd.hash, (hs f List.mem_cons_self).hash] at hmove
  refine ⟨_, _, ?_, hp.replace hn hm.leaves_nodup hx hj hT (k1.trans k2) ?_ hok ?_ ?_ ?_ ?_
    hmap, rfl⟩
  · rw [deleteSingle, hget, deleteNode]
    simp only [deref, Exec.ok_bind, hparent, hmove]
    rw [rehash]
    simp only [hdel, if_true]
  · intro b hb
    refine hperm.mem_iff.mpr ?_
    have hf : f.addr ∈ u.addrs ++ ctxAddrs [f] := by simp [ctxAddrs]
    simp only [List.append_nil, List.mem_append, List.mem_singleton] at hb hNA
    rcases hb with hb | (hb | rfl) | rfl
    · exact List.mem_append.mpr (hNA b (Or.inl hb))
    · exact List.mem_append.mpr (hNA b (Or.inr hb))
    · exact hf
    · exact hf
  · rw [PRoot.addr, PTree.withAddr_addr, plug, plug, Frame.fill_addr]
  · rw [PRoot.addrs, PTree.addrs_eq, PTree.withAddr_addr, PTree.withAddr_desc]
    refine List.nodup_cons.mpr ⟨hnot, ?_⟩
    have hu := (List.nodup_append.mp hnd).1
    rw [PTree.addrs_eq] at hu
    exact (List.nodup_cons.mp hu).2
  · intro b hb
    rw [PRoot.addrs, PTree.addrs_eq, PTree.withAddr_addr, PTree.withAddr_desc] at hb
    refine hperm.mem_iff.mpr ?_
    rcases List.mem_cons.mp hb with rfl | hb
    · simp [ctxAddrs]
    · exact List.mem_append_left _ (PTree.mem_addrs_of_desc hb)
  · rw [hpath, removeAt_plug f [] u, PRoot.opt, PTree.withAddr_tree]
    rfl

end Node

/-- **One round of `remove`.** -/
theorem Pollard.deleteAt_spec (hp : p.Holds Q F slots gone) (hn : slots.length ≤ 2 ^ 63)
    (hm : MiniOk Q slots) (hx : placed slots x = some D) (hgone : ∀ y ∈ D.leaves, y ∈ gone) :
    ∃ p' F', (if isRootPosition (nodePos (treeRows slots.length) x) p.numLeaves
        then p.deleteRoot (nodePos (treeRows slots.length) x)
        else p.deleteSingle (nodePos (treeRows slots.length) x)) = .ok (p', .ok ()) ∧
      p'.Holds Q F' (delSlots slots D.leaves) gone ∧ p'.numDels = p.numDels := by
  have hin := placed_inForest hx
  have hroot := isRootPosition_nodePos hn (fits_of_inForest (le_two_pow_treeRows _) hin)
  rw [hp.numLeaves]
  by_cases h : x.IsRoot slots.length
  · rw [if_pos (hroot.mpr h)]
    exact deleteRoot_spec hp hn hm hx h hgone
  · rw [if_neg (mt hroot.mp h)]
    obtain ⟨j, hj⟩ := hin.exists_root
    rcases j with _ | _ | j
    · exact absurd (by rwa [Node.up_zero] at hj) h
    · exact deleteSingle_root hp hn hm hx hj hgone
    · exact deleteSingle_below hp hn hm hx hj hgone

end

end Utreexo
