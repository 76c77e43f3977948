import Utreexo.UndoTwins

/-! # Undoing deletions

`undoDels` puts the deleted subtrees back, the highest position first: in the opposite
order of their deletion.
-/
namespace Utreexo
open Merkle

section
variable {H M : Type} [DecidableEq H] [HashOps H] [DecidableEq M] [MiniHash H M] {Q : M → Prop}
  {slots : List (Option H)} {F : List (PRoot H)}

/-! ### Putting a subtree back -/

section Grow
variable {h : Heap H} {rest : List (PRoot H)} {t u : PTree H} {g : Frame H} {gs : List (Frame H)}

omit [DecidableEq H] in
/-- A new node is apart from all trees. -/
theorem HeapRep.keeps_alloc (hr : HeapRep h F) (c : PolNode H) :
    ∀ R ∈ F, RootOk (h.alloc c).2 R := by
  intro R hR
  have hfresh : ∀ b ∈ R.addrs, b ∉ [h.next] := by
    intro b hb he
    have := hr.lt b (List.mem_flatMap.mpr ⟨R, hR, hb⟩)
    rw [List.mem_singleton.mp he] at this
    exact Nat.lt_irrefl _ this
  exact (hr.ok R hR).keeps (Utreexo.keeps_alloc h c) hfresh hfresh hfresh

omit [DecidableEq H] in
/-- The addresses of a tree, of a subtree and of a new node. -/
theorem HeapRep.nodup_new {T : PTree H} (hr : HeapRep h (.full T :: .full t :: rest)) :
    (h.next :: (t.addrs ++ T.addrs)).Nodup ∧ ∀ b ∈ t.addrs ++ T.addrs, b < h.next := by
  have hnd := hr.nodup
  have hlt := hr.lt
  simp only [List.flatMap_cons, PRoot.addrs, ← List.append_assoc] at hnd hlt
  have hlt' : ∀ b ∈ t.addrs ++ T.addrs, b < h.next := fun b hb =>
    hlt b (List.mem_append_left _ (List.perm_append_comm.mem_iff.mp hb))
  refine ⟨List.nodup_cons.mpr ⟨fun hmem => Nat.lt_irrefl _ (hlt' _ hmem), ?_⟩, hlt'⟩
  exact List.perm_append_comm.nodup_iff.mp (List.nodup_append.mp hnd).1

omit [DecidableEq H] in
/-- A tree and a subtree become one tree, with one more node. -/
theorem HeapRep.grow {T T' : PTree H} (hr : HeapRep h (.full T :: .full t :: rest))
    {N A D : List Addr} {h' : Heap H} (k : Keeps N A D h h')
    (hk : ∀ b, b ∈ N ∨ b ∈ A ∨ b ∈ D → b ∈ h.next :: (t.addrs ++ T.addrs))
    (hok : RootOk h' (.full T')) (hperm : T'.addrs.Perm (h.next :: (t.addrs ++ T.addrs)))
    (hlt : h.next < h'.next) : HeapRep h' (.full T' :: rest) := by
  obtain ⟨hnd, hold⟩ := hr.nodup_new
  have hin : ∀ b ∈ h.next :: (t.addrs ++ T.addrs),
      b ∈ [PRoot.full T, .full t].flatMap PRoot.addrs ∨ h.next ≤ b := by
    intro b hb
    simp only [List.mem_cons, List.mem_append] at hb
    simp only [List.flatMap_cons, List.flatMap_nil, PRoot.addrs, List.append_nil, List.mem_append]
    rcases hb with rfl | hb | hb
    · exact Or.inr (Nat.le_refl _)
    · exact Or.inl (Or.inr hb)
    · exact Or.inl (Or.inl hb)
  have hrep : HeapRep h ([] ++ ([.full T, .full t] ++ rest)) := hr
  change HeapRep h' ([] ++ ([.full T'] ++ rest))
  refine hrep.replace k (fun b hb => hin b (hk b hb)) ?_ ?_ ?_
  · intro R hR
    rw [List.mem_singleton.mp hR]
    exact hok
  · simpa [PRoot.addrs] using hperm.nodup_iff.mpr hnd
  · intro b hb
    have hb' : b ∈ h.next :: (t.addrs ++ T.addrs) :=
      hperm.mem_iff.mp (by simpa [PRoot.addrs] using hb)
    refine ⟨hin b hb', ?_⟩
    rcases List.mem_cons.mp hb' with rfl | hb'
    · exact hlt
    · exact Nat.lt_of_lt_of_le (hold b hb') k.next

omit [DecidableEq H] in
/-- **A subtree comes back below a root.** -/
theorem growNode_spec (hr : HeapRep h (.full (plug (g :: gs) u) :: .full t :: rest)) (pos : Nat)
    (pHash : H) (full : Bool) :
    ∃ h1 h2, Pollard.moveDownNode (h.alloc ⟨none, none, none, pHash, full⟩).2 pos t.addr u.addr
        h.next (some g.sib.addr) = .ok h1 ∧
      hashToRoot h1 (some h.next) = .ok (h2, .ok ()) ∧
      HeapRep h2 (.full (plug (⟨h.next, isLeftNiece pos, t⟩ :: g :: gs) u) :: rest) := by
  set h0 := (h.alloc ⟨none, none, none, pHash, full⟩).2 with h0_def
  have hnext : h0.next = h.next + 1 := rfl
  obtain ⟨hT, hTd⟩ := hr.keeps_alloc ⟨none, none, none, pHash, full⟩
    (.full (plug (g :: gs) u)) (by simp)
  obtain ⟨ht, htd⟩ := hr.keeps_alloc ⟨none, none, none, pHash, full⟩ (.full t) (by simp)
  obtain ⟨hc, hl⟩ := rooted_plug.mp hT
  obtain ⟨hud, hsd⟩ := hTd.of_plug
  obtain ⟨hnd, hlt⟩ := hr.nodup_new
  have hperm : (h.next :: (t.addrs ++ (plug (g :: gs) u).addrs)).Perm
      (h.next :: (t.addrs ++ (u.addrs ++ ctxAddrs (g :: gs)))) :=
    ((addrs_plug (g :: gs) u).append_left _).cons _
  obtain ⟨h1, hrun, hc1, hl1, k1⟩ := moveDownNode_spec pos (Nat.succ_pos h.next) hc hl ht
    (show (h0.get h.next).aunt = none from congrArg PolNode.aunt (if_pos rfl))
    (hperm.nodup_iff.mp hnd)
  set f : Frame H := ⟨h.next, isLeftNiece pos, t⟩
  have hperm' : (u.addrs ++ ctxAddrs (f :: g :: gs)).Perm
      (h.next :: (t.addrs ++ (plug (g :: gs) u).addrs)) := by
    refine List.perm_middle.trans (List.Perm.cons _ ?_)
    exact (List.perm_append_comm_assoc _ _ _).trans ((addrs_plug (g :: gs) u).symm.append_left _)
  have hnd1 := hperm'.nodup_iff.mpr hnd
  have hfuel : (f :: g :: gs).length < h1.next + 1 := by
    have h1 := length_lt_addrs_plug (f :: g :: gs) u
    have h2 := length_le_of_nodup_lt hnd1 fun b hb => Nat.lt_of_lt_of_le (by
      rcases List.mem_cons.mp (hperm'.mem_iff.mp hb) with rfl | hb
      · exact Nat.lt_succ_self _
      · exact Nat.lt_succ_of_lt (hlt b hb)) k1.next
    rw [(addrs_plug (f :: g :: gs) u).length_eq] at h1
    omega
  obtain ⟨h2, hrun2, hd2, k2⟩ := hashToRootLoop_spec (t := u) hc1 hl1 (k1.dataOf (by simp) hud)
    (fun e he => by
      rcases List.mem_cons.mp he with rfl | he
      · exact k1.dataOf (by simp) htd
      · exact k1.dataOf (by simp) (hsd e he)) hnd1 hfuel
  have hroot : Rooted h2 (plug (f :: g :: gs) u) :=
    rooted_plug.mpr ⟨k2.ctx (by simp) (by simp) hc1, k2.links (by simp) (by simp) (by simp) hl1⟩
  refine ⟨h1, h2, hrun, hrun2, ?_⟩
  have hmem : ∀ {b}, b ∈ h.next :: (t.addrs ++ (u.addrs ++ ctxAddrs (g :: gs))) →
      b ∈ h.next :: (t.addrs ++ (plug (g :: gs) u).addrs) := hperm.mem_iff.mpr
  refine hr.grow ((keeps_alloc h ⟨none, none, none, pHash, full⟩).trans (k1.trans k2)) ?_
    ⟨hroot, hd2⟩ ((addrs_plug (f :: g :: gs) u).trans hperm')
    (Nat.lt_of_lt_of_le (Nat.lt_succ_self h.next) (k1.next.trans k2.next))
  intro b hb
  refine hmem ?_
  have howner := owner_mem gs g.addr
  have htk := t.kids_subset b
  have huk := u.kids_subset b
  have hgk := g.sib.kids_subset b
  have hgs : b ∈ gs.map Frame.addr → b ∈ ctxAddrs gs := fun hb => by
    obtain ⟨e, he, rfl⟩ := List.mem_map.mp hb
    exact mem_ctxAddrs_addr he
  simp only [ctxAddrs, PTree.addrs_eq, List.mem_append, List.mem_cons, List.map_cons,
    List.not_mem_nil, f] at hb howner ⊢
  grind

omit [DecidableEq H] in
/-- **A subtree comes back beside a root**, which moves to a new node. -/
theorem growRoot_spec (hr : HeapRep h (.full u :: .full t :: rest)) (pos : Nat) (full : Bool) :
    ∃ h1, Pollard.moveDownRoot (h.alloc ⟨none, none, none,
        calculateParentHash h pos t.addr u.addr, full⟩).2 pos t.addr u.addr h.next = .ok h1 ∧
      (h1.get h.next).data = treeHash u.tree ∧
      HeapRep h1 (.full (Frame.fill ⟨u.addr, isLeftNiece pos, t⟩ (u.withAddr h.next)) :: rest) := by
  set c : PolNode H := ⟨none, none, none, calculateParentHash h pos t.addr u.addr, full⟩ with c_def
  have hget : (h.alloc c).2.get h.next = c := if_pos rfl
  obtain ⟨hu, hud⟩ := hr.keeps_alloc c (.full u) (by simp)
  obtain ⟨ht, htd⟩ := hr.keeps_alloc c (.full t) (by simp)
  obtain ⟨hnd, hlt⟩ := hr.nodup_new
  have hpos : 1 ≤ h.next := Nat.zero_lt_of_lt (hlt u.addr (by simp [u.addr_mem]))
  obtain ⟨h1, hrun, hroot, hdb, hdu, k⟩ := moveDownRoot_spec pos
    (show 2 ≤ (h.alloc c).2.next from Nat.succ_le_succ hpos) hu ht (by rw [hget]) hnd
  have hhash : c.data =
      treeHash (Frame.fill ⟨u.addr, isLeftNiece pos, t⟩ (u.withAddr h.next)).tree := by
    have h1 := (hr.ok (.full u) (by simp)).2.hash
    have h2 := (hr.ok (.full t) (by simp)).2.hash
    rw [tree_fill, PTree.withAddr_tree, c_def, calculateParentHash, h1, h2]
    split <;> rfl
  have hnd' := hnd
  simp only [PTree.addrs_eq, List.nodup_cons, List.nodup_append, List.mem_cons, List.mem_append,
    List.cons_append] at hnd'
  have hdata : Data h1 (Frame.fill ⟨u.addr, isLeftNiece pos, t⟩ (u.withAddr h.next)) := by
    refine data_fill.mpr ⟨?_, k.dataWithAddr ?_ hdb hud, k.dataOf ?_ htd⟩
    · rw [hdu, hget, hhash]
    · grind
    · rw [PTree.addrs_eq]
      grind
  refine ⟨h1, hrun, hdb.trans hud.hash, hr.grow ((keeps_alloc h c).trans k) ?_ ⟨hroot, hdata⟩ ?_
    (Nat.lt_of_lt_of_le (Nat.lt_succ_self h.next) k.next)⟩
  · intro b hb
    have htk := t.kids_subset b
    have huk := u.kids_subset b
    simp only [PTree.addrs_eq, List.mem_append, List.mem_cons, List.not_mem_nil] at hb ⊢
    grind
  · refine (addrs_fill _ _).trans ?_
    rw [PTree.addrs_eq (u.withAddr h.next), PTree.withAddr_addr, PTree.withAddr_desc, u.addrs_eq]
    refine (List.Perm.swap _ _ _).trans (List.Perm.cons _ ?_)
    exact (List.perm_append_comm.cons u.addr).trans List.perm_middle.symm

end Grow

/-! ### One subtree -/

section Step
variable {p : Pollard H M} {E : List (PTree H)} {t : PTree H} {x : Node} {j i : Nat} {R : PRoot H}

omit [DecidableEq H] [HashOps H] in
/-- The tree with index `i`, and the subtree that comes back. -/
theorem perm_trees (E : List (PTree H)) (t : PTree H) (hR : F[i]? = some R) :
    (F ++ (E ++ [t]).map PRoot.full).Perm
      (R :: .full t :: (F.eraseIdx i ++ E.map PRoot.full)) := by
  obtain ⟨hi, rfl⟩ := List.getElem?_eq_some_iff.mp hR
  rw [List.map_append, ← List.append_assoc]
  refine List.perm_append_comm.trans ?_
  refine ((List.getElem_cons_eraseIdx_perm hi).symm.append_right _).cons _ |>.trans ?_
  exact List.Perm.swap _ _ _

omit [DecidableEq H] in
theorem Pollard.Regrowing.toRep (hp : p.Regrowing Q F E slots) : p.Rep F :=
  ⟨hp.heap.of_sublist (List.sublist_append_left _ _), hp.roots⟩

omit [DecidableEq H] in
theorem Pollard.Regrowing.heap_at (hp : p.Regrowing Q F (E ++ [t]) slots) (hR : F[i]? = some R) :
    HeapRep p.heap (R :: .full t :: (F.eraseIdx i ++ E.map PRoot.full)) :=
  hp.heap.perm (perm_trees E t hR)

omit [DecidableEq H] in
theorem Pollard.Regrowing.map_at (hp : p.Regrowing Q F (E ++ [t]) slots) (hR : F[i]? = some R) :
    MapOk Q p.nodeMap
      ((R :: .full t :: (F.eraseIdx i ++ E.map PRoot.full)).flatMap PRoot.cells) [] :=
  hp.map.congr fun _ _ _ => ((perm_trees E t hR).flatMap_right PRoot.cells).mem_iff.symm

/-- **One tree with its subtree again.** -/
theorem Pollard.Regrowing.put (hp : p.Regrowing Q F (E ++ [t]) (delSlots slots t.tree.leaves))
    (hn : slots.length ≤ 2 ^ 63) (hnd : (liveLeaves slots).Nodup)
    (hx : placed slots x = some t.tree) (hj : (x.up j).IsRoot slots.length)
    (hi : i = (rootRows slots.length (x.row + j + 1)).length) (hR : F[i]? = some R)
    {h' : Heap H} {m : Finmap fun _ : M => Addr} (R' : PRoot H)
    (hr : HeapRep h' (R' :: (F.eraseIdx i ++ E.map PRoot.full)))
    (hopt : R'.opt = rootTree slots (x.row + j))
    (hm : MapOk Q m ((R' :: (F.eraseIdx i ++ E.map PRoot.full)).flatMap PRoot.cells) [])
    (hkeys : ∀ k ∈ m, k ∈ p.nodeMap) :
    Pollard.Regrowing Q { p with heap := h', nodeMap := m, roots := (F.set i R').map PRoot.addr }
      (F.set i R') E slots := by
  have hperm : (F.set i R' ++ E.map PRoot.full).Perm
      (R' :: (F.eraseIdx i ++ E.map PRoot.full)) :=
    (List.set_perm_cons_eraseIdx (List.getElem?_eq_some_iff.mp hR).1 R').append_right _
  refine ⟨hr.perm hperm.symm, rfl, ?_, ?_, hp.full, ?_,
    fun a b hQ hmem => hp.keys a b hQ (hkeys _ hmem)⟩
  · rw [List.map_set, hp.trees, forestTrees_delSlots_set (by omega) hnd hx hj, ← hi, List.set_set,
      hopt]
    obtain ⟨hlt, hget⟩ := List.getElem?_eq_some_iff.mp (hi ▸ forestTrees_getElem hn hj)
    rw [← hget, List.set_getElem_self]
  · rw [← length_delSlots slots t.tree.leaves]
    exact hp.numLeaves
  · exact hm.congr fun _ _ _ => (hperm.flatMap_right PRoot.cells).mem_iff

/-- The tree that the subtree was in. -/
theorem Pollard.Regrowing.tree_at {D : CTree H} (hp : p.Regrowing Q F E (delSlots slots D.leaves))
    (hn : slots.length ≤ 2 ^ 63) (hnd : (liveLeaves slots).Nodup) (hx : placed slots x = some D)
    (hj : (x.up j).IsRoot slots.length) :
    ∃ R T, F[(rootRows slots.length (x.row + j + 1)).length]? = some R ∧
      rootTree slots (x.row + j) = some T ∧ T.subAt (x.path j) = some D ∧
      R.opt = T.removeAt (x.path j) := by
  have hlt := (List.getElem?_eq_some_iff.mp (forestTrees_getElem hn hj)).1
  have hget := congrArg (·[(rootRows slots.length (x.row + j + 1)).length]?) hp.trees
  rw [forestTrees_delSlots_set (by omega) hnd hx hj] at hget
  simp only [List.getElem?_map, List.getElem?_set_self hlt] at hget
  obtain ⟨R, hR, hopt⟩ := Option.map_eq_some_iff.mp hget
  rw [placed_eq (by omega) hj] at hx
  obtain ⟨T, hT, hsub⟩ := Option.bind_eq_some_iff.mp hx
  rw [hT, Option.bind_some] at hopt
  exact ⟨R, T, hR, hT, hsub, hopt⟩

/-- A whole tree comes back. -/
theorem Pollard.Regrowing.undo_root
    (hp : p.Regrowing Q F (E ++ [t]) (delSlots slots t.tree.leaves)) (hn : slots.length ≤ 2 ^ 63)
    (hnd : (liveLeaves slots).Nodup) (hx : placed slots x = some t.tree)
    (hroot : x.IsRoot slots.length) (pnps : List NodeAndPos) :
    ∃ (p' : Pollard H M) (F' : List (PRoot H)),
      p.undoDelLoop (nodeAndPos (treeRows slots.length) (x, t) :: pnps) = p'.undoDelLoop pnps ∧
      p'.Regrowing Q F' E slots ∧ p'.numDels = p.numDels := by
  have hnum : p.numLeaves = slots.length := by rw [hp.numLeaves, length_delSlots]
  have hj : (x.up 0).IsRoot slots.length := by rwa [Node.up_zero]
  obtain ⟨R, T, hR, hT, hsub, hopt⟩ := hp.tree_at hn hnd hx hj
  rw [Node.path_zero, CTree.subAt_nil] at hsub
  rw [Node.path_zero, CTree.removeAt_nil] at hopt
  cases R with
  | full T' => cases hopt
  | vacant a =>
    refine ⟨_, _, ?_, hp.put hn hnd hx hj rfl hR (.full t)
      ((hp.heap_at hR).of_sublist (List.sublist_cons_self _ _)) (hT.trans hsub).symm
      (hp.map_at hR) (fun _ h => h), rfl⟩
    obtain ⟨bits, -, hoff⟩ := detectOffset_nodePos hn hj
    have hfit := fits_of_inForest (le_two_pow_treeRows _) hroot.inForest
    have hlt : (rootRows slots.length (x.row + 0 + 1)).length < p.roots.length := by
      rw [hp.roots, List.length_map]
      exact (List.getElem?_eq_some_iff.mp hR).1
    rw [undoDelLoop, nodeAndPos, hnum, if_pos ((isRootPosition_nodePos hn hfit).mpr hroot), hoff]
    simp only
    rw [if_pos hlt, hp.roots, List.map_set]
    rfl

omit [DecidableEq H] [HashOps H] in
/-- The tree is the same once the subtree is back beside its sibling. -/
theorem tree_grow {T D : CTree H} {q : List Bool} {b : Bool} {f : Frame H} (fs : List (Frame H))
    {u : PTree H} (hD : T.subAt (q ++ [b]) = some D)
    (htree : (plug fs u).tree = T.updateAt (CTree.lift b) q) (hq : turns fs = q)
    (hf : f.right = !b) (hsib : f.sib.tree = D) : (plug (f :: fs) u).tree = T := by
  have hgrow := tree_plug_updateAt (fun _ => (f.fill u).tree) fs (t := u) (u := f.fill u) (q := [])
    (by rw [CTree.updateAt_nil])
  rw [List.append_nil, hq, htree, CTree.updateAt_updateAt] at hgrow
  rw [plug, hgrow]
  refine (CTree.updateAt_congr fun s hs => ?_).trans (CTree.updateAt_id T q)
  have hu := subAt_plug fs u []
  rw [hq, htree, CTree.subAt_updateAt, hs] at hu
  rw [CTree.subAt_concat, hs, Option.bind_some] at hD
  cases s with
  | leaf a => cases hD
  | node l r =>
    simp only [Option.bind_some, CTree.subAt_nil, Option.some.injEq, CTree.lift] at hu
    simp only [CTree.child, Option.some.injEq] at hD
    rw [Function.comp_apply, tree_fill, ← hu, hsib, ← hD, hf, id]
    cases b <;> rfl

omit [HashOps H] in
/-- What is placed at the parent until the subtree is back. -/
theorem placed_parent_delSlots (hn : slots.length ≤ 2 ^ 63) (hnd : (liveLeaves slots).Nodup)
    {D : CTree H} (hx : placed slots x = some D) (hp : x.parent.InForest slots.length) :
    ∃ S, placed (delSlots slots D.leaves) x.parent = some S := by
  obtain ⟨S, hS, -⟩ := placed_parent (by omega) hp hx
  refine ⟨S, ?_⟩
  rw [placed_delSlots_moved (by omega) hnd hx (Node.not_isRoot_of_parent hp) (z := x.sibling)
    (j := 0) (Node.up_zero _) (Node.up_zero _) rfl, hS]

omit [DecidableEq H] in
/-- `undoSingleDel` looks the parent's position up. -/
theorem Pollard.Regrowing.undoDelLoop_node (hp : p.Regrowing Q F E slots)
    (hn : slots.length ≤ 2 ^ 63) (hin : x.parent.InForest slots.length) {p' : Pollard H M}
    (hrun : p.undoNode t.addr (nodePos (treeRows slots.length) x)
      (p.getNode (nodePos (treeRows slots.length) x.parent)) = .ok (p', .ok ()))
    (pnps : List NodeAndPos) :
    p.undoDelLoop (nodeAndPos (treeRows slots.length) (x, t) :: pnps) = p'.undoDelLoop pnps := by
  have hfit := fits_of_inForest (le_two_pow_treeRows _) (Node.inForest_of_parent hin)
  have hnr : isRootPosition (nodePos (treeRows slots.length) x) slots.length ≠ true := by
    rw [ne_eq, isRootPosition_nodePos hn hfit]
    exact Node.not_isRoot_of_parent hin
  rw [undoDelLoop, nodeAndPos, hp.numLeaves, if_neg hnr, undoSingleDel, hp.numLeaves,
    (parent_nodePos_of_inForest hn hin).1, hrun]
  rfl

theorem isLeftNiece_eq {k : Nat} (hx : Fits k x) : isLeftNiece (nodePos k x) = !x.isRight := by
  rw [isLeftNiece_nodePos hx, Node.isRight, ← decide_not, decide_eq_decide]
  omega

omit [DecidableEq H] [HashOps H] in
/-- The address of the root stays the same. -/
theorem roots_set {rs : List Addr} (hrs : rs = F.map PRoot.addr) (hR : F[i]? = some R)
    {R' : PRoot H} (haddr : R'.addr = R.addr) : (F.set i R').map PRoot.addr = rs := by
  obtain ⟨hi, rfl⟩ := List.getElem?_eq_some_iff.mp hR
  rw [hrs, List.map_set, haddr, ← List.map_set, List.set_getElem_self]

omit [DecidableEq H] [HashOps H] in
theorem mem_cells_grow (f : Frame H) (fs : List (Frame H)) {u : PTree H} {e : Addr × H} :
    e ∈ (plug (f :: fs) u).cells ↔ e ∈ (plug fs u).cells ∨ e ∈ f.sib.cells := by
  rw [mem_cells_plug, mem_cells_plug, List.exists_mem_cons_iff, ← or_assoc, or_right_comm]

/-- A subtree comes back below a root. -/
theorem Pollard.Regrowing.undo_below
    (hp : p.Regrowing Q F (E ++ [t]) (delSlots slots t.tree.leaves)) (hn : slots.length ≤ 2 ^ 63)
    (hnd : (liveLeaves slots).Nodup) (hx : placed slots x = some t.tree)
    (hj : (x.up (j + 2)).IsRoot slots.length) (pnps : List NodeAndPos) :
    ∃ (p' : Pollard H M) (F' : List (PRoot H)),
      p.undoDelLoop (nodeAndPos (treeRows slots.length) (x, t) :: pnps) = p'.undoDelLoop pnps ∧
      p'.Regrowing Q F' E slots ∧ p'.numDels = p.numDels := by
  have hlen : (delSlots slots t.tree.leaves).length = slots.length := length_delSlots _ _
  have hjp : (x.parent.up (j + 1)).IsRoot slots.length := by rwa [Node.parent_up]
  have hin : x.parent.InForest slots.length := Node.inForest_of_up hjp.inForest
  obtain ⟨S, hS⟩ := placed_parent_delSlots hn hnd hx hin
  obtain ⟨R, T, hR, hT, hsub, hopt⟩ := hp.tree_at hn hnd hx hj
  obtain ⟨g, gs, u, par, hR', hturns, -, hget⟩ := hp.toRep.getNode_placed (by rwa [hlen]) hp.trees
    hp.numLeaves hS (by rwa [hlen])
  set i := (rootRows slots.length (x.row + (j + 2) + 1)).length with hi
  have hrow : x.row + 1 + (j + 1) + 1 = x.row + (j + 2) + 1 := by omega
  rw [hlen, show x.parent.row = x.row + 1 from rfl, hrow, ← hi, hR, Option.some.injEq] at hR'
  subst hR'
  have hheap := hp.heap_at hR
  obtain ⟨h1, h2, hrun1, hrun2, hr2⟩ := growNode_spec hheap (nodePos (treeRows slots.length) x)
    (calculateParentHash p.heap (nodePos (treeRows slots.length) x) t.addr u.addr) p.full
  rw [Node.path_succ] at hsub hopt
  rw [CTree.removeAt_concat] at hopt
  have hfit := fits_of_inForest (le_two_pow_treeRows _) (placed_inForest hx)
  set f : Frame H := ⟨p.heap.next, isLeftNiece (nodePos (treeRows slots.length) x), t⟩
  have htree : (plug (f :: g :: gs) u).tree = T :=
    tree_grow (g :: gs) hsub (Option.some.inj hopt) hturns (isLeftNiece_eq hfit) rfl
  have hput := hp.put hn hnd hx hj hi hR _ hr2 ((congrArg some htree).trans hT.symm)
    ((hp.map_at hR).congr fun b y _ => by
      simp only [List.flatMap_cons, PRoot.cells, List.mem_append, mem_cells_grow, or_assoc, f])
    (fun _ h => h)
  have haddr : (PRoot.full (plug (f :: g :: gs) u)).addr = (PRoot.full (plug (g :: gs) u)).addr :=
    plug_addr g gs _ u
  rw [roots_set hp.roots hR haddr] at hput
  refine ⟨{ p with heap := h2 }, _, ?_, hput, rfl⟩
  rw [← hlen]
  refine hp.undoDelLoop_node (by rwa [hlen]) (by rwa [hlen]) ?_ pnps
  have haunt : ((p.heap.alloc ⟨none, none, none, calculateParentHash p.heap
      (nodePos (treeRows slots.length) x) t.addr u.addr, p.full⟩).2.get u.addr).aunt.isSome := by
    have hroot := (hheap.keeps_alloc ⟨none, none, none, calculateParentHash p.heap
      (nodePos (treeRows slots.length) x) t.addr u.addr, p.full⟩ _ List.mem_cons_self).1
    rw [(rooted_plug.mp hroot).1.2.1.1]
    rfl
  rw [hget, hlen, undoNode]
  simp only [deref, Exec.ok_bind]
  rw [if_pos haunt]
  change moveDownNode _ _ _ _ p.heap.next _ >>= _ = _
  rw [hrun1, Exec.ok_bind]
  change hashToRoot h1 (some p.heap.next) >>= _ = _
  rw [hrun2, Exec.ok_bind]

omit [DecidableEq H] in
/-- The node map when the root above a subtree has moved to `b`. -/
theorem MapOk.moved {h : Heap H} {m : Finmap fun _ : M => Addr} {rest : List (PRoot H)}
    {u : PTree H} {f : Frame H} (hr : HeapRep h (.full u :: .full f.sib :: rest))
    (hm : MapOk Q m ((.full u :: .full f.sib :: rest).flatMap PRoot.cells) [])
    (hkeys : ∀ a b : H, Q (mini (parentHash a b)) → mini (parentHash a b) ∉ m) (b : Addr) :
    MapOk Q (if mini (treeHash u.tree) ∈ m then m.insert (mini (treeHash u.tree)) b else m)
      ((.full (f.fill (u.withAddr b)) :: rest).flatMap PRoot.cells) [] := by
  have hcells : ∀ e, e ∈ (.full (f.fill (u.withAddr b)) :: rest).flatMap PRoot.cells ↔
      e ∈ (u.withAddr b).cells ∨ e ∈ (.full f.sib :: rest).flatMap PRoot.cells := by
    intro e
    have hfill : e ∈ (f.fill (u.withAddr b)).cells ↔ e ∈ (u.withAddr b).cells ∨ e ∈ f.sib.cells :=
      mem_cells_grow f []
    rw [List.flatMap_cons, List.mem_append, PRoot.cells, hfill, List.flatMap_cons, List.mem_append,
      or_assoc]
    rfl
  have hold : ∀ e, e ∈ (.full u :: .full f.sib :: rest).flatMap PRoot.cells ↔
      e ∈ u.cells ∨ e ∈ (.full f.sib :: rest).flatMap PRoot.cells := by
    intro e
    rw [List.flatMap_cons, List.mem_append]
    rfl
  cases u with
  | node a l r =>
    refine hm.of_lookup (fun k hQ => ?_) fun c y _ _ => (hcells (c, y)).trans (hold (c, y)).symm
    by_cases hk : k = mini (treeHash (PTree.node a l r).tree)
    · subst hk
      have hno : mini (treeHash (PTree.node a l r).tree) ∉ m := hkeys _ _ hQ
      rw [if_neg hno]
    · exact lookup_reentered hk _
  | leaf a y =>
    have hother : ∀ c z, z ≠ y → ((c, z) ∈ (.full (f.fill ((PTree.leaf a y).withAddr b)) ::
        rest).flatMap PRoot.cells ↔
          (c, z) ∈ (.full (PTree.leaf a y) :: .full f.sib :: rest).flatMap PRoot.cells) := by
      intro c z hz
      rw [hcells, hold, PTree.withAddr, PTree.cells, PTree.cells, List.mem_singleton,
        List.mem_singleton, Prod.mk.injEq, Prod.mk.injEq]
      exact or_congr_left (iff_of_false (fun h => hz h.2) fun h => hz h.2)
    by_cases hQ : Q (mini y)
    swap
    · refine hm.of_lookup (fun k hk => lookup_reentered ?_ _) fun c z _ hzQ => hother c z ?_
      · rintro rfl
        exact hQ hk
      · rintro rfl
        exact hQ hzQ
    have hfound : m.lookup (mini (treeHash (PTree.leaf a y).tree)) = some a :=
      (hm _ hQ a).mpr ⟨y, (hold _).mpr (Or.inl (by simp [PTree.cells])), List.not_mem_nil, rfl⟩
    rw [if_pos (by rw [← Finmap.lookup_isSome, hfound]; rfl)]
    -- No other leaf has the key, since the node map leads to one node only.
    have hfar : ∀ e ∈ (.full f.sib :: rest).flatMap PRoot.cells, mini (M := M) e.2 ≠ mini y := by
      intro e he hkey
      have hlook := (hm (mini e.2) (hkey ▸ hQ) e.1).mpr
        ⟨e.2, (hold _).mpr (Or.inr he), List.not_mem_nil, rfl⟩
      rw [hkey] at hlook
      obtain rfl : a = e.1 := Option.some.inj (hfound.symm.trans hlook)
      obtain ⟨R, hR, heR⟩ := List.mem_flatMap.mp he
      have hnd := hr.nodup
      rw [List.flatMap_cons, List.nodup_append] at hnd
      exact hnd.2.2 e.1 (PTree.addr_mem _) e.1
        (List.mem_flatMap.mpr ⟨R, hR, R.cells_fst_subset e heR⟩) rfl
    refine MapOk.move (y := y) hm List.not_mem_nil (fun c => ?_) (fun c z hz _ => hother c z hz)
      fun e he _ hkey => ?_
    · rw [hcells, PTree.withAddr, PTree.cells, List.mem_singleton, Prod.mk.injEq]
      exact ⟨fun h => h.elim And.left fun h => absurd rfl (hfar _ h), fun h => Or.inl ⟨h, rfl⟩⟩
    · rcases (hcells e).mp he with he | he
      · rw [PTree.withAddr, PTree.cells, List.mem_singleton] at he
        rw [he]
      · exact absurd hkey (hfar e he)

/-- A subtree comes back beside a root. -/
theorem Pollard.Regrowing.undo_beside
    (hp : p.Regrowing Q F (E ++ [t]) (delSlots slots t.tree.leaves)) (hn : slots.length ≤ 2 ^ 63)
    (hnd : (liveLeaves slots).Nodup) (hx : placed slots x = some t.tree)
    (hj : (x.up 1).IsRoot slots.length) (pnps : List NodeAndPos) :
    ∃ (p' : Pollard H M) (F' : List (PRoot H)),
      p.undoDelLoop (nodeAndPos (treeRows slots.length) (x, t) :: pnps) = p'.undoDelLoop pnps ∧
      p'.Regrowing Q F' E slots ∧ p'.numDels = p.numDels := by
  have hlen : (delSlots slots t.tree.leaves).length = slots.length := length_delSlots _ _
  have hroot : x.parent.IsRoot slots.length := by rwa [← Node.up_one]
  obtain ⟨R, T, hR, hT, hsub, hopt⟩ := hp.tree_at hn hnd hx hj
  obtain ⟨R', bits, hR', -, -, hget⟩ := hp.toRep.getNode_eq (x := x.parent) (j := 0)
    (by rwa [hlen]) hp.trees hp.numLeaves (by rwa [hlen, Node.up_zero])
  rw [hlen, show x.parent.row + 0 = x.row + 1 from rfl, hR, Option.some.injEq] at hR'
  subst hR'
  rw [Node.path_succ, Node.path_zero] at hsub hopt
  rw [CTree.removeAt_concat] at hopt
  cases R with
  | vacant a => cases hopt
  | full u =>
    have hheap := hp.heap_at hR
    have hfit := fits_of_inForest (le_two_pow_treeRows _) (placed_inForest hx)
    obtain ⟨h1, hrun, hdata, hr1⟩ := growRoot_spec hheap (nodePos (treeRows slots.length) x) p.full
    set f : Frame H := ⟨u.addr, isLeftNiece (nodePos (treeRows slots.length) x), t⟩
    have htree : (f.fill (u.withAddr p.heap.next)).tree = T := by
      rw [tree_fill, PTree.withAddr_tree, ← tree_fill]
      exact tree_grow [] hsub (Option.some.inj hopt) rfl (isLeftNiece_eq hfit) rfl
    have hput := hp.put hn hnd hx hj rfl hR _ hr1 ((congrArg some htree).trans hT.symm)
      (MapOk.moved (f := f) hheap (hp.map_at hR) hp.keys p.heap.next) (fun k hk => by
        split at hk
        · next hmem =>
          rw [Finmap.mem_insert] at hk
          exact hk.elim (fun h => h ▸ hmem) id
        · exact hk)
    have haddr : (PRoot.full (f.fill (u.withAddr p.heap.next))).addr = (PRoot.full u).addr :=
      Frame.fill_addr f _
    rw [roots_set hp.roots hR haddr] at hput
    refine ⟨_, _, ?_, hput, rfl⟩
    rw [← hlen]
    refine hp.undoDelLoop_node (by rwa [hlen]) (by rw [hlen]; exact hroot.inForest) ?_ pnps
    have haunt : ((p.heap.alloc ⟨none, none, none, calculateParentHash p.heap
        (nodePos (treeRows slots.length) x) t.addr u.addr, p.full⟩).2.get u.addr).aunt = none :=
      (hheap.keeps_alloc ⟨none, none, none, calculateParentHash p.heap
        (nodePos (treeRows slots.length) x) t.addr u.addr, p.full⟩ _ List.mem_cons_self).1.1
    rw [hget, hlen, getNodeLoop, undoNode]
    simp only [deref, Exec.ok_bind, PRoot.addr, haunt, Option.isSome_none, Bool.false_eq_true,
      if_false]
    change moveDownRoot _ _ _ _ p.heap.next >>= _ = _
    rw [hrun, Exec.ok_bind]
    change Except.ok (({ p with
      heap := h1
      nodeMap := if mini (h1.get p.heap.next).data ∈ p.nodeMap
        then p.nodeMap.insert (mini (h1.get p.heap.next).data) p.heap.next
        else p.nodeMap } : Pollard H M), _) = _
    rw [hdata]

/-- **One round of `undoDels`** puts one subtree back. -/
theorem Pollard.Regrowing.undo_step
    (hp : p.Regrowing Q F (E ++ [t]) (delSlots slots t.tree.leaves)) (hn : slots.length ≤ 2 ^ 63)
    (hnd : (liveLeaves slots).Nodup) (hx : placed slots x = some t.tree) (pnps : List NodeAndPos) :
    ∃ (p' : Pollard H M) (F' : List (PRoot H)),
      p.undoDelLoop (nodeAndPos (treeRows slots.length) (x, t) :: pnps) = p'.undoDelLoop pnps ∧
      p'.Regrowing Q F' E slots ∧ p'.numDels = p.numDels := by
  obtain ⟨j, hj⟩ := (placed_inForest hx).exists_root
  match j with
  | 0 => exact hp.undo_root hn hnd hx (by rwa [Node.up_zero] at hj) pnps
  | 1 => exact hp.undo_beside hn hnd hx hj pnps
  | j + 2 => exact hp.undo_below hn hnd hx hj pnps

end Step

/-- **The loop of `undoDels`**, in the opposite order of the deletions. -/
theorem Pollard.Regrowing.undoDelLoop {ts : List (Node × PTree H)} :
    ∀ (slots : List (Option H)) {p : Pollard H M} {F : List (PRoot H)} {E : List (PTree H)}
      (pnps : List NodeAndPos),
      p.Regrowing Q F (E ++ ts.map Prod.snd)
        (delSlots slots ((ts.map fun e => e.2.tree).flatMap CTree.leaves)) →
      slots.length ≤ 2 ^ 63 → (liveLeaves slots).Nodup →
      Deletable slots (ts.map Prod.fst) (ts.map fun e => e.2.tree) →
      ∃ (p' : Pollard H M) (F' : List (PRoot H)),
        p.undoDelLoop ((ts.map (nodeAndPos (treeRows slots.length))).reverse ++ pnps) =
          p'.undoDelLoop pnps ∧
        p'.Regrowing Q F' E slots ∧ p'.numDels = p.numDels := by
  induction ts with
  | nil =>
    intro slots p F E pnps hp _ _ _
    exact ⟨p, F, rfl, by simpa [delSlots_nil] using hp, rfl⟩
  | cons e ts ih =>
    intro slots p F E pnps hp hn hnd hdel
    obtain ⟨x, t⟩ := e
    have hx : placed slots x = some t.tree := (List.forall₂_cons.mp hdel.placed).1
    have hlen := length_delSlots slots t.tree.leaves
    have hnd' : (liveLeaves (delSlots slots t.tree.leaves)).Nodup := by
      rw [liveLeaves_delSlots]
      exact hnd.filter _
    obtain ⟨p1, F1, hrun1, hp1, hd1⟩ := ih (delSlots slots t.tree.leaves) (E := E ++ [t])
      (nodeAndPos (treeRows slots.length) (x, t) :: pnps)
      (by rw [delSlots_append]; simpa using hp) (by rwa [hlen]) hnd' (hdel.step (by omega) hnd)
    obtain ⟨p2, F2, hrun2, hp2, hd2⟩ := hp1.undo_step hn hnd hx pnps
    refine ⟨p2, F2, ?_, hp2, hd2.trans hd1⟩
    rw [← hrun2, ← hrun1, hlen]
    simp

/-! ### All leaves of a block -/

section Block
variable {p : Pollard H M} {dels : List H} {xs : List Node}

omit [DecidableEq H] in
/-- Before a leaf is back, nothing is beside the forest. -/
theorem Pollard.Holds.regrowing (hp : p.Holds Q F slots []) (hn : slots.length ≤ 2 ^ 63)
    (hm : MiniOk Q slots) : p.Regrowing Q F [] slots := by
  refine ⟨?_, hp.rep.roots, hp.trees, hp.numLeaves, hp.full, ?_, fun a b hQ => ?_⟩
  · rw [List.map_nil, List.append_nil]
    exact hp.rep.toHeapRep
  · rw [List.map_nil, List.append_nil]
    exact hp.map
  · exact hp.not_mem_map (by omega) hQ fun y hy _ hkey => hm.parent y hy (hkey ▸ hQ) a b hkey.symm

omit [DecidableEq H] in
/-- Once all leaves are back, nothing is beside the forest. -/
theorem Pollard.Regrowing.holds (hp : p.Regrowing Q F [] slots) : p.Holds Q F slots [] := by
  refine ⟨hp.toRep, hp.trees, hp.numLeaves, hp.full, ?_⟩
  have := hp.map
  rwa [List.map_nil, List.append_nil] at this

omit [DecidableEq H] [HashOps H] in
theorem leaves_of_cells (ts : List (Node × PTree H)) :
    (ts.flatMap fun e => e.2.cells).map Prod.snd =
      (ts.map fun e => e.2.tree).flatMap CTree.leaves := by
  simp only [List.map_flatMap, List.flatMap_map, PTree.cells_snd]

/-- The leaves of a block become the subtrees that it deleted. -/
theorem Pollard.Regrowing.deTwin [SortAlg] {ts : List (Node × PTree H)}
    (hp : p.Regrowing Q F (ts.map Prod.snd) (delSlots slots dels)) (hn : slots.length ≤ 2 ^ 63)
    (hfst : ts.map Prod.fst = xs) (htree : ts.map (fun e => e.2.tree) = dels.map CTree.leaf)
    (hx : List.Forall₂ (fun x h => placed slots x = some (.leaf h)) xs dels) (hnd : dels.Nodup) :
    ∃ (heap' : Heap H) (ts' : List (Node × PTree H)),
      deTwinPolNode p.heap (SortAlg.sort NodeAndPos.pos
          (ts.map (nodeAndPos (treeRows slots.length)))) (treeRows slots.length) =
        .ok (heap', ts'.map (nodeAndPos (treeRows slots.length))) ∧
      Pollard.Regrowing Q { p with heap := heap' } F (ts'.map Prod.snd)
        (delSlots slots ((ts'.map fun e => e.2.tree).flatMap CTree.leaves)) ∧
      Deletable slots (ts'.map Prod.fst) (ts'.map fun e => e.2.tree) := by
  have hplaced : ∀ e ∈ ts, placed slots e.1 = some e.2.tree := by
    have hall : List.Forall₂ (fun x D => placed slots x = some D) (ts.map Prod.fst)
        (ts.map fun e => e.2.tree) := by
      rw [hfst, htree, List.forall₂_map_right_iff]
      exact hx
    rwa [List.forall₂_map_left_iff, List.forall₂_map_right_iff, List.forall₂_same] at hall
  obtain ⟨us, hus, hsort⟩ := exists_perm_map (SortAlg.perm NodeAndPos.pos
    (ts.map (nodeAndPos (treeRows slots.length)))) rfl
  have hfstp : (us.map Prod.fst).Perm xs := hfst ▸ hus.map _
  have hsorted := SortAlg.sorted NodeAndPos.pos (ts.map (nodeAndPos (treeRows slots.length)))
  rw [← hsort, List.pairwise_map] at hsorted
  have hanti : Antichain (us.map Prod.fst) := by
    refine antichain_of_sorted hn (fun x hxs => ?_) (hfstp.nodup_iff.mpr (nodup_places hx hnd))
      (List.pairwise_map.mpr hsorted)
    obtain ⟨a, -, ha⟩ := exists_leaf_of_mem hx (hfstp.mem_iff.mp hxs)
    exact ⟨a, ha⟩
  have hheap : HeapRep p.heap (F ++ us.map fun e => .full e.2) := by
    refine hp.heap.perm (List.Perm.append_left F ?_)
    rw [List.map_map]
    exact (hus.map _).symm
  obtain ⟨heap', ts', hrun, hr', hcells, hdel⟩ := deTwinPolNode_spec hn hheap hanti fun e he =>
    hplaced e (hus.mem_iff.mp he)
  have hperm := hcells.trans (hus.flatMap_right fun e => e.2.cells)
  have hleaves : ∀ h, h ∈ (ts'.map fun e => e.2.tree).flatMap CTree.leaves ↔ h ∈ dels := by
    intro h
    rw [← leaves_of_cells, (hperm.map _).mem_iff, leaves_of_cells, htree, List.flatMap_map]
    simp [CTree.leaves]
  refine ⟨heap', ts', by rw [← hsort, hrun], ?_, hdel⟩
  rw [delSlots_congr hleaves]
  refine ⟨?_, hp.roots, hp.trees, hp.numLeaves, hp.full, ?_, hp.keys⟩
  · rw [List.map_map]
    exact hr'
  · refine hp.map.congr fun b y _ => ?_
    have hmem : ∀ us : List (Node × PTree H), (b, y) ∈
        (F ++ (us.map Prod.snd).map PRoot.full).flatMap PRoot.cells ↔
          (b, y) ∈ F.flatMap PRoot.cells ∨ (b, y) ∈ us.flatMap fun e => e.2.cells := by
      intro us
      simp only [List.flatMap_append, List.mem_append, List.flatMap_map, PRoot.cells]
    rw [hmem, hmem, hperm.mem_iff]

/-- **`undoDels` puts the leaves of a block back.** -/
theorem Pollard.undoDels_spec [SortAlg] (hp : p.Holds Q F (delSlots slots dels) [])
    (hn : slots.length ≤ 2 ^ 63) (hm : MiniOk Q slots)
    (hx : List.Forall₂ (fun x h => placed slots x = some (.leaf h)) xs dels) (hnd : dels.Nodup) :
    ∃ p' F', p.undoDels (xs.map (nodePos (treeRows slots.length))) dels = .ok (p', .ok ()) ∧
      p'.Holds Q F' slots [] ∧ p'.numDels = sub64 p.numDels dels.length := by
  have hlen := length_delSlots slots dels
  have hlive := leaves_live hx
  have hminis : KeysApart Q ((F.flatMap PRoot.cells).map Prod.snd ++ dels) := by
    rw [cells_snd_of_trees hp.trees (by rw [hlen]; omega), liveLeaves_delSlots]
    have hmem : ∀ y ∈ (liveLeaves slots).filter (fun h => h ∉ dels) ++ dels,
        y ∈ liveLeaves slots := fun y hy =>
      (List.mem_append.mp hy).elim (fun hy => (List.mem_filter.mp hy).1) (hlive y)
    refine ⟨?_, fun ha hb => hm.inj (hmem _ ha) (hmem _ hb)⟩
    refine List.nodup_append.mpr ⟨hm.leaves_nodup.filter _, hnd, ?_⟩
    rintro a ha _ hb rfl
    exact (of_decide_eq_true (List.mem_filter.mp ha).2) hb
  obtain ⟨p1, ts, hrun1, hfst, htree, hp1, hd1⟩ :=
    (hp.regrowing (by rwa [hlen]) (hm.delSlots dels)).allocLeaves
      (k := treeRows slots.length) hx.length_eq (by simpa using hminis)
      fun d hd => hm.parent d (hlive d hd)
  obtain ⟨heap2, ts2, hrun2, hp2, hdel⟩ := Pollard.Regrowing.deTwin (by simpa using hp1) hn hfst
    htree hx hnd
  obtain ⟨p3, F3, hrun3, hp3, hd3⟩ := Pollard.Regrowing.undoDelLoop slots (E := []) [] hp2 hn
    hm.leaves_nodup hdel
  have hp4 := hp3.holds
  have hnum : p1.numLeaves = slots.length := by rw [hp1.numLeaves, hlen]
  refine ⟨{ p3 with numDels := sub64 p3.numDels dels.length }, F3, ?_,
    ⟨⟨hp4.rep.toHeapRep, hp4.rep.roots⟩, hp4.trees, hp4.numLeaves, hp4.full, hp4.map⟩, ?_⟩
  · rw [undoDels, if_neg (by rw [List.length_map, hx.length_eq, ne_eq, not_not]), hrun1]
    rw [List.append_nil] at hrun3
    have hrows : treeRows p1.numLeaves = treeRows slots.length := by rw [hnum]
    simp only [hrows, hrun2, Exec.ok_bind, hrun3, undoDelLoop]
  · rw [hd3, hd1]

end Block

end

end Utreexo
