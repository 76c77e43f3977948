import Utreexo.PollardDel
import Utreexo.PollardUndo

/-! # Undoing additions

`undoSingleAdd` splits the tree of the leaf that was added last.  The empty roots that
the leaf was moved past are not put back: the roots are those of the forest without some
of the empty ones (`Thin`), until `undoEmptyRoots` fills the gaps.
-/
namespace Utreexo
open Merkle

/-! ### Lists with some of the empty entries left out -/

/-- The second list is the first one without some of its empty entries. -/
inductive Thin {α : Type} : List (Option α) → List (Option α) → Prop
  | nil : Thin [] []
  | drop {l l' : List (Option α)} : Thin l l' → Thin (none :: l) l'
  | keep {l l' : List (Option α)} (o : Option α) : Thin l l' → Thin (o :: l) (o :: l')

namespace Thin
variable {α : Type} {l l' : List (Option α)}

theorem refl : (l : List (Option α)) → Thin l l
  | [] => .nil
  | o :: l => .keep o (refl l)

theorem concat (h : Thin l l') (o : Option α) : Thin (l ++ [o]) (l' ++ [o]) := by
  induction h with
  | nil => exact .keep o .nil
  | drop _ ih => exact .drop ih
  | keep a _ ih => exact .keep a ih

theorem concat_none (h : Thin l l') : Thin (l ++ [none]) l' := by
  induction h with
  | nil => exact .drop .nil
  | drop _ ih => exact .drop ih
  | keep a _ ih => exact .keep a ih

/-- A last entry that is not empty is there. -/
theorem of_concat_some {a : α} (h : Thin (l ++ [some a]) l') :
    ∃ l0, l' = l0 ++ [some a] ∧ Thin l l0 := by
  induction l generalizing l' with
  | nil =>
    cases h with
    | keep _ h =>
      cases h
      exact ⟨[], rfl, .nil⟩
  | cons o l ih =>
    cases h with
    | drop h =>
      obtain ⟨l0, rfl, hrest⟩ := ih h
      exact ⟨l0, rfl, .drop hrest⟩
    | keep _ h =>
      obtain ⟨l0, rfl, hrest⟩ := ih h
      exact ⟨o :: l0, rfl, .keep o hrest⟩

theorem length_le (h : Thin l l') : l'.length ≤ l.length := by
  induction h with
  | nil => exact Nat.le_refl _
  | drop _ ih => exact Nat.le_succ_of_le ih
  | keep _ _ ih => exact Nat.succ_le_succ ih

theorem eq_of_length_le (h : Thin l l') (hlen : l.length ≤ l'.length) : l' = l := by
  induction h with
  | nil => rfl
  | drop h _ =>
    have := h.length_le
    simp only [List.length_cons] at hlen
    omega
  | keep o _ ih => rw [ih (by simpa using hlen)]

end Thin

section
variable {H M : Type} [HashOps H] [DecidableEq M] [MiniHash H M]

/-! ### Splitting a root -/

omit [HashOps H] in
theorem setAunt_none {h : Heap H} {c : Addr} (hc : (h.get c).aunt = none) (a : Addr) :
    ((h.setAunt a none).get c).aunt = none := by
  by_cases ha : c = a
  · rw [ha, setAunt_self]
  · rwa [(keeps_setAunt h a none).aunt c (by simpa using ha)]

omit [HashOps H] in
theorem clearAunt_none {h : Heap H} {c : Addr} (hc : (h.get c).aunt = none) (v : Option Addr) :
    ((h.clearAunt v).get c).aunt = none := by
  cases v with
  | none => exact hc
  | some a => exact setAunt_none hc a

omit [HashOps H] in
/-- Deleting a node without an aunt gives no node an aunt. -/
theorem delNode_aunt_none {h : Heap H} {n c : Addr} (hn : (h.get n).aunt = none)
    (hc : (h.get c).aunt = none) : ((delNode h (some n)).get c).aunt = none := by
  rw [delNode, forgetNiece_eq_self (by simp [hn])]
  refine ((keeps_setRNiece _ n none).aunt c (by simp)).trans (clearAunt_none ?_ _)
  exact ((keeps_setLNiece _ n none).aunt c (by simp)).trans (clearAunt_none (setAunt_none hc n) _)

/-- **The children of a root become roots.** -/
theorem splitRoot_spec {h : Heap H} {F : List (PRoot H)} {b : Addr} {T N : PTree H}
    (hr : HeapRep h (F ++ [.full (.node b T N)])) :
    ∃ h1, swapNieces h T.addr N.addr = .ok h1 ∧
      HeapRep (delNode ((h1.setAunt T.addr none).setAunt N.addr none) (some b))
        (F ++ [.full T, .full N]) := by
  obtain ⟨⟨hroot, ⟨hl, hr'⟩, haunts, hlT, hlN⟩, hdata, hdT, hdN⟩ :=
    hr.ok (.full (.node b T N)) (by simp)
  have hl : (h.get b).lNiece = some T.addr := hl
  have hr' : (h.get b).rNiece = some N.addr := hr'
  have hold := hr.of_sublist (List.sublist_append_right F _)
  have hnd := hold.nodup
  have hlt := hold.lt
  simp only [List.flatMap_cons, List.flatMap_nil, List.append_nil, PRoot.addrs,
    PTree.addrs] at hnd hlt
  have hTk := T.kids_subset
  have hNk := N.kids_subset
  have hnd' := hnd
  simp only [PTree.addrs_eq, List.nodup_cons, List.nodup_append, List.mem_cons, List.mem_append,
    List.cons_append] at hnd'
  obtain ⟨h1, hswap, hl1, hl1', k1⟩ := swapNieces_spec
    (Nat.zero_lt_of_lt (hlt b (by simp))) hlN hlT (by grind) (by
      rw [List.nodup_append]
      grind) (by grind) (by grind)
  have k2 := keeps_setAunt h1 T.addr none
  have k3 := keeps_setAunt (h1.setAunt T.addr none) N.addr none
  set h3 := (h1.setAunt T.addr none).setAunt N.addr none with h3_def
  have k13 := k1.trans (k2.trans k3)
  have hb3 : (h3.get b).aunt = none := by
    rw [k13.aunt b (by grind)]
    exact hroot
  have hT3 : (h3.get T.addr).aunt = none := setAunt_none (setAunt_self _ _ _) _
  have hN3 : (h3.get N.addr).aunt = none := setAunt_self _ _ _
  have k4 := delNode_spec (h := h3) (n := b) (by simp [hb3])
  rw [k13.lNiece b (by grind), k13.rNiece b (by grind), hl, hr'] at k4
  have k := k13.trans k4
  -- Neither list of changes reaches below the children.
  have hlT3 : Links (delNode h3 (some b)) T.addr T :=
    ((k2.trans k3).trans k4).links (by grind) (by grind) (by grind) hl1
  have hlN3 : Links (delNode h3 (some b)) N.addr N :=
    ((k2.trans k3).trans k4).links (by grind) (by grind) (by grind) hl1'
  refine ⟨h1, hswap, ?_⟩
  rw [← List.append_nil [PRoot.full T, PRoot.full N]]
  refine HeapRep.replace (G := [.full (.node b T N)]) (by simpa using hr) k ?_ ?_ ?_ ?_
  · intro c hc
    refine Or.inl ?_
    simp only [List.flatMap_cons, List.flatMap_nil, List.append_nil, PRoot.addrs, PTree.addrs,
      PTree.addrs_eq, List.mem_append, List.mem_cons] at hc ⊢
    grind
  · intro R hR
    have hdata : ∀ {t : PTree H}, Data h t → Data (delNode h3 (some b)) t :=
      fun hd => k.dataOf (by simp) hd
    rcases (by simpa using hR : R = .full T ∨ R = .full N) with rfl | rfl
    · exact ⟨⟨delNode_aunt_none hb3 hT3, hlT3⟩, hdata hdT⟩
    · exact ⟨⟨delNode_aunt_none hb3 hN3, hlN3⟩, hdata hdN⟩
  · simpa [PRoot.addrs] using (List.nodup_cons.mp hnd).2
  · intro c hc
    have hmem : c ∈ b :: (T.addrs ++ N.addrs) := by
      simp only [List.flatMap_cons, List.flatMap_nil, List.append_nil, PRoot.addrs] at hc
      exact List.mem_cons_of_mem _ hc
    refine ⟨Or.inl (by simpa [PRoot.addrs, PTree.addrs] using hmem), ?_⟩
    exact Nat.lt_of_lt_of_le (hlt c hmem) k.next

/-- A leaf that is a root leaves. -/
theorem HeapRep.delLeaf {h : Heap H} {F : List (PRoot H)} {b : Addr} {x : H}
    (hr : HeapRep h (F ++ [.full (.leaf b x)])) : HeapRep (delNode h (some b)) F := by
  obtain ⟨⟨hroot, hl, hr'⟩, -⟩ := hr.ok (.full (.leaf b x)) (by simp)
  have hroot : (h.get b).aunt = none := hroot
  have hl : (h.get b).lNiece = none := hl
  have hr' : (h.get b).rNiece = none := hr'
  have k := delNode_spec (h := h) (n := b) (by simp [hroot])
  rw [hl, hr'] at k
  have hr0 : HeapRep h (F ++ ([.full (.leaf b x)] ++ [])) := by simpa using hr
  have hrep : HeapRep (delNode h (some b)) (F ++ ([] ++ [])) :=
    hr0.replace k (by simp [PRoot.addrs, PTree.addrs]) (by simp) (by simp) (by simp)
  simpa using hrep

/-! ### The loop -/

section Map
variable {m : Finmap fun _ : M => Addr} {cells : List (Addr × H)} {Q : M → Prop}

omit [HashOps H] in
/-- The last leaf leaves the node map. -/
theorem MapOk.pop {b : Addr} {a : H} (hm : MapOk Q m (cells ++ [(b, a)]) [])
    (hne : ∀ e ∈ cells, Q (mini e.2) → mini e.2 ≠ mini a) :
    MapOk Q (m.erase (mini a)) cells [] := by
  intro k hQ c
  by_cases hk : k = mini a
  · subst hk
    rw [Finmap.lookup_erase]
    simp only [reduceCtorEq, false_iff]
    rintro ⟨x, hx, -, he⟩
    exact hne _ hx (he ▸ hQ : Q (mini x)) he
  · rw [Finmap.lookup_erase_ne hk, hm k hQ c]
    refine exists_congr fun x => and_congr_left fun hx => ?_
    rw [List.mem_append, or_iff_left]
    rintro hmem
    obtain ⟨-, rfl⟩ : c = b ∧ x = a := by simpa using hmem
    exact hk hx.2.symm

end Map

/-- The tree `N` of the last leaf `a` has been split down to row `h`. -/
structure Splitting (Q : M → Prop) (slots : List (Option H)) (a : H) (h : Nat) (p : Pollard H M)
    (F : List (PRoot H)) (N : PTree H) : Prop where
  heap : HeapRep p.heap (F ++ [.full N])
  roots : p.roots = F.map PRoot.addr ++ [N.addr]
  trees : Thin ((rootRows slots.length h).map (rootTree slots)) (F.map PRoot.opt)
  tree : some N.tree = grownTree slots a h
  map : MapOk Q p.nodeMap (F.flatMap PRoot.cells ++ N.cells) []
  apart : KeysApart Q ((F.flatMap PRoot.cells ++ N.cells).map Prod.snd)
  keys : ∀ e ∈ F.flatMap PRoot.cells ++ N.cells, Q (mini e.2) → ∀ c d : H,
    mini (parentHash c d) ≠ mini e.2

variable {Q : M → Prop} {slots : List (Option H)} {a : H} {p : Pollard H M} {F : List (PRoot H)}
  {N : PTree H}

/-- The last round takes the leaf off. -/
theorem Splitting.last (hs : Splitting Q slots a 0 p F N) (rows : Nat) :
    ∃ p', p.undoAddLoop (rows + 1) = .ok p' ∧ p'.Rep F ∧
      MapOk Q p'.nodeMap (F.flatMap PRoot.cells) [] ∧ p'.numLeaves = p.numLeaves ∧
      p'.full = p.full ∧ p'.numDels = p.numDels := by
  obtain ⟨hheap, hroots, -, htree, hmap, hnd, -⟩ := hs
  rw [grownTree_zero] at htree
  cases N with
  | node b l r => cases htree
  | leaf b x =>
    obtain rfl : x = a := by simpa [PTree.tree] using htree
    obtain ⟨⟨-, hl, -⟩, hdata⟩ := hheap.ok (.full (.leaf b x)) (by simp)
    have hl : (p.heap.get b).lNiece = none := hl
    have hdata : (p.heap.get b).data = x := hdata
    have hlast : p.roots.getLast? = some b := by rw [hroots]; simp [PTree.addr]
    have hdrop : p.roots.dropLast = F.map PRoot.addr := by rw [hroots]; simp
    refine ⟨{ p with
      heap := delNode p.heap (some b)
      nodeMap := p.nodeMap.erase (mini (p.heap.get b).data)
      roots := p.roots.dropLast }, ?_, ⟨hheap.delLeaf, hdrop⟩, ?_, rfl, rfl, rfl⟩
    · rw [Pollard.undoAddLoop, hlast]
      simp only [hl]
    · show MapOk Q (p.nodeMap.erase (mini (p.heap.get b).data)) _ []
      rw [hdata]
      refine MapOk.pop hmap fun e he hQ hkey => ?_
      have hmem : e.2 ∈ (F.flatMap PRoot.cells).map Prod.snd := List.mem_map_of_mem he
      rw [List.map_append] at hnd
      have hx : x ∈ (PTree.leaf b x).cells.map Prod.snd := by simp [PTree.cells]
      have hex := hnd.inj (List.mem_append_left _ hmem) (List.mem_append_right _ hx) hQ hkey
      exact (List.nodup_append.mp hnd.nodup).2.2 _ hmem x hx hex

omit [HashOps H] in
theorem exists_grownTree {h : Nat} (hl : LowOnes slots.length h) (a : H) :
    ∃ G, grownTree slots a h = some G := by
  induction h with
  | zero => exact ⟨_, grownTree_zero slots a⟩
  | succ h ih =>
    have hlow := hl.of_le (Nat.le_succ h)
    obtain ⟨G, hG⟩ := ih hlow
    rw [grownTree_succ hlow (hl.testBit_of_lt (Nat.lt_succ_self h)), hG]
    cases rootTree slots h with
    | none => exact ⟨G, rfl⟩
    | some T => exact ⟨_, rfl⟩

/-- A round that splits the root. -/
theorem Splitting.split {h : Nat} (hs : Splitting Q slots a (h + 1) p F N)
    (hl : LowOnes slots.length h) (hb : slots.length.testBit h = true) (hh : h < 64) {T : CTree H}
    (hT : rootTree slots h = some T) (rows : Nat) :
    ∃ p' F' N', p.undoAddLoop (rows + 1) = p'.undoAddLoop rows ∧ Splitting Q slots a h p' F' N' ∧
      p'.numLeaves = p.numLeaves ∧ p'.full = p.full ∧ p'.numDels = p.numDels := by
  obtain ⟨hheap, hroots, htrees, htree, hmap, hnd, hkeys⟩ := hs
  rw [grownTree_succ hl hb, hT] at htree
  obtain ⟨b, l, r, rfl, hlT, hrg⟩ : ∃ b l r, N = .node b l r ∧ some l.tree = rootTree slots h ∧
      some r.tree = grownTree slots a h := by
    obtain ⟨G, hG⟩ := exists_grownTree hl a
    rw [hG] at htree
    cases N with
    | leaf b x => cases htree
    | node b l r =>
      obtain ⟨h1, h2⟩ : l.tree = T ∧ r.tree = G := by simpa [PTree.tree] using htree
      exact ⟨b, l, r, rfl, by rw [hT, h1], by rw [hG, h2]⟩
  obtain ⟨⟨-, ⟨hlN, hrN⟩, -⟩, hdata, -⟩ := hheap.ok (.full (.node b l r)) (by simp)
  have hlN : (p.heap.get b).lNiece = some l.addr := hlN
  have hrN : (p.heap.get b).rNiece = some r.addr := hrN
  have hlast : p.roots.getLast? = some b := by rw [hroots]; simp [PTree.addr]
  have hdrop : p.roots.dropLast = F.map PRoot.addr := by rw [hroots]; simp
  obtain ⟨h1, hswap, hrep⟩ := splitRoot_spec hheap
  refine ⟨{ p with
    heap := delNode ((h1.setAunt l.addr none).setAunt r.addr none) (some b)
    nodeMap := p.nodeMap.erase (mini (p.heap.get b).data)
    roots := p.roots.dropLast ++ [l.addr, r.addr] }, F ++ [.full l], r, ?_,
      ⟨?_, ?_, ?_, hrg, ?_, ?_,
    ?_⟩, rfl, rfl, rfl⟩
  · rw [Pollard.undoAddLoop, hlast]
    simp only [hlN, hrN, deref, Exec.ok_bind, hswap]
  · simpa using hrep
  · show p.roots.dropLast ++ [l.addr, r.addr] = _
    rw [hdrop]
    simp [PRoot.addr]
  · rw [rootRows_step _ hh, hb, if_pos rfl, List.map_append, List.map_append, List.map_singleton,
      List.map_singleton, ← hlT]
    exact htrees.concat _
  · refine MapOk.erase (by simpa [PTree.cells, PRoot.cells] using hmap) fun e he _ hQ hkey => ?_
    rw [show (p.heap.get b).data = _ from hdata] at hkey
    exact hkeys e (by simpa [PTree.cells, PRoot.cells] using he) hQ _ _ hkey.symm
  · simpa [PTree.cells, PRoot.cells] using hnd
  · simpa [PTree.cells, PRoot.cells] using hkeys

/-- **The loop of `undoSingleAdd`.** -/
theorem Splitting.undoAddLoop {h : Nat} :
    ∀ {rows : Nat} {p : Pollard H M} {F : List (PRoot H)} {N : PTree H},
      Splitting Q slots a h p F N → LowOnes slots.length h → h ≤ 64 → h < rows →
      ∃ p' F', p.undoAddLoop rows = .ok p' ∧ p'.Rep F' ∧
        Thin (forestTrees slots) (F'.map PRoot.opt) ∧
        MapOk Q p'.nodeMap (F'.flatMap PRoot.cells) [] ∧
        p'.numLeaves = p.numLeaves ∧ p'.full = p.full ∧ p'.numDels = p.numDels := by
  induction h with
  | zero =>
    intro rows p F N hs _ _ hrows
    obtain ⟨rows, rfl⟩ : ∃ k, rows = k + 1 := ⟨rows - 1, by omega⟩
    obtain ⟨p', hrun, hrep, hmap, hrest⟩ := hs.last rows
    exact ⟨p', F, hrun, hrep, hs.trees, hmap, hrest⟩
  | succ h ih =>
    intro rows p F N hs hl hh hrows
    have hlow := hl.of_le (Nat.le_succ h)
    have hb := hl.testBit_of_lt (Nat.lt_succ_self h)
    rcases hT : rootTree slots h with _ | T
    · -- The leaf has been moved past an empty root, which stays out.
      refine ih ⟨hs.heap, hs.roots, ?_, ?_, hs.map, hs.apart, hs.keys⟩ hlow (by omega) (by omega)
      · rw [rootRows_step _ (by omega), hb, if_pos rfl, List.map_append, List.map_singleton, hT]
        exact hs.trees.concat_none
      · rw [hs.tree, grownTree_succ hlow hb, hT]
        rfl
    · obtain ⟨rows, rfl⟩ : ∃ k, rows = k + 1 := ⟨rows - 1, by omega⟩
      obtain ⟨p1, F1, N1, hstep, hs1, h1, h2, h3⟩ := hs.split hlow hb (by omega) hT rows
      obtain ⟨p2, F2, hrun, hrep, hthin, hmap, h4, h5, h6⟩ := ih hs1 hlow (by omega)
        (show h < rows by omega)
      exact ⟨p2, F2, hstep.trans hrun, hrep, hthin, hmap, h4.trans h1, h5.trans h2, h6.trans h3⟩

/-! ### Undoing additions -/

/-- The Pollard while additions are undone: some of the empty roots are missing. -/
structure Pollard.Thinned (Q : M → Prop) (p : Pollard H M) (F : List (PRoot H))
    (slots : List (Option H)) : Prop where
  rep : p.Rep F
  trees : Thin (forestTrees slots) (F.map PRoot.opt)
  numLeaves : p.numLeaves = slots.length
  full : p.full = true
  map : MapOk Q p.nodeMap (F.flatMap PRoot.cells) []

omit [HashOps H] in
theorem Thin.leaves {l l' : List (Option (CTree H))} (h : Thin l l') :
    l'.flatMap CTree.leavesOpt = l.flatMap CTree.leavesOpt := by
  induction h with
  | nil => rfl
  | drop _ ih => simpa using ih
  | keep o _ ih => simp [ih]

theorem Pollard.Thinned.cells_snd (hp : p.Thinned Q F slots) (hn : slots.length < 2 ^ 64) :
    (F.flatMap PRoot.cells).map Prod.snd = liveLeaves slots := by
  rw [← leaves_forestTrees hn, ← hp.trees.leaves, List.map_flatMap, List.flatMap_map]
  congr 1
  funext R
  cases R with
  | vacant b => rfl
  | full t => exact t.cells_snd

theorem le_getLowestRootLoop (n rows fuel row : Nat) : row ≤ getLowestRootLoop n rows fuel row := by
  induction fuel generalizing row with
  | zero => exact Nat.le_refl _
  | succ fuel ih =>
    rw [getLowestRootLoop]
    split
    · exact Nat.le_of_succ_le (ih (row + 1))
    · exact Nat.le_refl _

/-- The lowest root is not below the row of the lowest zero. -/
theorem le_getLowestRoot {n t : Nat} (hl : LowOnes n t) (hb : n.testBit t = false)
    (hn : n + 1 < 2 ^ 64) : t ≤ getLowestRoot (n + 1) (treeRows (n + 1)) := by
  have hrows : t ≤ treeRows (n + 1) := by
    by_contra hlt
    obtain ⟨s, rfl⟩ : ∃ s, t = s + 1 := ⟨t - 1, by omega⟩
    have h1 := treeRows_le_iff.mp (show treeRows (n + 1) ≤ s by omega)
    have h2 := hl.le
    have h3 := Nat.two_pow_pos s
    rw [Nat.pow_succ] at h2
    omega
  have key : ∀ fuel row, row ≤ t → t ≤ row + fuel →
      t ≤ getLowestRootLoop (n + 1) (treeRows (n + 1)) fuel row := by
    intro fuel
    induction fuel with
    | zero => exact fun row _ h => h
    | succ fuel ih =>
      intro row hrow hf
      rcases Nat.lt_or_eq_of_le hrow with hlt | rfl
      · have hz : (n + 1) &&& shl64 1 row = 0 := by
          have := shl64_and_ne_zero (r := row) hn
          rw [hl.testBit_succ_of_gt hb hlt] at this
          simpa using this
        rw [getLowestRootLoop, if_pos ⟨by omega, hz⟩]
        exact ih (row + 1) hlt (by omega)
      · exact le_getLowestRootLoop _ _ _ _
  exact key _ 0 (Nat.zero_le t) (by omega)

/-- **`undoSingleAdd` takes the last leaf off.** -/
theorem Pollard.Thinned.undoSingleAdd (hp : p.Thinned Q F (slots ++ [some a]))
    (hm : MiniOk Q (slots ++ [some a])) (hn : slots.length + 1 < 2 ^ 64) :
    ∃ p' F', p.undoSingleAdd = .ok p' ∧ p'.Thinned Q F' slots ∧ p'.numDels = p.numDels := by
  obtain ⟨t, ht, hl, hb⟩ := exists_lowZero (show slots.length < 2 ^ 64 by omega)
  have ht64 := hl.lt_sixtyFour hn
  have hcells := hp.cells_snd (by simpa using hn)
  obtain ⟨G, hG⟩ := exists_grownTree hl a
  -- The tree of the leaf is the last one.
  have hthin := hp.trees
  rw [forestTrees_concat hl hb ht64, hG] at hthin
  obtain ⟨l0, hl0, hrest⟩ := hthin.of_concat_some
  obtain ⟨F0, N, rfl, hF0, hN⟩ :
      ∃ F0 N, F = F0 ++ [.full N] ∧ F0.map PRoot.opt = l0 ∧ N.tree = G := by
    rcases List.eq_nil_or_concat' F with rfl | ⟨F0, R, rfl⟩
    · simp at hl0
    · rw [List.map_append, List.map_singleton] at hl0
      obtain ⟨h1, h2⟩ := List.append_inj' hl0 rfl
      cases R with
      | vacant b => simp [PRoot.opt] at h2
      | full N => exact ⟨F0, N, rfl, h1, by simpa [PRoot.opt] using h2⟩
  have hall : (F0 ++ [PRoot.full N]).flatMap PRoot.cells = F0.flatMap PRoot.cells ++ N.cells := by
    simp [PRoot.cells]
  have hs : Splitting Q slots a t p F0 N := by
    refine ⟨hp.rep.toHeapRep, ?_, ?_, ?_, hall ▸ hp.map, ?_, ?_⟩
    · rw [hp.rep.roots]
      simp [PRoot.addr]
    · rw [hF0, rootRows_step _ ht64, hb]
      simpa using hrest
    · rw [hN, hG]
    · rw [← hall, hcells]
      exact hm.leaves
    · intro e he
      refine hm.parent e.2 ?_
      rw [← hcells, hall]
      exact List.mem_map_of_mem he
  have hnum : p.numLeaves = slots.length + 1 := by
    rw [hp.numLeaves]
    simp
  obtain ⟨p1, F1, hrun, hrep, htrees, hmap, h1, h2, h3⟩ := hs.undoAddLoop hl ht
    (Nat.lt_succ_of_le (le_getLowestRoot hl hb hn))
  refine ⟨{ p1 with numLeaves := sub64 p1.numLeaves 1 }, F1, ?_,
    ⟨⟨hrep.toHeapRep, hrep.roots⟩, htrees, ?_, h2.trans hp.full, hmap⟩, h3⟩
  · rw [Pollard.undoSingleAdd, hnum, hrun]
    rfl
  · show sub64 p1.numLeaves 1 = slots.length
    rw [h1, hnum, sub64_of_le hn (by omega)]
    omega

/-- **`undoAdds` takes the leaves of a block off.** -/
theorem Pollard.Thinned.undoAdds (adds : List H) :
    ∀ {p : Pollard H M} {F : List (PRoot H)}, p.Thinned Q F (slots ++ adds.map some) →
      MiniOk Q (slots ++ adds.map some) → slots.length + adds.length < 2 ^ 64 →
      ∃ p' F', p.undoAdds adds.length = .ok p' ∧ p'.Thinned Q F' slots ∧
        p'.numDels = p.numDels := by
  induction adds using List.reverseRecOn with
  | nil =>
    intro p F hp _ _
    exact ⟨p, F, rfl, by simpa using hp, rfl⟩
  | append_singleton adds a ih =>
    intro p F hp hm hn
    rw [List.map_append, List.map_singleton, ← List.append_assoc] at hp hm
    rw [List.length_append, List.length_singleton] at hn ⊢
    obtain ⟨p1, F1, hrun1, hp1, hd1⟩ := hp.undoSingleAdd hm (by simp; omega)
    have hm1 : MiniOk Q (slots ++ adds.map some) := by
      refine hm.of_sublist ?_
      rw [show liveLeaves (slots ++ adds.map some ++ [some a]) =
        liveLeaves (slots ++ adds.map some) ++ [a] by simp [liveLeaves]]
      exact List.sublist_append_left _ _
    obtain ⟨p2, F2, hrun2, hp2, hd2⟩ := ih hp1 hm1 (by omega)
    refine ⟨p2, F2, ?_, hp2, hd2.trans hd1⟩
    rw [Pollard.undoAdds, hrun1]
    exact hrun2

end

end Utreexo
