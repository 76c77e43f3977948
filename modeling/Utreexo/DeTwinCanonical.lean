import Utreexo.DeTwinHashes
import Utreexo.Loop

/-! # The canonical set of deleted subtrees

`deTwin`, `deTwinHashAndPos` and `deTwinPolNode` replace siblings by their parent in a list of
positions, of positions with hashes, and of positions with nodes.  They are one scan
(`TwinScan`).  On positions of which none is above another all three end with the same
positions: those of the greatest subtrees that the list covers, in order.
-/
namespace Utreexo
open Merkle

/-! ### The loops end -/

/-- What the three scans differ in: the test for two siblings, what replaces them, and how it
is inserted.  `γ` is what a replacement can change beside the list. -/
structure TwinScan (γ α : Type) where
  twins : α → α → Bool
  join : γ → α → α → Exec (γ × α)
  insert : List α → α → List α

namespace TwinScan
variable {γ α : Type} (S : TwinScan γ α)

/-- Whether the index is still in the list. -/
def inside (s : Nat × γ × List α) : Bool := s.1 < s.2.2.length

/-- The body of the loop. -/
def round : Nat × γ × List α → Exec (Nat × γ × List α)
  | (i, c, l) =>
    match l[i]?, l[i + 1]? with
    | some a, some b =>
      if S.twins a b then do
        let (c, e) ← S.join c a b
        .ok (i, c, S.insert (l.take i ++ l.drop (i + 2)) e)
      else .ok (i + 1, c, l)
    | _, _ => .ok (i + 1, c, l)

/-- The loop, with twice the length as the bound of its rounds. -/
def run (c : γ) (l : List α) : Exec (Nat × γ × List α) :=
  runLoop inside S.round (2 * l.length + 1) (0, c, l)

variable {S}

/-- A round moves the index on or shortens the list. -/
theorem round_measure (hins : ∀ l e, (S.insert l e).length ≤ l.length + 1)
    {s s' : Nat × γ × List α} (hc : inside s = true) (h : S.round s = .ok s') :
    2 * s'.2.2.length - s'.1 < 2 * s.2.2.length - s.1 := by
  obtain ⟨i, c, l⟩ := s
  have hlt : i < l.length := by simpa [inside] using hc
  unfold round at h
  dsimp only at h ⊢
  split at h
  · rename_i a b ha hb
    have hlt' := (List.getElem?_eq_some_iff.mp hb).1
    by_cases ht : S.twins a b = true
    · rw [if_pos ht] at h
      obtain ⟨⟨c', e⟩, -, h⟩ := Exec.bind_eq_ok.mp h
      cases h
      have hle := hins (l.take i ++ l.drop (i + 2)) e
      rw [List.length_append, List.length_take, List.length_drop] at hle
      dsimp only
      omega
    · rw [if_neg ht] at h
      cases h
      dsimp only
      omega
  · cases h
    dsimp only
    omega

/-- A scan with fuel that returns has come to its end. -/
theorem run_of_fuelled {f : Nat → Nat × γ × List α → Exec (γ × List α)}
    (hgo : ∀ fuel i c l, i < l.length → f (fuel + 1) (i, c, l) = S.round (i, c, l) >>= f fuel)
    (hend : ∀ fuel i c l, l.length ≤ i → f (fuel + 1) (i, c, l) = .ok (c, l))
    (hins : ∀ l e, (S.insert l e).length ≤ l.length + 1) {c : γ} {l : List α} {r : γ × List α}
    (h : f (2 * l.length + 1) (0, c, l) = .ok r) : ∃ i, S.run c l = .ok (i, r) := by
  have hf : ∀ fuel s, f (fuel + 1) s = if inside s then S.round s >>= f fuel else .ok s.2 := by
    rintro fuel ⟨i, c, l⟩
    by_cases hi : inside (i, c, l) = true
    · rw [if_pos hi]
      exact hgo fuel i c l (by simpa [inside] using hi)
    · rw [if_neg hi]
      exact hend fuel i c l (by simpa [inside] using hi)
  obtain ⟨⟨i, t⟩, ht, rfl⟩ := runLoop_of_fuelled (m := fun s => 2 * s.2.2.length - s.1) hf
    (fun s s' hc hs => round_measure hins hc hs)
    (show 2 * l.length - 0 < 2 * l.length + 1 by omega) h
  exact ⟨i, ht⟩

end TwinScan

/-- The scan of `deTwin`. -/
def deTwinScan (forestRows : Nat) : TwinScan Unit Nat :=
  ⟨fun pos next => rightSib pos = next, fun _ pos _ => .ok ((), parent pos forestRows),
    insertInOrder⟩

theorem deTwin_ends (k : Nat) (dels : List Nat) :
    ∃ i, (deTwinScan k).run () dels = .ok (i, (), deTwin dels k) := by
  apply TwinScan.run_of_fuelled (f := fun fuel s => .ok ((), deTwinLoop k fuel s.1 s.2.2))
  · intro fuel i c l hi
    dsimp only
    rw [deTwinLoop, if_pos hi, TwinScan.round]
    rcases l[i]? with _ | pos
    · rfl
    · rcases l[i + 1]? with _ | next
      · rfl
      · by_cases hsib : rightSib pos = next <;> simp [deTwinScan, hsib]
  · intro fuel i c l hi
    dsimp only
    rw [deTwinLoop, if_neg (Nat.not_lt.mpr hi)]
  · intro l e
    change (insertInOrder l e).length ≤ _
    rw [insertInOrder_eq, List.orderedInsert_length]
  · rfl

section
variable {H : Type} [HashOps H]

/-- The scan of `deTwinHashAndPos`. -/
def deTwinHashAndPosScan (forestRows : Nat) : TwinScan Unit (Nat × H) :=
  ⟨fun e next => rightSib e.1 = next.1,
    fun _ e next => .ok ((), parent e.1 forestRows, parentHash e.2 next.2),
    fun hnp e => mergeSortedHashAndPos hnp [e]⟩

omit [HashOps H] in
theorem length_mergeLoop_le (j : Nat) (a b : List (Nat × H)) :
    (mergeLoop j a b).length ≤ a.length + b.length := by
  fun_induction mergeLoop j a b with
  | case1 => simp
  | case2 => simp
  | case3 => simp
  | case4 _ _ _ _ _ _ _ _ ih =>
    simp only [List.length_cons] at ih ⊢
    omega
  | case5 _ _ _ _ _ _ _ _ _ ih =>
    simp only [List.length_cons] at ih ⊢
    omega
  | case6 _ _ _ _ _ _ _ _ _ ih =>
    simp only [List.length_cons] at ih ⊢
    omega

theorem deTwinHashAndPos_ends (k : Nat) (hnp : List (Nat × H)) :
    ∃ i, (deTwinHashAndPosScan k).run () hnp = .ok (i, (), deTwinHashAndPos hnp k) := by
  apply TwinScan.run_of_fuelled (f := fun fuel s => .ok ((), deTwinHashAndPosLoop k fuel s.1 s.2.2))
  · intro fuel i c l hi
    dsimp only
    rw [deTwinHashAndPosLoop, if_pos hi, TwinScan.round]
    rcases l[i]? with _ | e
    · rfl
    · rcases l[i + 1]? with _ | next
      · rfl
      · by_cases hsib : rightSib e.1 = next.1 <;> simp [deTwinHashAndPosScan, hsib]
  · intro fuel i c l hi
    dsimp only
    rw [deTwinHashAndPosLoop, if_neg (Nat.not_lt.mpr hi)]
  · intro l e
    exact length_mergeLoop_le _ l [e]
  · rfl

/-- The scan of `deTwinPolNode`. -/
def deTwinPolNodeScan (forestRows : Nat) : TwinScan (Heap H) NodeAndPos :=
  ⟨fun pn next => rightSib pn.pos = next.pos,
    fun heap pn next => do
      let (heap, parentNode) ← joinNodes heap pn.node next.node
      .ok (heap, ⟨parentNode, parent pn.pos forestRows⟩),
    insertSortNodeAndPos⟩

theorem deTwinPolNode_ends {k : Nat} {heap heap' : Heap H} {polNodes polNodes' : List NodeAndPos}
    (h : deTwinPolNode heap polNodes k = .ok (heap', polNodes')) :
    ∃ i, (deTwinPolNodeScan k).run heap polNodes = .ok (i, heap', polNodes') := by
  apply TwinScan.run_of_fuelled (f := fun fuel s => deTwinPolNodeLoop k fuel s.1 s.2.1 s.2.2)
    (h := h)
  · intro fuel i c l hi
    dsimp only
    rw [deTwinPolNodeLoop, if_pos hi, TwinScan.round]
    rcases l[i]? with _ | pn
    · rfl
    · rcases l[i + 1]? with _ | next
      · rfl
      · by_cases hsib : rightSib pn.pos = next.pos
        · rcases hjoin : joinNodes c pn.node next.node with e | ⟨c', a⟩ <;>
            simp [deTwinPolNodeScan, hjoin, hsib]
        · simp [deTwinPolNodeScan, hsib]
  · intro fuel i c l hi
    dsimp only
    rw [deTwinPolNodeLoop, if_neg (Nat.not_lt.mpr hi)]
  · intro l e
    change (insertSortNodeAndPos l e).length ≤ _
    rw [insertSortNodeAndPos_eq, List.orderedInsert_length]

end

/-! ### The result -/

section
variable {k : Nat} (hk : k ≤ 63) {xs : List Node} (hfits : ∀ x ∈ xs, Fits k x)
include hk hfits

/-- Positions in order, of which none is above another, are those of an antichain. -/
theorem antichain_of_positions (hsort : (xs.map (nodePos k)).Pairwise (· < ·))
    (hapart : ∀ p ∈ xs.map (nodePos k), ∀ q ∈ xs.map (nodePos k), AtOrBelow k p q → p = q) :
    Antichain xs := by
  apply (List.pairwise_map.mp hsort).imp_of_mem
  intro x y hx hy hlt
  have hxk := hfits x hx
  have hyk := hfits y hy
  refine ⟨(hxk.pos_lt_iff hyk).mp hlt, fun habove => ?_, fun habove => ?_⟩
  · have := hapart _ (List.mem_map_of_mem hy) _ (List.mem_map_of_mem hx)
      ((atOrBelow_nodePos hk hyk hxk).mpr habove)
    omega
  · have := hapart _ (List.mem_map_of_mem hx) _ (List.mem_map_of_mem hy)
      ((atOrBelow_nodePos hk hxk hyk).mpr habove)
    omega

/-- The leaves at or below the positions. -/
theorem exists_atOrBelow_iff {l : Nat} (hl : l < 2 ^ k) :
    (∃ p ∈ xs.map (nodePos k), AtOrBelow k l p) ↔ l ∈ xs.flatMap leavesBelow := by
  have hfit : Fits k ⟨0, l⟩ := ⟨Nat.zero_le _, hl⟩
  have hpos : nodePos k ⟨0, l⟩ = l := by simp [nodePos]
  rw [List.mem_flatMap]
  constructor
  · rintro ⟨p, hp, hbelow⟩
    obtain ⟨x, hx, rfl⟩ := List.mem_map.mp hp
    rw [← hpos, atOrBelow_nodePos hk hfit (hfits x hx)] at hbelow
    exact ⟨x, hx, mem_leavesBelow.mpr hbelow⟩
  · rintro ⟨x, hx, hmem⟩
    refine ⟨_, List.mem_map_of_mem hx, ?_⟩
    rw [← hpos, atOrBelow_nodePos hk hfit (hfits x hx)]
    exact mem_leavesBelow.mp hmem

end

/-- Lists of pairs with the same keys, whose values the keys determine. -/
theorem eq_of_map_fst {α β : Type} {g : α → Option β} {l : List (α × β)} :
    ∀ {m : List (α × β)}, l.map Prod.fst = m.map Prod.fst → (∀ e ∈ l, g e.1 = some e.2) →
      (∀ e ∈ m, g e.1 = some e.2) → l = m := by
  induction l with
  | nil =>
    intro m h _ _
    exact (List.map_eq_nil_iff.mp h.symm).symm
  | cons e l ih =>
    intro m h hl hm
    obtain ⟨f, m, rfl, hef, hrest⟩ := List.map_eq_cons_iff.mp h.symm
    obtain ⟨he, hl⟩ := List.forall_mem_cons.mp hl
    obtain ⟨hf, hm⟩ := List.forall_mem_cons.mp hm
    rw [hef, he, Option.some.injEq] at hf
    rw [ih hrest.symm hl hm, Prod.ext hef.symm hf]

section
variable {H : Type} {k : Nat} {xs : List Node}

/-- Entries at the positions of nodes. -/
theorem exists_entries :
    ∀ {xs : List Node} {hnp : List (Nat × H)}, hnp.map Prod.fst = xs.map (nodePos k) →
      ∃ ts : List (Node × H), hnp = ts.map (hashAndPos k) ∧ ts.map Prod.fst = xs := by
  intro xs
  induction xs with
  | nil =>
    intro hnp h
    exact ⟨[], List.map_eq_nil_iff.mp h, rfl⟩
  | cons x xs ih =>
    intro hnp h
    obtain ⟨e, hnp, rfl, he, hrest⟩ := List.map_eq_cons_iff.mp h
    obtain ⟨ts, rfl, rfl⟩ := ih hrest
    exact ⟨(x, e.2) :: ts, by rw [List.map_cons, hashAndPos, ← he], rfl⟩

/-- Nodes of trees at the positions of nodes. -/
theorem exists_trees_at :
    ∀ {xs : List Node} {trees : List (PTree H)} {polNodes : List NodeAndPos},
      polNodes.map NodeAndPos.pos = xs.map (nodePos k) →
      polNodes.map NodeAndPos.node = trees.map PTree.addr →
      ∃ ts : List (Node × PTree H), polNodes = ts.map (nodeAndPos k) ∧ ts.map Prod.fst = xs ∧
        ts.map Prod.snd = trees := by
  intro xs
  induction xs with
  | nil =>
    intro trees polNodes h h'
    obtain rfl := List.map_eq_nil_iff.mp h
    exact ⟨[], rfl, rfl, (List.map_eq_nil_iff.mp h'.symm).symm⟩
  | cons x xs ih =>
    intro trees polNodes h h'
    obtain ⟨pn, polNodes, rfl, hpos, hrest⟩ := List.map_eq_cons_iff.mp h
    obtain ⟨t, trees, rfl, haddr, hrest'⟩ := List.map_eq_cons_iff.mp h'.symm
    obtain ⟨ts, rfl, rfl, rfl⟩ := ih hrest hrest'.symm
    refine ⟨(x, t) :: ts, ?_, rfl, rfl⟩
    rw [List.map_cons, nodeAndPos, ← hpos, haddr]

end

section
variable {H : Type} [HashOps H] {k : Nat} (hk : k ≤ 63)
include hk

/-- `deTwinHashAndPos` on an antichain. -/
theorem deTwinHashAndPos_spec {ts : List (Node × H)} (hanti : Antichain (ts.map Prod.fst))
    (hfits : ∀ e ∈ ts, Fits k e.1) :
    (deTwinHashAndPos (ts.map (hashAndPos k)) k).map Prod.fst =
      deTwin ((ts.map Prod.fst).map (nodePos k)) k ∧
    ∀ e ∈ deTwinHashAndPos (ts.map (hashAndPos k)) k,
      merkleHash k (ts.map (hashAndPos k)) (detectRow e.1 k) e.1 = some e.2 := by
  obtain ⟨ts', hrun, hpos, hts'⟩ := deTwinHashAndPosLoop_spec hk
    (joinable_merkleHash hanti hfits hk) (2 * ts.length + 1) (i := 0) hanti fun e he =>
      ⟨hfits e he, merkleHash_of_lookup (lookup_hashAndPos hanti hfits he) _, e, he, .refl _⟩
  rw [deTwinHashAndPos, deTwin, List.length_map, List.length_map, List.length_map, hrun, hpos]
  constructor
  · rw [List.map_map, List.map_map]
    rfl
  · intro e he
    obtain ⟨f, hf, rfl⟩ := List.mem_map.mp he
    obtain ⟨hfk, hhash, -⟩ := hts' f hf
    rw [hashAndPos, detectRow_nodePos hk hfk]
    exact hhash

/-- The positions of nodes with the hashes that the nodes hold. -/
def nodeHashes (heap : Heap H) (polNodes : List NodeAndPos) : List (Nat × H) :=
  polNodes.map fun pn => (pn.pos, (heap.get pn.node).data)

omit hk in
theorem nodeHashes_map {heap : Heap H} {F : List (PRoot H)} {ts : List (Node × PTree H)}
    (hr : HeapRep heap (F ++ ts.map fun e => .full e.2)) :
    nodeHashes heap (ts.map (nodeAndPos k)) =
      (ts.map fun e => (e.1, treeHash e.2.tree)).map (hashAndPos k) := by
  rw [nodeHashes, List.map_map, List.map_map]
  apply List.map_congr_left
  intro e he
  have hok : RootOk heap (.full e.2) :=
    hr.ok _ (List.mem_append_right _ (List.mem_map_of_mem (f := fun e => PRoot.full e.2) he))
  exact congrArg (nodePos k e.1, ·) hok.2.hash

/-- `deTwinPolNode` on an antichain: the nodes have the hashes that `deTwinHashAndPos` finds. -/
theorem deTwinPolNode_hashes {heap : Heap H} {F : List (PRoot H)} {ts : List (Node × PTree H)}
    (hr : HeapRep heap (F ++ ts.map fun e => .full e.2)) (hanti : Antichain (ts.map Prod.fst))
    (hfits : ∀ e ∈ ts, Fits k e.1) :
    ∃ heap' polNodes', deTwinPolNode heap (ts.map (nodeAndPos k)) k = .ok (heap', polNodes') ∧
      nodeHashes heap' polNodes' =
        deTwinHashAndPos (nodeHashes heap (ts.map (nodeAndPos k))) k := by
  set es : List (Node × H) := ts.map fun e => (e.1, treeHash e.2.tree) with hes
  have hfst : es.map Prod.fst = ts.map Prod.fst := by
    rw [hes, List.map_map]
    rfl
  have hanti' : Antichain (es.map Prod.fst) := hfst ▸ hanti
  have hfits' : ∀ e ∈ es, Fits k e.1 := by
    intro e he
    obtain ⟨f, hf, rfl⟩ := List.mem_map.mp he
    exact hfits f hf
  have hjoin := joinable_merkleHash hanti' hfits' hk
  obtain ⟨heap', ts', hrun, hpos, hr', hts', -⟩ := deTwinPolNodeLoop_spec
    (P := fun x D => Fits k x ∧ merkleHash k (es.map (hashAndPos k)) x.row (nodePos k x) =
      some (treeHash D) ∧ ∃ e ∈ es, x.Above e.1) hk
    ⟨fun h => h.1, fun hx hs hb => hjoin.parent hx hs hb⟩ (2 * ts.length + 1) (i := 0) hr hanti (by
      intro e he
      have hmem : (e.1, treeHash e.2.tree) ∈ es := List.mem_map_of_mem he
      exact ⟨hfits e he, merkleHash_of_lookup (lookup_hashAndPos hanti' hfits' hmem) _, _, hmem,
        .refl _⟩)
  refine ⟨heap', ts'.map (nodeAndPos k), ?_, ?_⟩
  · rw [deTwinPolNode, List.length_map, hrun]
  · rw [nodeHashes_map hr', nodeHashes_map hr, ← hes]
    obtain ⟨hposH, hhash⟩ := deTwinHashAndPos_spec hk hanti' hfits'
    apply eq_of_map_fst (g := fun p => merkleHash k (es.map (hashAndPos k)) (detectRow p k) p) _ _
      hhash
    · rw [hposH, hfst, deTwin, List.length_map, List.length_map, hpos, List.map_map, List.map_map,
        List.map_map]
      rfl
    · intro e he
      obtain ⟨f, hf, rfl⟩ := List.mem_map.mp he
      obtain ⟨g, hg, rfl⟩ := List.mem_map.mp hf
      obtain ⟨hgk, hhash, -⟩ := hts' g hg
      dsimp only [hashAndPos]
      rw [detectRow_nodePos hk hgk]
      exact hhash

end

/-- **`deTwin` yields the canonical set of deleted subtrees.**  On ascending positions of which
none is above another it ends with ascending positions without siblings, of which none is above
another and which have the same leaves, the positions less than `2 ^ T`, below them.
`deTwinHashAndPos` ends with the same positions and the Merkle hashes of the entries below them,
and `deTwinPolNode`, on nodes that are roots of trees of their own, with nodes that hold these
hashes. -/
theorem deTwin_canonical {H : Type} [HashOps H] {T : Nat} (hT : T ≤ 62) {dels : List Nat}
    (hsort : dels.Pairwise (· < ·)) (hpos : ∀ p ∈ dels, p < 2 ^ (T + 1) - 1)
    (hapart : ∀ p ∈ dels, ∀ q ∈ dels, AtOrBelow T p q → p = q) :
    let res := deTwin dels T
    (∃ i, (deTwinScan T).run () dels = .ok (i, (), res)) ∧
    res.Pairwise (· < ·) ∧ (∀ p ∈ res, p < 2 ^ (T + 1) - 1) ∧ (∀ p ∈ res, sibling p ∉ res) ∧
    (∀ p ∈ res, ∀ q ∈ res, AtOrBelow T p q → p = q) ∧
    (∀ l < 2 ^ T, (∃ p ∈ res, AtOrBelow T l p) ↔ ∃ p ∈ dels, AtOrBelow T l p) ∧
    (∀ hnp : List (Nat × H), hnp.map Prod.fst = dels →
      (∃ i, (deTwinHashAndPosScan T).run () hnp = .ok (i, (), deTwinHashAndPos hnp T)) ∧
      (deTwinHashAndPos hnp T).map Prod.fst = res ∧
      ∀ e ∈ deTwinHashAndPos hnp T, merkleHash T hnp (detectRow e.1 T) e.1 = some e.2) ∧
    (∀ (heap : Heap H) (F : List (PRoot H)) (trees : List (PTree H)) (polNodes : List NodeAndPos),
      polNodes.map NodeAndPos.pos = dels → polNodes.map NodeAndPos.node = trees.map PTree.addr →
      HeapRep heap (F ++ trees.map PRoot.full) →
      ∃ heap' polNodes', deTwinPolNode heap polNodes T = .ok (heap', polNodes') ∧
        (∃ i, (deTwinPolNodeScan T).run heap polNodes = .ok (i, heap', polNodes')) ∧
        polNodes'.map NodeAndPos.pos = res ∧
        nodeHashes heap' polNodes' = deTwinHashAndPos (nodeHashes heap polNodes) T) := by
  have hk : T ≤ 63 := by omega
  obtain ⟨xs, hfits, rfl⟩ := exists_nodes_of_lt hpos
  have hanti := antichain_of_positions hk hfits hsort hapart
  obtain ⟨ys, hys, hya, hyk, hyt, hyl⟩ := deTwin_spec hk mergeable_leavesBelow hanti hfits
  have hhashes : ∀ hnp : List (Nat × H), hnp.map Prod.fst = xs.map (nodePos T) →
      (deTwinHashAndPos hnp T).map Prod.fst = deTwin (xs.map (nodePos T)) T ∧
      ∀ e ∈ deTwinHashAndPos hnp T, merkleHash T hnp (detectRow e.1 T) e.1 = some e.2 := by
    intro hnp hnpos
    obtain ⟨ts, rfl, rfl⟩ := exists_entries hnpos
    exact deTwinHashAndPos_spec hk hanti fun e he => hfits _ (List.mem_map_of_mem he)
  refine ⟨deTwin_ends T _, ?_, ?_, ?_, ?_, ?_, ?_, ?_⟩
  · rw [hys, List.pairwise_map]
    exact hya.imp_of_mem fun hx hy h => ((hyk _ hx).pos_lt_iff (hyk _ hy)).mpr h.1
  · rw [hys]
    exact List.forall_mem_map.mpr fun y hy => (hyk y hy).pos_lt_max
  · rw [hys]
    intro p hp hsib
    obtain ⟨y, hy, rfl⟩ := List.mem_map.mp hp
    rw [sibling_nodePos (hyk y hy)] at hsib
    obtain ⟨z, hz, he⟩ := List.mem_map.mp hsib
    obtain rfl := eq_sibling_of_nodePos (hyk y hy) (hyk z hz) he
    exact hyt.sibling_not_mem hy hz
  · rw [hys]
    intro p hp q hq hbelow
    obtain ⟨y, hy, rfl⟩ := List.mem_map.mp hp
    obtain ⟨z, hz, rfl⟩ := List.mem_map.mp hq
    rw [atOrBelow_nodePos hk (hyk y hy) (hyk z hz)] at hbelow
    rw [hya.eq_of_above hz hy hbelow]
  · intro l hl
    rw [hys, exists_atOrBelow_iff hk hyk hl, exists_atOrBelow_iff hk hfits hl, hyl.mem_iff]
  · intro hnp hnpos
    exact ⟨deTwinHashAndPos_ends T hnp, hhashes hnp hnpos⟩
  · intro heap F trees polNodes hnodes haddrs hr
    obtain ⟨ts, rfl, rfl, rfl⟩ := exists_trees_at hnodes haddrs
    rw [List.map_map] at hr
    obtain ⟨heap', polNodes', hrun, hdata⟩ := deTwinPolNode_hashes hk hr hanti fun e he =>
      hfits _ (List.mem_map_of_mem he)
    refine ⟨heap', polNodes', hrun, deTwinPolNode_ends hrun, ?_, hdata⟩
    have hposs := congrArg (List.map Prod.fst) hdata
    rw [(hhashes _ (by rw [nodeHashes, List.map_map]; exact hnodes)).1, nodeHashes,
      List.map_map] at hposs
    exact hposs

/-- Three nodes without nieces. -/
def threeLeaves : Heap FreeHash := ⟨fun a => ⟨none, none, none, .leaf a, true⟩, 3⟩

/-- Two siblings and a third leaf of four. -/
theorem deTwin_canonical_three :
    (∃ i, (deTwinScan 2).run () [0, 1, 3] = .ok (i, (), deTwin [0, 1, 3] 2)) ∧
    (deTwinHashAndPos [(0, FreeHash.leaf 0), (1, .leaf 1), (3, .leaf 2)] 2).map Prod.fst =
      deTwin [0, 1, 3] 2 ∧
    ∃ heap' polNodes',
      deTwinPolNode threeLeaves [⟨0, 0⟩, ⟨1, 1⟩, ⟨2, 3⟩] 2 = .ok (heap', polNodes') ∧
      polNodes'.map NodeAndPos.pos = deTwin [0, 1, 3] 2 := by
  have hanc : ∀ p ∈ [0, 1, 3], ∀ q ∈ [0, 1, 3], isAncestor q p 2 = false := by decide
  have hpos : ∀ p ∈ [0, 1, 3], p < 2 ^ (2 + 1) - 1 := by decide
  have hrep : HeapRep threeLeaves ([] ++ ([.leaf 0 (.leaf 0), .leaf 1 (.leaf 1),
      .leaf 2 (.leaf 2)] : List (PTree FreeHash)).map PRoot.full) := by
    refine ⟨?_, by decide, by decide⟩
    simp [RootOk, Rooted, Data, Links, PTree.addr, threeLeaves]
  obtain ⟨h1, -, -, -, -, -, h2, h3⟩ := deTwin_canonical (H := FreeHash) (show 2 ≤ 62 by decide)
    (show [0, 1, 3].Pairwise (· < ·) by decide) hpos (by
      intro p hp q hq hbelow
      by_contra hne
      have := (isAncestor_iff_atOrBelow (by decide) (hpos p hp) (hpos q hq)).mpr ⟨hbelow, hne⟩
      rw [hanc p hp q hq] at this
      cases this)
  obtain ⟨heap', polNodes', hrun, -, hres, -⟩ :=
    h3 threeLeaves [] _ [⟨0, 0⟩, ⟨1, 1⟩, ⟨2, 3⟩] rfl rfl hrep
  exact ⟨h1, (h2 _ rfl).2.1, heap', polNodes', hrun, hres⟩

end Utreexo
