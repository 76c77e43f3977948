import Utreexo.PollardRep

/-! # The position of a node of the Pollard

`calculatePosition` climbs from a node to its root over the aunts, finds the row of
the root by its hash, and descends again.  The aunt of a node is the sibling of its
parent, so every turn but the first is seen from the other side; the source inverts
the first one to make them all alike.
-/
namespace Utreexo
open Merkle

/-! ### Climbing -/

section Climb
variable {H : Type} {h : Heap H}

/-- The bits of `leftRightIndicator` after climbing out of a context: every turn
inverted, the one at the root last. -/
def climb : List (Frame H) → Nat → Nat
  | [], ind => ind
  | f :: fs, ind => climb fs (2 * ind + (!f.right).toNat)

theorem testBit_climb_add (fs : List (Frame H)) (ind i : Nat) :
    (climb fs ind).testBit (fs.length + i) = ind.testBit i := by
  induction fs generalizing ind i with
  | nil => simp [climb]
  | cons f fs ih =>
    rw [climb, List.length_cons, show fs.length + 1 + i = fs.length + (i + 1) from by omega, ih,
      Nat.testBit_succ]
    congr 1
    rcases f.right with _ | _
    · simp
      omega
    · simp

theorem testBit_climb (fs : List (Frame H)) (ind : Nat) {i : Nat} (hi : i < fs.length) :
    (climb fs ind).testBit i = !((turns fs)[i]?.getD false) := by
  induction fs generalizing ind with
  | nil => cases hi
  | cons f fs ih =>
    rw [climb, turns_cons]
    have hlen : (turns fs).length = fs.length := by simp [turns]
    rw [List.length_cons] at hi
    by_cases h0 : i < fs.length
    · rw [ih _ h0, List.getElem?_append_left (by omega)]
    · obtain rfl : i = fs.length := by omega
      have := testBit_climb_add fs (2 * ind + (!f.right).toNat) 0
      rw [Nat.add_zero] at this
      rw [this, List.getElem?_append_right (by omega), hlen, Nat.sub_self]
      rcases f.right <;> simp [Nat.testBit_zero]

/-- One step of `leftRightIndicator`. -/
theorem shl64_or_one (ind : Nat) (h : ind < 2 ^ 63) :
    shl64 ind 1 = 2 * ind ∧ (shl64 ind 1 ||| 1) = 2 * ind + 1 := by
  have h1 : shl64 ind 1 = 2 * ind := by
    rw [shl64_of_lt (by omega)]
    omega
  refine ⟨h1, ?_⟩
  rw [h1, or_one_eq, if_pos (by omega)]

/-- Climbing on from the owner of a place. -/
theorem auntLoop_owner {fs : List (Frame H)} {a : Addr} (fuel ind rows b : Nat)
    (hc : CtxLinks h fs a) (hne : (ctxAddrs fs).Nodup) (ha : a ∉ ctxAddrs fs)
    (hf : fs.length < fuel) (hrows : 0 < rows) (hind : ind < 2 ^ b) (hb : b + fs.length ≤ 64) :
    ∃ root, (∀ t : PTree H, t.addr = a → (plug fs t).addr = root) ∧
      Pollard.auntLoop h fuel (owner fs a) ind rows =
        .ok (root, climb fs ind, rows + fs.length) := by
  induction fs generalizing a fuel ind rows b with
  | nil =>
    obtain ⟨fuel, rfl⟩ : ∃ k, fuel = k + 1 := ⟨fuel - 1, by simp at hf; omega⟩
    have hroot : (h.get a).aunt = none := hc
    exact ⟨a, fun t ht => ht, by simp [Pollard.auntLoop, hroot, climb]⟩
  | cons f fs ih =>
    obtain ⟨fuel, rfl⟩ : ∃ k, fuel = k + 1 := ⟨fuel - 1, by simp at hf; omega⟩
    obtain ⟨⟨hl, _⟩, ⟨_, haunt⟩, _, htail⟩ := hc
    rw [ctxAddrs] at hne ha
    obtain ⟨hfresh, hne⟩ := List.nodup_cons.mp hne
    simp only [List.mem_append, not_or] at hfresh
    simp only [List.length_cons] at hf hb
    obtain ⟨hs1, hs2⟩ := shl64_or_one ind
      (Nat.lt_of_lt_of_le hind (Nat.pow_le_pow_right (by omega) (by omega)))
    have hbit : (!f.right).toNat ≤ 1 := Bool.toNat_le _
    obtain ⟨root, hroot, hrun⟩ := ih (a := f.addr) fuel
      (2 * ind + (!f.right).toNat) (rows + 1) (b + 1) htail
      (List.nodup_append.mp hne).2.1 hfresh.2 (by omega) (by omega)
      (by rw [Nat.pow_succ]; omega) (by omega)
    refine ⟨root, fun t _ => hroot _ (Frame.fill_addr f t), ?_⟩
    have hsib : a ≠ f.sib.addr := by
      rintro rfl
      exact ha (by simp [f.sib.addr_mem])
    rw [owner_cons, Pollard.auntLoop, haunt]
    simp only [if_neg (Nat.pos_iff_ne_zero.mp hrows)]
    rw [climb, List.length_cons, show rows + (fs.length + 1) = rows + 1 + fs.length by omega,
      ← hrun]
    congr 1
    rcases hf : f.right with _ | _ <;> simp only [hf, if_true, Bool.false_eq_true, if_false] at hl
    · rw [hl, if_neg (by simpa using hsib), hs2]
      rfl
    · rw [hl, if_pos rfl, hs1]
      rfl

/-- **Climbing from a node to its root.** -/
theorem auntLoop_spec {fs : List (Frame H)} {t : PTree H} {fuel : Nat}
    (hc : CtxLinks h fs t.addr) (hne : (t.addrs ++ ctxAddrs fs).Nodup)
    (hf : fs.length < fuel) (hb : fs.length ≤ 63) :
    Pollard.auntLoop h fuel t.addr 0 0 = .ok ((plug fs t).addr, climb fs 0, fs.length) := by
  obtain ⟨fuel, rfl⟩ : ∃ k, fuel = k + 1 := ⟨fuel - 1, by omega⟩
  obtain ⟨_, hne, hdis⟩ := List.nodup_append.mp hne
  have ha : t.addr ∉ ctxAddrs fs := fun ha => hdis _ t.addr_mem _ ha rfl
  cases fs with
  | nil =>
    have hroot : (h.get t.addr).aunt = none := hc
    simp [Pollard.auntLoop, hroot, climb, plug]
  | cons f fs =>
    obtain ⟨⟨hl, _⟩, ⟨haunt, _⟩, _, htail⟩ := hc
    rw [ctxAddrs] at hne ha
    obtain ⟨hfresh, hne⟩ := List.nodup_cons.mp hne
    simp only [List.mem_append, not_or] at hfresh
    simp only [List.length_cons] at hf hb
    have hsib : f.sib.addr ≠ t.addr := fun he => ha (by simp [← he, f.sib.addr_mem])
    obtain ⟨root, hroot, hrun⟩ := auntLoop_owner (a := f.addr) fuel (!f.right).toNat
      1 1 htail (List.nodup_append.mp hne).2.1 hfresh.2
      (by omega) (by omega) (by have := Bool.toNat_le (!f.right); omega) (by omega)
    rw [plug, hroot _ (Frame.fill_addr f t), Pollard.auntLoop, haunt, climb, List.length_cons,
      show fs.length + 1 = 1 + fs.length by omega,
      show 2 * 0 + (!f.right).toNat = (!f.right).toNat by omega, ← hrun]
    simp only [if_true]
    congr 1
    rcases hf : f.right with _ | _ <;> simp only [hf, if_true, Bool.false_eq_true, if_false] at hl
    · rw [hl, if_pos rfl]
      rfl
    · rw [hl, if_neg (by simpa using hsib)]
      rfl

end Climb

/-! ### The row of the root -/

section RootRow
variable {H : Type} [DecidableEq H]

/-- The roots are searched for the hash from the lowest row on. -/
theorem rootRowLoop_eq {n : Nat} (g : Nat → H) (data : H) (rows : List Nat) :
    Pollard.rootRowLoop n data rows ((rows.filter (n.testBit ·)).map g) =
      .ok (rows.find? fun r => n.testBit r && g r == data) := by
  have hbit : ∀ r, ((n >>> r) &&& 1 = 1) ↔ n.testBit r = true := by
    intro r
    rw [Nat.and_one_is_mod, Nat.shiftRight_eq_div_pow, testBit_iff]
  induction rows with
  | nil => rfl
  | cons r rows ih =>
    unfold Pollard.rootRowLoop
    rcases hb : n.testBit r with _ | _
    · rw [if_neg (by rw [hbit, hb]; simp), List.filter_cons_of_neg (by simp [hb]), ih,
        List.find?_cons_of_neg (by simp [hb])]
    · rw [if_pos ((hbit r).mpr hb), List.filter_cons_of_pos hb, List.map_cons]
      by_cases hg : g r = data
      · rw [List.find?_cons_of_pos (by simp [hb, hg])]
        simp [hg]
      · rw [List.find?_cons_of_neg (by simp [hg])]
        simp only [if_neg hg]
        exact ih

theorem reverse_rootRows {n k : Nat} (hn : n ≤ 2 ^ k) (hk : k ≤ 63) :
    (rootRows n 0).reverse = (List.range (k + 1)).filter (n.testBit ·) := by
  rw [rootRows, List.filter_reverse, List.reverse_reverse, Nat.sub_zero, ← List.range_eq_range',
    show 64 = k + 1 + (63 - k) by omega, List.range_add, List.filter_append]
  refine (congrArg _ (List.filter_eq_nil_iff.mpr ?_)).trans (List.append_nil _)
  rintro r hr
  obtain ⟨i, _, rfl⟩ := List.mem_map.mp hr
  intro hb
  have := testBit_row_le hn hb
  omega

end RootRow

/-! ### Descending -/

theorem Node.down_concat (x : Node) (p : List Bool) (b : Bool) :
    x.down (p ++ [b]) = if b then (x.down p).right else (x.down p).left := by
  induction p generalizing x with
  | nil => rfl
  | cons c p ih => exact ih _

theorem Node.down_row (x : Node) (p : List Bool) : (x.down p).row = x.row - p.length := by
  induction p generalizing x with
  | nil => rfl
  | cons b p ih =>
    rw [Node.down, ih]
    rcases b <;> simp [Node.left, Node.right] <;> omega

section Descend
variable {k : Nat} (hk : k ≤ 63) {x : Node} (hx : Fits k x)
include hk hx

omit hk in
theorem Fits.down {p : List Bool} (hp : p.length ≤ x.row) : Fits k (x.down p) := by
  induction p generalizing x with
  | nil => exact hx
  | cons b p ih =>
    rw [List.length_cons] at hp
    have hl : Fits k x.left := Fits.child (by rwa [Node.left_parent (by omega)])
    have hr : Fits k x.right := Fits.child (by rwa [Node.right_parent (by omega)])
    rw [Node.down]
    rcases b with _ | _
    · exact ih hl (by simp only [Bool.false_eq_true, if_false, Node.left]; omega)
    · exact ih hr (by simp only [if_true, Node.right]; omega)

/-- The way down follows the inverted bits. -/
theorem descend_nodePos {p : List Bool} {ind : Nat} (hp : p.length ≤ x.row)
    (hb : ∀ i < p.length, ind.testBit i = !(p[i]?.getD false)) :
    Pollard.descend k ind p.length (nodePos k x) = nodePos k (x.down p) := by
  induction p using List.reverseRecOn with
  | nil => rfl
  | append_singleton p b ih =>
    rw [List.length_append, List.length_singleton] at hp hb
    have hfit := Fits.down hx (p := p) (by omega)
    have hrow : 0 < (x.down p).row := by rw [Node.down_row]; omega
    have hprev := ih (by omega) (fun i hi => by
      rw [hb i (by omega), List.getElem?_append_left hi])
    have hlast : ind.testBit p.length = !b := by
      rw [hb _ (by omega), List.getElem?_append_right (Nat.le_refl _), Nat.sub_self]
      rfl
    have hle : p.length < 64 := by
      have := hx.1
      omega
    have hpow : (2 : Nat) ^ p.length < 2 ^ 64 := Nat.pow_lt_pow_right (by omega) hle
    rw [Pollard.descend] at hprev ⊢
    rw [List.length_append, List.length_singleton, List.range_succ, List.foldl_append,
      List.foldl_cons, List.foldl_nil, hprev, Node.down_concat]
    have hl : Fits k (x.down p).left := Fits.child (by rwa [Node.left_parent hrow])
    have hr : Fits k (x.down p).right := Fits.child (by rwa [Node.right_parent hrow])
    simp only [shl64_of_lt (show 1 * 2 ^ p.length < 2 ^ 64 by omega), Nat.one_mul,
      Nat.and_two_pow, hlast, rightChild_nodePos hk hfit hrow, leftChild_nodePos hk hfit hrow,
      sibling_nodePos hl, sibling_nodePos hr, Node.right_sibling, Node.left_sibling]
    have h0 : 0 ≠ 2 ^ p.length := (Nat.two_pow_pos _).ne
    rcases b with _ | _ <;> simp [h0]

end Descend

/-! ### The whole way -/

theorem length_le_of_nodup_lt {l : List Nat} {n : Nat} (hnd : l.Nodup) (hlt : ∀ a ∈ l, a < n) :
    l.length ≤ n := by
  have hsub : l ⊆ List.range n := fun a ha => List.mem_range.mpr (hlt a ha)
  simpa using (List.subperm_of_subset hnd hsub).length_le

theorem length_lt_addrs_plug {H : Type} (fs : List (Frame H)) (t : PTree H) :
    fs.length < (plug fs t).addrs.length := by
  rw [(addrs_plug fs t).length_eq, List.length_append, PTree.addrs_eq, List.length_cons]
  have key : fs.length ≤ (ctxAddrs fs).length := by
    induction fs with
    | nil => simp
    | cons f fs ih => simp only [ctxAddrs, List.length_cons, List.length_append]; omega
  omega

section
variable {H M : Type} [DecidableEq H] [HashOps H] {leaf : H → Prop}
  {slots : List (Option H)}

omit [DecidableEq H] in
/-- The hash of a root tells its row. -/
theorem rootTree_hash_inj (hi : IdealHash H leaf) (hn : slots.length < 2 ^ 64)
    (hnd : (liveLeaves slots).Nodup) (hleaf : ∀ h ∈ liveLeaves slots, leaf h ∧ h ≠ empty)
    {r R : Nat} (hr : r ∈ rootRows slots.length 0) (hR : R ∈ rootRows slots.length 0)
    {t : CTree H} (ht : rootTree slots R = some t)
    (h : hashOpt (rootTree slots r) = treeHash t) : r = R := by
  have hlt := rootTree_leaves_subset slots R
  rw [ht] at hlt
  rcases hs : rootTree slots r with _ | s
  · rw [hs] at h
    exact absurd h.symm (treeHash_ne_empty hi.ne_empty fun a ha => (hleaf a (hlt a ha)).2)
  · have hls := rootTree_leaves_subset slots r
    rw [hs] at hls h
    obtain rfl := treeHash_inj hi (fun a ha => (hleaf a (hls a ha)).1)
      (fun a ha => (hleaf a (hlt a ha)).1) h
    by_contra hne
    obtain ⟨a, ha⟩ := List.exists_mem_of_ne_nil _ s.leaves_ne_nil
    exact rootTree_leaves_disjoint hn hnd hr hR hne (by rw [hs]; exact ha) (by rw [ht]; exact ha)

variable {p : Pollard H M} {F : List (PRoot H)}

/-- **`calculatePosition` of the node of a leaf is the leaf's place.** -/
theorem Pollard.Rep.calculatePosition (hr : p.Rep F) (hF : F.map PRoot.opt = forestTrees slots)
    (hnum : p.numLeaves = slots.length) (hn : slots.length ≤ 2 ^ 63) (hi : IdealHash H leaf)
    (hnd : (liveLeaves slots).Nodup) (hleaf : ∀ h ∈ liveLeaves slots, leaf h ∧ h ≠ empty)
    {a : Addr} {h : H} (hmem : (a, h) ∈ F.flatMap PRoot.cells) :
    ∃ x, placed slots x = some (.leaf h) ∧
      p.calculatePosition a = .ok (nodePos (treeRows slots.length) x) := by
  have hk := treeRows_le hn
  have hn' := le_two_pow_treeRows slots.length
  -- The tree of the leaf and the context of the leaf in it.
  obtain ⟨T, hT, hmem⟩ := List.mem_flatMap.mp hmem
  obtain ⟨t, rfl⟩ : ∃ t, T = .full t := by
    cases T with
    | vacant b => cases hmem
    | full t => exact ⟨t, rfl⟩
  obtain ⟨fs, rfl⟩ := exists_plug_of_cell hmem
  obtain ⟨i, hi', hget⟩ := List.mem_iff_getElem.mp hT
  have hopt : (forestTrees slots)[i]? = some (some (plug fs (.leaf a h)).tree) := by
    rw [← hF, List.getElem?_map, List.getElem?_eq_getElem hi', hget]
    rfl
  rw [forestTrees, List.getElem?_map] at hopt
  obtain ⟨R, hR, htree⟩ := Option.map_eq_some_iff.mp hopt
  have hRmem := List.mem_of_getElem? hR
  obtain ⟨_, hR64, hbit⟩ := mem_rootRows.mp hRmem
  have hRk := testBit_row_le hn' hbit
  obtain ⟨⟨haunt, hlinks⟩, hdata⟩ := hr.ok _ hT
  have hsub : (plug fs (.leaf a h)).tree.subAt (turns fs) = some (.leaf h) := by
    have := subAt_plug fs (.leaf a h) []
    rwa [List.append_nil, CTree.subAt_nil] at this
  have hlen : (turns fs).length = fs.length := by simp [turns]
  have hdepth : (turns fs).length ≤ R := CTree.length_le_of_subAt_perfect htree hsub
  -- Its place.
  have hroot := Node.rootAt_isRoot hbit
  have hfit : Fits (treeRows slots.length) (Node.rootAt slots.length R) :=
    fits_of_inForest hn' hroot.inForest
  obtain ⟨hup, hpath⟩ := Node.down_spec (x := Node.rootAt slots.length R) hdepth
  refine ⟨(Node.rootAt slots.length R).down (turns fs), ?_, ?_⟩
  · have hrow := congrArg Node.row hup
    rw [Node.up_row] at hrow
    rw [placed_eq (by omega) (j := (turns fs).length) (by rw [hup]; exact hroot), hrow, hpath]
    change (rootTree slots R).bind _ = _
    rw [htree, Option.bind_some, hsub]
  · have hnodup : (plug fs (.leaf a h)).addrs.Nodup :=
      (List.nodup_flatMap.mp hr.nodup).1 _ hT
    have hlt : ∀ b ∈ (plug fs (.leaf a h)).addrs, b < p.heap.next := fun b hb =>
      hr.lt b (List.mem_flatMap.mpr ⟨_, hT, hb⟩)
    have hfuel : fs.length < p.heap.next + 1 := by
      have := length_lt_addrs_plug fs (.leaf a h)
      have := length_le_of_nodup_lt hnodup hlt
      omega
    have hclimb : Pollard.auntLoop p.heap (p.heap.next + 1) a 0 0 =
        .ok ((plug fs (.leaf a h)).addr, climb fs 0, fs.length) :=
      auntLoop_spec (t := .leaf a h) (rooted_plug.mp ⟨haunt, hlinks⟩).1
        ((addrs_plug _ _).nodup_iff.mp hnodup) hfuel (by omega)
    have hroots : p.getRoots.reverse =
        ((List.range (treeRows slots.length + 1)).filter (slots.length.testBit ·)).map
          fun r => hashOpt (rootTree slots r) := by
      rw [← reverse_rootRows hn' hk, hr.getRoots, ← List.map_reverse,
        show (fun R : PRoot H => hashOpt R.opt) = hashOpt ∘ PRoot.opt from rfl, List.map_reverse,
        ← List.map_map, hF, forestTrees, List.map_map, List.map_reverse]
      rfl
    have hfind : (List.range (treeRows slots.length + 1)).find? (fun r =>
        slots.length.testBit r && hashOpt (rootTree slots r) ==
          treeHash (plug fs (.leaf a h)).tree) = some R := by
      rcases hf : (List.range (treeRows slots.length + 1)).find? (fun r =>
          slots.length.testBit r && hashOpt (rootTree slots r) ==
            treeHash (plug fs (.leaf a h)).tree) with _ | r
      · have := List.find?_eq_none.mp hf R (List.mem_range.mpr (by omega))
        simp [hbit, htree] at this
      · obtain ⟨hb, he⟩ : slots.length.testBit r = true ∧
            hashOpt (rootTree slots r) = treeHash (plug fs (.leaf a h)).tree := by
          simpa using List.find?_some hf
        have hrk := testBit_row_le hn' hb
        rw [rootTree_hash_inj hi (by omega) hnd hleaf
          (mem_rootRows.mpr ⟨by omega, by omega, hb⟩) hRmem htree he]
    rw [Pollard.calculatePosition, hclimb]
    simp only [Exec.ok_bind, hnum, hroots, hdata.hash]
    rw [rootRowLoop_eq, hfind]
    simp only [Exec.ok_bind, Option.getD_some]
    rw [rootPosition_eq hk hn' hRk, ← hlen]
    refine congrArg _ (descend_nodePos hk hfit hdepth ?_)
    intro i hi
    exact testBit_climb fs 0 (by omega)

end

end Utreexo
