import Utreexo.CachedRemove

/-! # A cached proof after the additions of a block

The trees over the old slots stay what they are when leaves are added; they move up for every
empty root that is written over beside their path (`moveAll`), which takes them to their
places in the grown forest.  What the proof needs above the old roots is among the nodes that
`Stump.add` reports.
-/
namespace Merkle.Node
variable {vacant vacant' : Node → Bool} {x y : Node}

theorem climb_add (i j : Nat) :
    climb vacant (i + j) x y = climb vacant j (x.up i) (climb vacant i x y) := by
  induction i generalizing x y with
  | zero => rw [Nat.zero_add, up_zero]; rfl
  | succ i ih => rw [Nat.succ_add, climb, climb, ih, parent_up]

theorem climb_congr {j : Nat}
    (h : ∀ i < j, vacant (x.up i).sibling = vacant' (x.up i).sibling) :
    climb vacant j x y = climb vacant' j x y := by
  induction j generalizing x y with
  | zero => rfl
  | succ j ih =>
    have h0 := h 0 (Nat.succ_pos j)
    rw [up_zero] at h0
    rw [climb, climb, h0]
    refine ih fun i hi => ?_
    rw [parent_up]
    exact h (i + 1) (Nat.succ_lt_succ hi)

/-- What climbs to an ancestor stays below it. -/
theorem above_climb (j : Nat) (h : x.Above y) : (x.up j).Above (climb vacant j x y) := by
  induction j generalizing x y with
  | zero => rwa [up_zero]
  | succ j ih =>
    rw [climb, ← parent_up]
    refine ih ?_
    split
    · have hrow := h.row_le
      rw [← sibling_parent]
      exact parent_above_raise (by rwa [sibling_row])
    · exact x.parent_above.trans h

end Merkle.Node

namespace Utreexo
open Merkle

/-! ### Moving over empty roots -/

section
variable {n : Nat} {t x y : Node} {ts : List Node}

/-- The place of what is at `y` once the targets are gone, one after the other. -/
def moveAll (n : Nat) : List Node → Node → Node
  | [], y => y
  | t :: ts, y => moveAll n ts (settled n [t] y)

/-- No target is above the place where it finds what was at `y`. -/
def Clear (n : Nat) : List Node → Node → Prop
  | [], _ => True
  | t :: ts, y => ¬ t.Above y ∧ Clear n ts (settled n [t] y)

theorem settled_singleton (n : Nat) (t y : Node) :
    settled n [t] y = if Beside n t y then Node.raise t y else y := rfl

theorem settled_inForest (hy : y.InForest n) : (settled n [t] y).InForest n := by
  rw [settled_singleton]
  split
  · next hb =>
    have hrow := hb.2.row_le
    rw [Node.sibling_row] at hrow
    exact (Node.parent_above_raise hrow).inForest hb.1
  · exact hy

theorem moveAll_append (ts us : List Node) (y : Node) :
    moveAll n (ts ++ us) y = moveAll n us (moveAll n ts y) := by
  induction ts generalizing y with
  | nil => rfl
  | cons t ts ih => exact ih _

theorem clear_append (ts us : List Node) (y : Node) :
    Clear n (ts ++ us) y ↔ Clear n ts y ∧ Clear n us (moveAll n ts y) := by
  induction ts generalizing y with
  | nil => simp [Clear, moveAll]
  | cons t ts ih => rw [List.cons_append, Clear, ih, Clear, moveAll, and_assoc]

/-- Targets that are neither above nor beside change nothing. -/
theorem moveAll_of_not_beside (h : ∀ t ∈ ts, ¬ t.Above y ∧ ¬ t.sibling.Above y) :
    Clear n ts y ∧ moveAll n ts y = y := by
  induction ts with
  | nil => exact ⟨trivial, rfl⟩
  | cons t ts ih =>
    obtain ⟨h1, h2⟩ := h t List.mem_cons_self
    have hs : settled n [t] y = y := by
      rw [settled_singleton, if_neg fun hb => h2 hb.2]
    obtain ⟨h3, h4⟩ := ih fun u hu => h u (List.mem_cons_of_mem _ hu)
    refine ⟨⟨h1, ?_⟩, ?_⟩
    · rwa [hs]
    · rw [moveAll, hs, h4]

end

section
variable {H : Type} {F : List (Option H)} {c : Nat}

/-- The vacant siblings on the path of a leaf move what is below the path up, as climbing
does. -/
theorem moveAll_climb {d r : Nat} {y : Node}
    (hroot : ((Node.leafNode c).up (r + d)).IsRoot F.length)
    (hy : ((Node.leafNode c).up r).Above y) :
    Clear F.length (((List.range' r d).filter fun i =>
        vacantBelow F ((Node.leafNode c).up i).sibling).map
          fun i => ((Node.leafNode c).up i).sibling) y ∧
    moveAll F.length (((List.range' r d).filter fun i =>
        vacantBelow F ((Node.leafNode c).up i).sibling).map
          fun i => ((Node.leafNode c).up i).sibling) y =
      Node.climb (vacantBelow F) d ((Node.leafNode c).up r) y := by
  induction d generalizing r y with
  | zero => exact ⟨trivial, rfl⟩
  | succ d ih =>
    have hroot' : ((Node.leafNode c).up (r + 1 + d)).IsRoot F.length := by
      rwa [show r + 1 + d = r + (d + 1) by omega]
    have hin : ((Node.leafNode c).up (r + 1)).InForest F.length := by
      rw [Node.up_add] at hroot'
      exact Node.inForest_of_up hroot'.inForest
    rw [Node.up_succ] at hin
    rw [List.range'_succ, Node.climb, ← Node.up_succ]
    by_cases hv : vacantBelow F ((Node.leafNode c).up r).sibling = true
    · have hb : Beside F.length ((Node.leafNode c).up r).sibling y := by
        refine ⟨by rwa [Node.sibling_parent], ?_⟩
        rwa [Node.sibling_sibling]
      have hnot : ¬ ((Node.leafNode c).up r).sibling.Above y := by
        intro h
        rcases h.total hy with h' | h'
        · exact Node.sibling_ne _ (h'.eq_of_row_eq rfl)
        · exact Node.sibling_ne _ (h'.eq_of_row_eq rfl).symm
      have hnext : ((Node.leafNode c).up (r + 1)).Above
          (Node.raise ((Node.leafNode c).up r).sibling y) := by
        rw [Node.up_succ, ← Node.sibling_parent]
        exact Node.parent_above_raise (by rw [Node.sibling_row]; exact hy.row_le)
      obtain ⟨h1, h2⟩ := ih hroot' hnext
      rw [List.filter_cons_of_pos
        (p := fun i => vacantBelow F ((Node.leafNode c).up i).sibling) hv, if_pos hv,
        List.map_cons, Clear, moveAll, settled_singleton, if_pos hb]
      exact ⟨⟨hnot, h1⟩, h2⟩
    · rw [List.filter_cons_of_neg
        (p := fun i => vacantBelow F ((Node.leafNode c).up i).sibling) hv, if_neg hv]
      refine ih hroot' ?_
      rw [Node.up_succ]
      exact (Node.parent_above _).trans hy

end

/-! ### Old trees in the grown forest -/

section
variable {H : Type} {slots : List (Option H)} {adds : List H} {z : Node}

theorem nodeTree_grown (hz : z.InForest slots.length) :
    nodeTree (slots ++ adds.map some) z = nodeTree slots z :=
  nodeTree_append ((Nat.le_div_iff_mul_le (Nat.two_pow_pos _)).mp hz)

theorem length_grown : (slots ++ adds.map some).length = slots.length + adds.length := by
  rw [List.length_append, List.length_map]

variable (hcount : slots.length + adds.length ≤ 2 ^ 63)
include hcount

/-- The place of an old tree in the grown forest, from its old place on. -/
theorem place_grown {j i : Nat} (hj : (z.up j).IsRoot slots.length)
    (hi : (z.up (j + i)).IsRoot (slots ++ adds.map some).length) :
    place (slots ++ adds.map some) z =
      Node.climb (vacantBelow (slots ++ adds.map some)) i (z.up j) (place slots z) := by
  have hlen : (slots ++ adds.map some).length = slots.length + adds.length := length_grown
  rw [place_eq (by omega) hi, place_eq (by omega) hj, Node.climb_add]
  congr 1
  refine Node.climb_congr fun a ha => ?_
  -- Up to the old root the siblings are old.
  have hin : (z.up (a + 1)).InForest slots.length := by
    obtain ⟨b, rfl⟩ := Nat.exists_eq_add_of_lt ha
    rw [show a + b + 1 = a + 1 + b by omega, Node.up_add] at hj
    exact Node.inForest_of_up hj.inForest
  rw [Node.up_succ, ← Node.sibling_parent] at hin
  rw [vacantBelow, vacantBelow, nodeTree_grown (Node.inForest_of_parent hin)]

omit hcount in
/-- The empty roots are those without a tree in the grown forest. -/
theorem overwritten_grown (slots : List (Option H)) (adds : List H) (m : Nat) :
    overwritten slots.length m (fun r => (rootTree slots r).isNone) =
      overwritten slots.length m fun r =>
        vacantBelow (slots ++ adds.map some) (Node.rootAt slots.length r) := by
  unfold overwritten
  rw [List.filter_congr fun r hr => ?_]
  have hb := (mem_rootRows.mp (List.mem_reverse.mp hr)).2.2
  dsimp only
  rw [vacantBelow, nodeTree_rootAt hb]

omit hcount in
theorem overwritten_self (n : Nat) (gone : Nat → Bool) : overwritten n n gone = [] := by
  unfold overwritten
  rw [List.filter_eq_nil_iff.mpr, List.map_nil]
  intro r hr
  have hb := (mem_rootRows.mp (List.mem_reverse.mp hr)).2.2
  simp [Node.rootAt_isRoot hb]

omit hcount in
theorem nodeTree_up_ne_none {F : List (Option H)} (hT : nodeTree F z ≠ none) (j : Nat) :
    nodeTree F (z.up j) ≠ none := by
  induction j with
  | zero => rwa [Node.up_zero]
  | succ j ih =>
    rw [Node.up_succ]
    exact nodeTree_parent_ne_none ih

/-- **The empty roots that are written over move an old tree to its place.** -/
theorem moveAll_place (hz : z.InForest slots.length) (hT : nodeTree slots z ≠ none) :
    Clear (slots ++ adds.map some).length
        (overwritten slots.length (slots ++ adds.map some).length fun r =>
          (rootTree slots r).isNone) (place slots z) ∧
      moveAll (slots ++ adds.map some).length
        (overwritten slots.length (slots ++ adds.map some).length fun r =>
          (rootTree slots r).isNone) (place slots z) = place (slots ++ adds.map some) z := by
  rcases Nat.eq_zero_or_pos adds.length with h0 | hpos
  · obtain rfl := List.eq_nil_of_length_eq_zero h0
    rw [List.map_nil, List.append_nil, overwritten_self]
    exact ⟨trivial, rfl⟩
  have hlen : (slots ++ adds.map some).length = slots.length + adds.length := length_grown
  have hlive : LiveFrom (slots ++ adds.map some) slots.length := liveFrom_adds
  have hnew : (Node.leafNode slots.length).InForest (slots ++ adds.map some).length :=
    Node.leafNode_inForest.mpr (by omega)
  obtain ⟨J, hJ⟩ := hnew.exists_root
  obtain ⟨j, hj⟩ := hz.exists_root
  obtain ⟨r, hr⟩ : ∃ r, (z.up j).row = r := ⟨_, rfl⟩
  obtain ⟨hb, hR⟩ := Node.isRoot_iff_rootAt.mp hj
  rw [hr] at hb hR
  have hy : (z.up j).Above (place slots z) := by
    rw [place_eq (by omega) hj]
    exact Node.above_climb j (.refl z)
  -- The path of the first new leaf is not above the old tree up to its root.
  have hno : ∀ a ≤ r, ¬ ((Node.leafNode slots.length).up a).Above (place slots z) := by
    intro a ha habove
    have hold : ¬ (z.up j).Above ((Node.leafNode slots.length).up a) := by
      intro h
      have := Node.leafNode_inForest.mp ((h.trans ⟨a, rfl⟩).inForest hj.inForest)
      omega
    rcases habove.total hy with h | h
    · have hle := h.row_le
      rw [hr, Node.leafNode_up_row] at hle
      refine hold ?_
      rw [h.eq_of_row_eq (by rw [hr, Node.leafNode_up_row]; omega)]
      exact .refl _
    · exact hold h
  have hlow : ∀ d, d ≤ r → Clear (slots ++ adds.map some).length
        (((List.range' 0 d).filter fun i => vacantBelow (slots ++ adds.map some)
          ((Node.leafNode slots.length).up i).sibling).map
            fun i => ((Node.leafNode slots.length).up i).sibling) (place slots z) ∧
      moveAll (slots ++ adds.map some).length
        (((List.range' 0 d).filter fun i => vacantBelow (slots ++ adds.map some)
          ((Node.leafNode slots.length).up i).sibling).map
            fun i => ((Node.leafNode slots.length).up i).sibling) (place slots z) =
        place slots z := by
    intro d hd
    refine moveAll_of_not_beside fun t ht => ?_
    obtain ⟨a, ha, rfl⟩ := List.mem_map.mp ht
    have har : a < d := by simpa using (List.mem_range'_1.mp (List.mem_of_mem_filter ha)).2
    refine ⟨fun h => ?_, ?_⟩
    · have hp := (Node.parent_above _).trans h
      rw [Node.sibling_parent, ← Node.up_succ] at hp
      exact hno (a + 1) (by omega) hp
    · rw [Node.sibling_sibling]
      exact hno a (by omega)
  have hpar : (z.up j).parent = (Node.leafNode slots.length).up (r + 1) := by
    rw [hR, parent_rootAt hb]
  rw [overwritten_grown slots adds, overwritten_eq (by omega) hlive hJ]
  rcases Nat.lt_or_ge r J with hlt | hge
  · -- The old root is merged, from its row on along the path of the new leaf.
    obtain ⟨d, rfl⟩ : ∃ d, J = r + 1 + d := Nat.exists_eq_add_of_le hlt
    have hroot : (z.up (j + (d + 1))).IsRoot (slots ++ adds.map some).length := by
      rwa [Node.up_add, ← Node.parent_up, hpar, ← Node.up_add]
    have hsib : (z.up j).sibling = (Node.leafNode slots.length).up r := by
      rw [hR, ← sibling_leafNode_up hb, Node.sibling_sibling]
    have hnot : vacantBelow (slots ++ adds.map some) (z.up j).sibling = false := by
      rw [hsib]
      obtain ⟨h, hh⟩ := hlive slots.length (Nat.le_refl _) (by omega)
      have hleaf : nodeTree (slots ++ adds.map some) (Node.leafNode slots.length) ≠ none := by
        simp [nodeTree, Node.leafNode, CTree.perfect, hh]
      rw [vacantBelow, Option.isNone_eq_false_iff, Option.isSome_iff_ne_none]
      exact nodeTree_up_ne_none hleaf r
    have hself : vacantBelow (slots ++ adds.map some)
        ((Node.leafNode slots.length).up r).sibling = false := by
      rw [← hsib, Node.sibling_sibling, vacantBelow, nodeTree_grown hj.inForest,
        Option.isNone_eq_false_iff, Option.isSome_iff_ne_none]
      exact nodeTree_up_ne_none hT j
    have hsplit : List.range' 0 (r + 1 + d) =
        List.range' 0 r ++ ([r] ++ List.range' (r + 1) d) := by
      have h1 := List.range'_append_1 (s := 0) (m := r) (n := 1 + d)
      have h2 := List.range'_append_1 (s := r) (m := 1) (n := d)
      rw [Nat.zero_add] at h1
      rw [Nat.add_assoc, ← h1, ← h2]
      rfl
    have habove : ((Node.leafNode slots.length).up (r + 1)).Above (place slots z) := by
      rw [← hpar]
      exact (Node.parent_above _).trans hy
    obtain ⟨h1, h2⟩ := hlow r (Nat.le_refl r)
    obtain ⟨h3, h4⟩ := moveAll_climb hJ habove
    have hskip : [r].filter (fun i => vacantBelow (slots ++ adds.map some)
        ((Node.leafNode slots.length).up i).sibling) = [] := by
      simp [hself]
    rw [hsplit, List.filter_append, List.filter_append, hskip, List.nil_append, List.map_append,
      clear_append, moveAll_append, h2]
    refine ⟨⟨h1, h3⟩, ?_⟩
    rw [h4, place_grown hcount hj hroot, Node.climb, if_neg (by rw [hnot]; decide), hpar]
  · -- The old root is a root still.
    have hroot : (z.up j).IsRoot (slots ++ adds.map some).length := by
      by_contra hnr
      have hin := (hj.inForest.mono (by omega : slots.length ≤ _)).parent hnr
      rw [hpar] at hin
      obtain ⟨d, rfl⟩ := Nat.exists_eq_add_of_le hge
      rw [show J + d + 1 = J + 1 + d by omega, Node.up_add, Node.up_succ] at hin
      exact Node.not_isRoot_of_parent (Node.inForest_of_up hin) hJ
    obtain ⟨h1, h2⟩ := hlow J hge
    refine ⟨h1, ?_⟩
    rw [h2, place_grown hcount hj (i := 0) (by rwa [Nat.add_zero])]
    rfl

end

/-! ### Entries moved over the roots -/

section
variable {H : Type} {n m : Nat}

/-- The rows of a larger forest. -/
theorem maybeRemap_entries {a : Nat} (hcount : n + a ≤ 2 ^ 63) {es : List (Node × H)}
    (hes : ∀ e ∈ es, e.1.InForest n) :
    maybeRemap n a (es.map (hashAndPos (treeRows n))) = es.map (hashAndPos (treeRows (n + a))) := by
  have hk := treeRows_le hcount
  have hadd : add64 n a = n + a := add64_of_lt (by omega)
  have hle : treeRows n ≤ treeRows (n + a) :=
    treeRows_le_iff.mpr (Nat.le_trans (Nat.le_add_right n a) (le_two_pow_treeRows _))
  rw [maybeRemap, hadd]
  dsimp only
  split
  · rw [List.map_map]
    refine List.map_congr_left fun e he => ?_
    have hfit := fits_of_inForest (le_two_pow_treeRows n) (hes e he)
    have hrow : e.1.row ≤ treeRows n := hfit.1
    have hlt := hfit.pos_lt_word (by omega)
    have hfit' := fits_of_inForest (le_two_pow_treeRows (n + a))
      ((hes e he).mono (Nat.le_add_right n a))
    have hlt' := hfit'.pos_lt_word hk
    rw [Function.comp_apply, hashAndPos]
    dsimp only
    rw [detectRow_nodePos (by omega) hfit, startPositionAtRow_eq (by omega) hrow,
      startPositionAtRow_eq hk (by omega), sub64_of_le hlt (by rw [nodePos]; omega),
      nodePos_sub_start, add64_of_lt (by rw [nodePos] at hlt'; omega), hashAndPos, nodePos,
      Nat.add_comm]
  · have heq : treeRows (n + a) = treeRows n := by omega
    refine List.map_congr_left fun e _ => ?_
    rw [hashAndPos, hashAndPos, heq]

/-- An order by positions determines a permuted slice whose hashes go with the positions. -/
theorem sorted_eq_withHash {V : Nat → H} {l : List (Nat × H)} {l0 : List Nat}
    (hperm : l.Perm (l0.map (withHash V))) (hs : l.Pairwise fun a b => a.1 ≤ b.1) :
    l = (sortPositions l0).map (withHash V) := by
  refine List.Perm.eq_of_pairwise (fun a b ha hb h1 h2 => ?_) hs
    (List.pairwise_map.mpr (sortPositions_sorted l0)) ?_
  · obtain ⟨p, -, rfl⟩ := List.mem_map.mp (hperm.mem_iff.mp ha)
    obtain ⟨q, -, rfl⟩ := List.mem_map.mp hb
    rw [show p = q from Nat.le_antisymm h1 h2]
  · exact hperm.trans ((sortPositions_perm l0).map _).symm

variable [DecidableEq H] [HashOps H] [SortAlg] (hm : m ≤ 2 ^ 63)
include hm

/-- One root that is written over. -/
theorem getNewPositions_single {t : Node} (ht : t.InForest m) {es : List (Node × H)}
    (hes : ∀ e ∈ es, e.1.InForest m ∧ e.2 ≠ empty ∧ ¬ t.Above e.1) :
    ∃ es' : List (Node × H),
      getNewPositions [nodePos (treeRows m) t] (es.map (hashAndPos (treeRows m))) m true =
        .ok (es'.map (hashAndPos (treeRows m))) ∧
      es'.Perm (es.map fun e => (settled m [t] e.1, e.2)) ∧
      (es'.map (hashAndPos (treeRows m))).Pairwise fun a b => a.1 ≤ b.1 := by
  have hloop := newPositionsLoop_anyOrder hm (List.pairwise_singleton _ t)
    (List.pairwise_singleton _ t) (List.forall_mem_singleton.mpr ht)
    (fun e he => ⟨(hes e he).1, fun _ => List.forall_mem_singleton.mpr (hes e he).2.2⟩)
    (fun e _ _ => Or.inl (Eq.refl true)) (Nat.zero_le (treeRows m))
  rw [List.filter_eq_self.mpr fun e he => by simpa using (hes e he).2.1, List.map_singleton]
    at hloop
  -- The nodes of the sorted entries.
  let back : Nat × H → Node × H := fun e => (nodeAt (treeRows m) e.1, e.2)
  have hback : ∀ e ∈ es, back (hashAndPos (treeRows m) (settled m [t] e.1, e.2)) =
      (settled m [t] e.1, e.2) := by
    intro e he
    have hfit := fits_of_inForest (le_two_pow_treeRows m) (settled_inForest (t := t) (hes e he).1)
    exact Prod.ext (nodeAt_nodePos (treeRows_le hm) hfit) rfl
  have hperm := SortAlg.perm Prod.fst
    (es.map fun e => hashAndPos (treeRows m) (settled m [t] e.1, e.2))
  have hself : ∀ e ∈ SortAlg.sort Prod.fst
        (es.map fun e => hashAndPos (treeRows m) (settled m [t] e.1, e.2)),
      hashAndPos (treeRows m) (back e) = e := by
    intro e he
    obtain ⟨e0, he0, rfl⟩ := List.mem_map.mp (hperm.mem_iff.mp he)
    rw [hback e0 he0]
  have hmap : ((SortAlg.sort Prod.fst (es.map fun e =>
      hashAndPos (treeRows m) (settled m [t] e.1, e.2))).map back).map (hashAndPos (treeRows m)) =
      SortAlg.sort Prod.fst (es.map fun e => hashAndPos (treeRows m) (settled m [t] e.1, e.2)) := by
    rw [List.map_map]
    exact (List.map_congr_left hself).trans (List.map_id _)
  refine ⟨(SortAlg.sort Prod.fst (es.map fun e =>
    hashAndPos (treeRows m) (settled m [t] e.1, e.2))).map back, ?_, ?_, ?_⟩
  · rw [hmap, getNewPositions, hloop, Exec.ok_bind]
  · refine (hperm.map back).trans ?_
    rw [List.map_map]
    exact .of_eq (List.map_congr_left hback)
  · rw [hmap]
    exact SortAlg.sorted _ _

/-- **All the roots that are written over.** -/
theorem moveOverRoots_entries {ts : List Node} (hts : ∀ t ∈ ts, t.InForest m)
    {es : List (Node × H)}
    (hes : ∀ e ∈ es, e.1.InForest m ∧ e.2 ≠ empty ∧ Clear m ts e.1)
    (hsorted : (es.map (hashAndPos (treeRows m))).Pairwise fun a b => a.1 ≤ b.1) :
    ∃ es' : List (Node × H),
      moveOverRoots m (ts.map (nodePos (treeRows m))) (es.map (hashAndPos (treeRows m))) =
        .ok (es'.map (hashAndPos (treeRows m))) ∧
      es'.Perm (es.map fun e => (moveAll m ts e.1, e.2)) ∧
      (es'.map (hashAndPos (treeRows m))).Pairwise fun a b => a.1 ≤ b.1 := by
  induction ts generalizing es with
  | nil => exact ⟨es, rfl, by simp [moveAll], hsorted⟩
  | cons t ts ih =>
    obtain ⟨ht, hts⟩ := List.forall_mem_cons.mp hts
    obtain ⟨es1, hrun, hperm, hsorted1⟩ := getNewPositions_single hm ht
      fun e he => ⟨(hes e he).1, (hes e he).2.1, (hes e he).2.2.1⟩
    have hes1 : ∀ e ∈ es1, e.1.InForest m ∧ e.2 ≠ empty ∧ Clear m ts e.1 := by
      intro e he
      obtain ⟨e0, he0, rfl⟩ := List.mem_map.mp (hperm.mem_iff.mp he)
      obtain ⟨h1, h2, h3⟩ := hes e0 he0
      exact ⟨settled_inForest h1, h2, h3.2⟩
    obtain ⟨es2, hrun2, hperm2, hsorted2⟩ := ih hts hes1 hsorted1
    refine ⟨es2, ?_, ?_, hsorted2⟩
    · rw [List.map_cons, moveOverRoots, hrun, Exec.ok_bind, hrun2]
    · refine hperm2.trans ?_
      have := hperm.map fun e => (moveAll m ts e.1, e.2)
      rw [List.map_map] at this
      exact this

end

/-! ### The old entries in the grown forest -/

section
variable {H : Type} [DecidableEq H] [HashOps H] [SortAlg] {slots : List (Option H)}
  {adds : List H} {leaf : H → Prop} (hi : IdealHash H leaf)
  (hnd : (liveLeaves (slots ++ adds.map some)).Nodup)
  (hleaf : ∀ h ∈ liveLeaves (slots ++ adds.map some), h ≠ empty ∧ leaf h)
  (hcount : slots.length + adds.length ≤ 2 ^ 63)

omit [DecidableEq H] [HashOps H] [SortAlg] in
theorem live_grown {h : H} (hh : h ∈ liveLeaves slots) :
    h ∈ liveLeaves (slots ++ adds.map some) := by
  rw [mem_liveLeaves] at hh ⊢
  exact List.mem_append_left _ hh

omit [DecidableEq H] [HashOps H] [SortAlg] in
include hnd in
theorem nodup_of_grown : (liveLeaves slots).Nodup := by
  rw [liveLeaves, List.filterMap_append] at hnd
  exact (List.nodup_append.mp hnd).1

include hi hnd hleaf hcount

/-- **Entries of old trees, remapped and moved over the empty roots**, are the entries of the
same trees in the grown forest. -/
theorem moveOverRoots_grown {Z : Set Node}
    (hZ : ∀ z ∈ Z, z.InForest slots.length ∧ nodeTree slots z ≠ none) {l : List Nat}
    (hl : Listing l (nodePos (treeRows slots.length) '' (place slots '' Z))) :
    ∃ l', moveOverRoots (slots ++ adds.map some).length
        ((overwritten slots.length (slots ++ adds.map some).length fun r =>
          (rootTree slots r).isNone).map (nodePos (treeRows (slots ++ adds.map some).length)))
        (maybeRemap slots.length adds.length (l.map (withHash (slotHash slots)))) =
        .ok (l'.map (withHash (slotHash (slots ++ adds.map some)))) ∧
      Listing l' (nodePos (treeRows (slots ++ adds.map some).length) ''
        (place (slots ++ adds.map some) '' Z)) := by
  have hlen : (slots ++ adds.map some).length = slots.length + adds.length := length_grown
  have hF : (slots ++ adds.map some).length ≤ 2 ^ 63 := by rwa [hlen]
  have hn : slots.length ≤ 2 ^ 63 := by omega
  have hlt : slots.length < 2 ^ 64 := by omega
  have hltF : (slots ++ adds.map some).length < 2 ^ 64 := by omega
  -- The trees at the two places.
  have hold : ∀ z ∈ Z, ∃ T, placed slots (place slots z) = some T ∧
      placed (slots ++ adds.map some) (place (slots ++ adds.map some) z) = some T := by
    intro z hz
    obtain ⟨hin, hT⟩ := hZ z hz
    obtain ⟨T, hT⟩ := Option.ne_none_iff_exists'.mp hT
    exact ⟨T, placed_place hlt hin hT,
      placed_place hltF (hin.mono (by omega)) (by rw [nodeTree_grown hin, hT])⟩
  obtain ⟨zs, hzs, hmap⟩ := exists_eq_map fun p hp => by
    have h := (hl.mem p).mp hp
    rwa [Set.image_image] at h
  have hentries : l.map (withHash (slotHash slots)) =
      (zs.map fun z => (place slots z, hashOpt (nodeTree slots z))).map
        (hashAndPos (treeRows slots.length)) := by
    rw [hmap, List.map_map, List.map_map]
    refine List.map_congr_left fun z hz => ?_
    obtain ⟨hin, hT⟩ := hZ z (hzs z hz)
    obtain ⟨T, hT⟩ := Option.ne_none_iff_exists'.mp hT
    have hp := placed_place hlt hin hT
    simp only [Function.comp_apply, withHash, hashAndPos, slotHash_nodePos hn (placed_inForest hp),
      hp, hT]
  have hinF : ∀ z ∈ Z, (place slots z).InForest slots.length := by
    intro z hz
    obtain ⟨T, hT, -⟩ := hold z hz
    exact placed_inForest hT
  have hes : ∀ e ∈ zs.map fun z => (place slots z, hashOpt (nodeTree slots z)),
      ∃ z ∈ Z, e = (place slots z, hashOpt (nodeTree slots z)) := by
    intro e he
    obtain ⟨z, hz, rfl⟩ := List.mem_map.mp he
    exact ⟨z, hzs z hz, rfl⟩
  have hremap := maybeRemap_entries hcount fun e he => by
    obtain ⟨z, hz, rfl⟩ := hes e he
    exact hinF z hz
  rw [← hlen] at hremap
  have hsorted : ((zs.map fun z => (place slots z, hashOpt (nodeTree slots z))).map
      (hashAndPos (treeRows (slots ++ adds.map some).length))).Pairwise fun a b => a.1 ≤ b.1 := by
    have h := hl.sorted
    rw [hmap, List.pairwise_map] at h
    rw [List.map_map, List.pairwise_map]
    refine h.imp_of_mem fun {z w} hz hw hzw => ?_
    have hz' := hinF z (hzs z hz)
    have hw' := hinF w (hzs w hw)
    have hb := (nodePos_lt_iff (le_two_pow_treeRows _) hz' hw').mp hzw
    exact Nat.le_of_lt ((nodePos_lt_iff (le_two_pow_treeRows _) (hz'.mono (by omega))
      (hw'.mono (by omega))).mpr hb)
  obtain ⟨es', hrun, hperm, hsorted'⟩ := moveOverRoots_entries hF
    (fun t ht => inForest_of_overwritten (by omega : slots.length ≤ _) ht)
    (fun e he => by
      obtain ⟨z, hz, rfl⟩ := hes e he
      obtain ⟨hin, hT⟩ := hZ z hz
      refine ⟨(hinF z hz).mono (by omega), ?_, (moveAll_place hcount hin hT).1⟩
      obtain ⟨T, hT⟩ := Option.ne_none_iff_exists'.mp hT
      rw [hT]
      refine treeHash_ne_empty hi.ne_empty fun h hh => (hleaf h (live_grown ?_)).1
      exact placed_leaves_subset (placed_place hlt hin hT) h hh) hsorted
  -- The entries are those of the grown forest.
  have hmoved : ((zs.map fun z => (place slots z, hashOpt (nodeTree slots z))).map fun e =>
      (moveAll (slots ++ adds.map some).length (overwritten slots.length
        (slots ++ adds.map some).length fun r => (rootTree slots r).isNone) e.1, e.2)).map
        (hashAndPos (treeRows (slots ++ adds.map some).length)) =
      (zs.map fun z => nodePos (treeRows (slots ++ adds.map some).length)
        (place (slots ++ adds.map some) z)).map
          (withHash (slotHash (slots ++ adds.map some))) := by
    rw [List.map_map, List.map_map, List.map_map]
    refine List.map_congr_left fun z hz => ?_
    obtain ⟨hin, hT⟩ := hZ z (hzs z hz)
    have hplace := (moveAll_place hcount hin hT).2
    obtain ⟨T, hT⟩ := Option.ne_none_iff_exists'.mp hT
    have hp := placed_place hltF (hin.mono (by omega)) (by rw [nodeTree_grown hin, hT])
    simp only [Function.comp_apply, withHash, hashAndPos, hplace,
      slotHash_nodePos hF (placed_inForest hp), hp, hT]
  have hnodup : (zs.map fun z => nodePos (treeRows (slots ++ adds.map some).length)
      (place (slots ++ adds.map some) z)).Nodup := by
    have h := hl.nodup
    rw [hmap, List.Nodup, List.pairwise_map] at h
    rw [List.Nodup, List.pairwise_map]
    refine h.imp_of_mem fun {z w} hz hw hne he => hne ?_
    obtain ⟨T, hT, hTF⟩ := hold z (hzs z hz)
    obtain ⟨U, hU, hUF⟩ := hold w (hzs w hw)
    have hpl := nodePos_inj (le_two_pow_treeRows _) (placed_inForest hTF) (placed_inForest hUF) he
    rw [hpl, hUF] at hTF
    cases hTF
    rw [placed_unique hlt (nodup_of_grown hnd) hT hU]
  have hfinal := sorted_eq_withHash (((hperm.map _).trans (.of_eq hmoved))) hsorted'
  refine ⟨_, ?_, (sort_listing hnodup).congr fun p => ?_⟩
  · rw [hentries, hremap, hrun, hfinal]
  · rw [Set.image_image]
    constructor
    · intro hp
      obtain ⟨z, hz, rfl⟩ := List.mem_map.mp hp
      exact ⟨z, hzs z hz, rfl⟩
    · rintro ⟨z, hz, rfl⟩
      have hmem : nodePos (treeRows slots.length) (place slots z) ∈ l :=
        (hl.mem _).mpr ⟨_, ⟨z, hz, rfl⟩, rfl⟩
      rw [hmap] at hmem
      obtain ⟨w, hw, he⟩ := List.mem_map.mp hmem
      obtain ⟨T, hT, hTF⟩ := hold z hz
      obtain ⟨U, hU, hUF⟩ := hold w (hzs w hw)
      have hpl := nodePos_inj (le_two_pow_treeRows _) (placed_inForest hU) (placed_inForest hT) he
      rw [hpl, hT] at hU
      cases hU
      refine List.mem_map.mpr ⟨w, hw, ?_⟩
      rw [placed_unique hltF hnd hUF hTF]

end

end Utreexo
