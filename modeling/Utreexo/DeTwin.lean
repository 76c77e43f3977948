import Utreexo.Antichain
import Utreexo.NodePos

/-! # Replacing siblings by their parent

`deTwin` on the positions of an antichain: it returns the positions of an antichain
without siblings that stands for the same subtrees.
-/
namespace Utreexo
open Merkle

theorem insertInOrder_eq (dels : List Nat) (el : Nat) :
    insertInOrder dels el = dels.orderedInsert (· < ·) el := by
  induction dels with
  | nil => rfl
  | cons d dels ih =>
    rw [List.orderedInsert_cons, ← ih]
    unfold insertInOrder
    by_cases h : el < d
    · simp [List.findIdx_cons, h]
    · simp [List.findIdx_cons, h]

section
variable {k : Nat}

theorem insertInOrder_nodePos {xs : List Node} {x : Node} (hx : Fits k x)
    (hxs : ∀ y ∈ xs, Fits k y) :
    insertInOrder (xs.map (nodePos k)) (nodePos k x) =
      (xs.orderedInsert Node.Before x).map (nodePos k) := by
  rw [insertInOrder_eq]
  exact (List.map_orderedInsert Node.Before (· < ·) (nodePos k) xs x
    (fun y hy => ((hxs y hy).pos_lt_iff hx).symm) fun y hy => (hx.pos_lt_iff (hxs y hy)).symm).symm

/-- Below the top, a later node is found by `rightSib` exactly if it is the sibling. -/
theorem rightSib_eq_iff {x y : Node} (hx : Fits k x) (hy : Fits k y) (hb : x.Before y) :
    rightSib (nodePos k x) = nodePos k y ↔ y = x.sibling := by
  have hrow : x.row < k ∨ x.row = k := Nat.lt_or_eq_of_le hx.1
  rw [rightSib_nodePos hx]
  constructor
  · intro h
    split at h
    · rcases hrow with hrow | hrow
      · exact (hy.pos_inj (hx.sibling hrow) h.symm)
      · have h1 := hx.2
        have h2 := hy.2
        have h3 := hy.1
        unfold Node.Before at hb
        rw [hrow, Nat.sub_self] at h1
        obtain hb | ⟨hb, hb'⟩ := hb
        · omega
        · rw [← hb, hrow, Nat.sub_self] at h2
          omega
    · obtain rfl := hx.pos_inj hy h
      exact absurd hb (Node.Before.irrefl _)
  · rintro rfl
    rw [if_pos ((Node.before_sibling_iff x).mp hb)]

/-- What a set of nodes may consist of, and what a node stands for: siblings can be
replaced by their parent. -/
structure Mergeable {α : Type} (k : Nat) (P : Node → Prop) (w : Node → List α) : Prop where
  fits : ∀ {x}, P x → Fits k x
  parent : ∀ {x}, P x → P x.sibling → x.Before x.sibling → P x.parent
  perm : ∀ {x}, P x → P x.sibling → x.Before x.sibling → (w x.parent).Perm (w x ++ w x.sibling)

variable {α : Type} {P : Node → Prop} {w : Node → List α}

section Step
variable {a b : List Node} {x : Node}

/-- The parent is inserted behind the nodes before its children. -/
theorem orderedInsert_parent (hanti : Antichain (a ++ x :: x.sibling :: b)) :
    (a ++ b).orderedInsert Node.Before x.parent = a ++ b.orderedInsert Node.Before x.parent := by
  induction a with
  | nil => rfl
  | cons y a ih =>
    obtain ⟨hy, hanti⟩ := List.pairwise_cons.mp hanti
    have hyx : y.Before x := (hy x (by simp)).1
    have hnot : ¬ x.parent.Before y := fun h =>
      Node.Before.irrefl _ (h.trans (hyx.trans x.before_parent))
    rw [List.cons_append, List.orderedInsert_cons, if_neg hnot, ih hanti]
    rfl

theorem antichain_merge (hanti : Antichain (a ++ x :: x.sibling :: b)) :
    Antichain (a ++ b.orderedInsert Node.Before x.parent) := by
  rw [← orderedInsert_parent hanti]
  obtain ⟨ha, hb, hab⟩ := List.pairwise_append.mp hanti
  obtain ⟨hx, hb⟩ := List.pairwise_cons.mp hb
  obtain ⟨hs, hb⟩ := List.pairwise_cons.mp hb
  refine Antichain.insert (List.pairwise_append.mpr ⟨ha, hb, fun y hy z hz => hab y hy z ?_⟩) ?_
  · simp [hz]
  · intro y hy
    rcases List.mem_append.mp hy with hy | hy
    · exact Node.Apart.parent (hab y hy x (by simp)).2.symm
        (hab y hy x.sibling (by simp)).2.symm
    · exact Node.Apart.parent (hx y (by simp [hy])).2 (hs y hy).2

/-- No neighbours before the merged ones have become siblings. -/
theorem adjacent_merge (hanti : Antichain (a ++ x :: x.sibling :: b)) {m : Nat} (hm : m < a.length)
    (hadj : ∀ y z, (a ++ x :: x.sibling :: b)[m]? = some y →
      (a ++ x :: x.sibling :: b)[m + 1]? = some z → z ≠ y.sibling) :
    ∀ y z, (a ++ b.orderedInsert Node.Before x.parent)[m]? = some y →
      (a ++ b.orderedInsert Node.Before x.parent)[m + 1]? = some z → z ≠ y.sibling := by
  intro y z hy hz
  rw [List.getElem?_append_left hm] at hy
  by_cases hm1 : m + 1 < a.length
  · rw [List.getElem?_append_left hm1] at hz
    refine hadj y z ?_ ?_
    · rwa [List.getElem?_append_left hm]
    · rwa [List.getElem?_append_left hm1]
  · -- The next node comes after both siblings.
    have hya : y ∈ a := List.mem_of_getElem? hy
    obtain ⟨-, hb, hab⟩ := List.pairwise_append.mp hanti
    have hyx : y.Before x := (hab y hya x (by simp)).1
    have hxz : x.Before z := by
      rw [List.getElem?_append_right (by omega)] at hz
      rcases (List.mem_orderedInsert _).mp (List.mem_of_getElem? hz) with rfl | hzb
      · exact x.before_parent
      · exact ((List.pairwise_cons.mp hb).1 z (by simp [hzb])).1
    rintro rfl
    rcases (hyx.trans hxz).sibling_next hyx with he | hlt
    · exact Node.Before.irrefl _ (he ▸ hxz)
    · exact Node.Before.irrefl _ (hlt.trans hxz)

/-- The list without the two entries behind `a`. -/
theorem map_take_append_drop {α β : Type} (f : α → β) (a b : List α) (x y : α) :
    ((a ++ x :: y :: b).map f).take a.length ++ ((a ++ x :: y :: b).map f).drop (a.length + 2) =
      (a ++ b).map f := by
  rw [← List.map_take, ← List.map_drop, ← List.map_append, List.take_left,
    List.drop_length_add_append]
  rfl

/-- The positions after a merge. -/
theorem merge_positions (hk : k ≤ 63) (hanti : Antichain (a ++ x :: x.sibling :: b))
    (hfits : ∀ y ∈ a ++ x :: x.sibling :: b, Fits k y) (hp : Fits k x.parent) :
    insertInOrder (((a ++ x :: x.sibling :: b).map (nodePos k)).take a.length ++
        ((a ++ x :: x.sibling :: b).map (nodePos k)).drop (a.length + 2)) (parent (nodePos k x) k) =
      (a ++ b.orderedInsert Node.Before x.parent).map (nodePos k) := by
  have hsub : ∀ y ∈ a ++ b, Fits k y := by
    intro y hy
    refine hfits y ?_
    simp only [List.mem_append, List.mem_cons] at hy ⊢
    tauto
  rw [map_take_append_drop, parent_nodePos hk (hfits x (by simp)) hp.1,
    insertInOrder_nodePos hp hsub, orderedInsert_parent hanti]

/-- What the nodes stand for stays the same. -/
theorem merge_perm (hperm : (w x.parent).Perm (w x ++ w x.sibling)) :
    ((a ++ b.orderedInsert Node.Before x.parent).flatMap w).Perm
      ((a ++ x :: x.sibling :: b).flatMap w) := by
  simp only [List.flatMap_append, List.flatMap_cons]
  refine List.Perm.append_left _ ?_
  refine ((List.perm_orderedInsert _ _ _).flatMap_right _).trans ?_
  rw [List.flatMap_cons, ← List.append_assoc]
  exact hperm.append_right _

end Step

/-! ### Nodes with data -/

/-- What is asked of nodes with data: siblings can be replaced by their parent with the data
joined. -/
structure Joinable {β : Type} (k : Nat) (P : Node → β → Prop) (join : β → β → β) : Prop where
  fits : ∀ {x a}, P x a → Fits k x
  parent : ∀ {x a b}, P x a → P x.sibling b → x.Before x.sibling → P x.parent (join a b)

section Scan
variable {β : Type} {ts : List (Node × β)}

/-- What the scan finds at an index: the end, the last node, a node that is not followed by its
sibling, or two siblings. -/
theorem scan_cases (hanti : Antichain (ts.map Prod.fst)) (hfits : ∀ e ∈ ts, Fits k e.1)
    (i : Nat) :
    ts.length ≤ i ∨ (i < ts.length ∧ ∃ e, ts[i]? = some e ∧ ts[i + 1]? = none) ∨
    (i < ts.length ∧ ∃ e e', ts[i]? = some e ∧ ts[i + 1]? = some e' ∧
      rightSib (nodePos k e.1) ≠ nodePos k e'.1) ∨
    ∃ ta tb x a b, ts = ta ++ (x, a) :: (x.sibling, b) :: tb ∧ ta.length = i ∧
      x.Before x.sibling ∧ rightSib (nodePos k x) = nodePos k x.sibling := by
  by_cases hlt : i < ts.length
  · right
    obtain ⟨⟨x, a⟩, hx⟩ : ∃ e, ts[i]? = some e := ⟨_, List.getElem?_eq_getElem hlt⟩
    rcases hy : ts[i + 1]? with _ | ⟨y, b⟩
    · exact Or.inl ⟨hlt, _, hx, rfl⟩
    · right
      have hsplit : ts = ts.take i ++ (x, a) :: (y, b) :: ts.drop (i + 2) := by
        obtain ⟨hi, hx⟩ := List.getElem?_eq_some_iff.mp hx
        obtain ⟨hi1, hy⟩ := List.getElem?_eq_some_iff.mp hy
        rw [← hy, ← List.drop_eq_getElem_cons hi1, ← hx, ← List.drop_eq_getElem_cons hi,
          List.take_append_drop]
      have hfx : Fits k x := hfits _ (List.mem_of_getElem? hx)
      have hfy : Fits k y := hfits _ (List.mem_of_getElem? hy)
      have hxy : x.Before y := by
        rw [hsplit, List.map_append] at hanti
        exact ((List.pairwise_cons.mp (List.pairwise_append.mp hanti).2.1).1 y (by simp)).1
      by_cases hsib : y = x.sibling
      · subst hsib
        exact Or.inr ⟨_, _, x, a, b, hsplit, List.length_take_of_le hlt.le, hxy,
          (rightSib_eq_iff hfx hfy hxy).mpr rfl⟩
      · exact Or.inl ⟨hlt, _, _, hx, rfl, mt (rightSib_eq_iff hfx hfy hxy).mp hsib⟩
  · exact Or.inl (Nat.not_lt.mp hlt)

theorem map_fst_orderedInsert (ts : List (Node × β)) (e : Node × β) :
    (ts.orderedInsert (fun a b => a.1.Before b.1) e).map Prod.fst =
      (ts.map Prod.fst).orderedInsert Node.Before e.1 :=
  List.map_orderedInsert _ _ Prod.fst ts e (fun _ _ => Iff.rfl) fun _ _ => Iff.rfl

variable {ta tb : List (Node × β)} {x : Node} {a b c : β}

/-- The nodes once two siblings have been replaced by their parent. -/
theorem map_fst_merge
    (hanti : Antichain ((ta ++ (x, a) :: (x.sibling, b) :: tb).map Prod.fst)) :
    ((ta ++ tb).orderedInsert (fun a b => a.1.Before b.1) (x.parent, c)).map Prod.fst =
      ta.map Prod.fst ++ (tb.map Prod.fst).orderedInsert Node.Before x.parent := by
  rw [List.map_append] at hanti
  rw [map_fst_orderedInsert, List.map_append, orderedInsert_parent hanti]

theorem antichain_map_fst_merge
    (hanti : Antichain ((ta ++ (x, a) :: (x.sibling, b) :: tb).map Prod.fst)) :
    Antichain (((ta ++ tb).orderedInsert (fun a b => a.1.Before b.1) (x.parent, c)).map
      Prod.fst) := by
  rw [map_fst_merge hanti]
  rw [List.map_append] at hanti
  exact antichain_merge hanti

/-- The parent of two siblings is not in the list yet. -/
theorem ne_parent_of_mem
    (hanti : Antichain ((ta ++ (x, a) :: (x.sibling, b) :: tb).map Prod.fst)) {e : Node × β}
    (he : e ∈ ta ++ tb) : e.1 ≠ x.parent := by
  rw [List.map_append] at hanti
  obtain ⟨-, hx, htax⟩ := List.pairwise_append.mp hanti
  have hapart : e.1.Apart x := by
    rcases List.mem_append.mp he with he | he
    · exact (htax e.1 (List.mem_map_of_mem he) x (by simp)).2
    · have hmem : e.1 ∈ x.sibling :: tb.map Prod.fst :=
        List.mem_cons_of_mem _ (List.mem_map_of_mem he)
      exact ((List.pairwise_cons.mp hx).1 e.1 hmem).2.symm
  intro heq
  exact hapart.1 (heq ▸ x.parent_above)

/-- The round of `deTwin` that merges two siblings. -/
theorem merge_positions_map (hk : k ≤ 63)
    (hanti : Antichain ((ta ++ (x, a) :: (x.sibling, b) :: tb).map Prod.fst))
    (hfits : ∀ e ∈ ta ++ (x, a) :: (x.sibling, b) :: tb, Fits k e.1) (hp : Fits k x.parent) :
    let l := ((ta ++ (x, a) :: (x.sibling, b) :: tb).map Prod.fst).map (nodePos k)
    insertInOrder (l.take ta.length ++ l.drop (ta.length + 2)) (parent (nodePos k x) k) =
      (((ta ++ tb).orderedInsert (fun a b => a.1.Before b.1) (x.parent, c)).map Prod.fst).map
        (nodePos k) := by
  have hfits' := List.forall_mem_map.mpr hfits
  rw [map_fst_merge hanti]
  rw [List.map_append] at hanti hfits' ⊢
  rw [show ta.length = (ta.map Prod.fst).length from (List.length_map _).symm]
  exact merge_positions hk hanti hfits' hp

end Scan

theorem deTwinLoop_spec (hk : k ≤ 63) (hmerge : Mergeable k P w) (fuel : Nat) :
    ∀ {i : Nat} {xs : List Node}, Antichain xs → (∀ x ∈ xs, P x) → i ≤ xs.length →
      (∀ m < i, ∀ x y, xs[m]? = some x → xs[m + 1]? = some y → y ≠ x.sibling) →
      2 * xs.length < fuel + i →
      ∃ ys, deTwinLoop k fuel i (xs.map (nodePos k)) = ys.map (nodePos k) ∧ Antichain ys ∧
        (∀ y ∈ ys, P y) ∧ Twinless ys ∧ (ys.flatMap w).Perm (xs.flatMap w) := by
  induction fuel with
  | zero =>
    intro i xs _ _ hi _ hf
    omega
  | succ fuel ih =>
    intro i xs hanti hP hi hadj hf
    rw [deTwinLoop]
    by_cases hlt : i < xs.length
    · rw [if_pos (by simpa using hlt)]
      have hx : xs[i]? = some xs[i] := List.getElem?_eq_getElem hlt
      have hPx : P xs[i] := hP _ (List.getElem_mem hlt)
      by_cases hlt1 : i + 1 < xs.length
      · have hy : xs[i + 1]? = some xs[i + 1] := List.getElem?_eq_getElem hlt1
        have hPy : P xs[i + 1] := hP _ (List.getElem_mem hlt1)
        have hxy := List.pairwise_iff_getElem.mp hanti i (i + 1) hlt hlt1 (Nat.lt_succ_self i)
        have hfit := hmerge.fits hPx
        rw [List.getElem?_map, List.getElem?_map, hx, hy]
        simp only [Option.map_some]
        by_cases hsib : xs[i + 1] = xs[i].sibling
        · rw [if_pos ((rightSib_eq_iff hfit (hmerge.fits hPy) hxy.1).mpr hsib)]
          obtain ⟨a, b, x, rfl, rfl⟩ : ∃ a b x, xs = a ++ x :: x.sibling :: b ∧ a.length = i := by
            refine ⟨xs.take i, xs.drop (i + 2), xs[i], ?_, by simp; omega⟩
            rw [← hsib, ← List.drop_eq_getElem_cons hlt1, ← List.drop_eq_getElem_cons hlt,
              List.take_append_drop]
          have hget : (a ++ x :: x.sibling :: b)[a.length] = x := by simp
          have hPs : P x.sibling := hP _ (by simp)
          rw [hget] at hPx hfit hxy hsib ⊢
          rw [hsib] at hxy
          have hPp := hmerge.parent hPx hPs hxy.1
          rw [merge_positions hk hanti (fun y hy => hmerge.fits (hP y hy)) (hmerge.fits hPp)]
          have hPz : ∀ z ∈ a ++ b.orderedInsert Node.Before x.parent, P z := by
            intro z hz
            simp only [List.mem_append, List.mem_orderedInsert] at hz
            rcases hz with hz | rfl | hz
            · exact hP z (by simp [hz])
            · exact hPp
            · exact hP z (by simp [hz])
          simp only [List.length_append, List.length_cons] at hf
          obtain ⟨ys, hys, h1, h2, h3, h4⟩ := ih (i := a.length) (antichain_merge hanti) hPz
            (by simp)
            (fun m hm => adjacent_merge hanti hm (hadj m hm))
            (by simp only [List.length_append, List.orderedInsert_length]; omega)
          exact ⟨ys, hys, h1, h2, h3, h4.trans (merge_perm (hmerge.perm hPx hPs hxy.1))⟩
        · rw [if_neg (mt (rightSib_eq_iff hfit (hmerge.fits hPy) hxy.1).mp hsib)]
          refine ih hanti hP hlt (fun m hm x y hmx hmy => ?_) (by omega)
          rcases Nat.lt_succ_iff_lt_or_eq.mp hm with hm | rfl
          · exact hadj m hm x y hmx hmy
          · rw [hx, Option.some.injEq] at hmx
            rw [hy, Option.some.injEq] at hmy
            rwa [← hmx, ← hmy]
      · have hnone : (xs.map (nodePos k))[i + 1]? = none := by
          rw [List.getElem?_eq_none_iff, List.length_map]
          omega
        rw [List.getElem?_map, hx, hnone]
        refine ih hanti hP hlt (fun m hm x y hmx hmy => ?_) (by omega)
        refine hadj m ?_ x y hmx hmy
        have := (List.getElem?_eq_some_iff.mp hmy).1
        omega
    · rw [if_neg (by simpa using hlt)]
      refine ⟨xs, rfl, hanti, hP, hanti.twinless fun m x y hx hy => ?_, List.Perm.refl _⟩
      refine hadj m ?_ x y hx hy
      have := (List.getElem?_eq_some_iff.mp hx).1
      omega

/-- **`deTwin` on an antichain.** -/
theorem deTwin_spec (hk : k ≤ 63) (hmerge : Mergeable k P w) {xs : List Node}
    (hanti : Antichain xs) (hP : ∀ x ∈ xs, P x) :
    ∃ ys, deTwin (xs.map (nodePos k)) k = ys.map (nodePos k) ∧ Antichain ys ∧
      (∀ y ∈ ys, P y) ∧ Twinless ys ∧ (ys.flatMap w).Perm (xs.flatMap w) :=
  deTwinLoop_spec hk hmerge _ hanti hP (Nat.zero_le _) (fun m hm => absurd hm (Nat.not_lt_zero m))
    (by rw [List.length_map]; omega)

end

end Utreexo
