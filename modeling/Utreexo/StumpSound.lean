import Utreexo.HashExpr
import Utreexo.StumpAdd

/-! # The Stump deletes only what it is told to

A run of `Stump.update` calls against any prover.  The positions and the hashes of
the proofs are arbitrary; only the deleted hashes are hashes of leaves.  Whenever a
call succeeds, the deleted hashes are distinct live leaves and the roots are those
of the collapsed forest without them; a call that fails changes nothing.

Nothing is known about which root a candidate is compared with.  What counts is
that the candidate is equal to some root, and `HashExpr.deletes_of_before_eq` then
says what the second pass makes of it.
-/
namespace Utreexo
open Merkle

variable {H : Type} [DecidableEq H] [HashOps H]

/-! ### Matching candidates with roots -/

omit [HashOps H] in
/-- The candidates that are matched, in order, and the roots they are equal to,
from the lowest row to the highest. -/
theorem matchRoots_spec (rest cands : List H) (acc : List Nat) :
    ∃ idxs, matchRoots rest cands acc = acc ++ idxs ∧ idxs.length ≤ cands.length ∧
      idxs.Pairwise (· > ·) ∧ (∀ i ∈ idxs, i < rest.length) ∧
      List.Forall₂ (fun i c => rest.reverse[i]? = some c) idxs (cands.take idxs.length) := by
  induction rest generalizing cands acc with
  | nil => exact ⟨[], by simp [matchRoots], by simp, by simp, by simp, by simp⟩
  | cons root rest ih =>
    -- What holds of the roots above holds with one more root below them.
    have weaken : ∀ {idxs : List Nat} {cs : List H}, (∀ i ∈ idxs, i < rest.length) →
        List.Forall₂ (fun i c => rest.reverse[i]? = some c) idxs cs →
        List.Forall₂ (fun i c => (root :: rest).reverse[i]? = some c) idxs cs := by
      intro idxs cs hlt hf
      induction hf with
      | nil => exact .nil
      | cons h _ ih' =>
        refine .cons ?_ (ih' fun i hi => hlt i (List.mem_cons_of_mem _ hi))
        rw [List.reverse_cons, List.getElem?_append_left]
        · exact h
        · rw [List.length_reverse]
          exact hlt _ List.mem_cons_self
    cases cands with
    | nil =>
      obtain ⟨idxs, h1, h2, h3, h4, h5⟩ := ih [] acc
      refine ⟨idxs, by rw [matchRoots, h1], h2, h3, ?_, weaken h4 h5⟩
      exact fun i hi => Nat.lt_succ_of_lt (h4 i hi)
    | cons c cs =>
      by_cases hc : root = c
      · obtain ⟨idxs, h1, h2, h3, h4, h5⟩ := ih cs (acc ++ [rest.length])
        refine ⟨rest.length :: idxs, ?_, ?_, ?_, ?_, ?_⟩
        · rw [matchRoots, if_pos hc, h1, List.append_assoc, List.singleton_append]
        · simpa using h2
        · exact List.pairwise_cons.mpr ⟨h4, h3⟩
        · intro i hi
          rcases List.mem_cons.mp hi with rfl | hi
          · exact Nat.lt_succ_self _
          · exact Nat.lt_succ_of_lt (h4 i hi)
        · rw [List.length_cons, List.take_succ_cons]
          refine .cons ?_ (weaken h4 h5)
          rw [List.reverse_cons, ← List.length_reverse, List.getElem?_concat_length, hc]
      · obtain ⟨idxs, h1, h2, h3, h4, h5⟩ := ih (c :: cs) acc
        refine ⟨idxs, by rw [matchRoots, if_neg hc, h1], h2, h3, ?_, weaken h4 h5⟩
        exact fun i hi => Nat.lt_succ_of_lt (h4 i hi)

omit [HashOps H] in
/-- When all candidates are matched, each one equals the root at its index, and no
index occurs twice. -/
theorem matchRoots_all {roots cands : List H}
    (h : cands.length = (matchRoots roots.reverse cands []).length) :
    (matchRoots roots.reverse cands []).Pairwise (· > ·) ∧
      List.Forall₂ (fun i c => roots[i]? = some c) (matchRoots roots.reverse cands []) cands := by
  obtain ⟨idxs, h1, _, h3, _, h5⟩ := matchRoots_spec roots.reverse cands []
  rw [List.nil_append] at h1
  rw [h1] at h ⊢
  rw [← h, List.take_length, List.reverse_reverse] at h5
  exact ⟨h3, h5⟩

/-! ### Deleting from the trees -/

section Trees
variable {leaf : H → Prop} (hi : IdealHash H leaf)
include hi

/-- A candidate that equals the hash of a tree, or of the empty tree: its targets
are distinct leaves of the tree, and its second value is the hash of what is left. -/
theorem HashExpr.deletes_opt {e : HashExpr H} {t : Option (CTree H)}
    (htar : ∀ h ∈ e.targets, h ≠ empty ∧ leaf h)
    (ht : ∀ h ∈ CTree.leavesOpt t, h ≠ empty ∧ leaf h) (hnd : (CTree.leavesOpt t).Nodup)
    (heq : e.before = hashOpt t) :
    (∀ h ∈ e.targets, h ∈ CTree.leavesOpt t) ∧ e.targets.Nodup ∧
      e.after = hashOpt (t.bind (CTree.prune fun h => decide (h ∈ e.targets))) := by
  cases t with
  | none =>
    obtain ⟨h1, h2⟩ := HashExpr.of_before_eq_empty hi (fun h hh => (htar h hh).1) heq
    rw [h1]
    exact ⟨by simp, by simp, h2⟩
  | some t =>
    obtain ⟨h1, h2, h3⟩ := HashExpr.deletes_of_before_eq hi htar ht hnd heq
    exact ⟨h1, h2, h3⟩

/-- The targets of one candidate are in one tree, so pruning that tree prunes the
forest. -/
theorem set_root_eq {trees : List (Option (CTree H))} {i : Nat} {e : HashExpr H}
    (htrees : ∀ h ∈ trees.flatMap CTree.leavesOpt, h ≠ empty ∧ leaf h)
    (hnd : (trees.flatMap CTree.leavesOpt).Nodup)
    (htar : ∀ h ∈ e.targets, h ≠ empty ∧ leaf h)
    (he : (trees.map hashOpt)[i]? = some e.before) :
    (∀ h ∈ e.targets, h ∈ trees.flatMap CTree.leavesOpt) ∧ e.targets.Nodup ∧
      (trees.map hashOpt).set i e.after =
        (trees.map (·.bind (CTree.prune fun h => decide (h ∈ e.targets)))).map hashOpt := by
  rw [List.getElem?_map, Option.map_eq_some_iff] at he
  obtain ⟨t, hti, heq⟩ := he
  have hmem : t ∈ trees := List.mem_of_getElem? hti
  obtain ⟨hnd1, hpw⟩ := List.nodup_flatMap.mp hnd
  have hin : ∀ h ∈ CTree.leavesOpt t, h ∈ trees.flatMap CTree.leavesOpt :=
    fun h hh => List.mem_flatMap.mpr ⟨t, hmem, hh⟩
  obtain ⟨h1, h2, h3⟩ := HashExpr.deletes_opt hi htar (fun h hh => htrees h (hin h hh))
    (hnd1 t hmem) heq.symm
  refine ⟨fun h hh => hin h (h1 h hh), h2, List.ext_getElem? fun j => ?_⟩
  rw [List.getElem?_set, List.map_map, List.getElem?_map, List.getElem?_map]
  by_cases hij : i = j
  · subst hij
    obtain ⟨hlt, _⟩ := List.getElem?_eq_some_iff.mp hti
    rw [if_pos rfl, List.length_map, if_pos hlt, hti, h3]
    rfl
  · rw [if_neg hij]
    cases htj : trees[j]? with
    | none => rfl
    | some u =>
      -- The other trees share no leaf with this one.
      have hdisj : ∀ h ∈ CTree.leavesOpt u, h ∉ e.targets := by
        intro h hu hh
        obtain ⟨hi', hti'⟩ := List.getElem?_eq_some_iff.mp hti
        obtain ⟨hj', htj'⟩ := List.getElem?_eq_some_iff.mp htj
        rcases Nat.lt_or_gt_of_ne hij with hlt | hlt
        · have := List.pairwise_iff_getElem.mp hpw i j hi' hj' hlt
          rw [hti', htj'] at this
          exact this (h1 h hh) hu
        · have := List.pairwise_iff_getElem.mp hpw j i hj' hi' hlt
          rw [hti', htj'] at this
          exact this hu (h1 h hh)
      cases u with
      | none => rfl
      | some u =>
        simp only [Option.map_some, Function.comp_apply, Option.bind_some]
        rw [CTree.prune_of_none_dead fun h hh => decide_eq_false (hdisj h hh)]

/-- **The second pass.**  Candidates that equal the roots at distinct indexes delete
distinct leaves, and writing their second values over the roots gives the roots of
the forest without those leaves. -/
theorem setRoots_eq {trees : List (Option (CTree H))} {idxs : List Nat} {exprs : List (HashExpr H)}
    (htrees : ∀ h ∈ trees.flatMap CTree.leavesOpt, h ≠ empty ∧ leaf h)
    (hnd : (trees.flatMap CTree.leavesOpt).Nodup)
    (htar : ∀ h ∈ exprs.flatMap HashExpr.targets, h ≠ empty ∧ leaf h)
    (hidx : idxs.Pairwise (· > ·))
    (hmatch : List.Forall₂ (fun i e => (trees.map hashOpt)[i]? = some e.before) idxs exprs) :
    (∀ h ∈ exprs.flatMap HashExpr.targets, h ∈ trees.flatMap CTree.leavesOpt) ∧
      (exprs.flatMap HashExpr.targets).Nodup ∧
      setRoots (trees.map hashOpt) idxs (exprs.map HashExpr.after) =
        (trees.map (·.bind (CTree.prune fun h =>
          decide (h ∈ exprs.flatMap HashExpr.targets)))).map hashOpt := by
  induction idxs generalizing trees exprs with
  | nil =>
    cases hmatch
    refine ⟨by simp, by simp, ?_⟩
    rw [setRoots]
    · congr 1
      refine (List.map_id trees).symm.trans (List.map_congr_left fun t _ => ?_)
      cases t with
      | none => rfl
      | some t => exact (CTree.prune_of_none_dead (by simp)).symm
    · simp
  | cons i idxs ih =>
    obtain ⟨e, exprs, he, hrest, rfl⟩ := List.forall₂_cons_left_iff.mp hmatch
    obtain ⟨hgt, hidx'⟩ := List.pairwise_cons.mp hidx
    have htar1 : ∀ h ∈ e.targets, h ≠ empty ∧ leaf h := fun h hh => htar h (by simp [hh])
    obtain ⟨h1, h2, h3⟩ := set_root_eq hi htrees hnd htar1 he
    set trees' := trees.map (·.bind (CTree.prune fun h => decide (h ∈ e.targets))) with htr
    have hleaves : trees'.flatMap CTree.leavesOpt =
        (trees.flatMap CTree.leavesOpt).filter fun h => !decide (h ∈ e.targets) := by
      rw [htr, List.flatMap_map, List.filter_flatMap]
      refine List.flatMap_congr fun t _ => ?_
      cases t with
      | none => rfl
      | some t => exact CTree.leavesOpt_prune _ t
    have hsub : ∀ h ∈ trees'.flatMap CTree.leavesOpt,
        h ∈ trees.flatMap CTree.leavesOpt ∧ h ∉ e.targets := by
      intro h hh
      rw [hleaves, List.mem_filter] at hh
      exact ⟨hh.1, by simpa using hh.2⟩
    -- The remaining indexes are lower, so their roots have not changed.
    have hrest' :
        List.Forall₂ (fun i e => (trees'.map hashOpt)[i]? = some e.before) idxs exprs := by
      rw [← h3]
      obtain ⟨hlen, hget⟩ := List.forall₂_iff_get.mp hrest
      refine List.forall₂_iff_get.mpr ⟨hlen, fun k hk hk' => ?_⟩
      rw [List.getElem?_set_ne]
      · exact hget k hk hk'
      · exact Nat.ne_of_gt (hgt _ (List.get_mem _ _))
    obtain ⟨ih1, ih2, ih3⟩ := ih (fun h hh => htrees h (hsub h hh).1)
      (by rw [hleaves]; exact hnd.filter _) (fun h hh => htar h (by simp [hh])) hidx' hrest'
    refine ⟨?_, ?_, ?_⟩
    · intro h hh
      rw [List.flatMap_cons, List.mem_append] at hh
      rcases hh with hh | hh
      · exact h1 h hh
      · exact (hsub h (ih1 h hh)).1
    · rw [List.flatMap_cons, List.nodup_append]
      refine ⟨h2, ih2, fun x hx y hy hxy => ?_⟩
      subst hxy
      exact (hsub x (ih1 x hy)).2 hx
    · rw [List.map_cons, setRoots, h3, ih3]
      congr 1
      rw [htr, List.map_map]
      refine List.map_congr_left fun t _ => ?_
      cases t with
      | none => rfl
      | some t =>
        simp only [Function.comp_apply, Option.bind_some]
        rw [CTree.prune_prune]
        congr 1
        funext h
        simp [List.flatMap_cons, Bool.decide_or]

end Trees

/-! ### One call -/

section Calls
variable [SortAlg] {s s' : Stump H} {delHashes : List H} {proof : Proof H}

/-- What an accepted proof has passed. -/
theorem verify_eq_ok {idxs : List Nat} (h : verify s delHashes proof = .ok (.ok idxs)) :
    delHashes.length = proof.targets.length ∧ ∃ inter cands,
      calculateHashes s.numLeaves (some delHashes) proof = .ok (inter, cands) ∧
      idxs = matchRoots s.roots.reverse cands [] ∧ cands.length = idxs.length := by
  unfold verify at h
  split at h
  · cases h
  · rename_i hlen
    obtain ⟨⟨inter, cands⟩, hcalc, h⟩ := Exec.bind_eq_ok.mp h
    refine ⟨by simpa using hlen, inter, cands, hcalc, ?_⟩
    simp only at h
    split at h
    · cases h
    · rename_i hne
      cases h
      exact ⟨rfl, by simpa using hne⟩

/-- What a deletion can do: fail and leave the Stump as it is, or write the roots of
the second pass over the matched ones. -/
theorem Stump.del_cases {res : Except StumpErr (List H × List Nat)}
    (h : s.del delHashes proof = .ok (s', res)) :
    (s' = s ∧ ∃ err, res = .error err) ∨
      ∃ idxs inter modified, verify s delHashes proof = .ok (.ok idxs) ∧
        calculateHashes s.numLeaves none proof = .ok (inter, modified) ∧
        s' = { s with roots := setRoots s.roots idxs modified } ∧
        res = .ok (inter.map Prod.snd, inter.map Prod.fst) := by
  unfold Stump.del at h
  obtain ⟨v, hv, h⟩ := Exec.bind_eq_ok.mp h
  cases v with
  | error err =>
    cases h
    exact Or.inl ⟨rfl, _, rfl⟩
  | ok idxs =>
    obtain ⟨⟨inter, modified⟩, hcalc, h⟩ := Exec.bind_eq_ok.mp h
    simp only at h
    split at h
    · cases h
      exact Or.inl ⟨rfl, _, rfl⟩
    · cases h
      exact Or.inr ⟨idxs, inter, modified, hv, hcalc, rfl, rfl⟩

/-- What an update can do: fail and leave the Stump as it is, or delete and add. -/
theorem Stump.update_cases {addHashes : List H} {res : Except StumpErr (UpdateData H)}
    (h : s.update delHashes addHashes proof = .ok (s', res)) :
    (s' = s ∧ ∃ err, res = .error err) ∨
      ∃ mid data rest, s.del delHashes proof = .ok (mid, .ok data) ∧
        mid.add addHashes = .ok (s', rest) ∧ ∃ update, res = .ok update := by
  unfold Stump.update at h
  obtain ⟨⟨mid, r⟩, hdel, h⟩ := Exec.bind_eq_ok.mp h
  cases r with
  | error err =>
    cases h
    rcases Stump.del_cases hdel with ⟨rfl, _⟩ | ⟨_, _, _, _, _, _, hr⟩
    · exact Or.inl ⟨rfl, _, rfl⟩
    · cases hr
  | ok data =>
    obtain ⟨⟨t, rest⟩, hadd, h⟩ := Exec.bind_eq_ok.mp h
    cases h
    exact Or.inr ⟨mid, data, rest, hdel, hadd, _, rfl⟩

variable {leaf : H → Prop} (hi : IdealHash H leaf)
include hi

/-- **The hashes of an accepted proof are live leaves**, each listed once.  With the hashes of
the targets removed the matched roots are those of the forest without these leaves. -/
theorem verify_live {slots : List (Option H)} {idxs : List Nat} (hn : slots.length < 2 ^ 64)
    (hlive : ∀ h ∈ liveLeaves slots, h ≠ empty ∧ leaf h) (hnd : (liveLeaves slots).Nodup)
    (hdels : ∀ h ∈ delHashes, h ≠ empty ∧ leaf h)
    (hv : verify ⟨(forestTrees slots).map hashOpt, slots.length⟩ delHashes proof =
      .ok (.ok idxs)) :
    (∀ h ∈ delHashes, h ∈ liveLeaves slots) ∧ delHashes.Nodup ∧
      ∃ inter modified, calculateHashes slots.length none proof = .ok (inter, modified) ∧
        setRoots ((forestTrees slots).map hashOpt) idxs modified =
          (forestTrees (delSlots slots delHashes)).map hashOpt := by
  obtain ⟨hlen, _, cands, hcands, hidxs, hmatched⟩ := verify_eq_ok hv
  obtain ⟨exprs, inter', rfl, hafter, hperm⟩ := calculateHashes_expr hlen hcands
  simp only at hidxs
  rw [hidxs] at hmatched
  obtain ⟨hpw, hforall⟩ := matchRoots_all hmatched
  rw [← hidxs] at hpw hforall
  rw [List.forall₂_map_right_iff] at hforall
  rw [← leaves_forestTrees hn] at hlive hnd
  have hmem : ∀ h, h ∈ exprs.flatMap HashExpr.targets ↔ h ∈ delHashes := fun h => hperm.mem_iff
  obtain ⟨h1, h2, h3⟩ := setRoots_eq hi hlive hnd (fun h hh => hdels h ((hmem h).mp hh)) hpw
    hforall
  refine ⟨?_, hperm.nodup_iff.mp h2, inter', _, hafter, ?_⟩
  · intro h hh
    rw [← leaves_forestTrees hn]
    exact h1 h ((hmem h).mpr hh)
  · simp only [h3, forestTrees_delSlots, hmem]

/-- An accepted deletion on the roots of a forest. -/
theorem Stump.del_forest {slots : List (Option H)} {data : List H × List Nat}
    (hn : slots.length < 2 ^ 64)
    (hlive : ∀ h ∈ liveLeaves slots, h ≠ empty ∧ leaf h) (hnd : (liveLeaves slots).Nodup)
    (hdels : ∀ h ∈ delHashes, h ≠ empty ∧ leaf h)
    (h : (⟨(forestTrees slots).map hashOpt, slots.length⟩ : Stump H).del delHashes proof =
      .ok (s', .ok data)) :
    (∀ h ∈ delHashes, h ∈ liveLeaves slots) ∧ delHashes.Nodup ∧
      s' = ⟨(forestTrees (delSlots slots delHashes)).map hashOpt, slots.length⟩ := by
  rcases Stump.del_cases h with ⟨_, _, hr⟩ | ⟨idxs, inter, modified, hv, hcalc, rfl, _⟩
  · cases hr
  obtain ⟨h1, h2, inter', modified', hcalc', h3⟩ := verify_live hi hn hlive hnd hdels hv
  cases hcalc.symm.trans hcalc'
  exact ⟨h1, h2, by rw [h3]⟩

end Calls

/-! ### Runs -/

/-- The runs of `Update` calls from the empty Stump, with the blocks that were
accepted, oldest first.  Every call comes with any proof at all. -/
inductive StumpRun [SortAlg] : List (Block H) → Stump H → Prop
  | init : StumpRun [] ⟨[], 0⟩
  | accept {bs s delHashes addHashes proof s' data} : StumpRun bs s →
      Stump.update s delHashes addHashes proof = .ok (s', .ok data) →
      StumpRun (bs ++ [⟨delHashes, addHashes⟩]) s'
  | reject {bs s delHashes addHashes proof s' err} : StumpRun bs s →
      Stump.update s delHashes addHashes proof = .ok (s', .error err) → StumpRun bs s'

/-- What is assumed of the leaves of a list of blocks: no leaf is added twice, all
hashes are non-empty hashes of leaves, and the counter of leaves does not wrap
around. -/
structure LeavesOk (leaf : H → Prop) (bs : List (Block H)) : Prop where
  fresh : (addedLeaves bs).Nodup
  isLeaf : ∀ b ∈ bs, ∀ h ∈ b.dels ++ b.adds, h ≠ empty ∧ leaf h
  counted : (addedLeaves bs).length < 2 ^ 64

namespace LeavesOk
variable {leaf : H → Prop} {bs : List (Block H)} {b : Block H}

omit [DecidableEq H] in
theorem of_concat (h : LeavesOk leaf (bs ++ [b])) : LeavesOk leaf bs := by
  have happ : addedLeaves (bs ++ [b]) = addedLeaves bs ++ b.adds := by simp [addedLeaves]
  refine ⟨?_, fun b hb => h.isLeaf b (by simp [hb]), ?_⟩
  · have := h.fresh
    rw [happ, List.nodup_append] at this
    exact this.1
  · have := h.counted
    rw [happ, List.length_append] at this
    omega

theorem live (h : LeavesOk leaf bs) : ∀ x ∈ liveLeaves (slotsOf bs), x ≠ empty ∧ leaf x := by
  intro x hx
  obtain ⟨b, hb, hxb⟩ := List.mem_flatMap.mp ((liveLeaves_sublist bs).subset hx)
  exact h.isLeaf b hb x (List.mem_append_right _ hxb)

theorem nodup (h : LeavesOk leaf bs) : (liveLeaves (slotsOf bs)).Nodup :=
  h.fresh.sublist (liveLeaves_sublist bs)

theorem length_lt (h : LeavesOk leaf bs) : (slotsOf bs).length < 2 ^ 64 := by
  rw [length_slotsOf]
  exact h.counted

end LeavesOk

section Runs
variable [SortAlg] {leaf : H → Prop} (hi : IdealHash H leaf)
include hi

/-- One accepted call on the forest of the blocks so far. -/
theorem Stump.update_forest {bs : List (Block H)} {s' : Stump H} {delHashes addHashes : List H}
    {proof : Proof H} {data : UpdateData H} (hok : LeavesOk leaf (bs ++ [⟨delHashes, addHashes⟩]))
    (h : (⟨(forestTrees (slotsOf bs)).map hashOpt, (slotsOf bs).length⟩ : Stump H).update delHashes
      addHashes proof = .ok (s', .ok data)) :
    (∀ h ∈ delHashes, h ∈ liveLeaves (slotsOf bs)) ∧ delHashes.Nodup ∧
      s' = ⟨(forestTrees (slotsOf (bs ++ [⟨delHashes, addHashes⟩]))).map hashOpt,
        (slotsOf (bs ++ [⟨delHashes, addHashes⟩])).length⟩ := by
  have hslots := slotsOf_concat bs ⟨delHashes, addHashes⟩
  rw [applyBlock] at hslots
  have hlast := hok.isLeaf ⟨delHashes, addHashes⟩ (by simp)
  rcases Stump.update_cases h with ⟨_, _, hr⟩ | ⟨mid, delData, rest, hdel, hadd, _⟩
  · cases hr
  obtain ⟨h1, h2, rfl⟩ := Stump.del_forest hi hok.of_concat.length_lt hok.of_concat.live
    hok.of_concat.nodup (fun h hh => hlast h (List.mem_append_left _ hh)) hdel
  refine ⟨h1, h2, ?_⟩
  have hcount := hok.length_lt
  rw [hslots, List.length_append, length_delSlots, List.length_map] at hcount
  obtain ⟨rest', hforest⟩ := Stump.add_forest hi (delSlots (slotsOf bs) delHashes) addHashes
    (by rw [length_delSlots]; exact hcount)
    (fun x hx => (hok.live x (hslots ▸ hx)).1)
  rw [length_delSlots, hadd] at hforest
  cases hforest
  rw [hslots, List.length_append, length_delSlots, List.length_map]

/-- The state after a run: the roots of the forest of the accepted blocks. -/
theorem StumpRun.eq_forest {bs : List (Block H)} {s : Stump H} (run : StumpRun bs s)
    (hok : LeavesOk leaf bs) :
    s = ⟨(forestTrees (slotsOf bs)).map hashOpt, (slotsOf bs).length⟩ := by
  induction run with
  | init => simp [slotsOf, forestTrees, show rootRows 0 0 = [] by decide]
  | accept _ hupdate ih =>
    rw [ih hok.of_concat] at hupdate
    exact (Stump.update_forest hi hok hupdate).2.2
  | reject _ hupdate ih =>
    rcases Stump.update_cases hupdate with ⟨rfl, _⟩ | ⟨_, _, _, _, _, _, hr⟩
    · exact ih hok
    · cases hr

/-- **Soundness against any prover.**  After any run, whatever proof a call comes
with: if it succeeds, the deleted hashes are distinct live leaves and the roots are
those of the collapsed forest of the remaining leaves; if it fails, the Stump is
unchanged. -/
theorem stump_update_sound {bs : List (Block H)} {s s' : Stump H} {delHashes addHashes : List H}
    {proof : Proof H} {res : Except StumpErr (UpdateData H)} (run : StumpRun bs s)
    (hupdate : s.update delHashes addHashes proof = .ok (s', res)) :
    match res with
    | .ok _ => LeavesOk leaf (bs ++ [⟨delHashes, addHashes⟩]) →
        (∀ h ∈ delHashes, h ∈ liveLeaves (slotsOf bs)) ∧ delHashes.Nodup ∧
        s'.roots = forestRoots (slotsOf (bs ++ [⟨delHashes, addHashes⟩])) ∧
        s'.numLeaves = (slotsOf (bs ++ [⟨delHashes, addHashes⟩])).length
    | .error _ => s'.roots = s.roots ∧ s'.numLeaves = s.numLeaves := by
  cases res with
  | error err =>
    rcases Stump.update_cases hupdate with ⟨rfl, _⟩ | ⟨_, _, _, _, _, _, hr⟩
    · exact ⟨rfl, rfl⟩
    · cases hr
  | ok data =>
    intro hok
    rw [run.eq_forest hi hok.of_concat] at hupdate
    obtain ⟨h1, h2, rfl⟩ := Stump.update_forest hi hok hupdate
    exact ⟨h1, h2, (forestRoots_eq hi fun x hx => (hok.live x hx).1).symm, rfl⟩

end Runs

section Instance
attribute [local instance] SortAlg.stable

/-- Three leaves are added; then the second one is deleted and a fourth is added. -/
theorem stump_update_sound_delete_second :
    (∀ h ∈ [FreeHash.leaf 1],
      h ∈ liveLeaves (slotsOf [⟨[], [.leaf 0, .leaf 1, .leaf 2]⟩])) ∧
    [FreeHash.leaf 1].Nodup ∧
    [FreeHash.node (.leaf 0) (.node (.leaf 2) (.leaf 3))] =
      forestRoots (slotsOf [⟨[], [.leaf 0, .leaf 1, .leaf 2]⟩, ⟨[.leaf 1], [.leaf 3]⟩]) ∧
    4 = (slotsOf [⟨[], [.leaf 0, .leaf 1, .leaf 2]⟩, ⟨[FreeHash.leaf 1], [.leaf 3]⟩]).length := by
  have first : (⟨[], 0⟩ : Stump FreeHash).update [] [.leaf 0, .leaf 1, .leaf 2] ⟨[], []⟩ =
      .ok (⟨[.node (.leaf 0) (.leaf 1), .leaf 2], 3⟩, .ok _) := rfl
  have second : (⟨[.node (.leaf 0) (.leaf 1), .leaf 2], 3⟩ : Stump FreeHash).update [.leaf 1]
      [.leaf 3] ⟨[1], [.leaf 0]⟩ =
        .ok (⟨[.node (.leaf 0) (.node (.leaf 2) (.leaf 3))], 4⟩, .ok _) := rfl
  refine stump_update_sound FreeHash.ideal (.accept .init first) second
    ⟨by decide, ?_, by decide⟩
  simp [FreeHash.IsLeaf, empty]

end Instance

end Utreexo
