import Utreexo.Stump
import Utreexo.RootRows

/-! # Adding leaves to a Stump

`Stump.add` merges every new leaf with the roots on the rows of the trailing ones
of the number of leaves.  Both of its loops, `mergeRoots` and the one that
looks for the empty roots to destroy, take those roots off the end of the list;
they return as long as there are enough roots.  On the roots of a collapsed forest
the result is the forest with the new leaf.
-/
namespace Utreexo
open Merkle

variable {H : Type} [DecidableEq H] [HashOps H]

omit [DecidableEq H] [HashOps H] in
@[simp] theorem popRoot_concat (roots : List H) (root : H) :
    popRoot (roots ++ [root]) = .ok (root, roots) := by
  simp [popRoot]

/-- The root that replaces `root` and the new root on the same row. -/
def mergeHash (root newRoot : H) : H := if root ≠ empty then parentHash root newRoot else newRoot

section Loops
variable {n t : Nat} (hl : LowOnes n t) (hb : n.testBit t = false)
include hl hb

/-- The loop takes off the roots on the rows from `h` to the lowest zero `t`. -/
theorem destroyLoop_eq (afterRows fuel h : Nat) (keep popped : List H)
    (deleted : List Nat) (hlen : h + popped.length = t) (hf : popped.length < fuel) :
    ∃ deleted', destroyLoop n afterRows fuel h (keep ++ popped) deleted = .ok (keep, deleted') := by
  induction popped using List.reverseRecOn generalizing fuel h deleted with
  | nil =>
    obtain ⟨fuel, rfl⟩ : ∃ f, fuel = f + 1 := ⟨fuel - 1, by simp at hf; omega⟩
    obtain rfl : h = t := by simpa using hlen
    refine ⟨deleted, ?_⟩
    rw [destroyLoop, if_neg (by rw [shiftRight_and_one, hb]; simp), List.append_nil]
  | append_singleton popped root ih =>
    obtain ⟨fuel, rfl⟩ : ∃ f, fuel = f + 1 := ⟨fuel - 1, by simp at hf; omega⟩
    simp only [List.length_append, List.length_singleton] at hlen hf
    rw [destroyLoop, if_pos (shiftRight_and_one.mpr (hl.testBit_of_lt (by omega))),
      ← List.append_assoc, popRoot_concat, Exec.ok_bind]
    exact ih _ _ _ (by omega) (by omega)

/-- The same for the merging loop, with the new root. -/
theorem mergeRoots_eq (afterRows fuel h : Nat) (keep popped : List H) (newRoot : H)
    (pos : Nat) (subTree : List (Nat × H)) (hlen : h + popped.length = t)
    (hf : popped.length < fuel) :
    ∃ pos' subTree', mergeRoots n afterRows fuel h (keep ++ popped) newRoot pos subTree =
      .ok (keep, popped.foldr mergeHash newRoot, pos', subTree') := by
  induction popped using List.reverseRecOn generalizing fuel h newRoot pos subTree with
  | nil =>
    obtain ⟨fuel, rfl⟩ : ∃ f, fuel = f + 1 := ⟨fuel - 1, by simp at hf; omega⟩
    obtain rfl : h = t := by simpa using hlen
    refine ⟨pos, subTree, ?_⟩
    rw [mergeRoots, if_neg (by rw [shiftRight_and_one, hb]; simp), List.append_nil]
    rfl
  | append_singleton popped root ih =>
    obtain ⟨fuel, rfl⟩ : ∃ f, fuel = f + 1 := ⟨fuel - 1, by simp at hf; omega⟩
    simp only [List.length_append, List.length_singleton] at hlen hf
    rw [mergeRoots, if_pos (shiftRight_and_one.mpr (hl.testBit_of_lt (by omega))),
      ← List.append_assoc, popRoot_concat, Exec.ok_bind, List.foldr_append, List.foldr_cons,
      List.foldr_nil]
    by_cases hroot : root ≠ empty
    · simp only [if_pos hroot, mergeHash]
      exact ih _ _ _ _ _ (by omega) (by omega)
    · simp only [if_neg hroot, mergeHash]
      exact ih _ _ _ _ _ (by omega) (by omega)

end Loops

/-- One addition, from what its two loops return. -/
theorem addLoop_cons {afterRows pos : Nat} {a newRoot : H} {adds keep : List H} {s : Stump H}
    {subTrees : List (List (Nat × H))} {del : List Nat} {subTree : List (Nat × H)}
    (hdel : rootsToDestory (adds.length + 1) s.numLeaves s.roots = .ok del)
    (hm : mergeRoots s.numLeaves afterRows 65 0 s.roots a (moveOver afterRows del s.numLeaves) [] =
      .ok (keep, newRoot, pos, subTree)) :
    addLoop afterRows (a :: adds) s subTrees =
      addLoop afterRows adds ⟨keep ++ [newRoot], add64 s.numLeaves 1⟩
        (subTrees ++ [subTree ++ [(pos, newRoot)]]) := by
  rw [addLoop, hdel]
  simp only [Exec.ok_bind, hm]

theorem Stump.add_of_addLoop {s s' : Stump H} {adds : List H} {del : List Nat}
    {subTrees : List (List (Nat × H))}
    (hdel : rootsToDestory adds.length s.numLeaves s.roots = .ok del)
    (hloop : addLoop (treeRows (add64 s.numLeaves adds.length)) adds s [] = .ok (s', subTrees)) :
    ∃ res, s.add adds = .ok (s', res) := by
  refine ⟨((mergeSubTrees subTrees []).map Prod.snd, (mergeSubTrees subTrees []).map Prod.fst,
    del), ?_⟩
  rw [Stump.add, hdel]
  simp only [Exec.ok_bind, hloop]

/-! ### The additions return -/

omit [DecidableEq H] [HashOps H] in
/-- Enough roots for the next leaf: those kept and those merged. -/
theorem split_roots {n t : Nat} (hl : LowOnes n t) (ht : t ≤ 64) {roots : List H}
    (hr : (rootRows n 0).length ≤ roots.length) :
    ∃ keep popped, roots = keep ++ popped ∧ popped.length = t ∧
      (rootRows n t).length ≤ keep.length := by
  rw [hl.rootRows_zero ht, List.length_append, List.length_reverse, List.length_range] at hr
  refine ⟨roots.take (roots.length - t), roots.drop (roots.length - t),
    (List.take_append_drop _ _).symm, ?_, ?_⟩
  · rw [List.length_drop]; omega
  · rw [List.length_take]; omega

omit [DecidableEq H] [HashOps H] in
/-- After an addition there are enough roots for the next one, also when the
number of leaves wraps around. -/
theorem rootRows_add64_le {n t : Nat} (hn : n < 2 ^ 64) (hl : LowOnes n t)
    (hb : n.testBit t = false) {keep : List H}
    (hk : (rootRows n t).length ≤ keep.length) (root : H) :
    (rootRows (add64 n 1) 0).length ≤ (keep ++ [root]).length := by
  rw [List.length_append, List.length_singleton]
  by_cases hw : n + 1 < 2 ^ 64
  · have ht := hl.lt_sixtyFour hw
    rw [rootRows_step n ht, hb] at hk
    rw [add64_of_lt hw, hl.rootRows_succ hb ht, List.length_append, List.length_singleton]
    simpa using hk
  · obtain rfl : n = 2 ^ 64 - 1 := by omega
    rw [show add64 (2 ^ 64 - 1) 1 = 0 from rfl, show rootRows 0 0 = [] by decide]
    exact Nat.zero_le _

theorem add64_lt (a b : Nat) : add64 a b < 2 ^ 64 := Nat.mod_lt _ (by decide)

theorem rootsToDestoryLoop_returns {n numAdds : Nat} (hn : n < 2 ^ 64) {roots : List H}
    (hr : (rootRows n 0).length ≤ roots.length) (deleted : List Nat) :
    ∃ res, rootsToDestoryLoop numAdds n roots deleted = .ok res := by
  induction numAdds generalizing n roots deleted with
  | zero => exact ⟨deleted, rfl⟩
  | succ numAdds ih =>
    obtain ⟨t, ht, hl, hb⟩ := exists_lowZero hn
    obtain ⟨keep, popped, rfl, hlen, hk⟩ := split_roots hl ht hr
    obtain ⟨deleted', hd⟩ := destroyLoop_eq hl hb (treeRows (add64 n (numAdds + 1))) 65 0
      keep popped deleted (by omega) (by omega)
    rw [rootsToDestoryLoop, hd, Exec.ok_bind]
    exact ih (add64_lt _ _) (rootRows_add64_le hn hl hb hk _) deleted'

theorem rootsToDestory_returns {n : Nat} (numAdds : Nat) (hn : n < 2 ^ 64) (roots : List H)
    (hr : (rootRows n 0).length ≤ roots.length) :
    ∃ res, rootsToDestory numAdds n roots = .ok res :=
  rootsToDestoryLoop_returns hn hr []

/-- **Adding returns** on any Stump with enough roots. -/
theorem addLoop_returns (afterRows : Nat) (adds : List H) {s : Stump H}
    (hn : s.numLeaves < 2 ^ 64) (hr : (rootRows s.numLeaves 0).length ≤ s.roots.length)
    (subTrees : List (List (Nat × H))) :
    ∃ res, addLoop afterRows adds s subTrees = .ok res := by
  induction adds generalizing s subTrees with
  | nil => exact ⟨_, rfl⟩
  | cons a adds ih =>
    obtain ⟨del, hdel⟩ := rootsToDestory_returns (adds.length + 1) hn _ hr
    obtain ⟨t, ht, hl, hb⟩ := exists_lowZero hn
    obtain ⟨keep, popped, hroots, hlen, hk⟩ := split_roots hl ht hr
    obtain ⟨pos', subTree', hm⟩ := mergeRoots_eq hl hb afterRows 65 0 keep popped
      a (moveOver afterRows del s.numLeaves) [] (by omega) (by omega)
    rw [← hroots] at hm
    rw [addLoop_cons hdel hm]
    refine ih ?_ ?_ _
    · exact add64_lt _ _
    · exact rootRows_add64_le hn hl hb hk _

theorem Stump.add_returns {s : Stump H} (adds : List H) (hn : s.numLeaves < 2 ^ 64)
    (hr : (rootRows s.numLeaves 0).length ≤ s.roots.length) :
    ∃ res, s.add adds = .ok res := by
  obtain ⟨del, hdel⟩ := rootsToDestory_returns adds.length hn _ hr
  obtain ⟨r, hloop⟩ := addLoop_returns (treeRows (add64 s.numLeaves adds.length)) adds hn hr []
  obtain ⟨res, hadd⟩ := Stump.add_of_addLoop hdel hloop
  exact ⟨_, hadd⟩

/-! ### The roots after the additions -/

section Forest
variable {leaf : H → Prop} (hi : IdealHash H leaf)
include hi

/-- Merging the leaf with the trees on the rows below `t` gives the grown tree. -/
theorem hashOpt_grownTree {slots : List (Option H)} {a : H} {t : Nat}
    (hl : LowOnes slots.length t) (hs : ∀ h ∈ liveLeaves (slots ++ [some a]), h ≠ empty) :
    hashOpt (grownTree slots a t) =
        (((List.range t).reverse.map (rootTree slots)).map hashOpt).foldr mergeHash a ∧
      hashOpt (grownTree slots a t) ≠ empty := by
  induction t with
  | zero =>
    rw [grownTree_zero]
    exact ⟨rfl, hs a (by simp [mem_liveLeaves])⟩
  | succ t ih =>
    have hlt : LowOnes slots.length t := by
      have h1 : slots.length % 2 ^ (t + 1) % 2 ^ t = slots.length % 2 ^ t :=
        Nat.mod_mod_of_dvd _ (Nat.pow_dvd_pow 2 (Nat.le_succ t))
      have h2 : 2 ^ (t + 1) - 1 = 2 ^ t * 1 + (2 ^ t - 1) := by
        have := Nat.two_pow_pos t
        rw [Nat.pow_succ]
        omega
      have h3 : 2 ^ t - 1 < 2 ^ t := Nat.sub_lt (Nat.two_pow_pos t) Nat.one_pos
      rw [show slots.length % 2 ^ (t + 1) = 2 ^ (t + 1) - 1 from hl, h2, Nat.mul_add_mod,
        Nat.mod_eq_of_lt h3] at h1
      exact h1.symm
    obtain ⟨heq, hne⟩ := ih hlt
    have hb := hl.testBit_of_lt (Nat.lt_succ_self t)
    have hroot : ∀ h ∈ CTree.leavesOpt (rootTree slots t), h ≠ empty := by
      intro h hh
      refine hs h (mem_liveLeaves.mpr (List.mem_append_left _ (mem_liveLeaves.mp ?_)))
      exact leavesOpt_perfect_subset _ _ _ h hh
    have hstep : hashOpt (grownTree slots a (t + 1)) =
        mergeHash (hashOpt (rootTree slots t)) (hashOpt (grownTree slots a t)) := by
      rw [grownTree_succ hlt hb, hashOpt_join hi hroot fun h hh =>
        hs h (leavesOpt_grownTree_subset slots a t h hh)]
      by_cases h0 : hashOpt (rootTree slots t) = empty <;> simp [combine, mergeHash, h0, hne]
    refine ⟨?_, ?_⟩
    · rw [hstep, heq, List.range_succ]
      simp
    · rw [hstep, mergeHash]
      split
      · exact hi.ne_empty _ _
      · exact hne

/-- **Adding to the forest's roots gives the roots of the larger forest.** -/
theorem addLoop_forest (afterRows : Nat) (slots : List (Option H)) (adds : List H)
    (hn : slots.length + adds.length < 2 ^ 64)
    (hs : ∀ h ∈ liveLeaves (slots ++ adds.map some), h ≠ empty)
    (subTrees : List (List (Nat × H))) :
    ∃ subTrees', addLoop afterRows adds ⟨(forestTrees slots).map hashOpt, slots.length⟩ subTrees =
      .ok (⟨(forestTrees (slots ++ adds.map some)).map hashOpt, slots.length + adds.length⟩,
        subTrees') := by
  induction adds generalizing slots subTrees with
  | nil => exact ⟨subTrees, by simp [addLoop]⟩
  | cons a adds ih =>
    rw [List.length_cons] at hn
    obtain ⟨t, ht, hl, hb⟩ := exists_lowZero (show slots.length < 2 ^ 64 by omega)
    have ht' := hl.lt_sixtyFour (by omega)
    have happ : slots ++ (a :: adds).map some = (slots ++ [some a]) ++ adds.map some := by simp
    have hroots : (forestTrees slots).map hashOpt =
        ((rootRows slots.length (t + 1)).map (rootTree slots)).map hashOpt ++
          ((List.range t).reverse.map (rootTree slots)).map hashOpt := by
      rw [forestTrees, hl.rootRows_zero ht, rootRows_step _ ht', hb]
      simp
    obtain ⟨del, hdel⟩ := rootsToDestory_returns (adds.length + 1)
      (show slots.length < 2 ^ 64 by omega) ((forestTrees slots).map hashOpt)
      (by simp [forestTrees])
    obtain ⟨pos', subTree', hm⟩ := mergeRoots_eq hl hb afterRows 65 0
      (((rootRows slots.length (t + 1)).map (rootTree slots)).map hashOpt)
      (((List.range t).reverse.map (rootTree slots)).map hashOpt)
      a (moveOver afterRows del slots.length) [] (by simp) (by simp; omega)
    have hlive : ∀ h ∈ liveLeaves (slots ++ [some a]), h ≠ empty := by
      intro h hh
      refine hs h ?_
      rw [happ, mem_liveLeaves, List.mem_append]
      exact Or.inl (mem_liveLeaves.mp hh)
    obtain ⟨subTrees', hrec⟩ := ih (slots ++ [some a]) (by simp; omega)
      (happ ▸ hs) (subTrees ++ [subTree' ++ [(pos', hashOpt (grownTree slots a t))]])
    refine ⟨subTrees', ?_⟩
    rw [← hroots, ← (hashOpt_grownTree hi hl hlive).1] at hm
    rw [addLoop_cons (s := ⟨_, slots.length⟩) hdel hm,
      add64_of_lt (show slots.length + 1 < 2 ^ 64 by omega)]
    rw [forestTrees_concat hl hb ht', List.map_append, List.length_append] at hrec
    simp only [List.map_singleton, List.length_singleton] at hrec
    rw [hrec, happ, List.length_cons, Nat.add_assoc, Nat.add_comm 1]

/-- `Stump.add` on the forest's roots. -/
theorem Stump.add_forest (slots : List (Option H)) (adds : List H)
    (hn : slots.length + adds.length < 2 ^ 64)
    (hs : ∀ h ∈ liveLeaves (slots ++ adds.map some), h ≠ empty) :
    ∃ res, (⟨(forestTrees slots).map hashOpt, slots.length⟩ : Stump H).add adds =
      .ok (⟨(forestTrees (slots ++ adds.map some)).map hashOpt, slots.length + adds.length⟩,
        res) := by
  obtain ⟨del, hdel⟩ := rootsToDestory_returns adds.length
    (show slots.length < 2 ^ 64 by omega) ((forestTrees slots).map hashOpt)
    (by simp [forestTrees])
  obtain ⟨subTrees, hloop⟩ := addLoop_forest hi (treeRows (add64 slots.length adds.length)) slots
    adds hn hs []
  exact Stump.add_of_addLoop hdel hloop

end Forest

end Utreexo
