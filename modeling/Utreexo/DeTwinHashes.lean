import Utreexo.PosTree
import Utreexo.UndoTwins

/-! # Replacing siblings by their parent, with hashes

`deTwinHashAndPos` goes along with `deTwin`, and the hash it gives a parent is the Merkle hash
of the entries below (`merkleHash`).
-/
namespace Utreexo
open Merkle

/-! ### `deTwinHashAndPos` -/

section
variable {H : Type}

/-- Merging a single entry in, at a position that has none yet. -/
theorem mergeLoop_singleton {e : Nat × H} {a : List (Nat × H)} :
    ∀ {j : Nat}, a.length < j → (∀ f ∈ a, f.1 ≠ e.1) →
      mergeLoop j a [e] = a.orderedInsert (fun f g => f.1 < g.1) e := by
  induction a with
  | nil =>
    intro j _ _
    cases j <;> rfl
  | cons f a ih =>
    intro j hj hne
    obtain ⟨j, rfl⟩ : ∃ i, j = i + 1 := ⟨j - 1, by omega⟩
    obtain ⟨hf, ha⟩ := List.forall_mem_cons.mp hne
    rw [List.length_cons] at hj
    rw [mergeLoop, List.orderedInsert_cons]
    by_cases hlt : f.1 < e.1
    · rw [if_pos hlt, if_neg (by omega), ih (by omega) ha]
    · rw [if_neg hlt, if_pos (by omega), if_pos (by omega)]
      cases j <;> rfl

variable {k : Nat} [HashOps H]

omit [HashOps H] in
theorem mergeSortedHashAndPos_map {ts : List (Node × H)} {e : Node × H} (he : Fits k e.1)
    (hts : ∀ a ∈ ts, Fits k a.1) (hne : ∀ a ∈ ts, a.1 ≠ e.1) :
    mergeSortedHashAndPos (ts.map (hashAndPos k)) [hashAndPos k e] =
      (ts.orderedInsert (fun a b => a.1.Before b.1) e).map (hashAndPos k) := by
  rw [mergeSortedHashAndPos, mergeLoop_singleton (by simp)]
  · exact (List.map_orderedInsert (fun a b => a.1.Before b.1) (fun a b => a.1 < b.1)
      (hashAndPos k) ts e (fun a ha => ((hts a ha).pos_lt_iff he).symm)
      fun a ha => (he.pos_lt_iff (hts a ha)).symm).symm
  · intro f hf
    obtain ⟨a, ha, rfl⟩ := List.mem_map.mp hf
    exact fun h => hne a ha ((hts a ha).pos_inj he h)

/-- **The loop of `deTwinHashAndPos`** goes along with that of `deTwin`. -/
theorem deTwinHashAndPosLoop_spec {P : Node → H → Prop} (hk : k ≤ 63)
    (hP : Joinable k P parentHash) (fuel : Nat) :
    ∀ {i : Nat} {ts : List (Node × H)}, Antichain (ts.map Prod.fst) → (∀ e ∈ ts, P e.1 e.2) →
      ∃ ts' : List (Node × H),
        deTwinHashAndPosLoop k fuel i (ts.map (hashAndPos k)) = ts'.map (hashAndPos k) ∧
        deTwinLoop k fuel i ((ts.map Prod.fst).map (nodePos k)) =
          (ts'.map Prod.fst).map (nodePos k) ∧
        ∀ e ∈ ts', P e.1 e.2 := by
  induction fuel with
  | zero =>
    intro i ts _ hts
    exact ⟨ts, rfl, rfl, hts⟩
  | succ fuel ih =>
    intro i ts hanti hts
    have hfits : ∀ e ∈ ts, Fits k e.1 := fun e he => hP.fits (hts e he)
    rw [deTwinHashAndPosLoop, deTwinLoop, List.length_map, List.length_map, List.length_map]
    rcases scan_cases hanti hfits i with hend | ⟨hlt, ⟨x, a⟩, hx, hy⟩ |
      ⟨hlt, ⟨x, a⟩, ⟨y, b⟩, hx, hy, hne⟩ | ⟨ta, tb, x, a, b, rfl, rfl, hb, hright⟩
    · rw [if_neg (Nat.not_lt.mpr hend), if_neg (Nat.not_lt.mpr hend)]
      exact ⟨ts, rfl, rfl, hts⟩
    · rw [if_pos hlt, if_pos hlt]
      simp only [List.getElem?_map, hx, hy, Option.map_none, Option.map_some]
      exact ih hanti hts
    · rw [if_pos hlt, if_pos hlt]
      simp only [List.getElem?_map, hx, hy, Option.map_some, hashAndPos]
      rw [if_neg hne, if_neg hne]
      exact ih hanti hts
    · have hmem : ∀ e ∈ ta ++ tb, e ∈ ta ++ (x, a) :: (x.sibling, b) :: tb := fun e he => by
        simp only [List.mem_append, List.mem_cons] at he ⊢
        tauto
      have hPp : P x.parent (parentHash a b) :=
        hP.parent (hts (x, a) (by simp)) (hts (x.sibling, b) (by simp)) hb
      have hts' : ∀ e ∈ (ta ++ tb).orderedInsert (fun a b => a.1.Before b.1)
          (x.parent, parentHash a b), P e.1 e.2 := by
        intro e he
        rcases (List.mem_orderedInsert _).mp he with rfl | he
        · exact hPp
        · exact hts e (hmem e he)
      obtain ⟨ts2, h1, h2, h3⟩ := ih (i := ta.length) (antichain_map_fst_merge hanti) hts'
      have hlt : ta.length < (ta ++ (x, a) :: (x.sibling, b) :: tb).length := by simp
      have hx : (ta ++ (x, a) :: (x.sibling, b) :: tb)[ta.length]? = some (x, a) := by simp
      have hy : (ta ++ (x, a) :: (x.sibling, b) :: tb)[ta.length + 1]? = some (x.sibling, b) := by
        simp
      rw [if_pos hlt, if_pos hlt]
      simp only [List.getElem?_map, hx, hy, Option.map_some, hashAndPos]
      refine ⟨ts2, ?_, ?_, h3⟩
      · rw [if_pos hright, ← h1, map_take_append_drop,
          parent_nodePos hk (hfits (x, a) (by simp)) (hP.fits hPp).1]
        exact congrArg _ (mergeSortedHashAndPos_map (e := (x.parent, parentHash a b))
          (hP.fits hPp) (fun e he => hfits e (hmem e he)) fun e he => ne_parent_of_mem hanti he)
      · rw [if_pos hright, ← h2, merge_positions_map hk hanti hfits (hP.fits hPp)]

/-! ### Merkle hashes of entries -/

/-- The Merkle hash at a position that is `row` rows above the leaves: that of its entry, or
else of the hashes of its children. -/
def merkleHash (forestRows : Nat) (entries : List (Nat × H)) : Nat → Nat → Option H
  | 0, p => entries.lookup p
  | row + 1, p =>
    match entries.lookup p with
    | some hash => some hash
    | none =>
      match merkleHash forestRows entries row (leftChild p forestRows),
        merkleHash forestRows entries row (rightChild p forestRows) with
      | some left, some right => some (parentHash left right)
      | _, _ => none

theorem merkleHash_of_lookup {entries : List (Nat × H)} {p : Nat} {a : H}
    (h : entries.lookup p = some a) (row : Nat) : merkleHash k entries row p = some a := by
  cases row with
  | zero => exact h
  | succ row => rw [merkleHash, h]

variable {ts : List (Node × H)} (hanti : Antichain (ts.map Prod.fst))
  (hfits : ∀ e ∈ ts, Fits k e.1)
include hanti hfits

omit [HashOps H] in
/-- The entry of a node. -/
theorem lookup_hashAndPos {e : Node × H} (he : e ∈ ts) :
    (ts.map (hashAndPos k)).lookup (nodePos k e.1) = some e.2 := by
  induction ts with
  | nil => cases he
  | cons f ts ih =>
    rw [List.map_cons, List.lookup_cons]
    obtain ⟨hf, hfits⟩ := List.forall_mem_cons.mp hfits
    obtain ⟨hlt, hanti⟩ := List.pairwise_cons.mp hanti
    rcases List.mem_cons.mp he with rfl | he
    · simp [hashAndPos]
    · have hne : nodePos k e.1 ≠ nodePos k f.1 := by
        have := (hf.pos_lt_iff (hfits e he)).mpr (hlt e.1 (List.mem_map_of_mem he)).1
        omega
      rw [show (nodePos k e.1 == (hashAndPos k f).1) = false from beq_eq_false_iff_ne.mpr hne]
      exact ih hanti hfits he

omit [HashOps H] in
/-- Strictly above an entry there is none. -/
theorem lookup_above_eq_none {x : Node} {e : Node × H} (hx : Fits k x) (he : e ∈ ts)
    (habove : x.Above e.1) (hne : x ≠ e.1) :
    (ts.map (hashAndPos k)).lookup (nodePos k x) = none := by
  rw [List.lookup_eq_none_iff]
  intro f hf
  obtain ⟨g, hg, rfl⟩ := List.mem_map.mp hf
  rw [bne_iff_ne]
  intro hpos
  obtain rfl := hx.pos_inj (hfits g hg) hpos
  exact hne (hanti.eq_of_above (List.mem_map_of_mem hg) (List.mem_map_of_mem he) habove)

/-- The Merkle hashes of the entries join to those of the parents. -/
theorem joinable_merkleHash (hk : k ≤ 63) : Joinable k (fun x a => Fits k x ∧
    merkleHash k (ts.map (hashAndPos k)) x.row (nodePos k x) = some a ∧ ∃ e ∈ ts, x.Above e.1)
      parentHash := by
  constructor
  · intro x a h
    exact h.1
  · rintro x a b ⟨hx, ha, e, he, habove⟩ ⟨hs, hb, -⟩ hbefore
    have hp := hx.parent_of_sibling hs
    have heven := (Node.before_sibling_iff x).mp hbefore
    have hleft := Node.parent_left heven
    have hright : x.parent.right = x.sibling := by rw [← Node.left_sibling, hleft]
    refine ⟨hp, ?_, e, he, x.parent_above.trans habove⟩
    have hnone := lookup_above_eq_none hanti hfits hp he (x.parent_above.trans habove) (by
      intro heq
      have := habove.row_le
      rw [← heq, Node.parent_row] at this
      omega)
    rw [Node.sibling_row] at hb
    rw [Node.parent_row, merkleHash, hnone, leftChild_nodePos hk hp (Nat.succ_pos _),
      rightChild_nodePos hk hp (Nat.succ_pos _), hleft, hright, ha, hb]

end

/-! ### The leaves below -/

section
variable {k : Nat} {x : Node}

/-- The leaves below a node. -/
def leavesBelow (x : Node) : List Nat := List.range' (x.off * 2 ^ x.row) (2 ^ x.row)

theorem mem_leavesBelow {l : Nat} : l ∈ leavesBelow x ↔ x.Above ⟨0, l⟩ := by
  rw [leavesBelow, List.mem_range'_1, Node.above_iff, Nat.sub_zero,
    Nat.div_eq_iff (Nat.two_pow_pos _)]
  have := Nat.two_pow_pos x.row
  dsimp only
  constructor
  · rintro ⟨h1, h2⟩
    exact ⟨Nat.zero_le _, h1, by omega⟩
  · rintro ⟨-, h1, h2⟩
    exact ⟨h1, by omega⟩

/-- The leaves below two siblings are those below their parent. -/
theorem leavesBelow_parent (h : x.Before x.sibling) :
    leavesBelow x.parent = leavesBelow x ++ leavesBelow x.sibling := by
  have heven := (Node.before_sibling_iff x).mp h
  have hoff : x.sibling.off = x.off + 1 := by rw [Node.sibling, if_pos heven]
  have hpar : x.parent.off * 2 ^ x.parent.row = x.off * 2 ^ x.row := by
    rw [Node.parent_row, Nat.pow_succ', ← Nat.mul_assoc]
    congr 1
    simp only [Node.parent]
    omega
  rw [leavesBelow, leavesBelow, leavesBelow, hpar, hoff, Node.sibling_row, Node.parent_row,
    Nat.add_mul, Nat.one_mul, List.range'_append_1, Nat.pow_succ']
  congr 1
  omega

theorem mergeable_leavesBelow : Mergeable k (Fits k) leavesBelow := by
  constructor
  · intro x hx
    exact hx
  · intro x hx hs _
    exact hx.parent_of_sibling hs
  · intro x _ _ hb
    rw [leavesBelow_parent hb]

end

end Utreexo
