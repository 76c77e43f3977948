import Utreexo.CachedProof
import Utreexo.NewPositions

/-! # The loops over sorted slices in `Proof.Update`

On slices that list sets of positions, the loops that pick entries with an index that only
moves on pick by membership.  `getNewPositions` is called here with entries whose hash may be
empty, in an order that need not be ascending, and with or without roots; the row that it
carries along is then only an upper bound of an entry's row.
-/
namespace Utreexo
open Merkle

/-- A list of images is the image of a list. -/
theorem exists_eq_map {α β : Type} {f : α → β} {S : Set α} {l : List β}
    (h : ∀ b ∈ l, b ∈ f '' S) : ∃ as : List α, (∀ a ∈ as, a ∈ S) ∧ l = as.map f := by
  induction l with
  | nil => exact ⟨[], by simp, rfl⟩
  | cons b l ih =>
    obtain ⟨a, ha, rfl⟩ := h b List.mem_cons_self
    obtain ⟨as, has, rfl⟩ := ih fun c hc => h c (List.mem_cons_of_mem _ hc)
    exact ⟨a :: as, List.forall_mem_cons.mpr ⟨ha, has⟩, rfl⟩

/-! ### Moving on in a sorted slice -/

section
variable {l : List Nat} {p q : Nat}

theorem mem_dropWhile_lt (hl : l.Pairwise (· < ·)) :
    q ∈ l.dropWhile (· < p) ↔ q ∈ l ∧ p ≤ q := by
  induction l with
  | nil => simp
  | cons a l ih =>
    obtain ⟨ha, hl⟩ := List.pairwise_cons.mp hl
    by_cases hap : a < p
    · rw [List.dropWhile_cons_of_pos (by simpa using hap), ih hl, List.mem_cons]
      constructor
      · exact fun h => ⟨Or.inr h.1, h.2⟩
      · rintro ⟨rfl | h, hq⟩
        · omega
        · exact ⟨h, hq⟩
    · rw [List.dropWhile_cons_of_neg (by simpa using hap)]
      refine ⟨fun h => ⟨h, ?_⟩, And.left⟩
      rcases List.mem_cons.mp h with rfl | h
      · omega
      · have := ha q h
        omega

theorem head_dropWhile_lt (hl : l.Pairwise (· < ·)) :
    (l.dropWhile (· < p)).head? = some p ↔ p ∈ l := by
  constructor
  · intro h
    exact ((mem_dropWhile_lt hl).mp (List.mem_of_mem_head? h)).1
  · intro h
    have hmem : p ∈ l.dropWhile (· < p) := (mem_dropWhile_lt hl).mpr ⟨h, Nat.le_refl p⟩
    have hsorted := hl.sublist (List.dropWhile_sublist (· < p))
    cases hd : l.dropWhile (· < p) with
    | nil =>
      rw [hd] at hmem
      cases hmem
    | cons a rest =>
      rw [hd] at hmem hsorted
      have ha : p ≤ a := ((mem_dropWhile_lt hl).mp (hd ▸ List.mem_cons_self)).2
      rcases List.mem_cons.mp hmem with rfl | hrest
      · rfl
      · have := (List.pairwise_cons.mp hsorted).1 p hrest
        omega

end

section
variable {H : Type} (V W : Nat → H) {l u extra : List Nat}

theorem dropWhile_withHash (p : Nat) :
    (l.map (withHash V)).dropWhile (fun e => e.1 < p) =
      (l.dropWhile (· < p)).map (withHash V) := by
  rw [List.dropWhile_map]
  rfl

/-- The entries at ascending positions are those that are there. -/
theorem entriesAt_withHash {positions : List Nat} (hp : positions.Pairwise (· < ·))
    (hl : l.Pairwise (· < ·)) :
    entriesAt positions (l.map (withHash V)) =
      (positions.filter (· ∈ l)).map (withHash V) := by
  induction positions generalizing l with
  | nil => rfl
  | cons p positions ih =>
    obtain ⟨hlate, hp⟩ := List.pairwise_cons.mp hp
    have hl' := hl.sublist (List.dropWhile_sublist (· < p))
    have hrest : entriesAt positions ((l.dropWhile (· < p)).map (withHash V)) =
        (positions.filter (· ∈ l)).map (withHash V) := by
      rw [ih hp hl', List.filter_congr fun q hq => ?_]
      have := hlate q hq
      rw [decide_eq_decide, mem_dropWhile_lt hl]
      exact and_iff_left (by omega)
    have hhead := head_dropWhile_lt (p := p) hl
    rw [entriesAt, dropWhile_withHash]
    by_cases hmem : p ∈ l
    · rw [List.filter_cons_of_pos (by simpa using hmem), List.map_cons]
      have hd := hhead.mpr hmem
      cases hdrop : l.dropWhile (· < p) with
      | nil =>
        rw [hdrop] at hd
        cases hd
      | cons a rest =>
        rw [hdrop] at hd hrest
        obtain rfl : a = p := Option.some.inj hd
        rw [List.map_cons] at hrest ⊢
        dsimp only
        rw [withHash_fst, if_pos rfl, hrest]
    · rw [List.filter_cons_of_neg (by simpa using hmem)]
      cases hdrop : l.dropWhile (· < p) with
      | nil =>
        rw [hdrop] at hrest
        exact hrest
      | cons a rest =>
        have hne : a ≠ p := by
          rintro rfl
          exact hmem (hhead.mp (by rw [hdrop]; rfl))
        rw [hdrop, List.map_cons] at hrest
        rw [List.map_cons]
        dsimp only
        rw [withHash_fst, if_neg hne]
        exact hrest

variable [DecidableEq H] [HashOps H]

theorem keptHash_withHash {p : Nat} (hu : u.Pairwise (· < ·)) :
    keptHash p (V p) ((u.dropWhile (· < p)).map (withHash W)) =
      if p ∈ u then (if W p ≠ empty then some (W p) else none) else some (V p) := by
  have hhead := head_dropWhile_lt (p := p) hu
  cases hdrop : u.dropWhile (· < p) with
  | nil =>
    have hmem : p ∉ u := fun h => by
      have := hhead.mpr h
      rw [hdrop] at this
      cases this
    rw [if_neg hmem]
    rfl
  | cons a rest =>
    rw [List.map_cons, keptHash, withHash_fst, withHash_snd]
    by_cases ha : a = p
    · subst ha
      rw [if_pos rfl, if_pos (hhead.mp (by rw [hdrop]; rfl))]
    · rw [if_neg ha, if_neg]
      intro h
      have := hhead.mpr h
      rw [hdrop] at this
      exact ha (Option.some.inj this)

/-- The kept entries of a proof: those not extra, with their updated hashes unless they are
empty. -/
theorem keepProofs_withHash (hl : l.Pairwise (· < ·)) (he : extra.Pairwise (· < ·))
    (hu : u.Pairwise (· < ·)) (hVW : ∀ p ∈ l, p ∉ u → V p = W p ∧ W p ≠ empty) :
    keepProofs (l.map (withHash V)) extra (u.map (withHash W)) =
      (l.filter fun p => p ∉ extra ∧ W p ≠ empty).map (withHash W) := by
  induction l generalizing extra u with
  | nil => rfl
  | cons p l ih =>
    obtain ⟨hlate, hl⟩ := List.pairwise_cons.mp hl
    have he' := he.sublist (List.dropWhile_sublist (· < p))
    have hu' := hu.sublist (List.dropWhile_sublist (· < p))
    -- Later positions see the same entries.
    have hrest : ∀ u' : List Nat, u'.Pairwise (· < ·) → (∀ q, p < q → (q ∈ u' ↔ q ∈ u)) →
        keepProofs (l.map (withHash V)) (extra.dropWhile (· < p)) (u'.map (withHash W)) =
          (l.filter fun p => p ∉ extra ∧ W p ≠ empty).map (withHash W) := by
      intro u' hsorted hsame
      rw [ih hl he' hsorted fun q hq hnot => hVW q (List.mem_cons_of_mem _ hq)
        fun h => hnot ((hsame q (hlate q hq)).mpr h), List.filter_congr fun q hq => ?_]
      have := hlate q hq
      rw [decide_eq_decide, mem_dropWhile_lt he]
      have hle : p ≤ q := by omega
      simp only [hle, and_true]
    have hsame : ∀ q, p < q → (q ∈ u.dropWhile (· < p) ↔ q ∈ u) := by
      intro q hq
      rw [mem_dropWhile_lt hu]
      exact and_iff_left (by omega)
    rw [List.map_cons]
    unfold withHash keepProofs
    dsimp only
    rw [show (fun p => (p, V p)) = withHash V from rfl,
      show (fun p => (p, W p)) = withHash W from rfl]
    by_cases hex : p ∈ extra
    · rw [if_pos ((head_dropWhile_lt he).mpr hex), hrest u hu fun _ _ => Iff.rfl,
        List.filter_cons_of_neg (by simp [hex])]
    · rw [if_neg fun h => hex ((head_dropWhile_lt he).mp h), dropWhile_withHash,
        keptHash_withHash V W hu]
      by_cases hW : W p = empty
      · have hpu : p ∈ u := by
          by_contra hnot
          exact (hVW p List.mem_cons_self hnot).2 hW
        rw [if_pos hpu, if_neg (not_not.mpr hW), List.filter_cons_of_neg (by simp [hW])]
        exact hrest _ hu' hsame
      · have hhash : (if p ∈ u then (if W p ≠ empty then some (W p) else none) else some (V p)) =
            some (W p) := by
          by_cases hpu : p ∈ u
          · rw [if_pos hpu, if_pos hW]
          · rw [if_neg hpu, (hVW p List.mem_cons_self hpu).1]
        rw [hhash, List.filter_cons_of_pos (by simp [hex, hW]), List.map_cons]
        dsimp only
        rw [hrest _ hu' hsame]
        rfl

end

/-! ### Entries in any order -/

section
variable {n : Nat} (hn : n ≤ 2 ^ 63) {x y : Node} {targets : List Node}
include hn

/-- A row that is high enough is kept. -/
theorem possibleRowLoop_high {row fuel : Nat} (hx : Fits (treeRows n) x) (hrow : x.row ≤ row)
    (hle : row ≤ treeRows n) :
    possibleRowLoop (nodePos (treeRows n) x) (treeRows n) (fuel + 1) row = .ok row := by
  have hk := treeRows_le hn
  have hlt := hx.pos_lt
  have hpow : 2 ^ (treeRows n - row) ≤ 2 ^ (treeRows n - x.row) :=
    Nat.pow_le_pow_right (by omega) (by omega)
  have hpos := Nat.two_pow_pos (treeRows n - row)
  rw [possibleRowLoop, if_neg]
  rw [maxPossiblePosAtRow_eq hk hle]
  omega

/-- The row is the highest one so far. -/
theorem possibleRowLoop_max {row : Nat} (hx : Fits (treeRows n) x) (hle : row ≤ treeRows n) :
    possibleRowLoop (nodePos (treeRows n) x) (treeRows n) 257 row = .ok (max row x.row) := by
  have hk := treeRows_le hn
  rcases Nat.le_total row x.row with h | h
  · rw [possibleRowLoop_nodePos hk hx h (by omega), Nat.max_eq_right h]
  · rw [possibleRowLoop_high hn hx h hle, Nat.max_eq_left h]

/-- **The loop over the entries in any order**: those with a hash are moved and kept. -/
theorem newPositionsLoop_anyOrder {H : Type} [DecidableEq H] [HashOps H]
    (hanti : Antichain targets) (htwin : Twinless targets) (hin : ∀ t ∈ targets, t.InForest n)
    {slice : List (Node × H)} {appendRoots : Bool}
    (hslice : ∀ e ∈ slice, e.1.InForest n ∧ (e.2 ≠ empty → ∀ t ∈ targets, ¬ t.Above e.1))
    (happend : ∀ e ∈ slice, e.2 ≠ empty → appendRoots = true ∨
      (settled n targets e.1).InForest n ∧ ¬ (settled n targets e.1).IsRoot n)
    {row : Nat} (hrow : row ≤ treeRows n) :
    newPositionsLoop (targets.map (nodePos (treeRows n))) n appendRoots row
        (slice.map (hashAndPos (treeRows n))) =
      .ok ((slice.filter fun e => e.2 ≠ empty).map fun e =>
        hashAndPos (treeRows n) (settled n targets e.1, e.2)) := by
  induction slice generalizing row with
  | nil => rfl
  | cons e slice ih =>
    obtain ⟨hxin, hxa⟩ := hslice e List.mem_cons_self
    have hslice' : ∀ e ∈ slice, _ := fun e he => hslice e (List.mem_cons_of_mem _ he)
    have happend' : ∀ e ∈ slice, _ := fun e he => happend e (List.mem_cons_of_mem _ he)
    rw [List.map_cons, hashAndPos, newPositionsLoop]
    by_cases he : e.2 = empty
    · rw [if_pos he, List.filter_cons_of_neg (by simp [he])]
      exact ih hslice' happend' hrow
    · have hfit := fits_of_inForest (le_two_pow_treeRows n) hxin
      have hmax : max row e.1.row ≤ treeRows n := Nat.max_le.mpr ⟨hrow, hfit.1⟩
      rw [if_neg he, possibleRowLoop_max hn hfit hrow, Exec.ok_bind, if_neg (by omega),
        ih hslice' happend' hmax, Exec.ok_bind,
        nextPosLoop_nodePos hn hanti htwin hin (.start (hxa he)) hxin,
        List.filter_cons_of_pos (by simpa using he), List.map_cons, if_pos]
      · rfl
      · rw [Bool.or_eq_true, Bool.not_eq_true']
        refine (happend e List.mem_cons_self he).imp id fun hin' => ?_
        obtain ⟨h1, h2⟩ := hin'
        by_contra hroot
        have hfit' := fits_of_inForest (le_two_pow_treeRows n) h1
        exact h2 ((isRootPositionOnRow_nodePos hn hfit').mp ((Bool.not_eq_false _).mp hroot)).1

end

end Utreexo
