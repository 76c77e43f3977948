import Utreexo.MapRemove
import Utreexo.MapRooted
import Utreexo.RowChange

/-! # Making room in a MapPollard

When the forest is one perfect tree and a leaf is added, the forest gets one row more and every
node above the bottom row another position.  `remap` moves the nodes row by row inside the same
map.  No position of the larger forest above the bottom row is one of the smaller, so nothing is
overwritten, and the nodes and leaves that the MapPollard holds are the same as before.
-/
namespace Utreexo
open Merkle

theorem lookup_mapValues {α β γ : Type} [DecidableEq α] (f : β → γ) (s : Finmap fun _ : α => β)
    (a : α) : (mapValues f s).lookup a = (s.lookup a).map f := by
  have hmem : ∀ b, (mapValues f s).lookup a = some b ↔ ∃ c, s.lookup a = some c ∧ f c = b := by
    intro b
    rw [Finmap.lookup_eq_some_iff, mapValues]
    dsimp only
    rw [Multiset.mem_map]
    constructor
    · rintro ⟨⟨a', c⟩, hc, he⟩
      cases he
      exact ⟨c, Finmap.lookup_eq_some_iff.mpr hc, rfl⟩
    · rintro ⟨c, hc, rfl⟩
      exact ⟨⟨a, c⟩, Finmap.lookup_eq_some_iff.mp hc, rfl⟩
  refine Option.ext fun b => ?_
  rw [hmem, Option.map_eq_some_iff]

namespace MapPollard
variable {H : Type}

section
variable {T : Nat} {D : Set Node} {x y c : Node}

open Classical in
/-- The position of a node when those in `D` have been moved to the larger forest. -/
noncomputable def movedPos (T : Nat) (D : Set Node) (x : Node) : Nat :=
  if x ∈ D then nodePos (T + 1) x else nodePos T x

/-- Above the bottom row the positions of the larger forest are new. -/
theorem lt_nodePos_succ (hy : Fits T y) (h0 : 0 < x.row) : nodePos T y < nodePos (T + 1) x := by
  have hlt := hy.pos_lt_max
  have hpow : 2 ^ (T + 1 + 1 - x.row) ≤ 2 ^ (T + 1) := Nat.pow_le_pow_right (by omega) (by omega)
  have htwo : 2 ^ (T + 1 + 1) = 2 ^ (T + 1) * 2 := Nat.pow_succ ..
  unfold nodePos at hlt ⊢
  omega

theorem movedPos_inj (hD : ∀ z ∈ D, 0 < z.row) (hx : Fits T x) (hy : Fits T y)
    (h : movedPos T D x = movedPos T D y) : x = y := by
  unfold movedPos at h
  split at h <;> split at h
  · exact (hx.mono (Nat.le_succ T)).pos_inj (hy.mono (Nat.le_succ T)) h
  · next hxD _ => exact absurd h.symm (Nat.ne_of_lt (lt_nodePos_succ hy (hD x hxD)))
  · next _ hyD => exact absurd h (Nat.ne_of_lt (lt_nodePos_succ hx (hD y hyD)))
  · exact hx.pos_inj hy h

theorem movedPos_insert_of_ne (h : x ≠ c) : movedPos T (insert c D) x = movedPos T D x := by
  unfold movedPos
  rw [Set.mem_insert_iff, or_iff_right h]

theorem movedPos_insert_self : movedPos T (insert c D) c = nodePos (T + 1) c :=
  if_pos (Set.mem_insert c D)

/-- A MapPollard for a perfect tree in which the nodes of `D` have been moved. -/
structure Moves (m : MapPollard H) (T : Nat) (N : NodeMap H) (D : Set Node) : Prop where
  totalRows : m.totalRows = T
  numLeaves : m.numLeaves = 2 ^ T
  nodes : ∀ p l, m.nodes.lookup p = some l ↔ ∃ x, Fits T x ∧ N x = some l ∧ movedPos T D x = p

variable {m : MapPollard H} {N : NodeMap H}

theorem Moves.moveNode (h : m.Moves T N D) (hD : ∀ z ∈ D, 0 < z.row) (hc : Fits T c)
    (h0 : 0 < c.row) (hcD : c ∉ D) :
    (m.moveNode (nodePos T c) (nodePos (T + 1) c)).Moves T N (insert c D) ∧
      (m.moveNode (nodePos T c) (nodePos (T + 1) c)).cachedLeaves = m.cachedLeaves := by
  have hpos : movedPos T D c = nodePos T c := if_neg hcD
  have hD' : ∀ z ∈ insert c D, 0 < z.row := by
    rintro z (rfl | hz)
    · exact h0
    · exact hD z hz
  unfold MapPollard.moveNode
  cases hlook : m.nodes.lookup (nodePos T c) with
  | none =>
    have hN : N c = none := by
      by_contra hne
      obtain ⟨l, hl⟩ := Option.ne_none_iff_exists'.mp hne
      rw [(h.nodes _ l).mpr ⟨c, hc, hl, hpos⟩] at hlook
      cases hlook
    refine ⟨⟨h.totalRows, h.numLeaves, fun p l => ?_⟩, rfl⟩
    rw [h.nodes]
    refine exists_congr fun x => and_congr_right fun _ => and_congr_right fun hx => ?_
    rw [movedPos_insert_of_ne]
    rintro rfl
    rw [hN] at hx
    cases hx
  | some l0 =>
    obtain ⟨x, hx, hN, hxp⟩ := (h.nodes _ _).mp hlook
    obtain rfl := movedPos_inj hD hx hc (hxp.trans hpos.symm)
    refine ⟨⟨h.totalRows, h.numLeaves, fun p l => ?_⟩, rfl⟩
    show Finmap.lookup p ((m.nodes.erase _).insert _ l0) = some l ↔ _
    by_cases hp : p = nodePos (T + 1) x
    · rw [hp, Finmap.lookup_insert]
      constructor
      · rintro ⟨⟩
        exact ⟨x, hc, hN, movedPos_insert_self⟩
      · rintro ⟨y, hy, hyN, hyp⟩
        obtain rfl := movedPos_inj hD' hy hc (hyp.trans movedPos_insert_self.symm)
        exact hN.symm.trans hyN
    · rw [Finmap.lookup_insert_of_ne _ hp]
      by_cases hpx : p = nodePos T x
      · rw [hpx, Finmap.lookup_erase]
        refine iff_of_false (fun hne => by cases hne) ?_
        rintro ⟨y, hy, -, hyp⟩
        -- The old position of the node is free now.
        by_cases hyx : y = x
        · rw [hyx, movedPos_insert_self] at hyp
          exact absurd hyp.symm (Nat.ne_of_lt (lt_nodePos_succ hc h0))
        · rw [movedPos_insert_of_ne hyx, ← hpos] at hyp
          exact hyx (movedPos_inj hD hy hc hyp)
      · rw [Finmap.lookup_erase_ne hpx, h.nodes]
        refine exists_congr fun y => and_congr_right fun hy => and_congr_right fun _ => ?_
        by_cases hyx : y = x
        · rw [hyx, movedPos_insert_self, hpos]
          exact iff_of_false (Ne.symm hpx) (Ne.symm hp)
        · rw [movedPos_insert_of_ne hyx]

/-- The part of row `h` from `c` on is moved. -/
theorem Moves.remapLoop (hT : T < 63) {h : Nat} (h0 : 0 < h) (hh : h ≤ T) (count : Nat) :
    ∀ {c : Nat} {D : Set Node} {m : MapPollard H}, m.Moves T N D → (∀ z ∈ D, 0 < z.row) →
      (∀ z ∈ D, z.row = h → z.off < c) → c + count = 2 ^ (T - h) →
      (remapLoop count (nodePos T ⟨h, c⟩) (nodePos (T + 1) ⟨h, c⟩) m).Moves T N
        (D ∪ {z | z.row = h ∧ c ≤ z.off ∧ Fits T z}) ∧
      (remapLoop count (nodePos T ⟨h, c⟩) (nodePos (T + 1) ⟨h, c⟩) m).cachedLeaves =
        m.cachedLeaves := by
  induction count with
  | zero =>
    intro c D m hm _ _ hc
    have hset : D ∪ {z | z.row = h ∧ c ≤ z.off ∧ Fits T z} = D := by
      refine Set.union_eq_left.mpr fun z hz => ?_
      have hlt := hz.2.2.2
      rw [hz.1] at hlt
      exact absurd hz.2.1 (by omega)
    rw [hset]
    exact ⟨hm, rfl⟩
  | succ count ih =>
    intro c D m hm hD hlow hc
    have hfit : Fits T ⟨h, c⟩ := ⟨hh, by show c < 2 ^ (T - h); omega⟩
    have hcD : (⟨h, c⟩ : Node) ∉ D := fun hz => Nat.lt_irrefl c (hlow _ hz rfl)
    have hword : nodePos (T + 1) ⟨h, c⟩ + 1 < 2 ^ 64 := by
      have hlt : nodePos (T + 1) _ < _ := (hfit.mono (Nat.le_succ T)).pos_lt_max
      have hpow : 2 ^ (T + 1 + 1) ≤ 2 ^ 64 := Nat.pow_le_pow_right (by omega) (by omega)
      omega
    obtain ⟨hs1, hs2⟩ := hm.moveNode hD hfit h0 hcD
    have hD' : ∀ z ∈ insert (⟨h, c⟩ : Node) D, 0 < z.row := by
      rintro z (rfl | hz)
      · exact h0
      · exact hD z hz
    have hlow' : ∀ z ∈ insert (⟨h, c⟩ : Node) D, z.row = h → z.off < c + 1 := by
      rintro z (rfl | hz) hr
      · exact Nat.lt_succ_self c
      · exact Nat.lt_succ_of_lt (hlow z hz hr)
    obtain ⟨hr1, hr2⟩ := ih hs1 hD' hlow' (by omega)
    have hset : insert (⟨h, c⟩ : Node) D ∪ {z | z.row = h ∧ c + 1 ≤ z.off ∧ Fits T z} =
        D ∪ {z | z.row = h ∧ c ≤ z.off ∧ Fits T z} := by
      ext z
      constructor
      · rintro ((rfl | hz) | ⟨hr, hle, hz⟩)
        · exact Or.inr ⟨rfl, Nat.le_refl c, hfit⟩
        · exact Or.inl hz
        · exact Or.inr ⟨hr, by omega, hz⟩
      · rintro (hz | ⟨hr, hle, hz⟩)
        · exact Or.inl (Or.inr hz)
        · rcases Nat.eq_or_lt_of_le hle with he | hlt
          · exact Or.inl (Or.inl (Node.ext hr he.symm))
          · exact Or.inr ⟨hr, hlt, hz⟩
    rw [hset] at hr1
    rw [MapPollard.remapLoop, add64_of_lt hword]
    exact ⟨hr1, hr2.trans hs2⟩

/-- The rows are moved from below. -/
theorem Moves.remapRows (hT : T < 63) (k : Nat) :
    ∀ {h : Nat} {m : MapPollard H}, 0 < h → h + k = T + 1 →
      m.Moves T N {z | 0 < z.row ∧ z.row < h ∧ Fits T z} →
      ∃ m', remapRows (T + 1) (List.range' h k) m = (m', .ok ()) ∧
        m'.Moves T N {z | 0 < z.row ∧ z.row < T + 1 ∧ Fits T z} ∧
        m'.cachedLeaves = m.cachedLeaves := by
  induction k with
  | zero =>
    intro h m _ hk hm
    obtain rfl : h = T + 1 := by omega
    exact ⟨m, rfl, hm, rfl⟩
  | succ k ih =>
    intro h m h0 hk hm
    have hstart : startPositionAtRow h (T + 1) = nodePos (T + 1) ⟨h, 0⟩ :=
      startPositionAtRow_eq (by omega) (by omega)
    obtain ⟨hs1, hs2⟩ := hm.remapLoop hT h0 (by omega) (2 ^ (T - h)) (fun z hz => hz.1)
      (fun z hz hr => absurd hz.2.1 (by omega)) (Nat.zero_add _)
    have hset : {z : Node | 0 < z.row ∧ z.row < h ∧ Fits T z} ∪
        {z | z.row = h ∧ 0 ≤ z.off ∧ Fits T z} = {z | 0 < z.row ∧ z.row < h + 1 ∧ Fits T z} := by
      ext z
      constructor
      · rintro (⟨hz0, hlt, hz⟩ | ⟨hr, -, hz⟩)
        · exact ⟨hz0, by omega, hz⟩
        · exact ⟨by omega, by omega, hz⟩
      · rintro ⟨hz0, hlt, hz⟩
        rcases Nat.lt_or_eq_of_le (Nat.le_of_lt_succ hlt) with hlt | heq
        · exact Or.inl ⟨hz0, hlt, hz⟩
        · exact Or.inr ⟨heq, Nat.zero_le _, hz⟩
    rw [hset] at hs1
    obtain ⟨m', h1, hm', hc⟩ := ih (by omega) (by omega) hs1
    refine ⟨m', ?_, hm', hc.trans hs2⟩
    rw [List.range'_succ, remapRows_cons hT hm.totalRows hm.numLeaves (by omega), hstart]
    exact h1

end

section
variable [DecidableEq H] {T n : Nat} {N : NodeMap H} {K : LeafMap H} {m : MapPollard H}

theorem Sees.moves (h : m.Sees T n N K) (hn : n = 2 ^ T) {D : Set Node} (hD : ∀ z, z ∉ D) :
    m.Moves T N D where
  totalRows := h.totalRows
  numLeaves := h.numLeaves.trans hn
  nodes p l := by
    have hpos : ∀ x, movedPos T D x = nodePos T x := fun x => if_neg (hD x)
    constructor
    · intro hp
      obtain ⟨x, hx, rfl⟩ := h.keys p (Finmap.mem_iff.mpr ⟨l, hp⟩)
      rw [h.nodes x hx] at hp
      exact ⟨x, hx, hp, hpos x⟩
    · rintro ⟨x, hx, hN, rfl⟩
      rw [hpos, h.nodes x hx, hN]

/-- **Making room changes positions only.** -/
theorem Sees.remap (hm : m.Sees T n N K) (hT : T ≤ 63) (hn : n ≤ 2 ^ T) (hroom : n < 2 ^ 63)
    (hK : ∀ h x, K h = some x → Fits T x) :
    ∃ m' T', m.remap = (m', .ok T') ∧ T' ≤ 63 ∧ n + 1 ≤ 2 ^ T' ∧ T ≤ T' ∧ m'.Sees T' n N K := by
  unfold MapPollard.remap
  rw [hm.numLeaves, hm.totalRows, add64_of_lt (by omega)]
  dsimp only
  by_cases hrows : treeRows (n + 1) ≤ T
  · rw [if_pos hrows]
    exact ⟨m, T, rfl, hT, treeRows_le_iff.mp hrows, Nat.le_refl T, hm⟩
  · obtain ⟨hfull, hnext⟩ := grow_cases hn hrows
    have hlt : T < 63 := by
      by_contra hge
      have : 2 ^ 63 ≤ 2 ^ T := Nat.pow_le_pow_right (by omega) (by omega)
      omega
    obtain ⟨m1, h1, hs1, hc1⟩ := (hm.moves hfull fun z hz => by
      exact absurd hz.2.1 (by have := hz.1; omega)).remapRows hlt T Nat.one_pos (Nat.add_comm 1 T)
    have hpos : ∀ x, Fits T x →
        movedPos T {z | 0 < z.row ∧ z.row < T + 1 ∧ Fits T z} x = nodePos (T + 1) x := by
      intro x hx
      unfold movedPos
      by_cases h0 : 0 < x.row
      · exact if_pos ⟨h0, Nat.lt_succ_of_le hx.1, hx⟩
      · -- On the bottom row the position is the number of the leaf.
        rw [if_neg fun h => h0 h.1]
        obtain h0 : x.row = 0 := by omega
        simp [nodePos, h0]
    rw [if_neg hrows, hnext, h1]
    refine ⟨_, T + 1, rfl, by omega, ?_, Nat.le_succ T, ?_⟩
    · have := Nat.two_pow_pos T
      rw [hfull, Nat.pow_succ]
      omega
    · have hlook : ∀ p l, m1.nodes.lookup p = some l ↔
          ∃ x, Fits T x ∧ N x = some l ∧ nodePos (T + 1) x = p := by
        intro p l
        rw [hs1.nodes]
        exact exists_congr fun x => and_congr_right fun hx => by rw [hpos x hx]
      refine ⟨rfl, hs1.numLeaves.trans hfull.symm, fun x hx => ?_, fun p hp => ?_,
        fun x hx => (hm.fits x hx).mono (Nat.le_succ T), fun h => ?_⟩
      · refine Option.ext fun l => ?_
        refine (hlook _ l).trans ⟨?_, fun hl => ?_⟩
        · rintro ⟨y, hy, hl, hyx⟩
          rwa [(hy.mono (Nat.le_succ T)).pos_inj hx hyx] at hl
        · exact ⟨x, hm.fits x (by rw [hl]; exact Option.some_ne_none l), hl, rfl⟩
      · obtain ⟨l, hl⟩ := Finmap.mem_iff.mp hp
        obtain ⟨x, hx, -, he⟩ := (hlook p l).mp hl
        exact ⟨x, hx.mono (Nat.le_succ T), he⟩
      · show (mapValues _ m1.cachedLeaves).lookup h = _
        rw [lookup_mapValues, hc1, hm.cached, hs1.totalRows]
        cases hk : K h with
        | none => rfl
        | some x =>
          have hx := hK h x hk
          exact congrArg some (translatePos_nodePos (by omega) (by omega) hx
            (hx.mono (Nat.le_succ T)))

end

end MapPollard

end Utreexo
