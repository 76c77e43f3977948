import Utreexo.Layout
import Utreexo.MapGrow

/-! # What a pruned forest keeps

A MapPollard keeps the roots, the leaves that are wanted and the nodes that a proof of these
leaves needs.  `Sound` says so of a partial map on the nodes of a layout, with the hash of every
node that is kept.  Pruning a pair of siblings and moving a subtree up keep it.
-/
namespace Merkle
variable {t y z : Node}

namespace Layout
variable {α : Type} {L L' : Layout α}

/-- The trees that move up with the sibling of a node. -/
theorem tree_raise (hs : L.Inside t.sibling) (hp : L'.Inside t.parent)
    (htop : L'.tree t.parent = L.tree t.sibling) (hy : t.sibling.Above y) :
    L'.tree (Node.raise t y) = L.tree y := by
  obtain ⟨j, hj⟩ := hy
  induction j generalizing y with
  | zero =>
    rw [Node.up_zero] at hj
    rw [hj, Node.raise_self, htop]
  | succ j ih =>
    rw [← Node.parent_up] at hj
    have hlt : y.row < t.row := by
      have := congrArg Node.row hj
      rw [Node.up_row, Node.parent_row, Node.sibling_row] at this
      omega
    have habove : t.parent.Above (Node.raise t y).parent := by
      rw [← Node.raise_parent hlt]
      exact Node.parent_above_raise hlt
    rw [tree_child (hp.below habove), ← Node.raise_parent hlt, ih hj, Node.isRight_raise hlt,
      ← tree_child (hs.below ⟨j, hj⟩)]

/-- The bottom row is empty then. -/
theorem tree_raise_bottom (hs : L.Inside t.sibling) (hp : L'.Inside t.parent)
    (htop : L'.tree t.parent = L.tree t.sibling) (hz : t.parent.Above z) (h0 : z.row = 0) :
    L'.tree z = none := by
  have hne : t.parent ≠ z := by
    rintro rfl
    exact Nat.succ_ne_zero _ h0
  have hzp := hz.parent_of_ne hne
  obtain ⟨y, hy, hyz⟩ := Node.exists_raise hzp (Nat.succ_pos _)
  have hy0 : y.row = 0 := by
    have := congrArg Node.row hyz
    rw [Node.raise_row, Node.parent_row] at this
    omega
  rw [tree_child (hp.below hzp), ← hyz, tree_raise hs hp htop hy]
  cases hT : L.tree y with
  | none => rfl
  | some T =>
    cases T with
    | leaf a => rfl
    | node l r => exact absurd (L.depth hT) (by omega)

/-- From `L` to `L'` the tree at the sibling of `t` has moved to their parent.  The trees above
have lost leaves of the tree at `t` only, and these are no longer wanted. -/
structure Raising (t : Node) (L L' : Layout α) (W W' : Set α) : Prop where
  beside : L.Inside t.sibling
  parent : L'.Inside t.parent
  top : L'.tree t.parent = L.tree t.sibling
  roots : ∀ z, ¬ t.parent.Above z → (L'.root z ↔ L.root z)
  root_parent : L.root t.parent → L'.root t.parent
  apart : ∀ z, ¬ t.parent.Above z → ¬ z.Above t.parent → L'.tree z = L.tree z
  above : ∀ z a, z.Above t.parent → z ≠ t.parent → L'.tree z ≠ some (.leaf a)
  leaves : ∀ z, z.Above t.parent → z ≠ t.parent →
    ∀ a ∈ CTree.leavesOpt (L'.tree z), a ∈ CTree.leavesOpt (L.tree z)
  sub : W' ⊆ W
  gone : ∀ a ∈ W, a ∉ W' → a ∈ CTree.leavesOpt (L.tree t)

namespace Raising
variable {t x y z : Node} {L L' : Layout α} {W W' : Set α} (h : Raising t L L' W W')
include h

theorem tree_raise (hy : t.sibling.Above y) : L'.tree (Node.raise t y) = L.tree y :=
  Merkle.Layout.tree_raise h.beside h.parent h.top hy

theorem tree_bottom (hz : t.parent.Above z) (h0 : z.row = 0) : L'.tree z = none :=
  tree_raise_bottom h.beside h.parent h.top hz h0

/-- The roots are the same but for the parent. -/
theorem inside_iff (hz : ¬ t.parent.Above z) : L'.Inside z ↔ L.Inside z := by
  refine exists_congr fun r => and_congr_left fun hr => ?_
  exact h.roots r fun hp => hz (hp.trans hr)

/-- A wanted leaf that is not in the tree at `t` is still wanted. -/
theorem still_wanted {a : α} (ha : a ∈ W) (hx : a ∈ CTree.leavesOpt (L.tree x))
    (h1 : ¬ t.Above x) (h2 : ¬ x.Above t) : a ∈ W' := by
  by_contra hno
  exact (above_of_common (h.gone a ha hno) hx).elim h1 h2

theorem still_wanted_below {a : α} (ha : a ∈ W) (hx : a ∈ CTree.leavesOpt (L.tree x))
    (hs : t.sibling.Above x) : a ∈ W' := by
  refine h.still_wanted ha hx (fun ht => ?_) fun ht => ?_
  · rcases hs.total ht with h' | h'
    · exact Node.sibling_ne t (h'.eq_of_row_eq rfl)
    · exact Node.sibling_ne t (h'.eq_of_row_eq rfl).symm
  · exact Node.sibling_ne t ((hs.trans ht).eq_of_row_eq rfl)

theorem still_wanted_apart {a : α} (ha : a ∈ W) (hx : a ∈ CTree.leavesOpt (L.tree x))
    (h1 : ¬ t.parent.Above x) (h2 : ¬ x.Above t.parent) : a ∈ W' := by
  refine h.still_wanted ha hx (fun ht => h1 ((Node.parent_above t).trans ht)) fun ht => ?_
  refine h2 (ht.parent_of_ne ?_)
  rintro rfl
  exact h1 (Node.parent_above x)

theorem meets_raise (hy : t.sibling.Above y) :
    L'.Meets W' (Node.raise t y) ↔ L.Meets W y := by
  unfold Meets
  rw [h.tree_raise hy]
  constructor
  · rintro ⟨a, ha, hmem⟩
    exact ⟨a, h.sub ha, hmem⟩
  · rintro ⟨a, ha, hmem⟩
    exact ⟨a, h.still_wanted_below ha hmem hy, hmem⟩

theorem meets_apart (h1 : ¬ t.parent.Above x) (h2 : ¬ x.Above t.parent) :
    L'.Meets W' x ↔ L.Meets W x := by
  unfold Meets
  rw [h.apart x h1 h2]
  constructor
  · rintro ⟨a, ha, hmem⟩
    exact ⟨a, h.sub ha, hmem⟩
  · rintro ⟨a, ha, hmem⟩
    exact ⟨a, h.still_wanted_apart ha hmem h1 h2, hmem⟩

theorem meets_of_above (h1 : ¬ t.parent.Above x) (h2 : x.Above t.parent) (hm : L'.Meets W' x) :
    L.Meets W x := by
  obtain ⟨a, ha, hmem⟩ := hm
  refine ⟨a, h.sub ha, h.leaves x h2 ?_ a hmem⟩
  rintro rfl
  exact h1 (Node.Above.refl _)

theorem not_root_below (hy : t.sibling.Above y) (hne : y ≠ t.sibling) : ¬ L.root y :=
  not_root_of_parent (h.beside.below (hy.parent_of_ne (Ne.symm hne)))

end Raising

/-- Below a leaf there is no other tree. -/
theorem eq_of_leaf_above {x y : Node} {a : α} {T : CTree α} (hx : L.tree x = some (.leaf a))
    (hy : L.tree y = some T) (h : x.Above y) : x = y := by
  obtain ⟨j, rfl⟩ := h
  cases j with
  | zero => exact Node.up_zero y
  | succ j =>
    rw [Node.up_succ] at hx
    have hp := inside_of_tree hx
    have hnone : L.tree (y.up j) = none := by
      rw [tree_child hp, hx]
      rfl
    obtain ⟨b, hb⟩ := List.exists_mem_of_ne_nil _ T.leaves_ne_nil
    have hmem : b ∈ CTree.leavesOpt (L.tree (y.up j)) :=
      mem_leaves_above (inside_of_parent hp) ⟨j, rfl⟩ (by rw [hy]; exact hb)
    rw [hnone] at hmem
    cases hmem

/-- Below a node with the same tree everything is the same. -/
theorem tree_congr_below {x y : Node} (hx : L.Inside x) (hx' : L'.Inside x)
    (h : L'.tree x = L.tree x) (hy : x.Above y) : L'.tree y = L.tree y := by
  obtain ⟨j, rfl⟩ := hy
  induction j generalizing y with
  | zero => rwa [Node.up_zero] at h
  | succ j ih =>
    rw [← Node.parent_up] at hx hx' h
    rw [tree_child (hx.below ⟨j, rfl⟩), tree_child (hx'.below ⟨j, rfl⟩), ih hx hx' h]

/-- Removing a tree that has one beside it. -/
theorem Raising.of_tree {t : Node} {D : CTree α} {W : Set α} (hD : L.tree t = some D)
    (hp : L.Inside t.parent) (htop : L'.tree t.parent = L.tree t.sibling)
    (hroots : ∀ z, L'.root z ↔ L.root z)
    (hapart : ∀ z, ¬ t.parent.Above z → ¬ z.Above t.parent → L'.tree z = L.tree z) :
    Raising t L L' W (W \ {a | a ∈ D.leaves}) := by
  have hin : ∀ {z}, L'.Inside z ↔ L.Inside z :=
    fun {z} => exists_congr fun r => and_congr_left fun _ => hroots r
  have hs : L.Inside t.sibling := inside_of_parent (by rwa [Node.sibling_parent])
  have habove : ∀ z a, z.Above t.parent → z ≠ t.parent → L'.tree z ≠ some (.leaf a) := by
    intro z a hz hne hleaf
    -- The other child of the node still has a tree.
    obtain ⟨c, rfl, hc⟩ : ∃ c : Node, c.parent = z ∧ c.Above t.parent := by
      obtain ⟨j, rfl⟩ := hz
      cases j with
      | zero => exact absurd (Node.up_zero _) hne
      | succ j => exact ⟨t.parent.up j, (Node.up_succ _ j).symm, j, rfl⟩
    have hz' := inside_of_tree hleaf
    obtain ⟨a0, ha0⟩ := List.exists_mem_of_ne_nil _ D.leaves_ne_nil
    have hmem : a0 ∈ CTree.leavesOpt (L.tree c) :=
      mem_leaves_above (inside_of_parent (hin.mp hz')) (hc.trans (Node.parent_above t))
        (by rw [hD]; exact ha0)
    obtain ⟨C, hC⟩ := Meets.exists_tree (W := Set.univ) ⟨a0, Set.mem_univ _, hmem⟩
    obtain ⟨S, hS, -⟩ := tree_sibling (hin.mp hz') hC
    rw [← hapart _ hc.sibling_apart.1 hc.sibling_apart.2] at hS
    obtain ⟨C', -, hnode⟩ := tree_sibling (by rwa [Node.sibling_parent]) hS
    rw [Node.sibling_parent, hleaf] at hnode
    split at hnode <;> cases hnode
  refine ⟨hs, hin.mpr hp, htop, fun z _ => hroots z, (hroots _).mpr, hapart, habove, ?_,
    Set.sdiff_subset, fun a ha hno => ?_⟩
  · intro z hz hne a ha
    cases hT : L'.tree z with
    | none =>
      rw [hT] at ha
      cases ha
    | some T =>
      rw [hT] at ha
      have hzin := hin.mp (inside_of_tree hT)
      obtain ⟨w, hw, hleaf⟩ := exists_leaf hT ha
      have hmem : ∀ y, z.Above y → L.tree y = some (.leaf a) →
          a ∈ CTree.leavesOpt (L.tree z) := fun y hy hya =>
        mem_leaves_above hzin hy (by rw [hya]; exact List.mem_singleton_self a)
      by_cases hpw : t.parent.Above w
      · rcases Nat.eq_zero_or_pos w.row with h0 | h0
        · rw [tree_raise_bottom hs (hin.mpr hp) htop hpw h0] at hleaf
          cases hleaf
        · obtain ⟨y, hy, rfl⟩ := Node.exists_raise hpw h0
          rw [Layout.tree_raise hs (hin.mpr hp) htop hy] at hleaf
          exact hmem y (hz.trans (Node.parent_above_of_sibling hy)) hleaf
      · by_cases hwp : w.Above t.parent
        · refine absurd hleaf (habove w a hwp ?_)
          rintro rfl
          exact hpw (Node.Above.refl _)
        · exact hmem w hw (hapart w hpw hwp ▸ hleaf)
  · rw [hD]
    by_contra hno'
    exact hno ⟨ha, hno'⟩

/-- From `L` to `L'` the tree of the root `t` has gone, and with it leaves that are no longer
wanted. -/
structure Emptying (t : Node) (L L' : Layout α) (W W' : Set α) : Prop where
  root : L.root t
  roots : ∀ z, L'.root z ↔ L.root z
  below : ∀ z, t.Above z → L'.tree z = none
  apart : ∀ z, ¬ t.Above z → L'.tree z = L.tree z
  sub : W' ⊆ W
  gone : ∀ a ∈ W, a ∉ W' → a ∈ CTree.leavesOpt (L.tree t)

theorem Emptying.inside_iff {t z : Node} {W W' : Set α} (h : Emptying t L L' W W') :
    L'.Inside z ↔ L.Inside z :=
  exists_congr fun r => and_congr_left fun _ => h.roots r

theorem Emptying.meets_iff {t z : Node} {W W' : Set α} (h : Emptying t L L' W W')
    (hz : ¬ t.Above z) : L'.Meets W' z ↔ L.Meets W z := by
  unfold Meets
  rw [h.apart z hz]
  refine exists_congr fun a => and_congr_left fun hmem => ⟨fun ha => h.sub ha, fun ha => ?_⟩
  by_contra hno
  rcases above_of_common (h.gone a ha hno) hmem with h1 | h1
  · exact hz h1
  · -- Above a root there is no tree.
    obtain ⟨r, hr, hra⟩ := Meets.inside ⟨a, ha, hmem⟩
    obtain rfl := L.apart hr h.root (hra.trans h1)
    exact hz hra

/-- From `L` to `L'` two roots have become the children of their parent. -/
structure Joining (t : Node) (L L' : Layout α) : Prop where
  root : L.root t
  sibling : L.root t.sibling
  tree : L.tree t ≠ none
  tree_sibling : L.tree t.sibling ≠ none
  parent : L'.root t.parent
  roots : ∀ z, ¬ t.parent.Above z → (L'.root z ↔ L.root z)
  node : ∀ a, L'.tree t.parent ≠ some (.leaf a)
  apart : ∀ z, z ≠ t.parent → L'.tree z = L.tree z

namespace Joining
variable {t z : Node} {W : Set α} (h : Joining t L L')
include h

theorem parent_outside : ¬ L.Inside t.parent := fun hin => not_root_of_parent hin h.root

/-- The roots below the parent are the two that are joined. -/
theorem root_below (hz : L.root z) (ha : t.parent.Above z) : z = t ∨ z = t.sibling := by
  have hne : t.parent ≠ z := by
    rintro rfl
    exact h.parent_outside (Inside.of_root hz)
  rcases ha.of_parent hne with h1 | h1
  · exact Or.inl (L.apart h.root hz h1).symm
  · exact Or.inr (L.apart h.sibling hz h1).symm

theorem meets_of_ne (hz : z ≠ t.parent) (hm : L'.Meets W z) : L.Meets W z := by
  unfold Meets at hm ⊢
  rwa [h.apart z hz] at hm

theorem meets (hm : L.Meets W z) : L'.Meets W z := by
  have hz : z ≠ t.parent := by
    rintro rfl
    exact h.parent_outside hm.inside
  unfold Meets at hm ⊢
  rwa [h.apart z hz]

end Joining

/-- The nodes on the way up, and beside it, that may be kept without need. -/
def besidePath (t : Node) (L' : Layout α) : Set Node :=
  {x | ∃ z : Node, z.Above t.parent ∧ L'.Inside z.parent ∧ (x = z ∨ x = z.sibling)}

end Layout

end Merkle

namespace Utreexo
open Merkle

variable {H : Type} [HashOps H]

/-- The nodes that are kept of a layout of which the leaves in `W` are wanted.  If the map is
`tight`, nothing is kept without need but for the nodes in `E`. -/
structure Sound (tight : Prop) (L : Layout H) (W : Set H) (E : Set Node) (N : NodeMap H) :
    Prop where
  inside : ∀ x, N x ≠ none → L.Inside x
  hash : ∀ x l, N x = some l → l.hash = hashOpt (L.tree x)
  flag : ∀ x l, N x = some l → l.remember = true → ∃ a ∈ W, L.tree x = some (.leaf a)
  roots : ∀ x, L.root x → N x ≠ none
  wanted : ∀ x a, a ∈ W → L.tree x = some (.leaf a) → MapPollard.Marked N x
  beside : ∀ x, L.Meets W x → ¬ L.root x → N x.sibling ≠ none
  solid : ∀ x, N x ≠ none → L.root x ∨ L.tree x ≠ none
  /-- A node with a child has its sibling, needed or not. -/
  closed : ∀ x, MapPollard.HasChild N x → L.Inside x → ¬ L.root x → N x.sibling ≠ none
  minimal : tight → ∀ x, N x ≠ none → x ∉ E → L.root x ∨ L.Meets W x ∨ L.Meets W x.sibling

namespace Sound
open MapPollard

variable {tight : Prop}

section
variable {L : Layout H} {W : Set H} {E : Set Node} {N : NodeMap H} {x y : Node}

/-- Of a node with a wanted leaf, itself is marked or a child is kept. -/
theorem marked_or_hasChild (h : Sound tight L W E N) (hx : L.Meets W x) :
    Marked N x ∨ HasChild N x := by
  rcases hx.cases with ⟨a, ha, hleaf⟩ | ⟨c, rfl, hc⟩
  · exact Or.inl (h.wanted x a ha hleaf)
  · refine Or.inr ⟨c.sibling, Node.sibling_parent c, h.beside c hc ?_⟩
    exact Layout.not_root_of_parent hx.inside

theorem meets_of_marked (h : Sound tight L W E N) (hx : Marked N x) : L.Meets W x := by
  obtain ⟨l, hl, hr⟩ := hx
  obtain ⟨a, ha, hleaf⟩ := h.flag x l hl hr
  exact Layout.meets_of_leaf ha hleaf

theorem meets_of_hasChild (h : Sound tight L W E N) (htight : tight) (hx : L.Inside x)
    (hE : ∀ c : Node, c.parent = x → c ∉ E) (hc : HasChild N x) : L.Meets W x := by
  obtain ⟨c, rfl, hN⟩ := hc
  rcases h.minimal htight c hN (hE c rfl) with hr | hm | hm
  · exact absurd hr (Layout.not_root_of_parent hx)
  · exact hm.parent hx
  · rw [← Node.sibling_parent] at hx ⊢
    exact hm.parent hx

/-- The nodes are as many as are needed once the children are. -/
theorem mono {E' : Set Node} (h : Sound tight L W E N)
    (hE : ∀ x ∈ E, x ∉ E' → N x ≠ none → L.root x ∨ L.Meets W x ∨ L.Meets W x.sibling) :
    Sound tight L W E' N :=
  { h with
    minimal := fun htight x hN hx => by
      by_cases hxE : x ∈ E
      · exact hE x hxE hx hN
      · exact h.minimal htight x hN hxE }

theorem pruneAt (h : Sound tight L W E N) (hp : L.Inside y.parent)
    (hE : ∀ c : Node, c.parent.parent = y.parent → c ∉ E) :
    Sound tight L W (E \ {y, y.sibling}) (MapPollard.pruneAt y N) := by
  have hps : L.Inside y.sibling.parent := by rwa [Node.sibling_parent]
  have hy := Layout.inside_of_parent hp
  have hs := Layout.inside_of_parent hps
  -- A node is kept if it was and if it or its sibling is wanted.
  have hle : ∀ z, MapPollard.pruneAt y N z ≠ none → N z ≠ none := by
    intro z hz hN
    unfold MapPollard.pruneAt at hz
    split at hz
    · exact hz rfl
    · exact hz hN
  have heq : ∀ z l, MapPollard.pruneAt y N z = some l → N z = some l := by
    intro z l hz
    unfold MapPollard.pruneAt at hz
    split at hz
    · cases hz
    · exact hz
  have hkeep : ∀ z, (z = y → L.Meets W y ∧ Marked N y ∨ L.Meets W y.sibling) →
      (z = y.sibling → L.Meets W y.sibling ∧ Marked N y.sibling ∨ L.Meets W y) →
      MapPollard.pruneAt y N z = N z := by
    intro z h1 h2
    unfold MapPollard.pruneAt
    rw [if_neg]
    rintro ⟨hm1, hm2, ⟨rfl, hc⟩ | ⟨rfl, hc⟩⟩
    · rcases h1 rfl with hm | hm
      · exact hm1 hm.2
      · exact (h.marked_or_hasChild hm).elim hm2 hc
    · rcases h2 rfl with hm | hm
      · exact hm2 hm.2
      · exact (h.marked_or_hasChild hm).elim hm1 hc
  refine ⟨fun x hx => h.inside x (hle x hx), fun x l hx => h.hash x l (heq x l hx),
    fun x l hx => h.flag x l (heq x l hx), fun x hx => ?_, fun x a ha hx => ?_,
    fun x hx hr => ?_, fun x hx => h.solid x (hle x hx), fun x hc hin hr => ?_,
    fun htight x hx hxE => ?_⟩
  · rw [hkeep x]
    · exact h.roots x hx
    · rintro rfl
      exact absurd hx (Layout.not_root_of_parent hp)
    · rintro rfl
      exact absurd hx (Layout.not_root_of_parent hps)
  · have hm := h.wanted x a ha hx
    have hmeets := Layout.meets_of_leaf ha hx
    unfold Marked
    rw [hkeep x]
    · exact hm
    · rintro rfl
      exact Or.inl ⟨hmeets, hm⟩
    · rintro rfl
      exact Or.inl ⟨hmeets, hm⟩
  · rw [hkeep x.sibling]
    · exact h.beside x hx hr
    · rintro rfl
      rw [Node.sibling_sibling]
      exact Or.inr hx
    · intro he
      have he' := congrArg Node.sibling he
      rw [Node.sibling_sibling, Node.sibling_sibling] at he'
      exact Or.inr (he' ▸ hx)
  · obtain ⟨c, hcx, hc⟩ := hc
    have hchild : HasChild N x := ⟨c, hcx, hle c hc⟩
    have hN := h.closed x hchild hin hr
    unfold MapPollard.pruneAt
    rw [if_neg]
    · exact hN
    · -- A node is dropped only if its sibling has no child.
      rintro ⟨-, -, ⟨rfl, hno⟩ | ⟨he, hno⟩⟩
      · rw [Node.sibling_sibling] at hno
        exact hno hchild
      · have hxy : x = y := by rw [← Node.sibling_sibling x, he, Node.sibling_sibling]
        exact hno (hxy ▸ hchild)
  · have hN := hle x hx
    by_cases hxy : x = y ∨ x = y.sibling
    · -- A node of the pair is kept for a mark, or for a child of the other.
      have hc : ∀ z : Node, z.parent = y.parent → HasChild N z → L.Meets W z := by
        intro z hz hc
        refine h.meets_of_hasChild htight (Layout.inside_of_parent (hz ▸ hp)) (fun c hc => ?_) hc
        exact hE c (by rw [hc, hz])
      by_contra hno
      rw [not_or, not_or] at hno
      obtain ⟨-, hno1, hno2⟩ := hno
      refine hx ?_
      have hm1 : ¬ Marked N x := fun hm => hno1 (h.meets_of_marked hm)
      have hm2 : ¬ Marked N x.sibling := fun hm => hno2 (h.meets_of_marked hm)
      unfold MapPollard.pruneAt
      rcases hxy with rfl | rfl
      · exact if_pos ⟨hm1, hm2, Or.inl ⟨rfl, fun h => hno2 (hc _ (Node.sibling_parent x) h)⟩⟩
      · rw [Node.sibling_sibling] at hm2 hno2
        exact if_pos ⟨hm2, hm1, Or.inr ⟨rfl, fun h => hno2 (hc _ rfl h)⟩⟩
    · refine h.minimal htight x hN fun hE' => hxE ⟨hE', ?_⟩
      rwa [Set.mem_insert_iff, Set.mem_singleton_iff]

/-- Pruning the pairs on the way up to a root. -/
theorem pruneUp (j : Nat) : ∀ {y : Node} {E : Set Node} {N : NodeMap H}, Sound tight L W E N →
    L.Inside (y.up (j + 1)) →
    (∀ x ∈ E, ∃ i < j, x = y.up (i + 1) ∨ x = (y.up (i + 1)).sibling) →
    Sound tight L W ∅ (MapPollard.pruneUp j y N) := by
  induction j with
  | zero =>
    intro y E N h _ hE
    refine h.mono fun x hx => ?_
    obtain ⟨i, hi, -⟩ := hE x hx
    exact absurd hi (Nat.not_lt_zero i)
  | succ j ih =>
    intro y E N h hin hE
    rw [← Node.parent_up] at hin
    have hp : L.Inside y.parent.parent := by
      rw [← Node.up_one]
      exact hin.below ⟨j, by rw [← Node.up_add, Nat.add_comm]⟩
    refine ih (h.pruneAt hp fun c hc hcE => ?_) hin fun x hx => ?_
    · obtain ⟨i, -, hi⟩ := hE c hcE
      have hrow : c.row = y.row + (i + 1) := by rcases hi with rfl | rfl <;> rfl
      have := congrArg Node.row hc
      simp only [Node.parent_row] at this
      omega
    · obtain ⟨hxE, hne⟩ := hx
      obtain ⟨i, hi, hxi⟩ := hE x hxE
      cases i with
      | zero =>
        rw [Nat.zero_add, Node.up_one] at hxi
        exact absurd hxi hne
      | succ i =>
        refine ⟨i, by omega, ?_⟩
        rwa [Node.parent_up]

end

/-! ### A subtree moves up -/

omit [HashOps H] in
theorem raised_raise {t y : Node} {N : NodeMap H} (hy : t.sibling.Above y) :
    raised t N (Node.raise t y) = N y := by
  have hle := hy.row_le
  rw [Node.sibling_row] at hle
  rw [raised, if_pos (Node.parent_above_raise hle),
    if_pos (show 0 < (Node.raise t y).row from Nat.succ_pos _), Node.lower_raise hy]

/-- The nodes once the hashes above are right again. -/
noncomputable def rebuilt (t : Node) (L' : Layout H) (N : NodeMap H) : NodeMap H := fun z =>
  if t.parent.Above z then raised t N z
  else if z.Above t.parent then (N z).map fun _ => ⟨hashOpt (L'.tree z), false⟩
  else N z

section
variable {t x y z : Node} {L L' : Layout H} {W W' : Set H} {N : NodeMap H}

theorem rebuilt_raise (hy : t.sibling.Above y) : rebuilt t L' N (Node.raise t y) = N y := by
  have hle := hy.row_le
  rw [Node.sibling_row] at hle
  rw [rebuilt, if_pos (Node.parent_above_raise hle), raised_raise hy]

theorem rebuilt_bottom (hz : t.parent.Above z) (h0 : z.row = 0) : rebuilt t L' N z = none := by
  rw [rebuilt, if_pos hz, raised, if_pos hz, if_neg (by omega)]

theorem rebuilt_above (hz : ¬ t.parent.Above z) (hz' : z.Above t.parent) :
    rebuilt t L' N z = (N z).map fun _ => ⟨hashOpt (L'.tree z), false⟩ := by
  rw [rebuilt, if_neg hz, if_pos hz']

theorem rebuilt_apart (hz : ¬ t.parent.Above z) (hz' : ¬ z.Above t.parent) :
    rebuilt t L' N z = N z := by
  rw [rebuilt, if_neg hz, if_neg hz']

theorem rebuilt_ne_none (hz : ¬ t.parent.Above z) : rebuilt t L' N z ≠ none ↔ N z ≠ none := by
  by_cases hz' : z.Above t.parent
  · rw [rebuilt_above hz hz', Ne, Option.map_eq_none_iff]
  · rw [rebuilt_apart hz hz']

/-- Where a node of the new map comes from. -/
theorem node_cases (t z : Node) : (∃ y, t.sibling.Above y ∧ Node.raise t y = z) ∨
    (t.parent.Above z ∧ z.row = 0) ∨ (¬ t.parent.Above z ∧ z.Above t.parent) ∨
      (¬ t.parent.Above z ∧ ¬ z.Above t.parent) := by
  by_cases hz : t.parent.Above z
  · rcases Nat.eq_zero_or_pos z.row with h0 | h0
    · exact Or.inr (Or.inl ⟨hz, h0⟩)
    · exact Or.inl (Node.exists_raise hz h0)
  · by_cases hz' : z.Above t.parent
    · exact Or.inr (Or.inr (Or.inl ⟨hz, hz'⟩))
    · exact Or.inr (Or.inr (Or.inr ⟨hz, hz'⟩))

end

section Raise
variable {t x y : Node} {L L' : Layout H} {W W' : Set H} {N : NodeMap H}

theorem rebuilt_parent (hkept : N t.sibling ≠ none) : rebuilt t L' N t.parent ≠ none := by
  rw [← Node.raise_self, rebuilt_raise (Node.Above.refl _)]
  exact hkept

/-- What is beside a node that does not move is still there. -/
theorem rebuilt_sibling (hkept : N t.sibling ≠ none) (hx : ¬ t.parent.Above x)
    (hN : N x.sibling ≠ none) : rebuilt t L' N x.sibling ≠ none := by
  by_cases hps : t.parent.Above x.sibling
  · by_cases hxs : x.sibling = t.parent
    · rw [hxs]
      exact rebuilt_parent hkept
    · exact absurd (hps.of_sibling hxs) hx
  · exact (rebuilt_ne_none hps).mpr hN

/-- The child of a node that has moved up has moved up with it. -/
theorem hasChild_of_rebuilt (hy : t.sibling.Above y) (hys : y ≠ t.sibling)
    (hc : HasChild (rebuilt t L' N) (Node.raise t y)) : HasChild N y := by
  obtain ⟨c, hyc, hc⟩ := hc
  have hlt := hy.row_lt_of_ne hys
  have hcp : t.parent.Above c := by
    refine Node.Above.trans ?_ (Node.parent_above c)
    rw [hyc]
    exact Node.parent_above_raise (by omega)
  rcases Nat.eq_zero_or_pos c.row with h0 | h0
  · exact absurd (rebuilt_bottom hcp h0) hc
  · obtain ⟨d, hd, rfl⟩ := Node.exists_raise hcp h0
    rw [rebuilt_raise hd] at hc
    have hrow := congrArg Node.row hyc
    rw [Node.parent_row, Node.raise_row, Node.raise_row] at hrow
    have hdt : d.row < t.row := by omega
    rw [← Node.raise_parent hdt] at hyc
    refine ⟨d, Node.raise_inj (hd.parent_of_ne ?_) hy hyc, hc⟩
    rintro rfl
    rw [Node.sibling_row] at hdt
    omega

variable (hr : Layout.Raising t L L' W W') (h : Sound tight L W ∅ N) (hkept : N t.sibling ≠ none)
include hr h hkept

/-- The sibling of the parent was kept, as the parent had a child. -/
theorem rebuilt_beside_parent (hroot : ¬ L'.root t.parent) :
    rebuilt t L' N t.parent.sibling ≠ none := by
  have hpp : ¬ t.parent.Above t.parent.parent := fun hle => by
    have := hle.row_le
    rw [Node.parent_row] at this
    omega
  have hps := (Node.Above.refl t.parent).sibling_apart.1
  have hin := Layout.inside_of_parent ((hr.inside_iff hpp).mp (hr.parent.parent hroot))
  exact (rebuilt_ne_none hps).mpr (h.closed _ ⟨t.sibling, Node.sibling_parent t, hkept⟩ hin
    fun hL => hroot (hr.root_parent hL))

theorem beside_rebuilt (hx : L'.Meets W' x) (hroot : ¬ L'.root x) :
    rebuilt t L' N x.sibling ≠ none := by
  rcases node_cases t x with ⟨y, hy, rfl⟩ | ⟨hz, h0⟩ | ⟨h1, h2⟩ | ⟨h1, h2⟩
  · by_cases hys : y = t.sibling
    · rw [hys, Node.raise_self] at hroot ⊢
      exact rebuilt_beside_parent hr h hkept hroot
    · rw [← Node.raise_sibling (hy.row_lt_of_ne hys), rebuilt_raise (hy.sibling_of_ne hys)]
      exact h.beside y ((hr.meets_raise hy).mp hx) (hr.not_root_below hy hys)
  · obtain ⟨T, hT⟩ := hx.exists_tree
    rw [hr.tree_bottom hz h0] at hT
    cases hT
  · exact (rebuilt_ne_none h2.sibling_apart.1).mpr
      (h.beside x (hr.meets_of_above h1 h2 hx) fun hL => hroot ((hr.roots x h1).mpr hL))
  · exact rebuilt_sibling hkept h1
      (h.beside x ((hr.meets_apart h1 h2).mp hx) fun hL => hroot ((hr.roots x h1).mpr hL))

theorem closed_rebuilt (hc : HasChild (rebuilt t L' N) x) (hin : L'.Inside x)
    (hroot : ¬ L'.root x) : rebuilt t L' N x.sibling ≠ none := by
  rcases node_cases t x with ⟨y, hy, rfl⟩ | ⟨-, h0⟩ | ⟨h1, h2⟩ | ⟨h1, h2⟩
  · by_cases hys : y = t.sibling
    · rw [hys, Node.raise_self] at hroot ⊢
      exact rebuilt_beside_parent hr h hkept hroot
    · rw [← Node.raise_sibling (hy.row_lt_of_ne hys), rebuilt_raise (hy.sibling_of_ne hys)]
      exact h.closed y (hasChild_of_rebuilt hy hys hc) ((h.inside _ hkept).below hy)
        (hr.not_root_below hy hys)
  · obtain ⟨c, rfl, -⟩ := hc
    rw [Node.parent_row] at h0
    omega
  · obtain ⟨c, rfl, hc⟩ := hc
    have hin' := (hr.inside_iff h1).mp hin
    have hroot' : ¬ L.root c.parent := fun hL => hroot ((hr.roots _ h1).mpr hL)
    refine (rebuilt_ne_none h2.sibling_apart.1).mpr (h.closed _ ?_ hin' hroot')
    by_cases hcp : t.parent.Above c
    · -- The child on the path: its sibling was kept before.
      have hct : t.parent = c := by
        by_contra hne
        exact h1 (hcp.parent_of_ne hne)
      rw [← hct] at hin' ⊢
      exact ⟨t.parent.sibling, Node.sibling_parent _, h.closed _
        ⟨t.sibling, Node.sibling_parent t, hkept⟩ (Layout.inside_of_parent hin')
        (Layout.not_root_of_parent hin')⟩
    · exact ⟨c, rfl, (rebuilt_ne_none hcp).mp hc⟩
  · obtain ⟨c, rfl, hc⟩ := hc
    have hcp : ¬ t.parent.Above c := fun hle => by
      by_cases hct : t.parent = c
      · exact h2 (hct ▸ Node.parent_above _)
      · exact h1 (hle.parent_of_ne hct)
    exact rebuilt_sibling hkept h1 (h.closed _ ⟨c, rfl, (rebuilt_ne_none hcp).mp hc⟩
      ((hr.inside_iff h1).mp hin) fun hL => hroot ((hr.roots _ h1).mpr hL))

omit hkept in
theorem minimal_rebuilt (htight : tight) (hx : rebuilt t L' N x ≠ none)
    (hxE : x ∉ Layout.besidePath t L') :
    L'.root x ∨ L'.Meets W' x ∨ L'.Meets W' x.sibling := by
  by_cases hp : t.parent.Above x
  · rcases Nat.eq_zero_or_pos x.row with h0 | h0
    · exact absurd (rebuilt_bottom hp h0) hx
    · obtain ⟨y, hy, rfl⟩ := Node.exists_raise hp h0
      by_cases hys : y = t.sibling
      · rw [hys, Node.raise_self] at hxE ⊢
        refine Or.inl (by_contra fun hroot => hxE ?_)
        exact ⟨t.parent, Node.Above.refl _, hr.parent.parent hroot, Or.inl rfl⟩
      · rw [rebuilt_raise hy] at hx
        rw [hr.meets_raise hy, ← Node.raise_sibling (hy.row_lt_of_ne hys),
          hr.meets_raise (hy.sibling_of_ne hys)]
        exact Or.inr ((h.minimal htight y hx (Set.notMem_empty y)).resolve_left
          (hr.not_root_below hy hys))
  · have hN := (rebuilt_ne_none hp).mp hx
    rw [hr.roots x hp]
    by_cases hroot : L.root x
    · exact Or.inl hroot
    · have hpp : ¬ t.parent.Above x.parent := fun hle => hp (hle.trans (Node.parent_above x))
      have hin := (hr.inside_iff hpp).mpr ((h.inside x hN).parent hroot)
      have h1 : ¬ x.Above t.parent := fun hle => hxE ⟨x, hle, hin, Or.inl rfl⟩
      have h2 : ¬ x.sibling.Above t.parent := fun hle =>
        hxE ⟨x.sibling, hle, by rwa [Node.sibling_parent], Or.inr (Node.sibling_sibling x).symm⟩
      have h3 : ¬ t.parent.Above x.sibling := fun hle =>
        hp (hle.of_sibling fun he => h2 (he ▸ Node.Above.refl _))
      rw [hr.meets_apart hp h1, hr.meets_apart h3 h2]
      exact h.minimal htight x hN (Set.notMem_empty x)

omit hkept in
theorem flag_rebuilt {l : Leaf H} (hx : rebuilt t L' N x = some l) (hl : l.remember = true) :
    ∃ a ∈ W', L'.tree x = some (.leaf a) := by
  rcases node_cases t x with ⟨y, hy, rfl⟩ | ⟨hz, h0⟩ | ⟨h1, h2⟩ | ⟨h1, h2⟩
  · rw [rebuilt_raise hy] at hx
    obtain ⟨a, ha, hleaf⟩ := h.flag y l hx hl
    rw [hr.tree_raise hy]
    refine ⟨a, hr.still_wanted_below ha ?_ hy, hleaf⟩
    rw [hleaf]
    exact List.mem_singleton_self a
  · rw [rebuilt_bottom hz h0] at hx
    cases hx
  · rw [rebuilt_above h1 h2] at hx
    obtain ⟨_, -, rfl⟩ := Option.map_eq_some_iff.mp hx
    cases hl
  · rw [rebuilt_apart h1 h2] at hx
    obtain ⟨a, ha, hleaf⟩ := h.flag x l hx hl
    rw [hr.apart x h1 h2]
    refine ⟨a, hr.still_wanted_apart ha ?_ h1 h2, hleaf⟩
    rw [hleaf]
    exact List.mem_singleton_self a

omit hkept in
theorem wanted_rebuilt {a : H} (ha : a ∈ W') (hx : L'.tree x = some (.leaf a)) :
    Marked (rebuilt t L' N) x := by
  unfold Marked
  rcases node_cases t x with ⟨y, hy, rfl⟩ | ⟨hz, h0⟩ | ⟨h1, h2⟩ | ⟨h1, h2⟩
  · rw [hr.tree_raise hy] at hx
    rw [rebuilt_raise hy]
    exact h.wanted y a (hr.sub ha) hx
  · rw [hr.tree_bottom hz h0] at hx
    cases hx
  · refine absurd hx (hr.above x a h2 ?_)
    rintro rfl
    exact h1 (Node.Above.refl _)
  · rw [hr.apart x h1 h2] at hx
    rw [rebuilt_apart h1 h2]
    exact h.wanted x a (hr.sub ha) hx

/-- **A subtree moves up.**  Only on the way from the parent to the root may there be too many
nodes then. -/
theorem raise (hS : L.tree t.sibling ≠ none) :
    Sound tight L' W' (Layout.besidePath t L') (rebuilt t L' N) where
  inside x hx := by
    by_cases hp : t.parent.Above x
    · exact hr.parent.below hp
    · exact (hr.inside_iff hp).mpr (h.inside x ((rebuilt_ne_none hp).mp hx))
  hash x l hx := by
    rcases node_cases t x with ⟨y, hy, rfl⟩ | ⟨hz, h0⟩ | ⟨h1, h2⟩ | ⟨h1, h2⟩
    · rw [rebuilt_raise hy] at hx
      rw [hr.tree_raise hy]
      exact h.hash y l hx
    · rw [rebuilt_bottom hz h0] at hx
      cases hx
    · rw [rebuilt_above h1 h2] at hx
      obtain ⟨_, -, rfl⟩ := Option.map_eq_some_iff.mp hx
      rfl
    · rw [rebuilt_apart h1 h2] at hx
      rw [hr.apart x h1 h2]
      exact h.hash x l hx
  flag x l := flag_rebuilt hr h
  roots x hx := by
    by_cases hp : t.parent.Above x
    · -- Below the parent there is no other root.
      obtain ⟨r, hroot, hrp⟩ := hr.parent
      obtain rfl := L'.apart hroot hx (hrp.trans hp)
      rw [← hp.eq_of_row_eq (Nat.le_antisymm hrp.row_le hp.row_le)]
      exact rebuilt_parent hkept
    · exact (rebuilt_ne_none hp).mpr (h.roots x ((hr.roots x hp).mp hx))
  wanted x a := wanted_rebuilt hr h
  beside x := beside_rebuilt hr h hkept
  solid x hx := by
    rcases node_cases t x with ⟨y, hy, rfl⟩ | ⟨hz, h0⟩ | ⟨h1, h2⟩ | ⟨h1, h2⟩
    · rw [rebuilt_raise hy] at hx
      rw [hr.tree_raise hy]
      by_cases hys : y = t.sibling
      · exact Or.inr (hys ▸ hS)
      · exact Or.inr ((h.solid y hx).resolve_left (hr.not_root_below hy hys))
    · exact absurd (rebuilt_bottom hz h0) hx
    · -- The tree that has moved up is below.
      have hin := (hr.inside_iff h1).mpr (h.inside x ((rebuilt_ne_none h1).mp hx))
      exact Or.inr (Layout.tree_ne_none_above hin h2 (by rwa [hr.top]))
    · rw [rebuilt_apart h1 h2] at hx
      rw [hr.apart x h1 h2, hr.roots x h1]
      exact h.solid x hx
  closed x := closed_rebuilt hr h hkept
  minimal htight x := minimal_rebuilt hr h htight

omit hr hkept in
/-- Below an empty tree nothing is kept. -/
theorem nothing_below {z : Node} (hx : L.Inside x)
    (hnone : L.tree x = none) (hz : x.Above z) (hne : z ≠ x) : N z = none := by
  by_contra hN
  have hp := hz.parent_of_ne (Ne.symm hne)
  rcases h.solid z hN with hr | ht
  · exact Layout.not_root_of_parent (hx.below hp) hr
  · exact Layout.tree_ne_none_above hx hz ht hnone

/-- When the parent becomes a root there is no way up. -/
theorem raise_root (hS : L.tree t.sibling ≠ none) (hroot : L'.root t.parent)
    (hp : ¬ L.Inside t.parent) : Sound tight L' W' ∅ (raised t N) := by
  have heq : rebuilt t L' N = raised t N := by
    funext z
    by_cases h1 : t.parent.Above z
    · exact if_pos h1
    · have hz : raised t N z = N z := if_neg h1
      by_cases h2 : z.Above t.parent
      · have hnone : N z = none := by
          by_contra hne
          exact hp ((h.inside z hne).below h2)
        rw [rebuilt_above h1 h2, hz, hnone, Option.map_none]
      · rw [rebuilt_apart h1 h2, hz]
  have hs := raise hr h hkept hS
  rw [heq] at hs
  refine hs.mono ?_
  rintro x ⟨z, hz, ⟨r, hrr, hra⟩, -⟩
  obtain rfl := L'.apart hrr hroot (hra.trans ((Node.parent_above z).trans hz))
  have hle := hra.row_le
  have hle' := hz.row_le
  rw [Node.parent_row] at hle
  omega

end Raise

/-! ### A root goes -/

/-- A root is left without anything below it. -/
def emptied (t : Node) (N : NodeMap H) : NodeMap H :=
  Function.update (cutBelow t N) t (some ⟨empty, false⟩)

section Emptied
variable {t x : Node} {L L' : Layout H} {W W' : Set H} {N : NodeMap H}

theorem emptied_self : emptied t N t = some ⟨empty, false⟩ := Function.update_self ..

theorem emptied_ne_none : emptied t N t ≠ none := by
  rw [emptied_self]
  exact Option.some_ne_none _

theorem emptied_apart (hx : ¬ t.Above x) : emptied t N x = N x := by
  have hne : x ≠ t := by
    rintro rfl
    exact hx (Node.Above.refl x)
  rw [emptied, Function.update_of_ne hne, cutBelow, if_neg fun h => hx h.1]

theorem emptied_cases (hx : emptied t N x ≠ none) : x = t ∨ ¬ t.Above x := by
  by_contra hno
  rw [not_or, not_not] at hno
  refine hx ?_
  rw [emptied, Function.update_of_ne hno.1, cutBelow, if_pos ⟨hno.2, hno.1⟩]

/-- What is beside a node that is not below the root is still there. -/
theorem emptied_sibling (hx : ¬ t.Above x) (hN : N x.sibling ≠ none) :
    emptied t N x.sibling ≠ none := by
  by_cases hs : t.Above x.sibling
  · have hst : x.sibling = t := by
      by_contra hne
      exact hx (hs.of_sibling hne)
    rw [hst]
    exact emptied_ne_none
  · rwa [emptied_apart hs]

variable (he : Layout.Emptying t L L' W W') (h : Sound tight L W ∅ N)
include he h

theorem flag_emptied {l : Leaf H} (hx : emptied t N x = some l) (hl : l.remember = true) :
    ∃ a ∈ W', L'.tree x = some (.leaf a) := by
  rcases emptied_cases (by rw [hx]; exact Option.some_ne_none l) with rfl | hz
  · rw [emptied_self] at hx
    cases hx
    cases hl
  · rw [emptied_apart hz] at hx
    obtain ⟨a, ha, hleaf⟩ := h.flag x l hx hl
    obtain ⟨b, hb, hmem⟩ := (he.meets_iff hz).mpr (Layout.meets_of_leaf ha hleaf)
    rw [he.apart x hz, hleaf] at hmem
    obtain rfl := List.mem_singleton.mp hmem
    exact ⟨b, hb, (he.apart x hz).trans hleaf⟩

theorem closed_emptied (hc : HasChild (emptied t N) x) (hin : L'.Inside x) (hr : ¬ L'.root x) :
    emptied t N x.sibling ≠ none := by
  obtain ⟨c, rfl, hc⟩ := hc
  have hct : c ≠ t := by
    rintro rfl
    exact Layout.not_root_of_parent (he.inside_iff.mp hin) he.root
  have hcz := (emptied_cases hc).resolve_left hct
  rw [emptied_apart hcz] at hc
  refine emptied_sibling (fun hz => hcz (hz.trans (Node.parent_above c))) ?_
  exact h.closed _ ⟨c, rfl, hc⟩ (he.inside_iff.mp hin) fun hL => hr ((he.roots _).mpr hL)

theorem minimal_emptied (htight : tight) (hx : emptied t N x ≠ none) :
    L'.root x ∨ L'.Meets W' x ∨ L'.Meets W' x.sibling := by
  rw [he.roots]
  rcases emptied_cases hx with rfl | hz
  · exact Or.inl he.root
  · rw [emptied_apart hz] at hx
    by_cases hroot : L.root x
    · exact Or.inl hroot
    · have hs : ¬ t.Above x.sibling := fun hs => by
        have hp := (h.inside x hx).parent hroot
        rw [← Node.sibling_parent] at hp
        refine hz (hs.of_sibling ?_)
        rintro rfl
        exact Layout.not_root_of_parent hp he.root
      rw [he.meets_iff hz, he.meets_iff hs]
      exact h.minimal htight x hx (Set.notMem_empty x)

/-- **A root goes**, with everything below it. -/
theorem empty_root : Sound tight L' W' ∅ (emptied t N) where
  inside x hx := by
    rcases emptied_cases hx with rfl | hz
    · exact he.inside_iff.mpr (Layout.Inside.of_root he.root)
    · rw [emptied_apart hz] at hx
      exact he.inside_iff.mpr (h.inside x hx)
  hash x l hx := by
    rcases emptied_cases (by rw [hx]; exact Option.some_ne_none l) with rfl | hz
    · rw [emptied_self] at hx
      cases hx
      rw [he.below x (Node.Above.refl x), hashOpt_none]
    · rw [emptied_apart hz] at hx
      rw [he.apart x hz]
      exact h.hash x l hx
  flag x l := flag_emptied he h
  roots x hx := by
    by_cases hz : t.Above x
    · obtain rfl := L.apart he.root ((he.roots x).mp hx) hz
      exact emptied_ne_none
    · rw [emptied_apart hz]
      exact h.roots x ((he.roots x).mp hx)
  wanted x a ha hx := by
    have hz : ¬ t.Above x := fun hz => by
      rw [he.below x hz] at hx
      cases hx
    unfold Marked
    rw [emptied_apart hz]
    exact h.wanted x a (he.sub ha) (he.apart x hz ▸ hx)
  beside x hx hr := by
    have hz : ¬ t.Above x := fun hz => by
      obtain ⟨T, hT⟩ := hx.exists_tree
      rw [he.below x hz] at hT
      cases hT
    exact emptied_sibling hz
      (h.beside x ((he.meets_iff hz).mp hx) fun hL => hr ((he.roots x).mpr hL))
  solid x hx := by
    rw [he.roots]
    rcases emptied_cases hx with rfl | hz
    · exact Or.inl he.root
    · rw [emptied_apart hz] at hx
      rw [he.apart x hz]
      exact h.solid x hx
  closed x := closed_emptied he h
  minimal htight x hx _ := minimal_emptied he h htight hx

end Emptied

/-! ### A new root, and two roots that are joined -/

section
variable {L L' : Layout H} {W : Set H} {N : NodeMap H}

theorem plant (h : Sound tight L W ∅ N) {g : Node} {l : Leaf H} (hg : ¬ L.Inside g)
    (hroots : ∀ z, L'.root z ↔ z = g ∨ L.root z) (htree : L'.tree g = some (.leaf l.hash))
    (hout : ∀ z, z ≠ g → L'.tree z = L.tree z) (hnew : ∀ z, l.hash ∉ CTree.leavesOpt (L.tree z))
    (hW : l.hash ∉ W) :
    Sound tight L' {a | a ∈ W ∨ l.remember = true ∧ a = l.hash} ∅
      (Function.update N g (some l)) := by
  have hin : ∀ {z}, L.Inside z → L'.Inside z := by
    rintro z ⟨r, hr, ha⟩
    exact ⟨r, (hroots r).mpr (Or.inr hr), ha⟩
  have hmeets : ∀ {z}, z ≠ g →
      (L'.Meets {a | a ∈ W ∨ l.remember = true ∧ a = l.hash} z ↔ L.Meets W z) := by
    intro z hz
    unfold Layout.Meets
    rw [hout z hz]
    refine exists_congr fun a => and_congr_left fun hmem => or_iff_left ?_
    rintro ⟨-, rfl⟩
    exact hnew z hmem
  have hself : ∀ {z}, L.Meets W z → z ≠ g := by
    rintro z hz rfl
    exact hg hz.inside
  refine ⟨fun x hx => ?_, fun x l' hx => ?_, fun x l' hx hr => ?_, fun x hx => ?_,
    fun x a ha hx => ?_, fun x hx hr => ?_, fun x hx => ?_, fun x hc hxin hr => ?_,
    fun htight x hx _ => ?_⟩
  · by_cases he : x = g
    · exact Layout.Inside.of_root ((hroots x).mpr (Or.inl he))
    · rw [Function.update_of_ne he] at hx
      exact hin (h.inside x hx)
  · by_cases he : x = g
    · subst he
      rw [Function.update_self] at hx
      cases hx
      rw [htree, hashOpt_some, treeHash_leaf]
    · rw [Function.update_of_ne he] at hx
      rw [hout x he]
      exact h.hash x l' hx
  · by_cases he : x = g
    · subst he
      rw [Function.update_self] at hx
      cases hx
      exact ⟨l.hash, Or.inr ⟨hr, rfl⟩, htree⟩
    · rw [Function.update_of_ne he] at hx
      obtain ⟨a, ha, hleaf⟩ := h.flag x l' hx hr
      exact ⟨a, Or.inl ha, (hout x he).trans hleaf⟩
  · by_cases he : x = g
    · rw [he, Function.update_self]
      exact Option.some_ne_none l
    · rw [Function.update_of_ne he]
      exact h.roots x (((hroots x).mp hx).resolve_left he)
  · unfold Marked
    by_cases he : x = g
    · subst he
      rw [htree] at hx
      cases hx
      rw [Function.update_self]
      exact ⟨l, rfl, (ha.resolve_left hW).1⟩
    · rw [Function.update_of_ne he]
      rw [hout x he] at hx
      refine h.wanted x a (ha.resolve_right ?_) hx
      rintro ⟨-, rfl⟩
      exact hnew x (by rw [hx]; exact List.mem_singleton_self _)
  · have he : x ≠ g := fun he => hr ((hroots x).mpr (Or.inl he))
    by_cases hs : x.sibling = g
    · rw [hs, Function.update_self]
      exact Option.some_ne_none l
    · rw [Function.update_of_ne hs]
      exact h.beside x ((hmeets he).mp hx) fun hL => hr ((hroots x).mpr (Or.inr hL))
  · rw [hroots]
    by_cases he : x = g
    · exact Or.inl (Or.inl he)
    · rw [Function.update_of_ne he] at hx
      rw [hout x he]
      exact (h.solid x hx).imp_left Or.inr
  · obtain ⟨c, rfl, hc⟩ := hc
    have hcroot := Layout.not_root_of_parent hxin
    rw [hroots, not_or] at hcroot
    rw [Function.update_of_ne hcroot.1] at hc
    have hN := h.closed _ ⟨c, rfl, hc⟩ ((h.inside c hc).parent hcroot.2)
      fun hL => hr ((hroots _).mpr (Or.inr hL))
    by_cases hs : c.parent.sibling = g
    · rw [hs, Function.update_self]
      exact Option.some_ne_none l
    · rwa [Function.update_of_ne hs]
  · rw [hroots]
    by_cases he : x = g
    · exact Or.inl (Or.inl he)
    · rw [Function.update_of_ne he] at hx
      rcases h.minimal htight x hx (Set.notMem_empty x) with hr | hm | hm
      · exact Or.inl (Or.inr hr)
      · exact Or.inr (Or.inl ((hmeets he).mpr hm))
      · exact Or.inr (Or.inr ((hmeets (hself hm)).mpr hm))

end

section Joined
variable {t x : Node} {L L' : Layout H} {W : Set H} {N : NodeMap H}

/-- The parent of two roots is kept as well. -/
def joined (t : Node) (L' : Layout H) (N : NodeMap H) : NodeMap H :=
  Function.update N t.parent (some ⟨hashOpt (L'.tree t.parent), false⟩)

theorem joined_parent : joined t L' N t.parent = some ⟨hashOpt (L'.tree t.parent), false⟩ :=
  Function.update_self ..

theorem joined_of_ne (hx : x ≠ t.parent) : joined t L' N x = N x := Function.update_of_ne hx ..

theorem joined_ne_none (hN : N x ≠ none) : joined t L' N x ≠ none := by
  by_cases hx : x = t.parent
  · rw [hx, joined_parent]
    exact Option.some_ne_none _
  · rwa [joined_of_ne hx]

variable (hj : Layout.Joining t L L') (h : Sound tight L W ∅ N)
include hj h

/-- What is beside a root that is none any longer is the other root. -/
theorem joined_beside_root (hx : L.root x) (hr : ¬ L'.root x) : N x.sibling ≠ none := by
  have hle : t.parent.Above x := by
    by_contra hno
    exact hr ((hj.roots x hno).mpr hx)
  rcases hj.root_below hx hle with rfl | rfl
  · exact h.roots _ hj.sibling
  · rw [Node.sibling_sibling]
    exact h.roots _ hj.root

theorem closed_joined (hc : HasChild (joined t L' N) x) (hin : L'.Inside x) (hr : ¬ L'.root x) :
    joined t L' N x.sibling ≠ none := by
  obtain ⟨c, rfl, hc⟩ := hc
  have hcroot := Layout.not_root_of_parent hin
  have hce : c ≠ t.parent := by
    rintro rfl
    exact hcroot hj.parent
  rw [joined_of_ne hce] at hc
  refine joined_ne_none ?_
  by_cases hroot : L.root c.parent
  · exact joined_beside_root hj h hroot hr
  · refine h.closed _ ⟨c, rfl, hc⟩ ((h.inside c hc).parent fun hL => ?_) hroot
    by_cases hle : t.parent.Above c
    · rcases hj.root_below hL hle with he | he
      · exact hr (by rw [he]; exact hj.parent)
      · exact hr (by rw [he, Node.sibling_parent]; exact hj.parent)
    · exact hcroot ((hj.roots c hle).mpr hL)

theorem minimal_joined (htight : tight) (hx : joined t L' N x ≠ none)
    (hxE : x ∉ ({t, t.sibling} : Set Node)) :
    L'.root x ∨ L'.Meets W x ∨ L'.Meets W x.sibling := by
  by_cases he : x = t.parent
  · exact Or.inl (he ▸ hj.parent)
  · rw [joined_of_ne he] at hx
    rcases h.minimal htight x hx (Set.notMem_empty x) with hr | hm | hm
    · exact Or.inl ((hj.roots x fun hle => hxE (hj.root_below hr hle)).mpr hr)
    · exact Or.inr (Or.inl (hj.meets hm))
    · exact Or.inr (Or.inr (hj.meets hm))

/-- **Two roots are joined.**  Nothing may need them then. -/
theorem join : Sound tight L' W {t, t.sibling} (joined t L' N) where
  inside x hx := by
    by_cases hpx : t.parent.Above x
    · exact ⟨_, hj.parent, hpx⟩
    · have hne : x ≠ t.parent := by
        rintro rfl
        exact hpx (Node.Above.refl _)
      rw [joined_of_ne hne] at hx
      obtain ⟨r, hr, ha⟩ := h.inside x hx
      exact ⟨r, (hj.roots r fun hle => hpx (hle.trans ha)).mpr hr, ha⟩
  hash x l hx := by
    by_cases he : x = t.parent
    · subst he
      rw [joined_parent] at hx
      cases hx
      rfl
    · rw [joined_of_ne he] at hx
      rw [hj.apart x he]
      exact h.hash x l hx
  flag x l hx hr := by
    by_cases he : x = t.parent
    · subst he
      rw [joined_parent] at hx
      cases hx
      cases hr
    · rw [joined_of_ne he] at hx
      obtain ⟨a, ha, hleaf⟩ := h.flag x l hx hr
      exact ⟨a, ha, (hj.apart x he).trans hleaf⟩
  roots x hx := by
    by_cases he : x = t.parent
    · rw [he, joined_parent]
      exact Option.some_ne_none _
    · rw [joined_of_ne he]
      exact h.roots x ((hj.roots x fun hle => he (L'.apart hj.parent hx hle).symm).mp hx)
  wanted x a ha hx := by
    have he : x ≠ t.parent := by
      rintro rfl
      exact hj.node a hx
    unfold Marked
    rw [joined_of_ne he]
    exact h.wanted x a ha (hj.apart x he ▸ hx)
  beside x hx hr := by
    have he : x ≠ t.parent := by
      rintro rfl
      exact hr hj.parent
    refine joined_ne_none ?_
    by_cases hroot : L.root x
    · exact joined_beside_root hj h hroot hr
    · exact h.beside x (hj.meets_of_ne he hx) hroot
  solid x hx := by
    by_cases he : x = t.parent
    · exact Or.inl (he ▸ hj.parent)
    · rw [joined_of_ne he] at hx
      rw [hj.apart x he]
      rcases h.solid x hx with hroot | hne
      · by_cases hle : t.parent.Above x
        · rcases hj.root_below hroot hle with rfl | rfl
          · exact Or.inr hj.tree
          · exact Or.inr hj.tree_sibling
        · exact Or.inl ((hj.roots x hle).mpr hroot)
      · exact Or.inr hne
  closed x := closed_joined hj h
  minimal htight x := minimal_joined hj h htight

end Joined

section
variable {t : Node} {L : Layout H} {W : Set H}

/-- Pruning takes a node that was left behind and that nothing needs. -/
theorem pruneAt_stale {X Y : NodeMap H} (h : Sound tight L W ∅ Y) (hp : L.Inside t.parent)
    (hXY : ∀ z, z ≠ t → X z = Y z) (ht : X t = Y t ∨ Y t = none ∧ ¬ Marked X t) :
    MapPollard.pruneAt t X = MapPollard.pruneAt t Y := by
  rcases ht with ht | ⟨hY, hX⟩
  · have : X = Y := by
      funext z
      by_cases hz : z = t
      · rw [hz, ht]
      · exact hXY z hz
    rw [this]
  · have hps : L.Inside t.sibling.parent := by rwa [Node.sibling_parent]
    have hno : ¬ L.Meets W t.sibling := fun hm => by
      have := h.beside _ hm (Layout.not_root_of_parent hps)
      rw [Node.sibling_sibling] at this
      exact this hY
    have hchild : ∀ z : Node, z.row = t.row → (HasChild X z ↔ HasChild Y z) := by
      intro z hz
      refine hasChild_congr fun c hc => hXY c ?_
      rintro rfl
      omega
    have hms : ¬ Marked Y t.sibling := fun hm => hno (h.meets_of_marked hm)
    have hms' : ¬ Marked X t.sibling := by
      unfold Marked
      rw [hXY _ (Node.sibling_ne t)]
      exact hms
    have hmt : ¬ Marked Y t := by
      rintro ⟨l, hl, -⟩
      rw [hY] at hl
      cases hl
    have hcs : ¬ HasChild Y t.sibling := fun hc =>
      h.closed _ hc (Layout.inside_of_parent hps) (Layout.not_root_of_parent hps)
        (by rwa [Node.sibling_sibling])
    funext z
    have hcs' : ¬ HasChild X t.sibling := fun hc => hcs ((hchild t.sibling rfl).mp hc)
    unfold MapPollard.pruneAt
    by_cases hz : z = t
    · subst hz
      rw [if_pos ⟨hX, hms', Or.inl ⟨rfl, hcs'⟩⟩, if_pos ⟨hmt, hms, Or.inl ⟨rfl, hcs⟩⟩]
    · rw [hXY z hz]
      by_cases hdrop : z = t.sibling ∧ ¬ HasChild Y t
      · have hdrop' : ¬ HasChild X t := fun hc => hdrop.2 ((hchild t rfl).mp hc)
        rw [if_pos ⟨hX, hms', Or.inr ⟨hdrop.1, hdrop'⟩⟩, if_pos ⟨hmt, hms, Or.inr hdrop⟩]
      · rw [if_neg fun hc => hc.2.2.elim (fun h => hz h.1) fun h =>
          hdrop ⟨h.1, fun hc' => h.2 ((hchild t rfl).mpr hc')⟩,
          if_neg fun hc => hc.2.2.elim (fun h => hz h.1) hdrop]

end

end Sound

/-! ### Cached leaves -/

section
open MapPollard

omit [HashOps H] in
/-- The leaves of `C` are cached with their nodes. -/
structure CachedAt (L : Layout H) (C : Set H) (K : LeafMap H) : Prop where
  leaf : ∀ a x, K a = some x → a ∈ C ∧ L.tree x = some (.leaf a)
  mem : ∀ a ∈ C, K a ≠ none

variable {t : Node} {L L' : Layout H} {W W' C : Set H} {N : NodeMap H} {K : LeafMap H}

/-- A leaf is cached only at the node with its hash. -/
theorem CachedAt.eq_of_hash {leaf : H → Prop} (hi : IdealHash H leaf) (hK : CachedAt L C K)
    (hL : ∀ x, ∀ a ∈ CTree.leavesOpt (L.tree x), leaf a ∧ a ≠ empty) {w x : Node} {a : H}
    (hw : a = hashOpt (L.tree w)) (hx : K a = some x) : x = w := by
  obtain ⟨-, hleaf⟩ := hK.leaf _ x hx
  have hfine : leaf a ∧ a ≠ empty := hL x _ (by rw [hleaf]; exact List.mem_singleton_self _)
  cases hT : L.tree w with
  | none =>
    rw [hT, hashOpt_none] at hw
    exact absurd hw hfine.2
  | some T =>
    rw [hT, hashOpt_some] at hw
    have hTL : ∀ a ∈ T.leaves, leaf a := fun a ha => (hL w a (by rw [hT]; exact ha)).1
    obtain rfl := treeHash_inj (s := .leaf a) hi
      (fun b hb => List.mem_singleton.mp hb ▸ hfine.1) hTL hw
    exact L.unique hleaf hT

/-- The leaves are cached at the nodes with their hashes. -/
theorem Sound.leavesAgree {leaf : H → Prop} (hi : IdealHash H leaf) {tight : Prop} {E : Set Node}
    (h : Sound tight L W E N) (hL : ∀ x, ∀ a ∈ CTree.leavesOpt (L.tree x), leaf a ∧ a ≠ empty)
    (hK : CachedAt L C K) (hC : C ⊆ W) (P : Node → Prop) : LeavesAgree P N K where
  node a x hx _ := by
    obtain ⟨ha, hleaf⟩ := hK.leaf a x hx
    obtain ⟨l, hl, -⟩ := h.wanted x a (hC ha) hleaf
    refine ⟨l, hl, ?_⟩
    rw [h.hash x l hl, hleaf, hashOpt_some, treeHash_leaf]
  leaf w l _ hw x hx := hK.eq_of_hash hi hL (h.hash w l hw) hx

omit [HashOps H] in
theorem CachedAt.raise (hr : Layout.Raising t L L' W W') (hK : CachedAt L C K) {S : CTree H}
    (hS : L.tree t.sibling = some S) (ht : L.Inside t)
    (hdis : ∀ a ∈ C, a ∉ CTree.leavesOpt (L.tree t)) : CachedAt L' C (raisedLeaves t K) where
  leaf a z hz := by
    obtain ⟨x, hx, rfl⟩ := Option.map_eq_some_iff.mp hz
    obtain ⟨ha, hleaf⟩ := hK.leaf a x hx
    refine ⟨ha, ?_⟩
    by_cases hs : t.sibling.Above x
    · rw [if_pos hs, hr.tree_raise hs, hleaf]
    · have hup : ¬ x.Above t.sibling := fun hle =>
        hs (Layout.eq_of_leaf_above hleaf hS hle ▸ Node.Above.refl _)
      have h1 : ¬ t.parent.Above x := fun hle => by
        by_cases hxp : t.parent = x
        · refine hup ?_
          rw [← hxp, ← Node.sibling_parent]
          exact Node.parent_above _
        · rcases hle.of_parent hxp with h | h
          · refine hdis a ha (Layout.mem_leaves_above ht h ?_)
            rw [hleaf]
            exact List.mem_singleton_self a
          · exact hs h
      have h2 : ¬ x.Above t.parent := fun hle => hup (by
        rw [← Node.sibling_parent] at hle
        exact hle.trans (Node.parent_above _))
      rw [if_neg hs, hr.apart x h1 h2, hleaf]
  mem a ha := by
    rw [raisedLeaves, Ne, Option.map_eq_none_iff]
    exact hK.mem a ha

omit [HashOps H] in
theorem CachedAt.congr (hK : CachedAt L C K)
    (h : ∀ x, ∀ a ∈ C, L.tree x = some (.leaf a) → L'.tree x = some (.leaf a)) :
    CachedAt L' C K where
  leaf a x hx := by
    obtain ⟨ha, hleaf⟩ := hK.leaf a x hx
    exact ⟨ha, h x a ha hleaf⟩
  mem := hK.mem

end

end Utreexo
