import Utreexo.MapProve
import Utreexo.ProofSubset

/-! # A MapPollard beside a full Pollard

The run of `FuzzMapPollardChain`: for every block the full Pollard proves what is deleted, the
MapPollard verifies and remembers the proof and proves it itself, and both are modified with
that proof.  Between the blocks the MapPollard may learn the proofs of other leaves.
-/
namespace Utreexo
open Merkle

/-! ### The sanity check -/

namespace MapPollard
variable {H : Type} [DecidableEq H] [HashOps H]

/-- What `sanityCheck` of the tests looks for: the cached leaves are marked, the nodes of their
proofs are there, no node is there without need, and the hashes are those of the forest. -/
structure Sane (m : MapPollard H) (forestHash : Nat → H) : Prop where
  remembered : ∀ a pos, m.cachedLeaves.lookup a = some pos → m.nodes.lookup pos = some ⟨a, true⟩
  marked : ∀ pos l, m.nodes.lookup pos = some l → l.remember = true →
    m.cachedLeaves.lookup l.hash = some pos
  roots : ∀ pos ∈ rootPositions m.numLeaves m.totalRows, pos ∈ m.nodes
  proofNodes : ∀ a pos, m.cachedLeaves.lookup a = some pos →
    ∃ needs computables, proofPositions [pos] m.numLeaves m.totalRows = .ok (needs, computables) ∧
      ∀ need ∈ needs, need ∈ m.nodes
  pruned : ∀ k ∈ m.nodes, k ∈ rootPositions m.numLeaves m.totalRows ∨
    ∃ a pos needs computables, m.cachedLeaves.lookup a = some pos ∧
      proofPositions [pos] m.numLeaves m.totalRows = .ok (needs, computables) ∧
      (k = pos ∨ k ∈ needs ∨ k ∈ computables)
  hashes : ∀ pos l, m.nodes.lookup pos = some l → l.hash = forestHash pos

variable {m : MapPollard H} {slots : List (Option H)} {W C : Set H} {tight : Prop}

/-- The proof of one leaf. -/
theorem Kept.proofPositions_leaf (h : m.Kept tight slots W C) {x : Node} {a : H}
    (hx : placed slots x = some (.leaf a)) :
    ∃ needs computables,
      proofPositions [nodePos m.totalRows x] slots.length m.totalRows =
        .ok (needs, computables) ∧
      Listing needs (nodePos m.totalRows '' {y | Needed slots.length {x} y}) ∧
      Listing computables (nodePos m.totalRows '' {y | Computed slots.length {x} y}) := by
  refine proofPositions_sweep h.rows h.room (fun t ht => ?_)
    (Set.subsingleton_singleton.isAntichain _) ⟨List.pairwise_singleton _ _, fun p => ?_⟩
  · rw [Set.mem_singleton_iff.mp ht]
    exact placed_inForest hx
  · rw [Set.image_singleton, List.mem_singleton, Set.mem_singleton_iff]

/-- For one leaf `proofPosition` returns what `proofPositions` returns. -/
theorem Kept.proofPosition_cached (h : m.Kept tight slots W C) {a : H} {pos : Nat}
    (ha : m.cachedLeaves.lookup a = some pos) {needs computables : List Nat}
    (hrun : proofPositions [pos] m.numLeaves m.totalRows = .ok (needs, computables)) :
    proofPosition pos m.numLeaves m.totalRows = .ok needs := by
  obtain ⟨N, K, hs, -, hK⟩ := h.view
  rw [hs.cached] at ha
  obtain ⟨x, hx, rfl⟩ := Option.map_eq_some_iff.mp ha
  have hleaf := (hK.leaf a x hx).2
  rw [Layout.forest_tree h.nodup h.length_lt] at hleaf
  obtain ⟨needs', computables', hrun', hneeds, -⟩ := h.proofPositions_leaf hleaf
  obtain ⟨positions, hpos, hlist⟩ := proofPosition_eq h.rows h.room (placed_inForest hleaf)
  rw [hs.numLeaves] at hrun ⊢
  cases hrun.symm.trans hrun'
  rw [hpos, hlist.unique hneeds]

theorem Kept.mem_rootPositions (h : m.Kept tight slots W C) {pos : Nat} :
    pos ∈ rootPositions slots.length m.totalRows ↔
      ∃ x : Node, x.IsRoot slots.length ∧ nodePos m.totalRows x = pos := by
  rw [rootPositions_eq h.rows h.room, List.mem_map]
  constructor
  · rintro ⟨r, hr, rfl⟩
    exact ⟨_, Node.rootAt_isRoot (mem_rootRows.mp hr).2.2, rfl⟩
  · rintro ⟨x, hx, rfl⟩
    obtain ⟨hb, he⟩ := Node.isRoot_iff_rootAt.mp hx
    have hrow : x.row < 64 :=
      Nat.lt_of_le_of_lt ((testBit_row_le h.room hb).trans h.rows) (by decide)
    exact ⟨x.row, mem_rootRows.mpr ⟨Nat.zero_le _, hrow, hb⟩, by rw [← he]⟩

/-- **The pruned forest passes the sanity check.** -/
theorem Kept.sane (h : m.Kept True slots C C) {forestHash : Nat → H}
    (hhash : ∀ x, x.InForest slots.length →
      forestHash (nodePos m.totalRows x) = hashOpt (placed slots x)) :
    m.Sane forestHash := by
  obtain ⟨N, K, hs, hsound, hK⟩ := h.view
  have hn := h.length_lt
  have htree := Layout.forest_tree h.nodup hn
  have hnum := hs.numLeaves
  -- A position in the map is that of a node.
  have hnode : ∀ {pos l}, m.nodes.lookup pos = some l →
      ∃ x, nodePos m.totalRows x = pos ∧ N x = some l := by
    intro pos l hl
    obtain ⟨x, hx, rfl⟩ := hs.keys pos (Finmap.mem_of_lookup_eq_some hl)
    exact ⟨x, rfl, by rw [← hs.nodes x hx, hl]⟩
  have hmem : ∀ {x}, N x ≠ none → nodePos m.totalRows x ∈ m.nodes :=
    fun hx => (hs.mem_nodes (hs.fits _ hx)).mpr hx
  have hcached : ∀ {a pos}, m.cachedLeaves.lookup a = some pos →
      ∃ x, nodePos m.totalRows x = pos ∧ a ∈ C ∧ placed slots x = some (.leaf a) := by
    intro a pos ha
    rw [hs.cached] at ha
    obtain ⟨x, hx, rfl⟩ := Option.map_eq_some_iff.mp ha
    obtain ⟨hC, hleaf⟩ := hK.leaf a x hx
    exact ⟨x, rfl, hC, by rw [← htree, hleaf]⟩
  have hlookup : ∀ {a x}, a ∈ C → placed slots x = some (.leaf a) →
      m.cachedLeaves.lookup a = some (nodePos m.totalRows x) := by
    intro a x ha hx
    obtain ⟨y, hy⟩ := Option.ne_none_iff_exists'.mp (hK.mem a ha)
    have hleaf := (hK.leaf a y hy).2
    rw [htree] at hleaf
    rw [hs.cached, hy, placed_leaf_unique hn h.nodup hx hleaf]
    rfl
  -- A node with a cached leaf is on the way up from it.
  have htouched : ∀ {z}, (Layout.forest h.nodup).Meets C z →
      ∃ a x, a ∈ C ∧ placed slots x = some (.leaf a) ∧ Touched slots.length {x} z := by
    rintro z ⟨a, ha, hz⟩
    rw [htree] at hz
    obtain ⟨hin, x, ⟨b, hb, hx⟩, hzx⟩ := (touched_iff hn).mpr ⟨a, ha, hz⟩
    exact ⟨b, x, hb, hx, hin, x, rfl, hzx⟩
  refine ⟨fun a pos ha => ?_, fun pos l hl hr => ?_, fun pos hpos => ?_, fun a pos ha => ?_,
    fun k hk => ?_, fun pos l hl => ?_⟩
  · obtain ⟨x, rfl, hC, hx⟩ := hcached ha
    obtain ⟨l, hl, hr⟩ := hsound.wanted x a hC (by rw [htree, hx])
    have hh := hsound.hash x l hl
    rw [htree, hx, hashOpt_some, treeHash_leaf] at hh
    rw [hs.nodes x (hs.fits x (by simp [hl])), hl, ← hh, ← hr]
  · obtain ⟨x, rfl, hx⟩ := hnode hl
    obtain ⟨a, ha, hleaf⟩ := hsound.flag x l hx hr
    have hh := hsound.hash x l hx
    rw [hleaf, hashOpt_some, treeHash_leaf] at hh
    rw [htree] at hleaf
    rw [hh, hlookup ha hleaf]
  · rw [hnum, h.mem_rootPositions] at hpos
    obtain ⟨x, hx, rfl⟩ := hpos
    exact hmem (hsound.roots x hx)
  · obtain ⟨x, rfl, hC, hx⟩ := hcached ha
    obtain ⟨needs, computables, hrun, hneeds, -⟩ := h.proofPositions_leaf hx
    rw [hnum]
    refine ⟨needs, computables, hrun, fun need hneed => ?_⟩
    obtain ⟨y, hy, rfl⟩ := (hneeds.mem need).mp hneed
    have hset : leavesAt slots {a} = {x} := by
      ext z
      constructor
      · rintro ⟨b, rfl, hz⟩
        exact placed_leaf_unique hn h.nodup hz hx
      · rintro rfl
        exact ⟨a, rfl, hx⟩
    have hy' : Needed slots.length (leavesAt slots {a}) y := by
      rw [hset]
      exact hy
    obtain ⟨l, hl, -⟩ := h.node_of_needed hsound (Set.singleton_subset_iff.mpr hC) hy'
    exact hmem (by simp [hl])
  · obtain ⟨z, hz, rfl⟩ := hs.keys k hk
    rw [hnum]
    have hN := (hs.mem_nodes hz).mp hk
    rcases hsound.minimal trivial z hN (Set.notMem_empty z) with hroot | hm | hm
    · exact Or.inl (h.mem_rootPositions.mpr ⟨z, hroot, rfl⟩)
    · obtain ⟨a, x, ha, hx, ht⟩ := htouched hm
      obtain ⟨needs, computables, hrun, -, hcomp⟩ := h.proofPositions_leaf hx
      refine Or.inr ⟨a, _, needs, computables, hlookup ha hx, hrun, ?_⟩
      rcases ht.mem_or_computed with rfl | hc
      · exact Or.inl rfl
      · exact Or.inr (Or.inr ((hcomp.mem _).mpr ⟨z, hc, rfl⟩))
    · by_cases hroot : z.IsRoot slots.length
      · exact Or.inl (h.mem_rootPositions.mpr ⟨z, hroot, rfl⟩)
      · obtain ⟨a, x, ha, hx, ht⟩ := htouched hm
        obtain ⟨needs, computables, hrun, hneeds, -⟩ := h.proofPositions_leaf hx
        refine Or.inr ⟨a, _, needs, computables, hlookup ha hx, hrun,
          Or.inr (Or.inl ((hneeds.mem _).mpr ⟨z, ⟨ht, ?_, ?_⟩, rfl⟩))⟩
        · exact ((Layout.forest_inside h.nodup).mp (hsound.inside z hN)).sibling_not_isRoot
        · rintro ⟨-, y, rfl, hzy⟩
          obtain ⟨-, w, rfl, hsw⟩ := ht
          exact hzy.sibling_apart.2 hsw
  · obtain ⟨x, rfl, hx⟩ := hnode hl
    have hin := (Layout.forest_inside h.nodup).mp (hsound.inside x (by simp [hx]))
    rw [hhash x hin, hsound.hash x l hx, htree]

end MapPollard

/-! ### The run -/

/-- A full Pollard and a MapPollard that follow the same blocks. -/
structure MapChain (H M : Type) where
  full : Pollard H M
  m : MapPollard H

inductive MapAction (H : Type)
  /-- The MapPollard verifies and remembers a proof of the leaves. -/
  | learn (hashes : List H)
  /-- Both are modified. -/
  | block (adds : List (Leaf H)) (dels : List H)

section
variable {H M : Type} [HashOps H] [MiniHash H M] [DecidableEq H] [DecidableEq M] [SortAlg]

/-- `NewMapPollard`, with any number of rows to start with. -/
def MapChain.new (rows : Nat) : MapChain H M := ⟨newAccumulator true, ⟨∅, ∅, 0, rows⟩⟩

def MapChain.learn (c : MapChain H M) (hashes : List H) : Exec (Option (MapChain H M)) := do
  match ← c.full.prove hashes with
  | .error _ => .ok none
  | .ok proof =>
    match ← c.m.verify hashes proof true with
    | (_, .error _) => .ok none
    | (m, .ok ()) => .ok (some { c with m })

/-- No state if one of the calls returns an error. -/
def MapChain.block (c : MapChain H M) (adds : List (Leaf H)) (dels : List H) :
    Exec (Option (MapChain H M)) := do
  match ← c.learn dels with
  | none => .ok none
  | some c =>
    match ← c.m.prove dels with
    | .error _ => .ok none
    | .ok proof =>
      match ← c.m.modify adds dels proof with
      | (_, .error _) => .ok none
      | (m, .ok ()) =>
        match ← c.full.modify adds dels proof with
        | (_, .error _) => .ok none
        | (full, .ok ()) => .ok (some ⟨full, m⟩)

def MapChain.step (c : MapChain H M) : MapAction H → Exec (Option (MapChain H M))
  | .learn hashes => c.learn hashes
  | .block adds dels => c.block adds dels

def MapChain.run (c : MapChain H M) : List (MapAction H) → Exec (Option (MapChain H M))
  | [] => .ok (some c)
  | a :: as => do
    match ← c.step a with
    | none => .ok none
    | some c => c.run as

/-- The leaves after an action. -/
def MapAction.apply (slots : List (Option H)) : MapAction H → List (Option H)
  | .learn _ => slots
  | .block adds dels => applyBlock slots ⟨dels, adds.map Leaf.hash⟩

/-- The leaves that should be cached after an action. -/
def MapAction.keep (cached : Set H) : MapAction H → Set H
  | .learn hashes => cached ∪ {a | a ∈ hashes}
  | .block adds dels =>
    {a | (a ∈ cached ∧ a ∉ dels) ∨ ∃ l ∈ adds, l.remember = true ∧ a = l.hash}

omit [HashOps H] [DecidableEq H] [SortAlg] in
/-- Whether the deleted leaves have been learnt before makes no difference. -/
theorem MapAction.keep_learnt {cached : Set H} {adds : List (Leaf H)} {dels : List H} :
    (MapAction.block adds dels).keep (cached ∪ {a | a ∈ dels}) =
      (MapAction.block adds dels).keep cached :=
  Set.ext fun _ => or_congr_left (and_congr_left fun ha => or_iff_left ha)

/-- Live leaves are learnt and deleted, each once, and the leaves are fine after a block. -/
def MapAction.Honest (M : Type) [MiniHash H M] (slots : List (Option H)) : MapAction H → Prop
  | .learn hashes => hashes.Nodup ∧ ∀ a ∈ hashes, a ∈ liveLeaves slots
  | .block adds dels => dels.Nodup ∧ (∀ a ∈ dels, a ∈ liveLeaves slots) ∧
      LeavesFine M (applyBlock slots ⟨dels, adds.map Leaf.hash⟩)

def HonestActions (M : Type) [MiniHash H M] (slots : List (Option H)) :
    List (MapAction H) → Prop
  | [] => True
  | a :: as => a.Honest M slots ∧ HonestActions M (a.apply slots) as

/-- The state of the chain for the leaves and the cached ones among them. -/
structure MapChain.Follows (c : MapChain H M) (tight : Prop) (slots : List (Option H))
    (cached : Set H) : Prop where
  full : c.full.Represents slots
  map : c.m.Kept tight slots cached cached

variable (hinj : ∀ {a b c d : H}, parentHash a b = parentHash c d → a = c ∧ b = d)
  (hne : ∀ a b : H, parentHash a b ≠ empty) {tight : Prop} {slots : List (Option H)}
  {c : MapChain H M} {cached : Set H}
include hinj hne

omit [MiniHash H M] [DecidableEq M] [SortAlg] in
/-- `Modify` with a block that can be applied. -/
theorem MapPollard.Kept.modify_plain {m : MapPollard H} {C : Set H}
    (h : m.Kept tight slots C C) (hplain : PlainLeaves slots)
    {b : PolBlock H} (hb : b.Plain slots) (hC : ∀ a ∈ b.dels, a ∈ C) :
    ∃ m', m.modify b.adds b.dels b.proof = .ok (m', .ok ()) ∧
      m'.Kept tight (applyBlock slots b.block) ((MapAction.block b.adds b.dels).keep C)
        ((MapAction.block b.adds b.dels).keep C) := by
  have hroom : slots.length + b.adds.length ≤ 2 ^ 63 := by
    have hlen := hb.leaves.counted
    rwa [applyBlock, List.length_append, length_delSlots, List.length_map, PolBlock.block,
      List.length_map] at hlen
  exact h.modify (idealHash_not_parent hinj hne) ⟨hb.targets, hb.distinct, hroom⟩ hC
    hplain.isLeaf hb.leaves.distinct hb.leaves.isLeaf

omit [MiniHash H M] [DecidableEq M] in
/-- `Verify` remembers the leaves of an honest proof. -/
theorem MapPollard.Kept.verify_proves {m : MapPollard H} {C : Set H}
    (h : m.Kept tight slots C C) (hplain : PlainLeaves slots)
    {hashes : List H} (hd : hashes.Nodup) {proof : Proof H} (hproof : proof.Proves slots hashes) :
    ∃ m', m.verify hashes proof true = .ok (m', .ok ()) ∧
      m'.Kept tight slots (C ∪ {a | a ∈ hashes}) (C ∪ {a | a ∈ hashes}) := by
  obtain ⟨positions, computed, hpos, heq⟩ := hproof.needed
  obtain ⟨-, m', hverify, -, hm'⟩ := h.verify (idealHash_not_parent hinj hne) hplain.isLeaf
    hproof.targets hd hpos
  rw [← heq] at hverify
  exact ⟨m', hverify, hm'⟩

/-- Learning a proof. -/
theorem MapChain.Follows.learn (h : c.Follows tight slots cached) {hashes : List H}
    (hd : hashes.Nodup) (hlive : ∀ a ∈ hashes, a ∈ liveLeaves slots) :
    ∃ c', c.learn hashes = .ok (some c') ∧ c'.Follows tight slots (cached ∪ {a | a ∈ hashes}) := by
  obtain ⟨proof, hprove, hproof⟩ := h.full.prove_proves hinj hne hd hlive
  obtain ⟨m', hverify, hm'⟩ := h.map.verify_proves hinj hne h.full.fine.plain hd hproof
  refine ⟨⟨c.full, m'⟩, ?_, h.full, hm'⟩
  rw [MapChain.learn, hprove, Exec.ok_bind]
  dsimp only
  rw [hverify, Exec.ok_bind]

omit [SortAlg] in
/-- What the MapPollard proves is what the full Pollard proves. -/
theorem MapChain.Follows.prove_eq (h : c.Follows tight slots cached) {hashes : List H}
    (hd : hashes.Nodup) (hcached : ∀ a ∈ hashes, a ∈ cached) :
    ∃ proof, c.m.prove hashes = .ok (.ok proof) ∧ c.full.prove hashes = .ok (.ok proof) ∧
      List.Forall₂ (LeafAt slots) proof.targets hashes := by
  obtain ⟨targets, positions, computed, hm, hts, hpos⟩ := h.map.prove hcached
  obtain ⟨targets', positions', computed', hfull, hts', hpos'⟩ :=
    h.full.prove_live hinj hne hd (targets_live hts)
  obtain rfl := leafAt_targets_unique h.map.length_lt h.map.nodup hts hts'
  rw [hpos] at hpos'
  cases hpos'
  exact ⟨_, hm, hfull, hts⟩

/-- **One block.** -/
theorem MapChain.Follows.block (h : c.Follows tight slots cached) {adds : List (Leaf H)}
    {dels : List H} (hd : dels.Nodup) (hlive : ∀ a ∈ dels, a ∈ liveLeaves slots)
    (hfine : LeavesFine M (applyBlock slots ⟨dels, adds.map Leaf.hash⟩)) :
    ∃ c', c.block adds dels = .ok (some c') ∧
      c'.Follows tight (applyBlock slots ⟨dels, adds.map Leaf.hash⟩)
        ((MapAction.block adds dels).keep cached) := by
  obtain ⟨c1, hlearn, h1⟩ := h.learn hinj hne hd hlive
  obtain ⟨proof, hprove, -, hts⟩ := h1.prove_eq hinj hne hd fun a ha => Or.inr ha
  have honest : PolBlock.Honest M slots ⟨adds, dels, proof⟩ := ⟨hts, hd, hfine⟩
  obtain ⟨m', hmodify, hm'⟩ := h1.map.modify_plain hinj hne h1.full.fine.plain honest.plain
    fun a ha => Or.inr ha
  obtain ⟨full', hfull, hrep⟩ := h1.full.modify hne honest
  refine ⟨⟨full', m'⟩, ?_, hrep, ?_⟩
  · rw [MapChain.block, hlearn, Exec.ok_bind]
    dsimp only
    rw [hprove, Exec.ok_bind]
    dsimp only
    rw [hmodify, Exec.ok_bind]
    dsimp only
    rw [hfull, Exec.ok_bind]
  · exact MapAction.keep_learnt ▸ hm'

/-- **A run.** -/
theorem MapChain.Follows.run {as : List (MapAction H)} (h : c.Follows tight slots cached)
    (has : HonestActions M slots as) :
    ∃ c', c.run as = .ok (some c') ∧
      c'.Follows tight (as.foldl MapAction.apply slots) (as.foldl MapAction.keep cached) := by
  induction as generalizing c slots cached with
  | nil => exact ⟨c, rfl, h⟩
  | cons a as ih =>
    obtain ⟨c1, hstep, h1⟩ : ∃ c1, c.step a = .ok (some c1) ∧
        c1.Follows tight (a.apply slots) (a.keep cached) := by
      cases a with
      | learn hashes => exact h.learn hinj hne has.1.1 has.1.2
      | block adds dels => exact h.block hinj hne has.1.1 has.1.2.1 has.1.2.2
    obtain ⟨c2, hrun, h2⟩ := ih h1 has.2
    refine ⟨c2, ?_, h2⟩
    rw [MapChain.run, hstep, Exec.ok_bind]
    exact hrun

omit hinj hne [MiniHash H M] [DecidableEq M] [SortAlg] in
/-- Nothing is kept of the empty forest. -/
theorem MapPollard.kept_new {rows : Nat} (hrows : rows ≤ 63) :
    (⟨∅, ∅, 0, rows⟩ : MapPollard H).Kept tight [] ∅ ∅ := by
  have hnd : (liveLeaves ([] : List (Option H))).Nodup := List.nodup_nil
  have hout : ∀ x : Node, ¬ x.InForest 0 := by
    intro x hx
    rw [Node.InForest, Nat.zero_div] at hx
    exact Nat.not_lt_zero _ hx
  have hmeets : ∀ {x}, ¬ (Layout.forest hnd).Meets ∅ x := by
    rintro x ⟨a, ha, -⟩
    exact ha
  refine ⟨List.nodup_nil, hrows, Nat.zero_le _, subset_rfl, fun _ => none, fun _ => none, ?_, ?_,
    ?_⟩
  · exact ⟨rfl, rfl, fun x _ => Finmap.lookup_empty _, fun p hp => absurd hp Finmap.notMem_empty,
      fun x hx => absurd rfl hx, fun a => Finmap.lookup_empty _⟩
  · refine ⟨fun x hx => absurd rfl hx, fun x l hx => (by cases hx), fun x l hx => (by cases hx),
      fun x hx => absurd (Node.IsRoot.inForest hx) (hout x), fun x a ha => ha.elim,
      fun x hx => absurd hx hmeets, fun x hx => absurd rfl hx, fun x hc => ?_,
      fun _ x hx => absurd rfl hx⟩
    obtain ⟨c, -, hc⟩ := hc
    exact absurd rfl hc
  · exact ⟨fun a x hx => (by cases hx), fun a ha => ha.elim⟩

omit hinj hne [SortAlg] in
theorem MapChain.follows_new {rows : Nat} (hrows : rows ≤ 63) :
    (MapChain.new rows : MapChain H M).Follows tight [] ∅ :=
  ⟨represents_newAccumulator, MapPollard.kept_new hrows⟩

/-- **A MapPollard stays in step with the full Pollard.**  After any honest run no call has
returned an error, the roots agree, the cached leaves are the learnt and remembered ones that
are not deleted, and every duplicate-free list of cached leaves has the same proof from both.
Leaves that are not cached are refused. -/
theorem map_pollard_in_step {rows : Nat} (hrows : rows ≤ 63) {as : List (MapAction H)}
    (has : HonestActions M [] as) :
    ∃ c : MapChain H M, (MapChain.new rows).run as = .ok (some c) ∧
      c.m.getStump = ⟨c.full.getRoots, c.full.numLeaves⟩ ∧
      (∀ a, a ∈ c.m.cachedLeaves ↔ a ∈ as.foldl MapAction.keep ∅) ∧
      ∀ hashes : List H, hashes.Nodup →
        ((∀ a ∈ hashes, a ∈ as.foldl MapAction.keep ∅) →
          ∃ proof, c.m.prove hashes = .ok (.ok proof) ∧ c.full.prove hashes = .ok (.ok proof) ∧
            ∀ remember, ∃ m', c.m.verify hashes proof remember = .ok (m', .ok ())) ∧
        ((∃ a ∈ hashes, a ∉ as.foldl MapAction.keep ∅) →
          c.m.prove hashes = .ok (.error (.unprovable hashes))) := by
  have hnew : (MapChain.new rows : MapChain H M).Follows True [] ∅ := MapChain.follows_new hrows
  obtain ⟨c, hrun, h⟩ := hnew.run hinj hne has
  have hi : IdealHash H (LeafHash M) := ⟨hinj, hne, fun a b h => h.not_parent a b rfl⟩
  have hleaf : ∀ a ∈ liveLeaves (as.foldl MapAction.apply []), LeafHash M a ∧ a ≠ empty :=
    fun a ha => ⟨h.full.fine.isLeaf a ha, (h.full.fine.isLeaf a ha).ne_empty⟩
  refine ⟨c, hrun, ?_, fun a => ?_, fun hashes hd => ⟨fun hcached => ?_, h.map.prove_refused⟩⟩
  · rw [h.map.getStump, h.full.getRoots, h.full.numLeaves]
  · exact h.map.mem_cachedLeaves
  · obtain ⟨targets, positions, computed, hm, hts, hpos⟩ := h.map.prove hcached
    obtain ⟨hplain, m', hverify, -⟩ := h.map.verify hi hleaf hts hd hpos
    obtain ⟨proof, hm', hfull, -⟩ := h.prove_eq hinj hne hd hcached
    rw [hm] at hm'
    cases hm'
    exact ⟨_, hm, hfull, fun remember => by
      cases remember with
      | false => exact ⟨c.m, hplain⟩
      | true => exact ⟨m', hverify⟩⟩

/-- **A MapPollard passes its sanity check.**  After any honest run the cached leaves are marked,
all nodes of their proofs and no others but the roots and the nodes above the cached leaves are
in the map, and every hash is the one that the full Pollard has there. -/
theorem map_pollard_sane {rows : Nat} (hrows : rows ≤ 63) {as : List (MapAction H)}
    (has : HonestActions M [] as) :
    ∃ c : MapChain H M, (MapChain.new rows).run as = .ok (some c) ∧
      c.m.Sane fun pos =>
        c.full.getHash (translatePos pos c.m.totalRows (treeRows c.m.numLeaves)) := by
  obtain ⟨c, hrun, h⟩ := (MapChain.follows_new hrows).run hinj hne has
  refine ⟨c, hrun, h.map.sane fun x hx => ?_⟩
  obtain ⟨N, K, hs, -⟩ := h.map.view
  rw [hs.numLeaves, translatePos_nodePos h.map.rows (treeRows_le h.map.le_63)
    (fits_of_inForest h.map.room hx) (fits_of_inForest (le_two_pow_treeRows _) hx),
    h.full.getHash hx]

end

section
attribute [local instance] SortAlg.stable

/-- Of three leaves the first is remembered and the second is learnt; then the first is deleted
and a fourth is added. -/
def learnSecond : List (MapAction FreeHash) :=
  [.block [⟨.leaf 0, true⟩, ⟨.leaf 1, false⟩, ⟨.leaf 2, false⟩] [], .learn [.leaf 1],
    .block [⟨.leaf 3, false⟩] [.leaf 0]]

theorem learnSecond_honest : HonestActions FreeHash [] learnSecond :=
  ⟨⟨by decide, by simp, FreeHash.leavesFine (by decide) (by decide) (by decide)⟩,
    ⟨by decide, by decide⟩,
    ⟨by decide, by decide, FreeHash.leavesFine (by decide) (by decide) (by decide)⟩, trivial⟩

theorem map_pollard_in_step_learnSecond :
    ∃ (c : MapChain FreeHash FreeHash) (proof : Proof FreeHash),
      (MapChain.new 50).run learnSecond = .ok (some c) ∧
      c.m.getRoots = c.full.getRoots ∧ .leaf 0 ∉ c.m.cachedLeaves ∧
      c.m.prove [.leaf 1] = .ok (.ok proof) ∧ c.full.prove [.leaf 1] = .ok (.ok proof) ∧
      c.m.prove [.leaf 3] = .ok (.error (.unprovable [.leaf 3])) := by
  obtain ⟨c, hrun, hstump, hcached, hprove⟩ := map_pollard_in_step FreeHash.ideal.inj
    FreeHash.ideal.ne_empty (by decide : 50 ≤ 63) learnSecond_honest
  obtain ⟨proof, hm, hfull, -⟩ := (hprove [.leaf 1] (by decide)).1 fun a ha => by
    rw [List.mem_singleton.mp ha]
    exact Or.inl ⟨Or.inr (by decide), by decide⟩
  refine ⟨c, proof, hrun, congrArg Stump.roots hstump, fun h0 => ?_, hm, hfull,
    (hprove [.leaf 3] (by decide)).2 ⟨.leaf 3, by decide, ?_⟩⟩
  · rcases (hcached _).mp h0 with ⟨-, h⟩ | ⟨l, hl, -, he⟩
    · exact h (by decide)
    · rw [List.mem_singleton.mp hl] at he
      cases he
  · rintro (⟨(⟨h, -⟩ | ⟨l, hl, hr, he⟩) | h, -⟩ | ⟨l, hl, hr, -⟩)
    · exact h
    · have hno : ∀ l ∈ ([⟨.leaf 0, true⟩, ⟨.leaf 1, false⟩, ⟨.leaf 2, false⟩] :
          List (Leaf FreeHash)), FreeHash.leaf 3 ≠ l.hash := by decide
      exact hno l hl he
    · cases List.mem_singleton.mp h
    · rw [List.mem_singleton.mp hl] at hr
      cases hr

theorem map_pollard_sane_learnSecond :
    ∃ c : MapChain FreeHash FreeHash, (MapChain.new 50).run learnSecond = .ok (some c) ∧
      ∀ pos l, c.m.nodes.lookup pos = some l →
        l.hash = c.full.getHash (translatePos pos c.m.totalRows (treeRows c.m.numLeaves)) := by
  obtain ⟨c, hrun, h⟩ := map_pollard_sane FreeHash.ideal.inj FreeHash.ideal.ne_empty
    (by decide : 50 ≤ 63) learnSecond_honest
  exact ⟨c, hrun, h.hashes⟩

end

end Utreexo
