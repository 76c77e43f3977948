import Utreexo.PollardRun
import Utreexo.UndoDels

/-! # Undoing blocks of a full Pollard

`Undo` takes an honest block back: a Pollard that represents the leaves after the block
represents those before it again.  So a stack of blocks that is applied and then undone
leaves nothing behind, and after any run of honest calls of `Modify` and `Undo` the
Pollard represents the leaves of the blocks that are left (`FullReach`).
-/
namespace Utreexo
open Merkle

section
variable {H M : Type} [HashOps H] [MiniHash H M] [DecidableEq H] [DecidableEq M] [SortAlg]

/-! ### One block -/

/-- `undo` takes a block back, whatever keys are told apart.  The length of a slice is an `int`, so
the number of leaves that the block added is one as well. -/
theorem Pollard.RepresentsOn.undo {Q : M → Prop} {p : Pollard H M} {slots : List (Option H)}
    {b : PolBlock H} (hi : ∀ a b : H, parentHash a b ≠ empty)
    (hp : p.RepresentsOn Q (applyBlock slots b.block)) (hb : b.Plain slots)
    (hplain : PlainLeaves slots) (hkeys : MiniOk Q slots) (hadds : b.adds.length < 2 ^ 63) :
    ∃ p', p.undo b.adds.length b.proof b.dels ((forestTrees slots).map hashOpt) =
        .ok (p', .ok ()) ∧
      p'.RepresentsOn Q slots := by
  obtain ⟨F, hF⟩ := hp.holds
  have hn := hplain.counted
  have hlive := targets_live hb.targets
  obtain ⟨xs, hxs, htargets⟩ := exists_nodes hb.targets
  have hlen : (b.adds.map Leaf.hash).length = b.adds.length := List.length_map _
  have hthin : p.Thinned Q F (delSlots slots b.dels ++ (b.adds.map Leaf.hash).map some) :=
    ⟨hF.rep, hF.trees ▸ Thin.refl _, hF.numLeaves, hF.full, hF.map⟩
  have hall := hp.plain.counted
  rw [applyBlock, PolBlock.block, List.length_append, length_delSlots, List.length_map,
    hlen] at hall
  -- The additions, the empty roots and the deletions.
  obtain ⟨p1, F1, hrun1, hp1, hd1⟩ := hthin.undoAdds _ hp.keys
    (by rw [length_delSlots, hlen]; omega)
  obtain ⟨p2, F2, hrun2, hp2, hd2⟩ := hp1.undoEmptyRoots hi
    hplain.ne_empty hplain.distinct hn hxs hb.distinct
  obtain ⟨p3, F3, hrun3, hp3, hd3⟩ := Pollard.undoDels_spec hp2 hn hkeys hxs hb.distinct
  refine ⟨p3, ?_, ⟨F3, hp3⟩, hplain, hkeys, ?_⟩
  · rw [hlen] at hrun1
    rw [Pollard.undo, if_pos hadds, hrun1, Exec.ok_bind, htargets, hrun2, Exec.ok_bind]
    exact hrun3
  · have hnum : p.numDels + ((liveLeaves (delSlots slots b.dels)).length + b.adds.length) =
        slots.length + b.adds.length := by
      have h := hp.numDels
      rw [liveLeaves_applyBlock, ← liveLeaves_delSlots] at h
      simpa [applyBlock, PolBlock.block] using h
    have hcount := length_liveLeaves_delSlots hplain.distinct hb.distinct hlive
    have hle : (liveLeaves slots).length ≤ slots.length := List.length_filterMap_le _ _
    rw [hd3, hd2, hd1, sub64_of_le (by omega) (by omega)]
    omega

/-- **`undo` takes an honest block back.** -/
theorem Pollard.Represents.undo {p : Pollard H M} {slots : List (Option H)} {b : PolBlock H}
    (hi : ∀ a b : H, parentHash a b ≠ empty) (hp : p.Represents (applyBlock slots b.block))
    (hb : b.Honest M slots) (hfine : LeavesFine M slots) (hadds : b.adds.length < 2 ^ 63) :
    ∃ p', p.undo b.adds.length b.proof b.dels ((forestTrees slots).map hashOpt) =
        .ok (p', .ok ()) ∧
      p'.Represents slots := by
  obtain ⟨p', hrun, hp'⟩ := hp.on.undo hi hb.plain hfine.plain hfine.miniOk hadds
  exact ⟨p', hrun, hp'.holds, hfine, hp'.numDels⟩

/-! ### A stack of blocks -/

omit [SortAlg] [HashOps H] [DecidableEq H] in
/-- The position of a leaf is determined. -/
theorem LeafAt.unique {slots : List (Option H)} {t t' : Nat} {h : H}
    (hn : slots.length < 2 ^ 64) (hnd : (liveLeaves slots).Nodup) (ht : LeafAt slots t h)
    (ht' : LeafAt slots t' h) : t = t' := by
  obtain ⟨x, hx, rfl⟩ := ht
  obtain ⟨y, hy, rfl⟩ := ht'
  rw [placed_leaf_unique hn hnd hx hy]

/-- Applies blocks with `Modify` and takes them back with `Undo`, the last one first,
until a call fails. -/
def Pollard.roundTrip (p : Pollard H M) : List (PolBlock H) →
    Exec (Pollard H M × Except (PolErr H) Unit)
  | [] => .ok (p, .ok ())
  | b :: bs => do
    let prevRoots := p.getRoots
    let (p, res) ← p.modify b.adds b.dels b.proof
    match res with
    | .error e => .ok (p, .error e)
    | .ok () => do
      let (p, res) ← roundTrip p bs
      match res with
      | .error e => .ok (p, .error e)
      | .ok () => p.undo b.adds.length b.proof b.dels prevRoots

theorem Pollard.Represents.roundTrip {bs : List (PolBlock H)} :
    ∀ {p : Pollard H M} {slots : List (Option H)}, (∀ a b : H, parentHash a b ≠ empty) →
      p.Represents slots → HonestRun M slots bs → (∀ b ∈ bs, b.adds.length < 2 ^ 63) →
      ∃ p', p.roundTrip bs = .ok (p', .ok ()) ∧ p'.Represents slots := by
  induction bs with
  | nil =>
    intro p slots _ hp _ _
    exact ⟨p, rfl, hp⟩
  | cons b bs ih =>
    intro p slots hi hp hbs hadds
    obtain ⟨hb, hbs⟩ := hbs
    obtain ⟨hadd, hadds⟩ := List.forall_mem_cons.mp hadds
    obtain ⟨p1, hrun1, hp1⟩ := hp.modify hi hb
    obtain ⟨p2, hrun2, hp2⟩ := ih hi hp1 hbs hadds
    obtain ⟨p3, hrun3, hp3⟩ := hp2.undo hi hb hp.fine hadd
    refine ⟨p3, ?_, hp3⟩
    rw [Pollard.roundTrip, hp.getRoots, hrun1, Exec.ok_bind]
    simp only [hrun2, Exec.ok_bind, hrun3]

/-! ### Reachable Pollards -/

/-- The leaves after the blocks of a stack, the last one first. -/
def stackSlots : List (PolBlock H × List H) → List (Option H)
  | [] => []
  | (b, _) :: stack => applyBlock (stackSlots stack) b.block

/-- **A full Pollard after honest calls of `Modify` and `Undo`.**  The stack has the
blocks that have not been undone, the last one first, each with the roots before it. -/
inductive FullReach : Pollard H M → List (PolBlock H × List H) → Prop
  | new : FullReach (newAccumulator true) []
  | modify {p p' : Pollard H M} {stack : List (PolBlock H × List H)} {b : PolBlock H} :
      FullReach p stack → b.Honest M (stackSlots stack) → b.adds.length < 2 ^ 63 →
      p.modify b.adds b.dels b.proof = .ok (p', .ok ()) →
      FullReach p' ((b, p.getRoots) :: stack)
  | undo {p p' : Pollard H M} {stack : List (PolBlock H × List H)} {b : PolBlock H}
      {prevRoots : List H} :
      FullReach p ((b, prevRoots) :: stack) →
      p.undo b.adds.length b.proof b.dels prevRoots = .ok (p', .ok ()) → FullReach p' stack

/-- **A full Pollard after calls of `Modify` and `Undo`** whose leaves are distinct as whole hashes,
whatever their first parts are.  The last list has the leaves of every state of the run. -/
inductive PlainReach :
    Pollard H M → List (PolBlock H × List H) → List (List (Option H)) → Prop
  | new : PlainReach (newAccumulator true) [] [[]]
  | modify {p p' : Pollard H M} {stack : List (PolBlock H × List H)}
      {visited : List (List (Option H))} {b : PolBlock H} :
      PlainReach p stack visited → b.Plain (stackSlots stack) → b.adds.length < 2 ^ 63 →
      p.modify b.adds b.dels b.proof = .ok (p', .ok ()) →
      PlainReach p' ((b, p.getRoots) :: stack) (applyBlock (stackSlots stack) b.block :: visited)
  | undo {p p' : Pollard H M} {stack : List (PolBlock H × List H)}
      {visited : List (List (Option H))} {b : PolBlock H} {prevRoots : List H} :
      PlainReach p ((b, prevRoots) :: stack) visited →
      p.undo b.adds.length b.proof b.dels prevRoots = .ok (p', .ok ()) →
      PlainReach p' stack visited

/-- The states that the blocks of the stack lead to have been visited. -/
theorem PlainReach.visited {p : Pollard H M} {stack : List (PolBlock H × List H)}
    {visited : List (List (Option H))} (h : PlainReach p stack visited) :
    ∀ s, s <:+ stack → stackSlots s ∈ visited := by
  induction h with
  | new =>
    intro s hs
    rw [List.suffix_nil.mp hs]
    exact List.mem_singleton_self _
  | modify _ _ _ _ ih =>
    intro s hs
    rcases List.suffix_cons_iff.mp hs with rfl | hs
    · exact List.mem_cons_self
    · exact List.mem_cons_of_mem _ (ih s hs)
  | undo _ _ ih => exact fun s hs => ih s (hs.trans (List.suffix_cons _ _))

theorem PlainReach.plainLeaves {p : Pollard H M} {stack : List (PolBlock H × List H)}
    {visited : List (List (Option H))} (h : PlainReach p stack visited) {slots : List (Option H)}
    (hs : slots ∈ visited) : PlainLeaves slots := by
  induction h with
  | new => exact List.mem_singleton.mp hs ▸ plainLeaves_nil
  | modify _ hb _ _ ih =>
    rcases List.mem_cons.mp hs with rfl | hs
    · exact hb.leaves
    · exact ih hs
  | undo _ _ ih => exact ih hs

/-- The blocks of a stack can be applied, and the roots are those before them. -/
def PlainStack : List (PolBlock H × List H) → Prop
  | [] => True
  | (b, prevRoots) :: stack =>
    b.Plain (stackSlots stack) ∧ b.adds.length < 2 ^ 63 ∧ PlainLeaves (stackSlots stack) ∧
      prevRoots = (forestTrees (stackSlots stack)).map hashOpt ∧ PlainStack stack

/-- **A reachable Pollard represents the leaves of the blocks that are left**, as far as the keys
have told the leaves apart in every state of the run. -/
theorem PlainReach.representsOn {Q : M → Prop} {p : Pollard H M}
    {stack : List (PolBlock H × List H)} {visited : List (List (Option H))}
    (hi : ∀ a b : H, parentHash a b ≠ empty) (h : PlainReach p stack visited)
    (hkeys : ∀ slots ∈ visited, MiniOk Q slots) :
    p.RepresentsOn Q (stackSlots stack) ∧ PlainStack stack := by
  induction h with
  | new => exact ⟨representsOn_newAccumulator, trivial⟩
  | modify _ hb hadds hrun ih =>
    obtain ⟨hkey, hkeys⟩ := List.forall_mem_cons.mp hkeys
    obtain ⟨hp, hstack⟩ := ih hkeys
    obtain ⟨q, hrun', hq⟩ := hp.modify hi hb hkey
    cases hrun.symm.trans hrun'
    exact ⟨hq, hb, hadds, hp.plain, hp.getRoots, hstack⟩
  | undo hreach hrun ih =>
    obtain ⟨hp, hb, hadds, hplain, rfl, hstack⟩ := ih hkeys
    have hkey := hkeys _ (hreach.visited _ (List.suffix_cons _ _))
    obtain ⟨q, hrun', hq⟩ := hp.undo hi hb hplain hkey hadds
    cases hrun.symm.trans hrun'
    exact ⟨hq, hstack⟩

theorem FullReach.plain {p : Pollard H M} {stack : List (PolBlock H × List H)}
    (h : FullReach p stack) :
    ∃ visited, PlainReach p stack visited ∧ ∀ slots ∈ visited, LeavesFine M slots := by
  induction h with
  | new => exact ⟨_, .new, by simpa using represents_newAccumulator.fine⟩
  | modify _ hb hadds hrun ih =>
    obtain ⟨visited, hreach, hfine⟩ := ih
    exact ⟨_, .modify hreach hb.plain hadds hrun, List.forall_mem_cons.mpr ⟨hb.leaves, hfine⟩⟩
  | undo _ hrun ih =>
    obtain ⟨visited, hreach, hfine⟩ := ih
    exact ⟨visited, .undo hreach hrun, hfine⟩

/-- **A reachable Pollard represents the leaves of the blocks that are left.** -/
theorem FullReach.represents {p : Pollard H M} {stack : List (PolBlock H × List H)}
    (hi : ∀ a b : H, parentHash a b ≠ empty) (h : FullReach p stack) :
    p.Represents (stackSlots stack) := by
  obtain ⟨visited, hreach, hfine⟩ := h.plain
  have hp := (hreach.representsOn hi fun slots hs => (hfine slots hs).miniOk).1
  exact ⟨hp.holds, hfine _ (hreach.visited _ (List.suffix_refl _)), hp.numDels⟩

/-- **`Undo` inverts `Modify`.**  From any reachable Pollard, honest blocks can be applied
and taken back without an error, and everything the Pollard answers is as before. -/
theorem undo_inverts_modify
    (hinj : ∀ {a b c d : H}, parentHash a b = parentHash c d → a = c ∧ b = d)
    (hne : ∀ a b : H, parentHash a b ≠ empty) {p : Pollard H M}
    {stack : List (PolBlock H × List H)} (hp : FullReach p stack) {bs : List (PolBlock H)}
    (hbs : HonestRun M (stackSlots stack) bs) (hadds : ∀ b ∈ bs, b.adds.length < 2 ^ 63) :
    ∃ p', p.roundTrip bs = .ok (p', .ok ()) ∧ p'.numLeaves = p.numLeaves ∧
      p'.numDels = p.numDels ∧ p'.getRoots = p.getRoots ∧
      (∀ pos, p'.getHash pos = p.getHash pos) ∧ (∀ k, k ∈ p'.nodeMap ↔ k ∈ p.nodeMap) ∧
      ∀ k a a', p.nodeMap.lookup k = some a → p'.nodeMap.lookup k = some a' →
        ∃ t, p.calculatePosition a = .ok t ∧ p'.calculatePosition a' = .ok t := by
  have hp := hp.represents hne
  obtain ⟨p', hrun, hp'⟩ := hp.roundTrip hne hbs hadds
  have hi : IdealHash H (LeafHash M) := ⟨hinj, hne, fun a b h => h.not_parent a b rfl⟩
  have hn := hp.fine.counted
  refine ⟨p', hrun, ?_, ?_, ?_, fun pos => ?_, fun k => ?_, ?_⟩
  · rw [hp.numLeaves, hp'.numLeaves]
  · have h1 := hp.numDels
    have h2 := hp'.numDels
    omega
  · rw [hp.getRoots, hp'.getRoots]
  · obtain ⟨F, hF⟩ := hp.holds
    obtain ⟨F', hF'⟩ := hp'.holds
    rw [hF.rep.getHash, hF'.rep.getHash, hF.trees, hF'.trees, hF.numLeaves, hF'.numLeaves]
  · rw [hp.mem_nodeMap, hp'.mem_nodeMap]
  · intro k a a' ha ha'
    obtain ⟨h, t, hk, ht, hpos⟩ := hp.on.lookup trivial ha hi hp.fine.isLeaf
    obtain ⟨h', t', hk', ht', hpos'⟩ := hp'.on.lookup trivial ha' hi hp.fine.isLeaf
    obtain rfl := hp.fine.miniOk.inj ht.live ht'.live trivial (hk.trans hk'.symm)
    obtain rfl := ht.unique (by omega) hp.fine.nodup ht'
    exact ⟨t, hpos, hpos'⟩

end

attribute [local instance] SortAlg.stable in
/-- The second block, on top of the first one. -/
theorem undo_inverts_secondDeleted :
    ∃ (p p' : Pollard FreeHash FreeHash) (stack : List (PolBlock FreeHash × List FreeHash)),
      FullReach p stack ∧ p.numLeaves = 3 ∧
      p.roundTrip (secondDeleted.drop 1) = .ok (p', .ok ()) ∧ p'.numLeaves = 3 ∧
      p'.getRoots = p.getRoots := by
  obtain ⟨hb, hrest⟩ := secondDeleted_honest
  obtain ⟨p, hrun, hp⟩ := represents_newAccumulator.modify FreeHash.ideal.ne_empty hb
  have hreach := FullReach.modify .new hb (by decide) hrun
  obtain ⟨p', hrun', hnum, -, hroots, -⟩ := undo_inverts_modify FreeHash.ideal.inj
    FreeHash.ideal.ne_empty hreach hrest (by decide)
  have hthree : p.numLeaves = 3 := hp.numLeaves.trans (by decide)
  exact ⟨p, p', _, hreach, hthree, hrun', hnum.trans hthree, hroots⟩

end Utreexo
