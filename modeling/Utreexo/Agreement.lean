import Utreexo.CachedRun
import Utreexo.MapRun

/-! # The three accumulators agree

A full Pollard, a Stump and a MapPollard are fed with the same blocks.  The full Pollard proves
what a block deletes, and the others take the block with this proof.  All three stand for the
forest of the same leaves, so they have the same roots, and what the MapPollard can prove it
proves as the full Pollard does.
-/
namespace Utreexo
open Merkle

structure Accumulators (H M : Type) where
  full : Pollard H M
  stump : Stump H
  m : MapPollard H

section
variable {H M : Type} [HashOps H] [MiniHash H M] [DecidableEq H] [DecidableEq M] [SortAlg]

def Accumulators.new (rows : Nat) : Accumulators H M :=
  ⟨newAccumulator true, ⟨[], 0⟩, ⟨∅, ∅, 0, rows⟩⟩

/-- No state if one of the calls returns an error. -/
def Accumulators.block (c : Accumulators H M) (adds : List (Leaf H)) (dels : List H) :
    Exec (Option (Accumulators H M)) := do
  match ← c.full.prove dels with
  | .error _ => .ok none
  | .ok proof =>
    match ← c.full.modify adds dels proof with
    | (_, .error _) => .ok none
    | (full, .ok ()) =>
      match ← c.stump.update dels (adds.map Leaf.hash) proof with
      | (_, .error _) => .ok none
      | (stump, .ok _) =>
        match ← c.m.verify dels proof true with
        | (_, .error _) => .ok none
        | (m, .ok ()) =>
          match ← m.modify adds dels proof with
          | (_, .error _) => .ok none
          | (m, .ok ()) => .ok (some ⟨full, stump, m⟩)

def Accumulators.run (c : Accumulators H M) :
    List (List (Leaf H) × List H) → Exec (Option (Accumulators H M))
  | [] => .ok (some c)
  | (adds, dels) :: bs => do
    match ← c.block adds dels with
    | none => .ok none
    | some c => c.run bs

/-- Every block deletes live leaves, each once, and the leaves are fine after it. -/
def LiveBlocks (M : Type) [MiniHash H M] (slots : List (Option H)) :
    List (List (Leaf H) × List H) → Prop
  | [] => True
  | (adds, dels) :: bs => dels.Nodup ∧ (∀ a ∈ dels, a ∈ liveLeaves slots) ∧
      LeavesFine M (applyBlock slots ⟨dels, adds.map Leaf.hash⟩) ∧
      LiveBlocks M (applyBlock slots ⟨dels, adds.map Leaf.hash⟩) bs

/-- All three stand for the same leaves. -/
structure Accumulators.Follows (c : Accumulators H M) (slots : List (Option H))
    (cached : Set H) : Prop where
  pollards : MapChain.Follows ⟨c.full, c.m⟩ True slots cached
  stump : c.stump = ⟨(forestTrees slots).map hashOpt, slots.length⟩

variable (hinj : ∀ {a b c d : H}, parentHash a b = parentHash c d → a = c ∧ b = d)
  (hne : ∀ a b : H, parentHash a b ≠ empty) {slots : List (Option H)} {c : Accumulators H M}
  {cached : Set H}
include hinj hne

/-- **One block.** -/
theorem Accumulators.Follows.block (h : c.Follows slots cached) {adds : List (Leaf H)}
    {dels : List H} (hd : dels.Nodup) (hlive : ∀ a ∈ dels, a ∈ liveLeaves slots)
    (hfine : LeavesFine M (applyBlock slots ⟨dels, adds.map Leaf.hash⟩)) :
    ∃ c', c.block adds dels = .ok (some c') ∧
      c'.Follows (applyBlock slots ⟨dels, adds.map Leaf.hash⟩)
        ((MapAction.block adds dels).keep cached) := by
  have hfull := h.pollards.full
  obtain ⟨proof, hprove, hproof⟩ := hfull.prove_proves hinj hne hd hlive
  have honest : PolBlock.Honest M slots ⟨adds, dels, proof⟩ := ⟨hproof.targets, hd, hfine⟩
  obtain ⟨full', hmodify, hfull'⟩ := hfull.modify hne honest
  obtain ⟨touched, added, -, -, hupdate⟩ := Stump.update_honest hinj hne hfull.fine.plain
    hfine.plain hproof hd
  obtain ⟨m1, hverify, hm1⟩ := h.pollards.map.verify_proves hinj hne hfull.fine.plain hd hproof
  obtain ⟨m', hmodify', hm'⟩ := hm1.modify_plain hinj hne hfull.fine.plain honest.plain
    fun a ha => Or.inr ha
  rw [← h.stump] at hupdate
  refine ⟨⟨full', _, m'⟩, ?_, ⟨hfull', MapAction.keep_learnt ▸ hm'⟩, rfl⟩
  rw [Accumulators.block, hprove, Exec.ok_bind]
  dsimp only
  rw [hmodify, Exec.ok_bind]
  dsimp only
  rw [hupdate, Exec.ok_bind]
  dsimp only
  rw [hverify, Exec.ok_bind]
  dsimp only
  rw [hmodify', Exec.ok_bind]
  rfl

/-- **A run of blocks.** -/
theorem Accumulators.Follows.run {bs : List (List (Leaf H) × List H)} (h : c.Follows slots cached)
    (hbs : LiveBlocks M slots bs) :
    ∃ c' slots' cached', c.run bs = .ok (some c') ∧
      Accumulators.Follows (M := M) c' slots' cached' := by
  induction bs generalizing c slots cached with
  | nil => exact ⟨c, slots, cached, rfl, h⟩
  | cons b bs ih =>
    obtain ⟨adds, dels⟩ := b
    obtain ⟨hd, hlive, hfine, hbs⟩ := hbs
    obtain ⟨c1, hblock, h1⟩ := h.block hinj hne hd hlive hfine
    obtain ⟨c2, slots', cached', hrun, h2⟩ := ih h1 hbs
    refine ⟨c2, slots', cached', ?_, h2⟩
    rw [Accumulators.run, hblock, Exec.ok_bind]
    exact hrun

/-- **The three accumulators agree.**  After any blocks no call has returned an error, the roots
are the same, and every duplicate-free list of leaves that the MapPollard has cached is proved by
it as by the full Pollard. -/
theorem accumulators_agree {rows : Nat} (hrows : rows ≤ 63) {bs : List (List (Leaf H) × List H)}
    (hbs : LiveBlocks M [] bs) :
    ∃ c : Accumulators H M, (Accumulators.new rows).run bs = .ok (some c) ∧
      c.stump.roots = c.full.getRoots ∧ c.m.getRoots = c.full.getRoots ∧
      ∀ hashes : List H, hashes.Nodup → (∀ a ∈ hashes, a ∈ c.m.cachedLeaves) →
        ∃ proof, c.m.prove hashes = .ok (.ok proof) ∧ c.full.prove hashes = .ok (.ok proof) := by
  have hnew : (Accumulators.new rows : Accumulators H M).Follows [] ∅ :=
    ⟨MapChain.follows_new hrows, StumpChain.follows_new.stump⟩
  obtain ⟨c, slots, cached, hrun, h⟩ := hnew.run hinj hne hbs
  have hroots := h.pollards.full.getRoots
  refine ⟨c, hrun, ?_, h.pollards.map.getRoots.trans hroots.symm, fun hashes hd hcached => ?_⟩
  · rw [h.stump]
    exact hroots.symm
  · obtain ⟨proof, hm, hfull, -⟩ := h.pollards.prove_eq hinj hne hd fun a ha =>
      h.pollards.map.mem_cachedLeaves.mp (hcached a ha)
    exact ⟨proof, hm, hfull⟩

end

section
attribute [local instance] SortAlg.stable

/-- Three leaves are added, two of them to be remembered; then one of these is deleted and a fourth
is added. -/
def forgetFirst : List (List (Leaf FreeHash) × List FreeHash) :=
  [([⟨.leaf 0, true⟩, ⟨.leaf 1, true⟩, ⟨.leaf 2, false⟩], []), ([⟨.leaf 3, true⟩], [.leaf 0])]

theorem accumulators_agree_forgetFirst :
    ∃ c : Accumulators FreeHash FreeHash, (Accumulators.new 50).run forgetFirst = .ok (some c) ∧
      c.stump.roots = c.full.getRoots ∧ c.m.getRoots = c.full.getRoots := by
  have hbs : LiveBlocks FreeHash [] forgetFirst :=
    ⟨by decide, by simp, FreeHash.leavesFine (by decide) (by decide) (by decide), by decide,
      by decide, FreeHash.leavesFine (by decide) (by decide) (by decide), trivial⟩
  obtain ⟨c, hrun, hstump, hm, -⟩ := accumulators_agree FreeHash.ideal.inj FreeHash.ideal.ne_empty
    (by decide : 50 ≤ 63) hbs
  exact ⟨c, hrun, hstump, hm⟩

end

end Utreexo
