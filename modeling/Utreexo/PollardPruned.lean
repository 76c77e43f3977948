import Utreexo.ProofSubset

/-! # The pruned Pollard

A Pollard that is not full drops nodes that nothing to be remembered hangs on (`prune`).  As
long as no merge lets `prune` drop a node it does what the full one does.  `RunKept` says so of
the leaves alone, and a run without it can end in a nil dereference.
-/
namespace Utreexo
open Merkle

/-! ### What holds when a computation ends -/

/-- Whatever the computation returns satisfies `P`. -/
def Ends {α : Type} (P : α → Prop) (x : Exec α) : Prop := ∀ a, x = .ok a → P a

section
variable {α β : Type} {P : α → Prop} {P' : β → Prop}

theorem ends_ok {a : α} (h : P a) : Ends P (.ok a) := by
  rintro b ⟨⟩
  exact h

theorem ends_error (s : Stop) : Ends P (.error s) := nofun

theorem Ends.bind {x : Exec α} {f : α → Exec β} (hx : Ends P x)
    (hf : ∀ a, P a → Ends P' (f a)) : Ends P' (x >>= f) := by
  intro b hb
  obtain ⟨a, ha, hb⟩ := Exec.bind_eq_ok.mp hb
  exact hf a (hx a ha) b hb

/-- A pointer that is followed. -/
theorem ends_deref {n : Option Addr} {f : Addr → Exec β} (hf : ∀ a, Ends P' (f a)) :
    Ends P' (deref n >>= f) := by
  cases n with
  | none => exact ends_error _
  | some a => exact hf a

end

/-! ### The marks stay -/

section Marks
variable {H : Type} {K : H → Prop} {h : Heap H} {a b : Addr}

theorem Heap.Marked.set (hm : h.Marked K) {n : PolNode H} (hn : K n.data → n.remember = true) :
    (h.set a n).Marked K := by
  intro b
  by_cases hb : b = a
  · simpa [Heap.set, hb] using hn
  · simpa [Heap.set, hb] using hm b

variable (hm : h.Marked K)
include hm

theorem Heap.Marked.setLNiece (v : Option Addr) : (h.setLNiece a v).Marked K := hm.set (hm a)

theorem Heap.Marked.setRNiece (v : Option Addr) : (h.setRNiece a v).Marked K := hm.set (hm a)

theorem Heap.Marked.setNieces (l r : Option Addr) : (h.setNieces a l r).Marked K := hm.set (hm a)

theorem Heap.Marked.setAunt (v : Option Addr) : (h.setAunt a v).Marked K := hm.set (hm a)

theorem Heap.Marked.clearAunt (n : Option Addr) : (h.clearAunt n).Marked K := by
  cases n with
  | none => exact hm
  | some a => exact hm.setAunt none

theorem Heap.Marked.setData {d : H} (hd : ¬ K d) : (h.setData a d).Marked K :=
  hm.set fun hK => absurd hK hd

theorem Heap.Marked.forgetNiece : (forgetNiece h a).Marked K := by
  unfold Utreexo.forgetNiece
  split
  · exact hm
  · split_ifs
    · exact hm.setRNiece none
    · exact hm.setLNiece none
    · exact hm

theorem Heap.Marked.delNode (n : Option Addr) : (delNode h n).Marked K := by
  cases n with
  | none => exact hm
  | some a =>
    exact (((hm.forgetNiece.setAunt none).clearAunt _).setLNiece none |>.clearAunt _).setRNiece none

theorem Heap.Marked.chop : (chop h a).Marked K := ((hm.delNode _).delNode _).setNieces none none

omit hm in
theorem updateAuntLoop_marked (fuel : Nat) :
    ∀ {h : Heap H}, h.Marked K → ∀ n, Ends (·.Marked K) (updateAuntLoop fuel h n) := by
  induction fuel with
  | zero => exact fun _ _ => ends_error _
  | succ fuel ih =>
    intro h hm n
    have hright : ∀ {h : Heap H}, h.Marked K → ∀ r, Ends (·.Marked K)
        (if (h.get r).aunt = some n then .ok h
          else updateAuntLoop fuel (h.setAunt r (some n)) r) := by
      intro h hm r
      split_ifs
      · exact ends_ok hm
      · exact ih (hm.setAunt _) _
    rw [updateAuntLoop]
    split
    · dsimp only
      split
      · exact ends_ok hm
      · exact hright hm _
    · split_ifs
      · exact ends_ok hm
      · refine (ih (hm.setAunt _) _).bind fun h hm => ?_
        dsimp only
        split
        · exact ends_ok hm
        · exact hright hm _

theorem updateAunt_marked (n : Addr) : Ends (·.Marked K) (updateAunt h n) :=
  updateAuntLoop_marked _ hm n

theorem transferNiece_marked (a b : Addr) : Ends (·.Marked K) (transferNiece h a b) :=
  updateAunt_marked ((hm.setNieces _ _).setNieces _ _) a

theorem takeAunt_marked (a b : Addr) : Ends (·.1.Marked K) (takeAunt h a b) := by
  have hm := hm.setAunt (a := a) (h.get b).aunt
  unfold takeAunt
  dsimp only
  split
  · exact ends_ok hm
  · exact (updateAunt_marked hm _).bind fun h hm => ends_ok hm

theorem replaceNiece_marked (a b : Addr) : Ends (·.1.Marked K) (replaceNiece h a b) := by
  unfold replaceNiece
  split
  · exact takeAunt_marked hm a b
  · split_ifs
    · exact takeAunt_marked (hm.setLNiece _) a b
    · exact takeAunt_marked (hm.setRNiece _) a b
    · exact ends_ok hm

theorem transferAunt_marked (a b : Addr) : Ends (·.1.Marked K) (transferAunt h a b) := by
  unfold transferAunt
  split
  · exact replaceNiece_marked hm a b
  · split_ifs
    · exact replaceNiece_marked (hm.setLNiece _) a b
    · exact replaceNiece_marked (hm.setRNiece _) a b
    · exact ends_ok hm

theorem moveUpNode_marked (fromNode fromNodeSib toNode : Addr) (toSib : Option Addr) :
    Ends (·.Marked K) (Pollard.moveUpNode h fromNode fromNodeSib toNode toSib) :=
  (transferAunt_marked hm _ _).bind fun _ hm => (transferNiece_marked hm _ _).bind fun _ hm =>
    ends_deref fun _ => (transferNiece_marked hm _ _).bind fun _ hm =>
      ends_deref fun _ => updateAunt_marked hm _

theorem moveUpRoot_marked (fromNode fromNodeSib toNode : Addr) :
    Ends (·.Marked K) (Pollard.moveUpRoot h fromNode fromNodeSib toNode) :=
  (transferNiece_marked (hm.set (hm fromNode)) _ _).bind fun _ hm =>
    (updateAunt_marked hm _).bind fun _ hm => ends_ok (hm.delNode _)

variable [HashOps H] (hK : ∀ a b : H, ¬ K (parentHash a b))
include hK

omit hm in
theorem hashToRootLoop_marked (fuel : Nat) :
    ∀ {h : Heap H}, h.Marked K → ∀ n, Ends (·.1.Marked K) (hashToRootLoop fuel h n) := by
  induction fuel with
  | zero => exact fun _ _ => ends_error _
  | succ fuel ih =>
    intro h hm n
    cases n with
    | none => exact ends_ok hm
    | some n =>
      rw [hashToRootLoop]
      split
      · exact ends_ok hm
      · refine ends_deref fun l => ends_deref fun r => ?_
        have hm := hm.setData (a := n) (hK (h.get l).data (h.get r).data)
        dsimp only
        split
        · exact ends_ok hm
        · exact ih hm _

end Marks

/-! ### Deleting and proving do not look at whether the Pollard is full -/

namespace Pollard
section
variable {H M : Type} [HashOps H] [DecidableEq M] [MiniHash H M] {p : Pollard H M}

abbrev withFull (full : Bool) (p : Pollard H M) : Pollard H M := { p with full := full }

variable {full : Bool}

theorem deleteRoot_withFull (del : Nat) : (p.withFull full).deleteRoot del =
    (p.deleteRoot del).map fun r => (r.1.withFull full, r.2) := by
  simp only [deleteRoot, withFull]
  cases detectOffset del p.numLeaves with
  | error e => rfl
  | ok r =>
    obtain ⟨tree, -, -⟩ := r
    dsimp only
    by_cases htree : (p.roots.length + 255) % 2 ^ 8 < tree
    · rw [if_pos htree, if_pos htree]
      rfl
    · rw [if_neg htree, if_neg htree]
      cases p.roots[tree]? <;> rfl

omit [HashOps H] in
theorem moveUp_withFull (fromNode fromNodeSib toNode : Addr) (toSib : Option Addr) :
    (p.withFull full).moveUp fromNode fromNodeSib toNode toSib =
      (p.moveUp fromNode fromNodeSib toNode toSib).map (withFull full) := by
  simp only [moveUp]
  split_ifs
  · cases moveUpNode p.heap fromNode fromNodeSib toNode toSib <;> rfl
  · cases moveUpRoot p.heap fromNode fromNodeSib toNode <;> rfl

omit [DecidableEq M] [MiniHash H M] in
theorem rehash_withFull (del : Nat) (toNode : Addr) : (p.withFull full).rehash del toNode =
    (p.rehash del toNode).map fun r => (r.1.withFull full, r.2) := by
  simp only [rehash, withFull]
  split_ifs
  · rfl
  · cases getParent p.heap toNode with
    | error e => rfl
    | ok parentNode =>
      cases parentNode with
      | none => rfl
      | some parentNode =>
        simp only [deref, Exec.ok_bind]
        cases getSibling p.heap parentNode with
        | error e => rfl
        | ok sib =>
          dsimp only
          generalize hashToRoot (p.heap.setAunt toNode _) (some parentNode) = r
          cases r <;> rfl

theorem deleteNode_withFull (del : Nat)
    (found : Except (PolErr H) (Option Addr × Option Addr × Option Addr)) :
    (p.withFull full).deleteNode del found =
      (p.deleteNode del found).map fun r => (r.1.withFull full, r.2) := by
  rcases found with e | ⟨fromNode, _ | fromNodeSib, _⟩
  · rfl
  · rfl
  · simp only [deleteNode, deref, Exec.ok_bind]
    rw [show (p.withFull full).heap = p.heap from rfl]
    rcases getParent p.heap fromNodeSib with e | _ | toNode
    · rfl
    · rfl
    · rcases fromNode with _ | fromNode
      · rfl
      · simp only [Exec.ok_bind, moveUp_withFull]
        cases p.moveUp fromNode fromNodeSib toNode (p.heap.get fromNodeSib).aunt with
        | error s => rfl
        | ok p' => exact rehash_withFull del toNode

theorem deleteSingle_withFull (del : Nat) : (p.withFull full).deleteSingle del =
    (p.deleteSingle del).map fun r => (r.1.withFull full, r.2) :=
  deleteNode_withFull del _

theorem removeLoop_withFull (dels : List Nat) : (p.withFull full).removeLoop dels =
    (p.removeLoop dels).map fun r => (r.1.withFull full, r.2) := by
  induction dels generalizing p with
  | nil => rfl
  | cons del dels ih =>
    rw [removeLoop, removeLoop, show (p.withFull full).numLeaves = p.numLeaves from rfl]
    by_cases hroot : isRootPosition del p.numLeaves = true
    · rw [if_pos hroot, if_pos hroot, deleteRoot_withFull]
      rcases p.deleteRoot del with s | ⟨p', e | _⟩
      · rfl
      · rfl
      · exact ih
    · rw [if_neg hroot, if_neg hroot, deleteSingle_withFull]
      rcases p.deleteSingle del with s | ⟨p', e | _⟩
      · rfl
      · rfl
      · exact ih

theorem remove_withFull (dels : List Nat) : (p.withFull full).remove dels =
    (p.remove dels).map fun r => (r.1.withFull full, r.2) :=
  removeLoop_withFull _

/-! ### Deleting keeps the marks -/

variable {K : H → Prop} (hK : ∀ a b : H, ¬ K (parentHash a b)) (hm : p.heap.Marked K)
include hm

theorem deleteRoot_marked (hKe : ¬ K empty) (del : Nat) :
    Ends (·.1.heap.Marked K) (p.deleteRoot del) := by
  unfold deleteRoot
  split
  · exact ends_ok hm
  · split_ifs
    · exact ends_ok hm
    · split
      · exact ends_error _
      · exact ends_ok ((((hm.clearAunt _).clearAunt _).chop.setAunt none).setData hKe)

omit [HashOps H] in
theorem moveUp_marked (fromNode fromNodeSib toNode : Addr) (toSib : Option Addr) :
    Ends (·.heap.Marked K) (p.moveUp fromNode fromNodeSib toNode toSib) := by
  unfold moveUp
  split_ifs
  · refine (moveUpNode_marked hm _ _ _ _).bind fun h hm => ends_ok ?_
    exact Heap.Marked.delNode hm (some fromNodeSib)
  · refine (moveUpRoot_marked hm _ _ _).bind fun h hm => ends_ok ?_
    exact Heap.Marked.delNode hm (some fromNodeSib)

include hK

omit [DecidableEq M] [MiniHash H M] in
theorem rehash_marked (del : Nat) (toNode : Addr) :
    Ends (·.1.heap.Marked K) (p.rehash del toNode) := by
  unfold rehash
  split_ifs
  · exact ends_ok (hm.setAunt none)
  · split
    · exact ends_ok hm
    · refine ends_deref fun parentNode => ?_
      split
      · exact ends_ok (hm.setAunt none)
      · exact (hashToRootLoop_marked hK _ (hm.setAunt _) _).bind fun r hm => ends_ok hm

theorem deleteNode_marked (del : Nat)
    (found : Except (PolErr H) (Option Addr × Option Addr × Option Addr)) :
    Ends (·.1.heap.Marked K) (p.deleteNode del found) := by
  rcases found with e | ⟨fromNode, fromNodeSib, -⟩
  · exact ends_ok hm
  · refine ends_deref fun fromNodeSib => ?_
    split
    · exact ends_ok hm
    · refine ends_deref fun toNode => ends_deref fun fromNode => ?_
      exact (moveUp_marked hm _ _ _ _).bind fun p hm => rehash_marked hK hm _ _

omit hm in
theorem removeLoop_marked (hKe : ¬ K empty) (dels : List Nat) :
    ∀ {p : Pollard H M}, p.heap.Marked K → Ends (·.1.heap.Marked K) (p.removeLoop dels) := by
  induction dels with
  | nil => exact fun hm => ends_ok hm
  | cons del dels ih =>
    intro p hm
    rw [removeLoop]
    split_ifs
    · refine (deleteRoot_marked hm hKe del).bind ?_
      rintro ⟨p', e | _⟩ hm
      · exact ends_ok hm
      · exact ih hm
    · refine (deleteNode_marked hK hm del _).bind ?_
      rintro ⟨p', e | _⟩ hm
      · exact ends_ok hm
      · exact ih hm

end

section
variable {H M : Type} [HashOps H] [DecidableEq H] [DecidableEq M] [MiniHash H M]
  {p : Pollard H M} {full : Bool}

omit [HashOps H] in
theorem targetsOf_withFull (hashes : List H) :
    (p.withFull full).targetsOf hashes = p.targetsOf hashes := by
  induction hashes with
  | nil => rfl
  | cons h hashes ih =>
    rw [targetsOf, targetsOf, ih]
    rfl

omit [DecidableEq M] [MiniHash H M] in
theorem hashesAt_withFull (positions : List Nat) :
    (p.withFull full).hashesAt positions = p.hashesAt positions := by
  induction positions with
  | nil => rfl
  | cons pos positions ih =>
    rw [hashesAt, hashesAt, ih]
    rfl

theorem prove_withFull (hashes : List H) : (p.withFull full).prove hashes = p.prove hashes := by
  simp only [prove, targetsOf_withFull, hashesAt_withFull]

end
end Pollard

section Pollard
variable {H M : Type} [DecidableEq H] [HashOps H] [DecidableEq M] [MiniHash H M]
  {q : Pollard H M}

/-! ### One block -/

/-- **The pruned Pollard is the forest of the leaves as well**, and it finds the leaves in `K`. -/
structure Pollard.Tracks (K : H → Prop) (q : Pollard H M) (slots : List (Option H)) : Prop where
  pruned : q.full = false
  forest : (q.withFull true).RepresentsOn (fun k => ∃ x, K x ∧ mini x = k) slots
  marked : q.heap.Marked K

section Block
variable {K : H → Prop} {slots : List (Option H)} {b : PolBlock H}
  (hK : ∀ a b : H, ¬ K (parentHash a b))
include hK

theorem Pollard.Tracks.remove (hKe : ¬ K empty) (hq : q.Tracks K slots) (hb : b.Plain slots) :
    ∃ q', (q.deleteFromMap b.dels).remove b.proof.targets = .ok (q', .ok ()) ∧
      Pollard.Tracks K { q' with numDels := add64 q'.numDels b.proof.targets.length }
        (delSlots slots b.dels) := by
  obtain ⟨p', hrun, hp'⟩ := hq.forest.remove hb
  have hfull : ((q.deleteFromMap b.dels).withFull true).remove b.proof.targets =
    .ok (p', .ok ()) := hrun
  have hpruned : ((q.deleteFromMap b.dels).withFull false).remove b.proof.targets = _ :=
    Pollard.remove_withFull _
  rw [show (q.deleteFromMap b.dels).withFull false = q.deleteFromMap b.dels by
    rw [← hq.pruned]; rfl] at hpruned
  rw [Pollard.remove_withFull] at hfull
  cases hq' : (q.deleteFromMap b.dels).remove b.proof.targets with
  | error s => rw [hq'] at hfull; cases hfull
  | ok r =>
    obtain ⟨q', res⟩ := r
    rw [hq'] at hfull hpruned
    obtain ⟨rfl, rfl⟩ := Prod.mk.inj (Except.ok.inj hfull)
    refine ⟨q', rfl, ?_, hp', ?_⟩
    · exact congrArg (·.1.full) (Except.ok.inj hpruned)
    · exact Pollard.removeLoop_marked (p := q.deleteFromMap b.dels) hK hKe _ hq.marked _ hq'

theorem Pollard.Tracks.add (hi : ∀ a b : H, parentHash a b ≠ empty) (hq : q.Tracks K slots)
    {adds : List (Leaf H)} (hplain : PlainLeaves (slots ++ adds.map fun l => some l.hash))
    (hkeys : MiniOk (fun k : M => ∃ x, K x ∧ mini x = k) (slots ++ adds.map fun l => some l.hash))
    (hkept : LeavesKept K slots (adds.map Leaf.hash))
    (hrem : ∀ l ∈ adds, ∀ x, K x → mini x = mini (M := M) l.hash → l.remember = true) :
    ∃ q', q.add adds = .ok q' ∧ q'.Tracks K (slots ++ adds.map fun l => some l.hash) := by
  obtain ⟨F, hF⟩ := hq.forest.holds
  have hlen := hplain.counted
  rw [List.length_append, List.length_map] at hlen
  have hall := liveLeaves_added slots adds
  obtain ⟨q', F', hrun, hq', hd, hf, hm⟩ := Pollard.add_kept hi hK (fun x hx => ⟨x, hx, rfl⟩) adds
    hF (Or.inr ⟨hq.marked, hkept⟩)
    (fun l hl ⟨x, hx, hkey⟩ => Bool.or_eq_true_iff.mpr (Or.inl (hrem l hl x hx hkey)))
    (fun x hx => hplain.ne_empty x (by rwa [hall])) (by omega) (by rw [← hall]; exact hkeys.leaves)
  have hpruned := hf.trans hq.pruned
  refine ⟨q', hrun, hpruned, ⟨⟨F', hq'⟩, hplain, hkeys, ?_⟩, hm.resolve_left (by simp [hpruned])⟩
  have hdels : q.numDels + (liveLeaves slots).length = slots.length := hq.forest.numDels
  show q'.numDels + _ = _
  rw [hd, hall, List.length_append, List.length_append, List.length_map, List.length_map]
  omega

/-- **`modify` on the pruned Pollard.** -/
theorem Pollard.Tracks.modify (hi : ∀ a b : H, parentHash a b ≠ empty) (hKe : ¬ K empty)
    (hq : q.Tracks K slots) (hb : b.Honest M slots)
    (hkept : LeavesKept K (delSlots slots b.dels) (b.adds.map Leaf.hash))
    (hrem : ∀ l ∈ b.adds, ∀ x, K x → mini x = mini (M := M) l.hash → l.remember = true) :
    ∃ q', q.modify b.adds b.dels b.proof = .ok (q', .ok ()) ∧
      q'.Tracks K (applyBlock slots b.block) := by
  have hplain := hb.plain.leaves
  have hkeys : MiniOk (fun k : M => ∃ x, K x ∧ mini x = k) (applyBlock slots b.block) :=
    hb.leaves.miniOk.mono fun _ _ => trivial
  rw [applyBlock_eq] at hplain hkeys ⊢
  obtain ⟨q1, hrun1, hq1⟩ := hq.remove hK hKe hb.plain
  obtain ⟨q2, hrun2, hq2⟩ := hq1.add hK hi hplain hkeys hkept hrem
  refine ⟨q2, ?_, hq2⟩
  rw [Pollard.modify, hrun1, Exec.ok_bind]
  simp only [hrun2, Exec.ok_bind]

end Block

/-! ### Whole runs -/

/-- No merge of the run lets `prune` drop a node. -/
def RunKept (K : H → Prop) (slots : List (Option H)) : List (PolBlock H) → Prop
  | [] => True
  | b :: bs => LeavesKept K (delSlots slots b.dels) (b.adds.map Leaf.hash) ∧
      RunKept K (applyBlock slots b.block) bs

/-- A leaf that the run adds.  It, and any other one with its key, is to be remembered. -/
def Remembered (M : Type) [DecidableEq M] [MiniHash H M] (bs : List (PolBlock H)) (x : H) : Prop :=
  (∃ b ∈ bs, ∃ l ∈ b.adds, l.hash = x) ∧
    ∀ b ∈ bs, ∀ l ∈ b.adds, mini (M := M) l.hash = mini x → l.remember = true

instance (bs : List (PolBlock H)) : DecidablePred (Remembered M bs) :=
  fun _ => inferInstanceAs (Decidable (_ ∧ _))

section
variable {K : H → Prop} [DecidablePred K]

instance MergeKept.decidable : ∀ T N : CTree H, Decidable (MergeKept K T N)
  | .leaf _, .leaf _ => inferInstanceAs (Decidable (_ ∨ _))
  | .leaf x, .node _ _ => inferInstanceAs (Decidable (K x))
  | .node _ _, .leaf y => inferInstanceAs (Decidable (K y))
  | .node _ _, .node _ _ => isTrue trivial

instance (slots : List (Option H)) (a : H) : Decidable (LeafKept K slots a) :=
  inferInstanceAs (Decidable (∀ h < 64, slots.length % 2 ^ (h + 1) = 2 ^ (h + 1) - 1 →
    ∀ T ∈ rootTree slots h, ∀ N ∈ grownTree slots a h, MergeKept K T N))

instance LeavesKept.decidable :
    ∀ (adds : List H) (slots : List (Option H)), Decidable (LeavesKept K slots adds)
  | [], _ => isTrue trivial
  | a :: adds, slots =>
    have := LeavesKept.decidable adds (slots ++ [some a])
    inferInstanceAs (Decidable (_ ∧ _))

instance RunKept.decidable :
    ∀ (bs : List (PolBlock H)) (slots : List (Option H)), Decidable (RunKept K slots bs)
  | [], _ => isTrue trivial
  | b :: bs, slots =>
    have := RunKept.decidable bs (applyBlock slots b.block)
    inferInstanceAs (Decidable (_ ∧ _))

end

section Run
variable {K : H → Prop} {slots : List (Option H)} {bs : List (PolBlock H)}

omit [HashOps H] in
theorem RunKept.take (h : RunKept K slots bs) (k : Nat) : RunKept K slots (bs.take k) := by
  induction bs generalizing slots k with
  | nil => simpa using h
  | cons b bs ih =>
    cases k with
    | zero => trivial
    | succ k => exact ⟨h.1, ih h.2 k⟩

omit [DecidableEq M] in
theorem HonestRun.take (h : HonestRun M slots bs) (k : Nat) : HonestRun M slots (bs.take k) := by
  induction bs generalizing slots k with
  | nil => simpa using h
  | cons b bs ih =>
    cases k with
    | zero => trivial
    | succ k => exact ⟨h.1, ih h.2 k⟩

omit [DecidableEq M] in
theorem HonestRun.added (h : HonestRun M slots bs) : ∀ b ∈ bs, ∀ l ∈ b.adds, LeafHash M l.hash := by
  induction bs generalizing slots with
  | nil => exact fun _ hb => absurd hb List.not_mem_nil
  | cons b bs ih =>
    refine List.forall_mem_cons.mpr ⟨fun l hl => h.1.leaves.isLeaf _ ?_, ih h.2⟩
    rw [applyBlock_eq, liveLeaves_added]
    exact List.mem_append_right _ (List.mem_map_of_mem hl)

theorem Pollard.Tracks.modifyAll (hK : ∀ a b : H, ¬ K (parentHash a b))
    (hi : ∀ a b : H, parentHash a b ≠ empty) (hKe : ¬ K empty) (hq : q.Tracks K slots)
    (hbs : HonestRun M slots bs) (hkept : RunKept K slots bs)
    (hrem : ∀ b ∈ bs, ∀ l ∈ b.adds, ∀ x, K x → mini x = mini (M := M) l.hash →
      l.remember = true) :
    ∃ q', q.modifyAll bs = .ok (q', .ok ()) ∧
      q'.Tracks K ((bs.map PolBlock.block).foldl applyBlock slots) := by
  induction bs generalizing q slots with
  | nil => exact ⟨q, rfl, hq⟩
  | cons b bs ih =>
    obtain ⟨q1, hrun1, hq1⟩ := hq.modify hK hi hKe hbs.1 hkept.1 (hrem b List.mem_cons_self)
    obtain ⟨q2, hrun2, hq2⟩ := ih hq1 hbs.2 hkept.2
      (fun b hb => hrem b (List.mem_cons_of_mem _ hb))
    refine ⟨q2, ?_, hq2⟩
    rw [Pollard.modifyAll, hrun1]
    exact hrun2

end Run
end Pollard

/-- Four leaves, the first and the last to be remembered.  The first is deleted, and of two more
the last is to be remembered. -/
def halfRemembered : List (PolBlock FreeHash) :=
  [⟨[⟨.leaf 0, true⟩, ⟨.leaf 1, false⟩, ⟨.leaf 2, false⟩, ⟨.leaf 3, true⟩], [], ⟨[], []⟩⟩,
    ⟨[⟨.leaf 4, false⟩, ⟨.leaf 5, true⟩], [.leaf 0], ⟨[0], []⟩⟩]

theorem halfRemembered_honest : HonestRun FreeHash [] halfRemembered :=
  ⟨⟨.nil, by decide, FreeHash.leavesFine (by decide) (by decide) (by decide)⟩,
    ⟨.cons ⟨⟨0, 0⟩, by decide, by decide⟩ .nil, by decide,
      FreeHash.leavesFine (by decide) (by decide) (by decide)⟩, trivial⟩

/-- Four leaves, of which only the first is to be remembered, and it is deleted. -/
def firstRemembered : List (PolBlock FreeHash) :=
  [⟨[⟨.leaf 0, true⟩, ⟨.leaf 1, false⟩, ⟨.leaf 2, false⟩, ⟨.leaf 3, false⟩], [], ⟨[], []⟩⟩,
    ⟨[], [.leaf 0], ⟨[0], []⟩⟩]

theorem firstRemembered_honest : HonestRun FreeHash [] firstRemembered :=
  ⟨⟨.nil, by decide, FreeHash.leavesFine (by decide) (by decide) (by decide)⟩,
    ⟨.cons ⟨⟨0, 0⟩, by decide, by decide⟩ .nil, by decide,
      FreeHash.leavesFine (by decide) (by decide) (by decide)⟩, trivial⟩

end Utreexo
