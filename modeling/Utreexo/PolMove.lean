import Utreexo.PollardRep

/-! # Moving a node up

What deleting a node does to the tree around it: the sibling of the deleted node takes
the place of their parent.  The pointers of the two nodes that leave the tree no longer
matter, so that the specs only say what holds in the new context.
-/
namespace Utreexo
open Merkle

section
variable {H : Type} {h : Heap H}

/-! ### Removing a node -/

theorem forgetNiece_eq_self {n : Addr}
    (hn : ∀ b, (h.get n).aunt = some b → (h.get b).lNiece ≠ some n ∧ (h.get b).rNiece ≠ some n) :
    forgetNiece h n = h := by
  rw [forgetNiece]
  rcases haunt : (h.get n).aunt with _ | b
  · rfl
  · simp [hn b haunt]

theorem keeps_clearAunt (h : Heap H) (v : Option Addr) :
    Keeps [] v.toList [] h (h.clearAunt v) := by
  rcases v with _ | l
  · exact Keeps.refl h
  · exact keeps_setAunt h l none

/-- A node that its aunt does not know. -/
theorem delNode_spec {n : Addr}
    (hn : ∀ b, (h.get n).aunt = some b → (h.get b).lNiece ≠ some n ∧ (h.get b).rNiece ≠ some n) :
    Keeps [n] (n :: ((h.get n).lNiece.toList ++ (h.get n).rNiece.toList)) [] h
      (delNode h (some n)) := by
  rw [delNode, forgetNiece_eq_self hn]
  have k1 := keeps_setAunt h n none
  have k2 := k1.trans (keeps_clearAunt (h.setAunt n none) ((h.setAunt n none).get n).lNiece)
  have k3 := k2.trans (keeps_setLNiece _ n none)
  have hr := (setLNiece_self ((h.setAunt n none).clearAunt ((h.setAunt n none).get n).lNiece)
    n none).2
  refine ((k3.trans (keeps_clearAunt _ _)).trans (keeps_setRNiece _ n none)).mono (by simp) ?_
    (by simp)
  rw [hr, k2.rNiece n (by simp), k1.lNiece n (by simp)]
  intro b hb
  simpa using hb

/-! ### Changing the aunt -/

theorem updateAunt_of_pair {o x y : Addr} {right : Bool} (hp : Pair h o right x y)
    (hx : (h.get x).aunt = some o) (hy : (h.get y).aunt = some o) : updateAunt h o = .ok h := by
  rw [updateAunt, updateAuntLoop]
  rcases right with _ | _
  · simp [hp.1, hx]
  · simp [hp.1, hy]

/-- The pointer of `c` to its niece `a` is cleared. -/
theorem transferAunt_clear {a b c x : Addr} {right : Bool} (hold : Pair h c right a x)
    (ha : (h.get a).aunt = some c) (hxa : x ≠ a) :
    ∃ h', transferAunt h a b = replaceNiece h' a b ∧ Keeps [c] [] [] h h' := by
  obtain ⟨hl, hr⟩ := hold
  rw [transferAunt, ha]
  rcases right with _ | _
  · refine ⟨h.setLNiece c none, ?_, keeps_setLNiece _ _ _⟩
    simp at hl
    simp [hl]
  · refine ⟨h.setRNiece c none, ?_, keeps_setRNiece _ _ _⟩
    simp at hl hr
    simp [hl, hr, hxa]

theorem replaceNiece_spec {a b o y : Addr} {right : Bool} (hp : Pair h o right b y)
    (hb : (h.get b).aunt = some o) (hy : (h.get y).aunt = some o) (hyb : y ≠ b) (hay : a ≠ y) :
    ∃ h', replaceNiece h a b = .ok (h', .ok ()) ∧ Pair h' o right a y ∧
      (h'.get a).aunt = some o ∧ Keeps [o] [a] [] h h' := by
  obtain ⟨h1, hrun, hp1, k1⟩ : ∃ h1, replaceNiece h a b = takeAunt h1 a b ∧
      Pair h1 o right a y ∧ Keeps [o] [] [] h h1 := by
    obtain ⟨hl, hr⟩ := hp
    rw [replaceNiece, hb]
    rcases right with _ | _
    · refine ⟨h.setLNiece o (some a), ?_, ⟨?_, ?_⟩, keeps_setLNiece _ _ _⟩
      · simp at hl
        simp [hl]
      · simp
      · simpa using hr
    · refine ⟨h.setRNiece o (some a), ?_, ⟨?_, ?_⟩, keeps_setRNiece _ _ _⟩
      · simp at hl hr
        simp [hl, hr, hyb]
      · simpa using hl
      · simp
  have k2 : Keeps [] [a] [] h1 (h1.setAunt a (some o)) := keeps_setAunt _ _ _
  have hself : ((h1.setAunt a (some o)).get a).aunt = some o := setAunt_self _ _ _
  have hp2 : Pair (h1.setAunt a (some o)) o right a y := by
    rwa [Pair, k2.lNiece o (by simp), k2.rNiece o (by simp)]
  have hup := updateAunt_of_pair hp2 hself
    (by rw [k2.aunt y (by simpa using hay.symm), k1.aunt y (by simp), hy])
  refine ⟨h1.setAunt a (some o), ?_, hp2, hself, (k1.trans k2).mono (by simp) (by simp) (by simp)⟩
  rw [hrun, takeAunt]
  simp only [k1.aunt b (by simp), hb, hself, hup, Exec.ok_bind]

/-- `a` takes the place of `b` among the nieces of its aunt. -/
theorem transferAunt_spec {a b c o x y : Addr} {side side' : Bool} (hold : Pair h c side a x)
    (ha : (h.get a).aunt = some c) (hp : Pair h o side' b y) (hb : (h.get b).aunt = some o)
    (hy : (h.get y).aunt = some o) (hxa : x ≠ a) (hyb : y ≠ b) (hay : a ≠ y) (hco : c ≠ o) :
    ∃ h', transferAunt h a b = .ok (h', .ok ()) ∧ Pair h' o side' a y ∧
      (h'.get a).aunt = some o ∧ Keeps [c, o] [a] [] h h' := by
  obtain ⟨h1, hrun, k1⟩ := transferAunt_clear hold ha hxa
  have hp1 : Pair h1 o side' b y := by
    rwa [Pair, k1.lNiece o (by simpa using hco.symm), k1.rNiece o (by simpa using hco.symm)]
  obtain ⟨h2, hrun2, hp2, haunt, k2⟩ := replaceNiece_spec hp1
    (by rwa [k1.aunt b (by simp)]) (by rwa [k1.aunt y (by simp)]) hyb hay
  exact ⟨h2, hrun.trans hrun2, hp2, haunt, (k1.trans k2).mono (by simp) (by simp) (by simp)⟩

/-! ### The nodes around a place -/

theorem owner_mem (fs : List (Frame H)) (a : Addr) : owner fs a ∈ a :: ctxAddrs fs := by
  cases fs with
  | nil => simp
  | cons f fs => simp [ctxAddrs, f.sib.addr_mem]

theorem ctxN_subset (fs : List (Frame H)) (a : Addr) : ∀ b ∈ ctxN fs a, b ∈ a :: ctxAddrs fs := by
  induction fs generalizing a with
  | nil => simp [ctxN]
  | cons f fs ih =>
    intro b hb
    simp only [ctxN, List.mem_cons, List.mem_append] at hb
    simp only [ctxAddrs, List.mem_cons, List.mem_append]
    rcases hb with rfl | rfl | hb | hb
    · have := owner_mem fs f.addr
      simp only [List.mem_cons] at this
      tauto
    · exact Or.inl rfl
    · exact Or.inr (Or.inr (Or.inl (PTree.mem_addrs_of_desc hb)))
    · have := ih f.addr b hb
      simp only [List.mem_cons] at this
      tauto

theorem ctxA_subset (fs : List (Frame H)) (a : Addr) : ∀ b ∈ ctxA fs a, b ∈ a :: ctxAddrs fs := by
  induction fs generalizing a with
  | nil => simp [ctxA]
  | cons f fs ih =>
    intro b hb
    simp only [ctxA, List.mem_cons, List.mem_append] at hb
    simp only [ctxAddrs, List.mem_cons, List.mem_append]
    rcases hb with rfl | hb | hb
    · exact Or.inl rfl
    · exact Or.inr (Or.inr (Or.inl hb))
    · have := ih f.addr b hb
      simp only [List.mem_cons] at this
      tauto

/-- The nieces of the owner are not part of the context. -/
theorem owner_not_mem_ctxN {fs : List (Frame H)} {a : Addr} (hnd : (a :: ctxAddrs fs).Nodup) :
    owner fs a ∉ ctxN fs a := by
  cases fs with
  | nil => simp [ctxN]
  | cons f fs =>
    have ho := owner_mem fs f.addr
    have hs := ctxN_subset fs f.addr
    have hmem := f.sib.addr_mem
    simp only [ctxAddrs, PTree.addrs_eq, List.nodup_cons, List.nodup_append, List.mem_cons,
      List.mem_append, List.cons_append] at hnd ho hs
    simp only [owner_cons, ctxN, List.mem_cons, List.mem_append]
    grind

/-! ### Taking the place of the parent -/

/-- The nodes that `moveUpNode` touches, and those around them. -/
theorem nodup_around {t : PTree H} {f g : Frame H} {gs : List (Frame H)}
    (hnd : (t.addrs ++ ctxAddrs (f :: g :: gs)).Nodup) :
    [t.addr, f.addr, f.sib.addr, g.sib.addr].Nodup ∧
    (∀ b ∈ t.desc, b ∉ [t.addr, f.addr, f.sib.addr, g.sib.addr] ∧ b ∉ g.sib.desc ∧
      b ∉ g.addr :: ctxAddrs gs) ∧
    (∀ b ∈ g.sib.desc, b ∉ [t.addr, f.addr, f.sib.addr, g.sib.addr] ∧ b ∉ t.desc ∧
      b ∉ g.addr :: ctxAddrs gs) ∧
    (∀ b ∈ g.addr :: ctxAddrs gs, b ∉ [t.addr, f.addr, f.sib.addr, g.sib.addr] ∧ b ∉ t.desc ∧
      b ∉ g.sib.desc) ∧ t.desc.Nodup ∧ g.sib.desc.Nodup := by
  simp only [ctxAddrs, PTree.addrs_eq, List.nodup_cons, List.nodup_append, List.mem_cons,
    List.mem_append, List.cons_append] at hnd
  simp only [List.nodup_cons, List.mem_cons, List.not_mem_nil, or_false]
  refine ⟨?_, ?_, ?_, ?_, ?_, ?_⟩ <;> grind

theorem moveUpNode_spec {t : PTree H} {f g : Frame H} {gs : List (Frame H)} (hpos : 0 < h.next)
    (hc : CtxLinks h (f :: g :: gs) t.addr) (hl : Links h f.sib.addr t)
    (hnd : (t.addrs ++ ctxAddrs (f :: g :: gs)).Nodup) :
    ∃ h', Pollard.moveUpNode h t.addr f.sib.addr f.addr (some g.sib.addr) = .ok h' ∧
      CtxLinks h' (g :: gs) t.addr ∧ Links h' g.sib.addr t ∧
      (h'.get f.addr).aunt = (h'.get t.addr).aunt ∧
      ((h'.get f.sib.addr).lNiece = none ∧ (h'.get f.sib.addr).rNiece = none) ∧
      (h'.get f.sib.addr).aunt = some g.sib.addr ∧
      Keeps [g.sib.addr, owner gs g.addr, t.addr, f.addr, f.sib.addr]
        (t.addr :: (g.sib.kids ++ t.kids)) [] h h' := by
  obtain ⟨hpair, ⟨haunt, haunt'⟩, hlsib, hpair2, ⟨haunt2, haunt2'⟩, hlsib2, hctx⟩ := hc
  rw [owner_cons] at hpair haunt haunt'
  obtain ⟨hnodes, ht, hs, hx, hndt, hnds⟩ := nodup_around hnd
  have hown := hx _ (owner_mem gs g.addr)
  have hownN : owner gs g.addr ∉ ctxN gs g.addr := by
    refine owner_not_mem_ctxN ?_
    simp only [ctxAddrs, List.nodup_cons, List.nodup_append, List.mem_append] at hnd ⊢
    tauto
  have hN := fun b hb => hx b (ctxN_subset gs g.addr b hb)
  have hA := fun b hb => hx b (ctxA_subset gs g.addr b hb)
  have hsk := g.sib.kids_subset
  have htk := t.kids_subset
  simp only [List.nodup_cons, List.mem_cons, List.not_mem_nil, or_false, not_or] at hnodes hown hN
  clear hnd hx
  obtain ⟨h1, hrun1, hp1, ha1, k1⟩ := transferAunt_spec hpair haunt hpair2 haunt2 haunt2'
    (by grind) (by grind) (by grind) (by grind)
  have hs1 : Links h1 f.addr g.sib := k1.links (by grind) (by grind) (by grind) hlsib2
  have hl1 : Links h1 f.sib.addr t := k1.links (by grind) (by grind) (by grind) hl
  have hc1 : CtxLinks h1 gs g.addr := k1.ctx (by grind) (by grind) hctx
  -- The parent gives its nieces, the children of `g.sib`, to the node.
  obtain ⟨h2, hrun2, hs2, -, k2⟩ := transferNiece_spec (k1.pos hpos) hs1
    (show t.addr ≠ f.addr by grind) (by grind) (by grind) (by grind)
  have hl2 : Links h2 f.sib.addr t := k2.links (by grind) (by grind) (by grind) hl1
  have hc2 : CtxLinks h2 gs g.addr := k2.ctx (by grind) (by grind) hc1
  -- The deleted node gives its nieces, the children of the node, to `g.sib`.
  obtain ⟨h3, hrun3, hl3, hnone, k3⟩ := transferNiece_spec ((k1.trans k2).pos hpos) hl2
    (show g.sib.addr ≠ f.sib.addr by grind) (by grind) (by grind) (by grind)
  have hs3 : Links h3 t.addr g.sib := k3.links (by grind) (by grind) (by grind) hs2
  have hc3 : CtxLinks h3 gs g.addr := k3.ctx (by grind) (by grind) hc2
  have k := k1.trans (k2.trans k3)
  have hp3 : Pair h3 (owner gs g.addr) g.right t.addr g.sib.addr := by
    rwa [Pair, (k2.trans k3).lNiece _ (by grind), (k2.trans k3).rNiece _ (by grind)]
  have ht3 : (h3.get t.addr).aunt = some (owner gs g.addr) := by
    rwa [(k2.trans k3).aunt _ (by grind)]
  have hg3 : (h3.get g.sib.addr).aunt = some (owner gs g.addr) := by
    rwa [k.aunt _ (by grind)]
  have hf3 : (h3.get f.addr).aunt = some (owner gs g.addr) := by
    rwa [k.aunt _ (by grind)]
  refine ⟨h3, ?_, ⟨hp3, ⟨ht3, hg3⟩, hs3, hc3⟩, hl3, hf3.trans ht3.symm, hnone, ?_,
    k.mono (by simp) (by simp) (by simp)⟩
  · rw [Pollard.moveUpNode, hrun1, Exec.ok_bind]
    simp only [hrun2, Exec.ok_bind, deref, hrun3, hf3, updateAunt_of_pair hp3 ht3 hg3]
  · rwa [k.aunt _ (by grind)]

theorem Links.kids {o : Addr} {t : PTree H} (hl : Links h o t) :
    (h.get o).lNiece.toList ++ (h.get o).rNiece.toList = t.kids := by
  cases t with
  | leaf a x => rw [hl.1, hl.2]; rfl
  | node a l r => rw [hl.1.1, hl.1.2]; rfl

/-- Only children are nieces of the owner. -/
theorem Links.not_niece {o b : Addr} {t : PTree H} (hl : Links h o t) (hb : b ∉ t.kids) :
    (h.get o).lNiece ≠ some b ∧ (h.get o).rNiece ≠ some b := by
  rw [← hl.kids] at hb
  constructor <;> intro he <;> simp [he] at hb

theorem moveUpRoot_spec {t : PTree H} {f : Frame H} (hpos : 0 < h.next)
    (hc : CtxLinks h [f] t.addr) (hl : Links h f.sib.addr t)
    (hnd : (t.addrs ++ ctxAddrs [f]).Nodup) :
    ∃ h', Pollard.moveUpRoot h t.addr f.sib.addr f.addr = .ok h' ∧ Links h' f.addr t ∧
      (h'.get f.addr).data = (h.get t.addr).data ∧
      ((h'.get f.sib.addr).lNiece = none ∧ (h'.get f.sib.addr).rNiece = none) ∧
      (h'.get f.sib.addr).aunt = some f.addr ∧
      Keeps [f.addr, f.sib.addr, t.addr] (f.addr :: t.addr :: (t.kids ++ f.sib.kids)) [f.addr]
        h h' := by
  obtain ⟨hpair, ⟨haunt, haunt'⟩, hlsib, hroot⟩ := hc
  rw [owner_nil] at hpair haunt haunt'
  have hsk := f.sib.kids_subset
  have htk := t.kids_subset
  simp only [ctxAddrs, PTree.addrs_eq, List.nodup_cons, List.nodup_append, List.mem_cons,
    List.mem_append, List.cons_append, List.append_nil] at hnd
  have k1 : Keeps [f.addr] [f.addr] [f.addr] h (h.set f.addr (h.get t.addr)) := keeps_set _ _ _
  have hdata : ((h.set f.addr (h.get t.addr)).get f.addr).data = (h.get t.addr).data := by
    rw [get_set, if_pos rfl]
  set h1 := h.set f.addr (h.get t.addr) with h1_def
  have hl1 : Links h1 f.sib.addr t := k1.links (by grind) (by grind) (by grind) hl
  obtain ⟨h2, hrun2, hl2, hnone, k2⟩ := transferNiece_spec (k1.pos hpos) hl1
    (show f.addr ≠ f.sib.addr by grind) (by grind) (by grind) (by grind)
  -- The node is no longer a niece of the root, and its own nieces are those it had.
  have haunt2 : (h2.get t.addr).aunt = some f.addr := by
    rwa [(k1.trans k2).aunt _ (by grind)]
  have hnieces : (h2.get t.addr).lNiece.toList ++ (h2.get t.addr).rNiece.toList = f.sib.kids := by
    rw [(k1.trans k2).lNiece _ (by grind), (k1.trans k2).rNiece _ (by grind), hlsib.kids]
  have k3 := delNode_spec (h := h2) (n := t.addr) (by
    intro b hb
    obtain rfl : f.addr = b := Option.some.inj (haunt2.symm.trans hb)
    exact hl2.not_niece (by grind))
  rw [hnieces] at k3
  refine ⟨delNode h2 (some t.addr), ?_, k3.links (by grind) (by grind) (by grind) hl2, ?_, ?_, ?_,
    (k1.trans (k2.trans k3)).mono ?_ ?_ (by simp)⟩
  · rw [Pollard.moveUpRoot]
    simp only [← h1_def, hrun2, Exec.ok_bind, updateAunt_of_links hl2]
  · rw [k3.data _ (by simp), k2.data _ (by simp), hdata]
  · rwa [k3.lNiece _ (by grind), k3.rNiece _ (by grind)]
  · rwa [(k1.trans (k2.trans k3)).aunt _ (by grind)]
  · intro b hb
    simp at hb ⊢
    tauto
  · intro b hb
    simp at hb ⊢
    tauto

/-! ### Emptying a root -/

/-- The children of a node that leaves the forest. -/
theorem emptyRoot_children {a : Addr} {l r : PTree H} (hl : Links h a (.node a l r))
    (hnd : (PTree.node a l r).addrs.Nodup) :
    ∃ h', chop ((h.setAunt l.addr none).setAunt r.addr none) a = h'.setNieces a none none ∧
      Keeps (l.addrs ++ r.addrs) (l.addrs ++ r.addrs) [] h h' := by
  obtain ⟨⟨hl1, hr1⟩, -, hll, hlr⟩ := hl
  have hlk := l.kids_subset
  have hrk := r.kids_subset
  simp only [PTree.addrs, PTree.addrs_eq, List.nodup_cons, List.nodup_append, List.mem_cons,
    List.mem_append, List.cons_append] at hnd
  set h1 := (h.setAunt l.addr none).setAunt r.addr none with h1_def
  have k1 : Keeps [] [l.addr, r.addr] [] h h1 :=
    ((keeps_setAunt h l.addr none).trans (keeps_setAunt _ r.addr none)).mono
      (by simp) (by simp) (by simp)
  have hal : (h1.get l.addr).aunt = none := by
    rw [h1_def, (keeps_setAunt _ r.addr none).aunt _ (by grind), setAunt_self]
  have har : (h1.get r.addr).aunt = none := by rw [h1_def, setAunt_self]
  -- Neither child has an aunt any more; the nieces of each are the children of the other.
  have k2 := delNode_spec (h := h1) (n := l.addr) (by simp [hal])
  rw [k1.lNiece _ (by simp), k1.rNiece _ (by simp), hlr.kids] at k2
  have har2 : ((delNode h1 (some l.addr)).get r.addr).aunt = none := by
    rw [k2.aunt _ (by grind), har]
  have k3 := delNode_spec (h := delNode h1 (some l.addr)) (n := r.addr) (by simp [har2])
  rw [(k1.trans k2).lNiece _ (by grind), (k1.trans k2).rNiece _ (by grind), hll.kids] at k3
  refine ⟨delNode (delNode h1 (some l.addr)) (some r.addr), ?_,
    (k1.trans (k2.trans k3)).mono ?_ ?_ (by simp)⟩
  · have h2 : (h1.get a).lNiece = some l.addr := by rw [k1.lNiece _ (by simp), hl1]
    have h3 : ((delNode h1 (some l.addr)).get a).rNiece = some r.addr := by
      rw [(k1.trans k2).rNiece _ (by grind), hr1]
    simp only [chop, h2, h3]
  · intro b hb
    simp only [PTree.addrs_eq, List.mem_append, List.mem_cons] at hb ⊢
    grind
  · intro b hb
    simp only [PTree.addrs_eq, List.mem_append, List.mem_cons] at hb ⊢
    grind

theorem emptyRoot_spec [HashOps H] {t : PTree H} (hr : Rooted h t) (hnd : t.addrs.Nodup) :
    RootOk (Pollard.emptyRoot h t.addr) (.vacant t.addr) ∧
      Keeps t.addrs t.addrs t.addrs h (Pollard.emptyRoot h t.addr) := by
  obtain ⟨h1, hrun, k1⟩ : ∃ h1, Pollard.emptyRoot h t.addr =
      ((h1.setNieces t.addr none none).setAunt t.addr none).setData t.addr empty ∧
      Keeps t.desc t.desc [] h h1 := by
    obtain ⟨-, hl⟩ := hr
    cases t with
    | leaf a x =>
      obtain ⟨h1, h2⟩ : (h.get a).lNiece = none ∧ (h.get a).rNiece = none := hl
      refine ⟨h, ?_, (Keeps.refl h).mono (by simp) (by simp) (by simp)⟩
      simp only [Pollard.emptyRoot, PTree.addr, h1, Heap.clearAunt, h2, chop, delNode]
    | node a l r =>
      obtain ⟨h1, hrun, k1⟩ := emptyRoot_children (a := a) hl hnd
      refine ⟨h1, ?_, k1⟩
      have hn : (h.get a).lNiece = some l.addr ∧ (h.get a).rNiece = some r.addr := hl.1
      have hr1 : ((h.setAunt l.addr none).get a).rNiece = some r.addr := by
        rw [(keeps_setAunt h l.addr none).rNiece _ (by simp), hn.2]
      show Pollard.emptyRoot h a = ((h1.setNieces a none none).setAunt a none).setData a empty
      simp only [Pollard.emptyRoot, hn.1, Heap.clearAunt, hr1, hrun]
  have k2 := keeps_setNieces h1 t.addr none none
  have k3 := keeps_setAunt (h1.setNieces t.addr none none) t.addr none
  have k4 := keeps_setData ((h1.setNieces t.addr none none).setAunt t.addr none) t.addr empty
  rw [hrun]
  refine ⟨⟨?_, ?_, setData_self _ _ _⟩, ((k1.trans (k2.trans (k3.trans k4)))).mono ?_ ?_ ?_⟩
  · rw [k4.lNiece _ (by simp), k4.rNiece _ (by simp), k3.lNiece _ (by simp),
      k3.rNiece _ (by simp)]
    exact setNieces_self _ _ _ _
  · rw [k4.aunt _ (by simp), setAunt_self]
  all_goals
    intro b hb
    simp only [PTree.addrs_eq, List.mem_append, List.mem_cons] at hb ⊢
    grind

end

end Utreexo
