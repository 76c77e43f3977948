import Utreexo.PolMove
import Utreexo.PollardUndo

/-! # Moving a node down

What putting a deleted subtree back does to the tree around it: a new node takes the
place of the sibling, which becomes a child of it together with the subtree.
-/
namespace Utreexo
open Merkle

section
variable {H : Type} {h : Heap H}

/-! ### Below a root -/

/-- The nodes that `moveDownNode` touches, and those around them. -/
theorem nodup_beside {b : Addr} {t u : PTree H} {g : Frame H} {gs : List (Frame H)}
    (hnd : (b :: (t.addrs ++ (u.addrs ++ ctxAddrs (g :: gs)))).Nodup) :
    [b, t.addr, u.addr, g.sib.addr].Nodup ∧
    (∀ c ∈ t.desc, c ∉ [b, t.addr, u.addr, g.sib.addr] ∧ c ∉ u.desc ∧ c ∉ g.sib.desc ∧
      c ∉ g.addr :: ctxAddrs gs) ∧
    (∀ c ∈ u.desc, c ∉ [b, t.addr, u.addr, g.sib.addr] ∧ c ∉ t.desc ∧ c ∉ g.sib.desc ∧
      c ∉ g.addr :: ctxAddrs gs) ∧
    (∀ c ∈ g.sib.desc, c ∉ [b, t.addr, u.addr, g.sib.addr] ∧ c ∉ t.desc ∧ c ∉ u.desc ∧
      c ∉ g.addr :: ctxAddrs gs) ∧
    (∀ c ∈ g.addr :: ctxAddrs gs, c ∉ [b, t.addr, u.addr, g.sib.addr] ∧ c ∉ t.desc ∧
      c ∉ u.desc ∧ c ∉ g.sib.desc) ∧
    t.desc.Nodup ∧ u.desc.Nodup ∧ g.sib.desc.Nodup ∧ (g.addr :: ctxAddrs gs).Nodup := by
  simp only [ctxAddrs, PTree.addrs_eq, List.nodup_cons, List.nodup_append, List.mem_cons,
    List.mem_append, List.cons_append] at hnd
  simp only [List.nodup_cons, List.mem_cons, List.not_mem_nil, or_false]
  refine ⟨?_, ?_, ?_, ?_, ?_, ?_, ?_, ?_, ?_⟩ <;> grind

/-- New nieces, one of them without nieces of its own. -/
theorem updateAunt_pair {o x y : Addr} {right : Bool} {s : PTree H} (hpos : 0 < h.next)
    (hp : Pair h o right x y) (hx : (h.get x).lNiece = none ∧ (h.get x).rNiece = none)
    (hy : Links h y s) (hax : (h.get x).aunt ≠ some o) (hay : (h.get y).aunt ≠ some o)
    (hnd : (y :: x :: s.desc).Nodup) :
    ∃ h', updateAunt h o = .ok h' ∧ (h'.get x).aunt = some o ∧ (h'.get y).aunt = some o ∧
      Keeps [] [x, y] [] h h' := by
  -- As if the children of `s` were those of `x`.
  obtain ⟨w, rfl, hwd, hw⟩ : ∃ w : PTree H, w.addr = x ∧ w.desc = s.desc ∧ Links h y w :=
    ⟨s.withAddr x, PTree.withAddr_addr x s, PTree.withAddr_desc x s, links_withAddr.mpr hy⟩
  have hleaf : Links h w.addr (.leaf y (h.get y).data) := hx
  rw [← hwd] at hnd
  rcases right with _ | _
  · obtain ⟨h', hrun, hl, k⟩ := updateAunt_spec (o := o)
      (t := .node o w (.leaf y (h.get y).data)) hpos hp ⟨hw, hleaf⟩
      (by
        rw [PTree.desc, PTree.addrs_eq]
        exact (List.perm_append_singleton y (w.addr :: w.desc)).nodup_iff.mpr hnd)
      (by simpa [PTree.kids, PTree.addr] using ⟨hax, hay⟩)
    exact ⟨h', hrun, hl.2.1.1, hl.2.1.2, k⟩
  · obtain ⟨h', hrun, hl, k⟩ := updateAunt_spec (o := o)
      (t := .node o (.leaf y (h.get y).data) w) hpos hp ⟨hleaf, hw⟩
      (by
        rw [PTree.desc, PTree.addrs_eq w]
        exact hnd)
      (by simpa [PTree.kids, PTree.addr] using ⟨hay, hax⟩)
    exact ⟨h', hrun, hl.2.1.2, hl.2.1.1, k.mono (by simp) (by simp [PTree.kids, PTree.addr])
      (by simp)⟩

/-- The side of the sibling is the one that the position is not on. -/
theorem setNieces_pair (h : Heap H) (o node sib : Addr) (pos : Nat) :
    Pair (if isLeftNiece pos then h.setNieces o (some node) (some sib)
      else h.setNieces o (some sib) (some node)) o (isLeftNiece pos) sib node ∧
    Keeps [o] [] [] h (if isLeftNiece pos then h.setNieces o (some node) (some sib)
      else h.setNieces o (some sib) (some node)) := by
  split
  · next hleft =>
    rw [hleft]
    exact ⟨setNieces_self _ _ _ _, keeps_setNieces _ _ _ _⟩
  · next hright =>
    rw [Bool.not_eq_true] at hright
    rw [hright]
    exact ⟨setNieces_self _ _ _ _, keeps_setNieces _ _ _ _⟩

theorem adopt_spec {t u : PTree H} {o : Addr} (pos : Nat) (hpos : 0 < h.next) (hl : Links h o u)
    (hu : (h.get u.addr).lNiece = none ∧ (h.get u.addr).rNiece = none) (ht : Links h t.addr t)
    (hau : (h.get u.addr).aunt ≠ some o) (hat : (h.get t.addr).aunt ≠ some o)
    (hnd : (o :: (t.addrs ++ u.addrs)).Nodup) :
    ∃ h', Pollard.adopt h pos t.addr u.addr o = .ok h' ∧
      Pair h' o (isLeftNiece pos) u.addr t.addr ∧ (h'.get u.addr).aunt = some o ∧
      (h'.get t.addr).aunt = some o ∧ Links h' u.addr t ∧ Links h' t.addr u ∧
      Keeps [o, u.addr, t.addr] (u.addr :: t.addr :: (t.kids ++ u.kids)) [] h h' := by
  have htk := t.kids_subset
  have huk := u.kids_subset
  have htg := t.grand_subset
  have hug := u.grand_subset
  simp only [PTree.addrs_eq, List.nodup_cons, List.nodup_append, List.mem_cons, List.mem_append,
    List.cons_append] at hnd
  obtain ⟨hp1, k1⟩ := setNieces_pair h o t.addr u.addr pos
  set h1 := if isLeftNiece pos then h.setNieces o (some t.addr) (some u.addr)
    else h.setNieces o (some u.addr) (some t.addr) with h1_def
  obtain ⟨h2, hrun2, hau2, hat2, k2⟩ := updateAunt_pair (k1.pos hpos) hp1
    (by rwa [k1.lNiece _ (by grind), k1.rNiece _ (by grind)])
    (k1.links (by grind) (by grind) (by grind) ht)
    (by rwa [k1.aunt _ (by simp)]) (by rwa [k1.aunt _ (by simp)]) (by grind)
  have ht2 : Links h2 t.addr t :=
    (k1.trans k2).links (by grind) (by grind) (by grind) ht
  obtain ⟨h3, hrun3, hl3, -, k3⟩ := transferNiece_spec ((k1.trans k2).pos hpos) ht2
    (show u.addr ≠ t.addr by grind) (by grind) (by grind) (by grind)
  have k4 := keeps_setNieces h3 t.addr (h.get o).lNiece (h.get o).rNiece
  have hself := setNieces_self h3 t.addr (h.get o).lNiece (h.get o).rNiece
  set h4 := h3.setNieces t.addr (h.get o).lNiece (h.get o).rNiece with h4_def
  obtain ⟨hn, hk, hunder⟩ := links_iff.mp hl
  have k14 := k1.trans (k2.trans (k3.trans k4))
  obtain ⟨h5, hrun5, hl5, k5⟩ := updateAunt_spec (k14.pos hpos)
    (show Nieces h4 t.addr u by
      cases u with
      | leaf a x => exact ⟨hself.1.trans hn.1, hself.2.trans hn.2⟩
      | node a l r => exact ⟨hself.1.trans hn.1, hself.2.trans hn.2⟩)
    (k14.under (by grind) (by grind) hunder) (by grind)
    (fun c hc => by
      rw [k14.aunt c (by grind), hk c hc]
      grind)
  have k35 := k3.trans (k4.trans k5)
  have hpair : Pair h5 o (isLeftNiece pos) u.addr t.addr := by
    rwa [Pair, (k2.trans k35).lNiece o (by grind), (k2.trans k35).rNiece o (by grind)]
  refine ⟨h5, ?_, hpair, ?_, ?_, (k4.trans k5).links (by grind) (by grind) (by grind) hl3, hl5,
    (k14.trans k5).mono ?_ ?_ (by simp)⟩
  · rw [Pollard.adopt]
    simp only [← h1_def, hrun2, Exec.ok_bind, hrun3]
    exact hrun5
  · rwa [k35.aunt _ (by grind)]
  · rwa [k35.aunt _ (by grind)]
  · intro c hc
    simp at hc ⊢
    tauto
  · intro c hc
    simp at hc ⊢
    tauto

theorem moveDownNode_spec {t u : PTree H} {g : Frame H} {gs : List (Frame H)} {b : Addr} (pos : Nat)
    (hpos : 0 < h.next) (hc : CtxLinks h (g :: gs) u.addr) (hl : Links h g.sib.addr u)
    (ht : Rooted h t) (hb : (h.get b).aunt = none)
    (hnd : (b :: (t.addrs ++ (u.addrs ++ ctxAddrs (g :: gs)))).Nodup) :
    ∃ h', Pollard.moveDownNode h pos t.addr u.addr b (some g.sib.addr) = .ok h' ∧
      CtxLinks h' (⟨b, isLeftNiece pos, t⟩ :: g :: gs) u.addr ∧ Links h' t.addr u ∧
      Keeps [owner gs g.addr, b, u.addr, g.sib.addr, t.addr]
        (b :: (g.sib.kids ++ u.addr :: t.addr :: (t.kids ++ u.kids))) [] h h' := by
  obtain ⟨hpair, ⟨haunt, haunt'⟩, hlsib, hctx⟩ := hc
  obtain ⟨htaunt, htl⟩ := ht
  obtain ⟨hnodes, htd, hud, hsd, hx, hndt, hndu, hnds, hndc⟩ := nodup_beside hnd
  have hown := hx _ (owner_mem gs g.addr)
  have hownN : owner gs g.addr ∉ ctxN gs g.addr := owner_not_mem_ctxN hndc
  have hN := fun c hc => hx c (ctxN_subset gs g.addr c hc)
  have hA := fun c hc => hx c (ctxA_subset gs g.addr c hc)
  have hsk := g.sib.kids_subset
  have htk := t.kids_subset
  have huk := u.kids_subset
  simp only [List.nodup_cons, List.mem_cons, List.not_mem_nil, or_false, not_or] at hnodes hown hN
  clear hnd hx hndc
  -- The new node takes the place of the sibling.
  obtain ⟨h1, hrun1, hp1, ha1, k1⟩ := replaceNiece_spec (a := b) hpair haunt haunt' (by grind)
    (by grind)
  have hs1 : Links h1 u.addr g.sib := k1.links (by grind) (by grind) (by grind) hlsib
  obtain ⟨h2, hrun2, hs2, hun2, k2⟩ := transferNiece_spec (k1.pos hpos) hs1
    (show b ≠ u.addr by grind) (by grind) (by grind) (by grind)
  have k12 := k1.trans k2
  have hl2 : Links h2 g.sib.addr u := k12.links (by grind) (by grind) (by grind) hl
  have ht2 : Links h2 t.addr t := k12.links (by grind) (by grind) (by grind) htl
  obtain ⟨h3, hrun3, hp3, hu3, ht3, htu, hut, k3⟩ := adopt_spec pos (k12.pos hpos) hl2 hun2 ht2
    (by rw [k12.aunt _ (by grind), haunt]; grind)
    (by rw [k12.aunt _ (by grind), htaunt]; simp)
    (by
      simp only [PTree.addrs_eq, List.nodup_cons, List.nodup_append, List.mem_cons, List.mem_append,
        List.cons_append]
      grind)
  have k23 := k2.trans k3
  have k := k1.trans k23
  have hpair' : Pair h3 (owner gs g.addr) g.right b g.sib.addr := by
    rwa [Pair, k23.lNiece _ (by grind), k23.rNiece _ (by grind)]
  have hb3 : (h3.get b).aunt = some (owner gs g.addr) := by rwa [k23.aunt _ (by grind)]
  have hg3 : (h3.get g.sib.addr).aunt = some (owner gs g.addr) := by rwa [k.aunt _ (by grind)]
  have hs3 : Links h3 b g.sib := k3.links (by grind) (by grind) (by grind) hs2
  have hc3 : CtxLinks h3 gs g.addr := k.ctx (by grind) (by grind) hctx
  refine ⟨h3, ?_, ⟨hp3, ⟨hu3, ht3⟩, htu, hpair', ⟨hb3, hg3⟩, hs3, hc3⟩, hut,
    k.mono (by simp) (by simp) (by simp)⟩
  have htransfer : transferAunt h b u.addr = .ok (h1, .ok ()) := by rw [transferAunt, hb, hrun1]
  rw [Pollard.moveDownNode, htransfer, Exec.ok_bind]
  simp only [hrun2, Exec.ok_bind, updateAunt_of_links hs2, deref, hrun3]

/-! ### At a root -/

/-- New nieces, the nieces of one of which have the wrong aunts too. -/
theorem updateAunt_stale {o x : Addr} {right : Bool} {s t : PTree H} (hnext : 2 ≤ h.next)
    (hp : Pair h o right x t.addr) (hax : (h.get x).aunt ≠ some o)
    (hat : (h.get t.addr).aunt ≠ some o) (hn : Nieces h x s) (hu : Under h s)
    (hw : ∀ b ∈ s.kids, (h.get b).aunt ≠ some x) (ht : Links h t.addr t)
    (hnd : (x :: (s.desc ++ t.addrs)).Nodup) :
    ∃ h', updateAunt h o = .ok h' ∧ (h'.get x).aunt = some o ∧ (h'.get t.addr).aunt = some o ∧
      Links h' x s ∧ Links h' t.addr t ∧ Keeps [] (x :: t.addr :: s.kids) [] h h' := by
  obtain ⟨fuel, hfuel⟩ : ∃ fuel, h.next = fuel + 2 := ⟨h.next - 2, by omega⟩
  have hsk := s.kids_subset
  have hsg := s.grand_subset
  simp only [PTree.addrs_eq, List.nodup_cons, List.nodup_append, List.mem_cons,
    List.mem_append] at hnd
  rw [updateAunt, updateAuntLoop, hfuel]
  rcases right with _ | _
  · have k1 := keeps_setAunt h x (some o)
    set h1 := h.setAunt x (some o) with h1_def
    obtain ⟨h2, hrun2, hl2, k2⟩ := updateAuntLoop_spec (k1.nieces (by simp) hn)
      (k1.under (by simp) (by grind) hu) (by grind)
      (fun b hb => by rw [k1.aunt b (by grind)]; exact hw b hb) fuel
    have k3 := keeps_setAunt h2 t.addr (some o)
    set h3 := h2.setAunt t.addr (some o) with h3_def
    have k := k1.trans (k2.trans k3)
    have ht3 : Links h3 t.addr t := k.links (by simp) (by simp) (by grind) ht
    refine ⟨h3, ?_, ?_, setAunt_self _ _ _, k3.links (by simp) (by simp) (by grind) hl2, ht3,
      k.mono (by simp) ?_ (by simp)⟩
    · have h4 : (h.get o).lNiece = some x := hp.1
      have h5 : (h2.get o).rNiece = some t.addr := by
        rw [(k1.trans k2).rNiece _ (by simp)]
        exact hp.2
      have h6 : (h2.get t.addr).aunt ≠ some o := by rwa [(k1.trans k2).aunt _ (by grind)]
      simp only [h4, if_neg hax, ← h1_def, hrun2, Exec.ok_bind, h5, if_neg h6]
      exact updateAuntLoop_of_links ht3 _
    · rw [(k2.trans k3).aunt _ (by grind)]
      exact setAunt_self _ _ _
    · intro c hc
      simp at hc ⊢
      tauto
  · have k1 := keeps_setAunt h t.addr (some o)
    set h1 := h.setAunt t.addr (some o) with h1_def
    have ht1 : Links h1 t.addr t := k1.links (by simp) (by simp) (by grind) ht
    have k2 := keeps_setAunt h1 x (some o)
    set h2 := h1.setAunt x (some o) with h2_def
    obtain ⟨h3, hrun3, hl3, k3⟩ := updateAuntLoop_spec ((k1.trans k2).nieces (by simp) hn)
      ((k1.trans k2).under (by simp) (by grind) hu) (by grind)
      (fun b hb => by rw [(k1.trans k2).aunt b (by grind)]; exact hw b hb) fuel
    have k := k1.trans (k2.trans k3)
    refine ⟨h3, ?_, ?_, ?_, hl3, (k2.trans k3).links (by simp) (by simp) (by grind) ht1,
      k.mono (by simp) ?_ (by simp)⟩
    · have h4 : (h.get o).lNiece = some t.addr := hp.1
      have h5 : (h1.get o).rNiece = some x := by
        rw [k1.rNiece _ (by simp)]
        exact hp.2
      have h6 : (h1.get x).aunt ≠ some o := by rwa [k1.aunt _ (by grind)]
      simp only [h4, if_neg hat, ← h1_def, updateAuntLoop_of_links ht1, Exec.ok_bind, h5, if_neg h6]
      exact hrun3
    · rw [k3.aunt _ (by grind)]
      exact setAunt_self _ _ _
    · rw [(k2.trans k3).aunt _ (by grind)]
      exact setAunt_self _ _ _
    · intro c hc
      simp at hc ⊢
      tauto

/-- The nieces of two nodes in the order of their pair. -/
theorem swapNieces_pair {o a b : Addr} {right : Bool} {s t : PTree H} (hpos : 0 < h.next)
    (hp : Pair h o right a b) (hs : Links h a s) (ht : Links h b t) (hab : a ≠ b)
    (hnd : (s.desc ++ t.desc).Nodup) (ha : a ∉ s.desc ++ t.desc) (hb : b ∉ s.desc ++ t.desc) :
    ∃ h' l r, (h.get o).lNiece = some l ∧ (h.get o).rNiece = some r ∧ swapNieces h l r = .ok h' ∧
      Links h' a t ∧ Links h' b s ∧ Keeps [a, b] (s.kids ++ t.kids) [] h h' := by
  rcases right with _ | _
  · obtain ⟨h', hrun, h1, h2, k⟩ := swapNieces_spec hpos hs ht hab hnd ha hb
    exact ⟨h', a, b, hp.1, hp.2, hrun, h1, h2, k⟩
  · rw [List.mem_append] at ha hb
    obtain ⟨h', hrun, h1, h2, k⟩ := swapNieces_spec hpos ht hs hab.symm
      (List.perm_append_comm.nodup_iff.mp hnd) (by rw [List.mem_append]; tauto)
      (by rw [List.mem_append]; tauto)
    refine ⟨h', b, a, hp.1, hp.2, hrun, h2, h1, k.mono ?_ ?_ (by simp)⟩
    · intro c hc
      simp at hc ⊢
      tauto
    · intro c hc
      simp at hc ⊢
      tauto

theorem moveDownRoot_spec {t u : PTree H} {b : Addr} (pos : Nat) (hnext : 2 ≤ h.next)
    (hu : Rooted h u) (ht : Rooted h t) (hb : (h.get b).aunt = none)
    (hnd : (b :: (t.addrs ++ u.addrs)).Nodup) :
    ∃ h', Pollard.moveDownRoot h pos t.addr u.addr b = .ok h' ∧
      Rooted h' (Frame.fill ⟨u.addr, isLeftNiece pos, t⟩ (u.withAddr b)) ∧
      (h'.get b).data = (h.get u.addr).data ∧ (h'.get u.addr).data = (h.get b).data ∧
      Keeps [b, u.addr, t.addr] (b :: u.addr :: t.addr :: (u.kids ++ t.kids)) [b, u.addr] h h' := by
  obtain ⟨huaunt, hul⟩ := hu
  obtain ⟨htaunt, htl⟩ := ht
  have htk := t.kids_subset
  have huk := u.kids_subset
  have hug := u.grand_subset
  simp only [PTree.addrs_eq, List.nodup_cons, List.nodup_append, List.mem_cons, List.mem_append,
    List.cons_append] at hnd
  -- The root moves to the new address.
  have k1 : Keeps [b, u.addr] [b, u.addr] [b, u.addr] h
      ((h.set b (h.get u.addr)).set u.addr (h.get b)) :=
    ((keeps_set h b _).trans (keeps_set _ u.addr _)).mono (by simp) (by simp) (by simp)
  have hgetu : ((h.set b (h.get u.addr)).set u.addr (h.get b)).get u.addr = h.get b := if_pos rfl
  have hgetb : ((h.set b (h.get u.addr)).set u.addr (h.get b)).get b = h.get u.addr := by
    rw [get_set, if_neg (by grind), get_set, if_pos rfl]
  set h1 := (h.set b (h.get u.addr)).set u.addr (h.get b) with h1_def
  obtain ⟨hn, hk, hunder⟩ := links_iff.mp hul
  have hn1 : Nieces h1 b u := by
    cases u with
    | leaf a x => rwa [Nieces, hgetb]
    | node a l r => rwa [Nieces, hgetb]
  obtain ⟨hp2, k2⟩ := setNieces_pair h1 u.addr t.addr b pos
  set h2 := if isLeftNiece pos then h1.setNieces u.addr (some t.addr) (some b)
    else h1.setNieces u.addr (some b) (some t.addr) with h2_def
  have k12 := k1.trans k2
  obtain ⟨h3, hrun3, hb3, ht3, hl3, htl3, k3⟩ := updateAunt_stale
    (Nat.le_trans hnext k12.next) hp2
    (by rw [k2.aunt _ (by simp), hgetb, huaunt]; simp)
    (by rw [k12.aunt _ (by grind), htaunt]; simp)
    (k2.nieces (by grind) hn1) (k12.under (by grind) (by grind) hunder)
    (fun c hc => by
      rw [k12.aunt c (by grind), hk c hc]
      grind)
    (k12.links (by grind) (by grind) (by grind) htl)
    (by
      simp only [PTree.addrs_eq, List.nodup_cons, List.nodup_append, List.mem_cons, List.mem_append]
      grind)
  have hp3 : Pair h3 u.addr (isLeftNiece pos) b t.addr := by
    rwa [Pair, k3.lNiece _ (by simp), k3.rNiece _ (by simp)]
  obtain ⟨h4, l, r, hl, hr, hrun4, ht4, hu4, k4⟩ := swapNieces_pair
    (Nat.lt_of_lt_of_le Nat.zero_lt_two (Nat.le_trans hnext (k12.trans k3).next)) hp3 hl3 htl3
    (by grind) (by rw [List.nodup_append]; grind) (by grind) (by grind)
  have k := k12.trans (k3.trans k4)
  have hp4 : Pair h4 u.addr (isLeftNiece pos) b t.addr := by
    rwa [Pair, k4.lNiece _ (by grind), k4.rNiece _ (by grind)]
  refine ⟨h4, ?_, ⟨?_, links_fill.mpr ⟨?_, ⟨?_, ?_⟩, ?_, ?_⟩⟩, ?_, ?_, k.mono ?_ ?_ (by simp)⟩
  · rw [Pollard.moveDownRoot]
    simp only [← h1_def, ← h2_def, hrun3, Exec.ok_bind, updateAunt_of_links hl3, hl, hr, deref]
    exact hrun4
  · rw [Frame.fill_addr, (k2.trans (k3.trans k4)).aunt _ (by grind), hgetu, hb]
  · rw [PTree.withAddr_addr, Frame.fill_addr]
    exact hp4
  · rw [PTree.withAddr_addr, Frame.fill_addr, k4.aunt _ (by grind)]
    exact hb3
  · rw [Frame.fill_addr, k4.aunt _ (by grind)]
    exact ht3
  · rw [PTree.withAddr_addr]
    exact ht4
  · exact links_withAddr.mpr hu4
  · rw [(k2.trans (k3.trans k4)).data _ (by simp), hgetb]
  · rw [(k2.trans (k3.trans k4)).data _ (by simp), hgetu]
  · intro c hc
    simp at hc ⊢
    tauto
  · intro c hc
    simp at hc ⊢
    tauto

end

end Utreexo
