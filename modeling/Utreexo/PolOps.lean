import Utreexo.PolTree

/-! # The pointer operations of the Pollard

What the functions of `polnode.go` do to trees in the heap.  Each operation gives its
owner the tree that its name promises, and `Keeps` says what it leaves alone.
-/
namespace Utreexo
open Merkle

section
variable {H : Type} {h : Heap H} {o : Addr} {t : PTree H}

/-! ### Aunts -/

theorem updateAuntLoop_of_links (hl : Links h o t) (fuel : Nat) :
    updateAuntLoop (fuel + 1) h o = .ok h := by
  cases t with
  | leaf a x => simp [updateAuntLoop, hl.1, hl.2]
  | node a l r => simp [updateAuntLoop, hl.1.1, hl.2.1.1]

/-- Aunts that are right already. -/
theorem updateAunt_of_links (hl : Links h o t) : updateAunt h o = .ok h :=
  updateAuntLoop_of_links hl _

/-- New nieces, whose aunts are all wrong. -/
theorem updateAuntLoop_spec (hn : Nieces h o t) (hu : Under h t) (hnd : t.desc.Nodup)
    (hw : ∀ b ∈ t.kids, (h.get b).aunt ≠ some o) (fuel : Nat) :
    ∃ h', updateAuntLoop (fuel + 2) h o = .ok h' ∧ Links h' o t ∧ Keeps [] t.kids [] h h' := by
  cases t with
  | leaf a x => exact ⟨h, updateAuntLoop_of_links (t := .leaf a x) hn _, hn, Keeps.refl h⟩
  | node a l r =>
    obtain ⟨hndl, hndr, hdis⟩ := List.nodup_append.mp hnd
    rw [PTree.addrs_eq] at hndl hndr
    have hne : r.addr ≠ l.addr := fun he => hdis _ l.addr_mem _ r.addr_mem he.symm
    -- The left niece: its own nieces, the children of `r`, have the right aunt.
    have k1 := keeps_setAunt h l.addr (some o)
    have hl1 : Links (h.setAunt l.addr (some o)) l.addr r := by
      refine k1.links (by simp) (by simp) ?_ hu.2
      intro b hb he
      obtain rfl : b = l.addr := by simpa using he
      exact hdis _ l.addr_mem _ (PTree.mem_addrs_of_desc hb) rfl
    -- The right niece, whose nieces are the children of `l`.
    have k2 := keeps_setAunt (h.setAunt l.addr (some o)) r.addr (some o)
    have hl2 : Links ((h.setAunt l.addr (some o)).setAunt r.addr (some o)) r.addr l := by
      refine (k1.trans k2).links (by simp) (by simp) ?_ hu.1
      intro b hb he
      rcases List.mem_append.mp he with he | he
      · obtain rfl : b = l.addr := by simpa using he
        exact (List.nodup_cons.mp hndl).1 hb
      · obtain rfl : b = r.addr := by simpa using he
        exact hdis _ (PTree.mem_addrs_of_desc hb) _ r.addr_mem rfl
    have hlr : Links ((h.setAunt l.addr (some o)).setAunt r.addr (some o)) l.addr r := by
      refine k2.links (by simp) (by simp) ?_ hl1
      intro b hb he
      obtain rfl : b = r.addr := by simpa using he
      exact (List.nodup_cons.mp hndr).1 hb
    have hr1 : ((h.setAunt l.addr (some o)).get r.addr).aunt ≠ some o := by
      rw [k1.aunt _ (by simpa using hne)]
      exact hw _ (by simp [PTree.kids])
    refine ⟨_, ?_, ⟨?_, ⟨?_, ?_⟩, hl2, hlr⟩, (k1.trans k2).mono (by simp) ?_ (by simp)⟩
    · have hwl : (h.get l.addr).aunt ≠ some o := hw _ (by simp [PTree.kids])
      rw [updateAuntLoop]
      simp only [hn.1, hwl, if_false, updateAuntLoop_of_links hl1, Exec.ok_bind,
        k1.rNiece o (by simp), hn.2, hr1, updateAuntLoop_of_links hl2]
    · rw [k2.lNiece _ (by simp), k1.lNiece _ (by simp), k2.rNiece _ (by simp),
        k1.rNiece _ (by simp)]
      exact hn
    · rw [k2.aunt _ (by simpa using hne.symm), setAunt_self]
    · rw [setAunt_self]
    · simp [PTree.kids]

theorem updateAunt_spec (hpos : 0 < h.next) (hn : Nieces h o t) (hu : Under h t)
    (hnd : t.desc.Nodup) (hw : ∀ b ∈ t.kids, (h.get b).aunt ≠ some o) :
    ∃ h', updateAunt h o = .ok h' ∧ Links h' o t ∧ Keeps [] t.kids [] h h' := by
  obtain ⟨fuel, hfuel⟩ : ∃ fuel, h.next = fuel + 1 := ⟨h.next - 1, by omega⟩
  rw [updateAunt, hfuel]
  exact updateAuntLoop_spec hn hu hnd hw fuel

/-! ### Nieces -/

section Nieces
variable {a b : Addr}

/-- Gives `a` the nieces that `b` has. -/
theorem setNieces_spec {s : PTree H} (hl : Links h b s) (hb : b ∉ s.desc) (ha : a ∉ s.desc) :
    Nieces (h.setNieces a (h.get b).lNiece (h.get b).rNiece) a s ∧
      Under (h.setNieces a (h.get b).lNiece (h.get b).rNiece) s := by
  obtain ⟨hn, _, hu⟩ := links_iff.mp hl
  have k := keeps_setNieces h a (h.get b).lNiece (h.get b).rNiece
  refine ⟨?_, k.under (fun c hc he => ha ?_) (by simp) hu⟩
  · have hs := setNieces_self h a (h.get b).lNiece (h.get b).rNiece
    cases s <;> exact ⟨hs.1.trans hn.1, hs.2.trans hn.2⟩
  · obtain rfl : c = a := by simpa using he
    exact hc

theorem transferNiece_spec {s : PTree H} (hpos : 0 < h.next) (hl : Links h b s) (hab : a ≠ b)
    (hnd : s.desc.Nodup) (hb : b ∉ s.desc) (ha : a ∉ s.desc) :
    ∃ h', transferNiece h a b = .ok h' ∧ Links h' a s ∧
      ((h'.get b).lNiece = none ∧ (h'.get b).rNiece = none) ∧ Keeps [a, b] s.kids [] h h' := by
  obtain ⟨hn, hu⟩ := setNieces_spec hl hb ha
  set h1 := h.setNieces a (h.get b).lNiece (h.get b).rNiece with h1_def
  have k1 : Keeps [a] [] [] h h1 := keeps_setNieces _ _ _ _
  have k2 : Keeps [b] [] [] h1 (h1.setNieces b none none) := keeps_setNieces _ _ _ _
  have hkids : ∀ c ∈ s.kids, ((h1.setNieces b none none).get c).aunt ≠ some a := by
    intro c hc
    rw [k2.aunt c (by simp), k1.aunt c (by simp), (links_iff.mp hl).2.1 c hc]
    exact fun he => hab (Option.some.inj he).symm
  obtain ⟨h', hup, hl', k3⟩ := updateAunt_spec ((k1.trans k2).pos hpos)
    (k2.nieces (by simpa using hab) hn)
    (k2.under (fun c hc he => hb (by obtain rfl : c = b := by simpa using he
                                     exact hc)) (by simp) hu) hnd hkids
  refine ⟨h', hup, hl', ?_, (k1.trans (k2.trans k3)).mono (by simp) (by simp) (by simp)⟩
  rw [k3.lNiece b (by simp), k3.rNiece b (by simp)]
  exact setNieces_self _ _ _ _

theorem swapNieces_spec {s t : PTree H} (hpos : 0 < h.next) (hs : Links h a s) (ht : Links h b t)
    (hab : a ≠ b) (hnd : (s.desc ++ t.desc).Nodup) (ha : a ∉ s.desc ++ t.desc)
    (hb : b ∉ s.desc ++ t.desc) :
    ∃ h', swapNieces h a b = .ok h' ∧ Links h' a t ∧ Links h' b s ∧
      Keeps [a, b] (s.kids ++ t.kids) [] h h' := by
  obtain ⟨hnds, hndt, hdis⟩ := List.nodup_append.mp hnd
  simp only [List.mem_append, not_or] at ha hb
  have hkid : ∀ {u : PTree H} {c}, c ∈ u.kids → c ∈ u.desc := fun hc => PTree.kids_subset _ _ hc
  set h1 := h.setNieces a (h.get b).lNiece (h.get b).rNiece with h1_def
  set h2 := h1.setNieces b (h.get a).lNiece (h.get a).rNiece with h2_def
  have k1 : Keeps [a] [] [] h h1 := keeps_setNieces _ _ _ _
  have k2 : Keeps [b] [] [] h1 h2 := keeps_setNieces _ _ _ _
  have not_b : ∀ {u : PTree H}, b ∉ u.desc → ∀ c ∈ u.desc, c ∉ [b] := by
    intro u hu c hc he
    obtain rfl : c = b := by simpa using he
    exact hu hc
  -- `a` gets the nieces of `b`, and `b` those that `a` had.
  obtain ⟨hna, hua⟩ := setNieces_spec ht hb.2 ha.2
  have hna2 : Nieces h2 a t := k2.nieces (by simpa using hab) hna
  have hua2 : Under h2 t := k2.under (not_b hb.2) (by simp) hua
  have hnb2 : Nieces h2 b s := by
    have hn := (links_iff.mp hs).1
    have hself := setNieces_self h1 b (h.get a).lNiece (h.get a).rNiece
    cases s <;> exact ⟨hself.1.trans hn.1, hself.2.trans hn.2⟩
  have hub2 : Under h2 s := by
    refine (k1.trans k2).under ?_ (by simp) (links_iff.mp hs).2.2
    intro c hc he
    rcases List.mem_append.mp he with he | he
    · obtain rfl : c = a := by simpa using he
      exact ha.1 hc
    · exact not_b hb.1 c hc he
  have haunt : ∀ c, (h2.get c).aunt = (h.get c).aunt := fun c => by
    rw [k2.aunt c (by simp), k1.aunt c (by simp)]
  obtain ⟨h3, hup3, hl3, k3⟩ := updateAunt_spec ((k1.trans k2).pos hpos) hna2 hua2
    hndt (fun c hc => by
      rw [haunt, (links_iff.mp ht).2.1 c hc]
      exact fun he => hab (Option.some.inj he).symm)
  have hsub : Under h3 s := by
    refine k3.under (by simp) ?_ hub2
    exact fun c hc he => hdis c (PTree.grand_subset _ c hc) c (hkid he) rfl
  obtain ⟨h4, hup4, hl4, k4⟩ := updateAunt_spec (h := h3)
    ((k1.trans (k2.trans k3)).pos hpos) (k3.nieces (by simp) hnb2) hsub
    hnds (fun c hc => by
      rw [k3.aunt c (fun he => hdis c (hkid hc) c (hkid he) rfl), haunt,
        (links_iff.mp hs).2.1 c hc]
      exact fun he => hab (Option.some.inj he))
  refine ⟨h4, ?_, k4.links (by simp) (by simp) ?_ hl3, hl4, ?_⟩
  · simp only [swapNieces, ← h1_def, ← h2_def, hup3, Exec.ok_bind, hup4]
  · exact fun c hc he => hdis c (hkid he) c hc rfl
  · refine (k1.trans (k2.trans (k3.trans k4))).mono (by simp) ?_ (by simp)
    intro c hc
    simp only [List.nil_append, List.mem_append] at hc ⊢
    tauto

end Nieces

/-! ### Relatives -/

section Relatives
variable {f : Frame H} {fs : List (Frame H)} {a : Addr}

theorem getSibling_ctx (hc : CtxLinks h (f :: fs) a) (hne : a ≠ f.sib.addr) :
    getSibling h a = .ok (some f.sib.addr) := by
  obtain ⟨⟨hl, hr⟩, ⟨haunt, _⟩, _⟩ := hc
  rw [getSibling, haunt]
  rcases hf : f.right with _ | _ <;>
    simp only [hf, if_true, Bool.false_eq_true, if_false] at hl hr
  · simp [hl, hr]
  · simp [hl, hr, hne.symm]

/-- The parent of a node and of its sibling is the node of the frame. -/
theorem getParent_ctx (hc : CtxLinks h (f :: fs) a) (hnd : (ctxAddrs (f :: fs)).Nodup) :
    getParent h a = .ok (some f.addr) ∧ getParent h f.sib.addr = .ok (some f.addr) := by
  obtain ⟨_, ⟨haunt, haunt'⟩, _, htail⟩ := hc
  rw [getParent, getParent, haunt, haunt']
  cases fs with
  | nil =>
    have hroot : (h.get f.addr).aunt = none := htail
    simp [hroot]
  | cons g gs =>
    obtain ⟨⟨hl, hr⟩, ⟨_, hg⟩, _⟩ := htail
    have hne : f.addr ≠ g.sib.addr := by
      intro he
      refine (List.nodup_cons.mp hnd).1 ?_
      simp [ctxAddrs, he, g.sib.addr_mem]
    rcases hgr : g.right with _ | _ <;>
      simp only [hgr, if_true, Bool.false_eq_true, if_false] at hl hr
    · simp [hg, hl, hr, hne]
    · simp [hg, hl, hr]

theorem getParent_root (hc : CtxLinks h [] a) : getParent h a = .ok none := by
  have hroot : (h.get a).aunt = none := hc
  rw [getParent, hroot]

theorem getChildren_ctx {l r : PTree H} (hc : CtxLinks h fs a)
    (hne : ∀ g ∈ fs, a ≠ g.sib.addr) (hl : Links h (owner fs a) (.node a l r)) :
    getChildren h a = .ok (some l.addr, some r.addr) := by
  cases fs with
  | nil =>
    have hroot : (h.get a).aunt = none := hc
    have hn : (h.get a).lNiece = some l.addr ∧ (h.get a).rNiece = some r.addr := hl.1
    simp [getChildren, hroot, hn]
  | cons g gs =>
    have hsib := getSibling_ctx hc (hne g (by simp))
    simp only [getChildren, hc.2.1.1, hsib]
    rw [← hl.1.1, ← hl.1.2]
    rfl

end Relatives

/-! ### Hashes -/

section Hashes
variable [HashOps H]

theorem data_fill {f : Frame H} {t : PTree H} :
    Data h (f.fill t) ↔ (h.get f.addr).data = treeHash (f.fill t).tree ∧ Data h t ∧
      Data h f.sib := by
  unfold Frame.fill
  split
  · simp only [Data, PTree.tree, treeHash_node]
    tauto
  · simp only [Data, PTree.tree, treeHash_node]

theorem Data.of_plug {fs : List (Frame H)} {t : PTree H} (hd : Data h (plug fs t)) :
    Data h t ∧ ∀ f ∈ fs, Data h f.sib := by
  induction fs generalizing t with
  | nil => exact ⟨hd, by simp⟩
  | cons f fs ih =>
    obtain ⟨h1, h2⟩ := ih hd
    obtain ⟨_, ht, hs⟩ := data_fill.mp h1
    refine ⟨ht, fun g hg => ?_⟩
    rcases List.mem_cons.mp hg with rfl | hg
    · exact hs
    · exact h2 g hg

/-- **Hashing up to the root.**  Once everything but the hashes of the ancestors is
right, `hashToRoot` makes these right too and changes nothing else. -/
theorem hashToRootLoop_spec {fs : List (Frame H)} {t : PTree H} {h : Heap H} {fuel : Nat}
    (hc : CtxLinks h fs t.addr) (hl : Links h (owner fs t.addr) t) (hd : Data h t)
    (hs : ∀ f ∈ fs, Data h f.sib) (hnd : (t.addrs ++ ctxAddrs fs).Nodup)
    (hf : fs.length < fuel) :
    ∃ h', hashToRootLoop fuel h (fs.head?.map Frame.addr) = .ok (h', .ok ()) ∧
      Data h' (plug fs t) ∧ Keeps [] [] (fs.map Frame.addr) h h' := by
  induction fs generalizing t h fuel with
  | nil =>
    obtain ⟨fuel, rfl⟩ : ∃ k, fuel = k + 1 := ⟨fuel - 1, by simp at hf; omega⟩
    exact ⟨h, rfl, hd, Keeps.refl h⟩
  | cons f fs ih =>
    obtain ⟨fuel, rfl⟩ : ∃ k, fuel = k + 1 := ⟨fuel - 1, by simp at hf; omega⟩
    obtain ⟨hpair, haunts, hlsib, hctx⟩ := hc
    have hfill : Links h (owner fs f.addr) (f.fill t) :=
      links_fill.mpr ⟨hpair, haunts, hlsib, hl⟩
    have hperm : (t.addrs ++ ctxAddrs (f :: fs)).Perm
        (f.addr :: (t.addrs ++ (f.sib.addrs ++ ctxAddrs fs))) := List.perm_middle
    have hnd' := hperm.nodup_iff.mp hnd
    obtain ⟨hfresh, hnd'⟩ := List.nodup_cons.mp hnd'
    simp only [List.mem_append, not_or] at hfresh
    -- The children of the frame's node, whose hashes are right.
    obtain ⟨l, r, hlr, hdl, hdr⟩ : ∃ l r : PTree H, f.fill t = .node f.addr l r ∧
        Data h l ∧ Data h r := by
      unfold Frame.fill
      split
      · exact ⟨_, _, rfl, hs f (by simp), hd⟩
      · exact ⟨_, _, rfl, hd, hs f (by simp)⟩
    have hchildren : getChildren h f.addr = .ok (some l.addr, some r.addr) := by
      refine getChildren_ctx hctx ?_ (hlr ▸ hfill)
      intro g hg he
      refine hfresh.2.2 ?_
      rw [he]
      exact mem_ctxAddrs_sib hg g.sib.addr_mem
    set h1 := h.setData f.addr (parentHash (h.get l.addr).data (h.get r.addr).data) with h1_def
    have k1 : Keeps [] [] [f.addr] h h1 := keeps_setData _ _ _
    have hctx1 : CtxLinks h1 fs f.addr := k1.ctx (by simp) (by simp) hctx
    have hd1 : Data h1 (f.fill t) := by
      refine data_fill.mpr ⟨?_, k1.dataOf ?_ hd, k1.dataOf ?_ (hs f (by simp))⟩
      · rw [h1_def, setData_self, hdl.hash, hdr.hash, hlr, PTree.tree, treeHash_node]
      · exact fun b hb he => hfresh.1 (by obtain rfl : b = f.addr := by simpa using he
                                          exact hb)
      · exact fun b hb he => hfresh.2.1 (by obtain rfl : b = f.addr := by simpa using he
                                            exact hb)
    have hparent : getParent h1 f.addr = .ok (fs.head?.map Frame.addr) := by
      cases fs with
      | nil => exact getParent_root hctx1
      | cons g gs =>
        exact (getParent_ctx hctx1 (List.nodup_append.mp (List.nodup_append.mp hnd').2.1).2.1).1
    have hfill1 : Links h1 (owner fs f.addr) (f.fill t) :=
      k1.links (by simp) (by simp) (by simp) hfill
    have hs1 : ∀ g ∈ fs, Data h1 g.sib := by
      intro g hg
      refine k1.dataOf (fun b hb he => hfresh.2.2 ?_) (hs g (by simp [hg]))
      obtain rfl : b = f.addr := by simpa using he
      exact mem_ctxAddrs_sib hg hb
    have hnd1 : ((f.fill t).addrs ++ ctxAddrs fs).Nodup := by
      rw [((addrs_fill f t).append_right _).nodup_iff, List.cons_append, List.append_assoc]
      exact hperm.nodup_iff.mp hnd
    obtain ⟨h', hrun, hd', k'⟩ := ih (t := f.fill t) (h := h1) (by rwa [Frame.fill_addr])
      (by rwa [Frame.fill_addr]) hd1 hs1 hnd1 (Nat.lt_of_succ_lt_succ hf)
    refine ⟨h', ?_, hd', (k1.trans k').mono (by simp) (by simp) (by simp)⟩
    simp only [List.head?_cons, Option.map_some, hashToRootLoop, hchildren, deref, Exec.ok_bind,
      ← h1_def, hparent]
    exact hrun

end Hashes

end

end Utreexo
