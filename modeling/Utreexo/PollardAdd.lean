import Utreexo.PollardPos

/-! # Adding leaves to the Pollard

A new leaf is merged with the trees on the rows of the trailing ones of the number of
leaves, as in the collapsed forest; an empty root is passed over.
-/
namespace Utreexo
open Merkle

section
variable {H M : Type} [DecidableEq H] [HashOps H] [DecidableEq M] [MiniHash H M]

/-! ### Merging two trees -/

omit [DecidableEq H] in
/-- **Two roots become the children of a new root.** -/
theorem mergeNodes_spec {h : Heap H} {F : List (PRoot H)} {T N : PTree H}
    (hr : HeapRep h (F ++ [.full T, .full N])) (full : Bool) :
    ∃ h1 h3, swapNieces h T.addr N.addr = .ok h1 ∧
      updateAunt (h1.alloc ⟨some T.addr, some N.addr, none,
        parentHash (h1.get T.addr).data (h1.get N.addr).data, full⟩).2 h1.next = .ok h3 ∧
      (∀ b ≠ h1.next, (h3.get b).data = (h.get b).data ∧
        (h3.get b).remember = (h.get b).remember) ∧
      N.addr ≠ h1.next ∧ (h3.get h1.next).remember = full ∧
      HeapRep h3 (F ++ [.full (.node h1.next T N)]) := by
  obtain ⟨⟨hTa, hTl⟩, hTd⟩ := hr.ok (.full T) (by simp)
  obtain ⟨⟨hNa, hNl⟩, hNd⟩ := hr.ok (.full N) (by simp)
  have hold := hr.of_sublist (List.sublist_append_right F _)
  have hndTN := hold.nodup
  have hlt := hold.lt
  simp only [List.flatMap_cons, List.flatMap_nil, List.append_nil, PRoot.addrs,
    List.mem_append] at hndTN hlt
  obtain ⟨hndT, hndN, hdis⟩ := List.nodup_append.mp hndTN
  rw [PTree.addrs_eq] at hndT hndN
  obtain ⟨hT0, hndT⟩ := List.nodup_cons.mp hndT
  obtain ⟨hN0, hndN⟩ := List.nodup_cons.mp hndN
  have hdTN : ∀ {b}, b ∈ T.addrs → b ∉ N.addrs := fun h1 h2 => hdis _ h1 _ h2 rfl
  have hdesc : ∀ {t : PTree H} {b}, b ∈ t.desc → b ∈ t.addrs := PTree.mem_addrs_of_desc
  have hkids : ∀ {t : PTree H} {b}, b ∈ t.kids → b ∈ t.desc := fun h => PTree.kids_subset _ _ h
  have hne : T.addr ≠ N.addr := hdis _ T.addr_mem _ N.addr_mem
  -- The children of each root become the nieces of the other.
  obtain ⟨h1, hswap, hl1, hl1', k1⟩ := swapNieces_spec (Nat.zero_lt_of_lt (hlt T.addr
      (Or.inl T.addr_mem))) hTl hNl hne
    (List.nodup_append.mpr ⟨hndT, hndN, fun b hb c hc => hdis b (hdesc hb) c (hdesc hc)⟩)
    (by simp only [List.mem_append, not_or]
        exact ⟨hT0, fun hm => hdTN T.addr_mem (hdesc hm)⟩)
    (by simp only [List.mem_append, not_or]
        exact ⟨fun hm => hdTN (hdesc hm) N.addr_mem, hN0⟩)
  have hfresh : ∀ b, b ∈ T.addrs ∨ b ∈ N.addrs → b ≠ h1.next :=
    fun b hb => (Nat.lt_of_lt_of_le (hlt b hb) k1.next).ne
  set cell : PolNode H := ⟨some T.addr, some N.addr, none,
    parentHash (h1.get T.addr).data (h1.get N.addr).data, full⟩ with hcell
  have k2 : Keeps [h1.next] [h1.next] [h1.next] h1 (h1.alloc cell).2 := keeps_alloc _ _
  have hget : (h1.alloc cell).2.get h1.next = cell := if_pos rfl
  have hoffT : ∀ b ∈ T.addrs, b ∉ [h1.next] := fun b hb => by
    simpa using hfresh b (Or.inl hb)
  have hoffN : ∀ b ∈ N.addrs, b ∉ [h1.next] := fun b hb => by
    simpa using hfresh b (Or.inr hb)
  have hl2 : Links (h1.alloc cell).2 T.addr N :=
    k2.links (hoffT _ T.addr_mem) (fun b hb => hoffN b (hdesc hb)) (fun b hb => hoffN b (hdesc hb))
      hl1
  have hl2' : Links (h1.alloc cell).2 N.addr T :=
    k2.links (hoffN _ N.addr_mem) (fun b hb => hoffT b (hdesc hb)) (fun b hb => hoffT b (hdesc hb))
      hl1'
  -- Neither root had an aunt.
  have hTkid : T.addr ∉ T.kids ++ N.kids := by
    simp only [List.mem_append, not_or]
    exact ⟨fun hm => hT0 (hkids hm), fun hm => hdTN T.addr_mem (hdesc (hkids hm))⟩
  have hNkid : N.addr ∉ T.kids ++ N.kids := by
    simp only [List.mem_append, not_or]
    exact ⟨fun hm => hdTN (hdesc (hkids hm)) N.addr_mem, fun hm => hN0 (hkids hm)⟩
  have haunts : ∀ b ∈ (PTree.node h1.next T N).kids,
      ((h1.alloc cell).2.get b).aunt ≠ some h1.next := by
    intro b hb
    rcases (by simpa [PTree.kids] using hb : b = T.addr ∨ b = N.addr) with rfl | rfl
    · rw [k2.aunt _ (hoffT _ T.addr_mem), k1.aunt _ hTkid, hTa]
      simp
    · rw [k2.aunt _ (hoffN _ N.addr_mem), k1.aunt _ hNkid, hNa]
      simp
  obtain ⟨h3, hup, hl3, k3⟩ := updateAunt_spec (t := .node h1.next T N) (o := h1.next)
    (Nat.succ_pos h1.next) (by rw [Nieces, hget]; exact ⟨rfl, rfl⟩) ⟨hl2', hl2⟩ hndTN haunts
  have hnext : h1.next ∉ (PTree.node h1.next T N).kids := by
    simp only [PTree.kids, List.mem_cons, List.not_mem_nil, or_false, not_or]
    exact ⟨(hfresh _ (Or.inl T.addr_mem)).symm, (hfresh _ (Or.inr N.addr_mem)).symm⟩
  have k := k1.trans (k2.trans k3)
  have hdT : Data h3 T := k.dataOf (fun b hb => by simpa using hoffT b hb) hTd
  have hdN : Data h3 N := k.dataOf (fun b hb => by simpa using hoffN b hb) hNd
  refine ⟨h1, h3, hswap, hup, ?_, hfresh _ (Or.inr N.addr_mem), ?_, ?_⟩
  · exact fun b hb => ⟨k.data b (by simpa using hb), k.remember b (by simpa using hb)⟩
  · rw [k3.remember _ (by simp), hget]
  · rw [← List.append_nil [PRoot.full (.node h1.next T N)]]
    refine HeapRep.replace (G := [.full T, .full N]) (by simpa using hr) k ?_ ?_ ?_ ?_
    · intro b hb
      simp only [List.flatMap_cons, List.flatMap_nil, List.append_nil, PRoot.addrs,
        List.mem_append, List.mem_cons, List.not_mem_nil, or_false, false_or, PTree.kids] at hb ⊢
      have hTm : ∀ {b}, b ∈ T.kids → b ∈ T.addrs := fun h => hdesc (hkids h)
      have hNm : ∀ {b}, b ∈ N.kids → b ∈ N.addrs := fun h => hdesc (hkids h)
      have hT' := T.addr_mem
      have hN' := N.addr_mem
      have hle : h.next ≤ h1.next := k1.next
      rcases hb with ((rfl | rfl) | rfl) | (((hb | hb) | rfl | rfl | rfl) | rfl) <;> tauto
    · intro R hR
      obtain rfl : R = .full (.node h1.next T N) := by simpa using hR
      refine ⟨⟨?_, hl3⟩, ?_, hdT, hdN⟩
      · change (h3.get h1.next).aunt = none
        rw [k3.aunt _ hnext, hget]
      · rw [k3.data _ (by simp), hget, hcell, k1.data _ (by simp), k1.data _ (by simp),
          hTd.hash, hNd.hash]
    · simp only [List.flatMap_cons, List.flatMap_nil, List.append_nil, PRoot.addrs, PTree.addrs]
      exact List.nodup_cons.mpr ⟨fun hm => hfresh _ (List.mem_append.mp hm) rfl, hndTN⟩
    · intro b hb
      simp only [List.flatMap_cons, List.flatMap_nil, List.append_nil, PRoot.addrs, PTree.addrs,
        List.mem_append, List.mem_cons] at hb ⊢
      rcases hb with rfl | hb
      · exact ⟨Or.inr k1.next, Nat.lt_of_lt_of_le (Nat.lt_succ_self _) k3.next⟩
      · exact ⟨Or.inl hb, Nat.lt_of_lt_of_le (hlt b hb) k.next⟩

omit [DecidableEq H] [HashOps H] in
/-- Nieces stay if one is to be remembered or both have nieces. -/
theorem prune_eq_self {h : Heap H} {n l r : Addr}
    (hn : (h.get n).lNiece = some l ∧ (h.get n).rNiece = some r)
    (hkept : (h.get l).remember = true ∨ (h.get r).remember = true ∨
      deadEnd h l = false ∧ deadEnd h r = false) : prune h n = .ok h := by
  rcases hkept with hrem | hrem | ⟨hl, hr⟩
  · simp [prune, hn.1, hn.2, deref, hrem]
  · simp [prune, hn.1, hn.2, deref, hrem]
  · simp [prune, hn.1, hn.2, deref, hl, hr]

/-! ### What `prune` keeps -/

/-- The nodes of the leaves in `K` are to be remembered. -/
def Heap.Marked (K : H → Prop) (h : Heap H) : Prop :=
  ∀ b, K (h.get b).data → (h.get b).remember = true

/-- A single leaf is merged only if it or the other tree is a leaf in `K`. -/
def MergeKept (K : H → Prop) : CTree H → CTree H → Prop
  | .leaf x, .leaf y => K x ∨ K y
  | .leaf x, .node _ _ => K x
  | .node _ _, .leaf y => K y
  | .node _ _, .node _ _ => True

/-- No merge on the way of the new leaf `a` lets `prune` drop a node. -/
def LeafKept (K : H → Prop) (slots : List (Option H)) (a : H) : Prop :=
  ∀ h < 64, LowOnes slots.length (h + 1) → ∀ T ∈ rootTree slots h, ∀ N ∈ grownTree slots a h,
    MergeKept K T N

omit [DecidableEq H] in
/-- The children of a new root stay. -/
theorem MergeKept.nieces {K : H → Prop} {h : Heap H} {n : Addr} {T N : PTree H}
    (hk : MergeKept K T.tree N.tree) (hm : h.Marked K) (hl : Links h n (.node n T N))
    (hd : Data h (.node n T N)) :
    (h.get T.addr).remember = true ∨ (h.get N.addr).remember = true ∨
      deadEnd h T.addr = false ∧ deadEnd h N.addr = false := by
  have hT : K (treeHash T.tree) → (h.get T.addr).remember = true :=
    fun hK => hm _ (by rwa [hd.2.1.hash])
  have hN : K (treeHash N.tree) → (h.get N.addr).remember = true :=
    fun hK => hm _ (by rwa [hd.2.2.hash])
  obtain ⟨-, -, hlT, hlN⟩ := hl
  cases T with
  | leaf b x =>
    cases N with
    | leaf c y => exact hk.elim (fun hx => Or.inl (hT hx)) (fun hy => Or.inr (Or.inl (hN hy)))
    | node c l r => exact Or.inl (hT hk)
  | node b l r =>
    cases N with
    | leaf c y => exact Or.inr (Or.inl (hN hk))
    | node c l' r' =>
      -- The children of the one are the nieces of the other.
      refine Or.inr (Or.inr ⟨?_, ?_⟩)
      · simp [deadEnd, hlN.1.1]
      · simp [deadEnd, hlT.1.1]

/-- The same for several new leaves. -/
def LeavesKept (K : H → Prop) : List (Option H) → List H → Prop
  | _, [] => True
  | slots, a :: adds => LeafKept K slots a ∧ LeavesKept K (slots ++ [some a]) adds

/-! ### The loop over the trailing ones -/

/-- `prune` drops nothing: in a full Pollard everything is to be remembered, and in another one
the leaves in `K` are. -/
def Pollard.Sturdy (K : H → Prop) (slots : List (Option H)) (a : H) (p : Pollard H M)
    (node : Addr) : Prop :=
  p.full = true ∧ (p.heap.get node).remember = true ∨ p.heap.Marked K ∧ LeafKept K slots a

/-- The new leaf has been merged with the trees on the rows below `h`. -/
structure Growing (K : H → Prop) (slots : List (Option H)) (a : H) (h : Nat) (p : Pollard H M)
    (F : List (PRoot H)) (N : PTree H) : Prop where
  heap : HeapRep p.heap (F ++ [.full N])
  roots : p.roots = F.map PRoot.addr
  trees : F.map PRoot.opt = (rootRows slots.length h).map (rootTree slots)
  tree : some N.tree = grownTree slots a h
  numLeaves : p.numLeaves = slots.length
  sturdy : p.Sturdy K slots a N.addr

variable {K : H → Prop} {slots : List (Option H)} {a : H}

omit [DecidableEq M] [MiniHash H M] in
/-- One round of `calculateNewRoot`. -/
theorem newRootLoop_step (hi : ∀ a b : H, parentHash a b ≠ empty)
    (hK : ∀ a b : H, ¬ K (parentHash a b)) (hlive : ∀ x ∈ liveLeaves slots, x ≠ empty) {h : Nat}
    {p : Pollard H M} {F : List (PRoot H)} {N : PTree H} (fuel : Nat)
    (hg : Growing K slots a h p F N) (hl : LowOnes slots.length h)
    (hb : slots.length.testBit h = true) (hh : h < 64) :
    ∃ p' F' N', Pollard.newRootLoop p (fuel + 1) h N.addr =
        Pollard.newRootLoop p' fuel (h + 1) N'.addr ∧ Growing K slots a (h + 1) p' F' N' ∧
      F'.flatMap PRoot.cells ++ N'.cells = F.flatMap PRoot.cells ++ N.cells ∧
      p'.nodeMap = p.nodeMap ∧ p'.numDels = p.numDels ∧ p'.full = p.full := by
  have htrees := hg.trees
  rw [rootRows_step _ hh, hb, if_pos rfl, List.map_append, List.map_singleton] at htrees
  obtain ⟨F, R, rfl, hF, hR⟩ : ∃ F' R, F = F' ++ [R] ∧
      F'.map PRoot.opt = (rootRows slots.length (h + 1)).map (rootTree slots) ∧
      R.opt = rootTree slots h := by
    rcases List.eq_nil_or_concat' F with rfl | ⟨F', R, rfl⟩
    · simp at htrees
    · rw [List.map_append, List.map_singleton] at htrees
      obtain ⟨h1, h2⟩ := List.append_inj' htrees rfl
      exact ⟨F', R, rfl, h1, by simpa using h2⟩
  have hgrown := grownTree_succ hl hb a
  rw [← hR, ← hg.tree] at hgrown
  have hlast : p.roots.getLast? = some R.addr := by
    rw [hg.roots]
    simp
  have hdrop : p.roots.dropLast = F.map PRoot.addr := by
    rw [hg.roots]
    simp
  have hdata := (hg.heap.ok R (by simp)).hash
  rw [Pollard.newRootLoop, if_pos (by rw [hg.numLeaves, shiftRight_and_one, hb]), hlast]
  cases R with
  | vacant b =>
    -- An empty root is taken off, and the new tree keeps its place.
    refine ⟨{ p with roots := p.roots.dropLast }, F, N, ?_, ⟨?_, hdrop, hF, ?_, hg.numLeaves,
      hg.sturdy⟩, by simp [PRoot.cells], rfl, rfl, rfl⟩
    · have hempty : (p.heap.get b).data = empty := hdata
      simp [PRoot.addr, hempty]
    · refine hg.heap.of_sublist ?_
      rw [List.append_assoc]
      exact (List.Sublist.refl F).append (List.sublist_cons_self _ _)
    · rw [hgrown]
      rfl
  | full T =>
    have hne : (p.heap.get T.addr).data ≠ empty := by
      rw [show (p.heap.get T.addr).data = treeHash T.tree from hdata]
      refine treeHash_ne_empty hi fun x hx => hlive x ?_
      refine rootTree_leaves_subset slots h x ?_
      rw [← hR]
      exact hx
    have hboth : HeapRep p.heap (F ++ [.full T, .full N]) := by simpa using hg.heap
    obtain ⟨h1, h3, hswap, hup, hsame, hfresh, hrem, hrep⟩ := mergeNodes_spec hboth p.full
    obtain ⟨⟨-, hlinks⟩, hnodes⟩ := hrep.ok (.full (.node h1.next T N)) (by simp)
    have hmarked : p.heap.Marked K → h3.Marked K := by
      intro hm b hb
      by_cases hnew : b = h1.next
      · subst hnew
        rw [hnodes.1] at hb
        exact absurd hb (hK _ _)
      · rw [(hsame b hnew).1] at hb
        rw [(hsame b hnew).2, hm b hb]
    have hprune : prune h3 h1.next = .ok h3 := by
      refine prune_eq_self hlinks.1 ?_
      rcases hg.sturdy with ⟨-, hremN⟩ | ⟨hm, hkept⟩
      · exact Or.inr (Or.inl (by rw [(hsame _ hfresh).2, hremN]))
      · exact (hkept h hh (hl.succ hb) T.tree hR.symm N.tree hg.tree.symm).nieces (hmarked hm)
          hlinks hnodes
    refine ⟨{ p with roots := p.roots.dropLast, heap := h3 }, F, .node h1.next T N, ?_,
      ⟨hrep, hdrop, hF, ?_, hg.numLeaves, ?_⟩, ?_, rfl, rfl, rfl⟩
    · simp only [PRoot.addr, if_neg hne, hswap, Exec.ok_bind]
      rw [show (h1.alloc ⟨some T.addr, some N.addr, none,
        parentHash (h1.get T.addr).data (h1.get N.addr).data, p.full⟩).1 = h1.next from rfl, hup,
        Exec.ok_bind, hprune]
      rfl
    · rw [hgrown]
      rfl
    · exact hg.sturdy.imp (fun hs => ⟨hs.1, hrem.trans hs.1⟩) (fun hs => ⟨hmarked hs.1, hs.2⟩)
    · simp [PRoot.cells, PTree.cells]

omit [DecidableEq M] [MiniHash H M] in
/-- **`calculateNewRoot` merges the new leaf** into the tree on the row of the lowest
zero. -/
theorem newRootLoop_spec (hi : ∀ a b : H, parentHash a b ≠ empty)
    (hK : ∀ a b : H, ¬ K (parentHash a b)) (hlive : ∀ x ∈ liveLeaves slots, x ≠ empty) {t : Nat}
    (hl : LowOnes slots.length t) (hb : slots.length.testBit t = false) (ht : t ≤ 64) {d : Nat} :
    ∀ {h : Nat} (fuel : Nat) {p : Pollard H M} {F : List (PRoot H)} {N : PTree H},
      Growing K slots a h p F N → h + d = t → d < fuel →
      ∃ p' F' N', Pollard.newRootLoop p fuel h N.addr = .ok (p', N'.addr) ∧
        Growing K slots a t p' F' N' ∧
        F'.flatMap PRoot.cells ++ N'.cells = F.flatMap PRoot.cells ++ N.cells ∧
        p'.nodeMap = p.nodeMap ∧ p'.numDels = p.numDels ∧ p'.full = p.full := by
  induction d with
  | zero =>
    intro h fuel p F N hg hd hf
    obtain ⟨fuel, rfl⟩ : ∃ k, fuel = k + 1 := ⟨fuel - 1, by omega⟩
    obtain rfl : h = t := by omega
    refine ⟨p, F, N, ?_, hg, rfl, rfl, rfl, rfl⟩
    rw [Pollard.newRootLoop, if_neg (by rw [hg.numLeaves, shiftRight_and_one, hb]; simp)]
  | succ d ih =>
    intro h fuel p F N hg hd hf
    obtain ⟨fuel, rfl⟩ : ∃ k, fuel = k + 1 := ⟨fuel - 1, by omega⟩
    have hlow : LowOnes slots.length h := hl.of_le (by omega)
    obtain ⟨p1, F1, N1, hstep, hg1, hc1, hm1, hd1, hf1⟩ := newRootLoop_step hi hK hlive fuel hg
      hlow (hl.testBit_of_lt (by omega)) (by omega)
    obtain ⟨p2, F2, N2, hrun, hg2, hc2, hm2, hd2, hf2⟩ := ih fuel hg1 (by omega) (by omega)
    exact ⟨p2, F2, N2, hstep.trans hrun, hg2, hc2.trans hc1, hm2.trans hm1, hd2.trans hd1,
      hf2.trans hf1⟩

/-! ### The whole Pollard -/

/-- Under the keys in `Q` the node map leads to the nodes of the leaves that are not yet `gone`. -/
def MapOk (Q : M → Prop) (m : Finmap fun _ : M => Addr) (cells : List (Addr × H))
    (gone : List H) : Prop :=
  ∀ k, Q k → ∀ b, m.lookup k = some b ↔ ∃ x, (b, x) ∈ cells ∧ x ∉ gone ∧ mini x = k

/-- **The representation invariant of a full Pollard.**  `Q` are the keys of the node map that tell
the leaves apart, and `gone` the leaves that a block has taken out of the node map and is about to
delete. -/
structure Pollard.Holds (Q : M → Prop) (p : Pollard H M) (F : List (PRoot H))
    (slots : List (Option H)) (gone : List H) : Prop where
  rep : p.Rep F
  trees : F.map PRoot.opt = forestTrees slots
  numLeaves : p.numLeaves = slots.length
  full : p.full = true
  map : MapOk Q p.nodeMap (F.flatMap PRoot.cells) gone

variable {Q : M → Prop}

omit [DecidableEq H] [HashOps H] in
theorem cells_snd_of_trees {F : List (PRoot H)} (hF : F.map PRoot.opt = forestTrees slots)
    (hn : slots.length < 2 ^ 64) :
    (F.flatMap PRoot.cells).map Prod.snd = liveLeaves slots := by
  rw [← leaves_forestTrees hn, ← hF, List.map_flatMap, List.flatMap_map]
  congr 1
  funext R
  cases R with
  | vacant b => rfl
  | full t => exact t.cells_snd

omit [DecidableEq H] [HashOps H] in
theorem MapOk.insert {m : Finmap fun _ : M => Addr} {cells : List (Addr × H)}
    (hm : MapOk Q m cells []) {b : Addr}
    (hfresh : Q (mini a) → mini a ∉ (cells.map Prod.snd).map mini) :
    MapOk Q (m.insert (mini a) b) (cells ++ [(b, a)]) [] := by
  intro k hQ c
  by_cases hk : k = mini a
  · subst hk
    rw [Finmap.lookup_insert]
    constructor
    · rintro ⟨rfl⟩
      exact ⟨a, by simp, List.not_mem_nil, rfl⟩
    · rintro ⟨x, hx, -, hxa⟩
      rcases List.mem_append.1 hx with hx | hx
      · exact absurd (hxa ▸ List.mem_map_of_mem (List.mem_map_of_mem hx)) (hfresh hQ)
      · simp only [List.mem_singleton, Prod.mk.injEq] at hx
        rw [hx.1]
  · rw [Finmap.lookup_insert_of_ne _ hk, hm k hQ c]
    refine exists_congr fun x => and_congr_left fun hx => ?_
    have hne : (c, x) ≠ (b, a) := by
      rintro ⟨rfl, rfl⟩
      exact hk hx.2.symm
    simp [hne]

omit [DecidableEq H] [HashOps H] in
/-- A leaf whose key is not in `Q` need not be found. -/
theorem MapOk.skip {m : Finmap fun _ : M => Addr} {cells : List (Addr × H)}
    (hm : MapOk Q m cells []) {b : Addr} (hQa : ¬ Q (mini a)) :
    MapOk Q m (cells ++ [(b, a)]) [] := by
  intro k hQ c
  rw [hm k hQ c]
  refine exists_congr fun x => and_congr_left fun hx => ?_
  have hne : (c, x) ≠ (b, a) := by
    rintro ⟨rfl, rfl⟩
    exact hQa (hx.2 ▸ hQ)
  simp [hne]

omit [DecidableEq H] [DecidableEq M] [MiniHash H M] in
/-- Nothing is merged yet when the node of the new leaf has been made. -/
theorem Pollard.growing_new {p : Pollard H M} {F : List (PRoot H)}
    (hheap : HeapRep p.heap F) (hroots : p.roots = F.map PRoot.addr)
    (htrees : F.map PRoot.opt = forestTrees slots) (hnum : p.numLeaves = slots.length)
    (m : Finmap fun _ : M => Addr) {rem : Bool} (hfull : p.full = true → rem = true)
    (hrem : K a → rem = true) (hkept : p.full = true ∨ p.heap.Marked K ∧ LeafKept K slots a) :
    Growing K slots a 0 { p with
      heap := (p.heap.alloc ⟨none, none, none, a, rem⟩).2, nodeMap := m } F
      (.leaf p.heap.next a) := by
  have hget : (p.heap.alloc ⟨none, none, none, a, rem⟩).2.get p.heap.next =
    ⟨none, none, none, a, rem⟩ := if_pos rfl
  have hheap : HeapRep p.heap (F ++ []) := by rwa [List.append_nil]
  refine ⟨hheap.allocLeaf a rem, hroots, htrees, (grownTree_zero _ _).symm, hnum,
    hkept.imp (fun h => ⟨h, ?_⟩) (fun ⟨hm, hkept⟩ => ⟨fun b hb => ?_, hkept⟩)⟩
  · exact (congrArg PolNode.remember hget).trans (hfull h)
  · by_cases hnew : b = p.heap.next
    · subst hnew
      rw [hget] at hb ⊢
      exact hrem hb
    · have hold : (p.heap.alloc ⟨none, none, none, a, rem⟩).2.get b = p.heap.get b := if_neg hnew
      rw [hold] at hb ⊢
      exact hm b hb

/-- **One more leaf**, up to whether the Pollard is full, if `prune` drops nothing. -/
theorem Pollard.addLeaf_spec (hi : ∀ a b : H, parentHash a b ≠ empty)
    (hK : ∀ a b : H, ¬ K (parentHash a b)) (hKQ : ∀ x, K x → Q (mini x))
    (hlive : ∀ x ∈ liveLeaves slots, x ≠ empty) (hn : slots.length + 1 < 2 ^ 64)
    {p : Pollard H M} {F : List (PRoot H)}
    (hp : Pollard.Holds Q { p with full := true } F slots []) (new : Leaf H)
    (hkept : p.full = true ∨ p.heap.Marked K ∧ LeafKept K slots new.hash)
    (hrem : Q (mini new.hash) → (new.remember || p.full) = true)
    (hfresh : Q (mini new.hash) → mini new.hash ∉ (liveLeaves slots).map mini) :
    ∃ p' F', p.addLeaf new = .ok p' ∧
      Pollard.Holds Q { p' with full := true } F' (slots ++ [some new.hash]) [] ∧
      p'.numDels = p.numDels ∧ p'.full = p.full ∧ (p'.full = true ∨ p'.heap.Marked K) := by
  obtain ⟨t, ht, hl, hb⟩ := exists_lowZero (show slots.length < 2 ^ 64 by omega)
  have ht64 : t < 64 := hl.lt_sixtyFour hn
  obtain ⟨p2, F2, N2, hrun, hg2, hcells, hmap, hdels, hfull⟩ := newRootLoop_spec hi hK hlive hl hb
    ht 65 (Pollard.growing_new (p := p) hp.rep.toHeapRep hp.rep.roots hp.trees hp.numLeaves
      (if new.remember || p.full then p.nodeMap.insert (mini new.hash) p.heap.next
        else p.nodeMap) (fun h => by simp [h]) (fun h => hrem (hKQ _ h)) hkept)
    (Nat.zero_add t) (by omega)
  refine ⟨{ p2 with roots := p2.roots ++ [N2.addr], numLeaves := add64 p2.numLeaves 1 },
    F2 ++ [.full N2], ?_, ⟨⟨hg2.heap, ?_⟩, ?_, ?_, rfl, ?_⟩, hdels, hfull,
    hg2.sturdy.imp And.left And.left⟩
  · rw [Pollard.addLeaf]
    exact congrArg (· >>= _) hrun
  · show p2.roots ++ [N2.addr] = _
    rw [hg2.roots, List.map_append]
    rfl
  · rw [forestTrees_concat hl hb ht64, List.map_append, hg2.trees, rootRows_step _ ht64, hb,
      ← hg2.tree]
    simp [PRoot.opt]
  · show add64 p2.numLeaves 1 = _
    rw [hg2.numLeaves, add64_of_lt (by omega)]
    simp
  · show MapOk Q p2.nodeMap _ []
    rw [List.flatMap_append, List.flatMap_singleton, hmap]
    show MapOk Q _ (F2.flatMap PRoot.cells ++ N2.cells) []
    rw [hcells]
    dsimp only
    split_ifs with hnew
    · refine MapOk.insert hp.map ?_
      rwa [cells_snd_of_trees hp.trees (by omega)]
    · exact MapOk.skip hp.map fun hQ => hnew (hrem hQ)

/-- The leaves are distinct, and no other one has the key of a leaf if this is in `Q`. -/
structure KeysApart (Q : M → Prop) (leaves : List H) : Prop where
  nodup : leaves.Nodup
  inj : ∀ {a b : H}, a ∈ leaves → b ∈ leaves → Q (mini a) → mini a = mini b → a = b

/-- **`add` appends the new leaves** if `prune` drops nothing. -/
theorem Pollard.add_kept (hi : ∀ a b : H, parentHash a b ≠ empty)
    (hK : ∀ a b : H, ¬ K (parentHash a b)) (hKQ : ∀ x, K x → Q (mini x)) (adds : List (Leaf H)) :
    ∀ {slots : List (Option H)} {p : Pollard H M} {F : List (PRoot H)},
      Pollard.Holds Q { p with full := true } F slots [] →
      (p.full = true ∨ p.heap.Marked K ∧ LeavesKept K slots (adds.map Leaf.hash)) →
      (∀ l ∈ adds, Q (mini l.hash) → (l.remember || p.full) = true) →
      (∀ x ∈ liveLeaves slots ++ adds.map Leaf.hash, x ≠ empty) →
      slots.length + adds.length < 2 ^ 64 →
      KeysApart Q (liveLeaves slots ++ adds.map Leaf.hash) →
      ∃ p' F', p.add adds = .ok p' ∧ Pollard.Holds Q { p' with full := true } F'
          (slots ++ adds.map fun l => some l.hash) [] ∧
        p'.numDels = p.numDels ∧ p'.full = p.full ∧ (p'.full = true ∨ p'.heap.Marked K) := by
  induction adds with
  | nil =>
    intro slots p F hp hkept _ _ _ _
    exact ⟨p, F, rfl, by simpa using hp, rfl, rfl, hkept.imp_right And.left⟩
  | cons new adds ih =>
    intro slots p F hp hkept hrem hne hlen hmini
    simp only [List.length_cons] at hlen
    have hfresh : Q (mini new.hash) → mini new.hash ∉ (liveLeaves slots).map mini := by
      intro hQ hmem
      obtain ⟨x, hx, hkey⟩ := List.mem_map.mp hmem
      obtain rfl := hmini.inj (List.mem_append_right _ List.mem_cons_self)
        (List.mem_append_left _ hx) hQ hkey.symm
      exact (List.nodup_append.mp hmini.nodup).2.2 _ hx _ List.mem_cons_self rfl
    obtain ⟨p1, F1, hrun, hp1, hd1, hf1, hm1⟩ := Pollard.addLeaf_spec hi hK hKQ
      (fun x hx => hne x (List.mem_append_left _ hx)) (by omega) hp new
      (hkept.imp_right fun hk => ⟨hk.1, hk.2.1⟩) (hrem new List.mem_cons_self) hfresh
    have hlive : liveLeaves (slots ++ [some new.hash]) ++ adds.map Leaf.hash =
        liveLeaves slots ++ (new :: adds).map Leaf.hash := by
      simp [liveLeaves]
    have hkept1 : p1.full = true ∨ p1.heap.Marked K ∧
        LeavesKept K (slots ++ [some new.hash]) (adds.map Leaf.hash) := by
      rcases hkept with hfull | ⟨-, -, hrest⟩
      · exact Or.inl (hf1.trans hfull)
      · exact hm1.imp_right fun hm => ⟨hm, hrest⟩
    obtain ⟨p2, F2, hrun2, hp2, hd2, hf2, hm2⟩ := ih hp1 hkept1
      (fun l hl => hf1 ▸ hrem l (List.mem_cons_of_mem _ hl)) (by rwa [hlive]) (by simp; omega)
      (by rwa [hlive])
    refine ⟨p2, F2, ?_, by simpa using hp2, hd2.trans hd1, hf2.trans hf1, hm2⟩
    rw [Pollard.add, hrun, Exec.ok_bind, hrun2]

/-- **`add` appends the new leaves** to a full Pollard. -/
theorem Pollard.add_spec (hi : ∀ a b : H, parentHash a b ≠ empty) (adds : List (Leaf H))
    {slots : List (Option H)} {p : Pollard H M} {F : List (PRoot H)} (hp : p.Holds Q F slots [])
    (hne : ∀ x ∈ liveLeaves slots ++ adds.map Leaf.hash, x ≠ empty)
    (hlen : slots.length + adds.length < 2 ^ 64)
    (hmini : KeysApart Q (liveLeaves slots ++ adds.map Leaf.hash)) :
    ∃ p' F', p.add adds = .ok p' ∧
      p'.Holds Q F' (slots ++ adds.map fun l => some l.hash) [] ∧ p'.numDels = p.numDels := by
  obtain ⟨p', F', hrun, hp', hd, hf, -⟩ := Pollard.add_kept (K := fun _ => False) (F := F) hi
    (fun _ _ h => h) (fun _ h => h.elim) adds
    ⟨⟨hp.rep.toHeapRep, hp.rep.roots⟩, hp.trees, hp.numLeaves, rfl, hp.map⟩ (Or.inl hp.full)
    (fun l _ _ => by simp [hp.full]) hne hlen hmini
  exact ⟨p', F', hrun, ⟨⟨hp'.rep.toHeapRep, hp'.rep.roots⟩, hp'.trees, hp'.numLeaves,
    hf.trans hp.full, hp'.map⟩, hd⟩

end

end Utreexo
