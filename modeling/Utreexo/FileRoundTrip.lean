import Utreexo.FileRestore

/-! # A Pollard that is written and restored

What `WriteTo` writes, `RestorePollardFrom` reads back: the same nodes, which point to each
other in the same way, and the same entries of the node map.
-/
namespace Utreexo
open Wire Merkle

section
variable {H M : Type} [DecidableEq H] [HashOps H] [HashBytes H] [DecidableEq M] [MiniHash H M]
  {p q : Pollard H M} {slots : List (Option H)}

/-- The file of a Pollard of these leaves. -/
def fileOf (slots : List (Option H)) (numDels : Nat) : Bytes :=
  fileHeader slots.length numDels ++ encode (rootRecords (forestTrees slots))

omit [DecidableEq H] in
theorem length_fileOf (slots : List (Option H)) (numDels : Nat) :
    (fileOf slots numDels).length = 16 + 34 * (rootRecords (forestTrees slots)).length := by
  rw [fileOf, fileHeader, List.length_append, List.length_append, length_putLE, length_putLE,
    length_encode]

omit [DecidableEq H] [HashBytes H] in
/-- `GetTotalCount` counts the records of the file. -/
theorem Pollard.Represents.getTotalCount (hp : p.Represents slots) :
    p.getTotalCount = .ok (rootRecords (forestTrees slots)).length := by
  obtain ⟨F, hF⟩ := hp.holds
  rw [Pollard.getTotalCount, hF.rep.roots, countRoots_spec hF.rep.toHeapRep, hF.trees,
    Nat.zero_add]

omit [DecidableEq H] in
/-- **`WriteTo` writes the file, and `SerializeSize` is its length.** -/
theorem Pollard.Represents.writeTo (hp : p.Represents slots) :
    p.writeTo = .ok ⟨fileOf slots p.numDels, (fileOf slots p.numDels).length, .ok ()⟩ ∧
      p.serializeSize = .ok (fileOf slots p.numDels).length := by
  obtain ⟨F, hF⟩ := hp.holds
  constructor
  · rw [Pollard.writeTo, hF.rep.roots]
    have hhead : (Written.nothing.write (putLE 8 p.numLeaves)).write (putLE 8 p.numDels) =
        (⟨fileHeader slots.length p.numDels, 16, .ok ()⟩ : Written H) := by
      simp [Written.nothing, Written.write, fileHeader, hF.numLeaves]
    rw [hhead, writeRoots_spec hF.rep.toHeapRep, hF.trees, length_fileOf]
    rfl
  · rw [Pollard.serializeSize, hp.getTotalCount, Exec.ok_bind, length_fileOf]
    congr 1
    omega

/-! ### What is compared -/

/-- The node at a position. -/
def Pollard.NodeAt (p : Pollard H M) (pos : Nat) (a : Addr) : Prop :=
  ∃ sibling parent, p.getNode pos = .ok (some a, sibling, parent)

/-- The roots, their nieces and so on have the same hashes, and the aunt of every niece is
the node that it is a niece of. -/
def SameNieces (p q : Pollard H M) : Prop :=
  ∃ ts us : List (NTree (Addr × H)),
    (p.roots = ts.map (fun t => t.top.1) ∧ ∀ t ∈ ts, NRep p.heap none t) ∧
    (q.roots = us.map (fun t => t.top.1) ∧ ∀ t ∈ us, NRep q.heap none t) ∧
    ts.map (NTree.map Prod.snd) = us.map (NTree.map Prod.snd)

/-- The node maps have the same keys, and the nodes of a key are the leaves at the same
position. -/
structure SameEntries (slots : List (Option H)) (p q : Pollard H M) : Prop where
  keys : ∀ k, k ∈ q.nodeMap ↔ k ∈ p.nodeMap
  nodes : ∀ k a b, p.nodeMap.lookup k = some a → q.nodeMap.lookup k = some b →
    ∃ h pos, mini h = k ∧ LeafAt slots pos h ∧ p.NodeAt pos a ∧ q.NodeAt pos b

omit [DecidableEq H] [HashBytes H] [DecidableEq M] [MiniHash H M] in
/-- The roots, as trees of nieces. -/
theorem Pollard.Rep.roots_nieces {F : List (PRoot H)} (hF : p.Rep F) :
    p.roots = (F.map PRoot.nieces).map (fun t => t.top.1) ∧
      ∀ t ∈ F.map PRoot.nieces, NRep p.heap none t := by
  constructor
  · rw [hF.roots, List.map_map]
    exact List.map_congr_left fun R _ => by simp
  · intro t ht
    obtain ⟨R, hR, rfl⟩ := List.mem_map.mp ht
    exact (hF.nieces hR).1

omit [DecidableEq H] [HashBytes H] in
theorem Pollard.Represents.sameNieces (hp : p.Represents slots) (hq : q.Represents slots) :
    SameNieces p q := by
  obtain ⟨F, hF⟩ := hp.holds
  obtain ⟨G, hG⟩ := hq.holds
  have hshape : ∀ F : List (PRoot H), (F.map PRoot.nieces).map (NTree.map Prod.snd) =
      (F.map PRoot.opt).map rootShape := by
    intro F
    rw [List.map_map, List.map_map]
    exact List.map_congr_left fun R _ => R.map_nieces
  exact ⟨_, _, hF.rep.roots_nieces, hG.rep.roots_nieces, by rw [hshape, hshape, hF.trees, hG.trees]⟩

omit [DecidableEq H] [HashOps H] [HashBytes H] in
theorem PTree.cells_of_leaf {t : PTree H} {h : H} (ht : t.tree = .leaf h) :
    t.cells = [(t.addr, h)] := by
  cases t with
  | leaf a x =>
    cases ht
    rfl
  | node a l r => cases ht

omit [DecidableEq H] [HashBytes H] in
/-- The node of a leaf is found at its position. -/
theorem Pollard.Represents.nodeAt (hp : p.Represents slots) {x : Node} {h : H}
    (hx : placed slots x = some (.leaf h)) :
    ∃ a, p.nodeMap.lookup (mini h) = some a ∧ p.NodeAt (nodePos (treeRows slots.length) x) a := by
  obtain ⟨F, hF⟩ := hp.holds
  have hn := hp.fine.counted
  have hcell : ∀ a, (a, h) ∈ F.flatMap PRoot.cells → p.nodeMap.lookup (mini h) = some a :=
    fun a ha => (hF.map _ trivial a).mpr ⟨h, ha, List.not_mem_nil, rfl⟩
  obtain ⟨j, hj⟩ := (placed_inForest hx).exists_root
  cases j with
  | zero =>
    obtain ⟨R, bits, hR, hopt, -, hnode⟩ := hF.rep.getNode_eq hn hF.trees hF.numLeaves hj
    rw [placed_eq (by omega) hj, ← hopt] at hx
    refine ⟨R.addr, hcell _ (List.mem_flatMap.mpr ⟨R, List.mem_of_getElem? hR, ?_⟩), _, _, hnode⟩
    cases R with
    | vacant a => cases hx
    | full t =>
      have ht : t.tree = .leaf h := by simpa [PRoot.opt] using hx
      rw [PRoot.cells, PTree.cells_of_leaf ht]
      exact List.mem_cons_self
  | succ j =>
    obtain ⟨f, fs, u, par, hR, -, hu, hnode⟩ := hF.rep.getNode_placed hn hF.trees hF.numLeaves hx hj
    refine ⟨u.addr, hcell _ (List.mem_flatMap.mpr ⟨_, List.mem_of_getElem? hR, ?_⟩), _, _, hnode⟩
    rw [PRoot.cells, mem_cells_plug, PTree.cells_of_leaf hu]
    exact Or.inl List.mem_cons_self

omit [DecidableEq H] [HashBytes H] in
theorem Pollard.Represents.sameEntries (hp : p.Represents slots) (hq : q.Represents slots) :
    SameEntries slots p q := by
  have hn := hp.fine.counted
  refine ⟨fun k => by rw [hp.mem_nodeMap, hq.mem_nodeMap], fun k a b ha hb => ?_⟩
  have hk : k ∈ p.nodeMap := Finmap.lookup_isSome.mp (by rw [ha]; rfl)
  obtain ⟨h, hh, rfl⟩ := List.mem_map.mp (hp.mem_nodeMap.mp hk)
  obtain ⟨x, hx⟩ := (mem_liveLeaves_iff_placed (by omega)).mp hh
  obtain ⟨a', ha', hat⟩ := hp.nodeAt hx
  obtain ⟨b', hb', hbt⟩ := hq.nodeAt hx
  obtain rfl := Option.some.inj (ha.symm.trans ha')
  obtain rfl := Option.some.inj (hb.symm.trans hb')
  exact ⟨h, _, rfl, ⟨x, hx, rfl⟩, hat, hbt⟩

/-- **A Pollard is restored from its file.**  What `WriteTo` writes has the length that
`SerializeSize` says; `RestorePollardFrom` reads all of it and returns the same Pollard.
The node map has an `int` for its size, so that there are fewer than `2 ^ 63` leaves. -/
theorem restore_inverts_write [SortAlg] (hne : ∀ a b : H, parentHash a b ≠ empty)
    {stack : List (PolBlock H × List H)} (hp : FullReach p stack) (hlt : p.numLeaves < 2 ^ 63) :
    ∃ (bytes : Bytes) (r : Restoring H M Bytes),
      p.writeTo = .ok ⟨bytes, bytes.length, .ok ()⟩ ∧ p.serializeSize = .ok bytes.length ∧
      restorePollardFrom bytes = .ok (.ok r) ∧ r.rest = [] ∧ r.totalBytes = bytes.length ∧
      r.p.numLeaves = p.numLeaves ∧ r.p.numDels = p.numDels ∧ r.p.getRoots = p.getRoots ∧
      SameNieces p r.p ∧ SameEntries (stackSlots stack) p r.p := by
  have hp := hp.represents hne
  obtain ⟨hwrite, hsize⟩ := hp.writeTo
  have hn := hp.numLeaves
  have hd := hp.numDels
  obtain ⟨r, ts, hrun, hread, hrest, htotal⟩ := restore_cut (M := M) hp.fine
    (show p.numDels < 2 ^ 64 by omega) (rootRecords (forestTrees (stackSlots stack))).length
  have hdrop : (fileNodes (forestTrees (stackSlots stack))).drop
      (rootRecords (forestTrees (stackSlots stack))).length = [] := by
    rw [List.drop_eq_nil_iff, length_fileNodes]
  have hr : r.p.Represents (stackSlots stack) := by
    refine hread.represents hne hp.fine hd ?_
    simp [hdrop]
  have hcheck := (hread.checkLeaves_eq hp.fine (by omega) hd).1 (by rw [hdrop]; rfl)
  rw [List.take_length] at hrun htotal
  refine ⟨_, r, hwrite, hsize, hrun.trans (congrArg _ hcheck), hrest, ?_, ?_, hread.numDels_eq, ?_,
    hp.sameNieces hr, hp.sameEntries hr⟩
  · rw [htotal, length_fileOf]
  · rw [hread.numLeaves, hn]
  · rw [hr.getRoots, hp.getRoots]

end

/-! ### Four leaves, of which the first is deleted -/

theorem Hash32.parentHash_ne_empty (a b : Hash32) : parentHash a b ≠ empty := by
  show Hash32.fill 255 ≠ Hash32.fill 0
  decide

/-- Leaves of 32 bytes. -/
theorem Hash32.leavesFine {slots : List (Option Hash32)}
    (hl : ∀ h ∈ liveLeaves slots, h ≠ empty ∧ mini (Hash32.fill 255) ≠ mini h)
    (hnd : ((liveLeaves slots).map mini).Nodup) (hn : slots.length ≤ 2 ^ 63) :
    LeavesFine Bytes slots :=
  ⟨fun h hh => ⟨(hl h hh).1, fun _ _ => (hl h hh).2⟩, hnd, hn⟩

/-- Four leaves are added, and then the first one is deleted. -/
def firstDeleted : List (PolBlock Hash32) :=
  [⟨[⟨.fill 1, false⟩, ⟨.fill 2, false⟩, ⟨.fill 3, false⟩, ⟨.fill 4, false⟩], [], ⟨[], []⟩⟩,
    ⟨[], [.fill 1], ⟨[0], [.fill 2, .fill 255]⟩⟩]

theorem firstDeleted_honest : HonestRun Bytes [] firstDeleted :=
  ⟨⟨.nil, by decide, Hash32.leavesFine (by decide) (by decide) (by decide)⟩,
    ⟨.cons ⟨⟨0, 0⟩, by decide, by decide⟩ .nil, by decide,
      Hash32.leavesFine (by decide) (by decide) (by decide)⟩, trivial⟩

attribute [local instance] SortAlg.stable in
/-- The Pollard after these blocks. -/
theorem exists_firstDeleted : ∃ (p : Pollard Hash32 Bytes)
    (stack : List (PolBlock Hash32 × List Hash32)),
      FullReach p stack ∧
      stackSlots stack = [none, some (.fill 2), some (.fill 3), some (.fill 4)] := by
  obtain ⟨hb, hb', -⟩ := firstDeleted_honest
  obtain ⟨p, hrun, hp⟩ := represents_newAccumulator.modify Hash32.parentHash_ne_empty hb
  obtain ⟨p', hrun', -⟩ := hp.modify Hash32.parentHash_ne_empty hb'
  refine ⟨p', _, .modify (.modify .new hb (by decide) hrun) hb' (by decide) hrun', ?_⟩
  simp only [stackSlots]
  decide

attribute [local instance] SortAlg.stable in
theorem restore_inverts_write_firstDeleted : ∃ (p : Pollard Hash32 Bytes) (bytes : Bytes)
    (r : Restoring Hash32 Bytes Bytes), p.writeTo = .ok ⟨bytes, bytes.length, .ok ()⟩ ∧
      restorePollardFrom bytes = .ok (.ok r) ∧ r.p.numLeaves = 4 ∧ r.p.getRoots = p.getRoots := by
  obtain ⟨p, stack, hp, hslots⟩ := exists_firstDeleted
  have hn : p.numLeaves = 4 := by
    rw [(hp.represents Hash32.parentHash_ne_empty).numLeaves, hslots]
    rfl
  obtain ⟨bytes, r, hwrite, -, hread, -, -, hnum, -, hroots, -⟩ :=
    restore_inverts_write Hash32.parentHash_ne_empty hp (by omega)
  exact ⟨p, bytes, r, hwrite, hread, hnum.trans hn, hroots⟩

end Utreexo
