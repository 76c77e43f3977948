import Utreexo.FileRoundTrip

/-! # A Pollard file that has been cut off

`readOne` takes the end of the input for the end of the Pollard, and afterwards only the
number of leaves is checked.  So a file that ends between two records, and of whose records
only inner nodes are missing, is restored to a Pollard without these nodes.
-/
namespace Utreexo
open Wire Merkle

/-! ### Positions and nieces -/

/-- The nieces that `getNode` goes to. -/
def nieceTurns (bits : Nat) : Nat → List Bool
  | 0 => []
  | d + 1 => bits.testBit d :: nieceTurns bits d

/-- From the nieces that one goes to, to the children, and back. -/
def turnNieces : List Bool → List Bool
  | [] => []
  | b :: q => (if q = [] then b else !b) :: turnNieces q

@[simp] theorem length_turnNieces (q : List Bool) : (turnNieces q).length = q.length := by
  induction q with
  | nil => rfl
  | cons b q ih => simp [turnNieces, ih]

@[simp] theorem turnNieces_turnNieces (q : List Bool) : turnNieces (turnNieces q) = q := by
  induction q with
  | nil => rfl
  | cons b q ih =>
    have hnil : turnNieces q = [] ↔ q = [] := by
      rw [← List.length_eq_zero_iff, length_turnNieces, List.length_eq_zero_iff]
    by_cases hq : q = [] <;> simp [turnNieces, hnil, ih, hq]

theorem turnsOf_eq_turnNieces (bits d : Nat) : turnsOf bits d = turnNieces (nieceTurns bits d) := by
  induction d with
  | zero => rfl
  | succ d ih =>
    have hnil : nieceTurns bits d = [] ↔ d = 0 := by cases d <;> simp [nieceTurns]
    by_cases hd : d = 0 <;> simp [turnsOf, nieceTurns, turnNieces, ih, hnil, hd]

section
variable {H M : Type} [DecidableEq H] [HashOps H] [HashBytes H] [DecidableEq M] [MiniHash H M]

omit [DecidableEq H] [HashOps H] [HashBytes H] in
/-- `getNode` goes down the nieces. -/
theorem getNodeLoop_walk {h : Heap H} {aunt : Option Addr} {t : NTree (Addr × H)}
    (hr : NRep h aunt t) (bits d : Nat) (sib par : Option Addr) :
    (Pollard.getNodeLoop h bits d t.top.1 sib par).1 =
      (t.walk (nieceTurns bits d)).map Prod.fst := by
  induction d generalizing t aunt sib par with
  | zero => rfl
  | succ d ih =>
    rw [Pollard.getNodeLoop, nieceTurns, isLeftNiece_bit]
    cases t with
    | tip a =>
      have hr : CellIs (h.get a.1) none none aunt a.2 := hr
      simp [NTree.walk, hr.lNiece, hr.rNiece]
    | node a l r =>
      obtain ⟨hcell, hl, hr⟩ := hr
      rcases hb : bits.testBit d with _ | _
      · simp [NTree.walk, hcell.lNiece, hcell.rNiece, ih hl]
      · simp [NTree.walk, hcell.lNiece, hcell.rNiece, ih hr]

omit [DecidableEq H] [HashBytes H] in
/-- The nieces of a tree are nodes of it. -/
theorem subAt_of_walk {T : CTree H} {d e : H} {q : List Bool}
    (hq : (nieceShape d T).walk q = some e) : ∃ s, T.subAt (turnNieces q) = some s := by
  induction T generalizing d q with
  | leaf x =>
    cases q with
    | nil => exact ⟨_, rfl⟩
    | cons right q => cases hq
  | node l r ihl ihr =>
    cases q with
    | nil => exact ⟨_, rfl⟩
    | cons right q =>
      by_cases hnil : q = []
      · subst hnil
        exact ⟨_, CTree.subAt_node l r right []⟩
      · rw [turnNieces, if_neg hnil]
        cases right with
        | false => exact ihr hq
        | true => exact ihl hq

omit [DecidableEq H] [HashBytes H] in
/-- **Every niece has a position.** -/
theorem exists_pos_of_walk {slots : List (Option H)} (hn : slots.length ≤ 2 ^ 63) {i : Nat}
    {o : Option (CTree H)} (hi : (forestTrees slots)[i]? = some o) {q : List Bool} {e : H}
    (hq : (rootShape o).walk q = some e) :
    ∃ pos bits, pos < maxPosition (treeRows slots.length) ∧
      detectOffset pos slots.length = .ok (i, q.length, bits) ∧ nieceTurns bits q.length = q := by
  have hk := treeRows_le hn
  rw [forestTrees, List.getElem?_map] at hi
  obtain ⟨R, hR, hopt⟩ := Option.map_eq_some_iff.mp hi
  have hmem := List.mem_of_getElem? hR
  have hroot := Node.rootAt_isRoot (mem_rootRows.mp hmem).2.2
  have hlen : (turnNieces q).length ≤ (Node.rootAt slots.length R).row := by
    cases o with
    | none =>
      cases q with
      | nil => exact Nat.zero_le _
      | cons right q => cases hq
    | some T =>
      obtain ⟨s, hs⟩ := subAt_of_walk hq
      exact CTree.length_le_of_subAt_perfect hopt hs
  obtain ⟨hup, hpath⟩ := Node.down_spec hlen
  rw [length_turnNieces] at hup hpath
  have hrow := congrArg Node.row hup
  rw [Node.up_row] at hrow
  obtain ⟨bits, hbits, hoff⟩ := detectOffset_nodePos hn (x := (Node.rootAt slots.length R).down
    (turnNieces q)) (j := q.length) (by rw [hup]; exact hroot)
  -- The index of the root.
  have hidx : (rootRows slots.length (((Node.rootAt slots.length R).down (turnNieces q)).row +
      q.length + 1)).length = i := by
    have hnd : (rootRows slots.length 0).Nodup :=
      (rootRows_pairwise slots.length 0).imp fun h => h.ne'
    have hget := rootRows_getElem hmem
    rw [hrow]
    exact (List.getElem?_inj (List.getElem?_eq_some_iff.mp hget).1 hnd).mp (hget.trans hR.symm)
  refine ⟨_, bits, ?_, hidx ▸ hoff, ?_⟩
  · rw [maxPosition_eq hk]
    refine (fits_of_inForest (le_two_pow_treeRows _) (Node.inForest_of_up (j := q.length)
      (by rw [hup]; exact hroot.inForest))).pos_lt_max
  · rw [← turnNieces_turnNieces (nieceTurns bits q.length), ← turnsOf_eq_turnNieces,
      turnsOf_eq_path hbits, hpath, turnNieces_turnNieces]

omit [DecidableEq H] [HashBytes H] [DecidableEq M] [MiniHash H M] in
/-- `GetHash` at the position of a niece. -/
theorem getHash_of_walk {p : Pollard H M} {ts : List (NTree (Addr × H))} {t : NTree (Addr × H)}
    {i pos bits : Nat} {q : List Bool} (hroots : p.roots = ts.map fun t => t.top.1)
    (hlen : ts.length < 2 ^ 8) (hi : ts[i]? = some t) (hr : NRep p.heap none t)
    (hmax : pos < maxPosition (treeRows p.numLeaves))
    (hoff : detectOffset pos p.numLeaves = .ok (i, q.length, bits))
    (hq : nieceTurns bits q.length = q) :
    p.getHash pos = ((t.walk q).map Prod.snd).getD empty := by
  have hroot : p.roots[i]? = some t.top.1 := by
    rw [hroots, List.getElem?_map, hi]
    rfl
  have hlt : i < p.roots.length % 2 ^ 8 := by
    rw [hroots, List.length_map, Nat.mod_eq_of_lt hlen]
    exact (List.getElem?_eq_some_iff.mp hi).1
  rw [Pollard.getHash_of_ok (Pollard.getNode_of_offset hmax hoff hlt hroot),
    getNodeLoop_walk hr, hq]
  cases hw : t.walk q with
  | none => rfl
  | some e => exact hr.walk hw

/-! ### A missing node -/

variable {p : Pollard H M} {slots : List (Option H)}

/-- What is compared: the roots, the hashes at all positions, and the node map. -/
structure SamePollard (slots : List (Option H)) (p q : Pollard H M) : Prop where
  roots : q.getRoots = p.getRoots
  hashes : ∀ pos, q.getHash pos = p.getHash pos
  entries : SameEntries slots p q

omit [DecidableEq H] [HashBytes H] in
theorem Pollard.Represents.samePollard {q : Pollard H M} (hp : p.Represents slots)
    (hq : q.Represents slots) : SamePollard slots p q := by
  refine ⟨by rw [hp.getRoots, hq.getRoots], fun pos => ?_, hp.sameEntries hq⟩
  obtain ⟨F, hF⟩ := hp.holds
  obtain ⟨G, hG⟩ := hq.holds
  rw [hF.rep.getHash, hG.rep.getHash, hF.trees, hG.trees, hF.numLeaves, hG.numLeaves]

omit [HashBytes H] in
/-- **A node that is missing is noticed**: its hash is not at its position. -/
theorem ReadUpTo.not_same {numDels k : Nat} {s : Restoring H M Bytes}
    {ts : List (NTree (Addr × H × Bool))} (hr : ReadUpTo slots numDels k s ts)
    (hp : p.Represents slots) {e : H × Bool} (he : e ∈ (fileNodes (forestTrees slots)).drop k)
    (hne : e.1 ≠ empty) : ¬ SamePollard slots p s.p := by
  intro hsame
  have hn := hp.fine.counted
  obtain ⟨rest, n, hg⟩ := hr.grown
  obtain ⟨F, hF⟩ := hp.holds
  obtain ⟨i, t, t', q, hi, hq, hi', hq'⟩ := NTree.walk_cutAll (x := missing) he
  -- The tree in the forest.
  rw [List.getElem?_map] at hi
  obtain ⟨o, ho, rfl⟩ := Option.map_eq_some_iff.mp hi
  have hshape : (rootShape o).walk q = some e.1 := by
    have := congrArg (Option.map Prod.fst) hq
    rwa [← NTree.map_walk, fileTree, NTree.map_fst_flagged] at this
  obtain ⟨pos, bits, hmax, hoff, hturns⟩ := exists_pos_of_walk hn ho hshape
  have h64 := length_forestTrees slots
  -- The tree of the Pollard.
  have hF' := ho
  rw [← hF.trees, List.getElem?_map] at hF'
  obtain ⟨R, hR, hopt⟩ := Option.map_eq_some_iff.mp hF'
  have hlenF : F.length = (forestTrees slots).length := by rw [← hF.trees, List.length_map]
  obtain ⟨hroots, hrep⟩ := hF.rep.roots_nieces
  have hRi : (F.map PRoot.nieces)[i]? = some R.nieces := by
    rw [List.getElem?_map, hR]
    rfl
  have h1 := getHash_of_walk hroots (by rw [List.length_map]; omega) hRi
    (hrep _ (List.mem_of_getElem? hRi)) (hF.numLeaves ▸ hmax) (hF.numLeaves ▸ hoff) hturns
  rw [← NTree.map_walk, R.map_nieces, hopt, hshape] at h1
  -- The tree that has been read.
  rw [← hr.cut, List.getElem?_map] at hi'
  obtain ⟨u, hu, rfl⟩ := Option.map_eq_some_iff.mp hi'
  have hroots' : s.p.roots = (ts.map (NTree.map fun e => (e.1, e.2.1))).map fun t => t.top.1 := by
    rw [hg.same, List.map_map]
    exact List.map_congr_left fun t _ => by simp
  have hui : (ts.map (NTree.map fun e => (e.1, e.2.1)))[i]? =
      some (u.map fun e => (e.1, e.2.1)) := by
    rw [List.getElem?_map, hu]
    rfl
  have hlen : ts.length = (forestTrees slots).length := by
    simpa using congrArg List.length hr.cut
  have h2 := getHash_of_walk hroots' (by rw [List.length_map]; omega) hui
    (hg.rep u (List.mem_of_getElem? hu)) (hr.numLeaves ▸ hmax) (hr.numLeaves ▸ hoff) hturns
  have hempty : ((u.map fun e => (e.1, e.2.1)).walk q).map Prod.snd = none ∨
      ((u.map fun e => (e.1, e.2.1)).walk q).map Prod.snd = some empty := by
    rw [NTree.map_walk] at hq' ⊢
    cases hw : u.walk q with
    | none => exact Or.inl rfl
    | some b =>
      have hb := hq' b.2 (by rw [hw]; rfl)
      exact Or.inr (by simp [hb, missing])
  have h3 : s.p.getHash pos = empty := by
    rcases hempty with h | h <;> rw [h2, h] <;> rfl
  rw [hsame.hashes, h1] at h3
  exact hne h3

/-! ### Where the file ends -/

/-- The lengths at which a file is cut off without notice: within the second count, if the
bytes of it that are left agree with the first count although there are leaves; and between
two records, if nodes are missing but no leaf is. -/
def BadCut (slots : List (Option H)) (numDels L : Nat) : Prop :=
  (8 < L ∧ L < 16 ∧ liveLeaves slots ≠ [] ∧
    numDels % 256 ^ (L - 8) = slots.length % 256 ^ (L - 8)) ∨
  ∃ k, L = 16 + 34 * k ∧
    (∀ r ∈ (rootRecords (forestTrees slots)).drop k, r.leaf = true → r.data = empty) ∧
    ∃ r ∈ (rootRecords (forestTrees slots)).drop k, r.data ≠ empty

/-- What is claimed of the restored Pollard. -/
def RestoredOrRejected (slots : List (Option H)) (p : Pollard H M) (bytes : Bytes) : Prop :=
  (∃ e, (restorePollardFrom bytes : Exec (Except (RestoreErr × Nat) (Restoring H M Bytes))) =
    .ok (.error e)) ∨
  ∃ r, restorePollardFrom bytes = .ok (.ok r) ∧ SamePollard slots p r.p

omit [DecidableEq H] in
/-- A file that ends between two records. -/
theorem take_fileOf_boundary (numDels k : Nat) :
    (fileOf slots numDels).take (16 + 34 * k) =
      fileHeader slots.length numDels ++ encode ((rootRecords (forestTrees slots)).take k) := by
  have hlen : (fileHeader slots.length numDels).length = 16 := by simp [fileHeader]
  rw [fileOf, List.take_append, hlen, List.take_of_length_le (by omega), Nat.add_sub_cancel_left,
    take_encode]

omit [HashBytes H] in
theorem leafHashes_drop_eq_nil {k : Nat} :
    leafHashes ((fileNodes (forestTrees slots)).drop k) = [] ↔
      ∀ r ∈ (rootRecords (forestTrees slots)).drop k, r.leaf = true → r.data = empty := by
  rw [← map_rootRecords, ← List.map_drop, leafHashes, List.map_eq_nil_iff, List.filter_eq_nil_iff,
    List.forall_mem_map]
  simp

theorem restoredOrRejected_of_ok {bytes : Bytes} {s : Restoring H M Bytes}
    (h : restorePollardFrom bytes = .ok (.ok s)) :
    RestoredOrRejected slots p bytes ↔ SamePollard slots p s.p := by
  rw [RestoredOrRejected, h]
  simp

/-- **Between two records.** -/
theorem restored_boundary_iff (hne : ∀ a b : H, parentHash a b ≠ empty) (hp : p.Represents slots)
    (hlt : slots.length < 2 ^ 63) (k : Nat) :
    RestoredOrRejected slots p ((fileOf slots p.numDels).take (16 + 34 * k)) ↔
      ¬ ((∀ r ∈ (rootRecords (forestTrees slots)).drop k, r.leaf = true → r.data = empty) ∧
        ∃ r ∈ (rootRecords (forestTrees slots)).drop k, r.data ≠ empty) := by
  have hd := hp.numDels
  obtain ⟨s, ts, hrun, hread, -, -⟩ := restore_cut (M := M) hp.fine
    (show p.numDels < 2 ^ 64 by omega) k
  obtain ⟨hok, herr⟩ := hread.checkLeaves_eq hp.fine hlt hd
  rw [take_fileOf_boundary, ← leafHashes_drop_eq_nil]
  have hnodes : ∀ e ∈ (fileNodes (forestTrees slots)).drop k,
      ∃ r ∈ (rootRecords (forestTrees slots)).drop k, r.data = e.1 := by
    intro e he
    rw [← map_rootRecords, ← List.map_drop] at he
    obtain ⟨r, hr, rfl⟩ := List.mem_map.mp he
    exact ⟨r, hr, rfl⟩
  by_cases hleaves : leafHashes ((fileNodes (forestTrees slots)).drop k) = []
  · rw [hok hleaves] at hrun
    rw [restoredOrRejected_of_ok hrun, and_iff_right hleaves]
    by_cases hmissing : ∃ r ∈ (rootRecords (forestTrees slots)).drop k, r.data ≠ empty
    · obtain ⟨r, hr, hdata⟩ := hmissing
      have he : (r.data, r.leaf) ∈ (fileNodes (forestTrees slots)).drop k := by
        rw [← map_rootRecords, ← List.map_drop]
        exact List.mem_map_of_mem hr
      exact iff_of_false (hread.not_same hp he hdata) (not_not_intro ⟨r, hr, hdata⟩)
    · refine iff_of_true (hp.samePollard (hread.represents hne hp.fine hd fun e he => ?_)) hmissing
      obtain ⟨r, hr, heq⟩ := hnodes e he
      by_contra hdata
      exact hmissing ⟨r, hr, heq ▸ hdata⟩
  · obtain ⟨e, he⟩ := herr hleaves
    rw [he] at hrun
    exact iff_of_true (Or.inl ⟨e, hrun⟩) fun h => hleaves h.1

/-- Within a record. -/
theorem rejected_torn (hp : p.Represents slots) {k r : Nat} (hr : 0 < r) (hr34 : r < 34)
    (hk : k < (rootRecords (forestTrees slots)).length) :
    RestoredOrRejected slots p ((fileOf slots p.numDels).take (16 + 34 * k + r)) := by
  have hd := hp.numDels
  have hn := hp.fine.counted
  have hheader : (fileHeader slots.length p.numDels).length = 16 := by simp [fileHeader]
  -- The bytes of the record that is torn.
  obtain ⟨torn, htorn, htake⟩ : ∃ torn : Bytes, torn.length = r ∧
      (encode (rootRecords (forestTrees slots))).take (34 * k + r) =
        encode ((rootRecords (forestTrees slots)).take k) ++ torn := by
    refine ⟨((encode (rootRecords (forestTrees slots))).drop (34 * k)).take r, ?_, ?_⟩
    · rw [List.length_take, List.length_drop, length_encode]
      omega
    · rw [← take_encode, List.take_add]
  have hne : torn ≠ [] := List.ne_nil_of_length_pos (by omega)
  rw [← length_fileNodes, fileNodes] at hk
  obtain ⟨-, -, n, hrun⟩ := (readRoots_records (M := M) ((forestTrees slots).map fileTree)
    (s := .start slots.length p.numDels
      (encode ((rootRecords (forestTrees slots)).take k) ++ torn) 16) rfl
    (fun _ => by omega)).resolve_right fun h => hne (h.1 hk)
  refine Or.inl ⟨(.eof, n), ?_⟩
  rw [fileOf, List.take_append, hheader, List.take_of_length_le (by omega),
    show 16 + 34 * k + r - 16 = 34 * k + r by omega, htake, fileHeader, List.append_assoc,
    restore_start (by omega) (by omega), restoreRoots]
  have hnum : (Restoring.start slots.length p.numDels
      (encode ((rootRecords (forestTrees slots)).take k) ++ torn) 16 :
        Restoring H M Bytes).p.numLeaves = slots.length := rfl
  rw [hnum, numRoots_eq, hrun, Exec.ok_bind]

omit [DecidableEq H] [HashOps H] [HashBytes H] [DecidableEq M] [MiniHash H M] in
/-- A count whose high bytes are those of another. -/
theorem getLE_torn {n d c : Nat} (hc : c ≤ 8) (hn : n < 2 ^ 64) :
    getLE (putLE c d ++ (putLE 8 n).drop c) < 2 ^ 64 ∧
      (getLE (putLE c d ++ (putLE 8 n).drop c) = n ↔ d % 256 ^ c = n % 256 ^ c) := by
  have hn' : n = n % 256 ^ c + 256 ^ c * getLE ((putLE 8 n).drop c) := by
    conv_lhs => rw [← getLE_putLE_of_lt (show n < 256 ^ 8 by omega),
      ← List.take_append_drop c (putLE 8 n), getLE_append, take_putLE hc, getLE_putLE, length_putLE]
  have hpos : 0 < 256 ^ c := Nat.pow_pos (by omega)
  have hd := Nat.mod_lt d hpos
  constructor
  · have := getLE_lt (putLE c d ++ (putLE 8 n).drop c)
    rw [List.length_append, List.length_drop, length_putLE, length_putLE,
      Nat.add_sub_of_le hc] at this
    omega
  · rw [getLE_append, getLE_putLE, length_putLE]
    omega

omit [HashBytes H] in
/-- Without records the counts must agree. -/
theorem ReadUpTo.checkLeaves_zero {d : Nat} {s : Restoring H M Bytes}
    {ts : List (NTree (Addr × H × Bool))} (hr : ReadUpTo slots d 0 s ts)
    (hfine : LeavesFine M slots) (hd : d < 2 ^ 64) :
    (d = slots.length → checkLeaves s = .ok s) ∧
      (d ≠ slots.length → ∃ e, checkLeaves s = .error e) := by
  have hn := hfine.counted
  have hcard : s.p.nodeMap.keys.card = 0 := (hr.mapOk hfine).2
  have hsub : sub64 slots.length d = 0 ↔ d = slots.length := by
    unfold sub64
    omega
  rw [checkLeaves, hcard, hr.numLeaves, hr.numDels_eq]
  constructor
  · intro h
    rw [if_pos (by rw [hsub.mpr h]; decide)]
  · intro h
    exact ⟨_, if_neg fun hz => h (hsub.mp hz.2.symm)⟩

omit [DecidableEq H] [HashBytes H] in
/-- Without leaves all roots are empty. -/
theorem fileNodes_empty (hn : slots.length < 2 ^ 64) (hlive : liveLeaves slots = []) :
    ∀ e ∈ fileNodes (forestTrees slots), e.1 = empty := by
  intro e he
  obtain ⟨t, ht, he⟩ := List.mem_flatMap.mp he
  obtain ⟨o, ho, rfl⟩ := List.mem_map.mp ht
  have hleaves := leaves_forestTrees hn
  rw [hlive, List.flatMap_eq_nil_iff] at hleaves
  cases o with
  | none =>
    obtain rfl : e = (empty, true) := List.mem_singleton.mp he
    rfl
  | some T => exact absurd (hleaves _ ho) T.leaves_ne_nil

omit [HashBytes H] in
/-- Without records the node map is empty. -/
theorem ReadUpTo.not_same_zero {d : Nat} {s : Restoring H M Bytes}
    {ts : List (NTree (Addr × H × Bool))} (hr : ReadUpTo slots d 0 s ts) (hp : p.Represents slots)
    (hlive : liveLeaves slots ≠ []) : ¬ SamePollard slots p s.p := by
  intro hsame
  obtain ⟨h, hh⟩ := List.exists_mem_of_ne_nil _ hlive
  have hmem : mini h ∈ s.p.nodeMap :=
    (hsame.entries.keys _).mpr (hp.mem_nodeMap.mpr (List.mem_map_of_mem hh))
  have hcard : s.p.nodeMap.keys.card = 0 := (hr.mapOk hp.fine).2
  rw [← Finmap.mem_keys, Finset.card_eq_zero.mp hcard] at hmem
  exact absurd hmem (Finset.notMem_empty _)

/-- **Within the second count.** -/
theorem restored_header_iff (hne : ∀ a b : H, parentHash a b ≠ empty) (hp : p.Represents slots)
    {L : Nat} (h8 : 8 < L) (h16 : L < 16) :
    RestoredOrRejected slots p ((fileOf slots p.numDels).take L) ↔
      ¬ (liveLeaves slots ≠ [] ∧ p.numDels % 256 ^ (L - 8) = slots.length % 256 ^ (L - 8)) := by
  have hd := hp.numDels
  have hn := hp.fine.counted
  have htake : (fileOf slots p.numDels).take L =
      putLE 8 slots.length ++ putLE (L - 8) p.numDels := by
    rw [fileOf, fileHeader, List.append_assoc, List.take_append, length_putLE,
      List.take_of_length_le (by simp; omega), List.take_append, length_putLE,
      Nat.sub_eq_zero_of_le (show L - 8 ≤ 8 by omega), List.take_zero, List.append_nil,
      take_putLE (by omega)]
  obtain ⟨hlt, hiff⟩ := getLE_torn (d := p.numDels) (show L - 8 ≤ 8 by omega)
    (show slots.length < 2 ^ 64 by omega)
  have htorn := restore_torn_start (H := H) (M := M) (show slots.length < 2 ^ 64 by omega)
    (List.ne_nil_of_length_pos (show 0 < (putLE (L - 8) p.numDels).length by simp; omega))
    (by simp; omega)
  rw [length_putLE] at htorn
  rw [htake, ← hiff]
  -- The second count as it is read.
  generalize getLE (putLE (L - 8) p.numDels ++ (putLE 8 slots.length).drop (L - 8)) = d
    at hlt htorn hiff ⊢
  obtain ⟨s, ts, hroots, hread, -, -⟩ := restoreRoots_cut (M := M) hp.fine 0 (8 + (L - 8))
  have hrun := htorn.trans hroots
  obtain ⟨hok, herr⟩ := hread.checkLeaves_zero hp.fine hlt
  by_cases heq : d = slots.length
  · rw [hok heq] at hrun
    rw [restoredOrRejected_of_ok hrun, and_iff_left heq]
    by_cases hlive : liveLeaves slots = []
    · refine iff_of_true (hp.samePollard (hread.represents hne hp.fine ?_ ?_)) (not_not_intro hlive)
      · rw [hlive, heq, List.length_nil, Nat.add_zero]
      · exact fileNodes_empty (by omega) hlive
    · exact iff_of_false (hread.not_same_zero hp hlive) (not_not_intro hlive)
  · obtain ⟨e, he⟩ := herr heq
    rw [he] at hrun
    exact iff_of_true (Or.inl ⟨e, hrun⟩) fun h => heq h.2

/-- **A file that has been cut off is rejected, or restored to the same Pollard, exactly
unless it is cut off at a bad length.** -/
theorem truncated_pollard_rejected_iff [SortAlg] (hne : ∀ a b : H, parentHash a b ≠ empty)
    {stack : List (PolBlock H × List H)} (hp : FullReach p stack) (hlt : p.numLeaves < 2 ^ 63)
    {bytes : Bytes} {n : Nat} (hw : p.writeTo = .ok ⟨bytes, n, .ok ()⟩) {L : Nat}
    (hL : L < bytes.length) :
    RestoredOrRejected (stackSlots stack) p (bytes.take L) ↔
      ¬ BadCut (stackSlots stack) p.numDels L := by
  have hp := hp.represents hne
  have hn := hp.numLeaves
  obtain ⟨rfl, rfl⟩ : fileOf (stackSlots stack) p.numDels = bytes ∧
      (fileOf (stackSlots stack) p.numDels).length = n := by
    simpa using hp.writeTo.1.symm.trans hw
  rw [length_fileOf] at hL
  by_cases h8 : L ≤ 8
  · refine iff_of_true (Or.inl (restore_no_start (by rw [List.length_take]; omega))) ?_
    rintro (⟨h, -⟩ | ⟨k, rfl, -⟩) <;> omega
  by_cases h16 : L < 16
  · rw [restored_header_iff hne hp (by omega) h16, BadCut, not_iff_not]
    constructor
    · exact fun h => Or.inl ⟨by omega, h16, h⟩
    · rintro (⟨-, -, h⟩ | ⟨k, rfl, -⟩)
      · exact h
      · omega
  -- The number of complete records and what is left.
  obtain ⟨k, r, hr34, rfl⟩ : ∃ k r, r < 34 ∧ L = 16 + 34 * k + r :=
    ⟨(L - 16) / 34, (L - 16) % 34, Nat.mod_lt _ (by omega), by omega⟩
  by_cases hr : r = 0
  · subst hr
    rw [Nat.add_zero, restored_boundary_iff hne hp (by omega), BadCut, not_iff_not]
    constructor
    · exact fun h => Or.inr ⟨k, rfl, h⟩
    · rintro (⟨-, h, -⟩ | ⟨k', hk, h⟩)
      · omega
      · obtain rfl : k = k' := by omega
        exact h
  · refine iff_of_true (rejected_torn hp (by omega) hr34 (by omega)) ?_
    rintro (⟨-, h, -⟩ | ⟨k', hk, -⟩) <;> omega

end

/-! ### Four leaves, of which the first is deleted -/

attribute [local instance] SortAlg.stable in
/-- Without the last three records the file is rejected. -/
theorem truncated_firstDeleted_rejected : ∃ (p : Pollard Hash32 Bytes)
    (stack : List (PolBlock Hash32 × List Hash32)) (bytes : Bytes) (n : Nat),
      FullReach p stack ∧ p.writeTo = .ok ⟨bytes, n, .ok ()⟩ ∧
      RestoredOrRejected (stackSlots stack) p (bytes.take 84) := by
  obtain ⟨p, stack, hreach, hslots⟩ := exists_firstDeleted
  have hp := hreach.represents Hash32.parentHash_ne_empty
  have hn : p.numLeaves = 4 := by
    rw [hp.numLeaves, hslots]
    rfl
  have hrecords : (rootRecords (forestTrees (stackSlots stack))).length = 5 := by
    rw [hslots]
    decide
  refine ⟨p, stack, _, _, hreach, hp.writeTo.1,
    (truncated_pollard_rejected_iff Hash32.parentHash_ne_empty hreach (by omega) hp.writeTo.1
      (by rw [length_fileOf, hrecords]; decide)).mpr ?_⟩
  rw [hslots]
  rintro (⟨-, h, -⟩ | ⟨k, hk, h, -⟩)
  · omega
  · obtain rfl : k = 2 := by omega
    exact absurd h (by decide)

attribute [local instance] SortAlg.stable in
/-- **Without its last record the file is restored to another Pollard**: the inner node at
position 5 is missing. -/
theorem truncated_firstDeleted_accepted : ∃ (p : Pollard Hash32 Bytes)
    (stack : List (PolBlock Hash32 × List Hash32)) (bytes : Bytes) (r : Restoring Hash32 Bytes Bytes),
      FullReach p stack ∧ p.writeTo = .ok ⟨bytes, 186, .ok ()⟩ ∧
      restorePollardFrom (bytes.take 152) = .ok (.ok r) ∧
      ¬ SamePollard (stackSlots stack) p r.p := by
  obtain ⟨p, stack, hreach, hslots⟩ := exists_firstDeleted
  have hp := hreach.represents Hash32.parentHash_ne_empty
  have hd := hp.numDels
  have hrecords : (rootRecords (forestTrees (stackSlots stack))).length = 5 := by
    rw [hslots]
    decide
  have hlen : (stackSlots stack).length = 4 := by rw [hslots]; rfl
  obtain ⟨r, ts, hrun, hread, -, -⟩ := restore_cut (M := Bytes) hp.fine
    (show p.numDels < 2 ^ 64 by omega) 4
  have hleaves : leafHashes ((fileNodes (forestTrees (stackSlots stack))).drop 4) = [] := by
    rw [hslots]
    decide
  have hnode : (Hash32.fill 255, false) ∈ (fileNodes (forestTrees (stackSlots stack))).drop 4 := by
    rw [hslots]
    decide
  rw [← take_fileOf_boundary, (hread.checkLeaves_eq hp.fine (by omega) hd).1 hleaves] at hrun
  refine ⟨p, stack, _, r, hreach, ?_, hrun, hread.not_same hp hnode (by decide)⟩
  have hwrite := hp.writeTo.1
  rwa [length_fileOf, hrecords] at hwrite

end Utreexo
