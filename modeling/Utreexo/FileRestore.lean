import Utreexo.FileRecords
import Utreexo.UndoRun

/-! # Restoring a Pollard from a file

`restorePollardFrom` on the file of a Pollard, or on the beginning of one.  The roots are
made from as many records as there are; a file that ends within a record is refused.
-/
namespace Utreexo
open Wire Merkle

section
variable {H M : Type} [DecidableEq H] [HashOps H] [HashBytes H] [DecidableEq M] [MiniHash H M]

/-! ### Reading the roots -/

/-- New nodes hold the trees of the new roots, and nothing else has changed. -/
structure GrownAll (s s' : Restoring H M Bytes) (ts : List (NTree (Addr × H × Bool))) : Prop where
  rep : ∀ t ∈ ts, NRep s'.p.heap none (t.map fun e => (e.1, e.2.1))
  nodup : ((ts.flatMap NTree.labels).map Prod.fst).Nodup
  new : ∀ e ∈ ts.flatMap NTree.labels, s.p.heap.next ≤ e.1 ∧ e.1 < s'.p.heap.next
  next : s.p.heap.next ≤ s'.p.heap.next
  keeps : ∀ b, b < s.p.heap.next → s'.p.heap.get b = s.p.heap.get b
  same : s'.p = { s.p with
    heap := s'.p.heap
    roots := s.p.roots ++ ts.map fun t => t.top.1
    nodeMap := (ts.flatMap NTree.labels).foldl enterLeaf s.p.nodeMap }
  totalBytes : s'.totalBytes + s'.rest.length = s.totalBytes + s.rest.length

/-- A new root. -/
def Restoring.newRoot {σ : Type} (s : Restoring H M σ) : Restoring H M σ :=
  { (s.alloc none).2 with p := { (s.alloc none).2.p with roots := s.p.roots ++ [s.p.heap.next] } }

variable {s s' : Restoring H M Bytes}

omit [HashBytes H] in
theorem GrownAll.nil (s : Restoring H M Bytes) : GrownAll s s [] :=
  ⟨fun _ h => (List.not_mem_nil h).elim, List.nodup_nil, fun _ h => (List.not_mem_nil h).elim,
    Nat.le_refl _, fun _ _ => rfl, by simp, rfl⟩

omit [DecidableEq H] [HashBytes H] [DecidableEq M] [MiniHash H M] in
theorem newRoot_cell (s : Restoring H M Bytes) :
    CellIs (s.newRoot.p.heap.get s.p.heap.next) none none none empty := by
  constructor <;> simp [Restoring.newRoot, Restoring.alloc, Heap.alloc, Heap.set]

omit [HashBytes H] in
/-- A root, and those that are read after it. -/
theorem GrownAll.cons {s1 s2 : Restoring H M Bytes} {t : NTree (Addr × H × Bool)}
    {ts : List (NTree (Addr × H × Bool))} (h1 : Grown s.newRoot s1 s.p.heap.next none t)
    (h2 : GrownAll s1 s2 ts) : GrownAll s s2 (t :: ts) := by
  have hnext0 : s.newRoot.p.heap.next = s.p.heap.next + 1 := rfl
  have hnext1 := h1.next
  have hnext2 := h2.next
  have hold : ∀ e ∈ t.labels, s.p.heap.next ≤ e.1 ∧ e.1 < s1.p.heap.next := by
    intro e he
    refine ⟨?_, h1.lt e he⟩
    rcases h1.new e he with h | h
    · exact h.ge
    · exact Nat.le_trans (by omega) h
  refine ⟨?_, ?_, ?_, by omega, ?_, ?_, ?_⟩
  · rw [List.forall_mem_cons]
    refine ⟨h1.rep.congr fun e he => ?_, h2.rep⟩
    rw [NTree.map_labels] at he
    obtain ⟨e', he', rfl⟩ := List.mem_map.mp he
    exact h2.keeps _ (h1.lt e' he')
  · rw [List.flatMap_cons, List.map_append, List.nodup_append]
    refine ⟨h1.nodup, h2.nodup, fun b hb c hc => ?_⟩
    obtain ⟨e, he, rfl⟩ := List.mem_map.mp hb
    obtain ⟨e', he', rfl⟩ := List.mem_map.mp hc
    exact (Nat.lt_of_lt_of_le (h1.lt e he) (h2.new e' he').1).ne
  · intro e he
    rw [List.flatMap_cons, List.mem_append] at he
    rcases he with he | he
    · exact ⟨(hold e he).1, Nat.lt_of_lt_of_le (hold e he).2 hnext2⟩
    · exact ⟨Nat.le_trans (by omega) (h2.new e he).1, (h2.new e he).2⟩
  · intro b hb
    rw [h2.keeps b (Nat.lt_of_lt_of_le hb (by omega)),
      h1.keeps b (Nat.lt_of_lt_of_le hb (by omega)) hb.ne]
    simp [Restoring.newRoot, Restoring.alloc, Heap.alloc, Heap.set, hb.ne]
  · rw [h2.same, h1.same]
    simp [Restoring.newRoot, Restoring.alloc, h1.top]
  · have hbytes : s1.totalBytes + s1.rest.length = s.totalBytes + s.rest.length := h1.totalBytes
    rw [h2.totalBytes, hbytes]

/-- One more root. -/
theorem readRoots_succ {σ : Type} [Reader σ] (s : Restoring H M σ) (i : Nat) :
    readRoots (i + 1) s = (do
    match ← readOne (Reader.left s.rest + 1) s.p.heap.next s.newRoot with
    | .error e => .ok (.error (e, s.totalBytes))
    | .ok s => readRoots i s) := rfl

/-- **The roots of the first `k` records**, or an error within the next one. -/
theorem readRoots_records (ts : List (NTree (H × Bool))) {k : Nat} {rest : Bytes}
    (hs : s.rest = encode ((ts.flatMap NTree.records).take k) ++ rest)
    (hrest : k < (ts.flatMap NTree.labels).length → rest.length < 34) :
    (k < (ts.flatMap NTree.labels).length ∧ rest ≠ [] ∧
      ∃ n, readRoots ts.length s = .ok (.error (.eof, n))) ∨
    (k < (ts.flatMap NTree.labels).length → rest = []) ∧
      ∃ s' ts', readRoots ts.length s = .ok (.ok s') ∧ GrownAll s s' ts' ∧
        ts'.map (NTree.map Prod.snd) = NTree.cutAll missing k ts ∧ s'.rest = rest := by
  induction ts generalizing s k with
  | nil => exact Or.inr ⟨fun hk => by simp at hk, s, [], rfl, .nil s, rfl, by simpa using hs⟩
  | cons t ts ih =>
    rw [List.flatMap_cons, List.take_append, encode_append, NTree.length_records,
      List.append_assoc] at hs
    rw [List.flatMap_cons, List.length_append] at hrest ⊢
    have hlt : s.p.heap.next < s.newRoot.p.heap.next := Nat.lt_succ_self _
    have hfirst : k < t.labels.length → encode ((ts.flatMap NTree.records).take
        (k - t.labels.length)) ++ rest = rest := fun hk => by
      rw [Nat.sub_eq_zero_of_le (by omega)]
      rfl
    rw [List.length_cons, readRoots_succ]
    rcases readOne_records hlt (newRoot_cell s) hs
      (fun hk => by rw [hfirst hk]; exact hrest (by omega)) (Nat.lt_succ_self _) with
      ⟨hk, hne, hrun⟩ | ⟨hdone, s1, t', hrun1, h1, ht', hs1⟩
    · have hrun : readOne (Reader.left s.rest + 1) s.p.heap.next s.newRoot = _ := hrun
      exact Or.inl ⟨by omega, by rwa [hfirst hk] at hne, _, by rw [hrun, Exec.ok_bind]⟩
    have hrun1 : readOne (Reader.left s.rest + 1) s.p.heap.next s.newRoot = _ := hrun1
    rw [hrun1, Exec.ok_bind]
    rcases ih hs1 (fun hk => hrest (by omega)) with ⟨hk, hne, n, hrun⟩ |
      ⟨hdone2, s2, ts', hrun2, h2, hts', hs2⟩
    · exact Or.inl ⟨by omega, hne, n, hrun⟩
    · refine Or.inr ⟨fun hk => ?_, s2, t' :: ts', hrun2, .cons h1 h2, ?_, hs2⟩
      · by_cases hkt : k < t.labels.length
        · rw [← hfirst hkt, hdone hkt]
        · exact hdone2 (by omega)
      · rw [List.map_cons, ht', hts', NTree.cutAll]

/-! ### Reading the counts -/

/-- Before the roots are read. -/
def Restoring.start {σ : Type} (numLeaves numDels : Nat) (rest : σ) (totalBytes : Nat) :
    Restoring H M σ where
  p := { newAccumulator true with numLeaves := numLeaves, numDels := numDels }
  rest := rest
  totalBytes := totalBytes

/-- A reader that delivers both counts. -/
theorem restore_delivers {σ : Type} [Reader σ] {numLeaves numDels : Nat} (hl : numLeaves < 2 ^ 64)
    (hd : numDels < 2 ^ 64) {r rest : σ}
    (h : Reader.Delivers [putLE 8 numLeaves, putLE 8 numDels] r rest) :
    (restorePollardFrom r : Exec (Except (RestoreErr × Nat) (Restoring H M σ))) =
      restoreRoots (.start numLeaves numDels rest 16) := by
  obtain ⟨r1, h1, r2, h2, rfl⟩ := h
  rw [restorePollardFrom, Restoring.read_gives (List.replicate 8 0) h1 (by simp)]
  simp only
  rw [Restoring.read_gives (putLE 8 numLeaves) h2 (by simp)]
  simp only [getLE_putLE_of_lt (show numLeaves < 256 ^ 8 by omega),
    getLE_putLE_of_lt (show numDels < 256 ^ 8 by omega), length_putLE]
  rfl

theorem counts_ne_nil {a b : Nat} : ∀ x ∈ [putLE 8 a, putLE 8 b], x ≠ [] := by
  intro x hx
  rw [List.mem_cons, List.mem_singleton] at hx
  rcases hx with rfl | rfl
  · exact List.ne_nil_of_length_pos (by simp)
  · exact List.ne_nil_of_length_pos (by simp)

/-- A file with both counts. -/
theorem restore_start {numLeaves numDels : Nat} (hl : numLeaves < 2 ^ 64) (hd : numDels < 2 ^ 64)
    (rest : Bytes) :
    (restorePollardFrom (putLE 8 numLeaves ++ (putLE 8 numDels ++ rest)) :
      Exec (Except (RestoreErr × Nat) (Restoring H M Bytes))) =
        restoreRoots (.start numLeaves numDels rest 16) := by
  refine restore_delivers hl hd ?_
  simpa using Reader.delivers_flatten (counts_ne_nil (a := numLeaves) (b := numDels)) rest

/-- A file that ends within the second count: the rest of it is taken from the first. -/
theorem restore_torn_start {numLeaves : Nat} (hl : numLeaves < 2 ^ 64) {torn : Bytes}
    (hne : torn ≠ []) (htorn : torn.length < 8) :
    (restorePollardFrom (putLE 8 numLeaves ++ torn) :
      Exec (Except (RestoreErr × Nat) (Restoring H M Bytes))) =
        restoreRoots (.start numLeaves
          (getLE (torn ++ (putLE 8 numLeaves).drop torn.length)) [] (8 + torn.length)) := by
  rw [restorePollardFrom, Restoring.read_append (List.replicate 8 0) rfl (by simp) (by simp)]
  simp only
  rw [Restoring.read, reader_fill, fill_short hne (by simp; omega)]
  simp only [getLE_putLE_of_lt (show numLeaves < 256 ^ 8 by omega), length_putLE]
  rfl

/-- A file that ends before the second count. -/
theorem restore_no_start {bytes : Bytes} (h : bytes.length ≤ 8) :
    ∃ e, (restorePollardFrom bytes : Exec (Except (RestoreErr × Nat) (Restoring H M Bytes))) =
      .ok (.error e) := by
  by_cases hne : bytes = []
  · exact ⟨_, by rw [restorePollardFrom, Restoring.read, hne, reader_fill, fill_nil]⟩
  · refine ⟨(.eof, bytes.length), ?_⟩
    rw [restorePollardFrom, Restoring.read, reader_fill, fill_short hne (by simpa using h)]
    simp [Restoring.read, reader_fill, reader_left]

/-! ### The node map -/

/-- The leaves among the nodes of a file. -/
def entries (nodes : List (Addr × H × Bool)) : List (Addr × H) :=
  (nodes.filter fun e => e.2.2 = true ∧ e.2.1 ≠ empty).map fun e => (e.1, e.2.1)

omit [HashBytes H] in
/-- **The node map has the leaves**, if their keys are distinct. -/
theorem foldl_enterLeaf {nodes : List (Addr × H × Bool)}
    (hnd : (((entries nodes).map Prod.snd).map (mini : H → M)).Nodup) :
    MapOk (fun _ => True) (nodes.foldl enterLeaf (∅ : Finmap fun _ : M => Addr))
      (entries nodes) [] := by
  induction nodes using List.reverseRecOn with
  | nil =>
    intro k _ b
    simp [entries]
  | append_singleton nodes e ih =>
    rw [List.foldl_append, List.foldl_cons, List.foldl_nil, enterLeaf]
    have hentries : entries (nodes ++ [e]) = entries nodes ++
        if e.2.2 = true ∧ e.2.1 ≠ empty then [(e.1, e.2.1)] else [] := by
      rw [entries, List.filter_append, List.map_append]
      congr 1
      by_cases h : e.2.2 = true ∧ e.2.1 ≠ empty <;> simp [h]
    rw [hentries] at hnd ⊢
    by_cases h : e.2.2 = true ∧ e.2.1 ≠ empty
    · rw [if_pos h] at hnd ⊢
      simp only [List.map_append, List.map_cons, List.map_nil] at hnd
      obtain ⟨h1, -, h2⟩ := List.nodup_append.mp hnd
      rw [if_pos h]
      exact (ih h1).insert fun _ hm => h2 _ hm _ List.mem_cons_self rfl
    · rw [if_neg h, List.append_nil] at hnd
      rw [if_neg h, if_neg h, List.append_nil]
      exact ih hnd

omit [DecidableEq H] [HashOps H] [HashBytes H] in
/-- How many entries there are. -/
theorem MapOk.card {m : Finmap fun _ : M => Addr} {cells : List (Addr × H)}
    (hm : MapOk (fun _ => True) m cells [])
    (hnd : ((cells.map Prod.snd).map (mini : H → M)).Nodup) :
    m.keys.card = cells.length := by
  have hkeys : m.keys = ((cells.map Prod.snd).map (mini : H → M)).toFinset := by
    ext k
    rw [Finmap.mem_keys, ← Finmap.lookup_isSome, Option.isSome_iff_exists, List.mem_toFinset,
      List.map_map, List.mem_map]
    constructor
    · rintro ⟨a, ha⟩
      obtain ⟨h, hmem, -, rfl⟩ := (hm k trivial a).mp ha
      exact ⟨(a, h), hmem, rfl⟩
    · rintro ⟨⟨a, h⟩, hmem, rfl⟩
      exact ⟨a, (hm _ trivial a).mpr ⟨h, hmem, List.not_mem_nil, rfl⟩⟩
  rw [hkeys, List.toFinset_card_of_nodup hnd, List.length_map, List.length_map]

/-! ### A complete file -/

omit [DecidableEq H] [HashOps H] [HashBytes H] in
/-- The marks of a tree say which of its nodes are leaves. -/
theorem flagged_of_marks {t : NTree (Addr × H × Bool)} {t0 : NTree H} {leaf : Bool}
    (ht : t.map Prod.snd = t0.flagged leaf) :
    (t.map fun e => (e.1, e.2.1)).flagged leaf = t.map fun e => ((e.1, e.2.1), e.2.2) := by
  induction t generalizing t0 leaf with
  | tip a =>
    cases t0 with
    | tip d =>
      have ha : a.2.2 = leaf := congrArg Prod.snd (NTree.tip.inj ht)
      simp [NTree.map, NTree.flagged, ha]
    | node d l r => cases ht
  | node a l r ihl ihr =>
    cases t0 with
    | tip d => cases ht
    | node d l0 r0 =>
      simp only [NTree.map, NTree.flagged, NTree.node.injEq] at ht
      obtain ⟨ha, hl, hr⟩ := ht
      have hltip : l0.isTip = l.isTip := by
        simpa using (congrArg NTree.isTip hl).symm
      have hrtip : r0.isTip = r.isTip := by
        simpa using (congrArg NTree.isTip hr).symm
      simp only [NTree.map, NTree.flagged, NTree.map_isTip]
      rw [ihl (hrtip ▸ hl), ihr (hltip ▸ hr), ha]

omit [HashBytes H] in
/-- The entries of a tree are the leaves with a hash. -/
theorem entries_labels {t : NTree (Addr × H × Bool)} {t0 : NTree H} {leaf : Bool}
    (ht : t.map Prod.snd = t0.flagged leaf) :
    entries t.labels =
      ((t.map fun e => (e.1, e.2.1)).leafLabels leaf).filter fun e => e.2 ≠ empty := by
  rw [NTree.leafLabels, flagged_of_marks ht, NTree.map_labels, entries]
  simp [List.filter_map, List.filter_filter, Function.comp_def, Bool.and_comm]

/-- What is read for a root: all of it, or nothing of an empty root. -/
def ReadRoot (t : NTree (H × Bool)) (o : Option (CTree H)) : Prop :=
  t = fileTree o ∨ o = none ∧ t = .tip missing

omit [HashBytes H] in
/-- **The tree of a root that has been read.** -/
theorem exists_root_of_read {t : NTree (Addr × H × Bool)} {o : Option (CTree H)}
    (hne : ∀ x ∈ CTree.leavesOpt o, x ≠ empty) (ht : ReadRoot (t.map Prod.snd) o) :
    ∃ R : PRoot H, R.opt = o ∧ R.nieces = (t.map fun e => (e.1, e.2.1)) ∧
      (entries t.labels).Perm R.cells := by
  rcases ht with ht | ⟨rfl, ht⟩
  · have hshape : (t.map fun e => (e.1, e.2.1)).map Prod.snd = rootShape o := by
      have := congrArg (NTree.map Prod.fst) ht
      rw [fileTree, NTree.map_fst_flagged, NTree.map_map] at this
      rw [NTree.map_map, ← this]
      rfl
    obtain ⟨R, rfl, hR⟩ := exists_root_nieces hshape
    refine ⟨R, rfl, hR, ?_⟩
    rw [entries_labels ht, ← hR]
    cases R with
    | vacant a => simp [PRoot.nieces, PRoot.opt, rootShape, NTree.isTip, PRoot.cells]
    | full u =>
      have htip : (rootShape (PRoot.full u).opt).isTip = u.isLeaf := by
        rw [← PRoot.map_nieces, NTree.map_isTip, PRoot.nieces, PTree.isTip_nieces]
      have hcells : u.cells.filter (fun e => decide (e.2 ≠ empty)) = u.cells := by
        refine List.filter_eq_self.mpr fun e he => decide_eq_true (hne e.2 ?_)
        have := List.mem_map_of_mem (f := Prod.snd) he
        rwa [u.cells_snd] at this
      have hperm := (PRoot.leafLabels_nieces (t := u)).filter fun e => decide (e.2 ≠ empty)
      rw [hcells] at hperm
      rwa [htip]
  · cases t with
    | tip e =>
      have he : e.2 = missing := NTree.tip.inj ht
      refine ⟨.vacant e.1, rfl, ?_, ?_⟩
      · simp [PRoot.nieces, NTree.map, he, missing]
      · simp [entries, NTree.labels, he, missing, PRoot.cells]
    | node e l r => cases ht

omit [HashBytes H] in
theorem entries_append (xs ys : List (Addr × H × Bool)) :
    entries (xs ++ ys) = entries xs ++ entries ys := by
  simp [entries]

omit [HashBytes H] in
theorem exists_roots_of_read {ts : List (NTree (Addr × H × Bool))}
    {trees : List (Option (CTree H))} (hne : ∀ x ∈ trees.flatMap CTree.leavesOpt, x ≠ empty)
    (hts : List.Forall₂ (fun t o => ReadRoot (t.map Prod.snd) o) ts trees) :
    ∃ F : List (PRoot H), F.map PRoot.opt = trees ∧ F.map PRoot.addr = ts.map (fun t => t.top.1) ∧
      (∀ R ∈ F, ∃ t ∈ ts, R.nieces = t.map fun e => (e.1, e.2.1)) ∧
      (F.flatMap PRoot.addrs).Perm ((ts.flatMap NTree.labels).map Prod.fst) ∧
      (entries (ts.flatMap NTree.labels)).Perm (F.flatMap PRoot.cells) := by
  induction hts with
  | nil => exact ⟨[], rfl, rfl, by simp, List.Perm.refl _, List.Perm.refl _⟩
  | @cons t o ts trees ht _ ih =>
    rw [List.flatMap_cons] at hne
    obtain ⟨R, hopt, hnieces, hcells⟩ :=
      exists_root_of_read (fun x hx => hne x (List.mem_append_left _ hx)) ht
    obtain ⟨F, hopts, haddrs, hF, hperm, hentries⟩ :=
      ih fun x hx => hne x (List.mem_append_right _ hx)
    refine ⟨R :: F, ?_, ?_, ?_, ?_, ?_⟩
    · rw [List.map_cons, hopt, hopts]
    · have htop := congrArg NTree.top hnieces
      rw [PRoot.top_nieces, NTree.map_top, Prod.mk.injEq] at htop
      rw [List.map_cons, List.map_cons, haddrs, htop.1]
    · rw [List.forall_mem_cons]
      refine ⟨⟨t, List.mem_cons_self, hnieces⟩, fun R' hR' => ?_⟩
      obtain ⟨t', ht', h⟩ := hF R' hR'
      exact ⟨t', List.mem_cons_of_mem _ ht', h⟩
    · rw [List.flatMap_cons, List.flatMap_cons, List.map_append]
      refine List.Perm.append ?_ hperm
      have := R.addrs_nieces
      rw [hnieces, NTree.map_labels, List.map_map] at this
      exact this.symm
    · rw [List.flatMap_cons, List.flatMap_cons, entries_append]
      exact hcells.append hentries

omit [HashBytes H] in
/-- **A Pollard whose roots have been read is that of the leaves.** -/
theorem holds_of_read {slots : List (Option H)} {numDels n : Nat} {rest : Bytes}
    {ts : List (NTree (Addr × H × Bool))} (hfine : LeavesFine M slots)
    (hg : GrownAll (.start slots.length numDels rest n) s ts)
    (hts : List.Forall₂ (fun t o => ReadRoot (t.map Prod.snd) o) ts (forestTrees slots)) :
    ∃ F, s.p.Holds (fun _ => True) F slots [] := by
  have hn := hfine.counted
  have hleaves := leaves_forestTrees (show slots.length < 2 ^ 64 by omega)
  obtain ⟨F, htrees, haddrs, hF, hperm, hentries⟩ := exists_roots_of_read (fun x hx =>
    (hfine.isLeaf x (by rwa [hleaves] at hx)).ne_empty) hts
  have hsnd := cells_snd_of_trees htrees (show slots.length < 2 ^ 64 by omega)
  have hkeys : (((entries (ts.flatMap NTree.labels)).map Prod.snd).map (mini : H → M)).Nodup := by
    have hperm' := (hentries.map Prod.snd).map (mini : H → M)
    rw [hsnd] at hperm'
    exact hperm'.nodup_iff.mpr hfine.distinct
  have hsame := hg.same
  refine ⟨F, ⟨⟨fun R hR => ?_, hperm.nodup_iff.mpr hg.nodup, fun a ha => ?_⟩, ?_⟩, htrees,
    ?_, ?_, ?_⟩
  · obtain ⟨t, ht, hnieces⟩ := hF R hR
    rw [rootOk_iff_nrep, hnieces]
    exact hg.rep t ht
  · obtain ⟨e, he, rfl⟩ := List.mem_map.mp (hperm.subset ha)
    exact (hg.new e he).2
  · rw [hsame, haddrs]
    rfl
  · rw [hsame]
    rfl
  · rw [hsame]
    rfl
  · have hmap : s.p.nodeMap = (ts.flatMap NTree.labels).foldl enterLeaf ∅ := by
      rw [hsame]
      rfl
    intro k _ b
    rw [hmap, foldl_enterLeaf hkeys k trivial b]
    exact exists_congr fun x => and_congr_left fun _ => hentries.mem_iff

omit [DecidableEq H] [HashBytes H] in
/-- The nodes of a tree have hashes. -/
theorem nieceShape_ne_empty (hne : ∀ a b : H, parentHash a b ≠ empty) {T : CTree H} {d : H}
    (hT : ∀ x ∈ T.leaves, x ≠ empty) (hd : d ≠ empty) :
    ∀ e ∈ (nieceShape d T).labels, e ≠ empty := by
  induction T generalizing d with
  | leaf x => simpa [nieceShape, NTree.labels] using hd
  | node l r ihl ihr =>
    have hl : ∀ x ∈ l.leaves, x ≠ empty := fun x hx => hT x (List.mem_append_left _ hx)
    have hr : ∀ x ∈ r.leaves, x ≠ empty := fun x hx => hT x (List.mem_append_right _ hx)
    intro e he
    rw [nieceShape, NTree.labels, List.mem_cons, List.mem_append] at he
    rcases he with rfl | he | he
    · exact hd
    · exact ihr hr (treeHash_ne_empty hne hl) e he
    · exact ihl hl (treeHash_ne_empty hne hr) e he

omit [DecidableEq H] [HashBytes H] in
theorem fileTree_ne_empty (hne : ∀ a b : H, parentHash a b ≠ empty) {T : CTree H}
    (hT : ∀ x ∈ T.leaves, x ≠ empty) : ∀ e ∈ (fileTree (some T)).labels, e.1 ≠ empty := by
  intro e he
  refine nieceShape_ne_empty hne hT (treeHash_ne_empty hne hT) e.1 ?_
  have := List.mem_map_of_mem (f := Prod.fst) he
  rwa [← NTree.map_labels, fileTree, NTree.map_fst_flagged] at this

omit [DecidableEq H] [HashBytes H] in
/-- **A file without some records of empty roots at its end is complete.** -/
theorem cutAll_complete (hne : ∀ a b : H, parentHash a b ≠ empty) {trees : List (Option (CTree H))}
    (hleaves : ∀ x ∈ trees.flatMap CTree.leavesOpt, x ≠ empty) {k : Nat}
    (hk : ∀ e ∈ ((trees.map fileTree).flatMap NTree.labels).drop k, e.1 = empty) :
    List.Forall₂ ReadRoot (NTree.cutAll missing k (trees.map fileTree)) trees := by
  induction trees generalizing k with
  | nil => exact .nil
  | cons o trees ih =>
    rw [List.flatMap_cons] at hleaves
    rw [List.map_cons, List.flatMap_cons, List.drop_append] at hk
    refine .cons ?_ (ih (fun x hx => hleaves x (List.mem_append_right _ hx))
      fun e he => hk e (List.mem_append_right _ he))
    by_cases hle : (fileTree o).labels.length ≤ k
    · exact Or.inl (NTree.cut_of_le hle)
    · cases o with
      | none =>
        obtain rfl : k = 0 := by
          simp [fileTree, rootShape, NTree.flagged, NTree.labels] at hle
          exact hle
        exact Or.inr ⟨rfl, rfl⟩
      | some T =>
        -- One of the hashes of the tree is missing.
        obtain ⟨e, hmem⟩ := List.exists_mem_of_ne_nil ((fileTree (some T)).labels.drop k)
          (by rwa [ne_eq, List.drop_eq_nil_iff])
        exact absurd (hk _ (List.mem_append_left _ hmem)) (fileTree_ne_empty hne
          (fun x hx => hleaves x (List.mem_append_left _ hx)) _ (List.mem_of_mem_drop hmem))

/-! ### The leaves of a file -/

/-- The hashes of the leaves. -/
def leafHashes (nodes : List (H × Bool)) : List H :=
  (nodes.filter fun e => e.2 = true ∧ e.1 ≠ empty).map Prod.fst

omit [HashBytes H] in
theorem map_entries (nodes : List (Addr × H × Bool)) :
    (entries nodes).map Prod.snd = leafHashes (nodes.map Prod.snd) := by
  simp [entries, leafHashes, List.filter_map, Function.comp_def]

omit [HashBytes H] in
theorem leafHashes_append (xs ys : List (H × Bool)) :
    leafHashes (xs ++ ys) = leafHashes xs ++ leafHashes ys := by
  simp [leafHashes]

/-- The nodes of a file, as they follow one another. -/
def fileNodes (trees : List (Option (CTree H))) : List (H × Bool) :=
  (trees.map fileTree).flatMap NTree.labels

omit [DecidableEq H] [HashBytes H] in
theorem map_rootRecords (trees : List (Option (CTree H))) :
    (rootRecords trees).map (fun r => (r.data, r.leaf)) = fileNodes trees := by
  rw [rootRecords, fileNodes, List.map_flatMap]
  exact List.flatMap_congr fun t _ => t.map_records

omit [DecidableEq H] [HashBytes H] in
theorem length_fileNodes (trees : List (Option (CTree H))) :
    (fileNodes trees).length = (rootRecords trees).length := by
  rw [← map_rootRecords, List.length_map]

omit [HashBytes H] in
/-- **The leaves of a file are the live leaves.** -/
theorem leafHashes_fileNodes {slots : List (Option H)} (hn : slots.length < 2 ^ 64)
    (hne : ∀ x ∈ liveLeaves slots, x ≠ empty) :
    (leafHashes (fileNodes (forestTrees slots))).Perm (liveLeaves slots) := by
  -- The trees at some addresses.
  have hts : List.Forall₂ (fun t o => ReadRoot (t.map Prod.snd) o)
      ((forestTrees slots).map fun o => (fileTree o).map fun a => ((0 : Addr), a))
      (forestTrees slots) := by
    rw [List.forall₂_map_left_iff]
    refine List.forall₂_same.mpr fun o _ => Or.inl ?_
    rw [NTree.map_map]
    exact NTree.map_id' _
  obtain ⟨F, htrees, -, -, -, hperm⟩ := exists_roots_of_read
    (fun x hx => hne x (by rwa [leaves_forestTrees hn] at hx)) hts
  have hperm := hperm.map Prod.snd
  rw [cells_snd_of_trees htrees hn, map_entries] at hperm
  convert hperm using 2
  rw [fileNodes, List.flatMap_map, List.flatMap_map, List.map_flatMap]
  refine List.flatMap_congr fun o _ => ?_
  rw [NTree.map_labels, List.map_map]
  exact (List.map_id' _).symm

/-! ### Files that end between records -/

section Boundary
variable {slots : List (Option H)} {numDels : Nat}

/-- The counts, as they are written. -/
def fileHeader (numLeaves numDels : Nat) : Bytes := putLE 8 numLeaves ++ putLE 8 numDels

/-- What has been made of the first `k` records. -/
structure ReadUpTo (slots : List (Option H)) (numDels k : Nat) (s : Restoring H M Bytes)
    (ts : List (NTree (Addr × H × Bool))) : Prop where
  grown : ∃ rest n, GrownAll (.start slots.length numDels rest n) s ts
  cut : ts.map (NTree.map Prod.snd) = NTree.cutAll missing k ((forestTrees slots).map fileTree)

omit [DecidableEq H] [HashBytes H] in
/-- As many roots are read as there are. -/
theorem numRoots_eq (slots : List (Option H)) :
    numRoots slots.length = ((forestTrees slots).map fileTree).length := by
  rw [← length_rootRows, forestTrees, List.length_map, List.length_map]

/-- The roots of the first `k` records. -/
theorem restoreRoots_cut (hfine : LeavesFine M slots) (k n : Nat) :
    ∃ (s : Restoring H M Bytes) (ts : List (NTree (Addr × H × Bool))),
      restoreRoots (.start slots.length numDels
        (encode ((rootRecords (forestTrees slots)).take k)) n) = .ok (checkLeaves s) ∧
      ReadUpTo slots numDels k s ts ∧ s.rest = [] ∧
      s.totalBytes = n + 34 * ((rootRecords (forestTrees slots)).take k).length := by
  have hn := hfine.counted
  obtain ⟨-, s, ts, hrun, hg, hcut, hrest⟩ := (readRoots_records (M := M)
    ((forestTrees slots).map fileTree) (k := k)
    (s := .start slots.length numDels (encode ((rootRecords (forestTrees slots)).take k)) n)
    (List.append_nil _).symm (fun _ => by decide)).resolve_left fun h => h.2.1 rfl
  refine ⟨s, ts, ?_, ⟨⟨_, _, hg⟩, hcut⟩, hrest, ?_⟩
  · have hnum : (Restoring.start slots.length numDels
        (encode ((rootRecords (forestTrees slots)).take k)) n : Restoring H M Bytes).p.numLeaves =
          slots.length := rfl
    rw [restoreRoots, hnum, numRoots_eq, hrun, Exec.ok_bind]
  · have := hg.totalBytes
    rw [hrest] at this
    simpa [Restoring.start] using this

/-- A file with the first `k` records. -/
theorem restore_cut (hfine : LeavesFine M slots) (hd : numDels < 2 ^ 64) (k : Nat) :
    ∃ (s : Restoring H M Bytes) (ts : List (NTree (Addr × H × Bool))),
      restorePollardFrom (fileHeader slots.length numDels ++
        encode ((rootRecords (forestTrees slots)).take k)) = .ok (checkLeaves s) ∧
      ReadUpTo slots numDels k s ts ∧ s.rest = [] ∧
      s.totalBytes = 16 + 34 * ((rootRecords (forestTrees slots)).take k).length := by
  have hn := hfine.counted
  rw [fileHeader, List.append_assoc, restore_start (by omega) hd]
  exact restoreRoots_cut hfine k 16

namespace ReadUpTo
variable {k : Nat} {ts : List (NTree (Addr × H × Bool))} (hr : ReadUpTo slots numDels k s ts)
include hr

omit [HashBytes H] in
theorem numLeaves : s.p.numLeaves = slots.length := by
  obtain ⟨rest, n, hg⟩ := hr.grown
  rw [hg.same]
  rfl

omit [HashBytes H] in
theorem numDels_eq : s.p.numDels = numDels := by
  obtain ⟨rest, n, hg⟩ := hr.grown
  rw [hg.same]
  rfl

omit [HashBytes H] in
theorem map_nodes : leafHashes ((ts.flatMap NTree.labels).map Prod.snd) =
    leafHashes ((fileNodes (forestTrees slots)).take k) := by
  obtain ⟨m, hm⟩ := NTree.labels_cutAll missing k ((forestTrees slots).map fileTree)
  have hlabels : (ts.flatMap NTree.labels).map Prod.snd =
      (ts.map (NTree.map Prod.snd)).flatMap NTree.labels := by
    rw [List.map_flatMap, List.flatMap_map]
    exact List.flatMap_congr fun t _ => (t.map_labels _).symm
  have hmissing : leafHashes (List.replicate m (missing : H × Bool)) = [] := by
    simp [leafHashes, missing]
  rw [hlabels, hr.cut, hm, leafHashes_append, hmissing, List.append_nil, fileNodes]

omit [HashBytes H] in
/-- The node map has the leaves among the first `k` nodes. -/
theorem mapOk (hfine : LeavesFine M slots) :
    MapOk (fun _ => True) s.p.nodeMap (entries (ts.flatMap NTree.labels)) [] ∧
      s.p.nodeMap.keys.card = (leafHashes ((fileNodes (forestTrees slots)).take k)).length := by
  obtain ⟨rest, n, hg⟩ := hr.grown
  have hn := hfine.counted
  have hperm := leafHashes_fileNodes (show slots.length < 2 ^ 64 by omega)
    fun x hx => (hfine.isLeaf x hx).ne_empty
  have hkeys : (((entries (ts.flatMap NTree.labels)).map Prod.snd).map (mini : H → M)).Nodup := by
    rw [map_entries, hr.map_nodes]
    have hnd := (hperm.map (mini : H → M)).nodup_iff.mpr hfine.distinct
    refine hnd.sublist (List.Sublist.map _ ?_)
    exact ((List.take_sublist _ _).filter _).map _
  have hmap : s.p.nodeMap = (ts.flatMap NTree.labels).foldl enterLeaf ∅ := by
    rw [hg.same]
    rfl
  have hok := foldl_enterLeaf hkeys
  rw [hmap]
  refine ⟨hok, ?_⟩
  rw [hok.card hkeys, ← hr.map_nodes, ← map_entries, List.length_map]

omit [HashBytes H] in
/-- **What is made of a complete file represents the leaves.** -/
theorem represents (hne : ∀ a b : H, parentHash a b ≠ empty) (hfine : LeavesFine M slots)
    (hd : numDels + (liveLeaves slots).length = slots.length)
    (hk : ∀ e ∈ (fileNodes (forestTrees slots)).drop k, e.1 = empty) : s.p.Represents slots := by
  have hn := hfine.counted
  obtain ⟨rest, n, hg⟩ := hr.grown
  have hread := cutAll_complete hne (fun x hx => (hfine.isLeaf x (by
    rwa [leaves_forestTrees (by omega)] at hx)).ne_empty) hk
  rw [← hr.cut, List.forall₂_map_left_iff] at hread
  exact ⟨holds_of_read hfine hg hread, hfine, by rw [hr.numDels_eq]; exact hd⟩

omit [HashBytes H] in
/-- **The check at the end passes exactly if all leaves are there.** -/
theorem checkLeaves_eq (hfine : LeavesFine M slots) (hlt : slots.length < 2 ^ 63)
    (hd : numDels + (liveLeaves slots).length = slots.length) :
    (leafHashes ((fileNodes (forestTrees slots)).drop k) = [] → checkLeaves s = .ok s) ∧
      (leafHashes ((fileNodes (forestTrees slots)).drop k) ≠ [] →
        ∃ e, checkLeaves s = .error e) := by
  have hexpected : sub64 s.p.numLeaves s.p.numDels = (liveLeaves slots).length := by
    rw [hr.numLeaves, hr.numDels_eq, sub64_of_le (by omega) (by omega)]
    omega
  have hcount : (leafHashes ((fileNodes (forestTrees slots)).take k)).length +
      (leafHashes ((fileNodes (forestTrees slots)).drop k)).length = (liveLeaves slots).length := by
    rw [← List.length_append, ← leafHashes_append, List.take_append_drop]
    exact (leafHashes_fileNodes (by omega) fun x hx => (hfine.isLeaf x hx).ne_empty).length_eq
  rw [checkLeaves, hexpected, (hr.mapOk hfine).2]
  constructor
  · intro hnil
    rw [hnil, List.length_nil, Nat.add_zero] at hcount
    rw [if_pos ⟨by omega, hcount⟩]
  · intro hne
    have := List.length_pos_of_ne_nil hne
    exact ⟨_, if_neg fun h => by omega⟩

end ReadUpTo

end Boundary

end

end Utreexo
