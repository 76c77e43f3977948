import Utreexo.NieceTree
import Utreexo.PollardFile
import Utreexo.PollardPos

/-! # The records of a Pollard file

The file of a Pollard has a record of 34 bytes for each node, a node before its nieces.
`writeOne` writes the records of a tree of nieces, and `readOne` makes a tree of nieces
from as many of them as the file has.
-/
namespace Utreexo
open Wire Merkle

/-- What is written for a node. -/
structure Record (H : Type) where
  data : H
  leaf : Bool
  nieces : Bool
  deriving DecidableEq, Repr

section
variable {H : Type}

/-- The records of a tree, whose nodes are marked if they are leaves. -/
def NTree.records : NTree (H × Bool) → List (Record H)
  | .tip a => [⟨a.1, a.2, false⟩]
  | .node a l r => ⟨a.1, a.2, true⟩ :: (l.records ++ r.records)

@[simp] theorem NTree.length_records (t : NTree (H × Bool)) :
    t.records.length = t.labels.length := by
  induction t with
  | tip a => rfl
  | node a l r hl hr => simp [NTree.records, NTree.labels, hl, hr]

theorem NTree.map_records (t : NTree (H × Bool)) :
    t.records.map (fun r => (r.data, r.leaf)) = t.labels := by
  induction t with
  | tip a => rfl
  | node a l r hl hr => simp [NTree.records, NTree.labels, hl, hr]

variable [HashBytes H]

def Record.bytes (r : Record H) : Bytes := toBytes r.data ++ [flag r.leaf, flag r.nieces]

/-- The fields of a record, which are read one by one. -/
def Record.fields (r : Record H) : List Bytes := [toBytes r.data, [flag r.leaf], [flag r.nieces]]

theorem Record.flatten_fields (r : Record H) : r.fields.flatten = r.bytes := by
  simp [Record.bytes, Record.fields]

theorem Record.fields_ne_nil (r : Record H) : ∀ x ∈ r.fields, x ≠ [] := by
  intro x hx
  rw [Record.fields, List.mem_cons, List.mem_cons, List.mem_singleton] at hx
  rcases hx with rfl | rfl | rfl
  · exact List.ne_nil_of_length_pos (by simp)
  · exact List.cons_ne_nil _ _
  · exact List.cons_ne_nil _ _

theorem Record.delivers {r : Record H} {file rest : Bytes} (h : file = r.bytes ++ rest) :
    Reader.Delivers r.fields file rest := by
  rw [h, ← r.flatten_fields]
  exact Reader.delivers_flatten r.fields_ne_nil rest

@[simp] theorem Record.length_bytes (r : Record H) : r.bytes.length = 34 := by
  simp [Record.bytes]

/-- The bytes of the records. -/
def encode (rs : List (Record H)) : Bytes := rs.flatMap Record.bytes

@[simp] theorem encode_nil : encode ([] : List (Record H)) = [] := rfl

@[simp] theorem encode_cons (r : Record H) (rs : List (Record H)) :
    encode (r :: rs) = r.bytes ++ encode rs := rfl

@[simp] theorem encode_append (rs rs' : List (Record H)) :
    encode (rs ++ rs') = encode rs ++ encode rs' := List.flatMap_append

@[simp] theorem length_encode (rs : List (Record H)) : (encode rs).length = 34 * rs.length := by
  induction rs with
  | nil => rfl
  | cons r rs ih =>
    simp [ih]
    omega

/-- The bytes before a boundary between records. -/
theorem take_encode (k : Nat) (rs : List (Record H)) :
    (encode rs).take (34 * k) = encode (rs.take k) := by
  induction rs generalizing k with
  | nil => simp
  | cons r rs ih =>
    cases k with
    | zero => simp
    | succ k =>
      rw [encode_cons, List.take_succ_cons, encode_cons, List.take_append, r.length_bytes,
        List.take_of_length_le (by rw [r.length_bytes]; omega), ← ih,
        show 34 * (k + 1) - 34 = 34 * k by omega]

end

section
variable {H M : Type} [DecidableEq H] [HashOps H] [HashBytes H] [DecidableEq M] [MiniHash H M]

/-! ### Writing -/

omit [DecidableEq H] [HashOps H] [HashBytes H] in
/-- The children of a niece are the nieces of its sibling. -/
theorem getChildren_niece {h : Heap H} {a : Addr} {x y : NTree (Addr × H)}
    (hx : (h.get x.top.1).aunt = some a) (hy : NRep h (some a) y)
    (hsib : getSibling h x.top.1 = .ok (some y.top.1)) :
    ∃ c d, getChildren h x.top.1 = .ok (c, d) ∧ (c.isNone && d.isNone) = y.isTip := by
  refine ⟨_, _, ?_, hy.isTip⟩
  simp only [getChildren, hx, hsib]

omit [DecidableEq H] [HashOps H] in
/-- **`writeOne` writes the records.** -/
theorem writeOne_spec {h : Heap H} {aunt : Option Addr} {t : NTree (Addr × H)} {leaf : Bool}
    {fuel : Nat} (hr : NRep h aunt t) (hnd : (t.labels.map Prod.fst).Nodup)
    (hleaf : ∃ c d, getChildren h t.top.1 = .ok (c, d) ∧ (c.isNone && d.isNone) = leaf)
    (hfuel : t.height < fuel) :
    writeOne h fuel (some t.top.1) =
      .ok ⟨encode ((t.map Prod.snd).flagged leaf).records, 34 * t.labels.length, .ok ()⟩ := by
  induction t generalizing aunt leaf fuel with
  | tip a =>
    have hr : CellIs (h.get a.1) none none aunt a.2 := hr
    obtain ⟨c, d, hcd, rfl⟩ := hleaf
    obtain ⟨fuel, rfl⟩ : ∃ f, fuel = f + 1 := ⟨fuel - 1, by omega⟩
    rw [NTree.top_tip] at hcd
    simp only [writeOne, NTree.top_tip, hcd, hr.lNiece, hr.data]
    simp [Written.nothing, Written.write, NTree.map, NTree.flagged, NTree.records, NTree.labels,
      Record.bytes, flag]
  | node a l r ihl ihr =>
    obtain ⟨hcell, hl, hr⟩ := hr
    obtain ⟨c, d, hcd, rfl⟩ := hleaf
    simp only [NTree.height] at hfuel
    obtain ⟨fuel, rfl⟩ : ∃ f, fuel = f + 1 := ⟨fuel - 1, by omega⟩
    simp only [NTree.labels, List.map_cons, List.map_append, List.nodup_cons] at hnd
    obtain ⟨hndl, hndr, hdisj⟩ := List.nodup_append.mp hnd.2
    have hne : l.top.1 ≠ r.top.1 := hdisj _ (List.mem_map_of_mem l.top_mem) _
      (List.mem_map_of_mem r.top_mem)
    have hsibl : getSibling h l.top.1 = .ok (some r.top.1) := by
      simp [getSibling, hl.aunt, hcell.lNiece, hcell.rNiece]
    have hsibr : getSibling h r.top.1 = .ok (some l.top.1) := by
      simp [getSibling, hr.aunt, hcell.lNiece, hcell.rNiece, hne]
    have hwl := ihl hl hndl (getChildren_niece hl.aunt hr hsibl) (by omega : l.height < fuel)
    have hwr := ihr hr hndr (getChildren_niece hr.aunt hl hsibr) (by omega : r.height < fuel)
    rw [NTree.top_node] at hcd
    simp only [writeOne, NTree.top_node, hcd, hcell.lNiece, hcell.rNiece, hcell.data, hwl, hwr]
    simp [Written.nothing, Written.write, Written.andThen, NTree.map, NTree.flagged,
      NTree.records, NTree.labels, Record.bytes, flag]
    omega

omit [DecidableEq H] [HashOps H] [HashBytes H] in
/-- `getCount` counts the nodes. -/
theorem getCount_spec {h : Heap H} {aunt : Option Addr} {t : NTree (Addr × H)} {fuel : Nat}
    (hr : NRep h aunt t) (hfuel : t.height + 1 < fuel) :
    getCount h fuel (some t.top.1) = .ok t.labels.length := by
  induction t generalizing aunt fuel with
  | tip a =>
    have hr : CellIs (h.get a.1) none none aunt a.2 := hr
    obtain ⟨fuel, rfl⟩ : ∃ f, fuel = f + 2 := ⟨fuel - 2, by omega⟩
    simp [getCount, hr.lNiece, hr.rNiece, NTree.labels]
  | node a l r ihl ihr =>
    obtain ⟨hcell, hl, hr⟩ := hr
    simp only [NTree.height] at hfuel
    obtain ⟨fuel, rfl⟩ : ∃ f, fuel = f + 1 := ⟨fuel - 1, by omega⟩
    simp only [getCount, NTree.top_node, hcell.lNiece, hcell.rNiece,
      ihl hl (by omega : l.height + 1 < fuel), ihr hr (by omega : r.height + 1 < fuel),
      Exec.ok_bind, NTree.labels, List.length_cons, List.length_append]
    congr 1
    omega

/-- The nodes of a root and whether they are leaves, as they are written. -/
def fileTree (o : Option (CTree H)) : NTree (H × Bool) :=
  (rootShape o).flagged (rootShape o).isTip

/-- The records of the roots. -/
def rootRecords (trees : List (Option (CTree H))) : List (Record H) :=
  (trees.map fileTree).flatMap NTree.records

omit [DecidableEq H] [HashBytes H] in
theorem PRoot.length_fileTree (R : PRoot H) :
    (fileTree R.opt).records.length = R.nieces.labels.length := by
  rw [NTree.length_records, fileTree, NTree.length_labels_flagged, ← R.map_nieces,
    NTree.map_labels, List.length_map]

omit [DecidableEq H] [HashBytes H] in
/-- The nodes of the roots, as a tree of nieces in the heap. -/
theorem HeapRep.nieces {h : Heap H} {F : List (PRoot H)} (hr : HeapRep h F) {R : PRoot H}
    (hR : R ∈ F) : NRep h none R.nieces ∧ (R.nieces.labels.map Prod.fst).Nodup ∧
      R.nieces.height < h.next := by
  have hsub : ∀ b ∈ R.addrs, b ∈ F.flatMap PRoot.addrs := fun b hb =>
    List.mem_flatMap.mpr ⟨R, hR, hb⟩
  have hnd : (R.nieces.labels.map Prod.fst).Nodup :=
    R.addrs_nieces.nodup_iff.mpr (List.nodup_flatMap.mp hr.nodup |>.1 R hR)
  refine ⟨rootOk_iff_nrep.mp (hr.ok R hR), hnd, ?_⟩
  have hlen := length_le_of_nodup_lt hnd fun b hb => hr.lt b (hsub b (R.addrs_nieces.subset hb))
  rw [List.length_map] at hlen
  exact Nat.lt_of_lt_of_le R.nieces.height_lt hlen

omit [DecidableEq H] in
/-- **The loop of `WriteTo` writes the records of the roots.** -/
theorem writeRoots_spec {h : Heap H} {F : List (PRoot H)} (hr : HeapRep h F) (bs : Bytes)
    (n : Nat) :
    Pollard.writeRoots h ⟨bs, n, .ok ()⟩ (F.map PRoot.addr) =
      .ok ⟨bs ++ encode (rootRecords (F.map PRoot.opt)),
        n + 34 * (rootRecords (F.map PRoot.opt)).length, .ok ()⟩ := by
  induction F generalizing bs n with
  | nil => simp [Pollard.writeRoots, rootRecords]
  | cons R F ih =>
    obtain ⟨hrep, hnd, hheight⟩ := hr.nieces List.mem_cons_self
    have hleaf : ∃ c d, getChildren h R.nieces.top.1 = .ok (c, d) ∧
        (c.isNone && d.isNone) = R.nieces.isTip := by
      refine ⟨_, _, ?_, hrep.isTip⟩
      simp only [getChildren, hrep.aunt]
    have hw := writeOne_spec hrep hnd hleaf (Nat.lt_succ_of_lt hheight)
    rw [PRoot.top_nieces] at hw
    have hrec : (R.nieces.map Prod.snd).flagged R.nieces.isTip = fileTree R.opt := by
      rw [fileTree, ← R.map_nieces, NTree.map_isTip]
    rw [hrec, ← R.length_fileTree] at hw
    rw [List.map_cons, Pollard.writeRoots, hw]
    simp only [Written.andThen, Exec.ok_bind]
    rw [ih (hr.of_sublist (List.sublist_cons_self R F))]
    simp [rootRecords]
    omega

omit [DecidableEq H] [HashBytes H] in
/-- The loop of `GetTotalCount` counts the records. -/
theorem countRoots_spec {h : Heap H} {F : List (PRoot H)} (hr : HeapRep h F) (n : Nat) :
    Pollard.countRoots h n (F.map PRoot.addr) =
      .ok (n + (rootRecords (F.map PRoot.opt)).length) := by
  induction F generalizing n with
  | nil => simp [Pollard.countRoots, rootRecords]
  | cons R F ih =>
    obtain ⟨hrep, -, hheight⟩ := hr.nieces List.mem_cons_self
    have hc := getCount_spec hrep (Nat.succ_lt_succ hheight)
    rw [PRoot.top_nieces, ← R.length_fileTree] at hc
    rw [List.map_cons, Pollard.countRoots, hc, Exec.ok_bind,
      ih (hr.of_sublist (List.sublist_cons_self R F))]
    simp [rootRecords]
    omega

/-! ### Reading a record -/

section Readers
variable {σ : Type} [Reader σ]

omit [DecidableEq H] [HashOps H] [HashBytes H] [DecidableEq M] [MiniHash H M] in
/-- A request that is met. -/
theorem Restoring.read_gives {s : Restoring H M σ} (buf : Bytes) {x : Bytes} {rest : σ}
    (h : Reader.Gives s.rest x rest) (hbuf : buf.length = x.length) :
    s.read buf = some (x, { s with rest := rest, totalBytes := s.totalBytes + x.length }) := by
  rw [Restoring.read, h.fill hbuf, h.left]
  simp

/-- A node of the file is entered into the node map if it is a leaf. -/
def enterLeaf (m : Finmap fun _ : M => Addr) (e : Addr × H × Bool) : Finmap fun _ : M => Addr :=
  if e.2.2 = true ∧ e.2.1 ≠ empty then m.insert (mini e.2.1) e.1 else m

/-- After the record of a node has been read. -/
def Restoring.enter (s : Restoring H M σ) (n : Addr) (a : H × Bool) (rest : σ) :
    Restoring H M σ where
  p := { s.p with heap := s.p.heap.setData n a.1, nodeMap := enterLeaf s.p.nodeMap (n, a) }
  rest := rest
  totalBytes := s.totalBytes + 34

omit [DecidableEq H] [HashOps H] [HashBytes H] [DecidableEq M] [MiniHash H M] in
theorem flag_eq_one {b : Bool} : [flag b] = [1] ↔ b = true := by cases b <;> simp [flag]

/-- `readOne` with a reader that delivers a record. -/
theorem readOne_delivers {s : Restoring H M σ} {n : Addr} {fuel : Nat} {r : Record H} {rest : σ}
    (h : Reader.Delivers r.fields s.rest rest) :
    readOne (fuel + 1) n s =
      if r.nieces then do
        match ← readOne fuel ((s.enter n (r.data, r.leaf) rest).newLeft n).1
            ((s.enter n (r.data, r.leaf) rest).newLeft n).2 with
        | .error e => .ok (.error e)
        | .ok s => readOne fuel (s.newRight n).1 (s.newRight n).2
      else .ok (.ok (s.enter n (r.data, r.leaf) rest)) := by
  obtain ⟨rest1, g1, rest2, g2, rest3, g3, rfl⟩ := h
  -- The three requests.
  have h1 := Restoring.read_gives (toBytes (s.p.heap.get n).data) g1 (by simp)
  have h2 := Restoring.read_gives [0]
    (s := Restoring.setData ⟨s.p, rest1, s.totalBytes + (toBytes r.data).length⟩ n r.data) g2 rfl
  have h3 : (Restoring.setLeaf ⟨{ s.p with heap := s.p.heap.setData n r.data }, rest2,
      s.totalBytes + 32 + 1⟩ n [flag r.leaf]).read [flag r.leaf] =
        some ([flag r.nieces], s.enter n (r.data, r.leaf) rest) := by
    have hrest : (Restoring.setLeaf ⟨{ s.p with heap := s.p.heap.setData n r.data }, rest2,
        s.totalBytes + 32 + 1⟩ n [flag r.leaf]).rest = rest2 := by
      rw [Restoring.setLeaf]
      split <;> rfl
    rw [Restoring.read_gives [flag r.leaf] (x := [flag r.nieces]) (hrest ▸ g3) rfl,
      Restoring.setLeaf, Restoring.enter, enterLeaf]
    simp only [flag_eq_one, setData_self]
    split <;> rfl
  rw [readOne, h1]
  simp only [HashBytes.ofBytes_toBytes, HashBytes.length_toBytes] at h2 ⊢
  rw [h2]
  simp only [List.length_singleton, Restoring.setData]
  rw [h3]
  exact if_congr flag_eq_one rfl rfl

end Readers

omit [DecidableEq H] [HashOps H] [HashBytes H] [DecidableEq M] [MiniHash H M] in
/-- A request that can be met. -/
theorem Restoring.read_append {s : Restoring H M Bytes} (buf : Bytes) {x rest : Bytes}
    (hs : s.rest = x ++ rest) (hx : x.length = buf.length) (hpos : 0 < buf.length) :
    s.read buf = some (x, { s with rest := rest, totalBytes := s.totalBytes + x.length }) := by
  refine Restoring.read_gives buf (hs ▸ Reader.gives_append ?_ rest) hx.symm
  exact List.ne_nil_of_length_pos (by omega)

/-- `readOne` where the file ends within a record. -/
theorem readOne_short {s : Restoring H M Bytes} {n : Addr} {fuel : Nat} (hne : s.rest ≠ [])
    (hlen : s.rest.length < 34) : readOne (fuel + 1) n s = .ok (.error .eof) := by
  by_cases h32 : s.rest.length ≤ 32
  · rw [readOne, Restoring.read, reader_fill, fill_short hne (by simpa using h32)]
    rfl
  · -- Only the last byte is missing.
    have hs : s.rest = s.rest.take 32 ++ s.rest.drop 32 := (List.take_append_drop 32 _).symm
    obtain ⟨y, hy⟩ : ∃ y, s.rest.drop 32 = [y] := by
      rw [← List.length_eq_one_iff, List.length_drop]
      omega
    rw [hy] at hs
    have h2 := Restoring.read_append [0] (x := [y])
      (s := Restoring.setData ⟨s.p, [y] ++ [], s.totalBytes + (s.rest.take 32).length⟩ n
        (ofBytes (s.rest.take 32))) rfl rfl (by simp)
    have h3 : ∀ t : Restoring H M Bytes, t.rest = [] → (t.setLeaf n [y]).read [y] = none := by
      intro t ht
      have hrest : (t.setLeaf n [y]).rest = [] := by
        rw [Restoring.setLeaf]
        split <;> exact ht
      rw [Restoring.read, hrest, reader_fill, fill_nil]
    rw [readOne, Restoring.read_append (toBytes (s.p.heap.get n).data) hs
      (by rw [HashBytes.length_toBytes, List.length_take]; omega) (by simp)]
    simp only
    rw [List.append_nil] at h2
    rw [h2]
    simp only
    rw [h3 _ rfl]

/-! ### New nodes -/

/-- A new niece of a node. -/
structure Hung (s : Restoring H M Bytes) (n : Addr) (cell : PolNode H)
    (s' : Restoring H M Bytes) : Prop where
  next : s'.p.heap.next = s.p.heap.next + 1
  new : CellIs (s'.p.heap.get s.p.heap.next) none none (some n) empty
  self : s'.p.heap.get n = cell
  other : ∀ b, b ≠ n → b ≠ s.p.heap.next → s'.p.heap.get b = s.p.heap.get b
  same : s'.p = { s.p with heap := s'.p.heap }
  rest : s'.rest = s.rest
  totalBytes : s'.totalBytes = s.totalBytes

variable {s s' : Restoring H M Bytes} {n : Addr}

omit [DecidableEq H] [HashBytes H] [DecidableEq M] [MiniHash H M] in
theorem newLeft_hung (hn : n < s.p.heap.next) :
    Hung s n { s.p.heap.get n with lNiece := some s.p.heap.next } (s.newLeft n).2 := by
  have hget : ∀ b, (s.newLeft n).2.p.heap.get b =
      if b = n then { s.p.heap.get n with lNiece := some s.p.heap.next }
      else if b = s.p.heap.next then ⟨none, none, some n, empty, false⟩ else s.p.heap.get b := by
    intro b
    simp [Restoring.newLeft, Restoring.alloc, Heap.alloc, Heap.setLNiece, Heap.set, hn.ne]
  refine ⟨rfl, ?_, ?_, fun b h1 h2 => ?_, rfl, rfl, rfl⟩
  · rw [hget, if_neg hn.ne', if_pos rfl]
    exact ⟨rfl, rfl, rfl, rfl⟩
  · rw [hget, if_pos rfl]
  · rw [hget, if_neg h1, if_neg h2]

omit [DecidableEq H] [HashBytes H] [DecidableEq M] [MiniHash H M] in
theorem newRight_hung (hn : n < s.p.heap.next) :
    Hung s n { s.p.heap.get n with rNiece := some s.p.heap.next } (s.newRight n).2 := by
  have hget : ∀ b, (s.newRight n).2.p.heap.get b =
      if b = n then { s.p.heap.get n with rNiece := some s.p.heap.next }
      else if b = s.p.heap.next then ⟨none, none, some n, empty, false⟩ else s.p.heap.get b := by
    intro b
    simp [Restoring.newRight, Restoring.alloc, Heap.alloc, Heap.setRNiece, Heap.set, hn.ne]
  refine ⟨rfl, ?_, ?_, fun b h1 h2 => ?_, rfl, rfl, rfl⟩
  · rw [hget, if_neg hn.ne', if_pos rfl]
    exact ⟨rfl, rfl, rfl, rfl⟩
  · rw [hget, if_pos rfl]
  · rw [hget, if_neg h1, if_neg h2]

/-! ### Reading a tree -/

/-- The node `n` and new nodes hold the tree, and nothing else has changed. -/
structure Grown (s s' : Restoring H M Bytes) (n : Addr) (aunt : Option Addr)
    (t : NTree (Addr × H × Bool)) : Prop where
  top : t.top.1 = n
  rep : NRep s'.p.heap aunt (t.map fun e => (e.1, e.2.1))
  nodup : (t.labels.map Prod.fst).Nodup
  new : ∀ e ∈ t.labels, e.1 = n ∨ s.p.heap.next ≤ e.1
  lt : ∀ e ∈ t.labels, e.1 < s'.p.heap.next
  next : s.p.heap.next ≤ s'.p.heap.next
  keeps : ∀ b, b < s.p.heap.next → b ≠ n → s'.p.heap.get b = s.p.heap.get b
  same : s'.p = { s.p with heap := s'.p.heap, nodeMap := t.labels.foldl enterLeaf s.p.nodeMap }
  totalBytes : s'.totalBytes + s'.rest.length = s.totalBytes + s.rest.length

omit [HashBytes H] in
/-- A node without nieces. -/
theorem Grown.tip {aunt : Option Addr} (a : H × Bool) (rest : Bytes) (hn : n < s.p.heap.next)
    (hcell : CellIs (s.p.heap.get n) none none aunt empty)
    (hrest : s.rest.length = 34 + rest.length) :
    Grown s (s.enter n a rest) n aunt (.tip (n, a)) := by
  have hmem : ∀ e ∈ (NTree.tip (n, a)).labels, e = (n, a) := fun e he => List.mem_singleton.mp he
  refine ⟨rfl, ?_, List.nodup_singleton _, fun e he => Or.inl (by rw [hmem e he]),
    fun e he => by rw [hmem e he]; exact hn, Nat.le_refl _, fun b _ hb => ?_, rfl, ?_⟩
  · exact ⟨hcell.lNiece ▸ by simp [Restoring.enter, Heap.setData, Heap.set],
      hcell.rNiece ▸ by simp [Restoring.enter, Heap.setData, Heap.set],
      hcell.aunt ▸ by simp [Restoring.enter, Heap.setData, Heap.set],
      by simp [Restoring.enter, Heap.setData, Heap.set]⟩
  · simp [Restoring.enter, Heap.setData, Heap.set, hb]
  · simp only [Restoring.enter, hrest]
    omega

omit [HashBytes H] in
/-- Two nieces that have been read one after the other. -/
theorem Grown.node {s1 s2 s3 s4 s5 : Restoring H M Bytes} {aunt : Option Addr} {a : H × Bool}
    {tl tr : NTree (Addr × H × Bool)} (h01 : Grown s s1 n aunt (.tip (n, a)))
    (hn : n < s.p.heap.next)
    (h12 : Hung s1 n { s1.p.heap.get n with lNiece := some s1.p.heap.next } s2)
    (h23 : Grown s2 s3 s1.p.heap.next (some n) tl)
    (h34 : Hung s3 n { s3.p.heap.get n with rNiece := some s3.p.heap.next } s4)
    (h45 : Grown s4 s5 s3.p.heap.next (some n) tr) :
    Grown s s5 n aunt (.node (n, a) tl tr) := by
  have hcell : CellIs (s1.p.heap.get n) none none aunt a.1 := h01.rep
  have hnext1 := h01.next
  have hnext2 := h12.next
  have hnext3 := h23.next
  have hnext4 := h34.next
  have hnext5 := h45.next
  have hn1 : n < s1.p.heap.next := Nat.lt_of_lt_of_le hn hnext1
  have hn3 : n < s3.p.heap.next := Nat.lt_of_lt_of_le hn1 (by omega)
  -- Where the nieces are.
  have hl : ∀ e ∈ tl.labels, s1.p.heap.next ≤ e.1 ∧ e.1 < s3.p.heap.next := by
    intro e he
    refine ⟨?_, h23.lt e he⟩
    rcases h23.new e he with h | h
    · exact h.ge
    · exact Nat.le_trans (by omega) h
  have hr : ∀ e ∈ tr.labels, s3.p.heap.next ≤ e.1 ∧ e.1 < s5.p.heap.next := by
    intro e he
    refine ⟨?_, h45.lt e he⟩
    rcases h45.new e he with h | h
    · exact h.ge
    · exact Nat.le_trans (by omega) h
  -- What is there is not changed later on.
  have hkeep : ∀ b, b < s3.p.heap.next → b ≠ n → s5.p.heap.get b = s3.p.heap.get b := by
    intro b hb hne
    rw [h45.keeps b (Nat.lt_of_lt_of_le hb (by omega)) hb.ne, h34.other b hne hb.ne]
  have hself : CellIs (s5.p.heap.get n) (some tl.top.1) (some tr.top.1) aunt a.1 := by
    rw [h45.keeps n (Nat.lt_of_lt_of_le hn3 (by omega)) hn3.ne, h34.self,
      h23.keeps n (Nat.lt_of_lt_of_le hn1 (by omega)) hn1.ne, h12.self, h23.top, h45.top]
    exact ⟨rfl, rfl, hcell.aunt, hcell.data⟩
  refine ⟨rfl, ⟨by simpa using hself, h23.rep.congr ?_, h45.rep⟩, ?_, ?_, ?_, by omega, ?_, ?_, ?_⟩
  · intro e he
    rw [NTree.map_labels] at he
    obtain ⟨e', he', rfl⟩ := List.mem_map.mp he
    exact hkeep _ (hl e' he').2 (Nat.lt_of_lt_of_le hn1 (hl e' he').1).ne'
  · rw [NTree.labels, List.map_cons, List.map_append, List.nodup_cons, List.nodup_append]
    refine ⟨?_, h23.nodup, h45.nodup, ?_⟩
    · rw [List.mem_append, List.mem_map, List.mem_map]
      rintro (⟨e, he, heq⟩ | ⟨e, he, heq⟩)
      · exact (Nat.lt_of_lt_of_le hn1 (hl e he).1).ne' heq
      · exact (Nat.lt_of_lt_of_le hn3 (hr e he).1).ne' heq
    · intro b hb c hc
      obtain ⟨e, he, rfl⟩ := List.mem_map.mp hb
      obtain ⟨e', he', rfl⟩ := List.mem_map.mp hc
      exact (Nat.lt_of_lt_of_le (hl e he).2 (hr e' he').1).ne
  · intro e he
    simp only [NTree.labels, List.mem_cons, List.mem_append] at he
    rcases he with rfl | he | he
    · exact Or.inl rfl
    · exact Or.inr (Nat.le_trans hnext1 (hl e he).1)
    · exact Or.inr (Nat.le_trans (by omega) (hr e he).1)
  · intro e he
    simp only [NTree.labels, List.mem_cons, List.mem_append] at he
    rcases he with rfl | he | he
    · exact Nat.lt_of_lt_of_le hn3 (by omega)
    · exact Nat.lt_of_lt_of_le (hl e he).2 (by omega)
    · exact (hr e he).2
  · intro b hb hne
    have hb1 := Nat.lt_of_lt_of_le hb hnext1
    rw [hkeep b (Nat.lt_of_lt_of_le hb1 (by omega)) hne,
      h23.keeps b (Nat.lt_of_lt_of_le hb1 (by omega)) hb1.ne, h12.other b hne hb1.ne,
      h01.keeps b hb hne]
  · rw [h45.same, h34.same, h23.same, h12.same, h01.same]
    simp [NTree.labels, List.foldl_append]
  · have h1 := h01.totalBytes
    have h2 := h23.totalBytes
    have h3 := h45.totalBytes
    rw [h12.rest, h12.totalBytes] at h2
    rw [h34.rest, h34.totalBytes] at h3
    omega

/-- A niece that the file does not have. -/
def missing : H × Bool := (empty, false)

/-- `readOne` at the end of the file. -/
theorem readOne_end {aunt : Option Addr} (fuel : Nat) (hn : n < s.p.heap.next)
    (hcell : CellIs (s.p.heap.get n) none none aunt empty) (hs : s.rest = []) :
    readOne (fuel + 1) n s = .ok (.ok s) ∧ Grown s s n aunt (.tip (n, missing)) := by
  have hmem : ∀ e ∈ (NTree.tip (n, (missing : H × Bool))).labels, e = (n, missing) :=
    fun e he => List.mem_singleton.mp he
  refine ⟨?_, rfl, hcell, List.nodup_singleton _, fun e he => Or.inl (by rw [hmem e he]),
    fun e he => by rw [hmem e he]; exact hn, Nat.le_refl _, fun _ _ _ => rfl, ?_, rfl⟩
  · rw [readOne, Restoring.read, hs, reader_fill, fill_nil]
  · simp [NTree.labels, enterLeaf, missing]

/-- What `readOne` does with the first `k` records of a tree and less than a record after them
unless they are complete: it stops within the record that is torn, or makes the tree. -/
def ReadsRecords (fuel : Nat) (n : Addr) (s : Restoring H M Bytes) (aunt : Option Addr)
    (t : NTree (H × Bool)) (k : Nat) (rest : Bytes) : Prop :=
  (k < t.labels.length ∧ rest ≠ [] ∧ readOne fuel n s = .ok (.error .eof)) ∨
  (k < t.labels.length → rest = []) ∧ ∃ s' t', readOne fuel n s = .ok (.ok s') ∧
    Grown s s' n aunt t' ∧ t'.map Prod.snd = t.cut missing k ∧ s'.rest = rest

theorem readsRecords_zero {t : NTree (H × Bool)} {aunt : Option Addr} (fuel : Nat) {rest : Bytes}
    (hn : n < s.p.heap.next) (hcell : CellIs (s.p.heap.get n) none none aunt empty)
    (hs : s.rest = rest) (hrest : rest.length < 34) :
    ReadsRecords (fuel + 1) n s aunt t 0 rest := by
  by_cases hr : rest = []
  · obtain ⟨hrun, hgrown⟩ := readOne_end fuel hn hcell (hs.trans hr)
    exact Or.inr ⟨fun _ => hr, s, _, hrun, hgrown, by rw [NTree.cut]; rfl, hs⟩
  · exact Or.inl ⟨by cases t <;> simp [NTree.labels], hr, readOne_short (hs ▸ hr) (hs ▸ hrest)⟩

/-- **`readOne` makes the tree of the first `k` records**, or stops within the next one. -/
theorem readOne_records {t : NTree (H × Bool)} {aunt : Option Addr} {k fuel : Nat} {rest : Bytes}
    (hn : n < s.p.heap.next) (hcell : CellIs (s.p.heap.get n) none none aunt empty)
    (hs : s.rest = encode (t.records.take k) ++ rest)
    (hrest : k < t.labels.length → rest.length < 34) (hfuel : s.rest.length < fuel) :
    ReadsRecords fuel n s aunt t k rest := by
  induction t generalizing s n aunt k fuel rest with
  | tip a =>
    obtain ⟨fuel, rfl⟩ : ∃ f, fuel = f + 1 := ⟨fuel - 1, by omega⟩
    cases k with
    | zero => exact readsRecords_zero fuel hn hcell hs (hrest (by simp [NTree.labels]))
    | succ k =>
      have hs : s.rest = (⟨a.1, a.2, false⟩ : Record H).bytes ++ rest := by
        simpa [NTree.records] using hs
      refine Or.inr ⟨fun hk => by simp [NTree.labels] at hk, _, _, ?_,
        Grown.tip a rest hn hcell (by rw [hs]; simp), rfl, rfl⟩
      rw [readOne_delivers (Record.delivers hs)]
      rfl
  | node a l r ihl ihr =>
    obtain ⟨fuel, rfl⟩ : ∃ f, fuel = f + 1 := ⟨fuel - 1, by omega⟩
    cases k with
    | zero => exact readsRecords_zero fuel hn hcell hs (hrest (by simp [NTree.labels]))
    | succ k =>
      have hlabels : (NTree.node a l r).labels.length = l.labels.length + r.labels.length + 1 := by
        simp [NTree.labels]
      rw [hlabels] at hrest
      rw [NTree.records, List.take_succ_cons, List.take_append, NTree.length_records, encode_cons,
        encode_append, List.append_assoc, List.append_assoc] at hs
      generalize hR : encode (r.records.take (k - l.labels.length)) ++ rest = restR at hs
      generalize hL : encode (l.records.take k) ++ restR = restL at hs
      have hlen : s.rest.length = 34 + restL.length := by
        rw [hs, List.length_append, Record.length_bytes]
      have hlenR : restR.length ≤ restL.length := by
        rw [← hL, List.length_append]
        omega
      have hleft : k < l.labels.length → restR = rest := fun hk => by
        rw [← hR, Nat.sub_eq_zero_of_le (by omega)]
        rfl
      rw [ReadsRecords, hlabels, readOne_delivers (Record.delivers hs), if_pos rfl]
      have hfst : ((s.enter n a restL).newLeft n).1 = (s.enter n a restL).p.heap.next := rfl
      -- The node itself.
      have h01 := Grown.tip a restL hn hcell hlen
      have hn1 := Nat.lt_of_lt_of_le hn h01.next
      -- The nieces on the left.
      have h12 := newLeft_hung hn1
      have hfuelL : ((s.enter n a restL).newLeft n).2.rest.length < fuel := by
        rw [h12.rest]
        show restL.length < fuel
        omega
      rcases ihl (by rw [h12.next]; exact Nat.lt_succ_self _) h12.new (h12.rest.trans hL.symm)
        (fun hk => by rw [hleft hk]; exact hrest (by omega)) hfuelL with
        ⟨hk, hne, hrun⟩ | ⟨hdoneL, s3, tl, hrunl, h23, htl, hs3⟩
      · refine Or.inl ⟨by omega, by rwa [hleft hk] at hne, ?_⟩
        simp only [hfst, hrun, Exec.ok_bind]
      have hn3 : n < s3.p.heap.next :=
        Nat.lt_of_lt_of_le hn1 (Nat.le_trans (by rw [h12.next]; omega) h23.next)
      -- The nieces on the right.
      have h34 := newRight_hung hn3
      have hfuelR : (s3.newRight n).2.rest.length < fuel := by
        rw [h34.rest, hs3]
        omega
      simp only [hfst, hrunl, Exec.ok_bind]
      rcases ihr (by rw [h34.next]; exact Nat.lt_succ_self _) h34.new
        (h34.rest.trans (hs3.trans hR.symm)) (fun hk => hrest (by omega)) hfuelR with
        ⟨hk, hne, hrun⟩ | ⟨hdoneR, s5, tr, hrunr, h45, htr, hs5⟩
      · exact Or.inl ⟨by omega, hne, hrun⟩
      · refine Or.inr ⟨fun hk => ?_, s5, _, hrunr, h01.node hn h12 h23 h34 h45, ?_, hs5⟩
        · by_cases hkl : k < l.labels.length
          · rw [← hleft hkl, hdoneL hkl]
          · exact hdoneR (by omega)
        · rw [NTree.map, htl, htr, NTree.cut]

end

end Utreexo
