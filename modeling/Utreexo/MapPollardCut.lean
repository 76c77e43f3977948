import Utreexo.MapPollardIO

/-! # Reading a truncated MapPollard

Every field is read with one call of the reader whose count is ignored.  A file that
ends in the middle of a field is noticed at the next call, so that a cut is accepted
only if no call follows: in the last node, or in the count of the nodes if what is read
of it is zero.
-/
namespace Utreexo
open Wire

namespace MapPollard

section
variable {H : Type} [DecidableEq H] [HashBytes H]

/-! ### How much a successful call consumes -/

section Consume
variable {s s' : Reading H Bytes} {buf buf' hash leafBuf : Bytes} {i failBytes : Nat}

omit [DecidableEq H] [HashBytes H] in
theorem Reading.read_ok (h : s.read failBytes buf = .ok (buf', s')) :
    s.rest ≠ [] ∧ s'.rest = s.rest.drop buf.length ∧ buf'.length = buf.length := by
  rw [Reading.read, reader_fill] at h
  rcases hf : fill buf s.rest with _ | ⟨b, r⟩
  · simp [hf] at h
  · obtain ⟨h1, h2, h3⟩ := fill_some hf
    simp only [hf, Except.ok.injEq, Prod.mk.injEq] at h
    obtain ⟨rfl, rfl⟩ := h
    exact ⟨h1, h2, h3⟩

theorem readCached_ok (hh : hash.length = 32) (hb : buf.length = 8)
    (h : readCached i hash buf s = .ok (buf', s')) :
    s'.rest = s.rest.drop (40 * i) ∧ buf'.length = 8 := by
  induction i generalizing hash buf s with
  | zero =>
    simp only [readCached, Except.ok.injEq, Prod.mk.injEq] at h
    obtain ⟨rfl, rfl⟩ := h
    simp [hb]
  | succ i ih =>
    rw [readCached, Exec.bind_eq_ok] at h
    obtain ⟨⟨hash1, s1⟩, h1, h⟩ := h
    rw [Exec.bind_eq_ok] at h
    obtain ⟨⟨buf2, s2⟩, h2, h⟩ := h
    obtain ⟨-, hr1, hl1⟩ := Reading.read_ok h1
    obtain ⟨-, hr2, hl2⟩ := Reading.read_ok h2
    obtain ⟨hr, hl⟩ := ih (by omega) (by omega) h
    refine ⟨?_, hl⟩
    rw [hr]
    simp only
    rw [hr2, hr1, List.drop_drop, List.drop_drop]
    congr 1
    omega

omit [DecidableEq H] [HashBytes H] in
theorem readHeader_ok (h : readHeader s = .ok (buf', s')) :
    s'.rest = s.rest.drop 17 ∧ buf'.length = 8 := by
  rw [readHeader, Exec.bind_eq_ok] at h
  obtain ⟨⟨b1, s1⟩, h1, h⟩ := h
  simp only [Exec.bind_eq_ok] at h
  obtain ⟨⟨b2, s2⟩, h2, h⟩ := h
  obtain ⟨-, hr1, hl1⟩ := Reading.read_ok h1
  obtain ⟨-, hr2, hl2⟩ := Reading.read_ok h2
  obtain ⟨-, hr3, hl3⟩ := Reading.read_ok h
  simp only [List.length_append, List.length_replicate, List.length_cons, List.length_nil]
    at hl1 hr1 hl2 hr2 hr3 hl3
  refine ⟨?_, by omega⟩
  rw [hr3, hr2, hr1, List.drop_drop, List.drop_drop]
  congr 1
  omega

omit [DecidableEq H] in
/-- The last call of the last node has to find a byte. -/
theorem readNodes_ok (hl : leafBuf.length = 33) (hb : buf.length = 8)
    (h : readNodes i leafBuf buf s = .ok s') : i = 0 ∨ 41 * i < s.rest.length + 33 := by
  induction i generalizing leafBuf buf s with
  | zero => exact Or.inl rfl
  | succ i ih =>
    rw [readNodes, Exec.bind_eq_ok] at h
    obtain ⟨⟨buf1, s1⟩, h1, h⟩ := h
    rw [Exec.bind_eq_ok] at h
    obtain ⟨⟨leafBuf2, s2⟩, h2, h⟩ := h
    obtain ⟨-, hr1, hl1⟩ := Reading.read_ok h1
    obtain ⟨hne, hr2, hl2⟩ := Reading.read_ok h2
    have hlen1 := congrArg List.length hr1
    have hlen2 := congrArg List.length hr2
    have hpos : 0 < s1.rest.length := List.length_pos_iff.mpr hne
    simp only [List.length_drop] at hlen1 hlen2
    rcases ih (by omega) (by omega) h with hi | hi
    · omega
    · simp only at hi
      omega

end Consume

/-! ### A cut in the nodes -/

section Nodes
variable {m : MapPollard H} {leafBuf buf : Bytes} {t : Nat}

omit [DecidableEq H] [HashBytes H] in
theorem Reading.read_append {x rest : Bytes} (failBytes : Nat) (hx : x.length = buf.length)
    (hpos : 0 < buf.length) :
    Reading.read ⟨m, x ++ rest, t⟩ failBytes buf = .ok (x, ⟨m, rest, t + buf.length⟩) :=
  Reading.read_gives failBytes (Reader.gives_append (List.ne_nil_of_length_pos (by omega)) rest)
    hx.symm

/-- What the buffer of the nodes holds before the last of them is read. -/
def staleLeaf (leafBuf : Bytes) (init : List (Sigma fun _ : Nat => Leaf H)) : Bytes :=
  (init.getLast?.map fun e => leafBytes e.2).getD leafBuf

/-- The hash of the last node if `c` bytes of it are read over the old ones. -/
def cutHash (c : Nat) (stale : Bytes) (h : H) : H :=
  ofBytes ((toBytes h).take c ++ (stale.take 32).drop c)

omit [DecidableEq H] in
/-- A cut in the hash or the flag of the last node is not noticed: the buffer fills up
with what it held. -/
theorem readNodes_cut {init : List (Sigma fun _ : Nat => Leaf H)} {k : Nat} {v : Leaf H}
    (hlt : ∀ e ∈ init, e.1 < 2 ^ 64) (hk : k < 2 ^ 64) (hl : leafBuf.length = 33)
    (hb : buf.length = 8) {c : Nat} (h0 : 0 < c) (hc : c ≤ 32) :
    ∃ flag t', readNodes (init.length + 1) leafBuf buf
        ⟨m, nodeBytes init ++ (putLE 8 k ++ (leafBytes v).take c), t⟩ =
      .ok ⟨{ m with nodes := (putAll m.nodes init).insert k ⟨cutHash c (staleLeaf leafBuf init)
        v.hash, flag⟩ }, [], t'⟩ := by
  induction init generalizing m leafBuf buf t with
  | nil =>
    have hlen : ((leafBytes v).take c).length = c := by simp; omega
    have hfill := fill_short (show (leafBytes v).take c ≠ [] by intro h; simp [h] at hlen; omega)
      (show ((leafBytes v).take c).length ≤ leafBuf.length by omega)
    have htake : ((leafBytes v).take c ++ leafBuf.drop ((leafBytes v).take c).length).take 32 =
        (toBytes v.hash).take c ++ (leafBuf.take 32).drop c := by
      rw [hlen, List.take_append, hlen, List.take_take, min_eq_right hc, leafBytes,
        List.take_append_of_le_length (by simp; omega), List.drop_take]
    rw [List.length_nil, Nat.zero_add, readNodes]
    have hsplit : nodeBytes ([] : List (Sigma fun _ : Nat => Leaf H)) ++
        (putLE 8 k ++ (leafBytes v).take c) = putLE 8 k ++ (leafBytes v).take c := rfl
    rw [hsplit, Reading.read_append _ (by simp [hb]) (by omega), Exec.ok_bind]
    simp only [Reading.read, reader_fill, hfill, Exec.ok_bind, htake,
      getLE_putLE_of_lt (show k < 256 ^ 8 from hk)]
    exact ⟨_, _, rfl⟩
  | cons e init ih =>
    obtain ⟨k', v'⟩ := e
    have hk' : k' < 256 ^ 8 := hlt ⟨k', v'⟩ List.mem_cons_self
    have hsplit : nodeBytes (⟨k', v'⟩ :: init) ++ (putLE 8 k ++ (leafBytes v).take c) =
        putLE 8 k' ++ (leafBytes v' ++ (nodeBytes init ++
          (putLE 8 k ++ (leafBytes v).take c))) := by
      simp [nodeBytes]
    rw [hsplit, List.length_cons, readNodes, Reading.read_append _ (by simp [hb]) (by omega),
      Exec.ok_bind]
    simp only
    rw [Reading.read_append _ (by simp [hl]) (by omega), Exec.ok_bind]
    simp only [leaf_of_leafBytes, getLE_putLE_of_lt hk']
    obtain ⟨flag, t', h⟩ := ih (fun e he => hlt e (List.mem_cons_of_mem _ he)) (length_leafBytes v')
      (length_putLE 8 k') (m := { m with nodes := m.nodes.insert k' v' })
      (t := t + buf.length + leafBuf.length)
    refine ⟨flag, t', h.trans ?_⟩
    have hstale : staleLeaf (leafBytes v') init = staleLeaf leafBuf (⟨k', v'⟩ :: init) := by
      rw [staleLeaf, staleLeaf, List.getLast?_cons]
      cases init.getLast? <;> rfl
    rw [hstale]
    rfl

end Nodes

/-! ### Cuts of the file -/

section Cut
variable {m : MapPollard H} {cached : AList fun _ : H => Nat} {nodes : AList fun _ : Nat => Leaf H}
  {L : Nat}

omit [DecidableEq H] in
theorem length_write (m : MapPollard H) (cached : AList fun _ : H => Nat)
    (nodes : AList fun _ : Nat => Leaf H) :
    (m.write cached nodes).1.length = (m.write cached nodes).2 := by
  rw [write_eq]
  simp
  omega

/-- The file up to the count of the cached leaves, which it ends with. -/
def fileHead (m : MapPollard H) (cached : AList fun _ : H => Nat) : Bytes :=
  (m.headFields cached.entries.length).flatten

omit [DecidableEq H] [HashBytes H] in
@[simp] theorem length_fileHead (m : MapPollard H) (cached : AList fun _ : H => Nat) :
    (m.fileHead cached).length = 17 := by
  simp [fileHead, headFields]

omit [DecidableEq H] in
theorem write_file (m : MapPollard H) (cached : AList fun _ : H => Nat)
    (nodes : AList fun _ : Nat => Leaf H) :
    (m.write cached nodes).1 = m.fileHead cached ++ (cachedBytes cached.entries ++
      (putLE 8 nodes.entries.length ++ nodeBytes (sticky false nodes.entries))) := by
  rw [write_eq, fileHead, headFields]
  simp

omit [DecidableEq H] in
theorem writes_head_ne_nil (m : MapPollard H) (cached : AList fun _ : H => Nat) :
    ∀ x ∈ m.headFields cached.entries.length ++ writeCached cached.entries, x ≠ [] := by
  intro x hx
  refine m.writes_ne_nil cached ∅ x ?_
  rw [writes]
  exact List.mem_append_left _ (List.mem_append_left _ hx)

/-- Reading on after the cached leaves of a file. -/
theorem read_fileHead (order : MapOrder fun _ : H => Nat) (m0 : MapPollard H)
    (hs : m.Sized cached nodes) (rest : Bytes) :
    read order m0 (m.fileHead cached ++ (cachedBytes cached.entries ++ rest)) =
      (Reading.read ⟨⟨cached.toFinmap, m0.nodes, m.numLeaves, m.totalRows⟩, rest,
        17 + 40 * cached.entries.length⟩ (17 + 40 * cached.entries.length) (staleWord cached)) >>=
        fun e => readRest order e.1 e.2 := by
  have h := Reader.delivers_flatten (m.writes_head_ne_nil cached) rest
  rw [List.flatten_append, writeCached_flatten, List.append_assoc] at h
  exact read_head_delivers order m0 hs h

/-- Nothing is accepted before the count of the nodes is reached. -/
theorem lt_of_read_ok {order : MapOrder fun _ : H => Nat} {m0 : MapPollard H}
    (hs : m.Sized cached nodes) {r : MapPollard H × Nat}
    (h : read order m0 ((m.write cached nodes).1.take L) = .ok r) :
    17 + 40 * cached.entries.length < L := by
  have hfile := write_file m cached nodes
  set tail := cachedBytes cached.entries ++ (putLE 8 nodes.entries.length ++
    nodeBytes (sticky false nodes.entries))
  rw [read, Exec.bind_eq_ok] at h
  obtain ⟨⟨buf, s⟩, h1, h⟩ := h
  simp only [Exec.bind_eq_ok] at h
  obtain ⟨⟨buf2, s2⟩, h2, ⟨buf3, s3⟩, h3, -⟩ := h
  obtain ⟨hr1, hl1⟩ := readHeader_ok h1
  obtain ⟨hr2, hl2⟩ := readCached_ok (by simp) hl1 h2
  have hne := (Reading.read_ok h3).1
  have hlen : 0 < s2.rest.length := List.length_pos_iff.mpr hne
  simp only at hr1 hr2
  rw [hr2, hr1, List.drop_drop, List.length_drop] at hlen
  have hL : 17 < L := by
    have := List.length_take_le L (m.write cached nodes).1
    omega
  -- The header is complete, so the count is the one that was written.
  have hhead : (m.write cached nodes).1.take L = m.fileHead cached ++ tail.take (L - 17) := by
    rw [hfile, List.take_append, List.take_of_length_le (by simp; omega), length_fileHead]
  have hfields := Reader.delivers_flatten
    (fun x hx => m.writes_head_ne_nil cached x (List.mem_append_left _ hx)) (tail.take (L - 17))
  rw [hhead, fileHead, readHeader_delivers hs.totalRows hs.numLeaves hfields, Except.ok.injEq,
    Prod.mk.injEq] at h1
  rw [← h1.1, rounds_putLE hs.cachedLen] at hlen
  have := List.length_take_le L (m.write cached nodes).1
  omega

omit [DecidableEq H] in
theorem take_write (h : 17 + 40 * cached.entries.length ≤ L) :
    (m.write cached nodes).1.take L = m.fileHead cached ++ (cachedBytes cached.entries ++
      (putLE 8 nodes.entries.length ++ nodeBytes (sticky false nodes.entries)).take
        (L - 17 - 40 * cached.entries.length)) := by
  rw [write_file, List.take_append, List.take_of_length_le (by simp; omega), length_fileHead,
    List.take_append, List.take_of_length_le (by simp; omega), length_cachedBytes]

omit [HashBytes H] in
theorem finishRead_ok_iff (order : MapOrder fun _ : H => Nat) (s : Reading H Bytes) :
    (∃ r, finishRead order s = .ok r) ↔ ∀ h v, s.m.cachedLeaves.lookup h = some v →
      ∃ leaf, s.m.nodes.lookup v = some leaf ∧ leaf.hash = h := by
  have hcheck := sanityCheck_ok_iff s.m (order.list s.m.cachedLeaves).entries
  have hmem : (∀ e ∈ (order.list s.m.cachedLeaves).entries,
      ∃ leaf, s.m.nodes.lookup e.2 = some leaf ∧ leaf.hash = e.1) ↔
      ∀ h v, s.m.cachedLeaves.lookup h = some v →
        ∃ leaf, s.m.nodes.lookup v = some leaf ∧ leaf.hash = h := by
    constructor
    · intro hall h v hv
      exact hall ⟨h, v⟩ ((mem_order order _).mpr hv)
    · rintro hall ⟨h, v⟩ he
      exact hall h v ((mem_order order _).mp he)
  rw [← hmem, ← hcheck, finishRead]
  split
  · next err herr => simp [herr]
  · next hok => simp [hok]

/-- A cut in the count of the nodes shows unless nothing is cached and the bytes read of
the count are zero. -/
theorem read_cut_count (order : MapOrder fun _ : H => Nat) (m0 : MapPollard H)
    (hs : m.Sized cached nodes) (h0 : 17 + 40 * cached.entries.length < L)
    (h1 : L < 25 + 40 * cached.entries.length) :
    (∃ r, read order m0 ((m.write cached nodes).1.take L) = .ok r) ↔
      cached.entries = [] ∧ nodes.entries.length % 256 ^ (L - 17) = 0 := by
  obtain ⟨c, hc, hc0, hc8⟩ : ∃ c, L - 17 - 40 * cached.entries.length = c ∧ 0 < c ∧ c < 8 :=
    ⟨_, rfl, by omega, by omega⟩
  have hlen : (putLE c nodes.entries.length).length = c := length_putLE _ _
  have hfill := fill_short
    (show putLE c nodes.entries.length ≠ [] by intro h; rw [h] at hlen; simp at hlen; omega)
    (show (putLE c nodes.entries.length).length ≤ (staleWord cached).length by simp; omega)
  rw [take_write (by omega), hc, List.take_append_of_le_length (by simp; omega),
    take_putLE (by omega), read_fileHead order m0 hs]
  simp only [Reading.read, reader_fill, reader_left, hfill, Exec.ok_bind, readRest,
    Exec.bind_eq_ok]
  set buf := putLE c nodes.entries.length ++
    (staleWord cached).drop (putLE c nodes.entries.length).length
  have hbuf : buf.length = 8 := by simp [buf]; omega
  by_cases hnil : cached.entries = []
  · -- Nothing is cached: the buffer was zero.
    have hval : getLE buf = nodes.entries.length % 256 ^ c := by
      have hst : staleWord cached = List.replicate 8 0 := by
        rw [staleWord, hnil]
        exact putLE_zero 8
      rw [getLE_append, getLE_putLE, hst, List.drop_replicate, getLE_replicate_zero]
      simp
    have hrounds : rounds (getLE buf) = nodes.entries.length % 256 ^ (L - 17) := by
      have hc' : c = L - 17 := by
        rw [hnil] at hc
        exact hc.symm
      have hle := Nat.mod_le nodes.entries.length (256 ^ c)
      have hN := hs.nodesLen
      rw [hval, rounds, if_pos (by omega), hc']
    rw [hrounds]
    simp only [hnil, true_and]
    constructor
    · rintro ⟨r, s', hok, -⟩
      rcases readNodes_ok (by simp) hbuf hok with h | h
      · exact h
      · simp only [List.length_nil] at h
        omega
    · intro h
      rw [h]
      obtain ⟨r, hr⟩ := (finishRead_ok_iff order
          (⟨⟨cached.toFinmap, ∅, m.numLeaves, m.totalRows⟩, [],
        17 + 40 * cached.entries.length + ((putLE c nodes.entries.length).length - 0)⟩ :
          Reading H Bytes)).mpr (by
        intro h v hv
        rw [← mem_entries_iff, hnil] at hv
        cases hv)
      rw [hnil] at hr
      exact ⟨r, _, rfl, hr⟩
  · -- Something is cached, but no node is there.
    simp only [hnil, false_and, iff_false]
    rintro ⟨r, s', hok, hr⟩
    have hzero : rounds (getLE buf) = 0 := by
      rcases readNodes_ok (by simp) hbuf hok with h | h
      · exact h
      · simp only [List.length_nil] at h
        omega
    rw [hzero, readNodes, Except.ok.injEq] at hok
    subst hok
    obtain ⟨⟨h, v⟩, he⟩ := List.exists_mem_of_ne_nil _ hnil
    obtain ⟨leaf, hleaf, -⟩ := (finishRead_ok_iff order _).mp ⟨r, hr⟩ h v (mem_entries_iff.mp he)
    simp at hleaf

omit [DecidableEq H] [HashBytes H] in
theorem sticky_concat (flag : Bool) (init : List (Sigma fun _ : Nat => Leaf H)) (k : Nat)
    (v : Leaf H) : ∃ flag', sticky flag (init ++ [⟨k, v⟩]) =
      sticky flag init ++ [⟨k, ⟨v.hash, flag'⟩⟩] := by
  induction init generalizing flag with
  | nil => exact ⟨flag || v.remember, rfl⟩
  | cons e init ih =>
    obtain ⟨flag', h⟩ := ih (flag || e.2.remember)
    exact ⟨flag', by rw [List.cons_append, sticky, h, sticky, List.cons_append]⟩

omit [DecidableEq H] in
theorem take_staleLeaf_sticky (leafBuf : Bytes) (flag : Bool)
    (init : List (Sigma fun _ : Nat => Leaf H)) :
    (staleLeaf leafBuf (sticky flag init)).take 32 = (staleLeaf leafBuf init).take 32 := by
  rcases List.eq_nil_or_concat init with rfl | ⟨front, ⟨k, v⟩, rfl⟩
  · rfl
  · obtain ⟨flag', h⟩ := sticky_concat flag front k v
    simp only [List.concat_eq_append, h, staleLeaf, List.getLast?_append, List.getLast?_singleton,
      Option.some_or, Option.map_some, Option.getD_some, leafBytes]
    rw [List.take_left' (HashBytes.length_toBytes _), List.take_left' (HashBytes.length_toBytes _)]

/-- Reading a file that is complete up to the nodes. -/
theorem read_take_nodes (order : MapOrder fun _ : H => Nat) (m0 : MapPollard H)
    (hs : m.Sized cached nodes) (h : 25 + 40 * cached.entries.length ≤ L) :
    read order m0 ((m.write cached nodes).1.take L) =
      readNodes nodes.entries.length (List.replicate 33 0) (putLE 8 nodes.entries.length)
        ⟨⟨cached.toFinmap, ∅, m.numLeaves, m.totalRows⟩,
          (nodeBytes (sticky false nodes.entries)).take (L - 25 - 40 * cached.entries.length),
          25 + 40 * cached.entries.length⟩ >>= finishRead order := by
  have htail : (putLE 8 nodes.entries.length ++ nodeBytes (sticky false nodes.entries)).take
      (L - 17 - 40 * cached.entries.length) = putLE 8 nodes.entries.length ++
        (nodeBytes (sticky false nodes.entries)).take (L - 25 - 40 * cached.entries.length) := by
    rw [List.take_append, List.take_of_length_le (by simp; omega), length_putLE]
    congr 2
    omega
  rw [take_write (by omega), htail, read_fileHead order m0 hs,
    Reading.read_append _ (by simp) (by simp), Exec.ok_bind]
  simp only [readRest]
  rw [rounds_putLE hs.nodesLen, length_staleWord,
    show 17 + 40 * cached.entries.length + 8 = 25 + 40 * cached.entries.length by omega]

omit [HashBytes H] in
/-- The check after a cut in the last node: only the leaf cached there can fail it. -/
theorem finishRead_insert_iff (order : MapOrder fun _ : H => Nat) {numLeaves totalRows t : Nat}
    {init : List (Sigma fun _ : Nat => Leaf H)} {k : Nat} {v : Leaf H} {x : H} {flag : Bool}
    (hinit : nodes.entries = init ++ [⟨k, v⟩])
    (hcons : ∀ h p, cached.toFinmap.lookup h = some p →
      ∃ leaf, nodes.toFinmap.lookup p = some leaf ∧ leaf.hash = h) :
    (∃ r, finishRead order ⟨⟨cached.toFinmap, (putAll ∅ (sticky false init)).insert k ⟨x, flag⟩,
        numLeaves, totalRows⟩, ([] : Bytes), t⟩ = .ok r) ↔
      ((∃ h, cached.toFinmap.lookup h = some k) → x = v.hash) := by
  have hnd : (init ++ [(⟨k, v⟩ : Sigma fun _ : Nat => Leaf H)]).NodupKeys := hinit ▸ nodes.nodupKeys
  have hndInit : (sticky false init).NodupKeys := by
    rw [List.NodupKeys, keys_sticky]
    exact hnd.sublist (List.sublist_append_left _ _)
  have hlook : ∀ p, nodes.toFinmap.lookup p =
      (init ++ [(⟨k, v⟩ : Sigma fun _ => Leaf H)]).dlookup p :=
    fun p => by rw [← hinit]; rfl
  have hlast : nodes.toFinmap.lookup k = some v := by
    rw [← mem_entries_iff, hinit]
    simp
  rw [finishRead_ok_iff]
  constructor
  · rintro hall ⟨h, hh⟩
    obtain ⟨leaf, hleaf, rfl⟩ := hall h k hh
    obtain ⟨leaf', hleaf', hx⟩ := hcons _ k hh
    simp only [Finmap.lookup_insert, Option.some.injEq] at hleaf
    subst hleaf
    rw [hlast, Option.some.injEq] at hleaf'
    subst hleaf'
    exact hx.symm
  · intro hx h p hp
    obtain ⟨leaf, hleaf, rfl⟩ := hcons h p hp
    by_cases hpk : p = k
    · subst hpk
      rw [hlast, Option.some.injEq] at hleaf
      subst hleaf
      exact ⟨_, Finmap.lookup_insert _, hx ⟨_, hp⟩⟩
    · rw [hlook, List.dlookup_append, List.dlookup_cons_ne _ _ hpk, List.dlookup_nil,
        Option.or_none] at hleaf
      have hhash := lookup_sticky false init p
      rw [hleaf, Option.map_some, Option.map_eq_some_iff] at hhash
      simp only [Finmap.lookup_insert_of_ne _ hpk, lookup_putAll hndInit, Finmap.lookup_empty,
        Option.or_none]
      exact hhash

/-- A cut in the nodes is not noticed in the hash or the flag of the last node, unless a
cached leaf is stored there and its hash changes. -/
theorem read_cut_nodes (order : MapOrder fun _ : H => Nat) (m0 : MapPollard H)
    (hs : m.Sized cached nodes) {init : List (Sigma fun _ : Nat => Leaf H)} {k : Nat} {v : Leaf H}
    (hinit : nodes.entries = init ++ [⟨k, v⟩])
    (hcons : ∀ h p, cached.toFinmap.lookup h = some p →
      ∃ leaf, nodes.toFinmap.lookup p = some leaf ∧ leaf.hash = h)
    (h0 : 25 + 40 * cached.entries.length ≤ L) (h1 : L < (m.write cached nodes).2) :
    (∃ r, read order m0 ((m.write cached nodes).1.take L) = .ok r) ↔
      (m.write cached nodes).2 < L + 33 ∧ ((∃ h, cached.toFinmap.lookup h = some k) →
        cutHash (L + 33 - (m.write cached nodes).2) (staleLeaf (List.replicate 33 0) init) v.hash =
          v.hash) := by
  have htotal : (m.write cached nodes).2 =
      25 + 40 * cached.entries.length + 41 * (init.length + 1) := by
    rw [write_eq, hinit, List.length_append, List.length_singleton]
  rw [htotal] at h1 ⊢
  rw [read_take_nodes order m0 hs h0]
  simp only [Exec.bind_eq_ok]
  by_cases hlast : 25 + 40 * cached.entries.length + 41 * (init.length + 1) < L + 33
  · -- The cut is in the bytes of the last hash, or drops the flag only.
    obtain ⟨flag, hsticky⟩ := sticky_concat false init k v
    obtain ⟨c, hc⟩ : ∃ c, L + 33 - (25 + 40 * cached.entries.length + 41 * (init.length + 1)) = c :=
      ⟨_, rfl⟩
    have htake : (nodeBytes (sticky false nodes.entries)).take
        (L - 25 - 40 * cached.entries.length) =
        nodeBytes (sticky false init) ++ (putLE 8 k ++ (leafBytes ⟨v.hash, flag⟩).take c) := by
      have hsplit : nodeBytes (sticky false nodes.entries) = nodeBytes (sticky false init) ++
          (putLE 8 k ++ leafBytes ⟨v.hash, flag⟩) := by
        simp [hinit, hsticky, nodeBytes]
      rw [hsplit, List.take_append, List.take_of_length_le (by simp; omega), length_nodeBytes,
        length_sticky, List.take_append, List.take_of_length_le (by simp; omega), length_putLE]
      congr 3
      omega
    have hlt : ∀ e ∈ sticky false init, e.1 < 2 ^ 64 := by
      intro e he
      refine hs.sticky false e ?_
      rw [hinit, hsticky]
      exact List.mem_append_left _ he
    have hk : k < 2 ^ 64 := hs.nodePos ⟨k, v⟩ (by rw [hinit]; simp)
    obtain ⟨flag', t', hread⟩ := readNodes_cut (m := ⟨cached.toFinmap, ∅, m.numLeaves, m.totalRows⟩)
      (t := 25 + 40 * cached.entries.length) (v := ⟨v.hash, flag⟩) hlt hk
      (List.length_replicate (n := 33) (a := 0)) (length_putLE 8 (init.length + 1))
      (show 0 < c by omega) (by omega)
    have hcut : cutHash c (staleLeaf (List.replicate 33 0) (sticky false init)) v.hash =
        cutHash c (staleLeaf (List.replicate 33 0) init) v.hash := by
      rw [cutHash, take_staleLeaf_sticky, cutHash]
    rw [length_sticky] at hread
    rw [htake, show nodes.entries.length = init.length + 1 by simp [hinit], hread]
    simp only [Except.ok.injEq, exists_eq_left', hlast, true_and, hc, hcut]
    exact finishRead_insert_iff order hinit hcons
  · simp only [hlast, false_and, iff_false]
    rintro ⟨r, s, hread, -⟩
    rcases readNodes_ok (by simp) (by simp) hread with h | h
    · simp [hinit] at h
    · simp only [List.length_take, length_nodeBytes, length_sticky, hinit, List.length_append,
        List.length_singleton] at h
      omega

/-- The cuts after `L` bytes that `Read` does not notice: in the count of the nodes, if
nothing is cached and what is left of the count is zero, and in the hash or the flag of
the last node, if no cached leaf is stored there whose hash changes. -/
def CutUnseen (cached : AList fun _ : H => Nat) (nodes : AList fun _ : Nat => Leaf H)
    (L : Nat) : Prop :=
  (cached.entries = [] ∧ 17 < L ∧ L < 25 ∧ nodes.entries.length % 256 ^ (L - 17) = 0) ∨
    (25 + 40 * cached.entries.length + 41 * nodes.entries.length < L + 33 ∧
      ∀ e ∈ nodes.entries.getLast?, (∃ h, cached.toFinmap.lookup h = some e.1) →
        cutHash (L + 33 - (25 + 40 * cached.entries.length + 41 * nodes.entries.length))
          (staleLeaf (List.replicate 33 0) nodes.entries.dropLast) e.2.hash = e.2.hash)

theorem read_take_ok_iff (order : MapOrder fun _ : H => Nat) (m0 : MapPollard H)
    (hs : m.Sized cached nodes) (hne : nodes.entries ≠ [])
    (hcons : ∀ h p, cached.toFinmap.lookup h = some p →
      ∃ leaf, nodes.toFinmap.lookup p = some leaf ∧ leaf.hash = h)
    (hL : L < (m.write cached nodes).2) :
    (∃ r, read order m0 ((m.write cached nodes).1.take L) = .ok r) ↔ CutUnseen cached nodes L := by
  obtain ⟨init, ⟨k, v⟩, hinit⟩ := (List.eq_nil_or_concat nodes.entries).resolve_left hne
  rw [List.concat_eq_append] at hinit
  have hpos : 0 < nodes.entries.length := List.length_pos_iff.mpr hne
  have htotal : (m.write cached nodes).2 =
      25 + 40 * cached.entries.length + 41 * nodes.entries.length := by
    rw [write_eq]
  rw [CutUnseen]
  -- The three parts of the file: up to the cached leaves, the count, and the nodes.
  rcases Nat.lt_or_ge (17 + 40 * cached.entries.length) L with h17 | h17
  · rcases Nat.lt_or_ge L (25 + 40 * cached.entries.length) with h25 | h25
    · rw [read_cut_count order m0 hs h17 h25]
      constructor
      · rintro ⟨hnil, hmod⟩
        rw [hnil] at h17 h25
        exact Or.inl ⟨hnil, h17, h25, hmod⟩
      · rintro (⟨hnil, -, -, hmod⟩ | ⟨hlt, -⟩)
        · exact ⟨hnil, hmod⟩
        · omega
    · have hlast : nodes.entries.getLast? = some ⟨k, v⟩ := by rw [hinit]; simp
      have hfront : nodes.entries.dropLast = init := by rw [hinit]; simp
      rw [read_cut_nodes order m0 hs hinit hcons h25 hL, htotal, hlast, hfront]
      simp only [Option.mem_some_iff, forall_eq']
      constructor
      · exact Or.inr
      · rintro (⟨hnil, -, hlt, -⟩ | h)
        · rw [hnil, List.length_nil] at h25
          omega
        · exact h
  · constructor
    · rintro ⟨r, hr⟩
      exact absurd (lt_of_read_ok hs hr) (by omega)
    · rintro (⟨hnil, hlt, -, -⟩ | ⟨hlt, -⟩)
      · rw [hnil, List.length_nil] at h17
        omega
      · omega

/-- **A truncated file is rejected** exactly if the cut is one that shows. -/
theorem truncated_map_pollard_rejected_iff (order : MapOrder fun _ : H => Nat) (m0 : MapPollard H)
    (hs : m.Sized cached nodes) (hcached : cached.toFinmap = m.cachedLeaves)
    (hnodes : nodes.toFinmap = m.nodes) (hne : m.nodes ≠ ∅)
    (hcons : ∀ h p, m.cachedLeaves.lookup h = some p →
      ∃ leaf, m.nodes.lookup p = some leaf ∧ leaf.hash = h)
    (hL : L < (m.write cached nodes).1.length) :
    (∃ fail, read order m0 ((m.write cached nodes).1.take L) = .error fail) ↔
      ¬ CutUnseen cached nodes L := by
  have hentries : nodes.entries ≠ [] := by
    intro h
    refine hne ?_
    rw [← hnodes, ← putAll_entries, h]
    rfl
  rw [length_write] at hL
  rw [← read_take_ok_iff order m0 hs hentries (by rwa [hcached, hnodes]) hL]
  rcases read order m0 ((m.write cached nodes).1.take L) with fail | r
  · simp
  · simp

end Cut

end

section Fixed

/-- The file ends within the second of three nodes. -/
theorem truncated_two_leaves_rejected : ∃ (order : MapOrder fun _ : Hash32 => Nat)
    (fail : ReadFail Hash32), read order new ((twoLeaves.write (AList.singleton (.fill 1) 0)
      rememberedLast).1.take 120) = .error fail := by
  obtain ⟨order⟩ := (inferInstance : Nonempty (MapOrder fun _ : Hash32 => Nat))
  refine ⟨order, (truncated_map_pollard_rejected_iff order new rememberedLast_sized rfl
    toFinmap_rememberedLast ?_ (fun _ _ => twoLeaves_cached)
    (by rw [length_write, write_eq]; decide)).mpr ?_⟩
  · intro h
    have hlook : twoLeaves.nodes.lookup 0 = some ⟨.fill 1, true⟩ := rfl
    rw [h, Finmap.lookup_empty] at hlook
    cases hlook
  · rintro (⟨h, -⟩ | ⟨h, -⟩)
    · cases h
    · exact absurd h (by decide)

/-- One leaf that is not remembered. -/
def oneForgotten : MapPollard Hash32 := ⟨∅, Finmap.singleton 0 ⟨.fill 1, false⟩, 1, 0⟩

theorem truncated_forgotten_leaf_accepted :
    oneForgotten.Sized ∅ (AList.singleton 0 ⟨.fill 1, false⟩) ∧
    34 < (oneForgotten.write ∅ (AList.singleton 0 ⟨.fill 1, false⟩)).1.length ∧
    ∀ (order : MapOrder fun _ : Hash32 => Nat) (m0 : MapPollard Hash32),
      ∃ r, read order m0 ((oneForgotten.write ∅ (AList.singleton 0 ⟨.fill 1, false⟩)).1.take 34) =
        .ok r := by
  have hs : oneForgotten.Sized ∅ (AList.singleton 0 ⟨.fill 1, false⟩) := by
    constructor <;> decide
  refine ⟨hs, by decide, fun order m0 => (read_take_ok_iff order m0 hs (by decide) ?_ ?_).mpr ?_⟩
  · intro h p hp
    cases hp
  · decide
  · refine Or.inr ⟨by decide, ?_⟩
    rintro e - ⟨h, hh⟩
    cases hh

end Fixed

end MapPollard

end Utreexo
