import Utreexo.FileRoundTrip

/-! # Readers that return less than they are asked for

A reader may return fewer bytes than the buffer has room for.  `RestorePollardFrom` makes one
call for every field and does not look at the number of bytes, so that after a short read
every later field is taken from the wrong place.

A `Chunking` says how many bytes each call returns at most, and `Chunked` is the reader that
keeps to it.  A Pollard is restored exactly if the reader fills the buffer of every field
(`restore_chunked_of_represents`): a run with a short read that ends with the same nodes has
read too few bytes.
-/
namespace Wire

/-- How many bytes the calls of a reader return at most, by the number of the call. -/
structure Chunking where
  size : Nat → Nat
  pos : ∀ i, 0 < size i

namespace Chunking
variable (c : Chunking)

/-- Call number `i` of the reader: the bytes go to the front of the buffer. -/
def fill (i : Nat) (buf rest : Bytes) : Option (Bytes × Bytes) :=
  (Wire.fill (buf.take (c.size i)) rest).map fun r => (r.1 ++ buf.drop (c.size i), r.2)

variable {c} {i : Nat} {buf rest : Bytes}

/-- A call that is asked for no more than it can return. -/
theorem fill_of_le (h : buf.length ≤ c.size i) : c.fill i buf rest = Wire.fill buf rest := by
  rw [fill, List.take_of_length_le h, List.drop_eq_nil_of_le h]
  cases Wire.fill buf rest <;> simp

/-- What a call takes from the stream. -/
theorem fill_some {buf' rest' : Bytes} (h : c.fill i buf rest = some (buf', rest')) :
    rest ≠ [] ∧ rest' = rest.drop (min (c.size i) buf.length) ∧ buf'.length = buf.length := by
  obtain ⟨⟨b, r⟩, hfill, he⟩ := Option.map_eq_some_iff.mp h
  obtain ⟨hne, hr, hb⟩ := Wire.fill_some hfill
  cases he
  rw [List.length_take] at hr hb
  refine ⟨hne, hr, ?_⟩
  rw [List.length_append, hb, List.length_drop]
  omega

/-- The calls from number `i` on can fill buffers of these lengths. -/
def Meets (c : Chunking) (i : Nat) (fields : List Nat) : Prop :=
  ∀ j m, fields[j]? = some m → m ≤ c.size (i + j)

theorem meets_nil (c : Chunking) (i : Nat) : c.Meets i [] := fun j m h => by simp at h

theorem meets_cons {m : Nat} {fields : List Nat} :
    c.Meets i (m :: fields) ↔ m ≤ c.size i ∧ c.Meets (i + 1) fields := by
  constructor
  · intro h
    refine ⟨h 0 m rfl, fun j k hj => ?_⟩
    have := h (j + 1) k hj
    rwa [show i + 1 + j = i + (j + 1) by omega]
  · rintro ⟨h0, h⟩ j k hj
    cases j with
    | zero =>
      cases hj
      exact h0
    | succ j =>
      have := h j k hj
      rwa [show i + (j + 1) = i + 1 + j by omega]

theorem meets_append {fields fields' : List Nat} :
    c.Meets i (fields ++ fields') ↔ c.Meets i fields ∧ c.Meets (i + fields.length) fields' := by
  induction fields generalizing i with
  | nil => simp [meets_nil]
  | cons m fields ih =>
    rw [List.cons_append, meets_cons, meets_cons, ih, List.length_cons, and_assoc,
      show i + 1 + fields.length = i + (fields.length + 1) by omega]

/-- A reader that returns up to `k` bytes at every call. -/
def const (k : Nat) (hk : 0 < k) : Chunking := ⟨fun _ => k, fun _ => hk⟩

theorem const_meets {k : Nat} (hk : 0 < k) {fields : List Nat} (h : ∀ m ∈ fields, m ≤ k) :
    (const k hk).Meets i fields := fun _ m hj => h m (List.mem_of_getElem? hj)

end Chunking

/-- A file behind a reader that returns as many bytes as `c` says, with the number of calls. -/
structure Chunked (c : Chunking) where
  calls : Nat
  bytes : Bytes

namespace Chunked
variable {c : Chunking} {i : Nat}

instance : Reader (Chunked c) where
  fill buf s := (c.fill s.calls buf s.bytes).map fun r => (r.1, ⟨s.calls + 1, r.2⟩)
  left s := s.bytes.length

theorem reader_fill (buf : Bytes) (s : Chunked c) :
    Reader.fill buf s = (c.fill s.calls buf s.bytes).map fun r => (r.1, ⟨s.calls + 1, r.2⟩) := rfl

theorem gives_append {x : Bytes} (hx : x ≠ []) (hc : x.length ≤ c.size i) (rest : Bytes) :
    Reader.Gives (⟨i, x ++ rest⟩ : Chunked c) x ⟨i + 1, rest⟩ := by
  refine ⟨fun {buf} hbuf => ?_, ?_⟩
  · rw [reader_fill, Chunking.fill_of_le (hbuf ▸ hc),
      fill_append hbuf.symm (by rw [hbuf]; exact List.length_pos_iff.mpr hx)]
    rfl
  · show (x ++ rest).length = rest.length + x.length
    rw [List.length_append, Nat.add_comm]

/-- The fields are delivered if each fits into one call. -/
theorem delivers_flatten {xs : List Bytes} (h : ∀ x ∈ xs, x ≠ [])
    (hc : c.Meets i (xs.map List.length)) (rest : Bytes) :
    Reader.Delivers xs (⟨i, xs.flatten ++ rest⟩ : Chunked c) ⟨i + xs.length, rest⟩ := by
  induction xs generalizing i with
  | nil => rfl
  | cons x xs ih =>
    obtain ⟨hx, h⟩ := List.forall_mem_cons.mp h
    rw [List.map_cons, Chunking.meets_cons] at hc
    rw [List.flatten_cons, List.append_assoc, List.length_cons,
      show i + (xs.length + 1) = i + 1 + xs.length by omega]
    exact ⟨_, gives_append hx hc.1 _, ih h hc.2⟩

end Chunked

end Wire

namespace Utreexo
open Wire Merkle

section
variable {H M : Type} [DecidableEq H] [HashOps H] [HashBytes H] [DecidableEq M] [MiniHash H M]

/-! ### Reading whole fields -/

/-- The lengths of the fields of as many records. -/
def recordFields (count : Nat) : List Nat := (List.replicate count [32, 1, 1]).flatten

theorem recordFields_succ (count : Nat) :
    recordFields (count + 1) = 32 :: 1 :: 1 :: recordFields count := by
  rw [recordFields, List.replicate_succ, List.flatten_cons]
  rfl

theorem recordFields_add (a b : Nat) :
    recordFields (a + b) = recordFields a ++ recordFields b := by
  rw [recordFields, List.replicate_add, List.flatten_append]
  rfl

@[simp] theorem length_recordFields (count : Nat) : (recordFields count).length = 3 * count := by
  simp [recordFields, Nat.mul_comm]

theorem recordFields_le {count m : Nat} (h : m ∈ recordFields count) : m ≤ 32 := by
  obtain ⟨l, hl, hm⟩ := List.mem_flatten.mp h
  rw [(List.mem_replicate.mp hl).2] at hm
  have : m = 32 ∨ m = 1 ∨ m = 1 := by simpa using hm
  omega

/-- The lengths of the fields of the file. -/
def pollardFields (count : Nat) : List Nat := 8 :: 8 :: recordFields count

variable {c : Chunking} {i : Nat}

omit [DecidableEq H] [HashOps H] in
theorem Record.chunked {r : Record H} {file rest : Bytes} (h : file = r.bytes ++ rest)
    (hc : 32 ≤ c.size i) :
    Reader.Delivers r.fields (⟨i, file⟩ : Chunked c) ⟨i + 3, rest⟩ := by
  have hmeets : c.Meets i (r.fields.map List.length) := by
    have hlen : r.fields.map List.length = [32, 1, 1] := by simp [Record.fields]
    rw [hlen, Chunking.meets_cons, Chunking.meets_cons, Chunking.meets_cons]
    exact ⟨hc, c.pos _, c.pos _, Chunking.meets_nil c _⟩
  rw [h, ← r.flatten_fields]
  exact Chunked.delivers_flatten r.fields_ne_nil hmeets rest

/-- The same with a reader that has been called `i` times. -/
def Restoring.chunked (s : Restoring H M Bytes) (c : Chunking) (i : Nat) :
    Restoring H M (Chunked c) :=
  ⟨s.p, ⟨i, s.rest⟩, s.totalBytes⟩

/-- **A tree that is read as a whole** is read as from the file, and has as many new nodes as
records. -/
theorem readOne_chunked {t : NTree (H × Bool)} {fuel : Nat} {rest : Bytes} {n : Addr}
    {s s' : Restoring H M Bytes} (hs : s.rest = encode t.records ++ rest)
    (hc : c.Meets i (recordFields t.labels.length)) (h : readOne fuel n s = .ok (.ok s')) :
    readOne fuel n (s.chunked c i) = .ok (.ok (s'.chunked c (i + 3 * t.labels.length))) ∧
      s'.rest = rest ∧ s'.p.heap.next + 1 = s.p.heap.next + t.labels.length := by
  induction t generalizing s n fuel rest s' i with
  | tip a =>
    obtain ⟨fuel, rfl⟩ : ∃ f, fuel = f + 1 := by
      cases fuel with
      | zero => cases h
      | succ f => exact ⟨f, rfl⟩
    have hs : s.rest = (⟨a.1, a.2, false⟩ : Record H).bytes ++ rest := by
      simpa [NTree.records] using hs
    rw [readOne_delivers (Record.delivers hs)] at h
    cases h
    have hc := (Chunking.meets_cons.mp hc).1
    refine ⟨?_, rfl, rfl⟩
    rw [readOne_delivers (s := s.chunked c i) (Record.chunked hs hc)]
    rfl
  | node a l r ihl ihr =>
    obtain ⟨fuel, rfl⟩ : ∃ f, fuel = f + 1 := by
      cases fuel with
      | zero => cases h
      | succ f => exact ⟨f, rfl⟩
    have hlen : (NTree.node a l r).labels.length = l.labels.length + r.labels.length + 1 := by
      simp [NTree.labels]
    rw [hlen, recordFields_succ, Chunking.meets_cons, Chunking.meets_cons, Chunking.meets_cons,
      recordFields_add, Chunking.meets_append, length_recordFields] at hc
    obtain ⟨hc0, -, -, hcl, hcr⟩ := hc
    rw [NTree.records, encode_cons, encode_append, List.append_assoc, List.append_assoc] at hs
    rw [readOne_delivers (Record.delivers hs), if_pos rfl] at h
    rw [readOne_delivers (s := s.chunked c i) (Record.chunked hs hc0), if_pos rfl]
    obtain ⟨e, hl, h⟩ := Exec.bind_eq_ok.mp h
    cases e with
    | error e => cases h
    | ok s3 =>
      simp only at h
      obtain ⟨hrunl, hrest3, hnext3⟩ := ihl rfl hcl hl
      obtain ⟨hrunr, hrest', hnext'⟩ := ihr (s := (s3.newRight n).2) hrest3 hcr h
      have hnextl : s3.p.heap.next + 1 = s.p.heap.next + 1 + l.labels.length := hnext3
      have hnextr : s'.p.heap.next + 1 = s3.p.heap.next + 1 + r.labels.length := hnext'
      refine ⟨?_, hrest', by omega⟩
      refine (congrArg (· >>= _) hrunl).trans ?_
      rw [Exec.ok_bind, hlen,
        show i + 3 * (l.labels.length + r.labels.length + 1) =
          i + 1 + 1 + 1 + 3 * l.labels.length + 3 * r.labels.length by omega]
      exact hrunr

/-- The roots, one after the other. -/
theorem readRoots_chunked {ts : List (NTree (H × Bool))} {rest : Bytes}
    {s s' : Restoring H M Bytes} (hs : s.rest = encode (ts.flatMap NTree.records) ++ rest)
    (hc : c.Meets i (recordFields (ts.flatMap NTree.records).length))
    (h : readRoots ts.length s = .ok (.ok s')) :
    readRoots ts.length (s.chunked c i) =
        .ok (.ok (s'.chunked c (i + 3 * (ts.flatMap NTree.records).length))) ∧
      s'.p.heap.next = s.p.heap.next + (ts.flatMap NTree.records).length := by
  induction ts generalizing s s' i with
  | nil =>
    cases h
    exact ⟨rfl, rfl⟩
  | cons t ts ih =>
    have hlen : ((t :: ts).flatMap NTree.records).length =
        t.labels.length + (ts.flatMap NTree.records).length := by
      rw [List.flatMap_cons, List.length_append, NTree.length_records]
    rw [hlen, recordFields_add, Chunking.meets_append, length_recordFields] at hc
    rw [List.flatMap_cons, encode_append, List.append_assoc] at hs
    rw [List.length_cons, readRoots_succ] at h
    obtain ⟨e, hone, h⟩ := Exec.bind_eq_ok.mp h
    cases e with
    | error e => cases h
    | ok s1 =>
      simp only at h
      obtain ⟨hrun, hrest, hnext⟩ := readOne_chunked (s := s.newRoot) hs hc.1 hone
      obtain ⟨hruns, hnext'⟩ := ih hrest hc.2 h
      have hnext : s1.p.heap.next + 1 = s.p.heap.next + 1 + t.labels.length := hnext
      refine ⟨?_, ?_⟩
      · rw [List.length_cons, readRoots_succ]
        refine (congrArg (· >>= _) hrun).trans ?_
        rw [Exec.ok_bind, hlen, Nat.mul_add, ← Nat.add_assoc]
        exact hruns
      · rw [hnext', hlen]
        omega

/-! ### Counting the bytes -/

variable {s : Restoring H M (Chunked c)} {n : Addr}

omit [DecidableEq H] [HashOps H] [HashBytes H] [DecidableEq M] [MiniHash H M] in
/-- One call of the reader. -/
theorem Restoring.chunked_read {buf b : Bytes} {r : Restoring H M (Chunked c)}
    (h : s.read buf = some (b, r)) :
    r.p = s.p ∧ r.rest.calls = s.rest.calls + 1 ∧ r.totalBytes ≤ s.totalBytes + buf.length ∧
      (r.totalBytes = s.totalBytes + buf.length → buf.length ≤ c.size s.rest.calls) ∧
      b.length = buf.length := by
  rw [Restoring.read, Chunked.reader_fill] at h
  cases hfill : c.fill s.rest.calls buf s.rest.bytes with
  | none =>
    rw [hfill] at h
    cases h
  | some e =>
    obtain ⟨b', rest⟩ := e
    rw [hfill] at h
    cases h
    obtain ⟨-, hrest, hlen⟩ := Chunking.fill_some hfill
    have hdrop := congrArg List.length hrest
    rw [List.length_drop] at hdrop
    refine ⟨rfl, rfl, ?_, fun he => ?_, hlen⟩
    · show s.totalBytes + (s.rest.bytes.length - rest.length) ≤ _
      omega
    · have he : s.totalBytes + (s.rest.bytes.length - rest.length) =
        s.totalBytes + buf.length := he
      omega

/-- The reader has been called for `d` records.  If it has returned all the bytes of as many
records, it has filled every buffer. -/
structure Spent (s r : Restoring H M (Chunked c)) (d : Nat) : Prop where
  calls : r.rest.calls = s.rest.calls + 3 * d
  bytes_le : r.totalBytes ≤ s.totalBytes + 34 * d
  full : r.totalBytes = s.totalBytes + 34 * d → c.Meets s.rest.calls (recordFields d)

omit [DecidableEq H] [HashOps H] [HashBytes H] [DecidableEq M] [MiniHash H M] in
theorem Spent.refl (s : Restoring H M (Chunked c)) : Spent s s 0 :=
  ⟨rfl, Nat.le_refl _, fun _ => Chunking.meets_nil c _⟩

omit [DecidableEq H] [HashOps H] [HashBytes H] [DecidableEq M] [MiniHash H M] in
theorem Spent.trans {r u : Restoring H M (Chunked c)} {d e : Nat} (h : Spent s r d)
    (h' : Spent r u e) : Spent s u (d + e) := by
  have h1 := h.bytes_le
  have h2 := h'.bytes_le
  refine ⟨by rw [h'.calls, h.calls]; omega, by omega, fun he => ?_⟩
  rw [recordFields_add, Chunking.meets_append, length_recordFields, ← h.calls]
  exact ⟨h.full (by omega), h'.full (by omega)⟩

/-- The three calls for a record. -/
theorem Spent.record {s1 s2 s3 : Restoring H M (Chunked c)} {data buf buf' : Bytes}
    (h1 : s.read (toBytes (s.p.heap.get n).data) = some (data, s1))
    (h2 : (s1.setData n (ofBytes data)).read [0] = some (buf, s2))
    (h3 : (s2.setLeaf n buf).read buf = some (buf', s3)) :
    Spent s s3 1 ∧ s3.p.heap.next = s.p.heap.next := by
  obtain ⟨hp1, hcalls1, hle1, hfull1, -⟩ := Restoring.chunked_read h1
  obtain ⟨hp2, hcalls2, hle2, -, hlen2⟩ := Restoring.chunked_read h2
  obtain ⟨hp3, hcalls3, hle3, -, -⟩ := Restoring.chunked_read h3
  rw [HashBytes.length_toBytes] at hle1 hfull1
  have hbytes2 : (s2.setLeaf n buf).totalBytes = s2.totalBytes := by
    rw [Restoring.setLeaf]
    split <;> rfl
  have hnext2 : (s2.setLeaf n buf).p.heap.next = s2.p.heap.next := by
    rw [Restoring.setLeaf]
    split <;> rfl
  have hbytes1 : (s1.setData n (ofBytes data)).totalBytes = s1.totalBytes := rfl
  have hcalls1' : (s1.setData n (ofBytes data)).rest = s1.rest := rfl
  have hcalls2' : (s2.setLeaf n buf).rest = s2.rest := by
    rw [Restoring.setLeaf]
    split <;> rfl
  rw [hcalls1'] at hcalls2
  rw [hcalls2'] at hcalls3
  rw [List.length_singleton] at hlen2 hle2
  refine ⟨⟨by omega, by omega, fun he => ?_⟩, ?_⟩
  · rw [recordFields_succ, Chunking.meets_cons, Chunking.meets_cons, Chunking.meets_cons]
    exact ⟨hfull1 (by omega), c.pos _, c.pos _, Chunking.meets_nil c _⟩
  · rw [hp3, hnext2, hp2]
    show s1.p.heap.next = _
    rw [hp1]

/-- A node of the heap has been read, and the nodes made for its nieces. -/
theorem readOne_spent {fuel : Nat} {r : Restoring H M (Chunked c)}
    (h : readOne fuel n s = .ok (.ok r)) :
    ∃ d, Spent s r d ∧ d + s.p.heap.next ≤ r.p.heap.next + 1 := by
  induction fuel generalizing n s r with
  | zero => cases h
  | succ fuel ih =>
    rw [readOne] at h
    cases h1 : s.read (toBytes (s.p.heap.get n).data) with
    | none =>
      rw [h1] at h
      cases h
      exact ⟨0, .refl s, by omega⟩
    | some e1 =>
      obtain ⟨data, s1⟩ := e1
      rw [h1] at h
      simp only at h
      cases h2 : (s1.setData n (ofBytes data)).read [0] with
      | none =>
        rw [h2] at h
        cases h
      | some e2 =>
        obtain ⟨buf, s2⟩ := e2
        rw [h2] at h
        simp only at h
        cases h3 : (s2.setLeaf n buf).read buf with
        | none =>
          rw [h3] at h
          cases h
        | some e3 =>
          obtain ⟨buf', s3⟩ := e3
          rw [h3] at h
          simp only at h
          obtain ⟨hrecord, hnext⟩ := Spent.record h1 h2 h3
          split at h
          · obtain ⟨e, hl, h⟩ := Exec.bind_eq_ok.mp h
            cases e with
            | error e => cases h
            | ok s4 =>
              obtain ⟨d, hd, hnextl⟩ := ih hl
              obtain ⟨e, he, hnextr⟩ := ih h
              have hd : Spent s3 s4 d := ⟨hd.calls, hd.bytes_le, hd.full⟩
              have he : Spent s4 r e := ⟨he.calls, he.bytes_le, he.full⟩
              have hnextl : d + (s3.p.heap.next + 1) ≤ s4.p.heap.next + 1 := hnextl
              have hnextr : e + (s4.p.heap.next + 1) ≤ r.p.heap.next + 1 := hnextr
              exact ⟨1 + d + e, (hrecord.trans hd).trans he, by omega⟩
          · cases h
            exact ⟨1, hrecord, by omega⟩

theorem readRoots_spent {s : Restoring H M (Chunked c)} {i : Nat} {r : Restoring H M (Chunked c)}
    (h : readRoots i s = .ok (.ok r)) :
    ∃ d, Spent s r d ∧ d + s.p.heap.next ≤ r.p.heap.next := by
  induction i generalizing s with
  | zero =>
    cases h
    exact ⟨0, .refl r, by omega⟩
  | succ i ih =>
    rw [readRoots] at h
    obtain ⟨e, hone, h⟩ := Exec.bind_eq_ok.mp h
    cases e with
    | error e => cases h
    | ok s1 =>
      obtain ⟨d, hd, hnext⟩ := readOne_spent hone
      obtain ⟨e, he, hnext'⟩ := ih h
      have hd : Spent s s1 d := ⟨hd.calls, hd.bytes_le, hd.full⟩
      have hnext : d + (s.p.heap.next + 1) ≤ s1.p.heap.next + 1 := hnext
      exact ⟨d + e, hd.trans he, by omega⟩

/-! ### When a Pollard is restored -/

omit [DecidableEq H] [HashOps H] [HashBytes H] [DecidableEq M] [MiniHash H M] in
/-- The check of the leaves changes nothing. -/
theorem checkLeaves_ok {σ : Type} {s r : Restoring H M σ} (h : checkLeaves s = .ok r) : r = s := by
  rw [checkLeaves] at h
  split at h
  · cases h
    rfl
  · cases h

/-- What has been read when a Pollard has been restored. -/
theorem restore_spent {bytes : Bytes} {r : Restoring H M (Chunked c)}
    (h : restorePollardFrom (⟨0, bytes⟩ : Chunked c) = .ok (.ok r)) :
    ∃ d, d ≤ r.p.heap.next ∧ r.totalBytes ≤ 16 + 34 * d ∧
      (r.totalBytes = 16 + 34 * d → c.Meets 0 (pollardFields d)) := by
  rw [restorePollardFrom] at h
  cases h1 : Restoring.read (⟨newAccumulator true, ⟨0, bytes⟩, 0⟩ : Restoring H M (Chunked c))
      (List.replicate 8 0) with
  | none =>
    rw [h1] at h
    cases h
  | some e1 =>
    obtain ⟨buf, s1⟩ := e1
    rw [h1] at h
    simp only at h
    cases h2 : Restoring.read { s1 with p := { s1.p with numLeaves := getLE buf } } buf with
    | none =>
      rw [h2] at h
      cases h
    | some e2 =>
      obtain ⟨buf', s2⟩ := e2
      rw [h2] at h
      simp only [restoreRoots] at h
      obtain ⟨e, hroots, h⟩ := Exec.bind_eq_ok.mp h
      cases e with
      | error e => cases h
      | ok s3 =>
        obtain rfl := checkLeaves_ok (Except.ok.inj h)
        obtain ⟨d, hd, hnext⟩ := readRoots_spent hroots
        obtain ⟨-, hcalls1, hle1, hfull1, hlen1⟩ := Restoring.chunked_read h1
        obtain ⟨-, hcalls2, hle2, hfull2, -⟩ := Restoring.chunked_read h2
        rw [List.length_replicate] at hle1 hfull1 hlen1
        rw [hlen1] at hle2 hfull2
        have hbytes := hd.bytes_le
        simp only at hcalls1 hle1 hfull1 hcalls2 hle2 hfull2 hbytes hnext
        refine ⟨d, by omega, by omega, fun he => ?_⟩
        rw [pollardFields, Chunking.meets_cons, Chunking.meets_cons]
        refine ⟨hfull1 ?_, ?_, ?_⟩
        · omega
        · rw [← hcalls1]
          exact hfull2 (by omega)
        · have hmeets := hd.full (by simp only; omega)
          simp only at hmeets
          rwa [hcalls2, hcalls1] at hmeets

variable {p : Pollard H M} {slots : List (Option H)}

omit [DecidableEq H] [HashOps H] [HashBytes H] [DecidableEq M] [MiniHash H M] in
theorem checkLeaves_chunked {s : Restoring H M Bytes} (h : checkLeaves s = .ok s) :
    checkLeaves (s.chunked c i) = .ok (s.chunked c i) := by
  rw [checkLeaves] at h
  split at h
  · next hcheck => exact if_pos hcheck
  · cases h

/-- The whole file is restored, with one node for every record. -/
theorem Pollard.Represents.restore (hp : p.Represents slots) (hlt : slots.length < 2 ^ 63) :
    ∃ s : Restoring H M Bytes, restorePollardFrom (fileOf slots p.numDels) = .ok (.ok s) ∧
      readRoots ((forestTrees slots).map fileTree).length
        (.start slots.length p.numDels (encode (rootRecords (forestTrees slots))) 16) =
          .ok (.ok s) ∧ checkLeaves s = .ok s ∧
      s.totalBytes = 16 + 34 * (rootRecords (forestTrees slots)).length ∧
      s.p.heap.next = (rootRecords (forestTrees slots)).length := by
  have hd := hp.numDels
  obtain ⟨s, ts, hrun, hread, hrest, htotal⟩ := restore_cut (M := M) hp.fine
    (show p.numDels < 2 ^ 64 by omega) (rootRecords (forestTrees slots)).length
  have hdrop : (fileNodes (forestTrees slots)).drop (rootRecords (forestTrees slots)).length =
      [] := by
    rw [List.drop_eq_nil_iff, length_fileNodes]
  have hcheck := (hread.checkLeaves_eq hp.fine hlt hd).1 (by rw [hdrop]; rfl)
  rw [List.take_length] at hrun htotal
  have hroots : restoreRoots (.start slots.length p.numDels
      (encode (rootRecords (forestTrees slots))) 16) = .ok (.ok s) := by
    rw [← restore_start (by omega) (by omega), ← List.append_assoc]
    exact hrun.trans (congrArg _ hcheck)
  rw [restoreRoots] at hroots
  obtain ⟨e, hloop, hroots⟩ := Exec.bind_eq_ok.mp hroots
  cases e with
  | error e => cases hroots
  | ok s' =>
    have hs : s = s' := checkLeaves_ok (Except.ok.inj hroots)
    subst hs
    have hnum : (Restoring.start slots.length p.numDels
        (encode (rootRecords (forestTrees slots))) 16 : Restoring H M Bytes).p.numLeaves =
          slots.length := rfl
    rw [hnum, numRoots_eq] at hloop
    refine ⟨s, hrun.trans (congrArg _ hcheck), hloop, hcheck, htotal, ?_⟩
    -- A reader that fills every buffer makes the nodes one by one.
    have hwhole : (Chunking.const 32 (by omega)).Meets 2
        (recordFields (rootRecords (forestTrees slots)).length) :=
      Chunking.const_meets _ fun m => recordFields_le
    have hnext := (readRoots_chunked (s := .start slots.length p.numDels
      (encode (rootRecords (forestTrees slots))) 16) (List.append_nil _).symm hwhole hloop).2
    rw [hnext]
    exact Nat.zero_add _

/-- **A Pollard is restored from a reader exactly if the reader fills every buffer.** -/
theorem restore_chunked_of_represents (hp : p.Represents slots) (hlt : slots.length < 2 ^ 63)
    (c : Chunking) :
    ∃ s : Restoring H M Bytes, restorePollardFrom (fileOf slots p.numDels) = .ok (.ok s) ∧
      ((∃ r : Restoring H M (Chunked c),
          restorePollardFrom (⟨0, fileOf slots p.numDels⟩ : Chunked c) = .ok (.ok r) ∧
          r.p = s.p ∧ r.totalBytes = s.totalBytes) ↔
        c.Meets 0 (pollardFields (rootRecords (forestTrees slots)).length)) := by
  have hd := hp.numDels
  obtain ⟨s, hrun, hloop, hcheck, htotal, hnext⟩ := hp.restore hlt
  refine ⟨s, hrun, ?_, fun hmeets => ?_⟩
  · rintro ⟨r, hby, hr, hbytes⟩
    obtain ⟨d, hd, hle, hfull⟩ := restore_spent hby
    rw [hr, hnext] at hd
    have hdeq : d = (rootRecords (forestTrees slots)).length := by omega
    rw [hdeq] at hfull
    exact hfull (hbytes.trans htotal)
  · rw [pollardFields, Chunking.meets_cons, Chunking.meets_cons] at hmeets
    obtain ⟨h0, h1, hrecords⟩ := hmeets
    have hcounts : Reader.Delivers [putLE 8 slots.length, putLE 8 p.numDels]
        (⟨0, fileOf slots p.numDels⟩ : Chunked c)
        ⟨2, encode (rootRecords (forestTrees slots))⟩ := by
      have hmeets : c.Meets 0 ([putLE 8 slots.length, putLE 8 p.numDels].map List.length) := by
        simp only [List.map_cons, List.map_nil, length_putLE, Chunking.meets_cons]
        exact ⟨h0, h1, Chunking.meets_nil c _⟩
      simpa [fileOf, fileHeader] using Chunked.delivers_flatten counts_ne_nil hmeets
        (encode (rootRecords (forestTrees slots)))
    have hroots := (readRoots_chunked (s := .start slots.length p.numDels
      (encode (rootRecords (forestTrees slots))) 16) (List.append_nil _).symm hrecords hloop).1
    have hby : restorePollardFrom (⟨0, fileOf slots p.numDels⟩ : Chunked c) =
        .ok (.ok (s.chunked c (2 + 3 * (rootRecords (forestTrees slots)).length))) := by
      have hnum : (Restoring.start slots.length p.numDels
          (⟨2, encode (rootRecords (forestTrees slots))⟩ : Chunked c) 16 :
            Restoring H M (Chunked c)).p.numLeaves = slots.length := rfl
      rw [restore_delivers (by omega) (by omega) hcounts, restoreRoots, hnum, numRoots_eq]
      refine (congrArg (· >>= _) hroots).trans ?_
      rw [Exec.ok_bind]
      exact congrArg Except.ok (checkLeaves_chunked hcheck)
    exact ⟨_, hby, rfl, rfl⟩

end

end Utreexo
