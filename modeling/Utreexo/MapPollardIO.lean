import Mathlib.Data.Finmap
import Utreexo.HashBytes
import Utreexo.MapPollard

/-! # Writing and reading a MapPollard

`MapPollard.Write` and `MapPollard.Read`.  A map is written in an order of its entries
that the language does not fix: `AList` values stand for the orders.  Both functions
keep one buffer for all nodes, so that what an earlier record left there can show in a
later one.
-/
namespace Utreexo
open Wire

/-- An order in which the entries of a map are visited. -/
structure MapOrder {α : Type} (β : α → Type) where
  list : Finmap β → AList β
  eq : ∀ m, (list m).toFinmap = m

instance {α : Type} {β : α → Type} : Nonempty (MapOrder β) := by
  have h (m : Finmap β) : ∃ l : AList β, l.toFinmap = m :=
    Finmap.induction_on m fun l => ⟨l, rfl⟩
  choose list eq using h
  exact ⟨list, eq⟩

/-- The errors of `Read`, with the values that their messages name. -/
inductive ReadErr (H : Type)
  | eof
  /-- "Corrupted pollard. Missing cached leaf at %d". -/
  | missing (pos : Nat)
  /-- "Corrupted pollard. Pos %d cached hash: %s, but have %s". -/
  | corrupted (pos : Nat) (cached node : H)
  deriving DecidableEq, Repr

namespace MapPollard

section
variable {H : Type} [DecidableEq H] [HashBytes H]

/-! ### Writing -/

/-- The writes of the cached leaves. -/
def writeCached (entries : List (Sigma fun _ : H => Nat)) : List Bytes :=
  entries.flatMap fun e => [toBytes e.1, putLE 8 e.2]

/-- The writes of the nodes.  `leafBuf` is kept from one node to the next, and its last
byte is only ever set. -/
def writeNodes (leafBuf : Bytes) : List (Sigma fun _ : Nat => Leaf H) → List Bytes
  | [] => []
  | ⟨k, v⟩ :: entries =>
    let leafBuf := toBytes v.hash ++ leafBuf.drop 32
    let leafBuf := if v.remember then leafBuf.set 32 1 else leafBuf
    putLE 8 k :: leafBuf :: writeNodes leafBuf entries

/-- The writes of `Write`, one after the other. -/
def writes (m : MapPollard H) (cached : AList fun _ : H => Nat)
    (nodes : AList fun _ : Nat => Leaf H) : List Bytes :=
  [[UInt8.ofNat m.totalRows], putLE 8 m.numLeaves, putLE 8 cached.entries.length] ++
    writeCached cached.entries ++ [putLE 8 nodes.entries.length] ++
    writeNodes (List.replicate 33 0) nodes.entries

/-- Writes the pollard to a writer that takes every byte.  Returns what the writer got
and the number of bytes. -/
def write (m : MapPollard H) (cached : AList fun _ : H => Nat)
    (nodes : AList fun _ : Nat => Leaf H) : Bytes × Nat :=
  ((m.writes cached nodes).flatten, ((m.writes cached nodes).map List.length).sum)

/-! ### Reading -/

/-- What `Read` has at hand: the pollard so far, the reader and the number of bytes read. -/
structure Reading (H σ : Type) where
  m : MapPollard H
  rest : σ
  totalBytes : Nat

/-- What `Read` returns besides the pollard. -/
structure ReadFail (H : Type) where
  m : MapPollard H
  bytes : Nat
  err : ReadErr H

/-- The check of the cached leaves. -/
def sanityCheck (m : MapPollard H) : List (Sigma fun _ : H => Nat) → Except (ReadErr H) Unit
  | [] => .ok ()
  | ⟨k, v⟩ :: entries =>
    match m.nodes.lookup v with
    | none => .error (.missing v)
    | some leaf =>
      if k ≠ leaf.hash then .error (.corrupted v k leaf.hash) else sanityCheck m entries

/-- How often `for i := 0; i < int(count); i++` runs: a count of `2 ^ 63` or more is
negative as an `int`. -/
def rounds (count : Nat) : Nat := if count < 2 ^ 63 then count else 0

section Readers
variable {σ : Type} [Reader σ]

/-- One call of the reader.  At the end of the input `Read` returns `failBytes`. -/
def Reading.read (s : Reading H σ) (failBytes : Nat) (buf : Bytes) :
    Except (ReadFail H) (Bytes × Reading H σ) :=
  match Reader.fill buf s.rest with
  | none => .error ⟨s.m, failBytes, .eof⟩
  | some (buf', rest) =>
    .ok (buf', { s with
      rest := rest
      totalBytes := s.totalBytes + (Reader.left s.rest - Reader.left rest) })

/-- The loop over the cached leaves. -/
def readCached : Nat → Bytes → Bytes → Reading H σ → Except (ReadFail H) (Bytes × Reading H σ)
  | 0, _, buf, s => .ok (buf, s)
  | i + 1, hash, buf, s => do
    let (hash, s) ← s.read s.totalBytes hash
    let (buf, s) ← s.read s.totalBytes buf
    readCached i hash buf { s with m := { s.m with
      cachedLeaves := s.m.cachedLeaves.insert (ofBytes hash) (getLE buf) } }

/-- The loop over the nodes. -/
def readNodes : Nat → Bytes → Bytes → Reading H σ → Except (ReadFail H) (Reading H σ)
  | 0, _, _, s => .ok s
  | i + 1, leafBuf, buf, s => do
    let (buf, s) ← s.read 0 buf
    let (leafBuf, s) ← s.read s.totalBytes leafBuf
    readNodes i leafBuf buf { s with m := { s.m with
      nodes := s.m.nodes.insert (getLE buf) ⟨ofBytes (leafBuf.take 32), leafBuf.getD 32 0 = 1⟩ } }

/-- The first part of `Read`: the rows, the leaves and the count of cached leaves.  The
buffer holds the count when it returns. -/
def readHeader (s : Reading H σ) : Except (ReadFail H) (Bytes × Reading H σ) := do
  let (rows, s) ← s.read s.totalBytes [0]
  let s := { s with m := { s.m with totalRows := getLE rows } }
  let (buf, s) ← s.read s.totalBytes (rows ++ List.replicate 7 0)
  let s := { s with m := { s.m with numLeaves := getLE buf } }
  s.read s.totalBytes buf

/-- The end of `Read`: the check, and what is returned. -/
def finishRead (order : MapOrder fun _ : H => Nat) (s : Reading H σ) :
    Except (ReadFail H) (MapPollard H × Nat) :=
  match sanityCheck s.m (order.list s.m.cachedLeaves).entries with
  | .error err => .error ⟨s.m, s.totalBytes, err⟩
  | .ok () => .ok (s.m, s.totalBytes)

/-- The last part of `Read`, once the count of nodes is in the buffer. -/
def readRest (order : MapOrder fun _ : H => Nat) (buf : Bytes) (s : Reading H σ) :
    Except (ReadFail H) (MapPollard H × Nat) := do
  let s := { s with m := { s.m with nodes := ∅ } }
  let s ← readNodes (rounds (getLE buf)) (List.replicate 33 0) buf s
  finishRead order s

/-- Reads the pollard.  Returns it with the number of bytes read. -/
def read (order : MapOrder fun _ : H => Nat) (m : MapPollard H) (r : σ) :
    Except (ReadFail H) (MapPollard H × Nat) := do
  let (buf, s) ← readHeader ⟨m, r, 0⟩
  let s := { s with m := { s.m with cachedLeaves := ∅ } }
  let (buf, s) ← readCached (rounds (getLE buf)) (List.replicate 32 0) buf s
  let (buf, s) ← s.read s.totalBytes buf
  readRest order buf s

end Readers

/-! ### Maps and lists of entries -/

section Maps
variable {α : Type} {β : α → Type} [DecidableEq α]

/-- The entries put into a map one after the other. -/
def putAll (m : Finmap β) (entries : List (Sigma β)) : Finmap β :=
  entries.foldl (fun m e => m.insert e.1 e.2) m

theorem lookup_putAll {entries : List (Sigma β)} (hnd : entries.NodupKeys) (m : Finmap β) (k : α) :
    (putAll m entries).lookup k = (entries.dlookup k).or (m.lookup k) := by
  induction entries generalizing m with
  | nil => rfl
  | cons e entries ih =>
    obtain ⟨a, b⟩ := e
    obtain ⟨hnot, hnd⟩ := List.nodupKeys_cons.mp hnd
    rw [putAll, List.foldl_cons]
    refine (ih hnd _).trans ?_
    by_cases hk : k = a
    · subst hk
      rw [List.dlookup_eq_none.mpr hnot, List.dlookup_cons_eq, Finmap.lookup_insert]
      rfl
    · rw [List.dlookup_cons_ne _ _ hk, Finmap.lookup_insert_of_ne _ hk]

/-- Putting the entries of a map into an empty one gives the map. -/
theorem putAll_entries (l : AList β) : putAll ∅ l.entries = l.toFinmap := by
  refine Finmap.ext_lookup fun k => ?_
  rw [lookup_putAll l.nodupKeys, Finmap.lookup_empty, Option.or_none]
  rfl

/-- Lists with the same keys in the same order, and the same values. -/
theorem entries_ext {l l' : List (Sigma β)} (hkeys : l.keys = l'.keys) (hnd : l.NodupKeys)
    (h : ∀ k, l.dlookup k = l'.dlookup k) : l = l' := by
  induction l generalizing l' with
  | nil =>
    cases l' with
    | nil => rfl
    | cons e l' => simp at hkeys
  | cons e l ih =>
    cases l' with
    | nil => simp at hkeys
    | cons e' l' =>
      obtain ⟨a, b⟩ := e
      obtain ⟨a', b'⟩ := e'
      rw [List.keys_cons, List.keys_cons] at hkeys
      obtain ⟨ha, htail⟩ := List.cons.inj hkeys
      obtain rfl : a = a' := ha
      obtain ⟨hnot, hnd⟩ := List.nodupKeys_cons.mp hnd
      have hb := h a
      rw [List.dlookup_cons_eq, List.dlookup_cons_eq] at hb
      obtain rfl := Option.some.inj hb
      congr 1
      refine ih htail hnd fun k => ?_
      by_cases hk : k = a
      · subst hk
        rw [List.dlookup_eq_none.mpr hnot, List.dlookup_eq_none.mpr (htail ▸ hnot)]
      · have := h k
        rwa [List.dlookup_cons_ne _ _ hk, List.dlookup_cons_ne _ _ hk] at this

theorem mem_entries_iff {l : AList β} {k : α} {v : β k} :
    ⟨k, v⟩ ∈ l.entries ↔ l.toFinmap.lookup k = some v := by
  rw [Finmap.lookup_toFinmap, ← AList.mem_lookup_iff]
  rfl

theorem mem_order (order : MapOrder β) (m : Finmap β) {k : α} {v : β k} :
    ⟨k, v⟩ ∈ (order.list m).entries ↔ m.lookup k = some v := by
  rw [mem_entries_iff, order.eq]

end Maps

/-! ### The flags as they are written -/

/-- The entries with the flags that `Write` gives them: once a node is remembered, so
are all that follow. -/
def sticky (flag : Bool) : List (Sigma fun _ : Nat => Leaf H) → List (Sigma fun _ : Nat => Leaf H)
  | [] => []
  | ⟨k, v⟩ :: entries =>
    ⟨k, ⟨v.hash, flag || v.remember⟩⟩ :: sticky (flag || v.remember) entries

/-- In this order no unremembered node follows a remembered one. -/
def FlagsSorted (entries : List (Sigma fun _ : Nat => Leaf H)) : Prop :=
  entries.Pairwise fun a b => a.2.remember = true → b.2.remember = true

instance (entries : List (Sigma fun _ : Nat => Leaf H)) : Decidable (FlagsSorted entries) :=
  inferInstanceAs (Decidable (List.Pairwise _ entries))

omit [DecidableEq H] [HashBytes H] in
@[simp] theorem keys_sticky (flag : Bool) (entries : List (Sigma fun _ : Nat => Leaf H)) :
    (sticky flag entries).keys = entries.keys := by
  induction entries generalizing flag with
  | nil => rfl
  | cons e entries ih => simp [sticky, List.keys_cons, ih]

omit [DecidableEq H] [HashBytes H] in
@[simp] theorem length_sticky (flag : Bool) (entries : List (Sigma fun _ : Nat => Leaf H)) :
    (sticky flag entries).length = entries.length := by
  induction entries generalizing flag with
  | nil => rfl
  | cons e entries ih => simp [sticky, ih]

omit [DecidableEq H] [HashBytes H] in
theorem sticky_eq_self_iff (flag : Bool) (entries : List (Sigma fun _ : Nat => Leaf H)) :
    sticky flag entries = entries ↔
      (flag = true → ∀ e ∈ entries, e.2.remember = true) ∧ FlagsSorted entries := by
  induction entries generalizing flag with
  | nil => simp [sticky, FlagsSorted]
  | cons e entries ih =>
    obtain ⟨k, h, r⟩ := e
    unfold FlagsSorted at ih ⊢
    simp only [sticky, List.cons.injEq, ih, List.pairwise_cons, List.mem_cons, forall_eq_or_imp,
      Sigma.mk.injEq, heq_eq_eq, true_and, Leaf.mk.injEq, Bool.or_eq_right_iff_imp,
      Bool.or_eq_true]
    grind

/-! ### Records -/

/-- The bytes of a node, and those of its flag. -/
def leafBytes (v : Leaf H) : Bytes := toBytes v.hash ++ [if v.remember then 1 else 0]

def nodeBytes (entries : List (Sigma fun _ : Nat => Leaf H)) : Bytes :=
  entries.flatMap fun e => putLE 8 e.1 ++ leafBytes e.2

def cachedBytes (entries : List (Sigma fun _ : H => Nat)) : Bytes :=
  entries.flatMap fun e => toBytes e.1 ++ putLE 8 e.2

omit [DecidableEq H] in
@[simp] theorem length_leafBytes (v : Leaf H) : (leafBytes v).length = 33 := by
  simp [leafBytes]

omit [DecidableEq H] in
/-- Reading a record of a node back. -/
theorem leaf_of_leafBytes (v : Leaf H) :
    (⟨ofBytes ((leafBytes v).take 32), (leafBytes v).getD 32 0 = 1⟩ : Leaf H) = v := by
  have hlen : (toBytes v.hash).length = 32 := HashBytes.length_toBytes _
  obtain ⟨h, r⟩ := v
  rw [leafBytes, List.take_left' hlen, List.getD_append_right _ _ _ _ (by rw [hlen]), hlen]
  cases r <;> simp

omit [DecidableEq H] in
@[simp] theorem length_nodeBytes (entries : List (Sigma fun _ : Nat => Leaf H)) :
    (nodeBytes entries).length = 41 * entries.length := by
  induction entries with
  | nil => rfl
  | cons e entries ih =>
    unfold nodeBytes at ih ⊢
    rw [List.flatMap_cons, List.length_append, ih]
    simp
    omega

omit [DecidableEq H] in
@[simp] theorem length_cachedBytes (entries : List (Sigma fun _ : H => Nat)) :
    (cachedBytes entries).length = 40 * entries.length := by
  induction entries with
  | nil => rfl
  | cons e entries ih =>
    unfold cachedBytes at ih ⊢
    rw [List.flatMap_cons, List.length_append, ih]
    simp
    omega

omit [DecidableEq H] in
theorem writeCached_flatten (entries : List (Sigma fun _ : H => Nat)) :
    (writeCached entries).flatten = cachedBytes entries := by
  induction entries with
  | nil => rfl
  | cons e entries ih =>
    unfold writeCached cachedBytes at ih ⊢
    simp [ih]

/-- The fields of the nodes. -/
def nodeFields (entries : List (Sigma fun _ : Nat => Leaf H)) : List Bytes :=
  entries.flatMap fun e => [putLE 8 e.1, leafBytes e.2]

omit [DecidableEq H] in
theorem nodeFields_flatten (entries : List (Sigma fun _ : Nat => Leaf H)) :
    (nodeFields entries).flatten = nodeBytes entries := by
  induction entries with
  | nil => rfl
  | cons e entries ih =>
    unfold nodeFields nodeBytes at ih ⊢
    simp [ih]

omit [DecidableEq H] in
/-- What `Write` writes for the nodes, from a buffer whose last byte is `flag`. -/
theorem writeNodes_eq (leafBuf : Bytes) (flag : Bool)
    (hflag : leafBuf.drop 32 = [if flag then 1 else 0])
    (entries : List (Sigma fun _ : Nat => Leaf H)) :
    writeNodes leafBuf entries = nodeFields (sticky flag entries) := by
  induction entries generalizing leafBuf flag with
  | nil => rfl
  | cons e entries ih =>
    obtain ⟨k, v⟩ := e
    have hlen : (toBytes v.hash).length = 32 := HashBytes.length_toBytes _
    -- The buffer after this node is its record.
    have hbuf : (if v.remember then (toBytes v.hash ++ leafBuf.drop 32).set 32 1
        else toBytes v.hash ++ leafBuf.drop 32) =
          leafBytes ⟨v.hash, flag || v.remember⟩ := by
      rw [hflag, leafBytes]
      cases v.remember
      · simp
      · simp [hlen]
    have hdrop : (leafBytes ⟨v.hash, flag || v.remember⟩).drop 32 =
        [if flag || v.remember then 1 else 0] := by
      rw [leafBytes, List.drop_left' hlen]
    simp only [writeNodes, hbuf, ih _ _ hdrop, sticky, nodeFields, List.flatMap_cons,
      List.cons_append, List.nil_append]

omit [DecidableEq H] in
/-- **The file.** -/
theorem write_eq (m : MapPollard H) (cached : AList fun _ : H => Nat)
    (nodes : AList fun _ : Nat => Leaf H) :
    m.write cached nodes =
      ([UInt8.ofNat m.totalRows] ++ (putLE 8 m.numLeaves ++ (putLE 8 cached.entries.length ++
        (cachedBytes cached.entries ++ (putLE 8 nodes.entries.length ++
          nodeBytes (sticky false nodes.entries))))),
        25 + 40 * cached.entries.length + 41 * nodes.entries.length) := by
  have hbytes : (m.writes cached nodes).flatten =
      [UInt8.ofNat m.totalRows] ++ (putLE 8 m.numLeaves ++ (putLE 8 cached.entries.length ++
        (cachedBytes cached.entries ++ (putLE 8 nodes.entries.length ++
          nodeBytes (sticky false nodes.entries))))) := by
    have hn := writeNodes_eq (List.replicate 33 0) false rfl nodes.entries
    simp only [writes, List.flatten_append, List.flatten_cons, List.flatten_nil, List.append_nil,
      writeCached_flatten, hn, nodeFields_flatten, List.append_assoc]
  rw [write, ← List.length_flatten, hbytes]
  simp
  omega

/-! ### Reading what was written -/

section Readers
variable {σ : Type} [Reader σ] {r r' : σ}

omit [DecidableEq H] [HashBytes H] in
theorem Reading.read_gives {m : MapPollard H} {x buf : Bytes} {t : Nat} (failBytes : Nat)
    (h : Reader.Gives r x r') (hx : buf.length = x.length) :
    Reading.read ⟨m, r, t⟩ failBytes buf = .ok (x, ⟨m, r', t + buf.length⟩) := by
  rw [Reading.read, h.fill hx, h.left]
  simp [hx]

theorem readCached_delivers {entries : List (Sigma fun _ : H => Nat)}
    (hlt : ∀ e ∈ entries, e.2 < 2 ^ 64) (m : MapPollard H) {hash buf : Bytes} (t : Nat)
    (hh : hash.length = 32) (hb : buf.length = 8)
    (h : Reader.Delivers (writeCached entries) r r') :
    readCached entries.length hash buf ⟨m, r, t⟩ =
      .ok ((entries.getLast?.map fun e => putLE 8 e.2).getD buf,
        ⟨{ m with cachedLeaves := putAll m.cachedLeaves entries }, r',
          t + 40 * entries.length⟩) := by
  induction entries generalizing m hash buf t r with
  | nil =>
    cases h
    rfl
  | cons e entries ih =>
    obtain ⟨k, v⟩ := e
    have hv : v < 256 ^ 8 := hlt ⟨k, v⟩ List.mem_cons_self
    obtain ⟨r1, h1, r2, h2, h⟩ := h
    rw [List.length_cons, readCached, Reading.read_gives _ h1 (by simp [hh]), Exec.ok_bind]
    simp only
    rw [Reading.read_gives _ h2 (by simp [hb]), Exec.ok_bind]
    simp only [HashBytes.ofBytes_toBytes, getLE_putLE_of_lt hv]
    rw [ih (fun e he => hlt e (List.mem_cons_of_mem _ he)) _ _ (by simp) (by simp) h]
    congr 2
    · rw [List.getLast?_cons]
      cases entries.getLast? <;> rfl
    · congr 1
      omega

omit [DecidableEq H] in
theorem readNodes_delivers {entries : List (Sigma fun _ : Nat => Leaf H)}
    (hlt : ∀ e ∈ entries, e.1 < 2 ^ 64) (m : MapPollard H) {leafBuf buf : Bytes} (t : Nat)
    (hl : leafBuf.length = 33) (hb : buf.length = 8)
    (h : Reader.Delivers (nodeFields entries) r r') :
    readNodes entries.length leafBuf buf ⟨m, r, t⟩ =
      .ok ⟨{ m with nodes := putAll m.nodes entries }, r', t + 41 * entries.length⟩ := by
  induction entries generalizing m leafBuf buf t r with
  | nil =>
    cases h
    rfl
  | cons e entries ih =>
    obtain ⟨k, v⟩ := e
    have hk : k < 256 ^ 8 := hlt ⟨k, v⟩ List.mem_cons_self
    obtain ⟨r1, h1, r2, h2, h⟩ := h
    rw [List.length_cons, readNodes, Reading.read_gives _ h1 (by simp [hb]), Exec.ok_bind]
    simp only
    rw [Reading.read_gives _ h2 (by simp [hl]), Exec.ok_bind]
    simp only [leaf_of_leafBytes, getLE_putLE_of_lt hk]
    rw [ih (fun e he => hlt e (List.mem_cons_of_mem _ he)) _ _ (by simp) (by simp) h]
    congr 2
    omega

end Readers

omit [HashBytes H] in
/-- The check of the cached leaves passes if all of them are there. -/
theorem sanityCheck_ok_iff (m : MapPollard H) (entries : List (Sigma fun _ : H => Nat)) :
    sanityCheck m entries = .ok () ↔
      ∀ e ∈ entries, ∃ leaf, m.nodes.lookup e.2 = some leaf ∧ leaf.hash = e.1 := by
  induction entries with
  | nil => simp [sanityCheck]
  | cons e entries ih =>
    obtain ⟨k, v⟩ := e
    rw [sanityCheck, List.forall_mem_cons, ← ih]
    rcases m.nodes.lookup v with _ | leaf
    · simp
    · by_cases hk : k = leaf.hash
      · simp [hk]
      · simp [hk, Ne.symm hk]

/-- The values have the sizes of their types: words, and lengths that are an `int`. -/
structure Sized (m : MapPollard H) (cached : AList fun _ : H => Nat)
    (nodes : AList fun _ : Nat => Leaf H) : Prop where
  totalRows : m.totalRows < 2 ^ 8
  numLeaves : m.numLeaves < 2 ^ 64
  cachedPos : ∀ e ∈ cached.entries, e.2 < 2 ^ 64
  nodePos : ∀ e ∈ nodes.entries, e.1 < 2 ^ 64
  cachedLen : cached.entries.length < 2 ^ 63
  nodesLen : nodes.entries.length < 2 ^ 63

section File
variable {m : MapPollard H} {cached : AList fun _ : H => Nat} {nodes : AList fun _ : Nat => Leaf H}

/-- The first fields of the file. -/
def headFields (m : MapPollard H) (count : Nat) : List Bytes :=
  [[UInt8.ofNat m.totalRows], putLE 8 m.numLeaves, putLE 8 count]

omit [DecidableEq H] [HashBytes H] in
theorem readHeader_delivers {σ : Type} [Reader σ] {r r' : σ} {m0 m : MapPollard H}
    (hrows : m.totalRows < 2 ^ 8) (hnum : m.numLeaves < 2 ^ 64) {count : Nat}
    (h : Reader.Delivers (m.headFields count) r r') :
    readHeader ⟨m0, r, 0⟩ =
      .ok (putLE 8 count,
        ⟨{ m0 with totalRows := m.totalRows, numLeaves := m.numLeaves }, r', 17⟩) := by
  have hget : getLE [UInt8.ofNat m.totalRows] = m.totalRows := by
    simpa [getLE] using hrows
  obtain ⟨r1, h1, r2, h2, r3, h3, rfl⟩ := h
  rw [readHeader, Reading.read_gives _ h1 (by simp), Exec.ok_bind]
  simp only
  rw [Reading.read_gives _ h2 (by simp), Exec.ok_bind]
  simp only
  rw [Reading.read_gives _ h3 (by simp), getLE_putLE_of_lt (show _ < 256 ^ 8 from hnum), hget]
  simp

theorem rounds_putLE {count : Nat} (h : count < 2 ^ 63) :
    rounds (getLE (putLE 8 count)) = count := by
  rw [getLE_putLE_of_lt (by omega), rounds, if_pos h]

omit [DecidableEq H] [HashBytes H] in
theorem Sized.sticky (hs : m.Sized cached nodes) (flag : Bool) :
    ∀ e ∈ sticky flag nodes.entries, e.1 < 2 ^ 64 := by
  intro e he
  have hk : e.1 ∈ (MapPollard.sticky flag nodes.entries).keys := List.mem_keys_of_mem he
  rw [keys_sticky] at hk
  obtain ⟨v, hv⟩ := List.exists_of_mem_keys hk
  exact hs.nodePos ⟨e.1, v⟩ hv

/-- What the buffer of words holds after the cached leaves. -/
def staleWord (cached : AList fun _ : H => Nat) : Bytes :=
  (cached.entries.getLast?.map fun e => putLE 8 e.2).getD (putLE 8 cached.entries.length)

omit [DecidableEq H] [HashBytes H] in
@[simp] theorem length_staleWord (cached : AList fun _ : H => Nat) :
    (staleWord cached).length = 8 := by
  rw [staleWord]
  cases cached.entries.getLast? <;> simp

/-- Reading on after the cached leaves. -/
theorem read_head_delivers {σ : Type} [Reader σ] {r r' : σ} (order : MapOrder fun _ : H => Nat)
    (m0 : MapPollard H) (hs : m.Sized cached nodes)
    (h : Reader.Delivers (m.headFields cached.entries.length ++ writeCached cached.entries) r r') :
    read order m0 r =
      (Reading.read ⟨⟨cached.toFinmap, m0.nodes, m.numLeaves, m.totalRows⟩, r',
        17 + 40 * cached.entries.length⟩ (17 + 40 * cached.entries.length) (staleWord cached)) >>=
        fun e => readRest order e.1 e.2 := by
  obtain ⟨r1, hhead, hentries⟩ := Reader.delivers_append.mp h
  have hcached := readCached_delivers hs.cachedPos
    { m0 with totalRows := m.totalRows, numLeaves := m.numLeaves, cachedLeaves := ∅ } 17
    (show (List.replicate 32 (0 : UInt8)).length = 32 from List.length_replicate)
    (length_putLE 8 cached.entries.length) hentries
  rw [read, readHeader_delivers hs.totalRows hs.numLeaves hhead, Exec.ok_bind]
  simp only
  rw [rounds_putLE hs.cachedLen, hcached, Exec.ok_bind]
  simp only
  rw [putAll_entries]
  rfl

/-- **What `Read` makes of a whole file**: everything but the flags comes back, and the
check follows. -/
theorem read_delivers {σ : Type} [Reader σ] {r r' : σ} (order : MapOrder fun _ : H => Nat)
    (m0 : MapPollard H) (hs : m.Sized cached nodes)
    (h : Reader.Delivers (m.writes cached nodes) r r') :
    read order m0 r =
      finishRead order ⟨⟨cached.toFinmap, putAll ∅ (sticky false nodes.entries), m.numLeaves,
        m.totalRows⟩, r', (m.write cached nodes).2⟩ := by
  rw [writes, writeNodes_eq _ false rfl, Reader.delivers_append] at h
  obtain ⟨r2, h, hentries⟩ := h
  obtain ⟨r1, hhead, r3, hcount, rfl⟩ := Reader.delivers_append.mp h
  have hnodes := readNodes_delivers (hs.sticky false)
    ⟨cached.toFinmap, ∅, m.numLeaves, m.totalRows⟩ (25 + 40 * cached.entries.length)
    (show (List.replicate 33 (0 : UInt8)).length = 33 from List.length_replicate)
    (length_putLE 8 nodes.entries.length) hentries
  rw [length_sticky] at hnodes
  rw [read_head_delivers order m0 hs hhead, Reading.read_gives _ hcount (by simp), Exec.ok_bind]
  simp only [readRest]
  rw [rounds_putLE hs.nodesLen, length_staleWord,
    show 17 + 40 * cached.entries.length + 8 = 25 + 40 * cached.entries.length by omega, hnodes,
    Exec.ok_bind, write_eq]

omit [DecidableEq H] in
theorem writes_ne_nil (m : MapPollard H) (cached : AList fun _ : H => Nat)
    (nodes : AList fun _ : Nat => Leaf H) : ∀ x ∈ m.writes cached nodes, x ≠ [] := by
  intro x hx
  apply List.ne_nil_of_length_pos
  rw [writes, writeNodes_eq _ false rfl] at hx
  simp only [List.mem_append, List.mem_cons, List.not_mem_nil, or_false, writeCached, nodeFields,
    List.mem_flatMap] at hx
  rcases hx with ((((rfl | rfl | rfl) | ⟨e, -, rfl | rfl⟩) | rfl) | ⟨e, -, rfl | rfl⟩)
  all_goals simp

theorem read_write (order : MapOrder fun _ : H => Nat) (m0 : MapPollard H)
    (hs : m.Sized cached nodes) :
    read order m0 (m.write cached nodes).1 =
      finishRead order ⟨⟨cached.toFinmap, putAll ∅ (sticky false nodes.entries), m.numLeaves,
        m.totalRows⟩, ([] : Bytes), (m.write cached nodes).2⟩ := by
  have h := Reader.delivers_flatten (m.writes_ne_nil cached nodes) []
  rw [List.append_nil] at h
  exact read_delivers order m0 hs h

omit [DecidableEq H] [HashBytes H] in
theorem toFinmap_sticky_iff {nodes : AList fun _ : Nat => Leaf H} :
    putAll ∅ (sticky false nodes.entries) = nodes.toFinmap ↔ FlagsSorted nodes.entries := by
  have hnd : (sticky false nodes.entries).NodupKeys := by
    rw [List.NodupKeys, keys_sticky]
    exact nodes.nodupKeys
  have hiff := sticky_eq_self_iff false nodes.entries
  simp only [Bool.false_eq_true, false_implies, true_and] at hiff
  rw [← hiff]
  constructor
  · intro h
    refine entries_ext (keys_sticky _ _) hnd fun k => ?_
    have hk := congrArg (Finmap.lookup k) h
    rwa [lookup_putAll hnd, Finmap.lookup_empty, Option.or_none] at hk
  · intro h
    rw [h, putAll_entries]

omit [DecidableEq H] [HashBytes H] in
theorem lookup_sticky (flag : Bool) (entries : List (Sigma fun _ : Nat => Leaf H)) (k : Nat) :
    ((sticky flag entries).dlookup k).map Leaf.hash = (entries.dlookup k).map Leaf.hash := by
  induction entries generalizing flag with
  | nil => rfl
  | cons e entries ih =>
    obtain ⟨a, v⟩ := e
    rw [sticky]
    by_cases hk : k = a
    · subst hk
      simp
    · rw [List.dlookup_cons_ne _ _ hk, List.dlookup_cons_ne _ _ hk, ih]

omit [HashBytes H] in
/-- The check on what was read back: every cached leaf has a node with its hash. -/
theorem sanityCheck_sticky_iff (order : MapOrder fun _ : H => Nat)
    (cached : AList fun _ : H => Nat) (nodes : AList fun _ : Nat => Leaf H)
    (numLeaves totalRows : Nat) :
    sanityCheck ⟨cached.toFinmap, putAll ∅ (sticky false nodes.entries), numLeaves, totalRows⟩
        (order.list cached.toFinmap).entries = .ok () ↔
      ∀ h v, cached.toFinmap.lookup h = some v →
        ∃ leaf, nodes.toFinmap.lookup v = some leaf ∧ leaf.hash = h := by
  have hnd : (sticky false nodes.entries).NodupKeys := by
    rw [List.NodupKeys, keys_sticky]
    exact nodes.nodupKeys
  have hhash : ∀ v, ((putAll ∅ (sticky false nodes.entries)).lookup v).map Leaf.hash =
      (nodes.toFinmap.lookup v).map Leaf.hash := by
    intro v
    rw [lookup_putAll hnd, Finmap.lookup_empty, Option.or_none, lookup_sticky]
    rfl
  have hleaf : ∀ v h, (∃ leaf, (putAll ∅ (sticky false nodes.entries)).lookup v = some leaf ∧
      leaf.hash = h) ↔ ∃ leaf, nodes.toFinmap.lookup v = some leaf ∧ leaf.hash = h := by
    intro v h
    rw [← Option.map_eq_some_iff, hhash, Option.map_eq_some_iff]
  rw [sanityCheck_ok_iff]
  constructor
  · intro hall h v hv
    exact (hleaf v h).mp (hall ⟨h, v⟩ ((mem_order order _).mpr hv))
  · rintro hall ⟨h, v⟩ he
    exact (hleaf v h).mpr (hall h v ((mem_order order _).mp he))

variable [HashOps H]

/-- **A MapPollard comes back from its file** exactly if in the order of the nodes no
unremembered one follows a remembered one, and every cached leaf has a node. -/
theorem map_pollard_round_trip_iff (order : MapOrder fun _ : H => Nat) (m0 : MapPollard H)
    (hs : m.Sized cached nodes) (hcached : cached.toFinmap = m.cachedLeaves)
    (hnodes : nodes.toFinmap = m.nodes)
    (hpos : ∀ h v, m.cachedLeaves.lookup h = some v → (m.node v).hash = h) :
    read order m0 (m.write cached nodes).1 = .ok (m, (m.write cached nodes).2) ↔
      FlagsSorted nodes.entries ∧ ∀ h v, m.cachedLeaves.lookup h = some v → v ∈ m.nodes := by
  have hcheck := sanityCheck_sticky_iff order cached nodes m.numLeaves m.totalRows
  -- With a node at its position a cached leaf passes the check.
  have hpresent : (∀ h v, cached.toFinmap.lookup h = some v →
      ∃ leaf, nodes.toFinmap.lookup v = some leaf ∧ leaf.hash = h) ↔
      ∀ h v, m.cachedLeaves.lookup h = some v → v ∈ m.nodes := by
    rw [hcached, hnodes]
    refine forall₂_congr fun h v => imp_congr_right fun hv => ?_
    rw [← Finmap.lookup_isSome]
    constructor
    · rintro ⟨leaf, hleaf, _⟩
      simp [hleaf]
    · intro hsome
      obtain ⟨leaf, hleaf⟩ := Option.isSome_iff_exists.mp hsome
      have := hpos h v hv
      rw [node, hleaf, Option.getD_some] at this
      exact ⟨leaf, hleaf, this⟩
  rw [hpresent] at hcheck
  have hmaps : (⟨cached.toFinmap, putAll ∅ (sticky false nodes.entries), m.numLeaves,
      m.totalRows⟩ : MapPollard H) = m ↔ FlagsSorted nodes.entries := by
    rw [← toFinmap_sticky_iff, hnodes, hcached]
    constructor
    · intro h
      exact congrArg MapPollard.nodes h
    · intro h
      rw [h]
  rw [read_write order m0 hs, finishRead]
  split
  · next err herr =>
    rw [herr] at hcheck
    simp only [reduceCtorEq, false_iff, not_and]
    exact fun _ hall => by simpa using hcheck.mpr hall
  · next hok =>
    rw [hok] at hcheck
    rw [Except.ok.injEq, Prod.mk.injEq, hmaps]
    have hall := hcheck.mp rfl
    tauto

end File

end

section Fixed

/-- Two leaves, the first of them remembered, and their root. -/
def twoLeafNodes : AList fun _ : Nat => Leaf Hash32 :=
  ⟨[⟨0, ⟨.fill 1, true⟩⟩, ⟨1, ⟨.fill 2, false⟩⟩, ⟨2, ⟨.fill 255, false⟩⟩],
    show List.Nodup [0, 1, 2] by decide⟩

/-- The same nodes, the remembered one last. -/
def rememberedLast : AList fun _ : Nat => Leaf Hash32 :=
  ⟨[⟨1, ⟨.fill 2, false⟩⟩, ⟨2, ⟨.fill 255, false⟩⟩, ⟨0, ⟨.fill 1, true⟩⟩],
    show List.Nodup [1, 2, 0] by decide⟩

def twoLeaves : MapPollard Hash32 :=
  ⟨Finmap.singleton (.fill 1) 0, twoLeafNodes.toFinmap, 2, 1⟩

theorem toFinmap_rememberedLast : rememberedLast.toFinmap = twoLeaves.nodes := by
  refine AList.toFinmap_eq.mpr ?_
  exact List.perm_append_singleton (⟨0, ⟨.fill 1, true⟩⟩ : Sigma fun _ : Nat => Leaf Hash32)
    [⟨1, ⟨.fill 2, false⟩⟩, ⟨2, ⟨.fill 255, false⟩⟩]

theorem twoLeaves_sized : twoLeaves.Sized (AList.singleton (.fill 1) 0) twoLeafNodes := by
  constructor <;> decide

theorem rememberedLast_sized : twoLeaves.Sized (AList.singleton (.fill 1) 0) rememberedLast := by
  constructor <;> decide

theorem twoLeaves_cached {h : Hash32} {v : Nat}
    (hv : twoLeaves.cachedLeaves.lookup h = some v) :
    ∃ leaf, twoLeaves.nodes.lookup v = some leaf ∧ leaf.hash = h := by
  rcases eq_or_ne h (.fill 1) with rfl | hne
  · obtain rfl : 0 = v := Option.some.inj hv
    exact ⟨⟨.fill 1, true⟩, rfl, rfl⟩
  · have hnone : twoLeaves.cachedLeaves.lookup h = none :=
      List.dlookup_cons_ne [] (⟨.fill 1, 0⟩ : Sigma fun _ : Hash32 => Nat) hne
    rw [hnone] at hv
    cases hv

theorem twoLeaves_hash {h : Hash32} {v : Nat} (hv : twoLeaves.cachedLeaves.lookup h = some v) :
    (twoLeaves.node v).hash = h := by
  obtain ⟨leaf, hleaf, rfl⟩ := twoLeaves_cached hv
  rw [node, hleaf, Option.getD_some]

theorem round_trip_of_two_leaves : ∃ order : MapOrder fun _ : Hash32 => Nat,
    read order new (twoLeaves.write (AList.singleton (.fill 1) 0) rememberedLast).1 =
      .ok (twoLeaves, 188) := by
  obtain ⟨order⟩ := (inferInstance : Nonempty (MapOrder fun _ : Hash32 => Nat))
  refine ⟨order, (map_pollard_round_trip_iff order new rememberedLast_sized rfl
    toFinmap_rememberedLast fun _ _ => twoLeaves_hash).mpr ⟨by decide, fun h v hv => ?_⟩⟩
  obtain ⟨leaf, hleaf, -⟩ := twoLeaves_cached hv
  exact Finmap.mem_of_lookup_eq_some hleaf

theorem round_trip_changes_flag :
    twoLeaves.Sized (AList.singleton (.fill 1) 0) twoLeafNodes ∧
    (∀ h v, twoLeaves.cachedLeaves.lookup h = some v → (twoLeaves.node v).hash = h) ∧
    ∀ (order : MapOrder fun _ : Hash32 => Nat) (m0 : MapPollard Hash32) (bytes : Nat),
      read order m0 (twoLeaves.write (AList.singleton (.fill 1) 0) twoLeafNodes).1 ≠
        .ok (twoLeaves, bytes) := by
  refine ⟨twoLeaves_sized, fun _ _ => twoLeaves_hash, fun order m0 bytes h => ?_⟩
  rw [read_write order m0 twoLeaves_sized, finishRead] at h
  split at h
  · cases h
  · have hnodes : putAll ∅ (sticky false twoLeafNodes.entries) = twoLeafNodes.toFinmap :=
      congrArg (fun r => r.1.nodes) (Except.ok.inj h)
    exact absurd (toFinmap_sticky_iff.mp hnodes) (by decide)

end Fixed

end MapPollard

end Utreexo
