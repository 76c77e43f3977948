import Utreexo.MapPollardIO
import Utreexo.ShortReads

/-! # A MapPollard from any reader

`MapPollard.Read` with a reader that may return less than it is asked for.  If the reader
fills the buffer of every field, the result is the one for the file; a reader that returns
one byte at a time makes an empty MapPollard of the file of a leaf.
-/
namespace Utreexo
open Wire

namespace MapPollard

section
variable {H : Type} [DecidableEq H] [HashBytes H]

/-- The lengths of the fields of a file with so many cached leaves and nodes. -/
def mapFields (cached nodes : Nat) : List Nat :=
  1 :: 8 :: 8 :: ((List.replicate cached [32, 8]).flatten ++
    8 :: (List.replicate nodes [8, 33]).flatten)

omit [DecidableEq H] in
theorem length_writes (m : MapPollard H) (cached : AList fun _ : H => Nat)
    (nodes : AList fun _ : Nat => Leaf H) :
    (m.writes cached nodes).map List.length =
      mapFields cached.entries.length nodes.entries.length := by
  have hcached : ∀ entries : List (Sigma fun _ : H => Nat),
      (writeCached entries).map List.length =
        (List.replicate entries.length [32, 8]).flatten := by
    intro entries
    induction entries with
    | nil => rfl
    | cons e entries ih =>
      unfold writeCached at ih ⊢
      simp [ih, List.replicate_succ]
  have hnodes : ∀ entries : List (Sigma fun _ : Nat => Leaf H),
      (nodeFields entries).map List.length =
        (List.replicate entries.length [8, 33]).flatten := by
    intro entries
    induction entries with
    | nil => rfl
    | cons e entries ih =>
      unfold nodeFields at ih ⊢
      simp [ih, List.replicate_succ]
  rw [writes, writeNodes_eq _ false rfl]
  simp only [List.map_append, hcached, hnodes, length_sticky, mapFields]
  simp

/-- **With whole fields the file is read as before.** -/
theorem read_chunked {m : MapPollard H} {cached : AList fun _ : H => Nat}
    {nodes : AList fun _ : Nat => Leaf H} (order : MapOrder fun _ : H => Nat) (m0 : MapPollard H)
    (hs : m.Sized cached nodes) {c : Chunking}
    (hc : c.Meets 0 (mapFields cached.entries.length nodes.entries.length)) :
    read order m0 (⟨0, (m.write cached nodes).1⟩ : Chunked c) =
      read order m0 (m.write cached nodes).1 := by
  have h := Chunked.delivers_flatten (m.writes_ne_nil cached nodes)
    ((length_writes m cached nodes).symm ▸ hc) []
  rw [List.append_nil] at h
  rw [read_write order m0 hs]
  exact read_delivers order m0 hs h

end

end MapPollard

section
variable {H M : Type} [DecidableEq H] [HashOps H] [HashBytes H] [DecidableEq M] [MiniHash H M]

/-- **When restoring does not depend on the reader.**  A full Pollard is restored with the
same nodes and the same number of bytes exactly if the reader fills the buffer of each of its
fields.  For a MapPollard it is enough that the reader fills the buffer of each field. -/
theorem restore_chunked [SortAlg] (hne : ∀ a b : H, parentHash a b ≠ empty) (c : Chunking) :
    (∀ (p : Pollard H M) (stack : List (PolBlock H × List H)), FullReach p stack →
      p.numLeaves < 2 ^ 63 → ∃ (bytes : Bytes) (count : Nat) (s : Restoring H M Bytes),
        p.writeTo = .ok ⟨bytes, bytes.length, .ok ()⟩ ∧ p.getTotalCount = .ok count ∧
        restorePollardFrom bytes = .ok (.ok s) ∧
        ((∃ r : Restoring H M (Chunked c),
          restorePollardFrom (⟨0, bytes⟩ : Chunked c) = .ok (.ok r) ∧ r.p = s.p ∧
          r.totalBytes = s.totalBytes) ↔ c.Meets 0 (pollardFields count))) ∧
    ∀ (m m0 : MapPollard H) (cached : AList fun _ : H => Nat) (nodes : AList fun _ : Nat => Leaf H)
      (order : MapOrder fun _ : H => Nat), m.Sized cached nodes →
      cached.toFinmap = m.cachedLeaves → nodes.toFinmap = m.nodes →
      c.Meets 0 (MapPollard.mapFields cached.entries.length nodes.entries.length) →
      MapPollard.read order m0 (⟨0, (m.write cached nodes).1⟩ : Chunked c) =
        MapPollard.read order m0 (m.write cached nodes).1 := by
  refine ⟨fun p stack hp hlt => ?_, fun m m0 cached nodes order hs _ _ hc => ?_⟩
  · have hp := hp.represents hne
    rw [hp.numLeaves] at hlt
    obtain ⟨s, hrun, hiff⟩ := restore_chunked_of_represents hp hlt c
    exact ⟨_, _, s, hp.writeTo.1, hp.getTotalCount, hrun, hiff⟩
  · exact MapPollard.read_chunked order m0 hs hc

end

section
attribute [local instance] SortAlg.stable

/-- A reader that returns up to 33 bytes at a time. -/
theorem restore_chunked_firstDeleted :
    (∃ (p : Pollard Hash32 Bytes) (bytes : Bytes) (s : Restoring Hash32 Bytes Bytes)
      (r : Restoring Hash32 Bytes (Chunked (.const 33 (by omega)))),
      p.writeTo = .ok ⟨bytes, bytes.length, .ok ()⟩ ∧ p.numLeaves = 4 ∧
      restorePollardFrom bytes = .ok (.ok s) ∧
      restorePollardFrom (⟨0, bytes⟩ : Chunked (.const 33 (by omega))) = .ok (.ok r) ∧
      r.p = s.p) ∧
    ∀ order : MapOrder fun _ : Hash32 => Nat,
      MapPollard.read order .new (⟨0, (MapPollard.twoLeaves.write (AList.singleton (.fill 1) 0)
        MapPollard.twoLeafNodes).1⟩ : Chunked (.const 33 (by omega))) =
      MapPollard.read order .new (MapPollard.twoLeaves.write (AList.singleton (.fill 1) 0)
        MapPollard.twoLeafNodes).1 := by
  obtain ⟨hpol, hmap⟩ := restore_chunked (M := Bytes) Hash32.parentHash_ne_empty
    (.const 33 (by omega))
  refine ⟨?_, fun order => ?_⟩
  · obtain ⟨p, stack, hp, hslots⟩ := exists_firstDeleted
    have hn : p.numLeaves = 4 := by
      rw [(hp.represents Hash32.parentHash_ne_empty).numLeaves, hslots]
      rfl
    obtain ⟨bytes, count, s, hwrite, -, hrun, hiff⟩ := hpol p stack hp (by omega)
    obtain ⟨r, hby, hr, -⟩ := hiff.mpr (Chunking.const_meets _ fun m hm => by
      rw [pollardFields, List.mem_cons, List.mem_cons] at hm
      rcases hm with rfl | rfl | hm
      · omega
      · omega
      · have := recordFields_le hm
        omega)
    exact ⟨p, bytes, s, r, hwrite, hn, hrun, hby, hr⟩
  · exact hmap _ _ _ _ order MapPollard.twoLeaves_sized rfl rfl
      (Chunking.const_meets _ (by decide))

/-- A single leaf. -/
def singleLeaf : PolBlock Hash32 := ⟨[⟨.fill 1, true⟩], [], ⟨[], []⟩⟩

theorem singleLeaf_reach :
    ∃ (p : Pollard Hash32 Bytes) (stack : List (PolBlock Hash32 × List Hash32)),
      FullReach p stack ∧ stackSlots stack = [some (.fill 1)] := by
  have hb : singleLeaf.Honest Bytes (stackSlots []) :=
    ⟨.nil, by decide, Hash32.leavesFine (by decide) (by decide) (by decide)⟩
  obtain ⟨p, hrun, -⟩ := represents_newAccumulator.modify Hash32.parentHash_ne_empty hb
  exact ⟨p, _, .modify .new hb (by decide) hrun, rfl⟩

/-- A MapPollard with a single leaf. -/
def oneLeaf : MapPollard Hash32 :=
  ⟨Finmap.singleton (.fill 1) 0, Finmap.singleton 0 ⟨.fill 1, true⟩, 1, 0⟩

theorem oneLeaf_sized : oneLeaf.Sized (AList.singleton (.fill 1) 0)
    (AList.singleton 0 ⟨.fill 1, true⟩) := by
  constructor <;> decide

/-- An empty MapPollard passes the check. -/
theorem finishRead_empty {σ : Type} (order : MapOrder fun _ : Hash32 => Nat) (rest : σ) (n : Nat) :
    MapPollard.finishRead order ⟨⟨∅, ∅, 1, 0⟩, rest, n⟩ = .ok (⟨∅, ∅, 1, 0⟩, n) := by
  have hnil : (order.list ∅).entries = [] := by
    refine List.eq_nil_iff_forall_not_mem.mpr fun e he => ?_
    have := (MapPollard.mem_order order ∅).mp he
    simp at this
  rw [MapPollard.finishRead, hnil]
  rfl

/-- Byte by byte, a Pollard with one leaf is refused, and a MapPollard with one leaf comes
back without it. -/
theorem restore_byte_by_byte :
    (∃ (p : Pollard Hash32 Bytes) (stack : List (PolBlock Hash32 × List Hash32)) (bytes : Bytes)
      (s : Restoring Hash32 Bytes Bytes), FullReach p stack ∧
      p.writeTo = .ok ⟨bytes, bytes.length, .ok ()⟩ ∧ restorePollardFrom bytes = .ok (.ok s) ∧
      (restorePollardFrom (⟨0, bytes⟩ : Chunked (.const 1 (by omega))) :
        Exec (Except (RestoreErr × Nat) (Restoring Hash32 Bytes _))) =
          .ok (.error (.leaves 1 0, 5))) ∧
    ∀ order : MapOrder fun _ : Hash32 => Nat,
      MapPollard.read order .new (⟨0, (oneLeaf.write (AList.singleton (.fill 1) 0)
          (AList.singleton 0 ⟨.fill 1, true⟩)).1⟩ : Chunked (.const 1 (by omega))) =
        .ok (⟨∅, ∅, 1, 0⟩, 4) ∧
      MapPollard.read order .new
        (oneLeaf.write (AList.singleton (.fill 1) 0)
          (AList.singleton 0 ⟨.fill 1, true⟩)).1 ≠ .ok (⟨∅, ∅, 1, 0⟩, 4) := by
  refine ⟨?_, fun order => ⟨?_, fun h => ?_⟩⟩
  · obtain ⟨p, stack, hreach, hslots⟩ := singleLeaf_reach
    have hp := hreach.represents Hash32.parentHash_ne_empty
    rw [hslots] at hp
    have hd : p.numDels = 0 := by
      have := hp.numDels
      simpa [liveLeaves] using this
    obtain ⟨s, hrun, -⟩ := hp.restore (by decide)
    have hwrite := hp.writeTo.1
    rw [hd] at hrun hwrite
    exact ⟨p, stack, _, s, hreach, hwrite, hrun, rfl⟩
  · exact finishRead_empty order _ 4
  · rw [MapPollard.read_write order _ oneLeaf_sized, MapPollard.finishRead] at h
    split at h
    · cases h
    · have hbytes := congrArg Prod.snd (Except.ok.inj h)
      exact absurd hbytes (by decide)

end

end Utreexo
