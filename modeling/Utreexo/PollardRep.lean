import Utreexo.Offset
import Utreexo.PolOps
import Utreexo.Pollard

/-! # The Pollard as a forest of trees

`Pollard.Rep p F` says that the roots of `p` are the trees `F`, laid out in the heap
as `PolTree` describes and without sharing.  `getNode` then finds the node that the
turns lead to, and `getHash` its hash.
-/
namespace Utreexo
open Merkle

/-- A root: empty, or a tree. -/
inductive PRoot (H : Type)
  | vacant (a : Addr)
  | full (t : PTree H)
  deriving DecidableEq, Repr

namespace PRoot
variable {H : Type}

def addr : PRoot H → Addr
  | vacant a => a
  | full t => t.addr

def addrs : PRoot H → List Addr
  | vacant a => [a]
  | full t => t.addrs

/-- The collapsed tree. -/
def opt : PRoot H → Option (CTree H)
  | vacant _ => none
  | full t => some t.tree

/-- The addresses and hashes of the leaves. -/
def cells : PRoot H → List (Addr × H)
  | vacant _ => []
  | full t => t.cells

theorem cells_fst_subset (R : PRoot H) : ∀ e ∈ R.cells, e.1 ∈ R.addrs := by
  cases R with
  | vacant a => exact fun e he => absurd he List.not_mem_nil
  | full t => exact t.cells_fst_subset

end PRoot

section
variable {H M : Type} [DecidableEq H] [HashOps H] [DecidableEq M] [MiniHash H M]

/-- The pointers and hashes of a root are right. -/
def RootOk (h : Heap H) : PRoot H → Prop
  | .vacant a => ((h.get a).lNiece = none ∧ (h.get a).rNiece = none) ∧ (h.get a).aunt = none ∧
      (h.get a).data = empty
  | .full t => Rooted h t ∧ Data h t

omit [DecidableEq H] in
theorem RootOk.hash {h : Heap H} {R : PRoot H} (hR : RootOk h R) :
    (h.get R.addr).data = hashOpt R.opt := by
  cases R with
  | vacant a => exact hR.2.2
  | full t => exact hR.2.hash

/-- The trees are in the heap, and share no node. -/
structure HeapRep (h : Heap H) (F : List (PRoot H)) : Prop where
  ok : ∀ R ∈ F, RootOk h R
  nodup : (F.flatMap PRoot.addrs).Nodup
  lt : ∀ a ∈ F.flatMap PRoot.addrs, a < h.next

/-- The roots of the Pollard are the given trees. -/
structure Pollard.Rep (p : Pollard H M) (F : List (PRoot H)) : Prop extends HeapRep p.heap F where
  roots : p.roots = F.map PRoot.addr

omit [DecidableEq H] in
theorem RootOk.keeps {N A D : List Addr} {h h' : Heap H} (k : Keeps N A D h h') {R : PRoot H}
    (hN : ∀ b ∈ R.addrs, b ∉ N) (hA : ∀ b ∈ R.addrs, b ∉ A) (hD : ∀ b ∈ R.addrs, b ∉ D)
    (hR : RootOk h R) : RootOk h' R := by
  cases R with
  | vacant a =>
    have ha : a ∈ (PRoot.vacant a : PRoot H).addrs := by simp [PRoot.addrs]
    have hcell := k.get (hN a ha) (hA a ha) (hD a ha)
    rwa [RootOk, hcell]
  | full t =>
    obtain ⟨⟨haunt, hl⟩, hd⟩ := hR
    refine ⟨⟨?_, k.links (hN _ t.addr_mem) (fun b hb => hN b (PTree.mem_addrs_of_desc hb))
      (fun b hb => hA b (PTree.mem_addrs_of_desc hb)) hl⟩, k.dataOf hD hd⟩
    rw [k.aunt _ (hA _ t.addr_mem)]
    exact haunt

omit [DecidableEq H] in
theorem HeapRep.of_sublist {h : Heap H} {F G : List (PRoot H)} (hr : HeapRep h F)
    (hs : G.Sublist F) : HeapRep h G :=
  ⟨fun R hR => hr.ok R (hs.subset hR), hr.nodup.sublist (hs.flatMap _),
    fun a ha => hr.lt a ((hs.flatMap _).subset ha)⟩

omit [DecidableEq H] in
/-- **Replacing some of the trees.**  What happens in the nodes of these trees and in
new nodes does not concern the others. -/
theorem HeapRep.replace {N A D : List Addr} {h h' : Heap H} {F F' G G' : List (PRoot H)}
    (hr : HeapRep h (F ++ (G ++ F'))) (k : Keeps N A D h h')
    (hk : ∀ b, b ∈ N ∨ b ∈ A ∨ b ∈ D → b ∈ G.flatMap PRoot.addrs ∨ h.next ≤ b)
    (hok : ∀ R ∈ G', RootOk h' R) (hnd : (G'.flatMap PRoot.addrs).Nodup)
    (hsub : ∀ b ∈ G'.flatMap PRoot.addrs,
      (b ∈ G.flatMap PRoot.addrs ∨ h.next ≤ b) ∧ b < h'.next) :
    HeapRep h' (F ++ (G' ++ F')) := by
  have hnodup := hr.nodup
  have hlt := hr.lt
  simp only [List.flatMap_append, List.mem_append] at hnodup hlt
  obtain ⟨h1, h2, h3⟩ := List.nodup_append.mp hnodup
  obtain ⟨_, h4, h5⟩ := List.nodup_append.mp h2
  -- The other trees are made of old nodes that are not in `G`.
  have hother : ∀ b, b ∈ F.flatMap PRoot.addrs ∨ b ∈ F'.flatMap PRoot.addrs →
      ¬ (b ∈ G.flatMap PRoot.addrs ∨ h.next ≤ b) := by
    rintro b (hb | hb) (hm | hm)
    · exact h3 b hb b (List.mem_append_left _ hm) rfl
    · exact absurd (hlt b (Or.inl hb)) (Nat.not_lt.mpr hm)
    · exact h5 b hm b hb rfl
    · exact absurd (hlt b (Or.inr (Or.inr hb))) (Nat.not_lt.mpr hm)
  have hkeep : ∀ R, R ∈ F ∨ R ∈ F' → RootOk h' R := by
    intro R hR
    have hin : ∀ b ∈ R.addrs, b ∈ F.flatMap PRoot.addrs ∨ b ∈ F'.flatMap PRoot.addrs :=
      fun b hb => hR.imp (fun h => List.mem_flatMap.mpr ⟨R, h, hb⟩)
        (fun h => List.mem_flatMap.mpr ⟨R, h, hb⟩)
    refine RootOk.keeps k (fun b hb hm => hother b (hin b hb) (hk b (Or.inl hm)))
      (fun b hb hm => hother b (hin b hb) (hk b (Or.inr (Or.inl hm))))
      (fun b hb hm => hother b (hin b hb) (hk b (Or.inr (Or.inr hm)))) (hr.ok R ?_)
    simp only [List.mem_append]
    tauto
  refine ⟨fun R hR => ?_, ?_, ?_⟩
  · simp only [List.mem_append] at hR
    rcases hR with hR | hR | hR
    · exact hkeep R (Or.inl hR)
    · exact hok R hR
    · exact hkeep R (Or.inr hR)
  · simp only [List.flatMap_append]
    refine List.nodup_append.mpr ⟨h1, List.nodup_append.mpr ⟨hnd, h4, ?_⟩, ?_⟩
    · rintro b hb c hc rfl
      exact hother b (Or.inr hc) (hsub b hb).1
    · rintro b hb c hc rfl
      rcases List.mem_append.mp hc with hc | hc
      · exact hother b (Or.inl hb) (hsub b hc).1
      · exact h3 b hb b (List.mem_append_right _ hc) rfl
  · intro b hb
    simp only [List.flatMap_append, List.mem_append] at hb
    rcases hb with hb | hb | hb
    · exact Nat.lt_of_lt_of_le (hlt b (Or.inl hb)) k.next
    · exact (hsub b hb).2
    · exact Nat.lt_of_lt_of_le (hlt b (Or.inr (Or.inr hb))) k.next

omit [DecidableEq H] in
/-- A new root without children. -/
theorem HeapRep.alloc {h : Heap H} {F G : List (PRoot H)} (hr : HeapRep h (F ++ G)) {R : PRoot H}
    {cell : PolNode H} (haddrs : R.addrs = [h.next]) (hok : RootOk (h.alloc cell).2 R) :
    HeapRep (h.alloc cell).2 (F ++ R :: G) := by
  change HeapRep _ (F ++ ([R] ++ G))
  refine HeapRep.replace (G := []) hr (keeps_alloc h cell) ?_ ?_ ?_ ?_
  · intro b hb
    obtain rfl : b = h.next := by simpa using hb
    exact Or.inr (Nat.le_refl _)
  · intro R' hR'
    rwa [List.mem_singleton.mp hR']
  · simp [haddrs]
  · intro b hb
    obtain rfl : b = h.next := by simpa [haddrs] using hb
    exact ⟨Or.inr (Nat.le_refl _), Nat.lt_succ_self _⟩

omit [DecidableEq H] in
theorem HeapRep.allocLeaf {h : Heap H} {F G : List (PRoot H)} (hr : HeapRep h (F ++ G)) (x : H)
    (full : Bool) :
    HeapRep (h.alloc ⟨none, none, none, x, full⟩).2 (F ++ .full (.leaf h.next x) :: G) := by
  have hget : (h.alloc ⟨none, none, none, x, full⟩).2.get h.next = ⟨none, none, none, x, full⟩ :=
    if_pos rfl
  refine hr.alloc rfl ⟨⟨?_, ?_, ?_⟩, ?_⟩
  · exact congrArg PolNode.aunt hget
  · exact congrArg PolNode.lNiece hget
  · exact congrArg PolNode.rNiece hget
  · exact congrArg PolNode.data hget

omit [DecidableEq H] [DecidableEq M] [MiniHash H M] in
theorem Pollard.Rep.getRoots {p : Pollard H M} {F : List (PRoot H)} (hr : p.Rep F) :
    p.getRoots = F.map fun R => hashOpt R.opt := by
  rw [Pollard.getRoots, hr.roots, List.map_map]
  exact List.map_congr_left fun R hR => (hr.ok R hR).hash

/-! ### Finding a node -/

/-- The turns that `getNode` takes, from the root on: all bits but the last are
inverted, since a node is found through the sibling of its parent. -/
def turnsOf (bits : Nat) : Nat → List Bool
  | 0 => []
  | d + 1 => (if d = 0 then bits.testBit 0 else !bits.testBit d) :: turnsOf bits d

omit [DecidableEq H] [HashOps H] in
theorem isLeftNiece_bit (bits i : Nat) :
    isLeftNiece ((bits >>> i) &&& 1) = !bits.testBit i := by
  rw [isLeftNiece, Nat.testBit, Nat.and_comm 1]
  rcases Nat.mod_two_eq_zero_or_one (bits >>> i) with h | h <;> simp [Nat.and_one_is_mod, h]

omit [DecidableEq H] [HashOps H] in
theorem getNodeLoop_spec {heap : Heap H} (bits d : Nat) {t : PTree H} {o : Addr}
    (sib par : Option Addr) (hl : Links heap o t) :
    (t.tree.subAt (turnsOf bits (d + 1)) = none ∧
      Pollard.getNodeLoop heap bits (d + 1) o sib par = (none, none, none)) ∨
    ∃ f fs u par', plug (f :: fs) u = t ∧ turns (f :: fs) = turnsOf bits (d + 1) ∧
      Pollard.getNodeLoop heap bits (d + 1) o sib par =
        (some u.addr, some f.sib.addr, par') := by
  induction d generalizing t o sib par with
  | zero =>
    cases t with
    | leaf a x => exact Or.inl ⟨rfl, by simp [Pollard.getNodeLoop, hl.1, hl.2]⟩
    | node a l r =>
      right
      rcases hb : bits.testBit 0 with _ | _
      · refine ⟨⟨a, false, r⟩, [], l, sib, rfl, by simp [turns, turnsOf, hb], ?_⟩
        rw [Pollard.getNodeLoop, isLeftNiece_bit, hb, hl.1.1, hl.1.2]
        rfl
      · refine ⟨⟨a, true, l⟩, [], r, sib, rfl, by simp [turns, turnsOf, hb], ?_⟩
        rw [Pollard.getNodeLoop, isLeftNiece_bit, hb, hl.1.1, hl.1.2]
        rfl
  | succ d ih =>
    cases t with
    | leaf a x => exact Or.inl ⟨rfl, by simp [Pollard.getNodeLoop, hl.1, hl.2]⟩
    | node a l r =>
      obtain ⟨⟨hnl, hnr⟩, _, hll, hlr⟩ := hl
      rw [Pollard.getNodeLoop, turnsOf, if_neg (by omega), isLeftNiece_bit, hnl, hnr]
      -- The node that owns the children of one child is the other child.
      rcases hb : bits.testBit (d + 1) with _ | _
      · rcases ih (some r.addr) sib hlr with ⟨h1, h2⟩ | ⟨f, fs, u, par', h1, h2, h3⟩
        · exact Or.inl ⟨h1, h2⟩
        · refine Or.inr ⟨f, fs ++ [⟨a, true, l⟩], u, par', ?_, ?_, h3⟩
          · rw [← List.cons_append, plug_append, h1]
            rfl
          · rw [← List.cons_append, ← h2]
            simp [turns]
      · rcases ih (some l.addr) sib hll with ⟨h1, h2⟩ | ⟨f, fs, u, par', h1, h2, h3⟩
        · exact Or.inl ⟨h1, h2⟩
        · refine Or.inr ⟨f, fs ++ [⟨a, false, r⟩], u, par', ?_, ?_, h3⟩
          · rw [← List.cons_append, plug_append, h1]
            rfl
          · rw [← List.cons_append, ← h2]
            simp [turns]

/-- The hash that a forest of trees has at a position, empty if there is none. -/
def forestHash (n : Nat) (trees : List (Option (CTree H))) (pos : Nat) : H :=
  if maxPosition (treeRows n) ≤ pos then empty
  else match detectOffset pos n with
  | .error _ => empty
  | .ok (tree, branchLen, bits) =>
    if trees.length % 2 ^ 8 ≤ tree then empty
    else hashOpt ((trees[tree]?.join).bind (·.subAt (turnsOf bits branchLen)))

section Read
variable {p : Pollard H M} {F : List (PRoot H)} {pos tree branchLen bits : Nat}

omit [DecidableEq H] [HashOps H] [DecidableEq M] [MiniHash H M] in
theorem Pollard.getNode_of_offset {root : Addr} (hmax : pos < maxPosition (treeRows p.numLeaves))
    (hoff : detectOffset pos p.numLeaves = .ok (tree, branchLen, bits))
    (htree : tree < p.roots.length % 2 ^ 8) (hroot : p.roots[tree]? = some root) :
    p.getNode pos = .ok (getNodeLoop p.heap bits branchLen root (some root) none) := by
  rw [Pollard.getNode, if_neg (Nat.not_le.mpr hmax), hoff]
  simp only [if_neg (Nat.not_le.mpr htree), hroot]

omit [DecidableEq H] [DecidableEq M] [MiniHash H M] in
theorem Pollard.getHash_of_error {e : PolErr H} (h : p.getNode pos = .error e) :
    p.getHash pos = empty := by
  rw [Pollard.getHash, h, Pollard.hashOfNode]

omit [DecidableEq H] [DecidableEq M] [MiniHash H M] in
theorem Pollard.getHash_of_ok {r : Option Addr × Option Addr × Option Addr}
    (h : p.getNode pos = .ok r) :
    p.getHash pos = (r.1.map fun a => (p.heap.get a).data).getD empty := by
  obtain ⟨n, s, q⟩ := r
  rw [Pollard.getHash, h]
  cases n <;> rfl

variable (hr : p.Rep F)
include hr

omit [DecidableEq H] [DecidableEq M] [MiniHash H M] in
/-- **`GetHash` reads the forest**, at any position. -/
theorem Pollard.Rep.getHash (pos : Nat) :
    p.getHash pos = forestHash p.numLeaves (F.map PRoot.opt) pos := by
  have hlen : p.roots.length = F.length := by rw [hr.roots, List.length_map]
  by_cases hmax : maxPosition (treeRows p.numLeaves) ≤ pos
  · rw [forestHash, if_pos hmax]
    refine Pollard.getHash_of_error (e := .noPosition pos p.numLeaves) ?_
    rw [Pollard.getNode, if_pos hmax]
  rw [forestHash, if_neg hmax]
  rcases hoff : detectOffset pos p.numLeaves with e | ⟨tree, branchLen, bits⟩
  · refine Pollard.getHash_of_error (e := .pos e) ?_
    rw [Pollard.getNode, if_neg hmax, hoff]
  by_cases hle : F.length % 2 ^ 8 ≤ tree
  · simp only [List.length_map, if_pos hle]
    refine Pollard.getHash_of_error (e := .noRoot pos tree p.roots.length) ?_
    rw [Pollard.getNode, if_neg hmax, hoff]
    simp only [hlen, if_pos hle]
  have hlt : tree < F.length := Nat.lt_of_lt_of_le (Nat.not_le.mp hle) (Nat.mod_le _ _)
  have hF : F[tree]? = some F[tree] := List.getElem?_eq_getElem hlt
  have hok := hr.ok F[tree] (List.getElem_mem hlt)
  have hroot : p.roots[tree]? = some F[tree].addr := by
    rw [hr.roots, List.getElem?_map, hF, Option.map_some]
  rw [Pollard.getHash_of_ok (Pollard.getNode_of_offset (Nat.not_le.mp hmax) hoff
    (by rw [hlen]; exact Nat.not_le.mp hle) hroot)]
  simp only [List.length_map, if_neg hle, List.getElem?_map, hF, Option.map_some,
    Option.join_some]
  generalize F[tree] = R at hok
  cases branchLen with
  | zero => simpa [Pollard.getNodeLoop, turnsOf] using hok.hash
  | succ d =>
    cases R with
    | vacant a =>
      have h1 := hok.1.1
      have h2 := hok.1.2
      simp [Pollard.getNodeLoop, PRoot.addr, PRoot.opt, h1, h2]
    | full t =>
      obtain ⟨⟨_, hl⟩, hd⟩ := hok
      simp only [PRoot.addr, PRoot.opt, Option.bind_some]
      rcases getNodeLoop_spec bits d (some t.addr) none hl with ⟨h1, h2⟩ |
        ⟨f, fs, u, par', rfl, h2, h3⟩
      · rw [h1, h2]
        rfl
      · rw [h3, ← h2]
        have hsub := subAt_plug (f :: fs) u []
        rw [List.append_nil, CTree.subAt_nil] at hsub
        rw [hsub]
        exact hd.of_plug.1.hash

end Read

/-! ### Nodes of the forest -/

theorem path_succ_top (x : Node) (j : Nat) : x.path (j + 1) = x.off.testBit j :: x.path j := by
  rw [Node.path_add, Node.path_succ, Node.path_zero, List.nil_append, Node.isRight, Node.up,
    Nat.testBit_eq_decide_div_mod_eq]
  rfl

theorem turnsOf_eq_path {bits j : Nat} {x : Node} (h : Turns bits x.off j) :
    turnsOf bits j = x.path j := by
  induction j with
  | zero => rfl
  | succ j ih =>
    rw [turnsOf, path_succ_top, ih fun i hi => h i (by omega)]
    congr 1
    have := h j (by omega)
    by_cases h0 : j = 0
    · subst h0
      simpa using this
    · rw [if_neg h0] at this
      simp [h0, this]

section Forest
variable {slots : List (Option H)} (hn : slots.length ≤ 2 ^ 63) {x : Node}
include hn

omit [HashOps H] [DecidableEq H] in
theorem forestTrees_getElem {j : Nat} (hroot : (x.up j).IsRoot slots.length) :
    (forestTrees slots)[(rootRows slots.length (x.row + j + 1)).length]? =
      some (rootTree slots (x.row + j)) := by
  rw [forestTrees, List.getElem?_map,
    rootRows_getElem (mem_rootRows_of_isRoot (by omega) hroot), Option.map_some]

omit [HashOps H] [DecidableEq H] hn in
theorem length_forestTrees (slots : List (Option H)) : (forestTrees slots).length ≤ 64 := by
  rw [forestTrees, List.length_map, rootRows]
  exact (List.length_filter_le _ _).trans (by simp)

omit [DecidableEq H] in
/-- At a node of the forest this is the hash of what is placed there. -/
theorem forestHash_nodePos (hx : x.InForest slots.length) :
    forestHash slots.length (forestTrees slots) (nodePos (treeRows slots.length) x) =
      hashOpt (placed slots x) := by
  obtain ⟨j, hj⟩ := hx.exists_root
  obtain ⟨bits, hbits, hoff⟩ := detectOffset_nodePos hn hj
  have hk := treeRows_le hn
  have hmax := (fits_of_inForest (le_two_pow_treeRows _) hx).pos_lt_max
  have hget := forestTrees_getElem hn hj
  have hlt := (List.getElem?_eq_some_iff.mp hget).1
  have h64 := length_forestTrees slots
  rw [forestHash, maxPosition_eq hk, if_neg (Nat.not_le.mpr hmax), hoff]
  simp only
  rw [if_neg (by rw [Nat.mod_eq_of_lt (by omega)]; omega), hget, placed_eq (by omega) hj,
    turnsOf_eq_path hbits]
  rfl

variable {p : Pollard H M} {F : List (PRoot H)}

omit [DecidableEq H] [DecidableEq M] [MiniHash H M] in
/-- `getNode` starts at the root above the position. -/
theorem Pollard.Rep.getNode_eq (hr : p.Rep F) (hF : F.map PRoot.opt = forestTrees slots)
    (hnum : p.numLeaves = slots.length) {j : Nat} (hj : (x.up j).IsRoot slots.length) :
    ∃ R bits, F[(rootRows slots.length (x.row + j + 1)).length]? = some R ∧
      R.opt = rootTree slots (x.row + j) ∧ turnsOf bits j = x.path j ∧
      p.getNode (nodePos (treeRows slots.length) x) =
        .ok (getNodeLoop p.heap bits j R.addr (some R.addr) none) := by
  obtain ⟨bits, hbits, hoff⟩ := detectOffset_nodePos hn hj
  have hk := treeRows_le hn
  have hmax := (fits_of_inForest (le_two_pow_treeRows _)
      (Node.inForest_of_up hj.inForest)).pos_lt_max
  have hget := forestTrees_getElem hn hj
  have hlt := (List.getElem?_eq_some_iff.mp hget).1
  have h64 := length_forestTrees slots
  rw [← hF, List.getElem?_map] at hget
  obtain ⟨R, hR, hopt⟩ := Option.map_eq_some_iff.mp hget
  have hlen : p.roots.length % 2 ^ 8 = (forestTrees slots).length := by
    rw [hr.roots, List.length_map, ← List.length_map (f := PRoot.opt), hF,
      Nat.mod_eq_of_lt (by omega)]
  have hroot : p.roots[(rootRows slots.length (x.row + j + 1)).length]? = some R.addr := by
    rw [hr.roots, List.getElem?_map, hR]
    rfl
  refine ⟨R, bits, hR, hopt, turnsOf_eq_path hbits, Pollard.getNode_of_offset ?_ ?_ ?_ hroot⟩
  · rw [hnum, maxPosition_eq hk]
    exact hmax
  · rw [hnum]
    exact hoff
  · rw [hlen]
    exact hlt

omit [DecidableEq H] [DecidableEq M] [MiniHash H M] in
/-- **`getNode` finds what is placed at a node**, together with the node's sibling. -/
theorem Pollard.Rep.getNode_placed (hr : p.Rep F) (hF : F.map PRoot.opt = forestTrees slots)
    (hnum : p.numLeaves = slots.length) {s : CTree H} (hx : placed slots x = some s) {j : Nat}
    (hj : (x.up (j + 1)).IsRoot slots.length) :
    ∃ f fs u par, F[(rootRows slots.length (x.row + (j + 1) + 1)).length]? =
        some (.full (plug (f :: fs) u)) ∧
      turns (f :: fs) = x.path (j + 1) ∧ u.tree = s ∧
      p.getNode (nodePos (treeRows slots.length) x) =
        .ok (some u.addr, some f.sib.addr, par) := by
  obtain ⟨R, bits, hR, hopt, hturns, hnode⟩ := hr.getNode_eq hn hF hnum hj
  rw [placed_eq (by omega) hj] at hx
  obtain ⟨T, hT, hx⟩ := Option.bind_eq_some_iff.mp hx
  rw [hT] at hopt
  cases R with
  | vacant a => cases hopt
  | full t =>
    obtain rfl : t.tree = T := Option.some.inj hopt
    have hlinks := (hr.ok _ (List.mem_of_getElem? hR)).1.2
    rcases getNodeLoop_spec bits j (some t.addr) none hlinks with ⟨h1, h2⟩ |
      ⟨f, fs, u, par, rfl, h2, h3⟩
    · rw [hturns, hx] at h1
      cases h1
    · rw [hturns] at h2
      refine ⟨f, fs, u, par, hR, h2, ?_, hnode.trans (congrArg _ h3)⟩
      have hsub := subAt_plug (f :: fs) u []
      rw [List.append_nil, CTree.subAt_nil, h2, hx] at hsub
      exact (Option.some.inj hsub).symm

end Forest

end

end Utreexo
