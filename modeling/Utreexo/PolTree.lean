import Utreexo.Forest
import Utreexo.PolNode
import Utreexo.TreePath

/-! # Trees in the heap

How the nodes of a Pollard hang together.  A `PTree` is a collapsed tree together with
the address of every node.  The children of a node are the nieces of its *owner*: of
its sibling, or of the node itself if it is a root.  `Links` says that the pointers
below a node are right for a given owner, and `Data` that its hashes are.

A context is the list of frames from a node up to the root; `plug` puts a tree into
it.  The pointers of the whole tree are those of the context and those of the tree in
it (`links_plug`), so an operation that changes the pointers in one place is described
by what it does there and by what it leaves alone (`Keeps`).
-/
namespace Utreexo
open Merkle

/-- A tree with the addresses of its nodes. -/
inductive PTree (H : Type)
  | leaf (a : Addr) (h : H)
  | node (a : Addr) (l r : PTree H)
  deriving DecidableEq, Repr

namespace PTree
variable {H : Type}

def addr : PTree H → Addr
  | leaf a _ => a
  | node a _ _ => a

/-- The tree without its addresses. -/
def tree : PTree H → CTree H
  | leaf _ h => .leaf h
  | node _ l r => .node l.tree r.tree

def addrs : PTree H → List Addr
  | leaf a _ => [a]
  | node a l r => a :: (l.addrs ++ r.addrs)

/-- The addresses of the descendants. -/
def desc : PTree H → List Addr
  | leaf _ _ => []
  | node _ l r => l.addrs ++ r.addrs

/-- The addresses below the children. -/
def grand : PTree H → List Addr
  | leaf _ _ => []
  | node _ l r => l.desc ++ r.desc

/-- The addresses of the children. -/
def kids : PTree H → List Addr
  | leaf _ _ => []
  | node _ l r => [l.addr, r.addr]

/-- The same tree with its root at another address. -/
def withAddr (b : Addr) : PTree H → PTree H
  | leaf _ h => leaf b h
  | node _ l r => node b l r

/-- The addresses and hashes of the leaves. -/
def cells : PTree H → List (Addr × H)
  | leaf a h => [(a, h)]
  | node _ l r => l.cells ++ r.cells

theorem addrs_eq (t : PTree H) : t.addrs = t.addr :: t.desc := by cases t <;> rfl

theorem addr_mem (t : PTree H) : t.addr ∈ t.addrs := by simp [addrs_eq]

theorem mem_addrs_of_desc {t : PTree H} {b : Addr} (h : b ∈ t.desc) : b ∈ t.addrs := by
  rw [addrs_eq]
  exact List.mem_cons_of_mem _ h

theorem kids_subset (t : PTree H) : ∀ b ∈ t.kids, b ∈ t.desc := by
  cases t with
  | leaf a h => simp [kids]
  | node a l r => simp [kids, desc, addr_mem]

theorem grand_subset (t : PTree H) : ∀ b ∈ t.grand, b ∈ t.desc := by
  cases t with
  | leaf a h => simp [grand]
  | node a l r =>
    intro b hb
    rcases List.mem_append.mp hb with hb | hb
    · exact List.mem_append_left _ (mem_addrs_of_desc hb)
    · exact List.mem_append_right _ (mem_addrs_of_desc hb)

@[simp] theorem withAddr_addr (b : Addr) (t : PTree H) : (t.withAddr b).addr = b := by
  cases t <;> rfl

@[simp] theorem withAddr_desc (b : Addr) (t : PTree H) : (t.withAddr b).desc = t.desc := by
  cases t <;> rfl

@[simp] theorem withAddr_tree (b : Addr) (t : PTree H) : (t.withAddr b).tree = t.tree := by
  cases t <;> rfl

theorem cells_snd (t : PTree H) : t.cells.map Prod.snd = t.tree.leaves := by
  induction t with
  | leaf a h => rfl
  | node a l r ihl ihr => simp [cells, tree, CTree.leaves, ihl, ihr]

theorem cells_fst_subset (t : PTree H) : ∀ e ∈ t.cells, e.1 ∈ t.addrs := by
  induction t with
  | leaf a h => simp [cells, addrs]
  | node a l r ihl ihr =>
    intro e he
    rcases List.mem_append.mp he with he | he
    · simp [addrs, ihl e he]
    · simp [addrs, ihr e he]

end PTree

section
variable {H : Type}

/-! ### The pointers and hashes of a tree -/

/-- The nieces of `o` are the children of `t`. -/
def Nieces (h : Heap H) (o : Addr) : PTree H → Prop
  | .leaf _ _ => (h.get o).lNiece = none ∧ (h.get o).rNiece = none
  | .node _ l r => (h.get o).lNiece = some l.addr ∧ (h.get o).rNiece = some r.addr

/-- The pointers below `t` are right if `o` owns its children. -/
def Links (h : Heap H) (o : Addr) : PTree H → Prop
  | .leaf _ _ => (h.get o).lNiece = none ∧ (h.get o).rNiece = none
  | .node _ l r =>
    ((h.get o).lNiece = some l.addr ∧ (h.get o).rNiece = some r.addr) ∧
    ((h.get l.addr).aunt = some o ∧ (h.get r.addr).aunt = some o) ∧
    Links h r.addr l ∧ Links h l.addr r

/-- The pointers below the children of `t` are right. -/
def Under (h : Heap H) : PTree H → Prop
  | .leaf _ _ => True
  | .node _ l r => Links h r.addr l ∧ Links h l.addr r

theorem links_iff {h : Heap H} {o : Addr} {t : PTree H} :
    Links h o t ↔ Nieces h o t ∧ (∀ b ∈ t.kids, (h.get b).aunt = some o) ∧ Under h t := by
  cases t with
  | leaf a x => simp [Links, Nieces, PTree.kids, Under]
  | node a l r => simp [Links, Nieces, PTree.kids, Under]

@[simp] theorem links_withAddr {h : Heap H} {o b : Addr} {t : PTree H} :
    Links h o (t.withAddr b) ↔ Links h o t := by
  cases t <;> rfl

/-- The hashes of `t` are right. -/
def Data [HashOps H] (h : Heap H) : PTree H → Prop
  | .leaf a x => (h.get a).data = x
  | .node a l r =>
    (h.get a).data = parentHash (treeHash l.tree) (treeHash r.tree) ∧ Data h l ∧ Data h r

theorem Data.hash [HashOps H] {h : Heap H} {t : PTree H} (hd : Data h t) :
    (h.get t.addr).data = treeHash t.tree := by
  cases t with
  | leaf a x => exact hd
  | node a l r => exact hd.1

/-! ### What a change leaves alone -/

/-- At most the nieces of the nodes in `N`, the aunts of those in `A` and the hashes
of those in `D` change. -/
structure Keeps (N A D : List Addr) (h h' : Heap H) : Prop where
  lNiece : ∀ b, b ∉ N → (h'.get b).lNiece = (h.get b).lNiece
  rNiece : ∀ b, b ∉ N → (h'.get b).rNiece = (h.get b).rNiece
  aunt : ∀ b, b ∉ A → (h'.get b).aunt = (h.get b).aunt
  data : ∀ b, b ∉ D → (h'.get b).data = (h.get b).data
  remember : ∀ b, b ∉ D → (h'.get b).remember = (h.get b).remember
  next : h.next ≤ h'.next

namespace Keeps
variable {N A D N' A' D' : List Addr} {h h' h'' : Heap H}

theorem refl (h : Heap H) : Keeps [] [] [] h h :=
  ⟨fun _ _ => rfl, fun _ _ => rfl, fun _ _ => rfl, fun _ _ => rfl, fun _ _ => rfl, Nat.le_refl _⟩

theorem mono (k : Keeps N A D h h') (hN : N ⊆ N') (hA : A ⊆ A') (hD : D ⊆ D') :
    Keeps N' A' D' h h' :=
  ⟨fun b hb => k.lNiece b fun hh => hb (hN hh), fun b hb => k.rNiece b fun hh => hb (hN hh),
    fun b hb => k.aunt b fun hh => hb (hA hh), fun b hb => k.data b fun hh => hb (hD hh),
    fun b hb => k.remember b fun hh => hb (hD hh), k.next⟩

theorem trans (k : Keeps N A D h h') (k' : Keeps N' A' D' h' h'') :
    Keeps (N ++ N') (A ++ A') (D ++ D') h h'' := by
  refine ⟨?_, ?_, ?_, ?_, ?_, k.next.trans k'.next⟩ <;> intro b hb <;>
    rw [List.mem_append, not_or] at hb
  · rw [k'.lNiece b hb.2, k.lNiece b hb.1]
  · rw [k'.rNiece b hb.2, k.rNiece b hb.1]
  · rw [k'.aunt b hb.2, k.aunt b hb.1]
  · rw [k'.data b hb.2, k.data b hb.1]
  · rw [k'.remember b hb.2, k.remember b hb.1]

theorem pos (k : Keeps N A D h h') (hpos : 0 < h.next) : 0 < h'.next :=
  Nat.lt_of_lt_of_le hpos k.next

/-- A cell that no list names stays as it is. -/
theorem get (k : Keeps N A D h h') {b : Addr} (hN : b ∉ N) (hA : b ∉ A) (hD : b ∉ D) :
    h'.get b = h.get b := by
  have h1 := k.lNiece b hN
  have h2 := k.rNiece b hN
  have h3 := k.aunt b hA
  have h4 := k.data b hD
  have h5 := k.remember b hD
  rcases hb : h.get b with ⟨l, r, a, d, m⟩
  rcases hb' : h'.get b with ⟨l', r', a', d', m'⟩
  simp_all

theorem nieces (k : Keeps N A D h h') {o : Addr} {t : PTree H} (ho : o ∉ N)
    (hl : Nieces h o t) : Nieces h' o t := by
  cases t <;> simpa only [Nieces, k.lNiece o ho, k.rNiece o ho] using hl

theorem links (k : Keeps N A D h h') {o : Addr} {t : PTree H} (ho : o ∉ N)
    (hN : ∀ b ∈ t.desc, b ∉ N) (hA : ∀ b ∈ t.desc, b ∉ A) (hl : Links h o t) :
    Links h' o t := by
  induction t generalizing o with
  | leaf a x => simpa only [Links, k.lNiece o ho, k.rNiece o ho] using hl
  | node a l r ihl ihr =>
    obtain ⟨h1, h2, h3, h4⟩ := hl
    have hml := l.addr_mem
    have hmr := r.addr_mem
    have hbl : ∀ b ∈ l.addrs, b ∉ N ∧ b ∉ A := fun b hb =>
      ⟨hN b (List.mem_append_left _ hb), hA b (List.mem_append_left _ hb)⟩
    have hbr : ∀ b ∈ r.addrs, b ∉ N ∧ b ∉ A := fun b hb =>
      ⟨hN b (List.mem_append_right _ hb), hA b (List.mem_append_right _ hb)⟩
    refine ⟨?_, ?_, ihl (hbr _ hmr).1 ?_ ?_ h3, ihr (hbl _ hml).1 ?_ ?_ h4⟩
    · rwa [k.lNiece o ho, k.rNiece o ho]
    · rwa [k.aunt _ (hbl _ hml).2, k.aunt _ (hbr _ hmr).2]
    · exact fun b hb => (hbl b (PTree.mem_addrs_of_desc hb)).1
    · exact fun b hb => (hbl b (PTree.mem_addrs_of_desc hb)).2
    · exact fun b hb => (hbr b (PTree.mem_addrs_of_desc hb)).1
    · exact fun b hb => (hbr b (PTree.mem_addrs_of_desc hb)).2

theorem under (k : Keeps N A D h h') {t : PTree H} (hN : ∀ b ∈ t.desc, b ∉ N)
    (hA : ∀ b ∈ t.grand, b ∉ A) (hu : Under h t) : Under h' t := by
  cases t with
  | leaf a x => trivial
  | node a l r =>
    have hl : ∀ b ∈ l.addrs, b ∉ N := fun b hb => hN b (List.mem_append_left _ hb)
    have hr : ∀ b ∈ r.addrs, b ∉ N := fun b hb => hN b (List.mem_append_right _ hb)
    exact ⟨k.links (hr _ r.addr_mem) (fun b hb => hl b (PTree.mem_addrs_of_desc hb))
        (fun b hb => hA b (List.mem_append_left _ hb)) hu.1,
      k.links (hl _ l.addr_mem) (fun b hb => hr b (PTree.mem_addrs_of_desc hb))
        (fun b hb => hA b (List.mem_append_right _ hb)) hu.2⟩

theorem dataOf [HashOps H] (k : Keeps N A D h h') {t : PTree H} (hD : ∀ b ∈ t.addrs, b ∉ D)
    (hd : Data h t) : Data h' t := by
  induction t with
  | leaf a x => rwa [Data, k.data a (hD a (by simp [PTree.addrs]))]
  | node a l r ihl ihr =>
    refine ⟨?_, ihl (fun b hb => hD b (by simp [PTree.addrs, hb])) hd.2.1,
      ihr (fun b hb => hD b (by simp [PTree.addrs, hb])) hd.2.2⟩
    rw [k.data a (hD a (by simp [PTree.addrs]))]
    exact hd.1

/-- A tree whose root has moved. -/
theorem dataWithAddr [HashOps H] {b : Addr} (k : Keeps N A D h h') {t : PTree H}
    (hne : ∀ c ∈ t.desc, c ∉ D) (hdata : (h'.get b).data = (h.get t.addr).data) (hd : Data h t) :
    Data h' (t.withAddr b) := by
  cases t with
  | leaf a x => exact hdata.trans hd
  | node a l r =>
    exact ⟨hdata.trans hd.1, k.dataOf (fun c hc => hne c (List.mem_append_left _ hc)) hd.2.1,
      k.dataOf (fun c hc => hne c (List.mem_append_right _ hc)) hd.2.2⟩

end Keeps

section Set
variable (h : Heap H) (a b : Addr)

theorem get_set (n : PolNode H) : (h.set a n).get b = if b = a then n else h.get b := rfl

theorem keeps_set (n : PolNode H) : Keeps [a] [a] [a] h (h.set a n) := by
  have key : ∀ b, b ∉ [a] → (h.set a n).get b = h.get b := fun b hb =>
    if_neg (by simpa using hb)
  refine ⟨?_, ?_, ?_, ?_, ?_, Nat.le_refl _⟩ <;> intro b hb <;> rw [key b hb]

theorem keeps_alloc (n : PolNode H) :
    Keeps [h.next] [h.next] [h.next] h (h.alloc n).2 := by
  have k := keeps_set h h.next n
  exact ⟨k.lNiece, k.rNiece, k.aunt, k.data, k.remember, Nat.le_succ _⟩

theorem keeps_setNieces (l r : Option Addr) : Keeps [a] [] [] h (h.setNieces a l r) := by
  refine ⟨?_, ?_, ?_, ?_, ?_, Nat.le_refl _⟩ <;> intro b hb <;> by_cases hba : b = a <;>
    simp_all [Heap.setNieces, Heap.set]

theorem keeps_setLNiece (v : Option Addr) : Keeps [a] [] [] h (h.setLNiece a v) := by
  refine ⟨?_, ?_, ?_, ?_, ?_, Nat.le_refl _⟩ <;> intro b hb <;> by_cases hba : b = a <;>
    simp_all [Heap.setLNiece, Heap.set]

theorem keeps_setRNiece (v : Option Addr) : Keeps [a] [] [] h (h.setRNiece a v) := by
  refine ⟨?_, ?_, ?_, ?_, ?_, Nat.le_refl _⟩ <;> intro b hb <;> by_cases hba : b = a <;>
    simp_all [Heap.setRNiece, Heap.set]

theorem keeps_setAunt (v : Option Addr) : Keeps [] [a] [] h (h.setAunt a v) := by
  refine ⟨?_, ?_, ?_, ?_, ?_, Nat.le_refl _⟩ <;> intro b hb <;> by_cases hba : b = a <;>
    simp_all [Heap.setAunt, Heap.set]

theorem keeps_setData (d : H) : Keeps [] [] [a] h (h.setData a d) := by
  refine ⟨?_, ?_, ?_, ?_, ?_, Nat.le_refl _⟩ <;> intro b hb <;> by_cases hba : b = a <;>
    simp_all [Heap.setData, Heap.set]

@[simp] theorem setNieces_self (l r : Option Addr) :
    ((h.setNieces a l r).get a).lNiece = l ∧ ((h.setNieces a l r).get a).rNiece = r := by
  simp [Heap.setNieces, Heap.set]

@[simp] theorem setLNiece_self (v : Option Addr) :
    ((h.setLNiece a v).get a).lNiece = v ∧ ((h.setLNiece a v).get a).rNiece = (h.get a).rNiece := by
  simp [Heap.setLNiece, Heap.set]

@[simp] theorem setRNiece_self (v : Option Addr) :
    ((h.setRNiece a v).get a).rNiece = v ∧ ((h.setRNiece a v).get a).lNiece = (h.get a).lNiece := by
  simp [Heap.setRNiece, Heap.set]

@[simp] theorem setAunt_self (v : Option Addr) : ((h.setAunt a v).get a).aunt = v := by
  simp [Heap.setAunt, Heap.set]

@[simp] theorem setData_self (d : H) : ((h.setData a d).get a).data = d := by
  simp [Heap.setData, Heap.set]

end Set

/-! ### Contexts -/

/-- A node above the place in question: its address, whether the place is on its right,
and its other child. -/
structure Frame (H : Type) where
  addr : Addr
  right : Bool
  sib : PTree H
  deriving DecidableEq, Repr

def Frame.fill (f : Frame H) (t : PTree H) : PTree H :=
  if f.right then .node f.addr f.sib t else .node f.addr t f.sib

@[simp] theorem Frame.fill_addr (f : Frame H) (t : PTree H) : (f.fill t).addr = f.addr := by
  unfold fill
  split <;> rfl

/-- Puts a tree into a context, given by its frames from the lowest on. -/
def plug : List (Frame H) → PTree H → PTree H
  | [], t => t
  | f :: fs, t => plug fs (f.fill t)

theorem plug_addr (f : Frame H) (fs : List (Frame H)) (t u : PTree H) :
    (plug (f :: fs) t).addr = (plug (f :: fs) u).addr := by
  induction fs generalizing f t u with
  | nil => simp [plug]
  | cons g fs ih => exact ih g _ _

/-- The owner of the children of a node at address `a` in a context. -/
def owner : List (Frame H) → Addr → Addr
  | [], a => a
  | f :: _, _ => f.sib.addr

@[simp] theorem owner_nil (a : Addr) : owner ([] : List (Frame H)) a = a := rfl

@[simp] theorem owner_cons (f : Frame H) (fs : List (Frame H)) (a : Addr) :
    owner (f :: fs) a = f.sib.addr := rfl

/-- `x` and `y` are the nieces of `o`, and `x` is on the given side. -/
def Pair (h : Heap H) (o : Addr) (right : Bool) (x y : Addr) : Prop :=
  (h.get o).lNiece = some (if right then y else x) ∧
    (h.get o).rNiece = some (if right then x else y)

/-- The pointers of a context around a node at address `a` are right. -/
def CtxLinks (h : Heap H) : List (Frame H) → Addr → Prop
  | [], a => (h.get a).aunt = none
  | f :: fs, a =>
    Pair h (owner fs f.addr) f.right a f.sib.addr ∧
    ((h.get a).aunt = some (owner fs f.addr) ∧
      (h.get f.sib.addr).aunt = some (owner fs f.addr)) ∧
    Links h a f.sib ∧ CtxLinks h fs f.addr

theorem links_fill {h : Heap H} {o : Addr} {f : Frame H} {t : PTree H} :
    Links h o (f.fill t) ↔ Pair h o f.right t.addr f.sib.addr ∧
      ((h.get t.addr).aunt = some o ∧ (h.get f.sib.addr).aunt = some o) ∧
      Links h t.addr f.sib ∧ Links h f.sib.addr t := by
  unfold Frame.fill Pair
  rcases f.right with _ | _
  · simp only [Bool.false_eq_true, if_false, Links]
    tauto
  · simp only [if_true, Links]
    tauto

/-- The pointers of a whole tree are right. -/
def Rooted (h : Heap H) (t : PTree H) : Prop := (h.get t.addr).aunt = none ∧ Links h t.addr t

/-- **The pointers of a tree are those around a place and those in it.** -/
theorem rooted_plug {h : Heap H} {fs : List (Frame H)} {t : PTree H} :
    Rooted h (plug fs t) ↔ CtxLinks h fs t.addr ∧ Links h (owner fs t.addr) t := by
  induction fs generalizing t with
  | nil => simp [plug, CtxLinks, Rooted]
  | cons f fs ih =>
    rw [plug, ih, CtxLinks, Frame.fill_addr, links_fill, owner_cons]
    tauto

/-- The nodes of a context whose nieces matter. -/
def ctxN : List (Frame H) → Addr → List Addr
  | [], _ => []
  | f :: fs, a => owner fs f.addr :: a :: (f.sib.desc ++ ctxN fs f.addr)

/-- The nodes of a context whose aunts matter. -/
def ctxA : List (Frame H) → Addr → List Addr
  | [], a => [a]
  | f :: fs, a => a :: (f.sib.addrs ++ ctxA fs f.addr)

theorem Keeps.ctx {N A D : List Addr} {h h' : Heap H} (k : Keeps N A D h h')
    {fs : List (Frame H)} {a : Addr} (hN : ∀ b ∈ ctxN fs a, b ∉ N)
    (hA : ∀ b ∈ ctxA fs a, b ∉ A) (hc : CtxLinks h fs a) : CtxLinks h' fs a := by
  induction fs generalizing a with
  | nil => rwa [CtxLinks, k.aunt a (hA a (by simp [ctxA]))]
  | cons f fs ih =>
    obtain ⟨h1, h2, h3, h4⟩ := hc
    have ho : owner fs f.addr ∉ N := hN _ (by simp [ctxN])
    refine ⟨?_, ?_, k.links (hN a (by simp [ctxN])) (fun b hb => hN b (by simp [ctxN, hb]))
      (fun b hb => hA b (by simp [ctxA, PTree.mem_addrs_of_desc hb])) h3,
      ih (fun b hb => hN b (by simp [ctxN, hb])) (fun b hb => hA b (by simp [ctxA, hb])) h4⟩
    · rwa [Pair, k.lNiece _ ho, k.rNiece _ ho]
    · rwa [k.aunt a (hA a (by simp [ctxA])),
        k.aunt _ (hA _ (by simp [ctxA, f.sib.addr_mem]))]

/-- The addresses of a context. -/
def ctxAddrs : List (Frame H) → List Addr
  | [] => []
  | f :: fs => f.addr :: (f.sib.addrs ++ ctxAddrs fs)

theorem mem_ctxAddrs_sib {fs : List (Frame H)} {f : Frame H} (hf : f ∈ fs) {b : Addr}
    (hb : b ∈ f.sib.addrs) : b ∈ ctxAddrs fs := by
  induction fs with
  | nil => cases hf
  | cons g fs ih =>
    rcases List.mem_cons.mp hf with rfl | hf
    · simp [ctxAddrs, hb]
    · simp [ctxAddrs, ih hf]

theorem mem_ctxAddrs_addr {fs : List (Frame H)} {f : Frame H} (hf : f ∈ fs) :
    f.addr ∈ ctxAddrs fs := by
  induction fs with
  | nil => cases hf
  | cons g fs ih =>
    rcases List.mem_cons.mp hf with rfl | hf
    · simp [ctxAddrs]
    · simp [ctxAddrs, ih hf]

theorem addrs_fill (f : Frame H) (t : PTree H) :
    (f.fill t).addrs.Perm (f.addr :: (t.addrs ++ f.sib.addrs)) := by
  unfold Frame.fill
  split
  · exact List.perm_append_comm.cons _
  · exact List.Perm.refl _

theorem addrs_plug (fs : List (Frame H)) (t : PTree H) :
    (plug fs t).addrs.Perm (t.addrs ++ ctxAddrs fs) := by
  induction fs generalizing t with
  | nil => simp [plug, ctxAddrs]
  | cons f fs ih =>
    rw [plug, ctxAddrs]
    refine (ih _).trans ?_
    unfold Frame.fill
    split <;> simp only [PTree.addrs, List.cons_append, List.append_assoc]
    · exact ((List.perm_append_comm_assoc _ _ _).cons _).trans List.perm_middle.symm
    · exact List.perm_middle.symm

/-! ### Contexts and paths -/

/-- The turns from the root down to the place. -/
def turns (fs : List (Frame H)) : List Bool := (fs.map Frame.right).reverse

theorem turns_cons (f : Frame H) (fs : List (Frame H)) :
    turns (f :: fs) = turns fs ++ [f.right] := by
  simp [turns]

theorem plug_append (fs gs : List (Frame H)) (t : PTree H) :
    plug (fs ++ gs) t = plug gs (plug fs t) := by
  induction fs generalizing t with
  | nil => rfl
  | cons f fs ih => exact ih _

theorem tree_fill (f : Frame H) (t : PTree H) :
    (f.fill t).tree = if f.right then .node f.sib.tree t.tree else .node t.tree f.sib.tree := by
  unfold Frame.fill
  split <;> rfl

theorem subAt_plug (fs : List (Frame H)) (t : PTree H) (q : List Bool) :
    (plug fs t).tree.subAt (turns fs ++ q) = t.tree.subAt q := by
  induction fs generalizing t q with
  | nil => rfl
  | cons f fs ih =>
    rw [plug, turns_cons, List.append_assoc, ih, tree_fill]
    rcases hf : f.right with _ | _ <;> simp [CTree.subAt_node]

/-- Changing the tree in a context. -/
theorem tree_plug_updateAt (g : CTree H → CTree H) (fs : List (Frame H)) {t u : PTree H}
    {q : List Bool} (h : u.tree = t.tree.updateAt g q) :
    (plug fs u).tree = (plug fs t).tree.updateAt g (turns fs ++ q) := by
  induction fs generalizing t u q with
  | nil => exact h
  | cons f fs ih =>
    rw [turns_cons, List.append_assoc]
    refine ih ?_
    rw [tree_fill, tree_fill]
    rcases hf : f.right with _ | _ <;> simp [CTree.updateAt, h]

/-- The leaves of a tree are those of a place and those around it. -/
theorem mem_cells_plug (fs : List (Frame H)) {t : PTree H} {e : Addr × H} :
    e ∈ (plug fs t).cells ↔ e ∈ t.cells ∨ ∃ f ∈ fs, e ∈ f.sib.cells := by
  induction fs generalizing t with
  | nil => simp [plug]
  | cons f fs ih =>
    have hfill : e ∈ (f.fill t).cells ↔ e ∈ t.cells ∨ e ∈ f.sib.cells := by
      unfold Frame.fill
      rcases f.right with _ | _
      · exact List.mem_append
      · exact List.mem_append.trans Or.comm
    rw [plug, ih, hfill, List.exists_mem_cons_iff, or_assoc]

/-- A tree without the other child of the lowest frame. -/
theorem removeAt_plug (f : Frame H) (fs : List (Frame H)) (t : PTree H) :
    (plug (f :: fs) t).tree.removeAt (turns fs ++ [!f.right]) = some (plug fs t).tree := by
  have hlift : t.tree = (f.fill t).tree.updateAt (CTree.lift (!f.right)) [] := by
    rw [CTree.updateAt_nil, tree_fill]
    rcases f.right with _ | _ <;> rfl
  rw [CTree.removeAt_concat, tree_plug_updateAt _ fs hlift, List.append_nil, plug]

/-- Seen from the other child of the lowest frame. -/
theorem plug_swap (f : Frame H) (fs : List (Frame H)) (t : PTree H) :
    plug (⟨f.addr, !f.right, t⟩ :: fs) f.sib = plug (f :: fs) t := by
  rw [plug, plug, Frame.fill, Frame.fill]
  rcases f.right with _ | _ <;> rfl

theorem exists_plug_of_cell {t : PTree H} {e : Addr × H} (h : e ∈ t.cells) :
    ∃ fs, plug fs (.leaf e.1 e.2) = t := by
  induction t with
  | leaf a x =>
    obtain rfl : e = (a, x) := by simpa [PTree.cells] using h
    exact ⟨[], rfl⟩
  | node a l r ihl ihr =>
    rcases List.mem_append.mp h with h | h
    · obtain ⟨fs, hfs⟩ := ihl h
      exact ⟨fs ++ [⟨a, false, r⟩], by rw [plug_append, hfs]; rfl⟩
    · obtain ⟨fs, hfs⟩ := ihr h
      exact ⟨fs ++ [⟨a, true, l⟩], by rw [plug_append, hfs]; rfl⟩

end

end Utreexo
