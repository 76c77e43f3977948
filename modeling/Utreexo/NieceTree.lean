import Utreexo.PollardRep

/-! # Trees of nieces

A root with its children, their nieces, the nieces of these and so on is a binary tree:
the way in which the nodes of the Pollard point to each other, whatever they are in the
forest.  `NRep` says that the nodes of such a tree point down and back up as they should.

The trees of the forest give trees of nieces (`PTree.nieces`), and a tree of nieces with
the right hashes is one of those (`exists_nieces`).
-/
namespace Utreexo
open Merkle

/-- A binary tree of labels in which a node has either both nieces or none. -/
inductive NTree (α : Type)
  | tip (a : α)
  | node (a : α) (l r : NTree α)
  deriving DecidableEq, Repr

namespace NTree
variable {α β : Type}

/-- The label at the top. -/
def top : NTree α → α
  | tip a => a
  | node a _ _ => a

def map (f : α → β) : NTree α → NTree β
  | tip a => tip (f a)
  | node a l r => node (f a) (l.map f) (r.map f)

/-- The labels, a node before its nieces. -/
def labels : NTree α → List α
  | tip a => [a]
  | node a l r => a :: (l.labels ++ r.labels)

/-- Whether there are no nieces. -/
def isTip : NTree α → Bool
  | tip _ => true
  | node _ _ _ => false

def height : NTree α → Nat
  | tip _ => 0
  | node _ l r => max l.height r.height + 1

/-- The labels, and whether they are those of leaves: a node is a leaf if its sibling has
no nieces.  Whether the top is one is given. -/
def flagged (leaf : Bool) : NTree α → NTree (α × Bool)
  | tip a => tip (a, leaf)
  | node a l r => node (a, leaf) (l.flagged r.isTip) (r.flagged l.isTip)

/-- The labels of leaves. -/
def leafLabels (leaf : Bool) (t : NTree α) : List α :=
  ((t.flagged leaf).labels.filter Prod.snd).map Prod.fst

/-- The first `k` nodes, a node before its nieces.  A niece that is missing is replaced by
a node without nieces. -/
def cut (x : α) : Nat → NTree α → NTree α
  | 0, _ => tip x
  | _ + 1, tip a => tip a
  | k + 1, node a l r => node a (l.cut x k) (r.cut x (k - l.labels.length))

/-- The first `k` nodes of several trees. -/
def cutAll (x : α) : Nat → List (NTree α) → List (NTree α)
  | _, [] => []
  | k, t :: ts => t.cut x k :: cutAll x (k - t.labels.length) ts

/-- The label that one comes to by going to the right or to the left. -/
def walk : List Bool → NTree α → Option α
  | [], t => some t.top
  | _ :: _, tip _ => none
  | right :: q, node _ l r => if right then r.walk q else l.walk q

@[simp] theorem top_tip (a : α) : (tip a).top = a := rfl

@[simp] theorem top_node (a : α) (l r : NTree α) : (node a l r).top = a := rfl

@[simp] theorem map_top (f : α → β) (t : NTree α) : (t.map f).top = f t.top := by cases t <;> rfl

@[simp] theorem map_isTip (f : α → β) (t : NTree α) : (t.map f).isTip = t.isTip := by
  cases t <;> rfl

@[simp] theorem map_labels (f : α → β) (t : NTree α) : (t.map f).labels = t.labels.map f := by
  induction t with
  | tip a => rfl
  | node a l r hl hr => simp [map, labels, hl, hr]

theorem map_map {γ : Type} (f : α → β) (g : β → γ) (t : NTree α) :
    (t.map f).map g = t.map (g ∘ f) := by
  induction t with
  | tip a => rfl
  | node a l r hl hr => simp [map, hl, hr]

theorem map_id' (t : NTree α) : (t.map fun a => a) = t := by
  induction t with
  | tip a => rfl
  | node a l r hl hr => rw [map, hl, hr]

@[simp] theorem map_fst_flagged (leaf : Bool) (t : NTree α) :
    (t.flagged leaf).map Prod.fst = t := by
  induction t generalizing leaf with
  | tip a => rfl
  | node a l r hl hr => simp [map, flagged, hl, hr]

@[simp] theorem length_labels_flagged (leaf : Bool) (t : NTree α) :
    (t.flagged leaf).labels.length = t.labels.length := by
  conv_rhs => rw [← t.map_fst_flagged leaf, map_labels, List.length_map]

@[simp] theorem isTip_flagged (leaf : Bool) (t : NTree α) :
    (t.flagged leaf).isTip = t.isTip := by
  cases t <;> rfl

@[simp] theorem leafLabels_tip (leaf : Bool) (a : α) :
    (tip a).leafLabels leaf = if leaf then [a] else [] := by
  cases leaf <;> rfl

@[simp] theorem leafLabels_node (leaf : Bool) (a : α) (l r : NTree α) :
    (node a l r).leafLabels leaf =
      (if leaf then [a] else []) ++ (l.leafLabels r.isTip ++ r.leafLabels l.isTip) := by
  cases leaf <;> simp [leafLabels, flagged, labels]

theorem top_mem (t : NTree α) : t.top ∈ t.labels := by cases t <;> simp [top, labels]

theorem height_lt (t : NTree α) : t.height < t.labels.length := by
  induction t with
  | tip a => simp [height, labels]
  | node a l r hl hr => simp [height, labels]; omega

/-! ### Some of the nodes -/

theorem cut_of_le {x : α} {k : Nat} {t : NTree α} (h : t.labels.length ≤ k) : t.cut x k = t := by
  induction t generalizing k with
  | tip a =>
    obtain ⟨k, rfl⟩ : ∃ j, k = j + 1 := ⟨k - 1, by simp [labels] at h; omega⟩
    rfl
  | node a l r hl hr =>
    simp only [labels, List.length_cons, List.length_append] at h
    obtain ⟨k, rfl⟩ : ∃ j, k = j + 1 := ⟨k - 1, by omega⟩
    rw [cut, hl (by omega), hr (by omega)]

/-- The labels that are left come first. -/
theorem labels_cut (x : α) (k : Nat) (t : NTree α) :
    ∃ m, (t.cut x k).labels = t.labels.take k ++ List.replicate m x := by
  induction t generalizing k with
  | tip a =>
    cases k with
    | zero => exact ⟨1, rfl⟩
    | succ k => exact ⟨0, by simp [cut, labels]⟩
  | node a l r hl hr =>
    cases k with
    | zero => exact ⟨1, rfl⟩
    | succ k =>
      obtain ⟨m, hm⟩ := hl k
      obtain ⟨m', hm'⟩ := hr (k - l.labels.length)
      rw [cut, labels, hm']
      by_cases hk : l.labels.length ≤ k
      · exact ⟨m', by simp [cut_of_le hk, labels, List.take_append, List.take_of_length_le hk]⟩
      · rw [hm, Nat.sub_eq_zero_of_le (by omega)]
        refine ⟨m + m', ?_⟩
        simp [labels, List.take_append, Nat.sub_eq_zero_of_le (show k ≤ l.labels.length by omega),
          List.replicate_append_replicate]

@[simp] theorem length_cutAll (x : α) (k : Nat) (ts : List (NTree α)) :
    (cutAll x k ts).length = ts.length := by
  induction ts generalizing k with
  | nil => rfl
  | cons t ts ih => simp [cutAll, ih]

theorem labels_cutAll (x : α) (k : Nat) (ts : List (NTree α)) :
    ∃ m, (cutAll x k ts).flatMap labels = (ts.flatMap labels).take k ++ List.replicate m x := by
  induction ts generalizing k with
  | nil => exact ⟨0, by simp [cutAll]⟩
  | cons t ts ih =>
    obtain ⟨m, hm⟩ := t.labels_cut x k
    obtain ⟨m', hm'⟩ := ih (k - t.labels.length)
    rw [cutAll, List.flatMap_cons, List.flatMap_cons, hm']
    by_cases hk : t.labels.length ≤ k
    · exact ⟨m', by simp [cut_of_le hk, List.take_append, List.take_of_length_le hk]⟩
    · rw [hm, Nat.sub_eq_zero_of_le (by omega)]
      refine ⟨m + m', ?_⟩
      simp [List.take_append, Nat.sub_eq_zero_of_le (show k ≤ t.labels.length by omega),
        List.replicate_append_replicate]

/-! ### Ways down -/

theorem map_walk (f : α → β) (q : List Bool) (t : NTree α) :
    (t.map f).walk q = (t.walk q).map f := by
  induction t generalizing q with
  | tip a => cases q <;> rfl
  | node a l r hl hr =>
    cases q with
    | nil => rfl
    | cons right q => cases right <;> simp [map, walk, hl, hr]

theorem exists_walk {a : α} {t : NTree α} (h : a ∈ t.labels) : ∃ q, t.walk q = some a := by
  induction t with
  | tip b =>
    obtain rfl : a = b := by simpa [labels] using h
    exact ⟨[], rfl⟩
  | node b l r hl hr =>
    rw [labels, List.mem_cons, List.mem_append] at h
    rcases h with rfl | h | h
    · exact ⟨[], rfl⟩
    · obtain ⟨q, hq⟩ := hl h
      exact ⟨false :: q, hq⟩
    · obtain ⟨q, hq⟩ := hr h
      exact ⟨true :: q, hq⟩

/-- The way to a label that is not among the first `k`. -/
theorem walk_cut {x a : α} {k : Nat} {t : NTree α} (h : a ∈ t.labels.drop k) :
    ∃ q, t.walk q = some a ∧ ∀ b, (t.cut x k).walk q = some b → b = x := by
  have hzero : ∀ q b, (tip x).walk q = some b → b = x := by
    intro q b hb
    cases q with
    | nil => exact (Option.some.inj hb).symm
    | cons right q => cases hb
  induction t generalizing k with
  | tip c =>
    cases k with
    | zero =>
      obtain ⟨q, hq⟩ := exists_walk h
      exact ⟨q, hq, hzero q⟩
    | succ k => simp [labels] at h
  | node c l r hl hr =>
    cases k with
    | zero =>
      obtain ⟨q, hq⟩ := exists_walk h
      exact ⟨q, hq, hzero q⟩
    | succ k =>
      rw [labels, List.drop_succ_cons, List.drop_append, List.mem_append] at h
      rcases h with h | h
      · obtain ⟨q, h1, h2⟩ := hl h
        exact ⟨false :: q, h1, h2⟩
      · obtain ⟨q, h1, h2⟩ := hr h
        exact ⟨true :: q, h1, h2⟩

theorem walk_cutAll {x a : α} {k : Nat} {ts : List (NTree α)}
    (h : a ∈ (ts.flatMap labels).drop k) :
    ∃ (i : Nat) (t t' : NTree α) (q : List Bool), ts[i]? = some t ∧ t.walk q = some a ∧
      (cutAll x k ts)[i]? = some t' ∧ ∀ b, t'.walk q = some b → b = x := by
  induction ts generalizing k with
  | nil => simp at h
  | cons t ts ih =>
    rw [List.flatMap_cons, List.drop_append, List.mem_append] at h
    rcases h with h | h
    · obtain ⟨q, h1, h2⟩ := walk_cut (x := x) h
      exact ⟨0, t, _, q, rfl, h1, rfl, h2⟩
    · obtain ⟨i, u, u', q, h1, h2, h3, h4⟩ := ih h
      exact ⟨i + 1, u, u', q, h1, h2, h3, h4⟩

end NTree

section
variable {H : Type} {h : Heap H}

/-- The pointers and the hash of a node. -/
structure CellIs (n : PolNode H) (l r aunt : Option Addr) (d : H) : Prop where
  lNiece : n.lNiece = l
  rNiece : n.rNiece = r
  aunt : n.aunt = aunt
  data : n.data = d

/-- The nodes of the tree point down to each other and back up. -/
def NRep (h : Heap H) (aunt : Option Addr) : NTree (Addr × H) → Prop
  | .tip a => CellIs (h.get a.1) none none aunt a.2
  | .node a l r => CellIs (h.get a.1) (some l.top.1) (some r.top.1) aunt a.2 ∧
    NRep h (some a.1) l ∧ NRep h (some a.1) r

theorem NRep.data {aunt : Option Addr} {t : NTree (Addr × H)} (hr : NRep h aunt t) :
    (h.get t.top.1).data = t.top.2 := by
  cases t with
  | tip a => exact CellIs.data hr
  | node a l r => exact hr.1.data

theorem NRep.aunt {aunt : Option Addr} {t : NTree (Addr × H)} (hr : NRep h aunt t) :
    (h.get t.top.1).aunt = aunt := by
  cases t with
  | tip a => exact CellIs.aunt hr
  | node a l r => exact hr.1.aunt

/-- A node has no nieces or both. -/
theorem NRep.isTip {aunt : Option Addr} {t : NTree (Addr × H)} (hr : NRep h aunt t) :
    ((h.get t.top.1).lNiece.isNone && (h.get t.top.1).rNiece.isNone) = t.isTip := by
  cases t with
  | tip a =>
    have hr : CellIs (h.get a.1) none none aunt a.2 := hr
    simp [NTree.top, NTree.isTip, hr.lNiece, hr.rNiece]
  | node a l r => simp [NTree.top, NTree.isTip, hr.1.lNiece]

/-- What happens to other nodes does not matter. -/
theorem NRep.congr {h' : Heap H} {aunt : Option Addr} {t : NTree (Addr × H)} (hr : NRep h aunt t)
    (heq : ∀ a ∈ t.labels, h'.get a.1 = h.get a.1) : NRep h' aunt t := by
  induction t generalizing aunt with
  | tip a =>
    have hr : CellIs (h.get a.1) none none aunt a.2 := hr
    show CellIs (h'.get a.1) none none aunt a.2
    rwa [heq a (by simp [NTree.labels])]
  | node a l r ihl ihr =>
    obtain ⟨hcell, hl, hr⟩ := hr
    refine ⟨?_, ihl hl fun b hb => heq b ?_, ihr hr fun b hb => heq b ?_⟩
    · rwa [heq a (by simp [NTree.labels])]
    · simp [NTree.labels, hb]
    · simp [NTree.labels, hb]

/-- The hash at the end of a way. -/
theorem NRep.walk {aunt : Option Addr} {t : NTree (Addr × H)} (hr : NRep h aunt t) {q : List Bool}
    {e : Addr × H} (he : t.walk q = some e) : (h.get e.1).data = e.2 := by
  induction t generalizing aunt q with
  | tip a =>
    cases q with
    | nil =>
      obtain rfl := Option.some.inj he
      exact hr.data
    | cons right q => cases he
  | node a l r ihl ihr =>
    cases q with
    | nil =>
      obtain rfl := Option.some.inj he
      exact hr.data
    | cons right q =>
      cases right with
      | false => exact ihl hr.2.1 he
      | true => exact ihr hr.2.2 he

/-! ### The trees of the forest -/

section Shape
variable [HashOps H]

/-- The hashes along the nieces of a node that owns the children of the tree. -/
def nieceShape (d : H) : CTree H → NTree H
  | .leaf _ => .tip d
  | .node l r => .node d (nieceShape (treeHash l) r) (nieceShape (treeHash r) l)

/-- The hashes along the nieces of a root. -/
def rootShape : Option (CTree H) → NTree H
  | none => .tip empty
  | some t => nieceShape (treeHash t) t

/-- The nieces of a node that owns the children of the tree. -/
def PTree.nieces (top : Addr × H) : PTree H → NTree (Addr × H)
  | .leaf _ _ => .tip top
  | .node _ l r =>
    .node top (r.nieces (l.addr, treeHash l.tree)) (l.nieces (r.addr, treeHash r.tree))

/-- The nieces of a root. -/
def PRoot.nieces : PRoot H → NTree (Addr × H)
  | .vacant a => .tip (a, empty)
  | .full t => t.nieces (t.addr, treeHash t.tree)

@[simp] theorem PTree.top_nieces (top : Addr × H) (t : PTree H) : (t.nieces top).top = top := by
  cases t <;> rfl

@[simp] theorem PRoot.top_nieces (R : PRoot H) : R.nieces.top = (R.addr, hashOpt R.opt) := by
  cases R with
  | vacant a => rfl
  | full t => exact t.top_nieces _

@[simp] theorem PTree.nieces_withAddr (top : Addr × H) (b : Addr) (t : PTree H) :
    (t.withAddr b).nieces top = t.nieces top := by
  cases t <;> rfl

theorem PTree.map_nieces (top : Addr × H) (t : PTree H) :
    (t.nieces top).map Prod.snd = nieceShape top.2 t.tree := by
  induction t generalizing top with
  | leaf a x => rfl
  | node a l r hl hr => simp [PTree.nieces, NTree.map, PTree.tree, nieceShape, hl, hr]

theorem PRoot.map_nieces (R : PRoot H) : R.nieces.map Prod.snd = rootShape R.opt := by
  cases R with
  | vacant a => rfl
  | full t => exact t.map_nieces _

/-- The hashes of the children. -/
def KidsData (h : Heap H) : PTree H → Prop
  | .leaf _ _ => True
  | .node _ l r => Data h l ∧ Data h r

theorem Data.kids {t : PTree H} (hd : Data h t) : KidsData h t := by
  cases t with
  | leaf a x => trivial
  | node a l r => exact hd.2

theorem KidsData.toData {t : PTree H} (hk : KidsData h t)
    (hd : (h.get t.addr).data = treeHash t.tree) : Data h t := by
  cases t with
  | leaf a x => exact hd
  | node a l r => exact ⟨hd, hk⟩

/-- **The pointers of a tree of the forest are those of its nieces.** -/
theorem nrep_nieces {o : Addr} {d : H} {aunt : Option Addr} {t : PTree H} :
    NRep h aunt (t.nieces (o, d)) ↔
      Links h o t ∧ (h.get o).aunt = aunt ∧ (h.get o).data = d ∧ KidsData h t := by
  induction t generalizing o d aunt with
  | leaf a x =>
    constructor
    · intro hr
      have hr : CellIs (h.get o) none none aunt d := hr
      exact ⟨⟨hr.lNiece, hr.rNiece⟩, hr.aunt, hr.data, trivial⟩
    · rintro ⟨⟨hl, hr⟩, haunt, hd, -⟩
      exact ⟨hl, hr, haunt, hd⟩
  | node a l r ihl ihr =>
    rw [PTree.nieces, NRep, ihl, ihr, PTree.top_nieces, PTree.top_nieces]
    constructor
    · rintro ⟨hcell, ⟨hr, hla, hld, hrk⟩, hl, hra, hrd, hlk⟩
      exact ⟨⟨⟨hcell.lNiece, hcell.rNiece⟩, ⟨hla, hra⟩, hl, hr⟩, hcell.aunt, hcell.data,
        hlk.toData hld, hrk.toData hrd⟩
    · rintro ⟨⟨⟨hln, hrn⟩, ⟨hla, hra⟩, hl, hr⟩, haunt, hd, hld, hrd⟩
      exact ⟨⟨hln, hrn, haunt, hd⟩, ⟨hr, hla, hld.hash, hrd.kids⟩, hl, hra, hrd.hash, hld.kids⟩

/-- A root and its nieces. -/
theorem rootOk_iff_nrep {R : PRoot H} : RootOk h R ↔ NRep h none R.nieces := by
  cases R with
  | vacant a =>
    constructor
    · rintro ⟨⟨hl, hr⟩, haunt, hd⟩
      exact ⟨hl, hr, haunt, hd⟩
    · intro hr
      have hr : CellIs (h.get a) none none none empty := hr
      exact ⟨⟨hr.lNiece, hr.rNiece⟩, hr.aunt, hr.data⟩
  | full t =>
    rw [PRoot.nieces, nrep_nieces]
    constructor
    · rintro ⟨⟨haunt, hl⟩, hd⟩
      exact ⟨hl, haunt, hd.hash, hd.kids⟩
    · rintro ⟨hl, haunt, hd, hk⟩
      exact ⟨⟨haunt, hl⟩, hk.toData hd⟩

/-- The addresses of the nodes. -/
theorem PTree.addrs_nieces (top : Addr × H) (t : PTree H) :
    ((t.nieces top).labels.map Prod.fst).Perm (top.1 :: t.desc) := by
  induction t generalizing top with
  | leaf a x => exact List.Perm.refl _
  | node a l r hl hr =>
    rw [PTree.nieces, NTree.labels, List.map_cons, List.map_append, PTree.desc, l.addrs_eq,
      r.addrs_eq]
    refine ((hr _).append (hl _)).cons _ |>.trans (List.Perm.cons _ ?_)
    refine List.Perm.cons _ (List.perm_middle.trans ?_)
    exact (List.perm_append_comm.cons _).trans List.perm_middle.symm

theorem PRoot.addrs_nieces (R : PRoot H) : (R.nieces.labels.map Prod.fst).Perm R.addrs := by
  cases R with
  | vacant a => exact List.Perm.refl _
  | full t =>
    rw [PRoot.addrs, t.addrs_eq]
    exact t.addrs_nieces _

/-- Whether the tree is a leaf. -/
def PTree.isLeaf : PTree H → Bool
  | .leaf _ _ => true
  | .node _ _ _ => false

@[simp] theorem PTree.isTip_nieces (top : Addr × H) (t : PTree H) :
    (t.nieces top).isTip = t.isLeaf := by
  cases t <;> rfl

/-- The leaves of a tree: the node itself or those below it. -/
theorem PTree.cells_eq (t : PTree H) : t.cells =
    (if t.isLeaf then [(t.addr, treeHash t.tree)] else []) ++ if t.isLeaf then [] else t.cells := by
  cases t <;> simp [PTree.isLeaf, PTree.cells, PTree.addr, PTree.tree, treeHash, CTree.value]

/-- The leaves among the nieces. -/
theorem PTree.leafLabels_nieces (leaf : Bool) (top : Addr × H) (t : PTree H) :
    ((t.nieces top).leafLabels leaf).Perm ((if leaf then [top] else []) ++
      if t.isLeaf then [] else t.cells) := by
  induction t generalizing leaf top with
  | leaf a x =>
    simp [PTree.nieces, PTree.isLeaf]
  | node a l r hl hr =>
    rw [PTree.nieces, NTree.leafLabels_node, PTree.isTip_nieces, PTree.isTip_nieces]
    refine List.Perm.append_left _ (((hr _ _).append (hl _ _)).trans ?_)
    rw [PTree.isLeaf, if_neg Bool.false_ne_true, PTree.cells]
    conv_rhs => rw [l.cells_eq, r.cells_eq]
    generalize (if l.isLeaf then [(l.addr, treeHash l.tree)] else []) = ownL
    generalize (if r.isLeaf then [(r.addr, treeHash r.tree)] else []) = ownR
    rw [List.append_assoc, List.append_assoc]
    refine List.Perm.append_left _ ?_
    rw [← List.append_assoc]
    exact (List.perm_append_comm).trans (List.Perm.append_left _ List.perm_append_comm)

theorem PRoot.leafLabels_nieces {t : PTree H} :
    ((PRoot.full t).nieces.leafLabels t.isLeaf).Perm t.cells := by
  conv_rhs => rw [t.cells_eq]
  exact t.leafLabels_nieces _ _

@[simp] theorem top_nieceShape (d : H) (T : CTree H) : (nieceShape d T).top = d := by
  cases T <;> rfl

theorem top_of_shape {T : CTree H} {d : H} {nt : NTree (Addr × H)}
    (hnt : nt.map Prod.snd = nieceShape d T) : (nt.top.1, d) = nt.top := by
  have := congrArg NTree.top hnt
  rw [NTree.map_top, top_nieceShape] at this
  rw [← this]

/-- Nieces with the hashes of a tree of the forest are those of such a tree. -/
theorem exists_nieces {T : CTree H} {d : H} {nt : NTree (Addr × H)}
    (hnt : nt.map Prod.snd = nieceShape d T) :
    ∃ t : PTree H, t.tree = T ∧ t.nieces nt.top = nt := by
  induction T generalizing d nt with
  | leaf x =>
    cases nt with
    | tip a => exact ⟨.leaf 0 x, rfl, rfl⟩
    | node a l r => cases hnt
  | node L R ihL ihR =>
    cases nt with
    | tip a => cases hnt
    | node a l r =>
      simp only [NTree.map, nieceShape, NTree.node.injEq] at hnt
      obtain ⟨-, hl, hr⟩ := hnt
      obtain ⟨tr, htr, hnr⟩ := ihR hl
      obtain ⟨tl, htl, hnl⟩ := ihL hr
      have hltop := top_of_shape hl
      have hrtop := top_of_shape hr
      refine ⟨.node 0 (tl.withAddr l.top.1) (tr.withAddr r.top.1), ?_, ?_⟩
      · simp [PTree.tree, htl, htr]
      · rw [PTree.nieces, PTree.nieces_withAddr, PTree.nieces_withAddr, PTree.withAddr_addr,
          PTree.withAddr_addr, PTree.withAddr_tree, PTree.withAddr_tree, htl, htr, hltop, hrtop,
          hnl, hnr]
        rfl

/-- **Nieces with the hashes of a root of the forest are those of such a root.** -/
theorem exists_root_nieces {o : Option (CTree H)} {nt : NTree (Addr × H)}
    (hnt : nt.map Prod.snd = rootShape o) : ∃ R : PRoot H, R.opt = o ∧ R.nieces = nt := by
  cases o with
  | none =>
    cases nt with
    | tip a =>
      have ha : a.2 = empty := NTree.tip.inj hnt
      exact ⟨.vacant a.1, rfl, by rw [PRoot.nieces, ← ha]⟩
    | node a l r => cases hnt
  | some T =>
    obtain ⟨t, rfl, ht⟩ := exists_nieces hnt
    refine ⟨.full (t.withAddr nt.top.1), ?_, ?_⟩
    · rw [PRoot.opt, PTree.withAddr_tree]
    · rw [PRoot.nieces, PTree.nieces_withAddr, PTree.withAddr_addr, PTree.withAddr_tree,
        top_of_shape hnt, ht]

end Shape

end

end Utreexo
