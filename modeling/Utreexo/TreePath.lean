import Utreexo.CollapsedTree

/-! # Paths in collapsed trees

A path says at every node whether to turn right, from the root on.  `subAt` is the
subtree at the end of a path; `removeAt` takes it out, which moves its sibling up to
the place of their parent.  Taking out a subtree deletes its leaves
(`removeAt_eq_prune`).
-/
namespace Merkle
namespace CTree
variable {α : Type}

/-- One of the two children. -/
def child (b : Bool) : CTree α → Option (CTree α)
  | leaf _ => none
  | node l r => some (if b then r else l)

/-- The subtree at the end of a path. -/
def subAt : CTree α → List Bool → Option (CTree α)
  | t, [] => some t
  | leaf _, _ :: _ => none
  | node l r, b :: p => subAt (if b then r else l) p

@[simp] theorem subAt_nil (t : CTree α) : t.subAt [] = some t := by cases t <;> rfl

@[simp] theorem subAt_leaf (a : α) (b : Bool) (p : List Bool) :
    (leaf a).subAt (b :: p) = none := rfl

theorem subAt_node (l r : CTree α) (b : Bool) (p : List Bool) :
    (node l r).subAt (b :: p) = (if b then r else l).subAt p := rfl

theorem subAt_append (t : CTree α) (p q : List Bool) :
    t.subAt (p ++ q) = (t.subAt p).bind (·.subAt q) := by
  induction p generalizing t with
  | nil => simp
  | cons b p ih =>
    cases t with
    | leaf a => rfl
    | node l r => exact ih _

theorem subAt_singleton (t : CTree α) (b : Bool) : t.subAt [b] = t.child b := by
  cases t with
  | leaf a => rfl
  | node l r => simp [subAt_node, child]

theorem subAt_concat (t : CTree α) (p : List Bool) (b : Bool) :
    t.subAt (p ++ [b]) = (t.subAt p).bind (child b) := by
  rw [subAt_append]
  exact congrArg _ (funext fun s => subAt_singleton s b)

/-- What is below a place is a sublist of all leaves. -/
theorem leaves_subAt {t s : CTree α} {p : List Bool} (h : t.subAt p = some s) :
    s.leaves.Sublist t.leaves := by
  induction p generalizing t with
  | nil => cases (subAt_nil t).symm.trans h; exact List.Sublist.refl _
  | cons b p ih =>
    cases t with
    | leaf a => cases h
    | node l r =>
      have := ih h
      cases b with
      | false => exact this.trans (List.sublist_append_left _ _)
      | true => exact this.trans (List.sublist_append_right _ _)

/-- Every leaf has a place. -/
theorem exists_path_of_mem {t : CTree α} {a : α} (h : a ∈ t.leaves) :
    ∃ p, t.subAt p = some (leaf a) := by
  induction t with
  | leaf b => exact ⟨[], by simpa [leaves, eq_comm] using h⟩
  | node l r ihl ihr =>
    rcases List.mem_append.mp h with h | h
    · obtain ⟨p, hp⟩ := ihl h
      exact ⟨false :: p, hp⟩
    · obtain ⟨p, hp⟩ := ihr h
      exact ⟨true :: p, hp⟩

theorem mem_leaves_of_subAt {t : CTree α} {a : α} {p : List Bool}
    (h : t.subAt p = some (leaf a)) : a ∈ t.leaves :=
  (leaves_subAt h).subset (by simp [leaves])

/-- A leaf has one place if no two leaves are equal. -/
theorem path_unique {t : CTree α} (hnd : t.leaves.Nodup) {a : α} {p q : List Bool}
    (hp : t.subAt p = some (leaf a)) (hq : t.subAt q = some (leaf a)) : p = q := by
  induction t generalizing p q with
  | leaf b =>
    cases p with
    | nil => cases q with
      | nil => rfl
      | cons c q => cases hq
    | cons c p => cases hp
  | node l r ihl ihr =>
    obtain ⟨hl, hr, hdis⟩ := List.nodup_append.mp hnd
    cases p with
    | nil => cases hp
    | cons b p => cases q with
      | nil => cases hq
      | cons c q =>
        rw [subAt_node] at hp hq
        have h1 := mem_leaves_of_subAt hp
        have h2 := mem_leaves_of_subAt hq
        cases b <;> cases c
        · rw [ihl hl hp hq]
        · exact absurd rfl (hdis a h1 a h2)
        · exact absurd rfl (hdis a h2 a h1)
        · rw [ihr hr hp hq]

/-- A tree over `2 ^ h` slots is at most `h` deep. -/
theorem length_le_of_subAt_perfect {slots : Nat → Option α} {h lo : Nat} {t s : CTree α}
    {p : List Bool} (ht : perfect slots h lo = some t) (hp : t.subAt p = some s) :
    p.length ≤ h := by
  induction h generalizing lo t p with
  | zero =>
    obtain ⟨a, _, rfl⟩ := Option.map_eq_some_iff.mp ht
    cases p with
    | nil => exact Nat.zero_le _
    | cons b p => cases hp
  | succ h ih =>
    rw [perfect] at ht
    cases hl : perfect slots h lo with
    | none =>
      rw [hl, join_none_left] at ht
      exact Nat.le_succ_of_le (ih ht hp)
    | some l =>
      cases hr : perfect slots h (lo + 2 ^ h) with
      | none =>
        rw [hr, join_none_right] at ht
        exact Nat.le_succ_of_le (ih ht hp)
      | some r =>
        rw [hl, hr] at ht
        cases ht
        cases p with
        | nil => exact Nat.zero_le _
        | cons b p =>
          rw [subAt_node] at hp
          rw [List.length_cons]
          cases b with
          | false => exact Nat.succ_le_succ (ih hl hp)
          | true => exact Nat.succ_le_succ (ih hr hp)

/-! ### Changing one place -/

/-- Changes the subtree at the end of a path. -/
def updateAt (f : CTree α → CTree α) : List Bool → CTree α → CTree α
  | [], t => f t
  | _ :: _, leaf a => leaf a
  | false :: p, node l r => node (l.updateAt f p) r
  | true :: p, node l r => node l (r.updateAt f p)

@[simp] theorem updateAt_nil (f : CTree α → CTree α) (t : CTree α) : t.updateAt f [] = f t := by
  cases t <;> rfl

theorem subAt_updateAt (f : CTree α → CTree α) (t : CTree α) (p q : List Bool) :
    (t.updateAt f p).subAt (p ++ q) = (t.subAt p).bind fun s => (f s).subAt q := by
  induction p generalizing t with
  | nil => simp
  | cons b p ih =>
    cases t with
    | leaf a => rfl
    | node l r => cases b <;> exact ih _

/-- Above the changed place, the subtree is changed at the rest of the path. -/
theorem subAt_updateAt_above (f : CTree α → CTree α) (t : CTree α) (p q : List Bool) :
    (t.updateAt f (p ++ q)).subAt p = (t.subAt p).map (updateAt f q) := by
  induction p generalizing t with
  | nil => simp
  | cons b p ih =>
    cases t with
    | leaf a => rfl
    | node l r => cases b <;> exact ih _

/-- A place that is neither above nor below the changed one keeps its subtree. -/
theorem subAt_updateAt_of_not_prefix (f : CTree α → CTree α) (t : CTree α) {p q : List Bool}
    (hpq : ¬ p <+: q) (hqp : ¬ q <+: p) : (t.updateAt f p).subAt q = t.subAt q := by
  induction p generalizing t q with
  | nil => exact absurd List.nil_prefix hpq
  | cons c p ih =>
    cases q with
    | nil => exact absurd List.nil_prefix hqp
    | cons d q =>
      cases t with
      | leaf a => cases c <;> rfl
      | node l r =>
        by_cases hcd : c = d
        · subst hcd
          have hpq' : ¬ p <+: q := fun h => hpq (List.cons_prefix_cons.mpr ⟨rfl, h⟩)
          have hqp' : ¬ q <+: p := fun h => hqp (List.cons_prefix_cons.mpr ⟨rfl, h⟩)
          cases c <;> exact ih _ hpq' hqp'
        · cases c <;> cases d <;> first | rfl | exact absurd rfl hcd

theorem updateAt_updateAt (f g : CTree α → CTree α) (t : CTree α) (p : List Bool) :
    (t.updateAt f p).updateAt g p = t.updateAt (g ∘ f) p := by
  induction p generalizing t with
  | nil => simp
  | cons b p ih =>
    cases t with
    | leaf a => cases b <;> rfl
    | node l r => cases b <;> simp only [updateAt, ih]

/-- Only the subtree at the place matters. -/
theorem updateAt_congr {f g : CTree α → CTree α} {t : CTree α} {p : List Bool}
    (h : ∀ s, t.subAt p = some s → f s = g s) : t.updateAt f p = t.updateAt g p := by
  induction p generalizing t with
  | nil => simpa using h t (by simp)
  | cons b p ih =>
    cases t with
    | leaf a => cases b <;> rfl
    | node l r =>
      cases b with
      | false => simp only [updateAt, ih (t := l) h]
      | true => simp only [updateAt, ih (t := r) h]

theorem updateAt_id (t : CTree α) (p : List Bool) : t.updateAt id p = t := by
  induction p generalizing t with
  | nil => simp
  | cons b p ih =>
    cases t with
    | leaf a => cases b <;> rfl
    | node l r => cases b <;> simp only [updateAt, ih]

/-! ### Taking out a subtree -/

/-- The tree without the subtree at the end of a path. -/
def removeAt : CTree α → List Bool → Option (CTree α)
  | _, [] => none
  | leaf a, _ :: _ => some (leaf a)
  | node l r, false :: p => join (l.removeAt p) (some r)
  | node l r, true :: p => join (some l) (r.removeAt p)

@[simp] theorem removeAt_nil (t : CTree α) : t.removeAt [] = none := by cases t <;> rfl

/-- Replaces a node by the sibling of its child. -/
def lift (b : Bool) : CTree α → CTree α
  | leaf a => leaf a
  | node l r => if b then l else r

/-- The sibling of what is taken out moves up to the place of their parent. -/
theorem removeAt_concat (t : CTree α) (p : List Bool) (b : Bool) :
    t.removeAt (p ++ [b]) = some (t.updateAt (lift b) p) := by
  induction p generalizing t with
  | nil =>
    cases t with
    | leaf a => rfl
    | node l r => cases b <;> simp [removeAt, lift]
  | cons c p ih =>
    cases t with
    | leaf a => cases c <;> rfl
    | node l r => cases c <;> simp [removeAt, updateAt, ih]

theorem prune_of_all_dead {dead : α → Bool} {t : CTree α} (h : ∀ a ∈ t.leaves, dead a = true) :
    t.prune dead = none := by
  induction t with
  | leaf a => simp [prune, h a (by simp [leaves])]
  | node l r ihl ihr =>
    rw [prune, ihl fun a ha => h a (by simp [leaves, ha]),
      ihr fun a ha => h a (by simp [leaves, ha]), join_none_left]

/-- Taking out a subtree deletes its leaves. -/
theorem removeAt_eq_prune [DecidableEq α] {t s : CTree α} {p : List Bool}
    (hnd : t.leaves.Nodup) (h : t.subAt p = some s) :
    t.removeAt p = t.prune (· ∈ s.leaves) := by
  induction p generalizing t with
  | nil =>
    cases (subAt_nil t).symm.trans h
    rw [removeAt_nil, prune_of_all_dead]
    simp
  | cons b p ih =>
    cases t with
    | leaf a => cases h
    | node l r =>
      obtain ⟨hl, hr, hdis⟩ := List.nodup_append.mp hnd
      rw [subAt_node] at h
      have hsub := (leaves_subAt h).subset
      -- The other child has no leaf in common with the subtree.
      cases b with
      | false =>
        rw [removeAt, ih hl h, prune, prune_of_none_dead (t := r)]
        intro a ha
        exact decide_eq_false fun hs => hdis a (hsub hs) a ha rfl
      | true =>
        rw [removeAt, ih hr h, prune, prune_of_none_dead (t := l)]
        intro a ha
        exact decide_eq_false fun hs => hdis a ha a (hsub hs) rfl

end CTree

end Merkle
