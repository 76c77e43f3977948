import Mathlib.Data.List.Sort
import Mathlib.Data.Set.Insert

/-! # Listing a set in order

A list lists a set if it has the elements of the set, each once and in ascending order.
There is at most one such list, so what is said of the set determines the list, and the
operations on sorted lists can be described by what they do to the sets.
-/
namespace Merkle

variable {α : Type} [LinearOrder α]

/-- The list has the elements of the set, each once and in ascending order. -/
structure Listing (l : List α) (S : Set α) : Prop where
  sorted : l.Pairwise (· < ·)
  mem : ∀ a, a ∈ l ↔ a ∈ S

namespace Listing
variable {l l' : List α} {S S' : Set α} {a : α}

/-- A set has only one listing. -/
theorem unique (h : Listing l S) (h' : Listing l' S) : l = l' := by
  have hperm : l.Perm l' :=
    (List.perm_ext_iff_of_nodup (h.sorted.imp ne_of_lt) (h'.sorted.imp ne_of_lt)).mpr fun a => by
      rw [h.mem, h'.mem]
  exact hperm.eq_of_pairwise (fun a b _ _ h1 h2 => absurd h1 (lt_asymm h2)) h.sorted h'.sorted

theorem congr (h : Listing l S) (hS : ∀ a, a ∈ S ↔ a ∈ S') : Listing l S' :=
  ⟨h.sorted, fun a => (h.mem a).trans (hS a)⟩

theorem nodup (h : Listing l S) : l.Nodup := h.sorted.imp ne_of_lt

theorem of_nodup (h : l.Pairwise (· ≤ ·)) (hl : l.Nodup) : Listing l {a | a ∈ l} :=
  ⟨(h.and hl).imp fun ⟨h1, h2⟩ => lt_of_le_of_ne h1 h2, fun _ => Iff.rfl⟩

theorem nil : Listing ([] : List α) ∅ := ⟨.nil, fun a => by simp⟩

theorem of_empty (h : ∀ a, a ∉ S) : Listing [] S := nil.congr fun a => by simp [h a]

/-- The first one is the least, and the others are listed by the rest. -/
theorem tail (h : Listing (a :: l) S) : Listing l (S \ {a}) := by
  obtain ⟨h1, h2⟩ := List.pairwise_cons.mp h.sorted
  refine ⟨h2, fun b => ?_⟩
  rw [Set.mem_sdiff, ← h.mem, List.mem_cons, Set.mem_singleton_iff]
  constructor
  · intro hb
    exact ⟨Or.inr hb, (h1 b hb).ne'⟩
  · rintro ⟨hb | hb, hne⟩
    · exact absurd hb hne
    · exact hb

theorem head_mem (h : Listing (a :: l) S) : a ∈ S := (h.mem a).mp List.mem_cons_self

theorem head_le (h : Listing (a :: l) S) {b : α} (hb : b ∈ S) : a ≤ b := by
  rcases List.mem_cons.mp ((h.mem b).mpr hb) with rfl | hb
  · exact le_refl _
  · exact ((List.pairwise_cons.mp h.sorted).1 b hb).le

/-- What is below the first one is below all. -/
theorem le_of_head? (h : Listing l S) (ha : ∀ b ∈ l.head?, a ≤ b) {b : α} (hb : b ∈ l) : a ≤ b := by
  cases l with
  | nil => cases hb
  | cons c l => exact le_trans (ha c rfl) (h.head_le ((h.mem b).mp hb))

/-- An element above all others is listed last. -/
theorem concat (h : Listing l S) (ha : ∀ b ∈ S, b < a) : Listing (l ++ [a]) (insert a S) := by
  refine ⟨?_, fun b => ?_⟩
  · rw [List.pairwise_append]
    refine ⟨h.sorted, List.pairwise_singleton _ _, fun b hb c hc => ?_⟩
    rw [List.mem_singleton.mp hc]
    exact ha b ((h.mem b).mp hb)
  · rw [List.mem_append, List.mem_singleton, h.mem, Set.mem_insert_iff, or_comm]

theorem filter (h : Listing l S) (P : α → Prop) [DecidablePred P] :
    Listing (l.filter P) {a | a ∈ S ∧ P a} := by
  refine ⟨h.sorted.filter _, fun a => ?_⟩
  rw [List.mem_filter, h.mem, decide_eq_true_iff]
  exact Iff.rfl

end Listing

end Merkle
