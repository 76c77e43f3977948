import Mathlib.Data.List.Basic
import Mathlib.Tactic.Ring

/-! # Bytes, words and readers

Little-endian words, and the reader of a file: a request for as many bytes as the
buffer has is filled as far as bytes remain, keeps what the buffer held behind them,
and fails only if no byte remains.

A `Reader` is anything that such requests can be made to.  Code that makes them is
written for any reader, and what it does with a reader that meets all its requests
(`Reader.Delivers`) does not depend on which one it is.
-/
namespace Wire

abbrev Bytes := List UInt8

/-! ### Little-endian words -/

/-- The lowest `w` bytes of `n`, the lowest first. -/
def putLE : Nat → Nat → Bytes
  | 0, _ => []
  | w + 1, n => UInt8.ofNat n :: putLE w (n / 256)

def getLE : Bytes → Nat
  | [] => 0
  | b :: bs => b.toNat + 256 * getLE bs

@[simp] theorem length_putLE (w n : Nat) : (putLE w n).length = w := by
  induction w generalizing n with
  | zero => rfl
  | succ w ih => simp [putLE, ih]

theorem getLE_putLE (w n : Nat) : getLE (putLE w n) = n % 256 ^ w := by
  induction w generalizing n with
  | zero => simp [putLE, getLE, Nat.mod_one]
  | succ w ih =>
    rw [putLE, getLE, ih, Nat.pow_succ', Nat.mod_mul]
    simp

theorem getLE_putLE_of_lt {w n : Nat} (h : n < 256 ^ w) : getLE (putLE w n) = n := by
  rw [getLE_putLE, Nat.mod_eq_of_lt h]

theorem take_putLE {c w : Nat} (h : c ≤ w) (n : Nat) : (putLE w n).take c = putLE c n := by
  induction c generalizing w n with
  | zero => rfl
  | succ c ih =>
    obtain ⟨w, rfl⟩ : ∃ v, w = v + 1 := ⟨w - 1, by omega⟩
    simp only [putLE, List.take_succ_cons]
    rw [ih (by omega)]

theorem getLE_append (a b : Bytes) : getLE (a ++ b) = getLE a + 256 ^ a.length * getLE b := by
  induction a with
  | nil => simp [getLE]
  | cons x a ih =>
    simp only [List.cons_append, getLE, ih, List.length_cons]
    ring

theorem getLE_lt (bs : Bytes) : getLE bs < 256 ^ bs.length := by
  induction bs with
  | nil => simp [getLE]
  | cons b bs ih =>
    have hb : b.toNat < 256 := b.toNat_lt
    rw [getLE, List.length_cons, Nat.pow_succ']
    omega

theorem getLE_replicate_zero (k : Nat) : getLE (List.replicate k 0) = 0 := by
  induction k with
  | zero => rfl
  | succ k ih => simp [List.replicate_succ, getLE, ih]

theorem putLE_zero (w : Nat) : putLE w 0 = List.replicate w 0 := by
  induction w with
  | zero => rfl
  | succ w ih => simp [putLE, ih, List.replicate_succ]

/-! ### The reader of a file -/

/-- Reads into the buffer: what the buffer then holds, and what is left to read. -/
def fill (buf rest : Bytes) : Option (Bytes × Bytes) :=
  if rest = [] then none
  else some (rest.take buf.length ++ buf.drop rest.length, rest.drop buf.length)

variable {buf rest x : Bytes}

@[simp] theorem fill_nil (buf : Bytes) : fill buf [] = none := rfl

/-- A request that can be met. -/
theorem fill_append (hx : x.length = buf.length) (hpos : 0 < buf.length) :
    fill buf (x ++ rest) = some (x, rest) := by
  have hne : x ++ rest ≠ [] := by
    intro h
    rw [List.append_eq_nil_iff] at h
    simp [h.1] at hx
    omega
  rw [fill, if_neg hne, List.length_append, List.drop_eq_nil_of_le (by omega), ← hx,
    List.take_left, List.drop_left, List.append_nil]

/-- A request that the bytes do not meet takes them all. -/
theorem fill_short (hne : rest ≠ []) (h : rest.length ≤ buf.length) :
    fill buf rest = some (rest ++ buf.drop rest.length, []) := by
  rw [fill, if_neg hne, List.take_of_length_le h, List.drop_eq_nil_of_le h]

theorem fill_some {buf' rest' : Bytes} (h : fill buf rest = some (buf', rest')) :
    rest ≠ [] ∧ rest' = rest.drop buf.length ∧ buf'.length = buf.length := by
  unfold fill at h
  split at h
  · cases h
  · next hne =>
    simp only [Option.some.injEq, Prod.mk.injEq] at h
    obtain ⟨rfl, rfl⟩ := h
    refine ⟨hne, rfl, ?_⟩
    simp only [List.length_append, List.length_take, List.length_drop]
    omega

/-! ### Readers -/

/-- A stream of bytes. -/
class Reader (σ : Type) where
  /-- One call: what the buffer then holds, and the stream after the call; `none` at the
  end of the stream. -/
  fill : Bytes → σ → Option (Bytes × σ)
  /-- The number of bytes that are left. -/
  left : σ → Nat

instance : Reader Bytes := ⟨fill, List.length⟩

theorem reader_fill (buf rest : Bytes) : Reader.fill buf rest = fill buf rest := rfl

theorem reader_left (rest : Bytes) : Reader.left rest = rest.length := rfl

namespace Reader
variable {σ : Type} [Reader σ]

/-- A request for as many bytes as `x` has is met with `x`. -/
structure Gives (s : σ) (x : Bytes) (s' : σ) : Prop where
  fill : ∀ {buf : Bytes}, buf.length = x.length → Reader.fill buf s = some (x, s')
  left : left s = left s' + x.length

/-- The next calls are met with these bytes, if they ask for as many. -/
def Delivers : List Bytes → σ → σ → Prop
  | [], s, s' => s' = s
  | x :: xs, s, s' => ∃ s1, Gives s x s1 ∧ Delivers xs s1 s'

theorem delivers_append {xs ys : List Bytes} {s s' : σ} :
    Delivers (xs ++ ys) s s' ↔ ∃ s1, Delivers xs s s1 ∧ Delivers ys s1 s' := by
  induction xs generalizing s with
  | nil =>
    constructor
    · exact fun h => ⟨s, rfl, h⟩
    · rintro ⟨s1, rfl, h⟩
      exact h
  | cons x xs ih =>
    rw [List.cons_append, Delivers]
    simp only [ih, Delivers]
    constructor
    · rintro ⟨s1, h1, s2, h2, h3⟩
      exact ⟨s2, ⟨s1, h1, h2⟩, h3⟩
    · rintro ⟨s2, ⟨s1, h1, h2⟩, h3⟩
      exact ⟨s1, h1, s2, h2, h3⟩

theorem gives_append (hx : x ≠ []) (rest : Bytes) : Gives (x ++ rest) x rest := by
  refine ⟨fun {buf} hbuf => ?_, ?_⟩
  · exact fill_append hbuf.symm (by rw [hbuf]; exact List.length_pos_iff.mpr hx)
  · rw [reader_left, reader_left, List.length_append, Nat.add_comm]

/-- A file delivers its fields. -/
theorem delivers_flatten {xs : List Bytes} (h : ∀ x ∈ xs, x ≠ []) (rest : Bytes) :
    Delivers xs (xs.flatten ++ rest) rest := by
  induction xs with
  | nil => rfl
  | cons x xs ih =>
    obtain ⟨hx, h⟩ := List.forall_mem_cons.mp h
    rw [List.flatten_cons, List.append_assoc]
    exact ⟨_, gives_append hx _, ih h⟩

end Reader

end Wire
