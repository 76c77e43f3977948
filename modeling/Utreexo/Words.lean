import Mathlib.Data.Nat.Bitwise
import Mathlib.Tactic.Ring
import Mathlib.Tactic.Linarith

/-! # Machine words and outcomes

Positions, leaf counts and hashes' indexes are `uint64` values and rows are
`uint8` values in the source.  A word is a natural number here, and every
operation that can leave the word wraps explicitly: `shl64`, `add64`, `sub64`
and `not64` for `uint64`, `add8` and `sub8` for `uint8`.  A shift by at least
the word's width gives zero, as it does in the source's language.

A call of the source that does not return goes on forever (`Stop.diverge`) or
stops the program (`Stop.panic`).  `Exec` is the type of a call's outcome; an
error that the source *returns* is an ordinary value of the call.
-/
namespace Utreexo

/-- `a << n` on `uint64`. -/
def shl64 (a n : Nat) : Nat := (a <<< n) % 2 ^ 64

/-- `a + b` on `uint64`. -/
def add64 (a b : Nat) : Nat := (a + b) % 2 ^ 64

/-- `a - b` on `uint64`. -/
def sub64 (a b : Nat) : Nat := (a + (2 ^ 64 - b % 2 ^ 64)) % 2 ^ 64

/-- `^a` on `uint64`. -/
def not64 (a : Nat) : Nat := (2 ^ 64 - 1) ^^^ a

/-- `a + b` on `uint8`. -/
def add8 (a b : Nat) : Nat := (a + b) % 2 ^ 8

/-- `a - b` on `uint8`. -/
def sub8 (a b : Nat) : Nat := (a + (2 ^ 8 - b % 2 ^ 8)) % 2 ^ 8

/-- How a call can fail to return. -/
inductive Stop
  /-- A loop that never ends. -/
  | diverge
  /-- A run-time panic: an index out of range or a nil dereference. -/
  | panic
  deriving DecidableEq, Repr

/-- The outcome of a call. -/
abbrev Exec (α : Type) := Except Stop α

theorem shl64_of_lt {a n : Nat} (h : a * 2 ^ n < 2 ^ 64) : shl64 a n = a * 2 ^ n := by
  rw [shl64, Nat.shiftLeft_eq, Nat.mod_eq_of_lt h]

theorem shl64_eq_zero {a n : Nat} (h : 64 ≤ n) : shl64 a n = 0 := by
  obtain ⟨d, rfl⟩ := Nat.exists_eq_add_of_le h
  rw [shl64, Nat.shiftLeft_eq, Nat.pow_add]
  exact Nat.mod_eq_zero_of_dvd ⟨a * 2 ^ d, by ring⟩

theorem sub64_of_le {a b : Nat} (ha : a < 2 ^ 64) (h : b ≤ a) : sub64 a b = a - b := by
  rw [sub64, Nat.mod_eq_of_lt (Nat.lt_of_le_of_lt h ha)]
  omega

theorem sub8_of_le {a b : Nat} (ha : a < 2 ^ 8) (h : b ≤ a) : sub8 a b = a - b := by
  rw [sub8, Nat.mod_eq_of_lt (Nat.lt_of_le_of_lt h ha)]
  omega

theorem add64_of_lt {a b : Nat} (h : a + b < 2 ^ 64) : add64 a b = a + b := Nat.mod_eq_of_lt h

/-! ### Calls as steps

A call made of two calls returns exactly when both do. -/

namespace Exec
variable {ε α β : Type}

theorem bind_eq_ok {x : Except ε α} {f : α → Except ε β} {b : β} :
    (x >>= f) = .ok b ↔ ∃ a, x = .ok a ∧ f a = .ok b := by
  cases x with
  | error e =>
    constructor
    · intro h; cases h
    · rintro ⟨a, h, _⟩; cases h
  | ok a =>
    constructor
    · intro h; exact ⟨a, rfl, h⟩
    · rintro ⟨a', h, hf⟩; cases h; exact hf

@[simp] theorem ok_bind (a : α) (f : α → Except ε β) : ((.ok a : Except ε α) >>= f) = f a := rfl

@[simp] theorem error_bind (e : ε) (f : α → Except ε β) :
    ((.error e : Except ε α) >>= f) = .error e := rfl

/-- A call returns if it stops in no way. -/
theorem ok_iff_not_error {x : Except ε α} : (∃ a, x = .ok a) ↔ ∀ e, x ≠ .error e := by
  rcases x with e | a <;> simp

@[simp] theorem pure_eq_ok (a : α) : (pure a : Except ε α) = .ok a := rfl

end Exec

end Utreexo
