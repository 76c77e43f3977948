import Utreexo.Bytes
import Utreexo.Pollard

/-! # Hashes of 32 bytes

What the serializations know of a hash, and a type of such hashes on which they run.
-/
namespace Utreexo
open Wire

/-- A hash is 32 bytes. -/
class HashBytes (H : Type) where
  toBytes : H → Bytes
  ofBytes : Bytes → H
  length_toBytes : ∀ h, (toBytes h).length = 32
  ofBytes_toBytes : ∀ h, ofBytes (toBytes h) = h
  toBytes_ofBytes : ∀ bs, bs.length = 32 → toBytes (ofBytes bs) = bs

export HashBytes (toBytes ofBytes)

attribute [simp] HashBytes.length_toBytes HashBytes.ofBytes_toBytes

/-- Lists of 32 bytes. -/
structure Hash32 where
  bytes : Bytes
  length : bytes.length = 32
  deriving DecidableEq

namespace Hash32

/-- The hash whose bytes are all `b`. -/
def fill (b : UInt8) : Hash32 := ⟨List.replicate 32 b, List.length_replicate⟩

/-- The parent of any two hashes is the same one here: nothing that is run on this type
needs more. -/
instance : HashOps Hash32 where
  empty := fill 0
  one := ⟨1 :: List.replicate 31 0, rfl⟩
  parentHash _ _ := fill 255
  one_ne_empty := by decide

instance : HashBytes Hash32 where
  toBytes h := h.bytes
  ofBytes bs := if h : bs.length = 32 then ⟨bs, h⟩ else fill 0
  length_toBytes h := h.length
  ofBytes_toBytes h := by rw [dif_pos h.length]
  toBytes_ofBytes bs h := by rw [dif_pos h]

/-- The first 12 bytes. -/
instance : MiniHash Hash32 Bytes where
  mini h := h.bytes.take 12

end Hash32

end Utreexo
