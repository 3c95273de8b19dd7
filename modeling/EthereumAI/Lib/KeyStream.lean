import Mathlib

/-! # Key streams

A stream cipher, such as a block cipher in counter mode, turns its key into a stream of bytes;
`xorKeyStream` adds the stream, from a position on, to a byte string by exclusive or. The same
operation at the same position takes the result back.
-/

namespace EthereumAI.Lib.KeyStream

/-- The bytes of `b` xored with the key stream `ks` from position `pos` on. -/
def xorKeyStream (ks : ℕ → UInt8) (pos : ℕ) (b : List UInt8) : List UInt8 :=
  b.mapIdx fun i x => x ^^^ ks (pos + i)

variable {ks : ℕ → UInt8}

@[simp] theorem length_xorKeyStream (pos : ℕ) (b : List UInt8) :
    (xorKeyStream ks pos b).length = b.length := by
  simp [xorKeyStream]

@[simp] theorem xorKeyStream_xorKeyStream (pos : ℕ) (b : List UInt8) :
    xorKeyStream ks pos (xorKeyStream ks pos b) = b := by
  apply List.ext_getElem (by simp)
  intro i h₁ h₂
  simp only [xorKeyStream, List.getElem_mapIdx]
  rw [UInt8.xor_assoc, UInt8.xor_self, UInt8.xor_zero]

end EthereumAI.Lib.KeyStream
