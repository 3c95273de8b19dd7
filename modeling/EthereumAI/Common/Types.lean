import Mathlib

/-! # Common types (`common/types.go`)

Fixed-size byte arrays are read as big-endian numbers below their bound, so that
`common.Hash{}` is `0` and equality is decidable.
-/

namespace EthereumAI

/-- A byte slice. -/
abbrev Bytes := List UInt8

/-- `common.Hash`, 32 bytes. -/
abbrev Hash := Fin (2 ^ 256)

/-- `common.Address`, 20 bytes. -/
abbrev Address := Fin (2 ^ 160)

/-- The bounds are positive, so every numeral is a hash or an address. -/
instance hashBound_neZero : NeZero (2 ^ 256 : ℕ) := ⟨by norm_num⟩

instance addressBound_neZero : NeZero (2 ^ 160 : ℕ) := ⟨by norm_num⟩

end EthereumAI
