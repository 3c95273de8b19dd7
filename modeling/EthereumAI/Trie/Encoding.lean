import EthereumAI.Common.Types

/-! # Trie keys (`trie/encoding.go`)

Keys are handled in three encodings: KEYBYTES (the key as given), HEX (one
nibble per byte, with the terminator 16 when the key ends at a value), and
COMPACT (hex-prefix: a flag byte for the terminator and the parity, then two
nibbles per byte), which is how short nodes store their keys on disk.

`compactToHex` and `hexToKeybytes` panic on some inputs; a panic is `none`.
-/

namespace EthereumAI.Trie

/-- `hasTerm`: the key ends with the terminator 16. -/
def hasTerm (s : Bytes) : Bool := s.length > 0 ∧ s.getLastD 0 = 16

/-- `keybytesToHex`: the nibbles of every byte, then the terminator. -/
def keybytesToHex (str : Bytes) : Bytes :=
  (str.flatMap fun b => [b / 16, b % 16]) ++ [16]

/-- `decodeNibbles`: two nibbles per byte. -/
def decodeNibbles : Bytes → Bytes
  | n₁ :: n₂ :: nibbles => (n₁ <<< 4 ||| n₂) :: decodeNibbles nibbles
  | _ => []

/-- `hexToCompact`. -/
def hexToCompact (hex : Bytes) : Bytes :=
  let terminator : UInt8 := if hasTerm hex then 1 else 0
  let hex := if hasTerm hex then hex.dropLast else hex
  -- the flag byte; an odd key keeps its first nibble in it
  if hex.length % 2 = 1 then
    (terminator <<< 5 ||| (1 : UInt8) <<< 4 ||| hex.headD 0) :: decodeNibbles hex.tail
  else
    (terminator <<< 5) :: decodeNibbles hex

/-- `compactToHex`; `base[0]` of an empty key panics. -/
def compactToHex (compact : Bytes) : Option Bytes :=
  let base := (keybytesToHex compact).dropLast
  match base with
  | [] => none
  | b0 :: _ =>
    -- apply terminator flag
    let base := if b0 ≥ 2 then base ++ [16] else base
    -- apply odd flag
    let chop := 2 - (b0 &&& 1)
    some (base.drop chop.toNat)

/-- `hexToKeybytes`; a key of odd length panics. -/
def hexToKeybytes (hex : Bytes) : Option Bytes :=
  let hex := if hasTerm hex then hex.dropLast else hex
  if hex.length % 2 ≠ 0 then none
  else some (decodeNibbles hex)

/-- `prefixLen`: the length of the common prefix. -/
def prefixLen : Bytes → Bytes → ℕ
  | x :: a, y :: b => if x = y then prefixLen a b + 1 else 0
  | _, _ => 0

theorem prefixLen_spec : ∀ a b : Bytes, ∃ p a' b', a = p ++ a' ∧ b = p ++ b' ∧
    p.length = prefixLen a b ∧ ∀ x y r s, a' = x :: r → b' = y :: s → x ≠ y
  | [], b => ⟨[], [], b, rfl, rfl, rfl, fun _ _ _ _ h => by cases h⟩
  | x :: a, [] => ⟨[], x :: a, [], rfl, rfl, rfl, fun _ _ _ _ _ h => by cases h⟩
  | x :: a, y :: b => by
    by_cases hxy : x = y
    · subst hxy
      obtain ⟨p, a', b', rfl, rfl, hp, hne⟩ := prefixLen_spec a b
      exact ⟨x :: p, a', b', rfl, rfl, by simp [prefixLen, hp], hne⟩
    · refine ⟨[], x :: a, y :: b, rfl, rfl, by simp [prefixLen, hxy], ?_⟩
      rintro _ _ _ _ ⟨⟩ ⟨⟩
      exact hxy

/-! ## Round trip of the compact encoding -/

/-- Nibbles: every byte below 16. -/
def Nibbles (ns : Bytes) : Prop := ∀ x ∈ ns, x < 16
theorem nibble_pair : ∀ a b : Fin 16,
    ((a.val.toUInt8 <<< 4 ||| b.val.toUInt8) / 16 = a.val.toUInt8 ∧
      (a.val.toUInt8 <<< 4 ||| b.val.toUInt8) % 16 = b.val.toUInt8) := by
  decide
theorem nibble_of_lt {x : UInt8} (h : x < 16) : ∃ a : Fin 16, x = a.val.toUInt8 :=
  ⟨⟨x.toNat, by simpa [UInt8.lt_iff_toNat_lt] using h⟩, by simp⟩
theorem flatMap_decodeNibbles : ∀ ns : Bytes, Nibbles ns → ns.length % 2 = 0 →
    (decodeNibbles ns).flatMap (fun b => [b / 16, b % 16]) = ns
  | [], _, _ => rfl
  | [_], _, h => by simp at h
  | n₁ :: n₂ :: ns, hn, hl => by
    obtain ⟨a, rfl⟩ := nibble_of_lt (hn n₁ (by simp))
    obtain ⟨b, rfl⟩ := nibble_of_lt (hn n₂ (by simp))
    obtain ⟨h1, h2⟩ := nibble_pair a b
    rw [decodeNibbles, List.flatMap_cons, h1, h2,
      flatMap_decodeNibbles ns (fun x hx => hn x (by simp [hx])) (by simp at hl; omega)]
    rfl

theorem odd_flag : ∀ t : Fin 2, ∀ a : Fin 16,
    let c : UInt8 := t.val.toUInt8 <<< 5 ||| (1 : UInt8) <<< 4 ||| a.val.toUInt8
    c / 16 = 2 * t.val.toUInt8 + 1 ∧ c % 16 = a.val.toUInt8 := by
  decide

theorem even_flag : ∀ t : Fin 2,
    let c : UInt8 := t.val.toUInt8 <<< 5
    c / 16 = 2 * t.val.toUInt8 ∧ c % 16 = 0 := by
  decide

theorem hasTerm_append_term (ns : Bytes) : hasTerm (ns ++ [16]) = true := by
  simp [hasTerm]

theorem hasTerm_of_nibbles {ns : Bytes} (h : Nibbles ns) : hasTerm ns = false := by
  cases ns with
  | nil => rfl
  | cons x xs =>
    have hx := h _ (List.getLastD_mem_cons (l := xs) (a := x))
    simp only [hasTerm, List.getLastD_cons, decide_eq_false_iff_not, not_and]
    intro _ h16
    rw [h16] at hx
    exact absurd hx (by decide)

theorem keybytesToHex_dropLast (c : Bytes) :
    (keybytesToHex c).dropLast = c.flatMap fun b => [b / 16, b % 16] := by
  simp [keybytesToHex]

/-- `compactToHex` reads back the flag byte `hexToCompact` writes. -/
theorem compactToHex_flag (ns : Bytes) (hn : Nibbles ns) (tf : Fin 2) :
    compactToHex (if ns.length % 2 = 1 then
        (tf.val.toUInt8 <<< 5 ||| (1 : UInt8) <<< 4 ||| ns.headD 0) :: decodeNibbles ns.tail
      else (tf.val.toUInt8 <<< 5) :: decodeNibbles ns) =
      some (ns ++ if tf.val = 1 then [16] else []) := by
  by_cases hodd : ns.length % 2 = 1
  · obtain ⟨n₀, rest, rfl⟩ : ∃ n₀ rest, ns = n₀ :: rest := by
      cases ns with
      | nil => simp at hodd
      | cons n₀ rest => exact ⟨n₀, rest, rfl⟩
    obtain ⟨a, rfl⟩ := nibble_of_lt (hn n₀ (by simp))
    obtain ⟨h16, h16'⟩ := odd_flag tf a
    have hrest := flatMap_decodeNibbles rest (fun x hx => hn x (by simp [hx])) (by simp at hodd; omega)
    simp only [if_pos hodd, List.headD_cons, List.tail_cons, compactToHex, keybytesToHex_dropLast,
      List.flatMap_cons, h16, h16', hrest]
    rcases tf with ⟨_ | _ | _, htf⟩
    · simp
    · simp [show ((2 : UInt8) - (3 &&& 1)).toNat = 1 from by decide]
    · omega
  · obtain ⟨h16, h16'⟩ := even_flag tf
    have hns := flatMap_decodeNibbles ns hn (by omega)
    simp only [if_neg hodd, compactToHex, keybytesToHex_dropLast, List.flatMap_cons, h16, h16', hns]
    rcases tf with ⟨_ | _ | _, htf⟩
    · simp
    · simp [show ((2 : UInt8) - (2 &&& 1)).toNat = 2 from by decide]
    · omega

/-- A key in the HEX encoding: nibbles, then possibly the terminator. -/
def HexKey (hex : Bytes) : Prop := ∃ ns, Nibbles ns ∧ (ns = hex ∨ ns ++ [16] = hex)

theorem compactToHex_hexToCompact {hex : Bytes} (h : HexKey hex) :
    compactToHex (hexToCompact hex) = some hex := by
  obtain ⟨ns, hn, rfl | rfl⟩ := h
  · have := compactToHex_flag ns hn 0
    simpa [hexToCompact, hasTerm_of_nibbles hn] using this
  · have := compactToHex_flag ns hn 1
    simpa [hexToCompact, hasTerm_append_term] using this
/-! ## Round trip of the hex encoding -/

set_option maxRecDepth 4000 in
theorem nibbles_join : ∀ a : Fin 256, ((a.val.toUInt8 / 16) <<< 4 ||| a.val.toUInt8 % 16) = a.val.toUInt8 := by
  decide

theorem decodeNibbles_flatMap : ∀ k : Bytes, decodeNibbles (k.flatMap fun b => [b / 16, b % 16]) = k
  | [] => rfl
  | b :: k => by
    have hb : (b / 16) <<< 4 ||| b % 16 = b := by simpa using nibbles_join ⟨b.toNat, b.toNat_lt⟩
    rw [List.flatMap_cons, List.cons_append, List.cons_append, List.nil_append, decodeNibbles, hb,
      decodeNibbles_flatMap k]

theorem length_flatMap_nibbles : ∀ k : Bytes, (k.flatMap fun b => [b / 16, b % 16]).length = 2 * k.length
  | [] => rfl
  | b :: k => by
    rw [List.flatMap_cons, List.length_append, length_flatMap_nibbles k]
    simp
    omega

theorem hexToKeybytes_keybytesToHex (k : Bytes) : hexToKeybytes (keybytesToHex k) = some k := by
  have heven : (k.flatMap fun b => [b / 16, b % 16]).length % 2 = 0 := by
    rw [length_flatMap_nibbles]
    omega
  simp only [hexToKeybytes, keybytesToHex, hasTerm_append_term, if_true, List.dropLast_concat, heven,
    ne_eq, not_true_eq_false, if_false, decodeNibbles_flatMap]

/-- Both round trips of the key encodings: a key through HEX and back, and a HEX key, nibbles with
or without the terminator, through COMPACT and back. -/
theorem trie_key_encodings_roundtrip :
    (∀ k : Bytes, hexToKeybytes (keybytesToHex k) = some k) ∧
      ∀ h : Bytes, HexKey h → compactToHex (hexToCompact h) = some h :=
  ⟨hexToKeybytes_keybytesToHex, fun _ hh => compactToHex_hexToCompact hh⟩

end EthereumAI.Trie
