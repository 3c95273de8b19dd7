import Mathlib
import EthereumAI.Common.Types

/-! # Hex quantities (`common/hexutil`)

A quantity is `0x` or `0X` followed by hex digits without a leading zero. `DecodeBig` and
`Big.UnmarshalText` cut the digits from the end into words of `bigWordNibbles` nibbles (8 or 16,
by the size of `big.Word`) and accumulate each word by multiply-add; `DecodeUint64` hands the
digits to `strconv.ParseUint` and `Uint64.UnmarshalText` accumulates them into a `uint64`.
Encoding writes the digits in lower case with `strconv.AppendUint` or `%#x`.

Strings and byte slices are byte lists. The value of a `*big.Int` is a natural number and a word
is a natural number below `2 ^ (4 * bigWordNibbles)`.
-/

namespace EthereumAI.Hexutil

inductive Err where
  | ErrEmptyString
  | ErrSyntax
  | ErrMissingPrefix
  | ErrOddLength
  | ErrEmptyNumber
  | ErrLeadingZero
  | ErrUint64Range
  | ErrUintRange
  | ErrBig256Range
deriving DecidableEq, Repr

/-! ## Checks and digits -/

/-- `has0xPrefix`, and `bytesHave0xPrefix` of byte slices. -/
def has0xPrefix : Bytes → Bool
  | c :: x :: _ => decide (c = 0x30 ∧ (x = 0x78 ∨ x = 0x58))
  | _ => false

/-- `checkNumber`: the digits of a quantity. -/
def checkNumber (input : Bytes) : Except Err Bytes :=
  if input.length = 0 then .error .ErrEmptyString
  else if !has0xPrefix input then .error .ErrMissingPrefix
  else
    let input := input.drop 2
    if input.length = 0 then .error .ErrEmptyNumber
    else if input.length > 1 ∧ input.headD 0 = 0x30 then .error .ErrLeadingZero
    else .ok input

/-- `checkNumberText`: as `checkNumber`, but the empty input is allowed and has no digits. -/
def checkNumberText (input : Bytes) : Except Err Bytes :=
  if input.length = 0 then .ok []
  else if !has0xPrefix input then .error .ErrMissingPrefix
  else
    let input := input.drop 2
    if input.length = 0 then .error .ErrEmptyNumber
    else if input.length > 1 ∧ input.headD 0 = 0x30 then .error .ErrLeadingZero
    else .ok input

/-- `badNibble`, `^uint64(0)`. -/
def badNibble : UInt64 := ~~~0

/-- `decodeNibble`. -/
def decodeNibble (c : UInt8) : UInt64 :=
  if c ≥ 0x30 ∧ c ≤ 0x39 then (c - 0x30).toUInt64
  else if c ≥ 0x41 ∧ c ≤ 0x46 then (c - 0x41 + 10).toUInt64
  else if c ≥ 0x61 ∧ c ≤ 0x66 then (c - 0x61 + 10).toUInt64
  else badNibble

/-! ## Big integers -/

/-- The inner loop of `DecodeBig`: the digits of a word, most significant first, accumulated in a
word of `w` nibbles. -/
def wordLoop (w : ℕ) : Bytes → ℕ → Except Err ℕ
  | [], word => .ok word
  | c :: cs, word =>
    let nib := decodeNibble c
    if nib = badNibble then .error .ErrSyntax
    else wordLoop w cs ((word * 16 + nib.toNat) % 2 ^ (4 * w))

/-- The outer loop of `DecodeBig`: `k` words more, the next from the `w` digits before `end`. -/
def wordsLoop (w : ℕ) (raw : Bytes) : ℕ → ℕ → Except Err (List ℕ)
  | 0, _ => .ok []
  | k + 1, end_ => do
    let start := end_ - w
    let word ← wordLoop w ((raw.take end_).drop start) 0
    let words ← wordsLoop w raw k start
    pure (word :: words)

/-- `SetBits`: the value of little-endian words of `w` nibbles. -/
def SetBits (w : ℕ) : List ℕ → ℕ
  | [] => 0
  | word :: words => word + 2 ^ (4 * w) * SetBits w words

/-- The body `DecodeBig` and `Big.UnmarshalText` share, after their check of the input. -/
def decodeBigWith (check : Bytes → Except Err Bytes) (bigWordNibbles : ℕ) (input : Bytes) : Except Err ℕ := do
  let raw ← check input
  if raw.length > 64 then throw .ErrBig256Range
  let words ← wordsLoop bigWordNibbles raw (raw.length / bigWordNibbles + 1) raw.length
  pure (SetBits bigWordNibbles words)

/-- `DecodeBig`. -/
def DecodeBig (bigWordNibbles : ℕ) (input : Bytes) : Except Err ℕ :=
  decodeBigWith checkNumber bigWordNibbles input

/-- `Big.UnmarshalText`. -/
def Big.UnmarshalText (bigWordNibbles : ℕ) (input : Bytes) : Except Err ℕ :=
  decodeBigWith checkNumberText bigWordNibbles input

/-- The digit `strconv` writes for a value below 16. -/
def digit (d : ℕ) : UInt8 := if d < 10 then 0x30 + d.toUInt8 else 0x61 + (d - 10).toUInt8

/-- The digits of `strconv.AppendUint` in base 16, and of `%x`: lower case, most significant first,
and `0` for zero. -/
def formatHex (n : ℕ) : Bytes :=
  if n < 16 then [digit n] else formatHex (n / 16) ++ [digit (n % 16)]
termination_by n
decreasing_by omega

/-- `EncodeBig` of a non-negative integer. -/
def EncodeBig (bigint : ℕ) : Bytes :=
  if bigint = 0 then [0x30, 0x78, 0x30] else [0x30, 0x78] ++ formatHex bigint

/-! ## Machine integers -/

/-- The errors of `strconv.ParseUint`. -/
inductive NumError where
  | ErrRange
  | ErrSyntax
deriving DecidableEq, Repr

/-- The value of a digit of `strconv.ParseUint`: a decimal digit or a letter of either case. -/
def parseDigit (d : UInt8) : Option ℕ :=
  if 0x30 ≤ d ∧ d ≤ 0x39 then some (d - 0x30).toNat
  else if 0x61 ≤ d ∧ d ≤ 0x7A then some ((d - 0x61).toNat + 10)
  else if 0x41 ≤ d ∧ d ≤ 0x5A then some ((d - 0x41).toNat + 10)
  else none

/-- The loop of `strconv.ParseUint` in base 16 for 64 bits: the cutoff is `maxUint64 / 16 + 1`,
and the accumulator must stay at most `maxVal`. -/
def parseUintLoop : Bytes → ℕ → Except NumError ℕ
  | [], n => .ok n
  | d :: s, n =>
    match parseDigit d with
    | none => .error .ErrSyntax
    | some v =>
      if v ≥ 16 then .error .ErrSyntax
      else if n ≥ (2 ^ 64 - 1) / 16 + 1 then .error .ErrRange
      else
        let n1 := n * 16 + v
        if n1 > 2 ^ 64 - 1 then .error .ErrRange
        else parseUintLoop s n1

/-- `strconv.ParseUint(s, 16, 64)`. -/
def ParseUint (s : Bytes) : Except NumError ℕ :=
  if s.length = 0 then .error .ErrSyntax else parseUintLoop s 0

/-- `mapError` of the errors of `strconv`. -/
def mapError : NumError → Err
  | .ErrRange => .ErrUint64Range
  | .ErrSyntax => .ErrSyntax

/-- `DecodeUint64`. -/
def DecodeUint64 (input : Bytes) : Except Err UInt64 := do
  let raw ← checkNumber input
  match ParseUint raw with
  | .ok dec => pure dec.toUInt64
  | .error err => throw (mapError err)

/-- The loop of `Uint64.UnmarshalText`, in `uint64` arithmetic. -/
def uint64Loop : Bytes → UInt64 → Except Err UInt64
  | [], dec => .ok dec
  | c :: cs, dec =>
    let nib := decodeNibble c
    if nib = badNibble then .error .ErrSyntax
    else uint64Loop cs (dec * 16 + nib)

/-- `Uint64.UnmarshalText`. -/
def Uint64.UnmarshalText (input : Bytes) : Except Err UInt64 := do
  let raw ← checkNumberText input
  if raw.length > 16 then throw .ErrUint64Range
  uint64Loop raw 0

/-- `EncodeUint64`. -/
def EncodeUint64 (i : UInt64) : Bytes := [0x30, 0x78] ++ formatHex i.toNat

/-! ## Quantities

What the decoders accept, in terms of the digits: the hex digits, their value, and the syntax of
a quantity. -/

/-- A hex digit: `0-9`, `a-f` or `A-F`. -/
def isHexDigit (c : UInt8) : Bool :=
  (0x30 ≤ c && c ≤ 0x39) || (0x61 ≤ c && c ≤ 0x66) || (0x41 ≤ c && c ≤ 0x46)

/-- The value of a hex digit. -/
def nibbleVal (c : UInt8) : ℕ :=
  if c ≤ 0x39 then c.toNat - 0x30 else if c ≤ 0x46 then c.toNat - 0x41 + 10 else c.toNat - 0x61 + 10

/-- The value of hex digits, most significant first. -/
def hexValue : Bytes → ℕ
  | [] => 0
  | c :: cs => nibbleVal c * 16 ^ cs.length + hexValue cs

/-- The digits of a quantity: `0x` or `0X`, then hex digits that are `0` or do not start with
`0`. -/
def quantityDigits : Bytes → Option Bytes
  | c :: x :: digits =>
    if c = 0x30 ∧ (x = 0x78 ∨ x = 0x58) ∧ digits ≠ [] ∧ digits.all isHexDigit ∧
      (digits = [0x30] ∨ digits.headD 0 ≠ 0x30)
    then some digits else none
  | _ => none

theorem decodeNibble_eq : ∀ c, decodeNibble c = if isHexDigit c then (nibbleVal c).toUInt64 else badNibble := by
  decide +kernel

theorem nibbleVal_lt : ∀ c, isHexDigit c = true → nibbleVal c < 16 := by
  decide +kernel

theorem parseDigit_eq : ∀ c, (parseDigit c).filter (· < 16) = if isHexDigit c then some (nibbleVal c) else none := by
  decide +kernel

theorem badNibble_ne {c : UInt8} (h : isHexDigit c = true) : decodeNibble c ≠ badNibble := by
  rw [decodeNibble_eq, if_pos h]
  have := nibbleVal_lt c h
  intro heq
  have := congrArg UInt64.toNat heq
  simp [badNibble] at this
  omega

theorem toNat_decodeNibble {c : UInt8} (h : isHexDigit c = true) : (decodeNibble c).toNat = nibbleVal c := by
  rw [decodeNibble_eq, if_pos h]
  have := nibbleVal_lt c h
  simp only [Nat.toUInt64_eq, UInt64.toNat_ofNat']
  omega

theorem hexValue_append (a b : Bytes) : hexValue (a ++ b) = hexValue a * 16 ^ b.length + hexValue b := by
  induction a with
  | nil => simp [hexValue]
  | cons c a ih =>
    simp only [List.cons_append, hexValue, List.length_append, Nat.pow_add, ih]
    rw [Nat.add_mul, Nat.mul_assoc, Nat.add_assoc]

theorem hexValue_lt : ∀ {cs : Bytes}, cs.all isHexDigit = true → hexValue cs < 16 ^ cs.length
  | [], _ => by simp [hexValue]
  | c :: cs, h => by
    simp only [List.all_cons, Bool.and_eq_true] at h
    have hc := nibbleVal_lt c h.1
    have ih := hexValue_lt h.2
    simp only [hexValue, List.length_cons, Nat.pow_succ]
    have : nibbleVal c * 16 ^ cs.length + 16 ^ cs.length ≤ 16 ^ cs.length * 16 := by
      rw [← Nat.succ_mul, Nat.mul_comm]
      exact Nat.mul_le_mul_left _ hc
    omega

theorem hexValue_ge {c : UInt8} {cs : Bytes} (hc : isHexDigit c = true) (h0 : c ≠ 0x30) :
    16 ^ cs.length ≤ hexValue (c :: cs) := by
  have hpos : 0 < nibbleVal c := by
    revert hc h0
    revert c
    decide +kernel
  simp only [hexValue]
  have := Nat.mul_le_mul_right (16 ^ cs.length) hpos
  omega

/-- What `checkNumber` accepts: a prefix and digits that are `0` or do not start with `0`. -/
theorem checkNumber_cons_cons (c x : UInt8) (digits d : Bytes) :
    checkNumber (c :: x :: digits) = .ok d ↔ d = digits ∧ c = 0x30 ∧ (x = 0x78 ∨ x = 0x58) ∧ digits ≠ [] ∧
      (digits = [0x30] ∨ digits.headD 0 ≠ 0x30) := by
  unfold checkNumber
  simp only [has0xPrefix, List.length_cons, Nat.add_one_ne_zero, if_false, List.drop_succ_cons, List.drop_zero]
  by_cases hp : c = 0x30 ∧ (x = 0x78 ∨ x = 0x58)
  · rw [decide_eq_true hp]
    simp only [Bool.not_true, Bool.false_eq_true, if_false]
    rcases digits with _ | ⟨a, _ | ⟨b, rest⟩⟩
    · -- no digits
      simp
    · -- one digit, a zero included
      simp only [List.length_singleton, Nat.one_ne_zero, if_false, gt_iff_lt, Nat.lt_irrefl, false_and]
      constructor
      · intro h
        cases h
        exact ⟨rfl, hp.1, hp.2, List.cons_ne_nil _ _, by by_cases ha : a = 0x30 <;> simp [ha]⟩
      · rintro ⟨rfl, -⟩
        rfl
    · -- more digits: the first must not be zero
      simp only [List.length_cons, Nat.add_one_ne_zero, if_false, List.headD_cons,
        show 1 < rest.length + 1 + 1 by omega, true_and]
      by_cases ha : a = 0x30
      · simp [ha]
      · rw [if_neg ha]
        constructor
        · intro h
          cases h
          exact ⟨rfl, hp.1, hp.2, List.cons_ne_nil _ _, .inr ha⟩
        · rintro ⟨rfl, -⟩
          rfl
  · rw [decide_eq_false hp]
    simp only [Bool.not_false, if_true, reduceCtorEq, false_iff]
    exact fun h => hp ⟨h.2.1, h.2.2.1⟩

theorem quantityDigits_eq_some {s d : Bytes} :
    quantityDigits s = some d ↔ checkNumber s = .ok d ∧ d.all isHexDigit = true := by
  match s with
  | [] => simp [quantityDigits, checkNumber]
  | [c] => simp [quantityDigits, checkNumber, has0xPrefix]
  | c :: x :: digits =>
    rw [checkNumber_cons_cons, quantityDigits]
    constructor
    · intro h
      split_ifs at h with hq
      cases h
      exact ⟨⟨rfl, hq.1, hq.2.1, hq.2.2.1, hq.2.2.2.2⟩, hq.2.2.2.1⟩
    · rintro ⟨⟨rfl, h1, h2, h3, h4⟩, hall⟩
      rw [if_pos ⟨h1, h2, h3, hall, h4⟩]

theorem quantityDigits_of_checkNumber {s raw : Bytes} (hc : checkNumber s = .ok raw) (digits : Bytes) :
    quantityDigits s = some digits ↔ digits = raw ∧ raw.all isHexDigit = true := by
  rw [quantityDigits_eq_some, hc]
  constructor
  · rintro ⟨h, hall⟩
    cases h
    exact ⟨rfl, hall⟩
  · rintro ⟨rfl, hall⟩
    exact ⟨rfl, hall⟩

theorem quantityDigits_of_checkNumber_error {s : Bytes} {e : Err} (hc : checkNumber s = .error e) :
    quantityDigits s = none := by
  cases hq : quantityDigits s with
  | none => rfl
  | some digits =>
    rw [(quantityDigits_eq_some.1 hq).1] at hc
    cases hc

/-! ## The words of `DecodeBig` -/

section Words

variable {w : ℕ}

theorem mod_mul_add_mod (a k h M : ℕ) : (a % M * k + h) % M = (a * k + h) % M := by
  rw [Nat.add_mod, Nat.mul_mod, Nat.mod_mod, ← Nat.mul_mod, ← Nat.add_mod]

theorem wordLoop_hex : ∀ {cs : Bytes} {acc : ℕ}, acc < 2 ^ (4 * w) → cs.all isHexDigit = true →
    wordLoop w cs acc = .ok ((acc * 16 ^ cs.length + hexValue cs) % 2 ^ (4 * w))
  | [], acc, hacc, _ => by simp [wordLoop, hexValue, Nat.mod_eq_of_lt hacc]
  | c :: cs, acc, _, h => by
    simp only [List.all_cons, Bool.and_eq_true] at h
    simp only [wordLoop, if_neg (badNibble_ne h.1), toNat_decodeNibble h.1]
    rw [wordLoop_hex (Nat.mod_lt _ (Nat.two_pow_pos _)) h.2, mod_mul_add_mod]
    congr 2
    simp only [hexValue, List.length_cons, Nat.pow_succ]
    ring

theorem all_of_wordLoop : ∀ {cs : Bytes} {acc r : ℕ}, wordLoop w cs acc = .ok r → cs.all isHexDigit = true
  | [], _, _, _ => rfl
  | c :: cs, acc, r, h => by
    simp only [wordLoop] at h
    split_ifs at h with hbad
    have hc : isHexDigit c = true := by
      by_contra hc
      rw [decodeNibble_eq, if_neg hc] at hbad
      exact hbad rfl
    simp only [List.all_cons, hc, Bool.true_and]
    exact all_of_wordLoop h

theorem take_eq_take_append_chunk (raw : Bytes) (end_ w : ℕ) :
    raw.take end_ = raw.take (end_ - w) ++ (raw.take end_).drop (end_ - w) := by
  conv_lhs => rw [← List.take_append_drop (end_ - w) (raw.take end_)]
  rw [List.take_take, Nat.min_eq_left (Nat.sub_le _ _)]

/-- With a word for every `w` digits, the words of hex digits hold their value. -/
theorem wordsLoop_hex (raw : Bytes) : ∀ (k end_ : ℕ), end_ ≤ k * w → end_ ≤ raw.length →
    (raw.take end_).all isHexDigit = true →
    ∃ words, wordsLoop w raw k end_ = .ok words ∧ SetBits w words = hexValue (raw.take end_)
  | 0, end_, hk, _, _ => by
    obtain rfl : end_ = 0 := by simpa using hk
    exact ⟨[], rfl, by simp [SetBits, hexValue]⟩
  | k + 1, end_, hk, hraw, hall => by
    rw [take_eq_take_append_chunk raw end_ w, List.all_append, Bool.and_eq_true] at hall
    have hlen : ((raw.take end_).drop (end_ - w)).length ≤ w := by
      simp only [List.length_drop, List.length_take]
      omega
    -- the chunk fits in its word
    have hlt : hexValue ((raw.take end_).drop (end_ - w)) < 2 ^ (4 * w) :=
      calc hexValue ((raw.take end_).drop (end_ - w))
          < 16 ^ ((raw.take end_).drop (end_ - w)).length := hexValue_lt hall.2
        _ ≤ 16 ^ w := Nat.pow_le_pow_right (by decide) hlen
        _ = 2 ^ (4 * w) := by rw [Nat.pow_mul]
    obtain ⟨words, hwords, hset⟩ := wordsLoop_hex raw k (end_ - w) (by rw [Nat.succ_mul] at hk; omega) (by omega)
      hall.1
    refine ⟨hexValue ((raw.take end_).drop (end_ - w)) :: words, ?_, ?_⟩
    · simp only [wordsLoop, wordLoop_hex (Nat.two_pow_pos _) hall.2, Nat.zero_mul, Nat.zero_add,
        Nat.mod_eq_of_lt hlt, hwords]
      rfl
    · rw [SetBits, hset]
      conv_rhs => rw [take_eq_take_append_chunk raw end_ w, hexValue_append]
      -- a full word is `w` digits; a short one is the first and has nothing before it
      by_cases he : w ≤ end_
      · have hw : ((raw.take end_).drop (end_ - w)).length = w := by
          simp only [List.length_drop, List.length_take]
          omega
        have h16 : (16 : ℕ) ^ w = 2 ^ (4 * w) := by
          rw [Nat.pow_mul]
        rw [hw, h16]
        ring
      · simp [show end_ - w = 0 by omega, hexValue]

theorem all_of_wordsLoop (raw : Bytes) : ∀ {k end_ : ℕ} {words : List ℕ}, end_ ≤ k * w →
    wordsLoop w raw k end_ = .ok words → (raw.take end_).all isHexDigit = true
  | 0, end_, _, hk, _ => by
    obtain rfl : end_ = 0 := by simpa using hk
    rfl
  | k + 1, end_, words, hk, h => by
    simp only [wordsLoop, bind, Except.bind] at h
    cases hw : wordLoop w ((raw.take end_).drop (end_ - w)) 0 with
    | error e => rw [hw] at h; cases h
    | ok word =>
      rw [hw] at h
      cases hws : wordsLoop w raw k (end_ - w) with
      | error e => rw [hws] at h; cases h
      | ok ws =>
        rw [take_eq_take_append_chunk raw end_ w, List.all_append, Bool.and_eq_true]
        exact ⟨all_of_wordsLoop raw (by rw [Nat.succ_mul] at hk; omega) hws, all_of_wordLoop hw⟩

end Words

/-! ## `DecodeBig` and `Big.UnmarshalText` -/

/-- `DecodeBig` accepts the quantities of at most 64 digits, at their value, for every size of
word. -/
theorem DecodeBig_eq_ok {w : ℕ} (hw : 0 < w) (s : Bytes) (v : ℕ) :
    DecodeBig w s = .ok v ↔ ∃ digits, quantityDigits s = some digits ∧ digits.length ≤ 64 ∧ v = hexValue digits := by
  unfold DecodeBig decodeBigWith
  cases hc : checkNumber s with
  | error e =>
    simp [bind, Except.bind, quantityDigits_of_checkNumber_error hc]
  | ok raw =>
    simp only [quantityDigits_of_checkNumber hc, bind, Except.bind]
    by_cases hl : raw.length > 64
    · simp only [if_pos hl, throw, throwThe, MonadExceptOf.throw, reduceCtorEq, false_iff, not_exists, not_and]
      rintro _ ⟨rfl, -⟩ hle
      omega
    -- one word more than the digits fill
    have hk : raw.length ≤ (raw.length / w + 1) * w := by
      have := Nat.lt_div_mul_add (a := raw.length) hw
      rw [Nat.succ_mul]
      omega
    simp only [if_neg hl, pure, Except.pure]
    constructor
    · intro h
      cases hws : wordsLoop w raw (raw.length / w + 1) raw.length with
      | error e => rw [hws] at h; cases h
      | ok words =>
        rw [hws] at h
        cases h
        have hall := all_of_wordsLoop raw hk hws
        rw [List.take_length] at hall
        obtain ⟨words', hws', hset⟩ := wordsLoop_hex raw _ _ hk (Nat.le_refl _) (by rwa [List.take_length])
        rw [hws] at hws'
        cases hws'
        exact ⟨raw, ⟨rfl, hall⟩, by omega, by rw [hset, List.take_length]⟩
    · rintro ⟨digits, ⟨hd, hall⟩, -, rfl⟩
      obtain ⟨words, hws, hset⟩ := wordsLoop_hex raw _ _ hk (Nat.le_refl _) (by rwa [List.take_length])
      rw [List.take_length] at hset
      rw [hd, hws, ← hset]

theorem checkNumberText_eq {s : Bytes} (h : s ≠ []) : checkNumberText s = checkNumber s := by
  have hl : s.length ≠ 0 := by simpa using h
  unfold checkNumberText checkNumber
  rw [if_neg hl, if_neg hl]

theorem Big.UnmarshalText_eq (w : ℕ) {s : Bytes} (h : s ≠ []) : Big.UnmarshalText w s = DecodeBig w s := by
  unfold Big.UnmarshalText DecodeBig decodeBigWith
  rw [checkNumberText_eq h]

/-! ## Encoding -/

theorem digit_spec : ∀ d < 16, isHexDigit (digit d) = true ∧ nibbleVal (digit d) = d ∧ (d ≠ 0 → digit d ≠ 0x30) := by
  decide

theorem formatHex_of_lt {n : ℕ} (h : n < 16) : formatHex n = [digit n] := by
  rw [formatHex, if_pos h]

theorem formatHex_zero : formatHex 0 = [0x30] := by
  rw [formatHex_of_lt (by decide)]
  rfl

/-- `formatHex` writes hex digits worth the number, without a leading zero. -/
theorem formatHex_spec (n : ℕ) :
    (formatHex n).all isHexDigit = true ∧ hexValue (formatHex n) = n ∧ formatHex n ≠ [] ∧
      (0 < n → (formatHex n).headD 0 ≠ 0x30) := by
  rw [formatHex]
  split_ifs with hn
  · obtain ⟨hd, hv, h0⟩ := digit_spec n hn
    refine ⟨by simp [hd], by simp [hexValue, hv], List.cons_ne_nil _ _, fun hpos => h0 (by omega)⟩
  · -- the digits of `n / 16`, then the last
    obtain ⟨hall, hval, hne, hhead⟩ := formatHex_spec (n / 16)
    obtain ⟨hd, hv, -⟩ := digit_spec (n % 16) (Nat.mod_lt _ (by decide))
    refine ⟨by simp [hall, hd], ?_, by simp, fun _ => ?_⟩
    · rw [hexValue_append, hval]
      simp [hexValue, hv]
      omega
    · obtain ⟨c, cs, hcs⟩ := List.exists_cons_of_ne_nil hne
      have := hhead (by omega)
      rw [hcs] at this ⊢
      simpa using this
termination_by n
decreasing_by omega

/-- A number below `16 ^ k` has at most `k` digits. -/
theorem length_formatHex_le {n k : ℕ} (hk : 0 < k) (h : n < 16 ^ k) : (formatHex n).length ≤ k := by
  rw [formatHex]
  split_ifs with hn
  · exact hk
  · have hk1 : 1 < k := by
      by_contra hk1
      obtain rfl : k = 1 := by omega
      omega
    have hdiv : n / 16 < 16 ^ (k - 1) := by
      have hpow : 16 ^ (k - 1) * 16 = 16 ^ k := by
        rw [← Nat.pow_succ]
        congr 1
        omega
      rw [Nat.div_lt_iff_lt_mul (by decide), hpow]
      exact h
    have := length_formatHex_le (by omega) hdiv
    simp only [List.length_append, List.length_singleton]
    omega
termination_by n
decreasing_by omega

theorem quantityDigits_formatHex (n : ℕ) : quantityDigits ([0x30, 0x78] ++ formatHex n) = some (formatHex n) := by
  obtain ⟨hall, -, hne, hhead⟩ := formatHex_spec n
  rw [show [0x30, 0x78] ++ formatHex n = 0x30 :: 0x78 :: formatHex n from rfl, quantityDigits.eq_1, if_pos]
  refine ⟨rfl, .inl rfl, hne, hall, ?_⟩
  rcases Nat.eq_zero_or_pos n with rfl | hpos
  · exact .inl formatHex_zero
  · exact .inr (hhead hpos)

theorem EncodeBig_eq (bigint : ℕ) : EncodeBig bigint = [0x30, 0x78] ++ formatHex bigint := by
  unfold EncodeBig
  split_ifs with h
  · rw [h, formatHex_zero]
    rfl
  · rfl

theorem DecodeBig_EncodeBig {w : ℕ} (hw : 0 < w) {x : ℕ} (hx : x < 2 ^ 256) : DecodeBig w (EncodeBig x) = .ok x := by
  rw [DecodeBig_eq_ok hw, EncodeBig_eq]
  refine ⟨_, quantityDigits_formatHex x, length_formatHex_le (by decide) (by simpa using hx), (formatHex_spec x).2.1.symm⟩

/-! ## `DecodeUint64` and `Uint64.UnmarshalText` -/

theorem parseDigit_of_hex {d : UInt8} (h : isHexDigit d = true) : parseDigit d = some (nibbleVal d) := by
  have := parseDigit_eq d
  rw [if_pos h] at this
  exact Option.eq_some_of_filter_eq_some this

theorem parseDigit_hex {d : UInt8} {v : ℕ} (hd : parseDigit d = some v) (hv : v < 16) :
    isHexDigit d = true ∧ nibbleVal d = v := by
  have := parseDigit_eq d
  rw [hd, Option.filter_some, if_pos (by simpa using hv)] at this
  by_cases h : isHexDigit d
  · rw [if_pos h] at this
    exact ⟨h, (Option.some.inj this).symm⟩
  · rw [if_neg h] at this
    cases this

theorem checkNumber_ok {s raw : Bytes} (h : checkNumber s = .ok raw) :
    raw ≠ [] ∧ (raw.length ≤ 1 ∨ raw.headD 0 ≠ 0x30) := by
  unfold checkNumber at h
  dsimp only at h
  split_ifs at h with h0 hp he hz
  cases h
  refine ⟨fun hnil => he (by simp [hnil]), ?_⟩
  by_cases hl : (s.drop 2).length ≤ 1
  · exact .inl hl
  · exact .inr fun h30 => hz ⟨by omega, h30⟩

theorem length_le_of_hexValue_lt {raw : Bytes} {k : ℕ} (hne : raw ≠ []) (hc : raw.length ≤ 1 ∨ raw.headD 0 ≠ 0x30)
    (hall : raw.all isHexDigit = true) (hk : 0 < k) (h : hexValue raw < 16 ^ k) : raw.length ≤ k := by
  obtain ⟨c, cs, rfl⟩ := List.exists_cons_of_ne_nil hne
  rcases hc with h1 | h0
  · omega
  · simp only [List.all_cons, Bool.and_eq_true] at hall
    have hge : 16 ^ cs.length ≤ hexValue (c :: cs) := hexValue_ge hall.1 h0
    have : cs.length < k := (Nat.pow_lt_pow_iff_right (by decide)).1 (Nat.lt_of_le_of_lt hge h)
    simp only [List.length_cons]
    omega

/-- What a successful run of the loop of `ParseUint` read: hex digits, with the accumulator kept
below `2 ^ 64`. -/
theorem parseUintLoop_ok : ∀ {s : Bytes} {n r : ℕ}, parseUintLoop s n = .ok r → n < 2 ^ 64 →
    s.all isHexDigit = true ∧ r = n * 16 ^ s.length + hexValue s ∧ r < 2 ^ 64
  | [], n, r, h, hn => by
    cases h
    exact ⟨rfl, by simp [hexValue], hn⟩
  | d :: s, n, r, h, _ => by
    rw [parseUintLoop] at h
    cases hd : parseDigit d with
    | none => rw [hd] at h; cases h
    | some v =>
      rw [hd] at h
      dsimp only at h
      by_cases hv : v ≥ 16
      · rw [if_pos hv] at h
        cases h
      by_cases hcut : n ≥ (2 ^ 64 - 1) / 16 + 1
      · rw [if_neg hv, if_pos hcut] at h
        cases h
      by_cases hov : n * 16 + v > 2 ^ 64 - 1
      · rw [if_neg hv, if_neg hcut, if_pos hov] at h
        cases h
      rw [if_neg hv, if_neg hcut, if_neg hov] at h
      obtain ⟨hall, hr, hlt⟩ := parseUintLoop_ok h (by omega)
      obtain ⟨hhex, hval⟩ := parseDigit_hex hd (by omega)
      refine ⟨by simp [hhex, hall], ?_, hlt⟩
      rw [hr, hexValue, hval, List.length_cons, pow_succ]
      ring

theorem pow16_sub_succ {l : ℕ} (h : l < 16) : 16 ^ (16 - (l + 1)) * 16 = 16 ^ (16 - l) := by
  rw [← pow_succ]
  congr 1
  omega

/-- On at most 16 digits the loop of `ParseUint` fails only on a byte that is not a hex digit. -/
theorem parseUintLoop_short : ∀ {s : Bytes} {n : ℕ}, s.length ≤ 16 → n < 16 ^ (16 - s.length) →
    parseUintLoop s n = if s.all isHexDigit then .ok (n * 16 ^ s.length + hexValue s) else .error .ErrSyntax
  | [], n, _, _ => by simp [parseUintLoop, hexValue]
  | d :: s, n, hl, hn => by
    simp only [List.length_cons] at hl hn
    have hpow := pow16_sub_succ (l := s.length) (by omega)
    by_cases hd : isHexDigit d
    · have hv := nibbleVal_lt d hd
      -- the accumulator stays below the cutoff and below 2 ^ 64
      have hn15 : 16 ^ (16 - (s.length + 1)) ≤ 16 ^ 15 := Nat.pow_le_pow_right (by decide) (by omega)
      have hn16 : 16 ^ (16 - s.length) ≤ 16 ^ 16 := Nat.pow_le_pow_right (by decide) (by omega)
      have hn1 : n * 16 + nibbleVal d < 16 ^ (16 - s.length) := by
        rw [← hpow]
        omega
      rw [parseUintLoop, parseDigit_of_hex hd]
      dsimp only
      rw [if_neg (by omega), if_neg (by norm_num at hn15 ⊢; omega), if_neg (by norm_num at hn16 ⊢; omega),
        parseUintLoop_short (by omega) hn1]
      simp only [List.all_cons, hd, Bool.true_and, hexValue, List.length_cons]
      split_ifs
      · congr 1
        rw [pow_succ]
        ring
      · rfl
    · have hall : (d :: s).all isHexDigit = false := by simp [hd]
      rw [hall, if_neg Bool.false_ne_true, parseUintLoop]
      cases hp : parseDigit d with
      | none => rfl
      | some v =>
        have hv : v ≥ 16 := by
          by_contra hv
          exact hd (parseDigit_hex hp (by omega)).1
        simp only [if_pos hv]

/-- The loop of `Uint64.UnmarshalText` on at most 16 digits. -/
theorem uint64Loop_short : ∀ {cs : Bytes} {dec : UInt64}, cs.length ≤ 16 → dec.toNat < 16 ^ (16 - cs.length) →
    uint64Loop cs dec = if cs.all isHexDigit then .ok (dec.toNat * 16 ^ cs.length + hexValue cs).toUInt64
      else .error .ErrSyntax
  | [], dec, _, _ => by simp [uint64Loop, hexValue, UInt64.ofNat_toNat]
  | c :: cs, dec, hl, hn => by
    simp only [List.length_cons] at hl hn
    have hpow := pow16_sub_succ (l := cs.length) (by omega)
    by_cases hc : isHexDigit c
    · have hv := nibbleVal_lt c hc
      have hn16 : 16 ^ (16 - cs.length) ≤ 16 ^ 16 := Nat.pow_le_pow_right (by decide) (by omega)
      have hn1 : dec.toNat * 16 + nibbleVal c < 16 ^ (16 - cs.length) := by
        rw [← hpow]
        omega
      have hstep : (dec * 16 + decodeNibble c).toNat = dec.toNat * 16 + nibbleVal c := by
        rw [UInt64.toNat_add, UInt64.toNat_mul, toNat_decodeNibble hc, show (16 : UInt64).toNat = 16 from rfl]
        norm_num at hn16 ⊢
        omega
      rw [uint64Loop, if_neg (badNibble_ne hc), uint64Loop_short (by omega) (by rw [hstep]; exact hn1), hstep]
      simp only [List.all_cons, hc, Bool.true_and, hexValue, List.length_cons]
      split_ifs
      · congr 2
        rw [pow_succ]
        ring
      · rfl
    · have hall : (c :: cs).all isHexDigit = false := by simp [hc]
      have hbad : decodeNibble c = badNibble := by rw [decodeNibble_eq, if_neg hc]
      rw [hall, if_neg Bool.false_ne_true, uint64Loop, if_pos hbad]

theorem toNat_toUInt64_hexValue {raw : Bytes} (hall : raw.all isHexDigit = true) (hlen : raw.length ≤ 16) :
    (hexValue raw).toUInt64.toNat = hexValue raw := by
  have hlt := hexValue_lt hall
  have h16 : 16 ^ raw.length ≤ 16 ^ 16 := Nat.pow_le_pow_right (by decide) hlen
  rw [Nat.toUInt64_eq, UInt64.toNat_ofNat', Nat.mod_eq_of_lt (by norm_num at h16 ⊢; omega)]

theorem toUInt64_hexValue_eq {raw : Bytes} {v : UInt64} (hall : raw.all isHexDigit = true) (hlen : raw.length ≤ 16)
    (hv : v.toNat = hexValue raw) : (hexValue raw).toUInt64 = v :=
  UInt64.toNat_inj.1 (by rw [toNat_toUInt64_hexValue hall hlen]; exact hv.symm)

/-- `DecodeUint64` accepts the quantities of at most 16 digits, at their value. -/
theorem DecodeUint64_eq_ok (s : Bytes) (v : UInt64) :
    DecodeUint64 s = .ok v ↔ ∃ digits, quantityDigits s = some digits ∧ digits.length ≤ 16 ∧ v.toNat = hexValue digits := by
  unfold DecodeUint64
  cases hc : checkNumber s with
  | error e =>
    simp [bind, Except.bind, quantityDigits_of_checkNumber_error hc]
  | ok raw =>
    obtain ⟨hne, hcanon⟩ := checkNumber_ok hc
    have hparse : ParseUint raw = parseUintLoop raw 0 := by
      rw [ParseUint, if_neg (by simpa using hne)]
    simp only [quantityDigits_of_checkNumber hc, bind, Except.bind, hparse]
    constructor
    · intro h
      cases hp : parseUintLoop raw 0 with
      | error e => rw [hp] at h; cases h
      | ok dec =>
        rw [hp] at h
        cases h
        obtain ⟨hall, hr, hlt⟩ := parseUintLoop_ok hp (by decide)
        simp only [Nat.zero_mul, Nat.zero_add] at hr
        subst hr
        have hlen : raw.length ≤ 16 := length_le_of_hexValue_lt hne hcanon hall (by decide) (by norm_num; omega)
        exact ⟨raw, ⟨rfl, hall⟩, hlen, toNat_toUInt64_hexValue hall hlen⟩
    · rintro ⟨digits, ⟨rfl, hall⟩, hlen, hv⟩
      rw [parseUintLoop_short hlen (Nat.pow_pos (by decide)), if_pos hall, Nat.zero_mul, Nat.zero_add]
      dsimp only
      rw [toUInt64_hexValue_eq hall hlen hv]
      rfl

/-- `Uint64.UnmarshalText` accepts, on non-empty input, what `DecodeUint64` accepts. -/
theorem Uint64.UnmarshalText_eq_ok {s : Bytes} (h : s ≠ []) (v : UInt64) :
    Uint64.UnmarshalText s = .ok v ↔
      ∃ digits, quantityDigits s = some digits ∧ digits.length ≤ 16 ∧ v.toNat = hexValue digits := by
  unfold Uint64.UnmarshalText
  rw [checkNumberText_eq h]
  cases hc : checkNumber s with
  | error e =>
    simp [bind, Except.bind, quantityDigits_of_checkNumber_error hc]
  | ok raw =>
    simp only [quantityDigits_of_checkNumber hc, bind, Except.bind]
    by_cases hl : raw.length > 16
    · simp only [if_pos hl, throw, throwThe, MonadExceptOf.throw, reduceCtorEq, false_iff, not_exists, not_and]
      rintro _ ⟨rfl, -⟩ hle
      omega
    simp only [if_neg hl]
    rw [uint64Loop_short (by omega) (Nat.pow_pos (by decide))]
    constructor
    · intro hok
      by_cases hall : raw.all isHexDigit = true
      · rw [if_pos hall] at hok
        cases hok
        simp only [UInt64.toNat_zero, Nat.zero_mul, Nat.zero_add]
        exact ⟨raw, ⟨rfl, hall⟩, by omega, toNat_toUInt64_hexValue hall (by omega)⟩
      · rw [if_neg hall] at hok
        cases hok
    · rintro ⟨digits, ⟨rfl, hall⟩, hlen, hv⟩
      rw [if_pos hall, UInt64.toNat_zero, Nat.zero_mul, Nat.zero_add, toUInt64_hexValue_eq hall hlen hv]

theorem toOption_eq_of_ok_iff {ε α : Type} {x y : Except ε α} (h : ∀ v, x = .ok v ↔ y = .ok v) :
    x.toOption = y.toOption := by
  cases x with
  | error e =>
    cases y with
    | error e' => rfl
    | ok b => cases (h b).2 rfl
  | ok a =>
    obtain rfl := (h a).1 rfl
    rfl

theorem DecodeUint64_eq_UnmarshalText {s : Bytes} (h : s ≠ [])
    (hshort : ∀ raw, checkNumber s = .ok raw → raw.length ≤ 16) :
    DecodeUint64 s = Uint64.UnmarshalText s := by
  unfold DecodeUint64 Uint64.UnmarshalText
  rw [checkNumberText_eq h]
  cases hc : checkNumber s with
  | error e => rfl
  | ok raw =>
    have hlen := hshort raw hc
    obtain ⟨hne, -⟩ := checkNumber_ok hc
    simp only [bind, Except.bind, if_neg (show ¬ raw.length > 16 by omega), pure, Except.pure]
    rw [ParseUint, if_neg (by simpa using hne), parseUintLoop_short hlen (Nat.pow_pos (by decide)),
      uint64Loop_short hlen (Nat.pow_pos (by decide)), UInt64.toNat_zero]
    split_ifs <;> rfl

theorem quantityDigits_EncodeUint64 (i : UInt64) :
    ∃ digits, quantityDigits (EncodeUint64 i) = some digits ∧ digits.length ≤ 16 ∧ i.toNat = hexValue digits :=
  ⟨_, quantityDigits_formatHex i.toNat, length_formatHex_le (by decide) (by simpa using i.toNat_lt),
    (formatHex_spec i.toNat).2.1.symm⟩

theorem EncodeUint64_ne_nil (i : UInt64) : EncodeUint64 i ≠ [] := by
  simp [EncodeUint64]

/-- The input where the two decoders part: 17 digits, the first not a hex digit. -/
def longBadQuantity : Bytes := [0x30, 0x78, 0x67] ++ List.replicate 16 0x30

theorem uint64_decoders_disagree :
    DecodeUint64 longBadQuantity = .error .ErrSyntax ∧
      Uint64.UnmarshalText longBadQuantity = .error .ErrUint64Range :=
  ⟨rfl, rfl⟩

/-- The quantity decoders: the big-integer decoders accept exactly the quantities of at most 64
digits, for every word size, and invert the encoder; the 64-bit decoders accept the quantities
of at most 16 digits and invert their encoder, succeed on the same inputs, and give the same
error whenever the number has at most 16 digits. -/
theorem quantity_decoding_exact :
    (∀ w, 0 < w → ∀ s v, DecodeBig w s = .ok v ↔
      ∃ digits, quantityDigits s = some digits ∧ digits.length ≤ 64 ∧ v = hexValue digits) ∧
    (∀ w s, s ≠ [] → Big.UnmarshalText w s = DecodeBig w s) ∧
    (∀ w, 0 < w → ∀ x, x < 2 ^ 256 → DecodeBig w (EncodeBig x) = .ok x) ∧
    (∀ s v, DecodeUint64 s = .ok v ↔
      ∃ digits, quantityDigits s = some digits ∧ digits.length ≤ 16 ∧ v.toNat = hexValue digits) ∧
    (∀ s, s ≠ [] → (DecodeUint64 s).toOption = (Uint64.UnmarshalText s).toOption) ∧
    (∀ s, s ≠ [] → (∀ raw, checkNumber s = .ok raw → raw.length ≤ 16) →
      DecodeUint64 s = Uint64.UnmarshalText s) ∧
    (∀ i, DecodeUint64 (EncodeUint64 i) = .ok i ∧ Uint64.UnmarshalText (EncodeUint64 i) = .ok i) := by
  refine ⟨fun w hw => DecodeBig_eq_ok hw, fun w s h => Big.UnmarshalText_eq w h,
    fun w hw x hx => DecodeBig_EncodeBig hw hx, DecodeUint64_eq_ok, ?_, fun s h => DecodeUint64_eq_UnmarshalText h, ?_⟩
  · intro s h
    apply toOption_eq_of_ok_iff
    intro v
    rw [DecodeUint64_eq_ok, Uint64.UnmarshalText_eq_ok h]
  · intro i
    constructor
    · exact (DecodeUint64_eq_ok _ i).2 (quantityDigits_EncodeUint64 i)
    · exact (Uint64.UnmarshalText_eq_ok (EncodeUint64_ne_nil i) i).2 (quantityDigits_EncodeUint64 i)

end EthereumAI.Hexutil
