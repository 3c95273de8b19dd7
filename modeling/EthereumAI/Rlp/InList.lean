import EthereumAI.Rlp.Item

/-! # Reads inside a list that ends with the input

A decoder that reads a whole input as one list enters the list with `List`, reads its elements
until `EOL`, and leaves it with `ListEnd`. Inside a list that ends where the input does, the
stream's two limits, the rest of the innermost list and the rest of the input, are both the
bytes the reader has not returned. So every read of bytes that are there succeeds as at top
level, and charges them to the list; at the end of the input the list is at its end, `Kind`
returns `EOL` and `ListEnd` leaves the list. A stream at top level is the case of no list:
`Raw_New` and `Bytes_New_encode` are the reads of `DecodeBytes`.

The reads are proved for a list that ends `k` bytes before the input (`Stream.Inside`), as the
list of a handshake message with padding after it does: they stay in the list, so what follows
it is never looked at. A list that ends with the input (`Stream.Exact`) is the case `k = 0`.
-/

namespace EthereumAI.Rlp

open Lib.StateExcept

/-- The stack after `willRead` charged `n` bytes to the innermost list. -/
def charge (stack : List listpos) (n : ℕ) : List listpos :=
  match stack with
  | [] => []
  | tos :: rest => ⟨tos.pos + n, tos.size⟩ :: rest

@[simp] theorem length_charge (stack : List listpos) (n : ℕ) : (charge stack n).length = stack.length := by
  cases stack <;> rfl

theorem charge_charge (stack : List listpos) (m n : ℕ) : charge (charge stack m) n = charge stack (m + n) := by
  cases stack with
  | nil => rfl
  | cons tos rest => simp [charge, Nat.add_assoc]

namespace Stream

/-- The stream is limited to the bytes the reader has not returned, and the innermost open list,
if there is one, ends with them. -/
structure Exact (s : Stream) : Prop where
  limited : s.limited = true
  remaining : s.remaining = s.r.length
  stack : ∀ tos ∈ s.stack.head?, tos.pos ≤ tos.size ∧ tos.size - tos.pos = s.r.length

/-- The stream is limited to the bytes the reader has not returned, and the innermost open list,
if there is one, ends `k` bytes before them: the input goes on past the list, as a padded
handshake message does. -/
structure Inside (s : Stream) (k : ℕ) : Prop where
  limited : s.limited = true
  remaining : s.remaining = s.r.length
  stack : ∀ tos ∈ s.stack.head?, tos.pos ≤ tos.size ∧ tos.size - tos.pos + k = s.r.length

variable {s : Stream} {n k : ℕ}

theorem Exact.inside (hs : s.Exact) : s.Inside 0 := ⟨hs.limited, hs.remaining, by simpa using hs.stack⟩

theorem Inside.exact (hs : s.Inside 0) : s.Exact := ⟨hs.limited, hs.remaining, by simpa using hs.stack⟩

theorem AtTop.exact (hs : s.AtTop) : s.Exact := ⟨hs.limited, hs.remaining, by simp [hs.stack]⟩

theorem Inside.drop (hs : s.Inside k) (hn : n + k ≤ s.r.length) (kind : Option Rlp.Kind) :
    Inside { s with kind := kind, stack := charge s.stack n, remaining := s.remaining - n, r := s.r.drop n } k := by
  refine ⟨hs.limited, by simp [hs.remaining], ?_⟩
  cases hst : s.stack with
  | nil => simp [charge]
  | cons tos rest =>
    obtain ⟨hle, heq⟩ := hs.stack tos (by simp [hst])
    simp only [charge, List.head?_cons, Option.mem_def, Option.some.injEq, forall_eq', List.length_drop]
    omega

theorem Exact.drop (hs : s.Exact) (hn : n ≤ s.r.length) (kind : Option Rlp.Kind) :
    Exact { s with kind := kind, stack := charge s.stack n, remaining := s.remaining - n, r := s.r.drop n } :=
  (hs.inside.drop (by omega) kind).exact

theorem willRead_inside (hs : s.Inside k) (hn : n + k ≤ s.r.length) :
    runFrom (willRead n) s =
      (.ok ⟨⟩, { s with kind := none, stack := charge s.stack n, remaining := s.remaining - n }) := by
  obtain ⟨r, remaining, limited, kind, size, byteval, kinderr, stack⟩ := s
  obtain ⟨hl, hrem, hst⟩ := hs
  dsimp only at hl hrem hst hn ⊢
  subst hl hrem
  cases stack with
  | nil =>
    simp only [willRead, runFrom_bind, runFrom_modify, runFrom_get, runFrom_set, charge, if_pos,
      if_neg (show ¬ r.length < n by omega), gt_iff_lt]
  | cons tos rest =>
    obtain ⟨hle, heq⟩ := hst tos rfl
    simp only [willRead, runFrom_bind, runFrom_modify, runFrom_get, runFrom_set, charge, if_pos,
      if_neg (show ¬ r.length < n by omega), if_neg (show ¬ tos.size - tos.pos < n by omega), gt_iff_lt]

theorem willRead_exact (hs : s.Exact) (hn : n ≤ s.r.length) :
    runFrom (willRead n) s =
      (.ok ⟨⟩, { s with kind := none, stack := charge s.stack n, remaining := s.remaining - n }) :=
  willRead_inside hs.inside (by omega)

theorem readByte_inside {x : UInt8} {tl : EthereumAI.Bytes} (hs : s.Inside k) (hr : s.r = x :: tl)
    (hk : 1 + k ≤ s.r.length) :
    runFrom readByte s =
      (.ok x, { s with kind := none, stack := charge s.stack 1, remaining := s.remaining - 1, r := tl }) := by
  have hw := willRead_inside hs hk
  rw [readByte, runFrom_bind_ok hw]
  simp only [runFrom_bind, runFrom_get, hr, runFrom_set, runFrom_pure]

theorem readByte_exact {x : UInt8} {tl : EthereumAI.Bytes} (hs : s.Exact) (hr : s.r = x :: tl) :
    runFrom readByte s =
      (.ok x, { s with kind := none, stack := charge s.stack 1, remaining := s.remaining - 1, r := tl }) :=
  readByte_inside hs.inside hr (by simp [hr])

theorem readFull_inside (hs : s.Inside k) (hn : n + k ≤ s.r.length) :
    runFrom (readFull n) s = (.ok (s.r.take n),
      { s with kind := none, stack := charge s.stack n, remaining := s.remaining - n, r := s.r.drop n }) := by
  have hw := willRead_inside hs hn
  rw [readFull, runFrom_bind_ok hw]
  simp only [runFrom_bind, runFrom_get, if_pos (show n ≤ s.r.length by omega), runFrom_set, runFrom_pure]

theorem readFull_exact (hs : s.Exact) (hn : n ≤ s.r.length) :
    runFrom (readFull n) s = (.ok (s.r.take n),
      { s with kind := none, stack := charge s.stack n, remaining := s.remaining - n, r := s.r.drop n }) :=
  readFull_inside hs.inside (by omega)

/-- A size or an integer of one to eight bytes, the first not zero when there are two or more. -/
theorem readUint_inside (hs : s.Inside k) (h0 : 0 < n) (hn : n + k ≤ s.r.length)
    (hz : 2 ≤ n → s.r.headD 0 ≠ 0) :
    runFrom (readUint n) s = (.ok (bigEndian (s.r.take n)),
      { s with kind := none, stack := charge s.stack n, remaining := s.remaining - n, r := s.r.drop n }) := by
  obtain _ | _ | m := n
  · omega
  · -- one byte is read as a byte
    obtain ⟨x, tl, hr⟩ : ∃ x tl, s.r = x :: tl := by
      cases h : s.r with
      | nil => simp [h] at hn
      | cons x tl => exact ⟨x, tl, rfl⟩
    rw [readUint, runFrom_bind_ok (readByte_inside hs hr (by omega))]
    simp [hr, bigEndian]
  · -- more bytes are read in full, and the first must not be zero
    have hhead : (s.r.take (m + 2)).headD 0 ≠ 0 := by
      cases h : s.r with
      | nil => simp [h] at hn
      | cons x tl => simpa [h] using hz (by omega)
    rw [readUint, runFrom_bind_ok (readFull_inside hs hn)]
    · simp only [if_neg hhead, runFrom_pure]
    all_goals omega

theorem readUint_exact (hs : s.Exact) (h0 : 0 < n) (hn : n ≤ s.r.length) (hz : 2 ≤ n → s.r.headD 0 ≠ 0) :
    runFrom (readUint n) s = (.ok (bigEndian (s.r.take n)),
      { s with kind := none, stack := charge s.stack n, remaining := s.remaining - n, r := s.r.drop n }) :=
  readUint_inside hs.inside h0 (by omega) hz

end Stream

/-! ## Headers -/

theorem readLongSize_inside {s : Stream} {slen size k : ℕ} (hs : s.Inside k) (hslen : 0 < slen)
    (h : readSize s.r slen = .ok size) (hk : slen + k ≤ s.r.length) :
    runState (Stream.readLongSize slen) s = ((size, none),
      { s with kind := none, stack := charge s.stack slen, remaining := s.remaining - slen, r := s.r.drop slen }) := by
  obtain ⟨hlen, rfl, h56, hz⟩ := readSize_spec h
  unfold Stream.readLongSize
  rw [runState_bind, runState_run, Stream.readUint_inside hs hslen hk (fun _ => hz)]
  simp only [if_neg (show ¬ Stream.bigEndian (s.r.take slen) < 56 by omega), runState_pure]

theorem Stream.Inside.tail {s : Stream} {k : ℕ} {x : UInt8} {tl : EthereumAI.Bytes} (hs : s.Inside k)
    (hr : s.r = x :: tl) (hk : 1 + k ≤ s.r.length) (kind : Option Rlp.Kind) (byteval : UInt8) :
    Stream.Inside
      { s with kind := kind, stack := charge s.stack 1, remaining := s.remaining - 1, r := tl, byteval := byteval }
      k := by
  have h1 := hs.drop hk kind
  rw [hr, List.drop_one, List.tail_cons] at h1
  exact ⟨h1.limited, h1.remaining, h1.stack⟩

theorem readKind_inside {s : Stream} {k₀ : ℕ} {x : UInt8} {tl : Bytes} {k : Kind} {ts cs : ℕ}
    (hs : s.Inside k₀) (hr : s.r = x :: tl) (h : readHeader x tl = .ok (k, ts, cs)) (hfit : max ts 1 + k₀ ≤ s.r.length) :
    runState Stream.readKind s = ((k, if k = .Byte then 0 else cs, none),
      { s with kind := none, stack := charge s.stack (max ts 1), remaining := s.remaining - max ts 1,
               r := s.r.drop (max ts 1), byteval := if k = .Byte then x else 0 }) := by
  unfold Stream.readKind
  rw [runState_bind, runState_run, Stream.readByte_inside hs hr (by omega)]
  dsimp only
  have htl : tl.length + 1 = s.r.length := by simp [hr]
  unfold readHeader at h
  split_ifs at h with h80 hB8 hC0 hF8
  · -- a single byte is its own value
    cases h
    simp [runState_bind, h80, hr]
  · -- a short string
    dsimp only at h
    split_ifs at h
    cases h
    simp [h80, hB8, hr]
  · -- a long string: the size follows in `x - 0xB7` bytes
    obtain ⟨size, hsize, hk⟩ := Lib.except_bind_eq_ok.mp h
    cases hk
    simp only [runState_bind, runState_modify, if_neg h80, if_neg hB8, if_pos hC0]
    rw [readLongSize_inside (hs.tail hr (by omega) none 0) (toNat_sub_pos 0xB7 hB8 (by decide)) hsize
      (by dsimp only; omega)]
    simp [hr, Nat.sub_sub, Nat.add_comm 1, charge_charge]
  · -- a short list
    cases h
    simp [h80, hB8, hC0, hF8, hr]
  · -- a long list
    obtain ⟨size, hsize, hk⟩ := Lib.except_bind_eq_ok.mp h
    cases hk
    simp only [runState_bind, runState_modify, if_neg h80, if_neg hB8, if_neg hC0, if_neg hF8]
    rw [readLongSize_inside (hs.tail hr (by omega) none 0) (toNat_sub_pos 0xF7 hF8 (by decide)) hsize
      (by dsimp only; omega)]
    simp [hr, Nat.sub_sub, Nat.add_comm 1, charge_charge]

theorem readKind_short {s : Stream} {x : UInt8} {tl : Bytes} (hs : s.Exact) (hr : s.r = x :: tl)
    (h80 : ¬ x < 0x80) (hB8 : x < 0xB8) :
    runState Stream.readKind s = ((.String, (x - 0x80).toNat, none),
      { s with kind := none, stack := charge s.stack 1, remaining := s.remaining - 1, r := s.r.drop 1,
               byteval := 0 }) := by
  unfold Stream.readKind
  rw [runState_bind, runState_run, Stream.readByte_exact hs hr]
  simp [h80, hB8, hr]

/-- `Kind` inside a list that ends `k` bytes before the input, once `readKind` read a header of
`n` bytes without an error: the content it announces is in the list, so neither limit is hit. -/
theorem Kind_inside_of {s : Stream} {k₀ : ℕ} {k : Kind} {n size : ℕ} {bv : UInt8} (hs : s.Inside k₀)
    (hk : s.kind = none) (h0 : 0 < n) (hfit : n + size + k₀ ≤ s.r.length)
    (hrk : runState Stream.readKind { s with kinderr := none } = ((k, size, none),
      { s with kinderr := none, kind := none, stack := charge s.stack n, remaining := s.remaining - n,
               r := s.r.drop n, byteval := bv })) :
    runFrom Stream.Kind s = (.ok (k, size),
      { s with kind := some k, size := size, kinderr := none, stack := charge s.stack n,
               remaining := s.remaining - n, r := s.r.drop n, byteval := bv }) := by
  obtain ⟨r, remaining, limited, kind, size', byteval, kinderr, stack⟩ := s
  obtain ⟨hl, hrem, hst⟩ := hs
  dsimp only at hk hl hrem hrk hfit hst ⊢
  subst hk hl hrem
  unfold Stream.Kind
  cases stack with
  | nil =>
    simp only [runFrom_bind, runFrom_get, runFrom_modify, runFrom_lift, hrk]
    simp [show ¬ r.length - n < size by omega, charge, runFrom_bind]
  | cons tos rest =>
    obtain ⟨hle, heq⟩ := hst tos rfl
    simp only [runFrom_bind, runFrom_get, runFrom_modify, runFrom_lift,
      if_neg (show tos.pos ≠ tos.size by omega), hrk]
    simp [charge, runFrom_bind, show ¬ tos.size - (tos.pos + n) < size by omega]

theorem Kind_exact_of {s : Stream} {k : Kind} {n size : ℕ} {bv : UInt8} (hs : s.Exact) (hk : s.kind = none)
    (h0 : 0 < n) (hfit : n + size ≤ s.r.length)
    (hrk : runState Stream.readKind { s with kinderr := none } = ((k, size, none),
      { s with kinderr := none, kind := none, stack := charge s.stack n, remaining := s.remaining - n,
               r := s.r.drop n, byteval := bv })) :
    runFrom Stream.Kind s = (.ok (k, size),
      { s with kind := some k, size := size, kinderr := none, stack := charge s.stack n,
               remaining := s.remaining - n, r := s.r.drop n, byteval := bv }) :=
  Kind_inside_of hs.inside hk h0 (by omega) hrk

theorem Kind_inside {s : Stream} {k₀ : ℕ} {k : Kind} {ts cs : ℕ} (hs : s.Inside k₀) (hk : s.kind = none)
    (h : readKind s.r = .ok (k, ts, cs)) (hfit : max ts 1 + (if k = .Byte then 0 else cs) + k₀ ≤ s.r.length) :
    runFrom Stream.Kind s = (.ok (k, if k = .Byte then 0 else cs),
      { s with kind := some k, size := if k = .Byte then 0 else cs, kinderr := none,
               stack := charge s.stack (max ts 1), remaining := s.remaining - max ts 1,
               r := s.r.drop (max ts 1), byteval := if k = .Byte then s.r.headD 0 else 0 }) := by
  obtain ⟨x, tl, hr⟩ : ∃ x tl, s.r = x :: tl := by
    cases hr : s.r with
    | nil => rw [hr] at h; cases h
    | cons x tl => exact ⟨x, tl, rfl⟩
  rw [hr] at h
  obtain ⟨⟨k', ts', cs'⟩, hh, hk'⟩ := Lib.except_bind_eq_ok.mp h
  dsimp only at hk'
  split_ifs at hk' with hcs
  cases hk'
  have hrk := readKind_inside (s := { s with kinderr := none }) ⟨hs.limited, hs.remaining, hs.stack⟩ hr hh
    (by dsimp only; omega)
  rw [show s.r.headD 0 = x by rw [hr]; rfl]
  exact Kind_inside_of hs hk (by omega) hfit hrk

theorem Kind_exact {s : Stream} {k : Kind} {ts cs : ℕ} (hs : s.Exact) (hk : s.kind = none)
    (h : readKind s.r = .ok (k, ts, cs)) :
    runFrom Stream.Kind s = (.ok (k, if k = .Byte then 0 else cs),
      { s with kind := some k, size := if k = .Byte then 0 else cs, kinderr := none,
               stack := charge s.stack (max ts 1), remaining := s.remaining - max ts 1,
               r := s.r.drop (max ts 1), byteval := if k = .Byte then s.r.headD 0 else 0 }) := by
  obtain ⟨hpos, hle, hhead⟩ := readKind_spec h
  have hfit : max ts 1 + (if k = .Byte then 0 else cs) + 0 ≤ s.r.length := by
    split_ifs with hb
    · omega
    · have := hhead hb
      omega
  exact Kind_inside hs.inside hk h hfit

theorem Kind_EOL_inside {s : Stream} {k : ℕ} {tos : listpos} {rest : List listpos} (hs : s.Inside k)
    (hk : s.kind = none) (hst : s.stack = tos :: rest) (hr : s.r.length = k) :
    runFrom Stream.Kind s = (.error .EOL, { s with kinderr := none }) := by
  obtain ⟨hle, heq⟩ := hs.stack tos (by simp [hst])
  unfold Stream.Kind
  simp only [runFrom_bind, runFrom_get, hk, runFrom_modify, hst, if_pos (show tos.pos = tos.size by omega),
    runFrom_throw]

theorem Kind_EOL {s : Stream} {tos : listpos} {rest : List listpos} (hs : s.Exact) (hk : s.kind = none)
    (hst : s.stack = tos :: rest) (hr : s.r = []) :
    runFrom Stream.Kind s = (.error .EOL, { s with kinderr := none }) :=
  Kind_EOL_inside hs.inside hk hst (by simp [hr])

/-! ## Values -/

/-- A stream ready to read its next value inside `depth` open lists, the innermost ending with
the input. -/
structure Stream.Ready (s : Stream) (depth : ℕ) : Prop where
  exact : s.Exact
  kind : s.kind = none
  depth : s.stack.length = depth

/-- A stream ready to read its next value inside `depth` open lists, the innermost ending `k`
bytes before the input. -/
structure Stream.ReadyIn (s : Stream) (depth k : ℕ) : Prop where
  inside : s.Inside k
  kind : s.kind = none
  depth : s.stack.length = depth

theorem Stream.Ready.readyIn {s : Stream} {d : ℕ} (hs : s.Ready d) : s.ReadyIn d 0 :=
  ⟨hs.exact.inside, hs.kind, hs.depth⟩

theorem Stream.ReadyIn.ready {s : Stream} {d : ℕ} (hs : s.ReadyIn d 0) : s.Ready d :=
  ⟨hs.inside.exact, hs.kind, hs.depth⟩

theorem Stream.AtTop.ready {s : Stream} (hs : s.AtTop) (hk : s.kind = none) : s.Ready 0 :=
  ⟨hs.exact, hk, by simp [hs.stack]⟩

theorem Stream.Inside.header {s : Stream} {k : ℕ} (hs : s.Inside k) {n : ℕ} (hn : n + k ≤ s.r.length)
    (kind : Option Rlp.Kind) (size : ℕ) (kinderr : Option Err) (byteval : UInt8) :
    Stream.Inside
      { s with kind := kind, size := size, kinderr := kinderr, stack := charge s.stack n,
               remaining := s.remaining - n, r := s.r.drop n, byteval := byteval } k := by
  have e := hs.drop hn kind
  exact ⟨e.limited, e.remaining, e.stack⟩

theorem Stream.Exact.header {s : Stream} (hs : s.Exact) {n : ℕ} (hn : n ≤ s.r.length) (kind : Option Rlp.Kind)
    (size : ℕ) (kinderr : Option Err) (byteval : UInt8) :
    Stream.Exact
      { s with kind := kind, size := size, kinderr := kinderr, stack := charge s.stack n,
               remaining := s.remaining - n, r := s.r.drop n, byteval := byteval } :=
  (hs.inside.header (by omega) kind size kinderr byteval).exact

theorem Kind_readyIn {s : Stream} {d k₀ : ℕ} {k : Kind} {ts cs : ℕ} (hs : s.ReadyIn d k₀)
    (h : readKind s.r = .ok (k, ts, cs)) (hfit : max ts 1 + (if k = .Byte then 0 else cs) + k₀ ≤ s.r.length) :
    ∃ s₁ : Stream, runFrom Stream.Kind s = (.ok (k, if k = .Byte then 0 else cs), s₁) ∧
      s₁.Inside k₀ ∧ s₁.stack.length = d ∧ s₁.r = s.r.drop (max ts 1) ∧ (k = .Byte → s₁.byteval = s.r.headD 0) :=
  ⟨_, Kind_inside hs.inside hs.kind h hfit, hs.inside.header (by omega) _ _ _ _, by simp [hs.depth], rfl,
    fun hb => by simp [hb]⟩

theorem Kind_ready {s : Stream} {d : ℕ} {k : Kind} {ts cs : ℕ} (hs : s.Ready d)
    (h : readKind s.r = .ok (k, ts, cs)) :
    ∃ s₁ : Stream, runFrom Stream.Kind s = (.ok (k, if k = .Byte then 0 else cs), s₁) ∧
      s₁.Exact ∧ s₁.stack.length = d ∧ s₁.r = s.r.drop (max ts 1) ∧ (k = .Byte → s₁.byteval = s.r.headD 0) := by
  obtain ⟨hpos, hle, hhead⟩ := readKind_spec h
  have hfit : max ts 1 + (if k = .Byte then 0 else cs) + 0 ≤ s.r.length := by
    split_ifs with hb
    · omega
    · have := hhead hb
      omega
  obtain ⟨s₁, hK, hin, hd₁, hr₁, hb₁⟩ := Kind_readyIn hs.readyIn h hfit
  exact ⟨s₁, hK, hin.exact, hd₁, hr₁, hb₁⟩

theorem Kind_readyIn_header {s : Stream} {d k₀ : ℕ} {k : Kind} {hdr c rest : Bytes} (hs : s.ReadyIn d k₀)
    (hk : k ≠ .Byte) (h : readKind (hdr ++ (c ++ rest)) = .ok (k, hdr.length, c.length))
    (hr : s.r = hdr ++ (c ++ rest)) (hfit : k₀ ≤ rest.length) :
    ∃ s₁ : Stream, runFrom Stream.Kind s = (.ok (k, c.length), s₁) ∧
      s₁.Inside k₀ ∧ s₁.stack.length = d ∧ s₁.r = c ++ rest := by
  rw [← hr] at h
  have hts : 0 < hdr.length := (readKind_spec h).2.2 hk
  obtain ⟨s₁, hK, hin, hd₁, hr₁, -⟩ := Kind_readyIn hs h (by simp [hr, if_neg hk]; omega)
  rw [if_neg hk] at hK
  refine ⟨s₁, hK, hin, hd₁, ?_⟩
  rw [hr₁, hr, Nat.max_eq_left hts, List.drop_left' rfl]

theorem Kind_ready_header {s : Stream} {d : ℕ} {k : Kind} {hdr c rest : Bytes} (hs : s.Ready d) (hk : k ≠ .Byte)
    (h : readKind (hdr ++ (c ++ rest)) = .ok (k, hdr.length, c.length)) (hr : s.r = hdr ++ (c ++ rest)) :
    ∃ s₁ : Stream, runFrom Stream.Kind s = (.ok (k, c.length), s₁) ∧
      s₁.Exact ∧ s₁.stack.length = d ∧ s₁.r = c ++ rest := by
  obtain ⟨s₁, hK, hin, hd₁, hr₁⟩ := Kind_readyIn_header hs.readyIn hk h hr (Nat.zero_le _)
  exact ⟨s₁, hK, hin.exact, hd₁, hr₁⟩

theorem Stream.Inside.ready_rearm {s : Stream} {d k : ℕ} (hs : s.Inside k) (hd : s.stack.length = d) :
    Stream.ReadyIn { s with kind := none } d k :=
  ⟨⟨hs.limited, hs.remaining, hs.stack⟩, rfl, hd⟩

theorem Stream.Exact.ready_rearm {s : Stream} {d : ℕ} (hs : s.Exact) (hd : s.stack.length = d) :
    Stream.Ready { s with kind := none } d :=
  (hs.inside.ready_rearm hd).ready

theorem Stream.Inside.ready_drop {s : Stream} {d n k : ℕ} (hs : s.Inside k) (hd : s.stack.length = d)
    (hn : n + k ≤ s.r.length) :
    Stream.ReadyIn { s with kind := none, stack := charge s.stack n, remaining := s.remaining - n, r := s.r.drop n }
      d k :=
  ⟨hs.drop hn none, rfl, by simp [hd]⟩

theorem Stream.Exact.ready_drop {s : Stream} {d n : ℕ} (hs : s.Exact) (hd : s.stack.length = d)
    (hn : n ≤ s.r.length) :
    Stream.Ready { s with kind := none, stack := charge s.stack n, remaining := s.remaining - n, r := s.r.drop n } d :=
  (hs.inside.ready_drop hd (by omega)).ready

theorem Raw_content {s s₁ : Stream} {k : Kind} {size : ℕ} (hK : runFrom Stream.Kind s = (.ok (k, size), s₁))
    (hk : k ≠ .Byte) (hex : s₁.Exact) (hn : size ≤ s₁.r.length) :
    runFrom Stream.Raw s =
      (.ok ((if k = .String then puthead 0x80 0xB7 size else puthead 0xC0 0xF7 size) ++ s₁.r.take size),
        { s₁ with kind := none, stack := charge s₁.stack size, remaining := s₁.remaining - size,
                  r := s₁.r.drop size }) := by
  unfold Stream.Raw
  rw [runFrom_bind_ok hK]
  cases k with
  | Byte => exact absurd rfl hk
  | String | List =>
    dsimp only
    rw [runFrom_bind_ok (Stream.readFull_exact hex hn)]
    rfl

/-- `Raw` inside a list returns what `Split` consumes of the input. -/
theorem Raw_ready {s : Stream} {d : ℕ} {content rest : Bytes} {k : Kind} (hs : s.Ready d)
    (h : Split s.r = .ok (k, content, rest)) :
    ∃ s', runFrom Stream.Raw s = (.ok (s.r.take (s.r.length - rest.length)), s') ∧ s'.Ready d ∧ s'.r = rest := by
  obtain ⟨⟨k', ts, cs⟩, hk, hsplit⟩ := Lib.except_bind_eq_ok.mp h
  cases hsplit
  obtain ⟨hpos, hle, hhead⟩ := readKind_spec hk
  have hrest : s.r.length - (s.r.drop (ts + cs)).length = ts + cs := by
    simp only [List.length_drop]
    omega
  rw [hrest]
  obtain ⟨s₁, hK, hex, hd₁, hr₁, hb₁⟩ := Kind_ready hs hk
  obtain ⟨x, tl, hr⟩ : ∃ x tl, s.r = x :: tl := by
    cases hr : s.r with
    | nil => rw [hr] at hk; cases hk
    | cons x tl => exact ⟨x, tl, rfl⟩
  rw [hr] at hk
  obtain ⟨⟨k₁, ts₁, cs₁⟩, hh, hk₁⟩ := Lib.except_bind_eq_ok.mp hk
  dsimp only at hk₁
  split_ifs at hk₁ with hcs
  cases hk₁
  by_cases hb : k = .Byte
  · -- a single byte is its own encoding
    subst hb
    obtain ⟨rfl, rfl⟩ := readHeader_byte hh
    unfold Stream.Raw
    rw [runFrom_bind_ok hK]
    simp only [runFrom_bind, runFrom_modify, runFrom_get, runFrom_pure]
    refine ⟨_, ?_, hex.ready_rearm hd₁, by simp [hr₁, hr]⟩
    simp [hb₁ rfl, hr]
  · -- the header written for the size read is the header read
    have hts : 0 < ts := hhead hb
    have hn : cs ≤ s₁.r.length := by
      rw [hr₁, List.length_drop]
      omega
    have hhdr : (if k = .String then puthead 0x80 0xB7 cs else puthead 0xC0 0xF7 cs) = (x :: tl).take ts := by
      cases k with
      | Byte => exact absurd rfl hb
      | String => exact (puthead_readHeader hh).1 rfl
      | List => exact (puthead_readHeader hh).2 rfl
    have hval : (if k = .String then puthead 0x80 0xB7 cs else puthead 0xC0 0xF7 cs) ++ s₁.r.take cs =
        s.r.take (ts + cs) := by
      rw [hhdr, hr₁, hr, Nat.max_eq_left hts, List.take_add]
    rw [if_neg hb] at hK
    refine ⟨_, ?_, hex.ready_drop hd₁ hn, by simp [hr₁, Nat.max_eq_left hts, List.drop_drop]⟩
    rw [Raw_content hK hb hex hn, hval]

/-- `Bytes` inside a list reads a string from its encoding. -/
theorem Bytes_ready_encode {s : Stream} {d : ℕ} {b rest : Bytes} (hs : s.Ready d)
    (h : (Item.str b).encode.length < 2 ^ 64) (hr : s.r = (Item.str b).encode ++ rest) :
    ∃ s', runFrom Stream.Bytes s = (.ok b, s') ∧ s'.Ready d ∧ s'.r = rest := by
  unfold Stream.Bytes
  by_cases hb : SingleByte b
  · -- a single byte is read with its header
    have hk := readKind_encode (.str b) h rest
    rw [← hr] at hk
    obtain ⟨s₁, hK, hex, hd₁, hr₁, hb₁⟩ := Kind_ready hs hk
    rw [runFrom_bind_ok hK]
    obtain ⟨h1, hx⟩ := hb
    obtain ⟨x, rfl⟩ := List.length_eq_one_iff.mp h1
    have hsb : SingleByte [x] := ⟨h1, hx⟩
    have henc : (Item.str [x]).encode = [x] := if_pos hsb
    have hkind : (Item.str [x]).kind = .Byte := if_pos hsb
    simp only [hkind, runFrom_bind, runFrom_modify, runFrom_get, runFrom_pure]
    refine ⟨_, ?_, hex.ready_rearm hd₁, ?_⟩
    · simp [hb₁ hkind, hr, henc]
    · simp [hr₁, hr, henc, Item.content]
  · -- a string: the header is followed by the content, read in full
    have henc : (Item.str b).encode = puthead 0x80 0xB7 b.length ++ b := if_neg hb
    rw [henc, List.append_assoc] at hr
    have hb64 : b.length < 2 ^ 64 := by
      rw [henc, List.length_append] at h
      omega
    obtain ⟨s₁, hK, hex, hd₁, hdrop⟩ := Kind_ready_header hs (by decide) (readKind_string hb hb64 rest) hr
    have hn : b.length ≤ s₁.r.length := by simp [hdrop]
    rw [runFrom_bind_ok hK]
    dsimp only
    rw [runFrom_bind_ok (Stream.readFull_exact hex hn)]
    have hcanon : ¬ (b.length = 1 ∧ (s₁.r.take b.length).headD 0 < 128) := by
      rintro ⟨h1, hx⟩
      apply hb
      refine ⟨h1, ?_⟩
      rw [hdrop, List.take_left' rfl] at hx
      exact UInt8.le_iff_toNat_le.mpr (by have := UInt8.lt_iff_toNat_lt.mp hx; simp at this ⊢; omega)
    rw [if_neg hcanon, runFrom_pure]
    refine ⟨_, ?_, hex.ready_drop hd₁ hn, by simp [hdrop]⟩
    rw [hdrop, List.take_left' rfl]

theorem List_readyIn {s : Stream} {d k : ℕ} {payload rest : Bytes} (hs : s.ReadyIn d k)
    (h : payload.length < 2 ^ 64) (hr : s.r = puthead 0xC0 0xF7 payload.length ++ (payload ++ rest))
    (hk : k ≤ rest.length) :
    ∃ s', runFrom Stream.List s = (.ok payload.length, s') ∧ s'.ReadyIn (d + 1) rest.length ∧
      s'.r = payload ++ rest := by
  obtain ⟨s₁, hK, hin, hd₁, hpay⟩ := Kind_readyIn_header hs (by decide) (readKind_list h rest) hr hk
  unfold Stream.List
  rw [runFrom_bind_ok hK]
  simp only [ne_eq, not_true_eq_false, if_false, runFrom_bind, runFrom_modify, runFrom_pure]
  refine ⟨_, rfl, ⟨⟨hin.limited, hin.remaining, ?_⟩, rfl, by simp [hd₁]⟩, hpay⟩
  simp [hpay]

theorem List_ready {s : Stream} {d : ℕ} {payload : Bytes} (hs : s.Ready d) (h : payload.length < 2 ^ 64)
    (hr : s.r = puthead 0xC0 0xF7 payload.length ++ payload) :
    ∃ s', runFrom Stream.List s = (.ok payload.length, s') ∧ s'.Ready (d + 1) ∧ s'.r = payload := by
  obtain ⟨s', hrun, hin, hr'⟩ := List_readyIn hs.readyIn h (by rw [List.append_nil, hr]) (Nat.zero_le _)
  rw [List.append_nil] at hr'
  exact ⟨s', hrun, hin.ready, hr'⟩

theorem Bytes_EOL {s : Stream} {d : ℕ} (hs : s.Ready (d + 1)) (hr : s.r = []) :
    runFrom Stream.Bytes s = (.error .EOL, { s with kinderr := none }) := by
  obtain ⟨tos, rest, hst⟩ : ∃ tos rest, s.stack = tos :: rest := by
    cases h : s.stack with
    | nil => have := hs.depth; rw [h] at this; cases this
    | cons tos rest => exact ⟨tos, rest, rfl⟩
  unfold Stream.Bytes
  rw [runFrom_bind_error (Kind_EOL hs.exact hs.kind hst hr)]

theorem ListEnd_inside {s : Stream} {k : ℕ} {tos : listpos} {rest : List listpos} (hs : s.Inside k)
    (hst : s.stack = tos :: rest) (hr : s.r.length = k) :
    runFrom Stream.ListEnd s = (.ok ⟨⟩, { s with stack := charge rest tos.size, kind := none, size := 0 }) := by
  obtain ⟨hle, heq⟩ := hs.stack tos (by simp [hst])
  unfold Stream.ListEnd
  simp only [runFrom_bind, runFrom_get, hst, if_neg (show ¬ tos.pos ≠ tos.size by omega)]
  cases rest <;> rfl

theorem ListEnd_EOL {s : Stream} {tos : listpos} {rest : List listpos} (hs : s.Exact)
    (hst : s.stack = tos :: rest) (hr : s.r = []) :
    runFrom Stream.ListEnd s = (.ok ⟨⟩, { s with stack := charge rest tos.size, kind := none, size := 0 }) :=
  ListEnd_inside hs.inside hst (by simp [hr])

theorem putint_of_lt_256 {n : ℕ} (h : n < 256) : putint n = [n.toUInt8] := by
  rw [putint, if_pos (by simpa using h), show 1 = 0 + 1 from rfl, bigEndianBytes_succ]
  simp [bigEndianBytes, Nat.mod_eq_of_lt h]

theorem not_singleByte_putint {n : ℕ} (h : n < 2 ^ 64) (h128 : 128 ≤ n) : ¬ SingleByte (putint n) := by
  rintro ⟨h1, hx⟩
  obtain ⟨k, -, -, hk, hlow, he⟩ := putint_eq n h
  have hk1 : k = 1 := by
    rw [he, length_bigEndianBytes] at h1
    exact h1
  subst hk1
  rw [putint_of_lt_256 (by simpa using hk), List.headD_cons] at hx
  have := UInt8.le_iff_toNat_le.mp hx
  simp [Nat.toUInt8, Nat.mod_eq_of_lt (show n < 256 by simpa using hk)] at this
  omega

/-- `uint 64` inside a list that holds the value reads an integer below 2^64 from its encoding as
a string of its big-endian bytes, empty for zero. -/
theorem uint_readyIn_encode {s : Stream} {d k n : ℕ} {rest : Bytes} (hs : s.ReadyIn d k) (hn : n < 2 ^ 64)
    (hr : s.r = (Item.str (if n = 0 then [] else putint n)).encode ++ rest) (hk : k ≤ rest.length) :
    ∃ s', runFrom (Stream.uint 64) s = (.ok n, s') ∧ s'.ReadyIn d k ∧ s'.r = rest := by
  unfold Stream.uint
  rcases Nat.eq_zero_or_pos n with rfl | hpos
  · -- zero is the empty string, read as zero bytes
    have hk' : readKind s.r = .ok (.String, 1, 0) := by
      rw [hr]
      rfl
    obtain ⟨s₁, hK, hin, hd₁, hr₁, -⟩ := Kind_readyIn hs hk' (by simp [hr, Item.encode, SingleByte, puthead]; omega)
    have hz : runFrom (Stream.readUint 0) s₁ = (.ok 0, { s₁ with kind := none }) := rfl
    rw [runFrom_bind_ok hK]
    simp only [if_neg (show Kind.String ≠ Kind.Byte by decide), if_neg (show ¬ 0 > 64 / 8 by decide),
      runFrom_bind, runFrom_tryCatch_ok hz, lt_self_iff_false, false_and, if_false, runFrom_pure]
    refine ⟨_, rfl, hin.ready_rearm hd₁, ?_⟩
    simp [hr₁, hr, Item.encode, SingleByte, puthead]
  rcases Nat.lt_or_ge n 128 with h128 | h128
  · -- a small integer is its own encoding
    have hb : putint n = [n.toUInt8] := putint_of_lt_256 (by omega)
    have hx : n.toUInt8.toNat = n := by simp [Nat.toUInt8, Nat.mod_eq_of_lt (show n < 256 by omega)]
    have hsb : SingleByte [n.toUInt8] :=
      ⟨rfl, UInt8.le_iff_toNat_le.mpr (by simp only [List.headD_cons, hx]; simp; omega)⟩
    have henc : (Item.str [n.toUInt8]).encode = [n.toUInt8] := if_pos hsb
    rw [if_neg (by omega), hb, henc] at hr
    have hkind : (Item.str [n.toUInt8]).kind = .Byte := if_pos hsb
    have hk' := readKind_encode (.str [n.toUInt8]) (by simp [henc]) rest
    rw [henc, ← hr, hkind] at hk'
    obtain ⟨s₁, hK, hin, hd₁, hr₁, hb₁⟩ := Kind_readyIn hs hk' (by simp [hr]; omega)
    have hv : s₁.byteval = n.toUInt8 := by rw [hb₁ rfl, hr]; rfl
    rw [runFrom_bind_ok hK]
    simp only [runFrom_bind, runFrom_get, hv]
    rw [if_neg (by rw [← UInt8.toNat_inj, hx]; simp; omega)]
    simp only [runFrom_bind, runFrom_modify, runFrom_pure, hx]
    refine ⟨_, rfl, hin.ready_rearm hd₁, by simp [hr₁, hr, Item.content]⟩
  · -- a larger integer is a string of one to eight bytes, the first not zero
    have hb := not_singleByte_putint hn h128
    obtain ⟨hl0, hl8⟩ := length_putint hn
    have henc : (Item.str (putint n)).encode = puthead 0x80 0xB7 (putint n).length ++ putint n := if_neg hb
    rw [if_neg (by omega), henc, List.append_assoc] at hr
    obtain ⟨s₁, hK, hin, hd₁, hdrop⟩ :=
      Kind_readyIn_header hs (by decide) (readKind_string hb (by omega) rest) hr hk
    have hlen : (putint n).length + k ≤ s₁.r.length := by simp [hdrop]; omega
    have hread := Stream.readUint_inside hin hl0 hlen (fun h2 => by
      rw [hdrop, headD_append_of_pos hl0]
      exact putint_head_ne_zero hn (by omega))
    rw [hdrop, List.take_left' rfl, bigEndian_putint hn, ← hdrop] at hread
    rw [runFrom_bind_ok hK]
    simp only [if_neg (show ¬ (putint n).length > 64 / 8 by omega), runFrom_bind, runFrom_tryCatch_ok hread,
      if_neg (show ¬ ((putint n).length > 0 ∧ n < 128) by omega), runFrom_pure]
    refine ⟨_, rfl, hin.ready_drop hd₁ hlen, by simp [hdrop]⟩

theorem uint_ready_encode {s : Stream} {d n : ℕ} {rest : Bytes} (hs : s.Ready d) (hn : n < 2 ^ 64)
    (hr : s.r = (Item.str (if n = 0 then [] else putint n)).encode ++ rest) :
    ∃ s', runFrom (Stream.uint 64) s = (.ok n, s') ∧ s'.Ready d ∧ s'.r = rest := by
  obtain ⟨s', hrun, hin, hr'⟩ := uint_readyIn_encode hs.readyIn hn hr (Nat.zero_le _)
  exact ⟨s', hrun, hin.ready, hr'⟩

/-! ## At top level -/

theorem Raw_New {b content rest : Bytes} {k : Kind} (h : Split b = .ok (k, content, rest)) :
    (runFrom Stream.Raw (Stream.New b)).1 = .ok (b.take (b.length - rest.length)) := by
  obtain ⟨s', hrun, -⟩ := Raw_ready ((Stream.New_atTop b).ready rfl) h
  rw [hrun]
  rfl

theorem Bytes_New_encode (b rest : Bytes) (h : (Item.str b).encode.length < 2 ^ 64) :
    ∃ s, runFrom Stream.Bytes (Stream.New ((Item.str b).encode ++ rest)) = (.ok b, s) ∧ s.r = rest := by
  obtain ⟨s, hrun, -, hr⟩ := Bytes_ready_encode ((Stream.New_atTop _).ready rfl) h rfl
  exact ⟨s, hrun, hr⟩

end EthereumAI.Rlp
