import EthereumAI.Trie.Trie
import EthereumAI.Lib.PrefixMap

/-! # What a trie node stands for

A node stands for a map from what is left of a HEX key to values: a short node
for the keys that start with its key, a full node for the keys whose first
nibble picks a child, a value node for the empty key, a hash node for the node
stored under its hash. `Denotes db n m s` says that `n`, with its hash nodes
resolved through `db`, stands for `m`, is in the canonical form `insert` and
`delete` keep (no short node below a short node, no full node with fewer than
two children, short keys not empty, the terminator only at the end of a key over
a value, no empty value), and has shape `s` once resolved.

Only keys that end with the terminator are ever looked up (`Term`), and a value
node is reached exactly when the key is used up (`Fits`).
-/

namespace EthereumAI.Trie

open EthereumAI.Lib

/-- What is left of a HEX key made from bytes. -/
def Term (k : Bytes) : Prop := k = [] ∨ ∃ ns, Nibbles ns ∧ k = ns ++ [16]

/-- The shape of a node once its hash nodes are resolved. -/
inductive Shape where
  | empty
  | value
  | short
  | full
  deriving DecidableEq

/-- The map of a full node whose child `i` has map `ms i`. -/
def fullMap (ms : Fin 17 → Bytes → Option Bytes) : Bytes → Option Bytes
  | [] => none
  | x :: rest => if h : x.toNat < 17 then ms ⟨x.toNat, h⟩ rest else none

/-- A short node in canonical form: its key is a HEX key that is not empty, and it
ends with the terminator exactly when the child is a value; otherwise the child
is a full node. -/
def ShortOK (k : Bytes) (s : Shape) : Prop :=
  HexKey k ∧ k ≠ [] ∧ (if hasTerm k then s = .value else s = .full)

/-- What a slot of a full node may hold: each of the sixteen nibble slots a node
or nothing, the value slot a value or nothing. -/
def SlotOK (i : Fin 17) (s : Shape) : Prop :=
  (i.val < 16 → s ≠ .value) ∧ (i.val = 16 → s = .empty ∨ s = .value)

/-- A full node in canonical form: every slot holds what it may, and at least
two are not empty. -/
def FullOK (ss : Fin 17 → Shape) : Prop :=
  (∀ i, SlotOK i (ss i)) ∧ ∃ i j, i ≠ j ∧ ss i ≠ .empty ∧ ss j ≠ .empty

/-- A key `key` that reaches a node of shape `s`: a value exactly when the key
is used up, and nothing but a value or nothing then. -/
def Fits (s : Shape) (key : Bytes) : Prop :=
  (key = [] → s = .empty ∨ s = .value) ∧ (s = .value → key = [])

inductive Denotes (db : Database) : node → (Bytes → Option Bytes) → Shape → Prop
  | nil : Denotes db .nil PrefixMap.empty .empty
  | value (v : Bytes) (hv : v ≠ []) : Denotes db (.valueNode v) (PrefixMap.single v) .value
  | short (k : Bytes) (v : node) (f : nodeFlag) (m : Bytes → Option Bytes) (s : Shape)
      (hv : Denotes db v m s) (hk : ShortOK k s) :
      Denotes db (.shortNode k v f) (PrefixMap.under k m) .short
  | full (cs : List node) (f : nodeFlag) (ms : Fin 17 → Bytes → Option Bytes)
      (ss : Fin 17 → Shape) (hlen : cs.length = 17)
      (hc : ∀ i : Fin 17, Denotes db (cs.getD i .nil) (ms i) (ss i)) (hs : FullOK ss) :
      Denotes db (.fullNode cs f) (fullMap ms) .full
  | hash (h blob : Bytes) (m : Bytes → Option Bytes) (s : Shape) (dec : UInt16 → node)
      (hb : db.Node h = some blob) (hdec : ∀ g, decodeNode (some h) blob g = some (.ok (dec g)))
      (hd : ∀ g, Denotes db (dec g) m s) (hs : s = .short ∨ s = .full) :
      Denotes db (.hashNode h) m s

/-! ## Keys -/

theorem Term.drop {k : Bytes} (h : Term k) (n : ℕ) : Term (k.drop n) := by
  rcases h with rfl | ⟨ns, hn, rfl⟩
  · simp [Term]
  · by_cases hl : n ≤ ns.length
    · right
      refine ⟨ns.drop n, fun x hx => hn x (List.mem_of_mem_drop hx), ?_⟩
      rw [List.drop_append_of_le_length hl]
    · left
      simp only [List.drop_eq_nil_iff, List.length_append, List.length_singleton]
      omega

theorem keybytesToHex_term (key : Bytes) : Term (keybytesToHex key) := by
  right
  refine ⟨key.flatMap fun b => [b / 16, b % 16], ?_, rfl⟩
  intro x hx
  simp only [List.mem_flatMap, List.mem_cons, List.not_mem_nil, or_false] at hx
  obtain ⟨b, -, rfl | rfl⟩ := hx
  · have := UInt8.toNat_lt b
    exact UInt8.lt_iff_toNat_lt.mpr (by simp; omega)
  · exact UInt8.lt_iff_toNat_lt.mpr (by simp; omega)

theorem Term.split {p r : Bytes} {x : UInt8} (h : Term (p ++ x :: r)) :
    Nibbles p ∧ ((x < 16 ∧ Term r ∧ r ≠ []) ∨ (x = 16 ∧ r = [])) := by
  obtain h | ⟨ns, hn, he⟩ := h
  · simp at h
  · rcases List.eq_nil_or_concat' r with rfl | ⟨r', y, rfl⟩
    · obtain ⟨rfl, hx⟩ := List.append_inj' he.symm rfl
      simp only [List.cons.injEq, and_true] at hx
      exact ⟨hn, .inr ⟨hx.symm, rfl⟩⟩
    · have he' : p ++ x :: r' ++ [y] = ns ++ [16] := by simpa using he
      obtain ⟨rfl, hy⟩ := List.append_inj' he' rfl
      simp only [List.cons.injEq, and_true] at hy
      subst hy
      refine ⟨fun z hz => hn z (by simp [hz]), .inl ⟨hn x (by simp), .inr ⟨r', ?_, rfl⟩, by simp⟩⟩
      exact fun z hz => hn z (by simp [hz])

theorem Term.cons {x : UInt8} {rest : Bytes} (h : Term (x :: rest)) :
    (x < 16 ∧ Term rest ∧ rest ≠ []) ∨ (x = 16 ∧ rest = []) :=
  (Term.split (p := []) h).2

theorem Term.hasTerm_of_ne_nil {k : Bytes} (h : Term k) (hk : k ≠ []) : hasTerm k = true := by
  obtain rfl | ⟨ns, -, rfl⟩ := h
  · exact absurd rfl hk
  · exact hasTerm_append_term ns

theorem Term.hexKey {k : Bytes} (h : Term k) : HexKey k := by
  obtain rfl | ⟨ns, hn, rfl⟩ := h
  · exact ⟨[], by simp [Nibbles], .inl rfl⟩
  · exact ⟨ns, hn, .inr rfl⟩

theorem Term.of_prefix {k r : Bytes} (h : Term (k ++ r)) (hk : k ≠ []) :
    (hasTerm k = true ∧ r = []) ∨ (hasTerm k = false ∧ r ≠ []) := by
  cases r with
  | nil =>
    left
    exact ⟨(List.append_nil k ▸ h).hasTerm_of_ne_nil hk, rfl⟩
  | cons x r =>
    right
    exact ⟨hasTerm_of_nibbles (Term.split h).1, by simp⟩

theorem HexKey.split {p r : Bytes} {x : UInt8} (h : HexKey (p ++ x :: r)) :
    Nibbles p ∧ ((x < 16 ∧ HexKey r ∧ hasTerm (p ++ x :: r) = hasTerm r) ∨ (x = 16 ∧ r = [])) := by
  obtain ⟨ns, hn, he | he⟩ := h
  · subst he
    have hr : Nibbles r := fun z hz => hn z (by simp [hz])
    refine ⟨fun z hz => hn z (by simp [hz]), .inl ⟨hn x (by simp), ⟨r, hr, .inl rfl⟩, ?_⟩⟩
    rw [hasTerm_of_nibbles hn, hasTerm_of_nibbles hr]
  · have ht : Term (p ++ x :: r) := .inr ⟨ns, hn, he.symm⟩
    obtain ⟨hp, ⟨hx, hr, hne⟩ | hx⟩ := ht.split
    · exact ⟨hp, .inl ⟨hx, hr.hexKey, by rw [ht.hasTerm_of_ne_nil (by simp), hr.hasTerm_of_ne_nil hne]⟩⟩
    · exact ⟨hp, .inr hx⟩

/-! ## Maps of full nodes -/

theorem slot_toUInt8 (j : Fin 17) : (j.val.toUInt8).toNat = j.val := by
  simp
  omega

theorem fullMap_update (ms : Fin 17 → Bytes → Option Bytes) {x : UInt8} (hx : x.toNat < 17)
    (rest : Bytes) (w : Option Bytes) :
    Function.update (fullMap ms) (x :: rest) w =
      fullMap (Function.update ms ⟨x.toNat, hx⟩ (Function.update (ms ⟨x.toNat, hx⟩) rest w)) := by
  funext key
  cases key with
  | nil => simp [fullMap]
  | cons y r =>
    by_cases hy : y = x
    · subst hy
      by_cases hr : r = rest
      · subst hr
        simp [fullMap, hx]
      · simp [fullMap, hx, hr]
    · have hslot : ∀ h : y.toNat < 17, (⟨y.toNat, h⟩ : Fin 17) ≠ ⟨x.toNat, hx⟩ :=
        fun _ he => hy (UInt8.toNat_inj.mp (Fin.mk.inj he))
      rw [Function.update_of_ne (by simp [hy])]
      simp only [fullMap]
      split
      · rw [Function.update_of_ne (hslot _)]
      · rfl

/-- A full node with a single child is a short node over it. -/
theorem fullMap_single (j : Fin 17) (M : Bytes → Option Bytes) :
    fullMap (Function.update (fun _ => PrefixMap.empty) j M) = PrefixMap.under [j.val.toUInt8] M := by
  funext key
  cases key with
  | nil => simp [fullMap, PrefixMap.under]
  | cons y r =>
    by_cases hy : y = j.val.toUInt8
    · subst hy
      have h17 : (j.val.toUInt8).toNat < 17 := by
        rw [slot_toUInt8]
        exact j.isLt
      have hj : (⟨(j.val.toUInt8).toNat, h17⟩ : Fin 17) = j := Fin.ext (slot_toUInt8 j)
      simp only [fullMap, dif_pos h17, hj, Function.update_self]
      exact (PrefixMap.under_apply_append [_] r M).symm
    · have hnp : ¬ [j.val.toUInt8] <+: y :: r := by simp [Ne.symm hy]
      rw [PrefixMap.under_apply_outside hnp]
      simp only [fullMap]
      split
      · rename_i h17
        have hne : (⟨y.toNat, h17⟩ : Fin 17) ≠ j := by
          intro he
          apply hy
          apply UInt8.toNat_inj.mp
          rw [slot_toUInt8, ← he]
        rw [Function.update_of_ne hne]
        rfl
      · rfl

/-! ## Database and shape -/

variable {db db' : Database} {n : node} {m : Bytes → Option Bytes} {s : Shape}

theorem Denotes.extend (hx : db.Extends db') (h : Denotes db n m s) : Denotes db' n m s := by
  induction h with
  | nil => exact .nil
  | value v hv => exact .value v hv
  | short k v f m s _ hk ih => exact .short k v f m s ih hk
  | full cs f ms ss hlen _ hs ih => exact .full cs f ms ss hlen ih hs
  | hash h blob m s dec hb hdec _ hs ih => exact .hash h blob m s dec (hx h blob hb) hdec ih hs

/-- A node stands for one map and has one shape. -/
theorem Denotes.unique {m' : Bytes → Option Bytes} {s' : Shape} (h₁ : Denotes db n m s)
    (h₂ : Denotes db n m' s') : m = m' ∧ s = s' := by
  induction h₁ generalizing m' s' with
  | nil =>
    cases h₂
    exact ⟨rfl, rfl⟩
  | value =>
    cases h₂
    exact ⟨rfl, rfl⟩
  | short k v f m s _ _ ih =>
    cases h₂ with
    | short _ _ _ m' s' hv' _ =>
      obtain ⟨rfl, rfl⟩ := ih hv'
      exact ⟨rfl, rfl⟩
  | full cs f ms ss _ _ _ ih =>
    cases h₂ with
    | full _ _ ms' ss' _ hc' _ =>
      have hms : ms = ms' := funext fun i => (ih i (hc' i)).1
      subst hms
      exact ⟨rfl, rfl⟩
  | hash h blob m s dec hb hdec _ _ ih =>
    cases h₂ with
    | hash _ blob' _ _ dec' hb' hdec' hd' _ =>
      rw [hb] at hb'
      cases hb'
      have hsame : dec 0 = dec' 0 := by
        have := (hdec 0).symm.trans (hdec' 0)
        simpa using this
      exact ih 0 (hsame ▸ hd' 0)

theorem Denotes.empty_iff (h : Denotes db n m s) : s = .empty ↔ n = .nil := by
  cases h with
  | nil => simp
  | value => simp
  | short => simp
  | full => simp
  | hash _ _ _ _ _ _ _ _ hs => rcases hs with rfl | rfl <;> simp

theorem Denotes.map_of_empty (h : Denotes db n m .empty) : m = PrefixMap.empty := by
  cases h with
  | nil => rfl
  | hash _ _ _ _ _ _ _ _ hs => rcases hs with h | h <;> cases h

theorem Denotes.isNil_iff (h : Denotes db n m s) : n.isNil = true ↔ s = .empty := by
  rw [h.empty_iff]
  cases n <;> simp [node.isNil]

end EthereumAI.Trie
