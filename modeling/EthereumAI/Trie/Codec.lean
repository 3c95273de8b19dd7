import EthereumAI.Trie.Semantics
import EthereumAI.Rlp.Buffer

/-! # Reading back the encoding of a collapsed node

`hash` writes a node in its collapsed form: the key of a short node in the compact
encoding, every child that is not a value replaced by its hash or, when its encoding is
shorter than a hash, embedded whole, and an empty child as the empty string. `decodeNode`
reads such an encoding back node for node: the key in HEX, each child as `decodeRef` reads
it (`decodeRef_empty`, `decodeRef_hash`, `decodeRef_embedded`), and the node with the hash and
generation it is given (`decodeNode_short_value`, `decodeNode_short_ref`, `decodeNode_full`).

So the node read back stands for the same map, once the hash children are resolved through a
database that holds them. `RefDenotes` says this of one child as `decodeRef` reads it from the
front of a buffer, and `DecodesTo` of a whole encoding as `decodeNode` reads it.
-/

namespace EthereumAI.Trie

open EthereumAI.Lib Rlp

/-- The child `c` of a collapsed node, read by `decodeRef` from the front of any buffer: what
follows it is left, and the node read stands for `m` in `db`, with shape `s`. -/
def RefDenotes (db : Database) (c : node) (m : Bytes → Option Bytes) (s : Shape) : Prop :=
  ∀ rest g, ∃ d, decodeRef (encodeNode c ++ rest) g = some (.ok (d, rest)) ∧ Denotes db d m s

/-- The encoding `enc`, read by `decodeNode` under any hash and generation and whatever
follows it, is a node that stands for `m` in `db`, with shape `s`. -/
def DecodesTo (db : Database) (enc : Bytes) (m : Bytes → Option Bytes) (s : Shape) : Prop :=
  ∀ hash rest g, ∃ d, decodeNode hash (enc ++ rest) g = some (.ok d) ∧ Denotes db d m s

theorem node.items_eq_map : ∀ cs : List node, node.items cs = cs.map node.item
  | [] => rfl
  | c :: cs => by rw [node.items, node.items_eq_map cs, List.map_cons]

theorem ShortOK.hasTerm_of_value {k : Bytes} (h : ShortOK k .value) : hasTerm k = true := by
  obtain ⟨-, -, ht⟩ := h
  cases hk : hasTerm k
  · rw [hk] at ht
    cases ht
  · rfl

theorem ShortOK.hasTerm_of_full {k : Bytes} (h : ShortOK k .full) : hasTerm k = false := by
  obtain ⟨-, -, ht⟩ := h
  cases hk : hasTerm k
  · rfl
  · rw [hk] at ht
    cases ht

variable {db : Database} {m : Bytes → Option Bytes} {s : Shape}

/-! ## Children -/

theorem decodeRef_encode (c : node) (h : (encodeNode c).length < 2 ^ 64) (rest : Bytes) (g : UInt16) :
    decodeRef (encodeNode c ++ rest) g =
      (decodeRefKind (encodeNode c ++ rest) c.item.kind c.item.content rest g).map (·.map (·, rest)) :=
  decodeRef_of_split (Split_encode c.item h rest)

theorem decodeRef_empty (rest : Bytes) (g : UInt16) :
    decodeRef (encodeNode (.valueNode []) ++ rest) g = some (.ok (.nil, rest)) := by
  rw [decodeRef_encode _ (by decide), decodeRefKind]
  simp [node.item, Item.kind, Item.content, SingleByte, Except.map]

theorem decodeRef_hash {h : Bytes} (hl : h.length = 32) (rest : Bytes) (g : UInt16) :
    decodeRef (encodeNode (.hashNode h) ++ rest) g = some (.ok (.hashNode h, rest)) := by
  have hsb : ¬ SingleByte h := fun hsb => by
    have := hsb.1
    omega
  have henc : (encodeNode (.hashNode h)).length < 2 ^ 64 := by
    have := length_encode_str_le h (by omega)
    exact lt_of_le_of_lt this (by omega)
  rw [decodeRef_encode _ henc, decodeRefKind]
  simp [node.item, Item.kind, Item.content, hsb, hl, Except.map]

theorem decodeRef_embedded {c : node} (hk : c.item.kind = .List) (hlen : (encodeNode c).length ≤ 32)
    (rest : Bytes) (g : UInt16) :
    decodeRef (encodeNode c ++ rest) g = (decodeNode none (encodeNode c ++ rest) g).map (·.map (·, rest)) := by
  rw [decodeRef_encode c (by omega), decodeRefKind, if_pos hk]
  simp only [List.length_append, Nat.add_sub_cancel, hashLen, gt_iff_lt]
  rw [if_neg (by omega)]

theorem RefDenotes.empty : RefDenotes db (.valueNode []) PrefixMap.empty .empty :=
  fun rest g => ⟨.nil, decodeRef_empty rest g, .nil⟩

theorem RefDenotes.hash {h : Bytes} (hl : h.length = 32) (hd : Denotes db (.hashNode h) m s) :
    RefDenotes db (.hashNode h) m s :=
  fun rest g => ⟨.hashNode h, decodeRef_hash hl rest g, hd⟩

theorem RefDenotes.embedded {c : node} (hk : c.item.kind = .List) (hlen : (encodeNode c).length ≤ 32)
    (hd : DecodesTo db (encodeNode c) m s) : RefDenotes db c m s := by
  intro rest g
  obtain ⟨d, hdec, hden⟩ := hd none rest g
  refine ⟨d, ?_, hden⟩
  rw [decodeRef_embedded hk hlen, hdec]
  rfl

/-! ## Nodes -/

theorem length_encode_list_pos (items : List Item) (rest : Bytes) :
    ((Item.list items).encode ++ rest).length ≠ 0 := by
  simp only [Item.encode, puthead, List.length_append]
  split_ifs <;> simp

theorem decodeNode_list (items : List Item) (h : (Item.list items).encode.length < 2 ^ 64)
    (hash : Option Bytes) (rest : Bytes) (g : UInt16) :
    decodeNode hash ((Item.list items).encode ++ rest) g =
      match items.length with
      | 2 => (decodeShort hash (Item.encodeList items) g).map (·.mapError (wrapError "short"))
      | 17 => (decodeFull hash (Item.encodeList items) g).map (·.mapError (wrapError "full"))
      | c => some (.error (.invalidListElems c)) := by
  rw [decodeNode_of_splitList (length_encode_list_pos items rest) (SplitList_encode items h rest),
    CountValues_encodeList items (fun i hi => lt_trans (length_encode_lt_of_mem hi) h)]
  rfl

theorem decodeShort_encode {k : Bytes} (hk : HexKey k) (cv : node) (f : nodeFlag)
    (h : (encodeNode (.shortNode (hexToCompact k) cv f)).length < 2 ^ 64) (hash : Option Bytes) (g : UInt16) :
    decodeShort hash (Item.encodeList [.str (hexToCompact k), cv.item]) g =
      if hasTerm k then
        match SplitString (encodeNode cv) with
        | .error err => some (.error (.invalidValueNode err))
        | .ok (val, _) => some (.ok (.shortNode k (.valueNode val) { hash := hash, gen := g }))
      else
        (decodeRef (encodeNode cv) g).map fun
          | .error err => .error (wrapError "val" err)
          | .ok (r, _) => .ok (.shortNode k r { hash := hash, gen := g }) := by
  have hkey : (Item.str (hexToCompact k)).encode.length < 2 ^ 64 :=
    lt_trans (length_encode_lt_of_mem (List.mem_cons_self)) h
  have hsplit := SplitString_encode (hexToCompact k) hkey (encodeNode cv)
  rw [decodeShort_of_splitString (by simpa [Item.encodeList, encodeNode] using hsplit),
    compactToHex_hexToCompact hk, Option.bind_some]
  cases hasTerm k <;> rfl

theorem decodeNode_short_value {k v : Bytes} (f : nodeFlag) (hk : HexKey k) (ht : hasTerm k = true)
    (h : (encodeNode (.shortNode (hexToCompact k) (.valueNode v) f)).length < 2 ^ 64) (hash : Option Bytes)
    (rest : Bytes) (g : UInt16) :
    decodeNode hash (encodeNode (.shortNode (hexToCompact k) (.valueNode v) f) ++ rest) g =
      some (.ok (.shortNode k (.valueNode v) { hash := hash, gen := g })) := by
  have hval : (encodeNode (.valueNode v)).length < 2 ^ 64 :=
    lt_trans (length_encode_lt_of_mem (List.mem_cons_of_mem _ List.mem_cons_self)) h
  have hsplit := SplitString_encode v hval []
  rw [List.append_nil] at hsplit
  rw [show encodeNode (.shortNode (hexToCompact k) (.valueNode v) f) =
      (Item.list [.str (hexToCompact k), (node.valueNode v).item]).encode from rfl,
    decodeNode_list _ h, List.length_cons, List.length_cons, List.length_nil]
  simp only [decodeShort_encode hk _ f h, ht, if_true]
  rw [show (encodeNode (.valueNode v)) = (Item.str v).encode from rfl, hsplit]
  rfl

theorem decodeNode_short_ref {k : Bytes} {cv d : node} (f : nodeFlag) (hk : HexKey k) (ht : hasTerm k = false)
    {g : UInt16} (hc : decodeRef (encodeNode cv) g = some (.ok (d, [])))
    (h : (encodeNode (.shortNode (hexToCompact k) cv f)).length < 2 ^ 64) (hash : Option Bytes) (rest : Bytes) :
    decodeNode hash (encodeNode (.shortNode (hexToCompact k) cv f) ++ rest) g =
      some (.ok (.shortNode k d { hash := hash, gen := g })) := by
  rw [show encodeNode (.shortNode (hexToCompact k) cv f) = (Item.list [.str (hexToCompact k), cv.item]).encode
      from rfl, decodeNode_list _ h, List.length_cons, List.length_cons, List.length_nil]
  simp only [decodeShort_encode hk _ f h, ht, Bool.false_eq_true, if_false, hc]
  rfl

theorem DecodesTo.short_value {k v : Bytes} (f : nodeFlag) (hk : ShortOK k .value) (hv : v ≠ [])
    (h : (encodeNode (.shortNode (hexToCompact k) (.valueNode v) f)).length < 2 ^ 64) :
    DecodesTo db (encodeNode (.shortNode (hexToCompact k) (.valueNode v) f))
      (PrefixMap.under k (PrefixMap.single v)) .short := fun hash rest g =>
  ⟨_, decodeNode_short_value f hk.1 hk.hasTerm_of_value h hash rest g, .short k _ _ _ _ (.value v hv) hk⟩

theorem DecodesTo.short_ref {k : Bytes} {cv : node} (f : nodeFlag) (hk : ShortOK k .full)
    (hc : RefDenotes db cv m .full) (h : (encodeNode (.shortNode (hexToCompact k) cv f)).length < 2 ^ 64) :
    DecodesTo db (encodeNode (.shortNode (hexToCompact k) cv f)) (PrefixMap.under k m) .short := by
  intro hash rest g
  obtain ⟨d, hd, hden⟩ := hc [] g
  rw [List.append_nil] at hd
  exact ⟨_, decodeNode_short_ref f hk.1 hk.hasTerm_of_full hd h hash rest, .short k _ _ _ _ hden hk⟩

/-- The loop of `decodeFull` over the encodings of the children `i` to 15: each is read by
`decodeRef`, and what follows the last is left. -/
theorem decodeChildren_encode {P : ℕ → node → Prop} (g : UInt16) :
    ∀ (cs : List node) (i : ℕ) (rest : Bytes), i + cs.length = 16 →
      (∀ j < cs.length, ∀ rest', ∃ d, decodeRef (encodeNode (cs.getD j .nil) ++ rest') g =
        some (.ok (d, rest')) ∧ P (i + j) d) →
      ∃ ds, decodeChildren i (Item.encodeList (node.items cs) ++ rest) g = some (.ok (ds, rest)) ∧
        ds.length = cs.length ∧ ∀ j < cs.length, P (i + j) (ds.getD j .nil)
  | [], i, rest, hi, _ => by
    refine ⟨[], ?_, rfl, fun j hj => absurd hj (Nat.not_lt_zero j)⟩
    rw [decodeChildren_eq, if_neg (by simp at hi; omega)]
    rfl
  | c :: cs, i, rest, hi, hc => by
    simp only [List.length_cons] at hi hc
    obtain ⟨d, hd, hP⟩ := hc 0 (by omega) (Item.encodeList (node.items cs) ++ rest)
    -- the children after the first, from the next index
    have hc' : ∀ j < cs.length, ∀ rest', ∃ d, decodeRef (encodeNode (cs.getD j .nil) ++ rest') g =
        some (.ok (d, rest')) ∧ P (i + 1 + j) d := by
      intro j hj rest'
      obtain ⟨d', hd', hP'⟩ := hc (j + 1) (by omega) rest'
      exact ⟨d', hd', by rwa [show i + 1 + j = i + (j + 1) by omega]⟩
    obtain ⟨ds, hds, hlen, hPs⟩ := decodeChildren_encode g cs (i + 1) rest (by omega) hc'
    refine ⟨d :: ds, ?_, by simp [hlen], ?_⟩
    · rw [decodeChildren_eq, if_pos (by omega)]
      simp only [List.getD_cons_zero] at hd
      simp only [node.items, Item.encodeList, List.append_assoc]
      rw [show c.item.encode = encodeNode c from rfl, hd, Option.bind_some]
      simp only [hds, Option.map_some, Except.map]
    · intro j hj
      cases j with
      | zero => simpa using hP
      | succ j =>
        have := hPs j (by simp at hj; omega)
        rwa [List.getD_cons_succ, ← Nat.add_assoc, Nat.add_right_comm i]

/-- A full node: the sixteen children are read by `decodeRef`, each as `P` says of its slot, and
the value slot as a string, nil when it is empty. -/
theorem decodeNode_full {cs : List node} {v : Bytes} (f : nodeFlag) {P : ℕ → node → Prop} {g : UInt16}
    (hlen : cs.length = 16)
    (hc : ∀ j < 16, ∀ rest', ∃ d, decodeRef (encodeNode (cs.getD j .nil) ++ rest') g = some (.ok (d, rest')) ∧ P j d)
    (h : (encodeNode (.fullNode (cs ++ [.valueNode v]) f)).length < 2 ^ 64) (hash : Option Bytes) (rest : Bytes) :
    ∃ ds, decodeNode hash (encodeNode (.fullNode (cs ++ [.valueNode v]) f) ++ rest) g =
        some (.ok (.fullNode (ds ++ [if v.length > 0 then .valueNode v else .nil]) { hash := hash, gen := g })) ∧
      ds.length = 16 ∧ ∀ j < 16, P j (ds.getD j .nil) := by
  have henc : encodeNode (.fullNode (cs ++ [.valueNode v]) f) =
      (Item.list (node.items cs ++ [.str v])).encode := by
    rw [encodeNode, node.item, node.items_eq_map, node.items_eq_map, List.map_append]
    rfl
  rw [henc] at h
  obtain ⟨ds, hds, hdlen, hP⟩ := decodeChildren_encode g cs 0 (Item.encodeList [.str v]) (by omega)
    (fun j hj rest' => by simpa using hc j (by omega) rest')
  have hval : (Item.str v).encode.length < 2 ^ 64 :=
    lt_trans (length_encode_lt_of_mem (List.mem_append_right _ List.mem_cons_self)) h
  have hl17 : (node.items cs ++ [Item.str v]).length = 17 := by
    rw [node.items_eq_map, List.length_append, List.length_map, hlen, List.length_singleton]
  refine ⟨ds, ?_, by omega, fun j hj => by simpa using hP j (by omega)⟩
  rw [henc, decodeNode_list _ h, hl17]
  have hfull : decodeFull hash (Item.encodeList (node.items cs ++ [.str v])) g =
      some (.ok (.fullNode (ds ++ [if v.length > 0 then .valueNode v else .nil]) { hash := hash, gen := g })) := by
    rw [decodeFull, encbuf.encodeList_append, hds, Option.bind_some]
    have hsplit := SplitString_encode v hval []
    rw [List.append_nil] at hsplit
    simp only [Item.encodeList, List.append_nil, hsplit]
  rw [hfull]
  rfl

theorem DecodesTo.full {cs : List node} {v : Bytes} (f : nodeFlag) {ms : Fin 17 → Bytes → Option Bytes}
    {ss : Fin 17 → Shape} (hlen : cs.length = 16)
    (hc : ∀ i : Fin 16, RefDenotes db (cs.getD i .nil) (ms i.castSucc) (ss i.castSucc))
    (hv : Denotes db (if v.length > 0 then .valueNode v else .nil) (ms (Fin.last 16)) (ss (Fin.last 16)))
    (hs : FullOK ss) (h : (encodeNode (.fullNode (cs ++ [.valueNode v]) f)).length < 2 ^ 64) :
    DecodesTo db (encodeNode (.fullNode (cs ++ [.valueNode v]) f)) (fullMap ms) .full := by
  intro hash rest g
  obtain ⟨ds, hdec, hdlen, hden⟩ := decodeNode_full (P := fun j d => ∀ i : Fin 17, i.val = j →
      Denotes db d (ms i) (ss i)) f hlen (fun j hj rest' => by
    obtain ⟨d, hd, hden⟩ := hc ⟨j, hj⟩ rest' g
    refine ⟨d, hd, fun i hi => ?_⟩
    rw [show i = (⟨j, hj⟩ : Fin 16).castSucc from Fin.ext (by simp [hi])]
    exact hden) h hash rest
  refine ⟨_, hdec, .full _ _ ms ss (by simp [hdlen]) (fun i => ?_) hs⟩
  by_cases hi : i.val < 16
  · rw [List.getD_append _ _ _ _ (by omega)]
    exact hden i.val hi i rfl
  · obtain rfl : i = Fin.last 16 := Fin.ext (by simp; omega)
    rw [List.getD_append_right _ _ _ _ (by simp [hdlen])]
    simpa [hdlen] using hv

/-! ## Hash nodes -/

theorem DecodesTo.denotes_hash {enc h : Bytes} (hd : DecodesTo db enc m s) (hb : db.Node h = some enc)
    (hs : s = .short ∨ s = .full) : Denotes db (.hashNode h) m s := by
  choose dec hdec hden using fun g => hd (some h) [] g
  simp only [List.append_nil] at hdec
  exact .hash h enc m s dec hb hdec hden hs

theorem Denotes.of_hash {h : Bytes} (hd : Denotes db (.hashNode h) m s) :
    ∃ blob, ∃ dec : UInt16 → node, db.Node h = some blob ∧ (∀ g, decodeNode (some h) blob g = some (.ok (dec g))) ∧
      ∀ g, Denotes db (dec g) m s := by
  cases hd with
  | hash _ blob _ _ dec hb hdec hden _ => exact ⟨blob, dec, hb, hdec, hden⟩

end EthereumAI.Trie
