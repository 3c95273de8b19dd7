import EthereumAI.Lib.Addressed
import EthereumAI.Trie.Codec
import EthereumAI.Trie.HashCache

/-! # Committing a trie and opening it again

`Commit` hashes the trie with a database: every node whose encoding is not shorter than a
hash, and the root, is written there under its hash, children before their parents. `New` at
the root hash over that database resolves the root, and the walks resolve the hash nodes
below it as they meet them.

For a trie in memory, the trie `Commit` leaves and the one `New` opens at the hash it returns
both stand for the map the trie stood for, as long as the encodings written can be told apart
by their hashes (`Safe`). The induction over the trie (`Denotes.commit`) says what the commit
of a node leaves in its parent's place (`Stored`): an embedded node or a hash, read back by
`decodeRef` to a node that stands for the same map in every database that keeps what the
commit wrote (`Database.Keeps`).
-/

namespace EthereumAI.Trie

open EthereumAI.Lib Rlp

-- the package and its main type share the name
set_option linter.dupNamespace false

/-! ## What a commit writes -/

mutual
/-- The encodings of the collapsed nodes of a trie in memory, as `hash` makes them: what
`Commit` writes is among them. -/
def node.blobs (keccak : Bytes → Bytes) : node → List Bytes
  | .shortNode k c f =>
    (((hasher.mk 0 0).hashChildren keccak (.shortNode k c f) none).map fun r => encodeNode r.1).toList ++
      node.blobs keccak c
  | .fullNode cs f =>
    (((hasher.mk 0 0).hashChildren keccak (.fullNode cs f) none).map fun r => encodeNode r.1).toList ++
      node.blobsList keccak cs
  | _ => []

def node.blobsList (keccak : Bytes → Bytes) : List node → List Bytes
  | [] => []
  | c :: cs => node.blobs keccak c ++ node.blobsList keccak cs
end

variable (keccak : Bytes → Bytes)

/-- The encodings `L` can be written under their hashes and read back: each has a length that
fits in 64 bits, a hash of 32 bytes that is not one of the roots `New` takes for the empty trie,
and no other encoding of `L` has its hash. -/
def Safe (L : List Bytes) : Prop :=
  ∀ a ∈ L, a.length < 2 ^ 64 ∧ (keccak a).length = 32 ∧ keccak a ≠ emptyRoot ∧ keccak a ≠ zeroHash ∧
    ∀ b ∈ L, keccak a = keccak b → a = b

instance (L : List Bytes) : Decidable (Safe keccak L) := inferInstanceAs (Decidable (∀ a ∈ L, _))

theorem Safe.distinct {L : List Bytes} (hL : Safe keccak L) : Distinct keccak L :=
  fun a ha b hb he => (hL a ha).2.2.2.2 b hb he

/-- The memory of `db` holds encodings of `L` only, each under its hash. -/
def Holds (L : List Bytes) (db : Database) : Prop := ∀ h b, db.nodes h = some b → b ∈ L ∧ keccak b = h

/-- `db'` keeps every node the memory of `db` holds. -/
def Database.Keeps (db db' : Database) : Prop := ∀ h b, db.nodes h = some b → db'.nodes h = some b

namespace Database

theorem Keeps.refl (db : Database) : db.Keeps db := fun _ _ h => h

theorem Keeps.trans {db₁ db₂ db₃ : Database} (h₁ : db₁.Keeps db₂) (h₂ : db₂.Keeps db₃) : db₁.Keeps db₃ :=
  fun h b hb => h₂ h b (h₁ h b hb)

theorem keeps_insert (db : Database) (hash blob : Bytes) : db.Keeps (db.insert hash blob) := by
  intro h b hb
  unfold insert
  split
  · exact hb
  · rename_i hn
    have hne : h ≠ hash := fun he => by simp [he, hn] at hb
    simpa only [Function.update_of_ne hne] using hb

theorem Keeps.node {db db' : Database} (hk : db.Keeps db') {h b : Bytes} (hb : db.nodes h = some b) :
    db'.Node h = some b := by
  simp [Node, hk h b hb]

end Database

theorem Denotes.change_db {db : Database} {n : node} {m : Bytes → Option Bytes} {s : Shape}
    (h : Denotes db n m s) (hf : Fresh n) (db' : Database) : Denotes db' n m s := by
  induction h with
  | nil => exact .nil
  | value v hv => exact .value v hv
  | short k c f mc sc _ hk ih => exact .short k c f mc sc (ih hf.of_short.2) hk
  | full cs f ms ss hlen _ hss ih => exact .full cs f ms ss hlen (fun i => ih i (Fresh.getD hf.of_full.2 i)) hss
  | hash => cases hf

/-! ## Storing one node -/

section Store

variable {keccak} {L : List Bytes} (hL : Safe keccak L) {db : Database} (hdb : Holds keccak L db)

include hL hdb in
theorem insert_holds {enc : Bytes} (hmem : enc ∈ L) :
    (db.insert (keccak enc) enc).nodes (keccak enc) = some enc ∧ Holds keccak L (db.insert (keccak enc) enc) := by
  have hdb' : Addressed keccak L db.nodes := hdb
  unfold Database.insert
  split
  · -- a blob there has the same hash, so it is this one
    rename_i b hb
    obtain rfl := hdb'.eq_of_key hL.distinct hmem hb
    exact ⟨hb, hdb⟩
  · exact ⟨by simp, hdb'.update hmem⟩

variable (keccak) in
theorem store_of_cache_none {c : node} (hnil : c.isNil = false) (hh : ∀ h, c ≠ .hashNode h)
    (hc : c.cache.1 = none) (db : Option Database) (force : Bool) :
    hasher.store keccak c db force =
      if (encodeNode c).length < 32 ∧ !force then (c, db)
      else (.hashNode (keccak (encodeNode c)), db.map fun db => db.insert (keccak (encodeNode c)) (encodeNode c)) := by
  cases c with
  | nil => cases hnil
  | hashNode h => exact absurd rfl (hh h)
  | _ => simp only [hasher.store, hc, Option.getD]

variable (keccak) in
theorem store_fst (c : node) (db : Option Database) (force : Bool) :
    (hasher.store keccak c db force).1 = (hasher.store keccak c none force).1 := by
  cases c <;> simp only [hasher.store] <;> split_ifs <;> rfl

variable (keccak) in
theorem store_fst_isNil (c : node) (db : Option Database) (force : Bool) :
    (hasher.store keccak c db force).1.isNil = c.isNil := by
  cases c <;> simp only [hasher.store] <;> split_ifs <;> rfl

end Store

/-- What the commit of a node leaves in its parent's place, read in `db`: a node that is not
nil, read back by `decodeRef` as a node standing for `m`, and when forced, a hash standing for
`m` that `New` does not take for the empty trie. -/
def Stored (db : Database) (hashed : node) (m : Bytes → Option Bytes) (s : Shape) (force : Bool) : Prop :=
  hashed.isNil = false ∧ RefDenotes db hashed m s ∧
    (force = true → ∃ h, hashed = .hashNode h ∧ h ≠ emptyRoot ∧ h ≠ zeroHash ∧ Denotes db (.hashNode h) m s)

section Store

variable {keccak} {L : List Bytes} (hL : Safe keccak L) {db : Database} (hdb : Holds keccak L db)
include hL hdb

/-- The end of the commit of a node: its collapsed form, which decodes to a node standing for
`m` once its children are written, is embedded or written under its hash, where hashing without a
database puts it. -/
theorem finish_stored (collapsed cached : node) (hnil : collapsed.isNil = false)
    (hh : ∀ h, collapsed ≠ .hashNode h) (hc : collapsed.cache.1 = none) (hkind : collapsed.item.kind = .List)
    (hmem : encodeNode collapsed ∈ L) {m : Bytes → Option Bytes} {s : Shape} (hs : s = .short ∨ s = .full)
    (hdec : ∀ db'', db.Keeps db'' → DecodesTo db'' (encodeNode collapsed) m s) (db₀ : Option Database)
    (force : Bool) :
    ∃ hashed cached' db', hasher.finish keccak collapsed cached db₀ (some db) force = (hashed, cached', some db') ∧
      db.Keeps db' ∧ Holds keccak L db' ∧ hashed = (hasher.store keccak collapsed none force).1 ∧
      ∀ db'', db'.Keeps db'' → Stored db'' hashed m s force := by
  obtain ⟨-, hk32, hroot, hzero, -⟩ := hL _ hmem
  have hfin : hasher.finish keccak collapsed cached db₀ (some db) force =
      ((hasher.store keccak collapsed (some db) force).1,
        (hasher.finish keccak collapsed cached db₀ (some db) force).2.1, (hasher.store keccak collapsed (some db) force).2) :=
    rfl
  have hfst := store_fst keccak collapsed (some db) force
  rw [hfin]
  rw [store_of_cache_none keccak hnil hh hc (some db) force] at hfst ⊢
  split_ifs at hfst ⊢ with hemb
  · -- embedded in the parent, so not forced
    dsimp only at hfst ⊢
    refine ⟨_, _, db, rfl, .refl db, hdb, hfst, fun db'' hk => ⟨hnil, .embedded hkind (by omega) (hdec db'' hk),
      fun hf => ?_⟩⟩
    simp [hf] at hemb
  · -- written under its hash
    obtain ⟨hnode, hholds⟩ := insert_holds hL hdb hmem
    refine ⟨_, _, _, rfl, db.keeps_insert _ _, hholds, hfst, fun db'' hk => ?_⟩
    have hden : Denotes db'' (.hashNode (keccak (encodeNode collapsed))) m s :=
      (hdec db'' ((db.keeps_insert _ _).trans hk)).denotes_hash (hk.node hnode) hs
    exact ⟨rfl, .hash hk32 hden, fun _ => ⟨_, rfl, hroot, hzero, hden⟩⟩

end Store

/-! ## Committing a trie in memory -/

theorem hashChildren_short (hs : hasher) (k : Bytes) (c : node) (f : nodeFlag) (db : Option Database) :
    hs.hashChildren keccak (.shortNode k c f) db =
      (if c.isValue then some (c, c, db) else hs.hash keccak c db false).bind fun r =>
        some ((hasher.shortChildren k f r.1 r.2.1).1, (hasher.shortChildren k f r.1 r.2.1).2, r.2.2) := by
  rw [hasher.hashChildren]
  split_ifs <;> rfl

theorem hashChildren_full (hs : hasher) (cs : List node) (f : nodeFlag) (db : Option Database) :
    hs.hashChildren keccak (.fullNode cs f) db =
      (hs.hashList keccak 0 cs db).bind fun r => some (.fullNode r.1 f, .fullNode r.2.1 f, r.2.2) := rfl

theorem blobs_of_mem {c : node} : ∀ {cs : List node}, c ∈ cs → ∀ b ∈ c.blobs keccak, b ∈ node.blobsList keccak cs
  | _ :: _, .head _, b, hb => by
    rw [node.blobsList]
    exact List.mem_append_left _ hb
  | _ :: _, .tail _ hc, b, hb => by
    rw [node.blobsList]
    exact List.mem_append_right _ (blobs_of_mem hc b hb)

theorem blobs_getD {cs : List node} (i : ℕ) : ∀ b ∈ (cs.getD i .nil).blobs keccak, b ∈ node.blobsList keccak cs := by
  rw [List.getD_eq_getElem?_getD]
  cases hi : cs[i]? with
  | none => simp [node.blobs]
  | some c => exact blobs_of_mem keccak (List.mem_of_getElem? hi)

/-- The commit of `n` from `db` succeeds and leaves a database that keeps `db` and holds
encodings of `L` only, a cached node equal to `n` up to flags, and in the parent's place what
hashing without a database puts there, of which `R` holds in every database that keeps the
commit's. -/
def Committed (hs : hasher) (L : List Bytes) (n : node) (force : Bool) (db : Database)
    (R : Database → node → Prop) : Prop :=
  ∃ hashed cached db', hs.hash keccak n (some db) force = some (hashed, cached, some db') ∧ db.Keeps db' ∧
    Holds keccak L db' ∧ Similar n cached ∧
    (∃ r, (hasher.mk 0 0).hash keccak n none force = some r ∧ r.1 = hashed) ∧
    ∀ db'', db'.Keeps db'' → R db'' hashed

theorem hashList_cons (hs : hasher) (i : ℕ) (c : node) (cs : List node) (db : Option Database) :
    hs.hashList keccak i (c :: cs) db =
      (if i < 16 then (if c.isNil then some (.valueNode [], c, db) else hs.hash keccak c db false)
        else some (if c.isNil then .valueNode [] else c, c, db)).bind fun r =>
          (hs.hashList keccak (i + 1) cs r.2.2).map fun r' => (r.1 :: r'.1, r.2.1 :: r'.2.1, r'.2.2) := by
  rw [hasher.hashList]
  split_ifs <;> simp only [Option.bind_eq_bind, Option.pure_def, Option.bind_some] <;>
    first
    | rfl
    | (cases hs.hashList keccak (i + 1) cs db <;> rfl)
    | (cases hs.hash keccak c db false with
        | none => rfl
        | some r => simp only [Option.bind_some]; cases hs.hashList keccak (i + 1) cs r.2.2 <;> rfl)

section Children

variable {keccak} {L : List Bytes} (hs : hasher)

theorem Committed.mono {n : node} {force : Bool} {db : Database} {R R' : Database → node → Prop}
    (h : Committed keccak hs L n force db R) (hR : ∀ db'' x, R db'' x → R' db'' x) :
    Committed keccak hs L n force db R' := by
  obtain ⟨hashed, cached, db', hh, hk, hdb, hsim, hagree, hst⟩ := h
  exact ⟨hashed, cached, db', hh, hk, hdb, hsim, hagree, fun db'' hk' => hR _ _ (hst db'' hk')⟩

/-- One child in the loop of `hashChildren`: one of the first sixteen that is not empty is
committed, an empty one is written as the empty string, and the value slot is kept. -/
theorem hashList_head {R : ℕ → Database → node → Prop} {i : ℕ} {c : node} (hfr : Fresh c) {db : Database}
    (hdb : Holds keccak L db)
    (hc : i < 16 → c.isNil = false → Committed keccak hs L c false db (R i))
    (hnil : i < 16 → c.isNil = true → ∀ db'', R i db'' (.valueNode [])) :
    ∃ cc chc db₁,
      (if i < 16 then (if c.isNil then some (.valueNode [], c, some db) else hs.hash keccak c (some db) false)
        else some (if c.isNil then .valueNode [] else c, c, some db)) = some (cc, chc, some db₁) ∧
      (∃ r, (if i < 16 then (if c.isNil then some (.valueNode [], c, none) else (hasher.mk 0 0).hash keccak c none false)
        else some (if c.isNil then .valueNode [] else c, c, none)) = some r ∧ r.1 = cc ∧ r.2.2 = none) ∧
      db.Keeps db₁ ∧ Holds keccak L db₁ ∧ Similar c chc ∧
      (16 ≤ i → cc = if c.isNil then .valueNode [] else c) ∧ (∀ db'', db₁.Keeps db'' → i < 16 → R i db'' cc) := by
  have hrefl : Similar c c := (Fresh.cached hfr false : Cached keccak false c).refl
  by_cases hi : i < 16
  · by_cases hn : c.isNil
    · simp only [hi, hn, if_true]
      exact ⟨_, _, db, rfl, ⟨_, rfl, rfl, rfl⟩, .refl db, hdb, hrefl, fun h => absurd hi (by omega),
        fun db'' _ _ => hnil hi hn db''⟩
    · obtain ⟨cc, chc, db₁, hh, hk, hdb₁, hsim, ⟨r, hr, hr1⟩, hR⟩ := hc hi (by simpa using hn)
      simp only [hi, hn, if_true, Bool.false_eq_true, if_false]
      exact ⟨cc, chc, db₁, hh, ⟨r, hr, hr1, hash_db_none _ (Fresh.cached hfr false) hr⟩, hk, hdb₁, hsim,
        fun h => absurd hi (by omega), fun db'' hk' _ => hR db'' hk'⟩
  · simp only [hi, if_false]
    exact ⟨_, _, db, rfl, ⟨_, rfl, rfl, rfl⟩, .refl db, hdb, hrefl, fun _ => rfl, fun _ _ h => h.elim⟩

/-- The loop of `hashChildren` over the children of a full node from index `i`, with a
database. -/
theorem hashList_commit {R : ℕ → Database → node → Prop} :
    ∀ (cs : List node) (i : ℕ) {db : Database}, Holds keccak L db → (∀ c ∈ cs, Fresh c) →
      (∀ j < cs.length, i + j < 16 → (cs.getD j .nil).isNil = false → ∀ db, Holds keccak L db →
        Committed keccak hs L (cs.getD j .nil) false db (R (i + j))) →
      (∀ j < cs.length, i + j < 16 → (cs.getD j .nil).isNil = true → ∀ db'', R (i + j) db'' (.valueNode [])) →
      ∃ ccs chcs db', hs.hashList keccak i cs (some db) = some (ccs, chcs, some db') ∧ db.Keeps db' ∧
        Holds keccak L db' ∧ List.Forall₂ Similar cs chcs ∧
        (∃ r, (hasher.mk 0 0).hashList keccak i cs none = some r ∧ r.1 = ccs) ∧ ccs.length = cs.length ∧
        (∀ j < cs.length, 16 ≤ i + j →
          ccs.getD j .nil = if (cs.getD j .nil).isNil then .valueNode [] else cs.getD j .nil) ∧
        ∀ db'', db'.Keeps db'' → ∀ j < cs.length, i + j < 16 → R (i + j) db'' (ccs.getD j .nil)
  | [], i, db, hdb, _, _, _ =>
    ⟨[], [], db, rfl, .refl db, hdb, .nil, ⟨_, rfl, rfl⟩, rfl, fun _ hj => absurd hj (Nat.not_lt_zero _),
      fun _ _ _ hj => absurd hj (Nat.not_lt_zero _)⟩
  | c :: cs, i, db, hdb, hfr, hc, hnil => by
    simp only [List.length_cons] at hc hnil
    obtain ⟨cc, chc, db₁, hh, ⟨r, hr, hr1, hr2⟩, hk₁, hdb₁, hsim₁, hslot₁, hR₁⟩ :=
      hashList_head hs (R := R) (i := i) (hfr c List.mem_cons_self) hdb
        (fun hi hn => by simpa using hc 0 (by omega) (by omega) hn db hdb)
        (fun hi hn => by simpa using hnil 0 (by omega) (by omega) hn)
    -- the children after the first, from the next index
    obtain ⟨ccs, chcs, db', hl, hk, hdb', hsim, ⟨r', hr', hr'1⟩, hlen, hslot, hR⟩ :=
      hashList_commit cs (i + 1) hdb₁ (fun c' hc' => hfr c' (List.mem_cons_of_mem _ hc'))
        (fun j hj hi hn db hdb => by
          simpa [show i + (j + 1) = i + 1 + j by omega] using hc (j + 1) (by omega) (by omega) hn db hdb)
        (fun j hj hi hn db'' => by
          simpa [show i + (j + 1) = i + 1 + j by omega] using hnil (j + 1) (by omega) (by omega) hn db'')
    refine ⟨cc :: ccs, chc :: chcs, db', ?_, hk₁.trans hk, hdb', .cons hsim₁ hsim,
      ⟨(r.1 :: r'.1, r.2.1 :: r'.2.1, r'.2.2), ?_, ?_⟩,
      by simp [hlen], fun j hj hi => ?_, fun db'' hk'' j hj hi => ?_⟩
    · rw [hashList_cons, hh, Option.bind_some, hl]
      rfl
    · rw [hashList_cons, hr, Option.bind_some, hr2, hr']
      rfl
    · rw [← hr1, ← hr'1]
    · cases j with
      | zero => simpa using hslot₁ (by omega)
      | succ j =>
        simpa using hslot j (by simp at hj; omega) (by omega)
    · cases j with
      | zero => simpa using hR₁ db'' (hk.trans hk'') (by omega)
      | succ j =>
        simpa [show i + (j + 1) = i + 1 + j by omega] using hR db'' hk'' j (by simp at hj; omega) (by omega)

end Children

theorem eq_take_append_getD {l : List node} (h : l.length = 17) : l = l.take 16 ++ [l.getD 16 .nil] := by
  conv_lhs => rw [← List.take_append_drop 16 l]
  congr 1
  rw [List.getD_eq_getElem _ _ (by omega)]
  exact List.drop_eq_getElem_cons (by omega) |>.trans (by simp [List.drop_eq_nil_of_le (show l.length ≤ 17 by omega)])

theorem Denotes.eq_nil_or_value {db : Database} {n : node} {m : Bytes → Option Bytes} {s : Shape}
    (h : Denotes db n m s) (hf : Fresh n) (hs : s = .empty ∨ s = .value) :
    n = .nil ∨ ∃ v, n = .valueNode v ∧ v ≠ [] := by
  cases h with
  | nil => exact .inl rfl
  | value v hv => exact .inr ⟨v, rfl, hv⟩
  | short => simp at hs
  | full => simp at hs
  | hash => cases hf

theorem value_slot {db : Database} {c cc : node} {m : Bytes → Option Bytes} {s : Shape} (h : Denotes db c m s)
    (hf : Fresh c) (hs : s = .empty ∨ s = .value) (hcc : cc = if c.isNil then .valueNode [] else c) :
    ∃ v, cc = .valueNode v ∧ (if v.length > 0 then .valueNode v else .nil) = c := by
  rcases h.eq_nil_or_value hf hs with rfl | ⟨v, rfl, hv⟩
  · exact ⟨[], hcc, rfl⟩
  · exact ⟨v, hcc, if_pos (List.length_pos_iff.mpr hv)⟩

section Commit

variable {keccak} {L : List Bytes} (hL : Safe keccak L) (hs : hasher)
include hL

/-- The commit of a node of a trie in memory whose collapsed encodings are in `L`, from a
database whose memory holds encodings of `L` only: it succeeds, and leaves in the parent's place
a node read back as one standing for the same map in every database that keeps what it wrote. -/
theorem Denotes.commit {db₀ : Database} {n : node} {m : Bytes → Option Bytes} {s : Shape}
    (h : Denotes db₀ n m s) (hf : Fresh n) (hs' : s = .short ∨ s = .full) (hb : ∀ b ∈ n.blobs keccak, b ∈ L)
    (force : Bool) {db : Database} (hdb : Holds keccak L db) :
    Committed keccak hs L n force db fun db'' hashed => Stored db'' hashed m s force := by
  induction h generalizing force db with
  | nil => simp at hs'
  | value => simp at hs'
  | hash => cases hf
  | short k c f mc sc hc hk ih =>
    obtain ⟨hfh, hcf⟩ := hf.of_short
    rw [node.blobs, hashChildren_short] at hb
    rcases hk.child_shape with rfl | rfl
    · -- a value child stays in its parent
      obtain ⟨v, rfl, rfl, hv⟩ : ∃ v, c = .valueNode v ∧ mc = PrefixMap.single v ∧ v ≠ [] := by
        cases hc with
        | value v hv => exact ⟨v, rfl, rfl, hv⟩
        | hash => cases hcf
      have hmem : encodeNode (.shortNode (hexToCompact k) (.valueNode v) f) ∈ L :=
        hb _ (List.mem_append_left _ (by simp [node.isValue, hasher.shortChildren, node.isNil]))
      obtain ⟨hashed, cached, db', hfin, hk', hholds, hfst, hst⟩ := finish_stored hL hdb
        (.shortNode (hexToCompact k) (.valueNode v) f) (.shortNode k (.valueNode v) f) rfl (fun _ => by simp) hfh rfl
        hmem (.inl rfl) (fun db'' _ => DecodesTo.short_value f hk hv (hL _ hmem).1) (some db) force
      obtain ⟨f', hcached, -⟩ := finish_short keccak (.shortNode (hexToCompact k) (.valueNode v) f) k (.valueNode v) f
        (some db) (some db) force
      simp only [hfin] at hcached
      refine ⟨hashed, cached, db', ?_, hk', hholds, by rw [hcached]; exact .short k f f' (.value v),
        ⟨hasher.finish keccak (.shortNode (hexToCompact k) (.valueNode v) f) (.shortNode k (.valueNode v) f) none none
          force, ?_, by rw [finish_fst, hfst]⟩, hst⟩
      · rw [hash_short_fresh keccak hs hfh]
        simp only [node.isValue, if_true, Option.bind_some]
        exact congrArg some hfin
      · rw [hash_short_fresh keccak _ hfh]
        simp only [node.isValue, if_true, Option.bind_some]
        rfl
    · -- a full child is committed before its parent
      have hcv : c.isValue = false := by
        cases hc with
        | full => rfl
        | hash => cases hcf
      obtain ⟨cv, chv, db₁, hhc, hk₁, hh₁, hsim₁, ⟨rc, hrc, hrc1⟩, hst₁⟩ :=
        ih hcf (.inr rfl) (fun b hb' => hb b (List.mem_append_right _ hb')) false hdb
      have hnil : cv.isNil = false := (hst₁ db₁ (.refl db₁)).1
      have hcollapsed : (hasher.shortChildren k f cv chv).1 = .shortNode (hexToCompact k) cv f := by
        simp [hasher.shortChildren, hnil]
      have hmem : encodeNode (.shortNode (hexToCompact k) cv f) ∈ L := by
        refine hb _ (List.mem_append_left _ ?_)
        simp only [hcv, Bool.false_eq_true, if_false, hrc, Option.bind_some, Option.map_some,
          Option.toList_some, List.mem_singleton]
        rw [← hcollapsed, ← hrc1]
        rfl
      obtain ⟨hashed, cached, db', hfin, hk', hholds, hfst, hst⟩ := finish_stored hL hh₁
        (.shortNode (hexToCompact k) cv f) (.shortNode k chv f) rfl (fun _ => by simp) hfh rfl hmem (.inl rfl)
        (fun db'' hk'' => DecodesTo.short_ref f hk (hst₁ db'' hk'').2.1 (hL _ hmem).1) (some db) force
      obtain ⟨f', hcached, -⟩ := finish_short keccak (.shortNode (hexToCompact k) cv f) k chv f (some db) (some db₁) force
      simp only [hfin] at hcached
      refine ⟨hashed, cached, db', ?_, hk₁.trans hk', hholds, by rw [hcached]; exact .short k f f' hsim₁,
        ⟨hasher.finish keccak (hasher.shortChildren k f rc.1 rc.2.1).1 (hasher.shortChildren k f rc.1 rc.2.1).2 none
          rc.2.2 force, ?_, ?_⟩, hst⟩
      · rw [hash_short_fresh keccak hs hfh, hcv, if_neg Bool.false_ne_true, hhc, Option.bind_some, hcollapsed]
        exact congrArg some hfin
      · rw [hash_short_fresh keccak _ hfh, hcv, if_neg Bool.false_ne_true, hrc, Option.bind_some]
      · rw [finish_fst, store_fst keccak _ rc.2.2, hfst, ← hcollapsed, ← hrc1]
        rfl
  | full cs f ms ss hlen hc hss ih =>
    obtain ⟨hfh, hcf⟩ := hf.of_full
    rw [node.blobs, hashChildren_full] at hb
    -- the sixteen children are committed, each read back as its slot's map
    obtain ⟨ccs, chcs, db₁, hl, hk₁, hh₁, hsim, ⟨r, hr, hr1⟩, hlenc, hslot, hR⟩ :=
      hashList_commit hs (R := fun j db'' cc => ∀ i : Fin 17, i.val = j → RefDenotes db'' cc (ms i) (ss i))
        cs 0 hdb hcf
        (fun j hj hj16 hn db hdb => by
          have hi : j < 17 := by omega
          refine (ih ⟨j, hi⟩ (Fresh.getD hcf j) (hss.slot_shape hc (by omega) (by simpa using hn))
            (fun b hb' => hb b (List.mem_append_right _ (blobs_getD keccak j b hb'))) false hdb).mono hs
            fun db'' x hx i hij => ?_
          obtain rfl : i = ⟨j, hi⟩ := Fin.ext (by simpa using hij)
          exact hx.2.1)
        (fun j hj hj16 hn db'' i hij => by
          have hj' : i.val = j := by simpa using hij
          have hempty : ss i = .empty := (hc i).isNil_iff.mp (by rw [hj']; exact hn)
          have hden := hc i
          rw [hempty] at hden
          rw [hempty, hden.map_of_empty]
          exact .empty)
    -- the value slot is kept, nil or a value
    obtain ⟨v, hv16, hvnode⟩ := value_slot (hc (Fin.last 16)) (Fresh.getD hcf 16) ((hss.1 (Fin.last 16)).2 rfl)
      (hslot 16 (by omega) (by omega))
    have hccs : ccs = ccs.take 16 ++ [.valueNode v] := by
      rw [← hv16]
      exact eq_take_append_getD (by omega)
    have hmem : encodeNode (.fullNode ccs f) ∈ L :=
      hb _ (List.mem_append_left _ (by simp [hr, hr1]))
    have hdec : ∀ db'', db₁.Keeps db'' → DecodesTo db'' (encodeNode (.fullNode ccs f)) (fullMap ms) .full := by
      intro db'' hk''
      have henc := (hL _ hmem).1
      rw [hccs] at henc ⊢
      refine DecodesTo.full f (by simp [hlenc, hlen]) (fun i => ?_) ?_ hss henc
      · rw [List.getD_eq_getElem?_getD, List.getElem?_take_of_lt i.isLt, ← List.getD_eq_getElem?_getD]
        exact hR db'' hk'' i (by omega) (by simp) i.castSucc (by simp)
      · rw [hvnode]
        exact (hc (Fin.last 16)).change_db (Fresh.getD hcf 16) db''
    obtain ⟨hashed, cached, db', hfin, hk', hholds, hfst, hst⟩ := finish_stored hL hh₁ (.fullNode ccs f)
      (.fullNode chcs f) rfl (fun _ => by simp) hfh rfl hmem (.inr rfl) hdec (some db) force
    obtain ⟨f', hcached, -⟩ := finish_full keccak (.fullNode ccs f) chcs f (some db) (some db₁) force
    simp only [hfin] at hcached
    refine ⟨hashed, cached, db', ?_, hk₁.trans hk', hholds, by rw [hcached]; exact Similar.full_of_forall₂ f f' hsim,
      ⟨hasher.finish keccak (.fullNode r.1 f) (.fullNode r.2.1 f) none r.2.2 force, ?_, ?_⟩, hst⟩
    · rw [hash_full_fresh keccak hs hfh, hl, Option.bind_some]
      exact congrArg some hfin
    · rw [hash_full_fresh keccak _ hfh, hr, Option.bind_some]
    · rw [finish_fst, store_fst keccak _ r.2.2, hfst, hr1]

end Commit


theorem Trie.TryUpdate_db {t r : Trie} {fuel : ℕ} {key value : Bytes}
    (h : t.TryUpdate fuel key value = some (.ok r)) : r.db = t.db := by
  unfold Trie.TryUpdate at h
  simp only at h
  split_ifs at h <;> split at h <;> cases h <;> rfl

theorem Trie.TryDelete_db {t r : Trie} {fuel : ℕ} {key : Bytes} (h : t.TryDelete fuel key = some (.ok r)) :
    r.db = t.db := by
  unfold Trie.TryDelete at h
  split at h <;> cases h
  rfl

theorem Trie.TryGet_db {t r : Trie} {fuel : ℕ} {key : Bytes} {v : Option Bytes}
    (h : t.TryGet fuel key = some (.ok (v, r))) : r.db = t.db := by
  unfold Trie.TryGet at h
  split at h
  · cases h
  · cases h
  · rename_i didResolve _
    cases h
    cases didResolve <;> rfl

/-- A walk never writes to the database. -/
theorem Trie.apply_db {t t' : Trie} {op : Op} {fuel : ℕ} (hf : op.Walk fuel)
    (h : t.apply keccak fuel op = some t') : t'.db = t.db := by
  cases op with
  | TryUpdate key value =>
    simp only [Trie.apply] at h
    split at h
    · cases h
    · cases h
      rfl
    · cases h
      exact Trie.TryUpdate_db ‹_›
  | TryDelete key =>
    simp only [Trie.apply] at h
    split at h
    · cases h
    · cases h
      rfl
    · cases h
      exact Trie.TryDelete_db ‹_›
  | TryGet key =>
    simp only [Trie.apply] at h
    split at h
    · cases h
    · cases h
      rfl
    · cases h
      exact Trie.TryGet_db ‹_›
  | Hash | Commit => cases hf

theorem Trie.run_db {t t' : Trie} {ops : List Op} {fuel : ℕ} (hf : ∀ op ∈ ops, op.Walk fuel)
    (h : t.run keccak fuel ops = some t') : t'.db = t.db := by
  induction ops generalizing t with
  | nil =>
    cases h
    rfl
  | cons op ops ih =>
    rw [Trie.run_cons] at h
    obtain ⟨t₁, h₁, hrun⟩ := Option.bind_eq_some_iff.mp h
    rw [ih (fun op hop => hf op (List.mem_cons_of_mem _ hop)) hrun, Trie.apply_db keccak (hf op List.mem_cons_self) h₁]

/-! ## Commit, then New -/

theorem Denotes.TryGet_reads {A : Bytes → Option Bytes} {t : Trie} {s : Shape} (h : Denotes t.db t.root (hexMap A) s)
    (hs : s ≠ .value) (key : Bytes) {fuel : ℕ} (hf : 2 * (keybytesToHex key).length + 2 ≤ fuel) :
    ∃ u, t.TryGet fuel key = some (.ok (A key, u)) := by
  obtain ⟨n', hget, -⟩ := TryGet_spec t h hs key hf
  rw [hexMap_keybytesToHex] at hget
  exact ⟨_, hget⟩

/-- A trie in memory, committed to a database with nothing in memory yet: the trie `Commit`
leaves and the one `New` opens at the root hash it returns over the database it leaves both read
every key as the trie did, as long as the encodings of its collapsed nodes can be told apart by
their hashes. -/
theorem Commit_New_TryGet {A : Bytes → Option Bytes} {t : Trie} (h : Tracks A t)
    (hdb : t.db.nodes = fun _ => none) (hsafe : Safe keccak (t.root.blobs keccak)) :
    ∃ root t' t'', t.Commit keccak = some (root, t') ∧ New root t'.db = some (.ok t'') ∧
      ∀ key fuel, 2 * (keybytesToHex key).length + 2 ≤ fuel →
        (∃ u, t'.TryGet fuel key = some (.ok (A key, u))) ∧ ∃ u, t''.TryGet fuel key = some (.ok (A key, u)) := by
  obtain ⟨s, hden, hs, hfr⟩ := h
  by_cases hnil : t.root = .nil
  · -- the empty trie is committed as the empty root, which New opens as the empty trie
    have hden' : Denotes t.db .nil (hexMap A) s := hnil ▸ hden
    refine ⟨emptyRoot, { t with cachegen := t.cachegen + 1 }, _, ?_, new_emptyRoot t.db, fun key fuel hf =>
      ⟨Denotes.TryGet_reads (by simpa [hnil] using hden) hs key hf, Denotes.TryGet_reads hden' hs key hf⟩⟩
    simp [Trie.Commit, Trie.hashRoot_of_nil keccak hnil, hnil]
  · -- the root is a short or a full node, committed under its hash
    have hs' : s = .short ∨ s = .full := by
      have hne : s ≠ .empty := fun he => hnil (hden.empty_iff.mp he)
      cases s <;> simp_all
    have hholds : Holds keccak (t.root.blobs keccak) t.db := fun h b hb => by simp [hdb] at hb
    obtain ⟨hashed, cached, db', hhash, -, -, hsim, -, hst⟩ :=
      hden.commit hsafe (hasher.mk t.cachegen t.cachelimit) hfr hs' (fun b hb => hb) true hholds
    obtain ⟨root, rfl, hne, hzero, hroot⟩ := (hst db' (.refl db')).2.2 rfl
    obtain ⟨blob, dec, hb, hdec, hdend⟩ := hroot.of_hash
    refine ⟨root, { t with db := db', root := cached, cachegen := t.cachegen + 1 },
      { db := db', root := dec 0, cachegen := 0, cachelimit := 0 }, ?_, ?_, fun key fuel hf =>
        ⟨Denotes.TryGet_reads ((hden.change_db hfr db').of_similar hsim) hs key hf,
          Denotes.TryGet_reads (hdend 0) hs key hf⟩⟩
    · have hroot' : t.root.isNil = false := by
        cases hr : t.root <;> simp_all [node.isNil]
      simp only [Trie.Commit, Trie.hashRoot_of_ne_nil keccak hroot', hhash]
    · simp [New, hne, hzero, Trie.resolveHash, hb, hdec]


theorem Commit_New_TryGet_hashed_child :
    ∃ t root t' t'', ({ db := Database.New fun _ => none, root := .nil, cachegen := 0, cachelimit := 0 } : Trie).run
        (fun b => (b.reverse ++ List.replicate 32 1).take 32) 20
        [.TryUpdate [1] (List.replicate 40 9), .TryUpdate [0x13] [4]] = some t ∧
      t.Commit (fun b => (b.reverse ++ List.replicate 32 1).take 32) = some (root, t') ∧
      New root t'.db = some (.ok t'') ∧
      ∀ key fuel, 2 * (keybytesToHex key).length + 2 ≤ fuel →
        (∃ u, t'.TryGet fuel key = some (.ok (written [.TryUpdate [1] (List.replicate 40 9), .TryUpdate [0x13] [4]] key, u))) ∧
        ∃ u, t''.TryGet fuel key = some (.ok (written [.TryUpdate [1] (List.replicate 40 9), .TryUpdate [0x13] [4]] key, u)) := by
  have hf : ∀ op ∈ [Op.TryUpdate [1] (List.replicate 40 9), .TryUpdate [0x13] [4]], op.Walk 20 := by decide
  obtain ⟨t, hrun, ht⟩ := (tracks_new (Database.New fun _ => none)).run
    (fun b => (b.reverse ++ List.replicate 32 1).take 32) hf
  have hsafe : Safe (fun b => (b.reverse ++ List.replicate 32 1).take 32)
      (t.root.blobs fun b => (b.reverse ++ List.replicate 32 1).take 32) := by
    have hall : (({ db := Database.New fun _ => none, root := .nil, cachegen := 0, cachelimit := 0 } : Trie).run
        (fun b => (b.reverse ++ List.replicate 32 1).take 32) 20
        [.TryUpdate [1] (List.replicate 40 9), .TryUpdate [0x13] [4]]).all (fun t =>
          decide (Safe (fun b => (b.reverse ++ List.replicate 32 1).take 32)
            (t.root.blobs fun b => (b.reverse ++ List.replicate 32 1).take 32))) = true := by decide
    rw [hrun] at hall
    exact of_decide_eq_true hall
  have hdb : t.db.nodes = fun _ => none := by
    rw [Trie.run_db _ hf hrun]
    rfl
  obtain ⟨root, t', t'', hcommit, hnew, hget⟩ := Commit_New_TryGet _ ht hdb hsafe
  exact ⟨t, root, t', t'', hrun, hcommit, hnew, hget⟩

end EthereumAI.Trie
