import EthereumAI.Lib.Addressed
import EthereumAI.Trie.Commit
import EthereumAI.Trie.Proof

/-! # Merkle proofs of a trie in memory verify

`Prove` writes the collapsed encodings of the nodes on the path to a key, of those their parent
refers to by hash and of the root, under their hashes. `VerifyProof` starts from the root hash,
decodes the node found under it and follows the key with `get` through what is embedded in it,
to a value, to nothing, or to the hash of the next node on the path.

For a trie in memory that is not empty, whose collapsed encodings are told apart by their
hashes, the proof of any key verifies against the root hash `Hash` returns, with the value the
trie holds at the key (`Prove_VerifyProof`), in a proof database that may already hold proofs of
other keys of the same trie. `VerifyProof` reads the proof database without hashing what it
finds, so it relies on the database holding each blob under its hash; over any such database it
returns the value the trie holds or reports a node missing, and nothing else
(`VerifyProof_sound`).

The argument: a collapsed encoding decodes to a view of the node it was made from (`Views`: the
same keys, each child viewed in turn or replaced by its hash, `Denotes.views`); `get` on a view
ends at the value, at nothing, or at the hash of a node further down the path (`get_views`);
`Prove` writes every node of the path that its parent holds by hash (`mem_proveNodes_of_below`,
`putProof_writes`), so the loop of `VerifyProof` finds each node it looks for
(`verifyLoop_complete`); and a blob a database holds under the hash of a node's encoding is that
encoding (`verifyLoop_sound`).
-/

namespace EthereumAI.Trie

open EthereumAI.Lib Rlp

-- the package and its main type share the name
set_option linter.dupNamespace false

variable (keccak : Bytes → Bytes)

/-- `d` views the node `n` of a trie in memory: it has the same keys, and in the place of each
child either a view of the child or the hash the child is stored under. A value is never hashed
apart from its parent. -/
inductive Views : node → node → Prop
  | nil : Views .nil .nil
  | value (v : Bytes) : Views (.valueNode v) (.valueNode v)
  | hashed (c : node) (h : Bytes) (hv : c.isValue = false) (hc : HashesTo keccak false c h) :
      Views c (.hashNode h)
  | short (k : Bytes) (c d : node) (f f' : nodeFlag) (hc : Views c d) :
      Views (.shortNode k c f) (.shortNode k d f')
  | full (cs ds : List node) (f f' : nodeFlag) (hlen : ds.length = cs.length)
      (hc : ∀ i, Views (cs.getD i .nil) (ds.getD i .nil)) : Views (.fullNode cs f) (.fullNode ds f')

/-- The encoding of `collapsed`, read by `decodeNode` under any hash and generation and whatever
follows it, is a view of `n`. -/
def ViewsAt (n collapsed : node) : Prop :=
  ∀ hash rest g, ∃ d, decodeNode hash (encodeNode collapsed ++ rest) g = some (.ok d) ∧ Views keccak n d

/-- A short or a full node with no cached hash, as `hashChildren` collapses a node in memory. -/
def Collapsed : node → Prop
  | .shortNode _ _ f | .fullNode _ f => f.hash = none
  | _ => False

variable {keccak}

/-! ## Hashing a node in memory -/

theorem Denotes.isValue_eq_false {db : Database} {n : node} {m : Bytes → Option Bytes} {s : Shape}
    (h : Denotes db n m s) (hs : s = .short ∨ s = .full) : n.isValue = false := by
  cases h <;> simp_all [node.isValue]

theorem hash_of_fresh (hs : hasher) {n : node} (hf : Fresh n) (hn : n.isNil = false) (db : Option Database)
    (force : Bool) :
    hs.hash keccak n db force =
      (hs.hashChildren keccak n db).bind fun r => some (hasher.finish keccak r.1 r.2.1 db r.2.2 force) := by
  rw [hasher.hash_eq keccak hs n db force hn]
  cases n with
  | nil => cases hn
  | shortNode k c f =>
    rw [cachedResult_of_hash_none hs hf.of_short.1 db]
    cases hs.hashChildren keccak (.shortNode k c f) db <;> rfl
  | fullNode cs f =>
    rw [cachedResult_full_of_hash_none hs hf.of_full.1 db]
    cases hs.hashChildren keccak (.fullNode cs f) db <;> rfl
  | hashNode => cases hf
  | valueNode => rfl

theorem Collapsed.store {c : node} (hc : Collapsed c) (force : Bool) :
    hasher.store keccak c none force =
      if (encodeNode c).length < 32 ∧ !force then (c, none) else (.hashNode (keccak (encodeNode c)), none) := by
  cases c with
  | shortNode k v f => exact store_of_cache_none keccak (c := .shortNode k v f) rfl (fun _ => by simp) hc none force
  | fullNode cs f => exact store_of_cache_none keccak (c := .fullNode cs f) rfl (fun _ => by simp) hc none force
  | _ => exact hc.elim

theorem Collapsed.kind {c : node} (hc : Collapsed c) : c.item.kind = .List := by
  cases c <;> first | rfl | exact hc.elim

theorem HashesTo.isNil {force : Bool} {n : node} {h : Bytes} (hh : HashesTo keccak force n h) : n.isNil = false := by
  obtain ⟨r, hr, -⟩ := hh
  cases n <;> simp_all [node.isNil, hasher.hash]

theorem HashesTo.collapsed {n collapsed cached : node} {h : Bytes} (hh : HashesTo keccak false n h) (hf : Fresh n)
    (hch : (hasher.mk 0 0).hashChildren keccak n none = some (collapsed, cached, none)) (hc : Collapsed collapsed) :
    32 ≤ (encodeNode collapsed).length ∧ h = keccak (encodeNode collapsed) := by
  have hn := hh.isNil
  obtain ⟨r, hr, hr1⟩ := hh
  rw [hash_of_fresh _ hf hn, hch, Option.bind_some, Option.some.injEq] at hr
  rw [← hr, finish_fst, hc.store] at hr1
  split_ifs at hr1 with hemb
  · cases collapsed <;> first | exact hc.elim | cases hr1
  · simp only [Bool.not_false, and_true, not_lt] at hemb
    cases hr1
    exact ⟨hemb, rfl⟩

theorem Collapsed.of_hashChildren {n collapsed cached : node} {db db' : Option Database} (hf : Fresh n)
    (hn : n.isNil = false) (hv : n.isValue = false)
    (hch : (hasher.mk 0 0).hashChildren keccak n db = some (collapsed, cached, db')) : Collapsed collapsed := by
  cases n with
  | shortNode k c f =>
    rw [hashChildren_short] at hch
    obtain ⟨r, -, hr⟩ := Option.bind_eq_some_iff.mp hch
    cases hr
    exact hf.of_short.1
  | fullNode cs f =>
    rw [hashChildren_full] at hch
    obtain ⟨r, -, hr⟩ := Option.bind_eq_some_iff.mp hch
    cases hr
    exact hf.of_full.1
  | nil => cases hn
  | valueNode => cases hv
  | hashNode => cases hf

theorem mem_blobs {n collapsed cached : node} {db' : Option Database}
    (hch : (hasher.mk 0 0).hashChildren keccak n none = some (collapsed, cached, db')) (hc : Collapsed collapsed) :
    encodeNode collapsed ∈ n.blobs keccak := by
  cases n with
  | shortNode k c f =>
    rw [node.blobs, hch]
    simp
  | fullNode cs f =>
    rw [node.blobs, hch]
    simp
  | _ =>
    simp only [hasher.hashChildren, Option.some.injEq, Prod.mk.injEq] at hch
    obtain ⟨rfl, -⟩ := hch
    exact hc.elim

/-- The loop of `hashChildren` without a database, over children of which each of the first
sixteen that is not nil is hashed as `P` says: the empty ones are written as the empty string,
and the value slot is kept. -/
theorem hashList_none (hs : hasher) {P : ℕ → node → Prop} : ∀ (cs : List node) (i : ℕ),
    (∀ j < cs.length, i + j < 16 → (cs.getD j .nil).isNil = false →
      ∃ r, hs.hash keccak (cs.getD j .nil) none false = some r ∧ r.2.2 = none ∧ P (i + j) r.1) →
    ∃ ccs chcs, hs.hashList keccak i cs none = some (ccs, chcs, none) ∧ ccs.length = cs.length ∧
      ∀ j < cs.length, (i + j < 16 → (cs.getD j .nil).isNil = false → P (i + j) (ccs.getD j .nil)) ∧
        ((cs.getD j .nil).isNil = true → ccs.getD j .nil = .valueNode []) ∧
        (16 ≤ i + j → ccs.getD j .nil = if (cs.getD j .nil).isNil then .valueNode [] else cs.getD j .nil)
  | [], i, _ => ⟨[], [], rfl, rfl, fun j hj => absurd hj (Nat.not_lt_zero j)⟩
  | c :: cs, i, hc => by
    -- the first child: hashed, written as the empty string, or kept
    obtain ⟨cc, chc, hhead, hP, hnil, hkept⟩ : ∃ cc chc,
        (if i < 16 then (if c.isNil then some (.valueNode [], c, none) else hs.hash keccak c none false)
          else some (if c.isNil then .valueNode [] else c, c, none)) = some (cc, chc, none) ∧
        (i < 16 → c.isNil = false → P i cc) ∧ (c.isNil = true → cc = .valueNode []) ∧
        (16 ≤ i → cc = if c.isNil then .valueNode [] else c) := by
      by_cases hi : i < 16
      · by_cases hn : c.isNil
        · exact ⟨_, _, by rw [if_pos hi, if_pos hn], fun _ h => absurd hn (by simp [h]), fun _ => rfl,
            fun h => absurd hi (by omega)⟩
        · obtain ⟨⟨cc, chc, db⟩, hr, hdb, hPc⟩ := hc 0 (by simp) (by omega) (by simpa using hn)
          dsimp only at hdb hPc
          subst hdb
          exact ⟨cc, chc, by rw [if_pos hi, if_neg hn]; simpa using hr, fun _ _ => by simpa using hPc,
            fun h => absurd h hn, fun h => absurd hi (by omega)⟩
      · exact ⟨_, _, by rw [if_neg hi], fun h => absurd h hi, fun h => by simp [h], fun _ => rfl⟩
    -- the children after the first, from the next index
    obtain ⟨ccs, chcs, hl, hlen, hslots⟩ := hashList_none hs cs (i + 1) fun j hj hi hn => by
      simpa [show i + (j + 1) = i + 1 + j by omega] using hc (j + 1) (by simp; omega) (by omega) hn
    refine ⟨cc :: ccs, chc :: chcs, ?_, by simp [hlen], fun j hj => ?_⟩
    · rw [hashList_cons, hhead, Option.bind_some, hl]
      rfl
    · cases j with
      | zero => exact ⟨fun hi hn => hP hi (by simpa using hn), fun hn => hnil (by simpa using hn),
          fun hi => by simpa using hkept hi⟩
      | succ j =>
        obtain ⟨h₁, h₂, h₃⟩ := hslots j (by simp at hj; omega)
        simp only [List.getD_cons_succ]
        exact ⟨fun hi hn => by simpa [show i + (j + 1) = i + 1 + j by omega] using h₁ (by omega) hn, h₂,
          fun hi => h₃ (by omega)⟩

/-! ## A collapsed encoding decodes to a view -/

theorem ref_views {n collapsed cached : node} (hf : Fresh n) (hn : n.isNil = false) (hv : n.isValue = false)
    (hch : (hasher.mk 0 0).hashChildren keccak n none = some (collapsed, cached, none)) (hc : Collapsed collapsed)
    (hlen : (keccak (encodeNode collapsed)).length = 32) (hviews : ViewsAt keccak n collapsed) (rest : Bytes)
    (g : UInt16) :
    ∃ d, decodeRef (encodeNode (hasher.store keccak collapsed none false).1 ++ rest) g = some (.ok (d, rest)) ∧
      Views keccak n d := by
  rw [hc.store]
  split_ifs with hemb
  · -- embedded in the parent
    obtain ⟨d, hd, hview⟩ := hviews none rest g
    refine ⟨d, ?_, hview⟩
    rw [decodeRef_embedded hc.kind (by omega), hd]
    rfl
  · -- replaced by its hash
    refine ⟨_, decodeRef_hash hlen rest g, .hashed n _ hv ⟨hasher.finish keccak collapsed cached none none false, ?_, ?_⟩⟩
    · rw [hash_of_fresh _ hf hn none false, hch, Option.bind_some]
    · rw [finish_fst, hc.store, if_neg hemb]

section Views

variable {L : List Bytes} (hL : Safe keccak L)
include hL

/-- A node of a trie in memory whose collapsed encodings are in `L` is collapsed, without a
database, to a node whose encoding decodes to a view of it. -/
theorem Denotes.views {db : Database} {n : node} {m : Bytes → Option Bytes} {s : Shape} (h : Denotes db n m s)
    (hf : Fresh n) (hs : s = .short ∨ s = .full) (hb : ∀ b ∈ n.blobs keccak, b ∈ L) :
    ∃ collapsed cached, (hasher.mk 0 0).hashChildren keccak n none = some (collapsed, cached, none) ∧
      Collapsed collapsed ∧ ViewsAt keccak n collapsed := by
  induction h with
  | nil => simp at hs
  | value => simp at hs
  | hash => cases hf
  | short k c f mc sc hc hk ih =>
    obtain ⟨hfh, hcf⟩ := hf.of_short
    rcases hk.child_shape with rfl | rfl
    · -- a value child is kept in its parent
      obtain ⟨v, rfl⟩ : ∃ v, c = .valueNode v := by
        cases hc with
        | value v _ => exact ⟨v, rfl⟩
        | hash => cases hcf
      have hch : (hasher.mk 0 0).hashChildren keccak (.shortNode k (.valueNode v) f) none =
          some (.shortNode (hexToCompact k) (.valueNode v) f, .shortNode k (.valueNode v) f, none) := by
        rw [hashChildren_short]
        simp [node.isValue, hasher.shortChildren, node.isNil]
      have hmem := hb _ (mem_blobs hch hfh)
      exact ⟨_, _, hch, hfh, fun hash rest g =>
        ⟨_, decodeNode_short_value f hk.1 hk.hasTerm_of_value (hL _ hmem).1 hash rest g, .short k _ _ f _ (.value v)⟩⟩
    · -- a full child is collapsed first, then embedded or hashed
      have hcv : c.isValue = false := hc.isValue_eq_false (.inr rfl)
      have hcn : c.isNil = false := by
        cases hcn : c.isNil
        · rfl
        · simpa using hc.isNil_iff.mp hcn
      rw [node.blobs] at hb
      obtain ⟨cc, chc, hchc, hcc, hvc⟩ := ih hcf (.inr rfl) (fun b hb' => hb b (List.mem_append_right _ hb'))
      have hccmem : encodeNode cc ∈ L := hb _ (List.mem_append_right _ (mem_blobs hchc hcc))
      have hcvnil : (hasher.store keccak cc none false).1.isNil = false := by
        rw [store_fst_isNil]
        cases cc <;> first | rfl | exact hcc.elim
      have hch : (hasher.mk 0 0).hashChildren keccak (.shortNode k c f) none =
          some (.shortNode (hexToCompact k) (hasher.store keccak cc none false).1 f,
            .shortNode k (hasher.finish keccak cc chc none none false).2.1 f, none) := by
        rw [hashChildren_short, hcv, if_neg Bool.false_ne_true, hash_of_fresh _ hcf hcn, hchc]
        simp only [Option.bind_some, hasher.shortChildren, finish_fst, hcvnil, Bool.false_eq_true, if_false]
        rw [show (hasher.finish keccak cc chc none none false).2.2 = none from store_db_none keccak cc false]
      refine ⟨_, _, hch, hfh, fun hash rest g => ?_⟩
      obtain ⟨dc, hdc, hview⟩ := ref_views hcf hcn hcv hchc hcc (hL _ hccmem).2.1 hvc [] g
      rw [List.append_nil] at hdc
      exact ⟨_, decodeNode_short_ref f hk.1 hk.hasTerm_of_full hdc (hL _ (hb _ (mem_blobs hch hfh))).1 hash rest,
        .short k _ _ f _ hview⟩
  | full cs f ms ss hlen hc hss ih =>
    obtain ⟨hfh, hcf⟩ := hf.of_full
    rw [node.blobs] at hb
    -- each of the sixteen slots that is not empty holds a node collapsed, then embedded or hashed
    obtain ⟨ccs, chcs, hl, hlenc, hslots⟩ := hashList_none (hasher.mk 0 0) (P := fun j cv => ∀ rest g,
        ∃ d, decodeRef (encodeNode cv ++ rest) g = some (.ok (d, rest)) ∧ Views keccak (cs.getD j .nil) d) cs 0
      (fun j hj hj16 hn => by
        have hi : j < 17 := by omega
        have hshape := hss.slot_shape hc (j := j) (by omega) hn
        have hfj := Fresh.getD hcf j
        have hbj : ∀ b ∈ (cs.getD j .nil).blobs keccak, b ∈ L :=
          fun b hb' => hb b (List.mem_append_right _ (blobs_getD keccak j b hb'))
        obtain ⟨cc, chc, hchc, hcc, hvc⟩ := ih ⟨j, hi⟩ hfj hshape hbj
        refine ⟨hasher.finish keccak cc chc none none false, ?_, store_db_none keccak cc false, fun rest g => ?_⟩
        · rw [hash_of_fresh _ hfj hn, hchc, Option.bind_some]
        · rw [Nat.zero_add, finish_fst]
          exact ref_views hfj hn ((hc ⟨j, hi⟩).isValue_eq_false hshape) hchc hcc
            (hL _ (hbj _ (mem_blobs hchc hcc))).2.1 hvc rest g)
    have hch : (hasher.mk 0 0).hashChildren keccak (.fullNode cs f) none =
        some (.fullNode ccs f, .fullNode chcs f, none) := by
      rw [hashChildren_full, hl]
      rfl
    have hmem : encodeNode (.fullNode ccs f) ∈ L := hb _ (mem_blobs hch hfh)
    -- the value slot is kept, nil or a value
    obtain ⟨v, hv16, hvnode⟩ := value_slot (hc (Fin.last 16)) (Fresh.getD hcf 16) ((hss.1 (Fin.last 16)).2 rfl)
      ((hslots 16 (by omega)).2.2 (by omega))
    rw [Fin.val_last] at hvnode
    have hccs : ccs = ccs.take 16 ++ [.valueNode v] := by
      rw [← hv16]
      exact eq_take_append_getD (by omega)
    -- a child slot holds the empty string for nil, else what the loop left
    have hchildren : ∀ g, ∀ j < 16, ∀ rest', ∃ d, decodeRef (encodeNode ((ccs.take 16).getD j .nil) ++ rest') g =
        some (.ok (d, rest')) ∧ Views keccak (cs.getD j .nil) d := by
      intro g j hj rest'
      rw [List.getD_eq_getElem?_getD, List.getElem?_take_of_lt hj, ← List.getD_eq_getElem?_getD]
      obtain ⟨hP, hnil, -⟩ := hslots j (by omega)
      cases hn : (cs.getD j .nil).isNil
      · simpa using hP (by omega) hn rest' g
      · rw [hnil hn, node.eq_nil_of_isNil hn]
        exact ⟨.nil, decodeRef_empty rest' g, .nil⟩
    refine ⟨_, _, hch, hfh, fun hash rest g => ?_⟩
    have henc := (hL _ hmem).1
    rw [hccs] at henc ⊢
    obtain ⟨ds, hdec, hdlen, hds⟩ := decodeNode_full (P := fun j d => Views keccak (cs.getD j .nil) d) f
      (by simp [hlenc, hlen]) (hchildren g) henc hash rest
    refine ⟨_, hdec, .full _ _ f _ (by simp [hdlen, hlen]) fun i => ?_⟩
    rcases lt_trichotomy i 16 with hi | rfl | hi
    · rw [List.getD_append _ _ _ _ (by omega)]
      exact hds i hi
    · rw [List.getD_append_right _ _ _ _ (by simp [hdlen]), ← hvnode]
      simp only [hdlen, Nat.sub_self, List.getD_cons_zero]
      split_ifs
      · exact .value v
      · exact .nil
    · rw [List.getD_eq_default _ _ (by omega), List.getD_eq_default _ _ (by simp [hdlen]; omega)]
      exact .nil

end Views

/-! ## The path of a key -/

/-- One step down the path of a key: into the child of a short node whose key starts the key, or
into the child of a full node that the key's first nibble picks, with the rest of the key. -/
inductive PathStep : node × Bytes → node × Bytes → Prop
  | short (k : Bytes) (c : node) (f : nodeFlag) (r : Bytes) (hk : k ≠ []) :
      PathStep (.shortNode k c f, k ++ r) (c, r)
  | full (cs : List node) (f : nodeFlag) (x : UInt8) (r : Bytes) (hx : x.toNat < cs.length) :
      PathStep (.fullNode cs f, x :: r) (cs.getD x.toNat .nil, r)

/-- A node below another on the path of a key, with what is left of the key there. -/
def Below : node × Bytes → node × Bytes → Prop := Relation.TransGen PathStep

theorem PathStep.length_lt {p q : node × Bytes} (h : PathStep p q) : q.2.length < p.2.length := by
  cases h with
  | short k c f r hk =>
    have := List.length_pos_of_ne_nil hk
    simp only [List.length_append]
    omega
  | full => simp

theorem Below.length_lt {p q : node × Bytes} (h : Below p q) : q.2.length < p.2.length := by
  induction h with
  | single hs => exact hs.length_lt
  | tail _ hs ih => exact lt_trans hs.length_lt ih

theorem Below.trans {p q r : node × Bytes} (h₁ : Below p q) (h₂ : Below q r) : Below p r :=
  Relation.TransGen.trans h₁ h₂

theorem PathStep.blobs {p q : node × Bytes} (h : PathStep p q) : ∀ b ∈ q.1.blobs keccak, b ∈ p.1.blobs keccak := by
  intro b hb
  cases h with
  | short =>
    rw [node.blobs]
    exact List.mem_append_right _ hb
  | full cs f x r hx =>
    rw [node.blobs]
    exact List.mem_append_right _ (blobs_getD keccak x.toNat b hb)

theorem Below.blobs {p q : node × Bytes} (h : Below p q) : ∀ b ∈ q.1.blobs keccak, b ∈ p.1.blobs keccak := by
  induction h with
  | single hs => exact hs.blobs
  | tail _ hs ih => exact fun b hb => ih b (hs.blobs b hb)

/-! ## Walking a view with `get` -/

theorem get_short (k : Bytes) (v : node) (f : nodeFlag) (key : Bytes) :
    get (.shortNode k v f) key =
      if key.length < k.length ∨ k ≠ key.take k.length then some ([], .nil) else get v (key.drop k.length) := by
  rw [get]

theorem get_full {cs : List node} (f : nodeFlag) {x : UInt8} (rest : Bytes) (hx : x.toNat < cs.length) :
    get (.fullNode cs f) (x :: rest) = get (cs.getD x.toNat .nil) rest := by
  rw [get]
  split
  · rename_i h
    simp [List.getElem?_eq_getElem hx] at h
  · rename_i c h
    rw [List.getD_eq_getElem _ _ hx]
    simp only [List.getElem?_eq_getElem hx, Option.some.injEq] at h
    rw [h]

theorem get_hashNode (h key : Bytes) : get (.hashNode h) key = some (key, .hashNode h) := by
  rw [get]

theorem get_nil (key : Bytes) : get .nil key = some (key, .nil) := by
  rw [get]

theorem get_valueNode (v key : Bytes) : get (.valueNode v) key = some ([], .valueNode v) := by
  rw [get]

variable (keccak) in
/-- What `get` ends at, on a view of `n` at `key`, against the map `m` of `n`: nothing where `m`
has nothing, the value `m` has, or the hash of a node below `n` on the path, hashed to it, that
stands for what is left of `m`. -/
def Found (db : Database) (n : node) (m : Bytes → Option Bytes) (key : Bytes) (res : Bytes × node) : Prop :=
  match res with
  | (_, .nil) => m key = none
  | (_, .valueNode v) => m key = some v
  | (keyrest, .hashNode h) => ∃ c mc sc, Below (n, key) (c, keyrest) ∧ HashesTo keccak false c h ∧
      Denotes db c mc sc ∧ Fresh c ∧ (sc = .short ∨ sc = .full) ∧ m key = mc keyrest ∧ Term keyrest ∧
      Fits sc keyrest
  | _ => False

theorem Views.inv_hashNode {c : node} {h : Bytes} (hv : Views keccak c (.hashNode h)) :
    c.isValue = false ∧ HashesTo keccak false c h := by
  cases hv with
  | hashed _ _ hcv hc => exact ⟨hcv, hc⟩

theorem Denotes.shape_of {db : Database} {n : node} {m : Bytes → Option Bytes} {s : Shape} (h : Denotes db n m s)
    (hf : Fresh n) (hn : n.isNil = false) (hv : n.isValue = false) : s = .short ∨ s = .full := by
  cases h <;> simp_all [node.isNil, node.isValue]

theorem Found.up {db : Database} {n c : node} {key r : Bytes} {m mc : Bytes → Option Bytes} {res : Bytes × node}
    (hstep : PathStep (n, key) (c, r)) (hm : m key = mc r) (h : Found keccak db c mc r res) :
    Found keccak db n m key res := by
  obtain ⟨keyrest, x⟩ := res
  cases x with
  | nil => exact hm.trans h
  | valueNode v => exact hm.trans h
  | hashNode hh =>
    obtain ⟨c', mc', sc', hb, hh', hden, hf, hs, hm', hterm, hfits⟩ := h
    exact ⟨c', mc', sc', .head hstep hb, hh', hden, hf, hs, hm.trans hm', hterm, hfits⟩
  | shortNode => exact h.elim
  | fullNode => exact h.elim

theorem Found.hashed {db : Database} {n c : node} {key r hh : Bytes} {m mc : Bytes → Option Bytes} {sc : Shape}
    (hstep : PathStep (n, key) (c, r)) (hm : m key = mc r) (hv : Views keccak c (.hashNode hh))
    (hc : Denotes db c mc sc) (hf : Fresh c) (hterm : Term r) (hfits : Fits sc r) :
    Found keccak db n m key (r, .hashNode hh) := by
  obtain ⟨hcv, hhash⟩ := hv.inv_hashNode
  exact ⟨c, mc, sc, .single hstep, hhash, hc, hf, hc.shape_of hf hhash.isNil hcv, hm, hterm, hfits⟩

/-- `get` on a view of a node in memory, along a key that reaches it, finds what the node stands
for at the key, or the hash of the next node below it that is stored apart. -/
theorem get_views {db : Database} {n : node} {m : Bytes → Option Bytes} {s : Shape} (h : Denotes db n m s)
    (hf : Fresh n) :
    ∀ {d key}, Views keccak n d → (∀ hh, d ≠ .hashNode hh) → Term key → Fits s key →
      ∃ res, get d key = some res ∧ Found keccak db n m key res := by
  induction h with
  | nil =>
    intro d key hv hd _ _
    cases hv with
    | nil => exact ⟨_, get_nil key, rfl⟩
    | hashed _ hh _ _ => exact absurd rfl (hd hh)
  | value v _ =>
    intro d key hv hd _ hfits
    cases hv with
    | value => exact ⟨_, get_valueNode v key, by rw [hfits.2 rfl]; rfl⟩
    | hashed _ hh _ _ => exact absurd rfl (hd hh)
  | short k c f mc sc hc hk ih =>
    intro d key hv hd hterm hfits
    cases hv with
    | hashed _ hh _ _ => exact absurd rfl (hd hh)
    | short _ _ dc _ f' hvc =>
      rw [get_short]
      split_ifs with hmiss
      · -- the key leaves the key of the short node: nothing
        refine ⟨_, rfl, PrefixMap.under_apply_outside (fun hp => ?_) mc⟩
        obtain ⟨hle, he⟩ := prefix_iff_take.mp hp
        rcases hmiss with hlt | hne
        · omega
        · exact hne he
      · -- the key runs through it, on to the child
        obtain ⟨r, rfl⟩ : ∃ r, key = k ++ r := by
          simp only [not_or, not_lt, ne_eq, not_not] at hmiss
          refine ⟨key.drop k.length, ?_⟩
          nth_rewrite 1 [← List.take_append_drop k.length key]
          rw [← hmiss.2]
        rw [List.drop_left]
        have hstep : PathStep (.shortNode k c f, k ++ r) (c, r) := .short k c f r hk.2.1
        have hm : PrefixMap.under k mc (k ++ r) = mc r := PrefixMap.under_apply_append k r mc
        have hterm' : Term r := by simpa using hterm.drop k.length
        have hfits' := fits_child hterm hk
        by_cases hdc : ∃ hh, dc = .hashNode hh
        · obtain ⟨hh, rfl⟩ := hdc
          exact ⟨_, get_hashNode hh r, Found.hashed hstep hm hvc hc hf.of_short.2 hterm' hfits'⟩
        · obtain ⟨res, hget, hfound⟩ := ih hf.of_short.2 hvc (fun hh he => hdc ⟨hh, he⟩) hterm' hfits'
          exact ⟨res, hget, hfound.up hstep hm⟩
  | full cs f ms ss hlen hc hss ih =>
    intro d key hv hd hterm hfits
    cases hv with
    | hashed _ hh _ _ => exact absurd rfl (hd hh)
    | full _ ds _ f' hdlen hvc =>
      -- a full node is never reached with the key used up
      obtain ⟨x, rest, rfl⟩ : ∃ x rest, key = x :: rest := by
        cases key with
        | nil => simpa using hfits.1 rfl
        | cons x rest => exact ⟨x, rest, rfl⟩
      obtain ⟨hx17, hfit⟩ := fits_slot hterm hss
      rw [get_full f' rest (by omega)]
      have hstep : PathStep (.fullNode cs f, x :: rest) (cs.getD x.toNat .nil, rest) := .full cs f x rest (by omega)
      have hm : fullMap ms (x :: rest) = ms ⟨x.toNat, hx17⟩ rest := by rw [fullMap, dif_pos hx17]
      have hterm' : Term rest := by simpa using hterm.drop 1
      have hfc := Fresh.getD hf.of_full.2 x.toNat
      by_cases hdc : ∃ hh, ds.getD x.toNat .nil = .hashNode hh
      · obtain ⟨hh, hdh⟩ := hdc
        have hvx := hvc x.toNat
        rw [hdh] at hvx ⊢
        exact ⟨_, get_hashNode hh rest, Found.hashed hstep hm hvx (hc ⟨x.toNat, hx17⟩) hfc hterm' hfit⟩
      · obtain ⟨res, hget, hfound⟩ := ih ⟨x.toNat, hx17⟩ hfc (hvc x.toNat) (fun hh he => hdc ⟨hh, he⟩) hterm' hfit
        exact ⟨res, hget, hfound.up hstep hm⟩
  | hash => cases hf

/-! ## The path `Prove` collects -/

namespace Trie

variable (t : Trie)

theorem proveNodes_short (fuel : ℕ) (k : Bytes) (v : node) (f : nodeFlag) {key : Bytes} (hkey : key ≠ []) :
    t.proveNodes (fuel + 1) (.shortNode k v f) key =
      if key.length < k.length ∨ k ≠ key.take k.length then some (.ok [.shortNode k v f])
      else (t.proveNodes fuel v (key.drop k.length)).map (·.map (.shortNode k v f :: ·)) := by
  rw [Trie.proveNodes, if_neg (by simp [hkey, node.isNil])]

theorem proveNodes_full (fuel : ℕ) (cs : List node) (f : nodeFlag) {x : UInt8} (rest : Bytes)
    (hx : x.toNat < cs.length) :
    t.proveNodes (fuel + 1) (.fullNode cs f) (x :: rest) =
      (t.proveNodes fuel (cs.getD x.toNat .nil) rest).map (·.map (.fullNode cs f :: ·)) := by
  rw [Trie.proveNodes, if_neg (by simp [node.isNil])]
  simp only [List.getElem?_cons_zero, List.getElem?_eq_getElem hx, List.getD_eq_getElem _ _ hx, List.drop_one,
    List.tail_cons]

theorem proveNodes_step {n c : node} {key r : Bytes} (hst : PathStep (n, key) (c, r)) (fuel : ℕ) :
    t.proveNodes (fuel + 1) n key = (t.proveNodes fuel c r).map (·.map (n :: ·)) := by
  cases hst with
  | short k c f r hk =>
    rw [proveNodes_short t fuel k c f (by simp [hk]), if_neg (by simp), List.drop_left]
  | full cs f x r hx => exact proveNodes_full t fuel cs f r hx

theorem map_cons_eq_ok {x : Outcome (List node)} {n : node} {nodes : List node}
    (h : x.map (·.map (n :: ·)) = some (.ok nodes)) : ∃ nodes', x = some (.ok nodes') ∧ nodes = n :: nodes' := by
  rcases x with _ | _ | nodes'
  · cases h
  · cases h
  · simp only [Option.map_some, Option.some.injEq, Except.map, Except.ok.injEq] at h
    exact ⟨nodes', rfl, h.symm⟩

/-- The loop of `Prove` from a short or a full node, with some key left, puts the node first on
the path. -/
theorem proveNodes_head {c : node} {r : Bytes} (hf : Fresh c) (hn : c.isNil = false) (hv : c.isValue = false)
    (hr : r ≠ []) {fuel : ℕ} {nodes : List node} (h : t.proveNodes fuel c r = some (.ok nodes)) :
    ∃ rest, nodes = c :: rest := by
  obtain ⟨fuel, rfl⟩ : ∃ f, fuel = f + 1 := ⟨fuel - 1, by cases fuel <;> simp_all [Trie.proveNodes]⟩
  cases c with
  | shortNode k v f =>
    rw [proveNodes_short t fuel k v f hr] at h
    split_ifs at h
    · cases h
      exact ⟨[], rfl⟩
    · obtain ⟨nodes', -, rfl⟩ := map_cons_eq_ok h
      exact ⟨nodes', rfl⟩
  | fullNode cs f =>
    obtain ⟨x, rest, rfl⟩ : ∃ x rest, r = x :: rest := List.exists_cons_of_ne_nil hr
    by_cases hx : x.toNat < cs.length
    · rw [proveNodes_full t fuel cs f rest hx] at h
      obtain ⟨nodes', -, rfl⟩ := map_cons_eq_ok h
      exact ⟨nodes', rfl⟩
    · simp [Trie.proveNodes, node.isNil, List.getElem?_eq_none (not_lt.mp hx)] at h
  | nil => cases hn
  | valueNode => cases hv
  | hashNode => cases hf

theorem mem_proveNodes_of_below {n c : node} {key r : Bytes} (hb : Below (n, key) (c, r)) (hf : Fresh c)
    (hn : c.isNil = false) (hv : c.isValue = false) (hr : r ≠ []) :
    ∀ {fuel nodes}, t.proveNodes fuel n key = some (.ok nodes) → c ∈ nodes := by
  refine Relation.TransGen.head_induction_on (motive := fun p _ => ∀ {fuel nodes},
    t.proveNodes fuel p.1 p.2 = some (.ok nodes) → c ∈ nodes) hb ?_ ?_
  · rintro ⟨n, key⟩ hst fuel nodes h
    obtain ⟨fuel, rfl⟩ : ∃ f, fuel = f + 1 := ⟨fuel - 1, by cases fuel <;> simp_all [Trie.proveNodes]⟩
    rw [proveNodes_step t hst] at h
    obtain ⟨nodes', h', rfl⟩ := map_cons_eq_ok h
    obtain ⟨rest, rfl⟩ := proveNodes_head t hf hn hv hr h'
    exact List.mem_cons_of_mem _ List.mem_cons_self
  · rintro ⟨n, key⟩ ⟨c', r'⟩ hst - ih fuel nodes h
    obtain ⟨fuel, rfl⟩ : ∃ f, fuel = f + 1 := ⟨fuel - 1, by cases fuel <;> simp_all [Trie.proveNodes]⟩
    rw [proveNodes_step t hst] at h
    obtain ⟨nodes', h', rfl⟩ := map_cons_eq_ok h
    exact List.mem_cons_of_mem _ (ih h')

/-- With fuel for the key, the loop of `Prove` on a node in memory returns a path of short and
full nodes of the trie below it. -/
theorem proveNodes_spec {db : Database} {n : node} {m : Bytes → Option Bytes} {s : Shape} (h : Denotes db n m s)
    (hf : Fresh n) :
    ∀ {fuel key}, key.length < fuel → Term key → Fits s key →
      ∃ nodes, t.proveNodes fuel n key = some (.ok nodes) ∧
        ∀ c ∈ nodes, (∃ mc sc, Denotes db c mc sc ∧ (sc = .short ∨ sc = .full)) ∧ Fresh c ∧
          ∀ b ∈ c.blobs keccak, b ∈ n.blobs keccak := by
  induction h with
  | nil =>
    intro fuel key hfuel _ _
    obtain ⟨fuel, rfl⟩ : ∃ f, fuel = f + 1 := ⟨fuel - 1, by omega⟩
    exact ⟨[], by simp [Trie.proveNodes, node.isNil], fun _ hc => absurd hc List.not_mem_nil⟩
  | value v _ =>
    intro fuel key hfuel _ hfits
    obtain ⟨fuel, rfl⟩ : ∃ f, fuel = f + 1 := ⟨fuel - 1, by omega⟩
    exact ⟨[], by simp [Trie.proveNodes, hfits.2 rfl], fun _ hc => absurd hc List.not_mem_nil⟩
  | short k c f mc sc hc hk ih =>
    intro fuel key hfuel hterm hfits
    obtain ⟨fuel, rfl⟩ : ∃ f, fuel = f + 1 := ⟨fuel - 1, by omega⟩
    have hkey : key ≠ [] := fun he => by simpa using hfits.1 he
    have hself : (∃ mc' sc', Denotes db (.shortNode k c f) mc' sc' ∧ (sc' = .short ∨ sc' = .full)) ∧
        Fresh (.shortNode k c f) ∧ ∀ b ∈ (node.shortNode k c f).blobs keccak, b ∈ (node.shortNode k c f).blobs keccak :=
      ⟨⟨_, _, .short k c f mc sc hc hk, .inl rfl⟩, hf, fun _ hb => hb⟩
    rw [proveNodes_short t fuel k c f hkey]
    split_ifs with hmiss
    · -- the key leaves the short node: the path ends with it
      refine ⟨_, rfl, fun c' hc' => ?_⟩
      rw [List.mem_singleton.mp hc']
      exact hself
    · -- the key runs through it, on to the child
      obtain ⟨r, rfl⟩ : ∃ r, key = k ++ r := by
        simp only [not_or, not_lt, ne_eq, not_not] at hmiss
        refine ⟨key.drop k.length, ?_⟩
        nth_rewrite 1 [← List.take_append_drop k.length key]
        rw [← hmiss.2]
      rw [List.drop_left]
      have hk1 : 1 ≤ k.length := List.length_pos_of_ne_nil hk.2.1
      obtain ⟨nodes, hnodes, hmem⟩ := @ih hf.of_short.2 fuel r (by simp at hfuel; omega)
        (by simpa using hterm.drop k.length) (fits_child hterm hk)
      refine ⟨_, by rw [hnodes]; rfl, fun c' hc' => ?_⟩
      rcases List.mem_cons.mp hc' with rfl | hc'
      · exact hself
      · obtain ⟨hden, hfr, hb⟩ := hmem c' hc'
        refine ⟨hden, hfr, fun b hb' => ?_⟩
        rw [node.blobs]
        exact List.mem_append_right _ (hb b hb')
  | full cs f ms ss hlen hc hss ih =>
    intro fuel key hfuel hterm hfits
    obtain ⟨fuel, rfl⟩ : ∃ f, fuel = f + 1 := ⟨fuel - 1, by omega⟩
    -- a full node is never reached with the key used up
    obtain ⟨x, rest, rfl⟩ : ∃ x rest, key = x :: rest := by
      cases key with
      | nil => simpa using hfits.1 rfl
      | cons x rest => exact ⟨x, rest, rfl⟩
    obtain ⟨hx17, hfit⟩ := fits_slot hterm hss
    rw [proveNodes_full t fuel cs f rest (by omega)]
    obtain ⟨nodes, hnodes, hmem⟩ := @ih ⟨x.toNat, hx17⟩ (Fresh.getD hf.of_full.2 x.toNat) fuel rest
      (by simp at hfuel; omega) (by simpa using hterm.drop 1) hfit
    refine ⟨_, by rw [hnodes]; rfl, fun c' hc' => ?_⟩
    rcases List.mem_cons.mp hc' with rfl | hc'
    · exact ⟨⟨_, _, .full cs f ms ss hlen hc hss, .inr rfl⟩, hf, fun _ hb => hb⟩
    · obtain ⟨hden, hfr, hb⟩ := hmem c' hc'
      refine ⟨hden, hfr, fun b hb' => ?_⟩
      rw [node.blobs]
      exact List.mem_append_right _ (blobs_getD keccak x.toNat b (hb b hb'))
  | hash => cases hf

theorem putProof_cons {c collapsed cached : node} {db' : Option Database}
    (hch : (hasher.mk 0 0).hashChildren keccak c none = some (collapsed, cached, db')) (hc : Collapsed collapsed)
    (nodes : List node) (i : ℕ) (P : Bytes → Option Bytes) :
    putProof keccak (c :: nodes) i 0 P = putProof keccak nodes (i + 1) 0
      (if 32 ≤ (encodeNode collapsed).length ∨ i = 0 then
        Function.update P (keccak (encodeNode collapsed)) (some (encodeNode collapsed))
      else P) := by
  simp only [Trie.putProof, hch, hc.store, Bool.not_false, and_true]
  by_cases hemb : (encodeNode collapsed).length < 32
  · -- embedded: the collapsed node is no hash, written only as the root
    have h32 : ¬ 32 ≤ (encodeNode collapsed).length := by omega
    cases collapsed <;> first | exact hc.elim | (by_cases hi : i = 0 <;> simp [hemb, h32, hi])
  · simp [hemb, show 32 ≤ (encodeNode collapsed).length by omega]

section Put

variable {L : List Bytes} (hd : Distinct keccak L)
include hd

/-- `putProof` over nodes collapsed to encodings of `L`, from a table of encodings of `L` under
their hashes: it keeps the table so and loses no entry, and writes every node that is not embedded
in its parent, and the root, under its hash. -/
theorem putProof_writes : ∀ (nodes : List node) (i : ℕ) {P₀ : Bytes → Option Bytes}, Addressed keccak L P₀ →
    (∀ c ∈ nodes, ∃ collapsed cached, (hasher.mk 0 0).hashChildren keccak c none = some (collapsed, cached, none) ∧
      Collapsed collapsed ∧ encodeNode collapsed ∈ L) →
    ∃ P, putProof keccak nodes i 0 P₀ = some P ∧ Addressed keccak L P ∧ Grows P₀ P ∧
      (∀ c ∈ nodes, ∀ collapsed cached, (hasher.mk 0 0).hashChildren keccak c none = some (collapsed, cached, none) →
        32 ≤ (encodeNode collapsed).length → P (keccak (encodeNode collapsed)) = some (encodeNode collapsed)) ∧
      (i = 0 → ∀ c rest, nodes = c :: rest → ∀ collapsed cached,
        (hasher.mk 0 0).hashChildren keccak c none = some (collapsed, cached, none) →
          P (keccak (encodeNode collapsed)) = some (encodeNode collapsed))
  | [], i, P₀, hP, _ => ⟨P₀, rfl, hP, .refl P₀, fun _ hc => absurd hc List.not_mem_nil, fun _ _ _ he => by cases he⟩
  | c :: nodes, i, P₀, hP, hn => by
    obtain ⟨collapsed, cached, hch, hc, hmem⟩ := hn c List.mem_cons_self
    rw [putProof_cons hch hc]
    -- the table after the first node: written, or left
    obtain ⟨hP₁, hgrow₁, hwrite₁⟩ : ∃ _ : Addressed keccak L (if 32 ≤ (encodeNode collapsed).length ∨ i = 0 then
          Function.update P₀ (keccak (encodeNode collapsed)) (some (encodeNode collapsed)) else P₀),
        Grows P₀ (if 32 ≤ (encodeNode collapsed).length ∨ i = 0 then
          Function.update P₀ (keccak (encodeNode collapsed)) (some (encodeNode collapsed)) else P₀) ∧
        (32 ≤ (encodeNode collapsed).length ∨ i = 0 → (if 32 ≤ (encodeNode collapsed).length ∨ i = 0 then
          Function.update P₀ (keccak (encodeNode collapsed)) (some (encodeNode collapsed)) else P₀)
            (keccak (encodeNode collapsed)) = some (encodeNode collapsed)) := by
      split_ifs with hw
      · exact ⟨hP.update hmem, hP.grows_update hd hmem, fun _ => Function.update_self _ _ _⟩
      · exact ⟨hP, .refl P₀, fun h => absurd h hw⟩
    obtain ⟨P, hput, hP', hgrow, hwrites, -⟩ :=
      putProof_writes nodes (i + 1) hP₁ (fun c' hc' => hn c' (List.mem_cons_of_mem _ hc'))
    refine ⟨P, hput, hP', hgrow₁.trans hgrow, fun c' hc' collapsed' cached' hch' hlen => ?_,
      fun hi c' rest he collapsed' cached' hch' => ?_⟩
    · rcases List.mem_cons.mp hc' with rfl | hc'
      · rw [hch, Option.some.injEq, Prod.mk.injEq] at hch'
        rw [← hch'.1]
        exact hgrow _ _ (hwrite₁ (.inl (hch'.1 ▸ hlen)))
      · exact hwrites c' hc' collapsed' cached' hch' hlen
    · obtain ⟨rfl, rfl⟩ := List.cons.inj he
      rw [hch, Option.some.injEq, Prod.mk.injEq] at hch'
      rw [← hch'.1]
      exact hgrow _ _ (hwrite₁ (.inr hi))

end Put

end Trie

/-! ## The loop of `VerifyProof` -/

variable (keccak) in
/-- The table `P` holds the collapsed encoding of the node `c` under `h`. -/
def HoldsAt (P : Bytes → Option Bytes) (h : Bytes) (c : node) : Prop :=
  ∀ collapsed cached, (hasher.mk 0 0).hashChildren keccak c none = some (collapsed, cached, none) →
    P h = some (encodeNode collapsed)

variable (keccak) in
/-- The table `P` holds every node below `root` on the path of `rootKey` that its parent holds by
hash, under that hash. -/
def Covers (db : Database) (P : Bytes → Option Bytes) (root : node) (rootKey : Bytes) : Prop :=
  ∀ c r h mc sc, Below (root, rootKey) (c, r) → HashesTo keccak false c h → Denotes db c mc sc → Fresh c →
    (sc = .short ∨ sc = .full) → Fits sc r → HoldsAt keccak P h c

section Verify

variable {L : List Bytes} (hL : Safe keccak L) {db : Database} {P : Bytes → Option Bytes}

include hL in
/-- One round of the loop of `VerifyProof` at a node of a trie in memory whose collapsed encoding
the table holds under `h`: it returns what the node stands for at the key, or goes on to the hash
of the next node down the path that is stored apart, with the rest of the key. -/
theorem verifyLoop_round {c : node} {key h : Bytes} {mc : Bytes → Option Bytes} {sc : Shape}
    (hden : Denotes db c mc sc) (hf : Fresh c) (hs : sc = .short ∨ sc = .full) (hb : ∀ b ∈ c.blobs keccak, b ∈ L)
    (hterm : Term key) (hfits : Fits sc key) (hP : HoldsAt keccak P h c) (fuel i : ℕ) :
    (∃ j, verifyLoop P (fuel + 1) i h key = some (some (.ok (mc key), j))) ∨
      ∃ keyrest h', Found keccak db c mc key (keyrest, .hashNode h') ∧
        verifyLoop P (fuel + 1) i h key = verifyLoop P fuel (i + 1) h' keyrest := by
  obtain ⟨collapsed, cached, hch, -, hviews⟩ := hden.views hL hf hs hb
  obtain ⟨d, hdec, hvd⟩ := hviews (some h) [] 0
  rw [List.append_nil] at hdec
  have hdh : ∀ hh, d ≠ .hashNode hh := by
    rintro hh rfl
    rcases decodeNode_ok hdec with ⟨_, _, _, he⟩ | ⟨_, _, he⟩ <;> cases he
  obtain ⟨⟨keyrest, x⟩, hget, hfound⟩ := get_views hden hf hvd hdh hterm hfits
  simp only [verifyLoop, hP collapsed cached hch, hdec, hget]
  cases x with
  | nil => exact .inl ⟨i, by rw [show mc key = none from hfound]⟩
  | valueNode v => exact .inl ⟨i + 1, by rw [show mc key = some v from hfound]⟩
  | hashNode h' => exact .inr ⟨keyrest, h', hfound, rfl⟩
  | shortNode => exact hfound.elim
  | fullNode => exact hfound.elim

variable {root : node} {rootKey : Bytes}

include hL in
/-- The loop of `VerifyProof` from a node on the path of `rootKey` below `root`, looked up under
`h`, in a table that holds, under its hash, every node below `root` on the path that its parent
holds by hash: it returns what the node stands for at the rest of the key. -/
theorem verifyLoop_complete (hcov : Covers keccak db P root rootKey) :
    ∀ (fuel i : ℕ) {c : node} {key h : Bytes} {mc : Bytes → Option Bytes} {sc : Shape},
      (c, key) = (root, rootKey) ∨ Below (root, rootKey) (c, key) → Denotes db c mc sc → Fresh c →
      (sc = .short ∨ sc = .full) → (∀ b ∈ c.blobs keccak, b ∈ L) → Term key → Fits sc key → key.length < fuel →
      HoldsAt keccak P h c → ∃ j, verifyLoop P fuel i h key = some (some (.ok (mc key), j))
  | 0, _, _, _, _, _, _, _, _, _, _, _, _, _, hfuel, _ => absurd hfuel (Nat.not_lt_zero _)
  | fuel + 1, i, c, key, h, mc, sc, hon, hden, hf, hs, hb, hterm, hfits, hfuel, hP => by
    rcases verifyLoop_round hL hden hf hs hb hterm hfits hP fuel i with hdone | ⟨keyrest, h', hfound, hnext⟩
    · exact hdone
    obtain ⟨c', mc', sc', hbelow, hhash, hden', hf', hs', hm, hterm', hfits'⟩ := hfound
    have hon' : Below (root, rootKey) (c', keyrest) := by
      rcases hon with he | hb'
      · rw [he] at hbelow
        exact hbelow
      · exact hb'.trans hbelow
    rw [hnext, hm]
    exact verifyLoop_complete hcov fuel (i + 1) (.inr hon') hden' hf' hs'
      (fun b hb' => hb b (hbelow.blobs b hb')) hterm' hfits' (by have := hbelow.length_lt; simp at this; omega)
      (hcov c' keyrest h' mc' sc' hon' hhash hden' hf' hs' hfits')

include hL in
/-- The loop of `VerifyProof` from a node of a trie in memory looked up under the hash of its
collapsed encoding, given fuel for the key, in any table of encodings of `L'` under their hashes,
where `L'` holds the trie's encodings and the hash tells its members apart: it returns what the
node stands for at the key, or reports a node missing. It never returns another value, an error
of decoding, or a panic. -/
theorem verifyLoop_sound {L' : List Bytes} (hsub : ∀ b ∈ L, b ∈ L') (hd : Distinct keccak L')
    (hPL : Addressed keccak L' P) :
    ∀ (fuel i : ℕ) {c : node} {key h : Bytes} {mc : Bytes → Option Bytes} {sc : Shape},
      Denotes db c mc sc → Fresh c → (sc = .short ∨ sc = .full) → (∀ b ∈ c.blobs keccak, b ∈ L) → Term key →
      Fits sc key → key.length < fuel →
      (∀ collapsed cached, (hasher.mk 0 0).hashChildren keccak c none = some (collapsed, cached, none) →
        h = keccak (encodeNode collapsed)) →
      ∃ j, verifyLoop P fuel i h key = some (some (.ok (mc key), j)) ∨
        ∃ h', verifyLoop P fuel i h key = some (some (.error (.proofNodeMissing j h'), j))
  | 0, _, _, _, _, _, _, _, _, _, _, _, _, hfuel, _ => absurd hfuel (Nat.not_lt_zero _)
  | fuel + 1, i, c, key, h, mc, sc, hden, hf, hs, hb, hterm, hfits, hfuel, hh => by
    cases hPh : P h with
    | none => exact ⟨i, .inr ⟨h, by simp [verifyLoop, hPh]⟩⟩
    | some blob =>
      obtain ⟨collapsed, cached, hch, hc, -⟩ := hden.views hL hf hs hb
      -- a blob under the hash of the node's encoding is that encoding
      have hblob : blob = encodeNode collapsed := by
        rw [hh collapsed cached hch] at hPh
        exact hPL.eq_of_key hd (hsub _ (hb _ (mem_blobs hch hc))) hPh
      have hP : HoldsAt keccak P h c := by
        intro col cac hch'
        rw [hch, Option.some.injEq, Prod.mk.injEq] at hch'
        rw [hPh, hblob, hch'.1]
      rcases verifyLoop_round hL hden hf hs hb hterm hfits hP fuel i with ⟨j, hdone⟩ | ⟨keyrest, h', hfound, hnext⟩
      · exact ⟨j, .inl hdone⟩
      -- on to the next node of the path, looked up under its hash
      obtain ⟨c', mc', sc', hbelow, hhash, hden', hf', hs', hm, hterm', hfits'⟩ := hfound
      rw [hnext, hm]
      exact verifyLoop_sound hsub hd hPL fuel (i + 1) hden' hf' hs' (fun b hb' => hb b (hbelow.blobs b hb')) hterm'
        hfits' (by have := hbelow.length_lt; simp at this; omega) fun col cac hch' =>
          (hhash.collapsed hf' hch' (Collapsed.of_hashChildren hf' hhash.isNil (hden'.isValue_eq_false hs') hch')).2

end Verify

/-! ## Prove, then VerifyProof -/

theorem Trie.Hash_of_collapsed {t : Trie} (hf : Fresh t.root) (hn : t.root.isNil = false) {collapsed cached : node}
    (hch : (hasher.mk 0 0).hashChildren keccak t.root none = some (collapsed, cached, none)) (hc : Collapsed collapsed) :
    ∃ t', t.Hash keccak = some (keccak (encodeNode collapsed), t') := by
  have h₀ : (hasher.mk 0 0).hash keccak t.root none true =
      some (hasher.finish keccak collapsed cached none none true) := by
    rw [hash_of_fresh _ hf hn, hch, Option.bind_some]
  have hstored : (hasher.finish keccak collapsed cached none none true).1 = .hashNode (keccak (encodeNode collapsed)) := by
    rw [finish_fst, hc.store]
    simp
  have hrel := hash_similar keccak ⟨0, 0⟩ ⟨t.cachegen, t.cachelimit⟩ (Fresh.cached hf false : Cached keccak false _).refl
    hf hf true
  rw [h₀] at hrel
  obtain ⟨⟨x, cached', db'⟩, hr, hsim, -, -⟩ := rel_some_left hrel
  rw [hstored] at hsim
  dsimp only at hsim
  rw [hsim.hashNode_left] at hr
  exact ⟨{ t with root := cached' }, by simp only [Trie.Hash, Trie.hashRoot_of_ne_nil keccak hn, hr]⟩

theorem Tracks.root_shape {A : Bytes → Option Bytes} {t : Trie} (h : Tracks A t) (hne : t.root ≠ .nil) :
    ∃ s, Denotes t.db t.root (hexMap A) s ∧ (s = .short ∨ s = .full) ∧ s ≠ .value ∧ Fresh t.root ∧
      t.root.isNil = false := by
  obtain ⟨s, hden, hsv, hf⟩ := h
  have hse : s ≠ .empty := fun he => hne (hden.empty_iff.mp he)
  refine ⟨s, hden, by cases s <;> simp_all, hsv, hf, ?_⟩
  cases hr : t.root <;> simp_all [node.isNil]

/-- `Prove` of a key of a trie in memory that is not empty, into a proof database that holds
encodings of the trie under their hashes, succeeds and keeps the database so; it then holds the
root and every node on the key's path that its parent holds by hash. -/
theorem Trie.Prove_covers {A : Bytes → Option Bytes} {t : Trie} (h : Tracks A t) (hne : t.root ≠ .nil)
    (hsafe : Safe keccak (t.root.blobs keccak)) {proofDb : Bytes → Option Bytes}
    (hP : Addressed keccak (t.root.blobs keccak) proofDb) (key : Bytes) {fuel : ℕ}
    (hfuel : (keybytesToHex key).length < fuel) :
    ∃ P, t.Prove keccak fuel key 0 proofDb = some (.ok P) ∧ Addressed keccak (t.root.blobs keccak) P ∧
      Covers keccak t.db P t.root (keybytesToHex key) ∧
      ∀ collapsed cached, (hasher.mk 0 0).hashChildren keccak t.root none = some (collapsed, cached, none) →
        P (keccak (encodeNode collapsed)) = some (encodeNode collapsed) := by
  obtain ⟨s, hden, hs, hsv, hf, hn⟩ := h.root_shape hne
  obtain ⟨nodes, hnodes, hmem⟩ := t.proveNodes_spec hden hf hfuel (keybytesToHex_term key) (fits_keybytesToHex hsv key)
  obtain ⟨P, hput, hP', -, hwrites, hroot⟩ := Trie.putProof_writes hsafe.distinct nodes 0 hP fun c hc' => by
    obtain ⟨⟨mc, sc, hdc, hsc⟩, hfc, hbc⟩ := hmem c hc'
    obtain ⟨col, cac, hchc, hcc, -⟩ := hdc.views hsafe hfc hsc hbc
    exact ⟨col, cac, hchc, hcc, hbc _ (mem_blobs hchc hcc)⟩
  refine ⟨P, by simp [Trie.Prove, hnodes, hput], hP', ?_, ?_⟩
  · intro c r h mc sc hb hh hdc hfc hsc hfr col cac hchc
    have hr : r ≠ [] := fun he => by rcases hfr.1 he with he' | he' <;> rcases hsc with hs' | hs' <;> simp_all
    have hcn := t.mem_proveNodes_of_below hb hfc hh.isNil (hdc.isValue_eq_false hsc) hr hnodes
    obtain ⟨h32, rfl⟩ := hh.collapsed hfc hchc (Collapsed.of_hashChildren hfc hh.isNil (hdc.isValue_eq_false hsc) hchc)
    exact hwrites c hcn col cac hchc h32
  · obtain ⟨rest, hrest⟩ := t.proveNodes_head hf hn (hden.isValue_eq_false hs) (keybytesToHex_ne_nil key) hnodes
    exact hroot rfl t.root rest hrest

/-- The Merkle proof of any key of a trie in memory that is not empty verifies against the root
hash of the trie, with the value the trie holds at the key, as long as the encodings of its
collapsed nodes can be told apart by their hashes. The proof may go into a proof database that
already holds proofs of the trie, and leaves it holding only such proofs. -/
theorem Prove_VerifyProof {A : Bytes → Option Bytes} {t : Trie} (h : Tracks A t) (hne : t.root ≠ .nil)
    (hsafe : Safe keccak (t.root.blobs keccak)) {proofDb : Bytes → Option Bytes}
    (hP : Addressed keccak (t.root.blobs keccak) proofDb) (key : Bytes) {fuel : ℕ}
    (hfuel : (keybytesToHex key).length < fuel) :
    ∃ root t' proofDb', t.Hash keccak = some (root, t') ∧ t.Prove keccak fuel key 0 proofDb = some (.ok proofDb') ∧
      Addressed keccak (t.root.blobs keccak) proofDb' ∧
      ∃ i, VerifyProof fuel root key proofDb' = some (some (.ok (A key), i)) := by
  obtain ⟨s, hden, hs, hsv, hf, hn⟩ := h.root_shape hne
  obtain ⟨collapsed, cached, hch, hc, -⟩ := hden.views hsafe hf hs fun b hb => hb
  obtain ⟨t', hhash⟩ := Trie.Hash_of_collapsed hf hn hch hc
  obtain ⟨P, hprove, hP', hcov, hroot⟩ := t.Prove_covers h hne hsafe hP key hfuel
  obtain ⟨j, hj⟩ := verifyLoop_complete hsafe hcov fuel 0 (.inl rfl) hden hf hs (fun b hb => hb)
    (keybytesToHex_term key) (fits_keybytesToHex hsv key) hfuel fun col cac hchc => by
      rw [hch, Option.some.injEq, Prod.mk.injEq] at hchc
      rw [← hchc.1]
      exact hroot collapsed cached hch
  refine ⟨_, t', P, hhash, hprove, hP', j, ?_⟩
  rw [VerifyProof, hj, hexMap_keybytesToHex]

theorem Prove_VerifyProof_hashed_leaf :
    ∃ t root t' proofDb, ({ db := Database.New fun _ => none, root := .nil, cachegen := 0, cachelimit := 0 } : Trie).run
        (fun b => (b.reverse ++ List.replicate 32 1).take 32) 20
        [.TryUpdate [1] (List.replicate 40 9), .TryUpdate [0x13] [4]] = some t ∧
      t.Hash (fun b => (b.reverse ++ List.replicate 32 1).take 32) = some (root, t') ∧
      t.Prove (fun b => (b.reverse ++ List.replicate 32 1).take 32) 20 [1] 0 (fun _ => none) = some (.ok proofDb) ∧
      ∃ i, VerifyProof 20 root [1] proofDb =
        some (some (.ok (written [.TryUpdate [1] (List.replicate 40 9), .TryUpdate [0x13] [4]] [1]), i)) := by
  have hf : ∀ op ∈ [Op.TryUpdate [1] (List.replicate 40 9), .TryUpdate [0x13] [4]], op.Walk 20 := by decide
  obtain ⟨t, hrun, ht⟩ := (tracks_new (Database.New fun _ => none)).run
    (fun b => (b.reverse ++ List.replicate 32 1).take 32) hf
  have hall : (({ db := Database.New fun _ => none, root := .nil, cachegen := 0, cachelimit := 0 } : Trie).run
      (fun b => (b.reverse ++ List.replicate 32 1).take 32) 20
      [.TryUpdate [1] (List.replicate 40 9), .TryUpdate [0x13] [4]]).all (fun t =>
        decide (Safe (fun b => (b.reverse ++ List.replicate 32 1).take 32)
          (t.root.blobs fun b => (b.reverse ++ List.replicate 32 1).take 32)) && !t.root.isNil) = true := by decide
  rw [hrun] at hall
  simp only [Option.all_some, Bool.and_eq_true, decide_eq_true_eq, Bool.not_eq_true'] at hall
  obtain ⟨root, t', proofDb, hhash, hprove, -, hverify⟩ :=
    Prove_VerifyProof ht (fun he => by simp [he, node.isNil] at hall) hall.1 Addressed.empty [1]
      (show (keybytesToHex [1]).length < 20 by decide)
  exact ⟨t, root, t', proofDb, hrun, hhash, hprove, hverify⟩

/-- `VerifyProof` against the root hash of a trie in memory that is not empty, given fuel for the
key, over any proof database that holds encodings under their hashes, where the hash tells these
apart from each other and from the trie's: it returns the value the trie holds at the key, or
reports a proof node missing. A database keyed by hash cannot make it accept another value, fail
to decode a node, or panic. -/
theorem VerifyProof_sound {A : Bytes → Option Bytes} {t : Trie} (h : Tracks A t) (hne : t.root ≠ .nil)
    (hsafe : Safe keccak (t.root.blobs keccak)) {L : List Bytes} (hsub : ∀ b ∈ t.root.blobs keccak, b ∈ L)
    (hd : Distinct keccak L) {proofDb : Bytes → Option Bytes} (hP : Addressed keccak L proofDb) {root : Bytes}
    {t' : Trie} (hhash : t.Hash keccak = some (root, t')) (key : Bytes) {fuel : ℕ}
    (hfuel : (keybytesToHex key).length < fuel) :
    ∃ i, VerifyProof fuel root key proofDb = some (some (.ok (A key), i)) ∨
      ∃ h, VerifyProof fuel root key proofDb = some (some (.error (.proofNodeMissing i h), i)) := by
  obtain ⟨s, hden, hs, hsv, hf, hn⟩ := h.root_shape hne
  obtain ⟨collapsed, cached, hch, hc, -⟩ := hden.views hsafe hf hs fun b hb => hb
  obtain ⟨t'', hhash'⟩ := Trie.Hash_of_collapsed hf hn hch hc
  obtain ⟨rfl, -⟩ := Prod.mk.inj (Option.some.inj (hhash.symm.trans hhash'))
  obtain ⟨i, hi⟩ := verifyLoop_sound hsafe hsub hd hP fuel 0 hden hf hs (fun b hb => hb) (keybytesToHex_term key)
    (fits_keybytesToHex hsv key) hfuel (h := keccak (encodeNode collapsed)) fun col cac hch' => by
      rw [hch, Option.some.injEq, Prod.mk.injEq] at hch'
      rw [hch'.1]
  rw [hexMap_keybytesToHex] at hi
  exact ⟨i, hi⟩

/-- Key 1 of the two-key trie verified against the proof that `Prove` wrote for key 0x13: the
walk reads the shared root from that proof and then needs the leaf of key 1, stored apart. -/
theorem VerifyProof_sound_other_proof :
    ∃ t root t' proofDb, ({ db := Database.New fun _ => none, root := .nil, cachegen := 0, cachelimit := 0 } : Trie).run
        (fun b => (b.reverse ++ List.replicate 32 1).take 32) 20
        [.TryUpdate [1] (List.replicate 40 9), .TryUpdate [0x13] [4]] = some t ∧
      t.Hash (fun b => (b.reverse ++ List.replicate 32 1).take 32) = some (root, t') ∧
      t.Prove (fun b => (b.reverse ++ List.replicate 32 1).take 32) 20 [0x13] 0 (fun _ => none) = some (.ok proofDb) ∧
      ∃ i, VerifyProof 20 root [1] proofDb =
          some (some (.ok (written [.TryUpdate [1] (List.replicate 40 9), .TryUpdate [0x13] [4]] [1]), i)) ∨
        ∃ h, VerifyProof 20 root [1] proofDb = some (some (.error (.proofNodeMissing i h), i)) := by
  have hf : ∀ op ∈ [Op.TryUpdate [1] (List.replicate 40 9), .TryUpdate [0x13] [4]], op.Walk 20 := by decide
  obtain ⟨t, hrun, ht⟩ := (tracks_new (Database.New fun _ => none)).run
    (fun b => (b.reverse ++ List.replicate 32 1).take 32) hf
  have hall : (({ db := Database.New fun _ => none, root := .nil, cachegen := 0, cachelimit := 0 } : Trie).run
      (fun b => (b.reverse ++ List.replicate 32 1).take 32) 20
      [.TryUpdate [1] (List.replicate 40 9), .TryUpdate [0x13] [4]]).all (fun t =>
        decide (Safe (fun b => (b.reverse ++ List.replicate 32 1).take 32)
          (t.root.blobs fun b => (b.reverse ++ List.replicate 32 1).take 32)) && !t.root.isNil &&
        (t.Hash fun b => (b.reverse ++ List.replicate 32 1).take 32).isSome) = true := by decide
  rw [hrun] at hall
  simp only [Option.all_some, Bool.and_eq_true, decide_eq_true_eq, Bool.not_eq_true'] at hall
  obtain ⟨⟨hsafe, hne⟩, hsome⟩ := hall
  have hne' : t.root ≠ .nil := fun he => by simp [he, node.isNil] at hne
  obtain ⟨⟨root, t'⟩, hhash⟩ := Option.isSome_iff_exists.mp hsome
  obtain ⟨proofDb, hprove, hP, -⟩ := t.Prove_covers ht hne' hsafe Addressed.empty [0x13]
    (show (keybytesToHex [0x13]).length < 20 by decide)
  exact ⟨t, root, t', proofDb, hrun, hhash, hprove, VerifyProof_sound ht hne' hsafe (fun b hb => hb) hsafe.distinct hP
    hhash [1] (show (keybytesToHex [1]).length < 20 by decide)⟩

end EthereumAI.Trie
