import EthereumAI.Trie.Canonical
import EthereumAI.Trie.Insert
import EthereumAI.Trie.Delete
import EthereumAI.Trie.Lookup
import EthereumAI.Trie.CacheGen

/-! # Runs of writes on a trie in memory

A client writes to a trie with `TryUpdate` and `TryDelete`, an update with an empty value
being a delete. From the empty trie of `New`, every run of writes keeps the trie canonical
(`Denotes`) and in memory (`Fresh`), standing for the map the writes leave over the HEX keys
of their byte keys (`Tracks`). So `TryGet` after a run returns the last value written at a key,
and two runs that leave the same map have the same root hash, whatever their order.
-/

-- the package and its main type share the name
set_option linter.dupNamespace false

namespace EthereumAI.Trie

open EthereumAI.Lib

/-! ## Tries in memory stay in memory -/

section Children

variable {P : node → Prop}

theorem forall_mem_set {cs : List node} (h : ∀ c ∈ cs, P c) {c : node} (hc : P c) (i : ℕ) :
    ∀ c' ∈ cs.set i c, P c' := by
  intro c' hc'
  rcases List.mem_or_eq_of_mem_set hc' with h' | rfl
  · exact h c' h'
  · exact hc

theorem forall_mem_setChild {cs cs' : List node} {i : UInt8} {c : node} (h : setChild cs i c = some cs')
    (hcs : ∀ c ∈ cs, P c) (hc : P c) : ∀ c' ∈ cs', P c' := by
  unfold setChild at h
  split_ifs at h
  cases h
  exact forall_mem_set hcs hc _

theorem forall_mem_branch (hnil : P .nil) {i₁ i₂ : UInt8} {c₁ c₂ : node} {cs : List node}
    (h : ((setChild emptyChildren i₁ c₁).bind fun cs => setChild cs i₂ c₂) = some cs)
    (h₁ : P c₁) (h₂ : P c₂) : ∀ c ∈ cs, P c := by
  obtain ⟨cs₁, hcs₁, hcs⟩ := Option.bind_eq_some_iff.mp h
  have hempty : ∀ c ∈ emptyChildren, P c := by
    simp [emptyChildren, hnil]
  exact forall_mem_setChild hcs (forall_mem_setChild hcs₁ hempty h₁) h₂

end Children

theorem insert_fresh (t : Trie) :
    ∀ (fuel : ℕ) {n : node} {pfx key : Bytes} {value : node} {d : Bool} {n' : node},
      t.insert fuel n pfx key value = some (.ok (d, n')) → Fresh n → Fresh value → Fresh n'
  | 0, _, _, _, _, _, _, h, _, _ => by cases h
  | fuel + 1, n, pfx, key, value, d, n', h, hn, hv => by
    simp only [Trie.insert] at h
    split_ifs at h with hk
    · -- the key is used up: the value replaces the node
      split at h <;> simp only [Option.some.injEq, Except.ok.injEq, Prod.mk.injEq, reduceCtorEq] at h
      all_goals obtain ⟨-, rfl⟩ := h
      all_goals exact hv
    · cases hn with
      | nil =>
        simp only [Option.some.injEq, Except.ok.injEq, Prod.mk.injEq] at h
        obtain ⟨-, rfl⟩ := h
        exact .short _ _ _ rfl hv
      | value => cases h
      | short nk nv f hf hnv =>
        simp only at h
        split_ifs at h with hm h0
        · -- the whole key of the node matches: a short node over the insert below
          split at h
          · cases h
          · cases h
          · rename_i hrec
            split_ifs at h <;> simp only [Option.some.injEq, Except.ok.injEq, Prod.mk.injEq] at h <;>
              obtain ⟨-, rfl⟩ := h
            · exact .short _ _ _ hf hnv
            · exact .short _ _ _ rfl (insert_fresh t fuel hrec hnv hv)
        all_goals
          -- a full node over the old child and the new leaf, under a short node or not
          split at h
          · cases h
          · cases h
          rename_i hrec₁
          split at h
          · cases h
          · cases h
          rename_i hrec₂
          split at h
          · split at h
            · cases h
            · rename_i hch
              have hbranch := Fresh.full _ t.newFlag rfl
                (forall_mem_branch .nil hch (insert_fresh t fuel hrec₁ .nil hnv) (insert_fresh t fuel hrec₂ .nil hv))
              simp only [Option.some.injEq, Except.ok.injEq, Prod.mk.injEq] at h
              obtain ⟨-, rfl⟩ := h
              first
              | exact hbranch
              | exact .short _ _ _ rfl hbranch
          · cases h
      | full cs f hf hcs =>
        -- the slot of the first nibble holds the insert below
        simp only at h
        split at h
        · cases h
        rename_i k₀ _
        split at h
        · cases h
        rename_i c hc
        split at h
        · cases h
        · cases h
        rename_i hrec
        have hnn := insert_fresh t fuel hrec (hcs c (List.mem_of_getElem? hc)) hv
        split_ifs at h <;> simp only [Option.some.injEq, Except.ok.injEq, Prod.mk.injEq] at h <;>
          obtain ⟨-, rfl⟩ := h
        · exact .full _ _ hf hcs
        · exact .full _ _ rfl (forall_mem_set hcs hnn _)

theorem resolve_fresh (t : Trie) {n : node} (hn : Fresh n) (pfx : Bytes) : t.resolve n pfx = some (.ok n) := by
  cases hn <;> rfl

theorem delete_fresh (t : Trie) :
    ∀ (fuel : ℕ) {n : node} {pfx key : Bytes} {d : Bool} {n' : node},
      t.delete fuel n pfx key = some (.ok (d, n')) → Fresh n → Fresh n'
  | 0, _, _, _, _, _, h, _ => by cases h
  | fuel + 1, n, pfx, key, d, n', h, hn => by
    simp only [Trie.delete] at h
    cases hn with
    | nil =>
      simp only [Option.some.injEq, Except.ok.injEq, Prod.mk.injEq] at h
      obtain ⟨-, rfl⟩ := h
      exact .nil
    | value =>
      simp only [Option.some.injEq, Except.ok.injEq, Prod.mk.injEq] at h
      obtain ⟨-, rfl⟩ := h
      exact .nil
    | short nk nv f hf hnv =>
      simp only at h
      split_ifs at h with hm hl
      · simp only [Option.some.injEq, Except.ok.injEq, Prod.mk.injEq] at h
        obtain ⟨-, rfl⟩ := h
        exact .short _ _ _ hf hnv
      · simp only [Option.some.injEq, Except.ok.injEq, Prod.mk.injEq] at h
        obtain ⟨-, rfl⟩ := h
        exact .nil
      -- the delete below, merged into a short node
      split at h
      · cases h
      · cases h
      rename_i child hrec
      have hchild := delete_fresh t fuel hrec hnv
      split_ifs at h
      · simp only [Option.some.injEq, Except.ok.injEq, Prod.mk.injEq] at h
        obtain ⟨-, rfl⟩ := h
        exact .short _ _ _ hf hnv
      split at h <;> simp only [Option.some.injEq, Except.ok.injEq, Prod.mk.injEq] at h <;> obtain ⟨-, rfl⟩ := h
      · exact .short _ _ _ rfl hchild.of_short.2
      · exact .short _ _ _ rfl hchild
    | full cs f hf hcs =>
      simp only at h
      split at h
      · cases h
      rename_i k₀ _
      split at h
      · cases h
      rename_i c hc
      split at h
      · cases h
      · cases h
      rename_i nn hrec
      have hcs' := forall_mem_set hcs (delete_fresh t fuel hrec (hcs c (List.mem_of_getElem? hc))) k₀.toNat
      have honly := Fresh.getD hcs' (childPos (cs.set k₀.toNat nn) 0 (-1)).toNat
      split_ifs at h
      · simp only [Option.some.injEq, Except.ok.injEq, Prod.mk.injEq] at h
        obtain ⟨-, rfl⟩ := h
        exact .full _ _ hf hcs
      -- the child left alone, or the full node with the new child
      · rw [resolve_fresh t honly] at h
        split at h
        · cases h
        · cases h
        · rename_i heq
          simp only [Option.some.injEq, Except.ok.injEq, Prod.mk.injEq] at h heq
          obtain ⟨-, rfl⟩ := h
          rw [heq] at honly
          exact .short _ _ _ rfl honly.of_short.2
        · simp only [Option.some.injEq, Except.ok.injEq, Prod.mk.injEq] at h
          obtain ⟨-, rfl⟩ := h
          exact .short _ _ _ rfl honly
      · simp only [Option.some.injEq, Except.ok.injEq, Prod.mk.injEq] at h
        obtain ⟨-, rfl⟩ := h
        exact .short _ _ _ rfl honly
      · simp only [Option.some.injEq, Except.ok.injEq, Prod.mk.injEq] at h
        obtain ⟨-, rfl⟩ := h
        exact .full _ _ rfl hcs'

theorem tryGet_fresh (t : Trie) :
    ∀ (fuel : ℕ) {n : node} {key : Bytes} {pos : ℕ} {v : Option Bytes} {n' : node} {r : Bool},
      t.tryGet fuel n key pos = some (.ok (v, n', r)) → Fresh n → Fresh n'
  | 0, _, _, _, _, _, _, h, _ => by cases h
  | fuel + 1, n, key, pos, v, n', r, h, hn => by
    simp only [Trie.tryGet] at h
    cases hn with
    | nil =>
      simp only [Option.some.injEq, Except.ok.injEq, Prod.mk.injEq] at h
      obtain ⟨-, rfl, -⟩ := h
      exact .nil
    | value =>
      simp only [Option.some.injEq, Except.ok.injEq, Prod.mk.injEq] at h
      obtain ⟨-, rfl, -⟩ := h
      exact .value _
    | short k c f hf hc =>
      simp only at h
      split_ifs at h
      · simp only [Option.some.injEq, Except.ok.injEq, Prod.mk.injEq] at h
        obtain ⟨-, rfl, -⟩ := h
        exact .short _ _ _ hf hc
      -- a node resolved below keeps its flags but for the generation
      split at h
      · cases h
      · cases h
      rename_i hrec
      simp only [Option.some.injEq, Except.ok.injEq, Prod.mk.injEq] at h
      obtain ⟨-, rfl, -⟩ := h
      split_ifs
      · exact .short _ _ _ hf (tryGet_fresh t fuel hrec hc)
      · exact .short _ _ _ hf hc
    | full cs f hf hcs =>
      simp only at h
      split at h
      · cases h
      split at h
      · cases h
      rename_i c hc
      split at h
      · cases h
      · cases h
      rename_i hrec
      simp only [Option.some.injEq, Except.ok.injEq, Prod.mk.injEq] at h
      obtain ⟨-, rfl, -⟩ := h
      split_ifs
      · exact .full _ _ hf (forall_mem_set hcs (tryGet_fresh t fuel hrec (hcs c (List.mem_of_getElem? hc))) _)
      · exact .full _ _ hf hcs

theorem TryGet_fresh (t : Trie) {fuel : ℕ} {key : Bytes} {v : Option Bytes} {t' : Trie}
    (h : t.TryGet fuel key = some (.ok (v, t'))) (hr : Fresh t.root) : Fresh t'.root := by
  simp only [Trie.TryGet] at h
  split at h
  · cases h
  · cases h
  rename_i hget
  simp only [Option.some.injEq, Except.ok.injEq, Prod.mk.injEq] at h
  obtain ⟨-, rfl⟩ := h
  split_ifs
  · exact tryGet_fresh t fuel hget hr
  · exact hr

/-! ## The map over byte keys -/

/-- The map over HEX keys of a map over byte keys: only the HEX keys of byte keys have values. -/
def hexMap (A : Bytes → Option Bytes) (hk : Bytes) : Option Bytes :=
  match hexToKeybytes hk with
  | some k => if keybytesToHex k = hk then A k else none
  | none => none

@[simp] theorem hexMap_keybytesToHex (A : Bytes → Option Bytes) (k : Bytes) : hexMap A (keybytesToHex k) = A k := by
  simp [hexMap, hexToKeybytes_keybytesToHex]

theorem hexMap_empty : hexMap (fun _ => none) = PrefixMap.empty := by
  funext hk
  unfold hexMap
  split <;> simp [PrefixMap.empty]

theorem hexMap_update (A : Bytes → Option Bytes) (k : Bytes) (v : Option Bytes) :
    hexMap (Function.update A k v) = Function.update (hexMap A) (keybytesToHex k) v := by
  funext hk
  by_cases hhk : hk = keybytesToHex k
  · subst hhk
    simp
  · rw [Function.update_of_ne hhk]
    unfold hexMap
    split
    · rename_i k' _
      split_ifs with he
      · rw [Function.update_of_ne]
        rintro rfl
        exact hhk he.symm
      · rfl
    · rfl

theorem keybytesToHex_ne_nil (k : Bytes) : keybytesToHex k ≠ [] := by
  simp [keybytesToHex]

theorem fits_keybytesToHex {s : Shape} (hs : s ≠ .value) (k : Bytes) : Fits s (keybytesToHex k) :=
  ⟨fun he => absurd he (keybytesToHex_ne_nil k), fun hv => absurd hv hs⟩

/-! ## Operations that walk the trie -/

/-- What an operation does to the map over byte keys: an update with a value sets it, an update
with an empty value and a delete remove the key, and the others leave the map. -/
def Op.write (A : Bytes → Option Bytes) : Op → Bytes → Option Bytes
  | .TryUpdate key value => Function.update A key (if value.length ≠ 0 then some value else none)
  | .TryDelete key => Function.update A key none
  | .TryGet _ | .Hash | .Commit => A

/-- The map that operations leave from the empty map. -/
def written (ops : List Op) : Bytes → Option Bytes := ops.foldl Op.write fun _ => none

/-- An operation that walks the trie at a key, `TryUpdate`, `TryDelete` or `TryGet`, with fuel
for the walk. `Hash` and `Commit` cache hashes in the nodes, and are not of this kind. -/
def Op.Walk (fuel : ℕ) : Op → Prop
  | .TryUpdate key _ | .TryDelete key | .TryGet key => 2 * (keybytesToHex key).length + 2 ≤ fuel
  | .Hash | .Commit => False

instance (fuel : ℕ) : DecidablePred (Op.Walk fuel) := fun op => by
  cases op <;> unfold Op.Walk <;> infer_instance

/-! ## The invariant of a run -/

/-- The trie is in memory and canonical, and stands for `A` over the HEX keys of its keys. -/
def Tracks (A : Bytes → Option Bytes) (t : Trie) : Prop :=
  ∃ s, Denotes t.db t.root (hexMap A) s ∧ s ≠ .value ∧ Fresh t.root

theorem new_emptyRoot (db : Database) :
    New emptyRoot db = some (.ok { db := db, root := .nil, cachegen := 0, cachelimit := 0 }) := by
  simp [New]

theorem tracks_new (db : Database) :
    Tracks (fun _ => none) { db := db, root := .nil, cachegen := 0, cachelimit := 0 } :=
  ⟨.empty, hexMap_empty ▸ .nil, by decide, .nil⟩

theorem Denotes.insert_root {A : Bytes → Option Bytes} {t : Trie} {s : Shape} {fuel : ℕ}
    (hden : Denotes t.db t.root (hexMap A) s) (hs : s ≠ .value) {key value : Bytes} (hv : value ≠ [])
    (hf : 2 * (keybytesToHex key).length + 2 ≤ fuel) :
    ∃ d n' s', t.insert fuel t.root [] (keybytesToHex key) (.valueNode value) = some (.ok (d, n')) ∧
      Denotes t.db n' (hexMap (Function.update A key (some value))) s' ∧ s' ≠ .value := by
  obtain ⟨d, n', s', hins, hden', hgrown, -⟩ := insert_spec t hv hden (le_trans (fuelFor_le _ _) hf)
    (keybytesToHex_term key) (fits_keybytesToHex hs key)
  refine ⟨d, n', s', hins, by rwa [hexMap_update], ?_⟩
  rcases hgrown.2.1 (keybytesToHex_ne_nil key) with rfl | rfl <;> decide

theorem Denotes.delete_root {A : Bytes → Option Bytes} {t : Trie} {s : Shape} {fuel : ℕ}
    (hden : Denotes t.db t.root (hexMap A) s) (hs : s ≠ .value) {key : Bytes}
    (hf : 2 * (keybytesToHex key).length + 2 ≤ fuel) :
    ∃ d n' s', t.delete fuel t.root [] (keybytesToHex key) = some (.ok (d, n')) ∧
      Denotes t.db n' (hexMap (Function.update A key none)) s' ∧ s' ≠ .value := by
  obtain ⟨d, n', s', hdel, hden', hshrunk, -⟩ := delete_spec t hden (le_trans (fuelFor_le _ _) hf)
    (keybytesToHex_term key) (fits_keybytesToHex hs key)
  exact ⟨d, n', s', hdel, by rwa [hexMap_update], hshrunk.2.1 (keybytesToHex_ne_nil key)⟩

section Step

variable {A : Bytes → Option Bytes} {t : Trie} {fuel : ℕ} (h : Tracks A t)
include h

theorem Tracks.insert {key value : Bytes} (hv : value ≠ []) (hf : 2 * (keybytesToHex key).length + 2 ≤ fuel) :
    ∃ d n', t.insert fuel t.root [] (keybytesToHex key) (.valueNode value) = some (.ok (d, n')) ∧
      Tracks (Function.update A key (some value)) { t with root := n' } := by
  obtain ⟨s, hden, hs, hfr⟩ := h
  obtain ⟨d, n', s', hins, hden', hs'⟩ := hden.insert_root hs hv hf
  exact ⟨d, n', hins, s', hden', hs', insert_fresh t fuel hins hfr (.value value)⟩

theorem Tracks.delete {key : Bytes} (hf : 2 * (keybytesToHex key).length + 2 ≤ fuel) :
    ∃ d n', t.delete fuel t.root [] (keybytesToHex key) = some (.ok (d, n')) ∧
      Tracks (Function.update A key none) { t with root := n' } := by
  obtain ⟨s, hden, hs, hfr⟩ := h
  obtain ⟨d, n', s', hdel, hden', hs'⟩ := hden.delete_root hs hf
  exact ⟨d, n', hdel, s', hden', hs', delete_fresh t fuel hdel hfr⟩

theorem Tracks.get {key : Bytes} (hf : 2 * (keybytesToHex key).length + 2 ≤ fuel) :
    ∃ t', t.TryGet fuel key = some (.ok (A key, t')) ∧ Tracks A t' := by
  obtain ⟨s, hden, hs, hfr⟩ := h
  obtain ⟨n', hget, hden'⟩ := TryGet_spec t hden hs key hf
  rw [hexMap_keybytesToHex] at hget
  exact ⟨_, hget, s, hden', hs, TryGet_fresh t hget hfr⟩

variable (keccak : Bytes → Bytes)

theorem Tracks.apply {op : Op} (hf : op.Walk fuel) :
    ∃ t', t.apply keccak fuel op = some t' ∧ Tracks (op.write A) t' := by
  cases op with
  | TryUpdate key value =>
    by_cases hlen : value.length ≠ 0
    · obtain ⟨d, n', hins, ht'⟩ := h.insert (List.ne_nil_of_length_pos (Nat.pos_of_ne_zero hlen)) hf
      refine ⟨_, ?_, by simpa [Op.write, hlen] using ht'⟩
      simp [Trie.apply, Trie.TryUpdate, hlen, hins]
    · obtain ⟨d, n', hdel, ht'⟩ := h.delete hf
      refine ⟨_, ?_, by simpa [Op.write, hlen] using ht'⟩
      simp [Trie.apply, Trie.TryUpdate, hlen, hdel]
  | TryDelete key =>
    obtain ⟨d, n', hdel, ht'⟩ := h.delete hf
    exact ⟨_, by simp [Trie.apply, Trie.TryDelete, hdel], ht'⟩
  | TryGet key =>
    obtain ⟨t', hget, ht'⟩ := h.get hf
    exact ⟨t', by simp [Trie.apply, hget], ht'⟩
  | Hash | Commit => cases hf

theorem Tracks.run {ops : List Op} (hf : ∀ op ∈ ops, op.Walk fuel) :
    ∃ t', t.run keccak fuel ops = some t' ∧ Tracks (ops.foldl Op.write A) t' := by
  induction ops generalizing A t with
  | nil => exact ⟨t, rfl, h⟩
  | cons op ops ih =>
    obtain ⟨t₁, happly, h₁⟩ := h.apply keccak (hf op List.mem_cons_self)
    obtain ⟨t', hrun, h'⟩ := ih h₁ fun op hop => hf op (List.mem_cons_of_mem _ hop)
    exact ⟨t', by rw [Trie.run_cons, happly, Option.bind_some, hrun], h'⟩

end Step

/-! ## What a run leaves -/

/-- From the empty trie of `New`, every run of operations that walk the trie succeeds, and
`TryGet` then returns at every key the value its last write left there, and nothing where there
was none or it was deleted. -/
theorem run_TryGet_written (keccak : Bytes → Bytes) (db : Database) {ops : List Op} {fuel : ℕ}
    (hf : ∀ op ∈ ops, op.Walk fuel) :
    ∃ t₀ t, New emptyRoot db = some (.ok t₀) ∧ t₀.run keccak fuel ops = some t ∧
      ∀ key fuel', 2 * (keybytesToHex key).length + 2 ≤ fuel' →
        ∃ t', t.TryGet fuel' key = some (.ok (written ops key, t')) := by
  obtain ⟨t, hrun, ht⟩ := (tracks_new db).run keccak hf
  refine ⟨_, t, new_emptyRoot db, hrun, fun key fuel' hf' => ?_⟩
  obtain ⟨t', hget, -⟩ := ht.get hf'
  exact ⟨t', hget⟩

theorem run_TryGet_written_overwrite :
    ∃ t₀ t, New emptyRoot ⟨fun _ => none, fun _ => none⟩ = some (.ok t₀) ∧
      t₀.run id 20 [.TryUpdate [1] [2], .TryUpdate [0x13] [4], .TryGet [1], .TryUpdate [1] [5],
        .TryDelete [0x13]] = some t ∧
      ∀ key fuel', 2 * (keybytesToHex key).length + 2 ≤ fuel' →
        ∃ t', t.TryGet fuel' key = some (.ok (written [.TryUpdate [1] [2], .TryUpdate [0x13] [4], .TryGet [1],
          .TryUpdate [1] [5], .TryDelete [0x13]] key, t')) :=
  run_TryGet_written id _ (by decide)

/-- History independence: two runs of operations that walk the trie, from empty tries, that leave
the same map give the same root hash, whatever was written and deleted on the way, in whatever
order, over whatever databases. -/
theorem run_Hash_of_written (keccak : Bytes → Bytes) (db db' : Database) {ops ops' : List Op} {fuel fuel' : ℕ}
    (hf : ∀ op ∈ ops, op.Walk fuel) (hf' : ∀ op ∈ ops', op.Walk fuel') (hsame : written ops = written ops') :
    ∃ t₀ t₀' t t' root, New emptyRoot db = some (.ok t₀) ∧ New emptyRoot db' = some (.ok t₀') ∧
      t₀.run keccak fuel ops = some t ∧ t₀'.run keccak fuel' ops' = some t' ∧
      (t.Hash keccak).map Prod.fst = some root ∧ (t'.Hash keccak).map Prod.fst = some root := by
  obtain ⟨t, hrun, s, hden, -, hfr⟩ := (tracks_new db).run keccak hf
  obtain ⟨t', hrun', s', hden', -, hfr'⟩ := (tracks_new db').run keccak hf'
  obtain ⟨root, hroot⟩ := Trie.Hash_some keccak hden hfr
  have hsim := hden.similar hfr hden' hfr' (congrArg hexMap hsame).symm
  exact ⟨_, _, t, t', root, new_emptyRoot db, new_emptyRoot db', hrun, hrun', hroot,
    (Trie.Hash_similar keccak hsim hfr hfr').symm.trans hroot⟩

theorem run_Hash_of_written_reordered :
    ∃ t₀ t₀' t t' root, New emptyRoot ⟨fun _ => none, fun _ => none⟩ = some (.ok t₀) ∧
      New emptyRoot ⟨fun _ => none, fun _ => none⟩ = some (.ok t₀') ∧
      t₀.run id 20 [.TryUpdate [1] [2], .TryUpdate [0x13] [4]] = some t ∧
      t₀'.run id 20 [.TryUpdate [0x13] [4], .TryUpdate [0x15] [6], .TryUpdate [1] [2], .TryDelete [0x15]] = some t' ∧
      (t.Hash id).map Prod.fst = some root ∧ (t'.Hash id).map Prod.fst = some root :=
  run_Hash_of_written id _ _ (by decide) (by decide) (by
    funext k
    simp only [written, List.foldl, Op.write, Function.update_apply]
    split_ifs <;> simp_all)

end EthereumAI.Trie
