import EthereumAI.Trie.Lookup

/-! # Inserting a value (`Trie.insert`)

`insert` of a value at a key that fits the node updates what the node stands for
at that key and keeps the node canonical. Where the key parts from the key of a
short node, the short node is split: a full node below the common prefix holds
the rest of the old key over the old child and the rest of the new key over the
value.
-/

namespace EthereumAI.Trie

open EthereumAI.Lib

/-- The shape after an insert: a value where the key is used up, a short or full
node elsewhere; a full node stays full. -/
def Grown (s : Shape) (key : Bytes) (s' : Shape) : Prop :=
  (key = [] → s' = .value) ∧ (key ≠ [] → s' = .short ∨ s' = .full) ∧ (s = .full → s' = .full)

variable {db : Database}

/-! ## The nodes `insert` builds -/

theorem Denotes.leaf {w : node} {m : Bytes → Option Bytes} {s : Shape} (hw : Denotes db w m s)
    {r : Bytes} (hr : r ≠ [] → ShortOK r s) (f : nodeFlag) :
    Denotes db (if r = [] then w else .shortNode r w f) (PrefixMap.under r m)
      (if r = [] then s else .short) := by
  by_cases h : r = []
  · subst h
    simpa using hw
  · simpa [h] using Denotes.short r w f m s hw (hr h)

theorem SlotOK.of_empty (i : Fin 17) : SlotOK i .empty :=
  ⟨fun _ => by simp, fun _ => .inl rfl⟩

/-- The full node with two children that `insert` makes where two keys part. -/
theorem Denotes.branch {c₁ c₂ : node} {M₁ M₂ : Bytes → Option Bytes} {S₁ S₂ : Shape} {j₁ j₂ : Fin 17}
    (hj : j₁ ≠ j₂) (h₁ : Denotes db c₁ M₁ S₁) (h₂ : Denotes db c₂ M₂ S₂) (hs₁ : SlotOK j₁ S₁)
    (hs₂ : SlotOK j₂ S₂) (hne₁ : S₁ ≠ .empty) (hne₂ : S₂ ≠ .empty) (f : nodeFlag) :
    Denotes db (.fullNode ((emptyChildren.set j₁ c₁).set j₂ c₂) f)
      (fullMap (Function.update (Function.update (fun _ => PrefixMap.empty) j₁ M₁) j₂ M₂)) .full := by
  have hlen : emptyChildren.length = 17 := rfl
  have hslot : ∀ i, SlotOK i (Function.update (Function.update (fun _ => Shape.empty) j₁ S₁) j₂ S₂ i) := by
    intro i
    by_cases hi₂ : i = j₂
    · subst hi₂
      simpa using hs₂
    · rw [Function.update_of_ne hi₂]
      by_cases hi₁ : i = j₁
      · subst hi₁
        simpa using hs₁
      · rw [Function.update_of_ne hi₁]
        exact SlotOK.of_empty i
  refine .full _ f _ _ (by simp [hlen]) (fun i => ?_) ⟨hslot, j₁, j₂, hj, ?_, by simpa using hne₂⟩
  · by_cases hi₂ : i = j₂
    · subst hi₂
      rw [getD_set_self (by simp [hlen])]
      simpa using h₂
    · rw [getD_set_ne (fun h => hi₂ (Fin.ext h)), Function.update_of_ne hi₂, Function.update_of_ne hi₂]
      by_cases hi₁ : i = j₁
      · subst hi₁
        rw [getD_set_self (by simp [hlen])]
        simpa using h₁
      · rw [getD_set_ne (fun h => hi₁ (Fin.ext h)), Function.update_of_ne hi₁, Function.update_of_ne hi₁]
        have hnil : emptyChildren.getD i .nil = .nil := by
          simp only [emptyChildren, List.getD_eq_getElem?_getD, List.getElem?_replicate]
          split <;> rfl
        rw [hnil]
        exact .nil
  · rw [Function.update_of_ne hj, Function.update_self]
    exact hne₁

theorem setChild_of_lt {cs : List node} {i : UInt8} (h : i.toNat < cs.length) (c : node) :
    setChild cs i c = some (cs.set i.toNat c) := by
  simp [setChild, h]

theorem toUInt8_toNat (i : UInt8) : i.toNat.toUInt8 = i := by
  apply UInt8.toNat_inj.mp
  simp

theorem split_map {p r₁ r₂ : Bytes} {i₁ i₂ : UInt8} (h₁ : i₁.toNat < 17) (h₂ : i₂.toNat < 17)
    (hi : i₁ ≠ i₂) (m : Bytes → Option Bytes) (v : Bytes) :
    PrefixMap.under p (fullMap (Function.update (Function.update (fun _ => PrefixMap.empty)
        ⟨i₁.toNat, h₁⟩ (PrefixMap.under r₁ m)) ⟨i₂.toNat, h₂⟩ (PrefixMap.under r₂ (PrefixMap.single v)))) =
      Function.update (PrefixMap.under (p ++ i₁ :: r₁) m) (p ++ i₂ :: r₂) (some v) := by
  have hj : (⟨i₂.toNat, h₂⟩ : Fin 17) ≠ ⟨i₁.toNat, h₁⟩ :=
    fun h => hi (UInt8.toNat_inj.mp (Fin.mk.inj h)).symm
  have hsingle : PrefixMap.under [i₁] (PrefixMap.under r₁ m) =
      fullMap (Function.update (fun _ => PrefixMap.empty) ⟨i₁.toNat, h₁⟩ (PrefixMap.under r₁ m)) := by
    rw [fullMap_single]
    simp only [toUInt8_toNat]
  rw [show p ++ i₁ :: r₁ = p ++ ([i₁] ++ r₁) from rfl, PrefixMap.under_append,
    PrefixMap.under_append, PrefixMap.update_under, hsingle, fullMap_update _ h₂]
  simp only [Function.update_of_ne hj, PrefixMap.under_single]

/-- The old rest of a short node's key, cut after the nibble `i₁`, goes to the
slot `i₁` of the new full node. -/
theorem split_old {p r₁ : Bytes} {i₁ : UInt8} {sc : Shape} (hk : ShortOK (p ++ i₁ :: r₁) sc) :
    ∃ hx : i₁.toNat < 17, (r₁ ≠ [] → ShortOK r₁ sc) ∧
      SlotOK ⟨i₁.toNat, hx⟩ (if r₁ = [] then sc else .short) ∧
      (if r₁ = [] then sc else .short) ≠ .empty ∧ Nibbles p := by
  obtain ⟨hhex, -, hks⟩ := hk
  obtain ⟨hp, ⟨hlt, hr, ht⟩ | ⟨rfl, rfl⟩⟩ := HexKey.split hhex
  · have hx : i₁.toNat < 16 := by simpa using UInt8.lt_iff_toNat_lt.mp hlt
    rw [ht] at hks
    refine ⟨by omega, fun hne => ⟨hr, hne, hks⟩, ⟨fun _ => ?_, fun h => by simp at h; omega⟩, ?_, hp⟩
    · by_cases hr₁ : r₁ = []
      · subst hr₁
        have hsc : sc = .full := by simpa [hasTerm] using hks
        simp [hsc]
      · simp [hr₁]
    · by_cases hr₁ : r₁ = []
      · subst hr₁
        have hsc : sc = .full := by simpa [hasTerm] using hks
        simp [hsc]
      · simp [hr₁]
  · have ht : hasTerm (p ++ [16]) = true := hasTerm_append_term p
    simp only [ht, if_true] at hks
    subst hks
    exact ⟨by decide, fun h => absurd rfl h, ⟨fun h => by simp at h, fun _ => by simp⟩, by simp, hp⟩

theorem split_new {p r₂ : Bytes} {i₂ : UInt8} (h : Term (p ++ i₂ :: r₂)) :
    ∃ hx : i₂.toNat < 17, (r₂ ≠ [] → ShortOK r₂ .value) ∧
      SlotOK ⟨i₂.toNat, hx⟩ (if r₂ = [] then .value else .short) ∧
      (if r₂ = [] then Shape.value else .short) ≠ .empty := by
  obtain ⟨-, ⟨hlt, hr, hne⟩ | ⟨rfl, rfl⟩⟩ := Term.split h
  · have hx : i₂.toNat < 16 := by simpa using UInt8.lt_iff_toNat_lt.mp hlt
    refine ⟨by omega, fun _ => ⟨hr.hexKey, hne, by simp [hr.hasTerm_of_ne_nil hne]⟩, ?_, by simp [hne]⟩
    exact ⟨fun _ => by simp [hne], fun h => by simp at h; omega⟩
  · exact ⟨by decide, fun h => absurd rfl h, ⟨fun h => by simp at h, fun _ => by simp⟩, by simp⟩

theorem term_not_inside {p k' : Bytes} (hterm : Term p) (hp : p ≠ []) (hk : HexKey (p ++ k'))
    (hk' : k' ≠ []) : False := by
  obtain ⟨ns, -, rfl⟩ : ∃ ns, Nibbles ns ∧ p = ns ++ [16] := by
    rcases hterm with rfl | h
    · exact absurd rfl hp
    · exact h
  obtain ⟨y, r, rfl⟩ := List.exists_cons_of_ne_nil hk'
  have := (HexKey.split (p := ns) (x := 16) (r := y :: r) (by simpa using hk)).2
  rcases this with ⟨h16, -⟩ | ⟨-, h⟩
  · exact absurd h16 (by decide)
  · cases h

theorem prefix_of_prefixLen {a b : Bytes} (h : prefixLen a b = b.length) : ∃ r, a = b ++ r := by
  obtain ⟨p, a', b', rfl, rfl, hp, -⟩ := prefixLen_spec a b
  have hb : b' = [] := List.eq_nil_of_length_eq_zero (by simp at h; omega)
  subst hb
  exact ⟨a', by simp⟩

section Insert

variable (t : Trie) {v : Bytes} (hv : v ≠ [])

omit hv in
theorem insert_nil (fuel : ℕ) (pfx key : Bytes) (w : node) :
    t.insert (fuel + 1) .nil pfx key w =
      some (.ok (true, if key = [] then w else .shortNode key w t.newFlag)) := by
  cases key with
  | nil => rfl
  | cons x key => rfl

include hv in
/-- Inserting where the key parts from the key of a short node splits it. -/
theorem insert_split {k : Bytes} {c : node} {f : nodeFlag} {mc : Bytes → Option Bytes} {sc : Shape}
    (hc : Denotes t.db c mc sc) (hk : ShortOK k sc) (fuel : ℕ) (pfx : Bytes) {key : Bytes} (hterm : Term key)
    (hkey : key ≠ []) (hml : prefixLen key k ≠ k.length) :
    ∃ n' s', t.insert (fuel + 2) (.shortNode k c f) pfx key (.valueNode v) = some (.ok (true, n')) ∧
      Denotes t.db n' (Function.update (PrefixMap.under k mc) key (some v)) s' ∧
      (s' = .short ∨ s' = .full) := by
  obtain ⟨p, key', k', rfl, rfl, hp, hdiff⟩ := prefixLen_spec key k
  have hk' : k' ≠ [] := by
    rintro rfl
    simp only [List.append_nil] at hp hml
    exact hml hp.symm
  obtain ⟨i₁, r₁, rfl⟩ := List.exists_cons_of_ne_nil hk'
  have hkey' : key' ≠ [] := by
    rintro rfl
    exact term_not_inside (by simpa using hterm) (by simpa using hkey) hk.1 hk'
  obtain ⟨i₂, r₂, rfl⟩ := List.exists_cons_of_ne_nil hkey'
  have hi : i₁ ≠ i₂ := fun h => hdiff _ _ _ _ rfl rfl h.symm
  obtain ⟨hx₁, hok₁, hslot₁, hne₁, hpn⟩ := split_old hk
  obtain ⟨hx₂, hok₂, hslot₂, hne₂⟩ := split_new hterm
  have hj : (⟨i₁.toNat, hx₁⟩ : Fin 17) ≠ ⟨i₂.toNat, hx₂⟩ :=
    fun h => hi (UInt8.toNat_inj.mp (Fin.mk.inj h))
  -- the old rest and the new rest below a full node, below the common prefix
  have hbranch := Denotes.branch hj (Denotes.leaf hc hok₁ t.newFlag) (Denotes.leaf (.value v hv) hok₂ t.newFlag)
    hslot₁ hslot₂ hne₁ hne₂ t.newFlag
  have hpok : p ≠ [] → ShortOK p .full :=
    fun hne => ⟨⟨p, hpn, .inl rfl⟩, hne, by simp [hasTerm_of_nibbles hpn]⟩
  refine ⟨_, _, ?_, split_map hx₁ hx₂ hi mc v ▸ Denotes.leaf hbranch hpok t.newFlag, ?_⟩
  · simp [Trie.insert, ← hp, setChild, emptyChildren, hx₁, hx₂]
    split_ifs <;> simp
  · by_cases hpe : p = [] <;> simp [hpe]

/-- What `insert` of the value `w` at a key that fits the node gives: a node standing for the
map updated at the key, of a canonical shape; no change only where the value was there already. -/
def Inserts (w : Bytes) (fuel : ℕ) (n : node) (m : Bytes → Option Bytes) (s : Shape) (pfx key : Bytes) : Prop :=
  ∃ dirty n' s', t.insert fuel n pfx key (.valueNode w) = some (.ok (dirty, n')) ∧
    Denotes t.db n' (Function.update m key (some w)) s' ∧ Grown s key s' ∧ (dirty = false → m key = some w)

include hv in
/-- The short node case: the key runs through the node's key into the child, whose insert is
`ih`, or parts from it and splits the node. -/
theorem insert_short {k : Bytes} {c : node} {f : nodeFlag} {mc : Bytes → Option Bytes} {sc : Shape}
    (hc : Denotes t.db c mc sc) (hk : ShortOK k sc)
    (ih : ∀ {fuel : ℕ} {pfx key : Bytes}, fuelFor c key.length ≤ fuel → Term key → Fits sc key →
      Inserts t v fuel c mc sc pfx key)
    {fuel : ℕ} {pfx key : Bytes} (hf : fuelFor (.shortNode k c f) key.length ≤ fuel) (hterm : Term key)
    (hfits : Fits .short key) : Inserts t v fuel (.shortNode k c f) (PrefixMap.under k mc) .short pfx key := by
  have hf : 2 * key.length + 1 ≤ fuel := hf
  have hkey : key ≠ [] := fun he => by simpa using hfits.1 he
  have hkl : 1 ≤ key.length := List.length_pos_of_ne_nil hkey
  obtain ⟨fuel, rfl⟩ : ∃ f, fuel = f + 2 := ⟨fuel - 2, by omega⟩
  by_cases hml : prefixLen key k = k.length
  · -- the key runs through the whole key of the short node
    obtain ⟨key', rfl⟩ := prefix_of_prefixLen hml
    have hkne : k.length ≥ 1 := List.length_pos_of_ne_nil hk.2.1
    have hlen : (k ++ key').length = k.length + key'.length := List.length_append
    obtain ⟨dirty, n', sc', hins, hn', hgrown, hclean⟩ := @ih (fuel + 1) (pfx ++ k) key'
      (le_trans (fuelFor_le _ _) (by omega)) (by simpa using hterm.drop k.length)
      (fits_child hterm hk)
    have hrun : t.insert (fuel + 2) (.shortNode k c f) pfx (k ++ key') (.valueNode v) =
        some (.ok (dirty, if dirty then .shortNode k n' t.newFlag else .shortNode k c f)) := by
      rw [Trie.insert, if_neg (by rw [hlen]; omega), if_pos hml, hml, List.take_left, List.drop_left, hins]
      cases dirty <;> rfl
    refine ⟨dirty, _, .short, hrun, ?_, ⟨fun he => absurd he hkey, fun _ => .inl rfl, fun h => by cases h⟩,
      fun hd => by simpa using hclean hd⟩
    cases dirty
    · rw [Function.update_eq_self_iff.mpr (by simpa using (hclean rfl).symm)]
      exact .short k c f mc sc hc hk
    · rw [PrefixMap.update_under]
      refine .short k n' _ _ sc' hn' ⟨hk.1, hk.2.1, ?_⟩
      -- the child keeps the shape the short node's key asks for
      obtain ⟨-, -, hks⟩ := hk
      rcases Term.of_prefix hterm (List.ne_nil_of_length_pos hkne) with ⟨ht, rfl⟩ | ⟨ht, hr⟩
      · simpa [ht] using hgrown.1 rfl
      · simp only [ht] at hks ⊢
        exact hgrown.2.2 (by simpa using hks)
  · obtain ⟨n', s', hrun, hn', hs'⟩ := insert_split t hv hc hk fuel pfx hterm hkey hml (f := f)
    exact ⟨true, n', s', hrun, hn', ⟨fun he => absurd he hkey, fun _ => hs', fun h => by cases h⟩,
      fun h => by cases h⟩

/-- The full node case: the insert goes down the slot of the key's first nibble, whose insert is
`ih`, and fills it with what the slot may hold. -/
theorem insert_full {cs : List node} {f : nodeFlag} {ms : Fin 17 → Bytes → Option Bytes} {ss : Fin 17 → Shape}
    (hlen : cs.length = 17) (hc : ∀ i : Fin 17, Denotes t.db (cs.getD i .nil) (ms i) (ss i)) (hs : FullOK ss)
    (ih : ∀ (i : Fin 17) {fuel : ℕ} {pfx key : Bytes}, fuelFor (cs.getD i .nil) key.length ≤ fuel → Term key →
      Fits (ss i) key → Inserts t v fuel (cs.getD i .nil) (ms i) (ss i) pfx key)
    {fuel : ℕ} {pfx key : Bytes} (hf : fuelFor (.fullNode cs f) key.length ≤ fuel) (hterm : Term key)
    (hfits : Fits .full key) : Inserts t v fuel (.fullNode cs f) (fullMap ms) .full pfx key := by
  have hf : 2 * key.length + 1 ≤ fuel := hf
  obtain ⟨fuel, rfl⟩ : ∃ f, fuel = f + 1 := ⟨fuel - 1, by omega⟩
  -- a full node is never reached with the key used up
  obtain ⟨x, rest, rfl⟩ : ∃ x rest, key = x :: rest := by
    cases key with
    | nil => simpa using hfits.1 rfl
    | cons x rest => exact ⟨x, rest, rfl⟩
  obtain ⟨hx17, hfit⟩ := fits_slot hterm hs
  obtain ⟨dirty, n', S', hins, hn', hgrown, hclean⟩ := @ih ⟨x.toNat, hx17⟩ fuel (pfx ++ [x]) rest
    (le_trans (fuelFor_le _ _) (by simp at hf; omega)) (by simpa using hterm.drop 1) hfit
  have hins' : t.insert fuel (cs.getD x.toNat .nil) (pfx ++ [x]) rest (.valueNode v) =
      some (.ok (dirty, n')) := hins
  have hrun : t.insert (fuel + 1) (.fullNode cs f) pfx (x :: rest) (.valueNode v) =
      some (.ok (dirty, if dirty then .fullNode (cs.set x.toNat n') t.newFlag else .fullNode cs f)) := by
    rw [Trie.insert, if_neg (by simp)]
    simp only [List.getElem?_cons_zero, getElem?_of_length hlen hx17, List.drop_succ_cons, List.drop_zero]
    rw [hins']
    cases dirty <;> rfl
  refine ⟨dirty, _, .full, hrun, ?_, ⟨fun h => absurd h (List.cons_ne_nil _ _), fun _ => .inr rfl, fun _ => rfl⟩, ?_⟩
  · cases dirty
    · rw [Function.update_eq_self_iff.mpr (by simp [fullMap, hx17, hclean rfl])]
      exact .full cs f ms ss hlen hc hs
    · rw [fullMap_update ms hx17]
      -- the child is filled with what its slot may hold
      have hslot : SlotOK ⟨x.toNat, hx17⟩ S' := by
        rcases hterm.cons with ⟨hlt, -, hne⟩ | ⟨rfl, rfl⟩
        · have hx : x.toNat < 16 := by simpa using UInt8.lt_iff_toNat_lt.mp hlt
          refine ⟨fun _ => ?_, fun h => by simp at h; omega⟩
          rcases hgrown.2.1 hne with h | h <;> simp [h]
        · exact ⟨fun h => by simp at h, fun _ => .inr (hgrown.1 rfl)⟩
      have hne : S' ≠ .empty := by
        by_cases hr : rest = []
        · simp [hgrown.1 hr]
        · rcases hgrown.2.1 hr with h | h <;> simp [h]
      exact Denotes.full_update hlen hc _ hn' (hs.update _ hslot hne) t.newFlag
  · intro hd
    simpa [fullMap, hx17] using hclean hd

/-- The hash node case: the insert runs on the node the hash resolves to, whose insert is `ih`,
and an insert that changes nothing puts back the resolved node. -/
theorem insert_hash {h blob : Bytes} {m : Bytes → Option Bytes} {s : Shape} {dec : UInt16 → node}
    (hb : t.db.Node h = some blob) (hdec : ∀ g, decodeNode (some h) blob g = some (.ok (dec g)))
    (hd : ∀ g, Denotes t.db (dec g) m s) (hs : s = .short ∨ s = .full)
    (ih : ∀ (g : UInt16) {fuel : ℕ} {pfx key : Bytes}, fuelFor (dec g) key.length ≤ fuel → Term key →
      Fits s key → Inserts t v fuel (dec g) m s pfx key)
    {fuel : ℕ} {pfx key : Bytes} (hf : fuelFor (.hashNode h) key.length ≤ fuel) (hterm : Term key)
    (hfits : Fits s key) : Inserts t v fuel (.hashNode h) m s pfx key := by
  have hf : 2 * key.length + 2 ≤ fuel := hf
  obtain ⟨fuel, rfl⟩ : ∃ f, fuel = f + 1 := ⟨fuel - 1, by omega⟩
  have hres : t.resolveHash h pfx = some (.ok (dec t.cachegen)) := by
    simp [Trie.resolveHash, hb, hdec]
  obtain ⟨dirty, n', s', hins, hn', hgrown, hclean⟩ := @ih t.cachegen fuel pfx key
    (by rw [fuelFor_decoded (hdec t.cachegen)]; omega) hterm hfits
  have hkey : key ≠ [] := by
    intro he
    rcases hfits.1 he with h' | h' <;> rw [h'] at hs <;> simp at hs
  refine ⟨dirty, if dirty then n' else dec t.cachegen, if dirty then s' else s, ?_, ?_, ?_, hclean⟩
  · rw [Trie.insert, if_neg (by simpa using hkey)]
    simp only [hres]
    rw [hins]
    cases dirty <;> rfl
  · cases dirty
    · rw [Function.update_eq_self_iff.mpr (hclean rfl).symm]
      exact hd t.cachegen
    · exact hn'
  · cases dirty
    · exact ⟨fun he => absurd he hkey, fun _ => hs, fun h => h⟩
    · exact hgrown

include hv in
/-- `insert` at a key that fits the node: the node returned stands for the map
updated at the key and is canonical; an insert that reports no change found the
value there already. -/
theorem insert_spec {n : node} {m : Bytes → Option Bytes} {s : Shape} (h : Denotes t.db n m s) :
    ∀ {fuel : ℕ} {pfx key : Bytes}, fuelFor n key.length ≤ fuel → Term key → Fits s key →
      ∃ dirty n' s', t.insert fuel n pfx key (.valueNode v) = some (.ok (dirty, n')) ∧
        Denotes t.db n' (Function.update m key (some v)) s' ∧ Grown s key s' ∧
        (dirty = false → m key = some v) := by
  -- one case a constructor of the meaning; the induction hypotheses are the inserts below
  induction h with
  | nil =>
    intro fuel pfx key hf hterm _
    obtain ⟨fuel, rfl⟩ : ∃ f, fuel = f + 1 := ⟨fuel - 1, by simp [fuelFor] at hf; omega⟩
    have hleaf : Denotes t.db (if key = [] then .valueNode v else .shortNode key (.valueNode v) t.newFlag)
        (PrefixMap.under key (PrefixMap.single v)) (if key = [] then .value else .short) :=
      Denotes.leaf (.value v hv) (fun hk => ⟨hterm.hexKey, hk, by simp [hterm.hasTerm_of_ne_nil hk]⟩) t.newFlag
    rw [PrefixMap.under_single] at hleaf
    refine ⟨true, _, _, insert_nil t fuel pfx key _, hleaf, ?_, fun h => by cases h⟩
    exact ⟨fun hk => by simp [hk], fun hk => by simp [hk], fun h => by cases h⟩
  | value w hw =>
    intro fuel pfx key hf _ hfits
    obtain ⟨fuel, rfl⟩ : ∃ f, fuel = f + 1 := ⟨fuel - 1, by simp [fuelFor] at hf; omega⟩
    obtain rfl := hfits.2 rfl
    have hmap : Function.update (PrefixMap.single w : Bytes → Option Bytes) [] (some v) =
        PrefixMap.single v := by
      rw [PrefixMap.single_eq_update, PrefixMap.single_eq_update, Function.update_idem]
    refine ⟨decide (w ≠ v), .valueNode v, .value, rfl, hmap ▸ .value v hv,
      ⟨fun _ => rfl, fun h => absurd rfl h, fun h => by cases h⟩, fun hd => ?_⟩
    have hwv : w = v := by simpa using hd
    simp [hwv]
  | short k c f mc sc hc hk ih => exact insert_short t hv hc hk ih
  | full cs f ms ss hlen hc hs ih => exact insert_full t hlen hc hs ih
  | hash h blob m s dec hb hdec hd hs ih => exact insert_hash t hb hdec hd hs ih

end Insert

end EthereumAI.Trie
