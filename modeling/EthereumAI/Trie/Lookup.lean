import EthereumAI.Trie.Semantics

/-! # Looking a key up

`tryGet` answers what the node stands for, and the node it puts back, with the
hash nodes it met resolved, stands for the same map. A walk uses up at least one
nibble of the key at every short and full node, so its fuel is bounded by the
length of the key (`fuelFor`).
-/

namespace EthereumAI.Trie

open EthereumAI.Lib

/-- The fuel a walk from `n` needs with `len` nibbles of the key left: a call for
every short or full node on the way, and one more for a hash node. -/
def fuelFor (n : node) (len : ℕ) : ℕ :=
  match n with
  | .hashNode _ => 2 * len + 2
  | _ => 2 * len + 1

theorem fuelFor_le (n : node) (len : ℕ) : fuelFor n len ≤ 2 * len + 2 := by
  unfold fuelFor
  split <;> omega

theorem fuelFor_decoded {hash : Option Bytes} {buf : Bytes} {g : UInt16} {n : node}
    (h : decodeNode hash buf g = some (.ok n)) (len : ℕ) : fuelFor n len = 2 * len + 1 := by
  rcases decodeNode_ok h with ⟨k, v, f, rfl⟩ | ⟨cs, f, rfl⟩ <;> rfl

/-! ## Keys and children -/

theorem prefix_iff_take {k rem : Bytes} :
    k <+: rem ↔ k.length ≤ rem.length ∧ k = rem.take k.length := by
  constructor
  · intro hp
    exact ⟨hp.length_le, (List.prefix_iff_eq_take.mp hp)⟩
  · rintro ⟨-, he⟩
    rw [he]
    exact List.take_prefix _ _

theorem fits_child {k r : Bytes} {s : Shape} (h : Term (k ++ r)) (hk : ShortOK k s) : Fits s r := by
  obtain ⟨-, hne, hks⟩ := hk
  rcases Term.of_prefix h hne with ⟨ht, rfl⟩ | ⟨ht, hr⟩
  · simp only [ht, if_true] at hks
    exact ⟨fun _ => .inr hks, fun _ => rfl⟩
  · simp only [ht] at hks
    subst hks
    exact ⟨fun h => absurd h hr, fun h => by cases h⟩

theorem fits_slot {x : UInt8} {rest : Bytes} {ss : Fin 17 → Shape} (h : Term (x :: rest)) (hs : FullOK ss) :
    ∃ hx : x.toNat < 17, Fits (ss ⟨x.toNat, hx⟩) rest := by
  rcases h.cons with ⟨hlt, -, hne⟩ | ⟨rfl, rfl⟩
  · have hx : x.toNat < 16 := by simpa using UInt8.lt_iff_toNat_lt.mp hlt
    exact ⟨by omega, fun h => absurd h hne, fun hv => absurd hv ((hs.1 ⟨x.toNat, by omega⟩).1 hx)⟩
  · exact ⟨by decide, fun _ => (hs.1 16).2 rfl, fun _ => rfl⟩

theorem getD_set_self {cs : List node} {i : ℕ} (hi : i < cs.length) (c : node) :
    (cs.set i c).getD i .nil = c := by
  simp [List.getD_eq_getElem?_getD, hi]

theorem getD_set_ne {cs : List node} {i j : ℕ} (hij : j ≠ i) (c : node) :
    (cs.set i c).getD j .nil = cs.getD j .nil := by
  simp [List.getD_eq_getElem?_getD, Ne.symm hij]

theorem getElem?_of_length {cs : List node} (hlen : cs.length = 17) {i : ℕ} (hi : i < 17) :
    cs[i]? = some (cs.getD i .nil) := by
  simp [List.getD_eq_getElem?_getD, hlen, hi]

theorem update_ne_empty {ss : Fin 17 → Shape} {i j : Fin 17} {S : Shape} (hi : ss i ≠ .empty)
    (hS : S ≠ .empty) : Function.update ss j S i ≠ .empty := by
  by_cases h : i = j
  · subst h
    simpa using hS
  · simpa [Function.update_of_ne h] using hi

theorem FullOK.update {ss : Fin 17 → Shape} (hs : FullOK ss) (j : Fin 17) {S : Shape}
    (hj : SlotOK j S) (hne : S ≠ .empty) : FullOK (Function.update ss j S) := by
  refine ⟨fun i => ?_, ?_⟩
  · by_cases hi : i = j
    · subst hi
      simpa using hj
    · simpa [Function.update_of_ne hi] using hs.1 i
  · obtain ⟨a, b, hab, ha, hb⟩ := hs.2
    exact ⟨a, b, hab, update_ne_empty ha hne, update_ne_empty hb hne⟩

theorem children_set {db : Database} {cs : List node} {ms : Fin 17 → Bytes → Option Bytes}
    {ss : Fin 17 → Shape} (hlen : cs.length = 17)
    (hc : ∀ i : Fin 17, Denotes db (cs.getD i .nil) (ms i) (ss i)) (j : Fin 17) {c : node}
    {M : Bytes → Option Bytes} {S : Shape} (hcj : Denotes db c M S) (i : Fin 17) :
    Denotes db ((cs.set j c).getD i .nil) (Function.update ms j M i) (Function.update ss j S i) := by
  by_cases hi : i = j
  · subst hi
    rw [getD_set_self (by omega)]
    simpa using hcj
  · rw [getD_set_ne (fun h => hi (Fin.ext h)), Function.update_of_ne hi, Function.update_of_ne hi]
    exact hc i

theorem Denotes.full_update {db : Database} {cs : List node}
    {ms : Fin 17 → Bytes → Option Bytes} {ss : Fin 17 → Shape} (hlen : cs.length = 17)
    (hc : ∀ i : Fin 17, Denotes db (cs.getD i .nil) (ms i) (ss i)) (j : Fin 17) {c : node}
    {M : Bytes → Option Bytes} {S : Shape} (hcj : Denotes db c M S) (hs : FullOK (Function.update ss j S))
    (f' : nodeFlag) :
    Denotes db (.fullNode (cs.set j c) f') (fullMap (Function.update ms j M)) .full :=
  .full _ f' _ _ (by simp [hlen]) (children_set hlen hc j hcj) hs

/-! ## `tryGet` -/

variable (t : Trie)

theorem tryGet_spec {n : node} {m : Bytes → Option Bytes} {s : Shape} (h : Denotes t.db n m s) :
    ∀ {fuel : ℕ} {key : Bytes} {pos : ℕ}, fuelFor n (key.length - pos) ≤ fuel →
      Term (key.drop pos) → Fits s (key.drop pos) →
      ∃ n' r, t.tryGet fuel n key pos = some (.ok (m (key.drop pos), n', r)) ∧ Denotes t.db n' m s := by
  induction h with
  | nil =>
    intro fuel key pos hf _ _
    obtain ⟨fuel, rfl⟩ : ∃ f, fuel = f + 1 := ⟨fuel - 1, by simp [fuelFor] at hf; omega⟩
    exact ⟨.nil, false, rfl, .nil⟩
  | value v hv =>
    intro fuel key pos hf _ hfits
    obtain ⟨fuel, rfl⟩ : ∃ f, fuel = f + 1 := ⟨fuel - 1, by simp [fuelFor] at hf; omega⟩
    refine ⟨.valueNode v, false, ?_, .value v hv⟩
    rw [hfits.2 rfl]
    rfl
  | short k v f m s hv hk ih =>
    intro fuel key pos hf hterm hfits
    have hf : 2 * (key.length - pos) + 1 ≤ fuel := hf
    obtain ⟨fuel, rfl⟩ : ∃ f, fuel = f + 1 := ⟨fuel - 1, by omega⟩
    by_cases hp : k <+: key.drop pos
    · obtain ⟨r, hr⟩ := hp
      have hkne : k.length ≥ 1 := List.length_pos_of_ne_nil hk.2.1
      have hlen : pos + k.length ≤ key.length := by
        have := congrArg List.length hr
        simp only [List.length_append, List.length_drop] at this
        omega
      have hdrop : key.drop (pos + k.length) = r := by
        rw [← List.drop_drop, ← hr, List.drop_left]
      have hterm' : Term (k ++ r) := hr ▸ hterm
      -- the child is reached with the rest of the key
      obtain ⟨n', dr, hget, hn'⟩ := @ih fuel key (pos + k.length)
        (le_trans (fuelFor_le v _) (by omega)) (hdrop ▸ by simpa using hterm'.drop k.length)
        (hdrop ▸ fits_child hterm' hk)
      refine ⟨if dr then .shortNode k n' { f with gen := t.cachegen } else .shortNode k v f, dr, ?_, ?_⟩
      · have hmatch : ¬ (key.length - pos < k.length ∨ k ≠ (key.drop pos).take k.length) := by
          rw [← hr, List.take_left]
          simp only [ne_eq, not_true_eq_false, or_false, not_lt]
          omega
        simp only [Trie.tryGet]
        rw [if_neg hmatch, hget, ← hr, PrefixMap.under_apply_append, ← hdrop]
      · cases dr
        · exact .short k v f m s hv hk
        · exact .short k n' _ m s hn' hk
    · refine ⟨.shortNode k v f, false, ?_, .short k v f m s hv hk⟩
      have hmiss : key.length - pos < k.length ∨ k ≠ (key.drop pos).take k.length := by
        by_cases hl : key.length - pos < k.length
        · exact .inl hl
        · exact .inr fun he => hp (prefix_iff_take.mpr ⟨by simp only [List.length_drop]; omega, he⟩)
      simp only [Trie.tryGet]
      rw [if_pos hmiss, PrefixMap.under_apply_outside hp]
  | full cs f ms ss hlen hc hs ih =>
    intro fuel key pos hf hterm hfits
    have hf : 2 * (key.length - pos) + 1 ≤ fuel := hf
    obtain ⟨fuel, rfl⟩ : ∃ f, fuel = f + 1 := ⟨fuel - 1, by omega⟩
    -- a full node is never reached with the key used up
    obtain ⟨x, rest, hrem⟩ : ∃ x rest, key.drop pos = x :: rest := by
      cases hr : key.drop pos with
      | nil => simpa using hfits.1 hr
      | cons x rest => exact ⟨x, rest, rfl⟩
    have hx : key[pos]? = some x := by
      have := congrArg (·[0]?) hrem
      simpa [List.getElem?_drop] using this
    obtain ⟨hx17, hfit⟩ := fits_slot (hrem ▸ hterm) hs
    have hrest : key.drop (pos + 1) = rest := by
      rw [← List.drop_drop, hrem]
      rfl
    have hlen' : key.length - (pos + 1) + 1 = key.length - pos := by
      have := congrArg List.length hrem
      simp only [List.length_drop, List.length_cons] at this
      omega
    obtain ⟨n', r, hget, hn'⟩ := @ih ⟨x.toNat, hx17⟩ fuel key (pos + 1)
      (le_trans (fuelFor_le _ _) (by omega))
      (hrest ▸ (hrem ▸ hterm).drop 1) (hrest ▸ hfit)
    refine ⟨if r then .fullNode (cs.set x.toNat n') { f with gen := t.cachegen } else .fullNode cs f, r, ?_, ?_⟩
    · simp only [Trie.tryGet, hx, getElem?_of_length hlen hx17]
      rw [hget, hrest, hrem, fullMap, dif_pos hx17]
    · cases r
      · exact .full cs f ms ss hlen hc hs
      · simpa using Denotes.full_update hlen hc ⟨x.toNat, hx17⟩ hn' (by simpa using hs)
          { f with gen := t.cachegen }
  | hash h blob m s dec hb hdec hd hs ih =>
    intro fuel key pos hf hterm hfits
    have hf : 2 * (key.length - pos) + 2 ≤ fuel := hf
    obtain ⟨fuel, rfl⟩ : ∃ f, fuel = f + 1 := ⟨fuel - 1, by omega⟩
    have hres : t.resolveHash h (key.take pos) = some (.ok (dec t.cachegen)) := by
      simp [Trie.resolveHash, hb, hdec]
    obtain ⟨n', r, hget, hn'⟩ := @ih t.cachegen fuel key pos
      (by rw [fuelFor_decoded (hdec t.cachegen)]; omega) hterm hfits
    refine ⟨n', true, ?_, hn'⟩
    simp only [Trie.tryGet, hres, hget]

theorem TryGet_spec {m : Bytes → Option Bytes} {s : Shape} (h : Denotes t.db t.root m s)
    (hs : s ≠ .value) {fuel : ℕ} (key : Bytes) (hf : 2 * (keybytesToHex key).length + 2 ≤ fuel) :
    ∃ n', t.TryGet fuel key = some (.ok (m (keybytesToHex key), { t with root := n' })) ∧
      Denotes t.db n' m s := by
  have hne : keybytesToHex key ≠ [] := by simp [keybytesToHex]
  obtain ⟨n', r, hget, hn'⟩ := @tryGet_spec t t.root m s h fuel (keybytesToHex key) 0
    (le_trans (fuelFor_le _ _) (by simpa using hf)) (keybytesToHex_term key)
    ⟨fun he => absurd he hne, fun hv => absurd hv hs⟩
  refine ⟨if r then n' else t.root, ?_, ?_⟩
  · simp only [Trie.TryGet, hget, List.drop_zero]
    cases r <;> rfl
  · cases r
    · exact h
    · exact hn'

end EthereumAI.Trie
