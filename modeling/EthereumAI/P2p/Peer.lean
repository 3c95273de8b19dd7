import Mathlib
import EthereumAI.Lib.Layout

/-! # Sub-protocol multiplexing (`p2p/peer.go`)

Both sides of a connection advertise the capabilities of their protocols, a name and a version
each. `matchProtocols` sorts the remote capabilities by name and version and walks them once: a
capability that some local protocol has is matched to the first such protocol, which gets the
message codes from the running offset on, starting after the `baseProtocolLength` codes of the base
protocol; a later version of a name already matched takes its place and hands its codes back.
`getProto` finds the protocol whose codes hold a message code, and `protoRW` moves a protocol's
codes to the connection's and back.

The model follows the walk with the list of protocols matched so far (`matchStep`), whose names the
sort keeps in increasing order, and says what the match is for (`Matches`): each shared name, in
order, with the local protocol of its highest shared version. The code lays the matched protocols
out at consecutive offsets, computed in `uint64` (`matchProtocols_lookup`). When the codes of the
matched protocols fit, two peers agree on every protocol's codes and a message written through one
side's `protoRW` reaches the same protocol on the other side with its code. When they do not fit,
the offsets wrap around and the ranges overlap the base protocol.

The channels of a `protoRW` and the goroutines that run the protocols are outside the model: a
message is its code, and `handle` says where the peer's read loop sends it.
-/

namespace EthereumAI.P2p

open Lib.Layout

def baseProtocolLength : UInt64 := 16

def discMsg : UInt64 := 0x01

def pingMsg : UInt64 := 0x02

structure Cap where
  Name : String
  Version : ℕ
  deriving DecidableEq, Repr

/-- A protocol, with the fields the matching reads. -/
structure Protocol where
  Name : String
  Version : ℕ
  Length : UInt64
  deriving DecidableEq, Repr

def Protocol.cap (p : Protocol) : Cap := ⟨p.Name, p.Version⟩

def capsByNameAndVersion.Less (a b : Cap) : Bool :=
  decide (a.Name < b.Name) || (a.Name == b.Name && decide (a.Version < b.Version))

/-- `sort.Sort(capsByNameAndVersion(caps))`. Two capabilities neither less than the other are
equal, so every sort gives this list. -/
def sortCaps (caps : List Cap) : List Cap :=
  caps.mergeSort fun a b => !capsByNameAndVersion.Less b a

structure protoRW where
  Protocol : Protocol
  offset : UInt64
  deriving DecidableEq, Repr

/-- The inner loop of `matchProtocols`: the first local protocol of the capability's name and
version. -/
def findProtocol (protocols : List Protocol) (cap : Cap) : Option Protocol :=
  protocols.find? fun proto => proto.Name = cap.Name ∧ proto.Version = cap.Version

/-- One iteration of the outer loop of `matchProtocols`, over the running offset and the map. -/
def matchCap (protocols : List Protocol) (st : UInt64 × AList (fun _ : String => protoRW)) (cap : Cap) :
    UInt64 × AList (fun _ : String => protoRW) :=
  let (offset, result) := st
  match findProtocol protocols cap with
  | some proto =>
    let offset := match result.lookup cap.Name with
      | some old => offset - old.Protocol.Length
      | none => offset
    (offset + proto.Length, result.insert cap.Name ⟨proto, offset⟩)
  | none => (offset, result)

def matchProtocols (protocols : List Protocol) (caps : List Cap) : AList (fun _ : String => protoRW) :=
  ((sortCaps caps).foldl (matchCap protocols) (baseProtocolLength, ∅)).2

/-- `getProto`, over the running protocols in the order of the map's entries. -/
def getProto (running : AList (fun _ : String => protoRW)) (code : UInt64) : Except String protoRW :=
  match running.entries.find? (fun e => code ≥ e.2.offset && code < e.2.offset + e.2.Protocol.Length) with
  | some e => .ok e.2
  | none => .error ("invalid message code: " ++ toString code)

/-- Where `Peer.handle` sends a message. -/
inductive Handled
  | pong
  | disconnect
  | discard
  | deliver (proto : protoRW)
  deriving DecidableEq, Repr

def handle (running : AList (fun _ : String => protoRW)) (code : UInt64) : Except String Handled :=
  if code = pingMsg then .ok .pong
  else if code = discMsg then .ok .disconnect
  else if code < baseProtocolLength then .ok .discard
  else match getProto running code with
    | .ok proto => .ok (.deliver proto)
    | .error _ => .error ("msg code out of range: " ++ toString code)

/-- The code a message written through the protocol has on the connection. -/
def protoRW.WriteMsg (rw : protoRW) (code : UInt64) : Except String UInt64 :=
  if code ≥ rw.Protocol.Length then .error "invalid message code: not handled"
  else .ok (code + rw.offset)

/-- The code the protocol reads of a message delivered to it. -/
def protoRW.ReadMsg (rw : protoRW) (code : UInt64) : UInt64 := code - rw.offset

/-! ## What the match is for -/

/-- Whether some local protocol has the capability. -/
def shared (protocols : List Protocol) (cap : Cap) : Bool := (findProtocol protocols cap).isSome

/-- The order `sortCaps` sorts by. -/
def CapLe (a b : Cap) : Prop := a.Name < b.Name ∨ a.Name = b.Name ∧ a.Version ≤ b.Version

/-- The match of one capability over the protocols matched so far: the protocol found replaces the
older version of its name. -/
def matchStep (protocols : List Protocol) (L : List Protocol) (cap : Cap) : List Protocol :=
  match findProtocol protocols cap with
  | some proto => L.filter (fun q => q.Name ≠ cap.Name) ++ [proto]
  | none => L

def matched (protocols : List Protocol) (caps : List Cap) : List Protocol :=
  (sortCaps caps).foldl (matchStep protocols) []

/-- The shared names in increasing order, each with the first local protocol of its highest shared
version. -/
structure Matches (protocols : List Protocol) (caps : List Cap) (L : List Protocol) : Prop where
  sorted : (L.map (·.Name)).Pairwise (· < ·)
  mem_iff : ∀ n, n ∈ L.map (·.Name) ↔ ∃ c ∈ caps, c.Name = n ∧ shared protocols c = true
  highest : ∀ p ∈ L, ∃ c ∈ caps, findProtocol protocols c = some p ∧
    ∀ c' ∈ caps, c'.Name = c.Name → shared protocols c' = true → c'.Version ≤ c.Version

def plen (p : Protocol) : ℕ := p.Length.toNat

/-- The protocols at consecutive offsets from `o`, in `uint64`. -/
def layout (o : ℕ) (L : List Protocol) : List protoRW :=
  (place plen o L).map fun e => ⟨e.1, UInt64.ofNat e.2⟩

section Matching

variable {protocols : List Protocol}

theorem findProtocol_spec {cap : Cap} {p : Protocol} (h : findProtocol protocols cap = some p) :
    p ∈ protocols ∧ p.Name = cap.Name ∧ p.Version = cap.Version := by
  have hp := List.find?_some h
  simp only [decide_eq_true_eq] at hp
  exact ⟨List.mem_of_find?_eq_some h, hp⟩

theorem shared_iff {cap : Cap} : shared protocols cap = true ↔ cap ∈ protocols.map Protocol.cap := by
  simp only [shared, findProtocol, List.find?_isSome, decide_eq_true_eq, List.mem_map, Protocol.cap]
  constructor
  · rintro ⟨p, hp, hn, hv⟩
    exact ⟨p, hp, by rw [hn, hv]⟩
  · rintro ⟨p, hp, rfl⟩
    exact ⟨p, hp, rfl, rfl⟩

theorem not_less_iff (a b : Cap) : (!capsByNameAndVersion.Less b a) = true ↔ CapLe a b := by
  simp only [capsByNameAndVersion.Less, CapLe, Bool.not_eq_true', Bool.or_eq_false_iff, Bool.and_eq_false_iff,
    decide_eq_false_iff_not, beq_eq_false_iff_ne, not_lt]
  constructor
  · rintro ⟨hn, hv | hv⟩
    · exact Or.inl (lt_of_le_of_ne hn (Ne.symm hv))
    · exact (eq_or_lt_of_le hn).elim (fun h => Or.inr ⟨h, hv⟩) Or.inl
  · rintro (h | ⟨h, hv⟩)
    · exact ⟨h.le, Or.inl (ne_of_gt h)⟩
    · exact ⟨h.le, Or.inr hv⟩

theorem CapLe.trans {a b c : Cap} (hab : CapLe a b) (hbc : CapLe b c) : CapLe a c := by
  rcases hab with hab | ⟨hab, hv⟩ <;> rcases hbc with hbc | ⟨hbc, hv'⟩
  · exact Or.inl (hab.trans hbc)
  · exact Or.inl (hbc ▸ hab)
  · exact Or.inl (hab ▸ hbc)
  · exact Or.inr ⟨hab.trans hbc, hv.trans hv'⟩

theorem CapLe.total (a b : Cap) : CapLe a b ∨ CapLe b a := by
  rcases lt_trichotomy a.Name b.Name with h | h | h
  · exact Or.inl (Or.inl h)
  · exact (le_total a.Version b.Version).elim (fun hv => Or.inl (Or.inr ⟨h, hv⟩)) fun hv => Or.inr (Or.inr ⟨h.symm, hv⟩)
  · exact Or.inr (Or.inl h)

theorem sortCaps_sorted (caps : List Cap) : (sortCaps caps).Pairwise CapLe := by
  refine (List.pairwise_mergeSort (fun a b c hab hbc => ?_) (fun a b => ?_) caps).imp fun h => (not_less_iff _ _).mp h
  · exact (not_less_iff a c).mpr (((not_less_iff a b).mp hab).trans ((not_less_iff b c).mp hbc))
  · rcases CapLe.total a b with h | h
    · simp [(not_less_iff a b).mpr h]
    · simp [(not_less_iff b a).mpr h]

theorem CapLe.name_le {a b : Cap} (h : CapLe a b) : a.Name ≤ b.Name :=
  h.elim le_of_lt fun h => h.1.le

theorem Matches.name_le {P : List Cap} {L : List Protocol} {c : Cap} (hm : Matches protocols P L)
    (hle : ∀ c' ∈ P, CapLe c' c) : ∀ q ∈ L, q.Name ≤ c.Name := by
  intro q hq
  obtain ⟨c₀, hc₀, hfind, -⟩ := hm.highest q hq
  rw [(findProtocol_spec hfind).2.1]
  exact (hle c₀ hc₀).name_le

theorem Matches.step {P : List Cap} {L : List Protocol} {c : Cap} (hm : Matches protocols P L)
    (hle : ∀ c' ∈ P, CapLe c' c) : Matches protocols (P ++ [c]) (matchStep protocols L c) := by
  have hL := hm.name_le hle
  unfold matchStep
  split
  · next proto hfind =>
    obtain ⟨-, hname, hversion⟩ := findProtocol_spec hfind
    refine ⟨?_, fun n => ?_, fun p hp => ?_⟩
    · -- the older names all come before the new one
      rw [List.map_append, List.pairwise_append]
      refine ⟨hm.sorted.sublist (List.Sublist.map _ List.filter_sublist), by simp, ?_⟩
      intro a ha b hb
      obtain ⟨q, hq, rfl⟩ := List.mem_map.mp ha
      rw [List.mem_filter, decide_eq_true_eq] at hq
      have hb : b = proto.Name := by simpa using hb
      rw [hb, hname]
      exact lt_of_le_of_ne (hL q hq.1) hq.2
    · simp only [List.map_append, List.mem_append, List.mem_map, List.mem_filter, decide_eq_true_eq,
        List.map_cons, List.map_nil, List.mem_singleton]
      constructor
      · rintro (⟨q, ⟨hq, -⟩, rfl⟩ | rfl)
        · obtain ⟨c', hc', hn, hs⟩ := (hm.mem_iff q.Name).mp (List.mem_map_of_mem hq)
          exact ⟨c', Or.inl hc', hn, hs⟩
        · exact ⟨c, Or.inr rfl, hname.symm, by simp [shared, hfind]⟩
      · rintro ⟨c', hc' | rfl, rfl, hs⟩
        · by_cases hn : c'.Name = c.Name
          · exact Or.inr (hname.trans hn.symm).symm
          · obtain ⟨q, hq, hqn⟩ := List.mem_map.mp ((hm.mem_iff c'.Name).mpr ⟨c', hc', rfl, hs⟩)
            exact Or.inl ⟨q, ⟨hq, hqn ▸ hn⟩, hqn⟩
        · exact Or.inr hname.symm
    · rcases List.mem_append.mp hp with hp | hp
      · -- an older match of another name keeps its capability
        rw [List.mem_filter, decide_eq_true_eq] at hp
        obtain ⟨c₀, hc₀, hfind₀, hmax⟩ := hm.highest p hp.1
        have hn₀ : c₀.Name ≠ c.Name := (findProtocol_spec hfind₀).2.1 ▸ hp.2
        refine ⟨c₀, List.mem_append_left _ hc₀, hfind₀, fun c' hc' hn hs => ?_⟩
        rcases List.mem_append.mp hc' with hc' | hc'
        · exact hmax c' hc' hn hs
        · exact absurd (List.mem_singleton.mp hc' ▸ hn).symm hn₀
      · -- the new match is at the highest version so far, the capabilities being sorted
        obtain rfl := List.mem_singleton.mp hp
        refine ⟨c, List.mem_append_right _ (List.mem_singleton_self c), hfind, fun c' hc' hn _ => ?_⟩
        rcases List.mem_append.mp hc' with hc' | hc'
        · exact (hle c' hc').elim (fun h => absurd hn (ne_of_lt h)) fun h => h.2
        · rw [List.mem_singleton.mp hc']
  · next hfind =>
    have hns : shared protocols c = false := by simp [shared, hfind]
    refine ⟨hm.sorted, fun n => ?_, fun p hp => ?_⟩
    · rw [hm.mem_iff n]
      constructor
      · rintro ⟨c', hc', hn, hs⟩
        exact ⟨c', List.mem_append_left _ hc', hn, hs⟩
      · rintro ⟨c', hc', hn, hs⟩
        rcases List.mem_append.mp hc' with hc' | hc'
        · exact ⟨c', hc', hn, hs⟩
        · rw [List.mem_singleton.mp hc', hns] at hs
          cases hs
    · obtain ⟨c₀, hc₀, hfind₀, hmax⟩ := hm.highest p hp
      refine ⟨c₀, List.mem_append_left _ hc₀, hfind₀, fun c' hc' hn hs => ?_⟩
      rcases List.mem_append.mp hc' with hc' | hc'
      · exact hmax c' hc' hn hs
      · rw [List.mem_singleton.mp hc', hns] at hs
        cases hs

end Matching

/-! ## The code's walk -/

section Walk

variable {protocols : List Protocol}

theorem layout_append (o : ℕ) (L₁ L₂ : List Protocol) :
    layout o (L₁ ++ L₂) = layout o L₁ ++ layout (o + total plen L₁) L₂ := by
  simp [layout, place_append]

@[simp] theorem map_layout (o : ℕ) (L : List Protocol) : (layout o L).map (·.Protocol) = L := by
  simp only [layout, List.map_map]
  exact map_fst_place o L

theorem find_layout_eq_none {o : ℕ} {L : List Protocol} {n : String} (h : n ∉ L.map (·.Name)) :
    (layout o L).find? (fun rw => rw.Protocol.Name = n) = none := by
  rw [List.find?_eq_none]
  intro rw hrw hn
  rw [← map_layout o L, List.map_map] at h
  exact h (List.mem_map.mpr ⟨rw, hrw, of_decide_eq_true hn⟩)

/-- The last of the matched protocols, when a capability of its name comes again. -/
theorem eq_filter_append {L : List Protocol} {n : String} (hsorted : (L.map (·.Name)).Pairwise (· < ·))
    (hle : ∀ q ∈ L, q.Name ≤ n) (hn : n ∈ L.map (·.Name)) :
    ∃ q, q.Name = n ∧ L = L.filter (fun q => q.Name ≠ n) ++ [q] ∧ n ∉ (L.filter (fun q => q.Name ≠ n)).map (·.Name) := by
  rcases List.eq_nil_or_concat L with rfl | ⟨L', q, rfl⟩
  · simp at hn
  · simp only [List.concat_eq_append] at *
    rw [List.map_append, List.pairwise_append] at hsorted
    have hlt : ∀ q' ∈ L', q'.Name < q.Name := fun q' hq' => hsorted.2.2 _ (List.mem_map_of_mem hq') _ (by simp)
    have hq : q.Name = n := by
      obtain ⟨q', hq', rfl⟩ := List.mem_map.mp hn
      rcases List.mem_append.mp hq' with hq' | hq'
      · exact absurd (hle q (by simp)) (not_le.mpr (hlt q' hq'))
      · rw [List.mem_singleton.mp hq']
    have hfilter : (L' ++ [q]).filter (fun q' => q'.Name ≠ n) = L' := by
      rw [List.filter_append, List.filter_eq_self.mpr fun q' hq' => decide_eq_true (hq ▸ ne_of_lt (hlt q' hq'))]
      simp [hq]
    refine ⟨q, hq, by rw [hfilter], ?_⟩
    rw [hfilter]
    intro hn'
    obtain ⟨q', hq', hqn⟩ := List.mem_map.mp hn'
    exact ne_of_lt (hlt q' hq') (hqn.trans hq.symm)

/-- The loop's offset and map stand for the protocols matched so far: the offset is past them, and
each name maps to its protocol in their layout. -/
def Represents (L : List Protocol) (offset : UInt64) (result : AList (fun _ : String => protoRW)) : Prop :=
  offset = UInt64.ofNat (16 + total plen L) ∧ ∀ n, result.lookup n = (layout 16 L).find? (·.Protocol.Name = n)

theorem ofNat_add_plen (a : ℕ) (q : Protocol) : UInt64.ofNat a + q.Length = UInt64.ofNat (a + plen q) := by
  rw [UInt64.ofNat_add, plen, UInt64.ofNat_toNat]

theorem layout_singleton (o : ℕ) (p : Protocol) : layout o [p] = [⟨p, UInt64.ofNat o⟩] := rfl

theorem represents_matchCap {L : List Protocol} {st : UInt64 × AList (fun _ : String => protoRW)} {c : Cap}
    (hrep : Represents L st.1 st.2) (hsorted : (L.map (·.Name)).Pairwise (· < ·)) (hle : ∀ q ∈ L, q.Name ≤ c.Name) :
    Represents (matchStep protocols L c) (matchCap protocols st c).1 (matchCap protocols st c).2 := by
  obtain ⟨offset, result⟩ := st
  obtain ⟨hoff, hlookup⟩ := hrep
  dsimp only at hoff hlookup
  unfold matchCap matchStep
  split
  · next proto hfind =>
    dsimp only
    have hname := (findProtocol_spec hfind).2.1
    -- handing back the codes of an older version leaves the loop where the others end
    obtain ⟨hoff', hnot, hother⟩ : (match result.lookup c.Name with
        | some old => offset - old.Protocol.Length
        | none => offset) = UInt64.ofNat (16 + total plen (L.filter fun q => q.Name ≠ c.Name)) ∧
        c.Name ∉ (L.filter fun q => q.Name ≠ c.Name).map (·.Name) ∧
        ∀ n ≠ c.Name, result.lookup n = (layout 16 (L.filter fun q => q.Name ≠ c.Name)).find? (·.Protocol.Name = n) := by
      by_cases hn : c.Name ∈ L.map (·.Name)
      · obtain ⟨q, hq, hL, hnot⟩ := eq_filter_append hsorted hle hn
        generalize L.filter (fun q => q.Name ≠ c.Name) = L' at hL hnot ⊢
        subst hL
        refine ⟨?_, hnot, fun n hne => ?_⟩
        · rw [hlookup, layout_append, List.find?_append, find_layout_eq_none hnot, hoff, total_append]
          simp [hq, plen, layout_singleton, ← UInt64.add_assoc]
        · rw [hlookup, layout_append, List.find?_append]
          simp [hq, layout_singleton, Ne.symm hne]
      · have hL : (L.filter fun q => q.Name ≠ c.Name) = L := List.filter_eq_self.mpr fun q hq =>
          decide_eq_true fun h => hn (h ▸ List.mem_map_of_mem hq)
        rw [hL]
        refine ⟨?_, hn, fun n _ => hlookup n⟩
        rw [hlookup, find_layout_eq_none hn, hoff]
    generalize L.filter (fun q => q.Name ≠ c.Name) = L' at hoff' hnot hother ⊢
    refine ⟨by rw [hoff', ofNat_add_plen, total_append]; simp [Nat.add_assoc], fun n => ?_⟩
    rw [layout_append, List.find?_append]
    by_cases hn : n = c.Name
    · subst hn
      rw [AList.lookup_insert, find_layout_eq_none hnot, hoff']
      simp [hname, layout_singleton]
    · rw [AList.lookup_insert_ne hn, hother n hn]
      simp [hname, layout_singleton, Ne.symm hn]
  · exact ⟨hoff, hlookup⟩

theorem foldl_match (R P : List Cap) (L : List Protocol) (st : UInt64 × AList (fun _ : String => protoRW))
    (hsorted : (P ++ R).Pairwise CapLe) (hm : Matches protocols P L) (hrep : Represents L st.1 st.2) :
    Matches protocols (P ++ R) (R.foldl (matchStep protocols) L) ∧
      Represents (R.foldl (matchStep protocols) L) (R.foldl (matchCap protocols) st).1
        (R.foldl (matchCap protocols) st).2 := by
  induction R generalizing P L st with
  | nil => exact ⟨by rwa [List.append_nil], hrep⟩
  | cons c R ih =>
    have hle : ∀ c' ∈ P, CapLe c' c := fun c' hc' =>
      (List.pairwise_append.mp hsorted).2.2 c' hc' c List.mem_cons_self
    rw [List.append_cons] at hsorted ⊢
    exact ih (P ++ [c]) _ _ hsorted (hm.step hle) (represents_matchCap hrep hm.sorted (hm.name_le hle))

theorem Matches.of_mem_iff {P caps : List Cap} {L : List Protocol} (hm : Matches protocols P L)
    (h : ∀ c, c ∈ P ↔ c ∈ caps) : Matches protocols caps L where
  sorted := hm.sorted
  mem_iff n := by simp only [hm.mem_iff n, h]
  highest p hp := by
    obtain ⟨c, hc, hfind, hmax⟩ := hm.highest p hp
    exact ⟨c, (h c).mp hc, hfind, fun c' hc' => hmax c' ((h c').mpr hc')⟩

theorem foldl_match_sortCaps (protocols : List Protocol) (caps : List Cap) :
    Matches protocols (sortCaps caps) (matched protocols caps) ∧
      ∀ n, (matchProtocols protocols caps).lookup n = (layout 16 (matched protocols caps)).find? (·.Protocol.Name = n) := by
  have hm : Matches protocols [] [] := ⟨List.Pairwise.nil, by simp, by simp⟩
  obtain ⟨hmatch, hrep⟩ := foldl_match (sortCaps caps) [] [] (baseProtocolLength, ∅) (sortCaps_sorted caps) hm
    ⟨rfl, fun n => by simp [layout]⟩
  exact ⟨hmatch, hrep.2⟩

theorem matched_matches (protocols : List Protocol) (caps : List Cap) :
    Matches protocols caps (matched protocols caps) :=
  (foldl_match_sortCaps protocols caps).1.of_mem_iff fun c => by simp [sortCaps]

theorem matchProtocols_lookup (protocols : List Protocol) (caps : List Cap) (n : String) :
    (matchProtocols protocols caps).lookup n = (layout 16 (matched protocols caps)).find? (·.Protocol.Name = n) :=
  (foldl_match_sortCaps protocols caps).2 n

end Walk

/-! ## Codes that fit -/

section Codes

variable {protocols : List Protocol} {caps : List Cap}

theorem mem_layout {o : ℕ} {L : List Protocol} {rw : protoRW} :
    rw ∈ layout o L ↔ ∃ x, (rw.Protocol, x) ∈ place plen o L ∧ rw.offset = UInt64.ofNat x := by
  simp only [layout, List.mem_map]
  constructor
  · rintro ⟨⟨p, x⟩, hp, rfl⟩
    exact ⟨x, hp, rfl⟩
  · rintro ⟨x, hp, hoff⟩
    refine ⟨(rw.Protocol, x), hp, ?_⟩
    obtain ⟨proto, offset⟩ := rw
    dsimp only at hoff ⊢
    rw [hoff]

theorem lookup_of_mem_place {p : Protocol} {x : ℕ} (h : (p, x) ∈ place plen 16 (matched protocols caps)) :
    (matchProtocols protocols caps).lookup p.Name = some ⟨p, UInt64.ofNat x⟩ := by
  rw [matchProtocols_lookup]
  have hmem : (⟨p, UInt64.ofNat x⟩ : protoRW) ∈ layout 16 (matched protocols caps) := mem_layout.mpr ⟨x, h, rfl⟩
  obtain ⟨rw, hfind⟩ : ∃ rw, (layout 16 (matched protocols caps)).find? (·.Protocol.Name = p.Name) = some rw :=
    Option.isSome_iff_exists.mp (List.find?_isSome.mpr ⟨_, hmem, decide_eq_true rfl⟩)
  have hname : rw.Protocol.Name = p.Name := by simpa using List.find?_some hfind
  rw [hfind]
  have hnodup : ((layout 16 (matched protocols caps)).map (·.Protocol.Name)).Nodup := by
    have hnames : (layout 16 (matched protocols caps)).map (·.Protocol.Name) =
        ((layout 16 (matched protocols caps)).map (·.Protocol)).map (·.Name) := by
      rw [List.map_map]
      rfl
    rw [hnames, map_layout]
    exact (matched_matches protocols caps).sorted.imp ne_of_lt
  exact congrArg some (List.inj_on_of_nodup_map hnodup (List.mem_of_find?_eq_some hfind) hmem hname)

theorem mem_place_of_lookup {n : String} {rw : protoRW} (h : (matchProtocols protocols caps).lookup n = some rw) :
    ∃ x, (rw.Protocol, x) ∈ place plen 16 (matched protocols caps) ∧ rw.offset = UInt64.ofNat x ∧
      rw.Protocol.Name = n := by
  rw [matchProtocols_lookup] at h
  obtain ⟨x, hx, hoff⟩ := mem_layout.mp (List.mem_of_find?_eq_some h)
  exact ⟨x, hx, hoff, by simpa using List.find?_some h⟩

theorem toNat_ofNat_of_mem_place {L : List Protocol} {p : Protocol} {x : ℕ} (hfit : 16 + total plen L < 2 ^ 64)
    (h : (p, x) ∈ place plen 16 L) : (UInt64.ofNat x).toNat = x ∧ (UInt64.ofNat x + p.Length).toNat = x + plen p := by
  have hb := mem_place_bounds h
  rw [ofNat_add_plen, UInt64.toNat_ofNat', UInt64.toNat_ofNat']
  exact ⟨Nat.mod_eq_of_lt (by omega), Nat.mod_eq_of_lt (by omega)⟩

/-- When the codes fit, `getProto` finds for a code the one protocol whose range holds it. -/
theorem getProto_of_mem_place (hfit : 16 + total plen (matched protocols caps) < 2 ^ 64) {p : Protocol} {x : ℕ}
    (h : (p, x) ∈ place plen 16 (matched protocols caps)) {code : UInt64} (hcode : x ≤ code.toNat ∧ code.toNat < x + plen p) :
    getProto (matchProtocols protocols caps) code = .ok ⟨p, UInt64.ofNat x⟩ := by
  -- the range test of an entry, read in ℕ
  have htest : ∀ e ∈ (matchProtocols protocols caps).entries,
      (code ≥ e.2.offset && code < e.2.offset + e.2.Protocol.Length) = true ↔ e.2 = ⟨p, UInt64.ofNat x⟩ := by
    intro e he
    rw [Bool.and_eq_true, decide_eq_true_iff, decide_eq_true_iff, ge_iff_le, UInt64.le_iff_toNat_le,
      UInt64.lt_iff_toNat_lt]
    constructor
    · intro hc
      obtain ⟨y, hy, hoff, -⟩ := mem_place_of_lookup (AList.mem_lookup_iff.mpr he)
      obtain ⟨hy₁, hy₂⟩ := toNat_ofNat_of_mem_place hfit hy
      rw [hoff, hy₁, hy₂] at hc
      obtain ⟨hp, hxy⟩ := Prod.mk.inj (eq_of_mem_place hy h hc hcode)
      rw [← hxy, ← hoff, ← hp]
    · intro he2
      obtain ⟨hx₁, hx₂⟩ := toNat_ofNat_of_mem_place hfit h
      rw [he2]
      dsimp only
      rw [hx₁, hx₂]
      exact hcode
  have hmem : ⟨p.Name, ⟨p, UInt64.ofNat x⟩⟩ ∈ (matchProtocols protocols caps).entries :=
    AList.mem_lookup_iff.mp (lookup_of_mem_place h)
  unfold getProto
  obtain ⟨e, hfind⟩ : ∃ e, (matchProtocols protocols caps).entries.find?
      (fun e => code ≥ e.2.offset && code < e.2.offset + e.2.Protocol.Length) = some e :=
    Option.isSome_iff_exists.mp (List.find?_isSome.mpr ⟨_, hmem, (htest _ hmem).mpr rfl⟩)
  have hsat := List.find?_some hfind
  rw [hfind]
  exact congrArg Except.ok ((htest e (List.mem_of_find?_eq_some hfind)).mp hsat)

end Codes

/-! ## Two peers

Each side matches its protocols against the capabilities the other advertises, those of its
protocols. -/

section Peers

variable {PA PB : List Protocol}

theorem map_eq_of_names {α : Type} (f : Protocol → α) {L₁ L₂ : List Protocol}
    (hnames : L₁.map (·.Name) = L₂.map (·.Name)) (h : ∀ a ∈ L₁, ∀ b ∈ L₂, a.Name = b.Name → f a = f b) :
    L₁.map f = L₂.map f := by
  induction L₁ generalizing L₂ with
  | nil =>
    obtain rfl := List.map_eq_nil_iff.mp hnames.symm
    rfl
  | cons a L₁ ih =>
    obtain ⟨b, L₂, rfl, hab, hrest⟩ := List.map_eq_cons_iff.mp hnames.symm
    rw [List.map_cons, List.map_cons, h a List.mem_cons_self b List.mem_cons_self hab.symm,
      ih hrest.symm fun a' ha' b' hb' => h a' (List.mem_cons_of_mem _ ha') b' (List.mem_cons_of_mem _ hb')]

theorem shared_of_findProtocol {protocols : List Protocol} {c : Cap} {p : Protocol}
    (h : findProtocol protocols c = some p) : shared protocols c = true := by
  simp [shared, h]

theorem matched_names_eq :
    (matched PA (PB.map Protocol.cap)).map (·.Name) = (matched PB (PA.map Protocol.cap)).map (·.Name) := by
  have hA := matched_matches PA (PB.map Protocol.cap)
  have hB := matched_matches PB (PA.map Protocol.cap)
  refine List.Perm.eq_of_pairwise (fun a b _ _ hab hba => absurd hba (lt_asymm hab)) hA.sorted hB.sorted ?_
  refine (List.perm_ext_iff_of_nodup (hA.sorted.imp ne_of_lt) (hB.sorted.imp ne_of_lt)).mpr fun n => ?_
  rw [hA.mem_iff, hB.mem_iff]
  constructor
  · rintro ⟨c, hc, hn, hs⟩
    exact ⟨c, shared_iff.mp hs, hn, shared_iff.mpr hc⟩
  · rintro ⟨c, hc, hn, hs⟩
    exact ⟨c, shared_iff.mp hs, hn, shared_iff.mpr hc⟩

/-- With the same length for each shared capability, both sides match the same capabilities with
the same lengths, in the same order. -/
theorem matched_agree (hlen : ∀ pa ∈ PA, ∀ pb ∈ PB, pa.cap = pb.cap → pa.Length = pb.Length) :
    (matched PA (PB.map Protocol.cap)).map (fun p => (p.cap, p.Length)) =
      (matched PB (PA.map Protocol.cap)).map (fun p => (p.cap, p.Length)) := by
  have hA := matched_matches PA (PB.map Protocol.cap)
  have hB := matched_matches PB (PA.map Protocol.cap)
  refine map_eq_of_names _ matched_names_eq fun pa hpa pb hpb hn => ?_
  obtain ⟨ca, hca, hfa, hmaxa⟩ := hA.highest pa hpa
  obtain ⟨cb, hcb, hfb, hmaxb⟩ := hB.highest pb hpb
  obtain ⟨hpaA, hna, hva⟩ := findProtocol_spec hfa
  obtain ⟨hpbB, hnb, hvb⟩ := findProtocol_spec hfb
  have hname : cb.Name = ca.Name := by rw [← hnb, ← hn, hna]
  have hab : cb.Version ≤ ca.Version :=
    hmaxa cb (shared_iff.mp (shared_of_findProtocol hfb)) hname (shared_iff.mpr hcb)
  have hba : ca.Version ≤ cb.Version :=
    hmaxb ca (shared_iff.mp (shared_of_findProtocol hfa)) hname.symm (shared_iff.mpr hca)
  have hcap : pa.cap = pb.cap := by
    simp only [Protocol.cap, Cap.mk.injEq, hn, hva, hvb]
    exact ⟨trivial, le_antisymm hba hab⟩
  rw [hcap, hlen pa hpaA pb hpbB hcap]

theorem place_agree (hlen : ∀ pa ∈ PA, ∀ pb ∈ PB, pa.cap = pb.cap → pa.Length = pb.Length) :
    (place plen 16 (matched PA (PB.map Protocol.cap))).map (fun e => ((e.1.cap, e.1.Length), e.2)) =
      (place plen 16 (matched PB (PA.map Protocol.cap))).map (fun e => ((e.1.cap, e.1.Length), e.2)) := by
  have h := congrArg (List.map fun k : Cap × UInt64 => (k, k.2.toNat)) (matched_agree hlen)
  simp only [List.map_map] at h
  exact map_place_eq _ h 16

theorem total_agree (hlen : ∀ pa ∈ PA, ∀ pb ∈ PB, pa.cap = pb.cap → pa.Length = pb.Length) :
    total plen (matched PA (PB.map Protocol.cap)) = total plen (matched PB (PA.map Protocol.cap)) := by
  have h := congrArg (List.map fun k : Cap × UInt64 => k.2.toNat) (matched_agree hlen)
  simp only [List.map_map] at h
  exact congrArg List.sum h

/-- A message written through a protocol of one side reaches the protocol of that capability on the
other side, which reads the code it was written with. -/
theorem WriteMsg_handle_ReadMsg (hlen : ∀ pa ∈ PA, ∀ pb ∈ PB, pa.cap = pb.cap → pa.Length = pb.Length)
    (hfit : 16 + total plen (matched PA (PB.map Protocol.cap)) < 2 ^ 64) {n : String} {rwA : protoRW}
    (hA : (matchProtocols PA (PB.map Protocol.cap)).lookup n = some rwA) :
    ∃ rwB, (matchProtocols PB (PA.map Protocol.cap)).lookup n = some rwB ∧ rwB.Protocol.cap = rwA.Protocol.cap ∧
      rwB.Protocol.Length = rwA.Protocol.Length ∧ rwB.offset = rwA.offset ∧
      ∀ c < rwA.Protocol.Length, ∃ wire, rwA.WriteMsg c = .ok wire ∧
        handle (matchProtocols PB (PA.map Protocol.cap)) wire = .ok (.deliver rwB) ∧ rwB.ReadMsg wire = c := by
  obtain ⟨x, hx, hoff, hname⟩ := mem_place_of_lookup hA
  -- the other side has the same capability at the same offset
  have hmemB : ((rwA.Protocol.cap, rwA.Protocol.Length), x) ∈
      (place plen 16 (matched PB (PA.map Protocol.cap))).map (fun e => ((e.1.cap, e.1.Length), e.2)) := by
    rw [← place_agree hlen]
    exact List.mem_map_of_mem hx
  obtain ⟨⟨pB, y⟩, hy, heq⟩ := List.mem_map.mp hmemB
  simp only [Prod.mk.injEq] at heq
  obtain ⟨⟨hcap, hL⟩, rfl⟩ := heq
  have hnameB : pB.Name = n := (congrArg Cap.Name hcap).trans hname
  have hfitB : 16 + total plen (matched PB (PA.map Protocol.cap)) < 2 ^ 64 := total_agree hlen ▸ hfit
  refine ⟨⟨pB, UInt64.ofNat y⟩, hnameB ▸ lookup_of_mem_place hy, hcap, hL, hoff.symm, fun c hc => ?_⟩
  refine ⟨c + rwA.offset, by simp [protoRW.WriteMsg, hc], ?_, by simp [protoRW.ReadMsg, hoff]⟩
  -- the code on the connection, in ℕ
  have hb := mem_place_bounds hx
  have hplen : plen pB = plen rwA.Protocol := by rw [plen, plen, hL]
  have hc' : c.toNat < plen rwA.Protocol := UInt64.lt_iff_toNat_lt.mp hc
  have hwire : (c + rwA.offset).toNat = c.toNat + y := by
    rw [UInt64.toNat_add, hoff, (toNat_ofNat_of_mem_place hfit hx).1]
    exact Nat.mod_eq_of_lt (by omega)
  unfold handle
  rw [if_neg, if_neg, if_neg, getProto_of_mem_place hfitB hy ⟨by omega, by omega⟩]
  · rw [UInt64.lt_iff_toNat_lt, hwire]
    simp [baseProtocolLength]
    omega
  · rw [← UInt64.toNat_inj, hwire]
    simp [discMsg]
    omega
  · rw [← UInt64.toNat_inj, hwire]
    simp [pingMsg]
    omega

end Peers

/-- What consistent multiplexing asks of peers with the protocols `PA` and `PB`, on `PA`'s side: the
match is what it is for, the matched protocols take consecutive ranges from `baseProtocolLength` in
the order of their names, `getProto` finds for a code the one whose range holds it, and a message
written through one reaches the same protocol on the other side with its code. -/
structure Multiplexes (PA PB : List Protocol) : Prop where
  highest : Matches PA (PB.map Protocol.cap) (matched PA (PB.map Protocol.cap))
  consecutive : ∀ p x, (p, x) ∈ place plen 16 (matched PA (PB.map Protocol.cap)) →
    (matchProtocols PA (PB.map Protocol.cap)).lookup p.Name = some ⟨p, UInt64.ofNat x⟩ ∧ (UInt64.ofNat x).toNat = x
  getProto_unique : ∀ p x, (p, x) ∈ place plen 16 (matched PA (PB.map Protocol.cap)) →
    ∀ code : UInt64, x ≤ code.toNat → code.toNat < x + plen p →
      getProto (matchProtocols PA (PB.map Protocol.cap)) code = .ok ⟨p, UInt64.ofNat x⟩
  delivers : ∀ n rwA, (matchProtocols PA (PB.map Protocol.cap)).lookup n = some rwA →
    ∃ rwB, (matchProtocols PB (PA.map Protocol.cap)).lookup n = some rwB ∧ rwB.Protocol.cap = rwA.Protocol.cap ∧
      rwB.Protocol.Length = rwA.Protocol.Length ∧ rwB.offset = rwA.offset ∧
      ∀ c < rwA.Protocol.Length, ∃ wire, rwA.WriteMsg c = .ok wire ∧
        handle (matchProtocols PB (PA.map Protocol.cap)) wire = .ok (.deliver rwB) ∧ rwB.ReadMsg wire = c

theorem multiplexes_of_codes_fit {PA PB : List Protocol}
    (hlen : ∀ pa ∈ PA, ∀ pb ∈ PB, pa.cap = pb.cap → pa.Length = pb.Length)
    (hfit : 16 + total plen (matched PA (PB.map Protocol.cap)) < 2 ^ 64) : Multiplexes PA PB where
  highest := matched_matches PA (PB.map Protocol.cap)
  consecutive _ _ h := ⟨lookup_of_mem_place h, (toNat_ofNat_of_mem_place hfit h).1⟩
  getProto_unique _ _ h _ hlo hhi := getProto_of_mem_place hfit h ⟨hlo, hhi⟩
  delivers _ _ hA := WriteMsg_handle_ReadMsg hlen hfit hA

def ethProtocols : List Protocol := [⟨"eth", 63, 17⟩]

theorem multiplexes_eth :
    (∀ pa ∈ ethProtocols, ∀ pb ∈ ethProtocols, pa.cap = pb.cap → pa.Length = pb.Length) ∧
      16 + total plen (matched ethProtocols (ethProtocols.map Protocol.cap)) < 2 ^ 64 ∧
      Multiplexes ethProtocols ethProtocols := by
  have hlen : ∀ pa ∈ ethProtocols, ∀ pb ∈ ethProtocols, pa.cap = pb.cap → pa.Length = pb.Length := by decide
  have hfit : 16 + total plen (matched ethProtocols (ethProtocols.map Protocol.cap)) < 2 ^ 64 := by
    simp only [matched, sortCaps, ethProtocols, List.map_cons, List.map_nil, List.mergeSort_singleton]
    decide
  exact ⟨hlen, hfit, multiplexes_of_codes_fit hlen hfit⟩

/-- Two protocols whose codes do not fit in `uint64`. -/
def wrapping : List Protocol := [⟨"a", 1, 18446744073709551600⟩, ⟨"b", 1, 3⟩]

theorem sortCaps_wrapping : sortCaps (wrapping.map Protocol.cap) = wrapping.map Protocol.cap :=
  List.mergeSort_of_pairwise (by decide)

/-- The offset wraps around after the first protocol: the second starts at code 0, inside the base
protocol, so its code 2 arrives as a ping, and the first protocol's codes reach no protocol. -/
theorem matchProtocols_wraps_around :
    (matchProtocols wrapping (wrapping.map Protocol.cap)).lookup "a" = some ⟨⟨"a", 1, 18446744073709551600⟩, 16⟩ ∧
    (matchProtocols wrapping (wrapping.map Protocol.cap)).lookup "b" = some ⟨⟨"b", 1, 3⟩, 0⟩ ∧
    protoRW.WriteMsg ⟨⟨"a", 1, 18446744073709551600⟩, 16⟩ 0 = .ok 16 ∧
    handle (matchProtocols wrapping (wrapping.map Protocol.cap)) 16 = .error "msg code out of range: 16" ∧
    protoRW.WriteMsg ⟨⟨"b", 1, 3⟩, 0⟩ 2 = .ok 2 ∧
    handle (matchProtocols wrapping (wrapping.map Protocol.cap)) 2 = .ok .pong := by
  rw [matchProtocols, sortCaps_wrapping]
  decide

end EthereumAI.P2p
