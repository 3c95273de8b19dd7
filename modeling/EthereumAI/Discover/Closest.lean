import EthereumAI.Discover.Distinct
import EthereumAI.Lib.SortSearch
import EthereumAI.Lib.Nearest
import EthereumAI.Lib.BigEndian

/-! # The nodes closest to a target (`Table.closest`, `nodesByDistance`)

`closest` pushes every entry of the table, bucket by bucket, into a `nodesByDistance`: a list
kept by distance to the target and cut to `nresults`. `push` finds the place of the node by a
binary search for the first entry farther than it, appends the node if the list is not full,
and slides the entries from that place one up, over the entry just appended.

`distcmp` compares the bytes of `a ^ target` and `b ^ target` from the first one on, which is
the comparison of the two XOR distances as numbers. So the list always holds, by
non-decreasing distance, the `maxElems` nodes nearest to the target among those pushed, and
`closest` the `nresults` entries nearest to the target, each once since the table holds no node
twice.
-/

namespace EthereumAI.Discover

open Lib

/-! ## Distance -/

/-- The loop of `distcmp` over the bytes of the target, `a` and `b`. -/
def distcmpLoop : Bytes → Bytes → Bytes → ℤ
  | t :: ts, a :: as, b :: bs =>
    let da := a ^^^ t
    let db := b ^^^ t
    if da > db then 1 else if da < db then -1 else distcmpLoop ts as bs
  | _, _, _ => 0

/-- `distcmp`: `-1` if `a` is closer to `target`, `1` if `b` is, `0` if they are as close. -/
def distcmp (target a b : Hash) : ℤ := distcmpLoop (hashBytesOf target) (hashBytesOf a) (hashBytesOf b)

/-- The XOR distance of `a` from `target`, as a number. -/
def xorDistance (target a : Hash) : ℕ := a.val ^^^ target.val

/-- The loop compares the numbers that the exclusive ors write. -/
theorem distcmpLoop_eq : ∀ {ts as bs : Bytes}, as.length = ts.length → bs.length = ts.length →
    let u := BigEndian.value (List.zipWith (· ^^^ ·) as ts)
    let v := BigEndian.value (List.zipWith (· ^^^ ·) bs ts)
    distcmpLoop ts as bs = if u > v then 1 else if u < v then -1 else 0
  | [], [], [], _, _ => by simp [distcmpLoop, BigEndian.value]
  | t :: ts, a :: as, b :: bs, ha, hb => by
    have ha : as.length = ts.length := by simpa using ha
    have hb : bs.length = ts.length := by simpa using hb
    have hl : (List.zipWith (· ^^^ ·) as ts).length = (List.zipWith (· ^^^ ·) bs ts).length := by
      simp [ha, hb]
    dsimp only
    rw [distcmpLoop, List.zipWith_cons_cons, List.zipWith_cons_cons]
    by_cases hgt : a ^^^ t > b ^^^ t
    · rw [if_pos hgt, if_pos (BigEndian.value_cons_lt_cons hl.symm hgt)]
    by_cases hlt : a ^^^ t < b ^^^ t
    · rw [if_neg hgt, if_pos hlt, if_neg (BigEndian.value_cons_lt_cons hl hlt).not_gt,
        if_pos (BigEndian.value_cons_lt_cons hl hlt)]
    have heq : a ^^^ t = b ^^^ t := by
      apply UInt8.toNat.inj
      have h₁ := mt UInt8.lt_iff_toNat_lt.mpr hgt
      have h₂ := mt UInt8.lt_iff_toNat_lt.mpr hlt
      omega
    rw [if_neg hgt, if_neg hlt, distcmpLoop_eq ha hb, heq]
    simp only [gt_iff_lt, BigEndian.value_cons_lt_cons_iff hl, BigEndian.value_cons_lt_cons_iff hl.symm]
  | [], _ :: _, _, h, _ | [], [], _ :: _, _, h | _ :: _, [], _, h, _ | _ :: _, _ :: _, [], _, h => by
    simp at h

theorem value_xor_hashBytesOf (target a : Hash) :
    BigEndian.value (List.zipWith (· ^^^ ·) (hashBytesOf a) (hashBytesOf target)) = xorDistance target a := by
  have hbytes (h : Hash) : hashBytesOf h = BigEndian.bytes 32 h.val := rfl
  have hlt : a.val ^^^ target.val < 256 ^ 32 := Nat.xor_lt_two_pow a.isLt target.isLt
  rw [hbytes, hbytes, BigEndian.zipWith_xor_bytes, BigEndian.value_bytes, Nat.mod_eq_of_lt hlt, xorDistance]

theorem distcmp_eq (target a b : Hash) :
    distcmp target a b =
      if xorDistance target a > xorDistance target b then 1
      else if xorDistance target a < xorDistance target b then -1 else 0 := by
  have hlen (h : Hash) : (hashBytesOf h).length = 32 := by simp [hashBytesOf]
  have hloop := distcmpLoop_eq (hlen a |>.trans (hlen target).symm) (hlen b |>.trans (hlen target).symm)
  rw [distcmp, hloop]
  simp only [value_xor_hashBytesOf]

theorem distcmp_pos_iff (target a b : Hash) : 0 < distcmp target a b ↔ xorDistance target b < xorDistance target a := by
  rw [distcmp_eq]
  split_ifs <;> omega

/-! ## `nodesByDistance` -/

/-- `nodesByDistance`. -/
structure nodesByDistance where
  entries : List Node
  target : Hash

/-- `copy(s[i+1:], s[i:])`: the items from `i` on moved one place up, as many as fit before the
end of `s`; the item at `i` stays. -/
def shiftUp {α : Type} (s : List α) (i : ℕ) : List α := s.take (i + 1) ++ (s.drop i).take (s.length - (i + 1))

/-- `nodesByDistance.push`. -/
def nodesByDistance.push (h : nodesByDistance) (n : Node) (maxElems : ℕ) : nodesByDistance :=
  let ix := Sort.Search h.entries.length fun i => (h.entries[i]?).any fun e => distcmp h.target e.sha n.sha > 0
  let entries := if h.entries.length < maxElems then h.entries ++ [n] else h.entries
  -- farther away than all nodes already there: if there was room, `n` is now the last one
  if ix = entries.length then { h with entries := entries }
  -- slide existing entries down to make room, over the entry just appended
  else { h with entries := (shiftUp entries ix).set ix n }

/-- `closest`: every entry of every bucket pushed, with room for `nresults`. -/
def Table.closest (tab : Table) (target : Hash) (nresults : ℕ) : nodesByDistance :=
  (List.finRange nBuckets).foldl (fun close b =>
    (tab.buckets b).entries.foldl (fun close n => close.push n nresults) close) ⟨[], target⟩

theorem shiftUp_set {α : Type} {s : List α} {i : ℕ} (hi : i < s.length) (x : α) :
    (shiftUp s i).set i x = s.take i ++ x :: (s.drop i).take (s.length - (i + 1)) := by
  have htake : s.take (i + 1) = s.take i ++ [s[i]] := by
    rw [List.take_add_one, List.getElem?_eq_getElem hi, Option.toList_some]
  have hlen : (s.take i).length = i := List.length_take_of_le hi.le
  rw [shiftUp, htake, List.set_append_left _ _ (by simp; omega),
    List.set_append_right _ _ hlen.le, hlen, Nat.sub_self, List.append_assoc]
  rfl

section Push

variable {L : List Node} {t : Hash} {n : Node} {m ix : ℕ}

/-- The distance `push` orders by. -/
abbrev byDistance (target : Hash) (e : Node) : ℕ := xorDistance target e.sha

/-- In a sorted list the search in `push` finds the first entry farther than `n`. -/
theorem push_search (hs : L.Pairwise fun a b => byDistance t a ≤ byDistance t b)
    (hsearch : Sort.Search L.length (fun i => (L[i]?).any fun e => distcmp t e.sha n.sha > 0) = ix) :
    ix ≤ L.length ∧ (∀ y ∈ L.take ix, byDistance t y ≤ byDistance t n) ∧
      ∀ y ∈ L.drop ix, byDistance t n < byDistance t y := by
  have hf : ∀ k (hk : k < L.length),
      ((L[k]?).any fun e => distcmp t e.sha n.sha > 0) = decide (byDistance t n < byDistance t L[k]) := by
    intro k hk
    simp only [List.getElem?_eq_getElem hk, Option.any_some, gt_iff_lt, distcmp_pos_iff]
  have hmono : Sort.Monotone L.length fun i => (L[i]?).any fun e => distcmp t e.sha n.sha > 0 := by
    intro a b hab hb ha
    simp only [hf a (by omega), decide_eq_true_eq] at ha
    simp only [hf b hb, decide_eq_true_eq]
    rcases hab.lt_or_eq with hab | rfl
    · exact lt_of_lt_of_le ha (List.pairwise_iff_getElem.mp hs a b (by omega) hb hab)
    · exact ha
  obtain ⟨hle, hiff⟩ := Sort.Search_spec hmono
  rw [hsearch] at hle hiff
  refine ⟨hle, ?_, ?_⟩
  · intro y hy
    obtain ⟨j, hj, rfl⟩ := List.mem_iff_getElem.mp hy
    have hjL : j < L.length := by simp at hj; omega
    have hfalse := mt (hiff j hjL).mp (by simp at hj; omega)
    simp only [hf j hjL, decide_eq_true_eq, not_lt] at hfalse
    rw [List.getElem_take]
    exact hfalse
  · intro y hy
    obtain ⟨j, hj, rfl⟩ := List.mem_iff_getElem.mp hy
    have hjL : ix + j < L.length := by simp at hj; omega
    have htrue := (hiff (ix + j) hjL).mpr (by omega)
    simp only [hf _ hjL, decide_eq_true_eq] at htrue
    rw [List.getElem_drop]
    exact htrue

/-- What `push` leaves, for a list of at most `maxElems` entries: `n` put at the place the
search finds, cut back to `maxElems`. -/
theorem push_entries (hl : L.length ≤ m) (hix : ix ≤ L.length)
    (hsearch : Sort.Search L.length (fun i => (L[i]?).any fun e => distcmp t e.sha n.sha > 0) = ix) :
    ((⟨L, t⟩ : nodesByDistance).push n m).entries = (L.take ix ++ n :: L.drop ix).take m := by
  unfold nodesByDistance.push
  dsimp only
  rw [hsearch]
  by_cases hroom : L.length < m
  · -- `n` appended, then moved to its place
    have hlen : (L ++ [n]).length = L.length + 1 := by rw [List.length_append, List.length_singleton]
    have hne : ix ≠ (L ++ [n]).length := by omega
    have htail : ((L ++ [n]).drop ix).take ((L ++ [n]).length - (ix + 1)) = L.drop ix := by
      rw [List.drop_append_of_le_length hix, hlen, Nat.add_sub_add_right]
      exact List.take_left' (by rw [List.length_drop])
    rw [if_pos hroom, if_neg hne, shiftUp_set (by omega), htail, List.take_append_of_le_length hix]
    exact (List.take_of_length_le (by simp; omega)).symm
  · have hfull : L.length = m := by omega
    rw [if_neg hroom]
    by_cases hend : ix = L.length
    · -- farther than every entry of a full list: left out
      rw [if_pos hend, hend, List.take_length, List.drop_length, List.take_left' hfull]
    · have hm : m - ix = m - (ix + 1) + 1 := by omega
      have htake : (L.take ix ++ n :: L.drop ix).take m = L.take ix ++ n :: (L.drop ix).take (m - (ix + 1)) := by
        rw [List.take_append, List.take_take, Nat.min_eq_right (by omega), List.length_take_of_le hix, hm,
          List.take_succ_cons]
      rw [if_neg hend, shiftUp_set (by omega), htake, hfull]

variable {h : nodesByDistance}

theorem push_nearest {xs : List Node} (hN : Nearest (byDistance h.target) m xs h.entries) :
    Nearest (byDistance h.target) m (xs ++ [n]) (h.push n m).entries := by
  obtain ⟨L, t⟩ := h
  obtain ⟨hix, hle, hlt⟩ := push_search (n := n) hN.sorted rfl
  rw [push_entries hN.length_le hix rfl]
  exact hN.insert hix hle hlt

@[simp]
theorem push_target : (h.push n m).target = h.target := by
  unfold nodesByDistance.push
  dsimp only
  split_ifs <;> rfl

theorem foldl_push_nearest (ns : List Node) :
    ∀ (h : nodesByDistance) (xs : List Node), Nearest (byDistance h.target) m xs h.entries →
      (ns.foldl (fun h n => h.push n m) h).target = h.target ∧
        Nearest (byDistance h.target) m (xs ++ ns) (ns.foldl (fun h n => h.push n m) h).entries := by
  induction ns with
  | nil => intro h xs hN; simpa using hN
  | cons n ns ih =>
    intro h xs hN
    obtain ⟨ht, hN'⟩ := ih (h.push n m) (xs ++ [n]) (by rw [push_target]; exact push_nearest hN)
    rw [push_target] at ht hN'
    simpa using And.intro ht hN'

end Push

theorem closest_eq (tab : Table) (target : Hash) (nresults : ℕ) :
    tab.closest target nresults = tab.allEntries.foldl (fun close n => close.push n nresults) ⟨[], target⟩ := by
  rw [Table.closest, Table.allEntries, List.foldl_flatMap]

theorem closest_nearest (tab : Table) (target : Hash) (nresults : ℕ) :
    (tab.closest target nresults).target = target ∧
      Nearest (byDistance target) nresults tab.allEntries (tab.closest target nresults).entries := by
  rw [closest_eq]
  have := foldl_push_nearest (m := nresults) tab.allEntries ⟨[], target⟩ [] Nearest.nil
  simpa using this

theorem closest_returns_nearest :
    (∀ (tab : Table) (target : Hash) (nresults : ℕ),
      (tab.closest target nresults).target = target ∧
        Nearest (fun n => xorDistance target n.sha) nresults tab.allEntries (tab.closest target nresults).entries) ∧
    (∀ (self : Node) (ops : List Op) (target : Hash) (nresults : ℕ),
      (((newTable self).run ops).closest target nresults).entries.Nodup) ∧
    ∀ (target : Hash) (maxElems : ℕ) (nodes : List Node),
      Nearest (fun n => xorDistance target n.sha) maxElems nodes
        (nodes.foldl (fun (h : nodesByDistance) n => h.push n maxElems) ⟨[], target⟩).entries := by
  refine ⟨closest_nearest, ?_, ?_⟩
  · -- the tables the calls build hold no node twice
    intro self ops target nresults
    exact (closest_nearest _ target nresults).2.nodup ((newTable_distinct self).run ops).allEntries_nodup
  · intro target maxElems nodes
    simpa using (foldl_push_nearest (m := maxElems) nodes ⟨[], target⟩ [] Nearest.nil).2

end EthereumAI.Discover
