import Mathlib

/-! # The nearest items of a stream

A list that keeps, by non-decreasing key, the `m` items of least key seen so far: each new item
goes in after the items of key at most its own, and the list is cut back to `m` items.
`Nearest key m xs L` says that `L` is such a list for the items `xs`; putting the next item in
its place and cutting keeps it so.
-/

namespace EthereumAI.Lib

variable {α β : Type*} [LinearOrder β] {key : α → β} {m i : ℕ} {x : α} {L S : List α}

namespace Nearest

theorem sorted_insert (hL : L.Pairwise fun a b => key a ≤ key b) (hle : ∀ y ∈ L.take i, key y ≤ key x)
    (hlt : ∀ y ∈ L.drop i, key x < key y) :
    (L.take i ++ x :: L.drop i).Pairwise fun a b => key a ≤ key b := by
  rw [← List.take_append_drop i L, List.pairwise_append] at hL
  obtain ⟨htake, hdrop, hacross⟩ := hL
  rw [List.pairwise_append, List.pairwise_cons]
  refine ⟨htake, ⟨fun y hy => (hlt y hy).le, hdrop⟩, ?_⟩
  intro a ha b hb
  rcases List.mem_cons.mp hb with rfl | hb
  · exact hle a ha
  · exact hacross a ha b hb

theorem key_take_le_drop (hS : S.Pairwise fun a b => key a ≤ key b) :
    ∀ y ∈ S.drop m, ∀ z ∈ S.take m, key z ≤ key y := by
  rw [← List.take_append_drop m S, List.pairwise_append] at hS
  intro y hy z hz
  exact hS.2.2 z hz y hy

end Nearest

variable [DecidableEq α] (key) {xs : List α}

/-- `L` holds, by non-decreasing key, `m` of the items of `xs` (all of them if there are
fewer), none farther than an item left out. -/
structure Nearest (m : ℕ) (xs L : List α) : Prop where
  sorted : L.Pairwise fun a b => key a ≤ key b
  sub : L.Subperm xs
  length : L.length = min m xs.length
  near : ∀ y ∈ (xs : Multiset α) - L, ∀ x ∈ L, key x ≤ key y

variable {key}

namespace Nearest

theorem nil : Nearest key m [] [] where
  sorted := List.Pairwise.nil
  sub := List.nil_subperm
  length := by simp
  near := by simp

theorem length_le (h : Nearest key m xs L) : L.length ≤ m := by
  have := h.length
  omega

theorem nodup (h : Nearest key m xs L) (hxs : xs.Nodup) : L.Nodup := by
  obtain ⟨l, hp, hs⟩ := h.sub
  exact hp.nodup_iff.mp (hxs.sublist hs)

theorem sub_take (hL : L.Subperm xs) (hS : S.Perm (x :: L)) :
    ((xs ++ [x] : List α) : Multiset α) - (S.take m : List α) = ((xs : Multiset α) - L) + (S.drop m : List α) := by
  have hle : (L : Multiset α) ≤ xs := Multiset.coe_le.mpr hL
  have hsplit : ((xs ++ [x] : List α) : Multiset α) = ((xs : Multiset α) - L) + (S.drop m : List α) + (S.take m : List α) := by
    calc ((xs ++ [x] : List α) : Multiset α)
        = ((xs : Multiset α) - L) + (x ::ₘ (L : Multiset α)) := by
          rw [Multiset.coe_eq_coe.mpr (List.perm_append_singleton x xs), ← Multiset.cons_coe,
            Multiset.add_cons, Multiset.sub_add_cancel hle]
      _ = ((xs : Multiset α) - L) + (S : Multiset α) := by rw [Multiset.coe_eq_coe.mpr hS]; rfl
      _ = ((xs : Multiset α) - L) + (S.drop m : List α) + (S.take m : List α) := by
          rw [Multiset.add_assoc, Multiset.coe_add, Multiset.coe_eq_coe.mpr List.perm_append_comm,
            List.take_append_drop]
  rw [hsplit, Multiset.add_sub_cancel_right]

/-- Putting the next item at the place `i` its key gives and cutting back to `m` keeps the
`m` nearest items. -/
theorem insert (h : Nearest key m xs L) (hi : i ≤ L.length) (hle : ∀ y ∈ L.take i, key y ≤ key x)
    (hlt : ∀ y ∈ L.drop i, key x < key y) :
    Nearest key m (xs ++ [x]) ((L.take i ++ x :: L.drop i).take m) := by
  have hperm : (L.take i ++ x :: L.drop i).Perm (x :: L) := by
    have hmid : (L.take i ++ x :: L.drop i).Perm (x :: (L.take i ++ L.drop i)) := List.perm_middle
    rwa [List.take_append_drop] at hmid
  have hsorted := sorted_insert h.sorted hle hlt
  constructor
  · exact hsorted.sublist (List.take_sublist _ _)
  · -- the kept items are among `x :: L`, and `L` among `xs`
    have hsub : (x :: L).Subperm (xs ++ [x]) :=
      ((List.subperm_cons x).mpr h.sub).trans (List.perm_append_singleton x xs).symm.subperm
    exact ((List.take_sublist _ _).subperm.trans hperm.subperm).trans hsub
  · have hlen := h.length
    rw [List.length_take, hperm.length_eq, List.length_cons, List.length_append, List.length_singleton]
    omega
  · rw [sub_take h.sub hperm]
    intro y hy z hz
    rcases Multiset.mem_add.mp hy with hy | hy
    · by_cases hzL : z ∈ L
      · exact h.near y hy z hzL
      -- `z` is the new item; an item was left out before, so `L` was full and `x` went in
      -- before one of its items
      · have hzx : z = x := by
          have := hperm.subset (List.mem_of_mem_take hz)
          simpa [hzL] using this
        rw [hzx]
        have hfull : L.length = m := by
          have hcard := Multiset.card_pos_iff_exists_mem.mpr ⟨y, hy⟩
          rw [Multiset.card_sub (Multiset.coe_le.mpr h.sub)] at hcard
          have := h.length
          simp only [Multiset.coe_card] at hcard
          omega
        by_cases hiL : i < L.length
        · have hw : L[i] ∈ L.drop i := by
            rw [List.drop_eq_getElem_cons hiL]
            exact List.mem_cons_self
          exact (hlt _ hw).le.trans (h.near y hy _ (List.getElem_mem hiL))
        · have hiL : i = L.length := by omega
          rw [hiL, List.take_length, List.drop_length, ← hfull, List.take_left' rfl] at hz
          exact absurd hz hzL
    · exact key_take_le_drop hsorted y (Multiset.mem_coe.mp hy) z hz

end Nearest

end EthereumAI.Lib
