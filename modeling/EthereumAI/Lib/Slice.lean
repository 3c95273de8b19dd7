import Mathlib

/-! # A slice that is a prefix of its backing array

Go code that keeps a slice `cases` as a prefix of another slice over the same backing array sees
each write through one in the other. Two such writes: swapping an element of the prefix with the
prefix's last one and cutting the prefix there (the element moves just past the prefix), and
deleting an element by shifting the rest left (the prefix loses the element if it held it, and
otherwise keeps its elements). The lemmas say what the prefix and the rest hold after each.
-/

namespace EthereumAI.Lib.Slice

open scoped List

variable {α : Type*}

/-- l[i], l[j] = l[j], l[i] -/
def swap (l : List α) (i j : ℕ) : List α :=
  match l[i]?, l[j]? with
  | some a, some b => (l.set i b).set j a
  | _, _ => l

theorem swap_eq {l : List α} {i j : ℕ} (hi : i < l.length) (hj : j < l.length) :
    swap l i j = (l.set i l[j]).set j l[i] := by
  simp [swap, List.getElem?_eq_getElem hi, List.getElem?_eq_getElem hj]

theorem length_swap (l : List α) (i j : ℕ) : (swap l i j).length = l.length := by
  unfold swap
  split <;> simp

theorem getElem?_swap_of_ne {l : List α} {i j k : ℕ} (hi : k ≠ i) (hj : k ≠ j) : (swap l i j)[k]? = l[k]? := by
  unfold swap
  split
  · rw [List.getElem?_set_ne (Ne.symm hj), List.getElem?_set_ne (Ne.symm hi)]
  · rfl

theorem swap_cons_succ (a : α) (l : List α) (i j : ℕ) : swap (a :: l) (i + 1) (j + 1) = a :: swap l i j := by
  unfold swap
  simp only [List.getElem?_cons_succ]
  split <;> simp

theorem swap_perm (l : List α) (i j : ℕ) : (swap l i j).Perm l := by
  by_cases h : i < l.length ∧ j < l.length
  · obtain ⟨hi, hj⟩ := h
    rw [swap_eq hi hj]
    have hj' : j < (l.set i l[j]).length := by simpa using hj
    have hsj : (l.set i l[j])[j] = l[j] := by
      rw [List.getElem_set]
      split_ifs with hij
      · subst hij
        rfl
      · rfl
    have herase : (l.set i l[j]).eraseIdx j ~ l.eraseIdx i := by
      have h1 := List.getElem_cons_eraseIdx_perm hj'
      rw [hsj] at h1
      exact (List.perm_cons _).mp (h1.trans (List.set_perm_cons_eraseIdx hi l[j]))
    calc (l.set i l[j]).set j l[i] ~ l[i] :: (l.set i l[j]).eraseIdx j := List.set_perm_cons_eraseIdx hj' _
      _ ~ l[i] :: l.eraseIdx i := herase.cons _
      _ ~ l := List.getElem_cons_eraseIdx_perm hi
  · unfold swap
    split
    · rename_i a b ha hb
      exact absurd ⟨(List.getElem?_eq_some_iff.mp ha).1, (List.getElem?_eq_some_iff.mp hb).1⟩ h
    · exact List.Perm.refl _

section Prefix

variable {l : List α} {n i : ℕ}

theorem drop_swap_last (hi : i < n) (hn : n ≤ l.length) :
    (swap l i (n - 1)).drop (n - 1) = l[i] :: l.drop n := by
  have hlast : n - 1 < (l.set i l[n - 1]).length := by simp; omega
  rw [swap_eq (by omega) (by omega), List.drop_set, if_neg (Nat.lt_irrefl _), Nat.sub_self,
    List.drop_eq_getElem_cons hlast, List.set_cons_zero, Nat.sub_add_cancel (by omega),
    List.drop_set_of_lt hi]

theorem take_swap_last_perm (hi : i < n) (hn : n ≤ l.length) :
    ((swap l i (n - 1)).take (n - 1) ++ [l[i]]).Perm (l.take n) := by
  have hall := swap_perm l i (n - 1)
  rw [← List.take_append_drop (n - 1) (swap l i (n - 1)), drop_swap_last hi hn] at hall
  have hl : (l.take n ++ l.drop n) ~ l := by rw [List.take_append_drop]
  rw [← List.perm_append_right_iff (l.drop n)]
  simpa using hall.trans hl.symm

theorem drop_eraseIdx_of_lt {k : ℕ} (hk : k < n) (hn : n ≤ l.length) :
    (l.eraseIdx k).drop (n - 1) = l.drop n := by
  rw [List.eraseIdx_eq_take_drop_succ, List.drop_append, List.length_take, List.drop_drop]
  have hk' : min k l.length ≤ n - 1 := by omega
  rw [List.drop_eq_nil_of_le (by rw [List.length_take]; exact hk'), List.nil_append]
  congr 1
  omega

theorem take_eraseIdx_perm_of_lt {k : ℕ} (hk : k < n) (hn : n ≤ l.length) :
    ((l.eraseIdx k).take (n - 1) ++ [l[k]]) ~ l.take n := by
  have hall := List.getElem_cons_eraseIdx_perm (show k < l.length by omega)
  rw [← List.take_append_drop (n - 1) (l.eraseIdx k), drop_eraseIdx_of_lt hk hn] at hall
  have hl : (l.take n ++ l.drop n) ~ l := by rw [List.take_append_drop]
  rw [← List.perm_append_right_iff (l.drop n)]
  simpa using List.perm_middle.trans (hall.trans hl.symm)

theorem take_eraseIdx_of_le {k : ℕ} (hk : n ≤ k) : (l.eraseIdx k).take n = l.take n := by
  rw [List.eraseIdx_eq_take_drop_succ, List.take_append, List.take_take, List.length_take]
  by_cases hl : k ≤ l.length
  · rw [Nat.min_eq_left hk, Nat.min_eq_left hl, Nat.sub_eq_zero_of_le hk, List.take_zero,
      List.append_nil]
  · rw [List.drop_eq_nil_of_le (by omega), List.take_nil, List.append_nil, Nat.min_eq_left hk]

theorem drop_eraseIdx_perm_of_le {k : ℕ} (hk : n ≤ k) (hkl : k < l.length) :
    ((l.eraseIdx k).drop n ++ [l[k]]) ~ l.drop n := by
  have hall := List.getElem_cons_eraseIdx_perm hkl
  rw [← List.take_append_drop n (l.eraseIdx k), take_eraseIdx_of_le hk] at hall
  have hl : (l.take n ++ l.drop n) ~ l := by rw [List.take_append_drop]
  rw [← List.perm_append_left_iff (l.take n)]
  exact (List.perm_append_comm.append_left _).trans (List.perm_middle.trans (hall.trans hl.symm))

end Prefix

end EthereumAI.Lib.Slice
