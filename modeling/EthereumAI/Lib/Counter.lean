import EthereumAI.Lib.AListValues

/-! # Counters in a Go map

A `map[K]int` read with its default `0`, incremented by writing the new count and decremented by
`m[k]--` followed by a `delete` when the count reaches zero. The lemmas say how each operation
changes the count of every key, and how inserting or erasing an entry changes the number of values
a predicate holds of.
-/

namespace EthereumAI.Lib.Counter

variable {α β : Type} [DecidableEq α]

/-- `m[k]`, with the zero of a missing key. -/
def get (m : AList (fun _ : α => ℤ)) (k : α) : ℤ := (m.lookup k).getD 0

/-- `m[k]--`, and `delete(m, k)` when it reaches zero. -/
def decr (m : AList (fun _ : α => ℤ)) (k : α) : AList (fun _ : α => ℤ) :=
  if get m k - 1 = 0 then m.erase k else m.insert k (get m k - 1)

@[simp] theorem get_empty (k : α) : get (∅ : AList (fun _ : α => ℤ)) k = 0 := rfl

theorem get_insert (m : AList (fun _ : α => ℤ)) (k j : α) (c : ℤ) :
    get (m.insert k c) j = if j = k then c else get m j := by
  by_cases h : j = k
  · subst h
    simp [get]
  · simp [get, AList.lookup_insert_ne h, h]

theorem get_decr (m : AList (fun _ : α => ℤ)) (k j : α) :
    get (decr m k) j = get m j - if k = j then 1 else 0 := by
  unfold decr
  by_cases h : j = k
  · subst h
    rw [if_pos rfl]
    split_ifs with h0
    · simp only [get, AList.lookup_erase, Option.getD_none]
      unfold get at h0
      omega
    · simp [get]
  · rw [if_neg (Ne.symm h), Int.sub_zero]
    split_ifs
    · simp [get, AList.lookup_erase_ne h]
    · simp [get, AList.lookup_insert_ne h]

theorem get_foldl_decr {γ : Type} (f : γ → α) (l : List γ) (m : AList (fun _ : α => ℤ)) (j : α) :
    get (l.foldl (fun m a => decr m (f a)) m) j = get m j - l.countP (fun a => f a = j) := by
  induction l generalizing m with
  | nil => simp
  | cons a l ih =>
    rw [List.foldl_cons, ih, get_decr, List.countP_cons]
    by_cases h : f a = j
    · simp [h]
      omega
    · simp [h]

theorem countP_values_insert_of_not_mem (s : AList (fun _ : α => β)) {a : α} (h : a ∉ s) (b : β) (p : β → Bool) :
    (values (s.insert a b)).countP p = (values s).countP p + if p b then 1 else 0 := by
  rw [values, AList.entries_insert_of_notMem h, List.map_cons, List.countP_cons]
  rfl

theorem countP_values_erase {s : AList (fun _ : α => β)} {a : α} {b : β} (h : s.lookup a = some b) (p : β → Bool) :
    (values s).countP p = (values (s.erase a)).countP p + if p b then 1 else 0 := by
  rw [(values_erase h).countP_eq, List.countP_cons]

end EthereumAI.Lib.Counter
