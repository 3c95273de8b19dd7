import Mathlib

/-! # Binary heaps on a slice

Go's `container/heap` over a slice given as a list and a `Less` given as a Boolean function.
`Init`, `Push`, `Pop`, `Remove` and `Fix` are the package's functions, with the slice's own
`Push` and `Pop` appending and taking the last element as every heap of the repository
defines them. Each of them permutes the slice, and for a `Less` that is a strict weak order
each keeps the heap property: no element is less than its parent. The root is then not
greater than any element, so `Pop` returns a least one.

The loops of `up` and `down` carry fuel, enough for every run, so that the functions compute.
-/

namespace EthereumAI.Lib.Heap

variable {α : Type}

section Model

variable (less : α → α → Bool)

/-- The parent of a position; the root is its own. -/
def parent (j : ℕ) : ℕ := (j - 1) / 2

/-- The slice's `Less(i, j)`; a position out of range is never less. -/
def lessAt (h : List α) (i j : ℕ) : Bool :=
  match h[i]?, h[j]? with
  | some a, some b => less a b
  | _, _ => false

/-- The slice's `Swap(i, j)`, which does nothing out of range. -/
def swap (h : List α) (i j : ℕ) : List α :=
  if hi : i < h.length then
    if hj : j < h.length then (h.set i h[j]).set j h[i] else h
  else h

/-- The loop of `up`: each turn moves `j` to its parent, so `j` turns are enough. -/
def upLoop : ℕ → List α → ℕ → List α
  | 0, h, _ => h
  | fuel + 1, h, j =>
    if parent j = j ∨ lessAt less h j (parent j) = false then h
    else upLoop fuel (swap h (parent j) j) (parent j)

/-- The element at `j` moves up while it is less than its parent. -/
def up (h : List α) (j : ℕ) : List α := upLoop less j h j

/-- The child of `i` that `down` compares with: the right one when it is below `n` and less
than the left one. -/
def child (h : List α) (n i : ℕ) : ℕ :=
  if 2 * i + 2 < n ∧ lessAt less h (2 * i + 2) (2 * i + 1) = true then 2 * i + 2 else 2 * i + 1

/-- The loop of `down` over the first `n` positions: each turn moves `i` to a child below `n`,
so `n - i` turns are enough. It returns the slice and where `i` stopped. -/
def downLoop (n : ℕ) : ℕ → List α → ℕ → List α × ℕ
  | 0, h, i => (h, i)
  | fuel + 1, h, i =>
    let j := child less h n i
    if n ≤ 2 * i + 1 ∨ lessAt less h j i = false then (h, i)
    else downLoop n fuel (swap h i j) j

/-- The element at `i0` moves down among the first `n` positions while a child is less; the
flag says whether it moved. -/
def down (h : List α) (i0 n : ℕ) : List α × Bool :=
  let r := downLoop less n n h i0
  (r.1, decide (i0 < r.2))

/-- `if !down(h, i, n) { up(h, i) }`, which `Remove` and `Fix` share. -/
def sift (h : List α) (i n : ℕ) : List α :=
  let r := down less h i n
  if r.2 then r.1 else up less r.1 i

/-- The loop of `Init`: `down` at `i - 1`, ..., `0`. -/
def initLoop (n : ℕ) : ℕ → List α → List α
  | 0, h => h
  | i + 1, h => initLoop n i (down less h i n).1

def Init (h : List α) : List α := initLoop less h.length (h.length / 2) h

def Push (h : List α) (x : α) : List α := up less (h ++ [x]) h.length

/-- The slice's `Pop`: its last element and the rest; `none` where Go would panic. -/
def popLast (h : List α) : Option (α × List α) :=
  h.getLast?.map fun x => (x, h.dropLast)

def Pop (h : List α) : Option (α × List α) :=
  popLast ((down less (swap h 0 (h.length - 1)) 0 (h.length - 1)).1)

def Remove (h : List α) (i : ℕ) : Option (α × List α) :=
  popLast (if h.length - 1 = i then h else sift less (swap h i (h.length - 1)) i (h.length - 1))

def Fix (h : List α) (i : ℕ) : List α := sift less h i h.length

/-- The element at `k` is not less than its parent's. -/
def OrderedAt (h : List α) (k : ℕ) : Prop := lessAt less h k (parent k) = false

/-- The heap property among the first `n` positions, for the positions whose parent is at
least `f`: the subtrees of `f`, `f + 1`, ... are heaps. -/
def HeapFrom (h : List α) (n f : ℕ) : Prop :=
  ∀ k, 0 < k → k < n → f ≤ parent k → OrderedAt less h k

def IsHeap (h : List α) : Prop := HeapFrom less h h.length 0

/-- What the heap needs of `Less`: it is asymmetric, and not being less is transitive. -/
structure StrictWeak : Prop where
  asymm : ∀ a b, less a b = true → less b a = false
  not_trans : ∀ a b c, less a b = false → less b c = false → less a c = false

/-- What `up` needs at `j` among the first `n` positions: every other position is in order with
its parent, and `j`'s children are not less than `j`'s parent. -/
structure UpOrder (h : List α) (n j : ℕ) : Prop where
  except : ∀ k, 0 < k → k < n → k ≠ j → OrderedAt less h k
  grand : 0 < j → ∀ c, 0 < c → c < n → parent c = j → lessAt less h c (parent j) = false

/-- What `down` needs at `i` among the first `n` positions, for the subtrees from `f` on: every
position whose parent is at least `f` and not `i` is in order with its parent, and once `i` is
past `f`, `i`'s children are not less than `i`'s parent. -/
structure DownOrder (h : List α) (n f i : ℕ) : Prop where
  except : ∀ k, 0 < k → k < n → f ≤ parent k → parent k ≠ i → OrderedAt less h k
  grand : f < i → ∀ c, 0 < c → c < n → parent c = i → lessAt less h c (parent i) = false

end Model

/-! ## Positions -/

theorem parent_lt {j : ℕ} (hj : 0 < j) : parent j < j := by
  unfold parent
  omega

theorem parent_eq_iff {c i : ℕ} (hc : 0 < c) : parent c = i ↔ c = 2 * i + 1 ∨ c = 2 * i + 2 := by
  unfold parent
  omega

theorem parent_eq_self_iff {j : ℕ} : parent j = j ↔ j = 0 := by
  unfold parent
  omega

theorem parent_le (j : ℕ) : parent j ≤ j := by
  unfold parent
  omega

/-! ## The slice -/

section Slice

variable {less : α → α → Bool} {h : List α}

@[simp] theorem length_swap (h : List α) (i j : ℕ) : (swap h i j).length = h.length := by
  unfold swap
  split_ifs <;> simp

theorem swap_perm (h : List α) (i j : ℕ) : (swap h i j).Perm h := by
  unfold swap
  split_ifs with hi hj
  · exact List.set_set_perm hi hj
  · exact .refl h
  · exact .refl h

theorem getElem?_swap {i j : ℕ} (hi : i < h.length) (hj : j < h.length) (k : ℕ) :
    (swap h i j)[k]? = if k = j then h[i]? else if k = i then h[j]? else h[k]? := by
  simp only [swap, hi, hj, dite_true, List.getElem?_set, List.length_set]
  by_cases hkj : k = j
  · simp [hkj, List.getElem?_eq_getElem hi]
  · by_cases hki : k = i
    · subst hki
      simp [hkj, Ne.symm hkj, List.getElem?_eq_getElem hj]
    · simp [Ne.symm hkj, Ne.symm hki, hkj, hki]

theorem getElem?_swap_left {i j : ℕ} (hi : i < h.length) (hj : j < h.length) :
    (swap h i j)[i]? = h[j]? := by
  rw [getElem?_swap hi hj]
  by_cases hij : i = j
  · subst hij
    simp
  · simp [hij]

theorem getElem?_swap_right {i j : ℕ} (hi : i < h.length) (hj : j < h.length) :
    (swap h i j)[j]? = h[i]? := by
  simp [getElem?_swap hi hj]

theorem getElem?_swap_of_ne {i j k : ℕ} (hki : k ≠ i) (hkj : k ≠ j) : (swap h i j)[k]? = h[k]? := by
  unfold swap
  split_ifs <;> simp [Ne.symm hki, Ne.symm hkj]

theorem lessAt_congr {h' : List α} {a b a' b' : ℕ} (ha : h'[a]? = h[a']?) (hb : h'[b]? = h[b']?) :
    lessAt less h' a b = lessAt less h a' b' := by
  simp only [lessAt, ha, hb]

theorem lessAt_eq {a b : ℕ} {x y : α} (ha : h[a]? = some x) (hb : h[b]? = some y) :
    lessAt less h a b = less x y := by
  simp only [lessAt, ha, hb]

theorem lt_length_of_lessAt {a b : ℕ} (hab : lessAt less h a b = true) : a < h.length ∧ b < h.length := by
  unfold lessAt at hab
  split at hab
  · rename_i x y ha hb
    exact ⟨(List.getElem?_eq_some_iff.1 ha).1, (List.getElem?_eq_some_iff.1 hb).1⟩
  · cases hab

theorem lessAt_of_length_le {a b : ℕ} (ha : h.length ≤ a) : lessAt less h a b = false := by
  simp [lessAt, List.getElem?_eq_none ha]

end Slice

/-! ## The order -/

namespace StrictWeak

variable {less : α → α → Bool} (hs : StrictWeak less) {h : List α} {a b c : ℕ}
include hs

theorem irrefl (x : α) : less x x = false := by
  cases hx : less x x
  · rfl
  · have := hs.asymm x x hx
    rw [hx] at this
    exact this

theorem trans {x y z : α} (hxy : less x y = true) (hyz : less y z = true) : less x z = true := by
  cases hxz : less x z
  · -- `x` not less than `z` and `z` not less than `y` would make `x` not less than `y`
    have hxy' := hs.not_trans x z y hxz (hs.asymm y z hyz)
    rw [hxy] at hxy'
    cases hxy'
  · rfl

theorem lessAt_asymm (hab : lessAt less h a b = true) : lessAt less h b a = false := by
  obtain ⟨ha, hb⟩ := lt_length_of_lessAt hab
  rw [lessAt_eq (List.getElem?_eq_getElem ha) (List.getElem?_eq_getElem hb)] at hab
  rw [lessAt_eq (List.getElem?_eq_getElem hb) (List.getElem?_eq_getElem ha)]
  exact hs.asymm _ _ hab

theorem lessAt_irrefl (a : ℕ) : lessAt less h a a = false := by
  unfold lessAt
  split
  · rename_i x y ha hb
    rw [ha] at hb
    cases hb
    exact hs.irrefl x
  · rfl

theorem lessAt_not_trans (hb : b < h.length) (hab : lessAt less h a b = false)
    (hbc : lessAt less h b c = false) : lessAt less h a c = false := by
  cases hac : lessAt less h a c
  · rfl
  · obtain ⟨ha, hc⟩ := lt_length_of_lessAt hac
    rw [lessAt_eq (List.getElem?_eq_getElem ha) (List.getElem?_eq_getElem hb)] at hab
    rw [lessAt_eq (List.getElem?_eq_getElem hb) (List.getElem?_eq_getElem hc)] at hbc
    rw [lessAt_eq (List.getElem?_eq_getElem ha) (List.getElem?_eq_getElem hc)] at hac
    rw [hs.not_trans _ _ _ hab hbc] at hac
    exact hac.symm

theorem lessAt_trans (hab : lessAt less h a b = true) (hbc : lessAt less h b c = true) :
    lessAt less h a c = true := by
  obtain ⟨ha, hb⟩ := lt_length_of_lessAt hab
  obtain ⟨-, hc⟩ := lt_length_of_lessAt hbc
  rw [lessAt_eq (List.getElem?_eq_getElem ha) (List.getElem?_eq_getElem hb)] at hab
  rw [lessAt_eq (List.getElem?_eq_getElem hb) (List.getElem?_eq_getElem hc)] at hbc
  rw [lessAt_eq (List.getElem?_eq_getElem ha) (List.getElem?_eq_getElem hc)]
  exact hs.trans hab hbc

end StrictWeak

/-! ## Children -/

section Child

variable {less : α → α → Bool} {h : List α} {n i : ℕ}

theorem child_cases (less : α → α → Bool) (h : List α) (n i : ℕ) :
    child less h n i = 2 * i + 1 ∨ child less h n i = 2 * i + 2 := by
  unfold child
  split_ifs <;> simp

theorem parent_child : parent (child less h n i) = i := by
  rcases child_cases less h n i with hc | hc <;> rw [hc, parent_eq_iff (by omega)] <;> simp

theorem lt_child : i < child less h n i := by
  rcases child_cases less h n i with hc | hc <;> omega

theorem child_lt (hc : 2 * i + 1 < n) : child less h n i < n := by
  unfold child
  split_ifs with hr
  · exact hr.1
  · exact hc

theorem StrictWeak.lessAt_child (hs : StrictWeak less) {c : ℕ} (hc : 0 < c) (hcn : c < n)
    (hpc : parent c = i) : lessAt less h c (child less h n i) = false := by
  rcases (parent_eq_iff hc).1 hpc with rfl | rfl <;> unfold child <;> split_ifs with hr
  · exact hs.lessAt_asymm hr.2
  · exact hs.lessAt_irrefl _
  · exact hs.lessAt_irrefl _
  · simp only [not_and, Bool.not_eq_true] at hr
    exact hr hcn

end Child

/-! ## The loops permute the slice -/

section Perm

variable {less : α → α → Bool} {n : ℕ}

theorem upLoop_perm (fuel : ℕ) (h : List α) (j : ℕ) : (upLoop less fuel h j).Perm h := by
  induction fuel generalizing h j with
  | zero => exact .refl h
  | succ fuel ih =>
    rw [upLoop]
    split_ifs
    · exact .refl h
    · exact (ih _ _).trans (swap_perm h _ _)

theorem upLoop_getElem?_of_lt (fuel : ℕ) (h : List α) {j k : ℕ} (hjk : j < k) :
    (upLoop less fuel h j)[k]? = h[k]? := by
  induction fuel generalizing h j with
  | zero => rfl
  | succ fuel ih =>
    rw [upLoop]
    split_ifs
    · rfl
    · have := parent_le j
      rw [ih _ (by omega), getElem?_swap_of_ne (by omega) (by omega)]

theorem downLoop_perm (fuel : ℕ) (h : List α) (i : ℕ) : (downLoop less n fuel h i).1.Perm h := by
  induction fuel generalizing h i with
  | zero => exact .refl h
  | succ fuel ih =>
    rw [downLoop]
    split_ifs
    · exact .refl h
    · exact (ih _ _).trans (swap_perm h _ _)

theorem downLoop_getElem?_of_le (fuel : ℕ) (h : List α) (i : ℕ) {k : ℕ} (hk : n ≤ k) :
    (downLoop less n fuel h i).1[k]? = h[k]? := by
  induction fuel generalizing h i with
  | zero => rfl
  | succ fuel ih =>
    rw [downLoop]
    split_ifs with hstop
    · rfl
    · simp only [not_or, Nat.not_le] at hstop
      have : child less h n i < n := child_lt hstop.1
      have : i < child less h n i := lt_child
      rw [ih, getElem?_swap_of_ne (by omega) (by omega)]

theorem downLoop_of_stop (fuel : ℕ) {h : List α} {i : ℕ}
    (hstop : n ≤ 2 * i + 1 ∨ lessAt less h (child less h n i) i = false) :
    downLoop less n (fuel + 1) h i = (h, i) := by
  rw [downLoop]
  simp [hstop]

theorem sift_perm (h : List α) (i n : ℕ) : (sift less h i n).Perm h := by
  unfold sift down
  dsimp only
  split_ifs
  · exact downLoop_perm _ _ _
  · exact (upLoop_perm _ _ _).trans (downLoop_perm _ _ _)

theorem initLoop_perm (i : ℕ) (h : List α) : (initLoop less n i h).Perm h := by
  induction i generalizing h with
  | zero => exact .refl h
  | succ i ih => exact (ih _).trans (downLoop_perm _ _ _)

theorem Init_perm (h : List α) : (Init less h).Perm h := initLoop_perm _ h

theorem Push_perm (h : List α) (x : α) : (Push less h x).Perm (h ++ [x]) := upLoop_perm _ _ _

theorem Fix_perm (h : List α) (i : ℕ) : (Fix less h i).Perm h := sift_perm h i _

theorem down_fst (h : List α) (i n : ℕ) : (down less h i n).1 = (downLoop less n n h i).1 := rfl

@[simp] theorem length_down (h : List α) (i n : ℕ) : (down less h i n).1.length = h.length :=
  (downLoop_perm _ _ _).length_eq

@[simp] theorem length_sift (h : List α) (i n : ℕ) : (sift less h i n).length = h.length :=
  (sift_perm _ _ _).length_eq

theorem popLast_eq_some {h t : List α} {x : α} : popLast h = some (x, t) ↔ h = t ++ [x] := by
  constructor
  · intro hp
    unfold popLast at hp
    obtain ⟨y, hy, hyx⟩ := Option.map_eq_some_iff.1 hp
    cases hyx
    rw [List.getLast?_eq_some_iff] at hy
    obtain ⟨t', rfl⟩ := hy
    simp
  · rintro rfl
    simp [popLast]

theorem popLast_perm {h t : List α} {x : α} (hp : popLast h = some (x, t)) : (x :: t).Perm h := by
  rw [popLast_eq_some.1 hp]
  exact (List.perm_append_singleton x t).symm

theorem Pop_perm {h t : List α} {x : α} (hp : Pop less h = some (x, t)) : (x :: t).Perm h :=
  (popLast_perm hp).trans ((downLoop_perm _ _ _).trans (swap_perm h _ _))

theorem Remove_perm {h t : List α} {i : ℕ} {x : α} (hr : Remove less h i = some (x, t)) :
    (x :: t).Perm h := by
  unfold Remove at hr
  refine (popLast_perm hr).trans ?_
  split_ifs
  · exact .refl h
  · exact (sift_perm _ _ _).trans (swap_perm h _ _)

end Perm

/-! ## The loops keep the order -/

section Order

variable {less : α → α → Bool} (hs : StrictWeak less) {h : List α} {n f i j : ℕ}
include hs

theorem UpOrder.move (o : UpOrder less h n j) (hjn : j < n) (hn : n ≤ h.length)
    (hlt : lessAt less h j (parent j) = true) : UpOrder less (swap h (parent j) j) n (parent j) := by
  have hj : 0 < j := Nat.pos_of_ne_zero fun h0 => by
    rw [h0, show parent 0 = 0 from rfl, hs.lessAt_irrefl] at hlt
    cases hlt
  have hpj := parent_lt hj
  have hpl : parent j < h.length := by omega
  have hjl : j < h.length := by omega
  have hsp : (swap h (parent j) j)[parent j]? = h[j]? := getElem?_swap_left hpl hjl
  have hsj : (swap h (parent j) j)[j]? = h[parent j]? := getElem?_swap_right hpl hjl
  constructor
  · intro k hk hkn hkp
    unfold OrderedAt
    by_cases hkj : k = j
    · -- the old parent now sits under the element that moved up
      subst hkj
      rw [lessAt_congr hsj hsp]
      exact hs.lessAt_asymm hlt
    have hsk : (swap h (parent j) j)[k]? = h[k]? := getElem?_swap_of_ne hkp hkj
    by_cases hpk : parent k = j
    · rw [hpk, lessAt_congr hsk hsj]
      exact o.grand hj k hk hkn hpk
    by_cases hpk' : parent k = parent j
    · -- a sibling of `j` is not less than the old parent, which the moved element is less than
      rw [hpk', lessAt_congr hsk hsp]
      cases hkj' : lessAt less h k j
      · rfl
      · have hord := o.except k hk hkn hkj
        rw [OrderedAt, hpk', hs.lessAt_trans hkj' hlt] at hord
        cases hord
    · rw [lessAt_congr hsk (getElem?_swap_of_ne hpk' hpk)]
      exact o.except k hk hkn hkj
  · intro hp c hc hcn hpc
    have hpp := parent_lt hp
    have hspp : (swap h (parent j) j)[parent (parent j)]? = h[parent (parent j)]? :=
      getElem?_swap_of_ne (by omega) (by omega)
    have hord : OrderedAt less h (parent j) := o.except _ hp (by omega) (by omega)
    by_cases hcj : c = j
    · subst hcj
      rw [lessAt_congr hsj hspp]
      exact hord
    · have hcp : c ≠ parent j := by
        have := parent_lt hc
        omega
      rw [lessAt_congr (getElem?_swap_of_ne hcp hcj) hspp]
      have hc' : lessAt less h c (parent j) = false := by
        have := o.except c hc hcn hcj
        rwa [OrderedAt, hpc] at this
      exact hs.lessAt_not_trans hpl hc' hord

omit hs in
theorem UpOrder.finish (o : UpOrder less h n j) (hstop : j = 0 ∨ lessAt less h j (parent j) = false) :
    HeapFrom less h n 0 := by
  intro k hk hkn _
  by_cases hkj : k = j
  · subst hkj
    exact hstop.resolve_left (by omega)
  · exact o.except k hk hkn hkj

theorem UpOrder.of_heap (hh : HeapFrom less h n 0) (hjn : j < n) (hn : n ≤ h.length) :
    UpOrder less h n j := by
  refine ⟨fun k hk hkn _ => hh k hk hkn (Nat.zero_le _), fun hj c hc hcn hpc => ?_⟩
  have hcj : lessAt less h c j = false := by
    have := hh c hc hcn (Nat.zero_le _)
    rwa [OrderedAt, hpc] at this
  exact hs.lessAt_not_trans (by omega) hcj (hh j hj hjn (Nat.zero_le _))

theorem upLoop_heap (fuel : ℕ) (h : List α) (j : ℕ) (hj : j ≤ fuel) (hjn : j < n)
    (hn : n ≤ h.length) (o : UpOrder less h n j) : HeapFrom less (upLoop less fuel h j) n 0 := by
  induction fuel generalizing h j with
  | zero => exact o.finish (.inl (by omega))
  | succ fuel ih =>
    rw [upLoop]
    split_ifs with hstop
    · rw [parent_eq_self_iff] at hstop
      exact o.finish hstop
    · simp only [not_or, Bool.not_eq_false] at hstop
      have hp := parent_lt (Nat.pos_of_ne_zero (mt parent_eq_self_iff.2 hstop.1))
      exact ih _ _ (by omega) (by omega) (by simpa using hn) (o.move hs hjn hn hstop.2)

theorem DownOrder.move (o : DownOrder less h n f i) (hn : n ≤ h.length) (hc : 2 * i + 1 < n)
    (hlt : lessAt less h (child less h n i) i = true) :
    DownOrder less (swap h i (child less h n i)) n f (child less h n i) := by
  have hpj : parent (child less h n i) = i := parent_child
  have hij : i < child less h n i := lt_child
  have hjn : child less h n i < n := child_lt hc
  have hmin : ∀ k, 0 < k → k < n → parent k = i → lessAt less h k (child less h n i) = false :=
    fun k hk hkn hpk => hs.lessAt_child hk hkn hpk
  generalize child less h n i = j at *
  have hil : i < h.length := by omega
  have hjl : j < h.length := by omega
  have hsi : (swap h i j)[i]? = h[j]? := getElem?_swap_left hil hjl
  have hsj : (swap h i j)[j]? = h[i]? := getElem?_swap_right hil hjl
  constructor
  · intro k hk hkn hfk hkj
    unfold OrderedAt
    by_cases hkj' : k = j
    · -- the element that moved down is now under the child that moved up
      subst hkj'
      rw [hpj, lessAt_congr hsj hsi]
      exact hs.lessAt_asymm hlt
    by_cases hki : k = i
    · -- the child that moved up is not less than `i`'s parent
      subst hki
      have hpi := parent_lt hk
      rw [lessAt_congr hsi (getElem?_swap_of_ne (by omega) (by omega))]
      exact o.grand (by omega) j (by omega) hjn hpj
    have hsk : (swap h i j)[k]? = h[k]? := getElem?_swap_of_ne hki hkj'
    by_cases hpk : parent k = i
    · rw [hpk, lessAt_congr hsk hsi]
      exact hmin k hk hkn hpk
    · rw [lessAt_congr hsk (getElem?_swap_of_ne hpk hkj)]
      exact o.except k hk hkn hfk hpk
  · intro hfj c hc hcn hpc
    have hcj := parent_lt hc
    rw [hpj, lessAt_congr (getElem?_swap_of_ne (by omega) (by omega)) hsi]
    have hord := o.except c hc hcn (by omega) (by omega)
    rwa [OrderedAt, hpc] at hord

theorem DownOrder.finish (o : DownOrder less h n f i) (hn : n ≤ h.length)
    (hstop : n ≤ 2 * i + 1 ∨ lessAt less h (child less h n i) i = false) : HeapFrom less h n f := by
  intro k hk hkn hfk
  by_cases hpk : parent k = i
  · -- `k` is a child of `i` below `n`, so `down` compared `i` with the lesser child
    have hc : 2 * i + 1 < n := by
      have := (parent_eq_iff hk).1 hpk
      omega
    have hjn : child less h n i < n := child_lt hc
    unfold OrderedAt
    rw [hpk]
    exact hs.lessAt_not_trans (by omega) (hs.lessAt_child hk hkn hpk) (hstop.resolve_left (by omega))
  · exact o.except k hk hkn hfk hpk

theorem downLoop_heap (fuel : ℕ) (h : List α) (i : ℕ) (hfuel : n - i ≤ fuel) (hn : n ≤ h.length)
    (o : DownOrder less h n f i) : HeapFrom less (downLoop less n fuel h i).1 n f := by
  induction fuel generalizing h i with
  | zero => exact o.finish hs hn (.inl (by omega))
  | succ fuel ih =>
    rw [downLoop]
    split_ifs with hstop
    · exact o.finish hs hn hstop
    · simp only [not_or, Nat.not_le, Bool.not_eq_false] at hstop
      have : i < child less h n i := lt_child
      exact ih _ _ (by omega) (by simpa using hn) (o.move hs hn hstop.1 hstop.2)

/-- `if !down(h, i, n) { up(h, i) }` puts back in order a heap among the first `n` positions
whose element at `i` was replaced. -/
theorem sift_heap (hn : n ≤ h.length) (hi : i < n)
    (hex : ∀ k, 0 < k → k < n → k ≠ i → parent k ≠ i → OrderedAt less h k)
    (hgr : 0 < i → ∀ c, 0 < c → c < n → parent c = i → lessAt less h c (parent i) = false) :
    HeapFrom less (sift less h i n) n 0 := by
  obtain ⟨m, rfl⟩ : ∃ m, n = m + 1 := ⟨n - 1, by omega⟩
  unfold sift down
  cases hup : lessAt less h i (parent i)
  · -- not less than its parent: `down` restores the order, and `up` then finds it in order
    have o : DownOrder less h (m + 1) 0 i := by
      refine ⟨fun k hk hkn _ hpk => ?_, fun hi0 => hgr hi0⟩
      by_cases hki : k = i
      · subst hki
        exact hup
      · exact hex k hk hkn hki hpk
    have hd := downLoop_heap hs (m + 1) h i (by omega) hn o
    have hlen : (downLoop less (m + 1) (m + 1) h i).1.length = h.length := (downLoop_perm _ _ _).length_eq
    dsimp only
    split_ifs
    · exact hd
    · exact upLoop_heap hs i _ i (Nat.le_refl i) hi (by omega) (UpOrder.of_heap hs hd hi (by omega))
  · -- less than its parent, so less than every child: `down` stops at once and `up` moves it
    have hi0 : 0 < i := Nat.pos_of_ne_zero fun h0 => by
      rw [h0, show parent 0 = 0 from rfl, hs.lessAt_irrefl] at hup
      cases hup
    have hchild : ∀ c, 0 < c → c < m + 1 → parent c = i → lessAt less h c i = false := by
      intro c hc hcn hpc
      cases hci : lessAt less h c i
      · rfl
      · have := hgr hi0 c hc hcn hpc
        rw [hs.lessAt_trans hci hup] at this
        cases this
    have hstop : m + 1 ≤ 2 * i + 1 ∨ lessAt less h (child less h (m + 1) i) i = false := by
      by_cases hc : m + 1 ≤ 2 * i + 1
      · exact .inl hc
      · have : i < child less h (m + 1) i := lt_child
        exact .inr (hchild _ (by omega) (child_lt (by omega)) parent_child)
    rw [downLoop_of_stop m hstop]
    dsimp only
    rw [if_neg (by simp)]
    refine upLoop_heap hs i h i (Nat.le_refl i) hi hn ⟨fun k hk hkn hki => ?_, hgr⟩
    by_cases hpk : parent k = i
    · unfold OrderedAt
      rw [hpk]
      exact hchild k hk hkn hpk
    · exact hex k hk hkn hki hpk

end Order

/-! ## The package's functions -/

section Ops

variable {less : α → α → Bool} {h t : List α} {n f i : ℕ} {x : α}

theorem HeapFrom.mono {m : ℕ} (hh : HeapFrom less h n f) (hm : m ≤ n) : HeapFrom less h m f :=
  fun k hk hkm hfk => hh k hk (by omega) hfk

theorem HeapFrom.of_append (hh : HeapFrom less (t ++ [x]) t.length 0) : IsHeap less t := by
  intro k hk hkn _
  have hp := parent_lt hk
  have hord := hh k hk hkn (Nat.zero_le _)
  unfold OrderedAt at hord ⊢
  rwa [lessAt_congr (List.getElem?_append_left hkn) (List.getElem?_append_left (by omega))] at hord

theorem popLast_eq_none : popLast h = none ↔ h = [] := by
  simp [popLast]

theorem sift_getElem?_of_le (hi : i < n) {k : ℕ} (hk : n ≤ k) : (sift less h i n)[k]? = h[k]? := by
  unfold sift down up
  dsimp only
  split_ifs
  · exact downLoop_getElem?_of_le _ _ _ hk
  · rw [upLoop_getElem?_of_lt _ _ (by omega), downLoop_getElem?_of_le _ _ _ hk]

theorem Pop_eq_none : Pop less h = none ↔ h = [] := by
  unfold Pop
  rw [popLast_eq_none, ← List.length_eq_zero_iff, ← List.length_eq_zero_iff, length_down, length_swap]

theorem Remove_eq_none : Remove less h i = none ↔ h = [] := by
  unfold Remove
  rw [popLast_eq_none, ← List.length_eq_zero_iff, ← List.length_eq_zero_iff]
  split_ifs <;> simp

theorem length_Pop (hp : Pop less h = some (x, t)) : t.length + 1 = h.length := by
  simpa using (Pop_perm hp).length_eq

theorem Pop_head (hp : Pop less h = some (x, t)) : h[0]? = some x := by
  unfold Pop at hp
  have happ := popLast_eq_some.1 hp
  have hlen : h.length = t.length + 1 := by simpa using congrArg List.length happ
  have hlast := congrArg (·[h.length - 1]?) happ
  rw [down_fst, downLoop_getElem?_of_le _ _ _ (by omega), getElem?_swap_right (by omega) (by omega),
    show h.length - 1 = t.length by omega] at hlast
  simpa using hlast

theorem head?_of_Pop (hp : Pop less h = some (x, t)) : h.head? = some x := by
  rw [List.head?_eq_getElem?]
  exact Pop_head hp

theorem Remove_getElem? (hi : i < h.length) (hr : Remove less h i = some (x, t)) : h[i]? = some x := by
  unfold Remove at hr
  have happ := popLast_eq_some.1 hr
  split_ifs at happ with hlast
  · subst happ
    rw [← hlast]
    simp
  · -- the removed element was swapped to the end, where `down` and `up` leave it
    have hlen : h.length = t.length + 1 := by simpa using congrArg List.length happ
    have hlast' := congrArg (·[h.length - 1]?) happ
    rw [sift_getElem?_of_le (by omega) (by omega), getElem?_swap_right hi (by omega),
      show h.length - 1 = t.length by omega] at hlast'
    simpa using hlast'

variable (hs : StrictWeak less)
include hs

theorem HeapFrom.lessAt_zero (hh : HeapFrom less h n 0) (hn : n ≤ h.length) {k : ℕ} (hk : k < n) :
    lessAt less h k 0 = false := by
  induction k using Nat.strong_induction_on with
  | _ k ih =>
    rcases Nat.eq_zero_or_pos k with rfl | hk0
    · exact hs.lessAt_irrefl 0
    · -- through the parent, not greater than the element at `k` and not less than the root
      have hp := parent_lt hk0
      exact hs.lessAt_not_trans (by omega) (hh k hk0 hk (Nat.zero_le _)) (ih _ hp (by omega))

theorem IsHeap.not_less_root (hh : IsHeap less h) (hx : h[0]? = some x) {y : α} (hy : y ∈ h) :
    less y x = false := by
  obtain ⟨k, hk, rfl⟩ := List.mem_iff_getElem.1 hy
  have hroot := hh.lessAt_zero hs (Nat.le_refl _) hk
  rwa [lessAt_eq (List.getElem?_eq_getElem hk) hx] at hroot

theorem initLoop_heap (i : ℕ) (h : List α) (hlen : h.length = n) (hh : HeapFrom less h n i) :
    HeapFrom less (initLoop less n i h) n 0 := by
  induction i generalizing h with
  | zero => exact hh
  | succ i ih =>
    have o : DownOrder less h n i i :=
      ⟨fun k hk hkn hik hpk => hh k hk hkn (by omega), fun hii => absurd hii (Nat.lt_irrefl i)⟩
    exact ih _ ((downLoop_perm _ _ _).length_eq.trans hlen)
      (downLoop_heap hs n h i (by omega) (by omega) o)

theorem Init_heap (h : List α) : IsHeap less (Init less h) := by
  unfold IsHeap
  rw [(Init_perm h).length_eq]
  refine initLoop_heap hs _ h rfl fun k hk hkn hpk => ?_
  unfold parent at hpk
  omega

theorem Pop_min (hh : IsHeap less h) (hp : Pop less h = some (x, t)) {y : α} (hy : y ∈ t) :
    less y x = false :=
  hh.not_less_root hs (Pop_head hp) ((Pop_perm hp).subset (List.mem_cons_of_mem x hy))

theorem Push_heap (hh : IsHeap less h) (x : α) : IsHeap less (Push less h x) := by
  have hlen : (Push less h x).length = h.length + 1 := by simpa using (Push_perm h x).length_eq
  unfold IsHeap
  rw [hlen]
  refine upLoop_heap hs _ _ _ (Nat.le_refl _) (by omega) (by simp)
    ⟨fun k hk hkn hkj => ?_, fun _ c hc hcn hpc => ?_⟩
  · -- the positions of the old slice keep their elements
    have hk' : k < h.length := by omega
    have hp := parent_le k
    have hord := hh k hk hk' (Nat.zero_le _)
    unfold OrderedAt at hord ⊢
    rwa [lessAt_congr (List.getElem?_append_left hk') (List.getElem?_append_left (by omega))]
  · have := parent_lt hc
    omega

theorem Pop_heap (hh : IsHeap less h) (hp : Pop less h = some (x, t)) : IsHeap less t := by
  unfold Pop at hp
  have happ := popLast_eq_some.1 hp
  have hlen : t.length = h.length - 1 := by
    have := congrArg List.length happ
    simp at this
    omega
  have o : DownOrder less (swap h 0 (h.length - 1)) (h.length - 1) 0 0 := by
    refine ⟨fun k hk hkn _ hpk => ?_, fun h0 => absurd h0 (Nat.lt_irrefl 0)⟩
    have hp := parent_lt hk
    unfold OrderedAt
    rw [lessAt_congr (getElem?_swap_of_ne (by omega) (by omega))
      (getElem?_swap_of_ne (by omega) (by omega))]
    exact hh k hk (by omega) (Nat.zero_le _)
  have hd := downLoop_heap hs (h.length - 1) (swap h 0 (h.length - 1)) 0 (by omega) (by simp) o
  rw [← down_fst, happ, ← hlen] at hd
  exact hd.of_append

theorem Remove_heap (hh : IsHeap less h) (hi : i < h.length) (hr : Remove less h i = some (x, t)) :
    IsHeap less t := by
  unfold Remove at hr
  have happ := popLast_eq_some.1 hr
  split_ifs at happ with hlast
  · rw [happ] at hh
    exact (hh.mono (m := t.length) (by simp)).of_append
  · -- the last element moved to `i`; off `i` the order is the old one
    have hlen : t.length = h.length - 1 := by
      have := congrArg List.length happ
      simp at this
      omega
    have hsw : ∀ k, k < h.length - 1 → k ≠ i →
        (swap h i (h.length - 1))[k]? = h[k]? := fun k hk hki =>
      getElem?_swap_of_ne hki (by omega)
    have hs' : HeapFrom less (sift less (swap h i (h.length - 1)) i (h.length - 1)) (h.length - 1) 0 :=
      sift_heap hs (by simp) (by omega) (fun k hk hkn hki hpk => ?_) (fun hi0 c hc hcn hpc => ?_)
    · rw [happ, ← hlen] at hs'
      exact hs'.of_append
    · have hp := parent_lt hk
      unfold OrderedAt
      rw [lessAt_congr (hsw k hkn hki) (hsw _ (by omega) hpk)]
      exact hh k hk (by omega) (Nat.zero_le _)
    · have hp := parent_lt hi0
      have hc' := parent_lt hc
      rw [lessAt_congr (hsw c hcn (by omega)) (hsw _ (by omega) (by omega))]
      have hci : lessAt less h c i = false := by
        have := hh c hc (by omega) (Nat.zero_le _)
        rwa [OrderedAt, hpc] at this
      exact hs.lessAt_not_trans hi hci (hh i hi0 hi (Nat.zero_le _))

theorem Fix_heap {g : List α} (hh : IsHeap less g) (hi : i < g.length) (v : α) :
    IsHeap less (Fix less (g.set i v) i) := by
  unfold IsHeap Fix
  rw [(sift_perm _ _ _).length_eq]
  have hset : ∀ k, k ≠ i → (g.set i v)[k]? = g[k]? := fun k hki => List.getElem?_set_ne (Ne.symm hki)
  refine sift_heap hs (Nat.le_refl _) (by simpa using hi) (fun k hk hkn hki hpk => ?_)
    (fun hi0 c hc hcn hpc => ?_)
  · unfold OrderedAt
    rw [lessAt_congr (hset k hki) (hset _ hpk)]
    exact hh k hk (by simpa using hkn) (Nat.zero_le _)
  · have hp := parent_lt hi0
    have hc' := parent_lt hc
    rw [lessAt_congr (hset c (by omega)) (hset _ (by omega))]
    have hci : lessAt less g c i = false := by
      have := hh c hc (by simpa using hcn) (Nat.zero_le _)
      rwa [OrderedAt, hpc] at this
    exact hs.lessAt_not_trans hi hci (hh i hi0 hi (Nat.zero_le _))

theorem foldl_Push_heap (hh : IsHeap less h) (xs : List α) : IsHeap less (xs.foldl (Push less) h) := by
  induction xs generalizing h with
  | nil => exact hh
  | cons x xs ih => exact ih (Push_heap hs hh x)

end Ops

theorem foldl_Push_perm (less : α → α → Bool) (h xs : List α) : (xs.foldl (Push less) h).Perm (h ++ xs) := by
  induction xs generalizing h with
  | nil => simp
  | cons x xs ih =>
    refine (ih _).trans ?_
    rw [← List.singleton_append, ← List.append_assoc]
    exact ((Push_perm h x).append_right xs)

end EthereumAI.Lib.Heap
