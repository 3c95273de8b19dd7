import EthereumAI.Types.Transaction
import EthereumAI.Lib.AListValues

/-! # The price-sorted list of the pool (`core/tx_list.go`)

`txPricedList` keeps a heap of the pool's transactions, cheapest first, from which a full pool
evicts. A transaction that leaves the pool stays in the heap, stale, until a pop meets it or the
count of stale entries triggers a rebuild. Whatever the stale entries, as long as the live ones
are the pool's transactions, `Underpriced` compares with the cheapest of them, and `Discard`
takes the cheapest remote ones and puts the local ones back.

`accountSet` is the pool's (`core/tx_pool.go`); its signer is the codec's `Sender`.
-/

namespace EthereumAI.Core

open EthereumAI.Types EthereumAI.Lib

/-- `accountSet`. -/
structure accountSet where
  accounts : List Address

namespace accountSet

def contains (as : accountSet) (addr : Address) : Bool := decide (addr ∈ as.accounts)

/-- `containsTx`: a transaction whose sender cannot be recovered is in no set. -/
def containsTx (as : accountSet) (codec : TxCodec) (tx : Transaction) : Bool :=
  match codec.Sender tx with
  | some addr => as.contains addr
  | none => false

end accountSet

/-- `priceHeap.Less`: the cheaper first and, at one price, the higher nonce. -/
def priceHeap.Less (a b : Transaction) : Bool :=
  if a.GasPrice < b.GasPrice then true
  else if a.GasPrice > b.GasPrice then false
  else decide (a.Nonce > b.Nonce)

/-- `txPricedList`; the map of all transactions it points to is an argument of the methods that
read it. -/
structure txPricedList where
  items : List Transaction
  stales : ℤ

def newTxPricedList : txPricedList := ⟨[], 0⟩

/-- An entry is live while its hash is in the map of all transactions. -/
def isLive (codec : TxCodec) (all : AList (fun _ : Hash => Transaction)) (tx : Transaction) : Bool :=
  (all.lookup (codec.Hash tx)).isSome

namespace txPricedList

variable (codec : TxCodec) (all : AList (fun _ : Hash => Transaction))

def Put (l : txPricedList) (tx : Transaction) : txPricedList :=
  { l with items := Heap.Push priceHeap.Less l.items tx }

/-- `Removed`: once more than a quarter of the heap is stale, it is rebuilt from the map, in the
order of its entries. -/
def Removed (l : txPricedList) : txPricedList :=
  let stales := l.stales + 1
  if stales ≤ (l.items.length : ℤ) / 4 then { l with stales } else
  ⟨Heap.Init priceHeap.Less (values all), 0⟩

/-- The saved transactions pushed back, in order. -/
def pushAll (items save : List Transaction) : List Transaction :=
  save.foldl (Heap.Push priceHeap.Less) items

/-- The loop of `Cap`: stale entries leave; the first live transaction at or above the threshold
is saved and ends it; below it, the remote ones are dropped and the local ones saved. -/
def capLoop (threshold : ℤ) (locals : accountSet) :
    ℕ → txPricedList → List Transaction → List Transaction →
      txPricedList × List Transaction × List Transaction
  | 0, l, drop, save => (l, drop, save)
  | fuel + 1, l, drop, save =>
    match Heap.Pop priceHeap.Less l.items with
    | none => (l, drop, save)
    | some (tx, items) =>
      if !isLive codec all tx then capLoop threshold locals fuel ⟨items, l.stales - 1⟩ drop save
      else if tx.GasPrice ≥ threshold then ({ l with items }, drop, save ++ [tx])
      else if locals.containsTx codec tx then capLoop threshold locals fuel { l with items } drop (save ++ [tx])
      else capLoop threshold locals fuel { l with items } (drop ++ [tx]) save

def Cap (l : txPricedList) (threshold : ℤ) (locals : accountSet) : txPricedList × List Transaction :=
  let r := capLoop codec all threshold locals l.items.length l [] []
  ({ r.1 with items := pushAll r.1.items r.2.2 }, r.2.1)

/-- The loop of `Underpriced`: stale entries at the top of the heap leave it. -/
def dropStaleLoop : ℕ → txPricedList → txPricedList
  | 0, l => l
  | fuel + 1, l =>
    match l.items.head?, Heap.Pop priceHeap.Less l.items with
    | some head, some (_, items) =>
      if isLive codec all head then l else dropStaleLoop fuel ⟨items, l.stales - 1⟩
    | _, _ => l

/-- `Underpriced`; the list is returned since the stale entries it meets leave the heap. -/
def Underpriced (l : txPricedList) (tx : Transaction) (locals : accountSet) : txPricedList × Bool :=
  if locals.containsTx codec tx then (l, false) else
  let l := dropStaleLoop codec all l.items.length l
  match l.items.head? with
  | none => (l, false)
  | some cheapest => (l, decide (cheapest.GasPrice ≥ tx.GasPrice))

/-- The loop of `Discard`: while `count` is positive, stale entries leave, local transactions are
saved, and remote ones are dropped and counted. -/
def discardLoop (locals : accountSet) :
    ℕ → txPricedList → ℤ → List Transaction → List Transaction →
      txPricedList × List Transaction × List Transaction
  | 0, l, _, drop, save => (l, drop, save)
  | fuel + 1, l, count, drop, save =>
    if count > 0 then
      match Heap.Pop priceHeap.Less l.items with
      | none => (l, drop, save)
      | some (tx, items) =>
        if !isLive codec all tx then discardLoop locals fuel ⟨items, l.stales - 1⟩ count drop save
        else if locals.containsTx codec tx then
          discardLoop locals fuel { l with items } count drop (save ++ [tx])
        else discardLoop locals fuel { l with items } (count - 1) (drop ++ [tx]) save
    else (l, drop, save)

def Discard (l : txPricedList) (count : ℤ) (locals : accountSet) : txPricedList × List Transaction :=
  let r := discardLoop codec all locals l.items.length l count [] []
  ({ r.1 with items := pushAll r.1.items r.2.2 }, r.2.1)

end txPricedList

namespace txPricedList

/-- The methods that change the list, each with the map of all transactions when it reads it. -/
inductive Op
  | Put (tx : Transaction)
  | Removed (all : AList (fun _ : Hash => Transaction))
  | Cap (all : AList (fun _ : Hash => Transaction)) (threshold : ℤ) (locals : accountSet)
  | Underpriced (all : AList (fun _ : Hash => Transaction)) (tx : Transaction) (locals : accountSet)
  | Discard (all : AList (fun _ : Hash => Transaction)) (count : ℤ) (locals : accountSet)

def step (codec : TxCodec) (l : txPricedList) : Op → txPricedList
  | .Put tx => l.Put tx
  | .Removed all => l.Removed all
  | .Cap all threshold locals => (l.Cap codec all threshold locals).1
  | .Underpriced all tx locals => (l.Underpriced codec all tx locals).1
  | .Discard all count locals => (l.Discard codec all count locals).1

def run (codec : TxCodec) : List Op → txPricedList → txPricedList
  | [], l => l
  | op :: ops, l => run codec ops (step codec l op)

end txPricedList

/-! ## The order of the heap -/

theorem priceHeap.Less_eq_false {a b : Transaction} :
    priceHeap.Less a b = false ↔ b.GasPrice < a.GasPrice ∨ (a.GasPrice = b.GasPrice ∧ a.Nonce ≤ b.Nonce) := by
  unfold priceHeap.Less
  split_ifs with h1 h2 <;> simp [UInt64.le_iff_toNat_le, UInt64.lt_iff_toNat_lt] <;> omega

theorem priceHeap.price_le {a b : Transaction} (h : priceHeap.Less a b = false) : b.GasPrice ≤ a.GasPrice := by
  rcases priceHeap.Less_eq_false.1 h with h | h
  · exact h.le
  · exact h.1.ge

theorem priceHeap_strictWeak : Heap.StrictWeak priceHeap.Less := by
  refine ⟨fun a b hab => ?_, fun a b c hab hbc => ?_⟩
  · have hnot : ¬ priceHeap.Less a b = false := by simp [hab]
    rw [priceHeap.Less_eq_false] at hnot ⊢
    simp only [UInt64.le_iff_toNat_le] at hnot ⊢
    omega
  · rw [priceHeap.Less_eq_false] at hab hbc ⊢
    simp only [UInt64.le_iff_toNat_le] at hab hbc ⊢
    omega

/-- A live entry sent from outside `locals`, which `Discard` may drop. -/
def liveRemote (codec : TxCodec) (all : AList (fun _ : Hash => Transaction)) (locals : accountSet)
    (tx : Transaction) : Bool :=
  isLive codec all tx && !locals.containsTx codec tx

/-- A live entry sent from `locals`, which `Discard` puts back. -/
def liveLocal (codec : TxCodec) (all : AList (fun _ : Hash => Transaction)) (locals : accountSet)
    (tx : Transaction) : Bool :=
  isLive codec all tx && locals.containsTx codec tx

namespace txPricedList

open Heap (IsHeap)

variable (codec : TxCodec) (all : AList (fun _ : Hash => Transaction))

theorem pushAll_perm (items save : List Transaction) : (pushAll items save).Perm (items ++ save) :=
  Heap.foldl_Push_perm _ items save

theorem pushAll_heap {items : List Transaction} (hh : IsHeap priceHeap.Less items) (save : List Transaction) :
    IsHeap priceHeap.Less (pushAll items save) :=
  Heap.foldl_Push_heap priceHeap_strictWeak hh save

theorem exists_pop {items : List Transaction} (hne : items ≠ []) :
    ∃ x t, Heap.Pop priceHeap.Less items = some (x, t) := by
  obtain ⟨⟨x, t⟩, hp⟩ := Option.ne_none_iff_exists'.1 (mt Heap.Pop_eq_none.1 hne)
  exact ⟨x, t, hp⟩

/-! ## The loops -/

/-- `Underpriced`'s loop takes only stale entries off the heap. -/
theorem dropStaleLoop_live (fuel : ℕ) (l : txPricedList) :
    ((dropStaleLoop codec all fuel l).items.filter (isLive codec all)).Perm
      (l.items.filter (isLive codec all)) := by
  induction fuel generalizing l with
  | zero => exact .refl _
  | succ fuel ih =>
    rw [dropStaleLoop]
    cases hhead : l.items.head? with
    | none => exact .refl _
    | some head =>
      cases hp : Heap.Pop priceHeap.Less l.items with
      | none => exact .refl _
      | some p =>
        obtain ⟨x, t⟩ := p
        dsimp only
        split_ifs with hlive
        · exact .refl _
        · -- the root popped is the stale head
          have hxh : x = head := Option.some.inj ((Heap.head?_of_Pop hp).symm.trans hhead)
          subst hxh
          have hperm := (Heap.Pop_perm hp).filter (isLive codec all)
          rw [List.filter_cons_of_neg hlive] at hperm
          exact (ih _).trans hperm

/-- `Underpriced`'s loop keeps the heap a heap and stops at a live root. -/
theorem dropStaleLoop_spec (fuel : ℕ) (l : txPricedList) (hh : IsHeap priceHeap.Less l.items)
    (hf : l.items.length ≤ fuel) :
    IsHeap priceHeap.Less (dropStaleLoop codec all fuel l).items ∧
      ∀ x, (dropStaleLoop codec all fuel l).items.head? = some x → isLive codec all x = true := by
  induction fuel generalizing l with
  | zero =>
    have hnil : l.items = [] := List.eq_nil_of_length_eq_zero (by omega)
    exact ⟨hh, fun x hx => by simp [dropStaleLoop, hnil] at hx⟩
  | succ fuel ih =>
    cases hhead : l.items.head? with
    | none => exact ⟨by simpa [dropStaleLoop, hhead] using hh, by simp [dropStaleLoop, hhead]⟩
    | some head =>
      obtain ⟨x, t, hp⟩ := exists_pop (List.ne_nil_of_mem (List.mem_of_mem_head? hhead))
      rw [dropStaleLoop, hhead, hp]
      dsimp only
      by_cases hlive : isLive codec all head = true
      · rw [if_pos hlive]
        exact ⟨hh, fun y hy => by rw [hhead] at hy; cases hy; exact hlive⟩
      · rw [if_neg hlive]
        have hlen := Heap.length_Pop hp
        exact ih ⟨t, l.stales - 1⟩ (Heap.Pop_heap priceHeap_strictWeak hh hp) (by dsimp only; omega)

/-- `Discard`'s loop pops a run of entries off the heap, each no greater than what is left; of
those it drops the live remote ones, `count` of them unless the heap runs out first, and saves the
live local ones. -/
theorem discardLoop_spec (locals : accountSet) (fuel : ℕ) (l : txPricedList) (count : ℤ)
    (drop save : List Transaction) (hh : IsHeap priceHeap.Less l.items) (hf : l.items.length ≤ fuel) :
    ∃ popped, (popped ++ (discardLoop codec all locals fuel l count drop save).1.items).Perm l.items ∧
      IsHeap priceHeap.Less (discardLoop codec all locals fuel l count drop save).1.items ∧
      (discardLoop codec all locals fuel l count drop save).2.1 =
        drop ++ popped.filter (liveRemote codec all locals) ∧
      (discardLoop codec all locals fuel l count drop save).2.2 =
        save ++ popped.filter (liveLocal codec all locals) ∧
      (∀ x ∈ popped, ∀ y ∈ (discardLoop codec all locals fuel l count drop save).1.items,
        priceHeap.Less y x = false) ∧
      ((popped.filter (liveRemote codec all locals)).length : ℤ) ≤ max count 0 ∧
      (((popped.filter (liveRemote codec all locals)).length : ℤ) = max count 0 ∨
        (discardLoop codec all locals fuel l count drop save).1.items = []) := by
  induction fuel generalizing l count drop save with
  | zero =>
    have hnil : l.items = [] := List.eq_nil_of_length_eq_zero (by omega)
    exact ⟨[], by simp [discardLoop], hh, by simp [discardLoop], by simp [discardLoop], by simp,
      by simp, .inr hnil⟩
  | succ fuel ih =>
    by_cases hc : count > 0
    swap
    · -- no count left: nothing happens
      have hm : max count 0 = 0 := max_eq_right (not_lt.1 hc)
      simp only [discardLoop, if_neg hc]
      exact ⟨[], by simp, hh, by simp, by simp, by simp, by simp [hm], .inl (by simp [hm])⟩
    have hm : max count 0 = count := max_eq_left hc.le
    rw [discardLoop, if_pos hc]
    cases hp : Heap.Pop priceHeap.Less l.items with
    | none => exact ⟨[], by simp, hh, by simp, by simp, by simp, by simp [hm]; omega, .inr (Heap.Pop_eq_none.1 hp)⟩
    | some p =>
      obtain ⟨x, t⟩ := p
      dsimp only
      have hlen := Heap.length_Pop hp
      have ht := Heap.Pop_heap priceHeap_strictWeak hh hp
      have hmin : ∀ y ∈ t, priceHeap.Less y x = false := fun y hy => Heap.Pop_min priceHeap_strictWeak hh hp hy
      -- what the popped entry and the rest of the run make, from the run after it
      have hcons : ∀ popped items, (popped ++ items).Perm t → (∀ z ∈ popped, ∀ y ∈ items, priceHeap.Less y z = false) →
          (x :: popped ++ items).Perm l.items ∧ ∀ z ∈ x :: popped, ∀ y ∈ items, priceHeap.Less y z = false := by
        intro popped items hperm hpop
        refine ⟨(hperm.cons x).trans (Heap.Pop_perm hp), fun z hz y hy => ?_⟩
        rcases List.mem_cons.1 hz with rfl | hz
        · exact hmin y (hperm.subset (List.mem_append_right _ hy))
        · exact hpop z hz y hy
      split_ifs with hlive hlocal
      · -- stale: it only leaves the heap
        have hx : isLive codec all x = false := by simpa using hlive
        obtain ⟨popped, h1, h2, h3, h4, h5, h6, h7⟩ :=
          ih ⟨t, l.stales - 1⟩ count drop save ht (by dsimp only; omega)
        obtain ⟨g1, g5⟩ := hcons popped _ h1 h5
        have hfr : (x :: popped).filter (liveRemote codec all locals) = popped.filter (liveRemote codec all locals) :=
          List.filter_cons_of_neg (by simp [liveRemote, hx])
        have hfl : (x :: popped).filter (liveLocal codec all locals) = popped.filter (liveLocal codec all locals) :=
          List.filter_cons_of_neg (by simp [liveLocal, hx])
        exact ⟨x :: popped, g1, h2, by rwa [hfr], by rwa [hfl], g5, by rwa [hfr], by rwa [hfr]⟩
      · -- local: saved
        have hx : isLive codec all x = true := by simpa using hlive
        obtain ⟨popped, h1, h2, h3, h4, h5, h6, h7⟩ :=
          ih { l with items := t } count drop (save ++ [x]) ht (by dsimp only; omega)
        obtain ⟨g1, g5⟩ := hcons popped _ h1 h5
        have hfr : (x :: popped).filter (liveRemote codec all locals) = popped.filter (liveRemote codec all locals) :=
          List.filter_cons_of_neg (by simp [liveRemote, hx, hlocal])
        have hfl : (x :: popped).filter (liveLocal codec all locals) =
            x :: popped.filter (liveLocal codec all locals) :=
          List.filter_cons_of_pos (by simp [liveLocal, hx, hlocal])
        exact ⟨x :: popped, g1, h2, by rwa [hfr], by rw [hfl, h4]; simp, g5, by rwa [hfr], by rwa [hfr]⟩
      · -- remote: dropped and counted
        have hx : isLive codec all x = true := by simpa using hlive
        have hr : locals.containsTx codec x = false := by simpa using hlocal
        have hm' : max (count - 1) 0 = count - 1 := max_eq_left (by omega)
        obtain ⟨popped, h1, h2, h3, h4, h5, h6, h7⟩ :=
          ih { l with items := t } (count - 1) (drop ++ [x]) save ht (by dsimp only; omega)
        obtain ⟨g1, g5⟩ := hcons popped _ h1 h5
        have hfr : (x :: popped).filter (liveRemote codec all locals) =
            x :: popped.filter (liveRemote codec all locals) :=
          List.filter_cons_of_pos (by simp [liveRemote, hx, hr])
        have hfl : (x :: popped).filter (liveLocal codec all locals) = popped.filter (liveLocal codec all locals) :=
          List.filter_cons_of_neg (by simp [liveLocal, hr])
        rw [hm'] at h6 h7
        refine ⟨x :: popped, g1, h2, by rw [hfr, h3]; simp, by rwa [hfl], g5, ?_, ?_⟩
        · rw [hfr, List.length_cons, hm]
          push_cast
          omega
        · rw [hfr, List.length_cons, hm]
          rcases h7 with h7 | h7
          · left
            push_cast
            omega
          · exact .inr h7

theorem capLoop_heap (threshold : ℤ) (locals : accountSet) (fuel : ℕ) (l : txPricedList)
    (drop save : List Transaction) (hh : IsHeap priceHeap.Less l.items) :
    IsHeap priceHeap.Less (capLoop codec all threshold locals fuel l drop save).1.items := by
  induction fuel generalizing l drop save with
  | zero => exact hh
  | succ fuel ih =>
    rw [capLoop]
    cases hp : Heap.Pop priceHeap.Less l.items with
    | none => exact hh
    | some p =>
      obtain ⟨x, t⟩ := p
      have ht := Heap.Pop_heap priceHeap_strictWeak hh hp
      dsimp only
      split_ifs
      · exact ih _ _ _ ht
      · exact ht
      · exact ih _ _ _ ht
      · exact ih _ _ _ ht

/-! ## The methods -/

theorem Underpriced_live (l : txPricedList) (tx : Transaction) (locals : accountSet) :
    ((l.Underpriced codec all tx locals).1.items.filter (isLive codec all)).Perm
      (l.items.filter (isLive codec all)) := by
  unfold Underpriced
  split_ifs
  · exact .refl _
  · dsimp only
    split <;> exact dropStaleLoop_live codec all _ l

/-- `Underpriced` compares with the cheapest live entry, and takes only stale ones off the heap. -/
theorem Underpriced_spec (l : txPricedList) (hh : IsHeap priceHeap.Less l.items) (tx : Transaction)
    (locals : accountSet) :
    IsHeap priceHeap.Less (l.Underpriced codec all tx locals).1.items ∧
      ((l.Underpriced codec all tx locals).1.items.filter (isLive codec all)).Perm
        (l.items.filter (isLive codec all)) ∧
      ((l.Underpriced codec all tx locals).2 = true ↔ locals.containsTx codec tx = false ∧
        ∃ c ∈ l.items.filter (isLive codec all),
          (∀ y ∈ l.items.filter (isLive codec all), c.GasPrice ≤ y.GasPrice) ∧ tx.GasPrice ≤ c.GasPrice) := by
  unfold Underpriced
  by_cases hloc : locals.containsTx codec tx = true
  · simp [hloc, hh]
  rw [if_neg hloc]
  obtain ⟨h1, h3⟩ := dropStaleLoop_spec codec all l.items.length l hh (Nat.le_refl _)
  have h2 := dropStaleLoop_live codec all l.items.length l
  dsimp only
  cases hhead : (dropStaleLoop codec all l.items.length l).items.head? with
  | none =>
    -- no live entry is left, so there was none
    have hnil : l.items.filter (isLive codec all) = [] := by
      rw [List.head?_eq_none_iff.1 hhead] at h2
      exact (List.Perm.nil_eq h2).symm
    exact ⟨h1, h2, by simp [hnil]⟩
  | some c =>
    refine ⟨h1, h2, ?_⟩
    -- the root is live and no greater than anything in the heap: the cheapest live entry
    have hcmem : c ∈ l.items.filter (isLive codec all) :=
      h2.subset (List.mem_filter.2 ⟨List.mem_of_mem_head? hhead, h3 c hhead⟩)
    have hcmin : ∀ y ∈ l.items.filter (isLive codec all), c.GasPrice ≤ y.GasPrice := fun y hy =>
      priceHeap.price_le (Heap.IsHeap.not_less_root priceHeap_strictWeak h1
        (by rw [← List.head?_eq_getElem?]; exact hhead) (List.mem_of_mem_filter (h2.symm.subset hy)))
    simp only [ge_iff_le, decide_eq_true_eq]
    constructor
    · intro hle
      exact ⟨by simpa using hloc, c, hcmem, hcmin, hle⟩
    · rintro ⟨-, c', -, hmin', hle'⟩
      exact le_trans hle' (hmin' c hcmem)

theorem count_filter_eq (p : Transaction → Bool) (a : Transaction) (l : List Transaction) :
    List.count a (l.filter p) = if p a then List.count a l else 0 := by
  split_ifs with h
  · exact List.count_filter h
  · exact List.count_eq_zero.2 fun hm => h (List.mem_filter.1 hm).2

/-- `Discard` takes live remote entries, `count` of them unless there are fewer, each no dearer
than a live remote entry it leaves; the live entries left and the ones taken are the live entries
there were. -/
theorem Discard_spec (l : txPricedList) (hh : IsHeap priceHeap.Less l.items) (count : ℤ)
    (locals : accountSet) :
    IsHeap priceHeap.Less (l.Discard codec all count locals).1.items ∧
      ((l.Discard codec all count locals).1.items.filter (isLive codec all) ++
        (l.Discard codec all count locals).2).Perm (l.items.filter (isLive codec all)) ∧
      (∀ d ∈ (l.Discard codec all count locals).2, liveRemote codec all locals d = true) ∧
      (∀ d ∈ (l.Discard codec all count locals).2, ∀ y ∈ (l.Discard codec all count locals).1.items,
        liveRemote codec all locals y = true → priceHeap.Less y d = false) ∧
      (l.Discard codec all count locals).2.length =
        min count.toNat (l.items.filter (liveRemote codec all locals)).length := by
  obtain ⟨popped, h1, h2, h3, h4, h5, h6, h7⟩ :=
    discardLoop_spec codec all locals l.items.length l count [] [] hh (Nat.le_refl _)
  unfold Discard
  dsimp only
  rw [List.nil_append] at h3 h4
  rw [h3, h4]
  generalize (discardLoop codec all locals l.items.length l count [] []).1.items = rest at h1 h2 h5 h7
  -- the saved entries are live, and go back on the heap
  have hsave : (popped.filter (liveLocal codec all locals)).filter (isLive codec all) =
      popped.filter (liveLocal codec all locals) :=
    List.filter_eq_self.2 fun x hx => by simp only [liveLocal, List.mem_filter, Bool.and_eq_true] at hx; exact hx.2.1
  have hback : ((pushAll rest (popped.filter (liveLocal codec all locals))).filter (isLive codec all)).Perm
      (rest.filter (isLive codec all) ++ popped.filter (liveLocal codec all locals)) := by
    have := (pushAll_perm rest (popped.filter (liveLocal codec all locals))).filter (isLive codec all)
    rwa [List.filter_append, hsave] at this
  -- the live entries popped are the dropped and the saved ones
  have hsplit : ∀ x, List.count x (popped.filter (isLive codec all)) =
      List.count x (popped.filter (liveRemote codec all locals)) +
        List.count x (popped.filter (liveLocal codec all locals)) := by
    intro x
    simp only [count_filter_eq, liveRemote, liveLocal]
    by_cases hl : isLive codec all x = true <;> by_cases hc : locals.containsTx codec x = true <;> simp [hl, hc]
  have hlive : ∀ x, List.count x (l.items.filter (isLive codec all)) =
      List.count x (popped.filter (isLive codec all)) + List.count x (rest.filter (isLive codec all)) := by
    intro x
    rw [← (h1.filter (isLive codec all)).count_eq x, List.filter_append, List.count_append]
  refine ⟨pushAll_heap h2 _, ?_, fun d hd => (List.mem_filter.1 hd).2, ?_, ?_⟩
  · rw [List.perm_iff_count]
    intro x
    rw [List.count_append, (hback.count_eq x), List.count_append, hlive x, hsplit x]
    omega
  · -- a live remote entry left was not saved, so it is still where the loop left it
    intro d hd y hy hyr
    rcases List.mem_append.1 ((pushAll_perm _ _).subset hy) with hy | hy
    · exact h5 d (List.mem_of_mem_filter hd) y hy
    · simp only [liveRemote, liveLocal, List.mem_filter, Bool.and_eq_true, Bool.not_eq_true'] at hy hyr
      simp [hyr.2] at hy
  · -- the live remote entries are the dropped ones and those left
    have hrem : (l.items.filter (liveRemote codec all locals)).length =
        (popped.filter (liveRemote codec all locals)).length + (rest.filter (liveRemote codec all locals)).length := by
      rw [← (h1.filter _).length_eq, List.filter_append, List.length_append]
    have htoNat := Int.toNat_eq_max count
    rcases h7 with h7 | h7
    · rw [min_eq_left (by omega)]
      omega
    · rw [h7, List.filter_nil, List.length_nil, Nat.add_zero] at hrem
      rw [hrem, min_eq_right (by omega)]

theorem step_heap (l : txPricedList) (hh : IsHeap priceHeap.Less l.items) (op : Op) :
    IsHeap priceHeap.Less (step codec l op).items := by
  cases op with
  | Put tx => exact Heap.Push_heap priceHeap_strictWeak hh tx
  | Removed all =>
    unfold step Removed
    dsimp only
    split_ifs
    · exact hh
    · exact Heap.Init_heap priceHeap_strictWeak _
  | Cap all threshold locals =>
    exact pushAll_heap (capLoop_heap codec all threshold locals _ l [] [] hh) _
  | Underpriced all tx locals => exact (Underpriced_spec codec all l hh tx locals).1
  | Discard all count locals => exact (Discard_spec codec all l hh count locals).1

theorem run_heap (ops : List Op) (l : txPricedList) (hh : IsHeap priceHeap.Less l.items) :
    IsHeap priceHeap.Less (run codec ops l).items := by
  induction ops generalizing l with
  | nil => exact hh
  | cons op ops ih => exact ih _ (step_heap codec l hh op)

end txPricedList

/-- For every priced list reached by the methods whose live entries are the pool's transactions:
`Underpriced` holds of a remote transaction exactly when it is no dearer than the cheapest of
the pool; `Discard` takes `count` remote transactions of the pool, or all of them if there are
fewer, each no dearer (at one price, no lower in nonce) than a live remote entry it leaves, and
the live entries left are the pool without them, the local ones all there. -/
theorem txPricedList_eviction (codec : TxCodec) (ops : List txPricedList.Op) (l : txPricedList)
    (hl : txPricedList.run codec ops newTxPricedList = l) (all : AList (fun _ : Hash => Transaction))
    (hcover : (l.items.filter (isLive codec all)).Perm (values all)) (locals : accountSet) :
    (∀ tx, (l.Underpriced codec all tx locals).2 = true ↔ locals.containsTx codec tx = false ∧
      ∃ c ∈ values all, (∀ y ∈ values all, c.GasPrice ≤ y.GasPrice) ∧ tx.GasPrice ≤ c.GasPrice) ∧
    ∀ count : ℤ,
      (l.Discard codec all count locals).2.length =
        min count.toNat ((values all).filter fun tx => !locals.containsTx codec tx).length ∧
      (l.Discard codec all count locals).2.Subperm ((values all).filter fun tx => !locals.containsTx codec tx) ∧
      (∀ d ∈ (l.Discard codec all count locals).2, ∀ y ∈ (l.Discard codec all count locals).1.items,
        isLive codec all y = true → locals.containsTx codec y = false → priceHeap.Less y d = false) ∧
      ((l.Discard codec all count locals).1.items.filter (isLive codec all) ++
        (l.Discard codec all count locals).2).Perm (values all) ∧
      (((l.Discard codec all count locals).1.items.filter (isLive codec all)).filter
        (locals.containsTx codec)).Perm ((values all).filter (locals.containsTx codec)) := by
  have hh : Heap.IsHeap priceHeap.Less l.items :=
    hl ▸ txPricedList.run_heap codec ops newTxPricedList fun _ _ h => absurd h (Nat.not_lt_zero _)
  refine ⟨fun tx => ?_, fun count => ?_⟩
  · rw [(txPricedList.Underpriced_spec codec all l hh tx locals).2.2]
    simp only [hcover.mem_iff]
  obtain ⟨-, g2, g3, g4, g5⟩ := txPricedList.Discard_spec codec all l hh count locals
  have hall := g2.trans hcover
  -- the live remote entries are the pool's remote transactions
  have hrem : (l.items.filter (liveRemote codec all locals)).Perm
      ((values all).filter fun tx => !locals.containsTx codec tx) := by
    have := hcover.filter (fun tx => !locals.containsTx codec tx)
    rw [List.filter_filter] at this
    refine (List.Perm.of_eq (List.filter_congr fun x _ => ?_)).trans this
    simp [liveRemote, Bool.and_comm]
  have hnotLocal : ∀ d ∈ (l.Discard codec all count locals).2, locals.containsTx codec d = false := by
    intro d hd
    have := g3 d hd
    simp only [liveRemote, Bool.and_eq_true, Bool.not_eq_true'] at this
    exact this.2
  refine ⟨by rw [g5, hrem.length_eq], ?_, fun d hd y hy hyl hyr => g4 d hd y hy (by simp [liveRemote, hyl, hyr]),
    hall, ?_⟩
  · -- each dropped transaction is a remote one of the pool, counted with its multiplicity
    rw [List.subperm_iff_count]
    intro a
    rw [txPricedList.count_filter_eq]
    split_ifs with ha
    · have := hall.count_eq a
      rw [List.count_append] at this
      omega
    · refine Nat.le_of_eq (List.count_eq_zero.2 fun hmem => ha ?_)
      simp [hnotLocal a hmem]
  · have hD : (l.Discard codec all count locals).2.filter (locals.containsTx codec) = [] :=
      List.filter_eq_nil_iff.2 fun d hd => by simp [hnotLocal d hd]
    have := hall.filter (locals.containsTx codec)
    rwa [List.filter_append, hD, List.append_nil] at this

/-- A codec for examples: the hash is the signature's `R`, the sender its `V`. -/
def rvCodec : TxCodec :=
  ⟨fun tx => Fin.ofNat _ tx.R.toNat, fun _ => 0,
    fun tx => if h : tx.V.toNat < 2 ^ 160 then some ⟨tx.V.toNat, h⟩ else none⟩

/-- Two transfers at nonce 0: account 1 pays 5, account 2 pays 3. -/
def pricedA : Transaction := ⟨0, 5, 21000, none, 0, [], 1, 1, 0⟩
def pricedB : Transaction := ⟨0, 3, 21000, none, 0, [], 2, 2, 0⟩

def twoPriced : txPricedList := txPricedList.run rvCodec [.Put pricedA, .Put pricedB] newTxPricedList

def twoPool : AList (fun _ : Hash => Transaction) :=
  AList.insert (β := fun _ : Hash => Transaction) 1 pricedA (AList.insert 2 pricedB ∅)

theorem txPricedList_eviction_twoSenders :
    txPricedList.run rvCodec [.Put pricedA, .Put pricedB] newTxPricedList = twoPriced ∧
    (twoPriced.items.filter (isLive rvCodec twoPool)).Perm (values twoPool) ∧
    (∀ tx, (twoPriced.Underpriced rvCodec twoPool tx ⟨[2]⟩).2 = true ↔ accountSet.containsTx ⟨[2]⟩ rvCodec tx = false ∧
      ∃ c ∈ values twoPool, (∀ y ∈ values twoPool, c.GasPrice ≤ y.GasPrice) ∧ tx.GasPrice ≤ c.GasPrice) ∧
    ∀ count : ℤ,
      (twoPriced.Discard rvCodec twoPool count ⟨[2]⟩).2.length =
        min count.toNat ((values twoPool).filter fun tx => !accountSet.containsTx ⟨[2]⟩ rvCodec tx).length ∧
      (twoPriced.Discard rvCodec twoPool count ⟨[2]⟩).2.Subperm
        ((values twoPool).filter fun tx => !accountSet.containsTx ⟨[2]⟩ rvCodec tx) ∧
      (∀ d ∈ (twoPriced.Discard rvCodec twoPool count ⟨[2]⟩).2,
        ∀ y ∈ (twoPriced.Discard rvCodec twoPool count ⟨[2]⟩).1.items,
        isLive rvCodec twoPool y = true → accountSet.containsTx ⟨[2]⟩ rvCodec y = false →
          priceHeap.Less y d = false) ∧
      ((twoPriced.Discard rvCodec twoPool count ⟨[2]⟩).1.items.filter (isLive rvCodec twoPool) ++
        (twoPriced.Discard rvCodec twoPool count ⟨[2]⟩).2).Perm (values twoPool) ∧
      (((twoPriced.Discard rvCodec twoPool count ⟨[2]⟩).1.items.filter (isLive rvCodec twoPool)).filter
        (accountSet.containsTx ⟨[2]⟩ rvCodec)).Perm ((values twoPool).filter (accountSet.containsTx ⟨[2]⟩ rvCodec)) :=
  have hcover : (twoPriced.items.filter (isLive rvCodec twoPool)).Perm (values twoPool) := by decide
  ⟨rfl, hcover, txPricedList_eviction rvCodec [.Put pricedA, .Put pricedB] twoPriced rfl twoPool hcover ⟨[2]⟩⟩

end EthereumAI.Core
