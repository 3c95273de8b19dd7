import EthereumAI.Types.Transaction
import EthereumAI.Lib.AListValues

/-! # Per-account transaction lists (`core/tx_list.go`)

A `txSortedMap` keeps an account's transactions three ways: a map by nonce, a heap of the
nonces, and, until the next change, the transactions sorted by nonce. A `txList` adds the
highest cost and gas it has accepted, which `Filter` reads to skip the work when the account's
balance and the block's gas limit cover them.

Over every run of the list's methods from an empty list, the heap holds exactly the map's
nonces, the cache is the map's transactions sorted by nonce, and the caps are at least every
stored transaction's cost and gas. From there `Forward`, `Cap` and `Ready` take what their
names promise off the sorted transactions, `Filter` takes exactly the transactions over the
limits, and `Add` replaces a transaction only for a price above the old one by the bump, the
bump's `100 + priceBump` being computed in `int64`.
-/

namespace EthereumAI.Core

open EthereumAI.Types EthereumAI.Lib

/-- `nonceHeap.Less`. -/
def nonceHeap.Less (a b : UInt64) : Bool := decide (a < b)

/-- `txSortedMap`; `cache` is `none` for a `nil` cache. -/
structure txSortedMap where
  items : AList (fun _ : UInt64 => Transaction)
  index : List UInt64
  cache : Option (List Transaction)

def newTxSortedMap : txSortedMap := ⟨∅, [], none⟩

namespace txSortedMap

def Get (m : txSortedMap) (nonce : UInt64) : Option Transaction := m.items.lookup nonce

def Put (m : txSortedMap) (tx : Transaction) : txSortedMap :=
  { items := m.items.insert tx.Nonce tx
    index := if m.items.lookup tx.Nonce = none then Heap.Push nonceHeap.Less m.index tx.Nonce else m.index
    cache := none }

/-- The loop of `Forward`: the least nonce leaves the heap and its transaction the map while it
is below `threshold`. A nonce without a transaction would add Go's `nil`, which the heap
holding the map's nonces rules out. -/
def forwardLoop (threshold : UInt64) : ℕ → txSortedMap → List Transaction → txSortedMap × List Transaction
  | 0, m, removed => (m, removed)
  | fuel + 1, m, removed =>
    match m.index.head?, Heap.Pop nonceHeap.Less m.index with
    | some first, some (nonce, index) =>
      if first < threshold then
        forwardLoop threshold fuel { m with items := m.items.erase nonce, index }
          (removed ++ (m.items.lookup nonce).toList)
      else (m, removed)
    | _, _ => (m, removed)

/-- `Forward`; the cache loses as many transactions from its front. -/
def Forward (m : txSortedMap) (threshold : UInt64) : txSortedMap × List Transaction :=
  let r := forwardLoop threshold m.index.length m []
  ({ r.1 with cache := r.1.cache.map (·.drop r.2.length) }, r.2)

/-- The loop of `Filter` over the map's entries in the order `range` visits them. -/
def filterLoop (filter : Transaction → Bool) :
    List (Σ _ : UInt64, Transaction) → AList (fun _ : UInt64 => Transaction) × List Transaction →
      AList (fun _ : UInt64 => Transaction) × List Transaction
  | [], r => r
  | e :: es, (items, removed) =>
    filterLoop filter es (if filter e.2 then (items.erase e.1, removed ++ [e.2]) else (items, removed))

/-- `Filter`: once something is removed, the heap is rebuilt from the nonces left and the cache
dropped. -/
def Filter (m : txSortedMap) (filter : Transaction → Bool) : txSortedMap × List Transaction :=
  let r := filterLoop filter m.items.entries (m.items, [])
  if r.2.length > 0 then ({ items := r.1, index := Heap.Init nonceHeap.Less r.1.keys, cache := none }, r.2)
  else ({ m with items := r.1 }, r.2)

/-- The loop of `Cap`: `size` goes down from the map's size to `threshold + 1`, dropping the
transaction of the `size`-th least nonce; `k` is `size - threshold`. `none` where the sorted
index has no such position, where Go panics. -/
def capLoop (sorted : List UInt64) (threshold : ℕ) :
    ℕ → AList (fun _ : UInt64 => Transaction) × List Transaction →
      Option (AList (fun _ : UInt64 => Transaction) × List Transaction)
  | 0, r => some r
  | k + 1, (items, drops) =>
    match sorted[threshold + k]? with
    | some nonce => capLoop sorted threshold k (items.erase nonce, drops ++ (items.lookup nonce).toList)
    | none => none

/-- `Cap`; `none` where it panics. -/
def Cap (m : txSortedMap) (threshold : ℕ) : Option (txSortedMap × List Transaction) :=
  if m.items.keys.length ≤ threshold then some (m, []) else
  let sorted := m.index.mergeSort fun a b => decide (a ≤ b)
  (capLoop sorted threshold (m.items.keys.length - threshold) (m.items, [])).bind fun r =>
    if threshold ≤ sorted.length then
      some ({ items := r.1, index := Heap.Init nonceHeap.Less (sorted.take threshold),
              cache := m.cache.map fun c => c.take (c.length - r.2.length) }, r.2)
    else none

/-- `Remove`: whether the nonce was there. -/
def Remove (m : txSortedMap) (nonce : UInt64) : txSortedMap × Bool :=
  if m.items.lookup nonce = none then (m, false) else
  let index := match m.index.idxOf? nonce with
    | some i =>
      match Heap.Remove nonceHeap.Less m.index i with
      | some (_, index) => index
      | none => m.index
    | none => m.index
  ({ items := m.items.erase nonce, index, cache := none }, true)

/-- The loop of `Ready`: the least nonce leaves while it is `next`, which goes up by one. -/
def readyLoop : ℕ → txSortedMap → UInt64 → List Transaction → txSortedMap × List Transaction
  | 0, m, _, ready => (m, ready)
  | fuel + 1, m, next, ready =>
    match m.index.head?, Heap.Pop nonceHeap.Less m.index with
    | some first, some (_, index) =>
      if first = next then
        readyLoop fuel { m with items := m.items.erase next, index } (next + 1)
          (ready ++ (m.items.lookup next).toList)
      else (m, ready)
    | _, _ => (m, ready)

def Ready (m : txSortedMap) (start : UInt64) : txSortedMap × List Transaction :=
  match m.index.head? with
  | none => (m, [])
  | some first =>
    if first > start then (m, []) else
    let r := readyLoop m.index.length m first []
    ({ r.1 with cache := none }, r.2)

def Len (m : txSortedMap) : ℕ := m.items.keys.length

/-- `Flatten`: the cache, made first if there is none. -/
def Flatten (m : txSortedMap) : txSortedMap × List Transaction :=
  match m.cache with
  | some c => (m, c)
  | none =>
    let c := (values m.items).mergeSort fun a b => decide (a.Nonce ≤ b.Nonce)
    ({ m with cache := some c }, c)

end txSortedMap

/-- `txList`. -/
structure txList where
  strict : Bool
  txs : txSortedMap
  costcap : ℤ
  gascap : UInt64

def newTxList (strict : Bool) : txList := ⟨strict, newTxSortedMap, 0, 0⟩

/-- Go's conversion to `int64`: the two's complement value of the low 64 bits. -/
def int64 (x : ℤ) : ℤ := x.bmod (2 ^ 64)

namespace txList

def Overlaps (l : txList) (tx : Transaction) : Bool := (l.txs.Get tx.Nonce).isSome

/-- `Add`: the list, whether `tx` went in, and the transaction it replaced. The bumped price is
`old * (100 + priceBump) / 100` with `100 + priceBump` computed in `int64`. -/
def Add (l : txList) (tx : Transaction) (priceBump : UInt64) : txList × Bool × Option Transaction :=
  let old := l.txs.Get tx.Nonce
  let rejected := match old with
    | some old =>
      let threshold := old.GasPrice * int64 (100 + priceBump.toNat) / 100
      decide (old.GasPrice ≥ tx.GasPrice) || decide (threshold > tx.GasPrice)
    | none => false
  if rejected then (l, false, none) else
  ({ strict := l.strict, txs := l.txs.Put tx,
     costcap := if l.costcap < tx.Cost then tx.Cost else l.costcap,
     gascap := if l.gascap < tx.Gas then tx.Gas else l.gascap }, true, old)

def Forward (l : txList) (threshold : UInt64) : txList × List Transaction :=
  let r := l.txs.Forward threshold
  ({ l with txs := r.1 }, r.2)

/-- `Filter`: the removed and, in strict mode, the invalidated transactions. -/
def Filter (l : txList) (costLimit : ℤ) (gasLimit : UInt64) : txList × List Transaction × List Transaction :=
  if l.costcap ≤ costLimit ∧ l.gascap ≤ gasLimit then (l, [], []) else
  let r := l.txs.Filter fun tx => decide (tx.Cost > costLimit) || decide (tx.Gas > gasLimit)
  let inv := if l.strict ∧ r.2.length > 0 then
      let lowest := r.2.foldl (fun lowest tx => if lowest > tx.Nonce then tx.Nonce else lowest)
        0xFFFFFFFFFFFFFFFF
      r.1.Filter fun tx => decide (tx.Nonce > lowest)
    else (r.1, [])
  ({ l with txs := inv.1, costcap := costLimit, gascap := gasLimit }, r.2, inv.2)

def Cap (l : txList) (threshold : ℕ) : Option (txList × List Transaction) :=
  (l.txs.Cap threshold).map fun r => ({ l with txs := r.1 }, r.2)

/-- `Remove`: whether `tx`'s nonce was there, and in strict mode the transactions after it. -/
def Remove (l : txList) (tx : Transaction) : txList × Bool × List Transaction :=
  let nonce := tx.Nonce
  let r := l.txs.Remove nonce
  if !r.2 then (l, false, []) else
  if l.strict then
    let f := r.1.Filter fun tx => decide (tx.Nonce > nonce)
    ({ l with txs := f.1 }, true, f.2)
  else ({ l with txs := r.1 }, true, [])

def Ready (l : txList) (start : UInt64) : txList × List Transaction :=
  let r := l.txs.Ready start
  ({ l with txs := r.1 }, r.2)

def Len (l : txList) : ℕ := l.txs.Len

def Empty (l : txList) : Bool := l.Len == 0

def Flatten (l : txList) : txList × List Transaction :=
  let r := l.txs.Flatten
  ({ l with txs := r.1 }, r.2)

/-- The methods that change a list. -/
inductive Op
  | Add (tx : Transaction) (priceBump : UInt64)
  | Forward (threshold : UInt64)
  | Filter (costLimit : ℤ) (gasLimit : UInt64)
  | Cap (threshold : ℕ)
  | Remove (tx : Transaction)
  | Ready (start : UInt64)
  | Flatten

def step (l : txList) : Op → Option txList
  | .Add tx priceBump => some (l.Add tx priceBump).1
  | .Forward threshold => some (l.Forward threshold).1
  | .Filter costLimit gasLimit => some (l.Filter costLimit gasLimit).1
  | .Cap threshold => (l.Cap threshold).map Prod.fst
  | .Remove tx => some (l.Remove tx).1
  | .Ready start => some (l.Ready start).1
  | .Flatten => some l.Flatten.1

def run : List Op → txList → Option txList
  | [], l => some l
  | op :: ops, l => (step l op).bind (run ops)

end txList

/-! ## The invariant of a sorted map -/

theorem nonceHeap_strictWeak : Heap.StrictWeak nonceHeap.Less := by
  refine ⟨fun a b h => ?_, fun a b c hab hbc => ?_⟩ <;>
    simp only [nonceHeap.Less, decide_eq_true_eq, decide_eq_false_iff_not, UInt64.lt_iff_toNat_lt] at * <;>
    omega

/-- The transactions of a sorted list from its start whose nonces run `next`, `next + 1`, .... -/
def consecutive (next : UInt64) : List Transaction → List Transaction
  | [] => []
  | x :: c => if x.Nonce = next then x :: consecutive (next + 1) c else []

/-- What `Ready` is to return of the sorted transactions: the run of consecutive nonces from the
least one, when that one is at most `start`. -/
def readyRun (start : UInt64) : List Transaction → List Transaction
  | [] => []
  | x :: c => if x.Nonce ≤ start then consecutive x.Nonce (x :: c) else []

namespace txSortedMap

/-- `c` is the transactions of `items` sorted by nonce. -/
def SortedOf (items : AList (fun _ : UInt64 => Transaction)) (c : List Transaction) : Prop :=
  c.Perm (values items) ∧ c.Pairwise fun a b => a.Nonce < b.Nonce

/-- Each transaction is stored under its own nonce. -/
def Keyed (items : AList (fun _ : UInt64 => Transaction)) : Prop :=
  ∀ n tx, items.lookup n = some tx → tx.Nonce = n

/-- The map and its heap agree: each transaction is under its nonce, and the heap is a heap of
exactly the map's nonces. -/
structure Indexed (m : txSortedMap) : Prop where
  keyed : Keyed m.items
  index : m.index.Perm m.items.keys
  heap : Heap.IsHeap nonceHeap.Less m.index

/-- What every method keeps: the heap agrees with the map, and the cache, when there is one, is
the map's transactions sorted by nonce. -/
structure Wf (m : txSortedMap) : Prop extends Indexed m where
  cache : ∀ c, m.cache = some c → SortedOf m.items c

section Sorted

variable {items : AList (fun _ : UInt64 => Transaction)} {c c' : List Transaction}

theorem Keyed.map_nonce (hk : Keyed items) : (values items).map Transaction.Nonce = items.keys :=
  map_values hk

theorem Keyed.lookup_nonce (hk : Keyed items) {x : Transaction} (hx : x ∈ values items) :
    items.lookup x.Nonce = some x := by
  obtain ⟨n, hn⟩ := mem_values.1 hx
  rwa [← hk n x hn] at hn

theorem Keyed.erase (hk : Keyed items) (n : UInt64) : Keyed (items.erase n) := fun k tx hkt => by
  by_cases hkn : k = n
  · subst hkn
    simp [AList.lookup_erase] at hkt
  · exact hk k tx (by rwa [AList.lookup_erase_ne hkn] at hkt)

theorem SortedOf.erase (hk : Keyed items) (hc : SortedOf items c) {x : Transaction} (hx : x ∈ c) :
    SortedOf (items.erase x.Nonce) (c.erase x) := by
  have hv : (values items).Perm (x :: values (items.erase x.Nonce)) :=
    values_erase (hk.lookup_nonce (hc.1.subset hx))
  exact ⟨((List.perm_cons_erase hx).symm.trans (hc.1.trans hv)).cons_inv, hc.2.sublist List.erase_sublist⟩

theorem SortedOf.eq (hc : SortedOf items c) (hc' : SortedOf items c') : c = c' :=
  List.Perm.eq_of_pairwise (fun _ _ _ _ hab hba => absurd (UInt64.lt_trans hab hba) (UInt64.lt_irrefl _))
    hc.2 hc'.2 (hc.1.trans hc'.1.symm)

theorem SortedOf.nonces (hk : Keyed items) (hc : SortedOf items c) :
    (c.map Transaction.Nonce).Perm items.keys :=
  hk.map_nonce ▸ hc.1.map _

theorem Keyed.sortedOf (hk : Keyed items) :
    SortedOf items ((values items).mergeSort fun a b => decide (a.Nonce ≤ b.Nonce)) := by
  have hp := List.mergeSort_perm (values items) fun a b => decide (a.Nonce ≤ b.Nonce)
  have htrans : ∀ a b c : Transaction, decide (a.Nonce ≤ b.Nonce) = true → decide (b.Nonce ≤ c.Nonce) = true →
      decide (a.Nonce ≤ c.Nonce) = true := by
    simp only [decide_eq_true_eq, UInt64.le_iff_toNat_le]
    omega
  have htotal : ∀ a b : Transaction, (decide (a.Nonce ≤ b.Nonce) || decide (b.Nonce ≤ a.Nonce)) = true := by
    simp only [Bool.or_eq_true, decide_eq_true_eq, UInt64.le_iff_toNat_le]
    omega
  have hn : (((values items).mergeSort fun a b => decide (a.Nonce ≤ b.Nonce)).map Transaction.Nonce).Nodup :=
    (hp.map _).nodup_iff.2 (hk.map_nonce ▸ items.keys_nodup)
  refine ⟨hp, ((List.pairwise_mergeSort htrans htotal (values items)).and (List.pairwise_map.1 hn)).imp ?_⟩
  rintro a b ⟨hle, hne⟩
  simp only [decide_eq_true_eq] at hle
  exact UInt64.lt_of_le_of_ne hle hne

end Sorted

section Index

variable {m : txSortedMap} {x : Transaction} {c : List Transaction}

theorem Indexed.length_index (hi : Indexed m) (hc : SortedOf m.items c) : m.index.length = c.length :=
  hi.index.length_eq.trans ((hc.nonces hi.keyed).length_eq.symm.trans (List.length_map _))

theorem Indexed.head_index (hi : Indexed m) (hc : SortedOf m.items (x :: c)) : m.index.head? = some x.Nonce := by
  have hperm : m.index.Perm ((x :: c).map Transaction.Nonce) := hi.index.trans (hc.nonces hi.keyed).symm
  obtain ⟨r, rs, hr⟩ : ∃ r rs, m.index = r :: rs :=
    List.exists_cons_of_ne_nil fun h => by simp [h] at hperm
  rw [hr, List.head?_cons]
  have hxr : x.Nonce ≤ r := by
    obtain ⟨y, hy, rfl⟩ := List.mem_map.1 (hperm.subset (show r ∈ m.index by simp [hr]))
    rcases List.mem_cons.1 hy with rfl | hy
    · exact UInt64.le_refl _
    · exact UInt64.le_of_lt (List.rel_of_pairwise_cons hc.2 hy)
  have hrx : nonceHeap.Less x.Nonce r = false :=
    Heap.IsHeap.not_less_root nonceHeap_strictWeak hi.heap (by simp [hr])
      (hperm.symm.subset List.mem_cons_self)
  simp only [nonceHeap.Less, decide_eq_false_iff_not, UInt64.not_lt] at hrx
  exact congrArg some (UInt64.le_antisymm hrx hxr)

theorem Indexed.pop (hi : Indexed m) (hc : SortedOf m.items (x :: c)) :
    ∃ index, Heap.Pop nonceHeap.Less m.index = some (x.Nonce, index) ∧ m.items.lookup x.Nonce = some x ∧
      Indexed { m with items := m.items.erase x.Nonce, index } ∧ SortedOf (m.items.erase x.Nonce) c := by
  have hhead := hi.head_index hc
  obtain ⟨⟨r, index⟩, hp⟩ : ∃ p, Heap.Pop nonceHeap.Less m.index = some p :=
    Option.ne_none_iff_exists'.1 fun he => by simp [Heap.Pop_eq_none.1 he] at hhead
  have hr : r = x.Nonce := by
    have := Heap.Pop_head hp
    rw [← List.head?_eq_getElem?, hhead] at this
    exact (Option.some.inj this).symm
  subst hr
  have hlook := hi.keyed.lookup_nonce (hc.1.subset List.mem_cons_self)
  have hkeys : x.Nonce ∈ m.items.keys := AList.mem_keys.1 (AList.lookup_isSome.1 (by simp [hlook]))
  refine ⟨index, hp, hlook, ⟨hi.keyed.erase _, ?_, Heap.Pop_heap nonceHeap_strictWeak hi.heap hp⟩, ?_⟩
  · rw [AList.keys_erase]
    exact ((Heap.Pop_perm hp).trans (hi.index.trans (List.perm_cons_erase hkeys))).cons_inv
  · simpa using hc.erase hi.keyed List.mem_cons_self

theorem Wf.exists_sortedOf (hw : Wf m) : ∃ c, SortedOf m.items c := ⟨_, hw.keyed.sortedOf⟩

theorem SortedOf.values_subset {m' : txSortedMap} {c' : List Transaction} (hc : SortedOf m.items c)
    (hc' : SortedOf m'.items c') (h : c' ⊆ c) : values m'.items ⊆ values m.items :=
  fun _ hx => hc.1.subset (h (hc'.1.symm.subset hx))

theorem Indexed.setCache (hi : Indexed m) (cache : Option (List Transaction)) : Indexed { m with cache } :=
  ⟨hi.keyed, hi.index, hi.heap⟩

theorem Indexed.index_nil (hi : Indexed m) (hc : SortedOf m.items []) : m.index = [] :=
  List.eq_nil_of_length_eq_zero (hi.length_index hc)

end Index

section Loops

/-- Each turn of `Forward`'s loop moves the least transaction from the map to what is removed,
while its nonce is below the threshold. -/
theorem forwardLoop_spec (t : UInt64) (fuel : ℕ) (m : txSortedMap) (c removed : List Transaction)
    (hi : Indexed m) (hc : SortedOf m.items c) (hf : m.index.length ≤ fuel) :
    (forwardLoop t fuel m removed).2 = removed ++ c.takeWhile (fun tx => decide (tx.Nonce < t)) ∧
      Indexed (forwardLoop t fuel m removed).1 ∧
      SortedOf (forwardLoop t fuel m removed).1.items (c.dropWhile fun tx => decide (tx.Nonce < t)) ∧
      (forwardLoop t fuel m removed).1.cache = m.cache := by
  induction fuel generalizing m c removed with
  | zero =>
    have hc0 : c = [] := List.eq_nil_of_length_eq_zero ((hi.length_index hc).symm.trans (by omega))
    subst hc0
    simp [forwardLoop, hi, hc]
  | succ fuel ih =>
    cases c with
    | nil => simp [forwardLoop, hi.index_nil hc, hi, hc]
    | cons x c =>
      obtain ⟨index, hp, hl, hi', hc'⟩ := hi.pop hc
      have hlen := Heap.length_Pop hp
      rw [forwardLoop, hi.head_index hc, hp]
      by_cases hx : x.Nonce < t
      · obtain ⟨h1, h2, h3, h4⟩ := ih _ c (removed ++ [x]) hi' hc' (by dsimp only; omega)
        simp only [if_pos hx, hl, Option.toList_some, List.takeWhile_cons, List.dropWhile_cons,
          decide_eq_true hx]
        exact ⟨by simp [h1], h2, h3, h4⟩
      · simp [hx, hi, hc]

/-- Each turn of `Ready`'s loop moves the least transaction from the map to what is ready, while
its nonce is the next one. -/
theorem readyLoop_spec (fuel : ℕ) (m : txSortedMap) (next : UInt64) (c ready : List Transaction)
    (hi : Indexed m) (hc : SortedOf m.items c) (hf : m.index.length ≤ fuel) :
    (readyLoop fuel m next ready).2 = ready ++ consecutive next c ∧
      Indexed (readyLoop fuel m next ready).1 ∧
      SortedOf (readyLoop fuel m next ready).1.items (c.drop (consecutive next c).length) := by
  induction fuel generalizing m next c ready with
  | zero =>
    have hc0 : c = [] := List.eq_nil_of_length_eq_zero ((hi.length_index hc).symm.trans (by omega))
    subst hc0
    simp [readyLoop, consecutive, hi, hc]
  | succ fuel ih =>
    cases c with
    | nil => simp [readyLoop, consecutive, hi.index_nil hc, hi, hc]
    | cons x c =>
      obtain ⟨index, hp, hl, hi', hc'⟩ := hi.pop hc
      have hlen := Heap.length_Pop hp
      rw [readyLoop, hi.head_index hc, hp]
      by_cases hx : x.Nonce = next
      · subst hx
        obtain ⟨h1, h2, h3⟩ := ih _ (x.Nonce + 1) c (ready ++ [x]) hi' hc' (by dsimp only; omega)
        simp only [hl, Option.toList_some, consecutive]
        exact ⟨by simp [h1], h2, h3⟩
      · simp [hx, consecutive, hi, hc]

/-- `Filter`'s loop removes from the map and returns, in the order of the entries, the
transactions that `f` holds of. -/
theorem filterLoop_spec (f : Transaction → Bool) (es : List (Σ _ : UInt64, Transaction))
    (items : AList (fun _ : UInt64 => Transaction)) (removed : List Transaction) :
    (filterLoop f es (items, removed)).2 = removed ++ (es.map Sigma.snd).filter f ∧
      ∀ n, (filterLoop f es (items, removed)).1.lookup n =
        if es.any (fun e => decide (e.1 = n) && f e.2) then none else items.lookup n := by
  induction es generalizing items removed with
  | nil => simp [filterLoop]
  | cons e es ih =>
    rw [filterLoop]
    by_cases hf : f e.2 = true
    · rw [if_pos hf]
      obtain ⟨h1, h2⟩ := ih (items.erase e.1) (removed ++ [e.2])
      refine ⟨by simp [h1, hf], fun n => ?_⟩
      rw [h2]
      by_cases hn : e.1 = n
      · subst hn
        simp [hf]
      · rw [AList.lookup_erase_ne (Ne.symm hn), List.any_cons, decide_eq_false hn, Bool.false_and,
          Bool.false_or]
    · rw [if_neg hf]
      obtain ⟨h1, h2⟩ := ih items removed
      refine ⟨by simp [h1, hf], fun n => ?_⟩
      rw [h2, List.any_cons, Bool.eq_false_iff.2 hf, Bool.and_false, Bool.false_or]

theorem filterLoop_of_none (f : Transaction → Bool) (es : List (Σ _ : UInt64, Transaction))
    (items : AList (fun _ : UInt64 => Transaction)) (removed : List Transaction)
    (h : ∀ e ∈ es, f e.2 = false) : filterLoop f es (items, removed) = (items, removed) := by
  induction es with
  | nil => rfl
  | cons e es ih =>
    rw [filterLoop, if_neg (by simp [h e List.mem_cons_self])]
    exact ih fun e' he' => h e' (List.mem_cons_of_mem _ he')

/-- `Filter` returns exactly the transactions `f` holds of and keeps the others, indexed; either
nothing changed or the cache is dropped. -/
theorem Filter_spec {m : txSortedMap} (hi : Indexed m) (f : Transaction → Bool) :
    (m.Filter f).2 = (values m.items).filter f ∧
      (∀ n, (m.Filter f).1.items.lookup n = (m.items.lookup n).filter fun tx => !f tx) ∧
      Indexed (m.Filter f).1 ∧ ((m.Filter f).1 = m ∨ (m.Filter f).1.cache = none) := by
  obtain ⟨h1, h2⟩ := filterLoop_spec f m.items.entries m.items []
  have hvals : (filterLoop f m.items.entries (m.items, [])).2 = (values m.items).filter f := by
    simpa [values] using h1
  have hlook : ∀ n, (filterLoop f m.items.entries (m.items, [])).1.lookup n =
      (m.items.lookup n).filter fun tx => !f tx := by
    intro n
    rw [h2, any_entries]
    cases m.items.lookup n with
    | none => rfl
    | some tx => cases h : f tx <;> simp [Option.filter, h]
  have hkeyed : Keyed (filterLoop f m.items.entries (m.items, [])).1 := fun n tx hn => by
    rw [hlook, Option.filter_eq_some_iff] at hn
    exact hi.keyed n tx hn.1
  unfold Filter
  dsimp only
  split_ifs with hpos
  · exact ⟨hvals, hlook, ⟨hkeyed, Heap.Init_perm _, Heap.Init_heap nonceHeap_strictWeak _⟩, .inr rfl⟩
  · -- nothing matched, so the loop erased nothing
    have hnone : ∀ e ∈ m.items.entries, f e.2 = false := by
      intro e he
      have hnil : (values m.items).filter f = [] := by
        rw [← hvals]
        exact List.eq_nil_of_length_eq_zero (by omega)
      simpa using List.filter_eq_nil_iff.1 hnil e.2 (List.mem_map_of_mem he)
    rw [filterLoop_of_none f _ _ _ hnone] at hvals hlook ⊢
    exact ⟨hvals, hlook, hi, .inl rfl⟩

end Loops

/-! ## The methods keep the invariant -/

section Methods

variable {m : txSortedMap} {c : List Transaction}

theorem Indexed.put (hi : Indexed m) (tx : Transaction) : Indexed (m.Put tx) := by
  refine ⟨fun n t hn => ?_, ?_, ?_⟩
  · by_cases hnt : n = tx.Nonce
    · subst hnt
      simp only [Put, AList.lookup_insert, Option.some.injEq] at hn
      rw [← hn]
    · simp only [Put, AList.lookup_insert_ne hnt] at hn
      exact hi.keyed n t hn
  · simp only [Put, AList.keys_insert]
    split_ifs with hn
    · -- a new nonce goes on the heap
      have hnk : tx.Nonce ∉ m.items.keys := fun h => AList.lookup_eq_none.1 hn (AList.mem_keys.1 h)
      rw [List.erase_of_not_mem hnk]
      exact (Heap.Push_perm _ _).trans ((hi.index.append_right [tx.Nonce]).trans (List.perm_append_singleton _ _))
    · have hnk : tx.Nonce ∈ m.items.keys := AList.mem_keys.2 (Classical.not_not.1 (mt AList.lookup_eq_none.2 hn))
      exact hi.index.trans (List.perm_cons_erase hnk)
  · simp only [Put]
    split_ifs
    · exact Heap.Push_heap nonceHeap_strictWeak hi.heap _
    · exact hi.heap

theorem Wf.put (hi : Indexed m) (tx : Transaction) : Wf (m.Put tx) :=
  ⟨hi.put tx, fun _ h => by cases h⟩

/-- `Remove` erases the nonce from the map and, where it was there, from the heap. -/
theorem Indexed.remove (hi : Indexed m) (n : UInt64) :
    Indexed (m.Remove n).1 ∧ (∀ k, (m.Remove n).1.items.lookup k = (m.items.erase n).lookup k) ∧
      ((m.Remove n).1 = m ∨ (m.Remove n).1.cache = none) := by
  unfold Remove
  split_ifs with hn
  · -- absent: nothing changes
    refine ⟨hi, fun k => ?_, .inl rfl⟩
    by_cases hk : k = n
    · subst hk
      simp [hn, AList.lookup_erase]
    · rw [AList.lookup_erase_ne hk]
  · have hnk : n ∈ m.items.keys := AList.mem_keys.2 (Classical.not_not.1 (mt AList.lookup_eq_none.2 hn))
    obtain ⟨i, hidx⟩ : ∃ i, m.index.idxOf? n = some i :=
      Option.isSome_iff_exists.1 (List.isSome_idxOf?.2 (hi.index.symm.subset hnk))
    obtain ⟨hlt, hget, -⟩ := List.idxOf?_eq_some_iff.1 hidx
    obtain ⟨⟨y, index⟩, hr⟩ : ∃ p, Heap.Remove nonceHeap.Less m.index i = some p :=
      Option.ne_none_iff_exists'.1 fun he => by simp [Heap.Remove_eq_none.1 he] at hlt
    have hy : y = n := by
      have := Heap.Remove_getElem? hlt hr
      rw [List.getElem?_eq_getElem hlt, hget] at this
      exact (Option.some.inj this).symm
    subst hy
    simp only [hidx, hr]
    refine ⟨⟨hi.keyed.erase y, ?_, Heap.Remove_heap nonceHeap_strictWeak hi.heap hlt hr⟩, fun _ => trivial, .inr trivial⟩
    rw [AList.keys_erase]
    exact ((Heap.Remove_perm hr).trans (hi.index.trans (List.perm_cons_erase hnk))).cons_inv

theorem Wf.remove (hw : Wf m) (n : UInt64) :
    Wf (m.Remove n).1 ∧ values (m.Remove n).1.items ⊆ values m.items := by
  obtain ⟨hi, hlook, hm⟩ := hw.toIndexed.remove n
  refine ⟨⟨hi, ?_⟩, fun x hx => ?_⟩
  · rcases hm with hm | hm
    · rw [hm]
      exact hw.cache
    · rw [hm]
      exact fun _ h => by cases h
  · obtain ⟨k, hk⟩ := mem_values.1 hx
    rw [hlook k] at hk
    exact (values_erase_sublist m.items n).subset (mem_values.2 ⟨k, hk⟩)

theorem Indexed.mergeSort_index (hi : Indexed m) (hc : SortedOf m.items c) :
    m.index.mergeSort (fun a b => decide (a ≤ b)) = c.map Transaction.Nonce := by
  have htrans : ∀ a b c : UInt64, decide (a ≤ b) = true → decide (b ≤ c) = true → decide (a ≤ c) = true := by
    simp only [decide_eq_true_eq]
    exact fun _ _ _ => UInt64.le_trans
  have htotal : ∀ a b : UInt64, (decide (a ≤ b) || decide (b ≤ a)) = true := by
    simp only [Bool.or_eq_true, decide_eq_true_eq]
    exact UInt64.le_total
  refine List.Perm.eq_of_pairwise
    (fun a b _ _ hab hba => UInt64.le_antisymm (by simpa using hab) (by simpa using hba))
    (List.pairwise_mergeSort htrans htotal _) ?_
    ((List.mergeSort_perm _ _).trans (hi.index.trans (hc.nonces hi.keyed).symm))
  exact List.pairwise_map.2 (hc.2.imp fun h => by simpa using UInt64.le_of_lt h)

/-- Each turn of `Cap`'s loop drops the greatest nonce left above the threshold. -/
theorem capLoop_spec (txs : List Transaction) (threshold k : ℕ) (items : AList (fun _ : UInt64 => Transaction))
    (drops : List Transaction) (hk : threshold + k ≤ txs.length) (hkeyed : Keyed items)
    (hc : SortedOf items (txs.take (threshold + k))) :
    ∃ items', capLoop (txs.map Transaction.Nonce) threshold k (items, drops) =
        some (items', drops ++ ((txs.take (threshold + k)).drop threshold).reverse) ∧
      Keyed items' ∧ SortedOf items' (txs.take threshold) := by
  induction k generalizing items drops with
  | zero => exact ⟨items, by simp [capLoop], hkeyed, hc⟩
  | succ k ih =>
    have hlt : threshold + k < txs.length := by omega
    have htake : txs.take (threshold + (k + 1)) = txs.take (threshold + k) ++ [txs[threshold + k]] := by
      rw [← Nat.add_assoc, List.take_add_one, List.getElem?_eq_getElem hlt]
      rfl
    have hx : txs[threshold + k] ∈ txs.take (threshold + (k + 1)) := by
      rw [htake]
      exact List.mem_append_right _ (List.mem_singleton_self _)
    have hnot : txs[threshold + k] ∉ txs.take (threshold + k) := fun hmem =>
      UInt64.lt_irrefl _ ((List.pairwise_append.1 (htake ▸ hc.2)).2.2 _ hmem _ (List.mem_singleton_self _))
    have herase : (txs.take (threshold + (k + 1))).erase txs[threshold + k] = txs.take (threshold + k) := by
      rw [htake, List.erase_append_right _ hnot, List.erase_cons_head, List.append_nil]
    obtain ⟨items', hrun, hk', hc'⟩ := ih (items.erase txs[threshold + k].Nonce) (drops ++ [txs[threshold + k]])
      (by omega) (hkeyed.erase _) (herase ▸ hc.erase hkeyed hx)
    refine ⟨items', ?_, hk', hc'⟩
    rw [capLoop, List.getElem?_map, List.getElem?_eq_getElem hlt]
    simp only [Option.map_some, hkeyed.lookup_nonce (hc.1.subset hx), Option.toList_some, hrun]
    rw [htake, List.drop_append_of_le_length (by simp; omega), List.reverse_append]
    simp

/-- `Cap` drops the transactions past the threshold, greatest first. -/
theorem Wf.cap (hw : Wf m) (hc : SortedOf m.items c) (threshold : ℕ) :
    ∃ m', m.Cap threshold = some (m', (c.drop threshold).reverse) ∧ Wf m' ∧
      SortedOf m'.items (c.take threshold) := by
  have hlen : m.items.keys.length = c.length :=
    (hc.nonces hw.keyed).length_eq.symm.trans (List.length_map _)
  unfold Cap
  split_ifs with hle <;> rw [hlen] at hle
  · -- nothing over the threshold
    exact ⟨m, by simp [List.drop_eq_nil_of_le hle], hw, by rwa [List.take_of_length_le hle]⟩
  · have hsum : threshold + (c.length - threshold) = c.length := by omega
    rw [hw.mergeSort_index hc, hlen]
    dsimp only
    obtain ⟨items', hrun, hk', hc'⟩ := capLoop_spec c threshold (c.length - threshold) m.items []
      (by omega) hw.keyed (by rwa [hsum, List.take_length])
    rw [hsum, List.take_length, List.nil_append] at hrun
    rw [hrun, Option.bind_some, if_pos (by rw [List.length_map]; omega)]
    refine ⟨_, rfl, ⟨⟨hk', ?_, Heap.Init_heap nonceHeap_strictWeak _⟩, ?_⟩, hc'⟩
    · rw [← List.map_take]
      exact (Heap.Init_perm _).trans (hc'.nonces hk')
    · -- the cache loses as many from its back as were dropped
      intro c0 hc0
      obtain ⟨c1, hc1, rfl⟩ := Option.map_eq_some_iff.1 hc0
      rw [(hw.cache c1 hc1).eq hc, List.length_reverse, List.length_drop,
        show c.length - (c.length - threshold) = threshold by omega]
      exact hc'

theorem Wf.filter (hw : Wf m) (f : Transaction → Bool) :
    Wf (m.Filter f).1 ∧ (values (m.Filter f).1.items).Perm ((values m.items).filter fun tx => !f tx) := by
  obtain ⟨-, hlook, hi, hm⟩ := Filter_spec hw.toIndexed f
  refine ⟨⟨hi, ?_⟩, values_perm_of_lookup hlook⟩
  rcases hm with hm | hm
  · rw [hm]
    exact hw.cache
  · rw [hm]
    exact fun _ h => by cases h

theorem Wf.flatten (hw : Wf m) (hc : SortedOf m.items c) :
    m.Flatten.2 = c ∧ Wf m.Flatten.1 ∧ m.Flatten.1.items = m.items := by
  unfold Flatten
  cases hcache : m.cache with
  | some c0 => exact ⟨(hw.cache c0 hcache).eq hc, hw, rfl⟩
  | none =>
    have hs := hw.keyed.sortedOf
    dsimp only
    refine ⟨hs.eq hc, ⟨hw.setCache _, fun c' hc' => ?_⟩, rfl⟩
    cases hc'
    exact hs

theorem Wf.forward (hw : Wf m) (hc : SortedOf m.items c) (t : UInt64) :
    (m.Forward t).2 = c.takeWhile (fun tx => decide (tx.Nonce < t)) ∧ Wf (m.Forward t).1 ∧
      SortedOf (m.Forward t).1.items (c.dropWhile fun tx => decide (tx.Nonce < t)) := by
  obtain ⟨h1, h2, h3, h4⟩ := forwardLoop_spec t m.index.length m c [] hw.toIndexed hc (Nat.le_refl _)
  rw [List.nil_append] at h1
  refine ⟨h1, ⟨h2.setCache _, fun c' hc' => ?_⟩, h3⟩
  obtain ⟨c0, hc0, rfl⟩ := Option.map_eq_some_iff.1 hc'
  rw [h4] at hc0
  rw [h1, (hw.cache c0 hc0).eq hc]
  have hdrop : c.drop (c.takeWhile fun tx => decide (tx.Nonce < t)).length =
      c.dropWhile fun tx => decide (tx.Nonce < t) := by
    calc c.drop (c.takeWhile fun tx => decide (tx.Nonce < t)).length
        = ((c.takeWhile fun tx => decide (tx.Nonce < t)) ++ c.dropWhile fun tx => decide (tx.Nonce < t)).drop
            (c.takeWhile fun tx => decide (tx.Nonce < t)).length := by rw [List.takeWhile_append_dropWhile]
      _ = c.dropWhile fun tx => decide (tx.Nonce < t) := List.drop_left
  rw [hdrop]
  exact h3

theorem Wf.ready (hw : Wf m) (hc : SortedOf m.items c) (start : UInt64) :
    (m.Ready start).2 = readyRun start c ∧ Wf (m.Ready start).1 ∧
      SortedOf (m.Ready start).1.items (c.drop (readyRun start c).length) := by
  unfold Ready
  cases c with
  | nil => simp [hw.index_nil hc, readyRun, hw, hc]
  | cons x c =>
    rw [hw.head_index hc]
    by_cases hx : x.Nonce ≤ start
    · obtain ⟨h1, h2, h3⟩ := readyLoop_spec m.index.length m x.Nonce (x :: c) [] hw.toIndexed hc (Nat.le_refl _)
      simp only [gt_iff_lt, UInt64.not_lt.2 hx, if_false, readyRun, if_pos hx]
      exact ⟨h1, ⟨h2.setCache _, fun _ h => by cases h⟩, h3⟩
    · simp [UInt64.not_le.1 hx, readyRun, hx, hw, hc]

end Methods

end txSortedMap

/-! ## The invariant of a list -/

/-- The transactions `Filter` removes for being over the limits. -/
def overLimits (costLimit : ℤ) (gasLimit : UInt64) (tx : Transaction) : Bool :=
  decide (tx.Cost > costLimit) || decide (tx.Gas > gasLimit)

/-- The transactions a strict `Filter` also removes: within the limits, with a nonce above one
that is over them. -/
def invalidated (strict : Bool) (costLimit : ℤ) (gasLimit : UInt64) (txs : List Transaction)
    (tx : Transaction) : Bool :=
  strict && !overLimits costLimit gasLimit tx &&
    txs.any fun y => overLimits costLimit gasLimit y && decide (y.Nonce < tx.Nonce)

theorem overLimits_eq_false {costLimit : ℤ} {gasLimit : UInt64} {tx : Transaction} :
    overLimits costLimit gasLimit tx = false ↔ tx.Cost ≤ costLimit ∧ tx.Gas ≤ gasLimit := by
  simp [overLimits]

theorem foldl_lowest_lt (r : List Transaction) (init n : UInt64) :
    r.foldl (fun lowest tx => if lowest > tx.Nonce then tx.Nonce else lowest) init < n ↔
      init < n ∨ ∃ y ∈ r, y.Nonce < n := by
  induction r generalizing init with
  | nil => simp
  | cons y r ih =>
    have hmin : (if init > y.Nonce then y.Nonce else init) < n ↔ init < n ∨ y.Nonce < n := by
      split_ifs with h <;> simp only [gt_iff_lt, UInt64.lt_iff_toNat_lt] at h ⊢ <;> omega
    rw [List.foldl_cons, ih, hmin, or_assoc]
    simp only [List.mem_cons, exists_eq_or_imp]

theorem lowest_lt (r : List Transaction) (n : UInt64) :
    r.foldl (fun lowest tx => if lowest > tx.Nonce then tx.Nonce else lowest) 0xFFFFFFFFFFFFFFFF < n ↔
      ∃ y ∈ r, y.Nonce < n := by
  rw [foldl_lowest_lt, or_iff_right]
  have := n.toNat_lt_size
  simp only [UInt64.lt_iff_toNat_lt, UInt64.reduceToNat]
  simp only [UInt64.size] at this
  omega

namespace txList

/-- What every method keeps: the map's invariant, and caps at least every stored transaction's
cost and gas. -/
structure Wf (l : txList) : Prop where
  txs : txSortedMap.Wf l.txs
  caps : ∀ tx ∈ values l.txs.items, tx.Cost ≤ l.costcap ∧ tx.Gas ≤ l.gascap

section Methods

variable {l : txList}

theorem wf_newTxList (strict : Bool) : Wf (newTxList strict) :=
  ⟨⟨⟨fun _ _ h => (by cases h), .refl _, fun _ _ h => absurd h (Nat.not_lt_zero _)⟩, fun _ h => (by cases h)⟩,
    fun _ h => (by cases h)⟩

theorem Wf.of_subset (hw : Wf l) {txs : txSortedMap} (htxs : txSortedMap.Wf txs)
    (hsub : values txs.items ⊆ values l.txs.items) : Wf { l with txs } :=
  ⟨htxs, fun tx htx => hw.caps tx (hsub htx)⟩

theorem Wf.add (hw : Wf l) (tx : Transaction) (priceBump : UInt64) : Wf (l.Add tx priceBump).1 := by
  unfold Add
  dsimp only
  have hcost : l.costcap ≤ (if l.costcap < tx.Cost then tx.Cost else l.costcap) ∧
      tx.Cost ≤ (if l.costcap < tx.Cost then tx.Cost else l.costcap) := by
    split_ifs <;> omega
  have hgas : l.gascap ≤ (if l.gascap < tx.Gas then tx.Gas else l.gascap) ∧
      tx.Gas ≤ (if l.gascap < tx.Gas then tx.Gas else l.gascap) := by
    split_ifs with h <;> simp only [UInt64.le_iff_toNat_le, UInt64.lt_iff_toNat_lt] at h ⊢ <;> omega
  generalize (if l.costcap < tx.Cost then tx.Cost else l.costcap) = costcap at hcost ⊢
  generalize (if l.gascap < tx.Gas then tx.Gas else l.gascap) = gascap at hgas ⊢
  split_ifs
  · exact hw
  · refine ⟨txSortedMap.Wf.put hw.txs.toIndexed tx, fun t ht => ?_⟩
    have ht' : t ∈ tx :: values (l.txs.items.erase tx.Nonce) := by
      rw [← values_insert]
      exact ht
    rcases List.mem_cons.1 ht' with rfl | ht'
    · exact ⟨hcost.2, hgas.2⟩
    · obtain ⟨hc, hg⟩ := hw.caps t ((values_erase_sublist _ _).subset ht')
      exact ⟨le_trans hc hcost.1, UInt64.le_trans hg hgas.1⟩

theorem Wf.forward (hw : Wf l) (t : UInt64) : Wf (l.Forward t).1 := by
  obtain ⟨c, hc⟩ := hw.txs.exists_sortedOf
  obtain ⟨-, h2, h3⟩ := hw.txs.forward hc t
  exact hw.of_subset h2 (hc.values_subset h3 (List.dropWhile_sublist _).subset)

theorem Wf.cap (hw : Wf l) (threshold : ℕ) : ∃ r, l.Cap threshold = some r ∧ Wf r.1 := by
  obtain ⟨c, hc⟩ := hw.txs.exists_sortedOf
  obtain ⟨m', hcap, h2, h3⟩ := hw.txs.cap hc threshold
  refine ⟨_, by rw [Cap, hcap]; rfl, hw.of_subset h2 (hc.values_subset h3 (List.take_sublist _ _).subset)⟩

theorem Wf.remove (hw : Wf l) (tx : Transaction) : Wf (l.Remove tx).1 := by
  obtain ⟨hr, hsub⟩ := hw.txs.remove tx.Nonce
  unfold Remove
  dsimp only
  split_ifs
  · exact hw
  · -- strict: the transactions after the removed nonce go too
    obtain ⟨hf, hperm⟩ := hr.filter fun t => decide (t.Nonce > tx.Nonce)
    exact hw.of_subset hf fun x hx => hsub (List.mem_filter.1 (hperm.subset hx)).1
  · exact hw.of_subset hr hsub

theorem Wf.ready (hw : Wf l) (start : UInt64) : Wf (l.Ready start).1 := by
  obtain ⟨c, hc⟩ := hw.txs.exists_sortedOf
  obtain ⟨-, h2, h3⟩ := hw.txs.ready hc start
  exact hw.of_subset h2 (hc.values_subset h3 (List.drop_sublist _ _).subset)

theorem Wf.flatten (hw : Wf l) : Wf l.Flatten.1 := by
  obtain ⟨c, hc⟩ := hw.txs.exists_sortedOf
  obtain ⟨-, h2, h3⟩ := hw.txs.flatten hc
  exact hw.of_subset h2 fun _ hx => by rwa [h3] at hx

/-- `Filter` removes exactly the transactions over the limits, and in strict mode also those
above the least nonce it removed; the short cut on the caps skips none. -/
theorem Wf.filter (hw : Wf l) (costLimit : ℤ) (gasLimit : UInt64) :
    (l.Filter costLimit gasLimit).2.1 = (values l.txs.items).filter (overLimits costLimit gasLimit) ∧
      (l.Filter costLimit gasLimit).2.2.Perm
        ((values l.txs.items).filter (invalidated l.strict costLimit gasLimit (values l.txs.items))) ∧
      Wf (l.Filter costLimit gasLimit).1 := by
  have hover : (fun tx : Transaction => decide (tx.Cost > costLimit) || decide (tx.Gas > gasLimit)) =
      overLimits costLimit gasLimit := rfl
  unfold Filter
  rw [hover]
  dsimp only
  split_ifs with hcap hs
  · -- the caps bound every transaction, so none is over the limits
    have hnone : ∀ tx ∈ values l.txs.items, overLimits costLimit gasLimit tx = false := fun tx htx =>
      overLimits_eq_false.2 ⟨le_trans (hw.caps tx htx).1 hcap.1, UInt64.le_trans (hw.caps tx htx).2 hcap.2⟩
    have hany : ∀ tx : Transaction, ((values l.txs.items).any fun y =>
        overLimits costLimit gasLimit y && decide (y.Nonce < tx.Nonce)) = false := fun tx =>
      List.any_eq_false.2 fun y hy => by simp [hnone y hy]
    refine ⟨(List.filter_eq_nil_iff.2 fun tx htx => by simp [hnone tx htx]).symm, ?_, hw⟩
    rw [List.filter_eq_nil_iff.2 fun tx _ => by simp [invalidated, hany tx]]
  all_goals
    obtain ⟨h1, -, -, -⟩ := txSortedMap.Filter_spec hw.txs.toIndexed (overLimits costLimit gasLimit)
    obtain ⟨hw1, hperm1⟩ := hw.txs.filter (overLimits costLimit gasLimit)
    -- what is left is within the limits, which become the caps
    have hleft : ∀ tx ∈ values (l.txs.Filter (overLimits costLimit gasLimit)).1.items,
        tx.Cost ≤ costLimit ∧ tx.Gas ≤ gasLimit := fun tx htx =>
      overLimits_eq_false.1 (by simpa using (List.mem_filter.1 (hperm1.subset htx)).2)
  · -- strict, and something was removed: the nonces above the least removed go too
    set lowest := (l.txs.Filter (overLimits costLimit gasLimit)).2.foldl
      (fun lowest (tx : Transaction) => if lowest > tx.Nonce then tx.Nonce else lowest) 0xFFFFFFFFFFFFFFFF
      with hlowest
    obtain ⟨g1, -, -, -⟩ := txSortedMap.Filter_spec hw1.toIndexed fun tx : Transaction => decide (tx.Nonce > lowest)
    obtain ⟨hw2, hperm2⟩ := hw1.filter fun tx : Transaction => decide (tx.Nonce > lowest)
    refine ⟨h1, ?_, ⟨hw2, fun tx htx => hleft tx (List.mem_filter.1 (hperm2.subset htx)).1⟩⟩
    rw [g1]
    refine (hperm1.filter _).trans ?_
    rw [List.filter_filter]
    refine List.Perm.of_eq (List.filter_congr fun tx _ => ?_)
    have hlow : decide (tx.Nonce > lowest) = (values l.txs.items).any fun y =>
        overLimits costLimit gasLimit y && decide (y.Nonce < tx.Nonce) := by
      apply Bool.eq_iff_iff.2
      rw [decide_eq_true_iff, gt_iff_lt, hlowest, lowest_lt, h1, List.any_eq_true]
      simp [List.mem_filter, and_assoc]
    simp only [invalidated, hs.1, Bool.true_and, hlow, Bool.and_comm]
  · -- otherwise nothing more goes: not strict, or nothing removed and so nothing above it
    refine ⟨h1, ?_, ⟨hw1, hleft⟩⟩
    rw [List.filter_eq_nil_iff.2 fun tx _ => ?_]
    cases hstrict : l.strict
    · simp [invalidated]
    · have hnil : (l.txs.Filter (overLimits costLimit gasLimit)).2 = [] := by
        simpa [hstrict] using hs
      rw [h1, List.filter_eq_nil_iff] at hnil
      have hany : ((values l.txs.items).any fun y =>
          overLimits costLimit gasLimit y && decide (y.Nonce < tx.Nonce)) = false :=
        List.any_eq_false.2 fun y hy => by simp [hnil y hy]
      simp [invalidated, hany]

theorem Add_replaces_iff (l : txList) (tx old : Transaction) (priceBump : UInt64)
    (hold : l.txs.Get tx.Nonce = some old) :
    (l.Add tx priceBump).2.1 = true ↔
      old.GasPrice < tx.GasPrice ∧ old.GasPrice * int64 (100 + priceBump.toNat) / 100 ≤ tx.GasPrice := by
  unfold Add
  simp only [hold]
  generalize old.GasPrice * int64 (100 + priceBump.toNat) / 100 = threshold
  split_ifs with h <;> simp only [Bool.or_eq_true, decide_eq_true_eq] at h <;> simp <;> omega

theorem Add_of_get_none (l : txList) (tx : Transaction) (priceBump : UInt64) (h : l.txs.Get tx.Nonce = none) :
    (l.Add tx priceBump).2.1 = true := by
  simp [Add, h]

theorem Wf.step (hw : Wf l) {l' : txList} (op : Op) (h : step l op = some l') : Wf l' := by
  cases op with
  | Add tx priceBump => exact Option.some.inj h ▸ hw.add tx priceBump
  | Forward threshold => exact Option.some.inj h ▸ hw.forward threshold
  | Filter costLimit gasLimit => exact Option.some.inj h ▸ (hw.filter costLimit gasLimit).2.2
  | Cap threshold =>
    obtain ⟨r, hr, hwr⟩ := hw.cap threshold
    rw [txList.step, hr, Option.map_some] at h
    exact Option.some.inj h ▸ hwr
  | Remove tx => exact Option.some.inj h ▸ hw.remove tx
  | Ready start => exact Option.some.inj h ▸ hw.ready start
  | Flatten => exact Option.some.inj h ▸ hw.flatten

theorem Wf.run (hw : Wf l) {ops : List Op} {l' : txList} (h : run ops l = some l') : Wf l' := by
  induction ops generalizing l with
  | nil => exact Option.some.inj h ▸ hw
  | cons op ops ih =>
    obtain ⟨l₁, h₁, h₂⟩ := Option.bind_eq_some_iff.1 h
    exact ih (hw.step op h₁) h₂

end Methods

end txList

open TransactionsByPriceAndNonce (transfer)

/-- A strict list after two transactions at consecutive nonces. -/
def twoTransfers : txList :=
  (((newTxList true).Add (transfer 0 1 0) 10).1.Add (transfer 1 1 0) 10).1

/-- With a bump whose `100 + priceBump` wraps in `int64`, a price of 101 replaces one of 100 though
it is far below `100 * (100 + priceBump) / 100`. -/
theorem Add_priceBump_wraps :
    txList.run [.Add (transfer 0 100 0) 10] (newTxList false) =
        some ((newTxList false).Add (transfer 0 100 0) 10).1 ∧
      ((newTxList false).Add (transfer 0 100 0) 10).1.txs.Get 0 = some (transfer 0 100 0) ∧
      (((newTxList false).Add (transfer 0 100 0) 10).1.Add (transfer 0 101 0) 0xFFFFFFFFFFFFFFFF).2.1 = true ∧
      ¬ ((100 : ℤ) * (100 + (0xFFFFFFFFFFFFFFFF : UInt64).toNat) / 100 ≤ 101) :=
  ⟨rfl, rfl, by decide, by decide⟩

end EthereumAI.Core
