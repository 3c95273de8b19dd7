import Mathlib
import EthereumAI.Common.Types
import EthereumAI.Lib.Heap

/-! # Transactions, and the order the miner takes them in (`core/types/transaction.go`)

`TransactionsByPriceAndNonce` keeps, for each account, the transactions after its first one,
and the first ones in a heap by `TxByPrice`, the dearest at the root. `Peek` reads the root,
`Shift` puts the account's next transaction in its place, and `Pop` drops the root with
nothing in its place. Over every run of `Shift` and `Pop` calls, what is left of each account
is a suffix of what it was given; `Pop` empties the root's account, and draining what is left
with `Peek` and `Shift` yields each account's transactions once and in their order, each one
at least as dear as the first of what is left of every account when it is taken.
-/

namespace EthereumAI.Types

open Lib.Heap (StrictWeak IsHeap)

/-- `Transaction`, the fields of its `txdata` under the names of their accessors; `To` is
`none` for a contract creation. -/
structure Transaction where
  Nonce : UInt64
  GasPrice : ℤ
  Gas : UInt64
  To : Option Address
  Value : ℤ
  Data : Bytes
  V : ℤ
  R : ℤ
  S : ℤ
deriving DecidableEq, Repr

/-- `Cost`: `amount + gasprice * gaslimit`. -/
def Transaction.Cost (tx : Transaction) : ℤ := tx.GasPrice * tx.Gas.toNat + tx.Value

/-- What the code computes from a transaction's encoding and signature, which the model leaves
open: `tx.Hash()`, `tx.Size()`, and the signer's `Sender`, `none` where recovery fails. -/
structure TxCodec where
  Hash : Transaction → Hash
  Size : Transaction → ℕ
  Sender : Transaction → Option Address

/-- `TxByNonce.Less`. -/
def TxByNonce (a b : Transaction) : Bool := decide (a.Nonce < b.Nonce)

/-- `TxByPrice.Less`: the dearer transaction first. -/
def TxByPrice (a b : Transaction) : Bool := decide (b.GasPrice < a.GasPrice)

theorem TxByPrice_eq_false {a b : Transaction} : TxByPrice a b = false ↔ a.GasPrice ≤ b.GasPrice := by
  simp [TxByPrice]

theorem TxByPrice_strictWeak : StrictWeak TxByPrice := by
  refine ⟨fun a b hab => ?_, fun a b c hab hbc => ?_⟩
  · simp only [TxByPrice, decide_eq_true_eq] at hab
    exact TxByPrice_eq_false.2 hab.le
  · rw [TxByPrice_eq_false] at hab hbc ⊢
    exact hab.trans hbc

/-- `TransactionsByPriceAndNonce`: each account's transactions after its head, and the heads. -/
structure TransactionsByPriceAndNonce where
  txs : AList (fun _ : Address => List Transaction)
  heads : List Transaction

namespace TransactionsByPriceAndNonce

section Model

variable (codec : TxCodec)

/-- `acc, _ := Sender(signer, tx)`: the zero address where recovery fails. -/
def senderOf (tx : Transaction) : Address := (codec.Sender tx).getD 0

/-- One turn of the loop of `NewTransactionsByPriceAndNonce`, at the key `frm`: the first
transaction joins the heads and the others are stored under its sender. A key the loop has
deleted is not visited, as Go's `range` does not produce it, and `accTxs[0]` of an empty list
panics. -/
def newStep (st : AList (fun _ : Address => List Transaction) × List Transaction) (frm : Address) :
    Option (AList (fun _ : Address => List Transaction) × List Transaction) :=
  match st.1.lookup frm with
  | none => some st
  | some [] => none
  | some (tx :: rest) =>
    let acc := senderOf codec tx
    let txs := st.1.insert acc rest
    some (if frm ≠ acc then txs.erase frm else txs, st.2 ++ [tx])

end Model

end TransactionsByPriceAndNonce

open TransactionsByPriceAndNonce in
/-- `NewTransactionsByPriceAndNonce`, `none` where it panics. -/
def NewTransactionsByPriceAndNonce (codec : TxCodec) (txs : AList (fun _ : Address => List Transaction)) :
    Option TransactionsByPriceAndNonce :=
  (txs.keys.foldlM (newStep codec) (txs, [])).map fun st => ⟨st.1, Lib.Heap.Init TxByPrice st.2⟩

namespace TransactionsByPriceAndNonce

section Model

variable (codec : TxCodec)

/-- `Peek`: the dearest head. -/
def Peek (t : TransactionsByPriceAndNonce) : Option Transaction := t.heads.head?

/-- `Shift`: the next transaction of the dearest head's account takes its place, or the head
leaves the heap if there is none; `none` where `t.heads[0]` panics. -/
def Shift (t : TransactionsByPriceAndNonce) : Option TransactionsByPriceAndNonce :=
  match t.heads with
  | [] => none
  | head :: _ =>
    let acc := senderOf codec head
    match t.txs.lookup acc with
    | some (tx :: rest) => some ⟨t.txs.insert acc rest, Lib.Heap.Fix TxByPrice (t.heads.set 0 tx) 0⟩
    | _ => (Lib.Heap.Pop TxByPrice t.heads).map fun p => ⟨t.txs, p.2⟩

/-- `Pop`: the dearest head leaves the heap, with nothing in its place. -/
def Pop (t : TransactionsByPriceAndNonce) : Option TransactionsByPriceAndNonce :=
  (Lib.Heap.Pop TxByPrice t.heads).map fun p => ⟨t.txs, p.2⟩

/-- The calls `commitTransactions` makes after a `Peek`. -/
inductive Op
  | Shift
  | Pop
deriving DecidableEq, Repr

def step (t : TransactionsByPriceAndNonce) : Op → Option TransactionsByPriceAndNonce
  | .Shift => Shift codec t
  | .Pop => Pop t

def run : List Op → TransactionsByPriceAndNonce → Option TransactionsByPriceAndNonce
  | [], t => some t
  | op :: ops, t => (step codec t op).bind (run ops)

/-- The loop of `commitTransactions` when every transaction commits: `Peek` and `Shift` until
`Peek` finds nothing, with fuel; the transactions it takes. -/
def drain : ℕ → TransactionsByPriceAndNonce → List Transaction
  | 0, _ => []
  | fuel + 1, t =>
    match Peek t, Shift codec t with
    | some tx, some t' => tx :: drain fuel t'
    | _, _ => []

/-- What is left of account `a`: its head, if one is in the heap, and what is stored after it. -/
def rest (t : TransactionsByPriceAndNonce) (a : Address) : List Transaction :=
  match t.heads.find? (fun h => codec.Sender h = some a) with
  | some h => h :: (t.txs.lookup a).getD []
  | none => []

/-- How many transactions are left. -/
def size (t : TransactionsByPriceAndNonce) : ℕ :=
  (t.heads.map fun h => (rest codec t (senderOf codec h)).length).sum

/-- What `NewTransactionsByPriceAndNonce` sets up and `Shift` and `Pop` keep: the heads are a
heap, each signed, no two by one account, and what is stored under an account is signed by
it. -/
structure Wf (t : TransactionsByPriceAndNonce) : Prop where
  heap : IsHeap TxByPrice t.heads
  signed : ∀ h ∈ t.heads, (codec.Sender h).isSome
  nodup : (t.heads.map codec.Sender).Nodup
  stored : ∀ a l, t.txs.lookup a = some l → ∀ tx ∈ l, codec.Sender tx = some a

/-- `ys` is what draining the accounts' transactions `q` yields, as the miner needs it: each
account's transactions once and in order, nothing unsigned, and each one at least as dear as
the first of what is left of every account when it is taken. -/
structure Yields (q : Address → List Transaction) (ys : List Transaction) : Prop where
  each : ∀ a, ys.filter (fun y => codec.Sender y = some a) = q a
  signed : ∀ y ∈ ys, (codec.Sender y).isSome
  dearest : ∀ i (hi : i < ys.length) a z,
    ((q a).drop ((ys.take i).countP fun y => codec.Sender y = some a)).head? = some z →
      z.GasPrice ≤ ys[i].GasPrice

end Model

/-! ## What is left of each account -/

section Rest

variable {codec : TxCodec} {t t' : TransactionsByPriceAndNonce} {a : Address}

theorem rest_of_mem (hn : (t.heads.map codec.Sender).Nodup) {h : Transaction} (hh : h ∈ t.heads)
    (ha : codec.Sender h = some a) : rest codec t a = h :: (t.txs.lookup a).getD [] := by
  obtain ⟨h', hf⟩ : ∃ h', t.heads.find? (fun h => codec.Sender h = some a) = some h' :=
    Option.isSome_iff_exists.1 (List.find?_isSome.2 ⟨h, hh, by simpa using ha⟩)
  have hh' : h' ∈ t.heads := List.mem_of_find?_eq_some hf
  have ha' : codec.Sender h' = some a := by simpa using List.find?_some hf
  rw [rest, hf, List.inj_on_of_nodup_map hn hh' hh (ha'.trans ha.symm)]

theorem rest_of_forall (hno : ∀ h ∈ t.heads, codec.Sender h ≠ some a) : rest codec t a = [] := by
  rw [rest, List.find?_eq_none.2 fun h hh => by simpa using hno h hh]

theorem mem_heads_of_rest {z : Transaction} (hz : (rest codec t a).head? = some z) :
    z ∈ t.heads ∧ codec.Sender z = some a := by
  unfold rest at hz
  split at hz
  · rename_i h hf
    cases hz
    exact ⟨List.mem_of_find?_eq_some hf, by simpa using List.find?_some hf⟩
  · cases hz

theorem rest_congr (hn : (t.heads.map codec.Sender).Nodup) (hn' : (t'.heads.map codec.Sender).Nodup)
    (hmem : ∀ h, codec.Sender h = some a → (h ∈ t'.heads ↔ h ∈ t.heads))
    (hl : t'.txs.lookup a = t.txs.lookup a) : rest codec t' a = rest codec t a := by
  by_cases hex : ∃ h ∈ t.heads, codec.Sender h = some a
  · obtain ⟨h, hh, ha⟩ := hex
    rw [rest_of_mem hn hh ha, rest_of_mem hn' ((hmem h ha).2 hh) ha, hl]
  · simp only [not_exists, not_and] at hex
    rw [rest_of_forall hex, rest_of_forall fun h hh ha => hex h ((hmem h ha).1 hh) ha]

end Rest

/-! ## One call -/

section Step

variable {codec : TxCodec} {t : TransactionsByPriceAndNonce} {x : Transaction}

theorem Wf.sender_ne (hw : Wf codec t) {ax : Address} (hx : codec.Sender x = some ax) {l : List Transaction}
    (hl : (x :: l).Perm t.heads) {h : Transaction} (hh : h ∈ l) : codec.Sender h ≠ some ax := by
  have hn : ((x :: l).map codec.Sender).Nodup := (hl.map _).nodup_iff.2 hw.nodup
  rw [List.map_cons, List.nodup_cons] at hn
  intro he
  rw [hx, ← he] at hn
  exact hn.1 (List.mem_map_of_mem hh)

/-- The root of the heads leaves the heap: its account has nothing left, the others keep what
they had. -/
theorem Wf.pop_heads (hw : Wf codec t) (hx : Peek t = some x) :
    ∃ hs, Lib.Heap.Pop TxByPrice t.heads = some (x, hs) ∧ Wf codec ⟨t.txs, hs⟩ ∧
      ∀ a, rest codec ⟨t.txs, hs⟩ a = if codec.Sender x = some a then [] else rest codec t a := by
  obtain ⟨ax, hax⟩ := Option.isSome_iff_exists.1 (hw.signed x (List.mem_of_mem_head? hx))
  obtain ⟨⟨x', hs⟩, hp⟩ : ∃ p, Lib.Heap.Pop TxByPrice t.heads = some p := by
    refine Option.ne_none_iff_exists'.1 fun he => ?_
    rw [Lib.Heap.Pop_eq_none] at he
    simp [Peek, he] at hx
  have hx' : x = x' := by
    have := Lib.Heap.Pop_head hp
    rw [← List.head?_eq_getElem?] at this
    exact Option.some.inj (hx.symm.trans this)
  subst hx'
  have hperm := Lib.Heap.Pop_perm hp
  have hsub : ∀ h ∈ hs, h ∈ t.heads := fun h hh => hperm.subset (List.mem_cons_of_mem _ hh)
  have hn : (hs.map codec.Sender).Nodup :=
    ((hperm.map _).nodup_iff.2 hw.nodup).of_cons
  refine ⟨hs, hp, ⟨Lib.Heap.Pop_heap TxByPrice_strictWeak hw.heap hp,
    fun h hh => hw.signed h (hsub h hh), hn, hw.stored⟩, fun a => ?_⟩
  split_ifs with ha
  · obtain rfl : a = ax := Option.some.inj (ha.symm.trans hax)
    exact rest_of_forall fun h hh => hw.sender_ne hax hperm hh
  · refine rest_congr hw.nodup hn (fun h hh => ⟨hsub h, fun hm => ?_⟩) rfl
    rcases List.mem_cons.1 (hperm.symm.subset hm) with rfl | hm'
    · exact absurd hh ha
    · exact hm'

theorem Shift_of_lookup {tl : List Transaction} {y : Transaction} {ys : List Transaction}
    (hh : t.heads = x :: tl) (hl : t.txs.lookup (senderOf codec x) = some (y :: ys)) :
    Shift codec t =
      some ⟨t.txs.insert (senderOf codec x) ys, Lib.Heap.Fix TxByPrice (t.heads.set 0 y) 0⟩ := by
  obtain ⟨txs, heads⟩ := t
  dsimp only at hh hl ⊢
  subst hh
  simp [Shift, hl]

theorem Shift_of_lookup_nil {tl : List Transaction} (hh : t.heads = x :: tl)
    (hl : (t.txs.lookup (senderOf codec x)).getD [] = []) : Shift codec t = Pop t := by
  obtain ⟨txs, heads⟩ := t
  dsimp only at hh hl ⊢
  subst hh
  unfold Shift Pop
  dsimp only
  split
  · rename_i y ys hyl
    simp [hyl] at hl
  · rfl

theorem Wf.shift_last (hw : Wf codec t) (hx : Peek t = some x) {ax : Address} (hax : codec.Sender x = some ax)
    (hrx : rest codec t ax = x :: (t.txs.lookup ax).getD []) (hl : (t.txs.lookup ax).getD [] = []) :
    ∃ t', Shift codec t = some t' ∧ Wf codec t' ∧
      ∀ a, rest codec t' a = if codec.Sender x = some a then (rest codec t a).tail else rest codec t a := by
  obtain ⟨hs, hp, hw', hr⟩ := hw.pop_heads hx
  have hs' : Shift codec t = some ⟨t.txs, hs⟩ := by
    obtain ⟨tl, hht⟩ := List.head?_eq_some_iff.1 hx
    have hacc : senderOf codec x = ax := by simp [senderOf, hax]
    rw [Shift_of_lookup_nil hht (hacc ▸ hl)]
    simp [Pop, hp]
  refine ⟨_, hs', hw', fun a => ?_⟩
  rw [hr a]
  split_ifs with ha
  · cases hax.symm.trans ha
    rw [hrx, hl]
    rfl
  · rfl

/-- `Shift` takes the root's account's next transaction, or drops the root if there is none:
either way the root's account loses its first transaction. -/
theorem Wf.shift (hw : Wf codec t) (hx : Peek t = some x) :
    ∃ t', Shift codec t = some t' ∧ Wf codec t' ∧
      ∀ a, rest codec t' a = if codec.Sender x = some a then (rest codec t a).tail else rest codec t a := by
  obtain ⟨tl, hht⟩ := List.head?_eq_some_iff.1 hx
  have hxm : x ∈ t.heads := by simp [hht]
  obtain ⟨ax, hax⟩ := Option.isSome_iff_exists.1 (hw.signed x hxm)
  have hrx : rest codec t ax = x :: (t.txs.lookup ax).getD [] := rest_of_mem hw.nodup hxm hax
  have hacc : senderOf codec x = ax := by simp [senderOf, hax]
  cases hl : t.txs.lookup ax with
  | some l =>
    cases l with
    | cons y ys =>
      -- the account's next transaction takes the root's place
      have hy : codec.Sender y = some ax := hw.stored ax _ hl y (by simp)
      have hs : Shift codec t = some ⟨t.txs.insert ax ys, Lib.Heap.Fix TxByPrice (t.heads.set 0 y) 0⟩ := by
        rw [Shift_of_lookup hht (hacc ▸ hl), hacc]
      have hperm : (Lib.Heap.Fix TxByPrice (t.heads.set 0 y) 0).Perm (y :: tl) := by
        rw [hht, List.set_cons_zero]
        exact Lib.Heap.Fix_perm _ 0
      have hsame : ((y :: tl).map codec.Sender) = t.heads.map codec.Sender := by simp [hht, hy, hax]
      have hn : ((Lib.Heap.Fix TxByPrice (t.heads.set 0 y) 0).map codec.Sender).Nodup :=
        (hperm.map _).nodup_iff.2 (hsame ▸ hw.nodup)
      refine ⟨_, hs, ⟨Lib.Heap.Fix_heap TxByPrice_strictWeak hw.heap (by simp [hht]) y,
        fun h hh => ?_, hn, fun b l hb => ?_⟩, fun a => ?_⟩
      · rcases List.mem_cons.1 (hperm.subset hh) with rfl | hh'
        · simp [hy]
        · exact hw.signed h (by simp [hht, hh'])
      · by_cases hba : b = ax
        · subst hba
          rw [AList.lookup_insert] at hb
          cases hb
          exact fun tx htx => hw.stored _ _ hl tx (List.mem_cons_of_mem _ htx)
        · rw [AList.lookup_insert_ne hba] at hb
          exact hw.stored b l hb
      · split_ifs with ha
        · cases hax.symm.trans ha
          rw [rest_of_mem hn (hperm.symm.subset List.mem_cons_self) hy, AList.lookup_insert, hrx, hl]
          rfl
        · have hne : a ≠ ax := fun he => ha (he ▸ hax)
          refine rest_congr hw.nodup hn (fun h hh => ?_) (AList.lookup_insert_ne hne)
          rw [hperm.mem_iff, hht, List.mem_cons, List.mem_cons]
          have hyh : h ≠ y := fun he => hne (Option.some.inj (hh.symm.trans (he ▸ hy)))
          have hxh : h ≠ x := fun he => hne (Option.some.inj (hh.symm.trans (he ▸ hax)))
          simp [hyh, hxh]
    | nil => exact hw.shift_last hx hax hrx (by simp [hl])
  | none => exact hw.shift_last hx hax hrx (by simp [hl])

theorem Wf.pop (hw : Wf codec t) (hx : Peek t = some x) :
    ∃ t', Pop t = some t' ∧ Wf codec t' ∧
      ∀ a, rest codec t' a = if codec.Sender x = some a then [] else rest codec t a := by
  obtain ⟨hs, hp, hw', hr⟩ := hw.pop_heads hx
  exact ⟨_, by simp [Pop, hp], hw', hr⟩

theorem Wf.le_peek (hw : Wf codec t) (hx : Peek t = some x) {a : Address} {z : Transaction}
    (hz : (rest codec t a).head? = some z) : z.GasPrice ≤ x.GasPrice := by
  have hroot : t.heads[0]? = some x := by simpa [Peek, List.head?_eq_getElem?] using hx
  exact TxByPrice_eq_false.1
    (Lib.Heap.IsHeap.not_less_root TxByPrice_strictWeak hw.heap hroot (mem_heads_of_rest hz).1)

end Step

/-! ## Draining -/

section Drain

variable {codec : TxCodec} {t t' : TransactionsByPriceAndNonce} {x : Transaction}

theorem Wf.senderOf_eq (hw : Wf codec t) {h : Transaction} (hh : h ∈ t.heads) :
    codec.Sender h = some (senderOf codec h) := by
  obtain ⟨b, hb⟩ := Option.isSome_iff_exists.1 (hw.signed h hh)
  simp [senderOf, hb]

theorem Wf.nodup_senders (hw : Wf codec t) : (t.heads.map (senderOf codec)).Nodup :=
  (List.Nodup.of_map _ hw.nodup).map_on fun h hh h' hh' he =>
    List.inj_on_of_nodup_map hw.nodup hh hh' (by rw [hw.senderOf_eq hh, hw.senderOf_eq hh', he])

theorem Wf.mem_senders (hw : Wf codec t) {a : Address} :
    a ∈ t.heads.map (senderOf codec) ↔ rest codec t a ≠ [] := by
  constructor
  · intro hm
    obtain ⟨h, hh, rfl⟩ := List.mem_map.1 hm
    simp [rest_of_mem hw.nodup hh (hw.senderOf_eq hh)]
  · intro hne
    obtain ⟨z, l, hz⟩ := List.exists_cons_of_ne_nil hne
    obtain ⟨hzm, hza⟩ := mem_heads_of_rest (by rw [hz]; rfl : (rest codec t a).head? = some z)
    exact List.mem_map.2 ⟨z, hzm, by simp [senderOf, hza]⟩

theorem Wf.size_eq (hw : Wf codec t) :
    size codec t = ∑ a ∈ (t.heads.map (senderOf codec)).toFinset, (rest codec t a).length := by
  rw [List.sum_toFinset _ hw.nodup_senders, List.map_map]
  rfl

/-- A call that takes the first transaction of the root's account leaves one fewer. -/
theorem Wf.size_tail (hw : Wf codec t) (hw' : Wf codec t') (hx : x ∈ t.heads)
    (hr : ∀ a, rest codec t' a = if codec.Sender x = some a then (rest codec t a).tail else rest codec t a) :
    size codec t' + 1 = size codec t := by
  have hax := hw.senderOf_eq hx
  generalize senderOf codec x = ax at hax
  have hsub : (t'.heads.map (senderOf codec)).toFinset ⊆ (t.heads.map (senderOf codec)).toFinset := by
    intro a ha
    rw [List.mem_toFinset, hw'.mem_senders, hr] at ha
    rw [List.mem_toFinset, hw.mem_senders]
    split_ifs at ha
    · exact fun he => ha (by rw [he]; rfl)
    · exact ha
  have hmem : ax ∈ (t.heads.map (senderOf codec)).toFinset := by
    rw [List.mem_toFinset, hw.mem_senders, rest_of_mem hw.nodup hx hax]
    simp
  have hzero : ∀ a ∈ (t.heads.map (senderOf codec)).toFinset,
      a ∉ (t'.heads.map (senderOf codec)).toFinset → (rest codec t' a).length = 0 := by
    intro a _ ha
    rw [List.mem_toFinset, hw'.mem_senders, not_not] at ha
    rw [ha]
    rfl
  have hothers : ∀ a ∈ ((t.heads.map (senderOf codec)).toFinset).erase ax,
      (rest codec t' a).length = (rest codec t a).length := by
    intro a ha
    rw [hr, if_neg fun he => (Finset.mem_erase.1 ha).1 (Option.some.inj (he.symm.trans hax))]
  rw [hw'.size_eq, hw.size_eq, Finset.sum_subset hsub hzero, ← Finset.add_sum_erase _ _ hmem,
    ← Finset.add_sum_erase _ _ hmem, Finset.sum_congr rfl hothers, hr, if_pos hax,
    rest_of_mem hw.nodup hx hax]
  simp only [List.tail_cons, List.length_cons]
  omega

theorem Yields.nil {q : Address → List Transaction} (hq : ∀ a, q a = []) : Yields codec q [] :=
  ⟨fun a => (hq a).symm, fun _ h => absurd h List.not_mem_nil, fun _ hi => absurd hi (Nat.not_lt_zero _)⟩

/-- Taking `x`, the first of its account and at least as dear as the first of every account,
then yielding what is left. -/
theorem Yields.cons {q q' : Address → List Transaction} {ys : List Transaction} (hy : Yields codec q' ys)
    {ax : Address} (hx : codec.Sender x = some ax) (hq : q ax = x :: q' ax) (hq' : ∀ a, a ≠ ax → q' a = q a)
    (hmax : ∀ a z, (q a).head? = some z → z.GasPrice ≤ x.GasPrice) : Yields codec q (x :: ys) := by
  refine ⟨fun a => ?_, fun y hy' => ?_, fun i hi a z hz => ?_⟩
  · by_cases ha : a = ax
    · subst ha
      rw [List.filter_cons_of_pos (by simpa using hx), hy.each, hq]
    · rw [List.filter_cons_of_neg (by simpa [hx] using Ne.symm ha), hy.each, hq' a ha]
  · rcases List.mem_cons.1 hy' with rfl | hy'
    · simp [hx]
    · exact hy.signed y hy'
  · cases i with
    | zero => exact hmax a z (by simpa using hz)
    | succ j =>
      rw [List.take_succ_cons, List.countP_cons] at hz
      have hj : j < ys.length := by simpa using hi
      refine hy.dearest j hj a z ?_
      by_cases ha : a = ax
      · subst ha
        rw [hq, if_pos (by simpa using hx), List.drop_succ_cons] at hz
        exact hz
      · rw [hq' a ha, if_neg (by simpa [hx] using Ne.symm ha), Nat.add_zero] at *
        exact hz

/-- Draining from a well-formed state yields what is left, as `Yields` reads it. -/
theorem Wf.drain_yields (hw : Wf codec t) {fuel : ℕ} (hf : size codec t ≤ fuel) :
    Yields codec (rest codec t) (drain codec fuel t) := by
  induction fuel generalizing t with
  | zero =>
    -- nothing is left: every head would count
    have hnil : t.heads = [] := by
      cases hh : t.heads with
      | nil => rfl
      | cons h hs =>
        have : 0 < size codec t := by
          rw [size, hh, List.map_cons, List.sum_cons, rest_of_mem hw.nodup (by simp [hh]) (hw.senderOf_eq (by simp [hh]))]
          simp only [List.length_cons]
          omega
        omega
    exact Yields.nil fun a => rest_of_forall (by simp [hnil])
  | succ fuel ih =>
    cases hx : Peek t with
    | none =>
      have hnil : t.heads = [] := List.head?_eq_none_iff.1 hx
      simp only [drain, hx]
      exact Yields.nil fun a => rest_of_forall (by simp [hnil])
    | some x =>
      obtain ⟨t', hs, hw', hr⟩ := hw.shift hx
      have hxm : x ∈ t.heads := List.mem_of_mem_head? hx
      have hax := hw.senderOf_eq hxm
      have hsize := hw.size_tail hw' hxm hr
      simp only [drain, hx, hs]
      refine (ih hw' (by omega)).cons hax ?_ (fun a ha => ?_) fun a z hz => hw.le_peek hx hz
      · rw [hr, if_pos hax, rest_of_mem hw.nodup hxm hax]
        rfl
      · rw [hr, if_neg fun he => ha (Option.some.inj (he.symm.trans hax))]

/-- Every run of calls keeps the state well formed and leaves each account a suffix of what it
had. -/
theorem Wf.run (hw : Wf codec t) {ops : List Op} (hr : run codec ops t = some t') :
    Wf codec t' ∧ ∀ a, ∃ k, rest codec t' a = (rest codec t a).drop k := by
  induction ops generalizing t with
  | nil =>
    cases hr
    exact ⟨hw, fun a => ⟨0, rfl⟩⟩
  | cons op ops ih =>
    obtain ⟨t₁, h₁, hr'⟩ := Option.bind_eq_some_iff.1 hr
    -- one call: it needs a root, and takes the root's account's first transaction or all of it
    have hstep : Wf codec t₁ ∧ ∀ a, ∃ k, rest codec t₁ a = (rest codec t a).drop k := by
      cases hx : Peek t with
      | none =>
        have hnil : t.heads = [] := List.head?_eq_none_iff.1 hx
        have hp : Lib.Heap.Pop TxByPrice [] = none := Lib.Heap.Pop_eq_none.2 rfl
        cases op <;> simp [step, Shift, Pop, hnil, hp] at h₁
      | some x =>
        cases op with
        | Shift =>
          obtain ⟨t'', hs, hw'', hr''⟩ := hw.shift hx
          rw [step, hs] at h₁
          cases h₁
          refine ⟨hw'', fun a => ⟨if codec.Sender x = some a then 1 else 0, ?_⟩⟩
          rw [hr'']
          split_ifs <;> simp
        | Pop =>
          obtain ⟨t'', hs, hw'', hr''⟩ := hw.pop hx
          rw [step, hs] at h₁
          cases h₁
          refine ⟨hw'', fun a => ⟨if codec.Sender x = some a then (rest codec t a).length else 0, ?_⟩⟩
          rw [hr'']
          split_ifs <;> simp
    obtain ⟨hw', hk⟩ := ih hstep.1 hr'
    refine ⟨hw', fun a => ?_⟩
    obtain ⟨k₁, hk₁⟩ := hstep.2 a
    obtain ⟨k₂, hk₂⟩ := hk a
    exact ⟨k₁ + k₂, by rw [hk₂, hk₁, List.drop_drop]⟩

end Drain

/-! ## Setting up -/

section New

variable {codec : TxCodec}

/-- The loop of `NewTransactionsByPriceAndNonce` over keys whose lists start with a transaction
they signed: each list's first transaction joins the heads, and the rest stays under the key. -/
theorem foldlM_newStep (ks : List Address) (hks : ks.Nodup)
    (st : AList (fun _ : Address => List Transaction) × List Transaction)
    (hst : ∀ k ∈ ks, ∃ tx rest, st.1.lookup k = some (tx :: rest) ∧ codec.Sender tx = some k) :
    ∃ txs, ks.foldlM (newStep codec) st =
        some (txs, st.2 ++ ks.filterMap fun k => (st.1.lookup k).bind List.head?) ∧
      ∀ k, txs.lookup k = if k ∈ ks then (st.1.lookup k).map List.tail else st.1.lookup k := by
  induction ks generalizing st with
  | nil => exact ⟨st.1, by simp, fun k => by simp⟩
  | cons k ks ih =>
    obtain ⟨tx, rest, hl, hsk⟩ := hst k List.mem_cons_self
    obtain ⟨hk, hks'⟩ := List.nodup_cons.1 hks
    have hstep : newStep codec st k = some (st.1.insert k rest, st.2 ++ [tx]) := by
      simp [newStep, hl, senderOf, hsk]
    have hne : ∀ k' ∈ ks, k' ≠ k := fun k' hk' he => hk (he ▸ hk')
    obtain ⟨txs, hfold, hlook⟩ := ih hks' (st.1.insert k rest, st.2 ++ [tx]) fun k' hk' => by
      rw [AList.lookup_insert_ne (hne k' hk')]
      exact hst k' (List.mem_cons_of_mem _ hk')
    refine ⟨txs, ?_, fun k' => ?_⟩
    · -- the later keys read the lists as they were
      have hrest : (ks.filterMap fun k' => ((st.1.insert k rest).lookup k').bind List.head?) =
          ks.filterMap fun k' => (st.1.lookup k').bind List.head? :=
        List.filterMap_congr fun k' hk' => by rw [AList.lookup_insert_ne (hne k' hk')]
      simp only [List.foldlM_cons, hstep, Option.bind_eq_bind, Option.bind_some, hfold, hrest,
        List.filterMap_cons, hl, List.head?_cons, List.append_assoc, List.singleton_append]
    · rw [hlook]
      by_cases hkk : k' = k
      · subst hkk
        simp [hk, AList.lookup_insert, hl]
      · simp [AList.lookup_insert_ne hkk, hkk]

/-- `NewTransactionsByPriceAndNonce` of a map from accounts to non-empty lists they signed sets
up a well-formed state in which what is left of each account is its list. -/
theorem New_wf {m : AList (fun _ : Address => List Transaction)}
    (hm : ∀ a l, m.lookup a = some l → l ≠ [] ∧ ∀ tx ∈ l, codec.Sender tx = some a) :
    ∃ t, NewTransactionsByPriceAndNonce codec m = some t ∧ Wf codec t ∧
      ∀ a, rest codec t a = (m.lookup a).getD [] := by
  have hst : ∀ k ∈ m.keys, ∃ tx rest, m.lookup k = some (tx :: rest) ∧ codec.Sender tx = some k := by
    intro k hk
    obtain ⟨l, hl⟩ := Option.isSome_iff_exists.1 (AList.lookup_isSome.2 (AList.mem_keys.2 hk))
    obtain ⟨tx, rest, rfl⟩ := List.exists_cons_of_ne_nil (hm k l hl).1
    exact ⟨tx, rest, hl, (hm k _ hl).2 tx List.mem_cons_self⟩
  obtain ⟨txs, hfold, hlook⟩ := foldlM_newStep m.keys m.keys_nodup (m, []) hst
  -- each head is the first transaction of the list of the account that signed it
  have hhead : ∀ h ∈ m.keys.filterMap (fun k => (m.lookup k).bind List.head?),
      ∃ l, m.lookup (senderOf codec h) = some (h :: l) ∧ codec.Sender h = some (senderOf codec h) := by
    intro h hh
    obtain ⟨k, -, hk⟩ := List.mem_filterMap.1 hh
    obtain ⟨l, hl, hlh⟩ := Option.bind_eq_some_iff.1 hk
    obtain ⟨l', rfl⟩ := List.head?_eq_some_iff.1 hlh
    have hs := (hm k _ hl).2 h List.mem_cons_self
    have hk' : senderOf codec h = k := by simp [senderOf, hs]
    rw [hk']
    exact ⟨l', hl, hs⟩
  have hnodup : ((m.keys.filterMap fun k => (m.lookup k).bind List.head?).map codec.Sender).Nodup := by
    refine List.Nodup.map_on (fun h hh h' hh' he => ?_) (m.keys_nodup.filterMap fun k k' h hk hk' => ?_)
    · obtain ⟨l, hl, hs⟩ := hhead h hh
      obtain ⟨l', hl', hs'⟩ := hhead h' hh'
      have hsame : senderOf codec h = senderOf codec h' := Option.some.inj (hs.symm.trans (he.trans hs'))
      rw [hsame, hl'] at hl
      exact (List.cons.inj (Option.some.inj hl)).1.symm
    · obtain ⟨l, hl, hlh⟩ := Option.bind_eq_some_iff.1 hk
      obtain ⟨l', hl', hlh'⟩ := Option.bind_eq_some_iff.1 hk'
      have hs := (hm k l hl).2 h (List.mem_of_mem_head? hlh)
      have hs' := (hm k' l' hl').2 h (List.mem_of_mem_head? hlh')
      exact Option.some.inj (hs.symm.trans hs')
  generalize hL : m.keys.filterMap (fun k => (m.lookup k).bind List.head?) = L at hhead hnodup
  have hperm : (Lib.Heap.Init TxByPrice L).Perm L := Lib.Heap.Init_perm L
  refine ⟨⟨txs, Lib.Heap.Init TxByPrice L⟩, by simp [NewTransactionsByPriceAndNonce, hfold, hL],
    ⟨?_, ?_, ?_, ?_⟩, ?_⟩
  · exact Lib.Heap.Init_heap TxByPrice_strictWeak _
  · intro h hh
    obtain ⟨l, -, hs⟩ := hhead h (hperm.subset hh)
    simp [hs]
  · exact (hperm.map _).nodup_iff.2 hnodup
  · intro a l hl tx htx
    rw [hlook] at hl
    split_ifs at hl
    · obtain ⟨l₀, hl₀, rfl⟩ := Option.map_eq_some_iff.1 hl
      exact (hm a l₀ hl₀).2 tx (List.mem_of_mem_tail htx)
    · exact (hm a l hl).2 tx htx
  · intro a
    have hn : ((Lib.Heap.Init TxByPrice L).map codec.Sender).Nodup := (hperm.map _).nodup_iff.2 hnodup
    cases hma : m.lookup a with
    | some l =>
      obtain ⟨tx, rest, rfl⟩ := List.exists_cons_of_ne_nil (hm a l hma).1
      have ha : a ∈ m.keys := AList.mem_keys.1 (AList.lookup_isSome.1 (by simp [hma]))
      have htx : tx ∈ L := hL ▸ List.mem_filterMap.2 ⟨a, ha, by simp [hma]⟩
      rw [rest_of_mem hn (hperm.symm.subset htx) ((hm a _ hma).2 tx List.mem_cons_self)]
      simp [hlook, ha, hma]
    | none =>
      refine rest_of_forall fun h hh hs => ?_
      obtain ⟨l, hl, hs'⟩ := hhead h (hperm.subset hh)
      rw [hs', Option.some.injEq] at hs
      rw [hs, hma] at hl
      cases hl

end New

end TransactionsByPriceAndNonce

/-- The miner's order: `NewTransactionsByPriceAndNonce` of a map from accounts to non-empty
lists of transactions they signed succeeds; draining it with `Peek` and `Shift` yields every
transaction once, each account's in the order of its list, each one at least as dear as the
first of what is left of every account; and after any run of `Shift` and `Pop` calls what is
left of each account is a suffix of its list, `Pop` drops everything left of the root's account,
and draining still yields what is left in that way. -/
theorem TransactionsByPriceAndNonce_order (codec : TxCodec) (m : AList (fun _ : Address => List Transaction))
    (hm : ∀ a l, m.lookup a = some l → l ≠ [] ∧ ∀ tx ∈ l, codec.Sender tx = some a) :
    ∃ t, NewTransactionsByPriceAndNonce codec m = some t ∧
      TransactionsByPriceAndNonce.Yields codec (fun a => (m.lookup a).getD [])
        (TransactionsByPriceAndNonce.drain codec (TransactionsByPriceAndNonce.size codec t) t) ∧
      ∀ ops t', TransactionsByPriceAndNonce.run codec ops t = some t' →
        (∀ a, ∃ k, TransactionsByPriceAndNonce.rest codec t' a = ((m.lookup a).getD []).drop k) ∧
        TransactionsByPriceAndNonce.Yields codec (TransactionsByPriceAndNonce.rest codec t')
          (TransactionsByPriceAndNonce.drain codec (TransactionsByPriceAndNonce.size codec t') t') ∧
        ∀ x, t'.Peek = some x → ∃ t'', t'.Pop = some t'' ∧
          ∀ a, TransactionsByPriceAndNonce.rest codec t'' a =
            if codec.Sender x = some a then [] else TransactionsByPriceAndNonce.rest codec t' a := by
  open TransactionsByPriceAndNonce in
  obtain ⟨t, hnew, hw, hrest⟩ := New_wf hm
  have hq : rest codec t = fun a => (m.lookup a).getD [] := funext hrest
  refine ⟨t, hnew, hq ▸ hw.drain_yields (Nat.le_refl _), fun ops t' hr => ?_⟩
  obtain ⟨hw', hk⟩ := hw.run hr
  refine ⟨fun a => hrest a ▸ hk a, hw'.drain_yields (Nat.le_refl _), fun x hx => ?_⟩
  obtain ⟨t'', hp, -, hr''⟩ := hw'.pop hx
  exact ⟨t'', hp, hr''⟩

namespace TransactionsByPriceAndNonce

/-- A signer that reads the account off `V`, for the runs below. -/
def vCodec : TxCodec :=
  ⟨fun _ => 0, fun _ => 0, fun tx => if h : tx.V.toNat < 2 ^ 160 then some ⟨tx.V.toNat, h⟩ else none⟩

/-- A transfer of nothing with the given nonce, price and `V`. -/
def transfer (nonce : UInt64) (price v : ℤ) : Transaction := ⟨nonce, price, 21000, none, 0, [], v, 0, 0⟩

/-- Account 1 sends a cheap then a dear transaction, account 2 one in between. -/
def twoAccounts : AList (fun _ : Address => List Transaction) :=
  AList.insert (β := fun _ : Address => List Transaction) 1 [transfer 0 3 1, transfer 1 9 1]
    (AList.insert 2 [transfer 0 5 2] ∅)

/-- The dearer first transaction of account 2 goes first, then account 1's in their order. -/
example : (NewTransactionsByPriceAndNonce vCodec twoAccounts).map (drain vCodec 3) =
    some [transfer 0 5 2, transfer 0 3 1, transfer 1 9 1] := by
  decide

theorem twoAccounts_signed : ∀ a l, twoAccounts.lookup a = some l →
    l ≠ [] ∧ ∀ tx ∈ l, vCodec.Sender tx = some a := by
  intro a l hl
  by_cases h1 : a = 1
  · subst h1
    rw [twoAccounts, AList.lookup_insert, Option.some.injEq] at hl
    subst hl
    decide
  · rw [twoAccounts, AList.lookup_insert_ne h1] at hl
    by_cases h2 : a = 2
    · subst h2
      rw [AList.lookup_insert, Option.some.injEq] at hl
      subst hl
      decide
    · rw [AList.lookup_insert_ne h2, AList.lookup_empty] at hl
      cases hl

end TransactionsByPriceAndNonce

open TransactionsByPriceAndNonce in
theorem TransactionsByPriceAndNonce_order_twoAccounts :
    (∀ a l, twoAccounts.lookup a = some l → l ≠ [] ∧ ∀ tx ∈ l, vCodec.Sender tx = some a) ∧
    ∃ t, NewTransactionsByPriceAndNonce vCodec twoAccounts = some t ∧
      Yields vCodec (fun a => (twoAccounts.lookup a).getD []) (drain vCodec (size vCodec t) t) ∧
      ∀ ops t', run vCodec ops t = some t' →
        (∀ a, ∃ k, rest vCodec t' a = ((twoAccounts.lookup a).getD []).drop k) ∧
        Yields vCodec (rest vCodec t') (drain vCodec (size vCodec t') t') ∧
        ∀ x, t'.Peek = some x → ∃ t'', t'.Pop = some t'' ∧
          ∀ a, rest vCodec t'' a = if vCodec.Sender x = some a then [] else rest vCodec t' a :=
  ⟨twoAccounts_signed, TransactionsByPriceAndNonce_order vCodec twoAccounts twoAccounts_signed⟩

end EthereumAI.Types
