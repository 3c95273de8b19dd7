import Mathlib
import EthereumAI.Lib.Fuel

/-! # The canonical chain index (`core/blockchain.go`)

`WriteBlockWithState` stores a block with its total difficulty, the parent's plus its
own, and makes it the head when that is more than the head's (ties go to the lower
block, then to a coin). When the new head does not extend the old one, `reorg` walks
both back to their common ancestor and writes the canonical hashes and transaction
lookups of the new branch; `insert` writes the hash at the head's height.

No path deletes the canonical hashes above a new head that is lower than the old
one, so a reorganisation onto a shorter but heavier chain leaves them behind.

A block is its hash, parent hash, number, difficulty and transaction hashes; the
database is a map per table, keyed as `rawdb` keys it. State processing and
validation are not modelled: the blocks inserted are those that pass them. The head
header and the fast-sync head that `insert` also writes, receipts, logs and events
are left out: no function modelled here reads them.
-/

namespace EthereumAI.Core

structure Block where
  hash : ℕ
  parentHash : ℕ
  number : ℕ
  difficulty : ℕ
  txs : List ℕ
  deriving DecidableEq, Repr

/-- The uint64 `n - 1`, which wraps below zero. -/
def parentNumber (n : ℕ) : ℕ := (n + 2 ^ 64 - 1) % 2 ^ 64

/-- The chain database and the current block. -/
structure BlockChain where
  /-- `ReadBlock` by hash and number -/
  blocks : ℕ × ℕ → Option Block
  /-- `ReadTd` by hash and number -/
  td : ℕ × ℕ → Option ℕ
  /-- `ReadCanonicalHash` by number; `none` is the zero hash -/
  canonical : ℕ → Option ℕ
  /-- `ReadTxLookupEntry`: the block hash, block number and index of a transaction -/
  txLookup : ℕ → Option (ℕ × ℕ × ℕ)
  currentBlock : Block

inductive ChainError where
  /-- `consensus.ErrUnknownAncestor` -/
  | ErrUnknownAncestor
  /-- `Invalid old chain` -/
  | invalidOldChain
  /-- `Invalid new chain` -/
  | invalidNewChain
  /-- `non contiguous insert` -/
  | nonContiguousInsert
  /-- the head has no total difficulty: `Cmp` on the nil `*big.Int` panics -/
  | nilLocalTd
  deriving DecidableEq, Repr

inductive WriteStatus where
  | NonStatTy
  | CanonStatTy
  | SideStatTy
  deriving DecidableEq, Repr

namespace BlockChain

/-- `GetBlock`. -/
def GetBlock (bc : BlockChain) (hash number : ℕ) : Option Block := bc.blocks (hash, number)

/-- `GetTd`. -/
def GetTd (bc : BlockChain) (hash number : ℕ) : Option ℕ := bc.td (hash, number)

/-- `rawdb.WriteTxLookupEntries`: every transaction of the block points to it. -/
def WriteTxLookupEntries (bc : BlockChain) (block : Block) : BlockChain :=
  let put (m : ℕ → Option (ℕ × ℕ × ℕ)) (p : ℕ × ℕ) :=
    Function.update m p.1 (some (block.hash, block.number, p.2))
  { bc with txLookup := block.txs.zipIdx.foldl put bc.txLookup }

/-- `rawdb.DeleteTxLookupEntry`. -/
def DeleteTxLookupEntry (bc : BlockChain) (tx : ℕ) : BlockChain :=
  { bc with txLookup := Function.update bc.txLookup tx none }

/-- `insert`: the block's hash at its height, and the block as the head. -/
def insert (bc : BlockChain) (block : Block) : BlockChain :=
  { bc with canonical := Function.update bc.canonical block.number (some block.hash), currentBlock := block }

/-- The first loop of `reorg`: the higher block is walked down its parents to the
other's number, collecting the blocks passed. Each round lowers the number by one,
so `fuel` one more than the number is enough. -/
def descend (bc : BlockChain) (target : ℕ) : ℕ → Option Block → List Block → Option Block × List Block
  | 0, b, acc => (b, acc)
  | _ + 1, none, acc => (none, acc)
  | fuel + 1, some b, acc =>
    if b.number = target then (some b, acc)
    else descend bc target fuel (bc.GetBlock b.parentHash (parentNumber b.number)) (acc ++ [b])

/-- The second loop of `reorg`: both blocks are walked down together until they meet;
walking below the genesis block finds no parent. -/
def findCommon (bc : BlockChain) : ℕ → Block → Block → List Block → List Block →
    Except ChainError (List Block × List Block)
  | 0, _, _, _, _ => .error .invalidOldChain
  | fuel + 1, old, new, oldChain, newChain =>
    if old.hash = new.hash then .ok (oldChain, newChain)
    else
      match bc.GetBlock old.parentHash (parentNumber old.number),
          bc.GetBlock new.parentHash (parentNumber new.number) with
      | none, _ => .error .invalidOldChain
      | _, none => .error .invalidNewChain
      | some o, some n => findCommon bc fuel o n (oldChain ++ [old]) (newChain ++ [new])

/-- The two loops of `reorg`: the blocks of the old and of the new branch above their
common ancestor, newest first. -/
def reorgChains (bc : BlockChain) (oldBlock newBlock : Block) : Except ChainError (List Block × List Block) :=
  -- first reduce whoever is higher bound
  let start : Except ChainError (Block × Block × List Block × List Block) :=
    if oldBlock.number > newBlock.number then
      match descend bc newBlock.number (oldBlock.number + 1) (some oldBlock) [] with
      | (none, _) => .error .invalidOldChain
      | (some o, chain) => .ok (o, newBlock, chain, [])
    else
      match descend bc oldBlock.number (newBlock.number + 1) (some newBlock) [] with
      | (none, _) => .error .invalidNewChain
      | (some n, chain) => .ok (oldBlock, n, [], chain)
  match start with
  | .error e => .error e
  | .ok (o, n, oldChain, newChain) => findCommon bc (o.number + 1) o n oldChain newChain

/-- The writes of `reorg`: the blocks of the new branch are inserted, oldest first,
with their transaction lookups; the lookups of transactions only the old branch had
are deleted. -/
def applyReorg (bc : BlockChain) (oldChain newChain : List Block) : BlockChain :=
  let deletedTxs := oldChain.flatMap Block.txs
  let bc := newChain.reverse.foldl (fun bc b => (bc.insert b).WriteTxLookupEntries b) bc
  let addedTxs := newChain.flatMap Block.txs
  (deletedTxs.filter (· ∉ addedTxs)).foldl DeleteTxLookupEntry bc

/-- `reorg`. -/
def reorg (bc : BlockChain) (oldBlock newBlock : Block) : Except ChainError BlockChain :=
  match reorgChains bc oldBlock newBlock with
  | .error e => .error e
  | .ok (oldChain, newChain) => .ok (bc.applyReorg oldChain newChain)

/-- The test of `WriteBlockWithState`: the block becomes the head when it is heavier,
or as heavy and lower, or as heavy, as high and the coin says so. -/
def takesHead (externTd localTd : ℕ) (block currentBlock : Block) (coin : Bool) : Bool :=
  let reorg := decide (externTd > localTd)
  if !reorg && externTd = localTd then
    decide (block.number < currentBlock.number) || (decide (block.number = currentBlock.number) && coin)
  else reorg

/-- `WriteBlockWithState`: the block is written with its total difficulty, the
parent's plus its own, and made the head when `takesHead`, after a reorganisation
when its parent is not the head. -/
def WriteBlockWithState (bc : BlockChain) (block : Block) (coin : Bool) :
    Except ChainError (WriteStatus × BlockChain) :=
  match bc.GetTd block.parentHash (parentNumber block.number) with
  | none => .error .ErrUnknownAncestor
  | some ptd =>
    match bc.GetTd bc.currentBlock.hash bc.currentBlock.number with
    | none => .error .nilLocalTd
    | some localTd =>
      let externTd := block.difficulty + ptd
      let written := { bc with
        td := Function.update bc.td (block.hash, block.number) (some externTd)
        blocks := Function.update bc.blocks (block.hash, block.number) (some block) }
      if takesHead externTd localTd block bc.currentBlock coin then
        match (if block.parentHash ≠ bc.currentBlock.hash then written.reorg bc.currentBlock block
            else .ok written) with
        | .error e => .error e
        | .ok bc => .ok (.CanonStatTy, (bc.WriteTxLookupEntries block).insert block)
      else .ok (.SideStatTy, written)

/-- Each block of `chain` is the child of the one before. -/
def Contiguous : List Block → Bool
  | b₁ :: b₂ :: bs => b₂.number = b₁.number + 1 && b₂.parentHash = b₁.hash && Contiguous (b₂ :: bs)
  | _ => true

/-- The loop of `insertChain` over blocks that pass validation. -/
def insertBlocks (bc : BlockChain) (coin : Block → Bool) : List Block → Except ChainError BlockChain
  | [] => .ok bc
  | b :: bs =>
    match bc.WriteBlockWithState b (coin b) with
    | .error e => .error e
    | .ok (_, bc) => insertBlocks bc coin bs

/-- `InsertChain` of blocks that pass validation; `coin` is the random tie-break. -/
def InsertChain (bc : BlockChain) (chain : List Block) (coin : Block → Bool) : Except ChainError BlockChain :=
  if Contiguous chain then bc.insertBlocks coin chain else .error .nonContiguousInsert

end BlockChain

/-- The chain holding the genesis block alone. -/
def genesisChain (g : Block) : BlockChain where
  blocks := Function.update (fun _ => none) (g.hash, g.number) (some g)
  td := Function.update (fun _ => none) (g.hash, g.number) (some g.difficulty)
  canonical := Function.update (fun _ => none) g.number (some g.hash)
  txLookup := fun _ => none
  currentBlock := g

namespace BlockChain

/-! ## What each write changes -/

variable {bc bc' : BlockChain} {block : Block}

@[simp] theorem insert_blocks : (bc.insert block).blocks = bc.blocks := rfl
@[simp] theorem insert_td : (bc.insert block).td = bc.td := rfl
@[simp] theorem insert_currentBlock : (bc.insert block).currentBlock = block := rfl
@[simp] theorem WriteTxLookupEntries_blocks : (bc.WriteTxLookupEntries block).blocks = bc.blocks := rfl
@[simp] theorem WriteTxLookupEntries_td : (bc.WriteTxLookupEntries block).td = bc.td := rfl
@[simp] theorem WriteTxLookupEntries_currentBlock :
    (bc.WriteTxLookupEntries block).currentBlock = bc.currentBlock := rfl

theorem foldl_insert_frame : ∀ (l : List Block) (bc : BlockChain),
    (l.foldl (fun bc b => (bc.insert b).WriteTxLookupEntries b) bc).blocks = bc.blocks ∧
    (l.foldl (fun bc b => (bc.insert b).WriteTxLookupEntries b) bc).td = bc.td
  | [], _ => ⟨rfl, rfl⟩
  | b :: l, bc => foldl_insert_frame l ((bc.insert b).WriteTxLookupEntries b)

theorem foldl_delete_frame : ∀ (l : List ℕ) (bc : BlockChain),
    (l.foldl DeleteTxLookupEntry bc).blocks = bc.blocks ∧ (l.foldl DeleteTxLookupEntry bc).td = bc.td
  | [], _ => ⟨rfl, rfl⟩
  | tx :: l, bc => foldl_delete_frame l (bc.DeleteTxLookupEntry tx)

theorem reorg_frame {old new : Block} (h : bc.reorg old new = .ok bc') :
    bc'.blocks = bc.blocks ∧ bc'.td = bc.td := by
  unfold reorg at h
  split at h
  · cases h
  · cases h
    exact ⟨(foldl_delete_frame _ _).1.trans (foldl_insert_frame _ _).1,
      (foldl_delete_frame _ _).2.trans (foldl_insert_frame _ _).2⟩

theorem takesHead_le {e l : ℕ} {block cur : Block} {coin : Bool} (h : takesHead e l block cur coin = true) :
    l ≤ e := by
  unfold takesHead at h
  dsimp only at h
  split at h
  · rename_i heq
    simp only [Bool.and_eq_true, Bool.not_eq_true', decide_eq_false_iff_not, decide_eq_true_eq] at heq
    omega
  · simp only [decide_eq_true_eq] at h
    omega

theorem le_of_takesHead_false {e l : ℕ} {block cur : Block} {coin : Bool}
    (h : takesHead e l block cur coin = false) : e ≤ l := by
  unfold takesHead at h
  dsimp only at h
  split at h
  · rename_i heq
    simp only [Bool.and_eq_true, Bool.not_eq_true', decide_eq_false_iff_not, decide_eq_true_eq] at heq
    omega
  · simp only [decide_eq_false_iff_not] at h
    omega

/-- What `WriteBlockWithState` does: it finds the parent's and the head's total
difficulty, writes the block with the sum of its own and its parent's, and makes it
the head when it is at least as heavy as the head, or leaves a head at least as heavy. -/
theorem WriteBlockWithState_spec {coin : Bool} {st : WriteStatus}
    (h : bc.WriteBlockWithState block coin = .ok (st, bc')) :
    ∃ ptd localTd, bc.td (block.parentHash, parentNumber block.number) = some ptd ∧
      bc.td (bc.currentBlock.hash, bc.currentBlock.number) = some localTd ∧
      bc'.td = Function.update bc.td (block.hash, block.number) (some (block.difficulty + ptd)) ∧
      bc'.blocks = Function.update bc.blocks (block.hash, block.number) (some block) ∧
      ((bc'.currentBlock = block ∧ localTd ≤ block.difficulty + ptd) ∨
        (bc'.currentBlock = bc.currentBlock ∧ block.difficulty + ptd ≤ localTd)) := by
  unfold WriteBlockWithState at h
  split at h
  · cases h
  · rename_i ptd hp
    split at h
    · cases h
    · rename_i localTd hl
      refine ⟨ptd, localTd, hp, hl, ?_⟩
      dsimp only at h
      split at h
      · -- the block becomes the head, after a reorganisation when it is on another branch
        rename_i htake
        split at h
        · cases h
        · rename_i bc₁ hbc₁
          cases h
          split at hbc₁
          · obtain ⟨hb, ht⟩ := reorg_frame hbc₁
            exact ⟨ht, hb, .inl ⟨rfl, takesHead_le htake⟩⟩
          · cases hbc₁
            exact ⟨rfl, rfl, .inl ⟨rfl, takesHead_le htake⟩⟩
      · -- a side block: the head stays, and it is at least as heavy
        rename_i htake
        cases h
        exact ⟨rfl, rfl, .inr ⟨rfl, le_of_takesHead_false (by simpa using htake)⟩⟩

/-! ## Total difficulties and the head along a run -/

/-- The total difficulty of a stored block is its parent's plus its own (the genesis
block, at number 0, has its own), and the head is stored with the greatest total
difficulty. -/
structure TdOK (bc : BlockChain) : Prop where
  chain : ∀ k t, bc.td k = some t → ∃ b, bc.blocks k = some b ∧
    ((b.number = 0 ∧ t = b.difficulty) ∨ ∃ pt, bc.td (b.parentHash, parentNumber b.number) = some pt ∧
      t = b.difficulty + pt)
  head_stored : bc.blocks (bc.currentBlock.hash, bc.currentBlock.number) = some bc.currentBlock
  head_heaviest : ∃ t, bc.td (bc.currentBlock.hash, bc.currentBlock.number) = some t ∧
    ∀ k t', bc.td k = some t' → t' ≤ t

theorem TdOK.genesis (g : Block) (hg : g.number = 0) : TdOK (genesisChain g) where
  chain k t h := by
    by_cases hk : k = (g.hash, g.number)
    · subst hk
      simp only [genesisChain, Function.update_self, Option.some.injEq] at h ⊢
      exact ⟨g, rfl, .inl ⟨hg, h.symm⟩⟩
    · simp [genesisChain, Function.update_of_ne hk] at h
  head_stored := by simp [genesisChain]
  head_heaviest := ⟨g.difficulty, by simp [genesisChain], fun k t' h => by
    by_cases hk : k = (g.hash, g.number)
    · subst hk
      simp only [genesisChain, Function.update_self, Option.some.injEq] at h
      omega
    · simp [genesisChain, Function.update_of_ne hk] at h⟩

/-- Writing a block not stored before keeps the total difficulties chained and the head
the heaviest stored block. -/
theorem TdOK.write {coin : Bool} {st : WriteStatus} (hok : TdOK bc)
    (hnew : bc.blocks (block.hash, block.number) = none)
    (h : bc.WriteBlockWithState block coin = .ok (st, bc')) : TdOK bc' := by
  obtain ⟨ptd, localTd, hp, hl, htd, hbl, hhead⟩ := WriteBlockWithState_spec h
  obtain ⟨t₀, ht₀, hmax⟩ := hok.head_heaviest
  rw [hl, Option.some.injEq] at ht₀
  subst ht₀
  -- the new key held no total difficulty, so no chained entry refers to it
  have hfresh : bc.td (block.hash, block.number) = none := by
    cases hk : bc.td (block.hash, block.number) with
    | none => rfl
    | some t =>
      obtain ⟨b, hb, -⟩ := hok.chain _ _ hk
      rw [hnew] at hb
      cases hb
  have hne_head : (bc.currentBlock.hash, bc.currentBlock.number) ≠ (block.hash, block.number) := by
    intro he
    have hs := hok.head_stored
    rw [he, hnew] at hs
    cases hs
  refine ⟨fun k t hk => ?_, ?_, ?_⟩
  · rw [htd] at hk
    by_cases hkb : k = (block.hash, block.number)
    · subst hkb
      rw [Function.update_self, Option.some.injEq] at hk
      refine ⟨block, by rw [hbl, Function.update_self], .inr ⟨ptd, ?_, hk.symm⟩⟩
      rw [htd, Function.update_of_ne (fun he => by rw [he, hfresh] at hp; cases hp)]
      exact hp
    · rw [Function.update_of_ne hkb] at hk
      obtain ⟨b, hb, hchain⟩ := hok.chain k t hk
      refine ⟨b, by rw [hbl, Function.update_of_ne hkb]; exact hb, ?_⟩
      rcases hchain with hg | ⟨pt, hpt, rfl⟩
      · exact .inl hg
      · refine .inr ⟨pt, ?_, rfl⟩
        rw [htd, Function.update_of_ne (fun he => by rw [he, hfresh] at hpt; cases hpt)]
        exact hpt
  · rcases hhead with ⟨hcur, -⟩ | ⟨hcur, -⟩
    · rw [hcur, hbl, Function.update_self]
    · rw [hcur, hbl, Function.update_of_ne hne_head]
      exact hok.head_stored
  · rcases hhead with ⟨hcur, hle⟩ | ⟨hcur, hle⟩
    · -- the new head is the new block, heavier than every old entry
      refine ⟨block.difficulty + ptd, by rw [hcur, htd, Function.update_self], fun k t' hk => ?_⟩
      rw [htd] at hk
      by_cases hkb : k = (block.hash, block.number)
      · subst hkb
        rw [Function.update_self, Option.some.injEq] at hk
        omega
      · rw [Function.update_of_ne hkb] at hk
        exact Nat.le_trans (hmax k t' hk) hle
    · -- the head stays, and the new entry is no heavier
      refine ⟨localTd, by rw [hcur, htd, Function.update_of_ne hne_head]; exact hl, fun k t' hk => ?_⟩
      rw [htd] at hk
      by_cases hkb : k = (block.hash, block.number)
      · subst hkb
        rw [Function.update_self, Option.some.injEq] at hk
        omega
      · rw [Function.update_of_ne hkb] at hk
        exact hmax k t' hk

theorem TdOK.insertBlocks {coin : Block → Bool} : ∀ (chain : List Block) {bc bc' : BlockChain},
    TdOK bc → (∀ b ∈ chain, bc.blocks (b.hash, b.number) = none) →
    chain.Pairwise (fun b₁ b₂ => (b₁.hash, b₁.number) ≠ (b₂.hash, b₂.number)) →
    bc.insertBlocks coin chain = .ok bc' → TdOK bc'
  | [], _, _, hok, _, _, h => by cases h; exact hok
  | b :: bs, bc, bc', hok, hnew, hpw, h => by
    unfold BlockChain.insertBlocks at h
    split at h
    · cases h
    · rename_i st bc₁ hw
      have hok₁ := hok.write (hnew b (List.mem_cons_self ..)) hw
      obtain ⟨-, -, -, -, -, hbl, -⟩ := WriteBlockWithState_spec hw
      refine TdOK.insertBlocks bs hok₁ (fun b' hb' => ?_) (List.pairwise_cons.mp hpw).2 h
      rw [hbl, Function.update_of_ne ((List.pairwise_cons.mp hpw).1 b' hb').symm]
      exact hnew b' (List.mem_cons_of_mem _ hb')

/-- Genesis `G`, then the chain `A1 A2` of difficulty 1 each, then `B1` of difficulty 5
on `G`. `B1` is heavier and becomes the head at height 1, but the hash of `A2` stays
canonical at height 2, and the lookup of `A2`'s transaction is gone although `A2` is
still the canonical block at its height. -/
theorem InsertChain_shorter_heavier_keeps_stale_hash :
    ∃ bc, ((genesisChain ⟨0, 0, 0, 1, []⟩).InsertChain [⟨1, 0, 1, 1, [7]⟩, ⟨2, 1, 2, 1, [8]⟩] (fun _ => false)
        >>= fun bc => bc.InsertChain [⟨3, 0, 1, 5, []⟩] (fun _ => false)) = .ok bc ∧
      bc.currentBlock = ⟨3, 0, 1, 5, []⟩ ∧ bc.canonical 2 = some 2 ∧ bc.txLookup 8 = none :=
  ⟨_, rfl, rfl, rfl, rfl⟩

end BlockChain

end EthereumAI.Core
