import Mathlib
import EthereumAI.Lib.Journal

/-! # The chain indexer (`core/chain_indexer.go`)

A `ChainIndexer` indexes the canonical chain section by section. `eventLoop` hands each chain head
to `newHead`, which counts the sections that are complete (`knownSections`) and, on a reorg, rolls
the known and stored sections back to the common ancestor. `updateLoop` indexes the next section
while some are known and not stored: under the lock it notes the section and the head of the one
before, releases the lock while `processSection` reads the section from the chain, and under the
lock again stores it when the head before is unchanged.

The system is the chain in the database, the last head `eventLoop` saw, the indexer, and the
section `updateLoop` processes with the lock released. A step is a chain event, the start of an
update, the run of `processSection`, or the end of the update, in any interleaving; each may fire
when its goroutine can take it. `processSection` reads the chain at once. The backend is a
parameter that may fail; the index it writes and the child indexers are outside the model.

When no chain event comes while a section is processed, a run keeps the stored sections within the
known ones (`sequential_stored_le_known`). A reorg inside the section being processed does not:
the section is stored from the old chain, above the known sections, and with a head that is no
longer canonical (`stale_section_stored`). Even without one, a reorg below the stored sections
leaves the cascaded head at the first block past them (`newHead_reorg_cascadedHead_eq`).
-/

namespace EthereumAI.Core

variable {Hash : Type}

structure Header (Hash : Type) where
  Number : ℕ
  /-- `header.Hash()` -/
  hash : Hash
  ParentHash : Hash

/-- The canonical chain in the database, the header of each number from the genesis on. -/
abbrev Chain (Hash : Type) := List (Header Hash)

/-- `ChainIndexerBackend`: the error `Reset` and `Commit` return for a section, if any. -/
structure ChainIndexerBackend (Hash : Type) where
  Reset : ℕ → Hash → Option String
  Commit : ℕ → Option String

/-- The indexer, with the count and the section heads of its index database. -/
structure ChainIndexer (Hash : Type) where
  sectionSize : ℕ
  confirmsReq : ℕ
  storedSections : ℕ
  knownSections : ℕ
  cascadedHead : ℕ
  /-- the `shead` entries of the index database -/
  sheads : ℕ → Option Hash
  /-- a notification waits in `update`, a channel of one -/
  update : Bool

/-- `section - 1` in `uint64`. -/
def sectionBefore (sec : ℕ) : ℕ := if sec = 0 then 2 ^ 64 - 1 else sec - 1

variable [Inhabited Hash]

def ReadCanonicalHash (chain : Chain Hash) (number : ℕ) : Hash := ((chain[number]?).map (·.hash)).getD default

namespace ChainIndexer

def SectionHead (c : ChainIndexer Hash) (sec : ℕ) : Hash := (c.sheads sec).getD default

def setSectionHead (c : ChainIndexer Hash) (sec : ℕ) (hash : Hash) : ChainIndexer Hash :=
  { c with sheads := Function.update c.sheads sec (some hash) }

/-- The count is set, and the heads of the sections above it removed. -/
def setValidSections (c : ChainIndexer Hash) (sections : ℕ) : ChainIndexer Hash :=
  { c with
    sheads := fun s => if sections ≤ s ∧ s < c.storedSections then none else c.sheads s
    storedSections := sections }

def newHead (c : ChainIndexer Hash) (head : ℕ) (reorg : Bool) : ChainIndexer Hash :=
  if reorg then
    -- the sections from the reorg point on are no longer known, nor stored
    let changed := head / c.sectionSize
    let c := if changed < c.knownSections then { c with knownSections := changed } else c
    let c := if changed < c.storedSections then c.setValidSections changed else c
    let head := changed * c.sectionSize
    if head < c.cascadedHead then { c with cascadedHead := head } else c
  else if head ≥ c.confirmsReq then
    let sections := (head + 1 - c.confirmsReq) / c.sectionSize
    if sections > c.knownSections then { c with knownSections := sections, update := true } else c
  else c

/-- The loop of `processSection` over the numbers of the section: each header must follow the one
before. -/
def processLoop (chain : Chain Hash) [DecidableEq Hash] : ℕ → ℕ → Hash → Except String Hash
  | _, 0, lastHead => .ok lastHead
  | number, k + 1, lastHead =>
    match chain[number]? with
    | none => .error ("canonical block #" ++ toString number ++ " unknown")
    | some header =>
      if header.ParentHash ≠ lastHead then .error "chain reorged during section processing"
      else processLoop chain (number + 1) k header.hash

/-- `processSection`, which also resets the stored sections when the backend fails to reset. -/
def processSection [DecidableEq Hash] (backend : ChainIndexerBackend Hash) (c : ChainIndexer Hash)
    (chain : Chain Hash) (sec : ℕ) (lastHead : Hash) : ChainIndexer Hash × Except String Hash :=
  match backend.Reset sec lastHead with
  | some err => (c.setValidSections 0, .error err)
  | none =>
    match processLoop chain (sec * c.sectionSize) c.sectionSize lastHead with
    | .error err => (c, .error err)
    | .ok lastHead =>
      match backend.Commit sec with
      | some err => (c, .error err)
      | none => (c, .ok lastHead)

/-- The end of an update, under the lock again: the section is stored if it was processed and the
head before it is unchanged; otherwise the known sections fall back to the stored ones. -/
def finishSection [DecidableEq Hash] (c : ChainIndexer Hash) (sec : ℕ) (oldHead : Hash)
    (result : Except String Hash) : ChainIndexer Hash :=
  let c := match result with
    | .ok newHead =>
      if oldHead = c.SectionHead (sectionBefore sec) then
        let c := (c.setSectionHead sec newHead).setValidSections (sec + 1)
        { c with cascadedHead := c.storedSections * c.sectionSize - 1 }
      else { c with knownSections := c.storedSections }
    | .error _ => { c with knownSections := c.storedSections }
  -- further sections to process: `time.AfterFunc` notifies `update` again
  if c.knownSections > c.storedSections then { c with update := true } else c

section Counts

omit [Inhabited Hash]

variable (c : ChainIndexer Hash) (head : ℕ)

theorem newHead_reorg_knownSections :
    (c.newHead head true).knownSections = min c.knownSections (head / c.sectionSize) := by
  simp only [newHead, ↓reduceIte]
  split_ifs <;> dsimp -failIfUnchanged only [setValidSections] at * <;> omega

theorem newHead_reorg_storedSections :
    (c.newHead head true).storedSections = min c.storedSections (head / c.sectionSize) := by
  simp only [newHead, ↓reduceIte]
  split_ifs <;> dsimp -failIfUnchanged only [setValidSections] at * <;> omega

theorem newHead_reorg_cascadedHead :
    (c.newHead head true).cascadedHead = min c.cascadedHead (head / c.sectionSize * c.sectionSize) := by
  simp only [newHead, ↓reduceIte]
  split_ifs <;> dsimp -failIfUnchanged only [setValidSections] at * <;> omega

theorem newHead_storedSections : (c.newHead head false).storedSections = c.storedSections := by
  simp only [newHead, Bool.false_eq_true, ↓reduceIte]
  split_ifs <;> rfl

theorem newHead_knownSections :
    (c.newHead head false).knownSections =
      if c.confirmsReq ≤ head then max c.knownSections ((head + 1 - c.confirmsReq) / c.sectionSize)
      else c.knownSections := by
  simp only [newHead, Bool.false_eq_true, ↓reduceIte]
  split_ifs <;> dsimp -failIfUnchanged only <;> omega

theorem newHead_stored_le_known (reorg : Bool) (h : c.storedSections ≤ c.knownSections) :
    (c.newHead head reorg).storedSections ≤ (c.newHead head reorg).knownSections := by
  cases reorg with
  | true =>
    rw [newHead_reorg_storedSections, newHead_reorg_knownSections]
    omega
  | false =>
    rw [newHead_storedSections, newHead_knownSections]
    split_ifs <;> omega

theorem newHead_reorg_cascadedHead_eq (hs : head / c.sectionSize < c.storedSections)
    (hc : head / c.sectionSize * c.sectionSize < c.cascadedHead) :
    (c.newHead head true).cascadedHead = (c.newHead head true).storedSections * c.sectionSize := by
  rw [newHead_reorg_cascadedHead, newHead_reorg_storedSections, Nat.min_eq_right (Nat.le_of_lt hc),
    Nat.min_eq_right (Nat.le_of_lt hs)]

theorem processSection_fst [DecidableEq Hash] (backend : ChainIndexerBackend Hash) (chain : Chain Hash)
    (sec : ℕ) (lastHead : Hash) :
    (c.processSection backend chain sec lastHead).1 = c ∨
      (c.processSection backend chain sec lastHead).1 = c.setValidSections 0 := by
  unfold processSection
  split
  · exact .inr rfl
  · split
    · exact .inl rfl
    · split <;> exact .inl rfl

end Counts

theorem finishSection_stored_le_known [DecidableEq Hash] (c : ChainIndexer Hash) {sec : ℕ} (oldHead : Hash)
    (result : Except String Hash) (hsec : sec < c.knownSections) :
    (c.finishSection sec oldHead result).storedSections ≤ (c.finishSection sec oldHead result).knownSections := by
  unfold finishSection
  dsimp only
  split
  · split_ifs <;> dsimp -failIfUnchanged only [setSectionHead, setValidSections] at * <;> omega
  · split_ifs <;> dsimp -failIfUnchanged only at * <;> omega

end ChainIndexer

/-- The highest header two chains share at or below a number, `rawdb.FindCommonAncestor`. -/
def FindCommonAncestor [DecidableEq Hash] (old new : Chain Hash) : ℕ → Option (Header Hash)
  | 0 =>
    match old[0]?, new[0]? with
    | some a, some b => if a.hash = b.hash then some a else none
    | _, _ => none
  | n + 1 =>
    match old[n + 1]?, new[n + 1]? with
    | some a, some b => if a.hash = b.hash then some a else FindCommonAncestor old new n
    | _, _ => FindCommonAncestor old new n

/-- The chain, `eventLoop`'s last head, the indexer, and `updateLoop` between `Unlock` and `Lock`:
the section it processes with the head before it, and what `processSection` returned. -/
structure IndexerSystem (Hash : Type) where
  chain : Chain Hash
  prevHeader : Header Hash
  indexer : ChainIndexer Hash
  processing : Option (ℕ × Hash)
  result : Option (Except String Hash)

inductive IndexerEvent (Hash : Type)
  /-- the database's canonical chain becomes `chain`, and `eventLoop` receives its head -/
  | insert (chain : Chain Hash)
  /-- `updateLoop` receives from `update` -/
  | update
  /-- `processSection` runs -/
  | process
  /-- `updateLoop` takes the lock back -/
  | commit

namespace IndexerSystem

variable [DecidableEq Hash]

def insert (s : IndexerSystem Hash) (chain : Chain Hash) : IndexerSystem Hash :=
  match chain.getLast? with
  | none => s
  | some header =>
    let c := if header.ParentHash ≠ s.prevHeader.hash then
        match FindCommonAncestor s.chain chain (min s.prevHeader.Number header.Number) with
        | some h => s.indexer.newHead h.Number true
        | none => s.indexer
      else s.indexer
    { s with chain := chain, prevHeader := header, indexer := c.newHead header.Number false }

def beginUpdate (s : IndexerSystem Hash) : Option (IndexerSystem Hash) :=
  if s.indexer.update ∧ s.processing = none then
    let c := { s.indexer with update := false }
    if c.knownSections > c.storedSections then
      let sec := c.storedSections
      let oldHead := if sec > 0 then c.SectionHead (sec - 1) else default
      some { s with indexer := c, processing := some (sec, oldHead) }
    else some { s with indexer := c }
  else none

def step (backend : ChainIndexerBackend Hash) (s : IndexerSystem Hash) :
    IndexerEvent Hash → Option (IndexerSystem Hash)
  | .insert chain => some (s.insert chain)
  | .update => s.beginUpdate
  | .process =>
    match s.processing, s.result with
    | some (sec, oldHead), none =>
      let (c, r) := s.indexer.processSection backend s.chain sec oldHead
      some { s with indexer := c, result := some r }
    | _, _ => none
  | .commit =>
    match s.processing, s.result with
    | some (sec, oldHead), some r =>
      some { s with indexer := s.indexer.finishSection sec oldHead r, processing := none, result := none }
    | _, _ => none

def run (backend : ChainIndexerBackend Hash) (s : IndexerSystem Hash) (evs : List (IndexerEvent Hash)) :
    Option (IndexerSystem Hash) :=
  evs.foldlM (step backend) s

/-- The interleavings in which the chain holds still while a section is processed: a chain event
waits for the update to end. -/
def stepSequential (backend : ChainIndexerBackend Hash) (s : IndexerSystem Hash) :
    IndexerEvent Hash → Option (IndexerSystem Hash)
  | .insert chain => if s.processing = none then s.step backend (.insert chain) else none
  | ev => s.step backend ev

/-- The stored sections are known, and so is the section `updateLoop` processes. -/
structure Inv (s : IndexerSystem Hash) : Prop where
  stored_le_known : s.indexer.storedSections ≤ s.indexer.knownSections
  processing_lt_known : ∀ sec oldHead, s.processing = some (sec, oldHead) → sec < s.indexer.knownSections

variable {backend : ChainIndexerBackend Hash} {s t : IndexerSystem Hash}

theorem step_process_eq (h : s.step backend .process = some t) :
    ∃ sec oldHead, s.processing = some (sec, oldHead) ∧
      t = { s with indexer := (s.indexer.processSection backend s.chain sec oldHead).1,
                   result := some (s.indexer.processSection backend s.chain sec oldHead).2 } := by
  simp only [step] at h
  split at h
  · cases h
    exact ⟨_, _, ‹_›, rfl⟩
  · cases h

theorem step_commit_eq (h : s.step backend .commit = some t) :
    ∃ sec oldHead r, s.processing = some (sec, oldHead) ∧ s.result = some r ∧
      t = { s with indexer := s.indexer.finishSection sec oldHead r, processing := none, result := none } := by
  simp only [step] at h
  split at h
  · cases h
    exact ⟨_, _, _, ‹_›, ‹_›, rfl⟩
  · cases h

omit [Inhabited Hash] in
theorem Inv.insert (hi : s.Inv) (hp : s.processing = none) (chain : Chain Hash) : (s.insert chain).Inv := by
  unfold IndexerSystem.insert
  split
  · exact hi
  · -- the rollback to the common ancestor, if any, and the new head each keep the bound
    refine ⟨ChainIndexer.newHead_stored_le_known _ _ false ?_, by simp [hp]⟩
    split_ifs
    · split
      · exact ChainIndexer.newHead_stored_le_known _ _ true hi.stored_le_known
      · exact hi.stored_le_known
    · exact hi.stored_le_known

omit [DecidableEq Hash] in
theorem beginUpdate_eq (h : s.beginUpdate = some t) :
    s.processing = none ∧ t.indexer = { s.indexer with update := false } ∧
      (t.processing = none ∨ ∃ oldHead, s.indexer.storedSections < s.indexer.knownSections ∧
        t.processing = some (s.indexer.storedSections, oldHead)) := by
  unfold IndexerSystem.beginUpdate at h
  split at h
  · rename_i hup
    dsimp only at h
    split at h
    · cases h
      exact ⟨hup.2, rfl, .inr ⟨_, ‹_›, rfl⟩⟩
    · cases h
      exact ⟨hup.2, rfl, .inl hup.2⟩
  · cases h

omit [DecidableEq Hash] in
theorem Inv.beginUpdate (hi : s.Inv) (h : s.beginUpdate = some t) : t.Inv := by
  obtain ⟨-, hc, hq⟩ := beginUpdate_eq h
  refine ⟨by rw [hc]; exact hi.stored_le_known, fun sec oldHead hsec => ?_⟩
  rw [hc]
  rcases hq with hq | ⟨_, hk, hq⟩
  · simp [hq] at hsec
  · -- the section noted is the first one not stored, which is known
    rw [hq] at hsec
    cases hsec
    exact hk

theorem Inv.process (hi : s.Inv) (h : s.step backend .process = some t) : t.Inv := by
  obtain ⟨sec, oldHead, hp, rfl⟩ := step_process_eq h
  rcases ChainIndexer.processSection_fst s.indexer backend s.chain sec oldHead with hc | hc
  · exact ⟨by rw [hc]; exact hi.stored_le_known, by rw [hc]; exact hi.processing_lt_known⟩
  · refine ⟨by rw [hc]; exact Nat.zero_le _, ?_⟩
    rw [hc]
    exact hi.processing_lt_known

theorem Inv.commit (hi : s.Inv) (h : s.step backend .commit = some t) : t.Inv := by
  obtain ⟨sec, oldHead, r, hp, -, rfl⟩ := step_commit_eq h
  exact ⟨ChainIndexer.finishSection_stored_le_known _ _ _ (hi.processing_lt_known sec oldHead hp),
    by simp⟩

theorem Inv.stepSequential (hi : s.Inv) {ev : IndexerEvent Hash} (h : s.stepSequential backend ev = some t) :
    t.Inv := by
  cases ev with
  | insert chain =>
    unfold IndexerSystem.stepSequential at h
    split_ifs at h with hp
    cases h
    exact hi.insert hp chain
  | update => exact hi.beginUpdate h
  | process => exact hi.process (show s.step backend .process = some t from h)
  | commit => exact hi.commit (show s.step backend .commit = some t from h)

theorem sequential_stored_le_known (evs : List (IndexerEvent Hash)) (hs : s.Inv)
    (h : evs.foldlM (stepSequential backend) s = some t) :
    t.indexer.storedSections ≤ t.indexer.knownSections :=
  (Lib.foldlM_invariant (stepSequential backend) (fun _ _ _ hi hstep => hi.stepSequential hstep)
    evs s t hs h).stored_le_known

end IndexerSystem

/-- A backend whose `Reset` and `Commit` always succeed. -/
def neverFails : ChainIndexerBackend ℕ := ⟨fun _ _ => none, fun _ => none⟩

def genesis : Header ℕ := ⟨0, 10, 0⟩

/-- Two blocks on the genesis, and a reorg of them to one other block. -/
def chainA : Chain ℕ := [genesis, ⟨1, 11, 10⟩, ⟨2, 12, 11⟩]

def chainB : Chain ℕ := [genesis, ⟨1, 21, 10⟩]

/-- Sections of two blocks, confirmed at once, and none stored. -/
def indexerStart : IndexerSystem ℕ where
  chain := [genesis]
  prevHeader := genesis
  indexer := ⟨2, 1, 0, 0, 0, fun _ => none, false⟩
  processing := none
  result := none

/-- Section 0 is known once chain A is in; it is processed from chain A, the reorg to chain B comes
before the lock is taken back, and the section is stored with A's block 1 as its head. -/
theorem stale_section_stored :
    ∃ s, IndexerSystem.run neverFails indexerStart
        [.insert chainA, .update, .process, .insert chainB, .commit] = some s ∧
      s.processing = none ∧ s.indexer.knownSections < s.indexer.storedSections ∧
      s.indexer.SectionHead 0 ≠ ReadCanonicalHash s.chain ((0 + 1) * s.indexer.sectionSize - 1) :=
  ⟨_, rfl, rfl, by decide, by decide⟩

end EthereumAI.Core
