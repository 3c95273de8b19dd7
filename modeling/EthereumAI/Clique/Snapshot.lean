import Mathlib
import EthereumAI.Common.Types

/-! # Clique voting snapshots (`consensus/clique/snapshot.go`)

A snapshot holds the authorized signers, the recent signers by block number, the
votes cast since the last checkpoint and their tally per address. `apply` folds
headers over it: each header's signer must be authorized and not recent, its vote
replaces the signer's earlier vote on the same address, a valid vote is cast, and
when the tally of the header's coinbase is above half the signers the coinbase is
added or dropped.

The tally is tested at every header whose coinbase it is, whatever the header
votes, and after a signer is dropped half the signers is fewer: a tally cast
under the old count can then pass at a header that votes the other way.

`ecrecover` and the epoch of the config are parameters; the snapshot's hash, config
and signature cache are left out.
-/

namespace EthereumAI.Clique

/-- `Vote`. -/
structure Vote where
  Signer : Address
  Block : ℕ
  Address : EthereumAI.Address
  Authorize : Bool
deriving DecidableEq, Repr

/-- `Tally`. -/
structure Tally where
  Authorize : Bool
  Votes : ℕ
deriving DecidableEq, Repr

/-- `Snapshot`: `Recents` as a list of block numbers with their signers, newest first. -/
structure Snapshot where
  Number : ℕ
  Signers : Finset Address
  Recents : List (ℕ × Address)
  Votes : List Vote
  Tally : Address → Option Tally

/-- The fields of a `types.Header` that `apply` reads, besides its seal. -/
structure Header where
  Number : ℕ
  Coinbase : Address
  Nonce : Bytes
  Extra : Bytes

/-- The errors of `apply`; `ecrecover` fails with `errMissingSignature` or `errRecover`. -/
inductive CliqueError
  | errInvalidVotingChain
  | errUnauthorized
  | errInvalidVote
  | errMissingSignature
  | errRecover
deriving DecidableEq, Repr

/-- `nonceAuthVote`. -/
def nonceAuthVote : Bytes := List.replicate 8 0xff

/-- `nonceDropVote`. -/
def nonceDropVote : Bytes := List.replicate 8 0

/-- `newSnapshot`: no recent signers, votes or tallies. -/
def newSnapshot (number : ℕ) (signers : Finset Address) : Snapshot :=
  ⟨number, signers, [], [], fun _ => none⟩

namespace Snapshot

variable (s : Snapshot)

/-- `validVote`: adding an address that is not a signer, or dropping one that is. -/
def validVote (address : Address) (authorize : Bool) : Bool :=
  let signer := decide (address ∈ s.Signers)
  (signer && !authorize) || (!signer && authorize)

/-- `cast`. -/
def cast (address : Address) (authorize : Bool) : Bool × Snapshot :=
  if !s.validVote address authorize then (false, s) else
  match s.Tally address with
  | some old => (true, { s with Tally := Function.update s.Tally address (some { old with Votes := old.Votes + 1 }) })
  | none => (true, { s with Tally := Function.update s.Tally address (some ⟨authorize, 1⟩) })

/-- `uncast`. -/
def uncast (address : Address) (authorize : Bool) : Bool × Snapshot :=
  match s.Tally address with
  | none => (false, s)
  | some tally =>
    if tally.Authorize ≠ authorize then (false, s)
    else if tally.Votes > 1 then
      (true, { s with Tally := Function.update s.Tally address (some { tally with Votes := tally.Votes - 1 }) })
    else (true, { s with Tally := Function.update s.Tally address none })

/-- `delete(snap.Recents, number)`. -/
def deleteRecent (number : ℕ) : Snapshot :=
  { s with Recents := s.Recents.filter fun r => r.1 ≠ number }

/-- The earlier vote of `signer` on `address`, if any, uncast and removed. -/
def discardVote (signer address : Address) : Snapshot :=
  match s.Votes.find? (fun v => v.Signer == signer && v.Address == address) with
  | some vote =>
    { (s.uncast vote.Address vote.Authorize).2 with
      Votes := s.Votes.eraseP fun v => v.Signer == signer && v.Address == address }
  | none => s

/-- Every vote a dropped signer cast, uncast in order and removed. -/
def discardVotesBy (signer : Address) : Snapshot :=
  let snap := (s.Votes.filter fun v => v.Signer == signer).foldl
    (fun snap v => (snap.uncast v.Address v.Authorize).2) s
  { snap with Votes := s.Votes.filter fun v => v.Signer ≠ signer }

/-- The end of a header's step: if the coinbase's tally is above half the signers, the
coinbase is added or dropped, and every vote on it and its tally are discarded. -/
def tallyPassed (number : ℕ) (coinbase : Address) : Snapshot :=
  match s.Tally coinbase with
  | none => s
  | some tally =>
    if tally.Votes > s.Signers.card / 2 then
      let snap := if tally.Authorize then { s with Signers := insert coinbase s.Signers }
        else
          let snap := { s with Signers := s.Signers.erase coinbase }
          -- the signer list shrunk: the recent signer now out of range may sign again
          let limit := snap.Signers.card / 2 + 1
          let snap := if number ≥ limit then snap.deleteRecent (number - limit) else snap
          snap.discardVotesBy coinbase
      { snap with Votes := snap.Votes.filter fun v => v.Address ≠ coinbase,
                  Tally := Function.update snap.Tally coinbase none }
    else s

section Apply

variable (ecrecover : Header → Except CliqueError Address) (Epoch : ℕ)

/-- One header of `apply`. -/
def applyHeader (snap : Snapshot) (header : Header) : Except CliqueError Snapshot := do
  let number := header.Number
  -- remove any votes on checkpoint blocks
  let snap := if number % Epoch = 0 then { snap with Votes := [], Tally := fun _ => none } else snap
  let limit := snap.Signers.card / 2 + 1
  let snap := if number ≥ limit then snap.deleteRecent (number - limit) else snap
  let signer ← ecrecover header
  if signer ∉ snap.Signers then throw .errUnauthorized
  if snap.Recents.any (fun r => r.2 == signer) then throw .errUnauthorized
  let snap := { snap with Recents := (number, signer) :: snap.Recents.filter fun r => r.1 ≠ number }
  let snap := snap.discardVote signer header.Coinbase
  let authorize ← if header.Nonce = nonceAuthVote then pure true
    else if header.Nonce = nonceDropVote then pure false
    else throw .errInvalidVote
  let snap := match snap.cast header.Coinbase authorize with
    | (true, snap) => { snap with Votes := snap.Votes ++ [(⟨signer, number, header.Coinbase, authorize⟩ : Vote)] }
    | (false, snap) => snap
  pure (snap.tallyPassed number header.Coinbase)

/-- The headers follow each other by number. -/
def chained : List Header → Bool
  | a :: b :: rest => b.Number == a.Number + 1 && chained (b :: rest)
  | _ => true

/-- `apply`. -/
def apply (headers : List Header) : Except CliqueError Snapshot :=
  match headers with
  | [] => .ok s
  | first :: _ =>
    if !chained headers then .error .errInvalidVotingChain
    else if first.Number ≠ s.Number + 1 then .error .errInvalidVotingChain
    else do
      let snap ← headers.foldlM (applyHeader ecrecover Epoch) s
      pure { snap with Number := s.Number + headers.length }

end Apply

end Snapshot

/-- Four signers `1 2 3 4`. Signers `1` and `2` vote to add `5`; then `3`, `1` and `2`
drop `4`. Half the three signers left is one, under the tally of two on `5`, and the
header of `3` with coinbase `5` and a vote to drop it adds `5` to the signers. -/
theorem apply_adds_on_drop_vote :
    let ecrecover : Header → Except CliqueError Address := fun h => .ok ([1, 2, 3, 1, 2, 3].getD (h.Number - 1) 0)
    let s₅ := (newSnapshot 0 {1, 2, 3, 4}).apply ecrecover 30000
      [⟨1, 5, nonceAuthVote, []⟩, ⟨2, 5, nonceAuthVote, []⟩, ⟨3, 4, nonceDropVote, []⟩,
        ⟨4, 4, nonceDropVote, []⟩, ⟨5, 4, nonceDropVote, []⟩]
    s₅.map (fun s => (decide (5 ∈ s.Signers), s.Signers.card, s.Tally 5)) = .ok (false, 3, some ⟨true, 2⟩) ∧
      (s₅ >>= fun s => s.apply ecrecover 30000 [⟨6, 5, nonceDropVote, []⟩]).map (fun s => decide (5 ∈ s.Signers)) =
        .ok true := by
  decide

end EthereumAI.Clique
