import Mathlib
import EthereumAI.Clique.Snapshot
import EthereumAI.Lib.Fuel

/-! # The voting invariant of Clique snapshots

The tally of every address is the count of the pending votes on it, every pending vote is
one that `validVote` accepts, and the recent signers hold the last half of the signers'
block numbers. `apply` keeps this over every run of headers. At each header the signer set
is flipped at the coinbase exactly when the coinbase's tally, once the header's vote is
counted, is above half the signers. That tally may hold votes cast while half the signers
was more, so it can pass at a header that votes the other way: changes reaching consensus
out of bounds execute on touch, as `snapshot_test.go` expects.
-/

namespace EthereumAI.Clique

/-- The number of pending votes on `a`. -/
def votesOn (votes : List Vote) (a : Address) : ℕ := votes.countP fun v => v.Address = a

/-- The tally of `k` votes on `a` under the signers `S`: none for no vote, and otherwise a
vote to authorize exactly when `a` is not a signer. -/
def tallyAt (S : Finset Address) (a : Address) (k : ℕ) : Option Tally :=
  if k = 0 then none else some ⟨decide (a ∉ S), k⟩

/-- The tallies that the votes `votes` give under the signers `S`. -/
def recount (S : Finset Address) (votes : List Vote) (a : Address) : Option Tally :=
  tallyAt S a (votesOn votes a)

/-- The votes of a snapshot and their tallies agree. -/
structure Tallied (snap : Snapshot) : Prop where
  tally : snap.Tally = recount snap.Signers snap.Votes
  valid : ∀ v ∈ snap.Votes, v.Authorize = decide (v.Address ∉ snap.Signers)
  signed : ∀ v ∈ snap.Votes, v.Signer ∈ snap.Signers
  nodup : (snap.Votes.map fun v => (v.Signer, v.Address)).Nodup

/-- The recent signers after block `n`: the keys lie in `(n - |Signers|/2 - 1, n]`, and no
key or signer occurs twice. -/
structure Recent (snap : Snapshot) (n : ℕ) : Prop where
  window : ∀ r ∈ snap.Recents, r.1 ≤ n ∧ n ≤ r.1 + snap.Signers.card / 2
  keys : (snap.Recents.map Prod.fst).Nodup
  values : (snap.Recents.map Prod.snd).Nodup

/-- The voting invariant of a snapshot after block `n`. -/
structure Voting (snap : Snapshot) (n : ℕ) : Prop where
  tallied : Tallied snap
  recent : Recent snap n

/-- The signers `S` with `c` dropped if it is one, and added if not. -/
def flipSigner (S : Finset Address) (c : Address) : Finset Address :=
  if c ∈ S then S.erase c else insert c S

/-- The tally of a header's coinbase once the header's vote is counted: the votes on it of
the other signers, none at a checkpoint, and the header's own vote if it is valid. -/
def coinbaseTally (Epoch : ℕ) (snap : Snapshot) (signer : Address) (header : Header) : ℕ :=
  (if header.Number % Epoch = 0 then [] else snap.Votes).countP
      (fun v => v.Address = header.Coinbase ∧ v.Signer ≠ signer) +
    if decide (header.Nonce = nonceAuthVote) = decide (header.Coinbase ∉ snap.Signers) then 1 else 0

/-- A header accepted from `snap` to `snap'`: its signer is a signer that signed none of the
last half of the signers' block numbers, its nonce is a vote, and the signers are flipped at
its coinbase exactly when the coinbase's tally is above half the signers. -/
def Accepted (ecrecover : Header → Except CliqueError Address) (Epoch : ℕ) (snap : Snapshot)
    (header : Header) (snap' : Snapshot) : Prop :=
  ∃ signer, ecrecover header = .ok signer ∧ signer ∈ snap.Signers ∧
    (∀ k, (k, signer) ∈ snap.Recents → k + snap.Signers.card / 2 < header.Number) ∧
    (header.Nonce = nonceAuthVote ∨ header.Nonce = nonceDropVote) ∧
    snap'.Signers = if snap.Signers.card / 2 < coinbaseTally Epoch snap signer header then
      flipSigner snap.Signers header.Coinbase else snap.Signers

/-! ## Tallies and vote counts -/

@[simp] theorem tallyAt_zero (S : Finset Address) (a : Address) : tallyAt S a 0 = none := rfl

theorem tallyAt_of_pos {S : Finset Address} {a : Address} {k : ℕ} (hk : 0 < k) :
    tallyAt S a k = some ⟨decide (a ∉ S), k⟩ :=
  if_neg (Nat.pos_iff_ne_zero.mp hk)

theorem tallyAt_erase {S : Finset Address} {a c : Address} (h : a ≠ c) (k : ℕ) :
    tallyAt (S.erase c) a k = tallyAt S a k := by
  simp [tallyAt, h]

theorem tallyAt_insert {S : Finset Address} {a c : Address} (h : a ≠ c) (k : ℕ) :
    tallyAt (insert c S) a k = tallyAt S a k := by
  simp [tallyAt, h]

theorem votesOn_append_singleton (votes : List Vote) (v : Vote) (a : Address) :
    votesOn (votes ++ [v]) a = votesOn votes a + if v.Address = a then 1 else 0 := by
  simp [votesOn, List.countP_append, List.countP_singleton]

theorem votesOn_filter_address {votes : List Vote} {a c : Address} (h : a ≠ c) :
    votesOn (votes.filter fun v => v.Address ≠ c) a = votesOn votes a := by
  unfold votesOn
  rw [List.countP_filter]
  apply List.countP_congr
  intro v _
  simp only [decide_eq_true_eq, Bool.and_eq_true, ne_eq]
  exact ⟨fun h' => h'.1, fun h' => ⟨h', h' ▸ h⟩⟩

theorem votesOn_filter_address_self (votes : List Vote) (c : Address) :
    votesOn (votes.filter fun v => v.Address ≠ c) c = 0 := by
  simp [votesOn, List.countP_filter]

theorem votesOn_filter_signer (votes : List Vote) (c a : Address) :
    votesOn (votes.filter fun v => v.Signer ≠ c) a =
      votesOn votes a - votesOn (votes.filter fun v => v.Signer = c) a := by
  have hsplit := List.countP_eq_countP_filter_add votes (fun v => decide (v.Address = a))
    (fun v => decide (v.Signer = c))
  have hne : (votes.filter fun v => !decide (v.Signer = c)) = votes.filter fun v => v.Signer ≠ c := by
    simp only [decide_not]
  unfold votesOn
  rw [← hne]
  omega

/-! ## `cast` and `uncast` on agreeing tallies -/

namespace Snapshot

variable {snap : Snapshot} {a : Address} {k : ℕ}

theorem validVote_eq_true {authorize : Bool} :
    snap.validVote a authorize = true ↔ authorize = decide (a ∉ snap.Signers) := by
  by_cases ha : a ∈ snap.Signers <;> cases authorize <;> simp [validVote, ha]

theorem cast_eq (hT : snap.Tally a = tallyAt snap.Signers a k) (authorize : Bool) :
    snap.cast a authorize = if authorize = decide (a ∉ snap.Signers) then
      (true, { snap with Tally := Function.update snap.Tally a (tallyAt snap.Signers a (k + 1)) })
    else (false, snap) := by
  by_cases hv : authorize = decide (a ∉ snap.Signers)
  · have hvalid : snap.validVote a authorize = true := validVote_eq_true.mpr hv
    simp only [if_pos hv, cast, hvalid, Bool.not_true, Bool.false_eq_true, if_false, hT]
    cases k <;> simp [tallyAt, hv]
  · have hvalid : snap.validVote a authorize = false :=
      Bool.eq_false_iff.mpr fun h => hv (validVote_eq_true.mp h)
    rw [if_neg hv, cast, hvalid]
    rfl

theorem uncast_eq (hT : snap.Tally a = tallyAt snap.Signers a k) (hk : 0 < k) {authorize : Bool}
    (hauth : authorize = decide (a ∉ snap.Signers)) :
    snap.uncast a authorize =
      (true, { snap with Tally := Function.update snap.Tally a (tallyAt snap.Signers a (k - 1)) }) := by
  obtain ⟨k, rfl⟩ : ∃ k', k = k' + 1 := ⟨k - 1, by omega⟩
  cases k with
  | zero => simp [uncast, hT, tallyAt, hauth]
  | succ k => simp [uncast, hT, tallyAt, hauth]

theorem uncast_snd (authorize : Bool) :
    ∃ T, (snap.uncast a authorize).2 = { snap with Tally := T } ∧ ∀ b ≠ a, T b = snap.Tally b := by
  unfold uncast
  split
  · exact ⟨snap.Tally, rfl, fun _ _ => rfl⟩
  · split_ifs
    · exact ⟨snap.Tally, rfl, fun _ _ => rfl⟩
    · exact ⟨_, rfl, fun b hb => Function.update_of_ne hb _ _⟩
    · exact ⟨_, rfl, fun b hb => Function.update_of_ne hb _ _⟩

/-- The uncasts of the votes `L` in turn, on tallies that agree with the counts `cnt` away
from `c`, leave tallies that agree with the counts less the votes of `L`, away from `c`. -/
theorem foldl_uncast (c : Address) : ∀ (L : List Vote) (snap : Snapshot) (cnt : Address → ℕ),
    (∀ a, a ≠ c → snap.Tally a = tallyAt snap.Signers a (cnt a)) →
    (∀ v ∈ L, v.Address ≠ c → v.Authorize = decide (v.Address ∉ snap.Signers)) →
    (∀ a, a ≠ c → votesOn L a ≤ cnt a) →
    ∃ T, L.foldl (fun snap v => (snap.uncast v.Address v.Authorize).2) snap = { snap with Tally := T } ∧
      ∀ a, a ≠ c → T a = tallyAt snap.Signers a (cnt a - votesOn L a)
  | [], snap, cnt, hT, _, _ => ⟨snap.Tally, rfl, fun a ha => by simpa [votesOn] using hT a ha⟩
  | v :: L, snap, cnt, hT, hvalid, hle => by
    obtain ⟨T₁, h₁, hT₁⟩ : ∃ T, (snap.uncast v.Address v.Authorize).2 = { snap with Tally := T } ∧
        ∀ b ≠ v.Address, T b = snap.Tally b := uncast_snd v.Authorize
    have hcount : ∀ a, votesOn (v :: L) a = votesOn L a + if v.Address = a then 1 else 0 := by
      simp [votesOn, List.countP_cons]
    -- the first uncast takes one vote off the tally of `v.Address`, unless that is `c`
    have hT₁' : ∀ a, a ≠ c → T₁ a = tallyAt snap.Signers a (cnt a - if v.Address = a then 1 else 0) := by
      intro a ha
      by_cases hav : v.Address = a
      · subst hav
        have hpos : 0 < cnt v.Address := by
          have := hle v.Address ha
          rw [hcount, if_pos rfl] at this
          omega
        rw [uncast_eq (hT _ ha) hpos (hvalid v List.mem_cons_self ha)] at h₁
        have hTe := congrArg Snapshot.Tally h₁
        dsimp only at hTe
        rw [if_pos rfl, ← hTe]
        exact Function.update_self _ _ _
      · rw [hT₁ a (Ne.symm hav), hT a ha, if_neg hav, Nat.sub_zero]
    obtain ⟨T, hfold, hT'⟩ := foldl_uncast c L { snap with Tally := T₁ } (fun a => cnt a - if v.Address = a then 1 else 0)
      hT₁' (fun w hw => hvalid w (List.mem_cons_of_mem v hw))
      (fun a ha => by have := hle a ha; rw [hcount] at this; omega)
    refine ⟨T, by rw [List.foldl_cons, h₁, hfold], fun a ha => ?_⟩
    rw [hT' a ha, hcount, Nat.sub_sub, Nat.add_comm]

end Snapshot

/-! ## The steps of a header -/

section Steps

variable {snap : Snapshot}

theorem Tallied.tally_at (hv : Tallied snap) (a : Address) :
    snap.Tally a = tallyAt snap.Signers a (votesOn snap.Votes a) := by
  rw [hv.tally]
  rfl

theorem Tallied.sublist (hv : Tallied snap) {votes : List Vote} (hs : votes.Sublist snap.Votes) :
    Tallied { snap with Votes := votes, Tally := recount snap.Signers votes } where
  tally := rfl
  valid v hv' := hv.valid v (hs.subset hv')
  signed v hv' := hv.signed v (hs.subset hv')
  nodup := hv.nodup.sublist (hs.map _)

theorem eraseP_vote (signer address : Address) : ∀ votes : List Vote,
    (votes.map fun v => (v.Signer, v.Address)).Nodup →
    votes.eraseP (fun v => v.Signer == signer && v.Address == address) =
      votes.filter fun v => ¬(v.Signer = signer ∧ v.Address = address)
  | [], _ => rfl
  | v :: votes, h => by
    rw [List.map_cons, List.nodup_cons] at h
    by_cases hv : v.Signer = signer ∧ v.Address = address
    · rw [List.eraseP_cons_of_pos (by simp [hv]), List.filter_cons_of_neg (by simp [hv]), eq_comm,
        List.filter_eq_self]
      intro w hw
      refine decide_eq_true fun hw' => h.1 (List.mem_map.mpr ⟨w, hw, ?_⟩)
      rw [hw'.1, hw'.2, hv.1, hv.2]
    · rw [List.eraseP_cons_of_neg fun h' => hv (by simpa using h'), List.filter_cons, if_pos (decide_eq_true hv),
        eraseP_vote signer address votes h.2]

/-- Under distinct (signer, address) pairs, one vote of `signer` on `address` is the only one:
dropping the votes of that pair takes one vote off the count of `address`. -/
theorem votesOn_filter_vote (signer address : Address) {vote : Vote}
    (hp : vote.Signer = signer ∧ vote.Address = address) : ∀ votes : List Vote,
    (votes.map fun v => (v.Signer, v.Address)).Nodup → vote ∈ votes →
    votesOn (votes.filter fun v => ¬(v.Signer = signer ∧ v.Address = address)) address + 1 =
      votesOn votes address
  | [], _, hmem => absurd hmem List.not_mem_nil
  | w :: votes, h, hmem => by
    rw [List.map_cons, List.nodup_cons] at h
    by_cases hw : w.Signer = signer ∧ w.Address = address
    · -- `w` is the vote of the pair; no other one follows it
      have hrest : (votes.filter fun v => ¬(v.Signer = signer ∧ v.Address = address)) = votes := by
        refine List.filter_eq_self.mpr fun u hu => decide_eq_true fun hu' => h.1 (List.mem_map.mpr ⟨u, hu, ?_⟩)
        rw [hu'.1, hu'.2, hw.1, hw.2]
      rw [List.filter_cons_of_neg (by simp [hw]), hrest]
      simp [votesOn, hw.2]
    · have hmem' : vote ∈ votes := by
        rcases List.mem_cons.mp hmem with rfl | hmem'
        · exact absurd hp hw
        · exact hmem'
      have ih := votesOn_filter_vote signer address hp votes h.2 hmem'
      rw [List.filter_cons, if_pos (decide_eq_true hw)]
      simp only [votesOn, List.countP_cons] at ih ⊢
      omega

namespace Snapshot

/-- `discardVote` on agreeing tallies drops the signer's vote on the address and recounts. -/
theorem discardVote_eq (hv : Tallied snap) (signer address : Address) :
    snap.discardVote signer address =
      { snap with Votes := snap.Votes.filter fun v => ¬(v.Signer = signer ∧ v.Address = address),
                  Tally := recount snap.Signers
                    (snap.Votes.filter fun v => ¬(v.Signer = signer ∧ v.Address = address)) } := by
  unfold discardVote
  split
  · rename_i vote hfind
    have hp : vote.Signer = signer ∧ vote.Address = address := by simpa using List.find?_some hfind
    have hmem := List.mem_of_find?_eq_some hfind
    have hpos : 0 < votesOn snap.Votes vote.Address := List.countP_pos_iff.mpr ⟨vote, hmem, by simp⟩
    rw [uncast_eq (hv.tally_at _) hpos (hv.valid vote hmem), eraseP_vote signer address _ hv.nodup]
    simp only [Snapshot.mk.injEq, true_and]
    funext a
    by_cases ha : a = address
    · subst ha
      rw [hp.2, Function.update_self, recount, ← votesOn_filter_vote signer _ hp _ hv.nodup hmem, Nat.add_sub_cancel]
    · rw [Function.update_of_ne (by rwa [hp.2]), hv.tally_at, recount]
      unfold votesOn
      congr 1
      rw [List.countP_filter]
      refine List.countP_congr fun v _ => ?_
      simp only [decide_eq_true_eq, Bool.and_eq_true]
      exact ⟨fun h' => ⟨h', fun hv' => ha (h' ▸ hv'.2)⟩, fun h' => h'.1⟩
  · rename_i hfind
    have hnone : ∀ v ∈ snap.Votes, ¬(v.Signer = signer ∧ v.Address = address) := by
      intro v hv' hp
      exact List.find?_eq_none.mp hfind v hv' (by simp [hp])
    rw [List.filter_eq_self.mpr fun v hv' => decide_eq_true (hnone v hv'), ← hv.tally]

/-- A header's vote cast, and appended to the votes if valid. -/
def castVote (signer : Address) (number : ℕ) (coinbase : Address) (authorize : Bool) (snap : Snapshot) :
    Snapshot :=
  match snap.cast coinbase authorize with
  | (true, snap) => { snap with Votes := snap.Votes ++ [⟨signer, number, coinbase, authorize⟩] }
  | (false, snap) => snap

/-- The start of a header: the votes cleared at a checkpoint, and the recent signer now out of
range dropped. -/
def prepare (Epoch number : ℕ) (snap : Snapshot) : Snapshot :=
  let snap := if number % Epoch = 0 then { snap with Votes := [], Tally := fun _ => none } else snap
  let limit := snap.Signers.card / 2 + 1
  if number ≥ limit then snap.deleteRecent (number - limit) else snap

/-- The vote of a header whose signer passed the checks: the signer made recent, its earlier
vote on the coinbase discarded, and the new vote cast. -/
def record (signer : Address) (number : ℕ) (coinbase : Address) (authorize : Bool) (snap : Snapshot) :
    Snapshot :=
  ({ snap with Recents := (number, signer) :: snap.Recents.filter fun r => r.1 ≠ number }.discardVote
    signer coinbase).castVote signer number coinbase authorize

theorem castVote_eq (hv : Tallied snap) (signer : Address) (number : ℕ) (coinbase : Address) (authorize : Bool) :
    snap.castVote signer number coinbase authorize = if authorize = decide (coinbase ∉ snap.Signers) then
      { snap with Votes := snap.Votes ++ [⟨signer, number, coinbase, authorize⟩],
                  Tally := recount snap.Signers (snap.Votes ++ [⟨signer, number, coinbase, authorize⟩]) }
    else snap := by
  unfold castVote
  rw [cast_eq (hv.tally_at coinbase)]
  split_ifs
  · simp only [Snapshot.mk.injEq, true_and]
    funext a
    by_cases ha : a = coinbase
    · subst ha
      simp [recount, votesOn_append_singleton]
    · rw [Function.update_of_ne ha, hv.tally]
      simp [recount, votesOn_append_singleton, Ne.symm ha]
  · rfl

theorem castVote_tallied (hv : Tallied snap) {signer coinbase : Address}
    (hfresh : ∀ v ∈ snap.Votes, ¬(v.Signer = signer ∧ v.Address = coinbase)) (hsigner : signer ∈ snap.Signers)
    (number : ℕ) (authorize : Bool) : Tallied (snap.castVote signer number coinbase authorize) := by
  rw [castVote_eq hv]
  split_ifs with hauth
  · refine ⟨rfl, fun v hv' => ?_, fun v hv' => ?_, ?_⟩
    · rcases List.mem_append.mp hv' with hv' | hv'
      · exact hv.valid v hv'
      · rw [List.mem_singleton.mp hv']
        exact hauth
    · rcases List.mem_append.mp hv' with hv' | hv'
      · exact hv.signed v hv'
      · rw [List.mem_singleton.mp hv']
        exact hsigner
    · rw [List.map_append, List.nodup_append]
      refine ⟨hv.nodup, List.nodup_singleton _, fun x hx y hy hxy => ?_⟩
      obtain ⟨w, hw, rfl⟩ := List.mem_map.mp hx
      rw [List.map_singleton, List.mem_singleton] at hy
      rw [hy, Prod.mk.injEq] at hxy
      exact hfresh w hw hxy
  · exact hv

theorem prepare_eq (Epoch number : ℕ) :
    snap.prepare Epoch number =
      { snap with Recents := if snap.Signers.card / 2 + 1 ≤ number then
                    snap.Recents.filter fun r => r.1 ≠ number - (snap.Signers.card / 2 + 1)
                  else snap.Recents,
                  Votes := if number % Epoch = 0 then [] else snap.Votes,
                  Tally := if number % Epoch = 0 then fun _ => none else snap.Tally } := by
  by_cases hcp : number % Epoch = 0 <;> by_cases hlim : snap.Signers.card / 2 + 1 ≤ number <;>
    simp [prepare, deleteRecent, hcp, hlim]

theorem prepare_tallied (hv : Tallied snap) (Epoch number : ℕ) : Tallied (snap.prepare Epoch number) := by
  rw [prepare_eq]
  split_ifs
  all_goals first
    | exact ⟨hv.tally, hv.valid, hv.signed, hv.nodup⟩
    | exact ⟨by funext a; simp [recount, votesOn], by simp, by simp, List.nodup_nil⟩

/-- `record` on agreeing tallies: the signer's earlier vote on the coinbase replaced by the new
vote, if valid, and the tallies recounted. -/
theorem record_tallied (hv : Tallied snap) {signer : Address} (hsigner : signer ∈ snap.Signers)
    (number : ℕ) (coinbase : Address) (authorize : Bool) :
    Tallied (snap.record signer number coinbase authorize) ∧
      (snap.record signer number coinbase authorize).Signers = snap.Signers ∧
      (snap.record signer number coinbase authorize).Recents =
        (number, signer) :: snap.Recents.filter (fun r => r.1 ≠ number) ∧
      votesOn (snap.record signer number coinbase authorize).Votes coinbase =
        snap.Votes.countP (fun v => v.Address = coinbase ∧ v.Signer ≠ signer) +
          if authorize = decide (coinbase ∉ snap.Signers) then 1 else 0 := by
  set snap₁ : Snapshot := { snap with Recents := (number, signer) :: snap.Recents.filter fun r => r.1 ≠ number }
  have hv₁ : Tallied snap₁ := ⟨hv.tally, hv.valid, hv.signed, hv.nodup⟩
  have hd := hv₁.sublist (List.filter_sublist (p := fun v => ¬(v.Signer = signer ∧ v.Address = coinbase)))
  have hfresh : ∀ v ∈ snap₁.Votes.filter (fun v => ¬(v.Signer = signer ∧ v.Address = coinbase)),
      ¬(v.Signer = signer ∧ v.Address = coinbase) := fun v hv' => of_decide_eq_true (List.mem_filter.mp hv').2
  unfold record
  rw [discardVote_eq hv₁]
  refine ⟨castVote_tallied hd hfresh hsigner number authorize, ?_, ?_, ?_⟩
  · rw [castVote_eq hd]
    split_ifs <;> rfl
  · rw [castVote_eq hd]
    split_ifs <;> rfl
  · -- the count on the coinbase: the other signers' votes, and the new one if cast
    rw [castVote_eq hd]
    have hcount : votesOn (snap.Votes.filter fun v => ¬(v.Signer = signer ∧ v.Address = coinbase)) coinbase =
        snap.Votes.countP (fun v => v.Address = coinbase ∧ v.Signer ≠ signer) := by
      unfold votesOn
      rw [List.countP_filter]
      refine List.countP_congr fun v _ => ?_
      simp only [decide_eq_true_eq, Bool.and_eq_true, ne_eq]
      exact ⟨fun h => ⟨h.1, fun hs => h.2 ⟨hs, h.1⟩⟩, fun h => ⟨h.1, fun hs => h.2 hs.1⟩⟩
    split_ifs with hauth
    · simp only [votesOn_append_singleton, if_true]
      exact congrArg (· + 1) hcount
    · exact hcount

theorem tallyPassed_of_le (hv : Tallied snap) {number : ℕ} {coinbase : Address}
    (h : votesOn snap.Votes coinbase ≤ snap.Signers.card / 2) : snap.tallyPassed number coinbase = snap := by
  unfold tallyPassed
  rw [hv.tally_at]
  unfold tallyAt
  split_ifs with h0
  · rfl
  · simp only [gt_iff_lt]
    rw [if_neg (by omega)]

theorem tallyPassed_add (hv : Tallied snap) {number : ℕ} {coinbase : Address}
    (h : snap.Signers.card / 2 < votesOn snap.Votes coinbase) (hc : coinbase ∉ snap.Signers) :
    snap.tallyPassed number coinbase =
      { snap with Signers := insert coinbase snap.Signers,
                  Votes := snap.Votes.filter fun v => v.Address ≠ coinbase,
                  Tally := recount (insert coinbase snap.Signers) (snap.Votes.filter fun v => v.Address ≠ coinbase) } := by
  have hT : snap.Tally coinbase = some ⟨true, votesOn snap.Votes coinbase⟩ := by
    rw [hv.tally_at, tallyAt_of_pos (by omega), decide_eq_true hc]
  unfold tallyPassed
  rw [hT]
  simp only [gt_iff_lt, if_pos h, if_true, Snapshot.mk.injEq, true_and]
  funext a
  by_cases ha : a = coinbase
  · subst ha
    rw [Function.update_self, recount, votesOn_filter_address_self, tallyAt_zero]
  · rw [Function.update_of_ne ha, hv.tally_at, recount, votesOn_filter_address ha, tallyAt_insert ha]

theorem ite_deleteRecent (s : Snapshot) (limit number : ℕ) :
    (if number ≥ limit then s.deleteRecent (number - limit) else s) =
      { s with Recents := if limit ≤ number then s.Recents.filter fun r => r.1 ≠ number - limit else s.Recents } := by
  split_ifs <;> rfl

theorem discardVotesBy_eq {s : Snapshot} {c : Address}
    (hT : ∀ a, a ≠ c → s.Tally a = tallyAt s.Signers a (votesOn s.Votes a))
    (hvalid : ∀ v ∈ s.Votes, v.Address ≠ c → v.Authorize = decide (v.Address ∉ s.Signers)) :
    ∃ T, s.discardVotesBy c = { s with Votes := s.Votes.filter fun v => v.Signer ≠ c, Tally := T } ∧
      ∀ a, a ≠ c → T a = recount s.Signers (s.Votes.filter fun v => v.Signer ≠ c) a := by
  obtain ⟨T, hfold, hT'⟩ := foldl_uncast c (s.Votes.filter fun v => v.Signer == c) s (votesOn s.Votes) hT
    (fun v hv' => hvalid v (List.mem_filter.mp hv').1)
    (fun a _ => List.filter_sublist.countP_le)
  refine ⟨T, by rw [discardVotesBy, hfold], fun a ha => ?_⟩
  rw [hT' a ha, recount, votesOn_filter_signer]
  rfl

/-- The tally of a coinbase that is a signer above half the signers: it is dropped, the recent
signer out of the new range removed, and its votes, the votes on it and its tally discarded. -/
theorem tallyPassed_drop (hv : Tallied snap) {number : ℕ} {coinbase : Address}
    (h : snap.Signers.card / 2 < votesOn snap.Votes coinbase) (hc : coinbase ∈ snap.Signers) :
    snap.tallyPassed number coinbase =
      { snap with Signers := snap.Signers.erase coinbase,
                  Recents := if (snap.Signers.erase coinbase).card / 2 + 1 ≤ number then
                      snap.Recents.filter fun r => r.1 ≠ number - ((snap.Signers.erase coinbase).card / 2 + 1)
                    else snap.Recents,
                  Votes := (snap.Votes.filter fun v => v.Signer ≠ coinbase).filter fun v => v.Address ≠ coinbase,
                  Tally := recount (snap.Signers.erase coinbase)
                    ((snap.Votes.filter fun v => v.Signer ≠ coinbase).filter fun v => v.Address ≠ coinbase) } := by
  have hT : snap.Tally coinbase = some ⟨false, votesOn snap.Votes coinbase⟩ := by
    rw [hv.tally_at, tallyAt_of_pos (by omega), decide_eq_false (not_not.mpr hc)]
  unfold tallyPassed
  rw [hT]
  simp only [gt_iff_lt, if_pos h, Bool.false_eq_true, if_false, ite_deleteRecent]
  -- the votes of the dropped signer go, with one uncast each from the tallies
  obtain ⟨T, hdisc, hT'⟩ := discardVotesBy_eq (c := coinbase)
    (s := { snap with Signers := snap.Signers.erase coinbase,
                      Recents := if (snap.Signers.erase coinbase).card / 2 + 1 ≤ number then
                          snap.Recents.filter fun r => r.1 ≠ number - ((snap.Signers.erase coinbase).card / 2 + 1)
                        else snap.Recents })
    (fun a ha => by rw [hv.tally_at, tallyAt_erase ha])
    (fun v hv' ha => by rw [hv.valid v hv']; simp [ha])
  rw [hdisc]
  simp only [Snapshot.mk.injEq, true_and]
  funext a
  by_cases ha : a = coinbase
  · subst ha
    rw [Function.update_self, recount, votesOn_filter_address_self, tallyAt_zero]
  · rw [Function.update_of_ne ha, hT' a ha, recount, recount, votesOn_filter_address ha]

theorem prepare_signers (Epoch number : ℕ) : (snap.prepare Epoch number).Signers = snap.Signers := by
  rw [prepare_eq]

theorem prepare_recents (Epoch number : ℕ) :
    (snap.prepare Epoch number).Recents = if snap.Signers.card / 2 + 1 ≤ number then
      snap.Recents.filter fun r => r.1 ≠ number - (snap.Signers.card / 2 + 1) else snap.Recents := by
  rw [prepare_eq]

theorem prepare_votes (Epoch number : ℕ) :
    (snap.prepare Epoch number).Votes = if number % Epoch = 0 then [] else snap.Votes := by
  rw [prepare_eq]

variable {ecrecover : Header → Except CliqueError Address} {Epoch : ℕ}

theorem applyHeader_eq (header : Header) :
    snap.applyHeader ecrecover Epoch header = (do
      let signer ← ecrecover header
      if signer ∉ (snap.prepare Epoch header.Number).Signers then throw .errUnauthorized
      if (snap.prepare Epoch header.Number).Recents.any (fun r => r.2 == signer) then throw .errUnauthorized
      let authorize ← if header.Nonce = nonceAuthVote then pure true
        else if header.Nonce = nonceDropVote then pure false
        else throw .errInvalidVote
      pure (((snap.prepare Epoch header.Number).record signer header.Number header.Coinbase authorize).tallyPassed
        header.Number header.Coinbase)) := by
  unfold applyHeader prepare record castVote
  rfl

/-- What a header accepted by `applyHeader` has passed, and the snapshot it leaves. -/
theorem applyHeader_eq_ok {snap' : Snapshot} {header : Header}
    (h : snap.applyHeader ecrecover Epoch header = .ok snap') :
    ∃ signer, ecrecover header = .ok signer ∧ signer ∈ snap.Signers ∧
      (∀ r ∈ (snap.prepare Epoch header.Number).Recents, r.2 ≠ signer) ∧
      (header.Nonce = nonceAuthVote ∨ header.Nonce = nonceDropVote) ∧
      snap' = ((snap.prepare Epoch header.Number).record signer header.Number header.Coinbase
        (decide (header.Nonce = nonceAuthVote))).tallyPassed header.Number header.Coinbase := by
  have hps : (snap.prepare Epoch header.Number).Signers = snap.Signers := prepare_signers Epoch header.Number
  rw [applyHeader_eq] at h
  generalize snap.prepare Epoch header.Number = p at h hps ⊢
  rw [← hps]
  cases hrec : ecrecover header with
  | error e => simp [hrec, bind, Except.bind] at h
  | ok signer =>
    by_cases hsig : signer ∈ p.Signers
    · by_cases hrecent : p.Recents.any (fun r => r.2 == signer) = true
      · simp [hrec, hsig, hrecent, bind, Except.bind, throw, throwThe, MonadExceptOf.throw] at h
      · simp only [hrec, hsig, hrecent, bind, Except.bind, not_true_eq_false, if_false, Bool.false_eq_true] at h
        refine ⟨signer, rfl, hsig, fun r hr hr' => hrecent (List.any_eq_true.mpr ⟨r, hr, by simp [hr']⟩), ?_⟩
        by_cases hauth : header.Nonce = nonceAuthVote
        · simp only [hauth, if_true, pure, Except.pure, Except.ok.injEq] at h
          exact ⟨.inl hauth, by rw [decide_eq_true hauth, h]⟩
        · by_cases hdrop : header.Nonce = nonceDropVote
          · rw [if_neg hauth, if_pos hdrop] at h
            simp only [pure, Except.pure, Except.ok.injEq] at h
            exact ⟨.inr hdrop, by rw [decide_eq_false hauth, h]⟩
          · simp [hauth, hdrop] at h
    · simp [hrec, hsig, bind, Except.bind, throw, throwThe, MonadExceptOf.throw] at h

/-- The end of a header keeps the invariant, and flips the signers at the coinbase exactly when
its tally is above half of them. -/
theorem tallyPassed_voting {n : ℕ} (hv : Voting snap n) (coinbase : Address) :
    Voting (snap.tallyPassed n coinbase) n ∧
      (snap.tallyPassed n coinbase).Signers = if snap.Signers.card / 2 < votesOn snap.Votes coinbase then
        flipSigner snap.Signers coinbase else snap.Signers := by
  have ht := hv.tallied
  by_cases hpass : snap.Signers.card / 2 < votesOn snap.Votes coinbase
  · rw [if_pos hpass]
    by_cases hc : coinbase ∈ snap.Signers
    · -- a signer dropped: half the signers may be one fewer
      rw [tallyPassed_drop ht hpass hc, flipSigner, if_pos hc]
      have hcard := Finset.card_erase_add_one hc
      have hsub : ((snap.Votes.filter fun v => v.Signer ≠ coinbase).filter fun v => v.Address ≠ coinbase).Sublist
          snap.Votes := List.filter_sublist.trans List.filter_sublist
      have hmem : ∀ v ∈ (snap.Votes.filter fun v => v.Signer ≠ coinbase).filter (fun v => v.Address ≠ coinbase),
          v.Signer ≠ coinbase ∧ v.Address ≠ coinbase := fun v hv' => by
        simp only [List.mem_filter, decide_eq_true_eq] at hv'
        exact ⟨hv'.1.2, hv'.2⟩
      refine ⟨⟨⟨rfl, fun v hv' => ?_, fun v hv' => ?_, ht.nodup.sublist (hsub.map _)⟩, ⟨fun r hr => ?_, ?_, ?_⟩⟩, rfl⟩
      · rw [ht.valid v (hsub.subset hv')]
        simp [(hmem v hv').2]
      · exact Finset.mem_erase.mpr ⟨(hmem v hv').1, ht.signed v (hsub.subset hv')⟩
      · have hdel : r ∈ snap.Recents ∧ ((snap.Signers.erase coinbase).card / 2 + 1 ≤ n →
            r.1 ≠ n - ((snap.Signers.erase coinbase).card / 2 + 1)) := by
          split_ifs at hr with hlim
          · simp only [List.mem_filter, decide_eq_true_eq] at hr
            exact ⟨hr.1, fun _ => hr.2⟩
          · exact ⟨hr, fun h' => absurd h' hlim⟩
        have hw := hv.recent.window r hdel.1
        exact ⟨hw.1, by dsimp only; omega⟩
      · split_ifs
        · exact hv.recent.keys.sublist (List.filter_sublist.map _)
        · exact hv.recent.keys
      · split_ifs
        · exact hv.recent.values.sublist (List.filter_sublist.map _)
        · exact hv.recent.values
    · -- a signer added: half the signers is no fewer
      rw [tallyPassed_add ht hpass hc, flipSigner, if_neg hc]
      have hcard : snap.Signers.card ≤ (insert coinbase snap.Signers).card :=
        Finset.card_le_card (Finset.subset_insert _ _)
      refine ⟨⟨⟨rfl, fun v hv' => ?_, fun v hv' => ?_, ht.nodup.sublist (List.filter_sublist.map _)⟩,
        ⟨fun r hr => ?_, hv.recent.keys, hv.recent.values⟩⟩, rfl⟩
      · simp only [List.mem_filter, decide_eq_true_eq] at hv'
        rw [ht.valid v hv'.1]
        simp [hv'.2]
      · exact Finset.mem_insert_of_mem (ht.signed v (List.mem_filter.mp hv').1)
      · have hw := hv.recent.window r hr
        exact ⟨hw.1, le_trans hw.2 (by dsimp only; omega)⟩
  · rw [if_neg hpass, tallyPassed_of_le ht (not_lt.mp hpass)]
    exact ⟨hv, rfl⟩

theorem prepare_recent {n : ℕ} (hr : Recent snap n) (Epoch : ℕ) :
    (∀ r ∈ (snap.prepare Epoch (n + 1)).Recents, r.1 < n + 1 ∧ n + 1 ≤ r.1 + snap.Signers.card / 2) ∧
      ((snap.prepare Epoch (n + 1)).Recents.map Prod.fst).Nodup ∧
      ((snap.prepare Epoch (n + 1)).Recents.map Prod.snd).Nodup ∧
      ∀ r ∈ snap.Recents, r ∉ (snap.prepare Epoch (n + 1)).Recents → r.1 + snap.Signers.card / 2 < n + 1 := by
  rw [prepare_recents]
  split_ifs with hlim
  · refine ⟨fun r hr' => ?_, hr.keys.sublist (List.filter_sublist.map _),
      hr.values.sublist (List.filter_sublist.map _), fun r hr' hout => ?_⟩
    · simp only [List.mem_filter, decide_eq_true_eq] at hr'
      have hw := hr.window r hr'.1
      omega
    · have hk : r.1 = n + 1 - (snap.Signers.card / 2 + 1) := by
        by_contra hne
        exact hout (List.mem_filter.mpr ⟨hr', decide_eq_true hne⟩)
      omega
  · exact ⟨fun r hr' => by have hw := hr.window r hr'; omega, hr.keys, hr.values,
      fun r hr' hout => absurd hr' hout⟩

variable {ecrecover : Header → Except CliqueError Address} {Epoch : ℕ}

/-- One header keeps the voting invariant and is accepted. -/
theorem applyHeader_voting {snap' : Snapshot} {n : ℕ} {header : Header} (hv : Voting snap n)
    (hn : header.Number = n + 1) (h : snap.applyHeader ecrecover Epoch header = .ok snap') :
    Voting snap' header.Number ∧ Accepted ecrecover Epoch snap header snap' := by
  obtain ⟨signer, hrec, hsig, hfree, hnonce, rfl⟩ := applyHeader_eq_ok h
  have hps : (snap.prepare Epoch header.Number).Signers = snap.Signers := prepare_signers Epoch header.Number
  have hpv : (snap.prepare Epoch header.Number).Votes = if header.Number % Epoch = 0 then [] else snap.Votes :=
    prepare_votes Epoch header.Number
  obtain ⟨hwin, hkeys, hvals, hout⟩ := prepare_recent hv.recent Epoch
  rw [← hn] at hwin hkeys hvals hout
  obtain ⟨hq, hqs, hqr, hqc⟩ := record_tallied (prepare_tallied hv.tallied Epoch header.Number) (hps ▸ hsig)
    header.Number header.Coinbase (decide (header.Nonce = nonceAuthVote))
  -- the header's signer made recent: every other recent signer came before it
  have hrq : Recent ((snap.prepare Epoch header.Number).record signer header.Number header.Coinbase
      (decide (header.Nonce = nonceAuthVote))) header.Number := by
    have hkeep : ((snap.prepare Epoch header.Number).Recents.filter fun r => r.1 ≠ header.Number) =
        (snap.prepare Epoch header.Number).Recents :=
      List.filter_eq_self.mpr fun r hr => decide_eq_true (hwin r hr).1.ne
    refine ⟨fun r hr => ?_, ?_, ?_⟩
    · rw [hqr, hkeep] at hr
      rw [hqs, hps]
      rcases List.mem_cons.mp hr with rfl | hr
      · exact ⟨le_rfl, Nat.le_add_right _ _⟩
      · exact ⟨(hwin r hr).1.le, (hwin r hr).2⟩
    · rw [hqr, hkeep, List.map_cons]
      exact List.nodup_cons.mpr ⟨fun hm => by
        obtain ⟨r, hr, he⟩ := List.mem_map.mp hm
        exact (hwin r hr).1.ne he, hkeys⟩
    · rw [hqr, hkeep, List.map_cons]
      exact List.nodup_cons.mpr ⟨fun hm => by
        obtain ⟨r, hr, he⟩ := List.mem_map.mp hm
        exact hfree r hr he, hvals⟩
  obtain ⟨hvt, hsigners⟩ := tallyPassed_voting ⟨hq, hrq⟩ header.Coinbase
  refine ⟨hvt, signer, hrec, hsig, fun k hk => ?_, hnonce, ?_⟩
  · -- a recent entry of the signer is one that the start of the header dropped
    refine hout (k, signer) hk fun hk' => hfree _ hk' rfl
  · have htally : votesOn ((snap.prepare Epoch header.Number).record signer header.Number header.Coinbase
        (decide (header.Nonce = nonceAuthVote))).Votes header.Coinbase = coinbaseTally Epoch snap signer header := by
      rw [hqc, hpv, hps, coinbaseTally]
    rw [hsigners, hqs, hps, htally]

end Snapshot

end Steps

/-! ## Runs of headers -/

section Runs

variable {ecrecover : Header → Except CliqueError Address} {Epoch : ℕ}

theorem chained_cons {h : Header} {rest : List Header} (hc : Snapshot.chained (h :: rest) = true) :
    Snapshot.chained rest = true ∧ ∀ h' ∈ rest.head?, h'.Number = h.Number + 1 := by
  cases rest with
  | nil => exact ⟨rfl, fun _ h' => by cases h'⟩
  | cons b rest =>
    simp only [Snapshot.chained, Bool.and_eq_true, beq_iff_eq] at hc
    exact ⟨hc.2, fun h' hh => by cases hh; exact hc.1⟩

/-- Over a run of chained headers from the one after block `n`, the invariant holds after each
header and every header is accepted from the snapshot the ones before it leave. -/
theorem foldlM_voting : ∀ (headers : List Header) (snap t : Snapshot) (n : ℕ), Voting snap n →
    Snapshot.chained headers = true → (∀ h ∈ headers.head?, h.Number = n + 1) →
    headers.foldlM (Snapshot.applyHeader ecrecover Epoch) snap = .ok t →
    Voting t (n + headers.length) ∧
      ∀ pre header post, headers = pre ++ header :: post → ∀ u,
        pre.foldlM (Snapshot.applyHeader ecrecover Epoch) snap = .ok u →
        ∃ u', u.applyHeader ecrecover Epoch header = .ok u' ∧ Accepted ecrecover Epoch u header u'
  | [], snap, t, n, hv, _, _, hrun => by
    cases hrun
    exact ⟨hv, fun pre _ _ he => absurd he.symm (List.append_ne_nil_of_right_ne_nil pre (List.cons_ne_nil _ _))⟩
  | h :: rest, snap, t, n, hv, hc, hfirst, hrun => by
    obtain ⟨s₁, hstep, hrest⟩ := Lib.except_bind_eq_ok.mp hrun
    have hn : h.Number = n + 1 := hfirst h rfl
    obtain ⟨hv₁, hacc⟩ := Snapshot.applyHeader_voting hv hn hstep
    obtain ⟨hc', hnext⟩ := chained_cons hc
    obtain ⟨hvt, hall⟩ := foldlM_voting rest s₁ t (n + 1) (hn ▸ hv₁) hc' (fun h' hh => by rw [hnext h' hh, hn])
      hrest
    refine ⟨by simpa [Nat.add_assoc, Nat.add_comm 1] using hvt, fun pre header post he u hu => ?_⟩
    cases pre with
    | nil =>
      obtain ⟨rfl, rfl⟩ := List.cons.inj he
      cases hu
      exact ⟨s₁, hstep, hacc⟩
    | cons h₀ pre =>
      obtain ⟨rfl, he'⟩ := List.cons.inj he
      rw [List.foldlM_cons, hstep] at hu
      exact hall pre header post he' u hu

theorem newSnapshot_voting (number : ℕ) (signers : Finset Address) : Voting (newSnapshot number signers) number :=
  ⟨⟨by funext a; rfl, by simp [newSnapshot], by simp [newSnapshot], List.nodup_nil⟩,
    ⟨by simp [newSnapshot], List.nodup_nil, List.nodup_nil⟩⟩

/-- The voting invariant over `apply`: from a snapshot that holds it, every run of headers that
`apply` accepts leaves one that holds it, and accepts each header from the snapshot the headers
before it leave, flipping the signers at the header's coinbase exactly when its tally is above
half of them. -/
theorem apply_voting {s s' : Snapshot} {headers : List Header} (hs : Voting s s.Number)
    (h : s.apply ecrecover Epoch headers = .ok s') :
    Voting s' s'.Number ∧
      ∀ pre header post, headers = pre ++ header :: post → ∀ snap,
        pre.foldlM (Snapshot.applyHeader ecrecover Epoch) s = .ok snap →
        ∃ snap', snap.applyHeader ecrecover Epoch header = .ok snap' ∧ Accepted ecrecover Epoch snap header snap' := by
  cases headers with
  | nil =>
    cases h
    exact ⟨hs, fun pre _ _ he => absurd he.symm (List.append_ne_nil_of_right_ne_nil pre (List.cons_ne_nil _ _))⟩
  | cons first rest =>
    simp only [Snapshot.apply] at h
    split_ifs at h with hc hfirst
    obtain ⟨t, hrun, ht⟩ := Lib.except_bind_eq_ok.mp h
    simp only [pure, Except.pure, Except.ok.injEq] at ht
    subst ht
    obtain ⟨hvt, hall⟩ := foldlM_voting (first :: rest) s t s.Number hs (by simpa using hc)
      (fun h' hh => by cases hh; simpa using hfirst) hrun
    exact ⟨⟨⟨hvt.tallied.tally, hvt.tallied.valid, hvt.tallied.signed, hvt.tallied.nodup⟩,
        ⟨hvt.recent.window, hvt.recent.keys, hvt.recent.values⟩⟩, hall⟩

/-- The six headers on four signers after which the tally of `5`, passed out of bounds by the
drop of `4`, adds `5` at the header of `3` that votes to drop it. -/
theorem apply_voting_out_of_bounds :
    ∃ s', (newSnapshot 0 {1, 2, 3, 4}).apply
        (fun h => .ok ([1, 2, 3, 1, 2, 3].getD (h.Number - 1) 0)) 30000
        [⟨1, 5, nonceAuthVote, []⟩, ⟨2, 5, nonceAuthVote, []⟩, ⟨3, 4, nonceDropVote, []⟩,
          ⟨4, 4, nonceDropVote, []⟩, ⟨5, 4, nonceDropVote, []⟩, ⟨6, 5, nonceDropVote, []⟩] = .ok s' ∧
      5 ∈ s'.Signers ∧ Voting s' s'.Number ∧
      ∀ pre header post, [⟨1, 5, nonceAuthVote, []⟩, ⟨2, 5, nonceAuthVote, []⟩, ⟨3, 4, nonceDropVote, []⟩,
          ⟨4, 4, nonceDropVote, []⟩, ⟨5, 4, nonceDropVote, []⟩, ⟨6, 5, nonceDropVote, []⟩] = pre ++ header :: post →
        ∀ snap, pre.foldlM (Snapshot.applyHeader (fun h => .ok ([1, 2, 3, 1, 2, 3].getD (h.Number - 1) 0)) 30000)
            (newSnapshot 0 {1, 2, 3, 4}) = .ok snap →
          ∃ snap', snap.applyHeader (fun h => .ok ([1, 2, 3, 1, 2, 3].getD (h.Number - 1) 0)) 30000 header = .ok snap' ∧
            Accepted (fun h => .ok ([1, 2, 3, 1, 2, 3].getD (h.Number - 1) 0)) 30000 snap header snap' := by
  have h5 : ((newSnapshot 0 {1, 2, 3, 4}).apply
      (fun h => .ok ([1, 2, 3, 1, 2, 3].getD (h.Number - 1) 0)) 30000
      [⟨1, 5, nonceAuthVote, []⟩, ⟨2, 5, nonceAuthVote, []⟩, ⟨3, 4, nonceDropVote, []⟩,
        ⟨4, 4, nonceDropVote, []⟩, ⟨5, 4, nonceDropVote, []⟩, ⟨6, 5, nonceDropVote, []⟩]).map
      (fun s => decide (5 ∈ s.Signers)) = .ok true := by decide
  cases hrun : (newSnapshot 0 {1, 2, 3, 4}).apply
      (fun h => .ok ([1, 2, 3, 1, 2, 3].getD (h.Number - 1) 0)) 30000
      [⟨1, 5, nonceAuthVote, []⟩, ⟨2, 5, nonceAuthVote, []⟩, ⟨3, 4, nonceDropVote, []⟩,
        ⟨4, 4, nonceDropVote, []⟩, ⟨5, 4, nonceDropVote, []⟩, ⟨6, 5, nonceDropVote, []⟩] with
  | error e =>
    rw [hrun] at h5
    cases h5
  | ok s' =>
    rw [hrun] at h5
    simp only [Except.map, Except.ok.injEq, decide_eq_true_eq] at h5
    exact ⟨s', rfl, h5, apply_voting (newSnapshot_voting 0 {1, 2, 3, 4}) hrun⟩

end Runs

end EthereumAI.Clique
