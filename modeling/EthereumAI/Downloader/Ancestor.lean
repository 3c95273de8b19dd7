import Mathlib

/-! # The common ancestor (`eai/downloader/downloader.go`)

Before it syncs with a peer, the downloader looks for the highest block its chain shares with the
peer's. `findAncestor` first asks for a sparse span of headers, sixteen apart, from
`MaxHeaderFetch` below the lower of the two heads, and takes the highest one it knows within the
span and its own head. When it knows none, it halves the interval from the fork-ancestry floor to
that head, asking for the middle header each time, keeping a known one as the lower end and an
unknown one as the upper. An ancestor at or below the floor is refused.

Each request is answered by the peer, a function of the request: a reply from another peer, the
cancel channel and the timeouts are outside the model. `honest` is a peer that answers from its
chain with the headers it has. Against it, and a local chain that knows the peer's headers exactly
up to some height, the ancestor found is within fifteen blocks of the highest shared block, and is
that block when the span starts above it (`findAncestor_honest`).
-/

namespace EthereumAI.Downloader

-- the package and its main type share the name
set_option linter.dupNamespace false

def MaxHeaderFetch : ℕ := 192

/-- `3 * params.EpochDuration`. -/
def MaxForkAncestry : ℕ := 3 * 30000

inductive SyncMode
  | FullSync
  | FastSync
  | LightSync
  deriving DecidableEq, Repr

structure Header (Hash : Type) where
  Number : ℕ
  /-- `header.Hash()` -/
  hash : Hash

/-- What `findAncestor` reads of the local chains. -/
structure Chains (Hash : Type) where
  /-- `lightchain.CurrentHeader().Number` -/
  CurrentHeader : ℕ
  /-- `blockchain.CurrentBlock().NumberU64()` -/
  CurrentBlock : ℕ
  /-- `blockchain.CurrentFastBlock().NumberU64()` -/
  CurrentFastBlock : ℕ
  HasBlock : Hash → ℕ → Bool
  HasHeader : Hash → ℕ → Bool
  GetHeaderByHash : Hash → Header Hash

structure Downloader (Hash : Type) where
  mode : SyncMode
  chains : Chains Hash

inductive Error
  | errEmptyHeaderSet
  | errInvalidChain
  | errStallingPeer
  | errBadPeer
  | errInvalidAncestor
  deriving DecidableEq, Repr

/-- A peer's reply to `RequestHeadersByNumber(origin, amount, skip, false)`. -/
abbrev Peer (Hash : Type) := ℕ → ℕ → ℕ → List (Header Hash)

variable {Hash : Type}

namespace Downloader

/-- The local head: of the blocks in full sync, of the fast blocks in fast sync, of the headers
otherwise. -/
def ceil (d : Downloader Hash) : ℕ :=
  match d.mode with
  | .FullSync => d.chains.CurrentBlock
  | .FastSync => d.chains.CurrentFastBlock
  | .LightSync => d.chains.CurrentHeader

/-- Whether the local chain knows a header: its block in full sync, the header otherwise. -/
def known (d : Downloader Hash) (header : Header Hash) : Bool :=
  (d.mode = .FullSync && d.chains.HasBlock header.hash header.Number) ||
    (d.mode ≠ .FullSync && d.chains.HasHeader header.hash header.Number)

end Downloader

def floorOf (ceil : ℕ) : ℤ := if ceil ≥ MaxForkAncestry then ((ceil - MaxForkAncestry : ℕ) : ℤ) else -1

def limit : ℕ := 2 * MaxHeaderFetch / 16

namespace Downloader

variable [Inhabited Hash]

/-- The head fetch: the reply checked against the request, then scanned from the top for a known
header inside the requested span and the local head. The zero hash stands for none found. -/
def headFetch (d : Downloader Hash) (fromHeight height : ℕ) (headers : List (Header Hash)) :
    Except Error (ℕ × Hash) :=
  if headers.length = 0 then .error .errEmptyHeaderSet
  else if !(List.range headers.length).all (fun i => (headers[i]?.map (·.Number)) == some (fromHeight + i * 16)) then
    .error .errInvalidChain
  else
    match (List.range headers.length).reverse.find? (fun i => match headers[i]? with
        | some header => !(header.Number < fromHeight || header.Number > d.ceil) && d.known header
        | none => false) with
    | some i =>
      match headers[i]? with
      | some header =>
        -- every header known, even above the reported head: the peer lied about it
        if header.Number > height && i = limit - 1 then .error .errStallingPeer
        else .ok (header.Number, header.hash)
      | none => .ok (0, default)
    | none => .ok (0, default)

/-- The binary search between `start`, known, and `stop`, not known. -/
def search (d : Downloader Hash) (peer : Peer Hash) (start stop : ℕ) : Except Error ℕ :=
  if start + 1 < stop then
    let check := (start + stop) / 2
    match peer check 1 0 with
    | [header] =>
      if !d.known header then d.search peer start check
      else if (d.chains.GetHeaderByHash header.hash).Number ≠ check then .error .errBadPeer
      else d.search peer check stop
    | _ => .error .errBadPeer
  else .ok start
termination_by stop - start

variable [DecidableEq Hash]

def findAncestor (d : Downloader Hash) (peer : Peer Hash) (height : ℕ) : Except Error ℕ := do
  let floor := floorOf d.ceil
  let head := min d.ceil height
  let fromHeight := head - MaxHeaderFetch
  let count := min (1 + (d.ceil - fromHeight) / 16) limit
  let (number, hash) ← d.headFetch fromHeight height (peer fromHeight count 15)
  if hash ≠ default then
    if (number : ℤ) ≤ floor then .error .errInvalidAncestor else .ok number
  else
    let start ← d.search peer (if floor > 0 then floor.toNat else 0) head
    if (start : ℤ) ≤ floor then .error .errInvalidAncestor else .ok start

end Downloader

/-- A peer that answers from its chain `remote` of height `height`: the headers it has at the
numbers asked for. -/
def honest (remote : ℕ → Header Hash) (height : ℕ) : Peer Hash := fun origin amount skip =>
  (((List.range amount).map fun i => origin + i * (skip + 1)).filter (· ≤ height)).map remote

/-! ## Against an honest peer -/

theorem filter_span_le (o s h n : ℕ) (hs : 0 < s) (ho : o ≤ h) :
    ((List.range n).map fun i => o + i * s).filter (· ≤ h) =
      (List.range (min n ((h - o) / s + 1))).map fun i => o + i * s := by
  induction n with
  | zero => simp
  | succ n ih =>
    rw [List.range_succ, List.map_append, List.filter_append, ih]
    have hle : o + n * s ≤ h ↔ n < (h - o) / s + 1 := by
      rw [Nat.lt_succ_iff, Nat.le_div_iff_mul_le hs]
      omega
    by_cases hn : n < (h - o) / s + 1
    · rw [Nat.min_eq_left (by omega), Nat.min_eq_left (by omega), List.range_succ, List.map_append]
      simp [hle.mpr hn]
    · rw [Nat.min_eq_right (by omega), Nat.min_eq_right (by omega)]
      simp [mt hle.mp hn]

theorem find?_range_reverse (k m : ℕ) (P : ℕ → Bool) (hm : m < k) (hP : ∀ i < k, P i = true ↔ i ≤ m) :
    (List.range k).reverse.find? P = some m := by
  induction k with
  | zero => omega
  | succ k ih =>
    rw [List.range_succ, List.reverse_append, List.reverse_singleton, List.singleton_append]
    by_cases hk : k ≤ m
    · obtain rfl : k = m := by omega
      exact List.find?_cons_of_pos ((hP k (by omega)).mpr (Nat.le_refl k))
    · rw [List.find?_cons_of_neg (by rw [hP k (by omega)]; exact hk)]
      exact ih (by omega) fun i hi => hP i (by omega)

section Honest

variable {d : Downloader Hash} {remote : ℕ → Header Hash} {height a : ℕ}

theorem honest_span {fromHeight : ℕ} (count : ℕ) (ho : fromHeight ≤ height) :
    honest remote height fromHeight count 15 =
      (List.range (min count ((height - fromHeight) / 16 + 1))).map fun i => remote (fromHeight + i * 16) := by
  unfold honest
  rw [filter_span_le fromHeight 16 height count (by decide) ho, List.map_map]
  rfl

theorem honest_single {check : ℕ} (hc : check ≤ height) : honest remote height check 1 0 = [remote check] := by
  simp [honest, hc]

theorem eq_of_honest_single {check : ℕ} {header : Header Hash} (hc : check ≤ height)
    (hreply : honest remote height check 1 0 = [header]) : remote check = header := by
  simpa [honest_single hc] using hreply

theorem search_step {peer : Peer Hash} {start stop : ℕ} {header : Header Hash} (hlt : start + 1 < stop)
    (hreply : peer ((start + stop) / 2) 1 0 = [header]) :
    d.search peer start stop =
      if !d.known header then d.search peer start ((start + stop) / 2)
      else if (d.chains.GetHeaderByHash header.hash).Number ≠ (start + stop) / 2 then .error .errBadPeer
      else d.search peer ((start + stop) / 2) stop := by
  rw [Downloader.search, if_pos hlt]
  simp only [hreply]

variable (hnum : ∀ n, (remote n).Number = n) (hknown : ∀ n ≤ height, d.known (remote n) = true ↔ n ≤ a)
  (hget : ∀ n ≤ a, (d.chains.GetHeaderByHash (remote n).hash).Number = n)

include hknown hget in
/-- The search settles on the highest known number in its interval, or stays at its start. -/
theorem search_honest (start stop : ℕ) (hstop : stop ≤ height) :
    d.search (honest remote height) start stop =
      .ok (if start + 1 < stop then max start (min a (stop - 1)) else start) := by
  induction start, stop using Downloader.search.induct d (honest remote height) with
  | case1 start stop hlt check header hreply hunknown ih =>
    -- the middle is not known: it is above `a`, and the search goes on below it
    have hc : check = (start + stop) / 2 := rfl
    have hcheck : check ≤ height := by omega
    obtain rfl := eq_of_honest_single hcheck hreply
    have ha : ¬check ≤ a := fun h => by simp [(hknown _ hcheck).mpr h] at hunknown
    rw [search_step hlt hreply, if_pos hunknown, ih (by omega)]
    congr 1
    split_ifs <;> omega
  | case2 start stop hlt check header hreply hknown' hbad =>
    have hcheck : check ≤ height := by omega
    obtain rfl := eq_of_honest_single hcheck hreply
    have ha : check ≤ a := (hknown _ hcheck).mp (by simpa using hknown')
    exact absurd (hget _ ha) hbad
  | case3 start stop hlt check header hreply hknown' hgood ih =>
    -- the middle is known: the search goes on above it
    have hc : check = (start + stop) / 2 := rfl
    have hcheck : check ≤ height := by omega
    obtain rfl := eq_of_honest_single hcheck hreply
    have ha : check ≤ a := (hknown _ hcheck).mp (by simpa using hknown')
    rw [search_step hlt hreply, if_neg hknown', if_neg hgood, ih hstop]
    congr 1
    split_ifs <;> omega
  | case4 start stop hlt check hnot =>
    exact absurd (honest_single (by omega)) (hnot _)
  | case5 start stop hge =>
    rw [Downloader.search, if_neg hge, if_neg hge]

variable [Inhabited Hash]

include hnum hknown in
/-- The head fetch finds the highest header of the span that is known and under the local head,
when the span reaches it. -/
theorem headFetch_honest {fromHeight count : ℕ} (ha : a ≤ height) (ho : fromHeight ≤ min d.ceil height)
    (hcount : (min a d.ceil - fromHeight) / 16 < count) :
    d.headFetch fromHeight height (honest remote height fromHeight count 15) =
      if fromHeight ≤ min a d.ceil then
        .ok (fromHeight + (min a d.ceil - fromHeight) / 16 * 16,
          (remote (fromHeight + (min a d.ceil - fromHeight) / 16 * 16)).hash)
      else .ok (0, default) := by
  have hoh : fromHeight ≤ height := by omega
  rw [honest_span count hoh]
  -- the reply holds the span up to the peer's head, at least its first header
  generalize hk : min count ((height - fromHeight) / 16 + 1) = k
  have hk0 : 0 < k := by omega
  have hspan : ∀ i < k, fromHeight + i * 16 ≤ height := fun i hi => by
    have : i ≤ (height - fromHeight) / 16 := by omega
    rw [Nat.le_div_iff_mul_le (by decide)] at this
    omega
  have hget? : ∀ i < k, ((List.range k).map fun i => remote (fromHeight + i * 16))[i]? =
      some (remote (fromHeight + i * 16)) := fun i hi => by simp [hi]
  unfold Downloader.headFetch
  rw [if_neg (by simp; omega), if_neg (by simp [hnum]; intro i hi; simp [hi]), List.length_map, List.length_range]
  -- a sample is kept when it is under the local head and known, that is, at most `min a ceil`
  have hkept : ∀ i < k, (fromHeight + i * 16 ≤ d.ceil ∧ d.known (remote (fromHeight + i * 16)) = true ↔
      fromHeight + i * 16 ≤ min a d.ceil) := fun i hi => by
    rw [hknown _ (hspan i hi)]
    omega
  split_ifs with hfb
  · have hm : ∀ i, i ≤ (min a d.ceil - fromHeight) / 16 ↔ fromHeight + i * 16 ≤ min a d.ceil := fun i => by
      rw [Nat.le_div_iff_mul_le (by decide)]
      omega
    have hmk : (min a d.ceil - fromHeight) / 16 < k := by
      have := (hm ((height - fromHeight) / 16 + 1)).not.mpr
      omega
    rw [find?_range_reverse k _ _ hmk fun i hi => by simp [hget? i hi, hnum, hm, ← hkept i hi]]
    dsimp only
    rw [hget? _ hmk]
    dsimp only
    rw [if_neg (by simp [hnum]; omega), hnum]
  · rw [List.find?_eq_none.mpr fun i hi => by
      have hi : i < k := by simpa using hi
      have hnot := (hkept i hi).not.mpr (by omega)
      simp only [hget? i hi, hnum, Bool.and_eq_true, Bool.not_eq_true', Bool.or_eq_false_iff, decide_eq_false_iff_not,
        gt_iff_lt, not_and]
      intro hrange hk
      exact hnot ⟨by omega, hk⟩]

variable [DecidableEq Hash]

include hnum hknown hget in
/-- Against an honest peer whose headers the local chain knows exactly up to `a`, the ancestor is
at most fifteen blocks below the highest shared block `min a ceil`, and is that block when the
head fetch starts above it; at or below the floor it is refused. -/
theorem findAncestor_honest (hhash : ∀ n, (remote n).hash ≠ default) (ha : a ≤ height) :
    ∃ n, min a d.ceil ≤ n + 15 ∧ n ≤ min a d.ceil ∧
      (min a d.ceil < min d.ceil height - MaxHeaderFetch → n = min a d.ceil) ∧
      d.findAncestor (honest remote height) height =
        if floorOf d.ceil < n then .ok n else .error .errInvalidAncestor := by
  have hmax : MaxHeaderFetch = 192 := rfl
  have hcount : (min a d.ceil - (min d.ceil height - MaxHeaderFetch)) / 16 <
      min (1 + (d.ceil - (min d.ceil height - MaxHeaderFetch)) / 16) limit := by
    simp only [hmax, limit]
    omega
  unfold Downloader.findAncestor
  dsimp only
  rw [headFetch_honest hnum hknown ha (by omega) hcount]
  by_cases hfb : min d.ceil height - MaxHeaderFetch ≤ min a d.ceil
  · -- the head fetch finds the ancestor
    rw [if_pos hfb]
    refine ⟨min d.ceil height - MaxHeaderFetch + (min a d.ceil - (min d.ceil height - MaxHeaderFetch)) / 16 * 16,
      by omega, by omega, fun h => absurd hfb (by omega), ?_⟩
    simp only [bind, Except.bind, ne_eq, hhash, not_false_eq_true, if_true]
    split_ifs <;> first | rfl | omega
  · -- the search finds it
    rw [if_neg hfb]
    refine ⟨min a d.ceil, by omega, Nat.le_refl _, fun _ => rfl, ?_⟩
    simp only [bind, Except.bind, ne_eq, not_true_eq_false, if_false]
    rw [search_honest hknown hget _ _ (by omega)]
    simp only
    split_ifs <;> first | omega | (congr 1 <;> omega)

end Honest

/-- A full-sync node at block 8 that has the blocks of the peer up to 5. -/
def exampleDownloader : Downloader ℕ :=
  ⟨.FullSync, ⟨8, 8, 8, fun hash n => decide (n ≤ 5 ∧ hash = n + 1), fun _ _ => false, fun hash => ⟨hash - 1, hash⟩⟩⟩

/-- The peer's chain, whose header at `n` has the hash `n + 1`. -/
def exampleRemote (n : ℕ) : Header ℕ := ⟨n, n + 1⟩

theorem findAncestor_honest_example :
    (∀ n, (exampleRemote n).Number = n) ∧
      (∀ n ≤ 10, exampleDownloader.known (exampleRemote n) = true ↔ n ≤ 5) ∧
      (∀ n ≤ 5, (exampleDownloader.chains.GetHeaderByHash (exampleRemote n).hash).Number = n) ∧
      (∀ n, (exampleRemote n).hash ≠ default) ∧ 5 ≤ 10 ∧
      ∃ n, min 5 exampleDownloader.ceil ≤ n + 15 ∧ n ≤ min 5 exampleDownloader.ceil ∧
        (min 5 exampleDownloader.ceil < min exampleDownloader.ceil 10 - MaxHeaderFetch → n = min 5 exampleDownloader.ceil) ∧
        exampleDownloader.findAncestor (honest exampleRemote 10) 10 =
          if floorOf exampleDownloader.ceil < n then .ok n else .error .errInvalidAncestor := by
  have hnum : ∀ n, (exampleRemote n).Number = n := fun _ => rfl
  have hknown : ∀ n ≤ 10, exampleDownloader.known (exampleRemote n) = true ↔ n ≤ 5 := fun n _ => by
    simp [exampleDownloader, exampleRemote, Downloader.known]
  have hget : ∀ n ≤ 5, (exampleDownloader.chains.GetHeaderByHash (exampleRemote n).hash).Number = n :=
    fun n _ => by simp [exampleDownloader, exampleRemote]
  have hhash : ∀ n, (exampleRemote n).hash ≠ default := fun n => by simp [exampleRemote]
  exact ⟨hnum, hknown, hget, hhash, by decide, findAncestor_honest hnum hknown hget hhash (by decide)⟩

end EthereumAI.Downloader
