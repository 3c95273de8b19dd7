import EthereumAI.Eai.Fetcher
import EthereumAI.Lib.Journal

/-! # The fetcher's counters

What a run of the loop keeps of `announces` and `queues`. Every step either only lowers the
announce counters and leaves the queue alone (`Shrinks`), or queues or drops a block together with
its origin's count, or counts a new announcement up to `hashLimit`. So from `New` the queue counters
count the queued blocks exactly, up to `blockLimit`, and no announce counter exceeds `hashLimit`.

The announce counters do not count what the stages hold: `forgetHash` takes off one for each stage
that holds the hash, and the fetch timer forgets an announcement before it moves it to `fetching`.
-/

namespace EthereumAI.Eai
open Lib Lib.Counter

variable {Hash Peer Txs Uncles : Type} [DecidableEq Peer]

namespace Fetcher

/-- The counters' invariant: the queue counters count the queued blocks of each peer, up to
`blockLimit`, and no announce counter exceeds `hashLimit`. -/
structure Inv (f : Fetcher Hash Peer Txs Uncles) : Prop where
  queues_eq : ∀ p, Counter.get f.queues p = (values f.queued).countP (fun op => op.origin = p)
  queues_le : ∀ p, Counter.get f.queues p ≤ blockLimit
  announces_le : ∀ p, Counter.get f.announces p ≤ hashLimit

/-- A change that keeps the queue and lowers no announce counter above where it was. -/
structure Shrinks (f f' : Fetcher Hash Peer Txs Uncles) : Prop where
  queues : f'.queues = f.queues
  queued : f'.queued = f.queued
  announces : ∀ p, Counter.get f'.announces p ≤ Counter.get f.announces p

theorem Shrinks.refl (f : Fetcher Hash Peer Txs Uncles) : Shrinks f f := ⟨rfl, rfl, fun _ => le_rfl⟩

theorem Shrinks.of_eq {f f' : Fetcher Hash Peer Txs Uncles} (ha : f'.announces = f.announces)
    (hq : f'.queues = f.queues) (hqd : f'.queued = f.queued) : Shrinks f f' :=
  ⟨hq, hqd, fun p => by rw [ha]⟩

theorem Shrinks.trans {f g h : Fetcher Hash Peer Txs Uncles} (h₁ : Shrinks f g) (h₂ : Shrinks g h) : Shrinks f h :=
  ⟨h₂.queues.trans h₁.queues, h₂.queued.trans h₁.queued, fun p => (h₂.announces p).trans (h₁.announces p)⟩

theorem Inv_New : Inv (New : Fetcher Hash Peer Txs Uncles) :=
  ⟨fun _ => rfl, fun _ => by simp [New, blockLimit], fun _ => by simp [New, hashLimit]⟩

theorem Inv.shrinks {f f' : Fetcher Hash Peer Txs Uncles} (hf : Inv f) (h : Shrinks f f') : Inv f' where
  queues_eq p := by rw [h.queues, h.queued]; exact hf.queues_eq p
  queues_le p := by rw [h.queues]; exact hf.queues_le p
  announces_le p := (h.announces p).trans (hf.announces_le p)

theorem get_decr_le (m : AList (fun _ : Peer => ℤ)) (k p : Peer) : Counter.get (decr m k) p ≤ Counter.get m p := by
  rw [get_decr]
  split_ifs <;> omega

theorem get_foldl_decr_le (l : List (announce Hash Peer)) (m : AList (fun _ : Peer => ℤ)) (p : Peer) :
    Counter.get (l.foldl (fun m (a : announce Hash Peer) => decr m a.origin) m) p ≤ Counter.get m p := by
  rw [get_foldl_decr]
  omega

theorem Shrinks.foldl {α : Type} (g : Fetcher Hash Peer Txs Uncles → α → Fetcher Hash Peer Txs Uncles)
    (l : List α) (hg : ∀ s, ∀ a ∈ l, Shrinks s (g s a)) (f : Fetcher Hash Peer Txs Uncles) :
    Shrinks f (l.foldl g f) :=
  foldl_invariant g l (fun s a ha hs => hs.trans (hg s a ha)) f (Shrinks.refl f)

section Stages

variable [DecidableEq Hash]

/-- The announcements of `p` that the stages hold under `hash`. -/
def heldUnder (f : Fetcher Hash Peer Txs Uncles) (hash : Hash) (p : Peer) : ℕ :=
  ((f.announced.lookup hash).getD []).countP (fun a => a.origin = p) +
    (if (f.fetching.lookup hash).any (fun a => a.origin = p) then 1 else 0) +
    ((f.fetched.lookup hash).getD []).countP (fun a => a.origin = p) +
    (if (f.completing.lookup hash).any (fun a => a.origin = p) then 1 else 0)

theorem get_forgetHash (f : Fetcher Hash Peer Txs Uncles) (hash : Hash) (p : Peer) :
    Counter.get (f.forgetHash hash).announces p = Counter.get f.announces p - f.heldUnder hash p := by
  unfold forgetHash heldUnder
  cases hF : f.fetching.lookup hash <;> cases hC : f.completing.lookup hash
  all_goals
    simp only [hF, hC, get_decr, get_foldl_decr, Option.any_none, Option.any_some, decide_eq_true_eq,
      Bool.false_eq_true, if_false]
    try split_ifs
  all_goals omega

theorem forgetHash_queues (f : Fetcher Hash Peer Txs Uncles) (hash : Hash) :
    (f.forgetHash hash).queues = f.queues ∧ (f.forgetHash hash).queued = f.queued := by
  unfold forgetHash
  cases hF : f.fetching.lookup hash <;> cases hC : f.completing.lookup hash <;> simp [hF, hC]

theorem shrinks_forgetHash (f : Fetcher Hash Peer Txs Uncles) (hash : Hash) : Shrinks f (f.forgetHash hash) :=
  ⟨(forgetHash_queues f hash).1, (forgetHash_queues f hash).2, fun p => by rw [get_forgetHash]; omega⟩

theorem shrinks_fetchTimer (f : Fetcher Hash Peer Txs Uncles) (now : ℕ) (getBlock : Hash → Bool)
    (pick : Hash → ℕ) : Shrinks f (f.fetchTimer now getBlock pick) := by
  refine Shrinks.foldl _ _ (fun s e _ => ?_) f
  rcases e with ⟨hash, _ | ⟨a, rest⟩⟩
  · exact Shrinks.refl s
  · dsimp only
    split_ifs
    · exact (shrinks_forgetHash s hash).trans (.of_eq rfl rfl rfl)
    · exact shrinks_forgetHash s hash
    · exact Shrinks.refl s

theorem shrinks_completeTimer (f : Fetcher Hash Peer Txs Uncles) (getBlock : Hash → Bool) (pick : Hash → ℕ) :
    Shrinks f (f.completeTimer getBlock pick) := by
  refine Shrinks.foldl _ _ (fun s e _ => ?_) f
  rcases e with ⟨hash, _ | ⟨a, rest⟩⟩
  · exact Shrinks.refl s
  · dsimp only
    split_ifs
    · exact (shrinks_forgetHash s hash).trans (.of_eq rfl rfl rfl)
    · exact shrinks_forgetHash s hash

theorem shrinks_expire (f : Fetcher Hash Peer Txs Uncles) (now : ℕ) : Shrinks f (f.expire now) := by
  refine Shrinks.foldl _ _ (fun s e _ => ?_) f
  split_ifs
  · exact shrinks_forgetHash s e.1
  · exact Shrinks.refl s

theorem shrinks_filterHeader (chain : Chain Hash Txs Uncles) (peer : Peer) (time : ℕ)
    (acc : Fetcher Hash Peer Txs Uncles × List (Header Hash) × List (Hash × announce Hash Peer) ×
      List (Block Hash Txs Uncles))
    (header : Header Hash) : Shrinks acc.1 (filterHeader chain peer time acc header).1 := by
  obtain ⟨f, unknown, incomplete, complete⟩ := acc
  unfold filterHeader
  dsimp only
  split
  · split_ifs
    · exact shrinks_forgetHash f header.hash
    · exact .of_eq rfl rfl rfl
    · exact .of_eq rfl rfl rfl
    · exact shrinks_forgetHash f header.hash
    · exact Shrinks.refl f
  · exact Shrinks.refl f

theorem shrinks_matchBody (chain : Chain Hash Txs Uncles) (peer : Peer) (txs : Txs) (uncles : Uncles)
    (acc : Fetcher Hash Peer Txs Uncles × Bool × List (Block Hash Txs Uncles)) (e : (_ : Hash) × announce Hash Peer) :
    Shrinks acc.1 (matchBody chain peer txs uncles acc e).1 := by
  obtain ⟨f, matched, blocks⟩ := acc
  unfold matchBody
  dsimp only
  split
  · split_ifs
    · exact Shrinks.refl f
    · exact shrinks_forgetHash f e.1
    · exact Shrinks.refl f
  · exact Shrinks.refl f

theorem shrinks_bodyLoop (chain : Chain Hash Txs Uncles) (peer : Peer) :
    ∀ (f : Fetcher Hash Peer Txs Uncles) (ts : List Txs) (us : List Uncles), Shrinks f (f.bodyLoop chain peer ts us).1
  | f, t :: ts, u :: us => by
    have hmatch := foldl_invariant (P := fun acc => Shrinks f acc.1) (matchBody chain peer t u) f.completing.entries
      (fun acc e _ h => h.trans (shrinks_matchBody chain peer t u acc e)) (f, false, []) (Shrinks.refl f)
    unfold bodyLoop
    generalize f.completing.entries.foldl (matchBody chain peer t u) (f, false, []) = acc at hmatch ⊢
    obtain ⟨g, matched, blocks⟩ := acc
    have hrest := shrinks_bodyLoop chain peer g ts us
    dsimp only
    split_ifs
    · exact hmatch.trans hrest
    · exact hmatch.trans hrest
  | f, [], _ => by unfold bodyLoop; exact Shrinks.refl f
  | f, _ :: _, [] => by unfold bodyLoop; exact Shrinks.refl f

theorem Inv.forgetBlock {f : Fetcher Hash Peer Txs Uncles} (hf : Inv f) (hash : Hash) : Inv (f.forgetBlock hash) := by
  unfold Fetcher.forgetBlock
  split
  · next op hop =>
    refine ⟨fun p => ?_, fun p => (get_decr_le _ _ p).trans (hf.queues_le p), hf.announces_le⟩
    rw [get_decr, hf.queues_eq p, countP_values_erase hop]
    split_ifs <;> simp_all
  · exact hf

theorem Inv.enqueue {f : Fetcher Hash Peer Txs Uncles} (hf : Inv f) (height : ℕ) (peer : Peer)
    (block : Block Hash Txs Uncles) : Inv (f.enqueue height peer block) := by
  unfold Fetcher.enqueue
  dsimp only
  split_ifs with hcount hrange hmem
  · exact hf.shrinks (shrinks_forgetHash f _)
  · exact hf.shrinks (shrinks_forgetHash f _)
  · exact hf
  · -- a new block, queued under `peer` with the count one up
    refine ⟨fun p => ?_, fun p => ?_, hf.announces_le⟩
    · rw [get_insert, countP_values_insert_of_not_mem f.queued hmem, Int.natCast_add, ← hf.queues_eq p]
      split_ifs <;> simp_all
    · rw [get_insert]
      split_ifs
      · exact not_lt.mp hcount
      · exact hf.queues_le p

theorem Inv.notify {f : Fetcher Hash Peer Txs Uncles} (hf : Inv f) (height : ℕ) (notification : announce Hash Peer) :
    Inv (f.notify height notification) := by
  unfold Fetcher.notify
  dsimp only
  split_ifs with hcount
  · exact hf
  · exact hf
  · exact hf
  · exact hf
  · refine ⟨hf.queues_eq, hf.queues_le, fun p => ?_⟩
    rw [get_insert]
    split_ifs
    · exact not_lt.mp hcount
    · exact hf.announces_le p

theorem Inv.enqueueCompleted {f : Fetcher Hash Peer Txs Uncles} (hf : Inv f) (height : ℕ)
    (blocks : List (Block Hash Txs Uncles)) : Inv (f.enqueueCompleted height blocks) := by
  refine foldl_invariant _ blocks (fun g block _ hg => ?_) f hf
  split
  · exact hg.enqueue height _ block
  · exact hg

theorem Inv.headerFilter {f : Fetcher Hash Peer Txs Uncles} (hf : Inv f) (chain : Chain Hash Txs Uncles)
    (peer : Peer) (headers : List (Header Hash)) (time : ℕ) : Inv (f.headerFilter chain peer headers time).1 := by
  have hfilter := foldl_invariant (P := fun acc => Shrinks f acc.1) (filterHeader chain peer time) headers
    (fun acc h _ hacc => hacc.trans (shrinks_filterHeader chain peer time acc h)) (f, [], [], []) (Shrinks.refl f)
  unfold Fetcher.headerFilter
  generalize headers.foldl (filterHeader chain peer time) (f, [], [], []) = acc at hfilter ⊢
  obtain ⟨g, unknown, incomplete, complete⟩ := acc
  have hfetched : Shrinks g (incomplete.foldl (fun f (e : Hash × announce Hash Peer) =>
      if e.1 ∈ f.completing then f
      else { f with fetched := f.fetched.insert e.1 ((f.fetched.lookup e.1).getD [] ++ [e.2]) }) g) :=
    Shrinks.foldl _ incomplete (fun s e _ => by split_ifs <;> exact .of_eq rfl rfl rfl) g
  exact (hf.shrinks (hfilter.trans hfetched)).enqueueCompleted _ _

theorem Inv.bodyFilter {f : Fetcher Hash Peer Txs Uncles} (hf : Inv f) (chain : Chain Hash Txs Uncles) (peer : Peer)
    (transactions : List Txs) (uncles : List Uncles) : Inv (f.bodyFilter chain peer transactions uncles).1 :=
  (hf.shrinks (shrinks_bodyLoop chain peer f transactions uncles)).enqueueCompleted _ _

theorem Inv.importQueued (height : ℕ) (getBlock : Hash → Bool) (ops : List (inject Hash Peer Txs Uncles)) :
    ∀ {f : Fetcher Hash Peer Txs Uncles}, Inv f → Inv (importQueued height getBlock f ops).1 := by
  induction ops with
  | nil => exact fun hf => hf
  | cons op ops ih =>
    intro f hf
    unfold Fetcher.importQueued
    dsimp only
    split_ifs
    · exact hf
    · exact ih (hf.forgetBlock _)
    · exact ih hf

theorem Inv.loopTop {f : Fetcher Hash Peer Txs Uncles} (hf : Inv f) (now : ℕ) (chain : Chain Hash Txs Uncles) :
    Inv (f.loopTop now chain) := by
  have h := Inv.importQueued chain.chainHeight chain.getBlock (f.expire now).queue (hf.shrinks (shrinks_expire f now))
  exact ⟨h.queues_eq, h.queues_le, h.announces_le⟩

theorem Inv.handle {f : Fetcher Hash Peer Txs Uncles} (hf : Inv f) (now : ℕ) (chain : Chain Hash Txs Uncles)
    (ev : Event Hash Peer Txs Uncles) : Inv (f.handle now chain ev) := by
  cases ev with
  | notify peer hash number time => exact hf.notify _ _
  | inject origin block => exact hf.enqueue _ _ _
  | done hash => exact (hf.shrinks (shrinks_forgetHash f hash)).forgetBlock hash
  | fetchTimer pick => exact hf.shrinks (shrinks_fetchTimer f now _ pick)
  | completeTimer pick => exact hf.shrinks (shrinks_completeTimer f _ pick)
  | headerFilter peer headers time => exact hf.headerFilter chain peer headers time
  | bodyFilter peer transactions uncles time => exact hf.bodyFilter chain peer transactions uncles

theorem Inv.run {f : Fetcher Hash Peer Txs Uncles} (hf : Inv f)
    (evs : List (ℕ × Chain Hash Txs Uncles × Event Hash Peer Txs Uncles)) : Inv (f.run evs) :=
  foldl_invariant step evs (fun _ ev _ hg => (hg.handle ev.1 ev.2.1 ev.2.2).loopTop ev.1 ev.2.1) f hf

end Stages

/-- The hashes under which some stage holds an announcement of `p`. -/
def held [DecidableEq Hash] (f : Fetcher Hash Peer Txs Uncles) (p : Peer) : List Hash :=
  (f.announced.keys ++ f.fetching.keys ++ f.fetched.keys ++ f.completing.keys).dedup.filter fun h =>
    ((f.announced.lookup h).getD []).any (·.origin = p) || (f.fetching.lookup h).any (·.origin = p) ||
      ((f.fetched.lookup h).getD []).any (·.origin = p) || (f.completing.lookup h).any (·.origin = p)

end Fetcher

section Runs

variable [DecidableEq Hash]

theorem queues_exact (evs : List (ℕ × Chain Hash Txs Uncles × Event Hash Peer Txs Uncles)) (p : Peer) :
    Counter.get (New.run evs).queues p = (values (New.run evs).queued).countP (fun op => op.origin = p) :=
  (Fetcher.Inv_New.run evs).queues_eq p

theorem queues_le_blockLimit (evs : List (ℕ × Chain Hash Txs Uncles × Event Hash Peer Txs Uncles)) (p : Peer) :
    0 ≤ Counter.get (New.run evs).queues p ∧ Counter.get (New.run evs).queues p ≤ blockLimit := by
  have h : Fetcher.Inv (New.run evs : Fetcher Hash Peer Txs Uncles) := Fetcher.Inv_New.run evs
  refine ⟨?_, h.queues_le p⟩
  rw [h.queues_eq p]
  exact Int.natCast_nonneg _

theorem announces_le_hashLimit (evs : List (ℕ × Chain Hash Txs Uncles × Event Hash Peer Txs Uncles)) (p : Peer) :
    Counter.get (New.run evs).announces p ≤ hashLimit :=
  (Fetcher.Inv_New.run evs).announces_le p

end Runs

def emptyChain : Chain ℕ Unit Unit := ⟨fun _ => false, 0, fun _ => 0, fun _ => 0, (), ()⟩

/-- Peer 1 announces block 7, the fetch timer moves it to `fetching`, and its fetch expires
unanswered. -/
def unansweredFetch : List (ℕ × Chain ℕ Unit Unit × Event ℕ ℕ Unit Unit) :=
  [(0, emptyChain, .notify 1 7 1 0), (500, emptyChain, .fetchTimer fun _ => 0), (6000, emptyChain, .notify 2 8 1 6000)]

theorem announce_count_goes_negative :
    Counter.get (New.run unansweredFetch).announces 1 = -1 ∧ (New.run unansweredFetch).held 1 = [] := by
  decide

end EthereumAI.Eai
