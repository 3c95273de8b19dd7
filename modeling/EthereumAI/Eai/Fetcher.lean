import Mathlib
import EthereumAI.Lib.Counter

/-! # The block fetcher (`eai/fetcher/fetcher.go`)

The fetcher's loop keeps each announced block in one of four stages, `announced`, `fetching`,
`fetched` and `completing`, and counts per peer the announcements it holds (`announces`) and the
blocks queued for import (`queues`), to bound what one peer can make it store. Each iteration of
`loop` expires old fetches and imports the queued blocks that fit, then handles one event: an
announcement, a propagated block, a finished import, either timer, or a batch of headers or
bodies to filter. `step` is one iteration, `run` a sequence of them.

The queue counters are exact (`queues_exact`), and a peer's announce count never exceeds
`hashLimit` (`announces_le_hashLimit`). The announce counters are not exact: when the fetch timer
moves an announcement to `fetching`, `forgetHash` takes it off the count, and whatever later
forgets it from `fetching` takes it off again. A single announcement that is never answered leaves
its peer at `-1` (`announce_count_goes_negative`), and the count then no longer bounds what the peer
holds.

Time is in milliseconds, and each event carries when it is handled and the chain as the loop then
reads it. Go ranges over a map in the order of the `AList`'s entries. The random pick of an
announcement is an input, and so is the firing of the timers. The requests sent to peers, the
goroutines that import blocks (whose end is the event `done`) and `dropPeer` are outside the state.
-/

namespace EthereumAI.Eai

open Lib Lib.Counter

def arriveTimeout : ℕ := 500

def gatherSlack : ℕ := 100

def fetchTimeout : ℕ := 5000

def maxUncleDist : ℕ := 7

def maxQueueDist : ℕ := 32

def hashLimit : ℤ := 256

def blockLimit : ℤ := 64

variable (Hash Peer Txs Uncles : Type)

structure Header where
  /-- `header.Hash()` -/
  hash : Hash
  number : ℕ
  TxHash : Hash
  UncleHash : Hash

structure Block where
  header : Header Hash
  transactions : Txs
  uncles : Uncles

structure announce where
  hash : Hash
  number : ℕ
  header : Option (Header Hash)
  time : ℕ
  origin : Peer

structure inject where
  origin : Peer
  block : Block Hash Txs Uncles

/-- What the loop reads of the chain while it handles an event. -/
structure Chain where
  getBlock : Hash → Bool
  chainHeight : ℕ
  DeriveSha : Txs → Hash
  CalcUncleHash : Uncles → Hash
  /-- the body of a block made of its header alone, `types.NewBlockWithHeader` -/
  noTxs : Txs
  noUncles : Uncles

variable [DecidableEq Hash] [DecidableEq Peer]

structure Fetcher where
  announces : AList (fun _ : Peer => ℤ)
  announced : AList (fun _ : Hash => List (announce Hash Peer))
  fetching : AList (fun _ : Hash => announce Hash Peer)
  fetched : AList (fun _ : Hash => List (announce Hash Peer))
  completing : AList (fun _ : Hash => announce Hash Peer)
  queue : List (inject Hash Peer Txs Uncles)
  queues : AList (fun _ : Peer => ℤ)
  queued : AList (fun _ : Hash => inject Hash Peer Txs Uncles)

inductive Event
  | notify (peer : Peer) (hash : Hash) (number time : ℕ)
  | inject (origin : Peer) (block : Block Hash Txs Uncles)
  | done (hash : Hash)
  /-- `fetchTimer.C`, with the index `rand.Intn` picks for each hash -/
  | fetchTimer (pick : Hash → ℕ)
  | completeTimer (pick : Hash → ℕ)
  | headerFilter (peer : Peer) (headers : List (Header Hash)) (time : ℕ)
  | bodyFilter (peer : Peer) (transactions : List Txs) (uncles : List Uncles) (time : ℕ)

variable {Hash Peer Txs Uncles}

def New : Fetcher Hash Peer Txs Uncles := ⟨∅, ∅, ∅, ∅, ∅, [], ∅, ∅⟩

/-- `announces[rand.Intn(len(announces))]`. -/
def pickAnnounce (pick : ℕ) (a : announce Hash Peer) (announces : List (announce Hash Peer)) :
    announce Hash Peer :=
  (a :: announces).getD (pick % (announces.length + 1)) a

/-- `dist < -maxUncleDist || dist > maxQueueDist` of `dist := int64(number) - int64(height)`. -/
def outOfRange (number height : ℕ) : Bool :=
  decide ((number : ℤ) - height < -(maxUncleDist : ℤ) ∨ (number : ℤ) - height > maxQueueDist)

namespace Fetcher

/-- `forgetHash`: the hash leaves every stage, each announcement it held off its peer's count. -/
def forgetHash (f : Fetcher Hash Peer Txs Uncles) (hash : Hash) : Fetcher Hash Peer Txs Uncles :=
  let f := { f with
    announces := ((f.announced.lookup hash).getD []).foldl (fun m (a : announce Hash Peer) => decr m a.origin) f.announces,
    announced := f.announced.erase hash }
  let f := match f.fetching.lookup hash with
    | some a => { f with announces := decr f.announces a.origin, fetching := f.fetching.erase hash }
    | none => f
  let f := { f with
    announces := ((f.fetched.lookup hash).getD []).foldl (fun m (a : announce Hash Peer) => decr m a.origin) f.announces,
    fetched := f.fetched.erase hash }
  match f.completing.lookup hash with
  | some a => { f with announces := decr f.announces a.origin, completing := f.completing.erase hash }
  | none => f

def forgetBlock (f : Fetcher Hash Peer Txs Uncles) (hash : Hash) : Fetcher Hash Peer Txs Uncles :=
  match f.queued.lookup hash with
  | some insert => { f with queues := decr f.queues insert.origin, queued := f.queued.erase hash }
  | none => f

/-- `f.queue.Push(op, -float32(number))`: the queue pops the lowest number first. -/
def push (op : inject Hash Peer Txs Uncles) (queue : List (inject Hash Peer Txs Uncles)) :
    List (inject Hash Peer Txs Uncles) :=
  queue.orderedInsert (fun a b => a.block.header.number ≤ b.block.header.number) op

def enqueue (f : Fetcher Hash Peer Txs Uncles) (height : ℕ) (peer : Peer) (block : Block Hash Txs Uncles) :
    Fetcher Hash Peer Txs Uncles :=
  let hash := block.header.hash
  let count := get f.queues peer + 1
  if count > blockLimit then f.forgetHash hash
  else if outOfRange block.header.number height then f.forgetHash hash
  else if hash ∈ f.queued then f
  else { f with
    queues := f.queues.insert peer count,
    queued := f.queued.insert hash ⟨peer, block⟩,
    queue := push ⟨peer, block⟩ f.queue }

/-- The `notify` case of `loop`. -/
def notify (f : Fetcher Hash Peer Txs Uncles) (height : ℕ) (notification : announce Hash Peer) :
    Fetcher Hash Peer Txs Uncles :=
  let count := get f.announces notification.origin + 1
  if count > hashLimit then f
  else if notification.number > 0 ∧ outOfRange notification.number height then f
  else if notification.hash ∈ f.fetching then f
  else if notification.hash ∈ f.completing then f
  else { f with
    announces := f.announces.insert notification.origin count,
    announced := f.announced.insert notification.hash
      ((f.announced.lookup notification.hash).getD [] ++ [notification]) }

/-- The `fetchTimer` case of `loop`: each announcement older than `arriveTimeout - gatherSlack`
moves, with one announcer picked, to `fetching`. -/
def fetchTimer (f : Fetcher Hash Peer Txs Uncles) (now : ℕ) (getBlock : Hash → Bool) (pick : Hash → ℕ) :
    Fetcher Hash Peer Txs Uncles :=
  f.announced.entries.foldl (fun f e =>
    match e.2 with
    | [] => f
    | a :: rest =>
      if a.time + (arriveTimeout - gatherSlack) < now then
        let announce := pickAnnounce (pick e.1) a rest
        let f := f.forgetHash e.1
        if !getBlock e.1 then { f with fetching := f.fetching.insert e.1 announce } else f
      else f) f

/-- The `completeTimer` case of `loop`: every fetched header moves, with one announcer picked, to
`completing`. -/
def completeTimer (f : Fetcher Hash Peer Txs Uncles) (getBlock : Hash → Bool) (pick : Hash → ℕ) :
    Fetcher Hash Peer Txs Uncles :=
  f.fetched.entries.foldl (fun f e =>
    match e.2 with
    | [] => f
    | a :: rest =>
      let announce := pickAnnounce (pick e.1) a rest
      let f := f.forgetHash e.1
      if !getBlock e.1 then { f with completing := f.completing.insert e.1 announce } else f) f

/-- One header of a filtered batch: the fetcher keeps the headers it asked `peer` for, and returns
the others. A kept header goes with its announcement to the incomplete ones, or, for an empty
block, straight to `completing` and the blocks complete. -/
def filterHeader (chain : Chain Hash Txs Uncles) (peer : Peer) (time : ℕ)
    (acc : Fetcher Hash Peer Txs Uncles × List (Header Hash) × List (Hash × announce Hash Peer) ×
      List (Block Hash Txs Uncles))
    (header : Header Hash) :
    Fetcher Hash Peer Txs Uncles × List (Header Hash) × List (Hash × announce Hash Peer) ×
      List (Block Hash Txs Uncles) :=
  let (f, unknown, incomplete, complete) := acc
  let hash := header.hash
  match f.fetching.lookup hash with
  | some a =>
    if a.origin = peer ∧ hash ∉ f.fetched ∧ hash ∉ f.completing ∧ hash ∉ f.queued then
      -- a number other than the announced one drops the announcer
      if header.number ≠ a.number then (f.forgetHash hash, unknown, incomplete, complete)
      else if !chain.getBlock hash then
        -- the announcement, shared with `fetching`, takes the header and the time
        let a := { a with header := some header, time := time }
        let f := { f with fetching := f.fetching.insert hash a }
        if header.TxHash = chain.DeriveSha chain.noTxs ∧ header.UncleHash = chain.CalcUncleHash chain.noUncles then
          ({ f with completing := f.completing.insert hash a }, unknown, incomplete,
            complete ++ [⟨header, chain.noTxs, chain.noUncles⟩])
        else (f, unknown, incomplete ++ [(hash, a)], complete)
      else (f.forgetHash hash, unknown, incomplete, complete)
    else (f, unknown ++ [header], incomplete, complete)
  | none => (f, unknown ++ [header], incomplete, complete)

/-- `for _, block := range blocks`: each block still completing is queued for import, under its
announcer. -/
def enqueueCompleted (f : Fetcher Hash Peer Txs Uncles) (height : ℕ) (blocks : List (Block Hash Txs Uncles)) :
    Fetcher Hash Peer Txs Uncles :=
  blocks.foldl (fun f block =>
    match f.completing.lookup block.header.hash with
    | some a => f.enqueue height a.origin block
    | none => f) f

/-- The `headerFilter` case of `loop`: the state, and the headers returned to `FilterHeaders`. -/
def headerFilter (f : Fetcher Hash Peer Txs Uncles) (chain : Chain Hash Txs Uncles) (peer : Peer)
    (headers : List (Header Hash)) (time : ℕ) : Fetcher Hash Peer Txs Uncles × List (Header Hash) :=
  let (f, unknown, incomplete, complete) := headers.foldl (filterHeader chain peer time) (f, [], [], [])
  -- `announce.header.Hash()` is the hash the header was kept under
  let f := incomplete.foldl (fun f (e : Hash × announce Hash Peer) =>
    if e.1 ∈ f.completing then f
    else { f with fetched := f.fetched.insert e.1 ((f.fetched.lookup e.1).getD [] ++ [e.2]) }) f
  (f.enqueueCompleted chain.chainHeight complete, unknown)

/-- One body against one block completing: a match marks the body taken and completes the block,
or forgets a block imported meanwhile. -/
def matchBody (chain : Chain Hash Txs Uncles) (peer : Peer) (txs : Txs) (uncles : Uncles)
    (acc : Fetcher Hash Peer Txs Uncles × Bool × List (Block Hash Txs Uncles))
    (e : (_ : Hash) × announce Hash Peer) : Fetcher Hash Peer Txs Uncles × Bool × List (Block Hash Txs Uncles) :=
  let (f, matched, blocks) := acc
  match e.2.header with
  | some header =>
    if e.1 ∉ f.queued ∧ chain.DeriveSha txs = header.TxHash ∧ chain.CalcUncleHash uncles = header.UncleHash ∧
        e.2.origin = peer then
      if !chain.getBlock e.1 then (f, true, blocks ++ [⟨header, txs, uncles⟩])
      else (f.forgetHash e.1, true, blocks)
    else (f, matched, blocks)
  -- every announcement completing has its header
  | none => (f, matched, blocks)

/-- The loop over the bodies of `bodyFilter`: a matched body leaves the lists it came in. -/
def bodyLoop (f : Fetcher Hash Peer Txs Uncles) (chain : Chain Hash Txs Uncles) (peer : Peer) :
    List Txs → List Uncles → Fetcher Hash Peer Txs Uncles × List Txs × List Uncles × List (Block Hash Txs Uncles)
  | t :: ts, u :: us =>
    let (f, matched, blocks) := f.completing.entries.foldl (matchBody chain peer t u) (f, false, [])
    let (f, ts, us, rest) := bodyLoop f chain peer ts us
    if matched then (f, ts, us, blocks ++ rest) else (f, t :: ts, u :: us, blocks ++ rest)
  | ts, us => (f, ts, us, [])

/-- The `bodyFilter` case of `loop`: the state, and the bodies returned to `FilterBodies`. -/
def bodyFilter (f : Fetcher Hash Peer Txs Uncles) (chain : Chain Hash Txs Uncles) (peer : Peer)
    (transactions : List Txs) (uncles : List Uncles) : Fetcher Hash Peer Txs Uncles × List Txs × List Uncles :=
  let (f, transactions, uncles, blocks) := f.bodyLoop chain peer transactions uncles
  (f.enqueueCompleted chain.chainHeight blocks, transactions, uncles)

/-- The start of each iteration: fetches older than `fetchTimeout` are forgotten. -/
def expire (f : Fetcher Hash Peer Txs Uncles) (now : ℕ) : Fetcher Hash Peer Txs Uncles :=
  f.fetching.entries.foldl (fun f e => if e.2.time + fetchTimeout < now then f.forgetHash e.1 else f) f

/-- Then the queued blocks up to one past the head are popped: a block too old or already known is
forgotten, the others go to `insert`, whose goroutine ends in the event `done`. -/
def importQueued (height : ℕ) (getBlock : Hash → Bool) :
    Fetcher Hash Peer Txs Uncles → List (inject Hash Peer Txs Uncles) →
      Fetcher Hash Peer Txs Uncles × List (inject Hash Peer Txs Uncles)
  | f, [] => (f, [])
  | f, op :: ops =>
    if op.block.header.number > height + 1 then (f, op :: ops)
    else
      let f := if op.block.header.number + maxUncleDist < height ∨ getBlock op.block.header.hash = true then
        f.forgetBlock op.block.header.hash else f
      importQueued height getBlock f ops

def loopTop (f : Fetcher Hash Peer Txs Uncles) (now : ℕ) (chain : Chain Hash Txs Uncles) :
    Fetcher Hash Peer Txs Uncles :=
  let f := f.expire now
  let (f, queue) := importQueued chain.chainHeight chain.getBlock f f.queue
  { f with queue := queue }

/-- The event a `select` of `loop` receives. -/
def handle (f : Fetcher Hash Peer Txs Uncles) (now : ℕ) (chain : Chain Hash Txs Uncles) :
    Event Hash Peer Txs Uncles → Fetcher Hash Peer Txs Uncles
  | .notify peer hash number time => f.notify chain.chainHeight ⟨hash, number, none, time, peer⟩
  | .inject origin block => f.enqueue chain.chainHeight origin block
  | .done hash => (f.forgetHash hash).forgetBlock hash
  | .fetchTimer pick => f.fetchTimer now chain.getBlock pick
  | .completeTimer pick => f.completeTimer chain.getBlock pick
  | .headerFilter peer headers time => (f.headerFilter chain peer headers time).1
  | .bodyFilter peer transactions uncles _ => (f.bodyFilter chain peer transactions uncles).1

/-- One iteration of `loop` after the first: the event, at the time `now` and with the chain as it
then is, and the start of the next iteration. -/
def step (f : Fetcher Hash Peer Txs Uncles) (ev : ℕ × Chain Hash Txs Uncles × Event Hash Peer Txs Uncles) :
    Fetcher Hash Peer Txs Uncles :=
  (f.handle ev.1 ev.2.1 ev.2.2).loopTop ev.1 ev.2.1

def run (f : Fetcher Hash Peer Txs Uncles) (evs : List (ℕ × Chain Hash Txs Uncles × Event Hash Peer Txs Uncles)) :
    Fetcher Hash Peer Txs Uncles :=
  evs.foldl step f

end Fetcher

end EthereumAI.Eai
