import EthereumAI.Swarm.Chunker

/-! # The pyramid chunker of swarm (`swarm/storage/pyramid.go`)

`PyramidChunker.Split` builds the tree of chunks from the bottom: it reads the data a chunk at a
time, puts the key of each data chunk in a parent entry, and, when an entry holds `branches`
keys or the data ends, enqueues it as a tree chunk at its level and compresses the levels that
are full into the level above. The data ends at the first read shorter than a chunk; the size
argument is not read.

The model runs the hashing jobs when they are enqueued, which is where the wait groups put
them before any key is read, and takes the reader to be a byte string served at most `limit`
bytes a read, with `io.EOF` on a read at its end. Appending to an existing tree is not modelled.
-/

namespace EthereumAI.Swarm

/-- An `io.Reader` over `data` that gives at most `limit` bytes a read, as
`iotest.OneByteReader` gives one, and `io.EOF` once nothing is left. -/
structure LimitedReader where
  data : Bytes
  limit : ℕ

/-- `Read` into a buffer of `len` bytes: the bytes read, `io.EOF`, and the reader after. -/
def LimitedReader.Read (r : LimitedReader) (len : ℕ) : Bytes × Bool × LimitedReader :=
  if r.data = [] then ([], true, r)
  else
    let n := min len (min r.limit r.data.length)
    (r.data.take n, false, { r with data := r.data.drop n })

/-- `TreeEntry`, without the fields only `Append` reads. -/
structure TreeEntry where
  level : ℕ
  branchCount : ℕ
  subtreeSize : ℕ
  chunk : Bytes
  key : Key
  deriving DecidableEq, Repr

/-- `PyramidChunker`, with its hasher as for `TreeChunker`. -/
structure PyramidChunker where
  branches : ℕ
  hashSize : ℕ
  hashFunc : Bytes → Key

/-- The state of `prepareChunks`: the entries of each level, the open parent entry, the root
key, the chunks sent to storage so far, and the reader. -/
structure PyramidState where
  chunkLevel : ℕ → List TreeEntry
  parent : TreeEntry
  rootKey : Key
  chunks : List Chunk
  reader : LimitedReader

namespace PyramidChunker

variable (c : PyramidChunker)

def chunkSize : ℕ := c.hashSize * c.branches

/-- `NewTreeEntry`. -/
def NewTreeEntry : TreeEntry := ⟨0, 0, 0, List.replicate (c.chunkSize + 8) 0, List.replicate c.hashSize 0⟩

/-- `copy(b[lo:], src)` for a `src` that fits. -/
def writeAt (b : Bytes) (lo : ℕ) (src : Bytes) : Bytes := b.take lo ++ src ++ b.drop (lo + src.length)

/-- `enqueueDataChunk` of the `n` bytes read: the key, hashed into the parent's slot, and the
data chunk stored. -/
def enqueueDataChunk (data : Bytes) (s : PyramidState) : Key × PyramidState :=
  let chunk := PutUint64 data.length ++ data
  let key := c.hashFunc chunk
  let parent := s.parent
  (key, { s with parent := { parent with chunk := writeAt parent.chunk (8 + parent.branchCount * c.hashSize) key },
                 chunks := s.chunks ++ [⟨key, chunk, data.length⟩] })

/-- `enqueueTreeChunk`: the entry, its size written in front and its keys hashed, joins its level. -/
def enqueueTreeChunk (ent : TreeEntry) (s : PyramidState) : PyramidState :=
  let chunk := writeAt ent.chunk 0 (PutUint64 ent.subtreeSize)
  let data := chunk.take (ent.branchCount * c.hashSize + 8)
  let key := c.hashFunc data
  let ent := { ent with chunk, key }
  { s with chunkLevel := Function.update s.chunkLevel ent.level (s.chunkLevel ent.level ++ [ent]),
           chunks := s.chunks ++ [⟨key, data, ent.subtreeSize⟩] }

/-- The entry of level `lvl + 1` over the entries of `lvl` from `startCount` to `endCount`. -/
def newEntry (lvl : ℕ) (entries : List TreeEntry) : TreeEntry :=
  { level := lvl + 1, branchCount := entries.length, subtreeSize := (entries.map (·.subtreeSize)).sum,
    chunk := List.replicate 8 0 ++ (entries.map fun e => e.key.take c.hashSize).flatten,
    key := List.replicate c.hashSize 0 }

/-- The groups of `branches` entries of a level, the last one shorter. -/
def groups (entries : List TreeEntry) : List (List TreeEntry) :=
  ((List.range entries.length).filter (· % c.branches = 0)).map fun startCount =>
    (entries.drop startCount).take c.branches

/-- One level of the compression loop of `buildTree`: the root when the data has ended and the
level holds one entry, and otherwise its entries grouped into the level above. -/
def compressLevel (last compress : Bool) (lvl : ℕ) (s : PyramidState) : PyramidState ⊕ PyramidState :=
  let entries := s.chunkLevel lvl
  if entries.length = 1 ∧ last then .inl { s with rootKey := (entries.headD (c.NewTreeEntry)).key }
  else
    let s := (c.groups entries).foldl (fun s group => c.enqueueTreeChunk (c.newEntry lvl group) s) s
    .inr (if compress then { s with chunkLevel := Function.update s.chunkLevel lvl [] } else s)

/-- The loop over the levels from `lvl` below `endLvl`; it stops at the root. -/
def compressLevels (last compress : Bool) : List ℕ → PyramidState → PyramidState
  | [], s => s
  | lvl :: lvls, s =>
    match c.compressLevel last compress lvl s with
    | .inl s => s
    | .inr s => compressLevels last compress lvls s

/-- `buildTree`. The first full level ends the compression loop past it. -/
def buildTree (ent : TreeEntry) (last : Bool) (s : PyramidState) : PyramidState :=
  let s := c.enqueueTreeChunk ent s
  let full := (List.range c.branches).find? fun lvl => c.branches ≤ (s.chunkLevel lvl).length
  let compress := full.isSome
  let endLvl := match full with
    | some lvl => lvl + 1
    | none => c.branches
  if !compress && !last then s
  else c.compressLevels last compress ((List.range endLvl).drop ent.level) s

/-- The loop of `prepareChunks`, a read a round; `none` when the bound runs out. -/
def prepareLoop : ℕ → PyramidState → Option PyramidState
  | 0, _ => none
  | fuel + 1, s =>
    let (data, eof, reader) := s.reader.Read c.chunkSize
    let s := { s with reader }
    -- exactly one full chunk before the end: its key is the root
    if eof ∧ s.parent.branchCount = 1 then some { s with rootKey := (s.parent.chunk.drop 8).take c.hashSize }
    -- the data ended on a chunk boundary
    else if data.length = 0 then some (c.buildTree s.parent true s)
    else
      let (pkey, s) := c.enqueueDataChunk data s
      let parent := s.parent
      let s := { s with parent := { parent with subtreeSize := parent.subtreeSize + data.length,
                                                branchCount := parent.branchCount + 1 } }
      -- a short read is taken for the end of the data
      if data.length < c.chunkSize then
        if s.parent.branchCount ≤ 1 then some { s with rootKey := pkey }
        else some (c.buildTree s.parent true s)
      else if s.parent.branchCount = c.branches then
        prepareLoop fuel { c.buildTree s.parent false s with parent := c.NewTreeEntry }
      else prepareLoop fuel s

/-- `Split`: the root key and the chunks stored. A read a round takes at least a byte, so the
length of the data and one more round bound the loop. -/
def Split (reader : LimitedReader) (_size : ℕ) : Option (Key × List Chunk) :=
  (c.prepareLoop (reader.data.length + 2)
      ⟨fun _ => [], c.NewTreeEntry, List.replicate c.hashSize 0, [], reader⟩).map fun s => (s.rootKey, s.chunks)

theorem Split_short_read (r : LimitedReader) (size : ℕ) (hpos : 0 < r.limit) (hshort : r.limit < c.chunkSize)
    (hmore : r.limit < r.data.length) :
    (c.Split r size).map Prod.fst = some (c.hashFunc (PutUint64 r.limit ++ r.data.take r.limit)) := by
  have hne : r.data ≠ [] := List.ne_nil_of_length_pos (by omega)
  have hn : min c.chunkSize (min r.limit r.data.length) = r.limit := by omega
  have hread : r.Read c.chunkSize = (r.data.take r.limit, false, { r with data := r.data.drop r.limit }) := by
    rw [LimitedReader.Read, if_neg hne, hn]
  have hlen : (r.data.take r.limit).length = r.limit := List.length_take_of_le (by omega)
  obtain ⟨fuel, hfuel⟩ : ∃ fuel, r.data.length + 2 = fuel + 1 := ⟨r.data.length + 1, rfl⟩
  unfold Split
  rw [hfuel, prepareLoop, hread]
  simp only [Bool.false_eq_true, false_and, if_false, hlen, NewTreeEntry, enqueueDataChunk]
  rw [if_neg (by omega), if_pos hshort, if_pos (by omega)]
  rfl

end PyramidChunker

set_option maxRecDepth 20000 in
/-- Two full chunks of data, two branches and any hash of 32 bytes. The pyramid chunker enqueues
the entry of the two keys when it is full, then, at the end of the data, an empty entry beside
it; level 0 is then full, is compressed into one entry of level 1, and the loop stops past it:
the root key is never set and stays zero. The tree chunker's root is the hash of the two keys
under the size. -/
theorem Split_root_zero (hashFunc : Bytes → Key) :
    let d : Bytes := List.replicate 128 1
    ((⟨2, 32, hashFunc⟩ : PyramidChunker).Split ⟨d, 128⟩ 128).map Prod.fst = some (List.replicate 32 0) ∧
      ((⟨2, 32, hashFunc⟩ : TreeChunker).Split d 128).map Prod.fst =
        some (hashFunc (PutUint64 128 ++
          [hashFunc (PutUint64 64 ++ d.take 64), hashFunc (PutUint64 64 ++ d.drop 64)].flatten)) := by
  intro d
  have hdepth : (⟨2, 32, hashFunc⟩ : TreeChunker).treeDepth (128 + 1) (⟨2, 32, hashFunc⟩ : TreeChunker).chunkSize 128 =
      some (1, 128) := rfl
  refine ⟨rfl, ?_⟩
  rw [TreeChunker.Split, hdepth, Option.bind_some]
  dsimp only
  rw [Option.map_map]
  exact (rfl : ((⟨2, 32, hashFunc⟩ : TreeChunker).split 1 (128 / 2) 128 d).map (·.1) = _)

end EthereumAI.Swarm
