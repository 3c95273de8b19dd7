import EthereumAI.Common.Types

/-! # The tree chunker of swarm (`swarm/storage/chunker.go`)

`Split` cuts a document into a tree of chunks: a leaf holds up to `chunkSize` bytes of data, an
inner chunk the keys of its children, and each chunk starts with the 8-byte little-endian size
of the data under it. `Join` reads the document back from its root key: `ReadAt` walks down to
the leaves that cover the bytes asked for and copies them into the buffer.

The hash workers, the wait groups and the channels only order the work: the children of a
chunk are split one after the other and read the data in order, and the parent's key is taken
once they are hashed, so `split` is a recursion that returns the key, the chunks and the rest
of the data. The goroutines of `join` write disjoint parts of the buffer, one after the other
here. Sizes are naturals; the `int64` of Go overflows only past `2^63` bytes. A Go panic, a
missing chunk and a short read are `none`.
-/

namespace EthereumAI.Swarm

/-- `binary.LittleEndian.PutUint64`. -/
def PutUint64 (v : ℕ) : Bytes := (List.range 8).map fun i => (v >>> (8 * i)).toUInt8

/-- `Key`: the hash of a chunk. -/
abbrev Key := Bytes

/-- `Chunk`, with the fields the chunker sets: the key, the data with its size prefix, and the
size of the data under it. -/
structure Chunk where
  Key : Key
  SData : Bytes
  Size : ℕ
  deriving DecidableEq, Repr

/-- `TreeChunker`, with the hasher it is made with: `hashFunc` hashes a chunk's data, size
prefix first, into `hashSize` bytes. -/
structure TreeChunker where
  branches : ℕ
  hashSize : ℕ
  hashFunc : Bytes → Key

namespace TreeChunker

variable (c : TreeChunker)

def chunkSize : ℕ := c.hashSize * c.branches

/-- `hashChunk`: the chunk a job makes. -/
def hashChunk (chunk : Bytes) (size : ℕ) : Chunk := ⟨c.hashFunc chunk, chunk, size⟩

/-- The loop of `Split` and `ReadAt` that finds the depth of a tree of `size` bytes, and the
size of a tree of that depth, from `treeSize`. It ends in `size` rounds when `branches ≥ 2`
and `treeSize ≥ 1`; `none` past them, where Go would loop for good. -/
def treeDepth : ℕ → ℕ → ℕ → Option (ℕ × ℕ)
  | 0, _, _ => none
  | fuel + 1, treeSize, size =>
    if treeSize < size then (treeDepth fuel (treeSize * c.branches) size).map fun (d, t) => (d + 1, t)
    else some (0, treeSize)

/-- `split`: the key of the subtree of `size` bytes at `depth`, its chunks, and the data left to
read. A level too deep for the size is skipped first. -/
def split : ℕ → ℕ → ℕ → Bytes → Option (Key × List Chunk × Bytes)
  | 0, _, size, data =>
    -- a leaf: the read loop fails on an end of data before `size` bytes
    if data.length < size then none
    else
      let chunk := c.hashChunk (PutUint64 size ++ data.take size) size
      some (chunk.Key, [chunk], data.drop size)
  | depth + 1, treeSize, size, data =>
    if size < treeSize then split depth (treeSize / c.branches) size data
    else
      let branchCnt := (size + treeSize - 1) / treeSize
      -- the children in order, the last one shorter
      let children := (List.range branchCnt).foldlM (fun (acc : List Key × List Chunk × Bytes) i =>
        let pos := i * treeSize
        let secSize := if size - pos < treeSize then size - pos else treeSize
        (split depth (treeSize / c.branches) secSize acc.2.2).map fun (key, chunks, data) =>
          (acc.1 ++ [key], acc.2.1 ++ chunks, data)) ([], [], data)
      children.map fun (keys, chunks, data) =>
        let chunk := c.hashChunk (PutUint64 size ++ keys.flatten) size
        (chunk.Key, chunks ++ [chunk], data)

/-- `Split`, with `chunkSize > 0`: the root key and every chunk it emits. -/
def Split (data : Bytes) (size : ℕ) : Option (Key × List Chunk) :=
  (c.treeDepth (size + 1) c.chunkSize size).bind fun (depth, treeSize) =>
    (c.split depth (treeSize / c.branches) size data).map fun (key, chunks, _) => (key, chunks)

end TreeChunker

/-- The chunks `retrieve` finds, by key; `none` where it gives `nil`. -/
abbrev ChunkStore := Key → Option Chunk

/-- The store of a list of chunks. -/
def ChunkStore.ofList (chunks : List Chunk) : ChunkStore := fun key => chunks.find? (·.Key = key)

/-- `LazyChunkReader`, made by `Join`. -/
structure LazyChunkReader where
  key : Key
  chunker : TreeChunker
  off : ℕ

/-- `io.EOF`, or no error. -/
inductive ReadEnd
  | none
  | EOF
  deriving DecidableEq, Repr

namespace LazyChunkReader

variable (r : LazyChunkReader) (store : ChunkStore)

/-- `copy(dst, src)`: the bytes of `src` that fit, over the front of `dst`. -/
def copy (dst src : Bytes) : Bytes := src.take dst.length ++ dst.drop src.length

/-- `b[lo:hi]` replaced by what `f` makes of it. -/
def modifySlice (b : Bytes) (lo hi : ℕ) (f : Bytes → Option Bytes) : Option Bytes :=
  (f ((b.take hi).drop lo)).map fun s => b.take lo ++ s ++ b.drop hi

/-- `join`: the bytes `off` to `eoff` of the subtree of `chunk` copied into `b`. A slice out of
range panics, and a missing child is an error. -/
def join : ℕ → ℕ → Bytes → ℕ → ℕ → Chunk → Option Bytes
  | 0, _, b, off, eoff, chunk =>
    -- a leaf: the end cut to the data, then `copy(b, chunk.SData[8+off:8+eoff])`
    let eoff := if 8 + eoff > chunk.SData.length then chunk.SData.length - 8 else eoff
    if off > eoff ∨ 8 + eoff > chunk.SData.length then none
    else some (copy b ((chunk.SData.take (8 + eoff)).drop (8 + off)))
  | depth + 1, treeSize, b, off, eoff, chunk =>
    if chunk.Size < treeSize then join depth (treeSize / r.chunker.branches) b off eoff chunk
    else
      let start := off / treeSize
      let stop := (eoff + treeSize - 1) / treeSize
      ((List.range (stop - start)).map (· + start)).foldlM (fun b i =>
        let soff := i * treeSize
        let roff := soff
        let seoff := soff + treeSize
        let soff := if soff < off then off else soff
        let seoff := if seoff > eoff then eoff else seoff
        let h := r.chunker.hashSize
        if 8 + (i + 1) * h > chunk.SData.length then none else
        (store ((chunk.SData.take (8 + (i + 1) * h)).drop (8 + i * h))).bind fun child =>
          modifySlice b (soff - off) (seoff - off) fun b' =>
            join depth (treeSize / r.chunker.branches) b' (soff - roff) (seoff - roff) child) b

/-- `ReadAt`: the buffer after the read, the count it returns, and whether it reports `io.EOF`;
`none` for an error or a panic. -/
def ReadAt (b : Bytes) (off : ℕ) : Option (Bytes × ℕ × ReadEnd) :=
  if b.length = 0 then some (b, 0, .none) else
  (store r.key).bind fun root =>
    let size := root.Size
    (r.chunker.treeDepth (size + 1) r.chunker.chunkSize size).bind fun (depth, treeSize) =>
      (r.join store depth (treeSize / r.chunker.branches) b off (off + b.length) root).map fun b' =>
        (b', b.length, if off + b.length ≥ size then .EOF else .none)

theorem ReadAt_count {b b' : Bytes} {off n : ℕ} {e : ReadEnd} (h : r.ReadAt store b off = some (b', n, e)) :
    n = b.length := by
  unfold ReadAt at h
  split at h
  next hb =>
    cases h
    exact hb.symm
  next =>
    obtain ⟨root, -, h⟩ := Option.bind_eq_some_iff.mp h
    obtain ⟨⟨depth, treeSize⟩, -, h⟩ := Option.bind_eq_some_iff.mp h
    obtain ⟨b'', -, h⟩ := Option.map_eq_some_iff.mp h
    cases h
    rfl

end LazyChunkReader

/-- `Join`. -/
def TreeChunker.Join (c : TreeChunker) (key : Key) : LazyChunkReader := ⟨key, c, 0⟩

/-- The document `[1, 2, 3]` fits in one chunk, for any hash of 32 bytes and two branches.
Read back at offset 0 into a buffer of 4 bytes, it fills the first three and `ReadAt`
returns 4 with `io.EOF`, where only 3 bytes are left to read. -/
theorem ReadAt_past_end (hashFunc : Bytes → Key) :
    let c : TreeChunker := ⟨2, 32, hashFunc⟩
    ∃ key chunks, c.Split [1, 2, 3] 3 = some (key, chunks) ∧
      (c.Join key).ReadAt (ChunkStore.ofList chunks) [0, 0, 0, 0] 0 = some ([1, 2, 3, 0], 4, .EOF) := by
  intro c
  refine ⟨_, _, rfl, ?_⟩
  simp only [c, LazyChunkReader.ReadAt, TreeChunker.Join, ChunkStore.ofList, TreeChunker.treeDepth,
    TreeChunker.chunkSize, TreeChunker.hashChunk, List.find?, decide_true, List.length_cons, List.length_nil]
  rfl

end EthereumAI.Swarm
