import EthereumAI.Common.Types

/-! # The binary Merkle tree hasher (`bmt/bmt.go`, `bmt/bmt_r.go`)

A `Hasher` hashes up to `count` segments of `size` bytes: `Write` cuts its input into double
segments and sends each full one up a reusable tree, whose nodes hash their two halves once both
have arrived; `Sum` marks the path of the last segment as unbalanced and sends it up, and the
root's hash comes back on the result channel. `RefHasher` is the reference: the same tree,
hashed by plain recursion.

The goroutines run here as soon as they are started, which is one order the scheduler may pick;
a node's toggle then lets the second half through. The segment `Write` keeps between calls is a
slice of its argument, so the caller's buffers are part of the state: a `Segment` is either an
array of its own or a slice of a caller's buffer, read at the time it is hashed. A Go panic, or
a receive on the result channel that nothing will answer, is `none`.
-/

namespace EthereumAI.Bmt

/-- `hash.Hash` of the base hasher, by the bytes written to it since its `Reset`. -/
abbrev BaseHasher := Bytes → Bytes

/-- The mutable fields of a `Node`; its level, index and parent follow from its place. -/
structure Node where
  root : Bool
  unbalanced : Bool
  state : ℕ
  left : Bytes
  right : Bytes
  deriving DecidableEq, Repr

/-- `Tree`: the nodes of the levels `0` (the root) to `depth` (the leaves), by level and index;
the node `index` of a level has the node `index / 2` of the level above as its parent. -/
structure Tree where
  depth : ℕ
  nodes : ℕ → ℕ → Node

namespace Tree

/-- `NewTree`: only the top node is a root. -/
def New (depth : ℕ) : Tree := ⟨depth, fun level index => ⟨level = 0 ∧ index = 0, false, 0, [], []⟩⟩

def get (t : Tree) (level index : ℕ) : Node := t.nodes level index

def set (t : Tree) (level index : ℕ) (n : Node) : Tree :=
  { t with nodes := Function.update t.nodes level (Function.update (t.nodes level) index n) }

end Tree

/-- The loop of `depth`: how often `l` halves before it is 0, within `fuel` rounds. -/
def depthLoop : ℕ → ℕ → ℕ
  | 0, _ => 0
  | fuel + 1, l => if 0 < l then depthLoop fuel (l / 2) + 1 else 0

/-- `depth`: the levels below the root, `l` rounds being more than enough. -/
def depth (n : ℕ) : ℕ := depthLoop ((n - 1) / 2) ((n - 1) / 2)

/-- A byte slice as `Write` keeps it: an array of its own, or `buf[lo:hi]` of a caller's buffer. -/
inductive Segment
  | owned (bs : Bytes)
  | slice (buf lo hi : ℕ)
  deriving DecidableEq, Repr

/-- The caller's buffers, by name. -/
abbrev Memory := ℕ → Bytes

namespace Segment

def read (mem : Memory) : Segment → Bytes
  | owned bs => bs
  | slice buf lo hi => ((mem buf).take hi).drop lo

/-- `append(s, src...)`: a slice with room left in its buffer (a buffer's capacity is its
length) is extended in place, over the caller's bytes; otherwise the bytes are copied. -/
def append (mem : Memory) (s : Segment) (src : Bytes) : Segment × Memory :=
  match s with
  | owned bs => (owned (bs ++ src), mem)
  | slice buf lo hi =>
    if hi + src.length ≤ (mem buf).length then
      (slice buf lo (hi + src.length),
        Function.update mem buf ((mem buf).take hi ++ src ++ (mem buf).drop (hi + src.length)))
    else (owned (s.read mem ++ src), mem)

end Segment

/-- `TreePool`: the trees released and not taken yet, and how many trees it has made. -/
structure TreePool where
  hasher : BaseHasher
  SegmentSize : ℕ
  SegmentCount : ℕ
  Capacity : ℕ
  free : List Tree
  count : ℕ

namespace TreePool

def New (hasher : BaseHasher) (segmentSize segmentCount capacity : ℕ) : TreePool :=
  ⟨hasher, segmentSize, segmentCount, capacity, [], 0⟩

/-- `Reserve`: a released tree, or a new one while the pool is under capacity; `none` when it
would wait for a release that a single caller never makes. -/
def Reserve (p : TreePool) : Option (Tree × TreePool) :=
  match p.free with
  | t :: free => some (t, { p with free })
  | [] => if p.count = p.Capacity then none else some (Tree.New (depth p.SegmentCount), { p with count := p.count + 1 })

def Release (p : TreePool) (t : Tree) : TreePool := { p with free := p.free ++ [t] }

end TreePool

/-- `Hasher`, with the pool and the caller's buffers it works over. -/
structure Hasher where
  pool : TreePool
  bmt : Option Tree
  cur : ℕ
  segment : Segment
  /-- the value a goroutine sent on `result` and `Sum` has not received -/
  result : Option Bytes
  blockLength : Option Bytes
  mem : Memory

namespace Hasher

variable (h : Hasher)

def count : ℕ := h.pool.SegmentCount
def size : ℕ := h.pool.SegmentSize
def base : BaseHasher := h.pool.hasher

/-- `New`. -/
def New (p : TreePool) (mem : Memory) : Hasher := ⟨p, none, 0, .owned [], none, none, mem⟩

/-- The loop of `run`, from the node `index` of `level`: store the half, let the first of two
halves wait, and otherwise hash the node and go up. It gives the tree and the hash a root sends. -/
def runLoop (base : BaseHasher) (d : ℕ) : ℕ → ℕ → Bool → ℕ → Bytes → Tree → Option (Tree × Option Bytes)
  | level, index, isLeft, i, s, t =>
    let n := t.get level index
    let n := if isLeft then { n with left := s } else { n with right := s }
    let n := if n.unbalanced then n else { n with state := n.state + 1 }
    let t := t.set level index n
    -- `!n.unbalanced && n.toggle()`: the first to arrive leaves its half
    if !n.unbalanced ∧ n.state % 2 = 1 then some (t, none) else
    let s := if !n.unbalanced || !isLeft || (i = 0 ∧ d = 0) then base (n.left ++ n.right) else n.left ++ n.right
    if n.root then some (t, some s)
    else match level with
      | 0 => none
      | level + 1 => runLoop base d level (index / 2) (index % 2 = 0) (i + 1) s t

/-- `writeSegment` of the double segment `i`: a full one is hashed at its leaf first. -/
def writeSegment (t : Tree) (i : ℕ) (s : Bytes) (d : ℕ) : Option (Tree × Option Bytes) :=
  let n := t.get t.depth i
  if s.length > h.size ∧ t.depth > 0 then
    let s := h.base s
    if n.root then some (t, some s)
    else runLoop h.base d (t.depth - 1) (i / 2) (i % 2 = 0) i s t
  else runLoop h.base d t.depth i true (i * 2) s t

/-- Keep the first hash a root sends; the channel is unbuffered, and `Sum` receives once. -/
def send (r : Option Bytes) : Hasher := { h with result := h.result <|> r }

/-- `finalise`: the path of the last segment, up to the first node of index 0, which becomes a
root; the levels climbed. -/
def finaliseLoop : ℕ → ℕ → Bool → ℕ → Tree → Option (Tree × ℕ)
  | level, index, isLeft, d, t =>
    let n := { t.get level index with unbalanced := isLeft, right := [] }
    if index = 0 then some (t.set level index { n with root := true }, d)
    else match level with
      | 0 => none
      | level + 1 => finaliseLoop level (index / 2) (index % 2 = 0) (d + 1) (t.set (level + 1) index n)

/-- The loop of `Write` over the full segments of its input `b`, the caller's buffer `buf`. -/
def writeLoop (buf : ℕ) (count : ℤ) : ℕ → Hasher → Tree → ℤ → ℤ → ℤ → ℕ → Segment → Option (Hasher × Tree × ℕ × Segment)
  | 0, _, _, _, _, _, _, _ => none
  | fuel + 1, h, t, need, size, rest, i, s =>
    if need > 0 ∧ (i : ℤ) < count - 1 then
      (h.writeSegment t i (s.read h.mem) (depth h.count)).bind fun (t, r) =>
        let h := h.send r
        let need := need - size
        let size := if need < 0 then size + need else size
        -- `s = b[rest : rest+size]`: a slice of the caller's buffer
        if rest < 0 ∨ size < 0 ∨ rest + size > (h.mem buf).length then none else
        writeLoop buf count fuel h t need size (rest + size) (i + 1) (.slice buf rest.toNat (rest + size).toNat)
    else some (h, t, i, s)

/-- `Write` of the caller's buffer `buf`. -/
def Write (buf : ℕ) : Option Hasher :=
  let b := h.mem buf
  let l : ℤ := b.length
  if l ≤ 0 then some h else
  match h.bmt with
  | none => none
  | some t =>
    let count : ℤ := (h.count + 1) / 2
    let need : ℤ := h.count * h.size - h.cur * 2 * h.size
    let size : ℤ := if need > h.size then 2 * h.size else h.size
    let need := if l < need then l else need
    let rest := size - (h.segment.read h.mem).length
    let rest := if need < rest then need else rest
    if rest < 0 then none else
    let (s, mem) := h.segment.append h.mem (b.take rest.toNat)
    (writeLoop buf count (h.count + 1) { h with mem } t (need - rest) size rest h.cur s).map fun (h, t, i, s) =>
      { h with bmt := some t, segment := s, cur := i }

/-- `releaseTree`: the path of the current leaf loses its marks, and the tree goes back. -/
def releaseTree : Hasher :=
  match h.bmt with
  | none => { h with cur := 0, segment := .owned [] }
  | some t =>
    let t := (List.range (t.depth + 1)).foldl (fun t level =>
      let index := h.cur / 2 ^ (t.depth - level)
      let n := t.get level index
      t.set level index { n with unbalanced := false, root := if level = 0 then n.root else false }) t
    { h with pool := h.pool.Release t, bmt := none, cur := 0, segment := .owned [] }

/-- `Sum(nil)`. -/
def Sum : Option (Bytes × Hasher) :=
  match h.bmt with
  | none => none
  | some t =>
    let j := h.cur
    let s := h.segment.read h.mem
    -- a full last double segment starts at the leaf's parent
    let (level, index, i) :=
      if s.length > h.size ∧ h.cur > 0 ∧ t.depth > 0 then (t.depth - 1, h.cur / 2, h.cur) else (t.depth, h.cur, h.cur * 2)
    (finaliseLoop level index (i % 2 = 0) 0 t).bind fun (t, d) =>
      (h.writeSegment t j s d).bind fun (t, r) =>
        let h := { h.send r with bmt := some t }
        match h.result with
        | none => none
        | some c =>
          let h := { h with result := none }.releaseTree
          match h.blockLength with
          | none => some (c, h)
          | some l => some (h.base (l ++ c), h)

/-- `Reset`: a tree from the pool. -/
def Reset : Option Hasher :=
  match h.bmt with
  | some _ => some { h with blockLength := none }
  | none => h.pool.Reserve.map fun (t, pool) => { h with pool, bmt := some t, blockLength := none }

/-- `ResetWithLength`. -/
def ResetWithLength (l : Bytes) : Option Hasher := h.Reset.map fun h => { h with blockLength := some l }

end Hasher

/-! ## The reference -/

/-- `RefHasher`; its field `section` is `sectionSize` here. -/
structure RefHasher where
  span : ℕ
  sectionSize : ℕ
  cap : ℕ
  h : BaseHasher

/-- The loop `for c := 2; c < count; c *= 2`. -/
def powerAbove (count : ℕ) : ℕ → ℕ → ℕ
  | 0, c => c
  | fuel + 1, c => if c < count then powerAbove count fuel (c * 2) else c

/-- `NewRefHasher`, with the size of the base hash. -/
def NewRefHasher (hasher : BaseHasher) (hashsize count : ℕ) : RefHasher :=
  let c := powerAbove count count 2
  let c := if c > 2 then c / 2 else c
  ⟨c * hashsize, 2 * hashsize, hashsize * count, hasher⟩

/-- `for ; s >= l; s /= 2`, within `fuel` rounds. -/
def halveBelow (l : ℕ) : ℕ → ℕ → ℕ
  | 0, s => s
  | fuel + 1, s => if l ≤ s then halveBelow l fuel (s / 2) else s

namespace RefHasher

variable (rh : RefHasher)

/-- `hash`: split at the largest power below the length, and hash the right part too when it is
more than half a section. -/
def hash : ℕ → Bytes → ℕ → Bytes
  | 0, d, _ => rh.h d
  | fuel + 1, d, s =>
    let l := d.length
    if l > rh.sectionSize then
      let s := halveBelow l s s
      let left := hash fuel (d.take s) s
      let right := d.drop s
      let right := if l - s > rh.sectionSize / 2 then hash fuel right s else right
      rh.h (left ++ right)
    else rh.h d

/-- `Hash`. -/
def Hash (d : Bytes) : Bytes :=
  let d := if d.length > rh.cap then d.take rh.cap else d
  rh.hash d.length d rh.span

end RefHasher

/-! ## The caller's buffer -/

namespace Hasher

theorem writeLoop_segment {buf : ℕ} {count : ℤ} :
    ∀ {fuel : ℕ} {h : Hasher} {t : Tree} {need size rest : ℤ} {i : ℕ} {s : Segment}
      {r : Hasher × Tree × ℕ × Segment}, writeLoop buf count fuel h t need size rest i s = some r →
      r.2.2.2 = s ∨ ∃ lo hi, r.2.2.2 = .slice buf lo hi
  | 0, _, _, _, _, _, _, _, _, hr => by simp [writeLoop] at hr
  | fuel + 1, h, t, need, size, rest, i, s, r, hr => by
    unfold writeLoop at hr
    split at hr
    · obtain ⟨⟨t', r'⟩, -, hr⟩ := Option.bind_eq_some_iff.mp hr
      dsimp only at hr
      split_ifs at hr <;>
      · rcases writeLoop_segment hr with heq | hslice
        · exact Or.inr ⟨_, _, heq⟩
        · exact Or.inr hslice
    · cases hr
      exact Or.inl rfl

theorem Sum_fst_of_owned (h : Hasher) {bs : Bytes} (hs : h.segment = .owned bs) (mem : Memory) :
    { h with mem }.Sum.map Prod.fst = h.Sum.map Prod.fst := by
  unfold Sum
  simp only [hs, Segment.read, size, base]
  split
  · rfl
  · rw [Option.map_bind, Option.map_bind]
    congr 1
    funext ⟨t', d⟩
    simp only [Function.comp_def, Option.map_bind]
    congr 1
    funext ⟨t'', r⟩
    simp only [send, releaseTree]
    rcases h.result <|> r with _ | c
    · rfl
    · rcases h.blockLength with _ | l <;> rfl

end Hasher

/-- A base hash of 32 bytes: the length and the sum of the bytes, each cut to a byte. -/
def lengthSumHash : BaseHasher := fun b =>
  List.replicate 30 0 ++ [b.length.toUInt8, (b.map UInt8.toNat).sum.toUInt8]

/-- Four segments of 32 bytes and a pool of one tree. The caller writes 128 bytes of 1 from its
buffer in one `Write`, and then, as `io.Writer` allows, reuses the buffer for 128 bytes of 2
before `Sum`. `Write` hashed the first double segment, a copy, but keeps the second as a slice of
the buffer, and `Sum` hashes what the buffer holds then: the right half of the root is the hash
of the new bytes, and the root is not the reference's. -/
theorem Sum_reads_reused_buffer :
    let d : Bytes := List.replicate 128 1
    let e : Bytes := List.replicate 128 2
    let h := Hasher.New (TreePool.New lengthSumHash 32 4 1) fun _ => d
    let sum := ((h.Reset.bind fun h => h.Write 0).bind fun h => { h with mem := fun _ => e }.Sum).map Prod.fst
    sum = some (lengthSumHash (lengthSumHash (d.take 64) ++ lengthSumHash (e.drop 64))) ∧
      (NewRefHasher lengthSumHash 32 4).Hash d =
        lengthSumHash (lengthSumHash (d.take 64) ++ lengthSumHash (d.drop 64)) ∧
      sum ≠ some ((NewRefHasher lengthSumHash 32 4).Hash d) := by
  decide +kernel

end EthereumAI.Bmt
