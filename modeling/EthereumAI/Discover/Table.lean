import Mathlib
import EthereumAI.Netutil.Net
import EthereumAI.Lib.Heap

/-! # The node table (`p2p/discover/table.go`)

The Kademlia table of the discovery protocol: 17 buckets by log distance from the
local node, each with at most `bucketSize` entries and `maxReplacements`
replacements, and two counters of IPs per /24 subnet, one for the table and one
for each bucket, which `addIP` and `removeIP` keep.

The counters are kept apart from the lists: `deleteInBucket` uncounts the node's IP
whether or not the node was in the bucket, and `bumpOrAdd` counts a node moved from
the replacements to the entries a second time. So the counters drift from the lists,
and a bucket can hold more than `bucketIPLimit` nodes of one subnet.

`tab.rand.Intn` in `replace` is an index given by the caller, and `doRevalidate`
takes the bucket `nodeToRevalidate` chose and the answer to the ping.
-/

namespace EthereumAI.Discover

open Netutil

/-- `bucketSize`. -/
def bucketSize : ℕ := 16

/-- `maxReplacements`. -/
def maxReplacements : ℕ := 10

/-- `hashBits`. -/
def hashBits : ℕ := 32 * 8

/-- `nBuckets`. -/
def nBuckets : ℕ := hashBits / 15

instance : NeZero nBuckets := ⟨by decide⟩

/-- `bucketMinDistance`. -/
def bucketMinDistance : ℕ := hashBits - nBuckets

/-- `bucketIPLimit`. -/
def bucketIPLimit : ℕ := 2

/-- `bucketSubnet`. -/
def bucketSubnet : ℕ := 24

/-- `tableIPLimit`. -/
def tableIPLimit : ℕ := 10

/-- `tableSubnet`. -/
def tableSubnet : ℕ := 24

/-- `NodeID`, the 64 bytes of a public key. -/
abbrev NodeID := BitVec 512

/-- `Node`, with the fields the table reads: its IP, its ID, and `sha`, the hash of the
ID that places it in a bucket. -/
structure Node where
  IP : Bytes
  ID : NodeID
  sha : Hash
deriving DecidableEq, Repr

/-! ## Distance -/

/-- `lzcount[x]`: the leading zero bits of a byte. -/
def lzcount (x : UInt8) : ℕ := ((List.range 8).takeWhile fun i => !x.toNat.testBit (7 - i)).length

/-- The 32 bytes of a hash, the most significant first. -/
def hashBytesOf (h : Hash) : Bytes := (List.range 32).map fun i => (h.val >>> (8 * (31 - i))).toUInt8

/-- The loop of `logdist`: eight zero bits for each zero byte, up to the first byte that
is not zero. -/
def leadingZeros : Bytes → ℕ
  | [] => 0
  | x :: xs => if x = 0 then 8 + leadingZeros xs else lzcount x

/-- `logdist`: the bits of `a ^ b` from its highest set bit down. -/
def logdist (a b : Hash) : ℕ :=
  32 * 8 - leadingZeros (List.zipWith (· ^^^ ·) (hashBytesOf a) (hashBytesOf b))

theorem logdist_le (a b : Hash) : logdist a b ≤ hashBits := by
  unfold logdist hashBits
  omega

/-! ## Buckets and the table -/

/-- `bucket`. -/
structure bucket where
  entries : List Node
  replacements : List Node
  ips : DistinctNetSet

/-- `Table`, with the fields its bucket operations use. -/
structure Table where
  buckets : Fin nBuckets → bucket
  ips : DistinctNetSet
  self : Node

/-- `pushNode`: `n` at the front of `list`, which keeps at most `max` items, and the
item pushed out at the end. -/
def pushNode (list : List Node) (n : Node) (max : ℕ) : List Node × Option Node :=
  if list.length < max then (n :: list, none) else (n :: list.dropLast, list.getLast?)

/-- `deleteNode`: the first node with `n`'s ID removed. -/
def deleteNode (list : List Node) (n : Node) : List Node := list.eraseP fun e => e.ID == n.ID

/-- `bucket.bump`: the entry with `n`'s ID moved to the front, as `n`. -/
def bucket.bump (b : bucket) (n : Node) : Bool × bucket :=
  if b.entries.any (fun e => e.ID == n.ID) then (true, { b with entries := n :: deleteNode b.entries n })
  else (false, b)

namespace Table

variable (tab : Table)

/-- `Table.bucket`: the bucket of a node hash, by its log distance from the local node. -/
def bucket (sha : Hash) : Fin nBuckets :=
  let d := logdist tab.self.sha sha
  if d ≤ bucketMinDistance then ⟨0, by decide⟩
  else ⟨d - bucketMinDistance - 1, by
    have := logdist_le tab.self.sha sha
    unfold bucketMinDistance nBuckets hashBits at *
    omega⟩

/-- A write through the bucket pointer `b`. -/
def modifyBucket (b : Fin nBuckets) (f : Discover.bucket → Discover.bucket) : Table :=
  { tab with buckets := Function.update tab.buckets b (f (tab.buckets b)) }

/-- `addIP`: the IP counted in the table and in the bucket, unless either is at its limit. -/
def addIP (b : Fin nBuckets) (ip : Bytes) : Bool × Table :=
  if IsLAN ip then (true, tab) else
  match tab.ips.Add ip with
  | (false, _) => (false, tab)
  | (true, ips) =>
    match (tab.buckets b).ips.Add ip with
    | (false, _) => (false, { tab with ips := ips.Remove ip })
    | (true, bips) => (true, { tab with ips := ips }.modifyBucket b fun bk => { bk with ips := bips })

/-- `removeIP`. -/
def removeIP (b : Fin nBuckets) (ip : Bytes) : Table :=
  if IsLAN ip then tab
  else { tab with ips := tab.ips.Remove ip }.modifyBucket b fun bk => { bk with ips := bk.ips.Remove ip }

/-- `addReplacement`. -/
def addReplacement (b : Fin nBuckets) (n : Node) : Table :=
  if (tab.buckets b).replacements.any (fun e => e.ID == n.ID) then tab else
  match tab.addIP b n.IP with
  | (false, tab) => tab
  | (true, tab) =>
    match pushNode (tab.buckets b).replacements n maxReplacements with
    | (replacements, removed) =>
      let tab := tab.modifyBucket b fun bk => { bk with replacements := replacements }
      match removed with
      | some removed => tab.removeIP b removed.IP
      | none => tab

/-- `deleteInBucket`: the IP is uncounted whether or not the node was in the bucket. -/
def deleteInBucket (b : Fin nBuckets) (n : Node) : Table :=
  (tab.modifyBucket b fun bk => { bk with entries := deleteNode bk.entries n }).removeIP b n.IP

/-- `replace`, with `tab.rand.Intn(len(b.replacements))` the index `choice` modulo the
number of replacements. -/
def replace (b : Fin nBuckets) (last : Node) (choice : ℕ) : Option Node × Table :=
  -- the entry has moved, or the bucket is empty
  if ((tab.buckets b).entries.getLast?.map fun e => e.ID) ≠ some last.ID then (none, tab) else
  match (tab.buckets b).replacements with
  | [] => (none, tab.deleteInBucket b last)
  | r₀ :: rs =>
    let r := (r₀ :: rs).getD (choice % (rs.length + 1)) r₀
    let tab := tab.modifyBucket b fun bk =>
      { bk with replacements := deleteNode bk.replacements r, entries := bk.entries.dropLast ++ [r] }
    (some r, tab.removeIP b last.IP)

/-- `bumpOrAdd`: `n` moved to the front of the entries, or added if there is room and
its IP is admitted. A node taken from the replacements is counted again. -/
def bumpOrAdd (b : Fin nBuckets) (n : Node) : Bool × Table :=
  match (tab.buckets b).bump n with
  | (true, bk) => (true, tab.modifyBucket b fun _ => bk)
  | (false, _) =>
    if (tab.buckets b).entries.length ≥ bucketSize then (false, tab) else
    match tab.addIP b n.IP with
    | (false, tab) => (false, tab)
    | (true, tab) => (true, tab.modifyBucket b fun bk =>
        { bk with entries := (pushNode bk.entries n bucketSize).1, replacements := deleteNode bk.replacements n })

/-- `add`. -/
def add (n : Node) : Table :=
  let b := tab.bucket n.sha
  match tab.bumpOrAdd b n with
  | (true, tab) => tab
  | (false, tab) => tab.addReplacement b n

/-- `stuff`. -/
def stuff (nodes : List Node) : Table :=
  nodes.foldl (fun tab n =>
    if n.ID = tab.self.ID then tab else
    let b := tab.bucket n.sha
    if (tab.buckets b).entries.length < bucketSize then (tab.bumpOrAdd b n).2 else tab) tab

/-- `delete`. -/
def delete (n : Node) : Table := tab.deleteInBucket (tab.bucket n.sha) n

/-- `doRevalidate`, once `nodeToRevalidate` chose bucket `bi` and the last node of it
answered the ping or not. -/
def doRevalidate (bi : Fin nBuckets) (alive : Bool) (choice : ℕ) : Table :=
  match (tab.buckets bi).entries.getLast? with
  | none => tab
  | some last => if alive then tab.modifyBucket bi fun bk => (bk.bump last).2 else (tab.replace bi last choice).2

end Table

/-- The calls that change a table: `add`, `stuff` and `delete`. -/
inductive Op
  | add (n : Node)
  | stuff (nodes : List Node)
  | delete (n : Node)
  | revalidate (bi : Fin nBuckets) (alive : Bool) (choice : ℕ)

/-- One call. -/
def Table.step (tab : Table) : Op → Table
  | .add n => tab.add n
  | .stuff nodes => tab.stuff nodes
  | .delete n => tab.delete n
  | .revalidate bi alive choice => tab.doRevalidate bi alive choice

/-- A sequence of calls. -/
def Table.run (tab : Table) (ops : List Op) : Table := ops.foldl Table.step tab

/-- The table `newTable` sets up around the local node, before any node is added. -/
def newTable (self : Node) : Table where
  buckets := fun _ => ⟨[], [], ⟨bucketSubnet, bucketIPLimit, fun _ => 0⟩⟩
  ips := ⟨tableSubnet, tableIPLimit, fun _ => 0⟩
  self := self

/-- Three nodes of `1.2.3.0/24` in the farthest bucket: after adding two of them,
deleting the third (not in the table) uncounts its subnet, and the third is then
admitted. The bucket holds three nodes of the subnet, over `bucketIPLimit`, while
both counters say two. -/
theorem bucket_holds_three_of_one_subnet :
    let tab : Table := (newTable ⟨[127, 0, 0, 1], 0, 0⟩).run
      [.add ⟨[1, 2, 3, 4], 1, 2 ^ 255⟩, .add ⟨[1, 2, 3, 5], 2, 2 ^ 255⟩,
        .delete ⟨[1, 2, 3, 6], 3, 2 ^ 255⟩, .add ⟨[1, 2, 3, 6], 3, 2 ^ 255⟩]
    (tab.buckets 16).entries = [⟨[1, 2, 3, 6], 3, 2 ^ 255⟩, ⟨[1, 2, 3, 5], 2, 2 ^ 255⟩, ⟨[1, 2, 3, 4], 1, 2 ^ 255⟩] ∧
      ((tab.buckets 16).entries.map fun n => (tab.buckets 16).ips.key n.IP) =
        List.replicate 3 [0x34, 1, 2, 3] ∧
      (tab.buckets 16).ips.members [0x34, 1, 2, 3] = 2 ∧ tab.ips.members [0x34, 1, 2, 3] = 2 ∧
      bucketIPLimit < 3 := by
  decide +kernel

/-! ## Reading random nodes

`ReadRandomNodes` takes the non-empty buckets, shuffles them, and then takes the head of each
bucket in turn into `buf`, dropping a bucket once it is empty. It returns `i + 1` both when the
loop stops because the table ran out and when it stops because `buf` is full: in the second
case that is one more than it wrote.

`initDone` is `tab.isInitDone()`, and `draws` are the results of `tab.rand.Intn(len(buckets))`,
taken modulo the number of buckets. A slot of `buf` is `none` for a nil pointer.
-/

/-- The shuffle of `ReadRandomNodes`, swapping index `i` with a drawn one, from `i` down to 1. -/
def shuffleBuckets : List ℕ → ℕ → List (List Node) → List (List Node)
  | _, 0, buckets => buckets
  | draws, i + 1, buckets =>
    shuffleBuckets draws.tail i (Lib.Heap.swap buckets (i + 1) (draws.headD 0 % buckets.length))

/-- The loop of `ReadRandomNodes` from slot `i` of `buf`, with the buckets left and the bucket
`j` to take from next: the slots from `i` on, and the `i` the loop stopped at. `none` is the
panic of indexing past the buckets or into an empty one. -/
def readLoop : List (List Node) → ℕ → ℕ → List (Option Node) → Option (List (Option Node) × ℕ)
  | _, _, i, [] => some ([], i)
  | buckets, j, i, _ :: rest =>
    match buckets[j]? with
    | some (n :: b) =>
      let buckets := if b = [] then buckets.eraseIdx j else buckets.set j b
      if buckets.length = 0 then some (some n :: rest, i)
      else (readLoop buckets ((j + 1) % buckets.length) (i + 1) rest).map fun r => (some n :: r.1, r.2)
    | _ => none

/-- The entries of all buckets, in bucket order. -/
def Table.allEntries (tab : Table) : List Node :=
  (List.finRange nBuckets).flatMap fun b => (tab.buckets b).entries

/-- `ReadRandomNodes`: `buf` with the nodes written into it, and the count it returns. -/
def Table.ReadRandomNodes (tab : Table) (initDone : Bool) (draws : List ℕ) (buf : List (Option Node)) :
    Option (List (Option Node) × ℕ) :=
  if !initDone then some (buf, 0) else
  let buckets := ((List.finRange nBuckets).map fun b => (tab.buckets b).entries).filter fun l => !l.isEmpty
  if buckets.length = 0 then some (buf, 0) else
  let buckets := shuffleBuckets draws (buckets.length - 1) buckets
  (readLoop buckets 0 0 buf).map fun r => (r.1, r.2 + 1)

theorem shuffleBuckets_perm : ∀ (draws : List ℕ) (i : ℕ) (buckets : List (List Node)),
    (shuffleBuckets draws i buckets).Perm buckets
  | _, 0, _ => .refl _
  | draws, i + 1, _ =>
    (shuffleBuckets_perm draws.tail i _).trans (Lib.Heap.swap_perm _ _ _)

/-- Taking the head `n` of bucket `j`: the entries left are the others, and no bucket left is
empty. -/
theorem takeHead_perm {buckets : List (List Node)} {j : ℕ} {n : Node} {b : List Node}
    (hj : buckets[j]? = some (n :: b)) (hne : ∀ l ∈ buckets, l ≠ []) :
    let rest := if b = [] then buckets.eraseIdx j else buckets.set j b
    (n :: rest.flatten).Perm buckets.flatten ∧ ∀ l ∈ rest, l ≠ [] := by
  obtain ⟨hlt, hget⟩ := List.getElem?_eq_some_iff.1 hj
  have hsplit : buckets = buckets.take j ++ (n :: b) :: buckets.drop (j + 1) := by
    conv_lhs => rw [← List.take_append_drop j buckets, List.drop_eq_getElem_cons hlt, hget]
  by_cases hb : b = []
  · subst hb
    simp only [if_true]
    refine ⟨?_, fun l hl => hne l (List.mem_of_mem_eraseIdx hl)⟩
    rw [List.eraseIdx_eq_take_drop_succ]
    conv_rhs => rw [hsplit]
    simpa using List.perm_middle.symm
  · simp only [hb, if_false]
    constructor
    · rw [List.set_eq_take_append_cons_drop, if_pos hlt]
      conv_rhs => rw [hsplit]
      simpa using List.perm_middle.symm
    · intro l hl
      rcases List.mem_or_eq_of_mem_set hl with hl | rfl
      · exact hne l hl
      · exact hb

theorem readLoop_of_head {buckets : List (List Node)} {j i : ℕ} {n : Node} {b : List Node}
    (hget : buckets[j]? = some (n :: b)) (slot : Option Node) (rest : List (Option Node)) :
    readLoop buckets j i (slot :: rest) =
      if (if b = [] then buckets.eraseIdx j else buckets.set j b).length = 0 then some (some n :: rest, i)
      else (readLoop (if b = [] then buckets.eraseIdx j else buckets.set j b)
        ((j + 1) % (if b = [] then buckets.eraseIdx j else buckets.set j b).length) (i + 1) rest).map
          fun r => (some n :: r.1, r.2) := by
  simp only [readLoop, hget]

/-- The loop writes the heads of the buckets until `buf` or the buckets run out: a
sub-permutation of the entries, in the first slots, the others untouched, and it stops at the
last slot written when the buckets run out, past the last one when `buf` does. -/
theorem readLoop_spec : ∀ (buf : List (Option Node)) (buckets : List (List Node)) (j i : ℕ),
    (∀ l ∈ buckets, l ≠ []) → j < buckets.length →
    ∃ ns : List Node, readLoop buckets j i buf =
        some (ns.map some ++ buf.drop ns.length,
          if buckets.flatten.length ≤ buf.length then i + buckets.flatten.length - 1 else i + buf.length) ∧
      ns.length = min buf.length buckets.flatten.length ∧ ns.Subperm buckets.flatten
  | [], buckets, j, i, hne, hj => by
    have hpos : 0 < buckets.flatten.length := by
      have hmem : buckets[j] ∈ buckets := List.getElem_mem hj
      have hl := List.length_pos_iff.2 (hne _ hmem)
      have hle : buckets[j].length ≤ buckets.flatten.length :=
        (List.sublist_flatten_of_mem hmem).length_le
      omega
    refine ⟨[], ?_, by simp, List.nil_subperm⟩
    simp only [readLoop, List.map_nil, List.length_nil, List.drop_zero, List.nil_append]
    rw [if_neg (by omega)]
    rfl
  | slot :: rest, buckets, j, i, hne, hj => by
    obtain ⟨n, b, hget⟩ : ∃ n b, buckets[j]? = some (n :: b) := by
      have hmem : buckets[j] ∈ buckets := List.getElem_mem hj
      obtain ⟨n, b, hnb⟩ := List.exists_cons_of_ne_nil (hne _ hmem)
      exact ⟨n, b, by rw [List.getElem?_eq_getElem hj, hnb]⟩
    obtain ⟨hperm, hne'⟩ := takeHead_perm hget hne
    rw [readLoop_of_head hget]
    generalize (if b = [] then buckets.eraseIdx j else buckets.set j b) = left at hperm hne' ⊢
    have hlen := hperm.length_eq
    simp only [List.length_cons] at hlen
    by_cases hempty : left.length = 0
    · -- the last entry: the loop breaks at this slot
      have hnil : left = [] := List.eq_nil_of_length_eq_zero hempty
      subst hnil
      refine ⟨[n], ?_, by simp at hlen ⊢; omega, hperm.subperm⟩
      simp at hlen
      simp [← hlen]
    · -- more entries: the next turn takes from the next bucket
      obtain ⟨ns, hrun, hlen', hsub⟩ :=
        readLoop_spec rest left ((j + 1) % left.length) (i + 1) hne' (Nat.mod_lt _ (by omega))
      refine ⟨n :: ns, ?_, ?_, ?_⟩
      · rw [if_neg hempty, hrun]
        simp only [Option.map_some, List.map_cons, List.length_cons, List.drop_succ_cons, List.cons_append,
          Prod.mk.injEq, true_and, Option.some.injEq]
        split_ifs <;> omega
      · simp only [List.length_cons, hlen']
        omega
      · exact ((List.subperm_cons n).2 hsub).trans hperm.subperm

/-- `ReadRandomNodes` once the refresh is done: the first slots hold distinct entries of the
table (a sub-permutation of them), as many as fit, the other slots are untouched, and the count
returned is the number of entries when they all fit, and one more than the slots when not. -/
theorem ReadRandomNodes_spec (tab : Table) (draws : List ℕ) (buf : List (Option Node)) :
    ∃ ns : List Node, tab.ReadRandomNodes true draws buf =
        some (ns.map some ++ buf.drop ns.length,
          if tab.allEntries.length ≤ buf.length then tab.allEntries.length else buf.length + 1) ∧
      ns.length = min buf.length tab.allEntries.length ∧ ns.Subperm tab.allEntries := by
  unfold Table.ReadRandomNodes
  simp only [Bool.not_true, Bool.false_eq_true, if_false]
  -- the non-empty buckets hold the table's entries
  have hflat : (((List.finRange nBuckets).map fun b => (tab.buckets b).entries).filter
      fun l => !l.isEmpty).flatten = tab.allEntries := by
    rw [List.flatten_filter_not_isEmpty, Table.allEntries, List.flatMap_def]
  have hne : ∀ l ∈ ((List.finRange nBuckets).map fun b => (tab.buckets b).entries).filter
      (fun l => !l.isEmpty), l ≠ [] := by
    intro l hl
    simpa using (List.mem_filter.1 hl).2
  generalize (((List.finRange nBuckets).map fun b => (tab.buckets b).entries).filter
      fun l => !l.isEmpty) = buckets at hflat hne ⊢
  by_cases h0 : buckets.length = 0
  · rw [List.eq_nil_of_length_eq_zero h0] at hflat
    rw [if_pos h0, ← hflat]
    exact ⟨[], by simp, by simp, List.nil_subperm⟩
  · rw [if_neg h0]
    have hperm := shuffleBuckets_perm draws (buckets.length - 1) buckets
    obtain ⟨ns, hrun, hlen, hsub⟩ := readLoop_spec buf (shuffleBuckets draws (buckets.length - 1) buckets) 0 0
      (fun l hl => hne l (hperm.subset hl)) (by rw [hperm.length_eq]; omega)
    have hT : (shuffleBuckets draws (buckets.length - 1) buckets).flatten.length = tab.allEntries.length := by
      rw [← hflat]
      exact hperm.flatten.length_eq
    have hpos : 0 < tab.allEntries.length := by
      rw [← hflat]
      obtain ⟨l, hl⟩ := List.exists_mem_of_length_pos (Nat.pos_of_ne_zero h0)
      exact lt_of_lt_of_le (List.length_pos_iff.2 (hne l hl)) (List.sublist_flatten_of_mem hl).length_le
    refine ⟨ns, ?_, by rw [hlen, hT], hsub.trans (hflat ▸ hperm.flatten.subperm)⟩
    rw [hrun, hT, Option.map_some]
    congr 2
    split_ifs <;> omega

/-- Two nodes in the table and a buffer of one slot: one node is written, and the count
returned is 2, not `min(len(buf), 2) = 1`. -/
theorem ReadRandomNodes_counts_past_buf :
    let tab : Table := (newTable ⟨[127, 0, 0, 1], 0, 0⟩).run
      [.add ⟨[1, 2, 3, 4], 1, 2 ^ 255⟩, .add ⟨[1, 2, 3, 5], 2, 2 ^ 255⟩]
    tab.ReadRandomNodes true [] [none] = some ([some ⟨[1, 2, 3, 5], 2, 2 ^ 255⟩], 2) ∧
      min 1 tab.allEntries.length = 1 := by
  decide +kernel

end EthereumAI.Discover
