import Mathlib
import EthereumAI.Common.Types
import EthereumAI.Lib.Journal

/-! # The PoW dataset (`consensus/eaiash/algorithm.go`)

`generateDatasetItem` builds item `i` of the dataset from 256 rows of the
verification cache, and `generateDataset` writes every item at byte offset
`index * hashBytes`, the items being split among `threads` goroutines in batches.
Keccak-512 is a parameter, of which only the length of its digests is used.

The offset is computed in uint32: from item `2^26` on, which datasets past 4 GiB
have (from epoch 385, whose dataset has 4303349632 bytes), it wraps, and the items
are written over the first ones while the bytes past `2^32` are never written. The
goroutines run one after another here; the bytes they never write are the same in
every order they could run in, and that is what is proved.
-/

namespace EthereumAI.Eaiash

/-- `hashBytes`. -/
def hashBytes : ℕ := 64

/-- `hashWords`. -/
def hashWords : ℕ := 16

/-- `datasetParents`. -/
def datasetParents : ℕ := 256

/-- `fnv`. -/
def fnv (a b : UInt32) : UInt32 := a * 0x01000193 ^^^ b

/-- `fnvHash`: the mix folded with the data word by word; data shorter than the mix
is indexed out of range. -/
def fnvHash (mix data : List UInt32) : Option (List UInt32) :=
  if mix.length ≤ data.length then some (List.zipWith (fun m d => m * 0x01000193 ^^^ d) mix data) else none

/-- `binary.LittleEndian.PutUint32`. -/
def putUint32 (w : UInt32) : Bytes := [w.toUInt8, (w >>> 8).toUInt8, (w >>> 16).toUInt8, (w >>> 24).toUInt8]

/-- `binary.LittleEndian.Uint32` of the four bytes from `off`. -/
def uint32At (b : Bytes) (off : ℕ) : UInt32 :=
  (b.getD off 0).toUInt32 ||| (b.getD (off + 1) 0).toUInt32 <<< 8 |||
    (b.getD (off + 2) 0).toUInt32 <<< 16 ||| (b.getD (off + 3) 0).toUInt32 <<< 24

/-- `swap`: every 4-byte word from little to big endian. -/
def swap (buffer : Bytes) : Bytes :=
  (List.range (buffer.length / 4)).flatMap fun i => (putUint32 (uint32At buffer (4 * i))).reverse

/-- The hasher `makeHasher(sha3.NewKeccak512())`: it writes a 64-byte digest over the
64-byte mix. -/
structure Keccak512 where
  sum : Bytes → Bytes
  length_sum : ∀ data, (sum data).length = hashBytes

/-- Parent `i` of the 256 the loop of `generateDatasetItem` folds into the mix: a row of the
cache chosen from the index and the mix. -/
def mixParent (cache : List UInt32) (rows index : UInt32) (intMix : List UInt32) (i : ℕ) : Option (List UInt32) :=
  -- `intMix` keeps its sixteen words, so `intMix[i%16]` is in range
  let parent := fnv (index ^^^ i.toUInt32) (intMix.getD (i % 16) 0) % rows
  fnvHash intMix (cache.drop (parent * hashWords.toUInt32).toNat)

/-- `generateDatasetItem`: a cache row mixed with the index and hashed, then folded with
256 rows chosen from it, and hashed again. A cache without a row divides by zero. -/
def generateDatasetItem (keccak512 : Keccak512) (cache : List UInt32) (index : UInt32) : Option Bytes := do
  let rows : UInt32 := (cache.length / hashWords).toUInt32
  if rows = 0 then none else
  let row := (index % rows) * hashWords.toUInt32
  let words ← (List.range hashWords).mapM fun i => cache[(row + i.toUInt32).toNat]?
  -- the first word of the row is mixed with the index
  let mix := keccak512.sum ((words.set 0 (words.getD 0 0 ^^^ index)).flatMap putUint32)
  let intMix := (List.range hashWords).map fun i => uint32At mix (4 * i)
  let intMix ← (List.range datasetParents).foldlM (mixParent cache rows index) intMix
  pure (keccak512.sum (intMix.flatMap putUint32))

/-- `copy(dataset[index*hashBytes:], item)`: the offset is a uint32, and slicing past the
end of the dataset panics. -/
def writeItem (dataset : ℕ → UInt8) (size : ℕ) (index : UInt32) (item : Bytes) : Option (ℕ → UInt8) :=
  let off := (index * hashBytes.toUInt32).toNat
  if size < off then none
  else some fun j => if off ≤ j ∧ j < off + item.length ∧ j < size then item.getD (j - off) 0 else dataset j

/-- The items goroutine `id` of `threads` generates: a batch of the ceiling share. -/
def threadItems (size threads id : ℕ) : List UInt32 :=
  let batch : UInt32 := ((size + hashBytes * threads - 1) / (hashBytes * threads)).toUInt32
  let first : UInt32 := id.toUInt32 * batch
  let limit : UInt32 := first + batch
  let limit := if limit > (size / hashBytes).toUInt32 then (size / hashBytes).toUInt32 else limit
  (List.range (limit.toNat - first.toNat)).map fun k => first + k.toUInt32

/-- Items written one after another, as the goroutines write them. -/
def writeItems (keccak512 : Keccak512) (swapped : Bool) (size : ℕ) (cache : List UInt32) :
    (ℕ → UInt8) → List UInt32 → Option (ℕ → UInt8)
  | dataset, [] => some dataset
  | dataset, index :: indices => do
    let item ← generateDatasetItem keccak512 cache index
    let dataset ← writeItem dataset size index (if swapped then swap item else item)
    writeItems keccak512 swapped size cache dataset indices

/-- `generateDataset` over the bytes of `dest`, with `threads` goroutines; the progress
log takes `status % percent`, which divides by zero below 100 items. -/
def generateDataset (keccak512 : Keccak512) (swapped : Bool) (threads : ℕ) (dataset : ℕ → UInt8)
    (size : ℕ) (cache : List UInt32) : Option (ℕ → UInt8) :=
  let percent : UInt32 := (size / hashBytes / 100).toUInt32
  let indices := (List.range threads).flatMap (threadItems size threads)
  if percent = 0 ∧ indices ≠ [] then none
  else writeItems keccak512 swapped size cache dataset indices

/-- Item `i` of a dataset: its 64 bytes from `i * hashBytes`. -/
def itemAt (dataset : ℕ → UInt8) (i : ℕ) : Bytes := (List.range hashBytes).map fun j => dataset (i * hashBytes + j)

/-! ## The bytes past `2^32` -/

theorem offset_add_le (index : UInt32) : (index * hashBytes.toUInt32).toNat + hashBytes ≤ 2 ^ 32 := by
  have h64 : hashBytes.toUInt32.toNat = 64 := rfl
  rw [UInt32.toNat_mul, h64]
  have := index.toNat_lt
  unfold hashBytes
  omega

theorem writeItem_high {dataset dataset' : ℕ → UInt8} {size : ℕ} {index : UInt32} {item : Bytes}
    (hitem : item.length ≤ hashBytes) (h : writeItem dataset size index item = some dataset')
    {j : ℕ} (hj : 2 ^ 32 ≤ j) : dataset' j = dataset j := by
  unfold writeItem at h
  dsimp only at h
  split at h
  · cases h
  · cases h
    have := offset_add_le index
    exact if_neg (by omega)

theorem length_swap (buffer : Bytes) (h : buffer.length % 4 = 0) : (swap buffer).length = buffer.length := by
  unfold swap
  rw [List.length_flatMap]
  simp only [List.length_reverse, putUint32, List.length_cons, List.length_nil, List.map_const',
    List.sum_replicate_nat, List.length_range]
  omega

section Keccak

variable {keccak512 : Keccak512}

theorem length_generateDatasetItem {cache : List UInt32} {index : UInt32} {item : Bytes}
    (h : generateDatasetItem keccak512 cache index = some item) : item.length = hashBytes := by
  unfold generateDatasetItem at h
  dsimp only at h
  split at h
  · cases h
  · obtain ⟨words, -, h⟩ := Option.bind_eq_some_iff.mp h
    obtain ⟨intMix, -, h⟩ := Option.bind_eq_some_iff.mp h
    cases h
    exact keccak512.length_sum _

theorem writeItems_high {swapped : Bool} {size : ℕ} {cache : List UInt32} :
    ∀ (indices : List UInt32) {dataset dataset' : ℕ → UInt8},
      writeItems keccak512 swapped size cache dataset indices = some dataset' →
      ∀ j, 2 ^ 32 ≤ j → dataset' j = dataset j
  | [], _, _, h, _, _ => by cases h; rfl
  | index :: indices, dataset, dataset', h, j, hj => by
    obtain ⟨item, hitem, h⟩ := Option.bind_eq_some_iff.mp h
    obtain ⟨dataset₁, hw, h⟩ := Option.bind_eq_some_iff.mp h
    have hlen : (if swapped then swap item else item).length ≤ hashBytes := by
      have := length_generateDatasetItem hitem
      split
      · rw [length_swap _ (by rw [this]; rfl), this]
      · rw [this]
    rw [writeItems_high indices h j hj, writeItem_high hlen hw hj]

theorem generateDataset_high {swapped : Bool} {threads size : ℕ} {cache : List UInt32}
    {dataset dataset' : ℕ → UInt8} (h : generateDataset keccak512 swapped threads dataset size cache = some dataset')
    (j : ℕ) (hj : 2 ^ 32 ≤ j) : dataset' j = dataset j := by
  unfold generateDataset at h
  dsimp only at h
  split at h
  · cases h
  · exact writeItems_high _ h j hj

end Keccak

/-! ## Every item is generated -/

/-- A verification cache as `generateCache` makes it: whole rows of `hashWords` words, fewer than
`2^32` words in all. -/
structure WholeRows (cache : List UInt32) : Prop where
  pos : 0 < cache.length
  rows : cache.length % hashWords = 0
  lt : cache.length < 2 ^ 32

section Items

variable {cache : List UInt32}

theorem WholeRows.toNat_rows (hc : WholeRows cache) :
    ((cache.length / hashWords).toUInt32).toNat = cache.length / hashWords :=
  UInt32.toNat_ofNat_of_lt' (by have := hc.lt; unfold hashWords; simp only [UInt32.size]; omega)

theorem WholeRows.row (hc : WholeRows cache) {x : UInt32} (hx : x.toNat < cache.length / hashWords) :
    (x * hashWords.toUInt32).toNat = x.toNat * hashWords ∧ x.toNat * hashWords + hashWords ≤ cache.length := by
  have h16 : hashWords.toUInt32.toNat = hashWords := rfl
  have hend : x.toNat * hashWords + hashWords ≤ cache.length := by
    have := Nat.div_mul_le_self cache.length hashWords
    nlinarith
  refine ⟨?_, hend⟩
  rw [UInt32.toNat_mul, h16]
  exact Nat.mod_eq_of_lt (by have := hc.lt; unfold hashWords at *; omega)

theorem WholeRows.rows_ne_zero (hc : WholeRows cache) : (cache.length / hashWords).toUInt32 ≠ 0 := by
  intro h
  have := congrArg UInt32.toNat h
  rw [hc.toNat_rows] at this
  have := hc.pos
  have := hc.rows
  unfold hashWords at *
  simp only [UInt32.toNat_zero] at *
  omega

theorem WholeRows.toNat_mod_rows (hc : WholeRows cache) (x : UInt32) :
    (x % (cache.length / hashWords).toUInt32).toNat < cache.length / hashWords := by
  rw [UInt32.toNat_mod, hc.toNat_rows]
  exact Nat.mod_lt _ (Nat.pos_of_ne_zero fun h => hc.rows_ne_zero (by rw [h]; rfl))

theorem fnvHash_some (mix data : List UInt32) (h : mix.length ≤ data.length) :
    ∃ r, fnvHash mix data = some r ∧ r.length = mix.length :=
  ⟨_, if_pos h, by rw [List.length_zipWith]; omega⟩

theorem mixParent_some (hc : WholeRows cache) (index : UInt32) {intMix : List UInt32}
    (hm : intMix.length = hashWords) (i : ℕ) :
    ∃ r, mixParent cache (cache.length / hashWords).toUInt32 index intMix i = some r ∧ r.length = hashWords := by
  obtain ⟨heq, hend⟩ := hc.row (hc.toNat_mod_rows (fnv (index ^^^ i.toUInt32) (intMix.getD (i % 16) 0)))
  obtain ⟨r, hr, hl⟩ := fnvHash_some intMix
    (cache.drop ((fnv (index ^^^ i.toUInt32) (intMix.getD (i % 16) 0) %
      (cache.length / hashWords).toUInt32) * hashWords.toUInt32).toNat)
    (by rw [List.length_drop, heq, hm]; omega)
  exact ⟨r, hr, hl.trans hm⟩

variable {keccak512 : Keccak512}

/-- Every item of a cache of whole rows is generated: its row and its parents lie in the cache. -/
theorem generateDatasetItem_some (hc : WholeRows cache) (index : UInt32) :
    ∃ data, generateDatasetItem keccak512 cache index = some (keccak512.sum data) := by
  obtain ⟨heq, hend⟩ := hc.row (hc.toNat_mod_rows index)
  obtain ⟨words, hwords⟩ := Lib.mapM_some (fun i => cache[((index % (cache.length / hashWords).toUInt32) *
      hashWords.toUInt32 + i.toUInt32).toNat]?) (List.range hashWords) fun i hi => by
    have hi' : i < hashWords := List.mem_range.mp hi
    have hadd : ((index % (cache.length / hashWords).toUInt32) * hashWords.toUInt32 + i.toUInt32).toNat =
        (index % (cache.length / hashWords).toUInt32).toNat * hashWords + i := by
      have : i.toUInt32.toNat = i := UInt32.toNat_ofNat_of_lt' (by unfold hashWords at hi'; simp only [UInt32.size]; omega)
      rw [UInt32.toNat_add, heq, this]
      exact Nat.mod_eq_of_lt (by have := hc.lt; omega)
    exact ⟨_, List.getElem?_eq_getElem (by rw [hadd]; omega)⟩
  have hinit : ((List.range hashWords).map fun i => uint32At (keccak512.sum
      ((words.set 0 (words.getD 0 0 ^^^ index)).flatMap putUint32)) (4 * i)).length = hashWords := by simp
  obtain ⟨intMix, hmix, -⟩ := Lib.foldlM_some (mixParent cache (cache.length / hashWords).toUInt32 index)
    (fun _ _ hm => mixParent_some hc index hm _) (List.range datasetParents) _ hinit
  refine ⟨intMix.flatMap putUint32, ?_⟩
  rw [generateDatasetItem, if_neg hc.rows_ne_zero]
  simp only [Option.bind_eq_bind]
  rw [hwords, Option.bind_some, hmix, Option.bind_some]
  rfl

theorem writeItems_some {swapped : Bool} {size : ℕ} (hc : WholeRows cache) (hsize : 2 ^ 32 ≤ size) :
    ∀ (indices : List UInt32) (dataset : ℕ → UInt8), ∃ dataset',
      writeItems keccak512 swapped size cache dataset indices = some dataset'
  | [], dataset => ⟨dataset, rfl⟩
  | index :: indices, dataset => by
    obtain ⟨data, hitem⟩ : ∃ data, generateDatasetItem keccak512 cache index = some (keccak512.sum data) :=
      generateDatasetItem_some hc index
    have hoff : ¬ size < (index * hashBytes.toUInt32).toNat := by
      have := offset_add_le index
      omega
    obtain ⟨dataset', h⟩ := writeItems_some hc hsize indices
      fun j => if (index * hashBytes.toUInt32).toNat ≤ j ∧
          j < (index * hashBytes.toUInt32).toNat + (if swapped then swap (keccak512.sum data) else keccak512.sum data).length ∧
          j < size then (if swapped then swap (keccak512.sum data) else keccak512.sum data).getD
            (j - (index * hashBytes.toUInt32).toNat) 0 else dataset j
    refine ⟨dataset', ?_⟩
    simp only [writeItems, hitem, Option.bind_eq_bind, Option.bind_some, writeItem, if_neg hoff]
    exact h

theorem generateDataset_some {swapped : Bool} {threads size : ℕ} (hc : WholeRows cache) (hsize : 2 ^ 32 ≤ size)
    (hpercent : (size / hashBytes / 100).toUInt32 ≠ 0) (dataset : ℕ → UInt8) :
    ∃ dataset', generateDataset keccak512 swapped threads dataset size cache = some dataset' := by
  unfold generateDataset
  simp only [hpercent, false_and, if_false]
  exact writeItems_some hc hsize _ dataset

end Items

/-- The dataset of epoch 385 has 4303349632 bytes (`datasetSizes[385]`), so it has an item
`2^26`. Over a cache of whole rows `generateDataset` returns, on any number of goroutines, and
`generateDatasetItem(cache, 2^26)` is an item; yet that item is never written: the dataset keeps
there what `dest` held. -/
theorem generateDataset_epoch385_skips_item (keccak512 : Keccak512) (swapped : Bool) (threads : ℕ)
    {cache : List UInt32} (hc : WholeRows cache) (dest : ℕ → UInt8) :
    2 ^ 26 < 4303349632 / hashBytes ∧
      ∃ dest' item, generateDataset keccak512 swapped threads dest 4303349632 cache = some dest' ∧
        generateDatasetItem keccak512 cache (2 ^ 26) = some item ∧ itemAt dest' (2 ^ 26) = itemAt dest (2 ^ 26) := by
  have hsize : 2 ^ 32 ≤ 4303349632 := by norm_num
  obtain ⟨dest', h⟩ : ∃ dest', generateDataset keccak512 swapped threads dest 4303349632 cache = some dest' :=
    generateDataset_some hc hsize (by decide) dest
  obtain ⟨data, hitem⟩ : ∃ data, generateDatasetItem keccak512 cache (2 ^ 26) = some (keccak512.sum data) :=
    generateDatasetItem_some hc (2 ^ 26)
  refine ⟨by decide, dest', _, h, hitem, ?_⟩
  unfold itemAt
  apply List.map_congr_left
  intro j _
  exact generateDataset_high h _ (by unfold hashBytes; omega)

/-- One goroutine over a one-row cache, with a Keccak-512 that always gives 64 bytes of `1`:
item `2^26` is generated as those bytes but stays zero in the dataset. -/
theorem generateDataset_epoch385_skips_item_one_thread :
    WholeRows (List.replicate 16 0) ∧
      (2 ^ 26 < 4303349632 / hashBytes ∧
        ∃ dest' item, generateDataset ⟨fun _ => List.replicate 64 1, fun _ => rfl⟩ false 1 (fun _ => 0) 4303349632
            (List.replicate 16 0) = some dest' ∧
          generateDatasetItem ⟨fun _ => List.replicate 64 1, fun _ => rfl⟩ (List.replicate 16 0) (2 ^ 26) = some item ∧
          itemAt dest' (2 ^ 26) = itemAt (fun _ => 0) (2 ^ 26)) ∧
      itemAt (fun _ => 0) (2 ^ 26) ≠ List.replicate 64 1 := by
  have hc : WholeRows (List.replicate 16 0) := ⟨by decide, by decide, by decide⟩
  refine ⟨hc, generateDataset_epoch385_skips_item _ false 1 hc _, ?_⟩
  simp [itemAt, hashBytes]

end EthereumAI.Eaiash
