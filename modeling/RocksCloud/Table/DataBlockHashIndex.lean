import Mathlib
import RocksCloud.Util.Coding

/-!
# The hash index of a data block

`table/block_based/data_block_hash_index.cc` appends to a data block an array of one-byte
buckets followed by their number as a `uint16_t`. Each bucket holds the restart interval of the
user keys hashed to it, `kNoEntry` when there is none, or `kCollision` when two intervals meet
there. A block with a hash index is at most `kMaxBlockSizeSupportedByHashIndex` bytes, so that
the reader can find the buckets with `uint16_t` offsets.

The number of buckets is a `double` in the source: `1 / util_ratio` buckets per key, added up
key by key. It is a `Float` here, IEEE double arithmetic as in the source; only the cast to
`uint16_t` of a value past `65535` (undefined behaviour) is Lean's saturating one. The hash is
`GetSliceHash` of `util/hash.h`, the murmur-like `Hash` of `util/hash.cc` with seed `397`.
-/

set_option autoImplicit false

namespace RocksCloud

namespace Util

/-- The loop of `Hash` that takes four bytes at a time: the state after the words and the
bytes left over. -/
def hashWords (m : UInt32) : Bytes → UInt32 → UInt32 × Bytes
  | b0 :: b1 :: b2 :: b3 :: rest, h =>
      let h := (h + decodeFixed32 [b0, b1, b2, b3]) * m
      hashWords m rest (h ^^^ (h >>> 16))
  | rest, h => (h, rest)

/-- `static_cast<uint32_t>(static_cast<int8_t>(c))`: a byte, sign-extended. -/
def signExtend (b : UInt8) : UInt32 := b.toInt8.toInt32.toUInt32

/-- `Hash(data, n, seed)` of `util/hash.cc`. The seed is xor-ed with `n * m` in `size_t`, of
which the cast keeps the low 32 bits. -/
def hash (data : Bytes) (seed : UInt32) : UInt32 :=
  let m : UInt32 := 0xc6a4a793
  let r : UInt32 := 24
  let (h, rest) := hashWords m data (seed ^^^ data.length.toUInt32 * m)
  -- the `switch (limit - data)` with its fall-throughs
  match rest with
  | [d0, d1, d2] =>
      let h := (h + (signExtend d2 <<< 16) + (signExtend d1 <<< 8) + signExtend d0) * m
      h ^^^ (h >>> r)
  | [d0, d1] =>
      let h := (h + (signExtend d1 <<< 8) + signExtend d0) * m
      h ^^^ (h >>> r)
  | [d0] =>
      let h := (h + signExtend d0) * m
      h ^^^ (h >>> r)
  | _ => h

/-- `GetSliceHash`. -/
def getSliceHash (s : Bytes) : UInt32 := hash s 397

end Util

namespace Table

open RocksCloud.Util

/-- `kNoEntry`: a bucket no key was hashed to. -/
def kNoEntry : UInt8 := 255

/-- `kCollision`: a bucket that keys of two restart intervals were hashed to. -/
def kCollision : UInt8 := 254

/-- `kMaxRestartSupportedByHashIndex`. -/
def kMaxRestartSupportedByHashIndex : Nat := 253

/-- `kMaxBlockSizeSupportedByHashIndex`: `1 << 16`. -/
def kMaxBlockSizeSupportedByHashIndex : Nat := 2 ^ 16

/-- `kDefaultUtilRatio`. -/
def kDefaultUtilRatio : Float := 0.75

/-- `DataBlockHashIndexBuilder`. A default-constructed builder is not valid. -/
structure DataBlockHashIndexBuilder where
  bucketPerKey : Float
  estimatedNumBuckets : Float
  valid : Bool
  hashAndRestartPairs : List (UInt32 × UInt8)

namespace DataBlockHashIndexBuilder

/-- The default constructor: `bucket_per_key_` is `-1`, the mark of an uninitialised builder. -/
def empty : DataBlockHashIndexBuilder := ⟨-1, 0, false, []⟩

/-- `Initialize(util_ratio)`. -/
def initializeWith (b : DataBlockHashIndexBuilder) (utilRatio : Float) :
    DataBlockHashIndexBuilder :=
  let utilRatio := if utilRatio ≤ 0 then kDefaultUtilRatio else utilRatio
  { b with bucketPerKey := 1 / utilRatio, valid := true }

/-- `Valid()`. -/
def isValid (b : DataBlockHashIndexBuilder) : Bool := b.valid && b.bucketPerKey > 0

/-- `Add(key, restart_index)`: a restart index past `253` turns the index off. -/
def add (b : DataBlockHashIndexBuilder) (key : Bytes) (restartIndex : Nat) :
    DataBlockHashIndexBuilder :=
  if restartIndex > kMaxRestartSupportedByHashIndex then { b with valid := false }
  else
    { b with
      hashAndRestartPairs := b.hashAndRestartPairs ++ [(getSliceHash key, restartIndex.toUInt8)]
      estimatedNumBuckets := b.estimatedNumBuckets + b.bucketPerKey }

/-- The number of buckets `Finish` writes: the estimate cast to `uint16_t`, at least one, and
odd. -/
def numBuckets (b : DataBlockHashIndexBuilder) : UInt16 :=
  let n := b.estimatedNumBuckets.toUInt16
  (if n = 0 then 1 else n) ||| 1

/-- A key's restart index put in its bucket: the first one stays, a second one marks the bucket
as a collision. -/
def placeInBucket (numBuckets : UInt16) (buckets : List UInt8) (entry : UInt32 × UInt8) :
    List UInt8 :=
  let idx := (entry.1 % numBuckets.toUInt32).toNat
  if buckets.getD idx kNoEntry = kNoEntry then buckets.set idx entry.2
  else if buckets.getD idx kNoEntry ≠ entry.2 then buckets.set idx kCollision
  else buckets

/-- `Finish(buffer)`: the buckets and their number appended to `buffer`. -/
def finish (b : DataBlockHashIndexBuilder) (buffer : Bytes) : Bytes :=
  let buckets := b.hashAndRestartPairs.foldl (placeInBucket b.numBuckets)
    (List.replicate b.numBuckets.toNat kNoEntry)
  putFixed16 (buffer ++ buckets) b.numBuckets

/-- `EstimateSize()`. -/
def estimateSize (b : DataBlockHashIndexBuilder) : Nat :=
  2 + (b.estimatedNumBuckets.toUInt16 ||| 1).toNat

/-- `EstimateSize` is the size `Finish` appends: the two rounds of `numBuckets` agree. -/
theorem numBuckets_eq (b : DataBlockHashIndexBuilder) :
    b.numBuckets = b.estimatedNumBuckets.toUInt16 ||| 1 := by
  unfold numBuckets
  dsimp only
  split
  · rename_i h
    rw [h]
    decide
  · rfl

/-- The buckets keep their number through every placement. -/
theorem length_foldl_placeInBucket (numBuckets : UInt16) (entries : List (UInt32 × UInt8))
    (buckets : List UInt8) :
    (entries.foldl (placeInBucket numBuckets) buckets).length = buckets.length := by
  induction entries generalizing buckets with
  | nil => rfl
  | cons entry entries ih =>
      rw [List.foldl_cons, ih]
      unfold placeInBucket
      dsimp only
      split
      · exact List.length_set
      · split
        · exact List.length_set
        · rfl

/-- What `Finish` appends: the buckets, as many as `numBuckets` says, and that number. -/
theorem finish_eq (b : DataBlockHashIndexBuilder) (buffer : Bytes) :
    ∃ buckets : Bytes, buckets.length = b.numBuckets.toNat ∧
      b.finish buffer = buffer ++ buckets ++ encodeFixed16 b.numBuckets := by
  refine ⟨_, ?_, rfl⟩
  rw [length_foldl_placeInBucket, List.length_replicate]

/-! ### What the buckets hold -/

/-- The buckets `Finish` writes: every restart index placed in the bucket of its hash. -/
def buckets (b : DataBlockHashIndexBuilder) : List UInt8 :=
  b.hashAndRestartPairs.foldl (placeInBucket b.numBuckets)
    (List.replicate b.numBuckets.toNat kNoEntry)

theorem finish_eq_buckets (b : DataBlockHashIndexBuilder) (buffer : Bytes) :
    b.finish buffer = buffer ++ b.buckets ++ encodeFixed16 b.numBuckets := rfl

/-- The bucket of a hash among `numBuckets`. -/
def bucketIndex (numBuckets : UInt16) (hash : UInt32) : Nat := (hash % numBuckets.toUInt32).toNat

theorem bucketIndex_lt {numBuckets : UInt16} (hn : numBuckets ≠ 0) (hash : UInt32) :
    bucketIndex numBuckets hash < numBuckets.toNat := by
  have hpos : 0 < numBuckets.toNat := by
    rcases Nat.eq_zero_or_pos numBuckets.toNat with h | h
    · exact absurd (UInt16.toNat_inj.mp (by simpa using h)) hn
    · exact h
  unfold bucketIndex
  rw [UInt32.toNat_mod, UInt16.toNat_toUInt32]
  exact Nat.mod_lt _ hpos

/-- `Finish` writes an odd number of buckets, so never none. -/
theorem numBuckets_ne_zero (b : DataBlockHashIndexBuilder) : b.numBuckets ≠ 0 := by
  intro h
  have htoNat := congrArg UInt16.toNat h
  unfold numBuckets at htoNat
  rw [UInt16.toNat_or] at htoNat
  simp [Nat.or_eq_zero_iff] at htoNat

/-- What the buckets say about the entries placed in them: each entry's bucket holds its restart
index or the collision mark, and a bucket holds nothing else than no entry, the collision mark, or
the restart index of an entry placed there. -/
structure BucketsHold (numBuckets : UInt16) (entries : List (UInt32 × UInt8)) (buckets : List UInt8) :
    Prop where
  length_eq : buckets.length = numBuckets.toNat
  placed : ∀ e ∈ entries, buckets.getD (bucketIndex numBuckets e.1) kNoEntry = e.2 ∨
    buckets.getD (bucketIndex numBuckets e.1) kNoEntry = kCollision
  cases : ∀ j, buckets.getD j kNoEntry = kNoEntry ∨ buckets.getD j kNoEntry = kCollision ∨
    ∃ e ∈ entries, bucketIndex numBuckets e.1 = j ∧ buckets.getD j kNoEntry = e.2

/-- A placement sets the entry's bucket to its restart index or to the collision mark. -/
theorem getD_placeInBucket (numBuckets : UInt16) (buckets : List UInt8) (entry : UInt32 × UInt8)
    (j : Nat) :
    (placeInBucket numBuckets buckets entry).getD j kNoEntry =
      if j = bucketIndex numBuckets entry.1 ∧ j < buckets.length then
        (if buckets.getD j kNoEntry = kNoEntry ∨ buckets.getD j kNoEntry = entry.2 then entry.2
          else kCollision)
      else buckets.getD j kNoEntry := by
  unfold placeInBucket bucketIndex
  simp only [List.getD_eq_getElem?_getD]
  by_cases hj : j = (entry.1 % numBuckets.toUInt32).toNat
  · -- the entry's own bucket: set when it is in range
    subst hj
    by_cases hlt : (entry.1 % numBuckets.toUInt32).toNat < buckets.length
    · simp only [hlt, and_self, if_true]
      split_ifs <;> simp_all
    · simp only [hlt, and_false, if_false]
      split_ifs <;> simp_all
  · have hj' : (entry.1 % numBuckets.toUInt32).toNat ≠ j := Ne.symm hj
    simp only [hj, false_and, if_false]
    split_ifs <;> simp only [List.getElem?_set, hj', if_false]

/-- Placing one more entry keeps what the buckets say, when no restart index is the mark of an
empty bucket. -/
theorem BucketsHold.place {numBuckets : UInt16} (hn : numBuckets ≠ 0)
    {entries : List (UInt32 × UInt8)} {buckets : List UInt8}
    (h : BucketsHold numBuckets entries buckets) {entry : UInt32 × UInt8}
    (hentry : entry.2 ≠ kNoEntry) (hold : ∀ e ∈ entries, e.2 ≠ kNoEntry) :
    BucketsHold numBuckets (entries ++ [entry]) (placeInBucket numBuckets buckets entry) := by
  have hlt : bucketIndex numBuckets entry.1 < buckets.length :=
    h.length_eq ▸ bucketIndex_lt hn entry.1
  refine ⟨(length_foldl_placeInBucket numBuckets [entry] buckets).trans h.length_eq, ?_, ?_⟩
  · intro e he
    rw [getD_placeInBucket]
    rcases List.mem_append.mp he with he | he
    · -- an entry placed before: its bucket held its index or the mark, and keeps one of them
      have hne := hold e he
      split
      · split
        · rename_i hkeep
          -- the bucket was not empty, so it held the index of the new entry or the mark
          rcases h.placed e he with hv | hv <;> rw [hv] at hkeep
          · exact Or.inl (hkeep.resolve_left hne).symm
          · rcases hkeep with hk | hk
            · exact absurd hk (by decide)
            · exact Or.inr hk.symm
        · exact Or.inr rfl
      · exact h.placed e he
    · rw [List.mem_singleton] at he
      subst he
      simp only [hlt, and_self, if_true]
      split <;> simp
  · intro j
    rw [getD_placeInBucket]
    split
    · rename_i hj
      split
      · exact Or.inr (Or.inr ⟨entry, by simp, hj.1.symm, rfl⟩)
      · exact Or.inr (Or.inl rfl)
    · rcases h.cases j with hj | hj | ⟨e, he, hidx, hval⟩
      · exact Or.inl hj
      · exact Or.inr (Or.inl hj)
      · exact Or.inr (Or.inr ⟨e, List.mem_append_left _ he, hidx, hval⟩)

/-- **What `Finish` writes in the buckets**, for restart indices that are not the mark of an
empty bucket. -/
theorem bucketsHold_foldl {numBuckets : UInt16} (hn : numBuckets ≠ 0)
    (entries : List (UInt32 × UInt8)) (hentries : ∀ e ∈ entries, e.2 ≠ kNoEntry) :
    BucketsHold numBuckets entries
      (entries.foldl (placeInBucket numBuckets) (List.replicate numBuckets.toNat kNoEntry)) := by
  -- the fold, from any prefix already placed
  have hfold : ∀ (rest done : List (UInt32 × UInt8)) (buckets : List UInt8),
      (∀ e ∈ done ++ rest, e.2 ≠ kNoEntry) → BucketsHold numBuckets done buckets →
      BucketsHold numBuckets (done ++ rest) (rest.foldl (placeInBucket numBuckets) buckets) := by
    intro rest
    induction rest with
    | nil =>
        intro done buckets _ h
        simpa using h
    | cons entry rest ih =>
        intro done buckets hall h
        rw [List.foldl_cons, List.append_cons]
        apply ih (done ++ [entry]) _ (by simpa using hall)
        exact h.place hn (hall entry (by simp))
          (fun e he => hall e (List.mem_append_left _ he))
  have hinit : BucketsHold numBuckets [] (List.replicate numBuckets.toNat kNoEntry) := by
    refine ⟨List.length_replicate, by simp, fun j => Or.inl ?_⟩
    simp only [List.getD_eq_getElem?_getD, List.getElem?_replicate]
    split <;> rfl
  simpa using hfold entries [] _ (by simpa using hentries) hinit

end DataBlockHashIndexBuilder

/-- `DataBlockHashIndex::Initialize(data, size, &map_offset)`: the number of buckets, read from
the two bytes before `size`, and the offset of the first bucket. -/
def DataBlockHashIndex.initializeFrom (data : Bytes) (size : UInt16) : UInt16 × UInt16 :=
  let numBuckets := decodeFixed16 (data.drop (size.toNat - 2))
  (numBuckets, size - 2 - numBuckets)

end Table

end RocksCloud
