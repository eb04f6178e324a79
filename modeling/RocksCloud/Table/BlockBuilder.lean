import Mathlib
import RocksCloud.Table.DataBlockHashIndex

/-!
# The builder of data blocks

`table/block_based/block_builder.cc` writes a block as a run of entries, the restart array and a
footer. An entry is three varints (the number of key bytes shared with the previous key, the
number of key bytes that follow, the value's length), the unshared key bytes and the value.
Every `block_restart_interval` entries a restart point stores a whole key, and the restart array
lists the offsets of the restart points as `uint32_t`s. With a hash index (`Finish` adds one
when the block stays within `kMaxBlockSizeSupportedByHashIndex`), the buckets follow the restart
array. The footer packs the index type into the top bit of the number of restarts
(`table/block_based/data_block_footer.cc`).

The builder here is the one of data blocks: values are not delta-encoded
(`use_value_delta_encoding` is false), so `Add` takes no `delta_value`.
-/

set_option autoImplicit false

namespace RocksCloud

namespace Util

/-- `Slice::difference_offset`: the length of the common prefix of two slices. -/
def differenceOffset : Bytes → Bytes → Nat
  | a :: as, b :: bs => if a = b then differenceOffset as bs + 1 else 0
  | _, _ => 0

/-- The common prefix is no longer than the first slice. -/
theorem differenceOffset_le_left (a b : Bytes) : differenceOffset a b ≤ a.length := by
  induction a generalizing b with
  | nil => cases b <;> simp [differenceOffset]
  | cons x xs ih =>
      cases b with
      | nil => simp [differenceOffset]
      | cons y ys =>
          simp only [differenceOffset, List.length_cons]
          split
          · have := ih ys
            omega
          · omega

/-- The two slices agree on their common prefix. -/
theorem take_differenceOffset (a b : Bytes) :
    a.take (differenceOffset a b) = b.take (differenceOffset a b) := by
  induction a generalizing b with
  | nil => cases b <;> simp [differenceOffset]
  | cons x xs ih =>
      cases b with
      | nil => simp [differenceOffset]
      | cons y ys =>
          simp only [differenceOffset]
          split
          · rename_i hxy
            rw [List.take_succ_cons, List.take_succ_cons, ih ys, hxy]
          · rfl

/-- `ExtractUserKey`: an internal key without its eight-byte trailer. -/
def extractUserKey (internalKey : Bytes) : Bytes := internalKey.take (internalKey.length - 8)

end Util

namespace Table

open RocksCloud.Util

/-! ## The footer -/

/-- `BlockBasedTableOptions::DataBlockIndexType`. -/
inductive DataBlockIndexType where
  | dataBlockBinarySearch
  | dataBlockBinaryAndHash
  deriving Repr, DecidableEq

/-- `kNumRestartsMask`: the low 31 bits. -/
def kNumRestartsMask : UInt32 := ((1 : UInt32) <<< 31) - 1

/-- `PackIndexTypeAndNumRestarts`: the hash index sets the top bit. -/
def packIndexTypeAndNumRestarts (indexType : DataBlockIndexType) (numRestarts : UInt32) :
    UInt32 :=
  match indexType with
  | .dataBlockBinaryAndHash => numRestarts ||| ((1 : UInt32) <<< 31)
  | .dataBlockBinarySearch => numRestarts

/-- `UnPackIndexTypeAndNumRestarts`. -/
def unPackIndexTypeAndNumRestarts (blockFooter : UInt32) : DataBlockIndexType × UInt32 :=
  (if blockFooter &&& ((1 : UInt32) <<< 31) ≠ 0 then .dataBlockBinaryAndHash
    else .dataBlockBinarySearch,
    blockFooter &&& kNumRestartsMask)

/-! ## The builder -/

/-- `BlockBuilder`, with its hash index builder. -/
structure BlockBuilder where
  blockRestartInterval : Nat
  useDeltaEncoding : Bool
  buffer : Bytes
  restarts : List UInt32
  estimate : Nat
  counter : Nat
  lastKey : Bytes
  dataBlockHashIndexBuilder : DataBlockHashIndexBuilder

namespace BlockBuilder

/-- The constructor: the first restart point is at offset `0`, and the estimate counts it and
the footer. -/
def new (blockRestartInterval : Nat) (useDeltaEncoding : Bool) (indexType : DataBlockIndexType)
    (dataBlockHashTableUtilRatio : Float) : BlockBuilder where
  blockRestartInterval := blockRestartInterval
  useDeltaEncoding := useDeltaEncoding
  buffer := []
  restarts := [0]
  estimate := 4 + 4
  counter := 0
  lastKey := []
  dataBlockHashIndexBuilder :=
    match indexType with
    | .dataBlockBinarySearch => .empty
    | .dataBlockBinaryAndHash => DataBlockHashIndexBuilder.empty.initializeWith
        dataBlockHashTableUtilRatio

/-- `CurrentSizeEstimate()`. -/
def currentSizeEstimate (b : BlockBuilder) : Nat :=
  b.estimate +
    if b.dataBlockHashIndexBuilder.isValid then b.dataBlockHashIndexBuilder.estimateSize else 0

/-- `Add(key, value)`. -/
def add (b : BlockBuilder) (key value : Bytes) : BlockBuilder :=
  -- a restart point, or the prefix shared with the last key
  let (b, shared) :=
    if b.counter ≥ b.blockRestartInterval then
      ({ b with
          restarts := b.restarts ++ [b.buffer.length.toUInt32]
          estimate := b.estimate + 4
          counter := 0
          lastKey := if b.useDeltaEncoding then key else b.lastKey }, 0)
    else if b.useDeltaEncoding then ({ b with lastKey := key }, differenceOffset key b.lastKey)
    else (b, 0)
  let nonShared := key.length - shared
  let currSize := b.buffer.length
  let buffer := putVarint32Varint32Varint32 b.buffer shared.toUInt32 nonShared.toUInt32
    value.length.toUInt32 ++ key.drop shared ++ value
  let hashIndex :=
    if b.dataBlockHashIndexBuilder.isValid then
      b.dataBlockHashIndexBuilder.add (extractUserKey key) (b.restarts.length - 1)
    else b.dataBlockHashIndexBuilder
  { b with
    buffer := buffer
    dataBlockHashIndexBuilder := hashIndex
    counter := b.counter + 1
    estimate := b.estimate + (buffer.length - currSize) }

/-- `Finish()`: the restart array, the hash index when it is valid and the block stays small
enough, and the footer. -/
def finish (b : BlockBuilder) : Bytes :=
  let buffer := b.restarts.foldl putFixed32 b.buffer
  let numRestarts := b.restarts.length.toUInt32
  let (buffer, indexType) :=
    if b.dataBlockHashIndexBuilder.isValid ∧
        b.currentSizeEstimate ≤ kMaxBlockSizeSupportedByHashIndex then
      (b.dataBlockHashIndexBuilder.finish buffer, DataBlockIndexType.dataBlockBinaryAndHash)
    else (buffer, DataBlockIndexType.dataBlockBinarySearch)
  putFixed32 buffer (packIndexTypeAndNumRestarts indexType numRestarts)

/-- `Add` of every pair, in order. -/
def addAll (b : BlockBuilder) (pairs : List (Bytes × Bytes)) : BlockBuilder :=
  pairs.foldl (fun b kv => b.add kv.1 kv.2) b

end BlockBuilder

end Table

end RocksCloud
