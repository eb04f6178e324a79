import Mathlib
import RocksCloud.Util.Coding

/-!
# The write batch of `db/write_batch.cc`

A `WriteBatch` is a byte string `rep_`: a 12-byte header (an 8-byte sequence number and a
4-byte count) followed by records. A record is a tag byte (a `ValueType`), the column family id
as a varint when it is not the default one (with the column family variant of the tag), and
length-prefixed slices: key and value for a put, a merge or a blob index, the key of a
deletion, the two ends of a range deletion, the blob of a `PutLogData`, the id of a transaction
marker. Every mutation but `PutLogData` adds one to the count, kept as an `int` in the
header's `uint32_t`.

Each mutation takes a `LocalSavePoint` first and commits it last: if the batch has a size limit
`max_bytes_` and the mutation went over it, the batch is put back as it was and the mutation
returns `MemoryLimit`. `Iterate` reads the records back with `ReadRecordFromWriteBatch` and
hands each to a `Handler`, counts the ones that the count covers, and checks the total against
the header.

The handler here records the calls it receives, answers `OK` to all of them, never stops the
iteration, and keeps the defaults `WriteAfterCommit() = true`, `WriteBeforePrepare() = false`;
it never answers `TryAgain`, so that branch of `Iterate` is not modelled. Timestamps
(`timestamp_size_`) are zero, as for a batch from the default constructor, and save points
other than the `LocalSavePoint` of each mutation are not modelled.

Signed overflow of an `int` is undefined behaviour; where it can happen (the count plus one,
the sum of two counts, the number of records found by `Iterate`) the model returns an error.
An `assert` that fails is an error too.
-/

set_option autoImplicit false

namespace RocksCloud.Db

open RocksCloud.Util

/-- `ValueType` of `db/dbformat.h`, as far as a write batch uses it. -/
inductive ValueType where
  | typeDeletion
  | typeValue
  | typeMerge
  | typeLogData
  | typeColumnFamilyDeletion
  | typeColumnFamilyValue
  | typeColumnFamilyMerge
  | typeSingleDeletion
  | typeColumnFamilySingleDeletion
  | typeBeginPrepareXID
  | typeEndPrepareXID
  | typeCommitXID
  | typeRollbackXID
  | typeNoop
  | typeColumnFamilyRangeDeletion
  | typeRangeDeletion
  | typeColumnFamilyBlobIndex
  | typeBlobIndex
  | typeBeginPersistedPrepareXID
  | typeBeginUnprepareXID
  deriving Repr, DecidableEq

/-- The byte of each `ValueType`. -/
def ValueType.toByte : ValueType → UInt8
  | typeDeletion => 0x0
  | typeValue => 0x1
  | typeMerge => 0x2
  | typeLogData => 0x3
  | typeColumnFamilyDeletion => 0x4
  | typeColumnFamilyValue => 0x5
  | typeColumnFamilyMerge => 0x6
  | typeSingleDeletion => 0x7
  | typeColumnFamilySingleDeletion => 0x8
  | typeBeginPrepareXID => 0x9
  | typeEndPrepareXID => 0xA
  | typeCommitXID => 0xB
  | typeRollbackXID => 0xC
  | typeNoop => 0xD
  | typeColumnFamilyRangeDeletion => 0xE
  | typeRangeDeletion => 0xF
  | typeColumnFamilyBlobIndex => 0x10
  | typeBlobIndex => 0x11
  | typeBeginPersistedPrepareXID => 0x12
  | typeBeginUnprepareXID => 0x13

/-- The `ValueType` a tag byte stands for, if any. -/
def ValueType.ofByte (b : UInt8) : Option ValueType :=
  [typeDeletion, typeValue, typeMerge, typeLogData, typeColumnFamilyDeletion,
    typeColumnFamilyValue, typeColumnFamilyMerge, typeSingleDeletion,
    typeColumnFamilySingleDeletion, typeBeginPrepareXID, typeEndPrepareXID, typeCommitXID,
    typeRollbackXID, typeNoop, typeColumnFamilyRangeDeletion, typeRangeDeletion,
    typeColumnFamilyBlobIndex, typeBlobIndex, typeBeginPersistedPrepareXID,
    typeBeginUnprepareXID].find? fun t => t.toByte == b

/-- `Status`, with the codes the modelled functions return. -/
inductive Status where
  | ok
  | invalidArgument (msg : String)
  | corruption (msg : String)
  | notSupported (msg : String)
  | memoryLimit
  | notFound
  | mergeInProgress
  deriving Repr, DecidableEq

/-! ## Header, count and content flags -/

/-- `WriteBatchInternal::kHeader`: 8-byte sequence number and 4-byte count. -/
def kHeader : Nat := 12

/-- `port::kMaxUint32`. -/
def kMaxUint32 : Nat := 2 ^ 32 - 1

/-- The `int` that a `uint32_t` converts to (two's complement). -/
def toInt32 (v : UInt32) : Int := if v.toNat < 2 ^ 31 then v.toNat else v.toNat - 2 ^ 32

/-- The `uint32_t` that an `int` converts to (modulo `2^32`). -/
def ofInt32 (n : Int) : UInt32 := (n % 2 ^ 32).toNat.toUInt32

/-- The sum of two `int`s; overflow is undefined behaviour. -/
def addInt (a b : Int) : Except String Int :=
  if -2 ^ 31 ≤ a + b ∧ a + b < 2 ^ 31 then .ok (a + b) else .error "signed integer overflow"

/-- `ContentFlags`: which kinds of record a batch holds, or `DEFERRED` when unknown. -/
def ContentFlags.deferred : UInt32 := (1 : UInt32) <<< 0
/-- `ContentFlags::HAS_PUT`. -/
def ContentFlags.hasPut : UInt32 := (1 : UInt32) <<< 1
/-- `ContentFlags::HAS_DELETE`. -/
def ContentFlags.hasDelete : UInt32 := (1 : UInt32) <<< 2
/-- `ContentFlags::HAS_SINGLE_DELETE`. -/
def ContentFlags.hasSingleDelete : UInt32 := (1 : UInt32) <<< 3
/-- `ContentFlags::HAS_MERGE`. -/
def ContentFlags.hasMerge : UInt32 := (1 : UInt32) <<< 4
/-- `ContentFlags::HAS_BEGIN_PREPARE`. -/
def ContentFlags.hasBeginPrepare : UInt32 := (1 : UInt32) <<< 5
/-- `ContentFlags::HAS_END_PREPARE`. -/
def ContentFlags.hasEndPrepare : UInt32 := (1 : UInt32) <<< 6
/-- `ContentFlags::HAS_COMMIT`. -/
def ContentFlags.hasCommit : UInt32 := (1 : UInt32) <<< 7
/-- `ContentFlags::HAS_ROLLBACK`. -/
def ContentFlags.hasRollback : UInt32 := (1 : UInt32) <<< 8
/-- `ContentFlags::HAS_DELETE_RANGE`. -/
def ContentFlags.hasDeleteRange : UInt32 := (1 : UInt32) <<< 9
/-- `ContentFlags::HAS_BLOB_INDEX`. -/
def ContentFlags.hasBlobIndex : UInt32 := (1 : UInt32) <<< 10
/-- `ContentFlags::HAS_BEGIN_UNPREPARE`. -/
def ContentFlags.hasBeginUnprepare : UInt32 := (1 : UInt32) <<< 11

/-- `SavePoint`: the size of `rep_`, the count and the content flags at some point. -/
structure SavePoint where
  size : Nat
  count : Int
  contentFlags : UInt32
  deriving Repr, DecidableEq

/-- `SavePoint::is_cleared`. -/
def SavePoint.isCleared (p : SavePoint) : Bool :=
  p.size = 0 ∧ p.count = 0 ∧ p.contentFlags = 0

/-- `WriteBatch`. Its `rep_` always holds the header. -/
structure WriteBatch where
  rep : Bytes
  contentFlags : UInt32
  maxBytes : Nat
  walTermPoint : SavePoint
  header_le : kHeader ≤ rep.length

/-- `WriteBatch(reserved_bytes, max_bytes)`: a zeroed header and no records. -/
def WriteBatch.new (maxBytes : Nat) : WriteBatch :=
  ⟨List.replicate kHeader 0, 0, maxBytes, ⟨0, 0, 0⟩, by simp⟩

/-- `WriteBatchInternal::Count`: the header's count as an `int`. -/
def WriteBatchInternal.count (b : WriteBatch) : Int := toInt32 (decodeFixed32 (b.rep.drop 8))

/-- `WriteBatchInternal::SetCount`. -/
def WriteBatchInternal.setCount (b : WriteBatch) (n : Int) : WriteBatch :=
  { b with
    rep := b.rep.take 8 ++ encodeFixed32 (ofInt32 n) ++ b.rep.drop 12
    header_le := by
      have := b.header_le
      simp only [kHeader] at this ⊢
      simp only [List.length_append, List.length_take, encodeFixed32_length, List.length_drop]
      omega }

/-- Bytes appended to `rep_`. -/
def WriteBatch.appendRep (b : WriteBatch) (bytes : Bytes) : WriteBatch :=
  { b with
    rep := b.rep ++ bytes
    header_le := by
      have := b.header_le
      simp only [List.length_append]
      omega }

/-- `LocalSavePoint`: the size, count and flags of the batch before a mutation. -/
def WriteBatch.localSavePoint (b : WriteBatch) : SavePoint :=
  ⟨b.rep.length, WriteBatchInternal.count b, b.contentFlags⟩

/-- `LocalSavePoint::commit`: over the size limit, `rep_` is cut back to the save point's size
(`resize`), and the count and flags are put back. -/
def WriteBatch.commit (b : WriteBatch) (savepoint : SavePoint) (hsize : kHeader ≤ savepoint.size) :
    Status × WriteBatch :=
  if b.maxBytes ≠ 0 ∧ b.rep.length > b.maxBytes then
    let resized : WriteBatch :=
      { b with
        rep := b.rep.take savepoint.size ++ List.replicate (savepoint.size - b.rep.length) 0
        header_le := by
          simp only [List.length_append, List.length_take, List.length_replicate]
          omega }
    (.memoryLimit,
      { WriteBatchInternal.setCount resized savepoint.count with
        contentFlags := savepoint.contentFlags })
  else (.ok, b)

/-! ## Mutations -/

/-- The body shared by `WriteBatchInternal::Put`, `Delete`, `SingleDelete`, `DeleteRange`,
`Merge` and `PutBlobIndex`, in their `Slice` and `SliceParts` forms: a save point, the count
one up, the tag (the column family one followed by the id when the id is not `0`), the
`fields` the mutation writes, and its content flag. -/
def WriteBatch.addCounted (b : WriteBatch) (columnFamilyId : UInt32) (tag cfTag : ValueType)
    (fields : Bytes) (flag : UInt32) : Except String (Status × WriteBatch) := do
  let savepoint := b.localSavePoint
  let count ← addInt (WriteBatchInternal.count b) 1
  let tagBytes : Bytes :=
    if columnFamilyId = 0 then [tag.toByte] else putVarint32 [cfTag.toByte] columnFamilyId
  let b' := ((WriteBatchInternal.setCount b count).appendRep (tagBytes ++ fields))
  pure ({ b' with contentFlags := b'.contentFlags ||| flag }.commit savepoint b.header_le)

/-- `WriteBatchInternal::CheckSlicePartsLength`. -/
def checkSlicePartsLength (key value : List Bytes) : Status :=
  if (key.map List.length).sum ≥ kMaxUint32 then .invalidArgument "key is too large"
  else if (value.map List.length).sum ≥ kMaxUint32 then .invalidArgument "value is too large"
  else .ok

/-- `WriteBatchInternal::Put` with `Slice`s. -/
def WriteBatchInternal.put (b : WriteBatch) (columnFamilyId : UInt32) (key value : Bytes) :
    Except String (Status × WriteBatch) :=
  if key.length > kMaxUint32 then .ok (.invalidArgument "key is too large", b)
  else if value.length > kMaxUint32 then .ok (.invalidArgument "value is too large", b)
  else b.addCounted columnFamilyId .typeValue .typeColumnFamilyValue
    (putLengthPrefixedSlice (putLengthPrefixedSlice [] key) value) ContentFlags.hasPut

/-- `WriteBatchInternal::Put` with `SliceParts`. -/
def WriteBatchInternal.putParts (b : WriteBatch) (columnFamilyId : UInt32)
    (key value : List Bytes) : Except String (Status × WriteBatch) :=
  match checkSlicePartsLength key value with
  | .ok => b.addCounted columnFamilyId .typeValue .typeColumnFamilyValue
      (putLengthPrefixedSliceParts (putLengthPrefixedSliceParts [] key) value) ContentFlags.hasPut
  | s => .ok (s, b)

/-- `WriteBatchInternal::Delete` with a `Slice`. -/
def WriteBatchInternal.delete (b : WriteBatch) (columnFamilyId : UInt32) (key : Bytes) :
    Except String (Status × WriteBatch) :=
  b.addCounted columnFamilyId .typeDeletion .typeColumnFamilyDeletion
    (putLengthPrefixedSlice [] key) ContentFlags.hasDelete

/-- `WriteBatchInternal::Delete` with `SliceParts`. -/
def WriteBatchInternal.deleteParts (b : WriteBatch) (columnFamilyId : UInt32)
    (key : List Bytes) : Except String (Status × WriteBatch) :=
  b.addCounted columnFamilyId .typeDeletion .typeColumnFamilyDeletion
    (putLengthPrefixedSliceParts [] key) ContentFlags.hasDelete

/-- `WriteBatchInternal::SingleDelete` with a `Slice`. -/
def WriteBatchInternal.singleDelete (b : WriteBatch) (columnFamilyId : UInt32) (key : Bytes) :
    Except String (Status × WriteBatch) :=
  b.addCounted columnFamilyId .typeSingleDeletion .typeColumnFamilySingleDeletion
    (putLengthPrefixedSlice [] key) ContentFlags.hasSingleDelete

/-- `WriteBatchInternal::SingleDelete` with `SliceParts`. -/
def WriteBatchInternal.singleDeleteParts (b : WriteBatch) (columnFamilyId : UInt32)
    (key : List Bytes) : Except String (Status × WriteBatch) :=
  b.addCounted columnFamilyId .typeSingleDeletion .typeColumnFamilySingleDeletion
    (putLengthPrefixedSliceParts [] key) ContentFlags.hasSingleDelete

/-- `WriteBatchInternal::DeleteRange` with `Slice`s. -/
def WriteBatchInternal.deleteRange (b : WriteBatch) (columnFamilyId : UInt32)
    (beginKey endKey : Bytes) : Except String (Status × WriteBatch) :=
  b.addCounted columnFamilyId .typeRangeDeletion .typeColumnFamilyRangeDeletion
    (putLengthPrefixedSlice (putLengthPrefixedSlice [] beginKey) endKey)
    ContentFlags.hasDeleteRange

/-- `WriteBatchInternal::DeleteRange` with `SliceParts`. -/
def WriteBatchInternal.deleteRangeParts (b : WriteBatch) (columnFamilyId : UInt32)
    (beginKey endKey : List Bytes) : Except String (Status × WriteBatch) :=
  b.addCounted columnFamilyId .typeRangeDeletion .typeColumnFamilyRangeDeletion
    (putLengthPrefixedSliceParts (putLengthPrefixedSliceParts [] beginKey) endKey)
    ContentFlags.hasDeleteRange

/-- `WriteBatchInternal::Merge` with `Slice`s. -/
def WriteBatchInternal.merge (b : WriteBatch) (columnFamilyId : UInt32) (key value : Bytes) :
    Except String (Status × WriteBatch) :=
  if key.length > kMaxUint32 then .ok (.invalidArgument "key is too large", b)
  else if value.length > kMaxUint32 then .ok (.invalidArgument "value is too large", b)
  else b.addCounted columnFamilyId .typeMerge .typeColumnFamilyMerge
    (putLengthPrefixedSlice (putLengthPrefixedSlice [] key) value) ContentFlags.hasMerge

/-- `WriteBatchInternal::Merge` with `SliceParts`. -/
def WriteBatchInternal.mergeParts (b : WriteBatch) (columnFamilyId : UInt32)
    (key value : List Bytes) : Except String (Status × WriteBatch) :=
  match checkSlicePartsLength key value with
  | .ok => b.addCounted columnFamilyId .typeMerge .typeColumnFamilyMerge
      (putLengthPrefixedSliceParts (putLengthPrefixedSliceParts [] key) value)
      ContentFlags.hasMerge
  | s => .ok (s, b)

/-- `WriteBatchInternal::PutBlobIndex`. -/
def WriteBatchInternal.putBlobIndex (b : WriteBatch) (columnFamilyId : UInt32)
    (key value : Bytes) : Except String (Status × WriteBatch) :=
  b.addCounted columnFamilyId .typeBlobIndex .typeColumnFamilyBlobIndex
    (putLengthPrefixedSlice (putLengthPrefixedSlice [] key) value) ContentFlags.hasBlobIndex

/-- `WriteBatch::PutLogData`: a record the count does not cover. -/
def WriteBatch.putLogData (b : WriteBatch) (blob : Bytes) : Status × WriteBatch :=
  (b.appendRep (putLengthPrefixedSlice [ValueType.typeLogData.toByte] blob)).commit
    b.localSavePoint b.header_le

/-- `WriteBatch::MarkWalTerminationPoint`. -/
def WriteBatch.markWalTerminationPoint (b : WriteBatch) : WriteBatch :=
  { b with walTermPoint := ⟨b.rep.length, WriteBatchInternal.count b, b.contentFlags⟩ }

/-- `WriteBatchInternal::Append(dst, src, wal_only)`: the records of `src`, or those up to its
termination point, go after those of `dst`, and the counts add up. -/
def WriteBatchInternal.append (dst src : WriteBatch) (walOnly : Bool) :
    Except String WriteBatch := do
  let batchEnd := src.walTermPoint
  let (srcLen, srcCount, srcFlags) :=
    if walOnly ∧ !batchEnd.isCleared then
      (batchEnd.size - kHeader, batchEnd.count, batchEnd.contentFlags)
    else (src.rep.length - kHeader, WriteBatchInternal.count src, src.contentFlags)
  let count ← addInt (WriteBatchInternal.count dst) srcCount
  let dst := (WriteBatchInternal.setCount dst count).appendRep ((src.rep.drop kHeader).take srcLen)
  pure { dst with contentFlags := dst.contentFlags ||| srcFlags }

/-! ## Reading the records back -/

/-- The column family id, when the record has one, and `fieldCount` length-prefixed slices, or
`Corruption(msg)`. -/
def readFields (withColumnFamily : Bool) (fieldCount : Nat) (msg : String) (input : Bytes) :
    Except Status (UInt32 × List Bytes × Bytes) := do
  let (columnFamily, input) ← if withColumnFamily then
      match getVarint32 input with
      | some (cf, rest) => pure (cf, rest)
      | none => throw (.corruption msg)
    else pure (0, input)
  let rec slices : Nat → Bytes → Except Status (List Bytes × Bytes)
    | 0, input => pure ([], input)
    | n + 1, input =>
        match getLengthPrefixedSlice input with
        | some (s, rest) => do
            let (ss, rest) ← slices n rest
            pure (s :: ss, rest)
        | none => throw (.corruption msg)
  let (fields, input) ← slices fieldCount input
  pure (columnFamily, fields, input)

/-- `ReadRecordFromWriteBatch` after the tag byte `tag`: the record's type, column family and
slices (key and value, begin and end key, blob or xid), and the input after it. -/
def readRecordFromWriteBatch (tag : UInt8) (input : Bytes) :
    Except Status (ValueType × UInt32 × List Bytes × Bytes) := do
  let some t := ValueType.ofByte tag | throw (.corruption "unknown WriteBatch tag")
  let (columnFamily, fields, input) ← match t with
    | .typeColumnFamilyValue => readFields true 2 "bad WriteBatch Put" input
    | .typeValue => readFields false 2 "bad WriteBatch Put" input
    | .typeColumnFamilyDeletion | .typeColumnFamilySingleDeletion =>
        readFields true 1 "bad WriteBatch Delete" input
    | .typeDeletion | .typeSingleDeletion => readFields false 1 "bad WriteBatch Delete" input
    | .typeColumnFamilyRangeDeletion => readFields true 2 "bad WriteBatch DeleteRange" input
    | .typeRangeDeletion => readFields false 2 "bad WriteBatch DeleteRange" input
    | .typeColumnFamilyMerge => readFields true 2 "bad WriteBatch Merge" input
    | .typeMerge => readFields false 2 "bad WriteBatch Merge" input
    | .typeColumnFamilyBlobIndex => readFields true 2 "bad WriteBatch BlobIndex" input
    | .typeBlobIndex => readFields false 2 "bad WriteBatch BlobIndex" input
    | .typeLogData => readFields false 1 "bad WriteBatch Blob" input
    | .typeNoop | .typeBeginPrepareXID | .typeBeginPersistedPrepareXID
    | .typeBeginUnprepareXID => pure (0, [], input)
    | .typeEndPrepareXID => readFields false 1 "bad EndPrepare XID" input
    | .typeCommitXID => readFields false 1 "bad Commit XID" input
    | .typeRollbackXID => readFields false 1 "bad Rollback XID" input
  pure (t, columnFamily, fields, input)

/-- A call the handler receives from `Iterate`. -/
inductive HandlerCall where
  | putCF (columnFamilyId : UInt32) (key value : Bytes)
  | deleteCF (columnFamilyId : UInt32) (key : Bytes)
  | singleDeleteCF (columnFamilyId : UInt32) (key : Bytes)
  | deleteRangeCF (columnFamilyId : UInt32) (beginKey endKey : Bytes)
  | mergeCF (columnFamilyId : UInt32) (key value : Bytes)
  | putBlobIndexCF (columnFamilyId : UInt32) (key value : Bytes)
  | logData (blob : Bytes)
  | markBeginPrepare (unprepared : Bool)
  | markEndPrepare (xid : Bytes)
  | markCommit (xid : Bytes)
  | markRollback (xid : Bytes)
  | markNoop (emptyBatch : Bool)
  deriving Repr, DecidableEq

/-- What the `while` loop of `Iterate` carries from one record to the next. -/
structure IterateState where
  emptyBatch : Bool
  found : Int
  calls : List HandlerCall
  deriving Repr, DecidableEq

/-- A counted record was handed over: `found++`, undefined past `INT_MAX`. -/
def IterateState.count (st : IterateState) (call : HandlerCall) :
    Except String IterateState := do
  let found ← addInt st.found 1
  pure ⟨false, found, st.calls ++ [call]⟩

/-- `assert(content_flags_ & (DEFERRED | flag))`. -/
def assertFlag (contentFlags flag : UInt32) : Except String Unit :=
  if contentFlags &&& (ContentFlags.deferred ||| flag) = 0 then .error "assertion failed"
  else pure ()

/-- The `switch (tag)` of `Iterate` for one record: the state after it, or the status that ends
the loop. -/
def iterateRecord (contentFlags : UInt32) (st : IterateState) (t : ValueType)
    (columnFamily : UInt32) (fields : List Bytes) :
    Except String (Status × IterateState) := do
  let key := fields.getD 0 []
  let value := fields.getD 1 []
  match t with
  | .typeColumnFamilyValue | .typeValue => do
      assertFlag contentFlags ContentFlags.hasPut
      pure (.ok, ← st.count (.putCF columnFamily key value))
  | .typeColumnFamilyDeletion | .typeDeletion => do
      assertFlag contentFlags ContentFlags.hasDelete
      pure (.ok, ← st.count (.deleteCF columnFamily key))
  | .typeColumnFamilySingleDeletion | .typeSingleDeletion => do
      assertFlag contentFlags ContentFlags.hasSingleDelete
      pure (.ok, ← st.count (.singleDeleteCF columnFamily key))
  | .typeColumnFamilyRangeDeletion | .typeRangeDeletion => do
      assertFlag contentFlags ContentFlags.hasDeleteRange
      pure (.ok, ← st.count (.deleteRangeCF columnFamily key value))
  | .typeColumnFamilyMerge | .typeMerge => do
      assertFlag contentFlags ContentFlags.hasMerge
      pure (.ok, ← st.count (.mergeCF columnFamily key value))
  | .typeColumnFamilyBlobIndex | .typeBlobIndex => do
      assertFlag contentFlags ContentFlags.hasBlobIndex
      -- a blob index is counted but leaves `empty_batch` as it is
      let found ← addInt st.found 1
      pure (.ok, ⟨st.emptyBatch, found, st.calls ++ [.putBlobIndexCF columnFamily key value]⟩)
  | .typeLogData =>
      -- the blob is the one slice of the record
      pure (.ok, ⟨false, st.found, st.calls ++ [.logData key]⟩)
  | .typeBeginPrepareXID => do
      assertFlag contentFlags ContentFlags.hasBeginPrepare
      pure (.ok, ⟨false, st.found, st.calls ++ [.markBeginPrepare false]⟩)
  | .typeBeginPersistedPrepareXID => do
      assertFlag contentFlags ContentFlags.hasBeginPrepare
      -- `WriteAfterCommit()` holds, so this tag is not supported
      pure (.notSupported ("WritePrepared/WriteUnprepared txn tag when write_after_commit_ " ++
          "is enabled (in default WriteCommitted mode). If it is not due to corruption, the " ++
          "WAL must be emptied before changing the WritePolicy."),
        ⟨false, st.found, st.calls ++ [.markBeginPrepare false]⟩)
  | .typeBeginUnprepareXID => do
      assertFlag contentFlags ContentFlags.hasBeginUnprepare
      -- both checks fail; the second message is the one returned
      pure (.notSupported ("WriteUnprepared txn tag when write_before_prepare_ is disabled " ++
          "(in WriteCommitted/WritePrepared mode). If it is not due to corruption, the WAL " ++
          "must be emptied before changing the WritePolicy."),
        ⟨false, st.found, st.calls ++ [.markBeginPrepare true]⟩)
  | .typeEndPrepareXID => do
      assertFlag contentFlags ContentFlags.hasEndPrepare
      pure (.ok, ⟨true, st.found, st.calls ++ [.markEndPrepare key]⟩)
  | .typeCommitXID => do
      assertFlag contentFlags ContentFlags.hasCommit
      pure (.ok, ⟨true, st.found, st.calls ++ [.markCommit key]⟩)
  | .typeRollbackXID => do
      assertFlag contentFlags ContentFlags.hasRollback
      pure (.ok, ⟨true, st.found, st.calls ++ [.markRollback key]⟩)
  | .typeNoop => pure (.ok, ⟨true, st.found, st.calls ++ [.markNoop st.emptyBatch]⟩)

/-- The `while` loop of `Iterate` over the records in `input`; every turn reads at least the
tag byte, so `input.length` turns are enough. The status is `OK` when the input ran out. -/
def iterateLoop (contentFlags : UInt32) : Nat → Bytes → IterateState →
    Except String (Status × IterateState)
  | 0, _, st => pure (.ok, st)
  | _ + 1, [], st => pure (.ok, st)
  | fuel + 1, tag :: input, st =>
      match readRecordFromWriteBatch tag input with
      | .error s => pure (s, st)
      | .ok (t, columnFamily, fields, input) => do
          let (s, st) ← iterateRecord contentFlags st t columnFamily fields
          if s = .ok then iterateLoop contentFlags fuel input st else pure (s, st)

/-- `WriteBatch::Iterate` with the recording handler: the status and the calls handed over. -/
def WriteBatch.iterate (b : WriteBatch) : Except String (Status × List HandlerCall) := do
  if b.rep.length < kHeader then
    return (.corruption "malformed WriteBatch (too small)", [])
  let input := b.rep.drop kHeader
  let (s, st) ← iterateLoop b.contentFlags input.length input ⟨true, 0, []⟩
  if s ≠ .ok then return (s, st.calls)
  if st.found ≠ WriteBatchInternal.count b then
    return (.corruption "WriteBatch has wrong count", st.calls)
  return (.ok, st.calls)

end RocksCloud.Db
