import Mathlib
import RocksCloud.Db.WriteBatchRoundTrip

/-!
# The content flags of a write batch

A batch keeps `content_flags_`, the kinds of record it holds, up to date as it is built: every
mutation or-s in the flag of its kind, `MarkEndPrepare`, `MarkCommit` and `MarkRollback` or-in
their markers, and `Append` or-s in the flags of the source. `SetContents` cannot know the kinds
and sets `DEFERRED`; `ComputeContentFlags` then runs `Iterate` with a `BatchContentClassifier`,
which or-s in the flag of each call it receives, and stores what it finds. `HasPut()` and its
siblings read one flag of `ComputeContentFlags()`.

`MarkEndPrepare` turns the `Noop` that starts the batch of a transaction into the begin marker
of its write policy: `BeginPrepareXID` when the transaction writes after commit
(`WriteCommitted`), else `BeginUnprepareXID` for an unprepared batch and
`BeginPersistedPrepareXID` otherwise (`WritePrepared`). The classifier keeps the defaults of
`WriteBatch::Handler`, among them `WriteAfterCommit() = true`, so `Iterate` stops with
`NotSupported` at either of the last two markers, and the classifier never hears of the
records after it.
-/

set_option autoImplicit false

namespace RocksCloud.Db

open RocksCloud.Util

/-! ## The classifier -/

/-- The flag `BatchContentClassifier` or-s in for a call it receives. -/
def HandlerCall.contentFlag : HandlerCall → UInt32
  | .putCF .. => ContentFlags.hasPut
  | .deleteCF .. => ContentFlags.hasDelete
  | .singleDeleteCF .. => ContentFlags.hasSingleDelete
  | .deleteRangeCF .. => ContentFlags.hasDeleteRange
  | .mergeCF .. => ContentFlags.hasMerge
  | .putBlobIndexCF .. => ContentFlags.hasBlobIndex
  | .markBeginPrepare unprepare =>
      ContentFlags.hasBeginPrepare ||| if unprepare then ContentFlags.hasBeginUnprepare else 0
  | .markEndPrepare _ => ContentFlags.hasEndPrepare
  | .markCommit _ => ContentFlags.hasCommit
  | .markRollback _ => ContentFlags.hasRollback
  | .logData _ | .markNoop _ => 0

/-- `BatchContentClassifier::content_flags` after the calls, from `0`. -/
def batchContentClassifier (calls : List HandlerCall) : UInt32 :=
  calls.foldl (fun flags call => flags ||| call.contentFlag) 0

/-- `ComputeContentFlags()`: the flags, or, when `DEFERRED` is set, those the classifier finds
by `Iterate`, whose status is ignored; they are stored in the batch. -/
def WriteBatch.computeContentFlags (b : WriteBatch) : Except String (UInt32 × WriteBatch) := do
  if b.contentFlags &&& ContentFlags.deferred ≠ 0 then
    let (_, calls) ← b.iterate
    let flags := batchContentClassifier calls
    return (flags, { b with contentFlags := flags })
  else return (b.contentFlags, b)

/-- The body shared by `HasPut()` and its siblings: `(ComputeContentFlags() & flag) != 0`. -/
def WriteBatch.hasContent (b : WriteBatch) (flag : UInt32) : Except String (Bool × WriteBatch) := do
  let (flags, b) ← b.computeContentFlags
  return (flags &&& flag ≠ 0, b)

/-- `HasPut()`. -/
def WriteBatch.hasPut (b : WriteBatch) := b.hasContent ContentFlags.hasPut

/-- `HasDelete()`. -/
def WriteBatch.hasDelete (b : WriteBatch) := b.hasContent ContentFlags.hasDelete

/-- `HasSingleDelete()`. -/
def WriteBatch.hasSingleDelete (b : WriteBatch) := b.hasContent ContentFlags.hasSingleDelete

/-- `HasDeleteRange()`. -/
def WriteBatch.hasDeleteRange (b : WriteBatch) := b.hasContent ContentFlags.hasDeleteRange

/-- `HasMerge()`. -/
def WriteBatch.hasMerge (b : WriteBatch) := b.hasContent ContentFlags.hasMerge

/-- `HasBeginPrepare()`. -/
def WriteBatch.hasBeginPrepare (b : WriteBatch) := b.hasContent ContentFlags.hasBeginPrepare

/-- `HasEndPrepare()`. -/
def WriteBatch.hasEndPrepare (b : WriteBatch) := b.hasContent ContentFlags.hasEndPrepare

/-- `HasCommit()`. -/
def WriteBatch.hasCommit (b : WriteBatch) := b.hasContent ContentFlags.hasCommit

/-- `HasRollback()`. -/
def WriteBatch.hasRollback (b : WriteBatch) := b.hasContent ContentFlags.hasRollback

/-! ## Contents and transaction markers -/

/-- `WriteBatchInternal::SetContents`: the contents, which must hold a header, become `rep_`,
and the flags are `DEFERRED`. -/
def WriteBatchInternal.setContents (b : WriteBatch) (contents : Bytes) : Except String WriteBatch :=
  if h : kHeader ≤ contents.length then
    pure { b with rep := contents, contentFlags := ContentFlags.deferred, header_le := h }
  else throw "assertion failed"

/-- `WriteBatchInternal::InsertNoop`. -/
def WriteBatchInternal.insertNoop (b : WriteBatch) : WriteBatch :=
  b.appendRep [ValueType.typeNoop.toByte]

/-- `WriteBatchInternal::MarkEndPrepare(b, xid, write_after_commit, unprepared_batch)`: the
`Noop` after the header becomes the begin marker, the end marker follows the records, and the
save points are all dropped: the stack after it is empty. -/
def WriteBatchInternal.markEndPrepare (b : WriteBatch) (xid : Bytes)
    (writeAfterCommit unpreparedBatch : Bool) : Except String (WriteBatch × List SavePoint) := do
  -- `assert(b->rep_[12] == kTypeNoop)`; `rep_[size()]` is the terminating `'\0'`
  if b.rep.getD kHeader 0 ≠ ValueType.typeNoop.toByte then throw "assertion failed"
  let tag : ValueType :=
    if writeAfterCommit then .typeBeginPrepareXID
    else if unpreparedBatch then .typeBeginUnprepareXID
    else .typeBeginPersistedPrepareXID
  let marked : WriteBatch :=
    { b with
      rep := b.rep.set kHeader tag.toByte
      header_le := by simpa using b.header_le }
  let b := marked.appendRep (putLengthPrefixedSlice [ValueType.typeEndPrepareXID.toByte] xid)
  let flags := b.contentFlags ||| ContentFlags.hasEndPrepare ||| ContentFlags.hasBeginPrepare
  let flags := if unpreparedBatch then flags ||| ContentFlags.hasBeginUnprepare else flags
  return ({ b with contentFlags := flags }, [])

/-- The body shared by `MarkCommit` and `MarkRollback`: the marker and the xid are appended and
the marker's flag is set. -/
def WriteBatchInternal.markXid (b : WriteBatch) (tag : ValueType) (flag : UInt32) (xid : Bytes) :
    WriteBatch :=
  let b := b.appendRep (putLengthPrefixedSlice [tag.toByte] xid)
  { b with contentFlags := b.contentFlags ||| flag }

/-- `WriteBatchInternal::MarkCommit(b, xid)`. -/
def WriteBatchInternal.markCommit (b : WriteBatch) (xid : Bytes) : WriteBatch :=
  WriteBatchInternal.markXid b .typeCommitXID ContentFlags.hasCommit xid

/-- `WriteBatchInternal::MarkRollback(b, xid)`. -/
def WriteBatchInternal.markRollback (b : WriteBatch) (xid : Bytes) : WriteBatch :=
  WriteBatchInternal.markXid b .typeRollbackXID ContentFlags.hasRollback xid

/-! ## A prepared batch hides its records from the classifier -/


/-- A counted mutation on a batch without a size limit: the count one up, the record appended and
the flag set. -/
theorem addCounted_of_unlimited (b : WriteBatch) (cf : UInt32) (tag cfTag : ValueType)
    (fields : Bytes) (flag : UInt32) {n : Int} (hadd : addInt (WriteBatchInternal.count b) 1 = .ok n)
    (h : b.maxBytes = 0) :
    b.addCounted cf tag cfTag fields flag =
      .ok (.ok, { (WriteBatchInternal.setCount b n).appendRep
          ((if cf = 0 then [tag.toByte] else putVarint32 [cfTag.toByte] cf) ++ fields) with
        contentFlags := b.contentFlags ||| flag }) := by
  unfold WriteBatch.addCounted
  rw [hadd]
  dsimp only [bind, Except.bind, pure, Except.pure]
  exact congrArg Except.ok (commit_of_unlimited _ _ _ h)

/-- What `MarkEndPrepare` does to a batch that starts with a `Noop`. -/
theorem markEndPrepare_of_noop (b : WriteBatch) (xid : Bytes) (writeAfterCommit unpreparedBatch : Bool)
    (h : b.rep.getD kHeader 0 = ValueType.typeNoop.toByte) :
    ∃ b', WriteBatchInternal.markEndPrepare b xid writeAfterCommit unpreparedBatch = .ok (b', []) ∧
      b'.rep = b.rep.set kHeader
          (if writeAfterCommit then ValueType.typeBeginPrepareXID
            else if unpreparedBatch then ValueType.typeBeginUnprepareXID
            else ValueType.typeBeginPersistedPrepareXID).toByte ++
        putLengthPrefixedSlice [ValueType.typeEndPrepareXID.toByte] xid ∧
      b'.contentFlags = (if unpreparedBatch then
          b.contentFlags ||| ContentFlags.hasEndPrepare ||| ContentFlags.hasBeginPrepare |||
            ContentFlags.hasBeginUnprepare
        else b.contentFlags ||| ContentFlags.hasEndPrepare ||| ContentFlags.hasBeginPrepare) := by
  simp only [WriteBatchInternal.markEndPrepare, h, ne_eq, not_true_eq_false, if_false]
  exact ⟨_, rfl, rfl, by cases unpreparedBatch <;> rfl⟩

/-- `Iterate` stops at a persisted begin marker, which the default handler does not support: the
handler hears of the marker and of no record after it. -/
theorem iterate_persisted_prepare (b : WriteBatch) (rest : Bytes)
    (hrep : b.rep.drop kHeader = ValueType.typeBeginPersistedPrepareXID.toByte :: rest)
    (hflag : b.contentFlags &&& (ContentFlags.deferred ||| ContentFlags.hasBeginPrepare) ≠ 0) :
    ∃ msg, b.iterate = .ok (.notSupported msg, [.markBeginPrepare false]) := by
  have hlen : ¬ b.rep.length < kHeader := Nat.not_lt.mpr b.header_le
  simp only [WriteBatch.iterate, if_neg hlen, hrep, List.length_cons, iterateLoop,
    readRecordFromWriteBatch, ofByte_toByte, iterateRecord, assertFlag, if_neg hflag]
  exact ⟨_, rfl⟩

/-- **The classifier stops at the marker of a prepared transaction.** A batch set to a `Noop`,
as the batch of a transaction starts, with a `Put` added and then marked by `MarkEndPrepare` for
`WritePrepared`, holds the persisted begin marker, the put's record and the end marker. Its flags,
still `DEFERRED`, carry `HAS_PUT`; but `HasPut()` resolves them through the classifier, which
stops at the begin marker, and answers `false`. -/
theorem hasPut_persisted_prepare (key value xid : Bytes) (hkey : key.length ≤ kMaxUint32)
    (hvalue : value.length ≤ kMaxUint32) :
    ∃ b₁ b₂ b₃,
      WriteBatchInternal.setContents (WriteBatch.new 0)
          (List.replicate kHeader 0 ++ [ValueType.typeNoop.toByte]) = .ok b₁ ∧
      WriteBatchInternal.put b₁ 0 key value = .ok (.ok, b₂) ∧
      WriteBatchInternal.markEndPrepare b₂ xid false false = .ok (b₃, []) ∧
      b₃.rep.drop kHeader = ValueType.typeBeginPersistedPrepareXID.toByte ::
        ((BatchEntry.put 0 key value).encode ++
          putLengthPrefixedSlice [ValueType.typeEndPrepareXID.toByte] xid) ∧
      b₃.contentFlags &&& ContentFlags.hasPut ≠ 0 ∧
      (b₃.hasPut).map Prod.fst = .ok false := by
  -- the batch `SetContents` makes: a header counting nothing, then the `Noop`
  obtain ⟨b₁, h₁, hrep₁, hflags₁, hmax₁⟩ : ∃ b₁, WriteBatchInternal.setContents (WriteBatch.new 0)
      (List.replicate kHeader 0 ++ [ValueType.typeNoop.toByte]) = .ok b₁ ∧
      b₁.rep = List.replicate kHeader 0 ++ [ValueType.typeNoop.toByte] ∧
      b₁.contentFlags = ContentFlags.deferred ∧ b₁.maxBytes = 0 := ⟨_, rfl, rfl, rfl, rfl⟩
  have hcount₁ : WriteBatchInternal.count b₁ = 0 := by
    rw [WriteBatchInternal.count, hrep₁]
    rfl
  -- `Put` counts one record and appends it
  have hadd : addInt (WriteBatchInternal.count b₁) 1 = .ok 1 := by
    rw [hcount₁]
    rfl
  have hput := addCounted_of_unlimited b₁ 0 .typeValue .typeColumnFamilyValue
    (putLengthPrefixedSlice (putLengthPrefixedSlice [] key) value) ContentFlags.hasPut hadd hmax₁
  have hsmall : ¬ (key.length > kMaxUint32) ∧ ¬ (value.length > kMaxUint32) := by omega
  set b₂ := { (WriteBatchInternal.setCount b₁ 1).appendRep
      ((if (0 : UInt32) = 0 then [ValueType.typeValue.toByte]
        else putVarint32 [ValueType.typeColumnFamilyValue.toByte] 0) ++
        putLengthPrefixedSlice (putLengthPrefixedSlice [] key) value) with
    contentFlags := b₁.contentFlags ||| ContentFlags.hasPut } with hb₂
  have h₂ : WriteBatchInternal.put b₁ 0 key value = .ok (.ok, b₂) := by
    rw [WriteBatchInternal.put, if_neg hsmall.1, if_neg hsmall.2, hput]
  have hrep₂ : b₂.rep = List.replicate 8 0 ++ encodeFixed32 1 ++
      ValueType.typeNoop.toByte :: (BatchEntry.put 0 key value).encode := by
    simp only [hb₂, WriteBatch.appendRep, WriteBatchInternal.setCount, hrep₁]
    rfl
  -- `MarkEndPrepare` finds the `Noop` after the header
  have hnoop : b₂.rep.getD kHeader 0 = ValueType.typeNoop.toByte := by
    rw [hrep₂]
    rfl
  obtain ⟨b₃, h₃, hrep₃, hflags₃⟩ := markEndPrepare_of_noop b₂ xid false false hnoop
  have hrecords : b₃.rep.drop kHeader = ValueType.typeBeginPersistedPrepareXID.toByte ::
      ((BatchEntry.put 0 key value).encode ++
        putLengthPrefixedSlice [ValueType.typeEndPrepareXID.toByte] xid) := by
    rw [hrep₃, hrep₂]
    rfl
  have hflags : b₃.contentFlags = ContentFlags.deferred ||| ContentFlags.hasPut |||
      ContentFlags.hasEndPrepare ||| ContentFlags.hasBeginPrepare := by
    rw [hflags₃, if_neg Bool.false_ne_true, hb₂, hflags₁]
  -- `HasPut()` runs the classifier, which stops at the begin marker
  obtain ⟨msg, hiter⟩ := iterate_persisted_prepare b₃ _ hrecords (by rw [hflags]; decide)
  refine ⟨b₁, b₂, b₃, h₁, h₂, h₃, hrecords, by rw [hflags]; decide, ?_⟩
  simp only [WriteBatch.hasPut, WriteBatch.hasContent, WriteBatch.computeContentFlags, hflags]
  rw [if_pos (by decide)]
  have hclass : batchContentClassifier [.markBeginPrepare false] &&& ContentFlags.hasPut = 0 := by
    decide
  simp only [hiter, bind, Except.bind, pure, Except.pure, Except.map, hclass, ne_eq,
    not_true_eq_false, decide_false]

/-- The key `[1]`, the value `[2]` and the xid `[3]`. -/
theorem hasPut_persisted_prepare_one_byte :
    ([1] : Bytes).length ≤ kMaxUint32 ∧ ([2] : Bytes).length ≤ kMaxUint32 ∧
    ∃ b₁ b₂ b₃,
      WriteBatchInternal.setContents (WriteBatch.new 0)
          (List.replicate kHeader 0 ++ [ValueType.typeNoop.toByte]) = .ok b₁ ∧
      WriteBatchInternal.put b₁ 0 [1] [2] = .ok (.ok, b₂) ∧
      WriteBatchInternal.markEndPrepare b₂ [3] false false = .ok (b₃, []) ∧
      b₃.rep.drop kHeader = ValueType.typeBeginPersistedPrepareXID.toByte ::
        ((BatchEntry.put 0 [1] [2]).encode ++
          putLengthPrefixedSlice [ValueType.typeEndPrepareXID.toByte] [3]) ∧
      b₃.contentFlags &&& ContentFlags.hasPut ≠ 0 ∧
      (b₃.hasPut).map Prod.fst = .ok false :=
  ⟨by decide, by decide, hasPut_persisted_prepare [1] [2] [3] (by decide) (by decide)⟩

end RocksCloud.Db