import Mathlib
import RocksCloud.Db.RangeTombstoneFragmenter
import RocksCloud.Db.WriteBatch

/-!
# Point lookups in a memtable, `db/memtable.cc`

`MemTable::Add` encodes an entry as the length of its internal key, the user key, the sequence
number packed with the type, the length of the value and the value, and inserts it into one of
two `MemTableRep`s: range deletions go to `range_del_table_`, whose value is the end key, the
other kinds to `table_`. Both reps keep their entries ordered by `MemTable::KeyComparator`: user
key ascending (the bytewise comparator, the lexicographic order of byte lists), then sequence
number descending; the rep refuses an entry equal to one it holds.

`MemTable::Get(k, S)` first asks the range deletions: it fragments them
(`FragmentedRangeTombstoneList`, for reads) and takes `MaxCoveringTombstoneSeqnum(k)` under the
upper bound `S`. It then seeks `table_` to the lookup key `(k, S, kValueTypeForSeek)` and hands
the entries from there to `SaveValue` until it asks to stop. `SaveValue` stops at the first
entry of another user key; for the entries of `k` it treats a value or merge operand older
than the covering range deletion as deleted, collects merge operands, and settles on the first
value or deletion.

The rep is the list of its entries in order, whatever structure holds them. The memtable bloom
filter is off, there is no read callback, `inplace_update_support` is off, and `Get` is called
with a value to fill and no `is_blob_index`. The counters `Add` keeps for flushing and
statistics are left out, as is the insert hint. A merge operator's `FullMergeV2` keeps the value
type.
-/

set_option autoImplicit false

namespace RocksCloud.Db

open RocksCloud.Util

/-! ## Internal keys and entries -/

/-- `PackSequenceAndType(seq, t)`: the sequence number above the eight bits of the type. -/
def packSequenceAndType (seq : Nat) (t : ValueType) : UInt64 :=
  (seq.toUInt64 <<< 8) ||| t.toByte.toUInt64

/-- `kValueTypeForSeek`: the largest type, so that a lookup key comes before every entry with
its user key and sequence number. -/
def kValueTypeForSeek : ValueType := .typeBlobIndex

/-- `ExtractUserKey`: an internal key without its last eight bytes. -/
def extractUserKey (internalKey : Bytes) : Bytes := internalKey.take (internalKey.length - 8)

/-- The packed sequence number and type in the last eight bytes of an internal key. -/
def extractTag (internalKey : Bytes) : UInt64 :=
  decodeFixed64 (internalKey.drop (internalKey.length - 8))

/-- `InternalKeyComparator::CompareKeySeq`: by user key, then by sequence number descending; the
type is not compared. -/
def compareKeySeq (a b : Bytes) : Ordering :=
  match compare (extractUserKey a) (extractUserKey b) with
  | .eq =>
      let anum := extractTag a >>> 8
      let bnum := extractTag b >>> 8
      if anum > bnum then .lt else if anum < bnum then .gt else .eq
  | r => r

/-- `GetLengthPrefixedSlice` at the start of an entry: its internal key. -/
def entryInternalKey (entry : Bytes) : Bytes :=
  match getLengthPrefixedSlice entry with
  | some (internalKey, _) => internalKey
  | none => []

/-- `MemTable::KeyComparator`: the internal keys of two entries compared. -/
def keyComparator (a b : Bytes) : Ordering :=
  compareKeySeq (entryInternalKey a) (entryInternalKey b)

/-- The entry `MemTable::Add` writes. -/
def encodeEntry (s : Nat) (type : ValueType) (key value : Bytes) : Bytes :=
  encodeVarint32 (key.length.toUInt32 + 8) ++ key ++ encodeFixed64 (packSequenceAndType s type) ++
    encodeVarint32 value.length.toUInt32 ++ value

/-- `LookupKey(user_key, s).memtable_key()`: a length-prefixed internal key with the type
`kValueTypeForSeek`. -/
def lookupKey (userKey : Bytes) (s : Nat) : Bytes :=
  encodeVarint32 (userKey.length.toUInt32 + 8) ++ userKey ++
    encodeFixed64 (packSequenceAndType s kValueTypeForSeek)

/-! ## The rep -/

/-- `InsertKey`: the entry goes before the first entry greater than it; one equal to an entry
there is refused. -/
def repInsert (cmp : Bytes → Bytes → Ordering) (e : Bytes) : List Bytes → Option (List Bytes)
  | [] => some [e]
  | x :: xs =>
      match cmp e x with
      | .lt => some (e :: x :: xs)
      | .eq => none
      | .gt => (repInsert cmp e xs).map (x :: ·)

/-- `Seek(target)`: the entries from the first one that is not less than `target`. -/
def repSeek (cmp : Bytes → Bytes → Ordering) (entries : List Bytes) (target : Bytes) :
    List Bytes :=
  entries.dropWhile fun x => cmp x target = .lt

/-! ## The memtable -/

/-- A `MemTable`: the entries of `table_` and of `range_del_table_`, each in the order of the
key comparator, and `first_seqno_`. -/
structure MemTable where
  table : List Bytes
  rangeDelTable : List Bytes
  firstSeqno : Nat
  deriving Repr, DecidableEq

/-- A memtable with nothing added. -/
def MemTable.empty : MemTable := ⟨[], [], 0⟩

/-- `MemTable::Add(s, type, key, value)` without concurrent writers: `false` when the rep
already holds an entry with the key and sequence number. -/
def MemTable.add (m : MemTable) (s : Nat) (type : ValueType) (key value : Bytes) :
    Except String (MemTable × Bool) := do
  let entry := encodeEntry s type key value
  let rep := if type = .typeRangeDeletion then m.rangeDelTable else m.table
  match repInsert keyComparator entry rep with
  | none => pure (m, false)
  | some rep =>
      let m := if type = .typeRangeDeletion then { m with rangeDelTable := rep }
        else { m with table := rep }
      -- sequence numbers are added in order
      if !(m.firstSeqno = 0 ∨ s ≥ m.firstSeqno) then throw "assertion failed"
      let m := if m.firstSeqno = 0 then { m with firstSeqno := s } else m
      pure (m, true)

/-- `MemTable::IsEmpty()`. -/
def MemTable.isEmpty (m : MemTable) : Bool := m.firstSeqno = 0

/-- The unfragmented tombstone of a `range_del_table_` entry: the start key and sequence number
of its internal key, and its value as the end key. -/
def rangeTombstoneOfEntry (entry : Bytes) : RangeTombstone Bytes :=
  let internalKey := entryInternalKey entry
  let endKey := match getLengthPrefixedSlice entry with
    | some (_, rest) => match getLengthPrefixedSlice rest with
        | some (value, _) => value
        | none => []
    | none => []
  ⟨extractUserKey internalKey, endKey, (extractTag internalKey >>> 8).toNat⟩

/-- `NewRangeTombstoneIterator(read_options, read_seq)->MaxCoveringTombstoneSeqnum(key)`: no
iterator, so nothing, when no range deletion was added. -/
def MemTable.maxCoveringTombstoneSeqnum (m : MemTable) (readSeq : Nat) (key : Bytes) :
    Option Nat :=
  if m.rangeDelTable = [] then none
  else some ((FragmentedRangeTombstoneList.new (m.rangeDelTable.map rangeTombstoneOfEntry)).maxCoveringTombstoneSeqnum
    readSeq key)

/-! ## `SaveValue` -/

/-- A merge operator: `FullMergeV2` on the key, the existing value and the operands from the
oldest (`none` when the merge fails), and `ShouldMerge` on the operands from the newest. -/
structure MergeOperator where
  fullMergeV2 : Bytes → Option Bytes → List Bytes → Option Bytes
  shouldMerge : List Bytes → Bool

/-- `MergeHelper::TimedFullMerge`: with no operand the value itself; else the merge, or
`Corruption` when it fails. -/
def timedFullMerge (mergeOperator : MergeOperator) (key : Bytes) (value : Option Bytes)
    (operands : List Bytes) (result : Bytes) : Status × Bytes :=
  if operands = [] then (.ok, value.getD [])
  else match mergeOperator.fullMergeV2 key value operands with
    | some merged => (.ok, merged)
    | none => (.corruption "Error: Could not perform merge.", result)

/-- The state `Get` shares with `SaveValue`: the status, `found_final_value`,
`merge_in_progress`, the value, the sequence number of the last entry of the key, and the
merge context's operands from the newest. -/
structure Saver where
  status : Status
  foundFinalValue : Bool
  mergeInProgress : Bool
  value : Bytes
  seq : Nat
  operands : List Bytes
  deriving Repr, DecidableEq

/-- `SaveValue(arg, entry)`: whether to go on to the next entry, and the state after this one. -/
def saveValue (mergeOperator : Option MergeOperator) (key : Bytes)
    (maxCoveringTombstoneSeq : Nat) (s : Saver) (entry : Bytes) : Except String (Bool × Saver) :=
  match getVarint32Ptr entry with
  | none => throw "entry without a key length"
  | some (keyLength, keyPtr) =>
      let userKeySlice := keyPtr.take (keyLength.toNat - 8)
      if compare userKeySlice key ≠ .eq then pure (false, s)
      else
        let tag := decodeFixed64 (keyPtr.drop (keyLength.toNat - 8))
        let seq := (tag >>> 8).toNat
        let s := { s with seq }
        let v := match getLengthPrefixedSlice (keyPtr.drop keyLength.toNat) with
          | some (v, _) => v
          | none => []
        match ValueType.ofByte (tag &&& 0xff).toUInt8 with
        | none => throw "assertion failed"
        | some type =>
            -- a value or operand under a newer range deletion is deleted
            let type :=
              if (type = .typeValue ∨ type = .typeMerge ∨ type = .typeBlobIndex) ∧
                  maxCoveringTombstoneSeq > seq then ValueType.typeRangeDeletion
              else type
            match type with
            | .typeBlobIndex =>
                pure (false, { s with
                  status := .notSupported ("Encounter unsupported blob value. Please open DB " ++
                    "with rocksdb::blob_db::BlobDB instead.")
                  foundFinalValue := true })
            | .typeValue =>
                match mergeOperator, s.mergeInProgress with
                | some op, true =>
                    let (status, value) := timedFullMerge op key (some v) s.operands.reverse s.value
                    pure (false, { s with status, value, foundFinalValue := true })
                | _, _ => pure (false, { s with status := .ok, value := v, foundFinalValue := true })
            | .typeDeletion | .typeSingleDeletion | .typeRangeDeletion =>
                match mergeOperator, s.mergeInProgress with
                | some op, true =>
                    let (status, value) := timedFullMerge op key none s.operands.reverse s.value
                    pure (false, { s with status, value, foundFinalValue := true })
                | _, _ => pure (false, { s with status := .notFound, foundFinalValue := true })
            | .typeMerge =>
                match mergeOperator with
                | none =>
                    pure (false, { s with
                      status := .invalidArgument "merge_operator is not properly initialized."
                      foundFinalValue := true })
                | some op =>
                    let s := { s with mergeInProgress := true, operands := v :: s.operands }
                    if op.shouldMerge s.operands then
                      let (status, value) := timedFullMerge op key none s.operands.reverse s.value
                      pure (false, { s with status, value, foundFinalValue := true })
                    else pure (true, s)
            | _ => throw "assertion failed"

/-- `table_->Get(key, &saver, SaveValue)`: the entries from the seek position, while `SaveValue`
asks for more. -/
def saveValueLoop (mergeOperator : Option MergeOperator) (key : Bytes)
    (maxCoveringTombstoneSeq : Nat) : List Bytes → Saver → Except String Saver
  | [], s => pure s
  | entry :: entries, s => do
      let (more, s) ← saveValue mergeOperator key maxCoveringTombstoneSeq s entry
      if more then saveValueLoop mergeOperator key maxCoveringTombstoneSeq entries s else pure s

/-- `MemTable::Get(LookupKey(key, readSeq), ...)` from the status `status`, the merge operands
`operands` and the covering sequence number `maxCoveringTombstoneSeq` the caller passes:
whether a final value was found, the state of the lookup, and the covering sequence number. -/
def MemTable.get (m : MemTable) (mergeOperator : Option MergeOperator) (key : Bytes)
    (readSeq : Nat) (status : Status) (operands : List Bytes) (maxCoveringTombstoneSeq : Nat) :
    Except String (Bool × Saver × Nat) := do
  let saver : Saver := ⟨status, false, status = .mergeInProgress, [], kMaxSequenceNumber, operands⟩
  if m.isEmpty then return (false, saver, maxCoveringTombstoneSeq)
  let maxCoveringTombstoneSeq := match m.maxCoveringTombstoneSeqnum readSeq key with
    | some seq => max maxCoveringTombstoneSeq seq
    | none => maxCoveringTombstoneSeq
  let saver ← saveValueLoop mergeOperator key maxCoveringTombstoneSeq
    (repSeek keyComparator m.table (lookupKey key readSeq)) saver
  -- no final value yet, but operands to merge with what older tables hold
  let saver := if !saver.foundFinalValue ∧ saver.mergeInProgress then
      { saver with status := .mergeInProgress }
    else saver
  pure (saver.foundFinalValue, saver, maxCoveringTombstoneSeq)

/-- Two memtables where `Get` misses the value it holds for the key `a`. With the range
deletions `[b, d) @ 2` and the reversed `[c, a) @ 3` after `a = v @ 1`, the fragments put `a`
under sequence number `2` although neither deletion covers it, so `a` reads as deleted. With
`a = v` written at sequence number `0` and nothing else, `first_seqno_` stays `0` and the
memtable counts as empty. -/
theorem get_misses_value :
    (do
      let (m, _) ← MemTable.empty.add 1 .typeValue [97] [118]
      let (m, _) ← m.add 2 .typeRangeDeletion [98] [100]
      let (m, _) ← m.add 3 .typeRangeDeletion [99] [97]
      m.get none [97] kMaxSequenceNumber .ok [] 0) =
        .ok (true, ⟨.notFound, true, false, [], 1, []⟩, 2) ∧
    (∀ t ∈ ([⟨[98], [100], 2⟩, ⟨[99], [97], 3⟩] : List (RangeTombstone Bytes)),
      ¬ (t.startKey ≤ [97] ∧ [97] < t.endKey)) ∧
    (do
      let (m, _) ← MemTable.empty.add 0 .typeValue [97] [118]
      m.get none [97] kMaxSequenceNumber .ok [] 0) =
        .ok (false, ⟨.ok, false, false, [], kMaxSequenceNumber, []⟩, 0) := by
  refine ⟨by decide +kernel, by decide, by decide +kernel⟩

end RocksCloud.Db
