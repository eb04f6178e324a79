import Mathlib
import RocksCloud.Table.BlockBuilder

/-!
# Reading data blocks

`table/block_based/block.cc` parses a block from its footer: the number of restarts, the index
type (a block over `kMaxBlockSizeSupportedByHashIndex` bytes has no hash index, and its footer
is the number itself), and from them the offset of the restart array. A `DataBlockIter` walks
the entries: `ParseNextDataKey` decodes the entry after the current one, rebuilding its key
from the shared prefix of the previous key; `Seek` and `SeekForPrev` binary-search the restart
points and scan forward; `Prev` scans forward again from the restart point before the current
entry, and keeps the entries it went through in `prev_entries_`, so that the next `Prev` in the
same interval reads them from there.

Offsets are `uint32_t` in the source, and the model keeps the casts that can wrap: the end of
the current value (`NextEntryOffset`), the restart array's offset and the length check of an
entry. The `assert`s of `DecodeEntry` are taken as the checks of `CheckAndDecodeEntry`: an entry
that fails them is reported as corrupt. The iterator's comparator is a parameter `cmp`; the key
of the current entry is its internal key. A block read here has no global sequence number, and
read-amplification statistics and pinning are left out.
-/

set_option autoImplicit false

namespace RocksCloud.Table

open RocksCloud.Util

/-! ## The block -/

/-- `Block`: the contents, `size_` (`0` marks a block that could not be parsed), the offset of
the restart array, the number of restarts, and the number of hash buckets (`0` when the block
has no hash index). -/
structure Block where
  data : Bytes
  size : Nat
  restartOffset : UInt32
  numRestarts : UInt32
  numBuckets : UInt16

namespace Block

/-- The footer: the last four bytes. -/
def blockFooter (data : Bytes) : UInt32 := decodeFixed32 (data.drop (data.length - 4))

/-- `NumRestarts()`. -/
def numRestartsOf (data : Bytes) : UInt32 :=
  if data.length > kMaxBlockSizeSupportedByHashIndex then blockFooter data
  else (unPackIndexTypeAndNumRestarts (blockFooter data)).2

/-- `IndexType()`. -/
def indexTypeOf (data : Bytes) : DataBlockIndexType :=
  if data.length > kMaxBlockSizeSupportedByHashIndex then .dataBlockBinarySearch
  else (unPackIndexTypeAndNumRestarts (blockFooter data)).1

/-- The constructor `Block(contents, global_seqno)`. -/
def new (contents : Bytes) : Block :=
  let size := contents.length
  if size < 4 then ⟨contents, 0, 0, 0, 0⟩
  else
    let numRestarts := numRestartsOf contents
    match indexTypeOf contents with
    | .dataBlockBinarySearch =>
        let restartOffset := size.toUInt32 - (1 + numRestarts) * 4
        -- a size too small for the restarts makes the offset wrap around
        ⟨contents, if restartOffset.toNat > size - 4 then 0 else size, restartOffset, numRestarts,
          0⟩
    | .dataBlockBinaryAndHash =>
        if size < 4 + 2 then ⟨contents, 0, 0, numRestarts, 0⟩
        else
          let (numBuckets, mapOffset) :=
            DataBlockHashIndex.initializeFrom contents (size - 4).toUInt16
          let restartOffset := mapOffset.toUInt32 - numRestarts * 4
          ⟨contents, if restartOffset > mapOffset.toUInt32 then 0 else size, restartOffset,
            numRestarts, numBuckets⟩

end Block

/-! ## The iterator -/

/-- A status of the iterator: `OK`, or `Corruption` with its message. -/
inductive IterStatus where
  | ok
  | corruption (msg : String)
  deriving Repr, DecidableEq

/-- `CachedPrevEntry`: an entry's offset, key and value. -/
structure CachedPrevEntry where
  offset : Nat
  key : Bytes
  valueOffset : Nat
  valueSize : Nat
  deriving Repr, DecidableEq, Inhabited

/-- `DataBlockIter`. `initialized` says that `data_` is set; the value is the slice of `data`
at `valueOffset` of `valueSize` bytes. -/
structure DataBlockIter where
  data : Bytes
  initialized : Bool
  restarts : Nat
  numRestarts : Nat
  restartIndex : Nat
  current : Nat
  key : Bytes
  valueOffset : Nat
  valueSize : Nat
  status : IterStatus
  prevEntries : List CachedPrevEntry
  prevEntriesIdx : Int

namespace DataBlockIter

/-- An iterator after `Invalidate(s)`. -/
def invalid (s : IterStatus) : DataBlockIter := ⟨[], false, 0, 0, 0, 0, [], 0, 0, s, [], -1⟩

/-- `Initialize`: not positioned, `current_` at the restart array. -/
def initializeWith (data : Bytes) (restarts numRestarts : Nat) : DataBlockIter :=
  ⟨data, true, restarts, numRestarts, numRestarts, restarts, [], 0, 0, .ok, [], -1⟩

/-- `Valid()`. -/
def valid (it : DataBlockIter) : Bool := it.current < it.restarts

/-- `value()`. -/
def value (it : DataBlockIter) : Bytes := (it.data.drop it.valueOffset).take it.valueSize

/-- `NextEntryOffset()`: the end of the current value, cast to `uint32_t`. -/
def nextEntryOffset (it : DataBlockIter) : Nat := (it.valueOffset + it.valueSize) % 2 ^ 32

/-- `GetRestartPoint(index)`. -/
def getRestartPoint (it : DataBlockIter) (index : Nat) : Nat :=
  (decodeFixed32 (it.data.drop (it.restarts + index * 4))).toNat

/-- `SeekToRestartPoint(index)`: the key is cleared and the next entry is the restart point. -/
def seekToRestartPoint (it : DataBlockIter) (index : Nat) : DataBlockIter :=
  { it with
    key := []
    restartIndex := index
    valueOffset := it.getRestartPoint index
    valueSize := 0 }

/-- `CorruptionError()`. -/
def corruptionError (it : DataBlockIter) : DataBlockIter :=
  { it with
    current := it.restarts
    restartIndex := it.numRestarts
    status := .corruption "bad entry in block"
    key := []
    valueOffset := 0
    valueSize := 0 }

/-- The three varints of an entry's header read one after another. -/
def decodeHeader (input : Bytes) : Option (UInt32 × UInt32 × UInt32 × Bytes) := do
  let (shared, input) ← getVarint32Ptr input
  let (nonShared, input) ← getVarint32Ptr input
  let (valueLength, input) ← getVarint32Ptr input
  pure (shared, nonShared, valueLength, input)

/-- `DecodeEntry` of the entry at `p`, with the block ending at `limit`: the shared and unshared
key lengths, the value's length and the offset of the unshared key bytes. Three header bytes
below `128` are the three varints themselves. -/
def decodeEntry (data : Bytes) (p limit : Nat) : Option (UInt32 × UInt32 × UInt32 × Nat) :=
  let input := (data.take limit).drop p
  if limit < p + 3 then none
  else
    let header :=
      match input with
      | s :: n :: v :: rest =>
          if (s ||| n ||| v) < 128 then some (s.toUInt32, n.toUInt32, v.toUInt32, rest)
          else decodeHeader input
      | _ => decodeHeader input
    match header with
    | none => none
    | some (shared, nonShared, valueLength, rest) =>
        let p := p + (input.length - rest.length)
        if (limit - p).toUInt32 < nonShared + valueLength then none
        else some (shared, nonShared, valueLength, p)

/-- The `while` of `ParseNextDataKey` that moves `restart_index_` up to the restart interval of
the current entry, one restart at a time. -/
def advanceRestartIndex (it : DataBlockIter) : Nat → DataBlockIter
  | 0 => it
  | fuel + 1 =>
      if it.restartIndex + 1 < it.numRestarts ∧
          it.getRestartPoint (it.restartIndex + 1) < it.current then
        advanceRestartIndex { it with restartIndex := it.restartIndex + 1 } fuel
      else it

/-- `ParseNextDataKey`: the entry after the current one, and whether there was one. -/
def parseNextDataKey (it : DataBlockIter) : DataBlockIter × Bool :=
  let it := { it with current := it.nextEntryOffset }
  if it.current ≥ it.restarts then
    -- no more entries
    ({ it with current := it.restarts, restartIndex := it.numRestarts }, false)
  else
    match decodeEntry it.data it.current it.restarts with
    | none => (it.corruptionError, false)
    | some (shared, nonShared, valueLength, p) =>
        if it.key.length < shared.toNat then (it.corruptionError, false)
        else
          let delta := (it.data.drop p).take nonShared.toNat
          let it := { it with
            key := if shared = 0 then delta else it.key.take shared.toNat ++ delta
            valueOffset := p + nonShared.toNat
            valueSize := valueLength.toNat }
          ((if shared = 0 then it.advanceRestartIndex it.numRestarts else it), true)

/-- `ParseNextDataKey(limit)` with the entries ending at `limit`, as `SeekForGetImpl` calls it
with the next restart point; without a limit it is `parseNextDataKey`. -/
def parseNextDataKeyWithin (it : DataBlockIter) (limit : Nat) : DataBlockIter × Bool :=
  let it := { it with current := it.nextEntryOffset }
  if it.current ≥ limit then
    -- no more entries
    ({ it with current := it.restarts, restartIndex := it.numRestarts }, false)
  else
    match decodeEntry it.data it.current limit with
    | none => (it.corruptionError, false)
    | some (shared, nonShared, valueLength, p) =>
        if it.key.length < shared.toNat then (it.corruptionError, false)
        else
          let delta := (it.data.drop p).take nonShared.toNat
          let it := { it with
            key := if shared = 0 then delta else it.key.take shared.toNat ++ delta
            valueOffset := p + nonShared.toNat
            valueSize := valueLength.toNat }
          ((if shared = 0 then it.advanceRestartIndex it.numRestarts else it), true)

/-- Without a limit the entries end at the restart array. -/
theorem parseNextDataKey_eq_within (it : DataBlockIter) :
    it.parseNextDataKey = it.parseNextDataKeyWithin it.restarts := rfl

/-- `SeekToFirst()`. -/
def seekToFirst (it : DataBlockIter) : DataBlockIter :=
  if it.initialized then (it.seekToRestartPoint 0).parseNextDataKey.1 else it

/-- `Next()`. -/
def next (it : DataBlockIter) : DataBlockIter := it.parseNextDataKey.1

/-- The `while (ParseNextDataKey() && NextEntryOffset() < restarts_)` of `SeekToLast`. -/
def seekToLastLoop : Nat → DataBlockIter → DataBlockIter
  | 0, it => it
  | fuel + 1, it =>
      let (it, ok) := it.parseNextDataKey
      if ok ∧ it.nextEntryOffset < it.restarts then seekToLastLoop fuel it else it

/-- `SeekToLast()`: from the last restart point to the last entry. -/
def seekToLast (it : DataBlockIter) : DataBlockIter :=
  if it.initialized then
    seekToLastLoop (it.data.length + 1) (it.seekToRestartPoint (it.numRestarts - 1))
  else it

/-- The `while` of `Prev` that moves `restart_index_` down to a restart point before
`original`; `none` when there is none. -/
def prevRestartLoop (original : Nat) : Nat → DataBlockIter → Option DataBlockIter
  | 0, it => some it
  | fuel + 1, it =>
      if it.getRestartPoint it.restartIndex ≥ original then
        if it.restartIndex = 0 then none
        else prevRestartLoop original fuel { it with restartIndex := it.restartIndex - 1 }
      else some it

/-- The `do ... while (NextEntryOffset() < original)` of `Prev`: it parses the entries up to the
one before `original`, caching each. -/
def prevScanLoop (original : Nat) : Nat → DataBlockIter → DataBlockIter
  | 0, it => it
  | fuel + 1, it =>
      let (it, ok) := it.parseNextDataKey
      if ok then
        let it := { it with
          prevEntries := it.prevEntries ++ [⟨it.current, it.key, it.valueOffset, it.valueSize⟩] }
        if it.nextEntryOffset < original then prevScanLoop original fuel it else it
      else it

/-- `Prev()`: from the cache when the entry before the current one is in it, else by a scan
from the restart point before the current entry. -/
def prev (it : DataBlockIter) : DataBlockIter :=
  if it.prevEntriesIdx > 0 ∧
      (it.prevEntries[it.prevEntriesIdx.toNat]?).map CachedPrevEntry.offset = some it.current then
    let idx := it.prevEntriesIdx - 1
    let entry := it.prevEntries.getD idx.toNat default
    { it with
      prevEntriesIdx := idx
      current := entry.offset
      key := entry.key
      valueOffset := entry.valueOffset
      valueSize := entry.valueSize }
  else
    let it := { it with prevEntriesIdx := -1, prevEntries := [] }
    let original := it.current
    match prevRestartLoop original (it.restartIndex + 1) it with
    | none => { it with current := it.restarts, restartIndex := it.numRestarts }
    | some it =>
        let it := prevScanLoop original (it.data.length + 1) (it.seekToRestartPoint it.restartIndex)
        { it with prevEntriesIdx := (it.prevEntries.length : Int) - 1 }

section Seek

variable (cmp : Bytes → Bytes → Ordering) (target : Bytes)

/-- The loop of `BinarySeek` over the restart points `[left, right]`: the index of the last
restart point whose key is less than the target, or of one equal to it; `none` after a
corrupt restart entry. -/
def binarySeekLoop (it : DataBlockIter) : Nat → Nat → Nat → DataBlockIter × Option Nat
  | 0, left, _ => (it, some left)
  | fuel + 1, left, right =>
      if left < right then
        let mid := (left + right + 1) / 2
        match decodeEntry it.data (it.getRestartPoint mid) it.restarts with
        | none => (it.corruptionError, none)
        | some (shared, nonShared, _, p) =>
            if shared ≠ 0 then (it.corruptionError, none)
            else
              match cmp ((it.data.drop p).take nonShared.toNat) target with
              | .lt => binarySeekLoop it fuel mid right
              | .gt => binarySeekLoop it fuel left (mid - 1)
              | .eq => binarySeekLoop it fuel mid mid
      else (it, some left)

/-- `BinarySeek(target, 0, num_restarts_ - 1, &index, comparator_)`; the range shrinks at every
turn, so `num_restarts_` turns are enough. -/
def binarySeek (it : DataBlockIter) : DataBlockIter × Option Nat :=
  binarySeekLoop cmp target it it.numRestarts 0 (it.numRestarts - 1)

/-- The linear search of `Seek` and `SeekForPrev`: entries are parsed until one is not less
than the target, or none is left. -/
def seekScan : Nat → DataBlockIter → DataBlockIter
  | 0, it => it
  | fuel + 1, it =>
      let (it, ok) := it.parseNextDataKey
      if ok ∧ cmp it.key target = .lt then seekScan fuel it else it

/-- The linear search of `SeekForGetImpl`: entries are parsed up to `limit`, the end of one
restart interval, until one is not less than the target, or none is left. -/
def seekScanWithin (limit : Nat) : Nat → DataBlockIter → DataBlockIter
  | 0, it => it
  | fuel + 1, it =>
      let (it, ok) := it.parseNextDataKeyWithin limit
      if ok ∧ cmp it.key target = .lt then seekScanWithin limit fuel it else it

/-- `Seek(target)`: the first entry whose key is not less than the target. -/
def seek (it : DataBlockIter) : DataBlockIter :=
  if it.initialized then
    match it.binarySeek cmp target with
    | (it, none) => it
    | (it, some index) => seekScan cmp target (it.data.length + 1) (it.seekToRestartPoint index)
  else it

/-- The `while (Valid() && Compare(key_, seek_key) > 0) Prev()` of `SeekForPrev`. -/
def prevWhileGreater : Nat → DataBlockIter → DataBlockIter
  | 0, it => it
  | fuel + 1, it =>
      if it.valid ∧ cmp it.key target = .gt then prevWhileGreater fuel it.prev else it

/-- `SeekForPrev(target)`: the last entry whose key is not greater than the target. -/
def seekForPrev (it : DataBlockIter) : DataBlockIter :=
  if it.initialized then
    match it.binarySeek cmp target with
    | (it, none) => it
    | (it, some index) =>
        let it := seekScan cmp target (it.data.length + 1) (it.seekToRestartPoint index)
        if it.valid then prevWhileGreater cmp target (it.data.length + 1) it else it.seekToLast
  else it

end Seek

end DataBlockIter

/-- `Block::NewDataIterator`: a block too small for its footer is corrupt, and one without
restarts is empty. -/
def Block.newDataIterator (b : Block) : DataBlockIter :=
  if b.size < 2 * 4 then DataBlockIter.invalid (.corruption "bad block contents")
  else if b.numRestarts = 0 then DataBlockIter.invalid .ok
  else DataBlockIter.initializeWith b.data b.restartOffset.toNat b.numRestarts.toNat

end RocksCloud.Table
