import Mathlib
import RocksCloud.Util.Coding
import RocksCloud.Lib.Crc32c

/-!
# The write-ahead log writer of `db/log_writer.cc`

A log file is a sequence of blocks of `kBlockSize` bytes (`db/log_format.h`). `AddRecord` cuts
a record into fragments that fit the room left in the current block and emits each behind a
header: the masked CRC-32C of the type byte and the payload (4 bytes), the fragment length
(2 bytes, little endian) and the record type (1 byte). A record that fits is one `kFullType`
fragment; a longer one is a `kFirstType`, some `kMiddleType` and a `kLastType` fragment. With
`recycle_log_files` the types are the recyclable ones and the header also holds the log number
after the type, covered by the CRC, so that the reader of a reused file can tell old records
from new ones; only the low 32 bits of the 64-bit log number are stored. A block trailer too
short for a header is filled with zeros and the record continues in the next block.

The file is the list of bytes appended to `dest_`; appends and flushes do not fail here, and
`manual_flush` changes nothing that is written.
-/

set_option autoImplicit false

namespace RocksCloud.Log

open RocksCloud.Util RocksCloud.Lib.Crc32c

/-- `log::kBlockSize`. -/
def kBlockSize : Nat := 32768

/-- `log::kHeaderSize`: checksum (4 bytes), length (2 bytes), type (1 byte). -/
def kHeaderSize : Nat := 4 + 2 + 1

/-- `log::kRecyclableHeaderSize`: the legacy header and the log number (4 bytes). -/
def kRecyclableHeaderSize : Nat := 4 + 2 + 1 + 4

/-- `log::RecordType`. -/
inductive RecordType where
  | zeroType
  | fullType
  | firstType
  | middleType
  | lastType
  | recyclableFullType
  | recyclableFirstType
  | recyclableMiddleType
  | recyclableLastType
  deriving Repr, DecidableEq

/-- The value of each `RecordType`. -/
def RecordType.toNat : RecordType → Nat
  | zeroType => 0
  | fullType => 1
  | firstType => 2
  | middleType => 3
  | lastType => 4
  | recyclableFullType => 5
  | recyclableFirstType => 6
  | recyclableMiddleType => 7
  | recyclableLastType => 8

/-- `log::kMaxRecordType`. -/
def kMaxRecordType : Nat := RecordType.recyclableLastType.toNat

/-- `log::Writer`: the bytes written so far and the offset in the current block. -/
structure Writer where
  dest : Bytes
  blockOffset : Nat
  logNumber : UInt64
  recycleLogFiles : Bool
  deriving Repr, DecidableEq

/-- A writer on an empty file. -/
def Writer.new (logNumber : UInt64) (recycleLogFiles : Bool) : Writer :=
  ⟨[], 0, logNumber, recycleLogFiles⟩

/-- `type_crc_[t]`: the CRC of the type byte alone, computed once by the constructor. -/
def typeCrc (t : RecordType) : UInt32 := value [t.toNat.toUInt8]

/-- `Writer::EmitPhysicalRecord`: one header and its payload. -/
def Writer.emitPhysicalRecord (w : Writer) (t : RecordType) (payload : Bytes) : Writer :=
  let n := payload.length
  -- `buf[4..6]`: the length, low byte first, then the type
  let lengthAndType : Bytes := [(n &&& 0xff).toUInt8, (n >>> 8).toUInt8, t.toNat.toUInt8]
  -- `buf[7..10]` of the recyclable format: the low 32 bits of the log number
  let logBytes : Bytes := encodeFixed32 w.logNumber.toUInt32
  let headerSize := if t.toNat < RecordType.recyclableFullType.toNat then kHeaderSize
    else kRecyclableHeaderSize
  let crc := if t.toNat < RecordType.recyclableFullType.toNat then typeCrc t
    else extend (typeCrc t) logBytes
  let crc := mask (extend crc payload)
  let header := (encodeFixed32 crc ++ lengthAndType ++ logBytes).take headerSize
  { w with dest := w.dest ++ header ++ payload, blockOffset := w.blockOffset + headerSize + n }

/-- The type of a fragment: whether it is the first and whether it is the last of its record.
-/
def fragmentType (recycleLogFiles begin atEnd : Bool) : RecordType :=
  if begin && atEnd then
    if recycleLogFiles then .recyclableFullType else .fullType
  else if begin then
    if recycleLogFiles then .recyclableFirstType else .firstType
  else if atEnd then
    if recycleLogFiles then .recyclableLastType else .lastType
  else if recycleLogFiles then .recyclableMiddleType else .middleType

/-- The header size of a writer's records. -/
def Writer.headerSize (w : Writer) : Nat :=
  if w.recycleLogFiles then kRecyclableHeaderSize else kHeaderSize

/-- The start of a turn of `AddRecord`'s loop: a block with no room for a header is closed,
its trailer filled with zeros. -/
def Writer.switchBlock (w : Writer) : Writer :=
  if kBlockSize - w.blockOffset < w.headerSize then
    { w with dest := w.dest ++ List.replicate (kBlockSize - w.blockOffset) 0, blockOffset := 0 }
  else w

/-- The `do ... while` loop of `AddRecord`: `left` is the rest of the record and `begin` says
that none of it has been emitted yet. A turn emits at least one byte of `left`, or fills the
block so that the next turn does; `2 * left.length + 1` turns are enough. -/
def Writer.addRecordLoop : Nat → Writer → Bytes → Bool → Writer
  | 0, w, _, _ => w
  | fuel + 1, w, left, begin =>
      let w := w.switchBlock
      let avail := kBlockSize - w.blockOffset - w.headerSize
      let fragmentLength := min left.length avail
      let type := fragmentType w.recycleLogFiles begin (left.length = fragmentLength)
      let w := w.emitPhysicalRecord type (left.take fragmentLength)
      if left.length - fragmentLength > 0 then
        addRecordLoop fuel w (left.drop fragmentLength) false
      else w

/-- `Writer::AddRecord`: an empty record is still one zero-length fragment. -/
def Writer.addRecord (w : Writer) (slice : Bytes) : Writer :=
  w.addRecordLoop (2 * slice.length + 1) slice true

/-- `AddRecord` called on each record in turn. -/
def Writer.addRecords (w : Writer) (records : List Bytes) : Writer :=
  records.foldl Writer.addRecord w

/-! ## The records the writer emits -/

/-- The header of a recyclable record is written whole: checksum, length, type and the low
32 bits of the log number. -/
theorem emitPhysicalRecord_recyclable (w : Writer) (t : RecordType) (payload : Bytes)
    (ht : RecordType.recyclableFullType.toNat ≤ t.toNat) :
    w.emitPhysicalRecord t payload =
      { w with
        dest := w.dest ++
          (encodeFixed32 (mask (extend (extend (typeCrc t) (encodeFixed32 w.logNumber.toUInt32))
              payload)) ++
            [(payload.length &&& 0xff).toUInt8, (payload.length >>> 8).toUInt8, t.toNat.toUInt8] ++
            encodeFixed32 w.logNumber.toUInt32) ++ payload
        blockOffset := w.blockOffset + kRecyclableHeaderSize + payload.length } := by
  have hnot : ¬ t.toNat < RecordType.recyclableFullType.toNat := by omega
  -- the eleven header bytes are all kept
  have htake : ∀ (a c : Bytes) (b : Bytes), a.length = 4 → b.length = 3 → c.length = 4 →
      (a ++ b ++ c).take kRecyclableHeaderSize = a ++ b ++ c := by
    intro a c b ha hb hc
    apply List.take_of_length_le
    simp [ha, hb, hc, kRecyclableHeaderSize]
  simp only [Writer.emitPhysicalRecord, hnot, if_false]
  rw [htake _ _ _ (encodeFixed32_length _) rfl (encodeFixed32_length _)]

/-- A turn that starts with room for a header in the block stays in it. -/
theorem switchBlock_of_room (w : Writer) (h : w.headerSize ≤ kBlockSize - w.blockOffset) :
    w.switchBlock = w := by
  unfold Writer.switchBlock
  rw [if_neg (by omega)]

/-- A record that fits in the rest of the current block is written as one full fragment. -/
theorem addRecord_fits (w : Writer) (slice : Bytes)
    (h : w.blockOffset + w.headerSize + slice.length ≤ kBlockSize) :
    w.addRecord slice = w.emitPhysicalRecord (fragmentType w.recycleLogFiles true true) slice := by
  have hroom : w.headerSize ≤ kBlockSize - w.blockOffset := by omega
  have hfrag : min slice.length (kBlockSize - w.blockOffset - w.headerSize) = slice.length := by
    omega
  simp only [Writer.addRecord, Writer.addRecordLoop, switchBlock_of_room w hroom, hfrag,
    List.take_length, Nat.sub_self, gt_iff_lt, Nat.lt_irrefl, if_false, decide_true]

/-! ## Block alignment

`AddRecord` never writes across a block boundary: the offset in the block stays within the
block and is where the file ends in its last block. This is the invariant the source asserts
(`leftover >= 0`, and the room checks of `EmitPhysicalRecord`). -/

/-- The offset is the position of the end of the file in its last block. -/
def Writer.Aligned (w : Writer) : Prop :=
  w.blockOffset ≤ kBlockSize ∧ w.dest.length % kBlockSize = w.blockOffset % kBlockSize

/-- A new writer is aligned. -/
theorem aligned_new (logNumber : UInt64) (recycleLogFiles : Bool) :
    (Writer.new logNumber recycleLogFiles).Aligned := by
  simp [Writer.Aligned, Writer.new, kBlockSize]

/-- The header size of a fragment is the writer's. -/
theorem emitPhysicalRecord_headerSize (recycleLogFiles begin atEnd : Bool) :
    (if (fragmentType recycleLogFiles begin atEnd).toNat < RecordType.recyclableFullType.toNat
      then kHeaderSize else kRecyclableHeaderSize) =
      if recycleLogFiles then kRecyclableHeaderSize else kHeaderSize := by
  cases recycleLogFiles <;> cases begin <;> cases atEnd <;> rfl

/-- A fragment advances the file and the offset by its header and payload. -/
theorem emitPhysicalRecord_lengths (w : Writer) (begin atEnd : Bool) (payload : Bytes) :
    (w.emitPhysicalRecord (fragmentType w.recycleLogFiles begin atEnd) payload).dest.length =
        w.dest.length + w.headerSize + payload.length ∧
      (w.emitPhysicalRecord (fragmentType w.recycleLogFiles begin atEnd) payload).blockOffset =
        w.blockOffset + w.headerSize + payload.length ∧
      (w.emitPhysicalRecord (fragmentType w.recycleLogFiles begin atEnd) payload).recycleLogFiles =
        w.recycleLogFiles := by
  have hsize := emitPhysicalRecord_headerSize w.recycleLogFiles begin atEnd
  refine ⟨?_, ?_, rfl⟩
  · simp only [Writer.emitPhysicalRecord, List.length_append, List.length_take,
      List.length_cons, List.length_nil, encodeFixed32_length]
    rw [hsize, Writer.headerSize]
    split <;> simp [kHeaderSize, kRecyclableHeaderSize]
  · simp only [Writer.emitPhysicalRecord]
    rw [hsize, Writer.headerSize]

/-- The start of a turn keeps the writer aligned and leaves room for a header. -/
theorem switchBlock_aligned {w : Writer} (h : w.Aligned) :
    w.switchBlock.Aligned ∧ w.switchBlock.headerSize ≤ kBlockSize - w.switchBlock.blockOffset ∧
      w.switchBlock.recycleLogFiles = w.recycleLogFiles := by
  obtain ⟨hle, hmod⟩ := h
  have hsize : w.headerSize ≤ kBlockSize := by
    unfold Writer.headerSize kBlockSize kRecyclableHeaderSize kHeaderSize
    split <;> omega
  unfold Writer.switchBlock
  split
  · -- the trailer is filled up to the block boundary
    refine ⟨⟨Nat.zero_le _, ?_⟩, ?_, rfl⟩
    · simp only [List.length_append, List.length_replicate, Nat.zero_mod]
      unfold kBlockSize at *
      omega
    · exact hsize
  · exact ⟨⟨hle, hmod⟩, by omega, rfl⟩

/-- A fragment that fits in the room after its header keeps the writer aligned. -/
theorem emitPhysicalRecord_aligned {w : Writer} (h : w.Aligned) (begin atEnd : Bool)
    (payload : Bytes) (hroom : w.headerSize ≤ kBlockSize - w.blockOffset)
    (hfit : payload.length ≤ kBlockSize - w.blockOffset - w.headerSize) :
    (w.emitPhysicalRecord (fragmentType w.recycleLogFiles begin atEnd) payload).Aligned := by
  obtain ⟨hlen, hoff, _⟩ := emitPhysicalRecord_lengths w begin atEnd payload
  obtain ⟨hle, hmod⟩ := h
  refine ⟨?_, ?_⟩
  · rw [hoff]
    omega
  · rw [hlen, hoff]
    unfold kBlockSize at *
    omega

/-- Every turn of `AddRecord` keeps the writer aligned. -/
theorem addRecordLoop_aligned (fuel : Nat) (w : Writer) (left : Bytes) (begin : Bool)
    (h : w.Aligned) : (w.addRecordLoop fuel left begin).Aligned := by
  induction fuel generalizing w left begin with
  | zero => exact h
  | succ fuel ih =>
      obtain ⟨haligned, hroom, -⟩ := switchBlock_aligned h
      -- the fragment takes at most the room left after the header
      have hemit := emitPhysicalRecord_aligned haligned begin
        (left.length = min left.length (kBlockSize - w.switchBlock.blockOffset - w.switchBlock.headerSize))
        (left.take (min left.length (kBlockSize - w.switchBlock.blockOffset - w.switchBlock.headerSize)))
        hroom (by rw [List.length_take]; omega)
      simp only [Writer.addRecordLoop]
      split
      · exact ih _ _ _ hemit
      · exact hemit

/-- `AddRecord` keeps the writer aligned. -/
theorem addRecord_aligned {w : Writer} (h : w.Aligned) (slice : Bytes) :
    (w.addRecord slice).Aligned :=
  addRecordLoop_aligned _ w slice true h

end RocksCloud.Log
