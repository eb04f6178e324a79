import Mathlib
import RocksCloud.Log.Writer

/-!
# The write-ahead log reader of `db/log_reader.cc`

`Reader` reads a log file block by block. `ReadPhysicalRecord` parses the header at the front
of the buffer and returns the fragment behind it with its type, or one of the special values
`kEof`, `kBadRecord`, `kBadHeader`, `kOldRecord`, `kBadRecordLen` and `kBadRecordChecksum`
that extend the record types; `ReadMore` refills the buffer with the next block, skipping what
is left of the current one (a trailer). `ReadRecord` runs a state machine over the physical
records: a full fragment is a record, a first fragment opens one that middle fragments extend
and a last fragment closes, and each special value is answered according to the
`WALRecoveryMode`.

The file is a byte list that is read front to back, so reads do not fail and `read_error_` is
never set; `UnmarkEOF` is not modelled. The reporter's `Corruption` calls are collected in
`reports`, with their byte counts and reasons.

A recyclable header stores the low 32 bits of the log number, and `ReadPhysicalRecord`
compares them, as a `uint32_t`, with the 64-bit `log_number_`. A physical record of type
`kOldRecord` also stays in the buffer, so a `ReadRecord` that goes on after it meets it again.
-/

set_option autoImplicit false

namespace RocksCloud.Log

open RocksCloud.Util RocksCloud.Lib.Crc32c

/-- `WALRecoveryMode` of `rocksdb/options.h`. -/
inductive WALRecoveryMode where
  | tolerateCorruptedTailRecords
  | absoluteConsistency
  | pointInTimeRecovery
  | skipAnyCorruptedRecords
  deriving Repr, DecidableEq

/-- `Reader::kEof`. -/
def kEof : Nat := kMaxRecordType + 1
/-- `Reader::kBadRecord`: a zero-length record of type zero. -/
def kBadRecord : Nat := kMaxRecordType + 2
/-- `Reader::kBadHeader`. -/
def kBadHeader : Nat := kMaxRecordType + 3
/-- `Reader::kOldRecord`: a record of a previous user of a recycled log. -/
def kOldRecord : Nat := kMaxRecordType + 4
/-- `Reader::kBadRecordLen`. -/
def kBadRecordLen : Nat := kMaxRecordType + 5
/-- `Reader::kBadRecordChecksum`. -/
def kBadRecordChecksum : Nat := kMaxRecordType + 6

/-- `log::Reader`. `file` is what has not been read of the file yet. -/
structure Reader where
  file : Bytes
  checksum : Bool
  logNumber : UInt64
  buffer : Bytes
  eof : Bool
  eofOffset : Nat
  lastRecordOffset : Nat
  endOfBufferOffset : Nat
  recycled : Bool
  reports : List (Nat × String)
  deriving Repr, DecidableEq

/-- A reader at the start of `file`. -/
def Reader.new (file : Bytes) (checksum : Bool) (logNumber : UInt64) : Reader :=
  ⟨file, checksum, logNumber, [], false, 0, 0, 0, false, []⟩

/-- `Reader::ReportCorruption`. -/
def Reader.reportCorruption (r : Reader) (bytes : Nat) (reason : String) : Reader :=
  { r with reports := r.reports ++ [(bytes, reason)] }

/-- `Reader::ReadMore`: after a full block, the next block replaces the buffer and the result
is `none` (for `true`); at the end of the file, a non-empty buffer is a truncated header,
dropped with `kBadHeader`, and an empty one gives `kEof`. The drop size is passed through. -/
def Reader.readMore (r : Reader) (dropSize : Nat) : Reader × Nat × Option Nat :=
  if !r.eof then
    let block := r.file.take kBlockSize
    let r := { r with buffer := block, file := r.file.drop kBlockSize,
                      endOfBufferOffset := r.endOfBufferOffset + block.length }
    if block.length < kBlockSize then ({ r with eof := true, eofOffset := block.length }, dropSize, none)
    else (r, dropSize, none)
  else if r.buffer.length ≠ 0 then ({ r with buffer := [] }, r.buffer.length, some kBadHeader)
  else ({ r with buffer := [] }, dropSize, some kEof)

/-- `const unsigned int type = header[6]`: the byte is read as a signed `char`, so a byte from
`0x80` on becomes a value near `2^32`. -/
def headerType (b : UInt8) : Nat :=
  if b.toNat < 128 then b.toNat else 2 ^ 32 - 256 + b.toNat

/-- What `ReadPhysicalRecord` returns: the type or special value, the fragment `*result` and
`*drop_size`. The fragment of a special value is never read; it is empty here. -/
structure PhysicalRecord where
  type : Nat
  result : Bytes
  dropSize : Nat
  deriving Repr, DecidableEq

/-- The end of a turn of `ReadPhysicalRecord` once the header size is known and the buffer
holds a whole header: the length check, the zero-type skip, the checksum and the fragment. -/
def Reader.checkRecord (r : Reader) (headerSize type length dropSize : Nat) :
    Reader × PhysicalRecord :=
  let header := r.buffer
  if headerSize + length > r.buffer.length then
    let dropSize := r.buffer.length
    let r := { r with buffer := [] }
    if !r.eof then (r, ⟨kBadRecordLen, [], dropSize⟩)
    -- the writer died within the record: not a corruption unless asked for
    else if dropSize ≠ 0 then (r, ⟨kBadHeader, [], dropSize⟩)
    else (r, ⟨kEof, [], dropSize⟩)
  else if type = RecordType.zeroType.toNat ∧ length = 0 then
    -- preallocated zeros of an mmap writer
    ({ r with buffer := [] }, ⟨kBadRecord, [], dropSize⟩)
  else if r.checksum ∧
      value ((header.drop 6).take (length + headerSize - 6)) ≠ unmask (decodeFixed32 header) then
    ({ r with buffer := [] }, ⟨kBadRecordChecksum, [], r.buffer.length⟩)
  else
    ({ r with buffer := r.buffer.drop (headerSize + length) },
      ⟨type, (header.drop headerSize).take length, dropSize⟩)

/-- How a turn of the `while (true)` loop of `ReadPhysicalRecord` ends: the call returns, or
the loop goes on (`continue`) with the block `ReadMore` has read. -/
inductive PhysicalTurn where
  | ret (result : Reader × PhysicalRecord)
  | more (r : Reader) (dropSize : Nat)
  deriving Repr, DecidableEq

/-- A turn that needs more of the file: `ReadMore`, returning its error when it fails. -/
def Reader.readMoreTurn (r : Reader) (dropSize : Nat) : PhysicalTurn :=
  match r.readMore dropSize with
  | (r, dropSize, none) => .more r dropSize
  | (r, dropSize, some e) => .ret (r, ⟨e, [], dropSize⟩)

/-- A recyclable record at the start of the file marks the log as recycled. -/
def Reader.markRecycled (r : Reader) : Reader :=
  if r.endOfBufferOffset - r.buffer.length = 0 then { r with recycled := true } else r

/-- One turn of the loop of `ReadPhysicalRecord`: parse the header at the front of the buffer,
reading the next block first when the buffer does not hold a whole header. -/
def Reader.readPhysicalRecordTurn (r : Reader) (dropSize : Nat) : PhysicalTurn :=
  if r.buffer.length < kHeaderSize then r.readMoreTurn dropSize
  else
    let header := r.buffer
    let length := (header.getD 4 0).toNat ||| ((header.getD 5 0).toNat <<< 8)
    let type := headerType (header.getD 6 0)
    if RecordType.recyclableFullType.toNat ≤ type ∧ type ≤ RecordType.recyclableLastType.toNat then
      let r := r.markRecycled
      if r.buffer.length < kRecyclableHeaderSize then r.readMoreTurn dropSize
      -- the stored 32 bits against the 64-bit log number; the record stays in the buffer
      else if (decodeFixed32 (header.drop 7)).toNat ≠ r.logNumber.toNat then
        .ret (r, ⟨kOldRecord, [], dropSize⟩)
      else .ret (r.checkRecord kRecyclableHeaderSize type length dropSize)
    else .ret (r.checkRecord kHeaderSize type length dropSize)

/-- The `while (true)` loop of `ReadPhysicalRecord`. It goes round only after `ReadMore` has
read a block: a full one, after which the buffer holds a whole header, or a short one, which
sets `eof_` so that the next `ReadMore` returns; two turns are enough
(`readPhysicalRecordLoop_enough`). -/
def Reader.readPhysicalRecordLoop : Nat → Reader → Nat → Reader × PhysicalRecord
  | 0, r, dropSize => (r, ⟨kEof, [], dropSize⟩)
  | fuel + 1, r, dropSize =>
      match r.readPhysicalRecordTurn dropSize with
      | .ret result => result
      | .more r dropSize => readPhysicalRecordLoop fuel r dropSize

/-- `Reader::ReadPhysicalRecord`. -/
def Reader.readPhysicalRecord (r : Reader) (dropSize : Nat) : Reader × PhysicalRecord :=
  r.readPhysicalRecordLoop 2 dropSize

/-- The locals of `ReadRecord` that live across the turns of its loop. -/
structure Fragments where
  scratch : Bytes
  inFragmentedRecord : Bool
  prospectiveRecordOffset : Nat
  deriving Repr, DecidableEq

/-- How a turn of `ReadRecord`'s loop ends: the call returns, with `some record` for `true`
and `none` for `false`, or the loop goes on. -/
inductive ReadTurn where
  | done (r : Reader) (record : Option Bytes)
  | more (r : Reader) (f : Fragments)
  deriving Repr, DecidableEq

/-- The `kEof` case of `ReadRecord`, which `kBadHeader` and a `kOldRecord` outside
`kSkipAnyCorruptedRecords` also reach: a record in progress is given up, and reported only
under `kAbsoluteConsistency`. -/
def Reader.stopAtEof (mode : WALRecoveryMode) (r : Reader) (f : Fragments) : ReadTurn :=
  if f.inFragmentedRecord ∧ mode = .absoluteConsistency then
    .done (r.reportCorruption f.scratch.length "error reading trailing data") none
  else .done r none

/-- The `kBadRecord` case of `ReadRecord`, which the bad length and checksum cases also end
with: a record in progress is reported and given up, and the loop goes on. -/
def Reader.dropFragments (r : Reader) (f : Fragments) : ReadTurn :=
  if f.inFragmentedRecord then
    .more (r.reportCorruption f.scratch.length "error in middle of record")
      ⟨[], false, f.prospectiveRecordOffset⟩
  else .more r f

/-- One turn of the `while (true)` loop of `ReadRecord`: read a physical record and act on its
type. -/
def Reader.readRecordStep (mode : WALRecoveryMode) (r : Reader) (f : Fragments) : ReadTurn :=
  let physicalRecordOffset := r.endOfBufferOffset - r.buffer.length
  let (r, p) := r.readPhysicalRecord 0
  -- a first or full fragment while a record is open: a writer bug of earlier versions
  let partialRecord (reason : String) : Reader :=
    if f.inFragmentedRecord ∧ f.scratch ≠ [] then r.reportCorruption f.scratch.length reason
    else r
  match p.type with
  | 1 | 5 =>
      .done { partialRecord "partial record without end(1)" with
        lastRecordOffset := physicalRecordOffset } (some p.result)
  | 2 | 6 =>
      .more (partialRecord "partial record without end(2)") ⟨p.result, true, physicalRecordOffset⟩
  | 3 | 7 =>
      if !f.inFragmentedRecord then
        .more (r.reportCorruption p.result.length "missing start of fragmented record(1)") f
      else .more r { f with scratch := f.scratch ++ p.result }
  | 4 | 8 =>
      if !f.inFragmentedRecord then
        .more (r.reportCorruption p.result.length "missing start of fragmented record(2)") f
      else .done { r with lastRecordOffset := f.prospectiveRecordOffset } (some (f.scratch ++ p.result))
  | 11 =>
      let r := if mode = .absoluteConsistency then r.reportCorruption p.dropSize "truncated header"
        else r
      Reader.stopAtEof mode r f
  | 9 => Reader.stopAtEof mode r f
  | 12 =>
      -- an old record ends the log, except when corrupted records are skipped
      if mode ≠ .skipAnyCorruptedRecords then Reader.stopAtEof mode r f
      else Reader.dropFragments r f
  | 10 => Reader.dropFragments r f
  | 13 | 14 =>
      if r.recycled ∧ mode = .tolerateCorruptedTailRecords then .done r none
      else
        let r := r.reportCorruption p.dropSize
          (if p.type = kBadRecordLen then "bad record length" else "checksum mismatch")
        Reader.dropFragments r f
  | type =>
      .more (r.reportCorruption
          (p.result.length + if f.inFragmentedRecord then f.scratch.length else 0)
          ("unknown record type " ++ toString type))
        ⟨[], false, f.prospectiveRecordOffset⟩

/-- The loop of `ReadRecord` for at most `fuel` turns: `some` with the reader and the result
once the call returns, `none` if it has not returned after `fuel` turns. -/
def Reader.readRecordLoop (mode : WALRecoveryMode) : Nat → Reader → Fragments →
    Option (Reader × Option Bytes)
  | 0, _, _ => none
  | fuel + 1, r, f =>
      match r.readRecordStep mode f with
      | .done r record => some (r, record)
      | .more r f => readRecordLoop mode fuel r f

/-- `Reader::ReadRecord`, given `fuel` turns of its loop, which has no bound of its own. -/
def Reader.readRecord (r : Reader) (mode : WALRecoveryMode) (fuel : Nat) :
    Option (Reader × Option Bytes) :=
  r.readRecordLoop mode fuel ⟨[], false, 0⟩

/-! ## Reading blocks -/

/-- `ReadMore` before the end of the file reads the next block into the buffer; a short block
marks the end of the file. -/
theorem readMore_of_not_eof (r : Reader) (d : Nat) (h : r.eof = false) :
    r.readMore d =
      ({ r with
          buffer := r.file.take kBlockSize
          file := r.file.drop kBlockSize
          endOfBufferOffset := r.endOfBufferOffset + (r.file.take kBlockSize).length
          eof := decide ((r.file.take kBlockSize).length < kBlockSize)
          eofOffset := if (r.file.take kBlockSize).length < kBlockSize then
            (r.file.take kBlockSize).length else r.eofOffset },
        d, none) := by
  unfold Reader.readMore
  simp only [h, Bool.not_false, ↓reduceIte]
  split <;> simp_all

/-- `ReadMore` at the end of the file empties the buffer and fails. -/
theorem readMore_of_eof (r : Reader) (d : Nat) (h : r.eof = true) :
    r.readMore d =
      ({ r with buffer := [] }, if r.buffer.length ≠ 0 then r.buffer.length else d,
        some (if r.buffer.length ≠ 0 then kBadHeader else kEof)) := by
  unfold Reader.readMore
  by_cases hb : r.buffer.length ≠ 0
  · simp [h, hb]
  · simp [h, hb]

/-- After `ReadMore` has read a block, the buffer holds a whole header or the end of the file
has been seen. -/
theorem readMore_settles {r r' : Reader} {d d' : Nat} (h : r.readMore d = (r', d', none)) :
    kRecyclableHeaderSize ≤ r'.buffer.length ∨ r'.eof = true := by
  cases heof : r.eof
  · rw [readMore_of_not_eof r d heof] at h
    cases h
    by_cases hs : (r.file.take kBlockSize).length < kBlockSize
    · exact Or.inr (decide_eq_true hs)
    · left
      simp only
      unfold kBlockSize kRecyclableHeaderSize at *
      omega
  · rw [readMore_of_eof r d heof] at h
    simp at h

/-- A turn that needs more of the file returns once the end of the file has been seen. -/
theorem readMoreTurn_of_eof (r : Reader) (d : Nat) (h : r.eof = true) :
    ∃ result, r.readMoreTurn d = .ret result := by
  unfold Reader.readMoreTurn
  rw [readMore_of_eof r d h]
  exact ⟨_, rfl⟩

/-- A turn that needs more of the file goes on only with a settled buffer. -/
theorem readMoreTurn_more {r r' : Reader} {d d' : Nat} (h : r.readMoreTurn d = .more r' d') :
    kRecyclableHeaderSize ≤ r'.buffer.length ∨ r'.eof = true := by
  unfold Reader.readMoreTurn at h
  match hm : r.readMore d with
  | (r₁, d₁, none) =>
      rw [hm] at h
      cases h
      exact readMore_settles hm
  | (r₁, d₁, some e) =>
      rw [hm] at h
      cases h

/-- Before the end of the file a turn that needs more of it goes on with the next block. -/
theorem readMoreTurn_of_not_eof (r : Reader) (d : Nat) (h : r.eof = false) :
    r.readMoreTurn d = .more (r.readMore d).1 d := by
  unfold Reader.readMoreTurn
  rw [readMore_of_not_eof r d h]

/-! ## Physical records -/

/-- A turn that starts short of a header, before the end of the file, reads the next block and
goes on. -/
theorem readPhysicalRecordLoop_of_short (r : Reader) (d fuel : Nat)
    (hb : r.buffer.length < kHeaderSize) (he : r.eof = false) :
    r.readPhysicalRecordLoop (fuel + 1) d = (r.readMore d).1.readPhysicalRecordLoop fuel d := by
  simp only [Reader.readPhysicalRecordLoop, Reader.readPhysicalRecordTurn, hb, if_true,
    readMoreTurn_of_not_eof r d he]

/-- Marking a log as recycled changes nothing else. -/
@[simp] theorem markRecycled_eq (r : Reader) :
    r.markRecycled =
      { r with recycled := r.recycled || decide (r.endOfBufferOffset - r.buffer.length = 0) } := by
  unfold Reader.markRecycled
  split <;> simp_all

/-- A turn of `ReadPhysicalRecord` goes on only with a settled buffer. -/
theorem readPhysicalRecordTurn_more {r r' : Reader} {d d' : Nat}
    (h : r.readPhysicalRecordTurn d = .more r' d') :
    kRecyclableHeaderSize ≤ r'.buffer.length ∨ r'.eof = true := by
  unfold Reader.readPhysicalRecordTurn at h
  dsimp only at h
  split_ifs at h
  · exact readMoreTurn_more h
  · exact readMoreTurn_more h

/-- With a settled buffer a turn of `ReadPhysicalRecord` returns. -/
theorem readPhysicalRecordTurn_settled (r : Reader) (d : Nat)
    (h : kRecyclableHeaderSize ≤ r.buffer.length ∨ r.eof = true) :
    ∃ result, r.readPhysicalRecordTurn d = .ret result := by
  -- a turn goes on only when the buffer is short of a header, which a settled buffer is only
  -- at the end of the file
  have heof : r.buffer.length < kRecyclableHeaderSize → r.eof = true := by
    intro hshort
    rcases h with h | h
    · omega
    · exact h
  unfold Reader.readPhysicalRecordTurn
  dsimp only
  split_ifs with h7 _ h11
  · exact readMoreTurn_of_eof r d (heof (by unfold kHeaderSize kRecyclableHeaderSize at *; omega))
  · simp only [markRecycled_eq] at h11 ⊢
    exact readMoreTurn_of_eof _ d (heof h11)
  all_goals exact ⟨_, rfl⟩

/-- Two turns of the loop of `ReadPhysicalRecord` are as good as any number more. -/
theorem readPhysicalRecordLoop_enough (r : Reader) (d fuel : Nat) :
    r.readPhysicalRecordLoop (fuel + 2) d = r.readPhysicalRecordLoop 2 d := by
  simp only [Reader.readPhysicalRecordLoop]
  match hturn : r.readPhysicalRecordTurn d with
  | .ret result => rfl
  | .more r' d' =>
      -- the second turn starts from a settled buffer, so it returns
      obtain ⟨result, hret⟩ := readPhysicalRecordTurn_settled r' d' (readPhysicalRecordTurn_more hturn)
      simp only [hret]

/-! ## Records of an earlier log -/

/-- The buffer starts with a whole recyclable header whose stored log number is not the
reader's: a record of an earlier user of a recycled file, or any record of this log when its
number does not fit in 32 bits. -/
def Reader.OldRecordAhead (r : Reader) : Prop :=
  kRecyclableHeaderSize ≤ r.buffer.length ∧
    RecordType.recyclableFullType.toNat ≤ headerType (r.buffer.getD 6 0) ∧
    headerType (r.buffer.getD 6 0) ≤ RecordType.recyclableLastType.toNat ∧
    (decodeFixed32 (r.buffer.drop 7)).toNat ≠ r.logNumber.toNat

instance (r : Reader) : Decidable r.OldRecordAhead := by
  unfold Reader.OldRecordAhead
  infer_instance

/-- Marking the log as recycled keeps an old record ahead. -/
theorem oldRecordAhead_markRecycled {r : Reader} (h : r.OldRecordAhead) :
    r.markRecycled.OldRecordAhead := by
  rw [markRecycled_eq]
  exact h

/-- Marking the log as recycled twice is marking it once. -/
theorem markRecycled_markRecycled (r : Reader) : r.markRecycled.markRecycled = r.markRecycled := by
  simp only [markRecycled_eq, Bool.or_assoc, Bool.or_self]

/-- An old record ahead is returned as `kOldRecord` and left in the buffer. -/
theorem readPhysicalRecordTurn_oldRecord (r : Reader) (d : Nat) (h : r.OldRecordAhead) :
    r.readPhysicalRecordTurn d = .ret (r.markRecycled, ⟨kOldRecord, [], d⟩) := by
  obtain ⟨h11, hlo, hhi, hlog⟩ := h
  have h7 : ¬ r.buffer.length < kHeaderSize := by
    unfold kHeaderSize kRecyclableHeaderSize at *
    omega
  unfold Reader.readPhysicalRecordTurn
  dsimp only
  rw [if_neg h7, if_pos ⟨hlo, hhi⟩]
  simp only [markRecycled_eq]
  rw [if_neg (by omega), if_pos hlog]

/-- The loop of `ReadPhysicalRecord` over an old record ahead. -/
theorem readPhysicalRecordLoop_oldRecord (r : Reader) (d fuel : Nat) (h : r.OldRecordAhead) :
    r.readPhysicalRecordLoop (fuel + 1) d = (r.markRecycled, ⟨kOldRecord, [], d⟩) := by
  simp only [Reader.readPhysicalRecordLoop, readPhysicalRecordTurn_oldRecord r d h]

/-- A turn of `ReadRecord` outside a record that meets an old record: the call returns
`false`, except under `kSkipAnyCorruptedRecords`, where the loop goes on. -/
theorem readRecordStep_of_oldRecord (mode : WALRecoveryMode) (r r' : Reader) (f : Fragments)
    (hp : r.readPhysicalRecord 0 = (r', ⟨kOldRecord, [], 0⟩)) (hf : f.inFragmentedRecord = false) :
    r.readRecordStep mode f =
      if mode = .skipAnyCorruptedRecords then .more r' f else .done r' none := by
  unfold Reader.readRecordStep
  rw [hp]
  cases mode <;>
    simp [kOldRecord, kMaxRecordType, RecordType.toNat, Reader.stopAtEof, Reader.dropFragments, hf]

/-- A turn of `ReadRecord` that comes back to where it started never lets the call return. -/
theorem readRecordLoop_spins (mode : WALRecoveryMode) (r : Reader) (f : Fragments)
    (h : r.readRecordStep mode f = .more r f) (fuel : Nat) : r.readRecordLoop mode fuel f = none := by
  induction fuel with
  | zero => rfl
  | succ fuel ih => simp only [Reader.readRecordLoop, h, ih]

/-- `ReadRecord` at an old record: `false` at once, or under `kSkipAnyCorruptedRecords` no
return at all, as the record stays in the buffer and is met again on every turn. `r'` is the
reader with the old record ahead that the first physical record leaves. -/
theorem readRecord_of_oldRecord (mode : WALRecoveryMode) (r r' : Reader) (fuel : Nat)
    (hp : r.readPhysicalRecord 0 = (r'.markRecycled, ⟨kOldRecord, [], 0⟩))
    (hold : r'.OldRecordAhead) :
    (r.readRecord mode (fuel + 1)).map Prod.snd =
      if mode = .skipAnyCorruptedRecords then none else some none := by
  have hstep := readRecordStep_of_oldRecord mode r _ ⟨[], false, 0⟩ hp rfl
  -- the reader after the first turn reads the same old record again
  have hp' : r'.markRecycled.readPhysicalRecord 0 = (r'.markRecycled, ⟨kOldRecord, [], 0⟩) := by
    rw [Reader.readPhysicalRecord, readPhysicalRecordLoop_oldRecord _ 0 1
      (oldRecordAhead_markRecycled hold), markRecycled_markRecycled]
  unfold Reader.readRecord
  cases mode with
  | skipAnyCorruptedRecords =>
      have hspin := readRecordStep_of_oldRecord .skipAnyCorruptedRecords _ _ ⟨[], false, 0⟩ hp' rfl
      rw [if_pos rfl] at hstep hspin
      simp only [Reader.readRecordLoop, hstep, readRecordLoop_spins _ _ _ hspin, Option.map_none,
        if_pos]
  | _ => simp [Reader.readRecordLoop, hstep]

/-! ## Log numbers beyond 32 bits -/

/-- Where a reader finds the type byte and the log number of a header behind its four checksum
bytes. -/
theorem header_fields (crc : Bytes) (hcrc : crc.length = 4) (lo hi type : UInt8) (rest : Bytes) :
    (crc ++ ([lo, hi, type] ++ rest)).getD 6 0 = type ∧
      (crc ++ ([lo, hi, type] ++ rest)).drop 7 = rest := by
  match crc, hcrc with
  | [_, _, _, _], _ => exact ⟨rfl, rfl⟩

/-- A recycling writer stores the low 32 bits of its log number, and a reader of the same log
compares them with all 64: a log whose number does not fit in 32 bits has all its records
taken for old ones. The first `ReadRecord` returns `false` without the record written, and
under `kSkipAnyCorruptedRecords` it never returns. -/
theorem readRecord_loses_wide_log_number (logNumber : UInt64) (hlog : 2 ^ 32 ≤ logNumber.toNat)
    (record : Bytes) (hfit : record.length ≤ kBlockSize - kRecyclableHeaderSize)
    (mode : WALRecoveryMode) (fuel : Nat) :
    ((Reader.new ((Writer.new logNumber true).addRecord record).dest true logNumber).readRecord
        mode (fuel + 1)).map Prod.snd =
      if mode = .skipAnyCorruptedRecords then none else some none := by
  -- the record is one recyclable full fragment at the start of the file
  have hfile : ((Writer.new logNumber true).addRecord record).dest =
      encodeFixed32 (mask (extend (extend (typeCrc .recyclableFullType)
          (encodeFixed32 logNumber.toUInt32)) record)) ++
        ([(record.length &&& 0xff).toUInt8, (record.length >>> 8).toUInt8, 5] ++
          (encodeFixed32 logNumber.toUInt32 ++ record)) := by
    have hroom : (Writer.new logNumber true).blockOffset + (Writer.new logNumber true).headerSize +
        record.length ≤ kBlockSize := by
      simp only [Writer.new, Writer.headerSize, if_true]
      unfold kBlockSize kRecyclableHeaderSize at *
      omega
    rw [addRecord_fits _ _ hroom, emitPhysicalRecord_recyclable]
    · dsimp only
      rw [show (Writer.new logNumber true).dest = [] from rfl, List.nil_append, List.append_assoc,
        List.append_assoc]
      rfl
    · exact le_rfl
  set file := ((Writer.new logNumber true).addRecord record).dest with hfile_def
  set r₀ := Reader.new file true logNumber
  set r₁ := (r₀.readMore 0).1
  -- the first block read is the whole file
  have hbuf : r₁.buffer = file := by
    have hlen : file.length ≤ kBlockSize := by
      rw [hfile]
      simp only [List.length_append, encodeFixed32_length, List.length_cons, List.length_nil]
      unfold kBlockSize kRecyclableHeaderSize at *
      omega
    simp only [r₁, readMore_of_not_eof r₀ 0 rfl]
    exact List.take_of_length_le hlen
  have hnum : r₁.logNumber = logNumber := by
    simp only [r₁, readMore_of_not_eof r₀ 0 rfl]
    rfl
  -- its header is a recyclable one carrying the low 32 bits of the log number
  have hfields : file.getD 6 0 = 5 ∧ file.drop 7 = encodeFixed32 logNumber.toUInt32 ++ record := by
    rw [hfile]
    exact header_fields _ (encodeFixed32_length _) _ _ _ _
  have hold : r₁.OldRecordAhead := by
    refine ⟨?_, ?_, ?_, ?_⟩
    · rw [hbuf, hfile]
      simp only [List.length_append, encodeFixed32_length, List.length_cons, List.length_nil]
      unfold kRecyclableHeaderSize
      omega
    · rw [hbuf, hfields.1]
      decide
    · rw [hbuf, hfields.1]
      decide
    · rw [hbuf, hfields.2, decodeFixed32_encodeFixed32, hnum]
      have : (logNumber.toUInt32).toNat < 2 ^ 32 := UInt32.toNat_lt _
      omega
  have hphys : r₀.readPhysicalRecord 0 = (r₁.markRecycled, ⟨kOldRecord, [], 0⟩) := by
    rw [Reader.readPhysicalRecord, readPhysicalRecordLoop_of_short r₀ 0 1 (by simp [r₀, Reader.new, kHeaderSize]) rfl,
      readPhysicalRecordLoop_oldRecord _ 0 0 hold]
  exact readRecord_of_oldRecord mode r₀ r₁ fuel hphys hold

/-- The log `2^32` with the one-byte record `0x01`, read under `kPointInTimeRecovery`: the
first `ReadRecord` returns `false`. -/
theorem readRecord_loses_wide_log_number_two_pow_32 :
    2 ^ 32 ≤ (2 ^ 32 : UInt64).toNat ∧ [(1 : UInt8)].length ≤ kBlockSize - kRecyclableHeaderSize ∧
      ((Reader.new ((Writer.new (2 ^ 32) true).addRecord [1]).dest true (2 ^ 32)).readRecord
        .pointInTimeRecovery 1).map Prod.snd = some none :=
  ⟨by decide, by decide,
    (readRecord_loses_wide_log_number (2 ^ 32) (by decide) [1] (by decide) .pointInTimeRecovery
      0).trans (if_neg (by decide))⟩

end RocksCloud.Log
