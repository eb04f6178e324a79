import Mathlib
import RocksCloud.Log.Reader

/-!
# Reading back what the log writer wrote

A log written by `log::Writer::AddRecord` and read by `log::Reader::ReadRecord` with checksums
on gives back its records, in order and whole, with no corruption reported, and then `false`
(`readRecords_addRecords`), in both formats and under every `WALRecoveryMode`. The recyclable
format needs the log number to fit in the 32 bits its header keeps; a wider one is cut to its
low 32 bits by the writer and the reader then drops the record.

The proof is a simulation between the writer's loop and the reader's:

* `Writer.Emits` is the trace of `AddRecord`'s loop over a record: a last fragment that holds
  what is left, after fragments that fill their blocks; `addRecordLoop_emits` says the loop runs
  to the end of the record within its fuel;
* `Reader.At ln log pos` says the reader has consumed the first `pos` bytes of `log`: the buffer
  is the rest of the block read last, and the unread file starts at a block boundary;
* `At.readPhysicalRecord_fragment` reads the fragment the writer emits at `pos`, after skipping a
  block trailer with `ReadMore`, and `At.readPhysicalRecord_trailer` reads a trailer that has
  room for a legacy header as a zero-type record, which `ReadRecord` skips;
* `At.readRecordLoop_emits`, by induction on the trace, reads one record, and
  `At.readRecords_of_addRecords` the whole log, by induction on the records.
-/

set_option autoImplicit false

namespace RocksCloud.Log

open RocksCloud.Util RocksCloud.Lib.Crc32c

/-! ## What `EmitPhysicalRecord` appends -/

/-- The header `EmitPhysicalRecord` writes before `payload`: the masked checksum of the type,
the stored log number and the payload; the length, low byte first; the type; and, in the
recyclable format, the low 32 bits of the log number. -/
def physicalHeader (logNumber : UInt64) (t : RecordType) (payload : Bytes) : Bytes :=
  let logBytes := if t.toNat < RecordType.recyclableFullType.toNat then []
    else encodeFixed32 logNumber.toUInt32
  encodeFixed32 (mask (extend (extend (typeCrc t) logBytes) payload)) ++
    [(payload.length &&& 0xff).toUInt8, (payload.length >>> 8).toUInt8, t.toNat.toUInt8] ++
      logBytes

/-- Extending a CRC over nothing leaves it. -/
theorem extend_nil (crc : UInt32) : extend crc [] = crc := by
  simp [extend]

/-- The length bytes of a header read back as the length, for a length below `2^16`. -/
theorem lengthBytes_decode (n : Nat) (h : n < 65536) :
    (n &&& 0xff).toUInt8.toNat ||| ((n >>> 8).toUInt8.toNat <<< 8) = n := by
  have hlo : (n &&& 0xff).toUInt8.toNat = n % 256 := by
    rw [Nat.toUInt8_eq, UInt8.toNat_ofNat', show (0xff : Nat) = 2 ^ 8 - 1 from rfl,
      Nat.and_two_pow_sub_one_eq_mod]
    omega
  have hhi : (n >>> 8).toUInt8.toNat = n / 256 := by
    rw [Nat.toUInt8_eq, UInt8.toNat_ofNat', Nat.shiftRight_eq_div_pow]
    omega
  -- the two bytes hold disjoint bits, so the `|` of the source is a sum
  rw [hlo, hhi, Nat.lor_comm, ← Nat.shiftLeft_add_eq_or_of_lt (by omega), Nat.shiftLeft_eq]
  omega

/-- The type byte of a header reads back as the type. -/
theorem headerType_toUInt8 (t : RecordType) : headerType t.toNat.toUInt8 = t.toNat := by
  cases t <;> rfl

/-- A fragment's type is recyclable exactly in the recyclable format. -/
theorem fragmentType_lt_iff (recycleLogFiles begin atEnd : Bool) :
    (fragmentType recycleLogFiles begin atEnd).toNat < RecordType.recyclableFullType.toNat ↔
      recycleLogFiles = false := by
  cases recycleLogFiles <;> cases begin <;> cases atEnd <;> decide

/-- `EmitPhysicalRecord` appends the header and the payload. -/
theorem emitPhysicalRecord_eq (w : Writer) (t : RecordType) (payload : Bytes) :
    w.emitPhysicalRecord t payload =
      { w with
        dest := w.dest ++ physicalHeader w.logNumber t payload ++ payload
        blockOffset := w.blockOffset + (physicalHeader w.logNumber t payload).length +
          payload.length } := by
  by_cases ht : t.toNat < RecordType.recyclableFullType.toNat
  · -- the legacy header is the first seven bytes of the buffer
    have htake : ∀ (a b c : Bytes), a.length = 4 → b.length = 3 →
        (a ++ b ++ c).take kHeaderSize = a ++ b := by
      intro a b c ha hb
      exact List.take_left' (by simp [ha, hb, kHeaderSize])
    simp only [Writer.emitPhysicalRecord, physicalHeader, ht, if_true, extend_nil, List.append_nil]
    rw [htake _ _ _ (encodeFixed32_length _) rfl]
    simp [kHeaderSize]
  · rw [emitPhysicalRecord_recyclable w t payload (by omega)]
    simp [physicalHeader, ht, kRecyclableHeaderSize, List.append_assoc]

/-- The header of a fragment has the writer's header size. -/
theorem physicalHeader_length (w : Writer) (begin atEnd : Bool) (payload : Bytes) :
    (physicalHeader w.logNumber (fragmentType w.recycleLogFiles begin atEnd) payload).length =
      w.headerSize := by
  have h := fragmentType_lt_iff w.recycleLogFiles begin atEnd
  unfold physicalHeader Writer.headerSize
  cases hr : w.recycleLogFiles
  · have hlt : (fragmentType false begin atEnd).toNat < RecordType.recyclableFullType.toNat := by
      rw [hr] at h
      exact h.mpr rfl
    simp [hlt, kHeaderSize]
  · have hlt : ¬ (fragmentType true begin atEnd).toNat < RecordType.recyclableFullType.toNat := by
      rw [hr] at h
      simp [h]
    simp [hlt, kRecyclableHeaderSize]

/-! ## The trace of `AddRecord`'s loop -/

/-- The room the loop of `AddRecord` leaves for a fragment's payload after its header. -/
def Writer.avail (w : Writer) : Nat := kBlockSize - w.blockOffset - w.headerSize

/-- The turns of `AddRecord`'s loop from the writer `w` with `left` still to write, in `n`
fragments, ending with the writer `w'`: a last fragment holds all that is left, an earlier one
fills the room of its block. Each turn starts by closing a block with no room for a header. -/
inductive Writer.Emits : Writer → Bytes → Bool → Nat → Writer → Prop
  | last {w : Writer} {left : Bytes} {begin : Bool} (hfit : left.length ≤ w.switchBlock.avail) :
      Emits w left begin 1
        (w.switchBlock.emitPhysicalRecord (fragmentType w.recycleLogFiles begin true) left)
  | more {w w' : Writer} {left : Bytes} {begin : Bool} {n : Nat}
      (hmore : w.switchBlock.avail < left.length)
      (rest : Emits
        (w.switchBlock.emitPhysicalRecord (fragmentType w.recycleLogFiles begin false)
          (left.take w.switchBlock.avail))
        (left.drop w.switchBlock.avail) false n w') :
      Emits w left begin (n + 1) w'

/-- The turns the loop needs: one per byte, and one more for an empty record or for a first
fragment with no room for a byte. -/
def Writer.turnBound (w : Writer) (left : Bytes) : Nat :=
  left.length + if 0 < w.switchBlock.avail ∧ left ≠ [] then 0 else 1

@[simp] theorem switchBlock_recycleLogFiles (w : Writer) :
    w.switchBlock.recycleLogFiles = w.recycleLogFiles := by
  unfold Writer.switchBlock
  split <;> rfl

@[simp] theorem switchBlock_logNumber (w : Writer) : w.switchBlock.logNumber = w.logNumber := by
  unfold Writer.switchBlock
  split <;> rfl

@[simp] theorem switchBlock_headerSize (w : Writer) : w.switchBlock.headerSize = w.headerSize := by
  simp [Writer.headerSize]

theorem headerSize_pos (w : Writer) : 0 < w.headerSize := by
  unfold Writer.headerSize kRecyclableHeaderSize kHeaderSize
  split <;> omega

/-- A fragment that fills the room of its block ends the block. -/
theorem emitPhysicalRecord_fills {w : Writer} (hroom : w.headerSize ≤ kBlockSize - w.blockOffset)
    (begin atEnd : Bool) (payload : Bytes) (hlen : payload.length = w.avail) :
    (w.emitPhysicalRecord (fragmentType w.recycleLogFiles begin atEnd) payload).blockOffset =
      kBlockSize := by
  have hsize := headerSize_pos w
  rw [emitPhysicalRecord_eq, physicalHeader_length]
  unfold Writer.avail at hlen
  dsimp only
  omega

/-- A turn from the end of a block closes no trailer: the next block starts. -/
theorem switchBlock_of_full {w : Writer} (h : w.blockOffset = kBlockSize) :
    w.switchBlock = { w with blockOffset := 0 } := by
  have hsize := headerSize_pos w
  have hshort : kBlockSize - w.blockOffset < w.headerSize := by omega
  unfold Writer.switchBlock
  rw [if_pos hshort, h, Nat.sub_self, List.replicate_zero, List.append_nil]

/-- A new block has room for a byte after a header. -/
theorem avail_switchBlock_of_full {w : Writer} (h : w.blockOffset = kBlockSize) :
    0 < w.switchBlock.avail := by
  rw [switchBlock_of_full h]
  unfold Writer.avail Writer.headerSize kBlockSize kRecyclableHeaderSize kHeaderSize
  dsimp only
  split <;> omega

/-- The loop of `AddRecord` writes the whole record: with `turnBound` turns of fuel it runs the
trace to its end, in at most that many fragments. -/
theorem addRecordLoop_emits (fuel : Nat) (w : Writer) (left : Bytes) (begin : Bool)
    (hw : w.Aligned) (hfuel : w.turnBound left ≤ fuel) :
    ∃ n ≤ w.turnBound left, w.Emits left begin n (w.addRecordLoop fuel left begin) := by
  induction fuel generalizing w left begin with
  | zero =>
      unfold Writer.turnBound at hfuel
      split at hfuel
      · rename_i h
        have : left.length ≠ 0 := by simpa using h.2
        omega
      · omega
  | succ fuel ih =>
      obtain ⟨haligned, hroom, -⟩ := switchBlock_aligned hw
      simp only [Writer.addRecordLoop]
      by_cases hfit : left.length ≤ w.switchBlock.avail
      · -- the rest of the record fits: the last fragment
        have hmin : min left.length (kBlockSize - w.switchBlock.blockOffset -
            w.switchBlock.headerSize) = left.length := by
          unfold Writer.avail at hfit
          omega
        have hend : decide (left.length = left.length) = true := decide_eq_true rfl
        rw [hmin, Nat.sub_self, if_neg (Nat.lt_irrefl 0), List.take_length, hend,
          switchBlock_recycleLogFiles]
        refine ⟨1, ?_, Writer.Emits.last hfit⟩
        unfold Writer.turnBound
        split
        · rename_i h
          have : left.length ≠ 0 := by simpa using h.2
          omega
        · omega
      · -- a fragment fills the block and the loop goes on in the next one
        have hmin : min left.length (kBlockSize - w.switchBlock.blockOffset -
            w.switchBlock.headerSize) = w.switchBlock.avail := by
          unfold Writer.avail at hfit ⊢
          omega
        have hlt : left.length - w.switchBlock.avail > 0 := by omega
        rw [hmin, if_pos hlt, switchBlock_recycleLogFiles]
        have hne : decide (left.length = w.switchBlock.avail) = false :=
          decide_eq_false (by omega)
        rw [hne]
        set w₂ := w.switchBlock.emitPhysicalRecord (fragmentType w.recycleLogFiles begin false)
          (left.take w.switchBlock.avail) with hw₂
        have hfull : w₂.blockOffset = kBlockSize := by
          rw [hw₂, ← switchBlock_recycleLogFiles]
          exact emitPhysicalRecord_fills hroom begin false _ (by rw [List.length_take]; omega)
        have hw₂a : w₂.Aligned := by
          rw [hw₂, ← switchBlock_recycleLogFiles]
          exact emitPhysicalRecord_aligned haligned begin false _ hroom
            (by rw [List.length_take]; unfold Writer.avail at hfit ⊢; omega)
        -- the next turn has a new block, so the rest of the record needs a turn per byte
        have hbound : w₂.turnBound (left.drop w.switchBlock.avail) =
            left.length - w.switchBlock.avail := by
          unfold Writer.turnBound
          rw [if_pos ⟨avail_switchBlock_of_full hfull, by
            rw [ne_eq, List.drop_eq_nil_iff]; omega⟩, List.length_drop]
          rfl
        have hle : w₂.turnBound (left.drop w.switchBlock.avail) ≤ fuel := by
          rw [hbound]
          unfold Writer.turnBound at hfuel
          split at hfuel <;> omega
        obtain ⟨n, hn, hemits⟩ := ih w₂ _ false hw₂a hle
        refine ⟨n + 1, ?_, Writer.Emits.more (by omega) hemits⟩
        rw [hbound] at hn
        unfold Writer.turnBound
        split <;> omega

/-! ## Parsing -/

theorem encodeFixed32_eq_four (v : UInt32) : ∃ a b c d, encodeFixed32 v = [a, b, c, d] := by
  have h := encodeFixed32_length v
  match encodeFixed32 v, h with
  | [a, b, c, d], _ => exact ⟨a, b, c, d, rfl⟩

theorem checkRecord_header (r : Reader) (t : RecordType) (ht : t ≠ .zeroType) (L p rest : Bytes)
    (lo hi : UInt8) (d : Nat)
    (hbuf : r.buffer = encodeFixed32 (mask (extend (extend (typeCrc t) L) p)) ++
      [lo, hi, t.toNat.toUInt8] ++ L ++ p ++ rest) :
    r.checkRecord (7 + L.length) t.toNat p.length d =
      ({ r with buffer := rest }, ⟨t.toNat, p, d⟩) := by
  set crc := mask (extend (extend (typeCrc t) L) p) with hcrc
  obtain ⟨a, b, c, e, hfour⟩ := encodeFixed32_eq_four crc
  have hdec : decodeFixed32 r.buffer = crc := by
    rw [hbuf, List.append_assoc, List.append_assoc, List.append_assoc, decodeFixed32_encodeFixed32]
  -- what the checksum covers: the type byte, the stored log number and the payload
  have hbody : (r.buffer.drop 6).take (p.length + (7 + L.length) - 6) =
      [t.toNat.toUInt8] ++ L ++ p := by
    rw [hbuf, hfour, show p.length + (7 + L.length) - 6 = (L ++ p).length + 1 by simp; omega]
    simp only [List.cons_append, List.nil_append, List.drop_succ_cons, List.drop_zero,
      List.take_succ_cons, List.append_assoc]
    rw [← List.append_assoc L, List.take_left' rfl]
  have hvalue : value ([t.toNat.toUInt8] ++ L ++ p) = unmask (decodeFixed32 r.buffer) := by
    rw [hdec, hcrc, unmask_mask, ← extend_value, ← extend_value]
    rfl
  have hfits : ¬ 7 + L.length + p.length > r.buffer.length := by
    rw [hbuf]
    simp
    omega
  have hzero : ¬ (t.toNat = RecordType.zeroType.toNat ∧ p.length = 0) := by
    rintro ⟨h, -⟩
    cases t <;> simp_all [RecordType.toNat]
  unfold Reader.checkRecord
  rw [if_neg hfits, if_neg hzero, hbody, hvalue, if_neg (fun h => h.2 rfl)]
  have hdrop : r.buffer.drop (7 + L.length + p.length) = rest := by
    rw [hbuf]
    exact List.drop_left' (by simp; omega)
  have hpayload : (r.buffer.drop (7 + L.length)).take p.length = p := by
    rw [hbuf, List.append_assoc _ p rest, List.drop_left' (by simp; omega)]
    exact List.take_left' rfl
  rw [hdrop, hpayload]

/-- What `At` reads of a reader, other than its buffer, is the same in `r'` as in `r`. -/
structure Reader.SameFile (r r' : Reader) : Prop where
  file : r'.file = r.file
  eof : r'.eof = r.eof
  checksum : r'.checksum = r.checksum
  logNumber : r'.logNumber = r.logNumber
  reports : r'.reports = r.reports

theorem fragmentType_ne_zeroType (recycleLogFiles begin atEnd : Bool) :
    fragmentType recycleLogFiles begin atEnd ≠ .zeroType := by
  cases recycleLogFiles <;> cases begin <;> cases atEnd <;> decide

/-- A reader whose buffer starts with a fragment the writer emitted parses it in one turn: the
length and type bytes, in the recyclable format the log number, and the checksum all read
back. -/
theorem readPhysicalRecordTurn_fragment {r : Reader} {rc begin atEnd : Bool} {p rest : Bytes}
    (hbuf : r.buffer = physicalHeader r.logNumber (fragmentType rc begin atEnd) p ++ p ++ rest)
    (hp : p.length < 65536) (hlog : rc = true → r.logNumber.toNat < 2 ^ 32) (d : Nat) :
    ∃ r', r.readPhysicalRecordTurn d = .ret (r', ⟨(fragmentType rc begin atEnd).toNat, p, d⟩) ∧
      r'.buffer = rest ∧ r.SameFile r' := by
  set t := fragmentType rc begin atEnd with ht
  set L : Bytes := if t.toNat < RecordType.recyclableFullType.toNat then []
    else encodeFixed32 r.logNumber.toUInt32 with hL
  set crc := mask (extend (extend (typeCrc t) L) p)
  obtain ⟨a, b, c, e, hfour⟩ := encodeFixed32_eq_four crc
  have hbuf' : r.buffer = encodeFixed32 crc ++
      [(p.length &&& 0xff).toUInt8, (p.length >>> 8).toUInt8, t.toNat.toUInt8] ++ L ++ p ++ rest :=
    hbuf
  -- the length and type bytes behind the checksum
  have hfields : r.buffer.getD 4 0 = (p.length &&& 0xff).toUInt8 ∧
      r.buffer.getD 5 0 = (p.length >>> 8).toUInt8 ∧ r.buffer.getD 6 0 = t.toNat.toUInt8 := by
    rw [hbuf', hfour]
    exact ⟨rfl, rfl, rfl⟩
  have hlong : ¬ r.buffer.length < kHeaderSize := by
    rw [hbuf']
    simp [kHeaderSize]
    omega
  have hcheck :=
    checkRecord_header r t (fragmentType_ne_zeroType rc begin atEnd) L p rest _ _ d hbuf'
  unfold Reader.readPhysicalRecordTurn
  simp only [hfields, lengthBytes_decode p.length hp, headerType_toUInt8, if_neg hlong]
  cases hrc : rc
  · -- the legacy format: no log number is stored
    have hlt : t.toNat < RecordType.recyclableFullType.toNat := (fragmentType_lt_iff _ _ _).mpr hrc
    have hL0 : L = [] := by rw [hL, if_pos hlt]
    rw [if_neg (by omega)]
    rw [hL0] at hcheck
    exact ⟨{ r with buffer := rest },
      by rw [show kHeaderSize = 7 + ([] : Bytes).length from rfl, hcheck], rfl,
      ⟨rfl, rfl, rfl, rfl, rfl⟩⟩
  · -- the recyclable format: the stored log number is the reader's
    have hge : ¬ t.toNat < RecordType.recyclableFullType.toNat := by
      rw [fragmentType_lt_iff]
      simp [hrc]
    have hle : t.toNat ≤ RecordType.recyclableLastType.toNat := by
      rw [ht, hrc]
      cases begin <;> cases atEnd <;> decide
    have hL4 : L = encodeFixed32 r.logNumber.toUInt32 := by rw [hL, if_neg hge]
    have hlong' : ¬ r.markRecycled.buffer.length < kRecyclableHeaderSize := by
      rw [markRecycled_eq]
      dsimp only
      rw [hbuf', hL4]
      simp [kRecyclableHeaderSize]
      omega
    have hnum : (decodeFixed32 (r.buffer.drop 7)).toNat = r.markRecycled.logNumber.toNat := by
      rw [hbuf', hfour, hL4]
      simp only [List.cons_append, List.nil_append, List.drop_succ_cons, List.drop_zero,
        List.append_assoc, decodeFixed32_encodeFixed32, markRecycled_eq, UInt64.toNat_toUInt32]
      exact Nat.mod_eq_of_lt (hlog hrc)
    rw [if_pos ⟨by omega, hle⟩, if_neg hlong', if_neg (fun h => h hnum)]
    have hcheck' :=
      checkRecord_header r.markRecycled t (fragmentType_ne_zeroType rc begin atEnd) L p
        rest _ _ d (by rw [markRecycled_eq]; exact hbuf')
    rw [hL4] at hcheck'
    refine ⟨{ r.markRecycled with buffer := rest }, ?_, rfl, ?_⟩
    · rw [show kRecyclableHeaderSize = 7 + (encodeFixed32 r.logNumber.toUInt32).length by
        simp [kRecyclableHeaderSize], hcheck']
    · simp only [markRecycled_eq]
      exact ⟨rfl, rfl, rfl, rfl, rfl⟩

/-! ## The reader at a position of the log -/

/-- The reader has consumed the first `pos` bytes of the log `log` of number `logNumber`: the
buffer and the unread file are the rest of the log; before the end of the file the buffer is
the rest of the block read last, so that the file starts at a block boundary; once the end of
the file has been seen, the buffer is the rest of the last block. Checksums are on and no
corruption has been reported. -/
structure Reader.At (logNumber : UInt64) (log : Bytes) (pos : Nat) (r : Reader) : Prop where
  rest : r.buffer ++ r.file = log.drop pos
  block : r.eof = false → (pos + r.buffer.length) % kBlockSize = 0 ∧ r.buffer.length ≤ kBlockSize
  last : r.eof = true → r.file = [] ∧ pos % kBlockSize + r.buffer.length < kBlockSize
  checksum : r.checksum = true
  logNumber_eq : r.logNumber = logNumber
  reports : r.reports = []

/-- A reader on a log, with checksums on, starts at its first byte. -/
theorem at_new (logNumber : UInt64) (log : Bytes) :
    (Reader.new log true logNumber).At logNumber log 0 where
  rest := by simp [Reader.new]
  block _ := by simp [Reader.new]
  last h := by simp [Reader.new] at h
  checksum := rfl
  logNumber_eq := rfl
  reports := rfl

section At

variable {logNumber : UInt64} {log : Bytes} {pos : Nat} {r : Reader}

/-- Consuming `k` bytes of the buffer, and changing nothing else `At` reads, moves the reader
`k` bytes on. -/
theorem Reader.At.drop (hat : r.At logNumber log pos) {k : Nat} (hk : k ≤ r.buffer.length)
    {r' : Reader} (hbuffer : r'.buffer = r.buffer.drop k) (hsame : r.SameFile r') :
    r'.At logNumber log (pos + k) where
  rest := by
    rw [hbuffer, hsame.file, ← List.drop_append_of_le_length hk, hat.rest, List.drop_drop]
  block heof := by
    obtain ⟨hmod, hle⟩ := hat.block (hsame.eof.symm.trans heof)
    rw [hbuffer, List.length_drop,
      show pos + k + (r.buffer.length - k) = pos + r.buffer.length by omega]
    exact ⟨hmod, by omega⟩
  last heof := by
    obtain ⟨hfile, hlt⟩ := hat.last (hsame.eof.symm.trans heof)
    refine ⟨hsame.file.trans hfile, ?_⟩
    rw [hbuffer, List.length_drop]
    unfold kBlockSize at *
    omega
  checksum := hsame.checksum.trans hat.checksum
  logNumber_eq := hsame.logNumber.trans hat.logNumber_eq
  reports := hsame.reports.trans hat.reports

/-- A reader that differs only where `At` does not look is at the same position. -/
theorem Reader.At.of_same (hat : r.At logNumber log pos) {r' : Reader}
    (hbuffer : r'.buffer = r.buffer) (hsame : r.SameFile r') : r'.At logNumber log pos := by
  simpa using hat.drop (Nat.zero_le _) (by rw [hbuffer, List.drop_zero]) hsame

/-- The unread file starts where the buffer ends. -/
theorem Reader.At.file_eq (hat : r.At logNumber log pos) :
    r.file = log.drop (pos + r.buffer.length) := by
  have h := congrArg (List.drop r.buffer.length) hat.rest
  rwa [List.drop_left' rfl, List.drop_drop] at h

/-- `ReadMore` before the end of the file drops what is left of the buffer and reads the next
block of the log. -/
theorem Reader.At.readMore (hat : r.At logNumber log pos) (heof : r.eof = false) (d : Nat) :
    (r.readMore d).1.At logNumber log (pos + r.buffer.length) ∧
      (r.readMore d).1.buffer = (log.drop (pos + r.buffer.length)).take kBlockSize := by
  have hfile := hat.file_eq
  obtain ⟨hmod, -⟩ := hat.block heof
  rw [readMore_of_not_eof r d heof, hfile]
  refine ⟨⟨List.take_append_drop _ _, fun hne => ?_, fun he => ?_, hat.checksum,
    hat.logNumber_eq, hat.reports⟩, rfl⟩
  · -- a full block: the next one starts after it
    simp only [decide_eq_false_iff_not, List.length_take, List.length_drop] at hne ⊢
    unfold kBlockSize at *
    omega
  · -- a short block: the end of the file
    simp only [decide_eq_true_eq, List.length_take, List.length_drop] at he ⊢
    refine ⟨List.drop_eq_nil_of_le (by simp; omega), ?_⟩
    unfold kBlockSize at *
    omega

/-- Where a piece of `n` bytes the writer puts at offset `off` of its block lies for the reader
at its start: the reader has not read that block yet, or its buffer holds the whole piece. -/
theorem Reader.At.covers (hat : r.At logNumber log pos) {off n : Nat}
    (hoff : pos % kBlockSize = off % kBlockSize) (hle : off + n ≤ kBlockSize)
    (hn : n ≤ (log.drop pos).length) :
    (r.buffer = [] ∧ r.eof = false) ∨ n ≤ r.buffer.length := by
  cases heof : r.eof
  · obtain ⟨hmod, hbl⟩ := hat.block heof
    by_cases hb : r.buffer = []
    · exact Or.inl ⟨hb, rfl⟩
    · -- the buffer is the rest of the block the piece lies in
      have hpos : 0 < r.buffer.length := List.length_pos_iff.mpr hb
      right
      unfold kBlockSize at *
      omega
  · obtain ⟨hfile, -⟩ := hat.last heof
    have hrest := hat.rest
    rw [hfile, List.append_nil] at hrest
    right
    rw [hrest]
    exact hn

/-- A buffer that holds the whole of what the log has next starts with it. -/
theorem Reader.At.buffer_eq (hat : r.At logNumber log pos) {E G : Bytes}
    (hE : log.drop pos = E ++ G) (hcover : E.length ≤ r.buffer.length) :
    r.buffer = E ++ r.buffer.drop E.length := by
  have htake : r.buffer.take E.length = E := by
    rw [← List.take_append_of_le_length hcover, hat.rest, hE, List.take_left' rfl]
  conv_lhs => rw [← List.take_append_drop E.length r.buffer, htake]

end At

/-! ## Reading a fragment -/

/-- The trailer the writer closes its block with has room for a legacy header. The reader then
takes it for a zero-type record rather than skipping it; this happens only in the recyclable
format. -/
def Writer.LongTrailer (w : Writer) : Prop :=
  kHeaderSize ≤ kBlockSize - w.blockOffset ∧ kBlockSize - w.blockOffset < w.headerSize

@[simp] theorem emitPhysicalRecord_logNumber (w : Writer) (t : RecordType) (payload : Bytes) :
    (w.emitPhysicalRecord t payload).logNumber = w.logNumber := rfl

@[simp] theorem emitPhysicalRecord_recycleLogFiles (w : Writer) (t : RecordType) (payload : Bytes) :
    (w.emitPhysicalRecord t payload).recycleLogFiles = w.recycleLogFiles := rfl

/-- A fragment the writer emits after `switchBlock` is its header and payload. -/
theorem emitPhysicalRecord_dest (w : Writer) (begin atEnd : Bool) (payload : Bytes) :
    (w.switchBlock.emitPhysicalRecord (fragmentType w.recycleLogFiles begin atEnd) payload).dest =
      w.switchBlock.dest ++
        (physicalHeader w.logNumber (fragmentType w.recycleLogFiles begin atEnd) payload ++
          payload) := by
  rw [emitPhysicalRecord_eq, switchBlock_logNumber, List.append_assoc]

/-- What the start of a turn appends: a trailer of zeros, when the block has no room for a
header. -/
theorem switchBlock_dest (w : Writer) :
    w.switchBlock.dest = w.dest ++ List.replicate
      (if kBlockSize - w.blockOffset < w.headerSize then kBlockSize - w.blockOffset else 0) 0 := by
  unfold Writer.switchBlock
  split <;> simp

section Fragment

variable {logNumber : UInt64} {log : Bytes} {pos : Nat} {r : Reader}

/-- A reader whose buffer holds the whole of the fragment ahead parses it in one turn. -/
theorem Reader.At.readPhysicalRecordTurn_of_cover (hat : r.At logNumber log pos)
    {rc begin atEnd : Bool} {p G : Bytes}
    (hE : log.drop pos = physicalHeader logNumber (fragmentType rc begin atEnd) p ++ p ++ G)
    (hcover : (physicalHeader logNumber (fragmentType rc begin atEnd) p ++ p).length ≤
      r.buffer.length)
    (hp : p.length < 65536) (hlog : rc = true → logNumber.toNat < 2 ^ 32) (d : Nat) :
    ∃ r', r.readPhysicalRecordTurn d = .ret (r', ⟨(fragmentType rc begin atEnd).toNat, p, d⟩) ∧
      r'.At logNumber log
        (pos + (physicalHeader logNumber (fragmentType rc begin atEnd) p ++ p).length) := by
  have hbuf := hat.buffer_eq hE hcover
  obtain ⟨r', hturn, hbuf', hsame⟩ := readPhysicalRecordTurn_fragment (r := r)
    (by rw [hat.logNumber_eq]; exact hbuf) hp (by rw [hat.logNumber_eq]; exact hlog) d
  exact ⟨r', hturn, hat.drop hcover hbuf' hsame⟩

/-- A reader whose buffer holds the whole of the fragment ahead reads it. -/
theorem Reader.At.readPhysicalRecord_of_cover (hat : r.At logNumber log pos)
    {rc begin atEnd : Bool} {p G : Bytes}
    (hE : log.drop pos = physicalHeader logNumber (fragmentType rc begin atEnd) p ++ p ++ G)
    (hcover : (physicalHeader logNumber (fragmentType rc begin atEnd) p ++ p).length ≤
      r.buffer.length)
    (hp : p.length < 65536) (hlog : rc = true → logNumber.toNat < 2 ^ 32) :
    ∃ r', r.readPhysicalRecord 0 = (r', ⟨(fragmentType rc begin atEnd).toNat, p, 0⟩) ∧
      r'.At logNumber log
        (pos + (physicalHeader logNumber (fragmentType rc begin atEnd) p ++ p).length) := by
  obtain ⟨r', hturn, hat'⟩ := hat.readPhysicalRecordTurn_of_cover hE hcover hp hlog 0
  refine ⟨r', ?_, hat'⟩
  simp only [Reader.readPhysicalRecord, Reader.readPhysicalRecordLoop, hturn]

/-- A reader whose buffer is short of a header, before the end of the file, drops it, reads the
next block and parses the fragment at its start. -/
theorem Reader.At.readPhysicalRecord_of_short (hat : r.At logNumber log pos)
    (heof : r.eof = false) (hshort : r.buffer.length < kHeaderSize) {rc begin atEnd : Bool}
    {p G : Bytes}
    (hE : log.drop (pos + r.buffer.length) =
      physicalHeader logNumber (fragmentType rc begin atEnd) p ++ p ++ G)
    (hblock : (physicalHeader logNumber (fragmentType rc begin atEnd) p ++ p).length ≤ kBlockSize)
    (hp : p.length < 65536) (hlog : rc = true → logNumber.toNat < 2 ^ 32) :
    ∃ r', r.readPhysicalRecord 0 = (r', ⟨(fragmentType rc begin atEnd).toNat, p, 0⟩) ∧
      r'.At logNumber log (pos + r.buffer.length +
        (physicalHeader logNumber (fragmentType rc begin atEnd) p ++ p).length) := by
  obtain ⟨hat₁, hbuf₁⟩ := hat.readMore heof 0
  have hcover : (physicalHeader logNumber (fragmentType rc begin atEnd) p ++ p).length ≤
      (r.readMore 0).1.buffer.length := by
    rw [hbuf₁, hE, List.length_take]
    simp only [List.length_append] at hblock ⊢
    omega
  obtain ⟨r', hturn, hat'⟩ := hat₁.readPhysicalRecordTurn_of_cover hE hcover hp hlog 0
  refine ⟨r', ?_, hat'⟩
  rw [Reader.readPhysicalRecord, readPhysicalRecordLoop_of_short r 0 1 hshort heof]
  simp only [Reader.readPhysicalRecordLoop, hturn]

end Fragment

section Turn

variable {w : Writer} {log : Bytes} {r : Reader}

/-- The reader at the position where the writer `w` starts a turn of `AddRecord` reads the
fragment of that turn. A trailer too short for a legacy header is dropped by `ReadMore` on the
way; a longer one is `At.readPhysicalRecord_trailer`'s. -/
theorem Reader.At.readPhysicalRecord_fragment (hw : w.Aligned)
    (hlog : w.recycleLogFiles = true → w.logNumber.toNat < 2 ^ 32)
    (hat : r.At w.logNumber log w.dest.length) (hnt : ¬ w.LongTrailer) (begin atEnd : Bool)
    (p : Bytes) (hp : p.length ≤ w.switchBlock.avail)
    (hpre : (w.switchBlock.emitPhysicalRecord (fragmentType w.recycleLogFiles begin atEnd)
      p).dest <+: log) :
    ∃ r', r.readPhysicalRecord 0 =
        (r', ⟨(fragmentType w.recycleLogFiles begin atEnd).toNat, p, 0⟩) ∧
      r'.At w.logNumber log
        (w.switchBlock.emitPhysicalRecord
          (fragmentType w.recycleLogFiles begin atEnd) p).dest.length := by
  set E := physicalHeader w.logNumber (fragmentType w.recycleLogFiles begin atEnd) p ++ p with hEdef
  obtain ⟨haligned, hroom, -⟩ := switchBlock_aligned hw
  obtain ⟨hle, hmod⟩ := hw
  obtain ⟨hle₁, hmod₁⟩ := haligned
  have hElen : E.length = w.headerSize + p.length := by
    rw [hEdef, List.length_append, physicalHeader_length]
  have hfit : w.switchBlock.blockOffset + E.length ≤ kBlockSize := by
    unfold Writer.avail at hp
    rw [switchBlock_headerSize] at hroom hp
    omega
  have hEB : E.length ≤ kBlockSize := by omega
  have hp' : p.length < 65536 := by
    unfold Writer.avail kBlockSize at hp
    omega
  obtain ⟨G, hG⟩ := hpre
  rw [emitPhysicalRecord_dest] at hG ⊢
  have hE : log.drop w.switchBlock.dest.length = E ++ G := by
    rw [← hG, List.append_assoc, List.drop_left' rfl]
  rw [List.length_append]
  have hdest := switchBlock_dest w
  by_cases htrailer : 0 < kBlockSize - w.blockOffset ∧ kBlockSize - w.blockOffset < w.headerSize
  · -- a trailer of fewer than seven zeros: the reader holds it and drops it with `ReadMore`
    have hshort : kBlockSize - w.blockOffset < kHeaderSize := by
      unfold Writer.LongTrailer at hnt
      omega
    rw [if_pos htrailer.2] at hdest
    have hrest : log.drop w.dest.length =
        List.replicate (kBlockSize - w.blockOffset) 0 ++ (E ++ G) := by
      rw [← hG, hdest, List.append_assoc, List.append_assoc, List.drop_left' rfl]
    have hlen :
        (log.drop w.dest.length).length = kBlockSize - w.blockOffset + E.length + G.length := by
      rw [hrest]
      simp
      omega
    cases heof : r.eof
    · obtain ⟨hblock, hbl_le⟩ := hat.block heof
      have hbl : r.buffer.length = kBlockSize - w.blockOffset := by
        unfold kBlockSize at *
        omega
      have hpos : w.dest.length + r.buffer.length = w.switchBlock.dest.length := by
        rw [hdest, List.length_append, List.length_replicate, hbl]
      obtain ⟨r', hread, hat'⟩ := hat.readPhysicalRecord_of_short heof (by omega)
        (by rw [hpos, hE]) hEB hp' hlog
      refine ⟨r', hread, ?_⟩
      rw [← hpos]
      exact hat'
    · -- the end of the file cannot lie past the trailer of the block it is in
      exfalso
      obtain ⟨hfile, hlast⟩ := hat.last heof
      have hrest' := hat.rest
      rw [hfile, List.append_nil] at hrest'
      have hbl : r.buffer.length = (log.drop w.dest.length).length := by rw [hrest']
      unfold kBlockSize at *
      omega
  · -- no bytes to skip: the fragment starts where the reader is
    have hsame : w.switchBlock.dest = w.dest := by
      rw [hdest]
      split
      · have : kBlockSize - w.blockOffset = 0 := by omega
        simp [this]
      · simp
    rw [hsame] at hE hmod₁ ⊢
    rcases hat.covers hmod₁ hfit (by rw [hE]; exact (List.prefix_append E G).length_le) with
      ⟨hempty, heof⟩ | hcover
    · have hE' : log.drop (w.dest.length + r.buffer.length) = E ++ G := by
        rw [hempty, List.length_nil, Nat.add_zero, hE]
      obtain ⟨r', hread, hat'⟩ := hat.readPhysicalRecord_of_short heof
        (by rw [hempty]; decide) hE' hEB hp' hlog
      refine ⟨r', hread, ?_⟩
      rw [hempty, List.length_nil, Nat.add_zero] at hat'
      exact hat'
    · exact hat.readPhysicalRecord_of_cover hE hcover hp' hlog

/-- A trailer with room for a legacy header, which only the recyclable format leaves, reads as
a zero-length record of type zero, `kBadRecord`, and the buffer is dropped with it. -/
theorem Reader.At.readPhysicalRecord_trailer (hw : w.Aligned)
    (hat : r.At w.logNumber log w.dest.length) (ht : w.LongTrailer)
    (hpre : w.switchBlock.dest <+: log) (hmore : w.switchBlock.dest.length < log.length) :
    ∃ r', r.readPhysicalRecord 0 = (r', ⟨kBadRecord, [], 0⟩) ∧
      r'.At w.logNumber log w.switchBlock.dest.length := by
  obtain ⟨hle, hmod⟩ := hw
  obtain ⟨hlong, hshort⟩ := ht
  have hdest : w.switchBlock.dest = w.dest ++ List.replicate (kBlockSize - w.blockOffset) 0 := by
    rw [switchBlock_dest, if_pos hshort]
  obtain ⟨G, hG⟩ := hpre
  have hrest : log.drop w.dest.length = List.replicate (kBlockSize - w.blockOffset) 0 ++ G := by
    rw [← hG, hdest, List.append_assoc, List.drop_left' rfl]
  have hG1 : 0 < G.length := by
    rw [← hG, List.length_append] at hmore
    omega
  have hlen : (log.drop w.dest.length).length = kBlockSize - w.blockOffset + G.length := by
    rw [hrest, List.length_append, List.length_replicate]
  have hsize : w.headerSize ≤ kRecyclableHeaderSize := by
    unfold Writer.headerSize
    split <;> decide
  cases heof : r.eof
  · obtain ⟨hblock, hbl_le⟩ := hat.block heof
    -- the buffer is the trailer
    have hbl : r.buffer.length = kBlockSize - w.blockOffset := by
      unfold kBlockSize kRecyclableHeaderSize kHeaderSize at *
      omega
    have hbuf : r.buffer = List.replicate (kBlockSize - w.blockOffset) 0 := by
      have h := hat.buffer_eq hrest (by rw [hbl, List.length_replicate])
      rw [List.length_replicate, ← hbl, List.drop_length, List.append_nil, hbl] at h
      exact h
    have hfields : r.buffer.getD 4 0 = 0 ∧ r.buffer.getD 5 0 = 0 ∧ r.buffer.getD 6 0 = 0 := by
      rw [hbuf]
      simp only [List.getD_eq_getElem?_getD, List.getElem?_replicate]
      refine ⟨?_, ?_, ?_⟩ <;> split <;> rfl
    have hturn : r.readPhysicalRecordTurn 0 =
        .ret ({ r with buffer := [] }, ⟨kBadRecord, [], 0⟩) := by
      have h7 : ¬ r.buffer.length < kHeaderSize := by omega
      have hfits : ¬ kHeaderSize + 0 > r.buffer.length := by omega
      unfold Reader.readPhysicalRecordTurn Reader.checkRecord
      simp only [hfields, if_neg h7]
      simp [headerType, RecordType.toNat, h7]
    refine ⟨{ r with buffer := [] }, ?_, ?_⟩
    · simp only [Reader.readPhysicalRecord, Reader.readPhysicalRecordLoop, hturn]
    · have hat' : Reader.At w.logNumber log (w.dest.length + r.buffer.length)
          { r with buffer := [] } := hat.drop (le_refl _) (by simp) ⟨rfl, rfl, rfl, rfl, rfl⟩
      rwa [hbl, ← List.length_replicate (n := kBlockSize - w.blockOffset) (a := (0 : UInt8)),
        ← List.length_append, ← hdest] at hat'
  · -- the end of the file cannot lie past the trailer of the block it is in
    exfalso
    obtain ⟨hfile, hlast⟩ := hat.last heof
    have hrest' := hat.rest
    rw [hfile, List.append_nil] at hrest'
    have hbl : r.buffer.length = (log.drop w.dest.length).length := by rw [hrest']
    unfold kBlockSize kRecyclableHeaderSize kHeaderSize at *
    omega

end Turn

/-! ## Turns of `ReadRecord` -/

section Step

variable (mode : WALRecoveryMode) {r r' : Reader} {f : Fragments}

/-- A turn of `ReadRecord` that reads a full fragment, or the last of a record, returns the
record; no earlier fragment is left open, so nothing is reported. -/
theorem readRecordStep_end {rc begin : Bool} {p : Bytes}
    (hp : r.readPhysicalRecord 0 = (r', ⟨(fragmentType rc begin true).toNat, p, 0⟩))
    (hf : f.inFragmentedRecord = !begin) (hs : begin = true → f.scratch = []) :
    ∃ r'', r.readRecordStep mode f = .done r'' (some (f.scratch ++ p)) ∧
      r''.buffer = r'.buffer ∧ r'.SameFile r'' := by
  unfold Reader.readRecordStep
  rw [hp]
  cases rc <;> cases begin <;>
    simp [fragmentType, RecordType.toNat, hf, hs] <;> exact ⟨rfl, rfl, rfl, rfl, rfl⟩

/-- A turn of `ReadRecord` that reads a first or a middle fragment goes on with the fragment
appended to the record. -/
theorem readRecordStep_more {rc begin : Bool} {p : Bytes}
    (hp : r.readPhysicalRecord 0 = (r', ⟨(fragmentType rc begin false).toNat, p, 0⟩))
    (hf : f.inFragmentedRecord = !begin) (hs : begin = true → f.scratch = []) :
    ∃ f', r.readRecordStep mode f = .more r' f' ∧ f'.inFragmentedRecord = true ∧
      f'.scratch = f.scratch ++ p := by
  unfold Reader.readRecordStep
  rw [hp]
  cases rc <;> cases begin <;> simp [fragmentType, RecordType.toNat, hf, hs]

/-- A zero-type record outside a record is skipped. -/
theorem readRecordStep_badRecord (hp : r.readPhysicalRecord 0 = (r', ⟨kBadRecord, [], 0⟩))
    (hf : f.inFragmentedRecord = false) : r.readRecordStep mode f = .more r' f := by
  unfold Reader.readRecordStep
  rw [hp]
  simp [kBadRecord, kMaxRecordType, RecordType.toNat, Reader.dropFragments, hf]

end Step

/-! ## Reading a record -/

/-- The writer's file only grows at the start of a turn. -/
theorem switchBlock_extends (w : Writer) : w.dest <+: w.switchBlock.dest := by
  rw [switchBlock_dest]
  exact List.prefix_append _ _

/-- After the start of a turn the block has room for a header, so starting again changes
nothing. -/
theorem switchBlock_switchBlock {w : Writer} (hw : w.Aligned) :
    w.switchBlock.switchBlock = w.switchBlock := by
  obtain ⟨-, hroom, -⟩ := switchBlock_aligned hw
  exact switchBlock_of_room _ hroom

section Trace

variable {w w' : Writer} {left : Bytes} {begin : Bool} {n : Nat}

/-- A trace writes at least one header after the start of its first turn. -/
theorem Writer.Emits.start (he : w.Emits left begin n w') :
    w.switchBlock.dest <+: w'.dest ∧ w.switchBlock.dest.length < w'.dest.length := by
  induction he with
  | @last w left begin hfit =>
      rw [emitPhysicalRecord_dest]
      refine ⟨List.prefix_append _ _, ?_⟩
      have h := physicalHeader_length w begin true left
      have hsize := headerSize_pos w
      simp only [List.length_append]
      omega
  | @more w w' left begin n hmore rest ih =>
      obtain ⟨hpre, hlt⟩ := ih
      have h₂ := emitPhysicalRecord_dest w begin false (left.take w.switchBlock.avail)
      have hsize := headerSize_pos w
      have hlen := physicalHeader_length w begin false (left.take w.switchBlock.avail)
      have hstep := switchBlock_extends (w.switchBlock.emitPhysicalRecord
        (fragmentType w.recycleLogFiles begin false) (left.take w.switchBlock.avail))
      refine ⟨?_, ?_⟩
      · exact ((h₂ ▸ List.prefix_append _ _).trans hstep).trans hpre
      · have := hstep.length_le
        rw [h₂] at this
        simp only [List.length_append] at this
        omega

/-- The trace from a writer is the trace from the start of its first turn. -/
theorem Writer.Emits.switchBlock (hw : w.Aligned) (he : w.Emits left begin n w') :
    w.switchBlock.Emits left begin n w' := by
  have hss := switchBlock_switchBlock hw
  cases he with
  | last hfit =>
      have h := @Writer.Emits.last w.switchBlock _ begin (by rw [hss]; exact hfit)
      rwa [hss, switchBlock_recycleLogFiles] at h
  | more hmore rest =>
      exact Writer.Emits.more (w := w.switchBlock) (by rw [hss]; exact hmore)
        (by rw [hss, switchBlock_recycleLogFiles]; exact rest)

end Trace

/-- The reader at the start of a trace reads it, when the writer does not close its block with
a long trailer first: one turn per fragment, the first and middle ones appended to the record,
the full or last one returned with it. -/
theorem Reader.At.readRecordLoop_emits {w w' : Writer} {left : Bytes} {begin : Bool} {n : Nat}
    (he : w.Emits left begin n w') (hw : w.Aligned)
    (hlog : w.recycleLogFiles = true → w.logNumber.toNat < 2 ^ 32) {log : Bytes}
    (hpre : w'.dest <+: log) {r : Reader} (hat : r.At w.logNumber log w.dest.length)
    (hnt : ¬ w.LongTrailer) (mode : WALRecoveryMode) {f : Fragments}
    (hf : f.inFragmentedRecord = !begin) (hs : begin = true → f.scratch = []) (fuel : Nat)
    (hfuel : n ≤ fuel) :
    ∃ r', r.readRecordLoop mode fuel f = some (r', some (f.scratch ++ left)) ∧
      r'.At w.logNumber log w'.dest.length := by
  -- induction on the trace; the reader's fragments state follows the writer's `begin`
  induction he generalizing r f fuel with
  | @last w left begin hfit =>
      obtain ⟨fuel, rfl⟩ : ∃ k, fuel = k + 1 := ⟨fuel - 1, by omega⟩
      obtain ⟨r₁, hread, hat₁⟩ :=
        hat.readPhysicalRecord_fragment hw hlog hnt begin true left hfit hpre
      obtain ⟨r₂, hstep, hbuf, hsame⟩ := readRecordStep_end mode hread hf hs
      exact ⟨r₂, by simp only [Reader.readRecordLoop, hstep], hat₁.of_same hbuf hsame⟩
  | @more w w' left begin n hmore rest ih =>
      obtain ⟨fuel, rfl⟩ : ∃ k, fuel = k + 1 := ⟨fuel - 1, by omega⟩
      obtain ⟨haligned, hroom, -⟩ := switchBlock_aligned hw
      set w₂ := w.switchBlock.emitPhysicalRecord (fragmentType w.recycleLogFiles begin false)
        (left.take w.switchBlock.avail) with hw₂
      have hpre₂ : w₂.dest <+: log :=
        ((switchBlock_extends w₂).trans rest.start.1).trans hpre
      have htake : (left.take w.switchBlock.avail).length ≤ w.switchBlock.avail := by
        rw [List.length_take]
        omega
      obtain ⟨r₁, hread, hat₁⟩ :=
        hat.readPhysicalRecord_fragment hw hlog hnt begin false _ htake hpre₂
      obtain ⟨f₁, hstep, hf₁, hs₁⟩ := readRecordStep_more mode hread hf hs
      -- the first or middle fragment fills its block, so the rest starts in a new one
      have hfull : w₂.blockOffset = kBlockSize := by
        rw [hw₂, ← switchBlock_recycleLogFiles]
        exact emitPhysicalRecord_fills hroom begin false _ (by rw [List.length_take]; omega)
      have hw₂a : w₂.Aligned := by
        rw [hw₂, ← switchBlock_recycleLogFiles]
        exact emitPhysicalRecord_aligned haligned begin false _ hroom
          (by rw [List.length_take]; unfold Writer.avail at hmore ⊢; omega)
      have hnt₂ : ¬ w₂.LongTrailer := by
        unfold Writer.LongTrailer
        rw [hfull, Nat.sub_self]
        rintro ⟨h, -⟩
        exact absurd h (by decide)
      obtain ⟨r', hloop, hat'⟩ :=
        ih hw₂a (by simpa [hw₂] using hlog) hpre (by simpa [hw₂] using hat₁)
          hnt₂ (by rw [hf₁]; rfl) (fun h => absurd h Bool.false_ne_true) fuel (by omega)
      refine ⟨r', ?_, by simpa [hw₂] using hat'⟩
      simp only [Reader.readRecordLoop, hstep]
      rw [hloop, hs₁, List.append_assoc, List.take_append_drop]

/-- The reader where the writer starts a record reads that record, within `slice.length + 2`
turns of `ReadRecord`'s loop: one per fragment, and one for a long trailer before it. -/
theorem Reader.At.readRecord_addRecord {w : Writer} (hw : w.Aligned)
    (hlog : w.recycleLogFiles = true → w.logNumber.toNat < 2 ^ 32) {log : Bytes} (slice : Bytes)
    (hpre : (w.addRecord slice).dest <+: log) {r : Reader}
    (hat : r.At w.logNumber log w.dest.length)
    (mode : WALRecoveryMode) (fuel : Nat) (hfuel : slice.length + 2 ≤ fuel) :
    ∃ r', r.readRecord mode fuel = some (r', some slice) ∧
      r'.At w.logNumber log (w.addRecord slice).dest.length := by
  obtain ⟨n, hn, he⟩ := addRecordLoop_emits (2 * slice.length + 1) w slice true hw
    (by unfold Writer.turnBound; split <;> omega)
  have hbound : n ≤ slice.length + 1 := by
    unfold Writer.turnBound at hn
    split at hn <;> omega
  unfold Reader.readRecord
  by_cases hlong : w.LongTrailer
  · -- the trailer is one turn of its own, then the record is read from the new block
    obtain ⟨hstart, hlt⟩ := he.start
    obtain ⟨r₁, hread, hat₁⟩ := hat.readPhysicalRecord_trailer hw hlong (hstart.trans hpre)
      (lt_of_lt_of_le hlt hpre.length_le)
    obtain ⟨fuel, rfl⟩ : ∃ k, fuel = k + 1 := ⟨fuel - 1, by omega⟩
    have hstep := readRecordStep_badRecord mode (f := ⟨[], false, 0⟩) hread rfl
    obtain ⟨haligned, hroom, -⟩ := switchBlock_aligned hw
    have hnt : ¬ w.switchBlock.LongTrailer := by
      unfold Writer.LongTrailer
      omega
    obtain ⟨r', hloop, hat'⟩ := Reader.At.readRecordLoop_emits (he.switchBlock hw) haligned
      (by simpa using hlog) hpre (by simpa using hat₁) hnt mode (f := ⟨[], false, 0⟩) rfl
      (fun _ => rfl) fuel (by omega)
    refine ⟨r', ?_, by simpa [Writer.addRecord] using hat'⟩
    simp only [Reader.readRecordLoop, hstep, hloop, List.nil_append]
  · obtain ⟨r', hloop, hat'⟩ := hat.readRecordLoop_emits he hw hlog hpre hlong mode
      (f := ⟨[], false, 0⟩) rfl (fun _ => rfl) fuel (by omega)
    exact ⟨r', hloop, hat'⟩

/-! ## Reading the whole log -/

/-- The loop of `DBImpl::RecoverLogFiles` (`db/db_impl/db_impl_open.cc`) and of
`Repairer::ConvertLogToTable` (`db/repair.cc`) over a log: `ReadRecord` until it returns
`false`, handing on each record in turn. Each call runs `fuel` turns of `ReadRecord`'s loop, and
at most `calls` calls are made; `none` if either runs out. -/
def Reader.readRecords (mode : WALRecoveryMode) (fuel : Nat) :
    Nat → Reader → Option (List Bytes × Reader)
  | 0, _ => none
  | calls + 1, r =>
      match r.readRecord mode fuel with
      | none => none
      | some (r, none) => some ([], r)
      | some (r, some record) =>
          (readRecords mode fuel calls r).map fun (records, r) => (record :: records, r)

/-- The writer's file only grows when it emits a fragment. -/
theorem emitPhysicalRecord_extends (w : Writer) (t : RecordType) (payload : Bytes) :
    w.dest <+: (w.emitPhysicalRecord t payload).dest := by
  rw [emitPhysicalRecord_eq, List.append_assoc]
  exact List.prefix_append _ _

/-- `AddRecord` keeps the log number and the format and only appends to the file. -/
theorem addRecordLoop_fields (fuel : Nat) (w : Writer) (left : Bytes) (begin : Bool) :
    (w.addRecordLoop fuel left begin).logNumber = w.logNumber ∧
      (w.addRecordLoop fuel left begin).recycleLogFiles = w.recycleLogFiles ∧
      w.dest <+: (w.addRecordLoop fuel left begin).dest := by
  induction fuel generalizing w left begin with
  | zero => exact ⟨rfl, rfl, List.prefix_refl _⟩
  | succ fuel ih =>
      simp only [Writer.addRecordLoop]
      have hemit := (switchBlock_extends w).trans (emitPhysicalRecord_extends w.switchBlock
        (fragmentType w.switchBlock.recycleLogFiles begin
          (decide (left.length = min left.length
            (kBlockSize - w.switchBlock.blockOffset - w.switchBlock.headerSize))))
        (left.take (min left.length
          (kBlockSize - w.switchBlock.blockOffset - w.switchBlock.headerSize))))
      split
      · obtain ⟨hlog, hrecycle, hpre⟩ := ih _ _ _
        exact ⟨hlog.trans (by simp), hrecycle.trans (by simp), hemit.trans hpre⟩
      · exact ⟨by simp, by simp, hemit⟩

/-- A sequence of `AddRecord` calls only appends to the file. -/
theorem addRecords_extends (w : Writer) (records : List Bytes) :
    w.dest <+: (w.addRecords records).dest := by
  induction records generalizing w with
  | nil => exact List.prefix_refl _
  | cons record records ih =>
      exact (addRecordLoop_fields _ w record true).2.2.trans (ih (w.addRecord record))

/-- At the end of the log `ReadRecord` returns `false`, reporting nothing: `ReadMore` finds
no more bytes and the physical record is `kEof`. -/
theorem Reader.At.readRecord_end {logNumber : UInt64} {log : Bytes} {r : Reader}
    (hat : r.At logNumber log log.length) (mode : WALRecoveryMode) (fuel : Nat) :
    ∃ r', r.readRecord mode (fuel + 1) = some (r', none) ∧ r'.reports = [] := by
  have hrest := hat.rest
  rw [List.drop_length, List.append_eq_nil_iff] at hrest
  obtain ⟨hbuf, hfile⟩ := hrest
  have hshort : r.buffer.length < kHeaderSize := by
    rw [hbuf]
    decide
  have hphys : ∃ r₁, r.readPhysicalRecord 0 = (r₁, ⟨kEof, [], 0⟩) ∧ r₁.reports = r.reports := by
    cases heof : r.eof
    · -- the block read is empty, which marks the end of the file
      rw [Reader.readPhysicalRecord, readPhysicalRecordLoop_of_short r 0 1 hshort heof,
        readMore_of_not_eof r 0 heof]
      simp [Reader.readPhysicalRecordLoop, Reader.readPhysicalRecordTurn, Reader.readMoreTurn,
        Reader.readMore, hfile, kBlockSize, kHeaderSize]
    · simp [Reader.readPhysicalRecord, Reader.readPhysicalRecordLoop,
        Reader.readPhysicalRecordTurn, Reader.readMoreTurn, readMore_of_eof r 0 heof, hbuf,
        kHeaderSize]
  obtain ⟨r₁, hp, hreports⟩ := hphys
  refine ⟨r₁, ?_, hreports.trans hat.reports⟩
  unfold Reader.readRecord
  simp [Reader.readRecordLoop, Reader.readRecordStep, hp, kEof, kMaxRecordType, RecordType.toNat,
    Reader.stopAtEof]

/-- The reader where the writer starts a sequence of records reads them all, then gets
`false`, with nothing reported. -/
theorem Reader.At.readRecords_of_addRecords {w : Writer} (hw : w.Aligned)
    (hlog : w.recycleLogFiles = true → w.logNumber.toNat < 2 ^ 32) (records : List Bytes)
    {r : Reader} (hat : r.At w.logNumber (w.addRecords records).dest w.dest.length)
    (mode : WALRecoveryMode) (fuel : Nat) (hfuel : ∀ record ∈ records, record.length + 2 ≤ fuel)
    (hpos : 0 < fuel) (calls : Nat) (hcalls : records.length < calls) :
    ∃ r', r.readRecords mode fuel calls = some (records, r') ∧ r'.reports = [] := by
  obtain ⟨fuel, rfl⟩ : ∃ k, fuel = k + 1 := ⟨fuel - 1, by omega⟩
  induction records generalizing w r calls with
  | nil =>
      obtain ⟨calls, rfl⟩ : ∃ k, calls = k + 1 := ⟨calls - 1, by simp at hcalls; omega⟩
      obtain ⟨r', hread, hreports⟩ := hat.readRecord_end mode fuel
      exact ⟨r', by simp [Reader.readRecords, hread], hreports⟩
  | cons record records ih =>
      obtain ⟨calls, rfl⟩ : ∃ k, calls = k + 1 := ⟨calls - 1, by simp at hcalls; omega⟩
      obtain ⟨hnum, hrecycle, -⟩ := addRecordLoop_fields (2 * record.length + 1) w record true
      obtain ⟨r₁, hread, hat₁⟩ := hat.readRecord_addRecord hw hlog record
        (addRecords_extends (w.addRecord record) records) mode _ (hfuel record (by simp))
      obtain ⟨r', hrest, hreports⟩ := ih (addRecord_aligned hw record)
        (by rw [Writer.addRecord, hrecycle, hnum]; exact hlog)
        (by rw [Writer.addRecord, hnum]; exact hat₁) calls (by simp at hcalls; omega)
        (fun record' h => hfuel record' (List.mem_cons_of_mem _ h))
      exact ⟨r', by simp [Reader.readRecords, hread, hrest], hreports⟩

/-- A log written by `AddRecord` reads back through `ReadRecord`: with checksums on and the
same log number, and in the recyclable format a log number that fits in 32 bits, every
recovery mode gets the records in order and whole, no corruption is reported, and the call
after the last record returns `false`. `ReadRecord`'s loop needs a turn per byte of a record
and two more. -/
theorem readRecords_addRecords (logNumber : UInt64) (recycleLogFiles : Bool)
    (records : List Bytes) (hlog : recycleLogFiles = true → logNumber.toNat < 2 ^ 32)
    (mode : WALRecoveryMode) (fuel calls : Nat)
    (hfuel : ∀ record ∈ records, record.length + 2 ≤ fuel) (hpos : 0 < fuel)
    (hcalls : records.length < calls) :
    ((Reader.new ((Writer.new logNumber recycleLogFiles).addRecords records).dest true
        logNumber).readRecords mode fuel calls).map (fun (records, r) => (records, r.reports)) =
      some (records, []) := by
  obtain ⟨r', hread, hreports⟩ := (at_new logNumber _).readRecords_of_addRecords
    (w := Writer.new logNumber recycleLogFiles) (aligned_new _ _) hlog records mode fuel hfuel
    hpos calls hcalls
  simp [hread, hreports]

/-- Two records, one of them empty, in the recyclable format of log `7`, read back under
`kPointInTimeRecovery`. -/
theorem readRecords_addRecords_recyclable :
    (true = true → (7 : UInt64).toNat < 2 ^ 32) ∧
      (∀ record ∈ ([[1, 2, 3], []] : List Bytes), record.length + 2 ≤ 5) ∧ 0 < 5 ∧
      ([[1, 2, 3], []] : List Bytes).length < 3 ∧
      ((Reader.new ((Writer.new 7 true).addRecords [[1, 2, 3], []]).dest true 7).readRecords
          .pointInTimeRecovery 5 3).map (fun (records, r) => (records, r.reports)) =
        some ([[1, 2, 3], []], []) :=
  ⟨fun _ => by decide, by decide, by decide, by decide,
    readRecords_addRecords 7 true [[1, 2, 3], []] (fun _ => by decide) .pointInTimeRecovery 5 3
      (by decide) (by decide) (by decide)⟩

end RocksCloud.Log
