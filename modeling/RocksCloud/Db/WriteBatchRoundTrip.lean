import Mathlib
import RocksCloud.Db.WriteBatch

/-!
# What a write batch holds

The records a batch holds are described by `BatchEntry`: one for each mutation, with what the
handler receives back for it. `WriteBatch.Holds b entries term` says that `b` is made of the
encodings of `entries` after its header, that the header counts the entries that are counted,
that the content flags cover the kinds present, and that the termination point, when `term`
sets one, marks the first `term` entries.

`Holds` is the invariant of the batch: a new batch holds nothing, and every mutation, `Append`
and `MarkWalTerminationPoint` moves it from one list of entries to the next
(`holds_addCounted`, `holds_putLogData`, `holds_append`, `holds_markWalTerminationPoint`). On a
batch that holds `entries`, `Iterate` hands the handler exactly their calls and returns `OK`
(`iterate_of_holds`).
-/

set_option autoImplicit false

namespace RocksCloud.Db

open RocksCloud.Util

/-! ## Content flags -/

/-- A flag set stays set when more flags are or-ed in. -/
theorem flag_or_left {flags g f : UInt32} (h : flags &&& f = f) : (flags ||| g) &&& f = f := by
  apply UInt32.toBitVec_inj.mp
  have hb := congrArg UInt32.toBitVec h
  simp only [UInt32.toBitVec_and, UInt32.toBitVec_or] at hb ⊢
  ext i hi
  have hbi := congrArg (fun x => x[i]) hb
  simp only [BitVec.getElem_and] at hbi
  simp only [BitVec.getElem_and, BitVec.getElem_or]
  cases hf : f.toBitVec[i] <;> simp_all

/-- A flag set in `flags` is set in `g ||| flags`. -/
theorem flag_or_right {flags g f : UInt32} (h : flags &&& f = f) : (g ||| flags) &&& f = f := by
  rw [UInt32.or_comm]
  exact flag_or_left h

/-- A flag that is set passes `assert(content_flags_ & (DEFERRED | flag))`. -/
theorem assertFlag_of_set {flags f : UInt32} (h : flags &&& f = f) (hf : f ≠ 0) :
    assertFlag flags f = .ok () := by
  unfold assertFlag
  rw [if_neg]
  · rfl
  intro hzero
  apply hf
  apply UInt32.toBitVec_inj.mp
  have hb := congrArg UInt32.toBitVec h
  have hz := congrArg UInt32.toBitVec hzero
  simp only [UInt32.toBitVec_and, UInt32.toBitVec_or, UInt32.toBitVec_zero] at hb hz ⊢
  ext i hi
  have hbi := congrArg (fun x => x[i]) hb
  have hzi := congrArg (fun x => x[i]) hz
  simp only [BitVec.getElem_and, BitVec.getElem_or, BitVec.getElem_zero] at hbi hzi ⊢
  cases hf : f.toBitVec[i] <;> simp_all

/-! ## Entries -/

/-- A record of a batch, as the mutation that writes it takes it and as `Iterate` hands it
back. -/
inductive BatchEntry where
  | put (columnFamilyId : UInt32) (key value : Bytes)
  | delete (columnFamilyId : UInt32) (key : Bytes)
  | singleDelete (columnFamilyId : UInt32) (key : Bytes)
  | deleteRange (columnFamilyId : UInt32) (beginKey endKey : Bytes)
  | merge (columnFamilyId : UInt32) (key value : Bytes)
  | putBlobIndex (columnFamilyId : UInt32) (key value : Bytes)
  | logData (blob : Bytes)
  deriving Repr, DecidableEq

namespace BatchEntry

/-- The column family of an entry; a blob has none. -/
def columnFamily : BatchEntry → UInt32
  | put cf _ _ | delete cf _ | singleDelete cf _ | deleteRange cf _ _ | merge cf _ _
  | putBlobIndex cf _ _ => cf
  | logData _ => 0

/-- The tag of an entry in the default column family. -/
def tag : BatchEntry → ValueType
  | put .. => .typeValue
  | delete .. => .typeDeletion
  | singleDelete .. => .typeSingleDeletion
  | deleteRange .. => .typeRangeDeletion
  | merge .. => .typeMerge
  | putBlobIndex .. => .typeBlobIndex
  | logData _ => .typeLogData

/-- The tag of an entry in another column family. -/
def cfTag : BatchEntry → ValueType
  | put .. => .typeColumnFamilyValue
  | delete .. => .typeColumnFamilyDeletion
  | singleDelete .. => .typeColumnFamilySingleDeletion
  | deleteRange .. => .typeColumnFamilyRangeDeletion
  | merge .. => .typeColumnFamilyMerge
  | putBlobIndex .. => .typeColumnFamilyBlobIndex
  | logData _ => .typeLogData

/-- The slices of an entry, in the order they are written. -/
def fields : BatchEntry → List Bytes
  | put _ key value | merge _ key value | putBlobIndex _ key value => [key, value]
  | delete _ key | singleDelete _ key => [key]
  | deleteRange _ beginKey endKey => [beginKey, endKey]
  | logData blob => [blob]

/-- The content flag of an entry's kind; a blob sets none. -/
def flag : BatchEntry → UInt32
  | put .. => ContentFlags.hasPut
  | delete .. => ContentFlags.hasDelete
  | singleDelete .. => ContentFlags.hasSingleDelete
  | deleteRange .. => ContentFlags.hasDeleteRange
  | merge .. => ContentFlags.hasMerge
  | putBlobIndex .. => ContentFlags.hasBlobIndex
  | logData _ => 0

/-- The entries the header's count covers: all but blobs. -/
def counted : BatchEntry → Bool
  | logData _ => false
  | _ => true

/-- The call `Iterate` makes for an entry. -/
def call : BatchEntry → HandlerCall
  | put cf key value => .putCF cf key value
  | delete cf key => .deleteCF cf key
  | singleDelete cf key => .singleDeleteCF cf key
  | deleteRange cf beginKey endKey => .deleteRangeCF cf beginKey endKey
  | merge cf key value => .mergeCF cf key value
  | putBlobIndex cf key value => .putBlobIndexCF cf key value
  | logData blob => .logData blob

/-- The tag an entry is written with. -/
def recordType (e : BatchEntry) : ValueType :=
  if e.columnFamily = 0 then e.tag else e.cfTag

/-- The bytes of an entry: its tag, the column family id when it is not `0`, and its slices. -/
def encode (e : BatchEntry) : Bytes :=
  (if e.columnFamily = 0 then [e.tag.toByte] else putVarint32 [e.cfTag.toByte] e.columnFamily) ++
    e.fields.foldl putLengthPrefixedSlice []

/-- The slices of an entry survive their `uint32_t` length prefixes. -/
def Fits (e : BatchEntry) : Prop := ∀ s ∈ e.fields, s.length < 2 ^ 32

/-- The content flags of a batch cover an entry that the count covers. -/
def Flagged (flags : UInt32) (e : BatchEntry) : Prop := e.counted → flags &&& e.flag = e.flag

end BatchEntry

/-- The number of entries the header's count covers. -/
def countedLength (entries : List BatchEntry) : Nat := (entries.filter BatchEntry.counted).length

/-! ## Reading an entry back -/

/-- The slices written one after another. -/
theorem foldl_putLengthPrefixedSlice (fields : List Bytes) (dst : Bytes) :
    fields.foldl putLengthPrefixedSlice dst =
      dst ++ fields.flatMap (putLengthPrefixedSlice []) := by
  induction fields generalizing dst with
  | nil => simp
  | cons f fs ih =>
      rw [List.foldl_cons, ih, List.flatMap_cons, ← List.append_assoc]
      simp [putLengthPrefixedSlice, putVarint32]

/-- The slices of `ReadRecordFromWriteBatch` read back what was written. -/
theorem readFields_slices (msg : String) (fields : List Bytes)
    (hfit : ∀ s ∈ fields, s.length < 2 ^ 32) (rest : Bytes) :
    readFields.slices msg fields.length (fields.flatMap (putLengthPrefixedSlice []) ++ rest) =
      .ok (fields, rest) := by
  induction fields with
  | nil => rfl
  | cons f fs ih =>
      have hf := hfit f (List.mem_cons_self ..)
      have hfs : ∀ s ∈ fs, s.length < 2 ^ 32 := fun s hs => hfit s (List.mem_cons_of_mem f hs)
      rw [List.length_cons, List.flatMap_cons, List.append_assoc]
      simp only [readFields.slices, getLengthPrefixedSlice_putLengthPrefixedSlice f _ hf, ih hfs]
      rfl

/-- A tag byte read back. -/
theorem ofByte_toByte (t : ValueType) : ValueType.ofByte t.toByte = some t := by
  cases t <;> rfl

/-- The fields of a record without a column family. -/
theorem readFields_false (msg : String) (n : Nat) (fields : List Bytes) (hn : fields.length = n)
    (hfit : ∀ s ∈ fields, s.length < 2 ^ 32) (rest : Bytes) :
    readFields false n msg (fields.flatMap (putLengthPrefixedSlice []) ++ rest) =
      .ok (0, fields, rest) := by
  subst hn
  simp [readFields, readFields_slices msg fields hfit rest]

/-- The column family and fields of a record in another column family. -/
theorem readFields_true (msg : String) (n : Nat) (cf : UInt32) (fields : List Bytes)
    (hn : fields.length = n) (hfit : ∀ s ∈ fields, s.length < 2 ^ 32) (rest : Bytes) :
    readFields true n msg (encodeVarint32 cf ++ (fields.flatMap (putLengthPrefixedSlice []) ++ rest)) =
      .ok (cf, fields, rest) := by
  subst hn
  simp [readFields, getVarint32_encodeVarint32, readFields_slices msg fields hfit rest]

/-- A record in the default column family read back from its tag on. -/
theorem readRecordFromWriteBatch_tag (e : BatchEntry) (hfit : e.Fits) (rest : Bytes) :
    readRecordFromWriteBatch e.tag.toByte (e.fields.flatMap (putLengthPrefixedSlice []) ++ rest) =
      .ok (e.tag, 0, e.fields, rest) := by
  cases e <;>
    simp only [BatchEntry.Fits, BatchEntry.tag, BatchEntry.fields, readRecordFromWriteBatch,
      ofByte_toByte] at hfit ⊢ <;>
    rw [readFields_false _ _ _ ?_ hfit] <;> rfl

/-- A record in another column family read back from its tag on. -/
theorem readRecordFromWriteBatch_cfTag (e : BatchEntry) (hcf : e.columnFamily ≠ 0)
    (hfit : e.Fits) (rest : Bytes) :
    readRecordFromWriteBatch e.cfTag.toByte
        (encodeVarint32 e.columnFamily ++ (e.fields.flatMap (putLengthPrefixedSlice []) ++ rest)) =
      .ok (e.cfTag, e.columnFamily, e.fields, rest) := by
  cases e
  case logData => exact absurd rfl hcf
  all_goals
    simp only [BatchEntry.Fits, BatchEntry.cfTag, BatchEntry.columnFamily, BatchEntry.fields,
      readRecordFromWriteBatch, ofByte_toByte] at hfit ⊢
    rw [readFields_true _ _ _ _ ?_ hfit] <;> rfl

/-- `ReadRecordFromWriteBatch` reads an entry back: its tag, column family and slices. -/
theorem readRecordFromWriteBatch_encode (e : BatchEntry) (hfit : e.Fits) (rest : Bytes) :
    ∃ input, e.encode ++ rest = e.recordType.toByte :: input ∧
      readRecordFromWriteBatch e.recordType.toByte input =
        .ok (e.recordType, e.columnFamily, e.fields, rest) := by
  by_cases hcf : e.columnFamily = 0
  · -- the tag alone
    refine ⟨e.fields.flatMap (putLengthPrefixedSlice []) ++ rest, ?_, ?_⟩
    · simp [BatchEntry.encode, BatchEntry.recordType, hcf, foldl_putLengthPrefixedSlice]
    · rw [BatchEntry.recordType, if_pos hcf, hcf]
      exact readRecordFromWriteBatch_tag e hfit rest
  · -- the column family tag and the id
    refine ⟨encodeVarint32 e.columnFamily ++ (e.fields.flatMap (putLengthPrefixedSlice []) ++ rest),
      ?_, ?_⟩
    · simp [BatchEntry.encode, BatchEntry.recordType, hcf, foldl_putLengthPrefixedSlice,
        putVarint32]
    · rw [BatchEntry.recordType, if_neg hcf]
      exact readRecordFromWriteBatch_cfTag e hcf hfit rest

/-! ## Iterating over the records -/

/-- The number of counted entries of a list with one more entry in front. -/
theorem countedLength_cons (e : BatchEntry) (entries : List BatchEntry) :
    countedLength (e :: entries) = (if e.counted then 1 else 0) + countedLength entries := by
  unfold countedLength
  cases hc : e.counted <;> simp [hc, Nat.add_comm]

/-- The number of counted entries of two lists one after the other. -/
theorem countedLength_append (entries more : List BatchEntry) :
    countedLength (entries ++ more) = countedLength entries + countedLength more := by
  simp [countedLength]

/-- A counted entry's content flag is not `0`. -/
theorem BatchEntry.flag_ne_zero (e : BatchEntry) (hc : e.counted) : e.flag ≠ 0 := by
  cases e
  case logData => exact absurd hc Bool.false_ne_true
  all_goals simp only [BatchEntry.flag]; decide

/-- An entry's bytes start with its tag. -/
theorem BatchEntry.encode_length_pos (e : BatchEntry) : 0 < e.encode.length := by
  unfold BatchEntry.encode
  split <;> simp [putVarint32]

/-- One record handed over by `Iterate`: the call is recorded and `found` goes up when the
entry is counted. -/
theorem iterateRecord_entry (flags : UInt32) (st : IterateState) (e : BatchEntry)
    (hflag : e.Flagged flags) (hfound : 0 ≤ st.found)
    (hlt : st.found + (if e.counted then 1 else 0) < 2 ^ 31) :
    ∃ emptyBatch, iterateRecord flags st e.recordType e.columnFamily e.fields =
      .ok (.ok, ⟨emptyBatch, st.found + (if e.counted then 1 else 0), st.calls ++ [e.call]⟩) := by
  have hadd : e.counted → addInt st.found 1 = .ok (st.found + 1) := fun hc =>
    if_pos ⟨by omega, by simpa [hc] using hlt⟩
  have hassert : e.counted → assertFlag flags e.flag = .ok () := fun hc =>
    assertFlag_of_set (hflag hc) (e.flag_ne_zero hc)
  -- the plain tag or the column family one, and then one case for each kind
  by_cases hcf : e.columnFamily = 0
  · rw [BatchEntry.recordType, if_pos hcf]
    cases e <;> simp only [BatchEntry.flag, BatchEntry.counted, forall_const] at hadd hassert <;>
      simp [iterateRecord, hassert, hadd, IterateState.count, BatchEntry.tag, BatchEntry.fields,
        BatchEntry.call, BatchEntry.counted, BatchEntry.columnFamily, bind, Except.bind, pure,
        Except.pure]
  · rw [BatchEntry.recordType, if_neg hcf]
    cases e <;> simp only [BatchEntry.flag, BatchEntry.counted, forall_const] at hadd hassert <;>
      simp [iterateRecord, hassert, hadd, IterateState.count, BatchEntry.cfTag, BatchEntry.fields,
        BatchEntry.call, BatchEntry.counted, BatchEntry.columnFamily, bind, Except.bind, pure,
        Except.pure]

/-- The `while` loop of `Iterate` over the bytes of `entries`: with enough fuel it hands over
every entry in order, counts the counted ones and ends with `OK`. -/
theorem iterateLoop_entries (flags : UInt32) (entries : List BatchEntry)
    (hflag : ∀ e ∈ entries, e.Flagged flags) (hfit : ∀ e ∈ entries, e.Fits)
    (st : IterateState) (hfound : 0 ≤ st.found)
    (hlt : st.found + countedLength entries < 2 ^ 31)
    (fuel : Nat) (hfuel : (entries.flatMap BatchEntry.encode).length ≤ fuel) :
    ∃ emptyBatch, iterateLoop flags fuel (entries.flatMap BatchEntry.encode) st =
      .ok (.ok, ⟨emptyBatch, st.found + countedLength entries,
        st.calls ++ entries.map BatchEntry.call⟩) := by
  induction entries generalizing st fuel with
  | nil =>
      refine ⟨st.emptyBatch, ?_⟩
      cases fuel <;> simp [iterateLoop, countedLength] <;> rfl
  | cons e es ih =>
      have he := List.mem_cons_self (a := e) (l := es)
      have hcount := countedLength_cons e es
      push_cast [hcount] at hlt
      obtain ⟨input, hinput, hread⟩ :=
        readRecordFromWriteBatch_encode e (hfit e he) (es.flatMap BatchEntry.encode)
      -- the record takes at least its tag byte, so the fuel has a turn for it
      have hlen : e.encode.length + (es.flatMap BatchEntry.encode).length ≤ fuel := by
        simpa only [List.flatMap_cons, List.length_append] using hfuel
      have hpos := e.encode_length_pos
      obtain ⟨fuel, rfl⟩ : ∃ f, fuel = f + 1 := Nat.exists_eq_succ_of_ne_zero (by omega)
      obtain ⟨emptyBatch, hrec⟩ :=
        iterateRecord_entry flags st e (hflag e he) hfound (by omega)
      obtain ⟨emptyBatch', hloop⟩ :=
        ih (fun e' he' => hflag e' (List.mem_cons_of_mem e he'))
          (fun e' he' => hfit e' (List.mem_cons_of_mem e he'))
          ⟨emptyBatch, st.found + (if e.counted then 1 else 0), st.calls ++ [e.call]⟩
          (by dsimp only; split <;> omega) (by dsimp only; omega) fuel (by omega)
      refine ⟨emptyBatch', ?_⟩
      rw [List.flatMap_cons, hinput]
      simp only [iterateLoop, hread, hrec, bind, Except.bind, if_true, hloop]
      simp [hcount, Int.add_assoc]

/-! ## The header -/

/-- A count in `[0, 2^31)` read back from its `uint32_t`. -/
theorem toInt32_ofInt32 (n : Int) (h0 : 0 ≤ n) (hlt : n < 2 ^ 31) : toInt32 (ofInt32 n) = n := by
  have hmod : n % 2 ^ 32 = n := Int.emod_eq_of_lt h0 (by omega)
  have hnat : (ofInt32 n).toNat = n.toNat := by
    rw [ofInt32, hmod]
    simp
    omega
  unfold toInt32
  rw [hnat, if_pos (by omega)]
  omega

/-- `DecodeFixed32` reads only the first four bytes. -/
theorem decodeFixed32_append (l r : Bytes) (h : 4 ≤ l.length) :
    decodeFixed32 (l ++ r) = decodeFixed32 l := by
  rw [decodeFixed32, decodeFixed32, List.take_append_of_le_length h]

/-- `SetCount` leaves the records alone. -/
theorem setCount_records (b : WriteBatch) (n : Int) :
    (WriteBatchInternal.setCount b n).rep.drop kHeader = b.rep.drop kHeader := by
  have h8 : (b.rep.take 8).length = 8 := by
    have := b.header_le
    simp only [kHeader] at this
    simp only [List.length_take]
    omega
  have h12 : (b.rep.take 8 ++ encodeFixed32 (ofInt32 n)).length = kHeader := by
    simp [h8, kHeader]
  simp only [WriteBatchInternal.setCount]
  rw [List.drop_left' h12]
  rfl

/-- `Count` after `SetCount(n)` is `n`, for `n` in `[0, 2^31)`. -/
theorem count_setCount (b : WriteBatch) (n : Int) (h0 : 0 ≤ n) (hlt : n < 2 ^ 31) :
    WriteBatchInternal.count (WriteBatchInternal.setCount b n) = n := by
  have h8 : (b.rep.take 8).length = 8 := by
    have := b.header_le
    simp only [kHeader] at this
    simp only [List.length_take]
    omega
  simp only [WriteBatchInternal.count, WriteBatchInternal.setCount, List.append_assoc]
  rw [List.drop_left' h8, decodeFixed32_encodeFixed32, toInt32_ofInt32 n h0 hlt]

/-- Appending to `rep_` appends to the records. -/
theorem appendRep_records (b : WriteBatch) (bytes : Bytes) :
    (b.appendRep bytes).rep.drop kHeader = b.rep.drop kHeader ++ bytes :=
  List.drop_append_of_le_length b.header_le

/-- Appending to `rep_` leaves the count alone. -/
theorem count_appendRep (b : WriteBatch) (bytes : Bytes) :
    WriteBatchInternal.count (b.appendRep bytes) = WriteBatchInternal.count b := by
  have h12 := b.header_le
  simp only [kHeader] at h12
  simp only [WriteBatchInternal.count, WriteBatch.appendRep]
  rw [List.drop_append_of_le_length (by omega), decodeFixed32_append _ _ (by simp; omega)]

/-- Without a size limit `commit` keeps the mutation. -/
theorem commit_of_unlimited (b : WriteBatch) (savepoint : SavePoint)
    (hsize : kHeader ≤ savepoint.size) (h : b.maxBytes = 0) :
    b.commit savepoint hsize = (.ok, b) := by
  unfold WriteBatch.commit
  rw [if_neg]
  rintro ⟨hlimit, -⟩
  exact hlimit h

/-! ## The invariant -/

/-- The termination point of a batch holding `entries`: cleared when none was marked, else the
size, count and flags of the batch when it held its first `k` entries. -/
def TermPointHolds (p : SavePoint) (entries : List BatchEntry) : Option Nat → Prop
  | none => p.isCleared
  | some k => k ≤ entries.length ∧
      p.size = kHeader + ((entries.take k).flatMap BatchEntry.encode).length ∧
      p.count = countedLength (entries.take k) ∧
      ∀ e ∈ entries.take k, e.Flagged p.contentFlags

/-- A batch holds `entries`: they are its records, the header counts the counted ones, the
content flags cover them, and the termination point is the one `term` marks. -/
structure WriteBatch.Holds (b : WriteBatch) (entries : List BatchEntry) (term : Option Nat) :
    Prop where
  records : b.rep.drop kHeader = entries.flatMap BatchEntry.encode
  count : WriteBatchInternal.count b = countedLength entries
  count_lt : countedLength entries < 2 ^ 31
  flagged : ∀ e ∈ entries, e.Flagged b.contentFlags
  fits : ∀ e ∈ entries, e.Fits
  unlimited : b.maxBytes = 0
  termPoint : TermPointHolds b.walTermPoint entries term

/-- A termination point stays where it is when entries are added after it. -/
theorem termPointHolds_append {p : SavePoint} {entries : List BatchEntry} {term : Option Nat}
    (h : TermPointHolds p entries term) (more : List BatchEntry) :
    TermPointHolds p (entries ++ more) term := by
  cases term with
  | none => exact h
  | some k =>
      obtain ⟨hk, hsize, hcount, hflag⟩ := h
      have htake : (entries ++ more).take k = entries.take k := List.take_append_of_le_length hk
      refine ⟨by simp only [List.length_append]; omega, ?_, ?_, ?_⟩
      · rw [htake]; exact hsize
      · rw [htake]; exact hcount
      · rw [htake]; exact hflag

/-- A new batch without a size limit holds nothing. -/
theorem holds_new : (WriteBatch.new 0).Holds [] none where
  records := rfl
  count := by decide
  count_lt := by decide
  flagged := by simp
  fits := by simp
  unlimited := rfl
  termPoint := rfl

/-- `SetCount` to the new count, the bytes of `more` appended and `flags` or-ed in: the batch
then holds `more` after `entries`. -/
theorem holds_extend {b : WriteBatch} {entries : List BatchEntry} {term : Option Nat}
    (h : b.Holds entries term) (more : List BatchEntry) (n : Int)
    (hn : n = countedLength (entries ++ more)) (hlt : countedLength (entries ++ more) < 2 ^ 31)
    (bytes : Bytes) (hbytes : bytes = more.flatMap BatchEntry.encode) (flags : UInt32)
    (hflag : ∀ e ∈ more, e.Flagged flags) (hfit : ∀ e ∈ more, e.Fits) :
    WriteBatch.Holds
      { (WriteBatchInternal.setCount b n).appendRep bytes with
        contentFlags := ((WriteBatchInternal.setCount b n).appendRep bytes).contentFlags ||| flags }
      (entries ++ more) term := by
  subst hn hbytes
  refine ⟨?_, ?_, hlt, ?_, ?_, h.unlimited, termPointHolds_append h.termPoint more⟩
  · -- the records: those of `b`, then the new ones
    show ((WriteBatchInternal.setCount b _).appendRep _).rep.drop kHeader = _
    rw [appendRep_records, setCount_records, h.records, List.flatMap_append]
  · show WriteBatchInternal.count ((WriteBatchInternal.setCount b _).appendRep _) = _
    rw [count_appendRep, count_setCount _ _ (by positivity) (by exact_mod_cast hlt)]
  · -- the old flags and the new ones
    intro e he hc
    rcases List.mem_append.mp he with hold | hnew
    · exact flag_or_left (h.flagged e hold hc)
    · exact flag_or_right (hflag e hnew hc)
  · intro e he
    rcases List.mem_append.mp he with hold | hnew
    · exact h.fits e hold
    · exact hfit e hnew

/-- `Iterate` over a batch that holds `entries` hands the handler their calls in order and
returns `OK`. -/
theorem iterate_of_holds {b : WriteBatch} {entries : List BatchEntry} {term : Option Nat}
    (h : b.Holds entries term) : b.iterate = .ok (.ok, entries.map BatchEntry.call) := by
  obtain ⟨emptyBatch, hloop⟩ := iterateLoop_entries b.contentFlags entries h.flagged h.fits
    ⟨true, 0, []⟩ le_rfl (by simpa using h.count_lt) _ le_rfl
  unfold WriteBatch.iterate
  rw [if_neg (by have := b.header_le; omega), h.records]
  dsimp only
  rw [hloop]
  simp [h.count, bind, Except.bind, pure, Except.pure]

/-! ## Each mutation keeps the invariant -/

/-- The shared body of the counted mutations appends the entry's record, counts it and sets its
content flag. -/
theorem holds_addCounted {b : WriteBatch} {entries : List BatchEntry} {term : Option Nat}
    (h : b.Holds entries term) (e : BatchEntry) (hc : e.counted) (hfit : e.Fits)
    (hlt : countedLength (entries ++ [e]) < 2 ^ 31) :
    ∃ b', b.addCounted e.columnFamily e.tag e.cfTag (e.fields.foldl putLengthPrefixedSlice [])
        e.flag = .ok (.ok, b') ∧ b'.Holds (entries ++ [e]) term := by
  have hcount : countedLength (entries ++ [e]) = countedLength entries + 1 := by
    simp [countedLength, hc]
  have hadd : addInt (WriteBatchInternal.count b) 1 = .ok (countedLength (entries ++ [e]) : Int) := by
    rw [h.count, hcount]
    push_cast
    rw [hcount] at hlt
    exact if_pos ⟨by omega, by omega⟩
  have hflag : ∀ e' ∈ [e], e'.Flagged e.flag := by
    intro e' he' _
    rw [List.mem_singleton.mp he']
    exact UInt32.and_self
  refine ⟨_, ?_, holds_extend h [e] _ rfl hlt e.encode (by simp) e.flag hflag (by simpa using hfit)⟩
  -- the record of `addCounted` is the entry's encoding, and without a limit it is kept
  unfold WriteBatch.addCounted
  rw [hadd]
  dsimp only [bind, Except.bind, pure, Except.pure]
  exact congrArg Except.ok (commit_of_unlimited _ _ _ h.unlimited)

/-- `PutLogData` appends the blob's record and leaves the count and the flags alone. -/
theorem holds_putLogData {b : WriteBatch} {entries : List BatchEntry} {term : Option Nat}
    (h : b.Holds entries term) (blob : Bytes) (hfit : blob.length < 2 ^ 32) :
    ∃ b', b.putLogData blob = (.ok, b') ∧ b'.Holds (entries ++ [.logData blob]) term := by
  have hcount : countedLength (entries ++ [.logData blob]) = countedLength entries := by
    simp [countedLength, BatchEntry.counted]
  have hencode : putLengthPrefixedSlice [ValueType.typeLogData.toByte] blob =
      [BatchEntry.logData blob].flatMap BatchEntry.encode := by
    simp [BatchEntry.encode, BatchEntry.columnFamily, BatchEntry.tag, BatchEntry.fields,
      putLengthPrefixedSlice, putVarint32]
  refine ⟨_, commit_of_unlimited _ _ _ h.unlimited, ?_⟩
  refine ⟨?_, ?_, by rw [hcount]; exact h.count_lt, ?_, ?_, h.unlimited,
    termPointHolds_append h.termPoint _⟩
  · rw [appendRep_records, h.records, hencode, List.flatMap_append]
  · rw [count_appendRep, h.count, hcount]
  · -- a blob is not counted, so it needs no flag
    intro e he
    rcases List.mem_append.mp he with hold | hnew
    · exact h.flagged e hold
    · rw [List.mem_singleton.mp hnew]
      exact fun hc => absurd hc Bool.false_ne_true
  · intro e he
    rcases List.mem_append.mp he with hold | hnew
    · exact h.fits e hold
    · rw [List.mem_singleton.mp hnew]
      simpa [BatchEntry.Fits, BatchEntry.fields] using hfit

/-- `MarkWalTerminationPoint` marks all the entries the batch holds. -/
theorem holds_markWalTerminationPoint {b : WriteBatch} {entries : List BatchEntry}
    {term : Option Nat} (h : b.Holds entries term) :
    b.markWalTerminationPoint.Holds entries (some entries.length) := by
  have hsize : b.rep.length = kHeader + (entries.flatMap BatchEntry.encode).length := by
    rw [← h.records, List.length_drop]
    have := b.header_le
    omega
  refine ⟨h.records, h.count, h.count_lt, h.flagged, h.fits, h.unlimited, le_rfl, ?_, ?_, ?_⟩
  · simpa [WriteBatch.markWalTerminationPoint] using hsize
  · simpa [WriteBatch.markWalTerminationPoint] using h.count
  · simpa [WriteBatch.markWalTerminationPoint] using h.flagged

/-! ## `Append` -/

/-- The entries `Append` takes from a source holding `entries` with termination point `term`:
with `wal_only` and a marked point, those before it; else all of them. -/
def appendedEntries (entries : List BatchEntry) (term : Option Nat) (walOnly : Bool) :
    List BatchEntry :=
  match walOnly, term with
  | true, some k => entries.take k
  | _, _ => entries

/-- What `Append` takes is a prefix of the source's entries. -/
theorem appendedEntries_prefix (entries : List BatchEntry) (term : Option Nat) (walOnly : Bool) :
    appendedEntries entries term walOnly <+: entries := by
  unfold appendedEntries
  split
  · exact List.take_prefix _ _
  · exact List.prefix_refl _

/-- The bytes of a prefix of the entries are a prefix of their bytes. -/
theorem flatMap_encode_take_of_prefix {part entries : List BatchEntry} (h : part <+: entries) :
    (entries.flatMap BatchEntry.encode).take (part.flatMap BatchEntry.encode).length =
      part.flatMap BatchEntry.encode := by
  obtain ⟨rest, rfl⟩ := h
  rw [List.flatMap_append, List.take_left]

/-- The size, count and flags `Append` takes from a source that holds `entries`: those of the
entries it appends, with flags that cover them. -/
theorem appendSource_of_holds {src : WriteBatch} {entries : List BatchEntry} {term : Option Nat}
    (h : src.Holds entries term) (walOnly : Bool) :
    ∃ flags, (∀ e ∈ appendedEntries entries term walOnly, e.Flagged flags) ∧
      (if walOnly ∧ !src.walTermPoint.isCleared then
          (src.walTermPoint.size - kHeader, src.walTermPoint.count, src.walTermPoint.contentFlags)
        else (src.rep.length - kHeader, WriteBatchInternal.count src, src.contentFlags)) =
        (((appendedEntries entries term walOnly).flatMap BatchEntry.encode).length,
          (countedLength (appendedEntries entries term walOnly) : Int), flags) := by
  have hwhole : (src.rep.length - kHeader, WriteBatchInternal.count src, src.contentFlags) =
      ((entries.flatMap BatchEntry.encode).length, (countedLength entries : Int),
        src.contentFlags) := by
    rw [h.count, ← h.records, List.length_drop]
  have htp := h.termPoint
  cases term with
  | none =>
      -- nothing was marked: the point is cleared and `Append` takes the whole batch
      have hcleared : src.walTermPoint.isCleared = true := htp
      refine ⟨src.contentFlags, ?_, ?_⟩
      · cases walOnly <;> exact h.flagged
      · rw [if_neg (by simp [hcleared]), hwhole]
        cases walOnly <;> rfl
  | some k =>
      obtain ⟨_, hsize, hcount, hflag⟩ := htp
      cases walOnly with
      | false =>
          refine ⟨src.contentFlags, h.flagged, ?_⟩
          rw [if_neg (by simp), hwhole]
          rfl
      | true =>
          -- a marked point is never cleared: its size holds the header
          have hcleared : src.walTermPoint.isCleared = false := by
            simp [SavePoint.isCleared, hsize, kHeader]
          refine ⟨src.walTermPoint.contentFlags, hflag, ?_⟩
          rw [if_pos (by simp [hcleared]), hsize, hcount]
          simp [appendedEntries]

/-- `Append(dst, src, wal_only)`: `dst` then holds its entries followed by those taken from
`src`, and keeps its own termination point. -/
theorem holds_append {dst src : WriteBatch} {entries srcEntries : List BatchEntry}
    {term srcTerm : Option Nat} (h : dst.Holds entries term) (hs : src.Holds srcEntries srcTerm)
    (walOnly : Bool)
    (hlt : countedLength (entries ++ appendedEntries srcEntries srcTerm walOnly) < 2 ^ 31) :
    ∃ b, WriteBatchInternal.append dst src walOnly = .ok b ∧
      b.Holds (entries ++ appendedEntries srcEntries srcTerm walOnly) term := by
  obtain ⟨flags, hflags, hsel⟩ := appendSource_of_holds hs walOnly
  have hpart := appendedEntries_prefix srcEntries srcTerm walOnly
  have hbytes : (src.rep.drop kHeader).take
      ((appendedEntries srcEntries srcTerm walOnly).flatMap BatchEntry.encode).length =
      (appendedEntries srcEntries srcTerm walOnly).flatMap BatchEntry.encode := by
    rw [hs.records]
    exact flatMap_encode_take_of_prefix hpart
  have hadd : addInt (WriteBatchInternal.count dst)
      (countedLength (appendedEntries srcEntries srcTerm walOnly)) =
      .ok (countedLength (entries ++ appendedEntries srcEntries srcTerm walOnly) : Int) := by
    rw [h.count, countedLength_append]
    rw [countedLength_append] at hlt
    push_cast
    exact if_pos ⟨by omega, by omega⟩
  have hfit : ∀ e ∈ appendedEntries srcEntries srcTerm walOnly, e.Fits :=
    fun e he => hs.fits e (hpart.subset he)
  refine ⟨_, ?_, holds_extend h _ _ rfl hlt _ hbytes flags hflags hfit⟩
  unfold WriteBatchInternal.append
  dsimp only
  rw [hsel]
  dsimp only
  rw [hadd]
  rfl

end RocksCloud.Db
