import Mathlib
import RocksCloud.Db.VersionEdit

/-!
# MANIFEST records read back

`VersionEdit::DecodeFrom` reads back what `VersionEdit::EncodeTo` wrote (`decodeFrom_encodeTo`):
every field of the edit comes back, the new files with their formats' fields, the deleted files
as the same set, and `max_level_`, which no record carries, is recomputed from the levels read.
Two conditions are needed. The edit must be one the setters build, every field without its flag
at the default `Clear` gives it (`WellFormed`), with keys that are valid and slices that fit a
`uint32_t` length. And `min_log_number_to_keep_` needs a new file to ride on: `EncodeTo` writes
it only as a custom field of the first new file, so an edit with none loses it.

The proof reads the records in the order `encodeTo_eq` lays them out:

* `decodeLoop_optional` and `decodeLoop_flag` read a record written only when a condition
  holds;
* `decodeLoop_headerRecords` and `decodeLoop_trailerRecords` read the counters and the column
  family records;
* `decodeLoop_deletedRecords` reads the deleted files, and `foldl_insert_of_sorted` shows that
  inserting them in order rebuilds the set;
* `encodeNewFile_eq` says which of `kNewFile2`, `kNewFile3` and `kNewFile4` a file is written
  as, `decodeCustomFields_customFields` reads the custom fields of a `kNewFile4`, and
  `decodeLoop_newFileRecords` reads all the files, carrying whether `min_log_number_to_keep_`
  was written.
-/

set_option autoImplicit false

namespace RocksCloud.Db

open RocksCloud.Util RocksCloud.Lib.Parsing

namespace VersionEdit

/-! ## The edits `EncodeTo` can write -/

/-- The fields of a new-file record for the file `f` at `level`. -/
def newFileFields (level : Int32) (f : FileMetaData) : NewFileFields :=
  ⟨level, f.fd.getNumber, f.fd.fileSize, f.smallest, f.largest, f.fd.smallestSeqno,
    f.fd.largestSeqno⟩

/-- `max_level_` after `GetLevel` has read `levels`: raised to every level above it. -/
def maxLevelAfter (maxLevel : Int32) (levels : List Int32) : Int32 :=
  levels.foldl (fun m level => if m < level then level else m) maxLevel

theorem maxLevelAfter_append (maxLevel : Int32) (levels levels' : List Int32) :
    maxLevelAfter maxLevel (levels ++ levels') =
      maxLevelAfter (maxLevelAfter maxLevel levels) levels' :=
  List.foldl_append

/-- An edit the setters of `VersionEdit` build: every field whose flag is off holds the
default `Clear` gives it; the comparator and the column family name fit a `uint32_t` length,
and every new file has valid keys that do too. -/
structure WellFormed (e : VersionEdit) : Prop where
  comparator : e.hasComparator = false → e.comparator = []
  logNumber : e.hasLogNumber = false → e.logNumber = 0
  prevLogNumber : e.hasPrevLogNumber = false → e.prevLogNumber = 0
  nextFileNumber : e.hasNextFileNumber = false → e.nextFileNumber = 0
  lastSequence : e.hasLastSequence = false → e.lastSequence = 0
  maxColumnFamily : e.hasMaxColumnFamily = false → e.maxColumnFamily = 0
  minLogNumberToKeep : e.hasMinLogNumberToKeep = false → e.minLogNumberToKeep = 0
  columnFamilyName : e.isColumnFamilyAdd = false → e.columnFamilyName = []
  remainingEntries : e.isInAtomicGroup = false → e.remainingEntries = 0
  comparator_length : e.comparator.length < 2 ^ 32
  columnFamilyName_length : e.columnFamilyName.length < 2 ^ 32
  newFiles : ∀ x ∈ e.newFiles, (newFileFields x.1 x.2).Fits

/-! ## Records written only when a flag is set -/

/-- A record written only when `c` holds: read into `x'` when it is there; when it is not,
there is nothing to read and `x'` must be `x`. -/
theorem decodeLoop_optional (x' : VersionEdit) {x : VersionEdit} {c : Prop} [Decidable c]
    {tag : Tag} {payload R : Bytes}
    (hrun : c → decodeRecord x tag.toUInt32 (payload ++ R) = .ok (x', R))
    (hskip : ¬ c → x' = x) :
    decodeLoop x ((if c then record tag payload else []) ++ R) = decodeLoop x' R := by
  by_cases hc : c
  · rw [if_pos hc, record]
    exact decodeLoop_record (hrun hc)
  · rw [if_neg hc, hskip hc, List.nil_append]

/-- A record written only when a flag is set. -/
theorem decodeLoop_flag (x' : VersionEdit) {x : VersionEdit} {flag : Bool} {tag : Tag}
    {payload R : Bytes}
    (hrun : flag = true → decodeRecord x tag.toUInt32 (payload ++ R) = .ok (x', R))
    (hskip : flag = false → x' = x) :
    decodeLoop x ((if flag then record tag payload else []) ++ R) = decodeLoop x' R :=
  decodeLoop_optional x' hrun fun h => hskip (Bool.eq_false_iff.mpr h)

/-- The header records set the counters of a cleared edit to the edit's. -/
theorem decodeLoop_headerRecords {e : VersionEdit} (he : e.WellFormed) (R : Bytes) :
    decodeLoop clear (e.headerRecords ++ R) =
      decodeLoop { clear with
        comparator := e.comparator, hasComparator := e.hasComparator
        logNumber := e.logNumber, hasLogNumber := e.hasLogNumber
        prevLogNumber := e.prevLogNumber, hasPrevLogNumber := e.hasPrevLogNumber
        nextFileNumber := e.nextFileNumber, hasNextFileNumber := e.hasNextFileNumber
        lastSequence := e.lastSequence, hasLastSequence := e.hasLastSequence
        maxColumnFamily := e.maxColumnFamily, hasMaxColumnFamily := e.hasMaxColumnFamily } R := by
  simp only [headerRecords, List.append_assoc]
  -- one record after the other, each read into its field or skipped with its flag off
  set S₁ : VersionEdit :=
    { clear with comparator := e.comparator, hasComparator := e.hasComparator }
  rw [decodeLoop_flag S₁
    (fun h => by
      simp [S₁, h, decodeRecord,
        getLengthPrefixedSlice_putLengthPrefixedSlice _ _ he.comparator_length])
    (fun h => by simp only [S₁, h, he.comparator h]; rfl)]
  set S₂ : VersionEdit := { S₁ with logNumber := e.logNumber, hasLogNumber := e.hasLogNumber }
  rw [decodeLoop_flag S₂ (fun h => by simp [S₂, h, decodeRecord, getVarint64_encodeVarint64])
    (fun h => by simp only [S₂, h, he.logNumber h]; rfl)]
  set S₃ : VersionEdit :=
    { S₂ with prevLogNumber := e.prevLogNumber, hasPrevLogNumber := e.hasPrevLogNumber }
  rw [decodeLoop_flag S₃ (fun h => by simp [S₃, h, decodeRecord, getVarint64_encodeVarint64])
    (fun h => by simp only [S₃, h, he.prevLogNumber h]; rfl)]
  set S₄ : VersionEdit :=
    { S₃ with nextFileNumber := e.nextFileNumber, hasNextFileNumber := e.hasNextFileNumber }
  rw [decodeLoop_flag S₄ (fun h => by simp [S₄, h, decodeRecord, getVarint64_encodeVarint64])
    (fun h => by simp only [S₄, h, he.nextFileNumber h]; rfl)]
  set S₅ : VersionEdit :=
    { S₄ with lastSequence := e.lastSequence, hasLastSequence := e.hasLastSequence }
  rw [decodeLoop_flag S₅ (fun h => by simp [S₅, h, decodeRecord, getVarint64_encodeVarint64])
    (fun h => by simp only [S₅, h, he.lastSequence h]; rfl)]
  set S₆ : VersionEdit :=
    { S₅ with maxColumnFamily := e.maxColumnFamily, hasMaxColumnFamily := e.hasMaxColumnFamily }
  rw [decodeLoop_flag S₆ (fun h => by simp [S₆, h, decodeRecord, getVarint32_encodeVarint32])
    (fun h => by simp only [S₆, h, he.maxColumnFamily h]; rfl)]

/-! ## Deleted files -/

theorem deletedFileLt_irrefl (a : Int32 × UInt64) : ¬ deletedFileLt a a := by
  rw [deletedFileLt_iff]
  omega

/-- `std::set::insert` of an element above all the others appends it. -/
theorem insertSorted_of_lt (x : Int32 × UInt64) :
    ∀ l : List (Int32 × UInt64), (∀ y ∈ l, deletedFileLt y x) → insertSorted x l = l ++ [x]
  | [], _ => rfl
  | y :: ys, h => by
      have hyx := h y List.mem_cons_self
      have hxy : ¬ deletedFileLt x y :=
        fun hxy => deletedFileLt_irrefl x (deletedFileLt_trans hxy hyx)
      rw [insertSorted, if_neg hxy, if_pos hyx,
        insertSorted_of_lt x ys fun z hz => h z (List.mem_cons_of_mem y hz)]
      rfl

/-- Inserting the elements of a sorted list in order, after smaller ones, appends them. -/
theorem foldl_insertSorted_of_sorted :
    ∀ l acc : List (Int32 × UInt64), (acc ++ l).Pairwise deletedFileLt →
      l.foldl (fun s x => insertSorted x s) acc = acc ++ l
  | [], acc, _ => by simp
  | y :: ys, acc, h => by
      have hy : ∀ z ∈ acc, deletedFileLt z y :=
        fun z hz => (List.pairwise_append.mp h).2.2 z hz y List.mem_cons_self
      rw [List.foldl_cons, insertSorted_of_lt y acc hy,
        foldl_insertSorted_of_sorted ys (acc ++ [y]) (by simpa using h)]
      simp

theorem DeletedFileSet.foldl_insert_toList (l : List (Int32 × UInt64)) (s : DeletedFileSet) :
    (l.foldl DeletedFileSet.insert s).toList =
      l.foldl (fun acc x => insertSorted x acc) s.toList := by
  induction l generalizing s with
  | nil => rfl
  | cons x l ih => rw [List.foldl_cons, ih, List.foldl_cons]; rfl

/-- Inserting the elements of a set in order, into the empty set, rebuilds it. -/
theorem foldl_insert_of_sorted (s : DeletedFileSet) :
    s.toList.foldl DeletedFileSet.insert .empty = s := by
  ext1
  rw [DeletedFileSet.foldl_insert_toList]
  exact foldl_insertSorted_of_sorted s.toList [] s.sorted

/-- The deleted-file records read back: every pair is inserted, and `max_level_` is raised. -/
theorem decodeLoop_deletedRecords :
    ∀ (l : List (Int32 × UInt64)) (x : VersionEdit) (R : Bytes),
      decodeLoop x ((l.map deletedRecord).flatten ++ R) =
        decodeLoop { x with
          maxLevel := maxLevelAfter x.maxLevel (l.map Prod.fst)
          deletedFiles := l.foldl DeletedFileSet.insert x.deletedFiles } R
  | [], x, R => rfl
  | d :: l, x, R => by
      have hrec : decodeRecord x Tag.deletedFile.toUInt32
          ((encodeVarint32 d.1.toUInt32 ++ encodeVarint64 d.2) ++
            ((l.map deletedRecord).flatten ++ R)) =
          .ok ({ x with
            maxLevel := if x.maxLevel < d.1 then d.1 else x.maxLevel,
            deletedFiles := x.deletedFiles.insert d }, (l.map deletedRecord).flatten ++ R) := by
        simp only [decodeRecord, Tag.ofUInt32_toUInt32, getDeletedFileFields_encode]
      rw [List.map_cons, List.flatten_cons, List.append_assoc, deletedRecord, record,
        decodeLoop_record hrec, decodeLoop_deletedRecords l _ R]
      rfl

/-! ## New files -/

/-- The custom fields of a `kNewFile4` record, after the fields every format has: the path id
when it is not `0`, the compaction mark when it is set, `min_log_number_to_keep_` when the edit
has one not yet written, then `kTerminate`. -/
def customFields (e : VersionEdit) (minLogNumWritten : Bool) (f : FileMetaData) : Bytes :=
  (if f.fd.getPathId ≠ 0 then
    encodeVarint32 CustomTag.pathId.toUInt32 ++ putLengthPrefixedSlice [] [f.fd.getPathId.toUInt8]
    else []) ++
  (if f.markedForCompaction then
    encodeVarint32 CustomTag.needCompaction.toUInt32 ++ putLengthPrefixedSlice [] [1] else []) ++
  (if e.hasMinLogNumberToKeep && !minLogNumWritten then
    encodeVarint32 CustomTag.minLogNumberToKeepHack.toUInt32 ++
      putLengthPrefixedSlice [] (putFixed64 [] e.minLogNumberToKeep) else []) ++
  encodeVarint32 CustomTag.terminate.toUInt32

/-- The record of the new file `f` at `level`: `kNewFile4` with custom fields when the file is
marked for compaction or the edit has a `min_log_number_to_keep_`, else `kNewFile2` for path id
`0` and `kNewFile3` with the path id after the file number. -/
def newFileRecord (e : VersionEdit) (minLogNumWritten : Bool) (level : Int32) (f : FileMetaData) :
    Bytes :=
  if f.markedForCompaction || e.hasMinLogNumberToKeep then
    record .newFile4
      (newFileFieldsBytes (newFileFields level f) none ++ customFields e minLogNumWritten f)
  else if f.fd.getPathId = 0 then record .newFile2 (newFileFieldsBytes (newFileFields level f) none)
  else record .newFile3 (newFileFieldsBytes (newFileFields level f) (some f.fd.getPathId))

/-- What one turn of `EncodeTo`'s loop over the new files writes, for valid keys; the flag
records that `min_log_number_to_keep_` has been written. -/
theorem encodeNewFile_eq (e : VersionEdit) (w : Bool) (level : Int32) (f : FileMetaData)
    (hvalid : f.smallest.valid = true ∧ f.largest.valid = true) :
    e.encodeNewFile ([], w) (level, f) =
      some (newFileRecord e w level f, w || e.hasMinLogNumberToKeep) := by
  obtain ⟨hs, hl⟩ := hvalid
  unfold encodeNewFile newFileRecord
  simp only [hs, hl, Bool.not_true, Bool.or_self, Bool.false_eq_true, if_false]
  cases hm : f.markedForCompaction <;> cases hmin : e.hasMinLogNumberToKeep <;>
    by_cases hp : f.fd.getPathId = 0 <;> cases w <;>
    simp [hm, hmin, hp, customFields, newFileFieldsBytes, newFileFields, record, putVarint32,
      putVarint32Varint64, putVarint64, putLengthPrefixedSlice, putVarint64Varint64]

section CustomFields

variable (pathId : UInt32) (marked : Bool) (x : VersionEdit) (R : Bytes)

/-- `kTerminate` ends the custom fields. -/
theorem decodeCustomFields_terminate :
    decodeCustomFields pathId marked x (encodeVarint32 CustomTag.terminate.toUInt32 ++ R) =
      .ok ((pathId, marked, x), R) := by
  rw [decodeCustomFields]
  split
  · rename_i h
    simp [getVarint32_encodeVarint32] at h
  · rename_i tag rest h
    simp only [getVarint32_encodeVarint32, Option.some.injEq, Prod.mk.injEq] at h
    obtain ⟨rfl, rfl⟩ := h
    simp

/-- A path id field of one byte sets the path id. -/
theorem decodeCustomFields_pathId (q : UInt32) (hq : q.toNat < 4) :
    decodeCustomFields pathId marked x (encodeVarint32 CustomTag.pathId.toUInt32 ++
      putLengthPrefixedSlice [] [q.toUInt8] ++ R) = decodeCustomFields q marked x R := by
  -- the byte, read as a signed `char`, is the path id again, and not above `3`
  have hchar : charToUInt32 q.toUInt8 = q := by
    have h : q = 0 ∨ q = 1 ∨ q = 2 ∨ q = 3 := by
      rcases (by omega : q.toNat = 0 ∨ q.toNat = 1 ∨ q.toNat = 2 ∨ q.toNat = 3) with
        h | h | h | h <;> simp [← UInt32.toNat_inj, h]
    rcases h with rfl | rfl | rfl | rfl <;> rfl
  have hle : ¬ 3 < q := by
    rw [UInt32.lt_iff_toNat_lt]
    simp only [UInt32.reduceToNat]
    omega
  rw [decodeCustomFields]
  split
  · rename_i h
    simp [List.append_assoc, getVarint32_encodeVarint32] at h
  · rename_i tag rest h
    simp only [List.append_assoc, getVarint32_encodeVarint32, Option.some.injEq,
      Prod.mk.injEq] at h
    obtain ⟨rfl, rfl⟩ := h
    rw [if_neg (by decide)]
    split
    · rename_i h
      simp [getLengthPrefixedSlice_putLengthPrefixedSlice [q.toUInt8] R (by simp)] at h
    · rename_i field rest' h
      simp only [getLengthPrefixedSlice_putLengthPrefixedSlice [q.toUInt8] R (by simp),
        Option.some.injEq, Prod.mk.injEq] at h
      obtain ⟨rfl, rfl⟩ := h
      simp [hchar, hle]

/-- A compaction mark field of one byte `1` marks the file. -/
theorem decodeCustomFields_needCompaction :
    decodeCustomFields pathId marked x (encodeVarint32 CustomTag.needCompaction.toUInt32 ++
      putLengthPrefixedSlice [] [1] ++ R) = decodeCustomFields pathId true x R := by
  rw [decodeCustomFields]
  split
  · rename_i h
    simp [List.append_assoc, getVarint32_encodeVarint32] at h
  · rename_i tag rest h
    simp only [List.append_assoc, getVarint32_encodeVarint32, Option.some.injEq,
      Prod.mk.injEq] at h
    obtain ⟨rfl, rfl⟩ := h
    rw [if_neg (by decide)]
    split
    · rename_i h
      simp [getLengthPrefixedSlice_putLengthPrefixedSlice [1] R (by simp)] at h
    · rename_i field rest' h
      simp only [getLengthPrefixedSlice_putLengthPrefixedSlice [1] R (by simp),
        Option.some.injEq, Prod.mk.injEq] at h
      obtain ⟨rfl, rfl⟩ := h
      simp

/-- A `min_log_number_to_keep_` field sets it in the edit. -/
theorem decodeCustomFields_minLogNumberToKeep (v : UInt64) :
    decodeCustomFields pathId marked x (encodeVarint32 CustomTag.minLogNumberToKeepHack.toUInt32 ++
      putLengthPrefixedSlice [] (putFixed64 [] v) ++ R) =
      decodeCustomFields pathId marked
        { x with minLogNumberToKeep := v, hasMinLogNumberToKeep := true } R := by
  have hlen : (putFixed64 [] v).length < 2 ^ 32 := by simp [putFixed64]
  rw [decodeCustomFields]
  split
  · rename_i h
    simp [List.append_assoc, getVarint32_encodeVarint32] at h
  · rename_i tag rest h
    simp only [List.append_assoc, getVarint32_encodeVarint32, Option.some.injEq,
      Prod.mk.injEq] at h
    obtain ⟨rfl, rfl⟩ := h
    rw [if_neg (by decide)]
    split
    · rename_i h
      simp [getLengthPrefixedSlice_putLengthPrefixedSlice _ R hlen] at h
    · rename_i field rest' h
      simp only [getLengthPrefixedSlice_putLengthPrefixedSlice _ R hlen, Option.some.injEq,
        Prod.mk.injEq] at h
      obtain ⟨rfl, rfl⟩ := h
      have hget : getFixed64 (encodeFixed64 v) = some (v, []) := by
        simpa using getFixed64_encodeFixed64 v []
      simp [putFixed64, hget]

end CustomFields

/-- The edit after `min_log_number_to_keep_` is read from the file's custom fields, when the
writer put it there: the edit has one not yet written. -/
def takeMinLog (e : VersionEdit) (minLogNumWritten : Bool) (x : VersionEdit) : VersionEdit :=
  if e.hasMinLogNumberToKeep && !minLogNumWritten then
    { x with minLogNumberToKeep := e.minLogNumberToKeep, hasMinLogNumberToKeep := true }
  else x

@[simp] theorem takeMinLog_newFiles (e : VersionEdit) (w : Bool) (x : VersionEdit) :
    (takeMinLog e w x).newFiles = x.newFiles := by
  unfold takeMinLog
  split <;> rfl

theorem takeMinLog_maxLevel (e : VersionEdit) (w : Bool) (x : VersionEdit) (m : Int32) :
    takeMinLog e w { x with maxLevel := m } = { takeMinLog e w x with maxLevel := m } := by
  unfold takeMinLog
  split <;> rfl

/-- The custom fields of a file read back as its path id and its compaction mark, and the edit
takes `min_log_number_to_keep_` when it is there. -/
theorem decodeCustomFields_customFields (e : VersionEdit) (w : Bool) (f : FileMetaData)
    (x : VersionEdit) (R : Bytes) :
    decodeCustomFields 0 false x (customFields e w f ++ R) =
      .ok ((f.fd.getPathId, f.markedForCompaction, takeMinLog e w x), R) := by
  unfold customFields takeMinLog
  simp only [List.append_assoc]
  -- each optional field is read into its place, or is absent and leaves it as it was
  have hpath : ∀ T, decodeCustomFields 0 false x ((if f.fd.getPathId ≠ 0 then
      encodeVarint32 CustomTag.pathId.toUInt32 ++ putLengthPrefixedSlice [] [f.fd.getPathId.toUInt8]
      else []) ++ T) = decodeCustomFields f.fd.getPathId false x T := by
    intro T
    by_cases hp : f.fd.getPathId = 0
    · rw [if_neg (not_not.mpr hp), List.nil_append, hp]
    · rw [if_pos hp, decodeCustomFields_pathId _ _ _ _ _ (FileDescriptor.getPathId_lt f.fd)]
  have hmark : ∀ T, decodeCustomFields f.fd.getPathId false x ((if f.markedForCompaction then
      encodeVarint32 CustomTag.needCompaction.toUInt32 ++ putLengthPrefixedSlice [] [1]
      else []) ++ T) = decodeCustomFields f.fd.getPathId f.markedForCompaction x T := by
    intro T
    cases f.markedForCompaction
    · rw [if_neg Bool.false_ne_true, List.nil_append]
    · rw [if_pos rfl, decodeCustomFields_needCompaction]
  have hmin : ∀ T, decodeCustomFields f.fd.getPathId f.markedForCompaction x
      ((if e.hasMinLogNumberToKeep && !w then
        encodeVarint32 CustomTag.minLogNumberToKeepHack.toUInt32 ++
          putLengthPrefixedSlice [] (putFixed64 [] e.minLogNumberToKeep) else []) ++ T) =
      decodeCustomFields f.fd.getPathId f.markedForCompaction
        (if e.hasMinLogNumberToKeep && !w then
          { x with minLogNumberToKeep := e.minLogNumberToKeep, hasMinLogNumberToKeep := true }
        else x) T := by
    intro T
    cases e.hasMinLogNumberToKeep && !w
    · rw [if_neg Bool.false_ne_true, List.nil_append, if_neg Bool.false_ne_true]
    · rw [if_pos rfl, decodeCustomFields_minLogNumberToKeep, if_pos rfl]
  rw [hpath, hmark, hmin, decodeCustomFields_terminate]

/-- A file is rebuilt from its fields, its path id and its compaction mark. -/
theorem newFileFields_file (level : Int32) (f : FileMetaData) {pathId : UInt32} {marked : Bool}
    (hp : pathId = f.fd.getPathId) (hm : marked = f.markedForCompaction) :
    (⟨FileDescriptor.new (newFileFields level f).number pathId (newFileFields level f).fileSize
        (newFileFields level f).smallestSeqno (newFileFields level f).largestSeqno,
      (newFileFields level f).smallest, (newFileFields level f).largest, marked⟩ : FileMetaData) =
      f := by
  subst hp hm
  simp only [newFileFields, FileDescriptor.new_getNumber_getPathId]

/-- **One new file read back**: whichever of the three formats it was written in, the file is
appended at its level, `max_level_` is raised to the level, and `min_log_number_to_keep_` is
taken from the record that carries it. -/
theorem decodeLoop_newFileRecord (e : VersionEdit) (w : Bool) (level : Int32) (f : FileMetaData)
    (hf : (newFileFields level f).Fits) (x : VersionEdit) (R : Bytes) :
    decodeLoop x (newFileRecord e w level f ++ R) =
      decodeLoop { takeMinLog e w x with
        maxLevel := if x.maxLevel < level then level else x.maxLevel,
        newFiles := x.newFiles ++ [(level, f)] } R := by
  unfold newFileRecord
  by_cases hc : (f.markedForCompaction || e.hasMinLogNumberToKeep) = true
  · -- `kNewFile4`: the fields of `kNewFile2`, then the custom fields
    rw [if_pos hc, record]
    apply decodeLoop_record
    simp only [decodeRecord, Tag.ofUInt32_toUInt32, decodeNewFile4From, List.append_assoc,
      getNewFile2Fields_encode _ hf]
    rw [decodeCustomFields_customFields, takeMinLog_maxLevel]
    dsimp only
    rw [newFileFields_file level f rfl rfl, takeMinLog_newFiles]
    rfl
  -- `kNewFile2` or `kNewFile3`: no custom field, so no `min_log_number_to_keep_` either
  obtain ⟨hmark, hmin⟩ : f.markedForCompaction = false ∧ e.hasMinLogNumberToKeep = false := by
    simpa using hc
  have htake : takeMinLog e w x = x := by simp [takeMinLog, hmin]
  rw [if_neg hc, htake]
  by_cases hp : f.fd.getPathId = 0
  · rw [if_pos hp, record]
    apply decodeLoop_record
    simp only [decodeRecord, Tag.ofUInt32_toUInt32, getNewFile2Fields_encode _ hf]
    rw [newFileFields_file level f hp.symm hmark.symm]
    rfl
  · rw [if_neg hp, record]
    apply decodeLoop_record
    simp only [decodeRecord, Tag.ofUInt32_toUInt32, getNewFile3Fields_encode _ hf]
    rw [newFileFields_file level f rfl hmark.symm]
    rfl

/-- The records `EncodeTo` writes for the new files; the flag says whether
`min_log_number_to_keep_` has been written already. -/
def newFileRecords (e : VersionEdit) : Bool → List (Int32 × FileMetaData) → Bytes
  | _, [] => []
  | w, (level, f) :: files =>
      newFileRecord e w level f ++ newFileRecords e (w || e.hasMinLogNumberToKeep) files

/-- `EncodeTo`'s loop over the new files writes their records, one after the other. -/
theorem foldlM_encodeNewFile_eq (e : VersionEdit) :
    ∀ (files : List (Int32 × FileMetaData)) (w : Bool),
      (∀ y ∈ files, y.2.smallest.valid = true ∧ y.2.largest.valid = true) →
      ∃ w', files.foldlM e.encodeNewFile ([], w) = some (newFileRecords e w files, w')
  | [], w, _ => ⟨w, rfl⟩
  | (level, f) :: files, w, hvalid => by
      obtain ⟨w', hw'⟩ := foldlM_encodeNewFile_eq e files (w || e.hasMinLogNumberToKeep)
        fun y hy => hvalid y (List.mem_cons_of_mem _ hy)
      refine ⟨w', ?_⟩
      rw [List.foldlM_cons, encodeNewFile_eq e w level f (hvalid _ List.mem_cons_self),
        Option.bind_eq_bind, Option.bind_some, foldlM_encodeNewFile_append, hw']
      rfl

/-- Once `min_log_number_to_keep_` is written, no later file carries it. -/
theorem takeMinLog_written (e : VersionEdit) (w : Bool) (x : VersionEdit) :
    takeMinLog e (w || e.hasMinLogNumberToKeep) x = x := by
  unfold takeMinLog
  cases e.hasMinLogNumberToKeep <;> simp

/-- **The new files read back**, in order, each at its level; the first one carries
`min_log_number_to_keep_` when it is still to be written. -/
theorem decodeLoop_newFileRecords (e : VersionEdit) :
    ∀ (files : List (Int32 × FileMetaData)) (w : Bool) (x : VersionEdit) (R : Bytes),
      (∀ y ∈ files, (newFileFields y.1 y.2).Fits) →
      decodeLoop x (newFileRecords e w files ++ R) =
        decodeLoop { (if files = [] then x else takeMinLog e w x) with
          maxLevel := maxLevelAfter x.maxLevel (files.map Prod.fst)
          newFiles := x.newFiles ++ files } R
  | [], w, x, R, _ => by simp [newFileRecords, maxLevelAfter]
  | (level, f) :: files, w, x, R, hfits => by
      -- the first file is read, then the rest from the edit it leaves
      rw [newFileRecords, List.append_assoc,
        decodeLoop_newFileRecord e w level f (hfits _ List.mem_cons_self),
        decodeLoop_newFileRecords e files _ _ R fun y hy => hfits y (List.mem_cons_of_mem _ hy),
        takeMinLog_written, if_neg (List.cons_ne_nil _ _), ite_self]
      simp [maxLevelAfter]

/-! ## The column family records -/

/-- The trailer records set the column family fields of an edit that has none yet. -/
theorem decodeLoop_trailerRecords {e : VersionEdit} (he : e.WellFormed) (x : VersionEdit)
    (hcf : x.columnFamily = 0) (hadd : x.isColumnFamilyAdd = false)
    (hname : x.columnFamilyName = [])
    (hdrop : x.isColumnFamilyDrop = false) (hatomic : x.isInAtomicGroup = false)
    (hremaining : x.remainingEntries = 0) (R : Bytes) :
    decodeLoop x (e.trailerRecords ++ R) =
      decodeLoop { x with
        columnFamily := e.columnFamily
        isColumnFamilyAdd := e.isColumnFamilyAdd, columnFamilyName := e.columnFamilyName
        isColumnFamilyDrop := e.isColumnFamilyDrop
        isInAtomicGroup := e.isInAtomicGroup, remainingEntries := e.remainingEntries } R := by
  simp only [trailerRecords, List.append_assoc]
  -- as for the header: each record read into its fields, or skipped with the default there
  set S₁ : VersionEdit := { x with columnFamily := e.columnFamily }
  rw [decodeLoop_optional S₁ (fun _ => by simp [S₁, decodeRecord, getVarint32_encodeVarint32])
    (fun h => by simp only [S₁, not_not.mp h, ← hcf])]
  set S₂ : VersionEdit :=
    { S₁ with isColumnFamilyAdd := e.isColumnFamilyAdd, columnFamilyName := e.columnFamilyName }
  rw [decodeLoop_flag S₂ (fun h => by simp [S₂, h, decodeRecord,
      getLengthPrefixedSlice_putLengthPrefixedSlice _ _ he.columnFamilyName_length])
    (fun h => by
      simp only [S₂, h, he.columnFamilyName h, ← hadd, ← hname]
      rfl)]
  set S₃ : VersionEdit := { S₂ with isColumnFamilyDrop := e.isColumnFamilyDrop }
  rw [decodeLoop_flag S₃ (fun h => by simp [S₃, h, decodeRecord])
    (fun h => by
      simp only [S₃, h, ← hdrop]
      rfl)]
  set S₄ : VersionEdit :=
    { S₃ with isInAtomicGroup := e.isInAtomicGroup, remainingEntries := e.remainingEntries }
  rw [decodeLoop_flag S₄ (fun h => by simp [S₄, h, decodeRecord, getVarint32_encodeVarint32])
    (fun h => by
      simp only [S₄, h, he.remainingEntries h, ← hatomic, ← hremaining]
      rfl)]

/-! ## The round trip -/

/-- Reading the new files of an edit whose `min_log_number_to_keep_` travels with them, into an
edit without one, sets it to the edit's. -/
theorem ite_takeMinLog_false {e : VersionEdit} (he : e.WellFormed)
    (hmin : e.hasMinLogNumberToKeep = true → e.newFiles ≠ []) (x : VersionEdit)
    (hx : x.minLogNumberToKeep = 0) (hx' : x.hasMinLogNumberToKeep = false) :
    (if e.newFiles = [] then x else takeMinLog e false x) =
      { x with
        minLogNumberToKeep := e.minLogNumberToKeep
        hasMinLogNumberToKeep := e.hasMinLogNumberToKeep } := by
  cases hm : e.hasMinLogNumberToKeep
  · -- nothing to take, and the edit's field holds the default
    have htake : takeMinLog e false x = x := by simp [takeMinLog, hm]
    rw [htake, ite_self, he.minLogNumberToKeep hm, ← hx, ← hx']
  · rw [if_neg (hmin hm)]
    simp [takeMinLog, hm]

/-- **The MANIFEST round trip**: an edit the setters build, whose `min_log_number_to_keep_` has a
new file to travel with, is written by `EncodeTo`, and `DecodeFrom` reads every field of it back
into a cleared edit; `max_level_`, which no record carries, comes back as the largest level read,
or `0`. -/
theorem decodeFrom_encodeTo (e : VersionEdit) (he : e.WellFormed)
    (hmin : e.hasMinLogNumberToKeep = true → e.newFiles ≠ []) :
    ∃ bytes, e.encodeTo = some bytes ∧
      decodeFrom bytes = .ok { e with
        maxLevel := maxLevelAfter 0
          (e.deletedFiles.toList.map Prod.fst ++ e.newFiles.map Prod.fst) } := by
  obtain ⟨w, hw⟩ := foldlM_encodeNewFile_eq e e.newFiles false fun y hy =>
    ⟨(he.newFiles y hy).smallest_valid, (he.newFiles y hy).largest_valid⟩
  refine ⟨e.headerRecords ++ (e.deletedFiles.toList.map deletedRecord).flatten ++
    e.newFileRecords false e.newFiles ++ e.trailerRecords, by rw [encodeTo_eq, hw]; rfl, ?_⟩
  -- the four groups of records, in the order `EncodeTo` writes them
  rw [decodeFrom, List.append_assoc, List.append_assoc, decodeLoop_headerRecords he,
    decodeLoop_deletedRecords, decodeLoop_newFileRecords e e.newFiles false _ _ he.newFiles,
    ite_takeMinLog_false he hmin _ rfl rfl, ← List.append_nil e.trailerRecords,
    decodeLoop_trailerRecords he _ rfl rfl rfl rfl rfl rfl, decodeLoop_nil]
  -- the deleted files rebuild the set, and `max_level_` is raised by one level after the other
  dsimp only
  rw [← maxLevelAfter_append, show clear.deletedFiles = .empty from rfl, foldl_insert_of_sorted]
  rfl

/-- An edit with a counter, a deleted file, a new file marked for compaction on path `1`, a
`min_log_number_to_keep_` and a column family. -/
def manifestSample : VersionEdit := { clear with
  comparator := [97], hasComparator := true, logNumber := 5, hasLogNumber := true
  minLogNumberToKeep := 3, hasMinLogNumberToKeep := true
  deletedFiles := DeletedFileSet.empty.insert (1, 7)
  newFiles := [(2, ⟨FileDescriptor.new 9 1 100 4 6, ⟨[97, 1, 0, 0, 0, 0, 0, 0, 0]⟩,
    ⟨[98, 1, 0, 0, 0, 0, 0, 0, 0]⟩, true⟩)]
  columnFamily := 2 }

theorem decodeFrom_encodeTo_sample :
    manifestSample.WellFormed ∧
      (manifestSample.hasMinLogNumberToKeep = true → manifestSample.newFiles ≠ []) ∧
      ∃ bytes, manifestSample.encodeTo = some bytes ∧
        decodeFrom bytes = .ok { manifestSample with
          maxLevel := maxLevelAfter 0 (manifestSample.deletedFiles.toList.map Prod.fst ++
            manifestSample.newFiles.map Prod.fst) } := by
  have he : manifestSample.WellFormed := by
    refine ⟨by decide, by decide, by decide, by decide, by decide, by decide, by decide,
      by decide, by decide, by decide, by decide, ?_⟩
    intro x hx
    rw [manifestSample, List.mem_singleton] at hx
    subst hx
    exact ⟨by decide, by decide, by decide, by decide⟩
  have hmin : manifestSample.hasMinLogNumberToKeep = true → manifestSample.newFiles ≠ [] :=
    fun _ => List.cons_ne_nil _ _
  exact ⟨he, hmin, decodeFrom_encodeTo manifestSample he hmin⟩

end VersionEdit

end RocksCloud.Db
