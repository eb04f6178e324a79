import Mathlib
import RocksCloud.Lib.Parsing
import RocksCloud.Db.DbFormat

/-!
# MANIFEST records, `VersionEdit` in `db/version_edit.cc`

A `VersionEdit` is one change to the set of live files of a column family, with the counters
that go with it. `EncodeTo` writes it as a sequence of records, each a varint tag and its
fields; `DecodeFrom` clears an edit and reads records until the input ends.

New files are written in one of three formats. `kNewFile4` carries custom fields (the path id,
the compaction mark, and `min_log_number_to_keep_`) and is used when the file is marked for
compaction or the edit has a `min_log_number_to_keep_`; otherwise `kNewFile2` when the path id
is `0`, else `kNewFile3`. `min_log_number_to_keep_` has no record of its own in `EncodeTo`: it
goes out only as a custom field of the first new file.

Fields of `FileMetaData` that no record carries (statistics, reference counts, the table
reader) are left out, as is the `TEST_SYNC_POINT_CALLBACK`. On an error the source leaves a
partly filled edit; here `DecodeFrom` returns only the message of its `Status::Corruption`.
-/

set_option autoImplicit false

namespace RocksCloud.Db

open RocksCloud.Util RocksCloud.Lib.Parsing

/-! ## Tags -/

/-- `Tag`: the kinds of record. -/
inductive Tag where
  | comparator | logNumber | nextFileNumber | lastSequence | compactPointer | deletedFile
  | newFile | prevLogNumber | minLogNumberToKeep | newFile2 | newFile3 | newFile4
  | columnFamily | columnFamilyAdd | columnFamilyDrop | maxColumnFamily | inAtomicGroup
  deriving Repr, DecidableEq

namespace Tag

/-- The numbers written to disk. -/
def toUInt32 : Tag → UInt32
  | comparator => 1
  | logNumber => 2
  | nextFileNumber => 3
  | lastSequence => 4
  | compactPointer => 5
  | deletedFile => 6
  | newFile => 7
  | prevLogNumber => 9
  | minLogNumberToKeep => 10
  | newFile2 => 100
  | newFile3 => 102
  | newFile4 => 103
  | columnFamily => 200
  | columnFamilyAdd => 201
  | columnFamilyDrop => 202
  | maxColumnFamily => 203
  | inAtomicGroup => 300

/-- The tag a number names, for the `switch` of `DecodeFrom`. -/
def ofUInt32 (v : UInt32) : Option Tag :=
  [comparator, logNumber, nextFileNumber, lastSequence, compactPointer, deletedFile, newFile,
    prevLogNumber, minLogNumberToKeep, newFile2, newFile3, newFile4, columnFamily,
    columnFamilyAdd, columnFamilyDrop, maxColumnFamily, inAtomicGroup].find? (·.toUInt32 = v)

@[simp] theorem ofUInt32_toUInt32 (t : Tag) : ofUInt32 t.toUInt32 = some t := by
  cases t <;> rfl

end Tag

/-- `kTagSafeIgnoreMask`: a tag from the future with this bit set is followed by its length and
can be skipped. -/
def kTagSafeIgnoreMask : UInt32 := (1 : UInt32) <<< 13

/-- `CustomTag`: the custom fields of a `kNewFile4` record. -/
inductive CustomTag where
  | terminate | needCompaction | minLogNumberToKeepHack | pathId
  deriving Repr, DecidableEq

namespace CustomTag

def toUInt32 : CustomTag → UInt32
  | terminate => 1
  | needCompaction => 2
  | minLogNumberToKeepHack => 3
  | pathId => 65

def ofUInt32 (v : UInt32) : Option CustomTag :=
  [terminate, needCompaction, minLogNumberToKeepHack, pathId].find? (·.toUInt32 = v)

@[simp] theorem ofUInt32_toUInt32 (t : CustomTag) : ofUInt32 t.toUInt32 = some t := by
  cases t <;> rfl

end CustomTag

/-- `kCustomTagNonSafeIgnoreMask`: an unknown custom field with this bit set stops decoding. -/
def kCustomTagNonSafeIgnoreMask : UInt32 := (1 : UInt32) <<< 6

/-! ## Files -/

def kFileNumberMask : UInt64 := 0x3FFFFFFFFFFFFFFF

/-- `PackFileNumberAndPathId`: the path id above the 62 bits of the file number. The source
asserts `number <= kFileNumberMask`; this is the word a build without assertions computes, in
which a larger number runs into the bits of the path id. The numbers `EncodeTo` writes are
read with `GetNumber` and pass the assert. -/
def packFileNumberAndPathId (number pathId : UInt64) : UInt64 :=
  number ||| pathId * (kFileNumberMask + 1)

/-- `FileDescriptor` without its table reader. -/
structure FileDescriptor where
  packedNumberAndPathId : UInt64
  fileSize : UInt64
  smallestSeqno : UInt64
  largestSeqno : UInt64
  deriving Repr, DecidableEq

namespace FileDescriptor

/-- `FileDescriptor(number, path_id, file_size, smallest_seqno, largest_seqno)`. -/
def new (number : UInt64) (pathId : UInt32) (fileSize smallestSeqno largestSeqno : UInt64) :
    FileDescriptor :=
  ⟨packFileNumberAndPathId number pathId.toUInt64, fileSize, smallestSeqno, largestSeqno⟩

/-- `FileDescriptor(number, path_id, file_size)`: no sequence numbers yet. -/
def new3 (number : UInt64) (pathId : UInt32) (fileSize : UInt64) : FileDescriptor :=
  new number pathId fileSize kMaxSequenceNumber.toUInt64 0

def getNumber (fd : FileDescriptor) : UInt64 := fd.packedNumberAndPathId &&& kFileNumberMask

def getPathId (fd : FileDescriptor) : UInt32 :=
  (fd.packedNumberAndPathId / (kFileNumberMask + 1)).toUInt32

end FileDescriptor

/-- `InternalKey`: its encoding `rep_`. -/
structure InternalKey where
  rep : Bytes
  deriving Repr, DecidableEq

/-- `InternalKey::Valid()`: the encoding parses. -/
def InternalKey.valid (key : InternalKey) : Bool := (parseInternalKey key.rep).isSome

/-- The fields of `FileMetaData` that a record carries. -/
structure FileMetaData where
  fd : FileDescriptor
  smallest : InternalKey
  largest : InternalKey
  markedForCompaction : Bool
  deriving Repr, DecidableEq

/-! ## The deleted files, a `std::set` -/

/-- `operator<` of `std::pair<int, uint64_t>`. -/
def deletedFileLt (a b : Int32 × UInt64) : Prop := a.1 < b.1 ∨ ¬ b.1 < a.1 ∧ a.2 < b.2

instance : DecidableRel deletedFileLt := fun a b => by
  unfold deletedFileLt
  infer_instance

/-- `std::set::insert` on the elements in order: nothing when an equal one is there. -/
def insertSorted (x : Int32 × UInt64) : List (Int32 × UInt64) → List (Int32 × UInt64)
  | [] => [x]
  | y :: ys =>
      if deletedFileLt x y then x :: y :: ys
      else if deletedFileLt y x then y :: insertSorted x ys
      else y :: ys

theorem deletedFileLt_iff (a b : Int32 × UInt64) :
    deletedFileLt a b ↔ a.1.toInt < b.1.toInt ∨ a.1.toInt = b.1.toInt ∧ a.2.toNat < b.2.toNat := by
  unfold deletedFileLt
  rw [Int32.lt_iff_toInt_lt, Int32.lt_iff_toInt_lt, UInt64.lt_iff_toNat_lt]
  omega

theorem deletedFileLt_trans {a b c : Int32 × UInt64} (hab : deletedFileLt a b)
    (hbc : deletedFileLt b c) : deletedFileLt a c := by
  rw [deletedFileLt_iff] at *
  omega

theorem mem_insertSorted {x z : Int32 × UInt64} :
    ∀ {l : List (Int32 × UInt64)}, z ∈ insertSorted x l → z = x ∨ z ∈ l
  | [], h => Or.inl (List.mem_singleton.mp h)
  | y :: ys, h => by
      unfold insertSorted at h
      split_ifs at h
      · exact List.mem_cons.mp h
      · rcases List.mem_cons.mp h with rfl | h
        · exact Or.inr List.mem_cons_self
        · exact (mem_insertSorted h).imp_right (List.mem_cons_of_mem y)
      · exact Or.inr h

/-- Insertion keeps the elements in increasing order. -/
theorem pairwise_insertSorted (x : Int32 × UInt64) :
    ∀ l : List (Int32 × UInt64), l.Pairwise deletedFileLt → (insertSorted x l).Pairwise deletedFileLt
  | [], _ => List.pairwise_singleton _ _
  | y :: ys, h => by
      obtain ⟨hy, hys⟩ := List.pairwise_cons.mp h
      unfold insertSorted
      split_ifs with hxy hyx
      · exact List.Pairwise.cons (fun z hz => (List.mem_cons.mp hz).elim (· ▸ hxy)
          (deletedFileLt_trans hxy ∘ hy z)) h
      · -- every element of the insertion is `x` or one of `ys`, all above `y`
        refine List.Pairwise.cons (fun z hz => ?_) (pairwise_insertSorted x ys hys)
        rcases mem_insertSorted hz with rfl | hz
        · exact hyx
        · exact hy z hz
      · exact h

/-- `VersionEdit::DeletedFileSet`: the (level, file number) pairs in increasing order. -/
@[ext] structure DeletedFileSet where
  toList : List (Int32 × UInt64)
  sorted : toList.Pairwise deletedFileLt

namespace DeletedFileSet

def empty : DeletedFileSet := ⟨[], List.Pairwise.nil⟩

def insert (s : DeletedFileSet) (x : Int32 × UInt64) : DeletedFileSet :=
  ⟨insertSorted x s.toList, pairwise_insertSorted x s.toList s.sorted⟩

end DeletedFileSet

/-! ## The edit -/

/-- `VersionEdit`. -/
structure VersionEdit where
  maxLevel : Int32
  comparator : Bytes
  logNumber : UInt64
  prevLogNumber : UInt64
  nextFileNumber : UInt64
  maxColumnFamily : UInt32
  minLogNumberToKeep : UInt64
  lastSequence : UInt64
  hasComparator : Bool
  hasLogNumber : Bool
  hasPrevLogNumber : Bool
  hasNextFileNumber : Bool
  hasLastSequence : Bool
  hasMaxColumnFamily : Bool
  hasMinLogNumberToKeep : Bool
  deletedFiles : DeletedFileSet
  newFiles : List (Int32 × FileMetaData)
  columnFamily : UInt32
  isColumnFamilyAdd : Bool
  isColumnFamilyDrop : Bool
  columnFamilyName : Bytes
  isInAtomicGroup : Bool
  remainingEntries : UInt32

namespace VersionEdit

/-- `Clear()`: the edit `VersionEdit()` makes. -/
def clear : VersionEdit where
  maxLevel := 0
  comparator := []
  logNumber := 0
  prevLogNumber := 0
  nextFileNumber := 0
  maxColumnFamily := 0
  minLogNumberToKeep := 0
  lastSequence := 0
  hasComparator := false
  hasLogNumber := false
  hasPrevLogNumber := false
  hasNextFileNumber := false
  hasLastSequence := false
  hasMaxColumnFamily := false
  hasMinLogNumberToKeep := false
  deletedFiles := .empty
  newFiles := []
  columnFamily := 0
  isColumnFamilyAdd := false
  isColumnFamilyDrop := false
  columnFamilyName := []
  isInAtomicGroup := false
  remainingEntries := 0

/-! ## Encoding -/

/-- The body of the loop of `EncodeTo` over `new_files_`: the bytes so far and whether
`min_log_number_to_keep_` was written, after one more file; `none` where the source returns
`false`. -/
def encodeNewFile (e : VersionEdit) (acc : Bytes × Bool) (entry : Int32 × FileMetaData) :
    Option (Bytes × Bool) :=
  let (dst, minLogNumWritten) := acc
  let (level, f) := entry
  if !f.smallest.valid || !f.largest.valid then none
  else
    let hasCustomizedFields := f.markedForCompaction || e.hasMinLogNumberToKeep
    let dst :=
      if hasCustomizedFields then putVarint32 dst Tag.newFile4.toUInt32
      else if f.fd.getPathId = 0 then putVarint32 dst Tag.newFile2.toUInt32
      else putVarint32 dst Tag.newFile3.toUInt32
    let dst := putVarint32Varint64 dst level.toUInt32 f.fd.getNumber
    let dst := if f.fd.getPathId ≠ 0 && !hasCustomizedFields then putVarint32 dst f.fd.getPathId
      else dst
    let dst := putVarint64 dst f.fd.fileSize
    let dst := putLengthPrefixedSlice dst f.smallest.rep
    let dst := putLengthPrefixedSlice dst f.largest.rep
    let dst := putVarint64Varint64 dst f.fd.smallestSeqno f.fd.largestSeqno
    if hasCustomizedFields then
      let dst := if f.fd.getPathId ≠ 0 then
          putLengthPrefixedSlice (putVarint32 dst CustomTag.pathId.toUInt32) [f.fd.getPathId.toUInt8]
        else dst
      let dst := if f.markedForCompaction then
          putLengthPrefixedSlice (putVarint32 dst CustomTag.needCompaction.toUInt32) [1]
        else dst
      let (dst, minLogNumWritten) :=
        if e.hasMinLogNumberToKeep && !minLogNumWritten then
          (putLengthPrefixedSlice (putVarint32 dst CustomTag.minLogNumberToKeepHack.toUInt32)
            (putFixed64 [] e.minLogNumberToKeep), true)
        else (dst, minLogNumWritten)
      some (putVarint32 dst CustomTag.terminate.toUInt32, minLogNumWritten)
    else some (dst, minLogNumWritten)

/-- `EncodeTo(dst)` on an empty `dst`: the records, or `none` where the source returns
`false`. -/
def encodeTo (e : VersionEdit) : Option Bytes := do
  let dst : Bytes := []
  let dst := if e.hasComparator then
      putLengthPrefixedSlice (putVarint32 dst Tag.comparator.toUInt32) e.comparator
    else dst
  let dst := if e.hasLogNumber then
      putVarint32Varint64 dst Tag.logNumber.toUInt32 e.logNumber
    else dst
  let dst := if e.hasPrevLogNumber then
      putVarint32Varint64 dst Tag.prevLogNumber.toUInt32 e.prevLogNumber
    else dst
  let dst := if e.hasNextFileNumber then
      putVarint32Varint64 dst Tag.nextFileNumber.toUInt32 e.nextFileNumber
    else dst
  let dst := if e.hasLastSequence then
      putVarint32Varint64 dst Tag.lastSequence.toUInt32 e.lastSequence
    else dst
  let dst := if e.hasMaxColumnFamily then
      putVarint32Varint32 dst Tag.maxColumnFamily.toUInt32 e.maxColumnFamily
    else dst
  let dst := e.deletedFiles.toList.foldl (fun dst deleted =>
    putVarint32Varint32Varint64 dst Tag.deletedFile.toUInt32 deleted.1.toUInt32 deleted.2) dst
  let (dst, _) ← e.newFiles.foldlM e.encodeNewFile (dst, false)
  -- `0` is the default and is not written
  let dst := if e.columnFamily ≠ 0 then
      putVarint32Varint32 dst Tag.columnFamily.toUInt32 e.columnFamily
    else dst
  let dst := if e.isColumnFamilyAdd then
      putLengthPrefixedSlice (putVarint32 dst Tag.columnFamilyAdd.toUInt32) e.columnFamilyName
    else dst
  let dst := if e.isColumnFamilyDrop then putVarint32 dst Tag.columnFamilyDrop.toUInt32 else dst
  let dst := if e.isInAtomicGroup then
      putVarint32 (putVarint32 dst Tag.inAtomicGroup.toUInt32) e.remainingEntries
    else dst
  pure dst

end VersionEdit

/-! ## Decoding -/

/-- A `char`, signed, converted to `uint32_t`. -/
def charToUInt32 (c : UInt8) : UInt32 := c.toInt8.toInt32.toUInt32

/-- `GetInternalKey`: a length-prefixed key, which must be valid. -/
def getInternalKey : Parser UInt8 InternalKey := fun input =>
  match getLengthPrefixedSlice input with
  | some (str, rest) => if (⟨str⟩ : InternalKey).valid then some (⟨str⟩, rest) else none
  | none => none

/-- `GetLevel`: the level, and `max_level_` raised to it. -/
def getLevel (maxLevel : Int32) : Parser UInt8 (Int32 × Int32) := fun input =>
  match getVarint32 input with
  | some (v, rest) =>
      let level := v.toInt32
      some ((level, if maxLevel < level then level else maxLevel), rest)
  | none => none

/-- The fields of a `kCompactPointer` record: `max_level_` after `GetLevel`. -/
def getCompactPointerFields (maxLevel : Int32) : Parser UInt8 Int32 := do
  let (_, maxLevel) ← getLevel maxLevel
  let _ ← getInternalKey
  pure maxLevel

/-- The fields of a `kDeletedFile` record: `max_level_` after `GetLevel`, the level and the file
number. -/
def getDeletedFileFields (maxLevel : Int32) : Parser UInt8 (Int32 × Int32 × UInt64) := do
  let (level, maxLevel) ← getLevel maxLevel
  let number ← getVarint64
  pure (maxLevel, level, number)

/-- What a new-file record holds besides its path id and compaction mark. -/
structure NewFileFields where
  level : Int32
  number : UInt64
  fileSize : UInt64
  smallest : InternalKey
  largest : InternalKey
  smallestSeqno : UInt64
  largestSeqno : UInt64
  deriving Repr, DecidableEq

/-- The fields of a `kNewFile2` record, with which a `kNewFile4` record starts too: `max_level_`
after `GetLevel` and the fields. -/
def getNewFile2Fields (maxLevel : Int32) : Parser UInt8 (Int32 × NewFileFields) := do
  let (level, maxLevel) ← getLevel maxLevel
  let number ← getVarint64
  let fileSize ← getVarint64
  let smallest ← getInternalKey
  let largest ← getInternalKey
  let smallestSeqno ← getVarint64
  let largestSeqno ← getVarint64
  pure (maxLevel, ⟨level, number, fileSize, smallest, largest, smallestSeqno, largestSeqno⟩)

/-- The fields of a `kNewFile3` record: a path id after the file number. -/
def getNewFile3Fields (maxLevel : Int32) : Parser UInt8 (Int32 × UInt32 × NewFileFields) := do
  let (level, maxLevel) ← getLevel maxLevel
  let number ← getVarint64
  let pathId ← getVarint32
  let fileSize ← getVarint64
  let smallest ← getInternalKey
  let largest ← getInternalKey
  let smallestSeqno ← getVarint64
  let largestSeqno ← getVarint64
  pure (maxLevel, pathId, ⟨level, number, fileSize, smallest, largest, smallestSeqno, largestSeqno⟩)

/-- The fields of a `kNewFile` record: no sequence numbers. -/
def getNewFileFields (maxLevel : Int32) :
    Parser UInt8 (Int32 × Int32 × UInt64 × UInt64 × InternalKey × InternalKey) := do
  let (level, maxLevel) ← getLevel maxLevel
  let number ← getVarint64
  let fileSize ← getVarint64
  let smallest ← getInternalKey
  let largest ← getInternalKey
  pure (maxLevel, level, number, fileSize, smallest, largest)

/-! ### What the readers consume -/

theorem getVarint32_advances : Advances (getVarint32 : Parser UInt8 UInt32) :=
  fun _ _ _ h => getVarint32_shortens h

theorem getVarint64_advances : Advances (getVarint64 : Parser UInt8 UInt64) :=
  fun _ _ _ h => getVarint64_shortens h

theorem getInternalKey_advances : Advances getInternalKey := by
  intro input key rest h
  unfold getInternalKey at h
  split at h
  · rename_i str rest' hslice
    split_ifs at h
    cases h
    exact getLengthPrefixedSlice_shortens hslice
  · cases h

theorem getLevel_advances (maxLevel : Int32) : Advances (getLevel maxLevel) := by
  intro input r rest h
  unfold getLevel at h
  split at h
  · rename_i v rest' hv
    cases h
    exact getVarint32_shortens hv
  · cases h

theorem getCompactPointerFields_advances (maxLevel : Int32) :
    Advances (getCompactPointerFields maxLevel) := by
  refine (getLevel_advances maxLevel).bind fun ⟨_, maxLevel⟩ => ?_
  refine getInternalKey_advances.consumes.bind fun _ => ?_
  exact Consumes.pure _

theorem getDeletedFileFields_advances (maxLevel : Int32) :
    Advances (getDeletedFileFields maxLevel) := by
  refine (getLevel_advances maxLevel).bind fun ⟨level, maxLevel⟩ => ?_
  refine getVarint64_advances.consumes.bind fun _ => ?_
  exact Consumes.pure _

theorem getNewFile2Fields_advances (maxLevel : Int32) : Advances (getNewFile2Fields maxLevel) := by
  refine (getLevel_advances maxLevel).bind fun ⟨level, maxLevel⟩ => ?_
  refine getVarint64_advances.consumes.bind fun _ => ?_
  refine getVarint64_advances.consumes.bind fun _ => ?_
  refine getInternalKey_advances.consumes.bind fun _ => ?_
  refine getInternalKey_advances.consumes.bind fun _ => ?_
  refine getVarint64_advances.consumes.bind fun _ => ?_
  refine getVarint64_advances.consumes.bind fun _ => ?_
  exact Consumes.pure _

theorem getNewFile3Fields_advances (maxLevel : Int32) : Advances (getNewFile3Fields maxLevel) := by
  refine (getLevel_advances maxLevel).bind fun ⟨level, maxLevel⟩ => ?_
  refine getVarint64_advances.consumes.bind fun _ => ?_
  refine getVarint32_advances.consumes.bind fun _ => ?_
  refine getVarint64_advances.consumes.bind fun _ => ?_
  refine getInternalKey_advances.consumes.bind fun _ => ?_
  refine getInternalKey_advances.consumes.bind fun _ => ?_
  refine getVarint64_advances.consumes.bind fun _ => ?_
  refine getVarint64_advances.consumes.bind fun _ => ?_
  exact Consumes.pure _

theorem getNewFileFields_advances (maxLevel : Int32) : Advances (getNewFileFields maxLevel) := by
  refine (getLevel_advances maxLevel).bind fun ⟨level, maxLevel⟩ => ?_
  refine getVarint64_advances.consumes.bind fun _ => ?_
  refine getVarint64_advances.consumes.bind fun _ => ?_
  refine getInternalKey_advances.consumes.bind fun _ => ?_
  refine getInternalKey_advances.consumes.bind fun _ => ?_
  exact Consumes.pure _

namespace VersionEdit

/-- The loop of `DecodeNewFile4From` over the custom fields, up to `kTerminate`: the path id, the
compaction mark, and the edit, which takes `min_log_number_to_keep_`. -/
def decodeCustomFields (pathId : UInt32) (marked : Bool) (e : VersionEdit) (input : Bytes) :
    Except String ((UInt32 × Bool × VersionEdit) × Bytes) :=
  match _h1 : getVarint32 input with
  | none => .error "new-file4 custom field"
  | some (customTag, rest) =>
      if customTag = CustomTag.terminate.toUInt32 then .ok ((pathId, marked, e), rest)
      else
        match _h2 : getLengthPrefixedSlice rest with
        | none => .error "new-file4 custom field length prefixed slice error"
        | some (field, rest') =>
            match CustomTag.ofUInt32 customTag with
            | some .pathId =>
                if field.length ≠ 1 then .error "path_id field wrong size"
                else
                  let pathId := charToUInt32 (field.getD 0 0)
                  if pathId > 3 then .error "path_id wrong vaue"
                  else decodeCustomFields pathId marked e rest'
            | some .needCompaction =>
                if field.length ≠ 1 then .error "need_compaction field wrong size"
                else decodeCustomFields pathId (field.getD 0 0 == 1) e rest'
            | some .minLogNumberToKeepHack =>
                -- `min_log_number_to_keep_` in a custom field, for forward compatibility
                match getFixed64 field with
                | none => .error "deleted log number malformatted"
                | some (v, _) =>
                    decodeCustomFields pathId marked
                      { e with minLogNumberToKeep := v, hasMinLogNumberToKeep := true } rest'
            | _ =>
                if customTag &&& kCustomTagNonSafeIgnoreMask ≠ 0 then
                  .error "new-file4 custom field not supported"
                else decodeCustomFields pathId marked e rest'
termination_by input.length
decreasing_by
  all_goals
    have := getVarint32_shortens _h1
    have := getLengthPrefixedSlice_shortens _h2
    omega

/-- `DecodeNewFile4From(input)`. -/
def decodeNewFile4From (e : VersionEdit) (input : Bytes) : Except String (VersionEdit × Bytes) :=
  match getNewFile2Fields e.maxLevel input with
  | none => .error "new-file4 entry"
  | some ((maxLevel, r), rest) =>
      match decodeCustomFields 0 false { e with maxLevel := maxLevel } rest with
      | .error msg => .error msg
      | .ok ((pathId, marked, e), rest) =>
          let f : FileMetaData :=
            ⟨FileDescriptor.new r.number pathId r.fileSize r.smallestSeqno r.largestSeqno,
              r.smallest, r.largest, marked⟩
          .ok ({ e with newFiles := e.newFiles ++ [(r.level, f)] }, rest)

theorem decodeCustomFields_length_le {pathId : UInt32} {marked : Bool} {e : VersionEdit}
    {input : Bytes} {r : UInt32 × Bool × VersionEdit} {rest : Bytes}
    (h : decodeCustomFields pathId marked e input = .ok (r, rest)) : rest.length < input.length := by
  revert h
  -- one case per branch of the loop; every turn reads a tag and a field before it goes on
  fun_induction decodeCustomFields pathId marked e input <;> intro h
  all_goals try simp only [reduceCtorEq] at h
  case case2 =>
    cases h
    exact getVarint32_shortens ‹getVarint32 _ = some _›
  all_goals
    have hfield := getLengthPrefixedSlice_shortens ‹getLengthPrefixedSlice _ = some _›
    have htag := getVarint32_shortens ‹getVarint32 _ = some _›
    have hnext := ‹decodeCustomFields _ _ _ _ = _ → _› h
    omega

theorem decodeNewFile4From_length_le {e e' : VersionEdit} {input rest : Bytes}
    (h : decodeNewFile4From e input = .ok (e', rest)) : rest.length < input.length := by
  unfold decodeNewFile4From at h
  split at h
  · cases h
  · split at h
    · cases h
    · cases h
      have hfields := getNewFile2Fields_advances _ _ _ _ ‹getNewFile2Fields _ _ = some _›
      have hcustom := decodeCustomFields_length_le ‹decodeCustomFields _ _ _ _ = .ok _›
      omega

/-- One turn of the loop of `DecodeFrom`, after the tag: the edit and the rest of the input, or
the message. -/
def decodeRecord (e : VersionEdit) (tag : UInt32) (input : Bytes) :
    Except String (VersionEdit × Bytes) :=
  match Tag.ofUInt32 tag with
  | some .comparator =>
      match getLengthPrefixedSlice input with
      | some (str, rest) => .ok ({ e with comparator := str, hasComparator := true }, rest)
      | none => .error "comparator name"
  | some .logNumber =>
      match getVarint64 input with
      | some (v, rest) => .ok ({ e with logNumber := v, hasLogNumber := true }, rest)
      | none => .error "log number"
  | some .prevLogNumber =>
      match getVarint64 input with
      | some (v, rest) => .ok ({ e with prevLogNumber := v, hasPrevLogNumber := true }, rest)
      | none => .error "previous log number"
  | some .nextFileNumber =>
      match getVarint64 input with
      | some (v, rest) => .ok ({ e with nextFileNumber := v, hasNextFileNumber := true }, rest)
      | none => .error "next file number"
  | some .lastSequence =>
      match getVarint64 input with
      | some (v, rest) => .ok ({ e with lastSequence := v, hasLastSequence := true }, rest)
      | none => .error "last sequence number"
  | some .maxColumnFamily =>
      match getVarint32 input with
      | some (v, rest) => .ok ({ e with maxColumnFamily := v, hasMaxColumnFamily := true }, rest)
      | none => .error "max column family"
  | some .minLogNumberToKeep =>
      match getVarint64 input with
      | some (v, rest) =>
          .ok ({ e with minLogNumberToKeep := v, hasMinLogNumberToKeep := true }, rest)
      | none => .error "min log number to kee"
  | some .compactPointer =>
      -- compact pointers are no longer used, but are accepted
      match getCompactPointerFields e.maxLevel input with
      | some (maxLevel, rest) => .ok ({ e with maxLevel := maxLevel }, rest)
      | none => .error "compaction pointer"
  | some .deletedFile =>
      match getDeletedFileFields e.maxLevel input with
      | some ((maxLevel, level, number), rest) =>
          .ok ({ e with maxLevel := maxLevel, deletedFiles := e.deletedFiles.insert (level, number) },
            rest)
      | none => .error "deleted file"
  | some .newFile =>
      match getNewFileFields e.maxLevel input with
      | some ((maxLevel, level, number, fileSize, smallest, largest), rest) =>
          let f : FileMetaData := ⟨FileDescriptor.new3 number 0 fileSize, smallest, largest, false⟩
          .ok ({ e with maxLevel := maxLevel, newFiles := e.newFiles ++ [(level, f)] }, rest)
      | none => .error "new-file entry"
  | some .newFile2 =>
      match getNewFile2Fields e.maxLevel input with
      | some ((maxLevel, r), rest) =>
          let f : FileMetaData :=
            ⟨FileDescriptor.new r.number 0 r.fileSize r.smallestSeqno r.largestSeqno, r.smallest,
              r.largest, false⟩
          .ok ({ e with maxLevel := maxLevel, newFiles := e.newFiles ++ [(r.level, f)] }, rest)
      | none => .error "new-file2 entry"
  | some .newFile3 =>
      match getNewFile3Fields e.maxLevel input with
      | some ((maxLevel, pathId, r), rest) =>
          let f : FileMetaData :=
            ⟨FileDescriptor.new r.number pathId r.fileSize r.smallestSeqno r.largestSeqno,
              r.smallest, r.largest, false⟩
          .ok ({ e with maxLevel := maxLevel, newFiles := e.newFiles ++ [(r.level, f)] }, rest)
      | none => .error "new-file3 entry"
  | some .newFile4 => decodeNewFile4From e input
  | some .columnFamily =>
      match getVarint32 input with
      | some (v, rest) => .ok ({ e with columnFamily := v }, rest)
      | none => .error "set column family id"
  | some .columnFamilyAdd =>
      match getLengthPrefixedSlice input with
      | some (str, rest) =>
          .ok ({ e with isColumnFamilyAdd := true, columnFamilyName := str }, rest)
      | none => .error "column family add"
  | some .columnFamilyDrop => .ok ({ e with isColumnFamilyDrop := true }, input)
  | some .inAtomicGroup =>
      match getVarint32 input with
      | some (v, rest) => .ok ({ e with isInAtomicGroup := true, remainingEntries := v }, rest)
      | none => .error "remaining entries"
  | none =>
      if tag &&& kTagSafeIgnoreMask ≠ 0 then
        -- a tag from the future: its length follows, and it is skipped
        match getVarint32 input with
        | some (fieldLen, rest) =>
            if fieldLen.toNat > rest.length then .error "safely ignoreable tag length error"
            else .ok (e, rest.drop fieldLen.toNat)
        | none => .error "safely ignoreable tag length error"
      else .error "unknown tag"

/-- A record never leaves more input than it was given. -/
theorem decodeRecord_length_le {e e' : VersionEdit} {tag : UInt32} {input rest : Bytes}
    (h : decodeRecord e tag input = .ok (e', rest)) : rest.length ≤ input.length := by
  unfold decodeRecord at h
  -- one case per tag, then one per outcome of the record's reader
  split at h
  all_goals try exact (decodeNewFile4From_length_le h).le
  all_goals
    repeat' split at h
  all_goals try simp only [reduceCtorEq] at h
  all_goals
    simp only [Except.ok.injEq, Prod.mk.injEq] at h
    obtain ⟨-, rfl⟩ := h
  all_goals first
    | exact le_refl _
    | exact (getVarint32_shortens ‹getVarint32 _ = some _›).le
    | exact (getVarint64_shortens ‹getVarint64 _ = some _›).le
    | exact (getLengthPrefixedSlice_shortens ‹getLengthPrefixedSlice _ = some _›).le
    | exact (getCompactPointerFields_advances _ _ _ _ ‹_›).le
    | exact (getDeletedFileFields_advances _ _ _ _ ‹_›).le
    | exact (getNewFileFields_advances _ _ _ _ ‹_›).le
    | exact (getNewFile2Fields_advances _ _ _ _ ‹_›).le
    | exact (getNewFile3Fields_advances _ _ _ _ ‹_›).le
    | -- a skipped field from the future
      rw [List.length_drop]
      have := getVarint32_shortens ‹getVarint32 _ = some _›
      omega

/-- The loop of `DecodeFrom`: records until no tag can be read, which must be at the end of the
input. -/
def decodeLoop (e : VersionEdit) (input : Bytes) : Except String VersionEdit :=
  match _htag : getVarint32 input with
  | some (tag, rest) =>
      match _hrecord : decodeRecord e tag rest with
      | .ok (e, rest) => decodeLoop e rest
      | .error msg => .error msg
  | none => if input.isEmpty then .ok e else .error "invalid tag"
termination_by input.length
decreasing_by
  have := getVarint32_shortens _htag
  have := decodeRecord_length_le _hrecord
  omega

/-- `DecodeFrom(src)`: the edit, or the message of the `Status::Corruption`. -/
def decodeFrom (src : Bytes) : Except String VersionEdit := decodeLoop clear src

/-! ## The loop, record by record -/

@[simp] theorem decodeLoop_nil (e : VersionEdit) : decodeLoop e [] = .ok e := by
  rw [decodeLoop]
  rfl

/-- A record read, the loop goes on after it. -/
theorem decodeLoop_record {e e' : VersionEdit} {tag : UInt32} {payload rest : Bytes}
    (h : decodeRecord e tag (payload ++ rest) = .ok (e', rest)) :
    decodeLoop e (encodeVarint32 tag ++ payload ++ rest) = decodeLoop e' rest := by
  rw [decodeLoop]
  split
  · rename_i tag' rest' htag
    rw [List.append_assoc, getVarint32_encodeVarint32, Option.some.injEq, Prod.mk.injEq] at htag
    obtain ⟨rfl, rfl⟩ := htag
    split
    · rename_i e'' rest'' hrec
      rw [h, Except.ok.injEq, Prod.mk.injEq] at hrec
      obtain ⟨rfl, rfl⟩ := hrec
      rfl
    · rename_i msg hrec
      rw [h] at hrec
      cases hrec
  · rename_i htag
    rw [List.append_assoc, getVarint32_encodeVarint32] at htag
    cases htag

/-- **`min_log_number_to_keep_` is lost without a new file.** The edit of
`SetMinLogNumberToKeep(13)` alone encodes to no bytes at all, and those decode to the cleared
edit, which has no `min_log_number_to_keep_`. -/
theorem decodeFrom_encodeTo_drops_minLogNumberToKeep :
    encodeTo { clear with hasMinLogNumberToKeep := true, minLogNumberToKeep := 13 } = some [] ∧
      decodeFrom [] = .ok clear := by
  refine ⟨rfl, ?_⟩
  rw [decodeFrom, decodeLoop_nil]

end VersionEdit

/-! ## The packed file number -/

namespace FileDescriptor

/-- `kFileNumberMask + 1`, the place of the path id: `2 ^ 62`. -/
theorem kFileNumberMask_add_one : kFileNumberMask + 1 = 4611686018427387904 := rfl

theorem toNat_getNumber (fd : FileDescriptor) :
    fd.getNumber.toNat = fd.packedNumberAndPathId.toNat % 2 ^ 62 := by
  rw [getNumber, UInt64.toNat_and, show kFileNumberMask.toNat = 2 ^ 62 - 1 from rfl,
    Nat.and_two_pow_sub_one_eq_mod]

theorem toNat_getPathId (fd : FileDescriptor) :
    fd.getPathId.toNat = fd.packedNumberAndPathId.toNat / 2 ^ 62 := by
  have hlt := fd.packedNumberAndPathId.toNat_lt
  rw [getPathId, kFileNumberMask_add_one, UInt64.toNat_toUInt32, UInt64.toNat_div,
    show (4611686018427387904 : UInt64).toNat = 2 ^ 62 from rfl]
  omega

/-- A packed word holds a path id of at most two bits. -/
theorem getPathId_lt (fd : FileDescriptor) : fd.getPathId.toNat < 4 := by
  have hlt := fd.packedNumberAndPathId.toNat_lt
  rw [toNat_getPathId]
  omega

/-- Packing what `GetNumber` and `GetPathId` read gives the word back. -/
theorem pack_getNumber_getPathId (fd : FileDescriptor) :
    packFileNumberAndPathId fd.getNumber fd.getPathId.toUInt64 = fd.packedNumberAndPathId := by
  have hlt := fd.packedNumberAndPathId.toNat_lt
  have hpath := getPathId_lt fd
  have hlow : fd.getNumber.toNat < 2 ^ 62 := by
    rw [toNat_getNumber]
    exact Nat.mod_lt _ (by norm_num)
  apply UInt64.toNat.inj
  -- the number below bit 62 and the path id above it do not overlap
  rw [packFileNumberAndPathId, UInt64.toNat_or, UInt64.toNat_mul, kFileNumberMask_add_one,
    UInt32.toNat_toUInt64, show (4611686018427387904 : UInt64).toNat = 2 ^ 62 from rfl,
    Nat.mod_eq_of_lt (by omega : fd.getPathId.toNat * 2 ^ 62 < 2 ^ 64), Nat.or_comm,
    Nat.mul_comm, ← Nat.two_pow_add_eq_or_of_lt hlow, toNat_getNumber, toNat_getPathId]
  omega

/-- A descriptor made from what `GetNumber`, `GetPathId` and the other fields read is the
descriptor. -/
theorem new_getNumber_getPathId (fd : FileDescriptor) :
    new fd.getNumber fd.getPathId fd.fileSize fd.smallestSeqno fd.largestSeqno = fd := by
  rw [new, pack_getNumber_getPathId]

end FileDescriptor

/-! ## Readers on what the writers wrote -/

section Readers

variable {rest : Bytes}

theorem getInternalKey_put {key : InternalKey} (hvalid : key.valid = true)
    (hlen : key.rep.length < 2 ^ 32) :
    getInternalKey (putLengthPrefixedSlice [] key.rep ++ rest) = some (key, rest) := by
  rw [getInternalKey, getLengthPrefixedSlice_putLengthPrefixedSlice _ _ hlen]
  simp [hvalid]

theorem getLevel_encode (maxLevel level : Int32) :
    getLevel maxLevel (encodeVarint32 level.toUInt32 ++ rest) =
      some ((level, if maxLevel < level then level else maxLevel), rest) := by
  rw [getLevel, getVarint32_encodeVarint32]
  simp

/-- The bytes of a new-file record after its tag, for the fields every format has. -/
def newFileFieldsBytes (r : NewFileFields) (pathId : Option UInt32) : Bytes :=
  encodeVarint32 r.level.toUInt32 ++ encodeVarint64 r.number ++
    (match pathId with | some p => encodeVarint32 p | none => []) ++
    encodeVarint64 r.fileSize ++ putLengthPrefixedSlice [] r.smallest.rep ++
    putLengthPrefixedSlice [] r.largest.rep ++ encodeVarint64 r.smallestSeqno ++
    encodeVarint64 r.largestSeqno

/-- The keys of a new file can be written and read back. -/
structure NewFileFields.Fits (r : NewFileFields) : Prop where
  smallest_valid : r.smallest.valid = true
  largest_valid : r.largest.valid = true
  smallest_length : r.smallest.rep.length < 2 ^ 32
  largest_length : r.largest.rep.length < 2 ^ 32

theorem getNewFile2Fields_encode (maxLevel : Int32) {r : NewFileFields} (hr : r.Fits) :
    getNewFile2Fields maxLevel (newFileFieldsBytes r none ++ rest) =
      some ((if maxLevel < r.level then r.level else maxLevel, r), rest) := by
  simp only [getNewFile2Fields, newFileFieldsBytes, List.append_nil, List.append_assoc,
    bind_apply, getLevel_encode, Option.bind_some, getVarint64_encodeVarint64,
    getInternalKey_put hr.smallest_valid hr.smallest_length,
    getInternalKey_put hr.largest_valid hr.largest_length, pure_apply]

theorem getNewFile3Fields_encode (maxLevel : Int32) {r : NewFileFields} (hr : r.Fits)
    (pathId : UInt32) :
    getNewFile3Fields maxLevel (newFileFieldsBytes r (some pathId) ++ rest) =
      some ((if maxLevel < r.level then r.level else maxLevel, pathId, r), rest) := by
  simp only [getNewFile3Fields, newFileFieldsBytes, List.append_assoc, bind_apply,
    getLevel_encode, Option.bind_some, getVarint64_encodeVarint64, getVarint32_encodeVarint32,
    getInternalKey_put hr.smallest_valid hr.smallest_length,
    getInternalKey_put hr.largest_valid hr.largest_length, pure_apply]

theorem getDeletedFileFields_encode (maxLevel level : Int32) (number : UInt64) :
    getDeletedFileFields maxLevel (encodeVarint32 level.toUInt32 ++ encodeVarint64 number ++ rest) =
      some ((if maxLevel < level then level else maxLevel, level, number), rest) := by
  simp only [getDeletedFileFields, List.append_assoc, bind_apply, getLevel_encode,
    Option.bind_some, getVarint64_encodeVarint64, pure_apply]

end Readers

/-! ## What `EncodeTo` writes, record by record -/

namespace VersionEdit

/-- A record: its tag, then its fields. -/
def record (tag : Tag) (fields : Bytes) : Bytes := encodeVarint32 tag.toUInt32 ++ fields

/-- The records `EncodeTo` writes before the deleted files. -/
def headerRecords (e : VersionEdit) : Bytes :=
  (if e.hasComparator then record .comparator (putLengthPrefixedSlice [] e.comparator) else []) ++
  (if e.hasLogNumber then record .logNumber (encodeVarint64 e.logNumber) else []) ++
  (if e.hasPrevLogNumber then record .prevLogNumber (encodeVarint64 e.prevLogNumber) else []) ++
  (if e.hasNextFileNumber then record .nextFileNumber (encodeVarint64 e.nextFileNumber) else []) ++
  (if e.hasLastSequence then record .lastSequence (encodeVarint64 e.lastSequence) else []) ++
  (if e.hasMaxColumnFamily then record .maxColumnFamily (encodeVarint32 e.maxColumnFamily)
    else [])

/-- The record of a deleted file. -/
def deletedRecord (x : Int32 × UInt64) : Bytes :=
  record .deletedFile (encodeVarint32 x.1.toUInt32 ++ encodeVarint64 x.2)

/-- The records `EncodeTo` writes after the new files. -/
def trailerRecords (e : VersionEdit) : Bytes :=
  (if e.columnFamily ≠ 0 then record .columnFamily (encodeVarint32 e.columnFamily) else []) ++
  (if e.isColumnFamilyAdd then
    record .columnFamilyAdd (putLengthPrefixedSlice [] e.columnFamilyName) else []) ++
  (if e.isColumnFamilyDrop then record .columnFamilyDrop [] else []) ++
  (if e.isInAtomicGroup then record .inAtomicGroup (encodeVarint32 e.remainingEntries) else [])

/-- A record appended when `c` holds is the record or nothing, appended. -/
theorem ite_append (c : Prop) [Decidable c] (dst x : Bytes) :
    (if c then dst ++ x else dst) = dst ++ if c then x else [] := by
  split_ifs <;> simp

theorem ite_append_append (c : Prop) [Decidable c] (dst x y : Bytes) :
    (if c then dst ++ x ++ y else dst) = dst ++ if c then x ++ y else [] := by
  split_ifs <;> simp

theorem putLengthPrefixedSlice_putVarint32 (dst : Bytes) (tag : UInt32) (value : Bytes) :
    putLengthPrefixedSlice (putVarint32 dst tag) value =
      dst ++ (encodeVarint32 tag ++ putLengthPrefixedSlice [] value) := by
  simp [putLengthPrefixedSlice, putVarint32]

/-- The writers append to what they are given. -/
theorem encodeNewFile_append (e : VersionEdit) (dst : Bytes) (w : Bool)
    (entry : Int32 × FileMetaData) :
    e.encodeNewFile (dst, w) entry =
      (e.encodeNewFile ([], w) entry).map fun p => (dst ++ p.1, p.2) := by
  obtain ⟨level, f⟩ := entry
  simp only [encodeNewFile]
  split_ifs <;> simp [putVarint32, putVarint32Varint64, putVarint64, putLengthPrefixedSlice,
    putVarint64Varint64]

theorem foldlM_encodeNewFile_append (e : VersionEdit) :
    ∀ (files : List (Int32 × FileMetaData)) (dst : Bytes) (w : Bool),
      files.foldlM e.encodeNewFile (dst, w) =
        (files.foldlM e.encodeNewFile ([], w)).map fun p => (dst ++ p.1, p.2)
  | [], dst, w => by simp
  | entry :: files, dst, w => by
      rw [List.foldlM_cons, List.foldlM_cons, encodeNewFile_append e dst w entry]
      cases e.encodeNewFile ([], w) entry with
      | none => rfl
      | some p =>
          simp only [Option.map_some, Option.bind_eq_bind, Option.bind_some]
          rw [foldlM_encodeNewFile_append e files (dst ++ p.1) p.2,
            foldlM_encodeNewFile_append e files p.1 p.2, Option.map_map]
          simp [Function.comp_def, List.append_assoc]

theorem foldl_deletedRecord (l : List (Int32 × UInt64)) (dst : Bytes) :
    l.foldl (fun dst deleted => putVarint32Varint32Varint64 dst Tag.deletedFile.toUInt32
      deleted.1.toUInt32 deleted.2) dst = dst ++ (l.map deletedRecord).flatten := by
  induction l generalizing dst with
  | nil => simp
  | cons x l ih =>
      rw [List.foldl_cons, ih]
      simp only [putVarint32Varint32Varint64, List.map_cons, List.flatten_cons, deletedRecord,
        record, List.append_assoc]

/-- **`EncodeTo`, record by record**: the header records, the deleted files, the new files and the
trailer records. -/
theorem encodeTo_eq (e : VersionEdit) :
    e.encodeTo = (e.newFiles.foldlM e.encodeNewFile ([], false)).map fun p =>
      e.headerRecords ++ (e.deletedFiles.toList.map deletedRecord).flatten ++ p.1 ++
        e.trailerRecords := by
  simp only [encodeTo, foldl_deletedRecord]
  rw [foldlM_encodeNewFile_append]
  generalize e.newFiles.foldlM e.encodeNewFile ([], false) = r
  cases r with
  | none => rfl
  | some p =>
      -- each conditional record is appended to what came before it
      simp only [putLengthPrefixedSlice_putVarint32]
      simp only [putVarint32, putVarint32Varint64, putVarint32Varint32, ite_append,
        ite_append_append]
      simp only [Option.map_some, Option.bind_eq_bind, Option.bind_some, Option.pure_def,
        headerRecords, trailerRecords, record, List.append_assoc, List.nil_append,
        List.append_nil]

end VersionEdit

end RocksCloud.Db
