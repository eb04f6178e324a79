import Mathlib
import RocksCloud.Db.WriteBatchRun

/-!
# Save points of a write batch

`SetSavePoint` pushes the size of `rep_`, the count and the content flags on a stack;
`RollbackToSavePoint` pops the top one and cuts the batch back to it (`rep_.resize`, then
`SetCount` and the flags), with two special cases: nothing to do when the size has not
changed, and `Clear()` when the saved size is `0`; `PopSavePoint` drops the top one. With no
save point both return `NotFound`. Every mutation takes the same kind of save point for itself
(`LocalSavePoint`) and goes back to it when it took the batch over its size limit.

What save points are for is stated by `SavePointOp.snapshotStep`: `SetSavePoint` remembers the
whole batch and `RollbackToSavePoint` brings the last batch remembered back. The stack of sizes,
counts and flags does the same (`runSavePointOps_eq_runSnapshots`): between a save point and
the present the batch only grew, by mutations that append to `rep_` and raise the count
(`WriteBatch.Descends`), so cutting it back to the saved size and writing back the saved count
restores it byte for byte. The same argument makes a mutation over the limit leave the batch as
it was, as long as its count could go up by one: a count of `INT_MAX` overflows first.
-/

set_option autoImplicit false

namespace RocksCloud.Db

open RocksCloud.Util RocksCloud.Lib

/-! ## The stack of save points -/

/-- A zeroed header is a header. -/
theorem kHeader_le_length_replicate : kHeader ≤ (List.replicate kHeader (0 : UInt8)).length :=
  List.length_replicate.ge

/-- `rep_.resize(savepoint.size)` keeps a header when the saved size holds one. -/
theorem WriteBatch.kHeader_le_resize (b : WriteBatch) (savepoint : SavePoint)
    (h : kHeader ≤ savepoint.size) :
    kHeader ≤ (b.rep.take savepoint.size ++ List.replicate (savepoint.size - b.rep.length) 0).length := by
  simp only [List.length_append, List.length_take, List.length_replicate]
  omega

/-- `WriteBatch::Clear()`: a zeroed header, no flags, and no termination point; the save
points are dropped too. -/
def WriteBatch.clear (b : WriteBatch) : WriteBatch :=
  { b with
    rep := List.replicate kHeader 0
    contentFlags := 0
    walTermPoint := ⟨0, 0, 0⟩
    header_le := kHeader_le_length_replicate }

/-- `WriteBatch::SetSavePoint()`: the size of `rep_`, the count and the flags are pushed. -/
def WriteBatch.setSavePoint (b : WriteBatch) (savePoints : List SavePoint) : List SavePoint :=
  b.localSavePoint :: savePoints

/-- `WriteBatch::RollbackToSavePoint()`: the batch and the stack after it. `rep_.resize` cuts
or pads with zeros; a saved size shorter than the header would make `SetCount` write past the
end of `rep_`. -/
def WriteBatch.rollbackToSavePoint (b : WriteBatch) :
    List SavePoint → Except String (Status × WriteBatch × List SavePoint)
  | [] => pure (.notFound, b, [])
  | savepoint :: savePoints => do
      if b.rep.length < savepoint.size then throw "assertion failed"
      if WriteBatchInternal.count b < savepoint.count then throw "assertion failed"
      if savepoint.size = b.rep.length then
        -- no changes to roll back
        return (.ok, b, savePoints)
      else if savepoint.size = 0 then
        -- roll back everything
        return (.ok, b.clear, [])
      else if h : kHeader ≤ savepoint.size then
        let resized : WriteBatch :=
          { b with
            rep := b.rep.take savepoint.size ++ List.replicate (savepoint.size - b.rep.length) 0
            header_le := b.kHeader_le_resize savepoint h }
        return (.ok,
          { WriteBatchInternal.setCount resized savepoint.count with
            contentFlags := savepoint.contentFlags }, savePoints)
      else throw "array index out of bounds"

/-- `WriteBatch::PopSavePoint()`. -/
def WriteBatch.popSavePoint : List SavePoint → Status × List SavePoint
  | [] => (.notFound, [])
  | _ :: savePoints => (.ok, savePoints)

/-- A call on a batch with save points. -/
inductive SavePointOp where
  | mutate (m : Mutation)
  | setSavePoint
  | rollbackToSavePoint
  | popSavePoint
  deriving Repr, DecidableEq

namespace SavePointOp

/-- One call on the batch and its stack; `SetSavePoint`, which returns nothing, is given the
status `OK`. -/
def step (b : WriteBatch) (savePoints : List SavePoint) :
    SavePointOp → Except String (Status × WriteBatch × List SavePoint)
  | mutate m => do
      let (s, b) ← m.apply b
      pure (s, b, savePoints)
  | setSavePoint => pure (.ok, b, b.setSavePoint savePoints)
  | rollbackToSavePoint => b.rollbackToSavePoint savePoints
  | popSavePoint =>
      let (s, savePoints) := WriteBatch.popSavePoint savePoints
      pure (s, b, savePoints)

/-- What a call means, with save points that remember the whole batch. -/
def snapshotStep (b : WriteBatch) (snapshots : List WriteBatch) :
    SavePointOp → Except String (Status × WriteBatch × List WriteBatch)
  | mutate m => do
      let (s, b) ← m.apply b
      pure (s, b, snapshots)
  | setSavePoint => pure (.ok, b, b :: snapshots)
  | rollbackToSavePoint =>
      match snapshots with
      | [] => pure (.notFound, b, [])
      | saved :: snapshots => pure (.ok, saved, snapshots)
  | popSavePoint =>
      match snapshots with
      | [] => pure (.notFound, b, [])
      | _ :: snapshots => pure (.ok, b, snapshots)

end SavePointOp

/-- The calls one after another: their statuses, the batch and the stack at the end. -/
def runSavePointOps : List SavePointOp → WriteBatch → List SavePoint →
    Except String (List Status × WriteBatch × List SavePoint)
  | [], b, savePoints => pure ([], b, savePoints)
  | op :: ops, b, savePoints => do
      let (s, b, savePoints) ← op.step b savePoints
      let (statuses, b, savePoints) ← runSavePointOps ops b savePoints
      pure (s :: statuses, b, savePoints)

/-- The calls one after another, with save points that remember the whole batch. -/
def runSnapshots : List SavePointOp → WriteBatch → List WriteBatch →
    Except String (List Status × WriteBatch × List WriteBatch)
  | [], b, snapshots => pure ([], b, snapshots)
  | op :: ops, b, snapshots => do
      let (s, b, snapshots) ← op.snapshotStep b snapshots
      let (statuses, b, snapshots) ← runSnapshots ops b snapshots
      pure (s :: statuses, b, snapshots)

/-! ## The header read back -/

/-- A `uint32_t` read as an `int` and converted back is itself. -/
theorem ofInt32_toInt32 (v : UInt32) : ofInt32 (toInt32 v) = v := by
  have hlt := v.toNat_lt
  apply UInt32.toNat_inj.mp
  unfold ofInt32 toInt32
  split <;> simp <;> omega

/-- An `int` converted to `uint32_t` and read back is itself. -/
theorem toInt32_ofInt32_of_mem (n : Int) (hlo : -2 ^ 31 ≤ n) (hhi : n < 2 ^ 31) :
    toInt32 (ofInt32 n) = n := by
  have hnat : ((ofInt32 n).toNat : Int) = n % 2 ^ 32 := by
    simp [ofInt32]
    omega
  unfold toInt32
  split <;> omega

/-- The count a header holds is an `int`. -/
theorem neg_le_count (b : WriteBatch) : -2 ^ 31 ≤ WriteBatchInternal.count b := by
  unfold WriteBatchInternal.count toInt32
  split <;> omega

/-- `EncodeFixed32` writes back the four bytes `DecodeFixed32` read. -/
theorem encodeFixed32_decodeFixed32 (l : Bytes) (h : 4 ≤ l.length) :
    encodeFixed32 (decodeFixed32 l) = l.take 4 := by
  have hlen : (l.take 4).length = 4 := by simp; omega
  have hlt : leValue (l.take 4) < 2 ^ 32 := by
    have := leValue_lt (l.take 4)
    rw [hlen] at this
    simpa using this
  have hback := leBytes_leValue (l.take 4)
  rw [hlen] at hback
  rw [encodeFixed32, decodeFixed32, Nat.toUInt32, UInt32.toNat_ofNat', Nat.mod_eq_of_lt hlt, hback]

/-- The header is the sequence number, the four bytes of the count, and the rest. -/
theorem header_split (l : Bytes) : l.take 8 ++ (l.drop 8).take 4 ++ l.drop kHeader = l := by
  calc l.take 8 ++ (l.drop 8).take 4 ++ l.drop kHeader
      = l.take 8 ++ ((l.drop 8).take 4 ++ (l.drop 8).drop 4) := by
        rw [List.drop_drop, List.append_assoc]
        rfl
    _ = l := by rw [List.take_append_drop, List.take_append_drop]

/-- Every `rep_` holds the twelve bytes of the header. -/
theorem WriteBatch.twelve_le_length (b : WriteBatch) : 12 ≤ b.rep.length := b.header_le

/-- A `rep_` made of the first eight bytes of `l`, four count bytes, the records of `l` and
more: its sequence number is that of `l`, and its records those of `l` and the bytes after. -/
theorem header_parts {l countBytes : Bytes} (more : Bytes) (hl : kHeader ≤ l.length)
    (hlen : countBytes.length = 4) :
    (l.take 8 ++ countBytes ++ l.drop kHeader ++ more).take 8 = l.take 8 ∧
      (l.take 8 ++ countBytes ++ l.drop kHeader ++ more).drop kHeader = l.drop kHeader ++ more := by
  simp only [kHeader] at hl
  constructor
  · rw [List.append_assoc, List.append_assoc]
    exact List.take_left' (by simp; omega)
  · rw [List.append_assoc _ _ more]
    exact List.drop_left' (by simp [hlen, kHeader]; omega)

/-- `SetCount` with the count a batch already holds gives the batch back. -/
theorem setCount_count_rep (b : WriteBatch) :
    b.rep.take 8 ++ encodeFixed32 (ofInt32 (WriteBatchInternal.count b)) ++ b.rep.drop kHeader =
      b.rep := by
  have h := b.twelve_le_length
  rw [WriteBatchInternal.count, ofInt32_toInt32, encodeFixed32_decodeFixed32 _ (by simp; omega)]
  exact header_split b.rep

/-! ## How a batch grows -/

/-- Two batches with the same fields are the same batch. -/
theorem WriteBatch.eq_of_fields {b c : WriteBatch} (hrep : b.rep = c.rep)
    (hflags : b.contentFlags = c.contentFlags) (hmax : b.maxBytes = c.maxBytes)
    (hterm : b.walTermPoint = c.walTermPoint) : b = c := by
  cases b
  cases c
  simp only at hrep hflags hmax hterm
  subst hrep hflags hmax hterm
  rfl

/-- `b` grew from `s` the way a mutation grows a batch: the sequence number of the header is
kept, its count may change but does not go down, and new bytes follow the records of `s`. The
size limit and the termination point are left alone. -/
structure WriteBatch.Grew (b s : WriteBatch) : Prop where
  maxBytes_eq : b.maxBytes = s.maxBytes
  walTermPoint_eq : b.walTermPoint = s.walTermPoint
  count_le : WriteBatchInternal.count s ≤ WriteBatchInternal.count b
  rep_eq : ∃ countBytes more : Bytes, countBytes.length = 4 ∧ more ≠ [] ∧
    b.rep = s.rep.take 8 ++ countBytes ++ s.rep.drop kHeader ++ more

/-- `b` is `s`, or grew from it. -/
def WriteBatch.Descends (b s : WriteBatch) : Prop := b = s ∨ b.Grew s

namespace WriteBatch.Grew

variable {b c s : WriteBatch}

/-- The part of `rep_` a grown batch shares with the batch it grew from. -/
theorem take_rep (h : b.Grew s) :
    ∃ countBytes more : Bytes, countBytes.length = 4 ∧ more ≠ [] ∧
      b.rep = s.rep.take 8 ++ countBytes ++ s.rep.drop kHeader ++ more ∧
      b.rep.take s.rep.length = s.rep.take 8 ++ countBytes ++ s.rep.drop kHeader := by
  obtain ⟨countBytes, more, hlen, hmore, hrep⟩ := h.rep_eq
  have hs := s.twelve_le_length
  refine ⟨countBytes, more, hlen, hmore, hrep, ?_⟩
  rw [hrep]
  apply List.take_left'
  simp only [List.length_append, List.length_take, List.length_drop, hlen, kHeader]
  omega

/-- A grown batch is longer. -/
theorem length_lt (h : b.Grew s) : s.rep.length < b.rep.length := by
  obtain ⟨countBytes, more, hlen, hmore, hrep, -⟩ := h.take_rep
  have hs := s.twelve_le_length
  have hpos := List.length_pos_of_ne_nil hmore
  rw [hrep]
  simp only [List.length_append, List.length_take, List.length_drop, hlen, kHeader]
  omega

/-- Growing twice is growing. -/
theorem trans (hbc : b.Grew c) (hcs : c.Grew s) : b.Grew s := by
  obtain ⟨countBytes, more, hlen, hmore, hrep⟩ := hbc.rep_eq
  obtain ⟨countBytes', more', hlen', -, hrep'⟩ := hcs.rep_eq
  -- the header of `c` starts with that of `s`, and its records are those of `s` and more
  obtain ⟨htake, hdrop⟩ := header_parts more' s.header_le hlen'
  rw [← hrep'] at htake hdrop
  refine ⟨hbc.maxBytes_eq.trans hcs.maxBytes_eq, hbc.walTermPoint_eq.trans hcs.walTermPoint_eq,
    hcs.count_le.trans hbc.count_le, countBytes, more' ++ more, hlen, by simp [hmore], ?_⟩
  rw [hrep, htake, hdrop]
  simp only [List.append_assoc]

end WriteBatch.Grew

/-- Cut back to the size `s` had, and given back its count and flags, a batch that grew from
`s` is `s` again: the cut keeps the sequence number and the records of `s`, and `SetCount`
writes its count. -/
theorem restore_of_grew {b s r : WriteBatch} (hg : b.Grew s)
    (hrep : r.rep = b.rep.take s.rep.length ++ List.replicate (s.rep.length - b.rep.length) 0)
    (hmax : r.maxBytes = b.maxBytes) (hterm : r.walTermPoint = b.walTermPoint) :
    { WriteBatchInternal.setCount r (WriteBatchInternal.count s) with
      contentFlags := s.contentFlags } = s := by
  obtain ⟨countBytes, -, hlen, -, -, htake⟩ := hg.take_rep
  have hcut : r.rep = s.rep.take 8 ++ countBytes ++ s.rep.drop kHeader ++ [] := by
    rw [hrep, Nat.sub_eq_zero_of_le hg.length_lt.le, List.replicate_zero, List.append_nil,
      List.append_nil, htake]
  obtain ⟨h8, h12⟩ := header_parts [] s.header_le hlen
  rw [← hcut, List.append_nil] at h12
  rw [← hcut] at h8
  refine WriteBatch.eq_of_fields ?_ rfl (hmax.trans hg.maxBytes_eq)
    (hterm.trans hg.walTermPoint_eq)
  show r.rep.take 8 ++ encodeFixed32 (ofInt32 (WriteBatchInternal.count s)) ++ r.rep.drop 12 =
    s.rep
  rw [h8, show (12 : Nat) = kHeader from rfl, h12, setCount_count_rep]

/-- `Count` after `SetCount(n)` is `n`, for every `int` `n`. -/
theorem count_setCount_of_mem (b : WriteBatch) (n : Int) (hlo : -2 ^ 31 ≤ n) (hhi : n < 2 ^ 31) :
    WriteBatchInternal.count (WriteBatchInternal.setCount b n) = n := by
  have h8 : (b.rep.take 8).length = 8 := by
    have := b.twelve_le_length
    simp only [List.length_take]
    omega
  simp only [WriteBatchInternal.count, WriteBatchInternal.setCount, List.append_assoc]
  rw [List.drop_left' h8, decodeFixed32_encodeFixed32, toInt32_ofInt32_of_mem n hlo hhi]

/-- Bytes appended after the records: the batch grows, its count unchanged. -/
theorem WriteBatch.Grew.of_appendRep (b : WriteBatch) {bytes : Bytes} (h : bytes ≠ []) :
    (b.appendRep bytes).Grew b := by
  have hb := b.twelve_le_length
  refine ⟨rfl, rfl, (count_appendRep b bytes).ge, (b.rep.drop 8).take 4, bytes,
    by simp; omega, h, ?_⟩
  show b.rep ++ bytes = _
  rw [header_split]

/-- A new count no lower than the old one, bytes appended and any flags: the batch grows. -/
theorem WriteBatch.Grew.of_setCount_appendRep (b : WriteBatch) {n : Int} (hlo : -2 ^ 31 ≤ n)
    (hhi : n < 2 ^ 31) (hle : WriteBatchInternal.count b ≤ n) {bytes : Bytes} (h : bytes ≠ [])
    (flags : UInt32) :
    { (WriteBatchInternal.setCount b n).appendRep bytes with contentFlags := flags }.Grew b := by
  have hcount : WriteBatchInternal.count
      { (WriteBatchInternal.setCount b n).appendRep bytes with contentFlags := flags } = n := by
    show WriteBatchInternal.count ((WriteBatchInternal.setCount b n).appendRep bytes) = n
    rw [count_appendRep, count_setCount_of_mem b n hlo hhi]
  refine ⟨rfl, rfl, by rw [hcount]; exact hle, encodeFixed32 (ofInt32 n), bytes, encodeFixed32_length _, h, rfl⟩

/-- `LocalSavePoint::commit` of a batch that grew from `s` since the save point: over the limit
the batch is `s` again. -/
theorem commit_of_grew {b s : WriteBatch} (hg : b.Grew s) :
    b.commit s.localSavePoint s.header_le =
      if b.maxBytes ≠ 0 ∧ b.rep.length > b.maxBytes then (.memoryLimit, s) else (.ok, b) := by
  unfold WriteBatch.commit
  split
  · dsimp only
    congr 1
    exact restore_of_grew hg rfl rfl rfl
  · rfl

/-- Whatever `LocalSavePoint::commit` decides, the batch is `s` or grew from it. -/
theorem commit_descends {b s : WriteBatch} (hg : b.Grew s) :
    (b.commit s.localSavePoint s.header_le).2.Descends s := by
  rw [commit_of_grew hg]
  split
  · exact Or.inl rfl
  · exact Or.inr hg

/-- The tag bytes of a record are never empty. -/
theorem tagBytes_ne_nil (columnFamilyId : UInt32) (tag cfTag : ValueType) (fields : Bytes) :
    (if columnFamilyId = 0 then [tag.toByte] else putVarint32 [cfTag.toByte] columnFamilyId) ++
      fields ≠ [] := by
  split <;> simp [putVarint32]

/-- A record is never empty: it has its tag. -/
theorem BatchEntry.encode_ne_nil (e : BatchEntry) : e.encode ≠ [] :=
  tagBytes_ne_nil e.columnFamily e.tag e.cfTag _

/-- A counted mutation whose count stays an `int`: the batch grows by the record, and the save
point decides. -/
theorem addCounted_eq_commit {b : WriteBatch} {n : Int}
    (hn : addInt (WriteBatchInternal.count b) 1 = .ok n) (columnFamilyId : UInt32)
    (tag cfTag : ValueType) (fields : Bytes) (flag : UInt32) :
    ∃ c : WriteBatch, c.Grew b ∧
      c.rep.length = b.rep.length + ((if columnFamilyId = 0 then [tag.toByte]
        else putVarint32 [cfTag.toByte] columnFamilyId) ++ fields).length ∧
      b.addCounted columnFamilyId tag cfTag fields flag =
        .ok (c.commit b.localSavePoint b.header_le) := by
  have hrange : -2 ^ 31 ≤ WriteBatchInternal.count b + 1 ∧
      WriteBatchInternal.count b + 1 < 2 ^ 31 ∧ n = WriteBatchInternal.count b + 1 := by
    unfold addInt at hn
    split at hn
    · cases hn
      omega
    · cases hn
  obtain ⟨hlo, hhi, rfl⟩ := hrange
  let grown := (WriteBatchInternal.setCount b (WriteBatchInternal.count b + 1)).appendRep
    ((if columnFamilyId = 0 then [tag.toByte] else putVarint32 [cfTag.toByte] columnFamilyId) ++
      fields)
  refine ⟨{ grown with contentFlags := grown.contentFlags ||| flag },
    WriteBatch.Grew.of_setCount_appendRep b hlo hhi (by omega)
      (tagBytes_ne_nil columnFamilyId tag cfTag fields) _, ?_, ?_⟩
  · simp only [grown, WriteBatch.appendRep, WriteBatchInternal.setCount, List.length_append,
      List.length_take, encodeFixed32_length, List.length_drop]
    have := b.twelve_le_length
    omega
  · unfold WriteBatch.addCounted
    rw [hn]
    rfl

/-- After a counted mutation that did not overflow the count, the batch is the one before or
grew from it. -/
theorem addCounted_descends {b b' : WriteBatch} {st : Status} {columnFamilyId : UInt32}
    {tag cfTag : ValueType} {fields : Bytes} {flag : UInt32}
    (h : b.addCounted columnFamilyId tag cfTag fields flag = .ok (st, b')) : b'.Descends b := by
  cases hn : addInt (WriteBatchInternal.count b) 1 with
  | error e =>
      unfold WriteBatch.addCounted at h
      rw [hn] at h
      cases h
  | ok n =>
      obtain ⟨c, hg, -, hadd⟩ := addCounted_eq_commit hn columnFamilyId tag cfTag fields flag
      rw [hadd] at h
      have hd := commit_descends hg
      rwa [Except.ok.inj h] at hd

/-- A counted mutation over the size limit returns `MemoryLimit` and the batch as it was, as long
as its count is below `INT_MAX`. -/
theorem addCounted_over_limit {b : WriteBatch} (hcount : WriteBatchInternal.count b < 2 ^ 31 - 1)
    (hmax : b.maxBytes ≠ 0) (columnFamilyId : UInt32) (tag cfTag : ValueType) (fields : Bytes)
    (flag : UInt32) (hover : b.maxBytes < b.rep.length + ((if columnFamilyId = 0 then [tag.toByte]
      else putVarint32 [cfTag.toByte] columnFamilyId) ++ fields).length) :
    b.addCounted columnFamilyId tag cfTag fields flag = .ok (.memoryLimit, b) := by
  have hn : addInt (WriteBatchInternal.count b) 1 = .ok (WriteBatchInternal.count b + 1) := by
    have := neg_le_count b
    rw [addInt, if_pos (by omega)]
  obtain ⟨c, hg, hlen, hadd⟩ := addCounted_eq_commit hn columnFamilyId tag cfTag fields flag
  rw [hadd, commit_of_grew hg, if_pos ⟨hg.maxBytes_eq ▸ hmax, by rw [hg.maxBytes_eq]; omega⟩]

/-! ## Mutations -/

namespace Mutation

/-- The mutation passes its own checks: `Put` and `Merge` refuse a slice longer than
`kMaxUint32`, their `SliceParts` forms go through `CheckSlicePartsLength`, and the others check
nothing. -/
def Accepted : Mutation → Prop
  | put _ key value | merge _ key value => key.length ≤ kMaxUint32 ∧ value.length ≤ kMaxUint32
  | putParts _ key value | mergeParts _ key value => checkSlicePartsLength key value = .ok
  | _ => True

/-- An accepted mutation writes its record: a counted one through the common body, a blob by
appending it under the save point. -/
theorem apply_of_accepted (m : Mutation) (hacc : m.Accepted) (b : WriteBatch) :
    m.apply b =
      if m.entry.counted then
        b.addCounted m.entry.columnFamily m.entry.tag m.entry.cfTag
          (m.entry.fields.foldl putLengthPrefixedSlice []) m.entry.flag
      else .ok ((b.appendRep m.entry.encode).commit b.localSavePoint b.header_le) := by
  cases m with
  | put cf key value | merge cf key value =>
      obtain ⟨hkey, hvalue⟩ := hacc
      simp only [apply, WriteBatchInternal.put, WriteBatchInternal.merge, gt_iff_lt,
        Nat.not_lt.mpr hkey, Nat.not_lt.mpr hvalue, if_false]
      rfl
  | putParts cf key value | mergeParts cf key value =>
      have hok : checkSlicePartsLength key value = .ok := hacc
      simp only [apply, WriteBatchInternal.putParts, WriteBatchInternal.mergeParts, hok,
        putLengthPrefixedSliceParts_eq]
      rfl
  | deleteParts cf key | singleDeleteParts cf key | deleteRangeParts cf beginKey endKey =>
      simp only [apply, WriteBatchInternal.deleteParts, WriteBatchInternal.singleDeleteParts,
        WriteBatchInternal.deleteRangeParts, putLengthPrefixedSliceParts_eq]
      rfl
  | delete | singleDelete | deleteRange | putBlobIndex | putLogData => rfl

/-- A mutation that fails its checks returns the batch unchanged. -/
theorem apply_of_not_accepted (m : Mutation) (hrej : ¬m.Accepted) (b : WriteBatch) :
    ∃ st, m.apply b = .ok (st, b) := by
  cases m with
  | put cf key value | merge cf key value =>
      simp only [Accepted, not_and_or, Nat.not_le] at hrej
      simp only [apply, WriteBatchInternal.put, WriteBatchInternal.merge]
      rcases hrej with hkey | hvalue
      · exact ⟨_, by rw [if_pos hkey]⟩
      · by_cases hkey : key.length > kMaxUint32
        · exact ⟨_, by rw [if_pos hkey]⟩
        · exact ⟨_, by rw [if_neg hkey, if_pos hvalue]⟩
  | putParts cf key value | mergeParts cf key value =>
      simp only [apply, WriteBatchInternal.putParts, WriteBatchInternal.mergeParts]
      split
      · exact absurd ‹_› hrej
      · exact ⟨_, rfl⟩
  | _ => exact absurd trivial hrej

end Mutation

/-- A mutation leaves the batch as it was or makes it grow, whatever it returns. -/
theorem apply_descends {b b' : WriteBatch} {st : Status} (m : Mutation)
    (h : m.apply b = .ok (st, b')) : b'.Descends b := by
  by_cases hacc : m.Accepted
  · rw [m.apply_of_accepted hacc] at h
    split at h
    · exact addCounted_descends h
    · have hd := commit_descends (WriteBatch.Grew.of_appendRep b m.entry.encode_ne_nil)
      rwa [Except.ok.inj h] at hd
  · obtain ⟨st', hst'⟩ := m.apply_of_not_accepted hacc b
    rw [hst'] at h
    cases h
    exact Or.inl rfl

/-! ## Rolling back -/

/-- Descending from a batch is transitive. -/
theorem WriteBatch.Descends.trans {b c s : WriteBatch} (hbc : b.Descends c) (hcs : c.Descends s) :
    b.Descends s := by
  rcases hbc with rfl | hbc
  · exact hcs
  · rcases hcs with rfl | hcs
    · exact Or.inr hbc
    · exact Or.inr (hbc.trans hcs)

/-- `RollbackToSavePoint` to the save point of a batch that `b` descends from gives that batch
back. -/
theorem rollbackToSavePoint_of_descends {b s : WriteBatch} (h : b.Descends s)
    (savePoints : List SavePoint) :
    b.rollbackToSavePoint (s.localSavePoint :: savePoints) = .ok (.ok, s, savePoints) := by
  rcases h with rfl | hg
  · -- nothing was written since the save point
    simp [WriteBatch.rollbackToSavePoint, WriteBatch.localSavePoint]
    rfl
  · have hlt := hg.length_lt
    -- the asserts pass and neither special case applies: `rep_` is cut back to the size of `s`
    have hsize : ¬b.rep.length < s.localSavePoint.size := Nat.not_lt.mpr hlt.le
    have hcount : ¬WriteBatchInternal.count b < s.localSavePoint.count :=
      Int.not_lt.mpr hg.count_le
    have hchanged : s.localSavePoint.size ≠ b.rep.length := Nat.ne_of_lt hlt
    have hs : kHeader ≤ s.localSavePoint.size := s.header_le
    have hnonzero : s.localSavePoint.size ≠ 0 := by simp only [kHeader] at hs; omega
    simp only [WriteBatch.rollbackToSavePoint]
    rw [if_neg hsize, if_neg hcount, if_neg hchanged, if_neg hnonzero, dif_pos hs]
    exact congrArg (fun r => Except.ok (Status.ok, r, savePoints)) (restore_of_grew hg rfl rfl rfl)

/-! ## Save points against the batches they stand for

The stack of save points stands for a stack of batches: each save point is the
`LocalSavePoint` of the batch remembered. It is enough that the batch descends from the top
batch remembered, and each batch remembered from the one below it. -/

/-- A batch that descends from the top of a chain can replace it. -/
theorem isChain_of_descends {b b' : WriteBatch} {snapshots : List WriteBatch}
    (h : b'.Descends b) (hchain : List.IsChain WriteBatch.Descends (b :: snapshots)) :
    List.IsChain WriteBatch.Descends (b' :: snapshots) := by
  cases snapshots with
  | nil => exact List.isChain_singleton b'
  | cons s snapshots =>
      rw [List.isChain_cons_cons] at hchain ⊢
      exact ⟨h.trans hchain.1, hchain.2⟩

/-- One call on the batch and its save points does what it does on the batch and the batches
remembered, and keeps the chain. -/
theorem step_refines {b : WriteBatch} {snapshots : List WriteBatch}
    (hchain : List.IsChain WriteBatch.Descends (b :: snapshots)) (op : SavePointOp) :
    op.step b (snapshots.map WriteBatch.localSavePoint) =
        (op.snapshotStep b snapshots).map
          (fun r => (r.1, r.2.1, r.2.2.map WriteBatch.localSavePoint)) ∧
      ∀ r, op.snapshotStep b snapshots = .ok r →
        List.IsChain WriteBatch.Descends (r.2.1 :: r.2.2) := by
  cases op with
  | mutate m =>
      cases happ : m.apply b with
      | error e =>
          refine ⟨?_, fun r hr => ?_⟩
          · simp only [SavePointOp.step, SavePointOp.snapshotStep, happ]
            rfl
          · simp only [SavePointOp.snapshotStep, happ] at hr
            cases hr
      | ok r =>
          obtain ⟨st, b'⟩ := r
          refine ⟨?_, fun r hr => ?_⟩
          · simp only [SavePointOp.step, SavePointOp.snapshotStep, happ]
            rfl
          · simp only [SavePointOp.snapshotStep, happ] at hr
            cases hr
            exact isChain_of_descends (apply_descends m happ) hchain
  | setSavePoint =>
      refine ⟨rfl, fun r hr => ?_⟩
      cases hr
      exact List.IsChain.cons_cons (Or.inl rfl) hchain
  | rollbackToSavePoint =>
      cases snapshots with
      | nil =>
          refine ⟨rfl, fun r hr => ?_⟩
          cases hr
          exact List.isChain_singleton b
      | cons s snapshots =>
          -- the top save point is that of `s`, which the batch descends from
          rw [List.isChain_cons_cons] at hchain
          refine ⟨rollbackToSavePoint_of_descends hchain.1 _, fun r hr => ?_⟩
          cases hr
          exact hchain.2
  | popSavePoint =>
      cases snapshots with
      | nil =>
          refine ⟨rfl, fun r hr => ?_⟩
          cases hr
          exact List.isChain_singleton b
      | cons s snapshots =>
          rw [List.isChain_cons_cons] at hchain
          refine ⟨rfl, fun r hr => ?_⟩
          cases hr
          exact isChain_of_descends hchain.1 hchain.2

/-- A whole run on the batch and its save points is the run on the batch and the batches
remembered, from any chain. -/
theorem runSavePointOps_refines (ops : List SavePointOp) :
    ∀ (b : WriteBatch) (snapshots : List WriteBatch),
      List.IsChain WriteBatch.Descends (b :: snapshots) →
      runSavePointOps ops b (snapshots.map WriteBatch.localSavePoint) =
        (runSnapshots ops b snapshots).map
          (fun r => (r.1, r.2.1, r.2.2.map WriteBatch.localSavePoint)) := by
  induction ops with
  | nil =>
      intro b snapshots _
      rfl
  | cons op ops ih =>
      intro b snapshots hchain
      obtain ⟨hstep, hkeep⟩ := step_refines hchain op
      simp only [runSavePointOps, runSnapshots, hstep]
      cases hs : op.snapshotStep b snapshots with
      | error e => rfl
      | ok r =>
          obtain ⟨st, b', snapshots'⟩ := r
          have hrun := ih b' snapshots' (hkeep _ hs)
          simp only [Except.map, bind, Except.bind, hrun]
          cases runSnapshots ops b' snapshots' <;> rfl

/-! ## Atomic mutations and save points -/

/-- A mutation over a nonzero size limit returns `MemoryLimit` and the batch as it was, as long
as it passes its own checks and, when it is counted, the count is below `INT_MAX`; and any run of
mutations, `SetSavePoint`, `RollbackToSavePoint` and `PopSavePoint` from no save point returns
what it returns when every save point remembers the whole batch. -/
theorem mutation_atomic_and_rollback_restores :
    (∀ (b : WriteBatch) (m : Mutation), m.Accepted →
      (m.entry.counted → WriteBatchInternal.count b < 2 ^ 31 - 1) →
      b.maxBytes ≠ 0 → b.maxBytes < b.rep.length + m.entry.encode.length →
      m.apply b = .ok (.memoryLimit, b)) ∧
    (∀ (ops : List SavePointOp) (b : WriteBatch),
      runSavePointOps ops b [] =
        (runSnapshots ops b []).map fun r => (r.1, r.2.1, r.2.2.map WriteBatch.localSavePoint)) := by
  refine ⟨?_, fun ops b => runSavePointOps_refines ops b [] (List.isChain_singleton b)⟩
  intro b m hacc hcount hmax hover
  rw [m.apply_of_accepted hacc]
  split
  case isTrue hc => exact addCounted_over_limit (hcount hc) hmax _ _ _ _ _ hover
  case isFalse =>
    -- a blob is not counted: only the size decides
    have hlen : (b.appendRep m.entry.encode).rep.length = b.rep.length + m.entry.encode.length :=
      List.length_append
    rw [commit_of_grew (WriteBatch.Grew.of_appendRep b m.entry.encode_ne_nil),
      if_pos ⟨hmax, by rw [hlen]; exact hover⟩]

/-- A batch whose header counts `INT_MAX` operations, at a size limit of `12` bytes: deleting the
empty key would take it over the limit, but the count overflows first. -/
theorem delete_over_limit_overflows :
    ∃ b : WriteBatch, b.maxBytes ≠ 0 ∧
      b.maxBytes < b.rep.length + (Mutation.delete 0 []).entry.encode.length ∧
      (Mutation.delete 0 []).apply b = .error "signed integer overflow" := by
  refine ⟨⟨[0, 0, 0, 0, 0, 0, 0, 0, 0xff, 0xff, 0xff, 0x7f], 0, 12, ⟨0, 0, 0⟩, by decide⟩,
    by decide, by decide, ?_⟩
  exact addCounted_overflow _ (by decide) _ _ _ _ _

end RocksCloud.Db
