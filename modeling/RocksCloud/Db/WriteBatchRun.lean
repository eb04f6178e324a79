import Mathlib
import RocksCloud.Db.WriteBatchRoundTrip

/-!
# Batches a client builds, and what `Iterate` hands back

A client starts from a new batch and calls mutations on it (`Put`, `Delete`, `SingleDelete`,
`DeleteRange` and `Merge`, each with `Slice`s or with `SliceParts`, `PutBlobIndex`,
`PutLogData`), `MarkWalTerminationPoint`, and `WriteBatchInternal::Append` of another batch
built the same way. `BatchProgram` is such a construction, `BatchProgram.run` runs it against the
model (a mutation that does not return `OK` stops the run), and `BatchProgram.entries` says which
operations the resulting batch records: each mutation its own, an `Append` those of the source,
or those before its termination point when `wal_only` is set and a point was marked.

When every slice fits its `uint32_t` length prefix, every `SliceParts` passes
`CheckSlicePartsLength`, and no batch along the way counts `2^31` operations or more, the run
succeeds and `Iterate` on the batch hands the handler exactly the calls of `entries`, with the
header counting those that are not `LogData` (`iterate_run_entries`). The bound on the count is
needed: the count is an `int`, and the `2^31`-th counted mutation of a batch overflows it
(`deletes_count_overflow`).
-/

set_option autoImplicit false

namespace RocksCloud.Db

open RocksCloud.Util

/-! ## Mutations -/

/-- A mutation a client calls on a batch. -/
inductive Mutation where
  | put (columnFamilyId : UInt32) (key value : Bytes)
  | putParts (columnFamilyId : UInt32) (key value : List Bytes)
  | delete (columnFamilyId : UInt32) (key : Bytes)
  | deleteParts (columnFamilyId : UInt32) (key : List Bytes)
  | singleDelete (columnFamilyId : UInt32) (key : Bytes)
  | singleDeleteParts (columnFamilyId : UInt32) (key : List Bytes)
  | deleteRange (columnFamilyId : UInt32) (beginKey endKey : Bytes)
  | deleteRangeParts (columnFamilyId : UInt32) (beginKey endKey : List Bytes)
  | merge (columnFamilyId : UInt32) (key value : Bytes)
  | mergeParts (columnFamilyId : UInt32) (key value : List Bytes)
  | putBlobIndex (columnFamilyId : UInt32) (key value : Bytes)
  | putLogData (blob : Bytes)
  deriving Repr, DecidableEq

namespace Mutation

/-- The `WriteBatchInternal` function a mutation calls. -/
def apply (b : WriteBatch) : Mutation → Except String (Status × WriteBatch)
  | put cf key value => WriteBatchInternal.put b cf key value
  | putParts cf key value => WriteBatchInternal.putParts b cf key value
  | delete cf key => WriteBatchInternal.delete b cf key
  | deleteParts cf key => WriteBatchInternal.deleteParts b cf key
  | singleDelete cf key => WriteBatchInternal.singleDelete b cf key
  | singleDeleteParts cf key => WriteBatchInternal.singleDeleteParts b cf key
  | deleteRange cf beginKey endKey => WriteBatchInternal.deleteRange b cf beginKey endKey
  | deleteRangeParts cf beginKey endKey =>
      WriteBatchInternal.deleteRangeParts b cf beginKey endKey
  | merge cf key value => WriteBatchInternal.merge b cf key value
  | mergeParts cf key value => WriteBatchInternal.mergeParts b cf key value
  | putBlobIndex cf key value => WriteBatchInternal.putBlobIndex b cf key value
  | putLogData blob => pure (b.putLogData blob)

/-- The operation a mutation records; the parts of a `SliceParts` make one slice. -/
def entry : Mutation → BatchEntry
  | put cf key value => .put cf key value
  | putParts cf key value => .put cf key.flatten value.flatten
  | delete cf key => .delete cf key
  | deleteParts cf key => .delete cf key.flatten
  | singleDelete cf key => .singleDelete cf key
  | singleDeleteParts cf key => .singleDelete cf key.flatten
  | deleteRange cf beginKey endKey => .deleteRange cf beginKey endKey
  | deleteRangeParts cf beginKey endKey => .deleteRange cf beginKey.flatten endKey.flatten
  | merge cf key value => .merge cf key value
  | mergeParts cf key value => .merge cf key.flatten value.flatten
  | putBlobIndex cf key value => .putBlobIndex cf key value
  | putLogData blob => .logData blob

/-- The mutation is accepted and its slices fit their length prefixes: a `SliceParts` of `Put`
or `Merge` passes `CheckSlicePartsLength`, every other slice is shorter than `2^32`. -/
def Fits : Mutation → Prop
  | putParts _ key value | mergeParts _ key value =>
      (key.map List.length).sum < kMaxUint32 ∧ (value.map List.length).sum < kMaxUint32
  | m => m.entry.Fits

/-- The operation of an accepted mutation fits its length prefixes. -/
theorem entry_fits (m : Mutation) (h : m.Fits) : m.entry.Fits := by
  cases m
  case putParts cf key value | mergeParts cf key value =>
    obtain ⟨hkey, hvalue⟩ := h
    intro s hs
    simp only [entry, BatchEntry.fields, List.mem_cons, List.not_mem_nil, or_false] at hs
    rcases hs with rfl | rfl <;> simp only [List.length_flatten, kMaxUint32] at hkey hvalue ⊢ <;>
      omega
  all_goals exact h

end Mutation

/-- A `Slice` put or merge whose slices fit passes the length checks. -/
theorem not_too_large (key value : Bytes) (h : ∀ s ∈ [key, value], s.length < 2 ^ 32) :
    ¬key.length > kMaxUint32 ∧ ¬value.length > kMaxUint32 := by
  have hkey := h key (by simp)
  have hvalue := h value (by simp)
  simp only [kMaxUint32]
  omega

/-- `SliceParts` under the bound pass `CheckSlicePartsLength`. -/
theorem checkSlicePartsLength_ok {key value : List Bytes}
    (h : (key.map List.length).sum < kMaxUint32 ∧ (value.map List.length).sum < kMaxUint32) :
    checkSlicePartsLength key value = .ok := by
  rw [checkSlicePartsLength, if_neg (by omega), if_neg (by omega)]

/-- Every accepted mutation keeps the invariant, recording its operation. -/
theorem holds_apply {b : WriteBatch} {entries : List BatchEntry} {term : Option Nat}
    (h : b.Holds entries term) (m : Mutation) (hfit : m.Fits)
    (hlt : countedLength (entries ++ [m.entry]) < 2 ^ 31) :
    ∃ b', m.apply b = .ok (.ok, b') ∧ b'.Holds (entries ++ [m.entry]) term := by
  have he := m.entry_fits hfit
  cases m with
  | put cf key value =>
      -- the `Slice` form checks the lengths first
      obtain ⟨hkey, hvalue⟩ := not_too_large key value he
      rw [Mutation.apply, WriteBatchInternal.put, if_neg hkey, if_neg hvalue]
      exact holds_addCounted h (.put cf key value) rfl he hlt
  | putParts cf key value =>
      rw [Mutation.apply, WriteBatchInternal.putParts, checkSlicePartsLength_ok hfit]
      dsimp only
      rw [putLengthPrefixedSliceParts_eq, putLengthPrefixedSliceParts_eq]
      exact holds_addCounted h (.put cf key.flatten value.flatten) rfl he hlt
  | delete cf key => exact holds_addCounted h (.delete cf key) rfl he hlt
  | deleteParts cf key =>
      rw [Mutation.apply, WriteBatchInternal.deleteParts, putLengthPrefixedSliceParts_eq]
      exact holds_addCounted h (.delete cf key.flatten) rfl he hlt
  | singleDelete cf key => exact holds_addCounted h (.singleDelete cf key) rfl he hlt
  | singleDeleteParts cf key =>
      rw [Mutation.apply, WriteBatchInternal.singleDeleteParts, putLengthPrefixedSliceParts_eq]
      exact holds_addCounted h (.singleDelete cf key.flatten) rfl he hlt
  | deleteRange cf beginKey endKey =>
      exact holds_addCounted h (.deleteRange cf beginKey endKey) rfl he hlt
  | deleteRangeParts cf beginKey endKey =>
      rw [Mutation.apply, WriteBatchInternal.deleteRangeParts, putLengthPrefixedSliceParts_eq,
        putLengthPrefixedSliceParts_eq]
      exact holds_addCounted h (.deleteRange cf beginKey.flatten endKey.flatten) rfl he hlt
  | merge cf key value =>
      obtain ⟨hkey, hvalue⟩ := not_too_large key value he
      rw [Mutation.apply, WriteBatchInternal.merge, if_neg hkey, if_neg hvalue]
      exact holds_addCounted h (.merge cf key value) rfl he hlt
  | mergeParts cf key value =>
      rw [Mutation.apply, WriteBatchInternal.mergeParts, checkSlicePartsLength_ok hfit]
      dsimp only
      rw [putLengthPrefixedSliceParts_eq, putLengthPrefixedSliceParts_eq]
      exact holds_addCounted h (.merge cf key.flatten value.flatten) rfl he hlt
  | putBlobIndex cf key value => exact holds_addCounted h (.putBlobIndex cf key value) rfl he hlt
  | putLogData blob =>
      obtain ⟨b', hput, hb'⟩ := holds_putLogData h blob (he blob (by simp [Mutation.entry, BatchEntry.fields]))
      exact ⟨b', by rw [Mutation.apply, hput]; rfl, hb'⟩

/-! ## Programs -/

/-- How a client builds a batch. -/
inductive BatchProgram where
  | new
  | mutate (p : BatchProgram) (m : Mutation)
  | markWalTerminationPoint (p : BatchProgram)
  | append (dst src : BatchProgram) (walOnly : Bool)
  deriving Repr, DecidableEq

namespace BatchProgram

/-- The batch a program builds; a mutation that does not return `OK` stops it. -/
def run : BatchProgram → Except String WriteBatch
  | new => pure (WriteBatch.new 0)
  | mutate p m => do
      let (s, b) ← m.apply (← p.run)
      if s = .ok then pure b else throw "mutation not OK"
  | markWalTerminationPoint p => do
      let b ← p.run
      pure b.markWalTerminationPoint
  | append dst src walOnly => do
      WriteBatchInternal.append (← dst.run) (← src.run) walOnly

mutual

/-- The operations the batch of a program records, in order. -/
def entries : BatchProgram → List BatchEntry
  | new => []
  | mutate p m => p.entries ++ [m.entry]
  | markWalTerminationPoint p => p.entries
  | append dst src walOnly => dst.entries ++ appendedEntries src.entries src.termPoint walOnly

/-- How many operations the batch held when its termination point was last marked. -/
def termPoint : BatchProgram → Option Nat
  | new => none
  | mutate p _ => p.termPoint
  | markWalTerminationPoint p => some p.entries.length
  | append dst _ _ => dst.termPoint

end

/-- Every mutation of the program is accepted and fits, and no batch along the way counts
`2^31` operations. -/
def Fits : BatchProgram → Prop
  | new => True
  | mutate p m => p.Fits ∧ m.Fits ∧ countedLength (p.entries ++ [m.entry]) < 2 ^ 31
  | markWalTerminationPoint p => p.Fits
  | append dst src walOnly => dst.Fits ∧ src.Fits ∧
      countedLength (dst.entries ++ appendedEntries src.entries src.termPoint walOnly) < 2 ^ 31

end BatchProgram

/-- Every step of a program keeps the invariant: the batch it builds holds its entries. -/
theorem holds_run (p : BatchProgram) (hfit : p.Fits) :
    ∃ b, p.run = .ok b ∧ b.Holds p.entries p.termPoint := by
  induction p with
  | new => exact ⟨_, rfl, holds_new⟩
  | mutate p m ih =>
      obtain ⟨hp, hm, hlt⟩ := hfit
      obtain ⟨b, hrun, hb⟩ := ih hp
      obtain ⟨b', happly, hb'⟩ := holds_apply hb m hm hlt
      refine ⟨b', ?_, hb'⟩
      simp [BatchProgram.run, hrun, happly, bind, Except.bind, pure, Except.pure]
  | markWalTerminationPoint p ih =>
      obtain ⟨b, hrun, hb⟩ := ih hfit
      exact ⟨_, by simp [BatchProgram.run, hrun, bind, Except.bind, pure, Except.pure],
        holds_markWalTerminationPoint hb⟩
  | append dst src walOnly ihDst ihSrc =>
      obtain ⟨hdst, hsrc, hlt⟩ := hfit
      obtain ⟨d, hrunDst, hd⟩ := ihDst hdst
      obtain ⟨s, hrunSrc, hs⟩ := ihSrc hsrc
      obtain ⟨b, happend, hb⟩ := holds_append hd hs walOnly hlt
      refine ⟨b, ?_, hb⟩
      simp [BatchProgram.run, hrunDst, hrunSrc, happend, bind, Except.bind]

theorem iterate_run_entries (p : BatchProgram) (hfit : p.Fits) :
    ∃ b, p.run = .ok b ∧ b.iterate = .ok (.ok, p.entries.map BatchEntry.call) ∧
      WriteBatchInternal.count b = countedLength p.entries := by
  obtain ⟨b, hrun, hb⟩ := holds_run p hfit
  exact ⟨b, hrun, iterate_of_holds hb, hb.count⟩

theorem iterate_run_entries_put_append :
    (BatchProgram.append
        (.mutate (.mutate .new (.put 0 [1] [2])) (.putLogData [3]))
        (.mutate (.markWalTerminationPoint (.mutate .new (.deleteRangeParts 7 [[4], [5]] [[6]])))
          (.merge 2 [8] [9]))
        true).Fits ∧
      ∃ b, (BatchProgram.append
          (.mutate (.mutate .new (.put 0 [1] [2])) (.putLogData [3]))
          (.mutate (.markWalTerminationPoint (.mutate .new (.deleteRangeParts 7 [[4], [5]] [[6]])))
            (.merge 2 [8] [9]))
          true).run = .ok b ∧
        b.iterate = .ok (.ok, [.putCF 0 [1] [2], .logData [3], .deleteRangeCF 7 [4, 5] [6]]) ∧
        WriteBatchInternal.count b = 2 := by
  have hfit : (BatchProgram.append
        (.mutate (.mutate .new (.put 0 [1] [2])) (.putLogData [3]))
        (.mutate (.markWalTerminationPoint (.mutate .new (.deleteRangeParts 7 [[4], [5]] [[6]])))
          (.merge 2 [8] [9]))
        true).Fits := by
    simp [BatchProgram.Fits, Mutation.Fits, Mutation.entry, BatchEntry.Fits, BatchEntry.fields,
      BatchProgram.entries, BatchProgram.termPoint, appendedEntries, countedLength]
    decide
  exact ⟨hfit, iterate_run_entries _ hfit⟩

/-! ## The count is an `int` -/

/-- The count a batch's header reads as is below `2^31`. -/
theorem count_lt (b : WriteBatch) : WriteBatchInternal.count b < 2 ^ 31 := by
  unfold WriteBatchInternal.count toInt32
  have := (decodeFixed32 (b.rep.drop 8)).toNat_lt
  split <;> omega

/-- `n` deletions of the empty key in the default column family. -/
def deletes : Nat → BatchProgram
  | 0 => .new
  | n + 1 => .mutate (deletes n) (.delete 0 [])

/-- The entries of `n` deletions. -/
theorem deletes_entries (n : Nat) :
    (deletes n).entries = List.replicate n (.delete 0 []) := by
  induction n with
  | zero => rfl
  | succ n ih => rw [deletes, BatchProgram.entries, ih, List.replicate_succ']; rfl

/-- All `n` deletions are counted. -/
theorem countedLength_deletes (n : Nat) : countedLength (deletes n).entries = n := by
  rw [deletes_entries, countedLength, List.filter_eq_self.mpr (by simp [BatchEntry.counted]),
    List.length_replicate]

/-- Below `2^31` deletions, every step fits. -/
theorem deletes_fits (n : Nat) (hn : n < 2 ^ 31) : (deletes n).Fits := by
  induction n with
  | zero => trivial
  | succ n ih =>
      refine ⟨ih (by omega), by simp [Mutation.Fits, Mutation.entry, BatchEntry.Fits,
        BatchEntry.fields], ?_⟩
      have := countedLength_deletes (n + 1)
      rw [deletes, BatchProgram.entries] at this
      omega

/-- A counted mutation of a batch that already counts `2^31 - 1` operations overflows the
`int`. -/
theorem addCounted_overflow (b : WriteBatch) (hcount : WriteBatchInternal.count b = 2 ^ 31 - 1)
    (columnFamilyId : UInt32) (tag cfTag : ValueType) (fields : Bytes) (flag : UInt32) :
    b.addCounted columnFamilyId tag cfTag fields flag = .error "signed integer overflow" := by
  unfold WriteBatch.addCounted
  rw [hcount]
  rfl

theorem deletes_count_overflow :
    (deletes (2 ^ 31)).run = .error "signed integer overflow" ∧
      ∀ b : WriteBatch, WriteBatchInternal.count b ≠ countedLength (deletes (2 ^ 31)).entries := by
  refine ⟨?_, fun b hb => ?_⟩
  · -- after `2^31 - 1` deletions the batch counts `2^31 - 1`, and the next one overflows
    obtain ⟨b, hrun, hb⟩ := holds_run (deletes (2 ^ 31 - 1)) (deletes_fits _ (by norm_num))
    have hcount : WriteBatchInternal.count b = 2 ^ 31 - 1 := by
      rw [hb.count, countedLength_deletes]
      norm_num
    rw [show 2 ^ 31 = (2 ^ 31 - 1) + 1 from rfl, deletes, BatchProgram.run, hrun]
    simp only [bind, Except.bind, Mutation.apply, WriteBatchInternal.delete,
      addCounted_overflow b hcount]
  · -- the header cannot say `2^31`
    have := count_lt b
    rw [hb, countedLength_deletes] at this
    norm_num at this

end RocksCloud.Db
