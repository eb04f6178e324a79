import Mathlib
import RocksCloud.Db.DbFormat

/-!
# Index keys, `ShortenedIndexBuilder` in `table/block_based/index_builder.h`

The index block of a table maps one key per data block to the block's handle. The key need not
be a key of the table: any key not below the block's last key and below the next block's first
key will do, and a shorter one makes a smaller index. `AddIndexEntry` asks the internal key
comparator for such a key with `FindShortestSeparator`, and for the last block, which has no
next key, for a short key not below its last one with `FindShortSuccessor`.

`BlockBasedTableBuilder` calls `OnKeyAdded` for every key it adds and `AddIndexEntry` once per
data block, when it has seen the first key of the next block (`Add`) or at the end (`Finish`).
`addBlocks` replays these calls over the flushed blocks of a table.

* `addIndexEntry_separator`: one call with a next key gives a key in `[last, next)`.
* `addBlocks_separators`: over every sequence of flushed blocks whose last and next keys are in
  order, the index keys added are one per block, in order, each between its block's last key
  and the next block's first key.

The index values are kept as the `IndexValue`s the builder encodes; the bytes of the encoding,
its delta encoding against `last_encoded_handle_`, and the two `BlockBuilder`s the keys go to
are not modelled: the builder's state records, in order, the pairs handed to each.
-/

set_option autoImplicit false

namespace RocksCloud.Table

open RocksCloud.Util

/-- `BlockBasedTableOptions::IndexShorteningMode`. -/
inductive IndexShorteningMode where
  | noShortening
  | shortenSeparators
  | shortenSeparatorsAndSuccessor
  deriving Repr, DecidableEq

/-- `BlockHandle`: where a block is in the file. -/
structure BlockHandle where
  offset : UInt64
  size : UInt64
  deriving Repr, DecidableEq

/-- `IndexValue`: the handle of a data block and, with `include_first_key`, its first key. -/
structure IndexValue where
  handle : BlockHandle
  firstInternalKey : Bytes
  deriving Repr, DecidableEq

/-- The fields of `ShortenedIndexBuilder` that choose the index entries. `indexBlockEntries` and
`indexBlockEntriesWithoutSeq` are what `index_block_builder_` and
`index_block_builder_without_seq_` were given, in order. -/
structure ShortenedIndexBuilder where
  comparator : Db.InternalKeyComparator
  includeFirstKey : Bool
  shorteningMode : IndexShorteningMode
  seperatorIsKeyPlusSeq : Bool
  currentBlockFirstInternalKey : Bytes
  indexBlockEntries : List (Bytes × IndexValue)
  indexBlockEntriesWithoutSeq : List (Bytes × IndexValue)

/-- A data block as `Flush` closes it: its keys in order, never none, and its handle. -/
structure FlushedBlock where
  keys : List Bytes
  keys_ne_nil : keys ≠ []
  handle : BlockHandle

namespace FlushedBlock

def firstKey (blk : FlushedBlock) : Bytes := blk.keys.head blk.keys_ne_nil

def lastKey (blk : FlushedBlock) : Bytes := blk.keys.getLast blk.keys_ne_nil

end FlushedBlock

namespace ShortenedIndexBuilder

/-- The constructor: old formats (`format_version <= 2`) always keep the sequence numbers. -/
def new (comparator : Db.InternalKeyComparator) (formatVersion : Nat)
    (shorteningMode : IndexShorteningMode) (includeFirstKey : Bool) : ShortenedIndexBuilder where
  comparator := comparator
  includeFirstKey := includeFirstKey
  shorteningMode := shorteningMode
  seperatorIsKeyPlusSeq := formatVersion ≤ 2
  currentBlockFirstInternalKey := []
  indexBlockEntries := []
  indexBlockEntriesWithoutSeq := []

/-- `OnKeyAdded(key)`: the first key of the block, when the entries carry it. -/
def onKeyAdded (b : ShortenedIndexBuilder) (key : Bytes) : ShortenedIndexBuilder :=
  if b.includeFirstKey && b.currentBlockFirstInternalKey.isEmpty then
    { b with currentBlockFirstInternalKey := key }
  else b

/-- What `AddIndexEntry` leaves in `*last_key_in_current_block`: the separator from the next
block's first key, or the successor after the last block, as the shortening mode allows. -/
def shortenedLastKey (b : ShortenedIndexBuilder) (lastKeyInCurrentBlock : Bytes) :
    Option Bytes → Bytes
  | some firstKeyInNextBlock =>
      if b.shorteningMode ≠ .noShortening then
        b.comparator.findShortestSeparator lastKeyInCurrentBlock firstKeyInNextBlock
      else lastKeyInCurrentBlock
  | none =>
      if b.shorteningMode = .shortenSeparatorsAndSuccessor then
        b.comparator.findShortSuccessor lastKeyInCurrentBlock
      else lastKeyInCurrentBlock

/-- `AddIndexEntry(last_key_in_current_block, first_key_in_next_block, block_handle)`: the
builder after the call, and the separator it wrote back. Once a separator has the user key of
the next block's first key, the index needs the sequence numbers, and from then on no entry
goes to the index without them. -/
def addIndexEntry (b : ShortenedIndexBuilder) (lastKeyInCurrentBlock : Bytes)
    (firstKeyInNextBlock : Option Bytes) (blockHandle : BlockHandle) :
    ShortenedIndexBuilder × Bytes :=
  let sep := b.shortenedLastKey lastKeyInCurrentBlock firstKeyInNextBlock
  let seperatorIsKeyPlusSeq :=
    match firstKeyInNextBlock with
    | some firstKey =>
        b.seperatorIsKeyPlusSeq ||
          b.comparator.userComparator.compare (extractUserKey sep) (extractUserKey firstKey) == .eq
    | none => b.seperatorIsKeyPlusSeq
  let entry : IndexValue := ⟨blockHandle, b.currentBlockFirstInternalKey⟩
  ({ b with
      seperatorIsKeyPlusSeq := seperatorIsKeyPlusSeq
      indexBlockEntries := b.indexBlockEntries ++ [(sep, entry)]
      indexBlockEntriesWithoutSeq :=
        if seperatorIsKeyPlusSeq then b.indexBlockEntriesWithoutSeq
        else b.indexBlockEntriesWithoutSeq ++ [(extractUserKey sep, entry)]
      currentBlockFirstInternalKey := [] }, sep)

/-- The index builder's calls for a table's data blocks: `OnKeyAdded` for the keys of a block,
then `AddIndexEntry` for it with the first key of the next block, from `Add` when that key
arrives, or with none, from `Finish`. -/
def addBlocks (b : ShortenedIndexBuilder) : List FlushedBlock → ShortenedIndexBuilder
  | [] => b
  | [blk] => ((blk.keys.foldl onKeyAdded b).addIndexEntry blk.lastKey none blk.handle).1
  | blk :: next :: rest =>
      addBlocks ((blk.keys.foldl onKeyAdded b).addIndexEntry blk.lastKey (some next.firstKey)
        blk.handle).1 (next :: rest)

/-! ## One entry -/

@[simp] theorem comparator_onKeyAdded (b : ShortenedIndexBuilder) (key : Bytes) :
    (b.onKeyAdded key).comparator = b.comparator := by
  unfold onKeyAdded
  split <;> rfl

@[simp] theorem shorteningMode_onKeyAdded (b : ShortenedIndexBuilder) (key : Bytes) :
    (b.onKeyAdded key).shorteningMode = b.shorteningMode := by
  unfold onKeyAdded
  split <;> rfl

@[simp] theorem indexBlockEntries_onKeyAdded (b : ShortenedIndexBuilder) (key : Bytes) :
    (b.onKeyAdded key).indexBlockEntries = b.indexBlockEntries := by
  unfold onKeyAdded
  split <;> rfl

/-- `OnKeyAdded` changes none of the fields the separators depend on. -/
theorem foldl_onKeyAdded (b : ShortenedIndexBuilder) (keys : List Bytes) :
    (keys.foldl onKeyAdded b).comparator = b.comparator ∧
      (keys.foldl onKeyAdded b).shorteningMode = b.shorteningMode ∧
      (keys.foldl onKeyAdded b).indexBlockEntries = b.indexBlockEntries := by
  induction keys generalizing b with
  | nil => exact ⟨rfl, rfl, rfl⟩
  | cons key keys ih =>
      obtain ⟨h1, h2, h3⟩ := ih (b.onKeyAdded key)
      simp only [List.foldl_cons, h1, h2, h3, comparator_onKeyAdded, shorteningMode_onKeyAdded,
        indexBlockEntries_onKeyAdded, and_self]

@[simp] theorem comparator_addIndexEntry (b : ShortenedIndexBuilder) (last : Bytes)
    (first : Option Bytes) (handle : BlockHandle) :
    (b.addIndexEntry last first handle).1.comparator = b.comparator := rfl

@[simp] theorem shorteningMode_addIndexEntry (b : ShortenedIndexBuilder) (last : Bytes)
    (first : Option Bytes) (handle : BlockHandle) :
    (b.addIndexEntry last first handle).1.shorteningMode = b.shorteningMode := rfl

/-- The entry goes to the index with the separator as its key. -/
theorem indexBlockEntries_addIndexEntry (b : ShortenedIndexBuilder) (last : Bytes)
    (first : Option Bytes) (handle : BlockHandle) :
    (b.addIndexEntry last first handle).1.indexBlockEntries =
      b.indexBlockEntries ++
        [((b.addIndexEntry last first handle).2, ⟨handle, b.currentBlockFirstInternalKey⟩)] :=
  rfl

section Separator

variable {icmp : Db.InternalKeyComparator} [Std.TransCmp icmp.userComparator.compare]
  {b : ShortenedIndexBuilder}

/-- **A separator lies in `[last, next)`**: shortened or not, the key written back is not below
the block's last key and is below the next block's first key. -/
theorem addIndexEntry_separator (hsound : icmp.userComparator.ShorteningSound)
    (hb : b.comparator = icmp) {last first : Bytes} (h : icmp.compare last first = .lt)
    (handle : BlockHandle) :
    icmp.compare last (b.addIndexEntry last (some first) handle).2 ≠ .gt ∧
      icmp.compare (b.addIndexEntry last (some first) handle).2 first = .lt := by
  subst hb
  show b.comparator.compare last (b.shortenedLastKey last (some first)) ≠ .gt ∧
    b.comparator.compare (b.shortenedLastKey last (some first)) first = .lt
  rw [shortenedLastKey]
  split_ifs
  · exact b.comparator.findShortestSeparator_sound hsound h
  · rw [b.comparator.compare_self]
    exact ⟨by decide, h⟩

/-- After the last block the key written back is not below the block's last key. -/
theorem addIndexEntry_successor (hb : b.comparator = icmp) (last : Bytes) (handle : BlockHandle) :
    icmp.compare last (b.addIndexEntry last none handle).2 ≠ .gt := by
  subst hb
  show b.comparator.compare last (b.shortenedLastKey last none) ≠ .gt
  rw [shortenedLastKey]
  split_ifs
  · exact b.comparator.findShortSuccessor_sound last
  · rw [b.comparator.compare_self]
    decide

end Separator

/-! ## A table's index -/

/-- Every index key is between its block's last key and the next block's first key; the last
one is not below the last block's last key. -/
inductive SeparatorsBetween (icmp : Db.InternalKeyComparator) :
    List FlushedBlock → List Bytes → Prop
  | nil : SeparatorsBetween icmp [] []
  | last {blk : FlushedBlock} {sep : Bytes} :
      icmp.compare blk.lastKey sep ≠ .gt → SeparatorsBetween icmp [blk] [sep]
  | cons {blk next : FlushedBlock} {rest : List FlushedBlock} {sep : Bytes} {seps : List Bytes} :
      icmp.compare blk.lastKey sep ≠ .gt → icmp.compare sep next.firstKey = .lt →
      SeparatorsBetween icmp (next :: rest) seps →
      SeparatorsBetween icmp (blk :: next :: rest) (sep :: seps)

/-- **The separators of a table's index lie between its blocks.** For flushed blocks in order,
`addBlocks` adds one entry per block, with the block's handle, and the keys satisfy
`SeparatorsBetween`. -/
theorem addBlocks_separators {icmp : Db.InternalKeyComparator}
    [Std.TransCmp icmp.userComparator.compare] (hsound : icmp.userComparator.ShorteningSound)
    (b : ShortenedIndexBuilder) (hb : b.comparator = icmp) (blocks : List FlushedBlock)
    (hchain : blocks.IsChain (fun x y => icmp.compare x.lastKey y.firstKey = .lt)) :
    ∃ entries : List (Bytes × IndexValue),
      (b.addBlocks blocks).indexBlockEntries = b.indexBlockEntries ++ entries ∧
        entries.map (fun e => e.2.handle) = blocks.map (·.handle) ∧
        SeparatorsBetween icmp blocks (entries.map (·.1)) := by
  -- one case per equation of `addBlocks`; `OnKeyAdded` and `AddIndexEntry` keep the comparator,
  -- so every call is made with `icmp`
  fun_induction addBlocks b blocks with
  | case1 b => exact ⟨[], by simp, rfl, .nil⟩
  | case2 b blk =>
      obtain ⟨hcmp, -, hentries⟩ := foldl_onKeyAdded b blk.keys
      have hsucc := addIndexEntry_successor (hcmp.trans hb) blk.lastKey blk.handle
      rw [indexBlockEntries_addIndexEntry, hentries]
      exact ⟨_, rfl, rfl, .last hsucc⟩
  | case3 b blk next rest ih =>
      obtain ⟨hcmp, -, hentries⟩ := foldl_onKeyAdded b blk.keys
      obtain ⟨hlt, hchain⟩ := List.isChain_cons_cons.mp hchain
      have hsep := addIndexEntry_separator hsound (hcmp.trans hb) hlt blk.handle
      obtain ⟨entries, hadd, hhandles, hbetween⟩ := ih (hcmp.trans hb) hchain
      rw [hadd, indexBlockEntries_addIndexEntry, hentries, List.append_assoc]
      refine ⟨_ :: entries, rfl, ?_, .cons hsep.1 hsep.2 hbetween⟩
      simp only [List.map_cons, hhandles]

/-- **Shortening with the built-in comparators is sound, down to the index.** Over the bytewise
and the reverse bytewise comparators, the user-key separator and successor stay in range and
are no longer than the key; the internal key separator of `a < b` is in `[a, b)` and the
successor is not below the key; and the index keys `ShortenedIndexBuilder` adds lie between the
last key of each block and the first key of the next. -/
theorem shortening_sound_through_index (icmp : Db.InternalKeyComparator)
    (hc : icmp.userComparator = bytewiseComparator ∨
      icmp.userComparator = reverseBytewiseComparator) :
    icmp.userComparator.ShorteningSound ∧
      (∀ a b, icmp.compare a b = .lt →
        icmp.compare a (icmp.findShortestSeparator a b) ≠ .gt ∧
          icmp.compare (icmp.findShortestSeparator a b) b = .lt) ∧
      (∀ a, icmp.compare a (icmp.findShortSuccessor a) ≠ .gt) ∧
      ∀ (b : ShortenedIndexBuilder) (blocks : List FlushedBlock), b.comparator = icmp →
        blocks.IsChain (fun x y => icmp.compare x.lastKey y.firstKey = .lt) →
        ∃ entries : List (Bytes × IndexValue),
          (b.addBlocks blocks).indexBlockEntries = b.indexBlockEntries ++ entries ∧
            entries.map (fun e => e.2.handle) = blocks.map (·.handle) ∧
            SeparatorsBetween icmp blocks (entries.map (·.1)) := by
  have hinst : Std.TransCmp icmp.userComparator.compare := by
    rcases hc with h | h <;> rw [h] <;> infer_instance
  have hsound : icmp.userComparator.ShorteningSound := by
    rcases hc with h | h <;> rw [h]
    · exact bytewiseComparator_shorteningSound
    · exact reverseBytewiseComparator_shorteningSound
  exact ⟨hsound, fun a b hab => icmp.findShortestSeparator_sound hsound hab,
    icmp.findShortSuccessor_sound,
    fun b blocks hb hchain => addBlocks_separators hsound b hb blocks hchain⟩

/-- `abc` at sequence 5 and `ae` at sequence 7 under the bytewise comparator. -/
theorem shortening_sound_through_index_abc :
    let icmp : Db.InternalKeyComparator := ⟨bytewiseComparator⟩
    let a := internalKey [0x61, 0x62, 0x63] 5 .typeValue
    let b := internalKey [0x61, 0x65] 7 .typeValue
    icmp.compare a b = .lt ∧
      icmp.compare a (icmp.findShortestSeparator a b) ≠ .gt ∧
      icmp.compare (icmp.findShortestSeparator a b) b = .lt :=
  ⟨by decide, (shortening_sound_through_index ⟨bytewiseComparator⟩ (Or.inl rfl)).2.1 _ _ (by decide)⟩

end ShortenedIndexBuilder

end RocksCloud.Table
