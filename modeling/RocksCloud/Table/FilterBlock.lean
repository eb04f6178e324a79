import Mathlib
import RocksCloud.Table.OtLexPdtBloomBits

/-!
# Filter blocks of `table/block_based`

A block-based table builder hands the user key of every entry to one filter block builder,
chosen by `CreateFilterBlockBuilder` from the table options and the output level:

* a policy built with `use_block_based_builder` gives a `BlockBasedFilterBlockBuilder`;
* otherwise the filter bits come from `GetFilterBitsBuilder(level >= 2)`, the OtLexPdt trie at
  levels `2` and above and a Bloom filter below, and the block builder is a
  `PartitionedFilterBlockBuilder` when filters are partitioned, an
  `OtLexPdtFilterBlockBuilder` at levels above `1`, and a `FullFilterBlockBuilder` otherwise.

The table names the filter meta block after the builder, and the reader of the file picks its
filter reader by looking the names up in a fixed order (`findFilterType`).

`FullFilterBlockBuilder::Add` hands the bits builder the whole key (when whole-key filtering is
on) and the prefix of every key in the prefix extractor's domain. `OtLexPdtFilterBlockBuilder`
hands it the whole key only, while its reader answers prefix queries with the same trie.
This module models both builders, the OtLexPdt filter block reader, and the selection.
-/

set_option autoImplicit false

namespace RocksCloud.Table

open RocksCloud.Util RocksCloud.Ot

/-! ## Prefix extractors and the bytewise comparator -/

/-- A `SliceTransform`: its domain, its transform and `FullLengthEnabled`. -/
structure SliceTransform where
  transform : Bytes → Bytes
  inDomain : Bytes → Bool
  fullLength : Option Nat

/-- `NewFixedPrefixTransform(prefix_len)`. -/
def fixedPrefixTransform (prefixLen : Nat) : SliceTransform where
  transform src := src.take prefixLen
  inDomain src := decide (src.length ≥ prefixLen)
  fullLength := some prefixLen

/-- `BytewiseComparator::IsSameLengthImmediateSuccessor`: `t` is `s` plus one, at the same
length. Past the first difference `s` must hold `0xff` and `t` must hold `0`. -/
def isSameLengthImmediateSuccessor (s t : Bytes) : Bool :=
  if s.length ≠ t.length ∨ s.length = 0 then false
  else
    let diffInd := mismatchIndex s t
    if diffInd ≥ s.length then false
    else
      let byteS := s.getD diffInd 0
      let byteT := t.getD diffInd 0
      if byteS ≠ 0xff ∧ byteS.toNat + 1 = byteT.toNat then
        (List.range (s.length - diffInd - 1)).all fun j =>
          s.getD (diffInd + 1 + j) 0 = 0xff ∧ t.getD (diffInd + 1 + j) 0 = 0
      else false

/-! ## Choosing the builder and the reader -/

/-- The filter bits builders of `BloomFilterPolicy`. -/
inductive FilterBitsBuilderKind where
  | full
  | otLexPdt
  deriving Repr, DecidableEq

/-- `BloomFilterPolicy::GetFilterBitsBuilder(isPdt)`: none for a block-based policy. -/
def getFilterBitsBuilder (useBlockBasedBuilder isPdt : Bool) : Option FilterBitsBuilderKind :=
  if useBlockBasedBuilder then none
  else if isPdt then some .otLexPdt
  else some .full

/-- The filter block builders, with the bits builder they own. -/
inductive FilterBlockBuilderKind where
  | blockBased
  | partitioned (bits : FilterBitsBuilderKind)
  | otLexPdt (bits : FilterBitsBuilderKind)
  | full (bits : FilterBitsBuilderKind)
  deriving Repr, DecidableEq

/-- The table options `CreateFilterBlockBuilder` reads. `filterPolicy` is false for a null
`filter_policy`. -/
structure FilterTableOptions where
  filterPolicy : Bool
  useBlockBasedBuilder : Bool
  partitionFilters : Bool
  wholeKeyFiltering : Bool

/-- `CreateFilterBlockBuilder` at output level `level`. -/
def createFilterBlockBuilder (opts : FilterTableOptions) (level : Int) :
    Option FilterBlockBuilderKind :=
  if ¬ opts.filterPolicy then none
  else
    match getFilterBitsBuilder opts.useBlockBasedBuilder (decide (level ≥ 2)) with
    | none => some .blockBased
    | some bits =>
        if opts.partitionFilters then some (.partitioned bits)
        else if level > 1 then some (.otLexPdt bits)
        else some (.full bits)

/-- The filter types a table reader looks for, in the order it looks. -/
inductive FilterType where
  | otLexPdtFilter
  | fullFilter
  | partitionedFilter
  | blockFilter
  deriving Repr, DecidableEq

/-- The prefix of the meta block name of each filter type. -/
def FilterType.blockPrefix : FilterType → String
  | .otLexPdtFilter => "otlexpdtfilter."
  | .fullFilter => "fullfilter."
  | .partitionedFilter => "partitionedfilter."
  | .blockFilter => "filter."

/-- `WriteFilterBlock`: the type whose prefix names the filter block, chosen from the builder
kind, the options and the level. -/
def writtenFilterType (kind : FilterBlockBuilderKind) (opts : FilterTableOptions)
    (level : Int) : FilterType :=
  match kind with
  | .blockBased => .blockFilter
  | _ =>
      if opts.partitionFilters then .partitionedFilter
      else if level > 1 then .otLexPdtFilter
      else .fullFilter

/-- The search of `PrefetchIndexAndFilterBlocks`: the first type, in the reader's order, whose
meta block `prefix ++ policyName` exists. -/
def findFilterType (metaBlocks : List String) (policyName : String) : Option FilterType :=
  [FilterType.otLexPdtFilter, .fullFilter, .partitionedFilter, .blockFilter].find? fun t =>
    metaBlocks.contains (t.blockPrefix ++ policyName)

/-! ## The OtLexPdt filter block -/

/-- `OtLexPdtFilterBlockBuilder`: its bits builder and `num_added_`. -/
structure OtLexPdtFilterBlockBuilder where
  filterBitsBuilder : OtLexPdtBloomBitsBuilder
  numAdded : UInt32
  deriving Repr, DecidableEq

/-- A fresh `OtLexPdtFilterBlockBuilder`. -/
def OtLexPdtFilterBlockBuilder.new : OtLexPdtFilterBlockBuilder := ⟨.empty, 0⟩

/-- `OtLexPdtFilterBlockBuilder::Add`, that is `AddKey`: the whole key goes to the bits
builder, whatever the prefix extractor. -/
def OtLexPdtFilterBlockBuilder.add (b : OtLexPdtFilterBlockBuilder) (key : Bytes) :
    OtLexPdtFilterBlockBuilder :=
  ⟨b.filterBitsBuilder.addKey key, b.numAdded + 1⟩

/-- `OtLexPdtFilterBlockBuilder::Finish`: the bits, or an empty slice when nothing was added. -/
def OtLexPdtFilterBlockBuilder.finish (b : OtLexPdtFilterBlockBuilder) : Except String Bytes :=
  if b.numAdded ≠ 0 then b.filterBitsBuilder.finish else .ok []

/-- The builder after the table builder added `keys`, in order. -/
def OtLexPdtFilterBlockBuilder.addAll (b : OtLexPdtFilterBlockBuilder) (keys : List Bytes) :
    OtLexPdtFilterBlockBuilder :=
  keys.foldl OtLexPdtFilterBlockBuilder.add b

/-- `OtLexPdtFilterBlockReader` over a parsed filter block: the table's `whole_key_filtering`,
its prefix extractor, and the bits reader, which is null for empty contents. -/
structure OtLexPdtFilterBlockReader where
  wholeKeyFiltering : Bool
  tablePrefixExtractor : Option SliceTransform
  filterBitsReader : Option OtLexPdtBloomBitsReader

/-- The reader over filter contents: `ParsedFullFilterBlock` asks the policy for the OtLexPdt
bits reader of nonempty contents. -/
def OtLexPdtFilterBlockReader.create (wholeKeyFiltering : Bool)
    (tablePrefixExtractor : Option SliceTransform) (contents : Bytes) :
    OtLexPdtFilterBlockReader :=
  { wholeKeyFiltering, tablePrefixExtractor
    filterBitsReader := if contents = [] then none else some (.ofBuf contents) }

/-- `OtLexPdtFilterBlockReader::MayMatch` for one entry; without a bits reader it answers
`true`. -/
def OtLexPdtFilterBlockReader.mayMatch (r : OtLexPdtFilterBlockReader) (entry : Bytes) : Bool :=
  match r.filterBitsReader with
  | some bitsReader => bitsReader.mayMatch entry
  | none => true

/-- `OtLexPdtFilterBlockReader::KeyMayMatch`. -/
def OtLexPdtFilterBlockReader.keyMayMatch (r : OtLexPdtFilterBlockReader) (key : Bytes) : Bool :=
  if ¬ r.wholeKeyFiltering then true else r.mayMatch key

/-- `OtLexPdtFilterBlockReader::PrefixMayMatch`: the prefix is looked up as a key. -/
def OtLexPdtFilterBlockReader.prefixMayMatch (r : OtLexPdtFilterBlockReader) (pfx : Bytes) :
    Bool :=
  r.mayMatch pfx

/-- `OtLexPdtFilterBlockReader::KeysMayMatch`: for each key of a `MultiGet` batch, whether it
stays in the batch. The batch is checked with whole keys. -/
def OtLexPdtFilterBlockReader.keysMayMatch (r : OtLexPdtFilterBlockReader) (keys : List Bytes) :
    List Bool :=
  if ¬ r.wholeKeyFiltering then keys.map fun _ => true
  else
    match r.filterBitsReader with
    | some bitsReader => keys.map bitsReader.mayMatch
    | none => keys.map fun _ => true

/-- `OtLexPdtFilterBlockReader::IsFilterCompatible`: whether the whole range from a key with
prefix `pfx` up to the upper bound shares that prefix. -/
def OtLexPdtFilterBlockReader.isFilterCompatible (r : OtLexPdtFilterBlockReader)
    (iterateUpperBound : Option Bytes) (pfx : Bytes) : Bool :=
  match iterateUpperBound, r.tablePrefixExtractor with
  | some upperBound, some prefixExtractor =>
      if ¬ prefixExtractor.inDomain upperBound then false
      else if pfx = prefixExtractor.transform upperBound then true
      else
        match prefixExtractor.fullLength with
        | some fullLength =>
            upperBound.length = fullLength && isSameLengthImmediateSuccessor pfx upperBound
        | none => false
  | _, _ => false

/-- `OtLexPdtFilterBlockReader::RangeMayExist`: the answer and `*filter_checked`. -/
def OtLexPdtFilterBlockReader.rangeMayExist (r : OtLexPdtFilterBlockReader)
    (iterateUpperBound : Option Bytes) (userKey : Bytes) (prefixExtractor : Option SliceTransform)
    (needUpperBoundCheck : Bool) : Bool × Bool :=
  match prefixExtractor with
  | none => (true, false)
  | some pe =>
      if ¬ pe.inDomain userKey then (true, false)
      else
        let pfx := pe.transform userKey
        if needUpperBoundCheck ∧ ¬ r.isFilterCompatible iterateUpperBound pfx then (true, false)
        else (r.prefixMayMatch pfx, true)

/-! ## The full filter block builder -/

/-- `FullFilterBlockBuilder`: what it remembers between keys, and the entries it handed to its
bits builder so far (`filter_bits_builder_->AddKey`). -/
structure FullFilterBlockBuilder where
  prefixExtractor : Option SliceTransform
  wholeKeyFiltering : Bool
  lastWholeKeyRecorded : Bool
  lastWholeKeyStr : Bytes
  lastPrefixRecorded : Bool
  lastPrefixStr : Bytes
  added : List Bytes
  numAdded : UInt32

/-- A fresh `FullFilterBlockBuilder`. -/
def FullFilterBlockBuilder.new (prefixExtractor : Option SliceTransform)
    (wholeKeyFiltering : Bool) : FullFilterBlockBuilder :=
  ⟨prefixExtractor, wholeKeyFiltering, false, [], false, [], [], 0⟩

/-- `FullFilterBlockBuilder::AddKey`. -/
def FullFilterBlockBuilder.addKey (b : FullFilterBlockBuilder) (key : Bytes) :
    FullFilterBlockBuilder :=
  { b with added := b.added ++ [key], numAdded := b.numAdded + 1 }

/-- `FullFilterBlockBuilder::AddPrefix`: with whole keys on, a prefix equal to the last one
recorded is skipped. -/
def FullFilterBlockBuilder.addPrefix (b : FullFilterBlockBuilder) (pe : SliceTransform)
    (key : Bytes) : FullFilterBlockBuilder :=
  let pfx := pe.transform key
  if b.wholeKeyFiltering then
    if ¬ b.lastPrefixRecorded ∨ b.lastPrefixStr ≠ pfx then
      { b.addKey pfx with lastPrefixRecorded := true, lastPrefixStr := pfx }
    else b
  else b.addKey pfx

/-- The whole-key part of `FullFilterBlockBuilder::Add`: when prefixes are added too, a key
equal to the last one recorded is skipped. -/
def FullFilterBlockBuilder.addWholeKey (b : FullFilterBlockBuilder) (addPrefix : Bool)
    (key : Bytes) : FullFilterBlockBuilder :=
  if b.wholeKeyFiltering then
    if !addPrefix then b.addKey key
    else if ¬ b.lastWholeKeyRecorded ∨ b.lastWholeKeyStr ≠ key then
      { b.addKey key with lastWholeKeyRecorded := true, lastWholeKeyStr := key }
    else b
  else b

/-- `FullFilterBlockBuilder::Add`: the whole key, then the prefix of a key in the extractor's
domain. -/
def FullFilterBlockBuilder.add (b : FullFilterBlockBuilder) (key : Bytes) :
    FullFilterBlockBuilder :=
  let addPrefix : Bool := match b.prefixExtractor with
    | some pe => pe.inDomain key
    | none => false
  let b1 := b.addWholeKey addPrefix key
  match b.prefixExtractor with
  | some pe => if addPrefix then b1.addPrefix pe key else b1
  | none => b1

/-- The builder after the table builder added `keys`, in order. -/
def FullFilterBlockBuilder.addAll (b : FullFilterBlockBuilder) (keys : List Bytes) :
    FullFilterBlockBuilder :=
  keys.foldl FullFilterBlockBuilder.add b

/-- The OtLexPdt filter of an SST file whose table builder added `keys`: the block its
builder finishes, read by the table's filter block reader. A file with no key has no filter
block, and a reader without one lets every key through, as the empty slice does here. -/
def otLexPdtTableFilter (opts : FilterTableOptions) (prefixExtractor : Option SliceTransform)
    (keys : List Bytes) : Except String OtLexPdtFilterBlockReader :=
  (OtLexPdtFilterBlockBuilder.new.addAll keys).finish.map
    (OtLexPdtFilterBlockReader.create opts.wholeKeyFiltering prefixExtractor)

/-! ## Keys the OtLexPdt filter misses -/

/-- The key `"\x00"`: the string pool cuts the trie's labels at every `0`, and `index` takes a
`0` label for the end of the key, so the filter built from the key does not find it. -/
theorem otLexPdtFilter_misses_nul_key :
    ((OtLexPdtFilterBlockBuilder.new.addAll [[0]]).finish.map fun buf =>
      (OtLexPdtBloomBitsReader.ofBuf buf).mayMatch [0]) = .ok false := by
  decide

/-- A prefix query at level `2`: the OtLexPdt block builder adds whole keys only, so the filter
of a file holding `"ab"` finds the key but not its one-byte prefix `"a"`, and a range scan
from `"ab"` is told that nothing with that prefix exists. -/
theorem otLexPdtTableFilter_misses_prefix :
    createFilterBlockBuilder ⟨true, false, false, true⟩ 2 = some (.otLexPdt .otLexPdt) ∧
      writtenFilterType (.otLexPdt .otLexPdt) ⟨true, false, false, true⟩ 2 = .otLexPdtFilter ∧
      ((otLexPdtTableFilter ⟨true, false, false, true⟩ (some (fixedPrefixTransform 1))
          [[97, 98]]).map fun r =>
        (r.keyMayMatch [97, 98], r.prefixMayMatch ((fixedPrefixTransform 1).transform [97, 98]),
          (r.rangeMayExist none [97, 98] (some (fixedPrefixTransform 1)) false).1)) =
        .ok (true, false, false) :=
  ⟨rfl, rfl, rfl⟩

end RocksCloud.Table
