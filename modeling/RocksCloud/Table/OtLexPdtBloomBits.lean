import Mathlib
import RocksCloud.Lib.LittleEndian
import RocksCloud.Lib.BitVector
import RocksCloud.Util.Coding
import RocksCloud.Ot.PathDecomposedTrie

/-!
# The OtLexPdt filter bits of `table/full_filter_bits_builder.h` and `util/bloom.cc`

`OtLexPdtBloomBitsBuilder` collects the keys of an SST file. `Finish` removes adjacent
duplicates, builds the compacted trie of the keys (`construct_compacted_trie`, which only
fills the `pub_` members of a lexicographic path-decomposed trie), and writes those members
into one buffer with `PutIntoCharArray`:

| field                          | bytes                         |
|--------------------------------|-------------------------------|
| `centroid_path_string`         | `uint32_t` count, `uint16_t`s |
| `labels`                       | `uint32_t` count, `uint16_t`s |
| `centroid_path_branches`       | `uint32_t` count, bytes       |
| `branching_chars`              | `uint32_t` count, bytes       |
| `m_bp` words                   | `uint32_t` count, `uint64_t`s |
| `m_bp` size                    | `uint64_t`                    |
| markers                        | `0xFF`, `80`, `7`             |

followed by zeros up to `CalculateByteSpace() + 5` bytes. `OtLexPdtBloomBitsReader` reads the
members back with `RecoverFromCharArray` and builds the trie with `instance`; `MayMatch(key)`
asks whether `index(key)` is found. Values are stored as the host (little-endian) writes them.

`recoverFromCharArray_putIntoCharArray` says the reader gets back what the writer stored, as
long as the arrays fit the `uint32_t` counts of the layout.
-/

set_option autoImplicit false

namespace RocksCloud.Table

open RocksCloud.Util RocksCloud.Lib RocksCloud.Ot

/-- The `pub_` members of the trie that `build_essential` fills: the arrays of the root subtree,
its parentheses as 64-bit words and their number of bits (`expose_private`). -/
structure PdtPubs where
  centroidPathString : List UInt16
  labels : List UInt16
  centroidPathBranches : List UInt8
  branchingChars : List UInt8
  bpBits : List UInt64
  bpSize : UInt64
  deriving Repr, DecidableEq

/-- `path_decomposed_trie::construct_compacted_trie`, that is `build_essential` over the keys
read through `stl_string_adaptor`. An empty range leaves no root, which the source then
dereferences; a builder exception is passed on. -/
def constructCompactedTrie (strings : List Bytes) : Except String PdtPubs := do
  match ← build (centroidBuilderVisitor true) strings with
  | none => .error "no root"
  | some rootNode =>
      let root := centroidRoot rootNode
      pure { centroidPathString := root.centroidPathString
             labels := root.labels
             centroidPathBranches := root.centroidPathBranches
             branchingChars := root.branchingChars
             bpBits := packWords root.bp
             bpSize := root.bp.length.toUInt64 }

/-- `path_decomposed_trie::instance`: the trie over the members, its parentheses the first
`bpSize` bits of the words and its labels split into the strings of a `vbyte_string_pool`.
The source asserts that there are as many strings as nodes; release builds do not check it. -/
def PdtPubs.instance (p : PdtPubs) : PathDecomposedTrie :=
  { bp := unpackWords p.bpBits p.bpSize.toNat
    branchingChars := p.branchingChars
    labels := vbyteStringPool p.labels }

/-! ## The buffer layout -/

section Layout

variable {α : Type}

/-- One array as `PutIntoCharArray` writes it: its element count as a `uint32_t`, then its
elements, each written by `enc`. -/
def countedArray (enc : α → Bytes) (v : List α) : Bytes :=
  encodeFixed32 v.length.toUInt32 ++ v.flatMap enc

/-- One array as `RecoverFromCharArray` reads it at byte `off`: the elements, `w` bytes each,
and the offset past them. The source adds `size * w` computed in `uint32_t`. -/
def readCountedArray (dec : Bytes → α) (w : UInt32) (buf : Bytes) (off : Nat) : List α × Nat :=
  let size := decodeFixed32 (buf.drop off)
  (readRecords dec w.toNat buf (off + 4) size.toNat, off + 4 + (size * w).toNat)

theorem countedArray_length (enc : α → Bytes) (w : Nat) (henc : ∀ a, (enc a).length = w)
    (v : List α) : (countedArray enc v).length = 4 + v.length * w := by
  simp [countedArray, henc, List.length_flatMap]

/-- A count below `2 ^ 32` is stored and read back as itself. -/
theorem toNat_count (n : Nat) (h : n < 2 ^ 32) : n.toUInt32.toNat = n := by
  rw [UInt32.toNat_ofNat', Nat.mod_eq_of_lt h]

/-- A `uint32_t` product of a count and a width that does not wrap. -/
theorem toNat_count_mul (n : Nat) (w : UInt32) (h : n * w.toNat < 2 ^ 32) :
    (n.toUInt32 * w).toNat = n * w.toNat := by
  rw [UInt32.toNat_mul, UInt32.toNat_ofNat', Nat.mod_mul_mod]
  exact Nat.mod_eq_of_lt h

/-- **Array round trip.** An array written behind `pre` is read back at the offset
`pre.length`, and the reader moves past it, as long as its elements take fewer than `2 ^ 32`
bytes. -/
theorem readCountedArray_countedArray (enc : α → Bytes) (dec : Bytes → α) (w : UInt32)
    (henc : ∀ a, (enc a).length = w.toNat) (hdec : ∀ a rest, dec (enc a ++ rest) = a)
    (hw : 0 < w.toNat) (pre rest : Bytes) (v : List α) (off : Nat) (hoff : pre.length = off)
    (hv : v.length * w.toNat < 2 ^ 32) :
    readCountedArray dec w (pre ++ (countedArray enc v ++ rest)) off =
      (v, off + (countedArray enc v).length) := by
  have hlen : v.length < 2 ^ 32 := lt_of_le_of_lt (Nat.le_mul_of_pos_right _ hw) hv
  have hsize : decodeFixed32 ((pre ++ (countedArray enc v ++ rest)).drop off) =
      v.length.toUInt32 := by
    subst hoff
    simp [countedArray, List.append_assoc]
  -- the elements lie behind the count, that is behind `pre ++ encodeFixed32 _`
  have hrecords := readRecords_flatMap enc dec w.toNat henc hdec
    (pre ++ encodeFixed32 v.length.toUInt32) rest v
  simp only [List.length_append, encodeFixed32_length, hoff, List.append_assoc] at hrecords
  simp only [readCountedArray, hsize, toNat_count _ hlen, toNat_count_mul _ _ hv,
    countedArray_length enc w.toNat henc, Prod.mk.injEq]
  exact ⟨by simpa [countedArray] using hrecords, by omega⟩

end Layout

/-- The bytes `PutIntoCharArray` writes, from the start of the buffer on: five arrays, the bit
count and the three marker bytes. -/
def charArrayContents (v1 v2 : List UInt16) (v3 v4 : List UInt8) (v5 : List UInt64)
    (num : UInt64) (newImpl subImpl fakeNumProbes : UInt8) : Bytes :=
  countedArray encodeFixed16 v1 ++ countedArray encodeFixed16 v2 ++
    countedArray (fun b => [b]) v3 ++ countedArray (fun b => [b]) v4 ++
    countedArray encodeFixed64 v5 ++ (encodeFixed64 num ++ [newImpl, subImpl, fakeNumProbes])

/-- `PutIntoCharArray`: the contents in a zeroed buffer of `byteSize` bytes. -/
def putIntoCharArray (v1 v2 : List UInt16) (v3 v4 : List UInt8) (v5 : List UInt64)
    (num : UInt64) (newImpl subImpl fakeNumProbes : UInt8) (byteSize : Nat) : Bytes :=
  let contents := charArrayContents v1 v2 v3 v4 v5 num newImpl subImpl fakeNumProbes
  contents ++ List.replicate (byteSize - contents.length) 0

/-- The byte a `char*` points at. -/
def byteAt (ptr : Bytes) : UInt8 := ptr.headD 0

/-- What `RecoverFromCharArray` restores: the members and the three marker bytes. -/
structure RecoveredCharArray where
  pubs : PdtPubs
  newImpl : UInt8
  subImpl : UInt8
  fakeNumProbes : UInt8
  deriving Repr, DecidableEq

/-- `RecoverFromCharArray`: the five arrays one after another, then the bit count and the
markers. The third marker is assigned three times, so it ends as the fifth byte after the bit
count. Bytes past the end of `buf` read as zero. -/
def recoverFromCharArray (buf : Bytes) : RecoveredCharArray :=
  let (v1, off2) := readCountedArray decodeFixed16 2 buf 0
  let (v2, off3) := readCountedArray decodeFixed16 2 buf off2
  let (v3, off4) := readCountedArray byteAt 1 buf off3
  let (v4, off5) := readCountedArray byteAt 1 buf off4
  let (v5, offNum) := readCountedArray decodeFixed64 8 buf off5
  { pubs :=
      { centroidPathString := v1
        labels := v2
        centroidPathBranches := v3
        branchingChars := v4
        bpBits := v5
        bpSize := decodeFixed64 (buf.drop offNum) }
    newImpl := byteAt (buf.drop (offNum + 8))
    subImpl := byteAt (buf.drop (offNum + 9))
    fakeNumProbes := byteAt (buf.drop (offNum + 12)) }

/-- The arrays fit the `uint32_t` counts and offset products of the layout. -/
def PdtPubs.Fits (p : PdtPubs) : Prop :=
  p.centroidPathString.length * 2 < 2 ^ 32 ∧ p.labels.length * 2 < 2 ^ 32 ∧
    p.centroidPathBranches.length < 2 ^ 32 ∧ p.branchingChars.length < 2 ^ 32 ∧
    p.bpBits.length * 8 < 2 ^ 32

/-- **Layout round trip.** `RecoverFromCharArray` reads back the members and the first two
markers that `PutIntoCharArray` wrote; the third marker reads as a padding byte. -/
theorem recoverFromCharArray_putIntoCharArray (p : PdtPubs) (hp : p.Fits)
    (newImpl subImpl fakeNumProbes : UInt8) (byteSize : Nat) :
    recoverFromCharArray (putIntoCharArray p.centroidPathString p.labels
      p.centroidPathBranches p.branchingChars p.bpBits p.bpSize newImpl subImpl fakeNumProbes
      byteSize) = ⟨p, newImpl, subImpl, 0⟩ := by
  obtain ⟨h1, h2, h3, h4, h5⟩ := hp
  -- the buffer, cut behind each array
  set C1 := countedArray encodeFixed16 p.centroidPathString
  set C2 := countedArray encodeFixed16 p.labels
  set C3 := countedArray (fun b : UInt8 => [b]) p.centroidPathBranches
  set C4 := countedArray (fun b : UInt8 => [b]) p.branchingChars
  set C5 := countedArray encodeFixed64 p.bpBits
  set T := encodeFixed64 p.bpSize ++ [newImpl, subImpl, fakeNumProbes]
  set pad := List.replicate (byteSize - (C1 ++ C2 ++ C3 ++ C4 ++ C5 ++ T).length) (0 : UInt8)
  have hbuf : putIntoCharArray p.centroidPathString p.labels p.centroidPathBranches
      p.branchingChars p.bpBits p.bpSize newImpl subImpl fakeNumProbes byteSize =
      C1 ++ C2 ++ C3 ++ C4 ++ C5 ++ T ++ pad := rfl
  rw [hbuf]
  have r1 : readCountedArray decodeFixed16 2 (C1 ++ C2 ++ C3 ++ C4 ++ C5 ++ T ++ pad) 0 =
      (p.centroidPathString, 0 + C1.length) := by
    have h := readCountedArray_countedArray encodeFixed16 decodeFixed16 2 (by simp)
      decodeFixed16_encodeFixed16 (by decide) [] (C2 ++ C3 ++ C4 ++ C5 ++ T ++ pad)
      p.centroidPathString 0 rfl h1
    simpa [List.append_assoc] using h
  have r2 : readCountedArray decodeFixed16 2 (C1 ++ C2 ++ C3 ++ C4 ++ C5 ++ T ++ pad)
      (0 + C1.length) = (p.labels, 0 + C1.length + C2.length) := by
    have h := readCountedArray_countedArray encodeFixed16 decodeFixed16 2 (by simp)
      decodeFixed16_encodeFixed16 (by decide) C1 (C3 ++ C4 ++ C5 ++ T ++ pad)
      p.labels (0 + C1.length) (by simp) h2
    simpa [List.append_assoc] using h
  have r3 : readCountedArray byteAt 1 (C1 ++ C2 ++ C3 ++ C4 ++ C5 ++ T ++ pad)
      (0 + C1.length + C2.length) =
      (p.centroidPathBranches, 0 + C1.length + C2.length + C3.length) := by
    have h := readCountedArray_countedArray (fun b : UInt8 => [b]) byteAt 1 (by simp)
      (fun _ _ => rfl) (by decide) (C1 ++ C2) (C4 ++ C5 ++ T ++ pad)
      p.centroidPathBranches (0 + C1.length + C2.length) (by simp) (by simpa using h3)
    simpa [List.append_assoc] using h
  have r4 : readCountedArray byteAt 1 (C1 ++ C2 ++ C3 ++ C4 ++ C5 ++ T ++ pad)
      (0 + C1.length + C2.length + C3.length) =
      (p.branchingChars, 0 + C1.length + C2.length + C3.length + C4.length) := by
    have h := readCountedArray_countedArray (fun b : UInt8 => [b]) byteAt 1 (by simp)
      (fun _ _ => rfl) (by decide) (C1 ++ C2 ++ C3) (C5 ++ T ++ pad)
      p.branchingChars (0 + C1.length + C2.length + C3.length) (by simp; omega) (by simpa using h4)
    simpa [List.append_assoc] using h
  have r5 : readCountedArray decodeFixed64 8 (C1 ++ C2 ++ C3 ++ C4 ++ C5 ++ T ++ pad)
      (0 + C1.length + C2.length + C3.length + C4.length) =
      (p.bpBits, 0 + C1.length + C2.length + C3.length + C4.length + C5.length) := by
    have h := readCountedArray_countedArray encodeFixed64 decodeFixed64 8 (by simp)
      decodeFixed64_encodeFixed64 (by decide) (C1 ++ C2 ++ C3 ++ C4) (T ++ pad)
      p.bpBits (0 + C1.length + C2.length + C3.length + C4.length) (by simp; omega) h5
    simpa [List.append_assoc] using h
  -- behind the arrays: the bit count, the markers and the padding
  have htail : (C1 ++ C2 ++ C3 ++ C4 ++ C5 ++ T ++ pad).drop
      (0 + C1.length + C2.length + C3.length + C4.length + C5.length) = T ++ pad := by
    rw [List.append_assoc _ T pad]
    exact List.drop_left' (by simp; omega)
  simp only [recoverFromCharArray, r1, r2, r3, r4, r5, ← List.drop_drop, htail]
  simp only [T, byteAt, pad, List.append_assoc, List.cons_append, List.drop_append]
  simp [List.head?_replicate]
  split <;> rfl

/-! ## Builder and reader -/

/-- `OtLexPdtBloomBitsBuilder`: the keys added so far (`key_strings_`). -/
structure OtLexPdtBloomBitsBuilder where
  keyStrings : List Bytes
  deriving Repr, DecidableEq

/-- A builder with no key. -/
def OtLexPdtBloomBitsBuilder.empty : OtLexPdtBloomBitsBuilder := ⟨[]⟩

/-- `OtLexPdtBloomBitsBuilder::AddKey`. -/
def OtLexPdtBloomBitsBuilder.addKey (b : OtLexPdtBloomBitsBuilder) (key : Bytes) :
    OtLexPdtBloomBitsBuilder :=
  ⟨b.keyStrings ++ [key]⟩

/-- `OtLexPdtBloomBitsBuilder::CalculateByteSpace`: the arrays, the bit count and the five
element counts. -/
def calculateByteSpace (p : PdtPubs) : Nat :=
  (p.centroidPathString.length + p.labels.length) * 2 + p.centroidPathBranches.length +
    p.branchingChars.length + p.bpBits.length * 8 + 8 + 5 * 4

/-- `OtLexPdtBloomBitsBuilder::Finish`: `std::unique` over the keys, the compacted trie, and
its members in a buffer of `CalculateByteSpace() + 5` bytes with the markers `-1`, `80`
(`'P'`) and `7`. -/
def OtLexPdtBloomBitsBuilder.finish (b : OtLexPdtBloomBitsBuilder) : Except String Bytes := do
  let keyStrings := b.keyStrings.destutter (· ≠ ·)
  let p ← constructCompactedTrie keyStrings
  let bufByteSize := calculateByteSpace p + 5
  pure (putIntoCharArray p.centroidPathString p.labels p.centroidPathBranches p.branchingChars
    p.bpBits p.bpSize 0xFF 80 7 bufByteSize)

/-- `OtLexPdtBloomBitsReader`: the trie it queries. -/
structure OtLexPdtBloomBitsReader where
  otPdt : PathDecomposedTrie
  deriving Repr, DecidableEq

/-- The reader constructed from a filter buffer: `RecoverFromCharArray`, then `instance`. -/
def OtLexPdtBloomBitsReader.ofBuf (buf : Bytes) : OtLexPdtBloomBitsReader :=
  ⟨(recoverFromCharArray buf).pubs.instance⟩

/-- `OtLexPdtBloomBitsReader::MayMatch`: whether the key has an index in the trie. -/
def OtLexPdtBloomBitsReader.mayMatch (r : OtLexPdtBloomBitsReader) (key : Bytes) : Bool :=
  (r.otPdt.index key).isSome

end RocksCloud.Table
