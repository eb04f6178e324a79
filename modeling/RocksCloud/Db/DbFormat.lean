import Mathlib
import RocksCloud.Db.WriteBatchRoundTrip
import RocksCloud.Table.SeekForGet
import RocksCloud.Util.Comparator

/-!
# Internal keys, `db/dbformat.h` and `db/dbformat.cc`

An internal key is a user key followed by an eight-byte footer: the sequence number shifted
left by eight bits and or-ed with the value type (`PackSequenceAndType`), written
little-endian (`AppendInternalKey`). `ParseInternalKey` splits the footer off again and accepts
the key when its type is one that a user operation writes (`IsExtendedValueType`).

`InternalKeyComparator::Compare` on encoded keys (`Table.internalKeyCompare`) compares the user
keys and then the two footers as unsigned 64-bit numbers, the larger first; its overload on
parsed keys compares the sequence numbers and then the types. Below the type's eight bits the
footer is the sequence number, so on keys whose sequence number fits in 56 bits the two agree.

* `parseInternalKey_appendInternalKey`: what `AppendInternalKey` writes parses back.
* `internalKeyCompare_appendInternalKey`: the packed fast path orders encoded keys as the
  parsed overload orders their triples.
* `internalKeyCompare_appendInternalKey_eq_iff`: under a user comparator that calls only equal
  keys equal, two encoded keys compare equal only when they are the same key; with the
  `Std.TransCmp` instance of `Table.internalKeyCompare` the order is total on encoded keys.

The source's `ValueType` is a byte. A byte that names no enumerator is not an extended value
type either, so `parseInternalKey` refuses it, as the source does by returning `false`.
-/

set_option autoImplicit false

namespace RocksCloud.Db

open RocksCloud.Util

/-! ## Parsed internal keys -/

/-- `IsValueType`: the types kept in memtables and data blocks. -/
def isValueType (t : ValueType) : Bool :=
  t.toByte ≤ ValueType.typeMerge.toByte || t == .typeSingleDeletion || t == .typeBlobIndex

/-- `IsExtendedValueType`: a value type or a range deletion. -/
def isExtendedValueType (t : ValueType) : Bool := isValueType t || t == .typeRangeDeletion

/-- `ParsedInternalKey`: the user key, the sequence number and the type of an internal key. -/
structure ParsedInternalKey where
  userKey : Bytes
  sequence : Nat
  type : ValueType
  deriving Repr, DecidableEq

/-- What `PackSequenceAndType` asserts of the key it packs: the sequence number fits in 56 bits
and the type is one that a user operation writes. -/
structure ParsedInternalKey.Valid (key : ParsedInternalKey) : Prop where
  sequence_le : key.sequence ≤ kMaxSequenceNumber
  extended : isExtendedValueType key.type = true

/-- `AppendInternalKey(result, key)`: the user key, then the packed footer. -/
def appendInternalKey (result : Bytes) (key : ParsedInternalKey) : Bytes :=
  putFixed64 (result ++ key.userKey) (packSequenceAndType key.sequence key.type)

/-- `ParseInternalKey(internal_key, result)`: the parsed key, or `none` where the source
returns `false`. -/
def parseInternalKey (internalKey : Bytes) : Option ParsedInternalKey :=
  let n := internalKey.length
  if n < 8 then none
  else
    let num := decodeFixed64 (internalKey.drop (n - 8))
    let c : UInt8 := (num &&& 0xff).toUInt8
    match ValueType.ofByte c with
    | some type =>
        if isExtendedValueType type then some ⟨internalKey.take (n - 8), (num >>> 8).toNat, type⟩
        else none
    | none => none

/-- `InternalKeyComparator::Compare(const ParsedInternalKey&, const ParsedInternalKey&)`: by
user key, then by sequence number descending, then by type descending. -/
def internalKeyCompareParsed (ucmp : Bytes → Bytes → Ordering) (a b : ParsedInternalKey) :
    Ordering :=
  match ucmp a.userKey b.userKey with
  | .eq =>
      if a.sequence > b.sequence then .lt
      else if a.sequence < b.sequence then .gt
      else if a.type.toByte > b.type.toByte then .lt
      else if a.type.toByte < b.type.toByte then .gt
      else .eq
  | r => r

/-- Distinct types have distinct bytes. -/
theorem toByte_injective : Function.Injective ValueType.toByte := by
  intro a b h
  have hb := ofByte_toByte b
  rw [← h, ofByte_toByte] at hb
  exact Option.some.inj hb

/-! ## The footer -/

section Footer

variable {s : Nat} (t : ValueType)

/-- Below the type's eight bits the footer is the sequence number. -/
theorem toNat_packSequenceAndType (hs : s ≤ kMaxSequenceNumber) :
    (packSequenceAndType s t).toNat = 2 ^ 8 * s + t.toByte.toNat := by
  have hs' : s < 2 ^ 56 := by
    unfold kMaxSequenceNumber at hs
    omega
  have hshl : (s.toUInt64 <<< 8).toNat = 2 ^ 8 * s := by
    rw [UInt64.toNat_shiftLeft, Nat.toUInt64_eq, UInt64.toNat_ofNat', Nat.shiftLeft_eq,
      Nat.mod_eq_of_lt (by omega : s < 2 ^ 64)]
    simp only [UInt64.toNat_ofNat, Nat.reducePow, Nat.reduceMod]
    omega
  rw [packSequenceAndType, UInt64.toNat_or, hshl, UInt8.toNat_toUInt64,
    Nat.two_pow_add_eq_or_of_lt t.toByte.toNat_lt]

/-- The type is the footer's low byte. -/
theorem toUInt8_packSequenceAndType (hs : s ≤ kMaxSequenceNumber) :
    ((packSequenceAndType s t) &&& 0xff).toUInt8 = t.toByte := by
  have hlow := Nat.and_two_pow_sub_one_eq_mod (2 ^ 8 * s + t.toByte.toNat) 8
  have hb := t.toByte.toNat_lt
  apply UInt8.toNat.inj
  rw [UInt64.toNat_toUInt8, UInt64.toNat_and, toNat_packSequenceAndType t hs]
  simp only [UInt64.toNat_ofNat, Nat.reducePow, Nat.reduceMod, Nat.reduceSub] at hlow ⊢
  rw [hlow]
  omega

/-- The sequence number is the footer shifted right by eight bits. -/
theorem shiftRight_packSequenceAndType (hs : s ≤ kMaxSequenceNumber) :
    ((packSequenceAndType s t) >>> 8).toNat = s := by
  have hb := t.toByte.toNat_lt
  rw [UInt64.toNat_shiftRight, toNat_packSequenceAndType t hs, Nat.shiftRight_eq_div_pow]
  simp only [UInt64.toNat_ofNat, Nat.reducePow, Nat.reduceMod]
  omega

/-- Footers compare as (sequence, type) pairs. -/
theorem packSequenceAndType_lt_iff {s' : Nat} (t' : ValueType) (hs : s ≤ kMaxSequenceNumber)
    (hs' : s' ≤ kMaxSequenceNumber) :
    packSequenceAndType s t < packSequenceAndType s' t' ↔
      s < s' ∨ s = s' ∧ t.toByte.toNat < t'.toByte.toNat := by
  have hb := t.toByte.toNat_lt
  have hb' := t'.toByte.toNat_lt
  rw [UInt64.lt_iff_toNat_lt, toNat_packSequenceAndType t hs, toNat_packSequenceAndType t' hs']
  omega

end Footer

/-! ## Encoded keys -/

@[simp] theorem appendInternalKey_nil (key : ParsedInternalKey) :
    appendInternalKey [] key = Table.internalKey key.userKey key.sequence key.type := by
  simp [appendInternalKey, putFixed64, Table.internalKey]

/-- The last eight bytes of an internal key are its footer. -/
theorem extractTag_internalKey (userKey : Bytes) (s : Nat) (t : ValueType) :
    extractTag (Table.internalKey userKey s t) = packSequenceAndType s t := by
  have hlen : (Table.internalKey userKey s t).length - 8 = userKey.length := by
    simp [Table.internalKey]
  rw [extractTag, hlen, Table.internalKey, List.drop_left]
  simpa using decodeFixed64_encodeFixed64 (packSequenceAndType s t) []

/-- **`ParseInternalKey` reads back what `AppendInternalKey` wrote.** -/
theorem parseInternalKey_appendInternalKey {key : ParsedInternalKey} (hkey : key.Valid) :
    parseInternalKey (appendInternalKey [] key) = some key := by
  obtain ⟨u, s, t⟩ := key
  have hlen : ¬ (Table.internalKey u s t).length < 8 := by simp [Table.internalKey]
  have htag : decodeFixed64 ((Table.internalKey u s t).drop ((Table.internalKey u s t).length - 8))
      = packSequenceAndType s t := extractTag_internalKey u s t
  have huser : (Table.internalKey u s t).take ((Table.internalKey u s t).length - 8) = u :=
    Table.extractUserKey_internalKey u s t
  rw [appendInternalKey_nil, parseInternalKey]
  simp only [if_neg hlen, htag, toUInt8_packSequenceAndType t hkey.sequence_le, ofByte_toByte,
    if_pos hkey.extended, huser, shiftRight_packSequenceAndType t hkey.sequence_le]

/-! ## The order -/

section Order

variable (ucmp : Bytes → Bytes → Ordering)

/-- **The packed fast path has the order of the parsed triples**: user key, then sequence
number descending, then type descending. -/
theorem internalKeyCompare_appendInternalKey {a b : ParsedInternalKey} (ha : a.Valid)
    (hb : b.Valid) :
    Table.internalKeyCompare ucmp (appendInternalKey [] a) (appendInternalKey [] b) =
      internalKeyCompareParsed ucmp a b := by
  rw [appendInternalKey_nil, appendInternalKey_nil]
  unfold Table.internalKeyCompare internalKeyCompareParsed
  rw [Table.extractUserKey_internalKey, Table.extractUserKey_internalKey]
  cases ucmp a.userKey b.userKey with
  | lt => rfl
  | gt => rfl
  | eq =>
      dsimp only
      rw [extractTag_internalKey, extractTag_internalKey]
      simp only [GT.gt, packSequenceAndType_lt_iff _ _ ha.sequence_le hb.sequence_le,
        packSequenceAndType_lt_iff _ _ hb.sequence_le ha.sequence_le, UInt8.lt_iff_toNat_lt]
      -- the footers compare as the pairs: each branch of one side meets one of the other
      split_ifs <;> first | rfl | omega

variable {ucmp}

/-- Under a user comparator that calls only equal keys equal, the parsed order calls only equal
keys equal. -/
theorem internalKeyCompareParsed_eq_iff [Std.LawfulEqCmp ucmp] {a b : ParsedInternalKey} :
    internalKeyCompareParsed ucmp a b = .eq ↔ a = b := by
  constructor
  · intro h
    unfold internalKeyCompareParsed at h
    cases hu : ucmp a.userKey b.userKey with
    | lt => simp [hu] at h
    | gt => simp [hu] at h
    | eq =>
        simp only [hu, GT.gt, UInt8.lt_iff_toNat_lt] at h
        have huser : a.userKey = b.userKey := Std.LawfulEqCmp.compare_eq_iff_eq.mp hu
        split_ifs at h with h1 h2 h3 h4
        have hseq : a.sequence = b.sequence := by omega
        have htype : a.type = b.type := toByte_injective (UInt8.toNat.inj (by omega))
        obtain ⟨u, s, t⟩ := a
        obtain ⟨u', s', t'⟩ := b
        simp only at huser hseq htype
        rw [huser, hseq, htype]
  · rintro rfl
    simp [internalKeyCompareParsed, Std.ReflCmp.compare_self]

/-- Two encoded keys compare equal only when they are the same key. -/
theorem internalKeyCompare_appendInternalKey_eq_iff [Std.LawfulEqCmp ucmp]
    {a b : ParsedInternalKey} (ha : a.Valid) (hb : b.Valid) :
    Table.internalKeyCompare ucmp (appendInternalKey [] a) (appendInternalKey [] b) = .eq ↔
      a = b := by
  rw [internalKeyCompare_appendInternalKey ucmp ha hb, internalKeyCompareParsed_eq_iff]

end Order

/-! ## Shortening internal keys -/

/-- `InternalKeyComparator`: the internal key order over a user comparator. -/
structure InternalKeyComparator where
  userComparator : Comparator

namespace InternalKeyComparator

/-- `InternalKeyComparator::Compare` on encoded keys. -/
def compare (icmp : InternalKeyComparator) (a b : Bytes) : Ordering :=
  Table.internalKeyCompare icmp.userComparator.compare a b

/-- `InternalKeyComparator::FindShortestSeparator`: the user keys are shortened, and a user key
that became physically shorter but logically larger gets the footer of `kMaxSequenceNumber` and
`kValueTypeForSeek`, which comes first among the keys of that user key. -/
def findShortestSeparator (icmp : InternalKeyComparator) (start limit : Bytes) : Bytes :=
  let userStart := Util.extractUserKey start
  let userLimit := Util.extractUserKey limit
  let tmp := icmp.userComparator.findShortestSeparator userStart userLimit
  if tmp.length ≤ userStart.length ∧ icmp.userComparator.compare userStart tmp = .lt then
    putFixed64 tmp (packSequenceAndType kMaxSequenceNumber kValueTypeForSeek)
  else start

/-- `InternalKeyComparator::FindShortSuccessor`, with the same footer. -/
def findShortSuccessor (icmp : InternalKeyComparator) (key : Bytes) : Bytes :=
  let userKey := Util.extractUserKey key
  let tmp := icmp.userComparator.findShortSuccessor userKey
  if tmp.length ≤ userKey.length ∧ icmp.userComparator.compare userKey tmp = .lt then
    putFixed64 tmp (packSequenceAndType kMaxSequenceNumber kValueTypeForSeek)
  else key

/-- A shortened user key with its footer is an internal key of that user key. -/
theorem putFixed64_eq_internalKey (tmp : Bytes) :
    putFixed64 tmp (packSequenceAndType kMaxSequenceNumber kValueTypeForSeek) =
      Table.internalKey tmp kMaxSequenceNumber kValueTypeForSeek := rfl

variable (icmp : InternalKeyComparator)

/-- A key whose user key is larger comes after. -/
theorem compare_internalKey_of_userKey_lt {a : Bytes} {tmp : Bytes} {s : Nat} {t : ValueType}
    (h : icmp.userComparator.compare (Util.extractUserKey a) tmp = .lt) :
    icmp.compare a (Table.internalKey tmp s t) = .lt := by
  apply Table.lt_of_userKey_lt
  rwa [Table.extractUserKey_internalKey]

variable [Std.TransCmp icmp.userComparator.compare]

theorem compare_self (a : Bytes) : icmp.compare a a = .eq :=
  show Table.internalKeyCompare _ a a = .eq from Std.ReflCmp.compare_self

/-- **The internal separator lies in `[start, limit)`** when the user comparator's shortenings
are sound: it is `start`, or its user key went up and stayed below the limit's. -/
theorem findShortestSeparator_sound (hsound : icmp.userComparator.ShorteningSound) {a b : Bytes}
    (hab : icmp.compare a b = .lt) :
    icmp.compare a (icmp.findShortestSeparator a b) ≠ .gt ∧
      icmp.compare (icmp.findShortestSeparator a b) b = .lt := by
  unfold findShortestSeparator
  dsimp only
  split_ifs with hcond
  · obtain ⟨_, hup⟩ := hcond
    rw [putFixed64_eq_internalKey]
    refine ⟨?_, ?_⟩
    · rw [compare_internalKey_of_userKey_lt icmp hup]
      decide
    · apply Table.lt_of_userKey_lt
      rw [Table.extractUserKey_internalKey]
      -- the user keys of `a < b` are in order, and equal ones leave no room above
      have hle := Table.isLE_userKey_of_lt hab
      cases hu : icmp.userComparator.compare (Util.extractUserKey a) (Util.extractUserKey b) with
      | lt => exact (hsound.separator_lt _ _ hu).2.1
      | eq => exact absurd hup (hsound.separator_eq _ _ hu)
      | gt =>
          rw [hu] at hle
          cases hle
  · rw [compare_self]
    exact ⟨by decide, hab⟩

/-- **The internal successor is not below the key.** -/
theorem findShortSuccessor_sound (a : Bytes) : icmp.compare a (icmp.findShortSuccessor a) ≠ .gt := by
  unfold findShortSuccessor
  dsimp only
  split_ifs with hcond
  · rw [putFixed64_eq_internalKey, compare_internalKey_of_userKey_lt icmp hcond.2]
    decide
  · rw [compare_self]
    decide

end InternalKeyComparator

/-- **Internal keys and varints round trip, and the packed comparison is the parsed one.** -/
theorem internalKey_and_varint_codecs :
    (∀ key : ParsedInternalKey, key.Valid →
      parseInternalKey (appendInternalKey [] key) = some key) ∧
    (∀ (ucmp : Bytes → Bytes → Ordering) (a b : ParsedInternalKey), a.Valid → b.Valid →
      Table.internalKeyCompare ucmp (appendInternalKey [] a) (appendInternalKey [] b) =
        internalKeyCompareParsed ucmp a b) ∧
    Std.TransCmp (Table.internalKeyCompare (compare : Bytes → Bytes → Ordering)) ∧
    (∀ a b : ParsedInternalKey, a.Valid → b.Valid →
      (Table.internalKeyCompare compare (appendInternalKey [] a) (appendInternalKey [] b) = .eq ↔
        a = b)) ∧
    (∀ (x : UInt32) (rest : Bytes), getVarint32 (putVarint32 [] x ++ rest) =
      some (x, (putVarint32 [] x ++ rest).drop (varintLength x.toUInt64))) ∧
    (∀ (x : UInt64) (rest : Bytes), getVarint64 (putVarint64 [] x ++ rest) =
      some (x, (putVarint64 [] x ++ rest).drop (varintLength x))) ∧
    (∀ (x : UInt32) (j : Nat), j < (putVarint32 [] x).length →
      getVarint32Ptr ((putVarint32 [] x).take j) = none) ∧
    (∀ (x : UInt64) (j : Nat), j < (putVarint64 [] x).length →
      getVarint64Ptr ((putVarint64 [] x).take j) = none) := by
  refine ⟨fun key hkey => parseInternalKey_appendInternalKey hkey,
    fun ucmp a b ha hb => internalKeyCompare_appendInternalKey ucmp ha hb, inferInstance,
    fun a b ha hb => internalKeyCompare_appendInternalKey_eq_iff ha hb,
    getVarint32_putVarint32, getVarint64_putVarint64, ?_, ?_⟩
  · intro x j hj
    exact getVarint32Ptr_take_encodeVarint32 x hj
  · intro x j hj
    exact getVarint64Ptr_take_encodeVarint64 x hj

/-- The key `("a", 100, kTypeValue)` parses back and comes before `("a", 50, kTypeValue)`, and the
first byte of the two-byte varint `300` alone is refused. -/
theorem internalKey_and_varint_codecs_at_sample :
    parseInternalKey (appendInternalKey [] ⟨[0x61], 100, .typeValue⟩) =
        some ⟨[0x61], 100, .typeValue⟩ ∧
      Table.internalKeyCompare compare (appendInternalKey [] ⟨[0x61], 100, .typeValue⟩)
        (appendInternalKey [] ⟨[0x61], 50, .typeValue⟩) = .lt ∧
      getVarint32Ptr ((putVarint32 [] 300).take 1) = none :=
  ⟨internalKey_and_varint_codecs.1 _ ⟨by decide, rfl⟩,
    (internalKey_and_varint_codecs.2.1 compare _ _ ⟨by decide, rfl⟩ ⟨by decide, rfl⟩).trans
      (by decide),
    internalKey_and_varint_codecs.2.2.2.2.2.2.1 300 1 (by decide)⟩

end RocksCloud.Db
