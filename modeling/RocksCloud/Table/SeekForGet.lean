import Mathlib
import RocksCloud.Db.MemTable
import RocksCloud.Table.BlockRead

/-!
# Point lookups with the hash index, `DataBlockIter::SeekForGetImpl`

`Get` looks a key up in a data block with `SeekForGet`. Without a hash index it is `Seek`.
With one, `SeekForGetImpl` reads the bucket of the target's user key: a collision falls back to
`Seek`; no entry sends the search to the last restart interval; otherwise the bucket names the
restart interval that holds the user key. The search then scans that one interval only, up to
the next restart point, for the first key not less than the target. Past the interval the
iterator is invalid and the answer is that the key may be in the next block; at a key of
another user key the answer is that the key is in no block; at a key of the target's user key
the iterator stays there, unless the key's type is not one of the four the lookup supports, in
which case it falls back to `Seek`.

The iterator's comparator is `InternalKeyComparator` over a user comparator `ucmp`: user keys
ascending, then the eight-byte footers (sequence number and type) descending. The hash index
tells user keys apart by their bytes, so the results below ask `ucmp` to call only equal keys
equal.
-/

set_option autoImplicit false

namespace RocksCloud.Table

open RocksCloud.Util

/-! ## Internal keys -/

/-- `InternalKey(user_key, s, t).Encode()`: the user key, then the sequence number packed with
the type. -/
def internalKey (userKey : Bytes) (s : Nat) (t : Db.ValueType) : Bytes :=
  userKey ++ encodeFixed64 (Db.packSequenceAndType s t)

/-- `ExtractValueType`: the low byte of the footer. -/
def extractValueType (internalKey : Bytes) : UInt8 := (Db.extractTag internalKey &&& 0xff).toUInt8

/-- `InternalKeyComparator::Compare` over the user comparator `ucmp`: by user key, then by the
footer, the larger footer first. -/
def internalKeyCompare (ucmp : Bytes → Bytes → Ordering) (a b : Bytes) : Ordering :=
  match ucmp (extractUserKey a) (extractUserKey b) with
  | .eq =>
      let anum := Db.extractTag a
      let bnum := Db.extractTag b
      if anum > bnum then .lt else if anum < bnum then .gt else .eq
  | r => r

/-- `DataBlockHashIndex::Lookup(data, map_offset, key)`: the byte of the key's bucket. Past the
end of the block the source reads memory that is not the block's; the model reads `0`. -/
def DataBlockHashIndex.lookup (numBuckets : UInt16) (data : Bytes) (mapOffset : UInt32)
    (key : Bytes) : UInt8 :=
  let hashValue := getSliceHash key
  let idx := (hashValue % numBuckets.toUInt32).toUInt16
  data.getD (mapOffset.toNat + idx.toNat) 0

namespace DataBlockIter

section SeekForGet

variable (cmp ucmp : Bytes → Bytes → Ordering)

/-- `SeekForGetImpl(target)` with a hash index of `numBuckets` buckets: the iterator and whether
the key may be in the block, or `none` when the `assert` on the restart index fails. -/
def seekForGetImpl (numBuckets : UInt16) (it : DataBlockIter) (target : Bytes) :
    Option (DataBlockIter × Bool) :=
  let targetUserKey := extractUserKey target
  let mapOffset := (it.restarts + it.numRestarts * 4).toUInt32
  let entry := DataBlockHashIndex.lookup numBuckets it.data mapOffset targetUserKey
  if entry = kCollision then some (it.seek cmp target, true)
  else
    -- a key without a bucket may still be in the last restart interval
    let entry := if entry = kNoEntry then (it.numRestarts.toUInt32 - 1).toUInt8 else entry
    let restartIndex := entry.toNat
    if restartIndex < it.numRestarts then
      let it := it.seekToRestartPoint restartIndex
      let limit :=
        if it.restartIndex + 1 < it.numRestarts then it.getRestartPoint (it.restartIndex + 1)
        else it.restarts
      let it := seekScanWithin cmp target limit (it.data.length + 1) it
      if it.current = it.restarts then some (it, true)
      else if ucmp (extractUserKey it.key) targetUserKey ≠ .eq then some (it, false)
      else
        let valueType := extractValueType it.key
        if valueType ≠ Db.ValueType.typeValue.toByte ∧
            valueType ≠ Db.ValueType.typeDeletion.toByte ∧
            valueType ≠ Db.ValueType.typeSingleDeletion.toByte ∧
            valueType ≠ Db.ValueType.typeBlobIndex.toByte then
          some (it.seek cmp target, true)
        else some (it, true)
    else none

/-- `SeekForGet(target)`: `Seek` when the block has no hash index. -/
def seekForGet (numBuckets : UInt16) (it : DataBlockIter) (target : Bytes) :
    Option (DataBlockIter × Bool) :=
  if numBuckets = 0 then some (it.seek cmp target, true)
  else it.seekForGetImpl cmp ucmp numBuckets target

end SeekForGet

end DataBlockIter

/-! ## The internal key order -/

section Order

variable (ucmp : Bytes → Bytes → Ordering)

/-- The internal key order is the user key order, then the footers in reverse. -/
theorem internalKeyCompare_eq (a b : Bytes) :
    internalKeyCompare ucmp a b =
      compareLex (Ordering.byKey extractUserKey ucmp)
        (fun a b => Ordering.byKey Db.extractTag compare b a) a b := by
  unfold internalKeyCompare compareLex Ordering.byKey
  cases ucmp (extractUserKey a) (extractUserKey b) with
  | lt => rfl
  | gt => rfl
  | eq =>
      dsimp only
      rw [Ordering.eq_then]
      rcases Std.lt_trichotomy (Db.extractTag a) (Db.extractTag b) with hlt | heq | hgt
      · rw [if_neg (UInt64.lt_asymm hlt), if_pos hlt, Std.compare_eq_gt.mpr hlt]
      · rw [heq, if_neg (UInt64.lt_irrefl _), if_neg (UInt64.lt_irrefl _), Std.compare_self]
      · rw [if_pos hgt, Std.compare_eq_lt.mpr hgt]

instance [Std.TransCmp ucmp] : Std.TransCmp (internalKeyCompare ucmp) := by
  have heq : internalKeyCompare ucmp = compareLex (Ordering.byKey extractUserKey ucmp)
      (fun a b => Ordering.byKey Db.extractTag compare b a) :=
    funext fun a => funext fun b => internalKeyCompare_eq ucmp a b
  rw [heq]
  infer_instance

variable {ucmp}

/-- A smaller internal key has a user key that is not larger. -/
theorem isLE_userKey_of_lt {a b : Bytes} (h : internalKeyCompare ucmp a b = .lt) :
    (ucmp (extractUserKey a) (extractUserKey b)).isLE := by
  rw [internalKeyCompare_eq, compareLex, Ordering.then_eq_lt] at h
  rcases h with h | ⟨h, -⟩
  · rw [show ucmp (extractUserKey a) (extractUserKey b) = .lt from h]
    rfl
  · rw [show ucmp (extractUserKey a) (extractUserKey b) = .eq from h]
    rfl

/-- A smaller user key makes a smaller internal key. -/
theorem lt_of_userKey_lt {a b : Bytes} (h : ucmp (extractUserKey a) (extractUserKey b) = .lt) :
    internalKeyCompare ucmp a b = .lt := by
  rw [internalKeyCompare_eq, compareLex, Ordering.then_eq_lt]
  exact Or.inl h

@[simp] theorem extractUserKey_internalKey (userKey : Bytes) (s : Nat) (t : Db.ValueType) :
    extractUserKey (internalKey userKey s t) = userKey := by
  simp [internalKey, extractUserKey, encodeFixed64_length]

end Order

/-! ## The hash index of a block -/

section HashIndex

variable {R : Nat} {useDelta : Bool} {pairs : List (Bytes × Bytes)} {numBuckets : UInt16}

variable (R useDelta pairs numBuckets) in
/-- A block with a hash index as the builder writes one: the restart interval is positive, there
is a bucket, the restart interval of every entry is one the index supports, and the block has at
most `2^16` bytes. -/
structure HashIndexFits : Prop where
  interval_pos : 0 < R
  numBuckets_ne_zero : numBuckets ≠ 0
  le_max : ∀ i < pairs.length, i / R ≤ kMaxRestartSupportedByHashIndex
  length_le : (hashIndexBlock R useDelta pairs numBuckets).length ≤ kMaxBlockSizeSupportedByHashIndex

/-- **The builder's block with a hash index fits**: it is the block with the builder's number of
buckets, whatever the `double` estimate gave. -/
theorem hashIndexFits_finish (hR : 0 < R) (indexType : DataBlockIndexType) (utilRatio : Float)
    (htype : Block.indexTypeOf
      ((BlockBuilder.new R useDelta indexType utilRatio).addAll pairs).finish =
        .dataBlockBinaryAndHash) :
    ((BlockBuilder.new R useDelta indexType utilRatio).addAll pairs).finish =
        hashIndexBlock R useDelta pairs
          ((BlockBuilder.new R useDelta indexType utilRatio).addAll
            pairs).dataBlockHashIndexBuilder.numBuckets ∧
      HashIndexFits R useDelta pairs
        ((BlockBuilder.new R useDelta indexType utilRatio).addAll
          pairs).dataBlockHashIndexBuilder.numBuckets := by
  have h := builderState_addAll R useDelta pairs hR indexType utilRatio pairs.length le_rfl
  have hh := hashIndexState_addAll R useDelta pairs hR indexType utilRatio pairs.length le_rfl
  rw [List.take_length] at h hh
  obtain ⟨hfinish, hmax, hsize⟩ := finish_eq_hashIndexBlock R useDelta pairs h hh htype
  exact ⟨hfinish, hR, DataBlockHashIndexBuilder.numBuckets_ne_zero _, hmax, hfinish ▸ hsize⟩

namespace HashIndexFits

/-- A restart interval the index supports is below the collision mark. -/
theorem toNat_toUInt8_interval (hfits : HashIndexFits R useDelta pairs numBuckets) {i : Nat}
    (hi : i < pairs.length) : (i / R).toUInt8.toNat = i / R := by
  have := hfits.le_max i hi
  unfold kMaxRestartSupportedByHashIndex at this
  simp only [Nat.toUInt8, UInt8.toNat_ofNat']
  exact Nat.mod_eq_of_lt (by omega)

/-- At most `254` restart points. -/
theorem restartCount_le (hfits : HashIndexFits R useDelta pairs numBuckets) :
    restartCount R pairs.length ≤ kMaxRestartSupportedByHashIndex + 1 := by
  unfold restartCount
  rcases Nat.eq_zero_or_pos pairs.length with hm | hm
  · rw [hm]
    simp [kMaxRestartSupportedByHashIndex]
  · have := hfits.le_max (pairs.length - 1) (by omega)
    omega

/-- The block is read by the reader's layout. -/
theorem blockOf (hfits : HashIndexFits R useDelta pairs numBuckets) :
    BlockOf R useDelta pairs (hashIndexBlock R useDelta pairs numBuckets) where
  interval_pos := hfits.interval_pos
  layout := ⟨hashBuckets R pairs numBuckets ++ encodeFixed16 numBuckets ++ encodeFixed32
      (packIndexTypeAndNumRestarts .dataBlockBinaryAndHash (restartCount R pairs.length).toUInt32),
    by simp only [hashIndexBlock, List.append_assoc]⟩
  length_lt := by
    have := hfits.length_le
    unfold kMaxBlockSizeSupportedByHashIndex at this
    omega

/-- The buckets hold the restart interval of each user key, or the collision mark. -/
theorem bucketsHold (hfits : HashIndexFits R useDelta pairs numBuckets) :
    DataBlockHashIndexBuilder.BucketsHold numBuckets (hashEntries R pairs)
      (hashBuckets R pairs numBuckets) := by
  apply DataBlockHashIndexBuilder.bucketsHold_foldl hfits.numBuckets_ne_zero
  intro e he
  obtain ⟨i, hi, rfl⟩ := List.mem_map.mp he
  rw [List.mem_range] at hi
  intro hno
  have htoNat := congrArg UInt8.toNat hno
  rw [hfits.toNat_toUInt8_interval hi] at htoNat
  have := hfits.le_max i hi
  unfold kMaxRestartSupportedByHashIndex at this
  simp [kNoEntry] at htoNat
  omega

/-- **`Lookup` reads the key's bucket** at the offset `SeekForGetImpl` computes from the restart
array. -/
theorem lookup_eq (hfits : HashIndexFits R useDelta pairs numBuckets) (key : Bytes) :
    DataBlockHashIndex.lookup numBuckets (hashIndexBlock R useDelta pairs numBuckets)
        (entryOffset R useDelta pairs pairs.length + restartCount R pairs.length * 4).toUInt32
        key =
      (hashBuckets R pairs numBuckets).getD
        (DataBlockHashIndexBuilder.bucketIndex numBuckets (getSliceHash key)) kNoEntry := by
  have hlen := length_hashIndexBlock R useDelta pairs numBuckets
  have hsize := hfits.length_le
  unfold kMaxBlockSizeSupportedByHashIndex at hsize
  have hidx := DataBlockHashIndexBuilder.bucketIndex_lt hfits.numBuckets_ne_zero (getSliceHash key)
  have hbuckets := length_hashBuckets R pairs numBuckets
  have hoffset : (entryOffset R useDelta pairs pairs.length +
      restartCount R pairs.length * 4).toUInt32.toNat =
      (entriesBytes R useDelta pairs pairs.length ++
        restartArray R useDelta pairs pairs.length).length := by
    rw [toNat_toUInt32_of_lt (by omega)]
    simp
    omega
  -- the bucket's index survives the cast to `uint16_t`
  have hidx16 : ((getSliceHash key % numBuckets.toUInt32).toUInt16).toNat =
      DataBlockHashIndexBuilder.bucketIndex numBuckets (getSliceHash key) := by
    have hlt : numBuckets.toNat < 2 ^ 16 := numBuckets.toNat_lt
    unfold DataBlockHashIndexBuilder.bucketIndex at hidx ⊢
    rw [UInt32.toNat_toUInt16]
    omega
  -- the buckets come right after the restart array
  have hsplit : hashIndexBlock R useDelta pairs numBuckets =
      (entriesBytes R useDelta pairs pairs.length ++ restartArray R useDelta pairs pairs.length) ++
        (hashBuckets R pairs numBuckets ++ (encodeFixed16 numBuckets ++ encodeFixed32
          (packIndexTypeAndNumRestarts .dataBlockBinaryAndHash
            (restartCount R pairs.length).toUInt32))) := by
    simp only [hashIndexBlock, List.append_assoc]
  have hin : DataBlockHashIndexBuilder.bucketIndex numBuckets (getSliceHash key) <
      (hashBuckets R pairs numBuckets).length := hbuckets ▸ hidx
  unfold DataBlockHashIndex.lookup
  dsimp only
  rw [hoffset, hidx16, hsplit, List.getD_eq_getElem?_getD, List.getElem?_append_right le_self_add,
    Nat.add_sub_cancel_left, List.getElem?_append_left hin, List.getElem?_eq_getElem hin,
    Option.getD_some, List.getD_eq_getElem _ _ hin]

/-- **Where a user key is**: when the key's bucket is not a collision, every entry with that user
key is in the restart interval `SeekForGetImpl` then scans, the one in the bucket or, for an
empty bucket, the last one. -/
theorem interval_of_bucket (hfits : HashIndexFits R useDelta pairs numBuckets) {key : Bytes}
    {entry : UInt8}
    (hentry : (hashBuckets R pairs numBuckets).getD
      (DataBlockHashIndexBuilder.bucketIndex numBuckets (getSliceHash key)) kNoEntry = entry)
    (hcoll : entry ≠ kCollision) :
    (if entry = kNoEntry then ((restartCount R pairs.length).toUInt32 - 1).toUInt8
      else entry).toNat < restartCount R pairs.length ∧
    ∀ i < pairs.length, extractUserKey (keyAt pairs i) = key →
      i / R = (if entry = kNoEntry then ((restartCount R pairs.length).toUInt32 - 1).toUInt8
        else entry).toNat := by
  have hold := hfits.bucketsHold
  have hmem : ∀ i < pairs.length,
      (getSliceHash (extractUserKey (keyAt pairs i)), (i / R).toUInt8) ∈ hashEntries R pairs :=
    fun i hi => List.mem_map.mpr ⟨i, List.mem_range.mpr hi, rfl⟩
  -- an entry of the key makes its bucket hold the entry's interval
  have hplaced : ∀ i < pairs.length, extractUserKey (keyAt pairs i) = key →
      entry = (i / R).toUInt8 := by
    intro i hi hkey
    rcases hold.placed _ (hmem i hi) with hv | hv <;> dsimp only at hv <;> rw [hkey, hentry] at hv
    · exact hv
    · exact absurd hv hcoll
  have hlast : restartCount R pairs.length - 1 < restartCount R pairs.length :=
    Nat.sub_lt (Nat.succ_pos _) Nat.one_pos
  by_cases hno : entry = kNoEntry
  · -- no entry of the key: the search goes to the last interval
    rw [if_pos hno]
    have hcount := hfits.restartCount_le
    unfold kMaxRestartSupportedByHashIndex at hcount
    have hpos : 1 ≤ restartCount R pairs.length := Nat.le_add_left 1 _
    have hcast : (((restartCount R pairs.length).toUInt32 - 1).toUInt8).toNat =
        restartCount R pairs.length - 1 := by
      have h1 : (1 : UInt32) ≤ (restartCount R pairs.length).toUInt32 := by
        rw [UInt32.le_iff_toNat_le, toNat_toUInt32_of_lt (by omega)]
        exact hpos
      rw [UInt32.toNat_toUInt8, UInt32.toNat_sub_of_le _ _ h1, toNat_toUInt32_of_lt (by omega)]
      simp
      omega
    refine ⟨hcast ▸ hlast, fun i hi hkey => ?_⟩
    have hv := hplaced i hi hkey
    rw [hno] at hv
    have htoNat := congrArg UInt8.toNat hv
    rw [hfits.toNat_toUInt8_interval hi] at htoNat
    have := hfits.le_max i hi
    unfold kMaxRestartSupportedByHashIndex at this
    simp [kNoEntry] at htoNat
    omega
  · rw [if_neg hno]
    refine ⟨?_, fun i hi hkey => ?_⟩
    · -- the bucket holds the interval of an entry placed in it
      rcases hold.cases (DataBlockHashIndexBuilder.bucketIndex numBuckets (getSliceHash key)) with
        hv | hv | ⟨e, he, -, hv⟩
      · exact absurd (hentry ▸ hv) hno
      · exact absurd (hentry ▸ hv) hcoll
      · obtain ⟨i, hi, rfl⟩ := List.mem_map.mp he
        rw [List.mem_range] at hi
        rw [← hentry, hv, hfits.toNat_toUInt8_interval hi]
        exact Nat.lt_succ_of_le (Nat.div_le_div_right (Nat.le_sub_one_of_lt hi))
    · rw [hplaced i hi hkey, hfits.toNat_toUInt8_interval hi]

/-- The iterator over a block with a hash index reads the block. -/
theorem onBlock_newDataIterator (hfits : HashIndexFits R useDelta pairs numBuckets) :
    OnBlock R useDelta pairs (hashIndexBlock R useDelta pairs numBuckets)
        (Block.new (hashIndexBlock R useDelta pairs numBuckets)).newDataIterator ∧
      (Block.new (hashIndexBlock R useDelta pairs numBuckets)).newDataIterator.initialized = true := by
  rw [newDataIterator_hashIndexBlock R useDelta pairs hfits.length_le]
  exact ⟨⟨rfl, rfl, rfl⟩, rfl⟩

/-- `Block`'s constructor finds the number of buckets. -/
theorem numBuckets_new (hfits : HashIndexFits R useDelta pairs numBuckets) :
    (Block.new (hashIndexBlock R useDelta pairs numBuckets)).numBuckets = numBuckets := by
  rw [new_hashIndexBlock R useDelta pairs hfits.length_le]

end HashIndexFits

end HashIndex

/-! ## Keys of one user key in a sorted block

The entries are sorted by the internal key order, so the entries of one user key are next to
each other; when all of them are in the restart interval scanned from `start`, the scan decides
the lookup. -/

section UserKeys

variable {ucmp : Bytes → Bytes → Ordering} {pairs : List (Bytes × Bytes)} {target : Bytes}

/-- Keys that increase one after the other increase throughout. -/
theorem pairwise_of_isChain [Std.TransCmp ucmp]
    (h : pairs.IsChain fun a b => internalKeyCompare ucmp a.1 b.1 = .lt) :
    pairs.Pairwise fun a b => internalKeyCompare ucmp a.1 b.1 = .lt := by
  have : Trans (fun a b : Bytes × Bytes => internalKeyCompare ucmp a.1 b.1 = .lt)
      (fun a b : Bytes × Bytes => internalKeyCompare ucmp a.1 b.1 = .lt)
      (fun a b : Bytes × Bytes => internalKeyCompare ucmp a.1 b.1 = .lt) :=
    ⟨fun hab hbc => Std.TransCmp.lt_trans hab hbc⟩
  exact List.isChain_iff_pairwise.mp h

/-- **A scan that stops at another user key**: when the scan from `start` stops at entry `j`, of
another user key, no key at or after the target has the target's user key. -/
theorem userKey_ne_of_scan [Std.LawfulEqCmp ucmp]
    (hsorted : pairs.Pairwise fun a b => internalKeyCompare ucmp a.1 b.1 = .lt)
    {start j : Nat} (hnot : internalKeyCompare ucmp (keyAt pairs j) target ≠ .lt)
    (hne : ucmp (extractUserKey (keyAt pairs j)) (extractUserKey target) ≠ .eq)
    (hbefore : ∀ l, start ≤ l → l < j → internalKeyCompare ucmp (keyAt pairs l) target = .lt)
    (hin : ∀ i < pairs.length, extractUserKey (keyAt pairs i) = extractUserKey target → start ≤ i) :
    ∀ i < pairs.length, internalKeyCompare ucmp (keyAt pairs i) target ≠ .lt →
      extractUserKey (keyAt pairs i) ≠ extractUserKey target := by
  intro i hi hge heq
  have hstart := hin i hi heq
  rcases Nat.lt_trichotomy i j with hlt | rfl | hgt
  · exact hge (hbefore i hstart hlt)
  · exact hne (heq ▸ Std.ReflCmp.compare_self)
  · -- a later key of the target's user key squeezes entry `j`'s user key onto it
    have hle := isLE_userKey_of_lt (cmp_keyAt_of_pairwise pairs hsorted hgt hi)
    rw [heq] at hle
    have hnotlt : ucmp (extractUserKey (keyAt pairs j)) (extractUserKey target) ≠ .lt :=
      fun hlt => hnot (lt_of_userKey_lt hlt)
    cases hcmp : ucmp (extractUserKey (keyAt pairs j)) (extractUserKey target) with
    | lt => exact hnotlt hcmp
    | eq => exact hne hcmp
    | gt => rw [hcmp] at hle; exact absurd hle (by decide)

/-- At entry `j` not less than the target, of another user key, the last user key of the block
is past the target's. -/
theorem last_userKey_gt [Std.TransCmp ucmp]
    (hsorted : pairs.Pairwise fun a b => internalKeyCompare ucmp a.1 b.1 = .lt)
    {j : Nat} (hj : j < pairs.length) (hnot : internalKeyCompare ucmp (keyAt pairs j) target ≠ .lt)
    (hne : ucmp (extractUserKey (keyAt pairs j)) (extractUserKey target) ≠ .eq) :
    ucmp (extractUserKey (keyAt pairs (pairs.length - 1))) (extractUserKey target) = .gt := by
  have hgt : ucmp (extractUserKey (keyAt pairs j)) (extractUserKey target) = .gt := by
    cases hcmp : ucmp (extractUserKey (keyAt pairs j)) (extractUserKey target) with
    | lt => exact absurd (lt_of_userKey_lt hcmp) hnot
    | eq => exact absurd hcmp hne
    | gt => rfl
  rcases Nat.lt_or_ge j (pairs.length - 1) with hlt | hge
  · have hle := isLE_userKey_of_lt (cmp_keyAt_of_pairwise pairs hsorted hlt (by omega))
    exact Std.OrientedCmp.gt_iff_lt.mpr
      (Std.TransCmp.lt_of_lt_of_isLE (Std.OrientedCmp.gt_iff_lt.mp hgt) hle)
  · rwa [show pairs.length - 1 = j by omega]

/-- **A scan that stops at the target's user key stops where `Seek` does**: every key before it
is less than the target. -/
theorem lt_target_of_scan [Std.LawfulEqCmp ucmp]
    (hsorted : pairs.Pairwise fun a b => internalKeyCompare ucmp a.1 b.1 = .lt)
    {start j : Nat} (hj : j < pairs.length)
    (hkey : extractUserKey (keyAt pairs j) = extractUserKey target)
    (hbefore : ∀ l, start ≤ l → l < j → internalKeyCompare ucmp (keyAt pairs l) target = .lt)
    (hin : ∀ i < pairs.length, extractUserKey (keyAt pairs i) = extractUserKey target → start ≤ i) :
    ∀ l, l < j → internalKeyCompare ucmp (keyAt pairs l) target = .lt := by
  intro l hl
  by_cases hstart : start ≤ l
  · exact hbefore l hstart hl
  · -- before the interval: a smaller user key
    have hne : extractUserKey (keyAt pairs l) ≠ extractUserKey target :=
      fun heq => hstart (hin l (Nat.lt_trans hl hj) heq)
    have hle := isLE_userKey_of_lt (cmp_keyAt_of_pairwise pairs hsorted hl hj)
    rw [hkey] at hle
    cases hcmp : ucmp (extractUserKey (keyAt pairs l)) (extractUserKey target) with
    | lt => exact lt_of_userKey_lt hcmp
    | eq => exact absurd (Std.LawfulEqCmp.eq_of_compare hcmp) hne
    | gt => rw [hcmp] at hle; exact absurd hle (by decide)

end UserKeys

/-! ## `SeekForGetImpl` against `Seek` -/

section Lookup

variable (ucmp : Bytes → Bytes → Ordering) (pairs : List (Bytes × Bytes)) (target : Bytes)

/-- What `Get` relies on from `SeekForGet(target)`, with `sought` the iterator after
`Seek(target)`: a negative answer means that no key at or after the target has its user key and
that the block's last user key is past it; a positive one leaves the iterator at the entry
`Seek` finds, or invalid with no key of the target's user key at or after the target. -/
structure SeekForGetSound (sought it : DataBlockIter) (found : Bool) : Prop where
  not_found : found = false →
    (∀ i < pairs.length, internalKeyCompare ucmp (keyAt pairs i) target ≠ .lt →
      extractUserKey (keyAt pairs i) ≠ extractUserKey target) ∧
    ucmp (extractUserKey (keyAt pairs (pairs.length - 1))) (extractUserKey target) = .gt
  at_seek : found = true → it.valid = true →
    it.current = sought.current ∧ it.key = sought.key ∧ it.value = sought.value
  past : found = true → it.valid = false →
    ∀ i < pairs.length, internalKeyCompare ucmp (keyAt pairs i) target ≠ .lt →
      extractUserKey (keyAt pairs i) ≠ extractUserKey target

variable {ucmp pairs target} {R : Nat} {useDelta : Bool} {data : Bytes}

/-- `Seek` answers as `Get` needs: from any iterator over the block it stops where `Seek` from
another one does. -/
theorem seekForGetSound_seek [Std.TransCmp ucmp] (hb : BlockOf R useDelta pairs data)
    {it₀ it : DataBlockIter} (h₀ : OnBlock R useDelta pairs data it₀)
    (hinit₀ : it₀.initialized = true) (h : OnBlock R useDelta pairs data it)
    (hinit : it.initialized = true)
    (hsorted : pairs.Pairwise fun a b => internalKeyCompare ucmp a.1 b.1 = .lt) :
    SeekForGetSound ucmp pairs target (it₀.seek (internalKeyCompare ucmp) target)
      (it.seek (internalKeyCompare ucmp) target) true := by
  refine ⟨fun hf => absurd hf (by decide), fun _ hvalid => ?_, fun _ hinvalid i hi hge => ?_⟩
  · rcases seek_spec (internalKeyCompare ucmp) target hb h hinit hsorted with
      ⟨j, hj, hat, hnot, hfirst⟩ | ⟨hpast, -⟩
    · exact hat.same_entry
        (seek_atEntry_of_first (internalKeyCompare ucmp) target hb h₀ hinit₀ hsorted hj hnot hfirst)
    · rw [hpast.not_valid] at hvalid
      exact absurd hvalid (by decide)
  · rcases seek_spec (internalKeyCompare ucmp) target hb h hinit hsorted with
      ⟨j, -, hat, -, -⟩ | ⟨-, hall⟩
    · rw [hat.valid] at hinvalid
      exact absurd hinvalid (by decide)
    · exact absurd (hall i hi) hge

/-- Entry `i` is in restart interval `i / R`. -/
theorem mem_interval (hR : 0 < R) {i r : Nat} (h : i / R = r) : r * R ≤ i ∧ i < (r + 1) * R :=
  ⟨(Nat.le_div_iff_mul_le hR).mp h.ge, (Nat.div_lt_iff_lt_mul hR).mp (h ▸ Nat.lt_succ_self _)⟩

/-- The restart interval after the last restart point ends with the entries. -/
theorem length_le_of_last (hR : 0 < R) {r : Nat} (hr : restartCount R pairs.length ≤ r + 1) :
    pairs.length ≤ (r + 1) * R := by
  unfold restartCount at hr
  rcases Nat.eq_zero_or_pos pairs.length with hm | hm
  · rw [hm]
    exact Nat.zero_le _
  · have hlt := Nat.lt_div_mul_add (a := pairs.length - 1) hR
    have hmul : ((pairs.length - 1) / R + 1) * R ≤ (r + 1) * R := Nat.mul_le_mul_right R hr
    rw [Nat.add_mul, Nat.one_mul] at hmul
    omega

/-- The end of restart interval `r` that `SeekForGetImpl` takes: the next restart point, or the
end of the entries after the last one. -/
theorem limit_seekToRestartPoint (hb : BlockOf R useDelta pairs data) {it : DataBlockIter}
    (h : OnBlock R useDelta pairs data it) (r : Nat) :
    (if (it.seekToRestartPoint r).restartIndex + 1 < (it.seekToRestartPoint r).numRestarts then
        (it.seekToRestartPoint r).getRestartPoint ((it.seekToRestartPoint r).restartIndex + 1)
      else (it.seekToRestartPoint r).restarts) =
      entryOffset R useDelta pairs (min ((r + 1) * R) pairs.length) := by
  show (if r + 1 < it.numRestarts then it.getRestartPoint (r + 1) else it.restarts) = _
  rw [h.numRestarts_eq]
  split
  · rename_i hnext
    rw [(getRestartPoint_eq hb h hnext).1, Nat.min_eq_left (mul_le_of_lt_restartCount hnext)]
  · rename_i hlast
    rw [h.restarts_eq,
      Nat.min_eq_right (length_le_of_last hb.interval_pos (Nat.not_lt.mp hlast))]

variable (ucmp) in
/-- **The scan `SeekForGetImpl` makes** when the target's bucket is not a collision: it scans
restart interval `r`, which holds every entry of the target's user key, from its restart point up
to the next one, and reads its answer off the iterator the scan stops with. -/
theorem seekForGetImpl_scan (cmp : Bytes → Bytes → Ordering) {numBuckets : UInt16}
    (hfits : HashIndexFits R useDelta pairs numBuckets)
    {it : DataBlockIter} (h : OnBlock R useDelta pairs (hashIndexBlock R useDelta pairs numBuckets) it)
    (hinit : it.initialized = true)
    (hcoll : (hashBuckets R pairs numBuckets).getD
      (DataBlockHashIndexBuilder.bucketIndex numBuckets (getSliceHash (extractUserKey target)))
      kNoEntry ≠ kCollision) :
    ∃ r it', r < restartCount R pairs.length ∧
      (∀ i < pairs.length, extractUserKey (keyAt pairs i) = extractUserKey target → i / R = r) ∧
      it'.initialized = true ∧
      ((∃ j, r * R ≤ j ∧ j < min ((r + 1) * R) pairs.length ∧
          AtEntry R useDelta pairs (hashIndexBlock R useDelta pairs numBuckets) it' j ∧
          cmp (keyAt pairs j) target ≠ .lt ∧
          ∀ l, r * R ≤ l → l < j → cmp (keyAt pairs l) target = .lt) ∨
        (Past R useDelta pairs (hashIndexBlock R useDelta pairs numBuckets) it' ∧
          ∀ l, r * R ≤ l → l < min ((r + 1) * R) pairs.length →
            cmp (keyAt pairs l) target = .lt)) ∧
      it.seekForGetImpl cmp ucmp numBuckets target =
        if it'.current = it'.restarts then some (it', true)
        else if ucmp (extractUserKey it'.key) (extractUserKey target) ≠ .eq then some (it', false)
        else if extractValueType it'.key ≠ Db.ValueType.typeValue.toByte ∧
            extractValueType it'.key ≠ Db.ValueType.typeDeletion.toByte ∧
            extractValueType it'.key ≠ Db.ValueType.typeSingleDeletion.toByte ∧
            extractValueType it'.key ≠ Db.ValueType.typeBlobIndex.toByte then
          some (it'.seek cmp target, true)
        else some (it', true) := by
  have hb := hfits.blockOf
  -- the bucket of the target's user key
  obtain ⟨entry, hentry⟩ : ∃ entry, (hashBuckets R pairs numBuckets).getD
      (DataBlockHashIndexBuilder.bucketIndex numBuckets (getSliceHash (extractUserKey target)))
      kNoEntry = entry := ⟨_, rfl⟩
  rw [hentry] at hcoll
  have hlookup : DataBlockHashIndex.lookup numBuckets it.data
      (it.restarts + it.numRestarts * 4).toUInt32 (extractUserKey target) = entry := by
    rw [h.data_eq, h.restarts_eq, h.numRestarts_eq, hfits.lookup_eq, hentry]
  -- the restart interval to scan holds every entry of the target's user key
  obtain ⟨hr, hinterval⟩ := hfits.interval_of_bucket hentry hcoll
  generalize hrdef : (if entry = kNoEntry then ((restartCount R pairs.length).toUInt32 - 1).toUInt8
    else entry).toNat = r at hr hinterval
  have hstop : min ((r + 1) * R) pairs.length ≤ pairs.length := Nat.min_le_right _ _
  have hstart : r * R ≤ min ((r + 1) * R) pairs.length :=
    le_min (Nat.mul_le_mul_right R (Nat.le_succ r)) (mul_le_of_lt_restartCount hr)
  have hfuel : min ((r + 1) * R) pairs.length - r * R <
      (it.seekToRestartPoint r).data.length + 1 := by
    have := hb.length_le
    rw [show (it.seekToRestartPoint r).data = it.data from rfl, h.data_eq]
    omega
  refine ⟨r, DataBlockIter.seekScanWithin cmp target
      (entryOffset R useDelta pairs (min ((r + 1) * R) pairs.length))
      ((it.seekToRestartPoint r).data.length + 1) (it.seekToRestartPoint r), hr, hinterval,
    (seekScanWithin_initialized cmp target _ _ _).trans hinit,
    seekScanWithin_spec cmp target hb hstop _ (r * R) (it.seekToRestartPoint r)
      (seekToRestartPoint_readyAt hb h hr) hstart hfuel, ?_⟩
  unfold DataBlockIter.seekForGetImpl
  dsimp only
  rw [hlookup, if_neg hcoll, h.numRestarts_eq, hrdef, if_pos hr, limit_seekToRestartPoint hb h r]

/-- **`SeekForGetImpl` answers as `Get` needs** on a block with a hash index of sorted keys, for
every target: the `assert` on the restart index holds, and the answer and the iterator are sound
against `Seek`. -/
theorem seekForGetImpl_spec [Std.TransCmp ucmp] [Std.LawfulEqCmp ucmp] {numBuckets : UInt16}
    (hfits : HashIndexFits R useDelta pairs numBuckets)
    (hsorted : pairs.Pairwise fun a b => internalKeyCompare ucmp a.1 b.1 = .lt)
    {it : DataBlockIter} (h : OnBlock R useDelta pairs (hashIndexBlock R useDelta pairs numBuckets) it)
    (hinit : it.initialized = true) :
    ∃ it' found, it.seekForGetImpl (internalKeyCompare ucmp) ucmp numBuckets target =
        some (it', found) ∧
      SeekForGetSound ucmp pairs target (it.seek (internalKeyCompare ucmp) target) it' found := by
  have hb := hfits.blockOf
  have hR := hfits.interval_pos
  by_cases hcoll : (hashBuckets R pairs numBuckets).getD
      (DataBlockHashIndexBuilder.bucketIndex numBuckets (getSliceHash (extractUserKey target)))
      kNoEntry = kCollision
  · -- a collision: `Seek`
    have hlookup : DataBlockHashIndex.lookup numBuckets it.data
        (it.restarts + it.numRestarts * 4).toUInt32 (extractUserKey target) = kCollision := by
      rw [h.data_eq, h.restarts_eq, h.numRestarts_eq, hfits.lookup_eq, hcoll]
    unfold DataBlockIter.seekForGetImpl
    dsimp only
    rw [hlookup, if_pos rfl]
    exact ⟨_, _, rfl, seekForGetSound_seek hb h hinit h hinit hsorted⟩
  obtain ⟨r, it', -, hinterval, hinit', hscan, hresult⟩ :=
    seekForGetImpl_scan ucmp (internalKeyCompare ucmp) hfits h hinit hcoll
  have hin : ∀ i < pairs.length, extractUserKey (keyAt pairs i) = extractUserKey target →
      r * R ≤ i :=
    fun i hi heq => (mem_interval hR (hinterval i hi heq)).1
  rw [hresult]
  rcases hscan with ⟨j, -, hj, hat, hnot, hbefore⟩ | ⟨hpast, hall⟩
  · have hjm : j < pairs.length := Nat.lt_of_lt_of_le hj (Nat.min_le_right _ _)
    have hcur : it'.current ≠ it'.restarts := by
      rw [hat.current_eq, hat.restarts_eq]
      exact (entryOffset_lt R useDelta pairs hjm).ne
    rw [if_neg hcur, hat.key_eq]
    by_cases hu : ucmp (extractUserKey (keyAt pairs j)) (extractUserKey target) = .eq
    · -- the target's user key: the scan stopped where `Seek` stops
      rw [if_neg (not_not.mpr hu)]
      have hfirst := lt_target_of_scan hsorted hjm (Std.LawfulEqCmp.eq_of_compare hu) hbefore hin
      have hseek := seek_atEntry_of_first (internalKeyCompare ucmp) target hb h hinit hsorted hjm
        hnot hfirst
      split
      · -- a type the lookup does not support: `Seek`
        exact ⟨_, _, rfl, seekForGetSound_seek hb h hinit hat.toOnBlock hinit' hsorted⟩
      · refine ⟨it', true, rfl, fun hf => absurd hf (by decide), fun _ _ => hat.same_entry hseek,
          fun _ hinvalid => ?_⟩
        rw [hat.valid] at hinvalid
        exact absurd hinvalid (by decide)
    · -- another user key: the key is in no block
      rw [if_pos hu]
      exact ⟨it', false, rfl,
        fun _ => ⟨userKey_ne_of_scan hsorted hnot hu hbefore hin, last_userKey_gt hsorted hjm hnot hu⟩,
        fun hf => absurd hf (by decide), fun hf => absurd hf (by decide)⟩
  · -- past the interval: no key of the target's user key is at or after the target
    rw [if_pos hpast.current_eq]
    refine ⟨it', true, rfl, fun hf => absurd hf (by decide), fun _ hvalid => ?_, fun _ _ => ?_⟩
    · rw [hpast.not_valid] at hvalid
      exact absurd hvalid (by decide)
    · intro i hi hge heq
      obtain ⟨hlo, hhi⟩ := mem_interval hR (hinterval i hi heq)
      exact hge (hall i hlo (lt_min hhi hi))

end Lookup

/-! ## The lookup of a user key against `Seek` -/

/-- **`SeekForGetImpl` on a block with a hash index agrees with `Seek`**: for a block of strictly
increasing internal keys with a hash index, of any number of buckets, and the lookup key of any
user key and sequence number, `SeekForGetImpl` returns; a negative answer means that no key at
or after the lookup key has its user key and that the block's last user key is past it; a
positive answer leaves the iterator at the entry `Seek` finds, or invalid with no key of the user
key at or after the lookup key. -/
theorem seekForGetImpl_agrees_with_seek {ucmp : Bytes → Bytes → Ordering} [Std.TransCmp ucmp]
    [Std.LawfulEqCmp ucmp] {R : Nat} {useDelta : Bool} {pairs : List (Bytes × Bytes)}
    {numBuckets : UInt16} (hR : 0 < R) (hn : numBuckets ≠ 0)
    (hmax : ∀ i < pairs.length, i / R ≤ kMaxRestartSupportedByHashIndex)
    (hsize : (hashIndexBlock R useDelta pairs numBuckets).length ≤
      kMaxBlockSizeSupportedByHashIndex)
    (hsorted : pairs.IsChain fun a b => internalKeyCompare ucmp a.1 b.1 = .lt)
    (u : Bytes) (s : Nat) :
    ∃ it found,
      (Block.new (hashIndexBlock R useDelta pairs numBuckets)).newDataIterator.seekForGetImpl
          (internalKeyCompare ucmp) ucmp (Block.new (hashIndexBlock R useDelta pairs numBuckets)).numBuckets
          (internalKey u s Db.kValueTypeForSeek) = some (it, found) ∧
      SeekForGetSound ucmp pairs (internalKey u s Db.kValueTypeForSeek)
        ((Block.new (hashIndexBlock R useDelta pairs numBuckets)).newDataIterator.seek
          (internalKeyCompare ucmp) (internalKey u s Db.kValueTypeForSeek)) it found := by
  have hfits : HashIndexFits R useDelta pairs numBuckets := ⟨hR, hn, hmax, hsize⟩
  obtain ⟨h, hinit⟩ := hfits.onBlock_newDataIterator
  rw [hfits.numBuckets_new]
  exact seekForGetImpl_spec hfits (pairwise_of_isChain hsorted) h hinit

/-- Two entries in one restart interval: user key `a` at sequence number `100`, then user key `b`
at `50`. -/
def twoKeyPairs : List (Bytes × Bytes) :=
  [(internalKey [0x61] 100 .typeValue, [0x78]), (internalKey [0x62] 50 .typeValue, [0x79])]

theorem seekForGetImpl_agrees_with_seek_two_keys :
    0 < 16 ∧ (3 : UInt16) ≠ 0 ∧
      (∀ i < twoKeyPairs.length, i / 16 ≤ kMaxRestartSupportedByHashIndex) ∧
      (hashIndexBlock 16 true twoKeyPairs 3).length ≤ kMaxBlockSizeSupportedByHashIndex ∧
      twoKeyPairs.IsChain (fun a b => internalKeyCompare compare a.1 b.1 = .lt) ∧
      ∃ it found,
        (Block.new (hashIndexBlock 16 true twoKeyPairs 3)).newDataIterator.seekForGetImpl
            (internalKeyCompare compare) compare (Block.new (hashIndexBlock 16 true twoKeyPairs 3)).numBuckets
            (internalKey [0x61] 60 Db.kValueTypeForSeek) = some (it, found) ∧
        SeekForGetSound compare twoKeyPairs (internalKey [0x61] 60 Db.kValueTypeForSeek)
          ((Block.new (hashIndexBlock 16 true twoKeyPairs 3)).newDataIterator.seek
            (internalKeyCompare compare) (internalKey [0x61] 60 Db.kValueTypeForSeek)) it found :=
  ⟨by decide, by decide, by decide, by decide, by decide,
    seekForGetImpl_agrees_with_seek (by decide) (by decide) (by decide) (by decide) (by decide)
      [0x61] 60⟩

/-- **A negative answer while the block holds the user key**: the lookup of `a@60` passes
`a@100`, which sorts before it, stops at `b@50` and answers that the key is in no block, for every
number of buckets, though entry `0` has user key `a`. -/
theorem seekForGetImpl_false_of_twoKeyPairs {numBuckets : UInt16} (hn : numBuckets ≠ 0)
    (hsize : (hashIndexBlock 16 true twoKeyPairs numBuckets).length ≤
      kMaxBlockSizeSupportedByHashIndex) :
    twoKeyPairs.IsChain (fun a b => internalKeyCompare compare a.1 b.1 = .lt) ∧
      (∃ it, (Block.new (hashIndexBlock 16 true twoKeyPairs numBuckets)).newDataIterator.seekForGetImpl
          (internalKeyCompare compare) compare
          (Block.new (hashIndexBlock 16 true twoKeyPairs numBuckets)).numBuckets
          (internalKey [0x61] 60 Db.kValueTypeForSeek) = some (it, false)) ∧
      extractUserKey (keyAt twoKeyPairs 0) = [0x61] := by
  have hfits : HashIndexFits 16 true twoKeyPairs numBuckets := ⟨by decide, hn, by decide, hsize⟩
  obtain ⟨h, hinit⟩ := hfits.onBlock_newDataIterator
  refine ⟨by decide, ?_, by decide⟩
  rw [hfits.numBuckets_new]
  -- both entries are in restart interval 0, so the bucket of `a` holds 0 whatever the hashes
  have hbuckets : hashBuckets 16 twoKeyPairs numBuckets =
      DataBlockHashIndexBuilder.placeInBucket numBuckets
        (DataBlockHashIndexBuilder.placeInBucket numBuckets
          (List.replicate numBuckets.toNat kNoEntry) (getSliceHash [0x61], 0))
        (getSliceHash [0x62], 0) := rfl
  have hidx := DataBlockHashIndexBuilder.bucketIndex_lt hn (getSliceHash [0x61])
  have hfirst : (DataBlockHashIndexBuilder.placeInBucket numBuckets
      (List.replicate numBuckets.toNat kNoEntry) (getSliceHash [0x61], 0)).getD
        (DataBlockHashIndexBuilder.bucketIndex numBuckets (getSliceHash [0x61])) kNoEntry = 0 := by
    rw [DataBlockHashIndexBuilder.getD_placeInBucket,
      if_pos ⟨rfl, by rw [List.length_replicate]; exact hidx⟩]
    simp [List.getD_eq_getElem?_getD, hidx]
  have hbucket : (hashBuckets 16 twoKeyPairs numBuckets).getD
      (DataBlockHashIndexBuilder.bucketIndex numBuckets
        (getSliceHash (extractUserKey (internalKey [0x61] 60 Db.kValueTypeForSeek)))) kNoEntry = 0 := by
    rw [extractUserKey_internalKey, hbuckets, DataBlockHashIndexBuilder.getD_placeInBucket, hfirst]
    split_ifs <;> simp_all
  obtain ⟨r, it', -, hinterval, -, hscan, hresult⟩ :=
    seekForGetImpl_scan compare (internalKeyCompare compare) hfits h hinit (by rw [hbucket]; decide)
  -- entry 0 has user key `a`: the scan is of interval 0, the whole block
  have hr : 0 / 16 = r := hinterval 0 (by decide) (by decide)
  rw [Nat.zero_div] at hr
  subst hr
  have hstop : min ((0 + 1) * 16) twoKeyPairs.length = 2 := by decide
  rw [hstop] at hscan
  rw [hresult]
  rcases hscan with ⟨j, -, hj, hat, hnot, -⟩ | ⟨-, hall⟩
  · -- the scan passes `a@100` and stops at `b@50`
    have hj1 : j = 1 := by
      rcases Nat.lt_succ_iff_lt_or_eq.mp hj with hj0 | rfl
      · rw [Nat.lt_one_iff.mp hj0] at hnot
        exact absurd (by decide) hnot
      · rfl
    subst hj1
    have hcur : it'.current ≠ it'.restarts := by
      rw [hat.current_eq, hat.restarts_eq]
      exact (entryOffset_lt 16 true twoKeyPairs (by decide)).ne
    rw [if_neg hcur, hat.key_eq, if_pos (by decide)]
    exact ⟨it', rfl⟩
  · exact absurd (hall 1 (by decide) (by decide)) (by decide)

/-- The same block with the three buckets the builder's estimate gives two keys at the default
ratio. -/
theorem seekForGetImpl_false_with_user_key_in_block :
    (3 : UInt16) ≠ 0 ∧
      (hashIndexBlock 16 true twoKeyPairs 3).length ≤ kMaxBlockSizeSupportedByHashIndex ∧
      twoKeyPairs.IsChain (fun a b => internalKeyCompare compare a.1 b.1 = .lt) ∧
      (∃ it, (Block.new (hashIndexBlock 16 true twoKeyPairs 3)).newDataIterator.seekForGetImpl
          (internalKeyCompare compare) compare (Block.new (hashIndexBlock 16 true twoKeyPairs 3)).numBuckets
          (internalKey [0x61] 60 Db.kValueTypeForSeek) = some (it, false)) ∧
      extractUserKey (keyAt twoKeyPairs 0) = [0x61] :=
  ⟨by decide, by decide, seekForGetImpl_false_of_twoKeyPairs (by decide) (by decide)⟩

end RocksCloud.Table
