import Mathlib
import RocksCloud.Table.Block

/-!
# The format of a data block

For a restart interval `R`, the choice of delta encoding and a list of pairs, the block that
`BlockBuilder` writes is laid out here by index: entry `i` is written at `entryOffset i`, shares
`sharedAt i` key bytes with the key before it (none at a restart point, every `R` entries), and
the restart array lists the offsets of entries `0, R, 2R, ...` after the last entry.

`builderState_addAll` follows the builder pair by pair, and `hashIndexState_addAll` its hash
index: the user key of every entry with the restart interval the entry is in, as long as the
index stays valid. A block that says it has a hash index got one from `Finish`
(`hashIndex_of_indexTypeOf_finish`); `finish_of_hashIndex` gives its bytes: entries, restart
array, buckets, their number and the footer, as many bytes as the builder estimated. That is
`hashIndexBlock` with the builder's number of buckets (`finish_eq_hashIndexBlock`), and
`new_hashIndexBlock` reads a block of that shape back with `Block`'s constructor, which finds
the restart array and the buckets where the builder put them, whatever their number.
-/

set_option autoImplicit false

namespace RocksCloud.Table

open RocksCloud.Util

/-! ## The footer -/

/-- A number below `2^k` has bit `k` clear. -/
theorem and_two_pow_of_lt {n k : Nat} (h : n < 2 ^ k) : n &&& 2 ^ k = 0 := by
  apply Nat.eq_of_testBit_eq
  intro i
  rw [Nat.testBit_and, Nat.testBit_two_pow, Nat.zero_testBit]
  by_cases hi : k = i
  · subst hi
    rw [Nat.testBit_eq_false_of_lt h]
    rfl
  · simp [hi]

/-- Setting bit `k` of a number below `2^k` and masking the low `k` bits gives it back. -/
theorem or_two_pow_and_of_lt {n k : Nat} (h : n < 2 ^ k) : (n ||| 2 ^ k) &&& (2 ^ k - 1) = n := by
  rw [Nat.and_two_pow_sub_one_eq_mod]
  apply Nat.eq_of_testBit_eq
  intro i
  rw [Nat.testBit_mod_two_pow, Nat.testBit_or, Nat.testBit_two_pow]
  by_cases hi : i < k
  · have hne : k ≠ i := by omega
    simp [hi, hne]
  · -- above bit `k` the number has no bits
    have hn : n.testBit i = false :=
      Nat.testBit_eq_false_of_lt (lt_of_lt_of_le h (Nat.pow_le_pow_right (by norm_num) (by omega)))
    simp [hi, hn]

/-- The top bit and the mask of the footer, as numbers. -/
theorem toNat_indexTypeBit : ((1 : UInt32) <<< 31).toNat = 2 ^ 31 := by decide

theorem toNat_kNumRestartsMask : kNumRestartsMask.toNat = 2 ^ 31 - 1 := by decide

/-- The footer of a block without hash index reads back. -/
theorem unPack_pack_binarySearch (numRestarts : Nat) (h : numRestarts < 2 ^ 31) :
    unPackIndexTypeAndNumRestarts
        (packIndexTypeAndNumRestarts .dataBlockBinarySearch numRestarts.toUInt32) =
      (.dataBlockBinarySearch, numRestarts.toUInt32) := by
  have hmod : numRestarts % 2 ^ 32 = numRestarts := Nat.mod_eq_of_lt (by omega)
  have hbit : numRestarts.toUInt32 &&& ((1 : UInt32) <<< 31) = 0 := by
    apply UInt32.toNat_inj.mp
    rw [UInt32.toNat_and, toNat_indexTypeBit, Nat.toUInt32, UInt32.toNat_ofNat', hmod]
    exact and_two_pow_of_lt h
  have hmask : numRestarts.toUInt32 &&& kNumRestartsMask = numRestarts.toUInt32 := by
    apply UInt32.toNat_inj.mp
    rw [UInt32.toNat_and, toNat_kNumRestartsMask, Nat.toUInt32, UInt32.toNat_ofNat', hmod,
      Nat.and_two_pow_sub_one_eq_mod, Nat.mod_eq_of_lt h]
  simp [unPackIndexTypeAndNumRestarts, packIndexTypeAndNumRestarts, hbit, hmask]

/-- The footer of a block with hash index reads back. -/
theorem unPack_pack_binaryAndHash (numRestarts : Nat) (h : numRestarts < 2 ^ 31) :
    unPackIndexTypeAndNumRestarts
        (packIndexTypeAndNumRestarts .dataBlockBinaryAndHash numRestarts.toUInt32) =
      (.dataBlockBinaryAndHash, numRestarts.toUInt32) := by
  have hmod : numRestarts % 2 ^ 32 = numRestarts := Nat.mod_eq_of_lt (by omega)
  have hbit : (numRestarts.toUInt32 ||| ((1 : UInt32) <<< 31)) &&& ((1 : UInt32) <<< 31) ≠ 0 := by
    intro hzero
    have hn := congrArg UInt32.toNat hzero
    rw [UInt32.toNat_and, UInt32.toNat_or, toNat_indexTypeBit, Nat.toUInt32, UInt32.toNat_ofNat',
      hmod, Nat.and_comm, Nat.and_or_distrib_left, Nat.and_comm, and_two_pow_of_lt h,
      Nat.and_self] at hn
    simp at hn
  have hmask : (numRestarts.toUInt32 ||| ((1 : UInt32) <<< 31)) &&& kNumRestartsMask =
      numRestarts.toUInt32 := by
    apply UInt32.toNat_inj.mp
    rw [UInt32.toNat_and, UInt32.toNat_or, toNat_kNumRestartsMask, toNat_indexTypeBit,
      Nat.toUInt32, UInt32.toNat_ofNat', hmod]
    exact or_two_pow_and_of_lt h
  simp [unPackIndexTypeAndNumRestarts, packIndexTypeAndNumRestarts, hbit, hmask]

/-! ## The layout of the entries -/

section Layout

variable (R : Nat) (useDelta : Bool) (pairs : List (Bytes × Bytes))

/-- The key of pair `i`. -/
def keyAt (i : Nat) : Bytes := (pairs.getD i ([], [])).1

/-- The value of pair `i`. -/
def valueAt (i : Nat) : Bytes := (pairs.getD i ([], [])).2

/-- The key bytes entry `i` shares with the key before it: none at a restart point, nor
without delta encoding. -/
def sharedAt (i : Nat) : Nat :=
  if useDelta ∧ i % R ≠ 0 then differenceOffset (keyAt pairs i) (keyAt pairs (i - 1)) else 0

/-- The three varints that start entry `i`. -/
def entryHeader (i : Nat) : Bytes :=
  encodeVarint32 (sharedAt R useDelta pairs i).toUInt32 ++
    encodeVarint32 ((keyAt pairs i).length - sharedAt R useDelta pairs i).toUInt32 ++
    encodeVarint32 (valueAt pairs i).length.toUInt32

/-- Entry `i`: its header, the unshared key bytes and the value. -/
def entryBytes (i : Nat) : Bytes :=
  entryHeader R useDelta pairs i ++ (keyAt pairs i).drop (sharedAt R useDelta pairs i) ++
    valueAt pairs i

/-- The offset of entry `i`. -/
def entryOffset (i : Nat) : Nat :=
  ((List.range i).map fun j => (entryBytes R useDelta pairs j).length).sum

/-- The first `m` entries. -/
def entriesBytes (m : Nat) : Bytes := (List.range m).flatMap (entryBytes R useDelta pairs)

/-- The number of restart points among the first `m` entries; the builder starts with one. -/
def restartCount (m : Nat) : Nat := (m - 1) / R + 1

/-- The offsets of the restart points among the first `m` entries, as `uint32_t`. -/
def restartPoints (m : Nat) : List UInt32 :=
  (List.range (restartCount R m)).map fun j => (entryOffset R useDelta pairs (j * R)).toUInt32

/-- The restart array `Finish` writes for the first `m` entries. -/
def restartArray (m : Nat) : Bytes := (restartPoints R useDelta pairs m).flatMap encodeFixed32

theorem entriesBytes_succ (m : Nat) :
    entriesBytes R useDelta pairs (m + 1) =
      entriesBytes R useDelta pairs m ++ entryBytes R useDelta pairs m := by
  simp [entriesBytes, List.range_succ]

theorem entryOffset_succ (m : Nat) :
    entryOffset R useDelta pairs (m + 1) =
      entryOffset R useDelta pairs m + (entryBytes R useDelta pairs m).length := by
  simp [entryOffset, List.range_succ]

@[simp] theorem length_entriesBytes (m : Nat) :
    (entriesBytes R useDelta pairs m).length = entryOffset R useDelta pairs m := by
  induction m with
  | zero => rfl
  | succ m ih => rw [entriesBytes_succ, List.length_append, ih, entryOffset_succ]

@[simp] theorem length_restartArray (m : Nat) :
    (restartArray R useDelta pairs m).length = 4 * restartCount R m := by
  simp [restartArray, restartPoints, List.length_flatMap, Function.comp_def, List.map_const',
    List.sum_replicate, Nat.mul_comm]

/-- An entry has at least its three header bytes. -/
theorem three_le_length_entryBytes (i : Nat) : 3 ≤ (entryBytes R useDelta pairs i).length := by
  have h1 := Lib.Leb128.encode_ne_nil 5 (sharedAt R useDelta pairs i).toUInt32.toNat (by norm_num)
  have h2 := Lib.Leb128.encode_ne_nil 5
    ((keyAt pairs i).length - sharedAt R useDelta pairs i).toUInt32.toNat (by norm_num)
  have h3 := Lib.Leb128.encode_ne_nil 5 (valueAt pairs i).length.toUInt32.toNat (by norm_num)
  rw [← encodeVarint32_eq, ← List.length_pos_iff] at h1 h2 h3
  simp only [entryBytes, entryHeader, List.length_append]
  omega

/-- Offsets grow with the index, by at least three bytes an entry. -/
theorem entryOffset_add_le (i k : Nat) :
    entryOffset R useDelta pairs i + 3 * k ≤ entryOffset R useDelta pairs (i + k) := by
  induction k with
  | zero => simp
  | succ k ih =>
      rw [← Nat.add_assoc, entryOffset_succ]
      have := three_le_length_entryBytes R useDelta pairs (i + k)
      omega

/-- Offsets tell entries apart. -/
theorem entryOffset_lt {i j : Nat} (h : i < j) :
    entryOffset R useDelta pairs i < entryOffset R useDelta pairs j := by
  have := entryOffset_add_le R useDelta pairs i (j - i)
  rw [Nat.add_sub_cancel' h.le] at this
  omega

theorem entryOffset_le {i j : Nat} (h : i ≤ j) :
    entryOffset R useDelta pairs i ≤ entryOffset R useDelta pairs j := by
  rcases Nat.eq_or_lt_of_le h with rfl | hlt
  · exact le_rfl
  · exact (entryOffset_lt R useDelta pairs hlt).le

end Layout

/-! ## Restart points -/

section Restarts

variable {R : Nat}

/-- The builder's counter reaches the interval exactly before an entry whose index is a multiple
of `R`. -/
theorem counter_ge_iff (hR : 0 < R) {m : Nat} (hm : m ≠ 0) :
    (m - 1) % R + 1 ≥ R ↔ m % R = 0 := by
  have hlt := Nat.mod_lt (m - 1) hR
  have hmod : m % R = ((m - 1) % R + 1) % R := by
    rw [Nat.mod_add_mod, Nat.sub_add_cancel (Nat.one_le_iff_ne_zero.mpr hm)]
  rw [hmod]
  constructor
  · intro hge
    rw [show (m - 1) % R + 1 = R by omega, Nat.mod_self]
  · intro hzero
    by_contra hlt'
    rw [Nat.mod_eq_of_lt (by omega)] at hzero
    omega

/-- Inside an interval the counter is the index modulo `R`. -/
theorem mod_eq_counter {m : Nat} (hm : m ≠ 0) (hlt : (m - 1) % R + 1 < R) :
    m % R = (m - 1) % R + 1 := by
  have hmod : m % R = ((m - 1) % R + 1) % R := by
    rw [Nat.mod_add_mod, Nat.sub_add_cancel (Nat.one_le_iff_ne_zero.mpr hm)]
  rw [hmod, Nat.mod_eq_of_lt hlt]

/-- At a restart point the count of restarts goes up by one, and the new one is entry `m`. -/
theorem restartCount_succ_of_mod_eq_zero (hR : 0 < R) {m : Nat} (hm : m ≠ 0)
    (hmod : m % R = 0) :
    restartCount R (m + 1) = restartCount R m + 1 ∧ restartCount R m * R = m := by
  obtain ⟨q, rfl⟩ := Nat.dvd_of_mod_eq_zero hmod
  have hq : q ≠ 0 := by
    rintro rfl
    simp at hm
  have hcomm : R * q = q * R := Nat.mul_comm R q
  have hdiv : (R * q - 1) / R = q - 1 := by
    apply Nat.div_eq_of_lt_le
    · rw [Nat.sub_one_mul]
      omega
    · rw [Nat.sub_add_cancel (Nat.one_le_iff_ne_zero.mpr hq)]
      omega
  unfold restartCount
  rw [Nat.add_sub_cancel, Nat.mul_div_cancel_left q hR, hdiv,
    Nat.sub_add_cancel (Nat.one_le_iff_ne_zero.mpr hq)]
  exact ⟨rfl, hcomm.symm⟩

/-- Inside an interval the count of restarts stays. -/
theorem restartCount_succ_of_mod_ne_zero (hR : 0 < R) {m : Nat} (hmod : m % R ≠ 0) :
    restartCount R (m + 1) = restartCount R m := by
  have hm : m ≠ 0 := by
    rintro rfl
    simp at hmod
  have hlt : (m - 1) % R + 1 < R := by
    by_contra hge
    exact hmod ((counter_ge_iff hR hm).mp (by omega))
  have hsplit := Nat.div_add_mod (m - 1) R
  have hdiv : m / R = (m - 1) / R := by
    apply Nat.div_eq_of_lt_le
    · rw [Nat.mul_comm]
      omega
    · rw [Nat.add_mul, Nat.one_mul, Nat.mul_comm]
      omega
  unfold restartCount
  rw [Nat.add_sub_cancel, hdiv]

/-- Restart point `j` of the first `m` entries is one of them. -/
theorem mul_lt_of_lt_restartCount {m j : Nat} (hm : m ≠ 0) (hj : j < restartCount R m) :
    j * R < m := by
  unfold restartCount at hj
  have hle : j ≤ (m - 1) / R := by omega
  have := Nat.mul_le_of_le_div R j (m - 1) hle
  omega

end Restarts

/-! ## The builder follows the layout -/

namespace BlockBuilder

/-- The number of key bytes `Add` shares with the last key: none at a restart point or without
delta encoding. -/
def sharedFor (b : BlockBuilder) (key : Bytes) : Nat :=
  if b.counter ≥ b.blockRestartInterval then 0
  else if b.useDeltaEncoding then differenceOffset key b.lastKey else 0

/-- What `Add` does to each field the block depends on. -/
theorem add_fields (b : BlockBuilder) (key value : Bytes) :
    (b.add key value).blockRestartInterval = b.blockRestartInterval ∧
    (b.add key value).useDeltaEncoding = b.useDeltaEncoding ∧
    (b.add key value).buffer = putVarint32Varint32Varint32 b.buffer (b.sharedFor key).toUInt32
      (key.length - b.sharedFor key).toUInt32 value.length.toUInt32 ++
      key.drop (b.sharedFor key) ++ value ∧
    (b.add key value).restarts =
      (if b.counter ≥ b.blockRestartInterval then b.restarts ++ [b.buffer.length.toUInt32]
        else b.restarts) ∧
    (b.add key value).counter =
      (if b.counter ≥ b.blockRestartInterval then 0 else b.counter) + 1 ∧
    (b.add key value).lastKey = (if b.useDeltaEncoding then key else b.lastKey) ∧
    (b.add key value).estimate = b.estimate + (if b.counter ≥ b.blockRestartInterval then 4 else 0)
      + ((b.add key value).buffer.length - b.buffer.length) := by
  unfold add sharedFor
  by_cases hrestart : b.counter ≥ b.blockRestartInterval
  · simp only [if_pos hrestart]
    simp
  · simp only [if_neg hrestart]
    cases hd : b.useDeltaEncoding <;> simp [hd]

end BlockBuilder

section Builder

variable (R : Nat) (useDelta : Bool) (pairs : List (Bytes × Bytes))

/-- The builder after the first `m` pairs. -/
structure BuilderState (b : BlockBuilder) (m : Nat) : Prop where
  interval : b.blockRestartInterval = R
  delta : b.useDeltaEncoding = useDelta
  buffer : b.buffer = entriesBytes R useDelta pairs m
  restarts : b.restarts = restartPoints R useDelta pairs m
  counter : b.counter = if m = 0 then 0 else (m - 1) % R + 1
  lastKey : useDelta → b.lastKey = if m = 0 then [] else keyAt pairs (m - 1)
  estimate : b.estimate = 8 + b.buffer.length + 4 * (b.restarts.length - 1)

/-- A new builder has written nothing. -/
theorem builderState_new (indexType : DataBlockIndexType) (utilRatio : Float) :
    BuilderState R useDelta pairs (BlockBuilder.new R useDelta indexType utilRatio) 0 where
  interval := rfl
  delta := rfl
  buffer := rfl
  restarts := by simp [restartPoints, restartCount, entryOffset]; rfl
  counter := rfl
  lastKey := fun _ => rfl
  estimate := rfl

/-- Nothing is shared with the empty key the builder starts from. -/
theorem differenceOffset_nil (a : Bytes) : differenceOffset a [] = 0 := by
  cases a <;> rfl

/-- The builder shares what the layout says entry `m` shares. -/
theorem sharedFor_eq (hR : 0 < R) {b : BlockBuilder} {m : Nat}
    (h : BuilderState R useDelta pairs b m) :
    b.sharedFor (keyAt pairs m) = sharedAt R useDelta pairs m := by
  unfold BlockBuilder.sharedFor sharedAt
  rw [h.interval, h.delta, h.counter]
  by_cases hm : m = 0
  · -- the first entry: a restart point, and the last key is empty
    subst hm
    have hlast := h.lastKey
    simp only [if_true, Nat.zero_mod, ne_eq, not_true_eq_false, and_false, if_false]
    split
    · omega
    · cases useDelta
      · rfl
      · simp [hlast rfl, differenceOffset_nil]
  · rw [if_neg hm]
    by_cases hge : (m - 1) % R + 1 ≥ R
    · have hmod := (counter_ge_iff hR hm).mp hge
      simp [hge, hmod]
    · have hmod : m % R ≠ 0 := fun hzero => hge ((counter_ge_iff hR hm).mpr hzero)
      rw [if_neg hge]
      cases useDelta
      · simp
      · simp [h.lastKey rfl, hm, hmod]

/-- `Add` of pair `m` appends entry `m`, and a restart point when the interval is full. -/
theorem builderState_add (hR : 0 < R) {b : BlockBuilder} {m : Nat}
    (h : BuilderState R useDelta pairs b m) :
    BuilderState R useDelta pairs (b.add (keyAt pairs m) (valueAt pairs m)) (m + 1) := by
  obtain ⟨hint, hdelta, hbuf, hres, hcount, hlast, hest⟩ :=
    BlockBuilder.add_fields b (keyAt pairs m) (valueAt pairs m)
  have hgrow : b.buffer.length ≤ (b.add (keyAt pairs m) (valueAt pairs m)).buffer.length := by
    rw [hbuf]
    simp [putVarint32Varint32Varint32]
  have hshared := sharedFor_eq R useDelta pairs hR h
  have hentry : (b.add (keyAt pairs m) (valueAt pairs m)).buffer =
      entriesBytes R useDelta pairs (m + 1) := by
    rw [hbuf, hshared, entriesBytes_succ, ← h.buffer]
    simp [putVarint32Varint32Varint32, entryBytes, entryHeader]
  by_cases hrestart : b.counter ≥ b.blockRestartInterval
  · -- a restart point: entry `m` is the next multiple of `R`
    have hm : m ≠ 0 := by
      rintro rfl
      rw [h.counter, h.interval] at hrestart
      simp only [if_true] at hrestart
      omega
    have hmod : m % R = 0 := by
      rw [h.counter, if_neg hm, h.interval] at hrestart
      exact (counter_ge_iff hR hm).mp hrestart
    obtain ⟨hcount', hmul⟩ := restartCount_succ_of_mod_eq_zero hR hm hmod
    refine ⟨by rw [hint, h.interval], by rw [hdelta, h.delta], hentry, ?_, ?_, ?_, ?_⟩
    · rw [hres, if_pos hrestart, h.restarts, h.buffer, length_entriesBytes]
      simp only [restartPoints, hcount', List.range_succ, List.map_append, List.map_cons,
        List.map_nil, hmul]
    · rw [hcount, if_pos hrestart]
      simp [hmod]
    · intro hd
      rw [hlast, h.delta, if_pos hd]
      simp
    · rw [hest, h.estimate, if_pos hrestart, hres, if_pos hrestart]
      simp only [List.length_append, List.length_singleton]
      have hpos : 1 ≤ b.restarts.length := by
        rw [h.restarts]
        simp [restartPoints, restartCount]
      omega
  · -- inside an interval
    have hcount' : restartCount R (m + 1) = restartCount R m := by
      by_cases hm : m = 0
      · subst hm
        rfl
      · have hmod : m % R ≠ 0 := by
          intro hzero
          apply hrestart
          rw [h.counter, if_neg hm, h.interval]
          exact (counter_ge_iff hR hm).mpr hzero
        exact restartCount_succ_of_mod_ne_zero hR hmod
    refine ⟨by rw [hint, h.interval], by rw [hdelta, h.delta], hentry, ?_, ?_, ?_, ?_⟩
    · rw [hres, if_neg hrestart, h.restarts]
      simp only [restartPoints, hcount']
    · rw [hcount, if_neg hrestart, h.counter]
      by_cases hm : m = 0
      · subst hm
        simp
      · have hlt : (m - 1) % R + 1 < R := by
          rw [h.counter, if_neg hm, h.interval] at hrestart
          omega
        simp [hm, mod_eq_counter hm hlt]
    · intro hd
      rw [hlast, h.delta, if_pos hd]
      simp
    · rw [hest, h.estimate, if_neg hrestart, hres, if_neg hrestart]
      omega

/-- The builder after `Add` of the first `m` pairs. -/
theorem builderState_addAll (hR : 0 < R) (indexType : DataBlockIndexType) (utilRatio : Float)
    (m : Nat) (hm : m ≤ pairs.length) :
    BuilderState R useDelta pairs
      ((BlockBuilder.new R useDelta indexType utilRatio).addAll (pairs.take m)) m := by
  induction m with
  | zero => exact builderState_new R useDelta pairs indexType utilRatio
  | succ m ih =>
      have hlt : m < pairs.length := by omega
      have hpair : pairs[m] = (keyAt pairs m, valueAt pairs m) := by
        simp [keyAt, valueAt, List.getElem?_eq_getElem hlt]
      rw [List.take_add_one, List.getElem?_eq_getElem hlt, Option.toList_some, BlockBuilder.addAll,
        List.foldl_append, List.foldl_cons, List.foldl_nil, hpair]
      exact builderState_add R useDelta pairs hR (ih (by omega))

/-! ## The hash index the builder keeps -/

/-- The restart index `Add` gives the hash index: that of the last restart point. -/
theorem add_hashIndex (b : BlockBuilder) (key value : Bytes) :
    (b.add key value).dataBlockHashIndexBuilder =
      if b.dataBlockHashIndexBuilder.isValid then
        b.dataBlockHashIndexBuilder.add (extractUserKey key) ((b.add key value).restarts.length - 1)
      else b.dataBlockHashIndexBuilder := by
  unfold BlockBuilder.add
  by_cases hrestart : b.counter ≥ b.blockRestartInterval
  · simp only [if_pos hrestart]
  · simp only [if_neg hrestart]
    split <;> rfl

/-- Entry `m` is in restart interval `m / R`. -/
theorem restartCount_succ_sub_one (m : Nat) : restartCount R (m + 1) - 1 = m / R := by
  simp [restartCount]

/-- The hash index after the first `m` pairs: while it is valid it holds the hash of the user
key of every entry with the restart interval of the entry, and no interval is past the last one
the index supports. -/
structure HashIndexState (b : BlockBuilder) (m : Nat) : Prop where
  pairs : b.dataBlockHashIndexBuilder.isValid = true →
    b.dataBlockHashIndexBuilder.hashAndRestartPairs =
      (List.range m).map fun i => (getSliceHash (extractUserKey (keyAt pairs i)), (i / R).toUInt8)
  le_max : b.dataBlockHashIndexBuilder.isValid = true →
    ∀ i < m, i / R ≤ kMaxRestartSupportedByHashIndex

/-- A new builder's hash index holds nothing. -/
theorem hashIndexState_new (indexType : DataBlockIndexType) (utilRatio : Float) :
    HashIndexState R pairs (BlockBuilder.new R useDelta indexType utilRatio) 0 where
  pairs _ := by cases indexType <;> rfl
  le_max _ _ hi := absurd hi (Nat.not_lt_zero _)

/-- `Add` of pair `m` puts its user key in the hash index with interval `m / R`, or turns the
index off. -/
theorem hashIndexState_add (hR : 0 < R) {b : BlockBuilder} {m : Nat}
    (h : BuilderState R useDelta pairs b m) (hh : HashIndexState R pairs b m) :
    HashIndexState R pairs (b.add (keyAt pairs m) (valueAt pairs m)) (m + 1) := by
  have hindex : (b.add (keyAt pairs m) (valueAt pairs m)).restarts.length - 1 = m / R := by
    rw [(builderState_add R useDelta pairs hR h).restarts, restartPoints, List.length_map,
      List.length_range, restartCount_succ_sub_one]
  have hnew := add_hashIndex b (keyAt pairs m) (valueAt pairs m)
  rw [hindex] at hnew
  by_cases hvalid : b.dataBlockHashIndexBuilder.isValid
  · rw [if_pos hvalid] at hnew
    unfold DataBlockHashIndexBuilder.add at hnew
    by_cases hmax : m / R > kMaxRestartSupportedByHashIndex
    · -- past the last supported interval the index turns itself off
      rw [if_pos hmax] at hnew
      refine ⟨fun hoff => ?_, fun hoff => ?_⟩ <;>
        simp [hnew, DataBlockHashIndexBuilder.isValid] at hoff
    · rw [if_neg hmax] at hnew
      refine ⟨fun _ => ?_, fun _ i hi => ?_⟩
      · rw [hnew, hh.pairs hvalid, List.range_succ, List.map_append]
        rfl
      · rcases Nat.lt_succ_iff_lt_or_eq.mp hi with hi | rfl
        · exact hh.le_max hvalid i hi
        · exact Nat.le_of_not_gt hmax
  · -- an index that is off stays as it is
    rw [if_neg hvalid] at hnew
    exact ⟨fun hon => absurd (hnew ▸ hon) hvalid, fun hon => absurd (hnew ▸ hon) hvalid⟩

/-- The hash index after `Add` of the first `m` pairs. -/
theorem hashIndexState_addAll (hR : 0 < R) (indexType : DataBlockIndexType) (utilRatio : Float)
    (m : Nat) (hm : m ≤ pairs.length) :
    HashIndexState R pairs
      ((BlockBuilder.new R useDelta indexType utilRatio).addAll (pairs.take m)) m := by
  induction m with
  | zero => exact hashIndexState_new R useDelta pairs indexType utilRatio
  | succ m ih =>
      have hlt : m < pairs.length := by omega
      have hpair : pairs[m] = (keyAt pairs m, valueAt pairs m) := by
        simp [keyAt, valueAt, List.getElem?_eq_getElem hlt]
      rw [List.take_add_one, List.getElem?_eq_getElem hlt, Option.toList_some, BlockBuilder.addAll,
        List.foldl_append, List.foldl_cons, List.foldl_nil, hpair]
      exact hashIndexState_add R useDelta pairs hR
        (builderState_addAll R useDelta pairs hR indexType utilRatio m (by omega)) (ih (by omega))

/-! ## The finished block -/

/-- `PutFixed32` of each restart point appends them one after another. -/
theorem foldl_putFixed32 (buffer : Bytes) (restarts : List UInt32) :
    restarts.foldl putFixed32 buffer = buffer ++ restarts.flatMap encodeFixed32 := by
  induction restarts generalizing buffer with
  | nil => simp
  | cons r restarts ih =>
      rw [List.foldl_cons, ih, putFixed32]
      simp

/-- The builder counts its restart points. -/
theorem BuilderState.length_restarts {b : BlockBuilder} {m : Nat}
    (h : BuilderState R useDelta pairs b m) : b.restarts.length = restartCount R m := by
  rw [h.restarts, restartPoints, List.length_map, List.length_range]

/-- **The block `Finish` writes with a hash index**: the entries, the restart array, the buckets,
their number and the footer that says the block has a hash index. -/
theorem finish_of_hashIndex {b : BlockBuilder} {m : Nat} (h : BuilderState R useDelta pairs b m)
    (hhash : b.dataBlockHashIndexBuilder.isValid ∧
      b.currentSizeEstimate ≤ kMaxBlockSizeSupportedByHashIndex) :
    b.finish = entriesBytes R useDelta pairs m ++ restartArray R useDelta pairs m ++
      b.dataBlockHashIndexBuilder.buckets ++ encodeFixed16 b.dataBlockHashIndexBuilder.numBuckets ++
      encodeFixed32
        (packIndexTypeAndNumRestarts .dataBlockBinaryAndHash (restartCount R m).toUInt32) := by
  unfold BlockBuilder.finish
  dsimp only
  rw [foldl_putFixed32, if_pos hhash, DataBlockHashIndexBuilder.finish_eq_buckets,
    h.length_restarts, h.buffer, h.restarts]
  rfl

/-- The block with its hash index is as long as the builder estimated. -/
theorem length_finish_of_hashIndex {b : BlockBuilder} {m : Nat}
    (h : BuilderState R useDelta pairs b m)
    (hhash : b.dataBlockHashIndexBuilder.isValid ∧
      b.currentSizeEstimate ≤ kMaxBlockSizeSupportedByHashIndex) :
    b.finish.length = entryOffset R useDelta pairs m + 4 * restartCount R m +
      b.dataBlockHashIndexBuilder.numBuckets.toNat + 2 + 4 ∧
      b.finish.length = b.currentSizeEstimate := by
  have hbuckets : b.dataBlockHashIndexBuilder.buckets.length =
      b.dataBlockHashIndexBuilder.numBuckets.toNat := by
    rw [DataBlockHashIndexBuilder.buckets, DataBlockHashIndexBuilder.length_foldl_placeInBucket,
      List.length_replicate]
  have hlen : b.finish.length = entryOffset R useDelta pairs m + 4 * restartCount R m +
      b.dataBlockHashIndexBuilder.numBuckets.toNat + 2 + 4 := by
    rw [finish_of_hashIndex R useDelta pairs h hhash]
    simp [hbuckets]
    omega
  refine ⟨hlen, ?_⟩
  -- the estimate counts the same bytes: one restart point and the footer from the start, and
  -- the buckets with their number as `EstimateSize`
  have hpos : 1 ≤ restartCount R m := Nat.le_add_left 1 _
  rw [hlen, BlockBuilder.currentSizeEstimate, if_pos hhash.1, h.estimate, h.length_restarts,
    h.buffer, length_entriesBytes, DataBlockHashIndexBuilder.estimateSize,
    ← DataBlockHashIndexBuilder.numBuckets_eq]
  omega

/-- The footer of a block is its last four bytes. -/
theorem blockFooter_append (front : Bytes) (footer : UInt32) :
    Block.blockFooter (front ++ encodeFixed32 footer) = footer := by
  unfold Block.blockFooter
  rw [List.length_append, encodeFixed32_length, Nat.add_sub_cancel,
    List.drop_left' rfl, ← List.append_nil (encodeFixed32 footer), decodeFixed32_encodeFixed32]

/-- A block says it has a hash index only when `Finish` wrote one. -/
theorem hashIndex_of_indexTypeOf_finish {b : BlockBuilder} {m : Nat}
    (h : BuilderState R useDelta pairs b m)
    (htype : Block.indexTypeOf b.finish = .dataBlockBinaryAndHash) :
    b.dataBlockHashIndexBuilder.isValid ∧
      b.currentSizeEstimate ≤ kMaxBlockSizeSupportedByHashIndex := by
  by_contra hno
  -- without the hash index the footer is the number of restarts alone
  have hfinish : b.finish = entriesBytes R useDelta pairs m ++ restartArray R useDelta pairs m ++
      encodeFixed32
        (packIndexTypeAndNumRestarts .dataBlockBinarySearch (restartCount R m).toUInt32) := by
    unfold BlockBuilder.finish
    dsimp only
    rw [foldl_putFixed32, if_neg hno, h.length_restarts, h.buffer, h.restarts]
    rfl
  unfold Block.indexTypeOf at htype
  split at htype
  · cases htype
  · rename_i hsmall
    -- a block of at most `2^16` bytes has fewer than `2^31` restart points
    have hnr : restartCount R m < 2 ^ 31 := by
      have hlen : b.finish.length =
          entryOffset R useDelta pairs m + 4 * restartCount R m + 4 := by
        rw [hfinish]
        simp
        omega
      unfold kMaxBlockSizeSupportedByHashIndex at hsmall
      omega
    rw [hfinish, blockFooter_append, unPack_pack_binarySearch _ hnr] at htype
    cases htype

/-! ## The block with a hash index

The bytes `Finish` writes when it keeps the hash index, for any number of buckets: the builder
takes its number from a `double` estimate, and reading the block does not depend on it. -/

/-- What the hash index builder is given: the hash of each entry's user key with the restart
interval the entry is in. -/
def hashEntries : List (UInt32 × UInt8) :=
  (List.range pairs.length).map fun i =>
    (getSliceHash (extractUserKey (keyAt pairs i)), (i / R).toUInt8)

/-- The buckets `DataBlockHashIndexBuilder::Finish` fills from them. -/
def hashBuckets (numBuckets : UInt16) : List UInt8 :=
  (hashEntries R pairs).foldl (DataBlockHashIndexBuilder.placeInBucket numBuckets)
    (List.replicate numBuckets.toNat kNoEntry)

/-- A block with a hash index of `numBuckets` buckets: the entries, the restart array, the
buckets, their number and the footer that says the block has a hash index. -/
def hashIndexBlock (numBuckets : UInt16) : Bytes :=
  entriesBytes R useDelta pairs pairs.length ++ restartArray R useDelta pairs pairs.length ++
    hashBuckets R pairs numBuckets ++ encodeFixed16 numBuckets ++
    encodeFixed32
      (packIndexTypeAndNumRestarts .dataBlockBinaryAndHash (restartCount R pairs.length).toUInt32)

theorem length_hashBuckets (numBuckets : UInt16) :
    (hashBuckets R pairs numBuckets).length = numBuckets.toNat := by
  rw [hashBuckets, DataBlockHashIndexBuilder.length_foldl_placeInBucket, List.length_replicate]

theorem length_hashIndexBlock (numBuckets : UInt16) :
    (hashIndexBlock R useDelta pairs numBuckets).length =
      entryOffset R useDelta pairs pairs.length + 4 * restartCount R pairs.length +
        numBuckets.toNat + 2 + 4 := by
  simp [hashIndexBlock, length_hashBuckets]
  omega

/-- **The block the builder finishes with its hash index** is the block above with the builder's
number of buckets; the restart interval of every entry fits the index, and the block fits in
`2^16` bytes. -/
theorem finish_eq_hashIndexBlock {b : BlockBuilder} (h : BuilderState R useDelta pairs b pairs.length)
    (hh : HashIndexState R pairs b pairs.length)
    (htype : Block.indexTypeOf b.finish = .dataBlockBinaryAndHash) :
    b.finish = hashIndexBlock R useDelta pairs b.dataBlockHashIndexBuilder.numBuckets ∧
      (∀ i < pairs.length, i / R ≤ kMaxRestartSupportedByHashIndex) ∧
      b.finish.length ≤ kMaxBlockSizeSupportedByHashIndex := by
  have hhash := hashIndex_of_indexTypeOf_finish R useDelta pairs h htype
  have hbuckets : b.dataBlockHashIndexBuilder.buckets =
      hashBuckets R pairs b.dataBlockHashIndexBuilder.numBuckets := by
    rw [DataBlockHashIndexBuilder.buckets, hh.pairs hhash.1]
    rfl
  obtain ⟨-, hest⟩ := length_finish_of_hashIndex R useDelta pairs h hhash
  refine ⟨?_, hh.le_max hhash.1, hest ▸ hhash.2⟩
  rw [finish_of_hashIndex R useDelta pairs h hhash, hbuckets]
  rfl

section HashIndexBlock

variable {numBuckets : UInt16}

/-- **`Block`'s constructor reads back a block with a hash index**: the restart array after the
entries, the number of restarts, and the number of buckets. -/
theorem new_hashIndexBlock
    (hsize : (hashIndexBlock R useDelta pairs numBuckets).length ≤
      kMaxBlockSizeSupportedByHashIndex) :
    Block.new (hashIndexBlock R useDelta pairs numBuckets) =
      ⟨hashIndexBlock R useDelta pairs numBuckets, (hashIndexBlock R useDelta pairs numBuckets).length,
        (entryOffset R useDelta pairs pairs.length).toUInt32,
        (restartCount R pairs.length).toUInt32, numBuckets⟩ := by
  have hlen := length_hashIndexBlock R useDelta pairs numBuckets
  have hsmall := hsize
  unfold kMaxBlockSizeSupportedByHashIndex at hsmall
  have hnr : restartCount R pairs.length < 2 ^ 31 := by omega
  -- the footer: the number of restarts with the hash index bit
  have hfooter : Block.blockFooter (hashIndexBlock R useDelta pairs numBuckets) =
      packIndexTypeAndNumRestarts .dataBlockBinaryAndHash (restartCount R pairs.length).toUInt32 := by
    rw [hashIndexBlock, blockFooter_append]
  have hnum : Block.numRestartsOf (hashIndexBlock R useDelta pairs numBuckets) =
      (restartCount R pairs.length).toUInt32 := by
    rw [Block.numRestartsOf, if_neg (by unfold kMaxBlockSizeSupportedByHashIndex; omega),
      hfooter, unPack_pack_binaryAndHash _ hnr]
  have htype : Block.indexTypeOf (hashIndexBlock R useDelta pairs numBuckets) =
      .dataBlockBinaryAndHash := by
    rw [Block.indexTypeOf, if_neg (by unfold kMaxBlockSizeSupportedByHashIndex; omega),
      hfooter, unPack_pack_binaryAndHash _ hnr]
  -- the hash index: the number of buckets just before the footer, the buckets before it
  have hsize16 : ((hashIndexBlock R useDelta pairs numBuckets).length - 4).toUInt16.toNat =
      (hashIndexBlock R useDelta pairs numBuckets).length - 4 := by
    simp only [Nat.toUInt16, UInt16.toNat_ofNat']
    omega
  have hdrop : (hashIndexBlock R useDelta pairs numBuckets).drop
      (((hashIndexBlock R useDelta pairs numBuckets).length - 4).toUInt16.toNat - 2) =
      encodeFixed16 numBuckets ++ encodeFixed32
        (packIndexTypeAndNumRestarts .dataBlockBinaryAndHash (restartCount R pairs.length).toUInt32) := by
    rw [hsize16]
    conv_lhs => rw [hashIndexBlock]
    rw [List.append_assoc _ (encodeFixed16 _)]
    exact List.drop_left' (by simp [length_hashBuckets]; omega)
  have hmap : ((hashIndexBlock R useDelta pairs numBuckets).length - 4).toUInt16 - 2 - numBuckets =
      (entryOffset R useDelta pairs pairs.length + 4 * restartCount R pairs.length).toUInt16 := by
    have h2 : (2 : UInt16) ≤ ((hashIndexBlock R useDelta pairs numBuckets).length - 4).toUInt16 := by
      rw [UInt16.le_iff_toNat_le, hsize16]
      simp
      omega
    have hn : numBuckets ≤ ((hashIndexBlock R useDelta pairs numBuckets).length - 4).toUInt16 - 2 := by
      rw [UInt16.le_iff_toNat_le, UInt16.toNat_sub_of_le _ _ h2, hsize16]
      simp
      omega
    apply UInt16.toNat_inj.mp
    rw [UInt16.toNat_sub_of_le _ _ hn, UInt16.toNat_sub_of_le _ _ h2, hsize16]
    simp only [Nat.toUInt16, UInt16.toNat_ofNat']
    simp
    omega
  have hinit : DataBlockHashIndex.initializeFrom (hashIndexBlock R useDelta pairs numBuckets)
      ((hashIndexBlock R useDelta pairs numBuckets).length - 4).toUInt16 =
      (numBuckets, (entryOffset R useDelta pairs pairs.length +
        4 * restartCount R pairs.length).toUInt16) := by
    rw [DataBlockHashIndex.initializeFrom, hdrop, decodeFixed16_encodeFixed16, hmap]
  -- the restart array starts where the entries end
  have hoffset : (entryOffset R useDelta pairs pairs.length +
      4 * restartCount R pairs.length).toUInt16.toUInt32 -
      (restartCount R pairs.length).toUInt32 * 4 =
      (entryOffset R useDelta pairs pairs.length).toUInt32 := by
    have hx : (entryOffset R useDelta pairs pairs.length +
        4 * restartCount R pairs.length).toUInt16.toUInt32.toNat =
        entryOffset R useDelta pairs pairs.length + 4 * restartCount R pairs.length := by
      simp only [UInt16.toNat_toUInt32, Nat.toUInt16, UInt16.toNat_ofNat']
      omega
    have hr : ((restartCount R pairs.length).toUInt32 * 4).toNat =
        4 * restartCount R pairs.length := by
      simp only [UInt32.toNat_mul, Nat.toUInt32, UInt32.toNat_ofNat']
      simp
      omega
    have hle : (restartCount R pairs.length).toUInt32 * 4 ≤
        (entryOffset R useDelta pairs pairs.length +
          4 * restartCount R pairs.length).toUInt16.toUInt32 := by
      rw [UInt32.le_iff_toNat_le, hx, hr]
      omega
    apply UInt32.toNat_inj.mp
    rw [UInt32.toNat_sub_of_le _ _ hle, hx, hr]
    simp only [Nat.toUInt32, UInt32.toNat_ofNat']
    omega
  unfold Block.new
  rw [if_neg (by omega), hnum, htype]
  dsimp only
  rw [if_neg (by omega), hinit]
  dsimp only
  rw [hoffset, if_neg]
  rw [gt_iff_lt, UInt32.lt_iff_toNat_lt]
  simp only [UInt16.toNat_toUInt32, Nat.toUInt16, UInt16.toNat_ofNat', Nat.toUInt32,
    UInt32.toNat_ofNat']
  omega

/-- The iterator over a block with a hash index starts at its restart array, with its number of
restarts. -/
theorem newDataIterator_hashIndexBlock
    (hsize : (hashIndexBlock R useDelta pairs numBuckets).length ≤
      kMaxBlockSizeSupportedByHashIndex) :
    (Block.new (hashIndexBlock R useDelta pairs numBuckets)).newDataIterator =
      DataBlockIter.initializeWith (hashIndexBlock R useDelta pairs numBuckets)
        (entryOffset R useDelta pairs pairs.length) (restartCount R pairs.length) := by
  have hlen := length_hashIndexBlock R useDelta pairs numBuckets
  have hsmall := hsize
  unfold kMaxBlockSizeSupportedByHashIndex at hsmall
  have hpos : 1 ≤ restartCount R pairs.length := Nat.le_add_left 1 _
  have hnr : (restartCount R pairs.length).toUInt32.toNat = restartCount R pairs.length := by
    simp only [Nat.toUInt32, UInt32.toNat_ofNat']
    omega
  have hE : (entryOffset R useDelta pairs pairs.length).toUInt32.toNat =
      entryOffset R useDelta pairs pairs.length := by
    simp only [Nat.toUInt32, UInt32.toNat_ofNat']
    omega
  rw [new_hashIndexBlock R useDelta pairs hsize, Block.newDataIterator]
  dsimp only
  rw [if_neg (by omega), if_neg (fun hzero => by rw [hzero] at hnr; simp at hnr; omega), hE, hnr]

end HashIndexBlock

end Builder

end RocksCloud.Table
