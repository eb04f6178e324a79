import Mathlib
import RocksCloud.Lib.LittleEndian
import RocksCloud.Lib.Leb128

/-!
# Fixed-width and varint codecs of `util/coding.h`

The byte layouts of the write-ahead log, the write batch, data blocks and the trie filters are
built from a handful of helpers in `util/coding.h` and `util/coding.cc`:

* `EncodeFixed16/32/64` and `DecodeFixed16/32/64` write and read little-endian integers (the
  `memcpy` branch on a little-endian host and the shifting branch agree);
* `EncodeVarint32` is an unrolled five-way writer of base-128 digits, `EncodeVarint64` the same
  writer as a loop; `GetVarint32Ptr` has a one-byte fast path before the general loop
  `GetVarint32PtrFallback`, which reads at most five bytes, and `GetVarint64Ptr` at most ten;
* `PutLengthPrefixedSlice` writes the `uint32_t` length of a slice before its bytes and
  `GetLengthPrefixedSlice` reads it back.

A `Slice* input` argument that the C++ advances is modelled by returning the bytes that remain,
and a `false` or `nullptr` result by `none`. The decoders accumulate with `|=` over disjoint
bit ranges, which is a sum, and their `uint32_t` shifts drop the bits above bit 31, which is
the final `toUInt32`.

The round trips (`getVarint32_encodeVarint32`, `getVarint64_encodeVarint64`,
`getFixed32_encodeFixed32`, `getLengthPrefixedSlice_putLengthPrefixedSlice`) are the facts the
decoders of the development rest on.
-/

set_option autoImplicit false

namespace RocksCloud.Util

open RocksCloud.Lib

/-- The contents of a `std::string` or a `Slice`. -/
abbrev Bytes := List UInt8

/-- Bytes in the order `memcmp` compares them, as `unsigned char`s. `BytewiseComparator`
compares with `memcmp` and then by length: the lexicographic order of byte lists under this
order. -/
instance (priority := low) instLinearOrderUInt8 : LinearOrder UInt8 where
  le := (· ≤ ·)
  lt := (· < ·)
  le_refl := UInt8.le_refl
  le_trans _ _ _ := UInt8.le_trans
  le_antisymm _ _ := UInt8.le_antisymm
  le_total := UInt8.le_total
  lt_iff_le_not_ge a b := by
    rw [UInt8.not_le]
    exact ⟨fun h => ⟨UInt8.le_of_lt h, h⟩, fun h => h.2⟩
  toDecidableLE := inferInstance
  toDecidableLT := inferInstance
  toDecidableEq := inferInstance

/-! ## Fixed-width integers -/

/-- `EncodeFixed16`. -/
def encodeFixed16 (value : UInt16) : Bytes := leBytes 2 value.toNat

/-- `EncodeFixed32`. -/
def encodeFixed32 (value : UInt32) : Bytes := leBytes 4 value.toNat

/-- `EncodeFixed64`. -/
def encodeFixed64 (value : UInt64) : Bytes := leBytes 8 value.toNat

/-- `DecodeFixed16`: the number in the two bytes at `ptr`. -/
def decodeFixed16 (ptr : Bytes) : UInt16 := (leValue (ptr.take 2)).toUInt16

/-- `DecodeFixed32`: the number in the four bytes at `ptr`. -/
def decodeFixed32 (ptr : Bytes) : UInt32 := (leValue (ptr.take 4)).toUInt32

/-- `DecodeFixed64`: the number in the eight bytes at `ptr`. -/
def decodeFixed64 (ptr : Bytes) : UInt64 := (leValue (ptr.take 8)).toUInt64

/-- `PutFixed16`. -/
def putFixed16 (dst : Bytes) (value : UInt16) : Bytes := dst ++ encodeFixed16 value

/-- `PutFixed32`. -/
def putFixed32 (dst : Bytes) (value : UInt32) : Bytes := dst ++ encodeFixed32 value

/-- `PutFixed64`. -/
def putFixed64 (dst : Bytes) (value : UInt64) : Bytes := dst ++ encodeFixed64 value

/-- `GetFixed32`: refuses an input shorter than four bytes. -/
def getFixed32 (input : Bytes) : Option (UInt32 × Bytes) :=
  if input.length < 4 then none else some (decodeFixed32 input, input.drop 4)

/-- `GetFixed64`: refuses an input shorter than eight bytes. -/
def getFixed64 (input : Bytes) : Option (UInt64 × Bytes) :=
  if input.length < 8 then none else some (decodeFixed64 input, input.drop 8)

@[simp] theorem encodeFixed16_length (v : UInt16) : (encodeFixed16 v).length = 2 := by
  simp [encodeFixed16]

@[simp] theorem encodeFixed32_length (v : UInt32) : (encodeFixed32 v).length = 4 := by
  simp [encodeFixed32]

@[simp] theorem encodeFixed64_length (v : UInt64) : (encodeFixed64 v).length = 8 := by
  simp [encodeFixed64]

/-- Reading the two bytes written by `EncodeFixed16` gives the value back. -/
@[simp] theorem decodeFixed16_encodeFixed16 (v : UInt16) (rest : Bytes) :
    decodeFixed16 (encodeFixed16 v ++ rest) = v := by
  have hlt : v.toNat < 256 ^ 2 := v.toNat_lt
  have htake : (encodeFixed16 v ++ rest).take 2 = encodeFixed16 v := by
    simp
  rw [decodeFixed16, htake, encodeFixed16, leValue_leBytes_of_lt hlt]
  exact UInt16.ofNat_toNat

/-- Reading the four bytes written by `EncodeFixed32` gives the value back. -/
@[simp] theorem decodeFixed32_encodeFixed32 (v : UInt32) (rest : Bytes) :
    decodeFixed32 (encodeFixed32 v ++ rest) = v := by
  have hlt : v.toNat < 256 ^ 4 := v.toNat_lt
  have htake : (encodeFixed32 v ++ rest).take 4 = encodeFixed32 v := by
    simp
  rw [decodeFixed32, htake, encodeFixed32, leValue_leBytes_of_lt hlt]
  exact UInt32.ofNat_toNat

/-- Reading the eight bytes written by `EncodeFixed64` gives the value back. -/
@[simp] theorem decodeFixed64_encodeFixed64 (v : UInt64) (rest : Bytes) :
    decodeFixed64 (encodeFixed64 v ++ rest) = v := by
  have hlt : v.toNat < 256 ^ 8 := v.toNat_lt
  have htake : (encodeFixed64 v ++ rest).take 8 = encodeFixed64 v := by
    simp
  rw [decodeFixed64, htake, encodeFixed64, leValue_leBytes_of_lt hlt]
  exact UInt64.ofNat_toNat

/-- `GetFixed32` reads back what `PutFixed32` appended. -/
theorem getFixed32_encodeFixed32 (v : UInt32) (rest : Bytes) :
    getFixed32 (encodeFixed32 v ++ rest) = some (v, rest) := by
  simp [getFixed32]

/-- `GetFixed64` reads back what `PutFixed64` appended. -/
theorem getFixed64_encodeFixed64 (v : UInt64) (rest : Bytes) :
    getFixed64 (encodeFixed64 v ++ rest) = some (v, rest) := by
  simp [getFixed64]

/-! ## Varints -/

/-- `EncodeVarint32`: the unrolled writer. Each stored `char` keeps the low eight bits of its
`uint32_t` expression. -/
def encodeVarint32 (v : UInt32) : Bytes :=
  let B : UInt32 := 128
  if v < (1 : UInt32) <<< 7 then [v.toUInt8]
  else if v < (1 : UInt32) <<< 14 then [(v ||| B).toUInt8, (v >>> 7).toUInt8]
  else if v < (1 : UInt32) <<< 21 then
    [(v ||| B).toUInt8, ((v >>> 7) ||| B).toUInt8, (v >>> 14).toUInt8]
  else if v < (1 : UInt32) <<< 28 then
    [(v ||| B).toUInt8, ((v >>> 7) ||| B).toUInt8, ((v >>> 14) ||| B).toUInt8,
      (v >>> 21).toUInt8]
  else
    [(v ||| B).toUInt8, ((v >>> 7) ||| B).toUInt8, ((v >>> 14) ||| B).toUInt8,
      ((v >>> 21) ||| B).toUInt8, (v >>> 28).toUInt8]

/-- The `while (v >= B)` loop of `EncodeVarint64`, with `fuel` bounding its iterations. -/
def encodeVarint64Loop : Nat → UInt64 → Bytes
  | 0, v => [v.toUInt8]
  | fuel + 1, v =>
      if v ≥ 128 then ((v &&& 127) ||| 128).toUInt8 :: encodeVarint64Loop fuel (v >>> 7)
      else [v.toUInt8]

/-- `EncodeVarint64`: a `uint64_t` leaves the loop after at most nine shifts. -/
def encodeVarint64 (v : UInt64) : Bytes := encodeVarint64Loop 9 v

/-- The `while (v >= 128)` loop of `VarintLength`, with `fuel` bounding its iterations. -/
def varintLengthLoop : Nat → UInt64 → Nat → Nat
  | 0, _, len => len
  | fuel + 1, v, len => if v ≥ 128 then varintLengthLoop fuel (v >>> 7) (len + 1) else len

/-- `VarintLength`: a `uint64_t` leaves the loop after at most nine shifts. -/
def varintLength (v : UInt64) : Nat := varintLengthLoop 9 v 1

/-- `GetVarint32PtrFallback`: at most five bytes, at shifts `0, 7, ..., 28`. -/
def getVarint32PtrFallback (input : Bytes) : Option (UInt32 × Bytes) :=
  (Leb128.decode 5 input).map fun p => (p.1.toUInt32, p.2)

/-- `GetVarint32Ptr`: a first byte without the continuation bit is the whole number. -/
def getVarint32Ptr (input : Bytes) : Option (UInt32 × Bytes) :=
  match input with
  | b :: rest => if b &&& 128 = 0 then some (b.toUInt32, rest) else getVarint32PtrFallback input
  | [] => getVarint32PtrFallback input

/-- `GetVarint64Ptr`: at most ten bytes, at shifts `0, 7, ..., 63`. -/
def getVarint64Ptr (input : Bytes) : Option (UInt64 × Bytes) :=
  (Leb128.decode 10 input).map fun p => (p.1.toUInt64, p.2)

/-- `GetVarint32`: the number at the front of `input` and the bytes after it. -/
def getVarint32 (input : Bytes) : Option (UInt32 × Bytes) := getVarint32Ptr input

/-- `GetVarint64`: the number at the front of `input` and the bytes after it. -/
def getVarint64 (input : Bytes) : Option (UInt64 × Bytes) := getVarint64Ptr input

/-- `PutVarint32`. -/
def putVarint32 (dst : Bytes) (v : UInt32) : Bytes := dst ++ encodeVarint32 v

/-- `PutVarint64`. -/
def putVarint64 (dst : Bytes) (v : UInt64) : Bytes := dst ++ encodeVarint64 v

/-- `PutVarint32Varint32Varint32`: three varints one after another. -/
def putVarint32Varint32Varint32 (dst : Bytes) (v1 v2 v3 : UInt32) : Bytes :=
  dst ++ encodeVarint32 v1 ++ encodeVarint32 v2 ++ encodeVarint32 v3

/-- `PutVarint32Varint32`. -/
def putVarint32Varint32 (dst : Bytes) (v1 v2 : UInt32) : Bytes :=
  dst ++ encodeVarint32 v1 ++ encodeVarint32 v2

/-- `PutVarint64Varint64`. -/
def putVarint64Varint64 (dst : Bytes) (v1 v2 : UInt64) : Bytes :=
  dst ++ encodeVarint64 v1 ++ encodeVarint64 v2

/-- `PutVarint32Varint64`. -/
def putVarint32Varint64 (dst : Bytes) (v1 : UInt32) (v2 : UInt64) : Bytes :=
  dst ++ encodeVarint32 v1 ++ encodeVarint64 v2

/-- `PutVarint32Varint32Varint64`. -/
def putVarint32Varint32Varint64 (dst : Bytes) (v1 v2 : UInt32) (v3 : UInt64) : Bytes :=
  dst ++ encodeVarint32 v1 ++ encodeVarint32 v2 ++ encodeVarint64 v3

/-- `PutLengthPrefixedSlice`: the length is cast to `uint32_t` before it is written. -/
def putLengthPrefixedSlice (dst : Bytes) (value : Bytes) : Bytes :=
  putVarint32 dst value.length.toUInt32 ++ value

/-- `PutLengthPrefixedSliceParts`: the total length of the parts, cast to `uint32_t`, and the
parts one after another. -/
def putLengthPrefixedSliceParts (dst : Bytes) (sliceParts : List Bytes) : Bytes :=
  putVarint32 dst (sliceParts.map List.length).sum.toUInt32 ++ sliceParts.flatten

/-- `GetLengthPrefixedSlice`: a varint length and that many bytes. -/
def getLengthPrefixedSlice (input : Bytes) : Option (Bytes × Bytes) :=
  match getVarint32 input with
  | some (len, rest) =>
      if rest.length ≥ len.toNat then some (rest.take len.toNat, rest.drop len.toNat) else none
  | none => none

/-! ## The writers emit base-128 digits -/

/-- The byte `x | B` that both writers store for a digit that is not the last. -/
theorem toUInt8_lor_continuation (x : Nat) :
    (x ||| 128).toUInt8 = (x % 128 + 128).toUInt8 := by
  apply UInt8.toNat.inj
  simp only [Nat.toUInt8_eq, UInt8.toNat_ofNat']
  rw [show (2 : Nat) ^ 8 = 256 by norm_num, Leb128.lor_continuation_mod]
  omega

theorem uint32_toUInt8_lor_continuation (w : UInt32) :
    (w ||| 128).toUInt8 = (w.toNat % 128 + 128).toUInt8 := by
  rw [← toUInt8_lor_continuation]
  apply UInt8.toNat.inj
  simp

theorem uint32_toUInt8_eq (w : UInt32) : w.toUInt8 = w.toNat.toUInt8 := by
  apply UInt8.toNat.inj
  simp

theorem uint64_toUInt8_eq (w : UInt64) : w.toUInt8 = w.toNat.toUInt8 := by
  apply UInt8.toNat.inj
  simp

theorem encode_succ_of_lt {k n : Nat} (h : n < 128) :
    Leb128.encode (k + 1) n = [n.toUInt8] := by
  simp [Leb128.encode, h]

theorem encode_succ_of_not_lt {k n : Nat} (h : ¬ n < 128) :
    Leb128.encode (k + 1) n = (n % 128 + 128).toUInt8 :: Leb128.encode k (n / 128) := by
  simp [Leb128.encode, h]

/-- The unrolled writer emits the base-128 digits of its argument: each `if` of the source is
one more digit. -/
theorem encodeVarint32_eq (v : UInt32) : encodeVarint32 v = Leb128.encode 5 v.toNat := by
  have hv : v.toNat < 2 ^ 32 := v.toNat_lt
  have h7 : (v >>> 7).toNat = v.toNat / 128 := by
    simp [UInt32.toNat_shiftRight, Nat.shiftRight_eq_div_pow]
  have h14 : (v >>> 14).toNat = v.toNat / 128 / 128 := by
    simp [UInt32.toNat_shiftRight, Nat.shiftRight_eq_div_pow, Nat.div_div_eq_div_mul]
  have h21 : (v >>> 21).toNat = v.toNat / 128 / 128 / 128 := by
    simp [UInt32.toNat_shiftRight, Nat.shiftRight_eq_div_pow, Nat.div_div_eq_div_mul]
  have h28 : (v >>> 28).toNat = v.toNat / 128 / 128 / 128 / 128 := by
    simp [UInt32.toNat_shiftRight, Nat.shiftRight_eq_div_pow, Nat.div_div_eq_div_mul]
  simp only [encodeVarint32, UInt32.lt_iff_toNat_lt, uint32_toUInt8_lor_continuation]
  simp only [uint32_toUInt8_eq, h7, h14, h21, h28]
  set n := v.toNat
  split_ifs with c1 c2 c3 c4
  · rw [encode_succ_of_lt (by simpa using c1)]
  · rw [encode_succ_of_not_lt (by simpa using c1), encode_succ_of_lt (by simp at c2; omega)]
  · rw [encode_succ_of_not_lt (by simpa using c1), encode_succ_of_not_lt (by simp at c2; omega),
      encode_succ_of_lt (by simp at c3; omega)]
  · rw [encode_succ_of_not_lt (by simpa using c1), encode_succ_of_not_lt (by simp at c2; omega),
      encode_succ_of_not_lt (by simp at c3; omega), encode_succ_of_lt (by simp at c4; omega)]
  · rw [encode_succ_of_not_lt (by simpa using c1), encode_succ_of_not_lt (by simp at c2; omega),
      encode_succ_of_not_lt (by simp at c3; omega), encode_succ_of_not_lt (by simp at c4; omega),
      encode_succ_of_lt (by omega)]

/-- One turn of the `EncodeVarint64` loop stores the low digit with the continuation bit. -/
theorem uint64_digit_byte (v : UInt64) :
    ((v &&& 127) ||| 128).toUInt8 = (v.toNat % 128 + 128).toUInt8 := by
  have hand : (v &&& 127).toNat = v.toNat % 128 := by
    simpa using Nat.and_two_pow_sub_one_eq_mod v.toNat 7
  have hor : ((v &&& 127) ||| 128).toNat = v.toNat % 128 + 128 := by
    rw [UInt64.toNat_or, hand]
    exact Nat.or_two_pow_eq_add_of_lt (n := 7) (Nat.mod_lt _ (by norm_num))
  apply UInt8.toNat.inj
  simp only [UInt64.toNat_toUInt8, hor, Nat.toUInt8_eq, UInt8.toNat_ofNat']

/-- The loop writer emits the base-128 digits of a number that fits its fuel. -/
theorem encodeVarint64Loop_eq (fuel : Nat) (v : UInt64) (h : v.toNat < 128 ^ (fuel + 1)) :
    encodeVarint64Loop fuel v = Leb128.encode (fuel + 1) v.toNat := by
  induction fuel generalizing v with
  | zero =>
      rw [encode_succ_of_lt (by simpa using h), encodeVarint64Loop, uint64_toUInt8_eq]
  | succ fuel ih =>
      have hshr : (v >>> 7).toNat = v.toNat / 128 := by
        simp [UInt64.toNat_shiftRight, Nat.shiftRight_eq_div_pow]
      by_cases hv : v.toNat < 128
      · have hlt : ¬ v ≥ 128 := by
          rw [ge_iff_le, UInt64.le_iff_toNat_le]
          simpa using hv
        rw [encode_succ_of_lt hv, encodeVarint64Loop, if_neg hlt, uint64_toUInt8_eq]
      · have hge : v ≥ 128 := by
          rw [ge_iff_le, UInt64.le_iff_toNat_le]
          simpa using hv
        have hq : (v >>> 7).toNat < 128 ^ (fuel + 1) := by
          rw [hshr, pow_succ] at *
          exact Nat.div_lt_of_lt_mul (by rw [pow_succ] at h; linarith)
        rw [encode_succ_of_not_lt hv, ← hshr, ← ih (v >>> 7) hq, encodeVarint64Loop, if_pos hge,
          uint64_digit_byte]

/-- `EncodeVarint64` emits the base-128 digits of its argument. -/
theorem encodeVarint64_eq (v : UInt64) : encodeVarint64 v = Leb128.encode 10 v.toNat := by
  have h : v.toNat < 128 ^ 10 := lt_of_lt_of_le v.toNat_lt (by norm_num)
  exact encodeVarint64Loop_eq 9 v h

/-! ## The readers -/

set_option maxRecDepth 4000 in
/-- A byte below `256` has its top bit clear exactly when it is below `128`. -/
theorem land_continuation_eq_zero_iff : ∀ m < 256, (m &&& 128 = 0 ↔ m < 128) := by decide

/-- The one-byte fast path of `GetVarint32Ptr` gives what the general loop gives. -/
theorem getVarint32Ptr_eq_fallback (input : Bytes) :
    getVarint32Ptr input = getVarint32PtrFallback input := by
  cases input with
  | nil => rfl
  | cons b rest =>
      simp only [getVarint32Ptr]
      split
      · rename_i hb
        have hb' : b.toNat < 128 := by
          have h := (land_continuation_eq_zero_iff b.toNat b.toNat_lt).mp
          apply h
          have := congrArg UInt8.toNat hb
          simpa using this
        simp [getVarint32PtrFallback, Leb128.decode, hb']
      · rfl

/-- **`GetVarint32` reads back what `PutVarint32` appended.** -/
theorem getVarint32_encodeVarint32 (v : UInt32) (rest : Bytes) :
    getVarint32 (encodeVarint32 v ++ rest) = some (v, rest) := by
  have hv : v.toNat < 128 ^ 5 := lt_of_lt_of_le v.toNat_lt (by norm_num)
  rw [getVarint32, getVarint32Ptr_eq_fallback, getVarint32PtrFallback, encodeVarint32_eq,
    Leb128.decode_encode 5 v.toNat rest (by norm_num) hv]
  simp

/-- **`GetVarint64` reads back what `PutVarint64` appended.** -/
theorem getVarint64_encodeVarint64 (v : UInt64) (rest : Bytes) :
    getVarint64 (encodeVarint64 v ++ rest) = some (v, rest) := by
  have hv : v.toNat < 128 ^ 10 := lt_of_lt_of_le v.toNat_lt (by norm_num)
  rw [getVarint64, getVarint64Ptr, encodeVarint64_eq,
    Leb128.decode_encode 10 v.toNat rest (by norm_num) hv]
  simp

/-! ## Lengths and cut encodings -/

/-- `VarintLength` counts the turns of the `EncodeVarint64` loop: both loops test `v >= 128`
and shift by seven. -/
theorem varintLengthLoop_eq (fuel : Nat) (v : UInt64) (len : Nat) :
    varintLengthLoop fuel v (len + 1) = len + (encodeVarint64Loop fuel v).length := by
  induction fuel generalizing v len with
  | zero => simp [varintLengthLoop, encodeVarint64Loop]
  | succ fuel ih =>
      unfold varintLengthLoop encodeVarint64Loop
      split
      · rw [ih (v >>> 7) (len + 1), List.length_cons]
        omega
      · simp

/-- `EncodeVarint64` writes `VarintLength(v)` bytes. -/
theorem length_encodeVarint64 (v : UInt64) : (encodeVarint64 v).length = varintLength v := by
  rw [varintLength, varintLengthLoop_eq 9 v 0, Nat.zero_add, encodeVarint64]

/-- `EncodeVarint32` writes `VarintLength(v)` bytes: the five-byte budget is never reached by
a `uint32_t`, so it writes what `EncodeVarint64` writes. -/
theorem length_encodeVarint32 (v : UInt32) :
    (encodeVarint32 v).length = varintLength v.toUInt64 := by
  have hv : v.toNat < 128 ^ 5 := lt_of_lt_of_le v.toNat_lt (by norm_num)
  rw [← length_encodeVarint64, encodeVarint32_eq, encodeVarint64_eq, UInt32.toNat_toUInt64,
    Leb128.encode_eq_of_lt_pow (by norm_num) (show 5 ≤ 10 by norm_num) hv]

/-- **`GetVarint32` consumes `VarintLength(v)` bytes** of what `PutVarint32` appended. -/
theorem getVarint32_putVarint32 (v : UInt32) (rest : Bytes) :
    getVarint32 (putVarint32 [] v ++ rest) =
      some (v, (putVarint32 [] v ++ rest).drop (varintLength v.toUInt64)) := by
  have hdrop : (encodeVarint32 v ++ rest).drop (varintLength v.toUInt64) = rest := by
    rw [← length_encodeVarint32, List.drop_left]
  rw [putVarint32, List.nil_append, hdrop, getVarint32_encodeVarint32]

/-- **`GetVarint64` consumes `VarintLength(v)` bytes** of what `PutVarint64` appended. -/
theorem getVarint64_putVarint64 (v : UInt64) (rest : Bytes) :
    getVarint64 (putVarint64 [] v ++ rest) =
      some (v, (putVarint64 [] v ++ rest).drop (varintLength v)) := by
  have hdrop : (encodeVarint64 v ++ rest).drop (varintLength v) = rest := by
    rw [← length_encodeVarint64, List.drop_left]
  rw [putVarint64, List.nil_append, hdrop, getVarint64_encodeVarint64]

/-- **A cut `EncodeVarint32` output is refused**: the input ends inside the number, in the
fast path's first byte or in the fallback loop. -/
theorem getVarint32Ptr_take_encodeVarint32 (v : UInt32) {j : Nat}
    (h : j < (encodeVarint32 v).length) : getVarint32Ptr ((encodeVarint32 v).take j) = none := by
  rw [encodeVarint32_eq] at h ⊢
  rw [getVarint32Ptr_eq_fallback, getVarint32PtrFallback, Leb128.decode_take_encode 5 5 _ j h,
    Option.map_none]

/-- **A cut `EncodeVarint64` output is refused.** -/
theorem getVarint64Ptr_take_encodeVarint64 (v : UInt64) {j : Nat}
    (h : j < (encodeVarint64 v).length) : getVarint64Ptr ((encodeVarint64 v).take j) = none := by
  rw [encodeVarint64_eq] at h ⊢
  rw [getVarint64Ptr, Leb128.decode_take_encode 10 10 _ j h, Option.map_none]

/-- **`GetLengthPrefixedSlice` reads back what `PutLengthPrefixedSlice` appended**, for a
slice whose length survives the cast to `uint32_t`. -/
theorem getLengthPrefixedSlice_putLengthPrefixedSlice (value rest : Bytes)
    (h : value.length < 2 ^ 32) :
    getLengthPrefixedSlice (putLengthPrefixedSlice [] value ++ rest) = some (value, rest) := by
  have hlen : value.length.toUInt32.toNat = value.length := by
    simpa using Nat.mod_eq_of_lt h
  simp only [getLengthPrefixedSlice, putLengthPrefixedSlice, putVarint32, List.nil_append,
    List.append_assoc, getVarint32_encodeVarint32, hlen]
  simp

/-- The parts are written as one slice, their concatenation. -/
theorem putLengthPrefixedSliceParts_eq (dst : Bytes) (sliceParts : List Bytes) :
    putLengthPrefixedSliceParts dst sliceParts = putLengthPrefixedSlice dst sliceParts.flatten := by
  simp [putLengthPrefixedSliceParts, putLengthPrefixedSlice, List.length_flatten]

/-- A successful `GetVarint32` consumes at least one byte. -/
theorem getVarint32_shortens {input rest : Bytes} {v : UInt32}
    (h : getVarint32 input = some (v, rest)) : rest.length < input.length := by
  rw [getVarint32, getVarint32Ptr_eq_fallback, getVarint32PtrFallback] at h
  obtain ⟨⟨n, r⟩, hd, he⟩ := Option.map_eq_some_iff.mp h
  simp only [Prod.mk.injEq] at he
  rw [← he.2]
  exact Leb128.decode_shortens hd

/-- A successful `GetVarint64` consumes at least one byte. -/
theorem getVarint64_shortens {input rest : Bytes} {v : UInt64}
    (h : getVarint64 input = some (v, rest)) : rest.length < input.length := by
  rw [getVarint64, getVarint64Ptr] at h
  obtain ⟨⟨n, r⟩, hd, he⟩ := Option.map_eq_some_iff.mp h
  simp only [Prod.mk.injEq] at he
  rw [← he.2]
  exact Leb128.decode_shortens hd

/-- A successful `GetLengthPrefixedSlice` consumes at least one byte. -/
theorem getLengthPrefixedSlice_shortens {input rest value : Bytes}
    (h : getLengthPrefixedSlice input = some (value, rest)) : rest.length < input.length := by
  unfold getLengthPrefixedSlice at h
  split at h
  · rename_i len r hr
    have hlt := getVarint32_shortens hr
    split at h
    · simp only [Option.some.injEq, Prod.mk.injEq] at h
      rw [← h.2, List.length_drop]
      omega
    · simp at h
  · simp at h

end RocksCloud.Util
