import Mathlib

/-!
# CRC-32C

The Castagnoli CRC of a byte string, bit by bit: the register starts complemented, every byte
is folded in least significant bit first with the reflected polynomial `0x82F63B78`, and the
result is complemented again. Table-driven and hardware implementations compute the same
function; this one is the definition they are checked against.

`extend crc data` continues a CRC over more data, so that `extend (extend c a) b` is
`extend c (a ++ b)` (`extend_append`). Stored CRCs are masked, a rotation plus a constant, so
that a CRC of data holding CRCs does not degenerate; `unmask_mask` undoes it.
-/

set_option autoImplicit false

namespace RocksCloud.Lib.Crc32c

/-- One step of the register: shift out the low bit, folding in the polynomial when it is
set. -/
def shiftBit (crc : UInt32) : UInt32 :=
  if crc &&& 1 = 1 then (crc >>> 1) ^^^ 0x82F63B78 else crc >>> 1

/-- Fold one byte into the register. -/
def updateByte (crc : UInt32) (b : UInt8) : UInt32 :=
  (shiftBit^[8]) (crc ^^^ b.toUInt32)

/-- `crc32c::Extend`: the CRC of some data followed by `data`, given the CRC `crc` of the
first part. -/
def extend (crc : UInt32) (data : List UInt8) : UInt32 :=
  ~~~ (data.foldl updateByte (~~~ crc))

/-- `crc32c::Value`: the CRC of `data`. -/
def value (data : List UInt8) : UInt32 := extend 0 data

/-- `crc32c::kMaskDelta`. -/
def maskDelta : UInt32 := 0xa282ead8

/-- `crc32c::Mask`: rotate right by 15 bits and add a constant. -/
def mask (crc : UInt32) : UInt32 := ((crc >>> 15) ||| (crc <<< 17)) + maskDelta

/-- `crc32c::Unmask`. -/
def unmask (maskedCrc : UInt32) : UInt32 :=
  let rot := maskedCrc - maskDelta
  (rot >>> 17) ||| (rot <<< 15)

/-- Extending over two pieces is extending over their concatenation. -/
theorem extend_append (crc : UInt32) (a b : List UInt8) :
    extend (extend crc a) b = extend crc (a ++ b) := by
  simp [extend, List.foldl_append]

/-- The CRC of a concatenation continues the CRC of its first part. -/
theorem extend_value (a b : List UInt8) : extend (value a) b = value (a ++ b) :=
  extend_append 0 a b

/-- Rotating a 32-bit word right by 15 bits and then by 17 bits gives it back. -/
theorem rotate_full_turn (x : BitVec 32) :
    ((x >>> 15 ||| x <<< 17) >>> 17 ||| (x >>> 15 ||| x <<< 17) <<< 15) = x := by
  ext i hi
  simp only [BitVec.getElem_or, BitVec.getElem_ushiftRight, BitVec.getElem_shiftLeft,
    BitVec.getLsbD_or, BitVec.getLsbD_ushiftRight, BitVec.getLsbD_shiftLeft]
  -- bit `i` of the result is bit `(i + 17 + 15) % 32 = i` of `x`; the bits shifted in from
  -- past the word's end are zero
  have hout : x.getLsbD (15 + (17 + i)) = false := BitVec.getLsbD_of_ge x _ (by omega)
  have hback : 17 + i - 17 = i := by omega
  have hlow : decide (i - 15 < 17) = true := by simp; omega
  rw [hout, hback, hlow]
  by_cases h : i < 15
  · simp [h, show 17 + i < 32 by omega, BitVec.getLsbD_eq_getElem hi]
  · simp [h, show ¬ 17 + i < 32 by omega, show 15 + (i - 15) = i by omega,
      BitVec.getLsbD_eq_getElem hi]

/-- Unmasking a masked CRC gives it back: the two rotations make a full turn. -/
theorem unmask_mask (crc : UInt32) : unmask (mask crc) = crc := by
  apply UInt32.toBitVec_inj.mp
  simp only [unmask, mask, UInt32.add_sub_cancel, UInt32.toBitVec_or,
    UInt32.toBitVec_shiftRight, UInt32.toBitVec_shiftLeft, BitVec.ushiftRight_eq',
    BitVec.shiftLeft_eq']
  have e15 : (UInt32.toBitVec 15 % 32).toNat = 15 := by decide
  have e17 : (UInt32.toBitVec 17 % 32).toNat = 17 := by decide
  rw [e15, e17]
  exact rotate_full_turn crc.toBitVec

end RocksCloud.Lib.Crc32c
