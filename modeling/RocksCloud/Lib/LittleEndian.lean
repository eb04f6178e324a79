import Mathlib

/-!
# Little-endian fixed-width numbers over byte lists

A number written in `w` bytes is its `w` low base-256 digits, least significant first. This
module gives the writer `leBytes`, the reader `leValue`, and the laws the codecs built on them
use: the writer emits exactly `w` bytes, reading back gives the number modulo `256 ^ w`, and a
reader followed by a writer of the same width gives the bytes back.

Nothing here names a program: the byte layouts of the development instantiate these two
functions at widths 2, 4 and 8.

A reader that walks a typed pointer over an array of fixed-width records is `readRecords`;
`readRecords_flatMap` says it reads back records written one after another, whatever lies
before and after them.
-/

set_option autoImplicit false

namespace RocksCloud.Lib

/-- The `w` low base-256 digits of `n`, least significant first. -/
def leBytes : Nat → Nat → List UInt8
  | 0, _ => []
  | w + 1, n => (n % 256).toUInt8 :: leBytes w (n / 256)

/-- The number whose base-256 digits, least significant first, are `bs`. -/
def leValue : List UInt8 → Nat
  | [] => 0
  | b :: bs => b.toNat + 256 * leValue bs

@[simp] theorem leBytes_zero (n : Nat) : leBytes 0 n = [] := rfl

@[simp] theorem leBytes_succ (w n : Nat) :
    leBytes (w + 1) n = (n % 256).toUInt8 :: leBytes w (n / 256) := rfl

@[simp] theorem leValue_nil : leValue [] = 0 := rfl

@[simp] theorem leValue_cons (b : UInt8) (bs : List UInt8) :
    leValue (b :: bs) = b.toNat + 256 * leValue bs := rfl

/-- The writer emits exactly `w` bytes. -/
@[simp] theorem leBytes_length (w n : Nat) : (leBytes w n).length = w := by
  induction w generalizing n with
  | zero => rfl
  | succ w ih => simp [ih]

/-- A byte list of length `k` denotes a number below `256 ^ k`. -/
theorem leValue_lt (bs : List UInt8) : leValue bs < 256 ^ bs.length := by
  induction bs with
  | nil => simp
  | cons b bs ih =>
      have hb : b.toNat < 256 := b.toNat_lt
      simp only [leValue_cons, List.length_cons, pow_succ]
      omega

/-- **Reading back a written number** gives it modulo `256 ^ w`. -/
theorem leValue_leBytes (w n : Nat) : leValue (leBytes w n) = n % 256 ^ w := by
  induction w generalizing n with
  | zero => simp [Nat.mod_one]
  | succ w ih =>
      have hdigit : ((n % 256).toUInt8).toNat = n % 256 := by
        simp [Nat.mod_mod_of_dvd]
      simp only [leBytes_succ, leValue_cons, hdigit, ih, pow_succ']
      rw [Nat.mod_mul]

/-- A number below `256 ^ w` survives a write and a read of width `w`. -/
theorem leValue_leBytes_of_lt {w n : Nat} (h : n < 256 ^ w) : leValue (leBytes w n) = n := by
  rw [leValue_leBytes, Nat.mod_eq_of_lt h]

/-- **Writing back a read number** at the same width gives the bytes back. -/
theorem leBytes_leValue (bs : List UInt8) : leBytes bs.length (leValue bs) = bs := by
  induction bs with
  | nil => rfl
  | cons b bs ih =>
      have hb : b.toNat < 256 := b.toNat_lt
      have hlow : (b.toNat + 256 * leValue bs) % 256 = b.toNat := by omega
      have hhigh : (b.toNat + 256 * leValue bs) / 256 = leValue bs := by omega
      simp only [List.length_cons, leBytes_succ, leValue_cons, hlow, hhigh, ih,
        UInt8.ofNat_toNat]

/-! ## Arrays of fixed-width records -/

section Records

variable {α : Type*}

/-- The `n` records of `w` bytes each from byte `off` of `buf` on, each read by `dec` from the
front of its input: a loop that reads through a typed pointer and advances it. -/
def readRecords (dec : List UInt8 → α) (w : Nat) (buf : List UInt8) (off n : Nat) : List α :=
  (List.range n).map fun i => dec (buf.drop (off + w * i))

@[simp] theorem readRecords_zero (dec : List UInt8 → α) (w : Nat) (buf : List UInt8)
    (off : Nat) : readRecords dec w buf off 0 = [] := rfl

/-- The first record, then the others from the next offset on. -/
theorem readRecords_succ (dec : List UInt8 → α) (w : Nat) (buf : List UInt8) (off n : Nat) :
    readRecords dec w buf off (n + 1) = dec (buf.drop off) :: readRecords dec w buf (off + w) n := by
  simp only [readRecords, List.range_succ_eq_map, List.map_cons, List.map_map, Nat.mul_zero,
    Nat.add_zero]
  congr 1
  apply List.map_congr_left
  intro i _
  simp only [Function.comp, Nat.succ_eq_add_one, Nat.mul_succ]
  congr 2
  omega

/-- **Records round trip.** Records written one after another by `enc`, `w` bytes each, are
read back from the offset of the first. -/
theorem readRecords_flatMap (enc : α → List UInt8) (dec : List UInt8 → α) (w : Nat)
    (henc : ∀ a, (enc a).length = w) (hdec : ∀ a rest, dec (enc a ++ rest) = a)
    (pre rest : List UInt8) (xs : List α) :
    readRecords dec w (pre ++ xs.flatMap enc ++ rest) pre.length xs.length = xs := by
  induction xs generalizing pre with
  | nil => rfl
  | cons x xs ih =>
      have hx : dec ((pre ++ (x :: xs).flatMap enc ++ rest).drop pre.length) = x := by
        simp [hdec]
      -- the remaining records lie behind `pre ++ enc x`
      have hxs := ih (pre ++ enc x)
      simp only [List.length_append, henc, List.append_assoc] at hxs
      rw [List.length_cons, readRecords_succ, hx]
      simpa [List.append_assoc] using hxs

end Records

end RocksCloud.Lib
