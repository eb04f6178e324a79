import Mathlib

/-!
# Base-128 variable-length numbers with a byte budget

A number is written as its base-128 digits, least significant first, seven bits a byte; every
byte but the last carries the continuation bit `128`. A reader with a budget of `k` bytes
refuses input whose `k`-th byte still continues, or that ends inside a number.

`encode k n` writes `n` in at most `k` bytes and `decode k` reads with the same budget. The
round trip `decode_encode` holds for every `n < 128 ^ k` and leaves the bytes after the number
untouched; `decode_shortens` says a successful read consumes at least one byte, which is what
decoders that loop over a stream of numbers need for termination.
-/

set_option autoImplicit false

namespace RocksCloud.Lib.Leb128

/-- The digits of `n` in at most `k` bytes. A number that does not fit is cut off; the writers
that use this function only pass numbers below `128 ^ k`. -/
def encode : Nat → Nat → List UInt8
  | 0, _ => []
  | k + 1, n => if n < 128 then [n.toUInt8] else (n % 128 + 128).toUInt8 :: encode k (n / 128)

/-- The number at the front of the input and the bytes after it, reading at most `k` bytes;
`none` when the input ends inside the number or the budget runs out. -/
def decode : Nat → List UInt8 → Option (Nat × List UInt8)
  | 0, _ => none
  | _ + 1, [] => none
  | k + 1, b :: bs =>
      if b.toNat < 128 then some (b.toNat, bs)
      else (decode k bs).map fun p => (b.toNat % 128 + 128 * p.1, p.2)

@[simp] theorem encode_zero (n : Nat) : encode 0 n = [] := rfl

@[simp] theorem decode_zero (bs : List UInt8) : decode 0 bs = none := rfl

@[simp] theorem decode_succ_nil (k : Nat) : decode (k + 1) [] = none := rfl

theorem toNat_toUInt8_of_lt {n : Nat} (h : n < 256) : n.toUInt8.toNat = n := by
  simp [Nat.mod_eq_of_lt h]

set_option maxRecDepth 4000 in
/-- Setting the continuation bit of a byte below `256` adds `128` to its low seven bits. -/
theorem lor_continuation_of_lt : ∀ m < 256, (m ||| 128) = m % 128 + 128 := by decide

/-- A writer that stores `x ||| 128` into a byte stores the low seven bits of `x` with the
continuation bit set, whatever the width of `x`. -/
theorem lor_continuation_mod (x : Nat) : (x ||| 128) % 256 = x % 128 + 128 := by
  have h : (x ||| 128) % 2 ^ 8 = x % 2 ^ 8 ||| 128 % 2 ^ 8 := Nat.or_mod_two_pow
  have h2 := lor_continuation_of_lt (x % 256) (Nat.mod_lt _ (by norm_num))
  norm_num at h
  rw [h, h2]
  omega

/-- The digits after the first of a number below `128 ^ (k + 1)` fit in `k` bytes. -/
theorem div_lt_pow_of_lt_pow_succ {k n : Nat} (h : n < 128 ^ (k + 1)) : n / 128 < 128 ^ k := by
  rw [pow_succ] at h
  exact Nat.div_lt_of_lt_mul (by omega)

/-- A number of two digits or more that fits in `k + 1` bytes leaves a budget for its second
digit. -/
theorem pos_of_not_lt {k n : Nat} (hn : ¬ n < 128) (h : n < 128 ^ (k + 1)) : 0 < k := by
  rcases Nat.eq_zero_or_pos k with rfl | hpos
  · simp at h
    omega
  · exact hpos

/-- The byte of a digit that is not the last has its continuation bit set. -/
theorem not_toNat_digit_lt (n : Nat) : ¬ (n % 128 + 128).toUInt8.toNat < 128 := by
  rw [toNat_toUInt8_of_lt (by omega)]
  omega

/-- **Round trip.** A number below `128 ^ k` is read back from its `k`-byte encoding, and the
bytes after it are left as they were; the budget must allow at least one byte. -/
theorem decode_encode (k n : Nat) (rest : List UInt8) (hk : 0 < k) (h : n < 128 ^ k) :
    decode k (encode k n ++ rest) = some (n, rest) := by
  induction k generalizing n with
  | zero => omega
  | succ k ih =>
      by_cases hn : n < 128
      · have hb : n.toUInt8.toNat = n := toNat_toUInt8_of_lt (by omega)
        simp [encode, decode, hn, hb]
      · have hb : (n % 128 + 128).toUInt8.toNat = n % 128 + 128 :=
          toNat_toUInt8_of_lt (by omega)
        have hlow : ¬ n % 128 + 128 < 128 := by omega
        simp only [encode, hn, if_false, List.cons_append, decode, hb, hlow,
          ih (n / 128) (pos_of_not_lt hn h) (div_lt_pow_of_lt_pow_succ h), Option.map_some]
        congr 2
        omega

/-- A number that fits in `k` bytes is written the same way under any larger budget. -/
theorem encode_eq_of_lt_pow {k k' n : Nat} (hk : 0 < k) (hle : k ≤ k') (h : n < 128 ^ k) :
    encode k' n = encode k n := by
  induction k generalizing k' n with
  | zero => omega
  | succ k ih =>
      obtain ⟨m, rfl⟩ : ∃ m, k' = m + 1 := ⟨k' - 1, by omega⟩
      by_cases hn : n < 128
      · simp [encode, hn]
      · have hrest := ih (pos_of_not_lt hn h) (Nat.le_of_succ_le_succ hle)
          (div_lt_pow_of_lt_pow_succ h)
        simp only [encode, hn, if_false, hrest]

/-- **A cut encoding is refused.** A proper prefix of an encoding ends inside the number, so a
reader with any budget returns `none`. -/
theorem decode_take_encode (k k' n j : Nat) (h : j < (encode k' n).length) :
    decode k ((encode k' n).take j) = none := by
  induction k' generalizing k n j with
  | zero => simp at h
  | succ k' ih =>
      by_cases hn : n < 128
      · -- a one-byte encoding: its only proper prefix is empty
        have hj : j = 0 := by simpa [encode, hn] using h
        subst hj
        cases k <;> rfl
      · cases j with
        | zero => cases k <;> rfl
        | succ j =>
            have hj : j < (encode k' (n / 128)).length := by simpa [encode, hn] using h
            cases k with
            | zero => rfl
            | succ k =>
                simp only [encode, hn, if_false, List.take_succ_cons, decode,
                  not_toNat_digit_lt, ih k (n / 128) j hj, Option.map_none]

/-- With a budget of at least one byte the encoding is never empty. -/
theorem encode_ne_nil (k n : Nat) (hk : 0 < k) : encode k n ≠ [] := by
  cases k with
  | zero => omega
  | succ k =>
      unfold encode
      split <;> simp

/-- A successful read consumes at least one byte. -/
theorem decode_shortens {k : Nat} {bs rest : List UInt8} {n : Nat}
    (h : decode k bs = some (n, rest)) : rest.length < bs.length := by
  induction k generalizing bs n rest with
  | zero => simp at h
  | succ k ih =>
      cases bs with
      | nil => simp at h
      | cons b bs =>
          simp only [decode] at h
          split at h
          · simp only [Option.some.injEq, Prod.mk.injEq] at h
            simp [← h.2]
          · obtain ⟨⟨m, r⟩, hd, he⟩ := Option.map_eq_some_iff.mp h
            simp only [Prod.mk.injEq] at he
            have := ih hd
            simp only [List.length_cons, ← he.2]
            omega

end RocksCloud.Lib.Leb128
