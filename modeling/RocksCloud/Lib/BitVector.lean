import Mathlib

/-!
# Bit vectors as lists of booleans

Succinct structures keep a bit vector as 64-bit words, bit `i` of the vector at bit `i % 64`
of word `i / 64`, together with the number of valid bits. This module gives the two views and
the law that relates them, `unpackWords_packWords`: packing a bit list into words and reading
the first `size` bits back gives the list again.

It also gives the specification of the parenthesis navigation of a balanced-parentheses
vector (`1` opens, `0` closes): `findClose bits i` is the position of the parenthesis that
closes the one opened at `i`, found by scanning with an excess counter. Range min-max trees
compute the same position faster; the tries of the development only use the position.
-/

set_option autoImplicit false

namespace RocksCloud.Lib

/-! ## Words -/

/-- The number whose binary digits, least significant first, are `bs`. -/
def bitsValue : List Bool → Nat
  | [] => 0
  | b :: bs => b.toNat + 2 * bitsValue bs

/-- The 64 bits of a word, least significant first. -/
def wordBits (w : UInt64) : List Bool := (List.range 64).map fun i => w.toNat.testBit i

/-- Words holding `bs`, 64 bits a word; `fuel` bounds the number of words. -/
def packWordsAux : Nat → List Bool → List UInt64
  | 0, _ => []
  | fuel + 1, bs =>
      if bs = [] then [] else (bitsValue (bs.take 64)).toUInt64 :: packWordsAux fuel (bs.drop 64)

/-- The words of a bit vector, as a builder that pushes bit after bit stores them. -/
def packWords (bs : List Bool) : List UInt64 := packWordsAux bs.length bs

/-- The first `size` bits of a word vector. -/
def unpackWords (words : List UInt64) (size : Nat) : List Bool :=
  (words.flatMap wordBits).take size

@[simp] theorem bitsValue_nil : bitsValue [] = 0 := rfl

@[simp] theorem bitsValue_cons (b : Bool) (bs : List Bool) :
    bitsValue (b :: bs) = b.toNat + 2 * bitsValue bs := rfl

/-- A list of `k` bits denotes a number below `2 ^ k`. -/
theorem bitsValue_lt (bs : List Bool) : bitsValue bs < 2 ^ bs.length := by
  induction bs with
  | nil => simp
  | cons b bs ih =>
      have hb : b.toNat ≤ 1 := Bool.toNat_le b
      simp only [bitsValue_cons, List.length_cons, pow_succ]
      omega

/-- Bit `i` of `bitsValue bs` is the `i`-th element of `bs`, and `false` past its end. -/
theorem testBit_bitsValue (bs : List Bool) (i : Nat) :
    (bitsValue bs).testBit i = bs.getD i false := by
  induction bs generalizing i with
  | nil => simp
  | cons b bs ih =>
      cases i with
      | zero => cases b <;> simp [Nat.testBit_zero]
      | succ i =>
          have h : (b.toNat + 2 * bitsValue bs) / 2 = bitsValue bs := by
            have hb : b.toNat ≤ 1 := Bool.toNat_le b
            omega
          rw [bitsValue_cons, Nat.testBit_succ, h, ih]
          simp

/-- The bits of a word built from at most 64 bits are those bits, padded with `false`. -/
theorem wordBits_bitsValue (bs : List Bool) (h : bs.length ≤ 64) :
    wordBits (bitsValue bs).toUInt64 = bs ++ List.replicate (64 - bs.length) false := by
  have hlt : bitsValue bs < 2 ^ 64 :=
    lt_of_lt_of_le (bitsValue_lt bs) (Nat.pow_le_pow_right (by norm_num) h)
  apply List.ext_getElem
  · simp [wordBits]; omega
  · intro i h1 h2
    simp only [wordBits, List.getElem_map, List.getElem_range, Nat.toUInt64_eq,
      UInt64.toNat_ofNat', Nat.mod_eq_of_lt hlt, testBit_bitsValue]
    by_cases hi : i < bs.length
    · simp [List.getElem_append_left hi, hi]
    · rw [List.getElem_append_right (by omega)]
      simp [hi]

/-- The words hold the bits in order, each word padded with `false` up to 64 bits. -/
theorem flatMap_wordBits_packWordsAux (fuel : Nat) (bs : List Bool) (h : bs.length ≤ 64 * fuel) :
    ∃ pad : List Bool, (packWordsAux fuel bs).flatMap wordBits = bs ++ pad := by
  induction fuel generalizing bs with
  | zero =>
      have hnil : bs = [] := List.eq_nil_of_length_eq_zero (by omega)
      exact ⟨[], by simp [packWordsAux, hnil]⟩
  | succ fuel ih =>
      by_cases hbs : bs = []
      · exact ⟨[], by simp [packWordsAux, hbs]⟩
      · have hrest : (bs.drop 64).length ≤ 64 * fuel := by simp; omega
        obtain ⟨pad, hpad⟩ := ih (bs.drop 64) hrest
        have htake : (bs.take 64).length ≤ 64 := by simp
        by_cases hshort : bs.length ≤ 64
        · -- a last partial word: the rest is empty and only padding follows
          have hdrop : bs.drop 64 = [] := List.drop_eq_nil_of_le hshort
          refine ⟨List.replicate (64 - bs.length) false ++ pad, ?_⟩
          rw [packWordsAux, if_neg hbs, List.flatMap_cons, wordBits_bitsValue _ htake, hpad,
            hdrop, List.take_of_length_le hshort]
          simp
        · have hfull : (bs.take 64).length = 64 := by simp; omega
          refine ⟨pad, ?_⟩
          rw [packWordsAux, if_neg hbs, List.flatMap_cons, wordBits_bitsValue _ htake, hpad,
            hfull]
          simp only [Nat.sub_self, List.replicate_zero, List.append_nil]
          rw [← List.append_assoc, List.take_append_drop]

/-- **Packing round trip.** Reading back as many bits as were packed gives the bit list. -/
theorem unpackWords_packWords (bs : List Bool) : unpackWords (packWords bs) bs.length = bs := by
  obtain ⟨pad, hpad⟩ := flatMap_wordBits_packWordsAux bs.length bs (by omega)
  simp [unpackWords, packWords, hpad]

/-! ## Appending bits

A vector that grows by appending keeps its value below `2 ^ size`: the appended bits add their
own value, shifted by the old size. -/

theorem bitsValue_append (xs ys : List Bool) :
    bitsValue (xs ++ ys) = bitsValue xs + 2 ^ xs.length * bitsValue ys := by
  induction xs with
  | nil => simp
  | cons x xs ih =>
      rw [List.cons_append, bitsValue_cons, bitsValue_cons, ih, List.length_cons, pow_succ]
      ring

@[simp] theorem bitsValue_replicate_false (n : Nat) : bitsValue (List.replicate n false) = 0 := by
  induction n with
  | zero => rfl
  | succ n ih => simp [List.replicate_succ, ih]

theorem bitsValue_replicate_true (n : Nat) : bitsValue (List.replicate n true) = 2 ^ n - 1 := by
  induction n with
  | zero => rfl
  | succ n ih =>
      have hpos : 0 < 2 ^ n := by positivity
      rw [List.replicate_succ, bitsValue_cons, ih, pow_succ]
      simp only [Bool.toNat_true]
      omega

/-- The first `len` bits of `x`, least significant first. -/
def lowBits (x len : Nat) : List Bool := (List.range len).map x.testBit

@[simp] theorem length_lowBits (x len : Nat) : (lowBits x len).length = len := by
  simp [lowBits]

theorem bitsValue_lowBits (x len : Nat) : bitsValue (lowBits x len) = x % 2 ^ len := by
  induction len with
  | zero => simp [lowBits, Nat.mod_one]
  | succ len ih =>
      have hsplit : lowBits x (len + 1) = lowBits x len ++ [x.testBit len] := by
        simp [lowBits, List.range_succ]
      rw [hsplit, bitsValue_append, ih, Nat.mod_pow_succ, length_lowBits, bitsValue_cons,
        bitsValue_nil, Nat.toNat_testBit]
      ring

/-- Appending the low `len` bits of a number below `2 ^ len` adds it above the old bits. -/
theorem bitsValue_append_lowBits {x len : Nat} (hx : x < 2 ^ len) (bs : List Bool) :
    bitsValue (bs ++ lowBits x len) = bitsValue bs + 2 ^ bs.length * x := by
  rw [bitsValue_append, bitsValue_lowBits, Nat.mod_eq_of_lt hx]

/-- The low bits of `2 ^ len - 1` are all set. -/
theorem lowBits_two_pow_sub_one (len : Nat) :
    lowBits (2 ^ len - 1) len = List.replicate len true := by
  apply List.ext_getElem
  · simp
  · intro i h1 _
    simp only [lowBits, List.getElem_map, List.getElem_range, Nat.testBit_two_pow_sub_one,
      List.getElem_replicate]
    simpa using h1

/-! ## Word vectors as numbers -/

/-- The number a word vector denotes: word `k` holds its bits `64 * k` to `64 * k + 63`. -/
def wordsValue : List UInt64 → Nat
  | [] => 0
  | w :: ws => w.toNat + 2 ^ 64 * wordsValue ws

@[simp] theorem wordsValue_nil : wordsValue [] = 0 := rfl

@[simp] theorem wordsValue_cons (w : UInt64) (ws : List UInt64) :
    wordsValue (w :: ws) = w.toNat + 2 ^ 64 * wordsValue ws := rfl

theorem wordsValue_append (xs ys : List UInt64) :
    wordsValue (xs ++ ys) = wordsValue xs + 2 ^ (64 * xs.length) * wordsValue ys := by
  induction xs with
  | nil => simp
  | cons x xs ih =>
      rw [List.cons_append, wordsValue_cons, wordsValue_cons, ih, List.length_cons, Nat.mul_succ,
        pow_add]
      ring

@[simp] theorem wordsValue_replicate_zero (n : Nat) : wordsValue (List.replicate n 0) = 0 := by
  induction n with
  | zero => rfl
  | succ n ih => simp [List.replicate_succ, ih]

/-- Words with every bit set denote the number with every bit set. -/
theorem wordsValue_replicate_of_toNat {w : UInt64} (hw : w.toNat = 2 ^ 64 - 1) (n : Nat) :
    wordsValue (List.replicate n w) = 2 ^ (64 * n) - 1 := by
  induction n with
  | zero => rfl
  | succ n ih =>
      have hpos : 0 < 2 ^ (64 * n) := by positivity
      rw [List.replicate_succ, wordsValue_cons, ih, hw, Nat.mul_succ, pow_add]
      have h64 : (2 : Nat) ^ 64 = 18446744073709551616 := by norm_num
      rw [h64]
      omega

/-- Bit `i` of the number is bit `i % 64` of word `i / 64`, and `0` past the last word. -/
theorem testBit_wordsValue (ws : List UInt64) (i : Nat) :
    (wordsValue ws).testBit i = (ws.getD (i / 64) 0).toNat.testBit (i % 64) := by
  induction ws generalizing i with
  | nil => simp
  | cons w ws ih =>
      rw [wordsValue_cons, Nat.add_comm, Nat.testBit_two_pow_mul_add _ w.toNat_lt]
      by_cases hi : i < 64
      · simp [hi, Nat.div_eq_of_lt hi, Nat.mod_eq_of_lt hi]
      · obtain ⟨j, rfl⟩ : ∃ j, i = j + 64 := ⟨i - 64, by omega⟩
        simp [ih, Nat.add_div_right]

/-- A vector with word `k` replaced, split at word `k`. -/
theorem wordsValue_take_cons_drop {ws : List UInt64} {k : Nat} (hk : k < ws.length)
    (w : UInt64) :
    wordsValue (ws.take k ++ w :: ws.drop (k + 1)) =
      wordsValue (ws.take k) + 2 ^ (64 * k) * (w.toNat + 2 ^ 64 * wordsValue (ws.drop (k + 1))) := by
  rw [wordsValue_append, wordsValue_cons, List.length_take_of_le hk.le]

theorem wordsValue_eq_take_cons_drop {ws : List UInt64} {k : Nat} (hk : k < ws.length) :
    wordsValue ws = wordsValue (ws.take k) +
      2 ^ (64 * k) * (ws[k].toNat + 2 ^ 64 * wordsValue (ws.drop (k + 1))) := by
  conv_lhs => rw [← List.take_append_drop k ws, ← List.getElem_cons_drop hk]
  exact wordsValue_take_cons_drop hk ws[k]

/-- Changing word `k` changes the number by the difference of the two words, `64 * k` bits up. -/
theorem wordsValue_modify_add {ws : List UInt64} {k : Nat} (hk : k < ws.length)
    (f : UInt64 → UInt64) :
    wordsValue (ws.modify k f) + 2 ^ (64 * k) * ws[k].toNat =
      wordsValue ws + 2 ^ (64 * k) * (f ws[k]).toNat := by
  rw [List.modify_eq_take_cons_drop hk, wordsValue_take_cons_drop hk,
    wordsValue_eq_take_cons_drop hk]
  ring

/-- Writing word `k` in place of a zero word adds the new word, `64 * k` bits up. -/
theorem wordsValue_set_of_zero {ws : List UInt64} {k : Nat} (hk : k < ws.length)
    (hzero : ws[k] = 0) (w : UInt64) :
    wordsValue (ws.set k w) = wordsValue ws + 2 ^ (64 * k) * w.toNat := by
  rw [List.set_eq_take_cons_drop w hk, wordsValue_take_cons_drop hk,
    wordsValue_eq_take_cons_drop hk, hzero]
  simp only [UInt64.toNat_zero]
  ring

/-! ## Word arithmetic -/

/-- Or-ing into a word bits that all lie above its set bits adds them. -/
theorem toNat_or_eq_add {w y : UInt64} {p : Nat} (hw : w.toNat < 2 ^ p)
    (hy : 2 ^ p ∣ y.toNat) : (w ||| y).toNat = w.toNat + y.toNat := by
  obtain ⟨c, hc⟩ := hy
  rw [UInt64.toNat_or, hc, Nat.lor_comm, ← Nat.two_pow_add_eq_or_of_lt hw]
  ring

theorem toNat_shiftLeft_of_lt (x : UInt64) {p : Nat} (hp : p < 64) :
    (x <<< p.toUInt64).toNat = x.toNat * 2 ^ p % 2 ^ 64 := by
  rw [UInt64.toNat_shiftLeft, Nat.toUInt64_eq, UInt64.toNat_ofNat', Nat.shiftLeft_eq,
    Nat.mod_eq_of_lt (by omega : p % 2 ^ 64 < 64), Nat.mod_eq_of_lt (by omega : p < 2 ^ 64)]

theorem toNat_shiftRight_of_lt (x : UInt64) {p : Nat} (hp : p < 64) :
    (x >>> p.toUInt64).toNat = x.toNat / 2 ^ p := by
  rw [UInt64.toNat_shiftRight, Nat.toUInt64_eq, UInt64.toNat_ofNat', Nat.shiftRight_eq_div_pow,
    Nat.mod_eq_of_lt (by omega : p % 2 ^ 64 < 64), Nat.mod_eq_of_lt (by omega : p < 2 ^ 64)]

/-- Reading bit `p` of a word by a shift and a mask. -/
theorem shiftRight_and_one_ne_zero (w : UInt64) {p : Nat} (hp : p < 64) :
    (w >>> p.toUInt64 &&& 1 != 0) = w.toNat.testBit p := by
  have hand : (w >>> p.toUInt64 &&& 1).toNat = w.toNat / 2 ^ p % 2 := by
    rw [UInt64.toNat_and, toNat_shiftRight_of_lt w hp, UInt64.toNat_one, Nat.and_one_is_mod]
  rw [Nat.testBit_eq_decide_div_mod_eq, Bool.eq_iff_iff, bne_iff_ne, decide_eq_true_iff, ne_eq,
    ← UInt64.toNat_inj, hand, UInt64.toNat_zero]
  omega

/-- A word shifted up by `p` has its low `p` bits clear. -/
theorem two_pow_dvd_toNat_shiftLeft (x : UInt64) {p : Nat} (hp : p < 64) :
    2 ^ p ∣ (x <<< p.toUInt64).toNat := by
  rw [toNat_shiftLeft_of_lt x hp]
  exact (Nat.dvd_mod_iff (pow_dvd_pow 2 hp.le)).2 (Dvd.intro_left _ rfl)

/-- Or-ing into word `k` bits above all of its set bits adds them, `64 * k` bits up. -/
theorem wordsValue_modify_or {ws : List UInt64} {k p : Nat} (hk : k < ws.length)
    (hlow : ws[k].toNat < 2 ^ p) {y : UInt64} (hy : 2 ^ p ∣ y.toNat) :
    wordsValue (ws.modify k (· ||| y)) = wordsValue ws + 2 ^ (64 * k) * y.toNat := by
  have h := wordsValue_modify_add hk (· ||| y)
  rw [toNat_or_eq_add hlow hy, Nat.mul_add] at h
  omega

/-- The top `n` of `m` set bits, shifted down. -/
theorem two_pow_sub_one_div_two_pow {m n : Nat} (hn : n ≤ m) :
    (2 ^ m - 1) / 2 ^ (m - n) = 2 ^ n - 1 := by
  have hpow : 2 ^ n * 2 ^ (m - n) = 2 ^ m := by rw [← pow_add, Nat.add_sub_cancel' hn]
  have hpos : 0 < 2 ^ (m - n) := by positivity
  have hm : 0 < 2 ^ m := by positivity
  have hone : 1 ≤ 2 ^ n := Nat.one_le_two_pow
  apply Nat.div_eq_of_lt_le
  · rw [Nat.sub_mul, hpow]
    omega
  · rw [Nat.sub_add_cancel hone, hpow]
    omega

/-- A word shifted up by `p` splits at the word boundary: the bits that stay, and the high
`p` bits that a shift down by `64 - p` moves into the next word. -/
theorem mul_two_pow_mod_add (x : Nat) {p : Nat} (hp : p ≤ 64) :
    x * 2 ^ p % 2 ^ 64 + 2 ^ 64 * (x / 2 ^ (64 - p)) = x * 2 ^ p := by
  have hpow : 2 ^ 64 = 2 ^ p * 2 ^ (64 - p) := by rw [← pow_add, Nat.add_sub_cancel' hp]
  have hdiv : x * 2 ^ p / 2 ^ 64 = x / 2 ^ (64 - p) := by
    rw [hpow, Nat.mul_comm x, Nat.mul_div_mul_left _ _ (by positivity)]
  rw [← hdiv, Nat.mod_add_div]

/-! ## Parentheses -/

/-- Scan `bits` (the tail of a vector, starting at position `pos`) for the position where the
`excess` unmatched open parentheses are all closed. Past the end the scan answers the length
of the vector. -/
def closeFrom : List Bool → Nat → Nat → Nat
  | [], pos, _ => pos
  | true :: bs, pos, excess => closeFrom bs (pos + 1) (excess + 1)
  | false :: bs, pos, excess => if excess = 1 then pos else closeFrom bs (pos + 1) (excess - 1)

/-- `find_close`: the position of the parenthesis that closes the one opened at `i`. -/
def findClose (bits : List Bool) (i : Nat) : Nat := closeFrom (bits.drop (i + 1)) (i + 1) 1

end RocksCloud.Lib
