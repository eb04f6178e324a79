import Mathlib
import RocksCloud.Lib.BitVector

/-!
# `succinct::BitVectorBuilder` (`utilities/pdt/bit_vector.h`)

The builder keeps bit `i` at bit `i % 64` of word `i / 64` of `m_bits_`, and `m_size_` bits.
It grows by `push_back`, `append_bits`, `zero_extend`, `one_extend` and `append`, and
`subtree::append_to` of `DefaultTreeBuilder` builds the parentheses of the trie with them.

`m_cur_word_` points at the word the next bits are or-ed into. It is an index into the words
here, `none` for the null pointer of `BitVectorBuilder()` and for the pointer that
`BitVectorBuilder(0, set)` leaves unset. Sizes are `Nat`: a vector of `2 ^ 64` bits cannot be
allocated. `append(*this)` reads the words it resizes and is not modelled: `append` takes its
argument by value.

`append_bits(bits, len)` asks for `len <= 64` in a comment and asserts that no bit of `bits`
above `len` is set (`NoSpuriousBits`); the calls are modelled on inputs that keep it.

## Results

* `Holds b bs`: the words of `b` hold the bits `bs`, with their padding clear, `word_for`
  words of them, and `m_cur_word_` at the last word;
* one lemma per call, saying which bits it appends (`Holds.pushBack`, `Holds.appendBits`,
  `Holds.zeroExtend`, `Holds.oneExtend`, `Holds.append`), the last two over the loops of the
  source (`spliceLoop_spec`);
* `builds_holds`: every sequence of calls keeps it, and so (`bitAt_of_holds`) the bits below
  `size()` are the appended ones and those above are clear.
-/

set_option autoImplicit false

namespace RocksCloud.Pdt

open RocksCloud.Lib

/-- `BitVectorBuilder`: `m_bits_`, `m_size_` and `m_cur_word_`. -/
structure BitVectorBuilder where
  bits : List UInt64
  size : Nat
  curWord : Option Nat
  deriving DecidableEq, Repr

namespace BitVectorBuilder

/-- `word_for(size)`: the words that hold `size` bits. -/
def wordFor (size : Nat) : Nat := (size + 64 - 1) / 64

/-- `*m_cur_word_ |= x`. -/
def orCurWord (b : BitVectorBuilder) (x : UInt64) : BitVectorBuilder :=
  match b.curWord with
  | some i => { b with bits := b.bits.modify i (· ||| x) }
  | none => b

/-- `m_bits_.push_back(w); m_cur_word_ = &m_bits_.back();` -/
def pushWord (b : BitVectorBuilder) (w : UInt64) : BitVectorBuilder :=
  { b with bits := b.bits ++ [w], curWord := some b.bits.length }

/-- `m_cur_word_ = &m_bits_.back();` -/
def pointAtBack (b : BitVectorBuilder) : BitVectorBuilder :=
  { b with curWord := some (b.bits.length - 1) }

/-- `BitVectorBuilder()`. -/
def empty : BitVectorBuilder := ⟨[], 0, none⟩

/-- `BitVectorBuilder(size, set)`: `word_for(size)` words of `uint64_t(-set)`, the last one
shifted down so that only `size % 64` of its bits stay set. -/
def ofSize (size : Nat) (set : Bool) : BitVectorBuilder :=
  let b : BitVectorBuilder := ⟨List.replicate (wordFor size) (-set.toUInt64), size, none⟩
  if size ≠ 0 then
    let b := b.pointAtBack
    if set && size % 64 != 0 then
      { b with bits := b.bits.modify (b.bits.length - 1) (· >>> (64 - size % 64).toUInt64) }
    else b
  else b

/-- `push_back(b)`: a new zero word when the last one is full, then the bit or-ed in. -/
def pushBack (b : BitVectorBuilder) (bit : Bool) : BitVectorBuilder :=
  let posInWord := b.size % 64
  let b := if posInWord = 0 then b.pushWord 0 else b
  { b.orCurWord (bit.toUInt64 <<< posInWord.toUInt64) with size := b.size + 1 }

/-- `append_bits(bits, len)`: a new word when the last one is full; otherwise the low bits
or-ed into the last word, and the bits that do not fit in a new word. -/
def appendBits (b : BitVectorBuilder) (bits : UInt64) (len : Nat) : BitVectorBuilder :=
  if len = 0 then b
  else
    let posInWord := b.size % 64
    let b := { b with size := b.size + len }
    let b :=
      if posInWord = 0 then b.pushWord bits
      else
        let b := b.orCurWord (bits <<< posInWord.toUInt64)
        if len > 64 - posInWord then b.pushWord (bits >>> (64 - posInWord).toUInt64) else b
    b.pointAtBack

/-- The contract of `append_bits`: at most a word (the comment), and no bit set above `len`
(the assertion). -/
def NoSpuriousBits (bits : UInt64) (len : Nat) : Prop :=
  len ≤ 64 ∧ (len = 64 ∨ bits >>> len.toUInt64 = 0)

instance (bits : UInt64) (len : Nat) : Decidable (NoSpuriousBits bits len) :=
  inferInstanceAs (Decidable (_ ∧ _))

/-- `zero_extend(n)`: zero words up to `word_for(m_size_ + n)`. -/
def zeroExtend (b : BitVectorBuilder) (n : Nat) : BitVectorBuilder :=
  let b := { b with size := b.size + n }
  let needed := wordFor b.size - b.bits.length
  if needed ≠ 0 then { b with bits := b.bits ++ List.replicate needed 0 }.pointAtBack else b

/-- `uint64_t(-1)`. -/
def allOnes : UInt64 := -1

/-- `one_extend(n)`: whole words of ones while `n >= 64`, then the `n % 64` left. -/
def oneExtend (b : BitVectorBuilder) (n : Nat) : BitVectorBuilder :=
  if h : 64 ≤ n then oneExtend (b.appendBits allOnes 64) (n - 64)
  else if n ≠ 0 then b.appendBits (allOnes >>> (64 - n).toUInt64) n
  else b
termination_by n

/-- `std::vector::resize(n)` of words: cut to `n`, or filled up with zero words. -/
def resize (bits : List UInt64) (n : Nat) : List UInt64 :=
  bits.take n ++ List.replicate (n - bits.length) 0

/-- `std::copy(src.begin(), src.end(), dst.begin() + pos)`. -/
def copyAt (dst : List UInt64) (pos : Nat) (src : List UInt64) : List UInt64 :=
  dst.take pos ++ src ++ dst.drop (pos + src.length)

/-- One turn of the loop of `append` over the words of `rhs` but its last, with the words and
the index of `cur_word`: `*cur_word |= w << shift; *++cur_word = w >> (64 - shift);` -/
def spliceStep (shift : Nat) (acc : List UInt64 × Nat) (w : UInt64) : List UInt64 × Nat :=
  let bits := acc.1.modify acc.2 (· ||| (w <<< shift.toUInt64))
  (bits.set (acc.2 + 1) (w >>> (64 - shift).toUInt64), acc.2 + 1)

/-- The last word of `rhs` after the loop: its high bits get a word of their own only when
`cur_word` is not the last word. -/
def spliceLast (shift : Nat) (last : UInt64) (acc : List UInt64 × Nat) : List UInt64 :=
  let bits := acc.1.modify acc.2 (· ||| (last <<< shift.toUInt64))
  if acc.2 < bits.length - 1 then bits.set (acc.2 + 1) (last >>> (64 - shift).toUInt64)
  else bits

/-- `append(rhs)`: the words of `rhs` copied when the size is a multiple of 64, spliced in
at the bit offset `shift` otherwise. -/
def append (b rhs : BitVectorBuilder) : BitVectorBuilder :=
  if rhs.size = 0 then b
  else
    let pos := b.bits.length
    let shift := b.size % 64
    let size := b.size + rhs.size
    let bits := resize b.bits (wordFor size)
    let bits :=
      if shift = 0 then copyAt bits pos rhs.bits
      else spliceLast shift (rhs.bits.getLastD 0)
        (rhs.bits.dropLast.foldl (spliceStep shift) (bits, pos - 1))
    pointAtBack ⟨bits, size, b.curWord⟩

/-- Bit `pos` of the words, read as `BitVector::operator[]` reads it (without its assertion
`pos < size()`): `(m_bits_[pos / 64] >> (pos % 64)) & 1`. Past the last word it reads `0`. -/
def bitAt (bits : List UInt64) (pos : Nat) : Bool :=
  (bits.getD (pos / 64) 0 >>> (pos % 64).toUInt64) &&& 1 != 0

/-! ## Small lemmas -/

@[simp] theorem pushWord_bits (b : BitVectorBuilder) (w : UInt64) :
    (b.pushWord w).bits = b.bits ++ [w] := rfl

@[simp] theorem pushWord_size (b : BitVectorBuilder) (w : UInt64) : (b.pushWord w).size = b.size :=
  rfl

@[simp] theorem pointAtBack_bits (b : BitVectorBuilder) : b.pointAtBack.bits = b.bits := rfl

@[simp] theorem pointAtBack_size (b : BitVectorBuilder) : b.pointAtBack.size = b.size := rfl

@[simp] theorem pointAtBack_curWord (b : BitVectorBuilder) :
    b.pointAtBack.curWord = some (b.bits.length - 1) := rfl

/-- Bit `pos` of the words is bit `pos` of the number they denote. -/
theorem bitAt_eq_testBit (bits : List UInt64) (pos : Nat) :
    bitAt bits pos = (wordsValue bits).testBit pos := by
  rw [bitAt, shiftRight_and_one_ne_zero _ (Nat.mod_lt _ (by norm_num)), testBit_wordsValue]

/-! ## What the words hold -/

/-- The words of `b` hold the bits `bs`: there are `word_for(size())` of them, they denote
the number whose bits are `bs` (so the padding above `size()` is clear), and `m_cur_word_`
points at the last one. -/
structure Holds (b : BitVectorBuilder) (bs : List Bool) : Prop where
  size_eq : b.size = bs.length
  length_eq : b.bits.length = wordFor b.size
  value_eq : wordsValue b.bits = bitsValue bs
  curWord_eq : b.bits ≠ [] → b.curWord = some (b.bits.length - 1)

variable {b r : BitVectorBuilder} {bs rs : List Bool}

theorem Holds.value_lt (h : Holds b bs) : wordsValue b.bits < 2 ^ b.size := by
  rw [h.value_eq, h.size_eq]
  exact bitsValue_lt bs

/-- A builder with a partial last word has a last word. -/
theorem Holds.bits_ne_nil (h : Holds b bs) (hp : b.size % 64 ≠ 0) : b.bits ≠ [] := by
  have hlen := h.length_eq
  unfold wordFor at hlen
  intro hnil
  rw [hnil, List.length_nil] at hlen
  omega

/-- The last word holds the bits from `64 * (length - 1)` on, and none above `size()`. -/
theorem Holds.getLast_lt (h : Holds b bs) (hne : b.bits ≠ []) :
    (b.bits.getLast hne).toNat < 2 ^ (b.size - 64 * (b.bits.length - 1)) := by
  have hval : wordsValue b.bits =
      wordsValue b.bits.dropLast + 2 ^ (64 * (b.bits.length - 1)) * (b.bits.getLast hne).toNat := by
    conv_lhs => rw [← List.dropLast_append_getLast hne]
    simp [wordsValue_append]
  have hsize : 64 * (b.bits.length - 1) ≤ b.size := by
    have hlen := h.length_eq
    unfold wordFor at hlen
    omega
  have hlt : 2 ^ (64 * (b.bits.length - 1)) * (b.bits.getLast hne).toNat <
      2 ^ (64 * (b.bits.length - 1)) * 2 ^ (b.size - 64 * (b.bits.length - 1)) := by
    rw [← pow_add, Nat.add_sub_cancel' hsize]
    have := h.value_lt
    omega
  exact Nat.lt_of_mul_lt_mul_left hlt

/-- Or-ing into the last word, above `size()`, bits that fit in it. -/
theorem Holds.wordsValue_orLast (h : Holds b bs) (hp : b.size % 64 ≠ 0) {y : UInt64}
    (hy : 2 ^ (b.size % 64) ∣ y.toNat) :
    wordsValue (b.bits.modify (b.bits.length - 1) (· ||| y)) =
      wordsValue b.bits + 2 ^ (64 * (b.bits.length - 1)) * y.toNat := by
  have hne := h.bits_ne_nil hp
  have hlen := h.length_eq
  unfold wordFor at hlen
  have hoff : b.size - 64 * (b.bits.length - 1) = b.size % 64 := by omega
  have hlast := h.getLast_lt hne
  rw [List.getLast_eq_getElem, hoff] at hlast
  exact wordsValue_modify_or (by omega) hlast hy

/-! ## One lemma per call -/

theorem noSpuriousBits_iff {bits : UInt64} {len : Nat} :
    NoSpuriousBits bits len ↔ len ≤ 64 ∧ bits.toNat < 2 ^ len := by
  constructor
  · rintro ⟨hle, hcase⟩
    refine ⟨hle, ?_⟩
    by_cases h64 : len = 64
    · subst h64
      exact bits.toNat_lt
    · have hdiv := congrArg UInt64.toNat (hcase.resolve_left h64)
      rw [toNat_shiftRight_of_lt bits (by omega), UInt64.toNat_zero] at hdiv
      exact (Nat.div_eq_zero_iff_lt (by positivity)).mp hdiv
  · rintro ⟨hle, hlt⟩
    refine ⟨hle, ?_⟩
    by_cases h64 : len = 64
    · exact .inl h64
    · right
      rw [← UInt64.toNat_inj, toNat_shiftRight_of_lt bits (by omega), UInt64.toNat_zero]
      exact Nat.div_eq_of_lt hlt

@[simp] theorem orCurWord_some (bits : List UInt64) (size i : Nat) (x : UInt64) :
    (⟨bits, size, some i⟩ : BitVectorBuilder).orCurWord x = ⟨bits.modify i (· ||| x), size, some i⟩ :=
  rfl

theorem Holds.appendBits (h : Holds b bs) {bits : UInt64} {len : Nat}
    (hc : NoSpuriousBits bits len) :
    Holds (b.appendBits bits len) (bs ++ lowBits bits.toNat len) := by
  obtain ⟨hlen64, hx⟩ := noSpuriousBits_iff.mp hc
  have hsize := h.size_eq
  have hlen := h.length_eq
  unfold wordFor at hlen
  rcases Nat.eq_zero_or_pos len with hzero | hpos
  · -- `if (!len) return;`
    subst hzero
    simpa [BitVectorBuilder.appendBits, lowBits] using h
  by_cases hp : b.size % 64 = 0
  · -- the bits start a word of their own
    have hcall : b.appendBits bits len = ⟨b.bits ++ [bits], b.size + len, some b.bits.length⟩ := by
      simp [BitVectorBuilder.appendBits, hpos.ne', hp, pushWord, pointAtBack]
    rw [hcall]
    refine ⟨by simp [hsize], ?_, ?_, by simp⟩
    · simp only [List.length_append, List.length_singleton, wordFor]
      omega
    · have h64 : 64 * b.bits.length = bs.length := by omega
      rw [wordsValue_append, bitsValue_append_lowBits hx, h.value_eq, h64]
      simp
  · -- the low bits go into the last word, and what does not fit into a new word
    have hne := h.bits_ne_nil hp
    have hp64 : b.size % 64 < 64 := Nat.mod_lt _ (by norm_num)
    have hor := h.wordsValue_orLast hp (two_pow_dvd_toNat_shiftLeft bits hp64)
    rw [toNat_shiftLeft_of_lt bits hp64] at hor
    have hcur := h.curWord_eq hne
    have hoff : 64 * (b.bits.length - 1) + b.size % 64 = bs.length := by omega
    -- what `append_bits` adds: `bits` at bit `size()`
    have htarget : bitsValue (bs ++ lowBits bits.toNat len) =
        wordsValue b.bits + 2 ^ (64 * (b.bits.length - 1)) * (bits.toNat * 2 ^ (b.size % 64)) := by
      rw [bitsValue_append_lowBits hx, h.value_eq, ← hoff, pow_add]
      ring
    by_cases hover : len > 64 - b.size % 64
    · have hcall : b.appendBits bits len =
          ⟨b.bits.modify (b.bits.length - 1) (· ||| bits <<< (b.size % 64).toUInt64) ++
            [bits >>> (64 - b.size % 64).toUInt64], b.size + len, some b.bits.length⟩ := by
        simp [BitVectorBuilder.appendBits, hpos.ne', hp, hover, hcur, pushWord, pointAtBack]
      rw [hcall]
      refine ⟨by simp [hsize], ?_, ?_, by simp⟩
      · simp only [List.length_append, List.length_modify, List.length_singleton, wordFor]
        omega
      · have hpow : 2 ^ (64 * b.bits.length) = 2 ^ (64 * (b.bits.length - 1)) * 2 ^ 64 := by
          rw [← pow_add]
          congr 1
          have := List.length_pos_iff.mpr hne
          omega
        rw [htarget, wordsValue_append, hor, List.length_modify, wordsValue_cons, wordsValue_nil,
          toNat_shiftRight_of_lt bits (by omega)]
        calc _ = wordsValue b.bits + 2 ^ (64 * (b.bits.length - 1)) *
              (bits.toNat * 2 ^ (b.size % 64) % 2 ^ 64 +
                2 ^ 64 * (bits.toNat / 2 ^ (64 - b.size % 64))) := by
              rw [hpow]
              ring
          _ = _ := by rw [mul_two_pow_mod_add _ hp64.le]
    · have hcall : b.appendBits bits len =
          ⟨b.bits.modify (b.bits.length - 1) (· ||| bits <<< (b.size % 64).toUInt64),
            b.size + len, some (b.bits.length - 1)⟩ := by
        simp [BitVectorBuilder.appendBits, hpos.ne', hp, hover, hcur, pointAtBack]
      rw [hcall]
      refine ⟨by simp [hsize], ?_, ?_, by simp⟩
      · simp only [List.length_modify, wordFor]
        omega
      · -- the bits fit in the last word
        have hfit : bits.toNat * 2 ^ (b.size % 64) < 2 ^ 64 :=
          calc bits.toNat * 2 ^ (b.size % 64) < 2 ^ len * 2 ^ (b.size % 64) :=
                Nat.mul_lt_mul_of_pos_right hx (by positivity)
            _ ≤ 2 ^ 64 := by
                rw [← pow_add]
                exact Nat.pow_le_pow_right (by norm_num) (by omega)
        rw [htarget, hor, Nat.mod_eq_of_lt hfit]

theorem modify_append_singleton (ws : List UInt64) (w : UInt64) (f : UInt64 → UInt64) :
    (ws ++ [w]).modify ws.length f = ws ++ [f w] := by
  rw [List.modify_eq_take_cons_drop (by simp)]
  simp

/-- `push_back(b)` does what `append_bits(b, 1)` does. -/
theorem Holds.pushBack_eq (h : Holds b bs) (bit : Bool) :
    b.pushBack bit = b.appendBits bit.toUInt64 1 := by
  by_cases hp : b.size % 64 = 0
  · simp [BitVectorBuilder.pushBack, BitVectorBuilder.appendBits, hp, pushWord, pointAtBack,
      orCurWord, modify_append_singleton]
  · have hcur := h.curWord_eq (h.bits_ne_nil hp)
    have hnot : ¬ 1 > 64 - b.size % 64 := by omega
    rcases b with ⟨ws, size, cur⟩
    dsimp only at hcur hp hnot ⊢
    subst hcur
    simp [BitVectorBuilder.pushBack, BitVectorBuilder.appendBits, hp, hnot, pointAtBack]

theorem Holds.pushBack (h : Holds b bs) (bit : Bool) : Holds (b.pushBack bit) (bs ++ [bit]) := by
  have hbit : lowBits bit.toUInt64.toNat 1 = [bit] := by cases bit <;> decide
  have hc : NoSpuriousBits bit.toUInt64 1 := by cases bit <;> decide
  rw [h.pushBack_eq, ← hbit]
  exact h.appendBits hc

theorem Holds.zeroExtend (h : Holds b bs) (n : Nat) :
    Holds (b.zeroExtend n) (bs ++ List.replicate n false) := by
  have hlen := h.length_eq
  unfold wordFor at hlen
  unfold BitVectorBuilder.zeroExtend
  dsimp only
  split
  · -- new zero words
    rename_i hneeded
    refine ⟨by simp [h.size_eq], ?_, ?_, by simp⟩
    · simp only [wordFor] at hneeded
      simp only [pointAtBack_bits, pointAtBack_size, List.length_append, List.length_replicate,
        wordFor]
      omega
    · simp [wordsValue_append, bitsValue_append, h.value_eq]
  · -- the last word has room for the zeros
    refine ⟨by simp [h.size_eq], ?_, ?_, h.curWord_eq⟩
    · simp only [wordFor] at *
      omega
    · simp [bitsValue_append, h.value_eq]

theorem toNat_allOnes : allOnes.toNat = 2 ^ 64 - 1 := rfl

theorem Holds.oneExtend (h : Holds b bs) (n : Nat) :
    Holds (b.oneExtend n) (bs ++ List.replicate n true) := by
  fun_induction BitVectorBuilder.oneExtend b n generalizing bs with
  | case1 b n hn ih =>
      -- a whole word of ones, then the rest
      have hword : lowBits allOnes.toNat 64 = List.replicate 64 true := by
        rw [toNat_allOnes, lowBits_two_pow_sub_one]
      have hstep := h.appendBits (by decide : NoSpuriousBits allOnes 64)
      rw [hword] at hstep
      have hrest := ih hstep
      rwa [List.append_assoc, List.replicate_append_replicate, Nat.add_sub_cancel' hn] at hrest
  | case2 b n hn hne =>
      have hval : (allOnes >>> (64 - n).toUInt64).toNat = 2 ^ n - 1 := by
        rw [toNat_shiftRight_of_lt _ (by omega), toNat_allOnes,
          two_pow_sub_one_div_two_pow (by omega)]
      have hc : NoSpuriousBits (allOnes >>> (64 - n).toUInt64) n := by
        rw [noSpuriousBits_iff, hval]
        exact ⟨by omega, by have := Nat.one_le_two_pow (n := n); omega⟩
      have hstep := h.appendBits hc
      rwa [hval, lowBits_two_pow_sub_one] at hstep
  | case3 b n hn hzero =>
      have : n = 0 := by omega
      subst this
      simpa using h

/-! ## The loops of `append` -/

/-- The unaligned loop of `append` is ready for its next word: `cur_word` within the `n` words,
holding nothing at or above bit `shift`, and every word after it zero. -/
structure SpliceReady (shift n : Nat) (acc : List UInt64 × Nat) : Prop where
  length_eq : acc.1.length = n
  cur_lt : acc.2 < n
  cur_low : (acc.1.getD acc.2 0).toNat < 2 ^ shift
  above_zero : ∀ k, acc.2 < k → acc.1.getD k 0 = 0

section Splice

variable {shift n : Nat} {acc : List UInt64 × Nat}

/-- `*cur_word |= w << shift`: the low bits of `w` go above those of the current word. -/
theorem SpliceReady.wordsValue_or (h : SpliceReady shift n acc) (hshift : shift < 64)
    (w : UInt64) :
    wordsValue (acc.1.modify acc.2 (· ||| w <<< shift.toUInt64)) =
      wordsValue acc.1 + 2 ^ (64 * acc.2) * (w.toNat * 2 ^ shift % 2 ^ 64) := by
  have hk : acc.2 < acc.1.length := h.length_eq ▸ h.cur_lt
  have hlow := h.cur_low
  rw [List.getD_eq_getElem _ _ hk] at hlow
  rw [wordsValue_modify_or hk hlow (two_pow_dvd_toNat_shiftLeft w hshift),
    toNat_shiftLeft_of_lt w hshift]

/-- A whole word of `rhs` spliced in: its low bits into the current word, its high bits into
the next one, which was zero. -/
theorem SpliceReady.wordsValue_splice (h : SpliceReady shift n acc) (hshift : 0 < shift)
    (hshift' : shift < 64) (hnext : acc.2 + 1 < n) (w : UInt64) :
    wordsValue ((acc.1.modify acc.2 (· ||| w <<< shift.toUInt64)).set (acc.2 + 1)
        (w >>> (64 - shift).toUInt64)) =
      wordsValue acc.1 + 2 ^ (64 * acc.2 + shift) * w.toNat := by
  have hlen : acc.2 + 1 < (acc.1.modify acc.2 (· ||| w <<< shift.toUInt64)).length := by
    rw [List.length_modify, h.length_eq]
    exact hnext
  have hzero : (acc.1.modify acc.2 (· ||| w <<< shift.toUInt64))[acc.2 + 1] = 0 := by
    have habove := h.above_zero (acc.2 + 1) (by omega)
    rw [List.getD_eq_getElem _ _ (by rw [h.length_eq]; exact hnext)] at habove
    rw [List.getElem_modify, if_neg (by omega), habove]
  rw [wordsValue_set_of_zero hlen hzero, h.wordsValue_or hshift' w,
    toNat_shiftRight_of_lt w (by omega)]
  calc _ = wordsValue acc.1 + 2 ^ (64 * acc.2) *
        (w.toNat * 2 ^ shift % 2 ^ 64 + 2 ^ 64 * (w.toNat / 2 ^ (64 - shift))) := by
        rw [Nat.mul_succ, pow_add]
        ring
    _ = _ := by
        rw [mul_two_pow_mod_add _ hshift'.le, pow_add]
        ring

theorem SpliceReady.spliceStep (h : SpliceReady shift n acc) (hshift : 0 < shift)
    (hshift' : shift < 64) (hnext : acc.2 + 1 < n) (w : UInt64) :
    SpliceReady shift n (spliceStep shift acc w) where
  length_eq := by simp [BitVectorBuilder.spliceStep, h.length_eq]
  cur_lt := hnext
  cur_low := by
    have hk : acc.2 + 1 < (acc.1.modify acc.2 (· ||| w <<< shift.toUInt64)).length := by
      rw [List.length_modify, h.length_eq]
      exact hnext
    simp only [BitVectorBuilder.spliceStep]
    rw [List.getD_eq_getElem _ _ (by rw [List.length_set]; exact hk), List.getElem_set_self,
      toNat_shiftRight_of_lt w (by omega), Nat.div_lt_iff_lt_mul (by positivity), ← pow_add,
      Nat.add_sub_cancel' hshift'.le]
    exact w.toNat_lt
  above_zero k hk := by
    simp only [BitVectorBuilder.spliceStep] at hk ⊢
    have hbelow := h.above_zero k (by omega)
    rw [List.getD_eq_getElem?_getD] at hbelow ⊢
    rw [List.getElem?_set_ne (by omega), List.getElem?_modify]
    simp [show acc.2 ≠ k by omega, hbelow]

/-- **The loop of `append`** over the words of `rhs` but its last: each goes in `64` bits above
the one before. -/
theorem spliceLoop_spec (hshift : 0 < shift) (hshift' : shift < 64) (ws : List UInt64) :
    ∀ acc, SpliceReady shift n acc → acc.2 + ws.length < n →
      SpliceReady shift n (ws.foldl (spliceStep shift) acc) ∧
        (ws.foldl (spliceStep shift) acc).2 = acc.2 + ws.length ∧
        wordsValue (ws.foldl (spliceStep shift) acc).1 =
          wordsValue acc.1 + 2 ^ (64 * acc.2 + shift) * wordsValue ws := by
  induction ws with
  | nil =>
      intro acc h _
      simpa using h
  | cons w ws ih =>
      intro acc h hfit
      rw [List.length_cons] at hfit
      have hnext : acc.2 + 1 < n := by omega
      obtain ⟨hready, hcur, hval⟩ :=
        ih (spliceStep shift acc w) (h.spliceStep hshift hshift' hnext w) (by
          simp only [BitVectorBuilder.spliceStep]
          omega)
      refine ⟨hready, ?_, ?_⟩
      · rw [List.foldl_cons, hcur, List.length_cons]
        simp only [BitVectorBuilder.spliceStep]
        omega
      · rw [List.foldl_cons, hval]
        simp only [BitVectorBuilder.spliceStep]
        rw [h.wordsValue_splice hshift hshift' hnext w, wordsValue_cons,
          show 64 * (acc.2 + 1) + shift = (64 * acc.2 + shift) + 64 by ring, pow_add]
        ring

/-- The last word of `rhs`: its high bits get the next word, or are zero when there is none. -/
theorem SpliceReady.spliceLast (h : SpliceReady shift n acc) (hshift : 0 < shift)
    (hshift' : shift < 64) {last : UInt64} (hfit : acc.2 + 1 < n ∨ last.toNat < 2 ^ (64 - shift)) :
    (spliceLast shift last acc).length = n ∧
      wordsValue (spliceLast shift last acc) =
        wordsValue acc.1 + 2 ^ (64 * acc.2 + shift) * last.toNat := by
  unfold BitVectorBuilder.spliceLast
  dsimp only
  split
  · -- a word of its own for the high bits
    rename_i hnext
    rw [List.length_modify, h.length_eq] at hnext
    exact ⟨by simp [h.length_eq], h.wordsValue_splice hshift hshift' (by omega) last⟩
  · -- no word is left: the high bits are zero
    rename_i hnext
    rw [List.length_modify, h.length_eq] at hnext
    have hsmall : last.toNat < 2 ^ (64 - shift) := hfit.resolve_left (by have := h.cur_lt; omega)
    have hbound : last.toNat * 2 ^ shift < 2 ^ 64 :=
      calc last.toNat * 2 ^ shift < 2 ^ (64 - shift) * 2 ^ shift :=
            Nat.mul_lt_mul_of_pos_right hsmall (by positivity)
        _ = 2 ^ 64 := by rw [← pow_add, Nat.sub_add_cancel hshift'.le]
    refine ⟨by simp [h.length_eq], ?_⟩
    rw [h.wordsValue_or hshift' last, Nat.mod_eq_of_lt hbound, pow_add]
    ring

end Splice

/-- The words after `resize` in `append`: ours, then zero words. -/
theorem resize_of_le {bits : List UInt64} {n : Nat} (h : bits.length ≤ n) :
    resize bits n = bits ++ List.replicate (n - bits.length) 0 := by
  rw [resize, List.take_of_length_le h]

theorem getD_append_replicate_zero (ws : List UInt64) (m : Nat) {k : Nat} (hk : ws.length ≤ k) :
    (ws ++ List.replicate m 0).getD k 0 = 0 := by
  rw [List.getD_append_right _ _ _ _ hk, List.getD_eq_getElem?_getD, List.getElem?_replicate]
  split <;> rfl

theorem Holds.append (h : Holds b bs) (hr : Holds r rs) : Holds (b.append r) (bs ++ rs) := by
  unfold BitVectorBuilder.append
  split
  · -- `if (!rhs.size()) return;`
    rename_i hzero
    have hnil : rs = [] := List.eq_nil_of_length_eq_zero (hr.size_eq ▸ hzero)
    simpa [hnil] using h
  rename_i hrsize
  dsimp only
  have hL := h.length_eq
  have hR := hr.length_eq
  unfold wordFor at hL hR
  have hN : b.bits.length ≤ wordFor (b.size + r.size) := by
    unfold wordFor
    omega
  rw [resize_of_le hN]
  split
  · -- aligned: the words of `rhs` go after ours
    rename_i hshift
    have hcopy : copyAt (b.bits ++ List.replicate (wordFor (b.size + r.size) - b.bits.length) 0)
        b.bits.length r.bits = b.bits ++ r.bits := by
      rw [copyAt, List.take_left' rfl, List.drop_eq_nil_of_le (by simp [wordFor]; omega)]
      simp
    rw [hcopy]
    refine ⟨by simp [h.size_eq, hr.size_eq], ?_, ?_, by simp⟩
    · simp only [pointAtBack_bits, pointAtBack_size, List.length_append, wordFor]
      omega
    · have h64 : 64 * b.bits.length = bs.length := by rw [← h.size_eq]; omega
      rw [pointAtBack_bits, wordsValue_append, bitsValue_append, h.value_eq, hr.value_eq, h64]
  · -- unaligned: the loop over the words of `rhs` but the last, then the last
    rename_i hshift
    have hne := h.bits_ne_nil hshift
    have hrne : r.bits ≠ [] := by
      intro hnil
      rw [hnil, List.length_nil] at hR
      omega
    have hp64 : b.size % 64 < 64 := Nat.mod_lt _ (by norm_num)
    have hp0 : 0 < b.size % 64 := Nat.pos_of_ne_zero hshift
    have hready : SpliceReady (b.size % 64) (wordFor (b.size + r.size))
        (b.bits ++ List.replicate (wordFor (b.size + r.size) - b.bits.length) 0,
          b.bits.length - 1) := by
      refine ⟨by simp; omega, by simp [wordFor]; omega, ?_, ?_⟩
      · -- the current word is our last one
        have hlast := h.getLast_lt hne
        have hoff : b.size - 64 * (b.bits.length - 1) = b.size % 64 := by omega
        rw [hoff, List.getLast_eq_getElem] at hlast
        dsimp only
        rwa [List.getD_append _ _ _ _ (by omega), List.getD_eq_getElem _ _ (by omega)]
      · intro k hk
        exact getD_append_replicate_zero _ _ (by dsimp only at hk; omega)
    obtain ⟨hready', hcur, hval⟩ := spliceLoop_spec hp0 hp64 r.bits.dropLast _ hready (by
      rw [List.length_dropLast]
      unfold wordFor
      omega)
    -- the high bits of the last word have a word of their own unless they are zero
    have hfit : (r.bits.dropLast.foldl (spliceStep (b.size % 64))
          (b.bits ++ List.replicate (wordFor (b.size + r.size) - b.bits.length) 0,
            b.bits.length - 1)).2 + 1 < wordFor (b.size + r.size) ∨
        (r.bits.getLastD 0).toNat < 2 ^ (64 - b.size % 64) := by
      rw [hcur, List.length_dropLast]
      by_cases hroom : b.bits.length - 1 + (r.bits.length - 1) + 1 < wordFor (b.size + r.size)
      · exact .inl hroom
      · right
        have hlast := hr.getLast_lt hrne
        rw [List.getLastD_eq_getLast?, List.getLast?_eq_some_getLast hrne, Option.getD_some]
        refine lt_of_lt_of_le hlast (Nat.pow_le_pow_right (by norm_num) ?_)
        unfold wordFor at hroom
        omega
    obtain ⟨hlen, hlastVal⟩ := hready'.spliceLast hp0 hp64 hfit
    refine ⟨by simp [h.size_eq, hr.size_eq], by simpa using hlen, ?_, by simp⟩
    -- the words of `rhs` land `size()` bits up
    have hrval : wordsValue r.bits = wordsValue r.bits.dropLast +
        2 ^ (64 * (r.bits.length - 1)) * (r.bits.getLastD 0).toNat := by
      conv_lhs => rw [← List.dropLast_append_getLast hrne]
      rw [wordsValue_append, List.length_dropLast, List.getLastD_eq_getLast?,
        List.getLast?_eq_some_getLast hrne, Option.getD_some, wordsValue_cons, wordsValue_nil]
      ring
    have hexp : 64 * (b.bits.length - 1 + r.bits.dropLast.length) + b.size % 64 =
        bs.length + 64 * (r.bits.length - 1) := by
      rw [List.length_dropLast, ← h.size_eq]
      omega
    have hexp' : 64 * (b.bits.length - 1) + b.size % 64 = bs.length := by
      rw [← h.size_eq]
      omega
    rw [pointAtBack_bits, hlastVal, hcur, hval, wordsValue_append, wordsValue_replicate_zero,
      bitsValue_append, ← h.value_eq, ← hr.value_eq, hrval, hexp, hexp', pow_add]
    ring

/-! ## Every sequence of calls -/

theorem holds_empty : Holds empty [] := ⟨rfl, rfl, rfl, fun h => absurd rfl h⟩

theorem holds_ofSize (size : Nat) (set : Bool) :
    Holds (ofSize size set) (List.replicate size set) := by
  by_cases hsize : size = 0
  · subst hsize
    simpa [ofSize, wordFor, empty] using holds_empty
  have hW : 0 < wordFor size := by
    unfold wordFor
    omega
  cases set with
  | false =>
      -- zero words
      have hzero : -(false.toUInt64) = 0 := rfl
      have hcall : ofSize size false = ⟨List.replicate (wordFor size) 0, size, some (wordFor size - 1)⟩ := by
        simp [ofSize, hsize, pointAtBack, hzero]
      rw [hcall]
      exact ⟨by simp, by simp, by simp, by simp⟩
  | true =>
      have hones : (-(true.toUInt64)).toNat = 2 ^ 64 - 1 := rfl
      have hall := wordsValue_replicate_of_toNat hones (wordFor size)
      by_cases hp : size % 64 = 0
      · -- whole words of ones
        have h64 : 64 * wordFor size = size := by
          unfold wordFor
          omega
        have hcall : ofSize size true =
            ⟨List.replicate (wordFor size) (-(true.toUInt64)), size, some (wordFor size - 1)⟩ := by
          simp [ofSize, hsize, hp, pointAtBack]
        rw [hcall]
        refine ⟨by simp, by simp, ?_, by simp⟩
        rw [hall, h64, bitsValue_replicate_true]
      · -- the last word shifted down to its `size % 64` ones
        obtain ⟨m, hm⟩ : ∃ m, wordFor size = m + 1 := ⟨wordFor size - 1, by omega⟩
        have hlast : ((-(true.toUInt64)) >>> (64 - size % 64).toUInt64).toNat =
            2 ^ (size % 64) - 1 := by
          rw [toNat_shiftRight_of_lt _ (by omega), hones,
            two_pow_sub_one_div_two_pow (by omega : size % 64 ≤ 64)]
        have hcall : ofSize size true =
            ⟨List.replicate m (-(true.toUInt64)) ++
              [(-(true.toUInt64)) >>> (64 - size % 64).toUInt64], size, some m⟩ := by
          have hmod := modify_append_singleton (List.replicate m (-(true.toUInt64)))
            (-(true.toUInt64)) (· >>> (64 - size % 64).toUInt64)
          rw [List.length_replicate] at hmod
          simp [ofSize, hsize, hp, pointAtBack, hm, List.replicate_succ', hmod]
        rw [hcall]
        refine ⟨by simp, by simp [hm], ?_, by simp⟩
        have hsplit : 2 ^ size = 2 ^ (64 * m) * 2 ^ (size % 64) := by
          rw [← pow_add]
          unfold wordFor at hm
          congr 1
          omega
        have hA : 1 ≤ 2 ^ (64 * m) := Nat.one_le_two_pow
        have hP : 1 ≤ 2 ^ (size % 64) := Nat.one_le_two_pow
        have hAP : 2 ^ (64 * m) ≤ 2 ^ (64 * m) * 2 ^ (size % 64) := Nat.le_mul_of_pos_right _ hP
        rw [wordsValue_append, wordsValue_replicate_of_toNat hones, List.length_replicate,
          wordsValue_cons, hlast, wordsValue_nil, mul_zero, add_zero, Nat.mul_sub_one,
          bitsValue_replicate_true, hsplit]
        omega

/-- The builders that a sequence of calls makes, from either constructor, with the bits the
calls append, in order: `append_bits(bits, len)` the low `len` bits of `bits`, and
`append(rhs)` those of a builder made the same way. -/
inductive Builds : BitVectorBuilder → List Bool → Prop
  | empty : Builds empty []
  | ofSize (size : Nat) (set : Bool) : Builds (ofSize size set) (List.replicate size set)
  | pushBack {b : BitVectorBuilder} {bs : List Bool} (h : Builds b bs) (bit : Bool) :
      Builds (b.pushBack bit) (bs ++ [bit])
  | appendBits {b : BitVectorBuilder} {bs : List Bool} (h : Builds b bs) {bits : UInt64}
      {len : Nat} (hc : NoSpuriousBits bits len) :
      Builds (b.appendBits bits len) (bs ++ lowBits bits.toNat len)
  | zeroExtend {b : BitVectorBuilder} {bs : List Bool} (h : Builds b bs) (n : Nat) :
      Builds (b.zeroExtend n) (bs ++ List.replicate n false)
  | oneExtend {b : BitVectorBuilder} {bs : List Bool} (h : Builds b bs) (n : Nat) :
      Builds (b.oneExtend n) (bs ++ List.replicate n true)
  | append {b r : BitVectorBuilder} {bs rs : List Bool} (h : Builds b bs) (hr : Builds r rs) :
      Builds (b.append r) (bs ++ rs)

/-- Every sequence of calls keeps the words holding the appended bits. -/
theorem Builds.holds (h : Builds b bs) : Holds b bs := by
  induction h with
  | empty => exact holds_empty
  | ofSize size set => exact holds_ofSize size set
  | pushBack _ bit ih => exact ih.pushBack bit
  | appendBits _ hc ih => exact ih.appendBits hc
  | zeroExtend _ n ih => exact ih.zeroExtend n
  | oneExtend _ n ih => exact ih.oneExtend n
  | append _ _ ih ihr => exact ih.append ihr

/-- Read bit by bit, words that hold `bs` give `bs` and then zeros. -/
theorem Holds.bitAt_eq (h : Holds b bs) (i : Nat) : bitAt b.bits i = bs.getD i false := by
  rw [bitAt_eq_testBit, h.value_eq, testBit_bitsValue]

theorem bitAt_builds (h : Builds b bs) :
    b.size = bs.length ∧ (∀ i < b.size, bitAt b.bits i = bs.getD i false) ∧
      (∀ i, b.size ≤ i → bitAt b.bits i = false) ∧ b.bits.length = (b.size + 63) / 64 := by
  have hholds := h.holds
  refine ⟨hholds.size_eq, fun i _ => hholds.bitAt_eq i, fun i hi => ?_, hholds.length_eq⟩
  rw [hholds.bitAt_eq, List.getD_eq_getElem?_getD, List.getElem?_eq_none (hholds.size_eq ▸ hi)]
  rfl

theorem bitAt_builds_appendTo :
    let tree := ((empty.oneExtend 2).pushBack false).append ((empty.pushBack true).pushBack false)
    let bits := [] ++ List.replicate 2 true ++ [false] ++ ([] ++ [true] ++ [false])
    Builds tree bits ∧
      (tree.size = bits.length ∧ (∀ i < tree.size, bitAt tree.bits i = bits.getD i false) ∧
        (∀ i, tree.size ≤ i → bitAt tree.bits i = false) ∧
        tree.bits.length = (tree.size + 63) / 64) :=
  have h := Builds.append (Builds.pushBack (Builds.oneExtend Builds.empty 2) false)
    (Builds.pushBack (Builds.pushBack Builds.empty true) false)
  ⟨h, bitAt_builds h⟩

end BitVectorBuilder

end RocksCloud.Pdt
