import Mathlib
import RocksCloud.Lib.Lexicographic
import RocksCloud.Table.BlockBuilder

/-!
# Comparators and key shortening, `util/comparator.cc`

A `Comparator` orders keys, and index building asks it for short keys:
`FindShortestSeparator(&start, limit)` may replace `start` by a shorter key in `[start, limit)`,
and `FindShortSuccessor(&key)` may replace `key` by a shorter key not below it.

`BytewiseComparatorImpl` orders by `memcmp` and then by length, the lexicographic order of byte
lists. Its separator increments the first byte where `start` differs from `limit` and cuts
`start` after it; when that byte would become the limit's last byte, it skips it and increments
the first later byte that is not `0xff`. Its successor increments the first byte that is not
`0xff` and cuts the key after it. `ReverseBytewiseComparatorImpl` orders the other way; its
separator cuts `start` after the first difference, and its successor leaves the key alone.

`Comparator.ShorteningSound` says what index building needs of the two shortenings;
`bytewiseComparator_shorteningSound` and `reverseBytewiseComparator_shorteningSound` prove it
of both comparators. A `std::string*` argument that the source changes in place is modelled by
returning the new string.
-/

set_option autoImplicit false

namespace RocksCloud.Util

open RocksCloud.Lib.Lexicographic

/-- The methods of a `Comparator` that index building calls. -/
structure Comparator where
  compare : Bytes → Bytes → Ordering
  findShortestSeparator : Bytes → Bytes → Bytes
  findShortSuccessor : Bytes → Bytes

/-! ## The two comparators -/

/-- The loop shared by the bytewise `FindShortestSeparator` and `FindShortSuccessor`: from
position `i` on, the first byte that is not `0xff` is incremented and the key is cut after it; a
run of `0xff` to the end leaves the key alone. The separator tests `byte < 0xff` and the successor
`byte != 0xff`, the same test on a byte. -/
def incrementFirstNonMaxFrom (key : Bytes) : Nat → Nat → Bytes
  | 0, _ => key
  | fuel + 1, i =>
      if i < key.length then
        let byte := key.getD i 0
        if byte ≠ 0xff then (key.set i (byte + 1)).take (i + 1)
        else incrementFirstNonMaxFrom key fuel (i + 1)
      else key

/-- `BytewiseComparatorImpl::FindShortestSeparator`. -/
def bytewiseFindShortestSeparator (start limit : Bytes) : Bytes :=
  let minLength := min start.length limit.length
  let diffIndex := differenceOffset start limit
  if diffIndex ≥ minLength then start
  else
    let startByte := start.getD diffIndex 0
    let limitByte := limit.getD diffIndex 0
    if startByte ≥ limitByte then start
    else if diffIndex < limit.length - 1 ∨ startByte.toNat + 1 < limitByte.toNat then
      (start.set diffIndex (startByte + 1)).take (diffIndex + 1)
    else
      -- the incremented byte would be the limit's last byte: skip it
      incrementFirstNonMaxFrom start start.length (diffIndex + 1)

/-- `BytewiseComparatorImpl::FindShortSuccessor`. -/
def bytewiseFindShortSuccessor (key : Bytes) : Bytes := incrementFirstNonMaxFrom key key.length 0

/-- `BytewiseComparator()`. -/
def bytewiseComparator : Comparator where
  compare := compare
  findShortestSeparator := bytewiseFindShortestSeparator
  findShortSuccessor := bytewiseFindShortSuccessor

/-- `ReverseBytewiseComparatorImpl::FindShortestSeparator`: `start` is cut after the first
difference when it is above `limit` there and goes on past it. -/
def reverseBytewiseFindShortestSeparator (start limit : Bytes) : Bytes :=
  let minLength := min start.length limit.length
  let diffIndex := differenceOffset start limit
  if diffIndex = minLength then start
  else
    let startByte := start.getD diffIndex 0
    let limitByte := limit.getD diffIndex 0
    if startByte > limitByte ∧ diffIndex < start.length - 1 then start.take (diffIndex + 1)
    else start

/-- `ReverseBytewiseComparator()`: `Compare` is `-a.compare(b)`, and `FindShortSuccessor` does
nothing. -/
def reverseBytewiseComparator : Comparator where
  compare a b := (compare a b).swap
  findShortestSeparator := reverseBytewiseFindShortestSeparator
  findShortSuccessor key := key

example : bytewiseFindShortestSeparator [0x61, 0x62, 0x63] [0x61, 0x65] = [0x61, 0x63] := by
  decide

/-! ## What index building needs -/

/-- What index building needs of a comparator's shortenings. A separator of `start < limit` is in
`[start, limit)` and not longer than `start`; a separator of two equal keys is not above them; a
successor is not below the key and not longer. -/
structure Comparator.ShorteningSound (c : Comparator) : Prop where
  separator_lt : ∀ start limit, c.compare start limit = .lt →
    c.compare start (c.findShortestSeparator start limit) ≠ .gt ∧
      c.compare (c.findShortestSeparator start limit) limit = .lt ∧
      (c.findShortestSeparator start limit).length ≤ start.length
  separator_eq : ∀ start limit, c.compare start limit = .eq →
    c.compare start (c.findShortestSeparator start limit) ≠ .lt
  successor : ∀ key, c.compare key (c.findShortSuccessor key) ≠ .gt ∧
    (c.findShortSuccessor key).length ≤ key.length

/-! ## Comparing at the first difference -/

section Bytes

/-- The common prefix is no longer than the second string. -/
theorem differenceOffset_le_right (a b : Bytes) : differenceOffset a b ≤ b.length := by
  induction a generalizing b with
  | nil => cases b <;> simp [differenceOffset]
  | cons x xs ih =>
      cases b with
      | nil => simp [differenceOffset]
      | cons y ys =>
          simp only [differenceOffset, List.length_cons]
          split
          · have := ih ys
            omega
          · omega

theorem differenceOffset_self (a : Bytes) : differenceOffset a a = a.length := by
  induction a with
  | nil => rfl
  | cons x xs ih => simp [differenceOffset, ih]

theorem eq_take_append_getD_cons_drop (s : Bytes) {i : Nat} (h : i < s.length) :
    s = s.take i ++ s.getD i 0 :: s.drop (i + 1) := by
  rw [List.getD_eq_getElem s 0 h]
  exact eq_take_append_cons_drop s h

/-- Setting position `i` and cutting after it. -/
theorem take_succ_set {s : Bytes} {i : Nat} (h : i < s.length) (x : UInt8) :
    (s.set i x).take (i + 1) = s.take i ++ [x] := by
  rw [List.take_set, List.take_add_one, List.getElem?_eq_getElem h,
    List.set_append_right _ _ (by simp)]
  simp [Nat.min_eq_left h.le]

theorem take_succ_eq {s : Bytes} {i : Nat} (h : i < s.length) :
    s.take (i + 1) = s.take i ++ [s.getD i 0] := by
  rw [List.take_add_one, List.getElem?_eq_getElem h, List.getD_eq_getElem s 0 h]
  rfl

/-- A string cut after position `d` with a new byte there. -/
theorem cut_spec {s : Bytes} {d : Nat} (hd : d < s.length) (x : UInt8) :
    (s.take d ++ [x]).length = d + 1 ∧ (s.take d ++ [x]).take d = s.take d ∧
      (s.take d ++ [x]).getD d 0 = x := by
  have hlen : (s.take d).length = d := by simp; omega
  refine ⟨by simp [hlen], ?_, ?_⟩
  · rw [List.take_append_of_le_length (by omega), List.take_of_length_le (by omega)]
  · rw [List.getD_append_right _ _ _ _ (by omega), hlen, Nat.sub_self]
    rfl

/-- The first difference decides. -/
theorem compare_lt_of_getD_lt {s t : Bytes} {d : Nat} (hs : d < s.length) (ht : d < t.length)
    (hpre : s.take d = t.take d) (hlt : s.getD d 0 < t.getD d 0) : compare s t = .lt := by
  rw [eq_take_append_getD_cons_drop s hs, eq_take_append_getD_cons_drop t ht, hpre]
  exact compare_append_cons_of_lt _ (Std.compare_eq_lt.mpr hlt) _ _

theorem compare_gt_of_getD_gt {s t : Bytes} {d : Nat} (hs : d < s.length) (ht : d < t.length)
    (hpre : s.take d = t.take d) (hgt : t.getD d 0 < s.getD d 0) : compare s t = .gt := by
  rw [eq_take_append_getD_cons_drop s hs, eq_take_append_getD_cons_drop t ht, hpre]
  exact compare_append_cons_of_gt _ (Std.compare_eq_gt.mpr hgt) _ _

/-- A proper prefix comes first. -/
theorem compare_take_lt {t : Bytes} {k : Nat} (hk : k < t.length) : compare (t.take k) t = .lt := by
  have h := compare_lt_append (t.take k) (t.getD k 0) (t.drop (k + 1))
  rwa [← eq_take_append_getD_cons_drop t hk] at h

theorem compare_take_gt {t : Bytes} {k : Nat} (hk : k < t.length) : compare t (t.take k) = .gt := by
  have h := compare_append_gt (t.take k) (t.getD k 0) (t.drop (k + 1))
  rwa [← eq_take_append_getD_cons_drop t hk] at h

/-- A byte below another can be incremented without wrapping. -/
theorem toNat_add_one_of_lt {a b : UInt8} (h : a < b) : (a + 1).toNat = a.toNat + 1 := by
  have hb : b.toNat < 256 := b.toNat_lt
  rw [UInt8.lt_iff_toNat_lt] at h
  rw [UInt8.toNat_add, UInt8.toNat_one, Nat.mod_eq_of_lt (by omega)]

theorem ne_max_of_lt {a b : UInt8} (h : a < b) : a ≠ 0xff := by
  have hb : b.toNat < 256 := b.toNat_lt
  intro hff
  rw [hff, UInt8.lt_iff_toNat_lt] at h
  have h255 : (0xff : UInt8).toNat = 255 := rfl
  omega

theorem lt_add_one_of_ne {x : UInt8} (h : x ≠ 0xff) : x < x + 1 := by
  have hx : x.toNat < 255 := by
    have hlt : x.toNat < 256 := x.toNat_lt
    have hne : x.toNat ≠ 255 := fun he => h (UInt8.toNat.inj (by simpa using he))
    omega
  rw [UInt8.lt_iff_toNat_lt, UInt8.toNat_add, UInt8.toNat_one, Nat.mod_eq_of_lt (by omega)]
  omega

/-- Incrementing a byte below `0xff` and cutting after it goes up. -/
theorem compare_lt_increment {key : Bytes} {j : Nat} (hj : j < key.length)
    (hne : key.getD j 0 ≠ 0xff) : compare key (key.take j ++ [key.getD j 0 + 1]) = .lt := by
  have h := compare_append_cons_of_lt (key.take j) (Std.compare_eq_lt.mpr (lt_add_one_of_ne hne))
    (key.drop (j + 1)) []
  rwa [← eq_take_append_getD_cons_drop key hj] at h

end Bytes

/-! ## The loop that increments -/

/-- What `incrementFirstNonMaxFrom key _ i` leaves: the key, or the key cut after a byte at or
after `i` that was below `0xff` and is incremented. -/
def IncrementedFrom (key : Bytes) (i : Nat) (s : Bytes) : Prop :=
  s = key ∨ ∃ j, i ≤ j ∧ j < key.length ∧ key.getD j 0 ≠ 0xff ∧
    s = key.take j ++ [key.getD j 0 + 1]

/-- The loop leaves the key or increments a byte at or after its start; the induction is on the
fuel, one byte a turn. -/
theorem incrementFirstNonMaxFrom_spec (key : Bytes) (fuel : Nat) :
    ∀ i, IncrementedFrom key i (incrementFirstNonMaxFrom key fuel i) := by
  induction fuel with
  | zero => exact fun _ => Or.inl rfl
  | succ fuel ih =>
      intro i
      by_cases hi : i < key.length
      · by_cases hff : key.getD i 0 = 0xff
        · -- the byte is `0xff`: the loop goes on from the next one
          have hstep : incrementFirstNonMaxFrom key (fuel + 1) i =
              incrementFirstNonMaxFrom key fuel (i + 1) := by
            simp only [incrementFirstNonMaxFrom, if_pos hi, ne_eq, hff, not_true_eq_false, if_false]
          rw [hstep]
          rcases ih (i + 1) with heq | ⟨j, hij, hj, hjne, hs⟩
          · exact Or.inl heq
          · exact Or.inr ⟨j, by omega, hj, hjne, hs⟩
        · have hstep : incrementFirstNonMaxFrom key (fuel + 1) i =
              (key.set i (key.getD i 0 + 1)).take (i + 1) := by
            simp only [incrementFirstNonMaxFrom, if_pos hi, ne_eq, hff, not_false_eq_true, if_true]
          rw [hstep]
          exact Or.inr ⟨i, le_rfl, hi, hff, take_succ_set hi _⟩
      · have hstep : incrementFirstNonMaxFrom key (fuel + 1) i = key := by
          simp only [incrementFirstNonMaxFrom, if_neg hi]
        rw [hstep]
        exact Or.inl rfl

namespace IncrementedFrom

variable {key s : Bytes} {i : Nat}

theorem compare_ne_gt (h : IncrementedFrom key i s) : compare key s ≠ .gt := by
  rcases h with rfl | ⟨j, _, hj, hne, rfl⟩
  · rw [Std.compare_self]
    decide
  · rw [compare_lt_increment hj hne]
    decide

theorem length_le (h : IncrementedFrom key i s) : s.length ≤ key.length := by
  rcases h with rfl | ⟨j, _, hj, _, rfl⟩
  · exact le_rfl
  · rw [(cut_spec hj _).1]
    omega

/-- Bytes before the loop's start are kept: an incremented string agrees with the key up to and
at any `d < i`. -/
theorem take_getD (h : IncrementedFrom key i s) {d : Nat} (hd : d < i) (hdk : d < key.length) :
    d < s.length ∧ s.take d = key.take d ∧ s.getD d 0 = key.getD d 0 := by
  rcases h with rfl | ⟨j, hij, hj, _, rfl⟩
  · exact ⟨hdk, rfl, rfl⟩
  · have hlen : (key.take j).length = j := by simp; omega
    refine ⟨by simp; omega, ?_, ?_⟩
    · rw [List.take_append_of_le_length (by omega), List.take_take, Nat.min_eq_left (by omega)]
    · rw [List.getD_append _ _ _ _ (by omega), List.getD_eq_getElem?_getD,
        List.getD_eq_getElem?_getD, List.getElem?_take_of_lt (by omega)]

end IncrementedFrom

/-! ## Both comparators are sound -/

/-- **The bytewise separator lies in `[start, limit)`** and is not longer than `start`. -/
theorem bytewiseFindShortestSeparator_lt {start limit : Bytes} (h : compare start limit = .lt) :
    compare start (bytewiseFindShortestSeparator start limit) ≠ .gt ∧
      compare (bytewiseFindShortestSeparator start limit) limit = .lt ∧
      (bytewiseFindShortestSeparator start limit).length ≤ start.length := by
  have hkeep : compare start start ≠ .gt ∧ compare start limit = .lt ∧
      start.length ≤ start.length := ⟨by rw [Std.compare_self]; decide, h, le_rfl⟩
  have hds := differenceOffset_le_left start limit
  have hdl := differenceOffset_le_right start limit
  have hpre := take_differenceOffset start limit
  unfold bytewiseFindShortestSeparator
  dsimp only
  set d := differenceOffset start limit with hd
  split_ifs with hmin hge hshort
  · exact hkeep
  · exact hkeep
  · -- the first differing byte is incremented and `start` cut after it
    have hlt : start.getD d 0 < limit.getD d 0 := UInt8.not_le.mp hge
    have hinc := toNat_add_one_of_lt hlt
    have hdl' : d < limit.length := by omega
    obtain ⟨hlen, htake, hgetD⟩ := cut_spec (show d < start.length by omega) (start.getD d 0 + 1)
    rw [take_succ_set (show d < start.length by omega)]
    refine ⟨?_, ?_, by omega⟩
    · rw [compare_lt_increment (by omega) (ne_max_of_lt hlt)]
      decide
    · by_cases hgap : start.getD d 0 + 1 < limit.getD d 0
      · exact compare_lt_of_getD_lt (by omega) hdl' (htake.trans hpre) (by rw [hgetD]; exact hgap)
      · -- one below the limit's byte, which is not its last: a proper prefix of the limit
        have heq : start.getD d 0 + 1 = limit.getD d 0 := by
          rw [UInt8.lt_iff_toNat_lt, hinc] at hgap
          rw [UInt8.lt_iff_toNat_lt] at hlt
          apply UInt8.toNat.inj
          omega
        have hmid : d < limit.length - 1 := by
          rcases hshort with hmid | hgap'
          · exact hmid
          · rw [UInt8.lt_iff_toNat_lt, hinc] at hgap
            omega
        rw [hpre, heq, ← take_succ_eq hdl']
        exact compare_take_lt (by omega)
  · -- past the first difference, the first byte below `0xff` is incremented
    have hlt : start.getD d 0 < limit.getD d 0 := UInt8.not_le.mp hge
    have hinc := incrementFirstNonMaxFrom_spec start start.length (d + 1)
    refine ⟨hinc.compare_ne_gt, ?_, hinc.length_le⟩
    obtain ⟨hsl, htake, hgetD⟩ := hinc.take_getD (Nat.lt_succ_self d) (by omega)
    exact compare_lt_of_getD_lt hsl (by omega) (htake.trans hpre) (by rw [hgetD]; exact hlt)

/-- Equal keys have no separator but themselves. -/
theorem bytewiseFindShortestSeparator_self (s : Bytes) : bytewiseFindShortestSeparator s s = s := by
  unfold bytewiseFindShortestSeparator
  simp only [differenceOffset_self, min_self, ge_iff_le, le_refl, if_true]

/-- **The bytewise comparator's shortenings are sound.** -/
theorem bytewiseComparator_shorteningSound : bytewiseComparator.ShorteningSound where
  separator_lt _ _ h := bytewiseFindShortestSeparator_lt h
  separator_eq start limit h := by
    obtain rfl : start = limit := Std.LawfulEqCmp.eq_of_compare (show compare start limit = .eq from h)
    show compare start (bytewiseFindShortestSeparator start start) ≠ .lt
    rw [bytewiseFindShortestSeparator_self, Std.compare_self]
    decide
  successor key := by
    have hinc := incrementFirstNonMaxFrom_spec key key.length 0
    exact ⟨hinc.compare_ne_gt, hinc.length_le⟩

/-- **The reverse bytewise separator lies in `(limit, start]` bytewise**, the interval
`[start, limit)` of the reverse order, and is not longer than `start`. -/
theorem reverseBytewiseFindShortestSeparator_gt {start limit : Bytes}
    (h : compare start limit = .gt) :
    compare start (reverseBytewiseFindShortestSeparator start limit) ≠ .lt ∧
      compare (reverseBytewiseFindShortestSeparator start limit) limit = .gt ∧
      (reverseBytewiseFindShortestSeparator start limit).length ≤ start.length := by
  have hkeep : compare start start ≠ .lt ∧ compare start limit = .gt ∧
      start.length ≤ start.length := ⟨by rw [Std.compare_self]; decide, h, le_rfl⟩
  have hds := differenceOffset_le_left start limit
  have hdl := differenceOffset_le_right start limit
  have hpre := take_differenceOffset start limit
  unfold reverseBytewiseFindShortestSeparator
  dsimp only
  set d := differenceOffset start limit with hd
  split_ifs with hmin hcut
  · exact hkeep
  · -- `start` cut after the first difference, where it is above `limit`
    obtain ⟨hgt, hlen⟩ := hcut
    have hds' : d < start.length := by omega
    have hdl' : d < limit.length := by omega
    refine ⟨?_, ?_, by simp⟩
    · rw [compare_take_gt (by omega)]
      decide
    · rw [take_succ_eq hds']
      obtain ⟨hcl, htake, hgetD⟩ := cut_spec hds' (start.getD d 0)
      exact compare_gt_of_getD_gt (by omega) hdl' (htake.trans hpre) (by rw [hgetD]; exact hgt)
  · exact hkeep

theorem reverseBytewiseFindShortestSeparator_self (s : Bytes) :
    reverseBytewiseFindShortestSeparator s s = s := by
  unfold reverseBytewiseFindShortestSeparator
  simp only [differenceOffset_self, min_self, if_true]

/-- **The reverse bytewise comparator's shortenings are sound.** -/
theorem reverseBytewiseComparator_shorteningSound : reverseBytewiseComparator.ShorteningSound where
  separator_lt start limit h := by
    have h' : compare start limit = .gt := Ordering.swap_eq_lt.mp h
    obtain ⟨hstart, hlimit, hlen⟩ := reverseBytewiseFindShortestSeparator_gt h'
    refine ⟨?_, ?_, hlen⟩
    · show (compare start (reverseBytewiseFindShortestSeparator start limit)).swap ≠ .gt
      rw [Ne, Ordering.swap_eq_gt]
      exact hstart
    · show (compare (reverseBytewiseFindShortestSeparator start limit) limit).swap = .lt
      rw [Ordering.swap_eq_lt]
      exact hlimit
  separator_eq start limit h := by
    obtain rfl : start = limit := Std.LawfulEqCmp.eq_of_compare (Ordering.swap_eq_eq.mp h)
    show (compare start (reverseBytewiseFindShortestSeparator start start)).swap ≠ .lt
    rw [reverseBytewiseFindShortestSeparator_self, Std.compare_self]
    decide
  successor key := by
    show (compare key key).swap ≠ .gt ∧ key.length ≤ key.length
    rw [Std.compare_self]
    exact ⟨by decide, le_rfl⟩

instance : Std.TransCmp bytewiseComparator.compare :=
  inferInstanceAs (Std.TransCmp (compare : Bytes → Bytes → Ordering))

instance : Std.LawfulEqCmp bytewiseComparator.compare :=
  inferInstanceAs (Std.LawfulEqCmp (compare : Bytes → Bytes → Ordering))

/-- The reverse order compares the other way round. -/
theorem reverseBytewiseComparator_compare :
    reverseBytewiseComparator.compare = fun a b => compare b a := by
  funext a b
  exact Std.OrientedOrd.eq_swap.symm

instance : Std.TransCmp reverseBytewiseComparator.compare := by
  rw [reverseBytewiseComparator_compare]
  exact Std.TransCmp.opposite

instance : Std.LawfulEqCmp reverseBytewiseComparator.compare := by
  rw [reverseBytewiseComparator_compare]
  exact Std.LawfulEqCmp.opposite

end RocksCloud.Util
