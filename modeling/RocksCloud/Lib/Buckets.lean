import Mathlib

/-!
# Chained buckets

A chained hash table keeps its entries in a list of buckets, and what it holds is the buckets
flattened. Putting a new chain in place of one bucket changes the contents by the entries of
the two chains (`flatten_set_perm`), and pushing an entry on a bucket adds it
(`flatten_modify_cons_perm`); a search of the contents is a search of the one bucket
that can hold a match (`find?_flatten_of_bucket`). With `2 ^ k` buckets, the bucket of a
32-bit hash is the hash masked by the bucket count less one, the count first cut to 32 bits;
that is the hash modulo `2 ^ k`, also when `2 ^ k` does not fit in 32 bits
(`toNat_and_toUInt32_sub_one`).
-/

set_option autoImplicit false

namespace RocksCloud.Lib

variable {α : Type}

/-- The contents after a bucket is replaced: the old chain out, the new one in. -/
theorem flatten_set_perm (xs : List (List α)) {b : Nat} (hb : b < xs.length) (c : List α) :
    ((xs.set b c).flatten ++ xs[b]).Perm (xs.flatten ++ c) := by
  classical
  have hxs : xs = xs.take b ++ xs[b] :: xs.drop (b + 1) := by simp
  rw [List.set_eq_take_append_cons_drop, if_pos hb]
  conv => rhs; rw [hxs]
  simp only [List.flatten_append, List.flatten_cons, List.append_assoc,
    List.perm_append_left_iff]
  rw [List.perm_iff_count]
  intro a
  simp only [List.count_append]
  omega

/-- A bucket of the list after one is replaced. -/
theorem getD_set_of_ne (xs : List (List α)) {b i : Nat} (hne : b ≠ i) (c : List α) :
    (xs.set b c).getD i [] = xs.getD i [] := by
  simp [List.getD_eq_getElem?_getD, List.getElem?_set_ne hne]

/-- Pushing an entry on the front of a bucket adds it to the contents. -/
theorem flatten_modify_cons_perm (xs : List (List α)) {b : Nat} (hb : b < xs.length) (a : α) :
    (xs.modify b (a :: ·)).flatten.Perm (xs.flatten ++ [a]) := by
  have hset := flatten_set_perm xs hb (a :: xs[b])
  rw [List.modify_eq_set, List.getElem?_eq_getElem hb, Option.getD_some]
  rw [← List.perm_append_right_iff xs[b]]
  refine hset.trans ?_
  rw [List.append_assoc, List.singleton_append]

/-- An entry of a bucket after a push is the entry pushed or was there before. -/
theorem mem_getD_modify_cons {xs : List (List α)} {b i : Nat} {a x : α}
    (hx : x ∈ (xs.modify b (a :: ·)).getD i []) : (x = a ∧ b = i) ∨ x ∈ xs.getD i [] := by
  rw [List.getD_eq_getElem?_getD, List.getElem?_modify] at hx
  rw [List.getD_eq_getElem?_getD]
  cases hxs : xs[i]? with
  | none => simp [hxs] at hx
  | some c =>
      by_cases hbi : b = i
      · simp only [hxs, Option.map_eq_map, Option.map_some, Option.getD_some, if_pos hbi,
          List.mem_cons] at hx
        simpa [hbi] using hx
      · simp only [hxs, Option.map_eq_map, Option.map_some, Option.getD_some, if_neg hbi] at hx
        exact Or.inr hx

/-- When only the bucket `b` holds entries that satisfy `p`, the first of them in the contents
is the first in that bucket. -/
theorem find?_flatten_of_bucket (p : α → Bool) :
    ∀ (xs : List (List α)) (b : Nat), (∀ i, ∀ x ∈ xs.getD i [], p x = true → i = b) →
      xs.flatten.find? p = (xs.getD b []).find? p
  | [], b, _ => by simp
  | ys :: yss, 0, h => by
      -- the later buckets hold no match
      have hrest : yss.flatten.find? p = none := by
        rw [List.find?_eq_none]
        intro x hx hpx
        obtain ⟨zs, hzs, hxz⟩ := List.mem_flatten.mp hx
        obtain ⟨i, hi, rfl⟩ := List.getElem_of_mem hzs
        have := h (i + 1) x (by simpa [hi] using hxz) hpx
        omega
      simp [List.find?_append, hrest]
  | ys :: yss, b + 1, h => by
      -- the first bucket holds no match
      have hfirst : ys.find? p = none :=
        List.find?_eq_none.mpr fun x hx hpx => absurd (h 0 x (by simpa using hx) hpx) (by omega)
      rw [List.flatten_cons, List.find?_append, hfirst, Option.none_or]
      exact find?_flatten_of_bucket p yss b fun i x hx hpx => by
        have := h (i + 1) x (by simpa using hx) hpx
        omega

/-- `hash & (length - 1)` with a `length` of `2 ^ k` cut to 32 bits is `hash % 2 ^ k`. -/
theorem toNat_and_toUInt32_sub_one (hash : UInt32) (k : Nat) :
    (hash &&& ((2 ^ k).toUInt32 - 1)).toNat = hash.toNat % 2 ^ k := by
  rw [UInt32.toNat_and]
  by_cases hk : k < 32
  · -- the length fits: the mask is `2 ^ k - 1`
    have hlt : 2 ^ k < 4294967296 := Nat.pow_lt_pow_right (by norm_num) hk
    have hpos : 1 ≤ 2 ^ k := Nat.one_le_two_pow
    have hlen : (2 ^ k).toUInt32.toNat = 2 ^ k := by
      simp [Nat.toUInt32, UInt32.toNat_ofNat', Nat.mod_eq_of_lt hlt]
    have hmask : ((2 ^ k).toUInt32 - 1).toNat = 2 ^ k - 1 := by
      rw [UInt32.toNat_sub_of_le _ _ (by rw [UInt32.le_iff_toNat_le, hlen]; simpa using hpos),
        hlen]
      rfl
    rw [hmask, Nat.and_two_pow_sub_one_eq_mod]
  · -- the length is cut to `0`, and the mask keeps all 32 bits of the hash
    have hdvd : 2 ^ 32 ∣ 2 ^ k := Nat.pow_dvd_pow 2 (by omega)
    have hzero : (2 ^ k).toUInt32 = 0 := by
      apply UInt32.toNat_inj.mp
      simp only [Nat.toUInt32, UInt32.toNat_ofNat', UInt32.toNat_zero]
      exact Nat.mod_eq_zero_of_dvd hdvd
    have hmask : ((2 ^ k).toUInt32 - 1).toNat = 2 ^ 32 - 1 := by
      rw [hzero]
      rfl
    have hle : 2 ^ 32 ≤ 2 ^ k := Nat.pow_le_pow_right (by norm_num) (by omega)
    rw [hmask, Nat.and_two_pow_sub_one_eq_mod, Nat.mod_eq_of_lt hash.toNat_lt,
      Nat.mod_eq_of_lt (lt_of_lt_of_le hash.toNat_lt hle)]

end RocksCloud.Lib
