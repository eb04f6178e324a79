import Mathlib
import RocksCloud.PersistentCache.SstSpace

/-!
# The persistent cache tier `myCache`

`myCache` of `utilities/persistent_cache/block_cache_tier.cc` cuts its cache file into `NUM`
regions of `SST_SIZE` (40 MiB) bytes, each managed by one `SST_space` of the fixed array
`SST_space v[200]`. `Open()` sets `NUM = cache_size / SST_SIZE` and calls `Set_Par` on `v[0]` to
`v[NUM - 1]`; `NewPersistentmyCache` passes the size it is given through unchecked. A block of
the SST file `fname` goes to region `getIndex(fname)`: the scan goes back from the end of the
name to its last `'.'`, then back over the digits before it, skips leading zeros, adds the
digits up as an `int`, and reduces the sum modulo `NUM`.

Reading a `std::string` through `operator[]` outside `[0, size()]`, an `int` overflow, an index
past the end of `v` and a division by zero are undefined behaviour; the model returns an error
for each. A default-constructed `SST_space` is `none`: its `cache` is an empty map, and its other
members are uninitialised. The file and the writer thread are left out: `Open` is given whether
its `write` succeeded.
-/

set_option autoImplicit false

namespace RocksCloud.PersistentCache

open RocksCloud.Util

/-- `SST_SIZE`: the bytes of one region. -/
def sstSize : Nat := 40 * 1024 * 1024

/-- The length of `SST_space v[200]`. -/
def spaceCount : Nat := 200

/-- The state of a `myCache`: `NUM` and the array `v`. -/
structure MyCache where
  num : UInt64
  v : Fin spaceCount → Option SstSpace

namespace MyCache

/-! ## `Open` -/

/-- The file `Open` leaves: truncated to nothing, then the four bytes of `int t = -1` written at
`cache_size`. -/
def openedFile (cacheSize : UInt64) : Nat → UInt8 :=
  fun off => if cacheSize.toNat ≤ off ∧ off < cacheSize.toNat + 4 then 0xff else 0

/-- The first `n` turns of `for (i = 0; i < NUM; i++) v[i].Set_Par(fd, SST_SIZE / SPACE_SIZE,
i * SST_SIZE)`. -/
def setSpaces (file : Nat → UInt8) : Nat → (Fin spaceCount → Option SstSpace) →
    Except String (Fin spaceCount → Option SstSpace)
  | 0, v => pure v
  | n + 1, v => do
      let v ← setSpaces file n v
      if h : n < spaceCount then
        pure (Function.update v ⟨n, h⟩
          (some (SstSpace.setPar file (sstSize / spaceSize).toUInt32 (n * sstSize).toUInt64)))
      else throw "array index out of bounds"

/-- `Open()` on a `myCache` built by `NewPersistentmyCache` with `cache_size`; `writeOk` says
whether the `write` of the file's last bytes succeeded. -/
def openCache (cacheSize : UInt64) (writeOk : Bool) : Except String (Option MyCache) := do
  if !writeOk then return none
  let num := cacheSize / sstSize.toUInt64
  let v ← setSpaces (openedFile cacheSize) num.toNat fun _ => none
  return some ⟨num, v⟩

/-! ## `getIndex` -/

/-- `'.'`. -/
def dot : UInt8 := 46

/-- `'0' <= c && c <= '9'`, with `char` signed: a byte of `128` or more is negative. -/
def isDigit (c : UInt8) : Bool := 48 ≤ c ∧ c ≤ 57

/-- `while (fname[i] != '.') i--;` from `i = n - 1`: the index of the last `'.'` before `n`, or
the read of `fname[-1]` when there is none. -/
def findDot (fname : Bytes) : Nat → Except String Nat
  | 0 => throw "string index out of range"
  | n + 1 => if fname.getD n 0 = dot then pure n else findDot fname n

/-- `while (fname[i] >= '0' && fname[i] <= '9' && i >= 0) i--;` from `i = n - 1`, followed by
`i++`: the index after the non-digit that stops the scan. The test `i >= 0` comes after the read,
so a scan that runs over the first byte reads `fname[-1]`. -/
def skipDigitsBack (fname : Bytes) : Nat → Except String Nat
  | 0 => throw "string index out of range"
  | n + 1 => if isDigit (fname.getD n 0) then skipDigitsBack fname n else pure (n + 1)

/-- The `int` result of an arithmetic step; one out of range is undefined behaviour. -/
def checkedInt (n : Int) : Except String Int :=
  if -2 ^ 31 ≤ n ∧ n < 2 ^ 31 then pure n else throw "signed integer overflow"

/-- `sum = sum * 10 + fname[i] - '0'` for one byte, the byte promoted from a signed `char`. -/
def addDigit (sum : Int) (c : UInt8) : Except String Int := do
  let sum ← checkedInt (sum * 10)
  let sum ← checkedInt (sum + c.toInt8.toInt)
  checkedInt (sum - 48)

/-- `getIndex(fname)`: the region of the blocks of the SST file `fname`. -/
def getIndex (c : MyCache) (fname : Bytes) : Except String Nat := do
  if fname.length = 0 then return 0
  let dotPos ← findDot fname fname.length
  -- `i--; int j = i;` and the scan back over the digits
  let first ← skipDigitsBack fname dotPos
  -- `while (fname[i] == '0') i++;`: it stops at the `'.'` at the latest
  let first := first + ((fname.drop first).takeWhile (· = 48)).length
  -- `while (j >= i)`: the digits from `i` to `j = dotPos - 1`
  let sum ← ((fname.drop first).take (dotPos - first)).foldlM addDigit 0
  -- `sum % NUM` in `uint64_t`
  if c.num = 0 then throw "division by zero"
  return (sum % 2 ^ 64).toNat % c.num.toNat

/-! ## `Lookup` and `InsertImpl` -/

/-- `v[index]`: an index past the array is undefined behaviour. -/
def space (c : MyCache) (index : Nat) : Except String (Option SstSpace) :=
  if h : index < spaceCount then pure (c.v ⟨index, h⟩) else throw "array index out of bounds"

/-- `Lookup(key, data, size, fname)`: `none` for `NotFound`, else the buffer read. A
default-constructed `SST_space` has an empty `cache`, so its `Get` finds nothing. -/
def lookup (c : MyCache) (key fname : Bytes) :
    Except String (MyCache × Option (List (Option UInt8))) := do
  let index ← c.getIndex fname
  match ← c.space index with
  | none => return (c, none)
  | some s =>
      let (s, data) ← s.get key
      if h : index < spaceCount then
        return ({ c with v := Function.update c.v ⟨index, h⟩ (some s) }, data)
      else throw "array index out of bounds"

/-- `InsertImpl(key, value, is_meta, fname)`, with the eviction counter `outall`. `Put` on a
default-constructed `SST_space` reads its uninitialised `all_num`. -/
def insertImpl (c : MyCache) (key value : Bytes) (isMeta : Bool) (fname : Bytes)
    (outAll : UInt64) : Except String (MyCache × UInt64) := do
  let index ← c.getIndex fname
  match ← c.space index with
  | none => throw "uninitialised SST_space"
  | some s =>
      let (s, outAll) ← s.put key value outAll isMeta
      if h : index < spaceCount then
        return ({ c with v := Function.update c.v ⟨index, h⟩ (some s) }, outAll)
      else throw "array index out of bounds"

/-! ## `Open` sets up the first `NUM` regions -/

/-- The region `Set_Par` makes of `v[i]`. -/
def region (file : Nat → UInt8) (i : Nat) : SstSpace :=
  SstSpace.setPar file (sstSize / spaceSize).toUInt32 (i * sstSize).toUInt64

/-- The first `n` turns of the loop of `Open`, for `n` within the array: `v[0]` to `v[n - 1]`
are set up and the others kept. -/
theorem setSpaces_of_le (file : Nat → UInt8) (v : Fin spaceCount → Option SstSpace) (n : Nat)
    (hn : n ≤ spaceCount) :
    setSpaces file n v = pure fun i => if i.val < n then some (region file i.val) else v i := by
  induction n with
  | zero => simp [setSpaces]
  | succ n ih =>
      have hlt : n < spaceCount := by omega
      rw [setSpaces, ih (by omega)]
      simp only [pure_bind, dif_pos hlt]
      congr 1
      funext i
      by_cases hi : i = ⟨n, hlt⟩
      · subst hi
        simp [region]
      · have hne : i.val ≠ n := fun h => hi (Fin.ext h)
        rw [Function.update_of_ne hi]
        by_cases hlt' : i.val < n
        · simp [hlt', show i.val < n + 1 by omega]
        · simp [hlt', show ¬ i.val < n + 1 by omega]

/-- Past the array, the loop of `Open` writes `v[200]`. -/
theorem setSpaces_of_lt (file : Nat → UInt8) (v : Fin spaceCount → Option SstSpace) (n : Nat)
    (hn : spaceCount < n) : setSpaces file n v = throw "array index out of bounds" := by
  induction n with
  | zero => omega
  | succ n ih =>
      rw [setSpaces]
      by_cases hlt : spaceCount < n
      · rw [ih hlt]
        rfl
      · -- the turn `n = 200` is the first one past the array
        have hn' : n = spaceCount := by omega
        rw [setSpaces_of_le file v n (by omega)]
        simp [hn']

/-- `NUM`, the number of regions `Open` computes. -/
theorem toNat_num (cacheSize : UInt64) :
    (cacheSize / sstSize.toUInt64).toNat = cacheSize.toNat / sstSize := by
  rw [UInt64.toNat_div]
  rfl

/-- `Open` with a size of at most `200` regions sets up exactly `v[0]` to `v[NUM - 1]`. -/
theorem openCache_of_le (cacheSize : UInt64) (h : cacheSize.toNat / sstSize ≤ spaceCount) :
    ∃ c, openCache cacheSize true = .ok (some c) ∧ c.num.toNat = cacheSize.toNat / sstSize ∧
      ∀ i, c.v i = if i.val < c.num.toNat then some (region (openedFile cacheSize) i.val)
        else none := by
  have hnum := toNat_num cacheSize
  refine ⟨⟨cacheSize / sstSize.toUInt64, fun i =>
    if i.val < (cacheSize / sstSize.toUInt64).toNat then some (region (openedFile cacheSize) i.val)
    else none⟩, ?_, hnum, fun i => rfl⟩
  simp only [openCache, Bool.not_true, Bool.false_eq_true, if_false]
  rw [setSpaces_of_le _ _ _ (hnum ▸ h)]
  rfl

/-- `Open` with a size of more than `200` regions writes past the end of `v`. -/
theorem openCache_of_lt (cacheSize : UInt64) (h : spaceCount < cacheSize.toNat / sstSize) :
    openCache cacheSize true = .error "array index out of bounds" := by
  simp only [openCache, Bool.not_true, Bool.false_eq_true, if_false]
  rw [toNat_num, setSpaces_of_lt _ _ _ h]
  rfl

/-! ## The scans of `getIndex` -/

/-- The number a string of decimal digits writes. -/
def digitsValue (digits : Bytes) : Nat :=
  digits.foldl (fun acc c => acc * 10 + (c.toNat - 48)) 0

/-- The name of an SST file as `BlockFetcher` passes it: a directory ending in a byte that is not
a digit (`'/'`), the file number in at most nine digits, a `'.'` and an extension without a
`'.'` (`"sst"`). -/
structure SstFileName where
  dir : Bytes
  sep : UInt8
  digits : Bytes
  ext : Bytes
  sep_not_digit : isDigit sep = false
  digits_digit : ∀ c ∈ digits, isDigit c = true
  digits_short : digits.length ≤ 9
  ext_no_dot : dot ∉ ext

/-- The bytes of the name. -/
def SstFileName.bytes (n : SstFileName) : Bytes := n.dir ++ n.sep :: n.digits ++ dot :: n.ext

/-- The byte at `pre.length + 1 + k` of `pre ++ b :: l` is `l[k]`. -/
theorem getD_append_cons (pre l : Bytes) (b : UInt8) (k : Nat) :
    (pre ++ b :: l).getD (pre.length + 1 + k) 0 = l.getD k 0 := by
  rw [List.getD_append_right _ _ _ _ (by omega), show pre.length + 1 + k - pre.length = k + 1 by
    omega]
  rfl

/-- The scan for the `'.'` stops at the last one. -/
theorem findDot_append (pre ext : Bytes) (hext : dot ∉ ext) (k : Nat) (hk : k ≤ ext.length) :
    findDot (pre ++ dot :: ext) (pre.length + 1 + k) = pure pre.length := by
  induction k with
  | zero =>
      rw [Nat.add_zero, findDot, if_pos]
      simp
  | succ k ih =>
      rw [show pre.length + 1 + (k + 1) = pre.length + 1 + k + 1 by omega, findDot, if_neg,
        ih (by omega)]
      -- the byte read is `ext[k]`, which is not a dot
      rw [getD_append_cons, List.getD_eq_getElem _ _ (by omega)]
      intro hdot
      exact hext (hdot ▸ List.getElem_mem _)

/-- The scan back over the digits stops after the byte before them. -/
theorem skipDigitsBack_append (dir digits rest : Bytes) (sep : UInt8)
    (hsep : isDigit sep = false) (hdigits : ∀ c ∈ digits, isDigit c = true) (k : Nat)
    (hk : k ≤ digits.length) :
    skipDigitsBack (dir ++ sep :: (digits ++ rest)) (dir.length + 1 + k) = pure (dir.length + 1) := by
  induction k with
  | zero =>
      rw [Nat.add_zero, skipDigitsBack, if_neg]
      simp [hsep]
  | succ k ih =>
      rw [show dir.length + 1 + (k + 1) = dir.length + 1 + k + 1 by omega, skipDigitsBack, if_pos,
        ih (by omega)]
      -- the byte read is `digits[k]`
      rw [getD_append_cons, List.getD_append _ _ _ _ (by omega), List.getD_eq_getElem _ _ (by omega)]
      exact hdigits _ (List.getElem_mem _)

/-- The bytes taken while they are `'0'` stop at a byte that is not. -/
theorem takeWhile_append_cons_of_neg (l r : Bytes) {a : UInt8} (ha : ¬ a = 48) :
    (l ++ a :: r).takeWhile (· = 48) = l.takeWhile (· = 48) := by
  induction l with
  | nil => simp [ha]
  | cons x l ih =>
      by_cases hx : x = 48
      · rw [List.cons_append, List.takeWhile_cons_of_pos (by simp [hx]),
          List.takeWhile_cons_of_pos (by simp [hx]), ih]
      · rw [List.cons_append, List.takeWhile_cons_of_neg (by simp [hx]),
          List.takeWhile_cons_of_neg (by simp [hx])]

/-- A digit is below `128`, so the `char` it is read as is not negative. -/
theorem toInt_toInt8_of_isDigit (c : UInt8) (h : isDigit c = true) : c.toInt8.toInt = c.toNat := by
  have hlt : c.toNat < 128 := by
    simp only [isDigit, decide_eq_true_eq] at h
    have := UInt8.le_iff_toNat_le.mp h.2
    simp at this
    omega
  have hb : c.toInt8.toBitVec = c.toBitVec := rfl
  rw [Int8.toInt, hb, BitVec.toInt_eq_toNat_of_lt (by simp; omega)]
  rfl

/-- A digit adds its value, as long as the sum stays below `10 ^ 9`. -/
theorem addDigit_of_isDigit (acc : Nat) (c : UInt8) (h : isDigit c = true)
    (hacc : acc < 10 ^ 8) : addDigit acc c = pure ↑(acc * 10 + (c.toNat - 48)) := by
  have hc : 48 ≤ c.toNat ∧ c.toNat ≤ 57 := by
    simp only [isDigit, decide_eq_true_eq] at h
    exact ⟨UInt8.le_iff_toNat_le.mp h.1, UInt8.le_iff_toNat_le.mp h.2⟩
  simp only [addDigit, checkedInt, toInt_toInt8_of_isDigit c h]
  rw [if_pos (by omega), pure_bind, if_pos (by omega), pure_bind, if_pos (by omega)]
  congr 1
  omega

/-- The loop of `getIndex` over at most nine digits computes their value. -/
theorem foldlM_addDigit (digits : Bytes) (hdigits : ∀ c ∈ digits, isDigit c = true) (acc m : Nat)
    (hacc : acc < 10 ^ m) (hlen : digits.length + m ≤ 9) :
    digits.foldlM addDigit (acc : Int) =
      pure ↑(digits.foldl (fun acc c => acc * 10 + (c.toNat - 48)) acc) := by
  induction digits generalizing acc m with
  | nil => rfl
  | cons c digits ih =>
      have hc := hdigits c (by simp)
      have hm : m ≤ 8 := by simp at hlen; omega
      have hlt : acc < 10 ^ 8 := lt_of_lt_of_le hacc (Nat.pow_le_pow_right (by norm_num) hm)
      have hstep : acc * 10 + (c.toNat - 48) < 10 ^ (m + 1) := by
        have : c.toNat ≤ 57 := by
          simp only [isDigit, decide_eq_true_eq] at hc
          exact UInt8.le_iff_toNat_le.mp hc.2
        rw [pow_succ]
        omega
      rw [List.foldlM_cons, addDigit_of_isDigit acc c hc hlt, pure_bind, List.foldl_cons]
      exact ih (fun x hx => hdigits x (by simp [hx])) _ (m + 1) hstep (by simp at hlen; omega)

/-- Digits are worth less than `10` to the power of their number. -/
theorem digitsValue_lt (digits : Bytes) (hdigits : ∀ c ∈ digits, isDigit c = true) :
    digitsValue digits < 10 ^ digits.length := by
  suffices h : ∀ (l : Bytes) (acc m : Nat), (∀ c ∈ l, isDigit c = true) → acc < 10 ^ m →
      l.foldl (fun acc c => acc * 10 + (c.toNat - 48)) acc < 10 ^ (m + l.length) by
    simpa [digitsValue] using h digits 0 0 hdigits (by norm_num)
  intro l
  induction l with
  | nil => simp
  | cons c l ih =>
      intro acc m hl hacc
      have hc : c.toNat ≤ 57 := by
        have := hl c (by simp)
        simp only [isDigit, decide_eq_true_eq] at this
        exact UInt8.le_iff_toNat_le.mp this.2
      have hstep : acc * 10 + (c.toNat - 48) < 10 ^ (m + 1) := by
        rw [pow_succ]
        omega
      rw [List.foldl_cons, List.length_cons, show m + (l.length + 1) = m + 1 + l.length by omega]
      exact ih _ _ (fun x hx => hl x (by simp [hx])) hstep

/-- Dropping the bytes `takeWhile` takes is `dropWhile`. -/
theorem drop_length_takeWhile (l : Bytes) :
    l.drop (l.takeWhile (· = 48)).length = l.dropWhile (· = 48) := by
  induction l with
  | nil => rfl
  | cons x l ih =>
      by_cases hx : x = 48
      · rw [List.takeWhile_cons_of_pos (by simp [hx]), List.dropWhile_cons_of_pos (by simp [hx]),
          List.length_cons, List.drop_succ_cons, ih]
      · rw [List.takeWhile_cons_of_neg (by simp [hx]), List.dropWhile_cons_of_neg (by simp [hx])]
        rfl

/-- Leading zeros add nothing to the value. -/
theorem digitsValue_dropWhile (digits : Bytes) :
    digitsValue (digits.dropWhile (· = 48)) = digitsValue digits := by
  induction digits with
  | nil => rfl
  | cons c digits ih =>
      by_cases hc : c = 48
      · rw [List.dropWhile_cons_of_pos (by simp [hc]), ih]
        simp [digitsValue, hc]
      · rw [List.dropWhile_cons_of_neg (by simp [hc])]

/-- `getIndex` of the name of an SST file: the file number modulo `NUM`, or a division by zero
when `NUM` is `0`. -/
theorem getIndex_bytes (c : MyCache) (n : SstFileName) :
    c.getIndex n.bytes =
      if c.num = 0 then throw "division by zero"
      else pure (digitsValue n.digits % c.num.toNat) := by
  obtain ⟨dir, sep, digits, ext, hsep, hdigits, hshort, hext⟩ := n
  simp only [SstFileName.bytes]
  -- the scan for the `'.'` from the end
  have hdot : findDot (dir ++ sep :: digits ++ dot :: ext)
      (dir ++ sep :: digits ++ dot :: ext).length = pure (dir.length + 1 + digits.length) := by
    have h := findDot_append (dir ++ sep :: digits) ext hext ext.length le_rfl
    simp only [List.length_append, List.length_cons, List.append_assoc, List.cons_append] at h ⊢
    convert h using 2 <;> omega
  -- the scan back over the digits
  have hback : skipDigitsBack (dir ++ sep :: digits ++ dot :: ext)
      (dir.length + 1 + digits.length) = pure (dir.length + 1) := by
    simpa only [List.append_assoc, List.cons_append] using
      skipDigitsBack_append dir digits (dot :: ext) sep hsep hdigits digits.length le_rfl
  have hdrop : (dir ++ sep :: digits ++ dot :: ext).drop (dir.length + 1) = digits ++ dot :: ext := by
    rw [List.append_assoc, List.cons_append, List.drop_append]
    simp
  -- the leading zeros stop before the `'.'`
  have hzeros : (digits ++ dot :: ext).takeWhile (· = 48) = digits.takeWhile (· = 48) :=
    takeWhile_append_cons_of_neg digits ext (by decide)
  have hz : (digits.takeWhile (· = 48)).length ≤ digits.length :=
    (List.takeWhile_prefix _).length_le
  have hrest : ((dir ++ sep :: digits ++ dot :: ext).drop
      (dir.length + 1 + (digits.takeWhile (· = 48)).length)).take
        (dir.length + 1 + digits.length - (dir.length + 1 + (digits.takeWhile (· = 48)).length)) =
      digits.dropWhile (· = 48) := by
    rw [← List.drop_drop, hdrop, List.drop_append_of_le_length hz, List.take_left' (by simp; omega),
      drop_length_takeWhile]
  -- the digits after the zeros add up to the file number
  have hsum : (digits.dropWhile (· = 48)).foldlM addDigit 0 = pure ↑(digitsValue digits) := by
    rw [← digitsValue_dropWhile]
    exact foldlM_addDigit _ (fun x hx => hdigits x ((List.dropWhile_suffix _).subset hx)) 0 0
      (by norm_num) (by have := List.length_dropWhile_le (· = (48 : UInt8)) digits; omega)
  have hvalue : digitsValue digits < 2 ^ 64 :=
    calc digitsValue digits < 10 ^ digits.length := digitsValue_lt digits hdigits
      _ ≤ 10 ^ 9 := Nat.pow_le_pow_right (by norm_num) hshort
      _ < 2 ^ 64 := by norm_num
  have hmod : ((digitsValue digits : Int) % 2 ^ 64).toNat = digitsValue digits := by
    rw [Int.emod_eq_of_lt (by positivity) (by exact_mod_cast hvalue)]
    simp
  simp only [getIndex, hdot, hback, pure_bind, hdrop, hzeros, hrest, hsum]
  rw [if_neg (by simp), hmod]
  by_cases hnum : c.num = 0
  · rw [if_pos hnum, if_pos hnum]
    rfl
  · rw [if_neg hnum, if_neg hnum]

/-- **`myCache` divides by zero, or writes past `v`.** A cache smaller than one region opens
with `NUM = 0` and no region set up, and `getIndex` of the name of every SST file then divides by
zero; a cache of more than `200` regions writes `v[200]` while it opens. -/
theorem openCache_getIndex_out_of_range :
    (∀ cacheSize : UInt64, cacheSize.toNat < sstSize →
      ∃ c, openCache cacheSize true = .ok (some c) ∧ c.num = 0 ∧ (∀ i, c.v i = none) ∧
        ∀ n : SstFileName, c.getIndex n.bytes = .error "division by zero") ∧
    (∀ cacheSize : UInt64, (spaceCount + 1) * sstSize ≤ cacheSize.toNat →
      openCache cacheSize true = .error "array index out of bounds") := by
  constructor
  · intro cacheSize hsmall
    have hzero : cacheSize.toNat / sstSize = 0 := Nat.div_eq_of_lt hsmall
    obtain ⟨c, hopen, hnum, hv⟩ := openCache_of_le cacheSize (by rw [hzero]; norm_num)
    have hnum0 : c.num = 0 := UInt64.toNat_inj.mp (by rw [hnum, hzero]; rfl)
    refine ⟨c, hopen, hnum0, fun i => by simp [hv i, hnum0], fun n => ?_⟩
    rw [getIndex_bytes, if_pos hnum0]
    rfl
  · intro cacheSize hlarge
    apply openCache_of_lt
    -- `201` whole regions fit in the size
    have := (Nat.le_div_iff_mul_le (by norm_num [sstSize])).mpr hlarge
    omega

end MyCache

end RocksCloud.PersistentCache
