import Mathlib
import RocksCloud.Table.BlockFormat

/-!
# Reading a data block

A `DataBlockIter` over the bytes of a block laid out from a list of pairs (the entries, then the
restart array, then anything: a hash index and the footer) finds every entry where the builder
put it. `decodeEntry_entryBytes` decodes entry `i` and `parseNextDataKeyWithin_ready` steps to
it from the entry before, rebuilding its key from the bytes it shares with the key before; a
parse at the limit leaves the iterator past the entries. `seekScanWithin_spec` scans from any
entry up to any restart point, `binarySeek_spec` finds a restart point no key before which is
above the target, and `seek_spec` gives `Seek`: with keys in increasing order under the
iterator's comparator, it lands on the first entry whose key is not less than the target, or
past the entries when every key is less.

Offsets are `uint32_t` in the source; the block is shorter than `2^32` bytes here, so no cast
wraps.
-/

set_option autoImplicit false

namespace RocksCloud.Table

open RocksCloud.Util

/-! ## Shared prefixes and the layout -/

/-- The common prefix is no longer than the second slice either. -/
theorem differenceOffset_le_right (a b : Bytes) : differenceOffset a b ≤ b.length := by
  induction a generalizing b with
  | nil => cases b <;> simp [differenceOffset]
  | cons x xs ih =>
      cases b with
      | nil => simp [differenceOffset]
      | cons y ys =>
          simp only [differenceOffset, List.length_cons]
          split
          · have := ih ys
            omega
          · omega

section Layout

variable (R : Nat) (useDelta : Bool) (pairs : List (Bytes × Bytes))

/-- The entries before `j` start the entries before any `m ≥ j`. -/
theorem entriesBytes_prefix {j m : Nat} (h : j ≤ m) :
    ∃ more, entriesBytes R useDelta pairs m = entriesBytes R useDelta pairs j ++ more := by
  induction m with
  | zero => exact ⟨[], by rw [Nat.le_zero.mp h, List.append_nil]⟩
  | succ m ih =>
      rcases Nat.eq_or_lt_of_le h with rfl | hlt
      · exact ⟨[], (List.append_nil _).symm⟩
      · obtain ⟨more, hmore⟩ := ih (by omega)
        exact ⟨more ++ entryBytes R useDelta pairs m,
          by rw [entriesBytes_succ, hmore, List.append_assoc]⟩

/-- A key shares with the key before it no more bytes than either has. -/
theorem sharedAt_le (i : Nat) :
    sharedAt R useDelta pairs i ≤ (keyAt pairs i).length ∧
      (sharedAt R useDelta pairs i ≠ 0 → sharedAt R useDelta pairs i ≤ (keyAt pairs (i - 1)).length) := by
  unfold sharedAt
  split
  · exact ⟨differenceOffset_le_left _ _, fun _ => differenceOffset_le_right _ _⟩
  · exact ⟨Nat.zero_le _, fun h => absurd rfl h⟩

/-- Nothing is shared at a restart point. -/
theorem sharedAt_restart (j : Nat) : sharedAt R useDelta pairs (j * R) = 0 := by
  unfold sharedAt
  rw [if_neg (by simp)]

/-- The bytes a key shares with the key before it and its own bytes after them make it up. -/
theorem take_append_drop_sharedAt {i : Nat} (hshared : sharedAt R useDelta pairs i ≠ 0) :
    (keyAt pairs (i - 1)).take (sharedAt R useDelta pairs i) ++
      (keyAt pairs i).drop (sharedAt R useDelta pairs i) = keyAt pairs i := by
  have hshare : (keyAt pairs (i - 1)).take (sharedAt R useDelta pairs i) =
      (keyAt pairs i).take (sharedAt R useDelta pairs i) := by
    unfold sharedAt at hshared ⊢
    split
    · exact (take_differenceOffset _ _).symm
    · rename_i hno
      rw [if_neg hno] at hshared
      exact absurd rfl hshared
  rw [hshare, List.take_append_drop]

/-- A key is no longer than the bytes of the entries up to its own: the bytes it shares come from
the key before it. -/
theorem length_keyAt_le (i : Nat) :
    (keyAt pairs i).length ≤ entryOffset R useDelta pairs (i + 1) := by
  induction i with
  | zero =>
      have hshared : sharedAt R useDelta pairs 0 = 0 := by simpa using sharedAt_restart R useDelta pairs 0
      rw [entryOffset_succ]
      simp [entryBytes, hshared]
      omega
  | succ i ih =>
      have hle := (sharedAt_le R useDelta pairs (i + 1)).2
      rw [entryOffset_succ]
      simp only [entryBytes, List.length_append, List.length_drop]
      by_cases hz : sharedAt R useDelta pairs (i + 1) = 0
      · omega
      · have := hle hz
        simp only [Nat.add_sub_cancel] at this
        omega

/-- Keys sorted by `cmp` compare by their indices. -/
theorem cmp_keyAt_of_pairwise {cmp : Bytes → Bytes → Ordering}
    (hsorted : pairs.Pairwise (fun a b => cmp a.1 b.1 = .lt)) {i j : Nat} (hij : i < j)
    (hj : j < pairs.length) : cmp (keyAt pairs i) (keyAt pairs j) = .lt := by
  unfold keyAt
  rw [List.getD_eq_getElem _ _ (Nat.lt_trans hij hj), List.getD_eq_getElem _ _ hj]
  exact List.pairwise_iff_getElem.mp hsorted i j _ hj hij

end Layout

/-! ## Reading the entries -/

/-- A header of three bytes below `128` is three one-byte varints. -/
theorem decodeHeader_of_lt {s n v : UInt8} (rest : Bytes) (h : (s ||| n ||| v) < 128) :
    DataBlockIter.decodeHeader (s :: n :: v :: rest) =
      some (s.toUInt32, n.toUInt32, v.toUInt32, rest) := by
  have hlt : s.toNat ||| n.toNat ||| v.toNat < 128 := by
    rw [UInt8.lt_iff_toNat_lt, UInt8.toNat_or, UInt8.toNat_or] at h
    exact h
  -- a byte below `128` has no continuation bit
  have hbyte : ∀ b : UInt8, b.toNat < 128 → b &&& 128 = 0 := by
    intro b hb
    apply UInt8.toNat_inj.mp
    rw [UInt8.toNat_and]
    exact (land_continuation_eq_zero_iff b.toNat b.toNat_lt).mpr hb
  have hs : s.toNat < 128 := lt_of_le_of_lt (Nat.left_le_or.trans Nat.left_le_or) hlt
  have hn : n.toNat < 128 := lt_of_le_of_lt (Nat.right_le_or.trans Nat.left_le_or) hlt
  have hv : v.toNat < 128 := lt_of_le_of_lt Nat.right_le_or hlt
  simp [DataBlockIter.decodeHeader, getVarint32Ptr, hbyte s hs, hbyte n hn, hbyte v hv]

/-- The varint reader reads back a header of three varints. -/
theorem decodeHeader_encodeVarint32 (s n v : UInt32) (rest : Bytes) :
    DataBlockIter.decodeHeader
        (encodeVarint32 s ++ encodeVarint32 n ++ encodeVarint32 v ++ rest) = some (s, n, v, rest) := by
  have hread : ∀ (w : UInt32) (tail : Bytes),
      getVarint32Ptr (encodeVarint32 w ++ tail) = some (w, tail) :=
    getVarint32_encodeVarint32
  simp [DataBlockIter.decodeHeader, List.append_assoc, hread]

/-- `DecodeEntry`'s fast path reads what the varint reader reads. -/
theorem decodeEntry_eq (data : Bytes) (p limit : Nat) :
    DataBlockIter.decodeEntry data p limit =
      if limit < p + 3 then none
      else match DataBlockIter.decodeHeader ((data.take limit).drop p) with
        | none => none
        | some (shared, nonShared, valueLength, rest) =>
            if (limit - (p + (((data.take limit).drop p).length - rest.length))).toUInt32 <
                nonShared + valueLength then none
            else some (shared, nonShared, valueLength,
              p + (((data.take limit).drop p).length - rest.length)) := by
  unfold DataBlockIter.decodeEntry
  dsimp only
  split
  · rfl
  · generalize (data.take limit).drop p = input
    rcases input with _ | ⟨s, _ | ⟨n, _ | ⟨v, rest⟩⟩⟩
    all_goals try rfl
    by_cases h : (s ||| n ||| v) < 128
    · simp only [h, if_true, decodeHeader_of_lt rest h]
    · simp only [h, if_false]
      rfl

/-! ## A block laid out from pairs -/

section Reading

variable (R : Nat) (useDelta : Bool) (pairs : List (Bytes × Bytes))

/-- `data` starts with the entries of `pairs` and their restart array, and is shorter than
`2^32` bytes; the restart interval is positive, as the builder asserts. -/
structure BlockOf (data : Bytes) : Prop where
  interval_pos : 0 < R
  layout : ∃ rest, data = entriesBytes R useDelta pairs pairs.length ++
    restartArray R useDelta pairs pairs.length ++ rest
  length_lt : data.length < 2 ^ 32

variable {R useDelta pairs} {data : Bytes}

namespace BlockOf

/-- The entries and the restart array fit in the block. -/
theorem entryOffset_add_le (hb : BlockOf R useDelta pairs data) :
    entryOffset R useDelta pairs pairs.length + 4 * restartCount R pairs.length ≤ data.length := by
  obtain ⟨rest, rfl⟩ := hb.layout
  simp

/-- The bytes up to an entry's offset are the entries before it. -/
theorem take_entryOffset (hb : BlockOf R useDelta pairs data) {j : Nat}
    (hj : j ≤ pairs.length) :
    data.take (entryOffset R useDelta pairs j) = entriesBytes R useDelta pairs j := by
  obtain ⟨rest, rfl⟩ := hb.layout
  obtain ⟨more, hmore⟩ := entriesBytes_prefix R useDelta pairs hj
  rw [hmore, List.append_assoc, List.append_assoc]
  exact List.take_left' (length_entriesBytes R useDelta pairs j)

/-- The unread bytes up to `limit` start with entry `i`. -/
theorem drop_take_entryOffset (hb : BlockOf R useDelta pairs data) {i : Nat}
    (hi : i < pairs.length) {limit : Nat} (hlimit : entryOffset R useDelta pairs (i + 1) ≤ limit) :
    (data.take limit).drop (entryOffset R useDelta pairs i) =
      entryBytes R useDelta pairs i ++
        (data.take limit).drop (entryOffset R useDelta pairs (i + 1)) := by
  have htake : (data.take limit).take (entryOffset R useDelta pairs (i + 1)) =
      entriesBytes R useDelta pairs i ++ entryBytes R useDelta pairs i := by
    rw [List.take_take, Nat.min_eq_left hlimit, hb.take_entryOffset hi, entriesBytes_succ]
  conv_lhs => rw [← List.take_append_drop (entryOffset R useDelta pairs (i + 1)) (data.take limit),
    htake, List.append_assoc]
  exact List.drop_left' (length_entriesBytes R useDelta pairs i)

/-- Every length in the block is below `2^32`. -/
theorem lengths_lt (hb : BlockOf R useDelta pairs data) {i : Nat} (hi : i < pairs.length) :
    entryOffset R useDelta pairs (i + 1) < 2 ^ 32 ∧
      (entryBytes R useDelta pairs i).length < 2 ^ 32 := by
  have hle := entryOffset_le R useDelta pairs (Nat.succ_le_of_lt hi)
  have hfit := hb.entryOffset_add_le
  have hlt := hb.length_lt
  rw [entryOffset_succ] at hle ⊢
  omega

/-- **`DecodeEntry` reads entry `i`'s header**: the bytes it shares, the bytes that follow, the
length of its value, and where its unshared key bytes start. -/
theorem decodeEntry_entryBytes (hb : BlockOf R useDelta pairs data) {i : Nat}
    (hi : i < pairs.length) {limit : Nat} (hlimit : entryOffset R useDelta pairs (i + 1) ≤ limit)
    (hlimit' : limit ≤ data.length) :
    DataBlockIter.decodeEntry data (entryOffset R useDelta pairs i) limit =
      some ((sharedAt R useDelta pairs i).toUInt32,
        ((keyAt pairs i).length - sharedAt R useDelta pairs i).toUInt32,
        (valueAt pairs i).length.toUInt32,
        entryOffset R useDelta pairs i + (entryHeader R useDelta pairs i).length) := by
  obtain ⟨hnext, hentry⟩ := hb.lengths_lt hi
  have hthree := three_le_length_entryBytes R useDelta pairs i
  have hsucc := entryOffset_succ R useDelta pairs i
  have hshared := (sharedAt_le R useDelta pairs i).1
  -- the lengths in the header, read back as numbers
  have hlen : ∀ n : Nat, n < 2 ^ 32 → n.toUInt32.toNat = n := by
    intro n hn
    simp only [Nat.toUInt32, UInt32.toNat_ofNat']
    exact Nat.mod_eq_of_lt hn
  have hbody : ((keyAt pairs i).drop (sharedAt R useDelta pairs i) ++ valueAt pairs i).length =
      ((keyAt pairs i).length - sharedAt R useDelta pairs i) + (valueAt pairs i).length := by
    simp
  have hsize : (entryBytes R useDelta pairs i).length = (entryHeader R useDelta pairs i).length +
      ((keyAt pairs i).length - sharedAt R useDelta pairs i) + (valueAt pairs i).length := by
    simp only [entryBytes, List.length_append, List.length_drop]
  -- the entry is its three varints, then its unshared key bytes and its value
  have hsplit : ∀ more : Bytes, entryBytes R useDelta pairs i ++ more =
      encodeVarint32 (sharedAt R useDelta pairs i).toUInt32 ++
        encodeVarint32 ((keyAt pairs i).length - sharedAt R useDelta pairs i).toUInt32 ++
        encodeVarint32 (valueAt pairs i).length.toUInt32 ++
        ((keyAt pairs i).drop (sharedAt R useDelta pairs i) ++ valueAt pairs i ++ more) := by
    intro more
    simp [entryBytes, entryHeader]
  have hhdr : (entryHeader R useDelta pairs i).length =
      (encodeVarint32 (sharedAt R useDelta pairs i).toUInt32).length +
        (encodeVarint32 ((keyAt pairs i).length - sharedAt R useDelta pairs i).toUInt32).length +
        (encodeVarint32 (valueAt pairs i).length.toUInt32).length := by
    simp [entryHeader]
    omega
  rw [decodeEntry_eq, hb.drop_take_entryOffset hi hlimit, if_neg (by omega), hsplit,
    decodeHeader_encodeVarint32]
  dsimp only
  simp only [List.length_append, Nat.add_sub_cancel, ← hhdr]
  -- the unshared key bytes and the value end before `limit`
  rw [if_neg]
  have hroom : ((keyAt pairs i).length - sharedAt R useDelta pairs i) + (valueAt pairs i).length ≤
      limit - (entryOffset R useDelta pairs i + (entryHeader R useDelta pairs i).length) := by
    omega
  have hfits : limit - (entryOffset R useDelta pairs i + (entryHeader R useDelta pairs i).length) <
      2 ^ 32 := by
    have := hb.length_lt
    omega
  intro hlt
  rw [UInt32.lt_iff_toNat_lt, UInt32.toNat_add, hlen _ hfits, hlen _ (by omega),
    hlen _ (by omega), Nat.mod_eq_of_lt (by omega)] at hlt
  omega

/-- The bytes from entry `i` on are entry `i`, then those from entry `i + 1` on. -/
theorem drop_entryOffset (hb : BlockOf R useDelta pairs data) {i : Nat} (hi : i < pairs.length) :
    data.drop (entryOffset R useDelta pairs i) =
      entryBytes R useDelta pairs i ++ data.drop (entryOffset R useDelta pairs (i + 1)) := by
  have hle : entryOffset R useDelta pairs (i + 1) ≤ data.length :=
    (entryOffset_le R useDelta pairs (Nat.succ_le_of_lt hi)).trans
      (Nat.le_trans (Nat.le_add_right _ _) hb.entryOffset_add_le)
  have h := hb.drop_take_entryOffset hi hle
  rwa [List.take_of_length_le (le_refl _)] at h

/-- The unshared bytes of entry `i`'s key follow its header. -/
theorem take_drop_key (hb : BlockOf R useDelta pairs data) {i : Nat} (hi : i < pairs.length) :
    (data.drop (entryOffset R useDelta pairs i + (entryHeader R useDelta pairs i).length)).take
        ((keyAt pairs i).length - sharedAt R useDelta pairs i) =
      (keyAt pairs i).drop (sharedAt R useDelta pairs i) := by
  rw [← List.drop_drop, hb.drop_entryOffset hi, entryBytes, List.append_assoc, List.append_assoc,
    List.drop_left' rfl]
  exact List.take_left' (by simp)

/-- Entry `i`'s value follows the unshared bytes of its key. -/
theorem take_drop_value (hb : BlockOf R useDelta pairs data) {i : Nat} (hi : i < pairs.length) :
    (data.drop (entryOffset R useDelta pairs i + (entryHeader R useDelta pairs i).length +
        ((keyAt pairs i).length - sharedAt R useDelta pairs i))).take (valueAt pairs i).length =
      valueAt pairs i := by
  have hdrop : (entryHeader R useDelta pairs i ++ (keyAt pairs i).drop (sharedAt R useDelta pairs i)).length =
      (entryHeader R useDelta pairs i).length + ((keyAt pairs i).length - sharedAt R useDelta pairs i) := by
    simp
  rw [Nat.add_assoc, ← hdrop, ← List.drop_drop, hb.drop_entryOffset hi, entryBytes,
    List.append_assoc, List.drop_left' rfl]
  exact List.take_left' rfl

/-- The restart array holds the offsets of the restart points. -/
theorem drop_restartArray (hb : BlockOf R useDelta pairs data) {j : Nat}
    (hj : j < restartCount R pairs.length) :
    ∃ rest, data.drop (entryOffset R useDelta pairs pairs.length + j * 4) =
      encodeFixed32 (entryOffset R useDelta pairs (j * R)).toUInt32 ++ rest := by
  obtain ⟨rest, rfl⟩ := hb.layout
  -- the array is the offsets one after another, four bytes each
  have harray : ∀ (l : List UInt32) (k : Nat) (hk : k < l.length),
      ∃ more, (l.flatMap encodeFixed32).drop (k * 4) = encodeFixed32 l[k] ++ more := by
    intro l
    induction l with
    | nil => intro k hk; exact absurd hk (Nat.not_lt_zero _)
    | cons r l ih =>
        intro k hk
        cases k with
        | zero => exact ⟨l.flatMap encodeFixed32, by simp⟩
        | succ k =>
            obtain ⟨more, hmore⟩ := ih k (by simpa using hk)
            refine ⟨more, ?_⟩
            have hk4 : (k + 1) * 4 = (encodeFixed32 r).length + k * 4 := by
              rw [encodeFixed32_length]
              omega
            rw [List.flatMap_cons, hk4, List.drop_append, List.drop_eq_nil_of_le (by omega),
              List.nil_append, Nat.add_sub_cancel_left, hmore]
            rfl
  have hlen : j < (restartPoints R useDelta pairs pairs.length).length := by
    simpa [restartPoints] using hj
  obtain ⟨more, hmore⟩ := harray _ j hlen
  refine ⟨more ++ rest, ?_⟩
  rw [← List.drop_drop, List.append_assoc, List.drop_left' (length_entriesBytes _ _ _ _),
    List.drop_append_of_le_length (by simp; omega), restartArray, hmore]
  simp [restartPoints]

end BlockOf

/-- The block has at least one byte for each entry. -/
theorem BlockOf.length_le (hb : BlockOf R useDelta pairs data) : pairs.length ≤ data.length := by
  -- the layout's bound, not `BlockOf.entryOffset_add_le`
  have hentries := RocksCloud.Table.entryOffset_add_le R useDelta pairs 0 pairs.length
  rw [Nat.zero_add] at hentries
  have := hb.entryOffset_add_le
  omega

/-! ## Where the iterator is -/

variable (R useDelta pairs data)

/-- The iterator reads `data`, with the restart array after the entries of the pairs. -/
structure OnBlock (it : DataBlockIter) : Prop where
  data_eq : it.data = data
  restarts_eq : it.restarts = entryOffset R useDelta pairs pairs.length
  numRestarts_eq : it.numRestarts = restartCount R pairs.length

/-- The next entry `ParseNextDataKey` reads is entry `i`: it starts where the current value ends,
and the iterator holds the key before it when entry `i` shares bytes with that key. -/
structure ReadyAt (it : DataBlockIter) (i : Nat) : Prop extends OnBlock R useDelta pairs data it where
  next_eq : it.nextEntryOffset = entryOffset R useDelta pairs i
  key_eq : sharedAt R useDelta pairs i ≠ 0 → it.key = keyAt pairs (i - 1)

/-- The iterator is at entry `i`: its offset, its key and its value. -/
structure AtEntry (it : DataBlockIter) (i : Nat) : Prop extends OnBlock R useDelta pairs data it where
  lt : i < pairs.length
  current_eq : it.current = entryOffset R useDelta pairs i
  key_eq : it.key = keyAt pairs i
  value_eq : it.value = valueAt pairs i
  next_eq : it.nextEntryOffset = entryOffset R useDelta pairs (i + 1)

/-- The iterator is past the entries. -/
structure Past (it : DataBlockIter) : Prop extends OnBlock R useDelta pairs data it where
  current_eq : it.current = it.restarts

variable {R useDelta pairs data}

/-- After entry `i` the next one is entry `i + 1`. -/
theorem AtEntry.readyAt {it : DataBlockIter} {i : Nat} (h : AtEntry R useDelta pairs data it i) :
    ReadyAt R useDelta pairs data it (i + 1) :=
  { h.toOnBlock with
    next_eq := h.next_eq
    key_eq := fun _ => h.key_eq }

/-- Two iterators at one entry show the same key and value. -/
theorem AtEntry.same_entry {it it' : DataBlockIter} {i : Nat}
    (h : AtEntry R useDelta pairs data it i) (h' : AtEntry R useDelta pairs data it' i) :
    it.current = it'.current ∧ it.key = it'.key ∧ it.value = it'.value :=
  ⟨h.current_eq.trans h'.current_eq.symm, h.key_eq.trans h'.key_eq.symm,
    h.value_eq.trans h'.value_eq.symm⟩

/-- An iterator at an entry is valid. -/
theorem AtEntry.valid {it : DataBlockIter} {i : Nat} (h : AtEntry R useDelta pairs data it i) :
    it.valid = true := by
  unfold DataBlockIter.valid
  rw [h.current_eq, h.restarts_eq, decide_eq_true_eq]
  exact entryOffset_lt R useDelta pairs h.lt

/-- An iterator past the entries is not valid. -/
theorem Past.not_valid {it : DataBlockIter} (h : Past R useDelta pairs data it) :
    it.valid = false := by
  unfold DataBlockIter.valid
  rw [h.current_eq]
  simp

/-- The `while` of `ParseNextDataKey` moves `restart_index_` and nothing else. -/
theorem advanceRestartIndex_eq (it : DataBlockIter) (fuel : Nat) :
    ∃ r, it.advanceRestartIndex fuel = { it with restartIndex := r } := by
  induction fuel generalizing it with
  | zero => exact ⟨it.restartIndex, rfl⟩
  | succ fuel ih =>
      unfold DataBlockIter.advanceRestartIndex
      split
      · obtain ⟨r, hr⟩ := ih { it with restartIndex := it.restartIndex + 1 }
        exact ⟨r, hr⟩
      · exact ⟨it.restartIndex, rfl⟩

/-- Where the iterator is does not depend on its restart index. -/
theorem AtEntry.with_restartIndex {it : DataBlockIter} {i : Nat}
    (h : AtEntry R useDelta pairs data it i) (r : Nat) :
    AtEntry R useDelta pairs data { it with restartIndex := r } i :=
  ⟨⟨h.data_eq, h.restarts_eq, h.numRestarts_eq⟩, h.lt, h.current_eq, h.key_eq, h.value_eq,
    h.next_eq⟩

/-- A length below `2^32` survives the cast to `uint32_t`. -/
theorem toNat_toUInt32_of_lt {n : Nat} (h : n < 2 ^ 32) : n.toUInt32.toNat = n := by
  simp only [Nat.toUInt32, UInt32.toNat_ofNat']
  exact Nat.mod_eq_of_lt h

/-- **`ParseNextDataKey(limit)` reads entry `i`** when the iterator is ready for it and the limit
is past it. -/
theorem parseNextDataKeyWithin_ready (hb : BlockOf R useDelta pairs data) {it : DataBlockIter}
    {i : Nat} (h : ReadyAt R useDelta pairs data it i) (hi : i < pairs.length) {limit : Nat}
    (hlimit : entryOffset R useDelta pairs (i + 1) ≤ limit) (hlimit' : limit ≤ data.length) :
    (it.parseNextDataKeyWithin limit).2 = true ∧
      AtEntry R useDelta pairs data (it.parseNextDataKeyWithin limit).1 i := by
  obtain ⟨hnext, hentry⟩ := hb.lengths_lt hi
  have hsucc := entryOffset_succ R useDelta pairs i
  have hthree := three_le_length_entryBytes R useDelta pairs i
  obtain ⟨hshared, hshared'⟩ := sharedAt_le R useDelta pairs i
  have hsize : (entryBytes R useDelta pairs i).length = (entryHeader R useDelta pairs i).length +
      ((keyAt pairs i).length - sharedAt R useDelta pairs i) + (valueAt pairs i).length := by
    simp only [entryBytes, List.length_append, List.length_drop]
  have hkeyle := length_keyAt_le R useDelta pairs i
  have hsharedNat : (sharedAt R useDelta pairs i).toUInt32.toNat = sharedAt R useDelta pairs i :=
    toNat_toUInt32_of_lt (by omega)
  have hkeyNat : ((keyAt pairs i).length - sharedAt R useDelta pairs i).toUInt32.toNat =
      (keyAt pairs i).length - sharedAt R useDelta pairs i :=
    toNat_toUInt32_of_lt (by omega)
  have hvalueNat : (valueAt pairs i).length.toUInt32.toNat = (valueAt pairs i).length :=
    toNat_toUInt32_of_lt (by omega)
  have hzero : (sharedAt R useDelta pairs i).toUInt32 = 0 ↔ sharedAt R useDelta pairs i = 0 := by
    constructor
    · intro hz
      rw [← hsharedNat, hz]
      rfl
    · intro hz
      rw [hz]
      rfl
  -- the key `ParseNextDataKey` rebuilds: the shared bytes of the key before, then its own
  have hkey : (if (sharedAt R useDelta pairs i).toUInt32 = 0 then
        (it.data.drop (entryOffset R useDelta pairs i + (entryHeader R useDelta pairs i).length)).take
          ((keyAt pairs i).length - sharedAt R useDelta pairs i)
      else it.key.take (sharedAt R useDelta pairs i) ++
        (it.data.drop (entryOffset R useDelta pairs i + (entryHeader R useDelta pairs i).length)).take
          ((keyAt pairs i).length - sharedAt R useDelta pairs i)) = keyAt pairs i := by
    rw [h.data_eq, hb.take_drop_key hi]
    split
    · rename_i hz
      rw [hzero.mp hz, List.drop_zero]
    · rename_i hz
      rw [h.key_eq (fun h0 => hz (hzero.mpr h0))]
      exact take_append_drop_sharedAt R useDelta pairs (fun h0 => hz (hzero.mpr h0))
  have hfits : ¬it.key.length < sharedAt R useDelta pairs i := by
    by_cases hz : sharedAt R useDelta pairs i = 0
    · omega
    · rw [h.key_eq hz]
      exact Nat.not_lt.mpr (hshared' hz)
  unfold DataBlockIter.parseNextDataKeyWithin
  dsimp only
  have hdecode : DataBlockIter.decodeEntry it.data (entryOffset R useDelta pairs i) limit =
      some ((sharedAt R useDelta pairs i).toUInt32,
        ((keyAt pairs i).length - sharedAt R useDelta pairs i).toUInt32,
        (valueAt pairs i).length.toUInt32,
        entryOffset R useDelta pairs i + (entryHeader R useDelta pairs i).length) :=
    h.data_eq ▸ hb.decodeEntry_entryBytes hi hlimit hlimit'
  rw [h.next_eq, if_neg (by omega), hdecode]
  dsimp only
  rw [hsharedNat, if_neg hfits, hkeyNat, hvalueNat, hkey]
  -- the entry itself, before `restart_index_` moves
  have hat : AtEntry R useDelta pairs data { it with
      current := entryOffset R useDelta pairs i
      key := keyAt pairs i
      valueOffset := entryOffset R useDelta pairs i + (entryHeader R useDelta pairs i).length +
        ((keyAt pairs i).length - sharedAt R useDelta pairs i)
      valueSize := (valueAt pairs i).length } i := by
    refine ⟨⟨h.data_eq, h.restarts_eq, h.numRestarts_eq⟩, hi, rfl, rfl, ?_, ?_⟩
    · show (it.data.drop _).take _ = _
      rw [h.data_eq]
      exact hb.take_drop_value hi
    · unfold DataBlockIter.nextEntryOffset
      dsimp only
      rw [Nat.mod_eq_of_lt (by omega)]
      omega
  refine ⟨rfl, ?_⟩
  split
  · obtain ⟨r, hr⟩ := advanceRestartIndex_eq
      { it with
        current := entryOffset R useDelta pairs i
        key := keyAt pairs i
        valueOffset := entryOffset R useDelta pairs i + (entryHeader R useDelta pairs i).length +
          ((keyAt pairs i).length - sharedAt R useDelta pairs i)
        valueSize := (valueAt pairs i).length } it.numRestarts
    rw [hr]
    exact hat.with_restartIndex r
  · exact hat

/-- A parse at or past the limit leaves the iterator past the entries. -/
theorem parseNextDataKeyWithin_end {it : DataBlockIter} (h : OnBlock R useDelta pairs data it)
    {limit : Nat} (hlimit : limit ≤ it.nextEntryOffset) :
    (it.parseNextDataKeyWithin limit).2 = false ∧
      Past R useDelta pairs data (it.parseNextDataKeyWithin limit).1 := by
  unfold DataBlockIter.parseNextDataKeyWithin
  dsimp only
  rw [if_pos hlimit]
  exact ⟨rfl, ⟨h.data_eq, h.restarts_eq, h.numRestarts_eq⟩, rfl⟩

/-- A parse keeps the block, where its restart array is, the number of restarts and that the
iterator is initialized. -/
theorem parseNextDataKeyWithin_fields (it : DataBlockIter) (limit : Nat) :
    (it.parseNextDataKeyWithin limit).1.data = it.data ∧
      (it.parseNextDataKeyWithin limit).1.restarts = it.restarts ∧
      (it.parseNextDataKeyWithin limit).1.numRestarts = it.numRestarts ∧
      (it.parseNextDataKeyWithin limit).1.initialized = it.initialized := by
  unfold DataBlockIter.parseNextDataKeyWithin
  dsimp only
  split
  · exact ⟨rfl, rfl, rfl, rfl⟩
  · split
    · exact ⟨rfl, rfl, rfl, rfl⟩
    · split
      · exact ⟨rfl, rfl, rfl, rfl⟩
      · split
        · obtain ⟨r, hr⟩ := advanceRestartIndex_eq
            { it with
              current := it.nextEntryOffset
              key := _
              valueOffset := _
              valueSize := _ } it.numRestarts
          rw [hr]
          exact ⟨rfl, rfl, rfl, rfl⟩
        · exact ⟨rfl, rfl, rfl, rfl⟩

/-- Restart point `j` is one of the entries, or the end of a block without entries. -/
theorem mul_le_of_lt_restartCount {m j : Nat} (hj : j < restartCount R m) : j * R ≤ m := by
  rcases Nat.eq_zero_or_pos m with rfl | hm
  · have hj0 : j = 0 := by
      simp [restartCount] at hj
      omega
    simp [hj0]
  · exact (mul_lt_of_lt_restartCount (Nat.pos_iff_ne_zero.mp hm) hj).le

/-- `GetRestartPoint(j)` is the offset of the entry at restart point `j`. -/
theorem getRestartPoint_eq (hb : BlockOf R useDelta pairs data) {it : DataBlockIter}
    (h : OnBlock R useDelta pairs data it) {j : Nat} (hj : j < restartCount R pairs.length) :
    it.getRestartPoint j = entryOffset R useDelta pairs (j * R) ∧
      entryOffset R useDelta pairs (j * R) < 2 ^ 32 := by
  obtain ⟨rest, hrest⟩ := hb.drop_restartArray hj
  have hlt : entryOffset R useDelta pairs (j * R) < 2 ^ 32 := by
    have := hb.length_lt
    have := hb.entryOffset_add_le
    have := entryOffset_le R useDelta pairs (mul_le_of_lt_restartCount hj)
    omega
  refine ⟨?_, hlt⟩
  unfold DataBlockIter.getRestartPoint
  rw [h.data_eq, h.restarts_eq, hrest, decodeFixed32_encodeFixed32, toNat_toUInt32_of_lt hlt]

/-- `SeekToRestartPoint(j)` makes the iterator ready for the entry at restart point `j`. -/
theorem seekToRestartPoint_readyAt (hb : BlockOf R useDelta pairs data) {it : DataBlockIter}
    (h : OnBlock R useDelta pairs data it) {j : Nat} (hj : j < restartCount R pairs.length) :
    ReadyAt R useDelta pairs data (it.seekToRestartPoint j) (j * R) := by
  obtain ⟨hpoint, hlt⟩ := getRestartPoint_eq hb h hj
  refine ⟨⟨h.data_eq, h.restarts_eq, h.numRestarts_eq⟩, ?_,
    fun hz => absurd (sharedAt_restart R useDelta pairs j) hz⟩
  unfold DataBlockIter.nextEntryOffset DataBlockIter.seekToRestartPoint
  dsimp only
  rw [hpoint, Nat.add_zero, Nat.mod_eq_of_lt hlt]

/-! ## Scans and `Seek` -/

section Seek

variable (cmp : Bytes → Bytes → Ordering) (target : Bytes)

/-- **The linear search from entry `i` up to the entry at `stop`** lands on the first entry from
`i` on whose key is not less than the target, or past the entries when every key before `stop`
is less. -/
theorem seekScanWithin_spec (hb : BlockOf R useDelta pairs data) {stop : Nat}
    (hstop : stop ≤ pairs.length) :
    ∀ (fuel i : Nat) (it : DataBlockIter), ReadyAt R useDelta pairs data it i → i ≤ stop →
      stop - i < fuel →
      (∃ j, i ≤ j ∧ j < stop ∧
        AtEntry R useDelta pairs data
          (DataBlockIter.seekScanWithin cmp target (entryOffset R useDelta pairs stop) fuel it) j ∧
        cmp (keyAt pairs j) target ≠ .lt ∧ ∀ l, i ≤ l → l < j → cmp (keyAt pairs l) target = .lt) ∨
      (Past R useDelta pairs data
          (DataBlockIter.seekScanWithin cmp target (entryOffset R useDelta pairs stop) fuel it) ∧
        ∀ l, i ≤ l → l < stop → cmp (keyAt pairs l) target = .lt) := by
  have hend : entryOffset R useDelta pairs stop ≤ data.length :=
    (entryOffset_le R useDelta pairs hstop).trans
      (Nat.le_trans (Nat.le_add_right _ _) hb.entryOffset_add_le)
  intro fuel
  induction fuel with
  | zero => intro i it _ _ hfuel; exact absurd hfuel (Nat.not_lt_zero _)
  | succ fuel ih =>
      intro i it hready hi hfuel
      unfold DataBlockIter.seekScanWithin
      rcases Nat.eq_or_lt_of_le hi with rfl | hlt
      · -- at the limit: the parse stops past the entries
        obtain ⟨hok, hpast⟩ := parseNextDataKeyWithin_end hready.toOnBlock
          (le_of_eq hready.next_eq.symm)
        rcases hp : it.parseNextDataKeyWithin (entryOffset R useDelta pairs i) with ⟨it', ok⟩
        rw [hp] at hok hpast
        dsimp only at hok hpast ⊢
        rw [hok]
        exact Or.inr ⟨hpast, fun l hl hl' => absurd hl' (Nat.not_lt.mpr hl)⟩
      · -- entry `i` is read; the search goes on past it only while its key is less
        obtain ⟨hok, hat⟩ := parseNextDataKeyWithin_ready hb hready (Nat.lt_of_lt_of_le hlt hstop)
          (entryOffset_le R useDelta pairs hlt) hend
        rcases hp : it.parseNextDataKeyWithin (entryOffset R useDelta pairs stop) with ⟨it', ok⟩
        rw [hp] at hok hat
        dsimp only at hok hat ⊢
        rw [hok, hat.key_eq]
        by_cases hless : cmp (keyAt pairs i) target = .lt
        · rw [if_pos ⟨rfl, hless⟩]
          rcases ih (i + 1) it' hat.readyAt hlt (by omega) with
            ⟨j, hij, hj, hatj, hnot, hbefore⟩ | ⟨hpast, hall⟩
          · refine Or.inl ⟨j, by omega, hj, hatj, hnot, fun l hl hl' => ?_⟩
            rcases Nat.eq_or_lt_of_le hl with rfl | hl
            · exact hless
            · exact hbefore l hl hl'
          · refine Or.inr ⟨hpast, fun l hl hl' => ?_⟩
            rcases Nat.eq_or_lt_of_le hl with rfl | hl
            · exact hless
            · exact hall l hl hl'
        · rw [if_neg (fun h => hless h.2)]
          exact Or.inl ⟨i, le_rfl, hlt, hat, hless, fun l hl hl' => absurd hl' (Nat.not_lt.mpr hl)⟩

/-- Without a limit the search runs to the restart array: it is the search up to the last
entry. -/
theorem seekScan_eq_within (fuel : Nat) (it : DataBlockIter) :
    DataBlockIter.seekScan cmp target fuel it =
      DataBlockIter.seekScanWithin cmp target it.restarts fuel it := by
  induction fuel generalizing it with
  | zero => rfl
  | succ fuel ih =>
      unfold DataBlockIter.seekScan DataBlockIter.seekScanWithin
      rw [DataBlockIter.parseNextDataKey_eq_within]
      have hrestarts := (parseNextDataKeyWithin_fields it it.restarts).2.1
      rcases hp : it.parseNextDataKeyWithin it.restarts with ⟨it', ok⟩
      rw [hp] at hrestarts
      dsimp only at hrestarts ⊢
      split
      · rw [ih it', hrestarts]
      · rfl

/-- The linear search keeps the iterator initialized. -/
theorem seekScanWithin_initialized (limit fuel : Nat) (it : DataBlockIter) :
    (DataBlockIter.seekScanWithin cmp target limit fuel it).initialized = it.initialized := by
  induction fuel generalizing it with
  | zero => rfl
  | succ fuel ih =>
      unfold DataBlockIter.seekScanWithin
      have hinit := (parseNextDataKeyWithin_fields it limit).2.2.2
      rcases hp : it.parseNextDataKeyWithin limit with ⟨it', ok⟩
      rw [hp] at hinit
      dsimp only at hinit ⊢
      split
      · rw [ih it', hinit]
      · exact hinit

/-- A restart point reads as its entry's whole key. -/
theorem decodeEntry_restartPoint (hb : BlockOf R useDelta pairs data) {it : DataBlockIter}
    (h : OnBlock R useDelta pairs data it) {j : Nat} (hj : j < restartCount R pairs.length)
    (hjm : j * R < pairs.length) :
    ∃ p, DataBlockIter.decodeEntry it.data (it.getRestartPoint j) it.restarts =
        some (0, (keyAt pairs (j * R)).length.toUInt32, (valueAt pairs (j * R)).length.toUInt32, p) ∧
      (it.data.drop p).take (keyAt pairs (j * R)).length.toUInt32.toNat = keyAt pairs (j * R) := by
  have hshared := sharedAt_restart R useDelta pairs j
  have hkey := hb.take_drop_key hjm
  rw [hshared, Nat.sub_zero, List.drop_zero] at hkey
  have hkeylt : (keyAt pairs (j * R)).length < 2 ^ 32 := by
    have := length_keyAt_le R useDelta pairs (j * R)
    have := (hb.lengths_lt hjm).1
    omega
  have hend : entryOffset R useDelta pairs (j * R + 1) ≤ entryOffset R useDelta pairs pairs.length :=
    entryOffset_le R useDelta pairs hjm
  have hdecode := hb.decodeEntry_entryBytes hjm hend
    (Nat.le_trans (Nat.le_add_right _ _) hb.entryOffset_add_le)
  rw [hshared, Nat.sub_zero] at hdecode
  refine ⟨entryOffset R useDelta pairs (j * R) + (entryHeader R useDelta pairs (j * R)).length,
    ?_, ?_⟩
  · rw [(getRestartPoint_eq hb h hj).1, h.data_eq, h.restarts_eq, hdecode]
    rfl
  · rw [h.data_eq, toNat_toUInt32_of_lt hkeylt, hkey]

/-- **`BinarySeek` finds a restart point whose key is not above the target**, or the first one:
every key before it is then less than the target. -/
theorem binarySeekLoop_spec (hb : BlockOf R useDelta pairs data) {it : DataBlockIter}
    (h : OnBlock R useDelta pairs data it) :
    ∀ (fuel left right : Nat), left ≤ right → right < restartCount R pairs.length →
      (left = 0 ∨ (cmp (keyAt pairs (left * R)) target).isLE) →
      ∃ index, DataBlockIter.binarySeekLoop cmp target it fuel left right = (it, some index) ∧
        index < restartCount R pairs.length ∧
        (index = 0 ∨ (cmp (keyAt pairs (index * R)) target).isLE) := by
  intro fuel
  induction fuel with
  | zero =>
      intro left right hle hright hinv
      exact ⟨left, rfl, by omega, hinv⟩
  | succ fuel ih =>
      intro left right hle hright hinv
      unfold DataBlockIter.binarySeekLoop
      split
      · rename_i hlt
        -- the middle restart point is an entry: there are at least two restart points
        have hm : pairs.length ≠ 0 := by
          intro hm
          rw [hm] at hright
          simp [restartCount] at hright
          omega
        have hmid : (left + right + 1) / 2 < restartCount R pairs.length := by omega
        obtain ⟨p, hdecode, hkey⟩ := decodeEntry_restartPoint hb h hmid
          (mul_lt_of_lt_restartCount hm hmid)
        dsimp only
        rw [hdecode]
        dsimp only
        rw [if_neg (by decide), hkey]
        cases hcmp : cmp (keyAt pairs ((left + right + 1) / 2 * R)) target with
        | lt =>
            exact ih _ right (by omega) hright (Or.inr (by rw [hcmp]; rfl))
        | gt =>
            exact ih left _ (by omega) (by omega) hinv
        | eq =>
            exact ih _ _ le_rfl hmid (Or.inr (by rw [hcmp]; rfl))
      · exact ⟨left, rfl, by omega, hinv⟩

/-- **`Seek(target)` on a block of sorted keys** lands on the first entry whose key is not less
than the target, or past the entries when every key is less. -/
theorem seek_spec [Std.TransCmp cmp] (hb : BlockOf R useDelta pairs data) {it : DataBlockIter}
    (h : OnBlock R useDelta pairs data it) (hinit : it.initialized = true)
    (hsorted : pairs.Pairwise (fun a b => cmp a.1 b.1 = .lt)) :
    (∃ j, j < pairs.length ∧ AtEntry R useDelta pairs data (it.seek cmp target) j ∧
        cmp (keyAt pairs j) target ≠ .lt ∧ ∀ l, l < j → cmp (keyAt pairs l) target = .lt) ∨
      (Past R useDelta pairs data (it.seek cmp target) ∧
        ∀ l, l < pairs.length → cmp (keyAt pairs l) target = .lt) := by
  have hlast : it.numRestarts - 1 < restartCount R pairs.length := by
    rw [h.numRestarts_eq]
    exact Nat.sub_lt (Nat.succ_pos _) Nat.one_pos
  obtain ⟨index, hloop, hindex, hinv⟩ := binarySeekLoop_spec cmp target hb h it.numRestarts 0
    (it.numRestarts - 1) (Nat.zero_le _) hlast (Or.inl rfl)
  -- every key before the restart point the binary search picks is less than the target
  have hbefore : ∀ l, l < index * R → cmp (keyAt pairs l) target = .lt := by
    intro l hl
    rcases hinv with rfl | hle
    · rw [Nat.zero_mul] at hl
      exact absurd hl (Nat.not_lt_zero l)
    · have hm : pairs.length ≠ 0 := by
        intro hm
        have := mul_le_of_lt_restartCount (R := R) hindex
        omega
      exact Std.TransCmp.lt_of_lt_of_isLE
        (cmp_keyAt_of_pairwise pairs hsorted hl (mul_lt_of_lt_restartCount hm hindex)) hle
  have hfuel : pairs.length - index * R < it.data.length + 1 := by
    have := hb.length_le
    rw [h.data_eq]
    omega
  unfold DataBlockIter.seek DataBlockIter.binarySeek
  rw [if_pos hinit, hloop]
  dsimp only
  rw [seekScan_eq_within]
  have hrestarts : (it.seekToRestartPoint index).restarts =
      entryOffset R useDelta pairs pairs.length := h.restarts_eq
  rw [hrestarts]
  rcases seekScanWithin_spec cmp target hb le_rfl (it.data.length + 1) (index * R) _
      (seekToRestartPoint_readyAt hb h hindex) (mul_le_of_lt_restartCount hindex) hfuel with
    ⟨j, hij, hj, hat, hnot, hscan⟩ | ⟨hpast, hall⟩
  · refine Or.inl ⟨j, hj, hat, hnot, fun l hl => ?_⟩
    by_cases hl' : l < index * R
    · exact hbefore l hl'
    · exact hscan l (Nat.not_lt.mp hl') hl
  · refine Or.inr ⟨hpast, fun l hl => ?_⟩
    by_cases hl' : l < index * R
    · exact hbefore l hl'
    · exact hall l (Nat.not_lt.mp hl') hl

/-- `Seek(target)` stops at the first entry whose key is not less than the target. -/
theorem seek_atEntry_of_first [Std.TransCmp cmp] (hb : BlockOf R useDelta pairs data)
    {it : DataBlockIter} (h : OnBlock R useDelta pairs data it) (hinit : it.initialized = true)
    (hsorted : pairs.Pairwise (fun a b => cmp a.1 b.1 = .lt)) {j : Nat} (hj : j < pairs.length)
    (hnot : cmp (keyAt pairs j) target ≠ .lt)
    (hfirst : ∀ l, l < j → cmp (keyAt pairs l) target = .lt) :
    AtEntry R useDelta pairs data (it.seek cmp target) j := by
  rcases seek_spec cmp target hb h hinit hsorted with ⟨j', -, hat, hnot', hfirst'⟩ | ⟨-, hall⟩
  · -- both are the first entry not less than the target
    have hle : j' ≤ j := Nat.not_lt.mp fun hlt => hnot (hfirst' j hlt)
    have hge : j ≤ j' := Nat.not_lt.mp fun hlt => hnot' (hfirst j' hlt)
    rwa [Nat.le_antisymm hle hge] at hat
  · exact absurd (hall j hj) hnot

end Seek

end Reading

end RocksCloud.Table
