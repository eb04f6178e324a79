import Mathlib
import RocksCloud.Cache.LRUCache
import RocksCloud.Lib.Buckets

/-!
# The hash table of the LRU cache holds one handle per key

`LRUHandleTable` keeps a handle in the bucket of its hash, and never two handles with the same
key and hash; what it holds, `handles`, is the buckets flattened. Under that invariant
(`LRUHandleTable.WF`):

* `Lookup` gives the handle of the key among `handles`, if there is one (`WF.lookup_eq`);
* `Remove` gives that handle and takes it out (`WF.remove`);
* `Insert` puts its handle in the place of the one with the same key, which it gives back,
  and otherwise adds it; it then grows the table when there are more handles than buckets
  (`WF.insert`). `Resize` only moves the handles, and its `assert` always holds
  (`resize_spec`), so `Insert` never fails.

A handle's bucket is computed with the bucket count cut to 32 bits; since the count is always
a power of two, that is the hash modulo the count (`WF.bucket_eq`).
-/

set_option autoImplicit false

namespace RocksCloud.Cache

namespace LRUHandleTable

open RocksCloud.Lib

variable {α : Type} (heap : Nat → LRUHandle α)

/-- The handles of the table, bucket after bucket. -/
def handles (t : LRUHandleTable) : List Nat := t.list.flatten

/-- The key and hash of a handle: what `FindPointer` compares. -/
def keyOf (h : Nat) : α × UInt32 := ((heap h).key, (heap h).hash)

/-- The invariant of the table: a power-of-two bucket count, each handle in the bucket of its
hash, `elems_` the number of handles, and no two handles with the same key and hash. -/
structure WF (t : LRUHandleTable) : Prop where
  length_pow : ∃ k, t.list.length = 2 ^ k
  mem_bucket : ∀ i, ∀ h ∈ t.list.getD i [], (heap h).hash.toNat % t.list.length = i
  elems_eq : t.elems = t.handles.length
  keys_nodup : (t.handles.map (keyOf heap)).Nodup

variable {heap}

theorem WF.length_pos {t : LRUHandleTable} (hw : t.WF heap) : 0 < t.list.length := by
  obtain ⟨k, hk⟩ := hw.length_pow
  rw [hk]
  exact Nat.two_pow_pos k

/-- The table of a new shard: sixteen empty buckets. -/
theorem new_wf : LRUHandleTable.new.WF heap where
  length_pow := ⟨4, rfl⟩
  mem_bucket i h hh := by
    simp only [LRUHandleTable.new, List.getD_eq_getElem?_getD, List.getElem?_replicate] at hh
    split at hh <;> simp at hh
  elems_eq := rfl
  keys_nodup := by simp [handles, LRUHandleTable.new]

/-- The handles of a table are distinct. -/
theorem WF.handles_nodup {t : LRUHandleTable} (hw : t.WF heap) : t.handles.Nodup :=
  hw.keys_nodup.of_map _

/-- The bucket of a hash is the hash modulo the bucket count. -/
theorem WF.bucket_eq {t : LRUHandleTable} (hw : t.WF heap) (hash : UInt32) :
    t.bucket hash = hash.toNat % t.list.length := by
  obtain ⟨k, hk⟩ := hw.length_pow
  rw [LRUHandleTable.bucket, hk, toNat_and_toUInt32_sub_one]

theorem WF.bucket_lt {t : LRUHandleTable} (hw : t.WF heap) (hash : UInt32) :
    t.bucket hash < t.list.length := by
  rw [hw.bucket_eq]
  exact Nat.mod_lt _ hw.length_pos

/-- Two handles of a table with the same key are the same handle. -/
theorem WF.eq_of_keyOf_eq {t : LRUHandleTable} (hw : t.WF heap) {h h' : Nat}
    (hh : h ∈ t.handles) (hh' : h' ∈ t.handles) (hkey : keyOf heap h = keyOf heap h') :
    h = h' :=
  List.inj_on_of_nodup_map hw.keys_nodup hh hh' hkey

/-- A handle of a bucket is a handle of the table. -/
theorem mem_handles_of_mem_getD {t : LRUHandleTable} {i h : Nat} (hh : h ∈ t.list.getD i []) :
    h ∈ t.handles := by
  rw [List.getD_eq_getElem?_getD] at hh
  cases hi : t.list[i]? with
  | none => simp [hi] at hh
  | some c =>
      rw [hi, Option.getD_some] at hh
      exact List.mem_flatten.mpr ⟨c, List.mem_of_getElem? hi, hh⟩

/-- The invariant holds of any heap that keeps the keys and hashes of the table's handles. -/
theorem WF.congr {t : LRUHandleTable} (hw : t.WF heap) {heap' : Nat → LRUHandle α}
    (hsame : ∀ h ∈ t.handles, (heap' h).key = (heap h).key ∧ (heap' h).hash = (heap h).hash) :
    t.WF heap' where
  length_pow := hw.length_pow
  mem_bucket i h hh := by
    rw [(hsame h (mem_handles_of_mem_getD hh)).2]
    exact hw.mem_bucket i h hh
  elems_eq := hw.elems_eq
  keys_nodup := by
    have hmap : t.handles.map (keyOf heap') = t.handles.map (keyOf heap) :=
      List.map_congr_left fun h hh => by simp [keyOf, hsame h hh]
    rw [hmap]
    exact hw.keys_nodup

/-- A table with a bucket replaced keeps the invariant when the new chain belongs in that
bucket and the handles keep distinct keys. -/
theorem WF.set {t : LRUHandleTable} (hw : t.WF heap) {b : Nat} (c : List Nat)
    (hc : ∀ h ∈ c, (heap h).hash.toNat % t.list.length = b) (n : Nat)
    (hn : n = (t.list.set b c).flatten.length)
    (hnodup : ((t.list.set b c).flatten.map (keyOf heap)).Nodup) :
    WF heap ⟨t.list.set b c, n⟩ where
  length_pow := by simpa using hw.length_pow
  mem_bucket i h hh := by
    rw [List.length_set]
    by_cases hbi : b = i
    · subst hbi
      by_cases hb : b < t.list.length
      · simp only [List.getD_eq_getElem?_getD, List.getElem?_set_self hb, Option.getD_some] at hh
        exact hc h hh
      · rw [List.set_eq_take_append_cons_drop, if_neg hb] at hh
        exact hw.mem_bucket b h hh
    · rw [getD_set_of_ne _ hbi] at hh
      exact hw.mem_bucket i h hh
  elems_eq := hn
  keys_nodup := hnodup

/-- Perm facts about the table's handles carry the keys along. -/
theorem nodup_keys_of_perm {l l' : List Nat} (hp : l.Perm l')
    (hl' : (l'.map (keyOf heap)).Nodup) : (l.map (keyOf heap)).Nodup :=
  (hp.map _).nodup_iff.mpr hl'

variable (heap)

/-- The loop of `Resize`: each handle of `hs` pushed on the front of its bucket among `n`. -/
def rehash (n : Nat) (hs : List Nat) (l : List (List Nat)) : List (List Nat) :=
  hs.foldl
    (fun (l : List (List Nat)) h => l.modify ((heap h).hash &&& (n.toUInt32 - 1)).toNat (h :: ·)) l

/-- `Resize` rehashes the handles into `growLength` buckets, after its `assert`. -/
theorem resize_eq (t : LRUHandleTable) :
    t.resize heap =
      if t.elems ≠ t.handles.length then throw "assertion failed"
      else pure ⟨rehash heap (growLength t.elems t.elems 16) t.handles
        (List.replicate (growLength t.elems t.elems 16) []), t.elems⟩ := rfl

/-- The bucket count that `Resize` picks is a power of two, as `16` is. -/
theorem growLength_pow (elems : Nat) :
    ∀ (fuel n k : Nat), n = 2 ^ k → ∃ k', growLength elems fuel n = 2 ^ k'
  | 0, _, k, hn => ⟨k, hn⟩
  | fuel + 1, n, k, hn => by
      rw [growLength]
      split
      · exact growLength_pow elems fuel (2 * n) (k + 1) (by rw [hn, pow_succ, Nat.mul_comm])
      · exact ⟨k, hn⟩

variable {heap}

/-- Rehashing keeps the bucket count and puts each handle in the bucket of its hash; the
handles are those of the buckets before and of `hs`. -/
theorem rehash_spec {n k : Nat} (hn : n = 2 ^ k) :
    ∀ (hs : List Nat) (l : List (List Nat)), l.length = n →
      (∀ i, ∀ h ∈ l.getD i [], (heap h).hash.toNat % n = i) →
      (rehash heap n hs l).length = n ∧
        (∀ i, ∀ h ∈ (rehash heap n hs l).getD i [], (heap h).hash.toNat % n = i) ∧
        (rehash heap n hs l).flatten.Perm (l.flatten ++ hs)
  | [], l, hlen, hmem => ⟨hlen, hmem, by simp [rehash]⟩
  | h :: hs, l, hlen, hmem => by
      -- the bucket of `h` is its hash modulo `n`, below `n`
      have hbucket : ((heap h).hash &&& (n.toUInt32 - 1)).toNat = (heap h).hash.toNat % n := by
        rw [hn, toNat_and_toUInt32_sub_one]
      have hb : (heap h).hash.toNat % n < l.length := by
        rw [hlen, hn]
        exact Nat.mod_lt _ (Nat.two_pow_pos k)
      have hlen' : (l.modify ((heap h).hash.toNat % n) (h :: ·)).length = n := by
        rw [List.length_modify, hlen]
      have hmem' : ∀ i, ∀ x ∈ (l.modify ((heap h).hash.toNat % n) (h :: ·)).getD i [],
          (heap x).hash.toNat % n = i := by
        intro i x hx
        rcases mem_getD_modify_cons hx with ⟨rfl, hi⟩ | hx
        · exact hi
        · exact hmem i x hx
      obtain ⟨hlen'', hmem'', hperm⟩ := rehash_spec hn hs _ hlen' hmem'
      have hstep : rehash heap n (h :: hs) l =
          rehash heap n hs (l.modify ((heap h).hash.toNat % n) (h :: ·)) := by
        rw [rehash, List.foldl_cons, hbucket]
        rfl
      refine ⟨hstep ▸ hlen'', hstep ▸ hmem'', ?_⟩
      rw [hstep]
      refine hperm.trans ?_
      have hpush := flatten_modify_cons_perm l hb h
      simpa using hpush.append_right hs

/-- `Resize` keeps the handles and their keys, and leaves a table with the invariant: its
`assert` holds whenever `elems_` counts the handles. -/
theorem resize_spec {t : LRUHandleTable} (hn : t.elems = t.handles.length)
    (hkeys : (t.handles.map (keyOf heap)).Nodup) :
    ∃ t', t.resize heap = .ok t' ∧ t'.WF heap ∧ t'.handles.Perm t.handles := by
  obtain ⟨k, hk⟩ := growLength_pow t.elems t.elems 16 4 rfl
  have hempty : ∀ i, ∀ h ∈ (List.replicate (growLength t.elems t.elems 16) []).getD i [],
      (heap h).hash.toNat % growLength t.elems t.elems 16 = i := by
    intro i h hh
    simp only [List.getD_eq_getElem?_getD, List.getElem?_replicate] at hh
    split at hh <;> simp at hh
  obtain ⟨hlen, hmem, hperm⟩ := rehash_spec hk t.handles _ List.length_replicate hempty
  simp only [List.flatten_replicate_nil, List.nil_append] at hperm
  refine ⟨⟨rehash heap (growLength t.elems t.elems 16) t.handles
    (List.replicate (growLength t.elems t.elems 16) []), t.elems⟩,
    by rw [resize_eq, if_neg (not_not.mpr hn)]; rfl, ?_, hperm⟩
  exact {
    length_pow := ⟨k, hlen.trans hk⟩
    mem_bucket := fun i h hh => by rw [hlen]; exact hmem i h hh
    elems_eq := hn.trans hperm.length_eq.symm
    keys_nodup := nodup_keys_of_perm hperm hkeys }

section Find

variable [DecidableEq α] (heap)

/-- Whether `FindPointer` stops at the handle `h` when it looks for `key` and `hash`. -/
def keyMatches (key : α) (hash : UInt32) (h : Nat) : Bool :=
  decide (keyOf heap h = (key, hash))

/-- The loop of `FindPointer` stops at the first handle of the chain with the key. -/
theorem findInChain_eq_findIdx (key : α) (hash : UInt32) (chain : List Nat) :
    findInChain heap key hash chain = chain.findIdx (keyMatches heap key hash) := by
  induction chain with
  | nil => rfl
  | cons h rest ih =>
      rw [findInChain, List.findIdx_cons, ih]
      by_cases hm : keyOf heap h = (key, hash)
      · have hstop : ¬((heap h).hash ≠ hash ∨ key ≠ (heap h).key) := by
          simp only [keyOf, Prod.mk.injEq] at hm
          simp [hm.1, hm.2]
        simp [hstop, keyMatches, hm]
      · have hgo : (heap h).hash ≠ hash ∨ key ≠ (heap h).key := by
          simp only [keyOf, Prod.mk.injEq, not_and_or] at hm
          exact hm.symm.imp id fun h => Ne.symm h
        simp [hgo, keyMatches, hm]

/-- The slot `FindPointer` ends at holds the first handle of the chain with the key. -/
theorem getElem?_findInChain (key : α) (hash : UInt32) (chain : List Nat) :
    chain[findInChain heap key hash chain]? = chain.find? (keyMatches heap key hash) := by
  rw [findInChain_eq_findIdx, List.find?_eq_getElem?_findIdx]

variable {heap}

/-- The handles with a key are all in the bucket of its hash. -/
theorem WF.find?_eq_bucket {t : LRUHandleTable} (hw : t.WF heap) (key : α) (hash : UInt32) :
    t.handles.find? (keyMatches heap key hash) =
      (t.list.getD (t.bucket hash) []).find? (keyMatches heap key hash) := by
  apply find?_flatten_of_bucket
  intro i h hh hm
  have hkey : keyOf heap h = (key, hash) := of_decide_eq_true hm
  simp only [keyOf, Prod.mk.injEq] at hkey
  rw [← hw.mem_bucket i h hh, hw.bucket_eq, hkey.2]

/-- `Lookup` finds the handle with the key among the table's handles. -/
theorem WF.lookup_eq {t : LRUHandleTable} (hw : t.WF heap) (key : α) (hash : UInt32) :
    t.lookup heap key hash = t.handles.find? (keyMatches heap key hash) := by
  rw [hw.find?_eq_bucket, LRUHandleTable.lookup, getElem?_findInChain]

/-- The table finds each of its handles by its own key. -/
theorem WF.find?_keyOf {t : LRUHandleTable} (hw : t.WF heap) {h : Nat} (hh : h ∈ t.handles) :
    t.handles.find? (keyMatches heap (heap h).key (heap h).hash) = some h := by
  obtain ⟨h', hfind⟩ : ∃ h', t.handles.find? (keyMatches heap (heap h).key (heap h).hash) =
      some h' := Option.isSome_iff_exists.mp (List.find?_isSome.mpr ⟨h, hh, by simp [keyMatches,
        keyOf]⟩)
  have hmem := List.mem_of_find?_eq_some hfind
  have hkey : keyOf heap h' = keyOf heap h := by
    simpa [keyMatches, keyOf] using List.find?_some hfind
  rw [hfind, hw.eq_of_keyOf_eq hmem hh hkey]

/-- `Remove` gives the handle with the key, and takes it out of the table. -/
theorem WF.remove {t : LRUHandleTable} (hw : t.WF heap) (key : α) (hash : UInt32) :
    (t.remove heap key hash).2 = t.handles.find? (keyMatches heap key hash) ∧
      (t.remove heap key hash).1.WF heap ∧
      ((t.remove heap key hash).1.handles ++ (t.remove heap key hash).2.toList).Perm
        t.handles := by
  have hb := hw.bucket_lt hash
  rw [hw.find?_eq_bucket]
  unfold LRUHandleTable.remove
  dsimp only
  rw [getElem?_findInChain]
  cases hfind : (t.list.getD (t.bucket hash) []).find? (keyMatches heap key hash) with
  | none => exact ⟨rfl, hw, by simp⟩
  | some r =>
      -- the chain, with `r` at the position `FindPointer` stops at
      set chain := t.list.getD (t.bucket hash) [] with hchain
      set pos := findInChain heap key hash chain
      have hpos : chain[pos]? = some r := by rw [getElem?_findInChain, hfind]
      obtain ⟨hlt, hr⟩ := List.getElem?_eq_some_iff.mp hpos
      have hchain' : chain = t.list[t.bucket hash] := by
        simp [hchain, List.getD_eq_getElem?_getD, List.getElem?_eq_getElem hb]
      -- the handles after the removal, with `r`, are those before
      have hperm : ((t.list.set (t.bucket hash) (chain.eraseIdx pos)).flatten ++ [r]).Perm
          t.handles := by
        have hset := flatten_set_perm t.list hb (chain.eraseIdx pos)
        rw [← hchain'] at hset
        have hcons : (r :: chain.eraseIdx pos).Perm chain := hr ▸ List.getElem_cons_eraseIdx_perm hlt
        have h2 : ((t.list.set (t.bucket hash) (chain.eraseIdx pos)).flatten ++ [r] ++
            chain.eraseIdx pos).Perm (t.handles ++ chain.eraseIdx pos) := by
          refine List.Perm.trans ?_ hset
          rw [List.append_assoc, List.singleton_append]
          exact hcons.append_left _
        exact (List.perm_append_right_iff _).mp h2
      refine ⟨rfl, ?_, hperm⟩
      refine hw.set (chain.eraseIdx pos) (fun h hh => ?_) _ ?_ ?_
      · exact hw.mem_bucket _ h (List.mem_of_mem_eraseIdx hh)
      · have hlen := hperm.length_eq
        simp only [List.length_append, List.length_singleton] at hlen
        rw [hw.elems_eq]
        omega
      · have hkeys := nodup_keys_of_perm hperm hw.keys_nodup
        rw [List.map_append] at hkeys
        exact hkeys.of_append_left

/-- `Insert` gives the handle with the key of `h`, if any, and puts `h` in its place; a new
handle is added, and the table then grows if it has more handles than buckets. -/
theorem WF.insert {t : LRUHandleTable} (hw : t.WF heap) (h : Nat) :
    ∃ t', t.insert heap h = .ok (t', t.handles.find? (keyMatches heap (heap h).key (heap h).hash)) ∧
      t'.WF heap ∧
      (t'.handles ++ (t.handles.find? (keyMatches heap (heap h).key (heap h).hash)).toList).Perm
        (t.handles ++ [h]) := by
  have hb := hw.bucket_lt (heap h).hash
  have hbh : (heap h).hash.toNat % t.list.length = t.bucket (heap h).hash := (hw.bucket_eq _).symm
  have hnone := hw.find?_eq_bucket (heap h).key (heap h).hash
  rw [hnone]
  unfold LRUHandleTable.insert
  dsimp only
  rw [getElem?_findInChain]
  set chain := t.list.getD (t.bucket (heap h).hash) [] with hchain
  have hchain' : chain = t.list[t.bucket (heap h).hash] := by
    simp [hchain, List.getD_eq_getElem?_getD, List.getElem?_eq_getElem hb]
  have hset := flatten_set_perm t.list hb
  rw [← hchain'] at hset
  cases hfind : chain.find? (keyMatches heap (heap h).key (heap h).hash) with
  | some old =>
      -- `h` takes the place of `old` in the chain
      set pos := findInChain heap (heap h).key (heap h).hash chain
      have hpos : chain[pos]? = some old := by rw [getElem?_findInChain, hfind]
      obtain ⟨hlt, hold⟩ := List.getElem?_eq_some_iff.mp hpos
      have hperm : ((t.list.set (t.bucket (heap h).hash) (chain.set pos h)).flatten ++ [old]).Perm
          (t.handles ++ [h]) := by
        have hout : (old :: chain.eraseIdx pos).Perm chain :=
          hold ▸ List.getElem_cons_eraseIdx_perm hlt
        have hin : (chain.set pos h).Perm (h :: chain.eraseIdx pos) :=
          List.set_perm_cons_eraseIdx hlt h
        have hall : ((t.list.set (t.bucket (heap h).hash) (chain.set pos h)).flatten ++ [old] ++
            chain.eraseIdx pos).Perm (t.handles ++ [h] ++ chain.eraseIdx pos) := by
          rw [List.append_assoc, List.singleton_append, List.append_assoc, List.singleton_append]
          exact ((hout.append_left _).trans (hset _)).trans (hin.append_left _)
        exact (List.perm_append_right_iff _).mp hall
      refine ⟨_, rfl, ?_, hperm⟩
      have hkey : keyOf heap old = keyOf heap h := by
        simpa [keyMatches, keyOf] using List.find?_some hfind
      refine hw.set (chain.set pos h) (fun x hx => ?_) _ ?_ ?_
      · rcases List.mem_or_eq_of_mem_set hx with hx | rfl
        · exact hw.mem_bucket _ x hx
        · exact hbh
      · have hlen := hperm.length_eq
        simp only [List.length_append, List.length_singleton] at hlen
        rw [hw.elems_eq]
        exact (Nat.add_right_cancel hlen).symm
      · -- the keys are those before, with the key of `old` given to `h`
        have hkeys := hperm.map (keyOf heap)
        rw [List.map_append, List.map_append, List.map_singleton, List.map_singleton, hkey,
          List.perm_append_right_iff] at hkeys
        exact hkeys.nodup_iff.mpr hw.keys_nodup
  | none =>
      -- `h` goes at the end of its chain
      have hperm : ((t.list.set (t.bucket (heap h).hash) (chain ++ [h])).flatten).Perm
          (t.handles ++ [h]) := by
        have hall : ((t.list.set (t.bucket (heap h).hash) (chain ++ [h])).flatten ++ chain).Perm
            (t.handles ++ [h] ++ chain) :=
          (hset _).trans (by rw [handles, List.append_assoc]; exact List.perm_append_comm.append_left _)
        exact (List.perm_append_right_iff _).mp hall
      have hfresh : keyOf heap h ∉ t.handles.map (keyOf heap) := by
        intro hmem
        obtain ⟨x, hx, hkx⟩ := List.mem_map.mp hmem
        have hno := List.find?_eq_none.mp (hnone.trans hfind) x hx
        simp only [keyOf, Prod.mk.injEq] at hkx
        simp [keyMatches, keyOf] at hno
        exact hno hkx.1 hkx.2
      have hkeys : ((t.list.set (t.bucket (heap h).hash) (chain ++ [h])).flatten.map
          (keyOf heap)).Nodup := by
        refine nodup_keys_of_perm hperm ?_
        rw [List.map_append, List.map_singleton, List.nodup_append]
        exact ⟨hw.keys_nodup, List.nodup_singleton _,
          fun a ha b hb' => by rw [List.mem_singleton.mp hb']; exact fun hab => hfresh (hab ▸ ha)⟩
      have hw₁ : WF heap ⟨t.list.set (t.bucket (heap h).hash) (chain ++ [h]), t.elems + 1⟩ := by
        refine hw.set (chain ++ [h]) (fun x hx => ?_) _ ?_ hkeys
        · rcases List.mem_append.mp hx with hx | hx
          · exact hw.mem_bucket _ x hx
          · rw [List.mem_singleton.mp hx]
            exact hbh
        · rw [hperm.length_eq, List.length_append, hw.elems_eq]
          rfl
      simp only [Option.toList_none, List.append_nil]
      split
      · -- more handles than buckets: `Resize`
        obtain ⟨t', hres, hw', hperm'⟩ := resize_spec hw₁.elems_eq hw₁.keys_nodup
        exact ⟨t', by rw [hres]; rfl, hw', hperm'.trans hperm⟩
      · exact ⟨_, rfl, hw₁, hperm⟩

end Find

end LRUHandleTable

end RocksCloud.Cache
