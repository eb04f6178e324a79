import Mathlib
import RocksCloud.Lib.Binary64

/-!
# The LRU cache shard of `cache/lru_cache.cc`

An `LRUCacheShard` keeps its entries (`LRUHandle`s) in a chained hash table
(`LRUHandleTable`) and, those that no client references, in a circular LRU list from the oldest
(`lru_.next`) to the newest (`lru_.prev`). The list is cut in two by `lru_low_pri_`: the
low-priority pool up to and including it, the high-priority pool after it. `usage_` counts the
charges of the entries in the cache or still referenced, `lru_usage_` those on the list and
`high_pri_pool_usage_` those in the high-priority pool, which `MaintainPoolSize` keeps within
`high_pri_pool_capacity_ = capacity_ * high_pri_pool_ratio_`.

Entries are addressed by handle numbers into a heap; a handle's value and deleter are not
modelled, and `Free` is recorded in a log of freed handles. `lru_low_pri_` is kept as the
number of list entries up to and including it (`0` for the dummy head `lru_`). The `double`s
`high_pri_pool_ratio_` and `high_pri_pool_capacity_` are rationals: every finite `double` is
one. `capacity_ * high_pri_pool_ratio_` is rounded as the code rounds it
(`highPriPoolCapacityFor`): `capacity_` to the nearest `double`, then the product. The code also
converts `high_pri_pool_usage_` to a `double` to compare it with the pool capacity; the model
compares the exact value, which is the same below `2^53`. The sizes are `Nat`s: `size_t` sums
are taken not to wrap, and a hash table is taken to have fewer than `2^31` entries, so that
doubling its length never overflows. A failed `assert` is an error.
-/

set_option autoImplicit false

namespace RocksCloud.Cache

/-- `Cache::Priority`. -/
inductive Priority where
  | high
  | low
  deriving Repr, DecidableEq

/-- `LRUHandle`, without its value and deleter: the key and its hash, the charge, the number
of external references, and the flags `IN_CACHE`, `IS_HIGH_PRI`, `IN_HIGH_PRI_POOL` and
`HAS_HIT`. -/
structure LRUHandle (α : Type) where
  key : α
  hash : UInt32
  charge : Nat
  refs : Nat
  inCache : Bool
  isHighPri : Bool
  inHighPriPool : Bool
  hasHit : Bool
  deriving Repr, DecidableEq

/-! ## The hash table -/

/-- `LRUHandleTable`: the buckets, each the chain of handles that `next_hash` links, and the
number of entries. `length_` is the number of buckets. -/
structure LRUHandleTable where
  list : List (List Nat)
  elems : Nat
  deriving Repr, DecidableEq

section Table

variable {α : Type} [DecidableEq α] (heap : Nat → LRUHandle α)

/-- `hash & (length_ - 1)`: the bucket of a hash. -/
def LRUHandleTable.bucket (t : LRUHandleTable) (hash : UInt32) : Nat :=
  (hash &&& (t.list.length.toUInt32 - 1)).toNat

/-- The loop of `FindPointer` over a chain: the position of the entry with `key` and `hash`,
or the length of the chain when there is none (the trailing null slot). -/
def findInChain (key : α) (hash : UInt32) : List Nat → Nat
  | [] => 0
  | h :: rest =>
      if (heap h).hash ≠ hash ∨ key ≠ (heap h).key then findInChain key hash rest + 1 else 0

/-- `LRUHandleTable::Lookup`. -/
def LRUHandleTable.lookup (t : LRUHandleTable) (key : α) (hash : UInt32) : Option Nat :=
  let chain := t.list.getD (t.bucket hash) []
  chain[findInChain heap key hash chain]?

/-- The loop of `Resize` that doubles `new_length`, from `16`, while it is below
`elems_ * 1.5`; `elems` turns are enough. -/
def growLength (elems : Nat) : Nat → Nat → Nat
  | 0, newLength => newLength
  | fuel + 1, newLength =>
      if 2 * newLength < 3 * elems then growLength elems fuel (2 * newLength) else newLength

/-- `LRUHandleTable::Resize`: the chains are walked bucket by bucket, and each handle is pushed
on the front of its bucket in the new table. -/
def LRUHandleTable.resize (t : LRUHandleTable) : Except String LRUHandleTable := do
  let newLength := growLength t.elems t.elems 16
  let newList := t.list.flatten.foldl
    (fun (l : List (List Nat)) h =>
      l.modify ((heap h).hash &&& (newLength.toUInt32 - 1)).toNat (h :: ·))
    (List.replicate newLength [])
  if t.elems ≠ t.list.flatten.length then throw "assertion failed"
  pure ⟨newList, t.elems⟩

/-- `LRUHandleTable()`: no bucket, then `Resize()`. -/
def LRUHandleTable.new : LRUHandleTable := ⟨List.replicate 16 [], 0⟩

/-- `LRUHandleTable::Insert(h)`: the handle takes the place of the entry with its key, which is
returned, or goes at the end of its chain; a new entry may make the table grow. -/
def LRUHandleTable.insert (t : LRUHandleTable) (h : Nat) :
    Except String (LRUHandleTable × Option Nat) := do
  let b := t.bucket (heap h).hash
  let chain := t.list.getD b []
  let pos := findInChain heap (heap h).key (heap h).hash chain
  match chain[pos]? with
  | some old => pure (⟨t.list.set b (chain.set pos h), t.elems⟩, some old)
  | none =>
      let t : LRUHandleTable := ⟨t.list.set b (chain ++ [h]), t.elems + 1⟩
      -- aim for chains of at most one entry on average
      if t.elems > t.list.length then
        let t ← t.resize heap
        pure (t, none)
      else pure (t, none)

/-- `LRUHandleTable::Remove`: the entry with `key` and `hash`, unlinked from its chain. -/
def LRUHandleTable.remove (t : LRUHandleTable) (key : α) (hash : UInt32) :
    LRUHandleTable × Option Nat :=
  let b := t.bucket hash
  let chain := t.list.getD b []
  let pos := findInChain heap key hash chain
  match chain[pos]? with
  | some result => (⟨t.list.set b (chain.eraseIdx pos), t.elems - 1⟩, some result)
  | none => (t, none)

end Table

/-! ## The shard -/

/-- `LRUCacheShard`: its settings and counters, the LRU list from the oldest entry to the
newest, `lru_low_pri_` as the number of list entries up to and including it, the hash table,
the heap of handles with the next handle to allocate, and the handles freed so far. -/
structure LRUCacheShard (α : Type) where
  capacity : Nat
  highPriPoolUsage : Nat
  strictCapacityLimit : Bool
  highPriPoolRatio : ℚ
  highPriPoolCapacity : ℚ
  usage : Nat
  lruUsage : Nat
  lru : List Nat
  lruLowPri : Nat
  table : LRUHandleTable
  heap : Nat → LRUHandle α
  nextHandle : Nat
  freed : List Nat

namespace LRUCacheShard

variable {α : Type} [DecidableEq α]

/-- The handle `e` changed by `f`. -/
def modifyHandle (s : LRUCacheShard α) (e : Nat) (f : LRUHandle α → LRUHandle α) :
    LRUCacheShard α :=
  { s with heap := Function.update s.heap e (f (s.heap e)) }

/-- `LRUHandle::Free`: the handle must have no reference left. -/
def free (s : LRUCacheShard α) (e : Nat) : Except String (LRUCacheShard α) :=
  if (s.heap e).refs ≠ 0 then throw "assertion failed"
  else pure { s with freed := s.freed ++ [e] }

/-- Free the handles of `last_reference_list`, in order. -/
def freeAll (s : LRUCacheShard α) : List Nat → Except String (LRUCacheShard α)
  | [] => pure s
  | e :: es => do
      let s ← s.free e
      s.freeAll es

/-- `LRU_Remove(e)`: `e` leaves the list; when it was `lru_low_pri_`, the entry before it
takes its place. -/
def lruRemove (s : LRUCacheShard α) (e : Nat) : Except String (LRUCacheShard α) := do
  let i := s.lru.idxOf e
  -- `e` must be on the list
  if s.lru.length ≤ i then throw "assertion failed"
  -- an entry up to `lru_low_pri_` leaves: the low-priority pool is one shorter
  let lruLowPri := if i < s.lruLowPri then s.lruLowPri - 1 else s.lruLowPri
  let s := { s with lru := s.lru.eraseIdx i, lruLowPri, lruUsage := s.lruUsage - (s.heap e).charge }
  if (s.heap e).inHighPriPool then
    if s.highPriPoolUsage < (s.heap e).charge then throw "assertion failed"
    pure { s with highPriPoolUsage := s.highPriPoolUsage - (s.heap e).charge }
  else pure s

/-- The `while` loop of `MaintainPoolSize`: the oldest entry of the high-priority pool moves to
the low-priority pool until the high-priority pool fits. `fuel` turns. -/
def maintainPoolSizeLoop : Nat → LRUCacheShard α → Except String (LRUCacheShard α)
  | 0, s => pure s
  | fuel + 1, s =>
      if (s.highPriPoolUsage : ℚ) > s.highPriPoolCapacity then
        match s.lru[s.lruLowPri]? with
        -- `lru_low_pri_` must not reach the dummy head
        | none => throw "assertion failed"
        | some e =>
            let s := { s.modifyHandle e fun h => { h with inHighPriPool := false } with
              lruLowPri := s.lruLowPri + 1
              highPriPoolUsage := s.highPriPoolUsage - (s.heap e).charge }
            maintainPoolSizeLoop fuel s
      else pure s

/-- `MaintainPoolSize()`: one turn per list entry, and one to fail the `assert`. -/
def maintainPoolSize (s : LRUCacheShard α) : Except String (LRUCacheShard α) :=
  maintainPoolSizeLoop (s.lru.length + 1) s

/-- `LRU_Insert(e)`: a high-priority entry, or one with a hit, goes to the head of the list and
the high-priority pool while there is such a pool; any other goes to the head of the
low-priority pool. -/
def lruInsert (s : LRUCacheShard α) (e : Nat) : Except String (LRUCacheShard α) := do
  if s.highPriPoolRatio > 0 ∧ ((s.heap e).isHighPri ∨ (s.heap e).hasHit) then
    let s := { s.modifyHandle e fun h => { h with inHighPriPool := true } with
      lru := s.lru ++ [e]
      highPriPoolUsage := s.highPriPoolUsage + (s.heap e).charge }
    let s ← s.maintainPoolSize
    pure { s with lruUsage := s.lruUsage + (s.heap e).charge }
  else
    let s := { s.modifyHandle e fun h => { h with inHighPriPool := false } with
      lru := s.lru.insertIdx s.lruLowPri e
      lruLowPri := s.lruLowPri + 1 }
    pure { s with lruUsage := s.lruUsage + (s.heap e).charge }

/-- The `while` loop of `EvictFromLRU`: the oldest entries leave the list and the table until
`charge` more fits or the list is empty; `fuel` turns. -/
def evictFromLRULoop (charge : Nat) :
    Nat → LRUCacheShard α → List Nat → Except String (LRUCacheShard α × List Nat)
  | 0, s, deleted => pure (s, deleted)
  | fuel + 1, s, deleted =>
      match s.lru with
      | old :: _ =>
          if s.usage + charge > s.capacity then do
            -- the list holds only entries that can be evicted
            if !(s.heap old).inCache ∨ (s.heap old).refs ≠ 0 then throw "assertion failed"
            let s ← s.lruRemove old
            let (table, _) := s.table.remove s.heap (s.heap old).key (s.heap old).hash
            let s := { s.modifyHandle old fun h => { h with inCache := false } with
              table
              usage := s.usage - (s.heap old).charge }
            evictFromLRULoop charge fuel s (deleted ++ [old])
          else pure (s, deleted)
      | [] => pure (s, deleted)

/-- `EvictFromLRU(charge, deleted)`: one turn per list entry. -/
def evictFromLRU (s : LRUCacheShard α) (charge : Nat) (deleted : List Nat) :
    Except String (LRUCacheShard α × List Nat) :=
  evictFromLRULoop charge s.lru.length s deleted

/-- `capacity_ * high_pri_pool_ratio_`: the `size_t` converted to a `double`, and the product
rounded to a `double`. -/
def highPriPoolCapacityFor (capacity : Nat) (highPriPoolRatio : ℚ) : ℚ :=
  Lib.roundBinary64 (Lib.roundBinary64 capacity * highPriPoolRatio)

/-- `SetCapacity(capacity)`. -/
def setCapacity (s : LRUCacheShard α) (capacity : Nat) : Except String (LRUCacheShard α) := do
  let s := { s with
    capacity
    highPriPoolCapacity := highPriPoolCapacityFor capacity s.highPriPoolRatio }
  let (s, lastReferenceList) ← s.evictFromLRU 0 []
  s.freeAll lastReferenceList

/-- `LRUCacheShard(capacity, strict_capacity_limit, high_pri_pool_ratio, use_adaptive_mutex)`:
an empty shard, then `SetCapacity(capacity)`. -/
def new (capacity : Nat) (strictCapacityLimit : Bool) (highPriPoolRatio : ℚ)
    (heap : Nat → LRUHandle α) : Except String (LRUCacheShard α) :=
  setCapacity
    { capacity := 0
      highPriPoolUsage := 0
      strictCapacityLimit
      highPriPoolRatio
      highPriPoolCapacity := 0
      usage := 0
      lruUsage := 0
      lru := []
      lruLowPri := 0
      table := LRUHandleTable.new
      heap
      nextHandle := 0
      freed := [] } capacity

/-- `SetStrictCapacityLimit(strict_capacity_limit)`. -/
def setStrictCapacityLimit (s : LRUCacheShard α) (strictCapacityLimit : Bool) :
    LRUCacheShard α :=
  { s with strictCapacityLimit }

/-- `SetHighPriorityPoolRatio(high_pri_pool_ratio)`. -/
def setHighPriorityPoolRatio (s : LRUCacheShard α) (highPriPoolRatio : ℚ) :
    Except String (LRUCacheShard α) :=
  maintainPoolSize { s with
    highPriPoolRatio
    highPriPoolCapacity := highPriPoolCapacityFor s.capacity highPriPoolRatio }

/-- `Lookup(key, hash)`: the entry found gains a reference and a hit, and leaves the list if it
had no reference. -/
def lookup (s : LRUCacheShard α) (key : α) (hash : UInt32) :
    Except String (LRUCacheShard α × Option Nat) :=
  match s.table.lookup s.heap key hash with
  | none => pure (s, none)
  | some e => do
      if !(s.heap e).inCache then throw "assertion failed"
      -- an entry in the table with no reference is on the list
      let s ← if (s.heap e).refs = 0 then s.lruRemove e else pure s
      pure (s.modifyHandle e (fun h => { h with refs := h.refs + 1, hasHit := true }), some e)

/-- `Ref(handle)`: only an entry with a reference can get another. -/
def ref (s : LRUCacheShard α) (e : Nat) : Except String (LRUCacheShard α) :=
  if (s.heap e).refs = 0 then throw "assertion failed"
  else pure (s.modifyHandle e fun h => { h with refs := h.refs + 1 })

/-- `Release(handle, force_erase)`: the last reference to an entry still in the cache puts it
back on the list, unless the cache is over its capacity or the caller asks for it to go;
an entry that goes, or was no longer in the cache, is freed. -/
def release (s : LRUCacheShard α) (e : Nat) (forceErase : Bool) :
    Except String (LRUCacheShard α × Bool) := do
  if (s.heap e).refs = 0 then throw "assertion failed"
  let s := s.modifyHandle e fun h => { h with refs := h.refs - 1 }
  let lastReference := (s.heap e).refs = 0
  let (s, lastReference) ←
    if lastReference ∧ (s.heap e).inCache then
      if s.usage > s.capacity ∨ forceErase then do
        -- the list must be empty since the cache is full
        if !(s.lru = [] ∨ forceErase) then throw "assertion failed"
        let (table, _) := s.table.remove s.heap (s.heap e).key (s.heap e).hash
        pure ({ s.modifyHandle e fun h => { h with inCache := false } with table }, true)
      else do
        let s ← s.lruInsert e
        pure (s, false)
    else pure (s, lastReference)
  let s := if lastReference then { s with usage := s.usage - (s.heap e).charge } else s
  if lastReference then
    let s ← s.free e
    pure (s, lastReference)
  else pure (s, lastReference)

/-- The `Status` of `Insert`. -/
inductive InsertStatus where
  | ok
  | incomplete (msg : String)
  deriving Repr, DecidableEq

/-- `Insert(key, hash, value, charge, deleter, handle, priority)`, with `wantHandle` for a
non-null `handle`: the new entry evicts what it must; when it still does not fit and the limit
is strict or no handle is asked for, it is dropped at once or refused. Otherwise it replaces the
entry with its key and goes on the list, or to the caller with a reference. -/
def insert (s : LRUCacheShard α) (key : α) (hash : UInt32) (charge : Nat) (wantHandle : Bool)
    (priority : Priority) : Except String (LRUCacheShard α × InsertStatus × Option Nat) := do
  let e := s.nextHandle
  let s := { s with
    heap := Function.update s.heap e
      ⟨key, hash, charge, 0, true, priority = Priority.high, false, false⟩
    nextHandle := s.nextHandle + 1 }
  let (s, lastReferenceList) ← s.evictFromLRU charge []
  let (s, status, handle, lastReferenceList) ←
    if s.usage + charge > s.capacity ∧ (s.strictCapacityLimit ∨ !wantHandle) then
      if !wantHandle then
        -- as if the entry went in and was evicted at once
        pure (s.modifyHandle e (fun h => { h with inCache := false }), InsertStatus.ok, none,
          lastReferenceList ++ [e])
      else
        pure (s, .incomplete "Insert failed due to LRU cache being full.", none,
          lastReferenceList)
    else do
      -- the cache may grow past its capacity if not enough was freed
      let (table, old) ← s.table.insert s.heap e
      let s := { s with table, usage := s.usage + charge }
      let (s, lastReferenceList) ← match old with
        | none => pure (s, lastReferenceList)
        | some old => do
            if !(s.heap old).inCache then throw "assertion failed"
            let s := s.modifyHandle old fun h => { h with inCache := false }
            if (s.heap old).refs = 0 then
              -- `old` is on the list: it is in the cache with no reference
              let s ← s.lruRemove old
              pure ({ s with usage := s.usage - (s.heap old).charge }, lastReferenceList ++ [old])
            else pure (s, lastReferenceList)
      if !wantHandle then
        let s ← s.lruInsert e
        pure (s, InsertStatus.ok, none, lastReferenceList)
      else
        pure (s.modifyHandle e (fun h => { h with refs := h.refs + 1 }), InsertStatus.ok, some e,
          lastReferenceList)
  let s ← s.freeAll lastReferenceList
  pure (s, status, handle)

/-- `Erase(key, hash)`: the entry leaves the table, and is freed if nobody references it. -/
def erase (s : LRUCacheShard α) (key : α) (hash : UInt32) : Except String (LRUCacheShard α) := do
  let (table, e) := s.table.remove s.heap key hash
  let s := { s with table }
  match e with
  | none => pure s
  | some e =>
      if !(s.heap e).inCache then throw "assertion failed"
      let s := s.modifyHandle e fun h => { h with inCache := false }
      if (s.heap e).refs = 0 then
        -- an entry in the table with no reference is on the list
        let s ← s.lruRemove e
        let s := { s with usage := s.usage - (s.heap e).charge }
        s.free e
      else pure s

/-- The `while` loop of `EraseUnRefEntries`; `fuel` turns. -/
def eraseUnRefEntriesLoop :
    Nat → LRUCacheShard α → List Nat → Except String (LRUCacheShard α × List Nat)
  | 0, s, list => pure (s, list)
  | fuel + 1, s, list =>
      match s.lru with
      | old :: _ => do
          if !(s.heap old).inCache ∨ (s.heap old).refs ≠ 0 then throw "assertion failed"
          let s ← s.lruRemove old
          let (table, _) := s.table.remove s.heap (s.heap old).key (s.heap old).hash
          let s := { s.modifyHandle old fun h => { h with inCache := false } with
            table
            usage := s.usage - (s.heap old).charge }
          eraseUnRefEntriesLoop fuel s (list ++ [old])
      | [] => pure (s, list)

/-- `EraseUnRefEntries()`: every entry on the list leaves the cache and is freed. -/
def eraseUnRefEntries (s : LRUCacheShard α) : Except String (LRUCacheShard α) := do
  let (s, lastReferenceList) ← eraseUnRefEntriesLoop s.lru.length s []
  s.freeAll lastReferenceList

/-! ## `SetCapacity` and the high-priority pool -/

/-- `EvictFromLRU` evicts nothing when the charge already fits. -/
theorem evictFromLRULoop_of_fits (s : LRUCacheShard α) (charge : Nat)
    (hfit : s.usage + charge ≤ s.capacity) (fuel : Nat) (deleted : List Nat) :
    evictFromLRULoop charge fuel s deleted = .ok (s, deleted) := by
  cases fuel with
  | zero => rfl
  | succ fuel =>
      rw [evictFromLRULoop]
      split
      · rw [if_neg (Nat.not_lt.mpr hfit)]
        rfl
      · rfl

/-- `SetCapacity` to a capacity the entries fit in only sets the capacities. -/
theorem setCapacity_of_usage_le (s : LRUCacheShard α) (capacity : Nat) (hfit : s.usage ≤ capacity) :
    s.setCapacity capacity =
      .ok { s with
        capacity
        highPriPoolCapacity := highPriPoolCapacityFor capacity s.highPriPoolRatio } := by
  unfold setCapacity evictFromLRU
  dsimp only
  rw [evictFromLRULoop_of_fits _ 0 (by simpa using hfit)]
  rfl

/-- `SetCapacity` lowers the capacity of the high-priority pool without `MaintainPoolSize`: when
the entries fit the new capacity but the high-priority pool does not fit its new share, the
pool stays over its capacity, with the same entries. -/
theorem setCapacity_high_pri_pool_over (s : LRUCacheShard α) (capacity : Nat)
    (hfit : s.usage ≤ capacity)
    (hover : highPriPoolCapacityFor capacity s.highPriPoolRatio < s.highPriPoolUsage) :
    ∃ s', s.setCapacity capacity = .ok s' ∧ s'.highPriPoolUsage = s.highPriPoolUsage ∧
      s'.lru = s.lru ∧ s'.lruLowPri = s.lruLowPri ∧
      s'.highPriPoolCapacity < s'.highPriPoolUsage :=
  ⟨_, setCapacity_of_usage_le s capacity hfit, rfl, rfl, rfl, hover⟩

/-- A fresh shard of capacity `10` with a high-priority ratio of `1/2`, after one
high-priority entry of charge `4` went in without a handle: `SetCapacity(6)` leaves `4` in a
high-priority pool of capacity `3`. -/
theorem setCapacity_high_pri_pool_over_six :
    ∃ s : LRUCacheShard Nat,
      ((LRUCacheShard.new 10 false (1 / 2) fun _ => ⟨0, 0, 0, 0, false, false, false, false⟩) >>=
          fun s => (s.insert 0 0 4 false .high).map (·.1)) = .ok s ∧
        s.usage ≤ 6 ∧ (6 : ℚ) * s.highPriPoolRatio < s.highPriPoolUsage ∧
        highPriPoolCapacityFor 6 s.highPriPoolRatio < s.highPriPoolUsage ∧
        ∃ s', s.setCapacity 6 = .ok s' ∧ s'.highPriPoolUsage = s.highPriPoolUsage ∧
          s'.lru = s.lru ∧ s'.lruLowPri = s.lruLowPri ∧
          s'.highPriPoolCapacity < s'.highPriPoolUsage := by
  have hrun : (((LRUCacheShard.new 10 false (1 / 2)
      fun _ => (⟨0, 0, 0, 0, false, false, false, false⟩ : LRUHandle Nat)) >>=
        fun s => (s.insert 0 0 4 false .high).map (·.1)).map
          fun s => (s.usage, s.highPriPoolRatio, s.highPriPoolUsage)) = .ok (4, 1 / 2, 4) := by
    decide +kernel
  cases h : ((LRUCacheShard.new 10 false (1 / 2)
      fun _ => (⟨0, 0, 0, 0, false, false, false, false⟩ : LRUHandle Nat)) >>=
        fun s => (s.insert 0 0 4 false .high).map (·.1)) with
  | error e =>
      rw [h] at hrun
      cases hrun
  | ok s =>
      rw [h] at hrun
      simp only [Except.map, Except.ok.injEq, Prod.mk.injEq] at hrun
      obtain ⟨husage, hratio, hpool⟩ := hrun
      have hfit : s.usage ≤ 6 := by omega
      have hover : (6 : ℚ) * s.highPriPoolRatio < s.highPriPoolUsage := by
        rw [hratio, hpool]
        norm_num
      -- `6` and `6 * 0.5 = 3` are `double`s: the rounded product is exact
      have hround : highPriPoolCapacityFor 6 s.highPriPoolRatio < s.highPriPoolUsage := by
        rw [hratio, hpool, highPriPoolCapacityFor, Lib.roundBinary64_natCast (by norm_num),
          show ((6 : ℕ) : ℚ) * (1 / 2) = ((3 : ℕ) : ℚ) by norm_num,
          Lib.roundBinary64_natCast (by norm_num)]
        norm_num
      exact ⟨s, rfl, hfit, hover, hround, setCapacity_high_pri_pool_over s 6 hfit hround⟩

end LRUCacheShard

end RocksCloud.Cache
