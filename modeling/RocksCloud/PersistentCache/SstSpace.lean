import Mathlib
import RocksCloud.Util.Coding

/-!
# `SST_space`, the slot allocator of the persistent cache

`myCache` keeps a cache file cut into buckets, one `SST_space` each. A bucket has `all_num`
slots of `SPACE_SIZE = 4096` bytes, a bitmap of the slots in use, a count `empty_num` of free
slots, a list `empty_nodes` of slots freed by evictions, and an LRU list of the cached values
(`head` first) with a map from keys to list nodes. A value of `n` bytes takes `ceil(n / 4096)`
slots.

`Put` evicts from the tail of the list until enough slots are counted free (a node marked as
metadata survives one pass and goes back to the head), takes the slots from `empty_nodes` when
it holds enough, and otherwise scans the bitmap circularly from the slot after `last`, stopping
when the scan comes back to `last`. It then writes the value to its slots with `pwrite`. `Get`
reads them back with `pread` into a fresh buffer.

The file is a function from offsets to bytes, read and written without I/O errors. The buffer
`Get` fills is a list of optional bytes: a byte no `pread` wrote is `none`, the indeterminate
contents of `new char[]`. Behaviour the source leaves undefined (removing the tail of an empty
list, using a node after eviction freed it, a value with no slot) is an `Except.error`.

## Results

* `put_get_two_slots`: in a bucket of two slots, a value of two slots gets one; the bucket
  then counts no free slot while its bitmap shows one, and `Get` returns a buffer whose second
  half was never read.
-/

set_option autoImplicit false

namespace RocksCloud.PersistentCache

open RocksCloud.Util

/-- `SPACE_SIZE`: the bytes of one slot. -/
def spaceSize : Nat := 4 * 1024

/-- `Record`: the byte offsets of a value's slots, relative to the bucket, and its size. -/
structure Record where
  offset : List UInt64
  size : Nat
  deriving Repr, DecidableEq

/-- `DLinkedNode` without its links: a metadata node has `out = 1` and survives one eviction
pass. -/
structure DLinkedNode where
  out : Int
  value : Record
  deriving Repr, DecidableEq

/-- `SST_space`. The list links are `lru`, head first; `cache` maps each key to its node. -/
structure SstSpace where
  begin : UInt64
  bitMap : List Bool
  allNum : UInt32
  emptyNum : UInt32
  cache : List (Bytes × DLinkedNode)
  lru : List Bytes
  emptyNodes : List UInt64
  last : UInt32
  file : Nat → UInt8

/-- `Set_Par(fd, num, begin)` on a new `SST_space`: all `num` slots free. -/
def SstSpace.setPar (file : Nat → UInt8) (num : UInt32) (begin : UInt64) : SstSpace :=
  ⟨begin, List.replicate num.toNat false, num, num, [], [], [], 0, file⟩

/-! ## The list and the map -/

/-- `cache[key] = node`. -/
def SstSpace.setNode (s : SstSpace) (key : Bytes) (node : DLinkedNode) : SstSpace :=
  { s with cache := (key, node) :: s.cache.filter (·.1 ≠ key) }

/-- `moveToHead`. -/
def SstSpace.moveToHead (s : SstSpace) (key : Bytes) : SstSpace :=
  { s with lru := key :: s.lru.erase key }

/-- `removeRecord`: the value's slots go to `empty_nodes` and are cleared in the bitmap, and
`empty_num` grows by their number. -/
def SstSpace.removeRecord (s : SstSpace) (record : Record) : SstSpace :=
  { s with
    emptyNodes := s.emptyNodes ++ record.offset.map (· / spaceSize.toUInt64)
    bitMap := record.offset.foldl
      (fun bm o => bm.set (o / spaceSize.toUInt64).toNat false) s.bitMap
    emptyNum := s.emptyNum + record.offset.length.toUInt32 }

/-- The eviction loop of `Put`, `while (need_num > empty_num)`, with `outCount` the caller's
`out`. Each turn either sends a metadata node back to the head with `out` lowered, or evicts
the tail; `fuel` bounds the turns. -/
def SstSpace.evict (needNum : UInt32) : Nat → SstSpace → UInt64 → Except String (SstSpace × UInt64)
  | 0, _, _ => .error "eviction out of fuel"
  | fuel + 1, s, outCount =>
      if needNum > s.emptyNum then
        match s.lru.getLast?, s.lru.getLast?.bind (s.cache.lookup ·) with
        | some tailKey, some tailNode =>
            if tailNode.out ≠ 0 then
              evict needNum fuel
                ((s.setNode tailKey { tailNode with out := tailNode.out - 1 }).moveToHead tailKey)
                outCount
            else
              -- `removeTail`, `cache.erase`, `removeRecord`
              let s1 := { s with lru := s.lru.dropLast, cache := s.cache.filter (·.1 ≠ tailKey) }
              evict needNum fuel (s1.removeRecord tailNode.value) (outCount + 1)
        | _, _ => .error "removeTail on an empty list"
      else .ok (s, outCount)

/-! ## Slots -/

/-- The circular scan of `Put` from slot `j`, until it comes back to `last`: the bitmap, the
slots taken, and the slot that becomes `last` once `need` slots are found. -/
def scanSlots (size last need : Nat) : Nat → Nat → List Bool → List Nat →
    List Bool × List Nat × Option Nat
  | 0, _, bm, taken => (bm, taken, none)
  | fuel + 1, j, bm, taken =>
      if j = last then (bm, taken, none)
      else if ¬ bm.getD j true then
        if taken.length + 1 = need then (bm.set j true, taken ++ [j], some j)
        else scanSlots size last need fuel ((j + 1) % size) (bm.set j true) (taken ++ [j])
      else scanSlots size last need fuel ((j + 1) % size) bm taken

/-- `pwrite(fd, value + cur, len, begin + off)`. -/
def pwrite (file : Nat → UInt8) (value : Bytes) (cur len off : Nat) : Nat → UInt8 :=
  fun i => if off ≤ i ∧ i < off + len then value.getD (cur + (i - off)) 0 else file i

/-- `pread(fd, data + cur, len, off)` into a buffer of optional bytes. -/
def pread (file : Nat → UInt8) (data : List (Option UInt8)) (cur len off : Nat) :
    List (Option UInt8) :=
  (List.range len).foldl (fun d k => d.set (cur + k) (some (file (off + k)))) data

/-- The bytes of the last slot of a value of `size` bytes. -/
def leftSize (size : Nat) : Nat := if size % spaceSize = 0 then spaceSize else size % spaceSize

/-- Write a value to its slots: full slots first, then the rest in the last one. A value with
no slot makes `offset.size() - 1` wrap. -/
def writeBlocks (file : Nat → UInt8) (begin : UInt64) (value : Bytes) (offsets : List UInt64) :
    Except String (Nat → UInt8) :=
  match offsets.getLast? with
  | none => .error "no slot"
  | some lastOff =>
      let full := offsets.dropLast
      let file' := (List.range full.length).foldl
        (fun f i => pwrite f value (i * spaceSize) spaceSize
          (begin.toNat + (full.getD i 0).toNat)) file
      .ok (pwrite file' value (full.length * spaceSize) (leftSize value.length)
        (begin.toNat + lastOff.toNat))

/-! ## `Put` and `Get` -/

/-- `SST_space::Put`: the bucket after storing `value` under `key`, and the eviction count. -/
def SstSpace.put (s : SstSpace) (key value : Bytes) (outCount : UInt64) (isMeta : Bool) :
    Except String (SstSpace × UInt64) := do
  if value.length = 0 then return (s, outCount)
  let needNum : UInt32 :=
    (value.length / spaceSize).toUInt32 + (if value.length % spaceSize = 0 then 0 else 1)
  if needNum > s.allNum then return (s, outCount)
  let out : Int := if isMeta then 1 else 0
  -- a new key gets a fresh node at the head; a cached one gives its slots back first
  let s1 : SstSpace :=
    match s.cache.lookup key with
    | none => { (s.setNode key ⟨out, ⟨[], 0⟩⟩) with lru := key :: s.lru }
    | some node => ((s.setNode key { node with out, value := { node.value with offset := [] } })
        |>.moveToHead key).removeRecord node.value
  let (s2, outCount) ← SstSpace.evict needNum (2 * s1.lru.length + 1) s1 outCount
  let s3 := { s2 with emptyNum := s2.emptyNum - needNum }
  let node ← match s3.cache.lookup key with
    | some node => pure node
    | none => throw "node used after eviction"
  -- the slots: from `empty_nodes` when it holds enough, else from the circular scan
  let (bitMap, newSlots, last) :=
    if s3.emptyNodes.length ≥ needNum.toNat then
      let taken := s3.emptyNodes.take needNum.toNat
      (taken.foldl (fun bm i => bm.set i.toNat true) s3.bitMap, taken, s3.last)
    else
      let size := s3.bitMap.length
      let (bm, taken, found) := scanSlots size s3.last.toNat needNum.toNat size
        ((s3.last.toNat + 1) % size) s3.bitMap []
      (bm, taken.map Nat.toUInt64, (found.map Nat.toUInt32).getD s3.last)
  let emptyNodes := if s3.emptyNodes.length ≥ needNum.toNat then [] else s3.emptyNodes
  let offsets := node.value.offset ++ newSlots.map (· * spaceSize.toUInt64)
  let file ← writeBlocks s3.file s3.begin value offsets
  let node' := { node with value := ⟨offsets, value.length⟩ }
  pure ({ (s3.setNode key node') with bitMap, emptyNodes, last, file }, outCount)

/-- `SST_space::Get`: `none` for `NotFound`, else the buffer the slots were read into. -/
def SstSpace.get (s : SstSpace) (key : Bytes) :
    Except String (SstSpace × Option (List (Option UInt8))) :=
  match s.cache.lookup key with
  | none => .ok (s, none)
  | some node =>
      let s' := s.moveToHead key
      match node.value.offset.getLast? with
      | none => .error "no slot"
      | some lastOff =>
          let full := node.value.offset.dropLast
          let data := (List.range full.length).foldl
            (fun d i => pread s.file d (i * spaceSize) spaceSize
              (s.begin.toNat + (full.getD i 0).toNat))
            (List.replicate node.value.size none)
          .ok (s', some (pread s.file data (full.length * spaceSize) (leftSize node.value.size)
            (s.begin.toNat + lastOff.toNat)))

/-- The slots the bitmap shows free. -/
def SstSpace.freeSlots (s : SstSpace) : Nat := s.bitMap.count false

/-! ## Reading slots back -/

theorem pread_succ (file : Nat → UInt8) (data : List (Option UInt8)) (cur len off : Nat) :
    pread file data cur (len + 1) off =
      (pread file data cur len off).set (cur + len) (some (file (off + len))) := by
  simp [pread, List.range_succ, List.foldl_append]

@[simp] theorem length_pread (file : Nat → UInt8) (data : List (Option UInt8)) (cur len off : Nat) :
    (pread file data cur len off).length = data.length := by
  induction len with
  | zero => rfl
  | succ len ih => rw [pread_succ, List.length_set, ih]

/-- A read leaves the buffer past its range as it was. -/
theorem getD_pread_of_le (file : Nat → UInt8) (data : List (Option UInt8)) (cur len off i : Nat)
    (h : cur + len ≤ i) : (pread file data cur len off).getD i none = data.getD i none := by
  induction len with
  | zero => rfl
  | succ len ih =>
      rw [pread_succ, List.getD_eq_getElem?_getD, List.getElem?_set_ne (by omega),
        ← List.getD_eq_getElem?_getD, ih (by omega)]

/-- A read fills its range, inside the buffer, with the file's bytes. -/
theorem getD_pread_of_lt (file : Nat → UInt8) (data : List (Option UInt8)) (cur len off i : Nat)
    (h1 : cur ≤ i) (h2 : i < cur + len) (h3 : i < data.length) :
    (pread file data cur len off).getD i none = some (file (off + (i - cur))) := by
  induction len with
  | zero => omega
  | succ len ih =>
      rw [pread_succ, List.getD_eq_getElem?_getD]
      by_cases hi : i = cur + len
      · subst hi
        rw [List.getElem?_set_self (by simp; omega)]
        simp
      · rw [List.getElem?_set_ne (by omega), ← List.getD_eq_getElem?_getD]
        exact ih (by omega)

/-- `Get` of a value held in one slot reads that slot into a fresh buffer. -/
theorem get_single_slot (s : SstSpace) (key : Bytes) (node : DLinkedNode) (off : UInt64)
    (h : s.cache.lookup key = some node) (hoff : node.value.offset = [off]) :
    s.get key = .ok (s.moveToHead key, some (pread s.file (List.replicate node.value.size none) 0
      (leftSize node.value.size) (s.begin.toNat + off.toNat))) := by
  simp [SstSpace.get, h, hoff]

/-! ## A value of two slots in a bucket of two -/

/-- In a bucket of two slots, a value of `8192` bytes needs both. The scan starts after
`last = 0` and stops when it comes back to slot `0`, so the value gets slot `1` only: the
bucket counts no free slot while its bitmap shows one, and `Get` answers with a buffer of the
value's size whose second half no read filled. -/
theorem put_get_two_slots :
    ∃ s' : SstSpace,
      (SstSpace.setPar (fun _ => 0) 2 0).put [107] (List.replicate 8192 1) 0 false = .ok (s', 0) ∧
      s'.emptyNum = 0 ∧ s'.freeSlots = 1 ∧
      (s'.cache.lookup [107]).map (·.value.offset) = some [4096] ∧
      ∃ data, (s'.get [107]).map (·.2) = .ok (some data) ∧ data.length = 8192 ∧
        data.getD 4095 none = some 1 ∧ data.getD 4096 none = none := by
  -- run `Put` on the concrete bucket, keeping only the result, `emptyNum`, `freeSlots`, the
  -- node of the key, `begin` and the file byte of slot `1` that `Get` reads
  have hput : ((SstSpace.setPar (fun _ => 0) 2 0).put [107] (List.replicate 8192 1) 0 false).map
      (fun r => ((r.2, r.1.emptyNum, r.1.freeSlots), (r.1.cache.lookup [107], r.1.begin,
        r.1.file 8191))) =
      .ok ((0, 0, 1), (some ⟨0, ⟨[4096], 8192⟩⟩, 0, 1)) := by
    decide +kernel
  cases h : (SstSpace.setPar (fun _ => 0) 2 0).put [107] (List.replicate 8192 1) 0 false with
  | error e =>
      rw [h] at hput
      cases hput
  | ok r =>
      obtain ⟨s', out⟩ := r
      rw [h] at hput
      simp only [Except.map, Except.ok.injEq, Prod.mk.injEq] at hput
      obtain ⟨⟨hout, hempty, hfree⟩, hnode, hbegin, hfile⟩ := hput
      refine ⟨s', by rw [hout], hempty, hfree, by rw [hnode]; rfl, ?_⟩
      -- the slot is read into the buffer; the other half of it stays unread
      rw [get_single_slot s' [107] _ 4096 hnode rfl]
      refine ⟨_, rfl, by rw [length_pread, List.length_replicate], ?_, ?_⟩
      · rw [getD_pread_of_lt _ _ _ _ _ _ (by decide) (by decide)
          (by rw [List.length_replicate]; decide), hbegin]
        exact congrArg some hfile
      · rw [getD_pread_of_le _ _ _ _ _ _ (by decide), List.getD_eq_getElem?_getD,
          List.getElem?_replicate]
        rfl

end RocksCloud.PersistentCache
