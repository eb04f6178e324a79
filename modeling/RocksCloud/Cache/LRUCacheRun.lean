import Mathlib
import RocksCloud.Cache.LRUCacheInvariant

/-!
# Calls on an LRU cache shard

The calls a client makes with a handle keep `Valid`, and none fails its `assert`s, as long as
the client passes only handles it holds:

* `Lookup` takes a reference on the handle of its key and takes it off the list
  (`Valid.lookup`, `LookupSpec`); `Ref` takes another (`Valid.ref`);
* `Erase` takes the handle of its key out of the table and the cache, and frees it if nobody
  holds it (`Valid.erase`, `EraseSpec`);
* `Release` gives a reference back; the last one puts an entry of the cache back on the list,
  or takes it out of the cache, and frees what left the cache (`Valid.release`,
  `ReleaseSpec`).

A change at a few handles keeps the bookkeeping when those handles stay consistent and the
others are as they were (`Bookkeeping.of_changes`); each call is such a change, at one handle.
-/

set_option autoImplicit false

namespace RocksCloud.Cache

namespace HandleView

/-- A handle that keeps some references, with its count changed. -/
theorem Consistent.withRefs {v : HandleView} (hc : v.Consistent) (hr : 0 < v.refs) {n : Nat}
    (hn : 0 < n) : ({ v with refs := n } : HandleView).Consistent where
  table := hc.table
  list hl := absurd (hc.list hl).2 (Nat.pos_iff_ne_zero.mp hr)
  unreferenced _ h0 := absurd h0 (Nat.pos_iff_ne_zero.mp hn)
  referenced ha _ hic := hc.referenced ha hr hic
  freed hf := absurd (hc.freed hf).2.1 (Nat.pos_iff_ne_zero.mp hr)

theorem usage_withRefs {v : HandleView} (hr : 0 < v.refs) {n : Nat} (hn : 0 < n) :
    ({ v with refs := n } : HandleView).usage = v.usage := by
  simp [usage, hr, hn]

end HandleView

namespace LRUHandleTable

variable {α : Type} [DecidableEq α] {heap : Nat → LRUHandle α} {t : LRUHandleTable}

/-- `Remove` of the key of a handle of the table takes out that handle and no other. -/
theorem WF.mem_remove_keyOf (hw : t.WF heap) {h : Nat} (hh : h ∈ t.handles) (x : Nat) :
    x ∈ (t.remove heap (heap h).key (heap h).hash).1.handles ↔ x ∈ t.handles ∧ x ≠ h := by
  obtain ⟨hfind, -, hperm⟩ := hw.remove (heap h).key (heap h).hash
  rw [hfind, hw.find?_keyOf hh, Option.toList_some] at hperm
  exact LRUCacheShard.mem_of_perm_append_singleton hperm hw.handles_nodup

end LRUHandleTable

namespace LRUCacheShard

open LRUHandleTable

variable {α : Type}

section Changes

variable {s s' : LRUCacheShard α}

theorem view_modifyHandle_of_ne {e h : Nat} (g : LRUHandle α → LRUHandle α) (hne : h ≠ e) :
    (s.modifyHandle e g).view h = s.view h := by
  have hheap : (s.modifyHandle e g).heap h = s.heap h := by
    simp [modifyHandle, Function.update_of_ne hne]
  exact view_eq_of Iff.rfl Iff.rfl Iff.rfl Iff.rfl (by rw [hheap]) (by rw [hheap])
    (by rw [hheap])

theorem heap_modifyHandle_self (e : Nat) (g : LRUHandle α → LRUHandle α) :
    (s.modifyHandle e g).heap e = g (s.heap e) := by
  simp [modifyHandle]

theorem heap_modifyHandle_of_ne {e h : Nat} (g : LRUHandle α → LRUHandle α) (hne : h ≠ e) :
    (s.modifyHandle e g).heap h = s.heap h := by
  simp [modifyHandle, Function.update_of_ne hne]

/-- The bookkeeping carries over a change at the handles of `S`, when they stay consistent,
the other handles look the same, and `usage_` moves with their charges. -/
theorem Bookkeeping.of_changes (hb : s.Bookkeeping) (S : Finset Nat)
    (hS : S ⊆ Finset.range s.nextHandle) (hnext : s'.nextHandle = s.nextHandle)
    (hfreed : s'.freed = s.freed) (hview : ∀ h ∉ S, s'.view h = s.view h)
    (hcons : ∀ h ∈ S, (s'.view h).Consistent) (hp : s'.PoolInv)
    (hlu : s'.lruUsage = s'.chargeSum s'.lru) (htable : s'.table.WF s'.heap)
    (husage : s'.usage + ∑ h ∈ S, (s.view h).usage = s.usage + ∑ h ∈ S, (s'.view h).usage)
    (hcap : s'.highPriPoolCapacity = highPriPoolCapacityFor s'.capacity s'.highPriPoolRatio)
    (hratio : 0 ≤ s'.highPriPoolRatio) : s'.Bookkeeping where
  pool := hp
  lruUsage_eq := hlu
  table := htable
  handle h := if hh : h ∈ S then hcons h hh else hview h hh ▸ hb.handle h
  freed_nodup := hfreed ▸ hb.freed_nodup
  usage_eq := by
    have hsum := chargedUsage_add_eq hnext hS fun h _ hh => by rw [hview h hh]
    rw [hb.usage_eq] at husage
    omega
  highPriPoolCapacity_eq := hcap
  ratio_nonneg := hratio

/-- The same, at the one handle `e`. -/
theorem Bookkeeping.of_change_at (hb : s.Bookkeeping) {e : Nat} (hlt : e < s.nextHandle)
    (hnext : s'.nextHandle = s.nextHandle) (hfreed : s'.freed = s.freed)
    (hview : ∀ h, h ≠ e → s'.view h = s.view h) (hcons : (s'.view e).Consistent)
    (hp : s'.PoolInv) (hlu : s'.lruUsage = s'.chargeSum s'.lru) (htable : s'.table.WF s'.heap)
    (husage : s'.usage + (s.view e).usage = s.usage + (s'.view e).usage)
    (hcap : s'.highPriPoolCapacity = highPriPoolCapacityFor s'.capacity s'.highPriPoolRatio)
    (hratio : 0 ≤ s'.highPriPoolRatio) : s'.Bookkeeping := by
  refine hb.of_changes {e} (by simpa using hlt) hnext hfreed
    (fun h hh => hview h (by simpa using hh)) (fun h hh => ?_) hp hlu htable
    (by simpa using husage) hcap hratio
  rw [Finset.mem_singleton.mp hh]
  exact hcons

/-- What a handle adds to `usage_` is part of it. -/
theorem Bookkeeping.view_usage_le (hb : s.Bookkeeping) {h : Nat} (hn : h < s.nextHandle) :
    (s.view h).usage ≤ s.usage := by
  rw [hb.usage_eq, chargedUsage]
  exact Finset.single_le_sum (f := fun h => (s.view h).usage) (fun _ _ => Nat.zero_le _)
    (Finset.mem_range.mpr hn)

end Changes

/-! ## References -/

section Refs

variable {s : LRUCacheShard α} {e : Nat}

/-- A function on handles that changes at most the reference count and `HAS_HIT`. -/
def RefsOnly (g : LRUHandle α → LRUHandle α) : Prop :=
  ∀ h, g h = { h with refs := (g h).refs, hasHit := (g h).hasHit }

theorem RefsOnly.charge {g : LRUHandle α → LRUHandle α} (hg : RefsOnly g) (h : LRUHandle α) :
    (g h).charge = h.charge := by
  rw [hg h]

theorem RefsOnly.key {g : LRUHandle α → LRUHandle α} (hg : RefsOnly g) (h : LRUHandle α) :
    (g h).key = h.key := by
  rw [hg h]

theorem RefsOnly.hash {g : LRUHandle α → LRUHandle α} (hg : RefsOnly g) (h : LRUHandle α) :
    (g h).hash = h.hash := by
  rw [hg h]

theorem RefsOnly.inCache {g : LRUHandle α → LRUHandle α} (hg : RefsOnly g) (h : LRUHandle α) :
    (g h).inCache = h.inCache := by
  rw [hg h]

theorem RefsOnly.inHighPriPool {g : LRUHandle α → LRUHandle α} (hg : RefsOnly g)
    (h : LRUHandle α) : (g h).inHighPriPool = h.inHighPriPool := by
  rw [hg h]

/-- A change of the references of `e` alone keeps what the list and the table record. -/
theorem RefsOnly.fields {g : LRUHandle α → LRUHandle α} (hg : RefsOnly g) (h : Nat) :
    ((s.modifyHandle e g).heap h).charge = (s.heap h).charge ∧
      ((s.modifyHandle e g).heap h).key = (s.heap h).key ∧
      ((s.modifyHandle e g).heap h).hash = (s.heap h).hash ∧
      ((s.modifyHandle e g).heap h).inCache = (s.heap h).inCache ∧
      ((s.modifyHandle e g).heap h).inHighPriPool = (s.heap h).inHighPriPool := by
  by_cases hh : h = e
  · rw [hh, heap_modifyHandle_self]
    exact ⟨hg.charge _, hg.key _, hg.hash _, hg.inCache _, hg.inHighPriPool _⟩
  · rw [heap_modifyHandle_of_ne g hh]
    exact ⟨rfl, rfl, rfl, rfl, rfl⟩

/-- A handle that keeps some references, its count changed: nothing else moves. -/
theorem Valid.modifyRefs (hv : s.Valid) (hlt : e < s.nextHandle) (hr : 0 < (s.heap e).refs)
    {g : LRUHandle α → LRUHandle α} (hg : RefsOnly g) (hpos : 0 < (g (s.heap e)).refs) :
    (s.modifyHandle e g).Valid := by
  have hf := hg.fields (s := s) (e := e)
  have hview : (s.modifyHandle e g).view e = { s.view e with refs := (g (s.heap e)).refs } := by
    simp only [view, heap_modifyHandle_self, hg.inCache, hg.charge]
    rfl
  refine ⟨hv.of_change_at hlt rfl rfl (fun h hne => view_modifyHandle_of_ne g hne) ?_
    (hv.pool.of_eq rfl rfl (fun h => (hf h).2.2.2.2) (fun h => (hf h).1) rfl)
    (by rw [chargeSum_congr _ fun h => (hf h).1]; exact hv.lruUsage_eq)
    (hv.table.congr fun h _ => ⟨(hf h).2.1, (hf h).2.2.1⟩) ?_ hv.highPriPoolCapacity_eq
    hv.ratio_nonneg, hv.lru_nil⟩
  · rw [hview]
    exact (hv.handle e).withRefs hr hpos
  · rw [hview, HandleView.usage_withRefs hr hpos]
    rfl

/-- A handle on the list that gets a reference leaves the list. -/
theorem Valid.takeRef_listed (hv : s.Valid) (hlru : e ∈ s.lru) {g : LRUHandle α → LRUHandle α}
    (hg : RefsOnly g) (hpos : 0 < (g (s.heap e)).refs) :
    ((s.unlink e).modifyHandle e g).Valid := by
  have hin := hv.mem_table_of_mem_lru hlru
  have hcache := hv.inCache_of_mem_table hin
  have hf := hg.fields (s := s.unlink e) (e := e)
  have hnotfreed : e ∉ s.freed := fun hfr => by
    rw [(hv.freed_facts hfr).2.2] at hcache
    cases hcache
  have hview : ((s.unlink e).modifyHandle e g).view e =
      ⟨decide (e < s.nextHandle), true, false, false, (g (s.heap e)).refs, true,
        (s.heap e).charge⟩ := by
    simp only [view, heap_modifyHandle_self, unlink_heap, hg.inCache, hg.charge, hcache]
    simp [modifyHandle, hin, hv.pool.nodup.not_mem_erase, hnotfreed]
  refine ⟨hv.of_change_at (hv.lt_of_mem_table hin) rfl rfl (fun h hne => ?_) ?_
    ((hv.pool.unlink hlru).of_eq rfl rfl (fun h => (hf h).2.2.2.2) (fun h => (hf h).1) rfl)
    ?_ (hv.table.congr fun h _ => ⟨(hf h).2.1, (hf h).2.2.1⟩) ?_ hv.highPriPoolCapacity_eq
    hv.ratio_nonneg, fun hover => ?_⟩
  · rw [view_modifyHandle_of_ne g hne]
    refine view_eq_of Iff.rfl Iff.rfl ?_ Iff.rfl rfl rfl rfl
    rw [unlink_lru, hv.pool.nodup.mem_erase_iff]
    exact and_iff_right hne
  · rw [hview]
    exact ⟨fun _ => ⟨by simpa using hv.lt_of_mem_table hin, rfl⟩, fun h => absurd h (by simp),
      fun _ h0 => absurd h0 (Nat.pos_iff_ne_zero.mp hpos), fun _ _ _ => rfl,
      fun h => absurd h (by simp)⟩
  · change s.lruUsage - (s.heap e).charge = _
    rw [chargeSum_congr _ fun h => (hf h).1]
    change _ = s.chargeSum (s.lru.erase e)
    rw [chargeSum_erase s hlru, hv.lruUsage_eq]
  · rw [hview]
    simp [HandleView.usage, view, hin]
    rfl
  · -- a full cache has an empty list, and `e` was on it
    exact absurd hlru (by simp [hv.lru_nil hover])

/-- `Ref` of a handle that the caller holds takes one more reference. -/
theorem Valid.ref (hv : s.Valid) (hlt : e < s.nextHandle) (hr : 0 < (s.heap e).refs) :
    ∃ s', s.ref e = .ok s' ∧ s'.Valid ∧ (s'.heap e).refs = (s.heap e).refs + 1 := by
  rw [LRUCacheShard.ref, if_neg (Nat.pos_iff_ne_zero.mp hr)]
  exact ⟨_, rfl, hv.modifyRefs hlt hr (fun _ => rfl) (Nat.succ_pos _),
    by rw [heap_modifyHandle_self]⟩

/-- `Free` of a handle with no reference records it. -/
theorem free_eq (s : LRUCacheShard α) (e : Nat) (hr : (s.heap e).refs = 0) :
    s.free e = .ok { s with freed := s.freed ++ [e] } := by
  rw [free, if_neg (not_not.mpr hr)]
  rfl

/-- `IN_CACHE` cleared at `e`: keys, charges and pool flags stay. -/
theorem clearInCache_fields (h : Nat) :
    ((s.modifyHandle e fun h => { h with inCache := false }).heap h).charge = (s.heap h).charge ∧
      ((s.modifyHandle e fun h => { h with inCache := false }).heap h).key = (s.heap h).key ∧
      ((s.modifyHandle e fun h => { h with inCache := false }).heap h).hash = (s.heap h).hash ∧
      ((s.modifyHandle e fun h => { h with inCache := false }).heap h).inHighPriPool =
        (s.heap h).inHighPriPool := by
  by_cases hh : h = e
  · rw [hh, heap_modifyHandle_self]
    exact ⟨rfl, rfl, rfl, rfl⟩
  · rw [heap_modifyHandle_of_ne _ hh]
    exact ⟨rfl, rfl, rfl, rfl⟩

/-- Freeing `e` after its charge left `usage_`, with the list as it was, keeps the invariant:
`e` is pending, and a cache over its capacity now was over it before, with the same empty
list. -/
theorem Valid.free_pending (hv : s.Valid) {s' : LRUCacheShard α} (hb : s'.Bookkeeping)
    (he : e < s'.nextHandle ∧ e ∉ s'.table.handles ∧ (s'.heap e).refs = 0 ∧
      (s'.heap e).inCache = false ∧ e ∉ s'.freed)
    (hlru : s'.lru = s.lru) (hcap : s'.capacity = s.capacity)
    (husage : s'.usage ≤ s.usage) : Valid { s' with freed := s'.freed ++ [e] } := by
  refine ⟨hb.free_append ⟨List.nodup_singleton e, fun h hh => ?_⟩, fun hover => ?_⟩
  · rw [List.mem_singleton.mp hh]
    exact he
  · have hfull : s.capacity < s.usage := hcap ▸ lt_of_lt_of_le hover husage
    exact hlru.trans (hv.lru_nil hfull)

/-- A table that holds the same handles as the shard's, put in its place. -/
theorem Valid.withTable (hv : s.Valid) {t : LRUHandleTable} (hwf : t.WF s.heap)
    (hmem : ∀ h, h ∈ t.handles ↔ h ∈ s.table.handles) : ({ s with table := t }).Valid :=
  ⟨hv.of_changes ∅ (Finset.empty_subset _) rfl rfl
    (fun h _ => view_eq_of Iff.rfl (hmem h) Iff.rfl Iff.rfl rfl rfl rfl) (fun _ hh => absurd hh
      (Finset.notMem_empty _)) (hv.pool.of_eq rfl rfl (fun _ => rfl) (fun _ => rfl) rfl)
    hv.lruUsage_eq hwf (by simp) hv.highPriPoolCapacity_eq hv.ratio_nonneg, hv.lru_nil⟩

end Refs

/-! ## What the calls do to a handle -/

section Specs

variable {s : LRUCacheShard α} {e : Nat}

/-- What `Lookup` does to the handle `e` it finds: one reference more, a hit, and off the list;
nothing else moves. -/
structure LookupSpec (s : LRUCacheShard α) (e : Nat) (s' : LRUCacheShard α) : Prop where
  refs : (s'.heap e).refs = (s.heap e).refs + 1
  hasHit : (s'.heap e).hasHit = true
  lru : s'.lru = s.lru.erase e
  heap_of_ne : ∀ h, h ≠ e → s'.heap h = s.heap h
  table : s'.table = s.table
  usage : s'.usage = s.usage

/-- What `Erase` does to the handle `e` of its key: it leaves the table, the cache and the list;
when nobody holds it its charge leaves `usage_` and it is freed, and otherwise its holders keep
it, with its charge. -/
structure EraseSpec (s : LRUCacheShard α) (e : Nat) (s' : LRUCacheShard α) : Prop where
  not_mem_table : e ∉ s'.table.handles
  inCache : (s'.heap e).inCache = false
  lru : s'.lru = s.lru.erase e
  unreferenced : (s.heap e).refs = 0 →
    s'.usage = s.usage - (s.heap e).charge ∧ s'.freed = s.freed ++ [e]
  referenced : 0 < (s.heap e).refs → s'.usage = s.usage ∧ s'.freed = s.freed

/-- What `Release` does to the handle `e` it takes a reference from: the count drops by one, and
the result says whether `e` was freed. While others hold it nothing else moves. At the last
reference an entry of the cache goes back on the list, unless the cache is over its capacity or
the caller asks to erase it: then it leaves the table and the cache. An entry that leaves, or
had left the cache before, gives its charge back to `usage_` and is freed. -/
structure ReleaseSpec (s : LRUCacheShard α) (e : Nat) (forceErase : Bool)
    (s' : LRUCacheShard α) (lastReference : Bool) : Prop where
  refs : (s'.heap e).refs = (s.heap e).refs - 1
  freed : lastReference = true ↔ e ∈ s'.freed
  held : 1 < (s.heap e).refs →
    lastReference = false ∧ s'.lru = s.lru ∧ s'.table = s.table ∧ s'.usage = s.usage
  erased : (s.heap e).refs = 1 → (s.heap e).inCache = true →
    (s.capacity < s.usage ∨ forceErase = true) →
    lastReference = true ∧ e ∉ s'.table.handles ∧ (s'.heap e).inCache = false ∧
      s'.lru = s.lru ∧ s'.usage = s.usage - (s.heap e).charge
  relisted : (s.heap e).refs = 1 → (s.heap e).inCache = true →
    ¬(s.capacity < s.usage ∨ forceErase = true) →
    lastReference = false ∧ s'.lru.Perm (s.lru ++ [e]) ∧ s'.table = s.table ∧
      s'.usage = s.usage
  uncached : (s.heap e).refs = 1 → (s.heap e).inCache = false →
    lastReference = true ∧ s'.lru = s.lru ∧ s'.usage = s.usage - (s.heap e).charge

namespace ReleaseSpec

/-! Each branch of `Release` settles one case of the spec; the others do not apply. -/

variable {s' : LRUCacheShard α} {forceErase lastReference : Bool}

theorem of_held (hheld : 1 < (s.heap e).refs) (hrefs : (s'.heap e).refs = (s.heap e).refs - 1)
    (hfreed : lastReference = true ↔ e ∈ s'.freed)
    (h : lastReference = false ∧ s'.lru = s.lru ∧ s'.table = s.table ∧ s'.usage = s.usage) :
    s.ReleaseSpec e forceErase s' lastReference :=
  ⟨hrefs, hfreed, fun _ => h, fun h1 => absurd h1 (by omega), fun h1 => absurd h1 (by omega),
    fun h1 => absurd h1 (by omega)⟩

theorem of_erased (hlast : (s.heap e).refs = 1) (hc : (s.heap e).inCache = true)
    (hfull : s.capacity < s.usage ∨ forceErase = true)
    (hrefs : (s'.heap e).refs = (s.heap e).refs - 1)
    (hfreed : lastReference = true ↔ e ∈ s'.freed)
    (h : lastReference = true ∧ e ∉ s'.table.handles ∧ (s'.heap e).inCache = false ∧
      s'.lru = s.lru ∧ s'.usage = s.usage - (s.heap e).charge) :
    s.ReleaseSpec e forceErase s' lastReference :=
  ⟨hrefs, hfreed, fun h1 => absurd hlast (by omega), fun _ _ _ => h,
    fun _ _ hn => absurd hfull hn,
    fun _ hc' => absurd hc (by simp [hc'])⟩

theorem of_relisted (hlast : (s.heap e).refs = 1) (hc : (s.heap e).inCache = true)
    (hfit : ¬(s.capacity < s.usage ∨ forceErase = true))
    (hrefs : (s'.heap e).refs = (s.heap e).refs - 1)
    (hfreed : lastReference = true ↔ e ∈ s'.freed)
    (h : lastReference = false ∧ s'.lru.Perm (s.lru ++ [e]) ∧ s'.table = s.table ∧
      s'.usage = s.usage) :
    s.ReleaseSpec e forceErase s' lastReference :=
  ⟨hrefs, hfreed, fun h1 => absurd hlast (by omega), fun _ _ hn => absurd hn hfit,
    fun _ _ _ => h, fun _ hc' => absurd hc (by simp [hc'])⟩

theorem of_uncached (hlast : (s.heap e).refs = 1) (hc : (s.heap e).inCache = false)
    (hrefs : (s'.heap e).refs = (s.heap e).refs - 1)
    (hfreed : lastReference = true ↔ e ∈ s'.freed)
    (h : lastReference = true ∧ s'.lru = s.lru ∧ s'.usage = s.usage - (s.heap e).charge) :
    s.ReleaseSpec e forceErase s' lastReference :=
  ⟨hrefs, hfreed, fun h1 => absurd hlast (by omega), fun _ hc' => absurd hc' (by simp [hc]),
    fun _ hc' => absurd hc' (by simp [hc]), fun _ _ => h⟩

end ReleaseSpec

end Specs

/-! ## `Lookup`, `Erase` and `Release` -/

section Calls

variable [DecidableEq α] {s : LRUCacheShard α} {e : Nat}

/-- A shard of capacity `8` whose one handle, `0`, of key `0`, hash `0` and charge `1`, is in
the cache and held by `refs` callers; with no caller it is on the list. -/
def oneEntryShard (refs : Nat) : LRUCacheShard Nat where
  capacity := 8
  highPriPoolUsage := 0
  strictCapacityLimit := false
  highPriPoolRatio := 0
  highPriPoolCapacity := 0
  usage := 1
  lruUsage := if refs = 0 then 1 else 0
  lru := if refs = 0 then [0] else []
  lruLowPri := if refs = 0 then 1 else 0
  table := ⟨(List.replicate 16 []).set 0 [0], 1⟩
  heap := fun _ => ⟨0, 0, 1, refs, true, false, false, false⟩
  nextHandle := 1
  freed := []

theorem oneEntryShard_handles (refs : Nat) : (oneEntryShard refs).table.handles = [0] := rfl

theorem oneEntryShard_view (refs h : Nat) :
    (oneEntryShard refs).view h =
      if h = 0 then ⟨true, true, decide (refs = 0), false, refs, true, 1⟩
      else ⟨false, false, false, false, refs, true, 1⟩ := by
  rw [view, oneEntryShard_handles]
  by_cases h0 : h = 0 <;> by_cases hr : refs = 0 <;> simp [oneEntryShard, h0, hr]

theorem oneEntryShard_valid (refs : Nat) : (oneEntryShard refs).Valid where
  pool := PoolInv.of_split (oneEntryShard refs).lru [] (List.append_nil _).symm
    (by by_cases hr : refs = 0 <;> simp [oneEntryShard, hr])
    (by by_cases hr : refs = 0 <;> simp [oneEntryShard, hr]) (by simp [oneEntryShard])
    (by simp) rfl
  lruUsage_eq := by by_cases hr : refs = 0 <;> simp [oneEntryShard, chargeSum, hr]
  table := {
    length_pow := ⟨4, rfl⟩
    mem_bucket := fun i h hh => by
      cases i with
      | zero => rfl
      | succ i =>
          simp only [oneEntryShard, List.getD_eq_getElem?_getD, List.getElem?_set,
            List.getElem?_replicate] at hh
          rw [if_neg (by omega)] at hh
          split at hh <;> simp at hh
    elems_eq := rfl
    keys_nodup := by simp [oneEntryShard_handles] }
  handle h := by
    rw [oneEntryShard_view]
    split_ifs
    · exact ⟨fun _ => ⟨rfl, rfl⟩, fun hl => ⟨rfl, of_decide_eq_true hl⟩,
        fun _ hr0 => decide_eq_true hr0, fun _ _ _ => rfl, fun hf => absurd hf (by simp)⟩
    · exact HandleView.Consistent.of_out rfl rfl rfl fun h => absurd h (by simp)
  freed_nodup := List.nodup_nil
  usage_eq := by
    rw [chargedUsage]
    show 1 = ∑ h ∈ Finset.range 1, _
    rw [Finset.sum_range_one, oneEntryShard_view]
    simp [HandleView.usage]
  highPriPoolCapacity_eq := by simp [oneEntryShard, highPriPoolCapacityFor]
  ratio_nonneg := le_rfl
  lru_nil hover := absurd hover (by simp [oneEntryShard])

/-- `Lookup` returns the first handle of the table with the key and its hash, and takes a
reference on it, off the list if nobody held it; with no such handle the shard stays as it
was. -/
theorem Valid.lookup (hv : s.Valid) (key : α) (hash : UInt32) :
    ∃ s', s.lookup key hash = .ok (s', s.table.handles.find? (keyMatches s.heap key hash)) ∧
      s'.Valid ∧ (s.table.handles.find? (keyMatches s.heap key hash) = none → s' = s) ∧
      ∀ e, s.table.handles.find? (keyMatches s.heap key hash) = some e → s.LookupSpec e s' := by
  unfold LRUCacheShard.lookup
  rw [hv.table.lookup_eq]
  cases hf : s.table.handles.find? (keyMatches s.heap key hash) with
  | none => exact ⟨s, rfl, hv, fun _ => rfl, fun _ h => by cases h⟩
  | some e =>
      have hin : e ∈ s.table.handles := List.mem_of_find?_eq_some hf
      dsimp only
      rw [if_neg (by simp [hv.inCache_of_mem_table hin])]
      by_cases hr : (s.heap e).refs = 0
      · -- an entry with no reference leaves the list
        have hlru := hv.mem_lru_of_refs hin hr
        rw [if_pos hr, hv.pool.lruRemove_eq hlru]
        refine ⟨_, rfl, hv.takeRef_listed hlru (fun _ => rfl) (Nat.succ_pos _), nofun,
          fun e' he' => ?_⟩
        cases he'
        exact ⟨by rw [heap_modifyHandle_self]; rfl, by rw [heap_modifyHandle_self], rfl,
          fun h hne => heap_modifyHandle_of_ne _ hne, rfl, rfl⟩
      · -- a referenced entry is not on the list
        rw [if_neg hr]
        refine ⟨_, rfl, hv.modifyRefs (hv.lt_of_mem_table hin) (Nat.pos_of_ne_zero hr)
          (fun _ => rfl) (Nat.succ_pos _), nofun, fun e' he' => ?_⟩
        cases he'
        exact ⟨by rw [heap_modifyHandle_self], by rw [heap_modifyHandle_self],
          (List.erase_of_not_mem (hv.not_mem_lru_of_refs_pos (Nat.pos_of_ne_zero hr))).symm,
          fun h hne => heap_modifyHandle_of_ne _ hne, rfl, rfl⟩

theorem lookup_of_cached_entry :
    ((oneEntryShard 0).table.handles.find? (keyMatches (oneEntryShard 0).heap 0 0) = some 0 ∧
      ∃ s', (oneEntryShard 0).lookup 0 0 = .ok (s',
          (oneEntryShard 0).table.handles.find? (keyMatches (oneEntryShard 0).heap 0 0)) ∧
        s'.Valid ∧
        ((oneEntryShard 0).table.handles.find? (keyMatches (oneEntryShard 0).heap 0 0) = none →
          s' = oneEntryShard 0) ∧
        ∀ e, (oneEntryShard 0).table.handles.find? (keyMatches (oneEntryShard 0).heap 0 0) =
          some e → (oneEntryShard 0).LookupSpec e s') ∧
    ((oneEntryShard 1).table.handles.find? (keyMatches (oneEntryShard 1).heap 0 0) = some 0 ∧
      ∃ s', (oneEntryShard 1).lookup 0 0 = .ok (s',
          (oneEntryShard 1).table.handles.find? (keyMatches (oneEntryShard 1).heap 0 0)) ∧
        s'.Valid ∧
        ((oneEntryShard 1).table.handles.find? (keyMatches (oneEntryShard 1).heap 0 0) = none →
          s' = oneEntryShard 1) ∧
        ∀ e, (oneEntryShard 1).table.handles.find? (keyMatches (oneEntryShard 1).heap 0 0) =
          some e → (oneEntryShard 1).LookupSpec e s') :=
  ⟨⟨by decide, Valid.lookup (oneEntryShard_valid 0) 0 0⟩,
    ⟨by decide, Valid.lookup (oneEntryShard_valid 1) 0 0⟩⟩

/-- `Erase` leaves no handle with the key in the table: the one there was leaves the table and
the cache, and is freed if nobody holds it. Without one, the list, `usage_` and the freed
handles stay as they were. -/
theorem Valid.erase (hv : s.Valid) (key : α) (hash : UInt32) :
    ∃ s', s.erase key hash = .ok s' ∧ s'.Valid ∧
      s'.table.handles.find? (keyMatches s'.heap key hash) = none ∧
      (s.table.handles.find? (keyMatches s.heap key hash) = none →
        s'.lru = s.lru ∧ s'.usage = s.usage ∧ s'.freed = s.freed) ∧
      ∀ e, s.table.handles.find? (keyMatches s.heap key hash) = some e → s.EraseSpec e s' := by
  obtain ⟨hfound, hwf, hperm⟩ := hv.table.remove key hash
  unfold LRUCacheShard.erase
  cases hf : s.table.handles.find? (keyMatches s.heap key hash) with
  | none =>
      -- nothing has the key: the table keeps its handles
      have hpair : s.table.remove s.heap key hash = ((s.table.remove s.heap key hash).1, none) :=
        Prod.ext rfl (hfound.trans hf)
      rw [hpair]
      rw [hfound, hf, Option.toList_none, List.append_nil] at hperm
      exact ⟨_, rfl, hv.withTable hwf fun h => hperm.mem_iff,
        List.find?_eq_none.mpr fun x hx => List.find?_eq_none.mp hf x (hperm.subset hx),
        fun _ => ⟨rfl, rfl, rfl⟩, fun _ h => absurd h.symm (Option.some_ne_none _)⟩
  | some e =>
      have hpair : s.table.remove s.heap key hash = ((s.table.remove s.heap key hash).1, some e) :=
        Prod.ext rfl (hfound.trans hf)
      have hin : e ∈ s.table.handles := List.mem_of_find?_eq_some hf
      have hkey : keyOf s.heap e = (key, hash) := by
        simpa [keyMatches] using List.find?_some hf
      obtain ⟨rfl, rfl⟩ := Prod.mk.inj hkey
      have hmem := hv.table.mem_remove_keyOf hin
      have hnottab : e ∉ (s.table.remove s.heap (s.heap e).key (s.heap e).hash).1.handles :=
        fun h => ((hmem e).mp h).2 rfl
      -- keys are unique in the table, so no other handle has the key of `e`
      have hnone : ∀ heap' : Nat → LRUHandle α,
          (∀ h, (heap' h).key = (s.heap h).key ∧ (heap' h).hash = (s.heap h).hash) →
          (s.table.remove s.heap (s.heap e).key (s.heap e).hash).1.handles.find?
            (keyMatches heap' (s.heap e).key (s.heap e).hash) = none := by
        intro heap' hsame
        refine List.find?_eq_none.mpr fun x hx hx' => ((hmem x).mp hx).2 ?_
        have hkx : keyOf s.heap x = keyOf s.heap e := by
          simpa [keyMatches, keyOf, (hsame x).1, (hsame x).2] using hx'
        exact hv.table.eq_of_keyOf_eq ((hmem x).mp hx).1 hin hkx
      rw [hpair]
      dsimp only
      rw [if_neg (by simp [hv.inCache_of_mem_table hin])]
      by_cases hr : (s.heap e).refs = 0
      · -- nobody holds it: it is on the list, and the call is a turn of the eviction loops
        have hlru := hv.mem_lru_of_refs hin hr
        have hb := hv.toBookkeeping.evictOne hlru
          (show s.Pending [] from ⟨List.nodup_nil, fun _ hh => absurd hh List.not_mem_nil⟩)
        rw [if_pos (by simpa [modifyHandle] using hr), PoolInv.lruRemove_eq ?_ ?_]
        · have hvalid : Valid { s.evictOne e with freed := (s.evictOne e).freed ++ [e] } :=
            ⟨hb.1.free_append hb.2, fun hover => absurd hlru (by
              have hfull : s.capacity < s.usage := lt_of_lt_of_le hover (Nat.sub_le _ _)
              simp [hv.lru_nil hfull])⟩
          refine ⟨_, free_eq _ e (by simpa [modifyHandle] using hr), ?_,
            hnone _ fun h => ?_, fun h => absurd h (Option.some_ne_none _), fun e' he' => ?_⟩
          · -- the state is the turn's, read at the handle `IN_CACHE` was cleared at
            convert hvalid using 2 <;> first | rfl | simp [modifyHandle, evictOne]
          · by_cases hh : h = e <;> simp [modifyHandle, hh]
          · cases he'
            exact ⟨hnottab, by simp [modifyHandle], rfl,
              fun _ => ⟨by simp [modifyHandle], rfl⟩,
              fun h0 => absurd hr (Nat.pos_iff_ne_zero.mp h0)⟩
        · exact hv.pool.of_eq rfl rfl (fun h => (clearInCache_fields h).2.2.2)
            (fun h => (clearInCache_fields h).1) rfl
        · exact hlru
      · -- a holder keeps it, out of the cache and of the table
        rw [if_neg (by simpa [modifyHandle] using hr)]
        have hnotlru : e ∉ s.lru := hv.not_mem_lru_of_refs_pos (Nat.pos_of_ne_zero hr)
        have hnotfreed : e ∉ s.freed := fun hfr => hr (hv.freed_facts hfr).2.1
        -- `e` is held, out of the table, off the list and not freed: it keeps its charge
        have hview : ({ s with table := (s.table.remove s.heap (s.heap e).key (s.heap e).hash).1 }
            |>.modifyHandle e fun h => { h with inCache := false }).view e =
            ⟨decide (e < s.nextHandle), false, false, false, (s.heap e).refs, false,
              (s.heap e).charge⟩ := by
          simp only [view, modifyHandle, Function.update_self, hnottab, hnotlru, hnotfreed,
            decide_false]
          rfl
        have hf' := clearInCache_fields (s := { s with
          table := (s.table.remove s.heap (s.heap e).key (s.heap e).hash).1 }) (e := e)
        refine ⟨_, rfl, ⟨hv.of_change_at (hv.lt_of_mem_table hin) rfl rfl (fun h hne => ?_) ?_
          (hv.pool.of_eq rfl rfl (fun h => (hf' h).2.2.2) (fun h => (hf' h).1) rfl)
          (by rw [chargeSum_congr _ fun h => (hf' h).1]; exact hv.lruUsage_eq)
          (hwf.congr fun h _ => ⟨(hf' h).2.1, (hf' h).2.2.1⟩) ?_ hv.highPriPoolCapacity_eq
          hv.ratio_nonneg, hv.lru_nil⟩,
          hnone _ fun h => ⟨(hf' h).2.1, (hf' h).2.2.1⟩,
          fun h => absurd h (Option.some_ne_none _),
          fun e' he' => ?_⟩
        · rw [view_modifyHandle_of_ne _ hne]
          exact view_eq_of Iff.rfl ((hmem h).trans (and_iff_left hne)) Iff.rfl Iff.rfl rfl rfl rfl
        · rw [hview]
          exact ⟨by simp, by simp, by simp, by simp, by simp⟩
        · rw [hview]
          simp [HandleView.usage, view, hin, Nat.pos_of_ne_zero hr, modifyHandle]
        · cases he'
          exact ⟨hnottab, by rw [heap_modifyHandle_self], (List.erase_of_not_mem hnotlru).symm,
            fun h0 => absurd h0 hr, fun _ => ⟨rfl, rfl⟩⟩

theorem erase_of_cached_entry :
    ((oneEntryShard 0).table.handles.find? (keyMatches (oneEntryShard 0).heap 0 0) = some 0 ∧
      ∃ s', (oneEntryShard 0).erase 0 0 = .ok s' ∧ s'.Valid ∧
        s'.table.handles.find? (keyMatches s'.heap 0 0) = none ∧
        ((oneEntryShard 0).table.handles.find? (keyMatches (oneEntryShard 0).heap 0 0) = none →
          s'.lru = (oneEntryShard 0).lru ∧ s'.usage = (oneEntryShard 0).usage ∧
            s'.freed = (oneEntryShard 0).freed) ∧
        ∀ e, (oneEntryShard 0).table.handles.find? (keyMatches (oneEntryShard 0).heap 0 0) =
          some e → (oneEntryShard 0).EraseSpec e s') ∧
    ((oneEntryShard 1).table.handles.find? (keyMatches (oneEntryShard 1).heap 0 0) = some 0 ∧
      ∃ s', (oneEntryShard 1).erase 0 0 = .ok s' ∧ s'.Valid ∧
        s'.table.handles.find? (keyMatches s'.heap 0 0) = none ∧
        ((oneEntryShard 1).table.handles.find? (keyMatches (oneEntryShard 1).heap 0 0) = none →
          s'.lru = (oneEntryShard 1).lru ∧ s'.usage = (oneEntryShard 1).usage ∧
            s'.freed = (oneEntryShard 1).freed) ∧
        ∀ e, (oneEntryShard 1).table.handles.find? (keyMatches (oneEntryShard 1).heap 0 0) =
          some e → (oneEntryShard 1).EraseSpec e s') :=
  ⟨⟨by decide, Valid.erase (oneEntryShard_valid 0) 0 0⟩,
    ⟨by decide, Valid.erase (oneEntryShard_valid 1) 0 0⟩⟩

/-- `Release` of a handle the caller holds gives a reference back and keeps the invariant, as
`ReleaseSpec` says. -/
theorem Valid.release (hv : s.Valid) (hlt : e < s.nextHandle) (hr : 0 < (s.heap e).refs)
    (forceErase : Bool) :
    ∃ s' lastReference, s.release e forceErase = .ok (s', lastReference) ∧ s'.Valid ∧
      s.ReleaseSpec e forceErase s' lastReference := by
  have hnotfreed : e ∉ s.freed := fun hfr => (Nat.pos_iff_ne_zero.mp hr) (hv.freed_facts hfr).2.1
  have hnotlru : e ∉ s.lru := hv.not_mem_lru_of_refs_pos hr
  unfold LRUCacheShard.release
  rw [if_neg (Nat.pos_iff_ne_zero.mp hr)]
  dsimp only
  have h1r : ((s.modifyHandle e fun h => { h with refs := h.refs - 1 }).heap e).refs =
      (s.heap e).refs - 1 := by rw [heap_modifyHandle_self]
  -- the reference count alone moves: keys, charges and flags stay
  have hf := RefsOnly.fields (s := s) (e := e)
    (g := fun h => { h with refs := h.refs - 1 }) (fun _ => rfl)
  have h1c := (hf e).2.2.2.1
  by_cases hlast : (s.heap e).refs = 1
  · by_cases hc : (s.heap e).inCache = true
    · have hin : e ∈ s.table.handles := hv.mem_table_of_referenced hlt hr hc
      rw [if_pos ⟨by rw [h1r, hlast], by rw [h1c, hc]⟩]
      by_cases hfull : s.usage > s.capacity ∨ forceErase = true
      · -- the cache is full or the caller asks: the handle leaves the cache and is freed
        have hassert : ¬(!decide (s.lru = [] ∨ forceErase = true)) = true := by
          rcases hfull with hfull | hfull
          · simp [hv.lru_nil hfull]
          · simp [hfull]
        rw [if_pos (by exact hfull), if_neg (by exact hassert)]
        have hf2 :=
          clearInCache_fields (s := s.modifyHandle e fun h => { h with refs := h.refs - 1 })
            (e := e)
        have hheap : ∀ h, h ≠ e →
            (((s.modifyHandle e fun h => { h with refs := h.refs - 1 }).modifyHandle e
              fun h => { h with inCache := false }).heap h) = s.heap h := fun h hne =>
          (heap_modifyHandle_of_ne _ hne).trans (heap_modifyHandle_of_ne _ hne)
        -- the table without `e`, searched with the heap of the call
        have hw1 : s.table.WF (s.modifyHandle e fun h => { h with refs := h.refs - 1 }).heap :=
          hv.table.congr fun h _ => ⟨(hf h).2.1, (hf h).2.2.1⟩
        have hwf := (hw1.remove
          ((s.modifyHandle e fun h => { h with refs := h.refs - 1 }).heap e).key
          ((s.modifyHandle e fun h => { h with refs := h.refs - 1 }).heap e).hash).2.1
        have hmem := hw1.mem_remove_keyOf hin
        have hnottab := fun h => ((hmem e).mp h).2 rfl
        have hviewold : (s.view e).usage = (s.heap e).charge := by
          simp [HandleView.usage, view, hin]
        have hrefs0 : (((s.modifyHandle e fun h => { h with refs := h.refs - 1 }).modifyHandle
            e fun h => { h with inCache := false }).heap e).refs = 0 := by
          rw [heap_modifyHandle_self]
          exact h1r.trans (by rw [hlast])
        have hcache0 : (((s.modifyHandle e fun h => { h with refs := h.refs - 1 }).modifyHandle
            e fun h => { h with inCache := false }).heap e).inCache = false := by
          rw [heap_modifyHandle_self]
        have hb : Bookkeeping
            { ((s.modifyHandle e fun h => { h with refs := h.refs - 1 }).modifyHandle
              e fun h => { h with inCache := false }) with
            table := (s.table.remove (s.modifyHandle e fun h => { h with refs := h.refs - 1 }).heap
              ((s.modifyHandle e fun h => { h with refs := h.refs - 1 }).heap e).key
              ((s.modifyHandle e fun h => { h with refs := h.refs - 1 }).heap e).hash).1
            usage := s.usage - (s.heap e).charge } :=
          hv.of_change_at hlt rfl rfl
            (fun h hne => view_eq_of Iff.rfl ((hmem h).trans (and_iff_left hne)) Iff.rfl Iff.rfl
              (by rw [hheap h hne]) (by rw [hheap h hne]) (by rw [hheap h hne]))
            (HandleView.Consistent.of_out (decide_eq_false hnottab) (decide_eq_false hnotlru)
              (decide_eq_false hnotfreed) fun _ h0 => absurd h0 (by simp [view, hrefs0]))
            (hv.pool.of_eq rfl rfl (fun h => (hf2 h).2.2.2.trans (hf h).2.2.2.2)
              (fun h => (hf2 h).1.trans (hf h).1) rfl)
            (hv.lruUsage_eq.trans
              (chargeSum_congr s.lru fun h => (hf2 h).1.trans (hf h).1).symm)
            (hwf.congr fun h _ => ⟨(hf2 h).2.1, (hf2 h).2.2.1⟩)
            (by
              rw [hviewold]
              have hle := hv.charge_le_usage hin
              rw [HandleView.usage, if_neg]
              · show s.usage - (s.heap e).charge + _ = _
                omega
              · rintro (ht | ⟨h0, -⟩)
                · exact hnottab (of_decide_eq_true ht)
                · exact absurd h0 (by simp [view, hrefs0]))
            hv.highPriPoolCapacity_eq hv.ratio_nonneg
        refine ⟨_, true, ?_,
          hv.free_pending hb ⟨hlt, hnottab, hrefs0, hcache0, hnotfreed⟩ rfl rfl
            (Nat.sub_le _ _),
          ReleaseSpec.of_erased hlast hc hfull (hrefs0.trans (by omega)) (by simp)
            ⟨rfl, hnottab, hcache0, rfl, rfl⟩⟩
        simp [free, modifyHandle, hlast]
        rfl
      · -- the handle goes back on the list
        rw [if_neg (by exact hfull)]
        have hp1 : (s.modifyHandle e fun h => { h with refs := h.refs - 1 }).PoolInv :=
          hv.pool.of_eq rfl rfl (fun h => (hf h).2.2.2.2) (fun h => (hf h).1) rfl
        obtain ⟨s', hins, hp', hframe, hperm, hlu'⟩ :=
          hp1.lruInsert hnotlru hv.highPriPoolCapacity_nonneg
        rw [hins]
        have hcharge : ∀ h, (s'.heap h).charge = (s.heap h).charge := fun h =>
          (hframe.charge h).trans (hf h).1
        have hlt' : e < s'.nextHandle := by rw [hframe.nextHandle]; exact hlt
        have he_tab : e ∈ s'.table.handles := by rw [hframe.table]; exact hin
        have he_lru : e ∈ s'.lru := hperm.mem_iff.mpr (by simp)
        have he_refs : (s'.heap e).refs = 0 := by rw [hframe.refs, h1r, hlast]
        have he_cache : (s'.heap e).inCache = true := by rw [hframe.inCache, h1c, hc]
        have hlu2 : s'.lruUsage = s'.chargeSum s'.lru := by
          rw [chargeSum_congr _ hcharge, chargeSum, (hperm.map _).sum_eq, hlu', (hf e).1]
          simp [modifyHandle, hv.lruUsage_eq, chargeSum]
        have hb : s'.Bookkeeping :=
          hv.of_change_at hlt hframe.nextHandle hframe.freed
            (fun h hne => view_eq_of (Iff.of_eq (congrArg (h < ·) hframe.nextHandle))
              (Iff.of_eq (congrArg (h ∈ LRUHandleTable.handles ·) hframe.table))
              (hperm.mem_iff.trans (by simp [hne, modifyHandle]))
              (Iff.of_eq (congrArg (h ∈ ·) hframe.freed))
              (by rw [hframe.refs, heap_modifyHandle_of_ne _ hne])
              (by rw [hframe.inCache, heap_modifyHandle_of_ne _ hne])
              (by rw [hframe.charge, heap_modifyHandle_of_ne _ hne]))
            ⟨fun _ => ⟨by simpa [view] using hlt', by simpa [view] using he_cache⟩,
              fun _ => ⟨by simpa [view] using he_tab, by simpa [view] using he_refs⟩,
              fun _ _ => by simpa [view] using he_lru,
              fun _ h0 _ => absurd h0 (by simp [view, he_refs]),
              fun hfr => absurd hfr (by simp [view, hframe.freed, hnotfreed, modifyHandle])⟩
            hp' hlu2
            (by rw [hframe.table]; exact hv.table.congr fun h _ =>
              ⟨(hframe.key h).trans (hf h).2.1, (hframe.hash h).trans (hf h).2.2.1⟩)
            (by
              rw [hframe.usage]
              simp [HandleView.usage, view, hin, he_tab, hcharge, modifyHandle])
            (by rw [hframe.highPriPoolCapacity, hframe.capacity, hframe.highPriPoolRatio]
                exact hv.highPriPoolCapacity_eq)
            (by rw [hframe.highPriPoolRatio]; exact hv.ratio_nonneg)
        refine ⟨s', false, rfl, ⟨hb, fun hover => absurd (Or.inl ?_) hfull⟩,
          ReleaseSpec.of_relisted hlast hc hfull (by rw [he_refs, hlast]) ?_
            ⟨rfl, hperm, hframe.table, hframe.usage⟩⟩
        · rw [hframe.capacity, hframe.usage] at hover
          exact hover
        · rw [hframe.freed]
          simp [modifyHandle, hnotfreed]
    · -- the handle left the cache before: its charge leaves `usage_` and it is freed
      rw [if_neg fun h => hc (h1c ▸ h.2)]
      have hnottab : e ∉ s.table.handles := fun h => hc (hv.inCache_of_mem_table h)
      have hviewold : (s.view e).usage = (s.heap e).charge := by
        simp [HandleView.usage, view, hr, Bool.eq_false_iff.mpr hc]
      have hle := hviewold ▸ hv.view_usage_le hlt
      have hb : Bookkeeping { s.modifyHandle e (fun h => { h with refs := h.refs - 1 }) with
          usage := s.usage - (s.heap e).charge } :=
        hv.of_change_at hlt rfl rfl
          (fun h hne => view_modifyHandle_of_ne (s := s) (fun h => { h with refs := h.refs - 1 })
            hne)
          (by
            refine HandleView.Consistent.of_out ?_ ?_ ?_ fun _ h0 => absurd h0 ?_ <;>
              simp [view, modifyHandle, hnottab, hnotlru, hnotfreed, hlast])
          (hv.pool.of_eq rfl rfl (fun h => (hf h).2.2.2.2) (fun h => (hf h).1) rfl)
          (hv.lruUsage_eq.trans (chargeSum_congr s.lru fun h => (hf h).1).symm)
          (hv.table.congr fun h _ => ⟨(hf h).2.1, (hf h).2.2.1⟩)
          (by
            rw [hviewold]
            simp [HandleView.usage, view, modifyHandle, hnottab, hlast]
            omega)
          hv.highPriPoolCapacity_eq hv.ratio_nonneg
      refine ⟨_, true, ?_, hv.free_pending (e := e) hb
        (by simp [modifyHandle, hlt, hnottab, hlast, Bool.eq_false_iff.mpr hc, hnotfreed]) rfl rfl
        (Nat.sub_le _ _),
        ReleaseSpec.of_uncached hlast (Bool.eq_false_iff.mpr hc) h1r (by simp)
          ⟨rfl, rfl, rfl⟩⟩
      simp [free, modifyHandle, hlast]
      rfl
  · -- other references remain
    rw [if_neg fun h => hlast (by have := h1r ▸ h.1; omega)]
    have hd : decide (((s.modifyHandle e fun h => { h with refs := h.refs - 1 }).heap e).refs =
        0) = false := by
      rw [h1r, decide_eq_false_iff_not]
      omega
    refine ⟨s.modifyHandle e fun h => { h with refs := h.refs - 1 }, false, by simp [hd]; rfl,
      hv.modifyRefs hlt hr (fun _ => rfl) ?_,
      ReleaseSpec.of_held (by omega) h1r (by simp [modifyHandle, hnotfreed])
        ⟨rfl, rfl, rfl, rfl⟩⟩
    show 0 < (s.heap e).refs - 1
    omega

/-- A shard whose one handle, `0`, a caller still holds after it left the cache. -/
def heldShard : LRUCacheShard Nat where
  capacity := 0
  highPriPoolUsage := 0
  strictCapacityLimit := false
  highPriPoolRatio := 0
  highPriPoolCapacity := 0
  usage := 1
  lruUsage := 0
  lru := []
  lruLowPri := 0
  table := LRUHandleTable.new
  heap := fun _ => ⟨0, 0, 1, 1, false, false, false, false⟩
  nextHandle := 1
  freed := []

theorem heldShard_valid : heldShard.Valid where
  pool := PoolInv.of_split [] [] rfl rfl List.nodup_nil (by simp) (by simp) rfl
  lruUsage_eq := rfl
  table := new_wf
  handle h := HandleView.Consistent.of_out
    (by simp [view, heldShard, handles, LRUHandleTable.new]) rfl rfl fun _ _ => rfl
  freed_nodup := List.nodup_nil
  usage_eq := by simp [chargedUsage, view, HandleView.usage, heldShard]
  highPriPoolCapacity_eq := (highPriPoolCapacityFor_zero 0).symm
  ratio_nonneg := le_rfl
  lru_nil _ := rfl

theorem release_of_each_branch :
    (0 < (oneEntryShard 2).nextHandle ∧ 0 < ((oneEntryShard 2).heap 0).refs ∧
      ∃ s' lastReference, (oneEntryShard 2).release 0 false = .ok (s', lastReference) ∧
        s'.Valid ∧ (oneEntryShard 2).ReleaseSpec 0 false s' lastReference) ∧
    (0 < (oneEntryShard 1).nextHandle ∧ 0 < ((oneEntryShard 1).heap 0).refs ∧
      ∃ s' lastReference, (oneEntryShard 1).release 0 false = .ok (s', lastReference) ∧
        s'.Valid ∧ (oneEntryShard 1).ReleaseSpec 0 false s' lastReference) ∧
    (0 < (oneEntryShard 1).nextHandle ∧ 0 < ((oneEntryShard 1).heap 0).refs ∧
      ∃ s' lastReference, (oneEntryShard 1).release 0 true = .ok (s', lastReference) ∧
        s'.Valid ∧ (oneEntryShard 1).ReleaseSpec 0 true s' lastReference) ∧
    (0 < heldShard.nextHandle ∧ 0 < (heldShard.heap 0).refs ∧
      ∃ s' lastReference, heldShard.release 0 false = .ok (s', lastReference) ∧ s'.Valid ∧
        heldShard.ReleaseSpec 0 false s' lastReference) :=
  ⟨⟨by decide, by decide,
      Valid.release (oneEntryShard_valid 2) (by decide) (by decide) false⟩,
    ⟨by decide, by decide, Valid.release (oneEntryShard_valid 1) (by decide) (by decide) false⟩,
    ⟨by decide, by decide, Valid.release (oneEntryShard_valid 1) (by decide) (by decide) true⟩,
    ⟨by decide, by decide, Valid.release heldShard_valid (by decide) (by decide) false⟩⟩

end Calls

end LRUCacheShard

end RocksCloud.Cache
