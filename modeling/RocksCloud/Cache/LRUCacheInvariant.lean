import Mathlib
import RocksCloud.Cache.LRUHandleTableSpec
import RocksCloud.Cache.LRUList

/-!
# The bookkeeping of an LRU cache shard

What an `LRUCacheShard` records of a handle is its `view`: whether it was allocated, whether it
is in the table, on the list or freed, its references, its `IN_CACHE` flag and its charge. The
code keeps the views `Consistent`: a handle in the table is in the cache, and on the list
exactly when nobody references it; a referenced handle in the cache is in the table; a freed
handle has no reference and is out of the cache. `usage_` is the sum of the charges of the
handles in the table and of those still referenced after they left it (`chargedUsage`).

`Bookkeeping` gathers these with the invariants of the list (`PoolInv`), `lru_usage_`, the
table (`LRUHandleTable.WF`) and the freed handles, each freed once; `Valid` adds that the list
is empty whenever the cache is over its capacity, which `Release` asserts.

The loops of `EvictFromLRU` and `EraseUnRefEntries` take the oldest handle off the list, out
of the table and out of the cache, one turn at a time (`evictOne`); each turn keeps the
bookkeeping (`Bookkeeping.evictOne`), and the loops end with the charge fitting or the list
empty. The handles they collect are `Pending`, and `Free` records them as freed. On top of
these, the calls that change no handle but through these loops are shown to keep `Valid`:
`SetCapacity`, the constructor, `SetStrictCapacityLimit`, `SetHighPriorityPoolRatio` and
`EraseUnRefEntries`.
-/

set_option autoImplicit false

namespace RocksCloud.Cache

/-- What a shard records of one handle. -/
structure HandleView where
  allocated : Bool
  inTable : Bool
  onList : Bool
  isFreed : Bool
  refs : Nat
  inCache : Bool
  charge : Nat
  deriving DecidableEq, Repr

namespace HandleView

/-- The states a handle can be in. -/
structure Consistent (v : HandleView) : Prop where
  table : v.inTable = true → v.allocated = true ∧ v.inCache = true
  list : v.onList = true → v.inTable = true ∧ v.refs = 0
  unreferenced : v.inTable = true → v.refs = 0 → v.onList = true
  referenced : v.allocated = true → 0 < v.refs → v.inCache = true → v.inTable = true
  freed : v.isFreed = true → v.allocated = true ∧ v.refs = 0 ∧ v.inCache = false

/-- The charge a handle adds to `usage_`: its charge while it is in the table, or referenced
after it left the cache. -/
def usage (v : HandleView) : Nat :=
  if v.inTable = true ∨ (0 < v.refs ∧ v.inCache = false) then v.charge else 0

/-- A handle outside the table, the list and the freed handles is consistent when it is not
referenced and in the cache at once. -/
theorem Consistent.of_out {v : HandleView} (ht : v.inTable = false) (hl : v.onList = false)
    (hf : v.isFreed = false) (hr : v.allocated = true → 0 < v.refs → v.inCache = false) :
    v.Consistent where
  table h := absurd h (by simp [ht])
  list h := absurd h (by simp [hl])
  unreferenced h := absurd h (by simp [ht])
  referenced ha hr' hc := absurd (hr ha hr') (by simp [hc])
  freed h := absurd h (by simp [hf])

end HandleView

/-- Two sums over `range n` that differ only at the points of `t`. -/
theorem sum_range_add_sum_eq {f g : Nat → Nat} {n : Nat} {t : Finset Nat}
    (ht : t ⊆ Finset.range n) (heq : ∀ x < n, x ∉ t → f x = g x) :
    ∑ x ∈ Finset.range n, f x + ∑ x ∈ t, g x = ∑ x ∈ Finset.range n, g x + ∑ x ∈ t, f x := by
  rw [← Finset.sum_sdiff ht (f := f), ← Finset.sum_sdiff ht (f := g)]
  have hrest : ∑ x ∈ Finset.range n \ t, f x = ∑ x ∈ Finset.range n \ t, g x :=
    Finset.sum_congr rfl fun x hx => by
      obtain ⟨hxn, hxt⟩ := Finset.mem_sdiff.mp hx
      exact heq x (Finset.mem_range.mp hxn) hxt
  rw [hrest]
  ring

namespace LRUCacheShard

open LRUHandleTable

variable {α : Type}

/-- The view of the handle `h`. -/
def view (s : LRUCacheShard α) (h : Nat) : HandleView where
  allocated := decide (h < s.nextHandle)
  inTable := decide (h ∈ s.table.handles)
  onList := decide (h ∈ s.lru)
  isFreed := decide (h ∈ s.freed)
  refs := (s.heap h).refs
  inCache := (s.heap h).inCache
  charge := (s.heap h).charge

/-- The sum `usage_` should be: the charges of the allocated handles, each as `usage` counts
it. -/
def chargedUsage (s : LRUCacheShard α) : Nat :=
  ∑ h ∈ Finset.range s.nextHandle, (s.view h).usage

/-- The capacity of the high-priority pool is not negative when its ratio is not. -/
theorem highPriPoolCapacityFor_nonneg {capacity : Nat} {ratio : ℚ} (hratio : 0 ≤ ratio) :
    0 ≤ highPriPoolCapacityFor capacity ratio :=
  Lib.roundBinary64_nonneg (mul_nonneg (Lib.roundBinary64_nonneg (Nat.cast_nonneg _)) hratio)

theorem highPriPoolCapacityFor_zero (ratio : ℚ) : highPriPoolCapacityFor 0 ratio = 0 := by
  simp [highPriPoolCapacityFor]

/-- The bookkeeping of a shard. -/
structure Bookkeeping (s : LRUCacheShard α) : Prop where
  pool : s.PoolInv
  lruUsage_eq : s.lruUsage = s.chargeSum s.lru
  table : s.table.WF s.heap
  handle : ∀ h, (s.view h).Consistent
  freed_nodup : s.freed.Nodup
  usage_eq : s.usage = s.chargedUsage
  highPriPoolCapacity_eq :
    s.highPriPoolCapacity = highPriPoolCapacityFor s.capacity s.highPriPoolRatio
  ratio_nonneg : 0 ≤ s.highPriPoolRatio

/-- The invariant of a shard between calls. -/
structure Valid (s : LRUCacheShard α) : Prop extends s.Bookkeeping where
  lru_nil : s.capacity < s.usage → s.lru = []

/-- Handles taken out of the cache and waiting for `Free`: each once, allocated, out of the
table, with no reference and `IN_CACHE` off, and not freed yet. -/
structure Pending (s : LRUCacheShard α) (l : List Nat) : Prop where
  nodup : l.Nodup
  mem : ∀ h ∈ l, h < s.nextHandle ∧ h ∉ s.table.handles ∧ (s.heap h).refs = 0 ∧
    (s.heap h).inCache = false ∧ h ∉ s.freed

section Views

variable {s s' : LRUCacheShard α}

/-- Two states record the same of a handle when its memberships and its fields agree. -/
theorem view_eq_of {h : Nat} (hn : h < s'.nextHandle ↔ h < s.nextHandle)
    (ht : h ∈ s'.table.handles ↔ h ∈ s.table.handles) (hl : h ∈ s'.lru ↔ h ∈ s.lru)
    (hf : h ∈ s'.freed ↔ h ∈ s.freed) (hr : (s'.heap h).refs = (s.heap h).refs)
    (hc : (s'.heap h).inCache = (s.heap h).inCache)
    (hch : (s'.heap h).charge = (s.heap h).charge) : s'.view h = s.view h := by
  simp only [view, hn, ht, hl, hf, hr, hc, hch]

/-- `usage_` against the views, when they change only at the handles of `t`. -/
theorem chargedUsage_add_eq (hn : s'.nextHandle = s.nextHandle) {t : Finset Nat}
    (ht : t ⊆ Finset.range s.nextHandle)
    (hsame : ∀ h < s.nextHandle, h ∉ t → (s'.view h).usage = (s.view h).usage) :
    s'.chargedUsage + ∑ h ∈ t, (s.view h).usage = s.chargedUsage + ∑ h ∈ t, (s'.view h).usage := by
  rw [chargedUsage, chargedUsage, hn]
  exact sum_range_add_sum_eq ht hsame

/-- `usage_` against the views, when they change only at `e`. -/
theorem chargedUsage_add_single (hn : s'.nextHandle = s.nextHandle) {e : Nat}
    (he : e < s.nextHandle) (hsame : ∀ h, h ≠ e → s'.view h = s.view h) :
    s'.chargedUsage + (s.view e).usage = s.chargedUsage + (s'.view e).usage := by
  have h := chargedUsage_add_eq hn (t := {e}) (by simpa using he)
    (fun h _ hh => by rw [hsame h (by simpa using hh)])
  simpa using h

end Views

section Facts

variable {s : LRUCacheShard α} (hb : s.Bookkeeping)
include hb

theorem Bookkeeping.mem_table_of_mem_lru {h : Nat} (hh : h ∈ s.lru) : h ∈ s.table.handles := by
  simpa [view] using ((hb.handle h).list (by simpa [view] using hh)).1

theorem Bookkeeping.refs_of_mem_lru {h : Nat} (hh : h ∈ s.lru) : (s.heap h).refs = 0 :=
  ((hb.handle h).list (by simpa [view] using hh)).2

theorem Bookkeeping.inCache_of_mem_table {h : Nat} (hh : h ∈ s.table.handles) :
    (s.heap h).inCache = true :=
  ((hb.handle h).table (by simpa [view] using hh)).2

theorem Bookkeeping.lt_of_mem_table {h : Nat} (hh : h ∈ s.table.handles) : h < s.nextHandle := by
  simpa [view] using ((hb.handle h).table (by simpa [view] using hh)).1

theorem Bookkeeping.mem_lru_of_refs {h : Nat} (hh : h ∈ s.table.handles)
    (hr : (s.heap h).refs = 0) : h ∈ s.lru := by
  simpa [view] using (hb.handle h).unreferenced (by simpa [view] using hh) hr

theorem Bookkeeping.mem_table_of_referenced {h : Nat} (hn : h < s.nextHandle)
    (hr : 0 < (s.heap h).refs) (hc : (s.heap h).inCache = true) : h ∈ s.table.handles := by
  simpa [view] using (hb.handle h).referenced (by simpa [view] using hn) hr hc

theorem Bookkeeping.freed_facts {h : Nat} (hh : h ∈ s.freed) :
    h < s.nextHandle ∧ (s.heap h).refs = 0 ∧ (s.heap h).inCache = false := by
  simpa [view] using (hb.handle h).freed (by simpa [view] using hh)

theorem Bookkeeping.not_mem_lru_of_refs_pos {h : Nat} (hr : 0 < (s.heap h).refs) : h ∉ s.lru :=
  fun hh => absurd (hb.refs_of_mem_lru hh) (Nat.pos_iff_ne_zero.mp hr)

theorem Bookkeeping.highPriPoolCapacity_nonneg : 0 ≤ s.highPriPoolCapacity := by
  rw [hb.highPriPoolCapacity_eq]
  exact highPriPoolCapacityFor_nonneg hb.ratio_nonneg

theorem Bookkeeping.charge_le_usage {h : Nat} (hh : h ∈ s.table.handles) :
    (s.heap h).charge ≤ s.usage := by
  rw [hb.usage_eq, chargedUsage]
  have hle := Finset.single_le_sum (f := fun h => (s.view h).usage) (fun _ _ => Nat.zero_le _)
    (Finset.mem_range.mpr (hb.lt_of_mem_table hh))
  simpa [HandleView.usage, view, hh] using hle

end Facts

/-! ## `Free` -/

/-- `Free` of handles with no reference records them in order. -/
theorem freeAll_eq (s : LRUCacheShard α) :
    ∀ (l : List Nat), (∀ h ∈ l, (s.heap h).refs = 0) →
      s.freeAll l = .ok { s with freed := s.freed ++ l }
  | [], _ => by rw [List.append_nil]; rfl
  | e :: l, hl => by
      have he : ¬(s.heap e).refs ≠ 0 := not_not.mpr (hl e List.mem_cons_self)
      rw [freeAll, free, if_neg he]
      simp only [pure_bind]
      rw [freeAll_eq { s with freed := s.freed ++ [e] } l
        (fun h hh => hl h (List.mem_cons_of_mem _ hh))]
      simp

/-- Freeing pending handles keeps the bookkeeping. -/
theorem Bookkeeping.free_append {s : LRUCacheShard α} (hb : s.Bookkeeping) {l : List Nat}
    (hl : s.Pending l) : Bookkeeping { s with freed := s.freed ++ l } := by
  have hview : ∀ h, ({ s with freed := s.freed ++ l } : LRUCacheShard α).view h =
      { s.view h with isFreed := decide (h ∈ s.freed ∨ h ∈ l) } := fun h => by
    simp [view]
  refine ⟨hb.pool.of_eq rfl rfl (fun _ => rfl) (fun _ => rfl) rfl, hb.lruUsage_eq, hb.table,
    fun h => ?_, ?_, ?_, hb.highPriPoolCapacity_eq, hb.ratio_nonneg⟩
  · have hc := hb.handle h
    rw [hview]
    refine ⟨hc.table, hc.list, hc.unreferenced, hc.referenced, fun hf => ?_⟩
    rcases of_decide_eq_true hf with hf | hf
    · exact hc.freed (by simpa [view] using hf)
    · obtain ⟨hn, -, hr, hic, -⟩ := hl.mem h hf
      exact ⟨by simpa [view] using hn, hr, hic⟩
  · refine List.nodup_append.mpr ⟨hb.freed_nodup, hl.nodup, fun a ha b hb' hab => ?_⟩
    exact (hl.mem b hb').2.2.2.2 (hab ▸ ha)
  · have hsum : chargedUsage ({ s with freed := s.freed ++ l } : LRUCacheShard α) =
        s.chargedUsage :=
      Finset.sum_congr rfl fun h _ => by rw [hview]; rfl
    exact hb.usage_eq.trans hsum.symm

/-- `Free` of the pending handles never fails, and keeps the invariant. -/
theorem Valid.freeAll {s : LRUCacheShard α} (hv : s.Valid) {l : List Nat} (hl : s.Pending l) :
    ∃ s', s.freeAll l = .ok s' ∧ s'.Valid :=
  ⟨_, freeAll_eq s l fun h hh => (hl.mem h hh).2.2.1,
    ⟨hv.free_append hl, hv.lru_nil⟩⟩

/-! ## The lists and sums that change with a handle -/

/-- The members of a list that with `a` is a permutation of a list without repeats. -/
theorem mem_of_perm_append_singleton {l m : List Nat} {a x : Nat} (hp : (l ++ [a]).Perm m)
    (hm : m.Nodup) : x ∈ l ↔ x ∈ m ∧ x ≠ a := by
  have hnodup : (l ++ [a]).Nodup := hp.nodup_iff.mpr hm
  have ha : a ∉ l := fun h => List.disjoint_of_nodup_append hnodup h (List.mem_singleton_self a)
  constructor
  · intro hx
    exact ⟨hp.subset (List.mem_append_left _ hx), fun h => ha (h ▸ hx)⟩
  · rintro ⟨hx, hne⟩
    rcases List.mem_append.mp (hp.symm.subset hx) with hx | hx
    · exact hx
    · exact absurd (List.mem_singleton.mp hx) hne

/-- The charges of a list, read in a heap with the same charges. -/
theorem chargeSum_congr {s s' : LRUCacheShard α} (l : List Nat)
    (hcharge : ∀ h, (s'.heap h).charge = (s.heap h).charge) : s'.chargeSum l = s.chargeSum l := by
  simp [chargeSum, hcharge]

/-- The bookkeeping carries over a call on the list that keeps the list and its usage. -/
theorem Bookkeeping.of_listFrame {s s' : LRUCacheShard α} (hb : s.Bookkeeping)
    (hf : ListFrame s s') (hp : s'.PoolInv) (hlru : s'.lru = s.lru)
    (hlu : s'.lruUsage = s.lruUsage) : s'.Bookkeeping := by
  have hview : ∀ h, s'.view h = s.view h := fun h =>
    view_eq_of (by rw [hf.nextHandle]) (by rw [hf.table]) (by rw [hlru]) (by rw [hf.freed])
      (hf.refs h) (hf.inCache h) (hf.charge h)
  refine ⟨hp, ?_, ?_, fun h => hview h ▸ hb.handle h, hf.freed ▸ hb.freed_nodup, ?_, ?_, ?_⟩
  · rw [hlu, hlru, chargeSum_congr _ hf.charge]
    exact hb.lruUsage_eq
  · rw [hf.table]
    exact hb.table.congr fun h _ => ⟨hf.key h, hf.hash h⟩
  · rw [hf.usage, hb.usage_eq, chargedUsage, chargedUsage, hf.nextHandle]
    exact Finset.sum_congr rfl fun h _ => by rw [hview h]
  · rw [hf.highPriPoolCapacity, hf.capacity, hf.highPriPoolRatio]
    exact hb.highPriPoolCapacity_eq
  · rw [hf.highPriPoolRatio]
    exact hb.ratio_nonneg

/-- What the eviction loops leave alone: the handles allocated, every handle off the list; the
list and the table only lose handles, and the handles collected were collected before or were
on the list. -/
structure EvictFrame (s s' : LRUCacheShard α) (deleted deleted' : List Nat) : Prop where
  nextHandle : s'.nextHandle = s.nextHandle
  lru : ∀ h ∈ s'.lru, h ∈ s.lru
  heap : ∀ h ∉ s.lru, s'.heap h = s.heap h
  table : ∀ h ∈ s'.table.handles, h ∈ s.table.handles
  deleted : ∀ h ∈ deleted', h ∈ deleted ∨ h ∈ s.lru

theorem EvictFrame.refl (s : LRUCacheShard α) (deleted : List Nat) :
    EvictFrame s s deleted deleted :=
  ⟨rfl, fun _ h => h, fun _ _ => rfl, fun _ h => h, fun _ h => Or.inl h⟩

theorem EvictFrame.trans {s₁ s₂ s₃ : LRUCacheShard α} {d₁ d₂ d₃ : List Nat}
    (h₁₂ : EvictFrame s₁ s₂ d₁ d₂) (h₂₃ : EvictFrame s₂ s₃ d₂ d₃) : EvictFrame s₁ s₃ d₁ d₃ where
  nextHandle := h₂₃.nextHandle.trans h₁₂.nextHandle
  lru h hh := h₁₂.lru h (h₂₃.lru h hh)
  heap h hh := (h₂₃.heap h fun h₂ => hh (h₁₂.lru h h₂)).trans (h₁₂.heap h hh)
  table h hh := h₁₂.table h (h₂₃.table h hh)
  deleted h hh := by
    rcases h₂₃.deleted h hh with hh | hh
    · exact h₁₂.deleted h hh
    · exact Or.inr (h₁₂.lru h hh)

/-! ## One turn of the eviction loops -/

section Evict

variable [DecidableEq α]

/-- One turn of the loops of `EvictFromLRU` and `EraseUnRefEntries`, past their `assert`s:
`old` off the list, out of the table and out of the cache. -/
def evictOne (s : LRUCacheShard α) (old : Nat) : LRUCacheShard α :=
  { (s.unlink old).modifyHandle old fun h => { h with inCache := false } with
    table := ((s.unlink old).table.remove (s.unlink old).heap ((s.unlink old).heap old).key
      ((s.unlink old).heap old).hash).1
    usage := (s.unlink old).usage - ((s.unlink old).heap old).charge }

variable {s : LRUCacheShard α} {old : Nat}

@[simp] theorem evictOne_lru : (s.evictOne old).lru = s.lru.erase old := rfl

@[simp] theorem evictOne_lruUsage :
    (s.evictOne old).lruUsage = s.lruUsage - (s.heap old).charge := rfl

@[simp] theorem evictOne_usage : (s.evictOne old).usage = s.usage - (s.heap old).charge := rfl

@[simp] theorem evictOne_nextHandle : (s.evictOne old).nextHandle = s.nextHandle := rfl

@[simp] theorem evictOne_freed : (s.evictOne old).freed = s.freed := rfl

@[simp] theorem evictOne_capacity : (s.evictOne old).capacity = s.capacity := rfl

@[simp] theorem evictOne_strictCapacityLimit :
    (s.evictOne old).strictCapacityLimit = s.strictCapacityLimit := rfl

@[simp] theorem evictOne_highPriPoolRatio :
    (s.evictOne old).highPriPoolRatio = s.highPriPoolRatio := rfl

@[simp] theorem evictOne_highPriPoolCapacity :
    (s.evictOne old).highPriPoolCapacity = s.highPriPoolCapacity := rfl

theorem evictOne_table :
    (s.evictOne old).table = (s.table.remove s.heap (s.heap old).key (s.heap old).hash).1 := rfl

theorem evictOne_heap :
    (s.evictOne old).heap = Function.update s.heap old { s.heap old with inCache := false } := rfl

theorem evictOne_heap_of_ne {h : Nat} (hne : h ≠ old) : (s.evictOne old).heap h = s.heap h := by
  rw [evictOne_heap, Function.update_of_ne hne]

theorem evictOne_heap_self :
    (s.evictOne old).heap old = { s.heap old with inCache := false } := by
  rw [evictOne_heap, Function.update_self]

/-- The table after a turn holds the handles before but `old`. -/
theorem Bookkeeping.mem_evictOne_table (hb : s.Bookkeeping) (hold : old ∈ s.lru) (h : Nat) :
    h ∈ (s.evictOne old).table.handles ↔ h ∈ s.table.handles ∧ h ≠ old := by
  have hin := hb.mem_table_of_mem_lru hold
  obtain ⟨hfind, -, hperm⟩ := hb.table.remove (s.heap old).key (s.heap old).hash
  rw [hfind, hb.table.find?_keyOf hin] at hperm
  rw [evictOne_table]
  exact mem_of_perm_append_singleton hperm hb.table.handles_nodup

/-- A turn of the eviction loops keeps the bookkeeping, and `old` joins the handles to free. -/
theorem Bookkeeping.evictOne (hb : s.Bookkeeping) (hold : old ∈ s.lru) {deleted : List Nat}
    (hd : s.Pending deleted) :
    (s.evictOne old).Bookkeeping ∧ (s.evictOne old).Pending (deleted ++ [old]) := by
  have hin := hb.mem_table_of_mem_lru hold
  have hcache := hb.inCache_of_mem_table hin
  have hrefs := hb.refs_of_mem_lru hold
  have hnotfreed : old ∉ s.freed := fun hf => by
    rw [(hb.freed_facts hf).2.2] at hcache
    cases hcache
  have hmem := hb.mem_evictOne_table hold
  have hcharge : ∀ h, ((s.evictOne old).heap h).charge = (s.heap h).charge := fun h => by
    by_cases hh : h = old
    · rw [hh, evictOne_heap_self]
    · rw [evictOne_heap_of_ne hh]
  -- every handle but `old` looks the same
  have hview : ∀ h, h ≠ old → (s.evictOne old).view h = s.view h := fun h hne =>
    view_eq_of Iff.rfl (by rw [hmem h]; exact and_iff_left hne)
      (by rw [evictOne_lru, hb.pool.nodup.mem_erase_iff]; exact and_iff_right hne) Iff.rfl
      (by rw [evictOne_heap_of_ne hne]) (by rw [evictOne_heap_of_ne hne]) (hcharge h)
  have hviewold : (s.evictOne old).view old =
      { s.view old with inTable := false, onList := false, inCache := false } := by
    have hnt : old ∉ (s.evictOne old).table.handles := fun h => ((hmem old).mp h).2 rfl
    have hnl : old ∉ (s.evictOne old).lru := by
      rw [evictOne_lru]
      exact hb.pool.nodup.not_mem_erase
    simp only [view, evictOne_nextHandle, evictOne_freed, evictOne_heap_self,
      decide_eq_false hnt, decide_eq_false hnl]
    rfl
  refine ⟨⟨?_, ?_, ?_, fun h => ?_, hb.freed_nodup, ?_, hb.highPriPoolCapacity_eq,
    hb.ratio_nonneg⟩, ⟨?_, fun h hh => ?_⟩⟩
  · refine (hb.pool.unlink hold).of_eq rfl rfl (fun h => ?_) (fun h => ?_) rfl
    · by_cases hh : h = old
      · rw [hh, evictOne_heap_self]
        rfl
      · rw [evictOne_heap_of_ne hh]
        rfl
    · exact hcharge h
  · rw [evictOne_lruUsage, evictOne_lru, chargeSum_congr _ hcharge, chargeSum_erase s hold,
      hb.lruUsage_eq]
  · obtain ⟨-, hwf, -⟩ := hb.table.remove (s.heap old).key (s.heap old).hash
    rw [evictOne_table]
    refine hwf.congr fun h _ => ?_
    by_cases hh : h = old
    · rw [hh, evictOne_heap_self]
      exact ⟨rfl, rfl⟩
    · rw [evictOne_heap_of_ne hh]
      exact ⟨rfl, rfl⟩
  · by_cases hh : h = old
    · rw [hh, hviewold]
      refine HandleView.Consistent.of_out rfl rfl ?_ fun _ hr => absurd hr (by simp [view, hrefs])
      simpa [view] using hnotfreed
    · rw [hview h hh]
      exact hb.handle h
  · -- `old` leaves the table, with its charge
    have hsum := chargedUsage_add_single evictOne_nextHandle (hb.lt_of_mem_table hin) hview
    rw [hviewold] at hsum
    have hold_usage : (s.view old).usage = (s.heap old).charge := by
      simp [HandleView.usage, view, hin]
    have hold_usage' : ({ s.view old with inTable := false, onList := false, inCache := false } :
        HandleView).usage = 0 := by
      simp [HandleView.usage, view, hrefs]
    rw [hold_usage, hold_usage', ← hb.usage_eq] at hsum
    rw [evictOne_usage]
    omega
  · refine List.nodup_append.mpr ⟨hd.nodup, List.nodup_singleton old, fun a ha b hb' hab => ?_⟩
    rw [List.mem_singleton.mp hb'] at hab
    exact (hd.mem a ha).2.1 (hab ▸ hin)
  · rcases List.mem_append.mp hh with hh | hh
    · obtain ⟨hn, ht, hr, hc, hf⟩ := hd.mem h hh
      have hne : h ≠ old := fun heq => ht (heq ▸ hin)
      exact ⟨hn, fun h' => ht ((hmem h).mp h').1, by rw [evictOne_heap_of_ne hne]; exact hr,
        by rw [evictOne_heap_of_ne hne]; exact hc, hf⟩
    · rw [List.mem_singleton.mp hh]
      exact ⟨hb.lt_of_mem_table hin, fun h' => ((hmem old).mp h').2 rfl,
        by rw [evictOne_heap_self]; exact hrefs, by rw [evictOne_heap_self], hnotfreed⟩

theorem Bookkeeping.evictFrame_evictOne (hb : s.Bookkeeping) (hold : old ∈ s.lru)
    (deleted : List Nat) : EvictFrame s (s.evictOne old) deleted (deleted ++ [old]) where
  nextHandle := rfl
  lru _ hh := List.mem_of_mem_erase hh
  heap _ hh := evictOne_heap_of_ne fun heq => hh (heq ▸ hold)
  table h hh := ((hb.mem_evictOne_table hold h).mp hh).1
  deleted h hh := by
    rcases List.mem_append.mp hh with hh | hh
    · exact Or.inl hh
    · exact Or.inr (List.mem_singleton.mp hh ▸ hold)

/-- The loop of `EvictFromLRU`, with a turn for each handle on the list: it never fails, keeps
the bookkeeping, and stops with `charge` fitting or the list empty. -/
theorem Bookkeeping.evictFromLRULoop (charge : Nat) :
    ∀ (fuel : Nat) (s : LRUCacheShard α) (deleted : List Nat), s.Bookkeeping →
      s.Pending deleted → s.lru.length ≤ fuel →
      ∃ s' deleted', evictFromLRULoop charge fuel s deleted = .ok (s', deleted') ∧
        s'.Bookkeeping ∧ s'.Pending deleted' ∧ (s'.usage + charge ≤ s'.capacity ∨ s'.lru = []) ∧
        EvictFrame s s' deleted deleted'
  | 0, s, deleted, hb, hd, hlen =>
      ⟨s, deleted, rfl, hb, hd, Or.inr (List.eq_nil_of_length_eq_zero (Nat.le_zero.mp hlen)),
        EvictFrame.refl s deleted⟩
  | fuel + 1, s, deleted, hb, hd, hlen => by
      rw [LRUCacheShard.evictFromLRULoop]
      split
      · rename_i old rest hlru
        have hold : old ∈ s.lru := hlru ▸ List.mem_cons_self
        split
        · -- over capacity: the oldest handle goes, past the `assert`
          have hin := hb.mem_table_of_mem_lru hold
          have hassert : ¬((!(s.heap old).inCache) = true ∨ (s.heap old).refs ≠ 0) := by
            simp [hb.inCache_of_mem_table hin, hb.refs_of_mem_lru hold]
          obtain ⟨hb₁, hd₁⟩ := hb.evictOne hold hd
          have hlen₁ : (s.evictOne old).lru.length ≤ fuel := by
            rw [evictOne_lru, List.length_erase_of_mem hold]
            omega
          obtain ⟨s', deleted', hloop, hb', hd', hfit, hf⟩ :=
            Bookkeeping.evictFromLRULoop charge fuel _ _ hb₁ hd₁ hlen₁
          dsimp only
          rw [if_neg hassert, hb.pool.lruRemove_eq hold]
          exact ⟨s', deleted', hloop, hb', hd', hfit,
            (hb.evictFrame_evictOne hold deleted).trans hf⟩
        · rename_i hfit
          exact ⟨s, deleted, rfl, hb, hd, Or.inl (Nat.not_lt.mp hfit), EvictFrame.refl s deleted⟩
      · rename_i hlru
        exact ⟨s, deleted, rfl, hb, hd, Or.inr hlru, EvictFrame.refl s deleted⟩

/-- The loop of `EraseUnRefEntries`, with a turn for each handle on the list: it never fails,
keeps the bookkeeping, and empties the list. -/
theorem Bookkeeping.eraseUnRefEntriesLoop :
    ∀ (fuel : Nat) (s : LRUCacheShard α) (list : List Nat), s.Bookkeeping → s.Pending list →
      s.lru.length ≤ fuel →
      ∃ s' list', eraseUnRefEntriesLoop fuel s list = .ok (s', list') ∧
        s'.Bookkeeping ∧ s'.Pending list' ∧ s'.lru = []
  | 0, s, list, hb, hd, hlen =>
      ⟨s, list, rfl, hb, hd, List.eq_nil_of_length_eq_zero (Nat.le_zero.mp hlen)⟩
  | fuel + 1, s, list, hb, hd, hlen => by
      rw [LRUCacheShard.eraseUnRefEntriesLoop]
      split
      · rename_i old rest hlru
        have hold : old ∈ s.lru := hlru ▸ List.mem_cons_self
        have hin := hb.mem_table_of_mem_lru hold
        have hassert : ¬((!(s.heap old).inCache) = true ∨ (s.heap old).refs ≠ 0) := by
          simp [hb.inCache_of_mem_table hin, hb.refs_of_mem_lru hold]
        obtain ⟨hb₁, hd₁⟩ := hb.evictOne hold hd
        have hlen₁ : (s.evictOne old).lru.length ≤ fuel := by
          rw [evictOne_lru, List.length_erase_of_mem hold]
          omega
        obtain ⟨s', list', hloop, hb', hd', hnil⟩ :=
          Bookkeeping.eraseUnRefEntriesLoop fuel _ _ hb₁ hd₁ hlen₁
        dsimp only
        rw [if_neg hassert, hb.pool.lruRemove_eq hold]
        exact ⟨s', list', hloop, hb', hd', hnil⟩
      · rename_i hlru
        exact ⟨s, list, rfl, hb, hd, hlru⟩

end Evict

/-! ## The calls made of the loops -/

section Calls

/-- The settings of a shard do not enter its bookkeeping, but for the capacity of the
high-priority pool. -/
theorem Bookkeeping.withSettings {s : LRUCacheShard α} (hb : s.Bookkeeping) (capacity : Nat)
    (strictCapacityLimit : Bool) (ratio capacityHigh : ℚ)
    (hhigh : capacityHigh = highPriPoolCapacityFor capacity ratio) (hratio : 0 ≤ ratio) :
    Bookkeeping
      { s with
        capacity
        strictCapacityLimit
        highPriPoolRatio := ratio
        highPriPoolCapacity := capacityHigh } :=
  ⟨hb.pool.of_eq rfl rfl (fun _ => rfl) (fun _ => rfl) rfl, hb.lruUsage_eq, hb.table,
    hb.handle, hb.freed_nodup, hb.usage_eq, hhigh, hratio⟩

/-- The shard the constructor starts from, before its `SetCapacity`. -/
theorem bookkeeping_empty (strictCapacityLimit : Bool) (ratio : ℚ) (heap : Nat → LRUHandle α)
    (hratio : 0 ≤ ratio) :
    Bookkeeping (α := α)
      { capacity := 0
        highPriPoolUsage := 0
        strictCapacityLimit
        highPriPoolRatio := ratio
        highPriPoolCapacity := 0
        usage := 0
        lruUsage := 0
        lru := []
        lruLowPri := 0
        table := LRUHandleTable.new
        heap
        nextHandle := 0
        freed := [] } where
  pool := PoolInv.of_split [] [] rfl rfl List.nodup_nil (by simp) (by simp) rfl
  lruUsage_eq := rfl
  table := new_wf
  handle h := HandleView.Consistent.of_out (by simp [view, handles, LRUHandleTable.new]) rfl rfl
    (fun ha => absurd ha (by simp [view]))
  freed_nodup := List.nodup_nil
  usage_eq := rfl
  highPriPoolCapacity_eq := (highPriPoolCapacityFor_zero ratio).symm
  ratio_nonneg := hratio

/-- `SetStrictCapacityLimit` keeps the invariant. -/
theorem Valid.setStrictCapacityLimit {s : LRUCacheShard α} (hv : s.Valid)
    (strictCapacityLimit : Bool) : (s.setStrictCapacityLimit strictCapacityLimit).Valid :=
  ⟨hv.withSettings s.capacity strictCapacityLimit s.highPriPoolRatio s.highPriPoolCapacity
    hv.highPriPoolCapacity_eq hv.ratio_nonneg, hv.lru_nil⟩

/-- `SetHighPriorityPoolRatio` with a ratio that is not negative never fails, keeps the
invariant, and leaves the high-priority pool within its new capacity. -/
theorem Valid.setHighPriorityPoolRatio {s : LRUCacheShard α} (hv : s.Valid) (ratio : ℚ)
    (hratio : 0 ≤ ratio) :
    ∃ s', s.setHighPriorityPoolRatio ratio = .ok s' ∧ s'.Valid ∧
      (s'.highPriPoolUsage : ℚ) ≤ s'.highPriPoolCapacity := by
  have hb₁ := hv.withSettings s.capacity s.strictCapacityLimit ratio
    (highPriPoolCapacityFor s.capacity ratio) rfl hratio
  obtain ⟨s₂, hmaint, hp₂, hf₂, hlru₂, hlu₂, hfit₂⟩ :=
    hb₁.pool.maintainPoolSize hb₁.highPriPoolCapacity_nonneg
  refine ⟨s₂, hmaint, ⟨hb₁.of_listFrame hf₂ hp₂ hlru₂ hlu₂, fun hover => ?_⟩, hfit₂⟩
  rw [hf₂.capacity, hf₂.usage] at hover
  rw [hlru₂]
  exact hv.lru_nil hover

variable [DecidableEq α]

/-- `SetCapacity` never fails: it evicts until the entries fit or the list is empty, and frees
what it evicted. -/
theorem Bookkeeping.setCapacity {s : LRUCacheShard α} (hb : s.Bookkeeping) (capacity : Nat) :
    ∃ s', s.setCapacity capacity = .ok s' ∧ s'.Valid := by
  have hb₁ := hb.withSettings capacity s.strictCapacityLimit s.highPriPoolRatio
    (highPriPoolCapacityFor capacity s.highPriPoolRatio) rfl hb.ratio_nonneg
  obtain ⟨s₂, d₂, hloop, hb₂, hd₂, hfit, -⟩ :=
    hb₁.evictFromLRULoop 0 _ _ _ ⟨List.nodup_nil, by simp⟩ le_rfl
  have hv₂ : s₂.Valid := ⟨hb₂, fun hover => hfit.resolve_left (by omega)⟩
  obtain ⟨s₃, hfree, hv₃⟩ := hv₂.freeAll hd₂
  refine ⟨s₃, ?_, hv₃⟩
  unfold LRUCacheShard.setCapacity evictFromLRU
  dsimp only
  rw [hloop]
  exact hfree

/-- The constructor never fails for a ratio that is not negative, and leaves a valid shard. -/
theorem valid_new (capacity : Nat) (strictCapacityLimit : Bool) (ratio : ℚ)
    (heap : Nat → LRUHandle α) (hratio : 0 ≤ ratio) :
    ∃ s, LRUCacheShard.new capacity strictCapacityLimit ratio heap = .ok s ∧ s.Valid :=
  (bookkeeping_empty strictCapacityLimit ratio heap hratio).setCapacity capacity

/-- `EraseUnRefEntries` never fails: it takes every unreferenced handle out of the cache and
frees it. -/
theorem Valid.eraseUnRefEntries {s : LRUCacheShard α} (hv : s.Valid) :
    ∃ s', s.eraseUnRefEntries = .ok s' ∧ s'.Valid ∧ s'.lru = [] := by
  obtain ⟨s₂, l₂, hloop, hb₂, hd₂, hnil⟩ :=
    hv.eraseUnRefEntriesLoop _ _ _ ⟨List.nodup_nil, by simp⟩ le_rfl
  obtain ⟨s₃, hfree, hv₃⟩ := (Valid.mk hb₂ fun _ => hnil).freeAll hd₂
  refine ⟨s₃, ?_, hv₃, ?_⟩
  · unfold LRUCacheShard.eraseUnRefEntries
    rw [hloop]
    exact hfree
  · rw [freeAll_eq s₂ l₂ fun h hh => (hd₂.mem h hh).2.2.1] at hfree
    cases hfree
    exact hnil

end Calls

end LRUCacheShard

end RocksCloud.Cache
