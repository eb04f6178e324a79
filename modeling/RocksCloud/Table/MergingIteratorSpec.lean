import Mathlib
import RocksCloud.Table.MergingIterator

/-!
# Children and heaps of the merging iterator

The pieces the sorted-union theorem (`Table.MergingIteratorUnion`) is assembled from.

* Where a child stands: on a run, a child is `AtFirst p` when it is at its first entry whose key
  holds the upward-closed `p` (`AtFirst.entry?_eq`), and `AtLast q` at its last entry holding the
  downward-closed `q`. Each move of a child is such a position: `Seek(t)` at "not below `t`"
  (`atFirst_seek`), `Next()` from an entry with key `k` at "above `k`" (`atFirst_next`), and
  dually `SeekForPrev(t)` and `Prev()`.
* The loop over `children_` of the seeks and of a change of direction: `LoopInv` after each turn,
  and `pushChildren_spec`, each child moved and the valid ones on the heap.
* The heap of a direction: `HeapHolds`, the heap ordered by the comparator on the children and
  holding the valid ones. Moving the top child and restoring the heap with `replace_top` or `pop`
  keeps it (`HeapHolds.moveTop`), and a child strictly below (above) every other valid child is
  the top of the min-heap (max-heap) (`HeapHolds.top_eq_of_least`, `HeapHolds.top_eq_of_greatest`).

The heaps read the comparator on child indices, which is a strict weak order.
-/

set_option autoImplicit false

namespace RocksCloud.Table

open RocksCloud.Lib.SortedRuns RocksCloud.Util

namespace ListIter

variable {κ ν : Type} {cmp : κ → κ → Ordering}

/-- Where `SeekForPrev` leaves a run under a downward-closed `q`: at the last entry whose key holds
it, or past the end when none does. -/
def lastPos (q : κ → Bool) (entries : List (κ × ν)) : Nat :=
  if entries.countP (fun e => q e.1) = 0 then entries.length
  else entries.countP (fun e => q e.1) - 1

@[simp] theorem entries_seekToFirst (it : ListIter κ ν) : it.seekToFirst.entries = it.entries :=
  rfl

@[simp] theorem entries_seekToLast (it : ListIter κ ν) : it.seekToLast.entries = it.entries :=
  rfl

@[simp] theorem entries_seek (it : ListIter κ ν) (t : κ) : (it.seek cmp t).entries = it.entries :=
  rfl

@[simp] theorem entries_seekForPrev (it : ListIter κ ν) (t : κ) :
    (it.seekForPrev cmp t).entries = it.entries :=
  rfl

@[simp] theorem entries_next (it : ListIter κ ν) : it.next.entries = it.entries := rfl

@[simp] theorem entries_prev (it : ListIter κ ν) : it.prev.entries = it.entries := rfl

theorem valid_iff (it : ListIter κ ν) : it.valid = true ↔ it.pos < it.entries.length := by
  simp [valid]

/-- A child is valid exactly when it has an entry. -/
theorem valid_iff_isSome (it : ListIter κ ν) : it.valid = true ↔ it.entry?.isSome := by
  simp [valid, entry?]

/-- A valid child has an entry. -/
theorem exists_entry?_of_valid {it : ListIter κ ν} (h : it.valid = true) :
    ∃ e, it.entry? = some e := by
  rw [valid_iff] at h
  exact ⟨_, List.getElem?_eq_getElem h⟩

theorem valid_of_entry?_eq {it : ListIter κ ν} {e : κ × ν} (h : it.entry? = some e) :
    it.valid = true := by
  rw [valid_iff_isSome, h]
  rfl

theorem mem_of_entry?_eq {it : ListIter κ ν} {e : κ × ν} (h : it.entry? = some e) :
    e ∈ it.entries :=
  List.mem_of_getElem? h

/-! ## Where a child stands -/

/-- The child is at its first entry whose key holds `p`, or past the end when none does. -/
def AtFirst (p : κ → Bool) (it : ListIter κ ν) : Prop :=
  it.pos = it.entries.countP fun e => !p e.1

/-- The child is at its last entry whose key holds `q`, or past the end when none does. -/
def AtLast (q : κ → Bool) (it : ListIter κ ν) : Prop := it.pos = lastPos q it.entries

variable {p q p' q' : κ → Bool} {it : ListIter κ ν}

theorem AtFirst.congr (h : AtFirst p it) (hagree : ∀ e ∈ it.entries, p' e.1 = p e.1) :
    AtFirst p' it := by
  unfold AtFirst at h ⊢
  rw [h]
  exact List.countP_congr fun e he => by rw [hagree e he]

theorem AtLast.congr (h : AtLast q it) (hagree : ∀ e ∈ it.entries, q' e.1 = q e.1) :
    AtLast q' it := by
  unfold AtLast lastPos at h ⊢
  have hcount : (it.entries.countP fun e => q' e.1) = it.entries.countP fun e => q e.1 :=
    List.countP_congr fun e he => by rw [hagree e he]
  rw [h, hcount]

theorem atFirst_seekToFirst (it : ListIter κ ν) : AtFirst (fun _ => true) it.seekToFirst := by
  simp [AtFirst, seekToFirst]

theorem atLast_seekToLast (it : ListIter κ ν) : AtLast (fun _ => true) it.seekToLast := by
  unfold AtLast seekToLast lastPos
  rw [List.countP_true]
  dsimp only
  split <;> omega

/-- On a run the first entry whose key holds `p` is the first of those that hold it. -/
theorem AtFirst.entry?_eq (hrun : Run cmp Prod.fst it.entries) (hp : UpClosed cmp p)
    (h : AtFirst p it) : it.entry? = (it.entries.filter fun e => p e.1).head? := by
  rw [ListIter.entry?, h]
  exact hrun.getElem?_countP_not hp

/-- On a run the last entry whose key holds `q` is the last of those that hold it. -/
theorem AtLast.entry?_eq (hrun : Run cmp Prod.fst it.entries) (hq : DownClosed cmp q)
    (h : AtLast q it) : it.entry? = (it.entries.filter fun e => q e.1).getLast? := by
  rw [ListIter.entry?, h, lastPos]
  split
  · -- no entry holds `q`: past the end
    rename_i hzero
    have hnil : (it.entries.filter fun e => q e.1) = [] := by
      rw [← List.length_eq_zero_iff, ← List.countP_eq_length_filter]
      exact hzero
    rw [hnil, List.getElem?_eq_none le_rfl]
    rfl
  · exact hrun.getElem?_countP_sub_one hq (Nat.pos_of_ne_zero ‹_›)

/-- The entry a child stands at holds the predicate, -/
theorem AtFirst.holds_of_entry?_eq (hrun : Run cmp Prod.fst it.entries) (hp : UpClosed cmp p)
    (h : AtFirst p it) {e : κ × ν} (he : it.entry? = some e) : p e.1 = true := by
  rw [h.entry?_eq hrun hp] at he
  exact (List.mem_filter.mp (List.mem_of_mem_head? he)).2

theorem AtLast.holds_of_entry?_eq (hrun : Run cmp Prod.fst it.entries) (hq : DownClosed cmp q)
    (h : AtLast q it) {e : κ × ν} (he : it.entry? = some e) : q e.1 = true := by
  rw [h.entry?_eq hrun hq] at he
  exact (List.mem_filter.mp (List.mem_of_getLast? he)).2

theorem entry?_eq_none_of_valid (h : it.valid = false) : it.entry? = none := by
  cases he : it.entry? with
  | none => rfl
  | some e =>
      rw [valid_of_entry?_eq he] at h
      cases h

/-- and a child past the end has no entry that holds it. -/
theorem AtFirst.filter_eq_nil (hrun : Run cmp Prod.fst it.entries) (hp : UpClosed cmp p)
    (h : AtFirst p it) (hvalid : it.valid = false) : (it.entries.filter fun e => p e.1) = [] := by
  rw [← List.head?_eq_none_iff, ← h.entry?_eq hrun hp]
  exact entry?_eq_none_of_valid hvalid

theorem AtLast.filter_eq_nil (hrun : Run cmp Prod.fst it.entries) (hq : DownClosed cmp q)
    (h : AtLast q it) (hvalid : it.valid = false) : (it.entries.filter fun e => q e.1) = [] := by
  rw [← List.getLast?_eq_none_iff, ← h.entry?_eq hrun hq]
  exact entry?_eq_none_of_valid hvalid

/-- A child with no entry of key `t` is not at an entry of key `t`: the step past an equal key of
a change of direction is not taken. -/
theorem key?_any_eq_false {t : κ} (hne : ∀ y ∈ it.entries, cmp t y.1 ≠ .eq) :
    it.key?.any (fun k => cmp t k == .eq) = false := by
  cases he : it.entry? with
  | none => simp [key?, he]
  | some y => simp [key?, he, hne y (mem_of_entry?_eq he)]

variable [Std.TransCmp cmp]

/-- `Seek(t)` on a run: the first entry not below `t`. -/
theorem atFirst_seek (h : Run cmp Prod.fst it.entries) (t : κ) :
    AtFirst (fun k => cmp k t != .lt) (it.seek cmp t) :=
  h.findIdx_eq_countP_not (upClosed_not_lt t)

/-- `SeekForPrev(t)` on a run: the last entry not above `t`. -/
theorem atLast_seekForPrev (h : Run cmp Prod.fst it.entries) (t : κ) :
    AtLast (fun k => cmp k t != .gt) (it.seekForPrev cmp t) := by
  have hidx := h.findIdx_eq_countP_not (upClosed_gt t)
  unfold AtLast seekForPrev lastPos
  rw [hidx]
  rfl

variable {e : κ × ν}

/-- A child at an entry stands at the first entry not below its key, -/
theorem atFirst_of_entry?_eq (hrun : Run cmp Prod.fst it.entries) (he : it.entry? = some e) :
    AtFirst (fun k => cmp k e.1 != .lt) it := by
  have hcount := hrun.countP_lt_of_getElem? he
  unfold AtFirst
  rw [← hcount]
  congr 1
  funext y
  dsimp only
  cases cmp y.1 e.1 <;> rfl

/-- and at the last entry not above it. -/
theorem atLast_of_entry?_eq (hrun : Run cmp Prod.fst it.entries) (he : it.entry? = some e) :
    AtLast (fun k => cmp k e.1 != .gt) it := by
  have hcount := hrun.countP_le_of_getElem? he
  unfold AtLast lastPos
  simp only [hcount, Nat.add_one_ne_zero, if_false, Nat.add_sub_cancel]

/-- `Next()` from an entry: the first entry above its key. -/
theorem atFirst_next (hrun : Run cmp Prod.fst it.entries) (he : it.entry? = some e) :
    AtFirst (fun k => cmp k e.1 == .gt) it.next := by
  have hcount := hrun.countP_le_of_getElem? he
  unfold AtFirst
  simp only [next]
  rw [← hcount]
  congr 1

/-- `Prev()` from an entry: the last entry below its key. -/
theorem atLast_prev (hrun : Run cmp Prod.fst it.entries) (he : it.entry? = some e) :
    AtLast (fun k => cmp k e.1 == .lt) it.prev := by
  have hcount := hrun.countP_lt_of_getElem? he
  unfold AtLast lastPos
  simp only [prev, hcount]

end ListIter

namespace MergingIterator

variable {κ ν : Type} {cmp : κ → κ → Ordering}

/-! ## The heaps -/

/-- The valid children, by index. -/
def validChildren (children : List (ListIter κ ν)) : List Nat :=
  (List.range children.length).filter fun i => children[i]?.any ListIter.valid

theorem mem_validChildren {children : List (ListIter κ ν)} {i : Nat} :
    i ∈ validChildren children ↔ ∃ c, children[i]? = some c ∧ c.valid = true := by
  constructor
  · intro hi
    obtain ⟨hlt, hvalid⟩ := List.mem_filter.mp hi
    have hc := List.getElem?_eq_getElem (List.mem_range.mp hlt)
    rw [hc] at hvalid
    exact ⟨_, hc, by simpa using hvalid⟩
  · rintro ⟨c, hc, hvalid⟩
    obtain ⟨hlt, -⟩ := List.getElem?_eq_some_iff.mp hc
    refine List.mem_filter.mpr ⟨List.mem_range.mpr hlt, ?_⟩
    rw [hc]
    simpa using hvalid

theorem nodup_validChildren (children : List (ListIter κ ν)) : (validChildren children).Nodup :=
  List.nodup_range.filter _

/-- A heap comparator that reads the two children it compares and no other. -/
def Local (heapCmp : List (ListIter κ ν) → Nat → Nat → Bool) : Prop :=
  ∀ cs cs' a b, cs[a]? = cs'[a]? → cs[b]? = cs'[b]? → heapCmp cs a b = heapCmp cs' a b

theorem local_minIteratorComparator : Local (minIteratorComparator (ν := ν) cmp) := by
  intro cs cs' a b ha hb
  simp only [minIteratorComparator, childKey?, ha, hb]

theorem local_maxIteratorComparator : Local (maxIteratorComparator (ν := ν) cmp) := by
  intro cs cs' a b ha hb
  simp only [maxIteratorComparator, childKey?, ha, hb]

instance [Std.TransCmp cmp] (cs : List (ListIter κ ν)) :
    IsStrictWeakOrder Nat (BinaryHeap.Lt (minIteratorComparator cmp cs)) := by
  have h := @isStrictWeakOrder_gt _ _ (optionCompare cmp) _ (childKey? cs)
  unfold BinaryHeap.Lt minIteratorComparator
  simpa only [beq_iff_eq] using h

instance [Std.TransCmp cmp] (cs : List (ListIter κ ν)) :
    IsStrictWeakOrder Nat (BinaryHeap.Lt (maxIteratorComparator cmp cs)) := by
  have h := @isStrictWeakOrder_lt _ _ (optionCompare cmp) _ (childKey? cs)
  unfold BinaryHeap.Lt maxIteratorComparator
  simpa only [beq_iff_eq] using h

/-- A heap with no element satisfies the invariant, whatever its cache. -/
theorem inv_of_data_nil (heapCmp : Nat → Nat → Bool) {heap : BinaryHeap Nat} (h : heap.data = []) :
    BinaryHeap.Inv heapCmp heap where
  ordered := h ▸ Lib.HeapOrder.ordered_nil
  cache c _ hc := by
    rw [h] at hc
    cases hc

/-! ## The loop over the children -/

section Loop

variable (heapCmp : List (ListIter κ ν) → Nat → Nat → Bool)
  (move : Nat → ListIter κ ν → ListIter κ ν)

/-- What the loop has done after the children below `m`: those moved, and the valid ones among
them on the heap. -/
structure LoopInv (children : List (ListIter κ ν)) (m : Nat)
    (acc : List (ListIter κ ν) × BinaryHeap Nat) : Prop where
  children_eq : ∀ i, acc.1[i]? = if i < m then children[i]?.map (move i) else children[i]?
  heap : BinaryHeap.Inv (heapCmp acc.1) acc.2
  perm : acc.2.data.Perm ((List.range m).filter fun i => acc.1[i]?.any ListIter.valid)

variable {heapCmp move} [∀ cs, IsStrictWeakOrder Nat (BinaryHeap.Lt (heapCmp cs))]

/-- One turn of the loop moves child `m` and pushes it when it is valid. -/
theorem LoopInv.pushChild (hlocal : Local heapCmp) {children : List (ListIter κ ν)} {m : Nat}
    {acc : List (ListIter κ ν) × BinaryHeap Nat} (h : LoopInv heapCmp move children m acc) :
    LoopInv heapCmp move children (m + 1) (pushChild heapCmp move acc m) := by
  -- below `m` the children are those the heap was built with
  have hbelow : ∀ i, i ≠ m → (acc.1.modify m (move m))[i]? = acc.1[i]? := by
    intro i hi
    simp [Ne.symm hi]
  have hheap : BinaryHeap.Inv (heapCmp (acc.1.modify m (move m))) acc.2 := by
    refine h.heap.congr fun a ha b hb => hlocal _ _ a b (hbelow a ?_) (hbelow b ?_)
    · exact (List.mem_range.mp (List.mem_filter.mp (h.perm.subset ha)).1).ne
    · exact (List.mem_range.mp (List.mem_filter.mp (h.perm.subset hb)).1).ne
  have hfilter : (List.range m).filter (fun i => (acc.1.modify m (move m))[i]?.any
      ListIter.valid) = (List.range m).filter fun i => acc.1[i]?.any ListIter.valid := by
    refine List.filter_congr fun i hi => ?_
    rw [hbelow i (List.mem_range.mp hi).ne]
  have hchildren : ∀ i, (acc.1.modify m (move m))[i]? =
      if i < m + 1 then children[i]?.map (move i) else children[i]? := by
    intro i
    by_cases him : i = m
    · subst him
      simp [h.children_eq]
    · rw [hbelow i him, h.children_eq]
      by_cases hlt : i < m
      · rw [if_pos hlt, if_pos (by omega)]
      · rw [if_neg hlt, if_neg (by omega)]
  unfold MergingIterator.pushChild
  dsimp only
  split
  · -- child `m` is valid and goes onto the heap
    rename_i hvalid
    obtain ⟨hinv, hperm⟩ := hheap.push m
    refine ⟨hchildren, hinv, hperm.trans ?_⟩
    rw [List.range_succ, List.filter_append, hfilter, List.filter_singleton, hvalid]
    exact h.perm.append_right [m]
  · rename_i hvalid
    refine ⟨hchildren, hheap, h.perm.trans ?_⟩
    rw [List.range_succ, List.filter_append, hfilter, List.filter_singleton,
      Bool.eq_false_iff.mpr hvalid]
    simp

/-- **The loop over the children**: each child moved, the valid ones on the heap. -/
theorem pushChildren_spec (hlocal : Local heapCmp) (children : List (ListIter κ ν))
    {heap : BinaryHeap Nat} (hheap : heap.data = []) :
    (∀ i, (pushChildren heapCmp move children heap).1[i]? = children[i]?.map (move i)) ∧
      BinaryHeap.Inv (heapCmp (pushChildren heapCmp move children heap).1)
        (pushChildren heapCmp move children heap).2 ∧
      (pushChildren heapCmp move children heap).2.data.Perm
        (validChildren (pushChildren heapCmp move children heap).1) := by
  -- the loop over the first `m` children, by induction on `m`
  have hrun : ∀ m, LoopInv heapCmp move children m
      ((List.range m).foldl (MergingIterator.pushChild heapCmp move) (children, heap)) := by
    intro m
    induction m with
    | zero =>
        refine ⟨fun i => ?_, inv_of_data_nil _ hheap, ?_⟩
        · simp
        · simp [hheap]
    | succ m ih =>
        rw [List.range_succ, List.foldl_append, List.foldl_cons, List.foldl_nil]
        exact ih.pushChild hlocal
  obtain ⟨hchildren, hinv, hperm⟩ := hrun children.length
  have hmoved : ∀ i, (pushChildren heapCmp move children heap).1[i]? =
      children[i]?.map (move i) := by
    intro i
    rw [pushChildren, hchildren i]
    split
    · rfl
    · rw [List.getElem?_eq_none (by omega)]
      rfl
  have hlen : (pushChildren heapCmp move children heap).1.length = children.length := by
    have heq : (pushChildren heapCmp move children heap).1 = children.mapIdx move :=
      List.ext_getElem? fun i => by rw [hmoved i, List.getElem?_mapIdx]
    rw [heq, List.length_mapIdx]
  refine ⟨hmoved, hinv, ?_⟩
  rw [validChildren, hlen]
  exact hperm

end Loop

/-! ## The heap of a direction -/

/-- The heap of a direction: ordered by `heapCmp` on the children, and holding the valid ones. -/
structure HeapHolds (heapCmp : List (ListIter κ ν) → Nat → Nat → Bool)
    (children : List (ListIter κ ν)) (heap : BinaryHeap Nat) : Prop where
  inv : BinaryHeap.Inv (heapCmp children) heap
  perm : heap.data.Perm (validChildren children)

section Heap

variable {heapCmp : List (ListIter κ ν) → Nat → Nat → Bool} {children : List (ListIter κ ν)}
  {heap : BinaryHeap Nat}

/-- Distinct indices are the valid children, up to order, when they are exactly those. -/
theorem perm_validChildren_iff {xs : List Nat} (hnodup : xs.Nodup) :
    xs.Perm (validChildren children) ↔
      ∀ j, j ∈ xs ↔ ∃ c, children[j]? = some c ∧ c.valid = true := by
  rw [List.perm_ext_iff_of_nodup hnodup (nodup_validChildren children)]
  simp only [mem_validChildren]

theorem HeapHolds.mem_iff (h : HeapHolds heapCmp children heap) {j : Nat} :
    j ∈ heap.data ↔ ∃ c, children[j]? = some c ∧ c.valid = true :=
  h.perm.mem_iff.trans mem_validChildren

theorem HeapHolds.nodup (h : HeapHolds heapCmp children heap) : heap.data.Nodup :=
  h.perm.nodup_iff.mpr (nodup_validChildren children)

/-- The loop over the children onto an empty heap: each child moved, and the valid ones on the
heap. -/
theorem spec_of_pushChildren_eq [∀ cs, IsStrictWeakOrder Nat (BinaryHeap.Lt (heapCmp cs))]
    (hlocal : Local heapCmp) {move : Nat → ListIter κ ν → ListIter κ ν}
    {cs : List (ListIter κ ν)} {heap' : BinaryHeap Nat}
    (heq : pushChildren heapCmp move children heap = (cs, heap')) (hheap : heap.data = []) :
    (∀ i, cs[i]? = children[i]?.map (move i)) ∧ HeapHolds heapCmp cs heap' := by
  obtain ⟨hchildren, hinv, hperm⟩ := pushChildren_spec hlocal children hheap
  rw [heq] at hchildren hinv hperm
  exact ⟨hchildren, hinv, hperm⟩

/-- With an empty heap no child is valid. -/
theorem HeapHolds.not_valid_of_top (h : HeapHolds heapCmp children heap) (htop : heap.top = none)
    {j : Nat} {c : ListIter κ ν} (hc : children[j]? = some c) : c.valid = false := by
  have hnil : heap.data = [] := List.head?_eq_none_iff.mp htop
  rw [Bool.eq_false_iff]
  intro hvalid
  have hmem := h.mem_iff.mpr ⟨c, hc, hvalid⟩
  rw [hnil] at hmem
  cases hmem

/-- The top of the heap is a valid child. -/
theorem HeapHolds.valid_top (h : HeapHolds heapCmp children heap) {t : Nat}
    (htop : heap.top = some t) : ∃ c, children[t]? = some c ∧ c.valid = true :=
  h.mem_iff.mp (List.mem_of_mem_head? htop)

variable [∀ cs, IsStrictWeakOrder Nat (BinaryHeap.Lt (heapCmp cs))]

/-- No valid child is below the top. -/
theorem HeapHolds.top_notBelow (h : HeapHolds heapCmp children heap) {t j : Nat}
    (htop : heap.top = some t) {c : ListIter κ ν} (hj : children[j]? = some c)
    (hvalid : c.valid = true) : heapCmp children t j = false :=
  h.inv.top_notBelow htop (h.mem_iff.mpr ⟨c, hj, hvalid⟩)

/-- A valid child that every other valid child is below is the top. -/
theorem HeapHolds.top_eq_of_forall (h : HeapHolds heapCmp children heap) {i : Nat}
    {c : ListIter κ ν} (hi : children[i]? = some c) (hvalid : c.valid = true)
    (hbelow : ∀ j c', j ≠ i → children[j]? = some c' → c'.valid = true →
      heapCmp children j i = true) :
    heap.top = some i := by
  rcases htop : heap.top with _ | t
  · rw [h.not_valid_of_top htop hi] at hvalid
    cases hvalid
  · -- another child on top would be below child `i`
    rw [Option.some.injEq]
    by_contra hti
    obtain ⟨c', hc', hvalid'⟩ := h.valid_top htop
    have hnb := h.top_notBelow htop hi hvalid
    rw [hbelow t c' hti hc' hvalid'] at hnb
    cases hnb

/-- **The current child moves**: the top child `i` is moved, and the heap takes it back at the
top (`replace_top`) when it is still valid, or drops it (`pop`). Below the top the comparator
reads the same children as before. -/
theorem HeapHolds.moveTop (hlocal : Local heapCmp) (h : HeapHolds heapCmp children heap)
    {i : Nat} (htop : heap.top = some i) (move : ListIter κ ν → ListIter κ ν) :
    HeapHolds heapCmp (children.modify i move)
      (if (children.modify i move)[i]?.any ListIter.valid then
        heap.replaceTop (heapCmp (children.modify i move)) i
      else heap.pop (heapCmp (children.modify i move))) := by
  obtain ⟨rest, hdata⟩ := List.head?_eq_some_iff.mp htop
  have hne : heap.data ≠ [] := by
    rw [hdata]
    exact List.cons_ne_nil _ _
  have hnodup := h.nodup
  rw [hdata] at hnodup
  have hi : i ∉ rest := (List.nodup_cons.mp hnodup).1
  -- every element below the top is another child, which keeps its place
  have hbelow : ∀ k a, 0 < k → heap.data[k]? = some a → a ≠ i := by
    intro k a hk ha hai
    obtain ⟨k, rfl⟩ : ∃ k', k = k' + 1 := ⟨k - 1, by omega⟩
    rw [hdata, List.getElem?_cons_succ] at ha
    exact hi (hai ▸ List.mem_of_getElem? ha)
  have hkeep : ∀ j, j ≠ i → (children.modify i move)[j]? = children[j]? := by
    intro j hj
    simp [Ne.symm hj]
  have hagree : ∀ k l a b, 0 < k → 0 < l → heap.data[k]? = some a → heap.data[l]? = some b →
      heapCmp (children.modify i move) a b = heapCmp children a b := fun k l a b hk hl ha hb =>
    hlocal _ _ a b (hkeep a (hbelow k a hk ha)) (hkeep b (hbelow l b hl hb))
  have hvalid_i : ∃ c, children[i]? = some c ∧ c.valid = true := h.valid_top htop
  split
  · -- still valid: back at the top, the same children on the heap
    rename_i hvalid
    obtain ⟨hinv, hperm⟩ := h.inv.replaceTop_of_agree hne i hagree
    refine ⟨hinv, hperm.trans ?_⟩
    rw [hdata, List.set_cons_zero, ← hdata]
    refine (perm_validChildren_iff h.nodup).mpr fun j => ?_
    rw [h.mem_iff]
    by_cases hj : j = i
    · subst hj
      obtain ⟨c', hc', hvalid'⟩ := (Option.any_eq_true _ _).mp hvalid
      exact ⟨fun _ => ⟨c', hc', hvalid'⟩, fun _ => hvalid_i⟩
    · rw [hkeep j hj]
  · -- no longer valid: dropped
    rename_i hvalid
    obtain ⟨hinv, hperm⟩ := h.inv.pop_of_agree hne hagree
    refine ⟨hinv, hperm.trans ?_⟩
    rw [hdata, List.tail_cons]
    refine (perm_validChildren_iff (List.nodup_cons.mp hnodup).2).mpr fun j => ?_
    by_cases hj : j = i
    · subst hj
      refine ⟨fun hmem => absurd hmem hi, ?_⟩
      rintro ⟨c', hc', hvalid'⟩
      exact absurd ((Option.any_eq_true _ _).mpr ⟨c', hc', hvalid'⟩) hvalid
    · rw [hkeep j hj, ← h.mem_iff, hdata, List.mem_cons]
      exact ⟨Or.inr, fun hmem => hmem.resolve_left hj⟩

end Heap

/-- The key of a child at an entry. -/
theorem childKey?_of_entry?_eq {cs : List (ListIter κ ν)} {i : Nat} {c : ListIter κ ν} {e : κ × ν}
    (hc : cs[i]? = some c) (he : c.entry? = some e) : childKey? cs i = some e.1 := by
  simp [childKey?, hc, ListIter.key?, he]

/-- What the min-heap's comparator says of two children with keys. -/
theorem minIteratorComparator_eq_false {cs : List (ListIter κ ν)} {a b : Nat} {ka kb : κ}
    (ha : childKey? cs a = some ka) (hb : childKey? cs b = some kb) :
    minIteratorComparator cmp cs a b = false ↔ cmp ka kb ≠ .gt := by
  simp [minIteratorComparator, ha, hb, optionCompare]

/-- What the max-heap's comparator says of two children with keys. -/
theorem maxIteratorComparator_eq_false {cs : List (ListIter κ ν)} {a b : Nat} {ka kb : κ}
    (ha : childKey? cs a = some ka) (hb : childKey? cs b = some kb) :
    maxIteratorComparator cmp cs a b = false ↔ cmp ka kb ≠ .lt := by
  simp [maxIteratorComparator, ha, hb, optionCompare]

section Top

variable [Std.TransCmp cmp] {cs : List (ListIter κ ν)} {heap : BinaryHeap Nat} {i : Nat}
  {c : ListIter κ ν} {e : κ × ν}

/-- A valid child whose key is below every other valid child's is the top of the min-heap. -/
theorem HeapHolds.top_eq_of_least (h : HeapHolds (minIteratorComparator cmp) cs heap)
    (hi : cs[i]? = some c) (he : c.entry? = some e)
    (hlt : ∀ j c' y, j ≠ i → cs[j]? = some c' → c'.entry? = some y → cmp y.1 e.1 = .gt) :
    heap.top = some i := by
  refine h.top_eq_of_forall hi (ListIter.valid_of_entry?_eq he) fun j c' hji hc' hvalid' => ?_
  obtain ⟨y, hy⟩ := ListIter.exists_entry?_of_valid hvalid'
  simp [minIteratorComparator, childKey?_of_entry?_eq hc' hy, childKey?_of_entry?_eq hi he,
    optionCompare, hlt j c' y hji hc' hy]

/-- A valid child whose key is above every other valid child's is the top of the max-heap. -/
theorem HeapHolds.top_eq_of_greatest (h : HeapHolds (maxIteratorComparator cmp) cs heap)
    (hi : cs[i]? = some c) (he : c.entry? = some e)
    (hgt : ∀ j c' y, j ≠ i → cs[j]? = some c' → c'.entry? = some y → cmp y.1 e.1 = .lt) :
    heap.top = some i := by
  refine h.top_eq_of_forall hi (ListIter.valid_of_entry?_eq he) fun j c' hji hc' hvalid' => ?_
  obtain ⟨y, hy⟩ := ListIter.exists_entry?_of_valid hvalid'
  simp [maxIteratorComparator, childKey?_of_entry?_eq hc' hy, childKey?_of_entry?_eq hi he,
    optionCompare, hgt j c' y hji hc' hy]

end Top

end MergingIterator

end RocksCloud.Table
