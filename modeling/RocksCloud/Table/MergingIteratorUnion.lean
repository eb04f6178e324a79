import Mathlib
import RocksCloud.Table.MergingIteratorSpec

/-!
# The merging iterator walks the sorted union of its children

Let each child of a merging iterator hold a run, and let `L` be a run of all their entries
(`Union`): the sorted union, which pairs each key with the value of the child that holds it.
Every state the calls reach from the merging iterator over fresh children is `Positioned`:

* `Forward s p`: turned forward, each child at its first entry whose key holds the
  upward-closed `p`, the valid children on the min-heap and the current child its top;
* `Reverse s q`: turned backward, each child at its last entry whose key holds the
  downward-closed `q`, the valid children on the max-heap and the current child its top.

A forward state's entry is the first entry of `L` that holds `p` (`Forward.entry?_eq`), a
reverse state's the last that holds `q` (`Reverse.entry?_eq`). Seen from its entry `e`, a forward
state stands at the first entries not below `e` (`Forward.atEntry`), a reverse one at the last
entries not above it. As keys are distinct across the children, a change of direction re-seeks
the other children strictly past `e` and leaves the current child on top of the new heap
(`Shape.switchToForward`, `Shape.switchToReverse`). `Next()` then moves to "above `e`"
(`Forward.advance`), `Prev()` to "below `e`" (`Reverse.retreat`), and the seeks position the
iterator from any state (`Shape.seekForward`, `Shape.seekReverse`).

`sorted_union` reads the union off these: the seeks land on the first entry of `L`, its last, its
first not below a target and its last not above one, and from `L[j]` the iterator moves to
`L[j+1]` and `L[j-1]`, whichever way it moved before.
-/

set_option autoImplicit false

namespace RocksCloud.Table

open RocksCloud.Lib.SortedRuns RocksCloud.Util

namespace MergingIterator

variable {κ ν : Type} {cmp : κ → κ → Ordering}

/-- The children's runs and their sorted union `L`. -/
structure Union (cmp : κ → κ → Ordering) (runs : List (List (κ × ν))) (L : List (κ × ν)) :
    Prop where
  runs_run : ∀ r ∈ runs, Run cmp Prod.fst r
  run : Run cmp Prod.fst L
  perm : L.Perm runs.flatten

/-- The children hold the runs, and prefix seek mode is off. -/
structure Shape (runs : List (List (κ × ν))) (s : MergingIterator κ ν) : Prop where
  entries_eq : s.children.map ListIter.entries = runs
  prefixSeekMode_eq : s.prefixSeekMode = false

/-- Turned forward at the first entries whose keys hold `p`. -/
structure Forward (cmp : κ → κ → Ordering) (runs : List (List (κ × ν)))
    (s : MergingIterator κ ν) (p : κ → Bool) : Prop extends Shape runs s where
  up : UpClosed cmp p
  atFirst : ∀ (j : Nat) (c : ListIter κ ν), s.children[j]? = some c → c.AtFirst p
  heap : HeapHolds (minIteratorComparator cmp) s.children s.minHeap
  current_eq : s.current = s.minHeap.top
  direction_eq : s.direction = .forward

/-- Turned backward at the last entries whose keys hold `q`. -/
structure Reverse (cmp : κ → κ → Ordering) (runs : List (List (κ × ν)))
    (s : MergingIterator κ ν) (q : κ → Bool) : Prop extends Shape runs s where
  down : DownClosed cmp q
  atLast : ∀ (j : Nat) (c : ListIter κ ν), s.children[j]? = some c → c.AtLast q
  heap : ∃ heap, s.maxHeap = some heap ∧ HeapHolds (maxIteratorComparator cmp) s.children heap
  current_eq : s.current = s.currentReverse
  direction_eq : s.direction = .reverse

/-- Positioned in one direction or the other. -/
def Positioned (cmp : κ → κ → Ordering) (runs : List (List (κ × ν))) (s : MergingIterator κ ν) :
    Prop :=
  (∃ p, Forward cmp runs s p) ∨ ∃ q, Reverse cmp runs s q

/-! ## Children holding the runs -/

section Children

variable {runs : List (List (κ × ν))} {L : List (κ × ν)} {cs : List (ListIter κ ν)} {j : Nat}
  {c : ListIter κ ν}

theorem getElem?_runs (hcs : cs.map ListIter.entries = runs) (hc : cs[j]? = some c) :
    runs[j]? = some c.entries := by
  rw [← hcs, List.getElem?_map, hc]
  rfl

theorem exists_of_mem_runs (hcs : cs.map ListIter.entries = runs) {r : List (κ × ν)}
    (hr : r ∈ runs) : ∃ (j : Nat) (c : ListIter κ ν), cs[j]? = some c ∧ c.entries = r := by
  rw [← hcs] at hr
  obtain ⟨c, hc, rfl⟩ := List.mem_map.mp hr
  obtain ⟨j, hj⟩ := List.mem_iff_getElem?.mp hc
  exact ⟨j, c, hj, rfl⟩

/-- Moves that keep each child's entries keep the runs. -/
theorem map_entries_of_getElem? {cs' : List (ListIter κ ν)}
    {move : Nat → ListIter κ ν → ListIter κ ν} (hmove : ∀ i c, (move i c).entries = c.entries)
    (h : ∀ i, cs'[i]? = cs[i]?.map (move i)) :
    cs'.map ListIter.entries = cs.map ListIter.entries := by
  apply List.ext_getElem?
  intro i
  rw [List.getElem?_map, List.getElem?_map, h i]
  cases cs[i]? with
  | none => rfl
  | some c => exact congrArg some (hmove i c)

theorem map_entries_modify {i : Nat} {f : ListIter κ ν → ListIter κ ν}
    (hf : ∀ c, (f c).entries = c.entries) :
    (cs.modify i f).map ListIter.entries = cs.map ListIter.entries := by
  apply List.ext_getElem?
  intro j
  rw [List.getElem?_map, List.getElem?_map, List.getElem?_modify]
  cases cs[j]? with
  | none => rfl
  | some c => by_cases hij : i = j <;> simp [hij, hf]

theorem Union.run_of_mem (hu : Union cmp runs L) (hcs : cs.map ListIter.entries = runs)
    (hc : cs[j]? = some c) : Run cmp Prod.fst c.entries :=
  hu.runs_run _ (List.mem_of_getElem? (getElem?_runs hcs hc))

theorem Union.mem_of_mem (hu : Union cmp runs L) (hcs : cs.map ListIter.entries = runs)
    (hc : cs[j]? = some c) {y : κ × ν} (hy : y ∈ c.entries) : y ∈ L :=
  hu.perm.symm.subset
    (List.mem_flatten.mpr ⟨_, List.mem_of_getElem? (getElem?_runs hcs hc), hy⟩)

/-- **Keys are distinct across the children.** -/
theorem Union.key_ne [Std.TransCmp cmp] (hu : Union cmp runs L)
    (hcs : cs.map ListIter.entries = runs) {i : Nat} {c' : ListIter κ ν} (hji : j ≠ i)
    (hc : cs[j]? = some c) (hc' : cs[i]? = some c') {x y : κ × ν} (hx : x ∈ c.entries)
    (hy : y ∈ c'.entries) : cmp x.1 y.1 ≠ .eq :=
  rel_of_mem_of_ne (fun _ _ hab => by rwa [ne_eq, Std.OrientedCmp.eq_comm])
    (hu.run.pairwise_ne_of_perm hu.perm) hji (getElem?_runs hcs hc) (getElem?_runs hcs hc') hx hy

end Children

/-! ## The current entry -/

section Current

variable {s : MergingIterator κ ν} {e : κ × ν}

theorem entry?_of_current {i : Nat} (hcur : s.current = some i) :
    s.entry? = s.children[i]?.bind ListIter.entry? := by
  rw [MergingIterator.entry?, hcur]
  rfl

/-- An iterator at an entry has a current child at it. -/
theorem exists_current_of_entry?_eq (he : s.entry? = some e) :
    ∃ (i : Nat) (c : ListIter κ ν), s.current = some i ∧ s.children[i]? = some c ∧ c.entry? = some e := by
  obtain ⟨i, hcur, hi⟩ := Option.bind_eq_some_iff.mp he
  obtain ⟨c, hc, hce⟩ := Option.bind_eq_some_iff.mp hi
  exact ⟨i, c, hcur, hc, hce⟩

theorem key?_of_entry?_eq (he : s.entry? = some e) : s.key? = some e.1 := by
  obtain ⟨i, c, hcur, hc, hce⟩ := exists_current_of_entry?_eq he
  rw [MergingIterator.key?, hcur, Option.bind_some, childKey?_of_entry?_eq hc hce]

/-- `Next()` after a backward move is `SwitchToForward()` followed by `Next()`. -/
theorem next_of_reverse (hdir : s.direction = .reverse) (he : s.entry? = some e) :
    s.next cmp = (switchToForward cmp s).next cmp := by
  have hswitch : (switchToForward cmp s).direction = .forward := by
    simp [switchToForward, key?_of_entry?_eq he]
  simp [next, hdir, hswitch]

/-- `Prev()` after a forward move turns the direction first. -/
theorem prev_of_forward (hdir : s.direction = .forward) (he : s.entry? = some e) :
    s.prev cmp = (switchToReverse cmp s).prev cmp := by
  have hswitch : (switchToReverse cmp s).direction = .reverse := by
    unfold switchToReverse
    rw [key?_of_entry?_eq he]
    dsimp only
    split <;> rfl
  simp [prev, hdir, hswitch]

end Current

/-! ## Going forward -/

section Forward

variable [Std.TransCmp cmp] {runs : List (List (κ × ν))} {L : List (κ × ν)}
  {s : MergingIterator κ ν} {p : κ → Bool} {e : κ × ν}

/-- **A forward state's entry** is the first entry of the union that holds `p`: the top child's
entry is not above any other valid child's, each of which is the first of its run to hold `p`. -/
theorem Forward.entry?_eq (hu : Union cmp runs L) (h : Forward cmp runs s p) :
    s.entry? = (L.filter fun e => p e.1).head? := by
  rcases htop : s.minHeap.top with _ | t
  · -- no child is valid, so no entry holds `p`
    have hnil : (L.filter fun e => p e.1) = [] := by
      refine filter_eq_nil_of_perm hu.perm fun r hr => ?_
      obtain ⟨j, c, hc, rfl⟩ := exists_of_mem_runs h.entries_eq hr
      exact (h.atFirst j c hc).filter_eq_nil (hu.run_of_mem h.entries_eq hc) h.up
        (h.heap.not_valid_of_top htop hc)
    rw [hnil, MergingIterator.entry?, h.current_eq, htop]
    rfl
  · obtain ⟨c, hc, hvalid⟩ := h.heap.valid_top htop
    obtain ⟨e, he⟩ := ListIter.exists_entry?_of_valid hvalid
    have hfirst := (h.atFirst t c hc).entry?_eq (hu.run_of_mem h.entries_eq hc) h.up
    rw [entry?_of_current (h.current_eq.trans htop), hc, Option.bind_some, he]
    refine (hu.run.head?_filter_of_perm hu.perm hu.runs_run
      (List.mem_of_getElem? (getElem?_runs h.entries_eq hc)) (hfirst.symm.trans he) ?_).symm
    intro r hr y hy
    obtain ⟨j, c', hc', rfl⟩ := exists_of_mem_runs h.entries_eq hr
    have hy' : c'.entry? = some y :=
      ((h.atFirst j c' hc').entry?_eq (hu.run_of_mem h.entries_eq hc') h.up).trans hy
    have hnb := h.heap.top_notBelow htop hc' (ListIter.valid_of_entry?_eq hy')
    exact (minIteratorComparator_eq_false (childKey?_of_entry?_eq hc he)
      (childKey?_of_entry?_eq hc' hy')).mp hnb

/-- Seen from its entry `e`, a forward state stands at the first entries not below `e`: on the
union, `p` holds of exactly those. -/
theorem Forward.atEntry (hu : Union cmp runs L) (h : Forward cmp runs s p)
    (he : s.entry? = some e) : Forward cmp runs s fun k => cmp k e.1 != .lt where
  toShape := h.toShape
  up := upClosed_not_lt e.1
  atFirst j c hc := (h.atFirst j c hc).congr fun _ hy =>
    (hu.run.up_eq_of_head? h.up ((h.entry?_eq hu).symm.trans he)
      (hu.mem_of_mem h.entries_eq hc hy)).symm
  heap := h.heap
  current_eq := h.current_eq
  direction_eq := h.direction_eq

/-- **`Next()` going forward** from the entry `e`: the current child steps past `e`, and the other
children, whose keys all differ from `e`'s, stand at their first entries above it. -/
theorem Forward.advance (hu : Union cmp runs L) (h : Forward cmp runs s fun k => cmp k e.1 != .lt)
    (he : s.entry? = some e) : Forward cmp runs (s.next cmp) fun k => cmp k e.1 == .gt := by
  obtain ⟨i, c, hcur, hc, hce⟩ := exists_current_of_entry?_eq he
  have htop : s.minHeap.top = some i := h.current_eq.symm.trans hcur
  unfold next
  simp only [h.direction_eq, ne_eq, not_true_eq_false, if_false, hcur]
  refine
    { toShape := ⟨(map_entries_modify ListIter.entries_next).trans h.entries_eq,
        h.prefixSeekMode_eq⟩
      up := upClosed_gt e.1
      atFirst := fun j c' hc' => ?_
      heap := h.heap.moveTop local_minIteratorComparator htop ListIter.next
      current_eq := rfl
      direction_eq := rfl }
  by_cases hji : j = i
  · -- the current child steps
    subst hji
    simp only [List.getElem?_modify, hc, if_true, Option.map_eq_map, Option.map_some,
      Option.some.injEq] at hc'
    subst hc'
    exact ListIter.atFirst_next (hu.run_of_mem h.entries_eq hc) hce
  · simp only [List.getElem?_modify, Ne.symm hji, if_false, Option.map_eq_map, Option.map_id_fun',
      id_eq] at hc'
    exact (h.atFirst j c' hc').congr fun y hy => beq_gt_eq_bne_lt
      (hu.key_ne h.entries_eq hji hc' hc hy (ListIter.mem_of_entry?_eq hce))

end Forward

/-! ## Going backward -/

section Reverse

variable [Std.TransCmp cmp] {runs : List (List (κ × ν))} {L : List (κ × ν)}
  {s : MergingIterator κ ν} {q : κ → Bool} {e : κ × ν}

omit [Std.TransCmp cmp] in
/-- The max-heap of a reverse state, whose top is the current child. -/
theorem Reverse.exists_heap (h : Reverse cmp runs s q) :
    ∃ heap, s.maxHeap = some heap ∧ HeapHolds (maxIteratorComparator cmp) s.children heap ∧
      s.current = heap.top := by
  obtain ⟨heap, hmax, hheap⟩ := h.heap
  refine ⟨heap, hmax, hheap, ?_⟩
  rw [h.current_eq, currentReverse, hmax]
  rfl

/-- **A reverse state's entry** is the last entry of the union that holds `q`. -/
theorem Reverse.entry?_eq (hu : Union cmp runs L) (h : Reverse cmp runs s q) :
    s.entry? = (L.filter fun e => q e.1).getLast? := by
  obtain ⟨heap, -, hheap, hcur⟩ := h.exists_heap
  rcases htop : heap.top with _ | t
  · -- no child is valid, so no entry holds `q`
    have hnil : (L.filter fun e => q e.1) = [] := by
      refine filter_eq_nil_of_perm hu.perm fun r hr => ?_
      obtain ⟨j, c, hc, rfl⟩ := exists_of_mem_runs h.entries_eq hr
      exact (h.atLast j c hc).filter_eq_nil (hu.run_of_mem h.entries_eq hc) h.down
        (hheap.not_valid_of_top htop hc)
    rw [hnil, MergingIterator.entry?, hcur, htop]
    rfl
  · obtain ⟨c, hc, hvalid⟩ := hheap.valid_top htop
    obtain ⟨e, he⟩ := ListIter.exists_entry?_of_valid hvalid
    have hlast := (h.atLast t c hc).entry?_eq (hu.run_of_mem h.entries_eq hc) h.down
    rw [entry?_of_current (hcur.trans htop), hc, Option.bind_some, he]
    refine (hu.run.getLast?_filter_of_perm hu.perm hu.runs_run
      (List.mem_of_getElem? (getElem?_runs h.entries_eq hc)) (hlast.symm.trans he) ?_).symm
    intro r hr y hy
    obtain ⟨j, c', hc', rfl⟩ := exists_of_mem_runs h.entries_eq hr
    have hy' : c'.entry? = some y :=
      ((h.atLast j c' hc').entry?_eq (hu.run_of_mem h.entries_eq hc') h.down).trans hy
    have hnb := hheap.top_notBelow htop hc' (ListIter.valid_of_entry?_eq hy')
    have hle := (maxIteratorComparator_eq_false (childKey?_of_entry?_eq hc he)
      (childKey?_of_entry?_eq hc' hy')).mp hnb
    exact fun hgt => hle (Std.OrientedCmp.gt_iff_lt.mp hgt)

/-- Seen from its entry `e`, a reverse state stands at the last entries not above `e`. -/
theorem Reverse.atEntry (hu : Union cmp runs L) (h : Reverse cmp runs s q)
    (he : s.entry? = some e) : Reverse cmp runs s fun k => cmp k e.1 != .gt where
  toShape := h.toShape
  down := downClosed_not_gt e.1
  atLast j c hc := (h.atLast j c hc).congr fun _ hy =>
    (hu.run.down_eq_of_getLast? h.down ((h.entry?_eq hu).symm.trans he)
      (hu.mem_of_mem h.entries_eq hc hy)).symm
  heap := h.heap
  current_eq := h.current_eq
  direction_eq := h.direction_eq

/-- **`Prev()` going backward** from the entry `e`: the current child steps back past `e`, and the
other children stand at their last entries below it. -/
theorem Reverse.retreat (hu : Union cmp runs L) (h : Reverse cmp runs s fun k => cmp k e.1 != .gt)
    (he : s.entry? = some e) : Reverse cmp runs (s.prev cmp) fun k => cmp k e.1 == .lt := by
  obtain ⟨i, c, hcur, hc, hce⟩ := exists_current_of_entry?_eq he
  obtain ⟨heap, hmax, hheap, hcur'⟩ := h.exists_heap
  have htop : heap.top = some i := hcur'.symm.trans hcur
  unfold prev
  simp only [h.direction_eq, ne_eq, not_true_eq_false, if_false, hcur, hmax, Option.map_some]
  refine
    { toShape := ⟨(map_entries_modify ListIter.entries_prev).trans h.entries_eq,
        h.prefixSeekMode_eq⟩
      down := downClosed_lt e.1
      atLast := fun j c' hc' => ?_
      heap := ⟨_, rfl, hheap.moveTop local_maxIteratorComparator htop ListIter.prev⟩
      current_eq := rfl
      direction_eq := rfl }
  by_cases hji : j = i
  · -- the current child steps back
    subst hji
    simp only [List.getElem?_modify, hc, if_true, Option.map_eq_map, Option.map_some,
      Option.some.injEq] at hc'
    subst hc'
    exact ListIter.atLast_prev (hu.run_of_mem h.entries_eq hc) hce
  · simp only [List.getElem?_modify, Ne.symm hji, if_false, Option.map_eq_map, Option.map_id_fun',
      id_eq] at hc'
    exact (h.atLast j c' hc').congr fun y hy => beq_lt_eq_bne_gt
      (hu.key_ne h.entries_eq hji hc' hc hy (ListIter.mem_of_entry?_eq hce))

end Reverse

/-! ## Changes of direction -/

section Switch

variable [Std.TransCmp cmp] {runs : List (List (κ × ν))} {L : List (κ × ν)}
  {s : MergingIterator κ ν} {e : κ × ν}

/-- The loop of a change of direction at the entry `e` of the current child `i`: child `i` stays
where it is, and every other child, having no entry at `e`'s key, is not stepped past one and
stays where its seek puts it. -/
theorem getElem?_switch (hu : Union cmp runs L) (h : Shape runs s) {i : Nat} {c : ListIter κ ν}
    (hcur : s.current = some i) (hc : s.children[i]? = some c) (hce : c.entry? = some e)
    (seekTo step : ListIter κ ν → ListIter κ ν) (hseek : ∀ c, (seekTo c).entries = c.entries)
    {cs : List (ListIter κ ν)}
    (hcs : ∀ j, cs[j]? = s.children[j]?.map fun child =>
      if s.current = some j then child
      else if ((seekTo child).valid && (seekTo child).key?.any fun k => cmp e.1 k == .eq) = true
        then step (seekTo child) else seekTo child)
    (j : Nat) : cs[j]? = if j = i then some c else s.children[j]?.map seekTo := by
  rw [hcs j]
  by_cases hji : j = i
  · subst hji
    simp [hc, hcur]
  · rw [if_neg hji]
    cases hc' : s.children[j]? with
    | none => rfl
    | some c' =>
        have hnone : (seekTo c').key?.any (fun k => cmp e.1 k == .eq) = false :=
          ListIter.key?_any_eq_false fun _ hy => hu.key_ne h.entries_eq (Ne.symm hji) hc hc'
            (ListIter.mem_of_entry?_eq hce) (hseek c' ▸ hy)
        simp [hcur, Ne.symm hji, hnone]

/-- **A change of direction to forward** at the entry `e`: every other child is sought to its first
entry not below `e`, none of which has `e`'s key, so the current child, still at `e`, is the top
of the min-heap. -/
theorem Shape.switchToForward (hu : Union cmp runs L) (h : Shape runs s)
    (he : s.entry? = some e) :
    Forward cmp runs (switchToForward cmp s) (fun k => cmp k e.1 != .lt) ∧
      entry? (switchToForward cmp s) = some e := by
  obtain ⟨i, c, hcur, hc, hce⟩ := exists_current_of_entry?_eq he
  unfold MergingIterator.switchToForward
  rw [key?_of_entry?_eq he]
  dsimp only [clearHeaps]
  generalize hpc : pushChildren (minIteratorComparator cmp) _ s.children s.minHeap.clear = pc
  obtain ⟨cs, heap⟩ := pc
  obtain ⟨hcs, hheap⟩ := spec_of_pushChildren_eq local_minIteratorComparator hpc rfl
  have hentries : cs.map ListIter.entries = runs :=
    (map_entries_of_getElem? (fun _ _ => by split_ifs <;> rfl) hcs).trans
      h.entries_eq
  have hchildren := getElem?_switch hu h hcur hc hce (ListIter.seek cmp e.1) ListIter.next
    (fun _ => rfl) hcs
  have hci : cs[i]? = some c := by rw [hchildren i, if_pos rfl]
  have hat : ∀ (j : Nat) (c' : ListIter κ ν), cs[j]? = some c' →
      c'.AtFirst fun k => cmp k e.1 != .lt := by
    intro j c' hc'
    rw [hchildren j] at hc'
    split at hc'
    · -- the current child, at `e`
      rename_i hji
      subst hji
      rw [Option.some.injEq] at hc'
      subst hc'
      exact ListIter.atFirst_of_entry?_eq (hu.run_of_mem h.entries_eq hc) hce
    · obtain ⟨c'', hc'', rfl⟩ := Option.map_eq_some_iff.mp hc'
      exact ListIter.atFirst_seek (hu.run_of_mem h.entries_eq hc'') e.1
  have htop : heap.top = some i := by
    refine hheap.top_eq_of_least hci hce fun j c' y hji hc' hy => ?_
    -- another child's entry is not below `e`, and not at its key
    have hnlt := (hat j c' hc').holds_of_entry?_eq (hu.run_of_mem hentries hc')
      (upClosed_not_lt e.1) hy
    have hne := hu.key_ne hentries hji hc' hci (ListIter.mem_of_entry?_eq hy)
      (ListIter.mem_of_entry?_eq hce)
    revert hnlt hne
    cases cmp y.1 e.1 <;> decide
  refine ⟨{ toShape := ⟨hentries, h.prefixSeekMode_eq⟩
            up := upClosed_not_lt e.1
            atFirst := hat
            heap := hheap
            current_eq := hcur.trans htop.symm
            direction_eq := rfl }, ?_⟩
  simp [MergingIterator.entry?, hcur, hci, hce]

/-- **A change of direction to backward** at the entry `e`: every other child is sought to its
last entry not above `e`, none of which has `e`'s key, so the current child, still at `e`, is the
top of the max-heap, which `current_` is taken from. -/
theorem Shape.switchToReverse (hu : Union cmp runs L) (h : Shape runs s)
    (he : s.entry? = some e) :
    Reverse cmp runs (switchToReverse cmp s) (fun k => cmp k e.1 != .gt) ∧
      entry? (switchToReverse cmp s) = some e := by
  obtain ⟨i, c, hcur, hc, hce⟩ := exists_current_of_entry?_eq he
  unfold MergingIterator.switchToReverse
  rw [key?_of_entry?_eq he]
  dsimp only [clearHeaps, initMaxHeap]
  simp only [h.prefixSeekMode_eq, Bool.not_false, if_true]
  generalize hpc : pushChildren (maxIteratorComparator cmp) _ s.children _ = pc
  obtain ⟨cs, heap⟩ := pc
  have hempty : ((some ((s.maxHeap.map BinaryHeap.clear).getD BinaryHeap.new)).getD
      BinaryHeap.new).data = [] := by
    cases s.maxHeap <;> rfl
  obtain ⟨hcs, hheap⟩ := spec_of_pushChildren_eq local_maxIteratorComparator hpc hempty
  have hentries : cs.map ListIter.entries = runs :=
    (map_entries_of_getElem? (fun _ _ => by split_ifs <;> rfl) hcs).trans h.entries_eq
  have hchildren := getElem?_switch hu h hcur hc hce (ListIter.seekForPrev cmp e.1) ListIter.prev
    (fun _ => rfl) hcs
  have hci : cs[i]? = some c := by rw [hchildren i, if_pos rfl]
  have hat : ∀ (j : Nat) (c' : ListIter κ ν), cs[j]? = some c' →
      c'.AtLast fun k => cmp k e.1 != .gt := by
    intro j c' hc'
    rw [hchildren j] at hc'
    split at hc'
    · -- the current child, at `e`
      rename_i hji
      subst hji
      rw [Option.some.injEq] at hc'
      subst hc'
      exact ListIter.atLast_of_entry?_eq (hu.run_of_mem h.entries_eq hc) hce
    · obtain ⟨c'', hc'', rfl⟩ := Option.map_eq_some_iff.mp hc'
      exact ListIter.atLast_seekForPrev (hu.run_of_mem h.entries_eq hc'') e.1
  have htop : heap.top = some i := by
    refine hheap.top_eq_of_greatest hci hce fun j c' y hji hc' hy => ?_
    -- another child's entry is not above `e`, and not at its key
    have hngt := (hat j c' hc').holds_of_entry?_eq (hu.run_of_mem hentries hc')
      (downClosed_not_gt e.1) hy
    have hne := hu.key_ne hentries hji hc' hci (ListIter.mem_of_entry?_eq hy)
      (ListIter.mem_of_entry?_eq hce)
    revert hngt hne
    cases cmp y.1 e.1 <;> decide
  have hcur' : s.current = heap.top := hcur.trans htop.symm
  refine ⟨{ toShape := ⟨hentries, rfl⟩
            down := downClosed_not_gt e.1
            atLast := hat
            heap := ⟨heap, rfl, hheap⟩
            current_eq := rfl
            direction_eq := rfl }, ?_⟩
  simp [MergingIterator.entry?, currentReverse, ← hcur', hcur, hci, hce]

end Switch

/-! ## The seeks -/

section Seek

variable [Std.TransCmp cmp] {runs : List (List (κ × ν))} {L : List (κ × ν)}
  {s : MergingIterator κ ν} {p q : κ → Bool} {move : Nat → ListIter κ ν → ListIter κ ν}

/-- **The seeks going forward**, `SeekToFirst()` and `Seek(t)`: from any state, each child moved
to its first entry holding `p`, the valid ones on a fresh min-heap. -/
theorem Shape.seekForward (hu : Union cmp runs L) (h : Shape runs s) (hp : UpClosed cmp p)
    (hmove : ∀ i c, (move i c).entries = c.entries)
    (hat : ∀ i c, Run cmp Prod.fst c.entries → (move i c).AtFirst p) :
    Forward cmp runs (seekForward cmp move s) p := by
  unfold MergingIterator.seekForward
  dsimp only [clearHeaps]
  generalize hpc : pushChildren (minIteratorComparator cmp) move s.children s.minHeap.clear = pc
  obtain ⟨cs, heap⟩ := pc
  obtain ⟨hcs, hheap⟩ := spec_of_pushChildren_eq local_minIteratorComparator hpc rfl
  refine
    { toShape := ⟨(map_entries_of_getElem? hmove hcs).trans h.entries_eq, h.prefixSeekMode_eq⟩
      up := hp
      atFirst := fun j c' hc' => ?_
      heap := hheap
      current_eq := rfl
      direction_eq := rfl }
  obtain ⟨c, hc, rfl⟩ := Option.map_eq_some_iff.mp ((hcs j).symm.trans hc')
  exact hat j c (hu.run_of_mem h.entries_eq hc)

/-- **The seeks going backward**, `SeekToLast()` and `SeekForPrev(t)`: each child moved to its last
entry holding `q`, the valid ones on a fresh max-heap. -/
theorem Shape.seekReverse (hu : Union cmp runs L) (h : Shape runs s) (hq : DownClosed cmp q)
    (hmove : ∀ i c, (move i c).entries = c.entries)
    (hat : ∀ i c, Run cmp Prod.fst c.entries → (move i c).AtLast q) :
    Reverse cmp runs (seekReverse cmp move s) q := by
  unfold MergingIterator.seekReverse
  dsimp only [clearHeaps, initMaxHeap]
  generalize hpc : pushChildren (maxIteratorComparator cmp) move s.children _ = pc
  obtain ⟨cs, heap⟩ := pc
  have hempty : ((some ((s.maxHeap.map BinaryHeap.clear).getD BinaryHeap.new)).getD
      BinaryHeap.new).data = [] := by
    cases s.maxHeap <;> rfl
  obtain ⟨hcs, hheap⟩ := spec_of_pushChildren_eq local_maxIteratorComparator hpc hempty
  refine
    { toShape := ⟨(map_entries_of_getElem? hmove hcs).trans h.entries_eq, h.prefixSeekMode_eq⟩
      down := hq
      atLast := fun j c' hc' => ?_
      heap := ⟨heap, rfl, hheap⟩
      current_eq := rfl
      direction_eq := rfl }
  obtain ⟨c, hc, rfl⟩ := Option.map_eq_some_iff.mp ((hcs j).symm.trans hc')
  exact hat j c (hu.run_of_mem h.entries_eq hc)

theorem Shape.seekToFirst (hu : Union cmp runs L) (h : Shape runs s) :
    Forward cmp runs (s.seekToFirst cmp) fun _ => true :=
  h.seekForward hu (fun _ _ _ _ => rfl) (fun _ _ => rfl) fun _ c _ => ListIter.atFirst_seekToFirst c

theorem Shape.seek (hu : Union cmp runs L) (h : Shape runs s) (t : κ) :
    Forward cmp runs (s.seek cmp t) fun k => cmp k t != .lt :=
  h.seekForward hu (upClosed_not_lt t) (fun _ _ => rfl) fun _ _ hrun => ListIter.atFirst_seek hrun t

theorem Shape.seekToLast (hu : Union cmp runs L) (h : Shape runs s) :
    Reverse cmp runs (s.seekToLast cmp) fun _ => true :=
  h.seekReverse hu (fun _ _ _ _ => rfl) (fun _ _ => rfl) fun _ c _ => ListIter.atLast_seekToLast c

theorem Shape.seekForPrev (hu : Union cmp runs L) (h : Shape runs s) (t : κ) :
    Reverse cmp runs (s.seekForPrev cmp t) fun k => cmp k t != .gt :=
  h.seekReverse hu (downClosed_not_gt t) (fun _ _ => rfl) fun _ _ hrun =>
    ListIter.atLast_seekForPrev hrun t

end Seek

/-! ## Every reachable state -/

section Positioned

variable [Std.TransCmp cmp] {runs : List (List (κ × ν))} {L : List (κ × ν)}
  {s : MergingIterator κ ν} {e : κ × ν}

/-- The merging iterator over fresh children is turned forward before every entry. -/
theorem forward_new (runs : List (List (κ × ν))) :
    Forward cmp runs (new cmp (runs.map ListIter.fresh) false) fun _ => false := by
  unfold new
  dsimp only
  generalize hpc : pushChildren (minIteratorComparator cmp) _ _ BinaryHeap.new = pc
  obtain ⟨cs, heap⟩ := pc
  obtain ⟨hcs, hheap⟩ := spec_of_pushChildren_eq local_minIteratorComparator hpc rfl
  have hfresh : (runs.map ListIter.fresh).map ListIter.entries = runs := by
    simp [Function.comp_def, ListIter.fresh]
  refine
    { toShape := ⟨(map_entries_of_getElem? (fun _ _ => rfl) hcs).trans hfresh, rfl⟩
      up := fun _ _ hp _ => hp
      atFirst := fun j c hc => ?_
      heap := hheap
      current_eq := rfl
      direction_eq := rfl }
  -- a fresh child stands past its end
  rw [hcs j, List.getElem?_map] at hc
  obtain ⟨r, -, rfl⟩ : ∃ r, runs[j]? = some r ∧ ListIter.fresh r = c := by
    simpa using hc
  simp [ListIter.AtFirst, ListIter.fresh]

omit [Std.TransCmp cmp] in
theorem Positioned.shape (h : Positioned cmp runs s) : Shape runs s := by
  rcases h with ⟨_, hf⟩ | ⟨_, hr⟩
  · exact hf.toShape
  · exact hr.toShape

omit [Std.TransCmp cmp] in
/-- A valid positioned iterator is at an entry: its current child is the top of a heap of valid
children. -/
theorem Positioned.exists_entry?_of_valid (h : Positioned cmp runs s) (hvalid : s.valid = true) :
    ∃ e, s.entry? = some e := by
  obtain ⟨i, hcur⟩ := Option.isSome_iff_exists.mp hvalid
  have hi : ∃ c, s.children[i]? = some c ∧ c.valid = true := by
    rcases h with ⟨_, hf⟩ | ⟨_, hr⟩
    · exact hf.heap.valid_top (hf.current_eq.symm.trans hcur)
    · obtain ⟨heap, -, hheap, hcur'⟩ := hr.exists_heap
      exact hheap.valid_top (hcur'.symm.trans hcur)
  obtain ⟨c, hc, hcv⟩ := hi
  obtain ⟨e, he⟩ := ListIter.exists_entry?_of_valid hcv
  exact ⟨e, by rw [entry?_of_current hcur, hc, Option.bind_some, he]⟩

/-- **`Next()` from any positioned state** at the entry `e`: turned forward at the first entries
above `e`, whichever way the iterator moved before. -/
theorem Positioned.next (hu : Union cmp runs L) (h : Positioned cmp runs s)
    (he : s.entry? = some e) : Forward cmp runs (s.next cmp) fun k => cmp k e.1 == .gt := by
  rcases h with ⟨_, hf⟩ | ⟨_, hr⟩
  · exact (hf.atEntry hu he).advance hu he
  · -- going backward, the direction changes first
    obtain ⟨hf, he'⟩ := hr.toShape.switchToForward hu he
    rw [next_of_reverse hr.direction_eq he]
    exact hf.advance hu he'

/-- **`Prev()` from any positioned state** at the entry `e`: turned backward at the last entries
below `e`. -/
theorem Positioned.prev (hu : Union cmp runs L) (h : Positioned cmp runs s)
    (he : s.entry? = some e) : Reverse cmp runs (s.prev cmp) fun k => cmp k e.1 == .lt := by
  rcases h with ⟨_, hf⟩ | ⟨_, hr⟩
  · -- going forward, the direction changes first
    obtain ⟨hr, he'⟩ := hf.toShape.switchToReverse hu he
    rw [prev_of_forward hf.direction_eq he]
    exact hr.retreat hu he'
  · exact (hr.atEntry hu he).retreat hu he

/-- **Every call keeps the iterator positioned.** -/
theorem Positioned.step (hu : Union cmp runs L) (h : Positioned cmp runs s) (op : Op κ)
    (hop : op.Allowed s) : Positioned cmp runs (s.step cmp op) := by
  cases op with
  | seekToFirst => exact Or.inl ⟨_, h.shape.seekToFirst hu⟩
  | seekToLast => exact Or.inr ⟨_, h.shape.seekToLast hu⟩
  | seek t => exact Or.inl ⟨_, h.shape.seek hu t⟩
  | seekForPrev t => exact Or.inr ⟨_, h.shape.seekForPrev hu t⟩
  | next =>
      obtain ⟨e, he⟩ := h.exists_entry?_of_valid hop
      exact Or.inl ⟨_, h.next hu he⟩
  | prev =>
      obtain ⟨e, he⟩ := h.exists_entry?_of_valid hop
      exact Or.inr ⟨_, h.prev hu he⟩

/-- **Every reachable state is positioned**, by induction on the calls. -/
theorem positioned_of_reachable (hu : Union cmp runs L)
    (hs : Reachable cmp (new cmp (runs.map ListIter.fresh) false) s) : Positioned cmp runs s := by
  induction hs with
  | init => exact Or.inl ⟨_, forward_new runs⟩
  | step op _ hop ih => exact ih.step hu op hop

end Positioned

/-- **The merging iterator walks the sorted union of its children.** Over children holding runs
whose entries together form the run `L`, from any state the calls reach: the seeks land on the
first entry of `L`, its last, its first not below `t` and its last not above `t`, and from the
entry `L[j]` the iterator moves to `L[j+1]` and `L[j-1]`, past either end to no entry. -/
theorem sorted_union [Std.TransCmp cmp] {runs : List (List (κ × ν))} {L : List (κ × ν)}
    {s : MergingIterator κ ν} (hruns : ∀ r ∈ runs, Run cmp Prod.fst r)
    (hL : Run cmp Prod.fst L) (hperm : L.Perm runs.flatten)
    (hs : Reachable cmp (new cmp (runs.map ListIter.fresh) false) s) :
    entry? (s.seekToFirst cmp) = L.head? ∧ entry? (s.seekToLast cmp) = L.getLast? ∧
      (∀ t, entry? (s.seek cmp t) = L.find? fun e => cmp e.1 t != .lt) ∧
      (∀ t, entry? (s.seekForPrev cmp t) = (L.filter fun e => cmp e.1 t != .gt).getLast?) ∧
      ∀ j e, L[j]? = some e → s.entry? = some e →
        entry? (s.next cmp) = L[j + 1]? ∧
          entry? (s.prev cmp) = if j = 0 then none else L[j - 1]? := by
  have hu : Union cmp runs L := ⟨hruns, hL, hperm⟩
  have hpos := positioned_of_reachable hu hs
  refine ⟨?_, ?_, fun t => ?_, fun t => (hpos.shape.seekForPrev hu t).entry?_eq hu,
    fun j e hj he => ⟨?_, ?_⟩⟩
  · rw [(hpos.shape.seekToFirst hu).entry?_eq hu, List.filter_true]
  · rw [(hpos.shape.seekToLast hu).entry?_eq hu, List.filter_true]
  · rw [(hpos.shape.seek hu t).entry?_eq hu, List.head?_filter]
  · rw [(hpos.next hu he).entry?_eq hu]
    exact hL.head?_filter_gt hj
  · rw [(hpos.prev hu he).entry?_eq hu]
    exact hL.getLast?_filter_lt hj

/-- Two children, over the keys `1, 3` and `2`, merged from fresh. -/
theorem sorted_union_two_children :
    let runs : List (List (Nat × Nat)) := [[(1, 10), (3, 30)], [(2, 20)]]
    let L : List (Nat × Nat) := [(1, 10), (2, 20), (3, 30)]
    let s := new compare (runs.map ListIter.fresh) false
    (∀ r ∈ runs, Run compare Prod.fst r) ∧ Run compare Prod.fst L ∧ L.Perm runs.flatten ∧
      Reachable compare s s ∧
      entry? (s.seekToFirst compare) = L.head? ∧ entry? (s.seekToLast compare) = L.getLast? ∧
      (∀ t, entry? (s.seek compare t) = L.find? fun e => compare e.1 t != .lt) ∧
      (∀ t, entry? (s.seekForPrev compare t) =
        (L.filter fun e => compare e.1 t != .gt).getLast?) ∧
      ∀ j e, L[j]? = some e → s.entry? = some e →
        entry? (s.next compare) = L[j + 1]? ∧
          entry? (s.prev compare) = if j = 0 then none else L[j - 1]? := by
  intro runs L s
  have hruns : ∀ r ∈ runs, Run compare Prod.fst r := by
    unfold Run
    decide
  have hL : Run compare Prod.fst L := by
    unfold Run
    decide
  have hperm : L.Perm runs.flatten := by decide
  exact ⟨hruns, hL, hperm, .init, sorted_union hruns hL hperm .init⟩

end MergingIterator

end RocksCloud.Table
