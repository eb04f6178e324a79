import Mathlib
import RocksCloud.Lib.SortedRuns
import RocksCloud.Util.BinaryHeap

/-!
# `MergingIterator` (table/merging_iterator.cc)

A merging iterator walks the union of its children in key order. Going forward it keeps the valid
children in a min-heap (`MinIteratorComparator`), going backward in a max-heap
(`MaxIteratorComparator`, created on the first backward move); the current child is the top of
the heap of the direction. `Next` moves the current child and restores the heap with
`replace_top` or `pop`; a change of direction first re-seeks every other child to the current key
(`SwitchToForward`, and the first block of `Prev`).

The children are modelled as iterators over static lists of entries (`ListIter`): a position in
the list, valid before its end, and the seeks of a sorted list. A child's status is always OK, so
`considerStatus` never changes `status_`, which is left out. The heaps are `Util.BinaryHeap`
over child indices, and their comparators read the children's keys at each call, as the
source's comparators read `key()` through the child pointers; a child that is not valid is never
in a heap, and its key reads as missing (`optionCompare`).

* `pushChildren`: the loop over `children_` of the seeks and of a change of direction.
* `step`, `Reachable`: the public calls, from a merging iterator over fresh children.
-/

set_option autoImplicit false

namespace RocksCloud.Table

open RocksCloud.Lib.SortedRuns RocksCloud.Util

/-- A child iterator over a list of entries: `pos` indexes `entries`, and a position at or past
the end is not valid. -/
structure ListIter (κ ν : Type) where
  entries : List (κ × ν)
  pos : Nat
  deriving Repr, DecidableEq

namespace ListIter

variable {κ ν : Type} (cmp : κ → κ → Ordering)

/-- An iterator not yet positioned. -/
def fresh (entries : List (κ × ν)) : ListIter κ ν := ⟨entries, entries.length⟩

/-- `Valid()`. -/
def valid (it : ListIter κ ν) : Bool := decide (it.pos < it.entries.length)

/-- The entry at the position: `key()` and `value()`. -/
def entry? (it : ListIter κ ν) : Option (κ × ν) := it.entries[it.pos]?

/-- `key()`. -/
def key? (it : ListIter κ ν) : Option κ := it.entry?.map Prod.fst

/-- `SeekToFirst()`. -/
def seekToFirst (it : ListIter κ ν) : ListIter κ ν := { it with pos := 0 }

/-- `SeekToLast()`: the last entry, or nothing. -/
def seekToLast (it : ListIter κ ν) : ListIter κ ν := { it with pos := it.entries.length - 1 }

/-- `Seek(target)`: the first entry not below `target`. -/
def seek (target : κ) (it : ListIter κ ν) : ListIter κ ν :=
  { it with pos := it.entries.findIdx fun e => cmp e.1 target != .lt }

/-- `SeekForPrev(target)`: the entry before the first one above `target`, or nothing. -/
def seekForPrev (target : κ) (it : ListIter κ ν) : ListIter κ ν :=
  let above := it.entries.findIdx fun e => cmp e.1 target == .gt
  { it with pos := if above = 0 then it.entries.length else above - 1 }

/-- `Next()`. -/
def next (it : ListIter κ ν) : ListIter κ ν := { it with pos := it.pos + 1 }

/-- `Prev()`: off the front, not valid. -/
def prev (it : ListIter κ ν) : ListIter κ ν :=
  { it with pos := if it.pos = 0 then it.entries.length else it.pos - 1 }

end ListIter

/-- `MergingIterator::Direction`. -/
inductive Direction where
  | forward
  | reverse
  deriving Repr, DecidableEq

/-- `MergingIterator`: `children_`, `current_` as an index, `direction_`, `minHeap_`, `maxHeap_`
(none until `InitMaxHeap`) and `prefix_seek_mode_`. -/
structure MergingIterator (κ ν : Type) where
  children : List (ListIter κ ν)
  current : Option Nat
  direction : Direction
  minHeap : BinaryHeap Nat
  maxHeap : Option (BinaryHeap Nat)
  prefixSeekMode : Bool

namespace MergingIterator

variable {κ ν : Type} (cmp : κ → κ → Ordering)

/-- The key of child `i`, when it is valid. -/
def childKey? (children : List (ListIter κ ν)) (i : Nat) : Option κ :=
  children[i]?.bind ListIter.key?

/-- `MinIteratorComparator`: `Compare(a->key(), b->key()) > 0`, so the heap keeps the least key
on top. -/
def minIteratorComparator (children : List (ListIter κ ν)) (a b : Nat) : Bool :=
  optionCompare cmp (childKey? children a) (childKey? children b) == .gt

/-- `MaxIteratorComparator`: `Compare(a->key(), b->key()) < 0`. -/
def maxIteratorComparator (children : List (ListIter κ ν)) (a b : Nat) : Bool :=
  optionCompare cmp (childKey? children a) (childKey? children b) == .lt

/-- One turn of the loop over `children_` of the seeks and of a change of direction: child `i` is
moved, then pushed onto the heap when it is valid. -/
def pushChild (heapCmp : List (ListIter κ ν) → Nat → Nat → Bool)
    (move : Nat → ListIter κ ν → ListIter κ ν) (acc : List (ListIter κ ν) × BinaryHeap Nat)
    (i : Nat) : List (ListIter κ ν) × BinaryHeap Nat :=
  let children := acc.1.modify i (move i)
  if children[i]?.any ListIter.valid then (children, acc.2.push (heapCmp children) i)
  else (children, acc.2)

/-- The loop over `children_`. -/
def pushChildren (heapCmp : List (ListIter κ ν) → Nat → Nat → Bool)
    (move : Nat → ListIter κ ν → ListIter κ ν) (children : List (ListIter κ ν))
    (heap : BinaryHeap Nat) : List (ListIter κ ν) × BinaryHeap Nat :=
  (List.range children.length).foldl (pushChild heapCmp move) (children, heap)

/-- `ClearHeaps()`. -/
def clearHeaps (s : MergingIterator κ ν) : MergingIterator κ ν :=
  { s with minHeap := s.minHeap.clear, maxHeap := s.maxHeap.map BinaryHeap.clear }

/-- `InitMaxHeap()`. -/
def initMaxHeap (s : MergingIterator κ ν) : MergingIterator κ ν :=
  { s with maxHeap := some (s.maxHeap.getD BinaryHeap.new) }

/-- `CurrentForward()`. -/
def currentForward (s : MergingIterator κ ν) : Option Nat := s.minHeap.top

/-- `CurrentReverse()`. -/
def currentReverse (s : MergingIterator κ ν) : Option Nat := s.maxHeap.bind BinaryHeap.top

/-- `Valid()`: a current child (the status is OK). -/
def valid (s : MergingIterator κ ν) : Bool := s.current.isSome

/-- `key()`. -/
def key? (s : MergingIterator κ ν) : Option κ := s.current.bind (childKey? s.children)

/-- `key()` and `value()`: the entry of the current child. -/
def entry? (s : MergingIterator κ ν) : Option (κ × ν) :=
  s.current.bind fun i => s.children[i]?.bind ListIter.entry?

/-- `MergingIterator(comparator, children, n, is_arena_mode, prefix_seek_mode)`. -/
def new (children : List (ListIter κ ν)) (prefixSeekMode : Bool) : MergingIterator κ ν :=
  let (children, minHeap) :=
    pushChildren (minIteratorComparator cmp) (fun _ child => child) children BinaryHeap.new
  { children, current := minHeap.top, direction := .forward, minHeap, maxHeap := none,
    prefixSeekMode }

/-! ## The calls -/

/-- `SeekToFirst()` and `Seek(target)`: clear the heaps, move every child and push the valid ones
onto the min-heap. -/
def seekForward (move : Nat → ListIter κ ν → ListIter κ ν) (s : MergingIterator κ ν) :
    MergingIterator κ ν :=
  let s := s.clearHeaps
  let (children, minHeap) := pushChildren (minIteratorComparator cmp) move s.children s.minHeap
  let s := { s with children, minHeap, direction := .forward }
  { s with current := s.currentForward }

/-- `SeekToLast()` and `SeekForPrev(target)`: the same onto the max-heap. -/
def seekReverse (move : Nat → ListIter κ ν → ListIter κ ν) (s : MergingIterator κ ν) :
    MergingIterator κ ν :=
  let s := s.clearHeaps.initMaxHeap
  let (children, maxHeap) :=
    pushChildren (maxIteratorComparator cmp) move s.children (s.maxHeap.getD BinaryHeap.new)
  let s := { s with children, maxHeap := some maxHeap, direction := .reverse }
  { s with current := s.currentReverse }

/-- `SeekToFirst()`. -/
def seekToFirst (s : MergingIterator κ ν) : MergingIterator κ ν :=
  seekForward cmp (fun _ child => child.seekToFirst) s

/-- `SeekToLast()`. -/
def seekToLast (s : MergingIterator κ ν) : MergingIterator κ ν :=
  seekReverse cmp (fun _ child => child.seekToLast) s

/-- `Seek(target)`. -/
def seek (target : κ) (s : MergingIterator κ ν) : MergingIterator κ ν :=
  seekForward cmp (fun _ child => child.seek cmp target) s

/-- `SeekForPrev(target)`. -/
def seekForPrev (target : κ) (s : MergingIterator κ ν) : MergingIterator κ ν :=
  seekReverse cmp (fun _ child => child.seekForPrev cmp target) s

/-- `SwitchToForward()`: every child but the current one is sought to `key()` and stepped past an
equal key; the valid children go onto the min-heap. `current_` is left as it is. -/
def switchToForward (s : MergingIterator κ ν) : MergingIterator κ ν :=
  match s.key? with
  | none => s
  | some target =>
      let current := s.current
      let s := s.clearHeaps
      let (children, minHeap) := pushChildren (minIteratorComparator cmp)
        (fun i child =>
          if current = some i then child
          else
            let child := child.seek cmp target
            if child.valid && child.key?.any (fun k => cmp target k == .eq) then child.next
            else child)
        s.children s.minHeap
      { s with children, minHeap, direction := .forward }

/-- The first block of `Prev()`, which turns the direction: every child but the current one is
sought for previous to `key()` and stepped back over an equal key; the valid children go onto the
max-heap, and `current_` is taken from it unless in prefix seek mode. -/
def switchToReverse (s : MergingIterator κ ν) : MergingIterator κ ν :=
  match s.key? with
  | none => s
  | some target =>
      let current := s.current
      let s := s.clearHeaps.initMaxHeap
      let (children, maxHeap) := pushChildren (maxIteratorComparator cmp)
        (fun i child =>
          if current = some i then child
          else
            let child := child.seekForPrev cmp target
            if child.valid && child.key?.any (fun k => cmp target k == .eq) then child.prev
            else child)
        s.children (s.maxHeap.getD BinaryHeap.new)
      let s := { s with children, maxHeap := some maxHeap, direction := .reverse }
      if !s.prefixSeekMode then { s with current := s.currentReverse } else s

/-- `Next()`: turned forward, the current child steps and the min-heap is restored. -/
def next (s : MergingIterator κ ν) : MergingIterator κ ν :=
  let s := if s.direction ≠ .forward then switchToForward cmp s else s
  match s.current with
  | none => s
  | some i =>
      let children := s.children.modify i ListIter.next
      let minHeap :=
        if children[i]?.any ListIter.valid then
          s.minHeap.replaceTop (minIteratorComparator cmp children) i
        else s.minHeap.pop (minIteratorComparator cmp children)
      { s with children, minHeap, current := minHeap.top }

/-- `Prev()`: turned backward, the current child steps back and the max-heap is restored. -/
def prev (s : MergingIterator κ ν) : MergingIterator κ ν :=
  let s := if s.direction ≠ .reverse then switchToReverse cmp s else s
  match s.current with
  | none => s
  | some i =>
      let children := s.children.modify i ListIter.prev
      let maxHeap := s.maxHeap.map fun heap =>
        if children[i]?.any ListIter.valid then
          heap.replaceTop (maxIteratorComparator cmp children) i
        else heap.pop (maxIteratorComparator cmp children)
      let s := { s with children, maxHeap }
      { s with current := s.currentReverse }

/-- The calls of a user of the iterator. -/
inductive Op (κ : Type) where
  | seekToFirst
  | seekToLast
  | seek (target : κ)
  | seekForPrev (target : κ)
  | next
  | prev

/-- One call. -/
def step (s : MergingIterator κ ν) : Op κ → MergingIterator κ ν
  | .seekToFirst => s.seekToFirst cmp
  | .seekToLast => s.seekToLast cmp
  | .seek target => s.seek cmp target
  | .seekForPrev target => s.seekForPrev cmp target
  | .next => s.next cmp
  | .prev => s.prev cmp

/-- `Next()` and `Prev()` assert `Valid()`. -/
def Op.Allowed (s : MergingIterator κ ν) : Op κ → Prop
  | .next => s.valid = true
  | .prev => s.valid = true
  | _ => True

/-- The states the calls reach from `init`. -/
inductive Reachable (init : MergingIterator κ ν) : MergingIterator κ ν → Prop
  | init : Reachable init init
  | step {s : MergingIterator κ ν} (op : Op κ) : Reachable init s → op.Allowed s →
      Reachable init (s.step cmp op)

end MergingIterator

end RocksCloud.Table
