import Mathlib
import RocksCloud.Lib.BinarySearch

/-!
# Range tombstone fragmentation of `db/range_tombstone_fragmenter.cc`

A range tombstone `[start, end) @ seq` deletes the user keys from `start` up to `end` written
before `seq`. `FragmentedRangeTombstoneList` cuts a set of possibly overlapping tombstones into
fragments: ranges that do not overlap, each with the sequence numbers of the tombstones that
cover it, in descending order. `FragmentTombstones` sweeps the tombstones in order of their
start keys and keeps the end keys of those that began so far in a `std::set` ordered by end
key (ascending) and then by sequence number (descending). When the start key changes,
`flush_current_tombstones` emits fragments up to the new start key: from the current start
key to each end key in turn, and then to the new start key, each fragment carrying the
sequence numbers of the end keys not yet passed.

`FragmentedRangeTombstoneIterator::MaxCoveringTombstoneSeqnum` answers a point lookup with
`std::upper_bound` on the fragments' end keys, which takes the fragments to be sorted.

User keys are an arbitrary linear order, the user comparator. Fragmentation for reads
(`for_compaction = false`) keeps every sequence number, so the snapshot list does not enter;
the constructor with both branches (`newFor`) comes after it, and with `for_compaction = false`
it is the one for reads (`newFor_false`). Fragmentation for compaction cuts the same fragments
and keeps, of each fragment's numbers, the largest one per snapshot stripe
(`newFor_compaction_sees_read_fragments`). Nothing on the way from `DB::DeleteRange` to the
fragmenter compares a tombstone's start key with its end key.
-/

set_option autoImplicit false

namespace RocksCloud.Db

open RocksCloud.Lib

/-- `kMaxSequenceNumber`: sequence numbers have 56 bits. -/
def kMaxSequenceNumber : Nat := 2 ^ 56 - 1

section Fragmenter

variable {α : Type} [LinearOrder α]

/-- An unfragmented range tombstone: its internal key holds the start key and the sequence
number, its value the end key. -/
structure RangeTombstone (α : Type) where
  startKey : α
  endKey : α
  seq : Nat
  deriving Repr, DecidableEq

/-- The internal key order on tombstones: by start key, then by sequence number descending. All
tombstones have the same value type, `kTypeRangeDeletion`. -/
def internalKeyLe (a b : RangeTombstone α) : Bool :=
  decide (a.startKey < b.startKey) || (decide (a.startKey = b.startKey) && decide (b.seq ≤ a.seq))

/-- The first loop of the constructor: are the tombstones in internal key order? -/
def isSorted : List (RangeTombstone α) → Bool
  | a :: b :: rest => internalKeyLe a b && isSorted (b :: rest)
  | _ => true

/-- The order of `cur_end_keys`: by end key, then by sequence number descending. -/
def endKeyLt (a b : α × Nat) : Bool :=
  decide (a.1 < b.1) || (decide (a.1 = b.1) && decide (b.2 < a.2))

/-- `cur_end_keys.emplace(end, seq, kTypeRangeDeletion)`: insert into the sorted set, nothing
if the entry is there. -/
def insertEndKey (e : α × Nat) : List (α × Nat) → List (α × Nat)
  | [] => [e]
  | x :: xs =>
      if endKeyLt e x then e :: x :: xs
      else if e = x then x :: xs
      else x :: insertEndKey e xs

/-- `RangeTombstoneStack`: a fragment, with the range `[seqStartIdx, seqEndIdx)` of its
sequence numbers in `tombstone_seqs_`. -/
structure RangeTombstoneStack (α : Type) where
  startKey : α
  endKey : α
  seqStartIdx : Nat
  seqEndIdx : Nat
  deriving Repr, DecidableEq

/-- `FragmentedRangeTombstoneList`: the fragments and their sequence numbers. -/
structure FragmentedRangeTombstoneList (α : Type) where
  tombstones : List (RangeTombstoneStack α)
  tombstoneSeqs : List Nat
  deriving Repr, DecidableEq

/-- Flush the fragment `[curStartKey, curEndKey)` covered by the end keys `pending`
(`[it, cur_end_keys.end())`), their sequence numbers sorted in descending order. -/
def FragmentedRangeTombstoneList.flushFragment (l : FragmentedRangeTombstoneList α)
    (curStartKey curEndKey : α) (pending : List (α × Nat)) : FragmentedRangeTombstoneList α :=
  let seqnumsToFlush := (pending.map Prod.snd).insertionSort fun x y => y ≤ x
  let startIdx := l.tombstoneSeqs.length
  ⟨l.tombstones ++ [⟨curStartKey, curEndKey, startIdx, startIdx + seqnumsToFlush.length⟩],
    l.tombstoneSeqs ++ seqnumsToFlush⟩

/-- The `for` loop of `flush_current_tombstones` from the end key `it` on: the list, and the
end keys left when the loop stops at `next_start_key` (`none` when it runs to the end). -/
def flushLoop (nextStartKey : α) :
    FragmentedRangeTombstoneList α → α → List (α × Nat) →
      FragmentedRangeTombstoneList α × Option (List (α × Nat))
  | l, _, [] => (l, none)
  | l, curStartKey, e :: rest =>
      -- an empty fragment is skipped
      if curStartKey = e.1 then flushLoop nextStartKey l curStartKey rest
      -- the end keys from here on reach past the next start key: flush up to it and keep them
      else if nextStartKey ≤ e.1 then
        (l.flushFragment curStartKey nextStartKey (e :: rest), some (e :: rest))
      else flushLoop nextStartKey (l.flushFragment curStartKey e.1 (e :: rest)) e.1 rest

/-- The state of `FragmentTombstones`: the list built so far, `cur_start_key` and
`cur_end_keys`. -/
structure FragmenterState (α : Type) where
  list : FragmentedRangeTombstoneList α
  curStartKey : α
  curEndKeys : List (α × Nat)
  deriving Repr, DecidableEq

/-- `flush_current_tombstones(next_start_key)`; when the loop ran off the end, the working set
is cleared. -/
def FragmenterState.flushCurrentTombstones (st : FragmenterState α) (nextStartKey : α) :
    FragmenterState α :=
  match flushLoop nextStartKey st.list st.curStartKey st.curEndKeys with
  | (l, some rest) => ⟨l, nextStartKey, rest⟩
  | (l, none) => ⟨l, nextStartKey, []⟩

/-- The main loop of `FragmentTombstones` over the tombstones after the first, and the final
flush up to the largest end key. -/
def fragmentLoop : List (RangeTombstone α) → FragmenterState α → FragmenterState α
  | [], st =>
      match st.curEndKeys.getLast? with
      | some lastEndKey => st.flushCurrentTombstones lastEndKey.1
      | none => st
  | t :: ts, st =>
      -- the start key has changed: flush the tombstones that start before it
      let st := if st.curEndKeys ≠ [] ∧ st.curStartKey ≠ t.startKey then
          st.flushCurrentTombstones t.startKey
        else st
      fragmentLoop ts
        { st with curStartKey := t.startKey, curEndKeys := insertEndKey (t.endKey, t.seq) st.curEndKeys }

/-- `FragmentTombstones` with `for_compaction = false`. The first tombstone meets an empty
working set, so it only sets `cur_start_key`. -/
def fragmentTombstones : List (RangeTombstone α) → FragmentedRangeTombstoneList α
  | [] => ⟨[], []⟩
  | t :: ts => (fragmentLoop ts ⟨⟨[], []⟩, t.startKey, [(t.endKey, t.seq)]⟩).list

/-- The constructor of `FragmentedRangeTombstoneList`: tombstones out of internal key order are
sorted first (`VectorIterator`). -/
def FragmentedRangeTombstoneList.new (tombstones : List (RangeTombstone α)) :
    FragmentedRangeTombstoneList α :=
  if isSorted tombstones then fragmentTombstones tombstones
  else fragmentTombstones (tombstones.insertionSort fun a b => internalKeyLe a b)

/-- The sequence numbers of a fragment. -/
def FragmentedRangeTombstoneList.seqsOf (l : FragmentedRangeTombstoneList α)
    (t : RangeTombstoneStack α) : List Nat :=
  (l.tombstoneSeqs.drop t.seqStartIdx).take (t.seqEndIdx - t.seqStartIdx)

/-- `MaxCoveringTombstoneSeqnum(target)` of an iterator with upper bound `upperBound`:
`SeekToCoveringTombstone` finds the first fragment ending after the target and the first of
its sequence numbers at most the upper bound; the answer is that number if the fragment starts
at or before the target, else `0`. -/
def FragmentedRangeTombstoneList.maxCoveringTombstoneSeqnum (l : FragmentedRangeTombstoneList α)
    (upperBound : Nat) (target : α) : Nat :=
  let pos := Lib.upperBound (fun (k : α) (t : RangeTombstoneStack α) => decide (k < t.endKey))
    target l.tombstones
  match l.tombstones[pos]? with
  | none => 0
  | some t =>
      let seqs := l.seqsOf t
      let seqPos := Lib.lowerBound (fun (s u : Nat) => decide (s > u)) seqs upperBound
      match seqs[seqPos]? with
      | some s => if t.startKey ≤ target then s else 0
      | none => 0

/-- The fragments of a reversed tombstone `[c, a)` after `[b, d)`, for keys `a < b < c < d`:
`[b, c)`, then `[c, a)`, which runs backwards, then `[a, d)` with the sequence number of
`[b, d)`. -/
theorem new_reversed_tombstone {a b c d : α} (hab : a < b) (hbc : b < c) (hcd : c < d) :
    FragmentedRangeTombstoneList.new [⟨b, d, 3⟩, ⟨c, a, 5⟩] =
      ⟨[⟨b, c, 0, 1⟩, ⟨c, a, 1, 3⟩, ⟨a, d, 3, 4⟩], [3, 5, 3, 3]⟩ := by
  have hac : a < c := hab.trans hbc
  have had : a < d := hac.trans hcd
  have hbd : b < d := hbc.trans hcd
  simp [FragmentedRangeTombstoneList.new, isSorted, internalKeyLe, fragmentTombstones,
    fragmentLoop, FragmenterState.flushCurrentTombstones, flushLoop, insertEndKey, endKeyLt,
    FragmentedRangeTombstoneList.flushFragment, hbc, hbd.ne, hcd.le, hbc.ne, hac.ne',
    not_le.mpr had, had, had.ne]

/-- A reversed tombstone `[c, a)` next to `[b, d)`, for keys `a < b < c < d`: the fragments
run backwards and out of order, and the key `a` is deleted at sequence number `3` though
neither tombstone covers it. The fragment `[a, d)` carries the number of `[b, d)`, and the
binary search of `MaxCoveringTombstoneSeqnum` lands on it. -/
theorem maxCoveringTombstoneSeqnum_reversed_tombstone {a b c d : α} (hab : a < b) (hbc : b < c)
    (hcd : c < d) :
    FragmentedRangeTombstoneList.new [⟨b, d, 3⟩, ⟨c, a, 5⟩] =
        ⟨[⟨b, c, 0, 1⟩, ⟨c, a, 1, 3⟩, ⟨a, d, 3, 4⟩], [3, 5, 3, 3]⟩ ∧
      (FragmentedRangeTombstoneList.new [⟨b, d, 3⟩, ⟨c, a, 5⟩]).maxCoveringTombstoneSeqnum
        kMaxSequenceNumber a = 3 ∧
      ∀ t ∈ ([⟨b, d, 3⟩, ⟨c, a, 5⟩] : List (RangeTombstone α)),
        ¬ (t.startKey ≤ a ∧ a < t.endKey) := by
  have hac : a < c := hab.trans hbc
  have had : a < d := hac.trans hcd
  have hnew := new_reversed_tombstone hab hbc hcd
  refine ⟨hnew, ?_, ?_⟩
  · rw [hnew]
    simp [FragmentedRangeTombstoneList.maxCoveringTombstoneSeqnum, upperBound, lowerBound,
      halvingSearch, halvingLoop, FragmentedRangeTombstoneList.seqsOf, kMaxSequenceNumber, had]
  · simp [not_le.mpr hab, not_le.mpr hac]

/-- The user keys `1 < 2 < 3 < 4`: the tombstones `[2, 4) @ 3` and `[3, 1) @ 5`. -/
theorem maxCoveringTombstoneSeqnum_reversed_tombstone_nat :
    (1 : Nat) < 2 ∧ (2 : Nat) < 3 ∧ (3 : Nat) < 4 ∧
      FragmentedRangeTombstoneList.new [(⟨2, 4, 3⟩ : RangeTombstone Nat), ⟨3, 1, 5⟩] =
          ⟨[⟨2, 3, 0, 1⟩, ⟨3, 1, 1, 3⟩, ⟨1, 4, 3, 4⟩], [3, 5, 3, 3]⟩ ∧
        (FragmentedRangeTombstoneList.new [(⟨2, 4, 3⟩ : RangeTombstone Nat), ⟨3, 1, 5⟩]).maxCoveringTombstoneSeqnum
          kMaxSequenceNumber 1 = 3 ∧
        ∀ t ∈ ([⟨2, 4, 3⟩, ⟨3, 1, 5⟩] : List (RangeTombstone Nat)),
          ¬ (t.startKey ≤ 1 ∧ 1 < t.endKey) :=
  ⟨by decide, by decide, by decide,
    maxCoveringTombstoneSeqnum_reversed_tombstone (show (1 : Nat) < 2 by decide)
      (show (2 : Nat) < 3 by decide) (show (3 : Nat) < 4 by decide)⟩

/-! ## Fragmentation for compaction

With `for_compaction = true`, `flush_current_tombstones` writes only the sequence numbers of a
fragment that some snapshot can see. Walking them in descending order it keeps one when it is
at most `next_snapshot`, then lowers `next_snapshot` to the largest snapshot below it, which
`std::lower_bound` finds in the ascending snapshot list; it stops after the number the earliest
snapshot sees. The fragments themselves are cut as for reads. `seq_set_`, which this branch
also fills and which only `ContainsRange` and `SplitBySnapshot` read, is left out. -/

/-- The `for_compaction` loop over `seqnums_to_flush` (descending), from `next_snapshot`. -/
def pruneSeqnums (snapshots : List Nat) : Nat → List Nat → List Nat
  | _, [] => []
  | nextSnapshot, seq :: seqs =>
      if seq ≤ nextSnapshot then
        let upperBoundIt := lowerBound (fun (s v : Nat) => decide (s < v)) snapshots seq
        -- the earliest snapshot sees this number, and none below it is visible
        if upperBoundIt = 0 then [seq]
        else seq :: pruneSeqnums snapshots (snapshots.getD (upperBoundIt - 1) 0) seqs
      else pruneSeqnums snapshots nextSnapshot seqs

/-- The flush of one fragment, with both branches of `for_compaction`. -/
def FragmentedRangeTombstoneList.flushFragmentFor (forCompaction : Bool) (snapshots : List Nat)
    (l : FragmentedRangeTombstoneList α) (curStartKey curEndKey : α) (pending : List (α × Nat)) :
    FragmentedRangeTombstoneList α :=
  let seqnumsToFlush := (pending.map Prod.snd).insertionSort fun x y => y ≤ x
  let startIdx := l.tombstoneSeqs.length
  let flushed :=
    if forCompaction then pruneSeqnums snapshots kMaxSequenceNumber seqnumsToFlush
    else seqnumsToFlush
  ⟨l.tombstones ++ [⟨curStartKey, curEndKey, startIdx, startIdx + flushed.length⟩],
    l.tombstoneSeqs ++ flushed⟩

/-- The `for` loop of `flush_current_tombstones`, with both branches of `for_compaction`. -/
def flushLoopFor (forCompaction : Bool) (snapshots : List Nat) (nextStartKey : α) :
    FragmentedRangeTombstoneList α → α → List (α × Nat) →
      FragmentedRangeTombstoneList α × Option (List (α × Nat))
  | l, _, [] => (l, none)
  | l, curStartKey, e :: rest =>
      if curStartKey = e.1 then flushLoopFor forCompaction snapshots nextStartKey l curStartKey rest
      else if nextStartKey ≤ e.1 then
        (l.flushFragmentFor forCompaction snapshots curStartKey nextStartKey (e :: rest),
          some (e :: rest))
      else flushLoopFor forCompaction snapshots nextStartKey
        (l.flushFragmentFor forCompaction snapshots curStartKey e.1 (e :: rest)) e.1 rest

/-- `flush_current_tombstones(next_start_key)`, with both branches of `for_compaction`. -/
def FragmenterState.flushCurrentTombstonesFor (forCompaction : Bool) (snapshots : List Nat)
    (st : FragmenterState α) (nextStartKey : α) : FragmenterState α :=
  match flushLoopFor forCompaction snapshots nextStartKey st.list st.curStartKey st.curEndKeys with
  | (l, some rest) => ⟨l, nextStartKey, rest⟩
  | (l, none) => ⟨l, nextStartKey, []⟩

/-- The main loop of `FragmentTombstones`, with both branches of `for_compaction`. -/
def fragmentLoopFor (forCompaction : Bool) (snapshots : List Nat) :
    List (RangeTombstone α) → FragmenterState α → FragmenterState α
  | [], st =>
      match st.curEndKeys.getLast? with
      | some lastEndKey => st.flushCurrentTombstonesFor forCompaction snapshots lastEndKey.1
      | none => st
  | t :: ts, st =>
      let st := if st.curEndKeys ≠ [] ∧ st.curStartKey ≠ t.startKey then
          st.flushCurrentTombstonesFor forCompaction snapshots t.startKey
        else st
      fragmentLoopFor forCompaction snapshots ts
        { st with curStartKey := t.startKey, curEndKeys := insertEndKey (t.endKey, t.seq) st.curEndKeys }

/-- `FragmentTombstones(unfragmented_tombstones, icmp, for_compaction, snapshots)`. -/
def fragmentTombstonesFor (forCompaction : Bool) (snapshots : List Nat) :
    List (RangeTombstone α) → FragmentedRangeTombstoneList α
  | [] => ⟨[], []⟩
  | t :: ts =>
      (fragmentLoopFor forCompaction snapshots ts ⟨⟨[], []⟩, t.startKey, [(t.endKey, t.seq)]⟩).list

/-- The constructor of `FragmentedRangeTombstoneList` with its `for_compaction` and `snapshots`
arguments. -/
def FragmentedRangeTombstoneList.newFor (tombstones : List (RangeTombstone α))
    (forCompaction : Bool) (snapshots : List Nat) : FragmentedRangeTombstoneList α :=
  if isSorted tombstones then fragmentTombstonesFor forCompaction snapshots tombstones
  else fragmentTombstonesFor forCompaction snapshots
    (tombstones.insertionSort fun a b => internalKeyLe a b)

/-- With `for_compaction = false` the loop is the one for reads. -/
theorem flushLoopFor_false (snapshots : List Nat) (nextStartKey : α) :
    ∀ (l : FragmentedRangeTombstoneList α) (curStartKey : α) (pending : List (α × Nat)),
      flushLoopFor false snapshots nextStartKey l curStartKey pending =
        flushLoop nextStartKey l curStartKey pending := by
  intro l curStartKey pending
  induction pending generalizing l curStartKey with
  | nil => rfl
  | cons e rest ih =>
      rw [flushLoopFor, flushLoop]
      split
      · exact ih l curStartKey
      · split
        · rfl
        · exact ih _ e.1

/-- With `for_compaction = false` the main loop is the one for reads. -/
theorem fragmentLoopFor_false (snapshots : List Nat) :
    ∀ (ts : List (RangeTombstone α)) (st : FragmenterState α),
      fragmentLoopFor false snapshots ts st = fragmentLoop ts st := by
  have hflush : ∀ (st : FragmenterState α) (k : α),
      st.flushCurrentTombstonesFor false snapshots k = st.flushCurrentTombstones k := by
    intro st k
    rw [FragmenterState.flushCurrentTombstonesFor, FragmenterState.flushCurrentTombstones,
      flushLoopFor_false]
  intro ts
  induction ts with
  | nil =>
      intro st
      rw [fragmentLoopFor, fragmentLoop]
      split <;> simp only [hflush]
  | cons t ts ih =>
      intro st
      rw [fragmentLoopFor, fragmentLoop, ih, hflush]

/-- With `for_compaction = false` the constructor is the one for reads, whatever the
snapshots. -/
theorem newFor_false (tombstones : List (RangeTombstone α)) (snapshots : List Nat) :
    FragmentedRangeTombstoneList.newFor tombstones false snapshots =
      FragmentedRangeTombstoneList.new tombstones := by
  have hfrag : ∀ ts : List (RangeTombstone α),
      fragmentTombstonesFor false snapshots ts = fragmentTombstones ts := by
    intro ts
    cases ts with
    | nil => rfl
    | cons t ts => rw [fragmentTombstonesFor, fragmentTombstones, fragmentLoopFor_false]
  rw [FragmentedRangeTombstoneList.newFor, FragmentedRangeTombstoneList.new, hfrag, hfrag]

/-! ### What the pruning keeps

Over ascending snapshots and descending sequence numbers, the pruning keeps for every reader
at a snapshot, or at `next_snapshot` itself, the number it would have seen, and keeps numbers
of different stripes only: between two numbers it keeps lies a snapshot. -/

section Pruning

variable {snapshots : List Nat}

/-- The snapshot `std::prev(upper_bound_it)` points at, below a number that not every snapshot
is at least. -/
theorem prev_lowerBound (hsnap : snapshots.Pairwise (· ≤ ·)) (seq : Nat)
    (hpos : lowerBound (fun (s v : Nat) => decide (s < v)) snapshots seq ≠ 0) :
    snapshots.getD (lowerBound (fun (s v : Nat) => decide (s < v)) snapshots seq - 1) 0 ∈
        snapshots ∧
      snapshots.getD (lowerBound (fun (s v : Nat) => decide (s < v)) snapshots seq - 1) 0 < seq ∧
      ∀ s ∈ snapshots, s < seq →
        s ≤ snapshots.getD (lowerBound (fun (s v : Nat) => decide (s < v)) snapshots seq - 1) 0 := by
  obtain ⟨hub, hleft, hright⟩ := lowerBound_of_sorted snapshots hsnap seq
  set ub := lowerBound (fun (s v : Nat) => decide (s < v)) snapshots seq
  have hlt : ub - 1 < snapshots.length := by omega
  rw [List.getD_eq_getElem?_getD, List.getElem?_eq_getElem hlt, Option.getD_some]
  refine ⟨List.getElem_mem hlt, hleft _ hlt (by omega), fun s hs hslt => ?_⟩
  obtain ⟨i, hi, rfl⟩ := List.getElem_of_mem hs
  -- the snapshot is below `seq`, so it comes before `upper_bound_it`
  have hiub : i < ub := by
    by_contra hge
    exact absurd (hright i hi (by omega)) (not_le.mpr hslt)
  rcases Nat.lt_or_ge i (ub - 1) with hlt' | hge
  · exact List.pairwise_iff_getElem.mp hsnap i (ub - 1) hi hlt hlt'
  · have : i = ub - 1 := by omega
    subst this
    exact le_rfl

/-- `std::lower_bound` returns the start when every snapshot is at least the number. -/
theorem le_of_lowerBound_eq_zero (hsnap : snapshots.Pairwise (· ≤ ·)) {seq : Nat}
    (hzero : lowerBound (fun (s v : Nat) => decide (s < v)) snapshots seq = 0) :
    ∀ s ∈ snapshots, seq ≤ s := by
  obtain ⟨-, -, hright⟩ := lowerBound_of_sorted snapshots hsnap seq
  intro s hs
  obtain ⟨i, hi, rfl⟩ := List.getElem_of_mem hs
  exact hright i hi (by omega)

/-- Every number kept is at most `next_snapshot`. -/
theorem le_of_mem_pruneSeqnums (hsnap : snapshots.Pairwise (· ≤ ·)) :
    ∀ (seqs : List Nat) (nextSnapshot y : Nat), y ∈ pruneSeqnums snapshots nextSnapshot seqs →
      y ≤ nextSnapshot := by
  intro seqs
  induction seqs with
  | nil =>
      intro _ y hy
      simp [pruneSeqnums] at hy
  | cons seq seqs ih =>
      intro nextSnapshot y hy
      rw [pruneSeqnums] at hy
      split at hy
      case isTrue hle =>
        dsimp only at hy
        split at hy
        · rw [List.mem_singleton.mp hy]
          exact hle
        case isFalse hpos =>
          rcases List.mem_cons.mp hy with rfl | hy
          · exact hle
          · -- a number kept later is at most a snapshot below `seq`
            have hprev := (prev_lowerBound hsnap seq hpos).2.1
            have := ih _ y hy
            omega
      case isFalse => exact ih nextSnapshot y hy

/-- Between two numbers the pruning keeps lies a snapshot: it keeps one number per stripe. -/
theorem pruneSeqnums_stripes (hsnap : snapshots.Pairwise (· ≤ ·)) :
    ∀ (seqs : List Nat) (nextSnapshot : Nat),
      (pruneSeqnums snapshots nextSnapshot seqs).Pairwise
        (fun x y => ∃ s ∈ snapshots, y ≤ s ∧ s < x) := by
  intro seqs
  induction seqs with
  | nil => intro _; simp [pruneSeqnums]
  | cons seq seqs ih =>
      intro nextSnapshot
      rw [pruneSeqnums]
      split
      · dsimp only
        split
        · exact List.pairwise_singleton _ _
        case isFalse hpos =>
          obtain ⟨hmem, hlt, -⟩ := prev_lowerBound hsnap seq hpos
          refine List.Pairwise.cons (fun y hy => ?_) (ih _)
          exact ⟨_, hmem, le_of_mem_pruneSeqnums hsnap seqs _ y hy, hlt⟩
      · exact ih nextSnapshot

/-- The pruning keeps, for a reader at a snapshot or at `next_snapshot` itself, the largest
number it sees. -/
theorem find_pruneSeqnums (hsnap : snapshots.Pairwise (· ≤ ·)) :
    ∀ (seqs : List Nat), seqs.Pairwise (· ≥ ·) → ∀ (nextSnapshot S : Nat), S ≤ nextSnapshot →
      (S ∈ snapshots ∨ S = nextSnapshot) →
      (pruneSeqnums snapshots nextSnapshot seqs).find? (fun x => decide (x ≤ S)) =
        seqs.find? (fun x => decide (x ≤ S)) := by
  intro seqs
  induction seqs with
  | nil => intro _ _ _ _ _; rfl
  | cons seq seqs ih =>
      intro hseqs nextSnapshot S hS hread
      have hrest := (List.pairwise_cons.mp hseqs).2
      rw [pruneSeqnums]
      split
      case isTrue hle =>
        dsimp only
        by_cases hseqS : seq ≤ S
        · -- both find `seq` first
          split <;> simp [hseqS]
        · -- the reader is below `seq`, so at a snapshot below it, the next one down at most
          have hmem : S ∈ snapshots := hread.resolve_right (by omega)
          have hpos : lowerBound (fun (s v : Nat) => decide (s < v)) snapshots seq ≠ 0 := by
            intro hzero
            exact hseqS (le_of_lowerBound_eq_zero hsnap hzero S hmem)
          have hprev := (prev_lowerBound hsnap seq hpos).2.2 S hmem (by omega)
          rw [if_neg hpos, List.find?_cons_of_neg (by simpa using hseqS),
            List.find?_cons_of_neg (by simpa using hseqS)]
          exact ih hrest _ S hprev (Or.inl hmem)
      case isFalse hgt =>
        -- `seq` is above the reader too
        rw [List.find?_cons_of_neg (by simp only [decide_eq_true_eq]; omega)]
        exact ih hrest nextSnapshot S hS hread

end Pruning

/-! ### Compaction fragments against read fragments

The sweep looks only at keys, so fragmenting for compaction cuts the same fragments as for
reads; each fragment carries the pruned numbers of the read fragment. -/

/-- The fragments of a list, with their sequence numbers. -/
def FragmentedRangeTombstoneList.fragments (l : FragmentedRangeTombstoneList α) :
    List (α × α × List Nat) :=
  l.tombstones.map fun t => (t.startKey, t.endKey, l.seqsOf t)

/-- The read fragment `f` with its numbers pruned for compaction. -/
def pruneFragment (snapshots : List Nat) (f : α × α × List Nat) : α × α × List Nat :=
  (f.1, f.2.1, pruneSeqnums snapshots kMaxSequenceNumber f.2.2)

/-- A list for compaction and one for reads built side by side: each fragment's numbers lie in
its `tombstone_seqs_`, the read fragments' numbers are in descending order, and the compaction
fragments are the read fragments pruned. -/
structure PrunedOf (snapshots : List Nat) (lc lr : FragmentedRangeTombstoneList α) : Prop where
  indexed_left : ∀ t ∈ lc.tombstones, t.seqEndIdx ≤ lc.tombstoneSeqs.length
  indexed_right : ∀ t ∈ lr.tombstones, t.seqEndIdx ≤ lr.tombstoneSeqs.length
  sorted_right : ∀ f ∈ lr.fragments, f.2.2.Pairwise (· ≥ ·)
  fragments_eq : lc.fragments = lr.fragments.map (pruneFragment snapshots)

omit [LinearOrder α] in
/-- Numbers appended to `tombstone_seqs_` leave a fragment before them as it was. -/
theorem seqsOf_append_seqs (l : FragmentedRangeTombstoneList α) (more : List Nat)
    (tombstones : List (RangeTombstoneStack α)) (t : RangeTombstoneStack α)
    (h : t.seqEndIdx ≤ l.tombstoneSeqs.length) :
    (⟨tombstones, l.tombstoneSeqs ++ more⟩ : FragmentedRangeTombstoneList α).seqsOf t =
      l.seqsOf t := by
  simp only [FragmentedRangeTombstoneList.seqsOf]
  by_cases hstart : t.seqStartIdx ≤ l.tombstoneSeqs.length
  · rw [List.drop_append_of_le_length hstart, List.take_append_of_le_length (by simp; omega)]
  · -- a fragment that starts past its end has no numbers
    have hnone : t.seqEndIdx - t.seqStartIdx = 0 := by omega
    simp only [hnone, List.take_zero]

omit [LinearOrder α] in
/-- Flushing a fragment adds it, with the numbers flushed, after the fragments there were. -/
theorem fragments_flushFragmentFor (forCompaction : Bool) (snapshots : List Nat)
    (l : FragmentedRangeTombstoneList α) (curStartKey curEndKey : α) (pending : List (α × Nat))
    (hidx : ∀ t ∈ l.tombstones, t.seqEndIdx ≤ l.tombstoneSeqs.length) :
    (l.flushFragmentFor forCompaction snapshots curStartKey curEndKey pending).fragments =
        l.fragments ++ [(curStartKey, curEndKey,
          if forCompaction then
            pruneSeqnums snapshots kMaxSequenceNumber
              ((pending.map Prod.snd).insertionSort fun x y => y ≤ x)
          else (pending.map Prod.snd).insertionSort fun x y => y ≤ x)] ∧
      ∀ t ∈ (l.flushFragmentFor forCompaction snapshots curStartKey curEndKey pending).tombstones,
        t.seqEndIdx ≤
          (l.flushFragmentFor forCompaction snapshots curStartKey curEndKey pending).tombstoneSeqs.length := by
  simp only [FragmentedRangeTombstoneList.flushFragmentFor, FragmentedRangeTombstoneList.fragments,
    List.map_append, List.map_singleton]
  refine ⟨?_, ?_⟩
  · congr 1
    · apply List.map_congr_left
      intro t ht
      rw [seqsOf_append_seqs l _ _ t (hidx t ht)]
    · simp [FragmentedRangeTombstoneList.seqsOf]
  · intro t ht
    rcases List.mem_append.mp ht with ht | ht
    · have := hidx t ht
      simp only [List.length_append]
      omega
    · rw [List.mem_singleton.mp ht]
      simp

omit [LinearOrder α] in
/-- One fragment flushed on both sides keeps them side by side. -/
theorem PrunedOf.flushFragmentFor {snapshots : List Nat} {lc lr : FragmentedRangeTombstoneList α}
    (h : PrunedOf snapshots lc lr) (curStartKey curEndKey : α) (pending : List (α × Nat)) :
    PrunedOf snapshots (lc.flushFragmentFor true snapshots curStartKey curEndKey pending)
      (lr.flushFragmentFor false snapshots curStartKey curEndKey pending) := by
  obtain ⟨hfc, hic⟩ := fragments_flushFragmentFor true snapshots lc curStartKey curEndKey pending
    h.indexed_left
  obtain ⟨hfr, hir⟩ := fragments_flushFragmentFor false snapshots lr curStartKey curEndKey pending
    h.indexed_right
  have : Std.Total (fun x y : Nat => y ≤ x) := ⟨fun a b => le_total b a⟩
  have : IsTrans Nat (fun x y : Nat => y ≤ x) := ⟨fun _ _ _ hab hbc => hbc.trans hab⟩
  refine ⟨hic, hir, ?_, ?_⟩
  · -- the new read fragment's numbers are sorted by `std::sort` with `std::greater`
    rw [hfr]
    intro f hf
    rcases List.mem_append.mp hf with hf | hf
    · exact h.sorted_right f hf
    · rw [List.mem_singleton.mp hf]
      exact List.pairwise_insertionSort _ _
  · rw [hfc, hfr, h.fragments_eq, List.map_append, List.map_singleton]
    rfl

/-- The `for` loop of `flush_current_tombstones` on both sides: it stops at the same end key,
and keeps the lists side by side. -/
theorem flushLoopFor_prunedOf (snapshots : List Nat) (nextStartKey : α) :
    ∀ (pending : List (α × Nat)) (lc lr : FragmentedRangeTombstoneList α) (curStartKey : α),
      PrunedOf snapshots lc lr →
      (flushLoopFor true snapshots nextStartKey lc curStartKey pending).2 =
          (flushLoopFor false snapshots nextStartKey lr curStartKey pending).2 ∧
        PrunedOf snapshots (flushLoopFor true snapshots nextStartKey lc curStartKey pending).1
          (flushLoopFor false snapshots nextStartKey lr curStartKey pending).1 := by
  intro pending
  induction pending with
  | nil => exact fun lc lr _ h => ⟨rfl, h⟩
  | cons e rest ih =>
      intro lc lr curStartKey h
      rw [flushLoopFor, flushLoopFor]
      split
      · exact ih lc lr curStartKey h
      · split
        · exact ⟨rfl, h.flushFragmentFor curStartKey nextStartKey (e :: rest)⟩
        · exact ih _ _ e.1 (h.flushFragmentFor curStartKey e.1 (e :: rest))

/-- Two sweeps in step: the same start key and working set, and the lists side by side. -/
def InStep (snapshots : List Nat) (stc str : FragmenterState α) : Prop :=
  stc.curStartKey = str.curStartKey ∧ stc.curEndKeys = str.curEndKeys ∧
    PrunedOf snapshots stc.list str.list

/-- `flush_current_tombstones` keeps two sweeps in step. -/
theorem InStep.flushCurrentTombstonesFor {snapshots : List Nat} {stc str : FragmenterState α}
    (h : InStep snapshots stc str) (nextStartKey : α) :
    InStep snapshots (stc.flushCurrentTombstonesFor true snapshots nextStartKey)
      (str.flushCurrentTombstonesFor false snapshots nextStartKey) := by
  obtain ⟨hkey, hends, hlist⟩ := h
  obtain ⟨hrest, hpruned⟩ := flushLoopFor_prunedOf snapshots nextStartKey stc.curEndKeys
    stc.list str.list stc.curStartKey hlist
  simp only [FragmenterState.flushCurrentTombstonesFor, ← hkey, ← hends]
  revert hrest hpruned
  cases flushLoopFor true snapshots nextStartKey stc.list stc.curStartKey stc.curEndKeys with
  | mk lc rc =>
      cases flushLoopFor false snapshots nextStartKey str.list stc.curStartKey stc.curEndKeys with
      | mk lr rr =>
          intro hrest hpruned
          dsimp only at hrest hpruned
          subst hrest
          cases rc <;> exact ⟨rfl, rfl, hpruned⟩

/-- The main loop keeps two sweeps in step. -/
theorem fragmentLoopFor_inStep (snapshots : List Nat) :
    ∀ (ts : List (RangeTombstone α)) (stc str : FragmenterState α), InStep snapshots stc str →
      InStep snapshots (fragmentLoopFor true snapshots ts stc)
        (fragmentLoopFor false snapshots ts str) := by
  intro ts
  induction ts with
  | nil =>
      intro stc str h
      rw [fragmentLoopFor, fragmentLoopFor, ← h.2.1]
      split
      · exact h.flushCurrentTombstonesFor _
      · exact h
  | cons t ts ih =>
      intro stc str h
      rw [fragmentLoopFor, fragmentLoopFor]
      apply ih
      -- both sweeps flush, or neither, since they agree on the start key and the working set
      have hflush : InStep snapshots
          (if stc.curEndKeys ≠ [] ∧ stc.curStartKey ≠ t.startKey then
            stc.flushCurrentTombstonesFor true snapshots t.startKey else stc)
          (if str.curEndKeys ≠ [] ∧ str.curStartKey ≠ t.startKey then
            str.flushCurrentTombstonesFor false snapshots t.startKey else str) := by
        rw [h.1, h.2.1]
        split
        · exact h.flushCurrentTombstonesFor _
        · exact h
      exact ⟨rfl, by rw [hflush.2.1], hflush.2.2⟩

/-- Fragmenting for compaction cuts the fragments fragmenting for reads cuts, and prunes the
numbers of each. -/
theorem newFor_prunedOf (tombstones : List (RangeTombstone α)) (snapshots : List Nat) :
    PrunedOf snapshots (FragmentedRangeTombstoneList.newFor tombstones true snapshots)
      (FragmentedRangeTombstoneList.new tombstones) := by
  have hstart : PrunedOf snapshots (⟨[], []⟩ : FragmentedRangeTombstoneList α) ⟨[], []⟩ :=
    ⟨by simp, by simp, by simp [FragmentedRangeTombstoneList.fragments],
      by simp [FragmentedRangeTombstoneList.fragments]⟩
  have hfrag : ∀ ts : List (RangeTombstone α), PrunedOf snapshots
      (fragmentTombstonesFor true snapshots ts) (fragmentTombstonesFor false snapshots ts) := by
    intro ts
    cases ts with
    | nil => exact hstart
    | cons t ts => exact (fragmentLoopFor_inStep snapshots ts _ _ ⟨rfl, rfl, hstart⟩).2.2
  rw [← newFor_false tombstones snapshots, FragmentedRangeTombstoneList.newFor,
    FragmentedRangeTombstoneList.newFor]
  split
  · exact hfrag _
  · exact hfrag _

/-- For a reader at one of the snapshots or at `kMaxSequenceNumber`, fragmenting for compaction
gives the fragments fragmenting for reads gives, each showing the reader the same largest
sequence number. Whatever the read fragments get wrong, the compaction fragments get wrong the
same way. -/
theorem newFor_compaction_sees_read_fragments (tombstones : List (RangeTombstone α))
    (snapshots : List Nat) (hsnap : snapshots.Pairwise (· ≤ ·)) (S : Nat)
    (hS : S ≤ kMaxSequenceNumber) (hread : S ∈ snapshots ∨ S = kMaxSequenceNumber) :
    (FragmentedRangeTombstoneList.newFor tombstones true snapshots).fragments.map
        (fun f => (f.1, f.2.1, f.2.2.find? fun x => decide (x ≤ S))) =
      (FragmentedRangeTombstoneList.new tombstones).fragments.map
        (fun f => (f.1, f.2.1, f.2.2.find? fun x => decide (x ≤ S))) := by
  have h := newFor_prunedOf tombstones snapshots
  rw [h.fragments_eq, List.map_map]
  apply List.map_congr_left
  intro f hf
  simp only [Function.comp_apply, pruneFragment]
  rw [find_pruneSeqnums hsnap _ (h.sorted_right f hf) _ S hS hread]

/-- For compaction, with no snapshot, the reversed tombstone `[c, a)` next to `[b, d)`, for keys
`a < b < c < d`: each fragment keeps its largest sequence number, and `[a, d)` keeps `3`,
although the key `a` it covers is covered by neither tombstone. -/
theorem newFor_compaction_reversed_tombstone {a b c d : α} (hab : a < b) (hbc : b < c)
    (hcd : c < d) :
    FragmentedRangeTombstoneList.newFor [⟨b, d, 3⟩, ⟨c, a, 5⟩] true [] =
        ⟨[⟨b, c, 0, 1⟩, ⟨c, a, 1, 2⟩, ⟨a, d, 2, 3⟩], [3, 5, 3]⟩ ∧
      ∀ t ∈ ([⟨b, d, 3⟩, ⟨c, a, 5⟩] : List (RangeTombstone α)),
        ¬ (t.startKey ≤ a ∧ a < t.endKey) := by
  have hac : a < c := hab.trans hbc
  have had : a < d := hac.trans hcd
  have hbd : b < d := hbc.trans hcd
  refine ⟨?_, ?_⟩
  · simp [FragmentedRangeTombstoneList.newFor, isSorted, internalKeyLe, fragmentTombstonesFor,
      fragmentLoopFor, FragmenterState.flushCurrentTombstonesFor, flushLoopFor, insertEndKey,
      endKeyLt, FragmentedRangeTombstoneList.flushFragmentFor, pruneSeqnums, lowerBound,
      halvingSearch, halvingLoop, kMaxSequenceNumber, hbc, hbd.ne, hcd.le, hbc.ne, hac.ne',
      not_le.mpr had, had, had.ne]
  · simp [not_le.mpr hab, not_le.mpr hac]

/-- The user keys `1 < 2 < 3 < 4`: the tombstones `[2, 4) @ 3` and `[3, 1) @ 5`. -/
theorem newFor_compaction_reversed_tombstone_nat :
    (1 : Nat) < 2 ∧ (2 : Nat) < 3 ∧ (3 : Nat) < 4 ∧
      FragmentedRangeTombstoneList.newFor [(⟨2, 4, 3⟩ : RangeTombstone Nat), ⟨3, 1, 5⟩] true [] =
          ⟨[⟨2, 3, 0, 1⟩, ⟨3, 1, 1, 2⟩, ⟨1, 4, 2, 3⟩], [3, 5, 3]⟩ ∧
        ∀ t ∈ ([⟨2, 4, 3⟩, ⟨3, 1, 5⟩] : List (RangeTombstone Nat)),
          ¬ (t.startKey ≤ 1 ∧ 1 < t.endKey) :=
  ⟨by decide, by decide, by decide,
    newFor_compaction_reversed_tombstone (show (1 : Nat) < 2 by decide)
      (show (2 : Nat) < 3 by decide) (show (3 : Nat) < 4 by decide)⟩

end Fragmenter

end RocksCloud.Db
