import Mathlib
import RocksCloud.Db.RangeTombstoneFragmenter

/-!
# What the fragments of range tombstones delete

`FragmentedRangeTombstoneList` must delete, at every user key, what the tombstones it was built
from delete. For tombstones that do not run backwards (`start <= end`; empty ones are allowed)
this holds: the fragments are nonempty, in order and disjoint, each lists its sequence numbers
in descending order, and a fragment holding a key lists exactly the numbers of the tombstones
covering it (`new_describes`). A point lookup, `MaxCoveringTombstoneSeqnum`, then answers the
largest number at most its upper bound of a tombstone covering the key
(`maxCoveringTombstoneSeqnum_new`), and so does a list fragmented for compaction, for a reader
at a snapshot (`maxCoveringTombstoneSeqnum_newFor_compaction`).

The proof follows the sweep of `FragmentTombstones`:

* `flushCuts` are the fragments one `flush_current_tombstones` cuts, read off the index
  arithmetic of `tombstone_seqs_` by `flushLoop_fragments`; `flushCuts_holds` says which
  numbers they hold;
* `SweepInv` is the state of the sweep after a prefix of the tombstones: fragments up to
  `cur_start_key`, describing the prefix below it, and in `cur_end_keys` the tombstones that
  reach past it. `SweepInv.flush` and `SweepInv.insert` are its two steps and
  `fragmentLoop_describes` the run;
* `Describes.maxCoveringTombstoneSeqnum_eq` is the lookup, by the binary searches of
  `Lib.BinarySearch` on lists they split.
-/

set_option autoImplicit false

namespace RocksCloud.Db

open RocksCloud.Lib

section Coverage

variable {α : Type} [LinearOrder α]

/-! ## What the tombstones delete -/

/-- The tombstone deletes the user key: `start <= k < end`. -/
def RangeTombstone.covers (t : RangeTombstone α) (k : α) : Bool :=
  decide (t.startKey ≤ k) && decide (k < t.endKey)

@[simp] theorem RangeTombstone.covers_eq_true {t : RangeTombstone α} {k : α} :
    t.covers k = true ↔ t.startKey ≤ k ∧ k < t.endKey := by
  simp [RangeTombstone.covers]

/-- What a lookup of `k` with upper bound `upperBound` should answer: the largest sequence number
at most `upperBound` of a tombstone covering `k`, or `0` when there is none. -/
def maxCoveringSeqnum (tombstones : List (RangeTombstone α)) (upperBound : Nat) (k : α) : Nat :=
  ((tombstones.filter fun t => t.covers k && decide (t.seq ≤ upperBound)).map
    RangeTombstone.seq).foldr max 0

/-- The fragments hold the sequence number `s` at `k`: a fragment `[start, end)` holding `k`
lists it. -/
def FragmentsHold (fs : List (α × α × List Nat)) (k : α) (s : Nat) : Prop :=
  ∃ f ∈ fs, f.1 ≤ k ∧ k < f.2.1 ∧ s ∈ f.2.2

theorem not_fragmentsHold_nil (k : α) (s : Nat) :
    ¬ FragmentsHold ([] : List (α × α × List Nat)) k s :=
  fun ⟨_, hf, _⟩ => List.not_mem_nil hf

theorem fragmentsHold_cons {f : α × α × List Nat} {fs : List (α × α × List Nat)} {k : α}
    {s : Nat} :
    FragmentsHold (f :: fs) k s ↔ (f.1 ≤ k ∧ k < f.2.1 ∧ s ∈ f.2.2) ∨ FragmentsHold fs k s := by
  simp only [FragmentsHold, List.mem_cons, exists_eq_or_imp]

theorem fragmentsHold_append {fs gs : List (α × α × List Nat)} {k : α} {s : Nat} :
    FragmentsHold (fs ++ gs) k s ↔ FragmentsHold fs k s ∨ FragmentsHold gs k s := by
  simp only [FragmentsHold, List.mem_append, or_and_right, exists_or]

/-- The fragments are nonempty, in order and disjoint, and each lists its sequence numbers, at
least one, in descending order. -/
structure FragmentsOrdered (fs : List (α × α × List Nat)) : Prop where
  nonempty : ∀ f ∈ fs, f.1 < f.2.1
  disjoint : fs.Pairwise fun f g => f.2.1 ≤ g.1
  seqs_desc : ∀ f ∈ fs, f.2.2.Pairwise (· ≥ ·)
  seqs_ne_nil : ∀ f ∈ fs, f.2.2 ≠ []

/-- Fragments past which others start follow them. -/
theorem FragmentsOrdered.append {fs gs : List (α × α × List Nat)} (hfs : FragmentsOrdered fs)
    (hgs : FragmentsOrdered gs) (hsep : ∀ f ∈ fs, ∀ g ∈ gs, f.2.1 ≤ g.1) :
    FragmentsOrdered (fs ++ gs) where
  nonempty f hf := (List.mem_append.mp hf).elim (hfs.nonempty f) (hgs.nonempty f)
  disjoint := List.pairwise_append.mpr ⟨hfs.disjoint, hgs.disjoint, hsep⟩
  seqs_desc f hf := (List.mem_append.mp hf).elim (hfs.seqs_desc f) (hgs.seqs_desc f)
  seqs_ne_nil f hf := (List.mem_append.mp hf).elim (hfs.seqs_ne_nil f) (hgs.seqs_ne_nil f)

/-- No fragment ending at or before `m` holds a key at or past it. -/
theorem not_fragmentsHold_of_le {fs : List (α × α × List Nat)} {m k : α}
    (hend : ∀ f ∈ fs, f.2.1 ≤ m) (hk : m ≤ k) (s : Nat) : ¬ FragmentsHold fs k s := by
  rintro ⟨f, hf, -, hkf, -⟩
  exact absurd (lt_of_lt_of_le hkf (hend f hf)) (not_lt.mpr hk)

/-- Every fragment's sequence numbers lie in `tombstone_seqs_`. -/
def FragmentedRangeTombstoneList.Indexed (l : FragmentedRangeTombstoneList α) : Prop :=
  ∀ t ∈ l.tombstones, t.seqEndIdx ≤ l.tombstoneSeqs.length

/-- A fragment list describes the tombstones `ts`: its fragments are ordered, and at every key
they hold the numbers of the tombstones covering it. -/
structure FragmentedRangeTombstoneList.Describes (l : FragmentedRangeTombstoneList α)
    (ts : List (RangeTombstone α)) : Prop where
  indexed : l.Indexed
  ordered : FragmentsOrdered l.fragments
  holds : ∀ k s, FragmentsHold l.fragments k s ↔ ∃ t ∈ ts, t.covers k = true ∧ t.seq = s

/-! ## The fragments of one flush -/

/-- `seqnums_to_flush`: the sequence numbers of the end keys `pending`, in descending order. -/
def seqnumsToFlush (pending : List (α × Nat)) : List Nat :=
  (pending.map Prod.snd).insertionSort fun x y => y ≤ x

omit [LinearOrder α] in
theorem mem_seqnumsToFlush {pending : List (α × Nat)} {s : Nat} :
    s ∈ seqnumsToFlush pending ↔ ∃ e ∈ pending, e.2 = s := by
  rw [seqnumsToFlush, (List.perm_insertionSort _ _).mem_iff, List.mem_map]

omit [LinearOrder α] in
theorem seqnumsToFlush_desc (pending : List (α × Nat)) :
    (seqnumsToFlush pending).Pairwise (· ≥ ·) := by
  have : Std.Total (fun x y : Nat => y ≤ x) := ⟨fun a b => le_total b a⟩
  have : IsTrans Nat (fun x y : Nat => y ≤ x) := ⟨fun _ _ _ hab hbc => hbc.trans hab⟩
  exact List.pairwise_insertionSort _ _

omit [LinearOrder α] in
theorem seqnumsToFlush_ne_nil {pending : List (α × Nat)} (h : pending ≠ []) :
    seqnumsToFlush pending ≠ [] := by
  rw [← List.length_pos_iff, seqnumsToFlush, (List.perm_insertionSort _ _).length_eq,
    List.length_map]
  exact List.length_pos_iff.mpr h

/-- The fragments the `for` loop of `flush_current_tombstones` cuts from `curStartKey`: one up to
each end key in turn, skipping empty ones, and the last one up to `nextStartKey`. -/
def flushCuts (nextStartKey : α) : α → List (α × Nat) → List (α × α × List Nat)
  | _, [] => []
  | curStartKey, e :: rest =>
      if curStartKey = e.1 then flushCuts nextStartKey curStartKey rest
      else if nextStartKey ≤ e.1 then [(curStartKey, nextStartKey, seqnumsToFlush (e :: rest))]
      else (curStartKey, e.1, seqnumsToFlush (e :: rest)) :: flushCuts nextStartKey e.1 rest

omit [LinearOrder α] in
theorem flushFragment_eq (l : FragmentedRangeTombstoneList α) (curStartKey curEndKey : α)
    (pending : List (α × Nat)) :
    l.flushFragment curStartKey curEndKey pending =
      l.flushFragmentFor false [] curStartKey curEndKey pending := rfl

omit [LinearOrder α] in
/-- Flushing one fragment appends it, and keeps the list indexed. -/
theorem FragmentedRangeTombstoneList.Indexed.flushFragment {l : FragmentedRangeTombstoneList α}
    (hl : l.Indexed) (curStartKey curEndKey : α) (pending : List (α × Nat)) :
    (l.flushFragment curStartKey curEndKey pending).fragments =
        l.fragments ++ [(curStartKey, curEndKey, seqnumsToFlush pending)] ∧
      (l.flushFragment curStartKey curEndKey pending).Indexed := by
  obtain ⟨hfrag, hidx⟩ := fragments_flushFragmentFor false [] l curStartKey curEndKey pending hl
  rw [flushFragment_eq]
  exact ⟨by simpa [seqnumsToFlush] using hfrag, hidx⟩

/-- The loop's list: the fragments there were, then the cuts. -/
theorem flushLoop_fragments (nextStartKey : α) :
    ∀ (pending : List (α × Nat)) (l : FragmentedRangeTombstoneList α) (curStartKey : α),
      l.Indexed →
      (flushLoop nextStartKey l curStartKey pending).1.fragments =
          l.fragments ++ flushCuts nextStartKey curStartKey pending ∧
        (flushLoop nextStartKey l curStartKey pending).1.Indexed := by
  intro pending
  induction pending with
  | nil => intro l _ hl; exact ⟨by simp [flushLoop, flushCuts], hl⟩
  | cons e rest ih =>
      intro l curStartKey hl
      rw [flushLoop, flushCuts]
      split
      · exact ih l curStartKey hl
      · split
        · exact hl.flushFragment curStartKey nextStartKey (e :: rest)
        · obtain ⟨hfrag, hidx⟩ := hl.flushFragment curStartKey e.1 (e :: rest)
          obtain ⟨hfrag', hidx'⟩ := ih _ e.1 hidx
          refine ⟨?_, hidx'⟩
          rw [hfrag', hfrag, List.append_assoc, List.singleton_append]

/-! The cuts of a flush from `curStartKey` to `nextStartKey`, with the end keys in ascending
order and none before `curStartKey`. -/

/-- Each cut lies between the key it was cut from and the next start key, is nonempty, and lists
its numbers, at least one, in descending order. -/
theorem flushCuts_bounds (nextStartKey : α) :
    ∀ (pending : List (α × Nat)) (curStartKey : α),
      pending.Pairwise (fun a b => a.1 ≤ b.1) → (∀ e ∈ pending, curStartKey ≤ e.1) →
      curStartKey < nextStartKey →
      ∀ f ∈ flushCuts nextStartKey curStartKey pending,
        curStartKey ≤ f.1 ∧ f.1 < f.2.1 ∧ f.2.1 ≤ nextStartKey ∧ f.2.2.Pairwise (· ≥ ·) ∧
          f.2.2 ≠ [] := by
  intro pending
  induction pending with
  | nil => intro _ _ _ _ f hf; exact absurd hf (List.not_mem_nil)
  | cons e rest ih =>
      intro curStartKey hsorted hge hlt f hf
      obtain ⟨he, hrest⟩ := List.pairwise_cons.mp hsorted
      have hseqs := seqnumsToFlush_desc (e :: rest)
      have hne := seqnumsToFlush_ne_nil (List.cons_ne_nil e rest)
      rw [flushCuts] at hf
      split at hf
      case isTrue heq =>
        -- an empty fragment is skipped
        exact ih curStartKey hrest (fun e' he' => hge e' (List.mem_cons_of_mem e he')) hlt f hf
      case isFalse hne' =>
        have hce : curStartKey < e.1 := lt_of_le_of_ne (hge e List.mem_cons_self) hne'
        split at hf
        case isTrue hnext =>
          rw [List.mem_singleton.mp hf]
          exact ⟨le_rfl, hlt, le_rfl, hseqs, hne⟩
        case isFalse hnext =>
          rcases List.mem_cons.mp hf with rfl | hf
          · exact ⟨le_rfl, hce, (not_le.mp hnext).le, hseqs, hne⟩
          · obtain ⟨hstart, hrest'⟩ := ih e.1 hrest he (not_le.mp hnext) f hf
            exact ⟨hce.le.trans hstart, hrest'⟩

/-- The cuts follow one another. -/
theorem flushCuts_disjoint (nextStartKey : α) :
    ∀ (pending : List (α × Nat)) (curStartKey : α),
      pending.Pairwise (fun a b => a.1 ≤ b.1) → (∀ e ∈ pending, curStartKey ≤ e.1) →
      curStartKey < nextStartKey →
      (flushCuts nextStartKey curStartKey pending).Pairwise fun f g => f.2.1 ≤ g.1 := by
  intro pending
  induction pending with
  | nil => intro _ _ _ _; exact List.Pairwise.nil
  | cons e rest ih =>
      intro curStartKey hsorted hge hlt
      obtain ⟨he, hrest⟩ := List.pairwise_cons.mp hsorted
      rw [flushCuts]
      split
      · exact ih curStartKey hrest (fun e' he' => hge e' (List.mem_cons_of_mem e he')) hlt
      · split
        · exact List.pairwise_singleton _ _
        case isFalse hnext =>
          -- the later cuts start at the end of this one
          refine List.Pairwise.cons (fun g hg => ?_) (ih e.1 hrest he (not_le.mp hnext))
          exact (flushCuts_bounds nextStartKey rest e.1 hrest he (not_le.mp hnext) g hg).1

/-- At a key between the start keys, the cuts hold the numbers of the end keys past it. -/
theorem flushCuts_holds (nextStartKey : α) :
    ∀ (pending : List (α × Nat)) (curStartKey : α),
      pending.Pairwise (fun a b => a.1 ≤ b.1) → (∀ e ∈ pending, curStartKey ≤ e.1) →
      curStartKey < nextStartKey →
      ∀ k, curStartKey ≤ k → k < nextStartKey → ∀ s,
        FragmentsHold (flushCuts nextStartKey curStartKey pending) k s ↔
          ∃ e ∈ pending, k < e.1 ∧ e.2 = s := by
  intro pending
  induction pending with
  | nil =>
      intro _ _ _ _ k _ _ s
      simp only [flushCuts, List.not_mem_nil, false_and, exists_false, iff_false]
      exact not_fragmentsHold_nil k s
  | cons e rest ih =>
      intro curStartKey hsorted hge hlt k hck hkn s
      obtain ⟨he, hrest⟩ := List.pairwise_cons.mp hsorted
      have hge' : ∀ e' ∈ rest, curStartKey ≤ e'.1 :=
        fun e' he' => hge e' (List.mem_cons_of_mem e he')
      -- when every end key is past `k`, only the membership of the numbers is left
      have hall : (∀ e' ∈ e :: rest, k < e'.1) →
          ((∃ e' ∈ e :: rest, e'.2 = s) ↔ ∃ e' ∈ e :: rest, k < e'.1 ∧ e'.2 = s) := by
        intro hpast
        constructor
        · rintro ⟨e', he', rfl⟩
          exact ⟨e', he', hpast e' he', rfl⟩
        · rintro ⟨e', he', -, rfl⟩
          exact ⟨e', he', rfl⟩
      rw [flushCuts]
      split
      case isTrue heq =>
        -- the end key `e` is the current start key, not past `k`: no cut is made
        have hek : ¬ k < e.1 := not_lt.mpr (heq ▸ hck)
        rw [ih curStartKey hrest hge' hlt k hck hkn]
        simp only [List.mem_cons, exists_eq_or_imp, hek, false_and, false_or]
      case isFalse hne =>
        split
        case isTrue hnext =>
          -- one cut up to the next start key, and every end key is past it
          rw [fragmentsHold_cons, ← hall fun e' he' => lt_of_lt_of_le hkn
            ((List.mem_cons.mp he').elim (fun h => h ▸ hnext) fun h => hnext.trans (he e' h)),
            ← mem_seqnumsToFlush]
          simp only [hck, hkn, true_and, not_fragmentsHold_nil, or_false]
        case isFalse hnext =>
          have hen : e.1 < nextStartKey := not_le.mp hnext
          rw [fragmentsHold_cons]
          by_cases hk : k < e.1
          · -- `k` is in the first cut, before the later cuts and every end key
            have hlater : ¬ FragmentsHold (flushCuts nextStartKey e.1 rest) k s := by
              rintro ⟨f, hf, hfk, -, -⟩
              have hstart := (flushCuts_bounds nextStartKey rest e.1 hrest he hen f hf).1
              exact absurd (lt_of_lt_of_le hk hstart) (not_lt.mpr hfk)
            rw [← hall fun e' he' => lt_of_lt_of_le hk
              ((List.mem_cons.mp he').elim (fun h => h ▸ le_rfl) fun h => he e' h),
              ← mem_seqnumsToFlush]
            simp only [hck, hk, true_and, hlater, or_false]
          · -- `k` is past the first cut: the later cuts hold it as the end keys after `e` do
            rw [ih e.1 hrest he hen k (not_lt.mp hk) hkn]
            simp only [List.mem_cons, exists_eq_or_imp, hk, false_and, and_false, false_or]

/-- Where the loop stops: the end keys it keeps are those at or past the next start key, and it
keeps none when it runs off the end. -/
theorem flushLoop_rest (nextStartKey : α) :
    ∀ (pending : List (α × Nat)) (l : FragmentedRangeTombstoneList α) (curStartKey : α),
      pending.Pairwise (fun a b => a.1 ≤ b.1) → curStartKey < nextStartKey →
      (∀ e ∈ (flushLoop nextStartKey l curStartKey pending).2.getD [], nextStartKey ≤ e.1) ∧
        (∀ e ∈ pending, nextStartKey ≤ e.1 →
          e ∈ (flushLoop nextStartKey l curStartKey pending).2.getD []) ∧
        ((flushLoop nextStartKey l curStartKey pending).2.getD []).Sublist pending := by
  intro pending
  induction pending with
  | nil => intro _ _ _ _; exact ⟨by simp [flushLoop], by simp, by simp [flushLoop]⟩
  | cons e rest ih =>
      intro l curStartKey hsorted hlt
      obtain ⟨he, hrest⟩ := List.pairwise_cons.mp hsorted
      rw [flushLoop]
      split
      case isTrue heq =>
        -- `e` is at the current start key, before the next one: it is passed
        obtain ⟨hpast, hkeep, hsub⟩ := ih l curStartKey hrest hlt
        refine ⟨hpast, fun e' he' hn => ?_, hsub.cons e⟩
        rcases List.mem_cons.mp he' with rfl | he'
        · exact absurd (heq ▸ hlt) (not_lt.mpr hn)
        · exact hkeep e' he' hn
      case isFalse hne =>
        split
        case isTrue hnext =>
          -- the loop stops at `e`, and keeps it and the end keys after it
          refine ⟨fun e' he' => ?_, fun e' he' _ => he', List.Sublist.refl _⟩
          rcases List.mem_cons.mp he' with rfl | he'
          · exact hnext
          · exact hnext.trans (he e' he')
        case isFalse hnext =>
          obtain ⟨hpast, hkeep, hsub⟩ := ih _ e.1 hrest (not_le.mp hnext)
          refine ⟨hpast, fun e' he' hn => ?_, hsub.cons e⟩
          rcases List.mem_cons.mp he' with rfl | he'
          · exact absurd hn hnext
          · exact hkeep e' he' hn

/-- `flush_current_tombstones`: the loop's list, the next start key, and the end keys the loop
keeps. -/
theorem flushCurrentTombstones_eq (st : FragmenterState α) (nextStartKey : α) :
    st.flushCurrentTombstones nextStartKey =
      ⟨(flushLoop nextStartKey st.list st.curStartKey st.curEndKeys).1, nextStartKey,
        (flushLoop nextStartKey st.list st.curStartKey st.curEndKeys).2.getD []⟩ := by
  rw [FragmenterState.flushCurrentTombstones]
  split <;> rename_i h <;> rw [h] <;> rfl

/-- The cuts of a flush are ordered. -/
theorem flushCuts_ordered (nextStartKey : α) (pending : List (α × Nat)) (curStartKey : α)
    (hsorted : pending.Pairwise (fun a b => a.1 ≤ b.1)) (hge : ∀ e ∈ pending, curStartKey ≤ e.1)
    (hlt : curStartKey < nextStartKey) :
    FragmentsOrdered (flushCuts nextStartKey curStartKey pending) where
  nonempty f hf := (flushCuts_bounds nextStartKey pending curStartKey hsorted hge hlt f hf).2.1
  disjoint := flushCuts_disjoint nextStartKey pending curStartKey hsorted hge hlt
  seqs_desc f hf :=
    (flushCuts_bounds nextStartKey pending curStartKey hsorted hge hlt f hf).2.2.2.1
  seqs_ne_nil f hf :=
    (flushCuts_bounds nextStartKey pending curStartKey hsorted hge hlt f hf).2.2.2.2

@[simp] theorem flushCurrentTombstones_curStartKey (st : FragmenterState α) (nextStartKey : α) :
    (st.flushCurrentTombstones nextStartKey).curStartKey = nextStartKey := by
  rw [flushCurrentTombstones_eq]

/-! ## `cur_end_keys` -/

omit [LinearOrder α] in
theorem mem_insertEndKey [LinearOrder α] {e x : α × Nat} :
    ∀ {keys : List (α × Nat)}, x ∈ insertEndKey e keys ↔ x = e ∨ x ∈ keys
  | [] => by simp [insertEndKey]
  | y :: ys => by
      rw [insertEndKey]
      split
      · exact List.mem_cons
      · split
        case isTrue heq =>
          subst heq
          simp only [List.mem_cons]
          tauto
        case isFalse =>
          rw [List.mem_cons, mem_insertEndKey, List.mem_cons]
          tauto

/-- Insertion keeps the end keys in ascending order. -/
theorem pairwise_insertEndKey (e : α × Nat) :
    ∀ keys : List (α × Nat), keys.Pairwise (fun a b => a.1 ≤ b.1) →
      (insertEndKey e keys).Pairwise fun a b => a.1 ≤ b.1
  | [], _ => List.pairwise_singleton _ _
  | y :: ys, h => by
      obtain ⟨hy, hys⟩ := List.pairwise_cons.mp h
      rw [insertEndKey]
      split
      case isTrue hlt =>
        -- `e` goes first: its end key is at most `y`'s, so at most every later one
        have hey : e.1 ≤ y.1 := by
          simp only [endKeyLt, Bool.or_eq_true, Bool.and_eq_true, decide_eq_true_eq] at hlt
          rcases hlt with h | ⟨h, -⟩
          · exact h.le
          · exact h.le
        refine List.Pairwise.cons (fun z hz => ?_) h
        rcases List.mem_cons.mp hz with rfl | hz
        · exact hey
        · exact hey.trans (hy z hz)
      case isFalse hlt =>
        split
        · exact h
        · -- `y` stays first: its end key is at most `e`'s
          have hye : y.1 ≤ e.1 := by
            simp only [endKeyLt, Bool.or_eq_true, Bool.and_eq_true, decide_eq_true_eq,
              not_or, not_and] at hlt
            exact not_lt.mp hlt.1
          refine List.Pairwise.cons (fun z hz => ?_) (pairwise_insertEndKey e ys hys)
          rcases mem_insertEndKey.mp hz with rfl | hz
          · exact hye
          · exact hy z hz

/-! ## The sweep -/

/-- The sweep after the tombstones `done`, all starting at or before `cur_start_key`: fragments up
to it, which describe `done` below it, and in `cur_end_keys`, in ascending order, end keys of
`done` at or past it, among them every one past it. -/
structure SweepInv (done : List (RangeTombstone α)) (st : FragmenterState α) : Prop where
  indexed : st.list.Indexed
  ordered : FragmentsOrdered st.list.fragments
  below : ∀ f ∈ st.list.fragments, f.2.1 ≤ st.curStartKey
  started : ∀ t ∈ done, t.startKey ≤ st.curStartKey
  endKeys_sorted : st.curEndKeys.Pairwise fun a b => a.1 ≤ b.1
  endKeys_ge : ∀ e ∈ st.curEndKeys, st.curStartKey ≤ e.1
  endKeys_done : ∀ e ∈ st.curEndKeys, ∃ t ∈ done, (t.endKey, t.seq) = e
  done_endKeys : ∀ t ∈ done, st.curStartKey < t.endKey → (t.endKey, t.seq) ∈ st.curEndKeys
  holds : ∀ k, k < st.curStartKey → ∀ s,
    FragmentsHold st.list.fragments k s ↔ ∃ t ∈ done, t.covers k = true ∧ t.seq = s

section Sweep

variable {done : List (RangeTombstone α)} {st : FragmenterState α}

/-- At or past `cur_start_key`, the tombstones covering a key are those whose end keys in
`cur_end_keys` are past it. -/
theorem SweepInv.covers_iff (h : SweepInv done st) {k : α} (hk : st.curStartKey ≤ k) (s : Nat) :
    (∃ t ∈ done, t.covers k = true ∧ t.seq = s) ↔ ∃ e ∈ st.curEndKeys, k < e.1 ∧ e.2 = s := by
  constructor
  · rintro ⟨t, ht, hcov, rfl⟩
    rw [RangeTombstone.covers_eq_true] at hcov
    exact ⟨_, h.done_endKeys t ht (lt_of_le_of_lt hk hcov.2), hcov.2, rfl⟩
  · rintro ⟨e, he, hke, rfl⟩
    obtain ⟨t, ht, rfl⟩ := h.endKeys_done e he
    exact ⟨t, ht, RangeTombstone.covers_eq_true.mpr ⟨(h.started t ht).trans hk, hke⟩, rfl⟩

/-- **The flush step**: `flush_current_tombstones` up to a later start key cuts the fragments
below it and keeps the end keys past it. -/
theorem SweepInv.flush (h : SweepInv done st) {nextStartKey : α}
    (hlt : st.curStartKey < nextStartKey) :
    SweepInv done (st.flushCurrentTombstones nextStartKey) := by
  obtain ⟨hfrag, hidx⟩ := flushLoop_fragments nextStartKey st.curEndKeys st.list st.curStartKey
    h.indexed
  obtain ⟨hpast, hkeep, hsub⟩ := flushLoop_rest nextStartKey st.curEndKeys st.list
    st.curStartKey h.endKeys_sorted hlt
  have hbounds := flushCuts_bounds nextStartKey st.curEndKeys st.curStartKey h.endKeys_sorted
    h.endKeys_ge hlt
  rw [flushCurrentTombstones_eq]
  refine ⟨hidx, ?_, ?_, fun t ht => (h.started t ht).trans hlt.le,
    h.endKeys_sorted.sublist hsub, hpast, fun e he => h.endKeys_done e (hsub.subset he),
    fun t ht hend => hkeep _ (h.done_endKeys t ht (hlt.trans hend)) hend.le, ?_⟩
  · -- the cuts start where the fragments there were end
    rw [hfrag]
    exact h.ordered.append (flushCuts_ordered nextStartKey st.curEndKeys st.curStartKey
      h.endKeys_sorted h.endKeys_ge hlt) fun f hf g hg => (h.below f hf).trans (hbounds g hg).1
  · intro f hf
    rw [hfrag] at hf
    rcases List.mem_append.mp hf with hf | hf
    · exact (h.below f hf).trans hlt.le
    · exact (hbounds f hf).2.2.1
  · intro k hk s
    rw [hfrag, fragmentsHold_append]
    by_cases hkc : k < st.curStartKey
    · -- below the old start key only the old fragments hold `k`
      have hcuts : ¬ FragmentsHold (flushCuts nextStartKey st.curStartKey st.curEndKeys) k s := by
        rintro ⟨f, hf, hfk, -, -⟩
        exact absurd (lt_of_lt_of_le hkc ((hbounds f hf).1.trans hfk)) (lt_irrefl k)
      rw [or_iff_left hcuts, h.holds k hkc s]
    · -- from it on only the cuts do, with the end keys past `k`
      have hck : st.curStartKey ≤ k := not_lt.mp hkc
      rw [or_iff_right (not_fragmentsHold_of_le h.below hck s), h.covers_iff hck s]
      exact flushCuts_holds nextStartKey st.curEndKeys st.curStartKey h.endKeys_sorted
        h.endKeys_ge hlt k hck hk s

/-- **The insert step**: the next tombstone, at the start key the sweep is at (or past it with no
end key left), joins `cur_end_keys`. -/
theorem SweepInv.insert (h : SweepInv done st) (t : RangeTombstone α)
    (hwf : t.startKey ≤ t.endKey) (hstart : st.curStartKey ≤ t.startKey)
    (hempty : st.curStartKey = t.startKey ∨ st.curEndKeys = []) :
    SweepInv (done ++ [t]) { st with
      curStartKey := t.startKey, curEndKeys := insertEndKey (t.endKey, t.seq) st.curEndKeys } := by
  refine ⟨h.indexed, h.ordered, fun f hf => (h.below f hf).trans hstart, ?_,
    pairwise_insertEndKey _ _ h.endKeys_sorted, ?_, ?_, ?_, ?_⟩
  · intro t' ht'
    rcases List.mem_append.mp ht' with ht' | ht'
    · exact (h.started t' ht').trans hstart
    · rw [List.mem_singleton.mp ht']
  · intro e he
    rcases mem_insertEndKey.mp he with rfl | he
    · exact hwf
    · -- an end key there was is at or past the start key, which has not moved
      rcases hempty with heq | hnil
      · exact heq ▸ h.endKeys_ge e he
      · exact absurd (hnil ▸ he) List.not_mem_nil
  · intro e he
    rcases mem_insertEndKey.mp he with rfl | he
    · exact ⟨t, List.mem_append_right _ (List.mem_singleton_self t), rfl⟩
    · obtain ⟨t', ht', rfl⟩ := h.endKeys_done e he
      exact ⟨t', List.mem_append_left _ ht', rfl⟩
  · intro t' ht' hend
    rcases List.mem_append.mp ht' with ht' | ht'
    · exact mem_insertEndKey.mpr (Or.inr (h.done_endKeys t' ht' (lt_of_le_of_lt hstart hend)))
    · rw [List.mem_singleton.mp ht']
      exact mem_insertEndKey.mpr (Or.inl rfl)
  · intro k hk s
    change k < t.startKey at hk
    -- the new tombstone starts after `k`, so it does not cover it
    have hnew : t.covers k = false := by
      rw [← Bool.not_eq_true, RangeTombstone.covers_eq_true]
      exact fun hcov => lt_irrefl k (lt_of_lt_of_le hk hcov.1)
    have hdone : (∃ t' ∈ done ++ [t], t'.covers k = true ∧ t'.seq = s) ↔
        ∃ t' ∈ done, t'.covers k = true ∧ t'.seq = s := by
      simp only [List.mem_append, List.mem_singleton, or_and_right, exists_or, exists_eq_left,
        hnew, Bool.false_eq_true, false_and, or_false]
    rw [hdone]
    by_cases hkc : k < st.curStartKey
    · exact h.holds k hkc s
    · -- between the old and the new start key nothing is covered: no end key was left
      have hck : st.curStartKey ≤ k := not_lt.mp hkc
      have hnil : st.curEndKeys = [] :=
        hempty.resolve_left fun heq => absurd (heq ▸ hk) (not_lt.mpr hck)
      rw [h.covers_iff hck s, hnil]
      simp only [List.not_mem_nil, false_and, exists_false, iff_false]
      exact not_fragmentsHold_of_le h.below hck s

/-- A sweep past the end of every tombstone describes them. -/
theorem SweepInv.describes (h : SweepInv done st)
    (hend : ∀ t ∈ done, t.endKey ≤ st.curStartKey) : st.list.Describes done := by
  refine ⟨h.indexed, h.ordered, fun k s => ?_⟩
  by_cases hkc : k < st.curStartKey
  · exact h.holds k hkc s
  · -- from the start key on, neither a fragment nor a tombstone reaches `k`
    have hck : st.curStartKey ≤ k := not_lt.mp hkc
    refine iff_of_false (not_fragmentsHold_of_le h.below hck s) ?_
    rintro ⟨t, ht, hcov, -⟩
    rw [RangeTombstone.covers_eq_true] at hcov
    exact absurd (lt_of_lt_of_le hcov.2 (hend t ht)) (not_lt.mpr hck)

/-- The loop cuts nothing when every end key is at the current start key. -/
theorem flushLoop_of_forall_eq (nextStartKey : α) (l : FragmentedRangeTombstoneList α)
    (curStartKey : α) :
    ∀ pending : List (α × Nat), (∀ e ∈ pending, e.1 = curStartKey) →
      flushLoop nextStartKey l curStartKey pending = (l, none)
  | [], _ => rfl
  | e :: rest, heq => by
      rw [flushLoop, if_pos (heq e List.mem_cons_self).symm]
      exact flushLoop_of_forall_eq nextStartKey l curStartKey rest
        fun e' he' => heq e' (List.mem_cons_of_mem e he')

/-- **The last flush**, up to the largest end key, leaves fragments that describe every
tombstone. -/
theorem SweepInv.describes_fragmentLoop_nil (h : SweepInv done st) :
    (fragmentLoop [] st).list.Describes done := by
  rw [fragmentLoop]
  split
  case h_1 last hlast =>
    -- every end key is at most the last one
    have hle : ∀ e ∈ st.curEndKeys, e.1 ≤ last.1 := by
      intro e he
      obtain ⟨init, hinit⟩ := List.getLast?_eq_some_iff.mp hlast
      have hsorted := h.endKeys_sorted
      rw [hinit] at hsorted he
      rcases List.mem_append.mp he with he | he
      · exact (List.pairwise_append.mp hsorted).2.2 e he last (List.mem_singleton_self last)
      · rw [List.mem_singleton.mp he]
    have hend : ∀ t ∈ done, t.endKey ≤ last.1 := fun t ht => by
      by_contra hlt
      have hlt := not_le.mp hlt
      have hc : st.curStartKey < t.endKey :=
        lt_of_le_of_lt (h.endKeys_ge last (List.mem_of_getLast? hlast)) hlt
      exact absurd (hle _ (h.done_endKeys t ht hc)) (not_le.mpr hlt)
    by_cases hc : st.curStartKey < last.1
    · exact (h.flush hc).describes fun t ht => by
        rw [flushCurrentTombstones_curStartKey]
        exact hend t ht
    · -- the last end key is the start key itself: nothing is cut
      have hceq : ∀ e ∈ st.curEndKeys, e.1 = st.curStartKey := fun e he =>
        le_antisymm ((hle e he).trans (not_lt.mp hc)) (h.endKeys_ge e he)
      rw [FragmenterState.flushCurrentTombstones, flushLoop_of_forall_eq _ _ _ _ hceq]
      exact h.describes fun t ht => (hend t ht).trans (not_lt.mp hc)
  case h_2 hnone =>
    -- no end key is left, so every tombstone ended at or before the start key
    refine h.describes fun t ht => not_lt.mp fun hc => ?_
    have hmem := h.done_endKeys t ht hc
    rw [List.getLast?_eq_none_iff.mp hnone] at hmem
    exact List.not_mem_nil hmem

/-- One turn of the main loop: a flush when the start key changes and end keys are left, then
the insertion of the tombstone. -/
theorem SweepInv.step (h : SweepInv done st) (t : RangeTombstone α)
    (hwf : t.startKey ≤ t.endKey) (hstart : st.curStartKey ≤ t.startKey) :
    SweepInv (done ++ [t])
      (let st := if st.curEndKeys ≠ [] ∧ st.curStartKey ≠ t.startKey then
          st.flushCurrentTombstones t.startKey
        else st
      { st with
        curStartKey := t.startKey,
        curEndKeys := insertEndKey (t.endKey, t.seq) st.curEndKeys }) := by
  split
  case isTrue hflush =>
    have h' := h.flush (lt_of_le_of_ne hstart hflush.2)
    rw [flushCurrentTombstones_eq] at h' ⊢
    exact h'.insert t hwf le_rfl (Or.inl rfl)
  case isFalse hflush =>
    -- the start key is the same, or no end key is left
    refine h.insert t hwf hstart ?_
    by_cases hnil : st.curEndKeys = []
    · exact Or.inr hnil
    · exact Or.inl (not_not.mp fun hne => hflush ⟨hnil, hne⟩)

/-- **The run**: the main loop over tombstones in order of their start keys, none running
backwards, ends with fragments that describe all of them. -/
theorem fragmentLoop_describes :
    ∀ (ts : List (RangeTombstone α)) (done : List (RangeTombstone α)) (st : FragmenterState α),
      SweepInv done st → ts.Pairwise (fun a b => a.startKey ≤ b.startKey) →
      (∀ t ∈ ts, st.curStartKey ≤ t.startKey) → (∀ t ∈ ts, t.startKey ≤ t.endKey) →
      (fragmentLoop ts st).list.Describes (done ++ ts)
  | [], done, st, h, _, _, _ => by
      rw [List.append_nil]
      exact h.describes_fragmentLoop_nil
  | t :: ts, done, st, h, hsorted, hstart, hwf => by
      obtain ⟨ht, hts⟩ := List.pairwise_cons.mp hsorted
      rw [fragmentLoop, ← List.singleton_append, ← List.append_assoc]
      exact fragmentLoop_describes ts (done ++ [t]) _
        (h.step t (hwf t List.mem_cons_self) (hstart t List.mem_cons_self)) hts ht
        fun t' ht' => hwf t' (List.mem_cons_of_mem t ht')

end Sweep

/-! ## The constructor -/

theorem fragmentsOrdered_nil : FragmentsOrdered ([] : List (α × α × List Nat)) :=
  ⟨by simp, List.Pairwise.nil, by simp, by simp⟩

/-- The sweep before any tombstone, at any start key. -/
theorem sweepInv_empty (curStartKey : α) : SweepInv [] ⟨⟨[], []⟩, curStartKey, []⟩ :=
  ⟨by simp [FragmentedRangeTombstoneList.Indexed], fragmentsOrdered_nil,
    by simp [FragmentedRangeTombstoneList.fragments], by simp, List.Pairwise.nil, by simp,
    by simp, by simp, fun _ _ _ => by simp [FragmentsHold, FragmentedRangeTombstoneList.fragments]⟩

/-- A description is one of the tombstones, in whatever order. -/
theorem FragmentedRangeTombstoneList.Describes.of_perm {l : FragmentedRangeTombstoneList α}
    {ts ts' : List (RangeTombstone α)} (h : l.Describes ts) (hperm : ts.Perm ts') :
    l.Describes ts' :=
  ⟨h.indexed, h.ordered, fun k s => by
    rw [h.holds k s]
    exact exists_congr fun t => and_congr_left' hperm.mem_iff⟩

/-- `FragmentTombstones` over tombstones in order of their start keys, none running backwards. -/
theorem fragmentTombstones_describes (ts : List (RangeTombstone α))
    (hsorted : ts.Pairwise fun a b => a.startKey ≤ b.startKey)
    (hwf : ∀ t ∈ ts, t.startKey ≤ t.endKey) :
    (fragmentTombstones ts).Describes ts := by
  cases ts with
  | nil =>
      refine ⟨by simp [FragmentedRangeTombstoneList.Indexed, fragmentTombstones],
        by simpa [fragmentTombstones, FragmentedRangeTombstoneList.fragments] using
          (fragmentsOrdered_nil : FragmentsOrdered ([] : List (α × α × List Nat))),
        fun k s => ?_⟩
      simp [fragmentTombstones, FragmentsHold, FragmentedRangeTombstoneList.fragments]
  | cons t ts =>
      obtain ⟨ht, hts⟩ := List.pairwise_cons.mp hsorted
      -- the first tombstone meets an empty sweep at its own start key
      have h₀ := (sweepInv_empty t.startKey).insert t (hwf t List.mem_cons_self) le_rfl
        (Or.inl rfl)
      exact fragmentLoop_describes ts [t] _ h₀ hts ht
        fun t' ht' => hwf t' (List.mem_cons_of_mem t ht')

/-- Tombstones in internal key order are in order of their start keys. -/
theorem internalKeyLe_startKey {a b : RangeTombstone α} (h : internalKeyLe a b = true) :
    a.startKey ≤ b.startKey := by
  simp only [internalKeyLe, Bool.or_eq_true, Bool.and_eq_true, decide_eq_true_eq] at h
  rcases h with h | ⟨h, -⟩
  · exact h.le
  · exact h.le

theorem pairwise_of_isSorted :
    ∀ ts : List (RangeTombstone α), isSorted ts = true →
      ts.Pairwise fun a b => a.startKey ≤ b.startKey
  | [], _ => List.Pairwise.nil
  | [_], _ => List.pairwise_singleton _ _
  | a :: b :: rest, h => by
      rw [isSorted, Bool.and_eq_true] at h
      have hrest := pairwise_of_isSorted (b :: rest) h.2
      have hab := internalKeyLe_startKey h.1
      refine List.Pairwise.cons (fun c hc => ?_) hrest
      rcases List.mem_cons.mp hc with rfl | hc
      · exact hab
      · exact hab.trans ((List.pairwise_cons.mp hrest).1 c hc)

/-- The order the constructor sorts by is total and transitive, so the sort orders the
tombstones by their start keys. -/
theorem pairwise_insertionSort_internalKeyLe (ts : List (RangeTombstone α)) :
    (ts.insertionSort fun a b => internalKeyLe a b).Pairwise
      fun a b => a.startKey ≤ b.startKey := by
  have : Std.Total fun a b : RangeTombstone α => internalKeyLe a b = true := by
    refine ⟨fun a b => ?_⟩
    simp only [internalKeyLe, Bool.or_eq_true, Bool.and_eq_true, decide_eq_true_eq]
    rcases lt_trichotomy a.startKey b.startKey with h | h | h
    · exact Or.inl (Or.inl h)
    · rcases le_total a.seq b.seq with hs | hs
      · exact Or.inr (Or.inr ⟨h.symm, hs⟩)
      · exact Or.inl (Or.inr ⟨h, hs⟩)
    · exact Or.inr (Or.inl h)
  have : IsTrans (RangeTombstone α) fun a b => internalKeyLe a b = true := by
    refine ⟨fun a b c hab hbc => ?_⟩
    simp only [internalKeyLe, Bool.or_eq_true, Bool.and_eq_true, decide_eq_true_eq] at hab hbc ⊢
    rcases hab with h₁ | ⟨h₁, h₂⟩ <;> rcases hbc with h₃ | ⟨h₃, h₄⟩
    · exact Or.inl (h₁.trans h₃)
    · exact Or.inl (lt_of_lt_of_eq h₁ h₃)
    · exact Or.inl (lt_of_eq_of_lt h₁ h₃)
    · exact Or.inr ⟨h₁.trans h₃, h₄.trans h₂⟩
  exact (List.pairwise_insertionSort _ ts).imp internalKeyLe_startKey

/-- **Fragmentation describes the tombstones**: for tombstones none of which runs backwards, in
any order, the fragments `FragmentedRangeTombstoneList` cuts are nonempty, in order and
disjoint, list their sequence numbers in descending order, and hold at every key exactly the
numbers of the tombstones covering it. -/
theorem new_describes (tombstones : List (RangeTombstone α))
    (hwf : ∀ t ∈ tombstones, t.startKey ≤ t.endKey) :
    (FragmentedRangeTombstoneList.new tombstones).Describes tombstones := by
  rw [FragmentedRangeTombstoneList.new]
  split
  case isTrue hsorted =>
    exact fragmentTombstones_describes tombstones (pairwise_of_isSorted tombstones hsorted) hwf
  case isFalse =>
    -- out of order, the tombstones are sorted first: the same ones, by start key
    have hperm := List.perm_insertionSort (fun a b => internalKeyLe a b = true) tombstones
    exact (fragmentTombstones_describes _ (pairwise_insertionSort_internalKeyLe tombstones)
      fun t ht => hwf t (hperm.subset ht)).of_perm hperm

/-! ## The lookup -/

/-- The largest element of a list depends only on which elements it has. -/
theorem foldr_max_congr {xs ys : List Nat} (h : ∀ x, x ∈ xs ↔ x ∈ ys) :
    xs.foldr max 0 = ys.foldr max 0 :=
  le_antisymm (List.max_le_of_forall_le xs _ fun x hx => List.le_max_of_le' 0 ((h x).mp hx) le_rfl)
    (List.max_le_of_forall_le ys _ fun y hy => List.le_max_of_le' 0 ((h y).mpr hy) le_rfl)

/-- In a descending list, the first element at most `upperBound` is the largest such one. -/
theorem find?_getD_eq_foldr_max (upperBound : Nat) :
    ∀ xs : List Nat, xs.Pairwise (· ≥ ·) →
      (xs.find? fun s => decide (s ≤ upperBound)).getD 0 =
        (xs.filter fun s => decide (s ≤ upperBound)).foldr max 0
  | [], _ => rfl
  | x :: xs, h => by
      obtain ⟨hx, hxs⟩ := List.pairwise_cons.mp h
      by_cases hle : x ≤ upperBound
      · -- `x` is the first at most the bound, and every later element is at most `x`
        rw [List.find?_cons_of_pos (p := fun s => decide (s ≤ upperBound)) (decide_eq_true hle),
          List.filter_cons_of_pos (p := fun s => decide (s ≤ upperBound)) (decide_eq_true hle),
          Option.getD_some, List.foldr_cons]
        exact (max_eq_left (List.max_le_of_forall_le _ _
          fun y hy => hx y (List.mem_filter.mp hy).1)).symm
      · rw [List.find?_cons_of_neg (p := fun s => decide (s ≤ upperBound)) (by simpa using hle),
          List.filter_cons_of_neg (p := fun s => decide (s ≤ upperBound)) (by simpa using hle)]
        exact find?_getD_eq_foldr_max upperBound xs hxs

/-- In fragments that are nonempty and disjoint, only the first one ending after a key can hold
it. -/
theorem fragmentsHold_iff_find? {fs : List (α × α × List Nat)} (hne : ∀ f ∈ fs, f.1 < f.2.1)
    (hdisj : fs.Pairwise fun f g => f.2.1 ≤ g.1) (k : α) (s : Nat) :
    FragmentsHold fs k s ↔
      ∃ f, fs.find? (fun f => decide (k < f.2.1)) = some f ∧ f.1 ≤ k ∧ s ∈ f.2.2 := by
  constructor
  · rintro ⟨f', hf', hk₁, hk₂, hs⟩
    obtain ⟨f, hfind⟩ := Option.isSome_iff_exists.mp
      (List.find?_isSome (p := fun f : α × α × List Nat => decide (k < f.2.1)) |>.mpr
        ⟨f', hf', decide_eq_true hk₂⟩)
    obtain ⟨hkf, as, bs, rfl, has⟩ := List.find?_eq_some_iff_append.mp hfind
    -- `f'` is not before `f`, which is the first to end after `k`, nor after it
    have heq : f' = f := by
      rcases List.mem_append.mp hf' with hf' | hf'
      · exact absurd (decide_eq_true hk₂) (by simpa using has f' hf')
      · rcases List.mem_cons.mp hf' with rfl | hf'
        · rfl
        · have hsep := (List.pairwise_cons.mp (List.pairwise_append.mp hdisj).2.1).1 f' hf'
          exact absurd (lt_of_lt_of_le (of_decide_eq_true hkf) (hsep.trans hk₁)) (lt_irrefl k)
    subst heq
    exact ⟨f', hfind, hk₁, hs⟩
  · rintro ⟨f, hfind, hk, hs⟩
    exact ⟨f, List.mem_of_find?_eq_some hfind, hk,
      of_decide_eq_true (List.find?_some (p := fun f : α × α × List Nat => decide (k < f.2.1))
        hfind), hs⟩

/-- `MaxCoveringTombstoneSeqnum` on fragments that are nonempty, disjoint and list their numbers
in descending order: the binary searches find the fragment ending after the key and its first
number at most the upper bound; the answer is that number when the fragment holds the key. -/
theorem maxCoveringTombstoneSeqnum_eq_find? (l : FragmentedRangeTombstoneList α)
    (hne : ∀ f ∈ l.fragments, f.1 < f.2.1) (hdisj : l.fragments.Pairwise fun f g => f.2.1 ≤ g.1)
    (hdesc : ∀ f ∈ l.fragments, f.2.2.Pairwise (· ≥ ·)) (upperBound : Nat) (k : α) :
    l.maxCoveringTombstoneSeqnum upperBound k =
      match l.fragments.find? (fun f => decide (k < f.2.1)) with
      | some f => if f.1 ≤ k then (f.2.2.find? fun s => decide (s ≤ upperBound)).getD 0 else 0
      | none => 0 := by
  -- the fragments' end keys are split by `k`: once one is past it, every later one is
  have hsplit : l.tombstones.Pairwise
      fun x y => decide (k < x.endKey) = true → decide (k < y.endKey) = true := by
    refine (List.pairwise_map.mp hdisj).imp_of_mem fun {x y} _ hy hxy hkx => ?_
    have hy' := hne _ (List.mem_map_of_mem (f := fun t => (t.startKey, t.endKey, l.seqsOf t)) hy)
    exact decide_eq_true (lt_of_lt_of_le (of_decide_eq_true hkx) (hxy.trans hy'.le))
  simp only [FragmentedRangeTombstoneList.maxCoveringTombstoneSeqnum,
    upperBound_eq_findIdx (fun (k : α) (t : RangeTombstoneStack α) => decide (k < t.endKey)) k
      l.tombstones hsplit, ← List.find?_eq_getElem?_findIdx,
    FragmentedRangeTombstoneList.fragments, List.find?_map, Function.comp_def]
  cases hfind : l.tombstones.find? (fun t => decide (k < t.endKey)) with
  | none => rfl
  | some t =>
      -- the fragment's numbers are split by the upper bound too, since they descend
      have hseqs := hdesc _ (List.mem_map_of_mem (f := fun t => (t.startKey, t.endKey, l.seqsOf t))
        (List.mem_of_find?_eq_some hfind))
      have hsplit' : (l.seqsOf t).Pairwise
          fun x y => decide (x > upperBound) = false → decide (y > upperBound) = false :=
        hseqs.imp fun hxy hx => decide_eq_false fun hy =>
          absurd (lt_of_lt_of_le hy hxy) (of_decide_eq_false hx)
      have hpred : (fun s => !decide (s > upperBound)) = fun s => decide (s ≤ upperBound) := by
        funext s
        by_cases hs : s ≤ upperBound
        · simp [hs]
        · simp [hs, not_le.mp hs]
      simp only [Option.map_some,
        lowerBound_eq_findIdx (fun (s u : Nat) => decide (s > u)) (l.seqsOf t) upperBound hsplit',
        ← List.find?_eq_getElem?_findIdx, hpred]
      cases (l.seqsOf t).find? fun s => decide (s ≤ upperBound) <;> split_ifs <;> rfl

/-- The numbers the spec looks at: those at most the upper bound of the tombstones covering the
key. -/
theorem mem_coveringSeqnums {ts : List (RangeTombstone α)} {upperBound : Nat} {k : α} {s : Nat} :
    s ∈ (ts.filter fun t => t.covers k && decide (t.seq ≤ upperBound)).map RangeTombstone.seq ↔
      s ≤ upperBound ∧ ∃ t ∈ ts, t.covers k = true ∧ t.seq = s := by
  simp only [List.mem_map, List.mem_filter, Bool.and_eq_true, decide_eq_true_eq]
  constructor
  · rintro ⟨t, ⟨ht, hcov, hle⟩, rfl⟩
    exact ⟨hle, t, ht, hcov, rfl⟩
  · rintro ⟨hle, t, ht, hcov, rfl⟩
    exact ⟨t, ⟨ht, hcov, hle⟩, rfl⟩

/-- **The lookup of a description**: on fragments describing the tombstones,
`MaxCoveringTombstoneSeqnum` answers the largest number at most the upper bound of a tombstone
covering the key, or `0`. -/
theorem FragmentedRangeTombstoneList.Describes.maxCoveringTombstoneSeqnum_eq
    {l : FragmentedRangeTombstoneList α} {ts : List (RangeTombstone α)} (h : l.Describes ts)
    (upperBound : Nat) (k : α) :
    l.maxCoveringTombstoneSeqnum upperBound k = maxCoveringSeqnum ts upperBound k := by
  have hholds := fun s => (h.holds k s).symm.trans
    (fragmentsHold_iff_find? h.ordered.nonempty h.ordered.disjoint k s)
  rw [maxCoveringTombstoneSeqnum_eq_find? l h.ordered.nonempty h.ordered.disjoint
    h.ordered.seqs_desc, maxCoveringSeqnum]
  split
  case h_1 f hfind =>
    split_ifs with hk
    · -- the fragment holding `k` lists the numbers of the tombstones covering it
      rw [find?_getD_eq_foldr_max upperBound _
        (h.ordered.seqs_desc f (List.mem_of_find?_eq_some hfind))]
      refine foldr_max_congr fun s => ?_
      rw [mem_coveringSeqnums, hholds s, List.mem_filter, decide_eq_true_iff]
      constructor
      · rintro ⟨hs, hle⟩
        exact ⟨hle, f, hfind, hk, hs⟩
      · rintro ⟨hle, f', hfind', -, hs⟩
        rw [hfind, Option.some.injEq] at hfind'
        exact ⟨hfind' ▸ hs, hle⟩
    · -- the first fragment ending after `k` starts after it: nothing covers `k`
      show ([] : List Nat).foldr max 0 = _
      refine foldr_max_congr fun s => ?_
      rw [mem_coveringSeqnums, hholds s]
      simp only [List.not_mem_nil, false_iff, not_and, not_exists]
      intro _ f' hfind' hk'
      rw [hfind, Option.some.injEq] at hfind'
      exact absurd (hfind' ▸ hk') hk
  case h_2 hfind =>
    show ([] : List Nat).foldr max 0 = _
    refine foldr_max_congr fun s => ?_
    rw [mem_coveringSeqnums, hholds s, hfind]
    simp

/-! ## Fragmentation preserves what the tombstones delete -/

/-- **Fragmentation for reads preserves coverage**: for tombstones none of which runs backwards,
in any order, overlapping, nested, duplicated or empty, the fragments are nonempty, in order
and disjoint, list at least one sequence number each in descending order, and at every key hold
exactly the numbers of the tombstones covering it; a point lookup answers the largest number at
most its upper bound of a tombstone covering the key, or `0`. -/
theorem fragmentation_preserves_coverage (tombstones : List (RangeTombstone α))
    (hwf : ∀ t ∈ tombstones, t.startKey ≤ t.endKey) :
    (FragmentedRangeTombstoneList.new tombstones).Describes tombstones ∧
      ∀ (upperBound : Nat) (k : α),
        (FragmentedRangeTombstoneList.new tombstones).maxCoveringTombstoneSeqnum upperBound k =
          maxCoveringSeqnum tombstones upperBound k := by
  have h := new_describes tombstones hwf
  exact ⟨h, h.maxCoveringTombstoneSeqnum_eq⟩

/-- The tombstones `[1, 5) @ 3`, `[2, 4) @ 7` and the empty `[4, 4) @ 9`. -/
theorem fragmentation_preserves_coverage_nested :
    (∀ t ∈ ([⟨1, 5, 3⟩, ⟨2, 4, 7⟩, ⟨4, 4, 9⟩] : List (RangeTombstone Nat)),
        t.startKey ≤ t.endKey) ∧
      (FragmentedRangeTombstoneList.new
          ([⟨1, 5, 3⟩, ⟨2, 4, 7⟩, ⟨4, 4, 9⟩] : List (RangeTombstone Nat))).Describes
          [⟨1, 5, 3⟩, ⟨2, 4, 7⟩, ⟨4, 4, 9⟩] ∧
        ∀ (upperBound k : Nat),
          (FragmentedRangeTombstoneList.new
              ([⟨1, 5, 3⟩, ⟨2, 4, 7⟩, ⟨4, 4, 9⟩] :
                List (RangeTombstone Nat))).maxCoveringTombstoneSeqnum upperBound k =
            maxCoveringSeqnum [⟨1, 5, 3⟩, ⟨2, 4, 7⟩, ⟨4, 4, 9⟩] upperBound k :=
  ⟨by decide, fragmentation_preserves_coverage _ (by decide)⟩

/-- The fragments for compaction are those for reads, their numbers pruned: nonempty, disjoint,
and descending. -/
theorem newFor_compaction_ordered (tombstones : List (RangeTombstone α))
    (hwf : ∀ t ∈ tombstones, t.startKey ≤ t.endKey) (snapshots : List Nat)
    (hsnap : snapshots.Pairwise (· ≤ ·)) :
    let l := FragmentedRangeTombstoneList.newFor tombstones true snapshots
    (∀ f ∈ l.fragments, f.1 < f.2.1) ∧ (l.fragments.Pairwise fun f g => f.2.1 ≤ g.1) ∧
      ∀ f ∈ l.fragments, f.2.2.Pairwise (· ≥ ·) := by
  intro l
  have hord := (new_describes tombstones hwf).ordered
  have heq : l.fragments = _ := (newFor_prunedOf tombstones snapshots).fragments_eq
  refine ⟨fun f hf => ?_, ?_, fun f hf => ?_⟩
  · rw [heq] at hf
    obtain ⟨g, hg, rfl⟩ := List.mem_map.mp hf
    exact hord.nonempty g hg
  · rw [heq, List.pairwise_map]
    exact hord.disjoint
  · rw [heq] at hf
    obtain ⟨g, -, rfl⟩ := List.mem_map.mp hf
    -- between two kept numbers lies a snapshot, so they descend
    exact (pruneSeqnums_stripes hsnap _ _).imp fun ⟨_, _, hy, hx⟩ => (hy.trans hx.le)

/-- **Fragmentation for compaction preserves what each snapshot reads**: for tombstones none of
which runs backwards and snapshots in ascending order, a lookup at one of the snapshots, or at
`kMaxSequenceNumber`, in the fragments for compaction answers the largest number it may see of a
tombstone covering the key, or `0`. -/
theorem compaction_fragmentation_preserves_snapshot_reads (tombstones : List (RangeTombstone α))
    (hwf : ∀ t ∈ tombstones, t.startKey ≤ t.endKey) (snapshots : List Nat)
    (hsnap : snapshots.Pairwise (· ≤ ·)) (S : Nat) (hS : S ≤ kMaxSequenceNumber)
    (hread : S ∈ snapshots ∨ S = kMaxSequenceNumber) (k : α) :
    (FragmentedRangeTombstoneList.newFor tombstones true snapshots).maxCoveringTombstoneSeqnum S k =
      maxCoveringSeqnum tombstones S k := by
  have hdesc := new_describes tombstones hwf
  obtain ⟨hne, hdisj, hseqs⟩ := newFor_compaction_ordered tombstones hwf snapshots hsnap
  have heq := (newFor_prunedOf tombstones snapshots).fragments_eq
  rw [← hdesc.maxCoveringTombstoneSeqnum_eq,
    maxCoveringTombstoneSeqnum_eq_find? _ hne hdisj hseqs,
    maxCoveringTombstoneSeqnum_eq_find? _ hdesc.ordered.nonempty hdesc.ordered.disjoint
      hdesc.ordered.seqs_desc, heq, List.find?_map]
  -- pruning keeps the keys, so the lookup finds the pruned read fragment
  have hkeys : ((fun f : α × α × List Nat => decide (k < f.2.1)) ∘ pruneFragment snapshots) =
      fun f => decide (k < f.2.1) := rfl
  rw [hkeys]
  cases hfind : (FragmentedRangeTombstoneList.new tombstones).fragments.find?
      (fun f => decide (k < f.2.1)) with
  | none => rfl
  | some f =>
      -- and the reader sees in the pruned numbers what it sees in the read fragment's
      simp only [Option.map_some, pruneFragment]
      rw [find_pruneSeqnums hsnap _ (hdesc.ordered.seqs_desc f (List.mem_of_find?_eq_some hfind))
        _ S hS hread]

/-- The tombstones `[1, 5) @ 3` and `[2, 4) @ 7` with the snapshot `4`: at key `3` the reader at
the snapshot sees `3`. -/
theorem compaction_fragmentation_preserves_snapshot_reads_at_four :
    (∀ t ∈ ([⟨1, 5, 3⟩, ⟨2, 4, 7⟩] : List (RangeTombstone Nat)), t.startKey ≤ t.endKey) ∧
      ([4] : List Nat).Pairwise (· ≤ ·) ∧ 4 ≤ kMaxSequenceNumber ∧
      (4 ∈ ([4] : List Nat) ∨ 4 = kMaxSequenceNumber) ∧
      (FragmentedRangeTombstoneList.newFor ([⟨1, 5, 3⟩, ⟨2, 4, 7⟩] : List (RangeTombstone Nat))
          true [4]).maxCoveringTombstoneSeqnum 4 3 =
        maxCoveringSeqnum [⟨1, 5, 3⟩, ⟨2, 4, 7⟩] 4 3 :=
  ⟨by decide, by decide, by decide, Or.inl (by decide),
    compaction_fragmentation_preserves_snapshot_reads _ (by decide) _ (by decide) _ (by decide)
      (Or.inl (by decide)) 3⟩

end Coverage

end RocksCloud.Db
