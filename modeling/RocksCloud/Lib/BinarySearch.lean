import Mathlib

/-!
# The halving loop of the standard library's binary searches

libstdc++ implements `std::lower_bound` and `std::upper_bound` with one loop over a range
`[first, first + len)`: it looks at the middle element `first + len / 2`; when the search has
to go right of it, it continues after it with `len - len / 2 - 1` elements, else with the
`len / 2` elements before it. `lower_bound` goes right past the elements that compare less
than the value, `upper_bound` past those that the value does not compare less than.

The loop is written here over a predicate on positions, `goRight`, with the length of the
range as its bound: every turn shortens the range by at least one. Nothing in the loop asks
the range to be partitioned by `goRight`; on a range that is not, it still returns a position,
and which one depends on the positions it happens to look at.
-/

set_option autoImplicit false

namespace RocksCloud.Lib

/-- The `while (len > 0)` loop of `__lower_bound` and `__upper_bound`, for at most `fuel`
turns. -/
def halvingLoop (goRight : Nat → Bool) : Nat → Nat → Nat → Nat
  | 0, first, _ => first
  | fuel + 1, first, len =>
      if len = 0 then first
      else
        let half := len / 2
        let middle := first + half
        if goRight middle then halvingLoop goRight fuel (middle + 1) (len - half - 1)
        else halvingLoop goRight fuel first half

/-- The halving search over `[first, first + len)`; `len` turns are enough. -/
def halvingSearch (goRight : Nat → Bool) (first len : Nat) : Nat :=
  halvingLoop goRight len first len

/-- `std::lower_bound(xs.begin(), xs.end(), v, comp)`: it goes right past `x` when
`comp x v`. -/
def lowerBound {α β : Type} (comp : α → β → Bool) (xs : List α) (v : β) : Nat :=
  halvingSearch (fun i => match xs[i]? with | some x => comp x v | none => false) 0 xs.length

/-- `std::upper_bound(xs.begin(), xs.end(), v, comp)`: it goes right past `x` unless
`comp v x`. -/
def upperBound {α β : Type} (comp : β → α → Bool) (v : β) (xs : List α) : Nat :=
  halvingSearch (fun i => match xs[i]? with | some x => !comp v x | none => false) 0 xs.length

/-! ## On a partitioned range

When the search goes right exactly before some position `p` of the range, the loop finds `p`:
each turn keeps `p` inside the range it goes on with. -/

/-- Over a range that `goRight` splits at `p`, with enough fuel, the loop returns `p`. -/
theorem halvingLoop_eq_of_split (goRight : Nat → Bool) (p : Nat) :
    ∀ (fuel first len : Nat), len ≤ fuel → first ≤ p → p ≤ first + len →
      (∀ i, first ≤ i → i < p → goRight i = true) →
      (∀ i, p ≤ i → i < first + len → goRight i = false) →
      halvingLoop goRight fuel first len = p := by
  intro fuel
  induction fuel with
  | zero =>
      intro first len hfuel hfirst hp _ _
      rw [halvingLoop]
      omega
  | succ fuel ih =>
      intro first len hfuel hfirst hp hleft hright
      rw [halvingLoop]
      split
      case isTrue hlen => omega
      case isFalse hlen =>
        dsimp only
        split
        case isTrue hgo =>
          -- the middle is left of `p`: go on after it
          have hmid : first + len / 2 < p := by
            by_contra hge
            have := hright (first + len / 2) (by omega) (by omega)
            rw [hgo] at this
            cases this
          exact ih _ _ (by omega) (by omega) (by omega)
            (fun i h1 h2 => hleft i (by omega) h2) (fun i h1 h2 => hright i h1 (by omega))
        case isFalse hgo =>
          -- the middle is at or right of `p`: go on before it
          have hmid : p ≤ first + len / 2 := by
            by_contra hlt
            exact hgo (hleft (first + len / 2) (by omega) (by omega))
          exact ih _ _ (by omega) hfirst hmid hleft (fun i h1 h2 => hright i h1 (by omega))

/-- `std::lower_bound` over a list whose elements compare less than the value exactly before
position `p` returns `p`. -/
theorem lowerBound_eq_of_split {α β : Type} (comp : α → β → Bool) (xs : List α) (v : β) (p : Nat)
    (hp : p ≤ xs.length) (hleft : ∀ (i : Nat) (h : i < xs.length), i < p → comp xs[i] v = true)
    (hright : ∀ (i : Nat) (h : i < xs.length), p ≤ i → comp xs[i] v = false) :
    lowerBound comp xs v = p := by
  apply halvingLoop_eq_of_split _ p _ 0 _ le_rfl (Nat.zero_le p) (by omega)
  · intro i _ hi
    have hlen : i < xs.length := by omega
    rw [List.getElem?_eq_getElem hlen]
    exact hleft i hlen hi
  · intro i hi hlen
    rw [List.getElem?_eq_getElem (by omega)]
    exact hright i (by omega) hi

/-- An ascending list is split by any value: the elements below it come first. -/
theorem exists_split_of_sorted {α : Type} [LinearOrder α] (v : α) :
    ∀ xs : List α, xs.Pairwise (· ≤ ·) → ∃ p ≤ xs.length,
      (∀ (i : Nat) (h : i < xs.length), i < p → xs[i] < v) ∧
        ∀ (i : Nat) (h : i < xs.length), p ≤ i → v ≤ xs[i] := by
  intro xs
  induction xs with
  | nil => exact fun _ => ⟨0, le_rfl, fun i h => absurd h (Nat.not_lt_zero i),
      fun i h => absurd h (Nat.not_lt_zero i)⟩
  | cons x xs ih =>
      intro hs
      obtain ⟨hx, hs⟩ := List.pairwise_cons.mp hs
      by_cases hxv : x < v
      · -- `x` is below `v`: the split of the rest, one further right
        obtain ⟨p, hp, hleft, hright⟩ := ih hs
        refine ⟨p + 1, by simp [hp], fun i h hi => ?_, fun i h hi => ?_⟩
        · cases i with
          | zero => exact hxv
          | succ i => exact hleft i (by simpa using h) (by omega)
        · cases i with
          | zero => omega
          | succ i => exact hright i (by simpa using h) (by omega)
      · -- everything from `x` on is at least `v`
        refine ⟨0, Nat.zero_le _, fun i h hi => absurd hi (Nat.not_lt_zero i), fun i h _ => ?_⟩
        cases i with
        | zero => exact not_lt.mp hxv
        | succ i => exact (not_lt.mp hxv).trans (hx _ (List.getElem_mem _))

/-- `std::lower_bound` over an ascending list: before the position it returns the elements are
below the value, from it on they are not. -/
theorem lowerBound_of_sorted {α : Type} [LinearOrder α] (xs : List α) (hs : xs.Pairwise (· ≤ ·))
    (v : α) :
    lowerBound (fun x v => decide (x < v)) xs v ≤ xs.length ∧
      (∀ (i : Nat) (h : i < xs.length), i < lowerBound (fun x v => decide (x < v)) xs v →
        xs[i] < v) ∧
      ∀ (i : Nat) (h : i < xs.length), lowerBound (fun x v => decide (x < v)) xs v ≤ i →
        v ≤ xs[i] := by
  obtain ⟨p, hp, hleft, hright⟩ := exists_split_of_sorted v xs hs
  have hlb : lowerBound (fun x v => decide (x < v)) xs v = p :=
    lowerBound_eq_of_split _ xs v p hp (fun i h hi => decide_eq_true (hleft i h hi))
      (fun i h hi => decide_eq_false (not_lt.mpr (hright i h hi)))
  rw [hlb]
  exact ⟨hp, hleft, hright⟩

/-! ## On a list that a predicate splits

When a predicate, once it holds of an element, holds of every later one, the searches find the
first element it holds of: `std::upper_bound` the first `x` with `comp v x`, and
`std::lower_bound` the first `x` without `comp x v`. -/

/-- The halving search over a list finds the first position where `p` holds, when `p` holds of
every element after one it holds of. -/
theorem halvingSearch_eq_findIdx {α : Type} (p : α → Bool) (xs : List α)
    (hsplit : xs.Pairwise fun x y => p x = true → p y = true) :
    halvingSearch (fun i => match xs[i]? with | some x => !p x | none => false) 0 xs.length =
      xs.findIdx p := by
  apply halvingLoop_eq_of_split _ _ _ 0 _ le_rfl (Nat.zero_le _)
    (by simpa using List.findIdx_le_length)
  · -- before the first position where `p` holds, the search goes right
    intro i _ hi
    have hlen : i < xs.length := lt_of_lt_of_le hi List.findIdx_le_length
    simp only [List.getElem?_eq_getElem hlen, List.not_of_lt_findIdx hi, Bool.not_false]
  · -- from it on, `p` holds and the search goes left
    intro i hi hlen
    have hlen : i < xs.length := by simpa using hlen
    have hfirst : xs.findIdx p < xs.length := lt_of_le_of_lt hi hlen
    have hp : p xs[i] = true := by
      rcases Nat.lt_or_ge (xs.findIdx p) i with hlt | hge
      · exact List.pairwise_iff_getElem.mp hsplit _ i hfirst hlen hlt
          (List.findIdx_getElem (w := hfirst))
      · have heq : i = xs.findIdx p := le_antisymm hge hi
        subst heq
        exact List.findIdx_getElem (w := hfirst)
    simp only [List.getElem?_eq_getElem hlen, hp, Bool.not_true]

/-- `std::upper_bound` over a list that `comp v` splits returns the first position where
`comp v` holds. -/
theorem upperBound_eq_findIdx {α β : Type} (comp : β → α → Bool) (v : β) (xs : List α)
    (hsplit : xs.Pairwise fun x y => comp v x = true → comp v y = true) :
    upperBound comp v xs = xs.findIdx (comp v) :=
  halvingSearch_eq_findIdx (comp v) xs hsplit

/-- `std::lower_bound` over a list whose elements compare less than the value before some
position, and not after it, returns the first position where they do not. -/
theorem lowerBound_eq_findIdx {α β : Type} (comp : α → β → Bool) (xs : List α) (v : β)
    (hsplit : xs.Pairwise fun x y => comp x v = false → comp y v = false) :
    lowerBound comp xs v = xs.findIdx fun x => !comp x v := by
  have h := halvingSearch_eq_findIdx (fun x => !comp x v) xs (by simpa using hsplit)
  simp only [Bool.not_not] at h
  exact h

end RocksCloud.Lib
