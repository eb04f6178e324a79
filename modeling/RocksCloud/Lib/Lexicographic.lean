import Mathlib

/-!
# The lexicographic order of lists at a first difference

`compare` on lists is `List.compareLex compare`: the first position where two lists differ
decides, and a proper prefix comes first. The lemmas here read a comparison off a common prefix.
`compare_append_left` drops the prefix, `compare_append_cons_of_lt` and
`compare_append_cons_of_gt` decide at the first difference, and `compare_lt_append` and
`compare_append_gt` put a proper prefix first. `eq_take_append_cons_drop` writes a list as the
part before a position, the element there and the rest, the form in which they apply.
-/

set_option autoImplicit false

namespace RocksCloud.Lib.Lexicographic

variable {α : Type*}

/-- A list is its part before position `i`, the element at `i` and the rest. -/
theorem eq_take_append_cons_drop (xs : List α) {i : Nat} (h : i < xs.length) :
    xs = xs.take i ++ xs[i] :: xs.drop (i + 1) := by
  rw [List.getElem_cons_drop, List.take_append_drop]

variable [Ord α] [Std.ReflCmp (compare : α → α → Ordering)]

/-- A common prefix does not decide. -/
theorem compare_append_left (p s t : List α) : compare (p ++ s) (p ++ t) = compare s t := by
  induction p with
  | nil => rfl
  | cons x p ih =>
      rw [List.cons_append, List.cons_append, List.compare_cons_cons, Std.compare_self, ih]
      rfl

/-- After a common prefix, the first differing elements decide. -/
theorem compare_append_cons_of_lt (p : List α) {a b : α} (hab : compare a b = .lt)
    (s t : List α) : compare (p ++ a :: s) (p ++ b :: t) = .lt := by
  rw [compare_append_left, List.compare_cons_cons, hab]
  rfl

theorem compare_append_cons_of_gt (p : List α) {a b : α} (hab : compare a b = .gt)
    (s t : List α) : compare (p ++ a :: s) (p ++ b :: t) = .gt := by
  rw [compare_append_left, List.compare_cons_cons, hab]
  rfl

/-- A proper prefix comes first. -/
theorem compare_lt_append (p : List α) (b : α) (t : List α) : compare p (p ++ b :: t) = .lt := by
  have h := compare_append_left p [] (b :: t)
  rwa [List.append_nil, List.compare_nil_cons] at h

theorem compare_append_gt (p : List α) (b : α) (t : List α) : compare (p ++ b :: t) p = .gt := by
  have h := compare_append_left p (b :: t) []
  rwa [List.append_nil, List.compare_cons_nil] at h

end RocksCloud.Lib.Lexicographic
