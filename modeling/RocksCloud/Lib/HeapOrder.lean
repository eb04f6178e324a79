import Mathlib

/-!
# Heap order on a list read as a binary tree

Position `i` of a list has its children at `2 i + 1` and `2 i + 2` and, when `i > 0`, its parent
at `(i - 1) / 2`. For a relation `r`, read "is less than", the list is heap ordered
(`Ordered`) when no element is less than one of its children. Under a strict weak order the
first element is then not less than any element (`Ordered.notBelow_zero`).

The two sifts of a binary heap restore the order after one element was put where it may not
belong, and the invariants that hold in their middle are the two structures below.

* `SiftUpReady xs i`: only the edge into `i` may be wrong, and the parent of `i` is not less than
  the children of `i`. Swapping `i` with its parent when the parent is less moves the fault to the
  parent (`SiftUpReady.swap`); it is gone at the root or where the parent is not less.
* `SiftDownReady xs i`: only the edges out of `i` may be wrong, and the parent of `i` is not less
  than the children of `i`. Swapping `i` with a largest child (`MaxChild`) when `i` is less moves
  the fault to that child (`SiftDownReady.swap`); it is gone where `i` has no child or is not less
  than a largest child.

A swap is written as two `set`s, the form it takes in a sift that holds its element out of the
list and moves the others into the hole; `getElem?_swap` reads it through `Equiv.swap`, and
`swap_perm` says it keeps the elements. Positions past the end hold nothing, so every
statement reads elements through `getElem?`.
-/

set_option autoImplicit false

namespace RocksCloud.Lib.HeapOrder

/-! ## Positions -/

/-- The parent of position `i > 0`. -/
def parent (i : Nat) : Nat := (i - 1) / 2

theorem parent_lt {i : Nat} (hi : 0 < i) : parent i < i := by
  unfold parent
  omega

/-- The children of `i` are `2 i + 1` and `2 i + 2`. -/
theorem parent_eq_iff {i j : Nat} (hj : 0 < j) : parent j = i ↔ j = 2 * i + 1 ∨ j = 2 * i + 2 := by
  unfold parent
  omega

theorem lt_of_parent_eq {i j : Nat} (hj : 0 < j) (h : parent j = i) : i < j := by
  rw [← h]
  exact parent_lt hj

theorem lt_length_of_getElem? {α : Type*} {xs : List α} {i : Nat} {a : α} (h : xs[i]? = some a) :
    i < xs.length :=
  (List.getElem?_eq_some_iff.mp h).1

theorem exists_getElem?_of_lt {α : Type*} {xs : List α} {i : Nat} (h : i < xs.length) :
    ∃ a, xs[i]? = some a :=
  ⟨xs[i], List.getElem?_eq_getElem h⟩

/-! ## Swapping two positions -/

section Swap

variable {α : Type*} {xs : List α} {i j : Nat} {a b : α}

/-- A position set to what it holds is unchanged. -/
theorem set_eq_self (h : xs[i]? = some a) : xs.set i a = xs := by
  apply List.ext_getElem?
  intro k
  rw [List.getElem?_set]
  split_ifs with hik hlt
  · rw [← hik, h]
  · rw [← hik, h]
    exact absurd (lt_length_of_getElem? h) hlt
  · rfl

/-- After `a` at `i` and `b` at `j` trade places, position `k` holds what position
`Equiv.swap i j k` held. -/
theorem getElem?_swap (hi : xs[i]? = some a) (hj : xs[j]? = some b) (k : Nat) :
    ((xs.set i b).set j a)[k]? = xs[Equiv.swap i j k]? := by
  have hil : i < xs.length := lt_length_of_getElem? hi
  have hjl : j < xs.length := lt_length_of_getElem? hj
  by_cases hkj : k = j
  · subst hkj
    rw [List.getElem?_set_self (by simpa using hjl), Equiv.swap_apply_right, hi]
  · rw [List.getElem?_set_ne (Ne.symm hkj)]
    by_cases hki : k = i
    · subst hki
      rw [List.getElem?_set_self hil, Equiv.swap_apply_left, hj]
    · rw [List.getElem?_set_ne (Ne.symm hki), Equiv.swap_apply_of_ne_of_ne hki hkj]

/-- Two elements trading places keep the elements of the list. -/
theorem swap_perm (hi : xs[i]? = some a) (hj : xs[j]? = some b) :
    List.Perm ((xs.set i b).set j a) xs := by
  classical
  have hil : i < xs.length := lt_length_of_getElem? hi
  have hjl : j < xs.length := lt_length_of_getElem? hj
  have hxi : xs[i] = a := (List.getElem?_eq_some_iff.mp hi).2
  have hxj : xs[j] = b := (List.getElem?_eq_some_iff.mp hj).2
  by_cases hij : i = j
  · subst hij
    rw [List.set_set, set_eq_self hi]
  · rw [List.perm_iff_count]
    intro c
    -- one occurrence of `a` leaves position `i` and comes back at `j`, and the same for `b`
    have ha : a ∈ xs := List.mem_of_getElem? hi
    have hca : (if (a == c) = true then 1 else 0) ≤ xs.count c := by
      split_ifs with hac
      · rw [beq_iff_eq] at hac
        subst hac
        exact List.count_pos_iff.mpr ha
      · exact Nat.zero_le _
    rw [List.count_set (by simpa using hjl), List.count_set hil, List.getElem_set_ne hij, hxi, hxj]
    omega

end Swap

/-! ## Heap order -/

section Relation

variable {α : Type*} (r : α → α → Prop)

/-- The element at `i` is not less than the element at `j`; a position past the end holds
nothing and is below nothing. -/
def NotBelow (xs : List α) (i j : Nat) : Prop :=
  ∀ a b, xs[i]? = some a → xs[j]? = some b → ¬ r a b

/-- Heap order: no element is less than one of its children. -/
def Ordered (xs : List α) : Prop := ∀ j, 0 < j → NotBelow r xs (parent j) j

/-- `c` is a child of `i` that no child of `i` is above. -/
structure MaxChild (xs : List α) (i c : Nat) : Prop where
  pos : 0 < c
  parent_eq : parent c = i
  lt_length : c < xs.length
  notBelow : ∀ j, 0 < j → parent j = i → NotBelow r xs c j

/-- In the middle of a sift up at `i`: only the edge into `i` may be wrong, and the parent of `i`
is not less than the children of `i`. -/
structure SiftUpReady (xs : List α) (i : Nat) : Prop where
  lt_length : i < xs.length
  ordered_except : ∀ j, 0 < j → j ≠ i → NotBelow r xs (parent j) j
  grandparent : 0 < i → ∀ j, 0 < j → parent j = i → NotBelow r xs (parent i) j

/-- In the middle of a sift down at `i`: only the edges out of `i` may be wrong, and the parent
of `i` is not less than the children of `i`. -/
structure SiftDownReady (xs : List α) (i : Nat) : Prop where
  lt_length : i < xs.length
  ordered_except : ∀ j, 0 < j → parent j ≠ i → NotBelow r xs (parent j) j
  grandparent : 0 < i → ∀ j, 0 < j → parent j = i → NotBelow r xs (parent i) j

variable {r}

/-- Reading `NotBelow` after a swap. -/
theorem notBelow_swap_iff {xs : List α} {i j : Nat} {a b : α} (hi : xs[i]? = some a)
    (hj : xs[j]? = some b) (k l : Nat) :
    NotBelow r ((xs.set i b).set j a) k l ↔ NotBelow r xs (Equiv.swap i j k) (Equiv.swap i j l) := by
  unfold NotBelow
  rw [getElem?_swap hi hj, getElem?_swap hi hj]

/-- Lists that agree at two positions agree on `NotBelow` there. -/
theorem NotBelow.of_agree {xs ys : List α} {i j : Nat} (h : NotBelow r xs i j)
    (hi : ys[i]? = xs[i]?) (hj : ys[j]? = xs[j]? ∨ ys[j]? = none) : NotBelow r ys i j := by
  intro a b ha hb
  rcases hj with hj | hj
  · exact h a b (hi ▸ ha) (hj ▸ hb)
  · rw [hj] at hb
    cases hb

/-- The empty list is a heap. -/
theorem ordered_nil : Ordered r ([] : List α) := by
  intro j _ a b ha
  cases ha

/-- Nothing is above a position past the end. -/
theorem notBelow_of_getElem?_eq_none {xs : List α} {i j : Nat} (h : xs[j]? = none) :
    NotBelow r xs i j := by
  intro a b _ hb
  rw [h] at hb
  cases hb

/-- A largest child of the root is position `1` or `2`. -/
theorem MaxChild.eq_one_or_two {xs : List α} {c : Nat} (hc : MaxChild r xs 0 c) : c = 1 ∨ c = 2 :=
  (parent_eq_iff hc.pos).mp hc.parent_eq

/-- `NotBelow` under a relation that relates no more of the two elements. -/
theorem NotBelow.of_rel {r' : α → α → Prop} {xs : List α} {i j : Nat} (h : NotBelow r xs i j)
    (hr : ∀ a b, xs[i]? = some a → xs[j]? = some b → r' a b → r a b) : NotBelow r' xs i j :=
  fun a b ha hb hab => h a b ha hb (hr a b ha hb hab)

/-- A largest child stays one in a list that agrees below the root, under a relation that
relates no more of the elements below the root. -/
theorem MaxChild.of_agree_of_rel {r' : α → α → Prop} {xs ys : List α} {i c : Nat}
    (hc : MaxChild r xs i c) (hcl : c < ys.length)
    (hagree : ∀ k, 0 < k → k < ys.length → ys[k]? = xs[k]?)
    (hr : ∀ k l a b, 0 < k → 0 < l → xs[k]? = some a → xs[l]? = some b → r' a b → r a b) :
    MaxChild r' ys i c where
  pos := hc.pos
  parent_eq := hc.parent_eq
  lt_length := hcl
  notBelow j hj hp := by
    by_cases hjl : j < ys.length
    · exact ((hc.notBelow j hj hp).of_rel fun a b ha hb => hr c j a b hc.pos hj ha hb).of_agree
        (hagree c hc.pos hcl) (Or.inl (hagree j hj hjl))
    · exact notBelow_of_getElem?_eq_none (List.getElem?_eq_none (by omega))

/-- A largest child stays one in a list that agrees below the root. -/
theorem MaxChild.of_agree {xs ys : List α} {i c : Nat} (hc : MaxChild r xs i c)
    (hcl : c < ys.length) (hagree : ∀ k, 0 < k → k < ys.length → ys[k]? = xs[k]?) :
    MaxChild r ys i c :=
  hc.of_agree_of_rel hcl hagree fun _ _ _ _ _ _ _ _ hab => hab

/-- Heap order under a relation that relates no more of the elements. -/
theorem Ordered.of_rel {r' : α → α → Prop} {xs : List α} (h : Ordered r xs)
    (hr : ∀ a ∈ xs, ∀ b ∈ xs, r' a b → r a b) : Ordered r' xs := fun j hj =>
  (h j hj).of_rel fun a b ha hb => hr a (List.mem_of_getElem? ha) b (List.mem_of_getElem? hb)

/-- A largest child under a relation that relates no more of the elements. -/
theorem MaxChild.of_rel {r' : α → α → Prop} {xs : List α} {i c : Nat} (hc : MaxChild r xs i c)
    (hr : ∀ a ∈ xs, ∀ b ∈ xs, r' a b → r a b) : MaxChild r' xs i c where
  pos := hc.pos
  parent_eq := hc.parent_eq
  lt_length := hc.lt_length
  notBelow j hj hp := (hc.notBelow j hj hp).of_rel fun a b ha hb =>
    hr a (List.mem_of_getElem? ha) b (List.mem_of_getElem? hb)

section StrictWeakOrder

variable [IsStrictWeakOrder α r]

/-- Not being less is transitive under a strict weak order. -/
theorem not_rel_trans {a b c : α} (hab : ¬ r a b) (hbc : ¬ r b c) : ¬ r a c := by
  intro hac
  have hba : ¬ r b a := fun hba => hbc (IsTrans.trans _ _ _ hba hac)
  have hcb : ¬ r c b := fun hcb => hab (IsTrans.trans _ _ _ hac hcb)
  exact (IsStrictWeakOrder.incomp_trans a b c ⟨hab, hba⟩ ⟨hbc, hcb⟩).1 hac

/-- **The root of a heap is a largest element.** Each element is below its parent, and by
induction on the position below the root. -/
theorem Ordered.notBelow_zero {xs : List α} (h : Ordered r xs) (k : Nat) : NotBelow r xs 0 k := by
  induction k using Nat.strong_induction_on with
  | _ k ih =>
      intro a b ha hb
      rcases Nat.eq_zero_or_pos k with rfl | hk
      · obtain rfl : a = b := Option.some.inj (ha.symm.trans hb)
        exact irrefl a
      · obtain ⟨c, hc⟩ := exists_getElem?_of_lt ((parent_lt hk).trans (lt_length_of_getElem? hb))
        exact not_rel_trans (ih (parent k) (parent_lt hk) a c ha hc) (h k hk c b hc hb)

/-- The left child is a largest child when the right one is missing or not above it. -/
theorem maxChild_left {xs : List α} {i : Nat} {a : α} (hl : xs[2 * i + 1]? = some a)
    (hr : ∀ b, xs[2 * i + 2]? = some b → ¬ r a b) : MaxChild r xs i (2 * i + 1) where
  pos := by omega
  parent_eq := (parent_eq_iff (by omega)).mpr (Or.inl rfl)
  lt_length := lt_length_of_getElem? hl
  notBelow j hj hp := by
    intro x y hx hy
    rw [hl] at hx
    cases hx
    rcases (parent_eq_iff hj).mp hp with rfl | rfl
    · obtain rfl : a = y := Option.some.inj (hl.symm.trans hy)
      exact irrefl a
    · exact hr y hy

/-- The right child is a largest child when the left one is below it. -/
theorem maxChild_right {xs : List α} {i : Nat} {a b : α} (hl : xs[2 * i + 1]? = some a)
    (hr : xs[2 * i + 2]? = some b) (hab : r a b) : MaxChild r xs i (2 * i + 2) where
  pos := by omega
  parent_eq := (parent_eq_iff (by omega)).mpr (Or.inr rfl)
  lt_length := lt_length_of_getElem? hr
  notBelow j hj hp := by
    intro x y hx hy
    rw [hr] at hx
    cases hx
    rcases (parent_eq_iff hj).mp hp with rfl | rfl
    · rw [hl] at hy
      cases hy
      exact asymm hab
    · obtain rfl : b = y := Option.some.inj (hr.symm.trans hy)
      exact irrefl b

/-! ### Sift up -/

omit [IsStrictWeakOrder α r] in
variable (r) in
/-- Appending to a heap-ordered list leaves only the edge into the new last position to check. -/
theorem Ordered.siftUpReady_append {xs : List α} (h : Ordered r xs) (x : α) :
    SiftUpReady r (xs ++ [x]) xs.length where
  lt_length := by simp
  ordered_except j hj hne := by
    rcases Nat.lt_or_gt_of_ne hne with hlt | hgt
    · exact (h j hj).of_agree (List.getElem?_append_left ((parent_lt hj).trans hlt))
        (Or.inl (List.getElem?_append_left hlt))
    · exact notBelow_of_getElem?_eq_none (List.getElem?_eq_none (by simp; omega))
  grandparent _ j hj hp :=
    notBelow_of_getElem?_eq_none
      (List.getElem?_eq_none (by have := lt_of_parent_eq hj hp; simp; omega))

/-- Moving a parent that is less down into `i`, and the element of `i` up into the parent's
place, moves the fault to the parent. -/
theorem SiftUpReady.swap {xs : List α} {i : Nat} {a b : α} (h : SiftUpReady r xs i) (hi : 0 < i)
    (ha : xs[parent i]? = some a) (hb : xs[i]? = some b) (hlt : r a b) :
    SiftUpReady r ((xs.set i a).set (parent i) b) (parent i) where
  lt_length := by simpa using (parent_lt hi).trans h.lt_length
  ordered_except k hk hkp := by
    rw [notBelow_swap_iff hb ha]
    by_cases hki : k = i
    · -- the edge the swap turned round
      rw [hki, Equiv.swap_apply_right, Equiv.swap_apply_left]
      intro x y hx hy
      rw [hb] at hx
      rw [ha] at hy
      cases hx
      cases hy
      exact asymm hlt
    · by_cases hpi : parent k = i
      · -- a child of `i` now under the old parent
        rw [hpi, Equiv.swap_apply_left, Equiv.swap_apply_of_ne_of_ne hki hkp]
        exact h.grandparent hi k hk hpi
      · by_cases hpp : parent k = parent i
        · -- the sibling of `i` now under the element that rose, which is above the old parent
          rw [hpp, Equiv.swap_apply_right, Equiv.swap_apply_of_ne_of_ne hki hkp]
          intro x y hx hy
          rw [hb] at hx
          cases hx
          have hay := h.ordered_except k hk hki a y (by rw [hpp]; exact ha) hy
          exact fun hxy => hay (IsTrans.trans _ _ _ hlt hxy)
        · rw [Equiv.swap_apply_of_ne_of_ne hpi hpp, Equiv.swap_apply_of_ne_of_ne hki hkp]
          exact h.ordered_except k hk hki
  grandparent hp k hk hpk := by
    have hppi : parent (parent i) < parent i := parent_lt hp
    have hpi : parent i < i := parent_lt hi
    rw [notBelow_swap_iff hb ha, Equiv.swap_apply_of_ne_of_ne (by omega) hppi.ne]
    by_cases hki : k = i
    · rw [hki, Equiv.swap_apply_left]
      exact h.ordered_except (parent i) hp hpi.ne
    · have hkp : k ≠ parent i := (lt_of_parent_eq hk hpk).ne'
      rw [Equiv.swap_apply_of_ne_of_ne hki hkp]
      intro x y hx hy
      have hxa := h.ordered_except (parent i) hp hpi.ne x a hx ha
      have hay := h.ordered_except k hk hki a y (by rw [hpk]; exact ha) hy
      exact not_rel_trans hxa hay

omit [IsStrictWeakOrder α r] in
/-- A sift up stops with a heap where the parent is not less. -/
theorem SiftUpReady.ordered_of_notBelow {xs : List α} {i : Nat} (h : SiftUpReady r xs i)
    (hnot : NotBelow r xs (parent i) i) : Ordered r xs := by
  intro j hj
  by_cases hji : j = i
  · rw [hji]
    exact hnot
  · exact h.ordered_except j hj hji

omit [IsStrictWeakOrder α r] in
/-- A sift up at the root leaves a heap. -/
theorem SiftUpReady.ordered_of_zero {xs : List α} (h : SiftUpReady r xs 0) : Ordered r xs :=
  fun j hj => h.ordered_except j hj hj.ne'

/-! ### Sift down -/

omit [IsStrictWeakOrder α r] in
/-- A list that agrees with a heap-ordered one below the root is ready for a sift down at the
root, under a relation that relates no more of the elements below the root: the root is the one
place a new element, or an element whose key changed, may be out of order. -/
theorem Ordered.siftDownReady_zero_of_rel {r' : α → α → Prop} {xs ys : List α} (h : Ordered r xs)
    (hpos : 0 < ys.length) (hagree : ∀ k, 0 < k → k < ys.length → ys[k]? = xs[k]?)
    (hr : ∀ k l a b, 0 < k → 0 < l → xs[k]? = some a → xs[l]? = some b → r' a b → r a b) :
    SiftDownReady r' ys 0 where
  lt_length := hpos
  ordered_except j hj hp := by
    -- the parent is not the root, so both ends of the edge are below it
    have hpj : 0 < parent j := Nat.pos_of_ne_zero hp
    by_cases hjl : j < ys.length
    · exact ((h j hj).of_rel fun a b ha hb => hr _ j a b hpj hj ha hb).of_agree
        (hagree _ hpj ((parent_lt hj).trans hjl)) (Or.inl (hagree j hj hjl))
    · exact notBelow_of_getElem?_eq_none (List.getElem?_eq_none (by omega))
  grandparent h0 := absurd h0 (Nat.lt_irrefl 0)

/-- Lifting a largest child that `i` is less than into `i`, and the element of `i` down into the
child's place, moves the fault to that child. -/
theorem SiftDownReady.swap {xs : List α} {i c : Nat} {a b : α} (h : SiftDownReady r xs i)
    (hc : MaxChild r xs i c) (ha : xs[i]? = some a) (hb : xs[c]? = some b) (hlt : r a b) :
    SiftDownReady r ((xs.set i b).set c a) c where
  lt_length := by simpa using hc.lt_length
  ordered_except k hk hkc := by
    have hic : i < c := lt_of_parent_eq hc.pos hc.parent_eq
    rw [notBelow_swap_iff ha hb]
    by_cases hkeq : k = c
    · -- the edge the swap turned round
      rw [hkeq, hc.parent_eq, Equiv.swap_apply_left, Equiv.swap_apply_right]
      intro x y hx hy
      rw [hb] at hx
      rw [ha] at hy
      cases hx
      cases hy
      exact asymm hlt
    · by_cases hki : k = i
      · -- the lifted child under the parent of `i`
        rw [hki] at hk hkc ⊢
        rw [Equiv.swap_apply_of_ne_of_ne (parent_lt hk).ne hkc, Equiv.swap_apply_left]
        exact h.grandparent hk c hc.pos hc.parent_eq
      · by_cases hpi : parent k = i
        · -- the other children of `i` under the lifted child
          rw [hpi, Equiv.swap_apply_left, Equiv.swap_apply_of_ne_of_ne hki hkeq]
          exact hc.notBelow k hk hpi
        · rw [Equiv.swap_apply_of_ne_of_ne hpi hkc, Equiv.swap_apply_of_ne_of_ne hki hkeq]
          exact h.ordered_except k hk hpi
  grandparent _ k hk hpk := by
    have hic : i < c := lt_of_parent_eq hc.pos hc.parent_eq
    have hck : c < k := lt_of_parent_eq hk hpk
    rw [notBelow_swap_iff ha hb, hc.parent_eq, Equiv.swap_apply_left,
      Equiv.swap_apply_of_ne_of_ne (by omega) (by omega)]
    have hold := h.ordered_except k hk (by omega)
    rwa [hpk] at hold

omit [IsStrictWeakOrder α r] in
/-- A sift down stops with a heap where `i` has no child. -/
theorem SiftDownReady.ordered_of_length_le {xs : List α} {i : Nat} (h : SiftDownReady r xs i)
    (hl : xs.length ≤ 2 * i + 1) : Ordered r xs := by
  intro j hj
  by_cases hp : parent j = i
  · have hchild := (parent_eq_iff hj).mp hp
    exact notBelow_of_getElem?_eq_none (List.getElem?_eq_none (by omega))
  · exact h.ordered_except j hj hp

/-- A sift down stops with a heap where `i` is not less than a largest child. -/
theorem SiftDownReady.ordered_of_notBelow {xs : List α} {i c : Nat} (h : SiftDownReady r xs i)
    (hc : MaxChild r xs i c) (hnot : NotBelow r xs i c) : Ordered r xs := by
  intro j hj
  by_cases hp : parent j = i
  · rw [hp]
    intro x y hx hy
    obtain ⟨z, hz⟩ := exists_getElem?_of_lt hc.lt_length
    exact not_rel_trans (hnot x z hx hz) (hc.notBelow j hj hp z y hz hy)
  · exact h.ordered_except j hj hp

end StrictWeakOrder

end Relation

end RocksCloud.Lib.HeapOrder
