import Mathlib

/-!
# Sorted runs and their union

A run is a list of entries whose keys strictly increase under a comparator `cmp`, which need only
be a `Std.TransCmp`. A predicate on keys that holds above every key it holds of (`UpClosed`) cuts
a run in two: the entries that fail it, then those that hold it. Seeking in a run is counting the
entries below the cut, and the first entry that holds the predicate sits at that count; dually for
a predicate that holds below every key it holds of (`DownClosed`), whose last entry sits one
before its count.

* `Run.filter_not_append_filter`, `Run.getElem?_countP_not`: the cut of an upward-closed
  predicate, and the entry at the count below it; `Run.findIdx_eq_countP_not`: seeking the cut is
  counting below it.
* `Run.filter_append_filter_not`, `Run.getElem?_countP_sub_one`: the same below a
  downward-closed predicate.
* `Run.head?_eq_of_least`, `Run.getLast?_eq_of_greatest`: an entry not above (not below) any
  other is first (last).
* `Run.countP_lt_of_getElem?`, `Run.countP_le_of_getElem?`: the entry at `i` has `i` entries
  below it.
* `Run.getElem?_countP_not_of_least`, `Run.getElem?_countP_sub_one_of_greatest`: where the least
  entry holding an upward-closed predicate, and the greatest holding a downward-closed one, sit.
* `Run.pairwise_ne_of_perm`, `rel_of_mem_of_ne`: the runs a run is a permutation of share no key.
* `isStrictWeakOrder_lt`, `isStrictWeakOrder_gt`: a comparator's strict order, read through any
  function, is a strict weak order.
-/

set_option autoImplicit false

namespace RocksCloud.Lib.SortedRuns

variable {κ α β : Type*}

/-! ## Comparators -/

section Compare

variable (cmp : κ → κ → Ordering)

/-- The comparator on optional keys: a missing key is below every key. -/
def optionCompare : Option κ → Option κ → Ordering
  | none, none => .eq
  | none, some _ => .lt
  | some _, none => .gt
  | some a, some b => cmp a b

instance [Std.OrientedCmp cmp] : Std.OrientedCmp (optionCompare cmp) where
  eq_swap {a b} := by
    cases a <;> cases b <;> simp [optionCompare, ← Std.OrientedCmp.eq_swap]

instance [Std.TransCmp cmp] : Std.TransCmp (optionCompare cmp) where
  isLE_trans {a b c} hab hbc := by
    cases a <;> cases b <;> cases c <;> simp_all [optionCompare]
    exact Std.TransCmp.isLE_trans hab hbc

variable {cmp}

/-- Keys a comparator puts below others, read through `f`, are ordered strictly and weakly. -/
theorem isStrictWeakOrder_lt [Std.TransCmp cmp] (f : β → κ) :
    IsStrictWeakOrder β (fun a b => cmp (f a) (f b) = .lt) where
  irrefl a h := by
    have hself : cmp (f a) (f a) = .eq := Std.ReflCmp.compare_self
    rw [hself] at h
    cases h
  trans _ _ _ hab hbc := Std.TransCmp.lt_trans hab hbc
  incomp_trans a b c hab hbc := by
    -- incomparable keys compare equal, and equality of keys is transitive
    have heq : ∀ x y, ¬ cmp (f x) (f y) = .lt → ¬ cmp (f y) (f x) = .lt → cmp (f x) (f y) = .eq := by
      intro x y hxy hyx
      rw [← Std.OrientedCmp.gt_iff_lt] at hyx
      cases h : cmp (f x) (f y) <;> simp_all
    have hac := Std.TransCmp.eq_trans (heq a b hab.1 hab.2) (heq b c hbc.1 hbc.2)
    refine ⟨fun h => ?_, fun h => ?_⟩
    · rw [hac] at h
      cases h
    · rw [Std.OrientedCmp.eq_comm.mp hac] at h
      cases h

/-- Keys a comparator puts above others, read through `f`, are ordered strictly and weakly. -/
theorem isStrictWeakOrder_gt [Std.TransCmp cmp] (f : β → κ) :
    IsStrictWeakOrder β (fun a b => cmp (f a) (f b) = .gt) := by
  have h := @isStrictWeakOrder_lt _ _ (fun a b => cmp b a) _ f
  simp only [← Std.OrientedCmp.gt_iff_lt] at h
  exact h

end Compare

/-! ## Runs -/

variable (cmp : κ → κ → Ordering) (key : α → κ)

/-- The keys strictly increase along the list. -/
def Run (xs : List α) : Prop := xs.Pairwise fun a b => cmp (key a) (key b) = .lt

/-- A predicate that holds of every key above a key it holds of. -/
def UpClosed (p : κ → Bool) : Prop := ∀ a b, p a = true → cmp a b ≠ .gt → p b = true

/-- A predicate that holds of every key below a key it holds of. -/
def DownClosed (q : κ → Bool) : Prop := ∀ a b, q b = true → cmp a b ≠ .gt → q a = true

variable {cmp key}

theorem Run.cons_iff {x : α} {xs : List α} :
    Run cmp key (x :: xs) ↔ (∀ y ∈ xs, cmp (key x) (key y) = .lt) ∧ Run cmp key xs :=
  List.pairwise_cons

theorem Run.filter {xs : List α} (h : Run cmp key xs) (p : α → Bool) :
    Run cmp key (xs.filter p) :=
  List.Pairwise.filter p h

section Cut

variable {p q : κ → Bool} {xs : List α}

/-- **The cut of an upward-closed predicate**: the entries that fail it come first. -/
theorem Run.filter_not_append_filter (h : Run cmp key xs) (hp : UpClosed cmp p) :
    xs.filter (fun x => !p (key x)) ++ xs.filter (fun x => p (key x)) = xs := by
  induction xs with
  | nil => rfl
  | cons x xs ih =>
      obtain ⟨hx, hxs⟩ := Run.cons_iff.mp h
      cases hpx : p (key x) with
      | false => simp [hpx, ih hxs]
      | true =>
          -- every later key is above `key x`, so the predicate holds from `x` on
          have hall : ∀ y ∈ xs, p (key y) = true := fun y hy =>
            hp _ _ hpx (by rw [hx y hy]; decide)
          have hnil : xs.filter (fun y => !p (key y)) = [] :=
            List.filter_eq_nil_iff.mpr (by simpa using hall)
          have hself : xs.filter (fun y => p (key y)) = xs := List.filter_eq_self.mpr hall
          simp [hpx, hnil, hself]

/-- Seeking the first entry that holds an upward-closed predicate is counting those that fail
it. -/
theorem Run.findIdx_eq_countP_not (h : Run cmp key xs) (hp : UpClosed cmp p) :
    xs.findIdx (fun x => p (key x)) = xs.countP (fun x => !p (key x)) := by
  have hsplit := h.filter_not_append_filter hp
  have hfail : ∀ x ∈ xs.filter (fun x => !p (key x)), p (key x) = false := by
    intro x hx
    simpa using (List.mem_filter.mp hx).2
  -- the entries that hold it start right after those that fail it
  have hfirst : (xs.filter fun x => p (key x)).findIdx (fun x => p (key x)) = 0 := by
    cases hxs : xs.filter (fun x => p (key x)) with
    | nil => rfl
    | cons y ys =>
        have hmem : y ∈ xs.filter (fun x => p (key x)) := by
          rw [hxs]
          exact List.mem_cons_self
        rw [List.findIdx_cons, (List.mem_filter.mp hmem).2]
        rfl
  conv_lhs => rw [← hsplit]
  rw [List.findIdx_append, List.findIdx_eq_length_of_false hfail, if_neg (lt_irrefl _), hfirst,
    Nat.zero_add, List.countP_eq_length_filter]

/-- The first entry that holds an upward-closed predicate is at the count of those that fail
it. -/
theorem Run.getElem?_countP_not (h : Run cmp key xs) (hp : UpClosed cmp p) :
    xs[xs.countP (fun x => !p (key x))]? = (xs.filter fun x => p (key x)).head? := by
  have hsplit := h.filter_not_append_filter hp
  calc xs[xs.countP (fun x => !p (key x))]?
      = (xs.filter (fun x => !p (key x)) ++ xs.filter (fun x => p (key x)))[
          (xs.filter fun x => !p (key x)).length]? := by
        rw [hsplit, List.countP_eq_length_filter]
    _ = (xs.filter fun x => p (key x)).head? := by
        rw [List.getElem?_append_right le_rfl, Nat.sub_self, List.head?_eq_getElem?]

/-- **The cut of a downward-closed predicate**: the entries that hold it come first. -/
theorem Run.filter_append_filter_not (h : Run cmp key xs) (hq : DownClosed cmp q) :
    xs.filter (fun x => q (key x)) ++ xs.filter (fun x => !q (key x)) = xs := by
  induction xs with
  | nil => rfl
  | cons x xs ih =>
      obtain ⟨hx, hxs⟩ := Run.cons_iff.mp h
      cases hqx : q (key x) with
      | true => simp [hqx, ih hxs]
      | false =>
          -- a later key holding the predicate would make it hold of `key x`
          have hnone : ∀ y ∈ xs, q (key y) = false := by
            intro y hy
            by_contra hqy
            have := hq _ _ (by simpa using hqy) (by rw [hx y hy]; decide)
            rw [hqx] at this
            cases this
          have hnil : xs.filter (fun y => q (key y)) = [] :=
            List.filter_eq_nil_iff.mpr (by simpa using hnone)
          have hself : xs.filter (fun y => !q (key y)) = xs :=
            List.filter_eq_self.mpr (by simpa using hnone)
          simp [hqx, hnil, hself]

/-- The last entry that holds a downward-closed predicate is one before the count of those that
hold it. -/
theorem Run.getElem?_countP_sub_one (h : Run cmp key xs) (hq : DownClosed cmp q)
    (hpos : 0 < xs.countP fun x => q (key x)) :
    xs[xs.countP (fun x => q (key x)) - 1]? = (xs.filter fun x => q (key x)).getLast? := by
  have hsplit := h.filter_append_filter_not hq
  rw [List.countP_eq_length_filter] at hpos ⊢
  calc xs[(xs.filter fun x => q (key x)).length - 1]?
      = (xs.filter (fun x => q (key x)) ++ xs.filter (fun x => !q (key x)))[
          (xs.filter fun x => q (key x)).length - 1]? := by rw [hsplit]
    _ = (xs.filter fun x => q (key x)).getLast? := by
        rw [List.getElem?_append_left (by omega), List.getLast?_eq_getElem?]

end Cut

variable [Std.TransCmp cmp]

/-! ## The cuts of a bound -/

section Bounds

variable (t : κ)

/-- Keys not below a bound. -/
theorem upClosed_not_lt : UpClosed cmp fun k => cmp k t != .lt := by
  intro a b ha hab
  simp only [bne_iff_ne, ne_eq] at ha ⊢
  intro hbt
  exact ha (Std.TransCmp.lt_of_isLE_of_lt (Ordering.ne_gt_iff_isLE.mp hab) hbt)

/-- Keys above a bound. -/
theorem upClosed_gt : UpClosed cmp fun k => cmp k t == .gt := by
  intro a b ha hab
  simp only [beq_iff_eq] at ha ⊢
  have hba : (cmp b a).isGE := by
    rw [Ordering.isGE_iff_ne_lt, ← Std.OrientedCmp.gt_iff_lt]
    exact hab
  exact Std.TransCmp.gt_of_isGE_of_gt hba ha

/-- Keys not above a bound. -/
theorem downClosed_not_gt : DownClosed cmp fun k => cmp k t != .gt := by
  intro a b hb hab
  simp only [bne_iff_ne, ne_eq] at hb ⊢
  rw [← Ordering.isLE_iff_ne_gt] at hb ⊢
  exact Std.TransCmp.isLE_trans (Ordering.ne_gt_iff_isLE.mp hab) hb

/-- Keys below a bound. -/
theorem downClosed_lt : DownClosed cmp fun k => cmp k t == .lt := by
  intro a b hb hab
  simp only [beq_iff_eq] at hb ⊢
  exact Std.TransCmp.lt_of_isLE_of_lt (Ordering.ne_gt_iff_isLE.mp hab) hb

end Bounds

/-! ## Least and greatest entries -/

section Extremes

variable {xs : List α} {x : α}

/-- An entry of a run that no entry is below comes first. -/
theorem Run.head?_eq_of_least (h : Run cmp key xs) (hx : x ∈ xs)
    (hle : ∀ y ∈ xs, cmp (key x) (key y) ≠ .gt) : xs.head? = some x := by
  cases xs with
  | nil => cases hx
  | cons y ys =>
      rcases List.mem_cons.mp hx with rfl | hys
      · rfl
      · -- `y` comes before `x`, so it is below it
        have hyx := (Run.cons_iff.mp h).1 x hys
        exact absurd (Std.OrientedCmp.gt_iff_lt.mpr hyx) (hle y List.mem_cons_self)

theorem compare_self_ne_gt (a : κ) : cmp a a ≠ .gt := by
  have hself : cmp a a = .eq := Std.ReflCmp.compare_self
  rw [hself]
  decide

/-- The first entry of a run is not above any entry. -/
theorem Run.le_of_head? (h : Run cmp key xs) (hx : xs.head? = some x) {y : α} (hy : y ∈ xs) :
    cmp (key x) (key y) ≠ .gt := by
  cases xs with
  | nil => cases hx
  | cons z zs =>
      obtain rfl : z = x := Option.some.inj hx
      rcases List.mem_cons.mp hy with rfl | hzs
      · exact compare_self_ne_gt _
      · rw [(Run.cons_iff.mp h).1 y hzs]
        decide

/-- The last entry of a run is not below any entry. -/
theorem Run.le_of_getLast? (h : Run cmp key xs) (hx : xs.getLast? = some x) {y : α} (hy : y ∈ xs) :
    cmp (key y) (key x) ≠ .gt := by
  rcases List.eq_nil_or_concat xs with rfl | ⟨zs, z, rfl⟩
  · cases hx
  · simp only [List.concat_eq_append, List.getLast?_concat, Option.some.injEq] at h hx hy
    subst hx
    rcases List.mem_append.mp hy with hzs | hz
    · rw [(List.pairwise_append.mp h).2.2 y hzs _ (List.mem_singleton_self _)]
      decide
    · rw [List.mem_singleton.mp hz]
      exact compare_self_ne_gt _

/-- An entry of a run that no entry is above comes last. -/
theorem Run.getLast?_eq_of_greatest (h : Run cmp key xs) (hx : x ∈ xs)
    (hge : ∀ y ∈ xs, cmp (key y) (key x) ≠ .gt) : xs.getLast? = some x := by
  rcases List.eq_nil_or_concat xs with rfl | ⟨ys, z, rfl⟩
  · cases hx
  · simp only [List.concat_eq_append] at h hx hge ⊢
    rw [List.getLast?_concat]
    rcases List.mem_append.mp hx with hys | hz
    · -- `x` comes before `z`, so it is below it
      have hxz : cmp (key x) (key z) = .lt :=
        (List.pairwise_append.mp h).2.2 x hys z (List.mem_singleton_self z)
      exact absurd (Std.OrientedCmp.gt_iff_lt.mpr hxz) (hge z (by simp))
    · rw [List.mem_singleton.mp hz]

end Extremes

/-! ## Positions in a run -/

section Positions

variable {xs : List α} {i : Nat} {x : α}

omit [Std.TransCmp cmp] in
/-- The entries of a run before and after position `i`. -/
theorem Run.split_at (h : Run cmp key xs) (hx : xs[i]? = some x) :
    xs = xs.take i ++ x :: xs.drop (i + 1) ∧ (∀ y ∈ xs.take i, cmp (key y) (key x) = .lt) ∧
      ∀ y ∈ xs.drop (i + 1), cmp (key x) (key y) = .lt := by
  obtain ⟨hi, rfl⟩ := List.getElem?_eq_some_iff.mp hx
  have hsplit : xs = xs.take i ++ xs[i] :: xs.drop (i + 1) := by
    rw [← List.drop_eq_getElem_cons hi, List.take_append_drop]
  have hrun : Run cmp key (xs.take i ++ xs[i] :: xs.drop (i + 1)) := hsplit ▸ h
  obtain ⟨-, hafter, hacross⟩ := List.pairwise_append.mp hrun
  exact ⟨hsplit, fun y hy => hacross y hy xs[i] List.mem_cons_self,
    fun y hy => List.rel_of_pairwise_cons hafter hy⟩

/-- In a run, the entry at `i` has exactly `i` entries below it. -/
theorem Run.countP_lt_of_getElem? (h : Run cmp key xs) (hx : xs[i]? = some x) :
    xs.countP (fun y => cmp (key y) (key x) == .lt) = i := by
  obtain ⟨hsplit, hbefore, hafter⟩ := h.split_at hx
  have hlen : (xs.take i).length = i := by
    have := (List.getElem?_eq_some_iff.mp hx).1
    simp only [List.length_take]
    omega
  have hself : cmp (key x) (key x) = .eq := Std.ReflCmp.compare_self
  -- the entries before `x` are below it, `x` and those after it are not
  have hnone : ∀ y ∈ xs.drop (i + 1), (cmp (key y) (key x) == .lt) = false := by
    intro y hy
    rw [Std.OrientedCmp.gt_iff_lt.mpr (hafter y hy)]
    rfl
  rw [hsplit, List.countP_append, List.countP_cons, List.countP_eq_length.mpr (by simpa using hbefore),
    List.countP_eq_zero.mpr (by simpa using hnone), hlen, hself]
  rfl

/-- In a run, the entry at `i` has exactly `i + 1` entries not above it. -/
theorem Run.countP_le_of_getElem? (h : Run cmp key xs) (hx : xs[i]? = some x) :
    xs.countP (fun y => cmp (key y) (key x) != .gt) = i + 1 := by
  obtain ⟨hsplit, hbefore, hafter⟩ := h.split_at hx
  have hlen : (xs.take i).length = i := by
    have := (List.getElem?_eq_some_iff.mp hx).1
    simp only [List.length_take]
    omega
  have hself : cmp (key x) (key x) = .eq := Std.ReflCmp.compare_self
  have hbelow : ∀ y ∈ xs.take i, (cmp (key y) (key x) != .gt) = true := by
    intro y hy
    rw [hbefore y hy]
    rfl
  have habove : ∀ y ∈ xs.drop (i + 1), (cmp (key y) (key x) != .gt) = false := by
    intro y hy
    rw [Std.OrientedCmp.gt_iff_lt.mpr (hafter y hy)]
    rfl
  rw [hsplit, List.countP_append, List.countP_cons, List.countP_eq_length.mpr hbelow,
    List.countP_eq_zero.mpr (by simpa using habove), hlen, hself]
  rfl

/-- In a run, the first entry above the entry at `i` is at `i + 1`. -/
theorem Run.head?_filter_gt (h : Run cmp key xs) (hx : xs[i]? = some x) :
    (xs.filter fun y => cmp (key y) (key x) == .gt).head? = xs[i + 1]? := by
  rw [← h.getElem?_countP_not (upClosed_gt (key x))]
  congr 1
  exact h.countP_le_of_getElem? hx

/-- In a run, the last entry below the entry at `i` is at `i - 1`, and there is none below the
first. -/
theorem Run.getLast?_filter_lt (h : Run cmp key xs) (hx : xs[i]? = some x) :
    (xs.filter fun y => cmp (key y) (key x) == .lt).getLast? =
      if i = 0 then none else xs[i - 1]? := by
  have hcount := h.countP_lt_of_getElem? hx
  split
  · -- nothing is below the first entry
    rename_i hi
    have hnil : (xs.filter fun y => cmp (key y) (key x) == .lt) = [] := by
      rw [← List.length_eq_zero_iff, ← List.countP_eq_length_filter, hcount, hi]
    rw [hnil]
    rfl
  · rename_i hi
    have hpos : 0 < xs.countP fun y => cmp (key y) (key x) == .lt := by
      rw [hcount]
      exact Nat.pos_of_ne_zero hi
    rw [← h.getElem?_countP_sub_one (downClosed_lt (key x)) hpos, hcount]

end Positions

/-! ## The first and the last entry of a cut -/

section Extreme

variable {p q : κ → Bool} {xs : List α} {x : α}

/-- The least entry that holds an upward-closed predicate is at the count of those that fail
it. -/
theorem Run.getElem?_countP_not_of_least (h : Run cmp key xs) (hp : UpClosed cmp p)
    (hx : x ∈ xs) (hpx : p (key x) = true)
    (hle : ∀ y ∈ xs, p (key y) = true → cmp (key x) (key y) ≠ .gt) :
    xs[xs.countP (fun y => !p (key y))]? = some x := by
  rw [h.getElem?_countP_not hp]
  apply (h.filter _).head?_eq_of_least (List.mem_filter.mpr ⟨hx, hpx⟩)
  intro y hy
  exact hle y (List.mem_filter.mp hy).1 (List.mem_filter.mp hy).2

/-- The greatest entry that holds a downward-closed predicate is one before the count of those
that hold it. -/
theorem Run.getElem?_countP_sub_one_of_greatest (h : Run cmp key xs) (hq : DownClosed cmp q)
    (hx : x ∈ xs) (hqx : q (key x) = true)
    (hge : ∀ y ∈ xs, q (key y) = true → cmp (key y) (key x) ≠ .gt) :
    xs[xs.countP (fun y => q (key y)) - 1]? = some x := by
  have hpos : 0 < xs.countP fun y => q (key y) := List.countP_pos_iff.mpr ⟨x, hx, hqx⟩
  rw [h.getElem?_countP_sub_one hq hpos]
  apply (h.filter _).getLast?_eq_of_greatest (List.mem_filter.mpr ⟨hx, hqx⟩)
  intro y hy
  exact hge y (List.mem_filter.mp hy).1 (List.mem_filter.mp hy).2

end Extreme

/-! ## Runs merged into one -/

/-- The entries of different lists of a flattened list that is pairwise related are related. -/
theorem rel_of_mem_of_ne {R : α → α → Prop} (hsymm : ∀ a b, R a b → R b a)
    {rs : List (List α)} (h : rs.flatten.Pairwise R) {i j : Nat} {r s : List α} (hij : i ≠ j)
    (hi : rs[i]? = some r) (hj : rs[j]? = some s) {x y : α} (hx : x ∈ r) (hy : y ∈ s) :
    R x y := by
  have hrs := (List.pairwise_flatten.mp h).2
  obtain ⟨hil, rfl⟩ := List.getElem?_eq_some_iff.mp hi
  obtain ⟨hjl, rfl⟩ := List.getElem?_eq_some_iff.mp hj
  rcases Nat.lt_or_gt_of_ne hij with hlt | hgt
  · exact List.pairwise_iff_getElem.mp hrs i j hil hjl hlt x hx y hy
  · exact hsymm _ _ (List.pairwise_iff_getElem.mp hrs j i hjl hil hgt y hy x hx)

/-- **A run of the entries of several runs** holds no two entries of one key. -/
theorem Run.pairwise_ne_of_perm {L : List α} {rs : List (List α)} (hL : Run cmp key L)
    (hperm : L.Perm rs.flatten) : rs.flatten.Pairwise fun a b => cmp (key a) (key b) ≠ .eq := by
  refine hperm.pairwise (hL.imp fun hab => ?_) fun hab => ?_
  · rw [hab]
    decide
  · rwa [ne_eq, Std.OrientedCmp.eq_comm]

/-- When no run has an entry that holds a predicate, no entry of their union does. -/
theorem filter_eq_nil_of_perm {L : List α} {rs : List (List α)} (hperm : L.Perm rs.flatten)
    {p : α → Bool} (hnone : ∀ r ∈ rs, r.filter p = []) : L.filter p = [] := by
  rw [List.filter_eq_nil_iff]
  intro y hy
  obtain ⟨r, hr, hyr⟩ := List.mem_flatten.mp (hperm.subset hy)
  exact List.filter_eq_nil_iff.mp (hnone r hr) y hyr

section Union

variable {L : List α} {rs : List (List α)} {p : α → Bool} {r : List α} {x : α}

/-- **The first entry of the union that holds a predicate** is a run's first such entry that is
not above the first such entry of any run. -/
theorem Run.head?_filter_of_perm (hL : Run cmp key L) (hperm : L.Perm rs.flatten)
    (hrs : ∀ r ∈ rs, Run cmp key r) (hr : r ∈ rs) (hx : (r.filter p).head? = some x)
    (hle : ∀ r' ∈ rs, ∀ y, (r'.filter p).head? = some y → cmp (key x) (key y) ≠ .gt) :
    (L.filter p).head? = some x := by
  obtain ⟨hxr, hpx⟩ := List.mem_filter.mp (List.mem_of_mem_head? hx)
  refine (hL.filter p).head?_eq_of_least ?_ fun y hy => ?_
  · exact List.mem_filter.mpr ⟨hperm.symm.subset (List.mem_flatten.mpr ⟨r, hr, hxr⟩), hpx⟩
  · -- `y` lies in some run, not below that run's first entry that holds `p`
    obtain ⟨hyL, hpy⟩ := List.mem_filter.mp hy
    obtain ⟨r', hr', hyr'⟩ := List.mem_flatten.mp (hperm.subset hyL)
    have hy' : y ∈ r'.filter p := List.mem_filter.mpr ⟨hyr', hpy⟩
    obtain ⟨z, hz⟩ := Option.isSome_iff_exists.mp (List.isSome_head?.mpr (List.ne_nil_of_mem hy'))
    exact Std.TransCmp.le_trans (hle r' hr' z hz) (((hrs r' hr').filter p).le_of_head? hz hy')

/-- **The last entry of the union that holds a predicate** is a run's last such entry that is not
below the last such entry of any run. -/
theorem Run.getLast?_filter_of_perm (hL : Run cmp key L) (hperm : L.Perm rs.flatten)
    (hrs : ∀ r ∈ rs, Run cmp key r) (hr : r ∈ rs) (hx : (r.filter p).getLast? = some x)
    (hge : ∀ r' ∈ rs, ∀ y, (r'.filter p).getLast? = some y → cmp (key y) (key x) ≠ .gt) :
    (L.filter p).getLast? = some x := by
  obtain ⟨hxr, hpx⟩ := List.mem_filter.mp (List.mem_of_getLast? hx)
  refine (hL.filter p).getLast?_eq_of_greatest ?_ fun y hy => ?_
  · exact List.mem_filter.mpr ⟨hperm.symm.subset (List.mem_flatten.mpr ⟨r, hr, hxr⟩), hpx⟩
  · -- `y` lies in some run, not above that run's last entry that holds `p`
    obtain ⟨hyL, hpy⟩ := List.mem_filter.mp hy
    obtain ⟨r', hr', hyr'⟩ := List.mem_flatten.mp (hperm.subset hyL)
    have hy' : y ∈ r'.filter p := List.mem_filter.mpr ⟨hyr', hpy⟩
    obtain ⟨z, hz⟩ :=
      Option.isSome_iff_exists.mp (List.getLast?_isSome.mpr (List.ne_nil_of_mem hy'))
    exact Std.TransCmp.le_trans (((hrs r' hr').filter p).le_of_getLast? hz hy') (hge r' hr' z hz)

end Union

/-! ## A cut read from its first or last entry -/

section CutAt

variable {p q : κ → Bool} {xs : List α} {x y : α}

/-- On a run, an upward-closed predicate holds of exactly the entries not below the first entry
that holds it. -/
theorem Run.up_eq_of_head? (h : Run cmp key xs) (hp : UpClosed cmp p)
    (hx : (xs.filter fun y => p (key y)).head? = some x) (hy : y ∈ xs) :
    p (key y) = (cmp (key y) (key x) != .lt) := by
  have hpx : p (key x) = true := (List.mem_filter.mp (List.mem_of_mem_head? hx)).2
  cases hpy : p (key y)
  · -- `y` fails `p`, so it is below `x`
    have hlt : cmp (key y) (key x) = .lt := by
      by_contra hne
      have hpy' := hp _ _ hpx fun hgt => hne (Std.OrientedCmp.gt_iff_lt.mp hgt)
      rw [hpy] at hpy'
      cases hpy'
    rw [hlt]
    rfl
  · have hle := (h.filter _).le_of_head? hx (List.mem_filter.mpr ⟨hy, hpy⟩)
    have hnlt : cmp (key y) (key x) ≠ .lt := fun hlt => hle (Std.OrientedCmp.gt_iff_lt.mpr hlt)
    simpa using hnlt

/-- On a run, a downward-closed predicate holds of exactly the entries not above the last entry
that holds it. -/
theorem Run.down_eq_of_getLast? (h : Run cmp key xs) (hq : DownClosed cmp q)
    (hx : (xs.filter fun y => q (key y)).getLast? = some x) (hy : y ∈ xs) :
    q (key y) = (cmp (key y) (key x) != .gt) := by
  have hqx : q (key x) = true := (List.mem_filter.mp (List.mem_of_getLast? hx)).2
  cases hqy : q (key y)
  · -- `y` fails `q`, so it is above `x`
    have hgt : cmp (key y) (key x) = .gt := by
      by_contra hne
      have hqy' := hq _ _ hqx hne
      rw [hqy] at hqy'
      cases hqy'
    rw [hgt]
    rfl
  · have hle := (h.filter _).le_of_getLast? hx (List.mem_filter.mpr ⟨hy, hqy⟩)
    simpa using hle

end CutAt

/-- Apart from equal keys, "above" is "not below". -/
theorem beq_gt_eq_bne_lt {o : Ordering} (h : o ≠ .eq) : (o == .gt) = (o != .lt) := by
  cases o with
  | lt => rfl
  | eq => exact absurd rfl h
  | gt => rfl

/-- Apart from equal keys, "below" is "not above". -/
theorem beq_lt_eq_bne_gt {o : Ordering} (h : o ≠ .eq) : (o == .lt) = (o != .gt) := by
  cases o with
  | lt => rfl
  | eq => exact absurd rfl h
  | gt => rfl

end RocksCloud.Lib.SortedRuns
