import Mathlib
import RocksCloud.Lib.HeapOrder

/-!
# The binary heap of `util/heap.h`

`BinaryHeap<T, Compare>` keeps its elements in `data_`, read as a binary tree: the children of
position `i` are at `2 i + 1` and `2 i + 2`. Like `std::priority_queue` it takes a less-than
`cmp_` and keeps the largest element on top: no element is less than one of its children.
`push` appends and sifts up (`upheap`); `pop` moves the last element to the root and sifts down
(`downheap`); `replace_top` overwrites the root and sifts down. Both sifts hold the moving element
out of the vector and move the others into the hole.

`downheap` saves a comparison with `root_cmp_cache_`. When a sift down leaves the element at the
root, the root's children did not change, so the child it picked is cached; the next sift down
at the root takes that child without comparing the two children. `upheap`, a sift down that moves
the root element, `pop` emptying the heap and `clear` clear the cache.

In the model `data_` is a list and `cmp_` a function passed to each operation. The empty cache
`port::kMaxSizet` is above every index of a vector and is `none`; a cached child `c` is `some c`.
The loops of the sifts take fuel: `upheap(index)` turns at most `index` times, and `downheap`
at most as many times as the heap has elements.

* `Inv`: the heap order, and a cached child of the root is a largest child of the root.
* `Inv.step`: every operation keeps `Inv` (`pop` and `replace_top` on a nonempty heap), and
  `contents_step`: the elements change as a priority queue's do.
* `binaryHeap_invariants`: in every state reached from `BinaryHeap()`, the heap order, the
  contents, the top and the cache are as the class promises, for any strict weak order `cmp_`.
-/

set_option autoImplicit false

namespace RocksCloud.Util

open RocksCloud.Lib.HeapOrder

/-- `BinaryHeap<T, Compare>`: `data_` and `root_cmp_cache_`. -/
structure BinaryHeap (α : Type) where
  data : List α
  rootCmpCache : Option Nat
  deriving Repr, DecidableEq

namespace BinaryHeap

variable {α : Type} (cmp : α → α → Bool)

/-- `BinaryHeap()`. -/
def new : BinaryHeap α := ⟨[], none⟩

/-- `get_root()`. -/
def getRoot : Nat := 0

/-- `get_parent(index)`. -/
def getParent (index : Nat) : Nat := (index - 1) / 2

/-- `get_left(index)`. -/
def getLeft (index : Nat) : Nat := 2 * index + 1

/-! ## The sifts -/

/-- The `while (index > get_root())` loop of `upheap`: `v` is held out of `data`, and each
parent less than `v` moves down into the hole at `index`. -/
def upheapLoop (v : α) : Nat → List α → Nat → List α × Nat
  | 0, data, index => (data, index)
  | fuel + 1, data, index =>
      if index > getRoot then
        let parent := getParent index
        if !cmp (data.getD parent v) v then (data, index)
        else upheapLoop v fuel (data.set index (data.getD parent v)) parent
      else (data, index)

/-- `upheap(index)`: the loop, then `v` into the hole and the cache cleared. -/
def upheap (h : BinaryHeap α) (index : Nat) : BinaryHeap α :=
  match h.data[index]? with
  | some v =>
      let res := upheapLoop cmp v index h.data index
      { data := res.1.set res.2 v, rootCmpCache := none }
  | none => h

/-- `index == 0 && root_cmp_cache_ < data_.size()`: the cached child, where `downheap` takes it. -/
def cachedChild (rootCmpCache : Option Nat) (index size : Nat) : Option Nat :=
  if index = 0 then rootCmpCache.filter (· < size) else none

/-- The child `downheap` compares `v` against: the cached child at the root, else the right
child when the left one is less than it, else the left child. -/
def pickChild (v : α) (rootCmpCache : Option Nat) (data : List α) (index : Nat) : Nat :=
  let leftChild := getLeft index
  let rightChild := leftChild + 1
  match cachedChild rootCmpCache index data.length with
  | some c => c
  | none =>
      if rightChild < data.length ∧ cmp (data.getD leftChild v) (data.getD rightChild v) then
        rightChild
      else leftChild

/-- The `while (1)` loop of `downheap`: `v` is held out of `data`, and the picked child moves up
into the hole at `index` while `v` is less than it; the last component is `picked_child`. -/
def downheapLoop (v : α) (rootCmpCache : Option Nat) :
    Nat → List α → Nat → Option Nat → List α × Nat × Option Nat
  | 0, data, index, pickedChild => (data, index, pickedChild)
  | fuel + 1, data, index, pickedChild =>
      if getLeft index ≥ data.length then (data, index, pickedChild)
      else
        let picked := pickChild cmp v rootCmpCache data index
        if !cmp v (data.getD picked v) then (data, index, some picked)
        else downheapLoop v rootCmpCache fuel (data.set index (data.getD picked v)) picked
          (some picked)

/-- `downheap(index)`: the loop, then `v` into the hole; the cache is the picked child when the
element stayed at the root, and cleared otherwise. -/
def downheap (h : BinaryHeap α) (index : Nat) : BinaryHeap α :=
  match h.data[index]? with
  | some v =>
      let res := downheapLoop cmp v h.rootCmpCache h.data.length h.data index none
      { data := res.1.set res.2.1 v, rootCmpCache := if res.2.1 = 0 then res.2.2 else none }
  | none => h

/-! ## The operations -/

/-- `push(value)`. -/
def push (h : BinaryHeap α) (value : α) : BinaryHeap α :=
  upheap cmp { h with data := h.data ++ [value] } h.data.length

/-- `top()`: the first element; the source asserts that the heap is not empty. -/
def top (h : BinaryHeap α) : Option α := h.data.head?

/-- `replace_top(value)`. -/
def replaceTop (h : BinaryHeap α) (value : α) : BinaryHeap α :=
  downheap cmp { h with data := h.data.set getRoot value } getRoot

/-- `pop()`: the last element moves to the root, and the sift down runs when the heap is not
empty. -/
def pop (h : BinaryHeap α) : BinaryHeap α :=
  match h.data.getLast? with
  | some back =>
      let data := (h.data.set getRoot back).dropLast
      if data.isEmpty then { data, rootCmpCache := none }
      else downheap cmp { h with data } getRoot
  | none => h

/-- `clear()`. -/
def clear (h : BinaryHeap α) : BinaryHeap α := { h with data := [], rootCmpCache := none }

example : ((new.push (fun a b : Nat => decide (a < b)) 3).push (fun a b => decide (a < b)) 1
    |>.push (fun a b => decide (a < b)) 4).data = [4, 1, 3] := by decide

/-- The operations a user of the heap calls. -/
inductive Op (α : Type) where
  | push (value : α)
  | pop
  | replaceTop (value : α)
  | clear
  deriving Repr

/-- The source asserts that `pop` and `replace_top` find the heap nonempty. -/
def Op.Allowed (h : BinaryHeap α) : Op α → Prop
  | .pop => h.data ≠ []
  | .replaceTop _ => h.data ≠ []
  | .push _ => True
  | .clear => True

/-- One operation. -/
def step (h : BinaryHeap α) : Op α → BinaryHeap α
  | .push value => h.push cmp value
  | .pop => h.pop cmp
  | .replaceTop value => h.replaceTop cmp value
  | .clear => h.clear

/-- The states a heap passes through from `BinaryHeap()`. -/
inductive Reachable : BinaryHeap α → Prop
  | new : Reachable new
  | step {h : BinaryHeap α} (op : Op α) : Reachable h → op.Allowed h → Reachable (h.step cmp op)

/-! ## What a priority queue holds -/

/-- The elements of a priority queue after `op`, given its elements and its top before: `push`
adds, `pop` removes the top, `replace_top` puts its argument in the top's place, `clear`
empties. -/
def Op.contents [DecidableEq α] (m : Multiset α) (top : Option α) : Op α → Multiset α
  | .push value => value ::ₘ m
  | .pop => top.elim m m.erase
  | .replaceTop value => value ::ₘ top.elim m m.erase
  | .clear => 0

/-! ## The invariant -/

/-- `cmp_` as a relation: `a` is less than `b`. -/
abbrev Lt (a b : α) : Prop := cmp a b = true

/-- The heap's invariant: heap order under `cmp_`, and a cached child of the root is a largest
child of the root. -/
structure Inv (h : BinaryHeap α) : Prop where
  ordered : Ordered (Lt cmp) h.data
  cache : ∀ c, h.rootCmpCache = some c → c < h.data.length → MaxChild (Lt cmp) h.data 0 c

/-- What the loop of `downheap` leaves from `start`: a heap once `v` is in the hole, with the
elements of `start`, and, when `v` stayed at the root, a picked child that is a largest child of
the root. -/
structure DownheapLoopSpec (v : α) (start : List α) (res : List α × Nat × Option Nat) : Prop where
  ordered : Ordered (Lt cmp) (res.1.set res.2.1 v)
  perm : List.Perm (res.1.set res.2.1 v) start
  picked : res.2.1 = 0 → ∀ c, res.2.2 = some c → MaxChild (Lt cmp) (res.1.set 0 v) 0 c

@[simp] theorem getParent_eq_parent (index : Nat) : getParent index = parent index := rfl

theorem getD_of_getElem? {data : List α} {i : Nat} {a : α} (v : α) (h : data[i]? = some a) :
    data.getD i v = a := by
  rw [List.getD_eq_getElem?_getD, h, Option.getD_some]

/-- `pop` leaves the elements after the first: the last one moved to the root and its old place
dropped. -/
theorem set_zero_getLast_dropLast_perm {xs : List α} (hne : xs ≠ []) :
    List.Perm ((xs.set 0 (xs.getLast hne)).dropLast) xs.tail := by
  obtain ⟨t, rest, rfl⟩ := List.exists_cons_of_ne_nil hne
  cases rest with
  | nil => simp
  | cons u us =>
      have hne' : u :: us ≠ [] := List.cons_ne_nil u us
      rw [List.getLast_cons hne', List.set_cons_zero, List.dropLast_cons_of_ne_nil hne',
        List.tail_cons]
      -- the last element put in front of the others
      refine (List.perm_append_singleton _ _).symm.trans ?_
      rw [List.dropLast_append_getLast hne']

variable {cmp}

/-- The invariant reads the comparator on the heap's elements only. -/
theorem Inv.congr {cmp₀ : α → α → Bool} {h : BinaryHeap α} (hinv : Inv cmp₀ h)
    (hagree : ∀ a ∈ h.data, ∀ b ∈ h.data, cmp a b = cmp₀ a b) : Inv cmp h where
  ordered := hinv.ordered.of_rel fun a ha b hb hab =>
    show cmp₀ a b = true from hagree a ha b hb ▸ hab
  cache c hc hcl := (hinv.cache c hc hcl).of_rel fun a ha b hb hab =>
    show cmp₀ a b = true from hagree a ha b hb ▸ hab

section Sifts

variable [IsStrictWeakOrder α (Lt cmp)]

/-- **The loop of `upheap`.** With `v` in the hole the list is ready for a sift up at `index`; the
loop ends with a heap and the same elements. The induction is on the fuel, which `index` never
exceeds: each turn goes up to the parent. -/
theorem upheapLoop_spec (v : α) (fuel : Nat) :
    ∀ (data : List α) (index : Nat), SiftUpReady (Lt cmp) (data.set index v) index →
      index ≤ fuel →
      Ordered (Lt cmp) ((upheapLoop cmp v fuel data index).1.set
          (upheapLoop cmp v fuel data index).2 v) ∧
        List.Perm ((upheapLoop cmp v fuel data index).1.set (upheapLoop cmp v fuel data index).2 v)
          (data.set index v) := by
  induction fuel with
  | zero =>
      intro data index hready hfuel
      obtain rfl : index = 0 := by omega
      exact ⟨hready.ordered_of_zero, List.Perm.refl _⟩
  | succ fuel ih =>
      intro data index hready hfuel
      rw [upheapLoop]
      split
      · rename_i hi
        have hi : 0 < index := hi
        have hpi : parent index < index := parent_lt hi
        have hlen : index < data.length := by simpa using hready.lt_length
        obtain ⟨a, ha⟩ := exists_getElem?_of_lt (hpi.trans hlen)
        -- the parent and `v` in the list with `v` in the hole
        have hxa : (data.set index v)[parent index]? = some a := by
          rw [List.getElem?_set_ne hpi.ne', ha]
        have hxv : (data.set index v)[index]? = some v := List.getElem?_set_self hlen
        simp only [getParent_eq_parent, getD_of_getElem? v ha]
        split
        · rename_i hstop
          -- the parent is not less than `v`: the hole is `v`'s place
          have hnot : ¬ Lt cmp a v := by simpa using hstop
          refine ⟨hready.ordered_of_notBelow ?_, List.Perm.refl _⟩
          intro x y hx hy
          rw [hxa] at hx
          rw [hxv] at hy
          cases hx
          cases hy
          exact hnot
        · rename_i hmove
          have hlt : Lt cmp a v := by simpa using hmove
          have hswap := hready.swap hi hxa hxv hlt
          have hperm := swap_perm hxv hxa
          rw [List.set_set] at hswap hperm
          obtain ⟨hord, hperm'⟩ := ih (data.set index a) (parent index) hswap (by omega)
          exact ⟨hord, hperm'.trans hperm⟩
      · rename_i hi
        obtain rfl : index = 0 := by simp only [getRoot] at hi; omega
        exact ⟨hready.ordered_of_zero, List.Perm.refl _⟩

/-- The child `downheap` picks is a largest child, when a cached child of the root is one. -/
theorem maxChild_pickChild {v : α} {cache : Option Nat} {data : List α} {index : Nat}
    (hcache : index = 0 → ∀ c, cache = some c → c < data.length →
      MaxChild (Lt cmp) (data.set 0 v) 0 c)
    (hleft : getLeft index < data.length) :
    MaxChild (Lt cmp) (data.set index v) index (pickChild cmp v cache data index) := by
  unfold pickChild cachedChild
  split
  · -- the cached child
    rename_i c hc
    split_ifs at hc with h0
    · rw [h0]
      obtain ⟨hcache', hlt⟩ := Option.filter_eq_some_iff.mp hc
      exact hcache h0 c hcache' (by simpa using hlt)
  · -- the larger of the two children
    have hl : 2 * index + 1 < data.length := hleft
    obtain ⟨a, ha⟩ := exists_getElem?_of_lt hl
    have hxa : (data.set index v)[2 * index + 1]? = some a := by
      rw [List.getElem?_set_ne (by omega), ha]
    simp only [getLeft, getD_of_getElem? v ha]
    split_ifs with hright
    · obtain ⟨hrl, hlt⟩ := hright
      obtain ⟨b, hb⟩ := exists_getElem?_of_lt hrl
      rw [getD_of_getElem? v hb] at hlt
      have hxb : (data.set index v)[2 * index + 2]? = some b := by
        rw [List.getElem?_set_ne (by omega)]
        exact hb
      exact maxChild_right hxa hxb hlt
    · apply maxChild_left hxa
      intro b hb hab
      rw [List.getElem?_set_ne (by omega)] at hb
      apply hright ⟨lt_length_of_getElem? hb, ?_⟩
      rwa [getD_of_getElem? v hb]

/-- **The loop of `downheap`.** With `v` in the hole the list is ready for a sift down at
`index`; the loop ends with a heap and the same elements, and a picked child left at the root is
a largest child of the root. The induction is on the fuel, which with `index` covers the list:
each turn goes down to a child. -/
theorem downheapLoop_spec (v : α) (cache : Option Nat) (fuel : Nat) :
    ∀ (data : List α) (index : Nat) (picked : Option Nat),
      SiftDownReady (Lt cmp) (data.set index v) index →
      (index = 0 → ∀ c, cache = some c → c < data.length →
        MaxChild (Lt cmp) (data.set 0 v) 0 c) →
      (index = 0 → ∀ c, picked = some c → MaxChild (Lt cmp) (data.set 0 v) 0 c) →
      data.length ≤ fuel + index →
      DownheapLoopSpec cmp v (data.set index v) (downheapLoop cmp v cache fuel data index picked) := by
  induction fuel with
  | zero =>
      intro data index picked hready _ _ hfuel
      have hlen := hready.lt_length
      simp only [List.length_set] at hlen
      omega
  | succ fuel ih =>
      intro data index picked hready hcache hpicked hfuel
      have hlen : index < data.length := by simpa using hready.lt_length
      rw [downheapLoop]
      split
      · rename_i hleaf
        -- no child: the hole is `v`'s place
        refine ⟨hready.ordered_of_length_le (by simp only [getLeft] at hleaf; simp; omega),
          List.Perm.refl _, fun h0 => ?_⟩
        dsimp only at h0 ⊢
        subst h0
        exact hpicked rfl
      · rename_i hleft
        have hmax := maxChild_pickChild hcache (by omega : getLeft index < data.length)
        obtain ⟨b, hb⟩ := exists_getElem?_of_lt (by simpa using hmax.lt_length)
        have hic : index < pickChild cmp v cache data index :=
          lt_of_parent_eq hmax.pos hmax.parent_eq
        have hxv : (data.set index v)[index]? = some v := List.getElem?_set_self hlen
        have hxb : (data.set index v)[pickChild cmp v cache data index]? = some b := by
          rw [List.getElem?_set_ne hic.ne]
          exact hb
        simp only [getD_of_getElem? v hb]
        split
        · rename_i hstop
          -- `v` is not less than a largest child: the hole is `v`'s place
          have hnot : ¬ Lt cmp v b := by simpa using hstop
          refine ⟨hready.ordered_of_notBelow hmax ?_, List.Perm.refl _, ?_⟩
          · intro x y hx hy
            rw [hxv] at hx
            rw [hxb] at hy
            cases hx
            cases hy
            exact hnot
          · intro h0 c hc
            dsimp only at h0 hc ⊢
            cases hc
            subst h0
            exact hmax
        · rename_i hmove
          have hlt : Lt cmp v b := by simpa using hmove
          have hswap := hready.swap hmax hxv hxb hlt
          have hperm := swap_perm hxv hxb
          rw [List.set_set] at hswap hperm
          -- below the root neither the cache nor the picked child is looked at again
          have hspec := ih (data.set index b) (pickChild cmp v cache data index)
            (some (pickChild cmp v cache data index)) hswap (fun h0 => absurd h0 hmax.pos.ne')
            (fun h0 => absurd h0 hmax.pos.ne') (by simp only [List.length_set]; omega)
          exact ⟨hspec.ordered, hspec.perm.trans hperm, hspec.picked⟩

/-- A sift down at the root of a list that is ready for it, with a cache that names a largest
child of the root, leaves the invariant and the elements. -/
theorem downheap_zero_spec (h : BinaryHeap α) (hready : SiftDownReady (Lt cmp) h.data 0)
    (hcache : ∀ c, h.rootCmpCache = some c → c < h.data.length → MaxChild (Lt cmp) h.data 0 c) :
    Inv cmp (h.downheap cmp 0) ∧ List.Perm (h.downheap cmp 0).data h.data := by
  obtain ⟨v, hv⟩ := exists_getElem?_of_lt hready.lt_length
  have hset : h.data.set 0 v = h.data := set_eq_self hv
  have hspec := downheapLoop_spec v h.rootCmpCache h.data.length h.data 0 none
    (by rwa [hset]) (fun _ c hc hcl => by rw [hset]; exact hcache c hc hcl)
    (fun _ c hc => by cases hc) (by omega)
  rw [hset] at hspec
  unfold downheap
  rw [hv]
  dsimp only
  refine ⟨⟨hspec.ordered, ?_⟩, hspec.perm⟩
  intro c hc _
  split_ifs at hc with h0
  rw [h0]
  exact hspec.picked h0 c hc

/-! ## Each operation keeps the invariant -/

/-- `push` keeps the invariant and adds its argument. -/
theorem Inv.push {h : BinaryHeap α} (hinv : Inv cmp h) (value : α) :
    Inv cmp (h.push cmp value) ∧ List.Perm (h.push cmp value).data (h.data ++ [value]) := by
  have hv : (h.data ++ [value])[h.data.length]? = some value := by simp
  have hready := hinv.ordered.siftUpReady_append (Lt cmp) value
  rw [← set_eq_self hv] at hready
  obtain ⟨hord, hperm⟩ := upheapLoop_spec value h.data.length (h.data ++ [value]) h.data.length
    hready le_rfl
  rw [set_eq_self hv] at hperm
  unfold BinaryHeap.push upheap
  dsimp only
  rw [hv]
  dsimp only
  exact ⟨⟨hord, fun c hc => by cases hc⟩, hperm⟩

/-- `replace_top` keeps the invariant and puts its argument in the root's place, also after the
comparator changed on pairs with the root's element: a user that changed the key of the top
element in place and calls `replace_top` with it. -/
theorem Inv.replaceTop_of_agree {cmp₀ : α → α → Bool} {h : BinaryHeap α} (hinv : Inv cmp₀ h)
    (hne : h.data ≠ []) (value : α)
    (hagree : ∀ k l a b, 0 < k → 0 < l → h.data[k]? = some a → h.data[l]? = some b →
      cmp a b = cmp₀ a b) :
    Inv cmp (h.replaceTop cmp value) ∧
      List.Perm (h.replaceTop cmp value).data (h.data.set 0 value) := by
  have hbelow : ∀ k, 0 < k → k < (h.data.set 0 value).length →
      (h.data.set 0 value)[k]? = h.data[k]? := fun k hk _ => List.getElem?_set_ne hk.ne
  have hpos : 0 < (h.data.set 0 value).length := by
    simpa using List.length_pos_of_ne_nil hne
  have hrel : ∀ k l a b, 0 < k → 0 < l → h.data[k]? = some a → h.data[l]? = some b →
      Lt cmp a b → Lt cmp₀ a b := fun k l a b hk hl ha hb hab =>
    show cmp₀ a b = true from hagree k l a b hk hl ha hb ▸ hab
  exact downheap_zero_spec { h with data := h.data.set 0 value }
    (hinv.ordered.siftDownReady_zero_of_rel hpos hbelow hrel)
    (fun c hc hcl => (hinv.cache c hc (by simpa using hcl)).of_agree_of_rel hcl hbelow hrel)

/-- `replace_top` keeps the invariant and puts its argument in the root's place. -/
theorem Inv.replaceTop {h : BinaryHeap α} (hinv : Inv cmp h) (hne : h.data ≠ []) (value : α) :
    Inv cmp (h.replaceTop cmp value) ∧
      List.Perm (h.replaceTop cmp value).data (h.data.set 0 value) :=
  hinv.replaceTop_of_agree hne value fun _ _ _ _ _ _ _ _ => rfl

omit [IsStrictWeakOrder α (Lt cmp)] in
/-- `pop` on a nonempty heap: the list without its last element, the last element at the root. -/
theorem pop_eq {h : BinaryHeap α} (hne : h.data ≠ []) :
    h.pop cmp =
      if ((h.data.set 0 (h.data.getLast hne)).dropLast).isEmpty then
        { data := (h.data.set 0 (h.data.getLast hne)).dropLast, rootCmpCache := none }
      else downheap cmp { h with data := (h.data.set 0 (h.data.getLast hne)).dropLast } 0 := by
  unfold BinaryHeap.pop
  rw [List.getLast?_eq_some_getLast hne]
  rfl

/-- `pop` keeps the invariant and leaves the elements after the root, also after the comparator
changed on pairs with the root's element, which `pop` drops. -/
theorem Inv.pop_of_agree {cmp₀ : α → α → Bool} {h : BinaryHeap α} (hinv : Inv cmp₀ h)
    (hne : h.data ≠ [])
    (hagree : ∀ k l a b, 0 < k → 0 < l → h.data[k]? = some a → h.data[l]? = some b →
      cmp a b = cmp₀ a b) :
    Inv cmp (h.pop cmp) ∧ List.Perm (h.pop cmp).data h.data.tail := by
  have hperm := set_zero_getLast_dropLast_perm hne
  rw [pop_eq hne]
  split_ifs with hempty
  · -- the heap had one element
    rw [List.isEmpty_iff] at hempty
    refine ⟨⟨?_, fun c hc => by cases hc⟩, hperm⟩
    rw [hempty]
    exact ordered_nil
  · have hpos : 0 < ((h.data.set 0 (h.data.getLast hne)).dropLast).length := by
      rw [List.isEmpty_iff] at hempty
      exact List.length_pos_of_ne_nil hempty
    have hbelow : ∀ k, 0 < k → k < ((h.data.set 0 (h.data.getLast hne)).dropLast).length →
        ((h.data.set 0 (h.data.getLast hne)).dropLast)[k]? = h.data[k]? := by
      intro k hk hkl
      simp only [List.length_dropLast, List.length_set] at hkl
      rw [List.getElem?_dropLast, if_pos (by simpa using hkl), List.getElem?_set_ne hk.ne]
    have hlen : ((h.data.set 0 (h.data.getLast hne)).dropLast).length ≤ h.data.length := by
      simp
    have hrel : ∀ k l a b, 0 < k → 0 < l → h.data[k]? = some a → h.data[l]? = some b →
        Lt cmp a b → Lt cmp₀ a b := fun k l a b hk hl ha hb hab =>
      show cmp₀ a b = true from hagree k l a b hk hl ha hb ▸ hab
    obtain ⟨hinv', hperm'⟩ := downheap_zero_spec
      { h with data := (h.data.set 0 (h.data.getLast hne)).dropLast }
      (hinv.ordered.siftDownReady_zero_of_rel hpos hbelow hrel)
      (fun c hc hcl => (hinv.cache c hc (by simp at hcl ⊢; omega)).of_agree_of_rel hcl hbelow hrel)
    exact ⟨hinv', hperm'.trans hperm⟩

/-- `pop` keeps the invariant and leaves the elements after the root. -/
theorem Inv.pop {h : BinaryHeap α} (hinv : Inv cmp h) (hne : h.data ≠ []) :
    Inv cmp (h.pop cmp) ∧ List.Perm (h.pop cmp).data h.data.tail :=
  hinv.pop_of_agree hne fun _ _ _ _ _ _ _ _ => rfl

/-- Every operation keeps the invariant. -/
theorem Inv.step {h : BinaryHeap α} (hinv : Inv cmp h) {op : Op α} (hop : op.Allowed h) :
    Inv cmp (h.step cmp op) := by
  cases op with
  | push value => exact (hinv.push value).1
  | pop => exact (hinv.pop hop).1
  | replaceTop value => exact (hinv.replaceTop hop value).1
  | clear => exact ⟨ordered_nil, fun c hc => by cases hc⟩

/-- **The heap holds what a priority queue holds**: `push` adds its argument, `pop` removes the
top, `replace_top` puts its argument in the top's place, `clear` empties. -/
theorem contents_step [DecidableEq α] {h : BinaryHeap α} (hinv : Inv cmp h) {op : Op α}
    (hop : op.Allowed h) : (↑(h.step cmp op).data : Multiset α) = op.contents ↑h.data h.top := by
  cases op with
  | push value =>
      rw [step, Op.contents, Multiset.cons_coe, Multiset.coe_eq_coe]
      exact (hinv.push value).2.trans (List.perm_append_singleton value h.data)
  | pop =>
      rw [step, Multiset.coe_eq_coe.mpr (hinv.pop hop).2]
      obtain ⟨t, rest, hdata⟩ := List.exists_cons_of_ne_nil hop
      simp [Op.contents, top, hdata]
  | replaceTop value =>
      rw [step, Multiset.coe_eq_coe.mpr (hinv.replaceTop hop value).2]
      obtain ⟨t, rest, hdata⟩ := List.exists_cons_of_ne_nil hop
      simp [Op.contents, top, hdata]
  | clear => rfl

/-- The top is not less than any element. -/
theorem Inv.top_notBelow {h : BinaryHeap α} (hinv : Inv cmp h) {t x : α} (ht : h.top = some t)
    (hx : x ∈ h.data) : cmp t x = false := by
  obtain ⟨k, hk⟩ := List.mem_iff_getElem?.mp hx
  have h0 : h.data[0]? = some t := by
    rw [← List.head?_eq_getElem?]
    exact ht
  simpa using hinv.ordered.notBelow_zero k t x h0 hk

variable (cmp) in
/-- Every state reached from `BinaryHeap()` satisfies the invariant. -/
theorem Reachable.inv {h : BinaryHeap α} (hreach : Reachable cmp h) : Inv cmp h := by
  induction hreach with
  | new => exact ⟨ordered_nil, fun c hc => by cases hc⟩
  | step op _ hop ih => exact ih.step hop

end Sifts

variable (cmp) in
/-- **The heap's invariants over every run.** In every state reached from `BinaryHeap()` by
`push`, `pop`, `replace_top` and `clear` (the latter two on a nonempty heap), under a strict weak
order `cmp_`: no element is less than its child; each next operation changes the elements as a
priority queue does, `pop` and `replace_top` removing the top; the top is a largest element; and
a cached child of the root below `size()` is `1` or `2` and is not less than the other child. -/
theorem binaryHeap_invariants [DecidableEq α] [IsStrictWeakOrder α (fun a b => cmp a b = true)]
    {h : BinaryHeap α} (hreach : Reachable cmp h) :
    (∀ j, 0 < j → ∀ a b, h.data[getParent j]? = some a → h.data[j]? = some b →
      cmp a b = false) ∧
    (∀ op : Op α, op.Allowed h →
      (↑(h.step cmp op).data : Multiset α) = op.contents ↑h.data h.top) ∧
    (∀ t, h.top = some t → ∀ x ∈ h.data, cmp t x = false) ∧
    (∀ c, h.rootCmpCache = some c → c < h.data.length →
      (c = 1 ∨ c = 2) ∧ ∀ a b, h.data[c]? = some a → h.data[3 - c]? = some b → cmp a b = false) := by
  have hinv := hreach.inv cmp
  refine ⟨?_, fun op hop => contents_step hinv hop, fun t ht x hx => hinv.top_notBelow ht hx, ?_⟩
  · intro j hj a b ha hb
    simpa using hinv.ordered j hj a b ha hb
  · intro c hc hcl
    have hmax := hinv.cache c hc hcl
    refine ⟨hmax.eq_one_or_two, fun a b ha hb => ?_⟩
    -- the other child of the root
    have hother : 0 < 3 - c ∧ parent (3 - c) = 0 := by
      rcases hmax.eq_one_or_two with rfl | rfl <;> exact ⟨by decide, rfl⟩
    simpa using hmax.notBelow (3 - c) hother.1 hother.2 a b ha hb

/-- Three pushes onto an empty heap of naturals under `<` reach a heap with `4` on top, not less
than any element. -/
theorem binaryHeap_invariants_three_pushes :
    Reachable (fun a b : Nat => decide (a < b))
        (((new.push (fun a b => decide (a < b)) 3).push (fun a b => decide (a < b)) 1).push
          (fun a b => decide (a < b)) 4) ∧
      (((new.push (fun a b : Nat => decide (a < b)) 3).push (fun a b => decide (a < b)) 1).push
          (fun a b => decide (a < b)) 4).top = some 4 ∧
      ∀ x ∈ (((new.push (fun a b : Nat => decide (a < b)) 3).push (fun a b => decide (a < b))
          1).push (fun a b => decide (a < b)) 4).data, decide (4 < x) = false := by
  have hlt : IsStrictWeakOrder Nat (fun a b => decide (a < b) = true) := by
    simp only [decide_eq_true_eq]
    exact isStrictWeakOrder_of_isOrderConnected
  have hreach : Reachable (fun a b : Nat => decide (a < b))
      (((new.push (fun a b => decide (a < b)) 3).push (fun a b => decide (a < b)) 1).push
        (fun a b => decide (a < b)) 4) :=
    .step (.push 4) (.step (.push 1) (.step (.push 3) .new trivial) trivial) trivial
  exact ⟨hreach, rfl, (binaryHeap_invariants (fun a b : Nat => decide (a < b)) hreach).2.2.1 4 rfl⟩

end BinaryHeap

end RocksCloud.Util
