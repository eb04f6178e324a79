import Mathlib
import RocksCloud.Cache.LRUCache

/-!
# The LRU list of a shard and its two pools

The list of an `LRUCacheShard` runs from the oldest entry to the newest, and `lru_low_pri_`
cuts it in two: the low-priority pool up to and including it (`lowPool`), the high-priority
pool after it (`highPool`). `PoolInv` is what the code keeps of that cut: the list holds each
handle once, a handle carries `IN_HIGH_PRI_POOL` exactly when it is in the high-priority pool,
and `high_pri_pool_usage_` is the sum of the charges there.

* `LRU_Remove` of a handle on the list passes its `assert`s and unlinks the handle
  (`PoolInv.lruRemove_eq`), keeping the invariant (`PoolInv.unlink`);
* `MaintainPoolSize` moves the oldest handles of the high-priority pool to the other pool until
  the first fits its capacity; when that capacity is not negative it gets there, within its
  turns and without failing its `assert` (`PoolInv.maintainPoolSize`);
* `LRU_Insert` of a handle not on the list adds it (`PoolInv.lruInsert`).

None of these calls changes more than the list, its two usages and the pool flags of the
handles (`ListFrame`).
-/

set_option autoImplicit false

namespace RocksCloud.Cache

/-- `insertIdx` within the list puts the element between the two parts of the list. -/
theorem List.insertIdx_eq_take_append_drop {β : Type} (x : β) :
    ∀ (l : List β) (i : Nat), i ≤ l.length → l.insertIdx i x = l.take i ++ x :: l.drop i
  | _, 0, _ => rfl
  | [], _ + 1, h => absurd h (by simp)
  | y :: l, i + 1, h => by
      rw [List.insertIdx_succ_cons, List.insertIdx_eq_take_append_drop x l i (by simpa using h)]
      rfl

namespace LRUCacheShard

variable {α : Type}

/-- The low-priority pool: the list up to and including `lru_low_pri_`. -/
def lowPool (s : LRUCacheShard α) : List Nat := s.lru.take s.lruLowPri

/-- The high-priority pool: the list after `lru_low_pri_`. -/
def highPool (s : LRUCacheShard α) : List Nat := s.lru.drop s.lruLowPri

/-- The sum of the charges of the handles of `l`. -/
def chargeSum (s : LRUCacheShard α) (l : List Nat) : Nat := (l.map fun h => (s.heap h).charge).sum

/-- The list and its pools as the code keeps them. -/
structure PoolInv (s : LRUCacheShard α) : Prop where
  nodup : s.lru.Nodup
  lowPri_le : s.lruLowPri ≤ s.lru.length
  low_flag : ∀ h ∈ s.lowPool, (s.heap h).inHighPriPool = false
  high_flag : ∀ h ∈ s.highPool, (s.heap h).inHighPriPool = true
  highPriPoolUsage_eq : s.highPriPoolUsage = s.chargeSum s.highPool

/-- What a call on the list leaves alone: the settings and counters other than the list's, the
table, the handles allocated and freed, and every field of every handle but its pool flag. -/
structure ListFrame (s s' : LRUCacheShard α) : Prop where
  capacity : s'.capacity = s.capacity
  strictCapacityLimit : s'.strictCapacityLimit = s.strictCapacityLimit
  highPriPoolRatio : s'.highPriPoolRatio = s.highPriPoolRatio
  highPriPoolCapacity : s'.highPriPoolCapacity = s.highPriPoolCapacity
  usage : s'.usage = s.usage
  table : s'.table = s.table
  nextHandle : s'.nextHandle = s.nextHandle
  freed : s'.freed = s.freed
  heap : ∀ h, s'.heap h = { s.heap h with inHighPriPool := (s'.heap h).inHighPriPool }

namespace ListFrame

theorem refl (s : LRUCacheShard α) : ListFrame s s :=
  ⟨rfl, rfl, rfl, rfl, rfl, rfl, rfl, rfl, fun _ => rfl⟩

theorem trans {s₁ s₂ s₃ : LRUCacheShard α} (h₁₂ : ListFrame s₁ s₂) (h₂₃ : ListFrame s₂ s₃) :
    ListFrame s₁ s₃ where
  capacity := h₂₃.capacity.trans h₁₂.capacity
  strictCapacityLimit := h₂₃.strictCapacityLimit.trans h₁₂.strictCapacityLimit
  highPriPoolRatio := h₂₃.highPriPoolRatio.trans h₁₂.highPriPoolRatio
  highPriPoolCapacity := h₂₃.highPriPoolCapacity.trans h₁₂.highPriPoolCapacity
  usage := h₂₃.usage.trans h₁₂.usage
  table := h₂₃.table.trans h₁₂.table
  nextHandle := h₂₃.nextHandle.trans h₁₂.nextHandle
  freed := h₂₃.freed.trans h₁₂.freed
  heap h := by rw [h₂₃.heap h, h₁₂.heap h]

variable {s s' : LRUCacheShard α}

theorem charge (hf : ListFrame s s') (h : Nat) : (s'.heap h).charge = (s.heap h).charge := by
  rw [hf.heap h]

theorem refs (hf : ListFrame s s') (h : Nat) : (s'.heap h).refs = (s.heap h).refs := by
  rw [hf.heap h]

theorem inCache (hf : ListFrame s s') (h : Nat) : (s'.heap h).inCache = (s.heap h).inCache := by
  rw [hf.heap h]

theorem key (hf : ListFrame s s') (h : Nat) : (s'.heap h).key = (s.heap h).key := by
  rw [hf.heap h]

theorem hash (hf : ListFrame s s') (h : Nat) : (s'.heap h).hash = (s.heap h).hash := by
  rw [hf.heap h]

/-- The pool flag of a handle set to `b`, as `LRU_Insert` and `MaintainPoolSize` set it. -/
theorem modifyHandle (s : LRUCacheShard α) (e : Nat) (b : Bool) :
    ListFrame s (s.modifyHandle e fun h => { h with inHighPriPool := b }) where
  capacity := rfl
  strictCapacityLimit := rfl
  highPriPoolRatio := rfl
  highPriPoolCapacity := rfl
  usage := rfl
  table := rfl
  nextHandle := rfl
  freed := rfl
  heap h := by
    by_cases hh : h = e
    · subst hh
      simp [LRUCacheShard.modifyHandle]
    · simp [LRUCacheShard.modifyHandle, Function.update_of_ne hh]

end ListFrame

/-- The pools read off a list cut in two, with the low-priority pool as the first part. -/
theorem PoolInv.of_split {s : LRUCacheShard α} (low high : List Nat)
    (hlru : s.lru = low ++ high) (hlow : s.lruLowPri = low.length) (hnodup : (low ++ high).Nodup)
    (hlowf : ∀ h ∈ low, (s.heap h).inHighPriPool = false)
    (hhighf : ∀ h ∈ high, (s.heap h).inHighPriPool = true)
    (husage : s.highPriPoolUsage = s.chargeSum high) : s.PoolInv := by
  have htake : s.lowPool = low := by rw [lowPool, hlru, hlow, List.take_left]
  have hdrop : s.highPool = high := by rw [highPool, hlru, hlow, List.drop_left]
  exact {
    nodup := hlru ▸ hnodup
    lowPri_le := by rw [hlru, hlow, List.length_append]; omega
    low_flag := htake ▸ hlowf
    high_flag := hdrop ▸ hhighf
    highPriPoolUsage_eq := hdrop ▸ husage }

/-- The pools depend only on the list, `lru_low_pri_`, the pool flags and charges of the
handles, and the pool's usage. -/
theorem PoolInv.of_eq {s s' : LRUCacheShard α} (hp : s.PoolInv) (hlru : s'.lru = s.lru)
    (hlow : s'.lruLowPri = s.lruLowPri)
    (hflag : ∀ h, (s'.heap h).inHighPriPool = (s.heap h).inHighPriPool)
    (hcharge : ∀ h, (s'.heap h).charge = (s.heap h).charge)
    (husage : s'.highPriPoolUsage = s.highPriPoolUsage) : s'.PoolInv where
  nodup := hlru ▸ hp.nodup
  lowPri_le := hlru ▸ hlow ▸ hp.lowPri_le
  low_flag := by simpa [lowPool, hlru, hlow, hflag] using hp.low_flag
  high_flag := by simpa [highPool, hlru, hlow, hflag] using hp.high_flag
  highPriPoolUsage_eq := by
    simpa [highPool, chargeSum, hlru, hlow, hcharge, husage] using hp.highPriPoolUsage_eq

theorem lowPool_append_highPool (s : LRUCacheShard α) : s.lowPool ++ s.highPool = s.lru :=
  List.take_append_drop _ _

theorem PoolInv.length_lowPool {s : LRUCacheShard α} (hp : s.PoolInv) :
    s.lowPool.length = s.lruLowPri := by
  rw [lowPool, List.length_take]
  exact Nat.min_eq_left hp.lowPri_le

theorem chargeSum_erase (s : LRUCacheShard α) {l : List Nat} {e : Nat} (he : e ∈ l) :
    s.chargeSum (l.erase e) = s.chargeSum l - (s.heap e).charge := by
  have h := List.sum_map_erase (fun h => (s.heap h).charge) he
  rw [chargeSum, chargeSum, ← h]
  omega

/-! ## `LRU_Remove` -/

/-- What `LRU_Remove(e)` leaves when its `assert`s hold. -/
@[simps] def unlink (s : LRUCacheShard α) (e : Nat) : LRUCacheShard α :=
  { s with
    lru := s.lru.erase e
    lruLowPri := if s.lru.idxOf e < s.lruLowPri then s.lruLowPri - 1 else s.lruLowPri
    lruUsage := s.lruUsage - (s.heap e).charge
    highPriPoolUsage :=
      if (s.heap e).inHighPriPool then s.highPriPoolUsage - (s.heap e).charge
      else s.highPriPoolUsage }

section Remove

variable {s : LRUCacheShard α} {e : Nat}

/-- A handle of the list is in the low-priority pool exactly when it comes before
`lru_low_pri_`'s successor. -/
theorem PoolInv.idxOf_lt_iff (hp : s.PoolInv) :
    s.lru.idxOf e < s.lruLowPri ↔ e ∈ s.lowPool := by
  rw [← lowPool_append_highPool s, ← hp.length_lowPool]
  by_cases hlow : e ∈ s.lowPool
  · rw [List.idxOf_append_of_mem hlow]
    exact iff_of_true (List.idxOf_lt_length_iff.mpr hlow) hlow
  · rw [List.idxOf_append_of_notMem hlow]
    exact iff_of_false (by omega) hlow

/-- A handle of the list is in the high-priority pool exactly when it is flagged so. -/
theorem PoolInv.mem_highPool_iff (hp : s.PoolInv) (he : e ∈ s.lru) :
    e ∈ s.highPool ↔ (s.heap e).inHighPriPool = true := by
  constructor
  · exact hp.high_flag e
  · intro hflag
    rw [← lowPool_append_highPool s] at he
    rcases List.mem_append.mp he with hlow | hhigh
    · rw [hp.low_flag e hlow] at hflag
      cases hflag
    · exact hhigh

/-- `LRU_Remove` of a handle on the list passes its `assert`s. -/
theorem PoolInv.lruRemove_eq (hp : s.PoolInv) (he : e ∈ s.lru) :
    s.lruRemove e = .ok (s.unlink e) := by
  have hlt : ¬ s.lru.length ≤ s.lru.idxOf e := Nat.not_le.mpr (List.idxOf_lt_length_iff.mpr he)
  unfold lruRemove
  simp only [if_neg hlt, List.eraseIdx_idxOf_eq_erase]
  split
  · -- a handle of the high-priority pool: its charge is part of the pool's usage
    rename_i hflag
    have hhigh : e ∈ s.highPool := (hp.mem_highPool_iff he).mpr hflag
    have hle : (s.heap e).charge ≤ s.highPriPoolUsage := by
      rw [hp.highPriPoolUsage_eq, chargeSum]
      exact List.le_sum_of_mem (List.mem_map_of_mem hhigh)
    simp only [if_neg (Nat.not_lt.mpr hle)]
    simp [unlink, hflag]
    rfl
  · rename_i hflag
    simp [unlink, hflag]
    rfl

/-- `LRU_Remove` keeps the pools: the handle leaves the pool it was in. -/
theorem PoolInv.unlink (hp : s.PoolInv) (he : e ∈ s.lru) : (s.unlink e).PoolInv := by
  have hnodup : (s.lowPool ++ s.highPool).Nodup := (lowPool_append_highPool s).symm ▸ hp.nodup
  by_cases hlow : e ∈ s.lowPool
  · -- the low-priority pool loses `e` and `lru_low_pri_` moves back if it was `e`
    have hflag := hp.low_flag e hlow
    refine PoolInv.of_split (s.lowPool.erase e) s.highPool ?_ ?_ ?_ ?_ ?_ ?_
    · rw [unlink_lru, ← lowPool_append_highPool s, List.erase_append_left _ hlow]
    · rw [unlink_lruLowPri, if_pos (hp.idxOf_lt_iff.mpr hlow), List.length_erase_of_mem hlow,
        hp.length_lowPool]
    · rw [← List.erase_append_left _ hlow]
      exact hnodup.erase e
    · exact fun h hh => hp.low_flag h (List.mem_of_mem_erase hh)
    · exact hp.high_flag
    · simp only [unlink_highPriPoolUsage, hflag, Bool.false_eq_true, if_false]
      exact hp.highPriPoolUsage_eq
  · -- the high-priority pool loses `e`
    have hhigh : e ∈ s.highPool := by
      rw [← lowPool_append_highPool s] at he
      exact (List.mem_append.mp he).resolve_left hlow
    have hflag := hp.high_flag e hhigh
    refine PoolInv.of_split s.lowPool (s.highPool.erase e) ?_ ?_ ?_ ?_ ?_ ?_
    · rw [unlink_lru, ← lowPool_append_highPool s, List.erase_append_right _ hlow]
    · rw [unlink_lruLowPri, if_neg (fun h => hlow (hp.idxOf_lt_iff.mp h)),
        hp.length_lowPool]
    · rw [← List.erase_append_right _ hlow]
      exact hnodup.erase e
    · exact hp.low_flag
    · exact fun h hh => hp.high_flag h (List.mem_of_mem_erase hh)
    · simp only [unlink_highPriPoolUsage, hflag, if_true]
      rw [hp.highPriPoolUsage_eq]
      exact (chargeSum_erase s hhigh).symm

end Remove

/-! ## `MaintainPoolSize` -/

section Maintain

/-- The loop of `MaintainPoolSize`, with more turns than handles in the high-priority pool:
each turn moves `lru_low_pri_` one handle on, into the low-priority pool, and the loop stops
with the pool within its capacity. -/
theorem PoolInv.maintainPoolSizeLoop :
    ∀ (fuel : Nat) (s : LRUCacheShard α), s.PoolInv → 0 ≤ s.highPriPoolCapacity →
      s.lru.length - s.lruLowPri < fuel →
      ∃ s', maintainPoolSizeLoop fuel s = .ok s' ∧ s'.PoolInv ∧ ListFrame s s' ∧
        s'.lru = s.lru ∧ s'.lruUsage = s.lruUsage ∧
        (s'.highPriPoolUsage : ℚ) ≤ s'.highPriPoolCapacity
  | 0, _, _, _, hfuel => absurd hfuel (Nat.not_lt_zero _)
  | fuel + 1, s, hp, hcap, hfuel => by
      rw [LRUCacheShard.maintainPoolSizeLoop]
      split
      · rename_i hover
        -- over a capacity that is not negative, the pool holds a handle
        have hlt : s.lruLowPri < s.lru.length := by
          by_contra hge
          have hnil : s.highPool = [] := List.drop_eq_nil_of_le (Nat.not_lt.mp hge)
          rw [hp.highPriPoolUsage_eq, hnil] at hover
          simp only [chargeSum, List.map_nil, List.sum_nil, Nat.cast_zero] at hover
          exact absurd hcap (not_le.mpr hover)
        rw [List.getElem?_eq_getElem hlt]
        dsimp only
        -- `x`, the oldest handle of the high-priority pool, moves to the other pool
        set x := s.lru[s.lruLowPri]
        have hhigh : s.highPool = x :: s.lru.drop (s.lruLowPri + 1) :=
          List.drop_eq_getElem_cons hlt
        have hnodup : (s.lowPool ++ x :: s.lru.drop (s.lruLowPri + 1)).Nodup := by
          rw [← hhigh, lowPool_append_highPool]
          exact hp.nodup
        have hxlow : x ∉ s.lowPool := fun h => List.disjoint_of_nodup_append hnodup h
          (List.mem_cons_self ..)
        have hxrest : x ∉ s.lru.drop (s.lruLowPri + 1) :=
          (List.nodup_cons.mp (List.nodup_append.mp hnodup).2.1).1
        have hframe := ListFrame.modifyHandle s x false
        have hflag : ∀ h, h ≠ x → ((s.modifyHandle x fun h => { h with inHighPriPool := false }).heap
            h).inHighPriPool = (s.heap h).inHighPriPool := fun h hne => by
          simp [LRUCacheShard.modifyHandle, Function.update_of_ne hne]
        have hp₁ : PoolInv { s.modifyHandle x (fun h => { h with inHighPriPool := false }) with
            lruLowPri := s.lruLowPri + 1
            highPriPoolUsage := s.highPriPoolUsage - (s.heap x).charge } := by
          refine PoolInv.of_split (s.lowPool ++ [x]) (s.lru.drop (s.lruLowPri + 1)) ?_ ?_ ?_ ?_ ?_ ?_
          · change s.lru = _
            rw [List.append_assoc, List.singleton_append, ← hhigh, lowPool_append_highPool]
          · change s.lruLowPri + 1 = _
            rw [List.length_append, hp.length_lowPool, List.length_singleton]
          · simpa using hnodup
          · intro h hh
            rcases List.mem_append.mp hh with hh | hh
            · rw [hflag h (fun heq => hxlow (heq ▸ hh))]
              exact hp.low_flag h hh
            · rw [List.mem_singleton.mp hh]
              simp [LRUCacheShard.modifyHandle]
          · intro h hh
            rw [hflag h (fun heq => hxrest (heq ▸ hh))]
            exact hp.high_flag h (hhigh ▸ List.mem_cons_of_mem _ hh)
          · change s.highPriPoolUsage - (s.heap x).charge = _
            have hsum : s.chargeSum s.highPool =
                (s.heap x).charge + s.chargeSum (s.lru.drop (s.lruLowPri + 1)) := by
              rw [hhigh]
              simp [chargeSum]
            simp only [chargeSum, hframe.charge]
            rw [hp.highPriPoolUsage_eq, hsum]
            simp [chargeSum]
        obtain ⟨s', hloop, hp', hf', hlru', husage', hfit'⟩ :=
          PoolInv.maintainPoolSizeLoop fuel _ hp₁ hcap
            (by show s.lru.length - (s.lruLowPri + 1) < fuel; omega)
        refine ⟨s', hloop, hp', ListFrame.trans ?_ hf', hlru', husage', hfit'⟩
        exact ⟨rfl, rfl, rfl, rfl, rfl, rfl, rfl, rfl, hframe.heap⟩
      · rename_i hfit
        exact ⟨s, rfl, hp, ListFrame.refl s, rfl, rfl, not_lt.mp hfit⟩

/-- `MaintainPoolSize` never fails when the capacity of the high-priority pool is not
negative, and leaves the pool within it. -/
theorem PoolInv.maintainPoolSize {s : LRUCacheShard α} (hp : s.PoolInv)
    (hcap : 0 ≤ s.highPriPoolCapacity) :
    ∃ s', s.maintainPoolSize = .ok s' ∧ s'.PoolInv ∧ ListFrame s s' ∧
      s'.lru = s.lru ∧ s'.lruUsage = s.lruUsage ∧
      (s'.highPriPoolUsage : ℚ) ≤ s'.highPriPoolCapacity :=
  PoolInv.maintainPoolSizeLoop _ s hp hcap (by omega)

end Maintain

/-! ## `LRU_Insert` -/

section Insert

variable {s : LRUCacheShard α} {e : Nat}

/-- `LRU_Insert` adds a handle that is not on the list, to the high-priority pool or to the
newest end of the low-priority pool, and keeps the pools. -/
theorem PoolInv.lruInsert (hp : s.PoolInv) (he : e ∉ s.lru)
    (hcap : 0 ≤ s.highPriPoolCapacity) :
    ∃ s', s.lruInsert e = .ok s' ∧ s'.PoolInv ∧ ListFrame s s' ∧
      s'.lru.Perm (s.lru ++ [e]) ∧ s'.lruUsage = s.lruUsage + (s.heap e).charge := by
  have hnodup : (s.lru ++ [e]).Nodup := List.nodup_append.mpr
    ⟨hp.nodup, List.nodup_singleton e, fun a ha b hb => by
      rw [List.mem_singleton.mp hb]; exact fun h => he (h ▸ ha)⟩
  have hne : ∀ h ∈ s.lru, h ≠ e := fun h hh heq => he (heq ▸ hh)
  unfold LRUCacheShard.lruInsert
  split
  · -- to the newest end of the list, in the high-priority pool
    have hframe := ListFrame.modifyHandle s e true
    have hp₁ : PoolInv { s.modifyHandle e (fun h => { h with inHighPriPool := true }) with
        lru := s.lru ++ [e]
        highPriPoolUsage := s.highPriPoolUsage + (s.heap e).charge } := by
      refine PoolInv.of_split s.lowPool (s.highPool ++ [e]) ?_ ?_ ?_ ?_ ?_ ?_
      · change s.lru ++ [e] = _
        rw [← List.append_assoc, lowPool_append_highPool]
      · exact hp.length_lowPool.symm
      · rwa [← List.append_assoc, lowPool_append_highPool]
      · intro h hh
        have hmem : h ∈ s.lru := lowPool_append_highPool s ▸ List.mem_append_left _ hh
        simp only [LRUCacheShard.modifyHandle, Function.update_of_ne (hne h hmem)]
        exact hp.low_flag h hh
      · intro h hh
        rcases List.mem_append.mp hh with hh | hh
        · have hmem : h ∈ s.lru := lowPool_append_highPool s ▸ List.mem_append_right _ hh
          simp only [LRUCacheShard.modifyHandle, Function.update_of_ne (hne h hmem)]
          exact hp.high_flag h hh
        · rw [List.mem_singleton.mp hh]
          simp [LRUCacheShard.modifyHandle]
      · change s.highPriPoolUsage + (s.heap e).charge = _
        simp only [chargeSum, hframe.charge]
        rw [hp.highPriPoolUsage_eq]
        simp [chargeSum]
    obtain ⟨s₂, hmaint, hp₂, hf₂, hlru₂, husage₂, -⟩ := hp₁.maintainPoolSize hcap
    have hf₁₂ : ListFrame s s₂ := by
      refine ListFrame.trans ?_ hf₂
      exact ⟨rfl, rfl, rfl, rfl, rfl, rfl, rfl, rfl, hframe.heap⟩
    dsimp only at hmaint ⊢
    rw [hmaint]
    refine ⟨_, rfl, hp₂.of_eq rfl rfl (fun _ => rfl) (fun _ => rfl) rfl, ListFrame.trans hf₁₂ ⟨rfl, rfl, rfl, rfl, rfl, rfl, rfl, rfl,
      fun _ => rfl⟩, ?_, ?_⟩
    · rw [show s₂.lru = s.lru ++ [e] from hlru₂]
    · change s₂.lruUsage + (s₂.heap e).charge = _
      rw [husage₂, hf₁₂.charge]
      rfl
  · -- to the newest end of the low-priority pool
    have hframe := ListFrame.modifyHandle s e false
    have hsplit : s.lru.insertIdx s.lruLowPri e = s.lowPool ++ [e] ++ s.highPool := by
      rw [List.insertIdx_eq_take_append_drop e _ _ hp.lowPri_le, List.append_assoc,
        List.singleton_append]
      rfl
    have hperm : (s.lowPool ++ [e] ++ s.highPool).Perm (s.lru ++ [e]) := by
      rw [← lowPool_append_highPool s, List.append_assoc, List.append_assoc]
      exact List.Perm.append_left _ List.perm_append_comm
    refine ⟨_, rfl, ?_, ⟨rfl, rfl, rfl, rfl, rfl, rfl, rfl, rfl, hframe.heap⟩, ?_, ?_⟩
    · refine PoolInv.of_split (s.lowPool ++ [e]) s.highPool hsplit ?_ ?_ ?_ ?_ ?_
      · change s.lruLowPri + 1 = _
        rw [List.length_append, hp.length_lowPool, List.length_singleton]
      · exact hperm.nodup_iff.mpr hnodup
      · intro h hh
        rcases List.mem_append.mp hh with hh | hh
        · have hmem : h ∈ s.lru := lowPool_append_highPool s ▸ List.mem_append_left _ hh
          simp only [LRUCacheShard.modifyHandle, Function.update_of_ne (hne h hmem)]
          exact hp.low_flag h hh
        · rw [List.mem_singleton.mp hh]
          simp [LRUCacheShard.modifyHandle]
      · intro h hh
        have hmem : h ∈ s.lru := lowPool_append_highPool s ▸ List.mem_append_right _ hh
        simp only [LRUCacheShard.modifyHandle, Function.update_of_ne (hne h hmem)]
        exact hp.high_flag h hh
      · change s.highPriPoolUsage = _
        simp only [chargeSum, hframe.charge]
        exact hp.highPriPoolUsage_eq
    · change (s.lru.insertIdx s.lruLowPri e).Perm _
      rw [hsplit]
      exact hperm
    · simp [LRUCacheShard.modifyHandle]

end Insert

end LRUCacheShard

end RocksCloud.Cache
