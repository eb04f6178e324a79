import Mathlib
import RocksCloud.Lib.Interleaving
import RocksCloud.Db.MemTable

/-!
# The sequence-number bounds of a memtable, `first_seqno_` and `earliest_seqno_`

`MemTable` keeps two atomics: `first_seqno_`, the first sequence number added (`0` while the
memtable is empty), and `earliest_seqno_`, a bound below every sequence number the memtable
may hold, which the constructor sets to `latest_seq`. After `MemTable::Add` has put its entry in
the rep, it updates them.

* Without concurrent writers (`SeqnoCells.add`), `first_seqno_` takes the first sequence
  number, and `earliest_seqno_` takes it too when it was still `kMaxSequenceNumber`.
* With `allow_concurrent`, each writer runs two compare-and-swap loops (`Writer.step`). The first
  lowers `first_seqno_` to its sequence number. The second is meant to lower `earliest_seqno_`,
  but it loads `earliest_seqno_` and then compare-exchanges `first_seqno_`, so no concurrent
  writer ever stores into `earliest_seqno_`.

Results:
* `addAll_eq`: sequential adds with nondecreasing positive sequence numbers leave
  `first_seqno_` at the first of them, and `earliest_seqno_` at it or at `latest_seq`; the
  second assert fails when `latest_seq` is neither `kMaxSequenceNumber` nor at most the first.
* `reaches_seqnoInv` and `allDone_seqnos`: over every interleaving of concurrent writers with
  sequence numbers in `1..kMaxSequenceNumber`, once all are done `first_seqno_` is the least of
  them and `earliest_seqno_` is still `latest_seq`.
* `concurrent_add_leaves_earliest_at_max`: a memtable made with `latest_seq` equal to
  `kMaxSequenceNumber` and one concurrent add of sequence number `1` ends with
  `GetEarliestSequenceNumber()` above `GetFirstSequenceNumber()`.

Only the writers whose insert into the rep succeeded reach these updates; a writer whose insert
failed returns before them and is left out.
-/

set_option autoImplicit false

namespace RocksCloud.Db

open RocksCloud.Lib.Interleaving

/-- The atomics `first_seqno_` and `earliest_seqno_`. -/
structure SeqnoCells where
  firstSeqno : Nat
  earliestSeqno : Nat
  deriving Repr, DecidableEq

namespace SeqnoCells

/-- The constructor: `first_seqno_(0)`, `earliest_seqno_(latest_seq)`. -/
def new (latestSeq : Nat) : SeqnoCells := ⟨0, latestSeq⟩

/-- `GetFirstSequenceNumber()`. -/
def getFirstSequenceNumber (c : SeqnoCells) : Nat := c.firstSeqno

/-- `GetEarliestSequenceNumber()`. -/
def getEarliestSequenceNumber (c : SeqnoCells) : Nat := c.earliestSeqno

/-- The end of `MemTable::Add(s, ...)` without concurrent writers. The asserts fail as
`throw`. -/
def add (c : SeqnoCells) (s : Nat) : Except String SeqnoCells := do
  if !(c.firstSeqno = 0 ∨ s ≥ c.firstSeqno) then throw "assertion failed"
  if c.firstSeqno = 0 then
    let c := { c with firstSeqno := s }
    let c := if c.earliestSeqno = kMaxSequenceNumber then { c with earliestSeqno := c.firstSeqno }
      else c
    if !(c.firstSeqno ≥ c.earliestSeqno) then throw "assertion failed"
    pure c
  else pure c

/-- Adds one after another. -/
def addAll (c : SeqnoCells) (seqs : List Nat) : Except String SeqnoCells :=
  seqs.foldlM add c

/-! ## Without concurrent writers -/

/-- Once the memtable holds something, later sequence numbers change nothing. -/
theorem add_of_ne_zero {c : SeqnoCells} (hc : c.firstSeqno ≠ 0) {s : Nat}
    (hs : c.firstSeqno ≤ s) : c.add s = .ok c := by
  simp [add, hc, hs, pure, Except.pure]

theorem addAll_of_ne_zero {c : SeqnoCells} (hc : c.firstSeqno ≠ 0) :
    ∀ seqs : List Nat, (∀ s ∈ seqs, c.firstSeqno ≤ s) → c.addAll seqs = .ok c
  | [], _ => rfl
  | s :: seqs, hs => by
      have hrest := addAll_of_ne_zero hc seqs (fun s' h => hs s' (List.mem_cons_of_mem _ h))
      simp only [addAll, List.foldlM_cons, add_of_ne_zero hc (hs s List.mem_cons_self)] at hrest ⊢
      exact hrest

/-- The first add to an empty memtable. -/
theorem new_add (latestSeq s : Nat) :
    (new latestSeq).add s =
      if latestSeq = kMaxSequenceNumber then .ok ⟨s, s⟩
      else if latestSeq ≤ s then .ok ⟨s, latestSeq⟩ else .error "assertion failed" := by
  by_cases hmax : latestSeq = kMaxSequenceNumber
  · simp [add, new, hmax, pure, Except.pure]
  · by_cases hle : latestSeq ≤ s
    · simp [add, new, hmax, hle, pure, Except.pure]
    · simp [add, new, hmax, hle]
      rfl

/-- **Sequential adds.** With nondecreasing positive sequence numbers, `first_seqno_` ends at the
first one, the least, and `earliest_seqno_` at it when the memtable was made with
`kMaxSequenceNumber`, at `latest_seq` otherwise; the second assert fails when `latest_seq` is
above the first sequence number. -/
theorem addAll_eq (latestSeq : Nat) {s₀ : Nat} {rest : List Nat} (hpos : 0 < s₀)
    (hsorted : (s₀ :: rest).IsChain (· ≤ ·)) :
    (new latestSeq).addAll (s₀ :: rest) =
      if latestSeq = kMaxSequenceNumber then .ok ⟨s₀, s₀⟩
      else if latestSeq ≤ s₀ then .ok ⟨s₀, latestSeq⟩ else .error "assertion failed" := by
  have hge : ∀ s ∈ rest, s₀ ≤ s :=
    (List.pairwise_cons.mp (List.isChain_iff_pairwise.mp hsorted)).1
  have hrest : ∀ e, (⟨s₀, e⟩ : SeqnoCells).addAll rest = .ok ⟨s₀, e⟩ := fun e =>
    addAll_of_ne_zero (Nat.pos_iff_ne_zero.mp hpos) rest hge
  simp only [addAll, List.foldlM_cons, new_add] at hrest ⊢
  split_ifs
  · exact hrest s₀
  · exact hrest latestSeq
  · rfl

end SeqnoCells

/-! ## Concurrent writers -/

/-- Where a concurrent writer is in `MemTable::Add` after its insert into the rep. -/
inductive AddPc where
  /-- before `cur_seq_num = first_seqno_.load()` -/
  | loadFirst
  /-- in the loop that lowers `first_seqno_` -/
  | firstLoop (curSeqNum : Nat)
  /-- before `cur_earliest_seqno = earliest_seqno_.load()` -/
  | loadEarliest
  /-- in the second loop -/
  | secondLoop (curEarliestSeqno : Nat)
  | done
  deriving Repr, DecidableEq

/-- A concurrent writer: the sequence number it added, and where it is. -/
structure Writer where
  s : Nat
  pc : AddPc
  deriving Repr, DecidableEq

namespace Writer

/-- One atomic action of a writer. `spurious` is whether a `compare_exchange_weak` fails
although the cell holds the expected value. A loop's condition reads only the writer's locals,
so it is taken with the exchange. -/
def step (w : Writer) (c : SeqnoCells) (spurious : Bool) : Writer × SeqnoCells :=
  match w.pc with
  | .loadFirst => (⟨w.s, .firstLoop c.firstSeqno⟩, c)
  | .firstLoop cur =>
      if cur = 0 ∨ w.s < cur then
        let r := compareExchangeWeak c.firstSeqno cur w.s spurious
        (⟨w.s, if r.1 then .loadEarliest else .firstLoop r.2.1⟩, { c with firstSeqno := r.2.2 })
      else (⟨w.s, .loadEarliest⟩, c)
  | .loadEarliest => (⟨w.s, .secondLoop c.earliestSeqno⟩, c)
  | .secondLoop cur =>
      -- the source exchanges `first_seqno_` here, not `earliest_seqno_`
      if cur = kMaxSequenceNumber ∨ w.s < cur then
        let r := compareExchangeWeak c.firstSeqno cur w.s spurious
        (⟨w.s, if r.1 then .done else .secondLoop r.2.1⟩, { c with firstSeqno := r.2.2 })
      else (⟨w.s, .done⟩, c)
  | .done => (w, c)

/-- The writers of the given sequence numbers, none started. -/
def start (seqs : List Nat) : List Writer := seqs.map (⟨·, .loadFirst⟩)

/-- Every writer has returned. -/
def AllDone (ws : List Writer) : Prop := ∀ w ∈ ws, w.pc = .done

instance (ws : List Writer) : Decidable (AllDone ws) := by
  unfold AllDone
  infer_instance

@[simp] theorem s_step (w : Writer) (c : SeqnoCells) (b : Bool) : (w.step c b).1.s = w.s := by
  unfold step
  split <;> (try split) <;> rfl

/-- No concurrent writer stores into `earliest_seqno_`. -/
@[simp] theorem earliestSeqno_step (w : Writer) (c : SeqnoCells) (b : Bool) :
    (w.step c b).2.earliestSeqno = c.earliestSeqno := by
  unfold step
  split <;> (try split) <;> rfl

/-- What a writer knows of `first_seqno_`: in the first loop, its `cur_seq_num` is `0` or not
above `first_seqno_`'s positive value; past the first loop, `first_seqno_` is positive and not
above its own sequence number. -/
def Knows (c : SeqnoCells) (w : Writer) : Prop :=
  match w.pc with
  | .loadFirst => True
  | .firstLoop cur => cur = 0 ∨ 0 < c.firstSeqno ∧ c.firstSeqno ≤ cur
  | _ => 0 < c.firstSeqno ∧ c.firstSeqno ≤ w.s

/-- `first_seqno_` only goes down, or up from `0`, and never back to `0`. -/
def Lowers (c c' : SeqnoCells) : Prop :=
  c'.firstSeqno = c.firstSeqno ∨ 0 < c'.firstSeqno ∧ (c.firstSeqno = 0 ∨ c'.firstSeqno < c.firstSeqno)

/-- What a writer knows stays true while `first_seqno_` lowers. -/
theorem Knows.of_lowers {c c' : SeqnoCells} {w : Writer} (hk : Knows c w) (hl : Lowers c c') :
    Knows c' w := by
  rcases hl with heq | ⟨hpos, hlow⟩
  · unfold Knows
    rw [heq]
    exact hk
  · cases hpc : w.pc <;> simp only [Knows, hpc] at hk ⊢ <;> omega

section Step

variable {w : Writer} {c : SeqnoCells} (b : Bool)

/-- The first loop: it leaves, it stores the writer's sequence number over the `first_seqno_` it
expected, or it reloads `first_seqno_`. -/
theorem step_firstLoop {cur : Nat} (hpc : w.pc = .firstLoop cur) :
    (¬(cur = 0 ∨ w.s < cur) ∧ w.step c b = (⟨w.s, .loadEarliest⟩, c)) ∨
      ((cur = 0 ∨ w.s < cur) ∧ c.firstSeqno = cur ∧
        w.step c b = (⟨w.s, .loadEarliest⟩, { c with firstSeqno := w.s })) ∨
      w.step c b = (⟨w.s, .firstLoop c.firstSeqno⟩, c) := by
  unfold step
  rw [hpc]
  dsimp only
  by_cases hcond : cur = 0 ∨ w.s < cur
  · rw [if_pos hcond]
    rcases compareExchangeWeak_eq c.firstSeqno cur w.s b with ⟨hc, hr⟩ | hr <;> rw [hr]
    · exact Or.inr (Or.inl ⟨hcond, hc, rfl⟩)
    · exact Or.inr (Or.inr rfl)
  · rw [if_neg hcond]
    exact Or.inl ⟨hcond, rfl⟩

/-- The second loop, with the exchange on `first_seqno_`. -/
theorem step_secondLoop {cur : Nat} (hpc : w.pc = .secondLoop cur) :
    (¬(cur = kMaxSequenceNumber ∨ w.s < cur) ∧ w.step c b = (⟨w.s, .done⟩, c)) ∨
      ((cur = kMaxSequenceNumber ∨ w.s < cur) ∧ c.firstSeqno = cur ∧
        w.step c b = (⟨w.s, .done⟩, { c with firstSeqno := w.s })) ∨
      w.step c b = (⟨w.s, .secondLoop c.firstSeqno⟩, c) := by
  unfold step
  rw [hpc]
  dsimp only
  by_cases hcond : cur = kMaxSequenceNumber ∨ w.s < cur
  · rw [if_pos hcond]
    rcases compareExchangeWeak_eq c.firstSeqno cur w.s b with ⟨hc, hr⟩ | hr <;> rw [hr]
    · exact Or.inr (Or.inl ⟨hcond, hc, rfl⟩)
    · exact Or.inr (Or.inr rfl)
  · rw [if_neg hcond]
    exact Or.inl ⟨hcond, rfl⟩

/-- A writer's action leaves `first_seqno_` as it was or stores the writer's sequence number. -/
theorem firstSeqno_step :
    (w.step c b).2.firstSeqno = c.firstSeqno ∨ (w.step c b).2.firstSeqno = w.s := by
  cases hpc : w.pc with
  | firstLoop cur =>
      rcases step_firstLoop b hpc with ⟨-, hst⟩ | ⟨-, -, hst⟩ | hst <;> rw [hst]
      · exact Or.inl rfl
      · exact Or.inr rfl
      · exact Or.inl rfl
  | secondLoop cur =>
      rcases step_secondLoop b hpc with ⟨-, hst⟩ | ⟨-, -, hst⟩ | hst <;> rw [hst]
      · exact Or.inl rfl
      · exact Or.inr rfl
      · exact Or.inl rfl
  | loadFirst | loadEarliest | done =>
      unfold step
      rw [hpc]
      exact Or.inl rfl

/-- The second loop never moves `first_seqno_`: past the first loop `first_seqno_` is at most
the writer's sequence number, so an exchange succeeds only when both are
`kMaxSequenceNumber`. -/
theorem firstSeqno_step_secondLoop {cur : Nat} (hpc : w.pc = .secondLoop cur)
    (hk : Knows c w) (hmax : w.s ≤ kMaxSequenceNumber) :
    (w.step c b).2.firstSeqno = c.firstSeqno := by
  simp only [Knows, hpc] at hk
  rcases step_secondLoop b hpc with ⟨-, hst⟩ | ⟨hcond, hc, hst⟩ | hst <;> rw [hst]
  · dsimp only
    omega

/-- **Guarantee**: every action lowers `first_seqno_`. -/
theorem lowers_step (hk : Knows c w) (hpos : 0 < w.s) (hmax : w.s ≤ kMaxSequenceNumber) :
    Lowers c (w.step c b).2 := by
  cases hpc : w.pc with
  | firstLoop cur =>
      simp only [Knows, hpc] at hk
      rcases step_firstLoop b hpc with ⟨-, hst⟩ | ⟨hcond, hc, hst⟩ | hst <;> rw [hst]
      · exact Or.inl rfl
      · -- the exchange stored `w.s` below the `first_seqno_` it expected, or over `0`
        right
        dsimp only
        omega
      · exact Or.inl rfl
  | secondLoop cur => exact Or.inl (firstSeqno_step_secondLoop b hpc hk hmax)
  | loadFirst | loadEarliest | done =>
      unfold step
      rw [hpc]
      exact Or.inl rfl

/-- What the acting writer knows after its action. -/
theorem knows_step (hk : Knows c w) (hpos : 0 < w.s) :
    Knows (w.step c b).2 (w.step c b).1 := by
  cases hpc : w.pc with
  | loadFirst =>
      simp only [step, hpc, Knows]
      omega
  | firstLoop cur =>
      simp only [Knows, hpc] at hk
      rcases step_firstLoop b hpc with ⟨hcond, hst⟩ | ⟨-, -, hst⟩ | hst <;>
        rw [hst] <;> simp only [Knows] <;> omega
  | loadEarliest =>
      simp only [Knows, hpc] at hk
      simp only [step, hpc, Knows]
      exact hk
  | secondLoop cur =>
      simp only [Knows, hpc] at hk
      rcases step_secondLoop b hpc with ⟨-, hst⟩ | ⟨-, -, hst⟩ | hst <;>
        rw [hst] <;> simp only [Knows] <;> omega
  | done =>
      simp only [Knows, hpc] at hk
      simp only [step, hpc, Knows]
      exact hk

end Step

/-! ## Every writer can return -/

section Solo

/-- In the first loop, with the `first_seqno_` it loaded, a writer leaves in one action. -/
theorem step_firstLoop_self (s : Nat) (c : SeqnoCells) :
    ∃ c', step ⟨s, .firstLoop c.firstSeqno⟩ c false = (⟨s, .loadEarliest⟩, c') := by
  unfold step
  dsimp only
  by_cases hcond : c.firstSeqno = 0 ∨ s < c.firstSeqno
  · rw [if_pos hcond, compareExchangeWeak_self]
    exact ⟨_, rfl⟩
  · rw [if_neg hcond]
    exact ⟨_, rfl⟩

/-- In the second loop, with the `first_seqno_` it loaded, a writer returns in one action. -/
theorem step_secondLoop_self (s : Nat) (c : SeqnoCells) :
    ∃ c', step ⟨s, .secondLoop c.firstSeqno⟩ c false = (⟨s, .done⟩, c') := by
  unfold step
  dsimp only
  by_cases hcond : c.firstSeqno = kMaxSequenceNumber ∨ s < c.firstSeqno
  · rw [if_pos hcond, compareExchangeWeak_self]
    exact ⟨_, rfl⟩
  · rw [if_neg hcond]
    exact ⟨_, rfl⟩

/-- From the second loop a writer alone returns: the exchange succeeds, the loop's condition
fails, or the exchange fails once and loads `first_seqno_`. -/
theorem solo_secondLoop (s cur : Nat) (c : SeqnoCells) :
    ∃ c', Relation.ReflTransGen (Solo step) (⟨s, .secondLoop cur⟩, c) (⟨s, .done⟩, c') := by
  by_cases hc : c.firstSeqno = cur
  · subst hc
    obtain ⟨c', hst⟩ := step_secondLoop_self s c
    exact ⟨c', .single ⟨false, hst⟩⟩
  · by_cases hcond : cur = kMaxSequenceNumber ∨ s < cur
    · have hfail : step ⟨s, .secondLoop cur⟩ c false = (⟨s, .secondLoop c.firstSeqno⟩, c) := by
        unfold step
        dsimp only
        rw [if_pos hcond, compareExchangeWeak_of_ne hc]
        rfl
      obtain ⟨c', hst⟩ := step_secondLoop_self s c
      exact ⟨c', .tail (.single ⟨false, hfail⟩) ⟨false, hst⟩⟩
    · have hexit : step ⟨s, .secondLoop cur⟩ c false = (⟨s, .done⟩, c) := by
        unfold step
        dsimp only
        rw [if_neg hcond]
      exact ⟨c, .single ⟨false, hexit⟩⟩

/-- **A writer alone returns**, from any state of the atomics. -/
theorem solo_done (s : Nat) (c : SeqnoCells) :
    ∃ c', Relation.ReflTransGen (Solo step) (⟨s, .loadFirst⟩, c) (⟨s, .done⟩, c') := by
  have hload : step ⟨s, .loadFirst⟩ c false = (⟨s, .firstLoop c.firstSeqno⟩, c) := rfl
  obtain ⟨c₁, hfirst⟩ := step_firstLoop_self s c
  have hearliest : step ⟨s, .loadEarliest⟩ c₁ false = (⟨s, .secondLoop c₁.earliestSeqno⟩, c₁) :=
    rfl
  obtain ⟨c', hsecond⟩ := solo_secondLoop s c₁.earliestSeqno c₁
  have hrun : Relation.ReflTransGen (Solo step) (⟨s, .loadFirst⟩, c)
      (⟨s, .secondLoop c₁.earliestSeqno⟩, c₁) :=
    .tail (.tail (.single ⟨false, hload⟩) ⟨false, hfirst⟩) ⟨false, hearliest⟩
  exact ⟨c', hrun.trans hsecond⟩

end Solo

/-- **Every set of writers can return**: run them one after another. -/
theorem reaches_allDone (seqs : List Nat) (pre : List Writer) (c : SeqnoCells)
    (hpre : AllDone pre) :
    ∃ c' ws, Reaches step (c, pre ++ start seqs) (c', ws) ∧ AllDone ws := by
  -- induction on the writers not started; the ones before them have returned
  induction seqs generalizing pre c with
  | nil => exact ⟨c, pre, by rw [start, List.map_nil, List.append_nil], hpre⟩
  | cons s rest ih =>
      obtain ⟨c₁, hsolo⟩ := solo_done s c
      have hi : (pre ++ start (s :: rest))[pre.length]? = some ⟨s, .loadFirst⟩ := by
        simp [start]
      have hset : (pre ++ start (s :: rest)).set pre.length ⟨s, .done⟩ =
          (pre ++ [⟨s, .done⟩]) ++ start rest := by
        simp [start, List.set_append_right]
      have hdone : AllDone (pre ++ [⟨s, .done⟩]) := by
        intro w hw
        rcases List.mem_append.mp hw with hw | hw
        · exact hpre w hw
        · rw [List.mem_singleton.mp hw]
      have hfirst := Reaches.of_solo hi hsolo
      rw [hset] at hfirst
      obtain ⟨c', ws, hrest, hall⟩ := ih (pre ++ [⟨s, .done⟩]) c₁ hdone
      exact ⟨c', ws, hfirst.trans hrest, hall⟩

/-! ## Every interleaving -/

/-- The invariant of a run of concurrent writers of `seqs` on a memtable made with `latestSeq`. -/
structure SeqnoInv (latestSeq : Nat) (seqs : List Nat) (st : SeqnoCells × List Writer) : Prop where
  earliest : st.1.earliestSeqno = latestSeq
  seqs_eq : st.2.map (·.s) = seqs
  first_mem : st.1.firstSeqno = 0 ∨ st.1.firstSeqno ∈ seqs
  knows : ∀ w ∈ st.2, Knows st.1 w

/-- The invariant holds at the start and every action keeps it, so it holds along every
interleaving. -/
theorem reaches_seqnoInv {latestSeq : Nat} {seqs : List Nat}
    (hseqs : ∀ s ∈ seqs, 0 < s ∧ s ≤ kMaxSequenceNumber) {st : SeqnoCells × List Writer}
    (hr : Reaches step (SeqnoCells.new latestSeq, start seqs) st) : SeqnoInv latestSeq seqs st := by
  refine Reaches.invariant ?_ ?_ hr
  · -- one action of writer `i`
    intro c ws w i b hi hinv
    have hmem : w ∈ ws := List.mem_of_getElem? hi
    have hs : w.s ∈ seqs := hinv.seqs_eq ▸ List.mem_map_of_mem hmem
    obtain ⟨hpos, hmax⟩ := hseqs w.s hs
    have hk := hinv.knows w hmem
    have hlow := lowers_step b hk hpos hmax
    refine ⟨?_, ?_, ?_, ?_⟩
    · rw [earliestSeqno_step]
      exact hinv.earliest
    · rw [map_set_of_getElem? _ hi (s_step w c b)]
      exact hinv.seqs_eq
    · rcases firstSeqno_step (w := w) (c := c) b with h | h <;> rw [h]
      · exact hinv.first_mem
      · exact Or.inr hs
    · exact forall_mem_set (fun w' hw' => (hinv.knows w' hw').of_lowers hlow) i
        (knows_step b hk hpos)
  · -- the start: `first_seqno_` is `0`, no writer has loaded it
    refine ⟨rfl, ?_, Or.inl rfl, ?_⟩
    · simp [start, Function.comp_def]
    · intro w hw
      obtain ⟨s, -, rfl⟩ := List.mem_map.mp hw
      trivial

/-- **Every interleaving.** Once every concurrent writer of sequence numbers in
`1..kMaxSequenceNumber` has returned, `GetFirstSequenceNumber()` is the least of them and
`GetEarliestSequenceNumber()` is still `latest_seq`. -/
theorem allDone_seqnos {latestSeq : Nat} {seqs : List Nat} (hne : seqs ≠ [])
    (hseqs : ∀ s ∈ seqs, 0 < s ∧ s ≤ kMaxSequenceNumber) {c : SeqnoCells} {ws : List Writer}
    (hr : Reaches step (SeqnoCells.new latestSeq, start seqs) (c, ws)) (hdone : AllDone ws) :
    seqs.min? = some c.getFirstSequenceNumber ∧ c.getEarliestSequenceNumber = latestSeq := by
  have hinv := reaches_seqnoInv hseqs hr
  -- every writer is done, so each knows `0 < first_seqno_ ≤ s`
  have hle : ∀ w ∈ ws, 0 < c.firstSeqno ∧ c.firstSeqno ≤ w.s := by
    intro w hw
    have hk := hinv.knows w hw
    simp only [Knows, hdone w hw] at hk
    exact hk
  obtain ⟨s, hs⟩ := List.exists_mem_of_ne_nil seqs hne
  obtain ⟨w, hw, rfl⟩ := List.mem_map.mp (hinv.seqs_eq ▸ hs : s ∈ ws.map (·.s))
  refine ⟨List.min?_eq_some_iff.mpr ⟨?_, ?_⟩, hinv.earliest⟩
  · rcases hinv.first_mem with h0 | hmem
    · exact absurd h0 (Nat.pos_iff_ne_zero.mp (hle w hw).1)
    · exact hmem
  · intro s' hs'
    obtain ⟨w', hw', rfl⟩ := List.mem_map.mp (hinv.seqs_eq ▸ hs' : s' ∈ ws.map (·.s))
    exact (hle w' hw').2

/-- **`earliest_seqno_` stays at `kMaxSequenceNumber` under a concurrent add.** A memtable made
with `latest_seq` equal to `kMaxSequenceNumber` and one concurrent `Add` of sequence number `1`:
the add can return, and whenever it has, `GetFirstSequenceNumber()` is `1` and
`GetEarliestSequenceNumber()` is still `kMaxSequenceNumber`, above it. -/
theorem concurrent_add_leaves_earliest_at_max :
    (∃ c ws, Reaches step (SeqnoCells.new kMaxSequenceNumber, start [1]) (c, ws) ∧ AllDone ws) ∧
      ∀ c ws, Reaches step (SeqnoCells.new kMaxSequenceNumber, start [1]) (c, ws) →
        AllDone ws →
          c.getFirstSequenceNumber = 1 ∧ c.getEarliestSequenceNumber = kMaxSequenceNumber := by
  refine ⟨reaches_allDone [1] [] _ (fun _ h => absurd h List.not_mem_nil), ?_⟩
  intro c ws hr hdone
  obtain ⟨hmin, hearliest⟩ := allDone_seqnos (List.cons_ne_nil 1 []) (by decide) hr hdone
  exact ⟨(Option.some.inj hmin).symm, hearliest⟩

end Writer

end RocksCloud.Db
