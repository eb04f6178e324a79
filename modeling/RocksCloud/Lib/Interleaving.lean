import Mathlib

/-!
# Threads over a shared state

A system of threads shares a state `σ`, and each thread has a local state `τ`: its program
counter and its locals. An atomic action of a thread is a function of its local state, the
shared state and a choice `χ`, the part of the action the program does not decide (a spurious
failure of a weak compare-and-swap, say). Any interleaving of the threads' actions is a run of
`Step` (sequential consistency).

* `compareExchangeWeak`: the compare-and-swap of C++'s `compare_exchange_weak`, with its two
  outcomes in `compareExchangeWeak_eq`.
* `Reaches.invariant`: a property of the whole system that every action keeps holds along every
  interleaving.
* `forall_mem_set`: a property of every thread's local state survives an action of one of them
  when the acting thread's new state has it too.
-/

set_option autoImplicit false

namespace RocksCloud.Lib.Interleaving

variable {α σ τ χ : Type*}

/-- `cell.compare_exchange_weak(expected, desired)`: whether it succeeded, the new `expected`
and the new content of the cell. It succeeds when the cell holds `expected`, unless it fails
spuriously, and then stores `desired`; a failure loads the cell into `expected`. -/
def compareExchangeWeak [DecidableEq α] (cell expected desired : α) (spurious : Bool) :
    Bool × α × α :=
  if cell = expected ∧ spurious = false then (true, expected, desired) else (false, cell, cell)

/-- A compare-and-swap either stored `desired` over `expected`, or stored nothing and loaded the
cell. -/
theorem compareExchangeWeak_eq [DecidableEq α] (cell expected desired : α) (spurious : Bool) :
    (cell = expected ∧ compareExchangeWeak cell expected desired spurious = (true, expected, desired))
      ∨ compareExchangeWeak cell expected desired spurious = (false, cell, cell) := by
  unfold compareExchangeWeak
  split_ifs with h
  · exact Or.inl ⟨h.1, rfl⟩
  · exact Or.inr rfl

/-- Without a spurious failure, an exchange on the expected value succeeds. -/
theorem compareExchangeWeak_self [DecidableEq α] (cell desired : α) :
    compareExchangeWeak cell cell desired false = (true, cell, desired) := by
  simp [compareExchangeWeak]

/-- An exchange on another value fails and loads the cell. -/
theorem compareExchangeWeak_of_ne [DecidableEq α] {cell expected : α} (h : cell ≠ expected)
    (desired : α) (spurious : Bool) :
    compareExchangeWeak cell expected desired spurious = (false, cell, cell) := by
  simp [compareExchangeWeak, h]

/-- One atomic action: thread `i`, in local state `t`, acts with choice `c`. -/
inductive Step (act : τ → σ → χ → τ × σ) : σ × List τ → σ × List τ → Prop
  | thread {g : σ} {ts : List τ} {t : τ} (i : Nat) (hi : ts[i]? = some t) (c : χ) :
      Step act (g, ts) ((act t g c).2, ts.set i (act t g c).1)

/-- The states an interleaving reaches. -/
abbrev Reaches (act : τ → σ → χ → τ × σ) : σ × List τ → σ × List τ → Prop :=
  Relation.ReflTransGen (Step act)

variable {act : τ → σ → χ → τ × σ}

/-- **Invariant rule**: what every action of every thread keeps holds along every
interleaving. -/
theorem Reaches.invariant {Inv : σ × List τ → Prop}
    (hstep : ∀ (g : σ) (ts : List τ) (t : τ) (i : Nat) (c : χ), ts[i]? = some t → Inv (g, ts) →
      Inv ((act t g c).2, ts.set i (act t g c).1))
    {s s' : σ × List τ} (hs : Inv s) (hr : Reaches act s s') : Inv s' := by
  induction hr with
  | refl => exact hs
  | tail _ hlast ih =>
      obtain ⟨i, hi, c⟩ := hlast
      exact hstep _ _ _ i c hi ih

/-- One action of a single thread, with its local and the shared state. -/
def Solo (act : τ → σ → χ → τ × σ) (p q : τ × σ) : Prop := ∃ c, act p.1 p.2 c = q

/-- **A thread running alone**: what a thread reaches by its own actions, the system reaches
with the other threads idle. -/
theorem Reaches.of_solo {ts : List τ} {i : Nat} {p q : τ × σ} (hi : ts[i]? = some p.1)
    (h : Relation.ReflTransGen (Solo act) p q) : Reaches act (p.2, ts) (q.2, ts.set i q.1) := by
  obtain ⟨hlt, hget⟩ := List.getElem?_eq_some_iff.mp hi
  -- induction on the thread's run; the system keeps the thread's state at position `i`
  induction h with
  | refl => rw [← hget, List.set_getElem_self]
  | @tail b c _ hlast ih =>
      obtain ⟨ch, hact⟩ := hlast
      have hstep : Step act (b.2, ts.set i b.1)
          ((act b.1 b.2 ch).2, (ts.set i b.1).set i (act b.1 b.2 ch).1) :=
        Step.thread i (List.getElem?_set_self hlt) ch
      rw [hact, List.set_set] at hstep
      exact ih.tail hstep

/-- A property of every thread holds after one of them acts, when its new state has it. -/
theorem forall_mem_set {P : τ → Prop} {ts : List τ} (h : ∀ t ∈ ts, P t) (i : Nat) {t' : τ}
    (ht' : P t') : ∀ t ∈ ts.set i t', P t := by
  intro t ht
  rcases List.mem_or_eq_of_mem_set ht with hmem | rfl
  · exact h t hmem
  · exact ht'

/-- A projection of the threads that no action changes stays as it was. -/
theorem map_set_of_getElem? {β : Type*} (f : τ → β) {ts : List τ} {i : Nat} {t t' : τ}
    (hi : ts[i]? = some t) (hf : f t' = f t) : (ts.set i t').map f = ts.map f := by
  obtain ⟨hlt, rfl⟩ := List.getElem?_eq_some_iff.mp hi
  have hlt' : i < (ts.map f).length := by simpa using hlt
  have hget : (ts.map f)[i] = f t' := by rw [List.getElem_map, hf]
  rw [List.map_set, ← hget, List.set_getElem_self]

end RocksCloud.Lib.Interleaving
