import Mathlib

/-!
# Parsers that read a prefix of their input

A parser reads a prefix of a list of symbols and returns a value with the rest of the list, or
fails: `StateT (List σ) Option`, the shape of a C++ reader that advances a `Slice*` and returns
`false` on malformed input. A chain of such readers joined by `&&` is a `do` block.

* `bind_apply`, `pure_apply`: how a chain of parsers runs on an input.
* `Consumes`: the rest is never longer than the input; `pure` and `bind` keep it.
* `Advances`: the rest is shorter. A loop that runs an advancing parser at each turn terminates,
  by well-founded recursion on the length of its input.
-/

set_option autoImplicit false

namespace RocksCloud.Lib.Parsing

variable {σ α β : Type}

/-- A parser over symbols `σ` returning an `α`. -/
abbrev Parser (σ α : Type) := StateT (List σ) Option α

theorem bind_apply (p : Parser σ α) (f : α → Parser σ β) (input : List σ) :
    (p >>= f) input = (p input).bind fun x => f x.1 x.2 := by
  simp [bind, StateT.bind]

theorem pure_apply (a : α) (input : List σ) : (pure a : Parser σ α) input = some (a, input) :=
  rfl

/-- What a successful run leaves is never longer than its input. -/
def Consumes (p : Parser σ α) : Prop :=
  ∀ input a rest, p input = some (a, rest) → rest.length ≤ input.length

/-- What a successful run leaves is shorter than its input. -/
def Advances (p : Parser σ α) : Prop :=
  ∀ input a rest, p input = some (a, rest) → rest.length < input.length

theorem Advances.consumes {p : Parser σ α} (h : Advances p) : Consumes p :=
  fun input a rest hp => Nat.le_of_lt (h input a rest hp)

theorem Consumes.pure (a : α) : Consumes (pure a : Parser σ α) := by
  intro input b rest h
  rw [pure_apply, Option.some.injEq, Prod.mk.injEq] at h
  rw [h.2]

/-- The two halves of a run of `p >>= f`. -/
theorem bind_eq_some {p : Parser σ α} {f : α → Parser σ β} {input rest : List σ} {b : β}
    (h : (p >>= f) input = some (b, rest)) :
    ∃ a mid, p input = some (a, mid) ∧ f a mid = some (b, rest) := by
  rw [bind_apply, Option.bind_eq_some_iff] at h
  obtain ⟨⟨a, mid⟩, hp, hf⟩ := h
  exact ⟨a, mid, hp, hf⟩

theorem Consumes.bind {p : Parser σ α} {f : α → Parser σ β} (hp : Consumes p)
    (hf : ∀ a, Consumes (f a)) : Consumes (p >>= f) := by
  intro input b rest h
  obtain ⟨a, mid, h1, h2⟩ := bind_eq_some h
  exact (hf a mid b rest h2).trans (hp input a mid h1)

/-- A chain advances when its first parser does. -/
theorem Advances.bind {p : Parser σ α} {f : α → Parser σ β} (hp : Advances p)
    (hf : ∀ a, Consumes (f a)) : Advances (p >>= f) := by
  intro input b rest h
  obtain ⟨a, mid, h1, h2⟩ := bind_eq_some h
  exact Nat.lt_of_le_of_lt (hf a mid b rest h2) (hp input a mid h1)

end RocksCloud.Lib.Parsing
