/-!
# Reading off the front

Scanning and parsing read something off the front of a list and leave a rest. The result
carries a bound on the length of the rest, which is what ends the loops around them: a
reader that is given `n` items and reads at least one leaves fewer than `n`, and a reader
that may read nothing leaves fewer than `n + 1`.

Results are put together in the order in which they were read. `Taken.andMaybe` and
`Taken.andThen` take the rest of what was read last and keep the bound of what was read
first.
-/

namespace QueryFragments.Source

/-- A value that was read off the front of a list, and the rest, which has fewer than `n`
items. -/
structure Taken (τ α : Type) (n : Nat) where
  /-- what was read -/
  value : α
  /-- what is left -/
  rest : List τ
  /-- the rest is short -/
  short : rest.length < n

namespace Taken

variable {τ α β : Type} {n : Nat}

/-- Nothing was read. -/
def nothing (a : α) (ts : List τ) : Taken τ α (ts.length + 1) := ⟨a, ts, Nat.lt_succ_self _⟩

/-- One item was read. -/
def one (a : α) (rest : List τ) : Taken τ α (rest.length + 1) := ⟨a, rest, Nat.lt_succ_self _⟩

/-- Change the value that was read. -/
def map (f : α → β) (t : Taken τ α n) : Taken τ β n := ⟨f t.value, t.rest, t.short⟩

/-- One more item was read in front of this. -/
def behind (t : Taken τ α n) : Taken τ α (n + 1) := ⟨t.value, t.rest, Nat.lt_succ_of_lt t.short⟩

/-- What was read after `first`, and may have been nothing. -/
def andMaybe (first : Taken τ α n) (second : Taken τ β (first.rest.length + 1)) : Taken τ β n :=
  ⟨second.value, second.rest, Nat.lt_of_lt_of_le second.short first.short⟩

/-- What was read after `first`, which itself may have been nothing. -/
def andThen (first : Taken τ α (n + 1)) (second : Taken τ β first.rest.length) : Taken τ β n :=
  ⟨second.value, second.rest, Nat.lt_of_lt_of_le second.short (Nat.le_of_lt_succ first.short)⟩

end Taken

end QueryFragments.Source
