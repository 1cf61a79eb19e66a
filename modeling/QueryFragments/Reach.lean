import QueryFragments.Definition

/-!
# Reachable fragment names

What a resolution is meant to find, said without a walk: the least set of names that holds
the names spread at the start and, with every name that is defined, the names that its
fragment spreads. Names that are not defined are reached too; nothing is reached through
them.

Which fragment a name stands for is told by a look-up `look`; a table has one in
`NameMap.get?`.
-/

namespace QueryFragments

/-- `Reaches look start n`: the name `n` is reached from the names in `start` through the
fragments that `look` finds. -/
inductive Reaches (look : Name → Option Fragment) (start : List Name) : Name → Prop where
  /-- a name at the start is reached -/
  | here {n : Name} (hn : n ∈ start) : Reaches look start n
  /-- a name that a reached fragment spreads is reached -/
  | through {n m : Name} {f : Fragment} (hn : Reaches look start n) (hf : look n = some f)
      (hm : m ∈ f.spreads) : Reaches look start m

namespace Reaches

variable {look : Name → Option Fragment} {start start' : List Name} {n m : Name}

/-- **Least set**: whatever holds the start and is closed under spreads holds every reached
name. -/
theorem subset_of_closed {p : Name → Prop} (hs : ∀ n ∈ start, p n)
    (hc : ∀ n f, p n → look n = some f → ∀ m ∈ f.spreads, p m) (h : Reaches look start n) :
    p n := by
  induction h with
  | here hn => exact hs _ hn
  | through _ hf hm ih => exact hc _ _ ih hf _ hm

/-- What is reached from reached names is reached. -/
theorem trans (hs : ∀ n ∈ start', Reaches look start n) (h : Reaches look start' m) :
    Reaches look start m :=
  h.subset_of_closed hs fun _ _ hn hf _ hm => hn.through hf hm

/-- More names at the start reach more. -/
theorem mono (hs : start ⊆ start') (h : Reaches look start n) : Reaches look start' n :=
  h.trans fun _ hm => .here (hs hm)

/-- Nothing is reached from nothing. -/
theorem not_nil : ¬ Reaches look [] n :=
  fun h => h.subset_of_closed (p := fun _ => False) (fun _ hn => List.not_mem_nil hn)
    fun _ _ h _ _ _ => h

end Reaches

end QueryFragments
