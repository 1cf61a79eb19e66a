import Mathlib.Data.List.Chain
import QueryFragments.Reach

/-!
# Names whose expansion ends

Fragments that spread one another form a graph, given by a look-up from names to fragments.
Three notions on it are used throughout:

* `Spreads look n m`: one step of the graph, from a fragment to a name in its selections,
* `Recursive look n`: the fragment `n` is reached from its own selections, in one step or
  more,
* `Grounded look n`: everything below `n` is defined and comes to an end. It is an inductive
  predicate, so a proof about what lies below a grounded name goes by induction on it.

A grounded name reaches defined names only, and none of them is recursive
(`Grounded.isSome`, `Grounded.not_recursive`, `Grounded.of_reaches`).
-/

namespace QueryFragments

variable {look : Name → Option Fragment} {start : List Name} {n m : Name} {f : Fragment}

/-! ## Reachability step by step -/

/-- The fragment that `n` stands for spreads the name `m`, at any depth. -/
def Spreads (look : Name → Option Fragment) (n m : Name) : Prop :=
  ∃ f, look n = some f ∧ m ∈ f.spreads

namespace Reaches

/-- What a fragment reaches is reached where its name is spread. -/
theorem of_spreads (hn : n ∈ start) (hf : look n = some f) (h : Reaches look f.spreads m) :
    Reaches look start m :=
  h.trans fun _ hk => (Reaches.here hn).through hf hk

/-- What is reached from two lists of names together is reached from one of them. -/
theorem append_iff {ns ms : List Name} :
    Reaches look (ns ++ ms) m ↔ Reaches look ns m ∨ Reaches look ms m := by
  refine ⟨fun h => ?_, ?_⟩
  · induction h with
    | here hm =>
      rcases List.mem_append.1 hm with hm | hm
      · exact .inl (.here hm)
      · exact .inr (.here hm)
    | through _ hf hm ih => exact ih.imp (·.through hf hm) (·.through hf hm)
  · rintro (h | h)
    · exact h.mono (List.subset_append_left ..)
    · exact h.mono (List.subset_append_right ..)

/-- From a defined name the name itself is reached, and what its fragment reaches. -/
theorem singleton_iff (hf : look n = some f) :
    Reaches look [n] m ↔ m = n ∨ Reaches look f.spreads m := by
  refine ⟨fun h => ?_, ?_⟩
  · induction h with
    | here hm => exact .inl (List.mem_singleton.1 hm)
    | through _ hg hm ih =>
      rcases ih with rfl | ih
      · obtain rfl : f = _ := Option.some.inj (hf.symm.trans hg)
        exact .inr (.here hm)
      · exact .inr (ih.through hg hm)
  · rintro (rfl | h)
    · exact .here List.mem_cons_self
    · exact h.of_spreads List.mem_cons_self hf

/-- What is reached from a list of names is reached from one of them. -/
theorem iff_exists_mem : Reaches look start m ↔ ∃ n ∈ start, Reaches look [n] m := by
  refine ⟨fun h => ?_, ?_⟩
  · induction h with
    | here hm => exact ⟨_, hm, .here List.mem_cons_self⟩
    | through _ hf hm ih =>
      obtain ⟨n, hn, ih⟩ := ih
      exact ⟨n, hn, ih.through hf hm⟩
  · rintro ⟨n, hn, h⟩
    exact h.mono (List.cons_subset.2 ⟨hn, List.nil_subset _⟩)

/-- Along a chain of spreads every later name is reached from the first fragment. -/
theorem of_isChain {l : List Name} (hl : List.IsChain (Spreads look) (n :: l)) (hm : m ∈ l) :
    ∃ f, look n = some f ∧ Reaches look f.spreads m := by
  induction l generalizing n with
  | nil => exact absurd hm List.not_mem_nil
  | cons k l ih =>
    obtain ⟨⟨f, hf, hk⟩, hl⟩ := List.isChain_cons_cons.1 hl
    refine ⟨f, hf, ?_⟩
    rcases List.mem_cons.1 hm with rfl | hm
    · exact .here hk
    · obtain ⟨g, hg, hr⟩ := ih hl hm
      exact hr.of_spreads hk hg

end Reaches

/-! ## Recursion -/

/-- The name `n` is reached from its own fragment, in one step or more. -/
def Recursive (look : Name → Option Fragment) (n : Name) : Prop :=
  ∃ f, look n = some f ∧ Reaches look f.spreads n

/-- A defined name that leads back to a fragment by which it is spread is recursive. -/
theorem Recursive.of_spreads (hf : look n = some f) (hm : m ∈ f.spreads)
    (hback : Reaches look [m] n) (hdef : ∃ g, look m = some g) : Recursive look m := by
  obtain ⟨g, hg⟩ := hdef
  refine ⟨g, hg, ?_⟩
  rcases (Reaches.singleton_iff hg).1 hback with rfl | hr
  · obtain rfl : f = g := Option.some.inj (hf.symm.trans hg)
    exact .here hm
  · exact hr.through hf hm

/-! ## Grounded names -/

/-- The name `n` is defined, and so is everything below it, down to fragments that spread
nothing. -/
inductive Grounded (look : Name → Option Fragment) : Name → Prop where
  /-- a defined name is grounded if all that its fragment spreads is -/
  | intro {n : Name} {f : Fragment} (hf : look n = some f)
      (hs : ∀ m ∈ f.spreads, Grounded look m) : Grounded look n

namespace Grounded

theorem isSome (h : Grounded look n) : ∃ f, look n = some f := by
  obtain ⟨hf, -⟩ := h
  exact ⟨_, hf⟩

theorem spreads (h : Grounded look n) (hf : look n = some f) (hm : m ∈ f.spreads) :
    Grounded look m := by
  obtain ⟨hg, hs⟩ := h
  obtain rfl : f = _ := Option.some.inj (hf.symm.trans hg)
  exact hs m hm

/-- What grounded names reach is grounded. -/
theorem of_reaches (hs : ∀ n ∈ start, Grounded look n) (h : Reaches look start m) :
    Grounded look m :=
  h.subset_of_closed hs fun _ _ hn hf _ hm => hn.spreads hf hm

/-- **No recursion**: going down from a grounded name never leads back to it. -/
theorem not_recursive (h : Grounded look n) : ¬ Recursive look n := by
  induction h with
  | intro hf hs ih =>
    rintro ⟨g, hg, hr⟩
    obtain rfl : _ = g := Option.some.inj (hf.symm.trans hg)
    -- a recursive fragment spreads a name that is recursive too, and so on without end
    obtain ⟨m, hm, hr⟩ := Reaches.iff_exists_mem.1 hr
    exact ih m hm (.of_spreads hf hm hr (hs m hm).isSome)

end Grounded

end QueryFragments
