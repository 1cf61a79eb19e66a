import QueryFragments.Proofs.Dependencies

/-!
# Resolution is compositional

A selection set may be resolved piece by piece. In one run, the second piece starts with what
the first one left behind, the names it met and the fragments it expanded; in a run of its own
it starts with nothing. The result is the same:

* the problems of two pieces together are those of the first and then those of the second
  (`Document.problems_append`), and so are their outcomes (`Outcome.andThen`),
* `Document.resolve?_append_and_wrap`: so **resolving two pieces in one run** is resolving each
  in a run of its own and joining the names, and the first failure is the failure. Nor does it
  matter whether a piece stands in a field or in a fragment written in place.
-/

namespace QueryFragments

universe u

/-- **Sequence of results**: as `Outcome.bind`, where nothing is reported. -/
theorem Outcome.andThen {α β : Type u} {ps qs : List Failure} {P : α → Prop} {Q : β → Prop}
    {r : Except Failure α} {k : α → Except Failure β} (hr : Outcome ps P r)
    (hk : ∀ a, P a → Outcome qs Q (k a)) : Outcome (ps ++ qs) Q (r >>= k) := by
  have h := Outcome.bind (m := .ofResult r) (k := fun a => .ofResult (k a)) hr hk
  cases r with
  | error e => exact h
  | ok a => exact h

namespace Document

variable {d : Document}

/-- The problems of the first piece come before those of the second. -/
theorem problems_append (d : Document) (ss ts : List Selection) :
    d.problems (ss ++ ts) = d.problems ss ++ d.problems ts := by
  rw [problems, Selection.spreadsIn_append, List.flatMap_append, ← problems, ← problems]

/-- Two runs, each from the start, have the outcome of both pieces together. -/
theorem outcome_of_separate_runs (d : Document) (ss ts : List Selection) :
    Outcome (d.problems (ss ++ ts))
      (fun names => ∀ n, n ∈ names ↔
        Reaches d.table.get? (Selection.spreadsIn (ss ++ ts)) n)
      (do
        let names ← (d.resolve ss).result
        let names' ← (d.resolve ts).result
        return names ∪ names') := by
  rw [problems_append, ← List.append_nil (d.problems ts)]
  refine (d.resolve_outcome ss).andThen fun names hnames => ?_
  refine (d.resolve_outcome ts).andThen fun names' hnames' => .finished rfl fun n => ?_
  rw [NameSet.mem_union, hnames, hnames', Selection.spreadsIn_append, Reaches.append_iff]

/-- A result that has the outcome of a resolution is its result: the names to be found are
determined by what is reached. -/
theorem resolve_eq_of_outcome {ss : List Selection} {r : Except Failure NameSet}
    (h : Outcome (d.problems ss)
      (fun names => ∀ n, n ∈ names ↔ Reaches d.table.get? (Selection.spreadsIn ss) n) r) :
    (d.resolve ss).result = r := by
  refine (d.resolve_outcome ss).eq_of_unique ?_ h
  intro names names' hnames hnames'
  exact NameSet.ext fun n => (hnames n).trans (hnames' n).symm

/-- Selection sets that spread the same names in the same order are resolved alike. -/
theorem resolve_congr {ss ts : List Selection}
    (h : Selection.spreadsIn ss = Selection.spreadsIn ts) : d.resolve ss = d.resolve ts := by
  rw [resolve, resolve, (isWalk_collect d.table []).eq_foldlM,
    (isWalk_collect d.table []).eq_foldlM, h]

/-- **Composition**: to resolve one selection set after another in one run is to resolve each of
them from the start. If the first one fails, that is the failure; if only the second one does,
it fails as it would on its own; otherwise the names of both are found. And a piece of a
selection set may be put into a field or a fragment written in place: the whole run stays the
same. -/
theorem resolve?_append_and_wrap (d : Document) (ss ts : List Selection) :
    (d.resolve? (some (ss ++ ts))).result =
        (match (d.resolve? (some ss)).result, (d.resolve? (some ts)).result with
        | .error e, _ => .error e
        | .ok _, .error e => .error e
        | .ok names, .ok names' => .ok (names ∪ names')) ∧
      (∀ alias? name before after,
        d.resolve? (some (before ++ .field alias? name ss :: after)) =
          d.resolve? (some (before ++ ss ++ after))) ∧
      ∀ typeCondition? before after,
        d.resolve? (some (before ++ .inlineFragment typeCondition? ss :: after)) =
          d.resolve? (some (before ++ ss ++ after)) := by
  simp only [resolve?_some]
  refine ⟨?_, ?_, ?_⟩
  · rw [resolve_eq_of_outcome (d.outcome_of_separate_runs ss ts)]
    cases (d.resolve ss).result with
    | error e => rfl
    | ok names =>
      cases (d.resolve ts).result with
      | error e => rfl
      | ok names' => rfl
  · intro alias? name before after
    exact resolve_congr (by simp)
  · intro typeCondition? before after
    exact resolve_congr (by simp)

end Document

end QueryFragments
