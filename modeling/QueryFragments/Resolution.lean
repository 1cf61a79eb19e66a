import QueryFragments.Run
import QueryFragments.Table
import QueryFragments.NameSet

/-!
# Resolution of fragment dependencies

Which fragments does a selection set need? Those that it spreads, at any depth, and those
that they need in turn. A resolution walks the selections in document order and opens a
fragment where it is spread:

* `collect` walks a selection set, `visit` deals with one spread,
* the **path** holds the fragments that are open, outermost first; a spread of a name on
  the path is a cycle,
* the **progress** holds the names met so far and the fragments that are done; a fragment
  that is done is not opened again.

The order of the checks at a spread is: cycle, then done, then undefined. Resolution ends
because a fragment is opened only off the path.
-/

namespace QueryFragments

/-! ## Progress -/

/-- What a resolution has achieved so far. -/
structure Progress where
  /-- the names met -/
  recorded : NameSet
  /-- the fragments expanded to the end -/
  expanded : NameSet
  deriving DecidableEq

namespace Progress

/-- Nothing met, nothing expanded. -/
def start : Progress := ⟨∅, ∅⟩

/-- Note that a name was met. -/
def record (p : Progress) (n : Name) : Progress := { p with recorded := p.recorded.insert n }

/-- Note that a fragment was expanded to the end. -/
def finish (p : Progress) (n : Name) : Progress := { p with expanded := p.expanded.insert n }

end Progress

/-! ## The walk -/

mutual

/-- Walk a selection set in document order, below the fragments on the path. -/
def collect (t : FragmentTable) (path : List Name) (p : Progress) :
    List Selection → Run Progress
  | [] => pure p
  | .field _ _ below :: rest => do
    let p ← collect t path p below
    collect t path p rest
  | .inlineFragment _ below :: rest => do
    let p ← collect t path p below
    collect t path p rest
  | .spread n :: rest => do
    let p ← visit t path p n
    collect t path p rest
termination_by selections => (t.unopened path, sizeOf selections)

/-- Deal with a spread of the name `n` below the fragments on the path. -/
def visit (t : FragmentTable) (path : List Name) (p : Progress) (n : Name) : Run Progress :=
  if _hn : n ∈ path then
    .abort (.cycle path n) (.spreadCycle path n)
  else if n ∈ p.expanded then
    pure (p.record n)
  else
    match _hf : t.get? n with
    | none => .abort (.undefined n) (.undefinedFragment n)
    | some f => do
      .emit (.expanding n)
      let p ← collect t (path ++ [n]) (p.record n) f.selections
      pure (p.finish n)
termination_by (t.unopened path, 0)
decreasing_by exact .left _ _ (FragmentTable.unopened_push_lt _hf _hn)

end

/-! ## Equation lemmas -/

section Equations

variable (t : FragmentTable) (path : List Name) (p : Progress)

@[simp] theorem collect_nil : collect t path p [] = pure p := by
  rw [collect]

/-- A field is walked through: its nested selections come before its later siblings. -/
@[simp] theorem collect_field (alias? : Option Name) (name : Name) (below rest : List Selection) :
    collect t path p (.field alias? name below :: rest) =
      collect t path p below >>= fun p => collect t path p rest := by
  rw [collect]

/-- A fragment written in place is walked through like a field. -/
@[simp] theorem collect_inlineFragment (typeCondition? : Option Name)
    (below rest : List Selection) :
    collect t path p (.inlineFragment typeCondition? below :: rest) =
      collect t path p below >>= fun p => collect t path p rest := by
  rw [collect]

@[simp] theorem collect_spread (n : Name) (rest : List Selection) :
    collect t path p (.spread n :: rest) =
      visit t path p n >>= fun p => collect t path p rest := by
  rw [collect]

variable {t path p}

/-- **Cycle**: a name on the path is not opened again. -/
theorem visit_of_mem_path {n : Name} (hn : n ∈ path) :
    visit t path p n = .abort (.cycle path n) (.spreadCycle path n) := by
  rw [visit, dif_pos hn]

/-- **Done**: a fragment that was expanded is only recorded. -/
theorem visit_of_mem_expanded {n : Name} (hn : n ∉ path) (he : n ∈ p.expanded) :
    visit t path p n = pure (p.record n) := by
  rw [visit, dif_neg hn, if_pos he]

/-- **Undefined**: a name without a fragment is reported. -/
theorem visit_of_get?_eq_none {n : Name} (hn : n ∉ path) (he : n ∉ p.expanded)
    (hf : t.get? n = none) :
    visit t path p n = .abort (.undefined n) (.undefinedFragment n) := by
  rw [visit, dif_neg hn, if_neg he]
  split
  · rfl
  · simp_all

/-- **Expansion**: otherwise the fragment is opened and its selections are walked. -/
theorem visit_of_get?_eq_some {n : Name} {f : Fragment} (hn : n ∉ path) (he : n ∉ p.expanded)
    (hf : t.get? n = some f) :
    visit t path p n = (do
      .emit (.expanding n)
      let p ← collect t (path ++ [n]) (p.record n) f.selections
      pure (p.finish n)) := by
  rw [visit, dif_neg hn, if_neg he]
  split
  · simp_all
  · simp_all

end Equations

/-! ## Dependencies -/

/-- The names of all fragments that a selection set needs. -/
def Document.resolve (d : Document) (selections : List Selection) : Run NameSet := do
  let p ← collect d.table [] .start selections
  pure p.recorded

/-- The names of all fragments that a selection set needs, if there is one. A selection set
that is absent or empty needs no fragment, and no walk is started for it. -/
def Document.resolve? (d : Document) : Option (List Selection) → Run NameSet
  | none => pure ∅
  | some selections => if selections.isEmpty then pure ∅ else d.resolve selections

/-- **Early exit**: a walk over no selections would report nothing and find nothing. -/
@[simp] theorem Document.resolve?_some (d : Document) (selections : List Selection) :
    d.resolve? (some selections) = d.resolve selections := by
  cases selections with
  | nil =>
    rw [resolve, collect_nil]
    rfl
  | cons => rfl

/-- The names of all fragments that an operation needs. -/
def Operation.dependencies (o : Operation) (d : Document) : Run NameSet :=
  d.resolve? (some o.selections)

/-- The names of all fragments that a fragment needs. The fragment itself is not open
while its selections are walked. -/
def Fragment.dependencies (f : Fragment) (d : Document) : Run NameSet :=
  d.resolve? (some f.selections)

theorem Operation.dependencies_eq (o : Operation) (d : Document) :
    o.dependencies d = d.resolve o.selections := d.resolve?_some o.selections

theorem Fragment.dependencies_eq (f : Fragment) (d : Document) :
    f.dependencies d = d.resolve f.selections := d.resolve?_some f.selections

end QueryFragments
