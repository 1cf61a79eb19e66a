import QueryFragments.Resolution

/-!
# Resolution without a memory of finished fragments

The same walk, but every spread off the path opens its fragment again, however often that
was done before. It takes far longer where many spreads lead to one fragment, and it is
the simpler one to think about.
-/

namespace QueryFragments

namespace Plain

mutual

/-- Walk a selection set, opening every fragment that it spreads. -/
def collect (t : FragmentTable) (path : List Name) (met : NameSet) :
    List Selection → Run NameSet
  | [] => pure met
  | .field _ _ below :: rest => do
    let met ← collect t path met below
    collect t path met rest
  | .inlineFragment _ below :: rest => do
    let met ← collect t path met below
    collect t path met rest
  | .spread n :: rest => do
    let met ← visit t path met n
    collect t path met rest
termination_by selections => (t.unopened path, sizeOf selections)

/-- Open the fragment `n` unless it is on the path or undefined. -/
def visit (t : FragmentTable) (path : List Name) (met : NameSet) (n : Name) : Run NameSet :=
  if _hn : n ∈ path then
    .abort (.cycle path n) (.spreadCycle path n)
  else
    match _hf : t.get? n with
    | none => .abort (.undefined n) (.undefinedFragment n)
    | some f => do
      .emit (.expanding n)
      collect t (path ++ [n]) (met.insert n) f.selections
termination_by (t.unopened path, 0)
decreasing_by exact .left _ _ (FragmentTable.unopened_push_lt _hf _hn)

end

end Plain

/-- The names of all fragments that a selection set needs, found by the plain walk. -/
def Document.resolvePlainly (d : Document) (selections : List Selection) : Run NameSet :=
  Plain.collect d.table [] ∅ selections

end QueryFragments
