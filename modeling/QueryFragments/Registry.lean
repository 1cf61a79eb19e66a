import QueryFragments.NameSet

/-!
# Several sets of names under commands

A `Registry` holds any number of sets, each under an identifier; a set that was never
touched is empty. A `Registry.Command` reads or changes one set, and `Registry.run`
answers a whole sequence of them.

Sets are values: after `copy` the two sets have separate histories, and a command
changes no set but the one it is addressed to (`Registry.get_perform_of_ne`).
-/

namespace QueryFragments

/-- Sets of names under identifiers. -/
structure Registry where
  /-- the sets that were touched -/
  sets : NameMap NameSet
  deriving DecidableEq

namespace Registry

/-- A registry in which every set is empty. -/
protected def empty : Registry := ⟨∅⟩

instance : EmptyCollection Registry := ⟨Registry.empty⟩

instance : Inhabited Registry := ⟨∅⟩

/-- The set under an identifier. -/
def get (r : Registry) (id : Name) : NameSet := (r.sets.get? id).getD ∅

/-- Replace the set under an identifier. -/
def put (r : Registry) (id : Name) (s : NameSet) : Registry := ⟨r.sets.insert id s⟩

/-- What can be asked of the set under an identifier. -/
inductive Command where
  /-- add a name; answers whether it was new -/
  | insert (name : Name)
  /-- answers whether a name is a member -/
  | contains (name : Name)
  /-- add the members of another set -/
  | union (other : Name)
  /-- answers whether another set has the same members -/
  | equal (other : Name)
  /-- become a copy of another set -/
  | copy (other : Name)
  /-- become empty -/
  | clear
  deriving DecidableEq

/-- Perform a command on the set `id`: the registry after it, and its answer if it has
one. -/
def perform (r : Registry) (id : Name) : Command → Registry × Option Bool
  | .insert n => (r.put id ((r.get id).insert n), some (!(r.get id).contains n))
  | .contains n => (r, some ((r.get id).contains n))
  | .union other => (r.put id (r.get id ∪ r.get other), none)
  | .equal other => (r, some ((r.get id).sameMembers (r.get other)))
  | .copy other => (r.put id (r.get other), none)
  | .clear => (r.put id ∅, none)

/-- Perform addressed commands in order: the last registry and every answer. -/
def run (r : Registry) : List (Name × Command) → Registry × List (Option Bool)
  | [] => (r, [])
  | (id, c) :: rest =>
    let (next, answer) := r.perform id c
    let (last, answers) := next.run rest
    (last, answer :: answers)

/-! ## Laws -/

@[simp] theorem get_empty (id : Name) : (∅ : Registry).get id = ∅ := rfl

theorem get_put (r : Registry) (id k : Name) (s : NameSet) :
    (r.put id s).get k = if k = id then s else r.get k := by
  simp only [get, put, NameMap.get?_insert]
  split <;> rfl

@[simp] theorem get_put_self (r : Registry) (id : Name) (s : NameSet) :
    (r.put id s).get id = s := by
  simp [get_put]

/-- **Separation**: a command changes no set but its own. -/
theorem get_perform_of_ne (r : Registry) (id : Name) (c : Command) {k : Name} (hk : k ≠ id) :
    (r.perform id c).1.get k = r.get k := by
  cases c <;> simp [perform, get_put, hk]

end Registry

end QueryFragments
