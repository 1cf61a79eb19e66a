import QueryFragments.Name
import QueryFragments.Kind

/-!
# Selections

A selection set is a list of selections: fields, which may have selections of their own,
spreads of named fragments, and fragments written in place. Arguments and directives play
no part in what a selection depends on and are not kept.

* `Selection.kind` and the predicates on it,
* `Selection.spreads`, `Selection.spreadsIn`: the names spread at any depth, in
  **depth-first document order**,
* a decision procedure for structural equality.
-/

namespace QueryFragments

/-- One item of a selection set. -/
inductive Selection where
  /-- a field, with the name its value is given in the answer if that is another one -/
  | field (alias? : Option Name) (name : Name) (selections : List Selection)
  /-- all that the fragment of this name selects -/
  | spread (name : Name)
  /-- a fragment written in place, for values of one type or for all -/
  | inlineFragment (typeCondition? : Option Name) (selections : List Selection)

namespace Selection

instance : Inhabited Selection := ⟨.spread ""⟩

/-! ## Classification -/

/-- The kind of a selection. -/
def kind : Selection → Kind
  | .field .. => .field
  | .spread .. => .fragmentSpread
  | .inlineFragment .. => .inlineFragment

/-- Whether this is a field. -/
def isField (s : Selection) : Bool := s.kind = .field

/-- Whether this spreads a named fragment. -/
def isSpread (s : Selection) : Bool := s.kind = .fragmentSpread

/-- Whether this is a fragment written in place. -/
def isInlineFragment (s : Selection) : Bool := s.kind = .inlineFragment

/-- The selections directly below this one; a spread has none of its own. -/
def selections : Selection → List Selection
  | .field _ _ selections => selections
  | .spread _ => []
  | .inlineFragment _ selections => selections

/-- Whether no selection stands below this one. -/
def isLeaf (s : Selection) : Bool := s.selections.isEmpty

/-- The name that a field's value is given in the answer. -/
def answerName? : Selection → Option Name
  | .field alias? name _ => some (alias?.getD name)
  | _ => none

/-- The selection set that is reached by choosing, at each step, the selection at a
place. -/
def descend? : List Selection → List Nat → Option (List Selection)
  | selections, [] => some selections
  | selections, i :: steps => do
    let s ← selections[i]?
    descend? s.selections steps

/-! ## Spreads -/

mutual

/-- The names that a selection spreads, at any depth. -/
def spreads : Selection → List Name
  | .field _ _ selections => spreadsIn selections
  | .spread name => [name]
  | .inlineFragment _ selections => spreadsIn selections

/-- The names that a selection set spreads, at any depth, in document order. -/
def spreadsIn : List Selection → List Name
  | [] => []
  | s :: rest => s.spreads ++ spreadsIn rest

end

@[simp] theorem spreads_field (alias? : Option Name) (name : Name) (selections : List Selection) :
    (field alias? name selections).spreads = spreadsIn selections := by
  rw [spreads]

@[simp] theorem spreads_spread (name : Name) : (spread name).spreads = [name] := by
  rw [spreads]

@[simp] theorem spreads_inlineFragment (typeCondition? : Option Name)
    (selections : List Selection) :
    (inlineFragment typeCondition? selections).spreads = spreadsIn selections := by
  rw [spreads]

@[simp] theorem spreadsIn_nil : spreadsIn [] = [] := by
  rw [spreadsIn]

@[simp] theorem spreadsIn_cons (s : Selection) (rest : List Selection) :
    spreadsIn (s :: rest) = s.spreads ++ spreadsIn rest := by
  rw [spreadsIn]

@[simp] theorem spreadsIn_append (ss ts : List Selection) :
    spreadsIn (ss ++ ts) = spreadsIn ss ++ spreadsIn ts := by
  induction ss with
  | nil => simp
  | cons s ss ih => simp [ih]

/-! ## Structural equality -/

mutual

/-- Decides whether two selections are equal. -/
def decEq : (s t : Selection) → Decidable (s = t)
  | .field a n ss, .field b m ts =>
    have := decEqList ss ts
    decidable_of_decidable_of_iff (p := a = b ∧ n = m ∧ ss = ts) (by simp)
  | .spread n, .spread m => decidable_of_decidable_of_iff (p := n = m) (by simp)
  | .inlineFragment a ss, .inlineFragment b ts =>
    have := decEqList ss ts
    decidable_of_decidable_of_iff (p := a = b ∧ ss = ts) (by simp)
  | .field .., .spread _ => isFalse nofun
  | .field .., .inlineFragment .. => isFalse nofun
  | .spread _, .field .. => isFalse nofun
  | .spread _, .inlineFragment .. => isFalse nofun
  | .inlineFragment .., .field .. => isFalse nofun
  | .inlineFragment .., .spread _ => isFalse nofun

/-- Decides whether two selection sets are equal. -/
def decEqList : (ss ts : List Selection) → Decidable (ss = ts)
  | [], [] => isTrue rfl
  | [], _ :: _ => isFalse nofun
  | _ :: _, [] => isFalse nofun
  | s :: ss, t :: ts =>
    have := decEq s t
    have := decEqList ss ts
    decidable_of_decidable_of_iff (p := s = t ∧ ss = ts) (by simp)

end

instance : DecidableEq Selection := decEq

end Selection

end QueryFragments
