/-!
# JSON values

A tree of JSON values. The members of an object are a list; of members with the same key
the first one counts.
-/

namespace QueryFragments

/-- A JSON value. Numbers are natural numbers. -/
inductive Json where
  /-- the absent value -/
  | null
  /-- a truth value -/
  | bool (value : Bool)
  /-- a number -/
  | number (value : Nat)
  /-- a text -/
  | string (value : String)
  /-- values in order -/
  | array (items : List Json)
  /-- values under keys -/
  | object (members : List (String × Json))

namespace Json

instance : Inhabited Json := ⟨.null⟩

/-- A text, or the absent value. -/
def ofOption : Option String → Json
  | none => .null
  | some s => .string s

/-- The value under a key; a missing member is the absent value. -/
def member : List (String × Json) → String → Json
  | [], _ => .null
  | (k, v) :: ms, key => if k = key then v else member ms key

/-- The text of a string. -/
def string? : Json → Option String
  | .string s => some s
  | _ => none

/-- A text that may be absent. -/
def nullableString? : Json → Option (Option String)
  | .null => some none
  | .string s => some (some s)
  | _ => none

/-- The members of an object. -/
def members? : Json → Option (List (String × Json))
  | .object ms => some ms
  | _ => none

@[simp] theorem nullableString?_ofOption (o : Option String) :
    nullableString? (ofOption o) = some o := by
  cases o <;> rfl

end Json

end QueryFragments
