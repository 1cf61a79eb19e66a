import QueryFragments.Json
import QueryFragments.Document

/-!
# The JSON form of a document

A document is written as an object, and so is every node in it. Nodes that stand among
nodes of other kinds tell their kind in a member `kind`. The name of a field and its alias
are plain strings; every other name is an object with the member `name`.

`toJson` writes this form and `ofJson?` reads it. Reading is the more liberal side: a
missing member is the same as `null`, and an absent selection set is an empty one.
-/

namespace QueryFragments

/-! ## Writing -/

/-- A name that stands in an object of its own. -/
def Name.toJson (n : Name) : Json := .object [("name", .string n)]

/-- A name in an object of its own, or `null`. -/
def Name.optionToJson : Option Name → Json
  | none => .null
  | some n => n.toJson

/-- An object for selections that are already written. -/
def selectionSetJson (items : List Json) : Json := .object [("selections", .array items)]

mutual

/-- Write a selection. -/
def Selection.toJson : Selection → Json
  | .field alias? name selections =>
    .object [("kind", .string Kind.field.tag), ("alias", .ofOption alias?),
      ("name", .string name), ("selection_set", selectionSetJson (Selection.listToJson selections))]
  | .spread name =>
    .object [("kind", .string Kind.fragmentSpread.tag), ("name", name.toJson)]
  | .inlineFragment typeCondition? selections =>
    .object [("kind", .string Kind.inlineFragment.tag),
      ("type_condition", Name.optionToJson typeCondition?),
      ("selection_set", selectionSetJson (Selection.listToJson selections))]

/-- Write selections one by one. -/
def Selection.listToJson : List Selection → List Json
  | [] => []
  | s :: rest => s.toJson :: Selection.listToJson rest

end

/-- Write a selection set. -/
def Selection.setToJson (selections : List Selection) : Json :=
  selectionSetJson (Selection.listToJson selections)

/-- The members that describe an operation. -/
def Operation.members (o : Operation) : List (String × Json) :=
  [("operation", .string o.kind.keyword), ("name", Name.optionToJson o.name?),
    ("selection_set", Selection.setToJson o.selections)]

/-- Write an operation that stands alone, and so without its kind of node. -/
def Operation.toJson (o : Operation) : Json := .object o.members

/-- The members that describe a fragment. -/
def Fragment.members (f : Fragment) : List (String × Json) :=
  [("name", f.name.toJson), ("type_condition", Name.toJson f.typeCondition),
    ("selection_set", Selection.setToJson f.selections)]

/-- Write a definition. -/
def Definition.toJson : Definition → Json
  | .operation o => .object (("kind", .string Kind.operationDefinition.tag) :: o.members)
  | .fragment f => .object (("kind", .string Kind.fragmentDefinition.tag) :: f.members)

/-- Write a document. -/
def Document.toJson (d : Document) : Json :=
  .object [("definitions", .array (d.definitions.map Definition.toJson))]

/-! ## Reading -/

/-- The kind of node that an object tells. -/
def kindIn? (ms : List (String × Json)) : Option Kind :=
  (Json.member ms "kind").string?.bind Kind.ofTag?

/-- Read a name that stands in an object of its own. -/
def Name.ofJson? (j : Json) : Option Name := do
  let ms ← j.members?
  (Json.member ms "name").string?

/-- Read a name in an object of its own, or `null`. -/
def Name.optionOfJson? : Json → Option (Option Name)
  | .null => some none
  | j => (Name.ofJson? j).map some

mutual

/-- Read a selection. -/
def Selection.ofJson? : Json → Option Selection
  | .object ms =>
    match kindIn? ms with
    | some .field => do
      let alias? ← (Json.member ms "alias").nullableString?
      let name ← (Json.member ms "name").string?
      let selections ← Selection.belowOfMembers? ms
      return .field alias? name selections
    | some .fragmentSpread => do
      let name ← Name.ofJson? (Json.member ms "name")
      return .spread name
    | some .inlineFragment => do
      let typeCondition? ← Name.optionOfJson? (Json.member ms "type_condition")
      let selections ← Selection.belowOfMembers? ms
      return .inlineFragment typeCondition? selections
    | _ => none
  | _ => none

/-- Read the selection set under the key `selection_set`. -/
def Selection.belowOfMembers? : List (String × Json) → Option (List Selection)
  | [] => some []
  | (key, set) :: ms =>
    if key = "selection_set" then Selection.setOfJson? set else Selection.belowOfMembers? ms

/-- Read a selection set. -/
def Selection.setOfJson? : Json → Option (List Selection)
  | .null => some []
  | .object ms => Selection.setOfMembers? ms
  | _ => none

/-- Read the selections under the key `selections`. -/
def Selection.setOfMembers? : List (String × Json) → Option (List Selection)
  | [] => none
  | (key, items) :: ms =>
    if key = "selections" then
      match items with
      | .array js => Selection.listOfJson? js
      | _ => none
    else Selection.setOfMembers? ms

/-- Read selections one by one. -/
def Selection.listOfJson? : List Json → Option (List Selection)
  | [] => some []
  | j :: js => do
    let s ← Selection.ofJson? j
    let rest ← Selection.listOfJson? js
    return s :: rest

end

/-- Read an operation from the members that describe it. -/
def Operation.ofMembers? (ms : List (String × Json)) : Option Operation := do
  let keyword ← (Json.member ms "operation").string?
  let kind ← OperationKind.ofKeyword? keyword
  let name? ← Name.optionOfJson? (Json.member ms "name")
  let selections ← Selection.belowOfMembers? ms
  return ⟨kind, name?, selections⟩

/-- Read an operation, whether or not it tells its kind of node. -/
def Operation.ofJson? (j : Json) : Option Operation := j.members?.bind Operation.ofMembers?

/-- Read a fragment from the members that describe it. -/
def Fragment.ofMembers? (ms : List (String × Json)) : Option Fragment := do
  let name ← Name.ofJson? (Json.member ms "name")
  let typeCondition ← Name.ofJson? (Json.member ms "type_condition")
  let selections ← Selection.belowOfMembers? ms
  return ⟨name, typeCondition, selections⟩

/-- Read a definition. -/
def Definition.ofJson? (j : Json) : Option Definition := do
  let ms ← j.members?
  match kindIn? ms with
  | some .operationDefinition => (Operation.ofMembers? ms).map .operation
  | some .fragmentDefinition => (Fragment.ofMembers? ms).map .fragment
  | _ => none

/-- Read a document. -/
def Document.ofJson? (j : Json) : Option Document := do
  let ms ← j.members?
  match Json.member ms "definitions" with
  | .array js => (js.mapM Definition.ofJson?).map Document.mk
  | _ => none

end QueryFragments
