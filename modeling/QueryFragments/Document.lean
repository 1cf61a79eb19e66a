import QueryFragments.Definition
import QueryFragments.Failure

/-!
# Documents

A document is a list of definitions. Nothing is required of it: names may repeat, spreads
may lead nowhere, and there may be no operation at all.

* `Document.operations`, `Document.fragments`: the definitions of one sort, in order,
* `Document.operation`: select an operation, by name or as **the lone one**,
* `Document.placedOperations`, `Document.placeOf?`, `Document.fragmentPlace?`: where
  definitions stand,
* `Document.selectionsAt?`: walk down to the selection set of a node.
-/

namespace QueryFragments

/-- A document of the query language. -/
structure Document where
  /-- the definitions, first to last -/
  definitions : List Definition
  deriving DecidableEq

namespace Document

/-- A document of one operation. -/
def ofOperation (o : Operation) : Document := ⟨[.operation o]⟩

/-- The kind of a document. -/
def kind (_ : Document) : Kind := .document

/-- Whether there are no definitions. -/
def isEmpty (d : Document) : Bool := d.definitions.isEmpty

/-- The operations, in document order: what the document defines that can be executed. -/
def operations (d : Document) : List Operation :=
  (d.definitions.filter Definition.isExecutable).filterMap Definition.operation?

/-- The fragments, in document order, repeated names included. -/
def fragments (d : Document) : List Fragment := d.definitions.filterMap Definition.fragment?

/-- What cannot be executed defines no operation, so no operation is lost by looking at the
kinds first. -/
theorem operations_eq_filterMap (d : Document) :
    d.operations = d.definitions.filterMap Definition.operation? := by
  rw [operations, List.filterMap_filter]
  congr 1
  funext x
  cases x <;> simp

/-! ## Selecting an operation -/

/-- The first operation of a name. An operation without a name is never found. -/
def operationNamed (d : Document) (name : Name) : Except Failure Operation :=
  match d.definitions.findSome? (·.operationNamed? name) with
  | some o => .ok o
  | none => .error (.unknownOperation name)

/-- The operation of a document that has exactly one. No more than two are looked for. -/
def loneOperation (d : Document) : Except Failure Operation :=
  match d.definitions.filterMap Definition.operation? with
  | [] => .error .noOperation
  | [o] => .ok o
  | _ :: _ :: _ => .error .ambiguousOperation

/-- The operation of the given name, or the lone operation if none is given. -/
def operation (d : Document) : Option Name → Except Failure Operation
  | some name => d.operationNamed name
  | none => d.loneOperation

/-! ## Places -/

/-- The operations, each with its place among the definitions. -/
def placedOperations (d : Document) : List (Operation × Nat) :=
  d.definitions.zipIdx.filterMap fun (definition, place) =>
    definition.operation?.map (·, place)

/-- The place of the first definition equal to the given one. -/
def placeOf? (d : Document) (definition : Definition) : Option Nat :=
  d.definitions.findIdx? (· = definition)

/-- The place of the last fragment of a name. -/
def fragmentPlace? (d : Document) (name : Name) : Option Nat :=
  (d.definitions.zipIdx.reverse.find? fun (definition, _) =>
    definition.fragment?.any (·.name = name)).map Prod.snd

/-! ## Walking down -/

/-- The selection set that is reached from the definition at a place. -/
def selectionsAt? (d : Document) (place : Nat) (steps : List Nat) : Option (List Selection) := do
  let definition ← d.definitions[place]?
  Selection.descend? definition.selections steps

end Document

end QueryFragments
