import QueryFragments.Source.Tree
import QueryFragments.Document

/-!
# From written documents to documents

A written document is reduced to what matters for its fragments: places, arguments,
directives and variables are dropped, the three ways to write an operation in full become
its kind, and a bare selection set becomes a query without a name. All else is kept, in
order.

`Source.Document.ofDocument` goes the other way: it writes a document without any of the
parts that reduction drops, but for the places, which are all the same.
-/

namespace QueryFragments.Source

variable {Place : Type}

/-! ## Reduction -/

mutual

/-- A selection without its place, arguments and directives. -/
def Selection.reduce : Selection Place → QueryFragments.Selection
  | .field _ alias? name _ _ selections => .field alias? name (Selection.reduceList selections)
  | .spread _ name _ => .spread name
  | .inlineFragment _ typeCondition? _ selections =>
    .inlineFragment typeCondition? (Selection.reduceList selections)

/-- Every selection of a set, reduced. -/
def Selection.reduceList : List (Selection Place) → List QueryFragments.Selection
  | [] => []
  | s :: rest => s.reduce :: Selection.reduceList rest

end

/-- An operation of the given kind, without its place, variables and directives. -/
def Operation.reduce (kind : OperationKind) (o : Operation Place) : QueryFragments.Operation :=
  ⟨kind, o.name?, Selection.reduceList o.selections⟩

/-- A fragment without its place and directives. -/
def Fragment.reduce (f : Fragment Place) : QueryFragments.Fragment :=
  ⟨f.name, f.typeCondition, Selection.reduceList f.selections⟩

/-- A definition without all that is dropped. -/
def Definition.reduce : Definition Place → QueryFragments.Definition
  | .shorthand _ selections => .operation ⟨.query, none, Selection.reduceList selections⟩
  | .query o => .operation (o.reduce .query)
  | .mutation o => .operation (o.reduce .mutation)
  | .subscription o => .operation (o.reduce .subscription)
  | .fragment f => .fragment f.reduce

/-- A document as written, reduced. -/
def Document.reduce (d : Document Place) : QueryFragments.Document :=
  ⟨d.definitions.map Definition.reduce⟩

/-! ## Writing out -/

mutual

/-- A selection, written without arguments and directives. -/
def Selection.ofSelection (place : Place) : QueryFragments.Selection → Selection Place
  | .field alias? name selections =>
    .field place alias? name [] [] (Selection.ofSelections place selections)
  | .spread name => .spread place name []
  | .inlineFragment typeCondition? selections =>
    .inlineFragment place typeCondition? [] (Selection.ofSelections place selections)

/-- Every selection of a set, written out. -/
def Selection.ofSelections (place : Place) :
    List QueryFragments.Selection → List (Selection Place)
  | [] => []
  | s :: rest => Selection.ofSelection place s :: Selection.ofSelections place rest

end

/-- What is written of an operation in full, without variables and directives. -/
def Operation.ofOperation (place : Place) (o : QueryFragments.Operation) : Operation Place :=
  ⟨place, o.name?, [], [], Selection.ofSelections place o.selections⟩

/-- A fragment, written without directives. -/
def Fragment.ofFragment (place : Place) (f : QueryFragments.Fragment) : Fragment Place :=
  ⟨place, f.name, f.typeCondition, [], Selection.ofSelections place f.selections⟩

/-- A definition, written in full: an operation has the keyword of its kind. -/
def Definition.ofDefinition (place : Place) : QueryFragments.Definition → Definition Place
  | .operation o =>
    match o.kind with
    | .query => .query (.ofOperation place o)
    | .mutation => .mutation (.ofOperation place o)
    | .subscription => .subscription (.ofOperation place o)
  | .fragment f => .fragment (.ofFragment place f)

/-- A document, written out. -/
def Document.ofDocument (place : Place) (d : QueryFragments.Document) : Document Place :=
  ⟨d.definitions.map (Definition.ofDefinition place)⟩

end QueryFragments.Source
