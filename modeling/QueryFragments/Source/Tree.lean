import QueryFragments.Name

/-!
# The tree of a source text

What the text of a document says, with all that is written at its nodes: values,
arguments, directives and variables. An operation may be written in full, as a query, a
mutation or a subscription, or as a bare selection set, the shorthand for a query without a
name.

A node also says where it stands in the text. What a `Place` is, a line and a column or a
stretch of the text, is left to whoever reads the text.
-/

namespace QueryFragments.Source

/-- A written value. -/
inductive Value where
  /-- the value of a variable -/
  | variableValue (name : Name)
  /-- an integer -/
  | int (value : Int)
  /-- a number with a fraction or an exponent, as it is written -/
  | float (numeral : String)
  /-- a text -/
  | string (text : String)
  /-- a bare word: a truth value, the absent value or a member of an enumeration -/
  | word (name : Name)
  /-- values in order -/
  | list (items : List Value)
  /-- values under names -/
  | object (members : List (Name × Value))

/-- A value for a parameter. -/
structure Argument where
  /-- the parameter -/
  name : Name
  /-- its value -/
  value : Value

/-- An annotation of a node. -/
structure Directive (Place : Type) where
  /-- where it stands -/
  place : Place
  /-- what it is called -/
  name : Name
  /-- its arguments, in order -/
  arguments : List Argument

/-- A written type. -/
inductive TypeRef where
  /-- a type by its name -/
  | named (name : Name)
  /-- lists of a type -/
  | list (items : TypeRef)
  /-- a type without the absent value -/
  | nonNull (type : TypeRef)

/-- A declared variable. -/
structure Variable (Place : Type) where
  /-- where it stands -/
  place : Place
  /-- what it is called -/
  name : Name
  /-- the type of its values -/
  type : TypeRef
  /-- its value if none is given -/
  default? : Option Value

/-- A written selection. -/
inductive Selection (Place : Type) where
  /-- a field -/
  | field (place : Place) (alias? : Option Name) (name : Name) (arguments : List Argument)
      (directives : List (Directive Place)) (selections : List (Selection Place))
  /-- a spread of a named fragment -/
  | spread (place : Place) (name : Name) (directives : List (Directive Place))
  /-- a fragment written in place -/
  | inlineFragment (place : Place) (typeCondition? : Option Name)
      (directives : List (Directive Place)) (selections : List (Selection Place))

/-- What is written of an operation in full, whatever its keyword. -/
structure Operation (Place : Type) where
  /-- where it stands -/
  place : Place
  /-- the name, if it has one -/
  name? : Option Name
  /-- the variables that it declares, in order -/
  declarations : List (Variable Place)
  /-- its directives, in order -/
  directives : List (Directive Place)
  /-- what is requested -/
  selections : List (Selection Place)

/-- A written fragment. -/
structure Fragment (Place : Type) where
  /-- where it stands -/
  place : Place
  /-- the name by which it is spread -/
  name : Name
  /-- the type that it applies to -/
  typeCondition : Name
  /-- its directives, in order -/
  directives : List (Directive Place)
  /-- what a spread of it selects -/
  selections : List (Selection Place)

/-- A written definition. -/
inductive Definition (Place : Type) where
  /-- a bare selection set -/
  | shorthand (place : Place) (selections : List (Selection Place))
  /-- an operation with the keyword `query` -/
  | query (operation : Operation Place)
  /-- an operation with the keyword `mutation` -/
  | mutation (operation : Operation Place)
  /-- an operation with the keyword `subscription` -/
  | subscription (operation : Operation Place)
  /-- a fragment -/
  | fragment (fragment : Fragment Place)

/-- A written document. -/
structure Document (Place : Type) where
  /-- the definitions, first to last -/
  definitions : List (Definition Place)

end QueryFragments.Source
