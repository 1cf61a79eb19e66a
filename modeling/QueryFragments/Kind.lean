/-!
# Kinds of nodes

Every node of a query document has a kind, which has two texts: a `title` for readers
and a `tag` for machines.
-/

namespace QueryFragments

/-- The kind of a node of a query document. -/
inductive Kind where
  /-- a whole document -/
  | document
  /-- a query, mutation or subscription -/
  | operationDefinition
  /-- a named fragment -/
  | fragmentDefinition
  /-- a field, with or without nested selections -/
  | field
  /-- a named fragment spread in a selection set -/
  | fragmentSpread
  /-- a fragment written in place -/
  | inlineFragment
  deriving DecidableEq

namespace Kind

/-- The kind in words. -/
def title : Kind → String
  | document => "Document"
  | operationDefinition => "Operation Definition"
  | fragmentDefinition => "Fragment Definition"
  | field => "Field"
  | fragmentSpread => "Fragment Spread"
  | inlineFragment => "Inline Fragment"

/-- The kind in one word. -/
def tag : Kind → String
  | document => "Document"
  | operationDefinition => "OperationDefinition"
  | fragmentDefinition => "FragmentDefinition"
  | field => "Field"
  | fragmentSpread => "FragmentSpread"
  | inlineFragment => "InlineFragment"

/-- The kind that a tag names. -/
def ofTag? : String → Option Kind
  | "Document" => some document
  | "OperationDefinition" => some operationDefinition
  | "FragmentDefinition" => some fragmentDefinition
  | "Field" => some field
  | "FragmentSpread" => some fragmentSpread
  | "InlineFragment" => some inlineFragment
  | _ => none

@[simp] theorem ofTag?_tag (k : Kind) : ofTag? k.tag = some k := by
  cases k <;> rfl

end Kind

end QueryFragments
