/-!
# Diagnostics

What is shown to a reader when a document cannot be processed: a category, a message and,
for some, a context. `Diagnostic.print` gives one line, or two when the context is asked
for and there is one.
-/

namespace QueryFragments

/-- What kind of thing went wrong. -/
inductive Category where
  /-- something was looked up in a document and not found there -/
  | lookup
  /-- the source text could not be read -/
  | source
  /-- a fragment is spread that no definition defines -/
  | missingFragment
  /-- a fragment is spread within itself -/
  | fragmentCycle
  deriving DecidableEq

namespace Category

/-- The category in words. -/
def title : Category → String
  | lookup => "GraphQL Error"
  | source => "Syntax Error"
  | missingFragment => "Missing Fragment"
  | fragmentCycle => "Fragment Cycle"

/-- The category in one word. -/
def tag : Category → String
  | lookup => "GraphQL"
  | source => "Syntax"
  | missingFragment => "MissingFragment"
  | fragmentCycle => "FragmentCycle"

/-- The category that a word names. -/
def ofTag? : String → Option Category
  | "GraphQL" => some lookup
  | "Syntax" => some source
  | "MissingFragment" => some missingFragment
  | "FragmentCycle" => some fragmentCycle
  | _ => none

@[simp] theorem ofTag?_tag (c : Category) : ofTag? c.tag = some c := by
  cases c <;> rfl

end Category

/-- A message for a reader. -/
structure Diagnostic where
  /-- what went wrong, in one line -/
  message : String
  /-- where, or in which surroundings -/
  context? : Option String
  /-- what kind of thing went wrong -/
  category : Category
  deriving DecidableEq

namespace Diagnostic

/-- A diagnostic whose category may be left open: it is then about a look-up. -/
def compose (message : String) (context? : Option String) (category? : Option Category) :
    Diagnostic :=
  ⟨message, context?, category?.getD .lookup⟩

/-- The first line of a diagnostic: its category and its message. -/
def headline (d : Diagnostic) : String := d.category.title ++ ": " ++ d.message

/-- The text of a diagnostic, with a line for the context if that is asked for and there
is one. -/
def print (d : Diagnostic) (withContext : Bool) : String :=
  match withContext, d.context? with
  | true, some context => d.headline ++ "\n" ++ context
  | _, _ => d.headline

/-- The full text of a diagnostic. -/
def display (d : Diagnostic) : String := d.print true

/-- The full text, on lines of its own. -/
def block (d : Diagnostic) : String := "\n" ++ d.display ++ "\n"

theorem print_false (d : Diagnostic) : d.print false = d.headline := rfl

end Diagnostic

end QueryFragments
