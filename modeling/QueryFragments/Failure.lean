import QueryFragments.Name
import QueryFragments.Diagnostic

/-!
# Failures

Why an operation could not be selected, or the fragments of a selection set could not be
resolved. A `Failure` is a cause with its evidence; `Failure.diagnostic` is its wording.
-/

namespace QueryFragments

/-- Why a document could not be processed. -/
inductive Failure where
  /-- the lone operation was asked for and there is none -/
  | noOperation
  /-- the lone operation was asked for and there are several -/
  | ambiguousOperation
  /-- no operation has this name -/
  | unknownOperation (name : Name)
  /-- this name is spread and no fragment has it -/
  | undefinedFragment (name : Name)
  /-- this name is spread where the fragments on the path, outermost first, are being
  expanded, and it is one of them -/
  | spreadCycle (path : List Name) (name : Name)
  deriving DecidableEq

/-- The names on a path and the name that it leads to, with arrows between them. -/
def trail (path : List Name) (name : Name) : String :=
  " -> ".intercalate (path ++ [name])

namespace Failure

/-- The wording of a failure. -/
def diagnostic : Failure → Diagnostic
  | noOperation => ⟨"Document does not contain any operations", none, .lookup⟩
  | ambiguousOperation =>
    ⟨"Document contains more than one operation, missing operation name", none, .lookup⟩
  | unknownOperation name => ⟨"Operation with name " ++ name ++ " does not exist", none, .lookup⟩
  | undefinedFragment name => ⟨"Unknown fragment \"" ++ name ++ "\"", none, .missingFragment⟩
  | spreadCycle path name =>
    ⟨"Cannot spread fragment \"" ++ name ++ "\" within itself", some (trail path name),
      .fragmentCycle⟩

end Failure

end QueryFragments
