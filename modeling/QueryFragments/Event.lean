import QueryFragments.Failure

/-!
# Events

What a resolution reports while it runs. An event has a level and a text.
-/

namespace QueryFragments

/-- How much an event matters to a reader. -/
inductive Level where
  /-- a step of a run that goes well -/
  | trace
  /-- why a run went wrong -/
  | debug
  deriving DecidableEq

/-- The level in one word. -/
def Level.tag : Level → String
  | .trace => "TRACE"
  | .debug => "DEBUG"

/-- A report of a running resolution. -/
inductive Event where
  /-- the fragment of this name is opened -/
  | expanding (name : Name)
  /-- this name is spread within itself -/
  | cycle (path : List Name) (name : Name)
  /-- this name is spread and no fragment has it -/
  | undefined (name : Name)
  /-- an operation was put together with so many fragments -/
  | bundled (count : Nat)
  deriving DecidableEq

namespace Event

/-- The level of an event. -/
def level : Event → Level
  | expanding _ => .trace
  | cycle _ _ => .debug
  | undefined _ => .debug
  | bundled _ => .trace

/-- The text of an event. -/
def text : Event → String
  | expanding name => "Expanding fragment \"" ++ name ++ "\""
  | cycle path name => "Fragment spread cycle: " ++ trail path name
  | undefined name => "Fragment spread \"" ++ name ++ "\" has no definition"
  | bundled count => "Bundled operation with " ++ Nat.repr count ++ " fragment definition(s)"

end Event

end QueryFragments
