import QueryFragments.Selection

/-!
# Operations and fragments

The definitions of a document. An operation is one of three kinds and may go without a
name; a fragment always has a name and the type that it applies to. Fragments may be
spread by name in any selection set of the document.
-/

namespace QueryFragments

/-- The three kinds of operation. -/
inductive OperationKind where
  /-- reads -/
  | query
  /-- writes, then reads -/
  | mutation
  /-- goes on reading -/
  | subscription
  deriving DecidableEq

/-- The word that starts an operation of this kind. -/
def OperationKind.keyword : OperationKind → String
  | .query => "query"
  | .mutation => "mutation"
  | .subscription => "subscription"

/-- The kind that a word starts. -/
def OperationKind.ofKeyword? : String → Option OperationKind
  | "query" => some .query
  | "mutation" => some .mutation
  | "subscription" => some .subscription
  | _ => none

@[simp] theorem OperationKind.ofKeyword?_keyword (k : OperationKind) :
    ofKeyword? k.keyword = some k := by
  cases k <;> rfl

/-- A request that a document makes. -/
structure Operation where
  /-- query, mutation or subscription -/
  kind : OperationKind
  /-- the name, if it has one -/
  name? : Option Name
  /-- what is requested -/
  selections : List Selection
  deriving DecidableEq

/-- A named piece of a selection set. -/
structure Fragment where
  /-- the name by which it is spread -/
  name : Name
  /-- the type that it applies to -/
  typeCondition : Name
  /-- what a spread of it selects -/
  selections : List Selection
  deriving DecidableEq

/-- One definition of a document. -/
inductive Definition where
  /-- defines an operation -/
  | operation (operation : Operation)
  /-- defines a fragment -/
  | fragment (fragment : Fragment)
  deriving DecidableEq

/-- The names that an operation spreads, at any depth, in document order. -/
def Operation.spreads (o : Operation) : List Name := Selection.spreadsIn o.selections

/-- The names that a fragment spreads, at any depth, in document order. -/
def Fragment.spreads (f : Fragment) : List Name := Selection.spreadsIn f.selections

/-- Whether this operation reads only. -/
def Operation.isQuery (o : Operation) : Bool := o.kind = .query

/-- Whether this operation writes. -/
def Operation.isMutation (o : Operation) : Bool := o.kind = .mutation

/-- Whether this operation goes on reading. -/
def Operation.isSubscription (o : Operation) : Bool := o.kind = .subscription

namespace Definition

/-- The kind of a definition. -/
def kind : Definition → Kind
  | .operation _ => .operationDefinition
  | .fragment _ => .fragmentDefinition

/-- Whether this defines an operation. -/
def isOperation (d : Definition) : Bool := d.kind = .operationDefinition

/-- Whether this defines a fragment. -/
def isFragment (d : Definition) : Bool := d.kind = .fragmentDefinition

/-- The operation, if this defines one. -/
def operation? : Definition → Option Operation
  | .operation o => some o
  | .fragment _ => none

/-- The fragment, if this defines one. -/
def fragment? : Definition → Option Fragment
  | .operation _ => none
  | .fragment f => some f

/-- The operation, if this defines one of the given name. -/
def operationNamed? (name : Name) : Definition → Option Operation
  | .operation o => if o.name? = some name then some o else none
  | .fragment _ => none

/-- Whether this defines a query. -/
def isQuery (d : Definition) : Bool := d.operation?.any Operation.isQuery

/-- Whether this defines a mutation. -/
def isMutation (d : Definition) : Bool := d.operation?.any Operation.isMutation

/-- Whether this defines a subscription. -/
def isSubscription (d : Definition) : Bool := d.operation?.any Operation.isSubscription

/-- Whether this can be executed: it defines a query, a mutation or a subscription. -/
def isExecutable (d : Definition) : Bool := d.isQuery || d.isMutation || d.isSubscription

/-- What the definition selects. -/
def selections : Definition → List Selection
  | .operation o => o.selections
  | .fragment f => f.selections

/-- The names that a definition spreads, at any depth, in document order. -/
def spreads (d : Definition) : List Name := Selection.spreadsIn d.selections

@[simp] theorem operation?_operation (o : Operation) : (operation o).operation? = some o := rfl

@[simp] theorem operation?_fragment (f : Fragment) : (fragment f).operation? = none := rfl

@[simp] theorem fragment?_operation (o : Operation) : (operation o).fragment? = none := rfl

@[simp] theorem fragment?_fragment (f : Fragment) : (fragment f).fragment? = some f := rfl

/-- An operation of any kind can be executed. -/
@[simp] theorem isExecutable_operation (o : Operation) : (operation o).isExecutable = true := by
  obtain ⟨kind, name?, selections⟩ := o
  cases kind <;> rfl

/-- A fragment cannot. -/
@[simp] theorem isExecutable_fragment (f : Fragment) : (fragment f).isExecutable = false := rfl

theorem operation?_eq_some_iff {d : Definition} {o : Operation} :
    d.operation? = some o ↔ d = operation o := by
  cases d <;> simp

theorem fragment?_eq_some_iff {d : Definition} {f : Fragment} :
    d.fragment? = some f ↔ d = fragment f := by
  cases d <;> simp

end Definition

end QueryFragments
