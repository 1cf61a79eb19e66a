import QueryFragments.Source.Tree
import QueryFragments.Source.Token

/-!
# The grammar of documents

One function for each rule of the grammar. A rule looks at the next tokens, decides by them
how to go on and never takes a decision back; it has no result where the text breaks it.

Every rule that reads at least one token says so in its type: the rest has fewer tokens
than the rule was given. A rule that may read nothing has a bound that is larger by one.

Tokens do not say where they stand, so neither do the nodes that are read here: their
places are of the type `Unit`.
-/

namespace QueryFragments.Source

namespace Grammar

/-- What a rule reads, when it leaves fewer than `n` tokens. -/
abbrev Parsed (α : Type) (n : Nat) : Type := Taken Token α n

/-! ## Repetition -/

/-- Read items up to and over a closing mark. The rule for an item need only deal with
sequences of fewer than `n` tokens. -/
def itemsUntil {α : Type} {n : Nat} (close : Char)
    (item : (ts : List Token) → ts.length < n → Option (Parsed α ts.length))
    (ts : List Token) (hts : ts.length < n) : Option (Parsed (List α) ts.length) :=
  match ts with
  | [] => none
  | t :: rest =>
    if t = .mark close then some (.one [] rest)
    else do
      let first ← item (t :: rest) hts
      let others ← itemsUntil close item first.rest (Nat.lt_trans first.short hts)
      return (first.andMaybe others.behind).map (first.value :: ·)
termination_by ts.length
decreasing_by exact first.short

/-- Read at least one item, and then as `itemsUntil` does. -/
def someUntil {α : Type} {n : Nat} (close : Char)
    (item : (ts : List Token) → ts.length < n → Option (Parsed α ts.length))
    (ts : List Token) (hts : ts.length < n) : Option (Parsed (List α) ts.length) := do
  let items ← itemsUntil close item ts hts
  if items.value.isEmpty then none else some items

/-! ## Values, arguments and directives -/

mutual

/-- Read a value. Where `constant` holds, no variable may occur in it. -/
def value (constant : Bool) (ts : List Token) : Option (Parsed Value ts.length) :=
  match ts with
  | .name n :: rest => some (.one (.word n) rest)
  | .int v :: rest => some (.one (.int v) rest)
  | .float numeral :: rest => some (.one (.float numeral) rest)
  | .string text :: rest => some (.one (.string text) rest)
  | .mark '$' :: .name n :: rest =>
    if constant then none else some (Taken.one (.variableValue n) rest).behind
  | .mark '[' :: rest => do
    let items ← itemsUntil ']' (fun ts _ => value constant ts) rest (Nat.lt_succ_self _)
    return (items.map .list).behind
  | .mark '{' :: rest => do
    let members ← itemsUntil '}' (fun ts _ => namedValue constant ts) rest (Nat.lt_succ_self _)
    return (members.map .object).behind
  | _ => none
termination_by ts.length

/-- Read a name, a colon and a value. -/
def namedValue (constant : Bool) (ts : List Token) : Option (Parsed (Name × Value) ts.length) :=
  match ts with
  | .name n :: .mark ':' :: rest => do
    let v ← value constant rest
    return (v.map (n, ·)).behind.behind
  | _ => none
termination_by ts.length

end

/-- Read arguments, if there are any. -/
def arguments (ts : List Token) : Option (Parsed (List Argument) (ts.length + 1)) :=
  match ts with
  | .mark '(' :: rest => do
    let items ← someUntil ')' (fun ts _ => namedValue false ts) rest (Nat.lt_succ_self _)
    return (items.map (·.map fun (n, v) => ⟨n, v⟩)).behind.behind
  | ts => some (.nothing [] ts)

/-- Read all directives that follow one another. -/
def directives (ts : List Token) : Option (Parsed (List (Directive Unit)) (ts.length + 1)) :=
  match ts with
  | .mark '@' :: .name n :: rest => do
    let args ← arguments rest
    let others ← directives args.rest
    return ((args.andMaybe others).map (⟨(), n, args.value⟩ :: ·)).behind.behind
  | .mark '@' :: _ => none
  | ts => some (.nothing [] ts)
termination_by ts.length
decreasing_by exact Nat.lt_succ_of_lt args.short

/-! ## Variables -/

/-- Read the mark that excludes the absent value, if it is there. -/
def nonNullMark (type : TypeRef) (ts : List Token) : Parsed TypeRef (ts.length + 1) :=
  match ts with
  | .mark '!' :: rest => (Taken.one (.nonNull type) rest).behind
  | ts => .nothing type ts

/-- Read the mark that closes the type of a list, and what may follow it. -/
def listTypeEnd (items : TypeRef) (ts : List Token) : Option (Parsed TypeRef ts.length) :=
  match ts with
  | .mark ']' :: rest => some (nonNullMark (.list items) rest)
  | _ => none

/-- Read a type. -/
def type (ts : List Token) : Option (Parsed TypeRef ts.length) :=
  match ts with
  | .name n :: rest => some (nonNullMark (.named n) rest)
  | .mark '[' :: rest => do
    let items ← type rest
    let whole ← listTypeEnd items.value items.rest
    return (items.andMaybe whole.behind).behind
  | _ => none
termination_by ts.length

/-- Read the value that a variable has by default, if it is there. -/
def defaultValue (ts : List Token) : Option (Parsed (Option Value) (ts.length + 1)) :=
  match ts with
  | .mark '=' :: rest => do
    let v ← value true rest
    return (v.map some).behind.behind
  | ts => some (.nothing none ts)

/-- Read the declaration of a variable. -/
def declaration (ts : List Token) : Option (Parsed (Variable Unit) ts.length) :=
  match ts with
  | .mark '$' :: .name n :: .mark ':' :: rest => do
    let t ← type rest
    let default? ← defaultValue t.rest
    return ((t.andMaybe default?).map (⟨(), n, t.value, ·⟩)).behind.behind.behind
  | _ => none

/-- Read the declarations of variables, if there are any. -/
def declarations (ts : List Token) : Option (Parsed (List (Variable Unit)) (ts.length + 1)) :=
  match ts with
  | .mark '(' :: rest => do
    let items ← someUntil ')' (fun ts _ => declaration ts) rest (Nat.lt_succ_self _)
    return items.behind.behind
  | ts => some (.nothing [] ts)

/-! ## Selections -/

mutual

/-- Read a selection set. -/
def selectionSet (ts : List Token) : Option (Parsed (List (Selection Unit)) ts.length) :=
  match ts with
  | .mark '{' :: rest => do
    let items ← someUntil '}' (fun ts _ => selection ts) rest (Nat.lt_succ_self _)
    return items.behind
  | _ => none
termination_by (ts.length, 0)

/-- Read a selection set, if there is one. -/
def optionalSet (ts : List Token) : Option (Parsed (List (Selection Unit)) (ts.length + 1)) :=
  match ts with
  | .mark '{' :: rest => do
    let set ← selectionSet (.mark '{' :: rest)
    return set.behind
  | ts => some (.nothing [] ts)
termination_by (ts.length, 1)

/-- Read a selection. After the dots, `on` is never the name of a fragment. -/
def selection (ts : List Token) : Option (Parsed (Selection Unit) ts.length) :=
  match ts with
  | .ellipsis :: .name "on" :: .name n :: rest => do
    let ds ← directives rest
    let set ← selectionSet ds.rest
    return ((ds.andThen set).map (.inlineFragment () (some n) ds.value)).behind.behind.behind
  | .ellipsis :: .name "on" :: _ => none
  | .ellipsis :: .name n :: rest => do
    let ds ← directives rest
    return (ds.map (.spread () n)).behind
  -- neither a type nor a name follows the dots
  | .ellipsis :: rest => do
    let ds ← directives rest
    let set ← selectionSet ds.rest
    return ((ds.andThen set).map (.inlineFragment () none ds.value)).behind
  -- of two names the first is the alias
  | .name n :: .mark ':' :: .name m :: rest => do
    let args ← arguments rest
    let ds ← directives args.rest
    let set ← optionalSet ds.rest
    return (((args.andMaybe ds).andMaybe set).map
      (.field () (some n) m args.value ds.value)).behind.behind
  | .name _ :: .mark ':' :: _ => none
  | .name n :: rest => do
    let args ← arguments rest
    let ds ← directives args.rest
    let set ← optionalSet ds.rest
    return ((args.andMaybe ds).andMaybe set).map (.field () none n args.value ds.value)
  | _ => none
termination_by (ts.length, 0)
decreasing_by
  · exact .left _ _ (Nat.lt_succ_of_lt (Nat.lt_succ_of_lt ds.short))
  · exact .left _ _ ds.short
  · exact .left _ _
      (Nat.lt_succ_of_lt (Nat.lt_succ_of_lt (Nat.lt_of_lt_of_le ds.short args.short)))
  · exact .left _ _ (Nat.lt_of_lt_of_le ds.short args.short)

end

/-! ## Definitions -/

/-- Read the name of an operation, if it is there. -/
def operationName (ts : List Token) : Parsed (Option Name) (ts.length + 1) :=
  match ts with
  | .name n :: rest => (Taken.one (some n) rest).behind
  | ts => .nothing none ts

/-- Read an operation from after its keyword on. -/
def operation (ts : List Token) : Option (Parsed (Operation Unit) ts.length) := do
  let name? := operationName ts
  let vars ← declarations name?.rest
  let ds ← directives vars.rest
  let set ← selectionSet ds.rest
  return (((name?.andMaybe vars).andMaybe ds).andThen set).map
    (⟨(), name?.value, vars.value, ds.value, ·⟩)

/-- What a keyword makes of the operation that follows it. -/
def underKeyword? : String → Option (Operation Unit → Definition Unit)
  | "query" => some .query
  | "mutation" => some .mutation
  | "subscription" => some .subscription
  | _ => none

/-- Read a definition. -/
def definition (ts : List Token) : Option (Parsed (Definition Unit) ts.length) :=
  match ts with
  | .name "fragment" :: .name n :: .name "on" :: .name t :: rest => do
    let ds ← directives rest
    let set ← selectionSet ds.rest
    return ((ds.andThen set).map (.fragment ⟨(), n, t, ds.value, ·⟩)).behind.behind.behind.behind
  -- any other word that starts a definition is the keyword of an operation
  | .name keyword :: rest => do
    let definition ← underKeyword? keyword
    let o ← operation rest
    return (o.map definition).behind
  | ts => do
    let set ← selectionSet ts
    return set.map (.shorthand ())

/-- Read definitions to the end. -/
def definitions (ts : List Token) : Option (List (Definition Unit)) :=
  match ts with
  | [] => some []
  | t :: rest => do
    let first ← definition (t :: rest)
    let others ← definitions first.rest
    return first.value :: others
termination_by ts.length
decreasing_by exact first.short

end Grammar

/-- Read the text of a document. A document has at least one definition. -/
def Document.parse? (text : String) : Option (Document Unit) := do
  let ts ← Token.scan? text.toList
  if ts.isEmpty || !Token.withinDepth 0 ts then none
  else (Grammar.definitions ts).map Document.mk

end QueryFragments.Source
