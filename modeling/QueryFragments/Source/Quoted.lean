import QueryFragments.Source.Taken

/-!
# Quoted texts

A text stands between quotes, with escapes, on one line; a block stands between triple
quotes and may hold anything else. Both readers start after the opening quotes and read up
to and over the closing ones.
-/

namespace QueryFragments.Source

namespace Quoted

/-- The value of a hexadecimal digit. -/
def hexDigit? (c : Char) : Option Nat :=
  if c.isDigit then some (c.toNat - '0'.toNat)
  else if 'a' ≤ c && c ≤ 'f' then some (c.toNat - 'a'.toNat + 10)
  else if 'A' ≤ c && c ≤ 'F' then some (c.toNat - 'A'.toNat + 10)
  else none

/-- The number that hexadecimal digits denote, after what came before them. -/
def hexDigits? (v : Nat) : List Char → Option Nat
  | [] => some v
  | c :: cs => do
    let d ← hexDigit? c
    hexDigits? (16 * v + d) cs

/-- A hexadecimal number; a plus sign may stand in front of its digits. -/
def hexNumber? : List Char → Option Nat
  | '+' :: cs => if cs.isEmpty then none else hexDigits? 0 cs
  | cs => if cs.isEmpty then none else hexDigits? 0 cs

/-- The character of a code point. Surrogates are no characters. -/
def character? (code : Nat) : Option Char :=
  if code.isValidChar then some (Char.ofNat code) else none

/-- The character that is escaped by a backslash and one more character. -/
def escaped? : Char → Option Char
  | '"' => some '"'
  | '\\' => some '\\'
  | '/' => some '/'
  | 'b' => some '\x08'
  | 'f' => some '\x0c'
  | 'n' => some '\n'
  | 'r' => some '\r'
  | 't' => some '\t'
  | _ => none

/-- Read what follows the backslash of an escape. -/
def escape? : (cs : List Char) → Option (Taken Char Char cs.length)
  | 'u' :: a :: b :: c :: d :: rest => do
    let code ← hexNumber? [a, b, c, d]
    let value ← character? code
    return (Taken.one value rest).behind.behind.behind.behind
  | c :: rest => do
    let value ← escaped? c
    return .one value rest
  | [] => none

/-- Read a text after its opening quote. -/
def text? (cs : List Char) : Option (Taken Char (List Char) cs.length) :=
  match cs with
  | [] => none
  | '"' :: rest => some (.one [] rest)
  | '\\' :: rest => do
    let c ← escape? rest
    let others ← text? c.rest
    return ((c.andMaybe others.behind).map (c.value :: ·)).behind
  | c :: rest =>
    if c = '\n' then none
    else do
      let others ← text? rest
      return (others.map (c :: ·)).behind
termination_by cs.length
decreasing_by
  · exact Nat.lt_succ_of_lt c.short
  · exact Nat.lt_succ_self _

/-- Read a block after its opening quotes. Three quotes do not close it if a backslash
stands in front of them, which is what `escaped` tells; such quotes are passed over
together. -/
def block? (escaped : Bool) : (cs : List Char) → Option (Taken Char (List Char) cs.length)
  | '"' :: '"' :: '"' :: rest =>
    if escaped then do
      let others ← block? false rest
      return (others.map ('"' :: '"' :: '"' :: ·)).behind.behind.behind
    else some (Taken.one [] rest).behind.behind
  | c :: rest => do
    let others ← block? (c = '\\') rest
    return (others.map (c :: ·)).behind
  | [] => none

end Quoted

end QueryFragments.Source
