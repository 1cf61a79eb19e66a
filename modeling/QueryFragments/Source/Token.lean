import QueryFragments.Name
import QueryFragments.Source.Numeral
import QueryFragments.Source.Quoted

/-!
# Tokens

A source text is a sequence of tokens with blanks, commas and comments between them.
`Token.scan?` finds the tokens of a text; it has none if some character starts no token or
a token does not end.

Brackets may be open inside one another up to `Token.depthLimit`, whatever their shape.
-/

namespace QueryFragments.Source

/-- A word, mark or literal of a source text. -/
inductive Token where
  /-- a mark of one character -/
  | mark (c : Char)
  /-- three dots -/
  | ellipsis
  /-- a name or a keyword -/
  | name (name : Name)
  /-- an integer -/
  | int (value : Int)
  /-- a number with a fraction or an exponent, as it is written -/
  | float (numeral : String)
  /-- a text on one line or in a block -/
  | string (text : String)
  deriving DecidableEq

namespace Token

/-! ## Classes of characters -/

/-- Whether a character may stand between tokens for nothing. -/
def isBlank (c : Char) : Bool := c ∈ ['\uFEFF', '\r', '\n', '\t', ' ', ',']

/-- Whether a character ends a line. -/
def isLineEnd (c : Char) : Bool := c = '\r' || c = '\n'

/-- Whether a character is a mark of its own. -/
def isMark (c : Char) : Bool :=
  c ∈ ['(', ')', '[', ']', '{', '}', '!', '$', ':', '=', '@', '|', '&']

/-! ## One token -/

/-- Leave out blanks and comments. A comment goes to the end of its line. -/
def skipBlanks : List Char → List Char
  | [] => []
  | c :: cs =>
    if isBlank c then skipBlanks cs
    else if c = '#' then skipBlanks (cs.dropWhile (!isLineEnd ·))
    else c :: cs
termination_by cs => cs.length
decreasing_by
  · exact Nat.lt_succ_self _
  · have := (List.dropWhile_suffix (l := cs) (!isLineEnd ·)).length_le
    simp only [List.length_cons]
    omega

theorem length_skipBlanks_le (cs : List Char) : (skipBlanks cs).length ≤ cs.length := by
  fun_induction skipBlanks cs with
  | case1 => simp
  | case2 c cs _ ih => simp only [List.length_cons]; omega
  | case3 cs _ ih =>
    have := (List.dropWhile_suffix (l := cs) (!isLineEnd ·)).length_le
    simp only [List.length_cons]
    omega
  | case4 => simp

/-- Read a first character and those of a class that follow it. -/
def takeRun (p : Char → Bool) (c : Char) (cs : List Char) :
    Taken Char (List Char) (cs.length + 1) :=
  ⟨c :: cs.takeWhile p, cs.dropWhile p,
    Nat.lt_succ_of_le (List.dropWhile_suffix (l := cs) p).length_le⟩

/-- The token that a numeral makes. -/
def ofNumeral : Numeral → Token
  | .int v => .int v
  | .float text => .float (String.ofList text)

/-- Read one token off the front of a text. -/
def next? (cs : List Char) : Option (Taken Char Token cs.length) :=
  match cs with
  | [] => none
  | '.' :: '.' :: '.' :: rest => some (Taken.one .ellipsis rest).behind.behind
  -- three quotes open a block, never an empty text
  | '"' :: '"' :: '"' :: rest => do
    let block ← Quoted.block? false rest
    return (block.map fun text => .string (String.ofList text)).behind.behind.behind
  | '"' :: rest => do
    let quoted ← Quoted.text? rest
    return (quoted.map fun text => .string (String.ofList text)).behind
  | c :: rest =>
    if isMark c then some (.one (.mark c) rest)
    else if Name.isStart c then
      some ((takeRun Name.isRest c rest).map fun text => .name (String.ofList text))
    else if Numeral.isStart c then do
      let run := takeRun (!Numeral.isEnd ·) c rest
      let numeral ← Numeral.read? run.value
      return run.map fun _ => ofNumeral numeral
    else none

/-! ## All tokens -/

/-- The tokens of a text. -/
def scan? (cs : List Char) : Option (List Token) :=
  match _h : skipBlanks cs with
  | [] => some []
  | c :: rest => do
    let t ← next? (c :: rest)
    let others ← scan? t.rest
    return t.value :: others
termination_by cs.length
decreasing_by exact Nat.lt_of_lt_of_le t.short (_h ▸ length_skipBlanks_le cs)

/-- How many brackets may be open at a time. -/
def depthLimit : Nat := 50

/-- Whether never too many brackets are open, when `n` are open at the start. -/
def withinDepth (n : Nat) : List Token → Bool
  | [] => true
  | .mark c :: ts =>
    if c ∈ ['(', '[', '{'] then n < depthLimit && withinDepth (n + 1) ts
    else if c ∈ [')', ']', '}'] then withinDepth (n - 1) ts
    else withinDepth n ts
  | _ :: ts => withinDepth n ts

end Token

end QueryFragments.Source
