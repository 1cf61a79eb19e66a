/-!
# Numerals

An integer is written without superfluous zeros and has a value of 64 bits with sign. Any
other number has a fraction, an exponent or both, and may be of any size.

An exponent starts with a sign or with one of the digits `1` to `8`.
-/

namespace QueryFragments.Source

/-- The value of a numeral. -/
inductive Numeral where
  /-- an integer -/
  | int (value : Int)
  /-- a number with a fraction or an exponent, as it is written -/
  | float (text : List Char)
  deriving DecidableEq

namespace Numeral

/-- Whether a character ends the numeral that it follows. -/
def isEnd (c : Char) : Bool :=
  c ∈ [' ', '\n', '\r', '\t', ',', '#', '!', '$', ':', '=', '@', '|', '&', '(', ')', '[', ']',
    '{', '}']

/-- Whether a character can start a numeral. -/
def isStart (c : Char) : Bool := c = '-' || c.isDigit

/-- What stands before and after the last character of a class. -/
def splitLast? (p : Char → Bool) : List Char → Option (List Char × List Char)
  | [] => none
  | c :: cs =>
    match splitLast? p cs with
    | some (before, after) => some (c :: before, after)
    | none => if p c then some ([], cs) else none

/-- The number that digits denote. -/
def digitsValue (ds : List Char) : Nat :=
  ds.foldl (fun v d => 10 * v + (d.toNat - '0'.toNat)) 0

/-- Whether the digits of an integer are well written: a lone zero, or no zero in front. -/
def isDigits : List Char → Bool
  | ['0'] => true
  | d :: ds => d ≠ '0' && d.isDigit && ds.all Char.isDigit
  | [] => false

/-- The value of an integer, of any size. -/
def integer? : List Char → Option Int
  | '-' :: ds => if isDigits ds then some (-(digitsValue ds : Int)) else none
  | ds => if isDigits ds then some (digitsValue ds : Int) else none

/-- Whether this is the part of a number after its point. -/
def isFraction (ds : List Char) : Bool := !ds.isEmpty && ds.all Char.isDigit

/-- Whether this is an exponent. -/
def isExponent : List Char → Bool
  | '+' :: ds => isFraction ds
  | '-' :: ds => isFraction ds
  | d :: ds => '1' ≤ d && d ≤ '8' && ds.all Char.isDigit
  | [] => false

/-- Whether this is an integer with a fraction after it. -/
def isDecimal (cs : List Char) : Bool :=
  match splitLast? (· = '.') cs with
  | some (whole, fraction) => (integer? whole).isSome && isFraction fraction
  | none => false

/-- Whether an integer has 64 bits with sign. -/
def fits (v : Int) : Bool := -0x8000000000000000 ≤ v && v < 0x8000000000000000

/-- Read a numeral. -/
def read? (cs : List Char) : Option Numeral :=
  match splitLast? (fun c => c = 'e' || c = 'E') cs with
  | some (significand, exponent) =>
    if isExponent exponent && ((integer? significand).isSome || isDecimal significand) then
      some (.float cs)
    else none
  | none =>
    if isDecimal cs then some (.float cs)
    else do
      let v ← integer? cs
      if fits v then some (.int v) else none

end Numeral

end QueryFragments.Source
