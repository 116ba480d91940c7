import FlightProcedure.Pattern.Regex

/-!
# Escape sequences of pattern notation

After a backslash stands a class of characters, a condition on the position, a character given by
its number, or a character that would otherwise have a meaning.
-/

namespace FlightProcedure.Pattern

inductive Escape where
  | char (c : Char)
  | set (set : CharSet)
  | anchor (condition : Anchor)

def hexDigit? (c : Char) : Option Nat :=
  if '0' ≤ c ∧ c ≤ '9' then some (c.toNat - '0'.toNat)
  else if 'a' ≤ c ∧ c ≤ 'f' then some (c.toNat - 'a'.toNat + 10)
  else if 'A' ≤ c ∧ c ≤ 'F' then some (c.toNat - 'A'.toNat + 10)
  else none

/-- The number written by hexadecimal digits, of which there is at least one. -/
def hexNumber? : List Char → Option Nat
  | [] => none
  | digits => digits.foldlM (fun value c => (hexDigit? c).map (value * 16 + ·)) 0

def scalar? (point : Nat) : Option Char := if point.isValidChar then some (Char.ofNat point) else none

/-- A character given by `digits` hexadecimal digits, or by any number of them in braces. -/
def hexEscape? (digits : Nat) : List Char → Option (Char × List Char)
  | '\x7b' :: rest => do
    let number := rest.takeWhile (· != '\x7d')
    match rest.drop number.length with
    | [] => none
    | _ :: rest =>
      let c ← (hexNumber? number).bind scalar?
      some (c, rest)
  | rest => do
    if (rest.take digits).length < digits then none
    else
      let c ← (hexNumber? (rest.take digits)).bind scalar?
      some (c, rest.drop digits)

/-- The ASCII characters that are neither letters nor digits may be escaped, apart from the two
angle brackets. -/
def canEscape (c : Char) : Bool := c.toNat < 0x80 && !c.isAlphanum && c != '<' && c != '>'

def escape? : List Char → Option (Escape × List Char)
  | [] => none
  | c :: rest =>
    match c with
    | 'd' => some (.set .decimalDigit, rest)
    | 'D' => some (.set CharSet.decimalDigit.compl, rest)
    | 's' => some (.set .blank, rest)
    | 'S' => some (.set CharSet.blank.compl, rest)
    | 'w' => some (.set .wordChar, rest)
    | 'W' => some (.set CharSet.wordChar.compl, rest)
    | 'A' => some (.anchor .textStart, rest)
    | 'z' => some (.anchor .textEnd, rest)
    | 'b' => some (.anchor .wordEdge, rest)
    | 'B' => some (.anchor .noWordEdge, rest)
    | 'a' => some (.char '\x07', rest)
    | 'f' => some (.char '\x0c', rest)
    | 't' => some (.char '\t', rest)
    | 'n' => some (.char '\n', rest)
    | 'r' => some (.char '\r', rest)
    | 'v' => some (.char '\x0b', rest)
    | 'x' => (hexEscape? 2 rest).map fun (c, rest) => (.char c, rest)
    | 'u' => (hexEscape? 4 rest).map fun (c, rest) => (.char c, rest)
    | 'U' => (hexEscape? 8 rest).map fun (c, rest) => (.char c, rest)
    | c => if canEscape c then some (.char c, rest) else none

end FlightProcedure.Pattern
