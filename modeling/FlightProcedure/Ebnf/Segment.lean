/-!
# Code and literals of a grammar text

A grammar text consists of code and of literals that must stay as they are: texts in double quotes, in
which a backslash protects the next character, texts in single quotes, patterns between slashes with
their flags, and comments from two slashes to the end of the line. A literal without an end reaches to
the end of the text.
-/

namespace FlightProcedure

structure Segment where
  literal : Bool
  text : List Char
deriving DecidableEq

namespace Segment

/-- The text up to and including a closing mark, and what follows. A backslash protects the character
after it; the mark itself is no backslash. -/
def escapedLiteral (mark : Char) : List Char → List Char × List Char
  | [] => ([], [])
  | '\\' :: c :: rest =>
    let (text, rest) := escapedLiteral mark rest
    ('\\' :: c :: text, rest)
  | c :: rest =>
    if c = mark then ([c], rest)
    else
      let (text, rest) := escapedLiteral mark rest
      (c :: text, rest)

/-- The text up to and including a closing mark, and what follows. -/
def plainLiteral (mark : Char) : List Char → List Char × List Char
  | [] => ([], [])
  | c :: rest =>
    if c = mark then ([c], rest)
    else
      let (text, rest) := plainLiteral mark rest
      (c :: text, rest)

def isPatternFlag (c : Char) : Bool := c == 'i' || c == 'm' || c == 's' || c == 'u' || c == 'x'

/-- The rest of a literal that starts with a character, and what follows it, if a literal can start
with that character. -/
def literal? (c : Char) (rest : List Char) : Option (List Char × List Char) :=
  if c = '"' then
    let (text, rest) := escapedLiteral '"' rest
    some ('"' :: text, rest)
  else if c = '\'' then
    let (text, rest) := plainLiteral '\'' rest
    some ('\'' :: text, rest)
  else if c = '/' then
    if rest.head? = some '/' then
      some ('/' :: rest.takeWhile (· != '\n'), rest.dropWhile (· != '\n'))
    else
      let (text, rest) := escapedLiteral '/' rest
      some ('/' :: text ++ rest.takeWhile isPatternFlag, rest.dropWhile isPatternFlag)
  else none

/-- A piece of code, given last character first, if there is any. -/
def codeBefore (code : List Char) : List Segment := if code.isEmpty then [] else [⟨false, code.reverse⟩]

/-- The pieces of a text after some code, which is given last character first. The fuel is the number
of characters. -/
def segmentsFrom : Nat → List Char → List Char → List Segment
  | 0, code, _ => codeBefore code
  | _ + 1, code, [] => codeBefore code
  | fuel + 1, code, c :: rest =>
    match literal? c rest with
    | none => segmentsFrom fuel (c :: code) rest
    | some (text, rest) => codeBefore code ++ ⟨true, text⟩ :: segmentsFrom fuel [] rest

end Segment

def segments (text : List Char) : List Segment := Segment.segmentsFrom text.length [] text

/-- The text with its code changed and its literals as they are. -/
def mapCode (f : List Char → List Char) (text : List Char) : List Char :=
  (segments text).flatMap fun segment => if segment.literal then segment.text else f segment.text

end FlightProcedure
