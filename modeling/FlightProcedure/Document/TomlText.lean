import FlightProcedure.Document.Digits

/-!
# Strings of TOML

Strings in double quotes have escapes and strings in single quotes have none; three quotes allow line
breaks. Control characters other than the tab are refused.
-/

namespace FlightProcedure.Toml

def isTomlSpace (c : Char) : Bool := c == ' ' || c == '\t'

def isPlain (c : Char) : Bool := c == '\t' || (0x20 ≤ c.toNat && c != '\x7f')

def afterBreak? : List Char → Option (List Char)
  | '\n' :: rest => some rest
  | '\r' :: '\n' :: rest => some rest
  | _ => none

/-- The character of a numbered escape with `count` digits, and what follows it. -/
def numbered? (count : Nat) (text : List Char) : Option (Char × List Char) := do
  let (number, rest) ← hexNumber? count text
  return (← charOfNumber? number, rest)

def escape? : List Char → Option (Char × List Char)
  | '"' :: rest => some ('"', rest)
  | '\\' :: rest => some ('\\', rest)
  | 'b' :: rest => some ('\x08', rest)
  | 't' :: rest => some ('\t', rest)
  | 'n' :: rest => some ('\n', rest)
  | 'f' :: rest => some ('\x0c', rest)
  | 'r' :: rest => some ('\r', rest)
  | 'e' :: rest => some ('\x1b', rest)
  | 'x' :: rest => numbered? 2 rest
  | 'u' :: rest => numbered? 4 rest
  | 'U' :: rest => numbered? 8 rest
  | _ => none

/-- The content of a string in double quotes after the first quote, and what follows the last one. The
fuel is more than the number of characters. -/
def quoted? : Nat → List Char → Option (List Char × List Char)
  | 0, _ => none
  | _ + 1, [] => none
  | fuel + 1, c :: rest =>
    if c = '"' then some ([], rest)
    else do
      let (char, rest) ←
        if c = '\\' then escape? rest
        else if isPlain c then some (c, rest)
        else none
      let (content, rest) ← quoted? fuel rest
      return (char :: content, rest)

/-- The content of a string in single quotes after the first quote, and what follows the last one. -/
def literal? (text : List Char) : Option (List Char × List Char) :=
  let content := text.takeWhile (· != '\'')
  match text.drop content.length with
  | _ :: rest => if content.all isPlain then some (content, rest) else none
  | [] => none

/-- The text after white space and line breaks, if at least one line break is among the spaces at its
start. -/
def afterLineEnd? (text : List Char) : Option (List Char) :=
  (afterBreak? (text.dropWhile isTomlSpace)).map fun rest =>
    rest.dropWhile fun c => isTomlSpace c || c == '\n' || c == '\r'

/-- The content of a string between three quotes after the first three, and what follows the last ones.
Up to two quotes may stand before the last three. The fuel is more than the number of characters. -/
def long? (mark : Char) (escapes : Bool) : Nat → List Char → Option (List Char × List Char)
  | 0, _ => none
  | _ + 1, [] => none
  | fuel + 1, c :: rest =>
    if c = mark then
      let run := ((c :: rest).takeWhile (· == mark)).length
      if run < 3 then (long? mark escapes fuel rest).map fun (content, rest) => (c :: content, rest)
      else
        let kept := min (run - 3) 2
        some (List.replicate kept mark, (c :: rest).drop (kept + 3))
    else
      match afterBreak? (c :: rest) with
      | some rest =>
        (long? mark escapes fuel rest).map fun (content, rest) => ('\n' :: content, rest)
      | none =>
        if escapes && c == '\\' then
          match afterLineEnd? rest with
          | some rest => long? mark escapes fuel rest
          | none => do
            let (char, rest) ← escape? rest
            let (content, rest) ← long? mark escapes fuel rest
            return (char :: content, rest)
        else if isPlain c then
          (long? mark escapes fuel rest).map fun (content, rest) => (c :: content, rest)
        else none

def dropBreak (text : List Char) : List Char := (afterBreak? text).getD text

/-- The content of a string on one line at the start of a text, and what follows it. -/
def lineString? : List Char → Option (List Char × List Char)
  | '"' :: rest => quoted? (rest.length + 1) rest
  | '\'' :: rest => literal? rest
  | _ => none

def string? : List Char → Option (List Char × List Char)
  | '"' :: '"' :: '"' :: rest => long? '"' true (rest.length + 1) (dropBreak rest)
  | '\'' :: '\'' :: '\'' :: rest => long? '\'' false (rest.length + 1) (dropBreak rest)
  | text => lineString? text

end FlightProcedure.Toml
