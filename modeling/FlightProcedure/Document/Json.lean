import FlightProcedure.Document.Basic
import FlightProcedure.Document.Digits

/-!
# Reading JSON

A string may contain half of a surrogate pair, which no text contains; such a string reads as a
scalar. A name must be a text.
-/

namespace FlightProcedure.Json

def isJsonSpace (c : Char) : Bool := c == ' ' || c == '\t' || c == '\n' || c == '\r'

def skipSpace (text : List Char) : List Char := text.dropWhile isJsonSpace

def simpleEscape? (c : Char) : Option Char :=
  match c with
  | '"' => some '"'
  | '\\' => some '\\'
  | '/' => some '/'
  | 'b' => some '\x08'
  | 'f' => some '\x0c'
  | 'n' => some '\n'
  | 'r' => some '\r'
  | 't' => some '\t'
  | _ => none

def isHighSurrogate (unit : Nat) : Bool := decide (0xD800 ≤ unit ∧ unit ≤ 0xDBFF)

def isLowSurrogate (unit : Nat) : Bool := decide (0xDC00 ≤ unit ∧ unit ≤ 0xDFFF)

/-- The character of a numbered escape after its letter, and what follows it. No character means that
the escape is half of a surrogate pair. -/
def numberedEscape? (text : List Char) : Option (Option Char × List Char) := do
  let (unit, rest) ← hexNumber? 4 text
  if isHighSurrogate unit then
    match rest with
    | '\\' :: 'u' :: more =>
      let (low, after) ← hexNumber? 4 more
      if isLowSurrogate low then
        return (charOfNumber? (0x10000 + (unit - 0xD800) * 0x400 + (low - 0xDC00)), after)
      else return (none, rest)
    | _ => return (none, rest)
  else return (charOfNumber? unit, rest)

/-- The content of a string after its opening quote, and what follows the closing one. No content means
that no text spells it. The fuel is the number of characters. -/
def stringContent? : Nat → List Char → Option (Option (List Char) × List Char)
  | 0, _ => none
  | _ + 1, [] => none
  | fuel + 1, c :: rest =>
    if c = '"' then some (some [], rest)
    else if c.toNat < 0x20 then none
    else do
      let (char, rest) ←
        if c = '\\' then
          match rest with
          | 'u' :: rest => numberedEscape? rest
          | letter :: rest => (simpleEscape? letter).map fun char => (some char, rest)
          | [] => none
        else some (some c, rest)
      let (content, rest) ← stringContent? fuel rest
      return (char.bind fun char => content.map (char :: ·), rest)

def afterWord? (word : String) (text : List Char) : Option (List Char) :=
  if word.toList.isPrefixOf text then some (text.drop word.length) else none

def afterDigits? (text : List Char) : Option (List Char) :=
  if text.head?.any Char.isDigit then some (text.dropWhile Char.isDigit) else none

def afterExponent? : List Char → Option (List Char)
  | c :: rest =>
    if c = 'e' ∨ c = 'E' then
      match rest with
      | '+' :: digits => afterDigits? digits
      | '-' :: digits => afterDigits? digits
      | digits => afterDigits? digits
    else some (c :: rest)
  | [] => some []

def afterNumber? (text : List Char) : Option (List Char) := do
  let text := match text with
    | '-' :: rest => rest
    | text => text
  let text ← match text with
    | '0' :: rest => if rest.head?.any Char.isDigit then none else some rest
    | text => afterDigits? text
  let text ← match text with
    | '.' :: rest => afterDigits? rest
    | text => some text
  afterExponent? text

def stringDocument (content : Option (List Char)) : Document :=
  match content with
  | some content => .text (String.ofList content)
  | none => .scalar

mutual

/-- The value at the start of a text, and what follows it. The fuel is more than twice the number of
characters. -/
def value? : Nat → List Char → Option (Document × List Char)
  | 0, _ => none
  | fuel + 1, text =>
    match skipSpace text with
    | [] => none
    | '"' :: rest => (stringContent? fuel rest).map fun (content, rest) =>
      (stringDocument content, rest)
    | '[' :: rest =>
      match skipSpace rest with
      | ']' :: rest => some (.list [], rest)
      | rest => (items? fuel rest).map fun (items, rest) => (.list items, rest)
    | '\x7b' :: rest =>
      match skipSpace rest with
      | '\x7d' :: rest => some (.table [], rest)
      | rest => (members? fuel rest).map fun (entries, rest) => (.table entries, rest)
    | 'n' :: rest => (afterWord? "ull" rest).map fun rest => (.null, rest)
    | 't' :: rest => (afterWord? "rue" rest).map fun rest => (.scalar, rest)
    | 'f' :: rest => (afterWord? "alse" rest).map fun rest => (.scalar, rest)
    | text => (afterNumber? text).map fun rest => (.scalar, rest)

def items? : Nat → List Char → Option (List Document × List Char)
  | 0, _ => none
  | fuel + 1, text => do
    let (item, rest) ← value? fuel text
    match skipSpace rest with
    | ',' :: rest =>
      let (items, rest) ← items? fuel rest
      return (item :: items, rest)
    | ']' :: rest => return ([item], rest)
    | _ => none

def members? : Nat → List Char → Option (List (String × Document) × List Char)
  | 0, _ => none
  | fuel + 1, text => do
    match skipSpace text with
    | '"' :: rest =>
      let (name, rest) ← stringContent? fuel rest
      let name ← name
      match skipSpace rest with
      | ':' :: rest =>
        let (value, rest) ← value? fuel rest
        let entry := (String.ofList name, value)
        match skipSpace rest with
        | ',' :: rest =>
          let (entries, rest) ← members? fuel rest
          return (entry :: entries, rest)
        | '\x7d' :: rest => return ([entry], rest)
        | _ => none
      | _ => none
    | _ => none

end

end FlightProcedure.Json

namespace FlightProcedure

def Document.ofJson? (text : String) : Option Document := do
  let (document, rest) ← Json.value? (2 * text.length + 2) text.toList
  if (Json.skipSpace rest).isEmpty then return document else none

end FlightProcedure
