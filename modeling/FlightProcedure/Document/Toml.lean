import FlightProcedure.Document.TomlScalar
import FlightProcedure.Document.TomlTable
import FlightProcedure.Document.TomlText

/-!
# Reading TOML

A document is a sequence of lines: headers of tables, headers of lists of tables, names with values,
comments and empty lines. Each name belongs to the table of the last header.
-/

namespace FlightProcedure.Toml

def skipSpaces (text : List Char) : List Char := text.dropWhile isTomlSpace

def afterComment? : List Char → Option (List Char)
  | '#' :: rest =>
    let rest := rest.dropWhile isPlain
    if rest.isEmpty || (afterBreak? rest).isSome then some rest else none
  | rest => some rest

/-- The text after spaces, line breaks and comments. The fuel is more than the number of characters. -/
def skipLines? : Nat → List Char → Option (List Char)
  | 0, _ => none
  | fuel + 1, text =>
    match skipSpaces text with
    | '#' :: rest => (afterComment? ('#' :: rest)).bind (skipLines? fuel)
    | text =>
      match afterBreak? text with
      | some rest => skipLines? fuel rest
      | none => some text

def skipBlank? (text : List Char) : Option (List Char) := skipLines? (text.length + 1) text

def isBareChar (c : Char) : Bool := c.isAlphanum || c == '_' || c == '-'

def namePart? (text : List Char) : Option (String × List Char) :=
  if text.head? == some '"' || text.head? == some '\'' then
    (lineString? text).map fun (content, rest) => (String.ofList content, rest)
  else
    let name := text.takeWhile isBareChar
    if name.isEmpty then none else some (String.ofList name, text.drop name.length)

/-- The parts of a name between dots, and what follows it. The fuel is more than the number of
characters. -/
def nameParts? : Nat → List Char → Option (List String × List Char)
  | 0, _ => none
  | fuel + 1, text => do
    let (part, rest) ← namePart? (skipSpaces text)
    match skipSpaces rest with
    | '.' :: rest =>
      let (parts, rest) ← nameParts? fuel rest
      return (part :: parts, rest)
    | rest => return ([part], rest)

def name? (text : List Char) : Option (List String × String × List Char) := do
  let (parts, rest) ← nameParts? (text.length + 1) text
  return (parts.dropLast, ← parts.getLast?, rest)

def isWordPart (c : Char) : Bool := c.isAlphanum || c == '_' || c == '-' || c == '+' || c == '.' || c == ':'

/-- A value without quotes, and what follows it. One space may stand between a date and a time. -/
def word? (text : List Char) : Option (Document × List Char) := do
  let word := text.takeWhile isWordPart
  let rest := text.drop word.length
  let (word, rest) := match rest with
    | ' ' :: more =>
      if afterDate? word == some [] && more.head?.any Char.isDigit then
        let time := more.takeWhile isWordPart
        (word ++ ' ' :: time, more.drop time.length)
      else (word, rest)
    | rest => (word, rest)
  match ← wordKind? word with
  | .scalar => return (.scalar, rest)
  | .moment => return (.moment, rest)

/-- How deep lists and tables in braces can be nested. -/
def deepest : Nat := 80

mutual

/-- The value at the start of a text, and what follows it. The fuel is more than three times the number of
characters, and the depth is how deep lists and tables may still be nested. -/
def value? : Nat → Nat → List Char → Option (Document × List Char)
  | 0, _, _ => none
  | fuel + 1, depth, text =>
    match text, depth with
    | '[' :: _, 0 => none
    | '\x7b' :: _, 0 => none
    | '[' :: rest, depth + 1 =>
      (items? fuel depth rest).map fun (items, rest) => (.list items, rest)
    | '\x7b' :: rest, depth + 1 =>
      (members? fuel depth [] rest).map fun (entries, rest) =>
        (.table (entriesDocument entries), rest)
    | '"' :: _, _ => (string? text).map fun (content, rest) => (.text (String.ofList content), rest)
    | '\'' :: _, _ => (string? text).map fun (content, rest) => (.text (String.ofList content), rest)
    | text, _ => word? text

def items? : Nat → Nat → List Char → Option (List Document × List Char)
  | 0, _, _ => none
  | fuel + 1, depth, text => do
    match ← skipBlank? text with
    | ']' :: rest => return ([], rest)
    | text =>
      let (item, rest) ← value? fuel depth text
      match ← skipBlank? rest with
      | ']' :: rest => return ([item], rest)
      | ',' :: rest =>
        let (items, rest) ← items? fuel depth rest
        return (item :: items, rest)
      | _ => none

/-- The members of a table in braces up to its end, added to given entries, and what follows it. -/
def members? : Nat → Nat → Entries → List Char → Option (Entries × List Char)
  | 0, _, _, _ => none
  | fuel + 1, depth, entries, text => do
    match ← skipBlank? text with
    | '\x7d' :: rest => return (entries, rest)
    | text =>
      let (way, last, rest) ← name? text
      match rest with
      | '=' :: rest =>
        let (value, rest) ← value? fuel depth (skipSpaces rest)
        let entries ← entries.addDotted? value last way true
        match ← skipBlank? rest with
        | '\x7d' :: rest => return (entries, rest)
        | ',' :: rest => members? fuel depth entries rest
        | _ => none
      | _ => none

end

def afterLine? (text : List Char) : Option (List Char) := do
  let rest ← afterComment? (skipSpaces text)
  if rest.isEmpty then return rest else afterBreak? rest

/-- What has been read: all entries, and the names of the last header. -/
structure State where
  entries : Entries := []
  header : List String := []

def line? (state : State) (text : List Char) : Option (State × List Char) := do
  match text with
  | '[' :: '[' :: rest =>
    let (way, last, rest) ← name? rest
    match rest with
    | ']' :: ']' :: rest =>
      let entries ← state.entries.along (Entries.push? last) way
      return ({ entries, header := way ++ [last] }, ← afterLine? rest)
    | _ => none
  | '[' :: rest =>
    let (way, last, rest) ← name? rest
    match rest with
    | ']' :: rest =>
      let entries ← state.entries.along (Entries.open? last) way
      return ({ entries, header := way ++ [last] }, ← afterLine? rest)
    | _ => none
  | text =>
    let (way, last, rest) ← name? text
    match rest with
    | '=' :: rest =>
      let rest := skipSpaces rest
      let (value, rest) ← value? (3 * rest.length + 3) deepest rest
      let entries ← state.entries.along (Entries.addDotted? value last way true) state.header
      return ({ state with entries }, ← afterLine? rest)
    | _ => none

/-- All lines. The fuel is more than the number of characters. -/
def lines? : Nat → State → List Char → Option State
  | 0, _, _ => none
  | fuel + 1, state, text => do
    match ← skipBlank? text with
    | [] => return state
    | text =>
      let (state, rest) ← line? state text
      lines? fuel state rest

end FlightProcedure.Toml

namespace FlightProcedure

/-- What a TOML text says. A byte order mark may stand before it. -/
def Document.ofToml? (text : String) : Option Document := do
  let text := match text.toList with
    | '\ufeff' :: rest => rest
    | text => text
  let state ← Toml.lines? (text.length + 1) {} text
  return .table (Toml.entriesDocument state.entries)

end FlightProcedure
