import FlightProcedure.Ebnf.Error
import FlightProcedure.Ebnf.Layout
import FlightProcedure.Text.CaseMap

/-!
# The names of rules

The name of a definition may have several words and capital letters. It is folded to one lower case
word, unless it is spelt like a terminal. Occurrences of a name are whole words in code.
-/

namespace FlightProcedure.Ebnf

/-- The name of the definition on a line, without the marks before it. -/
def head? (line : List Char) : Option (List Char) :=
  match line.dropWhile fun c => c == '!' || c == '?' with
  | [] => none
  | c :: rest =>
    let run := rest.takeWhile isNamePart
    if startsName c && run.getLast? == some ' ' && (rest.drop run.length).head? == some ':' then
      some (c :: run.dropLast)
    else none

/-- The names of the definitions of a text, in order of first appearance. -/
def heads (text : List Char) : List String :=
  ((splitWhere (· == '\n') text).filterMap head?).foldl
    (fun names name =>
      let name := String.ofList name
      if names.contains name then names else names ++ [name])
    []

/-- Whether a name is spelt like a terminal: a capital letter and capital letters, digits and
underscores. -/
def isTerminalSpelling (name : String) : Bool :=
  match name.toList with
  | [] => false
  | c :: rest => c.isUpper && rest.all fun c => c.isUpper || c.isDigit || c == '_'

def foldName (name : String) : String := String.ofList ((lowerCase name).toList.map fun c => if c = ' ' then '_' else c)

abbrev FoldedNames := List (String × String)

/-- One more name, folded. A terminal keeps its name. -/
def addFolded (folded : FoldedNames) (name : String) : Except ConversionError FoldedNames :=
  if isTerminalSpelling name then .ok folded
  else match folded.lookup (foldName name) with
    | none => .ok (folded ++ [(foldName name, name)])
    | some first =>
      if first = name then .ok folded
      else .error (.foldCollision first name (foldName name))

def foldNames (names : List String) : Except ConversionError FoldedNames := names.foldlM addFolded []

def isWordEdge (before after : Option Char) : Bool := before.any isWordChar != after.any isWordChar

def startsWithWord (word : List Char) (before : Option Char) (text : List Char) : Bool :=
  word.isPrefixOf text && isWordEdge before text.head? &&
    isWordEdge word.getLast? (text.drop word.length).head?

/-- Code with a word in place of another one. The number counts the characters of an occurrence that
are still to be left out, and the character is the one before the code. -/
def replaceWordFrom (word new : List Char) : Nat → Option Char → List Char → List Char
  | _, _, [] => []
  | skip + 1, _, c :: rest => replaceWordFrom word new skip (some c) rest
  | 0, before, c :: rest =>
    if startsWithWord word before (c :: rest) then
      new ++ replaceWordFrom word new (word.length - 1) (some c) rest
    else c :: replaceWordFrom word new 0 (some c) rest

/-- A grammar text with a word in place of another one; literals stay as they are. -/
def replaceWord (word new : String) (text : List Char) : List Char :=
  mapCode (replaceWordFrom word.toList new.toList 0 none) text

/-- Names from the longest one, in bytes, to the shortest. Names of one length keep their order. -/
def longestFirst (length : α → Nat) (names : List α) : List α := names.mergeSort fun a b => decide (length b ≤ length a)

end FlightProcedure.Ebnf
