import FlightProcedure.Ebnf.Segment
import FlightProcedure.Text.Split

/-!
# From the layout of ISO EBNF to that of grammar notation

Each function makes one step of the conversion that does not concern names: the heads of definitions,
commas between the items of a sequence, semicolons at the ends of definitions, alternatives on lines
of their own, repetitions in braces, and the place of continuation lines.
-/

namespace FlightProcedure.Ebnf

def isSpace (c : Char) : Bool := c == ' ' || c == '\t'

def isNamePart (c : Char) : Bool := c == ' ' || isWordChar c

def startsName (c : Char) : Bool := c.isAlpha

/-- What follows an equals sign: white space up to the end of the line and, if the line ends there, the
white space at the start of the next one. The result says whether a line starts after it. -/
def afterEquals (rest : List Char) : List Char × Bool :=
  match rest.dropWhile isSpace with
  | '\n' :: rest => (rest.dropWhile isSpace, !(rest.head?.any isSpace))
  | rest => (rest, false)

/-- The name of a definition at the start of a line, and what follows its equals sign. -/
def definitionHead? : List Char → Option (List Char × List Char)
  | [] => none
  | c :: rest =>
    if startsName c then
      let run := rest.takeWhile isNamePart
      match (rest.dropWhile isNamePart).dropWhile isSpace with
      | '=' :: rest => some (c :: (run.reverse.dropWhile (· == ' ')).reverse, rest)
      | _ => none
    else none

/-- Definitions with a colon in place of the equals sign. The flag says whether a line starts here; the
fuel is the number of characters. -/
def colonsFrom : Nat → Bool → List Char → List Char
  | 0, _, text => text
  | _ + 1, _, [] => []
  | fuel + 1, atLineStart, c :: rest =>
    match if atLineStart then definitionHead? (c :: rest) else none with
    | some (name, rest) =>
      let (rest, atLineStart) := afterEquals rest
      name ++ " : ".toList ++ colonsFrom fuel atLineStart rest
    | none => c :: colonsFrom fuel (c == '\n') rest

def colons (text : List Char) : List Char := colonsFrom text.length true text

/-- The text written so far, last character first, and whether white space is being skipped. -/
structure CommaState where
  written : List Char := []
  skipping : Bool := false

/-- One character of code: a comma with the white space around it becomes one space. -/
def CommaState.step (state : CommaState) (c : Char) : CommaState :=
  if c = ',' then ⟨' ' :: state.written.dropWhile isBlank, true⟩
  else if state.skipping && isBlank c then state
  else ⟨c :: state.written, false⟩

/-- One segment: literals are copied. -/
def CommaState.segment (state : CommaState) (segment : Segment) : CommaState :=
  if segment.literal then ⟨segment.text.reverse ++ state.written, false⟩
  else segment.text.foldl CommaState.step state

def spacedItems (text : List Char) : List Char := ((segments text).foldl CommaState.segment {}).written.reverse

def endsLine (text : List Char) : Bool :=
  match text.dropWhile isSpace with
  | [] => true
  | c :: _ => c == '\n'

/-- Lines without the semicolon at their end. The flag says that a semicolon has been left out and its
spaces and tabs go too. -/
def dropTerminatorsFrom : Bool → List Char → List Char
  | _, [] => []
  | skipping, c :: rest =>
    if skipping && isSpace c then dropTerminatorsFrom true rest
    else if c == ';' && endsLine rest then dropTerminatorsFrom true rest
    else c :: dropTerminatorsFrom false rest

def dropTerminators (text : List Char) : List Char := dropTerminatorsFrom false text

def breaksLine (text : List Char) : Bool := (text.dropWhile isSpace).head? == some '\n'

/-- Alternatives joined where a line ends with a vertical bar. The flag says that such a bar has been
written and the white space after it goes. -/
def joinAlternativesFrom : Bool → List Char → List Char
  | _, [] => []
  | skipping, c :: rest =>
    if skipping && isBlank c then joinAlternativesFrom true rest
    else if c == '|' && breaksLine rest then '|' :: ' ' :: joinAlternativesFrom true rest
    else c :: joinAlternativesFrom false rest

def joinAlternatives (text : List Char) : List Char := joinAlternativesFrom false text

def starred : List Char → List Char
  | [] => []
  | '\x7d' :: '-' :: rest => ')' :: '+' :: starred rest
  | '\x7d' :: rest => ')' :: '*' :: starred rest
  | '\x7b' :: rest => '(' :: starred rest
  | c :: rest => c :: starred rest

def columnIn (mark : Char) (segments : List Segment) : Option Nat := go 0 segments
where
  go (column : Nat) : List Segment → Option Nat
  | [] => none
  | segment :: rest =>
    if !segment.literal && segment.text.contains mark then
      some (column + segment.text.idxOf mark)
    else go (column + segment.text.length) rest

/-- The column of the first colon of a line, or else of its first vertical bar. -/
def separatorColumn (line : List Char) : Nat :=
  let parts := segments line
  ((columnIn ':' parts).orElse fun _ => columnIn '|' parts).getD 0

/-- The lines after a line, with each continuation line under the separator of the line before it. -/
def alignAfter (before : List Char) : List (List Char) → List (List Char)
  | [] => []
  | line :: rest =>
    let text := trimStart line
    let aligned := if text.head? = some '|' then List.replicate (separatorColumn before) ' ' ++ text else line
    aligned :: alignAfter aligned rest

/-- Continuation lines under the separator of the line before them. -/
def alignContinuations (text : List Char) : List Char :=
  match splitWhere (· == '\n') text with
  | [] => []
  | first :: rest => ['\n'].intercalate (first :: alignAfter first rest)

end FlightProcedure.Ebnf
