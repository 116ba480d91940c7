import FlightProcedure.Grammar.Error
import FlightProcedure.Text.CharClass

/-!
# Tokens of the grammar notation

The body of a definition is cut into names, quoted literals, patterns between slashes, counts and
marks. White space separates tokens and has no other meaning.
-/

namespace FlightProcedure

inductive BodyToken where
  | name (name : String)
  | literal (text : String)
  | pattern (regex flags : String)
  | number (value : Nat)
  | openGroup
  | closeGroup
  | openOptional
  | closeOptional
  | pipe
  | star
  | plus
  | question
  | tilde
  | range
deriving DecidableEq

namespace BodyToken

def label : BodyToken → String
  | .name _ => "Name"
  | .literal _ => "Literal"
  | .pattern _ _ => "Pattern"
  | .number value => "Number(" ++ toString value ++ ")"
  | .openGroup => "Open"
  | .closeGroup => "Close"
  | .openOptional => "OpenOptional"
  | .closeOptional => "CloseOptional"
  | .pipe => "Pipe"
  | .star => "Star"
  | .plus => "Plus"
  | .question => "Question"
  | .tilde => "Tilde"
  | .range => "Range"

/-- The text of a literal up to its closing quote, and what follows. A backslash before `n` or `t`
makes a line feed or a tab, before a quote or a backslash it is dropped, and elsewhere it stays. -/
def literalText : List Char → Except NotationError (List Char × List Char)
  | [] => .error .openLiteral
  | '"' :: rest => .ok ([], rest)
  | ['\\'] => .error .openLiteral
  | '\\' :: c :: rest => do
    let (text, rest) ← literalText rest
    let escaped := match c with
      | 'n' => ['\n']
      | 't' => ['\t']
      | '"' => ['"']
      | '\\' => ['\\']
      | c => ['\\', c]
    .ok (escaped ++ text, rest)
  | c :: rest => do
    let (text, rest) ← literalText rest
    .ok (c :: text, rest)

/-- The text of a pattern up to its closing slash, and what follows. A backslash before a slash is
dropped; elsewhere it stays, with the character after it. -/
def patternText : List Char → Except NotationError (List Char × List Char)
  | [] => .error .openPattern
  | '/' :: rest => .ok ([], rest)
  | ['\\'] => .error .openPattern
  | '\\' :: c :: rest => do
    let (text, rest) ← patternText rest
    .ok (if c = '/' then '/' :: text else '\\' :: c :: text, rest)
  | c :: rest => do
    let (text, rest) ← patternText rest
    .ok (c :: text, rest)

def isFlag (c : Char) : Bool := c == 'i' || c == 'm' || c == 's' || c == 'u' || c == 'x'

def startsName (c : Char) : Bool := c.isAlpha || c == '_'

def isNameChar (c : Char) : Bool := c.isAlphanum || c == '_' || c == '.'

def mark? : Char → Option BodyToken
  | '(' => some .openGroup
  | ')' => some .closeGroup
  | '[' => some .openOptional
  | ']' => some .closeOptional
  | '|' => some .pipe
  | '*' => some .star
  | '+' => some .plus
  | '?' => some .question
  | '~' => some .tilde
  | _ => none

def count (digits : List Char) : Except NotationError Nat :=
  let value := digits.foldl (fun value c => value * 10 + (c.toNat - '0'.toNat)) 0
  if value < Nat.pow 2 64 then .ok value else .error (.badCount (String.ofList digits))

/-- The token that starts with a character that is no white space, and what follows it. -/
def next (c : Char) (rest : List Char) : Except NotationError (BodyToken × List Char) :=
  match mark? c with
  | some token => .ok (token, rest)
  | none =>
    if c = '"' then do
      let (text, rest) ← literalText rest
      .ok (.literal (String.ofList text), rest)
    else if c = '/' then do
      let (text, rest) ← patternText rest
      let flags := rest.takeWhile isFlag
      .ok (.pattern (String.ofList text) (String.ofList flags), rest.drop flags.length)
    else if c = '.' ∧ rest.head? = some '.' then .ok (.range, rest.drop 1)
    else if c.isDigit then do
      let digits := c :: rest.takeWhile Char.isDigit
      .ok (.number (← count digits), rest.dropWhile Char.isDigit)
    else if startsName c then
      .ok (.name (String.ofList (c :: rest.takeWhile isNameChar)), rest.dropWhile isNameChar)
    else .error (.strayChar c)

/-- The tokens of a text. The fuel is the number of characters. -/
def tokensFrom : Nat → List Char → Except NotationError (List BodyToken)
  | 0, _ => .ok []
  | _ + 1, [] => .ok []
  | fuel + 1, c :: rest =>
    if isBlank c then tokensFrom fuel rest
    else do
      let (token, rest) ← next c rest
      .ok (token :: (← tokensFrom fuel rest))

def tokens (text : List Char) : Except NotationError (List BodyToken) := tokensFrom text.length text

end BodyToken

end FlightProcedure
