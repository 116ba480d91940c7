import FlightProcedure.Grammar.Definition
import FlightProcedure.Grammar.Token
import FlightProcedure.Text.Split

/-!
# Reading grammar texts

A grammar text holds one definition per line. A line that starts with white space and a vertical bar
goes on with the definition before it. Blank lines and lines that start with two slashes are
skipped. `Definitions.ofText` reads a text; `Body.ofTokens` reads the body of one definition.
-/

namespace FlightProcedure

namespace Body

def readCount : List BodyToken → Except NotationError (Nat × List BodyToken)
  | .number value :: rest => .ok (value, rest)
  | _ => .error .noCount

/-- The quantifiers after an item. The fuel bounds their number. -/
def readQuantifiers : Nat → Body → List BodyToken → Except NotationError (Body × List BodyToken)
  | 0, item, tokens => .ok (item, tokens)
  | fuel + 1, item, tokens =>
    match tokens with
    | .star :: rest => readQuantifiers fuel (.rep item 0 none) rest
    | .plus :: rest => readQuantifiers fuel (.rep item 1 none) rest
    | .question :: rest => readQuantifiers fuel (.optional item) rest
    | .tilde :: rest => do
      let (least, rest) ← readCount rest
      match rest with
      | .range :: rest => do
        let (most, rest) ← readCount rest
        readQuantifiers fuel (.rep item least (some most)) rest
      | rest => readQuantifiers fuel (.rep item least (some least)) rest
    | tokens => .ok (item, tokens)

mutual

/-- Alternatives with vertical bars between them. The fuel bounds the nesting. -/
def readAlternatives : Nat → List BodyToken → Except NotationError (List Body × List BodyToken)
  | 0, _ => .error .emptyAlternative
  | fuel + 1, tokens => do
    let (items, rest) ← readItems fuel tokens
    if items.isEmpty then .error .emptyAlternative
    else
      match rest with
      | .pipe :: rest => do
        let (others, rest) ← readAlternatives fuel rest
        .ok (ofItems items :: others, rest)
      | rest => .ok ([ofItems items], rest)

def readItems : Nat → List BodyToken → Except NotationError (List Body × List BodyToken)
  | 0, tokens => .ok ([], tokens)
  | fuel + 1, tokens => do
    match ← readAtom fuel tokens with
    | none => .ok ([], tokens)
    | some (item, rest) => do
      let (item, rest) ← readQuantifiers rest.length item rest
      let (items, rest) ← readItems fuel rest
      .ok (item :: items, rest)

def readAtom : Nat → List BodyToken → Except NotationError (Option (Body × List BodyToken))
  | 0, _ => .ok none
  | fuel + 1, tokens =>
    match tokens with
    | .name name :: rest => .ok (some (.symbol name, rest))
    | .literal text :: rest => .ok (some (.literal text, rest))
    | .pattern regex flags :: rest => .ok (some (.pattern regex flags, rest))
    | .openGroup :: rest => do
      let (items, rest) ← readAlternatives fuel rest
      match rest with
      | .closeGroup :: rest => .ok (some (ofAlternatives items, rest))
      | _ => .error .noClose
    | .openOptional :: rest => do
      let (items, rest) ← readAlternatives fuel rest
      match rest with
      | .closeOptional :: rest => .ok (some (.optional (ofAlternatives items), rest))
      | _ => .error .noCloseOptional
    | _ => .ok none

end

/-- The body that tokens denote. The definition's name is for the error message. -/
def ofTokens (definition : String) (tokens : List BodyToken) : Except NotationError Body := do
  let (items, rest) ← readAlternatives (3 * tokens.length + 3) tokens
  match rest with
  | [] => .ok (ofAlternatives items)
  | token :: _ => .error (.leftover token.label definition)

end Body

namespace Definition

def readShaping (shaping : Shaping) : List Char → Shaping × List Char
  | '!' :: rest => readShaping { shaping with keepTokens := true } rest
  | '?' :: rest => readShaping { shaping with inlineSingle := true } rest
  | rest => (shaping, rest)

def isName (name : List Char) : Bool := !name.isEmpty && name.all BodyToken.isNameChar

def ofText (line : Nat) (text : List Char) : Except NotationError Definition := do
  let (shaping, rest) := readShaping {} text
  let head := rest.takeWhile (· != ':')
  match rest.drop head.length with
  | [] => .error .noColon
  | _ :: body =>
    let name := trim head
    if !isName name then .error (.badName (String.ofList name))
    else do
      let body ← Body.ofTokens (String.ofList name) (← BodyToken.tokens body)
      .ok { name := String.ofList name, shaping, body, line }

end Definition

namespace Definitions

abbrev LogicalLine := Nat × List Char

/-- The lines from number `line` on, joined to the definitions that they belong to. The definitions
read before come last first. -/
def joinLines (done : List LogicalLine) : Nat → List (List Char) → Except GrammarError (List LogicalLine)
  | _, [] => .ok done.reverse
  | line, raw :: rest =>
    let text := trim raw
    if text.isEmpty || "//".toList.isPrefixOf text then joinLines done (line + 1) rest
    else if raw.head?.any isBlank && text.head? == some '|' then
      match done with
      | [] => .error (.malformed line .looseContinuation)
      | (start, before) :: done => joinLines ((start, before ++ ' ' :: text) :: done) (line + 1) rest
    else joinLines ((line, text) :: done) (line + 1) rest

def readLines (defs : Definitions) : List LogicalLine → Except GrammarError Definitions
  | [] => .ok defs
  | (line, text) :: rest =>
    match Definition.ofText line text with
    | .ok definition => readLines (defs.push definition) rest
    | .error cause => .error (.malformed line cause)

def ofText (text : String) : Except GrammarError Definitions := do
  readLines {} (← joinLines [] 1 (lines text.toList))

end Definitions

end FlightProcedure
