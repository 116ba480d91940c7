import FlightProcedure.Grammar.Definition
import FlightProcedure.Grammar.Error
import FlightProcedure.Pattern.Notation
import FlightProcedure.Text.Split

/-!
# Terminals as patterns

A terminal is matched by one pattern. Its definition may refer to other terminals but not to rules
nor, through other terminals, to itself; the references are replaced by the patterns of the
terminals that they name.
-/

namespace FlightProcedure

namespace Body

def quantifier : Nat → Option Nat → String
  | 0, none => "*"
  | 1, none => "+"
  | least, none => "\x7b" ++ toString least ++ ",\x7d"
  | least, some most =>
    if least = most then "\x7b" ++ toString least ++ "\x7d"
    else "\x7b" ++ toString least ++ "," ++ toString most ++ "\x7d"

def grouped (source : String) : String := "(?:" ++ source ++ ")"

def patternGroup (regex flags : String) : String :=
  "(?" ++ flags ++ ":" ++ regex ++ ")"

/-- A literal as a pattern that matches just its text. -/
def literalSource (text : String) : String := String.ofList (Pattern.quote text.toList)

mutual

def regexSource (lookup : String → Except GrammarError String) : Body → Except GrammarError String
  | .symbol name => do .ok (grouped (← lookup name))
  | .literal text => .ok (literalSource text)
  | .pattern regex flags => .ok (patternGroup regex flags)
  | .seq items => do .ok (String.join (← regexSources lookup items))
  | .alt items => do .ok (grouped ("|".intercalate (← regexSources lookup items)))
  | .optional inner => do .ok (grouped (← inner.regexSource lookup) ++ "?")
  | .rep inner least most => do
    .ok (grouped (← inner.regexSource lookup) ++ quantifier least most)

def regexSources (lookup : String → Except GrammarError String) : List Body → Except GrammarError (List String)
  | [] => .ok []
  | item :: items => do
    let first ← item.regexSource lookup
    .ok (first :: (← regexSources lookup items))

end

end Body

namespace Definitions

/-- The pattern of a terminal. The stack holds the terminals that lead to it, the nearest first; its
length is bounded by the number of terminals, which is enough fuel. -/
def terminalSource (defs : Definitions) : Nat → List String → String → Except GrammarError String
  | 0, _, name => .error (.terminalCycle name)
  | fuel + 1, stack, name =>
    if name ∈ stack then .error (.terminalCycle name)
    else
      match defs.terminals.find? (·.name == name) with
      | none => .error (.undefined name (stack.headD ""))
      | some definition =>
        definition.body.regexSource fun symbol =>
          if defs.rules.any (·.name == symbol) then
            .error (.terminalReferencesRule name symbol)
          else terminalSource defs fuel (name :: stack) symbol

def sourceOf (defs : Definitions) (name : String) : Except GrammarError String :=
  defs.terminalSource (defs.terminals.length + 2) [] name

end Definitions

/-- Whether a literal ends inside a word, so that no word character may follow it. -/
def endsInWord (text : List Char) : Bool :=
  match text.getLast? with
  | none => false
  | some c => c == '_' || isAlphabetic c || isNumeric c

/-- The pattern of a literal inside a rule. Its words match with any white space between them, and
after a word the text must not go on with the same word. -/
def wordsSource (text : String) : String :=
  match words text.toList with
  | [] => Body.literalSource text
  | found =>
    "\\s+".intercalate (found.map fun word => String.ofList (Pattern.quote word)) ++
      if endsInWord text.toList then "\\b" else ""

def leadingSource (source : String) : String := "^(?:" ++ source ++ ")"

def exactSource (source : String) : String := "^(?:" ++ source ++ ")$"

def compilePattern (terminal source : String) : Except GrammarError Pattern :=
  match Pattern.ofText? source with
  | some pattern => .ok pattern
  | none => .error (.invalidPattern terminal)

end FlightProcedure
