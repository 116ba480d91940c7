/-!
# What can be wrong with a grammar

A grammar text may break the notation, and definitions may not fit together.
-/

namespace FlightProcedure

inductive NotationError where
  | looseContinuation
  | noColon
  | badName (name : String)
  | openLiteral
  | openPattern
  | badCount (digits : String)
  | strayChar (c : Char)
  | emptyAlternative
  | noCount
  | noClose
  | noCloseOptional
  /-- A token, by its label, after the end of a definition's body. -/
  | leftover (token definition : String)
deriving DecidableEq

namespace NotationError

def message : NotationError → String
  | .looseContinuation => "continuation without a definition"
  | .noColon => "expected 'name : expansion'"
  | .badName name => "invalid name '" ++ name ++ "'"
  | .openLiteral => "unterminated literal"
  | .openPattern => "unterminated regex"
  | .badCount digits => "invalid count '" ++ digits ++ "'"
  | .strayChar c => "unexpected character '" ++ c.toString ++ "'"
  | .emptyAlternative => "empty alternative"
  | .noCount => "expected a repetition count"
  | .noClose => "expected ')'"
  | .noCloseOptional => "expected ']'"
  | .leftover token definition => "unexpected " ++ token ++ " in '" ++ definition ++ "'"

end NotationError

inductive GrammarError where
  | malformed (line : Nat) (cause : NotationError)
  | duplicate (name : String)
  | undefined (name referencedBy : String)
  | terminalReferencesRule (terminal rule : String)
  | terminalCycle (terminal : String)
  | invalidPattern (terminal : String)
  | leftRecursion (rule : String)
  | nullableRepeat (rule : String)
deriving DecidableEq

namespace GrammarError

def message : GrammarError → String
  | .malformed line cause =>
    "grammar syntax error at line " ++ toString line ++ ": " ++ cause.message
  | .duplicate name => "symbol '" ++ name ++ "' is defined more than once"
  | .undefined name referencedBy =>
    "undefined symbol '" ++ name ++ "' referenced by '" ++ referencedBy ++ "'"
  | .terminalReferencesRule terminal rule =>
    "terminal '" ++ terminal ++ "' references rule '" ++ rule ++ "'"
  | .terminalCycle terminal => "terminal '" ++ terminal ++ "' is defined in terms of itself"
  | .invalidPattern terminal =>
    "terminal '" ++ terminal ++ "' does not compile to a valid pattern"
  | .leftRecursion rule => "rule '" ++ rule ++ "' is left recursive"
  | .nullableRepeat rule => "rule '" ++ rule ++ "' repeats an expression that can match nothing"

end GrammarError

end FlightProcedure
