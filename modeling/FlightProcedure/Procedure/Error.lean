import FlightProcedure.Procedure.Timestamp

/-!
# Why a syntax tree is no procedure

A tree may hold constructs that are not supported, rules that are not known, words that have no
meaning in their place, or parts that do not fit together.
-/

namespace FlightProcedure

inductive Malformation where
  | missingChild
  | expected (what found : String)
  | unexpectedChild (found : String)
  | noContinuation
  | noFactor
  | noConstant
  | noDigits
  | noCaseTag
  | strayChild
  | missingCondition
  | missingSubject
  | missingCaseTag
  | statementBeforeTag
  | notStep (key : String)
  | declaredTwice (key : String)
  | strayConstant (terminal : String)
  | badTime (cause : TimeError)
  | notProcedure
deriving DecidableEq

namespace Malformation

def message : Malformation → String
  | .missingChild => "missing child"
  | .expected what found => "expected " ++ what ++ ", found " ++ found
  | .unexpectedChild found => "unexpected " ++ found
  | .noContinuation => "expected a continuation keyword"
  | .noFactor => "expected a factor"
  | .noConstant => "expected a constant"
  | .noDigits => "missing integer digits"
  | .noCaseTag => "expected a case tag"
  | .strayChild => "unexpected child"
  | .missingCondition => "missing condition"
  | .missingSubject => "missing subject"
  | .missingCaseTag => "missing case tag"
  | .statementBeforeTag => "statement before the first case tag"
  | .notStep key => "'" ++ key ++ "' is not a step statement"
  | .declaredTwice key => "declaration '" ++ key ++ "' is registered twice"
  | .strayConstant terminal => "unexpected constant terminal " ++ terminal
  | .badTime cause => cause.message
  | .notProcedure => "tree root is not a procedure definition"

end Malformation

/-- Why a syntax tree is no procedure. Every error names a rule or terminal and a position. -/
inductive CompileError where
  | unsupported (rule : String) (offset : Nat)
  | malformed (rule : String) (offset : Nat) (cause : Malformation)
  | unknownKeyword (rule keyword : String) (offset : Nat)
  | unknownRule (rule : String) (offset : Nat)
deriving DecidableEq

namespace CompileError

def rule : CompileError → String
  | .unsupported rule _ => rule
  | .malformed rule _ _ => rule
  | .unknownKeyword rule _ _ => rule
  | .unknownRule rule _ => rule

def offset : CompileError → Nat
  | .unsupported _ offset => offset
  | .malformed _ offset _ => offset
  | .unknownKeyword _ _ offset => offset
  | .unknownRule _ offset => offset

def message : CompileError → String
  | .unsupported rule offset =>
    "'" ++ rule ++ "' at offset " ++ toString offset ++ " is not supported"
  | .malformed rule offset cause =>
    "malformed '" ++ rule ++ "' at offset " ++ toString offset ++ ": " ++ cause.message
  | .unknownKeyword rule keyword offset =>
    "unrecognized " ++ rule ++ " keyword '" ++ keyword ++ "' at offset " ++ toString offset
  | .unknownRule rule offset =>
    "no action registered for rule '" ++ rule ++ "' at offset " ++ toString offset

end CompileError

end FlightProcedure
