/-!
# Why a text does not parse

A text may break the grammar, it may be read in more than one way, and the rule that it should be
read by may not exist.
-/

namespace FlightProcedure

inductive ParseError where
  /-- The furthest position that was reached, what could have stood there and what stands there. -/
  | unexpected (offset line column : Nat) (expected : List String) (found : String)
  | ambiguous (rule : String) (start stop : Nat) (derivations : List String)
  | unknownStart (rule : String)
deriving DecidableEq

namespace ParseError

def message : ParseError → String
  | .unexpected _ line column expected found =>
    "syntax error at line " ++ toString line ++ ", column " ++ toString column ++
      ": expected one of " ++ ", ".intercalate expected ++ ", found " ++ found
  | .ambiguous rule start stop derivations =>
    "ambiguous parse of '" ++ rule ++ "' at " ++ toString start ++ ".." ++ toString stop ++ ": " ++
      " | ".intercalate derivations
  | .unknownStart rule => "unknown start rule '" ++ rule ++ "'"

def offset? : ParseError → Option Nat
  | .unexpected offset _ _ _ _ => some offset
  | .ambiguous _ start _ _ => some start
  | .unknownStart _ => none

end ParseError

end FlightProcedure
