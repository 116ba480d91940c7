/-!
# Why a grammar cannot be converted

The patterns of the conversion may be invalid, and the names of rules may clash once they are
changed.
-/

namespace FlightProcedure

inductive ConversionError where
  | invalidPattern (pattern : String)
  | foldCollision (first second folded : String)
  | terminalCollision (rule terminal : String)
  | unknownTerminal (name : String)
deriving DecidableEq

def ConversionError.message : ConversionError → String
  | .invalidPattern pattern => "invalid pattern '" ++ pattern ++ "'"
  | .foldCollision first second folded =>
    "rules '" ++ first ++ "' and '" ++ second ++ "' both fold to '" ++ folded ++ "'"
  | .terminalCollision rule terminal =>
    "promoting rule '" ++ rule ++ "' to terminal '" ++ terminal ++
      "' collides with an existing definition"
  | .unknownTerminal name => "terminal promotion names unknown rule '" ++ name ++ "'"

end FlightProcedure
