/-!
# Grammar definitions

A grammar is given by definitions `name : body`. A definition whose name is written in upper case
defines a terminal, any other a rule. A name may have a namespace in front, set off by a dot.
-/

namespace FlightProcedure

inductive Body where
  | symbol (name : String)
  | literal (text : String)
  | pattern (regex flags : String)
  | seq (items : List Body)
  | alt (items : List Body)
  | optional (inner : Body)
  | rep (inner : Body) (least : Nat) (most : Option Nat)

namespace Body

mutual

/-- The names that the body refers to, in the order in which they are written. -/
def symbols : Body → List String
  | .symbol name => [name]
  | .literal _ => []
  | .pattern _ _ => []
  | .seq items => symbolsOf items
  | .alt items => symbolsOf items
  | .optional inner => inner.symbols
  | .rep inner _ _ => inner.symbols

def symbolsOf : List Body → List String
  | [] => []
  | item :: items => item.symbols ++ symbolsOf items

end

mutual

def rename (new : String → String) : Body → Body
  | .symbol name => .symbol (new name)
  | .literal text => .literal text
  | .pattern regex flags => .pattern regex flags
  | .seq items => .seq (renameAll new items)
  | .alt items => .alt (renameAll new items)
  | .optional inner => .optional (inner.rename new)
  | .rep inner least most => .rep (inner.rename new) least most

def renameAll (new : String → String) : List Body → List Body
  | [] => []
  | item :: items => item.rename new :: renameAll new items

end

/-- A sequence, where a single item stands for itself. -/
def ofItems : List Body → Body
  | [item] => item
  | items => .seq items

def ofAlternatives : List Body → Body
  | [item] => item
  | items => .alt items

end Body

structure Shaping where
  /-- Literal tokens are kept. -/
  keepTokens : Bool := false
  /-- A node with a single child is replaced by that child. -/
  inlineSingle : Bool := false
deriving DecidableEq

structure Definition where
  name : String
  shaping : Shaping := {}
  body : Body
  line : Nat

def localName (name : String) : String := String.ofList ((name.toList.reverse.takeWhile (· != '.')).reverse)

/-- The local part of a terminal's name has an upper case letter and no lower case letter. -/
def isTerminalName (name : String) : Bool :=
  (localName name).toList.any Char.isUpper && !(localName name).toList.any Char.isLower

structure Definitions where
  rules : List Definition := []
  terminals : List Definition := []

namespace Definitions

def toList (defs : Definitions) : List Definition := defs.rules ++ defs.terminals

/-- Add a definition after those of its kind. -/
def push (defs : Definitions) (definition : Definition) : Definitions :=
  if isTerminalName definition.name then
    { defs with terminals := defs.terminals ++ [definition] }
  else { defs with rules := defs.rules ++ [definition] }

def pushAll (defs : Definitions) (definitions : List Definition) : Definitions := definitions.foldl push defs

/-- The first definition of a name; rules come before terminals. -/
def get? (defs : Definitions) (name : String) : Option Definition := defs.toList.find? (·.name == name)

end Definitions

end FlightProcedure
