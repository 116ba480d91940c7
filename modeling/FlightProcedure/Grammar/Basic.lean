import FlightProcedure.Grammar.Definition
import FlightProcedure.Pattern.Notation
import FlightProcedure.Text.Split
import Std.Data.HashSet

/-!
# Grammars ready for parsing

In a grammar the rules and terminals are numbered, and every body refers to them by number. Besides
them a grammar knows the text that may stand between tokens and the words that names must avoid.
-/

namespace FlightProcedure

inductive TerminalSource where
  | literal (text : String)
  | regex (source : String)
deriving DecidableEq

structure Terminal where
  name : String
  source : TerminalSource
  /-- The terminal stands for a literal or a pattern inside a rule. -/
  anonymous : Bool
  /-- Tokens of the terminal never appear in the tree. -/
  filtered : Bool
  /-- Tokens of the terminal avoid reserved words. -/
  guarded : Bool
  leading : Pattern
  exact : Pattern

def Terminal.tokenName (terminal : Terminal) : String :=
  match terminal.source with
  | .literal text => if terminal.anonymous then text else terminal.name
  | .regex _ => terminal.name

/-- A body in terms of numbered rules and terminals. -/
inductive Item where
  | rule (id : Nat)
  | terminal (id : Nat)
  | seq (items : List Item)
  | alt (items : List Item)
  | optional (inner : Item)
  | rep (inner : Item) (least : Nat) (most : Option Nat)

/-- A rule: its alternatives in order of preference. -/
structure Rule where
  name : String
  shaping : Shaping
  alternatives : List Item

/-- A rule whose local name starts with an underscore always gives its children to its parent. -/
def Rule.isHidden (rule : Rule) : Bool := (localName rule.name).toList.head? == some '_'

structure Grammar where
  rules : Array Rule
  terminals : Array Terminal
  ignore : List Pattern
  keywords : Std.HashSet String
  phrases : List (List String)

namespace Grammar

def ruleId? (grammar : Grammar) (name : String) : Option Nat := grammar.rules.findIdx? (·.name == name)

def hasRule (grammar : Grammar) (name : String) : Bool := (grammar.ruleId? name).isSome

def isKeyword (grammar : Grammar) (word : String) : Bool := grammar.keywords.contains word

/-- Whether some words occur as neighbours, in that order. -/
def hasPhrase (phrase : List String) : List String → Bool
  | [] => phrase.isEmpty
  | word :: rest => phrase.isPrefixOf (word :: rest) || hasPhrase phrase rest

/-- Whether a text contains a reserved word or a reserved sequence of words. -/
def isReserved (grammar : Grammar) (text : List Char) : Bool :=
  let candidate := (words text).map String.ofList
  candidate.any grammar.isKeyword || grammar.phrases.any fun phrase => hasPhrase phrase candidate

end Grammar

end FlightProcedure
