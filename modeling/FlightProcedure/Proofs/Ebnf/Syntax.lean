import FlightProcedure.Ebnf.Conversion
import FlightProcedure.Grammar.Definition

/-!
# EBNF grammars and how they are written

A grammar is a list of rules. Its text has one line `Name = body;` for each rule. The text is put together
from lexemes, so that the steps of a conversion can be followed lexeme by lexeme. `Ruleset.Legible` says
when no name can be read across neighbouring references, and `Choice.image` is the body in grammar notation
that an EBNF body stands for.
-/

namespace FlightProcedure.Ebnf

/-- An ASCII letter, digit or underscore. -/
def isAsciiWord (c : Char) : Bool := c.isAlphanum || c == '_'

/-- A word is not empty and consists of ASCII word characters. -/
def IsWord (word : List Char) : Prop := word ≠ [] ∧ ∀ c ∈ word, isAsciiWord c = true

instance (word : List Char) : Decidable (IsWord word) :=
  @instDecidableAnd (word ≠ []) _ inferInstance (List.decidableBAll _ word)

/-- Words with a space between neighbours. -/
def unwords : List (List Char) → List Char
  | [] => []
  | [word] => word
  | word :: words => word ++ ' ' :: unwords words

/-- The name of a rule: words, the first of which starts with a letter. -/
structure RuleName where
  words : List (List Char)
  isWord : ∀ word ∈ words, IsWord word
  startsName : (unwords words).head?.any startsName = true
deriving DecidableEq

namespace RuleName

def chars (name : RuleName) : List Char := unwords name.words

def text (name : RuleName) : String := String.ofList name.chars

end RuleName

/-- The content of a quoted text: characters without quotes, backslashes and line breaks. -/
structure QuotedText where
  chars : List Char
  plain : ∀ c ∈ chars, c ≠ '"' ∧ c ≠ '\\' ∧ c ≠ '\n'

mutual

inductive Factor where
  | name (name : RuleName)
  | text (text : QuotedText)
  | group (body : Choice)
  | option (body : Choice)
  | many (body : Choice)
  | some (body : Choice)

inductive Series where
  | one (factor : Factor)
  | more (factor : Factor) (rest : Series)

inductive Choice where
  | one (series : Series)
  | more (series : Series) (rest : Choice)

end

/-- What the text of a grammar is put together from. -/
inductive Lexeme where
  /-- The name of a rule at the start of its line. -/
  | head (name : RuleName)
  | name (name : RuleName)
  | text (text : QuotedText)
  | comma
  | bar
  | openGroup
  | closeGroup
  | openOption
  | closeOption
  | openMany
  | closeMany
  | closeSome
  | stop

mutual

def Factor.lexemes : Factor → List Lexeme
  | .name rule => [.name rule]
  | .text quoted => [.text quoted]
  | .group body => .openGroup :: body.lexemes ++ [.closeGroup]
  | .option body => .openOption :: body.lexemes ++ [.closeOption]
  | .many body => .openMany :: body.lexemes ++ [.closeMany]
  | .some body => .openMany :: body.lexemes ++ [.closeSome]

def Series.lexemes : Series → List Lexeme
  | .one factor => factor.lexemes
  | .more factor rest => factor.lexemes ++ .comma :: rest.lexemes

def Choice.lexemes : Choice → List Lexeme
  | .one series => series.lexemes
  | .more series rest => series.lexemes ++ .bar :: rest.lexemes

end

/-- A grammar: rules with different names that refer to rules of the grammar. -/
structure Ruleset where
  rules : List (RuleName × Choice)
  distinct : (rules.map (·.1)).Nodup
  closed : ∀ rule ∈ rules, ∀ name, .name name ∈ rule.2.lexemes → name ∈ rules.map (·.1)

def Ruleset.names (grammar : Ruleset) : List RuleName := grammar.rules.map (·.1)

def Ruleset.lexemes (grammar : Ruleset) : List Lexeme :=
  grammar.rules.flatMap fun rule => .head rule.1 :: rule.2.lexemes ++ [.stop]

/-- How the lexemes are written that a conversion changes. -/
structure Marks where
  define : List Char
  comma : List Char
  stop : List Char
  openMany : List Char
  closeMany : List Char
  closeSome : List Char

def Marks.ebnf : Marks where
  define := [' ', '=', ' ']
  comma := [',', ' ']
  stop := [';', '\n']
  openMany := ['\x7b']
  closeMany := ['\x7d']
  closeSome := ['\x7d', '-']

def Lexeme.written (marks : Marks) (spell : RuleName → List (List Char)) : Lexeme → List Char
  | .head rule => unwords (spell rule) ++ marks.define
  | .name rule => unwords (spell rule)
  | .text quoted => '"' :: quoted.chars ++ ['"']
  | .comma => marks.comma
  | .bar => [' ', '|', ' ']
  | .openGroup => ['(']
  | .closeGroup => [')']
  | .openOption => ['[']
  | .closeOption => [']']
  | .openMany => marks.openMany
  | .closeMany => marks.closeMany
  | .closeSome => marks.closeSome
  | .stop => marks.stop

def Ruleset.text (grammar : Ruleset) : String :=
  String.ofList (grammar.lexemes.flatMap (Lexeme.written .ebnf RuleName.words))

/-! ## Names across references -/

def neighbours : List Lexeme → List RuleName
  | .name name :: .comma :: rest => name :: neighbours rest
  | .name name :: _ => [name]
  | _ => []

/-- All the rows of references that are written next to each other. -/
def rows (lexemes : List Lexeme) : List (List RuleName) :=
  (List.range lexemes.length).flatMap fun place =>
    let row := neighbours (lexemes.drop place)
    (List.range (row.length + 1)).map row.take

/-- Whether a name can be read across a row of references: from some word of the first of them to some word
of the last, which is another one. -/
def straddles (name : RuleName) : List RuleName → Bool
  | [] => false
  | [_] => false
  | first :: next :: rest =>
    let words := (first :: next :: rest).flatMap (·.words)
    let last := (next :: rest).getLast (by simp)
    (List.range first.words.length).any fun skipped =>
      name.words.isPrefixOf (words.drop skipped) &&
        decide (words.length < skipped + name.words.length + last.words.length)

/-- Whether a name is longer than another, or as long and that of an earlier rule. -/
def Ruleset.precedes (grammar : Ruleset) (name other : RuleName) : Bool :=
  decide (other.chars.length < name.chars.length) ||
    (name.chars.length == other.chars.length && [name, other].isSublist grammar.names)

/-- No name can be read across a row of references, unless it is the first reference itself or a name that
precedes it is among the references. -/
def Ruleset.Legible (grammar : Ruleset) : Prop :=
  ∀ rule ∈ grammar.rules, ∀ row ∈ rows rule.2.lexemes, ∀ name ∈ grammar.names,
    straddles name row = true → row.head? = some name ∨ ∃ other ∈ row, grammar.precedes other name = true

instance (grammar : Ruleset) : Decidable grammar.Legible :=
  inferInstanceAs (Decidable (∀ rule ∈ grammar.rules, ∀ row ∈ rows rule.2.lexemes,
    ∀ name ∈ grammar.names, straddles name row = true →
      row.head? = some name ∨ ∃ other ∈ row, grammar.precedes other name = true))

/-! ## The grammar in grammar notation -/

mutual

def Factor.image (final : RuleName → String) : Factor → Body
  | .name rule => .symbol (final rule)
  | .text quoted => .literal (String.ofList quoted.chars)
  | .group body => .ofAlternatives (body.images final)
  | .option body => .optional (.ofAlternatives (body.images final))
  | .many body => .rep (.ofAlternatives (body.images final)) 0 none
  | .some body => .rep (.ofAlternatives (body.images final)) 1 none

def Series.images (final : RuleName → String) : Series → List Body
  | .one factor => [factor.image final]
  | .more factor rest => factor.image final :: rest.images final

def Choice.images (final : RuleName → String) : Choice → List Body
  | .one series => [.ofItems (series.images final)]
  | .more series rest => .ofItems (series.images final) :: rest.images final

end

def Choice.image (final : RuleName → String) (body : Choice) : Body := .ofAlternatives (body.images final)

/-- Whether a name is spelt in lower case with underscores: a small letter and small letters, digits and
underscores. -/
def isSnakeCase (name : String) : Bool :=
  match name.toList with
  | [] => false
  | c :: rest => c.isLower && rest.all fun c => c.isLower || c.isDigit || c == '_'

/-- The name of a rule in grammar notation: a terminal keeps its name, any other name is folded, and the
folded names that are listed become those of terminals. -/
def RuleName.final (terminals : List String) (name : RuleName) : String :=
  if isTerminalSpelling name.text then name.text
  else if terminals.contains (foldName name.text) then upperCase (foldName name.text)
  else foldName name.text

def Ruleset.definitions (terminals : List String) (grammar : Ruleset) : List Definition :=
  grammar.rules.mapIdx fun index rule =>
    { name := rule.1.final terminals
      body := rule.2.image (RuleName.final terminals)
      line := index + 1 }

end FlightProcedure.Ebnf
