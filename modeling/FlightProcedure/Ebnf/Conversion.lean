import FlightProcedure.Ebnf.Naming
import FlightProcedure.Pattern.Replace

/-!
# Converting ISO EBNF to grammar notation

A conversion replaces matches of patterns, changes the layout of definitions, folds the names of rules
and makes some of them terminals, and then replaces matches of further patterns.
-/

namespace FlightProcedure

structure Replacement where
  pattern : String
  template : String

structure ConversionRules where
  before : List Replacement := []
  terminals : List String := []
  after : List Replacement := []

structure Substitution where
  pattern : Pattern
  template : Template

namespace Substitution

/-- The replacement, whose pattern is read with anchors at every line. -/
def ofReplacement (replacement : Replacement) : Except ConversionError Substitution :=
  match Pattern.ofText? ("(?m)" ++ replacement.pattern) with
  | some pattern => .ok ⟨pattern, Template.ofText replacement.template⟩
  | none => .error (.invalidPattern replacement.pattern)

def apply (substitution : Substitution) (text : List Char) : List Char :=
  substitution.pattern.replaceAll substitution.template text

end Substitution

structure Conversion where
  before : List Substitution
  terminals : List String
  after : List Substitution

namespace Conversion

def ofRules (rules : ConversionRules) : Except ConversionError Conversion := do
  let before ← rules.before.mapM Substitution.ofReplacement
  let after ← rules.after.mapM Substitution.ofReplacement
  return { before, terminals := Ebnf.longestFirst String.utf8ByteSize rules.terminals, after }

def changeLayout (text : List Char) : List Char :=
  mapCode Ebnf.starred
    (Ebnf.joinAlternatives (Ebnf.dropTerminators (Ebnf.spacedItems (Ebnf.colons text))))

def renameRules (folded : Ebnf.FoldedNames) (text : List Char) : List Char :=
  let renamed := folded.filter fun (new, name) => new != name
  (Ebnf.longestFirst (fun (_, name) => name.utf8ByteSize) renamed).foldl
    (fun text (new, name) => Ebnf.replaceWord name new text) text

def promote (names : List String) (folded : Ebnf.FoldedNames) (text : List Char) (name : String) :
    Except ConversionError (List Char) :=
  let terminal := upperCase name
  match folded.any (·.1 == name), names.contains terminal with
  | true, true => .error (.terminalCollision name terminal)
  | false, false => .error (.unknownTerminal name)
  | _, _ => .ok (Ebnf.replaceWord name terminal text)

def convert (conversion : Conversion) (text : String) : Except ConversionError String := do
  let text := conversion.before.foldl (fun text substitution => substitution.apply text) text.toList
  let text := changeLayout text
  let names := Ebnf.heads text
  let folded ← Ebnf.foldNames names
  let text ← conversion.terminals.foldlM (promote names folded) (renameRules folded text)
  let text := conversion.after.foldl (fun text substitution => substitution.apply text) text
  return String.ofList (Ebnf.alignContinuations text)

end Conversion

end FlightProcedure
