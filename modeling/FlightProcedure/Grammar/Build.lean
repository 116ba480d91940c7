import FlightProcedure.Grammar.Check
import FlightProcedure.Grammar.Flatten

/-!
# Building grammars

`Grammar.build` turns definitions into a grammar. Literals and patterns inside rules become
terminals of their own, and the words of the literals become reserved words. Of several faults the
first in this order is reported: a name that is defined twice, the terminals, the rules, the text
between tokens, and the checks on the rules.
-/

namespace FlightProcedure

structure GrammarOptions where
  /-- Patterns of the text that may stand before every token. -/
  ignore : List String := []
  /-- Terminals whose tokens avoid reserved words; so do those of terminals that refer to them. -/
  guarded : List String := []
  reserved : List String := []

namespace Definitions

/-- The first name that occurs a second time. -/
def duplicate? : List String → List String → Option String
  | _, [] => none
  | seen, name :: rest => if name ∈ seen then some name else duplicate? (name :: seen) rest

/-- The guarded names together with the terminals that refer to one of them. -/
def guardStep (terminals : List Definition) (guarded : List String) : List String :=
  terminals.foldl
    (fun guarded definition =>
      if definition.name ∉ guarded ∧ definition.body.symbols.any (· ∈ guarded) then
        definition.name :: guarded
      else guarded)
    guarded

/-- The guarded names with all terminals that refer to one of them, directly or not. As many steps as
there are terminals settle it. -/
def guardClosure (terminals : List Definition) (guarded : List String) : List String :=
  (List.range (terminals.length + 1)).foldl (fun guarded _ => guardStep terminals guarded) guarded

end Definitions

structure Vocabulary where
  terminals : Array Terminal := #[]
  keywords : Std.HashSet String := {}
  phrases : List (List String) := []

namespace Vocabulary

def terminalId? (vocabulary : Vocabulary) (name : String) : Option Nat := vocabulary.terminals.findIdx? (·.name == name)

/-- Reserve the words of a literal: a single word if all its characters are alphabetic, several words
as a sequence. -/
def reserve (vocabulary : Vocabulary) (text : String) : Vocabulary :=
  match words text.toList with
  | [] => vocabulary
  | [word] =>
    if word.all isAlphabetic then
      { vocabulary with keywords := vocabulary.keywords.insert (String.ofList word) }
    else vocabulary
  | found =>
    let phrase := found.map String.ofList
    if phrase ∈ vocabulary.phrases then vocabulary
    else { vocabulary with phrases := vocabulary.phrases ++ [phrase] }

def push (vocabulary : Vocabulary) (terminal : Terminal) : Vocabulary :=
  { vocabulary with terminals := vocabulary.terminals.push terminal }

def namedTerminal (defs : Definitions) (guarded : List String) (definition : Definition) :
    Except GrammarError Terminal := do
  let source ← defs.sourceOf definition.name
  let leading ← compilePattern definition.name (leadingSource source)
  let exact ← compilePattern definition.name (exactSource source)
  .ok {
    name := definition.name
    source := match definition.body with
      | .literal text => .literal text
      | _ => .regex source
    anonymous := false
    filtered := (localName definition.name).toList.head? == some '_'
    guarded := decide (definition.name ∈ guarded)
    leading, exact }

def ofDefinitions (defs : Definitions) (options : GrammarOptions) : Except GrammarError Vocabulary := do
  let guarded := Definitions.guardClosure defs.terminals options.guarded
  defs.terminals.foldlM
    (fun vocabulary definition => do
      .ok (vocabulary.push (← namedTerminal defs guarded definition)))
    {}

/-- The number of the terminal for a literal or a pattern inside a rule, which is added unless there
is one already. -/
def anonymous (vocabulary : Vocabulary) (name : String) (written : TerminalSource)
    (source : String) : Except GrammarError (Nat × Vocabulary) :=
  match vocabulary.terminalId? name with
  | some id => .ok (id, vocabulary)
  | none => do
    let leading ← compilePattern name (leadingSource source)
    let exact ← compilePattern name (exactSource source)
    let terminal : Terminal :=
      { name, source := written, anonymous := true, filtered := false, guarded := false, leading, exact }
    .ok (vocabulary.terminals.size, vocabulary.push terminal)

mutual

/-- A body in terms of numbers, with the vocabulary that it adds to. The owner is the rule that the
body belongs to. -/
def item (defs : Definitions) (owner : String) : Vocabulary → Body → Except GrammarError (Item × Vocabulary)
  | vocabulary, .symbol name =>
    match defs.rules.findIdx? (·.name == name) with
    | some id => .ok (.rule id, vocabulary)
    | none =>
      match vocabulary.terminalId? name with
      | some id => .ok (.terminal id, vocabulary)
      | none => .error (.undefined name owner)
  | vocabulary, .literal text => do
    let (id, vocabulary) ← (vocabulary.reserve text).anonymous ("\"" ++ text ++ "\"")
      (.literal text) (wordsSource text)
    .ok (.terminal id, vocabulary)
  | vocabulary, .pattern regex flags => do
    let source := Body.patternGroup regex flags
    let (id, vocabulary) ← vocabulary.anonymous ("/" ++ regex ++ "/" ++ flags)
      (.regex source) source
    .ok (.terminal id, vocabulary)
  | vocabulary, .seq bodies => do
    let (found, vocabulary) ← items defs owner vocabulary bodies
    .ok (.seq found, vocabulary)
  | vocabulary, .alt bodies => do
    let (found, vocabulary) ← items defs owner vocabulary bodies
    .ok (.alt found, vocabulary)
  | vocabulary, .optional inner => do
    let (found, vocabulary) ← item defs owner vocabulary inner
    .ok (.optional found, vocabulary)
  | vocabulary, .rep inner least most => do
    let (found, vocabulary) ← item defs owner vocabulary inner
    .ok (.rep found least most, vocabulary)

def items (defs : Definitions) (owner : String) : Vocabulary → List Body → Except GrammarError (List Item × Vocabulary)
  | vocabulary, [] => .ok ([], vocabulary)
  | vocabulary, body :: bodies => do
    let (first, vocabulary) ← item defs owner vocabulary body
    let (others, vocabulary) ← items defs owner vocabulary bodies
    .ok (first :: others, vocabulary)

end

def rule (defs : Definitions) (vocabulary : Vocabulary) (definition : Definition) :
    Except GrammarError (Rule × Vocabulary) := do
  let alternatives := match definition.body with
    | .alt bodies => bodies
    | body => [body]
  let (alternatives, vocabulary) ← items defs definition.name vocabulary alternatives
  .ok ({ name := definition.name, shaping := definition.shaping, alternatives }, vocabulary)

def rules (defs : Definitions) : Vocabulary → List Definition → Except GrammarError (List Rule × Vocabulary)
  | vocabulary, [] => .ok ([], vocabulary)
  | vocabulary, definition :: definitions => do
    let (first, vocabulary) ← rule defs vocabulary definition
    let (others, vocabulary) ← rules defs vocabulary definitions
    .ok (first :: others, vocabulary)

end Vocabulary

namespace Grammar

def build (defs : Definitions) (options : GrammarOptions) : Except GrammarError Grammar := do
  match Definitions.duplicate? [] (defs.toList.map (·.name)) with
  | some name => .error (.duplicate name)
  | none =>
    let named ← Vocabulary.ofDefinitions defs options
    let (rules, vocabulary) ← Vocabulary.rules defs named defs.rules
    let ignore ← options.ignore.mapM fun source =>
      compilePattern "%ignore" (leadingSource source)
    checkRules rules.toArray
    .ok {
      rules := rules.toArray
      terminals := vocabulary.terminals
      ignore
      keywords := vocabulary.keywords.insertMany options.reserved
      phrases := vocabulary.phrases }

end Grammar

end FlightProcedure
