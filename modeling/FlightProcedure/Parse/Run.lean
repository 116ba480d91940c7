import FlightProcedure.Parse.Chart
import FlightProcedure.Parse.Error
import FlightProcedure.Parse.Tree
import FlightProcedure.Text.Position

/-!
# Parsing a source

`Grammar.parse` reads a whole source by a rule and yields its syntax tree. The tree leaves out the
tokens of literals unless the rule keeps them, and gives the children of hidden rules, and single
children of rules that are written so, to the parent.
-/

namespace FlightProcedure

namespace Input

def ruleName (input : Input) (id : Nat) : String :=
  (input.grammar.rules[id]?.map (·.name)).getD ""

def terminalName (input : Input) (id : Nat) : String :=
  (input.grammar.terminals[id]?.map (·.name)).getD ""

def describe (input : Input) (children : List Derivation) : String :=
  " ".intercalate <| children.map fun
    | .token terminal _ _ => input.terminalName terminal
    | .node rule _ _ _ _ _ => input.ruleName rule

def textBetween (input : Input) (start stop : Nat) : String := String.ofList (input.chars.extract start stop).toList

/-- The token of a terminal, unless it is left out of the tree. -/
def tokenTree? (input : Input) (keepTokens : Bool) (id start stop : Nat) : Option Tree :=
  match input.grammar.terminals[id]? with
  | none => none
  | some terminal =>
    if terminal.filtered || (terminal.anonymous && !keepTokens) then none
    else some (.leaf ⟨terminal.tokenName, input.textBetween start stop, start, stop⟩)

/-- A child in the tree of its parent: the child itself, or its own children instead. -/
def splice (input : Input) (rule : Nat) (tree : Tree) : List Tree :=
  match input.grammar.rules[rule]? with
  | none => [tree]
  | some rule =>
    if rule.isHidden || (rule.shaping.inlineSingle && tree.children.length == 1) then tree.children
    else [tree]

mutual

/-- The tree of a derivation. A node with rivals is ambiguous. -/
def treeOf (input : Input) : Derivation → Except ParseError Tree
  | .token id start stop =>
    .ok (.leaf ⟨input.terminalName id, input.textBetween start stop, start, stop⟩)
  | .node id pos _ span children rivals =>
    let (start, stop) := span.getD (pos, pos)
    if rivals.isEmpty then do
      let keepTokens := (input.grammar.rules[id]?.map (·.shaping.keepTokens)).getD false
      .ok (.node (input.ruleName id) start stop (← treesOf input keepTokens children))
    else
      .error (.ambiguous (input.ruleName id) start stop ((children :: rivals).map input.describe))

/-- The trees of the parts of a derivation, as they appear in the tree of the whole. -/
def treesOf (input : Input) (keepTokens : Bool) : List Derivation → Except ParseError (List Tree)
  | [] => .ok []
  | .token id start stop :: rest => do
    .ok ((input.tokenTree? keepTokens id start stop).toList ++ (← treesOf input keepTokens rest))
  | .node id pos stop span children rivals :: rest => do
    let tree ← treeOf input (.node id pos stop span children rivals)
    .ok (input.splice id tree ++ (← treesOf input keepTokens rest))

end

def endName : String := "end of input"

/-- What stands at a position: the end of the source, or the start of a word. -/
def foundAt (input : Input) (pos : Nat) : String :=
  if input.size ≤ pos then endName
  else
    let word := (input.chars.extract pos input.size).toList.takeWhile fun c => !isBlank c
    "'" ++ String.ofList (word.take 20) ++ "'"

def unexpected (input : Input) (furthest : Furthest) : ParseError :=
  let (line, column) := lineColumn input.chars.toList furthest.pos
  .unexpected furthest.pos line column furthest.expected (input.foundAt furthest.pos)

/-- The tree of the first derivation that reaches the end of the source. -/
def select (input : Input) (furthest : Furthest) : List Derivation → Except ParseError Tree
  | [] => .error (input.unexpected furthest)
  | derivation :: rest =>
    let pos := input.skip derivation.stop
    if pos = input.size then input.treeOf derivation
    else input.select (furthest.note pos endName) rest

end Input

namespace Grammar

def parseRule (grammar : Grammar) (source : String) (rule : Nat) : Except ParseError Tree :=
  let input := Input.ofChars grammar source.toList.toArray
  let (derivations, chart) := Chart.derive input rule
  input.select chart.furthest derivations

def parse (grammar : Grammar) (source start : String) : Except ParseError Tree :=
  match grammar.ruleId? start with
  | some rule => grammar.parseRule source rule
  | none => .error (.unknownStart start)

end Grammar

end FlightProcedure
