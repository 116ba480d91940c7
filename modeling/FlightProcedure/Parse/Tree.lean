/-!
# Syntax trees

A parse yields a tree. Its nodes are labelled with the names of rules and its leaves are tokens. All
positions are counted in characters of the source.
-/

namespace FlightProcedure

structure Token where
  /-- The name of the terminal, or the text of a literal inside a rule. -/
  terminal : String
  text : String
  start : Nat
  stop : Nat
deriving DecidableEq

inductive Tree where
  | leaf (token : Token)
  | node (rule : String) (start stop : Nat) (children : List Tree)

namespace Tree

def start : Tree → Nat
  | .leaf token => token.start
  | .node _ start _ _ => start

def stop : Tree → Nat
  | .leaf token => token.stop
  | .node _ _ stop _ => stop

def children : Tree → List Tree
  | .leaf _ => []
  | .node _ _ _ children => children

def rule? : Tree → Option String
  | .leaf _ => none
  | .node rule _ _ _ => some rule

def token? : Tree → Option Token
  | .leaf token => some token
  | .node _ _ _ _ => none

mutual

def text : Tree → String
  | .leaf token => token.text
  | .node _ _ _ children => textOf children

def textOf : List Tree → String
  | [] => ""
  | tree :: trees => tree.text ++ textOf trees

end

/-- The first node directly below that a given rule made. -/
def find? (tree : Tree) (rule : String) : Option Tree := tree.children.find? (·.rule? == some rule)

def indent (depth : Nat) : String :=
  String.join (List.replicate depth "  ")

mutual

/-- The tree with one node or token on each line, at some depth. A node with a single token has it on
its own line. -/
def prettyAt (depth : Nat) : Tree → String
  | .leaf token => indent depth ++ token.text ++ "\n"
  | .node rule _ _ children =>
    match children with
    | [.leaf token] => indent depth ++ rule ++ "\t" ++ token.text ++ "\n"
    | children => indent depth ++ rule ++ "\n" ++ prettyAll (depth + 1) children

def prettyAll (depth : Nat) : List Tree → String
  | [] => ""
  | tree :: trees => prettyAt depth tree ++ prettyAll depth trees

end

def pretty (tree : Tree) : String := tree.prettyAt 0

end Tree

end FlightProcedure
