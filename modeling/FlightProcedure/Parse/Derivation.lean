/-!
# Derivations

A derivation records how a rule matched a part of the source: the tokens and derivations of other
rules that it consists of. If the same alternative of a rule reaches the same end in several ways, the
first way is kept and the others are its rivals.
-/

namespace FlightProcedure

inductive Derivation where
  | token (terminal start stop : Nat)
  /-- A match of a rule from `start` to `stop`; the span reaches from its first to its last token. -/
  | node (rule start stop : Nat) (span : Option (Nat × Nat)) (children : List Derivation)
      (rivals : List (List Derivation))

namespace Derivation

/-- From the start of the first token to the end of the last one, if there is a token. -/
def span : Derivation → Option (Nat × Nat)
  | .token _ start stop => some (start, stop)
  | .node _ _ _ span _ _ => span

def stop : Derivation → Nat
  | .token _ _ stop => stop
  | .node _ _ stop _ _ _ => stop

def spanOf (children : List Derivation) : Option (Nat × Nat) :=
  match children.findSome? span, children.reverse.findSome? span with
  | some (start, _), some (_, stop) => some (start, stop)
  | _, _ => none

end Derivation

/-- How many rivals are kept for a report. -/
def maxRivals : Nat := 3

/-- A match of a part of a rule's alternative. -/
structure Partial where
  stop : Nat
  children : List Derivation := []
  rivals : List (List Derivation) := []

namespace Partial

def nothing (pos : Nat) : Partial := { stop := pos }

def single (child : Derivation) : Partial := { stop := child.stop, children := [child] }

def extend (first second : Partial) : Partial where
  stop := second.stop
  children := first.children ++ second.children
  rivals := (first.rivals.map (· ++ second.children) ++ second.rivals.map (first.children ++ ·)).take maxRivals

/-- The match with one more way of reaching its end. -/
def addRival (kept other : Partial) : Partial :=
  { kept with rivals := (kept.rivals ++ other.children :: other.rivals).take maxRivals }

/-- Add a match unless its end has been reached already. -/
def prefer : List Partial → Partial → List Partial
  | [], other => [other]
  | kept :: rest, other =>
    if kept.stop = other.stop then kept :: rest else kept :: prefer rest other

/-- Add a match, as a rival if its end has been reached already. -/
def compete : List Partial → Partial → List Partial
  | [], other => [other]
  | kept :: rest, other =>
    if kept.stop = other.stop then kept.addRival other :: rest else kept :: compete rest other

def toDerivation (rule start : Nat) (part : Partial) : Derivation :=
  .node rule start part.stop (Derivation.spanOf part.children) part.children part.rivals

end Partial

end FlightProcedure
