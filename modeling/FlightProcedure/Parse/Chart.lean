import FlightProcedure.Parse.Derivation
import FlightProcedure.Parse.Input
import Std.Data.HashMap

/-!
# The chart parser

Every rule is evaluated once at every position where it is needed, and yields one derivation for each
position where it can end. Earlier alternatives are preferred; within one alternative, a second way of
reaching the same end is a rival of the first. Results are kept in a chart, which also records the
furthest position at which a terminal was missing.
-/

namespace FlightProcedure

/-- The furthest position at which something was missing, and the names of what was missing there, in
ascending order. -/
structure Furthest where
  pos : Nat := 0
  expected : List String := []

namespace Furthest

def insertName (name : String) : List String → List String
  | [] => [name]
  | other :: rest =>
    if name < other then name :: other :: rest
    else if name = other then other :: rest
    else other :: insertName name rest

/-- Record that something was missing at a position. -/
def note (furthest : Furthest) (pos : Nat) (name : String) : Furthest :=
  if furthest.pos < pos then ⟨pos, [name]⟩
  else if furthest.pos = pos then { furthest with expected := insertName name furthest.expected }
  else furthest

end Furthest

/-- What is known so far of rules and terminals at positions, and what went wrong on the way. -/
structure Chart where
  rules : Std.HashMap (Nat × Nat) (List Derivation) := {}
  tokens : Std.HashMap (Nat × Nat) (List Derivation) := {}
  furthest : Furthest := {}
  /-- Whether a rule was entered again at the position where it was being evaluated. -/
  reentered : Bool := false
  /-- Whether a step of a repetition did not get past the position where it started. -/
  stalled : Bool := false
  /-- Whether an evaluation was cut off because its fuel had run out. -/
  exhausted : Bool := false

abbrev ChartM := StateM Chart

namespace Chart

def tokensAt (input : Input) (id pos : Nat) : ChartM (List Derivation) := do
  match (← get).tokens[(id, pos)]? with
  | some found => pure found
  | none =>
    match input.grammar.terminals[id]? with
    | none => pure []
    | some terminal =>
      let start := input.skip pos
      let found := (input.tokenEnds terminal start).map (Derivation.token id start)
      modify fun chart =>
        { chart with
          tokens := chart.tokens.insert (id, pos) found
          furthest := if found.isEmpty then chart.furthest.note start terminal.name else chart.furthest }
      pure found

/-- Every match extended by every match of a step from its end. -/
def extendAll (step : Nat → ChartM (List Partial)) (parts : List Partial) : ChartM (List Partial) :=
  parts.foldlM
    (fun found part => do
      let further ← step part.stop
      pure ((further.map part.extend).foldl Partial.compete found))
    []

/-- A step of a repetition. One that does not get past its position is recorded. -/
def advance (step : Nat → ChartM (List Partial)) (pos : Nat) : ChartM (List Partial) := do
  let further ← step pos
  modify fun chart => { chart with stalled := chart.stalled || further.any (·.stop ≤ pos) }
  pure further

/-- A step taken repeatedly: the matches of `least` to `most` steps. The fuel bounds the number of
steps; since every step consumes text, the number of characters is enough. -/
def repeated (step : Nat → ChartM (List Partial)) (least : Nat) (most : Option Nat) :
    Nat → Nat → List Partial → List Partial → ChartM (List Partial)
  | 0, _, _, found => do
    modify fun chart => { chart with exhausted := true }
    pure found
  | fuel + 1, count, frontier, found => do
    let found := if least ≤ count then frontier.foldl Partial.compete found else found
    if frontier.isEmpty || most.any (· ≤ count) then pure found
    else
      let next ← extendAll (advance step) frontier
      repeated step least most fuel (count + 1) next found

mutual

/-- The matches of an item at a position, given how rules are evaluated. -/
def itemAt (input : Input) (rule : Nat → Nat → ChartM (List Derivation)) : Item → Nat → ChartM (List Partial)
  | .rule id, pos => do pure ((← rule id pos).map Partial.single)
  | .terminal id, pos => do pure ((← tokensAt input id pos).map Partial.single)
  | .seq items, pos => seqFrom input rule items [.nothing pos]
  | .alt items, pos => anyOf input rule items pos []
  | .optional inner, pos => do
    pure (Partial.prefer (← itemAt input rule inner pos) (.nothing pos))
  | .rep inner least most, pos =>
    repeated (fun pos => itemAt input rule inner pos) least most (input.size + 2) 0
      [.nothing pos] []

/-- The matches of items in a row, after matches of what comes before them. -/
def seqFrom (input : Input) (rule : Nat → Nat → ChartM (List Derivation)) :
    List Item → List Partial → ChartM (List Partial)
  | [], parts => pure parts
  | item :: items, parts => do
    let next ← extendAll (fun pos => itemAt input rule item pos) parts
    if next.isEmpty then pure [] else seqFrom input rule items next

/-- The matches of alternatives, after those of the alternatives before them. -/
def anyOf (input : Input) (rule : Nat → Nat → ChartM (List Derivation)) :
    List Item → Nat → List Partial → ChartM (List Partial)
  | [], _, found => pure found
  | item :: items, pos, found => do
    let more ← itemAt input rule item pos
    anyOf input rule items pos (more.foldl Partial.prefer found)

end

/-- The derivations of a rule at a position. A rule that is entered again at the position where it is
being evaluated derives nothing; the active rules are those that are being evaluated. The fuel bounds
their number. -/
def ruleAt (input : Input) : Nat → List (Nat × Nat) → Nat → Nat → ChartM (List Derivation)
  | fuel, active, id, pos => do
    match (← get).rules[(id, pos)]? with
    | some found => pure found
    | none =>
      if active.contains (id, pos) then
        modify fun chart => { chart with reentered := true }
        pure []
      else
        match fuel with
        | 0 => do
          modify fun chart => { chart with exhausted := true }
          pure []
        | fuel + 1 =>
          let alternatives := (input.grammar.rules[id]?.map (·.alternatives)).getD []
          let parts ← anyOf input (ruleAt input fuel ((id, pos) :: active)) alternatives pos []
          let found := parts.map (Partial.toDerivation id pos)
          modify fun chart => { chart with rules := chart.rules.insert (id, pos) found }
          pure found

/-- Enough fuel for every evaluation: one more than there are pairs of a rule and a position. -/
def enoughFuel (input : Input) : Nat := input.grammar.rules.size * (input.size + 1) + 1

/-- The derivations of a rule at the start of the source, and the chart after their evaluation. -/
def derive (input : Input) (rule : Nat) : List Derivation × Chart := (ruleAt input (enoughFuel input) [] rule 0).run {}

end Chart

end FlightProcedure
