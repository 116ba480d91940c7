import FlightProcedure.Grammar.Basic
import FlightProcedure.Grammar.Error

/-!
# Checks on the rules of a grammar

No repetition may have a body that can match nothing, and no rule may lead back to itself before any
text is consumed. A parse of a grammar that passes both checks always ends.
-/

namespace FlightProcedure

namespace Item

mutual

def nullable (rules : Array Bool) : Item → Bool
  | .rule id => rules.getD id false
  | .terminal _ => false
  | .seq items => allNullable rules items
  | .alt items => anyNullable rules items
  | .optional _ => true
  | .rep inner least _ => least == 0 || inner.nullable rules

def allNullable (rules : Array Bool) : List Item → Bool
  | [] => true
  | item :: items => item.nullable rules && allNullable rules items

def anyNullable (rules : Array Bool) : List Item → Bool
  | [] => false
  | item :: items => item.nullable rules || anyNullable rules items

end

mutual

def repeatsNullable (rules : Array Bool) : Item → Bool
  | .rule _ => false
  | .terminal _ => false
  | .seq items => anyRepeatsNullable rules items
  | .alt items => anyRepeatsNullable rules items
  | .optional inner => inner.repeatsNullable rules
  | .rep inner _ _ => inner.nullable rules || inner.repeatsNullable rules

def anyRepeatsNullable (rules : Array Bool) : List Item → Bool
  | [] => false
  | item :: items => item.repeatsNullable rules || anyRepeatsNullable rules items

end

mutual

def leading (rules : Array Bool) : Item → List Nat
  | .rule id => [id]
  | .terminal _ => []
  | .seq items => leadingSeq rules items
  | .alt items => leadingAlt rules items
  | .optional inner => inner.leading rules
  | .rep inner _ _ => inner.leading rules

/-- The rules that a sequence may enter first: those of each item up to the first one that has to
match something. -/
def leadingSeq (rules : Array Bool) : List Item → List Nat
  | [] => []
  | item :: items =>
    item.leading rules ++ if item.nullable rules then leadingSeq rules items else []

def leadingAlt (rules : Array Bool) : List Item → List Nat
  | [] => []
  | item :: items => item.leading rules ++ leadingAlt rules items

end

end Item

/-- The rules that can match nothing, once more of them are known. -/
def nullableStep (rules : Array Rule) (known : Array Bool) : Array Bool :=
  rules.map fun rule => Item.anyNullable known rule.alternatives

/-- The rules that can match nothing, after a number of steps from a known part of them. -/
def nullableFrom (rules : Array Rule) : Nat → Array Bool → Array Bool
  | 0, known => known
  | fuel + 1, known =>
    let next := nullableStep rules known
    if next = known then known else nullableFrom rules fuel next

/-- Which rules can match nothing. As many steps as there are rules settle it. -/
def nullableRules (rules : Array Rule) : Array Bool :=
  nullableFrom rules (rules.size + 1) (Array.replicate rules.size false)

/-- What is known of a rule in the search for a cycle. -/
inductive Mark where
  | fresh
  | active
  | finished
deriving DecidableEq

/-- Visit a rule and all that it leads to. The result is a rule that leads back to itself, or the
marks after the visit. The fuel bounds the number of active rules. -/
def visitRule (leading : Array (List Nat)) : Nat → Nat → Array Mark → Except Nat (Array Mark)
  | 0, _, marks => .ok marks
  | fuel + 1, id, marks =>
    match marks.getD id .finished with
    | .active => .error id
    | .finished => .ok marks
    | .fresh => do
      let marks ← (leading.getD id []).foldlM
        (fun marks next => visitRule leading fuel next marks) (marks.setIfInBounds id .active)
      .ok (marks.setIfInBounds id .finished)

/-- Visit all rules in order, with enough fuel for each. -/
def visitRules (leading : Array (List Nat)) : Except Nat (Array Mark) :=
  (List.range leading.size).foldlM
    (fun marks id => visitRule leading (leading.size + 1) id marks)
    (Array.replicate leading.size .fresh)

/-- A rule that leads back to itself, if there is one. -/
def findCycle? (leading : Array (List Nat)) : Option Nat :=
  match visitRules leading with
  | .ok _ => none
  | .error id => some id

def checkRules (rules : Array Rule) : Except GrammarError Unit := do
  let nullable := nullableRules rules
  match rules.find? fun rule => Item.anyRepeatsNullable nullable rule.alternatives with
  | some rule => .error (.nullableRepeat rule.name)
  | none =>
    match findCycle? (rules.map fun rule => Item.leadingAlt nullable rule.alternatives) with
    | none => .ok ()
    | some id => .error (.leftRecursion ((rules[id]?.map (·.name)).getD ""))

end FlightProcedure
