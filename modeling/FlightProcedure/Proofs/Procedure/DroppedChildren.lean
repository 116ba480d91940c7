import FlightProcedure.Procedure.OfTree

/-!
# Children that leave no trace

Some kinds of nodes look at a fixed number of children and never ask whether one is left. `action_drops_rest` says
that further children change nothing there, and `second_operand_dropped` shows a procedure that loses an
expression in this way.
-/

namespace FlightProcedure

/-- The number of children that a node looks at, for the kinds of nodes that do not ask for more. -/
def RuleKind.reach? : RuleKind → Option Nat
  | .description | .predefinedType | .continuationAction | .raiseEvent | .variableReference | .eventReference
  | .objectProperty | .argumentReference | .booleanOperator | .constant | .booleanConstant => some 1
  | .simpleArgument | .recordArgument | .directive | .objectPropertyRequest | .term | .factor | .simpleFactor => some 2
  | .relationalExpression => some 3
  | .caseTag => some 4
  | _ => none

theorem action_take {name : String} {site : Site} {count : Nat} (hreach : site.kind.reach? = some count)
    (values : List Value) : action name site (values.take count) = action name site values := by
  obtain ⟨kind, offset⟩ := site
  cases kind with
  | description | predefinedType | continuationAction | raiseEvent | variableReference | eventReference
  | objectProperty | argumentReference | booleanOperator | constant | booleanConstant =>
    cases hreach
    match values with
    | [] | [_] => rfl
    | first :: _ :: _ => cases first <;> rfl
  | simpleArgument | recordArgument | directive | objectPropertyRequest | term | factor | simpleFactor =>
    cases hreach
    match values with
    | [] | [_] | [_, _] => rfl
    | first :: second :: _ :: _ =>
      cases first <;> try rfl
      all_goals cases second <;> rfl
  | relationalExpression =>
    cases hreach
    match values with
    | [] | [_] | [_, _] | [_, _, _] => rfl
    | first :: second :: third :: _ :: _ =>
      cases first <;> try rfl
      cases second <;> try rfl
      cases third <;> rfl
  | caseTag =>
    cases hreach
    match values with
    | [] | [_] | [_, _] | [_, _, _] | [_, _, _, _] => rfl
    | first :: second :: third :: fourth :: _ :: _ =>
      cases first <;> try rfl
      cases second <;> try rfl
      cases third <;> try rfl
      cases fourth <;> rfl
  | _ => cases hreach

/-- Children beyond the reach of a node change nothing. -/
theorem action_drops_rest {name : String} {site : Site} {count : Nat} {values : List Value}
    (hreach : site.kind.reach? = some count) (hlength : count ≤ values.length) (extra : List Value) :
    action name site (values ++ extra) = action name site values := by
  rw [← action_take hreach, List.take_append_of_le_length hlength, action_take hreach]

/-- A comparison does not see a third operand. -/
theorem third_operand_unseen : RuleKind.relationalExpression.reach? = some 3 ∧
    let values : List Value := [.expr (.var "a"), .token ⟨"LESS", "<", 2, 3⟩, .expr (.var "b")]
    action "p" ⟨.relationalExpression, 0⟩ (values ++ [.expr (.var "c")]) =
      action "p" ⟨.relationalExpression, 0⟩ values :=
  ⟨rfl, action_drops_rest rfl (Nat.le_refl 3) _⟩

def loggedOperands (operands : List String) : Tree :=
  .node "procedure_definition" 0 1 [.node "procedure_main_body" 7 8 [.node "log_statement" 7 8
    [.node "relational_expression" 7 8 (operands.map fun text =>
      .node "boolean_constant" 7 8 [.leaf ⟨"b", text, 7, 8⟩])]]]

/-- The procedure is the same with and without a second operand. -/
theorem second_operand_dropped : (Procedure.ofTree "odd" (loggedOperands ["TRUE"])).isOk = true ∧
    Procedure.ofTree "odd" (loggedOperands ["TRUE", "FALSE"]) = Procedure.ofTree "odd" (loggedOperands ["TRUE"]) := by
  constructor
  · decide +kernel
  · rfl

end FlightProcedure
