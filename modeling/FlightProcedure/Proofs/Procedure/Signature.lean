import FlightProcedure.Procedure.Value
import Mathlib.Data.List.Forall2

/-!
# Signatures of rules

Every meaning plays a role, and a rule asks its children to play certain roles, one after another. The
signature of a rule says which ones, and which role the node itself plays then. Rules that are not
supported have no signature: their nodes never have a meaning.

Read `RuleKind.signature?` first. `Accepts` says what it is for parts to fill slots.
-/

namespace FlightProcedure

open List

inductive Role where
  | expr
  | name
  | text
  | key
  | step
  | token (terminal : String)
  | anyToken
  | dataType
  | body
  | bodies
  | continuation
  | action
  | timeout
  | argument
  | arguments
  | directive
  | directives
  | activityCall
  | booleanOperator
  | caseTag
  | units
  | procedure
deriving DecidableEq

def Role.covers : Role → Role → Bool
  | .anyToken, .token _ => true
  | role, other => role == other

def spellings : List (String × List String) :=
  [("RELATIONAL_OPERATOR", ["=", "!=", "<=", ">=", "<", ">"]), ("ADDITION_OPERATOR", ["+", "-"]),
   ("MULTIPLICATION_OPERATOR", ["*", "/"]),
   ("SIGN", ["+", "-"]),
   ("CONFIRMATION_STATUS", ["confirmed", "not confirmed", "aborted"]),
   ("between", ["between"]),
   ("AND", ["AND"]), ("OR", ["OR"]), ("XOR", ["XOR"]),
   ("TRUE", ["TRUE"]), ("FALSE", ["FALSE"])]

def typeWords : List String :=
  ["Boolean", "signed integer", "unsigned integer", "real", "string", "absolute time", "relative time"]

def actionWords : List String :=
  ["resume", "abort", "restart", "ask user", "continue", "terminate"]

def caseWords : List String :=
  ["in case", "is", ":", ";", "or is", "end case"]

def keywords : List String := typeWords ++ actionWords ++ caseWords

/-- The text of the token is one that its terminal or literal can have. -/
structure Token.Spelled (token : Token) : Prop where
  text : ∀ texts, (token.terminal, texts) ∈ spellings → token.text ∈ texts
  words : token.terminal ∈ keywords → keywordText token.text = token.terminal

def Role.Holds : Role → Value → Prop
  | .expr, .expr _ => True
  | .name, .name _ => True
  | .text, .text _ => True
  | .key, .key _ => True
  | .step, .key _ => True
  | .token terminal, .token found => found.terminal = terminal ∧ found.Spelled
  | .anyToken, .token _ => True
  | .dataType, .dataType _ => True
  | .body, .body _ => True
  | .bodies, .bodies _ => True
  | .continuation, .continuation _ => True
  | .action, .action _ => True
  | .timeout, .timeout _ => True
  | .argument, .argument _ => True
  | .arguments, .arguments _ => True
  | .directive, .directive _ _ => True
  | .directives, .directives _ => True
  | .activityCall, .activityCall _ => True
  | .booleanOperator, .booleanOperator _ => True
  | .caseTag, .caseTag _ => True
  | .units, .units _ => True
  | .procedure, .procedure _ => True
  | _, _ => False

inductive Slot where
  | one (roles : List Role)
  | opt (roles : List Role)
  | many (roles : List Role)
  | pairs (first second : List Role)
deriving DecidableEq

/-- The role of a node and the slots for its children, of which there may be several choices. -/
structure Signature where
  role : Role
  choices : List (List Slot)

def statementRoles : List Role := [.key, .step]

def RuleKind.signature? : RuleKind → Option Signature
  | .procedureDefinition => some ⟨.procedure, [[.many [.body]]]⟩
  | .procedureDeclarationBody | .stepDeclarationBody | .preconditionsBody | .procedureMainBody
  | .stepMainBody | .confirmationBody => some ⟨.body, [[.many statementRoles]]⟩
  | .watchdogBody => some ⟨.body, [[.many [.step]]]⟩
  | .procedureStatement | .stepStatement | .flowControlStatement | .waitStatement =>
    some ⟨.key, [[.one statementRoles]]⟩
  | .eventDeclaration => some ⟨.key, [[.one [.token "EVENT_NAME"], .opt [.text]]]⟩
  | .description => some ⟨.text, [[.one [.token "STRING_CONSTANT"]]]⟩
  | .variableDeclaration => some ⟨.key, [[.one [.token "VARIABLE_NAME"], .one [.dataType]]]⟩
  | .predefinedType => some ⟨.dataType, [[.one (typeWords.map .token)]]⟩
  | .initiateAndConfirmStepStatement =>
    some ⟨.step, [[.one [.token "STEP_NAME"], .one [.bodies], .opt [.continuation]]]⟩
  | .stepDefinition => some ⟨.bodies, [[.many [.body]]]⟩
  | .continuationTest =>
    some ⟨.continuation, [[.pairs [.token "CONFIRMATION_STATUS"] [.action]]]⟩
  | .continuationAction => some ⟨.action, [[.one (.name :: actionWords.map .token)]]⟩
  | .raiseEvent | .eventReference => some ⟨.name, [[.one [.token "EVENT_NAME"]]]⟩
  | .variableReference => some ⟨.name, [[.one [.token "VARIABLE_NAME"]]]⟩
  | .initiateAndConfirmActivityStatement =>
    some ⟨.key, [[.one [.activityCall], .opt [.token "ACTIVITY_STATEMENT"], .opt [.continuation]]]⟩
  | .initiateActivityStatement =>
    some ⟨.key, [[.one [.activityCall], .opt [.token "ACTIVITY_STATEMENT"]]]⟩
  | .activityCall => some ⟨.activityCall, [[.one [.name], .opt [.arguments], .opt [.directives]]]⟩
  | .activityReference => some ⟨.name, [[.one [.name]]]⟩
  | .arguments => some ⟨.arguments, [[.many [.argument]]]⟩
  | .argument => some ⟨.argument, [[.one [.argument]]]⟩
  | .simpleArgument => some ⟨.argument, [[.one [.token "ARGUMENT_NAME"], .one [.expr]]]⟩
  | .recordArgument => some ⟨.argument, [[.one [.token "ARGUMENT_NAME"], .one [.arguments]]]⟩
  | .directives => some ⟨.directives, [[.many [.directive]]]⟩
  | .directive => some ⟨.directive, [[.one [.token "DIRECTIVE_NAME"], .one [.expr]]]⟩
  | .logStatement => some ⟨.key, [[.many [.expr]]]⟩
  | .assignmentStatement => some ⟨.key, [[.one [.name], .one [.expr]]]⟩
  | .ifStatement =>
    some ⟨.key, [[.one [.token "if"], .one [.expr],
      .many (statementRoles ++ [.token "then", .token ";", .token "else", .token "end if"])]]⟩
  | .caseStatement =>
    some ⟨.key, [[.one [.token "in case"], .one [.expr], .one [.token "is"], .one [.caseTag],
      .many (.caseTag :: statementRoles ++ [.token ":", .token ";", .token "or is"]),
      .opt [.token "otherwise"],
      .many (statementRoles ++ [.token ":", .token ";", .token "end case"])]]⟩
  | .caseTag =>
    some ⟨.caseTag, [[.one [.token "RELATIONAL_OPERATOR"], .one [.expr]],
      [.one [.token "between"], .one [.expr], .one [.token "and"], .one [.expr]], [.one [.expr]]]⟩
  | .waitForEventStatement => some ⟨.key, [[.one [.name], .opt [.timeout]]]⟩
  | .waitUntilStatement => some ⟨.key, [[.one [.expr], .opt [.timeout]]]⟩
  | .waitForStatement => some ⟨.key, [[.one [.expr]]]⟩
  | .timeout => some ⟨.timeout, [[.one [.expr], .opt [.token "EVENT_NAME"]]]⟩
  | .expression => some ⟨.expr, [[.one [.expr], .pairs [.booleanOperator] [.expr]]]⟩
  | .relationalExpression =>
    some ⟨.expr, [[.one [.expr], .pairs [.token "RELATIONAL_OPERATOR"] [.expr]]]⟩
  | .comparativeExpression =>
    some ⟨.expr, [[.one [.expr], .pairs [.token "ADDITION_OPERATOR"] [.expr]]]⟩
  | .product => some ⟨.expr, [[.one [.expr], .pairs [.token "MULTIPLICATION_OPERATOR"] [.expr]]]⟩
  | .term => some ⟨.expr, [[.one [.expr], .opt [.expr]]]⟩
  | .factor =>
    some ⟨.expr, [[.one [.expr]], [.one [.token "NEGATION_BOOLEAN_OPERATOR"], .one [.expr]]]⟩
  | .simpleFactor =>
    some ⟨.expr, [[.one [.expr]], [.one [.name]], [.one [.token "SIGN"], .one [.expr]]]⟩
  | .function =>
    some ⟨.expr, [[.one [.token "STANDARD_FUNCTION_NAME", .token "NONSTANDARD_FUNCTION_NAME"], .many [.expr]]]⟩
  | .objectPropertyRequest => some ⟨.expr, [[.one [.name], .one [.name]]]⟩
  | .objectProperty =>
    some ⟨.name, [[.one [.token "STANDARD_OBJECT_PROPERTY_NAME", .token "NONSTANDARD_OBJECT_PROPERTY_NAME"]]]⟩
  | .objectReference => some ⟨.name, [[.many [.token "OBJECT_NAME"]]]⟩
  | .argumentReference => some ⟨.expr, [[.one [.token "ARGUMENT_NAME"]]]⟩
  | .booleanOperator =>
    some ⟨.booleanOperator, [[.one [.token "AND", .token "OR", .token "XOR"]]]⟩
  | .constant =>
    some ⟨.expr, [[.one [.expr, .token "ABSOLUTE_TIME_CONSTANT", .token "STRING_CONSTANT",
      .token "ENUMERATED_CONSTANT"]]]⟩
  | .booleanConstant => some ⟨.expr, [[.one [.token "TRUE", .token "FALSE"]]]⟩
  | .integerConstant =>
    some ⟨.expr, [[.one [.token "HEXADECIMAL_CONSTANT"]], [.one [.token "SIGN", .token "UNSIGNED_INTEGER"],
        .many [.token "UNSIGNED_INTEGER", .units]]]⟩
  | .realConstant => some ⟨.expr, [[.many [.anyToken, .units]]]⟩
  | .relativeTimeConstant => some ⟨.expr, [[.pairs [.anyToken] [.anyToken]]]⟩
  | .engineeringUnits | .unitReference | .unitProduct | .unitFactor | .unitSimpleFactor
  | .unitExponent => some ⟨.units, [[.many [.anyToken, .units]]]⟩
  | .propertyDataType | .propertyValueSet | .predefinedValueSetReference
  | .enumeratedSetDeclaration | .enumeratedSetReference | .setProcedureContextStatement
  | .setStepContextStatement | .systemElementReference | .initiateInParallelStatement
  | .arrayArgument | .informUserStatement | .saveContextStatement | .saveContext
  | .objectOperationRequestStatement | .objectOperation | .whileStatement | .forStatement
  | .repeatStatement | .reportingDataReference => none

def RuleKind.role? (kind : RuleKind) : Option Role := kind.signature?.map (·.role)

/-- The roles that a match of the rule may play where the rule is referred to. A rule that gives a single
child to its parent may show the role of the child. -/
def RuleKind.shows : RuleKind → List Role
  | .procedureStatement | .stepStatement => statementRoles
  | .unitReference | .unitProduct | .unitFactor | .unitSimpleFactor | .unitExponent =>
    [.units, .anyToken]
  | kind => kind.role?.toList

section

variable {α : Type}

def Alternates (first second : α → Prop) : List α → Prop
  | [] => True
  | [_] => False
  | part :: next :: rest => first part ∧ second next ∧ Alternates first second rest

/-- `Accepts plays slots parts` says that the parts fill the slots, one after another. -/
def Accepts (plays : List Role → α → Prop) : List Slot → List α → Prop
  | [], parts => parts = []
  | .one roles :: slots, parts =>
    ∃ part rest, parts = part :: rest ∧ plays roles part ∧ Accepts plays slots rest
  | .opt roles :: slots, parts => Accepts plays slots parts ∨
      ∃ part rest, parts = part :: rest ∧ plays roles part ∧ Accepts plays slots rest
  | .many roles :: slots, parts =>
    ∃ front rest, parts = front ++ rest ∧ (∀ part ∈ front, plays roles part) ∧ Accepts plays slots rest
  | .pairs first second :: slots, parts =>
    ∃ front rest, parts = front ++ rest ∧ Alternates (plays first) (plays second) front ∧ Accepts plays slots rest

end

def Slot.roles : Slot → List (List Role)
  | .one roles => [roles]
  | .opt roles => [roles]
  | .many roles => [roles]
  | .pairs first second => [first, second]

section

variable {α β : Type} {plays : List Role → α → Prop} {fits : List Role → β → Prop}

theorem alternates_or {first second : α → Prop} : ∀ {parts : List α},
    Alternates first second parts → ∀ part ∈ parts, first part ∨ second part
  | [], _ => by simp
  | head :: next :: rest, ⟨hhead, hnext, hrest⟩ => by
    intro part hpart
    rcases mem_cons.mp hpart with rfl | hpart
    · exact .inl hhead
    · rcases mem_cons.mp hpart with rfl | hpart
      · exact .inr hnext
      · exact alternates_or hrest part hpart

theorem accepts_roles {slots : List Slot} {parts : List α} (h : Accepts plays slots parts) :
    ∀ part ∈ parts, ∃ slot ∈ slots, ∃ roles ∈ slot.roles, plays roles part := by
  induction slots generalizing parts with
  | nil =>
    cases h
    simp
  | cons slot slots ih =>
    have hlater : ∀ {rest : List α}, Accepts plays slots rest → ∀ part ∈ rest,
        ∃ other ∈ slot :: slots, ∃ roles ∈ other.roles, plays roles part := by
      intro rest hrest part hpart
      obtain ⟨other, hother, hplays⟩ := ih hrest part hpart
      exact ⟨other, mem_cons_of_mem _ hother, hplays⟩
    have hfirst : ∀ {roles : List Role} {part : α}, roles ∈ slot.roles → plays roles part →
        ∃ other ∈ slot :: slots, ∃ roles ∈ other.roles, plays roles part :=
      fun hroles hplays => ⟨slot, mem_cons_self, _, hroles, hplays⟩
    intro part hpart
    cases slot with
    | one roles =>
      obtain ⟨first, rest, rfl, hplays, hrest⟩ := h
      rcases mem_cons.mp hpart with rfl | hpart
      · exact hfirst (mem_singleton_self _) hplays
      · exact hlater hrest part hpart
    | opt roles =>
      rcases h with h | ⟨first, rest, rfl, hplays, hrest⟩
      · exact hlater h part hpart
      · rcases mem_cons.mp hpart with rfl | hpart
        · exact hfirst (mem_singleton_self _) hplays
        · exact hlater hrest part hpart
    | many roles =>
      obtain ⟨front, rest, rfl, hfront, hrest⟩ := h
      rcases mem_append.mp hpart with hpart | hpart
      · exact hfirst (mem_singleton_self _) (hfront part hpart)
      · exact hlater hrest part hpart
    | pairs first second =>
      obtain ⟨front, rest, rfl, hfront, hrest⟩ := h
      rcases mem_append.mp hpart with hpart | hpart
      · rcases alternates_or hfront part hpart with hplays | hplays
        · exact hfirst mem_cons_self hplays
        · exact hfirst (mem_cons_of_mem _ (mem_singleton_self _)) hplays
      · exact hlater hrest part hpart

theorem forall2_append_left {relation : α → β → Prop} {front rest : List α} {all : List β}
    (h : Forall₂ relation (front ++ rest) all) :
    ∃ first second, all = first ++ second ∧ Forall₂ relation front first ∧ Forall₂ relation rest second := by
  induction front generalizing all with
  | nil => exact ⟨[], all, rfl, .nil, h⟩
  | cons head front ih =>
    cases h with
    | cons hhead hrest =>
      obtain ⟨first, second, rfl, hfirst, hsecond⟩ := ih hrest
      exact ⟨_ :: first, second, rfl, .cons hhead hfirst, hsecond⟩

theorem forall2_exists_left {relation : α → β → Prop} {first : List α} {second : List β}
    (h : Forall₂ relation first second) {other : β} (hmem : other ∈ second) :
    ∃ part ∈ first, relation part other := by
  induction h with
  | nil => cases hmem
  | cons hhead _ ih =>
    rcases mem_cons.mp hmem with rfl | hmem
    · exact ⟨_, mem_cons_self, hhead⟩
    · obtain ⟨part, hpart, hrelated⟩ := ih hmem
      exact ⟨part, mem_cons_of_mem _ hpart, hrelated⟩

theorem alternates_map {first second : List Role} : ∀ {parts : List α} {others : List β},
    Forall₂ (fun part other => ∀ roles, plays roles part → fits roles other) parts others →
    Alternates (plays first) (plays second) parts → Alternates (fits first) (fits second) others
  | [], [], _, _ => trivial
  | [_], _, _, h => h.elim
  | _ :: _ :: _, _, .cons hpart (.cons hnext hrest), ⟨hfirst, hsecond, halternates⟩ =>
    ⟨hpart _ hfirst, hnext _ hsecond, alternates_map hrest halternates⟩

theorem accepts_map {slots : List Slot} {parts : List α} {others : List β}
    (hothers : Forall₂ (fun part other => ∀ roles, plays roles part → fits roles other) parts others)
    (h : Accepts plays slots parts) : Accepts fits slots others := by
  induction slots generalizing parts others with
  | nil =>
    cases h
    cases hothers
    rfl
  | cons slot slots ih =>
    cases slot with
    | one roles =>
      obtain ⟨part, rest, rfl, hplays, hrest⟩ := h
      cases hothers with
      | cons hfirst hlater => exact ⟨_, _, rfl, hfirst roles hplays, ih hlater hrest⟩
    | opt roles =>
      rcases h with h | ⟨part, rest, rfl, hplays, hrest⟩
      · exact .inl (ih hothers h)
      · cases hothers with
        | cons hfirst hlater => exact .inr ⟨_, _, rfl, hfirst roles hplays, ih hlater hrest⟩
    | many roles =>
      obtain ⟨front, rest, rfl, hfront, hrest⟩ := h
      obtain ⟨first, second, rfl, hfirst, hsecond⟩ := forall2_append_left hothers
      refine ⟨first, second, rfl, fun other hother => ?_, ih hsecond hrest⟩
      obtain ⟨part, hpart, hfits⟩ := forall2_exists_left hfirst hother
      exact hfits roles (hfront part hpart)
    | pairs first second =>
      obtain ⟨front, rest, rfl, hfront, hrest⟩ := h
      obtain ⟨before, after, rfl, hbefore, hafter⟩ := forall2_append_left hothers
      exact ⟨before, after, rfl, alternates_map hbefore hfront, ih hafter hrest⟩

end

end FlightProcedure
