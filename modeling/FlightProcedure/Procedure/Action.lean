import FlightProcedure.Procedure.Value

/-!
# The meaning of a node

`action` gives the meaning of a node from those of its children. It does not touch the table of
declarations: it says which declarations the node makes and which statements it turns into watchdogs.
-/

namespace FlightProcedure

structure NewDeclaration where
  offset : Nat
  declaration : Declaration

/-- What a node means and what it does to the declarations. -/
structure Effect where
  value : Value
  declares : List NewDeclaration := []
  watchdogs : List String := []

def Effect.ofValue (value : Value) : Effect := { value }

def Effect.ofStatement (offset : Nat) (statement : Statement) : Effect where
  value := .key (statementKey offset)
  declares := [⟨offset, .statement (statementKey offset) statement⟩]

def dataTypeOf (token : Token) : Except CompileError DataType :=
  match keywordText token.text with
  | "Boolean" => .ok .boolean
  | "signed integer" => .ok .integer
  | "unsigned integer" => .ok .integer
  | "real" => .ok .real
  | "string" => .ok .string
  | "absolute time" => .ok .absoluteTime
  | "relative time" => .ok .relativeTime
  | other => .error (.unknownKeyword RuleKind.predefinedType.name other token.start)

def confirmationStatusOf (token : Token) : Except CompileError ConfirmationStatus :=
  match keywordText token.text with
  | "confirmed" => .ok .confirmed
  | "not confirmed" => .ok .notConfirmed
  | "aborted" => .ok .aborted
  | other => .error (.unknownKeyword RuleKind.continuationTest.name other token.start)

def continuationActionOf (token : Token) : Except CompileError ContinuationAction :=
  match keywordText token.text with
  | "resume" => .ok .resume
  | "abort" => .ok .abort
  | "restart" => .ok .restart
  | "ask user" => .ok .askUser
  | "continue" => .ok .continue_
  | "terminate" => .ok .terminate
  | other => .error (.unknownKeyword RuleKind.continuationAction.name other token.start)

def operatorOf (site : Site) (operator? : String → Option BinaryOp) (token : Token) : Except CompileError BinaryOp :=
  match operator? token.text with
  | some op => .ok op
  | none => .error (.unknownKeyword site.kind.name token.text token.start)

def continuationCases (site : Site) : List Value → Except CompileError ContinuationTest
  | [] => .ok []
  | value :: rest => do
    let (token, _) ← site.token [value]
    let status ← confirmationStatusOf token
    match rest with
    | [] => .error (site.malformed .missingChild)
    | value :: rest => do
      let (action, _) ← site.take "a continuation action" Value.action? [value]
      .ok ((status, action) :: (← continuationCases site rest))

def durationTerms (site : Site) : List Value → Except CompileError (List String)
  | [] => .ok []
  | value :: rest => do
    let (magnitude, _) ← site.token [value]
    match rest with
    | [] => .error (site.malformed .missingChild)
    | value :: rest => do
      let (unit, _) ← site.token [value]
      .ok ((magnitude.text ++ unit.text) :: (← durationTerms site rest))

/-- An expression followed by operators and expressions, grouped from the left. -/
def leftAssociated (site : Site) (operator : List Value → Except CompileError (BinaryOp × List Value)) :
    Nat → Expr → List Value → Except CompileError Expr
  | 0, left, _ => .ok left
  | _ + 1, left, [] => .ok left
  | fuel + 1, left, value :: rest => do
    let (op, rest) ← operator (value :: rest)
    let (right, rest) ← site.expr rest
    leftAssociated site operator fuel (.binary left op right) rest

structure IfParts where
  condition : Option Expr := none
  inElse : Bool := false
  thenBranch : List String := []
  elseBranch : List String := []

def ifParts (site : Site) (parts : IfParts) : List Value → Except CompileError IfParts
  | [] => .ok parts
  | .expr expr :: rest =>
    if parts.condition.isNone then ifParts site { parts with condition := some expr } rest
    else .error (site.malformed .strayChild)
  | .key key :: rest =>
    if parts.inElse then ifParts site { parts with elseBranch := parts.elseBranch ++ [key] } rest
    else ifParts site { parts with thenBranch := parts.thenBranch ++ [key] } rest
  | .token token :: rest =>
    ifParts site (if token.text = "else" then { parts with inElse := true } else parts) rest
  | _ :: _ => .error (site.malformed .strayChild)

def ifStatement (site : Site) (values : List Value) : Except CompileError Effect := do
  let parts ← ifParts site {} values
  match parts.condition with
  | none => .error (site.malformed .missingCondition)
  | some condition =>
    .ok (.ofStatement site.offset (.conditional condition parts.thenBranch parts.elseBranch))

structure CaseBranch where
  tag : CaseTag
  statements : List String := []

/-- The parts of a case statement read so far, the last branch first. -/
structure CaseParts where
  subject : Option Expr := none
  branches : List CaseBranch := []
  otherwise : Option (List String) := none

/-- The parts with one more statement, in the branch that is being read. -/
def CaseParts.addKey (parts : CaseParts) (key : String) : Option CaseParts :=
  match parts.otherwise, parts.branches with
  | some statements, _ => some { parts with otherwise := some (statements ++ [key]) }
  | none, branch :: before =>
    some { parts with
      branches := { branch with statements := branch.statements ++ [key] } :: before }
  | none, [] => none

def caseParts (site : Site) (parts : CaseParts) : List Value → Except CompileError CaseParts
  | [] => .ok parts
  | .expr expr :: rest =>
    if parts.subject.isNone then caseParts site { parts with subject := some expr } rest
    else .error (site.malformed .strayChild)
  | .caseTag tag :: rest =>
    caseParts site { parts with branches := { tag } :: parts.branches } rest
  | .key key :: rest =>
    match parts.addKey key with
    | some parts => caseParts site parts rest
    | none => .error (site.malformed .statementBeforeTag)
  | .token token :: rest =>
    caseParts site
      (if token.text = "otherwise" then { parts with otherwise := some [] } else parts) rest
  | _ :: _ => .error (site.malformed .strayChild)

/-- The conditionals of a case statement: each tests one branch and leads to the next one, the last
one leads to the statements for all other cases. The first stands at `offset`, each later one at its
label. -/
def caseChain (subject : Expr) (otherwise : List String) : Nat → List CaseBranch → List NewDeclaration
  | _, [] => []
  | offset, [branch] =>
    [⟨offset, .statement (statementKey offset)
      (.conditional (branch.tag.test.condition subject) branch.statements otherwise)⟩]
  | offset, branch :: next :: rest =>
    ⟨offset, .statement (statementKey offset)
      (.conditional (branch.tag.test.condition subject) branch.statements
        [statementKey next.tag.start])⟩ ::
      caseChain subject otherwise next.tag.start (next :: rest)

def caseStatement (site : Site) (values : List Value) : Except CompileError Effect := do
  let parts ← caseParts site {} values
  match parts.subject with
  | none => .error (site.malformed .missingSubject)
  | some subject =>
    if parts.branches.isEmpty then .error (site.malformed .missingCaseTag)
    else
      .ok {
        value := .key (statementKey site.offset)
        declares := caseChain subject (parts.otherwise.getD []) site.offset parts.branches.reverse }

def tagTest (site : Site) (values : List Value) : Except CompileError TagTest := do
  let (first, rest) ← site.next values
  match first with
  | .expr value => .ok (.equals value)
  | .token token =>
    if token.text = "between" then do
      let (low, rest) ← site.expr rest
      let (_, rest) ← site.token rest
      let (high, _) ← site.expr rest
      .ok (.between low high)
    else do
      let op ← operatorOf site BinaryOp.relational? token
      let (value, _) ← site.expr rest
      .ok (.compare op value)
  | _ => .error (site.malformed .noCaseTag)

def constantToken (site : Site) (token : Token) : Except CompileError Expr :=
  match token.terminal with
  | "ABSOLUTE_TIME_CONSTANT" =>
    match Timestamp.ofText token.text with
    | .ok time => .ok (.timestamp time)
    | .error cause => .error (.malformed site.kind.name token.start (.badTime cause))
  | "STRING_CONSTANT" => .ok (.str (stringContent token.text))
  | "ENUMERATED_CONSTANT" => .error (.unsupported "ENUMERATED_CONSTANT" token.start)
  | other => .error (.malformed site.kind.name token.start (.strayConstant other))

def simpleFactor (site : Site) (values : List Value) : Except CompileError Expr := do
  let (first, rest) ← site.next values
  match first with
  | .token sign =>
    let op ← match sign.text with
      | "+" => .ok .plus
      | "-" => .ok .minus
      | other => .error (.unknownKeyword site.kind.name other sign.start)
    let (operand, _) ← site.expr rest
    .ok (.unary op operand)
  | .name name => .ok (.var name)
  | .expr expr => .ok expr
  | _ => .error (site.malformed .noFactor)

def stepStatement (site : Site) (values : List Value) : Except CompileError Effect := do
  let (_, rest) ← site.name values
  let (bodies, rest) ← site.take "a step definition" Value.bodies? rest
  let (continuation, rest) := takeIf Value.continuation? rest
  site.finish rest
  let key := statementKey site.offset
  let stepClass := stepClassName key
  .ok {
    value := .key key
    declares := [
      ⟨site.offset, .statement key (.initiateAndConfirmStep stepClass false (continuation.getD []))⟩,
      ⟨site.offset, .step { name := stepClass, bodies }⟩] }

/-- The name of the class of a procedure. Characters that cannot stand in an identifier are replaced,
and a procedure without a name has a name of its own. -/
def procedureClassName (name : String) : String :=
  let chars := if name.isEmpty then "noname".toList else name.toList
  "Procedure_" ++ String.ofList (chars.map fun c => if c.isAlphanum || c == '_' then c else '_')

/-- A part of a procedure or a step, from the keys of its statements. -/
def statementList (site : Site) (kind : BodyKind) (values : List Value) : Except CompileError Effect := do
  .ok (.ofValue (.body { kind, statements := ← site.keys values }))

def action (procedureName : String) (site : Site) (values : List Value) : Except CompileError Effect :=
  match site.kind with
  | .procedureDefinition => do
    let main := { name := procedureClassName procedureName, bodies := ← site.bodies values }
    .ok (.ofValue (.procedure main))
  | .procedureDeclarationBody | .stepDeclarationBody => statementList site .declaration values
  | .preconditionsBody => statementList site .preconditions values
  | .procedureMainBody | .stepMainBody => statementList site .main values
  | .watchdogBody => do
    let keys ← site.keys values
    .ok { value := .body { kind := .watchdog, statements := keys }, watchdogs := keys }
  | .confirmationBody => statementList site .confirmation values
  | .procedureStatement | .stepStatement | .flowControlStatement | .waitStatement | .argument
  | .activityReference => do
    let (value, rest) ← site.next values
    site.finish rest
    .ok (.ofValue value)
  | .eventDeclaration => do
    let (event, rest) ← site.name values
    let (description, rest) := takeIf Value.text? rest
    site.finish rest
    .ok (.ofStatement site.offset (.eventDeclaration event description))
  | .description => do
    let (token, _) ← site.token values
    .ok (.ofValue (.text (stringContent token.text)))
  | .variableDeclaration => do
    let (name, rest) ← site.name values
    let (type, rest) ← site.take "a data type" Value.dataType? rest
    site.finish rest
    .ok (.ofStatement site.offset (.variableDeclaration name type))
  | .predefinedType => do
    let (token, _) ← site.token values
    .ok (.ofValue (.dataType (← dataTypeOf token)))
  | .initiateAndConfirmStepStatement => stepStatement site values
  | .stepDefinition => do .ok (.ofValue (.bodies (← site.bodies values)))
  | .continuationTest => do .ok (.ofValue (.continuation (← continuationCases site values)))
  | .continuationAction => do
    let (value, _) ← site.next values
    match value with
    | .name event => .ok (.ofValue (.action (.raiseEvent event)))
    | .token token => do .ok (.ofValue (.action (← continuationActionOf token)))
    | _ => .error (site.malformed .noContinuation)
  | .raiseEvent | .variableReference | .eventReference => do
    let (name, _) ← site.name values
    .ok (.ofValue (.name name))
  | .initiateAndConfirmActivityStatement => do
    let (call, rest) ← site.take "an activity call" Value.activityCall? values
    let (referBy, rest) := takeIf Value.name? rest
    let (continuation, rest) := takeIf Value.continuation? rest
    site.finish rest
    .ok (.ofStatement site.offset
      (.initiateAndConfirmActivity call referBy (continuation.getD [])))
  | .initiateActivityStatement => do
    let (call, rest) ← site.take "an activity call" Value.activityCall? values
    let (referBy, rest) := takeIf Value.name? rest
    site.finish rest
    .ok (.ofStatement site.offset (.initiateActivity call referBy))
  | .activityCall => do
    let (activity, rest) ← site.name values
    let (arguments, rest) := takeIf Value.arguments? rest
    let (directives, rest) := takeIf Value.directives? rest
    site.finish rest
    .ok (.ofValue (.activityCall
      { activity, arguments := arguments.getD [], directives := directives.getD [] }))
  | .arguments => do
    .ok (.ofValue (.arguments (← site.takeAll "an argument" Value.argument? values)))
  | .simpleArgument => do
    let (name, rest) ← site.name values
    let (value, _) ← site.expr rest
    .ok (.ofValue (.argument (.simple name value)))
  | .recordArgument => do
    let (name, rest) ← site.name values
    let (fields, _) ← site.take "arguments" Value.arguments? rest
    .ok (.ofValue (.argument (.record name fields)))
  | .directives => do
    .ok (.ofValue (.directives (← site.takeAll "a directive" Value.directive? values)))
  | .directive => do
    let (name, rest) ← site.name values
    let (value, _) ← site.expr rest
    .ok (.ofValue (.directive name value))
  | .logStatement => do .ok (.ofStatement site.offset (.log (← site.exprs values)))
  | .assignmentStatement => do
    let (name, rest) ← site.name values
    let (value, rest) ← site.expr rest
    site.finish rest
    .ok (.ofStatement site.offset (.assignment name value))
  | .ifStatement => ifStatement site values
  | .caseStatement => caseStatement site values
  | .caseTag => do
    .ok (.ofValue (.caseTag { start := site.offset, test := ← tagTest site values }))
  | .waitForEventStatement => do
    let (event, rest) ← site.name values
    let (timeout, rest) := takeIf Value.timeout? rest
    site.finish rest
    .ok (.ofStatement site.offset (.waitForEvent event timeout))
  | .waitUntilStatement => do
    let (condition, rest) ← site.expr values
    let (timeout, rest) := takeIf Value.timeout? rest
    site.finish rest
    .ok (.ofStatement site.offset (.waitUntil condition timeout))
  | .waitForStatement => do
    let (duration, rest) ← site.expr values
    site.finish rest
    .ok (.ofStatement site.offset (.waitForRelativeTime duration))
  | .timeout => do
    let (duration, rest) ← site.expr values
    let (raiseEvent, rest) := takeIf Value.name? rest
    site.finish rest
    .ok (.ofValue (.timeout { duration, raiseEvent }))
  | .expression => do
    let (first, rest) ← site.expr values
    let operator := site.take "a boolean operator" Value.booleanOperator?
    .ok (.ofValue (.expr (← leftAssociated site operator rest.length first rest)))
  | .relationalExpression => do
    let (left, rest) ← site.expr values
    match takeIf Value.token? rest with
    | (none, _) => .ok (.ofValue (.expr left))
    | (some token, rest) => do
      let op ← operatorOf site BinaryOp.relational? token
      let (right, _) ← site.expr rest
      .ok (.ofValue (.expr (.binary left op right)))
  | .comparativeExpression | .product => do
    let (first, rest) ← site.expr values
    let operator (values : List Value) : Except CompileError (BinaryOp × List Value) := do
      let (token, rest) ← site.token values
      .ok (← operatorOf site BinaryOp.arithmetic? token, rest)
    .ok (.ofValue (.expr (← leftAssociated site operator rest.length first rest)))
  | .term => do
    let (base, rest) ← site.expr values
    if rest.isEmpty then .ok (.ofValue (.expr base))
    else do
      let (exponent, _) ← site.expr rest
      .ok (.ofValue (.expr (.binary base .pow exponent)))
  | .factor => do
    match takeIf Value.token? values with
    | (some _, rest) => do
      let (operand, _) ← site.expr rest
      .ok (.ofValue (.expr (.unary .not operand)))
    | (none, rest) => do
      let (factor, _) ← site.expr rest
      .ok (.ofValue (.expr factor))
  | .simpleFactor => do .ok (.ofValue (.expr (← simpleFactor site values)))
  | .function => do
    let (name, rest) ← site.token values
    if name.terminal = "NONSTANDARD_FUNCTION_NAME" then .error (.unsupported name.terminal name.start)
    else do .ok (.ofValue (.expr (.call name.text (← site.exprs rest))))
  | .objectPropertyRequest => do
    let (property, rest) ← site.name values
    let (object, _) ← site.name rest
    .ok (.ofValue (.expr (.reportingData (object ++ "/" ++ property))))
  | .objectProperty => do
    let (token, _) ← site.token values
    .ok (.ofValue (.name (keywordText token.text)))
  | .objectReference => do
    let path ← site.takeAll "a name" Value.name? values
    .ok (.ofValue (.name ("/".intercalate path.reverse)))
  | .argumentReference => do
    let (name, _) ← site.name values
    .ok (.ofValue (.expr (.var name)))
  | .booleanOperator => do
    let (token, _) ← site.token values
    .ok (.ofValue (.booleanOperator (← operatorOf site BinaryOp.boolean? token)))
  | .constant => do
    let (value, _) ← site.next values
    match value with
    | .expr expr => .ok (.ofValue (.expr expr))
    | .token token => do .ok (.ofValue (.expr (← constantToken site token)))
    | _ => .error (site.malformed .noConstant)
  | .booleanConstant => do
    let (token, _) ← site.token values
    match token.text with
    | "TRUE" => .ok (.ofValue (.expr (.bool true)))
    | "FALSE" => .ok (.ofValue (.expr (.bool false)))
    | other => .error (.unknownKeyword site.kind.name other token.start)
  | .integerConstant =>
    match takeIf Value.token? values with
    | (none, _) => .error (site.malformed .noDigits)
    | (some token, rest) =>
      if token.terminal = "HEXADECIMAL_CONSTANT" then do
        site.finish rest
        .ok (.ofValue (.expr (.hex token.text)))
      else do .ok (.ofValue (.expr (.quantity (token.text ++ (← site.unitText rest)))))
  | .realConstant => do .ok (.ofValue (.expr (.quantity (← site.unitText values))))
  | .relativeTimeConstant => do
    .ok (.ofValue (.expr (.relativeTime (← durationTerms site values))))
  | .engineeringUnits | .unitReference | .unitProduct | .unitFactor | .unitSimpleFactor
  | .unitExponent => do .ok (.ofValue (.units (← site.unitText values)))
  | .propertyDataType | .propertyValueSet | .predefinedValueSetReference
  | .enumeratedSetDeclaration | .enumeratedSetReference | .setProcedureContextStatement
  | .setStepContextStatement | .systemElementReference | .initiateInParallelStatement
  | .arrayArgument | .informUserStatement | .saveContextStatement | .saveContext
  | .objectOperationRequestStatement | .objectOperation | .whileStatement | .forStatement
  | .repeatStatement | .reportingDataReference => .error (.unsupported site.kind.name site.offset)

end FlightProcedure
