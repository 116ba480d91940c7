import FlightProcedure.Script.Module

/-!
# The fragments of a script

A script is put together from fixed texts, texts in single quotes, identifiers, string literals and numbers.
`procedureFragments` gives the fragments of the script of a procedure, and `written_procedure` says that they
are the script when they are written one after another. A fixed text is one of a list, so that nothing else
can enter a script as a fixed text.
-/

namespace FlightProcedure.Script

open List

attribute [local simp] String.append_assoc

/-- All fixed texts of scripts: those of expressions, of statements, and of what is around statements. -/
abbrev templates : List String :=
  ["(", ")", ", ", " ", "True", "False", "ureg(", "int(", ", 16)", "datetime(", " + ",
    "get_variable(caller, ", ").value", "get_reporting_data(caller, ", "lambda x: ", "not ", "+", "-", "or",
    "and", "^", "==", "!=", "<", "<=", ">", ">=", "*", "/", "**",
    "[", "]", "] = ", "bool()", "int()", "float()", "str()", "datetime.utcnow()", "timedelta()",
    "timeout=None", "timeout=", ", raise_event=", "] = OrderedDict()", "arguments",
    "arguments = OrderedDict()", "directives = OrderedDict()", "directives[",
    "activity_call = create_activity_call(caller, ", ", arguments, directives)",
    "ConfirmationStatus.CONFIRMED", "ConfirmationStatus.NOT_CONFIRMED", "ConfirmationStatus.ABORTED",
    "RESUME", "ABORT", "RESTART", "ASK_USER", "CONTINUE", "TERMINATE", "RAISE_EVENT", "continuation[",
    "] = ContinuationAction.", "raise_event = ", "continuation = OrderedDict()", "raise_event = None",
    "caller.refer_by[", "caller.assignment(", "caller.event_declaration(", "caller.variable_declaration(",
    "expression = ", "if_stmts = [", "else_stmts = [",
    "caller.if_statement(expression, if_stmts, else_stmts)", "caller.log(",
    "caller.wait_for_relative_time(", "caller.wait_for_event(get_event(caller, ", "), ",
    "caller.wait_until_expression(", "caller.initiate_activity(activity_call)",
    "caller.initiate_and_confirm_activity(activity_call, continuation, raise_event)", "step = ",
    "(caller)", "caller.watchdogs[", "] = step",
    "caller.initiate_and_confirm_step(step, continuation, raise_event)",
    preamble, margin, "\n", "\n\n", "def ", "(caller):\n", "self.", "declaration", "preconditions",
    "main_body", "watchdog_body", "confirmation", ".append(", "class ", "Step", "Procedure", "):\n\n",
    "def __init__(self, ", "):", "super().__init__(", "caller", "**kwargs"]

inductive Fragment where
  | fixed (text : String) (h : text ∈ templates := by repeat (first | exact List.Mem.head _ | apply List.Mem.tail))
  | quoted (text : String)
  | bare (text : String)
  | literal (text : String)
  | number (value : Nat)

def Fragment.text : Fragment → String
  | .fixed text _ => text
  | .quoted text => Script.quoted text
  | .bare text => text
  | .literal text => stringLiteral text
  | .number value => toString value

@[simp] theorem text_fixed (text : String) (h : text ∈ templates) : (Fragment.fixed text h).text = text := rfl

@[simp] theorem text_quoted (text : String) : (Fragment.quoted text).text = quoted text := rfl

@[simp] theorem text_bare (text : String) : (Fragment.bare text).text = text := rfl

@[simp] theorem text_literal (text : String) : (Fragment.literal text).text = stringLiteral text := rfl

@[simp] theorem text_number (value : Nat) : (Fragment.number value).text = toString value := rfl

def written (fragments : List Fragment) : String := String.join (fragments.map Fragment.text)

@[simp] theorem written_nil : written [] = "" := String.join_nil

@[simp] theorem written_cons (fragment : Fragment) (fragments : List Fragment) :
    written (fragment :: fragments) = fragment.text ++ written fragments := String.join_cons

@[simp] theorem written_append (first second : List Fragment) :
    written (first ++ second) = written first ++ written second := by
  rw [written, map_append, String.join_append]
  rfl

def separated (separator : Fragment) : List (List Fragment) → List Fragment
  | [] => []
  | [part] => part
  | part :: next :: rest => part ++ separator :: separated separator (next :: rest)

theorem written_separated (separator : Fragment) (parts : List (List Fragment)) :
    written (separated separator parts) = separator.text.intercalate (parts.map written) := by
  induction parts with
  | nil => simp [separated]
  | cons part parts ih =>
    cases parts with
    | nil => simp [separated]
    | cons next parts =>
      rw [separated, written_append, written_cons, ih]
      simp

attribute [local simp] written_separated

/-! ## Expressions -/

theorem sign_listed (op : UnaryOp) : signOf op ∈ templates := by
  cases op <;> decide

theorem symbol_listed (op : BinaryOp) : symbol op ∈ templates := by
  cases op <;> decide

def parenthesizedFragments (weak : Bool) (fragments : List Fragment) : List Fragment :=
  if weak then .fixed "(" :: fragments ++ [.fixed ")"] else fragments

def quantityFragments (text : String) : List Fragment :=
  [.fixed "ureg(", .quoted text, .fixed ")"]

mutual

def exprFragments : Expr → List Fragment
  | .bool true => [.fixed "True"]
  | .bool false => [.fixed "False"]
  | .quantity text => quantityFragments text
  | .hex text => [.fixed "int(", .quoted text, .fixed ", 16)"]
  | .str text => [.literal text]
  | .timestamp t =>
    .fixed "datetime(" :: separated (.fixed ", ")
      ([t.year, t.month, t.day, t.hour, t.minute, t.second, t.microsecond].map
        fun part => [.number part]) ++ [.fixed ")"]
  | .relativeTime terms => separated (.fixed " + ") (terms.map quantityFragments)
  | .var name => [.fixed "get_variable(caller, ", .quoted name, .fixed ").value"]
  | .reportingData path => [.fixed "get_reporting_data(caller, ", .quoted path, .fixed ")"]
  | .call function args =>
    .bare function :: .fixed "(" :: separated (.fixed ", ") (exprsFragments args) ++ [.fixed ")"]
  | .unary op operand =>
    .fixed (signOf op) (sign_listed op) :: parenthesizedFragments (isBinary operand) (exprFragments operand)
  | .binary left op right =>
    parenthesizedFragments (binding left < (operandBindings op).1) (exprFragments left) ++
      [.fixed " ", .fixed (symbol op) (symbol_listed op), .fixed " "] ++
      parenthesizedFragments (binding right < (operandBindings op).2) (exprFragments right)

def exprsFragments : List Expr → List (List Fragment)
  | [] => []
  | expr :: exprs => exprFragments expr :: exprsFragments exprs

end

attribute [local simp] exprFragments

@[simp] theorem written_parenthesized (weak : Bool) (fragments : List Fragment) :
    written (parenthesizedFragments weak fragments) = parenthesized weak (written fragments) := by
  cases weak <;> simp [parenthesizedFragments, parenthesized]

@[simp] theorem written_quantity (text : String) : written (quantityFragments text) = quantity text := by
  simp [quantityFragments, quantity]

mutual

theorem written_expression : ∀ expr : Expr, written (exprFragments expr) = expression expr
  -- By definition here and below: unfolding `expression` would compute with the characters.
  | .bool true => by
    show _ = "True"
    simp
  | .bool false => by
    show _ = "False"
    simp
  | .quantity text => written_quantity text
  | .hex text => by
    show _ = "int(" ++ quoted text ++ ", 16)"
    simp
  | .str text => by
    show _ = stringLiteral text
    simp
  | .timestamp t => by
    show _ = "datetime(" ++ ", ".intercalate
      ([t.year, t.month, t.day, t.hour, t.minute, t.second, t.microsecond].map toString) ++ ")"
    simp
  | .relativeTime terms => by
    show _ = " + ".intercalate (terms.map quantity)
    have hmap : (terms.map quantityFragments).map written = terms.map quantity := by simp
    rw [exprFragments, written_separated, hmap]
    rfl
  | .var name => by
    show _ = "get_variable(caller, " ++ quoted name ++ ").value"
    simp
  | .reportingData path => by
    show _ = "get_reporting_data(caller, " ++ quoted path ++ ")"
    simp
  | .call function args => by
    show _ = function ++ "(" ++ ", ".intercalate (expressions args) ++ ")"
    simp [written_expressions args]
  | .unary op operand => by
    show _ = signOf op ++ parenthesized (isBinary operand) (expression operand)
    simp [written_expression operand]
  | .binary left op right => by
    show _ = parenthesized (binding left < (operandBindings op).1) (expression left) ++ " " ++
      symbol op ++ " " ++ parenthesized (binding right < (operandBindings op).2) (expression right)
    simp [written_expression left, written_expression right]

theorem written_expressions : ∀ exprs : List Expr, (exprsFragments exprs).map written = expressions exprs
  | [] => rfl
  | expr :: exprs => by
    show _ = expression expr :: expressions exprs
    rw [exprsFragments, map_cons, written_expression expr, written_expressions exprs]

end

/-! ## Statements -/

def deferredFragments (expr : Expr) : List Fragment :=
  .fixed "lambda x: " :: exprFragments expr

@[simp] theorem written_deferred (expr : Expr) : written (deferredFragments expr) = deferred expr := by
  simp [deferredFragments, deferred, written_expression]

def timeoutFragments : Option Timeout → List Fragment
  | none => [.fixed "timeout=None"]
  | some timeout =>
    .fixed "timeout=" :: deferredFragments timeout.duration ++
      match timeout.raiseEvent with
      | none => []
      | some event => [.fixed ", raise_event=", .quoted event]

@[simp] theorem written_timeout (timeout : Option Timeout) :
    written (timeoutFragments timeout) = timeoutArguments timeout := by
  cases timeout with
  | none => simp [timeoutFragments, timeoutArguments]
  | some timeout =>
    obtain ⟨duration, event⟩ := timeout
    cases event <;> simp [timeoutFragments, timeoutArguments]

mutual

/-- The fragments of the lines that fill a mapping, which is given by its path, with an argument. -/
def argumentFragments (path : List Fragment) : Argument → List (List Fragment)
  | .simple name value =>
    [path ++ [.fixed "[", .quoted name, .fixed "] = "] ++ deferredFragments value]
  | .record name fields =>
    (path ++ [.fixed "[", .quoted name, .fixed "] = OrderedDict()"]) ::
      argumentsFragments (path ++ [.fixed "[", .quoted name, .fixed "]"]) fields

def argumentsFragments (path : List Fragment) : List Argument → List (List Fragment)
  | [] => []
  | argument :: rest => argumentFragments path argument ++ argumentsFragments path rest

end

mutual

theorem written_argument (path : List Fragment) : ∀ argument : Argument,
    (argumentFragments path argument).map written = argumentLines (written path) argument
  | .simple name value => by
    simp [argumentFragments, argumentLines]
  | .record name fields => by
    have hpath : written (path ++ [.fixed "[", .quoted name, .fixed "]"]) =
        written path ++ "[" ++ quoted name ++ "]" := by
      simp [Fragment.text]
    rw [argumentFragments, argumentLines, map_cons, written_arguments _ fields, hpath]
    simp [Fragment.text]

theorem written_arguments (path : List Fragment) : ∀ fields : List Argument,
    (argumentsFragments path fields).map written = argumentsLines (written path) fields
  | [] => rfl
  | argument :: rest => by
    rw [argumentsFragments, argumentsLines, map_append, written_argument path argument, written_arguments path rest]

end

def activityFragments (call : ActivityCall) : List (List Fragment) :=
  [[.fixed "arguments = OrderedDict()"], [.fixed "directives = OrderedDict()"]] ++
    argumentsFragments [.fixed "arguments"] call.arguments ++
    (call.directives.map fun directive =>
      [.fixed "directives[", .quoted directive.1, .fixed "] = "] ++ deferredFragments directive.2) ++
    [[.fixed "activity_call = create_activity_call(caller, ", .quoted call.activity, .fixed ", arguments, directives)"]]

@[simp] theorem written_activity (call : ActivityCall) : (activityFragments call).map written = activityLines call := by
  simp [activityFragments, activityLines, written_arguments]

theorem status_listed (status : ConfirmationStatus) : statusName status ∈ templates := by
  cases status <;> decide

theorem action_listed (action : ContinuationAction) : actionName action ∈ templates := by
  cases action <;> (rw [actionName]; decide)

def assignedAction (status : ConfirmationStatus) (action : ContinuationAction) : List Fragment :=
  [.fixed "continuation[", .fixed (statusName status) (status_listed status),
    .fixed "] = ContinuationAction.", .fixed (actionName action) (action_listed action)]

def caseFragments (status : ConfirmationStatus) (action : ContinuationAction) : List (List Fragment) :=
  match action with
  | .raiseEvent event => [[.fixed "raise_event = ", .quoted event], assignedAction status action]
  | _ => [assignedAction status action]

theorem written_case (status : ConfirmationStatus) (action : ContinuationAction) :
    (caseFragments status action).map written = continuationCase status action := by
  cases action <;>
    simp [caseFragments, continuationCase, assignedAction]

def continuationFragments (test : ContinuationTest) : List (List Fragment) :=
  [[.fixed "continuation = OrderedDict()"], [.fixed "raise_event = None"]] ++
    test.flatMap fun entry => caseFragments entry.1 entry.2

@[simp] theorem written_continuation (test : ContinuationTest) :
    (continuationFragments test).map written = continuationLines test := by
  simp [continuationFragments, continuationLines, map_flatMap, written_case]

def referredFragments (referBy : Option String) (call : Fragment) : List Fragment :=
  match referBy with
  | some name => [.fixed "caller.refer_by[", .quoted name, .fixed "] = ", call]
  | none => [call]

@[simp] theorem written_referred (referBy : Option String) (call : Fragment) :
    written (referredFragments referBy call) = referredCall referBy call.text := by
  cases referBy with
  | none =>
    show written [call] = call.text
    rw [written_cons, written_nil, String.append_empty]
  | some name =>
    show _ = "caller.refer_by[" ++ quoted name ++ "] = " ++ call.text
    simp [referredFragments]

def keysFragments (keys : List String) : List Fragment :=
  separated (.fixed ", ") (keys.map fun key => [.bare key])

@[simp] theorem written_keys (keys : List String) : written (keysFragments keys) = ", ".intercalate keys := by
  simp [keysFragments, Function.comp_def]

theorem initial_listed (type : DataType) : initialValue type ∈ templates := by
  cases type <;> decide

def statementFragments : Statement → List (List Fragment)
  | .assignment name value =>
    [[.fixed "caller.assignment(", .quoted name, .fixed ", "] ++ deferredFragments value ++ [.fixed ")"]]
  | .eventDeclaration event none => [[.fixed "caller.event_declaration(", .quoted event, .fixed ")"]]
  | .eventDeclaration event (some description) =>
    [[.fixed "caller.event_declaration(", .quoted event, .fixed ", ", .literal description, .fixed ")"]]
  | .variableDeclaration name type =>
    [[.fixed "caller.variable_declaration(", .quoted name, .fixed ", ",
      .fixed (initialValue type) (initial_listed type), .fixed ")"]]
  | .conditional condition thenBranch elseBranch =>
    [.fixed "expression = " :: deferredFragments condition,
      .fixed "if_stmts = [" :: keysFragments thenBranch ++ [.fixed "]"],
      .fixed "else_stmts = [" :: keysFragments elseBranch ++ [.fixed "]"],
      [.fixed "caller.if_statement(expression, if_stmts, else_stmts)"]]
  | .log values =>
    [.fixed "caller.log(" :: separated (.fixed ", ") (values.map deferredFragments) ++ [.fixed ")"]]
  | .waitForRelativeTime duration =>
    [.fixed "caller.wait_for_relative_time(" :: deferredFragments duration ++ [.fixed ")"]]
  | .waitForEvent event timeout =>
    [[.fixed "caller.wait_for_event(get_event(caller, ", .quoted event, .fixed "), "] ++
      timeoutFragments timeout ++ [.fixed ")"]]
  | .waitUntil condition timeout =>
    [.fixed "caller.wait_until_expression(" :: deferredFragments condition ++ .fixed ", " ::
      timeoutFragments timeout ++ [.fixed ")"]]
  | .initiateActivity call referBy =>
    activityFragments call ++ [referredFragments referBy (.fixed "caller.initiate_activity(activity_call)")]
  | .initiateAndConfirmActivity call referBy continuation =>
    activityFragments call ++ continuationFragments continuation ++ [referredFragments referBy
        (.fixed "caller.initiate_and_confirm_activity(activity_call, continuation, raise_event)")]
  | .initiateAndConfirmStep stepClass watchdog continuation =>
    [[.fixed "step = ", .bare stepClass, .fixed "(caller)"]] ++
      (if watchdog then [[.fixed "caller.watchdogs[", .quoted stepClass, .fixed "] = step"]] else []) ++
      continuationFragments continuation ++
      [[.fixed "caller.initiate_and_confirm_step(step, continuation, raise_event)"]]

theorem written_statement (statement : Statement) :
    (statementFragments statement).map written = statementLines statement := by
  cases statement with
  | eventDeclaration event description =>
    cases description <;>
      simp [statementFragments, statementLines]
  | initiateAndConfirmStep stepClass watchdog continuation =>
    cases watchdog <;> simp [statementFragments, statementLines]
  | log values =>
    simp [statementFragments, statementLines, Function.comp_def]
  | _ => simp [statementFragments, statementLines]

/-! ## The whole script -/

def indentedFragments (line : List Fragment) : List Fragment :=
  .fixed margin :: line ++ [.fixed "\n"]

@[simp] theorem written_indented (line : List Fragment) :
    written (indentedFragments line) = indented (written line) := by
  simp [indentedFragments, indented]

theorem written_flat_map {α : Type} (items : List α) (fragments : α → List Fragment) :
    written (items.flatMap fragments) = String.join (items.map fun item => written (fragments item)) := by
  induction items with
  | nil => simp
  | cons item items ih => simp [ih]

def functionFragments (key : String) (statement : Statement) : List Fragment :=
  [.fixed "def ", .bare key, .fixed "(caller):\n"] ++ (statementFragments statement).flatMap indentedFragments

theorem written_function (key : String) (statement : Statement) :
    written (functionFragments key statement) = functionText key statement := by
  have hlines : (statementFragments statement).map (fun line => indented (written line)) =
      (statementLines statement).map indented := by
    rw [← written_statement, map_map]
    rfl
  simp [functionFragments, functionText, written_flat_map, hlines]

theorem attribute_listed (kind : BodyKind) : attributeOf kind ∈ templates := by
  cases kind <;> decide

def registrationFragments (body : StatementList) : List Fragment :=
  body.statements.flatMap fun key =>
    .fixed margin :: indentedFragments
      [.fixed "self.", .fixed (attributeOf body.kind) (attribute_listed body.kind), .fixed ".append(",
        .bare key, .fixed ")"]

theorem written_registration (body : StatementList) :
    written (registrationFragments body) = String.join (registrations body) := by
  simp [registrationFragments, registrations, written_flat_map]

def classFragments (step : StepClass) (base parameters : Fragment) : List Fragment :=
  [.fixed "class ", .bare step.name, .fixed "(", base, .fixed "):\n\n"] ++
    indentedFragments [.fixed "def __init__(self, ", parameters, .fixed "):"] ++
    .fixed margin :: indentedFragments [.fixed "super().__init__(", parameters, .fixed ")"] ++
    step.bodies.flatMap registrationFragments

theorem written_class (step : StepClass) (base parameters : Fragment) :
    written (classFragments step base parameters) = classText step base.text parameters.text := by
  have hbodies : String.join (step.bodies.map fun body => written (registrationFragments body)) =
      String.join (step.bodies.flatMap registrations) := by
    induction step.bodies with
    | nil => rfl
    | cons body bodies ih =>
      rw [map_cons, flatMap_cons, String.join_cons, String.join_append, ih, written_registration]
  simp [classFragments, classText, written_flat_map, hbodies]

def declarationFragments : Declaration → List Fragment
  | .statement key statement => functionFragments key statement
  | .step definition => classFragments definition (.fixed "Step") (.fixed "caller")

theorem written_declaration (declaration : Declaration) :
    written (declarationFragments declaration) = declarationText declaration := by
  cases declaration with
  | statement key statement => exact written_function key statement
  | step definition => exact written_class definition _ _

def procedureFragments (procedure : Procedure) : List Fragment :=
  separated (.fixed "\n\n")
    ([.fixed preamble] :: procedure.declarations.map declarationFragments ++
      [classFragments procedure.main (.fixed "Procedure") (.fixed "**kwargs")])

theorem written_procedure (procedure : Procedure) : written (procedureFragments procedure) = ofProcedure procedure := by
  simp [procedureFragments, ofProcedure, written_class, written_declaration, Function.comp_def]

end FlightProcedure.Script
