import FlightProcedure.Procedure.Statement
import FlightProcedure.Script.Expr

/-!
# Statements in the script

Every statement becomes a function of the script. `statementLines` gives the lines of its body.
-/

namespace FlightProcedure.Script

def initialValue : DataType → String
  | .boolean => "bool()"
  | .integer => "int()"
  | .real => "float()"
  | .string => "str()"
  | .absoluteTime => "datetime.utcnow()"
  | .relativeTime => "timedelta()"

def timeoutArguments : Option Timeout → String
  | none => "timeout=None"
  | some timeout =>
    "timeout=" ++ deferred timeout.duration ++
      match timeout.raiseEvent with
      | none => ""
      | some event => ", raise_event=" ++ quoted event

mutual

def argumentLines (path : String) : Argument → List String
  | .simple name value => [path ++ "[" ++ quoted name ++ "] = " ++ deferred value]
  | .record name fields =>
    (path ++ "[" ++ quoted name ++ "] = OrderedDict()") ::
      argumentsLines (path ++ "[" ++ quoted name ++ "]") fields

def argumentsLines (path : String) : List Argument → List String
  | [] => []
  | argument :: rest => argumentLines path argument ++ argumentsLines path rest

end

def activityLines (call : ActivityCall) : List String :=
  ["arguments = OrderedDict()", "directives = OrderedDict()"] ++
    argumentsLines "arguments" call.arguments ++
    (call.directives.map fun (name, value) =>
      "directives[" ++ quoted name ++ "] = " ++ deferred value) ++
    ["activity_call = create_activity_call(caller, " ++ quoted call.activity ++
      ", arguments, directives)"]

def statusName : ConfirmationStatus → String
  | .confirmed => "ConfirmationStatus.CONFIRMED"
  | .notConfirmed => "ConfirmationStatus.NOT_CONFIRMED"
  | .aborted => "ConfirmationStatus.ABORTED"

def actionName : ContinuationAction → String
  | .resume => "RESUME"
  | .abort => "ABORT"
  | .restart => "RESTART"
  | .askUser => "ASK_USER"
  | .continue_ => "CONTINUE"
  | .terminate => "TERMINATE"
  | .raiseEvent _ => "RAISE_EVENT"

def continuationCase (status : ConfirmationStatus) (action : ContinuationAction) : List String :=
  let assignment := "continuation[" ++ statusName status ++ "] = ContinuationAction." ++ actionName action
  match action with
  | .raiseEvent event => ["raise_event = " ++ quoted event, assignment]
  | _ => [assignment]

def continuationLines (test : ContinuationTest) : List String :=
  ["continuation = OrderedDict()", "raise_event = None"] ++
    test.flatMap fun (status, action) => continuationCase status action

def referredCall (referBy : Option String) (call : String) : String :=
  match referBy with
  | some name => "caller.refer_by[" ++ quoted name ++ "] = " ++ call
  | none => call

def statementLines : Statement → List String
  | .assignment name value =>
    ["caller.assignment(" ++ quoted name ++ ", " ++ deferred value ++ ")"]
  | .eventDeclaration event none => ["caller.event_declaration(" ++ quoted event ++ ")"]
  | .eventDeclaration event (some description) =>
    ["caller.event_declaration(" ++ quoted event ++ ", " ++ stringLiteral description ++ ")"]
  | .variableDeclaration name type =>
    ["caller.variable_declaration(" ++ quoted name ++ ", " ++ initialValue type ++ ")"]
  | .conditional condition thenBranch elseBranch =>
    ["expression = " ++ deferred condition,
      "if_stmts = [" ++ ", ".intercalate thenBranch ++ "]",
      "else_stmts = [" ++ ", ".intercalate elseBranch ++ "]",
      "caller.if_statement(expression, if_stmts, else_stmts)"]
  | .log values => ["caller.log(" ++ ", ".intercalate (values.map deferred) ++ ")"]
  | .waitForRelativeTime duration =>
    ["caller.wait_for_relative_time(" ++ deferred duration ++ ")"]
  | .waitForEvent event timeout =>
    ["caller.wait_for_event(get_event(caller, " ++ quoted event ++ "), " ++
      timeoutArguments timeout ++ ")"]
  | .waitUntil condition timeout =>
    ["caller.wait_until_expression(" ++ deferred condition ++ ", " ++ timeoutArguments timeout ++ ")"]
  | .initiateActivity call referBy =>
    activityLines call ++ [referredCall referBy "caller.initiate_activity(activity_call)"]
  | .initiateAndConfirmActivity call referBy continuation =>
    activityLines call ++ continuationLines continuation ++
      [referredCall referBy
        "caller.initiate_and_confirm_activity(activity_call, continuation, raise_event)"]
  | .initiateAndConfirmStep stepClass watchdog continuation =>
    ["step = " ++ stepClass ++ "(caller)"] ++
      (if watchdog then ["caller.watchdogs[" ++ quoted stepClass ++ "] = step"] else []) ++
      continuationLines continuation ++
      ["caller.initiate_and_confirm_step(step, continuation, raise_event)"]

end FlightProcedure.Script
