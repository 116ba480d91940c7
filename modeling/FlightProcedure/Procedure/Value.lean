import FlightProcedure.Parse.Tree
import FlightProcedure.Procedure.Declaration
import FlightProcedure.Procedure.Error
import FlightProcedure.Procedure.RuleKind

/-!
# What the parts of a tree mean

The meaning of a node is found from the meanings of its children, which it takes one after another.
A child of the wrong kind, a missing child and a child too many are errors at the node.
-/

namespace FlightProcedure

inductive TagTest where
  | compare (op : BinaryOp) (value : Expr)
  | between (low high : Expr)
  | equals (value : Expr)

def TagTest.condition (subject : Expr) : TagTest → Expr
  | .compare op value => .binary subject op value
  | .equals value => .binary subject .eq value
  | .between low high => .binary (.binary subject .ge low) .and (.binary subject .le high)

structure CaseTag where
  start : Nat
  test : TagTest

inductive Value where
  | expr (expr : Expr)
  | name (name : String)
  | text (text : String)
  | key (key : String)
  | token (token : Token)
  | dataType (type : DataType)
  | body (body : StatementList)
  | bodies (bodies : List StatementList)
  | continuation (test : ContinuationTest)
  | action (action : ContinuationAction)
  | timeout (timeout : Timeout)
  | argument (argument : Argument)
  | arguments (arguments : List Argument)
  | directive (name : String) (value : Expr)
  | directives (directives : List (String × Expr))
  | activityCall (call : ActivityCall)
  | booleanOperator (op : BinaryOp)
  | caseTag (tag : CaseTag)
  | units (text : String)
  | procedure (main : StepClass)

namespace Value

def label : Value → String
  | .expr _ => "expression"
  | .name _ => "name"
  | .text _ => "text"
  | .key _ => "statement"
  | .token _ => "token"
  | .dataType _ => "data type"
  | .body _ => "body"
  | .bodies _ => "step definition"
  | .continuation _ => "continuation test"
  | .action _ => "continuation action"
  | .timeout _ => "timeout"
  | .argument _ => "argument"
  | .arguments _ => "arguments"
  | .directive _ _ => "directive"
  | .directives _ => "directives"
  | .activityCall _ => "activity call"
  | .booleanOperator _ => "boolean operator"
  | .caseTag _ => "case tag"
  | .units _ => "units"
  | .procedure _ => "procedure"

def expr? : Value → Option Expr
  | .expr found => some found
  | _ => none

def token? : Value → Option Token
  | .token found => some found
  | _ => none

def name? : Value → Option String
  | .name found => some found
  | .token found => some found.text
  | _ => none

def text? : Value → Option String
  | .text found => some found
  | _ => none

def key? : Value → Option String
  | .key found => some found
  | _ => none

def dataType? : Value → Option DataType
  | .dataType found => some found
  | _ => none

def body? : Value → Option StatementList
  | .body found => some found
  | _ => none

def bodies? : Value → Option (List StatementList)
  | .bodies found => some found
  | _ => none

def continuation? : Value → Option ContinuationTest
  | .continuation found => some found
  | _ => none

def action? : Value → Option ContinuationAction
  | .action found => some found
  | _ => none

def timeout? : Value → Option Timeout
  | .timeout found => some found
  | _ => none

def argument? : Value → Option Argument
  | .argument found => some found
  | _ => none

def arguments? : Value → Option (List Argument)
  | .arguments found => some found
  | _ => none

def directive? : Value → Option (String × Expr)
  | .directive label value => some (label, value)
  | _ => none

def directives? : Value → Option (List (String × Expr))
  | .directives found => some found
  | _ => none

def activityCall? : Value → Option ActivityCall
  | .activityCall found => some found
  | _ => none

def booleanOperator? : Value → Option BinaryOp
  | .booleanOperator found => some found
  | _ => none

def unitText? : Value → Option String
  | .token found => some found.text
  | .units found => some found
  | _ => none

end Value

structure Site where
  kind : RuleKind
  offset : Nat

namespace Site

def malformed (site : Site) (cause : Malformation) : CompileError := .malformed site.kind.name site.offset cause

def next (site : Site) : List Value → Except CompileError (Value × List Value)
  | [] => .error (site.malformed .missingChild)
  | value :: rest => .ok (value, rest)

/-- The next child, which has to be of a kind, and those after it. -/
def take (site : Site) (what : String) (pick : Value → Option α) : List Value → Except CompileError (α × List Value)
  | [] => .error (site.malformed .missingChild)
  | value :: rest =>
    match pick value with
    | some found => .ok (found, rest)
    | none => .error (site.malformed (.expected what value.label))

/-- All children, which have to be of a kind. -/
def takeAll (site : Site) (what : String) (pick : Value → Option α) : List Value → Except CompileError (List α)
  | [] => .ok []
  | value :: rest =>
    match pick value with
    | some found => do .ok (found :: (← site.takeAll what pick rest))
    | none => .error (site.malformed (.expected what value.label))

def finish (site : Site) : List Value → Except CompileError Unit
  | [] => .ok ()
  | value :: _ => .error (site.malformed (.unexpectedChild value.label))

def expr (site : Site) : List Value → Except CompileError (Expr × List Value) :=
  site.take "an expression" Value.expr?

def token (site : Site) : List Value → Except CompileError (Token × List Value) :=
  site.take "a token" Value.token?

def name (site : Site) : List Value → Except CompileError (String × List Value) :=
  site.take "a name" Value.name?

def exprs (site : Site) : List Value → Except CompileError (List Expr) :=
  site.takeAll "an expression" Value.expr?

def keys (site : Site) : List Value → Except CompileError (List String) :=
  site.takeAll "a statement" Value.key?

def bodies (site : Site) : List Value → Except CompileError (List StatementList) :=
  site.takeAll "a body" Value.body?

def unitText (site : Site) (values : List Value) : Except CompileError String := do
  .ok (String.join (← site.takeAll "unit text" Value.unitText? values))

end Site

/-- The next child if it is of a kind, and those after it. -/
def takeIf (pick : Value → Option α) : List Value → Option α × List Value
  | [] => (none, [])
  | value :: rest =>
    match pick value with
    | some found => (some found, rest)
    | none => (none, value :: rest)

/-- The words of a keyword with one space between them. -/
def keywordText (text : String) : String :=
  " ".intercalate ((words text.toList).map String.ofList)

def stringContent (text : String) : String :=
  let inner := match text.toList with
    | '"' :: rest => rest
    | chars => chars
  String.ofList (if inner.getLast? = some '"' then inner.dropLast else inner)

end FlightProcedure
