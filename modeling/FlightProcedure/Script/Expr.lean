import FlightProcedure.Procedure.Expr

/-!
# Expressions in the script

The script is a Python text. An operand stands in parentheses if it binds more weakly than its place
allows: comparisons are not chained, powers group from the right and all other operators from the
left.
-/

namespace FlightProcedure.Script

def escapeChar : Char → List Char
  | '\\' => ['\\', '\\']
  | '"' => ['\\', '"']
  | '\n' => ['\\', 'n']
  | '\r' => ['\\', 'r']
  | '\t' => ['\\', 't']
  | c => [c]

def stringLiteral (text : String) : String :=
  "\"" ++ String.ofList (text.toList.flatMap escapeChar) ++ "\""

def quoted (text : String) : String := "'" ++ text ++ "'"

def bindingOf : BinaryOp → Nat
  | .or => 1
  | .and => 2
  | .eq | .ne | .lt | .le | .gt | .ge => 4
  | .xor => 6
  | .add | .sub => 8
  | .mul | .div => 9
  | .pow => 11

def binding : Expr → Nat
  | .binary _ op _ => bindingOf op
  | .unary .not _ => 3
  | .unary _ _ => 10
  | .relativeTime terms => if terms.length > 1 then 8 else 12
  | _ => 12

def symbol : BinaryOp → String
  | .or => "or"
  | .and => "and"
  | .xor => "^"
  | .eq => "=="
  | .ne => "!="
  | .lt => "<"
  | .le => "<="
  | .gt => ">"
  | .ge => ">="
  | .add => "+"
  | .sub => "-"
  | .mul => "*"
  | .div => "/"
  | .pow => "**"

def signOf : UnaryOp → String
  | .not => "not "
  | .plus => "+"
  | .minus => "-"

/-- How tightly the left and the right operand have to bind. -/
def operandBindings (op : BinaryOp) : Nat × Nat :=
  let own := bindingOf op
  if op = .pow then (own + 1, own)
  else if own = 4 then (own + 1, own + 1)
  else (own, own + 1)

def parenthesized (weak : Bool) (text : String) : String :=
  if weak then "(" ++ text ++ ")" else text

def isBinary : Expr → Bool
  | .binary _ _ _ => true
  | _ => false

def quantity (text : String) : String := "ureg(" ++ quoted text ++ ")"

mutual

def expression : Expr → String
  | .bool value => if value then "True" else "False"
  | .quantity text => quantity text
  | .hex text => "int(" ++ quoted text ++ ", 16)"
  | .str text => stringLiteral text
  | .timestamp t =>
    "datetime(" ++ ", ".intercalate
      ([t.year, t.month, t.day, t.hour, t.minute, t.second, t.microsecond].map toString) ++ ")"
  | .relativeTime terms => " + ".intercalate (terms.map quantity)
  | .var name => "get_variable(caller, " ++ quoted name ++ ").value"
  | .reportingData path => "get_reporting_data(caller, " ++ quoted path ++ ")"
  | .call function args => function ++ "(" ++ ", ".intercalate (expressions args) ++ ")"
  | .unary op operand => signOf op ++ parenthesized (isBinary operand) (expression operand)
  | .binary left op right =>
    parenthesized (binding left < (operandBindings op).1) (expression left) ++ " " ++ symbol op ++
      " " ++ parenthesized (binding right < (operandBindings op).2) (expression right)

def expressions : List Expr → List String
  | [] => []
  | expr :: exprs => expression expr :: expressions exprs

end

def deferred (expr : Expr) : String := "lambda x: " ++ expression expr

end FlightProcedure.Script
