import FlightProcedure.Procedure.Declaration
import FlightProcedure.Script.Statement

/-!
# The script of a procedure

The script holds a function for each statement and a class for each step, in the order of the
declarations, and at the end the class of the procedure.
-/

namespace FlightProcedure.Script

def preamble : String :=
  "# This is auto-generated code from the source Pluto file. Do not modify!\n"

def margin : String := "    "

def indented (line : String) : String := margin ++ line ++ "\n"

def functionText (key : String) (statement : Statement) : String :=
  "def " ++ key ++ "(caller):\n" ++ String.join ((statementLines statement).map indented)

def attributeOf : BodyKind → String
  | .declaration => "declaration"
  | .preconditions => "preconditions"
  | .main => "main_body"
  | .watchdog => "watchdog_body"
  | .confirmation => "confirmation"

def registrations (body : StatementList) : List String :=
  body.statements.map fun key =>
    margin ++ indented ("self." ++ attributeOf body.kind ++ ".append(" ++ key ++ ")")

def classText (step : StepClass) (base parameters : String) : String :=
  "class " ++ step.name ++ "(" ++ base ++ "):\n\n" ++
    indented ("def __init__(self, " ++ parameters ++ "):") ++
    margin ++ indented ("super().__init__(" ++ parameters ++ ")") ++
    String.join (step.bodies.flatMap registrations)

def declarationText : Declaration → String
  | .statement key statement => functionText key statement
  | .step definition => classText definition "Step" "caller"

def ofProcedure (procedure : Procedure) : String :=
  "\n\n".intercalate
    (preamble :: procedure.declarations.map declarationText ++
      [classText procedure.main "Procedure" "**kwargs"])

end FlightProcedure.Script
