import FlightProcedure.Language.Basic
import FlightProcedure.Procedure.OfTree
import FlightProcedure.Script.Module

/-!
# Compiling procedures

A source is parsed, its tree is read as a procedure, and the procedure is written as a script.
-/

namespace FlightProcedure

inductive SourceError where
  | parse (cause : ParseError)
  | compile (cause : CompileError)

def SourceError.message : SourceError → String
  | .parse cause => cause.message
  | .compile cause => cause.message

namespace Language

def procedureOf (language : Language) (source name : String) : Except SourceError Procedure :=
  match language.parseProcedure source with
  | .error cause => .error (.parse cause)
  | .ok tree =>
    match Procedure.ofTree name tree with
    | .error cause => .error (.compile cause)
    | .ok procedure => .ok procedure

def compile (language : Language) (source name : String) : Except SourceError String := do
  .ok (Script.ofProcedure (← language.procedureOf source name))

end Language

end FlightProcedure
