import FlightProcedure.Procedure.Statement

/-!
# Declarations and procedures

A procedure consists of declarations, each under a key of its own, in the order in which they were
made, and of a class that lists the keys of its statements. A declaration is a statement or the class
of a step. A table of declarations keeps the first declaration of each key.
-/

namespace FlightProcedure

inductive BodyKind where
  | declaration
  | preconditions
  | main
  | watchdog
  | confirmation
deriving DecidableEq

structure StatementList where
  kind : BodyKind
  statements : List String
deriving DecidableEq

structure StepClass where
  name : String
  bodies : List StatementList
deriving DecidableEq

inductive Declaration where
  | statement (key : String) (statement : Statement)
  | step (definition : StepClass)

def Declaration.key : Declaration → String
  | .statement key _ => key
  | .step definition => definition.name

structure Procedure where
  declarations : List Declaration
  main : StepClass

def statementKey (start : Nat) : String :=
  "stmt_pos_" ++ toString start

def stepClassName (key : String) : String :=
  "Step_" ++ key

structure DeclarationTable where
  entries : List Declaration := []

namespace DeclarationTable

def get? (table : DeclarationTable) (key : String) : Option Declaration := table.entries.find? (·.key == key)

/-- Add a declaration, unless its key is taken. -/
def insert? (table : DeclarationTable) (declaration : Declaration) : Option DeclarationTable :=
  if (table.get? declaration.key).isSome then none
  else some { entries := table.entries ++ [declaration] }

/-- A declaration as a watchdog, if it is a statement that runs a step. -/
def watchdog? : Declaration → Option Declaration
  | .statement key (.initiateAndConfirmStep stepClass _ continuation) =>
    some (.statement key (.initiateAndConfirmStep stepClass true continuation))
  | _ => none

/-- Make a watchdog of the step statement with a given key, if there is one. -/
def markWatchdog? (table : DeclarationTable) (key : String) : Option DeclarationTable := do
  let marked ← (table.get? key).bind watchdog?
  some { entries := table.entries.map fun entry => if entry.key == key then marked else entry }

/-- The procedure with the declarations of the table. -/
def finish (table : DeclarationTable) (main : StepClass) : Procedure := { declarations := table.entries, main }

end DeclarationTable

end FlightProcedure
