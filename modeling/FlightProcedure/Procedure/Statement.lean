import FlightProcedure.Procedure.Expr

/-!
# Statements

The statements that a procedure schedules. Statements inside others are given by their keys.
-/

namespace FlightProcedure

inductive DataType where
  | boolean
  | integer
  | real
  | string
  | absoluteTime
  | relativeTime
deriving DecidableEq

inductive ConfirmationStatus where
  | confirmed
  | notConfirmed
  | aborted
deriving DecidableEq

inductive ContinuationAction where
  | resume
  | abort
  | restart
  | askUser
  | continue_
  | terminate
  | raiseEvent (event : String)
deriving DecidableEq

/-- The actions for the ways in which an activity or a step can end, in the order of the source. -/
abbrev ContinuationTest := List (ConfirmationStatus × ContinuationAction)

structure Timeout where
  duration : Expr
  raiseEvent : Option String := none

inductive Argument where
  | simple (name : String) (value : Expr)
  | record (name : String) (fields : List Argument)

structure ActivityCall where
  activity : String
  arguments : List Argument := []
  directives : List (String × Expr) := []

inductive Statement where
  | assignment (name : String) (value : Expr)
  | eventDeclaration (event : String) (description : Option String)
  | variableDeclaration (name : String) (type : DataType)
  | conditional (condition : Expr) (thenBranch elseBranch : List String)
  | log (values : List Expr)
  | waitForRelativeTime (duration : Expr)
  | waitForEvent (event : String) (timeout : Option Timeout)
  | waitUntil (condition : Expr) (timeout : Option Timeout)
  | initiateActivity (call : ActivityCall) (referBy : Option String)
  | initiateAndConfirmActivity (call : ActivityCall) (referBy : Option String)
      (continuation : ContinuationTest)
  | initiateAndConfirmStep (stepClass : String) (watchdog : Bool) (continuation : ContinuationTest)

end FlightProcedure
