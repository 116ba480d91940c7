import FlightProcedure.Procedure.Timestamp

/-!
# Expressions

The expressions of a procedure: constants, variables, reporting data, function calls and operators.
Parentheses are not kept, since the shape of the expression says the same.
-/

namespace FlightProcedure

inductive BinaryOp where
  | or
  | and
  | xor
  | eq
  | ne
  | lt
  | le
  | gt
  | ge
  | add
  | sub
  | mul
  | div
  | pow
deriving DecidableEq

namespace BinaryOp

def relational? : String → Option BinaryOp
  | "=" => some .eq
  | "!=" => some .ne
  | "<" => some .lt
  | "<=" => some .le
  | ">" => some .gt
  | ">=" => some .ge
  | _ => none

def arithmetic? : String → Option BinaryOp
  | "+" => some .add
  | "-" => some .sub
  | "*" => some .mul
  | "/" => some .div
  | _ => none

def boolean? : String → Option BinaryOp
  | "AND" => some .and
  | "OR" => some .or
  | "XOR" => some .xor
  | _ => none

end BinaryOp

inductive UnaryOp where
  | not
  | plus
  | minus
deriving DecidableEq

inductive Expr where
  | bool (value : Bool)
  /-- A number with its sign and unit, if it has any. -/
  | quantity (text : String)
  /-- A hexadecimal number with the mark in front of it. -/
  | hex (text : String)
  | str (text : String)
  | timestamp (time : Timestamp)
  /-- A duration as the sum of its terms, each a number with a unit. -/
  | relativeTime (terms : List String)
  | var (name : String)
  | reportingData (path : String)
  | call (function : String) (args : List Expr)
  | unary (op : UnaryOp) (operand : Expr)
  | binary (left : Expr) (op : BinaryOp) (right : Expr)

end FlightProcedure
