import FlightProcedure.Procedure.Expr

/-!
# How the script's language reads an expression

The part of Python's grammar for expressions that the script uses, on tokens. `Phrase least tokens term`
says that the tokens are a phrase for a term that binds at least as tightly as `least`. From the loosest
to the tightest there are `or`, `and`, `not`, comparisons, `^`, sums, products, signs, powers, and
finally calls and fields of names and constants. Comparisons form chains, powers group from the
right, and all other operators from the left.
-/

namespace FlightProcedure.Script

/-- A token of an expression. Plus and minus are operators also where they are signs. -/
inductive Token where
  | name (text : String)
  | bool (value : Bool)
  | number (value : Nat)
  | text (content : String)
  | not
  | op (op : BinaryOp)
  | opening
  | closing
  | comma
  | dot
deriving DecidableEq

inductive Term where
  | name (text : String)
  | bool (value : Bool)
  | number (value : Nat)
  | text (content : String)
  | field (value : Term) (name : String)
  | call (function : Term) (args : List Term)
  | unary (op : UnaryOp) (operand : Term)
  | binary (left : Term) (op : BinaryOp) (right : Term)
  | compare (left : Term) (op : BinaryOp) (right : Term)
  /-- One more comparison, of the last operand of a chain with another one. -/
  | chain (compared : Term) (op : BinaryOp) (right : Term)

def level : BinaryOp → Nat
  | .or => 1
  | .and => 2
  | .eq | .ne | .lt | .le | .gt | .ge => 4
  | .xor => 6
  | .add | .sub => 8
  | .mul | .div => 9
  | .pow => 11

def unaryLevel : UnaryOp → Nat
  | .not => 3
  | .plus | .minus => 10

def isComparison (op : BinaryOp) : Bool := level op == 4

/-- How tightly the operands of an operator have to bind. The right operand of a power may have a
sign. -/
def operandLevels (op : BinaryOp) : Nat × Nat := if op = .pow then (12, 10) else (level op, level op + 1)

def signToken : UnaryOp → Token
  | .not => .not
  | .plus => .op .add
  | .minus => .op .sub

def Token.atom? : Token → Option Term
  | .name word => some (.name word)
  | .bool value => some (.bool value)
  | .number value => some (.number value)
  | .text content => some (.text content)
  | _ => none

mutual

/-- `Phrase least tokens term` says that the tokens are a phrase for the term and that its operator
binds at least as tightly as `least`. -/
inductive Phrase : Nat → List Token → Term → Prop where
  | atom {least : Nat} {token : Token} {term : Term} (hleast : least ≤ 12)
      (hatom : token.atom? = some term) : Phrase least [token] term
  | group {least : Nat} {tokens : List Token} {term : Term} (hleast : least ≤ 12)
      (hinner : Phrase 0 tokens term) : Phrase least (.opening :: tokens ++ [.closing]) term
  | field {least : Nat} {tokens : List Token} {value : Term} {name : String}
      (hleast : least ≤ 12) (hvalue : Phrase 12 tokens value) :
      Phrase least (tokens ++ [.dot, .name name]) (.field value name)
  | call {least : Nat} {tokens more : List Token} {function : Term} {args : List Term}
      (hleast : least ≤ 12) (hfunction : Phrase 12 tokens function) (hargs : Arguments more args) :
      Phrase least (tokens ++ .opening :: more ++ [.closing]) (.call function args)
  | unary {least : Nat} {op : UnaryOp} {tokens : List Token} {operand : Term}
      (hleast : least ≤ unaryLevel op) (hoperand : Phrase (unaryLevel op) tokens operand) :
      Phrase least (signToken op :: tokens) (.unary op operand)
  | binary {least : Nat} {op : BinaryOp} {tokens more : List Token} {left right : Term}
      (hleast : least ≤ level op) (hop : isComparison op = false)
      (hleft : Phrase (operandLevels op).1 tokens left)
      (hright : Phrase (operandLevels op).2 more right) :
      Phrase least (tokens ++ .op op :: more) (.binary left op right)
  | comparison {least : Nat} {tokens : List Token} {term : Term} (hleast : least ≤ 4)
      (hchain : Chain tokens term) : Phrase least tokens term

/-- `Chain tokens term` says that the tokens are one comparison after another. -/
inductive Chain : List Token → Term → Prop where
  | single {op : BinaryOp} {tokens more : List Token} {left right : Term}
      (hop : isComparison op = true) (hleft : Phrase 5 tokens left) (hright : Phrase 5 more right) :
      Chain (tokens ++ .op op :: more) (.compare left op right)
  | next {op : BinaryOp} {tokens more : List Token} {compared right : Term}
      (hop : isComparison op = true) (hcompared : Chain tokens compared)
      (hright : Phrase 5 more right) :
      Chain (tokens ++ .op op :: more) (.chain compared op right)

/-- `Arguments tokens args` says that the tokens are phrases for the arguments of a call. -/
inductive Arguments : List Token → List Term → Prop where
  | nil : Arguments [] []
  | cons {tokens more : List Token} {first : Term} {rest : List Term}
      (hfirst : Phrase 0 tokens first) (hrest : FurtherArguments more rest) :
      Arguments (tokens ++ more) (first :: rest)

/-- `FurtherArguments tokens args` says that the tokens are phrases for arguments, each after a comma. -/
inductive FurtherArguments : List Token → List Term → Prop where
  | nil : FurtherArguments [] []
  | cons {tokens more : List Token} {first : Term} {rest : List Term}
      (hfirst : Phrase 0 tokens first) (hrest : FurtherArguments more rest) :
      FurtherArguments (.comma :: tokens ++ more) (first :: rest)

end

variable {least lower bound : Nat} {tokens more rest : List Token} {term left right : Term}

theorem level_of_comparison {op : BinaryOp} (hop : isComparison op = true) : level op = 4 := by
  simpa [isComparison] using hop

theorem Phrase.weaken (h : Phrase least tokens term) (hle : lower ≤ least) : Phrase lower tokens term := by
  cases h with
  | atom hleast hatom => exact .atom (Nat.le_trans hle hleast) hatom
  | group hleast hinner => exact .group (Nat.le_trans hle hleast) hinner
  | field hleast hvalue => exact .field (Nat.le_trans hle hleast) hvalue
  | call hleast hfunction hargs => exact .call (Nat.le_trans hle hleast) hfunction hargs
  | unary hleast hoperand => exact .unary (Nat.le_trans hle hleast) hoperand
  | binary hleast hop hleft hright => exact .binary (Nat.le_trans hle hleast) hop hleft hright
  | comparison hleast hchain => exact .comparison (Nat.le_trans hle hleast) hchain

end FlightProcedure.Script
