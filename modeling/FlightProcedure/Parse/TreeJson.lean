import FlightProcedure.Parse.Tree

/-!
# Syntax trees as JSON

Each member of an object and each item of a list has a line of its own, two spaces deeper than the
bracket that opened it.
-/

namespace FlightProcedure

def hexDigit (n : Nat) : Char := if n < 10 then Char.ofNat ('0'.toNat + n) else Char.ofNat ('a'.toNat + (n - 10))

def jsonChar (c : Char) : List Char :=
  match c with
  | '"' => ['\\', '"']
  | '\\' => ['\\', '\\']
  | '\x08' => ['\\', 'b']
  | '\x0c' => ['\\', 'f']
  | '\n' => ['\\', 'n']
  | '\r' => ['\\', 'r']
  | '\t' => ['\\', 't']
  | c =>
    if c.toNat < 0x20 then
      ['\\', 'u', '0', '0', hexDigit (c.toNat / 16), hexDigit (c.toNat % 16)]
    else [c]

def jsonString (text : String) : String :=
  "\"" ++ String.ofList (text.toList.flatMap jsonChar) ++ "\""

def jsonBreak (depth : Nat) : String :=
  "\n" ++ String.ofList (List.replicate (2 * depth) ' ')

/-- An object at a depth, whose values are written already. -/
def jsonObject (depth : Nat) (members : List (String × String)) : String :=
  let lines := members.map fun (name, value) =>
    jsonBreak (depth + 1) ++ jsonString name ++ ": " ++ value
  "\x7b" ++ ",".intercalate lines ++ jsonBreak depth ++ "\x7d"

def jsonList (depth : Nat) (items : List String) : String :=
  if items.isEmpty then "[]"
  else
    "[" ++ ",".intercalate (items.map fun item => jsonBreak (depth + 1) ++ item) ++
      jsonBreak depth ++ "]"

namespace Tree

mutual

def jsonAt (depth : Nat) : Tree → String
  | .leaf token =>
    jsonObject depth [("terminal", jsonString token.terminal), ("text", jsonString token.text),
      ("start", toString token.start), ("end", toString token.stop)]
  | .node rule start stop children =>
    jsonObject depth [("rule", jsonString rule), ("start", toString start),
      ("end", toString stop), ("children", jsonList (depth + 1) (jsonsAt (depth + 2) children))]

def jsonsAt (depth : Nat) : List Tree → List String
  | [] => []
  | tree :: rest => jsonAt depth tree :: jsonsAt depth rest

end

def toJson (tree : Tree) : String := tree.jsonAt 0

end Tree

end FlightProcedure
