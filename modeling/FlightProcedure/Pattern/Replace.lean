import FlightProcedure.Pattern.Notation

/-!
# Replacing matches by a template

A template is text in which a dollar sign refers to a group of the match: `$1`, `$name`, `${1}` and
`${name}`. Two dollar signs stand for one. A reference takes as many letters, digits and underscores
as it can, and a group that does not exist or took no part in the match leaves nothing.
-/

namespace FlightProcedure

inductive TemplatePart where
  | text (chars : List Char)
  | group (number : Nat)
  | named (name : String)

abbrev Template := List TemplatePart

namespace Template

def isReferenceChar (c : Char) : Bool := c.isAlphanum || c == '_'

/-- A reference by number if its name is a number below 2^64, which may have a plus sign. -/
def reference (name : List Char) : TemplatePart :=
  let digits := match name with
    | '+' :: digits => digits
    | digits => digits
  let value := digits.foldl (fun value c => value * 10 + (c.toNat - '0'.toNat)) 0
  if !digits.isEmpty && digits.all Char.isDigit && value < Nat.pow 2 64 then .group value
  else .named (String.ofList name)

def reference? : List Char → Option (TemplatePart × List Char)
  | '\x7b' :: rest =>
    let name := rest.takeWhile (· != '\x7d')
    match rest.drop name.length with
    | _ :: rest => some (reference name, rest)
    | [] => none
  | rest =>
    let name := rest.takeWhile isReferenceChar
    if name.isEmpty then none else some (reference name, rest.drop name.length)

/-- The parts of a template. The fuel is the number of characters. -/
def partsOf : Nat → List Char → Template
  | 0, _ => []
  | _ + 1, [] => []
  | fuel + 1, '$' :: '$' :: rest => .text ['$'] :: partsOf fuel rest
  | fuel + 1, '$' :: rest =>
    match reference? rest with
    | some (part, rest) => part :: partsOf fuel rest
    | none => .text ['$'] :: partsOf fuel rest
  | fuel + 1, c :: rest => .text [c] :: partsOf fuel rest

def ofText (text : String) : Template := partsOf text.length text.toList

def expand (template : Template) (names : List (String × Nat)) (w : Window) (start : Nat)
    (t : Thread) : List Char :=
  let captured (number : Nat) : List Char :=
    if number = 0 then (w.chars.extract start t.pos).toList
    else match t.captures.find? (·.group == number) with
      | some capture => (w.chars.extract capture.start capture.stop).toList
      | none => []
  template.flatMap fun
    | .text chars => chars
    | .group number => captured number
    | .named name => match names.lookup name with
      | some number => captured number
      | none => []

end Template

namespace Pattern

/-- The next match to replace from `pos` on. An empty match right at the end of the match before it
does not count. -/
def nextMatch? (pattern : Pattern) (w : Window) (pos : Nat) (last : Option Nat) : Option (Nat × Thread) :=
  match pattern.find? w pos with
  | some (start, t) =>
    if start = t.pos ∧ last = some t.pos then pattern.find? w (pos + 1) else some (start, t)
  | none => none

/-- The text from `copied` on with its matches replaced. The fuel bounds the number of matches. -/
def replaceFrom (pattern : Pattern) (write : Nat → Thread → List Char) (w : Window) : Nat → Nat → Option Nat → List Char
  | 0, copied, _ => (w.chars.extract copied w.stop).toList
  | fuel + 1, copied, last =>
    match pattern.nextMatch? w copied last with
    | none => (w.chars.extract copied w.stop).toList
    | some (start, t) =>
      (w.chars.extract copied start).toList ++ write start t ++ replaceFrom pattern write w fuel t.pos (some t.pos)

def replaceWith (pattern : Pattern) (write : Window → Nat → Thread → List Char)
    (text : List Char) : List Char :=
  let w := Window.whole text.toArray
  pattern.replaceFrom (write w) w (2 * text.length + 2) 0 none

def replaceAll (pattern : Pattern) (template : Template) (text : List Char) : List Char :=
  pattern.replaceWith (fun w start t => template.expand pattern.names w start t) text

end Pattern

end FlightProcedure
