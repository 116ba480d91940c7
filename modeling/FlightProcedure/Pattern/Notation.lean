import FlightProcedure.Pattern.Escape
import FlightProcedure.Text.CaseFold

/-!
# Pattern notation

Patterns are written in the usual notation: literal characters, classes in brackets, groups,
alternatives, anchors and greedy or lazy quantifiers. Flags set inside a pattern hold until the end
of the group that they stand in. `Pattern.ofText?` reads a pattern, or says that it is invalid.
-/

namespace FlightProcedure

structure Pattern where
  regex : Regex
  names : List (String × Nat) := []

namespace Pattern

structure Flags where
  /-- Letters match in upper and lower case. -/
  ignoreCase : Bool := false
  /-- Line breaks end the text for the text anchors. -/
  multiLine : Bool := false
  /-- The dot matches line breaks. -/
  dotAll : Bool := false
  /-- A quantifier is lazy, and greedy with a question mark. -/
  swapGreed : Bool := false
  /-- White space and comments have no meaning. -/
  extended : Bool := false
deriving DecidableEq

/-- The state of the reader: what is left to read, the flags, and the groups opened so far. -/
structure Reader where
  rest : List Char
  flags : Flags := {}
  groups : Nat := 0
  names : List (String × Nat) := []

def dropSpace : List Char → List Char
  | [] => []
  | c :: rest => if isBlank c then dropSpace rest else if c = '#' then dropComment rest else c :: rest
where
  /-- The text after the end of the line, and the white space and comments that follow. -/
  dropComment : List Char → List Char
  | [] => []
  | c :: rest => if c = '\n' then dropSpace rest else dropComment rest

def Flags.skip (flags : Flags) (rest : List Char) : List Char := if flags.extended then dropSpace rest else rest

def Flags.fold (flags : Flags) (set : CharSet) : CharSet := if flags.ignoreCase then set.caseClosure else set

def asciiClass? : String → Option CharSet
  | "alnum" => some (.ofRanges [(0x30, 0x39), (0x41, 0x5a), (0x61, 0x7a)])
  | "alpha" => some (.ofRanges [(0x41, 0x5a), (0x61, 0x7a)])
  | "ascii" => some (.ofRanges [(0, 0x7f)])
  | "blank" => some (.ofRanges [(0x9, 0x9), (0x20, 0x20)])
  | "cntrl" => some (.ofRanges [(0, 0x1f), (0x7f, 0x7f)])
  | "digit" => some (.ofRanges [(0x30, 0x39)])
  | "graph" => some (.ofRanges [(0x21, 0x7e)])
  | "lower" => some (.ofRanges [(0x61, 0x7a)])
  | "print" => some (.ofRanges [(0x20, 0x7e)])
  | "punct" => some (.ofRanges [(0x21, 0x2f), (0x3a, 0x40), (0x5b, 0x60), (0x7b, 0x7e)])
  | "space" => some (.ofRanges [(0x9, 0xd), (0x20, 0x20)])
  | "upper" => some (.ofRanges [(0x41, 0x5a)])
  | "word" => some (.ofRanges [(0x30, 0x39), (0x41, 0x5a), (0x5f, 0x5f), (0x61, 0x7a)])
  | "xdigit" => some (.ofRanges [(0x30, 0x39), (0x41, 0x46), (0x61, 0x66)])
  | _ => none

/-- A named class such as `:alpha:]` or `:^alpha:]`, read after its opening bracket. -/
def namedClass? : List Char → Option (CharSet × List Char)
  | ':' :: rest => do
    let (negated, rest) := match rest with
      | '^' :: rest => (true, rest)
      | rest => (false, rest)
    let name := rest.takeWhile (· != ':')
    match rest.drop name.length with
    | ':' :: ']' :: rest =>
      let set ← asciiClass? (String.ofList name)
      some (if negated then set.compl else set, rest)
    | _ => none
  | _ => none

inductive SetOp where
  | inter
  | diff
  | symmDiff

def SetOp.apply : SetOp → CharSet → CharSet → CharSet
  | .inter => CharSet.inter
  | .diff => CharSet.diff
  | .symmDiff => CharSet.symmDiff

/-- The part of a class that is read so far: the operation that waits for its second operand, and
the characters of the operand that is being read. -/
structure ClassPart where
  pending : Option (CharSet × SetOp) := none
  set : CharSet := .empty

/-- The characters of the class, with the waiting operation carried out. -/
def ClassPart.close (flags : Flags) (part : ClassPart) : CharSet :=
  match part.pending with
  | none => part.set
  | some (left, op) => op.apply (flags.fold left) (flags.fold part.set)

def ClassPart.add (part : ClassPart) (set : CharSet) : ClassPart := { part with set := part.set.union set }

/-- A member of a class before it is known whether it starts a range. -/
def classMember? : List Char → Option (Escape × List Char)
  | [] => none
  | '\\' :: rest => escape? rest
  | c :: rest => some (.char c, rest)

def classRange? (flags : Flags) (text : List Char) : Option (CharSet × List Char) := do
  let (first, rest) ← classMember? text
  let rest := flags.skip rest
  let single : Option (CharSet × List Char) :=
    match first with
    | .char c => some (.singleton c, rest)
    | .set set => some (set, rest)
    | .anchor _ => none
  match rest with
  | [] => none
  | '-' :: after =>
    match flags.skip after with
    | [] => none
    | ']' :: _ => single
    | '-' :: _ => single
    | after => do
      let (last, rest) ← classMember? after
      match first, last with
      | .char lo, .char hi =>
        if lo ≤ hi then some (.range lo.toNat hi.toNat, rest) else none
      | _, _ => none
  | _ => single

mutual

/-- A class, read after its opening bracket. The fuel bounds the number of members and classes. -/
def classBody (flags : Flags) : Nat → List Char → Option (CharSet × List Char)
  | 0, _ => none
  | fuel + 1, text => do
    let (negated, text) := match flags.skip text with
      | '^' :: rest => (true, flags.skip rest)
      | rest => (false, rest)
    let hyphens := text.takeWhile (· == '-')
    let start : ClassPart := if hyphens.isEmpty then {} else { set := .singleton '-' }
    let (start, text) := match text.drop hyphens.length with
      | ']' :: rest =>
        if hyphens.isEmpty then (start.add (.singleton ']'), rest) else (start, ']' :: rest)
      | rest => (start, rest)
    let (set, rest) ← classMembers flags fuel start text
    let set := flags.fold set
    some (if negated then set.compl else set, rest)

def classMembers (flags : Flags) : Nat → ClassPart → List Char → Option (CharSet × List Char)
  | 0, _, _ => none
  | fuel + 1, part, text =>
    match flags.skip text with
    | [] => none
    | ']' :: rest => some (part.close flags, rest)
    | '[' :: rest =>
      match namedClass? rest with
      | some (set, rest) => classMembers flags fuel (part.add set) rest
      | none => do
        let (set, rest) ← classBody flags fuel rest
        classMembers flags fuel (part.add set) rest
    | '&' :: '&' :: rest =>
      classMembers flags fuel { pending := some (part.close flags, .inter) } rest
    | '-' :: '-' :: rest =>
      classMembers flags fuel { pending := some (part.close flags, .diff) } rest
    | '~' :: '~' :: rest =>
      classMembers flags fuel { pending := some (part.close flags, .symmDiff) } rest
    | text => do
      let (set, rest) ← classRange? flags text
      classMembers flags fuel (part.add set) rest

end

/-- A decimal number below 2^32, with the white space around it. -/
def countNumber? (text : List Char) : Option (Nat × List Char) :=
  let text := text.dropWhile isBlank
  let digits := text.takeWhile Char.isDigit
  let value := digits.foldl (fun value c => value * 10 + (c.toNat - '0'.toNat)) 0
  if digits.isEmpty || value ≥ Nat.pow 2 32 then none
  else some (value, (text.drop digits.length).dropWhile isBlank)

def counts? (flags : Flags) (text : List Char) : Option ((Nat × Option Nat) × List Char) := do
  let (least, rest) ← countNumber? (flags.skip text)
  match rest with
  | '\x7d' :: rest => some ((least, some least), rest)
  | ',' :: rest =>
    match flags.skip rest with
    | '\x7d' :: rest => some ((least, none), rest)
    | rest => do
      let (most, rest) ← countNumber? rest
      match rest with
      | '\x7d' :: rest => if least ≤ most then some ((least, some most), rest) else none
      | _ => none
  | _ => none

def quantified (flags : Flags) : Nat → Regex → List Char → Option (Regex × List Char)
  | 0, _, _ => none
  | fuel + 1, body, text =>
    let finish (least : Nat) (most : Option Nat) (rest : List Char) : Option (Regex × List Char) :=
      match rest with
      | '?' :: rest => quantified flags fuel (.rep body least most flags.swapGreed) rest
      | rest => quantified flags fuel (.rep body least most !flags.swapGreed) rest
    match flags.skip text with
    | '*' :: rest => finish 0 none rest
    | '+' :: rest => finish 1 none rest
    | '?' :: rest => finish 0 (some 1) rest
    | '\x7b' :: rest => do
      let ((least, most), rest) ← counts? flags rest
      finish least most (flags.skip rest)
    | rest => some (body, rest)

def Flags.set (flags : Flags) (value : Bool) : Char → Option Flags
  | 'i' => some { flags with ignoreCase := value }
  | 'm' => some { flags with multiLine := value }
  | 's' => some { flags with dotAll := value }
  | 'U' => some { flags with swapGreed := value }
  | 'x' => some { flags with extended := value }
  | 'u' => if value then some flags else none
  | _ => none

/-- Flag letters up to a colon or a closing parenthesis, each at most once; those after a hyphen are
cleared. Yields the flags, the letters read, and the text from the end mark on. -/
def flagLetters (flags : Flags) (value : Bool) (seen : List Char) : List Char → Option (Flags × List Char × List Char)
  | [] => none
  | c :: rest =>
    if c = ':' ∨ c = ')' then
      if seen.head? = some '-' then none else some (flags, seen, c :: rest)
    else if c ∈ seen then none
    else if c = '-' then flagLetters flags false (c :: seen) rest
    else do flagLetters (← flags.set value c) value (c :: seen) rest

def isGroupName : List Char → Bool
  | [] => false
  | first :: rest =>
    (first == '_' || isAlphabetic first) &&
      rest.all fun c => c == '_' || c == '.' || c == '[' || c == ']' || isAlphabetic c || isNumeric c

inductive GroupHead where
  /-- A group whose text is captured, perhaps under a name. -/
  | capture (name : Option String)
  | plain (flags : Flags)
  /-- Flags for the rest of the enclosing group; no group at all. -/
  | setFlags (flags : Flags)

def groupName? (text : List Char) : Option (GroupHead × List Char) :=
  let name := text.takeWhile (· != '>')
  match text.drop name.length with
  | _ :: rest =>
    if isGroupName name then some (.capture (some (String.ofList name)), rest) else none
  | [] => none

/-- The start of a group, read after its opening parenthesis. Looking around is not offered. -/
def groupHead? (flags : Flags) (text : List Char) : Option (GroupHead × List Char) :=
  match flags.skip text with
  | '?' :: 'P' :: '<' :: rest => groupName? rest
  | '?' :: '<' :: rest => groupName? rest
  | '?' :: rest => do
    let (inner, letters, rest) ← flagLetters flags true [] rest
    match rest with
    | ':' :: rest => some (.plain inner, rest)
    | _ :: rest => if letters.isEmpty then none else some (.setFlags inner, rest)
    | [] => none
  | rest => some (.capture none, rest)

def Reader.openGroup (reader : Reader) : Option String → Option Reader
  | none => some { reader with groups := reader.groups + 1 }
  | some name =>
    if (reader.names.lookup name).isSome then none
    else some { reader with
      groups := reader.groups + 1, names := (name, reader.groups + 1) :: reader.names }

def Flags.literal (flags : Flags) (c : Char) : Regex := .oneOf (flags.fold (.singleton c))

mutual

/-- Alternatives up to the end of the group or of the text. The fuel bounds the nesting. -/
def alternatives : Nat → Reader → Option (Regex × Reader)
  | 0, _ => none
  | fuel + 1, reader => do
    let (first, reader) ← sequence fuel reader
    match reader.rest with
    | '|' :: rest =>
      let (others, reader) ← alternatives fuel { reader with rest }
      some (first.orElse others, reader)
    | _ => some (first, reader)

/-- A sequence of quantified parts up to the end of the alternative. -/
def sequence : Nat → Reader → Option (Regex × Reader)
  | 0, _ => none
  | fuel + 1, reader =>
    match reader.flags.skip reader.rest with
    | [] => some (.empty, { reader with rest := [] })
    | '|' :: rest => some (.empty, { reader with rest := '|' :: rest })
    | ')' :: rest => some (.empty, { reader with rest := ')' :: rest })
    | '(' :: rest => do
      let (head, rest) ← groupHead? reader.flags rest
      match head with
      | .setFlags flags =>
        -- Flags cannot be repeated.
        match flags.skip rest with
        | '*' :: _ => none
        | '+' :: _ => none
        | '?' :: _ => none
        | '\x7b' :: _ => none
        | rest => sequence fuel { reader with rest, flags }
      | .plain flags => do
        let (body, inner) ← alternatives fuel { reader with rest, flags }
        groupEnd fuel reader.flags body inner
      | .capture name => do
        let opened ← reader.openGroup name
        let (body, inner) ← alternatives fuel { opened with rest }
        groupEnd fuel reader.flags (.group opened.groups body) inner
    | text => do
      let (part, rest) ← atom fuel reader.flags text
      let (part, rest) ← quantified reader.flags fuel part rest
      let (others, reader) ← sequence fuel { reader with rest }
      some (part.andThen others, reader)

def groupEnd : Nat → Flags → Regex → Reader → Option (Regex × Reader)
  | 0, _, _, _ => none
  | fuel + 1, flags, body, inner =>
    match inner.rest with
    | ')' :: rest => do
      let (part, rest) ← quantified flags fuel body rest
      let (others, reader) ← sequence fuel { inner with rest, flags }
      some (part.andThen others, reader)
    | _ => none

def atom : Nat → Flags → List Char → Option (Regex × List Char)
  | 0, _, _ => none
  | fuel + 1, flags, text =>
    match text with
    | [] => none
    | c :: rest =>
      match c with
      | '*' => none
      | '+' => none
      | '?' => none
      | '\x7b' => none
      | '.' => some (.oneOf (if flags.dotAll then .all else (CharSet.singleton '\n').compl), rest)
      | '^' => some (.anchor (if flags.multiLine then .lineStart else .textStart), rest)
      | '$' => some (.anchor (if flags.multiLine then .lineEnd else .textEnd), rest)
      | '[' => do
        let (set, rest) ← classBody flags fuel rest
        some (.oneOf set, rest)
      | '\\' => do
        let (escaped, rest) ← escape? rest
        match escaped with
        | .char c => some (flags.literal c, rest)
        | .set set => some (.oneOf set, rest)
        | .anchor condition => some (.anchor condition, rest)
      | c => some (flags.literal c, rest)

end

def maxWeight : Nat := 250000

/-- The pattern that a text denotes, or nothing if the text is no valid pattern. -/
def ofText? (text : String) : Option Pattern := do
  let chars := text.toList
  let (regex, reader) ← alternatives (4 * chars.length + 4) { rest := chars }
  if reader.rest.isEmpty && regex.weight ≤ maxWeight then some ⟨regex, reader.names⟩ else none

/-- The first match that starts at or after a position of the window. -/
def find? (pattern : Pattern) (w : Window) (pos : Nat) : Option (Nat × Thread) := pattern.regex.find? w pos

def isMatch (pattern : Pattern) (w : Window) : Bool := (pattern.find? w w.start).isSome

/-- A text with a backslash before every character that has a meaning in patterns. -/
def quote (text : List Char) : List Char := text.flatMap fun c => if c ∈ metaChars then ['\\', c] else [c]
where
  metaChars : List Char :=
    ['\\', '.', '+', '*', '?', '(', ')', '|', '[', ']', '\x7b', '\x7d', '^', '$', '#', '&', '-', '~']

end Pattern

end FlightProcedure
