import FlightProcedure.Grammar.Basic

/-!
# The tokens of a source

Between tokens stands text that a grammar ignores. `Input.skip` gives the position where the next
token would start, and `Input.tokenEnds` the positions where a token of a terminal can end. A guarded
terminal may also end before a gap between words, so that its token can avoid a reserved word.
-/

namespace FlightProcedure

namespace Grammar

def skipRound (grammar : Grammar) (chars : Array Char) (pos : Nat) : Nat :=
  grammar.ignore.foldl
    (fun pos pattern =>
      match pattern.find? ⟨chars, pos, chars.size⟩ pos with
      | some (_, t) => t.pos
      | none => pos)
    pos

/-- The position after as many rounds of ignored text as there are. The fuel bounds their number. -/
def skipRounds (grammar : Grammar) (chars : Array Char) : Nat → Nat → Nat
  | 0, pos => pos
  | fuel + 1, pos =>
    let next := grammar.skipRound chars pos
    if next = pos then pos else skipRounds grammar chars fuel next

def skip (grammar : Grammar) (chars : Array Char) (pos : Nat) : Nat := grammar.skipRounds chars (chars.size + 1) pos

end Grammar

/-- A source to be parsed, with a table of the positions after ignored text. -/
structure Input where
  grammar : Grammar
  chars : Array Char
  skips : Array (Thunk Nat)

namespace Input

def ofChars (grammar : Grammar) (chars : Array Char) : Input where
  grammar := grammar
  chars := chars
  skips := Array.ofFn fun pos : Fin (chars.size + 1) =>
    Thunk.mk fun _ => grammar.skip chars pos.val

def skip (input : Input) (pos : Nat) : Nat :=
  match input.skips[pos]? with
  | some next => next.get
  | none => input.grammar.skip input.chars pos

def size (input : Input) : Nat := input.chars.size

/-- The positions of the white space that follows a word, from `pos` on, the last one first. -/
def gaps : List Char → Nat → Bool → List Nat → List Nat
  | [], _, _, found => found
  | c :: rest, pos, afterSpace, found =>
    gaps rest (pos + 1) (isBlank c) (if isBlank c && !afterSpace then pos :: found else found)

/-- Whether the text from `start` to `stop` is a token of a guarded terminal. -/
def allowed (input : Input) (terminal : Terminal) (start stop : Nat) : Bool :=
  terminal.exact.isMatch ⟨input.chars, start, stop⟩ &&
    !input.grammar.isReserved (input.chars.extract start stop).toList

def tokenEnds (input : Input) (terminal : Terminal) (start : Nat) : List Nat :=
  match terminal.leading.find? ⟨input.chars, start, input.size⟩ start with
  | none => []
  | some (_, t) =>
    if t.pos ≤ start then []
    else if terminal.guarded then
      (t.pos :: gaps (input.chars.extract start t.pos).toList start true []).filter
        (input.allowed terminal start)
    else [t.pos]

end Input

end FlightProcedure
