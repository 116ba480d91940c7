/-!
# Positions in a text

A position is counted in characters. An index of a text converts positions that are counted in bytes of
the UTF-8 encoding, and gives the line and column of a position, both counted from one.
-/

namespace FlightProcedure

/-- Where a number is among ascending numbers, or else where it would have to be inserted. Only the
places from `first` up to `last` are left to be looked at. -/
def searchBetween (numbers : Array Nat) (number first last : Nat) : Except Nat Nat :=
  if first < last then
    let middle := (first + last) / 2
    let found := numbers.getD middle 0
    if found = number then .ok middle
    else if found < number then searchBetween numbers number (middle + 1) last
    else searchBetween numbers number first middle
  else .error first
termination_by last - first

/-- Where a number is among ascending numbers, or else where it would have to be inserted. -/
def searchAscending (numbers : Array Nat) (number : Nat) : Except Nat Nat := searchBetween numbers number 0 numbers.size

/-- The byte at which each character starts, if the first one starts at `byte`. -/
def boundariesFrom (byte : Nat) : List Char → List Nat
  | [] => []
  | c :: rest => byte :: boundariesFrom (byte + c.utf8Size) rest

/-- The positions behind the line breaks, if the first character is at `offset`. -/
def lineStartsFrom (offset : Nat) : List Char → List Nat
  | [] => []
  | c :: rest =>
    if c = '\n' then (offset + 1) :: lineStartsFrom (offset + 1) rest
    else lineStartsFrom (offset + 1) rest

structure TextIndex where
  /-- The byte at which each character starts. The table is left out if every character is one byte. -/
  boundaries : Array Nat
  lineStarts : Array Nat
  size : Nat

namespace TextIndex

def ofText (text : List Char) : TextIndex where
  boundaries := if text.all (·.utf8Size == 1) then #[] else (boundariesFrom 0 text).toArray
  lineStarts := (0 :: lineStartsFrom 0 text).toArray
  size := (String.ofList text).utf8ByteSize

def charOffset (index : TextIndex) (byte : Nat) : Nat :=
  if index.boundaries.isEmpty then min byte index.size
  else
    match searchAscending index.boundaries byte with
    | .ok place => place
    | .error place => place

/-- The line and column of a position. One beyond the end of the text lies on its last line. -/
def lineColumn (index : TextIndex) (offset : Nat) : Nat × Nat :=
  let line := match searchAscending index.lineStarts offset with
    | .ok place => place
    | .error place => place - 1
  (line + 1, offset - index.lineStarts.getD line 0 + 1)

end TextIndex

/-- The number of characters whose first byte lies before byte `byte`. -/
def charOffset (text : List Char) (byte : Nat) : Nat := (TextIndex.ofText text).charOffset byte

/-- The line and column of a position, both counted from one. -/
def lineColumn (text : List Char) (offset : Nat) : Nat × Nat := (TextIndex.ofText text).lineColumn offset

end FlightProcedure
