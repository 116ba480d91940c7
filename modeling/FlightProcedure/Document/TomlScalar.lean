import FlightProcedure.Document.Digits

/-!
# Numbers and moments of TOML

Words without quotes are truth values, integers, floating-point numbers, dates and times. Only whether
a word is one of them matters, except that dates and times are told from the rest.
-/

namespace FlightProcedure.Toml

inductive WordKind where
  | scalar
  | moment

/-- Digits of a base, in which single underscores may stand between two digits. -/
def isDigits (base : Nat) : List Char → Bool
  | [] => false
  | [c] => (digitValue? base c).isSome
  | c :: '_' :: rest => (digitValue? base c).isSome && isDigits base rest
  | c :: rest => (digitValue? base c).isSome && isDigits base rest

def isBelow (base bound : Nat) (digits : List Char) : Bool :=
  match digitsValue? base (digits.filter (· != '_')) with
  | some value => decide (value < bound)
  | none => false

def splitSign : List Char → Bool × List Char
  | '+' :: rest => (false, rest)
  | '-' :: rest => (true, rest)
  | text => (false, text)

/-- Decimal digits that do not start with a zero, unless they are one zero. -/
def isPlainDecimal (digits : List Char) : Bool := isDigits 10 digits && (digits == ['0'] || digits.head? != some '0')

/-- An integer that fits into 128 bits. -/
def isInteger (word : List Char) : Bool :=
  match word with
  | '0' :: 'x' :: digits => isDigits 16 digits && isBelow 16 (Nat.pow 2 128) digits
  | '0' :: 'o' :: digits => isDigits 8 digits && isBelow 8 (Nat.pow 2 128) digits
  | '0' :: 'b' :: digits => isDigits 2 digits && isBelow 2 (Nat.pow 2 128) digits
  | word =>
    let (negative, digits) := splitSign word
    isPlainDecimal digits && isBelow 10 (if negative then Nat.pow 2 127 + 1 else Nat.pow 2 128) digits

def isExponent (text : List Char) : Bool := isDigits 10 (splitSign text).2

def isExponentMark (c : Char) : Bool := c == 'e' || c == 'E'

def isFraction (text : List Char) : Bool :=
  isDigits 10 (text.takeWhile fun c => !isExponentMark c) &&
    match text.dropWhile fun c => !isExponentMark c with
    | [] => true
    | _ :: exponent => isExponent exponent

def isFloat (word : List Char) : Bool :=
  let body := (splitSign word).2
  if body == "inf".toList || body == "nan".toList then true
  else
    let whole := body.takeWhile fun c => c != '.' && !isExponentMark c
    isPlainDecimal whole &&
      match body.drop whole.length with
      | '.' :: fraction => isFraction fraction
      | _ :: exponent => isExponent exponent
      | [] => false

/-- The number that exactly the first `count` characters of a text spell, and what follows them. -/
def fixedDigits? (count : Nat) (text : List Char) : Option (Nat × List Char) :=
  let digits := text.take count
  if digits.length = count && digits.all Char.isDigit then
    (digitsValue? 10 digits).map fun value => (value, text.drop count)
  else none

def monthLength (year month : Nat) : Nat :=
  if month = 2 then
    if year % 4 = 0 ∧ (year % 100 ≠ 0 ∨ year % 400 = 0) then 29 else 28
  else if month = 4 ∨ month = 6 ∨ month = 9 ∨ month = 11 then 30
  else 31

def afterDate? (text : List Char) : Option (List Char) := do
  let (year, rest) ← fixedDigits? 4 text
  match rest with
  | '-' :: rest =>
    let (month, rest) ← fixedDigits? 2 rest
    match rest with
    | '-' :: rest =>
      let (day, rest) ← fixedDigits? 2 rest
      if 1 ≤ month ∧ month ≤ 12 ∧ 1 ≤ day ∧ day ≤ monthLength year month then some rest
      else none
    | _ => none
  | _ => none

def afterSecondFraction? : List Char → Option (List Char)
  | '.' :: rest =>
    if rest.head?.any Char.isDigit then some (rest.dropWhile Char.isDigit) else none
  | rest => some rest

/-- The text after the seconds of a time, which may be missing. -/
def afterSeconds? : List Char → Option (List Char)
  | ':' :: rest => do
    let (second, rest) ← fixedDigits? 2 rest
    if second ≤ 60 then afterSecondFraction? rest else none
  | rest => some rest

def afterHourMinute? (text : List Char) : Option (List Char) := do
  let (hour, rest) ← fixedDigits? 2 text
  match rest with
  | ':' :: rest =>
    let (minute, rest) ← fixedDigits? 2 rest
    if hour ≤ 23 ∧ minute ≤ 59 then some rest else none
  | _ => none

def afterTime? (text : List Char) : Option (List Char) := (afterHourMinute? text).bind afterSeconds?

/-- Whether a text is the offset of a time zone, which may be missing. -/
def isOffset : List Char → Bool
  | [] => true
  | ['Z'] => true
  | ['z'] => true
  | '+' :: rest => afterHourMinute? rest == some []
  | '-' :: rest => afterHourMinute? rest == some []
  | _ => false

def isTimeMark (c : Char) : Bool := c == 'T' || c == 't' || c == ' '

def isMoment (word : List Char) : Bool :=
  match afterDate? word with
  | some [] => true
  | some (c :: rest) => isTimeMark c && (afterTime? rest).any isOffset
  | none => afterTime? word == some []

/-- What a word without quotes is, if it is a value. -/
def wordKind? (word : List Char) : Option WordKind :=
  if word == "true".toList || word == "false".toList || isInteger word || isFloat word then
    some .scalar
  else if isMoment word then some .moment
  else none

end FlightProcedure.Toml
