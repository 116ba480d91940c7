import FlightProcedure.Text.Split

/-!
# Absolute times

An absolute time is written with a calendar date, `YYYY-MM-DDThh:mm:ss.fZ`, or with the day of the
year, `YYYY-DDDThh:mm:ss.fZ`; the fraction may be missing. `Timestamp.ofText` reads both forms. Dates
follow the Gregorian calendar, and fractions are counted in microseconds.
-/

namespace FlightProcedure

structure Timestamp where
  year : Nat
  month : Nat
  day : Nat
  hour : Nat
  minute : Nat
  second : Nat
  microsecond : Nat
deriving DecidableEq

inductive TimeError where
  | noZone (text : String)
  | noSeparator (text : String)
  | notDate (text : String)
  | notClock (text : String)
  | notNumber (part text : String)
  | outOfRange (part : String) (value : Nat)
  | dayOutOfMonth (day year month : Nat)
  | dayOutOfYear (day year : Nat)
  | tooFine (fraction : String)
deriving DecidableEq

namespace TimeError

def twoDigits (value : Nat) : String :=
  if value < 10 then "0" ++ toString value else toString value

def message : TimeError → String
  | .noZone text => "'" ++ text ++ "' does not end in 'Z'"
  | .noSeparator text => "'" ++ text ++ "' has no 'T' separator"
  | .notDate text => "'" ++ text ++ "' is not a calendar date"
  | .notClock text => "'" ++ text ++ "' is not a time of day"
  | .notNumber part text => part ++ " '" ++ text ++ "' is not a number"
  | .outOfRange part value => part ++ " " ++ toString value ++ " is out of range"
  | .dayOutOfMonth day year month =>
    "day " ++ toString day ++ " is out of range for " ++ toString year ++ "-" ++ twoDigits month
  | .dayOutOfYear day year =>
    "day of year " ++ toString day ++ " is out of range for " ++ toString year
  | .tooFine fraction => "fraction '" ++ fraction ++ "' is finer than microseconds"

end TimeError

/-- Every fourth year is a leap year, except those that end a century not divisible by four. -/
def isLeapYear (year : Nat) : Bool := (year % 4 == 0 && year % 100 != 0) || year % 400 == 0

def daysInMonth (year month : Nat) : Nat :=
  if month = 2 then (if isLeapYear year then 29 else 28)
  else if month = 4 ∨ month = 6 ∨ month = 9 ∨ month = 11 then 30
  else 31

namespace Timestamp

/-- A number below 2^32, in decimal digits. -/
def number (part : String) (digits : List Char) : Except TimeError Nat :=
  let value := digits.foldl (fun value c => value * 10 + (c.toNat - '0'.toNat)) 0
  if !digits.isEmpty && digits.all Char.isDigit && value < Nat.pow 2 32 then .ok value
  else .error (.notNumber part (String.ofList digits))

def bounded (part : String) (greatest : Nat) (digits : List Char) : Except TimeError Nat := do
  let value ← number part digits
  if greatest < value then .error (.outOfRange part value) else .ok value

/-- The month and day that lie `day` days, counted from one, after the start of a month of the
list. -/
def monthDay? (year : Nat) : Nat → List Nat → Option (Nat × Nat)
  | _, [] => none
  | day, month :: rest =>
    if day ≤ daysInMonth year month then some (month, day)
    else monthDay? year (day - daysInMonth year month) rest

def months : List Nat := [1, 2, 3, 4, 5, 6, 7, 8, 9, 10, 11, 12]

def ofDayOfYear (year day : Nat) : Except TimeError (Nat × Nat) :=
  if day = 0 then .error (.outOfRange "day of year" 0)
  else match monthDay? year day months with
    | some found => .ok found
    | none => .error (.dayOutOfYear day year)

def date (text : List Char) : Except TimeError (Nat × Nat × Nat) :=
  match splitWhere (· == '-') text with
  | [year, month, day] => do
    let year ← number "year" year
    let month ← number "month" month
    if month < 1 ∨ 12 < month then .error (.outOfRange "month" month)
    else
      let day ← number "day" day
      if day = 0 ∨ daysInMonth year month < day then .error (.dayOutOfMonth day year month)
      else .ok (year, month, day)
  | [year, day] => do
    let year ← number "year" year
    let (month, day) ← ofDayOfYear year (← number "day of year" day)
    .ok (year, month, day)
  | _ => .error (.notDate (String.ofList text))

def byteLength (text : List Char) : Nat := text.foldl (fun length c => length + c.utf8Size) 0

def microseconds : Option (List Char) → Except TimeError Nat
  | none => .ok 0
  | some digits =>
    if 6 < byteLength digits then .error (.tooFine (String.ofList digits))
    else number "fraction" (digits ++ List.replicate (6 - digits.length) '0')

def clock (text : List Char) : Except TimeError (Nat × Nat × Nat × Nat) :=
  let whole := text.takeWhile (· != '.')
  let fraction := (text.drop whole.length).tail?
  match splitWhere (· == ':') whole with
  | [hour, minute, second] => do
    let hour ← bounded "hour" 23 hour
    let minute ← bounded "minute" 59 minute
    let second ← bounded "second" 59 second
    .ok (hour, minute, second, ← microseconds fraction)
  | _ => .error (.notClock (String.ofList whole))

def ofText (text : String) : Except TimeError Timestamp :=
  let chars := text.toList
  if chars.getLast? ≠ some 'Z' then .error (.noZone text)
  else
    let body := chars.dropLast
    let day := body.takeWhile (· != 'T')
    match body.drop day.length with
    | [] => .error (.noSeparator text)
    | _ :: time => do
      let (year, month, day) ← date day
      let (hour, minute, second, microsecond) ← clock time
      .ok { year, month, day, hour, minute, second, microsecond }

end Timestamp

end FlightProcedure
