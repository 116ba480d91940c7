import FlightProcedure.Proofs.Outcome
import FlightProcedure.Proofs.Text.Cutting
import FlightProcedure.Script.Expr

/-!
# Absolute times and the calendar

`monthLengths` is the table of the Gregorian calendar, also for the years before it was introduced. A text is
read as an absolute time exactly if it writes a date of the calendar, by its month and day or by the number of
its day in the year, and a time of day. The year is bounded only by the size of numbers, so that some times
that are read do not exist for the script.
-/

namespace FlightProcedure.Timestamp

open List

/-- Every fourth year has a leap day, but the last year of a century only if 400 divides it. -/
def HasLeapDay (year : Nat) : Prop := 4 ∣ year ∧ (100 ∣ year → 400 ∣ year)

instance (year : Nat) : Decidable (HasLeapDay year) := inferInstanceAs (Decidable (_ ∧ _))

def monthLengths (year : Nat) : List Nat :=
  [31, if HasLeapDay year then 29 else 28, 31, 30, 31, 30, 31, 31, 30, 31, 30, 31]

/-- The length of a month, which is counted from one. -/
def monthLength (year month : Nat) : Nat := (monthLengths year).getD (month - 1) 0

def daysBefore (year month : Nat) : Nat := ((monthLengths year).take (month - 1)).foldr (· + ·) 0

def yearLength (year : Nat) : Nat := if HasLeapDay year then 366 else 365

/-- The year has the month, and the month the day. -/
structure IsDate (year month day : Nat) : Prop where
  month_pos : 1 ≤ month
  month_le : month ≤ 12
  day_pos : 1 ≤ day
  day_le : day ≤ monthLength year month

/-- The date is that of a day of the year, which is counted from one. -/
structure OrdinalDate (year number month day : Nat) : Prop extends IsDate year month day where
  number_eq : daysBefore year month + day = number

def Numeral (number : Nat) (digits : List Char) : Prop :=
  digits ≠ [] ∧ (∀ c ∈ digits, c.isDigit = true) ∧ Nat.ofDigitChars 10 digits 0 = number

instance (number : Nat) (digits : List Char) : Decidable (Numeral number digits) :=
  decidable_of_iff ((!digits.isEmpty && digits.all Char.isDigit && Nat.ofDigitChars 10 digits 0 == number) = true)
    (by simp [Numeral, and_assoc])

/-- A fraction of a second in microseconds, which may be missing. -/
inductive ReadsFraction : Option (List Char) → Nat → Prop where
  | whole : ReadsFraction none 0
  | digits {digits : List Char} (hdigits : ∀ c ∈ digits, c.isDigit = true) (hlength : digits.length ≤ 6) :
      ReadsFraction (some digits) (Nat.ofDigitChars 10 digits 0 * Nat.pow 10 (6 - digits.length))

/-- A time of day, with colons between its parts and a point before the fraction. -/
def clockText (hours minutes seconds : List Char) (fraction : Option (List Char)) : List Char :=
  hours ++ [minutes, seconds].flatMap (':' :: ·) ++ fraction.elim [] ('.' :: ·)

/-- `ReadsClock text hour minute second microsecond` says that the text is a time of day. -/
inductive ReadsClock : List Char → Nat → Nat → Nat → Nat → Prop where
  | intro {hours minutes seconds : List Char} {fraction : Option (List Char)} {hour minute second microsecond : Nat}
      (hhour : Numeral hour hours ∧ hour ≤ 23) (hminute : Numeral minute minutes ∧ minute ≤ 59)
      (hsecond : Numeral second seconds ∧ second ≤ 59) (hfraction : ReadsFraction fraction microsecond) :
      ReadsClock (clockText hours minutes seconds fraction) hour minute second microsecond

/-! ## Numbers -/

section

variable {part : String} {value greatest : Nat} {digits : List Char}

theorem Numeral.avoids (h : Numeral value digits) {c : Char} (hc : c.isDigit = false) : c ∉ digits :=
  fun hmem => Bool.false_ne_true (hc.symm.trans (h.2.1 c hmem))

theorem Numeral.unique {other : Nat} (h : Numeral value digits) (hother : Numeral other digits) : value = other :=
  h.2.2.symm.trans hother.2.2

theorem of_digit_chars_lt (h : ∀ c ∈ digits, c.isDigit = true) :
    Nat.ofDigitChars 10 digits 0 < Nat.pow 10 digits.length := by
  induction digits with
  | nil => decide
  | cons c digits ih =>
    obtain ⟨hc, hdigits⟩ := forall_mem_cons.mp h
    have hdigit : c.toNat - '0'.toNat ≤ 9 := by
      have hbounds := Char.isDigit_iff_toNat.mp hc
      have hnine : '9'.toNat = '0'.toNat + 9 := rfl
      omega
    have hmore := ih hdigits
    have hpow : Nat.pow 10 (c :: digits).length = Nat.pow 10 digits.length * 10 := rfl
    have hfirst := Nat.mul_le_mul_left (Nat.pow 10 digits.length) hdigit
    rw [Nat.ofDigitChars_cons, Nat.ofDigitChars_eq_ofDigitChars_zero, hpow]
    show Nat.pow 10 digits.length * (10 * 0 + (c.toNat - '0'.toNat)) + _ < _
    rw [Nat.mul_zero, Nat.zero_add]
    omega

theorem number_eq_ok : number part digits = .ok value ↔ Numeral value digits ∧ value < Nat.pow 2 32 := by
  have hvalue : digits.foldl (fun value c => value * 10 + (c.toNat - '0'.toNat)) 0 = Nat.ofDigitChars 10 digits 0 := by
    simp only [Nat.ofDigitChars, Nat.mul_comm]
  simp only [number, hvalue, Numeral, ok_if_eq_ok, Bool.and_eq_true, Bool.not_eq_true', isEmpty_eq_false_iff,
    all_eq_true, decide_eq_true_eq]
  constructor
  · rintro ⟨⟨⟨hsome, hdigits⟩, hlt⟩, rfl⟩
    exact ⟨⟨hsome, hdigits, rfl⟩, hlt⟩
  · rintro ⟨⟨hsome, hdigits, rfl⟩, hlt⟩
    exact ⟨⟨⟨hsome, hdigits⟩, hlt⟩, rfl⟩

theorem bounded_eq_ok (hgreatest : greatest < Nat.pow 2 32) :
    bounded part greatest digits = .ok value ↔ Numeral value digits ∧ value ≤ greatest := by
  simp only [bounded, bind_eq_ok_iff, number_eq_ok, error_if_eq_ok, Nat.not_lt, Except.ok.injEq]
  constructor
  · rintro ⟨_, ⟨hvalue, -⟩, hle, rfl⟩
    exact ⟨hvalue, hle⟩
  · rintro ⟨hvalue, hle⟩
    exact ⟨value, ⟨hvalue, Nat.lt_of_le_of_lt hle hgreatest⟩, hle, rfl⟩

theorem byte_length_digits (h : ∀ c ∈ digits, c.isDigit = true) : byteLength digits = digits.length := by
  have hbytes : ∀ length, digits.foldl (fun length c => length + c.utf8Size) length = length + digits.length := by
    induction digits with
    | nil => simp
    | cons c digits ih =>
      intro length
      obtain ⟨hc, hdigits⟩ := forall_mem_cons.mp h
      have hbounds := Char.isDigit_iff_toNat.mp hc
      have hone : c.utf8Size = 1 := Char.utf8Size_eq_one_iff.mpr (UInt32.le_iff_toNat_le.mpr (Nat.le_trans hbounds.2 (by decide)))
      rw [foldl_cons, ih hdigits, hone, length_cons]
      omega
  exact (hbytes 0).trans (Nat.zero_add _)

theorem padded_numeral (h : ∀ c ∈ digits, c.isDigit = true) (hlength : digits.length ≤ 6) :
    Numeral (Nat.ofDigitChars 10 digits 0 * Nat.pow 10 (6 - digits.length))
        (digits ++ replicate (6 - digits.length) '0') ∧
      Nat.ofDigitChars 10 digits 0 * Nat.pow 10 (6 - digits.length) ≤ 999999 := by
  have hvalue : Nat.ofDigitChars 10 (digits ++ replicate (6 - digits.length) '0') 0 =
      Nat.ofDigitChars 10 digits 0 * Nat.pow 10 (6 - digits.length) := by
    rw [Nat.ofDigitChars_append, Nat.ofDigitChars_replicate_zero]
    exact Nat.mul_comm _ _
  have hsix : (digits ++ replicate (6 - digits.length) '0').length = 6 := by
    rw [length_append, length_replicate]
    omega
  have hdigits : ∀ c ∈ digits ++ replicate (6 - digits.length) '0', c.isDigit = true :=
    forall_mem_append.mpr ⟨h, fun c hc => eq_of_mem_replicate hc ▸ rfl⟩
  have hlt := of_digit_chars_lt hdigits
  rw [hsix, hvalue] at hlt
  exact ⟨⟨ne_nil_of_length_pos (by rw [hsix]; decide), hdigits, hvalue⟩, Nat.le_of_lt_succ hlt⟩

end

/-! ## Times of day -/

section

variable {text whole : List Char} {hour minute second microsecond : Nat} {fraction : Option (List Char)}

theorem microseconds_eq_ok : microseconds fraction = .ok microsecond ↔ ReadsFraction fraction microsecond := by
  constructor
  · intro h
    cases fraction with
    | none =>
      cases h
      exact .whole
    | some digits =>
      simp only [microseconds, error_if_eq_ok, number_eq_ok, Nat.not_lt] at h
      obtain ⟨hfine, hpadded, -⟩ := h
      obtain ⟨hdigits, -⟩ := forall_mem_append.mp hpadded.2.1
      rw [byte_length_digits hdigits] at hfine
      rw [hpadded.unique (padded_numeral hdigits hfine).1]
      exact .digits hdigits hfine
  · rintro (_ | ⟨hdigits, hlength⟩)
    · rfl
    · obtain ⟨hpadded, hle⟩ := padded_numeral hdigits hlength
      simp only [microseconds, error_if_eq_ok, byte_length_digits hdigits, Nat.not_lt]
      exact ⟨hlength, number_eq_ok.mpr ⟨hpadded, Nat.lt_of_le_of_lt hle (by decide)⟩⟩

theorem ReadsFraction.le (h : ReadsFraction fraction microsecond) : microsecond ≤ 999999 := by
  cases h with
  | whole => decide
  | digits hdigits hlength => exact (padded_numeral hdigits hlength).2

theorem clock_cut (hwhole : '.' ∉ whole) (fraction : Option (List Char)) :
    (whole ++ fraction.elim [] ('.' :: ·)).takeWhile (· != '.') = whole ∧
      ((whole ++ fraction.elim [] ('.' :: ·)).drop whole.length).tail? = fraction := by
  refine ⟨(take_while_append (fun c hc => ?_) ?_).1, ?_⟩
  · simpa [bne] using ne_of_not_mem hwhole c hc
  · cases fraction <;> rfl
  · rw [drop_left]
    cases fraction <;> rfl

theorem clock_of_parts {hours minutes seconds : List Char} (hwhole : '.' ∉ hours ++ [minutes, seconds].flatMap (':' :: ·))
    (hparts : ∀ part ∈ [hours, minutes, seconds], ':' ∉ part) :
    clock (clockText hours minutes seconds fraction) = .ok (hour, minute, second, microsecond) ↔
      (Numeral hour hours ∧ hour ≤ 23) ∧ (Numeral minute minutes ∧ minute ≤ 59) ∧
        (Numeral second seconds ∧ second ≤ 59) ∧ ReadsFraction fraction microsecond := by
  obtain ⟨htake, htail⟩ := clock_cut hwhole fraction
  rw [clockText, clock]
  have hhours : 23 < Nat.pow 2 32 := by decide
  have hminutes : 59 < Nat.pow 2 32 := by decide
  simp only [htake, htail, split_where_marks hparts, bind_eq_ok_iff, bounded_eq_ok hhours, bounded_eq_ok hminutes,
    microseconds_eq_ok, Except.ok.injEq, Prod.mk.injEq]
  constructor
  · rintro ⟨_, hhour, _, hminute, _, hsecond, _, hfraction, rfl, rfl, rfl, rfl⟩
    exact ⟨hhour, hminute, hsecond, hfraction⟩
  · rintro ⟨hhour, hminute, hsecond, hfraction⟩
    exact ⟨_, hhour, _, hminute, _, hsecond, _, hfraction, rfl, rfl, rfl, rfl⟩

theorem clock_eq_ok : clock text = .ok (hour, minute, second, microsecond) ↔
    ReadsClock text hour minute second microsecond := by
  constructor
  · intro h
    obtain ⟨whole, rest, -, htext, hwhole⟩ := split_where_mark '.' text
    obtain ⟨fraction, rfl⟩ : ∃ fraction, text = whole ++ Option.elim fraction [] ('.' :: ·) := by
      cases rest with
      | nil => exact ⟨none, htext⟩
      | cons piece rest => exact ⟨some (piece ++ rest.flatMap ('.' :: ·)), by simp [htext]⟩
    replace hwhole := hwhole whole mem_cons_self
    obtain ⟨hours, rest, hsplit, rfl, hpieces⟩ := split_where_mark ':' whole
    obtain ⟨minutes, seconds, rfl⟩ : ∃ minutes seconds, rest = [minutes, seconds] := by
      obtain ⟨htake, -⟩ := clock_cut hwhole fraction
      rw [clock] at h
      simp only [htake, hsplit] at h
      split at h
      · next heq =>
        cases heq
        exact ⟨_, _, rfl⟩
      · cases h
    obtain ⟨hhour, hminute, hsecond, hfraction⟩ := (clock_of_parts hwhole hpieces).mp h
    exact .intro hhour hminute hsecond hfraction
  · rintro ⟨hhour, hminute, hsecond, hfraction⟩
    refine (clock_of_parts ?_ ?_).mpr ⟨hhour, hminute, hsecond, hfraction⟩
    all_goals simp [hhour.1.avoids, hminute.1.avoids, hsecond.1.avoids]

end

/-! ## Dates -/

section

variable {year month day number k : Nat}

theorem month_lengths_eq (year : Nat) : monthLengths year = months.map (daysInMonth year) := by
  have hleap : isLeapYear year = true ↔ HasLeapDay year := by
    simp only [isLeapYear, HasLeapDay, Nat.dvd_iff_mod_eq_zero, Bool.or_eq_true, Bool.and_eq_true, beq_iff_eq,
      bne_iff_ne]
    omega
  simp [months, monthLengths, daysInMonth, hleap]

theorem months_get : months[k]? = some month ↔ month = k + 1 ∧ month ≤ 12 := by
  by_cases hk : k < 12
  · have hall : ∀ k < 12, months[k]? = some (k + 1) := by decide
    rw [hall k hk, Option.some.injEq]
    omega
  · rw [getElem?_eq_none (by simpa [months] using hk)]
    simp only [reduceCtorEq, false_iff]
    omega

theorem days_in_month_eq (hpos : 1 ≤ month) (hle : month ≤ 12) : daysInMonth year month = monthLength year month := by
  have hmonth : months[month - 1]? = some month := months_get.mpr (by omega)
  simp [monthLength, month_lengths_eq, hmonth]

theorem days_in_month_le (year month : Nat) : daysInMonth year month ≤ 31 := by
  unfold daysInMonth
  repeat' split
  all_goals decide

theorem month_day_eq_some {months : List Nat} (hpos : 1 ≤ number) :
    monthDay? year number months = some (month, day) ↔ ∃ k, months[k]? = some month ∧ 1 ≤ day ∧
      day ≤ daysInMonth year month ∧ ((months.take k).map (daysInMonth year)).foldr (· + ·) 0 + day = number := by
  induction months generalizing number with
  | nil => simp [monthDay?]
  | cons first months ih =>
    rw [monthDay?]
    split
    · next hle =>
      constructor
      · rintro ⟨⟩
        exact ⟨0, rfl, hpos, hle, Nat.zero_add _⟩
      · rintro ⟨k, hmonth, hday, hlast, hnumber⟩
        cases k with
        | zero =>
          cases hmonth
          simp_all
        | succ k =>
          simp only [take_succ_cons, map_cons, foldr_cons] at hnumber
          omega
    · next hgt =>
      rw [ih (by omega)]
      constructor
      · rintro ⟨k, hmonth, hday, hlast, hnumber⟩
        refine ⟨k + 1, hmonth, hday, hlast, ?_⟩
        simp only [take_succ_cons, map_cons, foldr_cons]
        omega
      · rintro ⟨k, hmonth, hday, hlast, hnumber⟩
        cases k with
        | zero =>
          cases hmonth
          simp only [take_zero, map_nil, foldr_nil] at hnumber
          omega
        | succ k =>
          simp only [take_succ_cons, map_cons, foldr_cons] at hnumber
          exact ⟨k, hmonth, hday, hlast, by omega⟩

theorem month_day_eq_none {months : List Nat} (hpos : 1 ≤ number) :
    monthDay? year number months = none ↔ (months.map (daysInMonth year)).foldr (· + ·) 0 < number := by
  induction months generalizing number with
  | nil => simp [monthDay?, Nat.lt_of_succ_le hpos]
  | cons first months ih =>
    rw [monthDay?, map_cons, foldr_cons]
    split
    · next hle =>
      refine ⟨fun h => (nomatch h), fun h => ?_⟩
      omega
    · next hgt =>
      rw [ih (by omega)]
      omega

theorem of_day_of_year_eq_ok : ofDayOfYear year number = .ok (month, day) ↔ OrdinalDate year number month day := by
  have hfound : ofDayOfYear year number = .ok (month, day) ↔ 1 ≤ number ∧
      monthDay? year number months = some (month, day) := by
    rw [ofDayOfYear, error_if_eq_ok]
    refine and_congr Nat.one_le_iff_ne_zero.symm ?_
    split <;> simp_all
  have hdays : ((months.take (month - 1)).map (daysInMonth year)).foldr (· + ·) 0 = daysBefore year month := by
    rw [daysBefore, month_lengths_eq, map_take]
  rw [hfound]
  constructor
  · rintro ⟨hpos, h⟩
    obtain ⟨k, hmonth, hday, hlast, hnumber⟩ := (month_day_eq_some hpos).mp h
    obtain ⟨rfl, hle⟩ := months_get.mp hmonth
    rw [days_in_month_eq (Nat.succ_pos k) hle] at hlast
    exact ⟨⟨Nat.succ_pos k, hle, hday, hlast⟩, hdays ▸ hnumber⟩
  · intro h
    obtain ⟨⟨hpos, hle, hday, hlast⟩, hnumber⟩ := h
    have hlater : 1 ≤ number := by omega
    refine ⟨hlater, (month_day_eq_some hlater).mpr ⟨month - 1, months_get.mpr (by omega), hday, ?_, hdays ▸ hnumber⟩⟩
    rwa [days_in_month_eq hpos hle]

theorem exists_ordinal_date : (∃ month day, OrdinalDate year number month day) ↔ 1 ≤ number ∧ number ≤ yearLength year := by
  have hlength : yearLength year = (months.map (daysInMonth year)).foldr (· + ·) 0 := by
    rw [← month_lengths_eq, yearLength, monthLengths]
    split <;> rfl
  simp only [← of_day_of_year_eq_ok, ofDayOfYear, error_if_eq_ok, exists_and_left, ← Nat.pos_iff_ne_zero, ← ne_eq]
  refine and_congr_right fun hpos => ?_
  have hnone := @month_day_eq_none year number months hpos
  rw [hlength]
  split
  · next found hfound =>
    simp only [hfound, reduceCtorEq, false_iff, Nat.not_lt] at hnone
    exact ⟨fun _ => hnone, fun _ => ⟨found.1, found.2, rfl⟩⟩
  · next hfound =>
    have hlong := hnone.mp hfound
    refine ⟨fun ⟨_, _, h⟩ => (nomatch h), fun h => ?_⟩
    omega

variable {years months days digits text : List Char}

theorem date_calendar (hparts : ∀ part ∈ [years, months, days], '-' ∉ part) :
    date (years ++ [months, days].flatMap ('-' :: ·)) = .ok (year, month, day) ↔ Numeral year years ∧
      year < Nat.pow 2 32 ∧ Numeral month months ∧ Numeral day days ∧ IsDate year month day := by
  rw [date, split_where_marks hparts]
  simp only [bind_eq_ok_iff, error_if_eq_ok, number_eq_ok, Except.ok.injEq, Prod.mk.injEq]
  constructor
  · rintro ⟨_, ⟨hyear, hbound⟩, _, ⟨hmonth, -⟩, hrange, _, ⟨hday, -⟩, hlast, rfl, rfl, rfl⟩
    rw [days_in_month_eq (by omega) (by omega)] at hlast
    exact ⟨hyear, hbound, hmonth, hday, by omega, by omega, by omega, by omega⟩
  · rintro ⟨hyear, hbound, hmonth, hday, hdate⟩
    obtain ⟨hpos, hle, hfirst, hlast⟩ := hdate
    rw [← days_in_month_eq hpos hle] at hlast
    have hshort := days_in_month_le year month
    have hlimit : 31 < Nat.pow 2 32 := by decide
    exact ⟨year, ⟨hyear, hbound⟩, month, ⟨hmonth, by omega⟩, by omega, day, ⟨hday, by omega⟩, by omega, rfl, rfl, rfl⟩

theorem date_ordinal (hparts : ∀ part ∈ [years, digits], '-' ∉ part) :
    date (years ++ [digits].flatMap ('-' :: ·)) = .ok (year, month, day) ↔ Numeral year years ∧
      year < Nat.pow 2 32 ∧ ∃ number, Numeral number digits ∧ OrdinalDate year number month day := by
  rw [date, split_where_marks hparts]
  simp only [bind_eq_ok_iff, number_eq_ok, Prod.exists, of_day_of_year_eq_ok, Except.ok.injEq, Prod.mk.injEq]
  constructor
  · rintro ⟨_, ⟨hyear, hbound⟩, number, ⟨hnumber, -⟩, _, _, hdate, rfl, rfl, rfl⟩
    exact ⟨hyear, hbound, number, hnumber, hdate⟩
  · rintro ⟨hyear, hbound, number, hnumber, hdate⟩
    have hle := (exists_ordinal_date.mp ⟨month, day, hdate⟩).2
    have hshort : yearLength year ≤ 366 := by
      unfold yearLength
      split <;> decide
    have hlimit : 366 < Nat.pow 2 32 := by decide
    exact ⟨year, ⟨hyear, hbound⟩, number, ⟨hnumber, by omega⟩, month, day, hdate, rfl, rfl, rfl⟩

theorem date_in_calendar (h : date text = .ok (year, month, day)) : year < Nat.pow 2 32 ∧ IsDate year month day := by
  obtain ⟨years, rest, hsplit, rfl, hpieces⟩ := split_where_mark '-' text
  match rest with
  | [digits] =>
    obtain ⟨-, hbound, _, -, hdate⟩ := (date_ordinal hpieces).mp h
    exact ⟨hbound, hdate.toIsDate⟩
  | [months, days] =>
    obtain ⟨-, hbound, -, -, hdate⟩ := (date_calendar hpieces).mp h
    exact ⟨hbound, hdate⟩
  | [] | _ :: _ :: _ :: _ =>
    rw [date, hsplit] at h
    cases h

end

/-! ## Whole texts -/

section

variable {text : String} {time : Timestamp} {day clockText : List Char}

theorem parts_eq_ok : (do
      let (year, month, day) ← date day
      let (hour, minute, second, microsecond) ← clock clockText
      .ok { year, month, day, hour, minute, second, microsecond }) = Except.ok time ↔
    date day = .ok (time.year, time.month, time.day) ∧
      ReadsClock clockText time.hour time.minute time.second time.microsecond := by
  simp only [bind_eq_ok_iff, Prod.exists, clock_eq_ok, Except.ok.injEq]
  constructor
  · rintro ⟨_, _, _, hdate, _, _, _, _, hclock, rfl⟩
    exact ⟨hdate, hclock⟩
  · rintro ⟨hdate, hclock⟩
    exact ⟨_, _, _, hdate, _, _, _, _, hclock, rfl⟩

/-- A text with a date, a `T`, a time of day and a `Z`. -/
def zonedText (day clockText : List Char) : String := String.ofList (day ++ 'T' :: (clockText ++ ['Z']))

theorem of_zoned_text (hday : 'T' ∉ day) : ofText (zonedText day clockText) = .ok time ↔
    date day = .ok (time.year, time.month, time.day) ∧
      ReadsClock clockText time.hour time.minute time.second time.microsecond := by
  have hchars : (zonedText day clockText).toList = day ++ 'T' :: clockText ++ ['Z'] := by simp [zonedText]
  have htake : (day ++ 'T' :: clockText).takeWhile (· != 'T') = day :=
    (take_while_append (fun c hc => by simpa [bne] using ne_of_not_mem hday c hc) (by simp)).1
  rw [← parts_eq_ok, ofText]
  simp only [hchars, getLast?_concat, dropLast_concat, ne_eq, not_true, if_false, htake, drop_left]

theorem of_text_eq_ok (h : ofText text = .ok time) :
    (time.year < Nat.pow 2 32 ∧ IsDate time.year time.month time.day) ∧
      ∃ clockText, ReadsClock clockText time.hour time.minute time.second time.microsecond := by
  simp only [ofText, error_if_eq_ok] at h
  obtain ⟨-, h⟩ := h
  split at h
  · cases h
  · obtain ⟨hdate, hclock⟩ := parts_eq_ok.mp h
    exact ⟨date_in_calendar hdate, _, hclock⟩

section

variable {years digits clockText : List Char} {year number : Nat} (hyear : Numeral year years)
  (hbound : year < Nat.pow 2 32)

include hyear hbound

theorem of_calendar_text {months days : List Char} {month day : Nat} (hmonth : Numeral month months)
    (hday : Numeral day days) : ofText (zonedText (years ++ [months, days].flatMap ('-' :: ·)) clockText) = .ok time ↔
      time.year = year ∧ time.month = month ∧ time.day = day ∧ IsDate year month day ∧
        ReadsClock clockText time.hour time.minute time.second time.microsecond := by
  rw [of_zoned_text, date_calendar]
  · constructor
    · rintro ⟨⟨hyear', -, hmonth', hday', hdate⟩, hclock⟩
      obtain rfl := hyear.unique hyear'
      obtain rfl := hmonth.unique hmonth'
      obtain rfl := hday.unique hday'
      exact ⟨rfl, rfl, rfl, hdate, hclock⟩
    · rintro ⟨rfl, rfl, rfl, hdate, hclock⟩
      exact ⟨⟨hyear, hbound, hmonth, hday, hdate⟩, hclock⟩
  all_goals simp [hyear.avoids, hmonth.avoids, hday.avoids]

theorem of_ordinal_text (hnumber : Numeral number digits) :
    ofText (zonedText (years ++ [digits].flatMap ('-' :: ·)) clockText) = .ok time ↔ time.year = year ∧
      OrdinalDate year number time.month time.day ∧
        ReadsClock clockText time.hour time.minute time.second time.microsecond := by
  rw [of_zoned_text, date_ordinal]
  · constructor
    · rintro ⟨⟨hyear', -, _, hnumber', hdate⟩, hclock⟩
      obtain rfl := hyear.unique hyear'
      obtain rfl := hnumber.unique hnumber'
      exact ⟨rfl, hdate, hclock⟩
    · rintro ⟨rfl, hdate, hclock⟩
      exact ⟨⟨hyear, hbound, number, hnumber, hdate⟩, hclock⟩
  all_goals simp [hyear.avoids, hnumber.avoids]

/-- A time is read by the calendar. A date with a month and a day is read if the calendar has it, and the number
of a day is read if it is at most the length of the year, as the only date with that number and just as if this
date had been written. In both forms the time of day must be one. -/
theorem absolute_times_follow_calendar (clockText : List Char) :
    (∀ month day months days time, Numeral month months → Numeral day days →
      (ofText (zonedText (years ++ [months, days].flatMap ('-' :: ·)) clockText) = .ok time ↔
        time.year = year ∧ time.month = month ∧ time.day = day ∧ IsDate year month day ∧
          ReadsClock clockText time.hour time.minute time.second time.microsecond)) ∧
    ∀ number digits, Numeral number digits →
      ((∃ time, ofText (zonedText (years ++ [digits].flatMap ('-' :: ·)) clockText) = .ok time) ↔
        (1 ≤ number ∧ number ≤ yearLength year) ∧
          ∃ hour minute second microsecond, ReadsClock clockText hour minute second microsecond) ∧
      ∀ time, ofText (zonedText (years ++ [digits].flatMap ('-' :: ·)) clockText) = .ok time →
        time.year = year ∧ ReadsClock clockText time.hour time.minute time.second time.microsecond ∧
        (∀ month day, OrdinalDate year number month day ↔ month = time.month ∧ day = time.day) ∧
        ∀ months days, Numeral time.month months → Numeral time.day days →
          ofText (zonedText (years ++ [months, days].flatMap ('-' :: ·)) clockText) = .ok time := by
  refine ⟨fun _ _ _ _ _ hmonth hday => of_calendar_text hyear hbound hmonth hday,
    fun number digits hnumber => ⟨?_, fun time h => ?_⟩⟩
  · rw [← exists_ordinal_date]
    constructor
    · rintro ⟨time, h⟩
      obtain ⟨-, hdate, hclock⟩ := (of_ordinal_text hyear hbound hnumber).mp h
      exact ⟨⟨_, _, hdate⟩, _, _, _, _, hclock⟩
    · rintro ⟨⟨month, day, hdate⟩, hour, minute, second, microsecond, hclock⟩
      exact ⟨⟨year, month, day, hour, minute, second, microsecond⟩,
        (of_ordinal_text hyear hbound hnumber).mpr ⟨rfl, hdate, hclock⟩⟩
  · obtain ⟨hsame, hdate, hclock⟩ := (of_ordinal_text hyear hbound hnumber).mp h
    refine ⟨hsame, hclock, fun month day => ⟨fun hother => ?_, ?_⟩, fun months days hmonth hday => ?_⟩
    · -- The date of a day is found by a function, so there is only one.
      cases (of_day_of_year_eq_ok.mpr hother).symm.trans (of_day_of_year_eq_ok.mpr hdate)
      exact ⟨rfl, rfl⟩
    · rintro ⟨rfl, rfl⟩
      exact hdate
    · exact (of_calendar_text hyear hbound hmonth hday).mpr ⟨hsame, rfl, rfl, hdate.toIsDate, hclock⟩

end

/-- The sixtieth day of a leap year is read like the last day of its February. -/
theorem leap_day_read : Numeral 2024 "2024".toList ∧ Numeral 60 "060".toList ∧
    ofText "2024-060T23:59:59.5Z" = .ok ⟨2024, 2, 29, 23, 59, 59, 500000⟩ ∧
    ofText "2024-02-29T23:59:59.5Z" = .ok ⟨2024, 2, 29, 23, 59, 59, 500000⟩ := by
  have hyear : Numeral 2024 "2024".toList := by decide
  have hnumber : Numeral 60 "060".toList := by decide
  have hread : ofText "2024-060T23:59:59.5Z" = .ok ⟨2024, 2, 29, 23, 59, 59, 500000⟩ := rfl
  obtain ⟨-, -, -, hwritten⟩ :=
    ((absolute_times_follow_calendar hyear (by decide) "23:59:59.5".toList).2 60 "060".toList hnumber).2 _ hread
  exact ⟨hyear, hnumber, hread, hwritten "02".toList "29".toList (by decide) (by decide)⟩

/-- The times that the script can make. -/
structure Accepted (time : Timestamp) : Prop where
  date : IsDate time.year time.month time.day
  hour_le : time.hour ≤ 23
  minute_le : time.minute ≤ 59
  second_le : time.second ≤ 59
  microsecond_le : time.microsecond ≤ 999999
  year_pos : 1 ≤ time.year
  year_le : time.year ≤ 9999

/-- Of a time that is read, all parts but the year are checked: the script accepts it exactly if its year has
one to four digits and is not zero. -/
theorem read_time_accepted_iff (h : ofText text = .ok time) :
    (IsDate time.year time.month time.day ∧ time.hour ≤ 23 ∧ time.minute ≤ 59 ∧ time.second ≤ 59 ∧
      time.microsecond ≤ 999999 ∧ time.year < Nat.pow 2 32) ∧
    (time.Accepted ↔ 1 ≤ time.year ∧ time.year ≤ 9999) := by
  obtain ⟨⟨hbound, hdate⟩, clockText, hclock⟩ := of_text_eq_ok h
  cases hclock with
  | intro hhour hminute hsecond hfraction =>
    have hmicrosecond := hfraction.le
    exact ⟨⟨hdate, hhour.2, hminute.2, hsecond.2, hmicrosecond, hbound⟩, fun h => ⟨h.year_pos, h.year_le⟩,
      fun ⟨hpos, hle⟩ => ⟨hdate, hhour.2, hminute.2, hsecond.2, hmicrosecond, hpos, hle⟩⟩

/-- The last microsecond of a year. -/
theorem last_moment_accepted : ofText "1999-365T23:59:59.999999Z" = .ok ⟨1999, 12, 31, 23, 59, 59, 999999⟩ ∧
    Accepted ⟨1999, 12, 31, 23, 59, 59, 999999⟩ := by
  have hread : ofText "1999-365T23:59:59.999999Z" = .ok ⟨1999, 12, 31, 23, 59, 59, 999999⟩ := rfl
  exact ⟨hread, (read_time_accepted_iff hread).2.mpr ⟨by decide, by decide⟩⟩

/-- The year zero is read and written, and so is a year with five digits. -/
theorem years_not_accepted : (∃ time, ofText "0000-01-01T00:00:00Z" = .ok time ∧
      Script.expression (.timestamp time) = "datetime(0, 1, 1, 0, 0, 0, 0)" ∧ ¬ time.Accepted) ∧
    ∃ time, ofText "10000-01-01T00:00:00Z" = .ok time ∧ ¬ time.Accepted :=
  ⟨⟨⟨0, 1, 1, 0, 0, 0, 0⟩, rfl, rfl, fun h => absurd h.year_pos (by decide)⟩,
    ⟨10000, 1, 1, 0, 0, 0, 0⟩, rfl, fun h => absurd h.year_le (by decide)⟩

end

end FlightProcedure.Timestamp
