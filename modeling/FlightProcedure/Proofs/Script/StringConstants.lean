import FlightProcedure.Procedure.Action
import FlightProcedure.Script.Expr

/-!
# String constants in the script

A string constant of a procedure has no escapes, and one of the script has many. `literalValue?` reads a
string in double quotes by the rules of the script: a backslash begins an escape of one character, of octal
or hexadecimal digits or of a name in braces, it joins lines, and in front of any other character it stands
for itself. `string_constant_survives` says that reading what is written gives back the text.
-/

namespace FlightProcedure.Script

open List

def digitValue? (base : Nat) (c : Char) : Option Nat :=
  let value :=
    if c.isDigit then c.toNat - '0'.toNat
    else if 'a' ≤ c ∧ c ≤ 'f' then c.toNat - 'a'.toNat + 10
    else if 'A' ≤ c ∧ c ≤ 'F' then c.toNat - 'A'.toNat + 10
    else base
  if value < base then some value else none

/-- The digits that a text begins with, at most so many of them. -/
def leadingDigits (base : Nat) : Nat → List Char → List Nat
  | most + 1, c :: rest =>
    match digitValue? base c with
    | some digit => digit :: leadingDigits base most rest
    | none => []
  | _, _ => []

def digitsNumber (base : Nat) (digits : List Nat) : Nat := digits.foldl (fun number digit => number * base + digit) 0

/-- The characters that stand for another one behind a backslash. -/
def simpleEscapes : List (Char × Nat) :=
  [('\\', 92), ('\'', 39), ('"', 34), ('a', 7), ('b', 8), ('f', 12), ('n', 10), ('r', 13), ('t', 9), ('v', 11)]

/-- The letters that a number of hexadecimal digits follows. -/
def codeWidths : List (Char × Nat) := [('x', 2), ('u', 4), ('U', 8)]

/-- What the text behind a backslash stands for, and how many of its characters belong to the escape.
`names` gives the characters that have names. -/
def escape? (names : List Char → Option Nat) : List Char → Option (List Nat × Nat)
  | [] => none
  | '\r' :: '\n' :: _ => some ([], 2)
  | '\r' :: _ | '\n' :: _ => some ([], 1)
  | 'N' :: '\x7b' :: rest => do
    let name := rest.takeWhile (· ≠ '\x7d')
    if name.length < rest.length then some ([← names name], name.length + 3) else none
  | c :: rest =>
    match simpleEscapes.lookup c, codeWidths.lookup c with
    | some code, _ => some ([code], 1)
    | none, some width =>
      let digits := leadingDigits 16 width rest
      if digits.length = width ∧ digitsNumber 16 digits < 0x110000 then
        some ([digitsNumber 16 digits], width + 1)
      else none
    | none, none =>
      if c = 'N' then none
      else match leadingDigits 8 3 (c :: rest) with
        | [] => some ([92, c.toNat], 1)
        | digits => some ([digitsNumber 8 digits], digits.length)

/-- The value of a text up to the quote that closes it, and the text behind the quote. The characters of
an escape are passed over, as the number in front says. -/
def contentValue? (names : List Char → Option Nat) : Nat → List Char → Option (List Nat × List Char)
  | _, [] => none
  | skip + 1, _ :: rest => contentValue? names skip rest
  | 0, c :: rest =>
    if c = '"' then some ([], rest)
    else if c = '\n' ∨ c = '\r' then none
    else do
      let (codes, used) ← if c = '\\' then escape? names rest else some ([c.toNat], 0)
      let (more, after) ← contentValue? names used rest
      some (codes ++ more, after)

/-- The value of a text that is a single string in double quotes. -/
def literalValue? (names : List Char → Option Nat) (text : String) : Option (List Nat) :=
  match text.toList with
  | '"' :: rest =>
    match contentValue? names 0 rest with
    | some (codes, []) => some codes
    | _ => none
  | _ => none

/-- Whether a quote stands somewhere without a backslash of its own. -/
def hasBareQuote : List Char → Bool
  | [] => false
  | '\\' :: _ :: rest => hasBareQuote rest
  | c :: rest => c == '"' || hasBareQuote rest

section

variable {names : List Char → Option Nat} {c : Char} {rest text after : List Char} {codes : List Nat}

theorem escape_char_cases (c : Char) :
    (∃ d, escapeChar c = ['\\', d] ∧ d ≠ '\n' ∧ d ≠ '\r' ∧
        ∀ names rest, escape? names (d :: rest) = some ([c.toNat], 1)) ∨
      escapeChar c = [c] ∧ c ≠ '\\' ∧ c ≠ '"' ∧ c ≠ '\n' ∧ c ≠ '\r' := by
  unfold escapeChar
  split
  iterate 5 exact .inl ⟨_, rfl, by decide, by decide, fun _ _ => rfl⟩
  next hslash hquote hline hreturn _ => exact .inr ⟨rfl, hslash, hquote, hline, hreturn⟩

theorem content_value_escape_char (h : contentValue? names 0 rest = some (codes, after)) :
    contentValue? names 0 (escapeChar c ++ rest) = some (c.toNat :: codes, after) := by
  rcases escape_char_cases c with ⟨d, heq, -, -, hescape⟩ | ⟨heq, hslash, hquote, hline, hreturn⟩
  · simp [heq, contentValue?, hescape, h]
  · simp [heq, contentValue?, hslash, hquote, hline, hreturn, h]

theorem content_value_text (text : List Char) :
    contentValue? names 0 (text.flatMap escapeChar ++ ['"']) = some (text.map Char.toNat, []) := by
  induction text with
  | nil => rfl
  | cons c text ih =>
    rw [flatMap_cons, append_assoc, map_cons]
    exact content_value_escape_char ih

theorem has_bare_quote_escape_char : hasBareQuote (escapeChar c ++ rest) = hasBareQuote rest := by
  rcases escape_char_cases c with ⟨d, heq, -⟩ | ⟨heq, hslash, hquote, -⟩
  · simp [heq, hasBareQuote]
  · simp [heq, hasBareQuote, hslash, hquote]

theorem escaped_on_one_line (c : Char) : '\n' ∉ escapeChar c ∧ '\r' ∉ escapeChar c := by
  rcases escape_char_cases c with ⟨d, heq, hline, hreturn, -⟩ | ⟨heq, -, -, hline, hreturn⟩ <;>
    simp [heq, hline.symm, hreturn.symm]

theorem escaped_content (text : List Char) : hasBareQuote (text.flatMap escapeChar) = false ∧
    '\n' ∉ text.flatMap escapeChar ∧ '\r' ∉ text.flatMap escapeChar := by
  induction text with
  | nil => exact ⟨rfl, not_mem_nil, not_mem_nil⟩
  | cons c text ih =>
    rw [flatMap_cons, has_bare_quote_escape_char, mem_append, mem_append]
    obtain ⟨hline, hreturn⟩ := escaped_on_one_line c
    exact ⟨ih.1, not_or.mpr ⟨hline, ih.2.1⟩, not_or.mpr ⟨hreturn, ih.2.2⟩⟩

theorem string_literal_to_list (text : String) :
    (stringLiteral text).toList = '"' :: (text.toList.flatMap escapeChar ++ ['"']) := by
  simp [stringLiteral, String.toList_append]

theorem literal_value_string_literal (text : String) :
    literalValue? names (stringLiteral text) = some (text.toList.map Char.toNat) := by
  rw [literalValue?, string_literal_to_list]
  simp only [content_value_text]

theorem string_literal_injective : Function.Injective stringLiteral := by
  intro first second h
  have hvalue := congrArg (literalValue? fun _ => none) h
  rw [literal_value_string_literal, literal_value_string_literal, Option.some_inj] at hvalue
  exact String.toList_inj.mp ((map_inj_right fun _ _ => Char.toNat_inj.mp).mp hvalue)

end

theorem string_content_quoted (text : String) : stringContent ("\"" ++ text ++ "\"") = text := by
  simp [stringContent, String.toList_append]

/-- A text between quotes is a constant that is written in the script between quotes as well, on one line
and with no bare quote inside, and its value there is the text. The value of every string literal is its
text, so that different texts have different literals. -/
theorem string_constant_survives (names : List Char → Option Nat) :
    (∀ (site : Site) (text : String) (start stop : Nat), ∃ expr content,
      constantToken site ⟨"STRING_CONSTANT", "\"" ++ text ++ "\"", start, stop⟩ = .ok expr ∧
        (expression expr).toList = '"' :: (content ++ ['"']) ∧
        hasBareQuote content = false ∧ '\n' ∉ content ∧ '\r' ∉ content ∧
        literalValue? names (expression expr) = some (text.toList.map Char.toNat)) ∧
      (∀ text, literalValue? names (stringLiteral text) = some (text.toList.map Char.toNat)) ∧
      Function.Injective stringLiteral := by
  refine ⟨fun site text start stop => ?_, literal_value_string_literal, string_literal_injective⟩
  obtain ⟨hbare, hline, hreturn⟩ := escaped_content text.toList
  refine ⟨.str text, text.toList.flatMap escapeChar, ?_, string_literal_to_list text, hbare, hline, hreturn,
    literal_value_string_literal text⟩
  simp only [constantToken, string_content_quoted]

end FlightProcedure.Script
