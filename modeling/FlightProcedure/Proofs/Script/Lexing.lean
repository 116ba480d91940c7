import FlightProcedure.Proofs.Script.Phrase
import FlightProcedure.Proofs.Text.Cutting
import FlightProcedure.Script.Expr
import Mathlib.Data.List.Forall2

/-!
# From the text of an expression to its tokens

A scan goes through the text character by character and remembers what it has seen of a token that has
begun. Words are as long as they can be, symbols are taken in pairs where there is such a pair, and a
backslash in a string gives the next character its own meaning. A text lexes firmly if its tokens are
complete whatever follows, and loosely if its last token may be a word that has to be followed by something
else.
-/

namespace FlightProcedure.Script

open List

inductive Scan where
  | idle
  | word (letters : List Char)
  | number (digits : List Char)
  | text (quote : Char) (content : List Char)
  | escape (quote : Char) (content : List Char)
  | symbol (first : Char)

def isLetter (c : Char) : Bool := c.isAlpha || c == '_'

def isWordChar (c : Char) : Bool := c.isAlphanum || c == '_'

def wordToken (letters : List Char) : Token :=
  match String.ofList letters with
  | "not" => .not
  | "and" => .op .and
  | "or" => .op .or
  | "True" => .bool true
  | "False" => .bool false
  | word => .name word

def symbolToken? : Char → Option Token
  | '*' => some (.op .mul)
  | '/' => some (.op .div)
  | '<' => some (.op .lt)
  | '>' => some (.op .gt)
  | _ => none

def pairToken? : Char → Char → Option Token
  | '*', '*' => some (.op .pow)
  | '=', '=' => some (.op .eq)
  | '!', '=' => some (.op .ne)
  | '<', '=' => some (.op .le)
  | '>', '=' => some (.op .ge)
  | _, _ => none

def unescape : Char → Option Char
  | '\\' => some '\\'
  | '\'' => some '\''
  | '"' => some '"'
  | 'n' => some '\n'
  | 'r' => some '\r'
  | 't' => some '\t'
  | _ => none

/-- The tokens that a character completes by itself, or the token that begins with it. -/
def begin (c : Char) : Option (List Token × Scan) :=
  match c with
  | ' ' => some ([], .idle)
  | '(' => some ([.opening], .idle)
  | ')' => some ([.closing], .idle)
  | ',' => some ([.comma], .idle)
  | '.' => some ([.dot], .idle)
  | '+' => some ([.op .add], .idle)
  | '-' => some ([.op .sub], .idle)
  | '^' => some ([.op .xor], .idle)
  | '\'' | '"' => some ([], .text c [])
  | '*' | '/' | '<' | '>' | '=' | '!' => some ([], .symbol c)
  | _ =>
    if isLetter c then some ([], .word [c])
    else if c.isDigit then some ([], .number [c])
    else none

/-- One step of a scan: the tokens that are complete and what has begun. -/
def step : Scan → Char → Option (List Token × Scan)
  | .idle, c => begin c
  | .word letters, c =>
    if isWordChar c then some ([], .word (letters ++ [c]))
    else do
      let (found, next) ← begin c
      some (wordToken letters :: found, next)
  | .number digits, c =>
    if c.isDigit then some ([], .number (digits ++ [c]))
    else if isWordChar c then none
    else do
      let (found, next) ← begin c
      some (.number (Nat.ofDigitChars 10 digits 0) :: found, next)
  | .text quote content, c =>
    if c = quote then some ([.text (String.ofList content)], .idle)
    else if c = '\\' then some ([], .escape quote content)
    else if c = '\n' ∨ c = '\r' then none
    else some ([], .text quote (content ++ [c]))
  | .escape quote content, c => do some ([], .text quote (content ++ [← unescape c]))
  | .symbol first, c =>
    match pairToken? first c with
    | some token => some ([token], .idle)
    | none => do
      let token ← symbolToken? first
      let (found, next) ← begin c
      some (token :: found, next)

/-- The tokens of a text that a scan goes through, and what has begun at its end. -/
def advance : Scan → List Char → Option (List Token × Scan)
  | state, [] => some ([], state)
  | state, c :: rest => do
    let (found, next) ← step state c
    let (more, last) ← advance next rest
    some (found ++ more, last)

def finish : Scan → Option (List Token)
  | .idle => some []
  | .word letters => some [wordToken letters]
  | .number digits => some [.number (Nat.ofDigitChars 10 digits 0)]
  | .text _ _ | .escape _ _ => none
  | .symbol first => do some [← symbolToken? first]

def tokenize (text : String) : Option (List Token) := do
  let (found, last) ← advance .idle text.toList
  some (found ++ (← finish last))

variable {state next last : Scan} {first second : List Char} {found more : List Token}

theorem advance_append (hfirst : advance state first = some (found, next))
    (hsecond : advance next second = some (more, last)) :
    advance state (first ++ second) = some (found ++ more, last) := by
  induction first generalizing state found with
  | nil =>
    cases hfirst
    exact hsecond
  | cons c rest ih =>
    simp only [advance, Option.bind_eq_bind, Option.bind_eq_some_iff] at hfirst
    obtain ⟨⟨head, between⟩, hstep, ⟨tail, after⟩, hrest, heq⟩ := hfirst
    cases heq
    simp only [cons_append, advance, hstep, ih hrest, Option.bind_eq_bind, Option.bind_some, append_assoc]

def Lexes (text : List Char) (tokens : List Token) : Prop := advance .idle text = some (tokens, .idle)

def Scan.pending? : Scan → Option (List Token)
  | .idle => some []
  | .word letters => some [wordToken letters]
  | .number digits => some [.number (Nat.ofDigitChars 10 digits 0)]
  | _ => none

def LexesLoosely (text : List Char) (tokens : List Token) : Prop :=
  ∃ found last pending, advance .idle text = some (found, last) ∧ last.pending? = some pending ∧
    tokens = found ++ pending

def Breaks (text : List Char) : Prop := ∃ c rest, text = c :: rest ∧ isWordChar c = false

theorem Lexes.loosely (h : Lexes first found) : LexesLoosely first found := ⟨found, .idle, [], h, rfl, by simp⟩

theorem Lexes.append (hfirst : Lexes first found) (hsecond : Lexes second more) :
    Lexes (first ++ second) (found ++ more) :=
  advance_append hfirst hsecond

theorem Lexes.append_loose (hfirst : Lexes first found) (hsecond : LexesLoosely second more) :
    LexesLoosely (first ++ second) (found ++ more) := by
  obtain ⟨before, last, pending, hsecond, hpending, rfl⟩ := hsecond
  exact ⟨_, last, pending, advance_append hfirst hsecond, hpending, (append_assoc ..).symm⟩

theorem step_of_pending {pending : List Token} {c : Char} (h : state.pending? = some pending)
    (hword : isWordChar c = false) (hbegin : begin c = some (found, next)) :
    step state c = some (pending ++ found, next) := by
  have hdigit : c.isDigit = false := by
    simp only [isWordChar, Char.isAlphanum, Bool.or_eq_false_iff] at hword
    exact hword.1.2
  cases state with
  | idle =>
    cases h
    exact hbegin
  | word | number =>
    cases h
    simp [step, hword, hdigit, hbegin]
  | _ => cases h

theorem LexesLoosely.append (hfirst : LexesLoosely first found) (hsecond : Lexes second more)
    (hbreaks : Breaks second) : Lexes (first ++ second) (found ++ more) := by
  obtain ⟨before, last, pending, hfirst, hpending, rfl⟩ := hfirst
  obtain ⟨c, rest, rfl, hword⟩ := hbreaks
  rw [append_assoc]
  refine advance_append hfirst ?_
  -- The first character of the second text completes the word or number that is pending.
  simp only [Lexes, advance, Option.bind_eq_bind, Option.bind_eq_some_iff] at hsecond
  obtain ⟨⟨head, between⟩, hbegin, ⟨tail, after⟩, hrest, heq⟩ := hsecond
  cases heq
  simp [advance, step_of_pending hpending hword hbegin, hrest]

theorem LexesLoosely.tokenize {text : String} (h : LexesLoosely text.toList found) : tokenize text = some found := by
  obtain ⟨before, last, pending, h, hpending, rfl⟩ := h
  have hfinish : finish last = some pending := by
    cases last with
    | idle | word | number => exact hpending
    | _ => cases hpending
  simp [Script.tokenize, h, hfinish]

theorem lexes_intercalate {separator : List Char} {token : Token} {texts : List (List Char)}
    {tokens : List (List Token)} (hseparator : Lexes separator [token]) (hbreaks : Breaks separator)
    (h : Forall₂ LexesLoosely texts tokens) :
    LexesLoosely (separator.intercalate texts) ([token].intercalate tokens) := by
  induction h with
  | nil => exact Lexes.loosely rfl
  | @cons text found texts tokens hfirst hrest ih =>
    cases hrest with
    | nil => simpa using hfirst
    | cons hsecond hrest =>
      rw [intercalate_cons_cons, intercalate_cons_cons]
      exact (hfirst.append hseparator hbreaks).append_loose ih

theorem advance_quoted {text : List Char}
    (h : ∀ c ∈ text, c ≠ '\'' ∧ c ≠ '\\' ∧ c ≠ '\n' ∧ c ≠ '\r') (before : List Char) :
    advance (.text '\'' before) (text ++ ['\'']) = some ([.text (String.ofList (before ++ text))], .idle) := by
  induction text generalizing before with
  | nil => simp [advance, step]
  | cons c rest ih =>
    obtain ⟨hquote, hslash, hline, hreturn⟩ := h c (by simp)
    have hrest := ih (fun other hother => h other (by simp [hother])) (before ++ [c])
    simp [advance, step, hquote, hslash, hline, hreturn, hrest]

theorem advance_escape_char (c : Char) (before : List Char) :
    advance (.text '"' before) (escapeChar c) = some ([], .text '"' (before ++ [c])) := by
  unfold escapeChar
  split
  iterate 5 simp [advance, step, unescape]
  · next hslash hquote hline hreturn htab =>
    have hplain : ¬ (c = '\n' ∨ c = '\r') := by
      rintro (heq | heq)
      · exact hline heq
      · exact hreturn heq
    simp only [advance, step, if_neg hquote, if_neg hslash, if_neg hplain, Option.bind_eq_bind,
      Option.bind_some, append_nil]

theorem advance_literal (text before : List Char) : advance (.text '"' before) (text.flatMap escapeChar ++ ['"']) =
      some ([.text (String.ofList (before ++ text))], .idle) := by
  induction text generalizing before with
  | nil => simp [advance, step]
  | cons c rest ih =>
    have hrest := ih (before ++ [c])
    rw [append_assoc, singleton_append] at hrest
    rw [flatMap_cons, append_assoc]
    exact advance_append (advance_escape_char c before) hrest

theorem is_letter_of_digit {c : Char} (h : c.isDigit = true) : isLetter c = false := by
  have hnine : c.toNat ≤ 57 := (Char.isDigit_iff_toNat.1 h).2
  rw [← Bool.not_eq_true]
  intro hletter
  rcases Bool.or_eq_true_iff.1 hletter with halpha | hline
  · have hbounds := letter_bounds halpha
    omega
  · rw [beq_iff_eq.1 hline] at h
    cases h

theorem begin_digit {c : Char} (h : c.isDigit = true) : begin c = some ([], .number [c]) := by
  unfold begin
  split <;> first | cases h | simp [is_letter_of_digit h, h]

theorem advance_digits {digits : List Char} (h : ∀ c ∈ digits, c.isDigit = true) (before : List Char) :
    advance (.number before) digits = some ([], .number (before ++ digits)) := by
  induction digits generalizing before with
  | nil => simp [advance]
  | cons c rest ih =>
    have hrest := ih (fun other hother => h other (by simp [hother])) (before ++ [c])
    simp [advance, step, h c (by simp), hrest]

theorem lexes_number (n : Nat) : LexesLoosely (toString n).toList [.number n] := by
  have hdigits := (digits_value n).1
  have htext : (toString n).toList = Nat.toDigits 10 n := Nat.toList_repr
  rw [htext]
  cases htext : Nat.toDigits 10 n with
  | nil => exact absurd htext Nat.toDigits_ne_nil
  | cons c rest =>
    rw [htext] at hdigits
    refine ⟨[], .number (c :: rest), [.number n], ?_, ?_, rfl⟩
    · have hrest : ∀ other ∈ rest, other.isDigit = true := fun other hother =>
        hdigits other (by simp [hother])
      have hstep := advance_digits hrest [c]
      simp only [advance, step, begin_digit (hdigits c (by simp)), hstep, Option.bind_eq_bind, Option.bind_some]
      rfl
    · rw [Scan.pending?, ← htext, Nat.ofDigitChars_ten_toDigits]

end FlightProcedure.Script
