import FlightProcedure.Proofs.Ebnf.PrintedLayout
import FlightProcedure.Proofs.Grammar.Listing

/-!
# Reading a converted body

The body of a rule in the new layout writes tokens (`text_printed`), and the tokens write the image of the
body (`Choice.phrase`), so that it is read as its image.
-/

namespace FlightProcedure.Ebnf

open Segment

variable {c : Char} {final : RuleName → String} {lexemes : List Lexeme} {before : Lexeme}

/-! ## Tokens -/

def Lexeme.tokens (final : RuleName → String) : Lexeme → List BodyToken
  | .head rule => [.name (final rule)]
  | .name rule => [.name (final rule)]
  | .text quoted => [.literal (String.ofList quoted.chars)]
  | .bar => [.pipe]
  | .openGroup | .openMany => [.openGroup]
  | .closeGroup => [.closeGroup]
  | .openOption => [.openOptional]
  | .closeOption => [.closeOptional]
  | .closeMany => [.closeGroup, .star]
  | .closeSome => [.closeGroup, .plus]
  | .comma | .stop => []

structure Readable (final : RuleName → String) : Prop where
  word : ∀ rule, IsWord (final rule).toList
  letter : ∀ rule, (final rule).toList.head?.any Char.isAlpha = true

theorem name_char_of_word (h : isAsciiWord c = true) : BodyToken.isNameChar c = true := by
  unfold isAsciiWord at h
  simp [BodyToken.isNameChar, h]

theorem Readable.names (h : Readable final) (rule : RuleName) : BodyToken.Names (final rule).toList := by
  refine ⟨?_, fun c hc => name_char_of_word ((h.word rule).2 c hc)⟩
  have hletter := h.letter rule
  cases hchars : (final rule).toList with
  | nil => exact absurd hchars (h.word rule).1
  | cons c more =>
    rw [hchars] at hletter
    have halpha : c.isAlpha = true := hletter
    simp [BodyToken.startsName, halpha]

theorem escaped_quoted (quoted : QuotedText) : BodyToken.Escaped quoted.chars quoted.chars := by
  have hplain := quoted.plain
  generalize quoted.chars = chars at hplain
  induction chars with
  | nil => exact .nil
  | cons c chars ih =>
    obtain ⟨hquote, hslash, _⟩ := hplain c (by simp)
    exact .plain hquote hslash (ih fun d hd => hplain d (by simp [hd]))

def singles (final : RuleName → String) (rule : RuleName) : List (List Char) := [(final rule).toList]

theorem name_ends {rule : RuleName} {spell : RuleName → List (List Char)} (hjoined : Joined (.name rule) lexemes) :
    (printed .converted spell lexemes).head?.any BodyToken.isNameChar = false := by
  cases lexemes with
  | nil => rfl
  | cons next rest =>
    have hfollows : next.follows = true := by
      simpa [Lexeme.admits, Lexeme.isStop, Lexeme.awaits] using hjoined.1
    cases next <;> first | rfl | cases hfollows

def tokensOf (final : RuleName → String) (lexemes : List Lexeme) : List BodyToken :=
  lexemes.flatMap (Lexeme.tokens final)

theorem text_printed (hread : Readable final) (hinner : Inner lexemes) (hjoined : Joined before lexemes) :
    TextOf (tokensOf final lexemes) (printed .converted (singles final) lexemes) := by
  induction lexemes generalizing before with
  | nil => exact .nil
  | cons next rest ih =>
    have hrest := ih (fun lexeme hlexeme => hinner lexeme (by simp [hlexeme])) hjoined.2
    have hspace : isBlank ' ' = true := by decide
    rw [printed_cons, tokensOf, List.flatMap_cons]
    cases next with
    | head rule => cases (hinner (.head rule) (by simp)).1
    | stop => cases (hinner .stop (by simp)).2
    | name rule => exact .token (.name (hread.names rule)) (name_ends hjoined.2) hrest
    | text quoted =>
      have hclosed : (printed .converted (singles final) rest).head?.any
          (BodyToken.literal (String.ofList quoted.chars)).takesIn = false := by
        cases (printed .converted (singles final) rest).head? <;> rfl
      exact .token (.literal (escaped_quoted quoted)) hclosed hrest
    | comma => exact .blank hspace hrest
    | bar => exact .blank hspace (.mark rfl (.blank hspace hrest))
    | openGroup | openMany | closeGroup | openOption | closeOption => exact .mark rfl hrest
    | closeMany | closeSome => exact .mark rfl (.mark rfl hrest)

/-! ## Bodies -/

theorem tokens_append (first more : List Lexeme) :
    tokensOf final (first ++ more) = tokensOf final first ++ tokensOf final more :=
  List.flatMap_append

attribute [local simp] tokensOf Factor.lexemes Lexeme.tokens Factor.image Quantifier.apply Quantifier.tokens

mutual

theorem Factor.phrase : ∀ factor : Factor, Phrase .item [factor.image final] (tokensOf final factor.lexemes)
  | .name rule => .quantified (.symbol (final rule)) []
  | .text quoted => .quantified (.literal (String.ofList quoted.chars)) []
  | .group body => by simpa using Phrase.quantified (.group (Choice.phrase body)) []
  | .option body => by simpa using Phrase.quantified (.option (Choice.phrase body)) []
  | .many body => by simpa using Phrase.quantified (.group (Choice.phrase body)) [.star]
  | .some body => by simpa using Phrase.quantified (.group (Choice.phrase body)) [.plus]

theorem Series.phrase : ∀ series : Series, Phrase .row (series.images final) (tokensOf final series.lexemes)
  | .one factor => .last (Factor.phrase factor)
  | .more factor others => by
    rw [Series.lexemes, tokens_append]
    exact .next (Factor.phrase factor) (Series.phrase others)

theorem Choice.phrase : ∀ body : Choice, Phrase .choice (body.images final) (tokensOf final body.lexemes)
  | .one series => .one (Series.phrase series)
  | .more series others => by
    rw [Choice.lexemes, tokens_append]
    exact .or (Series.phrase series) (Choice.phrase others)

end

end FlightProcedure.Ebnf
