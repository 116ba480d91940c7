import FlightProcedure.Proofs.Ebnf.LayoutLiterals
import FlightProcedure.Proofs.Ebnf.Syntax

/-!
# The layout of a written grammar

Each step of a change of layout writes the marks of one kind in another way and leaves all other lexemes
as they are. `change_layout_printed` puts the steps together.
-/

namespace FlightProcedure.Ebnf

open Segment List Lexeme

variable {c : Char} {words : List (List Char)} {rest text : List Char}

/-! ## Words -/

theorem ascii_of_word (h : isAsciiWord c = true) : c.toNat < 0x80 := by
  simp only [isAsciiWord, Bool.or_eq_true, beq_iff_eq] at h
  rcases h with halpha | rfl
  · exact ascii_of_alphanum halpha
  · decide

theorem class_of_ascii_word (h : isAsciiWord c = true) : isWordChar c = true ∧ isBlank c = false ∧
    isSpace c = false ∧ opensLiteral c = false ∧ c ∉ [' ', '\n', ',', ';', '|', ':', '=', '-', '\x7b', '\x7d'] := by
  have hascii := ascii_of_word h
  revert h
  exact of_ascii hascii (by decide)

theorem IsWord.not_mem {word : List Char} (h : IsWord word) (hc : isWordChar c = false) : c ∉ word := by
  intro hmem
  rw [(class_of_ascii_word (h.2 c hmem)).1] at hc
  cases hc

structure Spelled (words : List (List Char)) : Prop where
  ne_nil : words ≠ []
  isWord : ∀ word ∈ words, IsWord word

theorem RuleName.spelled (name : RuleName) : Spelled name.words := by
  refine ⟨?_, name.isWord⟩
  intro hnil
  have hstart := name.startsName
  rw [hnil] at hstart
  cases hstart

theorem unwords_cons {word : List Char} (h : words ≠ []) : unwords (word :: words) = word ++ ' ' :: unwords words := by
  cases words with
  | nil => exact absurd rfl h
  | cons next rest => rfl

theorem mem_unwords (hwords : ∀ word ∈ words, IsWord word) (hc : c ∈ unwords words) :
    isAsciiWord c = true ∨ c = ' ' := by
  induction words with
  | nil => cases hc
  | cons word rest ih =>
    have hword : ∀ d ∈ word, isAsciiWord d = true := (hwords word (by simp)).2
    cases rest with
    | nil => exact .inl (hword c hc)
    | cons next rest =>
      rw [unwords_cons (by simp)] at hc
      rcases mem_append.mp hc with hc | hc
      · exact .inl (hword c hc)
      · rcases mem_cons.mp hc with rfl | hc
        · exact .inr rfl
        · exact ih (fun w hw => hwords w (by simp [hw])) hc

theorem Spelled.ends (h : Spelled words) : (∃ c rest, unwords words = c :: rest ∧ isAsciiWord c = true) ∧
      ∃ front c, unwords words = front ++ [c] ∧ isAsciiWord c = true := by
  obtain ⟨hne, hwords⟩ := h
  induction words with
  | nil => exact absurd rfl hne
  | cons word rest ih =>
    obtain ⟨hword, hchars⟩ := hwords word (by simp)
    cases word with
    | nil => exact absurd rfl hword
    | cons d word =>
      have hd : isAsciiWord d = true := hchars d (by simp)
      cases rest with
      | nil =>
        refine ⟨⟨d, word, rfl, hd⟩, (d :: word).dropLast, (d :: word).getLast (by simp), ?_, ?_⟩
        · rw [dropLast_concat_getLast]
          rfl
        · exact hchars _ (getLast_mem _)
      | cons next rest =>
        obtain ⟨_, front, e, hfront, he⟩ := ih (by simp) fun w hw => hwords w (by simp [hw])
        rw [unwords_cons (by simp)]
        exact ⟨⟨d, _, rfl, hd⟩, (d :: word) ++ ' ' :: front, e, by simp [hfront], he⟩

/-! ## Lexemes next to each other -/

namespace Lexeme

def opens : Lexeme → Bool
  | .name _ | .text _ | .openGroup | .openOption | .openMany => true
  | _ => false

def awaits : Lexeme → Bool
  | .head _ | .comma | .bar | .openGroup | .openOption | .openMany => true
  | _ => false

def follows : Lexeme → Bool
  | .comma | .bar | .closeGroup | .closeOption | .closeMany | .closeSome | .stop => true
  | _ => false

def isHead : Lexeme → Bool
  | .head _ => true
  | _ => false

def isStop : Lexeme → Bool
  | .stop => true
  | _ => false

def isText : Lexeme → Bool
  | .text _ => true
  | _ => false

def admits (lexeme next : Lexeme) : Bool :=
  if lexeme.isStop then next.isHead else if lexeme.awaits then next.opens else next.follows

end Lexeme

/-- `Joined before lexemes` says that each of the lexemes can come behind the one in front of it, and the
first behind `before`. -/
def Joined : Lexeme → List Lexeme → Prop
  | _, [] => True
  | before, next :: rest => before.admits next = true ∧ Joined next rest

def ComesLast (lexemes : List Lexeme) : Prop :=
  ∀ before : Lexeme, before.isStop = false → before.awaits = false → Joined before lexemes

theorem comes_last_cons {lexemes : List Lexeme} (next : Lexeme) (hnext : next.follows = true)
    (h : Joined next lexemes) : ComesLast (next :: lexemes) := by
  intro before hstop hawaits
  exact ⟨by simp [admits, hstop, hawaits, hnext], h⟩

variable {lexeme next : Lexeme}

theorem joined_of_awaits {before : Lexeme} {lexemes : List Lexeme} (hbefore : before.awaits = true)
    (hnext : next.opens = true) (h : Joined next lexemes) : Joined before (next :: lexemes) := by
  have hstop : before.isStop = false := by cases before <;> first | rfl | cases hbefore
  exact ⟨by simp [admits, hstop, hbefore, hnext], h⟩

theorem joined_bracket {before opening closing : Lexeme} {body rest : List Lexeme} (hbefore : before.awaits = true)
    (hopening : opening.opens = true) (h : Joined opening (body ++ closing :: rest)) :
    Joined before (opening :: body ++ [closing] ++ rest) := by
  simpa using joined_of_awaits hbefore hopening h

mutual

theorem joined_factor {before : Lexeme} {rest : List Lexeme} (hbefore : before.awaits = true)
    (hrest : ComesLast rest) : ∀ factor : Factor, Joined before (factor.lexemes ++ rest)
  | .name _ | .text _ => joined_of_awaits hbefore rfl (hrest _ rfl rfl)
  | .group body => joined_bracket hbefore rfl (joined_choice rfl (comes_last_cons .closeGroup rfl (hrest _ rfl rfl)) body)
  | .option body =>
    joined_bracket hbefore rfl (joined_choice rfl (comes_last_cons .closeOption rfl (hrest _ rfl rfl)) body)
  | .many body => joined_bracket hbefore rfl (joined_choice rfl (comes_last_cons .closeMany rfl (hrest _ rfl rfl)) body)
  | .some body => joined_bracket hbefore rfl (joined_choice rfl (comes_last_cons .closeSome rfl (hrest _ rfl rfl)) body)

theorem joined_series {before : Lexeme} {rest : List Lexeme} (hbefore : before.awaits = true)
    (hrest : ComesLast rest) : ∀ series : Series, Joined before (series.lexemes ++ rest)
  | .one factor => joined_factor hbefore hrest factor
  | .more factor others => by
    have hothers : Joined .comma (others.lexemes ++ rest) := joined_series rfl hrest others
    have hfactor := joined_factor hbefore (comes_last_cons .comma rfl hothers) factor
    simpa [Series.lexemes] using hfactor

theorem joined_choice {before : Lexeme} {rest : List Lexeme} (hbefore : before.awaits = true)
    (hrest : ComesLast rest) : ∀ body : Choice, Joined before (body.lexemes ++ rest)
  | .one series => joined_series hbefore hrest series
  | .more series others => by
    have hothers : Joined .bar (others.lexemes ++ rest) := joined_choice rfl hrest others
    have hseries := joined_series hbefore (comes_last_cons .bar rfl hothers) series
    simpa [Choice.lexemes] using hseries

end

theorem Ruleset.joined (grammar : Ruleset) : Joined .stop grammar.lexemes := by
  unfold Ruleset.lexemes
  induction grammar.rules with
  | nil => trivial
  | cons rule rules ih =>
    have hbody : Joined (.head rule.1) (rule.2.lexemes ++ .stop :: _) :=
      joined_choice rfl (comes_last_cons .stop rfl ih) rule.2
    rw [flatMap_cons]
    simp only [cons_append, append_assoc, nil_append]
    exact ⟨rfl, hbody⟩

def Inner (lexemes : List Lexeme) : Prop := ∀ lexeme ∈ lexemes, lexeme.isHead = false ∧ lexeme.isStop = false

theorem inner_append {lexemes more : List Lexeme} (h : Inner lexemes) (hmore : Inner more) : Inner (lexemes ++ more) :=
  fun lexeme hlexeme => (mem_append.mp hlexeme).elim (h lexeme) (hmore lexeme)

theorem inner_singleton (hhead : lexeme.isHead = false) (hstop : lexeme.isStop = false) : Inner [lexeme] := by
  intro other hother
  rw [mem_singleton.mp hother]
  exact ⟨hhead, hstop⟩

mutual

theorem inner_factor : ∀ factor : Factor, Inner factor.lexemes
  | .name _ | .text _ => inner_singleton rfl rfl
  | .group body | .option body | .many body | .some body =>
    inner_append (inner_append (inner_singleton rfl rfl) (inner_choice body)) (inner_singleton rfl rfl)

theorem inner_series : ∀ series : Series, Inner series.lexemes
  | .one factor => inner_factor factor
  | .more factor rest =>
    inner_append (inner_factor factor) (inner_append (inner_singleton rfl rfl) (inner_series rest))

theorem inner_choice : ∀ body : Choice, Inner body.lexemes
  | .one series => inner_series series
  | .more series rest =>
    inner_append (inner_series series) (inner_append (inner_singleton rfl rfl) (inner_choice rest))

end

/-! ## Equals signs -/

variable {spell : RuleName → List (List Char)} {before : Lexeme} {lexemes : List Lexeme} {marks : Marks}
  {rule : RuleName}

def printed (marks : Marks) (spell : RuleName → List (List Char)) (lexemes : List Lexeme) : List Char :=
  lexemes.flatMap (written marks spell)

theorem printed_cons (lexeme : Lexeme) :
    printed marks spell (lexeme :: lexemes) = lexeme.written marks spell ++ printed marks spell lexemes :=
  rfl

def startsFactor (c : Char) : Bool :=
  isAsciiWord c || c == '"' || c == '(' || c == '[' || c == '\x7b'

theorem class_of_starts_factor (h : startsFactor c = true) : isSpace c = false ∧ isBlank c = false ∧
    c ∉ [' ', '\n', ',', ';', '|', ':', '=', '-', '\x7d'] := by
  have hascii : c.toNat < 0x80 := by
    simp only [startsFactor, Bool.or_eq_true, beq_iff_eq] at h
    rcases h with (((hword | rfl) | rfl) | rfl) | rfl
    · exact ascii_of_word hword
    all_goals decide
  revert h
  exact of_ascii hascii (by decide)

theorem printed_opens (marks : Marks) (hspell : ∀ rule, Spelled (spell rule))
    (hmany : marks.openMany.head?.any startsFactor = true) (hnext : next.opens = true) (lexemes : List Lexeme) :
    ∃ c rest, printed marks spell (next :: lexemes) = c :: rest ∧ startsFactor c = true := by
  cases next with
  | name rule =>
    obtain ⟨c, rest, hchars, hc⟩ := (hspell rule).ends.1
    exact ⟨c, rest ++ printed marks spell lexemes, by simp [printed_cons, written, hchars],
      by simp [startsFactor, hc]⟩
  | text quoted => exact ⟨'"', _, rfl, by decide⟩
  | openGroup => exact ⟨'(', _, rfl, by decide⟩
  | openOption => exact ⟨'[', _, rfl, by decide⟩
  | openMany =>
    cases hopen : marks.openMany with
    | nil => simp [hopen] at hmany
    | cons c rest =>
      exact ⟨c, rest ++ printed marks spell lexemes, by simp [printed_cons, written, hopen],
        by simpa [hopen] using hmany⟩
  | _ => cases hnext

theorem printed_starts (marks : Marks) (hspell : ∀ rule, Spelled (spell rule))
    (hmany : marks.openMany.head?.any startsFactor = true)
    (hbefore : before.awaits = true ∨ before.isStop = true) (hjoined : Joined before lexemes) :
    (printed marks spell lexemes).head?.all startsFactor = true := by
  cases lexemes with
  | nil => rfl
  | cons next rest =>
    have hadmits := hjoined.1
    cases hstop : before.isStop with
    | false =>
      have hopens : next.opens = true := by
        have hawaits := hbefore.resolve_right (by simp [hstop])
        simpa [admits, hstop, hawaits] using hadmits
      obtain ⟨c, tail, hchars, hc⟩ := printed_opens marks hspell hmany hopens rest
      simp [hchars, hc]
    | true =>
      have hhead : next.isHead = true := by simpa [admits, hstop] using hadmits
      cases next with
      | head rule =>
        obtain ⟨c, tail, hchars, hc⟩ := (hspell rule).ends.1
        simp [printed_cons, written, hchars, startsFactor, hc]
      | _ => cases hhead

theorem colons_at_line (hline : '\n' ∉ text) (rest : List Char) :
    colonsAt false (text ++ rest) = text ++ colonsAt false rest := by
  induction text with
  | nil => rfl
  | cons c text ih =>
    have hc : (c == '\n') = false := by
      simp only [mem_cons, not_or] at hline
      simpa using Ne.symm hline.1
    rw [cons_append, colons_at_copy (nofun : false = true → _), hc, ih fun hmem => hline (by simp [hmem])]
    rfl

theorem trim_words {gap : List Char} (h : Spelled words) (hgap : ∀ c ∈ gap, c = ' ') :
    ((unwords words ++ gap).reverse.dropWhile (· == ' ')).reverse = unwords words := by
  obtain ⟨_, front, last, hlast, hword⟩ := h.ends
  have hspaces : ∀ c ∈ gap.reverse, (c == ' ') = true := by simpa using hgap
  have hname : ((unwords words).reverse.head?.any (· == ' ')) = false := by
    have hclass := (class_of_ascii_word hword).2.2.2.2
    rw [hlast]
    simpa using fun heq => hclass (by simp [heq])
  rw [reverse_append, (take_while_append hspaces hname).2, reverse_reverse]

theorem definition_head_words {gap : List Char} (h : Spelled words)
    (hstart : (unwords words).head?.any startsName = true) (hgap : ∀ c ∈ gap, isSpace c = true)
    (rest : List Char) : definitionHead? (unwords words ++ (gap ++ '=' :: rest)) = some (unwords words, rest) := by
  obtain ⟨⟨c, tail, hchars, _⟩, _⟩ := h.ends
  -- The spaces in front of the first tab are read with the name and cut off again.
  obtain ⟨spaces, tabs, rfl, hspaces, htabs⟩ : ∃ spaces tabs, gap = spaces ++ tabs ∧
      (∀ d ∈ spaces, d = ' ') ∧ (tabs ++ '=' :: rest).head?.any isNamePart = false := by
    have hspaces : ∀ d ∈ gap.takeWhile (· == ' '), (d == ' ') = true := all_eq_true.mp all_takeWhile
    refine ⟨gap.takeWhile (· == ' '), gap.dropWhile (· == ' '), takeWhile_append_dropWhile.symm,
      fun d hd => beq_iff_eq.mp (hspaces d hd), ?_⟩
    have hequals : isNamePart '=' = false := by decide
    have htab : isNamePart '\t' = false := by decide
    have hno := head_drop_while (· == ' ') gap
    cases hdrop : gap.dropWhile (· == ' ') with
    | nil => exact hequals
    | cons d tabs =>
      have hmem : d ∈ gap.dropWhile (· == ' ') := by simp [hdrop]
      have hd : isSpace d = true := hgap d ((dropWhile_sublist _).mem hmem)
      have hne : d ≠ ' ' := by simpa [hdrop] using hno
      have hd' : d = '\t' := by simpa [isSpace, hne] using hd
      simp [hd', htab]
  have hmem : ∀ d ∈ tail ++ spaces, isNamePart d = true := by
    intro d hd
    rcases mem_append.mp hd with hd | hd
    · rcases mem_unwords h.isWord (by rw [hchars]; simp [hd] : d ∈ unwords words) with hd | rfl
      · simp [isNamePart, (class_of_ascii_word hd).1]
      · rfl
    · rw [hspaces d hd]
      rfl
  obtain ⟨htake, hdrop⟩ := take_while_append hmem htabs
  have hequals : (tabs ++ '=' :: rest).dropWhile isSpace = '=' :: rest :=
    (take_while_append (fun d hd => hgap d (by simp [hd])) rfl).2
  have hletter : startsName c = true := by simpa [hchars] using hstart
  have htrim := trim_words h hspaces
  have hspace : (c == ' ') = false := by
    rw [beq_eq_false_iff_ne]
    rintro rfl
    cases hletter
  have hname : c :: ((tail ++ spaces).reverse.dropWhile (· == ' ')).reverse = unwords words := by
    rw [← htrim, hchars, cons_append, reverse_cons, dropWhile_append]
    split
    · next hempty =>
      rw [isEmpty_iff.mp hempty]
      simp [hspace]
    · simp
  rw [hchars, append_assoc, cons_append, definitionHead?, if_pos hletter, ← append_assoc, htake, hdrop, hequals]
  simp only [hname, hchars]

def Marks.headed : Marks := { Marks.ebnf with define := [' ', ':', ' '] }

theorem not_mem_unwords (h : ∀ word ∈ words, IsWord word) (hword : isAsciiWord c = false) (hspace : c ≠ ' ') :
    c ∉ unwords words := by
  intro hmem
  rcases mem_unwords h hmem with hc | hc
  · exact absurd hc (by simp [hword])
  · exact hspace hc

theorem not_mem_written (hspell : ∀ rule, Spelled (spell rule)) (htext : lexeme.isText = false)
    (h : (lexeme.written marks fun _ => []).contains c = false) (hc : isAsciiWord c = false ∧ c ≠ ' ') :
    c ∉ lexeme.written marks spell := by
  have hname := fun rule => not_mem_unwords (hspell rule).isWord hc.1 hc.2
  have hmarks : c ∉ lexeme.written marks fun _ => [] := by simpa using h
  cases lexeme with
  | text quoted => cases htext
  | name rule => exact hname rule
  | head rule => exact fun hmem => (mem_append.mp hmem).elim (hname rule) hmarks
  | _ => exact hmarks

theorem no_break_in_written (hstop : lexeme.isStop = false) : '\n' ∉ lexeme.written .ebnf RuleName.words := by
  cases lexeme with
  | stop => cases hstop
  | text quoted =>
    have htext : '\n' ∉ quoted.chars := fun hmem => (quoted.plain _ hmem).2.2 rfl
    simp [written, htext]
  | _ => exact not_mem_written RuleName.spelled rfl rfl (by decide)

theorem after_equals_factor (h : text.head?.all startsFactor = true) : afterEquals (' ' :: text) = (text, false) := by
  have hspace : isSpace ' ' = true := rfl
  cases text with
  | nil => rfl
  | cons c rest =>
    have hc : startsFactor c = true := h
    obtain ⟨hnone, _, hmem⟩ := class_of_starts_factor hc
    simp only [afterEquals, dropWhile_cons, hspace, if_true, hnone]
    split
    · next heq =>
      rw [(List.cons.inj heq).1] at hmem
      simp at hmem
    · rfl

theorem colons_printed (hjoined : Joined before lexemes) :
    colonsAt before.isStop (printed .ebnf RuleName.words lexemes) = printed .headed RuleName.words lexemes := by
  induction lexemes generalizing before with
  | nil => rfl
  | cons next rest ih =>
    obtain ⟨hadmits, hrest⟩ := hjoined
    have hnext := ih hrest
    rw [printed_cons, printed_cons]
    cases hstop : before.isStop with
    | true =>
      -- A line starts with the name of a rule.
      have hhead : next.isHead = true := by simpa [admits, hstop] using hadmits
      cases next with
      | head rule =>
        have hbody := after_equals_factor
          (printed_starts .ebnf RuleName.spelled rfl (.inl rfl) hrest)
        have hgap : ∀ c ∈ [' '], isSpace c = true := by simp [isSpace]
        have hdefined := colons_at_defined (definition_head_words rule.spelled rule.startsName hgap
          (' ' :: printed .ebnf RuleName.words rest))
        rw [hbody] at hdefined
        have hcopy : colonsAt false (printed .ebnf RuleName.words rest) = printed .headed RuleName.words rest := hnext
        rw [hcopy] at hdefined
        show colonsAt true ((unwords rule.words ++ [' ', '=', ' ']) ++ _) = (unwords rule.words ++ [' ', ':', ' ']) ++ _
        rw [append_assoc]
        exact hdefined
      | _ => cases hhead
    | false =>
      cases next with
      | head rule => simp [admits, hstop, opens, follows] at hadmits
      | stop =>
        have hbreak : colonsAt false (';' :: '\n' :: printed .ebnf RuleName.words rest) =
            ';' :: '\n' :: colonsAt true (printed .ebnf RuleName.words rest) := rfl
        exact hbreak.trans (congrArg (';' :: '\n' :: ·) hnext)
      | _ =>
        rw [colons_at_line (no_break_in_written rfl)]
        exact congrArg (_ ++ ·) hnext

/-! ## Quoted texts -/

theorem QuotedText.closes (quoted : QuotedText) (after : List Char) : Closes ('"' :: quoted.chars ++ ['"']) after := by
  show Closes ('"' :: (quoted.chars ++ ['"'])) after
  refine .quoted ?_
  have hplain := quoted.plain
  generalize quoted.chars = chars at hplain
  induction chars with
  | nil => rfl
  | cons c chars ih =>
    obtain ⟨hquote, hslash, _⟩ := hplain c (by simp)
    have hrest := ih fun d hd => hplain d (by simp [hd])
    rw [cons_append, cons_append, escaped_literal_cons hslash, if_neg hquote, hrest]

theorem QuotedText.steady (quoted : QuotedText) : steady ('"' :: quoted.chars ++ ['"']) = true := by
  have hplain := quoted.plain
  generalize quoted.chars = chars at hplain
  -- The quote at the end keeps every line of the text from ending.
  have hends : ∀ chars : List Char, (∀ c ∈ chars, c ≠ '\n') → endsLine (chars ++ ['"']) = false := by
    intro chars hchars
    induction chars with
    | nil => rfl
    | cons c chars ih =>
      cases hc : isSpace c with
      | true => simpa [endsLine, hc] using ih fun d hd => hchars d (by simp [hd])
      | false => simpa [endsLine, hc] using hchars c (by simp)
  have hrest : steadyFrom false (chars ++ ['"']) = true := by
    induction chars with
    | nil => rfl
    | cons c chars ih =>
      have hnext := ih fun d hd => hplain d (by simp [hd])
      have hc : (c == '\n') = false := by simpa using (hplain c (by simp)).2.2
      have hline := hends chars fun d hd => (hplain d (by simp [hd])).2.2
      simp [steadyFrom, hc, hline, hnext]
  have hline := hends chars fun d hd => (hplain d hd).2.2
  have hbreak : ('"' == '\n') = false := rfl
  simp [Ebnf.steady, steadyFrom, hline, hbreak, hrest]

theorem QuotedText.clear (quoted : QuotedText) (after : List Char) : Clear ('"' :: quoted.chars ++ ['"']) after :=
  ⟨⟨quoted.steady, rfl⟩, fun hcomment => by cases hcomment⟩

theorem cut_code_append {fits : List Char → List Char → Prop} {code : List Char}
    {literals : List (List Char)} (hcode : Plain code) (h : Cut fits text literals) :
    Cut fits (code ++ text) literals := by
  cases h with
  | code htext => exact .code (plain_append.mpr ⟨hcode, htext⟩)
  | literal hfirst hcloses hfits hafter =>
    rw [← append_assoc]
    exact .literal (plain_append.mpr ⟨hcode, hfirst⟩) hcloses hfits hafter

structure Marks.Plain (marks : Marks) : Prop where
  define : Segment.Plain marks.define
  comma : Segment.Plain marks.comma
  stop : Segment.Plain marks.stop
  openMany : Segment.Plain marks.openMany
  closeMany : Segment.Plain marks.closeMany
  closeSome : Segment.Plain marks.closeSome

theorem plain_words (h : ∀ word ∈ words, IsWord word) : Plain (unwords words) := by
  intro c hc
  rcases mem_unwords h hc with hword | rfl
  · exact (class_of_ascii_word hword).2.2.2.1
  · rfl

theorem plain_written (hmarks : marks.Plain) (hspell : ∀ rule, Spelled (spell rule))
    (htext : lexeme.isText = false) : Plain (lexeme.written marks spell) := by
  cases lexeme with
  | head rule => exact plain_append.mpr ⟨plain_words (hspell rule).isWord, hmarks.define⟩
  | name rule => exact plain_words (hspell rule).isWord
  | text => cases htext
  | comma => exact hmarks.comma
  | openMany => exact hmarks.openMany
  | closeMany => exact hmarks.closeMany
  | closeSome => exact hmarks.closeSome
  | stop => exact hmarks.stop
  | _ => simp [written, Plain, opensLiteral]

theorem cut_printed (hmarks : marks.Plain) (hspell : ∀ rule, Spelled (spell rule))
    (lexemes : List Lexeme) : ∃ literals, Cut Clear (printed marks spell lexemes) literals := by
  induction lexemes with
  | nil => exact ⟨[], .code (by simp [printed, Plain])⟩
  | cons next rest ih =>
    obtain ⟨literals, hcut⟩ := ih
    cases next with
    | text quoted =>
      have hcode : Plain [] := by simp [Plain]
      exact ⟨_, .literal hcode (quoted.closes _) (quoted.clear _) hcut⟩
    | _ => exact ⟨literals, cut_code_append (plain_written hmarks hspell rfl) hcut⟩

theorem joined_append {first : List Lexeme} (h : Joined before (first ++ lexemes)) :
    Joined before first ∧ ∃ last, Joined last lexemes := by
  induction first generalizing before with
  | nil => exact ⟨trivial, before, h⟩
  | cons next rest ih =>
    obtain ⟨hrest, last⟩ := ih h.2
    exact ⟨⟨h.1, hrest⟩, last⟩

theorem plain_printed (hmarks : marks.Plain) (hspell : ∀ rule, Spelled (spell rule))
    (h : ∀ lexeme ∈ lexemes, lexeme.isText = false) : Plain (printed marks spell lexemes) := by
  intro c hc
  obtain ⟨lexeme, hlexeme, hmem⟩ := mem_flatMap.mp hc
  exact plain_written hmarks hspell (h lexeme hlexeme) c hmem

theorem map_code_printed {marks' : Marks} {spell' : RuleName → List (List Char)}
    {f : List Char → List Char} (hmarks : marks.Plain) (hspell : ∀ rule, Spelled (spell rule))
    (hpiece : ∀ before piece, piece <:+: lexemes → Joined before piece → (∀ lexeme ∈ piece, lexeme.isText = false) →
      f (printed marks spell piece) = printed marks' spell' piece)
    (hjoined : Joined before lexemes) :
    mapCode f (printed marks spell lexemes) = printed marks' spell' lexemes := by
  have hcode : ∀ before piece, piece <:+: lexemes → Joined before piece → (∀ lexeme ∈ piece, lexeme.isText = false) →
      mapCode f (printed marks spell piece) = printed marks' spell' piece := by
    intro before piece hwithin hjoined hcode
    rw [map_code_of_plain f (plain_printed hmarks hspell hcode), ← hpiece before piece hwithin hjoined hcode]
    split
    · next hempty =>
      have hnone := hpiece before [] nil_infix trivial (by simp)
      rw [isEmpty_iff.mp hempty]
      exact hnone.symm
    · rfl
  -- The piece of code that has been passed over, and the lexemes that are left.
  suffices hsplit : ∀ (rest piece : List Lexeme) (before : Lexeme), piece ++ rest <:+: lexemes →
      Joined before (piece ++ rest) → (∀ lexeme ∈ piece, lexeme.isText = false) →
      mapCode f (printed marks spell (piece ++ rest)) = printed marks' spell' (piece ++ rest) from
    hsplit lexemes [] before (infix_refl _) hjoined (by simp)
  intro rest
  induction rest with
  | nil =>
    intro piece before hwithin hjoined htexts
    rw [append_nil] at hwithin hjoined ⊢
    exact hcode before piece hwithin hjoined htexts
  | cons next rest ih =>
    intro piece before hwithin hjoined htexts
    cases next with
    | text quoted =>
      obtain ⟨hfirst, last, hlast⟩ := joined_append hjoined
      have hbefore : piece <:+: lexemes := (prefix_append piece (.text quoted :: rest)).isInfix.trans hwithin
      have hafter : rest <:+: lexemes := ((suffix_cons _ _).trans (suffix_append piece _)).isInfix.trans hwithin
      have hrest := ih [] (.text quoted) hafter hlast.2 (by simp)
      have hliteral := map_code_of_literal f (plain_printed hmarks hspell htexts)
        (quoted.closes (printed marks spell rest))
      rw [nil_append] at hrest
      rw [hcode before piece hbefore hfirst htexts, hrest] at hliteral
      simp only [printed, flatMap_append, flatMap_cons] at hliteral ⊢
      exact hliteral
    | _ =>
      have hmore := ih (piece ++ [_]) before (by simpa using hwithin) (by simpa using hjoined)
        (forall_mem_append.mpr ⟨htexts, by simp [isText]⟩)
      simpa using hmore

/-! ## Commas -/

def Marks.spaced : Marks := { Marks.headed with comma := [' '] }

theorem Marks.headed_plain : Marks.headed.Plain := by
  constructor <;> simp [Marks.headed, Marks.ebnf, Segment.Plain, opensLiteral]

theorem leads_to_comma_of_starts (h : text.head?.all startsFactor = true) : leadsToComma text = false := by
  cases text with
  | nil => rfl
  | cons c rest =>
    obtain ⟨_, hblank, hmem⟩ := class_of_starts_factor (by simpa using h : startsFactor c = true)
    have hcomma : c ≠ ',' := fun heq => hmem (by simp [heq])
    rw [leads_to_comma_cons, hblank]
    simpa using hcomma

theorem leads_to_comma_of_not_mem {rest : List Char} (htext : text ≠ []) (hcomma : ',' ∉ text)
    (hlast : text.getLast?.any isBlank = true → leadsToComma rest = false) :
    leadsToComma (text ++ rest) = false := by
  induction text with
  | nil => exact absurd rfl htext
  | cons c text ih =>
    have hc : c ≠ ',' := fun heq => hcomma (by simp [heq])
    rw [cons_append, leads_to_comma_cons]
    cases hblank : isBlank c with
    | false => simpa using hc
    | true =>
      cases text with
      | nil => exact hlast hblank
      | cons d text =>
        exact ih (by simp) (fun hmem => hcomma (by simp [hmem])) hlast

theorem spaced_code_copy {rest : List Char} (hcomma : ',' ∉ text)
    (hlast : text.getLast?.any isBlank = true → leadsToComma rest = false) :
    spacedCode false (text ++ rest) = text ++ spacedCode false rest := by
  induction text with
  | nil => rfl
  | cons c text ih =>
    have hc : c ≠ ',' := fun heq => hcomma (by simp [heq])
    have hcomma' : ',' ∉ text := fun hmem => hcomma (by simp [hmem])
    have hleads : (isBlank c && (false || leadsToComma (text ++ rest))) = false := by
      cases hblank : isBlank c with
      | false => rfl
      | true =>
        cases text with
        | nil => simpa using hlast hblank
        | cons d text =>
          simpa using leads_to_comma_of_not_mem (by simp) hcomma' hlast
    have hrest : spacedCode false (text ++ rest) = text ++ spacedCode false rest := by
      cases text with
      | nil => rfl
      | cons d text => exact ih hcomma' hlast
    rw [cons_append, spacedCode, if_neg hc, hleads, hrest]
    rfl

theorem spaced_code_of_starts (h : text.head?.all startsFactor = true) :
    spacedCode true text = spacedCode false text := by
  cases text with
  | nil => rfl
  | cons c rest =>
    obtain ⟨_, hblank, _⟩ := class_of_starts_factor (by simpa using h : startsFactor c = true)
    simp [spacedCode, hblank]

def Lexeme.isComma : Lexeme → Bool
  | .comma => true
  | _ => false

theorem no_comma_in_written (htext : lexeme.isText = false) (hcomma : lexeme.isComma = false) :
    ',' ∉ lexeme.written .headed RuleName.words ∧
      ((lexeme.written .headed RuleName.words).getLast?.any isBlank = true →
        lexeme.awaits = true ∨ lexeme.isStop = true) := by
  refine ⟨?_, ?_⟩
  · cases lexeme with
    | text => cases htext
    | comma => cases hcomma
    | _ => exact not_mem_written RuleName.spelled rfl rfl (by decide)
  · cases lexeme with
    | name rule =>
      obtain ⟨_, front, c, hchars, hc⟩ := rule.spelled.ends
      have hblank := (class_of_ascii_word hc).2.1
      simp [written, hchars, hblank]
    | head | bar | openGroup | openOption | openMany => exact fun _ => .inl rfl
    | stop => exact fun _ => .inr rfl
    | text => cases htext
    | comma => cases hcomma
    | _ => exact fun hblank => absurd hblank (by decide)

theorem spaced_code_printed (hjoined : Joined before lexemes) (hcode : ∀ lexeme ∈ lexemes, lexeme.isText = false) :
    spacedCode false (printed .headed RuleName.words lexemes) = printed .spaced RuleName.words lexemes := by
  induction lexemes generalizing before with
  | nil => rfl
  | cons next rest ih =>
    have hrest := ih hjoined.2 fun lexeme hlexeme => hcode lexeme (by simp [hlexeme])
    have hstarts : next.awaits = true ∨ next.isStop = true →
        (printed .headed RuleName.words rest).head?.all startsFactor = true :=
      fun hnext => printed_starts .headed RuleName.spelled rfl hnext hjoined.2
    rw [printed_cons, printed_cons]
    cases next with
    | comma =>
      have hnext := hstarts (.inl rfl)
      have hblank : isBlank ' ' = true := by decide
      have hleads : leadsToComma (' ' :: printed .headed RuleName.words rest) = false := by
        rw [leads_to_comma_cons, hblank, if_pos rfl]
        exact leads_to_comma_of_starts hnext
      have hskip : spacedCode false (',' :: ' ' :: printed .headed RuleName.words rest) =
          ' ' :: spacedCode true (printed .headed RuleName.words rest) := by
        simp [spacedCode, hleads, hblank]
      show spacedCode false (',' :: ' ' :: printed .headed RuleName.words rest) =
        ' ' :: printed .spaced RuleName.words rest
      rw [hskip, spaced_code_of_starts hnext, hrest]
    | _ =>
      obtain ⟨hnone, hlast⟩ := no_comma_in_written (hcode _ mem_cons_self) rfl
      rw [spaced_code_copy hnone fun hblank => leads_to_comma_of_starts (hstarts (hlast hblank)), hrest]
      rfl

theorem spaced_items_printed (hjoined : Joined before lexemes) :
    spacedItems (printed .headed RuleName.words lexemes) = printed .spaced RuleName.words lexemes := by
  obtain ⟨literals, hcut⟩ := cut_printed Marks.headed_plain RuleName.spelled lexemes
  rw [spaced_items_eq_map_code hcut]
  exact map_code_printed Marks.headed_plain RuleName.spelled
    (fun before piece _ hpiece hcode => spaced_code_printed hpiece hcode) hjoined

/-! ## Semicolons, bars and braces -/

def Marks.ended : Marks := { Marks.spaced with stop := ['\n'] }

def Marks.converted : Marks := { Marks.ended with openMany := ['('], closeMany := [')', '*'], closeSome := [')', '+'] }

theorem drop_terminators_printed (lexemes : List Lexeme) :
    dropTerminatorsFrom false (printed .spaced RuleName.words lexemes) = printed .ended RuleName.words lexemes := by
  induction lexemes with
  | nil => rfl
  | cons next rest ih =>
    rw [printed_cons, printed_cons, ← ih]
    cases next with
    | text quoted => exact skims_terminators.on_literal quoted.steady _
    | stop => rfl
    | _ => exact skims_terminators.copy (not_mem_written RuleName.spelled rfl rfl (by decide)) _

theorem breaks_line_of_starts (h : text.head?.all startsFactor = true) : breaksLine (' ' :: text) = false := by
  have hspace : isSpace ' ' = true := rfl
  cases text with
  | nil => rfl
  | cons c rest =>
    obtain ⟨hnone, _, hmem⟩ := class_of_starts_factor (by simpa using h : startsFactor c = true)
    have hbreak : c ≠ '\n' := fun heq => hmem (by simp [heq])
    simpa [breaksLine, hspace, hnone] using hbreak

theorem join_alternatives_printed (hjoined : Joined before lexemes) :
    joinAlternativesFrom false (printed .ended RuleName.words lexemes) = printed .ended RuleName.words lexemes := by
  induction lexemes generalizing before with
  | nil => rfl
  | cons next rest ih =>
    have hrest := ih hjoined.2
    rw [printed_cons]
    suffices hcopy : joinAlternativesFrom false (next.written .ended RuleName.words ++
        printed .ended RuleName.words rest) = next.written .ended RuleName.words ++
          joinAlternativesFrom false (printed .ended RuleName.words rest) by
      rw [hcopy, hrest]
    cases next with
    | text quoted => exact skims_alternatives.on_literal quoted.steady _
    | bar =>
      have hline := breaks_line_of_starts
        (printed_starts .ended RuleName.spelled rfl (.inl rfl) hjoined.2)
      show joinAlternativesFrom false (' ' :: '|' :: ' ' :: _) = ' ' :: '|' :: ' ' :: _
      simp [joinAlternativesFrom, hline]
    | _ => exact skims_alternatives.copy (not_mem_written RuleName.spelled rfl rfl (by decide)) _

theorem starred_copy (h : '\x7b' ∉ text ∧ '\x7d' ∉ text) (rest : List Char) :
    starred (text ++ rest) = text ++ starred rest := by
  induction text with
  | nil => rfl
  | cons c text ih =>
    simp only [mem_cons, not_or] at h
    obtain ⟨⟨hopen, hopen'⟩, hclose, hclose'⟩ := h
    rw [cons_append, cons_append, ← ih ⟨hopen', hclose'⟩]
    rw [starred.eq_5 c _ (fun _ heq _ => hclose heq.symm) (fun heq => hclose heq.symm) (fun heq => hopen heq.symm)]

theorem no_dash_behind_brace (hjoined : Joined .closeMany lexemes) :
    (printed .ended RuleName.words lexemes).head? ≠ some '-' := by
  cases lexemes with
  | nil => simp [printed]
  | cons next rest =>
    have hfollows : next.follows = true := by
      simpa [admits, isStop, awaits] using hjoined.1
    cases next <;> first | (cases hfollows; done) | exact fun heq => by cases heq

theorem starred_printed (hjoined : Joined before lexemes) (hcode : ∀ lexeme ∈ lexemes, lexeme.isText = false) :
    starred (printed .ended RuleName.words lexemes) = printed .converted RuleName.words lexemes := by
  induction lexemes generalizing before with
  | nil => rfl
  | cons next rest ih =>
    rw [printed_cons, printed_cons, ← ih hjoined.2 fun lexeme hlexeme => hcode lexeme (by simp [hlexeme])]
    cases next with
    | text quoted => cases hcode (.text quoted) (by simp)
    | openMany => rfl
    | closeSome => rfl
    | closeMany =>
      have hdash := no_dash_behind_brace hjoined.2
      have hstar : starred ('\x7d' :: printed .ended RuleName.words rest) =
          ')' :: '*' :: starred (printed .ended RuleName.words rest) := by
        apply starred.eq_3
        intro tail heq
        exact hdash (by simp [heq])
      exact hstar
    | _ =>
      exact starred_copy
        ⟨not_mem_written RuleName.spelled rfl rfl (by decide), not_mem_written RuleName.spelled rfl rfl (by decide)⟩ _

theorem change_layout_printed (hjoined : Joined .stop lexemes) :
    Conversion.changeLayout (printed .ebnf RuleName.words lexemes) = printed .converted RuleName.words lexemes := by
  have hended : Marks.ended.Plain := by
    constructor <;> simp [Marks.ended, Marks.spaced, Marks.headed, Marks.ebnf, Segment.Plain, opensLiteral]
  have hcolons : colons (printed .ebnf RuleName.words lexemes) = printed .headed RuleName.words lexemes :=
    colons_printed hjoined
  unfold Conversion.changeLayout
  rw [hcolons, spaced_items_printed hjoined]
  show mapCode starred (joinAlternativesFrom false (dropTerminatorsFrom false _)) = _
  rw [drop_terminators_printed, join_alternatives_printed hjoined]
  exact map_code_printed hended RuleName.spelled
    (fun before piece _ hpiece hcode => starred_printed hpiece hcode) hjoined

end FlightProcedure.Ebnf
