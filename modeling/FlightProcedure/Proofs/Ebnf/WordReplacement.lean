import FlightProcedure.Proofs.Ebnf.PrintedLayout

/-!
# Replacing a name in a written grammar

A name that consists of words is found where its words are found. `replace_word_printed` says that a
replacement changes exactly the references to one rule, if the words of its name cannot be read at any
other place of the text.
-/

namespace FlightProcedure.Ebnf

open Segment List Lexeme Marks

variable {c : Char} {words name : List (List Char)} {new text tail : List Char} {before : Option Char}

/-! ## Words in a text -/

def glue : List (List Char) → List Char
  | [] => []
  | words => ' ' :: unwords words

theorem unwords_append (more : List (List Char)) (h : words ≠ []) :
    unwords (words ++ more) = unwords words ++ glue more := by
  induction words with
  | nil => exact absurd rfl h
  | cons word rest ih =>
    cases rest with
    | nil =>
      cases more with
      | nil => simp [unwords, glue]
      | cons next more => rfl
    | cons next rest =>
      rw [cons_append, unwords_cons (by simp), unwords_cons (by simp), ih (by simp)]
      simp

theorem unwords_glue (word : List Char) (more : List (List Char)) : unwords (word :: more) = word ++ glue more :=
  unwords_append more (by simp : [word] ≠ [])

/-- `Apart text` says that no word goes on in a text, and no further word follows after a space. -/
def Apart (text : List Char) : Prop :=
  text.head?.any isWordChar = false ∧ ∀ rest, text = ' ' :: rest → rest.head?.any isWordChar = false

theorem space_no_word : isWordChar ' ' = false := by decide

theorem glue_head (htail : Apart tail) (more : List (List Char)) :
    (glue more ++ tail).head?.any isWordChar = false := by
  cases more with
  | nil => exact htail.1
  | cons next more => exact space_no_word

variable {word rest : List Char} {target : RuleName → Bool} {rule : RuleName} {more : List (List Char)}

theorem word_inj {other rest' : List Char} (hword : IsWord word) (hother : IsWord other)
    (hrest : rest.head?.any isWordChar = false) (hrest' : rest'.head?.any isWordChar = false)
    (h : word ++ rest = other ++ rest') : word = other ∧ rest = rest' := by
  have hchars : ∀ {word : List Char}, IsWord word → ∀ c ∈ word, isWordChar c = true :=
    fun hword c hc => (class_of_ascii_word (hword.2 c hc)).1
  obtain ⟨htake, hdrop⟩ := take_while_append (hchars hword) hrest
  obtain ⟨htake', hdrop'⟩ := take_while_append (hchars hother) hrest'
  rw [h] at htake hdrop
  exact ⟨htake.symm.trans htake', hdrop.symm.trans hdrop'⟩

theorem prefix_of_unwords (hname : ∀ word ∈ name, IsWord word) (hwords : ∀ word ∈ words, IsWord word)
    (hne : words ≠ []) (htail : Apart tail) (hrest : rest.head?.any isWordChar = false)
    (h : unwords name ++ rest = unwords words ++ tail) : name <+: words := by
  induction name generalizing words with
  | nil => exact nil_prefix
  | cons word name ih =>
    cases words with
    | nil => exact absurd rfl hne
    | cons other words =>
      rw [unwords_glue, unwords_glue, append_assoc, append_assoc] at h
      have hhead : (glue name ++ rest).head?.any isWordChar = false := by
        cases name with
        | nil => exact hrest
        | cons next name => exact space_no_word
      obtain ⟨rfl, hmore⟩ := word_inj (hname word (by simp)) (hwords other (by simp)) hhead
        (glue_head htail words) h
      refine cons_prefix_cons.mpr ⟨rfl, ?_⟩
      cases name with
      | nil => exact nil_prefix
      | cons next name =>
        have hspelled : Spelled (next :: name) := ⟨by simp, fun w hw => hname w (by simp [hw])⟩
        obtain ⟨d, more, hchars, hd⟩ := hspelled.ends.1
        cases words with
        | nil =>
          -- A further word would follow in the tail.
          have hgoes := htail.2 (unwords (next :: name) ++ rest) hmore.symm
          rw [hchars] at hgoes
          simp [(class_of_ascii_word hd).1] at hgoes
        | cons other words =>
          refine ih (fun w hw => hname w (by simp [hw])) (fun w hw => hwords w (by simp [hw]))
            (by simp) ?_
          exact (cons.inj hmore).2

theorem starts_with_words (hname : Spelled name) (hwords : ∀ word ∈ words, IsWord word)
    (hne : words ≠ []) (htail : Apart tail) (hbefore : before.any isWordChar = false) :
    startsWithWord (unwords name) before (unwords words ++ tail) = true ↔ name <+: words := by
  obtain ⟨⟨d, more, hchars, hd⟩, front, last, hlast, hlastWord⟩ := hname.ends
  constructor
  · intro h
    simp only [startsWithWord, Bool.and_eq_true] at h
    obtain ⟨⟨hbegins, _⟩, hedge⟩ := h
    obtain ⟨rest, hrest⟩ := isPrefixOf_iff_prefix.mp hbegins
    have hdrop : (unwords words ++ tail).drop (unwords name).length = rest := by
      rw [← hrest, drop_left]
    have hend : rest.head?.any isWordChar = false := by
      rw [hdrop, hlast] at hedge
      simpa [isWordEdge, (class_of_ascii_word hlastWord).1] using hedge
    exact prefix_of_unwords hname.isWord hwords hne htail hend hrest
  · rintro ⟨rest, rfl⟩
    have htext : unwords (name ++ rest) ++ tail = unwords name ++ (glue rest ++ tail) := by
      rw [unwords_append rest hname.ne_nil, append_assoc]
    have hstart : isWordEdge before (unwords name ++ (glue rest ++ tail)).head? = true := by
      rw [hchars]
      simp [isWordEdge, hbefore, (class_of_ascii_word hd).1]
    have hend : isWordEdge (unwords name).getLast? (glue rest ++ tail).head? = true := by
      have hnext := glue_head htail rest
      rw [hlast]
      simp only [isWordEdge, hnext]
      simp [(class_of_ascii_word hlastWord).1]
    rw [htext]
    simp only [startsWithWord, hstart, drop_left, hend, Bool.and_true]
    exact isPrefixOf_iff_prefix.mpr (prefix_append _ _)

/-! ## The scan of a text -/

theorem replace_word_inside (hword : ∀ d ∈ text, isWordChar d = true) (hbefore : isWordChar c = true)
    (rest : List Char) :
    replaceWordFrom word new 0 (some c) (text ++ rest) =
      text ++ replaceWordFrom word new 0 (some ((c :: text).getLast (by simp))) rest := by
  induction text generalizing c with
  | nil => rfl
  | cons d text ih =>
    have hd : isWordChar d = true := hword d (by simp)
    have hedge : startsWithWord word (some c) (d :: (text ++ rest)) = false := by
      simp [startsWithWord, isWordEdge, hbefore, hd]
    rw [cons_append, replaceWordFrom, if_neg (by simp [hedge]), ih (fun e he => hword e (by simp [he])) hd]
    simp

theorem replace_word_marks (hname : Spelled name) (htext : ∀ d ∈ text, isWordChar d = false)
    (before : Option Char) (rest : List Char) :
    replaceWordFrom (unwords name) new 0 before (text ++ rest) =
      text ++ replaceWordFrom (unwords name) new 0 (text.getLast?.or before) rest := by
  obtain ⟨⟨d, more, hchars, hd⟩, _⟩ := hname.ends
  induction text generalizing before with
  | nil => rfl
  | cons c text ih =>
    have hc : isWordChar c = false := htext c (by simp)
    have hne : d ≠ c := by
      rintro rfl
      rw [(class_of_ascii_word hd).1] at hc
      cases hc
    have hnone : startsWithWord (unwords name) before (c :: (text ++ rest)) = false := by
      simp [startsWithWord, hchars, hne]
    rw [cons_append, replaceWordFrom, if_neg (by simp [hnone]), ih (fun e he => htext e (by simp [he]))]
    cases text <;> rfl

theorem replace_word_skip (text rest : List Char) (before : Option Char) :
    replaceWordFrom word new text.length before (text ++ rest) =
      replaceWordFrom word new 0 (text.getLast?.or before) rest := by
  induction text generalizing before with
  | nil => rfl
  | cons c text ih =>
    rw [length_cons, cons_append, replaceWordFrom, ih]
    cases text <;> rfl

theorem replace_word_found (hname : Spelled name) (hwords : ∀ word ∈ words, IsWord word)
    (htail : Apart tail) (hbefore : before.any isWordChar = false) :
    replaceWordFrom (unwords name) new 0 before (unwords (name ++ words) ++ tail) =
      new ++ replaceWordFrom (unwords name) new 0 (unwords name).getLast? (glue words ++ tail) := by
  have hall : ∀ word ∈ name ++ words, IsWord word := by
    intro word hword
    exact (mem_append.mp hword).elim (hname.isWord word) (hwords word)
  have hfound := (starts_with_words hname hall (by simp [hname.ne_nil]) htail hbefore).mpr
    (prefix_append _ _)
  obtain ⟨⟨d, more, hchars, hd⟩, _⟩ := hname.ends
  have htext : unwords (name ++ words) ++ tail = d :: (more ++ (glue words ++ tail)) := by
    rw [unwords_append words hname.ne_nil, hchars]
    simp
  have hlength : (unwords name).length - 1 = more.length := by simp [hchars]
  rw [htext] at hfound ⊢
  rw [replaceWordFrom, if_pos hfound, hlength, replace_word_skip, hchars]
  cases more <;> rfl

theorem replace_word_word (hword : IsWord word)
    (hnone : startsWithWord (unwords name) before (word ++ rest) = false) :
    replaceWordFrom (unwords name) new 0 before (word ++ rest) =
      word ++ replaceWordFrom (unwords name) new 0 word.getLast? rest := by
  obtain ⟨hne, hchars⟩ := hword
  cases word with
  | nil => exact absurd rfl hne
  | cons c word =>
    have hc : isWordChar c = true := (class_of_ascii_word (hchars c (by simp))).1
    rw [cons_append] at hnone ⊢
    rw [replaceWordFrom, if_neg (by simp [hnone]),
      replace_word_inside (fun d hd => (class_of_ascii_word (hchars d (by simp [hd]))).1) hc, getLast?_eq_some_getLast]
    rfl

theorem replace_word_copy (hname : Spelled name) (hwords : Spelled words) (hmore : ∀ word ∈ more, IsWord word)
    (htail : Apart tail) (hbefore : before.any isWordChar = false)
    (hno : ∀ skipped < words.length, ¬ name <+: (words ++ more).drop skipped) :
    replaceWordFrom (unwords name) new 0 before (unwords (words ++ more) ++ tail) =
      unwords words ++ replaceWordFrom (unwords name) new 0 (unwords words).getLast?
        (glue more ++ tail) := by
  obtain ⟨hne, hisWord⟩ := hwords
  induction words generalizing before with
  | nil => exact absurd rfl hne
  | cons word rest ih =>
    have hall : ∀ w ∈ word :: (rest ++ more), IsWord w := by
      intro w hw
      exact (mem_append.mp hw).elim (hisWord w) (hmore w)
    have hnone : startsWithWord (unwords name) before (word ++ (glue (rest ++ more) ++ tail)) = false := by
      rw [← append_assoc, ← unwords_glue]
      rw [Bool.eq_false_iff, ne_eq, starts_with_words hname hall (by simp) htail hbefore]
      exact hno 0 (by simp)
    rw [cons_append, unwords_glue, append_assoc, replace_word_word (hisWord word (by simp)) hnone]
    cases rest with
    | nil => rfl
    | cons next rest =>
      have hspelled : Spelled (next :: rest) := ⟨by simp, fun w hw => hisWord w (by simp [hw])⟩
      have hlater : ∀ skipped < (next :: rest).length, ¬ name <+: ((next :: rest) ++ more).drop skipped := by
        intro skipped hskipped
        simpa using hno (skipped + 1) (by simpa using hskipped)
      have hnext : replaceWordFrom (unwords name) new 0 (some ' ') (unwords (next :: rest ++ more) ++ tail) =
          unwords (next :: rest) ++ replaceWordFrom (unwords name) new 0
            (unwords (next :: rest)).getLast? (glue more ++ tail) :=
        ih space_no_word hlater (by simp) hspelled.isWord
      have hspace : ∀ d ∈ [' '], isWordChar d = false := by simp [space_no_word]
      have hglue : glue (next :: rest ++ more) ++ tail = [' '] ++ (unwords (next :: rest ++ more) ++ tail) := rfl
      have hor : ([' '] : List Char).getLast?.or word.getLast? = some ' ' := rfl
      have hcons : unwords (word :: next :: rest) = word ++ ' ' :: unwords (next :: rest) := rfl
      have hlast : (unwords (word :: next :: rest)).getLast? = (unwords (next :: rest)).getLast? := by
        obtain ⟨_, front, last, hchars, _⟩ := hspelled.ends
        have htext : word ++ ' ' :: (front ++ [last]) = (word ++ ' ' :: front) ++ [last] := by simp
        rw [hcons, hchars, htext, getLast?_concat, getLast?_concat]
      rw [hglue, replace_word_marks hname hspace, hor, hnext, hlast, hcons]
      simp only [append_assoc, cons_append, nil_append]

/-! ## The lexemes of a text -/

variable {spell : RuleName → List (List Char)} {lexemes : List Lexeme}

/-- The words of the references that are written next to each other at the start of some lexemes. -/
def rowWords (spell : RuleName → List (List Char)) (lexemes : List Lexeme) : List (List Char) :=
  (neighbours lexemes).flatMap spell

theorem row_words_words (hspell : ∀ rule, Spelled (spell rule)) (lexemes : List Lexeme) :
    ∀ word ∈ rowWords spell lexemes, IsWord word := by
  intro word hword
  obtain ⟨rule, _, hmem⟩ := mem_flatMap.mp hword
  exact (hspell rule).isWord word hmem

theorem apart_of_follows (hjoined : Joined (.name rule) lexemes)
    (hcomma : lexemes.head?.any isComma = false) : Apart (printed .converted spell lexemes) := by
  cases lexemes with
  | nil => exact ⟨rfl, fun rest h => by cases h⟩
  | cons next rest =>
    have hfollows : next.follows = true := by
      simpa [admits, isStop, awaits] using hjoined.1
    have hbar : isWordChar '|' = false := by decide
    have hclose : isWordChar ')' = false ∧ isWordChar ']' = false ∧ isWordChar '\n' = false := by
      decide
    cases next with
    | comma => cases hcomma
    | bar =>
      refine ⟨space_no_word, fun more h => ?_⟩
      obtain rfl := (cons.inj h).2
      exact hbar
    | closeGroup | closeMany | closeSome => exact ⟨hclose.1, fun _ h => absurd (cons.inj h).1 (by decide)⟩
    | closeOption => exact ⟨hclose.2.1, fun _ h => absurd (cons.inj h).1 (by decide)⟩
    | stop => exact ⟨hclose.2.2, fun _ h => absurd (cons.inj h).1 (by decide)⟩
    | _ => cases hfollows

theorem apart_of_comma (hjoined : Joined .comma lexemes) (hnames : neighbours lexemes = []) :
    Apart (' ' :: printed .converted spell lexemes) := by
  refine ⟨space_no_word, fun rest h => ?_⟩
  obtain rfl := (cons.inj h).2
  cases lexemes with
  | nil => rfl
  | cons next rest =>
    have hopens : next.opens = true := by
      simpa [admits, isStop, awaits] using hjoined.1
    have hopen : isWordChar '"' = false ∧ isWordChar '(' = false ∧ isWordChar '[' = false := by
      decide
    cases next with
    | name rule =>
      unfold neighbours at hnames
      split at hnames <;> simp_all
    | text => exact hopen.1
    | openGroup => exact hopen.2.1
    | openOption => exact hopen.2.2
    | openMany => exact hopen.2.1
    | _ => cases hopens

theorem printed_row (hspell : ∀ rule, Spelled (spell rule)) (hjoined : Joined (.name rule) lexemes) :
    ∃ more tail, rowWords spell (.name rule :: lexemes) = spell rule ++ more ∧
      printed .converted spell lexemes = glue more ++ tail ∧ Apart tail := by
  induction hlength : lexemes.length using Nat.strongRecOn generalizing rule lexemes with
  | _ size ih =>
    cases lexemes with
    | nil => exact ⟨[], [], by simp [rowWords, neighbours], rfl, rfl, fun rest h => by cases h⟩
    | cons next rest =>
      cases next with
      | comma =>
        by_cases hnames : neighbours rest = []
        · exact ⟨[], ' ' :: printed .converted spell rest, by simp [rowWords, neighbours, hnames],
            rfl, apart_of_comma hjoined.2 hnames⟩
        · cases rest with
          | nil => exact absurd rfl hnames
          | cons other rest =>
            cases other with
            | name other =>
              obtain ⟨more, tail, hwords, htext, htail⟩ :=
                ih rest.length (by simp only [← hlength, length_cons]; omega) hjoined.2.2 rfl
              refine ⟨spell other ++ more, tail, ?_, ?_, htail⟩
              · rw [← hwords]
                rfl
              · have hglue : glue (spell other ++ more) = ' ' :: (unwords (spell other) ++ glue more) := by
                  rw [← unwords_append more (hspell other).ne_nil]
                  cases hother : spell other with
                  | nil => exact absurd hother (hspell other).ne_nil
                  | cons word words => rfl
                rw [printed_cons, printed_cons, htext, hglue]
                simp [written, converted, ended, spaced]
            | _ => exact absurd rfl hnames
      | _ => exact ⟨[], _, by simp [rowWords, neighbours], rfl, apart_of_follows hjoined rfl⟩

/-- `Unread name target spell lexemes` says that the words of a name are read at no place of the lexemes but
at the names of the targets. -/
structure Unread (name : List (List Char)) (target : RuleName → Bool) (spell : RuleName → List (List Char))
    (lexemes : List Lexeme) : Prop where
  inHead : ∀ rule, target rule = false → .head rule ∈ lexemes → ∀ skipped < (spell rule).length,
    ¬ name <+: (spell rule).drop skipped
  inRow : ∀ rule rest, target rule = false → .name rule :: rest <:+: lexemes →
    ∀ skipped < (spell rule).length, ¬ name <+: (rowWords spell (.name rule :: rest)).drop skipped

theorem Unread.mono {part : List Lexeme} (h : Unread name target spell lexemes) (hpart : part <:+: lexemes) :
    Unread name target spell part :=
  ⟨fun rule hrule hmem => h.inHead rule hrule (hpart.subset hmem),
    fun rule rest hrule hwithin => h.inRow rule rest hrule (hwithin.trans hpart)⟩

def respelled (target : RuleName → Bool) (new : List Char) (spell : RuleName → List (List Char))
    (rule : RuleName) : List (List Char) :=
  if target rule then [new] else spell rule

def Lexeme.isName : Lexeme → Bool
  | .head _ | .name _ => true
  | _ => false

theorem replace_word_name (hname : Spelled name) (hspell : Spelled (spell rule))
    (htarget : target rule = true → spell rule = name) (hmore : ∀ word ∈ more, IsWord word)
    (htext : text = glue more ++ tail) (htail : Apart tail) (hbefore : before.any isWordChar = false)
    (hno : target rule = false → ∀ skipped < (spell rule).length, ¬ name <+: (spell rule ++ more).drop skipped) :
    ∃ last, replaceWordFrom (unwords name) new 0 before (unwords (spell rule) ++ text) =
      unwords (respelled target new spell rule) ++ replaceWordFrom (unwords name) new 0 last text := by
  rw [htext, ← append_assoc, ← unwords_append more hspell.ne_nil]
  cases hrule : target rule with
  | true =>
    refine ⟨(unwords name).getLast?, ?_⟩
    rw [htarget hrule, replace_word_found hname hmore htail hbefore]
    simp [respelled, hrule, unwords]
  | false =>
    refine ⟨(unwords (spell rule)).getLast?, ?_⟩
    rw [replace_word_copy hname hspell hmore htail hbefore (hno hrule)]
    simp [respelled, hrule]

theorem written_no_word {lexeme : Lexeme} (hlexeme : lexeme.isName = false) (htext : lexeme.isText = false) :
    lexeme.written .converted spell ≠ [] ∧ ∀ c ∈ lexeme.written .converted spell, isWordChar c = false := by
  have hmarks : ∀ c ∈ [' ', '|', '(', ')', '[', ']', '*', '+', '\n'], isWordChar c = false := by
    decide
  have hsub : ∀ {chars : List Char}, chars ⊆ [' ', '|', '(', ')', '[', ']', '*', '+', '\n'] →
      ∀ c ∈ chars, isWordChar c = false := fun h c hc => hmarks c (h hc)
  cases lexeme with
  | head => cases hlexeme
  | name => cases hlexeme
  | text => cases htext
  | _ =>
    refine ⟨cons_ne_nil _ _, hsub ?_⟩
    simp [written, converted, ended, spaced, headed, ebnf]

theorem replace_word_code {first : Lexeme} (hname : Spelled name) (hspell : ∀ rule, Spelled (spell rule))
    (htarget : ∀ rule, target rule = true → spell rule = name) (hunread : Unread name target spell lexemes)
    (hjoined : Joined first lexemes) (hcode : ∀ lexeme ∈ lexemes, lexeme.isText = false)
    (hbefore : lexemes.head?.any isName = true → before.any isWordChar = false) :
    replaceWordFrom (unwords name) new 0 before (printed .converted spell lexemes) =
      printed .converted (respelled target new spell) lexemes := by
  induction lexemes generalizing first before with
  | nil => rfl
  | cons next rest ih =>
    have hrest := hunread.mono (suffix_cons next rest).isInfix
    have hrestCode : ∀ lexeme ∈ rest, lexeme.isText = false := fun l hl => hcode l (by simp [hl])
    rw [printed_cons, printed_cons]
    cases next with
    | head rule =>
      have hdefine : ∀ c ∈ [' ', ':', ' '], isWordChar c = false := by decide
      have hapart : Apart ([' ', ':', ' '] ++ printed .converted spell rest) := by
        refine ⟨space_no_word, fun more h => ?_⟩
        obtain rfl := (cons.inj h).2
        exact hdefine ':' (by decide)
      have hno : target rule = false → ∀ skipped < (spell rule).length,
          ¬ name <+: (spell rule ++ []).drop skipped := by
        intro hrule
        rw [append_nil]
        exact hunread.inHead rule hrule (by simp)
      obtain ⟨last, hreplaced⟩ : ∃ last, replaceWordFrom (unwords name) new 0 before
          (unwords (spell rule) ++ ([' ', ':', ' '] ++ printed .converted spell rest)) = _ :=
        replace_word_name hname (hspell rule) (htarget rule) (by simp) rfl hapart (hbefore rfl) hno
      have hlast : [' ', ':', ' '].getLast?.or last = some ' ' := rfl
      have hspace : (some ' ').any isWordChar = false := space_no_word
      rw [replace_word_marks hname hdefine, hlast, ih hrest hjoined.2 hrestCode fun _ => hspace] at hreplaced
      simp only [← append_assoc] at hreplaced
      exact hreplaced
    | name rule =>
      obtain ⟨more, tail, hwords, htext, htail⟩ := printed_row hspell hjoined.2
      have hmore : ∀ word ∈ more, IsWord word := fun word hword =>
        row_words_words hspell (.name rule :: rest) word (by rw [hwords]; simp [hword])
      have hno : target rule = false → ∀ skipped < (spell rule).length,
          ¬ name <+: (spell rule ++ more).drop skipped := by
        intro hrule
        rw [← hwords]
        exact hunread.inRow rule rest hrule (infix_refl _)
      obtain ⟨last, hreplaced⟩ : ∃ last, replaceWordFrom (unwords name) new 0 before
          (unwords (spell rule) ++ printed .converted spell rest) = _ :=
        replace_word_name hname (hspell rule) (htarget rule) hmore htext htail (hbefore rfl) hno
      have hnoName : rest.head?.any isName = false := by
        cases rest with
        | nil => rfl
        | cons follower rest =>
          have hfollows : follower.follows = true := by
            simpa [admits, isStop, awaits] using hjoined.2.1
          cases follower <;> first | rfl | cases hfollows
      rw [ih hrest hjoined.2 hrestCode fun hname => by simp [hnoName] at hname] at hreplaced
      exact hreplaced
    | text => cases hcode _ mem_cons_self
    | _ =>
      obtain ⟨hne, hmarks⟩ := @written_no_word spell _ rfl (hcode _ mem_cons_self)
      rw [replace_word_marks hname hmarks, ih hrest hjoined.2 hrestCode fun _ => ?_]
      · rfl
      · rw [getLast?_eq_some_getLast hne]
        exact hmarks _ (getLast_mem hne)

theorem Marks.converted_plain : converted.Plain := by
  constructor <;> simp [converted, ended, spaced, headed, ebnf, Segment.Plain,
    opensLiteral]

theorem replace_word_printed {first : Lexeme} {word replacement : String} (hword : word.toList = unwords name)
    (hname : Spelled name) (hspell : ∀ rule, Spelled (spell rule))
    (htarget : ∀ rule, target rule = true → spell rule = name) (hunread : Unread name target spell lexemes)
    (hjoined : Joined first lexemes) :
    replaceWord word replacement (printed .converted spell lexemes) =
      printed .converted (respelled target replacement.toList spell) lexemes := by
  unfold replaceWord
  rw [hword]
  refine map_code_printed converted_plain hspell (fun first piece hpiece hjoined hcode => ?_) hjoined
  exact replace_word_code hname hspell htarget (hunread.mono hpiece) hjoined hcode fun _ => rfl

end FlightProcedure.Ebnf
