import FlightProcedure.Proofs.Grammar.Notation
import FlightProcedure.Proofs.Grammar.Phrases

/-!
# How grammars are written

A definition is written on a line of its own, with its marks in front, and may go on where a vertical bar
starts an indented line; blank lines and comments may stand anywhere (`Entry.Shows`). Reading such lines
yields the definitions in their order, each with the number of its first line (`listing_reads_back`). Every
definition whose name, patterns and counts can be written has such lines (`Definition.Printable.entry`).
-/

namespace FlightProcedure

open List

/-! ## Definitions -/

variable {marks name : List Char} {definition : Definition}

theorem read_shaping_eq {rest : List Char} (hmarks : ∀ c ∈ marks, c = '!' ∨ c = '?')
    (hbang : rest.head? ≠ some '!') (hquestion : rest.head? ≠ some '?') (shaping : Shaping) :
    Definition.readShaping shaping (marks ++ rest) =
      (⟨shaping.keepTokens || decide ('!' ∈ marks), shaping.inlineSingle || decide ('?' ∈ marks)⟩, rest) := by
  induction marks generalizing shaping with
  | nil =>
    have hstop : Definition.readShaping shaping rest = (shaping, rest) := by
      unfold Definition.readShaping
      split
      · exact absurd rfl hbang
      · exact absurd rfl hquestion
      · rfl
    simp [hstop]
  | cons mark marks ih =>
    have hmore := ih fun c hc => hmarks c (mem_cons_of_mem mark hc)
    rcases hmarks mark mem_cons_self with rfl | rfl <;>
      · rw [cons_append, Definition.readShaping, hmore]
        simp

theorem trim_name {gap : List Char} (hname : BodyToken.Names name) (hgap : ∀ c ∈ gap, isBlank c = true) :
    trim (name ++ gap) = name := by
  obtain ⟨hstart, hchars⟩ := hname
  have hblank : ∀ c ∈ name, isBlank c = false := fun c hc => (BodyToken.class_of_name_char (hchars c hc)).1
  have hfront : trimStart (name ++ gap) = name ++ gap := by
    cases name with
    | nil => cases hstart
    | cons c more =>
      rw [trimStart, cons_append, dropWhile_cons, hblank c mem_cons_self]
      rfl
  have hlast : name.reverse.head?.any isBlank = false := by
    cases hhead : name.reverse.head? with
    | none => rfl
    | some c => exact hblank c (mem_reverse.mp (mem_of_head? hhead))
  have hend : (gap.reverse ++ name.reverse).dropWhile isBlank = name.reverse :=
    (take_while_append (by simpa using hgap) hlast).2
  rw [trim, hfront, trimEnd, reverse_append, hend, reverse_reverse]

/-- `Writes definition text` says that a text writes a definition: marks, the name, a colon and a text of its
body. -/
inductive Definition.Writes : Definition → List Char → Prop where
  | intro {marks gap text : List Char} {name : String} {bodies : List Body} {tokens : List BodyToken} {line : Nat}
      (hmarks : ∀ c ∈ marks, c = '!' ∨ c = '?') (hname : BodyToken.Names name.toList)
      (hgap : ∀ c ∈ gap, isBlank c = true) (hphrase : Phrase .choice bodies tokens) (htext : TextOf tokens text) :
      Writes ⟨name, ⟨decide ('!' ∈ marks), decide ('?' ∈ marks)⟩, .ofAlternatives bodies, line⟩
        (marks ++ (name.toList ++ gap ++ ':' :: text))

theorem Definition.Writes.read {text : List Char} (h : definition.Writes text) (number : Nat) :
    Definition.ofText number text = .ok { definition with line := number } := by
  obtain @⟨marks, gap, text, name, bodies, tokens, line, hmarks, hname, hgap, hphrase, htext⟩ := h
  have hclass := fun c hc => BodyToken.class_of_name_char (hname.2 c hc)
  have hcolon : ∀ c ∈ name.toList ++ gap, (c != ':') = true := by
    intro c hc
    rw [bne_iff_ne]
    rintro rfl
    rcases mem_append.mp hc with hc | hc
    · exact (hclass _ hc).2.1 (by decide)
    · exact absurd (hgap _ hc) (by decide)
  have htake : (name.toList ++ gap ++ ':' :: text).takeWhile (· != ':') = name.toList ++ gap :=
    (take_while_append hcolon rfl).1
  have hhead : ∀ c, (name.toList ++ gap ++ ':' :: text).head? = some c → c ∈ name.toList := by
    intro c hc
    obtain ⟨hstart, -⟩ := hname
    cases hlist : name.toList with
    | nil =>
      rw [hlist] at hstart
      cases hstart
    | cons d more =>
      rw [hlist] at hc
      exact Option.some.inj hc ▸ mem_cons_self
  have hshaping := read_shaping_eq hmarks (fun hc => (hclass _ (hhead _ hc)).2.1 (by decide))
    (fun hc => (hclass _ (hhead _ hc)).2.1 (by decide)) {}
  have hisName : Definition.isName name.toList = true := by
    have hne : name.toList ≠ [] := fun hnil => by
      obtain ⟨hstart, -⟩ := hname
      rw [hnil] at hstart
      cases hstart
    simp only [Definition.isName, isEmpty_eq_false_iff.mpr hne, Bool.not_false, Bool.true_and]
    exact all_eq_true.mpr hname.2
  rw [Definition.ofText, hshaping]
  simp only [htake, drop_left, trim_name hname hgap, hisName, Bool.not_true, Bool.false_eq_true, if_false,
    htext.tokens_eq, ok_bind, String.ofList_toList, hphrase.of_tokens, Bool.false_or]

/-! ## Lines -/

def isFiller (raw : List Char) : Bool :=
  (trim raw).isEmpty || "//".toList.isPrefixOf (trim raw)

/-- The lines of a definition: fillers, its first line, and lines with which it goes on, each after fillers
of its own. -/
structure Entry where
  before : List (List Char) := []
  first : List Char
  more : List (List (List Char) × List Char) := []

namespace Entry

def moreLines (more : List (List (List Char) × List Char)) : List (List Char) :=
  more.flatMap fun part => part.1 ++ [part.2]

def lines (entry : Entry) : List (List Char) := entry.before ++ entry.first :: moreLines entry.more

def moreText (more : List (List (List Char) × List Char)) : List Char := more.flatMap fun part => ' ' :: trim part.2

def text (entry : Entry) : List Char := trim entry.first ++ moreText entry.more

def goesOn (raw : List Char) : Bool := raw.head?.any isBlank && (trim raw).head? == some '|'

/-- `Shows entry definition` says that the lines hold the definition. -/
structure Shows (entry : Entry) (definition : Definition) : Prop where
  before : ∀ raw ∈ entry.before, isFiller raw = true
  first : isFiller entry.first = false ∧ goesOn entry.first = false
  more : ∀ part ∈ entry.more, (∀ raw ∈ part.1, isFiller raw = true) ∧ isFiller part.2 = false ∧ goesOn part.2 = true
  written : definition.Writes entry.text

def logicalLines : Nat → List Entry → List Definitions.LogicalLine
  | _, [] => []
  | number, entry :: entries =>
    (number + entry.before.length, entry.text) :: logicalLines (number + entry.lines.length) entries

def numbered : Nat → List Entry → List Definition → List Definition
  | number, entry :: entries, definition :: definitions =>
    { definition with line := number + entry.before.length } ::
      numbered (number + entry.lines.length) entries definitions
  | _, _, _ => []

end Entry

open Definitions (joinLines readLines LogicalLine)

section

variable {done : List LogicalLine} {number : Nat} {raw : List Char} {raws rest : List (List Char)}

theorem join_cons (done : List LogicalLine) (number : Nat) (raw : List Char) (rest : List (List Char)) :
    joinLines done number (raw :: rest) =
      if isFiller raw then joinLines done (number + 1) rest
      else if Entry.goesOn raw then
        match done with
        | [] => .error (.malformed number .looseContinuation)
        | (start, before) :: done => joinLines ((start, before ++ ' ' :: trim raw) :: done) (number + 1) rest
      else joinLines ((number, trim raw) :: done) (number + 1) rest := by
  conv_lhs => unfold joinLines
  rfl

theorem join_fillers (h : ∀ raw ∈ raws, isFiller raw = true) :
    joinLines done number (raws ++ rest) = joinLines done (number + raws.length) rest := by
  induction raws generalizing number with
  | nil => rfl
  | cons raw raws ih =>
    rw [cons_append, join_cons, if_pos (h raw mem_cons_self),
      ih fun other hother => h other (mem_cons_of_mem raw hother), length_cons, Nat.add_assoc,
      Nat.add_comm 1]

theorem join_more {start : Nat} {text : List Char} {more : List (List (List Char) × List Char)}
    (h : ∀ part ∈ more, (∀ raw ∈ part.1, isFiller raw = true) ∧ isFiller part.2 = false ∧ Entry.goesOn part.2 = true) :
    joinLines ((start, text) :: done) number (Entry.moreLines more ++ rest) =
      joinLines ((start, text ++ Entry.moreText more) :: done) (number + (Entry.moreLines more).length) rest := by
  induction more generalizing number text with
  | nil => simp [Entry.moreLines, Entry.moreText]
  | cons part more ih =>
    obtain ⟨hfillers, hsolid, hgoes⟩ := h part mem_cons_self
    have hmore := @ih (number + part.1.length + 1) (text ++ ' ' :: trim part.2)
      fun other hother => h other (mem_cons_of_mem part hother)
    have hlines : Entry.moreLines (part :: more) ++ rest =
        part.1 ++ part.2 :: (Entry.moreLines more ++ rest) := by
      simp [Entry.moreLines]
    rw [hlines, join_fillers hfillers, join_cons, hsolid, hgoes]
    simp only [Bool.false_eq_true, if_false, if_true]
    rw [hmore]
    congr 1
    · simp [Entry.moreText]
    · simp [Entry.moreLines]
      omega

theorem join_entry {entry : Entry} (h : entry.Shows definition) :
    joinLines done number (entry.lines ++ rest) =
      joinLines ((number + entry.before.length, entry.text) :: done) (number + entry.lines.length) rest := by
  rw [Entry.lines, append_assoc, cons_append, join_fillers h.before, join_cons, h.first.1, h.first.2]
  simp only [Bool.false_eq_true, if_false]
  rw [join_more h.more]
  congr 1
  simp
  omega

variable {entries : List Entry} {definitions : List Definition}

theorem join_entries (h : Forall₂ Entry.Shows entries definitions) (hrest : ∀ raw ∈ rest, isFiller raw = true) :
    joinLines done number (entries.flatMap Entry.lines ++ rest) =
      .ok (done.reverse ++ Entry.logicalLines number entries) := by
  induction h generalizing done number with
  | nil =>
    have hend := @join_fillers done number rest [] hrest
    rw [append_nil] at hend
    rw [flatMap_nil, nil_append, hend]
    simp [Entry.logicalLines, joinLines]
  | cons hentry _ ih =>
    rw [flatMap_cons, append_assoc, join_entry hentry, ih]
    simp [Entry.logicalLines]

theorem read_entries (h : Forall₂ Entry.Shows entries definitions) (defs : Definitions) (number : Nat) :
    readLines defs (Entry.logicalLines number entries) =
      .ok (defs.pushAll (Entry.numbered number entries definitions)) := by
  induction h generalizing defs number with
  | nil => rfl
  | cons hentry _ ih =>
    simp only [Entry.logicalLines, readLines, hentry.written.read, ih]
    rfl

end

/-- A way of writing definitions line by line, with fillers behind the last one. -/
structure Listing (definitions : List Definition) where
  entries : List Entry
  after : List (List Char)
  shows : Forall₂ Entry.Shows entries definitions
  fillers : ∀ raw ∈ after, isFiller raw = true
  lines : ∀ raw ∈ entries.flatMap Entry.lines ++ after, '\n' ∉ raw ∧ raw.getLast? ≠ some '\r'

namespace Listing

variable {definitions : List Definition}

def text (listing : Listing definitions) : String :=
  String.ofList ((listing.entries.flatMap Entry.lines ++ listing.after).flatMap (· ++ ['\n']))

def numbered (listing : Listing definitions) : List Definition := Entry.numbered 1 listing.entries definitions

theorem read_text (listing : Listing definitions) :
    Definitions.ofText listing.text = .ok (Definitions.pushAll {} listing.numbered) := by
  rw [Definitions.ofText, text, String.toList_ofList, lines_of_text listing.lines,
    join_entries listing.shows listing.fillers]
  exact read_entries listing.shows {} 1

end Listing

/-! ## Printing -/

namespace BodyToken

def Writable (token : BodyToken) : Prop := ∃ chars, Spelt token chars ∧ '\n' ∉ chars

theorem writable_mark {c : Char} {token : BodyToken} (h : mark? c = some token) : token.Writable := by
  refine ⟨[c], .mark h, ?_⟩
  rintro hc
  obtain rfl := mem_singleton.mp hc
  cases h

theorem escaped_exists (text : List Char) : ∃ written, Escaped text written ∧ '\n' ∉ written := by
  induction text with
  | nil => exact ⟨[], .nil, by simp⟩
  | cons c text ih =>
    obtain ⟨written, h, hline⟩ := ih
    by_cases hquote : c = '"'
    · subst hquote
      exact ⟨_, .quote h, by simp [hline]⟩
    · by_cases hslash : c = '\\'
      · subst hslash
        exact ⟨_, .slash h, by simp [hline]⟩
      · by_cases hfeed : c = '\n'
        · subst hfeed
          exact ⟨_, .feed h, by simp [hline]⟩
        · exact ⟨_, .plain hquote hslash h, by simp [Ne.symm hfeed, hline]⟩

/-- Whether a regular expression can be written: it has no line break, and every backslash comes before a
character that is no slash. -/
def isRegex : List Char → Bool
  | [] => true
  | ['\\'] => false
  | '\\' :: c :: rest => c != '/' && c != '\n' && isRegex rest
  | c :: rest => c != '\n' && isRegex rest

theorem slashed_exists {regex : List Char} (h : isRegex regex = true) :
    ∃ written, Slashed regex written ∧ '\n' ∉ written := by
  fun_induction isRegex regex with
  | case1 => exact ⟨[], .nil, by simp⟩
  | case2 => cases h
  | case3 c rest ih =>
    simp only [Bool.and_eq_true, bne_iff_ne] at h
    obtain ⟨written, hwritten, hline⟩ := ih h.2
    exact ⟨_, .pair h.1.1 hwritten, by simp [Ne.symm h.1.2, hline]⟩
  | case4 c rest hlast hpair ih =>
    simp only [Bool.and_eq_true, bne_iff_ne] at h
    obtain ⟨written, hwritten, hline⟩ := ih h.2
    have hback : c ≠ '\\' := by
      intro hc
      cases rest with
      | nil => exact hlast hc rfl
      | cons d rest => exact hpair d rest hc rfl
    by_cases hslash : c = '/'
    · subst hslash
      exact ⟨_, .slash hwritten, by simp [hline]⟩
    · exact ⟨_, .plain hslash hback hwritten, by simp [Ne.symm h.1, hline]⟩

theorem writable_number {value : Nat} (h : value < Nat.pow 2 64) : (BodyToken.number value).Writable := by
  obtain ⟨hdigits, hvalue⟩ := digits_value value
  refine ⟨_, .number ⟨Nat.toDigits_ne_nil, hdigits⟩ ?_, fun hmem => by cases hdigits _ hmem⟩
  rw [count]
  simp only [hvalue, h, if_true]

end BodyToken

/-- Whether a body can be written: its names are names, its patterns and counts can be written, and its
sequences and alternations have more than one part. -/
inductive Body.Printable : Body → Prop where
  | symbol {name : String} (h : BodyToken.Names name.toList) : Printable (.symbol name)
  | literal (text : String) : Printable (.literal text)
  | pattern {regex flags : String} (hregex : BodyToken.isRegex regex.toList = true)
      (hflags : ∀ c ∈ flags.toList, BodyToken.isFlag c = true) : Printable (.pattern regex flags)
  | seq {items : List Body} (hlength : 2 ≤ items.length) (h : ∀ item ∈ items, Printable item) :
      Printable (.seq items)
  | alt {items : List Body} (hlength : 2 ≤ items.length) (h : ∀ item ∈ items, Printable item) :
      Printable (.alt items)
  | optional {inner : Body} (h : Printable inner) : Printable (.optional inner)
  | star {inner : Body} (h : Printable inner) : Printable (.rep inner 0 none)
  | plus {inner : Body} (h : Printable inner) : Printable (.rep inner 1 none)
  | between {inner : Body} {least most : Nat} (h : Printable inner) (hleast : least < Nat.pow 2 64)
      (hmost : most < Nat.pow 2 64) : Printable (.rep inner least (some most))

def HasPhrase (level : Level) (bodies : List Body) : Prop :=
  ∃ tokens, Phrase level bodies tokens ∧ ∀ token ∈ tokens, token.Writable

namespace HasPhrase

variable {body : Body} {items : List Body}

theorem quantified (h : HasPhrase .atom [body]) (quantifiers : List Quantifier)
    (hwritable : ∀ token ∈ quantifiers.flatMap Quantifier.tokens, token.Writable) :
    HasPhrase .item [quantifiers.foldl Quantifier.apply body] := by
  obtain ⟨tokens, hphrase, htokens⟩ := h
  exact ⟨_, .quantified hphrase quantifiers, forall_mem_append.mpr ⟨htokens, hwritable⟩⟩

theorem group (h : HasPhrase .choice items) : HasPhrase .atom [.ofAlternatives items] := by
  obtain ⟨tokens, hphrase, htokens⟩ := h
  refine ⟨_, .group hphrase, forall_mem_cons.mpr ⟨BodyToken.writable_mark (c := '(') rfl, ?_⟩⟩
  exact forall_mem_append.mpr ⟨htokens, by simpa using BodyToken.writable_mark (c := ')') rfl⟩

theorem option (h : HasPhrase .choice items) : HasPhrase .atom [.optional (.ofAlternatives items)] := by
  obtain ⟨tokens, hphrase, htokens⟩ := h
  refine ⟨_, .option hphrase, forall_mem_cons.mpr ⟨BodyToken.writable_mark (c := '[') rfl, ?_⟩⟩
  exact forall_mem_append.mpr ⟨htokens, by simpa using BodyToken.writable_mark (c := ']') rfl⟩

theorem single (h : HasPhrase .item [body]) : HasPhrase .choice [body] := by
  obtain ⟨tokens, hphrase, htokens⟩ := h
  exact ⟨tokens, .one (.last hphrase), htokens⟩

theorem bare (h : HasPhrase .atom [body]) : HasPhrase .item [body] := h.quantified [] (by simp)

theorem row (hne : items ≠ []) (h : ∀ item ∈ items, HasPhrase .atom [item]) : HasPhrase .row items := by
  induction items with
  | nil => exact absurd rfl hne
  | cons item items ih =>
    obtain ⟨tokens, hphrase, htokens⟩ := (h item mem_cons_self).bare
    cases items with
    | nil => exact ⟨tokens, .last hphrase, htokens⟩
    | cons next items =>
      obtain ⟨more, hmore, hwritable⟩ := ih (by simp) fun other hother => h other (mem_cons_of_mem item hother)
      exact ⟨_, .next hphrase hmore, forall_mem_append.mpr ⟨htokens, hwritable⟩⟩

theorem choice (hne : items ≠ []) (h : ∀ item ∈ items, HasPhrase .atom [item]) : HasPhrase .choice items := by
  induction items with
  | nil => exact absurd rfl hne
  | cons item items ih =>
    obtain ⟨tokens, hphrase, htokens⟩ := (h item mem_cons_self).bare
    cases items with
    | nil => exact ⟨tokens, .one (.last hphrase), htokens⟩
    | cons next items =>
      obtain ⟨more, hmore, hwritable⟩ := ih (by simp) fun other hother => h other (mem_cons_of_mem item hother)
      exact ⟨_, .or (.last hphrase) hmore, forall_mem_append.mpr
        ⟨htokens, forall_mem_cons.mpr ⟨BodyToken.writable_mark (c := '|') rfl, hwritable⟩⟩⟩

end HasPhrase

theorem Body.Printable.has_phrase {body : Body} (h : body.Printable) : HasPhrase .atom [body] := by
  induction h with
  | @symbol name h =>
    have hline : '\n' ∉ name.toList := fun hmem => (BodyToken.class_of_name_char (h.2 _ hmem)).2.1 (by decide)
    exact ⟨_, .symbol name, by simpa using ⟨_, .name h, hline⟩⟩
  | literal text =>
    obtain ⟨written, hwritten, hline⟩ := BodyToken.escaped_exists text.toList
    have hspelt := BodyToken.Spelt.literal hwritten
    rw [String.ofList_toList] at hspelt
    exact ⟨_, .literal text, by simpa using ⟨_, hspelt, by simp [hline]⟩⟩
  | @pattern regex flags hregex hflags =>
    obtain ⟨written, hwritten, hline⟩ := BodyToken.slashed_exists hregex
    have hspelt := BodyToken.Spelt.pattern hwritten hflags
    rw [String.ofList_toList, String.ofList_toList] at hspelt
    have hflag : '\n' ∉ flags.toList := fun hmem => by cases hflags _ hmem
    exact ⟨_, .pattern regex flags, by simpa using ⟨_, hspelt, by simp [hline, hflag]⟩⟩
  | @seq items hlength h ih =>
    obtain ⟨tokens, hphrase, htokens⟩ := HasPhrase.row (by rintro rfl; cases hlength) ih
    have hsame : Body.ofItems items = .seq items := by
      match items, hlength with
      | _ :: _ :: _, _ => rfl
    have hchoice : HasPhrase .choice [.ofItems items] := ⟨tokens, .one hphrase, htokens⟩
    rw [hsame] at hchoice
    exact hchoice.group
  | @alt items hlength h ih =>
    have hchoice := HasPhrase.choice (by rintro rfl; cases hlength) ih
    have hsame : Body.ofAlternatives items = .alt items := by
      match items, hlength with
      | _ :: _ :: _, _ => rfl
    exact hsame ▸ hchoice.group
  | optional _ ih => exact ih.bare.single.option
  | star _ ih =>
    refine (ih.quantified [.star] ?_).single.group
    simpa [Quantifier.tokens] using BodyToken.writable_mark (c := '*') rfl
  | plus _ ih =>
    refine (ih.quantified [.plus] ?_).single.group
    simpa [Quantifier.tokens] using BodyToken.writable_mark (c := '+') rfl
  | @between inner least most _ hleast hmost ih =>
    have hrange : BodyToken.range.Writable := ⟨_, .range, by decide⟩
    refine (ih.quantified [.between least most] ?_).single.group
    simpa [Quantifier.tokens] using ⟨BodyToken.writable_mark (c := '~') rfl, BodyToken.writable_number hleast,
      hrange, BodyToken.writable_number hmost⟩

theorem text_exists {tokens : List BodyToken} (h : ∀ token ∈ tokens, token.Writable) :
    ∃ front, TextOf (tokens ++ [.closeGroup]) (' ' :: (front ++ [')'])) ∧ '\n' ∉ front := by
  have hspace : isBlank ' ' = true := by decide
  induction tokens with
  | nil => exact ⟨[], .blank hspace (.mark rfl .nil), by simp⟩
  | cons token tokens ih =>
    obtain ⟨chars, hspelt, hline⟩ := h token mem_cons_self
    obtain ⟨front, htext, hfront⟩ := ih fun other hother => h other (mem_cons_of_mem token hother)
    have hnext : token.takesIn ' ' = false := by cases token <;> rfl
    refine ⟨chars ++ ' ' :: front, .blank hspace ?_, by simp [hline, hfront]⟩
    simpa using TextOf.token hspelt (by simpa using hnext) htext

/-- A definition with a name and a body that can be written. -/
structure Definition.Printable (definition : Definition) : Prop where
  name : BodyToken.Names definition.name.toList
  body : definition.body.Printable

theorem marks_exist (shaping : Shaping) : ∃ marks : List Char, (∀ c ∈ marks, c = '!' ∨ c = '?') ∧
    shaping = ⟨decide ('!' ∈ marks), decide ('?' ∈ marks)⟩ := by
  obtain ⟨keep, inline⟩ := shaping
  refine ⟨(if keep then ['!'] else []) ++ (if inline then ['?'] else []), ?_, ?_⟩
  · cases keep <;> cases inline <;> simp
  · cases keep <;> cases inline <;> rfl

theorem definition_starts (hmarks : ∀ c ∈ marks, c = '!' ∨ c = '?') (hname : BodyToken.Names name)
    (rest : List Char) : ∃ c more, marks ++ (name ++ rest) = c :: more ∧ isBlank c = false ∧ c ≠ '/' := by
  cases marks with
  | cons mark marks =>
    refine ⟨mark, _, rfl, ?_⟩
    rcases hmarks mark mem_cons_self with rfl | rfl <;> exact ⟨by decide, by decide⟩
  | nil =>
    obtain ⟨hstart, hchars⟩ := hname
    cases name with
    | nil => cases hstart
    | cons c name =>
      obtain ⟨hblank, hno, -⟩ := BodyToken.class_of_name_char (hchars c mem_cons_self)
      exact ⟨c, _, rfl, hblank, by rintro rfl; exact hno (by decide)⟩

theorem Definition.Printable.entry (h : definition.Printable) :
    ∃ entry : Entry, entry.Shows definition ∧ ∀ raw ∈ entry.lines, '\n' ∉ raw ∧ raw.getLast? ≠ some '\r' := by
  obtain ⟨name, shaping, body, line⟩ := definition
  obtain ⟨hname, hbody⟩ : BodyToken.Names name.toList ∧ body.Printable := ⟨h.name, h.body⟩
  obtain ⟨marks, hmarks, rfl⟩ := marks_exist shaping
  obtain ⟨tokens, hphrase, htokens⟩ := hbody.has_phrase.bare.single
  have hopen : ∀ token ∈ BodyToken.openGroup :: tokens, token.Writable :=
    forall_mem_cons.mpr ⟨BodyToken.writable_mark (c := '(') rfl, htokens⟩
  obtain ⟨front, htext, hfront⟩ := text_exists hopen
  have hgroup : Phrase .choice [body] (.openGroup :: tokens ++ [.closeGroup]) := by
    simpa [Body.ofAlternatives, Body.ofItems] using Phrase.one (.last (.quantified (.group hphrase) []))
  have hwrites := @Definition.Writes.intro marks [] _ name _ _ line hmarks hname (by simp) hgroup htext
  rw [append_nil] at hwrites
  obtain ⟨c, more, hfirst, hblank, hslash⟩ := definition_starts hmarks hname (':' :: ' ' :: (front ++ [')']))
  have hlast : marks ++ (name.toList ++ ':' :: ' ' :: (front ++ [')'])) =
      (marks ++ (name.toList ++ ':' :: ' ' :: front)) ++ [')'] := by
    simp
  have hline : '\n' ∉ marks ++ (name.toList ++ ':' :: ' ' :: (front ++ [')'])) := by
    have hmark : '\n' ∉ marks := fun hmem => by rcases hmarks _ hmem with hc | hc <;> cases hc
    have hchar : '\n' ∉ name.toList := fun hmem => (BodyToken.class_of_name_char (hname.2 _ hmem)).2.1 (by decide)
    simp [hmark, hchar, hfront]
  generalize marks ++ (name.toList ++ ':' :: ' ' :: (front ++ [')'])) = written at hwrites hfirst hlast hline
  have htrim := trim_same hfirst hblank hlast (by decide)
  refine ⟨{ first := written }, ⟨by simp, ⟨?_, ?_⟩, by simp, ?_⟩, ?_⟩
  · rw [isFiller, htrim, hfirst]
    simp [List.isPrefixOf, Ne.symm hslash]
  · simp [Entry.goesOn, hfirst, hblank]
  · rw [Entry.text, htrim, Entry.moreText, flatMap_nil, append_nil]
    exact hwrites
  · intro raw hraw
    obtain rfl : raw = written := by simpa [Entry.lines, Entry.moreLines] using hraw
    exact ⟨hline, by rw [hlast, getLast?_concat]; decide⟩

theorem Listing.exists_of_printable {definitions : List Definition}
    (h : ∀ definition ∈ definitions, definition.Printable) : Nonempty (Listing definitions) := by
  induction definitions with
  | nil => exact ⟨⟨[], [], .nil, by simp, by simp⟩⟩
  | cons definition definitions ih =>
    obtain ⟨entry, hshows, hlines⟩ := (h definition mem_cons_self).entry
    obtain ⟨listing⟩ := ih fun other hother => h other (mem_cons_of_mem definition hother)
    refine ⟨⟨entry :: listing.entries, listing.after, .cons hshows listing.shows, listing.fillers, ?_⟩⟩
    rw [flatMap_cons, append_assoc]
    exact forall_mem_append.mpr ⟨hlines, listing.lines⟩

/-- Definitions that can be written have a listing, and every listing of them is read as these definitions:
the rules and the terminals in their order, each with the number of the line on which it starts. -/
theorem listing_reads_back {definitions : List Definition}
    (h : ∀ definition ∈ definitions, definition.Printable) :
    Nonempty (Listing definitions) ∧ ∀ listing : Listing definitions,
      Definitions.ofText listing.text = .ok
        { rules := listing.numbered.filter fun definition => !isTerminalName definition.name
          terminals := listing.numbered.filter fun definition => isTerminalName definition.name } := by
  refine ⟨Listing.exists_of_printable h, fun listing => ?_⟩
  rw [listing.read_text, Definitions.push_all_eq]
  simp

def noteDefinitions : List Definition :=
  [{ name := "note", shaping := ⟨true, true⟩, line := 1,
     body := .alt [.seq [.literal "a: \"b\"\n", .rep (.symbol "WORD") 2 (some 3)], .optional (.symbol "note")] },
   { name := "WORD", line := 2, body := .pattern "[a/b]+" "i" }]

theorem note_listing_read :
    (∀ definition ∈ noteDefinitions, definition.Printable) ∧ Nonempty (Listing noteDefinitions) := by
  have hnote : BodyToken.Names "note".toList := ⟨by decide, by decide⟩
  have hword : BodyToken.Names "WORD".toList := ⟨by decide, by decide⟩
  have hbody : Body.Printable (.alt [.seq [.literal "a: \"b\"\n", .rep (.symbol "WORD") 2 (some 3)],
      .optional (.symbol "note")]) := by
    refine .alt (by decide) (forall_mem_cons.mpr ⟨.seq (by decide) ?_, ?_⟩)
    · simpa using ⟨.literal _, .between (.symbol hword) (by decide) (by decide)⟩
    · simpa using .optional (.symbol hnote)
  have hall : ∀ definition ∈ noteDefinitions, definition.Printable := by
    refine forall_mem_cons.mpr ⟨⟨hnote, hbody⟩, forall_mem_cons.mpr ⟨⟨hword, ?_⟩, by simp⟩⟩
    exact .pattern (by decide) (by decide)
  exact ⟨hall, (listing_reads_back hall).1⟩

end FlightProcedure
