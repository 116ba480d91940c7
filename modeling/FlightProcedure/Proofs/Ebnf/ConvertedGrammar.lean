import FlightProcedure.Proofs.Ebnf.BodyReading
import FlightProcedure.Proofs.Ebnf.Promotion

/-!
# A converted grammar is the grammar

The text of an EBNF grammar is converted and read again. `convert_reads_back` says that a legible grammar
comes back with the same rules in the same order: each rule has its final name, and its body is the image
of the EBNF body, in which each reference is the final name of the rule that it referred to.
`references_merged` shows a grammar that is not legible, in which two references become one.
-/

namespace FlightProcedure.Ebnf

open Segment List

variable {c : Char} {grammar : Ruleset} {spell : RuleName → List (List Char)} {final : RuleName → String}
  {entry : RuleName × Choice}

/-! ## Lines -/

def lineOf (spell : RuleName → List (List Char)) (entry : RuleName × Choice) : List Char :=
  printed .converted spell (.head entry.1 :: entry.2.lexemes)

theorem printed_lines (spell : RuleName → List (List Char)) (grammar : Ruleset) :
    printed .converted spell grammar.lexemes = (grammar.rules.map (lineOf spell)).flatMap (· ++ ['\n']) := by
  unfold Ruleset.lexemes
  induction grammar.rules with
  | nil => rfl
  | cons entry rules ih =>
    rw [map_cons, flatMap_cons, flatMap_cons, ← ih]
    simp only [printed, lineOf, flatMap_append]
    rfl

theorem no_break_in_line (hspell : ∀ rule, Spelled (spell rule)) (entry : RuleName × Choice) :
    '\n' ∉ lineOf spell entry := by
  intro hmem
  obtain ⟨lexeme, hlexeme, hbreak⟩ := mem_flatMap.mp hmem
  have hstop : lexeme.isStop = false := by
    rcases mem_cons.mp hlexeme with rfl | hbody
    · rfl
    · exact (inner_choice entry.2 lexeme hbody).2
  cases lexeme with
  | stop => cases hstop
  | text quoted =>
    have htext : '\n' ∉ quoted.chars := fun hmem => (quoted.plain _ hmem).2.2 rfl
    simp [Lexeme.written, htext] at hbreak
  | _ => exact absurd hbreak (not_mem_written hspell rfl rfl (by decide))

theorem split_printed (hspell : ∀ rule, Spelled (spell rule)) (grammar : Ruleset) :
    splitWhere (· == '\n') (printed .converted spell grammar.lexemes) = grammar.rules.map (lineOf spell) ++ [[]] := by
  rw [printed_lines]
  refine split_text_lines fun line hline => ?_
  obtain ⟨entry, _, rfl⟩ := mem_map.mp hline
  exact no_break_in_line hspell entry

theorem line_eq (spell : RuleName → List (List Char)) (entry : RuleName × Choice) : lineOf spell entry =
      unwords (spell entry.1) ++ ' ' :: ':' :: ' ' :: printed .converted spell entry.2.lexemes := by
  rw [lineOf, printed_cons]
  exact append_assoc _ [' ', ':', ' '] _

/-! ## Names at the start of lines -/

theorem head_of_line (entry : RuleName × Choice) : head? (lineOf RuleName.words entry) = some entry.1.chars := by
  obtain ⟨⟨c, tail, hchars, hc⟩, _⟩ := entry.1.spelled.ends
  have hname : ∀ d ∈ tail ++ [' '], isNamePart d = true := by
    intro d hd
    rcases mem_append.mp hd with hd | hd
    · rcases mem_unwords entry.1.isWord (by rw [hchars]; simp [hd] : d ∈ unwords entry.1.words) with hd | rfl
      · simp [isNamePart, (class_of_ascii_word hd).1]
      · rfl
    · rw [mem_singleton.mp hd]
      rfl
  have hcolon : (':' :: ' ' :: printed .converted RuleName.words entry.2.lexemes).head?.any isNamePart = false := by
    show isNamePart ':' = false
    decide
  obtain ⟨htake, _⟩ := take_while_append hname hcolon
  have hline : lineOf RuleName.words entry =
      c :: ((tail ++ [' ']) ++ ':' :: ' ' :: printed .converted RuleName.words entry.2.lexemes) := by
    rw [line_eq, hchars]
    simp
  have hmarks : (c == '!' || c == '?') = false := by
    have hno := (BodyToken.class_of_name_char (name_char_of_word hc)).2.1
    simp only [mem_cons, not_or] at hno
    simp [hno]
  rw [hline, head?, dropWhile_cons, hmarks]
  simp only [Bool.false_eq_true, if_false, htake, drop_left, head?_cons, getLast?_concat, dropLast_concat]
  rw [RuleName.chars, hchars]
  have hletter : startsName c = true := by simpa [hchars] using entry.1.startsName
  simp [hletter]

theorem collect_names (names : List RuleName) (done : List RuleName) (hnodup : (done ++ names).Nodup) :
    (names.map RuleName.chars).foldl (fun found name =>
      let name := String.ofList name
      if found.contains name then found else found ++ [name]) (done.map RuleName.text) =
        (done ++ names).map RuleName.text := by
  induction names generalizing done with
  | nil => rw [append_nil, map_nil, foldl_nil]
  | cons name names ih =>
    have hsplit : done ++ name :: names = (done ++ [name]) ++ names := by simp
    have hnew : (done.map RuleName.text).contains name.text = false := by
      rw [Bool.eq_false_iff]
      intro hcontains
      obtain ⟨other, hother, htext⟩ := mem_map.mp (contains_iff_mem.mp hcontains)
      rw [RuleName.text_inj htext] at hother
      exact (nodup_append.mp hnodup).2.2 name hother name (by simp) rfl
    have hstep : (if (done.map RuleName.text).contains (String.ofList name.chars) then done.map RuleName.text
        else done.map RuleName.text ++ [String.ofList name.chars]) = (done ++ [name]).map RuleName.text := by
      have htext : String.ofList name.chars = name.text := rfl
      rw [htext, hnew, map_append]
      rfl
    rw [map_cons, foldl_cons, hsplit]
    dsimp only
    rw [hstep]
    exact ih (done ++ [name]) (hsplit ▸ hnodup)

theorem heads_printed (grammar : Ruleset) :
    heads (printed .converted RuleName.words grammar.lexemes) = grammar.names.map RuleName.text := by
  have hfound : (grammar.rules.map (lineOf RuleName.words) ++ [[]]).filterMap head? =
      grammar.names.map RuleName.chars := by
    have hnone : [[]].filterMap head? = [] := rfl
    rw [filterMap_append, hnone, append_nil, Ruleset.names]
    induction grammar.rules with
    | nil => rfl
    | cons entry rules ih =>
      simp only [map_cons, filterMap_cons, head_of_line, ih]
  rw [heads, split_printed RuleName.spelled, hfound]
  exact collect_names grammar.names [] grammar.distinct

/-! ## Alignment -/

theorem line_starts (hspell : ∀ rule, Spelled (spell rule)) (entry : RuleName × Choice) :
    ∃ c rest, lineOf spell entry = c :: rest ∧ isAsciiWord c = true := by
  obtain ⟨⟨c, tail, hchars, hc⟩, _⟩ := (hspell entry.1).ends
  exact ⟨c, _, by rw [line_eq, hchars]; rfl, hc⟩

theorem align_after_same {rest : List (List Char)} (h : ∀ line ∈ rest, (trimStart line).head? ≠ some '|')
    (before : List Char) : alignAfter before rest = rest := by
  induction rest generalizing before with
  | nil => rfl
  | cons line rest ih =>
    simp only [alignAfter]
    rw [if_neg (h line (by simp)), ih fun other hother => h other (by simp [hother])]

section

variable (hspell : ∀ rule, Spelled (spell rule))

include hspell

theorem align_printed (grammar : Ruleset) :
    alignContinuations (printed .converted spell grammar.lexemes) = printed .converted spell grammar.lexemes := by
  have hsplit := split_printed hspell grammar
  have hlines : ∀ line ∈ grammar.rules.map (lineOf spell) ++ [[]], (trimStart line).head? ≠ some '|' := by
    intro line hline
    rcases mem_append.mp hline with hline | hline
    · obtain ⟨entry, _, rfl⟩ := mem_map.mp hline
      obtain ⟨c, rest, hchars, hc⟩ := line_starts hspell entry
      obtain ⟨_, hblank, _, _, hmarks⟩ := class_of_ascii_word hc
      rw [hchars, trimStart, dropWhile_cons, hblank]
      rintro hbar
      cases hbar
      exact hmarks (by decide)
    · rw [mem_singleton.mp hline]
      simp [trimStart]
  obtain ⟨first, rest, hfirst, htext, _⟩ := split_where_mark '\n' (printed .converted spell grammar.lexemes)
  rw [hsplit] at hfirst
  rw [hfirst] at hlines hsplit
  rw [alignContinuations, hsplit]
  dsimp only
  rw [align_after_same fun line hline => hlines line (by simp [hline]), intercalate_marks, ← htext]

/-! ## Reading the lines -/

theorem written_ends {lexeme : Lexeme} (hawaits : lexeme.awaits = false) (hstop : lexeme.isStop = false) :
    ∃ front c, lexeme.written .converted spell = front ++ [c] ∧ isBlank c = false := by
  have hmarks : ∀ c ∈ [')', ']', '*', '+', '"'], isBlank c = false := by decide
  cases lexeme with
  | name rule =>
    obtain ⟨_, front, c, hchars, hc⟩ := (hspell rule).ends
    exact ⟨front, c, hchars, (class_of_ascii_word hc).2.1⟩
  | text quoted => exact ⟨'"' :: quoted.chars, '"', rfl, hmarks '"' (by decide)⟩
  | closeGroup => exact ⟨[], ')', rfl, hmarks ')' (by decide)⟩
  | closeOption => exact ⟨[], ']', rfl, hmarks ']' (by decide)⟩
  | closeMany => exact ⟨[')'], '*', rfl, hmarks '*' (by decide)⟩
  | closeSome => exact ⟨[')'], '+', rfl, hmarks '+' (by decide)⟩
  | stop => cases hstop
  | _ => cases hawaits

theorem line_ends (entry : RuleName × Choice) :
    ∃ front c, lineOf spell entry = front ++ [c] ∧ isBlank c = false := by
  have hstop : ComesLast [.stop] := comes_last_cons .stop rfl trivial
  have hjoined : Joined (.head entry.1) (entry.2.lexemes ++ [.stop]) := joined_choice rfl hstop entry.2
  rcases eq_nil_or_concat entry.2.lexemes with hnil | ⟨init, last, hlast⟩
  · rw [hnil] at hjoined
    cases hjoined.1
  · rw [concat_eq_append] at hlast
    rw [hlast, append_assoc] at hjoined
    obtain ⟨_, _, hadmits⟩ := joined_append hjoined
    have hawaits : last.awaits = false ∧ last.isStop = false := by
      have := hadmits.2.1
      cases last <;> first | exact ⟨rfl, rfl⟩ | cases this
    obtain ⟨front, c, hwritten, hc⟩ := written_ends hspell hawaits.1 hawaits.2
    refine ⟨printed .converted spell (.head entry.1 :: init) ++ front, c, ?_, hc⟩
    rw [lineOf, hlast, ← cons_append, printed, flatMap_append, append_assoc, ← hwritten]
    simp [printed]

theorem lines_printed (grammar : Ruleset) :
    lines (printed .converted spell grammar.lexemes) = grammar.rules.map (lineOf spell) := by
  rw [printed_lines]
  refine lines_of_text fun line hline => ?_
  obtain ⟨entry, _, rfl⟩ := mem_map.mp hline
  obtain ⟨front, c, hlast, hc⟩ := line_ends hspell entry
  refine ⟨no_break_in_line hspell entry, ?_⟩
  rw [hlast, getLast?_concat]
  rintro ⟨rfl⟩
  cases hc

/-- `Whole line` says that a line holds a definition of its own. -/
structure Whole (line : List Char) : Prop where
  trimmed : trim line = line
  ne_nil : line.isEmpty = false
  noComment : "//".toList.isPrefixOf line = false
  starts : line.head?.any isBlank = false

theorem whole_line (entry : RuleName × Choice) :
    Whole (lineOf spell entry) := by
  obtain ⟨c, rest, hfirst, hc⟩ := line_starts hspell entry
  obtain ⟨front, d, hlast, hd⟩ := line_ends hspell entry
  have hblank := (class_of_ascii_word hc).2.1
  refine ⟨trim_same hfirst hblank hlast hd, by rw [hfirst]; rfl, ?_, by rw [hfirst]; exact hblank⟩
  have hslash : ('/' == c) = false := by
    rw [beq_eq_false_iff_ne]
    rintro rfl
    exact absurd hc (by decide)
  rw [hfirst]
  show ('/' == c && _) = false
  rw [hslash]
  rfl

end

theorem join_whole_lines {raws : List (List Char)} (h : ∀ raw ∈ raws, Whole raw)
    (done : List Definitions.LogicalLine) (number : Nat) :
    Definitions.joinLines done number raws =
      .ok (done.reverse ++ raws.mapIdx fun index raw => (number + index, raw)) := by
  induction raws generalizing done number with
  | nil => simp [Definitions.joinLines]
  | cons raw raws ih =>
    obtain ⟨htrim, hne, hcomment, hstart⟩ := h raw (by simp)
    simp only [Definitions.joinLines, htrim, hne, hcomment, hstart, Bool.or_self, Bool.false_eq_true, if_false,
      Bool.false_and]
    rw [ih fun other hother => h other (by simp [hother])]
    simp [mapIdx_cons, Nat.add_assoc, Nat.add_comm 1]

theorem Readable.spelled (h : Readable final) (rule : RuleName) : Spelled (singles final rule) :=
  ⟨by simp [singles], fun word hword => mem_singleton.mp hword ▸ h.word rule⟩

theorem definition_of_line (h : Readable final) (entry : RuleName × Choice) (number : Nat) :
    Definition.ofText number (lineOf (singles final) entry) =
      .ok { name := final entry.1, body := entry.2.image final, line := number } := by
  have hstop : ComesLast [.stop] := comes_last_cons .stop rfl trivial
  have hjoined : Joined (.head entry.1) (entry.2.lexemes ++ [.stop]) := joined_choice rfl hstop entry.2
  have hspace : isBlank ' ' = true := by decide
  have htext := text_printed h (inner_choice entry.2) (joined_append hjoined).1
  have hwrites := @Definition.Writes.intro [] [' '] _ _ _ _ number (by simp) (h.names entry.1) (by decide)
    (Choice.phrase entry.2) (.blank hspace htext)
  have hline : lineOf (singles final) entry = ((final entry.1).toList ++ [' ']) ++
      ':' :: ' ' :: printed .converted (singles final) entry.2.lexemes := by
    rw [line_eq]
    simp [singles, unwords]
  rw [hline]
  exact hwrites.read number

theorem read_lines_eq (h : Readable final) (rules : List (RuleName × Choice)) (defs : Definitions) (number : Nat) :
    Definitions.readLines defs
      ((rules.map (lineOf (singles final))).mapIdx fun index raw => (number + index, raw)) =
        .ok (defs.pushAll (rules.mapIdx fun index entry =>
          { name := final entry.1, body := entry.2.image final, line := number + index })) := by
  induction rules generalizing defs number with
  | nil => rfl
  | cons entry rules ih =>
    have hmore := ih (defs.push { name := final entry.1, body := entry.2.image final, line := number }) (number + 1)
    simp only [map_cons, mapIdx_cons, Definitions.readLines, Nat.add_zero,
      definition_of_line h entry, Definitions.pushAll, foldl_cons]
    simp only [Nat.add_assoc, Nat.add_comm 1] at hmore
    exact hmore

theorem definitions_printed (h : Readable final) (grammar : Ruleset) :
    Definitions.ofText (String.ofList (printed .converted (singles final) grammar.lexemes)) =
      .ok (Definitions.pushAll {} (grammar.rules.mapIdx fun index entry =>
        { name := final entry.1, body := entry.2.image final, line := index + 1 })) := by
  have hwhole : ∀ raw ∈ grammar.rules.map (lineOf (singles final)), Whole raw := by
    intro raw hraw
    obtain ⟨entry, _, rfl⟩ := mem_map.mp hraw
    exact whole_line h.spelled entry
  rw [Definitions.ofText, String.toList_ofList, lines_printed h.spelled, join_whole_lines hwhole]
  have hread := read_lines_eq h grammar.rules {} 1
  simp only [Nat.add_comm 1] at hread ⊢
  exact hread

/-! ## The conversion -/

theorem readable_final (terminals : List String) : Readable (RuleName.final terminals) := by
  refine ⟨final_word terminals, fun rule => ?_⟩
  obtain ⟨c, rest, hfolded, hc, hupper⟩ : ∃ c rest, rule.folded = c :: rest ∧ c.isAlpha = true ∧
      c.toUpper.isAlpha = true := by
    have hlower := folded_starts_lower rule
    obtain ⟨hne, hword⟩ := rule.folded_word
    cases hchars : rule.folded with
    | nil => exact absurd hchars hne
    | cons c rest =>
      rw [hchars] at hlower hword
      have hcase : c.isLower = true → c.isAlpha = true ∧ c.toUpper.isAlpha = true :=
        of_ascii (ascii_of_word (hword c (by simp))) (by decide)
      exact ⟨c, rest, rfl, hcase hlower⟩
  rcases final_cases terminals rule with ⟨_, hfinal⟩ | ⟨_, _, hfinal⟩ | ⟨_, _, hfinal⟩
  · rw [hfinal, RuleName.text, String.toList_ofList]
    exact rule.startsName
  · rw [hfinal, upper_folded, hfolded]
    exact hupper
  · have hchars : (foldName rule.text).toList = c :: rest := hfolded
    rw [hfinal, hchars]
    exact hc

theorem final_congr {terminals sorted : List String} (h : ∀ name, name ∈ sorted ↔ name ∈ terminals) :
    RuleName.final sorted = RuleName.final terminals := by
  funext name
  have hcontains : sorted.contains (foldName name.text) = terminals.contains (foldName name.text) := by
    rw [Bool.eq_iff_iff, contains_iff_mem, contains_iff_mem]
    exact h _
  simp only [RuleName.final, hcontains]

theorem convert_printed {terminals : List String} {output : String} (hlegible : grammar.Legible)
    (hsnake : ∀ terminal ∈ terminals, isSnakeCase terminal = true)
    (h : Conversion.convert ⟨[], terminals, []⟩ grammar.text = .ok output) :
    output = String.ofList (printed .converted (finalSpelling terminals) grammar.lexemes) ∧
      Nameable (grammar.names.map RuleName.text) terminals := by
  have hnameable := nameable_of_convert h
  obtain ⟨folded, renamed, hfolded, hrenamed, rfl⟩ := Conversion.convert_eq_ok h
  have htext : grammar.text.toList = printed .ebnf RuleName.words grammar.lexemes := String.toList_ofList
  rw [htext, change_layout_printed grammar.joined, heads_printed] at hnameable hfolded hrenamed
  have hdistinct : ([] ++ grammar.names).Nodup := grammar.distinct
  have hentries := fold_names_eq hdistinct rfl hfolded
  have hspell : printed .converted (spellAt grammar.renamed) grammar.lexemes =
      printed .converted (finalSpelling []) grammar.lexemes :=
    printed_congr fun rule hrule => spell_at_renamed
      (hrule.elim grammar.name_of_head grammar.name_of_reference)
  rw [rename_rules_printed hlegible hentries, hspell] at hrenamed
  refine ⟨?_, hnameable⟩
  rw [promotions_printed hsnake hrenamed, nil_append]
  exact congrArg String.ofList (align_printed (readable_final terminals).spelled grammar)

/-- A legible grammar that is converted is read as the same grammar: one definition for each rule, in the
order of the rules and of the terminals, under its final name and with the image of its body. The final names
are different from each other, so each reference is one to the rule that it referred to. -/
theorem Ruleset.convert_reads_back {terminals : List String} {conversion : Conversion} {output : String}
    (grammar : Ruleset) (hlegible : grammar.Legible)
    (hsnake : ∀ terminal ∈ terminals, isSnakeCase terminal = true)
    (hrules : Conversion.ofRules { terminals } = .ok conversion)
    (hconvert : conversion.convert grammar.text = .ok output) :
    Definitions.ofText output = .ok
      { rules := (grammar.definitions terminals).filter (!isTerminalName ·.name)
        terminals := (grammar.definitions terminals).filter (isTerminalName ·.name) } ∧
      ((grammar.definitions terminals).map (·.name)).Nodup := by
  cases hrules
  have hsame : ∀ name, name ∈ longestFirst String.utf8ByteSize terminals ↔ name ∈ terminals := fun name => mem_mergeSort
  obtain ⟨rfl, hnameable⟩ := convert_printed hlegible (fun name hname => hsnake name ((hsame name).mp hname))
    hconvert
  have hnames : (grammar.definitions terminals).map (·.name) = grammar.names.map (RuleName.final terminals) := by
    refine ext_getElem (by simp [Ruleset.definitions, Ruleset.names]) fun index _ _ => ?_
    simp [Ruleset.definitions, Ruleset.names]
  have hspell : finalSpelling (longestFirst String.utf8ByteSize terminals) = singles (RuleName.final terminals) := by
    rw [← final_congr hsame]
    rfl
  constructor
  · rw [hspell, definitions_printed (readable_final terminals) grammar, Definitions.push_all_eq]
    rfl
  · rw [hnames, ← final_congr hsame]
    exact nodup_finals hnameable

def stepName : RuleName := ⟨["Step".toList, "Name".toList], by decide, by decide⟩

def wordName : RuleName := ⟨["word".toList], by decide, by decide⟩

def listName : RuleName := ⟨["LIST".toList], by decide, by decide⟩

/-- A grammar with a name of two words, a rule that becomes a terminal, and all the kinds of factors. -/
def listGrammar : Ruleset where
  rules :=
    [(stepName, .one (.more (.name wordName) (.one (.some
        (.more (.one (.text ⟨"x, y".toList, by decide⟩)) (.one (.one (.name wordName)))))))),
      (wordName, .more (.one (.text ⟨"a".toList, by decide⟩)) (.one (.one (.text ⟨"// b".toList, by decide⟩)))),
      (listName, .one (.more (.option (.one (.one (.name stepName)))) (.more (.name wordName) (.more (.name stepName)
          (.one (.many (.one (.one (.group (.one (.one (.name wordName))))))))))))]
  distinct := by decide +kernel
  closed := by simp [Factor.lexemes, Series.lexemes, Choice.lexemes]

/-- The converted grammar has a terminal and a folded name, and its references follow them. -/
theorem list_grammar_read_back :
    listGrammar.text = "Step Name = word, \x7b\"x, y\" | word\x7d-;\nword = \"a\" | \"// b\";\n" ++
      "LIST = [Step Name], word, Step Name, \x7b(word)\x7d;\n" ∧
    Conversion.convert ⟨[], ["word"], []⟩ listGrammar.text = .ok
      ("step_name : WORD (\"x, y\" | WORD)+\nWORD : \"a\" | \"// b\"\n" ++
        "LIST : [step_name] WORD step_name ((WORD))*\n") ∧
    (Definitions.ofText ("step_name : WORD (\"x, y\" | WORD)+\nWORD : \"a\" | \"// b\"\n" ++
        "LIST : [step_name] WORD step_name ((WORD))*\n") = .ok
      { rules := (listGrammar.definitions ["word"]).filter (!isTerminalName ·.name)
        terminals := (listGrammar.definitions ["word"]).filter (isTerminalName ·.name) } ∧
      ((listGrammar.definitions ["word"]).map (·.name)).Nodup) :=
  have hrules : Conversion.ofRules { terminals := ["word"] } = .ok ⟨[], ["word"], []⟩ := by
    simp [Conversion.ofRules, longestFirst, pure, Except.pure, bind, Except.bind]
  have htext : listGrammar.text = "Step Name = word, \x7b\"x, y\" | word\x7d-;\nword = \"a\" | \"// b\";\n" ++
      "LIST = [Step Name], word, Step Name, \x7b(word)\x7d;\n" := by
    decide +kernel
  have hconvert : Conversion.convert ⟨[], ["word"], []⟩ listGrammar.text = .ok
      ("step_name : WORD (\"x, y\" | WORD)+\nWORD : \"a\" | \"// b\"\n" ++
        "LIST : [step_name] WORD step_name ((WORD))*\n") :=
    eq_ok_of_to_option (by decide +kernel)
  ⟨htext, hconvert, listGrammar.convert_reads_back (by decide +kernel) (by decide) hrules hconvert⟩

def firstName : RuleName := ⟨["A".toList], by decide, by decide⟩

def secondName : RuleName := ⟨["B".toList], by decide, by decide⟩

def mergedName : RuleName := ⟨["A".toList, "B".toList], by decide, by decide⟩

def startName : RuleName := ⟨["S".toList], by decide, by decide⟩

/-- A grammar in which a rule refers to two rules whose names make up the name of a third one. -/
def mergedGrammar : Ruleset where
  rules :=
    [(firstName, .one (.one (.text ⟨"x".toList, by decide⟩))),
      (secondName, .one (.one (.text ⟨"y".toList, by decide⟩))),
      (mergedName, .one (.one (.text ⟨"z".toList, by decide⟩))),
      (startName, .one (.more (.name firstName) (.one (.name secondName))))]
  distinct := by decide +kernel
  closed := by simp [Factor.lexemes, Series.lexemes, Choice.lexemes]

/-- Commas are dropped before names are folded, so two references become one reference to a third rule, and
the converted grammar is another one. -/
theorem references_merged : mergedGrammar.text = "A = \"x\";\nB = \"y\";\nA B = \"z\";\nS = A, B;\n" ∧
    Conversion.ofRules {} = .ok ⟨[], [], []⟩ ∧
    Conversion.convert ⟨[], [], []⟩ mergedGrammar.text = .ok "A : \"x\"\nB : \"y\"\na_b : \"z\"\nS : a_b\n" ∧
    Definitions.ofText "A : \"x\"\nB : \"y\"\na_b : \"z\"\nS : a_b\n" ≠ .ok
      { rules := (mergedGrammar.definitions []).filter (!isTerminalName ·.name)
        terminals := (mergedGrammar.definitions []).filter (isTerminalName ·.name) } ∧
    ¬ mergedGrammar.Legible := by
  have hrules : Conversion.ofRules {} = .ok ⟨[], [], []⟩ := by
    simp [Conversion.ofRules, longestFirst, pure, Except.pure, bind, Except.bind]
  refine ⟨by decide +kernel, hrules, eq_ok_of_to_option (by decide +kernel), fun heq => ?_, by decide +kernel⟩
  -- The rule refers to one rule instead of two.
  have hsymbols := congrArg (fun read => read.toOption.map fun defs : Definitions =>
    defs.terminals.map (·.body.symbols)) heq
  revert hsymbols
  decide +kernel

end FlightProcedure.Ebnf
