import FlightProcedure.Proofs.Ebnf.FinalNames
import FlightProcedure.Proofs.Ebnf.WordReplacement

/-!
# Renaming the rules of a written grammar

Names are replaced from the longest to the shortest. `unread_of_legible` is the step: when the turn of a
name comes in a legible grammar, its words can be read at no other place. `rename_rules_printed` says that
after all replacements every name is written as its folded word, and `promote_printed` follows the
terminals.
-/

namespace FlightProcedure.Ebnf

open List RuleName

variable {c : Char} {words name : List (List Char)} {grammar : Ruleset}

/-! ## Folded names -/

def foldChar (c : Char) : Char := if c.toLower = ' ' then '_' else c.toLower

theorem ascii_of_part (h : isAsciiWord c = true ∨ c = ' ') : c.toNat < 0x80 := by
  rcases h with hword | rfl
  · exact ascii_of_word hword
  · decide

theorem RuleName.ascii (name : RuleName) (hc : c ∈ name.chars) : c.toNat < 0x80 :=
  ascii_of_part (mem_unwords name.isWord hc)

theorem class_of_fold_char (h : isAsciiWord c = true ∨ c = ' ') : isAsciiWord (foldChar c) = true ∧
    (foldChar c).isUpper = false ∧ foldChar (foldChar c) = foldChar c := by
  have hascii := ascii_of_part h
  revert h
  exact of_ascii hascii (by decide)

theorem lower_from_ascii {text : List Char} (h : ∀ c ∈ text, c.toNat < 0x80) (before : List Char) :
    lowerFrom before text = text.map Char.toLower := by
  induction text generalizing before with
  | nil => rfl
  | cons c text ih =>
    rw [lowerFrom, lowerChar, if_pos (h c (by simp)), ih fun d hd => h d (by simp [hd])]
    rfl

section

variable {text : String}

theorem fold_name_chars (h : ∀ c ∈ text.toList, isAsciiWord c = true ∨ c = ' ') :
    (foldName text).toList = text.toList.map foldChar := by
  rw [foldName, lowerCase, String.toList_ofList, String.toList_ofList,
    lower_from_ascii fun c hc => ascii_of_part (h c hc), map_map]
  rfl

theorem fold_name_word (hne : text.toList ≠ []) (h : ∀ c ∈ text.toList, isAsciiWord c = true ∨ c = ' ') :
    IsWord (foldName text).toList := by
  rw [fold_name_chars h]
  refine ⟨by simpa using hne, fun c hc => ?_⟩
  obtain ⟨d, hd, rfl⟩ := mem_map.mp hc
  exact (class_of_fold_char (h d hd)).1

theorem fold_name_fold (h : ∀ c ∈ text.toList, isAsciiWord c = true ∨ c = ' ') :
    foldName (foldName text) = foldName text := by
  have hfolded : ∀ c ∈ (foldName text).toList, isAsciiWord c = true ∧ foldChar c = c := by
    intro c hc
    rw [fold_name_chars h, mem_map] at hc
    obtain ⟨d, hd, rfl⟩ := hc
    obtain ⟨hword, _, hsame⟩ := class_of_fold_char (h d hd)
    exact ⟨hword, hsame⟩
  rw [← String.toList_inj, fold_name_chars fun c hc => .inl (hfolded c hc).1]
  rw [map_congr_left fun c hc => (hfolded c hc).2, map_id']

end

def RuleName.folded (name : RuleName) : List Char := (foldName name.text).toList

theorem RuleName.chars_text (name : RuleName) : name.text.toList = name.chars := String.toList_ofList

theorem RuleName.text_parts (name : RuleName) : ∀ c ∈ name.text.toList, isAsciiWord c = true ∨ c = ' ' := by
  rw [name.chars_text]
  exact fun c hc => mem_unwords name.isWord hc

theorem RuleName.folded_eq (name : RuleName) : name.folded = name.chars.map foldChar := by
  rw [folded, fold_name_chars name.text_parts, name.chars_text]

theorem RuleName.folded_word (name : RuleName) : IsWord name.folded := by
  obtain ⟨⟨c, rest, hchars, _⟩, _⟩ := name.spelled.ends
  refine fold_name_word ?_ name.text_parts
  rw [name.chars_text, chars, hchars]
  simp

theorem RuleName.folded_length (name : RuleName) : name.folded.length = name.chars.length := by
  rw [name.folded_eq, length_map]

def RuleName.changes (name : RuleName) : Bool := !isTerminalSpelling name.text && foldName name.text != name.text

variable {target rule other last : RuleName} {done later middle : List RuleName} {piece first : List (List Char)}
  {rest lexemes : List Lexeme} {skipped : Nat} {α : Type} {folded : FoldedNames}

theorem not_changes_of_folded {name : RuleName} (h : name.words = [other.folded]) : name.changes = false := by
  have htext : name.text = foldName other.text := by
    rw [← String.toList_inj, name.chars_text, chars, h]
    rfl
  simp [changes, htext, fold_name_fold other.text_parts]

theorem changes_of_words (name : RuleName) (h : 1 < name.words.length) : name.changes = true := by
  have hspace : ' ' ∈ name.chars := by
    unfold chars
    cases hwords : name.words with
    | nil => simp [hwords] at h
    | cons word rest =>
      cases rest with
      | nil => simp [hwords] at h
      | cons next rest => simp [unwords]
  have hspelling : isTerminalSpelling name.text = false := by
    obtain ⟨⟨c, rest, hchars, hc⟩, _⟩ := name.spelled.ends
    rw [chars, hchars] at hspace
    have hne : ' ' ≠ c := by
      rintro rfl
      exact absurd hc (by decide)
    have hrest : ' ' ∈ rest := (mem_cons.mp hspace).resolve_left hne
    rw [isTerminalSpelling, text, String.toList_ofList, chars, hchars]
    have hnot : (rest.all fun c => c.isUpper || c.isDigit || c == '_') = false := by
      rw [all_eq_false]
      exact ⟨' ', hrest, by decide⟩
    simp [hnot]
  have hfold : foldName name.text ≠ name.text := by
    intro heq
    have hchars : name.folded = name.chars := by
      rw [folded, heq, text, String.toList_ofList]
    have hmem := name.folded_word.2 ' ' (by rw [hchars]; exact hspace)
    exact absurd hmem (by decide)
  simp [changes, hspelling, hfold]

theorem utf8_size_ascii {chars : List Char} (h : ∀ c ∈ chars, c.toNat < 0x80) :
    (String.ofList chars).utf8ByteSize = chars.length := by
  induction chars with
  | nil => rfl
  | cons c rest ih =>
    have hc : c.utf8Size = 1 := by
      have hbound := h c (by simp)
      refine Char.utf8Size_eq_one_iff.mpr (UInt32.le_iff_toNat_le.mpr ?_)
      show c.toNat ≤ 127
      omega
    rw [String.ofList_cons, String.utf8ByteSize_append, String.utf8ByteSize_singleton, hc,
      ih fun d hd => h d (by simp [hd]), length_cons, Nat.add_comm]

theorem RuleName.utf8_size (name : RuleName) : name.text.utf8ByteSize = name.chars.length :=
  utf8_size_ascii fun _ hc => name.ascii hc

/-! ## Names across references -/

variable {spell : RuleName → List (List Char)} {row : List RuleName}

def room : List (List Char) → Nat
  | [] => 0
  | word :: words => word.length + 1 + room words

theorem room_append (words more : List (List Char)) : room (words ++ more) = room words + room more := by
  induction words with
  | nil => simp [room]
  | cons word words ih => simp only [cons_append, room, ih, Nat.add_assoc]

theorem room_pos (h : words ≠ []) : 0 < room words := by
  cases words with
  | nil => exact absurd rfl h
  | cons word words => simp only [room]; omega

theorem RuleName.room_words (name : RuleName) : room name.words = name.chars.length + 1 := by
  have hroom : ∀ words : List (List Char), words ≠ [] → room words = (unwords words).length + 1 := by
    intro words hne
    induction words with
    | nil => exact absurd rfl hne
    | cons word rest ih =>
      cases rest with
      | nil => rfl
      | cons next rest =>
        rw [unwords_cons (by simp), room, ih (by simp)]
        simp only [length_append, length_cons]
        omega
  exact hroom name.words name.spelled.ne_nil

theorem room_le_of_mem (h : other ∈ row) : room (spell other) ≤ room (row.flatMap spell) := by
  induction row with
  | nil => cases h
  | cons first row ih =>
    rw [flatMap_cons, room_append]
    rcases mem_cons.mp h with rfl | hmem
    · omega
    · have := ih hmem
      omega

theorem straddle_of_start (h : name <+: first ++ row.flatMap spell) :
    name <+: first ∨ ∃ middle last piece, middle ++ [last] <+: row ∧ piece ≠ [] ∧ piece <+: spell last ∧
      name = first ++ middle.flatMap spell ++ piece := by
  induction row generalizing first with
  | nil => exact .inl (by simpa using h)
  | cons next row ih =>
    rw [flatMap_cons, ← append_assoc] at h
    rcases ih h with hbegins | ⟨middle, last, piece, hrow, hne, hpiece, rfl⟩
    · rcases prefix_or_prefix_of_prefix hbegins (prefix_append first (spell next)) with
        hfirst | ⟨piece, rfl⟩
      · exact .inl hfirst
      · have hpiece : piece <+: spell next := (prefix_append_right_inj first).mp hbegins
        by_cases hne : piece = []
        · exact .inl (by simp [hne])
        · exact .inr ⟨[], next, piece, cons_prefix_cons.mpr ⟨rfl, nil_prefix⟩, hne, hpiece, by simp⟩
    · exact .inr ⟨next :: middle, last, piece, cons_prefix_cons.mpr ⟨rfl, hrow⟩, hne, hpiece, by simp⟩

theorem prefix_singleton {word : List Char} (hname : name ≠ []) (h : name <+: [word]) : name = [word] := by
  rcases prefix_concat_iff.mp (show name <+: [] ++ [word] from h) with heq | hnil
  · exact heq
  · exact absurd (prefix_nil.mp hnil) hname

theorem room_lt_of_straddle {word : List Char} (hfirst : first ≠ []) (hne : piece ≠ [])
    (hpiece : piece <+: spell last) (hother : other ∈ middle ++ [last]) (hword : spell other = [word]) :
    word.length + 1 < room (first ++ middle.flatMap spell ++ piece) := by
  have hpos := room_pos hfirst
  have hone : room [word] = word.length + 1 := rfl
  rw [room_append, room_append]
  rcases mem_append.mp hother with hmem | hmem
  · have hle : room (spell other) ≤ _ := room_le_of_mem hmem
    rw [hword, hone] at hle
    omega
  · rw [mem_singleton.mp hmem] at hword
    rw [hword] at hpiece
    rw [prefix_singleton hne hpiece, hone]
    omega

theorem straddles_of_straddle {first : RuleName} (hskipped : skipped < first.words.length) (hne : piece ≠ [])
    (hpiece : piece <+: last.words)
    (hname : target.words = first.words.drop skipped ++ middle.flatMap RuleName.words ++ piece) :
    straddles target (first :: (middle ++ [last])) = true := by
  obtain ⟨next, rest, hrow⟩ : ∃ next rest, middle ++ [last] = next :: rest := by
    cases middle with
    | nil => exact ⟨last, [], rfl⟩
    | cons next middle => exact ⟨next, middle ++ [last], rfl⟩
  have hlast : (next :: rest).getLast (by simp) = last := by
    have hmany : (middle ++ [last]).getLast (by simp) = last := getLast_concat
    simpa only [hrow] using hmany
  have hwords : (first :: next :: rest).flatMap (·.words) =
      first.words ++ (middle.flatMap RuleName.words ++ last.words) := by
    rw [← hrow]
    simp
  have hpos : 0 < piece.length := length_pos_iff.mpr hne
  rw [hrow, straddles, any_eq_true]
  refine ⟨skipped, mem_range.mpr hskipped, ?_⟩
  rw [hlast, hwords, drop_append_of_le_length (Nat.le_of_lt hskipped), hname, Bool.and_eq_true]
  constructor
  · rw [ isPrefixOf_iff_prefix, append_assoc]
    exact (prefix_append_right_inj _).mpr ((prefix_append_right_inj _).mpr hpiece)
  · simp only [length_append, length_drop, decide_eq_true_eq]
    omega

theorem neighbours_name (rule : RuleName) (rest : List Lexeme) :
    ∃ others, neighbours (.name rule :: rest) = rule :: others := by
  unfold neighbours
  split
  · next heq =>
    cases heq
    exact ⟨_, rfl⟩
  · next heq =>
    cases heq
    exact ⟨_, rfl⟩
  · next hname => exact absurd rfl (hname rule rest)

theorem neighbours_grow (lexemes more : List Lexeme) : neighbours lexemes <+: neighbours (lexemes ++ more) := by
  fun_induction neighbours lexemes with
  | case1 rule rest ih => exact cons_prefix_cons.mpr ⟨rfl, ih⟩
  | case2 rule rest =>
    obtain ⟨others, hothers⟩ := neighbours_name rule (rest ++ more)
    rw [cons_append, hothers]
    exact cons_prefix_cons.mpr ⟨rfl, nil_prefix⟩
  | case3 => exact nil_prefix

theorem neighbours_stop (lexemes more : List Lexeme) : neighbours (lexemes ++ .stop :: more) = neighbours lexemes := by
  fun_induction neighbours lexemes with
  | case1 rule rest ih => exact congrArg (rule :: ·) ih
  | case2 rule rest hcomma =>
    cases rest with
    | nil => rfl
    | cons next rest =>
      cases next with
      | comma => exact absurd rfl (hcomma rest)
      | _ => rfl
  | case3 lexemes hcomma hname =>
    cases lexemes with
    | nil => rfl
    | cons next rest =>
      cases next with
      | name rule => exact absurd rfl (hname rule rest)
      | _ => rfl

theorem Ruleset.reference_in_rule (h : .name rule :: rest <:+ grammar.lexemes) :
    ∃ entry ∈ grammar.rules, ∃ tail more, rest = tail ++ .stop :: more ∧ .name rule :: tail <:+ entry.2.lexemes := by
  unfold Ruleset.lexemes at h
  generalize grammar.rules = rules at h
  induction rules with
  | nil => cases suffix_nil.mp h
  | cons entry rules ih =>
    rw [flatMap_cons] at h
    obtain ⟨front, hfront⟩ := h
    rcases append_eq_append_iff.mp hfront with ⟨part, hpart, hrest⟩ | ⟨part, _, hrest⟩
    · cases part with
      | nil =>
        obtain ⟨other, hother, hfound⟩ := ih ⟨[], hrest⟩
        exact ⟨other, by simp [hother], hfound⟩
      | cons next part =>
        obtain ⟨rfl, rfl⟩ := cons.inj hrest
        -- The reference stands in this rule, behind the head and before the end.
        cases front with
        | nil => cases (cons.inj hpart).1
        | cons head front =>
          have hbody : entry.2.lexemes ++ [.stop] = front ++ .name rule :: part := (cons.inj hpart).2
          obtain ⟨tail, rfl⟩ : ∃ tail, part = tail ++ [.stop] := by
            rcases eq_nil_or_concat part with rfl | ⟨tail, last, rfl⟩
            · cases (append_inj' hbody rfl).2
            · rw [concat_eq_append, ← cons_append, ← append_assoc] at hbody
              rw [concat_eq_append, ← (append_inj' hbody rfl).2]
              exact ⟨tail, rfl⟩
          rw [← cons_append, ← append_assoc] at hbody
          exact ⟨entry, by simp, tail, _, append_assoc tail [.stop] _, front, (append_inj' hbody rfl).1.symm⟩
    · obtain ⟨other, hother, hfound⟩ := ih ⟨part, hrest.symm⟩
      exact ⟨other, by simp [hother], hfound⟩

theorem mem_of_mem_neighbours (h : rule ∈ neighbours lexemes) : .name rule ∈ lexemes := by
  fun_induction neighbours lexemes with
  | case1 first rest ih =>
    rcases mem_cons.mp h with rfl | hmem
    · simp
    · simp [ih hmem]
  | case2 first rest => simp [mem_singleton.mp h]
  | case3 => cases h

theorem Ruleset.row_of_neighbours (h : .name rule :: rest <:+: grammar.lexemes)
    (hrow : row <+: neighbours (.name rule :: rest)) :
    ∃ entry ∈ grammar.rules, row ∈ rows entry.2.lexemes ∧ ∀ other ∈ row, other ∈ grammar.names := by
  obtain ⟨front, post, hlexemes⟩ := h
  obtain ⟨entry, hentry, tail, more, htail, hsuffix⟩ : ∃ entry ∈ grammar.rules, ∃ tail more,
      rest ++ post = tail ++ .stop :: more ∧ .name rule :: tail <:+ entry.2.lexemes :=
    grammar.reference_in_rule ⟨front, by simpa using hlexemes⟩
  have hfull : row <+: neighbours (.name rule :: tail) := by
    have hmore := hrow.trans (neighbours_grow (.name rule :: rest) post)
    rw [cons_append, htail, ← cons_append, neighbours_stop] at hmore
    exact hmore
  refine ⟨entry, hentry, ?_, fun other hother => ?_⟩
  · have hdrop := suffix_iff_eq_drop.mp hsuffix
    have hplace : entry.2.lexemes.length - (.name rule :: tail).length < entry.2.lexemes.length := by
      have hlength := hsuffix.length_le
      simp only [length_cons] at hlength ⊢
      omega
    refine mem_flatMap.mpr ⟨_, mem_range.mpr hplace, ?_⟩
    rw [← hdrop]
    have hlength := hfull.length_le
    exact mem_map.mpr ⟨row.length, mem_range.mpr (by omega), (prefix_iff_eq_take.mp hfull).symm⟩
  · have hmem := hsuffix.subset (mem_of_mem_neighbours (hfull.subset hother))
    exact grammar.closed entry hentry other hmem

/-! ## One name after another -/

def spellAt (done : List RuleName) (name : RuleName) : List (List Char) :=
  if name ∈ done then [name.folded] else name.words

theorem spell_at_spelled (done : List RuleName) (name : RuleName) : Spelled (spellAt done name) := by
  unfold spellAt
  split
  · exact ⟨by simp, by simp [name.folded_word]⟩
  · exact name.spelled

/-- `Due grammar done target` says that it is the turn of a name: the names that have been folded are as
long, and they are all the changing names that precede it. -/
structure Due (grammar : Ruleset) (done : List RuleName) (target : RuleName) : Prop where
  changes : target.changes = true
  longer : ∀ name ∈ done, target.chars.length ≤ name.chars.length
  preceding : ∀ name ∈ grammar.names, name.changes = true → grammar.precedes name target = true → name ∈ done

theorem RuleName.ext_words {name : RuleName} (h : name.words = other.words) : name = other := by
  cases name
  cases other
  cases h
  rfl

theorem Due.unread_in_name (hdue : Due grammar done target) (hrule : rule ∈ grammar.names) (hne : rule ≠ target)
    (hskipped : skipped < (spellAt done rule).length) : ¬ target.words <+: (spellAt done rule).drop skipped := by
  intro hbegins
  by_cases hdone : rule ∈ done
  · -- A folded word that is the name would not change.
    rw [spellAt, if_pos hdone] at hskipped hbegins
    have hzero : skipped = 0 := by simpa using hskipped
    rw [hzero, drop_zero] at hbegins
    have hsame := not_changes_of_folded (prefix_singleton target.spelled.ne_nil hbegins)
    rw [hdue.changes] at hsame
    cases hsame
  · -- A longer name that has it among its words precedes it.
    rw [spellAt, if_neg hdone] at hskipped hbegins
    obtain ⟨rest, hrest⟩ := hbegins
    have hwords : rule.words = rule.words.take skipped ++ (target.words ++ rest) := by
      rw [hrest, take_append_drop]
    have hpos : 0 < target.words.length := length_pos_iff.mpr target.spelled.ne_nil
    have hroom := rule.room_words
    rw [hwords, room_append, room_append, target.room_words] at hroom
    have hmore : rule.words.take skipped ≠ [] ∨ rest ≠ [] := by
      by_cases hfront : rule.words.take skipped = []
      · refine .inr fun hnil => hne (ext_words ?_)
        rw [hwords, hfront, hnil, nil_append, append_nil]
      · exact .inl hfront
    have hlonger : target.chars.length < rule.chars.length ∧ target.words.length < rule.words.length := by
      have hlength := congrArg List.length hwords
      simp only [length_append] at hlength
      rcases hmore with hmore | hmore <;>
        · have := room_pos hmore
          have := length_pos_iff.mpr hmore
          omega
    have hchanges := changes_of_words rule (by omega)
    exact hdone (hdue.preceding rule hrule hchanges (by simp [Ruleset.precedes, hlonger.1]))

theorem Due.unread_across (hlegible : grammar.Legible) (htarget : target ∈ grammar.names)
    (hdue : Due grammar done target) (hne : rule ≠ target)
    (hlexemes : .name rule :: lexemes <:+: grammar.lexemes)
    (hrow : rule :: (middle ++ [last]) <+: neighbours (.name rule :: lexemes))
    (hskipped : skipped < (spellAt done rule).length) (hpieceNe : piece ≠ [])
    (hpiece : piece <+: spellAt done last) :
    target.words ≠ (spellAt done rule).drop skipped ++ middle.flatMap (spellAt done) ++ piece := by
  intro hwords
  have hfirst : (spellAt done rule).drop skipped ≠ [] := by
    intro hnil
    have := drop_eq_nil_iff.mp hnil
    omega
  -- The name is longer than any of the references that is written with one word.
  have hroom : ∀ other ∈ rule :: (middle ++ [last]), ∀ word, spellAt done other = [word] →
      word.length < target.chars.length := by
    intro other hother word hword
    have hlength := target.room_words
    rw [hwords] at hlength
    rcases mem_cons.mp hother with rfl | hmem
    · have hzero : skipped = 0 := by simpa [hword] using hskipped
      have hpos := room_pos hpieceNe
      rw [hzero, hword, drop_zero, room_append, room_append] at hlength
      simp only [room] at hlength
      omega
    · have hlt := room_lt_of_straddle hfirst hpieceNe hpiece hmem hword
      omega
  -- So none of them has been folded.
  have hopen : ∀ other ∈ rule :: (middle ++ [last]), other ∉ done := by
    intro other hother hdone
    have hshort := hroom other hother other.folded (by rw [spellAt, if_pos hdone])
    have hlong := hdue.longer other hdone
    rw [other.folded_length] at hshort
    omega
  have hspell : ∀ other ∈ rule :: (middle ++ [last]), spellAt done other = other.words := by
    intro other hother
    rw [spellAt, if_neg (hopen other hother)]
  have hmiddle : middle.flatMap (spellAt done) = middle.flatMap RuleName.words := by
    rw [flatMap_def, flatMap_def]
    exact congrArg List.flatten (map_congr_left fun other hother => hspell other (by simp [hother]))
  rw [hspell rule (by simp)] at hskipped hwords
  rw [hmiddle] at hwords
  rw [hspell last (by simp)] at hpiece
  have hstraddles := straddles_of_straddle hskipped hpieceNe hpiece hwords
  obtain ⟨entry, hentry, hrows, hnames⟩ := grammar.row_of_neighbours hlexemes hrow
  rcases hlegible entry hentry _ hrows target htarget hstraddles with hhead | ⟨other, hother, hprecedes⟩
  · exact hne (Option.some.inj hhead)
  · have hlength : target.chars.length ≤ other.chars.length := by
      simp only [Ruleset.precedes, Bool.or_eq_true, Bool.and_eq_true, decide_eq_true_eq, beq_iff_eq] at hprecedes
      omega
    -- A reference that precedes the name has several words, so its turn has come before.
    have hmany : 1 < other.words.length := by
      have hpos : 0 < other.words.length := length_pos_iff.mpr other.spelled.ne_nil
      by_cases hone : other.words.length = 1
      · obtain ⟨word, hword⟩ := length_eq_one_iff.mp hone
        have hshort := hroom other hother word ((hspell other hother).trans hword)
        have hchars : other.chars = word := by
          rw [RuleName.chars, hword]
          rfl
        rw [hchars] at hlength
        omega
      · omega
    exact hopen other hother
      (hdue.preceding other (hnames other hother) (changes_of_words other hmany) hprecedes)

theorem Ruleset.name_of_head (h : .head rule ∈ grammar.lexemes) : rule ∈ grammar.names := by
  obtain ⟨entry, hentry, hmem⟩ := mem_flatMap.mp h
  rcases mem_append.mp hmem with hmem | hmem
  · rcases mem_cons.mp hmem with heq | hbody
    · cases heq
      exact mem_map.mpr ⟨entry, hentry, rfl⟩
    · cases (inner_choice entry.2 _ hbody).1
  · cases mem_singleton.mp hmem

theorem Due.unread (hlegible : grammar.Legible) (htarget : target ∈ grammar.names)
    (hdue : Due grammar done target) :
    Unread target.words (fun rule => decide (rule = target)) (spellAt done) grammar.lexemes where
  inHead rule hrule hhead skipped hskipped :=
    hdue.unread_in_name (grammar.name_of_head hhead) (of_decide_eq_false hrule) hskipped
  inRow rule rest hrule hlexemes skipped hskipped := by
    intro hbegins
    have hne : rule ≠ target := of_decide_eq_false hrule
    obtain ⟨others, hothers⟩ := neighbours_name rule rest
    rw [rowWords, hothers, flatMap_cons, drop_append_of_le_length (Nat.le_of_lt hskipped)] at hbegins
    rcases straddle_of_start hbegins with hinside | ⟨middle, last, piece, hrow, hpieceNe, hpiece, hwords⟩
    · obtain ⟨entry, _, _, hnames⟩ := grammar.row_of_neighbours hlexemes prefix_rfl
      exact hdue.unread_in_name (hnames rule (by simp [hothers])) hne hskipped hinside
    · refine hdue.unread_across hlegible htarget hne hlexemes ?_ hskipped hpieceNe hpiece hwords
      rw [hothers]
      exact cons_prefix_cons.mpr ⟨rfl, hrow⟩

def Ruleset.renamed (grammar : Ruleset) : List RuleName :=
  longestFirst (fun name => name.chars.length) (grammar.names.filter changes)

theorem Ruleset.nodup_renamed (grammar : Ruleset) : grammar.renamed.Nodup :=
  (mergeSort_perm _ _).nodup_iff.mpr (filter_sublist.nodup grammar.distinct)

theorem Ruleset.mem_renamed {name : RuleName} :
    name ∈ grammar.renamed ↔ name ∈ grammar.names ∧ name.changes = true := by
  rw [Ruleset.renamed, longestFirst, mem_mergeSort, mem_filter]

theorem longer_order (length : α → Nat) :
    (∀ a b c, decide (length b ≤ length a) = true → decide (length c ≤ length b) = true →
      decide (length c ≤ length a) = true) ∧
    ∀ a b, (decide (length b ≤ length a) || decide (length a ≤ length b)) = true := by
  refine ⟨fun a b c hab hbc => ?_, fun a b => ?_⟩
  · simp only [decide_eq_true_eq] at hab hbc ⊢
    omega
  · simp only [Bool.or_eq_true, decide_eq_true_eq]
    omega

theorem longest_first_sorted (length : α → Nat) (names : List α) :
    (longestFirst length names).Pairwise fun a b => length b ≤ length a := by
  have hsorted := pairwise_mergeSort (longer_order length).1 (longer_order length).2 names
  exact hsorted.imp of_decide_eq_true

theorem longest_first_keeps {length : α → Nat} {names : List α} {a b : α} (hlength : length b ≤ length a)
    (h : [a, b].Sublist names) : [a, b].Sublist (longestFirst length names) :=
  pair_sublist_mergeSort (longer_order length).1 (longer_order length).2 (decide_eq_true hlength) h

theorem not_before {name : RuleName} (hnodup : (done ++ target :: later).Nodup) (hlater : name ∈ later) :
    ¬ [name, target].Sublist (done ++ target :: later) := by
  intro hsublist
  obtain ⟨-, hrest, hapart⟩ := nodup_append.mp hnodup
  have htarget : target ∉ later := (nodup_cons.mp hrest).1
  obtain ⟨front, back, heq, hfront, hback⟩ := sublist_append_iff.mp hsublist
  cases front with
  | nil =>
    rw [← heq.trans (nil_append back)] at hback
    rcases sublist_cons_iff.mp hback with hback | ⟨_, hcons, _⟩
    · exact htarget (hback.subset (by simp))
    · exact htarget ((cons.inj hcons).1 ▸ hlater)
  | cons first front =>
    obtain rfl := (cons.inj heq).1
    exact hapart name (hfront.subset mem_cons_self) name (by simp [hlater]) rfl

theorem Ruleset.due_of_renamed (h : grammar.renamed = done ++ target :: later) : Due grammar done target := by
  have hsorted : List.Pairwise _ grammar.renamed := longest_first_sorted _ _
  have hmem : ∀ name, name ∈ grammar.renamed ↔ name ∈ done ∨ name = target ∨ name ∈ later := by
    simp [h]
  have htarget := (grammar.mem_renamed.mp ((hmem target).mpr (by simp))).2
  rw [h, pairwise_append] at hsorted
  refine ⟨htarget, fun name hname => ?_, fun name hname hchanges hprecedes => ?_⟩
  · exact hsorted.2.2 name hname target (by simp)
  · simp only [Ruleset.precedes, Bool.or_eq_true, Bool.and_eq_true, decide_eq_true_eq, beq_iff_eq,
      isSublist_iff_sublist] at hprecedes
    rcases (hmem name).mp (grammar.mem_renamed.mpr ⟨hname, hchanges⟩) with hdone | rfl | hlater
    · exact hdone
    · -- No name precedes itself.
      have hsublist := (hprecedes.resolve_left (by omega)).2.nodup grammar.distinct
      simp at hsublist
    · -- A name that comes later is not longer, and among names of one length the order is kept.
      have hshorter := rel_of_pairwise_cons hsorted.2.1 hlater
      obtain ⟨hlength, hsublist⟩ := hprecedes.resolve_left (by omega)
      have hfiltered : [name, target].Sublist (grammar.names.filter changes) := by
        have hkept := hsublist.filter changes
        simpa [hchanges, htarget] using hkept
      have hrenamed : [name, target].Sublist grammar.renamed := longest_first_keeps (by omega) hfiltered
      rw [h] at hrenamed
      exact absurd hrenamed (not_before (h ▸ grammar.nodup_renamed) hlater)

theorem replace_word_due (hlegible : grammar.Legible) (h : grammar.renamed = done ++ target :: later) :
    replaceWord target.text (foldName target.text) (printed .converted (spellAt done) grammar.lexemes) =
      printed .converted (spellAt (done ++ [target])) grammar.lexemes := by
  have hmem : target ∈ grammar.renamed := by simp [h]
  have hdone : target ∉ done := by
    have hnodup := grammar.nodup_renamed
    rw [h, nodup_append] at hnodup
    exact fun hmem => hnodup.2.2 target hmem target (by simp) rfl
  have htarget : ∀ rule, decide (rule = target) = true → spellAt done rule = target.words := by
    intro rule hrule
    rw [of_decide_eq_true hrule, spellAt, if_neg hdone]
  have hspell : respelled (fun rule => decide (rule = target)) target.folded (spellAt done) =
      spellAt (done ++ [target]) := by
    funext rule
    by_cases hrule : rule = target <;> simp [respelled, spellAt, hrule]
  have hunread := (grammar.due_of_renamed h).unread hlegible (grammar.mem_renamed.mp hmem).1
  rw [← hspell]
  exact replace_word_printed String.toList_ofList target.spelled (spell_at_spelled done) htarget hunread
    grammar.joined

theorem replace_words_printed (hlegible : grammar.Legible) (h : grammar.renamed = done ++ later) :
    later.foldl (fun text name => replaceWord name.text (foldName name.text) text)
      (printed .converted (spellAt done) grammar.lexemes) =
        printed .converted (spellAt grammar.renamed) grammar.lexemes := by
  induction later generalizing done with
  | nil => rw [h, append_nil, foldl_nil]
  | cons target later ih =>
    rw [foldl_cons, replace_word_due hlegible h]
    exact ih (by simp [h])

/-! ## The folded names -/

theorem RuleName.text_inj {name : RuleName} (h : name.text = other.text) : name = other := by
  have hchars : unwords name.words = unwords other.words := String.ofList_inj.mp h
  have hend : Apart [] := ⟨rfl, fun rest hrest => by cases hrest⟩
  have hbegins : name.words <+: other.words :=
    prefix_of_unwords name.isWord other.isWord other.spelled.ne_nil hend rfl (congrArg (· ++ []) hchars)
  have hback : other.words <+: name.words :=
    prefix_of_unwords other.isWord name.isWord name.spelled.ne_nil hend rfl (congrArg (· ++ []) hchars.symm)
  exact ext_words (hbegins.eq_of_length_le hback.length_le)

def RuleName.entry (name : RuleName) : String × String := (foldName name.text, name.text)

def RuleName.folds (name : RuleName) : Bool := !isTerminalSpelling name.text

theorem fold_names_eq {names : List RuleName} {start : FoldedNames} (hnodup : (done ++ names).Nodup)
    (hstart : start = (done.filter folds).map entry)
    (h : (names.map text).foldlM addFolded start = .ok folded) :
    folded = ((done ++ names).filter folds).map entry := by
  induction names generalizing done start with
  | nil =>
    cases h
    rw [append_nil]
    exact hstart
  | cons name names ih =>
    rw [map_cons, foldlM_cons] at h
    obtain ⟨next, hnext, hrest⟩ := bind_eq_ok h
    have hsplit : done ++ name :: names = (done ++ [name]) ++ names := by simp
    rw [hsplit] at hnodup ⊢
    refine ih hnodup ?_ hrest
    obtain ⟨rfl, hmem⟩ | ⟨hspelling, rfl, -⟩ := add_folded_eq_ok hnext
    · cases hspelling : isTerminalSpelling name.text with
      | true => simp [hstart, folds, hspelling]
      | false =>
        -- The same name has not been folded before.
        have hentry := hmem hspelling
        rw [hstart] at hentry
        obtain ⟨other, hother, hsame⟩ := mem_map.mp hentry
        obtain rfl : other = name := text_inj (congrArg Prod.snd hsame)
        rw [append_assoc, nodup_append] at hnodup
        exact absurd rfl (hnodup.2.2 other (mem_filter.mp hother).1 other (by simp))
    · simp [hstart, folds, hspelling, entry]

theorem renamings_eq (hfolded : folded = (grammar.names.filter folds).map entry) :
    Conversion.renamings folded = grammar.renamed.map entry := by
  have hchanges : (grammar.names.filter folds).filter
      ((fun entry : String × String => entry.1 != entry.2) ∘ entry) =
        grammar.names.filter changes := by
    rw [filter_filter]
    refine filter_congr fun name _ => ?_
    simp only [Function.comp_apply, entry, folds, changes]
    rw [Bool.and_comm]
  rw [Conversion.renamings, hfolded, filter_map, hchanges, longestFirst, Ruleset.renamed, longestFirst]
  refine (map_mergeSort fun name _ other _ => ?_).symm
  simp only [entry, utf8_size]

theorem rename_rules_printed (hlegible : grammar.Legible)
    (hfolded : folded = (grammar.names.filter folds).map entry) :
    Conversion.renameRules folded (printed .converted RuleName.words grammar.lexemes) =
      printed .converted (spellAt grammar.renamed) grammar.lexemes := by
  have hstart : spellAt [] = RuleName.words := by
    funext name
    simp [spellAt]
  rw [Conversion.rename_rules_eq, renamings_eq hfolded, foldl_map, ← hstart]
  exact replace_words_printed hlegible (nil_append _).symm

end FlightProcedure.Ebnf
