import FlightProcedure.Proofs.Ebnf.Renaming

/-!
# The names of a converted grammar

When names are folded, each of them is one word, and rules become terminals one after another.
`promotions_printed` says that every name is then written as its final name, and `nodup_finals` that
different rules have different final names.
-/

namespace FlightProcedure.Ebnf

open List RuleName

variable {c : Char} {grammar : Ruleset} {name : RuleName} {done : List String}

/-! ## Final names -/

/-- The word that a name is written with when some rules have become terminals. -/
def finalSpelling (done : List String) (name : RuleName) : List (List Char) := [(name.final done).toList]

variable {terminal text : String} {terminals names : List String} {lexemes : List Lexeme}

theorem upper_case_ascii (h : ∀ c ∈ text.toList, c.toNat < 0x80) :
    (upperCase text).toList = text.toList.map Char.toUpper := by
  rw [upperCase, String.toList_ofList]
  generalize text.toList = chars at h
  induction chars with
  | nil => rfl
  | cons c rest ih =>
    rw [flatMap_cons, if_pos (h c (by simp)), ih fun d hd => h d (by simp [hd])]
    rfl

theorem class_of_upper (h : isAsciiWord c = true) : isAsciiWord c.toUpper = true ∧ c.toUpper.isLower = false := by
  have hascii := ascii_of_word h
  revert h
  exact of_ascii hascii (by decide)

theorem lower_of_upper (h : isAsciiWord c = true) (hupper : c.isUpper = false) : c.toUpper.toLower = c := by
  have hascii := ascii_of_word h
  revert h hupper
  exact of_ascii hascii (by decide)

theorem upper_folded (name : RuleName) : (upperCase (foldName name.text)).toList = name.folded.map Char.toUpper :=
  upper_case_ascii fun c hc => ascii_of_word (name.folded_word.2 c hc)

theorem final_cases (done : List String) (name : RuleName) : (name.folds = false ∧ name.final done = name.text) ∨
      (name.folds = true ∧ foldName name.text ∈ done ∧ name.final done = upperCase (foldName name.text)) ∨
        (name.folds = true ∧ foldName name.text ∉ done ∧ name.final done = foldName name.text) := by
  cases hspelling : isTerminalSpelling name.text with
  | true => exact .inl (by simp [folds, final, hspelling])
  | false =>
    refine .inr ?_
    by_cases hmem : foldName name.text ∈ done
    · exact .inl (by simp [folds, final, hspelling, hmem])
    · exact .inr (by simp [folds, final, hspelling, hmem])

theorem word_of_cased {classes : Char → Bool} {chars : List Char} (hclasses : ∀ c, classes c = true → c.isAlpha = true)
    (h : (match chars with
      | [] => false
      | c :: rest => classes c && rest.all fun c => classes c || c.isDigit || c == '_') = true) : IsWord chars := by
  split at h
  · cases h
  · next c rest =>
    rw [Bool.and_eq_true, all_eq_true] at h
    refine ⟨by simp, fun d hd => ?_⟩
    have hd : (classes d || d.isDigit || d == '_') = true := by
      rcases mem_cons.mp hd with rfl | hmem
      · simp [h.1]
      · exact h.2 d hmem
    simp only [isAsciiWord, Char.isAlphanum, Bool.or_eq_true] at hd ⊢
    exact hd.imp_left (Or.imp_left (hclasses d))

theorem terminal_word (h : isTerminalSpelling text = true) : IsWord text.toList :=
  word_of_cased (fun _ => is_alpha_of_upper) h

theorem folded_starts_lower (name : RuleName) : name.folded.head?.any Char.isLower = true := by
  obtain ⟨⟨c, rest, hchars, _⟩, _⟩ := name.spelled.ends
  have hstart := name.startsName
  rw [hchars] at hstart
  refine fold_starts_lower ?_
  rw [name.chars_text, chars, hchars]
  exact hstart

theorem final_word (done : List String) (name : RuleName) : IsWord (name.final done).toList := by
  rcases final_cases done name with ⟨hfolds, hfinal⟩ | ⟨_, _, hfinal⟩ | ⟨_, _, hfinal⟩
  · rw [hfinal]
    exact terminal_word (by simpa [folds] using hfolds)
  · rw [hfinal, upper_folded]
    obtain ⟨hne, hchars⟩ := name.folded_word
    refine ⟨by simpa using hne, fun c hc => ?_⟩
    obtain ⟨d, hd, rfl⟩ := mem_map.mp hc
    exact (class_of_upper (hchars d hd)).1
  · rw [hfinal]
    exact name.folded_word

theorem final_of_lower (h : (name.final done).toList.head?.any Char.isLower = true) :
    name.folds = true ∧ foldName name.text ∉ done ∧ name.final done = foldName name.text := by
  rcases final_cases done name with ⟨hfolds, hfinal⟩ | ⟨_, _, hfinal⟩ | hopen
  · rw [hfinal, terminal_starts (by simpa [folds] using hfolds)] at h
    cases h
  · rw [hfinal, upper_starts (folded_starts_lower name)] at h
    cases h
  · exact hopen

/-! ## One terminal after another -/

theorem snake_case_word (h : isSnakeCase terminal = true) :
    IsWord terminal.toList ∧ terminal.toList.head?.any Char.isLower = true := by
  refine ⟨word_of_cased (fun _ => is_alpha_of_lower) h, ?_⟩
  unfold isSnakeCase at h
  split at h
  · cases h
  · next c rest hchars =>
    rw [Bool.and_eq_true] at h
    rw [hchars]
    exact h.1

theorem unread_single {word : List Char} {final : RuleName → List Char} :
    Unread [word] (fun rule => decide (final rule = word)) (fun rule => [final rule]) lexemes where
  inHead rule hrule _ skipped hskipped := by
    intro hbegins
    have hzero : skipped = 0 := by simpa using hskipped
    rw [hzero, drop_zero] at hbegins
    exact of_decide_eq_false hrule (cons_prefix_cons.mp hbegins).1.symm
  inRow rule rest hrule _ skipped hskipped := by
    intro hbegins
    have hzero : skipped = 0 := by simpa using hskipped
    obtain ⟨others, hothers⟩ := neighbours_name rule rest
    rw [hzero, drop_zero, rowWords, hothers] at hbegins
    exact of_decide_eq_false hrule (cons_prefix_cons.mp hbegins).1.symm

theorem final_append (hlower : terminal.toList.head?.any Char.isLower = true) (done : List String)
    (name : RuleName) : name.final (done ++ [terminal]) =
      if (name.final done).toList = terminal.toList then upperCase terminal else name.final done := by
  by_cases hname : (name.final done).toList = terminal.toList
  · obtain ⟨hfolds, _, hfinal⟩ := final_of_lower (hname ▸ hlower)
    have hfold : foldName name.text = terminal := by
      rw [← hfinal]
      exact String.toList_inj.mp hname
    have hspelling : isTerminalSpelling name.text = false := by simpa [folds] using hfolds
    rw [if_pos hname]
    simp [final, hspelling, hfold]
  · rw [if_neg hname]
    rcases final_cases done name with ⟨hfolds, hfinal⟩ | ⟨hfolds, hdone, hfinal⟩ | ⟨hfolds, hopen, hfinal⟩
    all_goals
      have hspelling : isTerminalSpelling name.text = !name.folds := by simp [folds]
      rw [hfolds] at hspelling
    · simp [final, hspelling]
    · simp [final, hspelling, hdone]
    · have hne : foldName name.text ≠ terminal := by
        rintro rfl
        exact hname (by rw [hfinal])
      simp [final, hspelling, hopen, hne]

theorem replace_word_terminal (hterminal : isSnakeCase terminal = true) :
    replaceWord terminal (upperCase terminal) (printed .converted (finalSpelling done) grammar.lexemes) =
      printed .converted (finalSpelling (done ++ [terminal])) grammar.lexemes := by
  obtain ⟨hword, hlower⟩ := snake_case_word hterminal
  have hspell : respelled (fun rule => decide ((rule.final done).toList = terminal.toList))
      (upperCase terminal).toList (finalSpelling done) = finalSpelling (done ++ [terminal]) := by
    funext rule
    rw [finalSpelling, final_append hlower, respelled]
    by_cases hrule : (rule.final done).toList = terminal.toList
    · rw [if_pos hrule, if_pos (decide_eq_true hrule)]
    · rw [if_neg hrule, if_neg (by simp [hrule])]
      rfl
  have hsingle : ∀ {word : List Char}, IsWord word → Spelled [word] := fun hword =>
    ⟨by simp, fun other hother => mem_singleton.mp hother ▸ hword⟩
  have htarget : ∀ rule : RuleName, decide ((rule.final done).toList = terminal.toList) = true →
      finalSpelling done rule = [terminal.toList] :=
    fun rule hrule => congrArg (fun word => [word]) (of_decide_eq_true hrule)
  rw [← hspell]
  exact replace_word_printed rfl (hsingle hword) (fun rule => hsingle (final_word done rule)) htarget
    unread_single grammar.joined

theorem printed_congr {marks : Marks} {spell spell' : RuleName → List (List Char)}
    (h : ∀ rule, .head rule ∈ lexemes ∨ .name rule ∈ lexemes → spell rule = spell' rule) :
    printed marks spell lexemes = printed marks spell' lexemes := by
  unfold printed
  rw [flatMap_def, flatMap_def]
  refine congrArg List.flatten (map_congr_left fun lexeme hlexeme => ?_)
  cases lexeme with
  | head rule => simp only [Lexeme.written, h rule (.inl hlexeme)]
  | name rule => simp only [Lexeme.written, h rule (.inr hlexeme)]
  | _ => rfl

theorem Ruleset.name_of_reference {rule : RuleName} (h : .name rule ∈ grammar.lexemes) : rule ∈ grammar.names := by
  obtain ⟨front, rest, hlexemes⟩ := append_of_mem h
  obtain ⟨others, hothers⟩ := neighbours_name rule rest
  have hwithin : .name rule :: rest <:+: grammar.lexemes := ⟨front, [], by simp [hlexemes]⟩
  obtain ⟨_, _, _, hnames⟩ := grammar.row_of_neighbours hwithin prefix_rfl
  exact hnames rule (by simp [hothers])

theorem spell_at_renamed (h : name ∈ grammar.names) : spellAt grammar.renamed name = finalSpelling [] name := by
  cases hchanges : name.changes with
  | true =>
    rw [spellAt, if_pos (grammar.mem_renamed.mpr ⟨h, hchanges⟩)]
    simp only [changes, Bool.and_eq_true, Bool.not_eq_true'] at hchanges
    simp [finalSpelling, final, hchanges.1, folded]
  | false =>
    have hopen : name ∉ grammar.renamed := by simp [grammar.mem_renamed, hchanges]
    obtain ⟨word, hword⟩ : ∃ word, name.words = [word] := by
      have hpos : 0 < name.words.length := length_pos_iff.mpr name.spelled.ne_nil
      by_cases hmany : 1 < name.words.length
      · rw [changes_of_words name hmany] at hchanges
        cases hchanges
      · exact length_eq_one_iff.mp (by omega)
    have htext : name.text.toList = word := by
      rw [text, String.toList_ofList, chars, hword]
      rfl
    have hfinal : name.final [] = name.text := by
      cases hspelling : isTerminalSpelling name.text with
      | true => simp [final, hspelling]
      | false => simpa [final, hspelling, changes] using hchanges
    rw [spellAt, if_neg hopen, hword, finalSpelling, hfinal, htext]

theorem promotions_printed {folded : FoldedNames} {out : List Char}
    (hsnake : ∀ terminal ∈ terminals, isSnakeCase terminal = true)
    (h : terminals.foldlM (Conversion.promote names folded)
      (printed .converted (finalSpelling done) grammar.lexemes) = .ok out) :
    out = printed .converted (finalSpelling (done ++ terminals)) grammar.lexemes := by
  induction terminals generalizing done with
  | nil =>
    cases h
    simp
  | cons terminal terminals ih =>
    rw [foldlM_cons] at h
    obtain ⟨next, hnext, hrest⟩ := bind_eq_ok h
    obtain ⟨_, rfl⟩ := Conversion.promote_eq_ok hnext
    rw [replace_word_terminal (hsnake terminal (by simp))] at hrest
    simpa using ih (fun other hother => hsnake other (by simp [hother])) hrest

/-! ## Different names -/

theorem fold_name_of_upper {name other : RuleName}
    (h : upperCase (foldName name.text) = upperCase (foldName other.text)) :
    foldName name.text = foldName other.text := by
  have hlower : ∀ name : RuleName, (name.folded.map Char.toUpper).map Char.toLower = name.folded := by
    intro name
    rw [map_map]
    refine (map_congr_left fun c hc => ?_).trans (map_id _)
    have hword := name.folded_word.2 c hc
    rw [name.folded_eq] at hc
    obtain ⟨d, hd, rfl⟩ := mem_map.mp hc
    exact lower_of_upper hword (class_of_fold_char (mem_unwords name.isWord hd)).2.1
  have hupper := congrArg (fun text => text.toList.map Char.toLower) h
  simp only [upper_folded, hlower] at hupper
  exact String.toList_inj.mp hupper

theorem nodup_finals (h : Nameable (grammar.names.map RuleName.text) terminals) :
    (grammar.names.map (final terminals)).Nodup := by
  have hfinal : ∀ name : RuleName, finalName terminals name.text = name.final terminals := by
    simp [finalName, final]
  refine pairwise_map.mpr (List.Pairwise.imp_of_mem ?_ grammar.distinct)
  intro name other hname hother hne heq
  have hname := mem_map_of_mem (f := text) hname
  have hother := mem_map_of_mem (f := text) hother
  rw [← hfinal, ← hfinal] at heq
  obtain ⟨hspelling, hspelling', -, -, hupper⟩ := h.merge hname hother heq (mt text_inj hne)
  exact hne (text_inj (h.folded _ hname _ hother hspelling hspelling' (fold_name_of_upper hupper)))

end FlightProcedure.Ebnf
