import FlightProcedure.Proofs.Grammar.Vocabulary
import Mathlib.Data.List.Infix

/-!
# Guarded terminals and reserved words

A terminal is guarded if it is listed as such or refers to a guarded terminal, however far. What a guarded
terminal avoids are the words of the literals of all rules and the listed words. `Guards.mem_closure` says
that all guarded terminals are found, and `build_knows` that a grammar that can be built reserves just these
words.
-/

namespace FlightProcedure

open List String

def BodyToken.words : BodyToken → List (List Char)
  | .literal text => FlightProcedure.words text.toList
  | _ => []

/-- The word is the only word of a literal among the leaves, and alphabetic. -/
def IsKeywordIn (leaves : List BodyToken) (word : List Char) : Prop :=
  (∃ leaf ∈ leaves, leaf.words = [word]) ∧ word.all isAlphabetic = true

/-- The words are those of a literal of several words among the leaves. -/
def IsPhraseIn (leaves : List BodyToken) (phrase : List (List Char)) : Prop :=
  (∃ leaf ∈ leaves, leaf.words = phrase) ∧ 2 ≤ phrase.length

instance (leaves : List BodyToken) (word : List Char) : Decidable (IsKeywordIn leaves word) :=
  inferInstanceAs (Decidable (_ ∧ _))

variable {name text source : String} {phrase : List (List Char)} {written : TerminalSource}

namespace Definitions

/-- The name is listed as guarded, or belongs to a terminal that refers to a guarded one. -/
inductive Guards (defs : Definitions) (options : GrammarOptions) : String → Prop where
  | listed {name : String} (hlisted : name ∈ options.guarded) : Guards defs options name
  | refers {definition : Definition} {symbol : String} (hmem : definition ∈ defs.terminals)
      (hsymbol : symbol ∈ definition.body.symbols) (hguards : Guards defs options symbol) :
      Guards defs options definition.name

/-- What is written in the rules: names, literals and patterns, at any depth. -/
def ruleLeaves (defs : Definitions) : List BodyToken := defs.rules.flatMap (·.body.leaves)

/-- The text has no reserved words: no word of it is a keyword or listed, and the words of a literal of
several words do not stand in it one after another. -/
structure Avoids (defs : Definitions) (options : GrammarOptions) (text : List Char) : Prop where
  keywords : ∀ word ∈ words text, ¬ IsKeywordIn defs.ruleLeaves word
  listed : ∀ word ∈ words text, ofList word ∉ options.reserved
  phrases : ∀ leaf ∈ defs.ruleLeaves, 2 ≤ leaf.words.length → ¬ leaf.words <:+: words text

instance (defs : Definitions) (options : GrammarOptions) (text : List Char) : Decidable (defs.Avoids options text) :=
  decidable_of_iff
    ((∀ word ∈ words text, ¬ IsKeywordIn defs.ruleLeaves word) ∧
      (∀ word ∈ words text, ofList word ∉ options.reserved) ∧
        ∀ leaf ∈ defs.ruleLeaves, 2 ≤ leaf.words.length → ¬ leaf.words <:+: words text)
    ⟨fun ⟨hkeywords, hlisted, hphrases⟩ => ⟨hkeywords, hlisted, hphrases⟩, fun h => ⟨h.keywords, h.listed, h.phrases⟩⟩

/-! ## Guarded terminals -/

def Closed (terminals : List Definition) (guarded : List String) : Prop :=
  ∀ definition ∈ terminals, ∀ symbol ∈ definition.body.symbols, symbol ∈ guarded → definition.name ∈ guarded

section

variable {terminals : List Definition} {guarded : List String} {definition : Definition}

theorem subset_guard_step (terminals : List Definition) (guarded : List String) :
    guarded ⊆ guardStep terminals guarded := by
  unfold guardStep
  induction terminals generalizing guarded with
  | nil => exact Subset.refl _
  | cons definition terminals ih =>
    rw [foldl_cons]
    refine Subset.trans ?_ (ih _)
    split
    · exact subset_cons_self _ _
    · exact Subset.refl _

theorem mem_guard_step_of_refers (hmem : definition ∈ terminals) {symbol : String}
    (hsymbol : symbol ∈ definition.body.symbols) (hguarded : symbol ∈ guarded) :
    definition.name ∈ guardStep terminals guarded := by
  unfold guardStep
  induction terminals generalizing guarded with
  | nil => cases hmem
  | cons first terminals ih =>
    rw [foldl_cons]
    rcases mem_cons.mp hmem with rfl | hmem
    · apply subset_guard_step
      split
      · exact mem_cons_self
      · next hknown =>
        simp only [any_eq_true, decide_eq_true_eq, not_and, not_exists] at hknown
        by_contra hnew
        exact hknown hnew symbol hsymbol hguarded
    · refine ih hmem ?_
      split
      · exact mem_cons_of_mem _ hguarded
      · exact hguarded

theorem guard_step_of_closed (hclosed : Closed terminals guarded) : guardStep terminals guarded = guarded := by
  unfold guardStep
  induction terminals with
  | nil => rfl
  | cons definition terminals ih =>
    rw [foldl_cons, if_neg]
    · exact ih fun other hother => hclosed other (mem_cons_of_mem _ hother)
    · rintro ⟨hnew, hrefers⟩
      obtain ⟨symbol, hsymbol, hguarded⟩ := any_eq_true.mp hrefers
      exact hnew (hclosed definition mem_cons_self symbol hsymbol (by simpa using hguarded))

def missing (terminals : List Definition) (guarded : List String) : List Definition :=
  terminals.filter fun definition => definition.name ∉ guarded

theorem missing_guard_step (hopen : ¬ Closed terminals guarded) :
    (missing terminals (guardStep terminals guarded)).length < (missing terminals guarded).length := by
  simp only [Closed, not_forall] at hopen
  obtain ⟨definition, hmem, symbol, hsymbol, hguarded, hnew⟩ := hopen
  have hfilter : missing terminals (guardStep terminals guarded) = (missing terminals guarded).filter fun definition =>
        definition.name ∉ guardStep terminals guarded := by
    rw [missing, missing, filter_filter]
    apply filter_congr
    intro other _
    by_cases hother : other.name ∈ guarded
    · simp [hother, subset_guard_step terminals guarded hother]
    · simp [hother]
  rw [hfilter, length_filter_lt_length_iff_exists]
  refine ⟨definition, mem_filter.mpr ⟨hmem, by simpa using hnew⟩, ?_⟩
  simpa using mem_guard_step_of_refers hmem hsymbol hguarded

theorem rounds_of_closed (hclosed : Closed terminals guarded) (rounds : List Nat) :
    rounds.foldl (fun guarded _ => guardStep terminals guarded) guarded = guarded := by
  induction rounds with
  | nil => rfl
  | cons round rounds ih => rw [foldl_cons, guard_step_of_closed hclosed, ih]

theorem closed_of_rounds {rounds : List Nat} (h : (missing terminals guarded).length ≤ rounds.length) :
    Closed terminals (rounds.foldl (fun guarded _ => guardStep terminals guarded) guarded) := by
  induction rounds generalizing guarded with
  | nil =>
    intro definition hmem symbol _ _
    by_contra hnew
    have hmissing : definition ∈ missing terminals guarded := mem_filter.mpr ⟨hmem, by simpa using hnew⟩
    rw [length_eq_zero_iff.mp (Nat.le_zero.mp h)] at hmissing
    cases hmissing
  | cons round rounds ih =>
    by_cases hclosed : Closed terminals guarded
    · rw [rounds_of_closed hclosed]
      exact hclosed
    · have hfewer := missing_guard_step hclosed
      rw [length_cons] at h
      rw [foldl_cons]
      exact ih (by omega)

theorem subset_rounds (rounds : List Nat) :
    guarded ⊆ rounds.foldl (fun guarded _ => guardStep terminals guarded) guarded := by
  induction rounds generalizing guarded with
  | nil => exact Subset.refl _
  | cons round rounds ih =>
    rw [foldl_cons]
    exact Subset.trans (subset_guard_step terminals guarded) ih

theorem Guards.mem_closure {defs : Definitions} {options : GrammarOptions} (h : defs.Guards options name) :
    name ∈ guardClosure defs.terminals options.guarded := by
  have hclosed : Closed defs.terminals (guardClosure defs.terminals options.guarded) := by
    apply closed_of_rounds
    rw [length_range]
    exact Nat.le_succ_of_le (length_filter_le _ _)
  induction h with
  | listed hlisted => exact subset_rounds _ hlisted
  | refers hmem hsymbol _ ih => exact hclosed _ hmem _ hsymbol ih

end

end Definitions

/-! ## Reserved words -/

def Terminal.StandsIn (leaves : List BodyToken) (terminal : Terminal) : Prop :=
  (∃ text, .literal text ∈ leaves ∧ terminal.IsCompiled ("\"" ++ text ++ "\"") (.literal text) (wordsSource text)) ∨
  ∃ regex flags, .pattern regex flags ∈ leaves ∧
    terminal.IsCompiled ("/" ++ regex ++ "/" ++ flags) (.regex (Body.patternGroup regex flags))
      (Body.patternGroup regex flags)

theorem Terminal.IsInline.stands_in {leaves : List BodyToken} {terminal : Terminal} (h : terminal.IsInline leaves) :
    terminal.StandsIn leaves := by
  obtain ⟨leaf, hmem, inline, hinline, h⟩ := h
  cases leaf <;> cases hinline
  · exact .inl ⟨_, hmem, h.toIsCompiled⟩
  · exact .inr ⟨_, _, hmem, h.toIsCompiled⟩

theorem is_keyword_in_append {leaves more : List BodyToken} {word : List Char} :
    IsKeywordIn (leaves ++ more) word ↔ IsKeywordIn leaves word ∨ IsKeywordIn more word := by
  simp only [IsKeywordIn, mem_append, or_and_right, exists_or]

theorem is_phrase_in_append {leaves more : List BodyToken} :
    IsPhraseIn (leaves ++ more) phrase ↔ IsPhraseIn leaves phrase ∨ IsPhraseIn more phrase := by
  simp only [IsPhraseIn, mem_append, or_and_right, exists_or]

theorem is_keyword_in_singleton {word : List Char} :
    IsKeywordIn [.literal text] word ↔ words text.toList = [word] ∧ word.all isAlphabetic = true := by
  simp [IsKeywordIn, BodyToken.words]

theorem is_phrase_in_singleton :
    IsPhraseIn [.literal text] phrase ↔ words text.toList = phrase ∧ 2 ≤ phrase.length := by
  simp [IsPhraseIn, BodyToken.words]

namespace Vocabulary

/-- What is new stems from the leaves: the reserved words from their literals, and the terminals, which are added
behind the known ones, stand for their literals and patterns. -/
structure Extends (leaves : List BodyToken) (vocabulary result : Vocabulary) : Prop where
  keywords : ∀ word, ofList word ∈ result.keywords ↔
    ofList word ∈ vocabulary.keywords ∨ IsKeywordIn leaves word
  phrases : ∀ phrase, phrase.map ofList ∈ result.phrases ↔
    phrase.map ofList ∈ vocabulary.phrases ∨ IsPhraseIn leaves phrase
  terminals : ∀ terminal ∈ result.terminals, terminal ∈ vocabulary.terminals ∨ terminal.IsInline leaves
  kept : vocabulary.terminals.toList <+: result.terminals.toList
  nodup : vocabulary.names.Nodup → result.names.Nodup

variable {vocabulary next result : Vocabulary} {defs : Definitions} {leaves more : List BodyToken} {leaf : BodyToken}

theorem Extends.refl (vocabulary : Vocabulary) (h : ∀ leaf ∈ leaves, leaf.words = []) :
    Extends leaves vocabulary vocabulary where
  keywords word := by
    refine (or_iff_left ?_).symm
    rintro ⟨⟨leaf, hmem, hword⟩, _⟩
    rw [h leaf hmem] at hword
    cases hword
  phrases phrase := by
    refine (or_iff_left ?_).symm
    rintro ⟨⟨leaf, hmem, rfl⟩, hlong⟩
    rw [h leaf hmem] at hlong
    cases hlong
  terminals terminal hterminal := .inl hterminal
  kept := prefix_refl _
  nodup h := h

theorem Extends.trans (h : Extends leaves vocabulary next) (hnext : Extends more next result) :
    Extends (leaves ++ more) vocabulary result where
  keywords word := by rw [hnext.keywords, h.keywords, is_keyword_in_append, or_assoc]
  phrases phrase := by rw [hnext.phrases, h.phrases, is_phrase_in_append, or_assoc]
  terminals terminal hterminal := by
    rcases hnext.terminals terminal hterminal with hterminal | ⟨leaf, hleaf, hstands⟩
    · refine (h.terminals terminal hterminal).imp_right ?_
      exact fun ⟨leaf, hleaf, hstands⟩ => ⟨leaf, mem_append_left _ hleaf, hstands⟩
    · exact .inr ⟨leaf, mem_append_right _ hleaf, hstands⟩
  kept := h.kept.trans hnext.kept
  nodup hnodup := hnext.nodup (h.nodup hnodup)

theorem mem_keywords_reserve (vocabulary : Vocabulary) (text : String) (word : List Char) :
    ofList word ∈ (vocabulary.reserve text).keywords ↔ ofList word ∈ vocabulary.keywords ∨
        words text.toList = [word] ∧ word.all isAlphabetic = true := by
  unfold reserve
  split
  · next hnone => simp [hnone]
  · next only hsingle =>
    have honly : words text.toList = [word] ↔ only = word := by simp [hsingle]
    rw [honly]
    split
    · next hall =>
      rw [Std.HashSet.mem_insert, beq_iff_eq, ofList_inj, or_comm]
      refine or_congr_right ⟨?_, And.left⟩
      rintro rfl
      exact ⟨rfl, hall⟩
    · next hmixed =>
      refine (or_iff_left ?_).symm
      rintro ⟨rfl, hall⟩
      exact hmixed hall
  · next hnone hseveral =>
    have hnot : ¬ (words text.toList = [word] ∧ word.all isAlphabetic = true) := fun h =>
      hseveral word h.1
    rw [or_iff_left hnot]
    dsimp only
    split <;> rfl

theorem mem_phrases_reserve (vocabulary : Vocabulary) (text : String) (phrase : List (List Char)) :
    phrase.map ofList ∈ (vocabulary.reserve text).phrases ↔ phrase.map ofList ∈ vocabulary.phrases ∨
        words text.toList = phrase ∧ 2 ≤ phrase.length := by
  have hshort : ∀ {found : List (List Char)}, words text.toList = found → found.length < 2 →
      ¬ (words text.toList = phrase ∧ 2 ≤ phrase.length) := by
    rintro found rfl hlength ⟨rfl, hlong⟩
    omega
  unfold reserve
  split
  · next hnone => exact (or_iff_left (hshort hnone (by decide))).symm
  · next only hsingle =>
    rw [or_iff_left (hshort hsingle (by simp))]
    split <;> rfl
  · next hnone hseveral =>
    have hlong : 2 ≤ (words text.toList).length := by
      cases hwords : words text.toList with
      | nil => exact (hnone hwords).elim
      | cons first rest =>
        cases rest with
        | nil => exact (hseveral first hwords).elim
        | cons second rest => simp
    have hmap : phrase.map ofList = (words text.toList).map ofList ↔ words text.toList = phrase := by
      rw [map_inj_right fun _ _ => ofList_inj.mp, eq_comm]
    dsimp only
    split
    · next hknown =>
      refine ⟨.inl, ?_⟩
      rintro (hmem | ⟨rfl, _⟩)
      · exact hmem
      · exact hknown
    · rw [mem_append, mem_singleton, hmap]
      refine or_congr_right ⟨?_, And.left⟩
      rintro rfl
      exact ⟨rfl, hlong⟩

theorem reserve_extends (vocabulary : Vocabulary) (text : String) :
    Extends [.literal text] vocabulary (vocabulary.reserve text) where
  keywords word := by rw [is_keyword_in_singleton, mem_keywords_reserve]
  phrases phrase := by rw [is_phrase_in_singleton, mem_phrases_reserve]
  terminals terminal hterminal := .inl (terminals_reserve vocabulary text ▸ hterminal)
  kept := by rw [terminals_reserve]
  nodup h := by rwa [names, terminals_reserve]

theorem Extends.anonymous (hextends : Extends [leaf] vocabulary next)
    (hinline : leaf.inline? = some ⟨name, written, source⟩)
    (h : (next.anonymous name written source).toOption.map Prod.snd = some result) :
    Extends [leaf] vocabulary result := by
  obtain ⟨⟨id, _⟩, hfound, rfl⟩ := Option.map_eq_some_iff.mp h
  obtain ⟨terminal, -, hname, rfl | ⟨hnew, rfl, hstands⟩⟩ := anonymous_eq_ok (eq_ok_of_to_option hfound)
  · exact hextends
  · refine ⟨hextends.keywords, hextends.phrases, fun other hmem => ?_, ?_, fun hnodup => ?_⟩
    · rcases Array.mem_push.mp hmem with hmem | rfl
      · exact hextends.terminals other hmem
      · exact .inr ⟨leaf, mem_singleton_self _, _, hinline, hstands⟩
    · rw [push, Array.toList_push]
      exact hextends.kept.trans (prefix_append _ _)
    · rw [names_push, hname]
      refine nodup_append.mpr ⟨hextends.nodup hnodup, pairwise_singleton _ _, fun other hother last hlast heq => ?_⟩
      rw [heq, mem_singleton.mp hlast] at hother
      exact hnew hother

theorem gather_extends (h : gather defs vocabulary leaf = some result) : Extends [leaf] vocabulary result := by
  have hsilent : leaf.words = [] → Extends [leaf] vocabulary vocabulary := fun hwords =>
    .refl vocabulary fun other hmem => mem_singleton.mp hmem ▸ hwords
  cases leaf with
  | literal text => exact (reserve_extends _ _).anonymous rfl h
  | pattern regex flags => exact (hsilent rfl).anonymous rfl h
  | name name =>
    rw [gather] at h
    split at h <;> cases h
    exact hsilent rfl
  | _ =>
    cases h
    exact hsilent rfl

theorem gather_all_extends (h : leaves.foldlM (gather defs) vocabulary = some result) :
    Extends leaves vocabulary result := by
  induction leaves generalizing vocabulary with
  | nil =>
    cases h
    exact .refl _ fun _ hmem => nomatch hmem
  | cons leaf leaves ih =>
    rw [foldlM_cons] at h
    obtain ⟨next, hnext, h⟩ := Option.bind_eq_some_iff.mp h
    exact (gather_extends hnext).trans (ih h)

theorem rules_extends {definitions : List Definition} {found : List Rule}
    (h : rules defs vocabulary definitions = .ok (found, result)) :
    Extends (definitions.flatMap (·.body.leaves)) vocabulary result := by
  apply @gather_all_extends _ _ defs
  rw [← rules_gather, h]
  rfl

end Vocabulary

theorem has_phrase_iff {phrase candidate : List String} :
    Grammar.hasPhrase phrase candidate = true ↔ phrase <:+: candidate := by
  induction candidate with
  | nil => simp [Grammar.hasPhrase]
  | cons word rest ih =>
    rw [Grammar.hasPhrase, Bool.or_eq_true, isPrefixOf_iff_prefix, ih, infix_cons_iff]

section

variable {defs : Definitions} {options : GrammarOptions} {grammar : Grammar}

/-- The reserved words of the grammar are those of the literals in rules and those that are listed, and its
terminals are those of the definitions and those of literals and patterns in rules. -/
structure Grammar.Knows (defs : Definitions) (options : GrammarOptions) (grammar : Grammar) : Prop where
  keywords : ∀ word, grammar.isKeyword (ofList word) = true ↔
    IsKeywordIn defs.ruleLeaves word ∨ ofList word ∈ options.reserved
  phrases : ∀ phrase, phrase.map ofList ∈ grammar.phrases ↔ IsPhraseIn defs.ruleLeaves phrase
  terminals : ∀ terminal ∈ grammar.terminals, terminal.IsInline defs.ruleLeaves ∨ terminal.IsDefined defs options

theorem build_knows (h : Grammar.build defs options = .ok grammar) : grammar.Knows defs options := by
  obtain ⟨named, rules, vocabulary, ignore, _, hnamed, hrules, _, _, rfl⟩ := build_eq_ok.mp h
  have hextends := Vocabulary.rules_extends hrules
  obtain ⟨_, hdefined, hkeywords, hphrases⟩ := Vocabulary.of_definitions_eq_ok hnamed
  refine ⟨fun word => ?_, fun phrase => ?_, fun terminal hterminal => ?_⟩
  · have hword := hextends.keywords word
    rw [hkeywords] at hword
    simp only [Std.HashSet.not_mem_empty, false_or] at hword
    simp [Grammar.isKeyword, hword, Definitions.ruleLeaves]
  · simpa [hphrases, Definitions.ruleLeaves] using hextends.phrases phrase
  · exact (hextends.terminals terminal hterminal).symm.imp_right (hdefined terminal)

/-- A text is reserved exactly if it does not avoid the reserved words. -/
theorem Grammar.Knows.not_reserved_iff (hknows : grammar.Knows defs options) {text : List Char} :
    grammar.isReserved text = false ↔ defs.Avoids options text := by
  rw [Grammar.isReserved, Bool.or_eq_false_iff, any_eq_false, any_eq_false]
  constructor
  · rintro ⟨hwords, hphrases⟩
    have hfree : ∀ word ∈ words text, ¬ IsKeywordIn defs.ruleLeaves word ∧ ofList word ∉ options.reserved := by
      intro word hword
      have hnot := hwords _ (mem_map_of_mem hword)
      rwa [hknows.keywords, not_or] at hnot
    refine ⟨fun word hword => (hfree word hword).1, fun word hword => (hfree word hword).2,
      fun leaf hleaf hlong hoccurs => ?_⟩
    have hphrase := (hknows.phrases leaf.words).mpr ⟨⟨leaf, hleaf, rfl⟩, hlong⟩
    exact hphrases _ hphrase (has_phrase_iff.mpr (hoccurs.map _))
  · intro havoids
    refine ⟨fun word hword hkeyword => ?_, fun phrase hphrase hfound => ?_⟩
    · obtain ⟨chars, hchars, rfl⟩ := mem_map.mp hword
      rcases (hknows.keywords chars).mp hkeyword with hliteral | hlisted
      · exact havoids.keywords chars hchars hliteral
      · exact havoids.listed chars hchars hlisted
    · have hstrings : phrase = (phrase.map toList).map ofList := by simp
      have hoccurs := (has_phrase_iff.mp hfound).map toList
      rw [hstrings] at hphrase
      obtain ⟨⟨leaf, hleaf, hwords⟩, hlong⟩ := (hknows.phrases _).mp hphrase
      rw [← hwords] at hlong hoccurs
      refine havoids.phrases leaf hleaf hlong ?_
      simpa using hoccurs

end

end FlightProcedure
