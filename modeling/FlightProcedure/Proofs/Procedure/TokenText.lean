import FlightProcedure.Proofs.Parse.TokenAlphabet
import FlightProcedure.Proofs.Procedure.Signature

/-!
# The texts of tokens

Some terminals and literals match only a few texts, or only the words of a keyword with any white space
between them. `Definitions.Spelled` is a condition on definitions that can be computed; under it
`lexeme_spelled` says that every token has one of the texts of its terminal or literal.
-/

namespace FlightProcedure

open List

def Body.isListed (texts : List String) : Body → Bool
  | .literal text => texts.contains text
  | _ => false

def Body.isOneOf (texts : List String) : Body → Bool
  | .alt items => !items.isEmpty && items.all (isListed texts)
  | body => body.isListed texts

def Definition.isSpelled (definition : Definition) : Bool :=
  !keywords.contains definition.name &&
    spellings.all fun (name, texts) => definition.name != name || definition.body.isOneOf texts

def isSpelledLiteral (text : String) : Bool :=
  (!keywords.contains text || keywordText text == text && !(words text.toList).isEmpty) &&
    spellings.all fun (name, texts) => text != name || words text.toList == [text.toList] && texts.contains text

/-- The terminals and literals match only the texts listed for them, and no terminal with a list is
guarded from the start. -/
structure Definitions.Spelled (defs : Definitions) (options : GrammarOptions) : Prop where
  terminals : ∀ definition ∈ defs.terminals, definition.isSpelled = true
  literals : ∀ text ∈ defs.literals, isSpelledLiteral text = true
  unguarded : ∀ entry ∈ spellings, entry.1 ∉ options.guarded

theorem words_blanks_append {blanks : List Char} (hblanks : ∀ c ∈ blanks, isBlank c = true)
    (text : List Char) : words (blanks ++ text) = words text := by
  induction blanks with
  | nil => rfl
  | cons c blanks ih =>
    have hc := hblanks c mem_cons_self
    rw [← ih fun other hother => hblanks other (mem_cons_of_mem _ hother)]
    simp [words, splitWhere, hc]

theorem words_append_blank {word : List Char} (hword : IsSolid word) {c : Char} (hc : isBlank c = true)
    (text : List Char) : words (word ++ c :: text) = word :: words text := by
  have hbreak : splitWhere isBlank (c :: text) = [] :: splitWhere isBlank text := by simp [splitWhere, hc]
  simp [words, split_where_append hword.2 hbreak, hword.1]

theorem Spaced.words_eq {found : List (List Char)} {text : List Char} (h : Spaced found text)
    (hfound : ∀ word ∈ found, IsSolid word) : words text = found := by
  induction h with
  | last word => exact words_of_solid (hfound word (by simp))
  | @more word next blanks text others hsome hblanks h ih =>
    obtain ⟨hword, hrest⟩ := forall_mem_cons.mp hfound
    obtain ⟨c, blanks, rfl⟩ := exists_cons_of_ne_nil hsome
    obtain ⟨hc, hblanks⟩ := forall_mem_cons.mp hblanks
    rw [cons_append, words_append_blank hword hc, words_blanks_append hblanks, ih hrest]

namespace Body

variable {texts : List String} {body : Body} {defs : Definitions} {text : List Char}

theorem isListed_eq_true (h : body.isListed texts = true) : ∃ text ∈ texts, body = .literal text := by
  unfold isListed at h
  split at h
  · exact ⟨_, contains_iff_mem.mp h, rfl⟩
  · cases h

theorem isOneOf_spec (h : body.isOneOf texts = true) : body.isPlain = true ∧ body.symbols = [] ∧
    (body.Spells defs text → ∃ found ∈ texts, text = found.toList) := by
  have hone : ∀ {item : Body}, item.isListed texts = true → item.isPlain = true ∧ item.symbols = [] ∧
      (item.Spells defs text → ∃ found ∈ texts, text = found.toList) := by
    intro item hitem
    obtain ⟨found, hfound, rfl⟩ := isListed_eq_true hitem
    refine ⟨rfl, rfl, ?_⟩
    rintro ⟨⟩
    exact ⟨found, hfound, rfl⟩
  unfold isOneOf at h
  split at h
  · next items =>
    rw [Bool.and_eq_true, all_eq_true] at h
    have hall : ∀ items : List Body, (∀ item ∈ items, item.isListed texts = true) →
        arePlain items = true ∧ symbolsOf items = [] := by
      intro items
      induction items with
      | nil => exact fun _ => ⟨rfl, rfl⟩
      | cons item items ih =>
        intro hitems
        obtain ⟨hitem, hitems⟩ := forall_mem_cons.mp hitems
        simp [arePlain, symbolsOf, hone hitem, ih hitems]
    refine ⟨by simp [isPlain, h.1, hall items h.2], (hall items h.2).2, fun hspells => ?_⟩
    cases hspells with
    | alt hmem hspells => exact (hone (h.2 _ hmem)).2.2 hspells
  · exact hone h

end Body

theorem mem_guard_step {terminals : List Definition} {guarded : List String} {name : String}
    (h : name ∈ Definitions.guardStep terminals guarded) :
    name ∈ guarded ∨ ∃ definition ∈ terminals, definition.name = name ∧ definition.body.symbols ≠ [] := by
  unfold Definitions.guardStep at h
  induction terminals generalizing guarded with
  | nil => exact .inl h
  | cons definition terminals ih =>
    rw [foldl_cons] at h
    rcases ih h with h | ⟨other, hother, hname, hsymbols⟩
    · split at h
      · next hrefers =>
        rcases mem_cons.mp h with rfl | h
        · refine .inr ⟨definition, mem_cons_self, rfl, fun hnone => ?_⟩
          simp [hnone] at hrefers
        · exact .inl h
      · exact .inl h
    · exact .inr ⟨other, mem_cons_of_mem _ hother, hname, hsymbols⟩

theorem mem_guard_closure {terminals : List Definition} {guarded : List String} {name : String}
    (h : name ∈ Definitions.guardClosure terminals guarded) :
    name ∈ guarded ∨ ∃ definition ∈ terminals, definition.name = name ∧ definition.body.symbols ≠ [] := by
  unfold Definitions.guardClosure at h
  generalize List.range (terminals.length + 1) = rounds at h
  induction rounds generalizing guarded with
  | nil => exact .inl h
  | cons round rounds ih =>
    rcases ih h with h | h
    · exact mem_guard_step h
    · exact .inr h

section

variable {input : Input} {defs : Definitions} {options : GrammarOptions} {terminal : Terminal}
  {token : Token}

theorem defined_text (hspelled : defs.Spelled options) (hdefined : terminal.IsDefined defs options)
    (h : input.Lexeme defs options terminal token) {texts : List String}
    (htexts : (terminal.name, texts) ∈ spellings) : token.text ∈ texts := by
  have hlisted : ∀ definition ∈ defs.terminals, definition.name = terminal.name →
      definition.body.isOneOf texts = true := by
    intro definition hmem hname
    have hchecked := hspelled.terminals definition hmem
    rw [Definition.isSpelled, Bool.and_eq_true, all_eq_true] at hchecked
    simpa [hname] using hchecked.2 _ htexts
  have hplain : defs.PlainOver (· = terminal.name) := by
    intro definition hmem hname
    obtain ⟨hplain, hsymbols, -⟩ := @Body.isOneOf_spec _ _ defs [] (hlisted definition hmem hname)
    exact ⟨hplain, by simp [hsymbols]⟩
  obtain ⟨definition, hmem, hnamed⟩ := hdefined
  obtain ⟨source, hsource, hnamed⟩ := bind_eq_ok hnamed
  obtain ⟨leading, hleading, hnamed⟩ := bind_eq_ok hnamed
  obtain ⟨exact, -, hnamed⟩ := bind_eq_ok hnamed
  cases hnamed
  obtain ⟨text, hspells, -, hall⟩ := h.starts (terminal_source_reads hplain rfl hsource)
    (compile_pattern_eq_ok hleading) fun _ _ _ hmotion => hmotion
  have htext : token.text.toList = text := by
    refine hall ?_
    rw [decide_eq_false_iff_not]
    intro hguarded
    rcases mem_guard_closure hguarded with hguarded | ⟨other, hother, hname, hsymbols⟩
    · exact hspelled.unguarded _ htexts hguarded
    · exact hsymbols (@Body.isOneOf_spec _ _ defs [] (hlisted other hother hname)).2.1
  cases hspells with
  | @symbol _ used _ hfound hspells =>
    have hname : used.name = definition.name := by simpa using find?_some hfound
    have hused := hlisted used (mem_of_find?_eq_some hfound) hname
    obtain ⟨found, hmem, heq⟩ := (Body.isOneOf_spec hused).2.2 hspells
    rwa [String.toList_inj.mp (htext.trans heq)]

theorem listed_names_no_slash : ∀ name ∈ keywords ++ spellings.map (·.1), name.toList.head? ≠ some '/' := by
  decide

theorem lexeme_spelled (hspelled : defs.Spelled options)
    (h : input.Lexeme defs options terminal token) : token.Spelled := by
  rcases h.origin with hdefined | ⟨text, hmem, hliteral⟩ | ⟨regex, flags, hpattern⟩
  · obtain ⟨definition, hmem, hname, htoken, -⟩ := hdefined.token_name
    rw [← htoken, ← h.name] at hname
    have hchecked := hspelled.terminals definition hmem
    rw [Definition.isSpelled, Bool.and_eq_true, Bool.not_eq_true', hname] at hchecked
    constructor
    · intro texts htexts
      rw [h.name, htoken] at htexts
      exact defined_text hspelled hdefined h htexts
    · intro hkeyword
      rw [← contains_iff_mem] at hkeyword
      rw [hkeyword] at hchecked
      cases hchecked.1
  · have hname : token.terminal = text := by
      simp [h.name, Terminal.tokenName, hliteral.written, hliteral.anonymous]
    have hchecked := hspelled.literals text hmem
    rw [isSpelledLiteral, Bool.and_eq_true, all_eq_true] at hchecked
    rw [← hname] at hchecked hliteral
    constructor
    · intro texts htexts
      obtain ⟨hwords, hlisted⟩ : words token.terminal.toList = [token.terminal.toList] ∧ token.terminal ∈ texts := by
        simpa using hchecked.2 _ htexts
      have hspaced := h.spaced hliteral (by simp [hwords])
      rw [hwords] at hspaced
      generalize htext : token.text.toList = found at hspaced
      cases hspaced
      rwa [String.toList_inj.mp htext]
    · intro hkeyword
      obtain ⟨hsame, hsome⟩ : keywordText token.terminal = token.terminal ∧ words token.terminal.toList ≠ [] := by
        simpa [hkeyword] using hchecked.1
      rw [keywordText, (h.spaced hliteral hsome).words_eq fun _ => solid_of_mem_words]
      exact hsame
  · have hname : token.terminal.toList.head? = some '/' := by
      rw [h.name, Terminal.tokenName, hpattern.written, hpattern.name]
      simp
    constructor
    · intro texts htexts
      exact absurd hname (listed_names_no_slash _ (mem_append_right _ (mem_map.mpr ⟨_, htexts, rfl⟩)))
    · intro hkeyword
      exact absurd hname (listed_names_no_slash _ (mem_append_left _ hkeyword))

end

end FlightProcedure
