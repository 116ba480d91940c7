import FlightProcedure.Proofs.Grammar.TerminalLanguage
import FlightProcedure.Proofs.Parse.Conformance

/-!
# The characters of tokens

The pattern of a terminal or of a literal stands for certain texts, and a token is the start of one of them, or
all of it if the terminal is not guarded. A terminal that is written with literals of allowed characters has only
tokens of allowed characters, if the same is true of the terminals that it refers to. A class of tokens lists such
terminals, and literals that are made of allowed characters themselves.

Read `TokenClass` and `Definitions.Over` first: `lexeme_over` says that the tokens of a class have only the
characters of the class.
-/

namespace FlightProcedure

open Pattern List

/-- The names of some terminals and literals, and the characters that their tokens may have. A literal has
one word, and no name is that of a pattern. -/
structure TokenClass where
  listed : String → Bool
  allowed : Char → Bool
  chars : ∀ name, listed name = true → ∀ c ∈ name.toList, allowed c = true ∧ isBlank c = false
  slash : ∀ name, listed name = true → name.toList.head? = some '/' → name = "/"

/-- Whether the body holds only literals of allowed characters and refers only to listed terminals. -/
def Body.isOver (tokens : TokenClass) (body : Body) : Bool :=
  body.isPlain && body.symbols.all tokens.listed && body.literals.all fun text => text.toList.all tokens.allowed

/-- Every listed terminal is written with allowed characters and listed terminals. -/
def Definitions.Over (defs : Definitions) (tokens : TokenClass) : Prop :=
  ∀ definition ∈ defs.terminals, tokens.listed definition.name = true → definition.body.isOver tokens = true

section

variable {input : Input} {defs : Definitions} {options : GrammarOptions} {terminal : Terminal} {token : Token}
  {source : String} {motion : Motion}

theorem token_end_le {start stop : Nat} (h : stop ∈ input.tokenEnds terminal start) :
    ∃ found, terminal.leading.find? ⟨input.chars, start, input.size⟩ start = some found ∧
      stop ≤ found.2.pos ∧ (terminal.guarded = false → stop = found.2.pos) := by
  unfold Input.tokenEnds at h
  split at h
  · cases h
  · next found t hfind =>
    refine ⟨_, hfind, ?_⟩
    split at h
    · cases h
    · split at h
      · next hguarded =>
        refine ⟨?_, fun hnot => nomatch hguarded.symm.trans hnot⟩
        rcases mem_cons.mp (mem_filter.mp h).1 with rfl | hgap
        · exact Nat.le_refl _
        · rcases Input.gaps_bounds hgap with hnone | ⟨-, hlt, -⟩
          · cases hnone
          · simp only [Array.length_toList, Array.size_extract] at hlt
            show stop ≤ t.pos
            omega
      · cases mem_singleton.mp h
        exact ⟨Nat.le_refl _, fun _ => rfl⟩

theorem Input.Lexeme.starts {texts : List Char → Prop} (h : input.Lexeme defs options terminal token)
    (hreads : ReadsAs source.toList motion) (hleading : ofText? (leadingSource source) = some terminal.leading)
    (hmotion : ∀ w pos stop, motion w pos stop → ∃ text, texts text ∧ w.Spans text pos stop) :
    ∃ text, texts text ∧ token.text.toList <+: text ∧ (terminal.guarded = false → token.text.toList = text) := by
  obtain ⟨found, hfind, hstop, hexact⟩ := token_end_le h.stop
  obtain ⟨text, htext, hspans⟩ := hmotion _ _ _ (leading_finds hreads hleading hfind)
  obtain ⟨hstarts, hpos⟩ : text <+: input.chars.toList.drop token.start ∧ found.2.pos = token.start + text.length :=
    (Window.spans_iff rfl).mp hspans
  have htake := prefix_iff_eq_take.mp hstarts
  have htoken : token.text.toList = (input.chars.toList.drop token.start).take (token.stop - token.start) := by
    rw [h.text, Input.textBetween, String.toList_ofList, Array.toList_extract, extract_eq_take_drop]
  refine ⟨text, htext, ?_, fun hguarded => ?_⟩
  · rw [htoken, htake]
    exact take_prefix_take_left (by omega)
  · rw [htoken, htake, hexact hguarded, hpos, Nat.add_sub_cancel_left]

theorem Input.Lexeme.spaced (h : input.Lexeme defs options terminal token) {text : String}
    (hliteral : terminal.StandsFor (.literal text)) (hsome : words text.toList ≠ []) :
    Spaced (words text.toList) token.text.toList := by
  obtain ⟨matched, hspaced, -, hall⟩ := h.starts (reads_literal hsome) hliteral.leading fun _ _ _ hmoves => hmoves.1
  exact hall hliteral.guarded ▸ hspaced

end

section

variable {tokens : TokenClass} {defs : Definitions} {options : GrammarOptions} {input : Input}
  {terminal : Terminal} {token : Token}

theorem Definitions.Over.plain (h : defs.Over tokens) : defs.PlainOver (tokens.listed · = true) := by
  intro definition hmem hlisted
  have hover := h definition hmem hlisted
  simp only [Body.isOver, Bool.and_eq_true, all_eq_true] at hover
  exact hover.1

theorem mem_symbols_of {bodies : List Body} {body : Body} (hmem : body ∈ bodies) {name : String}
    (h : name ∈ body.symbols) : name ∈ Body.symbolsOf bodies := by
  induction hmem with
  | head => exact mem_append_left _ h
  | tail _ _ ih => exact mem_append_right _ ih

theorem spells_over (hdefs : defs.Over tokens) {body : Body} {text : List Char} (h : body.Spells defs text)
    (hsymbols : ∀ name ∈ body.symbols, tokens.listed name = true)
    (hliterals : ∀ literal ∈ body.literals, ∀ c ∈ literal.toList, tokens.allowed c = true) :
    ∀ c ∈ text, tokens.allowed c = true := by
  induction h using Body.Spells.rec (motive_2 := fun items text _ =>
      (∀ name ∈ Body.symbolsOf items, tokens.listed name = true) →
      (∀ literal ∈ Body.literalsOf items, ∀ c ∈ literal.toList, tokens.allowed c = true) →
      ∀ c ∈ text, tokens.allowed c = true) with
  | @symbol name definition _ hfound _ ih =>
    have hname : definition.name = name := by simpa using find?_some hfound
    have hover := hdefs _ (mem_of_find?_eq_some hfound) (hname ▸ hsymbols _ (mem_singleton_self _))
    simp only [Body.isOver, Bool.and_eq_true, all_eq_true] at hover
    exact ih hover.1.2 hover.2
  | literal text => exact hliterals text (mem_singleton_self text)
  | seq _ ih | present _ ih => exact ih hsymbols hliterals
  | alt hmem _ ih =>
    exact ih (fun name hname => hsymbols name (mem_symbols_of hmem hname))
      fun literal hliteral => hliterals literal (Body.mem_literals_of.mpr ⟨_, hmem, hliteral⟩)
  | absent => nofun
  | rep texts _ _ _ ih =>
    intro c hc
    obtain ⟨text, htext, hc⟩ := mem_flatten.mp hc
    exact ih text htext hsymbols hliterals c hc
  | nil _ _ _ hc => cases hc
  | cons _ _ ih ihs hsymbols hliterals c hc =>
    simp only [Body.symbolsOf, Body.literalsOf, forall_mem_append] at hsymbols hliterals
    exact forall_mem_append.mpr ⟨ih hsymbols.1 hliterals.1, ihs hsymbols.2 hliterals.2⟩ c hc

theorem words_of_solid {text : List Char} (h : IsSolid text) : words text = [text] := by
  have hsplit := split_where_append h.2 (rfl : splitWhere isBlank [] = [[]])
  simp only [append_nil] at hsplit
  simp [words, hsplit, h.1]

theorem lexeme_over (hdefs : defs.Over tokens) (h : input.Lexeme defs options terminal token)
    (hlisted : tokens.listed token.terminal = true) :
    ∀ c ∈ token.text.toList, tokens.allowed c = true := by
  rcases h.origin with hdefined | ⟨text, -, hliteral⟩ | ⟨regex, flags, hpattern⟩
  · obtain ⟨-, -, -, htoken, -⟩ := hdefined.token_name
    rw [h.name, htoken] at hlisted
    obtain ⟨definition, -, hnamed⟩ := hdefined
    obtain ⟨source, hsource, hnamed⟩ := bind_eq_ok hnamed
    obtain ⟨leading, hleading, hnamed⟩ := bind_eq_ok hnamed
    obtain ⟨exact, -, hnamed⟩ := bind_eq_ok hnamed
    cases hnamed
    obtain ⟨text, htext, hstarts, -⟩ := h.starts (terminal_source_reads hdefs.plain hlisted hsource)
      (compile_pattern_eq_ok hleading) fun _ _ _ hmotion => hmotion
    have hallowed := spells_over hdefs htext (by simpa [Body.symbols] using hlisted) (by simp [Body.literals])
    exact fun c hc => hallowed c (hstarts.subset hc)
  · have hname : token.terminal = text := by
      simp [h.name, Terminal.tokenName, hliteral.written, hliteral.anonymous]
    have hchars := tokens.chars text (hname ▸ hlisted)
    by_cases hsome : text.toList = []
    · have hreads : ReadsAs (wordsSource text).toList fun _ pos stop => pos = stop := by
        simpa [wordsSource, hsome, words, splitWhere, Body.literalSource, quote] using ReadsAs.nil
      obtain ⟨_, rfl, hstarts, -⟩ := h.starts hreads hliteral.leading fun w pos stop heq => ⟨[], rfl, heq⟩
      simp [prefix_nil.mp hstarts]
    · have hwords := words_of_solid ⟨hsome, fun c hc => (hchars c hc).2⟩
      have hspaced := h.spaced hliteral (by simp [hwords])
      rw [hwords] at hspaced
      generalize token.text.toList = found at hspaced ⊢
      cases hspaced
      exact fun c hc => (hchars c hc).1
  · -- The name of a pattern has two slashes, which no listed name has.
    have hname : token.terminal = "/" ++ regex ++ "/" ++ flags := by
      rw [h.name, Terminal.tokenName, hpattern.written, hpattern.name]
    have hslash := tokens.slash _ hlisted (by simp [hname])
    rw [hname, ← String.toList_inj] at hslash
    simp at hslash

end

end FlightProcedure
