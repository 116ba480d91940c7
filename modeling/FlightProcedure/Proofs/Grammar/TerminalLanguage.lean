import FlightProcedure.Proofs.Grammar.ReservedWords
import FlightProcedure.Proofs.Pattern.NotationReading

/-!
# The texts of terminals

A terminal is written as one pattern, with the patterns of the terminals that it refers to inside. The pattern
of a terminal without patterns of its own matches exactly the texts that its definition stands for, and the
pattern of a literal inside a rule matches the words of the literal.

Read `Body.Spells` and `Spaced` first: they say which texts those are without any pattern. The main results
are `exact_matches_language` and `literal_matches_words`.
-/

namespace FlightProcedure

open Pattern List Window

variable {text word front rest : List Char} {source name : String} {w : Window} {found : List (List Char)}
  {sources : List String}

theorem iterates_spans {α : Type} {spell : α → List Char} {choice : α → Prop} {times pos stop : Nat} :
    Iterates (fun pos stop => ∃ a, choice a ∧ w.Spans (spell a) pos stop) times pos stop ↔
      ∃ chosen : List α, chosen.length = times ∧ (∀ a ∈ chosen, choice a) ∧ w.Spans (chosen.flatMap spell) pos stop := by
  induction times generalizing pos with
  | zero =>
    constructor
    · rintro rfl
      exact ⟨[], rfl, by simp, rfl⟩
    · rintro ⟨chosen, hlength, -, hspans⟩
      cases length_eq_zero_iff.mp hlength
      exact hspans
  | succ times ih =>
    constructor
    · rintro ⟨middle, ⟨a, ha, hfirst⟩, hrest⟩
      obtain ⟨chosen, rfl, hchosen, hspans⟩ := ih.mp hrest
      exact ⟨a :: chosen, rfl, forall_mem_cons.mpr ⟨ha, hchosen⟩, spans_append.mpr ⟨middle, hfirst, hspans⟩⟩
    · rintro ⟨_ | ⟨a, chosen⟩, hlength, hchosen, hspans⟩
      · cases hlength
      · obtain ⟨ha, hchosen⟩ := forall_mem_cons.mp hchosen
        obtain ⟨middle, hfirst, hspans⟩ := spans_append.mp hspans
        exact ⟨middle, ⟨a, ha, hfirst⟩, ih.mpr ⟨chosen, Nat.succ.inj hlength, hchosen, hspans⟩⟩

/-! ## Named terminals -/

namespace Body

mutual

inductive Spells (defs : Definitions) : Body → List Char → Prop where
  | symbol {name : String} {definition : Definition} {text : List Char}
      (hfound : defs.terminals.find? (·.name == name) = some definition) (h : Spells defs definition.body text) :
      Spells defs (.symbol name) text
  | literal (text : String) : Spells defs (.literal text) text.toList
  | seq {items : List Body} {text : List Char} (h : SpellsAll defs items text) : Spells defs (.seq items) text
  | alt {items : List Body} {item : Body} {text : List Char} (hmem : item ∈ items) (h : Spells defs item text) :
      Spells defs (.alt items) text
  | absent (inner : Body) : Spells defs (.optional inner) []
  | present {inner : Body} {text : List Char} (h : Spells defs inner text) : Spells defs (.optional inner) text
  | rep {inner : Body} {least : Nat} {most : Option Nat} (texts : List (List Char)) (hleast : least ≤ texts.length)
      (hmost : ∀ bound ∈ most, texts.length ≤ bound) (h : ∀ text ∈ texts, Spells defs inner text) :
      Spells defs (.rep inner least most) texts.flatten

inductive SpellsAll (defs : Definitions) : List Body → List Char → Prop where
  | nil : SpellsAll defs [] []
  | cons {item : Body} {items : List Body} {front back : List Char} (h : Spells defs item front)
      (hrest : SpellsAll defs items back) : SpellsAll defs (item :: items) (front ++ back)

end

mutual

/-- Whether there is no pattern in the body, and something to choose from wherever there is a choice. -/
def isPlain : Body → Bool
  | .symbol _ => true
  | .literal _ => true
  | .pattern _ _ => false
  | .seq items => arePlain items
  | .alt items => !items.isEmpty && arePlain items
  | .optional inner => inner.isPlain
  | .rep inner _ _ => inner.isPlain

def arePlain : List Body → Bool
  | [] => true
  | item :: items => item.isPlain && arePlain items

end

def motion (defs : Definitions) (body : Body) : Motion := fun w pos stop =>
  ∃ text, body.Spells defs text ∧ w.Spans text pos stop

variable {defs : Definitions} {inner : Body}

theorem spells_optional : (optional inner).Spells defs text ↔ (rep inner 0 (some 1)).Spells defs text := by
  constructor
  · intro h
    cases h with
    | absent => exact .rep [] (Nat.zero_le _) (by simp) (by simp)
    | present h =>
      have hone : (rep inner 0 (some 1)).Spells defs [text].flatten :=
        .rep [text] (Nat.zero_le _) (by simp) (by simpa using h)
      simpa using hone
  · intro h
    cases h with
    | rep texts hleast hmost h =>
      match texts, hmost 1 rfl with
      | [], _ => exact .absent inner
      | [text], _ => simpa using Spells.present (h text (by simp))

theorem motion_rep {least : Nat} {most : Option Nat} (w : Window) (pos stop : Nat) :
    (inner.motion defs).rep least most w pos stop ↔ (rep inner least most).motion defs w pos stop := by
  constructor
  · rintro ⟨times, hleast, hmost, htimes⟩
    obtain ⟨texts, rfl, htexts, hspans⟩ := (@iterates_spans _ _ id).mp htimes
    exact ⟨_, .rep texts hleast hmost htexts, by simpa [flatMap_id] using hspans⟩
  · rintro ⟨text, h, hspans⟩
    cases h with
    | rep texts hleast hmost htexts =>
      exact ⟨_, hleast, hmost, (@iterates_spans _ _ id).mpr ⟨texts, rfl, htexts, by simpa [flatMap_id] using hspans⟩⟩

theorem modifies_quantifier {motion : Motion} (least : Nat) (most : Option Nat) :
    Modifies (quantifier least most).toList motion (motion.rep least most) := by
  unfold quantifier
  split
  · exact @quantified_mark 0 none motion '*' (by simp)
  · exact @quantified_mark 1 none motion '+' (by simp)
  · rw [show ("\x7b" ++ toString least ++ ",\x7d").toList = '\x7b' :: ((toString least).toList ++ [',', '\x7d']) by simp]
    exact quantified_count (counts_once (by simp))
  · split
    · next heq =>
      subst heq
      rw [show ("\x7b" ++ toString least ++ "\x7d").toList = '\x7b' :: ((toString least).toList ++ ['\x7d']) by simp]
      exact quantified_count (counts_once (by simp))
    · next most _ =>
      rw [show ("\x7b" ++ toString least ++ "," ++ toString most ++ "\x7d").toList =
        '\x7b' :: ((toString least).toList ++ ',' :: ((toString most).toList ++ ['\x7d'])) by simp]
      exact quantified_count counts_between

def Reads (defs : Definitions) : List Body → List String → Prop :=
  Forall₂ fun item source => ReadsAs source.toList (item.motion defs)

theorem Reads.join {items : List Body} (h : Reads defs items sources) :
    ReadsAs (String.join sources).toList ((seq items).motion defs) := by
  have hall : ReadsAs (sources.flatMap String.toList) fun w pos stop =>
      ∃ text, SpellsAll defs items text ∧ w.Spans text pos stop := by
    induction h with
    | nil =>
      refine ReadsAs.nil.congr fun w pos stop => ⟨fun h => ⟨[], .nil, h⟩, ?_⟩
      rintro ⟨_, ⟨⟩, hspans⟩
      exact hspans
    | cons hfirst _ ih =>
      refine (hfirst.append ih).congr fun w pos stop => ⟨?_, ?_⟩
      · rintro ⟨middle, ⟨front, hfront, hbefore⟩, back, hback, hafter⟩
        exact ⟨front ++ back, .cons hfront hback, spans_append.mpr ⟨middle, hbefore, hafter⟩⟩
      · rintro ⟨text, htext, hspans⟩
        cases htext with
        | @cons _ _ front back hfront hback =>
          obtain ⟨middle, hbefore, hafter⟩ := spans_append.mp hspans
          exact ⟨middle, ⟨front, hfront, hbefore⟩, back, hback, hafter⟩
  rw [String.toList_join]
  refine hall.congr fun w pos stop => exists_congr fun text => and_congr_left fun _ => ⟨.seq, ?_⟩
  rintro ⟨⟩
  assumption

theorem Reads.bars {items : List Body} (h : Reads defs items sources) (hsome : items ≠ []) :
    ReadsInside ("|".intercalate sources).toList ((alt items).motion defs) := by
  have hany : ReadsInside ("|".intercalate sources).toList fun w pos stop =>
      ∃ item ∈ items, item.motion defs w pos stop := by
    induction h with
    | nil => exact absurd rfl hsome
    | @cons item source items sources hfirst hrest ih =>
      cases hrest with
      | nil => simpa using hfirst.inside
      | cons hsecond hrest =>
        have hboth := ReadsInside.bar hfirst (ih (by simp))
        simpa [intercalate_cons_cons] using hboth
  have heq : (alt items).motion defs = fun w pos stop => ∃ item ∈ items, item.motion defs w pos stop := by
    funext w pos stop
    refine propext ⟨?_, fun ⟨item, hitem, text, htext, hspans⟩ => ⟨text, .alt hitem htext, hspans⟩⟩
    rintro ⟨text, ⟨⟩, hspans⟩
    exact ⟨_, by assumption, text, by assumption, hspans⟩
  rwa [heq]

section

variable {lookup : String → Except GrammarError String}

theorem regex_source_reads {body : Body} (hplain : body.isPlain = true)
    (hlookup : ∀ name ∈ body.symbols, ∀ source, lookup name = .ok source →
      ReadsAs source.toList ((symbol name).motion defs)) (h : body.regexSource lookup = .ok source) :
    ReadsAs source.toList (body.motion defs) := by
  induction body using Body.rec (motive_2 := fun items => ∀ {sources : List String}, arePlain items = true →
      (∀ name ∈ symbolsOf items, ∀ source, lookup name = .ok source →
        ReadsAs source.toList ((symbol name).motion defs)) →
      regexSources lookup items = .ok sources → Reads defs items sources) generalizing source with
  | symbol name =>
    obtain ⟨inner, hinner, h⟩ := bind_eq_ok h
    cases h
    simpa [grouped] using (hlookup name (mem_singleton_self name) inner hinner).inside.plain
  | literal text =>
    cases h
    rw [literalSource, String.toList_ofList]
    refine (reads_quote text.toList).congr fun w pos stop => ⟨fun h => ⟨_, .literal text, h⟩, ?_⟩
    rintro ⟨_, ⟨⟩, hspans⟩
    exact hspans
  | pattern => cases hplain
  | seq items ih =>
    obtain ⟨sources, hsources, h⟩ := bind_eq_ok h
    cases h
    exact (ih hplain hlookup hsources).join
  | alt items ih =>
    obtain ⟨sources, hsources, h⟩ := bind_eq_ok h
    cases h
    rw [isPlain, Bool.and_eq_true, Bool.not_eq_true', isEmpty_eq_false_iff] at hplain
    simpa [grouped] using ((ih hplain.2 hlookup hsources).bars hplain.1).plain
  | optional inner ih =>
    obtain ⟨source, hsource, h⟩ := bind_eq_ok h
    cases h
    have hinner := (ih hplain hlookup hsource).inside.group (@quantified_mark 0 (some 1) _ '?' (by simp))
    have hmotion : (inner.motion defs).rep 0 (some 1) = (optional inner).motion defs := by
      funext w pos stop
      exact propext ((motion_rep w pos stop).trans
        (exists_congr fun text => and_congr_left fun _ => spells_optional.symm))
    rw [hmotion] at hinner
    simpa [grouped] using hinner
  | rep inner least most ih =>
    obtain ⟨source, hsource, h⟩ := bind_eq_ok h
    cases h
    have hinner := (ih hplain hlookup hsource).inside.group (modifies_quantifier least most)
    simpa [grouped] using hinner.congr motion_rep
  | nil _ _ h =>
    cases h
    exact .nil
  | cons item items ih ihs hplain hlookup h =>
    obtain ⟨first, hfirst, h⟩ := bind_eq_ok h
    obtain ⟨others, hothers, h⟩ := bind_eq_ok h
    cases h
    rw [arePlain, Bool.and_eq_true] at hplain
    exact .cons (ih hplain.1 (fun name hname => hlookup name (mem_append_left _ hname)) hfirst)
      (ihs hplain.2 (fun name hname => hlookup name (mem_append_right _ hname)) hothers)

end

theorem spells_symbol {definition : Definition} (hfound : defs.terminals.find? (·.name == name) = some definition) :
    (symbol name).Spells defs text ↔ definition.body.Spells defs text := by
  refine ⟨fun h => ?_, .symbol hfound⟩
  cases h with
  | symbol hother h => exact Option.some.inj (hfound.symm.trans hother) ▸ h

end Body

variable {defs : Definitions} {options : GrammarOptions} {grammar : Grammar} {terminal : Terminal} {motion : Motion}

def Definitions.PlainOver (defs : Definitions) (listed : String → Prop) : Prop :=
  ∀ definition ∈ defs.terminals, listed definition.name →
    definition.body.isPlain = true ∧ ∀ symbol ∈ definition.body.symbols, listed symbol

/-- The pattern of a terminal stands for its texts. The induction is on the chain of references that leads to
the terminal. -/
theorem terminal_source_reads {listed : String → Prop} (hdefs : defs.PlainOver listed) {fuel : Nat}
    {stack : List String} (hlisted : listed name) (h : defs.terminalSource fuel stack name = .ok source) :
    ReadsAs source.toList ((Body.symbol name).motion defs) := by
  induction fuel generalizing stack name source with
  | zero => cases h
  | succ fuel ih =>
    unfold Definitions.terminalSource at h
    split at h
    · cases h
    · split at h
      · cases h
      · next definition hfound =>
        have hname : definition.name = name := by simpa using find?_some hfound
        obtain ⟨hplain, hsymbols⟩ := hdefs definition (mem_of_find?_eq_some hfound) (hname ▸ hlisted)
        refine (Body.regex_source_reads hplain (fun symbol hsymbol inner hinner => ?_) h).congr
          fun w pos stop => exists_congr fun text => and_congr_left fun _ => (Body.spells_symbol hfound).symm
        split at hinner
        · cases hinner
        · exact ih (hsymbols symbol hsymbol) hinner

section

variable (h : ReadsAs source.toList motion)

include h

theorem reads_leading :
    ReadsAs (leadingSource source).toList fun w pos stop => pos = w.start ∧ motion w pos stop := by
  have hall := (@reads_anchor ['^'] .textStart (by simp)).append h.inside.plain
  refine ReadsAs.congr (by simpa [leadingSource] using hall) fun w pos stop => ?_
  simp [Motion.next, Anchor.holds, and_assoc]

theorem reads_exact :
    ReadsAs (exactSource source).toList fun w pos stop => pos = w.start ∧ motion w pos stop ∧ stop = w.stop := by
  have hall := (reads_leading h).append (@reads_anchor ['$'] .textEnd (by simp))
  refine ReadsAs.congr (by simpa [leadingSource, exactSource] using hall) fun w pos stop => ?_
  simp only [Motion.next, Anchor.holds, beq_iff_eq]
  constructor
  · rintro ⟨_, ⟨hstart, hmotion⟩, hstop, rfl⟩
    exact ⟨hstart, hmotion, hstop⟩
  · rintro ⟨hstart, hmotion, hstop⟩
    exact ⟨stop, ⟨hstart, hmotion⟩, hstop, rfl⟩

theorem leading_finds {pattern : Pattern}
    (hpattern : ofText? (leadingSource source) = some pattern) {found : Nat × Thread}
    (hfind : pattern.find? w w.start = some found) : motion w w.start found.2.pos := by
  have hmoves := (reads_leading h).of_text (by rwa [String.ofList_toList]) w
  exact ((hmoves _ _).mp ((find?_moves fun pos stop h => ((hmoves pos stop).mp h).1).1 found hfind).2).2

end

/-- The terminals that a terminal refers to, directly or through others. -/
inductive Definitions.Uses (defs : Definitions) (name : String) : String → Prop where
  | self : Uses defs name name
  | refers {definition : Definition} {other : String} (h : Uses defs name definition.name)
      (hmem : definition ∈ defs.terminals) (hsymbol : other ∈ definition.body.symbols) : Uses defs name other

def versionDefinitions : Definitions where
  rules := [{ name := "start", body := .seq [.literal "end of", .symbol "CODE"], line := 1 }]
  terminals := [
    { name := "CODE", body := .seq [.literal "v.", .symbol "BITS", .optional (.literal "!")], line := 2 },
    { name := "BITS", body := .rep (.alt [.literal "0", .literal "1"]) 1 (some 3), line := 3 }]

/-- `Spaced words text` says that the text is the words with white space between them. -/
inductive Spaced : List (List Char) → List Char → Prop where
  | last (word : List Char) : Spaced [word] word
  | more {word next blanks text : List Char} {words : List (List Char)} (hsome : blanks ≠ [])
      (hblanks : ∀ c ∈ blanks, isBlank c = true) (h : Spaced (next :: words) text) :
      Spaced (word :: next :: words) (word ++ (blanks ++ text))

def IsSolid (word : List Char) : Prop := word ≠ [] ∧ ∀ c ∈ word, isBlank c = false

theorem solid_of_mem_words (h : word ∈ words text) : IsSolid word := by
  obtain ⟨hmem, hsome⟩ := mem_filter.mp h
  exact ⟨by simpa using hsome, fun _ hc => (mem_split_where hmem hc).2⟩

theorem words_last {last : Char} (h : isBlank last = false) :
    ∃ others start, words (front ++ [last]) = others ++ [start ++ [last]] := by
  have hsplit : ∃ others start, splitWhere isBlank (front ++ [last]) = others ++ [start ++ [last]] := by
    induction front with
    | nil => exact ⟨[], [], by simp [splitWhere, h]⟩
    | cons c front ih =>
      obtain ⟨others, start, hsplit⟩ := ih
      rw [cons_append, splitWhere, hsplit]
      split
      · exact ⟨[] :: others, start, rfl⟩
      · cases others with
        | nil => exact ⟨[], c :: start, rfl⟩
        | cons piece others => exact ⟨(c :: piece) :: others, start, rfl⟩
  obtain ⟨others, start, hsplit⟩ := hsplit
  exact ⟨others.filter fun piece => !piece.isEmpty, start, by simp [words, hsplit]⟩

theorem Spaced.ends {others : List (List Char)} (h : Spaced found text) (hlast : found = others ++ [word]) :
    ∃ front, text = front ++ word := by
  induction h generalizing others with
  | last word =>
    cases others with
    | nil =>
      cases hlast
      exact ⟨[], rfl⟩
    | cons other others => simp at hlast
  | @more first next blanks text words _ _ _ ih =>
    cases others with
    | nil => simp at hlast
    | cons other others =>
      obtain ⟨front, rfl⟩ := ih (cons.inj hlast).2
      exact ⟨first ++ (blanks ++ front), by simp⟩

/-- There is only one way to read the words from the start of a text. -/
theorem Spaced.unique {first second more : List Char} (hfirst : Spaced found first)
    (hsecond : Spaced found second) (hfound : ∀ word ∈ found, IsSolid word)
    (heq : first ++ rest = second ++ more) : first = second := by
  have hhead : ∀ {next text : List Char} {words : List (List Char)}, Spaced (next :: words) text →
      IsSolid next → ∀ after, (text ++ after).head?.any isBlank = false := by
    rintro (_ | ⟨c, next⟩) text words h ⟨hsome, hsolid⟩ after
    · exact absurd rfl hsome
    · cases h <;> simpa using hsolid c (by simp)
  induction hfirst generalizing second with
  | last word => cases hsecond with | last => rfl
  | more hsome hblanks h ih =>
    cases hsecond with
    | more hothers hmore hsecond =>
      obtain ⟨-, hfound⟩ := forall_mem_cons.mp hfound
      have hnext := hfound _ mem_cons_self
      simp only [append_assoc, append_cancel_left_eq] at heq
      obtain ⟨hone, hafter⟩ := take_while_append hblanks (hhead h hnext rest)
      obtain ⟨hother, hlater⟩ := take_while_append hmore (hhead hsecond hnext more)
      rw [heq] at hone hafter
      rw [← hone, hother, ih hsecond hfound (hafter.symm.trans hlater)]

theorem reads_gap : ReadsAs ['\\', 's', '+'] fun w pos stop =>
    ∃ blanks, (blanks ≠ [] ∧ ∀ c ∈ blanks, isBlank c = true) ∧ w.Spans blanks pos stop := by
  refine (reads_part '\\' ['s'] (.oneOf .blank) (by decide) (fun _ _ => rfl)
    (@quantified_mark 1 none _ '+' (by simp))).congr fun w pos stop => ?_
  have hone : (Regex.oneOf .blank).Moves w = fun pos stop => ∃ c, isBlank c = true ∧ w.Spans [c] pos stop := by
    funext pos stop
    refine propext ⟨fun ⟨⟨c, hnext, hc⟩, hstop⟩ => ⟨c, hc, hnext, hstop.symm⟩,
      fun ⟨c, hc, hnext, hstop⟩ => ⟨⟨c, hnext, hc⟩, hstop.symm⟩⟩
  simp only [Motion.rep, hone, iterates_spans, flatMap_singleton']
  constructor
  · rintro ⟨_, hsome, -, blanks, rfl, hblanks, hspans⟩
    exact ⟨blanks, ⟨ne_nil_of_length_pos hsome, hblanks⟩, hspans⟩
  · rintro ⟨blanks, ⟨hsome, hblanks⟩, hspans⟩
    exact ⟨_, length_pos_iff.mpr hsome, by simp, blanks, rfl, hblanks, hspans⟩

theorem reads_words (hsome : found ≠ []) :
    ReadsAs ("\\s+".intercalate (found.map fun word => String.ofList (quote word))).toList fun w pos stop =>
      ∃ text, Spaced found text ∧ w.Spans text pos stop := by
  induction found with
  | nil => exact absurd rfl hsome
  | cons word found ih =>
    cases found with
    | nil =>
      rw [map_singleton, String.intercalate_singleton, String.toList_ofList]
      refine (reads_quote word).congr fun w pos stop => ⟨fun h => ⟨word, .last word, h⟩, ?_⟩
      rintro ⟨_, ⟨⟩, hspans⟩
      exact hspans
    | cons next found =>
      have hall := (reads_quote word).append (reads_gap.append (ih (by simp)))
      refine ReadsAs.congr (by simpa using hall) fun w pos stop => ⟨?_, ?_⟩
      · rintro ⟨middle, hword, after, ⟨blanks, ⟨hsome, hblanks⟩, hgap⟩, text, htext, hspans⟩
        exact ⟨_, .more hsome hblanks htext,
          spans_append.mpr ⟨middle, hword, spans_append.mpr ⟨after, hgap, hspans⟩⟩⟩
      · rintro ⟨text, htext, hspans⟩
        cases htext with
        | more hsome hblanks htext =>
          obtain ⟨middle, hword, hspans⟩ := spans_append.mp hspans
          obtain ⟨after, hgap, hspans⟩ := spans_append.mp hspans
          exact ⟨middle, hword, after, ⟨_, ⟨hsome, hblanks⟩, hgap⟩, _, htext, hspans⟩

theorem reads_literal {text : String} (hsome : words text.toList ≠ []) :
    ReadsAs (wordsSource text).toList fun w pos stop =>
      (∃ matched, Spaced (words text.toList) matched ∧ w.Spans matched pos stop) ∧
        (endsInWord text.toList = true → Anchor.wordEdge.holds w stop = true) := by
  have hwords := reads_words hsome
  unfold wordsSource
  split
  · next hnone => exact absurd hnone hsome
  · split
    · next hend =>
      have hall := hwords.append (@reads_anchor ['\\', 'b'] .wordEdge (by simp))
      refine ReadsAs.congr (by simpa using hall) fun w pos stop => ?_
      simp only [Motion.next, hend, forall_const]
      constructor
      · rintro ⟨_, hfound, hedge, heq⟩
        exact heq ▸ ⟨hfound, hedge⟩
      · rintro ⟨hfound, hedge⟩
        exact ⟨stop, hfound, hedge, rfl⟩
    · next hend => exact ReadsAs.congr (by simpa using hwords) fun w pos stop => by simp [hend]

theorem word_edge_after (hstop : w.stop = w.chars.size) {last : Char}
    (htext : w.chars.toList.drop w.start = front ++ [last] ++ rest) :
    Anchor.wordEdge.holds w (w.start + (front ++ [last]).length) = true ↔
      rest.head?.any isWordChar = !isWordChar last := by
  have hprev : w.prev? (w.start + (front ++ [last]).length) = some last := by
    have hget := congrArg (fun list => list[front.length]?) htext
    simp only [getElem?_drop, append_assoc] at hget
    rw [prev?, if_pos (by simp)]
    simpa using hget
  have hnext : w.next? (w.start + (front ++ [last]).length) = rest.head? := by
    rw [w.next?_eq_head hstop, ← drop_drop, htext, drop_left]
  rw [Anchor.holds, Anchor.atWordEdge, hprev, hnext]
  cases rest.head?.any isWordChar <;> cases hlast : isWordChar last <;> simp [hlast]

/-- A literal inside a rule matches its words, with any white space between them. After a literal that ends in a
letter, a digit or a low line, the text must go on with a word character if and only if the literal does not end in one. -/
theorem literal_matches_words (hbuild : Grammar.build defs options = .ok grammar)
    (hterminal : terminal ∈ grammar.terminals) (hanonymous : terminal.anonymous = true) {text : String}
    (hliteral : terminal.source = .literal text) {last : Char} (hlast : text.toList.getLast? = some last)
    (hsolid : isBlank last = false) (chars : Array Char) {start : Nat} (hstart : start ≤ chars.size) (stop : Nat) :
    (∃ t, terminal.leading.find? ⟨chars, start, chars.size⟩ start = some (start, t) ∧ t.pos = stop) ↔
      ∃ matched rest, chars.toList.drop start = matched ++ rest ∧ Spaced (words text.toList) matched ∧
        stop = start + matched.length ∧
        (endsInWord text.toList = true → rest.head?.any isWordChar = !isWordChar last) := by
  have hcompiled : terminal.IsCompiled ("\"" ++ text ++ "\"") (.literal text) (wordsSource text) := by
    rcases (build_knows hbuild).terminals terminal hterminal with h | h
    on_goal 1 => rcases h.stands_in with ⟨other, _, h⟩ | ⟨_, _, _, h⟩
    · cases hliteral.symm.trans h.written
      exact h
    · cases hliteral.symm.trans h.written
    · obtain ⟨_, _, hok⟩ := h
      exact nomatch hanonymous.symm.trans ((Vocabulary.named_terminal_eq_ok hok).2)
  obtain ⟨front, htext⟩ := getLast?_eq_some_iff.mp hlast
  obtain ⟨others, before, hwords⟩ := @words_last front last hsolid
  rw [← htext] at hwords
  have hsome : words text.toList ≠ [] := by simp [hwords]
  have hmoves := (reads_leading (reads_literal hsome)).of_text
    (by rw [String.ofList_toList]; exact hcompiled.leading) ⟨chars, start, chars.size⟩
  obtain ⟨hsound, hcomplete⟩ := find?_moves (w := ⟨chars, start, chars.size⟩)
    fun pos stop h => ((hmoves pos stop).mp h).1
  have hmatched : ∀ stop, terminal.leading.regex.Moves ⟨chars, start, chars.size⟩ start stop ↔
      ∃ matched rest, chars.toList.drop start = matched ++ rest ∧ Spaced (words text.toList) matched ∧
        stop = start + matched.length ∧
        (endsInWord text.toList = true → rest.head?.any isWordChar = !isWordChar last) := by
    intro stop
    rw [hmoves]
    have hedge : ∀ {matched rest : List Char}, Spaced (words text.toList) matched →
        chars.toList.drop start = matched ++ rest →
        (Anchor.wordEdge.holds ⟨chars, start, chars.size⟩ (start + matched.length) = true ↔
          rest.head?.any isWordChar = !isWordChar last) := by
      intro matched rest hspaced hrest
      obtain ⟨first, rfl⟩ := hspaced.ends hwords
      rw [← append_assoc] at hrest ⊢
      exact word_edge_after (w := ⟨chars, start, chars.size⟩) rfl hrest
    constructor
    · rintro ⟨-, ⟨matched, hspaced, hspans⟩, hend⟩
      obtain ⟨⟨rest, hrest⟩, rfl⟩ := (Window.spans_iff rfl).mp hspans
      exact ⟨matched, rest, hrest.symm, hspaced, rfl, fun h => (hedge hspaced hrest.symm).mp (hend h)⟩
    · rintro ⟨matched, rest, hrest, hspaced, rfl, hend⟩
      exact ⟨rfl, ⟨matched, hspaced, (Window.spans_iff rfl).mpr ⟨⟨rest, hrest.symm⟩, rfl⟩⟩,
        fun h => (hedge hspaced hrest).mpr (hend h)⟩
  constructor
  · rintro ⟨t, hfind, rfl⟩
    exact (hmatched _).mp (hsound _ hfind).2
  · rintro h
    obtain ⟨⟨pos, t⟩, hfind⟩ := hcomplete hstart ⟨stop, (hmatched stop).mpr h⟩
    obtain ⟨rfl, hfound⟩ := hsound _ hfind
    refine ⟨t, hfind, ?_⟩
    obtain ⟨matched, rest, hrest, hspaced, rfl, -⟩ := h
    obtain ⟨other, after, hafter, hother, hpos, -⟩ := (hmatched _).mp hfound
    rw [hpos, hother.unique hspaced (fun _ => solid_of_mem_words) (hafter.symm.trans hrest)]

/-- The words before a code may be on different lines. -/
theorem version_words_matched : ∃ grammar, Grammar.build versionDefinitions {} = .ok grammar ∧
    ∃ terminal ∈ grammar.terminals, ∃ t,
      terminal.leading.find? ⟨"end \nof v.1".toList.toArray, 0, 11⟩ 0 = some (0, t) ∧ t.pos = 7 := by
  obtain ⟨grammar, hbuild, hcheck⟩ := @ok_of_any _ _ (Grammar.build versionDefinitions {}) (fun grammar =>
    grammar.terminals.toList.any fun terminal => terminal.anonymous && terminal.source == .literal "end of")
    (by decide +kernel)
  simp only [any_eq_true, Array.mem_toList_iff, Bool.and_eq_true, beq_iff_eq] at hcheck
  obtain ⟨terminal, hterminal, hanonymous, hliteral⟩ := hcheck
  have hlast : "end of".toList.getLast? = some 'f' := rfl
  have hspaced : Spaced ["end".toList, "of".toList] ("end".toList ++ (" \n".toList ++ "of".toList)) :=
    .more (by decide) (by decide) (.last _)
  have hwords : words "end of".toList = ["end".toList, "of".toList] := by decide
  refine ⟨grammar, hbuild, terminal, hterminal, (literal_matches_words hbuild hterminal hanonymous hliteral hlast
    (by decide) "end \nof v.1".toList.toArray (Nat.zero_le _) 7).mpr ?_⟩
  exact ⟨"end \nof".toList, " v.1".toList, rfl, hwords ▸ hspaced, rfl, fun _ => by decide⟩

/-- A raised digit counts as the end of a word but is no word character, so a literal that ends in one does not match
itself. An accent is a word character but does not count as the end of a word, so a literal that ends in one matches
inside a longer word. -/
theorem raised_digit_unmatched : Spaced (words "m²".toList) "m²".toList ∧
    ((ofText? (leadingSource (wordsSource "m²"))).map fun pattern =>
      (pattern.find? (.whole "m²".toList.toArray) 0).map fun found => found.2.pos) = some none ∧
    isWordChar '\u0301' = true ∧ isWordChar 'a' = true ∧
    ((ofText? (leadingSource (wordsSource "e\u0301"))).map fun pattern =>
      (pattern.find? (.whole "e\u0301a".toList.toArray) 0).map fun found => found.2.pos) = some (some 2) := by
  have hwords : words "m²".toList = ["m²".toList] := by decide
  exact ⟨hwords ▸ .last _, by decide +kernel, by decide, by decide, by decide +kernel⟩

end FlightProcedure
