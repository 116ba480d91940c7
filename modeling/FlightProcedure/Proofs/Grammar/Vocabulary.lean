import FlightProcedure.Proofs.Grammar.LeftRecursion
import FlightProcedure.Proofs.Grammar.Notation

/-!
# The terminals of a grammar

The terminals of a grammar are those of the definitions, followed by those of the literals and patterns that
are written in the rules. `Vocabulary.gather` says what one leaf of a rule adds, and `rules_gather` that the
rules add their leaves one after another.

The terminal of a literal or a pattern is found by its name, which starts with a quote or a slash, so that
`inline_inj` tells them apart.
-/

namespace FlightProcedure

open List

/-- What is known of the terminal for a literal or a pattern inside a rule: its name, its text and its
pattern. -/
structure Inline where
  name : String
  written : TerminalSource
  source : String

abbrev Inline.literal (text : String) : Inline :=
  ⟨"\"" ++ text ++ "\"", .literal text, wordsSource text⟩

abbrev Inline.pattern (regex flags : String) : Inline :=
  ⟨"/" ++ regex ++ "/" ++ flags, .regex (Body.patternGroup regex flags), Body.patternGroup regex flags⟩

namespace BodyToken

def inline? : BodyToken → Option Inline
  | .literal text => some (.literal text)
  | .pattern regex flags => some (.pattern regex flags)
  | _ => none

variable {leaf other : BodyToken} {inline found : Inline}

theorem inline_not_plain (h : leaf.inline? = some inline) : ¬ IsPlain inline.name := by
  cases leaf with
  | literal text =>
    cases h
    exact fun hplain => hplain.1 (by simp)
  | pattern regex flags =>
    cases h
    exact fun hplain => hplain.2 (by simp)
  | _ => cases h

theorem pattern_name_inj {regex flags other others : String} (hflags : IsFlagged flags)
    (hothers : IsFlagged others) (h : "/" ++ regex ++ "/" ++ flags = "/" ++ other ++ "/" ++ others) :
    regex = other ∧ flags = others := by
  have hchars : regex.toList ++ '/' :: flags.toList = other.toList ++ '/' :: others.toList := by
    simpa [String.toList_append] using congrArg String.toList h
  -- The flags are what stands behind the last slash.
  have hbehind : ∀ {before after : List Char}, '/' ∉ after →
      (before ++ '/' :: after).reverse.takeWhile (· != '/') = after.reverse := by
    intro before after hafter
    have hall : ∀ c ∈ after.reverse, (c != '/') = true := fun c hc =>
      bne_iff_ne.mpr fun heq => hafter (heq ▸ mem_reverse.mp hc)
    rw [reverse_append, reverse_cons, append_assoc, takeWhile_append_of_pos hall]
    simp
  have hflagsEq : flags.toList = others.toList := by
    have hreverse := @hbehind regex.toList flags.toList hflags
    rw [hchars, hbehind hothers] at hreverse
    exact (reverse_inj.mp hreverse).symm
  rw [hflagsEq] at hchars
  exact ⟨String.toList_inj.mp (append_cancel_right hchars), String.toList_inj.mp hflagsEq⟩

/-- The terminal of a literal or a pattern is determined by its name. -/
theorem inline_inj (hsound : leaf.IsSound) (hother : other.IsSound) (h : leaf.inline? = some inline)
    (hfound : other.inline? = some found) (hname : found.name = inline.name) : found = inline := by
  cases leaf <;> cases h <;> cases other <;> cases hfound
  case literal.refl.literal.refl text other =>
    have hchars := congrArg String.toList hname
    simp only [String.toList_append] at hchars
    have hparts := append_inj' hchars rfl
    cases String.toList_inj.mp (append_cancel_left hparts.1)
    rfl
  case pattern.refl.pattern.refl =>
    obtain ⟨rfl, rfl⟩ := pattern_name_inj hother hsound hname
    rfl
  all_goals
    have hheads := congrArg (fun name => name.toList.head?) hname
    simp at hheads

end BodyToken

namespace Terminal

def IsDefined (defs : Definitions) (options : GrammarOptions) (terminal : Terminal) : Prop :=
  ∃ definition ∈ defs.terminals, Vocabulary.namedTerminal defs (Definitions.guardClosure defs.terminals options.guarded)
      definition = .ok terminal

/-- The terminal is one for a literal or a pattern inside a rule, with the given pattern. -/
structure IsCompiled (name : String) (written : TerminalSource) (source : String)
    (terminal : Terminal) : Prop where
  name : terminal.name = name
  written : terminal.source = written
  anonymous : terminal.anonymous = true
  filtered : terminal.filtered = false
  guarded : terminal.guarded = false
  leading : Pattern.ofText? (leadingSource source) = some terminal.leading

structure StandsFor (inline : Inline) (terminal : Terminal) : Prop
    extends terminal.IsCompiled inline.name inline.written inline.source where
  exact : Pattern.ofText? (exactSource inline.source) = some terminal.exact

def IsInline (leaves : List BodyToken) (terminal : Terminal) : Prop :=
  ∃ leaf ∈ leaves, ∃ inline, leaf.inline? = some inline ∧ terminal.StandsFor inline

end Terminal

theorem compile_pattern_eq_ok {terminal source : String} {pattern : Pattern}
    (h : compilePattern terminal source = .ok pattern) : Pattern.ofText? source = some pattern := by
  unfold compilePattern at h
  split at h
  · next hpattern =>
    cases h
    exact hpattern
  · cases h

variable {defs : Definitions} {options : GrammarOptions} {definition : Definition} {terminal : Terminal}

def Body.alternatives : Body → List Body
  | .alt bodies => bodies
  | body => [body]

namespace Vocabulary

def names (vocabulary : Vocabulary) : List String := vocabulary.terminals.toList.map (·.name)

/-- What a leaf of a rule adds: a literal reserves its words, and a literal or a pattern has a terminal. A
name has to be known. -/
def gather (defs : Definitions) (vocabulary : Vocabulary) : BodyToken → Option Vocabulary
  | .name name =>
    if name ∈ defs.rules.map (·.name) ∨ name ∈ vocabulary.names then some vocabulary else none
  | .literal text => ((vocabulary.reserve text).anonymous ("\"" ++ text ++ "\"") (.literal text)
      (wordsSource text)).toOption.map Prod.snd
  | .pattern regex flags => (vocabulary.anonymous ("/" ++ regex ++ "/" ++ flags)
      (.regex (Body.patternGroup regex flags)) (Body.patternGroup regex flags)).toOption.map Prod.snd
  | _ => some vocabulary

variable {vocabulary result : Vocabulary} {name source : String} {written : TerminalSource} {id : Nat}
  {found : Rule}

theorem names_push (terminal : Terminal) : (vocabulary.push terminal).names = vocabulary.names ++ [terminal.name] := by
  simp [names, push]

theorem terminals_reserve (vocabulary : Vocabulary) (text : String) :
    (vocabulary.reserve text).terminals = vocabulary.terminals := by
  unfold reserve
  split
  · rfl
  · split <;> rfl
  · dsimp only
    split <;> rfl

theorem terminal_id_eq_some (h : vocabulary.terminalId? name = some id) :
    ∃ terminal, vocabulary.terminals[id]? = some terminal ∧ terminal.name = name := by
  obtain ⟨hlt, hname, _⟩ := Array.findIdx?_eq_some_iff_getElem.mp h
  exact ⟨vocabulary.terminals[id], by simp [hlt], by simpa using hname⟩

theorem terminal_id_eq_none : vocabulary.terminalId? name = none ↔ name ∉ vocabulary.names := by
  simp [terminalId?, names, Array.findIdx?_eq_none_iff]

theorem anonymous_eq_ok (h : vocabulary.anonymous name written source = .ok (id, result)) :
    ∃ terminal, result.terminals[id]? = some terminal ∧ terminal.name = name ∧
      (result = vocabulary ∨
        name ∉ vocabulary.names ∧ result = vocabulary.push terminal ∧ terminal.StandsFor ⟨name, written, source⟩) := by
  unfold anonymous at h
  split at h
  · next found hfound =>
    cases h
    obtain ⟨terminal, hterminal, hname⟩ := terminal_id_eq_some hfound
    exact ⟨terminal, hterminal, hname, .inl rfl⟩
  · next hnone =>
    obtain ⟨leading, hleading, h⟩ := bind_eq_ok h
    obtain ⟨exact, hexact, h⟩ := bind_eq_ok h
    cases h
    exact ⟨_, Array.getElem?_push_size, rfl, .inr ⟨terminal_id_eq_none.mp hnone, rfl,
      ⟨rfl, rfl, rfl, rfl, rfl, compile_pattern_eq_ok hleading⟩, compile_pattern_eq_ok hexact⟩⟩

theorem snd_shaped {α β : Type} (first : Except GrammarError (α × Vocabulary)) (shape : α → β) :
    (do let (found, vocabulary) ← first
        .ok (shape found, vocabulary) : Except GrammarError (β × Vocabulary)).toOption.map Prod.snd =
      first.toOption.map Prod.snd := by
  cases first <;> rfl

theorem items_gather (owner : String) (vocabulary : Vocabulary) (bodies : List Body) :
    (items defs owner vocabulary bodies).toOption.map Prod.snd =
      (Body.leavesOf bodies).foldlM (gather defs) vocabulary := by
  induction bodies using Body.rec_1 (motive_1 := fun body => ∀ vocabulary,
      (item defs owner vocabulary body).toOption.map Prod.snd = body.leaves.foldlM (gather defs) vocabulary)
    generalizing vocabulary with
  | symbol name vocabulary =>
    rw [item, Body.leaves, foldlM_cons, gather]
    have hrule : defs.rules.findIdx? (·.name == name) = none ↔ name ∉ defs.rules.map (·.name) := by
      simp [findIdx?_eq_none_iff]
    have hterminal := @terminal_id_eq_none vocabulary name
    cases hid : defs.rules.findIdx? (·.name == name) <;> cases hfound : vocabulary.terminalId? name <;>
      simp_all [Except.toOption]
  | literal | pattern =>
    simp only [item, Body.leaves, foldlM_cons, foldlM_nil, bind_pure, gather]
    exact snd_shaped _ _
  | seq _ ih | alt _ ih | optional _ ih =>
    rw [item, Body.leaves, ← ih]
    exact snd_shaped _ _
  | rep _ least most ih =>
    rw [item, Body.leaves, ← ih]
    exact snd_shaped _ (Item.rep · least most)
  | nil => rfl
  | cons body bodies ih ihs =>
    rw [items, Body.leavesOf, foldlM_append, ← ih]
    cases item defs owner vocabulary body with
    | error => rfl
    | ok pair => exact (snd_shaped _ _).trans (ihs pair.2)

theorem leaves_alternatives (body : Body) : Body.leavesOf body.alternatives = body.leaves := by
  cases body <;> simp [Body.alternatives, Body.leavesOf, Body.leaves]

theorem rule_eq (vocabulary : Vocabulary) (definition : Definition) : rule defs vocabulary definition = (do
    let (alternatives, vocabulary) ← items defs definition.name vocabulary definition.body.alternatives
    .ok ({ name := definition.name, shaping := definition.shaping, alternatives }, vocabulary)) := by
  rw [rule]
  cases definition.body <;> rfl

theorem rules_gather (vocabulary : Vocabulary) (definitions : List Definition) :
    (rules defs vocabulary definitions).toOption.map Prod.snd =
      (definitions.flatMap (·.body.leaves)).foldlM (gather defs) vocabulary := by
  induction definitions generalizing vocabulary with
  | nil => rfl
  | cons definition definitions ih =>
    rw [flatMap_cons, foldlM_append, ← leaves_alternatives, ← items_gather definition.name, rules, rule_eq]
    cases items defs definition.name vocabulary definition.body.alternatives with
    | error => rfl
    | ok pair => exact (snd_shaped _ _).trans (ih pair.2)

theorem named_terminal_eq_ok {guarded : List String} (h : namedTerminal defs guarded definition = .ok terminal) :
    terminal.name = definition.name ∧ terminal.anonymous = false := by
  obtain ⟨source, _, h⟩ := bind_eq_ok h
  obtain ⟨leading, _, h⟩ := bind_eq_ok h
  obtain ⟨exact, _, h⟩ := bind_eq_ok h
  cases h
  exact ⟨rfl, rfl⟩

theorem of_definitions_eq : ofDefinitions defs options = (do
    let found ← defs.terminals.mapM (namedTerminal defs (Definitions.guardClosure defs.terminals options.guarded))
    .ok { terminals := found.toArray }) := by
  have hfold : ∀ (guarded : List String) (definitions : List Definition) (vocabulary : Vocabulary),
      definitions.foldlM (fun vocabulary definition => do
        .ok (vocabulary.push (← namedTerminal defs guarded definition))) vocabulary = (do
          let found ← definitions.mapM (namedTerminal defs guarded)
          .ok { vocabulary with terminals := vocabulary.terminals ++ found } : Except GrammarError Vocabulary) := by
    intro guarded definitions
    induction definitions with
    | nil => intro vocabulary; simp; rfl
    | cons definition definitions ih =>
      intro vocabulary
      rw [foldlM_cons, mapM_cons]
      cases namedTerminal defs guarded definition with
      | error => rfl
      | ok terminal =>
        refine (ih _).trans ?_
        cases definitions.mapM (namedTerminal defs guarded) with
        | error => rfl
        | ok found =>
          have hterminals : (vocabulary.push terminal).terminals ++ found = vocabulary.terminals ++ (terminal :: found) := by
            simp [push]
          exact congrArg (fun terminals => Except.ok { vocabulary with terminals }) hterminals
  rw [ofDefinitions, hfold]
  simp

theorem of_definitions_eq_ok (h : ofDefinitions defs options = .ok vocabulary) :
    vocabulary.names = defs.terminals.map (·.name) ∧ (∀ terminal ∈ vocabulary.terminals, terminal.IsDefined defs options) ∧
      vocabulary.keywords = {} ∧ vocabulary.phrases = [] := by
  rw [of_definitions_eq] at h
  obtain ⟨found, hfound, h⟩ := bind_eq_ok h
  cases h
  obtain ⟨hnames, hdefined⟩ := map_m_eq_ok hfound fun h => (named_terminal_eq_ok h).1
  exact ⟨hnames, fun terminal hmem => hdefined terminal (by simpa using hmem), rfl, rfl⟩

end Vocabulary

theorem Definitions.duplicate_eq_none {names seen : List String} :
    duplicate? seen names = none ↔ names.Nodup ∧ ∀ name ∈ names, name ∉ seen := by
  induction names generalizing seen with
  | nil => simp [duplicate?]
  | cons name names ih =>
    rw [duplicate?, nodup_cons, forall_mem_cons]
    split
    · next hseen => simp [hseen]
    · next hfresh =>
      simp only [ih, mem_cons, not_or]
      grind

end FlightProcedure
