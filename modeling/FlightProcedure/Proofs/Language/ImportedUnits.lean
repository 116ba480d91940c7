import FlightProcedure.Proofs.Grammar.Denotation
import FlightProcedure.Proofs.Grammar.Dependencies
import FlightProcedure.Proofs.Language.Importing
import FlightProcedure.Proofs.Parse.Relabelling

/-!
# Units inside procedures

The grammar of procedures takes over the grammar of units. `units_read_alike` says that a text is read as a
unit by both grammars alike: the trees differ in the names of rules and terminals, and errors are of the same
kind and at the same place.

`Takeover` collects what the import does to the definitions. Read it first: from it follow the patterns of
the terminals (`Takeover.source_eq`), that no guard of the importing grammar reaches them
(`Takeover.not_guarded`), and that its rules stand for the rules that they come from (`Hosting.embeds`).
-/

namespace FlightProcedure

open List Input

variable {terminal other : Terminal} {id target : Nat} {name source found : String} {definition : Definition}
  {new : String → String} {defs : Definitions}

namespace Body

theorem regex_source_rename {lookup other : String → Except GrammarError String} {body : Body}
    (hsame : ∀ symbol ∈ body.symbols, ∀ {old result : String}, lookup symbol = .ok old →
      other (new symbol) = .ok result → result = old) (h : body.regexSource lookup = .ok source)
    (hother : (body.rename new).regexSource other = .ok found) : found = source := by
  induction body using Body.rec (motive_2 := fun items => ∀ {sources found : List String},
      (∀ symbol ∈ symbolsOf items, ∀ {old result : String}, lookup symbol = .ok old →
        other (new symbol) = .ok result → result = old) →
      regexSources lookup items = .ok sources → regexSources other (renameAll new items) = .ok found → found = sources)
    generalizing source found with
  | symbol name =>
    obtain ⟨old, hold, h⟩ := bind_eq_ok h
    obtain ⟨result, hresult, hother⟩ := bind_eq_ok hother
    cases h
    cases hother
    rw [hsame name mem_cons_self hold hresult]
  | literal | pattern =>
    cases h
    cases hother
    rfl
  | seq _ ih | alt _ ih | optional _ ih | rep _ _ _ ih =>
    obtain ⟨old, hold, h⟩ := bind_eq_ok h
    obtain ⟨result, hresult, hother⟩ := bind_eq_ok hother
    cases h
    cases hother
    rw [ih hsame hold hresult]
  | nil _ h hother =>
    cases h
    cases hother
    rfl
  | cons item items ih ihs hsame h hother =>
    obtain ⟨first, hfirst, h⟩ := bind_eq_ok h
    obtain ⟨rest, hrest, h⟩ := bind_eq_ok h
    obtain ⟨otherFirst, hotherFirst, hother⟩ := bind_eq_ok hother
    obtain ⟨otherRest, hotherRest, hother⟩ := bind_eq_ok hother
    cases h
    cases hother
    simp only [symbolsOf, mem_append] at hsame
    rw [ih (fun symbol hsymbol => hsame symbol (.inl hsymbol)) hfirst hotherFirst,
      ihs (fun symbol hsymbol => hsame symbol (.inr hsymbol)) hrest hotherRest]

end Body

open Definitions (importedName importedDefinition)

/-- The definitions of the needed names have been taken over from the units under new names. All names are
told apart. -/
structure Takeover (units defs : Definitions) (root : String) (needed : List String) : Prop where
  closed : ∀ name ∈ needed, ∃ definition, units.get? name = some definition ∧
    ∀ symbol ∈ definition.body.symbols, symbol ∈ needed
  rules : ∀ definition ∈ units.rules, definition.name ∈ needed → importedDefinition root root definition ∈ defs.rules
  terminals : ∀ definition ∈ units.terminals, definition.name ∈ needed →
    importedDefinition root root definition ∈ defs.terminals
  unitsNodup : (units.toList.map (·.name)).Nodup
  defsNodup : (defs.toList.map (·.name)).Nodup
  unitsSorted : units.Sorted
  defsSorted : defs.Sorted

namespace Takeover

variable {units defs : Definitions} {root : String} {needed : List String}

theorem eq_of_name {defs : Definitions} (hnodup : (defs.toList.map (·.name)).Nodup) {other : Definition}
    (hdefinition : definition ∈ defs.toList) (hother : other ∈ defs.toList)
    (hname : definition.name = other.name) : definition = other :=
  inj_on_of_nodup_map hnodup hdefinition hother hname

variable (h : Takeover units defs root needed)

include h

theorem symbols_needed (hmem : definition ∈ units.toList)
    (hname : definition.name ∈ needed) : ∀ symbol ∈ definition.body.symbols, symbol ∈ needed := by
  obtain ⟨found, hfound, hsymbols⟩ := h.closed _ hname
  have hsame : found = definition :=
    eq_of_name h.unitsNodup (mem_of_find?_eq_some hfound) hmem (by simpa using find?_some hfound)
  exact hsame ▸ hsymbols

theorem imported_of_name (hmem : definition ∈ defs.toList)
    (hneeded : name ∈ needed) (hname : definition.name = importedName root root name) :
    ∃ old ∈ units.toList, old.name = name ∧ definition = importedDefinition root root old := by
  obtain ⟨old, hold, -⟩ := h.closed name hneeded
  have holdMem := mem_of_find?_eq_some hold
  have holdName : old.name = name := by simpa using find?_some hold
  refine ⟨old, holdMem, holdName, eq_of_name h.defsNodup hmem ?_ ?_⟩
  · rcases mem_append.mp holdMem with hrule | hterminal
    · exact mem_append_left _ (h.rules old hrule (holdName ▸ hneeded))
    · exact mem_append_right _ (h.terminals old hterminal (holdName ▸ hneeded))
  · rw [hname, importedDefinition, holdName]

theorem not_guarded {guarded : List String} (hguarded : ∀ name ∈ needed, importedName root root name ∉ guarded) :
    ∀ name ∈ needed, importedName root root name ∉ Definitions.guardClosure defs.terminals guarded := by
  have hstep : ∀ guarded : List String, (∀ name ∈ needed, importedName root root name ∉ guarded) →
      ∀ name ∈ needed, importedName root root name ∉ Definitions.guardStep defs.terminals guarded := by
    intro guarded hguarded
    refine foldlRecOn (motive := fun guarded => ∀ name ∈ needed, importedName root root name ∉ guarded)
      defs.terminals _ hguarded ?_
    intro guarded hguarded definition hmem
    split
    · next hadded =>
      intro name hneeded hname
      rcases mem_cons.mp hname with hname | hname
      · -- What has been taken over refers to nothing that is guarded.
        obtain ⟨old, hold, rfl, rfl⟩ := h.imported_of_name (mem_append_right _ hmem) hneeded hname.symm
        obtain ⟨symbol, hsymbol, hin⟩ := any_eq_true.mp hadded.2
        rw [importedDefinition, Body.symbols_rename, mem_map] at hsymbol
        obtain ⟨before, hbefore, rfl⟩ := hsymbol
        exact hguarded before (h.symbols_needed hold hneeded before hbefore) (of_decide_eq_true hin)
      · exact hguarded name hneeded hname
    · exact hguarded
  exact foldlRecOn (motive := fun guarded => ∀ name ∈ needed, importedName root root name ∉ guarded)
    (range _) _ hguarded fun guarded hguarded _ _ => hstep guarded hguarded

theorem source_eq {fuel enough : Nat} {stack other : List String}
    (hneeded : name ∈ needed) (hsource : units.terminalSource fuel stack name = .ok source)
    (hfound : defs.terminalSource enough other (importedName root root name) = .ok found) : found = source := by
  induction fuel generalizing enough stack other name source found with
  | zero => cases hsource
  | succ fuel ih =>
    cases enough with
    | zero => cases hfound
    | succ enough =>
      rw [Definitions.terminalSource] at hsource hfound
      split at hsource
      · cases hsource
      split at hsource
      · cases hsource
      · next definition hdefinition =>
        split at hfound
        · cases hfound
        split at hfound
        · cases hfound
        · next taken htaken =>
          have hmem := mem_of_find?_eq_some hdefinition
          have hname : definition.name = name := by simpa using find?_some hdefinition
          obtain ⟨old, hold, holdName, rfl⟩ := h.imported_of_name
            (mem_append_right _ (mem_of_find?_eq_some htaken)) hneeded
            (by simpa using find?_some htaken)
          have hsame : old = definition := eq_of_name h.unitsNodup hold
            (mem_append_right _ hmem) (holdName.trans hname.symm)
          subst hsame
          refine Body.regex_source_rename (fun symbol hsymbol old result hold hresult => ?_)
            hsource hfound
          split at hold
          · cases hold
          split at hresult
          · cases hresult
          exact ih (h.symbols_needed (mem_append_right _ hmem) (hname ▸ hneeded) symbol hsymbol)
            hold hresult

end Takeover

theorem terminal_of_defined {options : GrammarOptions} (hsorted : defs.Sorted)
    (h : terminal.IsDefined defs options) : isTerminalName terminal.name = true := by
  obtain ⟨definition, hmem, hterminal⟩ := h
  rw [(Vocabulary.named_terminal_eq_ok hterminal).1]
  exact hsorted.terminals definition hmem

theorem named_of_defined {options : GrammarOptions} (h : terminal.IsDefined defs options) :
    terminal.anonymous = false := by
  obtain ⟨definition, -, hterminal⟩ := h
  exact (Vocabulary.named_terminal_eq_ok hterminal).2

theorem not_terminal_of_rule (hsorted : defs.Sorted)
    (h : defs.rules[id]? = some definition) : isTerminalName definition.name = false :=
  hsorted.rules definition (mem_of_getElem? h)

/-- Two grammars, the second of which has been built from definitions that take over those of the first. The
second guards none of them. -/
structure Hosting (units defs : Definitions) (root : String) (needed : List String)
    (options hostOptions : GrammarOptions) (small large : Grammar) : Prop where
  takeover : Takeover units defs root needed
  smallSettled : small.Settled units options
  largeSettled : large.Settled defs hostOptions
  unguarded : options.guarded = []
  hostUnguarded : ∀ name ∈ needed, importedName root root name ∉ hostOptions.guarded
  ignore : hostOptions.ignore = options.ignore

namespace Hosting

variable {units defs : Definitions} {root : String} {needed : List String}
  {options hostOptions : GrammarOptions} {small large : Grammar} {chars : Array Char}

theorem stands_of_leading (hleading : other.leading = terminal.leading) (hguarded : terminal.guarded = false)
    (hother : other.guarded = false) (hfiltered : other.filtered = terminal.filtered)
    (hanonymous : other.anonymous = terminal.anonymous)
    (hname : other.tokenName = if terminal.anonymous then terminal.tokenName else new terminal.name) :
    Terminal.Stands (ofChars small chars) (ofChars large chars) new terminal other := by
  refine ⟨fun start => ?_, hfiltered, hanonymous, hname⟩
  simp only [tokenEnds, ofChars, size, hleading, hguarded, hother, Bool.false_eq_true, if_false]

theorem guard_closure_nil (terminals : List Definition) : Definitions.guardClosure terminals [] = [] := by
  have hstep : Definitions.guardStep terminals [] = [] :=
    foldlRecOn (motive := fun guarded => guarded = []) terminals _ rfl fun guarded hguarded _ _ => by
      subst hguarded
      simp
  refine foldlRecOn (motive := fun guarded => guarded = []) (range _) _ rfl ?_
  intro guarded hguarded _ _
  rw [hguarded, hstep]

theorem named_stands (h : Hosting units defs root needed options hostOptions small large)
    (hterminal : terminal.IsDefined units options) (hother : other.IsDefined defs hostOptions)
    (hneeded : terminal.name ∈ needed) (hname : other.name = importedName root root terminal.name) :
    Terminal.Stands (ofChars small chars) (ofChars large chars) (importedName root root)
      terminal other := by
  obtain ⟨definition, hmem, hterminal⟩ := hterminal
  obtain ⟨taken, htaken, hother⟩ := hother
  rw [(Vocabulary.named_terminal_eq_ok hterminal).1] at hneeded hname
  rw [(Vocabulary.named_terminal_eq_ok hother).1] at hname
  obtain ⟨old, hold, holdName, rfl⟩ := h.takeover.imported_of_name (mem_append_right _ htaken) hneeded hname
  obtain rfl := Takeover.eq_of_name h.takeover.unitsNodup hold (mem_append_right _ hmem) holdName
  obtain ⟨source, hsource, hterminal⟩ := bind_eq_ok hterminal
  obtain ⟨leading, hleading, hterminal⟩ := bind_eq_ok hterminal
  obtain ⟨_, _, hterminal⟩ := bind_eq_ok hterminal
  cases hterminal
  obtain ⟨found, hfound, hother⟩ := bind_eq_ok hother
  obtain ⟨otherLeading, hotherLeading, hother⟩ := bind_eq_ok hother
  obtain ⟨_, _, hother⟩ := bind_eq_ok hother
  cases hother
  cases h.takeover.source_eq hneeded hsource hfound
  have hsame := (compile_pattern_eq_ok hotherLeading).symm.trans (compile_pattern_eq_ok hleading)
  refine stands_of_leading (Option.some.inj hsame) ?_ ?_ ?_ rfl ?_
  · rw [h.unguarded, guard_closure_nil]
    simp
  · exact decide_eq_false (h.takeover.not_guarded h.hostUnguarded _ hneeded)
  · rw [importedDefinition, Definitions.local_name_imported]
  · rw [token_name_named rfl]
    rfl

theorem inline_stands {inline : Inline} (hterminal : terminal.StandsFor inline) (hother : other.StandsFor inline) :
    Terminal.Stands (ofChars small chars) (ofChars large chars) new terminal other := by
  refine stands_of_leading (Option.some.inj (hother.leading.symm.trans hterminal.leading)) hterminal.guarded
    hother.guarded (hother.filtered.trans hterminal.filtered.symm) (hother.anonymous.trans hterminal.anonymous.symm) ?_
  rw [hterminal.anonymous, if_pos rfl, Terminal.tokenName, Terminal.tokenName, hother.written, hterminal.written,
    hother.anonymous, hterminal.anonymous, hother.name, hterminal.name]

/-- The numbers that the rules and the terminals of the units have in the grammar that takes them over. -/
def numbering (units defs : Definitions) (root : String) (small large : Grammar) : Renumbering where
  rule id := (units.rules[id]?.bind fun definition =>
    defs.rules.findIdx? (·.name == importedName root root definition.name)).getD 0
  terminal id := (small.terminals[id]?.bind fun terminal =>
    large.terminals.toList.findIdx? (·.name == (terminal.relabel (importedName root root)).name)).getD 0

def Taken (units : Definitions) (needed : List String) (id : Nat) : Prop :=
  ∃ definition, units.rules[id]? = some definition ∧ definition.name ∈ needed

def Shared (root : String) (num : Renumbering) (small large : Input) (id : Nat) : Prop :=
  ∃ terminal other, small.grammar.terminals[id]? = some terminal ∧
    large.grammar.terminals[num.terminal id]? = some other ∧ terminal.Stands small large (importedName root root) other

theorem find_idx_of_nodup {α : Type} {name : α → String} {items : List α} (hnodup : (items.map name).Nodup)
    {item : α} (h : items[target]? = some item) : items.findIdx? (name · == name item) = some target := by
  obtain ⟨hlt, rfl⟩ := List.getElem?_eq_some_iff.mp h
  refine findIdx?_eq_some_iff_getElem.mpr ⟨hlt, beq_self_eq_true _, fun earlier hearlier heq => ?_⟩
  have hsame : (items.map name)[earlier]? = (items.map name)[target]? := by
    rw [getElem?_map, getElem?_map, getElem?_eq_getElem hlt, getElem?_eq_getElem (Nat.lt_trans hearlier hlt)]
    exact congrArg some (beq_iff_eq.mp heq)
  have hindex := (getElem?_inj (by rw [length_map]; omega) hnodup).mp hsame
  omega

section

variable (h : Hosting units defs root needed options hostOptions small large)

include h

theorem numbering_rule {taken : Definition}
    (hdefinition : units.rules[id]? = some definition) (htaken : defs.rules[target]? = some taken)
    (hname : taken.name = importedName root root definition.name) :
    (numbering units defs root small large).rule id = target := by
  have hnodup : (defs.rules.map (·.name)).Nodup := by
    have hall := h.takeover.defsNodup
    rw [Definitions.toList, map_append] at hall
    exact (nodup_append.mp hall).1
  have hfound := find_idx_of_nodup hnodup htaken
  show (units.rules[id]?.bind _).getD 0 = target
  rw [hdefinition, Option.bind_some, ← hname, hfound, Option.getD_some]

theorem numbering_terminal
    (hterminal : small.terminals[id]? = some terminal) (hother : large.terminals[target]? = some other)
    (hname : other.name = (terminal.relabel (importedName root root)).name) :
    (numbering units defs root small large).terminal id = target := by
  have hfound := find_idx_of_nodup h.largeSettled.terminals (Array.getElem?_toList ▸ hother)
  show (small.terminals[id]?.bind _).getD 0 = target
  rw [hterminal, Option.bind_some, ← hname, hfound, Option.getD_some]

theorem terminal_renumbered
    (hterminal : small.terminals[id]? = some terminal) (hother : large.terminals[target]? = some other)
    (hstands : Terminal.Stands (ofChars small chars) (ofChars large chars)
      (importedName root root) terminal other)
    (hname : other.name = (terminal.relabel (importedName root root)).name) :
    Item.terminal target = (Item.terminal id).renumber (numbering units defs root small large) ∧
      (Item.terminal id).Within (Taken units needed) (Shared root
        (numbering units defs root small large) (ofChars small chars) (ofChars large chars)) := by
  have hnumber := h.numbering_terminal hterminal hother hname
  refine ⟨by rw [Item.renumber, hnumber], terminal, other, hterminal, ?_, hstands⟩
  rw [hnumber]
  exact hother

theorem items_renumbered {bodies : List Body}
    {items others : List Item} (hitems : DenotesAll small.terminals units options bodies items)
    (hothers : DenotesAll large.terminals defs hostOptions (Body.renameAll (importedName root root) bodies) others)
    (hneeded : ∀ symbol ∈ Body.symbolsOf bodies, symbol ∈ needed) :
    others = Item.renumberAll (numbering units defs root small large) items ∧
      Item.AllWithin (Taken units needed) (Shared root (numbering units defs root small large)
        (ofChars small chars) (ofChars large chars)) items := by
  induction hitems using DenotesAll.rec (motive_1 := fun body item _ => ∀ {other : Item},
      Denotes large.terminals defs hostOptions (body.rename (importedName root root)) other →
      (∀ symbol ∈ body.symbols, symbol ∈ needed) → other = item.renumber (numbering units defs root small large) ∧
        item.Within (Taken units needed) (Shared root (numbering units defs root small large)
          (ofChars small chars) (ofChars large chars))) generalizing others with
  | @rule name _ _ hrule hruleName other hother hneeded =>
    have hname := hneeded name mem_cons_self
    have hkind := Definitions.is_terminal_imported root root name
    cases hother with
    | rule hother hotherName =>
      refine ⟨?_, _, hrule, hruleName ▸ hname⟩
      rw [Item.renumber, h.numbering_rule hrule hother (by rw [hotherName, hruleName])]
    | terminal hother hotherName hdefined =>
      rw [← hotherName, terminal_of_defined h.takeover.defsSorted hdefined, ← hruleName,
        not_terminal_of_rule h.takeover.unitsSorted hrule] at hkind
      cases hkind
  | @terminal name _ _ hterminal hterminalName hdefined other hother hneeded =>
    have hname := hneeded name mem_cons_self
    have hkind := Definitions.is_terminal_imported root root name
    cases hother with
    | rule hother hotherName =>
      rw [← hotherName, not_terminal_of_rule h.takeover.defsSorted hother, ← hterminalName,
        terminal_of_defined h.takeover.unitsSorted hdefined] at hkind
      cases hkind
    | terminal hother hotherName hotherDefined =>
      have hnew := hotherName.trans (congrArg _ hterminalName.symm)
      refine h.terminal_renumbered hterminal hother (h.named_stands hdefined hotherDefined
        (hterminalName ▸ hname) hnew) ?_
      rw [hnew, Terminal.relabel, named_of_defined hdefined, if_neg Bool.false_ne_true]
  | literal hterminal hinline hother | pattern hterminal hinline hother =>
    cases hother
    next hother hotherInline =>
      refine h.terminal_renumbered hterminal hother (inline_stands hinline hotherInline) ?_
      rw [hotherInline.name, Terminal.relabel, hinline.anonymous, if_pos rfl, hinline.name]
  | seq _ ih hother hneeded | alt _ ih hother hneeded =>
    cases hother
    next hothers => exact (ih hothers hneeded).imp_left (congrArg _)
  | optional _ ih hother hneeded =>
    cases hother
    next hother => exact (ih hother hneeded).imp_left (congrArg Item.optional)
  | @rep _ _ least most _ ih _ hother hneeded =>
    cases hother
    next hother => exact (ih hother hneeded).imp_left (congrArg fun item => Item.rep item least most)
  | nil =>
    cases hothers
    exact ⟨rfl, trivial⟩
  | cons _ _ ih ihs =>
    cases hothers with
    | cons hother hothers =>
      simp only [Body.symbolsOf, mem_append] at hneeded
      obtain ⟨hfirst, hwithin⟩ := ih hother fun symbol hsymbol => hneeded symbol (.inl hsymbol)
      obtain ⟨hrest, hall⟩ := ihs hothers fun symbol hsymbol => hneeded symbol (.inr hsymbol)
      exact ⟨by rw [hfirst, hrest, Item.renumberAll], hwithin, hall⟩

end

theorem symbols_alternatives (body : Body) : Body.symbolsOf body.alternatives = body.symbols := by
  cases body <;> simp [Body.alternatives, Body.symbolsOf, Body.symbols]

theorem alternatives_rename (new : String → String) (body : Body) :
    (body.rename new).alternatives = Body.renameAll new body.alternatives := by
  cases body <;> simp [Body.alternatives, Body.rename, Body.renameAll]

theorem skip_eq (h : Hosting units defs root needed options hostOptions small large) (pos : Nat) :
    (ofChars large chars).skip pos = (ofChars small chars).skip pos := by
  have hignore : large.ignore = small.ignore := by
    have hlarge := h.largeSettled.ignore
    rw [h.ignore, h.smallSettled.ignore] at hlarge
    exact (Except.ok.inj hlarge).symm
  have hround : ∀ pos, large.skipRound chars pos = small.skipRound chars pos := by
    intro pos
    rw [Grammar.skipRound, Grammar.skipRound, hignore]
  have hrounds : ∀ fuel pos, large.skipRounds chars fuel pos = small.skipRounds chars fuel pos := by
    intro fuel
    induction fuel with
    | zero => exact fun pos => rfl
    | succ fuel ih =>
      intro pos
      simp only [Grammar.skipRounds, hround, ih]
  rw [skip_of_chars, skip_of_chars, Grammar.skip, Grammar.skip, hrounds]

theorem embeds (h : Hosting units defs root needed options hostOptions small large) :
    Embeds (ofChars small chars) (ofChars large chars) (numbering units defs root small large)
      (importedName root root) (Taken units needed) (Shared root (numbering units defs root small large)
        (ofChars small chars) (ofChars large chars)) where
  chars := rfl
  skip := h.skip_eq
  rule id hid := by
    obtain ⟨definition, hdefinition, hneeded⟩ := hid
    obtain ⟨rule, hrule, hisRule⟩ := h.smallSettled.rule_of_definition hdefinition
    have hmem := h.takeover.rules definition (mem_of_getElem? hdefinition) hneeded
    obtain ⟨target, htarget⟩ := mem_iff_getElem?.mp hmem
    obtain ⟨other, hother, hisOther⟩ := h.largeSettled.rule_of_definition htarget
    have hnumber := h.numbering_rule hdefinition htarget rfl
    have halternatives := hisOther.alternatives
    rw [importedDefinition, alternatives_rename] at halternatives
    obtain ⟨hrenumbered, hwithin⟩ := h.items_renumbered hisRule.alternatives halternatives (by
      rw [symbols_alternatives]
      exact h.takeover.symbols_needed (mem_append_left _ (mem_of_getElem? hdefinition)) hneeded)
    refine ⟨rule, other, hrule, by rw [hnumber]; exact hother, ⟨hrenumbered, ?_, ?_, ?_⟩, hwithin⟩
    · rw [hisOther.shaping, hisRule.shaping, importedDefinition]
    · rw [Rule.isHidden, Rule.isHidden, hisOther.name, hisRule.name, importedDefinition,
        Definitions.local_name_imported]
    · rw [hisOther.name, hisRule.name, importedDefinition]
  terminal id hid := hid

theorem rule_id_exists {grammar : Grammar} {rule : Rule} (h : grammar.rules[id]? = some rule)
    (hname : rule.name = name) :
    ∃ found other, grammar.ruleId? name = some found ∧ grammar.rules[found]? = some other ∧ other.name = name := by
  cases hfound : grammar.ruleId? name with
  | none =>
    have hnone := Array.findIdx?_eq_none_iff.mp hfound rule (Array.mem_of_getElem? h)
    simp [hname] at hnone
  | some found =>
    obtain ⟨hlt, hfoundName, -⟩ := Array.findIdx?_eq_some_iff_getElem.mp hfound
    exact ⟨found, _, rfl, Array.getElem?_eq_getElem hlt, by simpa using hfoundName⟩

theorem root_id (h : Hosting units defs root needed options hostOptions small large)
    (hroot : root ∈ needed) (hkind : isTerminalName root = false) :
    ∃ id, small.ruleId? root = some id ∧ Taken units needed id ∧
      large.ruleId? root = some ((numbering units defs root small large).rule id) := by
  obtain ⟨definition, hdefinition, -⟩ := h.takeover.closed root hroot
  have hname : definition.name = root := by simpa using find?_some hdefinition
  have hmem : definition ∈ units.rules := by
    rcases mem_append.mp (mem_of_find?_eq_some hdefinition) with hmem | hmem
    · exact hmem
    · have hterminal := h.takeover.unitsSorted.terminals definition hmem
      rw [hname, hkind] at hterminal
      cases hterminal
  obtain ⟨first, hfirst⟩ := mem_iff_getElem?.mp hmem
  obtain ⟨rule, hrule, hisRule⟩ := h.smallSettled.rule_of_definition hfirst
  obtain ⟨id, found, hid, hfound, hfoundName⟩ := rule_id_exists hrule (hisRule.name.trans hname)
  obtain ⟨source, hsource, hisFound⟩ := h.smallSettled.definition_of_rule hfound
  have hsourceName : source.name = root := hisFound.name.symm.trans hfoundName
  refine ⟨id, hid, ⟨source, hsource, hsourceName ▸ hroot⟩, ?_⟩
  -- The root keeps its name.
  have hkept : importedName root root root = root := if_pos rfl
  have htaken := h.takeover.rules definition hmem (hname ▸ hroot)
  obtain ⟨second, hsecond⟩ := mem_iff_getElem?.mp htaken
  obtain ⟨other, hother, hisOther⟩ := h.largeSettled.rule_of_definition hsecond
  have hotherName : other.name = root := by
    rw [hisOther.name, importedDefinition, hname, hkept]
  obtain ⟨target, last, htarget, hlast, hlastName⟩ := rule_id_exists hother hotherName
  obtain ⟨host, hhost, hisLast⟩ := h.largeSettled.definition_of_rule hlast
  rw [htarget, h.numbering_rule hsource hhost]
  rw [← hisLast.name, hlastName, hsourceName, hkept]

end Hosting

theorem Language.hosting {texts : GrammarTexts} {language : Language} (h : Language.ofTexts texts = .ok language) :
    ∃ units defs needed, unitsRoot ∈ needed ∧ Grammar.build units unitsOptions = .ok language.units ∧
      Grammar.build defs procedureOptions = .ok language.procedure ∧
      Hosting units defs unitsRoot needed unitsOptions procedureOptions language.units
        language.procedure := by
  obtain ⟨units, own, defs, hunits, hbuild, hown, himport, hhost⟩ := of_texts_eq_ok h
  obtain ⟨needed, hneeded, hdefs⟩ := Definitions.import_from_eq_ok himport
  obtain ⟨hunitsSorted, hunitsWritten⟩ := Definitions.of_text_sorted hunits
  obtain ⟨hownSorted, hownWritten⟩ := Definitions.of_text_sorted hown
  obtain ⟨hroot, hclosed⟩ := Definitions.dependencies_closed hneeded
  have hsorted : defs.Sorted := hdefs ▸ hownSorted.push_all _
  have hwritten : ∀ definition ∈ defs.toList, definition.Written := by
    intro definition hmem
    rw [hdefs] at hmem
    rcases Definitions.mem_push_all hmem with hmem | hmem
    · exact hownWritten definition hmem
    · obtain ⟨old, hold, rfl⟩ := mem_map.mp hmem
      have hspace : IsWritten unitsRoot := by
        unfold IsWritten
        decide
      exact Definitions.written_imported hspace _ (hunitsWritten old (mem_filter.mp hold).1)
  have hsettled := build_settled hunitsWritten hbuild
  have hhostSettled := build_settled hwritten hhost
  have htaken : ∀ definition ∈ units.toList, definition.name ∈ needed →
      importedDefinition unitsRoot unitsRoot definition ∈ (units.toList.filter fun definition =>
        decide (definition.name ∈ needed)).map (importedDefinition unitsRoot unitsRoot) :=
    fun definition hmem hname => mem_map_of_mem
      (mem_filter.mpr ⟨hmem, decide_eq_true hname⟩)
  refine ⟨units, defs, needed, hroot, hbuild, hhost, ⟨hclosed, ?_, ?_, hsettled.definitions,
    hhostSettled.definitions, hunitsSorted, hsorted⟩, hsettled, hhostSettled, rfl, ?_, rfl⟩
  · intro definition hmem hname
    rw [hdefs, Definitions.push_all_eq]
    refine mem_append_right _ (mem_filter.mpr ⟨htaken definition (mem_append_left _ hmem) hname, ?_⟩)
    rw [importedDefinition, Definitions.is_terminal_imported, hunitsSorted.rules definition hmem]
    rfl
  · intro definition hmem hname
    rw [hdefs, Definitions.push_all_eq]
    refine mem_append_right _ (mem_filter.mpr ⟨htaken definition (mem_append_right _ hmem) hname, ?_⟩)
    rw [importedDefinition, Definitions.is_terminal_imported, hunitsSorted.terminals definition hmem]
  · intro name _ hguarded
    -- The names of what is taken over start in lower case.
    have hhead : (importedName unitsRoot unitsRoot name).toList.head? = some 'e' := by
      unfold importedName
      split
      · next hname =>
        rw [hname]
        decide
      · simp [unitsRoot]
    rw [mem_singleton.mp hguarded] at hhead
    exact absurd hhead (by decide)

/-- A text is read as a unit by the grammar of units and by that of procedures alike. Either both yield trees
of the same derivation, which differ in the names of rules and of terminals that have a definition, or both
report an error of the same kind at the same place. -/
theorem units_read_alike {texts : GrammarTexts} {language : Language}
    (h : Language.ofTexts texts = .ok language) (source : String) :
    let input := Input.ofChars language.units source.toList.toArray
    let new := importedName Language.unitsRoot Language.unitsRoot
    OutcomesAlike new
      (fun tree other => tree.Renamed language.units new other ∧
        ∃ id derivation, language.units.ruleId? Language.unitsRoot = some id ∧
          (Chart.derive input id).1.find? input.readsAll = some derivation ∧
          input.treeOf derivation = .ok tree ∧ (input.relabel new).treeOf derivation = .ok other)
      (language.parseUnits source) (language.parseAs source Language.unitsRoot) := by
  intro input new
  obtain ⟨units, defs, needed, hroot, hbuild, hhost, hhosting⟩ := Language.hosting h
  obtain ⟨id, hid, htaken, hhostId⟩ := hhosting.root_id hroot (by decide)
  have halike := hhosting.embeds.select_alike (Input.ready_of_build hbuild source.toList.toArray)
    (Input.ready_of_build hhost source.toList.toArray) htaken
  rw [Language.parseUnits, Language.parseAs, Grammar.parse, Grammar.parse, hid, hhostId]
  refine halike.imp fun tree other => ?_
  rintro ⟨⟨derivation, hfind, hother⟩, hrenamed⟩ htree
  rw [Input.select_eq_tree hfind] at htree
  exact ⟨hrenamed, id, derivation, rfl, hfind, htree, hother⟩

/-- A small language, in which a command is followed by a unit and the units have terminals of their own. -/
def unitTexts : GrammarTexts where
  procedure := "command : IDENTIFIER engineering_units\nIDENTIFIER : /[a-z]+/\n"
  units := "engineering_units : UNIT (\"per\" UNIT)?\nUNIT : /[a-z]+/\n"

/-- A speed is read alike in the small language. -/
theorem speed_read_alike : ∃ language, Language.ofTexts unitTexts = .ok language ∧
    let input := Input.ofChars language.units "m per s".toList.toArray
    let new := importedName Language.unitsRoot Language.unitsRoot
    OutcomesAlike new
      (fun tree other => tree.Renamed language.units new other ∧
        ∃ id derivation, language.units.ruleId? Language.unitsRoot = some id ∧
          (Chart.derive input id).1.find? input.readsAll = some derivation ∧
          input.treeOf derivation = .ok tree ∧ (input.relabel new).treeOf derivation = .ok other)
      (language.parseUnits "m per s") (language.parseAs "m per s" Language.unitsRoot) := by
  obtain ⟨language, h, -⟩ := @ok_of_any _ _ (Language.ofTexts unitTexts) (fun _ => true) (by decide +kernel)
  exact ⟨language, h, units_read_alike h "m per s"⟩

end FlightProcedure
