import FlightProcedure.Proofs.Grammar.Denotation
import Mathlib.Data.List.Nodup
import Mathlib.Data.List.Perm.Subperm

/-!
# Well-formed definitions

`Definitions.WellFormed` says what is asked of definitions, in terms of the definitions alone: which names they
may refer to, which patterns have to be valid, what may be repeated, and where rules may lead. A grammar can be
built exactly from well-formed definitions: `build_ok_iff_well_formed`.
-/

namespace FlightProcedure

open Relation List Body

namespace Body

mutual

/-- The body can match nothing, given which names can. -/
def Nullable (known : String → Prop) : Body → Prop
  | .symbol name => known name
  | .seq bodies => AllNullable known bodies
  | .alt bodies => AnyNullable known bodies
  | .optional _ => True
  | .rep inner least _ => least = 0 ∨ inner.Nullable known
  | _ => False

def AllNullable (known : String → Prop) : List Body → Prop
  | [] => True
  | body :: bodies => body.Nullable known ∧ AllNullable known bodies

def AnyNullable (known : String → Prop) : List Body → Prop
  | [] => False
  | body :: bodies => body.Nullable known ∨ AnyNullable known bodies

end

mutual

/-- The body repeats something that can match nothing. -/
def Stalls (known : String → Prop) : Body → Prop
  | .seq bodies => AnyStalls known bodies
  | .alt bodies => AnyStalls known bodies
  | .optional inner => inner.Stalls known
  | .rep inner _ _ => inner.Nullable known ∨ inner.Stalls known
  | _ => False

def AnyStalls (known : String → Prop) : List Body → Prop
  | [] => False
  | body :: bodies => body.Stalls known ∨ AnyStalls known bodies

end

mutual

/-- The name stands at a leading position of the body: only what can match nothing stands before it. -/
def Leads (known : String → Prop) (name : String) : Body → Prop
  | .symbol other => other = name
  | .seq bodies => LeadsSeq known name bodies
  | .alt bodies => LeadsAlt known name bodies
  | .optional inner => inner.Leads known name
  | .rep inner _ _ => inner.Leads known name
  | _ => False

def LeadsSeq (known : String → Prop) (name : String) : List Body → Prop
  | [] => False
  | body :: bodies => body.Leads known name ∨ body.Nullable known ∧ LeadsSeq known name bodies

def LeadsAlt (known : String → Prop) (name : String) : List Body → Prop
  | [] => False
  | body :: bodies => body.Leads known name ∨ LeadsAlt known name bodies

end

end Body

/-- The pattern can be compiled, both for the start of a text and for a whole text. -/
def Compiles (source : String) : Prop :=
  (Pattern.ofText? (leadingSource source)).isSome = true ∧ (Pattern.ofText? (exactSource source)).isSome = true

namespace Definitions

/-- The rule of the name can match nothing: the names that can are the fewest such that the bodies agree. -/
def Nullable (defs : Definitions) (name : String) : Prop :=
  ∀ known : String → Prop,
    (∀ definition ∈ defs.rules, definition.body.Nullable known → known definition.name) → known name

/-- The rule at the first place may enter the one at the second place before any text is consumed. -/
def Enters (defs : Definitions) (id next : Nat) : Prop :=
  ∃ definition name, defs.rules[id]? = some definition ∧ definition.body.Leads defs.Nullable name ∧
    defs.rules.findIdx? (·.name == name) = some next

/-- The terminal of the first name refers to the second name. -/
def Refers (defs : Definitions) (name symbol : String) : Prop :=
  ∃ definition ∈ defs.terminals, definition.name = name ∧ symbol ∈ definition.body.symbols

/-- The terminal of the name refers to terminals only. -/
def Grounded (defs : Definitions) (name : String) : Prop :=
  ∀ symbol, defs.Refers name symbol → symbol ∈ defs.terminals.map (·.name) ∧ symbol ∉ defs.rules.map (·.name)

/-- The names of terminals that are known after some leaves of the rules: those of the definitions, and those of
the literals and patterns among the leaves. -/
def terminalNames (defs : Definitions) (leaves : List BodyToken) : List String :=
  defs.terminals.map (·.name) ++ (leaves.filterMap BodyToken.inline?).map (·.name)

/-- A name among the leaves of the rules is that of a rule or of a known terminal, and a literal or a pattern can be
compiled unless there is a terminal of its name. -/
def Resolved (defs : Definitions) (before : List BodyToken) (leaf : BodyToken) : Prop :=
  (∀ name, leaf = .name name → name ∈ defs.rules.map (·.name) ∨ name ∈ defs.terminalNames before) ∧
    ∀ inline, leaf.inline? = some inline → inline.name ∈ defs.terminalNames before ∨ Compiles inline.source

/-- Each of the leaves is resolved by the definitions and the leaves before it. -/
def AllResolved (defs : Definitions) : List BodyToken → List BodyToken → Prop
  | _, [] => True
  | before, leaf :: leaves => defs.Resolved before leaf ∧ AllResolved defs (before ++ [leaf]) leaves

/-- What is asked of definitions. -/
structure WellFormed (defs : Definitions) (options : GrammarOptions) : Prop where
  /-- All names are different. -/
  distinct : (defs.toList.map (·.name)).Nodup
  /-- Terminals refer to terminals only. -/
  terminals : ∀ name, defs.Grounded name
  /-- No terminal refers to itself, directly or through others. -/
  acyclic : ∀ name, ¬ TransGen defs.Refers name name
  /-- The patterns of the terminals are valid. -/
  named : ∀ definition ∈ defs.terminals, ∀ source, defs.sourceOf definition.name = .ok source → Compiles source
  /-- Rules refer to what is defined, and the patterns inside them are valid. -/
  rules : defs.AllResolved [] defs.ruleLeaves
  /-- The patterns of the text between tokens are valid. -/
  ignore : ∀ source ∈ options.ignore, (Pattern.ofText? (leadingSource source)).isSome = true
  /-- Nothing is repeated that can match nothing. -/
  repeats : ∀ definition ∈ defs.rules, ¬ definition.body.Stalls defs.Nullable
  /-- No rule leads back to itself. -/
  leading : ∀ id, ¬ TransGen defs.Enters id id

end Definitions

variable {defs : Definitions} {options : GrammarOptions}

/-! ## The patterns of terminals -/

theorem Body.regex_source_ok {lookup : String → Except GrammarError String} {body : Body} :
    (∃ source, body.regexSource lookup = .ok source) ↔
      ∀ name ∈ body.symbols, ∃ source, lookup name = .ok source := by
  have hshaped : ∀ {α β : Type} (first : Except GrammarError α) (shape : α → β),
      (∃ value, (do .ok (shape (← first))) = Except.ok (ε := GrammarError) value) ↔ ∃ value, first = .ok value := by
    intro α β first shape
    cases first <;> simp [bind, Except.bind]
  induction body using Body.rec (motive_2 := fun bodies => (∃ sources, regexSources lookup bodies = .ok sources) ↔
      ∀ name ∈ symbolsOf bodies, ∃ source, lookup name = .ok source) with
  | symbol name =>
    rw [regexSource, hshaped]
    simp [symbols]
  | literal | pattern => simp [regexSource, symbols]
  | seq _ ih | alt _ ih | optional _ ih | rep _ _ _ ih =>
    exact (hshaped _ _).trans ih
  | nil => simp [regexSources, symbolsOf]
  | cons item items ih ihs =>
    rw [regexSources, symbolsOf, forall_mem_append, ← ihs]
    refine Iff.trans ?_ (and_congr_left' ih)
    cases item.regexSource lookup <;> cases regexSources lookup items <;> simp [bind, Except.bind]

namespace Definitions

theorem terminal_source_grounded (hdistinct : (defs.toList.map (·.name)).Nodup) {fuel : Nat} {stack : List String}
    {name source : String} (h : defs.terminalSource fuel stack name = .ok source) :
    name ∈ defs.terminals.map (·.name) ∧ Acc (Function.swap defs.Refers) name ∧ defs.Grounded name := by
  induction fuel generalizing stack name source with
  | zero => cases h
  | succ fuel ih =>
    rw [terminalSource] at h
    split at h
    · cases h
    split at h
    · cases h
    · next definition hfound =>
      have hmem := mem_of_find?_eq_some hfound
      obtain rfl : definition.name = name := by simpa using find?_some hfound
      have hnext : ∀ symbol, defs.Refers definition.name symbol → symbol ∉ defs.rules.map (·.name) ∧
          ∃ source, defs.terminalSource fuel (definition.name :: stack) symbol = .ok source := by
        rintro symbol ⟨other, hother, hname, hsymbol⟩
        cases inj_on_of_nodup_map hdistinct (mem_append_right _ hother) (mem_append_right _ hmem) hname
        obtain ⟨found, hfound⟩ := regex_source_ok.mp ⟨source, h⟩ symbol hsymbol
        rw [error_if_eq_ok] at hfound
        exact ⟨by simpa using hfound.1, found, hfound.2⟩
      refine ⟨mem_map_of_mem hmem, ⟨_, fun symbol hsymbol => ?_⟩, fun symbol hsymbol => ?_⟩
      · obtain ⟨-, found, hfound⟩ := hnext symbol hsymbol
        exact (ih hfound).2.1
      · obtain ⟨hrule, found, hfound⟩ := hnext symbol hsymbol
        exact ⟨(ih hfound).1, hrule⟩

/-- Where no terminal refers to itself, the fuel suffices: the stack holds terminals that refer to the name. -/
theorem terminal_source_ok (hgrounded : ∀ name, defs.Grounded name)
    (hacyclic : ∀ name, ¬ TransGen defs.Refers name name) {fuel : Nat} {stack : List String} {name : String}
    (hname : name ∈ defs.terminals.map (·.name)) (hnodup : stack.Nodup) (hstack : stack ⊆ defs.terminals.map (·.name))
    (hleads : ∀ other ∈ stack, TransGen defs.Refers other name)
    (hfuel : defs.terminals.length + 2 ≤ fuel + stack.length) :
    ∃ source, defs.terminalSource fuel stack name = .ok source := by
  induction fuel generalizing stack name with
  | zero =>
    have hlength := (hnodup.subperm hstack).length_le
    rw [length_map] at hlength
    omega
  | succ fuel ih =>
    have hfresh : name ∉ stack := fun hin => hacyclic name (hleads name hin)
    obtain ⟨definition, hfound⟩ : ∃ definition, defs.terminals.find? (·.name == name) = some definition :=
      Option.isSome_iff_exists.mp (find?_isSome.mpr (by simpa using hname))
    rw [terminalSource, if_neg hfresh, hfound]
    refine regex_source_ok.mpr fun symbol hsymbol => ?_
    have hrefers : defs.Refers name symbol :=
      ⟨definition, mem_of_find?_eq_some hfound, by simpa using find?_some hfound, hsymbol⟩
    obtain ⟨hterminal, hrule⟩ := hgrounded name symbol hrefers
    rw [if_neg (by simpa using hrule)]
    refine ih hterminal (nodup_cons.mpr ⟨hfresh, hnodup⟩) (cons_subset.mpr ⟨hname, hstack⟩) ?_ ?_
    · exact forall_mem_cons.mpr ⟨.single hrefers, fun other hother => (hleads other hother).tail hrefers⟩
    · rw [length_cons]
      omega

theorem sources_ok_iff (hdistinct : (defs.toList.map (·.name)).Nodup) :
    (∀ definition ∈ defs.terminals, ∃ source, defs.sourceOf definition.name = .ok source) ↔
      (∀ name, defs.Grounded name) ∧ ∀ name, ¬ TransGen defs.Refers name name := by
  refine ⟨fun h => ⟨?_, fun name hcycle => ?_⟩, fun ⟨hgrounded, hacyclic⟩ definition hmem => ?_⟩
  · rintro _ symbol ⟨definition, hmem, rfl, hsymbol⟩
    obtain ⟨source, hsource⟩ := h definition hmem
    exact (terminal_source_grounded hdistinct hsource).2.2 symbol ⟨definition, hmem, rfl, hsymbol⟩
  · obtain ⟨next, ⟨definition, hmem, rfl, _⟩, _⟩ := TransGen.head'_iff.mp hcycle
    obtain ⟨source, hsource⟩ := h definition hmem
    exact not_trans_gen_of_acc (terminal_source_grounded hdistinct hsource).2.1 (transGen_swap.mpr hcycle)
  · exact terminal_source_ok hgrounded hacyclic (mem_map_of_mem hmem) .nil (nil_subset _)
      (fun _ h => nomatch h) (Nat.le_refl _)

end Definitions

theorem compile_pattern_ok {terminal source : String} :
    (∃ pattern, compilePattern terminal source = .ok pattern) ↔ (Pattern.ofText? source).isSome = true := by
  rw [compilePattern]
  cases Pattern.ofText? source <;> simp

theorem compiles_iff (terminal : String) {source : String} : Compiles source ↔
    (∃ leading, compilePattern terminal (leadingSource source) = .ok leading) ∧
      ∃ exact, compilePattern terminal (exactSource source) = .ok exact := by
  rw [compile_pattern_ok, compile_pattern_ok, Compiles]

namespace Vocabulary

theorem named_terminal_ok {guarded : List String} {definition : Definition} :
    (∃ terminal, namedTerminal defs guarded definition = .ok terminal) ↔
      ∃ source, defs.sourceOf definition.name = .ok source ∧ Compiles source := by
  simp only [compiles_iff definition.name, namedTerminal, bind_eq_ok_iff]
  grind

/-! ## Names and patterns inside rules -/

variable {vocabulary : Vocabulary} {leaf : BodyToken} {inline : Inline} {leaves before : List BodyToken}

theorem anonymous_ok {name source : String} {written : TerminalSource} :
    ((vocabulary.anonymous name written source).toOption.map Prod.snd).isSome = true ↔
      name ∈ vocabulary.names ∨ Compiles source := by
  have hnone := @terminal_id_eq_none vocabulary name
  rw [anonymous, compiles_iff name]
  cases hid : vocabulary.terminalId? name with
  | some id => simp_all [Except.toOption]
  | none =>
    cases compilePattern name (leadingSource source) <;> cases compilePattern name (exactSource source) <;>
      simp_all [Except.toOption, bind, Except.bind]

theorem anonymous_names {result : Vocabulary} {name source : String} {written : TerminalSource}
    (h : (vocabulary.anonymous name written source).toOption.map Prod.snd = some result) (other : String) :
    other ∈ result.names ↔ other ∈ vocabulary.names ∨ other = name := by
  obtain ⟨⟨id, _⟩, hfound, rfl⟩ := Option.map_eq_some_iff.mp h
  obtain ⟨terminal, hterminal, rfl, hsame | ⟨_, hpushed, _⟩⟩ := anonymous_eq_ok (eq_ok_of_to_option hfound)
  · subst hsame
    refine (or_iff_left_of_imp ?_).symm
    rintro rfl
    exact mem_map_of_mem (Array.mem_toList_iff.mpr (Array.mem_of_getElem? hterminal))
  · simp [hpushed, names_push]

theorem gather_ok (hnames : ∀ name, name ∈ vocabulary.names ↔ name ∈ defs.terminalNames before) :
    (gather defs vocabulary leaf).isSome = true ↔ defs.Resolved before leaf := by
  cases leaf with
  | literal text =>
    rw [gather, anonymous_ok, names, terminals_reserve, ← names, hnames]
    simp [Definitions.Resolved, BodyToken.inline?]
  | pattern regex flags =>
    rw [gather, anonymous_ok, hnames]
    simp [Definitions.Resolved, BodyToken.inline?]
  | _ => simp [gather, Definitions.Resolved, BodyToken.inline?, hnames]

theorem gather_names {result : Vocabulary} (h : gather defs vocabulary leaf = some result)
    (hnames : ∀ name, name ∈ vocabulary.names ↔ name ∈ defs.terminalNames before) (name : String) :
    name ∈ result.names ↔ name ∈ defs.terminalNames (before ++ [leaf]) := by
  cases leaf with
  | literal | pattern =>
    rw [anonymous_names h]
    simp_all [names, terminals_reserve, Definitions.terminalNames, BodyToken.inline?, or_assoc]
  | name other =>
    rw [gather] at h
    split at h <;> cases h
    simpa [Definitions.terminalNames, BodyToken.inline?] using hnames name
  | _ =>
    cases h
    simpa [Definitions.terminalNames, BodyToken.inline?] using hnames name

theorem gather_all_ok (hnames : ∀ name, name ∈ vocabulary.names ↔ name ∈ defs.terminalNames before) :
    (leaves.foldlM (gather defs) vocabulary).isSome = true ↔ defs.AllResolved before leaves := by
  induction leaves generalizing vocabulary before with
  | nil => simp [Definitions.AllResolved]
  | cons leaf leaves ih =>
    rw [Definitions.AllResolved, ← gather_ok hnames, foldlM_cons]
    cases hnext : gather defs vocabulary leaf with
    | none => simp
    | some next => simpa using ih (gather_names hnext hnames)

theorem of_definitions_ok (hdistinct : (defs.toList.map (·.name)).Nodup) :
    (∃ named, ofDefinitions defs options = .ok named) ↔ (∀ name, defs.Grounded name) ∧
      (∀ name, ¬ TransGen defs.Refers name name) ∧
      ∀ definition ∈ defs.terminals, ∀ source, defs.sourceOf definition.name = .ok source → Compiles source := by
  rw [← and_assoc, ← Definitions.sources_ok_iff hdistinct, of_definitions_eq]
  simp only [bind_eq_ok_iff, Except.ok.injEq, exists_comm (α := Vocabulary), exists_and_left, exists_eq', and_true,
    map_m_ok_iff, named_terminal_ok]
  grind

theorem rules_ok (h : ofDefinitions defs options = .ok vocabulary) :
    (∃ found, rules defs vocabulary defs.rules = .ok found) ↔ defs.AllResolved [] defs.ruleLeaves := by
  have hnames : ∀ name, name ∈ vocabulary.names ↔ name ∈ defs.terminalNames [] := by
    simp [(of_definitions_eq_ok h).1, Definitions.terminalNames]
  rw [← gather_all_ok hnames, Definitions.ruleLeaves, ← rules_gather]
  cases rules defs vocabulary defs.rules <;> simp [Except.toOption]

end Vocabulary

/-! ## Rules by their numbers -/

def Marks (defs : Definitions) (known : Array Bool) (name : String) : Prop :=
  ∃ id, defs.rules.findIdx? (·.name == name) = some id ∧ known.getD id false = true

/-- What the checks find in the item for a body. -/
structure Tells (defs : Definitions) (known : Array Bool) (body : Body) (item : Item) : Prop where
  nullable : item.nullable known = true ↔ body.Nullable (Marks defs known)
  repeats : item.repeatsNullable known = true ↔ body.Stalls (Marks defs known)
  leading : ∀ id, id ∈ item.leading known ↔
    ∃ name, body.Leads (Marks defs known) name ∧ defs.rules.findIdx? (·.name == name) = some id

section

attribute [local simp] Item.nullable Item.allNullable Item.anyNullable Item.repeatsNullable Item.anyRepeatsNullable
  Item.leading Item.leadingSeq Item.leadingAlt Nullable AllNullable AnyNullable Stalls
  AnyStalls Leads LeadsSeq LeadsAlt alternatives

variable {known : Array Bool} {body : Body}

theorem tells_cons {bodies : List Body} {item : Item} {items : List Item}
    (h : Tells defs known body item) (hs : Tells defs known (.seq bodies) (.seq items) ∧
      Tells defs known (.alt bodies) (.alt items)) : Tells defs known (.seq (body :: bodies)) (.seq (item :: items)) ∧
      Tells defs known (.alt (body :: bodies)) (.alt (item :: items)) := by
  obtain ⟨⟨hall, hrepeats, hseq⟩, hany, -, halt⟩ := hs
  simp only [Item.nullable, Nullable, Item.repeatsNullable, Stalls, Item.leading, Leads]
    at hall hrepeats hseq hany halt
  refine ⟨⟨?_, ?_, fun id => ?_⟩, ?_, ?_, fun id => ?_⟩
  · simp [h.nullable, hall]
  · simp [h.repeats, hrepeats]
  · by_cases hnull : item.nullable known = true <;> simp [h.leading, ← h.nullable, hnull, hseq, or_and_right, exists_or]
  · simp [h.nullable, hany]
  · simp [h.repeats, hrepeats]
  · simp [h.leading, halt, or_and_right, exists_or]

theorem items_tell {owner : String} {bodies : List Body} {vocabulary result : Vocabulary} {found : List Item}
    (h : Vocabulary.items defs owner vocabulary bodies = .ok (found, result)) :
    Tells defs known (.seq bodies) (.seq found) ∧ Tells defs known (.alt bodies) (.alt found) := by
  induction bodies using Body.rec_1 (motive_1 := fun body => ∀ {vocabulary result : Vocabulary} {found : Item},
      Vocabulary.item defs owner vocabulary body = .ok (found, result) → Tells defs known body found)
    generalizing vocabulary result found with
  | symbol name h =>
    unfold Vocabulary.item at h
    split at h
    · next id hid =>
      cases h
      constructor <;> simp [Marks, hid]
      exact fun _ => eq_comm
    · next hid =>
      split at h <;> cases h
      constructor <;> simp [Marks, hid]
  | literal text h | pattern regex flags h =>
    obtain ⟨_, _, h⟩ := bind_eq_ok h
    cases h
    constructor <;> simp
  | seq _ ih h =>
    obtain ⟨_, hinner, h⟩ := bind_eq_ok h
    cases h
    exact (ih hinner).1
  | alt _ ih h =>
    obtain ⟨_, hinner, h⟩ := bind_eq_ok h
    cases h
    exact (ih hinner).2
  | optional _ ih h | rep _ _ _ ih h =>
    obtain ⟨_, hinner, h⟩ := bind_eq_ok h
    cases h
    obtain ⟨hnullable, hrepeats, hleading⟩ := ih hinner
    constructor <;> simp [hnullable, hrepeats, hleading]
  | nil =>
    cases h
    constructor <;> constructor <;> simp
  | cons body bodies ih ihs =>
    obtain ⟨_, hfirst, h⟩ := bind_eq_ok h
    obtain ⟨_, hothers, h⟩ := bind_eq_ok h
    cases h
    exact tells_cons (ih hfirst) (ihs hothers)

theorem tells_body {item : Item} (h : Tells defs known (.alt body.alternatives) item) :
    Tells defs known body item := by
  cases body with
  | alt => exact h
  | _ => exact ⟨by simpa using h.nullable, by simpa using h.repeats, by simpa using h.leading⟩

theorem rules_tell {definitions : List Definition} {vocabulary result : Vocabulary} {found : List Rule}
    (h : Vocabulary.rules defs vocabulary definitions = .ok (found, result)) : Forall₂ (fun definition rule =>
      ∀ known, Tells defs known definition.body (.alt rule.alternatives)) definitions found := by
  induction definitions generalizing vocabulary found with
  | nil =>
    cases h
    exact .nil
  | cons definition definitions ih =>
    obtain ⟨_, hfirst, h⟩ := bind_eq_ok h
    obtain ⟨_, hothers, h⟩ := bind_eq_ok h
    cases h
    obtain ⟨_, hitems, hfirst⟩ := bind_eq_ok hfirst
    cases hfirst
    exact .cons (fun known => tells_body (items_tell hitems).2) (ih hothers)

theorem nullable_mono {more less : String → Prop} (h : ∀ name, less name → more name)
    (hbody : body.Nullable less) : body.Nullable more := by
  induction body using Body.rec (motive_2 := fun bodies =>
    (AllNullable less bodies → AllNullable more bodies) ∧
      (AnyNullable less bodies → AnyNullable more bodies)) with
  | symbol name => exact h name hbody
  | literal | pattern => exact hbody
  | seq _ ih => exact ih.1 hbody
  | alt _ ih => exact ih.2 hbody
  | optional => trivial
  | rep _ _ _ ih => exact hbody.imp_right ih
  | nil => exact ⟨id, id⟩
  | cons _ _ ih ihs => exact ⟨And.imp ih ihs.1, Or.imp ih ihs.2⟩

end

section

variable {rules : List Rule} {definition : Definition} {id : Nat}

theorem index_of_name {name : String} (h : defs.rules.findIdx? (·.name == name) = some id) :
    ∃ definition, defs.rules[id]? = some definition ∧ definition.name = name := by
  obtain ⟨hlt, hname, _⟩ := findIdx?_eq_some_iff_getElem.mp h
  exact ⟨_, getElem?_eq_getElem hlt, by simpa using hname⟩

theorem index_of_mem (hdistinct : (defs.toList.map (·.name)).Nodup) (hmem : definition ∈ defs.rules) :
    ∃ id, defs.rules.findIdx? (·.name == definition.name) = some id ∧ defs.rules[id]? = some definition := by
  obtain ⟨id, hid⟩ : ∃ id, defs.rules.findIdx? (·.name == definition.name) = some id := by
    rw [← Option.isSome_iff_exists, findIdx?_isSome, any_eq_true]
    exact ⟨definition, hmem, beq_self_eq_true _⟩
  obtain ⟨found, hfound, hname⟩ := index_of_name hid
  cases inj_on_of_nodup_map hdistinct (mem_append_left _ (mem_of_getElem? hfound))
    (mem_append_left _ hmem) hname
  exact ⟨id, hid, hfound⟩

variable (hdistinct : (defs.toList.map (·.name)).Nodup) (hrules : Forall₂ (fun definition rule =>
  ∀ known, Tells defs known definition.body (.alt rule.alternatives)) defs.rules rules)

include hdistinct hrules

theorem marks_eq : Marks defs (nullableRules rules.toArray) = defs.Nullable := by
  funext name
  refine propext ⟨?_, fun h => h _ fun definition hmem hbody => ?_⟩
  · rintro ⟨id, hid, hmarked⟩
    refine nullable_rules_induction (motive := fun id => ∀ name, defs.rules.findIdx? (·.name == name) = some id →
      defs.Nullable name) (fun known _ hknown id rule hrule hnullable name hid closed hclosed => ?_) id hmarked name hid
    obtain ⟨definition, hdefinition, rfl⟩ := index_of_name hid
    obtain ⟨found, hfound, htells⟩ := (forall₂_get hrules id).1 definition hdefinition
    cases hfound.symm.trans (by simpa using hrule)
    refine hclosed definition (mem_of_getElem? hdefinition)
      (nullable_mono ?_ ((htells known).nullable.mp hnullable))
    rintro name ⟨id, hid, hmarked⟩
    exact hknown id hmarked name hid closed hclosed
  · obtain ⟨id, hid, hdefinition⟩ := index_of_mem hdistinct hmem
    obtain ⟨rule, hrule, htells⟩ := (forall₂_get hrules id).1 definition hdefinition
    exact ⟨id, hid, (nullable_rules_get (by simpa using hrule)).trans ((htells _).nullable.mpr hbody)⟩

theorem leads_to_eq : LeadsTo (leadingRules rules.toArray) = Function.swap defs.Enters := by
  funext next id
  show LeadsTo _ next id = defs.Enters id next
  rw [Definitions.Enters, ← marks_eq hdistinct hrules, LeadsTo, leadingRules,
    Array.getD_eq_getD_getElem?, Array.getElem?_map]
  cases hrule : rules[id]? with
  | none =>
    have hnone : defs.rules[id]? = none := by
      cases hid : defs.rules[id]? with
      | none => rfl
      | some definition =>
        obtain ⟨rule, hsome, -⟩ := (forall₂_get hrules id).1 definition hid
        cases hrule.symm.trans hsome
    simp [hrule, hnone]
  | some rule =>
    obtain ⟨definition, hdefinition, htells⟩ := (forall₂_get hrules id).2 rule hrule
    have hleading := (htells (nullableRules rules.toArray)).leading next
    rw [Item.leading] at hleading
    simp [hrule, hdefinition, hleading]

theorem check_rules_ok_iff : checkRules rules.toArray = .ok () ↔
    (∀ definition ∈ defs.rules, ¬ definition.body.Stalls defs.Nullable) ∧ ∀ id, ¬ TransGen defs.Enters id id := by
  rw [check_rules_eq_ok, find_cycle_eq_none_iff, leads_to_eq hdistinct hrules, ← marks_eq hdistinct hrules]
  refine and_congr ⟨fun h definition hmem hstalls => ?_, fun h rule hrule => ?_⟩ (by simp [transGen_swap])
  · obtain ⟨id, hid⟩ := mem_iff_getElem?.mp hmem
    obtain ⟨rule, hrule, htells⟩ := (forall₂_get hrules id).1 definition hid
    exact Bool.eq_false_iff.mp (h rule (by simpa using mem_of_getElem? hrule)) ((htells _).repeats.mpr hstalls)
  · obtain ⟨id, hid⟩ := Array.mem_iff_getElem?.mp hrule
    obtain ⟨definition, hdefinition, htells⟩ := (forall₂_get hrules id).2 rule (by simpa using hid)
    exact Bool.eq_false_iff.mpr fun hrepeats =>
      h definition (mem_of_getElem? hdefinition) ((htells _).repeats.mp hrepeats)

end

/-- Names are defined, and literals and patterns can be compiled. -/
def Definitions.Fine (defs : Definitions) (leaf : BodyToken) : Prop :=
  (∀ name, leaf = .name name → name ∈ defs.toList.map (·.name)) ∧
    ∀ inline, leaf.inline? = some inline → Compiles inline.source

/-- Where names are written like names, no definition has the name of a literal or a pattern, and literals and
patterns of one name are the same. -/
theorem all_resolved_iff {before leaves : List BodyToken}
    (hterminals : ∀ definition ∈ defs.terminals, definition.Written)
    (hsound : ∀ leaf ∈ before ++ leaves, leaf.IsSound) (hbefore : ∀ leaf ∈ before, defs.Fine leaf) :
    defs.AllResolved before leaves ↔ ∀ leaf ∈ leaves, defs.Fine leaf := by
  induction leaves generalizing before with
  | nil => simp [Definitions.AllResolved]
  | cons leaf leaves ih =>
    have hleaf : leaf.IsSound := hsound leaf (by simp)
    have hfirst : defs.Resolved before leaf ↔ defs.Fine leaf := by
      refine and_congr (forall₂_congr fun name hname => ?_) (forall₂_congr fun inline hinline => ?_)
      · subst hname
        have hfresh : name ∉ (before.filterMap BodyToken.inline?).map (·.name) := by
          intro hmem
          obtain ⟨inline, hinline, rfl⟩ := mem_map.mp hmem
          obtain ⟨other, -, hother⟩ := mem_filterMap.mp hinline
          exact BodyToken.inline_not_plain hother (IsWritten.plain hleaf)
        simp [Definitions.terminalNames, Definitions.toList, hfresh]
      · refine or_iff_right_of_imp fun hmem => ?_
        rcases mem_append.mp hmem with hmem | hmem
        · obtain ⟨definition, hdefinition, hname⟩ := mem_map.mp hmem
          exact absurd (hname ▸ (hterminals definition hdefinition).name.plain) (BodyToken.inline_not_plain hinline)
        · obtain ⟨found, hfound, hname⟩ := mem_map.mp hmem
          obtain ⟨other, hother, hfound⟩ := mem_filterMap.mp hfound
          rw [← BodyToken.inline_inj hleaf (hsound other (by simp [hother])) hinline hfound hname]
          exact (hbefore other hother).2 found hfound
    rw [Definitions.AllResolved, hfirst, forall_mem_cons]
    refine and_congr_right fun hfine => ih (by simpa using hsound) ?_
    exact forall_mem_append.mpr ⟨hbefore, forall_mem_singleton.mpr hfine⟩

end FlightProcedure
