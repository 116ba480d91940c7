import FlightProcedure.Proofs.Grammar.ReservedWords

/-!
# What the items of a grammar stand for

`Denotes terminals defs options body item` says that an item of a grammar, in which rules and terminals
are numbered, stands for a body of a definition, in which they have names. Read it first:
`build_settled` says that in every grammar that can be built the alternatives of a rule stand for those
of its definition.

A literal or a pattern inside a rule is a terminal whose name starts with a quote or a slash, so the
names in definitions must not start so.
-/

namespace FlightProcedure

open List

mutual

/-- `Denotes terminals defs options body item` says that the item stands for the body. -/
inductive Denotes (terminals : Array Terminal) (defs : Definitions) (options : GrammarOptions) :
    Body → Item → Prop where
  | rule {name : String} {id : Nat} {definition : Definition}
      (hrule : defs.rules[id]? = some definition) (hname : definition.name = name) :
      Denotes terminals defs options (.symbol name) (.rule id)
  | terminal {name : String} {id : Nat} {terminal : Terminal}
      (hterminal : terminals[id]? = some terminal) (hname : terminal.name = name)
      (hdefined : terminal.IsDefined defs options) :
      Denotes terminals defs options (.symbol name) (.terminal id)
  | literal {text : String} {id : Nat} {terminal : Terminal}
      (hterminal : terminals[id]? = some terminal) (hliteral : terminal.StandsFor (.literal text)) :
      Denotes terminals defs options (.literal text) (.terminal id)
  | pattern {regex flags : String} {id : Nat} {terminal : Terminal}
      (hterminal : terminals[id]? = some terminal) (hpattern : terminal.StandsFor (.pattern regex flags)) :
      Denotes terminals defs options (.pattern regex flags) (.terminal id)
  | seq {bodies : List Body} {items : List Item}
      (h : DenotesAll terminals defs options bodies items) :
      Denotes terminals defs options (.seq bodies) (.seq items)
  | alt {bodies : List Body} {items : List Item}
      (h : DenotesAll terminals defs options bodies items) :
      Denotes terminals defs options (.alt bodies) (.alt items)
  | optional {body : Body} {item : Item} (h : Denotes terminals defs options body item) :
      Denotes terminals defs options (.optional body) (.optional item)
  | rep {body : Body} {item : Item} {least : Nat} {most : Option Nat}
      (h : Denotes terminals defs options body item) :
      Denotes terminals defs options (.rep body least most) (.rep item least most)

/-- `DenotesAll terminals defs options bodies items` says that each item stands for the body in its
place. -/
inductive DenotesAll (terminals : Array Terminal) (defs : Definitions) (options : GrammarOptions) :
    List Body → List Item → Prop where
  | nil : DenotesAll terminals defs options [] []
  | cons {body : Body} {bodies : List Body} {item : Item} {items : List Item}
      (hbody : Denotes terminals defs options body item)
      (hbodies : DenotesAll terminals defs options bodies items) :
      DenotesAll terminals defs options (body :: bodies) (item :: items)

end

/-- The rule of a definition: it has its name and shaping, and its alternatives stand for those of the
definition. -/
structure IsRule (terminals : Array Terminal) (defs : Definitions) (options : GrammarOptions)
    (definition : Definition) (rule : Rule) : Prop where
  name : rule.name = definition.name
  shaping : rule.shaping = definition.shaping
  alternatives : DenotesAll terminals defs options definition.body.alternatives rule.alternatives

variable {terminals : Array Terminal} {defs : Definitions} {options : GrammarOptions} {terminal : Terminal} {id : Nat}
  {owner name : String} {leaf : BodyToken} {inline : Inline}

/-- The terminals are those of the definitions and those of literals and patterns that are written in rules. -/
structure Definitions.Supplies (defs : Definitions) (options : GrammarOptions) (terminals : Array Terminal) : Prop where
  written : ∀ definition ∈ defs.toList, definition.Written
  origin : ∀ terminal ∈ terminals, terminal.IsInline defs.ruleLeaves ∨ terminal.IsDefined defs options

namespace Definitions.Supplies

variable (h : defs.Supplies options terminals)

include h

theorem sound : ∀ leaf ∈ defs.ruleLeaves, leaf.IsSound :=
  forall_mem_flatMap.mpr fun definition hmem => (h.written definition (mem_append_left _ hmem)).leaves

theorem defined (hmem : terminal ∈ terminals) (hplain : IsPlain terminal.name) :
    terminal.IsDefined defs options := by
  refine (h.origin terminal hmem).resolve_left ?_
  rintro ⟨leaf, _, inline, hinline, hstands⟩
  exact BodyToken.inline_not_plain hinline (hstands.name ▸ hplain)

theorem stands_for (hmem : terminal ∈ terminals) (hsound : leaf.IsSound)
    (hinline : leaf.inline? = some inline) (hname : terminal.name = inline.name) : terminal.StandsFor inline := by
  rcases h.origin terminal hmem with ⟨other, hother, found, hfound, hstands⟩ | ⟨definition, hdefinition, hterminal⟩
  · exact BodyToken.inline_inj hsound (h.sound other hother) hinline hfound (hstands.name.symm.trans hname) ▸ hstands
  · refine absurd ?_ (BodyToken.inline_not_plain hinline)
    rw [← hname, (Vocabulary.named_terminal_eq_ok hterminal).1]
    exact (h.written definition (mem_append_right _ hdefinition)).name.plain

end Definitions.Supplies

namespace Vocabulary

variable {vocabulary result : Vocabulary}

theorem items_kept {bodies : List Body} {found : List Item}
    (h : items defs owner vocabulary bodies = .ok (found, result)) :
    vocabulary.terminals.toList <+: result.terminals.toList := by
  refine (@gather_all_extends _ _ defs (Body.leavesOf bodies) ?_).kept
  rw [← items_gather owner, h]
  rfl

theorem items_denotes {bodies : List Body} {found : List Item} (hterminals : defs.Supplies options terminals)
    (hsound : ∀ leaf ∈ Body.leavesOf bodies, leaf.IsSound)
    (h : items defs owner vocabulary bodies = .ok (found, result))
    (hkept : result.terminals.toList <+: terminals.toList) : DenotesAll terminals defs options bodies found := by
  have hlookup : ∀ {vocabulary : Vocabulary} {id : Nat} {terminal}, vocabulary.terminals.toList <+: terminals.toList →
      vocabulary.terminals[id]? = some terminal → terminals[id]? = some terminal := by
    rintro vocabulary id terminal ⟨more, hmore⟩ hterminal
    rw [← Array.getElem?_toList] at hterminal ⊢
    rw [← hmore, List.getElem?_append_left (List.getElem?_eq_some_iff.mp hterminal).1, hterminal]
  induction bodies using Body.rec_1 (motive_1 := fun body => ∀ {vocabulary result : Vocabulary} {found : Item},
      (∀ leaf ∈ body.leaves, leaf.IsSound) → item defs owner vocabulary body = .ok (found, result) →
      result.terminals.toList <+: terminals.toList → Denotes terminals defs options body found)
    generalizing vocabulary result found with
  | symbol name hsound h hkept =>
    unfold item at h
    split at h
    · next id hid =>
      cases h
      obtain ⟨hlt, hname, _⟩ := findIdx?_eq_some_iff_getElem.mp hid
      exact .rule (getElem?_eq_getElem hlt) (by simpa using hname)
    · split at h
      · next id hid =>
        cases h
        obtain ⟨terminal, hterminal, rfl⟩ := terminal_id_eq_some hid
        have hterminal := hlookup hkept hterminal
        have hname : IsWritten terminal.name := hsound (.name _) (mem_singleton_self _)
        exact .terminal hterminal rfl (hterminals.defined (Array.mem_of_getElem? hterminal) hname.plain)
      · cases h
  | literal text hsound h hkept | pattern regex flags hsound h hkept =>
    unfold item at h
    obtain ⟨⟨id, next⟩, hid, h⟩ := bind_eq_ok h
    cases h
    obtain ⟨terminal, hterminal, hname, -⟩ := anonymous_eq_ok hid
    have hterminal := hlookup hkept hterminal
    constructor
    · exact hterminal
    · exact hterminals.stands_for (Array.mem_of_getElem? hterminal) (hsound _ (mem_singleton_self _)) rfl hname
  | seq _ ih hsound h hkept | alt _ ih hsound h hkept | optional _ ih hsound h hkept | rep _ _ _ ih hsound h hkept =>
    unfold item at h
    obtain ⟨⟨inner, next⟩, hinner, h⟩ := bind_eq_ok h
    cases h
    constructor
    exact ih hsound hinner hkept
  | nil =>
    cases h
    exact .nil
  | cons body bodies ih ihs =>
    unfold items at h
    obtain ⟨⟨first, next⟩, hfirst, h⟩ := bind_eq_ok h
    obtain ⟨⟨others, last⟩, hothers, h⟩ := bind_eq_ok h
    cases h
    obtain ⟨hbody, hbodies⟩ := forall_mem_append.mp hsound
    exact .cons (ih hbody hfirst ((items_kept hothers).trans hkept)) (ihs hbodies hothers hkept)

theorem rules_denote {definitions : List Definition} {found : List Rule} (hterminals : defs.Supplies options terminals)
    (hsound : ∀ definition ∈ definitions, definition.Written)
    (h : rules defs vocabulary definitions = .ok (found, result))
    (hkept : result.terminals.toList <+: terminals.toList) :
    Forall₂ (IsRule terminals defs options) definitions found := by
  induction definitions generalizing vocabulary found with
  | nil =>
    cases h
    exact .nil
  | cons definition definitions ih =>
    unfold rules at h
    obtain ⟨⟨first, next⟩, hfirst, h⟩ := bind_eq_ok h
    obtain ⟨⟨others, last⟩, hothers, h⟩ := bind_eq_ok h
    cases h
    obtain ⟨hwritten, hwrittens⟩ := forall_mem_cons.mp hsound
    rw [rule_eq] at hfirst
    obtain ⟨⟨alternatives, after⟩, hitems, hfirst⟩ := bind_eq_ok hfirst
    cases hfirst
    have hdenotes := items_denotes hterminals (by rw [leaves_alternatives]; exact hwritten.leaves) hitems
      ((rules_extends hothers).kept.trans hkept)
    exact .cons ⟨rfl, rfl, hdenotes⟩ (ih hwrittens hothers)

theorem rules_settle {named : Vocabulary} {found : List Rule} (hwritten : ∀ definition ∈ defs.toList, definition.Written)
    (hnamed : ofDefinitions defs options = .ok named) (h : rules defs named defs.rules = .ok (found, result)) :
    defs.Supplies options result.terminals ∧ Forall₂ (IsRule result.terminals defs options) defs.rules found := by
  have hsupplies : defs.Supplies options result.terminals := ⟨hwritten, fun terminal hmem =>
    ((rules_extends h).terminals terminal hmem).symm.imp_right ((of_definitions_eq_ok hnamed).2.1 terminal)⟩
  exact ⟨hsupplies, rules_denote hsupplies (fun definition hmem => hwritten definition (mem_append_left _ hmem)) h
    (prefix_refl _)⟩

end Vocabulary

theorem forall₂_get {α β : Type} {R : α → β → Prop} {items : List α} {values : List β} (h : Forall₂ R items values)
    (id : Nat) : (∀ item, items[id]? = some item → ∃ value, values[id]? = some value ∧ R item value) ∧
      ∀ value, values[id]? = some value → ∃ item, items[id]? = some item ∧ R item value := by
  induction h generalizing id with
  | nil => simp
  | cons hfirst _ ih =>
    cases id with
    | zero => simpa using hfirst
    | succ id => simpa using ih id

/-- The rules and terminals of the grammar are those of the definitions, and all names are told apart. -/
structure Grammar.Settled (defs : Definitions) (options : GrammarOptions) (grammar : Grammar) : Prop where
  definitions : (defs.toList.map (·.name)).Nodup
  rules : Forall₂ (IsRule grammar.terminals defs options) defs.rules grammar.rules.toList
  supplies : defs.Supplies options grammar.terminals
  terminals : (grammar.terminals.toList.map (·.name)).Nodup
  ignore : options.ignore.mapM (fun source => compilePattern "%ignore" (leadingSource source)) = .ok grammar.ignore

section

variable {grammar : Grammar} {definition : Definition} {rule : Rule}

theorem Grammar.Settled.rule_of_definition (h : grammar.Settled defs options)
    (hdefinition : defs.rules[id]? = some definition) :
    ∃ rule, grammar.rules[id]? = some rule ∧ IsRule grammar.terminals defs options definition rule := by
  simpa using (forall₂_get h.rules id).1 definition hdefinition

theorem Grammar.Settled.definition_of_rule (h : grammar.Settled defs options) (hrule : grammar.rules[id]? = some rule) :
    ∃ definition, defs.rules[id]? = some definition ∧ IsRule grammar.terminals defs options definition rule :=
  (forall₂_get h.rules id).2 rule (by simpa using hrule)

end

theorem build_settled {grammar : Grammar} (hwritten : ∀ definition ∈ defs.toList, definition.Written)
    (h : Grammar.build defs options = .ok grammar) : grammar.Settled defs options := by
  obtain ⟨named, rules, vocabulary, ignore, hnone, hnamed, hrules, hignore, _, rfl⟩ := build_eq_ok.mp h
  have hnodup := (Definitions.duplicate_eq_none.mp hnone).1
  obtain ⟨hsupplies, hall⟩ := Vocabulary.rules_settle hwritten hnamed hrules
  refine ⟨hnodup, hall, hsupplies, (Vocabulary.rules_extends hrules).nodup ?_, hignore⟩
  rw [(Vocabulary.of_definitions_eq_ok hnamed).1]
  rw [Definitions.toList, map_append] at hnodup
  exact (nodup_append.mp hnodup).2.1

end FlightProcedure
