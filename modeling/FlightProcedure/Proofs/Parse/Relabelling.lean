import FlightProcedure.Proofs.Parse.Embedding
import FlightProcedure.Proofs.Parse.Growth

/-!
# Parsing by a grammar inside another one

A source is read by a rule of the small grammar like by the rule of the large one that stands for it:
`Embeds.select_alike`. The trees differ in the names of rules and of terminals that have a definition of
their own, and errors are of the same kind and at the same place.
-/

namespace FlightProcedure

open List Chart Input

theorem token_name_named {terminal : Terminal} (h : terminal.anonymous = false) :
    terminal.tokenName = terminal.name := by
  unfold Terminal.tokenName
  split
  · rw [h, if_neg Bool.false_ne_true]
  · rfl

/-- The terminal under a new name, unless it stands for a literal or a pattern inside a rule. -/
def Terminal.relabel (new : String → String) (terminal : Terminal) : Terminal :=
  { terminal with name := if terminal.anonymous then terminal.name else new terminal.name }

def Rule.relabel (new : String → String) (rule : Rule) : Rule := { rule with name := new rule.name }

/-- The source, to be read with new names for rules and for the terminals that have a definition of their
own. -/
def Input.relabel (new : String → String) (input : Input) : Input :=
  { input with grammar := { input.grammar with
      rules := input.grammar.rules.map (Rule.relabel new)
      terminals := input.grammar.terminals.map (Terminal.relabel new) } }

section

variable (new : String → String) (input : Input) (id : Nat)

theorem rule_relabel : (input.relabel new).grammar.rules[id]? = input.grammar.rules[id]?.map (Rule.relabel new) :=
  Array.getElem?_map

theorem terminal_relabel : (input.relabel new).grammar.terminals[id]? =
    input.grammar.terminals[id]?.map (Terminal.relabel new) :=
  Array.getElem?_map

theorem text_between_relabel : (input.relabel new).textBetween = input.textBetween := rfl

theorem token_name_relabel (terminal : Terminal) : (terminal.relabel new).tokenName =
    if terminal.anonymous then terminal.tokenName else new terminal.name := by
  cases hinline : terminal.anonymous with
  | true => simp [Terminal.relabel, Terminal.tokenName, hinline]
  | false =>
    have hrelabelled : (terminal.relabel new).anonymous = false := hinline
    rw [token_name_named hrelabelled]
    simp [Terminal.relabel, hinline]

end

/-- `Renamed grammar new tree other` says that the trees differ in the names of rules and of tokens of
terminals that have a definition of their own. -/
inductive Tree.Renamed (grammar : Grammar) (new : String → String) : Tree → Tree → Prop where
  | named {terminal : Terminal} {text : String} {start stop : Nat}
      (hterminal : terminal ∈ grammar.terminals) (hnamed : terminal.anonymous = false) :
      Renamed grammar new (.leaf ⟨terminal.name, text, start, stop⟩)
        (.leaf ⟨new terminal.name, text, start, stop⟩)
  | inline {terminal : Terminal} {text : String} {start stop : Nat}
      (hterminal : terminal ∈ grammar.terminals) (hinline : terminal.anonymous = true) :
      Renamed grammar new (.leaf ⟨terminal.tokenName, text, start, stop⟩)
        (.leaf ⟨terminal.tokenName, text, start, stop⟩)
  | node {rule : String} {start stop : Nat} {children others : List Tree}
      (hchildren : Forall₂ (Renamed grammar new) children others) :
      Renamed grammar new (.node rule start stop children) (.node (new rule) start stop others)

/-- Two outcomes of a parse are alike: the results are related, or there are errors of the same kind at the
same place. -/
inductive OutcomesAlike {α : Type} (new : String → String) (related : α → α → Prop) :
    Except ParseError α → Except ParseError α → Prop where
  | ok {result other : α} (h : related result other) : OutcomesAlike new related (.ok result) (.ok other)
  | unexpected {offset line column : Nat} {expected others : List String} {found : String} :
      OutcomesAlike new related (.error (.unexpected offset line column expected found))
        (.error (.unexpected offset line column others found))
  | ambiguous {rule : String} {start stop : Nat} {readings others : List String} :
      OutcomesAlike new related (.error (.ambiguous rule start stop readings))
        (.error (.ambiguous (new rule) start stop others))

variable {new : String → String}

theorem OutcomesAlike.bind {α β : Type} {related : α → α → Prop}
    {then' : β → β → Prop} {first second : Except ParseError α} {next other : α → Except ParseError β}
    (h : OutcomesAlike new related first second)
    (hnext : ∀ result value, related result value → OutcomesAlike new then' (next result) (other value)) :
    OutcomesAlike new then' (first >>= next) (second >>= other) := by
  cases h with
  | ok h => exact hnext _ _ h
  | unexpected => exact .unexpected
  | ambiguous => exact .ambiguous

theorem OutcomesAlike.imp {α : Type} {related weaker : α → α → Prop}
    {first second : Except ParseError α} (h : OutcomesAlike new related first second)
    (himp : ∀ result other, related result other → first = .ok result → weaker result other) :
    OutcomesAlike new weaker first second := by
  cases h with
  | ok h => exact .ok (himp _ _ h rfl)
  | unexpected => exact .unexpected
  | ambiguous => exact .ambiguous

theorem Furthest.Sums.pos_eq {furthest last : Furthest} {missing others : Nat → String → Prop}
    (h : furthest.Sums missing) (hlast : last.Sums others)
    (hsame : ∀ pos, (∃ name, others pos name) ↔ ∃ name, missing pos name) : last.pos = furthest.pos := by
  by_cases hmissing : ∃ pos name, missing pos name
  · obtain ⟨name, hname⟩ := h.reached hmissing
    obtain ⟨other, hother⟩ := (hsame _).mpr ⟨name, hname⟩
    obtain ⟨otherName, hotherName⟩ := hlast.reached ⟨_, other, hother⟩
    obtain ⟨back, hback⟩ := (hsame _).mp ⟨otherName, hotherName⟩
    exact Nat.le_antisymm (h.greatest _ back hback) (hlast.greatest _ other hother)
  · have hnone : ¬ ∃ pos name, others pos name := by
      rintro ⟨pos, name, hname⟩
      exact hmissing ⟨pos, (hsame pos).mp ⟨name, hname⟩⟩
    rw [h.untouched hmissing, hlast.untouched hnone]

namespace Derivation

mutual

def Within (rules terminals : Nat → Prop) : Derivation → Prop
  | .token id _ _ => terminals id
  | .node id _ _ _ children _ => rules id ∧ AllWithin rules terminals children

def AllWithin (rules terminals : Nat → Prop) : List Derivation → Prop
  | [] => True
  | derivation :: rest => derivation.Within rules terminals ∧ AllWithin rules terminals rest

end

theorem AllWithin.append {rules terminals : Nat → Prop} {first second : List Derivation}
    (hfirst : AllWithin rules terminals first) (hsecond : AllWithin rules terminals second) :
    AllWithin rules terminals (first ++ second) := by
  induction first with
  | nil => exact hsecond
  | cons derivation rest ih => exact ⟨hfirst.1, ih hfirst.2⟩

end Derivation

theorem Tree.Renamed.children {grammar : Grammar} {tree other : Tree} (h : tree.Renamed grammar new other) :
    Forall₂ (Tree.Renamed grammar new) tree.children other.children := by
  cases h with
  | named | inline => exact .nil
  | node hchildren => exact hchildren

namespace Embeds

variable {small large : Input} {num : Renumbering} {new : String → String} {rules terminals : Nat → Prop}
  {policy : Policy} (h : Embeds small large num new rules terminals) {id : Nat}

include h

theorem reads_within {item : Item} {pos stop : Nat} {children : List Derivation}
    (hreads : Reads small policy item pos children stop) (hwithin : item.Within rules terminals) :
    Derivation.AllWithin rules terminals children := by
  induction hreads using Reads.rec (motive_2 := fun items _ children _ _ =>
      Item.AllWithin rules terminals items → Derivation.AllWithin rules terminals children) with
  | rule _ _ ih => exact ⟨⟨hwithin, ih (h.alternatives hwithin).2⟩, trivial⟩
  | terminal => exact ⟨hwithin, trivial⟩
  | seq _ ih | present _ ih => exact ih hwithin
  | alt hitems _ _ ih => exact ih (Item.all_within_iff.mp hwithin _ (by simp [hitems]))
  | skipped | nil => trivial
  | rep _ _ _ ih => exact ih (Item.all_within_iff.mpr fun _ hitem => (mem_replicate.mp hitem).2 ▸ hwithin)
  | cons _ _ ih ihs hwithin => exact (ih hwithin.1).append (ihs hwithin.2)

theorem rule_name (hid : rules id) :
    large.ruleName (num.rule id) = new (small.ruleName id) ∧
      (small.relabel new).ruleName id = new (small.ruleName id) := by
  obtain ⟨rule, other, hrule, hother, hstands, -⟩ := h.rule id hid
  simp [ruleName, rule_relabel, Rule.relabel, hrule, hother, hstands.name]

theorem text_between (start stop : Nat) : large.textBetween start stop = small.textBetween start stop := by
  rw [textBetween, textBetween, h.chars]

theorem token_trees (hid : terminals id) (keepTokens : Bool) (start stop : Nat) :
    (small.relabel new).tokenTree? keepTokens id start stop = large.tokenTree? keepTokens (num.terminal id) start stop ∧
      Forall₂ (Tree.Renamed small.grammar new) (small.tokenTree? keepTokens id start stop).toList
        (large.tokenTree? keepTokens (num.terminal id) start stop).toList := by
  obtain ⟨terminal, other, hterminal, hother, hstands⟩ := h.terminal id hid
  have hmem := Array.mem_of_getElem? hterminal
  have hfiltered : (terminal.relabel new).filtered = terminal.filtered := rfl
  have hanonymous : (terminal.relabel new).anonymous = terminal.anonymous := rfl
  simp only [tokenTree?, terminal_relabel, text_between_relabel, hterminal, hother, Option.map_some,
    hstands.filtered, hstands.anonymous, hfiltered, hanonymous, hstands.tokenName, token_name_relabel,
    h.text_between, true_and]
  split
  · exact .nil
  · refine .cons ?_ .nil
    cases hinline : terminal.anonymous with
    | true => exact .inline hmem hinline
    | false =>
      rw [token_name_named hinline]
      exact .named hmem hinline

theorem splices (hid : rules id) {tree other : Tree} (htree : tree.Renamed small.grammar new other) :
    (small.relabel new).splice id other = large.splice (num.rule id) other ∧
      Forall₂ (Tree.Renamed small.grammar new) (small.splice id tree)
        (large.splice (num.rule id) other) := by
  obtain ⟨rule, otherRule, hrule, hother, hstands, -⟩ := h.rule id hid
  have hchildren := htree.children
  have hshaping : (rule.relabel new).shaping = rule.shaping := rfl
  have hhidden : (rule.relabel new).isHidden = rule.isHidden := by
    rw [← hstands.hidden, Rule.isHidden, Rule.isHidden, hstands.name, Rule.relabel]
  simp only [splice, rule_relabel, hrule, hother, Option.map_some, hshaping, hhidden,
    hstands.shaping, hstands.hidden, hchildren.length_eq, true_and]
  split
  · exact hchildren
  · exact .cons htree .nil

theorem keeps_tokens (hid : rules id) :
    large.grammar.rules[num.rule id]?.map (·.shaping.keepTokens) = small.grammar.rules[id]?.map (·.shaping.keepTokens) ∧
      (small.relabel new).grammar.rules[id]?.map (·.shaping.keepTokens) =
        small.grammar.rules[id]?.map (·.shaping.keepTokens) := by
  obtain ⟨rule, other, hrule, hother, hstands, -⟩ := h.rule id hid
  simp [rule_relabel, Rule.relabel, hrule, hother, hstands.shaping]

mutual

theorem trees_alike (pos stop : Nat) (span : Option (Nat × Nat)) (rivals : List (List Derivation)) :
    ∀ (id : Nat) (children : List Derivation), rules id → Derivation.AllWithin rules terminals children →
      OutcomesAlike new
        (fun tree other =>
          (small.relabel new).treeOf (.node id pos stop span children rivals) = .ok other ∧
            tree.Renamed small.grammar new other)
        (small.treeOf (.node id pos stop span children rivals))
        (large.treeOf ((Derivation.node id pos stop span children rivals).renumber num))
  | id, children, hid, hwithin => by
    obtain ⟨hlarge, hrelabelled⟩ := h.keeps_tokens hid
    obtain ⟨hname, hnew⟩ := h.rule_name hid
    have hrivals : (Derivation.renumberRivals num rivals).isEmpty = rivals.isEmpty := by
      rw [Derivation.renumber_rivals_eq, isEmpty_map]
    rw [Derivation.renumber, tree_of_node_eq small, tree_of_node_eq large, hrivals, hlarge, hname]
    by_cases hempty : rivals.isEmpty = true
    · rw [if_pos hempty, if_pos hempty]
      refine (forests_alike _ children hwithin).bind fun trees others hothers => .ok ⟨?_, ?_⟩
      · rw [tree_of_node_eq, hrelabelled, if_pos hempty, hothers.1, hnew]
        rfl
      · exact .node hothers.2
    · rw [if_neg hempty, if_neg hempty]
      exact .ambiguous

theorem forests_alike (keepTokens : Bool) :
    ∀ children : List Derivation, Derivation.AllWithin rules terminals children →
      OutcomesAlike new (fun trees others => (small.relabel new).treesOf keepTokens children = .ok others ∧
        Forall₂ (Tree.Renamed small.grammar new) trees others)
        (small.treesOf keepTokens children) (large.treesOf keepTokens (Derivation.renumberAll num children))
  | [], _ => by
    simp only [treesOf, Derivation.renumberAll]
    exact .ok ⟨rfl, .nil⟩
  | .token id start stop :: rest, hwithin => by
    simp only [treesOf, Derivation.renumberAll, Derivation.renumber]
    obtain ⟨hsame, htokens⟩ := h.token_trees hwithin.1 keepTokens start stop
    refine (forests_alike keepTokens rest hwithin.2).bind fun trees others hothers => .ok ⟨?_, ?_⟩
    · rw [hothers.1, hsame]
      rfl
    · exact rel_append htokens hothers.2
  | .node id pos stop span children rivals :: rest, hwithin => by
    have hfirst := trees_alike pos stop span rivals id children hwithin.1.1 hwithin.1.2
    rw [Derivation.renumber] at hfirst
    simp only [treesOf, Derivation.renumberAll, Derivation.renumber]
    refine hfirst.bind fun tree other htree => ?_
    obtain ⟨hsame, hspliced⟩ := h.splices hwithin.1.1 htree.2
    refine (forests_alike keepTokens rest hwithin.2).bind fun trees others hothers => .ok ⟨?_, ?_⟩
    · rw [htree.1, hothers.1, ← hsame]
      rfl
    · exact rel_append hspliced hothers.2

end

theorem missed_iff (hsmall : small.Ready) (hlarge : large.Ready) (hid : rules id) (pos : Nat) :
    (∃ name, Missed large (Needs large (.rule (num.rule id)) 0) pos name) ↔
      ∃ name, Missed small (Needs small (.rule id) 0) pos name := by
  have hmissed : ∀ {input : Input} (hready : input.Ready) (item : Item),
      (∃ name, Missed input (Needs input item 0) pos name) ↔
        pos ∈ missedAt input ((needs hready).item item 0) := by
    intro input hready item
    constructor
    · rintro ⟨_, id, next, terminal, hneeds, hterminal, hnone, rfl, -⟩
      exact ⟨(id, next), hneeds, terminal, hterminal, hnone, rfl⟩
    · rintro ⟨⟨id, next⟩, hneeds, terminal, hterminal, hnone, rfl⟩
      exact ⟨_, id, next, terminal, hneeds, hterminal, hnone, rfl, rfl⟩
  rw [hmissed hlarge, hmissed hsmall, (rule_agrees hsmall hlarge h hid (Nat.zero_le _)).2]

theorem unexpected_alike {α : Type} {related : α → α → Prop} {furthest last : Furthest}
    (hpos : last.pos = furthest.pos) :
    OutcomesAlike new related (.error (small.unexpected furthest)) (.error (large.unexpected last)) := by
  simp only [unexpected, foundAt, h.chars, h.size, hpos]
  exact .unexpected

/-- A source is read by a rule of the small grammar like by the rule of the large one that stands for it. The
trees are those of one derivation, with the names of the one and of the other grammar. -/
theorem select_alike (hsmall : small.Ready) (hlarge : large.Ready) (hid : rules id) :
    OutcomesAlike new
      (fun tree other => (∃ derivation, (derive small id).1.find? small.readsAll = some derivation ∧
        (small.relabel new).treeOf derivation = .ok other) ∧ tree.Renamed small.grammar new other)
      (small.select (derive small id).2.furthest (derive small id).1)
      (large.select (derive large (num.rule id)).2.furthest (derive large (num.rule id)).1) := by
  have hderive : (derive large (num.rule id)).1 = (derive small id).1.map (Derivation.renumber num) := by
    rw [(derive_faithful hlarge _).1, (derive_faithful hsmall _).1,
      (rule_agrees hsmall hlarge h hid (Nat.zero_le _)).1]
  have hreads : large.readsAll ∘ Derivation.renumber num = small.readsAll := by
    funext derivation
    simp only [Function.comp_apply, readsAll, Derivation.stop_renumber, h.skip, h.size]
  have hfind : (derive large (num.rule id)).1.find? large.readsAll =
      ((derive small id).1.find? small.readsAll).map (Derivation.renumber num) := by
    rw [hderive, find?_map, hreads]
  cases hfound : (derive small id).1.find? small.readsAll with
  | some derivation =>
    rw [hfound] at hfind
    rw [select_eq_tree hfound, select_eq_tree hfind]
    have hmem := mem_of_find?_eq_some hfound
    rw [(derive_faithful hsmall id).1] at hmem
    have hderived := derive_at_free hsmall derivation (Nat.zero_le _) hmem
    have hwithin := h.reads_within hderived hid
    cases hderived with
    | rule hrivals hbody =>
      refine (h.trees_alike _ _ _ _ id _ hid hwithin.1.2).imp fun tree other htree _ => ?_
      exact ⟨⟨_, rfl, htree.1⟩, htree.2⟩
  | none =>
    rw [hfound] at hfind
    have hnone : ∀ derivation ∈ (derive small id).1,
        small.skip derivation.stop ≠ small.size := fun derivation hmem hall =>
      find?_eq_none.mp hfound derivation hmem (decide_eq_true hall)
    have hother : ∀ derivation ∈ (derive large (num.rule id)).1,
        large.skip derivation.stop ≠ large.size := fun derivation hmem hall =>
      find?_eq_none.mp hfind derivation hmem (decide_eq_true hall)
    rw [select_eq_error hnone, select_eq_error hother]
    refine h.unexpected_alike ((sums_note_stops (derive_tracked hsmall id)).pos_eq
      (sums_note_stops (derive_tracked hlarge (num.rule id))) fun pos => ?_)
    simp only [exists_or, h.missed_iff hsmall hlarge hid, hderive, mem_map, exists_exists_and_eq_and,
      Derivation.stop_renumber, h.skip]

end Embeds

end FlightProcedure
