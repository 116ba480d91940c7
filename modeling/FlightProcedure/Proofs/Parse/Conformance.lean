import FlightProcedure.Proofs.Grammar.Denotation
import FlightProcedure.Proofs.Parse.Growth

/-!
# Trees conform to the definitions of their rules

A node shows only the labels of its children: the names of rules and terminals, and the texts of
literals. `Fits defs keepTokens body labels` says which labels a body allows, and `Tree.Sound` that at
every node of a tree the labels fit the definition of the rule and the children lie one after another
inside the node. Read the two first: `parse_sound` says that every tree that a parse yields is sound.
-/

namespace FlightProcedure

open List Body

inductive Label where
  | token (terminal : String)
  | rule (name : String)
deriving DecidableEq

namespace Tree

def label : Tree → Label
  | .leaf token => .token token.terminal
  | .node rule _ _ _ => .rule rule

def isNode : Tree → Bool
  | .leaf _ => false
  | .node _ _ _ _ => true

end Tree

def isHiddenName (name : String) : Bool := (localName name).toList.head? == some '_'

mutual

/-- `Fits defs keepTokens body labels` says that a body inside a rule that keeps or drops the tokens of
literals allows the labels. -/
inductive Fits (defs : Definitions) : Bool → Body → List Label → Prop where
  | rule {keepTokens : Bool} {definition : Definition} (hmem : definition ∈ defs.rules) :
      Fits defs keepTokens (.symbol definition.name) [.rule definition.name]
  | inlined {keepTokens : Bool} {definition : Definition} {label : Label}
      (hmem : definition ∈ defs.rules) (hinline : definition.shaping.inlineSingle = true)
      (hbody : Fits defs definition.shaping.keepTokens definition.body [label]) :
      Fits defs keepTokens (.symbol definition.name) [label]
  | terminal {keepTokens : Bool} {definition : Definition} (hmem : definition ∈ defs.terminals) :
      Fits defs keepTokens (.symbol definition.name) [.token definition.name]
  | literal {text : String} : Fits defs true (.literal text) [.token text]
  | droppedLiteral {text : String} : Fits defs false (.literal text) []
  | pattern {regex flags : String} :
      Fits defs true (.pattern regex flags) [.token ("/" ++ regex ++ "/" ++ flags)]
  | droppedPattern {regex flags : String} : Fits defs false (.pattern regex flags) []
  | seq {keepTokens : Bool} {bodies : List Body} {labels : List Label}
      (h : FitsAll defs keepTokens bodies labels) : Fits defs keepTokens (.seq bodies) labels
  | alt {keepTokens : Bool} {bodies : List Body} {body : Body} {labels : List Label}
      (hmem : body ∈ bodies) (h : Fits defs keepTokens body labels) :
      Fits defs keepTokens (.alt bodies) labels
  | skipped {keepTokens : Bool} {body : Body} : Fits defs keepTokens (.optional body) []
  | present {keepTokens : Bool} {body : Body} {labels : List Label}
      (h : Fits defs keepTokens body labels) : Fits defs keepTokens (.optional body) labels
  | rep {keepTokens : Bool} {body : Body} {least count : Nat} {most : Option Nat}
      {labels : List Label} (hleast : least ≤ count)
      (h : FitsAll defs keepTokens (replicate count body) labels) :
      Fits defs keepTokens (.rep body least most) labels

/-- `FitsAll defs keepTokens bodies labels` says that the bodies allow the labels one after another. -/
inductive FitsAll (defs : Definitions) : Bool → List Body → List Label → Prop where
  | nil {keepTokens : Bool} : FitsAll defs keepTokens [] []
  | cons {keepTokens : Bool} {body : Body} {bodies : List Body} {first rest : List Label}
      (hbody : Fits defs keepTokens body first) (hbodies : FitsAll defs keepTokens bodies rest) :
      FitsAll defs keepTokens (body :: bodies) (first ++ rest)

end

/-- Trees that are not empty lie one after another from `low` to `high`. -/
def Laid : Nat → List Tree → Nat → Prop
  | _, [], _ => True
  | low, tree :: trees, high =>
    low ≤ tree.start ∧ tree.start < tree.stop ∧ tree.stop ≤ high ∧ Laid tree.stop trees high

def Body.opensWithLiteral : Body → Bool
  | .seq (.literal _ :: _) => true
  | _ => false

variable {stop id start pos count low high : Nat} {inner trees : List Tree} {keepTokens : Bool} {item : Item}
  {text name : String} {body : Body} {terminal : Terminal} {items : List Item} {tree : Tree} {rule : Rule}

namespace Body

mutual

def literals : Body → List String
  | .symbol _ => []
  | .literal text => [text]
  | .pattern _ _ => []
  | .seq bodies => literalsOf bodies
  | .alt bodies => literalsOf bodies
  | .optional inner => inner.literals
  | .rep inner _ _ => inner.literals

def literalsOf : List Body → List String
  | [] => []
  | body :: bodies => body.literals ++ literalsOf bodies

end

theorem mem_literals_of {bodies : List Body} : text ∈ literalsOf bodies ↔ ∃ body ∈ bodies, text ∈ body.literals := by
  induction bodies with
  | nil => simp [literalsOf]
  | cons body bodies ih => simp [literalsOf, ih]

theorem literals_replicate (h : text ∈ literalsOf (replicate count body)) : text ∈ body.literals := by
  obtain ⟨other, hother, htext⟩ := mem_literals_of.mp h
  rwa [eq_of_mem_replicate hother] at htext

theorem literals_alternatives (body : Body) : literalsOf body.alternatives = body.literals := by
  cases body <;> simp [alternatives, literals, literalsOf]

end Body

def Definitions.literals (defs : Definitions) : List String := defs.rules.flatMap (·.body.literals)

structure Input.Lexeme (input : Input) (defs : Definitions) (options : GrammarOptions)
    (terminal : Terminal) (token : Token) : Prop where
  origin : terminal.IsDefined defs options ∨ (∃ text ∈ defs.literals, terminal.StandsFor (.literal text)) ∨
    ∃ regex flags, terminal.StandsFor (.pattern regex flags)
  name : token.terminal = terminal.tokenName
  text : token.text = input.textBetween token.start token.stop
  stop : token.stop ∈ input.tokenEnds terminal token.start

/-- At every node the labels of the children fit the definition of the rule, and the children lie one
after another inside the node. -/
inductive Tree.Sound (input : Input) (defs : Definitions) (options : GrammarOptions) : Tree → Prop where
  | leaf {terminal : Terminal} {token : Token} (h : input.Lexeme defs options terminal token) :
      Tree.Sound input defs options (.leaf token)
  | node {definition : Definition} {start stop : Nat} {children : List Tree}
      (hmem : definition ∈ defs.rules)
      (hfits : Fits defs definition.shaping.keepTokens definition.body (children.map Tree.label))
      (hspan : start < stop) (hlaid : Laid start children stop)
      (hopens : definition.body.opensWithLiteral = true → ∀ child ∈ children, child.isNode = true → start < child.start)
      (hchildren : ∀ child ∈ children, Tree.Sound input defs options child) :
      Tree.Sound input defs options (.node definition.name start stop children)

namespace Body

mutual

def nullable : Body → Bool
  | .symbol _ => false
  | .literal _ => false
  | .pattern _ _ => false
  | .seq bodies => allNullable bodies
  | .alt bodies => anyNullable bodies
  | .optional _ => true
  | .rep inner least _ => least == 0 || inner.nullable

def allNullable : List Body → Bool
  | [] => true
  | body :: bodies => body.nullable && allNullable bodies

def anyNullable : List Body → Bool
  | [] => false
  | body :: bodies => body.nullable || anyNullable bodies

end

end Body

section

variable {terminals : Array Terminal} {defs : Definitions} {options : GrammarOptions}

theorem Denotes.nullable (h : Denotes terminals defs options body item) : item.nullable #[] = body.nullable := by
  induction h using Denotes.rec (motive_2 := fun bodies items _ =>
    Item.allNullable #[] items = allNullable bodies ∧ Item.anyNullable #[] items = anyNullable bodies) with
  | rule => simp [Item.nullable, Body.nullable]
  | terminal | literal | pattern | optional => rfl
  | seq _ ih => exact ih.1
  | alt _ ih => exact ih.2
  | rep _ ih => rw [Item.nullable, Body.nullable, ih]
  | nil => exact ⟨rfl, rfl⟩
  | cons _ _ ih ihs =>
    simp only [Item.allNullable, Item.anyNullable, allNullable, anyNullable, ih, ihs, and_self]

theorem any_nullable_alternatives (body : Body) : anyNullable body.alternatives = body.nullable := by
  cases body <;> simp [alternatives, anyNullable, nullable]

end

/-- An input whose grammar is built from definitions of which none is hidden and no rule can match
nothing. -/
structure Input.Follows (input : Input) (defs : Definitions) (options : GrammarOptions) : Prop where
  ready : input.Ready
  solid : input.Solid
  settled : input.grammar.Settled defs options
  visible : ∀ definition ∈ defs.toList, isHiddenName definition.name = false

theorem Input.follows_of_build {defs : Definitions} {options : GrammarOptions} {grammar : Grammar}
    (h : Grammar.build defs options = .ok grammar) (hwritten : ∀ definition ∈ defs.toList, definition.Written)
    (hvisible : ∀ definition ∈ defs.toList, isHiddenName definition.name = false)
    (hsolid : ∀ definition ∈ defs.rules, definition.body.nullable = false) (chars : Array Char) :
    (Input.ofChars grammar chars).Follows defs options where
  ready := Input.ready_of_build h chars
  solid id rule hrule := by
    obtain ⟨definition, hdefinition, hisRule⟩ := (build_settled hwritten h).definition_of_rule hrule
    have hnullable := (Denotes.alt hisRule.alternatives).nullable
    rw [Item.nullable, Body.nullable, any_nullable_alternatives] at hnullable
    rw [hnullable]
    exact hsolid definition (mem_of_getElem? hdefinition)
  settled := build_settled hwritten h
  visible := hvisible

section

variable {input : Input} {defs : Definitions} {options : GrammarOptions}

theorem any_nullable_of_mem {rules : Array Bool} (hmem : item ∈ items) (h : item.nullable rules = true) :
    Item.anyNullable rules items = true := by
  cases hany : Item.anyNullable rules items with
  | true => rfl
  | false => rw [nullable_of_any hany hmem] at h; cases h

theorem nullable_rep {rules : Array Bool} {inner : Item} {least : Nat} {most : Option Nat}
    (hleast : least ≤ count) (h : Item.allNullable rules (replicate count inner) = true) :
    (Item.rep inner least most).nullable rules = true := by
  cases hrep : (Item.rep inner least most).nullable rules with
  | true => rfl
  | false => rw [all_nullable_replicate hleast hrep] at h; cases h

theorem Laid.append {middle next : Nat} {first second : List Tree} (hfirst : Laid low first middle)
    (hsecond : Laid next second high) (hlow : low ≤ next) (hmiddle : middle ≤ next) (hhigh : middle ≤ high) :
    Laid low (first ++ second) high := by
  induction first generalizing low with
  | nil =>
    cases second with
    | nil => trivial
    | cons tree trees => exact ⟨Nat.le_trans hlow hsecond.1, hsecond.2⟩
  | cons tree trees ih =>
    obtain ⟨hstart, hspan, hstop, hrest⟩ := hfirst
    exact ⟨hstart, hspan, by omega, ih hrest (by omega)⟩

theorem laid_splice (hspan : start < stop) (hinner : Laid start inner stop) :
    Laid start (input.splice id (.node name start stop inner)) stop := by
  have hnode : Laid start [.node name start stop inner] stop := ⟨Nat.le_refl _, hspan, Nat.le_refl _, trivial⟩
  unfold Input.splice
  split
  · exact hnode
  · split
    · exact hinner
    · exact hnode

section

variable (hready : input.Ready) (hsolid : input.Solid) (h : Grows input keepTokens item pos trees stop)

include hready hsolid h

theorem Grows.advances : pos ≤ input.size →
      (stop = pos ∧ trees = [] ∧ item.nullable #[] = true) ∨
        (input.skip pos < stop ∧ stop ≤ input.size ∧ Laid (input.skip pos) trees stop) := by
  induction h using Grows.rec (motive_2 := fun _ items pos trees stop _ => pos ≤ input.size →
    (stop = pos ∧ trees = [] ∧ Item.allNullable #[] items = true) ∨
      (input.skip pos < stop ∧ stop ≤ input.size ∧ Laid (input.skip pos) trees stop)) with
  | rule hrule _ ih =>
    intro hpos
    rcases ih hpos with ⟨_, _, hnullable⟩ | ⟨hlt, hle, hlaid⟩
    · rw [Item.nullable, hsolid _ _ hrule] at hnullable
      cases hnullable
    · exact .inr ⟨hlt, hle, laid_splice hlt hlaid⟩
  | terminal hterminal hstop =>
    intro _
    obtain ⟨hlt, hle⟩ := Input.token_ends_bounds hstop
    refine .inr ⟨hlt, hle, ?_⟩
    simp only [Input.tokenTree?, hterminal]
    split
    · trivial
    · exact ⟨Nat.le_refl _, hlt, Nat.le_refl _, trivial⟩
  | seq _ ih => exact ih
  | alt hmem _ ih =>
    exact fun hpos => (ih hpos).imp_left fun ⟨hstop, htrees, hnullable⟩ =>
      ⟨hstop, htrees, any_nullable_of_mem hmem hnullable⟩
  | skipped => exact fun _ => .inl ⟨rfl, rfl, rfl⟩
  | present _ ih => exact fun hpos => (ih hpos).imp_left fun ⟨hstop, htrees, _⟩ => ⟨hstop, htrees, rfl⟩
  | rep hleast _ ih =>
    exact fun hpos => (ih hpos).imp_left fun ⟨hstop, htrees, hnullable⟩ =>
      ⟨hstop, htrees, nullable_rep hleast hnullable⟩
  | nil => exact .inl ⟨rfl, rfl, rfl⟩
  | cons _ _ hitem hitems hpos =>
    rcases hitem hpos with ⟨rfl, rfl, hfirst⟩ | ⟨hlt, hle, hlaid⟩
    · refine (hitems hpos).imp_left ?_
      rintro ⟨rfl, rfl, hrest⟩
      exact ⟨rfl, rfl, by rw [Item.allNullable, hfirst, hrest]; rfl⟩
    · have hskip := hready.skip_bounds _ hle
      rcases hitems hle with ⟨rfl, rfl, _⟩ | ⟨hlt', hle', hlaid'⟩
      · exact .inr ⟨hlt, hle, by rwa [append_nil]⟩
      · exact .inr ⟨by omega, hle', hlaid.append hlaid' (by omega) hskip.1 (by omega)⟩

theorem Grows.laid (hpos : pos ≤ input.size) :
    Laid (input.skip pos) trees stop := by
  rcases h.advances hready hsolid hpos with ⟨_, rfl, _⟩ | ⟨_, _, hlaid⟩
  · trivial
  · exact hlaid

end

theorem Terminal.IsDefined.token_name (h : terminal.IsDefined defs options) :
    ∃ definition ∈ defs.terminals, definition.name = terminal.name ∧
      terminal.tokenName = terminal.name ∧ terminal.anonymous = false ∧
      terminal.filtered = isHiddenName terminal.name := by
  obtain ⟨definition, hmem, h⟩ := h
  obtain ⟨source, _, h⟩ := bind_eq_ok h
  obtain ⟨leading, _, h⟩ := bind_eq_ok h
  obtain ⟨exact, _, h⟩ := bind_eq_ok h
  cases h
  refine ⟨definition, hmem, rfl, ?_, rfl, rfl⟩
  unfold Terminal.tokenName
  split <;> rfl

theorem token_tree_defined (hvisible : ∀ definition ∈ defs.toList, isHiddenName definition.name = false)
    (hterminal : input.grammar.terminals[id]? = some terminal) (hdefined : terminal.IsDefined defs options) :
    input.tokenTree? keepTokens id start stop =
      some (.leaf ⟨terminal.name, input.textBetween start stop, start, stop⟩) := by
  obtain ⟨definition, hmem, hname, htoken, hanonymous, hfiltered⟩ := hdefined.token_name
  have hhidden := hvisible definition (by simp [Definitions.toList, hmem])
  rw [hname] at hhidden
  simp [Input.tokenTree?, hterminal, htoken, hanonymous, hfiltered, hhidden]

theorem token_tree_literal (hterminal : input.grammar.terminals[id]? = some terminal)
    (hliteral : terminal.StandsFor (.literal text)) :
    input.tokenTree? keepTokens id start stop =
      if keepTokens then some (.leaf ⟨text, input.textBetween start stop, start, stop⟩) else none := by
  cases keepTokens <;>
    simp [Input.tokenTree?, hterminal, Terminal.tokenName, hliteral.written, hliteral.anonymous, hliteral.filtered]

theorem token_tree_pattern {regex flags : String} (hterminal : input.grammar.terminals[id]? = some terminal)
    (hpattern : terminal.StandsFor (.pattern regex flags)) :
    input.tokenTree? keepTokens id start stop =
      if keepTokens then
        some (.leaf ⟨"/" ++ regex ++ "/" ++ flags, input.textBetween start stop, start, stop⟩)
      else none := by
  cases keepTokens <;>
    simp [Input.tokenTree?, hterminal, Terminal.tokenName, hpattern.written, hpattern.anonymous,
      hpattern.filtered, hpattern.name]

theorem fits_of_alternatives {labels : List Label} (h : Fits defs keepTokens (.alt body.alternatives) labels) :
    Fits defs keepTokens body labels := by
  cases body with
  | alt bodies => exact h
  | symbol | literal | pattern | seq | optional | rep =>
    cases h with
    | alt hmem hfits =>
      cases mem_singleton.mp hmem
      exact hfits

theorem mem_splice (h : tree ∈ input.splice id (.node name start stop inner)) :
    tree = .node name start stop inner ∨ tree ∈ inner := by
  unfold Input.splice at h
  split at h
  · exact .inl (mem_singleton.mp h)
  · split at h
    · exact .inr h
    · exact .inl (mem_singleton.mp h)

theorem fits_splice {definition : Definition} (hmem : definition ∈ defs.rules)
    (hrule : input.grammar.rules[id]? = some rule) (hname : rule.name = definition.name)
    (hshaping : rule.shaping = definition.shaping) (hvisible : isHiddenName rule.name = false)
    (hfits : Fits defs definition.shaping.keepTokens definition.body (inner.map Tree.label)) :
    Fits defs keepTokens (.symbol definition.name)
      ((input.splice id (.node rule.name start stop inner)).map Tree.label) := by
  have hhidden : rule.isHidden = false := hvisible
  simp only [Input.splice, hrule, hhidden, Bool.false_or, Tree.children, hshaping]
  split
  · next hinline =>
    simp only [Bool.and_eq_true, beq_iff_eq] at hinline
    obtain ⟨child, rfl⟩ := length_eq_one_iff.mp hinline.2
    exact .inlined hmem hinline.1 hfits
  · rw [hname]
    exact .rule hmem

theorem Input.Follows.definition (hfollows : input.Follows defs options)
    (hrule : input.grammar.rules[id]? = some rule) :
    ∃ definition ∈ defs.rules, defs.rules[id]? = some definition ∧ rule.name = definition.name ∧
      rule.shaping = definition.shaping ∧ isHiddenName rule.name = false ∧
      Denotes input.grammar.terminals defs options (.alt definition.body.alternatives)
        (.alt rule.alternatives) := by
  obtain ⟨definition, hdefinition, hisRule⟩ := hfollows.settled.definition_of_rule hrule
  have hmem := mem_of_getElem? hdefinition
  refine ⟨definition, hmem, hdefinition, hisRule.name, hisRule.shaping, ?_, .alt hisRule.alternatives⟩
  rw [hisRule.name]
  exact hfollows.visible definition (by simp [Definitions.toList, hmem])

theorem DenotesAll.exists_mem {terminals : Array Terminal} {bodies : List Body}
    (h : DenotesAll terminals defs options bodies items) (hmem : item ∈ items) :
    ∃ body ∈ bodies, Denotes terminals defs options body item := by
  induction items generalizing bodies with
  | nil => cases hmem
  | cons first rest ih =>
    cases h with
    | cons hbody hbodies =>
      rcases mem_cons.mp hmem with rfl | hmem
      · exact ⟨_, by simp, hbody⟩
      · obtain ⟨body, hin, hdenotes⟩ := ih hbodies hmem
        exact ⟨body, by simp [hin], hdenotes⟩

theorem Denotes.replicate {terminals : Array Terminal} (h : Denotes terminals defs options body item)
    (count : Nat) : DenotesAll terminals defs options (replicate count body) (replicate count item) := by
  induction count with
  | zero => exact .nil
  | succ count ih =>
    rw [replicate_succ, replicate_succ]
    exact .cons h ih

theorem Laid.start_le (h : Laid low trees high) (hmem : tree ∈ trees) : low ≤ tree.start := by
  induction trees generalizing low with
  | nil => cases hmem
  | cons first rest ih =>
    obtain ⟨hstart, hspan, _, hrest⟩ := h
    rcases mem_cons.mp hmem with rfl | hmem
    · exact hstart
    · have := ih hrest hmem
      omega

theorem Denotes.opens {terminals : Array Terminal} (hopens : body.opensWithLiteral = true)
    (h : Denotes terminals defs options (.alt body.alternatives) (.alt items)) :
    ∃ id rest, items = [.seq (.terminal id :: rest)] := by
  unfold opensWithLiteral at hopens
  split at hopens
  · cases h with
    | alt h =>
      cases h with
      | cons hbody hnil =>
        cases hnil
        cases hbody with
        | seq hbodies =>
          cases hbodies with
          | cons hliteral _ =>
            cases hliteral
            exact ⟨_, _, rfl⟩
  · cases hopens

theorem Grows.node_start_gt (hready : input.Ready) (hsolid : input.Solid) {rest : List Item}
    (h : Grows input keepTokens (.alt [.seq (.terminal id :: rest)]) pos inner stop) {child : Tree}
    (hmem : child ∈ inner) (hnode : child.isNode = true) : input.skip pos < child.start := by
  cases h with
  | alt hitem hgrows =>
    cases mem_singleton.mp hitem
    cases hgrows with
    | seq hitems =>
      cases hitems with
      | cons hfirst hothers =>
        cases hfirst with
        | terminal hterminal hstop =>
          have hbounds := Input.token_ends_bounds hstop
          rcases mem_append.mp hmem with hmem | hmem
          · -- The token itself is no node.
            simp only [Input.tokenTree?, hterminal] at hmem
            split at hmem
            · cases hmem
            · cases mem_singleton.mp hmem
              cases hnode
          · have hlaid := (Grows.seq hothers).laid hready hsolid hbounds.2
            have hskip := hready.skip_bounds _ hbounds.2
            have hstart := hlaid.start_le hmem
            omega

theorem Grows.node_sound (hfollows : input.Follows defs options) {definition : Definition}
    (hpos : pos ≤ input.size) (hrule : input.grammar.rules[id]? = some rule) (hmem : definition ∈ defs.rules)
    (hname : rule.name = definition.name)
    (hdenotes : Denotes input.grammar.terminals defs options (.alt definition.body.alternatives) (.alt rule.alternatives))
    (h : Grows input rule.shaping.keepTokens (.alt rule.alternatives) pos inner stop)
    (hfits : Fits defs definition.shaping.keepTokens definition.body (inner.map Tree.label))
    (hinner : ∀ tree ∈ inner, tree.Sound input defs options) :
    (Tree.node rule.name (input.skip pos) stop inner).Sound input defs options := by
  rw [hname]
  refine .node hmem hfits ?_ (h.laid hfollows.ready hfollows.solid hpos) ?_ hinner
  · rcases h.advances hfollows.ready hfollows.solid hpos with ⟨_, _, hnullable⟩ | ⟨hlt, _⟩
    · rw [Item.nullable, hfollows.solid _ _ hrule] at hnullable
      cases hnullable
    · exact hlt
  · intro hopens child hchild hnode
    obtain ⟨first, rest, halternatives⟩ := hdenotes.opens hopens
    rw [halternatives] at h
    exact h.node_start_gt hfollows.ready hfollows.solid hchild hnode

theorem literals_of_definition {definition : Definition} (hmem : definition ∈ defs.rules) :
    ∀ text ∈ (alt definition.body.alternatives).literals, text ∈ defs.literals := by
  intro text htext
  rw [literals, literals_alternatives] at htext
  exact mem_flatMap.mpr ⟨definition, hmem, htext⟩

theorem Grows.sound (hfollows : input.Follows defs options) (h : Grows input keepTokens item pos trees stop) :
    ∀ {body : Body}, pos ≤ input.size →
      Denotes input.grammar.terminals defs options body item → (∀ text ∈ body.literals, text ∈ defs.literals) →
        Fits defs keepTokens body (trees.map Tree.label) ∧ ∀ tree ∈ trees, tree.Sound input defs options := by
  induction h using Grows.rec (motive_2 := fun keepTokens items pos trees _ _ => ∀ {bodies : List Body},
    pos ≤ input.size → DenotesAll input.grammar.terminals defs options bodies items →
      (∀ text ∈ literalsOf bodies, text ∈ defs.literals) →
        FitsAll defs keepTokens bodies (trees.map Tree.label) ∧ ∀ tree ∈ trees, tree.Sound input defs options) with
  | rule hrule hbody ih =>
    rintro _ hpos (⟨hdefined, rfl⟩) _
    obtain ⟨definition, hmem, hsame, hname, hshaping, hvisible, hdenotes⟩ := hfollows.definition hrule
    cases hdefined.symm.trans hsame
    obtain ⟨hfits, hinner⟩ := ih hpos hdenotes (literals_of_definition hmem)
    have hfits := fits_of_alternatives hfits
    rw [hshaping] at hfits
    refine ⟨fits_splice hmem hrule hname hshaping hvisible hfits, fun tree htree => ?_⟩
    rcases mem_splice htree with rfl | htree
    · exact hbody.node_sound hfollows hpos hrule hmem hname hdenotes hfits hinner
    · exact hinner tree htree
  | @terminal keepTokens _ _ _ _ hterminal hstop =>
    intro body _ hdenotes hliterals
    cases hdenotes with
    | terminal hsame hname hdefined =>
      cases hterminal.symm.trans hsame
      cases hname
      obtain ⟨definition, hmem, hdefinition, htoken, _⟩ := hdefined.token_name
      rw [token_tree_defined hfollows.visible hterminal hdefined, ← hdefinition]
      refine ⟨.terminal hmem, forall_mem_singleton.mpr (.leaf ⟨.inl hdefined, ?_, rfl, hstop⟩)⟩
      exact hdefinition.trans htoken.symm
    | literal hsame hliteral =>
      cases hterminal.symm.trans hsame
      rw [token_tree_literal hterminal hliteral]
      cases keepTokens with
      | true =>
        have horigin := hliterals _ (mem_singleton_self _)
        refine ⟨.literal, forall_mem_singleton.mpr (.leaf ⟨.inr (.inl ⟨_, horigin, hliteral⟩), ?_, rfl, hstop⟩)⟩
        simp [Terminal.tokenName, hliteral.written, hliteral.anonymous]
      | false => exact ⟨.droppedLiteral, forall_mem_nil _⟩
    | pattern hsame hpattern =>
      cases hterminal.symm.trans hsame
      rw [token_tree_pattern hterminal hpattern]
      cases keepTokens with
      | true =>
        refine ⟨.pattern, forall_mem_singleton.mpr (.leaf ⟨.inr (.inr ⟨_, _, hpattern⟩), ?_, rfl, hstop⟩)⟩
        simp [Terminal.tokenName, hpattern.written, hpattern.name]
      | false => exact ⟨.droppedPattern, forall_mem_nil _⟩
  | seq _ ih =>
    intro body hpos hdenotes hliterals
    cases hdenotes with
    | seq hdenotes => exact (ih hpos hdenotes hliterals).imp_left .seq
  | alt hmem _ ih =>
    intro body hpos hdenotes hliterals
    cases hdenotes with
    | alt hdenotes =>
      obtain ⟨body, hbody, hdenotes⟩ := hdenotes.exists_mem hmem
      refine (ih hpos hdenotes fun text htext => ?_).imp_left (.alt hbody)
      exact hliterals text (mem_literals_of.mpr ⟨_, hbody, htext⟩)
  | skipped =>
    rintro _ _ (⟨_⟩) _
    exact ⟨.skipped, forall_mem_nil _⟩
  | present _ ih =>
    intro body hpos hdenotes hliterals
    cases hdenotes with
    | optional hdenotes => exact (ih hpos hdenotes hliterals).imp_left .present
  | rep hleast _ ih =>
    intro body hpos hdenotes hliterals
    cases hdenotes with
    | rep hdenotes =>
      rw [literals] at hliterals
      refine (ih hpos (hdenotes.replicate _) fun text htext => ?_).imp_left (.rep hleast)
      exact hliterals text (literals_replicate htext)
  | nil _ hdenotes _ =>
    cases hdenotes
    exact ⟨.nil, forall_mem_nil _⟩
  | cons hitem _ ih ihs hpos hdenotes hliterals =>
    cases hdenotes with
    | cons hbody hbodies =>
      obtain ⟨hfirst, hsound⟩ := ih hpos hbody fun text htext => hliterals text (mem_append_left _ htext)
      have hnext : _ ≤ input.size := (hitem.advances hfollows.ready hfollows.solid hpos).elim
        (fun hnone => hnone.1 ▸ hpos) fun hadvances => hadvances.2.1
      obtain ⟨hrest, hothers⟩ := ihs hnext hbodies fun text htext => hliterals text (mem_append_right _ htext)
      rw [map_append]
      exact ⟨.cons hfirst hrest, forall_mem_append.mpr ⟨hsound, hothers⟩⟩

theorem parse_sound {grammar : Grammar} {source start : String} {input : Input}
    (hinput : input = Input.ofChars grammar source.toList.toArray) (hfollows : input.Follows defs options)
    (h : grammar.parse source start = .ok tree) : tree.Sound input defs options ∧ tree.label = .rule start := by
  obtain ⟨id, stop, rule, inner, hid, hrule, rfl, hgrows⟩ := parse_grows hinput hfollows.ready hfollows.solid h
  subst hinput
  obtain ⟨definition, hmem, _, hrulename, hshaping, _, hdenotes⟩ := hfollows.definition hrule
  obtain ⟨hfits, hinner⟩ := hgrows.sound hfollows (Nat.zero_le _) hdenotes (literals_of_definition hmem)
  have hfits := fits_of_alternatives hfits
  rw [hshaping] at hfits
  refine ⟨hgrows.node_sound hfollows (Nat.zero_le _) hrule hmem hrulename hdenotes hfits hinner, ?_⟩
  obtain ⟨hlt, hname, _⟩ := Array.findIdx?_eq_some_iff_getElem.mp hid
  rw [Array.getElem?_eq_getElem hlt] at hrule
  cases hrule
  simpa [Tree.label] using hname

end

end FlightProcedure
