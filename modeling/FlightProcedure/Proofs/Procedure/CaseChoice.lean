import FlightProcedure.Proofs.Parse.Geometry
import FlightProcedure.Proofs.Procedure.PostOrder
import Mathlib.Data.List.TakeWhile

/-!
# The branch of a case statement that is taken

A case statement means that the statements of its first branch run whose label accepts the subject. It is
declared as conditionals, each of which leads to the next one: `Procedure.scheduled` follows them, and
`case_statement_takes_first_match` says that they lead to the statements of that branch, whatever
expressions come to.
-/

namespace FlightProcedure

open List

/-- Whether the meaning is a label, or the mark that the statements for all other cases follow. -/
def Value.isMark (value : Value) : Bool := value.caseTag?.isSome || value.isOtherwise

def statementsBefore (values : List Value) : List String :=
  (values.takeWhile fun value => !value.isMark).filterMap Value.key?

def emptyBranches (values : List Value) : List CaseBranch := (values.filterMap Value.caseTag?).map fun tag => { tag }

/-- The branches of a case statement: each label with the statements before the next mark. The notation
has no label after the mark for all other cases, and a label there has no statements. -/
def caseBranches : List Value → List CaseBranch
  | [] => []
  | .caseTag tag :: rest => ⟨tag, statementsBefore rest⟩ :: caseBranches rest
  | value :: rest => if value.isOtherwise then emptyBranches rest else caseBranches rest

/-- The statements for all other cases: those after the last mark for them. -/
def otherStatements : List Value → List String
  | [] => []
  | value :: rest =>
    if value.isOtherwise && !rest.any Value.isOtherwise then rest.filterMap Value.key?
    else otherStatements rest

/-- The statements of the first branch with an accepted label, or those for all other cases. -/
def firstAccepted (accepts : CaseTag → Bool) (otherwise : List String) (branches : List CaseBranch) : List String :=
  ((branches.find? fun branch => accepts branch.tag).map (·.statements)).getD otherwise

/-- What expressions come to, and what the operators between two of them say. -/
structure Valuation (α : Type) where
  value : Expr → α
  holds : Expr → Bool
  compare : BinaryOp → α → α → Bool
  holds_binary : ∀ left op right, holds (.binary left op right) = compare op (value left) (value right)
  holds_and : ∀ left right, holds (.binary left .and right) = (holds left && holds right)
  compare_ge : ∀ left right, compare .ge left right = compare .le right left

/-- Whether a label accepts the subject: it compares with the value, equals it, or lies between both ends. -/
def Valuation.accepts {α : Type} (valuation : Valuation α) (subject : α) : TagTest → Bool
  | .compare op value => valuation.compare op subject (valuation.value value)
  | .equals value => valuation.compare .eq subject (valuation.value value)
  | .between low high =>
    valuation.compare .le (valuation.value low) subject &&
      valuation.compare .le subject (valuation.value high)

theorem Valuation.holds_condition {α : Type} (valuation : Valuation α) (subject : Expr) (test : TagTest) :
    valuation.holds (test.condition subject) = valuation.accepts (valuation.value subject) test := by
  cases test with
  | compare op value => exact valuation.holds_binary subject op value
  | equals value => exact valuation.holds_binary subject .eq value
  | between low high =>
    rw [TagTest.condition, valuation.holds_and, valuation.holds_binary, valuation.holds_binary, valuation.compare_ge]
    rfl

/-- A conditional: its condition and the keys of both of its branches. -/
structure Conditional where
  condition : Expr
  thenBranch : List String
  elseBranch : List String

def Declaration.conditional? : Declaration → Option Conditional
  | .statement _ (.conditional condition thenBranch elseBranch) =>
    some { condition, thenBranch, elseBranch }
  | _ => none

def Procedure.conditional? (procedure : Procedure) (key : String) : Option Conditional :=
  (procedure.declarations.find? (·.key == key)).bind Declaration.conditional?

/-- The statements that a chain of conditionals leads to, from the first key on. A condition that does not
hold leads to the next conditional of the chain, and after the last one to the statements that it lists. -/
def Procedure.scheduled (procedure : Procedure) (holds : Expr → Bool) : List String → String → Option (List String)
  | [], key => do
    let found ← procedure.conditional? key
    some (if holds found.condition then found.thenBranch else found.elseBranch)
  | next :: chained, key => do
    let found ← procedure.conditional? key
    if holds found.condition then some found.thenBranch
    else if found.elseBranch = [next] then procedure.scheduled holds chained next
    else none

section

variable {procedure : Procedure} {holds : Expr → Bool}

theorem conditional_of_mem (hnodup : (procedure.declarations.map Declaration.key).Nodup) {key : String}
    {condition : Expr} {thenBranch elseBranch : List String}
    (hmem : .statement key (.conditional condition thenBranch elseBranch) ∈ procedure.declarations) :
    procedure.conditional? key = some ⟨condition, thenBranch, elseBranch⟩ := by
  rw [Procedure.conditional?]
  cases hfind : procedure.declarations.find? (·.key == key) with
  | none => exact absurd (find?_eq_none.mp hfind _ hmem) (by simp [Declaration.key])
  | some found =>
    have hkey : found.key = key := by simpa using find?_some hfind
    have hsame := inj_on_of_nodup_map hnodup (mem_of_find?_eq_some hfind) hmem hkey
    rw [hsame]
    rfl

theorem first_accepted_cons (accepts : CaseTag → Bool) (otherwise : List String) (branch : CaseBranch)
    (rest : List CaseBranch) :
    firstAccepted accepts otherwise (branch :: rest) =
      if accepts branch.tag then branch.statements else firstAccepted accepts otherwise rest := by
  rw [firstAccepted, find?_cons]
  cases accepts branch.tag <;> rfl

theorem scheduled_case_chain (hnodup : (procedure.declarations.map Declaration.key).Nodup)
    {subject : Expr} {otherwise : List String} {offset : Nat} {branch : CaseBranch}
    {rest : List CaseBranch}
    (hdeclared : ∀ declaration ∈ (caseChain subject otherwise offset (branch :: rest)).map (·.declaration),
      declaration ∈ procedure.declarations) :
    procedure.scheduled holds (rest.map fun branch => statementKey branch.tag.start)
        (statementKey offset) =
      some (firstAccepted (fun tag => holds (tag.test.condition subject)) otherwise (branch :: rest)) := by
  induction rest generalizing offset branch with
  | nil =>
    have hfound := conditional_of_mem hnodup (hdeclared _ mem_cons_self)
    rw [map_nil, Procedure.scheduled, hfound, first_accepted_cons]
    rfl
  | cons next rest ih =>
    rw [caseChain, map_cons, forall_mem_cons] at hdeclared
    have hfound := conditional_of_mem hnodup hdeclared.1
    have hrest := ih hdeclared.2
    rw [map_cons, Procedure.scheduled, hfound, first_accepted_cons, Option.bind_eq_bind,
      Option.bind_some, hrest, if_pos rfl]
    split <;> rfl

end

def extendLast (keys : List String) : List CaseBranch → List CaseBranch
  | [] => []
  | branch :: before => { branch with statements := branch.statements ++ keys } :: before

theorem extend_last_nil (branches : List CaseBranch) : extendLast [] branches = branches := by
  cases branches <;> simp [extendLast]

variable {value : Value} {effect : Effect}

section

variable {site : Site} {values : List Value} {parts result : CaseParts}

theorem statements_before_mark (h : value.isMark = true) : statementsBefore (value :: values) = [] := by
  rw [statementsBefore, takeWhile_cons, h]
  rfl

theorem statements_before_cons (h : value.isMark = false) :
    statementsBefore (value :: values) = value.key?.toList ++ statementsBefore values := by
  rw [statementsBefore, takeWhile_cons, h, statementsBefore]
  cases hkey : value.key? <;> simp [hkey]

theorem case_parts_after_mark {keys : List String} (hparts : parts.otherwise = some keys)
    (h : caseParts site parts values = .ok result) :
    result.branches.reverse = parts.branches.reverse ++ emptyBranches values ∧
      result.otherwise.getD [] = if values.any Value.isOtherwise then otherStatements values
        else keys ++ values.filterMap Value.key? := by
  induction values generalizing parts keys with
  | nil =>
    cases h
    simp [hparts, emptyBranches]
  | cons value values ih =>
    cases value <;> simp only [caseParts] at h <;> try contradiction
    case expr expr =>
      split at h
      · exact @ih { parts with subject := some expr } keys hparts h
      · cases h
    case caseTag tag =>
      obtain ⟨hbranches, hother⟩ := @ih { parts with branches := { tag } :: parts.branches } keys hparts h
      rw [hbranches]
      exact ⟨by simp [emptyBranches, Value.caseTag?], hother⟩
    case key key =>
      simp only [CaseParts.addKey, hparts] at h
      obtain ⟨hbranches, hother⟩ := ih rfl h
      refine ⟨hbranches, hother.trans ?_⟩
      rw [append_assoc]
      rfl
    case token token =>
      by_cases hword : token.text = "otherwise"
      · rw [if_pos hword] at h
        obtain ⟨hbranches, hother⟩ := ih rfl h
        refine ⟨hbranches, hother.trans ?_⟩
        cases hany : values.any Value.isOtherwise <;>
          simp [Value.isOtherwise, hword, otherStatements, hany]
      · have hmark : (Value.token token).isOtherwise = false := by simp [Value.isOtherwise, hword]
        rw [if_neg hword] at h
        rw [any_cons, hmark, otherStatements, hmark]
        exact ih hparts h

theorem case_parts_eq (hparts : parts.otherwise = none) (h : caseParts site parts values = .ok result) :
    result.branches.reverse = (extendLast (statementsBefore values) parts.branches).reverse ++ caseBranches values ∧
      result.otherwise.getD [] = otherStatements values := by
  induction values generalizing parts with
  | nil =>
    cases h
    simp [hparts, statementsBefore, caseBranches, otherStatements, extend_last_nil]
  | cons value values ih =>
    cases value <;> simp only [caseParts] at h <;> try contradiction
    case expr expr =>
      split at h
      · have hkeys : statementsBefore (.expr expr :: values) = statementsBefore values := statements_before_cons rfl
        rw [hkeys]
        exact @ih { parts with subject := some expr } hparts h
      · cases h
    case caseTag tag =>
      -- The label starts a new branch, which takes the statements before the next mark.
      obtain ⟨hbranches, hother⟩ := @ih { parts with branches := { tag } :: parts.branches } hparts h
      rw [statements_before_mark rfl, extend_last_nil, hbranches]
      exact ⟨by simp [extendLast, caseBranches], hother⟩
    case key key =>
      have hkeys : statementsBefore (.key key :: values) = key :: statementsBefore values := statements_before_cons rfl
      simp only [CaseParts.addKey, hparts] at h
      rw [hkeys]
      cases hbranches : parts.branches with
      | nil => simp [hbranches] at h
      | cons branch before =>
        simp only [hbranches] at h
        simpa [extendLast, caseBranches, otherStatements, Value.isOtherwise] using ih rfl h
    case token token =>
      by_cases hword : token.text = "otherwise"
      · have hmark : (Value.token token).isOtherwise = true := by simp [Value.isOtherwise, hword]
        rw [if_pos hword] at h
        obtain ⟨hbranches, hother⟩ := case_parts_after_mark rfl h
        rw [statements_before_mark (by rw [Value.isMark, hmark, Bool.or_true]), extend_last_nil]
        refine ⟨by simp [hbranches, caseBranches, hmark], hother.trans ?_⟩
        cases hany : values.any Value.isOtherwise <;> simp [otherStatements, hmark, hany]
      · have hmark : (Value.token token).isOtherwise = false := by simp [Value.isOtherwise, hword]
        have hkeys : statementsBefore (.token token :: values) = statementsBefore values := statements_before_cons hmark
        rw [if_neg hword] at h
        simpa [hkeys, caseBranches, otherStatements, hmark] using ih hparts h

theorem case_statement_eq (h : caseStatement site values = .ok effect) :
    ∃ subject, values.findSome? Value.expr? = some subject ∧ caseBranches values ≠ [] ∧
      effect.value = .key (statementKey site.offset) ∧
      effect.declares = caseChain subject (otherStatements values) site.offset (caseBranches values) := by
  obtain ⟨parts, hparts, h⟩ := bind_eq_ok h
  obtain ⟨hbranches, hother⟩ := case_parts_eq rfl hparts
  have hsubject := (case_parts_keys hparts).1
  split at h
  · cases h
  · next subject hsome =>
    split at h
    · cases h
    · next hnot =>
      cases h
      have hall : parts.branches.reverse = caseBranches values := by
        simpa [extendLast] using hbranches
      refine ⟨subject, by simpa [hsome] using hsubject.symm, ?_, rfl, ?_⟩
      · rw [← hall]
        simpa using hnot
      · rw [hall, hother]

theorem case_branches_skip (h : value.caseTag? = none) : caseBranches (value :: values) =
      if value.isOtherwise then emptyBranches values else caseBranches values := by
  cases value <;> first | rfl | cases h

theorem tags_case_branches : (caseBranches values).map (·.tag) = values.filterMap Value.caseTag? := by
  induction values with
  | nil => rfl
  | cons value values ih =>
    cases hlabel : value.caseTag? with
    | some tag =>
      cases value <;> cases hlabel
      simp [caseBranches, Value.caseTag?, ih]
    | none =>
      rw [case_branches_skip hlabel, filterMap_cons, hlabel, ← ih]
      split
      · rw [emptyBranches, map_map, ih]
        exact map_id _
      · rfl

end

namespace Tree

mutual

def value? (name : String) : Tree → Option Value
  | .leaf token => some (.token token)
  | .node rule start _ children => do
    let kind ← RuleKind.ofName? rule
    let values ← valuesOf? name children
    let effect ← (action name ⟨kind, start⟩ values).toOption
    some effect.value

def valuesOf? (name : String) : List Tree → Option (List Value)
  | [] => some []
  | tree :: trees => do
    let value ← tree.value? name
    let values ← valuesOf? name trees
    some (value :: values)

end

end Tree

/-- `WritesTest name parts test` says that the parts of a label write the test. -/
inductive WritesTest (name : String) : List Tree → TagTest → Prop where
  | equals {value : Tree} {rest : List Tree} {expr : Expr}
      (hvalue : value.value? name = some (.expr expr)) : WritesTest name (value :: rest) (.equals expr)
  | compare {symbol : Token} {first value : Tree} {rest : List Tree} {op : BinaryOp} {expr : Expr}
      (hfirst : first.value? name = some (.token symbol))
      (hop : BinaryOp.relational? symbol.text = some op)
      (hvalue : value.value? name = some (.expr expr)) :
      WritesTest name (first :: value :: rest) (.compare op expr)
  | between {word : Token} {first low joint high : Tree} {rest : List Tree} {lowest highest : Expr}
      (hfirst : first.value? name = some (.token word)) (hword : word.text = "between")
      (hlow : low.value? name = some (.expr lowest)) (hhigh : high.value? name = some (.expr highest)) :
      WritesTest name (first :: low :: joint :: high :: rest) (.between lowest highest)

section

variable {name : String} {values : List Value}

theorem value_node {rule : String} {start stop : Nat} {children : List Tree} {kind : RuleKind} (hkind : RuleKind.ofName? rule = some kind)
    (hvalues : Tree.valuesOf? name children = some values)
    (haction : action name ⟨kind, start⟩ values = .ok effect) :
    (Tree.node rule start stop children).value? name = some effect.value := by
  rw [Tree.value?, hkind, hvalues, Option.bind_eq_bind, Option.bind_some, Option.bind_eq_bind,
    Option.bind_some, haction]
  rfl

theorem values_of_read {trees : List Tree} {table result : DeclarationTable}
    (h : valuesOf name trees table = .ok (values, result)) : Tree.valuesOf? name trees = some values := by
  induction trees using Tree.rec_1 (motive_1 := fun tree => ∀ {table result : DeclarationTable} {value : Value},
      valueOf name tree table = .ok (value, result) → tree.value? name = some value)
    generalizing table result values with
  | leaf _ h =>
    cases h
    rfl
  | node rule start stop children ih h =>
    obtain ⟨kind, values, between, effect, hkind, hvalues, haction, -, rfl⟩ := value_of_node h
    exact value_node hkind (ih hvalues) haction
  | nil =>
    cases h
    rfl
  | cons tree trees ih ihs =>
    obtain ⟨value, between, others, hvalue, hothers, rfl⟩ := values_of_cons h
    simp only [Tree.valuesOf?, ih hvalue, ihs hothers]
    rfl

theorem values_eq_cons {trees : List Tree} (h : Tree.valuesOf? name trees = some (value :: values)) :
    ∃ tree rest, trees = tree :: rest ∧ tree.value? name = some value ∧ Tree.valuesOf? name rest = some values := by
  cases trees with
  | nil => cases h
  | cons tree rest =>
    rw [Tree.valuesOf?] at h
    obtain ⟨first, hfirst, h⟩ := Option.bind_eq_some_iff.mp h
    obtain ⟨others, hothers, h⟩ := Option.bind_eq_some_iff.mp h
    cases h
    exact ⟨tree, rest, rfl, hfirst, hothers⟩

theorem tag_test_written {site : Site} {parts : List Tree} {test : TagTest}
    (hvalues : Tree.valuesOf? name parts = some values) (h : tagTest site values = .ok test) :
    WritesTest name parts test := by
  have hexpr : ∀ {value : Value} {expr : Expr}, value.expr? = some expr → value = .expr expr := by
    intro value expr hvalue
    cases value <;> cases hvalue
    rfl
  cases values with
  | nil => cases h
  | cons value values =>
    obtain ⟨first, others, rfl, hfirst, hothers⟩ := values_eq_cons hvalues
    cases value <;> try contradiction
    case expr expr =>
      cases h
      exact .equals hfirst
    case token token =>
      rw [tagTest, Site.next, ok_bind] at h
      dsimp only at h
      split at h
      · next hword =>
        obtain ⟨⟨lowest, afterLow⟩, hlow, h⟩ := bind_eq_ok h
        obtain ⟨⟨_, afterJoint⟩, hjoint, h⟩ := bind_eq_ok h
        obtain ⟨⟨highest, _⟩, hhigh, h⟩ := bind_eq_ok h
        cases h
        obtain ⟨_, rfl, hlowest⟩ := take_eq_ok hlow
        obtain ⟨_, rfl, -⟩ := take_eq_ok hjoint
        obtain ⟨_, rfl, hhighest⟩ := take_eq_ok hhigh
        obtain ⟨low, _, rfl, hlow, hothers⟩ := values_eq_cons hothers
        obtain ⟨joint, _, rfl, -, hothers⟩ := values_eq_cons hothers
        obtain ⟨high, _, rfl, hhigh, -⟩ := values_eq_cons hothers
        rw [hexpr hlowest] at hlow
        rw [hexpr hhighest] at hhigh
        exact .between hfirst hword hlow hhigh
      · obtain ⟨op, hop, h⟩ := bind_eq_ok h
        obtain ⟨⟨expr, _⟩, htaken, h⟩ := bind_eq_ok h
        cases h
        obtain ⟨_, rfl, hvalue⟩ := take_eq_ok htaken
        obtain ⟨value, _, rfl, hsecond, -⟩ := values_eq_cons hothers
        rw [hexpr hvalue] at hsecond
        unfold operatorOf at hop
        split at hop
        · next found hfound =>
          cases hop
          exact .compare hfirst hfound hsecond
        · cases hop

end

def KeepsConditionals (declarations others : List Declaration) : Prop :=
  ∀ declaration ∈ declarations, declaration.conditional?.isSome = true → declaration ∈ others

theorem conditional_of_outline {declaration other : Declaration}
    (h : other.outline = declaration.outline) (hsome : declaration.conditional?.isSome = true) :
    other = declaration := by
  cases declaration with
  | step definition => cases hsome
  | statement key statement =>
    cases statement <;> try contradiction
    cases other with
    | step definition => cases h
    | statement key statement => cases statement <;> first | exact h | cases h

theorem apply_keeps_conditionals {site : Site} {table result : DeclarationTable} (hnodup : table.keys.Nodup)
    (h : effect.apply site table = .ok result) :
    KeepsConditionals (table.entries ++ effect.declarations) result.entries := by
  intro declaration hmem hsome
  obtain ⟨-, houtline⟩ := Effect.apply_eq_ok hnodup h
  have hmem : declaration.outline ∈ result.entries.map Declaration.outline := by
    rw [houtline]
    exact mem_map_of_mem hmem
  obtain ⟨other, hother, hsame⟩ := mem_map.mp hmem
  rw [← conditional_of_outline hsame hsome]
  exact hother

/-- Each of the nodes has taken effect, and its conditionals are among the declarations. -/
def InEffect (name : String) (declarations : List Declaration) (nodes : List Tree) : Prop :=
  ∀ rule start stop children, .node rule start stop children ∈ nodes →
    ∃ kind values effect, RuleKind.ofName? rule = some kind ∧
      Tree.valuesOf? name children = some values ∧ action name ⟨kind, start⟩ values = .ok effect ∧
      KeepsConditionals effect.declarations declarations

section

variable {name : String}

theorem InEffect.keep {declarations others : List Declaration} {nodes : List Tree}
    (h : InEffect name declarations nodes) (hkeeps : KeepsConditionals declarations others) :
    InEffect name others nodes := by
  intro rule start stop children hmem
  obtain ⟨kind, values, effect, hkind, hvalues, haction, hown⟩ := h rule start stop children hmem
  exact ⟨kind, values, effect, hkind, hvalues, haction,
    fun declaration hmem hsome => hkeeps declaration (hown declaration hmem hsome) hsome⟩

theorem read_in_effect {tree : Tree} {table result : DeclarationTable}
    (h : valueOf name tree table = .ok (value, result)) (hnodup : table.keys.Nodup) :
    KeepsConditionals table.entries result.entries ∧ InEffect name result.entries tree.subtrees := by
  induction tree using Tree.rec (motive_2 := fun trees => ∀ {table result : DeclarationTable} {values : List Value},
      valuesOf name trees table = .ok (values, result) → table.keys.Nodup →
        KeepsConditionals table.entries result.entries ∧ InEffect name result.entries (Tree.subtreesOf trees))
    generalizing table result value with
  | leaf =>
    cases h
    refine ⟨fun _ hmem _ => hmem, fun rule start stop children hmem => ?_⟩
    cases mem_singleton.mp hmem
  | node rule start stop children ih =>
    obtain ⟨kind, values, between, effect, hkind, hvalues, haction, happly, rfl⟩ := value_of_node h
    obtain ⟨hkeeps, hbelow⟩ := ih hvalues hnodup
    have hall := apply_keeps_conditionals (values_keys hvalues hnodup).1 happly
    have hstays : KeepsConditionals between.entries result.entries :=
      fun declaration hmem => hall declaration (mem_append_left _ hmem)
    refine ⟨fun declaration hmem hsome => hstays _ (hkeeps _ hmem hsome) hsome, ?_⟩
    intro other low high parts hmem
    rcases mem_cons.mp hmem with hself | hmem
    · cases hself
      exact ⟨kind, values, effect, hkind, values_of_read hvalues, haction,
        fun declaration hmem => hall declaration (mem_append_right _ hmem)⟩
    · exact hbelow.keep hstays other low high parts hmem
  | nil h =>
    cases h
    exact ⟨fun _ hmem _ => hmem, fun _ _ _ _ hmem => (not_mem_nil hmem).elim⟩
  | cons tree trees ih ihs h hnodup =>
    obtain ⟨value, between, others, hvalue, hothers, rfl⟩ := values_of_cons h
    obtain ⟨hfirst, hbelow⟩ := ih hvalue hnodup
    obtain ⟨hrest, hlater⟩ := ihs hothers (value_keys hvalue hnodup).1
    refine ⟨fun declaration hmem hsome => hrest _ (hfirst _ hmem hsome) hsome, ?_⟩
    intro rule start stop children hmem
    rcases mem_append.mp hmem with hmem | hmem
    · exact hbelow.keep hrest rule start stop children hmem
    · exact hlater rule start stop children hmem

end

theorem case_chain_conditional (subject : Expr) (otherwise : List String) (offset : Nat) (branches : List CaseBranch) :
    ∀ declaration ∈ (caseChain subject otherwise offset branches).map (·.declaration),
      declaration.conditional?.isSome = true := by
  induction branches generalizing offset with
  | nil => simp [caseChain]
  | cons branch rest ih =>
    cases rest with
    | nil => simp [caseChain, Declaration.conditional?]
    | cons next rest =>
      rw [caseChain, map_cons, forall_mem_cons]
      exact ⟨rfl, ih next.tag.start⟩

/-- The conditionals of every case statement lead to the statements of its first branch whose label accepts
the subject, or to those for all other cases, and every label has the test that its parts write. -/
theorem case_statement_takes_first_match {name : String} {tree : Tree} {procedure : Procedure}
    (hread : Procedure.ofTree name tree = .ok procedure) :
    (∀ start stop children, .node "case_statement" start stop children ∈ tree.subtrees →
      ∃ values subject, Tree.valuesOf? name children = some values ∧ values.findSome? Value.expr? = some subject ∧
        (Tree.node "case_statement" start stop children).value? name = some (.key (statementKey start)) ∧
        ∀ (α : Type) (valuation : Valuation α),
          procedure.scheduled valuation.holds (((labelStarts values).drop 1).map statementKey)
              (statementKey start) =
            some (firstAccepted (fun tag => valuation.accepts (valuation.value subject) tag.test)
              (otherStatements values) (caseBranches values))) ∧
    ∀ start stop parts, .node "case_tag" start stop parts ∈ tree.subtrees →
      ∃ test, (Tree.node "case_tag" start stop parts).value? name = some (.caseTag ⟨start, test⟩) ∧
        WritesTest name parts test := by
  obtain ⟨table, htable, hentries⟩ := of_tree_eq_ok hread
  have heffect := (read_in_effect htable nodup_nil).2
  refine ⟨fun start stop children hnode => ?_, fun start stop parts hnode => ?_⟩
  · obtain ⟨kind, values, effect, hkind, hvalues, haction, hdeclared⟩ := heffect _ _ _ _ hnode
    cases hkind
    obtain ⟨subject, hsubject, hbranches, hvalue, hdeclares⟩ := case_statement_eq haction
    refine ⟨values, subject, hvalues, hsubject, ?_, fun α valuation => ?_⟩
    · rw [value_node rfl hvalues haction, hvalue]
    · obtain ⟨branch, rest, hcases⟩ := exists_cons_of_ne_nil hbranches
      have hchained : ((labelStarts values).drop 1).map statementKey =
          rest.map fun branch => statementKey branch.tag.start := by
        rw [labelStarts, ← tags_case_branches, hcases]
        simp
      simp only [← valuation.holds_condition]
      rw [hchained, hcases]
      refine scheduled_case_chain ?_ fun declaration hmem => ?_
      · rw [hentries]
        exact (value_keys htable nodup_nil).1
      · rw [Effect.declarations, hdeclares, hcases] at hdeclared
        rw [hentries]
        exact hdeclared declaration hmem (case_chain_conditional _ _ _ _ declaration hmem)
  · obtain ⟨kind, values, effect, hkind, hvalues, haction, -⟩ := heffect _ _ _ _ hnode
    cases hkind
    obtain ⟨test, htest, h⟩ := bind_eq_ok haction
    cases h
    exact ⟨test, value_node rfl hvalues haction, tag_test_written hvalues htest⟩

/-- What an operator says of two truth values, of which the true one is the larger. -/
def BinaryOp.onBool : BinaryOp → Bool → Bool → Bool
  | .and, left, right => left && right
  | .or, left, right => left || right
  | .eq, left, right => left == right
  | .lt, left, right => !left && right
  | .le, left, right => !left || right
  | .gt, left, right => left && !right
  | .ge, left, right => left || !right
  | _, left, right => left != right

def Expr.truth : Expr → Bool
  | .bool value => value
  | .binary left op right => op.onBool left.truth right.truth
  | _ => false

def truthValues : Valuation Bool where
  value := Expr.truth
  holds := Expr.truth
  compare := BinaryOp.onBool
  holds_binary _ _ _ := rfl
  holds_and _ _ := rfl
  compare_ge left right := by cases left <;> cases right <;> rfl

def symbolAt (text : String) (start : Nat) : Tree :=
  .leaf ⟨"RELATIONAL_OPERATOR", text, start, start + text.length⟩

def rangeTree : Tree :=
  .node "procedure_definition" 0 150 [ .node "procedure_main_body" 10 140 [ .node "case_statement" 15 130 [ truthAt 20,
        .node "case_tag" 30 35 [symbolAt "<" 30, truthAt 31], logAt 36,
        .node "case_tag" 50 54 [symbolAt "between" 50, truthAt 58, symbolAt "and" 63, truthAt 67],
        logAt 76, logAt 86, .leaf ⟨"otherwise", "otherwise", 95, 104⟩,
        .node "case_statement" 105 129 [truthAt 108, .node "case_tag" 112 116 [truthAt 112], logAt 117]]]]

theorem range_tree_takes_second : ∃ procedure, Procedure.ofTree "range" rangeTree = .ok procedure ∧
    procedure.scheduled truthValues.holds [statementKey 50] (statementKey 15) =
      some [statementKey 76, statementKey 86] := by
  have hread : Procedure.ofTree "range" rangeTree = .ok _ := rfl
  obtain ⟨values, subject, hvalues, hsubject, -, hscheduled⟩ :=
    (case_statement_takes_first_match hread).1 15 130 _ (.tail _ (.tail _ (.head _)))
  cases hvalues
  cases hsubject
  exact ⟨_, hread, hscheduled Bool truthValues⟩

end FlightProcedure
