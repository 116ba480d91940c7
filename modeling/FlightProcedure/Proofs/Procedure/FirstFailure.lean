import FlightProcedure.Proofs.Procedure.Effects

/-!
# The first failure of a reading

A tree is read along a path that enters each node before the nodes below it and leaves it after them. The
rule of a node is looked up on entering, and the node takes effect on leaving. `run_tree` says that a tree
is read in this way, so that a reading fails where the path fails for the first time.

Read `Tree.visits`, `ReadState.visit` and `Refusal` first: `refused_construct_aborts` says which constructs
no procedure has, and which of them an error is about.
-/

namespace FlightProcedure

open List Tree

def RuleKind.isUnsupported : RuleKind → Bool
  | .propertyDataType | .propertyValueSet | .predefinedValueSetReference | .enumeratedSetDeclaration
  | .enumeratedSetReference | .setProcedureContextStatement | .setStepContextStatement
  | .systemElementReference | .initiateInParallelStatement | .arrayArgument | .informUserStatement
  | .saveContextStatement | .saveContext | .objectOperationRequestStatement | .objectOperation
  | .whileStatement | .forStatement | .repeatStatement | .reportingDataReference => true
  | _ => false

/-- Whether a node with the name of a rule is refused: the rule is unknown or not supported. -/
def isRefused (rule : String) : Bool :=
  match RuleKind.ofName? rule with
  | none => true
  | some kind => kind.isUnsupported

/-- The terminals whose tokens are refused where a function or a constant is read. -/
def refusedTerminals : List String :=
  ["NONSTANDARD_FUNCTION_NAME", "ENUMERATED_CONSTANT"]

def CompileError.isRefusal : CompileError → Bool
  | .unsupported _ _ | .unknownRule _ _ => true
  | _ => false

/-! ## Errors of a node -/

section

variable {α β : Type}

/-- A computation that does not refuse a construct, although it may fail. -/
def Mild (outcome : Except CompileError α) : Prop := Ends (fun _ => True) (fun cause => cause.isRefusal = false) outcome

@[simp] theorem mild_ok (value : α) : Mild (.ok value : Except CompileError α) := trivial

@[simp] theorem mild_malformed (rule : String) (offset : Nat) (cause : Malformation) :
    Mild (.error (.malformed rule offset cause) : Except CompileError α) := rfl

@[simp] theorem mild_unknown_keyword (rule keyword : String) (offset : Nat) :
    Mild (.error (.unknownKeyword rule keyword offset) : Except CompileError α) := rfl

theorem Mild.bind {first : Except CompileError α} {next : α → Except CompileError β} (h : Mild first)
    (hnext : ∀ value, Mild (next value)) : Mild (first >>= next) :=
  Ends.bind h fun value _ => hnext value

theorem Mild.ends {outcome : Except CompileError α} (h : Mild outcome) {fair : CompileError → Prop}
    (hfair : ∀ cause, cause.isRefusal = false → fair cause) : Ends (fun _ => True) fair outcome := by
  cases outcome with
  | ok value => trivial
  | error cause => exact hfair cause h

variable (site : Site) (values : List Value)

@[simp] theorem mild_site_malformed (cause : Malformation) :
    Mild (.error (site.malformed cause) : Except CompileError α) := rfl

@[simp] theorem mild_next : Mild (site.next values) := by
  cases values <;> simp [Site.next]

@[simp] theorem mild_take (what : String) (pick : Value → Option α) : Mild (site.take what pick values) := by
  cases values with
  | nil => simp [Site.take]
  | cons value rest =>
    rw [Site.take]
    split <;> simp

@[simp] theorem mild_take_all (what : String) (pick : Value → Option α) : Mild (site.takeAll what pick values) := by
  induction values with
  | nil => simp [Site.takeAll]
  | cons value rest ih =>
    rw [Site.takeAll]
    split
    · exact ih.bind fun _ => mild_ok _
    · simp

@[simp] theorem mild_finish : Mild (site.finish values) := by
  cases values <;> simp [Site.finish]

@[simp] theorem mild_expr : Mild (site.expr values) := mild_take site values _ _

@[simp] theorem mild_token : Mild (site.token values) := mild_take site values _ _

@[simp] theorem mild_name : Mild (site.name values) := mild_take site values _ _

@[simp] theorem mild_exprs : Mild (site.exprs values) := mild_take_all site values _ _

@[simp] theorem mild_keys : Mild (site.keys values) := mild_take_all site values _ _

@[simp] theorem mild_bodies : Mild (site.bodies values) := mild_take_all site values _ _

@[simp] theorem mild_unit_text : Mild (site.unitText values) :=
  (mild_take_all site values _ _).bind fun _ => mild_ok _

@[simp] theorem mild_operator_of (operator? : String → Option BinaryOp) (token : Token) :
    Mild (operatorOf site operator? token) := by
  unfold operatorOf
  split <;> simp

@[simp] theorem mild_data_type_of (token : Token) : Mild (dataTypeOf token) := by
  unfold dataTypeOf
  split <;> simp

@[simp] theorem mild_confirmation_status_of (token : Token) : Mild (confirmationStatusOf token) := by
  unfold confirmationStatusOf
  split <;> simp

@[simp] theorem mild_continuation_action_of (token : Token) : Mild (continuationActionOf token) := by
  unfold continuationActionOf
  split <;> simp

@[simp] theorem mild_continuation_cases : Mild (continuationCases site values) := by
  fun_induction continuationCases site values with
  | case1 => simp
  | case2 value rest ih =>
    refine (mild_token site _).bind fun _ => (mild_confirmation_status_of _).bind fun _ => ?_
    cases rest with
    | nil => simp
    | cons next rest => exact (mild_take site _ _ _).bind fun _ => ih.bind fun _ => mild_ok _

@[simp] theorem mild_duration_terms : Mild (durationTerms site values) := by
  fun_induction durationTerms site values with
  | case1 => simp
  | case2 value rest ih =>
    refine (mild_token site _).bind fun _ => ?_
    cases rest with
    | nil => exact mild_site_malformed site _
    | cons next rest => exact (mild_token site _).bind fun _ => ih.bind fun _ => mild_ok _

theorem mild_left_associated {operator : List Value → Except CompileError (BinaryOp × List Value)}
    (hoperator : ∀ values, Mild (operator values)) (fuel : Nat) (left : Expr) :
    Mild (leftAssociated site operator fuel left values) := by
  induction fuel generalizing left values with
  | zero => simp [leftAssociated]
  | succ fuel ih =>
    cases values with
    | nil => simp [leftAssociated]
    | cons value rest =>
      exact (hoperator _).bind fun _ => (mild_expr site _).bind fun _ => ih _ _

@[simp] theorem mild_if_parts (parts : IfParts) : Mild (ifParts site parts values) := by
  fun_induction ifParts site parts values <;> simp_all

@[simp] theorem mild_case_parts (parts : CaseParts) : Mild (caseParts site parts values) := by
  fun_induction caseParts site parts values <;> simp_all

@[simp] theorem mild_tag_test : Mild (tagTest site values) := by
  unfold tagTest
  refine (mild_next site _).bind fun ⟨first, rest⟩ => ?_
  dsimp only
  split
  · exact mild_ok _
  · split
    · exact (mild_expr site _).bind fun _ => (mild_token site _).bind fun _ =>
        (mild_expr site _).bind fun _ => mild_ok _
    · exact (mild_operator_of site _ _).bind fun _ => (mild_expr site _).bind fun _ => mild_ok _
  · exact mild_site_malformed site _

@[simp] theorem mild_simple_factor : Mild (simpleFactor site values) := by
  unfold simpleFactor
  refine (mild_next site _).bind fun ⟨first, rest⟩ => ?_
  dsimp only
  split
  · split <;> exact Mild.bind (by simp) fun _ => (mild_expr site _).bind fun _ => mild_ok _
  · exact mild_ok _
  · exact mild_ok _
  · exact mild_site_malformed site _

end

def RuleKind.refusesTokens : RuleKind → Bool
  | .function | .constant => true
  | _ => false

theorem mild_action (name : String) (site : Site) (values : List Value)
    (hunsupported : site.kind.isUnsupported = false) (htokens : site.kind.refusesTokens = false) :
    Mild (action name site values) := by
  obtain ⟨kind, offset⟩ := site
  cases kind <;> first | (cases hunsupported; done) | (cases htokens; done) | skip
  all_goals
    simp only [action, statementList, ifStatement, caseStatement, stepStatement]
    repeat' first
      | exact mild_ok _
      | exact mild_site_malformed _ _
      | exact mild_unknown_keyword _ _ _
      | refine Mild.bind (by simp) fun _ => ?_
      | split
  case expression =>
    exact Mild.bind (mild_left_associated _ _ (fun _ => mild_take _ _ _ _) _ _) fun _ => mild_ok _
  case comparativeExpression | product =>
    refine Mild.bind (mild_left_associated _ _ (fun _ => ?_) _ _) fun _ => mild_ok _
    exact (mild_token _ _).bind fun _ => (mild_operator_of _ _ _).bind fun _ => mild_ok _

/-- An error of a node that refuses a construct is about the node itself, or about one of the tokens among
the meanings of its children. -/
def Blames (site : Site) (values : List Value) (cause : CompileError) : Prop :=
  cause.isRefusal = true → site.kind.isUnsupported = true ∧ cause = .unsupported site.kind.name site.offset ∨
      site.kind.refusesTokens = true ∧ ∃ token, Value.token token ∈ values ∧
        token.terminal ∈ refusedTerminals ∧ cause = .unsupported token.terminal token.start

variable {values : List Value} {name : String}

theorem blames_mild {site : Site} {cause : CompileError}
    (h : cause.isRefusal = false) : Blames site values cause := by
  intro hrefusal
  rw [h] at hrefusal
  cases hrefusal

theorem ends_next (site : Site) (values : List Value) :
    Ends (fun found => found.1 ∈ values) (Blames site values) (site.next values) := by
  cases values with
  | nil => exact blames_mild rfl
  | cons value rest => exact mem_cons_self

theorem ends_token (site : Site) (values : List Value) :
    Ends (fun found => Value.token found.1 ∈ values) (Blames site values) (site.token values) := by
  cases values with
  | nil => exact blames_mild rfl
  | cons value rest => cases value <;> first | exact blames_mild rfl | exact mem_cons_self

theorem ends_constant_token (offset : Nat) {token : Token} (hmem : Value.token token ∈ values) :
    Ends (fun _ => True) (Blames ⟨.constant, offset⟩ values)
      (constantToken ⟨.constant, offset⟩ token) := by
  unfold constantToken
  split
  · split
    · trivial
    · exact blames_mild rfl
  · trivial
  · next hterminal =>
    exact fun _ => .inr ⟨rfl, token, hmem, by simp [refusedTerminals, hterminal], by rw [hterminal]⟩
  · exact blames_mild rfl

theorem action_blames (name : String) (site : Site) (values : List Value) :
    Ends (fun _ => True) (Blames site values) (action name site values) := by
  obtain ⟨kind, offset⟩ := site
  by_cases hunsupported : kind.isUnsupported = true
  · have hfair : Blames ⟨kind, offset⟩ values (.unsupported kind.name offset) := fun _ => .inl ⟨hunsupported, rfl⟩
    cases kind <;> first | (cases hunsupported; done) | exact hfair
  by_cases htokens : kind.refusesTokens = true
  · cases kind <;> first | (cases htokens; done) | skip
    case function =>
      refine (ends_token _ values).bind fun ⟨token, rest⟩ hmem => ?_
      dsimp only
      split
      · next hterminal =>
        exact fun _ => .inr ⟨rfl, token, hmem, by simp [refusedTerminals, hterminal], rfl⟩
      · exact Mild.ends ((mild_exprs _ _).bind fun _ => mild_ok _) fun _ => blames_mild
    case constant =>
      refine (ends_next _ values).bind fun ⟨value, rest⟩ hmem => ?_
      dsimp only
      split
      · trivial
      · next token =>
        exact (ends_constant_token _ hmem).bind fun _ _ => trivial
      · exact blames_mild rfl
  · exact (mild_action name _ values (by simpa using hunsupported) (by simpa using htokens)).ends
      fun _ => blames_mild

theorem mild_foldl_m {α β : Type} {step : β → α → Except CompileError β}
    (hstep : ∀ state item, Mild (step state item)) (items : List α) (start : β) :
    Mild (items.foldlM step start) := by
  induction items generalizing start with
  | nil => exact mild_ok start
  | cons item items ih =>
    rw [foldlM_cons]
    exact (hstep start item).bind ih

theorem mild_apply (site : Site) (effect : Effect) (table : DeclarationTable) : Mild (effect.apply site table) := by
  refine (mild_foldl_m (fun state new => ?_) _ _).bind (mild_foldl_m (fun state key => ?_) _)
  · unfold DeclarationTable.declare
    split <;> simp
  · unfold DeclarationTable.guard
    split <;> simp

theorem mem_of_token_value {site : Site} {effect : Effect}
    {token : Token} (h : action name site values = .ok effect) (hvalue : effect.value = .token token) :
    Value.token token ∈ values := by
  by_cases hwrapper : site.kind.isWrapper = true
  · rw [wrapper_value hwrapper h, hvalue]
    exact mem_singleton_self _
  · have hyields := action_yields name values (Bool.eq_false_iff.mpr hwrapper)
    rw [h] at hyields
    have hnone := hyields.1
    rw [hvalue] at hnone
    cases hnone

/-! ## The path of a reading -/

/-- A stop on the path along which a tree is read. -/
inductive Visit where
  | leaf (token : Token)
  | enter (rule : String) (start : Nat)
  /-- A node with this many trees directly below is left. -/
  | leave (rule : String) (start arity : Nat)

namespace Tree

mutual

/-- The path along which a tree is read. -/
def visits : Tree → List Visit
  | .leaf token => [.leaf token]
  | .node rule start _ children =>
    .enter rule start :: (visitsOf children ++ [.leave rule start children.length])

def visitsOf : List Tree → List Visit
  | [] => []
  | tree :: trees => tree.visits ++ visitsOf trees

end

mutual

def nodes : Tree → List (String × Nat)
  | .leaf _ => []
  | .node rule start _ children => (rule, start) :: nodesOf children

def nodesOf : List Tree → List (String × Nat)
  | [] => []
  | tree :: trees => tree.nodes ++ nodesOf trees

end

end Tree

/-- What is known between two stops: the meanings of the trees that are read but belong to a node that is
not left yet, the last one first, and the declarations. -/
structure ReadState where
  values : List Value := []
  table : DeclarationTable := {}

/-- What a stop does. The rule of a node is looked up on entering it, so an unknown rule stops the reading
there; leaving a node takes the meanings of its children and gives its own. -/
def ReadState.visit (name : String) (state : ReadState) : Visit → Except CompileError ReadState
  | .leaf token => .ok { state with values := .token token :: state.values }
  | .enter rule start =>
    match RuleKind.ofName? rule with
    | none => .error (.unknownRule rule start)
    | some _ => .ok state
  | .leave rule start arity =>
    match RuleKind.ofName? rule with
    | none => .ok state
    | some kind => do
      let effect ← action name ⟨kind, start⟩ (state.values.take arity).reverse
      let table ← effect.apply ⟨kind, start⟩ state.table
      .ok { values := effect.value :: state.values.drop arity, table }

theorem length_values_of {trees : List Tree} {table result : DeclarationTable} (h : valuesOf name trees table = .ok (values, result)) :
    values.length = trees.length := by
  induction trees generalizing table values with
  | nil =>
    cases h
    rfl
  | cons tree trees ih =>
    unfold valuesOf at h
    obtain ⟨⟨value, between⟩, _, h⟩ := bind_eq_ok h
    obtain ⟨⟨others, last⟩, hothers, h⟩ := bind_eq_ok h
    cases h
    rw [length_cons, length_cons, ih hothers]

theorem run_tree (name : String) (tree : Tree) (state : ReadState) :
    tree.visits.foldlM (ReadState.visit name) state = (valueOf name tree state.table).map fun found =>
        { values := found.1 :: state.values, table := found.2 } := by
  induction tree using Tree.rec (motive_2 := fun trees => ∀ state : ReadState,
      (visitsOf trees).foldlM (ReadState.visit name) state = (valuesOf name trees state.table).map fun found =>
        { values := found.1.reverse ++ state.values, table := found.2 }) generalizing state with
  | leaf | nil => rfl
  | node rule start stop children ih =>
    rw [visits, valueOf, foldlM_cons, ReadState.visit]
    cases hkind : RuleKind.ofName? rule with
    | none => rfl
    | some kind =>
      dsimp only
      rw [ok_bind, foldlM_append, ih state]
      cases hvalues : valuesOf name children state.table with
      | error cause => rfl
      | ok found =>
        obtain ⟨values, between⟩ := found
        have htaken : ((values.reverse ++ state.values).take children.length).reverse = values := by
          rw [← length_values_of hvalues, ← length_reverse, take_left, reverse_reverse]
        have hleft : (values.reverse ++ state.values).drop children.length = state.values := by
          rw [← length_values_of hvalues, ← length_reverse, drop_left]
        simp only [Except.map, ok_bind, foldlM_cons, foldlM_nil, ReadState.visit, hkind, htaken, hleft]
        cases action name ⟨kind, start⟩ values with
        | error cause => rfl
        | ok effect =>
          rw [ok_bind, ok_bind]
          cases effect.apply ⟨kind, start⟩ between <;> rfl
  | cons tree trees ih ihs state =>
    rw [visitsOf, valuesOf, foldlM_append, ih state]
    cases valueOf name tree state.table with
    | error cause => rfl
    | ok found =>
      obtain ⟨value, between⟩ := found
      simp only [Except.map, ok_bind, ihs]
      cases valuesOf name trees between with
      | error cause => rfl
      | ok found => simp [ok_bind]

/-! ## Where a reading fails -/

section

variable {name : String} {state : ReadState} {before : List Visit}

/-- The tokens among the meanings are those of the leaves that were visited. -/
def ReadState.Seen (before : List Visit) (state : ReadState) : Prop :=
  ∀ token, Value.token token ∈ state.values → Visit.leaf token ∈ before

theorem seen_visit {next : ReadState} {visit : Visit} (hseen : state.Seen before)
    (hvisit : visit ∈ before) (h : state.visit name visit = .ok next) : next.Seen before := by
  cases visit with
  | leaf token =>
    cases h
    intro other hother
    rcases mem_cons.mp hother with hsame | hother
    · cases hsame
      exact hvisit
    · exact hseen other hother
  | enter rule start =>
    rw [ReadState.visit] at h
    split at h
    · cases h
    · cases h
      exact hseen
  | leave rule start arity =>
    rw [ReadState.visit] at h
    split at h
    · cases h
      exact hseen
    · obtain ⟨effect, heffect, h⟩ := bind_eq_ok h
      obtain ⟨table, _, h⟩ := bind_eq_ok h
      cases h
      intro token htoken
      rcases mem_cons.mp htoken with hvalue | htoken
      · -- The token comes from below: only a node around it can mean it.
        have hbelow := mem_of_token_value heffect hvalue.symm
        rw [mem_reverse] at hbelow
        exact hseen token (mem_of_mem_take hbelow)
      · exact hseen token (mem_of_mem_drop htoken)

theorem seen_run (h : before.foldlM (ReadState.visit name) {} = .ok state) : state.Seen before :=
  foldl_m_invariant (ReadState.Seen before)
    (fun _ _ _ hvisit hseen hnext => seen_visit hseen hvisit hnext) (fun _ hmem => by cases hmem) h

/-- `Refusal before visit cause` says that the stop, with those before it, is rightly refused with the
error. -/
inductive Refusal (before : List Visit) : Visit → CompileError → Prop where
  /-- The rule of a node that is entered is unknown. -/
  | unknown {rule : String} {start : Nat} (hrule : RuleKind.ofName? rule = none) :
      Refusal before (.enter rule start) (.unknownRule rule start)
  /-- The rule of a node that is left is not supported. -/
  | unsupported {rule : String} {start arity : Nat} {kind : RuleKind}
      (hrule : RuleKind.ofName? rule = some kind) (hkind : kind.isUnsupported = true) :
      Refusal before (.leave rule start arity) (.unsupported rule start)
  /-- A function or a constant that is left has a token of a terminal that is not supported. -/
  | token {rule : String} {start arity : Nat} {kind : RuleKind} {token : Token}
      (hrule : RuleKind.ofName? rule = some kind) (hkind : kind.refusesTokens = true)
      (hbefore : Visit.leaf token ∈ before) (hterminal : token.terminal ∈ refusedTerminals) :
      Refusal before (.leave rule start arity) (.unsupported token.terminal token.start)

theorem name_of_rule {rule : String} {kind : RuleKind} (h : RuleKind.ofName? rule = some kind) : kind.name = rule := by
  simpa using find?_some h

theorem visit_refusal {visit : Visit} {cause : CompileError} (hseen : state.Seen before)
    (h : state.visit name visit = .error cause) (hrefusal : cause.isRefusal = true) :
    Refusal before visit cause := by
  cases visit with
  | leaf token => cases h
  | enter rule start =>
    rw [ReadState.visit] at h
    split at h
    · next hrule =>
      cases h
      exact .unknown hrule
    · cases h
  | leave rule start arity =>
    rw [ReadState.visit] at h
    split at h
    · cases h
    · next kind hrule =>
      have hblames : Ends (fun _ => True)
          (Blames ⟨kind, start⟩ (state.values.take arity).reverse)
          (.error cause : Except CompileError ReadState) := by
        rw [← h]
        refine (action_blames _ _ _).bind fun effect _ => ?_
        exact ((mild_apply _ _ _).bind fun _ => mild_ok _).ends fun _ => blames_mild
      rcases hblames hrefusal with ⟨hkind, rfl⟩ | ⟨hkind, token, hmem, hterminal, rfl⟩
      · rw [name_of_rule hrule]
        exact .unsupported hrule hkind
      · refine .token hrule hkind (hseen token ?_) hterminal
        exact mem_of_mem_take (mem_reverse.mp hmem)

end

theorem mem_nodes (rule : String) (start : Nat) (tree : Tree) :
    ((rule, start) ∈ tree.nodes ↔ .enter rule start ∈ tree.visits) ∧
      ((rule, start) ∈ tree.nodes ↔ ∃ arity, .leave rule start arity ∈ tree.visits) := by
  induction tree using Tree.rec (motive_2 := fun trees =>
    ((rule, start) ∈ nodesOf trees ↔ .enter rule start ∈ visitsOf trees) ∧
      ((rule, start) ∈ nodesOf trees ↔ ∃ arity, .leave rule start arity ∈ visitsOf trees)) with
  | leaf => simp [nodes, visits]
  | nil => simp [nodesOf, visitsOf]
  | node other pos stop children ih =>
    constructor
    · simp [nodes, visits, ih.1]
    · rw [nodes, mem_cons, ih.2]
      simp only [visits, mem_cons, mem_append, reduceCtorEq, false_or,
        Visit.leave.injEq, not_mem_nil, or_false, exists_or, Prod.mk.injEq]
      constructor
      · rintro (⟨rfl, rfl⟩ | hbelow)
        · exact .inr ⟨children.length, rfl, rfl, rfl⟩
        · exact .inl hbelow
      · rintro (hbelow | ⟨arity, rfl, rfl, _⟩)
        · exact .inr hbelow
        · exact .inl ⟨rfl, rfl⟩
  | cons tree trees ih ihs =>
    constructor
    · rw [nodesOf, visitsOf, mem_append, mem_append, ih.1, ihs.1]
    · simp only [nodesOf, visitsOf, mem_append, ih.2, ihs.2, exists_or]

theorem error_of_refused {tree : Tree} {rule : String} {start : Nat}
    (hmem : (rule, start) ∈ tree.nodes) (hrefused : isRefused rule = true) :
    ∃ cause, Procedure.ofTree name tree = .error cause := by
  cases hread : Procedure.ofTree name tree with
  | error cause => exact ⟨cause, rfl⟩
  | ok procedure =>
    exfalso
    obtain ⟨⟨value, table⟩, hvalue, _⟩ := bind_eq_ok hread
    have hrun := run_tree name tree {}
    rw [hvalue, Except.map] at hrun
    -- Both stops at the node went well, which its rule does not allow.
    obtain ⟨_, _, henter⟩ := foldl_m_each hrun ((mem_nodes rule start tree).1.mp hmem)
    obtain ⟨arity, hleaves⟩ := (mem_nodes rule start tree).2.mp hmem
    obtain ⟨_, _, hleave⟩ := foldl_m_each hrun hleaves
    rw [ReadState.visit] at henter
    rw [ReadState.visit] at hleave
    unfold isRefused at hrefused
    cases hrule : RuleKind.ofName? rule with
    | none =>
      rw [hrule] at henter
      cases henter
    | some kind =>
      rw [hrule] at hleave hrefused
      obtain ⟨effect, heffect, _⟩ := bind_eq_ok hleave
      cases kind <;> first | (cases hrefused; done) | cases heffect

theorem run_of_refusal {tree : Tree} {cause : CompileError}
    (h : Procedure.ofTree name tree = .error cause) (hrefusal : cause.isRefusal = true) :
    tree.visits.foldlM (ReadState.visit name) {} = .error cause := by
  have hrun := run_tree name tree {}
  rw [Procedure.ofTree] at h
  cases hvalue : valueOf name tree {} with
  | error other =>
    rw [hvalue] at h hrun
    cases h
    exact hrun
  | ok found =>
    obtain ⟨value, table⟩ := found
    rw [hvalue, ok_bind] at h
    cases value <;> cases h <;> cases hrefusal

/-- No procedure has a node of an unknown or unsupported rule. An error that says that a construct is
refused is that of the first stop that fails on the path of the tree: it is about a node of the tree with
such a rule, or about a token of the tree with such a terminal. -/
theorem refused_construct_aborts (name : String) (tree : Tree) :
    (∀ rule start, (rule, start) ∈ tree.nodes → isRefused rule = true →
      ∃ cause, Procedure.ofTree name tree = .error cause) ∧
    ∀ cause, Procedure.ofTree name tree = .error cause → cause.isRefusal = true →
      ((cause.rule, cause.offset) ∈ tree.nodes ∧ isRefused cause.rule = true ∨
        ∃ token, .leaf token ∈ tree.visits ∧ token.terminal ∈ refusedTerminals ∧
          cause = .unsupported token.terminal token.start) ∧
      ∃ before visit after state, tree.visits = before ++ visit :: after ∧
        before.foldlM (ReadState.visit name) {} = .ok state ∧
        state.visit name visit = .error cause ∧ Refusal before visit cause := by
  refine ⟨fun rule start hmem hrefused => error_of_refused hmem hrefused, fun cause h hrefusal => ?_⟩
  obtain ⟨before, visit, after, state, hvisits, hbefore, hvisit⟩ := foldl_m_eq_error (run_of_refusal h hrefusal)
  have hcause := visit_refusal (seen_run hbefore) hvisit hrefusal
  refine ⟨?_, before, visit, after, state, hvisits, hbefore, hvisit, hcause⟩
  have hstop : visit ∈ tree.visits := by simp [hvisits]
  cases hcause with
  | @unknown rule start hrule =>
    exact .inl ⟨(mem_nodes rule start tree).1.mpr hstop, by simp [isRefused, CompileError.rule, hrule]⟩
  | @unsupported rule start arity kind hrule hkind =>
    exact .inl ⟨(mem_nodes rule start tree).2.mpr ⟨arity, hstop⟩, by simp [isRefused, CompileError.rule, hrule, hkind]⟩
  | @token rule start arity kind token hrule hkind hleaf hterminal =>
    exact .inr ⟨token, by rw [hvisits]; exact mem_append_left _ hleaf, hterminal, rfl⟩

/-- A procedure with a loop, which is not supported, after a constant that is not supported either. -/
def pollTree : Tree :=
  .node "procedure_definition" 0 90 [ .node "procedure_main_body" 10 80 [ .node "log_statement" 15 30 [
        .node "constant" 20 29 [.leaf ⟨"ENUMERATED_CONSTANT", "$ENABLED$", 20, 29⟩]],
      .node "while_statement" 40 70 []]]

/-- The loop alone makes it fail, and the constant is what it fails with. -/
theorem poll_refused : (("while_statement", 40) ∈ pollTree.nodes ∧ isRefused "while_statement" = true ∧
      ∃ cause, Procedure.ofTree "poll" pollTree = .error cause) ∧
    Procedure.ofTree "poll" pollTree = .error (.unsupported "ENUMERATED_CONSTANT" 20) ∧
    ∃ before visit after state, pollTree.visits = before ++ visit :: after ∧
      before.foldlM (ReadState.visit "poll") {} = .ok state ∧
      state.visit "poll" visit = .error (.unsupported "ENUMERATED_CONSTANT" 20) ∧
      Refusal before visit (.unsupported "ENUMERATED_CONSTANT" 20) := by
  have hread : Procedure.ofTree "poll" pollTree = .error (.unsupported "ENUMERATED_CONSTANT" 20) := rfl
  have hnode : ("while_statement", 40) ∈ pollTree.nodes := by decide
  obtain ⟨haborts, hfirst⟩ := refused_construct_aborts "poll" pollTree
  exact ⟨⟨hnode, rfl, haborts _ _ hnode rfl⟩, hread, (hfirst _ hread rfl).2⟩

end FlightProcedure
