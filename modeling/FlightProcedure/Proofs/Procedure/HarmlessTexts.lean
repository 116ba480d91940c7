import FlightProcedure.Proofs.Procedure.Closure
import FlightProcedure.Proofs.Procedure.HarmlessMeanings

/-!
# Where the texts of a procedure come from

If at every node of a tree the tokens whose texts are copied are harmless, the script of its procedure is
harmless: `action_harmless` says this of one node, and `value_harmless` of the tree.

Read `Tree.Orderly` first: `of_tree_harmless` says that the procedure of an orderly tree has a harmless
script.
-/

namespace FlightProcedure

open Script List Ends

structure Effect.Harmless (effect : Effect) : Prop where
  value : effect.value.Harmless
  declares : ∀ new ∈ effect.declares, Script.Harmless (declarationFragments new.declaration)

variable {name key : String} {table result : DeclarationTable} {kind : RuleKind} {offset : Nat} {value : Value}

section

variable {site : Site} {values : List Value}

theorem Effect.Harmless.of_value (h : value.Harmless) : (Effect.ofValue value).Harmless := ⟨h, by simp [Effect.ofValue]⟩

theorem Effect.Harmless.of_statement {statement : Statement} (h : HarmlessLines (statementFragments statement)) :
    (Effect.ofStatement offset statement).Harmless :=
  ⟨identifier_statement_key offset, forall_mem_singleton.mpr (harmless_statement h)⟩

theorem step_statement_harmless (hcopied : site.kind.readsMarks = false)
    (h : AllFit site.kind values) :
    Yields Effect.Harmless (stepStatement site values) := by
  refine .name hcopied h fun _ rest _ hrest => ?_
  refine .take provides_bodies hrest fun bodies rest hbodies hrest => ?_
  -- A child that may be missing is no step of the computation: the goal has to show it first.
  dsimp only
  obtain ⟨hcontinuation, -⟩ := take_if_provides provides_continuation hrest
  refine .skip fun _ => ok ⟨identifier_statement_key _, ?_⟩
  have hclass := identifier_step_class (identifier_statement_key site.offset)
  refine forall_mem_cons.mpr ⟨harmless_statement ?_, forall_mem_singleton.mpr ?_⟩
  · simpa [statementFragments, hclass] using (good_get hcontinuation ContinuationTest.harmless_nil).lines
  · exact harmless_class hclass hbodies trivial trivial

def RuleKind.isExpression : RuleKind → Bool
  | .expression | .relationalExpression | .comparativeExpression | .product | .term | .factor
  | .simpleFactor | .function | .objectPropertyRequest | .argumentReference | .constant
  | .booleanConstant | .integerConstant | .realConstant | .relativeTimeConstant => true
  | _ => false

theorem expression_harmless (hexpression : kind.isExpression = true) (h : AllFit kind values) :
    Yields Effect.Harmless (action name ⟨kind, offset⟩ values) := by
  cases kind <;> first | (cases hexpression; done) | skip
  case expression =>
    refine .expr h fun first rest hfirst hrest => ?_
    refine (yields_left_associated (fun values h => ?_) hfirst hrest).bind fun _ hexpr => ?_
    · cases values with
      | nil => trivial
      | cons value rest => cases value <;> first | trivial | exact (forall_mem_cons.mp h).2
    · exact ok (.of_value hexpr)
  case relationalExpression =>
    refine .expr h fun left rest hleft hrest => ?_
    obtain ⟨-, hrest⟩ := take_if_provides provides_token hrest
    dsimp only
    split
    · exact ok (.of_value hleft)
    · next htaken =>
      rw [htaken] at hrest
      refine .skip fun _ => ?_
      refine .expr hrest fun right _ hright _ => ?_
      refine ok (.of_value ?_)
      exact harmless_binary.mpr ⟨hleft, hright⟩
  case comparativeExpression | product =>
    refine .expr h fun first rest hfirst hrest => ?_
    exact (yields_operators hfirst hrest).bind fun _ hexpr => ok (.of_value hexpr)
  case term =>
    refine .expr h fun base rest hbase hrest => ?_
    dsimp only
    split
    · exact ok (.of_value hbase)
    · refine .expr hrest fun exponent _ hexponent _ => ?_
      refine ok (.of_value ?_)
      exact harmless_binary.mpr ⟨hbase, hexponent⟩
  case factor =>
    obtain ⟨-, hrest⟩ := take_if_provides provides_token h
    simp only [action]
    split
    · next htaken =>
      rw [htaken] at hrest
      refine .expr hrest fun operand _ hoperand _ => ?_
      refine ok (.of_value ?_)
      exact harmless_unary.mpr hoperand
    · next htaken =>
      rw [htaken] at hrest
      refine .expr hrest fun _ _ hexpr _ => ?_
      exact ok (.of_value hexpr)
  case simpleFactor =>
    exact (yields_simple_factor h).bind fun _ hexpr => ok (.of_value hexpr)
  case function =>
    refine .take provides_token h fun called rest hcalled hrest => ?_
    dsimp only
    split
    · trivial
    · next hstandard =>
      refine (yields_take_all provides_expr hrest).bind fun exprs hexprs => ok (.of_value ?_)
      have hname := hcalled.called rfl hstandard
      simpa [Value.Harmless, exprFragments, hname, harmless_exprs] using hexprs
  case objectPropertyRequest =>
    refine .name rfl h fun property rest hproperty hrest => ?_
    refine .name rfl hrest fun object _ hobject _ => ?_
    refine ok (.of_value ?_)
    have hslash : IsQuotable "/" := by decide
    simp [Value.Harmless, exprFragments, hproperty, hobject, hslash]
  case argumentReference =>
    refine .name rfl h fun found _ hfound _ => ?_
    refine ok (.of_value ?_)
    simp [Value.Harmless, exprFragments, hfound]
  case constant =>
    refine .next h fun value _ hvalue _ => ?_
    cases value with
    | expr expr => exact ok (.of_value hvalue)
    | token token =>
      exact (yields_constant_token token).bind fun _ hexpr => ok (.of_value hexpr)
    | _ => trivial
  case booleanConstant =>
    refine .skip fun _ => ?_
    dsimp only
    split
    case h_3 => trivial
    all_goals exact ok (.of_value (by simp [Value.Harmless, exprFragments]))
  case integerConstant =>
    obtain ⟨htoken, hrest⟩ := take_if_provides provides_token h
    simp only [action]
    split
    · trivial
    · next token _ htaken =>
      rw [htaken] at htoken hrest
      have htext : IsQuotable token.text := (htoken token rfl).copied rfl
      split
      · refine .skip fun _ => ok (.of_value ?_)
        simp [Value.Harmless, exprFragments, htext]
      · refine (yields_unit_text rfl hrest).bind fun _ hunits => ok (.of_value ?_)
        simp [Value.Harmless, exprFragments, htext, hunits]
  case realConstant =>
    refine (yields_unit_text rfl h).bind fun _ htext => ok (.of_value ?_)
    simpa [Value.Harmless, exprFragments] using htext
  case relativeTimeConstant =>
    refine (yields_duration_terms rfl h).bind fun _ hterms => ok (.of_value ?_)
    simpa [Value.Harmless, exprFragments] using hterms

theorem part_harmless (hsilent : kind.isSilent = true) (hsolid : kind.isWrapper = false)
    (hexpression : kind.isExpression = false) (h : AllFit kind values) :
    Yields Effect.Harmless (action name ⟨kind, offset⟩ values) := by
  cases kind <;> first | (cases hsilent; done) | (cases hsolid; done) | (cases hexpression; done) | skip
  case description =>
    exact .skip fun _ => ok (.of_value trivial)
  case predefinedType =>
    refine .skip fun _ => ?_
    exact .skip fun _ => ok (.of_value trivial)
  case continuationTest =>
    exact (yields_continuation_cases h).bind fun _ htest => ok (.of_value htest)
  case continuationAction =>
    refine .next h fun value _ hvalue _ => ?_
    cases value with
    | name event =>
      have hevent : IsQuotable event := hvalue
      refine ok (.of_value fun status => ?_)
      simp [caseFragments, assignedAction, hevent]
    | token token =>
      exact (yields_continuation_action token).bind fun _ haction => ok (.of_value haction)
    | _ => trivial
  case raiseEvent | variableReference | eventReference =>
    refine .name rfl h fun _ _ hname _ => ?_
    exact ok (.of_value hname)
  case activityCall =>
    refine .name rfl h fun activity rest hactivity hrest => ?_
    dsimp only
    obtain ⟨harguments, hrest⟩ := take_if_provides provides_arguments hrest
    obtain ⟨hdirectives, -⟩ := take_if_provides provides_directives hrest
    refine .skip fun _ => ok (.of_value ?_)
    have hnone : (Value.arguments []).Harmless := fun _ _ => harmless_arguments (by simp) (by assumption)
    have hfilled := good_get harguments hnone [.fixed "arguments"] (by simp)
    have hdirected := good_get hdirectives (forall_mem_nil _)
    simpa [Value.Harmless, activityFragments, hactivity, hfilled] using hdirected
  case arguments =>
    refine (yields_take_all provides_argument h).bind fun _ harguments => ?_
    exact ok (.of_value fun _ hpath => harmless_arguments harguments hpath)
  case simpleArgument =>
    refine .name rfl h fun label rest hlabel hrest => ?_
    refine .expr hrest fun expr _ hexpr _ => ?_
    refine ok (.of_value fun path hpath => ?_)
    simp [argumentFragments, hpath, hlabel, hexpr]
  case recordArgument =>
    refine .name rfl h fun label rest hlabel hrest => ?_
    refine .take provides_arguments hrest fun fields _ hfields _ => ?_
    refine ok (.of_value fun path hpath => ?_)
    have hinner : Harmless (path ++ [.fixed "[", .quoted label, .fixed "]"]) := by
      simp [hpath, hlabel]
    simpa [argumentFragments, hpath, hlabel] using hfields _ hinner
  case directives =>
    exact (yields_take_all provides_directive h).bind fun _ hdirectives => ok (.of_value hdirectives)
  case directive =>
    refine .name rfl h fun label rest hlabel hrest => ?_
    refine .expr hrest fun expr _ hexpr _ => ?_
    exact ok (.of_value ⟨hlabel, hexpr⟩)
  case caseTag =>
    exact (yields_tag_test h).bind fun _ htest => ok (.of_value htest)
  case timeout =>
    refine .expr h fun duration rest hduration hrest => ?_
    dsimp only
    obtain ⟨hevent, -⟩ := take_if_provides (provides_name rfl) hrest
    refine .skip fun _ => ok (.of_value ?_)
    exact harmless_timeout.mpr ⟨hduration, hevent⟩
  case objectProperty =>
    refine .take provides_token h fun token _ htoken _ => ?_
    refine ok (.of_value ?_)
    exact quotable_keyword_text (htoken.copied rfl)
  case objectReference =>
    refine (yields_take_all (provides_name rfl) h).bind fun path hpath => ok (.of_value ?_)
    exact made_of_intercalate (by decide) (by simpa using hpath)
  case booleanOperator =>
    refine .skip fun _ => ?_
    exact .skip fun _ => ok (.of_value trivial)
  case engineeringUnits | unitReference | unitProduct | unitFactor | unitSimpleFactor | unitExponent =>
    exact (yields_unit_text rfl h).bind fun _ htext => ok (.of_value htext)

theorem simple_harmless (hsimple : kind.isSimple = true) (h : AllFit kind values) :
    Yields Effect.Harmless (action name ⟨kind, offset⟩ values) := by
  cases kind <;> first | (cases hsimple; done) | skip
  case eventDeclaration =>
    refine .name rfl h fun event rest hevent _ => ?_
    dsimp only
    refine .skip fun _ => ok (.of_statement ?_)
    cases (takeIf Value.text? rest).1 <;> simp [statementFragments, hevent]
  case variableDeclaration =>
    refine .name rfl h fun label _ hlabel _ => ?_
    refine .skip fun _ => ?_
    refine .skip fun _ => ok (.of_statement ?_)
    simp [statementFragments, hlabel]
  case initiateAndConfirmActivityStatement =>
    refine .take provides_activity_call h fun call rest hcall hrest => ?_
    dsimp only
    obtain ⟨hreferred, hrest⟩ := take_if_provides (provides_name rfl) hrest
    obtain ⟨hcontinuation, -⟩ := take_if_provides provides_continuation hrest
    have htest := (good_get hcontinuation ContinuationTest.harmless_nil).lines
    refine .skip fun _ => ok (.of_statement ?_)
    simpa [statementFragments, hcall, htest] using hreferred
  case initiateActivityStatement =>
    refine .take provides_activity_call h fun call rest hcall hrest => ?_
    dsimp only
    obtain ⟨hreferred, -⟩ := take_if_provides (provides_name rfl) hrest
    refine .skip fun _ => ok (.of_statement ?_)
    simpa [statementFragments, hcall] using hreferred
  case logStatement =>
    refine (yields_take_all provides_expr h).bind fun _ hexprs => ok (.of_statement ?_)
    simpa [statementFragments] using hexprs
  case assignmentStatement =>
    refine .name rfl h fun label rest hlabel hrest => ?_
    refine .expr hrest fun expr _ hexpr _ => ?_
    refine .skip fun _ => ok (.of_statement ?_)
    simp [statementFragments, hlabel, hexpr]
  case waitForEventStatement =>
    refine .name rfl h fun event rest hevent hrest => ?_
    dsimp only
    obtain ⟨htimeout, -⟩ := take_if_provides provides_timeout hrest
    refine .skip fun _ => ok (.of_statement ?_)
    simp [statementFragments, hevent, harmless_maybe_timeout htimeout]
  case waitUntilStatement =>
    refine .expr h fun condition rest hcondition hrest => ?_
    dsimp only
    obtain ⟨htimeout, -⟩ := take_if_provides provides_timeout hrest
    refine .skip fun _ => ok (.of_statement ?_)
    simp [statementFragments, hcondition, harmless_maybe_timeout htimeout]
  case waitForStatement =>
    refine .expr h fun duration _ hduration _ => ?_
    refine .skip fun _ => ok (.of_statement ?_)
    simp [statementFragments, hduration]

theorem container_harmless (hcontainer : kind.isContainer = true) (h : AllFit kind values) :
    Yields Effect.Harmless (action name ⟨kind, offset⟩ values) := by
  cases kind <;> first | (cases hcontainer; done) | skip
  case procedureDefinition =>
    refine (yields_take_all provides_body h).bind fun _ hbodies => ok (.of_value ?_)
    exact ⟨identifier_procedure_class name, hbodies⟩
  case stepDefinition =>
    exact (yields_take_all provides_body h).bind fun _ hbodies => ok (.of_value hbodies)
  case watchdogBody =>
    refine (yields_take_all provides_key h).bind fun _ hkeys => ok ⟨hkeys, ?_⟩
    exact forall_mem_nil _
  all_goals
    exact (yields_take_all provides_key h).bind fun _ hkeys => ok (.of_value hkeys)

theorem if_statement_harmless (h : AllFit site.kind values) : Yields Effect.Harmless (ifStatement site values) := by
  have hstart : IfParts.Harmless {} := ⟨by simp, by simp, by simp⟩
  refine (yields_if_parts hstart h).bind fun parts hparts => ?_
  split
  · trivial
  · next condition hcondition =>
    refine ok (.of_statement ?_)
    simpa [statementFragments] using
      ⟨hparts.condition condition hcondition, hparts.thenBranch, hparts.elseBranch⟩

theorem case_statement_harmless (h : AllFit site.kind values) : Yields Effect.Harmless (caseStatement site values) := by
  have hstart : CaseParts.Harmless {} := ⟨by simp, by simp, by simp, by simp⟩
  refine (yields_case_parts hstart h).bind fun parts hparts => ?_
  split
  · trivial
  · next subject hsubject =>
    split
    · trivial
    · refine ok ⟨identifier_statement_key _, ?_⟩
      exact harmless_case_chain (hparts.subject subject hsubject) (by simpa using hparts.tags)
        (by simpa using hparts.statements) (good_get hparts.otherwise (by simp)) _

theorem Value.FitsIn.harmless (h : value.FitsIn kind) (hwrapper : kind.isWrapper = true) : value.Harmless := by
  cases value <;> first | exact h | skip
  case token token =>
    have hsolid := h.solid
    rw [hwrapper] at hsolid
    cases hsolid

theorem action_harmless (name : String) (h : AllFit site.kind values) :
    Yields Effect.Harmless (action name site values) := by
  by_cases hsimple : site.kind.isSimple = true
  · exact simple_harmless hsimple h
  by_cases hcontainer : site.kind.isContainer = true
  · exact container_harmless hcontainer h
  by_cases hwrapper : site.kind.isWrapper = true
  · have hpasses : Yields Effect.Harmless (site.next values >>= fun found =>
        site.finish found.2 >>= fun _ => .ok (.ofValue found.1)) := by
      refine .next h fun value _ hvalue _ => ?_
      exact .skip fun _ => ok (.of_value (hvalue.harmless hwrapper))
    obtain ⟨kind, offset⟩ := site
    cases kind <;> first | exact hpasses | cases hwrapper
  by_cases hexpression : site.kind.isExpression = true
  · exact expression_harmless hexpression h
  by_cases hsilent : site.kind.isSilent = true
  · exact part_harmless hsilent (by simpa using hwrapper) (by simpa using hexpression) h
  obtain ⟨kind, offset⟩ := site
  cases kind <;> first | trivial | skip
  case initiateAndConfirmStepStatement => exact step_statement_harmless rfl h
  case ifStatement => exact if_statement_harmless h
  case caseStatement => exact case_statement_harmless h

end

theorem harmless_watchdog {stepClass : String} {watchdog : Bool} {continuation : ContinuationTest}
    (h : Harmless (declarationFragments
      (.statement key (.initiateAndConfirmStep stepClass watchdog continuation)))) :
    Harmless (declarationFragments
      (.statement key (.initiateAndConfirmStep stepClass true continuation))) := by
  have hclass : IsIdentifier stepClass := by
    refine h (.bare stepClass) ?_
    simp [declarationFragments, functionFragments, statementFragments, indentedFragments]
  simp only [declarationFragments, functionFragments, statementFragments, harmless_append, flatMap_append] at h ⊢
  refine ⟨h.1, ⟨⟨h.2.1.1.1, ?_⟩, h.2.1.2⟩, h.2.2⟩
  simp [indentedFragments, hclass.quotable]

def DeclarationTable.Harmless (table : DeclarationTable) : Prop :=
  ∀ declaration ∈ table.entries, Script.Harmless (declarationFragments declaration)

theorem DeclarationTable.Harmless.declare {new : NewDeclaration} (htable : table.Harmless)
    (hnew : Script.Harmless (declarationFragments new.declaration)) (h : table.declare kind new = .ok result) :
    result.Harmless := by
  rw [DeclarationTable.Harmless, (declare_eq_ok h).2, forall_mem_append]
  exact ⟨htable, forall_mem_singleton.mpr hnew⟩

theorem DeclarationTable.Harmless.guard {site : Site} (htable : table.Harmless)
    (h : table.guard site key = .ok result) : result.Harmless := by
  obtain ⟨stepClass, watchdog, continuation, hmem, hentries⟩ := mark_watchdog_eq_some (guard_eq_ok h)
  rw [DeclarationTable.Harmless, hentries]
  refine forall_mem_map.mpr fun entry hentry => ?_
  split
  · exact harmless_watchdog (htable _ hmem)
  · exact htable entry hentry

theorem Effect.Harmless.apply {site : Site} {effect : Effect} (heffect : effect.Harmless)
    (htable : table.Harmless) (h : effect.apply site table = .ok result) : result.Harmless := by
  obtain ⟨declared, hdeclared, hguarded⟩ := bind_eq_ok h
  have hboth : declared.Harmless := foldl_m_invariant DeclarationTable.Harmless
    (fun _ new _ hnew hbefore hnext => hbefore.declare (heffect.declares new hnew) hnext) htable hdeclared
  exact foldl_m_invariant DeclarationTable.Harmless
    (fun _ _ _ _ hbefore hnext => hbefore.guard hnext) hboth hguarded

theorem Value.Harmless.fits (h : value.Harmless) : value.FitsIn kind := by
  cases value <;> first | exact h | exact h.elim

/-- The tokens at the nodes of the tree are admitted there. -/
inductive Tree.Orderly : Tree → Prop where
  | leaf (token : Token) : Tree.Orderly (.leaf token)
  | node {rule : String} {start stop : Nat} {children : List Tree}
      (htokens : ∀ kind, RuleKind.ofName? rule = some kind → ∀ token, .leaf token ∈ children → kind.Admits token)
      (hchildren : ∀ child ∈ children, child.Orderly) : Tree.Orderly (.node rule start stop children)

theorem value_harmless {tree : Tree} (horderly : tree.Orderly)
    (h : valueOf name tree table = .ok (value, result)) (htable : table.Harmless) :
    result.Harmless ∧ ∀ kind : RuleKind, (∀ token, tree = .leaf token → kind.Admits token) → value.FitsIn kind := by
  induction tree using Tree.rec (motive_2 := fun trees => ∀ {kind : RuleKind} {table result : DeclarationTable}
      {values : List Value}, (∀ tree ∈ trees, tree.Orderly) → valuesOf name trees table = .ok (values, result) →
      (∀ token, .leaf token ∈ trees → kind.Admits token) → table.Harmless →
        result.Harmless ∧ ∀ value ∈ values, value.FitsIn kind) generalizing table result value with
  | leaf token =>
    -- What a token may be depends on the rule around it, so the node above has to admit it.
    cases h
    exact ⟨htable, fun _ htoken => htoken token rfl⟩
  | node _ start _ _ ih =>
    cases horderly with
    | node htokens hchildren =>
      obtain ⟨kind, values, between, effect, hkind, hvalues, haction, happly, rfl⟩ := value_of_node h
      obtain ⟨hbetween, hfits⟩ := ih hchildren hvalues (htokens kind hkind) htable
      have heffect := @action_harmless ⟨kind, start⟩ values name hfits
      rw [haction] at heffect
      exact ⟨heffect.apply hbetween happly, fun _ _ => heffect.value.fits⟩
  | nil _ h _ htable =>
    cases h
    exact ⟨htable, forall_mem_nil _⟩
  | cons tree trees ih ihs htrees h htokens htable =>
    obtain ⟨value, between, others, hvalue, hothers, rfl⟩ := values_of_cons h
    obtain ⟨htree, hrest⟩ := forall_mem_cons.mp htrees
    obtain ⟨hbetween, hfits⟩ := ih htree hvalue htable
    obtain ⟨hresult, hall⟩ := ihs hrest hothers (fun token htoken => htokens token (mem_cons_of_mem _ htoken)) hbetween
    refine ⟨hresult, forall_mem_cons.mpr ⟨hfits _ ?_, hall⟩⟩
    rintro token rfl
    exact htokens token mem_cons_self

theorem of_tree_harmless {tree : Tree} {procedure : Procedure} (htree : tree.Orderly)
    (h : Procedure.ofTree name tree = .ok procedure) : Harmless (procedureFragments procedure) := by
  obtain ⟨table, hvalue, hentries⟩ := of_tree_eq_ok h
  have hempty : DeclarationTable.Harmless {} := forall_mem_nil _
  obtain ⟨htable, hfits⟩ := value_harmless htree hvalue hempty
  obtain ⟨hname, hbodies⟩ : (Value.procedure procedure.main).Harmless :=
    hfits .procedureDefinition fun token htoken => by
      subst htoken
      cases hvalue
  have hmain : Harmless (classFragments procedure.main (.fixed "Procedure") (.fixed "**kwargs")) :=
    harmless_class hname hbodies trivial trivial
  simpa [procedureFragments, hentries, hmain, DeclarationTable.Harmless] using htable

end FlightProcedure
