import FlightProcedure.Proofs.Procedure.FirstFailure
import FlightProcedure.Proofs.Script.Harmless

/-!
# Harmless meanings

The names, paths and quantities of a procedure are put together from texts of tokens. The words and marks of
some rules are only interpreted, so that nothing has to be known of their texts. If the tokens that a rule
copies are harmless, so are the parts that it puts together.

Read `RuleKind.Admits`, `Value.FitsIn` and `Yields` first. The lemmas `yields_*` follow the functions that
read the children of a node.
-/

namespace FlightProcedure

open Script List Ends

/-- The rules whose tokens are not copied: they are interpreted, or the rule is not supported. -/
def RuleKind.readsMarks : RuleKind → Bool
  | .description | .predefinedType | .continuationAction | .ifStatement | .caseStatement | .caseTag
  | .relationalExpression | .product | .constant => true
  | kind => kind.isUnsupported

/-- A node of the rule may have the token as its child. -/
structure RuleKind.Admits (kind : RuleKind) (token : Token) : Prop where
  solid : kind.isWrapper = false
  copied : kind.readsMarks = false → IsQuotable token.text
  called : kind = .function → token.terminal ≠ "NONSTANDARD_FUNCTION_NAME" → IsIdentifier token.text

def ContinuationTest.Harmless (test : ContinuationTest) : Prop :=
  ∀ entry ∈ test, ∀ status, HarmlessLines (caseFragments status entry.2)

theorem ContinuationTest.Harmless.lines {test : ContinuationTest} (h : test.Harmless) :
    HarmlessLines (continuationFragments test) := by
  simp only [continuationFragments, harmless_lines_append]
  refine ⟨by simp, fun line hline => ?_⟩
  obtain ⟨entry, hentry, hline⟩ := mem_flatMap.mp hline
  exact h entry hentry entry.1 line hline

theorem ContinuationTest.harmless_nil : ContinuationTest.Harmless [] := by
  simp [ContinuationTest.Harmless]

/-- The meaning of a node is harmless in every script that it enters. -/
def Value.Harmless : Value → Prop
  | .expr found => Script.Harmless (exprFragments found)
  | .name found => IsQuotable found
  | .text _ => True
  | .key found => IsIdentifier found
  | .token _ => False
  | .dataType _ => True
  | .body found => ∀ item ∈ found.statements, IsIdentifier item
  | .bodies found => ∀ part ∈ found, ∀ item ∈ part.statements, IsIdentifier item
  | .continuation found => ContinuationTest.Harmless found
  | .action found => ∀ status, HarmlessLines (caseFragments status found)
  | .timeout found => Script.Harmless (timeoutFragments (some found))
  | .argument found =>
    ∀ path, Script.Harmless path → HarmlessLines (argumentFragments path found)
  | .arguments found =>
    ∀ path, Script.Harmless path → HarmlessLines (argumentsFragments path found)
  | .directive label found => IsQuotable label ∧ Script.Harmless (exprFragments found)
  | .directives found =>
    ∀ entry ∈ found, IsQuotable entry.1 ∧ Script.Harmless (exprFragments entry.2)
  | .activityCall found => HarmlessLines (activityFragments found)
  | .booleanOperator _ => True
  | .caseTag found => ∀ subject, Script.Harmless (exprFragments subject) →
      Script.Harmless (exprFragments (found.test.condition subject))
  | .units found => IsQuotable found
  | .procedure found =>
    IsIdentifier found.name ∧ ∀ part ∈ found.bodies, ∀ item ∈ part.statements, IsIdentifier item

/-- The meaning of a child is harmless, or it is a token that nodes of the rule may have. -/
def Value.FitsIn (kind : RuleKind) : Value → Prop
  | .token found => kind.Admits found
  | other => other.Harmless

def AllFit (kind : RuleKind) (values : List Value) : Prop := ∀ value ∈ values, value.FitsIn kind

section

variable {α β : Type} {kind : RuleKind} {site : Site} {values : List Value} {what : String}
  {pick : Value → Option α} {good : α → Prop} {fine : β → Prop}

def Yields (good : α → Prop) (outcome : Except CompileError α) : Prop := Ends good (fun _ => True) outcome

theorem Yields.bind {first : Except CompileError α} {next : α → Except CompileError β} (h : Yields good first)
    (hnext : ∀ value, good value → Yields fine (next value)) : Yields fine (first >>= next) :=
  Ends.bind h hnext

theorem Yields.skip {first : Except CompileError α} {next : α → Except CompileError β}
    (hnext : ∀ value, Yields fine (next value)) : Yields fine (first >>= next) :=
  (ends_somehow first).bind fun value _ => hnext value

def Provides (kind : RuleKind) (pick : Value → Option α) (good : α → Prop) : Prop :=
  ∀ value found, pick value = some found → value.FitsIn kind → good found

section

variable (hpick : Provides kind pick good) (h : AllFit kind values)

include hpick h

theorem Yields.take {next : α × List Value → Except CompileError β}
    (hnext : ∀ found rest, good found → AllFit kind rest → Yields fine (next (found, rest))) :
    Yields fine (site.take what pick values >>= next) := by
  cases values with
  | nil => trivial
  | cons value rest =>
    obtain ⟨hvalue, hrest⟩ := forall_mem_cons.mp h
    rw [Site.take]
    split
    · next found hfound => exact hnext found rest (hpick value found hfound hvalue) hrest
    · trivial

theorem yields_take_all :
    Yields (fun found => ∀ item ∈ found, good item) (site.takeAll what pick values) := by
  induction values with
  | nil => exact ok (forall_mem_nil _)
  | cons value rest ih =>
    obtain ⟨hvalue, hrest⟩ := forall_mem_cons.mp h
    rw [Site.takeAll]
    split
    · next found hfound =>
      refine (ih hrest).bind fun others hothers => ok ?_
      exact forall_mem_cons.mpr ⟨hpick value found hfound hvalue, hothers⟩
    · trivial

theorem take_if_provides : (∀ found ∈ (takeIf pick values).1, good found) ∧ AllFit kind (takeIf pick values).2 := by
  cases values with
  | nil => exact ⟨by simp [takeIf], h⟩
  | cons value rest =>
    obtain ⟨hvalue, hrest⟩ := forall_mem_cons.mp h
    rw [takeIf]
    split
    · next found hfound => exact ⟨by simpa using hpick value found hfound hvalue, hrest⟩
    · exact ⟨by simp, h⟩

end

theorem good_get {found : Option α} {default : α} (h : ∀ item ∈ found, good item) (hdefault : good default) :
    good (found.getD default) := by
  cases found with
  | none => exact hdefault
  | some item => exact h item rfl

theorem Yields.next (h : AllFit kind values) {next : Value × List Value → Except CompileError β}
    (hnext : ∀ value rest, value.FitsIn kind → AllFit kind rest → Yields fine (next (value, rest))) :
    Yields fine (site.next values >>= next) := by
  cases values with
  | nil => trivial
  | cons value rest =>
    obtain ⟨hvalue, hrest⟩ := forall_mem_cons.mp h
    exact hnext value rest hvalue hrest

theorem provides_own (make : α → Value) (hpick : ∀ value found, pick value = some found → value = make found) :
    Provides kind pick fun found => (make found).FitsIn kind :=
  fun value found hfound h => by simpa [← hpick value found hfound] using h

theorem provides_expr : Provides kind Value.expr? fun expr => Harmless (exprFragments expr) :=
  provides_own Value.expr fun value _ h => by cases value <;> cases h; rfl

theorem provides_token : Provides kind Value.token? kind.Admits :=
  provides_own Value.token fun value _ h => by cases value <;> cases h; rfl

theorem provides_continuation : Provides kind Value.continuation? ContinuationTest.Harmless :=
  provides_own Value.continuation fun value _ h => by cases value <;> cases h; rfl

theorem provides_arguments : Provides kind Value.arguments? fun arguments => (Value.arguments arguments).Harmless :=
  provides_own Value.arguments fun value _ h => by cases value <;> cases h; rfl

theorem provides_directive :
    Provides kind Value.directive? fun entry => IsQuotable entry.1 ∧ Harmless (exprFragments entry.2) :=
  provides_own (fun entry : String × Expr => .directive entry.1 entry.2) fun value _ h => by
    cases value <;> cases h
    rfl

theorem provides_directives : Provides kind Value.directives? fun directives => (Value.directives directives).Harmless :=
  provides_own Value.directives fun value _ h => by cases value <;> cases h; rfl

theorem provides_activity_call : Provides kind Value.activityCall? fun call => HarmlessLines (activityFragments call) :=
  provides_own Value.activityCall fun value _ h => by cases value <;> cases h; rfl

theorem provides_timeout : Provides kind Value.timeout? fun timeout => Harmless (timeoutFragments (some timeout)) :=
  provides_own Value.timeout fun value _ h => by cases value <;> cases h; rfl

theorem provides_key : Provides kind Value.key? fun found => (Value.key found).FitsIn kind :=
  provides_own Value.key fun value _ h => by cases value <;> cases h; rfl

theorem provides_body : Provides kind Value.body? fun found => (Value.body found).FitsIn kind :=
  provides_own Value.body fun value _ h => by cases value <;> cases h; rfl

theorem provides_bodies : Provides kind Value.bodies? fun found => (Value.bodies found).FitsIn kind :=
  provides_own Value.bodies fun value _ h => by cases value <;> cases h; rfl

theorem provides_argument : Provides kind Value.argument? fun found => (Value.argument found).FitsIn kind :=
  provides_own Value.argument fun value _ h => by cases value <;> cases h; rfl

theorem provides_action : Provides kind Value.action? fun found => (Value.action found).FitsIn kind :=
  provides_own Value.action fun value _ h => by cases value <;> cases h; rfl

theorem provides_name (hcopied : kind.readsMarks = false) : Provides kind Value.name? IsQuotable := by
  intro value found hfound h
  cases value <;> cases hfound
  · exact h
  · exact h.copied hcopied

theorem provides_unit_text (hcopied : kind.readsMarks = false) : Provides kind Value.unitText? IsQuotable := by
  intro value found hfound h
  cases value <;> cases hfound
  · exact h.copied hcopied
  · exact h

theorem Yields.expr (h : AllFit kind values) {next : Expr × List Value → Except CompileError β}
    (hnext : ∀ found rest, Harmless (exprFragments found) → AllFit kind rest → Yields fine (next (found, rest))) :
    Yields fine (site.expr values >>= next) :=
  .take provides_expr h hnext

theorem Yields.name (hcopied : kind.readsMarks = false) (h : AllFit kind values)
    {next : String × List Value → Except CompileError β}
    (hnext : ∀ found rest, IsQuotable found → AllFit kind rest → Yields fine (next (found, rest))) :
    Yields fine (site.name values >>= next) :=
  .take (provides_name hcopied) h hnext

end

theorem harmless_statement {offset : Nat} {statement : Statement} (h : HarmlessLines (statementFragments statement)) :
    Harmless (declarationFragments (.statement (statementKey offset) statement)) := by
  simp only [declarationFragments, functionFragments, harmless_append, harmless_flat_map]
  refine ⟨by simp [identifier_statement_key], fun line hline => ?_⟩
  simpa [indentedFragments] using h line hline

section

variable {site : Site} {values : List Value}

theorem yields_unit_text (hcopied : site.kind.readsMarks = false)
    (h : AllFit site.kind values) : Yields IsQuotable (site.unitText values) :=
  (yields_take_all (provides_unit_text hcopied) h).bind fun _ htexts => ok (made_of_join htexts)

theorem yields_continuation_cases (h : AllFit site.kind values) :
    Yields ContinuationTest.Harmless (continuationCases site values) := by
  fun_induction continuationCases site values with
  | case1 => exact ok ContinuationTest.harmless_nil
  | case2 value rest ih =>
    refine .skip fun _ => .skip fun status => ?_
    cases rest with
    | nil => trivial
    | cons next rest =>
      obtain ⟨-, hnext, hrest⟩ := by simpa [AllFit] using h
      refine .take provides_action (forall_mem_singleton.mpr hnext) fun action _ haction _ => ?_
      refine (ih hrest).bind fun others hothers => ok ?_
      exact forall_mem_cons.mpr ⟨haction, hothers⟩

theorem yields_duration_terms (hcopied : site.kind.readsMarks = false) (h : AllFit site.kind values) :
    Yields (fun terms => ∀ term ∈ terms, IsQuotable term) (durationTerms site values) := by
  fun_induction durationTerms site values with
  | case1 => exact ok (forall_mem_nil _)
  | case2 value rest ih =>
    obtain ⟨hvalue, hrest⟩ := forall_mem_cons.mp h
    refine .take provides_token (forall_mem_singleton.mpr hvalue) fun magnitude _ hmagnitude _ => ?_
    cases rest with
    | nil => trivial
    | cons next rest =>
      obtain ⟨hnext, hrest⟩ := forall_mem_cons.mp hrest
      refine .take provides_token (forall_mem_singleton.mpr hnext) fun unit _ hunit _ => ?_
      refine (ih hrest).bind fun others hothers => ok ?_
      simpa using ⟨⟨hmagnitude.copied hcopied, hunit.copied hcopied⟩, hothers⟩

theorem yields_left_associated {operator : List Value → Except CompileError (BinaryOp × List Value)}
    (hoperator : ∀ values : List Value, AllFit site.kind values →
      Yields (fun found => AllFit site.kind found.2) (operator values))
    {fuel : Nat} {left : Expr} (hleft : Harmless (exprFragments left)) (h : AllFit site.kind values) :
    Yields (fun expr => Harmless (exprFragments expr))
      (leftAssociated site operator fuel left values) := by
  induction fuel generalizing left values with
  | zero => exact hleft
  | succ fuel ih =>
    cases values with
    | nil => exact hleft
    | cons value rest =>
      refine (hoperator _ h).bind fun found hrest => ?_
      exact .expr hrest fun right rest hright hrest => ih (by simp [hleft, hright]) hrest

structure IfParts.Harmless (parts : IfParts) : Prop where
  condition : ∀ expr ∈ parts.condition, Script.Harmless (exprFragments expr)
  thenBranch : ∀ key ∈ parts.thenBranch, IsIdentifier key
  elseBranch : ∀ key ∈ parts.elseBranch, IsIdentifier key

theorem yields_if_parts {parts : IfParts} (hparts : parts.Harmless) (h : AllFit site.kind values) :
    Yields IfParts.Harmless (ifParts site parts values) := by
  induction values generalizing parts with
  | nil => exact hparts
  | cons value rest ih =>
    obtain ⟨hvalue, hrest⟩ := forall_mem_cons.mp h
    cases value <;> first | trivial | skip
    case expr expr =>
      rw [ifParts]
      split
      · refine ih ⟨fun found hfound => ?_, hparts.thenBranch, hparts.elseBranch⟩ hrest
        cases hfound
        exact hvalue
      · trivial
    case key key =>
      rw [ifParts]
      split
      · refine ih ⟨hparts.condition, hparts.thenBranch, ?_⟩ hrest
        simpa [or_imp, forall_and] using ⟨hparts.elseBranch, hvalue⟩
      · refine ih ⟨hparts.condition, ?_, hparts.elseBranch⟩ hrest
        simpa [or_imp, forall_and] using ⟨hparts.thenBranch, hvalue⟩
    case token token =>
      rw [ifParts]
      split
      · exact ih ⟨hparts.condition, hparts.thenBranch, hparts.elseBranch⟩ hrest
      · exact ih hparts hrest

structure CaseParts.Harmless (parts : CaseParts) : Prop where
  subject : ∀ expr ∈ parts.subject, Script.Harmless (exprFragments expr)
  tags : ∀ branch ∈ parts.branches, (Value.caseTag branch.tag).Harmless
  statements : ∀ branch ∈ parts.branches, ∀ key ∈ branch.statements, IsIdentifier key
  otherwise : ∀ statements ∈ parts.otherwise, ∀ key ∈ statements, IsIdentifier key

theorem CaseParts.Harmless.add_key {parts result : CaseParts} {key : String} (hparts : parts.Harmless)
    (hkey : IsIdentifier key) (h : parts.addKey key = some result) : result.Harmless := by
  obtain ⟨subject, branches, otherwise⟩ := parts
  obtain ⟨hsubject, htags, hstatements, hotherwise⟩ := hparts
  cases otherwise with
  | some statements =>
    cases h
    refine ⟨hsubject, htags, hstatements, ?_⟩
    simpa [or_imp, forall_and, hkey] using hotherwise statements rfl
  | none =>
    cases branches with
    | nil => cases h
    | cons branch before =>
      cases h
      refine ⟨hsubject, by simpa using htags, ?_, by simp⟩
      simpa [or_imp, forall_and, hkey] using hstatements

theorem yields_case_parts {parts : CaseParts} (hparts : parts.Harmless) (h : AllFit site.kind values) :
    Yields CaseParts.Harmless (caseParts site parts values) := by
  induction values generalizing parts with
  | nil => exact hparts
  | cons value rest ih =>
    obtain ⟨hvalue, hrest⟩ := forall_mem_cons.mp h
    cases value <;> first | trivial | skip
    case expr expr =>
      rw [caseParts]
      split
      · refine ih ⟨fun found hfound => ?_, hparts.tags, hparts.statements, hparts.otherwise⟩ hrest
        cases hfound
        exact hvalue
      · trivial
    case caseTag tag =>
      refine ih ⟨hparts.subject, ?_, ?_, hparts.otherwise⟩ hrest
      · rintro branch (_ | ⟨_, hbranch⟩)
        · exact hvalue
        · exact hparts.tags branch hbranch
      · rintro branch (_ | ⟨_, hbranch⟩)
        · simp
        · exact hparts.statements branch hbranch
    case key key =>
      rw [caseParts]
      split
      · next added hadded => exact ih (hparts.add_key hvalue hadded) hrest
      · trivial
    case token token =>
      rw [caseParts]
      split
      · exact ih ⟨hparts.subject, hparts.tags, hparts.statements, by simp⟩ hrest
      · exact ih hparts hrest

theorem harmless_case_chain {subject : Expr} {otherwise : List String} {branches : List CaseBranch}
    (hsubject : Harmless (exprFragments subject))
    (htags : ∀ branch ∈ branches, (Value.caseTag branch.tag).Harmless)
    (hstatements : ∀ branch ∈ branches, ∀ key ∈ branch.statements, IsIdentifier key)
    (hotherwise : ∀ key ∈ otherwise, IsIdentifier key) (offset : Nat) :
    ∀ new ∈ caseChain subject otherwise offset branches,
      Harmless (declarationFragments new.declaration) := by
  have hconditional : ∀ {start : Nat} {branch : CaseBranch} {others : List String},
      branch ∈ branches → (∀ key ∈ others, IsIdentifier key) →
      Harmless (declarationFragments (.statement (statementKey start)
        (.conditional (branch.tag.test.condition subject) branch.statements others))) := by
    intro start branch others hbranch hothers
    have hcondition := htags branch hbranch subject hsubject
    refine harmless_statement ?_
    simpa [statementFragments] using ⟨hcondition, hstatements branch hbranch, hothers⟩
  fun_induction caseChain subject otherwise offset branches with
  | case1 => simp
  | case2 offset branch =>
    intro new hnew
    cases mem_singleton.mp hnew
    exact hconditional mem_cons_self hotherwise
  | case3 offset branch next rest ih =>
    intro new hnew
    rcases mem_cons.mp hnew with rfl | hnew
    · exact hconditional mem_cons_self (by simp [identifier_statement_key])
    · exact ih (fun other hother => htags other (mem_cons_of_mem _ hother))
        (fun other hother => hstatements other (mem_cons_of_mem _ hother))
        (fun hbranch hothers => hconditional (mem_cons_of_mem _ hbranch) hothers) new hnew

theorem yields_tag_test (h : AllFit site.kind values) :
    Yields (fun test => ∀ subject, Harmless (exprFragments subject) →
      Harmless (exprFragments (test.condition subject))) (tagTest site values) := by
  refine .next h fun first rest hfirst hrest => ?_
  cases first with
  | expr expr =>
    have hexpr : Harmless (exprFragments expr) := hfirst
    exact ok (by simp +contextual [TagTest.condition, hexpr])
  | token token =>
    dsimp only
    split
    · refine .expr hrest fun low rest hlow hrest => ?_
      refine .take provides_token hrest fun _ rest _ hrest => ?_
      refine .expr hrest fun high _ hhigh _ => ?_
      exact ok (by simp +contextual [TagTest.condition, hlow, hhigh])
    · refine .skip fun op => ?_
      refine .expr hrest fun value _ hvalue _ => ?_
      exact ok (by simp +contextual [TagTest.condition, hvalue])
  | _ => trivial

theorem yields_simple_factor (h : AllFit site.kind values) :
    Yields (fun expr => Harmless (exprFragments expr)) (simpleFactor site values) := by
  refine .next h fun first rest hfirst hrest => ?_
  cases first with
  | expr expr => exact hfirst
  | name name =>
    have hname : IsQuotable name := hfirst
    exact ok (by simp [exprFragments, hname])
  | token sign =>
    have hsigned : ∀ op, Yields (fun expr => Harmless (exprFragments expr))
        (site.expr rest >>= fun found => .ok (.unary op found.1)) := fun op =>
      .expr hrest fun _ _ hfound _ => ok (harmless_unary.mpr hfound)
    dsimp only
    split
    · exact hsigned .plus
    · exact hsigned .minus
    · trivial
  | _ => trivial

theorem yields_constant_token (token : Token) :
    Yields (fun expr => Harmless (exprFragments expr)) (constantToken site token) := by
  unfold constantToken
  split
  · split
    · exact ok (by simp [exprFragments])
    · trivial
  · exact ok (by simp [exprFragments])
  · trivial
  · trivial

theorem harmless_class {step : StepClass} {base parameters : Fragment} (hname : IsIdentifier step.name)
    (hbodies : ∀ body ∈ step.bodies, ∀ key ∈ body.statements, IsIdentifier key)
    (hbase : base.Harmless) (hparameters : parameters.Harmless) :
    Harmless (classFragments step base parameters) := by
  have hregistered : ∀ body ∈ step.bodies, Harmless (registrationFragments body) := by
    intro body hbody
    rw [registrationFragments, harmless_flat_map]
    intro key hkey
    simpa [indentedFragments] using hbodies body hbody key hkey
  simpa [classFragments, indentedFragments, harmless_flat_map, hname, hbase, hparameters] using hregistered

theorem yields_continuation_action (token : Token) :
    Yields (fun action => ∀ status, HarmlessLines (caseFragments status action))
      (continuationActionOf token) := by
  unfold continuationActionOf
  split
  all_goals first | trivial | exact ok (by simp [caseFragments, assignedAction])

theorem harmless_arguments {arguments : List Argument} {path : List Fragment}
    (h : ∀ argument ∈ arguments, (Value.argument argument).Harmless) (hpath : Harmless path) :
    HarmlessLines (argumentsFragments path arguments) := by
  induction arguments with
  | nil => simp [argumentsFragments]
  | cons argument rest ih =>
    rw [argumentsFragments, harmless_lines_append]
    exact ⟨h argument mem_cons_self path hpath, ih fun other hother => h other (mem_cons_of_mem _ hother)⟩

theorem yields_operators {operator? : String → Option BinaryOp} {left : Expr}
    (hleft : Harmless (exprFragments left)) (h : AllFit site.kind values) :
    Yields (fun expr => Harmless (exprFragments expr))
      (leftAssociated site (fun values => do
        let (token, rest) ← site.token values
        .ok (← operatorOf site operator? token, rest)) values.length left values) := by
  refine yields_left_associated (fun values h => ?_) hleft h
  refine .take provides_token h fun _ rest _ hrest => ?_
  exact .skip fun _ => ok hrest

theorem harmless_maybe_timeout {timeout : Option Timeout}
    (h : ∀ found ∈ timeout, Harmless (timeoutFragments (some found))) :
    Harmless (timeoutFragments timeout) := by
  cases timeout with
  | none => simp [timeoutFragments]
  | some found => exact h found rfl

end

end FlightProcedure
