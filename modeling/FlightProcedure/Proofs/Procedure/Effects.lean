import FlightProcedure.Proofs.Procedure.References

/-!
# What a node can do

`Does site values effect` lists what the effect of a node can be, with the keys that its children carry
and those that the effect lists and carries on. Read it first: `action_does` says that the list is
complete, and what is known of effects in general is derived from it.
-/

namespace FlightProcedure

open Value List

/-- The rules of the parts of statements. A node of such a rule declares nothing. -/
def RuleKind.isSilent : RuleKind → Bool
  | .description | .predefinedType | .continuationTest | .continuationAction | .raiseEvent
  | .activityCall | .activityReference | .arguments | .argument | .simpleArgument | .recordArgument
  | .directives | .directive | .caseTag | .timeout | .expression | .relationalExpression
  | .comparativeExpression | .product | .term | .factor | .simpleFactor | .function
  | .objectPropertyRequest | .objectProperty | .objectReference | .argumentReference
  | .variableReference | .eventReference | .booleanOperator | .constant | .booleanConstant
  | .integerConstant | .realConstant | .relativeTimeConstant | .engineeringUnits | .unitReference
  | .unitProduct | .unitFactor | .unitSimpleFactor | .unitExponent => true
  | _ => false

def RuleKind.isWrapper : RuleKind → Bool
  | .procedureStatement | .stepStatement | .flowControlStatement | .waitStatement | .argument
  | .activityReference => true
  | _ => false

def RuleKind.isContainer : RuleKind → Bool
  | .procedureDefinition | .stepDefinition | .procedureDeclarationBody | .stepDeclarationBody
  | .preconditionsBody | .procedureMainBody | .stepMainBody | .watchdogBody
  | .confirmationBody => true
  | _ => false

def RuleKind.isSimple : RuleKind → Bool
  | .eventDeclaration | .variableDeclaration | .initiateAndConfirmActivityStatement
  | .initiateActivityStatement | .logStatement | .assignmentStatement | .waitForEventStatement
  | .waitUntilStatement | .waitForStatement => true
  | _ => false

def Value.caseTag? : Value → Option CaseTag
  | .caseTag found => some found
  | _ => none

def Value.isOtherwise : Value → Bool
  | .token found => found.text == "otherwise"
  | _ => false

/-- `Does site values effect` says that a node whose children have the given meanings can have the
effect. -/
inductive Does (site : Site) (values : List Value) : Effect → Prop where
  /-- The node is a part of a statement. -/
  | means {value : Value} (hsilent : site.kind.isSilent = true) (hkeys : value.keys = []) :
      Does site values (.ofValue value)
  /-- The node means what its only child means. -/
  | passes {value : Value} (hwrapper : site.kind.isWrapper = true) (hvalues : values = [value]) :
      Does site values (.ofValue value)
  /-- The node carries on all keys of its children, which may become watchdogs. -/
  | collects {value : Value} {watchdogs : List String} (hcontainer : site.kind.isContainer = true)
      (hkeys : value.keys = keysOf values)
      (hwatchdogs : watchdogs = [] ∨ site.kind = .watchdogBody ∧ watchdogs = keysOf values) :
      Does site values { value, watchdogs }
  /-- The node is a statement without statements inside. -/
  | states {statement : Statement} (hsimple : site.kind.isSimple = true)
      (hlisted : ∀ key, (Declaration.statement key statement).references = [])
      (hkeys : keysOf values = []) : Does site values (.ofStatement site.offset statement)
  /-- The node is a statement that lists the keys of its children. -/
  | decides {condition : Expr} {thenBranch elseBranch : List String}
      (hkind : site.kind = .ifStatement)
      (hkeys : thenBranch ++ elseBranch = keysOf values) :
      Does site values (.ofStatement site.offset (.conditional condition thenBranch elseBranch))
  /-- The node is a statement that runs a step, whose class lists the keys of its children. -/
  | runs {bodies : List StatementList} {continuation : ContinuationTest}
      (hkind : site.kind = .initiateAndConfirmStepStatement)
      (hkeys : bodies.flatMap (·.statements) = keysOf values) :
      Does site values {
        value := .key (statementKey site.offset)
        declares := [
          ⟨site.offset, .statement (statementKey site.offset)
            (.initiateAndConfirmStep (stepClassName (statementKey site.offset)) false continuation)⟩,
          ⟨site.offset, .step { name := stepClassName (statementKey site.offset), bodies }⟩] }
  /-- The node is a case statement. Only a second mark for all other cases makes it lose keys. -/
  | chooses {subject : Expr} {branches : List CaseBranch} {otherwise : List String}
      (hkind : site.kind = .caseStatement) (hbranches : branches ≠ [])
      (htags : branches.map (·.tag) = values.filterMap caseTag?)
      (hkeys : (branches.flatMap (·.statements) ++ otherwise).Sublist (keysOf values))
      (hall : values.countP isOtherwise ≤ 1 → branches.flatMap (·.statements) ++ otherwise = keysOf values) :
      Does site values {
        value := .key (statementKey site.offset)
        declares := caseChain subject otherwise site.offset branches }

/-- A computation that yields only effects without keys and declarations. -/
def YieldsMeaning (result : Except CompileError Effect) : Prop :=
  ∀ effect, result = .ok effect → ∃ value : Value, effect = .ofValue value ∧ value.keys = []

theorem YieldsMeaning.ok {value : Value} (h : value.keys = []) : YieldsMeaning (.ok (.ofValue value)) := by
  intro effect heffect
  cases heffect
  exact ⟨value, rfl, h⟩

theorem YieldsMeaning.error (cause : CompileError) : YieldsMeaning (.error cause) := by
  intro effect heffect
  cases heffect

theorem YieldsMeaning.bind {α : Type} {first : Except CompileError α}
    {next : α → Except CompileError Effect} (h : ∀ value, YieldsMeaning (next value)) :
    YieldsMeaning (first >>= next) := by
  intro effect heffect
  obtain ⟨value, _, hnext⟩ := bind_eq_ok heffect
  exact h value effect hnext

section

variable {name : String} {site : Site} {values : List Value} {effect : Effect}

theorem only_child_value (h : (do
      let (value, rest) ← site.next values
      site.finish rest
      .ok (.ofValue value)) = Except.ok effect) : ∃ value, values = [value] ∧ effect = .ofValue value := by
  obtain ⟨⟨value, rest⟩, hnext, h⟩ := bind_eq_ok h
  obtain ⟨⟨⟩, hfinish, h⟩ := bind_eq_ok h
  cases h
  cases values with
  | nil => cases hnext
  | cons first others =>
    cases hnext
    exact ⟨_, by rw [finish_eq_ok hfinish], rfl⟩

theorem only_child_passes (hwrapper : site.kind.isWrapper = true) (h : (do
      let (value, rest) ← site.next values
      site.finish rest
      .ok (.ofValue value)) = Except.ok effect) : Does site values effect := by
  obtain ⟨value, hvalues, rfl⟩ := only_child_value h
  exact .passes hwrapper hvalues

theorem action_silent (hsilent : site.kind.isSilent = true)
    (h : action name site values = .ok effect) : Does site values effect := by
  obtain ⟨kind, offset⟩ := site
  by_cases hpasses : kind = .argument ∨ kind = .activityReference
  · rcases hpasses with rfl | rfl <;> exact only_child_passes rfl h
  · have hyields : YieldsMeaning (action name ⟨kind, offset⟩ values) := by
      rw [not_or] at hpasses
      cases kind <;> first | (cases hsilent; done) | (cases hpasses.1 rfl; done) |
        (cases hpasses.2 rfl; done) | skip
      all_goals
        simp only [action]
        repeat' first
          | exact YieldsMeaning.ok rfl
          | exact YieldsMeaning.error _
          | refine YieldsMeaning.bind fun _ => ?_
          | split
    obtain ⟨value, rfl, hkeys⟩ := hyields effect h
    exact .means hsilent hkeys

theorem if_parts_keys {parts result : IfParts} (helse : parts.inElse = false → parts.elseBranch = [])
    (h : ifParts site parts values = .ok result) :
    result.thenBranch ++ result.elseBranch = parts.thenBranch ++ parts.elseBranch ++ keysOf values := by
  induction values generalizing parts with
  | nil =>
    cases h
    simp
  | cons value values ih =>
    cases value <;> simp only [ifParts] at h <;> try (cases h; done)
    case expr expr =>
      split at h
      · refine (ih ?_ h).trans (by simp [Value.keys])
        exact helse
      · cases h
    case key key =>
      split at h
      · next hin =>
        rw [ih (by simp [hin]) h]
        simp [Value.keys]
      · next hin =>
        have hnone := helse (by simpa using hin)
        refine (ih ?_ h).trans (by simp [Value.keys, hnone])
        exact fun _ => hnone
    case token token =>
      split at h
      · rw [ih (by simp) h]
        simp [Value.keys]
      · rw [ih helse h]
        simp [Value.keys]

def CaseParts.listed (parts : CaseParts) : List String :=
  parts.branches.reverse.flatMap (·.statements) ++ parts.otherwise.getD []

theorem CaseParts.listed_add_key {parts result : CaseParts} {key : String} (h : parts.addKey key = some result) :
    result.subject = parts.subject ∧ result.listed = parts.listed ++ [key] ∧
      result.branches.map (·.tag) = parts.branches.map (·.tag) ∧
      result.otherwise.toList.length = parts.otherwise.toList.length := by
  obtain ⟨subject, branches, otherwise⟩ := parts
  cases otherwise with
  | some statements =>
    cases h
    simp [listed]
  | none =>
    cases branches with
    | nil => cases h
    | cons branch before =>
      cases h
      simp [listed]

theorem case_parts_keys {parts result : CaseParts} (h : caseParts site parts values = .ok result) :
    result.subject = parts.subject.or (values.findSome? expr?) ∧
      result.branches.reverse.map (·.tag) = parts.branches.reverse.map (·.tag) ++ values.filterMap caseTag? ∧
      result.listed.Sublist (parts.listed ++ keysOf values) ∧
      (values.countP isOtherwise + parts.otherwise.toList.length ≤ 1 →
        result.listed = parts.listed ++ keysOf values) := by
  induction values generalizing parts with
  | nil =>
    cases h
    simp
  | cons value values ih =>
    cases value <;> simp only [caseParts] at h <;> try (cases h; done)
    case expr expr =>
      split at h
      · next hnone =>
        simpa [CaseParts.listed, Value.keys, caseTag?, isOtherwise, expr?, filterMap_cons, findSome?_cons,
          Option.isNone_iff_eq_none.mp hnone] using ih h
      · cases h
    case caseTag tag =>
      simpa [CaseParts.listed, Value.keys, caseTag?, isOtherwise, expr?, filterMap_cons, findSome?_cons] using ih h
    case key key =>
      split at h
      · next added hadded =>
        obtain ⟨hsubject, hlisted, htags, hsome⟩ := CaseParts.listed_add_key hadded
        have hparts := ih h
        simpa [hsubject, hlisted, htags, hsome, Value.keys, caseTag?, isOtherwise, expr?, filterMap_cons,
          findSome?_cons] using hparts
      · cases h
    case token token =>
      split at h
      · next hotherwise =>
        obtain ⟨hsubject, htags, hsublist, hall⟩ := ih h
        have hlost : (CaseParts.listed { parts with otherwise := some [] }).Sublist parts.listed := by
          simp [CaseParts.listed]
        refine ⟨hsubject, htags, hsublist.trans (hlost.append_right _), fun hcount => ?_⟩
        -- There is no mark before this one, so nothing is lost.
        have hnone : parts.otherwise = none := by
          cases hparts : parts.otherwise with
          | none => rfl
          | some statements =>
            simp [hparts, isOtherwise, hotherwise] at hcount
        rw [hall (by simp_all [isOtherwise])]
        simp [CaseParts.listed, hnone, Value.keys]
      · next hotherwise =>
        simpa [Value.keys, caseTag?, isOtherwise, expr?, filterMap_cons, findSome?_cons, hotherwise] using ih h

theorem statement_list_does {kind : BodyKind} (hcontainer : site.kind.isContainer = true)
    (h : statementList site kind values = .ok effect) :
    Does site values effect := by
  obtain ⟨keys, hkeys, h⟩ := bind_eq_ok h
  cases h
  refine .collects hcontainer ?_ (.inl rfl)
  rw [keys_of_take_all carries_key hkeys]
  simp [Value.keys]

theorem if_statement_does (hkind : site.kind = .ifStatement)
    (h : ifStatement site values = .ok effect) : Does site values effect := by
  obtain ⟨parts, hparts, h⟩ := bind_eq_ok h
  split at h
  · cases h
  · cases h
    exact .decides hkind (by simpa using if_parts_keys (by simp) hparts)

theorem case_statement_does (hkind : site.kind = .caseStatement)
    (h : caseStatement site values = .ok effect) : Does site values effect := by
  obtain ⟨parts, hparts, h⟩ := bind_eq_ok h
  obtain ⟨-, htags, hsublist, hall⟩ := case_parts_keys hparts
  split at h
  · cases h
  · split at h
    · cases h
    · next hbranches =>
      cases h
      refine .chooses hkind ?_ htags hsublist fun hcount => ?_
      · simpa using hbranches
      · exact hall hcount

theorem step_statement_does (hkind : site.kind = .initiateAndConfirmStepStatement)
    (h : stepStatement site values = .ok effect) : Does site values effect := by
  obtain ⟨⟨_, afterName⟩, hname, h⟩ := bind_eq_ok h
  obtain ⟨⟨bodies, afterBodies⟩, hbodies, h⟩ := bind_eq_ok h
  obtain ⟨⟨⟩, hfinish, h⟩ := bind_eq_ok h
  cases h
  refine .runs hkind ?_
  rw [keys_of_take keyless_picks.2.1 hname, keys_of_take carries_bodies hbodies, keys_of_tail (by simp) hfinish]
  simp

/-- Every effect of a node is on the list. -/
theorem action_does (h : action name site values = .ok effect) : Does site values effect := by
  by_cases hsilent : site.kind.isSilent = true
  · exact action_silent hsilent h
  obtain ⟨kind, offset⟩ := site
  cases kind <;> first | (cases hsilent rfl; done) | (cases h; done) | skip
  case procedureDefinition | stepDefinition =>
    obtain ⟨bodies, hbodies, h⟩ := bind_eq_ok h
    cases h
    exact .collects rfl (keys_of_take_all carries_body hbodies).symm (.inl rfl)
  case procedureDeclarationBody | stepDeclarationBody | preconditionsBody | procedureMainBody
      | stepMainBody | confirmationBody =>
      exact statement_list_does rfl h
  case watchdogBody =>
    obtain ⟨keys, hkeys, h⟩ := bind_eq_ok h
    cases h
    have hall : keys = keysOf values := by
      rw [keys_of_take_all carries_key hkeys]
      simp
    exact .collects rfl hall (.inr ⟨rfl, hall⟩)
  case procedureStatement | stepStatement | flowControlStatement | waitStatement =>
    exact only_child_passes rfl h
  case initiateAndConfirmStepStatement => exact step_statement_does rfl h
  case initiateAndConfirmActivityStatement =>
    obtain ⟨⟨_, rest⟩, hcall, h⟩ := bind_eq_ok h
    obtain ⟨⟨⟩, hfinish, h⟩ := bind_eq_ok h
    cases h
    refine .states rfl (fun _ => rfl) (keyless_take (by simp) hcall ?_)
    exact (keys_of_take_if (by simp) rest).symm.trans (keys_of_tail (by simp) hfinish)
  case eventDeclaration | initiateActivityStatement | waitForEventStatement | waitUntilStatement =>
    obtain ⟨⟨_, rest⟩, htaken, h⟩ := bind_eq_ok h
    obtain ⟨⟨⟩, hfinish, h⟩ := bind_eq_ok h
    cases h
    exact .states rfl (fun _ => rfl) (keyless_take (by simp) htaken (keys_of_tail (by simp) hfinish))
  case variableDeclaration | assignmentStatement =>
    obtain ⟨⟨_, _⟩, hvariable, h⟩ := bind_eq_ok h
    obtain ⟨⟨_, _⟩, hvalue, h⟩ := bind_eq_ok h
    obtain ⟨⟨⟩, hfinish, h⟩ := bind_eq_ok h
    cases h
    have hrest := keyless_take (by simp) hvalue (keyless_finish hfinish)
    exact .states rfl (fun _ => rfl) (keyless_take (by simp) hvariable hrest)
  case logStatement =>
    obtain ⟨exprs, hexprs, h⟩ := bind_eq_ok h
    cases h
    refine .states rfl (fun _ => rfl) ?_
    rw [keys_of_take_all keyless_picks.1 hexprs]
    simp
  case ifStatement => exact if_statement_does rfl h
  case caseStatement => exact case_statement_does rfl h
  case waitForStatement =>
    obtain ⟨⟨_, rest⟩, hduration, h⟩ := bind_eq_ok h
    obtain ⟨⟨⟩, hfinish, h⟩ := bind_eq_ok h
    cases h
    exact .states rfl (fun _ => rfl) (keyless_take (by simp) hduration (keyless_finish hfinish))

theorem wrapper_value (hwrapper : site.kind.isWrapper = true)
    (h : action name site values = .ok effect) : values = [effect.value] := by
  obtain ⟨kind, offset⟩ := site
  cases kind <;> first | (cases hwrapper; done) | skip
  all_goals
    obtain ⟨value, hvalues, rfl⟩ := only_child_value h
    exact hvalues

theorem action_yields (name : String) (values : List Value) (hwrapper : site.kind.isWrapper = false) :
    Ends (fun effect => effect.value.token? = none ∧
      (site.kind ≠ .caseTag → effect.value.caseTag? = none)) (fun _ => True)
      (action name site values) := by
  obtain ⟨kind, offset⟩ := site
  cases kind <;> first | (cases hwrapper; done) | skip
  all_goals
    simp only [action, statementList, ifStatement, caseStatement, stepStatement]
    repeat' first
      | exact Ends.ok ⟨rfl, fun _ => rfl⟩
      | exact Ends.ok ⟨rfl, fun h => (h rfl).elim⟩
      | exact Ends.error trivial
      | refine Ends.bind (ends_somehow _) fun _ _ => ?_
      | split

end

end FlightProcedure
