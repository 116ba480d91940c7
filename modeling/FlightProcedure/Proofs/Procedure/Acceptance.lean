import FlightProcedure.Procedure.Action
import FlightProcedure.Proofs.Outcome
import FlightProcedure.Proofs.Procedure.Signature

/-!
# Actions accept what their signatures ask for

`Meets tokens good result` says that a computation yields a good result, or one of the two foreseen
errors: something that is not supported, or a time that is none. It follows a computation step by step.
Read `CompileError.Foreseen` first: `action_meets` says that the meanings of the children of a node have a
meaning of the role that the signature of the rule gives, if they fill its slots.
-/

namespace FlightProcedure

open List Value

/-- The errors that a source of the language may lead to, where the tokens are those that it is read
from. -/
inductive CompileError.Foreseen (tokens : List Token) : CompileError → Prop where
  | unsupported (rule : String) (offset : Nat) : Foreseen tokens (.unsupported rule offset)
  | badTime {token : Token} {cause : TimeError} (hmem : token ∈ tokens)
      (hterminal : token.terminal = "ABSOLUTE_TIME_CONSTANT")
      (hcause : Timestamp.ofText token.text = .error cause) :
      Foreseen tokens (.malformed RuleKind.constant.name token.start (.badTime cause))

theorem CompileError.Foreseen.mono {tokens more : List Token} {cause : CompileError}
    (h : cause.Foreseen tokens) (hmore : ∀ token ∈ tokens, token ∈ more) : cause.Foreseen more := by
  cases h with
  | unsupported rule offset => exact .unsupported rule offset
  | badTime hmem hterminal hcause => exact .badTime (hmore _ hmem) hterminal hcause

variable {value : Value} {token : Token} {words : List String} {parts : CaseParts}

section

variable {α β : Type}

def Meets (tokens : List Token) (good : α → Prop) : Except CompileError α → Prop
  | .ok value => good value
  | .error cause => cause.Foreseen tokens

variable {tokens : List Token} {good : α → Prop} {fine : β → Prop} {first : Except CompileError α}
  {next : α → Except CompileError β}

theorem Meets.bind_eq (h : Meets tokens good first)
    (hnext : ∀ value, first = .ok value → good value → Meets tokens fine (next value)) :
    Meets tokens fine (first >>= next) := by
  cases first with
  | ok value => exact hnext value rfl h
  | error cause => exact h

theorem Meets.bind (h : Meets tokens good first) (hnext : ∀ value, good value → Meets tokens fine (next value)) :
    Meets tokens fine (first >>= next) :=
  h.bind_eq fun value _ hvalue => hnext value hvalue

theorem Meets.mono {result : Except CompileError α} {more : List Token} (h : Meets tokens good result)
    (hmore : ∀ token ∈ tokens, token ∈ more) : Meets more good result := by
  cases result with
  | ok value => exact h
  | error cause => exact CompileError.Foreseen.mono h hmore

end

def Value.Plays (roles : List Role) (value : Value) : Prop := ∃ role ∈ roles, role.Holds value

theorem Value.Plays.mono {roles more : List Role} (h : value.Plays roles) (hmore : ∀ role ∈ roles, role ∈ more) :
    value.Plays more := by
  obtain ⟨role, hmem, hrole⟩ := h
  exact ⟨role, hmore role hmem, hrole⟩

def Picks {α : Type} (roles : List Role) (pick : Value → Option α) : Prop :=
  ∀ value : Value, value.Plays roles → ∃ found, pick value = some found

def Passes {α : Type} (slots : List Slot) (pick : Value → Option α) : Prop :=
  ∀ value rest, Accepts Plays slots (value :: rest) → pick value = none

def Role.isToken : Role → Bool
  | .token _ | .anyToken => true
  | _ => false

@[simp] theorem picks_roles : Picks [.expr] expr? ∧ Picks [.name] name? ∧ Picks [.text] text? ∧
    Picks statementRoles key? ∧ Picks [.step] key? ∧ Picks [.dataType] dataType? ∧
    Picks [.body] body? ∧ Picks [.bodies] bodies? ∧ Picks [.continuation] continuation? ∧
    Picks [.action] action? ∧ Picks [.timeout] timeout? ∧ Picks [.argument] argument? ∧
    Picks [.arguments] arguments? ∧ Picks [.directive] directive? ∧
    Picks [.directives] directives? ∧ Picks [.activityCall] activityCall? ∧
    Picks [.anyToken] token? ∧ Picks [.anyToken, .units] unitText? ∧
    (∀ terminal, Picks [.token terminal] name?) ∧ (∀ terminal, Picks [.token terminal] token?) ∧
    (∀ terminal other, Picks [.token terminal, .token other] token?) ∧
    ∀ terminal, Picks [.token terminal, .units] unitText? := by
  refine ⟨?_, ?_, ?_, ?_, ?_, ?_, ?_, ?_, ?_, ?_, ?_, ?_, ?_, ?_, ?_, ?_, ?_, ?_, fun _ => ?_, fun _ => ?_,
    fun _ _ => ?_, fun _ => ?_⟩
  all_goals
    rintro value ⟨role, hmem, h⟩
    repeat' (rcases hmem with _ | ⟨_, hmem⟩)
    all_goals cases value <;> first | exact h.elim | exact ⟨_, rfl⟩

@[simp] theorem passes_nil {α : Type} (pick : Value → Option α) : Passes [] pick := by
  intro value rest h
  cases h

@[simp] theorem passes_later : Passes [.opt [.continuation]] name? ∧
    Passes [.opt [.directives]] arguments? := by
  constructor
  all_goals
    rintro value rest (h | ⟨_, _, heq, ⟨role, hmem, h⟩, -⟩)
    · cases h
    · cases heq
      cases mem_singleton.mp hmem
      cases value <;> first | exact h.elim | rfl

theorem plays_singleton {role : Role} : value.Plays [role] ↔ role.Holds value := by
  simp [Plays]

theorem key_of_plays (h : value.Plays statementRoles) : ∃ key, value = .key key := by
  obtain ⟨_, hfound⟩ : ∃ found, value.key? = some found := picks_roles.2.2.2.1 value h
  cases value <;> first | exact ⟨_, rfl⟩ | cases hfound

theorem expr_of_plays (h : value.Plays [.expr]) : ∃ expr, value = .expr expr := by
  obtain ⟨_, hfound⟩ : ∃ found, value.expr? = some found := picks_roles.1 value h
  cases value <;> first | exact ⟨_, rfl⟩ | cases hfound

section

variable {α β : Type} {tokens : List Token} {site : Site} {what : String} {pick : Value → Option α}
  {roles : List Role} {slots : List Slot} {values : List Value} {fine : β → Prop}

section

variable (hpick : Picks roles pick)

include hpick

theorem Meets.take_cons (hvalue : value.Plays roles)
    {next : α × List Value → Except CompileError β} (hnext : ∀ found, Meets tokens fine (next (found, values))) :
    Meets tokens fine (site.take what pick (value :: values) >>= next) := by
  obtain ⟨found, hfound⟩ := hpick value hvalue
  rw [Site.take, hfound]
  exact hnext found

theorem Meets.take (h : Accepts Plays (.one roles :: slots) values) {next : α × List Value → Except CompileError β}
    (hnext : ∀ found rest, Accepts Plays slots rest → Meets tokens fine (next (found, rest))) :
    Meets tokens fine (site.take what pick values >>= next) := by
  obtain ⟨value, rest, rfl, hvalue, hrest⟩ := h
  exact .take_cons hpick hvalue fun found => hnext found rest hrest

theorem Meets.take_all (h : Accepts Plays [.many roles] values)
    {next : List α → Except CompileError β} (hnext : ∀ found, Meets tokens fine (next found)) :
    Meets tokens fine (site.takeAll what pick values >>= next) := by
  obtain ⟨front, rest, rfl, hfront, rfl⟩ := h
  have hall : ∃ found, site.takeAll what pick (front ++ []) = .ok found := by
    rw [append_nil]
    induction front with
    | nil => exact ⟨[], rfl⟩
    | cons value front ih =>
      obtain ⟨found, hfound⟩ := hpick value (hfront value mem_cons_self)
      obtain ⟨others, hothers⟩ := ih fun part hpart => hfront part (mem_cons_of_mem _ hpart)
      exact ⟨found :: others, by rw [Site.takeAll, hfound, hothers]; rfl⟩
  obtain ⟨found, hfound⟩ := hall
  rw [hfound]
  exact hnext found

theorem take_if_accepts (hpasses : Passes slots pick) (h : Accepts Plays (.opt roles :: slots) values) :
    Accepts Plays slots (takeIf pick values).2 := by
  rcases h with h | ⟨value, rest, rfl, hvalue, hrest⟩
  · cases values with
    | nil => exact h
    | cons value rest =>
      rw [takeIf, hpasses value rest h]
      exact h
  · obtain ⟨found, hfound⟩ := hpick value hvalue
    rw [takeIf, hfound]
    exact hrest

end

theorem Meets.unit_text (hpick : Picks roles unitText?) (h : Accepts Plays [.many roles] values)
    {next : String → Except CompileError β} (hnext : ∀ text, Meets tokens fine (next text)) :
    Meets tokens fine (site.unitText values >>= next) :=
  have hmeets : Meets tokens (fun _ => True) (site.unitText values) := .take_all hpick h fun _ => trivial
  hmeets.bind fun text _ => hnext text

theorem Meets.finish (h : Accepts Plays [] values) {next : Unit → Except CompileError β}
    (hnext : Meets tokens fine (next ())) : Meets tokens fine (site.finish values >>= next) := by
  rw [show values = [] from h]
  exact hnext

end

theorem token_of_words (h : value.Plays (words.map Role.token)) :
    ∃ token, value = .token token ∧ token.terminal ∈ words ∧ token.Spelled := by
  obtain ⟨role, hmem, h⟩ := h
  obtain ⟨word, hword, rfl⟩ := mem_map.mp hmem
  cases value with
  | token token =>
    obtain ⟨hterminal, hspelled⟩ := h
    exact ⟨token, rfl, hterminal ▸ hword, hspelled⟩
  | _ => exact h.elim

theorem token_of_terminal {terminal : String} (h : value.Plays [.token terminal]) :
    ∃ token, value = .token token ∧ token.terminal = terminal ∧ token.Spelled := by
  have hwords : value.Plays ([terminal].map Role.token) := h
  simpa only [mem_singleton] using token_of_words hwords

theorem text_of_plays (words : List String) {good : String → Prop} (h : value.Plays (words.map Role.token))
    (hgood : ∀ word ∈ words, ∃ entry ∈ spellings, entry.1 = word ∧ ∀ text ∈ entry.2, good text) :
    ∃ token, value = .token token ∧ good token.text := by
  obtain ⟨token, rfl, hterminal, hspelled⟩ := token_of_words h
  obtain ⟨⟨word, texts⟩, hentry, rfl, htexts⟩ := hgood _ hterminal
  exact ⟨token, rfl, htexts _ (hspelled.text texts hentry)⟩

theorem data_type_of_word (h : keywordText token.text ∈ typeWords) : ∃ type, dataTypeOf token = .ok type := by
  simp only [typeWords, mem_cons, not_mem_nil, or_false] at h
  rcases h with h | h | h | h | h | h | h <;> simp [dataTypeOf, h]

theorem continuation_action_of_word (h : keywordText token.text ∈ actionWords) :
    ∃ action, continuationActionOf token = .ok action := by
  simp only [actionWords, mem_cons, not_mem_nil, or_false] at h
  rcases h with h | h | h | h | h | h <;> simp [continuationActionOf, h]

theorem confirmation_status_of_word (h : keywordText token.text ∈ ["confirmed", "not confirmed", "aborted"]) :
    ∃ status, confirmationStatusOf token = .ok status := by
  simp only [mem_cons, not_mem_nil, or_false] at h
  rcases h with h | h | h <;> simp [confirmationStatusOf, h]

section

variable {tokens : List Token} {name : String} {site : Site} {values : List Value} {slots : List Slot}

theorem Meets.operator {β : Type} {fine : β → Prop} {operator? : String → Option BinaryOp}
    (h : (operator? token.text).isSome = true) {next : BinaryOp → Except CompileError β}
    (hnext : ∀ op, Meets tokens fine (next op)) : Meets tokens fine (operatorOf site operator? token >>= next) := by
  obtain ⟨op, hop⟩ := Option.isSome_iff_exists.mp h
  rw [operatorOf, hop]
  exact hnext op

theorem Meets.left_associated {roles : List Role} (left : Expr) (fuel : Nat)
    {operator : List Value → Except CompileError (BinaryOp × List Value)}
    (hoperator : ∀ (value : Value) (rest : List Value), value.Plays roles → ∃ op, operator (value :: rest) = .ok (op, rest))
    (h : Accepts Plays [.pairs roles [.expr]] values) :
    Meets tokens (fun _ => True) (leftAssociated site operator fuel left values) := by
  induction fuel generalizing left values with
  | zero => exact trivial
  | succ fuel ih =>
    obtain ⟨front, rest, rfl, hfront, rfl⟩ := h
    rw [append_nil]
    match front, hfront with
    | [], _ => exact trivial
    | value :: next :: front, ⟨hvalue, hnext, hfront⟩ =>
      obtain ⟨op, hop⟩ := hoperator value (next :: front) hvalue
      rw [leftAssociated, hop]
      exact .take_cons (by simp) hnext fun right => ih _ ⟨front, [], (append_nil _).symm, hfront, rfl⟩

theorem continuation_cases_meets : ∀ {values : List Value},
    Alternates (Plays [.token "CONFIRMATION_STATUS"]) (Plays [.action]) values →
      Meets tokens (fun _ => True) (continuationCases site values)
  | [], _ => trivial
  | value :: next :: rest, ⟨hvalue, hnext, hrest⟩ => by
    obtain ⟨token, rfl, htext⟩ := @text_of_plays value ["CONFIRMATION_STATUS"]
      (fun text => keywordText text ∈ ["confirmed", "not confirmed", "aborted"]) hvalue (by decide)
    obtain ⟨status, hstatus⟩ := confirmation_status_of_word htext
    simp only [continuationCases, Site.token, Site.take, token?, ok_bind, hstatus]
    exact .take_cons (by simp) hnext fun _ => (continuation_cases_meets hrest).bind fun _ _ => trivial

theorem duration_terms_meets : ∀ {values : List Value},
    Alternates (Plays [.anyToken]) (Plays [.anyToken]) values →
      Meets tokens (fun _ => True) (durationTerms site values)
  | [], _ => trivial
  | value :: next :: rest, ⟨hvalue, hnext, hrest⟩ => by
    refine .take_cons (by simp) hvalue fun _ => ?_
    refine .take_cons (by simp) hnext fun _ => ?_
    exact (duration_terms_meets hrest).bind fun _ _ => trivial

theorem if_parts_meets {parts : IfParts}
    (h : ∀ value ∈ values, value.Plays (statementRoles ++ words.map Role.token)) :
    Meets tokens (fun result => result.condition = parts.condition) (ifParts site parts values) := by
  induction values generalizing parts with
  | nil => rfl
  | cons value values ih =>
    have hrest : ∀ other ∈ values, other.Plays (statementRoles ++ words.map Role.token) :=
      fun other hother => h other (mem_cons_of_mem _ hother)
    obtain ⟨role, hmem, hvalue⟩ := h value mem_cons_self
    rcases mem_append.mp hmem with hkey | hword
    · obtain ⟨key, rfl⟩ := key_of_plays ⟨role, hkey, hvalue⟩
      rw [ifParts]
      split <;> exact ih hrest
    · obtain ⟨token, rfl, -, -⟩ := token_of_words ⟨role, hword, hvalue⟩
      rw [ifParts]
      split <;> exact ih hrest

theorem if_statement_meets (h : Accepts Plays [.one [.token "if"], .one [.expr],
      .many (statementRoles ++ ["then", ";", "else", "end if"].map Role.token)] values) :
    Meets tokens (fun effect => Role.key.Holds effect.value) (ifStatement site values) := by
  obtain ⟨first, rest, rfl, hfirst, second, rest, rfl, hsecond, front, rest, rfl, hfront, rfl⟩ := h
  obtain ⟨token, rfl, -, -⟩ := token_of_terminal hfirst
  obtain ⟨condition, rfl⟩ := expr_of_plays hsecond
  have hparts : Meets tokens (fun result => result.condition = some condition)
      (ifParts site {} (.token token :: .expr condition :: (front ++ []))) := by
    rw [append_nil, ifParts]
    split <;> exact if_parts_meets hfront
  refine hparts.bind fun result hresult => ?_
  rw [hresult]
  exact trivial

theorem add_key_branches (key : String) (h : parts.branches ≠ []) :
    ∃ added, parts.addKey key = some added ∧ added.subject = parts.subject ∧ added.branches ≠ [] := by
  obtain ⟨subject, branches, otherwise⟩ := parts
  obtain ⟨branch, before, rfl⟩ := exists_cons_of_ne_nil h
  cases otherwise with
  | none => exact ⟨_, rfl, rfl, by simp⟩
  | some statements => exact ⟨_, rfl, rfl, h⟩

theorem case_parts_meets (hbranches : parts.branches ≠ [])
    (h : ∀ value ∈ values, value.Plays (Role.caseTag :: statementRoles ++ words.map Role.token)) :
    Meets tokens (fun result => result.subject = parts.subject ∧ result.branches ≠ [])
      (caseParts site parts values) := by
  induction values generalizing parts with
  | nil => exact ⟨rfl, hbranches⟩
  | cons value values ih =>
    have hrest : ∀ other ∈ values, other.Plays (Role.caseTag :: statementRoles ++ words.map Role.token) :=
      fun other hother => h other (mem_cons_of_mem _ hother)
    obtain ⟨role, hmem, hvalue⟩ := h value mem_cons_self
    rcases mem_append.mp hmem with hpart | hword
    · rcases mem_cons.mp hpart with rfl | hkey
      · cases value with
        | caseTag tag =>
          rw [caseParts]
          exact ih (by simp) hrest
        | _ => exact hvalue.elim
      · obtain ⟨key, rfl⟩ := key_of_plays ⟨role, hkey, hvalue⟩
        obtain ⟨added, hadded, hsubject, hadded_branches⟩ := add_key_branches key hbranches
        rw [caseParts, hadded, ← hsubject]
        exact ih hadded_branches hrest
    · obtain ⟨token, rfl, -, -⟩ := token_of_words ⟨role, hword, hvalue⟩
      rw [caseParts]
      split <;> exact ih hbranches hrest

theorem case_parts_mark {good : CaseParts → Prop}
    (h : ∀ other : CaseParts, other.subject = parts.subject → other.branches = parts.branches →
      Meets tokens good (caseParts site other values)) :
    Meets tokens good (caseParts site parts (.token token :: values)) := by
  rw [caseParts]
  split
  · exact h _ rfl rfl
  · exact h _ rfl rfl

/-- The words and marks that stand between the labels and statements of a case statement. -/
def caseMarks : List String := [":", ";", "or is", "otherwise", "end case"]

/-- What follows the first label of a case statement: labels and statements, then the statements for all other
cases. -/
def caseTail : List Slot :=
  [.many (Role.caseTag :: statementRoles ++ [":", ";", "or is"].map Role.token), .opt [.token "otherwise"],
    .many (statementRoles ++ [":", ";", "end case"].map Role.token)]

theorem case_tail_plays (h : Accepts Plays caseTail values) :
    ∀ value ∈ values, value.Plays (Role.caseTag :: statementRoles ++ caseMarks.map Role.token) := by
  obtain ⟨front, rest, rfl, hfront, hrest⟩ := h
  have hlast : ∀ others, Accepts Plays (caseTail.drop 2) others →
      ∀ value ∈ others, value.Plays (Role.caseTag :: statementRoles ++ caseMarks.map Role.token) := by
    rintro _ ⟨others, rest, rfl, hothers, rfl⟩ value hvalue
    rw [append_nil] at hvalue
    exact (hothers value hvalue).mono (by decide)
  intro value hvalue
  rcases mem_append.mp hvalue with hvalue | hvalue
  · exact (hfront value hvalue).mono (by decide)
  · rcases hrest with hrest | ⟨mark, others, rfl, hmark, hrest⟩
    · exact hlast rest hrest value hvalue
    · rcases mem_cons.mp hvalue with rfl | hvalue
      · exact hmark.mono (by decide)
      · exact hlast others hrest value hvalue

theorem case_statement_meets (h : Accepts Plays (.one [.token "in case"] :: .one [.expr] ::
      .one [.token "is"] :: .one [.caseTag] :: caseTail) values) :
    Meets tokens (fun effect => Role.key.Holds effect.value) (caseStatement site values) := by
  obtain ⟨first, rest, rfl, hfirst, second, rest, rfl, hsecond, third, rest, rfl, hthird, tag, rest,
    rfl, htag, hrest⟩ := h
  obtain ⟨first, rfl, -, -⟩ := token_of_terminal hfirst
  obtain ⟨third, rfl, -, -⟩ := token_of_terminal hthird
  obtain ⟨subject, rfl⟩ := expr_of_plays hsecond
  rw [plays_singleton] at htag
  cases tag with
  | caseTag tag =>
    have hparts : Meets tokens (fun result => result.subject = some subject ∧ result.branches ≠ [])
        (caseParts site {} (.token first :: .expr subject :: .token third :: .caseTag tag :: rest)) := by
      refine case_parts_mark fun parts hnone _ => ?_
      rw [caseParts, if_pos (by rw [hnone]; rfl)]
      refine case_parts_mark fun parts hsome _ => ?_
      have hsubject : parts.subject = some subject := hsome
      rw [caseParts, ← hsubject]
      exact case_parts_meets (by simp) (case_tail_plays hrest)
    refine hparts.bind fun result hresult => ?_
    obtain ⟨hsubject, hbranches⟩ := hresult
    rw [hsubject]
    simp only [List.isEmpty_iff, hbranches, if_false]
    exact trivial
  | _ => exact htag.elim

theorem tag_test_meets (hslots : slots ∈ [[.one [.token "RELATIONAL_OPERATOR"], .one [.expr]],
      [.one [.token "between"], .one [.expr], .one [.token "and"], .one [.expr]], [.one [.expr]]])
    (h : Accepts Plays slots values) : Meets tokens (fun _ => True) (tagTest site values) := by
  simp only [mem_cons, not_mem_nil, or_false] at hslots
  rcases hslots with rfl | rfl | rfl
  · obtain ⟨first, rest, rfl, hfirst, hrest⟩ := h
    obtain ⟨token, rfl, hbetween, hop⟩ := @text_of_plays first ["RELATIONAL_OPERATOR"]
      (fun text => text ≠ "between" ∧ (BinaryOp.relational? text).isSome = true) hfirst (by decide)
    show Meets tokens _ (if token.text = "between" then _ else _)
    rw [if_neg hbetween]
    refine .operator hop fun _ => ?_
    exact .take (by simp) hrest fun _ _ _ => trivial
  · obtain ⟨first, rest, rfl, hfirst, hrest⟩ := h
    obtain ⟨token, rfl, hbetween⟩ := @text_of_plays first ["between"] (· = "between") hfirst (by decide)
    show Meets tokens _ (if token.text = "between" then _ else _)
    rw [if_pos hbetween]
    refine .take (by simp) hrest fun _ _ h => ?_
    refine .take (by simp) h fun _ _ h => ?_
    exact .take (by simp) h fun _ _ _ => trivial
  · obtain ⟨first, rest, rfl, hfirst, rfl⟩ := h
    rw [plays_singleton] at hfirst
    cases first <;> first | exact hfirst.elim | exact trivial

theorem simple_factor_meets (hslots : slots ∈ [[.one [.expr]], [.one [.name]], [.one [.token "SIGN"], .one [.expr]]])
    (h : Accepts Plays slots values) : Meets tokens (fun _ => True) (simpleFactor site values) := by
  simp only [mem_cons, not_mem_nil, or_false] at hslots
  rcases hslots with rfl | rfl | rfl
  iterate 2
    obtain ⟨first, rest, rfl, hfirst, rfl⟩ := h
    rw [plays_singleton] at hfirst
    cases first <;> first | exact hfirst.elim | exact trivial
  obtain ⟨first, rest, rfl, hfirst, hrest⟩ := h
  obtain ⟨token, rfl, htext⟩ := @text_of_plays first ["SIGN"] (· ∈ ["+", "-"]) hfirst (by decide)
  simp only [mem_cons, not_mem_nil, or_false] at htext
  rcases htext with htext | htext
  all_goals
    simp only [simpleFactor, Site.next, ok_bind, htext]
    exact .take (by simp) hrest fun _ _ _ => trivial

theorem only_child_meets {roles : List Role} {role : Role}
    (hroles : ∀ value : Value, value.Plays roles → role.Holds value)
    (h : Accepts Plays [.one roles] values) :
    Meets tokens (fun effect : Effect => role.Holds effect.value) (do
      let (value, rest) ← site.next values
      site.finish rest
      .ok (.ofValue value)) := by
  obtain ⟨value, rest, rfl, hvalue, rfl⟩ := h
  exact hroles value hvalue

theorem constant_token_meets (hkind : site.kind = .constant) (hmem : token ∈ tokens)
    (hterminal : token.terminal ∈ ["ABSOLUTE_TIME_CONSTANT", "STRING_CONSTANT", "ENUMERATED_CONSTANT"]) :
    Meets tokens (fun _ => True) (constantToken site token) := by
  simp only [mem_cons, not_mem_nil, or_false] at hterminal
  rcases hterminal with hterminal | hterminal | hterminal
  · simp only [constantToken, hterminal]
    split
    · exact trivial
    · next cause hcause =>
      rw [hkind]
      exact .badTime hmem hterminal hcause
  · simp only [constantToken, hterminal]
    exact trivial
  · simp only [constantToken, hterminal]
    exact .unsupported _ _

theorem constant_meets (hkind : site.kind = .constant) (h : Accepts Plays [.one (.expr ::
      ["ABSOLUTE_TIME_CONSTANT", "STRING_CONSTANT", "ENUMERATED_CONSTANT"].map Role.token)] values) :
    Meets (values.filterMap token?) (fun effect => Role.expr.Holds effect.value)
      (action name site values) := by
  obtain ⟨value, rest, rfl, ⟨role, hrole, hvalue⟩, rfl⟩ := h
  simp only [action, hkind]
  rcases mem_cons.mp hrole with rfl | hrole
  · cases value <;> first | exact hvalue.elim | exact trivial
  · obtain ⟨token, rfl, hterminal, -⟩ := token_of_words ⟨role, hrole, hvalue⟩
    have hmem : token ∈ [Value.token token].filterMap Value.token? := mem_singleton_self token
    exact (constant_token_meets hkind hmem hterminal).bind fun _ _ => trivial

theorem relation_meets (hkind : site.kind = .relationalExpression)
    (h : Accepts Plays [.one [.expr], .pairs [.token "RELATIONAL_OPERATOR"] [.expr]] values) :
    Meets tokens (fun effect => Role.expr.Holds effect.value) (action name site values) := by
  simp only [action, hkind]
  refine .take (by simp) h fun left rest h => ?_
  obtain ⟨front, rest, rfl, hfront, rfl⟩ := h
  match front, hfront with
  | [], _ => exact trivial
  | first :: second :: front, ⟨hfirst, hsecond, hrest⟩ =>
    obtain ⟨token, rfl, hop⟩ := @text_of_plays first ["RELATIONAL_OPERATOR"]
      (fun text => (BinaryOp.relational? text).isSome = true) hfirst (by decide)
    refine .operator hop fun _ => ?_
    exact .take_cons (by simp) hsecond fun _ => trivial

theorem arithmetic_meets {terminal : String} (hkind : site.kind = .comparativeExpression ∨ site.kind = .product)
    (hterminal : ∀ word ∈ [terminal], ∃ entry ∈ spellings, entry.1 = word ∧
      ∀ text ∈ entry.2, (BinaryOp.arithmetic? text).isSome = true)
    (h : Accepts Plays [.one [.expr], .pairs [.token terminal] [.expr]] values) :
    Meets tokens (fun effect => Role.expr.Holds effect.value) (action name site values) := by
  rcases hkind with hkind | hkind
  all_goals
    simp only [action, hkind]
    refine .take (by simp) h fun _ _ h => ?_
    refine (Meets.left_associated _ _ (fun value rest hvalue => ?_) h).bind fun _ _ => trivial
    obtain ⟨token, rfl, hop⟩ := text_of_plays [terminal] hvalue hterminal
    obtain ⟨op, hop⟩ := Option.isSome_iff_exists.mp hop
    exact ⟨op, by simp [Site.token, Site.take, token?, operatorOf, hop, ok_bind]⟩

theorem factor_meets (hkind : site.kind = .factor)
    (hslots : slots ∈ [[.one [.expr]], [.one [.token "NEGATION_BOOLEAN_OPERATOR"], .one [.expr]]])
    (h : Accepts Plays slots values) :
    Meets tokens (fun effect => Role.expr.Holds effect.value) (action name site values) := by
  simp only [action, hkind]
  simp only [mem_cons, not_mem_nil, or_false] at hslots
  rcases hslots with rfl | rfl
  · obtain ⟨value, rest, rfl, hvalue, rfl⟩ := h
    rw [plays_singleton] at hvalue
    cases value <;> first | exact hvalue.elim | exact trivial
  · obtain ⟨value, rest, rfl, hvalue, hrest⟩ := h
    obtain ⟨token, rfl, -, -⟩ := token_of_terminal hvalue
    exact .take (by simp) hrest fun _ _ _ => trivial

theorem function_meets (hkind : site.kind = .function) (h : Accepts Plays [.one [.token "STANDARD_FUNCTION_NAME",
      .token "NONSTANDARD_FUNCTION_NAME"], .many [.expr]] values) :
    Meets tokens (fun effect => Role.expr.Holds effect.value) (action name site values) := by
  simp only [action, hkind]
  refine .take (by simp) h fun _ _ h => ?_
  split
  · exact .unsupported _ _
  · exact .take_all (by simp) h fun _ => trivial

theorem integer_meets (hkind : site.kind = .integerConstant)
    (hslots : slots ∈ [[.one [.token "HEXADECIMAL_CONSTANT"]],
      [.one [.token "SIGN", .token "UNSIGNED_INTEGER"], .many [.token "UNSIGNED_INTEGER", .units]]])
    (h : Accepts Plays slots values) :
    Meets tokens (fun effect => Role.expr.Holds effect.value) (action name site values) := by
  simp only [action, hkind]
  simp only [mem_cons, not_mem_nil, or_false] at hslots
  rcases hslots with rfl | rfl
  · obtain ⟨value, rest, rfl, hvalue, rfl⟩ := h
    obtain ⟨token, rfl, hterminal, -⟩ := token_of_terminal hvalue
    simp only [takeIf, token?, if_pos hterminal]
    exact trivial
  · obtain ⟨value, rest, rfl, hvalue, hrest⟩ := h
    have hwords : value.Plays (["SIGN", "UNSIGNED_INTEGER"].map Role.token) := hvalue
    obtain ⟨token, rfl, hterminal, -⟩ := token_of_words hwords
    have hdecimal : token.terminal ≠ "HEXADECIMAL_CONSTANT" := by
      rintro heq
      rw [heq] at hterminal
      simp at hterminal
    simp only [takeIf, token?, if_neg hdecimal]
    exact .unit_text (by simp) hrest fun _ => trivial

theorem action_meets {signature : Signature} (hsignature : site.kind.signature? = some signature)
    (h : ∃ slots ∈ signature.choices, Accepts Plays slots values) :
    Meets (values.filterMap token?) (fun effect => signature.role.Holds effect.value)
      (action name site values) := by
  obtain ⟨kind, offset⟩ := site
  obtain ⟨slots, hslots, h⟩ := h
  cases kind <;> cases hsignature
  -- Most rules have a single choice of slots.
  all_goals try cases mem_singleton.mp hslots
  case procedureDefinition | stepDefinition | procedureDeclarationBody | stepDeclarationBody
      | preconditionsBody | procedureMainBody | stepMainBody | confirmationBody | watchdogBody | arguments
      | directives | logStatement | objectReference =>
      exact .take_all (by simp) h fun _ => trivial
  case realConstant | engineeringUnits | unitReference | unitProduct | unitFactor | unitSimpleFactor
      | unitExponent =>
      exact .unit_text (by simp) h fun _ => trivial
  case procedureStatement | stepStatement | flowControlStatement | waitStatement =>
    refine only_child_meets (fun value hvalue => ?_) h
    obtain ⟨key, rfl⟩ := key_of_plays hvalue
    exact trivial
  case argument | activityReference => exact only_child_meets (fun _ => plays_singleton.mp) h
  case description | raiseEvent | variableReference | eventReference | objectProperty | argumentReference =>
    exact .take (by simp) h fun _ _ _ => trivial
  case simpleArgument | directive | recordArgument | objectPropertyRequest =>
    refine .take (by simp) h fun _ _ h => ?_
    exact .take (by simp) h fun _ _ _ => trivial
  case waitForStatement =>
    refine .take (by simp) h fun _ _ h => ?_
    exact .finish h trivial
  case variableDeclaration | assignmentStatement =>
    refine .take (by simp) h fun _ _ h => ?_
    refine .take (by simp) h fun _ _ h => ?_
    exact .finish h trivial
  case eventDeclaration | initiateActivityStatement | waitForEventStatement | waitUntilStatement | timeout =>
    refine .take (by simp) h fun _ _ h => ?_
    exact .finish (take_if_accepts (by simp) (by simp) h) trivial
  case initiateAndConfirmActivityStatement | activityCall =>
    refine .take (by simp) h fun _ _ h => ?_
    exact .finish (take_if_accepts (by simp) (by simp) (take_if_accepts (by simp) (by simp) h)) trivial
  case initiateAndConfirmStepStatement =>
    refine .take (by simp) h fun _ _ h => ?_
    refine .take (by simp) h fun _ _ h => ?_
    exact .finish (take_if_accepts (by simp) (by simp) h) trivial
  case predefinedType =>
    obtain ⟨value, rest, rfl, hvalue, rfl⟩ := h
    obtain ⟨token, rfl, hterminal, hspelled⟩ := token_of_words hvalue
    have hword := hspelled.words (by simp [keywords, hterminal])
    obtain ⟨type, htype⟩ := data_type_of_word (hword ▸ hterminal)
    simp only [action, Site.token, Site.take, token?, ok_bind, htype]
    exact trivial
  case continuationTest =>
    obtain ⟨front, rest, rfl, hfront, rfl⟩ := h
    rw [append_nil]
    exact (continuation_cases_meets hfront).bind fun _ _ => trivial
  case continuationAction =>
    obtain ⟨value, rest, rfl, ⟨role, hrole, hvalue⟩, rfl⟩ := h
    rcases mem_cons.mp hrole with rfl | hrole
    · cases value <;> first | exact hvalue.elim | exact trivial
    · obtain ⟨token, rfl, hterminal, hspelled⟩ := token_of_words ⟨role, hrole, hvalue⟩
      have hword := hspelled.words (by simp [keywords, hterminal])
      obtain ⟨found, hfound⟩ := continuation_action_of_word (hword ▸ hterminal)
      simp only [action, Site.next, ok_bind, hfound]
      exact trivial
  case ifStatement => exact if_statement_meets h
  case caseStatement => exact case_statement_meets h
  case caseTag => exact (tag_test_meets hslots h).bind fun _ _ => trivial
  case expression =>
    refine .take (by simp) h fun _ _ h => ?_
    refine (Meets.left_associated _ _ (fun value rest hvalue => ?_) h).bind fun _ _ => trivial
    rw [plays_singleton] at hvalue
    cases value <;> first | exact hvalue.elim | exact ⟨_, rfl⟩
  case relationalExpression => exact relation_meets rfl h
  case comparativeExpression => exact arithmetic_meets (.inl rfl) (by decide) h
  case product => exact arithmetic_meets (.inr rfl) (by decide) h
  case term =>
    refine .take (by simp) h fun base rest h => ?_
    rcases h with rfl | ⟨value, rest, rfl, hvalue, -⟩
    · exact trivial
    · exact .take_cons (by simp) hvalue fun _ => trivial
  case factor => exact factor_meets rfl hslots h
  case simpleFactor => exact (simple_factor_meets hslots h).bind fun _ _ => trivial
  case function => exact function_meets rfl h
  case booleanOperator =>
    obtain ⟨value, rest, rfl, hvalue, rfl⟩ := h
    obtain ⟨token, rfl, hop⟩ := @text_of_plays value ["AND", "OR", "XOR"]
      (fun text => (BinaryOp.boolean? text).isSome = true) hvalue (by decide)
    exact .operator hop fun _ => trivial
  case constant => exact constant_meets rfl h
  case booleanConstant =>
    obtain ⟨value, rest, rfl, hvalue, rfl⟩ := h
    obtain ⟨token, rfl, htext⟩ := @text_of_plays value ["TRUE", "FALSE"] (· ∈ ["TRUE", "FALSE"]) hvalue (by decide)
    simp only [mem_cons, not_mem_nil, or_false] at htext
    rcases htext with h | h <;> simp only [action, Site.token, Site.take, token?, ok_bind, h] <;> exact trivial
  case integerConstant => exact integer_meets rfl hslots h
  case relativeTimeConstant =>
    obtain ⟨front, rest, rfl, hfront, rfl⟩ := h
    rw [append_nil]
    exact (duration_terms_meets hfront).bind fun _ _ => trivial

end

end FlightProcedure
