import FlightProcedure.Proofs.Procedure.Declaring

/-!
# Declarations come in post-order

A node declares its statements after the nodes below it have declared theirs, and a watchdog keeps the
place of the statement that it is made of. So the keys of a procedure can be listed from its tree alone.
-/

namespace FlightProcedure

open List

/-- The keys that a node of a rule declares itself, from its position and those of the labels directly
below it. -/
def RuleKind.ownKeys (kind : RuleKind) (start : Nat) (tags : List Nat) : List String :=
  match kind with
  | .eventDeclaration | .variableDeclaration | .initiateAndConfirmActivityStatement
  | .initiateActivityStatement | .logStatement | .assignmentStatement | .ifStatement
  | .waitForEventStatement | .waitUntilStatement | .waitForStatement => [statementKey start]
  | .initiateAndConfirmStepStatement =>
    [statementKey start, stepClassName (statementKey start)]
  | .caseStatement => statementKey start :: (tags.drop 1).map statementKey
  | _ => []

namespace Tree

mutual

/-- The position of the label that a tree stands for. A node around a single label stands for it. -/
def tagStarts : Tree → List Nat
  | .leaf _ => []
  | .node rule start _ children =>
    match RuleKind.ofName? rule with
    | some .caseTag => [start]
    | some kind => if kind.isWrapper then tagStartsOf children else []
    | none => []

def tagStartsOf : List Tree → List Nat
  | [] => []
  | tree :: trees => tree.tagStarts ++ tagStartsOf trees

end

mutual

/-- The keys that a tree declares: those of the trees below in order, and then those of its own. -/
def declaredKeys : Tree → List String
  | .leaf _ => []
  | .node rule start _ children =>
    declaredKeysOf children ++
      match RuleKind.ofName? rule with
      | some kind => kind.ownKeys start (tagStartsOf children)
      | none => []

def declaredKeysOf : List Tree → List String
  | [] => []
  | tree :: trees => tree.declaredKeys ++ declaredKeysOf trees

end

end Tree

def labelStarts (values : List Value) : List Nat := (values.filterMap Value.caseTag?).map (·.start)

@[simp] theorem label_starts_cons (value : Value) (values : List Value) :
    labelStarts (value :: values) = labelStarts [value] ++ labelStarts values := by
  rw [labelStarts, ← singleton_append, filterMap_append, map_append]
  rfl

section

variable {name : String} {site : Site} {values : List Value} {effect : Effect}

theorem Does.keys_declared (h : Does site values effect) :
    effect.declarations.map Declaration.key = site.kind.ownKeys site.offset (labelStarts values) := by
  obtain ⟨kind, offset⟩ := site
  cases h with
  | means hkind | passes hkind | collects hkind | states hkind =>
    cases kind <;> first | (cases hkind; done) | rfl
  | decides hkind | runs hkind =>
    cases hkind
    rfl
  | @chooses subject branches otherwise hkind hbranches htags =>
    cases hkind
    obtain ⟨branch, rest, rfl⟩ := exists_cons_of_ne_nil hbranches
    rw [Effect.declarations, (keys_case_chain ..).1, RuleKind.ownKeys, labelStarts, ← htags]
    simp

theorem label_starts_action (h : action name site values = .ok effect) : labelStarts [effect.value] =
      match site.kind with
      | .caseTag => [site.offset]
      | kind => if kind.isWrapper then labelStarts values else [] := by
  by_cases hwrapper : site.kind.isWrapper = true
  · obtain ⟨kind, offset⟩ := site
    rw [wrapper_value hwrapper h]
    cases kind <;> first | (cases hwrapper; done) | rfl
  · have hyields := action_yields name values (Bool.eq_false_iff.mpr hwrapper)
    rw [h] at hyields
    obtain ⟨kind, offset⟩ := site
    by_cases htag : kind = .caseTag
    · cases htag
      obtain ⟨test, _, h⟩ := bind_eq_ok h
      cases h
      rfl
    · have hnone : labelStarts [effect.value] = [] := by
        simp [labelStarts, hyields.2 htag]
      rw [hnone]
      cases kind <;> first | rfl | cases htag rfl | cases hwrapper rfl

end

theorem keys_apply {site : Site} {effect : Effect} {table result : DeclarationTable}
    (hnodup : table.keys.Nodup) (h : effect.apply site table = .ok result) :
    result.keys.Nodup ∧ result.keys = table.keys ++ effect.declarations.map Declaration.key := by
  obtain ⟨hkeys, houtline⟩ := Effect.apply_eq_ok hnodup h
  have hresult := map_of_outline Declaration.key_outline houtline
  rw [← hresult] at hkeys
  exact ⟨hkeys, hresult.trans map_append⟩

mutual

theorem value_keys {name : String} : ∀ {tree : Tree} {table result : DeclarationTable} {value : Value},
    valueOf name tree table = .ok (value, result) → table.keys.Nodup →
      result.keys.Nodup ∧ result.keys = table.keys ++ tree.declaredKeys ∧ labelStarts [value] = tree.tagStarts
  | .leaf _, _, _, _, h, hnodup => by
    cases h
    exact ⟨hnodup, (append_nil _).symm, rfl⟩
  | .node rule start stop children, table, result, _, h, hnodup => by
    obtain ⟨kind, values, between, effect, hkind, hvalues, haction, happly, rfl⟩ := value_of_node h
    obtain ⟨hbetween, hchildren, hlabels⟩ := values_keys hvalues hnodup
    obtain ⟨hresult, hown⟩ := keys_apply hbetween happly
    refine ⟨hresult, ?_, ?_⟩
    · rw [hown, hchildren, (action_does haction).keys_declared, hlabels, Tree.declaredKeys, hkind, append_assoc]
    · rw [label_starts_action haction, hlabels, Tree.tagStarts, hkind]
      cases kind <;> rfl

theorem values_keys {name : String} : ∀ {trees : List Tree} {table result : DeclarationTable}
    {values : List Value}, valuesOf name trees table = .ok (values, result) → table.keys.Nodup →
      result.keys.Nodup ∧ result.keys = table.keys ++ Tree.declaredKeysOf trees ∧
        labelStarts values = Tree.tagStartsOf trees
  | [], _, _, _, h, hnodup => by
    cases h
    exact ⟨hnodup, (append_nil _).symm, rfl⟩
  | tree :: trees, _, _, _, h, hnodup => by
    obtain ⟨value, between, others, hvalue, hothers, rfl⟩ := values_of_cons h
    obtain ⟨hbetween, hfirst, hlabel⟩ := value_keys hvalue hnodup
    obtain ⟨hresult, hrest, hlabels⟩ := values_keys hothers hbetween
    refine ⟨hresult, ?_, ?_⟩
    · rw [hrest, hfirst, Tree.declaredKeysOf, append_assoc]
    · rw [label_starts_cons, hlabel, hlabels, Tree.tagStartsOf]

end

/-- The declarations of a procedure are those of its tree in post-order, and making watchdogs does not
change the order of declarations. -/
theorem declarations_in_post_order {name : String} {tree : Tree} {procedure : Procedure}
    (h : Procedure.ofTree name tree = .ok procedure) :
    procedure.declarations.map Declaration.key = tree.declaredKeys ∧
      ∀ (table result : DeclarationTable) (key : String), table.markWatchdog? key = some result →
        result.keys = table.keys := by
  refine ⟨?_, fun _ _ _ hmark => DeclarationTable.keys_mark_watchdog hmark⟩
  obtain ⟨table, hvalue, hentries⟩ := of_tree_eq_ok h
  obtain ⟨_, hkeys, _⟩ := value_keys hvalue nodup_nil
  rw [hentries]
  exact hkeys

def truthAt (start : Nat) : Tree :=
  .node "boolean_constant" start (start + 4) [.leaf ⟨"TRUE", "TRUE", start, start + 4⟩]

def logAt (start : Nat) : Tree :=
  .node "log_statement" start (start + 8) [truthAt (start + 4)]

def alarmTree : Tree :=
  .node "procedure_definition" 0 150 [ .node "procedure_main_body" 10 80 [ .node "case_statement" 15 70 [ truthAt 20,
        .node "case_tag" 30 34 [truthAt 30], logAt 36,
        .node "case_tag" 50 54 [truthAt 50], logAt 56]],
    .node "watchdog_body" 90 140 [ .node "procedure_statement" 100 130 [
        .node "initiate_and_confirm_step_statement" 100 130 [ .leaf ⟨"IDENTIFIER", "alarm", 100, 105⟩,
          .node "step_definition" 110 130 [ .node "step_main_body" 110 130 [logAt 115]]]]]]

/-- Each branch of the case statement comes before it, its second test after it, and the statement of
the step before that of the watchdog and its class. -/
theorem alarm_declarations : ∃ procedure, Procedure.ofTree "alarm" alarmTree = .ok procedure ∧
    procedure.declarations.map Declaration.key =
      [statementKey 36, statementKey 56, statementKey 15, statementKey 50, statementKey 115,
        statementKey 100, stepClassName (statementKey 100)] := by
  have hread : Procedure.ofTree "alarm" alarmTree = .ok _ := rfl
  exact ⟨_, hread, (declarations_in_post_order hread).1⟩

end FlightProcedure
