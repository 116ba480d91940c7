import FlightProcedure.Proofs.Script.Harmless

/-!
# Assignments of the script

The lines that build the arguments of an activity and its continuation test are assignments to variables and
to items of ordered mappings. `run` executes such lines: it reads the target of each line from its text, and
fails where a line is no assignment or indexes what is not there.
-/

namespace FlightProcedure.Script

open List Option

/-- What can stand between brackets: a text in single quotes, or a name. -/
inductive Key where
  | text (text : String)
  | name (name : String)
deriving DecidableEq

/-- What a line can assign: the value of an expression, which is given by its text, or a mapping. -/
inductive Item where
  | code (text : String)
  | mapping (entries : List (Key × Item))

def Item.get? (key : Key) : Item → Option Item
  | .mapping entries => entries.lookup key
  | .code _ => none

def put (key : Key) (item : Item) : List (Key × Item) → List (Key × Item)
  | [] => [(key, item)]
  | entry :: entries =>
    if entry.1 = key then (key, item) :: entries else entry :: put key item entries

def assign (key : Key) (item : Item) : Item → Option Item
  | .mapping entries => some (.mapping (put key item entries))
  | .code _ => none

def alter : List Key → (Item → Option Item) → Item → Option Item
  | [], change, item => change item
  | key :: keys, change, item => do
    let inner ← item.get? key
    let changed ← alter keys change inner
    assign key changed item

/-- Where the reader of a target is: inside a quoted text, inside a name, or behind a key. -/
inductive Place where
  | text (letters : List Char)
  | name (letters : List Char)
  | behind

/-- Read on in a target: the keys so far, the last of them apart, and the place. The text after the sign is the
text of the value. -/
@[simp] def targetFrom (keys : List Key) (last : Key) : Place → List Char → Option (List Key × Key × String)
  | .behind, '[' :: '\'' :: rest => targetFrom keys last (.text []) rest
  | .behind, '[' :: rest => targetFrom keys last (.name []) rest
  | .behind, ' ' :: '=' :: ' ' :: rest => some (keys, last, String.ofList rest)
  | .text letters, '\'' :: ']' :: rest =>
    targetFrom (keys ++ [last]) (.text (String.ofList letters)) .behind rest
  | .name letters, ']' :: rest =>
    targetFrom (keys ++ [last]) (.name (String.ofList letters)) .behind rest
  | .text letters, c :: rest =>
    if isBreakingChar c then none else targetFrom keys last (.text (letters ++ [c])) rest
  | .name letters, c :: rest =>
    if isIdentifierChar c || c == '.' then targetFrom keys last (.name (letters ++ [c])) rest else none
  | _, _ => none

/-- The keys that a line assigns, the last of them apart, and the text of the value. The first key is a
variable. -/
def readTarget (line : String) : Option (List Key × Key × String) :=
  let variable_ := line.toList.takeWhile isIdentifierChar
  targetFrom [] (.name (String.ofList variable_)) .behind (line.toList.dropWhile isIdentifierChar)

def valueOf (text : String) : Item :=
  if text = "OrderedDict()" then .mapping [] else .code text

def execute (scope : Item) (line : String) : Option Item := do
  let (keys, last, text) ← readTarget line
  alter keys (assign last (valueOf text)) scope

def run (lines : List String) (scope : Item) : Option Item := lines.foldlM execute scope

/-! ## Mappings -/

@[simp] theorem lookup_put_self (key : Key) (item : Item) (entries : List (Key × Item)) :
    (put key item entries).lookup key = some item := by
  induction entries with
  | nil => simp [put]
  | cons entry entries ih =>
    simp only [put]
    split
    · simp
    · next hne => rw [lookup_cons, beq_false_of_ne (Ne.symm hne), ih]

theorem lookup_put_of_ne {key other : Key} (hne : other ≠ key) (item : Item) (entries : List (Key × Item)) :
    (put key item entries).lookup other = entries.lookup other := by
  induction entries with
  | nil => simp [put, lookup_cons, beq_false_of_ne hne]
  | cons entry entries ih =>
    simp only [put]
    split
    · next heq =>
      subst heq
      rw [lookup_cons, lookup_cons, beq_false_of_ne hne]
    · rw [lookup_cons, lookup_cons, ih]

@[simp] theorem put_put (key : Key) (item second : Item) (entries : List (Key × Item)) :
    put key second (put key item entries) = put key second entries := by
  induction entries with
  | nil => simp [put]
  | cons entry entries ih =>
    simp only [put]
    split
    · simp [put]
    · next hne => simp [put, hne, ih]

theorem put_of_fresh {key : Key} {entries : List (Key × Item)} (hfresh : key ∉ entries.map Prod.fst)
    (item : Item) : put key item entries = entries ++ [(key, item)] := by
  induction entries with
  | nil => rfl
  | cons entry entries ih =>
    simp only [map_cons, mem_cons, not_or] at hfresh
    rw [put, if_neg (Ne.symm hfresh.1), ih hfresh.2, cons_append]

theorem alter_bind (keys : List Key) (change other : Item → Option Item) (item : Item) :
    (alter keys change item).bind (alter keys other) = alter keys (fun inner => (change inner).bind other) item := by
  induction keys generalizing item with
  | nil => rfl
  | cons key keys ih =>
    cases item with
    | code => rfl
    | mapping entries =>
      cases hinner : entries.lookup key with
      | none => simp [alter, Item.get?, hinner]
      | some inner =>
        have hstep := ih inner
        cases hchanged : alter keys change inner with
        | none =>
          rw [hchanged, bind_none] at hstep
          simp [alter, Item.get?, hinner, hchanged, ← hstep]
        | some changed =>
          rw [hchanged, bind_some] at hstep
          simp [alter, Item.get?, hinner, hchanged, assign, ← hstep]

theorem alter_append (keys more : List Key) (change : Item → Option Item) (item : Item) :
    alter (keys ++ more) change item = alter keys (alter more change) item := by
  induction keys generalizing item with
  | nil => rfl
  | cons key keys ih => simp only [cons_append, alter, ih]

/-! ## Lines -/

@[simp] theorem run_nil (scope : Item) : run [] scope = some scope := rfl

@[simp] theorem run_cons (line : String) (lines : List String) (scope : Item) :
    run (line :: lines) scope = (execute scope line).bind (run lines) := rfl

theorem run_append (first second : List String) (scope : Item) :
    run (first ++ second) scope = (run first scope).bind (run second) := by
  simp only [run, foldlM_append]
  rfl

def Plain (text : String) : Prop := MadeOf (fun c => !isBreakingChar c) text

def Targets (path : String) (keys : List Key) (last : Key) : Prop :=
  ∀ rest : List Char, (∀ c ∈ rest.head?, isIdentifierChar c = false) →
    readTarget (path ++ String.ofList rest) = targetFrom keys last .behind rest

theorem targets_variable (variable_ : String) (h : IsIdentifier variable_) :
    Targets variable_ [] (.name variable_) := by
  intro rest hrest
  have hstop : rest.head?.any isIdentifierChar = false := by
    cases rest with
    | nil => rfl
    | cons c rest => exact hrest c rfl
  obtain ⟨htake, hdrop⟩ := take_while_append h hstop
  simp only [readTarget, String.toList_append, String.toList_ofList, htake, hdrop, String.ofList_toList]

theorem target_from_text {text : List Char} (h : ∀ c ∈ text, isBreakingChar c = false)
    (keys : List Key) (last : Key) (letters rest : List Char) :
    targetFrom keys last (.text letters) (text ++ '\'' :: ']' :: rest) =
      targetFrom (keys ++ [last]) (.text (String.ofList (letters ++ text))) .behind rest := by
  induction text generalizing letters with
  | nil => simp [targetFrom]
  | cons c text ih =>
    have hc := h c mem_cons_self
    have hquote : c ≠ '\'' := by rintro rfl; simp [isBreakingChar] at hc
    rw [cons_append, targetFrom, hc, if_neg Bool.false_ne_true, append_cons letters c text]
    · exact ih (fun d hd => h d (mem_cons_of_mem _ hd)) _
    · rintro rest rfl; exact absurd rfl hquote

theorem target_from_name {name : List Char} (h : ∀ c ∈ name, (isIdentifierChar c || c == '.') = true)
    (keys : List Key) (last : Key) (letters rest : List Char) :
    targetFrom keys last (.name letters) (name ++ ']' :: rest) =
      targetFrom (keys ++ [last]) (.name (String.ofList (letters ++ name))) .behind rest := by
  induction name generalizing letters with
  | nil => simp [targetFrom]
  | cons c name ih =>
    have hc := h c mem_cons_self
    rw [cons_append, targetFrom, hc, if_pos rfl, append_cons letters c name]
    · exact ih (fun d hd => h d (mem_cons_of_mem _ hd)) _
    · rintro rfl; simp [isIdentifierChar] at hc

variable {path : String} {keys : List Key} {last : Key}

theorem Targets.text (h : Targets path keys last) {name : String} (hname : Plain name) :
    Targets (path ++ "[" ++ quoted name ++ "]") (keys ++ [last]) (.text name) := by
  intro rest _
  have hread := h ('[' :: '\'' :: (name.toList ++ '\'' :: ']' :: rest)) (by simp [isIdentifierChar])
  have hplain : ∀ c ∈ name.toList, isBreakingChar c = false := fun c hc => by simpa using hname c hc
  rw [targetFrom, target_from_text hplain, nil_append, String.ofList_toList] at hread
  rw [← hread]
  congr 1
  simp [String.ext_iff, quoted]

theorem Targets.name (h : Targets path keys last) {name : String}
    (hname : MadeOf (fun c => isIdentifierChar c || c == '.') name) :
    Targets (path ++ "[" ++ name ++ "]") (keys ++ [last]) (.name name) := by
  intro rest _
  have hread := h ('[' :: (name.toList ++ ']' :: rest)) (by simp [isIdentifierChar])
  have hquote : ∀ more, name.toList ++ ']' :: rest ≠ '\'' :: more := by
    intro more heq
    cases htext : name.toList with
    | nil => simp [htext] at heq
    | cons c text =>
      have hc := hname c (by simp [htext])
      simp only [htext, cons_append, cons.injEq] at heq
      simp [heq.1, isIdentifierChar] at hc
  rw [targetFrom.eq_2 _ _ _ hquote, target_from_name hname, nil_append, String.ofList_toList] at hread
  rw [← hread]
  congr 1
  simp [String.ext_iff]

theorem Targets.execute (h : Targets path keys last) (value : String) (scope : Item) :
    execute scope (path ++ " = " ++ value) = alter keys (assign last (valueOf value)) scope := by
  have hread := h (' ' :: '=' :: ' ' :: value.toList) (by simp [isIdentifierChar])
  rw [targetFrom, String.ofList_toList] at hread
  have hline : path ++ " = " ++ value = path ++ String.ofList (' ' :: '=' :: ' ' :: value.toList) := by
    simp [String.ext_iff]
  rw [Script.execute, hline, hread]
  rfl

theorem value_of_code {text : String} (h : text.toList.head? ≠ some 'O') : valueOf text = .code text := by
  refine if_neg ?_
  rintro rfl
  exact h rfl

theorem value_of_deferred (value : Expr) : valueOf (deferred value) = .code (deferred value) :=
  value_of_code (by simp [deferred])

theorem Targets.create (h : Targets path keys last) (scope : Item) :
    Script.execute scope (path ++ " = OrderedDict()") = alter keys (assign last (.mapping [])) scope := by
  rw [show path ++ " = OrderedDict()" = path ++ " = " ++ "OrderedDict()" by simp [String.ext_iff]]
  exact h.execute _ scope

/-! ## Arguments -/

def argumentName : Argument → String
  | .simple name _ => name
  | .record name _ => name

mutual

/-- What an argument stands for: its value, or the mapping of its fields. -/
def argumentItem : Argument → Item
  | .simple _ value => .code (deferred value)
  | .record _ fields => .mapping (argumentEntries fields)

def argumentEntries : List Argument → List (Key × Item)
  | [] => []
  | argument :: rest => (.text (argumentName argument), argumentItem argument) :: argumentEntries rest

end

mutual

/-- All names in an argument are plain, and the fields of a record have different names. -/
def Argument.Orderly : Argument → Prop
  | .simple name _ => Plain name
  | .record name fields => Plain name ∧ Arguments.Orderly fields

/-- All names in some arguments are plain, and siblings have different names. -/
def Arguments.Orderly : List Argument → Prop
  | [] => True
  | argument :: rest =>
    Argument.Orderly argument ∧ (∀ other ∈ rest, argumentName other ≠ argumentName argument) ∧ Arguments.Orderly rest

end

def assignAll : List Argument → Item → Option Item
  | [], item => some item
  | argument :: rest, item =>
    (assign (.text (argumentName argument)) (argumentItem argument) item).bind (assignAll rest)

theorem assign_all {arguments : List Argument} (h : Arguments.Orderly arguments) {entries : List (Key × Item)}
    (hfresh : ∀ argument ∈ arguments, .text (argumentName argument) ∉ entries.map Prod.fst) :
    assignAll arguments (.mapping entries) = some (.mapping (entries ++ argumentEntries arguments)) := by
  induction arguments generalizing entries with
  | nil => simp [assignAll, argumentEntries]
  | cons argument rest ih =>
    obtain ⟨_, hdistinct, hrest⟩ := h
    rw [assignAll, assign, put_of_fresh (hfresh argument mem_cons_self), bind_some, ih hrest]
    · simp [argumentEntries]
    · intro other hother
      simp only [map_append, map_cons, map_nil, mem_append, mem_singleton, not_or]
      exact ⟨hfresh other (mem_cons_of_mem _ hother), fun heq => hdistinct other hother (Key.text.inj heq)⟩

mutual

theorem run_argument : ∀ (argument : Argument), Argument.Orderly argument →
    ∀ {path : String} {keys : List Key} {last : Key}, Targets path keys last → ∀ scope,
      run (argumentLines path argument) scope =
        alter (keys ++ [last]) (assign (.text (argumentName argument)) (argumentItem argument)) scope
  | .simple name value, hname, path, keys, last, htarget, scope => by
    have hline : path ++ "[" ++ quoted name ++ "] = " ++ deferred value =
        path ++ "[" ++ quoted name ++ "]" ++ " = " ++ deferred value := by
      simp [String.ext_iff]
    rw [argumentLines, run_cons, hline, (htarget.text hname).execute, value_of_deferred]
    exact bind_fun_some _
  | .record name fields, h, path, keys, last, htarget, scope => by
    have hinner := htarget.text h.1
    have hline : path ++ "[" ++ quoted name ++ "] = OrderedDict()" =
        path ++ "[" ++ quoted name ++ "]" ++ " = OrderedDict()" := by
      simp [String.ext_iff]
    have hrun := fun (hne : fields ≠ []) scope => run_arguments fields h.2 hne hinner scope
    rw [argumentLines, run_cons, hline, hinner.create]
    by_cases hne : fields = []
    · subst hne
      exact bind_fun_some _
    · have hfields : run (argumentsLines (path ++ "[" ++ quoted name ++ "]") fields) =
          alter (keys ++ [last]) (alter [.text name] (assignAll fields)) := by
        funext scope
        rw [← alter_append, hrun hne]
      rw [hfields, alter_bind]
      congr 1
      funext item
      cases item with
      | code => rfl
      | mapping entries =>
        -- The new mapping is empty, so that every field comes last in it.
        have hfill := @assign_all fields h.2 [] (by simp)
        simp [assign, alter, Item.get?, hfill, argumentName, argumentItem]

theorem run_arguments : ∀ (arguments : List Argument), Arguments.Orderly arguments → arguments ≠ [] →
    ∀ {path : String} {keys : List Key} {last : Key}, Targets path keys last → ∀ scope,
      run (argumentsLines path arguments) scope = alter (keys ++ [last]) (assignAll arguments) scope
  | [], _, hne, _, _, _, _, _ => absurd rfl hne
  | argument :: rest, h, _, path, keys, last, htarget, scope => by
    have hfirst := run_argument argument h.1 htarget scope
    have hmore := fun (hne : rest ≠ []) scope => run_arguments rest h.2.2 hne htarget scope
    rw [argumentsLines, run_append, hfirst]
    by_cases hne : rest = []
    · subst hne
      simp only [argumentsLines, assignAll, bind_fun_some]
      exact bind_fun_some _
    · rw [show run (argumentsLines path rest) = _ from funext (hmore hne)]
      exact alter_bind _ _ _ scope

end

theorem run_directives {directives : List (String × Expr)} (h : ∀ directive ∈ directives, Plain directive.1)
    {bindings : List (Key × Item)} (hthere : ∃ entries, bindings.lookup (.name "directives") = some (.mapping entries)) :
    ∃ after, run (directives.map fun directive =>
        "directives[" ++ quoted directive.1 ++ "] = " ++ deferred directive.2) (.mapping bindings) =
          some (.mapping after) ∧
      ∀ key, key ≠ .name "directives" → after.lookup key = bindings.lookup key := by
  induction directives generalizing bindings with
  | nil => exact ⟨bindings, rfl, fun _ _ => rfl⟩
  | cons directive directives ih =>
    obtain ⟨entries, hentries⟩ := hthere
    have htarget := (targets_variable "directives" (by decide)).text (h directive mem_cons_self)
    have hline : "directives[" ++ quoted directive.1 ++ "] = " ++ deferred directive.2 =
        "directives" ++ "[" ++ quoted directive.1 ++ "]" ++ " = " ++ deferred directive.2 := by
      simp [String.ext_iff]
    have hput : execute (.mapping bindings) ("directives[" ++ quoted directive.1 ++ "] = " ++ deferred directive.2) =
        some (.mapping (put (.name "directives") (.mapping (put (.text directive.1)
          (.code (deferred directive.2)) entries)) bindings)) := by
      rw [hline, htarget.execute, value_of_deferred]
      simp [alter, Item.get?, hentries, assign]
    obtain ⟨after, hrun, hkept⟩ := @ih (fun other hother => h other (mem_cons_of_mem _ hother)) _
      ⟨_, lookup_put_self (.name "directives") _ bindings⟩
    refine ⟨after, ?_, fun key hkey => (hkept key hkey).trans (lookup_put_of_ne hkey _ _)⟩
    rw [map_cons, run_cons, hput, bind_some, hrun]

theorem run_call_arguments {call : ActivityCall} (h : Arguments.Orderly call.arguments)
    (bindings : List (Key × Item)) :
    ∃ after, run (["arguments = OrderedDict()", "directives = OrderedDict()"] ++
        argumentsLines "arguments" call.arguments) (.mapping bindings) = some (.mapping after) ∧
      after.lookup (.name "arguments") = some (.mapping (argumentEntries call.arguments)) ∧
      after.lookup (.name "directives") = some (.mapping []) := by
  have harguments := targets_variable "arguments" (by decide)
  have hdirectives := targets_variable "directives" (by decide)
  generalize hmade : put (.name "directives") (.mapping []) (put (.name "arguments") (.mapping []) bindings) = made
  have hstart : run ["arguments = OrderedDict()", "directives = OrderedDict()"] (.mapping bindings) =
      some (.mapping made) := by
    have hfirst := harguments.create (.mapping bindings)
    have hsecond := hdirectives.create (.mapping (put (.name "arguments") (.mapping []) bindings))
    rw [run_cons, show "arguments = OrderedDict()" = "arguments" ++ " = OrderedDict()" by rfl, hfirst]
    simp only [alter, assign, bind_some, run_cons, ← hmade,
      show "directives = OrderedDict()" = "directives" ++ " = OrderedDict()" by rfl, hsecond]
    rfl
  have hthere : made.lookup (.name "arguments") = some (.mapping []) := by
    rw [← hmade, lookup_put_of_ne (by decide), lookup_put_self]
  have hother : made.lookup (.name "directives") = some (.mapping []) := by
    rw [← hmade, lookup_put_self]
  rw [run_append, hstart, bind_some]
  by_cases hne : call.arguments = []
  · exact ⟨made, by simp [hne, argumentsLines], by rw [hthere, hne]; rfl, hother⟩
  · refine ⟨put (.name "arguments") (.mapping (argumentEntries call.arguments)) made, ?_, lookup_put_self _ _ _,
      (lookup_put_of_ne (by decide) _ _).trans hother⟩
    rw [run_arguments _ h hne harguments]
    simp [alter, Item.get?, hthere, @assign_all call.arguments h [] (by simp), assign]

def heaterCall : ActivityCall :=
  { activity := "Heater/Switch On"
    arguments :=
      [.simple "level" (.quantity "3"),
        .record "config" [.record "limits" [.simple "low" (.quantity "1")], .simple "mode" (.bool true)],
        .simple "unit" (.str "K")]
    directives := [("retry", .bool false)] }

/-- The action of the last case for a status. -/
def effective? (test : ContinuationTest) (status : ConfirmationStatus) : Option ContinuationAction :=
  test.reverse.lookup status

def raised? : ContinuationAction → Option String
  | .raiseEvent event => some event
  | _ => none

/-- The event of the last case that raises one. -/
def lastRaised? (test : ContinuationTest) : Option String := test.reverse.findSome? fun case => raised? case.2

def statusKey (status : ConfirmationStatus) : Key := .name (statusName status)

def actionItem (action : ContinuationAction) : Item := .code ("ContinuationAction." ++ actionName action)

/-- The bindings hold the cases so far: the statuses in the order in which they came first, each with the action
of its last case, and one event, that of the last case that raised one. -/
structure Tracks (done : ContinuationTest) (bindings entries : List (Key × Item)) : Prop where
  continuation : bindings.lookup (.name "continuation") = some (.mapping entries)
  statuses : entries.map Prod.fst = (done.map fun case => statusKey case.1).eraseDups
  actions : ∀ status, entries.lookup (statusKey status) = (effective? done status).map actionItem
  event : bindings.lookup (.name "raise_event") = some (.code ((lastRaised? done).elim "None" quoted))

theorem keys_put (key : Key) (item : Item) (entries : List (Key × Item)) : (put key item entries).map Prod.fst =
      if key ∈ entries.map Prod.fst then entries.map Prod.fst else entries.map Prod.fst ++ [key] := by
  induction entries with
  | nil => simp [put]
  | cons entry entries ih =>
    by_cases heq : entry.1 = key
    · simp [put, heq]
    · simp only [put, heq, if_false, map_cons, ih, mem_cons, Ne.symm heq, false_or]
      split <;> simp

theorem status_key_inj {first second : ConfirmationStatus} (h : statusKey first = statusKey second) :
    first = second := by
  cases first <;> cases second <;> first | rfl | exact absurd h (by decide)

theorem action_item_eq (action : ContinuationAction) :
    valueOf ("ContinuationAction." ++ actionName action) = actionItem action :=
  value_of_code (by simp)

theorem value_of_quoted (text : String) : valueOf (quoted text) = .code (quoted text) :=
  value_of_code (by simp [quoted])

theorem continuation_case_eq (status : ConfirmationStatus) (action : ContinuationAction) :
    continuationCase status action = ((raised? action).toList.map fun event => "raise_event" ++ " = " ++ quoted event) ++
      ["continuation" ++ "[" ++ statusName status ++ "]" ++ " = " ++ ("ContinuationAction." ++ actionName action)] := by
  have hline : "continuation[" ++ statusName status ++ "] = ContinuationAction." ++ actionName action =
      "continuation" ++ "[" ++ statusName status ++ "]" ++ " = " ++ ("ContinuationAction." ++ actionName action) := by
    simp [String.ext_iff]
  rw [← hline]
  cases action <;> rfl

theorem Tracks.case {done : ContinuationTest} {bindings entries : List (Key × Item)} (h : Tracks done bindings entries)
    (status : ConfirmationStatus) (action : ContinuationAction) :
    ∃ after more, run (continuationCase status action) (.mapping bindings) = some (.mapping after) ∧
      Tracks (done ++ [(status, action)]) after more := by
  have hevent := targets_variable "raise_event" (by decide)
  have htarget := (targets_variable "continuation" (by decide)).name
    (show MadeOf (fun c => isIdentifierChar c || c == '.') (statusName status) by cases status <;> decide)
  -- The event is assigned first, if there is one; it does not touch the mapping.
  obtain ⟨raised, hraised, hkept, htext⟩ : ∃ raised, run ((raised? action).toList.map fun event =>
      "raise_event" ++ " = " ++ quoted event) (.mapping bindings) = some (.mapping raised) ∧
      raised.lookup (.name "continuation") = some (.mapping entries) ∧
      raised.lookup (.name "raise_event") =
        some (.code ((lastRaised? (done ++ [(status, action)])).elim "None" quoted)) := by
    cases hcase : raised? action with
    | none => exact ⟨bindings, rfl, h.continuation, by simp [lastRaised?, hcase, h.event]⟩
    | some event =>
      refine ⟨put (.name "raise_event") (.code (quoted event)) bindings, ?_,
        (lookup_put_of_ne (by decide) _ _).trans h.continuation, ?_⟩
      · rw [toList_some, map_singleton, run_cons, hevent.execute, value_of_quoted]
        rfl
      · rw [lookup_put_self]
        simp [lastRaised?, hcase]
  refine ⟨put (.name "continuation") (.mapping (put (statusKey status) (actionItem action) entries)) raised,
    put (statusKey status) (actionItem action) entries, ?_, lookup_put_self _ _ _, ?_, fun other => ?_,
    (lookup_put_of_ne (by decide) _ _).trans htext⟩
  · rw [continuation_case_eq, run_append, hraised, bind_some, run_cons, htarget.execute, action_item_eq]
    simp [alter, Item.get?, hkept, assign, statusKey]
  · rw [keys_put, h.statuses, map_append, eraseDups_append, map_singleton]
    simp only [mem_eraseDups, List.removeAll, filter_cons, filter_nil, elem_eq_mem]
    split
    · next hmem => simp [hmem]
    · next hmem => simp [hmem, eraseDups_cons]
  · by_cases heq : other = status
    · subst heq
      simp [effective?]
    · rw [lookup_put_of_ne fun hkey => heq (status_key_inj hkey), h.actions]
      simp [effective?, lookup_cons, beq_false_of_ne heq]

theorem Tracks.cases {done : ContinuationTest} (test : ContinuationTest) {bindings entries : List (Key × Item)}
    (h : Tracks done bindings entries) :
    ∃ after more, run (test.flatMap fun case => continuationCase case.1 case.2) (.mapping bindings) =
      some (.mapping after) ∧ Tracks (done ++ test) after more := by
  induction test generalizing done bindings entries with
  | nil => exact ⟨bindings, entries, rfl, by rwa [append_nil]⟩
  | cons case test ih =>
    obtain ⟨after, more, hfirst, htracks⟩ := h.case case.1 case.2
    obtain ⟨last, others, hrest, hlast⟩ := ih htracks
    refine ⟨last, others, ?_, by rwa [append_assoc] at hlast⟩
    rw [flatMap_cons, run_append, hfirst, bind_some, hrest]

theorem run_continuation (test : ContinuationTest) (bindings : List (Key × Item)) :
    ∃ after entries, run (continuationLines test) (.mapping bindings) = some (.mapping after) ∧
      Tracks test after entries := by
  have hmapping := targets_variable "continuation" (by decide)
  have hevent := targets_variable "raise_event" (by decide)
  have hstart : Tracks [] (put (.name "raise_event") (.code "None")
      (put (.name "continuation") (.mapping []) bindings)) [] :=
    ⟨(lookup_put_of_ne (by decide) _ _).trans (lookup_put_self _ _ _), rfl, fun _ => rfl, lookup_put_self _ _ _⟩
  obtain ⟨after, entries, hrun, htracks⟩ := hstart.cases test
  refine ⟨after, entries, ?_, htracks⟩
  have hfirst := hmapping.create (.mapping bindings)
  have hsecond := hevent.execute "None" (.mapping (put (.name "continuation") (.mapping []) bindings))
  rw [continuationLines, run_append, run_cons,
    show "continuation = OrderedDict()" = "continuation" ++ " = OrderedDict()" by rfl, hfirst]
  simp only [alter, assign, bind_some, run_cons, run_nil,
    show "raise_event = None" = "raise_event" ++ " = " ++ "None" by rfl, hsecond]
  exact hrun

theorem quoted_inj {first second : String} (h : quoted first = quoted second) : first = second := by
  simpa [quoted, String.ext_iff] using h

/-- The lines of a continuation test map each status to the action of its last case, in the order in which the
statuses came first, and leave the event of the last case that raises one. So the event of a status is there if
and only if it is that one. -/
theorem continuation_built (test : ContinuationTest) (bindings : List (Key × Item)) :
    ∃ after entries, run (continuationLines test) (.mapping bindings) = some (.mapping after) ∧
      Tracks test after entries ∧
      ∀ status event, effective? test status = some (.raiseEvent event) →
        (after.lookup (.name "raise_event") = some (.code (quoted event)) ↔ lastRaised? test = some event) := by
  obtain ⟨after, entries, hrun, htracks⟩ := run_continuation test bindings
  refine ⟨after, entries, hrun, htracks, fun status event _ => ?_⟩
  rw [htracks.event]
  cases lastRaised? test with
  | none =>
    have hnone : "None" ≠ quoted event := by simp [quoted, String.ext_iff]
    simp [hnone]
  | some last => exact ⟨fun h => congrArg some (quoted_inj (by simpa using h)), fun h => by cases h; rfl⟩

/-- Of two events the first is lost, also when the second one's status has another action in the end. -/
theorem events_merged :
    (effective? [(.confirmed, .raiseEvent "A"), (.aborted, .raiseEvent "B")] .confirmed = some (.raiseEvent "A") ∧
      ∀ scope, run (continuationLines [(.confirmed, .raiseEvent "A"), (.aborted, .raiseEvent "B")]) (.mapping []) =
        some scope → scope.get? (.name "raise_event") ≠ some (.code (quoted "A"))) ∧
    (effective? [(.confirmed, .raiseEvent "A"), (.aborted, .raiseEvent "B"), (.aborted, .resume)] .confirmed =
        some (.raiseEvent "A") ∧
      ∀ scope, run (continuationLines [(.confirmed, .raiseEvent "A"), (.aborted, .raiseEvent "B"),
        (.aborted, .resume)]) (.mapping []) = some scope →
          scope.get? (.name "raise_event") ≠ some (.code (quoted "A"))) := by
  have hlost : ∀ test scope, lastRaised? test = some "B" → run (continuationLines test) (.mapping []) = some scope →
      scope.get? (.name "raise_event") ≠ some (.code (quoted "A")) := by
    intro test scope hlast hrun
    obtain ⟨after, entries, hafter, htracks⟩ := run_continuation test []
    cases hafter.symm.trans hrun
    rw [Item.get?, htracks.event, hlast]
    simp [quoted]
  exact ⟨⟨rfl, fun scope => hlost _ scope rfl⟩, rfl, fun scope => hlost _ scope rfl⟩

end FlightProcedure.Script
