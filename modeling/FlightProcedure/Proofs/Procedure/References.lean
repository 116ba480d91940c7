import FlightProcedure.Procedure.OfTree
import FlightProcedure.Proofs.Outcome

/-!
# References between declarations

A declaration refers to others by their keys: a class and a conditional list statements, and a step
statement names a class. `Procedure.Closed` says that every reference leads to a declaration and that no
statement is listed twice, `Procedure.Rooted` that the references form a tree below the class of the
procedure.

While a tree is read, the keys of statements that are declared but not listed yet are carried by the
meanings of its parts. `keysOf` says which ones.
-/

namespace FlightProcedure

open Declaration

def StepClass.listed (definition : StepClass) : List String := definition.bodies.flatMap (·.statements)

namespace Declaration

def listed : Declaration → List String
  | .statement _ (.conditional _ thenBranch elseBranch) => thenBranch ++ elseBranch
  | .statement _ _ => []
  | .step definition => definition.listed

def stepClass? : Declaration → Option String
  | .statement _ (.initiateAndConfirmStep stepClass _ _) => some stepClass
  | _ => none

def statementKey? : Declaration → Option String
  | .statement key _ => some key
  | .step _ => none

def className? : Declaration → Option String
  | .statement _ _ => none
  | .step definition => some definition.name

def references (declaration : Declaration) : List String := declaration.stepClass?.toList ++ declaration.listed

end Declaration

/-- `ReachedFrom declarations roots key` says that references lead from one of the roots to the key. -/
inductive ReachedFrom (declarations : List Declaration) (roots : List String) : String → Prop where
  | root {key : String} (hroot : key ∈ roots) : ReachedFrom declarations roots key
  | reference {key : String} {declaration : Declaration} (hdeclared : declaration ∈ declarations)
      (hreached : ReachedFrom declarations roots declaration.key)
      (hkey : key ∈ declaration.references) : ReachedFrom declarations roots key

namespace Procedure

def listed (procedure : Procedure) : List String :=
  procedure.declarations.flatMap Declaration.listed ++ procedure.main.listed

/-- Every reference of the procedure leads to a declaration of the right kind. -/
structure Closed (procedure : Procedure) : Prop where
  keys_nodup : (procedure.declarations.map key).Nodup
  listed_declared : ∀ key ∈ procedure.listed, ∃ statement, Declaration.statement key statement ∈ procedure.declarations
  listed_nodup : procedure.listed.Nodup
  class_declared : ∀ key stepClass watchdog continuation,
    statement key (.initiateAndConfirmStep stepClass watchdog continuation) ∈
      procedure.declarations →
    ∃ definition, step definition ∈ procedure.declarations ∧ definition.name = stepClass

/-- The references of the procedure form a tree below its class: each declaration is referred to once
and can be reached. -/
structure Rooted (procedure : Procedure) : Prop where
  listed_once : ∀ key statement,
    Declaration.statement key statement ∈ procedure.declarations → procedure.listed.count key = 1
  named_once : ∀ definition, step definition ∈ procedure.declarations →
    (procedure.declarations.filterMap stepClass?).count definition.name = 1
  reached : ∀ declaration ∈ procedure.declarations,
    ReachedFrom procedure.declarations procedure.main.listed declaration.key

end Procedure

def Value.keys : Value → List String
  | .key found => [found]
  | .body found => found.statements
  | .bodies found => found.flatMap (·.statements)
  | .procedure main => main.listed
  | _ => []

def keysOf (values : List Value) : List String := values.flatMap Value.keys

@[simp] theorem keys_of_nil : keysOf [] = [] := rfl

@[simp] theorem keys_of_cons (value : Value) (values : List Value) :
    keysOf (value :: values) = value.keys ++ keysOf values := rfl

def Carries {α : Type} (pick : Value → Option α) (keys : α → List String) : Prop :=
  ∀ value found, pick value = some found → value.keys = keys found

abbrev Keyless {α : Type} (pick : Value → Option α) : Prop := Carries pick fun _ => []

@[simp] theorem keyless_picks : Keyless Value.expr? ∧ Keyless Value.name? ∧ Keyless Value.text? ∧
    Keyless Value.dataType? ∧ Keyless Value.continuation? ∧ Keyless Value.timeout? ∧ Keyless Value.activityCall? := by
  refine ⟨?_, ?_, ?_, ?_, ?_, ?_, ?_⟩
  all_goals
    intro value found h
    cases value <;> cases h <;> rfl

section

variable {α : Type} {site : Site} {what : String} {pick : Value → Option α} {keys : α → List String}
  {values rest : List Value}

theorem take_eq_ok {found : α} (h : site.take what pick values = .ok (found, rest)) :
    ∃ value, values = value :: rest ∧ pick value = some found := by
  cases values with
  | nil => cases h
  | cons value others =>
    simp only [Site.take] at h
    split at h
    · next hpick =>
      cases h
      exact ⟨value, rfl, hpick⟩
    · cases h

theorem take_all_eq_ok {found : List α} (h : site.takeAll what pick values = .ok found) :
    values.map pick = found.map some := by
  induction values generalizing found with
  | nil =>
    cases h
    rfl
  | cons value others ih =>
    simp only [Site.takeAll] at h
    split at h
    · next first hfirst =>
      obtain ⟨rest, hrest, hfound⟩ := bind_eq_ok h
      cases hfound
      simp [hfirst, ih hrest]
    · cases h

theorem finish_eq_ok (h : site.finish values = .ok ()) : values = [] := by
  cases values with
  | nil => rfl
  | cons value others => cases h

theorem keys_of_take {found : α} (hpick : Carries pick keys) (h : site.take what pick values = .ok (found, rest)) :
    keysOf values = keys found ++ keysOf rest := by
  obtain ⟨value, rfl, hvalue⟩ := take_eq_ok h
  rw [keys_of_cons, hpick value found hvalue]

theorem keyless_take {found : α} (hpick : Keyless pick) (h : site.take what pick values = .ok (found, rest))
    (hrest : keysOf rest = []) : keysOf values = [] :=
  (keys_of_take hpick h).trans hrest

theorem keyless_finish (h : site.finish values = .ok ()) : keysOf values = [] := by
  rw [finish_eq_ok h, keys_of_nil]

theorem keys_of_take_if (hpick : Keyless pick) (values : List Value) :
    keysOf (takeIf pick values).2 = keysOf values := by
  cases values with
  | nil => rfl
  | cons value others =>
    simp only [takeIf]
    split
    · next found hvalue => simp [hpick value found hvalue]
    · rfl

theorem keys_of_tail (hpick : Keyless pick) (h : site.finish (takeIf pick values).2 = .ok ()) : keysOf values = [] := by
  rw [← keys_of_take_if hpick values, keyless_finish h]

theorem flat_map_of_take_all {β : Type} {view : Value → List β} {seen : α → List β} {found : List α}
    (hpick : ∀ value found, pick value = some found → view value = seen found)
    (h : site.takeAll what pick values = .ok found) : values.flatMap view = found.flatMap seen := by
  have hmap := take_all_eq_ok h
  clear h
  induction values generalizing found with
  | nil =>
    cases found with
    | nil => rfl
    | cons first others => cases hmap
  | cons value values ih =>
    cases found with
    | nil => cases hmap
    | cons first others =>
      simp only [List.map_cons, List.cons.injEq] at hmap
      rw [List.flatMap_cons, hpick value first hmap.1, ih hmap.2, List.flatMap_cons]

theorem keys_of_take_all {found : List α} (hpick : Carries pick keys)
    (h : site.takeAll what pick values = .ok found) : keysOf values = found.flatMap keys :=
  flat_map_of_take_all hpick h

end

theorem carries_key : Carries Value.key? fun key => [key] := by
  intro value found h
  cases value <;> cases h
  rfl

theorem carries_body : Carries Value.body? StatementList.statements := by
  intro value found h
  cases value <;> cases h
  rfl

theorem carries_bodies : Carries Value.bodies? fun bodies => bodies.flatMap (·.statements) := by
  intro value found h
  cases value <;> cases h
  rfl

end FlightProcedure
