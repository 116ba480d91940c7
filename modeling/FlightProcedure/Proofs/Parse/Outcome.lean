import FlightProcedure.Parse.Run

/-!
# The outcome of a parse

The tree of a derivation is refused exactly if some node of the derivation has rivals, and then for the
first such node in pre-order. `Grammar.parseRule` takes the first derivation that reads the whole source
and reports something unexpected if there is none.
-/

namespace FlightProcedure

open List

namespace Derivation

mutual

/-- The rules that are matched in a derivation, each before those that it consists of. -/
def nodes : Derivation → List Derivation
  | .token _ _ _ => []
  | .node rule start stop span children rivals =>
    .node rule start stop span children rivals :: nodesAll children

def nodesAll : List Derivation → List Derivation
  | [] => []
  | derivation :: rest => derivation.nodes ++ nodesAll rest

end

theorem nodes_all_append (first second : List Derivation) :
    nodesAll (first ++ second) = nodesAll first ++ nodesAll second := by
  induction first with
  | nil => rfl
  | cons derivation rest ih => simp only [cons_append, nodesAll, ih, append_assoc]

end Derivation

variable {input : Input} {derivations : List Derivation} {derivation : Derivation}

namespace Input

def ambiguity? (input : Input) : Derivation → Option ParseError
  | .token _ _ _ => none
  | .node id pos _ span children rivals =>
    if rivals.isEmpty then none
    else
      let (start, stop) := span.getD (pos, pos)
      some (.ambiguous (input.ruleName id) start stop ((children :: rivals).map input.describe))

/-- Without a cause there is a result, and with a cause the cause is the error. -/
def Settles {α : Type} (result : Except ParseError α) : Option ParseError → Prop
  | none => ∃ value, result = .ok value
  | some cause => result = .error cause

variable {α β : Type} {result : Except ParseError α} {cause other : Option ParseError}

theorem Settles.bind {next : α → Except ParseError β} (h : Settles result cause)
    (hnext : ∀ value, Settles (next value) other) : Settles (result >>= next) (cause.or other) := by
  cases cause with
  | some cause =>
    cases h
    rfl
  | none =>
    obtain ⟨value, rfl⟩ := h
    exact hnext value

theorem Settles.map {f : α → β} (h : Settles result cause) : Settles (result >>= fun value => .ok (f value)) cause := by
  have hmap : Settles (result >>= fun value => .ok (f value)) (cause.or none) := h.bind fun value => ⟨f value, rfl⟩
  rwa [Option.or_none] at hmap

mutual

theorem tree_of_settles (input : Input) : ∀ derivation : Derivation,
    Settles (input.treeOf derivation) (derivation.nodes.findSome? input.ambiguity?)
  | .token id start stop => by
    rw [treeOf]
    exact ⟨_, rfl⟩
  | .node id pos stop span children rivals => by
    rw [treeOf, Derivation.nodes, findSome?_cons, ambiguity?]
    by_cases hrivals : rivals.isEmpty = true
    · simp only [hrivals, if_true]
      exact (trees_of_settles input _ children).map
    · simp only [hrivals, Bool.false_eq_true, if_false]
      rfl

theorem trees_of_settles (input : Input) (keepTokens : Bool) : ∀ children : List Derivation,
    Settles (input.treesOf keepTokens children)
      ((Derivation.nodesAll children).findSome? input.ambiguity?)
  | [] => by
    rw [treesOf]
    exact ⟨[], rfl⟩
  | .token id start stop :: rest => by
    rw [treesOf]
    exact (trees_of_settles input keepTokens rest).map
  | .node id pos stop span children rivals :: rest => by
    rw [treesOf, Derivation.nodesAll, findSome?_append]
    exact (tree_of_settles input (.node id pos stop span children rivals)).bind
      fun tree => (trees_of_settles input keepTokens rest).map

end

def readsAll (input : Input) (derivation : Derivation) : Bool := input.skip derivation.stop = input.size

theorem select_eq_tree (h : derivations.find? input.readsAll = some derivation) (furthest : Furthest) :
    input.select furthest derivations = input.treeOf derivation := by
  induction derivations generalizing furthest with
  | nil => cases h
  | cons first rest ih =>
    rw [find?_cons] at h
    rw [select]
    by_cases hall : input.skip first.stop = input.size
    · simp only [readsAll, hall, decide_true] at h
      cases h
      rw [if_pos hall]
    · simp only [readsAll, hall, decide_false] at h
      rw [if_neg hall]
      exact ih h _

theorem select_eq_unexpected (h : derivations.find? input.readsAll = none) (furthest : Furthest) :
    ∃ last, input.select furthest derivations = .error (input.unexpected last) := by
  induction derivations generalizing furthest with
  | nil => exact ⟨furthest, rfl⟩
  | cons first rest ih =>
    rw [find?_eq_none] at h
    have hfirst : ¬ input.skip first.stop = input.size := by
      simpa [readsAll] using h first (by simp)
    rw [select, if_neg hfirst]
    exact ih (find?_eq_none.mpr fun other hother => h other (by simp [hother])) _

theorem ambiguity_eq_none_iff {id pos stop : Nat} {span : Option (Nat × Nat)} {children : List Derivation}
    {rivals : List (List Derivation)} :
    input.ambiguity? (.node id pos stop span children rivals) = none ↔ rivals = [] := by
  rw [ambiguity?, ← List.isEmpty_iff]
  split <;> simp_all

theorem ambiguity_eq_some {cause : ParseError} (h : input.ambiguity? derivation = some cause) :
    ∃ id pos stop span children rivals, derivation = .node id pos stop span children rivals ∧
      rivals ≠ [] ∧ ∃ first last ways, cause = .ambiguous (input.ruleName id) first last ways := by
  cases derivation with
  | token => cases h
  | node id pos stop span children rivals =>
    rw [ambiguity?] at h
    split at h
    · cases h
    · next hrivals =>
      cases h
      exact ⟨id, pos, stop, span, children, rivals, rfl, by simpa using hrivals, _, _, _, rfl⟩

end Input

/-- A parse yields a tree or finds a rule that is ambiguous. -/
def ParsesOrClashes {α : Type} (result : Except ParseError α) : Prop :=
  (∃ tree, result = .ok tree) ∨ ∃ rule start stop ways, result = .error (.ambiguous rule start stop ways)

def IsUnexpected {α : Type} (result : Except ParseError α) : Prop :=
  ∃ offset line column expected found, result = .error (.unexpected offset line column expected found)

theorem ParsesOrClashes.not_unexpected {α : Type} {result : Except ParseError α}
    (h : ParsesOrClashes result) : ¬ IsUnexpected result := by
  rintro ⟨offset, line, column, expected, found, rfl⟩
  rcases h with ⟨tree, htree⟩ | ⟨rule, start, stop, ways, hways⟩
  · cases htree
  · cases hways

theorem select_parses_or_clashes (hmem : derivation ∈ derivations)
    (hall : input.skip derivation.stop = input.size) (furthest : Furthest) :
    ParsesOrClashes (input.select furthest derivations) := by
  obtain ⟨first, hfirst⟩ : ∃ first, derivations.find? input.readsAll = some first := by
    rw [← Option.isSome_iff_exists, find?_isSome]
    exact ⟨derivation, hmem, by simp [Input.readsAll, hall]⟩
  rw [Input.select_eq_tree hfirst]
  have hsettles := input.tree_of_settles first
  cases hcause : first.nodes.findSome? input.ambiguity? with
  | none =>
    rw [hcause] at hsettles
    exact .inl hsettles
  | some cause =>
    rw [hcause] at hsettles
    obtain ⟨node, _, hnode⟩ := exists_of_findSome?_eq_some hcause
    obtain ⟨_, _, _, _, _, _, _, _, start, stop, ways, rfl⟩ := Input.ambiguity_eq_some hnode
    exact .inr ⟨_, start, stop, ways, hsettles⟩

end FlightProcedure
