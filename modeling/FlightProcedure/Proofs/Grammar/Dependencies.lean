import FlightProcedure.Grammar.Import
import FlightProcedure.Proofs.Outcome

/-!
# What a rule depends on

`Definitions.dependencies_closed` says that the names that a root depends on have definitions and that the
definitions refer to such names only. The fuel of the search is enough because every definition is followed
once, so that no more references are opened than there are.
-/

namespace FlightProcedure.Definitions

open List

/-- The names that were seen have definitions, and what these refer to was seen or is pending. -/
def Closing (defs : Definitions) (pending : List Reference) (seen : List String) : Prop :=
  ∀ name ∈ seen, ∃ definition, defs.get? name = some definition ∧
    ∀ symbol ∈ definition.body.symbols, symbol ∈ seen ∨ ∃ reference ∈ pending, reference.name = symbol

/-- The number of references in the definitions that were not followed yet. -/
def openReferences (seen : List String) : List Definition → Nat
  | [] => 0
  | definition :: rest =>
    (if definition.name ∈ seen then 0 else definition.body.symbols.length) + openReferences seen rest

variable {defs : Definitions} {seen : List String} {definitions : List Definition}

theorem open_references_mono (name : String) :
    openReferences (name :: seen) definitions ≤ openReferences seen definitions := by
  induction definitions with
  | nil => exact Nat.le_refl _
  | cons definition rest ih =>
    simp only [openReferences, mem_cons]
    by_cases hseen : definition.name ∈ seen
    · simpa [hseen] using ih
    · rw [if_neg hseen]
      split <;> omega

theorem open_references_follow {definition : Definition} (hmem : definition ∈ definitions)
    (hfresh : definition.name ∉ seen) :
    openReferences (definition.name :: seen) definitions + definition.body.symbols.length ≤
      openReferences seen definitions := by
  induction definitions with
  | nil => cases hmem
  | cons first rest ih =>
    rw [openReferences, openReferences]
    rcases mem_cons.mp hmem with rfl | hmem
    · have hrest := @open_references_mono seen rest definition.name
      rw [if_pos mem_cons_self, if_neg hfresh]
      omega
    · have hrest := ih hmem
      have hfirst : (if first.name ∈ definition.name :: seen then 0 else first.body.symbols.length) ≤
          if first.name ∈ seen then 0 else first.body.symbols.length := by
        by_cases hseen : first.name ∈ seen
        · simp [hseen]
        · rw [if_neg hseen]
          split <;> omega
      omega

theorem open_references_nil : openReferences [] defs.toList = defs.referenceCount := by
  have hsum : ∀ (definitions : List Definition) (count : Nat),
      definitions.foldl (fun count definition => count + definition.body.symbols.length) count =
        count + openReferences [] definitions := by
    intro definitions
    induction definitions with
    | nil => exact fun count => rfl
    | cons definition rest ih =>
      intro count
      rw [foldl_cons, ih, openReferences, if_neg not_mem_nil]
      omega
  rw [referenceCount, hsum, Nat.zero_add]

theorem Closing.skip {reference : Reference} {rest : List Reference}
    (h : defs.Closing (reference :: rest) seen) (hseen : reference.name ∈ seen) :
    defs.Closing rest seen := by
  intro name hname
  obtain ⟨definition, hdefinition, hsymbols⟩ := h name hname
  refine ⟨definition, hdefinition, fun symbol hsymbol => ?_⟩
  rcases hsymbols symbol hsymbol with hsymbol | ⟨other, hother, rfl⟩
  · exact .inl hsymbol
  · rcases mem_cons.mp hother with rfl | hother
    · exact .inl hseen
    · exact .inr ⟨other, hother, rfl⟩

/-- A reference to a new name is replaced by the references of its definition. -/
theorem Closing.follow {reference : Reference} {rest : List Reference} {definition : Definition}
    (h : defs.Closing (reference :: rest) seen)
    (hdefinition : defs.get? reference.name = some definition) :
    defs.Closing (referencesOf definition ++ rest) (reference.name :: seen) := by
  intro name hname
  rcases mem_cons.mp hname with rfl | hname
  · refine ⟨definition, hdefinition, fun symbol hsymbol => .inr ?_⟩
    refine ⟨⟨symbol, definition.name⟩, mem_append_left _ ?_, rfl⟩
    rw [referencesOf, mem_reverse]
    exact mem_map_of_mem hsymbol
  · obtain ⟨known, hknown, hsymbols⟩ := h name hname
    refine ⟨known, hknown, fun symbol hsymbol => ?_⟩
    rcases hsymbols symbol hsymbol with hsymbol | ⟨other, hother, rfl⟩
    · exact .inl (mem_cons_of_mem _ hsymbol)
    · rcases mem_cons.mp hother with rfl | hother
      · exact .inl mem_cons_self
      · exact .inr ⟨other, mem_append_right _ hother, rfl⟩

theorem reach_closed {fuel : Nat} {pending : List Reference} {needed : List String}
    (h : defs.reach fuel pending seen = .ok needed) (hclosing : defs.Closing pending seen)
    (hfuel : pending.length + openReferences seen defs.toList ≤ fuel) :
    (∀ name ∈ seen, name ∈ needed) ∧ (∀ reference ∈ pending, reference.name ∈ needed) ∧ defs.Closing [] needed := by
  induction fuel generalizing pending seen with
  | zero =>
    cases h
    obtain rfl : pending = [] := eq_nil_of_length_eq_zero (by omega)
    exact ⟨fun _ h => h, fun _ h => (not_mem_nil h).elim, hclosing⟩
  | succ fuel ih =>
    cases pending with
    | nil =>
      cases h
      exact ⟨fun _ h => h, fun _ h => (not_mem_nil h).elim, hclosing⟩
    | cons reference rest =>
      rw [reach] at h
      rw [length_cons] at hfuel
      split at h
      · next hseen =>
        obtain ⟨hold, hrest, hneeded⟩ := ih h (hclosing.skip hseen) (by omega)
        exact ⟨hold, forall_mem_cons.mpr ⟨hold _ hseen, hrest⟩, hneeded⟩
      · next hfresh =>
        split at h
        · cases h
        · next definition hdefinition =>
          have hname : definition.name = reference.name := by
            simpa using find?_some hdefinition
          have hopen := open_references_follow (mem_of_find?_eq_some hdefinition)
            (hname ▸ hfresh)
          rw [hname] at hopen
          obtain ⟨hold, hrest, hneeded⟩ := ih h (hclosing.follow hdefinition) (by
            rw [length_append, referencesOf, length_reverse, length_map]
            omega)
          refine ⟨fun name hmem => hold name (mem_cons_of_mem _ hmem), ?_, hneeded⟩
          exact forall_mem_cons.mpr ⟨hold _ mem_cons_self, fun other hother => hrest other (mem_append_right _ hother)⟩

theorem dependencies_closed {root : String} {needed : List String} (h : defs.dependencies root = .ok needed) :
    root ∈ needed ∧ ∀ name ∈ needed, ∃ definition, defs.get? name = some definition ∧
      ∀ symbol ∈ definition.body.symbols, symbol ∈ needed := by
  have hfuel : [Reference.mk root root].length + openReferences [] defs.toList ≤
      defs.referenceCount + 2 := by
    rw [open_references_nil, length_singleton]
    omega
  obtain ⟨-, hroot, hclosed⟩ := reach_closed h (fun _ hname => nomatch hname) hfuel
  refine ⟨hroot _ mem_cons_self, fun name hname => ?_⟩
  obtain ⟨definition, hdefinition, hsymbols⟩ := hclosed name hname
  refine ⟨definition, hdefinition, fun symbol hsymbol => ?_⟩
  rcases hsymbols symbol hsymbol with hsymbol | ⟨_, hother, _⟩
  · exact hsymbol
  · cases hother

end FlightProcedure.Definitions
