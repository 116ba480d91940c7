import FlightProcedure.Proofs.Grammar.Dependencies
import FlightProcedure.Proofs.Language.Importing
import Mathlib.Data.List.Nodup

/-!
# An import takes what the root depends on

`Definitions.Reaches` follows the names in bodies from a root. The search finds these names if all of them
are defined (`dependencies_reach`), and an import takes over their definitions and no others. It fails before
anything is taken over: `run_import_into`.
-/

namespace FlightProcedure.Definitions

open List

variable {defs other : Definitions} {space root name : String}

/-- `defs.Reaches root name` says that the bodies of definitions lead from the root to the name. -/
inductive Reaches (defs : Definitions) (root : String) : String → Prop where
  | root : Reaches defs root root
  | step {definition : Definition} {symbol : String} (hfrom : Reaches defs root definition.name)
      (hmem : definition ∈ defs.toList) (hsymbol : symbol ∈ definition.body.symbols) : Reaches defs root symbol

theorem get_eq_none_iff : defs.get? name = none ↔ ∀ definition ∈ defs.toList, definition.name ≠ name := by
  simp [get?]

theorem reach_reaches {fuel : Nat} {pending : List Reference} {seen : List String}
    (hpending : ∀ reference ∈ pending, defs.Reaches root reference.name)
    (hseen : ∀ name ∈ seen, defs.Reaches root name) :
    Ends (fun needed => ∀ name ∈ needed, defs.Reaches root name)
      (fun _ => ∃ name, defs.Reaches root name ∧ defs.get? name = none) (defs.reach fuel pending seen) := by
  fun_induction reach defs fuel pending seen with
  | case1 | case2 => exact hseen
  | case3 fuel reference rest seen _ ih => exact ih (forall_mem_cons.mp hpending).2 hseen
  | case4 fuel reference rest seen _ hnone => exact ⟨reference.name, hpending _ mem_cons_self, hnone⟩
  | case5 fuel reference rest seen _ definition hdefinition ih =>
    obtain ⟨hreference, hrest⟩ := forall_mem_cons.mp hpending
    refine ih (fun new hnew => ?_) (forall_mem_cons.mpr ⟨hreference, hseen⟩)
    rcases mem_append.mp hnew with hnew | hnew
    · rw [referencesOf, mem_reverse, mem_map] at hnew
      obtain ⟨symbol, hsymbol, rfl⟩ := hnew
      have hname : definition.name = reference.name := by simpa using find?_some hdefinition
      exact .step (hname ▸ hreference) (mem_of_find?_eq_some hdefinition) hsymbol
    · exact hrest new hnew

/-- Names are distinct, so a definition is the one that is found under its name. -/
theorem get_eq_some (hnodup : (defs.toList.map (·.name)).Nodup) {definition found : Definition}
    (hmem : definition ∈ defs.toList) (hfound : defs.get? definition.name = some found) : found = definition := by
  have hname : found.name = definition.name := by simpa using find?_some hfound
  exact inj_on_of_nodup_map hnodup (mem_of_find?_eq_some hfound) hmem hname

theorem dependencies_reach (hnodup : (defs.toList.map (·.name)).Nodup) (root : String) :
    Ends
      (fun needed => ∀ name, (name ∈ needed ↔ defs.Reaches root name) ∧ (name ∈ needed → defs.get? name ≠ none))
      (fun _ => ∃ name, defs.Reaches root name ∧ defs.get? name = none) (defs.dependencies root) := by
  have hroot : ∀ reference ∈ [(⟨root, root⟩ : Reference)], defs.Reaches root reference.name := by
    simpa using Reaches.root
  have hsound := @reach_reaches defs root (defs.referenceCount + 2) _ [] hroot nofun
  rw [← dependencies] at hsound
  cases hneeded : defs.dependencies root with
  | error cause =>
    rw [hneeded] at hsound
    exact hsound
  | ok needed =>
    rw [hneeded] at hsound
    obtain ⟨hroot, hclosed⟩ := dependencies_closed hneeded
    refine fun name => ⟨⟨hsound name, fun hreaches => ?_⟩, fun hname => ?_⟩
    · induction hreaches with
      | root => exact hroot
      | step _ hmem hsymbol ih =>
        obtain ⟨found, hfound, hsymbols⟩ := hclosed _ ih
        exact hsymbols _ (get_eq_some hnodup hmem hfound ▸ hsymbol)
    · obtain ⟨found, hfound, -⟩ := hclosed name hname
      simp [hfound]

/-- An import in place: what there was is changed definition by definition. -/
def importInto (other : Definitions) (space root : String) : EStateM GrammarError Definitions Unit := do
  match other.dependencies root with
  | .error cause => throw cause
  | .ok needed =>
    other.toList.forM fun definition =>
      if definition.name ∈ needed then modify (·.push (importedDefinition space root definition)) else pure ()

theorem run_import_into (defs other : Definitions) (space root : String) :
    (importInto other space root).run defs = match defs.importFrom other space root with
      | .error cause => .error cause defs
      | .ok result => .ok () result := by
  rw [importInto, importFrom]
  cases other.dependencies root with
  | error cause => rfl
  | ok needed =>
    rw [ok_bind]
    dsimp only
    generalize other.toList = definitions
    induction definitions generalizing defs with
    | nil => rfl
    | cons definition rest ih =>
      by_cases hneeded : definition.name ∈ needed
      · have hrest := ih (defs.push (importedDefinition space root definition))
        simpa [hneeded, pushAll] using hrest
      · simpa [hneeded] using ih defs

theorem import_error_iff (hnodup : (other.toList.map (·.name)).Nodup) :
    (∃ cause, defs.importFrom other space root = .error cause) ↔
      ∃ name, other.Reaches root name ∧ ∀ definition ∈ other.toList, definition.name ≠ name := by
  have hdependencies := dependencies_reach hnodup root
  simp only [← get_eq_none_iff]
  cases hneeded : other.dependencies root with
  | error cause =>
    rw [hneeded] at hdependencies
    exact iff_of_true ⟨cause, by rw [importFrom, hneeded]; rfl⟩ hdependencies
  | ok needed =>
    rw [hneeded] at hdependencies
    refine iff_of_false (fun ⟨cause, hcause⟩ => ?_) fun ⟨name, hreaches, hnone⟩ => ?_
    · rw [importFrom, hneeded] at hcause
      cases hcause
    · exact (hdependencies name).2 ((hdependencies name).1.mpr hreaches) hnone

variable {needed : List String} {result : Definitions}

theorem import_from_needed (hneeded : other.dependencies root = .ok needed)
    (hresult : defs.importFrom other space root = .ok result) :
    let taken := other.toList.filter fun definition => decide (definition.name ∈ needed)
    result.rules = defs.rules ++ (taken.filter (!isTerminalName ·.name)).map (importedDefinition space root) ∧
    result.terminals = defs.terminals ++ (taken.filter (isTerminalName ·.name)).map (importedDefinition space root) ∧
    ∀ symbol ∈ needed, ∃ source ∈ taken,
      (importedDefinition space root source).name = importedName space root symbol := by
  obtain ⟨others, hothers, rfl⟩ := import_from_eq_ok hresult
  cases hneeded.symm.trans hothers
  have hkind : ∀ definition,
      isTerminalName (importedDefinition space root definition).name = isTerminalName definition.name :=
    fun definition => is_terminal_imported space root definition.name
  simp only [push_all_eq, filter_map, Function.comp_def, hkind]
  refine ⟨trivial, trivial, fun symbol hsymbol => ?_⟩
  obtain ⟨found, hfound, -⟩ := (dependencies_closed hneeded).2 symbol hsymbol
  have hname : found.name = symbol := by simpa using find?_some hfound
  refine ⟨found, mem_filter.mpr ⟨mem_of_find?_eq_some hfound, by simpa [hname] using hsymbol⟩, ?_⟩
  rw [importedDefinition, hname]

theorem imported_name_eq (space root name : String) :
    importedName space root name = if name = root then root else space ++ "." ++ name := by
  unfold importedName
  split <;> simp_all

def signRows : Definitions where
  rules := [{ name := "row", body := .seq [.symbol "SIGN", .optional (.symbol "old.row")], line := 1 },
    { name := "old.row", body := .alt [.symbol "row", .literal "."], line := 2 },
    { name := "note", body := .symbol "MISSING", line := 3 }]
  terminals := [{ name := "SIGN", body := .pattern "[-+]" "", line := 4 }]

end FlightProcedure.Definitions
