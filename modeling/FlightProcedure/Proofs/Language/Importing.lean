import FlightProcedure.Language.Basic
import FlightProcedure.Proofs.Grammar.Notation

/-!
# What a grammar takes over from another

An imported definition has a new name in front of which the namespace stands, and refers to the others by
their new names. `Language.of_texts_eq_ok` names the steps in which the grammars of a language come from
their texts.
-/

namespace FlightProcedure

namespace Body

theorem symbols_rename (new : String → String) (body : Body) : (body.rename new).symbols = body.symbols.map new := by
  induction body using Body.rec
    (motive_2 := fun items => symbolsOf (renameAll new items) = (symbolsOf items).map new) with
  | symbol | literal | pattern | nil => rfl
  | seq _ ih | alt _ ih | optional _ ih | rep _ _ _ ih => exact ih
  | cons _ _ ih ihs => rw [renameAll, symbolsOf, symbolsOf, ih, ihs, List.map_append]

def leafRename (new : String → String) : BodyToken → BodyToken
  | .name name => .name (new name)
  | token => token

theorem leaves_rename (new : String → String) (body : Body) :
    (body.rename new).leaves = body.leaves.map (leafRename new) := by
  induction body using Body.rec
    (motive_2 := fun items => leavesOf (renameAll new items) = (leavesOf items).map (leafRename new)) with
  | symbol | literal | pattern | nil => rfl
  | seq _ ih | alt _ ih | optional _ ih | rep _ _ _ ih => exact ih
  | cons _ _ ih ihs => rw [renameAll, leavesOf, leavesOf, ih, ihs, List.map_append]

end Body

namespace Definitions

theorem local_name_imported (space root name : String) : localName (importedName space root name) = localName name := by
  unfold importedName
  split
  · rfl
  · have hchars : (space ++ "." ++ name).toList.reverse = name.toList.reverse ++ '.' :: space.toList.reverse := by simp
    rw [localName, localName, hchars, List.takeWhile_append]
    split
    · next hall =>
      have hwhole : name.toList.reverse.takeWhile (· != '.') = name.toList.reverse :=
        (List.takeWhile_sublist _).eq_of_length hall
      simp [hwhole]
    · rfl

theorem is_terminal_imported (space root name : String) :
    isTerminalName (importedName space root name) = isTerminalName name := by
  rw [isTerminalName, isTerminalName, local_name_imported]

theorem is_written_imported {space : String} (hspace : IsWritten space) (root : String) {name : String}
    (h : IsWritten name) : IsWritten (importedName space root name) := by
  unfold importedName
  split
  · exact h
  · have hdot : BodyToken.isNameChar '.' = true := by decide
    rw [IsWritten] at hspace h ⊢
    simp [hspace, h, hdot]

theorem written_imported {space : String} (hspace : IsWritten space) (root : String)
    {definition : Definition} (h : definition.Written) :
    (importedDefinition space root definition).Written := by
  refine ⟨is_written_imported hspace root h.name, fun leaf hleaf => ?_⟩
  rw [importedDefinition, Body.leaves_rename, List.mem_map] at hleaf
  obtain ⟨old, hold, rfl⟩ := hleaf
  have hsound := h.leaves old hold
  cases old with
  | name name => exact is_written_imported hspace root hsound
  | _ => exact hsound

theorem import_from_eq_ok {defs other result : Definitions} {space root : String}
    (h : defs.importFrom other space root = .ok result) :
    ∃ needed, other.dependencies root = .ok needed ∧ result = defs.pushAll ((other.toList.filter fun definition =>
        decide (definition.name ∈ needed)).map (importedDefinition space root)) := by
  obtain ⟨needed, hneeded, h⟩ := bind_eq_ok h
  cases h
  exact ⟨needed, hneeded, rfl⟩

end Definitions

theorem Language.of_texts_eq_ok {texts : GrammarTexts} {language : Language}
    (h : Language.ofTexts texts = .ok language) :
    ∃ units own defs, Definitions.ofText texts.units = .ok units ∧
      Grammar.build units unitsOptions = .ok language.units ∧
      Definitions.ofText texts.procedure = .ok own ∧
      own.importFrom units unitsRoot unitsRoot = .ok defs ∧
      Grammar.build defs procedureOptions = .ok language.procedure := by
  obtain ⟨units, hunits, h⟩ := bind_eq_ok h
  obtain ⟨unitsGrammar, hunitsGrammar, h⟩ := bind_eq_ok h
  obtain ⟨own, hown, h⟩ := bind_eq_ok h
  obtain ⟨defs, hdefs, h⟩ := bind_eq_ok h
  obtain ⟨procedure, hprocedure, h⟩ := bind_eq_ok h
  cases h
  exact ⟨units, own, defs, hunits, hunitsGrammar, hown, hdefs, hprocedure⟩

end FlightProcedure
