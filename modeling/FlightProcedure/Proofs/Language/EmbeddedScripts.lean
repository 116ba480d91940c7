import FlightProcedure.Proofs.Language.EmbeddedProcedures

/-!
# Scripts of the embedded language

The tokens of the embedded definitions can be copied, so that the trees of the embedded language are orderly.
No source leaves the quotes or the identifiers that its texts are written to: `embedded_script_contained`.
-/

namespace FlightProcedure

theorem embedded_procedure_harmless {language : Language} (hlanguage : Language.embedded = .ok language)
    {source name : String} {procedure : Procedure} (h : language.procedureOf source name = .ok procedure) :
    Script.Harmless (Script.procedureFragments procedure) := by
  unfold Language.procedureOf at h
  split at h
  · cases h
  · next tree htree =>
    split at h
    · cases h
    · next hprocedure =>
      cases h
      obtain ⟨defs, input, hembedded, hreadable, hsound, -⟩ := embedded_procedure_sound hlanguage htree
      exact of_tree_harmless (hsound.orderly hreadable.conforms hembedded.copyable) hprocedure

/-- Every script of the embedded language consists of fragments, of which those in quotes and those that
stand for themselves have no characters that lead out of their places. -/
theorem embedded_script_contained (source name : String) :
    match Language.embedded with
    | .error _ => True
    | .ok language =>
      match language.compile source name with
      | .error _ => True
      | .ok script => ∃ procedure, language.procedureOf source name = .ok procedure ∧
          script = Script.written (Script.procedureFragments procedure) ∧
          ∀ fragment ∈ Script.procedureFragments procedure, fragment.Harmless ∧
            ∀ text ∈ fragment.copied?, ∀ c ∈ text.toList, isBreakingChar c = false := by
  split
  · trivial
  · next language hlanguage =>
    split
    · trivial
    · next script hscript =>
      obtain ⟨procedure, hprocedure, hwritten⟩ := bind_eq_ok hscript
      cases hwritten
      refine ⟨procedure, hprocedure, (Script.written_procedure procedure).symm, fun fragment hmem => ?_⟩
      have hharmless := embedded_procedure_harmless hlanguage hprocedure fragment hmem
      exact ⟨hharmless, hharmless.contained⟩

end FlightProcedure
