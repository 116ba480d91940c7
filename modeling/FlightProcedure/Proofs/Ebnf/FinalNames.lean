import Mathlib.Data.List.Nodup
import FlightProcedure.Proofs.Ebnf.LiteralText

/-!
# Final names

A conversion gives every rule a final name: a terminal keeps its name, any other name is folded, and the folded
name is put in upper case if the rule becomes a terminal. Different names are folded to different ones, and no
rule takes the name of a terminal that is defined. What is not looked at is whether two rules become one
terminal: `final_names_merge_iff` says that rules end up under one name in this way only, and `promoted_names_merge`
shows two that do.
-/

namespace FlightProcedure.Ebnf

open Conversion List

variable {c : Char} {name other : String} {names terminals : List String} {folded : FoldedNames} {text : List Char}

def finalName (terminals : List String) (name : String) : String :=
  if isTerminalSpelling name then name
  else if foldName name ∈ terminals then upperCase (foldName name) else foldName name

/-! ## Folding -/

section

variable (h : foldNames names = .ok folded)

include h

theorem mem_of_fold_names (hname : name ∈ names)
    (hspelling : isTerminalSpelling name = false) : (foldName name, name) ∈ folded := by
  obtain ⟨front, back, rfl⟩ := append_of_mem hname
  unfold foldNames at h
  rw [foldlM_append] at h
  obtain ⟨start, -, h⟩ := bind_eq_ok h
  rw [foldlM_cons] at h
  obtain ⟨next, hnext, h⟩ := bind_eq_ok h
  have hadded : (foldName name, name) ∈ next := by
    obtain ⟨rfl, hmem⟩ | ⟨-, rfl, -⟩ := add_folded_eq_ok hnext
    · exact hmem hspelling
    · simp
  refine foldl_m_invariant (fun folded => (foldName name, name) ∈ folded) ?_ hadded h
  intro folded other next _ hmem hstep
  obtain ⟨rfl, -⟩ | ⟨-, rfl, -⟩ := add_folded_eq_ok hstep
  · exact hmem
  · exact mem_append_left _ hmem

theorem fold_names_distinct : (folded.map (·.1)).Nodup := by
  refine foldl_m_invariant (fun folded => (folded.map (·.1)).Nodup) ?_ nodup_nil h
  intro folded name next _ hdistinct hstep
  obtain ⟨rfl, -⟩ | ⟨-, rfl, hnew⟩ := add_folded_eq_ok hstep
  · exact hdistinct
  · rw [map_append, nodup_append]
    refine ⟨hdistinct, by simp, fun first hfirst last hlast => ?_⟩
    obtain ⟨entry, hentry, rfl⟩ := mem_map.mp hfirst
    rw [mem_singleton.mp hlast]
    exact hnew entry hentry

theorem fold_name_inj (hname : name ∈ names) (hother : other ∈ names)
    (hspelling : isTerminalSpelling name = false) (hspelling' : isTerminalSpelling other = false)
    (heq : foldName name = foldName other) : name = other := by
  have hentry := mem_of_fold_names h hname hspelling
  have hentry' := mem_of_fold_names h hother hspelling'
  exact congrArg Prod.snd (inj_on_of_nodup_map (fold_names_distinct h) hentry hentry' heq)

end

/-- The terminal that a rule becomes is new. -/
theorem fresh_of_promote {out : List Char} (h : promote names folded text name = .ok out)
    (hentry : ∃ entry ∈ folded, entry.1 = name) : upperCase name ∉ names := by
  obtain ⟨entry, hmem, hfirst⟩ := hentry
  have hany : folded.any (·.1 == name) = true := any_eq_true.mpr ⟨entry, hmem, by simp [hfirst]⟩
  intro hknown
  have hcontains : names.contains (upperCase name) = true := contains_iff_mem.mpr hknown
  simp only [promote, hany, hcontains, reduceCtorEq] at h

/-! ## How final names start -/

theorem ascii_of_letter (h : startsName c = true) : c.toNat < 0x80 := by
  have hbounds := letter_bounds h
  omega

theorem case_of_letter (h : startsName c = true) : c.toLower.isLower = true ∧ c.toLower ≠ ' ' ∧
    c.toUpper.isLower = false ∧ (c.isUpper = true → c.isLower = false) := by
  have hascii := ascii_of_letter h
  revert h
  exact of_ascii hascii (by decide)

theorem fold_starts_lower (h : name.toList.head?.any startsName = true) :
    (foldName name).toList.head?.any Char.isLower = true := by
  rw [foldName, lowerCase, String.toList_ofList, String.toList_ofList]
  cases hchars : name.toList with
  | nil => simp [hchars] at h
  | cons c rest =>
    have hc : startsName c = true := by simpa [hchars] using h
    obtain ⟨hlower, hspace, -⟩ := case_of_letter hc
    simp [lowerFrom, lowerChar, ascii_of_letter hc, hlower, hspace]

theorem is_alpha_of_upper {c : Char} (h : c.isUpper = true) : c.isAlpha = true := Bool.or_eq_true_iff.mpr (.inl h)

theorem is_alpha_of_lower {c : Char} (h : c.isLower = true) : c.isAlpha = true := Bool.or_eq_true_iff.mpr (.inr h)

theorem upper_starts (h : name.toList.head?.any Char.isLower = true) :
    (upperCase name).toList.head?.any Char.isLower = false := by
  rw [upperCase, String.toList_ofList]
  cases hchars : name.toList with
  | nil => rfl
  | cons c rest =>
    have hlower : c.isLower = true := by simpa [hchars] using h
    have hc : startsName c = true := is_alpha_of_lower hlower
    simp [ascii_of_letter hc, (case_of_letter hc).2.2.1]

theorem terminal_starts (h : isTerminalSpelling name = true) : name.toList.head?.any Char.isLower = false := by
  unfold isTerminalSpelling at h
  split at h
  · cases h
  · next c rest hchars =>
    rw [Bool.and_eq_true] at h
    have hc : startsName c = true := is_alpha_of_upper h.1
    simp [hchars, (case_of_letter hc).2.2.2 h.1]

theorem head_starts (h : name ∈ heads text) : name.toList.head?.any startsName = true := by
  obtain ⟨line, -, hline⟩ := mem_heads.mp h
  unfold head? at hline
  split at hline
  · cases hline
  · simp only [Option.ite_none_right_eq_some, Option.some.injEq, Bool.and_eq_true] at hline
    rw [← hline.2]
    exact hline.1.1.1

/-! ## Different final names -/

/-- What is known of the names of the rules of a text that is converted. -/
structure Nameable (names terminals : List String) : Prop where
  starts : ∀ name ∈ names, name.toList.head?.any startsName = true
  folded : ∀ name ∈ names, ∀ other ∈ names, isTerminalSpelling name = false → isTerminalSpelling other = false →
    foldName name = foldName other → name = other
  fresh : ∀ name ∈ names, isTerminalSpelling name = false → foldName name ∈ terminals →
    upperCase (foldName name) ∉ names

theorem Nameable.merge (h : Nameable names terminals) (hname : name ∈ names) (hother : other ∈ names)
    (heq : finalName terminals name = finalName terminals other) (hne : name ≠ other) :
    isTerminalSpelling name = false ∧ isTerminalSpelling other = false ∧ foldName name ∈ terminals ∧
      foldName other ∈ terminals ∧ upperCase (foldName name) = upperCase (foldName other) := by
  have hlower := fold_starts_lower (h.starts name hname)
  have hlower' := fold_starts_lower (h.starts other hother)
  have hupper := upper_starts hlower
  have hupper' := upper_starts hlower'
  unfold finalName at heq
  cases hspelling : isTerminalSpelling name <;> cases hspelling' : isTerminalSpelling other <;>
    simp only [hspelling, hspelling', Bool.false_eq_true, if_true, if_false] at heq
  · split at heq <;> split at heq
    · next hmem hmem' => exact ⟨rfl, rfl, hmem, hmem', heq⟩
    · rw [heq, hlower'] at hupper
      cases hupper
    · rw [← heq, hlower] at hupper'
      cases hupper'
    · exact absurd (h.folded name hname other hother hspelling hspelling' heq) hne
  · split at heq
    · next hmem => exact absurd (heq ▸ hother) (h.fresh name hname hspelling hmem)
    · rw [heq, terminal_starts hspelling'] at hlower
      cases hlower
  · split at heq
    · next hmem => exact absurd (heq ▸ hname) (h.fresh other hother hspelling' hmem)
    · rw [← heq, terminal_starts hspelling] at hlower'
      cases hlower'
  · exact absurd heq hne

theorem nameable_of_convert {output text : String} (h : convert ⟨[], terminals, []⟩ text = .ok output) :
    Nameable (heads (changeLayout text.toList)) terminals := by
  obtain ⟨folded, renamed, hfolded, hrenamed, -⟩ := convert_eq_ok h
  refine ⟨fun _ => head_starts, fun _ hname _ hother => fold_name_inj hfolded hname hother, ?_⟩
  intro name hname hspelling hmem
  obtain ⟨state, next, hstep⟩ := foldl_m_each hrenamed hmem
  exact fresh_of_promote hstep ⟨_, mem_of_fold_names hfolded hname hspelling, rfl⟩

/-- Two different rules of a text that is converted without replacements end up under one name if and only if
both of them become terminals and their folded names have the same upper case. -/
theorem final_names_merge_iff {conversion : Conversion} {text output name other : String}
    (hrules : ofRules { terminals } = .ok conversion) (hconvert : conversion.convert text = .ok output)
    (hname : name ∈ heads (changeLayout text.toList)) (hother : other ∈ heads (changeLayout text.toList)) :
    finalName terminals name = finalName terminals other ↔ name = other ∨
      (isTerminalSpelling name = false ∧ isTerminalSpelling other = false ∧ foldName name ∈ terminals ∧
        foldName other ∈ terminals ∧ upperCase (foldName name) = upperCase (foldName other)) := by
  cases hrules
  have hnameable := nameable_of_convert hconvert
  have hsame : ∀ name, name ∈ longestFirst String.utf8ByteSize terminals ↔ name ∈ terminals := fun name => mem_mergeSort
  have hfinal : ∀ name, finalName (longestFirst String.utf8ByteSize terminals) name = finalName terminals name := by
    intro name
    simp only [finalName, hsame]
  constructor
  · intro heq
    rw [← hfinal, ← hfinal] at heq
    by_cases hne : name = other
    · exact .inl hne
    · have hmerge := hnameable.merge hname hother heq hne
      rw [hsame, hsame] at hmerge
      exact .inr hmerge
  · rintro (rfl | ⟨hspelling, hspelling', hmem, hmem', heq⟩)
    · rfl
    · simp [finalName, hspelling, hspelling', hmem, hmem', heq]

/-- Two rules with similar names become different terminals. -/
theorem similar_names_stay_apart :
    convert ⟨[], ["word_", "word"], []⟩ "Word = \"w\";\nword_ = Word;\nBIT = word_;\n" =
      .ok "WORD : \"w\"\nWORD_ : WORD\nBIT : WORD_\n" ∧
    finalName ["word", "word_"] "Word" ≠ finalName ["word", "word_"] "word_" := by
  have hsize : "word".utf8ByteSize = 4 ∧ "word_".utf8ByteSize = 5 := by decide
  have hrules : ofRules { terminals := ["word", "word_"] } = .ok ⟨[], ["word_", "word"], []⟩ := by
    simp [ofRules, longestFirst, List.mergeSort, hsize, pure, Except.pure, bind, Except.bind]
  have hconvert : convert ⟨[], ["word_", "word"], []⟩ "Word = \"w\";\nword_ = Word;\nBIT = word_;\n" =
      .ok "WORD : \"w\"\nWORD_ : WORD\nBIT : WORD_\n" :=
    eq_ok_of_to_option (by decide +kernel)
  have hword : "Word" ∈ heads (changeLayout "Word = \"w\";\nword_ = Word;\nBIT = word_;\n".toList) := by
    decide +kernel
  have hmerge := final_names_merge_iff hrules hconvert hword (by decide +kernel : "word_" ∈ _)
  exact ⟨hconvert, mt hmerge.mp (by decide +kernel)⟩

/-- Two rules become one terminal, because the upper case of `ß` is `SS`. -/
theorem promoted_names_merge :
    heads (changeLayout "straße = \"a\";\nstrasse = \"b\";\n".toList) = ["straße", "strasse"] ∧
    ofRules { terminals := ["straße", "strasse"] } = .ok ⟨[], ["straße", "strasse"], []⟩ ∧
    convert ⟨[], ["straße", "strasse"], []⟩ "straße = \"a\";\nstrasse = \"b\";\n" =
      .ok "STRASSE : \"a\"\nSTRASSE : \"b\"\n" ∧
    finalName ["straße", "strasse"] "straße" = finalName ["straße", "strasse"] "strasse" := by
  have hsize : "straße".utf8ByteSize = 7 ∧ "strasse".utf8ByteSize = 7 := by decide
  have hrules : ofRules { terminals := ["straße", "strasse"] } = .ok ⟨[], ["straße", "strasse"], []⟩ := by
    simp [ofRules, longestFirst, List.mergeSort, hsize, pure, Except.pure, bind, Except.bind]
  exact ⟨by decide +kernel, hrules, eq_ok_of_to_option (by decide +kernel), by decide +kernel⟩

end FlightProcedure.Ebnf
