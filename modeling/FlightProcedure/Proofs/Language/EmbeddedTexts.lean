import FlightProcedure.Language.Compile
import FlightProcedure.Proofs.Language.Importing
import FlightProcedure.Proofs.Procedure.OrderlyTrees

/-!
# The definitions of the embedded language

Whether the definitions of a grammar text can be read, and whether their tokens can be copied, is seen
definition by definition. A `CheckedText` carries the proof that a look at each line shows both, and the
embedded texts are two of them. The grammar of procedures has definitions of both:
`Language.embedded_eq_ok`.
-/

namespace FlightProcedure

open List

def terminalSpellings : List String :=
  ["RELATIONAL_OPERATOR", "ADDITION_OPERATOR", "MULTIPLICATION_OPERATOR", "SIGN", "CONFIRMATION_STATUS"]

theorem listed_literals_spelled : ∀ text ∈ keywords ++ spellings.map (·.1),
    text ∈ terminalSpellings ∨ isSpelledLiteral text = true := by
  decide +kernel

theorem spelled_literal {text : String} (h : text ∉ terminalSpellings) : isSpelledLiteral text = true := by
  by_cases hlisted : text ∈ keywords ++ spellings.map (·.1)
  · exact (listed_literals_spelled text hlisted).resolve_left h
  · rw [mem_append, not_or] at hlisted
    rw [isSpelledLiteral, Bool.and_eq_true, all_eq_true]
    refine ⟨by simp [hlisted.1], fun entry hentry => ?_⟩
    have hname : text ≠ entry.1 := fun heq => hlisted.2 (mem_map.mpr ⟨entry, hentry, heq.symm⟩)
    simp [hname]

def Role.isQuotable : Role → Bool
  | .token terminal => quotableTokens.listed terminal
  | _ => true

namespace Definition

def isReadableRule (definition : Definition) : Bool :=
  definition.conforms &&
    (RuleKind.ofName? definition.name).all
      (fun kind => !kind.opens || definition.body.opensWithLiteral) &&
    definition.body.literals.all (fun text => !terminalSpellings.contains text) &&
    !definition.body.nullable

def isReadableTerminal (definition : Definition) : Bool :=
  (RuleKind.ofName? definition.name).isNone && definition.isSpelled

def isReadable (definition : Definition) : Bool :=
  !isHiddenName definition.name &&
    if isTerminalName definition.name then definition.isReadableTerminal
    else definition.isReadableRule

def isCopyableTerminal (definition : Definition) : Bool :=
  [quotableTokens, functionNames].all fun tokens =>
    !tokens.listed definition.name || definition.body.isOver tokens

def isCopyableRule (definition : Definition) : Bool :=
  (RuleKind.ofName? definition.name).all fun kind =>
    !kind.mixes || (definition.body.shows definition.shaping.keepTokens).all Role.isQuotable

def isCopyable (definition : Definition) : Bool :=
  if isTerminalName definition.name then definition.isCopyableTerminal else definition.isCopyableRule

end Definition

def localChars (name : List Char) : List Char := (name.reverse.takeWhile (· != '.')).reverse

/-- Whether the definition that a line denotes can be read once it is taken over. The name is inspected in
the line, since this is faster than in the definition. -/
def isReadableLine (takeOver : Definition → Definition) (line : Definitions.LogicalLine) : Bool :=
  match Definition.ofText line.1 line.2 with
  | .error _ => true
  | .ok definition =>
    let name := localChars (Definition.nameChars line.2)
    name.head? != some '_' &&
      if name.any Char.isUpper && !name.any Char.isLower then
        (takeOver definition).isReadableTerminal
      else (takeOver definition).isReadableRule

def isReadableText (takeOver : Definition → Definition) (text : List Char) : Bool :=
  match Definitions.joinLines [] 1 (lines text) with
  | .error _ => true
  | .ok found => found.all (isReadableLine takeOver)

/-- Whether the tokens of the definition that a line denotes can be copied once it is taken over. -/
def isCopyableLine (takeOver : Definition → Definition) (line : Definitions.LogicalLine) : Bool :=
  match Definition.ofText line.1 line.2 with
  | .error _ => true
  | .ok definition =>
    let name := localChars (Definition.nameChars line.2)
    if name.any Char.isUpper && !name.any Char.isLower then (takeOver definition).isCopyableTerminal
    else (takeOver definition).isCopyableRule

/-- Whether the tokens of all definitions of a text can be copied once they are taken over. -/
def isCopyableText (takeOver : Definition → Definition) (text : List Char) : Bool :=
  match Definitions.joinLines [] 1 (lines text) with
  | .error _ => true
  | .ok found => found.all (isCopyableLine takeOver)

variable {defs : Definitions}

theorem line_of_text {text : String} (htext : Definitions.ofText text = .ok defs)
    {definition : Definition} (hmem : definition ∈ defs.toList) :
    ∃ found line, Definitions.joinLines [] 1 (lines text.toList) = .ok found ∧ line ∈ found ∧
      Definition.ofText line.1 line.2 = .ok definition ∧
      (localName definition.name).toList = localChars (Definition.nameChars line.2) := by
  obtain ⟨found, more, hfound, hmore, rfl⟩ := Definitions.of_text_eq_ok htext
  have hmem : definition ∈ more := by
    rw [Definitions.push_all_eq, Definitions.toList, mem_append] at hmem
    rcases hmem with hmem | hmem <;> exact (mem_filter.mp hmem).1
  obtain ⟨line, hline, hdefinition⟩ := forall2_exists_left hmore hmem
  refine ⟨found, line, hfound, hline, hdefinition, ?_⟩
  rw [(Definition.of_text_eq_ok hdefinition).1, localName, String.toList_ofList, String.toList_ofList, localChars]

def isCheckedText (takeOver : Definition → Definition) (text : List Char) : Bool :=
  isReadableText takeOver text && isCopyableText takeOver text

structure CheckedText (takeOver : Definition → Definition) where
  text : String
  local_name : ∀ definition, localName (takeOver definition).name = localName definition.name
  checked : isCheckedText takeOver text.toList = true

namespace CheckedText

variable {takeOver : Definition → Definition} (source : CheckedText takeOver) {defs : Definitions}
  (htext : Definitions.ofText source.text = .ok defs)

include htext

theorem readable : ∀ definition ∈ defs.toList, (takeOver definition).isReadable = true := by
  intro definition hmem
  obtain ⟨found, line, hfound, hline, hdefinition, hname⟩ := line_of_text htext hmem
  have hchecked := (Bool.and_eq_true_iff.mp source.checked).1
  rw [isReadableText, hfound] at hchecked
  have hreadable := all_eq_true.mp hchecked line hline
  rw [isReadableLine, hdefinition] at hreadable
  rw [Definition.isReadable, isHiddenName, isTerminalName, source.local_name, hname]
  exact hreadable

theorem copyable : ∀ definition ∈ defs.toList, (takeOver definition).isCopyable = true := by
  intro definition hmem
  obtain ⟨found, line, hfound, hline, hdefinition, hname⟩ := line_of_text htext hmem
  have hchecked := (Bool.and_eq_true_iff.mp source.checked).2
  rw [isCopyableText, hfound] at hchecked
  have hcopyable := all_eq_true.mp hchecked line hline
  rw [isCopyableLine, hdefinition] at hcopyable
  rw [Definition.isCopyable, isTerminalName, source.local_name, hname]
  exact hcopyable

end CheckedText

theorem check_of_lines (check : List Char → Bool) {texts : List String} {chars : List (List Char)}
    (hlines : Forall₂ (fun text chars => text.toList = chars) texts chars)
    (hcheck : check (intercalate ['\n'] chars) = true) :
    check ("\n".intercalate texts).toList = true := by
  have hmap : texts.map String.toList = chars := by
    clear hcheck
    induction hlines with
    | nil => rfl
    | cons hline _ ih => rw [map_cons, hline, ih]
  rw [String.toList_intercalate, hmap]
  exact hcheck

namespace Language

abbrev fromUnits : Definition → Definition := Definitions.importedDefinition unitsRoot unitsRoot

-- Both checks are one evaluation, which reads each line only once.
set_option maxRecDepth 100000 in
def procedureText : CheckedText id where
  text := procedureGrammar
  local_name _ := rfl
  checked := by
    apply check_of_lines
    case hlines =>
      dsimp only
      repeat' first | exact Forall₂.nil | exact String.toList_ofList | apply Forall₂.cons
    decide +kernel

set_option maxRecDepth 100000 in
/-- The grammar of units, whose definitions are taken over into that of procedures. -/
def unitsText : CheckedText fromUnits where
  text := unitsGrammar
  local_name definition := Definitions.local_name_imported _ _ definition.name
  checked := by
    apply check_of_lines
    case hlines =>
      dsimp only
      repeat' first | exact Forall₂.nil | exact String.toList_ofList | apply Forall₂.cons
    decide +kernel

theorem procedure_text_eq : procedureText.text = procedureGrammar := by
  rw [procedureText]

theorem units_text_eq : unitsText.text = unitsGrammar := by
  rw [unitsText]

end Language

/-- The definitions come from the embedded texts: from that of procedures, or from that of units, taken
over. -/
structure Definitions.Embedded (defs : Definitions) : Prop where
  sorted : defs.Sorted
  origin : ∃ units own, Definitions.ofText Language.unitsText.text = .ok units ∧
    Definitions.ofText Language.procedureText.text = .ok own ∧ ∀ definition ∈ defs.toList,
      definition ∈ own.toList ∨ ∃ unit ∈ units.toList, Language.fromUnits unit = definition

theorem Language.embedded_eq_ok {language : Language} (h : embedded = .ok language) :
    ∃ defs, Grammar.build defs procedureOptions = .ok language.procedure ∧ defs.Embedded := by
  obtain ⟨units, own, defs, hunits, -, hown, himport, hbuild⟩ := of_texts_eq_ok h
  obtain ⟨needed, -, rfl⟩ := Definitions.import_from_eq_ok himport
  dsimp only at hunits hown
  rw [← units_text_eq] at hunits
  rw [← procedure_text_eq] at hown
  refine ⟨_, hbuild, (Definitions.of_text_sorted hown).1.push_all _, units, own, hunits, hown,
    fun definition hmem => ?_⟩
  rcases Definitions.mem_push_all hmem with hmem | hmem
  · exact .inl hmem
  · obtain ⟨unit, hunit, hdefinition⟩ := mem_map.mp hmem
    exact .inr ⟨unit, (mem_filter.mp hunit).1, hdefinition⟩

theorem Definitions.Embedded.readable (h : defs.Embedded) :
    ∀ definition ∈ defs.toList, definition.isReadable = true ∧ definition.Written := by
  obtain ⟨units, own, hunits, hown, horigin⟩ := h.origin
  have hspace : IsWritten Language.unitsRoot := by rw [IsWritten]; decide
  obtain ⟨-, hwrittenOwn⟩ := Definitions.of_text_sorted hown
  obtain ⟨-, hwrittenUnits⟩ := Definitions.of_text_sorted hunits
  intro definition hmem
  rcases horigin definition hmem with hmem | ⟨unit, hunit, rfl⟩
  · exact ⟨Language.procedureText.readable hown definition hmem, hwrittenOwn definition hmem⟩
  · exact ⟨Language.unitsText.readable hunits unit hunit,
      Definitions.written_imported hspace _ (hwrittenUnits unit hunit)⟩

theorem readable_of_definitions (hsorted : defs.Sorted)
    (h : ∀ definition ∈ defs.toList, definition.isReadable = true) :
    defs.Readable Language.procedureOptions ∧ (∀ definition ∈ defs.toList, isHiddenName definition.name = false) ∧
      ∀ definition ∈ defs.rules, definition.body.nullable = false := by
  have hrule : ∀ definition ∈ defs.rules, definition.isReadableRule = true := by
    intro definition hmem
    have hreadable := h definition (mem_append_left _ hmem)
    rw [Definition.isReadable, hsorted.rules definition hmem, Bool.and_eq_true] at hreadable
    exact hreadable.2
  have hterminal : ∀ definition ∈ defs.terminals, definition.isReadableTerminal = true := by
    intro definition hmem
    have hreadable := h definition (mem_append_right _ hmem)
    rw [Definition.isReadable, hsorted.terminals definition hmem, Bool.and_eq_true] at hreadable
    exact hreadable.2
  simp only [Definition.isReadableRule, Definition.isReadableTerminal, Bool.and_eq_true,
    Option.isNone_iff_eq_none, Bool.not_eq_true', all_eq_true, Option.all_eq_true,
    Bool.or_eq_true] at hrule hterminal
  refine ⟨⟨⟨fun definition hmem => (hrule definition hmem).1.1.1,
    fun definition hmem => (hterminal definition hmem).1⟩,
    ⟨fun definition hmem => (hterminal definition hmem).2, fun text htext => ?_, by decide⟩,
    fun definition hmem kind hkind hopens => ?_⟩, fun definition hmem => ?_,
    fun definition hmem => (hrule definition hmem).2⟩
  · obtain ⟨definition, hmem, htext⟩ := mem_flatMap.mp htext
    have hliteral := (hrule definition hmem).1.2 text htext
    exact spelled_literal (by simpa using hliteral)
  · rcases (hrule definition hmem).1.1.2 kind hkind with hnot | hopening
    · rw [hopens] at hnot
      cases hnot
    · exact hopening
  · have hreadable := h definition hmem
    rw [Definition.isReadable, Bool.and_eq_true, Bool.not_eq_true'] at hreadable
    exact hreadable.1

theorem copyable_of_definitions (hsorted : defs.Sorted)
    (h : ∀ definition ∈ defs.toList, definition.isCopyable = true) : defs.Copyable := by
  have hterminal : ∀ tokens ∈ [quotableTokens, functionNames], defs.Over tokens := by
    intro tokens htokens definition hmem hlisted
    have hcopyable := h definition (mem_append_right _ hmem)
    rw [Definition.isCopyable, hsorted.terminals definition hmem] at hcopyable
    simpa [hlisted] using all_eq_true.mp hcopyable tokens htokens
  refine ⟨hterminal _ (by simp), hterminal _ (by simp), ?_⟩
  intro definition hmem kind hkind hmixes terminal hshown
  have hcopyable := h definition (mem_append_left _ hmem)
  rw [Definition.isCopyable, hsorted.rules definition hmem] at hcopyable
  have hall : ∀ role ∈ definition.body.shows definition.shaping.keepTokens, role.isQuotable = true := by
    simpa [Definition.isCopyableRule, hkind, hmixes] using hcopyable
  exact hall _ hshown

theorem Definitions.Embedded.copyable (h : defs.Embedded) : defs.Copyable := by
  obtain ⟨units, own, hunits, hown, horigin⟩ := h.origin
  refine copyable_of_definitions h.sorted fun definition hmem => ?_
  rcases horigin definition hmem with hmem | ⟨unit, hunit, rfl⟩
  · exact Language.procedureText.copyable hown definition hmem
  · exact Language.unitsText.copyable hunits unit hunit

end FlightProcedure
