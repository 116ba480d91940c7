import FlightProcedure.Ebnf.Conversion
import FlightProcedure.Proofs.Ebnf.LayoutLiterals
import FlightProcedure.Proofs.Outcome

/-!
# Which literals a conversion leaves alone

Folded names and the names of terminals hold no mark of a literal, so renaming changes code only.
`convert_keeps_literals` puts this together with the changes of layout: a conversion keeps the literals of
a text if all of them are steady, no comma comes next behind a comment, and no word touches a pattern.
`literals_disturbed` shows what happens to other literals.
-/

namespace FlightProcedure

open List

namespace Ebnf

open Segment

variable {code tail literal after text out : List Char} {literals : List (List Char)} {c : Char} {name : String}
  {names : List String} {folded : FoldedNames} {point : Nat}

/-! ## Names are code -/

theorem opens_literal_of_nat (h : 0x30 ≤ point) : opensLiteral (Char.ofNat point) = false := by
  have hpoint : (Char.ofNat point).toNat = 0 ∨ 0x30 ≤ (Char.ofNat point).toNat := by
    by_cases hvalid : point.isValidChar
    · have hc : Char.ofNat point = Char.ofNatAux point hvalid := dif_pos hvalid
      rw [hc]
      exact .inr h
    · have hc : Char.ofNat point = '\x00' := dif_neg hvalid
      rw [hc]
      exact .inl rfl
  rw [Bool.eq_false_iff]
  intro hmark
  simp only [opensLiteral, Bool.or_eq_true, beq_iff_eq] at hmark
  rcases hmark with (hc | hc) | hc <;> simp [hc] at hpoint

theorem partner_in_ge {runs : List CaseRun}
    (hruns : ∀ run ∈ runs, 0x30 ≤ (run.first : Int) + run.shift) (hpoint : 0x30 ≤ point) :
    0x30 ≤ CaseRun.partnerIn runs point := by
  unfold CaseRun.partnerIn
  split
  · next run hfind =>
    have hrun := hruns run (mem_of_find?_eq_some hfind)
    have hcovers := find?_some hfind
    simp only [CaseRun.covers, Bool.and_eq_true, decide_eq_true_eq] at hcovers
    simp only [CaseRun.partner]
    omega
  · exact hpoint

theorem origin_in_ge {runs : List CaseRun} (hruns : ∀ run ∈ runs, 0x30 ≤ run.first)
    (hpoint : 0x30 ≤ point) : 0x30 ≤ CaseRun.originIn runs point := by
  unfold CaseRun.originIn
  split
  · next run hfind =>
    have hcovers := find?_some hfind
    simp only [CaseRun.covers, Bool.and_eq_true, decide_eq_true_eq] at hcovers
    exact Nat.le_trans (hruns run (mem_of_find?_eq_some hfind)) hcovers.1.1
  · exact hpoint

theorem plain_ascii_case (hascii : c.toNat < 0x80) (hc : opensLiteral c = false) :
    opensLiteral c.toLower = false ∧ opensLiteral c.toUpper = false := by
  revert hc
  exact of_ascii hascii (by decide)

set_option maxRecDepth 20000 in
theorem plain_upper_case (h : Plain name.toList) : Plain (upperCase name).toList := by
  have hruns : ∀ run ∈ lowerRuns, 0x30 ≤ run.first := by decide
  have hspecials : ∀ entry ∈ upperSpecials, ∀ point ∈ entry.2, 0x30 ≤ point := by decide
  rw [upperCase, String.toList_ofList]
  intro c hc
  obtain ⟨d, hd, hcase⟩ := mem_flatMap.mp hc
  split at hcase
  · next hascii =>
    rw [mem_singleton.mp hcase]
    exact (plain_ascii_case hascii (h d hd)).2
  · next hascii =>
    unfold upperChar at hcase
    split at hcase
    · next points hlookup =>
      obtain ⟨point, hpoint, rfl⟩ := mem_map.mp hcase
      obtain ⟨before, after, hentry, _⟩ := lookup_eq_some_iff.mp hlookup
      exact opens_literal_of_nat (hspecials (d.toNat, points) (by simp [hentry]) point hpoint)
    · rw [mem_singleton.mp hcase]
      exact opens_literal_of_nat (origin_in_ge hruns (by omega))

set_option maxRecDepth 20000 in
theorem plain_lower_from (h : Plain code) (before : List Char) : Plain (lowerFrom before code) := by
  have hruns : ∀ run ∈ lowerRuns, 0x30 ≤ (run.first : Int) + run.shift := by decide
  induction code generalizing before with
  | nil => exact h
  | cons d rest ih =>
    obtain ⟨hd, hrest⟩ := plain_cons.mp h
    refine plain_append.mpr ⟨?_, ih hrest (d :: before)⟩
    unfold lowerChar
    split
    · next hascii =>
      exact plain_cons.mpr ⟨(plain_ascii_case hascii hd).1, by simp [Plain]⟩
    · next hascii =>
      split
      · split <;> simp [Plain, opensLiteral]
      · split
        · simp [Plain, opensLiteral]
        · exact plain_cons.mpr ⟨opens_literal_of_nat (partner_in_ge hruns (by omega)), by simp [Plain]⟩

theorem plain_fold_name (h : Plain name.toList) : Plain (foldName name).toList := by
  rw [foldName, lowerCase, String.toList_ofList, String.toList_ofList]
  intro c hc
  obtain ⟨d, hd, rfl⟩ := mem_map.mp hc
  split
  · rfl
  · exact plain_lower_from h [] d hd

theorem plain_head {line found : List Char} (h : head? line = some found) : Plain found := by
  unfold head? at h
  split at h
  · cases h
  · next c rest _ =>
    simp only [Option.ite_none_right_eq_some, Option.some.injEq, Bool.and_eq_true] at h
    obtain ⟨⟨⟨hletter, _⟩, _⟩, rfl⟩ := h
    have hrun : Plain (rest.takeWhile isNamePart) :=
      plain_take_while (fun _ hd => (class_of_opens_literal hd).2.2.1) rest
    exact plain_cons.mpr ⟨opens_no_literal (fun hmark => (class_of_opens_literal hmark).2.2.2) hletter,
      fun d hd => hrun d ((dropLast_sublist _).mem hd)⟩

theorem mem_heads {name : String} : name ∈ heads text ↔
    ∃ line ∈ splitWhere (· == '\n') text, head? line = some name.toList := by
  have hfold : ∀ (found : List (List Char)) (names : List String), name ∈ found.foldl (fun names name =>
        let name := String.ofList name
        if names.contains name then names else names ++ [name]) names ↔
      name ∈ names ∨ name.toList ∈ found := by
    intro found
    induction found with
    | nil => simp
    | cons next found ih =>
      intro names
      have hnext : String.ofList next = name ↔ name.toList = next := by
        rw [← String.toList_inj, String.toList_ofList, eq_comm]
      rw [foldl_cons, ih, mem_cons, ← hnext, ← or_assoc]
      refine or_congr_left ?_
      dsimp only
      split
      · next hmem =>
        rw [contains_iff_mem] at hmem
        exact ⟨.inl, fun h => h.elim id fun heq => heq ▸ hmem⟩
      · simp [eq_comm]
  unfold heads
  rw [hfold]
  simp

theorem plain_heads (text : List Char) : ∀ name ∈ heads text, Plain name.toList := by
  intro name hname
  obtain ⟨line, _, hline⟩ := mem_heads.mp hname
  exact plain_head hline

theorem add_folded_eq_ok {next : FoldedNames} (h : addFolded folded name = .ok next) :
    (next = folded ∧ (isTerminalSpelling name = false → (foldName name, name) ∈ folded)) ∨
      (isTerminalSpelling name = false ∧ next = folded ++ [(foldName name, name)] ∧
        ∀ entry ∈ folded, entry.1 ≠ foldName name) := by
  unfold addFolded at h
  split at h
  · next hspelling =>
    cases h
    exact .inl ⟨rfl, fun hnot => by simp [hspelling] at hnot⟩
  · next hspelling =>
    split at h
    · next hlookup =>
      cases h
      refine .inr ⟨Bool.eq_false_iff.mpr hspelling, rfl, fun entry hentry heq => ?_⟩
      simpa [heq] using lookup_eq_none_iff.mp hlookup entry hentry
    · next first hlookup =>
      split at h
      · next heq =>
        cases h
        obtain ⟨front, back, rfl, -⟩ := lookup_eq_some_iff.mp (heq ▸ hlookup)
        exact .inl ⟨rfl, fun _ => by simp⟩
      · cases h

theorem folded_of_fold_names (h : foldNames names = .ok folded) : ∀ entry ∈ folded,
    entry.1 = foldName entry.2 ∧ entry.2 ∈ names ∧ isTerminalSpelling entry.2 = false := by
  refine foldl_m_invariant (fun folded => ∀ entry ∈ folded,
    entry.1 = foldName entry.2 ∧ entry.2 ∈ names ∧ isTerminalSpelling entry.2 = false) ?_ (by simp) h
  intro folded name next hname hfolded hstep
  obtain ⟨rfl, -⟩ | ⟨hspelling, rfl, -⟩ := add_folded_eq_ok hstep
  · exact hfolded
  · intro entry hentry
    rcases mem_append.mp hentry with hentry | hentry
    · exact hfolded entry hentry
    · rw [mem_singleton.mp hentry]
      exact ⟨rfl, hname, hspelling⟩

/-! ## Renaming -/

theorem plain_replace_word {word new : List Char} (hnew : Plain new) (hcode : Plain code) (skip : Nat)
    (before : Option Char) : Plain (replaceWordFrom word new skip before code) := by
  induction code generalizing skip before with
  | nil => exact hcode
  | cons c rest ih =>
    obtain ⟨hc, hrest⟩ := plain_cons.mp hcode
    cases skip with
    | succ skip => exact ih hrest skip (some c)
    | zero =>
      unfold replaceWordFrom
      split
      · exact plain_append.mpr ⟨hnew, ih hrest _ _⟩
      · exact plain_cons.mpr ⟨hc, ih hrest _ _⟩

theorem replace_word_head (word new : List Char) (h : code.head?.any isWordChar = false) :
    (replaceWordFrom word new 0 none code).head? = code.head? := by
  cases code with
  | nil => rfl
  | cons c rest =>
    have hedge : startsWithWord word none (c :: rest) = false := by
      have hc : isWordChar c = false := h
      simp [startsWithWord, isWordEdge, hc]
    simp [replaceWordFrom, hedge]

theorem cut_replace_word {word new : String} (hnew : Plain new.toList)
    (hcut : Cut Firm text literals) : Cut Firm (replaceWord word new text) literals := by
  refine cut_map_code (fun code hcode => plain_replace_word hnew hcode 0 none) (fun _ _ h => h) ?_ hcut
  intro literal code tail _ _
  refine ⟨fun hnil => by rw [hnil]; rfl, fun _ hbreak => ?_, fun _ hword => ?_⟩
  · have hword : isWordChar '\n' = false := by decide
    rw [replace_word_head _ _ (by simpa [hbreak] using hword), hbreak]
  · rwa [replace_word_head _ _ hword]

end Ebnf

namespace Conversion

open Ebnf Segment

variable {text : List Char} {literals : List (List Char)} {names : List String} {folded : FoldedNames}

theorem cut_change_layout (hcut : Cut Clear text literals) : Cut Firm (changeLayout text) literals := by
  have hcolons := copies_colons.cut hcut (relaid_colons true text)
  have hterminators := copies_drop_terminators.cut (cut_spaced_items hcolons)
    (rfl : dropTerminatorsFrom false _ = dropTerminators _)
  have hjoined := copies_join_alternatives.cut hterminators
    (rfl : joinAlternativesFrom false _ = joinAlternatives _)
  exact cut_starred hjoined

/-- The names that change, in the order in which they are replaced, each after the name it becomes. -/
def renamings (folded : FoldedNames) : FoldedNames :=
  longestFirst (fun entry => entry.2.utf8ByteSize) (folded.filter fun entry => entry.1 != entry.2)

theorem rename_rules_eq (folded : FoldedNames) (text : List Char) : renameRules folded text =
    (renamings folded).foldl (fun text entry => replaceWord entry.2 entry.1 text) text := rfl

theorem mem_of_mem_renamings {entry : String × String} (h : entry ∈ renamings folded) :
    entry ∈ folded ∧ entry.1 ≠ entry.2 := by
  simpa using mem_filter.mp (mem_mergeSort.mp h)

theorem cut_rename_rules (hfolded : ∀ entry ∈ folded, Plain entry.1.toList)
    (hcut : Cut Firm text literals) : Cut Firm (renameRules folded text) literals := by
  have hentries : ∀ entry ∈ renamings folded, Plain entry.1.toList := fun entry hentry =>
    hfolded entry (mem_of_mem_renamings hentry).1
  rw [rename_rules_eq]
  generalize renamings folded = entries at hentries
  induction entries generalizing text with
  | nil => exact hcut
  | cons entry entries ih =>
    refine ih (cut_replace_word (hentries entry (by simp)) hcut) ?_
    exact fun other hother => hentries other (by simp [hother])

theorem promote_eq_ok {name : String} {out : List Char} (h : promote names folded text name = .ok out) :
    ((∃ entry ∈ folded, entry.1 = name) ∨ upperCase name ∈ names) ∧ out = replaceWord name (upperCase name) text := by
  simp only [promote] at h
  cases hrule : folded.any (·.1 == name) with
  | true =>
    obtain ⟨entry, hentry, hname⟩ := any_eq_true.mp hrule
    refine ⟨.inl ⟨entry, hentry, beq_iff_eq.mp hname⟩, ?_⟩
    cases hknown : names.contains (upperCase name) with
    | true => simp only [hrule, hknown, reduceCtorEq] at h
    | false =>
      simp only [hrule, hknown] at h
      exact (Except.ok.inj h).symm
  | false =>
    cases hknown : names.contains (upperCase name) with
    | true =>
      simp only [hrule, hknown] at h
      exact ⟨.inr (contains_iff_mem.mp hknown), (Except.ok.inj h).symm⟩
    | false => simp only [hrule, hknown, reduceCtorEq] at h

theorem cut_promote {name : String} {out : List Char} (hnames : ∀ name ∈ names, Plain name.toList)
    (hfolded : ∀ entry ∈ folded, Plain entry.1.toList) (hcut : Cut Firm text literals)
    (h : promote names folded text name = .ok out) : Cut Firm out literals := by
  obtain ⟨hknown, rfl⟩ := promote_eq_ok h
  refine cut_replace_word ?_ hcut
  rcases hknown with ⟨entry, hentry, rfl⟩ | hterminal
  · exact plain_upper_case (hfolded entry hentry)
  · exact hnames _ hterminal

theorem convert_eq_ok {terminals : List String} {text output : String}
    (h : convert ⟨[], terminals, []⟩ text = .ok output) :
    ∃ folded renamed, foldNames (heads (changeLayout text.toList)) = .ok folded ∧
      terminals.foldlM (promote (heads (changeLayout text.toList)) folded)
        (renameRules folded (changeLayout text.toList)) = .ok renamed ∧
      output = String.ofList (alignContinuations renamed) := by
  obtain ⟨folded, hfolded, hrest⟩ := bind_eq_ok h
  obtain ⟨renamed, hrenamed, hdone⟩ := bind_eq_ok hrest
  exact ⟨folded, renamed, hfolded, hrenamed, (Except.ok.inj hdone).symm⟩

/-- Every literal of the text is steady, no comment is followed by a comma, and no pattern is followed by
a word character. -/
def Undisturbed (text : List Char) : Prop := ∀ placed ∈ placedLiterals (segments text), Clear placed.1 placed.2

instance (text : List Char) : Decidable (Undisturbed text) :=
  inferInstanceAs (Decidable (∀ placed ∈ placedLiterals (segments text),
    (steady placed.1 = true ∧ apart placed.1 placed.2 = true) ∧
      (isComment placed.1 = true → leadsToComma placed.2 = false)))

/-- A conversion without replacements keeps the literals of a text in which they are undisturbed. -/
theorem convert_keeps_literals {terminals : List String} {conversion : Conversion}
    {text output : String} (hrules : ofRules { terminals } = .ok conversion)
    (htext : Undisturbed text.toList) (hconvert : conversion.convert text = .ok output) :
    literalTexts output.toList = literalTexts text.toList := by
  cases hrules
  obtain ⟨folded, renamed, hfolded, hrenamed, rfl⟩ := convert_eq_ok hconvert
  have hnames := plain_heads (changeLayout text.toList)
  have hplain : ∀ entry ∈ folded, Plain entry.1.toList := by
    intro entry hentry
    obtain ⟨hname, hmem, _⟩ := folded_of_fold_names hfolded entry hentry
    rw [hname]
    exact plain_fold_name (hnames _ hmem)
  have hlayout := cut_change_layout (cut_of_placed htext)
  have hpromoted : Cut Firm renamed (literalTexts text.toList) :=
    foldl_m_invariant (fun text => Cut Firm text _)
      (fun _ _ _ _ hcut hstep => cut_promote hnames hplain hcut hstep)
      (cut_rename_rules hplain hlayout) hrenamed
  have haligned := copies_realigned.cut hpromoted (realigned_align renamed)
  rw [String.toList_ofList]
  exact haligned.literal_texts

/-- Literals of each kind stay as they are while commas, heads and names change around them. -/
theorem word_literals_kept : ofRules { terminals := ["word"] } = .ok ⟨[], ["word"], []⟩ ∧
    convert ⟨[], ["word"], []⟩ "// a, b;c\nWord = \"x, = \", /[;,]/i;\nTWO = 'Word' , Word;\n" =
      .ok "// a, b;c\nWORD : \"x, = \" /[;,]/i\nTWO : 'Word' WORD\n" ∧
    literalTexts "// a, b;c\nWORD : \"x, = \" /[;,]/i\nTWO : 'Word' WORD\n".toList =
      literalTexts "// a, b;c\nWord = \"x, = \", /[;,]/i;\nTWO = 'Word' , Word;\n".toList :=
  have hrules : ofRules { terminals := ["word"] } = .ok ⟨[], ["word"], []⟩ := by
    simp [ofRules, longestFirst, pure, Except.pure, bind, Except.bind]
  have hconvert : convert ⟨[], ["word"], []⟩
      "// a, b;c\nWord = \"x, = \", /[;,]/i;\nTWO = 'Word' , Word;\n" =
      .ok "// a, b;c\nWORD : \"x, = \" /[;,]/i\nTWO : 'Word' WORD\n" :=
    eq_ok_of_to_option (by decide +kernel)
  ⟨hrules, hconvert, convert_keeps_literals hrules (by decide) hconvert⟩

/-- A conversion without rules changes the literals of the text. -/
def Disturbs (text : String) : Prop :=
  ∃ output, convert ⟨[], [], []⟩ text = .ok output ∧ literalTexts output.toList ≠ literalTexts text.toList

/-- Literals that are disturbed: a comment that ends with a semicolon or a bar, a comment before a comma, a
line of a text that looks like a head or a continuation, and a pattern that a name touches. -/
theorem literals_disturbed : Disturbs "// keep;\nA = \"x\";\n" ∧ Disturbs "// one |\nA = \"x\";\n" ∧
    Disturbs "A = \"x\" // note\n, \"y\";\n" ∧ Disturbs "A = \"x\ny = z\";\n" ∧
    Disturbs "A = \"x\n   | y\";\n" ∧ Disturbs "Is = \"a\";\nB = /x/Is;\n" := by
  refine ⟨?_, ?_, ?_, ?_, ?_, ?_⟩
  · exact ⟨"// keep\nA : \"x\"\n", eq_ok_of_to_option (by decide +kernel), by decide +kernel⟩
  · exact ⟨"// one | A : \"x\"\n", eq_ok_of_to_option (by decide +kernel), by decide +kernel⟩
  · exact ⟨"A : \"x\" // note \"y\"\n", eq_ok_of_to_option (by decide +kernel), by decide +kernel⟩
  · exact ⟨"A : \"x\ny : z\"\n", eq_ok_of_to_option (by decide +kernel), by decide +kernel⟩
  · exact ⟨"A : \"x\n  | y\"\n", eq_ok_of_to_option (by decide +kernel), by decide +kernel⟩
  · exact ⟨"is : \"a\"\nB : /x/is\n", eq_ok_of_to_option (by decide +kernel), by decide +kernel⟩

end Conversion

end FlightProcedure
