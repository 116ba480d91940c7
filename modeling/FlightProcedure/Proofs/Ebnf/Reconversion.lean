import FlightProcedure.Proofs.Ebnf.ConvertedNames
import FlightProcedure.Proofs.Ebnf.LaidOutRules

/-!
# Converting a converted text

A text is settled if each step of a conversion leaves it alone: it has the layout of grammar notation, its
continuation lines are aligned, its names are folded, and the terminals have their names. `Settled.convert` says
that a settled text is converted to itself, and `settled_of_convert` that a conversion of rules in any layout
ends with a settled text. So a second conversion changes nothing, which is `convert_laid_text_again`.
-/

namespace FlightProcedure.Ebnf

open Segment Conversion List

variable {c : Char} {without text line before code front back word new : List Char} {rest : List (List Char)}
  {f g : List Char → List Char} {name terminal : String} {names terminals : List String}
  {folded entries : FoldedNames}

/-! ## Aligned lines -/

/-- A line, under the separator of the line before it if it is a continuation line. -/
def alignedLine (before line : List Char) : List Char :=
  if (trimStart line).head? = some '|' then replicate (separatorColumn before) ' ' ++ trimStart line
  else line

theorem align_after_cons (before line : List Char) (rest : List (List Char)) :
    alignAfter before (line :: rest) = alignedLine before line :: alignAfter (alignedLine before line) rest := rfl

theorem aligned_line_cases (before line : List Char) : alignedLine before line = line ∨
    ∃ blanks left, (∀ c ∈ blanks, isBlank c = true) ∧ line = blanks ++ '|' :: left ∧
      alignedLine before line = replicate (separatorColumn before) ' ' ++ '|' :: left := by
  unfold alignedLine
  split
  · next hbar =>
    right
    obtain ⟨left, hleft⟩ : ∃ left, trimStart line = '|' :: left := by
      cases htrim : trimStart line with
      | nil => simp [htrim] at hbar
      | cons d left => exact ⟨left, by simpa [htrim] using hbar⟩
    refine ⟨line.takeWhile isBlank, left, fun d hd => of_mem_take_while hd, ?_, by rw [hleft]⟩
    rw [← hleft]
    exact takeWhile_append_dropWhile.symm
  · exact .inl rfl

theorem trim_start_bar {blanks : List Char} (hblanks : ∀ c ∈ blanks, isBlank c = true) (left : List Char) :
    trimStart (blanks ++ '|' :: left) = '|' :: left := by
  have hbar : isBlank '|' = false := by decide
  exact (take_while_append hblanks (by simp [hbar])).2

theorem blank_of_replicate (column : Nat) : ∀ c ∈ replicate column ' ', isBlank c = true := by
  have hspace : isBlank ' ' = true := by decide
  intro c hc
  rw [(mem_replicate.mp hc).2]
  exact hspace

theorem aligned_line_again (before line : List Char) :
    alignedLine before (alignedLine before line) = alignedLine before line := by
  rcases aligned_line_cases before line with heq | ⟨_, left, _, _, heq⟩
  · rw [heq, heq]
  · rw [heq, alignedLine, trim_start_bar (blank_of_replicate _)]
    rfl

theorem align_after_again (before : List Char) (lines : List (List Char)) :
    alignAfter before (alignAfter before lines) = alignAfter before lines := by
  induction lines generalizing before with
  | nil => rfl
  | cons line lines ih => rw [align_after_cons, align_after_cons, aligned_line_again, ih]

theorem mem_align_after {before : List Char} {lines : List (List Char)} (h : line ∈ alignAfter before lines) :
    ∃ before, ∃ old ∈ lines, line = alignedLine before old := by
  induction lines generalizing before with
  | nil => cases h
  | cons old lines ih =>
    rcases mem_cons.mp (align_after_cons before old lines ▸ h) with rfl | h
    · exact ⟨before, old, by simp, rfl⟩
    · obtain ⟨before, other, hother, rfl⟩ := ih h
      exact ⟨before, other, by simp [hother], rfl⟩

theorem aligned_line_unbroken (h : '\n' ∉ line) (before : List Char) : '\n' ∉ alignedLine before line := by
  rcases aligned_line_cases before line with heq | ⟨blanks, left, _, hline, heq⟩
  · rwa [heq]
  · rw [hline, mem_append, not_or] at h
    rw [heq, mem_append, not_or]
    exact ⟨fun hmem => absurd (mem_replicate.mp hmem).2 (by decide), h.2⟩

theorem lines_align {first : List Char} (hlines : splitWhere (· == '\n') text = first :: rest) :
    splitWhere (· == '\n') (alignContinuations text) = first :: alignAfter first rest := by
  obtain ⟨_, _, hsplit, _, hbreaks⟩ := split_where_mark '\n' text
  rw [hlines] at hsplit
  cases hsplit
  rw [alignContinuations, hlines]
  dsimp only
  rw [intercalate_marks]
  refine split_where_marks fun line hline => ?_
  rcases mem_cons.mp hline with rfl | hline
  · exact hbreaks line (by simp)
  · obtain ⟨before, old, hold, rfl⟩ := mem_align_after hline
    exact aligned_line_unbroken (hbreaks old (by simp [hold])) before

theorem align_again (text : List Char) : alignContinuations (alignContinuations text) = alignContinuations text := by
  obtain ⟨first, rest, hlines, _⟩ := split_where_mark '\n' text
  rw [alignContinuations, lines_align hlines]
  dsimp only
  rw [align_after_again, alignContinuations, hlines]

/-- What holds of the lines of a text holds of the lines of the aligned text, if it does not depend on where a
continuation line starts. -/
theorem forall_lines_align {holds : List Char → Prop} (hmove : ∀ before line, holds line → holds (alignedLine before line))
    (h : ∀ line ∈ splitWhere (· == '\n') text, holds line) :
    ∀ line ∈ splitWhere (· == '\n') (alignContinuations text), holds line := by
  obtain ⟨first, rest, hlines, _⟩ := split_where_mark '\n' text
  rw [hlines] at h
  rw [lines_align hlines]
  intro line hline
  rcases mem_cons.mp hline with rfl | hline
  · exact h line (by simp)
  · obtain ⟨before, old, hold, rfl⟩ := mem_align_after hline
    exact hmove before old (h old (by simp [hold]))

theorem tidy_iff_lines (hbreak : isCode without '\n' = true) :
    Tidy without text ↔ ∀ line ∈ splitWhere (· == '\n') text, Tidy without line := by
  refine ⟨Tidy.lines, fun h => ?_⟩
  obtain ⟨first, rest, hlines, htext, _⟩ := split_where_mark '\n' text
  rw [hlines] at h
  rw [htext]
  exact tidy_of_lines hbreak h

theorem eq_of_lines {other : List Char} (h : splitWhere (· == '\n') text = splitWhere (· == '\n') other) :
    text = other := by
  obtain ⟨first, rest, hlines, htext, _⟩ := split_where_mark '\n' text
  obtain ⟨first', rest', hlines', htext', _⟩ := split_where_mark '\n' other
  obtain ⟨rfl, rfl⟩ := cons.inj (hlines.symm.trans (h.trans hlines'))
  rw [htext, htext']

theorem class_of_blank (h : isBlank c = true) : c ≠ '"' ∧ isAsciiWord c = false := by
  refine ⟨?_, ?_⟩
  · rintro rfl
    exact absurd h (by decide)
  · rw [Bool.eq_false_iff]
    intro hword
    rw [(class_of_ascii_word hword).2.1] at h
    cases h

theorem Tidy.aligned_line (hspace : isCode without ' ' = true) (h : Tidy without line) (before : List Char) :
    Tidy without (alignedLine before line) := by
  unfold alignedLine
  split
  · refine Tidy.append (.of_code fun c hc => ?_) (h.drop_while fun c hc => class_of_blank hc)
    rw [(mem_replicate.mp hc).2]
    exact hspace
  · exact h

theorem Tidy.align (hspace : isCode without ' ' = true) (hbreak : isCode without '\n' = true)
    (h : Tidy without text) : Tidy without (alignContinuations text) :=
  (tidy_iff_lines hbreak).mpr
    (forall_lines_align (fun before _ hline => hline.aligned_line hspace before) ((tidy_iff_lines hbreak).mp h))

theorem unbroken_line (hline : '\n' ∉ line) :
    Unbroken (line ++ '\n' :: back) ↔ Unbroken (line ++ ['\n']) ∧ Unbroken back := by
  have hbreaks : ∀ line : List Char, breaksLine (line ++ '\n' :: back) = breaksLine (line ++ ['\n']) := by
    intro line
    induction line with
    | nil => rfl
    | cons c line ih => exact breaks_line_cons fun _ => ih
  induction line with
  | nil => simp [Unbroken]
  | cons c line ih =>
    simp only [mem_cons, not_or] at hline
    simp only [cons_append, Unbroken, hbreaks, ih hline.2, and_assoc]

theorem Unbroken.align_after {first : List Char} {lines : List (List Char)} (hlines : ∀ line ∈ first :: lines, '\n' ∉ line)
    (h : Unbroken (first ++ lines.flatMap ('\n' :: ·))) :
    Unbroken (first ++ (alignAfter first lines).flatMap ('\n' :: ·)) := by
  -- The end of a line is kept when the bar at its start is moved.
  have hmove : ∀ before line back, Unbroken (line ++ back) → Unbroken (alignedLine before line ++ back) := by
    intro before line back hline
    rcases aligned_line_cases before line with heq | ⟨blanks, left, hblanks, rfl, heq⟩
    · rwa [heq]
    · have hbar : isBlank '|' = false := by decide
      have hno : ∀ blanks : List Char, (∀ c ∈ blanks, isBlank c = true) → '|' ∉ blanks := by
        intro blanks hblanks hmem
        rw [hblanks '|' hmem] at hbar
        cases hbar
      rw [append_assoc, unbroken_front (hno blanks hblanks)] at hline
      rwa [heq, append_assoc, unbroken_front (hno _ (blank_of_replicate _))]
  induction lines generalizing first with
  | nil => exact h
  | cons line lines ih =>
    obtain ⟨hfirst, hline, hrest⟩ := forall_mem_cons.mp hlines |>.imp_right forall_mem_cons.mp
    rw [flatMap_cons, cons_append, unbroken_line hfirst] at h
    rw [align_after_cons, flatMap_cons, cons_append, unbroken_line hfirst]
    exact ⟨h.1, ih (forall_mem_cons.mpr ⟨aligned_line_unbroken hline first, hrest⟩) (hmove first line _ h.2)⟩

theorem Unbroken.align (h : Unbroken text) : Unbroken (alignContinuations text) := by
  obtain ⟨first, rest, hlines, htext, hbreaks⟩ := split_where_mark '\n' text
  rw [alignContinuations, hlines]
  dsimp only
  rw [intercalate_marks]
  rw [htext] at h
  exact h.align_after hbreaks

theorem head_none (h : line.head?.any (fun c => isBlank c || c == '|') = true) : head? line = none := by
  cases line with
  | nil => cases h
  | cons c line =>
    have hc : isBlank c = true ∨ c = '|' := by simpa using h
    have hno : (c == '!' || c == '?') = false ∧ startsName c = false := by
      rcases hc with hc | rfl
      · refine ⟨?_, ?_⟩ <;> rw [Bool.eq_false_iff] <;> intro hstart
        · have hmarks : ∀ d ∈ ['!', '?'], isBlank d = false := by decide
          rw [hmarks c (by simpa using hstart)] at hc
          cases hc
        · rw [(class_of_ascii_word (word_of_letter hstart)).2.1] at hc
          cases hc
      · decide
    simp [head?, hno]

theorem head_aligned_line (before line : List Char) : head? (alignedLine before line) = head? line := by
  rcases aligned_line_cases before line with heq | ⟨blanks, left, hblanks, rfl, heq⟩
  · rw [heq]
  · have hnone : ∀ blanks : List Char, (∀ c ∈ blanks, isBlank c = true) → head? (blanks ++ '|' :: left) = none := by
      intro blanks hblanks
      refine head_none ?_
      cases blanks with
      | nil => rfl
      | cons d blanks => simp [hblanks d (by simp)]
    rw [heq, hnone _ (blank_of_replicate _), hnone _ hblanks]

theorem heads_align (text : List Char) : heads (alignContinuations text) = heads text := by
  have hafter : ∀ (lines : List (List Char)) (before : List Char),
      (alignAfter before lines).filterMap head? = lines.filterMap head? := by
    intro lines
    induction lines with
    | nil => exact fun _ => rfl
    | cons line lines ih =>
      intro before
      rw [align_after_cons, filterMap_cons, filterMap_cons, head_aligned_line, ih]
  obtain ⟨first, rest, hlines, _⟩ := split_where_mark '\n' text
  unfold heads
  rw [lines_align hlines, hlines, filterMap_cons, filterMap_cons, hafter]

/-! ## Words that have been replaced -/

theorem Tidy.map_code_twice (hf : f [] = []) (hg : g [] = []) (hplain : ∀ code, Plain code → Plain (f code))
    (h : Tidy without text) : mapCode g (mapCode f text) = mapCode (fun code => g (f code)) text := by
  have hcomp : g (f []) = [] := by rw [hf, hg]
  refine h.blocks ?_ ?_
  · intro code hcode _
    rw [map_code_plain hf hcode, map_code_plain hcomp hcode, map_code_plain hg (hplain code hcode)]
  · intro code quoted after hcode _ _ ih
    rw [map_code_quoted hf hcode, map_code_quoted hg (hplain code hcode), map_code_quoted hcomp hcode, ih]

theorem Tidy.map_code_congr (hf : f [] = []) (hg : g [] = [])
    (hsame : ∀ code, Plain code → Tidy without code → f code = g code) (h : Tidy without text) :
    mapCode f text = mapCode g text := by
  refine h.blocks ?_ ?_
  · intro code hcode htidy
    rw [map_code_plain hf hcode, map_code_plain hg hcode, hsame code hcode htidy]
  · intro code quoted after hcode htidy _ ih
    rw [map_code_quoted hf hcode, map_code_quoted hg hcode, hsame code hcode htidy, ih]

def replaceAllIn (entries : FoldedNames) (code : List Char) : List Char :=
  entries.foldl (fun code entry => replaceWordFrom entry.2.toList entry.1.toList 0 none code) code

theorem replace_all_in_nil (entries : FoldedNames) : replaceAllIn entries [] = [] := by
  induction entries with
  | nil => rfl
  | cons _ _ ih => exact ih

theorem IsName.plain (h : IsName word) : Plain word := by
  intro c hc
  rcases h.mem c hc with hword | rfl
  · exact (class_of_ascii_word hword).2.2.2.1
  · rfl

theorem plain_replace_all_in (hentries : NamesOnly entries) (h : Plain code) : Plain (replaceAllIn entries code) := by
  induction entries generalizing code with
  | nil => exact h
  | cons entry entries ih =>
    exact ih (fun other hother => hentries other (mem_cons_of_mem entry hother))
      (plain_replace_word (hentries entry (by simp)).1.plain h 0 none)

theorem Tidy.replace_all_eq (hentries : NamesOnly entries) (h : Tidy [] text) :
    replaceAll entries text = mapCode (replaceAllIn entries) text := by
  induction entries generalizing text with
  | nil => exact (h.map_code_eq rfl fun _ _ _ => rfl).symm
  | cons entry entries ih =>
    obtain ⟨hnew, _⟩ := hentries entry (by simp)
    have htidy : Tidy [] (replaceWord entry.2 entry.1 text) := h.replace_word hnew (by simp)
    have hnext := ih (fun other hother => hentries other (mem_cons_of_mem entry hother)) htidy
    rw [replaceWord, h.map_code_twice rfl (replace_all_in_nil entries)
      fun _ hcode => plain_replace_word hnew.plain hcode 0 none] at hnext
    exact hnext

theorem word_induction {motive : List Char → Prop} (run : ∀ run, (∀ c ∈ run, isWordChar c = true) → motive run)
    (mark : ∀ run c back, (∀ d ∈ run, isWordChar d = true) → isWordChar c = false → motive back →
      motive (run ++ c :: back)) (code : List Char) : motive code := by
  induction hlength : code.length using Nat.strongRecOn generalizing code with
  | ind length ih =>
    have hsplit := takeWhile_append_dropWhile (p := isWordChar) (l := code)
    have hrun : ∀ c ∈ code.takeWhile isWordChar, isWordChar c = true := fun c hc => of_mem_take_while hc
    have hends := head_drop_while isWordChar code
    cases hdrop : code.dropWhile isWordChar with
    | nil =>
      rw [hdrop, append_nil] at hsplit
      exact hsplit ▸ run _ hrun
    | cons c back =>
      rw [hdrop] at hsplit hends
      rw [← hsplit]
      refine mark _ c back hrun hends (ih back.length ?_ back rfl)
      rw [← hlength, ← hsplit, length_append, length_cons]
      omega

theorem replace_all_in_mark (hentries : NamesOnly entries) (hwords : ∀ entry ∈ entries, IsWord entry.2.toList)
    (hc : isWordChar c = false) (front back : List Char) :
    replaceAllIn entries (front ++ c :: back) = replaceAllIn entries front ++ c :: replaceAllIn entries back := by
  induction entries generalizing front back with
  | nil => rfl
  | cons entry entries ih =>
    have hstep : replaceWordFrom entry.2.toList entry.1.toList 0 none (front ++ c :: back) =
        replaceWordFrom entry.2.toList entry.1.toList 0 none front ++
          c :: replaceWordFrom entry.2.toList entry.1.toList 0 none back :=
      replace_word_mark (hentries entry (by simp)).2 hc ((hwords entry (by simp)).not_mem hc) none front back
    have hrest := ih (fun other hother => hentries other (mem_cons_of_mem entry hother))
      (fun other hother => hwords other (mem_cons_of_mem entry hother))
      (replaceWordFrom entry.2.toList entry.1.toList 0 none front)
      (replaceWordFrom entry.2.toList entry.1.toList 0 none back)
    rw [replaceAllIn, foldl_cons, hstep]
    exact hrest

section

variable (hsnake : ∀ terminal ∈ terminals, isSnakeCase terminal = true)

include hsnake

theorem promoted_ne (hmem : terminal ∈ terminals) : promotedName terminals name ≠ terminal := by
  unfold promotedName
  split
  · next hknown =>
    rintro rfl
    exact upper_case_fresh hsnake (hsnake name hknown) hmem
  · next hknown =>
    rintro rfl
    exact hknown hmem

theorem promoted_word {run : List Char} (hmem : terminal ∈ terminals) (hrun : ∀ c ∈ run, isAsciiWord c = true) :
    replaceAllIn (promotions terminals) run ≠ terminal.toList ∧
      ∀ c ∈ replaceAllIn (promotions terminals) run, isWordChar c = true := by
  have hterminal := hsnake terminal hmem
  by_cases hne : run = []
  · subst hne
    rw [replace_all_in_nil]
    exact ⟨(snake_case_word hterminal).1.1.symm, by simp⟩
  · have hall : ∀ (entries : FoldedNames) (name : String),
        (renamedAll entries name).toList = replaceAllIn entries name.toList := by
      intro entries
      induction entries with
      | nil => exact fun _ => rfl
      | cons entry entries ih =>
        intro name
        have hnext := ih (renamed entry.2 entry.1 name)
        rwa [renamed, String.toList_ofList] at hnext
    have hword : IsWord (String.ofList run).toList := by
      rw [String.toList_ofList]
      exact ⟨hne, hrun⟩
    have hname := renamed_all_promotions hsnake hword
    have hchars := hall (promotions terminals) (String.ofList run)
    rw [String.toList_ofList, hname] at hchars
    rw [← hchars]
    refine ⟨fun heq => promoted_ne hsnake hmem (String.toList_inj.mp heq), ?_⟩
    unfold promotedName
    split
    · next hknown => exact fun c hc => (class_of_ascii_word ((upper_case_word (hsnake _ hknown)).2 c hc)).1
    · rw [String.toList_ofList]
      exact fun c hc => (class_of_ascii_word (hrun c hc)).1

theorem replace_word_promoted (hmem : terminal ∈ terminals) (h : Tidy [] text) :
    replaceWord terminal (upperCase terminal) (replaceAll (promotions terminals) text) =
      replaceAll (promotions terminals) text := by
  have hname : IsName terminal.toList := .of_snake_case (hsnake terminal hmem)
  have hentries := names_only_promotions hsnake
  have hwords : ∀ entry ∈ promotions terminals, IsWord entry.2.toList := by
    intro entry hentry
    obtain ⟨other, hother, rfl⟩ := mem_map.mp hentry
    exact (snake_case_word (hsnake other hother)).1
  have hcode : ∀ code : List Char, (∀ c ∈ code, isCode [] c = true) →
      replaceWordFrom terminal.toList (upperCase terminal).toList 0 none (replaceAllIn (promotions terminals) code) =
        replaceAllIn (promotions terminals) code := by
    have hascii : ∀ c, isCode [] c = true → isWordChar c = true → isAsciiWord c = true := by
      intro c hc hword
      have hmarks : ∀ d ∈ codeMarks, isWordChar d = false := by decide
      simp only [isCode, Bool.and_eq_true, Bool.or_eq_true, contains_eq_mem, decide_eq_true_eq] at hc
      refine hc.1.resolve_right fun hmark => ?_
      rw [hmarks c hmark] at hword
      cases hword
    have hone : ∀ run : List Char, (∀ c ∈ run, isCode [] c = true) → (∀ c ∈ run, isWordChar c = true) →
        replaceWordFrom terminal.toList (upperCase terminal).toList 0 none (replaceAllIn (promotions terminals) run) =
          replaceAllIn (promotions terminals) run := by
      intro run hrun hword
      obtain ⟨hne, hchars⟩ := promoted_word hsnake hmem fun c hc => hascii c (hrun c hc) (hword c hc)
      rw [replace_word_one hname hchars, if_neg hne]
    intro code
    induction code using word_induction with
    | run run hword => exact fun hrun => hone run hrun hword
    | mark run c back hword hc ih =>
      intro hall
      have hback := ih fun d hd => hall d (by simp [hd])
      rw [replace_all_in_mark hentries hwords hc, replace_word_mark hname hc ((snake_case_word (hsnake terminal hmem)).1.not_mem hc),
        hone run (fun d hd => hall d (by simp [hd])) hword, hback]
  have hnil := replace_all_in_nil (promotions terminals)
  rw [h.replace_all_eq hentries, replaceWord, h.map_code_twice hnil rfl fun _ => plain_replace_all_in hentries]
  refine h.map_code_congr (by rw [hnil]; rfl) hnil fun code hplain htidy => hcode code (htidy.code_of_mem hplain)

end

theorem Tidy.blank_front {blanks : List Char} (hblanks : ∀ c ∈ blanks, isBlank c = true)
    (h : Tidy without (blanks ++ text)) : ∀ c ∈ blanks, isWordChar c = false ∧ opensLiteral c = false := by
  induction blanks with
  | nil => simp
  | cons d blanks ih =>
    have hd := class_of_blank (hblanks d (by simp))
    have hcode : isCode without d = true := (h.of_cons hd.1 hd.2).1
    intro c hc
    rcases mem_cons.mp hc with rfl | hc
    · have hmarks : ∀ d ∈ codeMarks, isWordChar d = false := by decide
      have hmark : c ∈ codeMarks := by simpa [isCode, hd.2] using (Bool.and_eq_true_iff.mp hcode).1
      exact ⟨hmarks c hmark, (class_of_code hcode).1⟩
    · exact ih (fun e he => hblanks e (by simp [he])) (h.of_cons hd.1 hd.2).2 c hc

section

variable {word : String} (hword : IsWord word.toList) (hname : IsName word.toList)

include hword hname

theorem Tidy.replace_word_front {new : String}
    (hfront : ∀ c ∈ front, isWordChar c = false ∧ opensLiteral c = false) (h : Tidy without text) :
    replaceWord word new (front ++ text) = front ++ replaceWord word new text := by
  refine h.map_code_front rfl (fun c hc => (hfront c hc).2) fun back _ _ _ => ?_
  clear h
  induction front with
  | nil => rfl
  | cons c front ih =>
    have hc := (hfront c (by simp)).1
    have hstep : replaceWordFrom word.toList new.toList 0 none ([] ++ c :: (front ++ back)) =
        [] ++ c :: replaceWordFrom word.toList new.toList 0 none (front ++ back) :=
      replace_word_mark hname hc (hword.not_mem hc) none [] (front ++ back)
    rw [ih fun d hd => hfront d (by simp [hd])] at hstep
    exact hstep

theorem replace_word_aligned_line {new : String}
    (htidy : Tidy without line) (h : replaceWord word new line = line) (before : List Char) :
    replaceWord word new (alignedLine before line) = alignedLine before line := by
  rcases aligned_line_cases before line with heq | ⟨blanks, left, hblanks, rfl, heq⟩
  · rwa [heq]
  · have hleft : Tidy without ('|' :: left) := by
      have hdrop := htidy.drop_while fun c hc => class_of_blank hc
      have htrim : (blanks ++ '|' :: left).dropWhile isBlank = '|' :: left := trim_start_bar hblanks left
      rwa [htrim] at hdrop
    have hspaces : ∀ c ∈ replicate (separatorColumn before) ' ', isWordChar c = false ∧ opensLiteral c = false := by
      intro c hc
      rw [(mem_replicate.mp hc).2]
      exact ⟨space_no_word, rfl⟩
    rw [hleft.replace_word_front hword hname (htidy.blank_front hblanks)] at h
    rw [heq, hleft.replace_word_front hword hname hspaces, append_cancel_left h]

theorem Tidy.replace_word_align {new : String}
    (hnew : IsName new.toList) (hspace : isCode without ' ' = true) (hbreak : isCode without '\n' = true)
    (htidy : Tidy without text) (h : replaceWord word new text = text) :
    replaceWord word new (alignContinuations text) = alignContinuations text := by
  have hlines := htidy.lines_replace_word hname hnew
  rw [h] at hlines
  have hsame : ∀ line ∈ splitWhere (· == '\n') text, Tidy without line ∧ replaceWord word new line = line :=
    fun line hline => ⟨htidy.lines line hline, map_inj_left.mp (hlines.symm.trans (map_id _).symm) line hline⟩
  have hmoved := forall_lines_align (fun before line hline => ⟨hline.1.aligned_line hspace before,
    replace_word_aligned_line hword hname hline.1 hline.2 before⟩) hsame
  refine eq_of_lines ?_
  rw [(htidy.align hspace hbreak).lines_replace_word hname hnew]
  exact (map_congr_left fun line hline => (hmoved line hline).2).trans (map_id _)

end

/-! ## Settled texts -/

/-- A text that a conversion with the given terminals leaves alone. -/
structure Settled (terminals : List String) (text : List Char) : Prop where
  tidy : Tidy ['\x7b', '\x7d', ',', ';'] text
  unbroken : Unbroken text
  aligned : alignContinuations text = text
  folded : ∀ name ∈ heads text, foldedName name = name
  promoted : ∀ terminal ∈ terminals, terminal ∉ heads text ∧ upperCase terminal ∈ heads text
  replaced : ∀ terminal ∈ terminals, replaceWord terminal (upperCase terminal) text = text

theorem fold_names_folded (h : ∀ name ∈ names, foldedName name = name) :
    ∃ folded, foldNames names = .ok folded ∧ ∀ entry ∈ folded, entry.1 = entry.2 ∧ entry.2 ∈ names := by
  refine foldl_m_ok (fun folded : FoldedNames => ∀ entry ∈ folded, entry.1 = entry.2 ∧ entry.2 ∈ names)
    (fun folded name hmem hfolded => ?_) nofun
  have hname := h name hmem
  unfold foldedName at hname
  unfold addFolded
  split
  · exact ⟨folded, rfl, hfolded⟩
  · next hspelling =>
    rw [if_neg hspelling] at hname
    rw [hname]
    split
    · exact ⟨_, rfl, forall_mem_append.mpr ⟨hfolded, forall_mem_singleton.mpr ⟨rfl, hmem⟩⟩⟩
    · next first hfirst =>
      obtain ⟨front, back, rfl, -⟩ := lookup_eq_some_iff.mp hfirst
      have hsame : name = first := (hfolded (name, first) (by simp)).1
      exact ⟨_, by rw [if_pos hsame.symm], hfolded⟩

/-- A settled text is converted to itself. -/
theorem Settled.convert (h : Settled terminals text) :
    Conversion.convert ⟨[], terminals, []⟩ (String.ofList text) = .ok (String.ofList text) := by
  have hlayout : changeLayout text = text := change_layout_fixed h.tidy (by decide) h.unbroken
  obtain ⟨folded, hfolded, hentries⟩ := fold_names_folded h.folded
  have hrename : renameRules folded text = text := by
    have hnone : renamings folded = [] := by
      rw [eq_nil_iff_forall_not_mem]
      intro entry hentry
      obtain ⟨hmem, hne⟩ := mem_of_mem_renamings hentry
      exact hne (hentries entry hmem).1
    rw [rename_rules_eq, hnone]
    rfl
  obtain ⟨_, hpromote, rfl⟩ : ∃ result, terminals.foldlM (promote (heads text) folded) text = .ok result ∧
      result = text := by
    refine foldl_m_ok (· = text) (fun _ terminal hmem hsame => ⟨text, ?_, rfl⟩) rfl
    obtain ⟨hrule, hterminal⟩ := h.promoted terminal hmem
    have hno : folded.any (·.1 == terminal) = false := by
      rw [any_eq_false]
      intro entry hentry heq
      obtain ⟨hsame, hknown⟩ := hentries entry hentry
      rw [beq_iff_eq] at heq
      exact hrule (heq ▸ hsame ▸ hknown)
    simp only [hsame, promote, hno, contains_iff_mem.mpr hterminal, h.replaced terminal hmem]
  simp only [Conversion.convert, foldl_nil, String.toList_ofList, hlayout, hfolded, ok_bind, hrename,
    hpromote, h.aligned]
  rfl

section

variable {text output : String} (hsnake : ∀ terminal ∈ terminals, isSnakeCase terminal = true)

include hsnake

theorem folded_promoted (hname : IsName name.toList) :
    foldedName (promotedName terminals (foldedName name)) = promotedName terminals (foldedName name) := by
  have hkept : foldedName (foldedName name) = foldedName name := by
    cases hspelling : isTerminalSpelling name with
    | true => simp [foldedName, hspelling]
    | false => simp [foldedName, hspelling, fold_name_fold hname.mem]
  unfold promotedName
  split
  · next hmem => rw [foldedName, if_pos (upper_case_terminal (hsnake _ hmem))]
  · exact hkept

theorem settled_of_convert {layout : List Char} (hlayout : changeLayout text.toList = layout)
    (htidy : Tidy ['\x7b', '\x7d', ',', ':', ';'] layout) (hbars : Unbroken layout)
    (h : Conversion.convert ⟨[], terminals, []⟩ text = .ok output) : Settled terminals output.toList := by
  obtain ⟨folded, out, hfolded, hout, rfl⟩ := convert_eq_ok h
  rw [hlayout] at hfolded hout
  obtain ⟨rfl, hknown⟩ := promote_all_eq_ok hout
  have hnames : ∀ name ∈ heads layout, IsName name.toList := by
    intro name hname
    obtain ⟨line, hline, hhead⟩ := mem_heads.mp hname
    exact (htidy.lines line hline).head_name (by decide) hhead
  have hentries := names_only_converted hnames hfolded hsnake
  have hmarks : ∀ c ∈ ['\x7b', '\x7d', ',', ';'], isAsciiWord c = false ∧ c ∉ [' ', ':'] := by decide
  have hstart : Tidy ['\x7b', '\x7d', ',', ';'] layout := htidy.mono (by decide)
  have hall : replaceAll (promotions terminals) (renameRules folded layout) =
      replaceAll (renamings folded ++ promotions terminals) layout := by
    rw [replaceAll, replaceAll, foldl_append]
    rfl
  obtain ⟨hdone, hjoined⟩ := hstart.replace_all hentries hmarks hbars
  have hheads : ∀ name, name ∈ heads (replaceAll (renamings folded ++ promotions terminals)
      layout) ↔ ∃ old ∈ heads layout, name = promotedName terminals (foldedName old) := by
    intro name
    refine (mem_heads_replace_all hentries hmarks hstart).trans ?_
    refine exists_congr fun old => and_congr_right fun hold => ?_
    rw [renamed_all_converted hnames hfolded hsnake hold]
  have hreplaced : ∀ terminal ∈ terminals, replaceWord terminal (upperCase terminal)
      (replaceAll (renamings folded ++ promotions terminals) layout) =
        replaceAll (renamings folded ++ promotions terminals) layout := by
    intro terminal hmem
    have hnamed : NamesOnly (renamings folded) := fun entry hentry => hentries entry (by simp [hentry])
    have hrenamed := (hstart.replace_all hnamed hmarks hbars).1
    rw [← hall]
    exact replace_word_promoted hsnake hmem (hrenamed.mono (by simp))
  rw [String.toList_ofList, hall]
  refine ⟨hdone.align (by decide) (by decide), hjoined.align, align_again _, ?_, ?_, ?_⟩
  · rw [heads_align]
    intro name hname
    obtain ⟨old, hold, rfl⟩ := (hheads name).mp hname
    exact folded_promoted hsnake (hnames old hold)
  · rw [heads_align]
    intro terminal hmem
    refine ⟨fun hname => ?_, (hheads _).mpr ?_⟩
    · obtain ⟨old, _, heq⟩ := (hheads terminal).mp hname
      exact promoted_ne hsnake hmem heq.symm
    · rcases hknown terminal hmem with ⟨entry, hentry, rfl⟩ | hterminal
      · obtain ⟨hfold, hold, hspelling⟩ := folded_of_fold_names hfolded entry hentry
        refine ⟨entry.2, hold, ?_⟩
        rw [foldedName, if_neg (by simp [hspelling]), ← hfold, promotedName, if_pos hmem]
      · refine ⟨_, hterminal, ?_⟩
        have hspelling := upper_case_terminal (hsnake terminal hmem)
        rw [foldedName, if_pos hspelling, promotedName, if_neg (upper_case_fresh hsnake (hsnake terminal hmem))]
  · intro terminal hmem
    have hterminal := hsnake terminal hmem
    exact hdone.replace_word_align (snake_case_word hterminal).1 (.of_snake_case hterminal)
      (.of_upper_case hterminal) (by decide) (by decide) (hreplaced terminal hmem)

end

/-- A conversion without replacements leaves its own results alone: rules in any layout that are converted are
converted to the same text once more. -/
theorem convert_laid_text_again {rules : List LaidRule} {conversion : Conversion} {output : String}
    (hsnake : ∀ terminal ∈ terminals, isSnakeCase terminal = true)
    (hrules : Conversion.ofRules { terminals } = .ok conversion)
    (h : conversion.convert (laidText rules) = .ok output) : conversion.convert output = .ok output := by
  cases hrules
  have hsorted : ∀ terminal ∈ longestFirst String.utf8ByteSize terminals, isSnakeCase terminal = true :=
    fun terminal hmem => hsnake terminal (mem_mergeSort.mp hmem)
  have hsettled : Settled (longestFirst String.utf8ByteSize terminals) output.toList := by
    obtain ⟨layout, hlayout⟩ : ∃ layout, changeLayout (laidText rules).toList = layout := ⟨_, rfl⟩
    have hlaid := laid_layout rules
    rw [hlayout] at hlaid
    exact settled_of_convert hsorted hlayout hlaid.1 hlaid.2 h
  have hconvert := hsettled.convert
  rwa [String.ofList_toList] at hconvert

def unitName : RuleName := ⟨["Unit".toList, "Name".toList], by decide, by decide⟩

def letterName : RuleName := ⟨["letter".toList], by decide, by decide⟩

/-- Two rules in several lines, with a name of two words, all the marks, and continuation lines in other columns. -/
def spacedRules : List LaidRule :=
  [{ name := unitName
     gap := [' ']
     body := [.gap '\n' rfl, .gap '\t' rfl, .name letterName, .mark [','] (by decide), .gap '\n' rfl,
       .mark ['\x7b'] (by decide), .text ⟨"x, y;".toList, by decide⟩, .gap '\n' rfl, .gap ' ' rfl,
       .mark ['|'] (by decide), .gap ' ' rfl, .name unitName, .mark ['\x7d', '-'] (by decide)]
     ending := [' ', '\n']
     gap_spaces := by decide +kernel
     ending_gaps := by decide },
   { name := letterName
     gap := []
     body := [.mark ['['] (by decide), .name letterName, .mark [']'] (by decide), .mark ['|'] (by decide),
       .gap '\n' rfl, .text ⟨"a = b".toList, by decide⟩]
     ending := ['\n']
     gap_spaces := by decide
     ending_gaps := by decide }]

/-- The continuation line is aligned, and the second conversion changes nothing. -/
theorem spaced_rules_settle :
    laidText spacedRules = "Unit Name =\n\tletter,\n\x7b\"x, y;\"\n | Unit Name\x7d-; \n\nletter=[letter]|\n\"a = b\";\n" ∧
    Conversion.convert ⟨[], ["letter"], []⟩ (laidText spacedRules) =
      .ok "unit_name : LETTER (\"x, y;\"\n          | unit_name)+\n\nLETTER : [LETTER]| \"a = b\"\n" ∧
    Conversion.convert ⟨[], ["letter"], []⟩
        "unit_name : LETTER (\"x, y;\"\n          | unit_name)+\n\nLETTER : [LETTER]| \"a = b\"\n" =
      .ok "unit_name : LETTER (\"x, y;\"\n          | unit_name)+\n\nLETTER : [LETTER]| \"a = b\"\n" :=
  have hrules : Conversion.ofRules { terminals := ["letter"] } = .ok ⟨[], ["letter"], []⟩ := by
    simp [Conversion.ofRules, longestFirst, pure, Except.pure, bind, Except.bind]
  have hconvert : Conversion.convert ⟨[], ["letter"], []⟩ (laidText spacedRules) =
      .ok "unit_name : LETTER (\"x, y;\"\n          | unit_name)+\n\nLETTER : [LETTER]| \"a = b\"\n" :=
    eq_ok_of_to_option (by decide +kernel)
  ⟨by decide, hconvert, convert_laid_text_again (by decide) hrules hconvert⟩

end FlightProcedure.Ebnf
