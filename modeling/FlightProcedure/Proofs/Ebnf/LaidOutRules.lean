import FlightProcedure.Proofs.Ebnf.TidyText

/-!
# Rules in any layout

The text of a rule is `Name = body;`. White space may stand between the parts of a body and around them, so
that a rule may take up several lines. `laid_layout` says that a change of layout turns a text of such rules
into a tidy text without the marks of EBNF, in which no line ends with a vertical bar.
-/

namespace FlightProcedure.Ebnf

open Segment List

def isGap (c : Char) : Bool := isSpace c || c == '\n'

def bodyMarks : List (List Char) := [[','], ['|'], ['('], [')'], ['['], [']'], ['\x7b'], ['\x7d'], ['\x7d', '-']]

inductive BodyPart where
  | name (name : RuleName)
  | text (text : QuotedText)
  | mark (chars : List Char) (isMark : chars ∈ bodyMarks)
  | gap (c : Char) (isGap : isGap c = true)

def BodyPart.written : BodyPart → List Char
  | .name rule => rule.chars
  | .text quoted => '"' :: quoted.chars ++ ['"']
  | .mark chars _ => chars
  | .gap c _ => [c]

structure LaidRule where
  name : RuleName
  gap : List Char
  body : List BodyPart
  ending : List Char
  gap_spaces : ∀ c ∈ gap, isSpace c = true
  ending_gaps : ∀ c ∈ ending, isGap c = true

namespace LaidRule

def bodyText (rule : LaidRule) : List Char := rule.body.flatMap BodyPart.written

def written (rule : LaidRule) : List Char :=
  rule.name.chars ++ (rule.gap ++ '=' :: (rule.bodyText ++ ';' :: rule.ending))

end LaidRule

def laidText (rules : List LaidRule) : String := String.ofList (['\n'].intercalate (rules.map LaidRule.written))

variable {c : Char} {without : List Char} {text tail ending : List Char}

theorem code_of_gap (h : isGap c = true) (hwithout : ∀ d ∈ [' ', '\t', '\n'], d ∉ without) :
    isCode without c = true := by
  have hc : c ∈ [' ', '\t', '\n'] := by simpa [isGap, isSpace, or_assoc] using h
  have hmark : c ∈ codeMarks := by
    have hall : ∀ d ∈ [' ', '\t', '\n'], d ∈ codeMarks := by decide
    exact hall c hc
  exact code_of_mark hmark (hwithout c hc)

theorem tidy_ending (h : ∀ c ∈ ending, isGap c = true) (hwithout : ∀ d ∈ [' ', '\t', '\n'], d ∉ without) :
    Tidy without ending :=
  .of_code fun c hc => code_of_gap (h c hc) hwithout

theorem code_of_name (name : RuleName) (hc : c ∈ name.chars) (hwithout : without ⊆ codeMarks.tail) :
    isCode without c = true := by
  rcases mem_unwords name.isWord hc with hword | rfl
  · have hmark : c ∉ without := by
      intro hmem
      have hall : ∀ d ∈ codeMarks, isAsciiWord d = false := by decide
      rw [hall c (mem_of_mem_tail (hwithout hmem))] at hword
      cases hword
    simp [isCode, hword, hmark]
  · exact code_of_mark (by decide) fun hmem => absurd (hwithout hmem) (by decide)

theorem BodyPart.tidy (part : BodyPart) : Tidy [':', ';'] part.written := by
  cases part with
  | name rule => exact .of_code fun c hc => code_of_name rule hc (by decide)
  | text quoted =>
    have h : Tidy [':', ';'] (('"' :: quoted.chars ++ ['"']) ++ []) := .quoted quoted .nil
    rwa [append_nil] at h
  | mark chars isMark =>
    have hall : ∀ chars ∈ bodyMarks, ∀ c ∈ chars, isCode [':', ';'] c = true := by decide
    exact .of_code (hall chars isMark)
  | gap c isGap => exact .char (code_of_gap isGap (by decide)) .nil

theorem LaidRule.body_tidy (rule : LaidRule) : Tidy [':', ';'] rule.bodyText := by
  unfold LaidRule.bodyText
  induction rule.body with
  | nil => exact .nil
  | cons part parts ih => exact part.tidy.append ih

/-! ## Equals signs -/

/-- A text of rules with colons in place of equals signs. A rule ends its line if another one follows. -/
inductive Headed : List Char → Prop where
  | nil : Headed []
  | rule (name : RuleName) {body ending text : List Char} (hbody : Tidy [':', ';'] body)
      (hending : ∀ c ∈ ending, isGap c = true) (hline : text = [] ∨ '\n' ∈ ending) (h : Headed text) :
      Headed ((name.chars ++ ' ' :: ':' :: ' ' :: body) ++ ';' :: (ending ++ text))

theorem after_equals_body {body : List Char} (h : Tidy [':', ';'] body) (tail : List Char) :
    ∃ left, (afterEquals (body ++ ';' :: tail)).1 = left ++ ';' :: tail ∧ Tidy [':', ';'] left := by
  have hdrop : ∀ body, (body ++ ';' :: tail).dropWhile isSpace = body.dropWhile isSpace ++ ';' :: tail := by
    intro body
    induction body with
    | nil => rfl
    | cons c body ih =>
      cases hc : isSpace c with
      | true => simpa [hc] using ih
      | false => simp [hc]
  have hleft := h.drop_spaces
  rw [afterEquals, hdrop]
  cases hbody : body.dropWhile isSpace with
  | nil => exact ⟨[], rfl, .nil⟩
  | cons c left =>
    rw [hbody] at hleft
    by_cases hc : c = '\n'
    · subst hc
      exact ⟨left.dropWhile isSpace, hdrop left, (hleft.of_cons (by decide) (by decide)).2.drop_spaces⟩
    · refine ⟨c :: left, ?_, hleft⟩
      split
      · next heq => exact absurd (List.cons.inj heq).1 hc
      · rfl

theorem LaidRule.colons (rule : LaidRule) (tail : List Char) (htail : tail.head?.all (· == '\n') = true) :
    ∃ body next, Tidy [':', ';'] body ∧ colonsAt true (rule.written ++ tail) =
      (rule.name.chars ++ ' ' :: ':' :: ' ' :: body) ++ ';' :: (rule.ending ++ colonsAt next tail) := by
  obtain ⟨body, hafter, hbody⟩ := after_equals_body rule.body_tidy (rule.ending ++ tail)
  have hrest : Tidy [':'] (body ++ ';' :: rule.ending) :=
    (hbody.mono (by simp)).append (.char (by decide) (tidy_ending rule.ending_gaps (by decide)))
  have hhead := colons_at_defined (definition_head_words rule.name.spelled rule.name.startsName rule.gap_spaces
    (rule.bodyText ++ ';' :: (rule.ending ++ tail)))
  rw [hafter] at hhead
  obtain ⟨next, hcopy⟩ := hrest.colons htail (afterEquals (rule.bodyText ++ ';' :: (rule.ending ++ tail))).2
  refine ⟨body, next, hbody, ?_⟩
  have htext : rule.written ++ tail =
      unwords rule.name.words ++ (rule.gap ++ '=' :: (rule.bodyText ++ ';' :: (rule.ending ++ tail))) := by
    simp [LaidRule.written, RuleName.chars]
  simp only [append_assoc, cons_append] at hcopy
  rw [htext, hhead, hcopy]
  simp [RuleName.chars]

theorem headed_colons (rules : List LaidRule) :
    Headed (colonsAt true (['\n'].intercalate (rules.map LaidRule.written))) := by
  cases rules with
  | nil => exact .nil
  | cons rule rules =>
    rw [map_cons, intercalate_marks]
    induction rules generalizing rule with
    | nil =>
      obtain ⟨body, next, hbody, hcolons⟩ := rule.colons [] rfl
      rw [map_nil, flatMap_nil, hcolons]
      exact .rule rule.name hbody rule.ending_gaps (.inl rfl) .nil
    | cons other rules ih =>
      obtain ⟨body, next, hbody, hcolons⟩ := rule.colons
        ('\n' :: (other.written ++ (rules.map LaidRule.written).flatMap ('\n' :: ·))) rfl
      have hbreak : ∀ text, colonsAt next ('\n' :: text) = ['\n'] ++ colonsAt true text := by
        intro text
        cases next <;> rfl
      rw [map_cons, flatMap_cons, cons_append, hcolons, hbreak, ← append_assoc rule.ending]
      refine .rule rule.name hbody ?_ (.inr (by simp)) (ih other)
      intro c hc
      rcases mem_append.mp hc with hc | hc
      · exact rule.ending_gaps c hc
      · rw [mem_singleton.mp hc]
        rfl

/-! ## Commas and semicolons -/

theorem tidy_start (name : RuleName) {body : List Char} (h : Tidy [':', ';'] body) :
    Tidy [':', ';'] (name.chars ++ ' ' :: ':' :: ' ' :: body) := by
  obtain ⟨_, front, c, hchars, hc⟩ := name.spelled.ends
  have hfront : Tidy [':', ';'] front := .of_code fun d hd => by
    refine code_of_name name ?_ (by decide)
    rw [RuleName.chars, hchars]
    simp [hd]
  have hhead : Tidy [':', ';'] (c :: ' ' :: ':' :: ' ' :: body) := .head hc (.char (by decide) h)
  rw [RuleName.chars, hchars, append_assoc]
  exact hfront.append hhead

theorem Headed.tidy (h : Headed text) : Tidy [':'] text := by
  induction h with
  | nil => exact .nil
  | rule name hbody hending _ _ ih =>
    exact ((tidy_start name hbody).mono (by simp)).append
      (.char (by decide) ((tidy_ending hending (by decide)).append ih))

theorem Headed.no_comma (h : Headed text) : leadsToComma text = false := by
  cases h with
  | nil => rfl
  | rule name hbody hending hline h =>
    obtain ⟨⟨c, rest, hchars, hc⟩, _⟩ := name.spelled.ends
    obtain ⟨_, hblank, _, _, hmem⟩ := class_of_ascii_word hc
    have hcomma : c ≠ ',' := fun heq => hmem (by simp [heq])
    rw [RuleName.chars, hchars]
    simp only [cons_append, leads_to_comma_cons, hblank]
    simpa using hcomma

theorem spaced_items_rule {start : List Char} (hstart : Tidy [':', ';'] start)
    (hending : ∀ c ∈ ending, isGap c = true) (h : Headed text) :
    spacedItems (start ++ ';' :: (ending ++ text)) = spacedItems start ++ ';' :: (ending ++ spacedItems text) := by
  have htext := h.tidy
  have hcode : ∀ c ∈ ending, isCode [':'] c = true := fun c hc => code_of_gap (hending c hc) (by decide)
  have hgaps : Tidy [':'] ending := .of_code hcode
  have hwhole : Tidy [':'] (start ++ ';' :: (ending ++ text)) :=
    (hstart.mono (by simp)).append (.char (by decide) (hgaps.append htext))
  obtain ⟨_, hcut⟩ := hwhole.clear
  obtain ⟨_, hcut'⟩ := hstart.clear
  obtain ⟨_, hcut''⟩ := htext.clear
  have hplain : Plain ending := fun c hc => (class_of_code (hcode c hc)).1
  have hcomma : ',' ∉ ending := fun hmem => absurd (hending _ hmem) (by decide)
  have hfront : mapCode (spacedCode false) (ending ++ text) = ending ++ mapCode (spacedCode false) text := by
    refine htext.map_code_front rfl hplain fun back tail htail hends => ?_
    have hleads := h.no_comma
    rw [htail, leads_to_comma_append hends] at hleads
    exact spaced_code_copy hcomma fun _ => hleads
  have hblank : isBlank ';' = false := by decide
  rw [spaced_items_eq_map_code hcut, spaced_items_eq_map_code hcut', spaced_items_eq_map_code hcut'', ← hfront]
  exact hstart.map_code_split rfl rfl
    (fun front back => spaced_code_split (by decide) hblank front back false) (hgaps.append htext)

theorem drop_terminators_ending (hending : ∀ c ∈ ending, isGap c = true) (hline : text = [] ∨ '\n' ∈ ending) :
    endsLine (ending ++ text) = true ∧ dropTerminatorsFrom true (ending ++ text) =
      ending.dropWhile isSpace ++ dropTerminatorsFrom false text := by
  induction ending with
  | nil =>
    obtain rfl : text = [] := by simpa using hline
    exact ⟨rfl, rfl⟩
  | cons c ending ih =>
    cases hc : isSpace c with
    | true =>
      have hne : '\n' ≠ c := by
        rintro rfl
        cases hc
      have hrest := ih (fun d hd => hending d (by simp [hd])) (by simpa [hne] using hline)
      simpa [endsLine, dropTerminatorsFrom, hc] using hrest
    | false =>
      obtain rfl : c = '\n' := by simpa [isGap, hc] using hending c (by simp)
      have hsemicolon : ';' ∉ ending := fun hmem => absurd (hending ';' (by simp [hmem])) (by decide)
      have hcopy := skims_terminators.copy hsemicolon text
      exact ⟨rfl, congrArg ('\n' :: ·) hcopy⟩

theorem Headed.spaced (h : Headed text) : Tidy [',', ':', ';'] (dropTerminators (spacedItems text)) := by
  induction h with
  | nil => exact .nil
  | @rule name body ending text hbody hending hline h ih =>
    have hstart := (tidy_start name hbody).spaced_items (by decide)
    have hempty : spacedItems text = [] ∨ '\n' ∈ ending := hline.imp_left fun heq => by rw [heq]; rfl
    obtain ⟨hends, hrest⟩ := drop_terminators_ending hending hempty
    have hdrop : dropTerminatorsFrom false (';' :: (ending ++ spacedItems text)) =
        dropTerminatorsFrom true (ending ++ spacedItems text) := by
      simp [dropTerminatorsFrom, hends]
    rw [spaced_items_rule (tidy_start name hbody) hending h]
    unfold dropTerminators at ih ⊢
    rw [hstart.drop_terminators (by simp), hdrop, hrest]
    exact hstart.append ((tidy_ending hending (by decide)).drop_spaces.append ih)

theorem laid_layout (rules : List LaidRule) :
    Tidy ['\x7b', '\x7d', ',', ':', ';'] (Conversion.changeLayout (laidText rules).toList) ∧
      Unbroken (Conversion.changeLayout (laidText rules).toList) := by
  rw [laidText, String.toList_ofList]
  exact tidy_of_joined (headed_colons rules).spaced

end FlightProcedure.Ebnf
