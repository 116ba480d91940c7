import FlightProcedure.Proofs.Ebnf.PrintedLayout

/-!
# Texts that a change of layout leaves alone

`Tidy without text` says that a text consists of quoted texts and of code without certain marks, and
`Unbroken text` that no line of it ends with a vertical bar. Each step of a change of layout takes away the
marks that it is there for, and it changes nothing where they are missing. So a change of layout leaves its
own results alone, which is `change_layout_fixed`.
-/

namespace FlightProcedure.Ebnf

open Segment List

variable {c : Char} {without less : List Char} {text rest tail code : List Char} {flag : Bool}
  {f : List Char → List Char}

def codeMarks : List Char := [' ', '\t', '\n', ',', '|', '(', ')', '[', ']', '\x7b', '\x7d', '-', ':', ';', '*', '+']

def isCode (without : List Char) (c : Char) : Bool := (isAsciiWord c || codeMarks.contains c) && !without.contains c

/-- A text of quoted texts and of code without certain marks. A colon comes behind a word and a space, unless
it is code like any other mark. -/
inductive Tidy (without : List Char) : List Char → Prop where
  | nil : Tidy without []
  | char {c : Char} {text : List Char} (hc : isCode without c = true) (h : Tidy without text) :
      Tidy without (c :: text)
  | quoted (quoted : QuotedText) {text : List Char} (h : Tidy without text) :
      Tidy without (('"' :: quoted.chars ++ ['"']) ++ text)
  | head {c : Char} {text : List Char} (hc : isAsciiWord c = true) (h : Tidy without text) :
      Tidy without (c :: ' ' :: ':' :: text)

theorem class_of_code (h : isCode without c = true) :
    opensLiteral c = false ∧ c ≠ '=' ∧ c ≠ '!' ∧ c ≠ '?' ∧ c ∉ without := by
  simp only [isCode, Bool.and_eq_true, Bool.or_eq_true, Bool.not_eq_true', contains_eq_mem,
    decide_eq_true_eq, decide_eq_false_iff_not] at h
  obtain ⟨hkind, hwithout⟩ := h
  have hmarks : ∀ d ∈ codeMarks, d.toNat < 0x80 := by decide
  have hascii := hkind.elim ascii_of_word (hmarks c)
  have hclass : opensLiteral c = false ∧ c ≠ '=' ∧ c ≠ '!' ∧ c ≠ '?' := by
    revert hkind
    exact of_ascii hascii (by decide)
  exact ⟨hclass.1, hclass.2.1, hclass.2.2.1, hclass.2.2.2, hwithout⟩

theorem not_mem_head {mark : Char} (hc : isAsciiWord c = true)
    (hmark : isAsciiWord mark = false ∧ mark ∉ [' ', ':']) : mark ∉ [c, ' ', ':'] := by
  rw [mem_cons, not_or]
  refine ⟨?_, hmark.2⟩
  rintro rfl
  cases hc.symm.trans hmark.1

theorem code_of_mark (hmark : c ∈ codeMarks) (hwithout : c ∉ without) : isCode without c = true := by
  simp [isCode, hmark, hwithout]

theorem code_of_ne {mark : Char} (hne : c ≠ mark) (h : isCode without c = true) :
    isCode (mark :: without) c = true := by
  simp only [isCode, Bool.and_eq_true, Bool.not_eq_true', contains_eq_mem, decide_eq_false_iff_not,
    mem_cons, not_or] at h ⊢
  exact ⟨h.1, hne, h.2⟩

namespace Tidy

theorem mono (hless : ∀ c ∈ less, c ∈ without) (h : Tidy without text) : Tidy less text := by
  induction h with
  | nil => exact .nil
  | char hc _ ih =>
    refine .char ?_ ih
    simp only [isCode, Bool.and_eq_true, Bool.not_eq_true', contains_eq_mem, decide_eq_false_iff_not] at hc ⊢
    exact ⟨hc.1, fun hmem => hc.2 (hless _ hmem)⟩
  | quoted quoted _ ih => exact .quoted quoted ih
  | head hc _ ih => exact .head hc ih

theorem append (h : Tidy without text) (hrest : Tidy without rest) : Tidy without (text ++ rest) := by
  induction h with
  | nil => exact hrest
  | char hc _ ih => exact .char hc ih
  | quoted quoted _ ih =>
    rw [append_assoc]
    exact .quoted quoted ih
  | head hc _ ih => exact .head hc ih

theorem of_code (h : ∀ c ∈ text, isCode without c = true) : Tidy without text := by
  induction text with
  | nil => exact .nil
  | cons c text ih => exact .char (h c (by simp)) (ih fun d hd => h d (by simp [hd]))

theorem of_cons (h : Tidy without (c :: text)) (hquote : c ≠ '"') (hword : isAsciiWord c = false) :
    isCode without c = true ∧ Tidy without text := by
  generalize hwhole : c :: text = whole at h
  cases h with
  | nil => cases hwhole
  | char hc h =>
    cases hwhole
    exact ⟨hc, h⟩
  | quoted =>
    cases hwhole
    exact absurd rfl hquote
  | head hc =>
    cases hwhole
    rw [hc] at hword
    cases hword

theorem drop_while {blank : Char → Bool} (hblank : ∀ c, blank c = true → c ≠ '"' ∧ isAsciiWord c = false)
    (h : Tidy without text) : Tidy without (text.dropWhile blank) := by
  induction text with
  | nil => exact h
  | cons c text ih =>
    cases hc : blank c with
    | false => simpa [hc] using h
    | true =>
      rw [dropWhile_cons_of_pos hc]
      exact ih (h.of_cons (hblank c hc).1 (hblank c hc).2).2

theorem drop_spaces (h : Tidy without text) : Tidy without (text.dropWhile isSpace) := by
  refine h.drop_while fun c hc => ?_
  have hspace : c = ' ' ∨ c = '\t' := by simpa [isSpace] using hc
  rcases hspace with rfl | rfl <;> decide

@[elab_as_elim]
theorem blocks {motive : List Char → Prop} (hcode : ∀ code, Plain code → Tidy without code → motive code)
    (hquoted : ∀ code (quoted : QuotedText) after, Plain code → Tidy without code → Tidy without after →
      motive after → motive (code ++ (('"' :: quoted.chars ++ ['"']) ++ after)))
    (h : Tidy without text) : motive text := by
  -- The code read so far stands in front of the text.
  have hfront : ∀ code, Plain code → Tidy without code → motive (code ++ text) := by
    induction h with
    | nil =>
      intro code hplain htidy
      rw [append_nil]
      exact hcode code hplain htidy
    | @char c text hc _ ih =>
      intro code hplain htidy
      have hmore := ih (code ++ [c]) (plain_append.mpr ⟨hplain, by simp [Plain, (class_of_code hc).1]⟩)
        (htidy.append (.char hc .nil))
      simpa using hmore
    | quoted quoted h ih =>
      intro code hplain htidy
      exact hquoted code quoted _ hplain htidy h (ih [] (by simp [Plain]) .nil)
    | @head c text hc _ ih =>
      intro code hplain htidy
      have hword := (class_of_ascii_word hc).2.2.2.1
      have hhead : Plain [c, ' ', ':'] := plain_cons.mpr ⟨hword, by simp [Plain, opensLiteral]⟩
      have hmore := ih (code ++ [c, ' ', ':']) (plain_append.mpr ⟨hplain, hhead⟩)
        (htidy.append (.head hc .nil))
      simpa using hmore
  exact hfront [] (by simp [Plain]) .nil

theorem code_of_mem (h : Tidy without code) (hplain : Plain code) : ∀ c ∈ code, isCode [] c = true := by
  induction h with
  | nil => simp
  | char hc _ ih =>
    intro d hd
    rcases mem_cons.mp hd with rfl | hd
    · simp only [isCode, Bool.and_eq_true] at hc ⊢
      exact ⟨hc.1, rfl⟩
    · exact ih (plain_cons.mp hplain).2 d hd
  | quoted =>
    have hmark := hplain '"' (by simp)
    cases hmark
  | @head c text hc _ ih =>
    intro d hd
    simp only [mem_cons] at hd
    rcases hd with rfl | rfl | rfl | hd
    · simp [isCode, hc]
    · rfl
    · rfl
    · exact ih (fun e he => hplain e (by simp [he])) d hd

theorem not_mem {mark : Char} (h : Tidy without code) (hplain : Plain code) (hmark : mark ∈ without)
    (hword : isAsciiWord mark = false) (hhead : mark ∉ [' ', ':']) : mark ∉ code := by
  induction h with
  | nil => simp
  | @char c text hc _ ih =>
    have hne : mark ≠ c := by
      rintro rfl
      exact (class_of_code hc).2.2.2.2 hmark
    simp [hne, ih (plain_cons.mp hplain).2]
  | quoted =>
    have hquote := hplain '"' (by simp)
    cases hquote
  | @head c text hc _ ih =>
    exact not_mem_append (not_mem_head hc ⟨hword, hhead⟩) (ih fun d hd => hplain d (by simp [hd]))

theorem clear (h : Tidy without text) : ∃ literals, Cut Clear text literals := by
  refine h.blocks (fun code hplain _ => ⟨[], .code hplain⟩) ?_
  rintro code quoted after hplain _ _ ⟨literals, hcut⟩
  exact ⟨_, .literal hplain (quoted.closes after) (quoted.clear after) hcut⟩

end Tidy

/-! ## Changes of code -/

section

variable (hnil : f [] = [])

include hnil

theorem map_code_plain (hcode : Plain code) : mapCode f code = f code := by
  rw [map_code_of_plain f hcode]
  split
  · next hempty => rw [isEmpty_iff.mp hempty, hnil]
  · rfl

theorem map_code_quoted (hcode : Plain code) (quoted : QuotedText) (after : List Char) :
    mapCode f (code ++ (('"' :: quoted.chars ++ ['"']) ++ after)) =
      f code ++ (('"' :: quoted.chars ++ ['"']) ++ mapCode f after) := by
  rw [map_code_of_literal f hcode (quoted.closes after), map_code_plain hnil hcode]

theorem Tidy.map_code {fewer : List Char}
    (hf : ∀ code, Plain code → Tidy without code → Tidy fewer (f code)) (h : Tidy without text) :
    Tidy fewer (mapCode f text) := by
  refine h.blocks ?_ ?_
  · intro code hplain hcode
    rw [map_code_plain hnil hplain]
    exact hf code hplain hcode
  · intro code quoted after hplain hcode _ ih
    rw [map_code_quoted hnil hplain]
    exact (hf code hplain hcode).append (.quoted quoted ih)

theorem Tidy.map_code_eq (hf : ∀ code, Plain code → Tidy without code → f code = code)
    (h : Tidy without text) : mapCode f text = text := by
  refine h.blocks ?_ ?_
  · intro code hplain hcode
    rw [map_code_plain hnil hplain]
    exact hf code hplain hcode
  · intro code quoted after hplain hcode _ ih
    rw [map_code_quoted hnil hplain, hf code hplain hcode, ih]

theorem Tidy.map_code_split {without' : List Char} (hc : opensLiteral c = false)
    (hf : ∀ front back, f (front ++ c :: back) = f front ++ c :: f back) (h : Tidy without text)
    (hrest : Tidy without' rest) : mapCode f (text ++ c :: rest) = mapCode f text ++ c :: mapCode f rest := by
  have hcode : ∀ code, Plain code → mapCode f (code ++ c :: rest) = mapCode f code ++ c :: mapCode f rest := by
    intro code hplain
    refine hrest.blocks ?_ ?_
    · intro back hback _
      have hwhole : Plain (code ++ c :: back) := plain_append.mpr ⟨hplain, plain_cons.mpr ⟨hc, hback⟩⟩
      rw [map_code_plain hnil hwhole, map_code_plain hnil hplain, map_code_plain hnil hback, hf]
    · intro back quoted after hback _ _ _
      have hwhole : Plain (code ++ c :: back) := plain_append.mpr ⟨hplain, plain_cons.mpr ⟨hc, hback⟩⟩
      have htext : code ++ c :: (back ++ (('"' :: quoted.chars ++ ['"']) ++ after)) =
          (code ++ c :: back) ++ (('"' :: quoted.chars ++ ['"']) ++ after) := by simp
      rw [htext, map_code_quoted hnil hwhole, map_code_quoted hnil hback, map_code_plain hnil hplain, hf]
      simp
  refine h.blocks (fun code hplain _ => hcode code hplain) ?_
  intro code quoted after hplain _ _ ih
  have htext : (code ++ (('"' :: quoted.chars ++ ['"']) ++ after)) ++ c :: rest =
      code ++ (('"' :: quoted.chars ++ ['"']) ++ (after ++ c :: rest)) := by simp
  rw [htext, map_code_quoted hnil hplain, map_code_quoted hnil hplain, ih]
  simp

theorem Tidy.map_code_front {front : List Char} (hfront : Plain front)
    (hf : ∀ back tail, text = back ++ tail → EndsCode tail → f (front ++ back) = front ++ f back)
    (h : Tidy without text) : mapCode f (front ++ text) = front ++ mapCode f text := by
  revert hf
  refine h.blocks ?_ ?_
  · intro code hcode _ hf
    rw [map_code_plain hnil (plain_append.mpr ⟨hfront, hcode⟩), map_code_plain hnil hcode]
    exact hf code [] (append_nil code).symm rfl
  · intro code quoted after hcode _ _ _ hf
    have hcopy := hf code _ rfl (ends_code_of_closes (quoted.closes after))
    rw [← append_assoc, map_code_quoted hnil (plain_append.mpr ⟨hfront, hcode⟩), map_code_quoted hnil hcode, hcopy,
      append_assoc]

end

/-! ## Equals signs -/

theorem Tidy.no_equals {before after : List Char} (h : Tidy without text) (htail : tail.head?.all (· == '\n') = true)
    (hbefore : ∀ c ∈ before, opensLiteral c = false ∧ c ≠ '\n') : text ++ tail ≠ before ++ '=' :: after := by
  induction h generalizing before with
  | nil =>
    intro heq
    cases tail with
    | nil => simp at heq
    | cons d tail =>
      obtain rfl : d = '\n' := by simpa using htail
      cases before with
      | nil => cases (cons.inj heq).1
      | cons e before =>
        have he := (cons.inj heq).1
        exact (hbefore e (by simp)).2 he.symm
  | @char c text hc _ ih =>
    intro heq
    cases before with
    | nil => exact (class_of_code hc).2.1 (cons.inj heq).1
    | cons e before => exact ih (fun d hd => hbefore d (by simp [hd])) (cons.inj heq).2
  | quoted quoted _ _ =>
    intro heq
    cases before with
    | nil => cases (cons.inj heq).1
    | cons e before =>
      have he := (hbefore e (by simp)).1
      rw [← (cons.inj heq).1] at he
      cases he
  | @head c text hc _ ih =>
    intro heq
    have hmem := (class_of_ascii_word hc).2.2.2.2
    match before with
    | [] => exact hmem (by simp [(cons.inj heq).1])
    | [_] => cases (cons.inj (cons.inj heq).2).1
    | [_, _] => cases (cons.inj (cons.inj (cons.inj heq).2).2).1
    | _ :: _ :: _ :: before =>
      exact ih (fun d hd => hbefore d (by simp [hd]))
        (cons.inj (cons.inj (cons.inj heq).2).2).2

theorem Tidy.no_head (h : Tidy without text) (htail : tail.head?.all (· == '\n') = true) :
    definitionHead? (text ++ tail) = none := by
  cases hhead : definitionHead? (text ++ tail) with
  | none => rfl
  | some found =>
    obtain ⟨before, htext, hbefore, _⟩ := definition_head_takes hhead
    exact absurd htext (h.no_equals htail hbefore)

theorem Tidy.colons_cons (h : Tidy without (c :: text)) (htail : tail.head?.all (· == '\n') = true)
    (flag : Bool) : colonsAt flag (c :: (text ++ tail)) = c :: colonsAt (c == '\n') (text ++ tail) :=
  colons_at_copy fun _ => h.no_head htail

theorem Tidy.colons (h : Tidy without text) (htail : tail.head?.all (· == '\n') = true) (flag : Bool) :
    ∃ next, colonsAt flag (text ++ tail) = text ++ colonsAt next tail := by
  induction h generalizing flag with
  | nil => exact ⟨flag, rfl⟩
  | @char c text hc h ih =>
    obtain ⟨next, hnext⟩ := ih (c == '\n')
    exact ⟨next, by rw [cons_append, (Tidy.char hc h).colons_cons htail, hnext]; rfl⟩
  | @quoted quoted text h ih =>
    obtain ⟨next, hnext⟩ := ih false
    have hline : '\n' ∉ quoted.chars ++ ['"'] := by
      simp only [mem_append, mem_singleton, not_or]
      exact ⟨fun hmem => (quoted.plain _ hmem).2.2 rfl, by decide⟩
    have hfirst : colonsAt flag ('"' :: ((quoted.chars ++ ['"'] ++ text) ++ tail)) =
        '"' :: colonsAt false ((quoted.chars ++ ['"'] ++ text) ++ tail) :=
      (Tidy.quoted quoted h).colons_cons htail flag
    refine ⟨next, hfirst.trans ?_⟩
    rw [append_assoc (quoted.chars ++ ['"']), colons_at_line hline, hnext]
    simp
  | @head c text hc h ih =>
    obtain ⟨next, hnext⟩ := ih false
    have hbreak : (c == '\n') = false := by
      have hmem := (class_of_ascii_word hc).2.2.2.2
      simpa using fun heq => hmem (by simp [heq])
    have hfirst := (Tidy.head hc h).colons_cons htail flag
    refine ⟨next, hfirst.trans ?_⟩
    have hmarks : colonsAt false ([' ', ':'] ++ (text ++ tail)) = [' ', ':'] ++ colonsAt false (text ++ tail) :=
      colons_at_line (by decide) _
    rw [hbreak]
    exact congrArg (c :: ·) (hmarks.trans (by rw [hnext]; rfl))

/-! ## Commas -/

theorem spaced_code_split (hcomma : c ≠ ',') (hblank : isBlank c = false) (front back : List Char) (skipping : Bool) :
    spacedCode skipping (front ++ c :: back) = spacedCode skipping front ++ c :: spacedCode false back := by
  have hleads : ∀ front, leadsToComma (front ++ c :: back) = leadsToComma front := by
    intro front
    induction front with
    | nil =>
      have hc : (c == ',') = false := by simpa using hcomma
      rw [nil_append, leads_to_comma_cons, hblank]
      exact hc
    | cons d front ih => rw [cons_append, leads_to_comma_cons, leads_to_comma_cons, ih]
  induction front generalizing skipping with
  | nil => simp [spacedCode, hcomma, hblank]
  | cons d front ih =>
    simp only [cons_append, spacedCode, hleads, ih]
    split
    · rw [append_assoc]
    · split <;> rfl

theorem Tidy.spaced_code (h : Tidy without code) (hplain : Plain code) (hspace : ' ' ∉ without)
    (skipping : Bool) : Tidy (',' :: without) (spacedCode skipping code) := by
  have hmark : isCode (',' :: without) ' ' = true := code_of_mark (by decide) (by simp [hspace])
  induction h generalizing skipping with
  | nil => exact .nil
  | @char c text hc _ ih =>
    have hrest := ih (plain_cons.mp hplain).2
    unfold spacedCode
    split
    · refine Tidy.append ?_ (hrest true)
      split
      · exact .nil
      · exact .char hmark .nil
    · next hcomma =>
      split
      · exact hrest skipping
      · exact .char (code_of_ne hcomma hc) (hrest false)
  | quoted =>
    have hquote := hplain '"' (by simp)
    cases hquote
  | @head c text hc _ ih =>
    obtain ⟨_, hblank, _, _, hmem⟩ := class_of_ascii_word hc
    have hrest := ih (fun d hd => hplain d (by simp [hd])) false
    have hcopy : spacedCode skipping (c :: ' ' :: ':' :: text) = c :: ' ' :: ':' :: spacedCode false text := by
      have hcomma : c ≠ ',' := fun heq => hmem (by simp [heq])
      have hcolon : isBlank ':' = false := by decide
      have hfirst := spaced_code_split hcomma hblank [] (' ' :: ':' :: text) skipping
      have hsecond := spaced_code_split (by decide : ':' ≠ ',') hcolon [' '] text false
      rw [nil_append] at hfirst
      rw [hfirst]
      exact congrArg (c :: ·) hsecond
    rw [hcopy]
    exact .head hc hrest

theorem Tidy.spaced_items (h : Tidy without text) (hspace : ' ' ∉ without) :
    Tidy (',' :: without) (spacedItems text) := by
  obtain ⟨_, hcut⟩ := h.clear
  rw [spaced_items_eq_map_code hcut]
  exact h.map_code rfl fun code hplain hcode => hcode.spaced_code hplain hspace false

/-! ## Semicolons -/

theorem Tidy.drop_terminators (h : Tidy without text) (hsemicolon : ';' ∈ without) (tail : List Char) :
    dropTerminatorsFrom false (text ++ tail) = text ++ dropTerminatorsFrom false tail := by
  induction h with
  | nil => rfl
  | @char c text hc _ ih =>
    have hne : ';' ∉ [c] := by
      rw [mem_singleton]
      rintro rfl
      exact (class_of_code hc).2.2.2.2 hsemicolon
    exact (skims_terminators.copy hne (text ++ tail)).trans (congrArg (c :: ·) ih)
  | @quoted quoted text _ ih =>
    rw [append_assoc, skims_terminators.on_literal quoted.steady, ih]
    simp
  | @head c text hc _ ih =>
    exact (skims_terminators.copy (not_mem_head hc (by decide)) (text ++ tail)).trans (congrArg (c :: ' ' :: ':' :: ·) ih)

/-! ## Bars at the ends of lines -/

def Unbroken : List Char → Prop
  | [] => True
  | c :: rest => (c = '|' → breaksLine rest = false) ∧ Unbroken rest

theorem unbroken_front {front back : List Char} (hfront : '|' ∉ front) : Unbroken (front ++ back) ↔ Unbroken back := by
  induction front with
  | nil => rfl
  | cons c front ih =>
    simp only [mem_cons, not_or] at hfront
    rw [cons_append, Unbroken, ih hfront.2]
    exact and_iff_right fun heq => absurd heq.symm hfront.1

theorem breaks_line_cons {rest' : List Char} (h : isSpace c = true → breaksLine rest = breaksLine rest') :
    breaksLine (c :: rest) = breaksLine (c :: rest') := by
  cases hc : isSpace c with
  | true => simpa [breaksLine, hc] using h hc
  | false => simp [breaksLine, hc]

theorem breaks_line_append (htail : EndsCode tail) (code : List Char) :
    breaksLine (code ++ tail) = breaksLine code := by
  induction code with
  | nil =>
    cases tail with
    | nil => rfl
    | cons c tail =>
      have hmark : opensLiteral c = true := htail
      have hbreak : c ≠ '\n' := by
        rintro rfl
        cases hmark
      simp [breaksLine, (class_of_opens_literal hmark).1, hbreak]
  | cons c code ih => exact breaks_line_cons fun _ => ih

theorem unbroken_append (htail : EndsCode tail) : Unbroken (code ++ tail) ↔ Unbroken code ∧ Unbroken tail := by
  induction code with
  | nil => simp [Unbroken]
  | cons c code ih => simp only [cons_append, Unbroken, breaks_line_append htail, ih, and_assoc]

theorem unbroken_literal {literal : List Char} (hsteady : steadyFrom flag literal = true) (after : List Char) :
    Unbroken (literal ++ after) ↔ Unbroken after := by
  induction literal generalizing flag with
  | nil => rfl
  | cons c literal ih =>
    obtain ⟨_, hbar, hrest⟩ := goes_on_of_steady hsteady after
    rw [cons_append, Unbroken, ih hrest]
    refine and_iff_right ?_
    rintro rfl
    simpa using hbar

theorem Tidy.unbroken_map_code (hnil : f [] = []) (hf : ∀ code, Unbroken code → Unbroken (f code))
    (h : Tidy without text) (hbars : Unbroken text) : Unbroken (mapCode f text) := by
  revert hbars
  refine h.blocks ?_ ?_
  · intro code hplain _ hbars
    rw [map_code_plain hnil hplain]
    exact hf code hbars
  · intro code quoted after hplain _ _ ih hbars
    have hends : ∀ after, EndsCode (('"' :: quoted.chars ++ ['"']) ++ after) := fun after =>
      ends_code_of_closes (quoted.closes after)
    rw [unbroken_append (hends after), unbroken_literal quoted.steady] at hbars
    rw [map_code_quoted hnil hplain, unbroken_append (hends _),
      unbroken_literal quoted.steady]
    exact ⟨hf code hbars.1, ih hbars.2⟩

theorem join_alternatives_skips (text : List Char) : (joinAlternativesFrom true text).head?.any isBlank = false := by
  induction text with
  | nil => rfl
  | cons c text ih =>
    have hbar : isBlank '|' = false := by decide
    simp only [joinAlternativesFrom, Bool.true_and]
    split
    · exact ih
    · next hblank =>
      split
      · exact hbar
      · simpa using hblank

theorem breaks_line_of_head (h : text.head?.any isBlank = false) : breaksLine text = false := by
  cases text with
  | nil => rfl
  | cons c text =>
    have hc : isBlank c = false := h
    have hblank : ∀ d ∈ [' ', '\t', '\n'], isBlank d = true := by decide
    have hno : c ∉ [' ', '\t', '\n'] := fun hmem => absurd (hblank c hmem) (by simp [hc])
    simp only [mem_cons, not_mem_nil, or_false, not_or] at hno
    simp [breaksLine, isSpace, hno]

theorem breaks_line_join (text : List Char) : breaksLine (joinAlternativesFrom false text) = breaksLine text := by
  induction text with
  | nil => rfl
  | cons c text ih =>
    simp only [joinAlternativesFrom, Bool.false_and, Bool.false_eq_true, if_false]
    split
    · next hbar =>
      obtain rfl : c = '|' := by simpa using (Bool.and_eq_true_iff.mp hbar).1
      rfl
    · exact breaks_line_cons fun _ => ih

theorem join_alternatives_unbroken (skipping : Bool) (text : List Char) :
    Unbroken (joinAlternativesFrom skipping text) := by
  induction text generalizing skipping with
  | nil => trivial
  | cons c text ih =>
    simp only [joinAlternativesFrom]
    split
    · exact ih true
    · split
      · have hspace : breaksLine (' ' :: joinAlternativesFrom true text) =
            breaksLine (joinAlternativesFrom true text) := rfl
        refine ⟨fun _ => ?_, fun heq => absurd heq (by decide), ih true⟩
        rw [hspace]
        exact breaks_line_of_head (join_alternatives_skips text)
      · next hbar =>
        refine ⟨?_, ih false⟩
        rintro rfl
        rw [breaks_line_join]
        simpa using hbar

theorem Unbroken.join_alternatives (h : Unbroken text) : joinAlternativesFrom false text = text := by
  induction text with
  | nil => rfl
  | cons c text ih =>
    have hbar : (c == '|' && breaksLine text) = false := by
      cases hc : c == '|' with
      | false => rfl
      | true => simpa using h.1 (beq_iff_eq.mp hc)
    simp [joinAlternativesFrom, hbar, ih h.2]

theorem Tidy.join_alternatives (h : Tidy without text) (hbar : '|' ∉ without) (hspace : ' ' ∉ without)
    (skipping : Bool) : Tidy without (joinAlternativesFrom skipping text) := by
  induction h generalizing skipping with
  | nil => exact .nil
  | @char c text hc _ ih =>
    simp only [joinAlternativesFrom]
    split
    · exact ih true
    · split
      · exact .char (code_of_mark (by decide) hbar) (.char (code_of_mark (by decide) hspace) (ih true))
      · exact .char hc (ih false)
  | @quoted quoted text _ ih =>
    rw [skims_alternatives.at_tail (ends_code_of_closes (quoted.closes text)), skims_alternatives.on_literal quoted.steady]
    exact .quoted quoted (ih false)
  | @head c text hc _ ih =>
    have hblank := (class_of_ascii_word hc).2.1
    have hskip : joinAlternativesFrom skipping (c :: ' ' :: ':' :: text) =
        joinAlternativesFrom false (c :: ' ' :: ':' :: text) := by
      simp only [joinAlternativesFrom, hblank, Bool.and_false]
    have hcopy : joinAlternativesFrom false ([c, ' ', ':'] ++ text) =
        [c, ' ', ':'] ++ joinAlternativesFrom false text := skims_alternatives.copy (not_mem_head hc (by decide)) text
    rw [hskip]
    exact hcopy ▸ .head hc (ih false)

/-! ## Braces -/

theorem starred_close (text : List Char) : starred ('\x7d' :: text) = ')' :: '*' :: starred text ∨
    ∃ rest, text = '-' :: rest ∧ starred ('\x7d' :: text) = ')' :: '+' :: starred rest := by
  cases text with
  | nil => exact .inl rfl
  | cons c text =>
    by_cases hc : c = '-'
    · subst hc
      exact .inr ⟨text, rfl, rfl⟩
    · left
      rw [starred.eq_3 _ fun rest heq => hc (cons.inj heq).1]

theorem Tidy.starred (h : Tidy without code) (hplain : Plain code)
    (hmarks : ∀ c ∈ ['(', ')', '*', '+'], c ∉ without) : Tidy ('\x7b' :: '\x7d' :: without) (starred code) := by
  have hcode : ∀ c ∈ ['(', ')', '*', '+'], isCode ('\x7b' :: '\x7d' :: without) c = true := by
    intro c hc
    have hmark : c ∈ codeMarks ∧ c ≠ '\x7b' ∧ c ≠ '\x7d' := by
      revert c
      decide
    exact code_of_mark hmark.1 (by simp [hmark.2, hmarks c hc])
  induction h with
  | nil => exact .nil
  | @char c text hc h ih =>
    have hrest := ih (plain_cons.mp hplain).2
    by_cases hopen : c = '\x7b'
    · subst hopen
      exact .char (hcode '(' (by simp)) hrest
    by_cases hclose : c = '\x7d'
    · subst hclose
      have hparen := hcode ')' (by simp)
      rcases starred_close text with heq | ⟨rest, rfl, heq⟩
      · exact heq ▸ .char hparen (.char (hcode '*' (by simp)) hrest)
      · have hdash : Ebnf.starred (['-'] ++ rest) = ['-'] ++ Ebnf.starred rest := starred_copy (by decide) rest
        have hmore : Tidy _ ('-' :: Ebnf.starred rest) := hdash ▸ hrest
        exact heq ▸ .char hparen (.char (hcode '+' (by simp)) (hmore.of_cons (by decide) (by decide)).2)
    have hcopy : Ebnf.starred ([c] ++ text) = [c] ++ Ebnf.starred text :=
      starred_copy (by simp [Ne.symm hopen, Ne.symm hclose]) text
    exact hcopy ▸ .char (code_of_ne hopen (code_of_ne hclose hc)) hrest
  | quoted =>
    have hquote := hplain '"' (by simp)
    cases hquote
  | @head c text hc _ ih =>
    have hrest := ih (fun d hd => hplain d (by simp [hd]))
    have hcopy : Ebnf.starred ([c, ' ', ':'] ++ text) = [c, ' ', ':'] ++ Ebnf.starred text :=
      starred_copy ⟨not_mem_head hc (by decide), not_mem_head hc (by decide)⟩ text
    exact hcopy ▸ .head hc hrest

theorem breaks_line_starred (code : List Char) : breaksLine (starred code) = breaksLine code := by
  fun_induction starred code with
  | case1 => rfl
  | case2 => rfl
  | case3 => rfl
  | case4 => rfl
  | case5 c rest _ _ _ ih => exact breaks_line_cons fun _ => ih

theorem Unbroken.starred (h : Unbroken code) : Unbroken (starred code) := by
  fun_induction Ebnf.starred code with
  | case1 => exact h
  | case2 rest ih => exact (unbroken_front (by decide : '|' ∉ [')', '+'])).mpr (ih h.2.2)
  | case3 rest _ ih => exact (unbroken_front (by decide : '|' ∉ [')', '*'])).mpr (ih h.2)
  | case4 rest ih => exact (unbroken_front (by decide : '|' ∉ ['('])).mpr (ih h.2)
  | case5 c rest _ _ _ ih => exact ⟨fun hc => (breaks_line_starred rest).trans (h.1 hc), ih h.2⟩

/-! ## All steps -/

theorem tidy_of_joined (h : Tidy [',', ':', ';'] text) :
    Tidy ['\x7b', '\x7d', ',', ':', ';'] (mapCode starred (joinAlternatives text)) ∧
      Unbroken (mapCode starred (joinAlternatives text)) := by
  have hjoined := h.join_alternatives (by decide) (by decide) false
  refine ⟨hjoined.map_code rfl fun code hplain hcode => hcode.starred hplain (by decide), ?_⟩
  exact hjoined.unbroken_map_code rfl (fun code hcode => hcode.starred) (join_alternatives_unbroken false text)

/-- A text without the marks of EBNF, in which no line ends with a bar, keeps its layout. -/
theorem change_layout_fixed (h : Tidy without text) (hmarks : ∀ c ∈ ['\x7b', '\x7d', ';', ','], c ∈ without)
    (hbars : Unbroken text) : Conversion.changeLayout text = text := by
  have hcolons : colons text = text := by
    have hcopy : ∃ next, colonsAt true (text ++ []) = text ++ colonsAt next [] := h.colons rfl true
    obtain ⟨next, hcopy⟩ := hcopy
    rw [append_nil] at hcopy
    exact hcopy.trans (append_nil text)
  have hspaced : spacedItems text = text := by
    obtain ⟨_, hcut⟩ := h.clear
    rw [spaced_items_eq_map_code hcut]
    refine h.map_code_eq rfl fun code hplain hcode => ?_
    have hcomma : ',' ∉ code := hcode.not_mem hplain (hmarks ',' (by simp)) (by decide) (by decide)
    have hcopy : spacedCode false (code ++ []) = code ++ spacedCode false [] := spaced_code_copy hcomma fun _ => rfl
    simpa [spacedCode] using hcopy
  have hdropped : dropTerminators text = text := by
    have hcopy := h.drop_terminators (hmarks ';' (by simp)) []
    rw [append_nil] at hcopy
    exact hcopy.trans (append_nil text)
  have hstarred : mapCode starred text = text := by
    refine h.map_code_eq rfl fun code hplain hcode => ?_
    have hbraces : '\x7b' ∉ code ∧ '\x7d' ∉ code :=
      ⟨hcode.not_mem hplain (hmarks _ (by simp)) (by decide) (by decide),
        hcode.not_mem hplain (hmarks _ (by simp)) (by decide) (by decide)⟩
    have hcopy := starred_copy hbraces []
    simpa [starred] using hcopy
  rw [Conversion.changeLayout, hcolons, hspaced, hdropped]
  exact (congrArg (mapCode starred) hbars.join_alternatives).trans hstarred

end FlightProcedure.Ebnf
