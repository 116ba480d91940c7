import FlightProcedure.Ebnf.Segment
import FlightProcedure.Proofs.Text.Cutting
import FlightProcedure.Text.CharClass

/-!
# How a grammar text is cut into code and literals

`Closes literal after` says that a literal ends where `after` begins, and `Cut` lists the literals of a
text with the code between them. Every text is cut in exactly one way, into what `segments` yields.
`Closes.swap` says what may change behind a literal without changing the literal.
-/

namespace FlightProcedure

open List

/-- What all characters of a list have is decided by a look at each of them, and not at all characters
there are. -/
instance decidableAllChars {p : Char → Prop} [DecidablePred p] {chars : List Char} : Decidable (∀ c ∈ chars, p c) :=
  List.decidableBAll p chars

namespace Segment

variable {c mark : Char} {rest text body after after' : List Char}

def opensLiteral (c : Char) : Bool :=
  c == '"' || c == '\'' || c == '/'

def isComment : List Char → Bool
  | '/' :: '/' :: _ => true
  | _ => false

def isPattern (literal : List Char) : Bool := literal.head? == some '/' && !isComment literal

theorem literal_eq_none (h : opensLiteral c = false) : literal? c rest = none := by
  simp only [opensLiteral, Bool.or_eq_false_iff, beq_eq_false_iff_ne] at h
  simp [literal?, h.1.1, h.1.2, h.2]

theorem literal_eq_some (h : opensLiteral c = true) (rest : List Char) :
    ∃ text after, literal? c rest = some (text, after) := by
  simp only [opensLiteral, Bool.or_eq_true, beq_iff_eq] at h
  unfold literal?
  rcases h with (rfl | rfl) | rfl
  · exact ⟨_, _, rfl⟩
  · exact ⟨_, _, rfl⟩
  · by_cases hcomment : rest.head? = some '/'
    · simp [hcomment]
    · simp [hcomment]

theorem escaped_literal_append (mark : Char) (text : List Char) :
    (escapedLiteral mark text).1 ++ (escapedLiteral mark text).2 = text := by
  fun_induction escapedLiteral mark text <;> simp_all

theorem plain_literal_append (mark : Char) (text : List Char) :
    (plainLiteral mark text).1 ++ (plainLiteral mark text).2 = text := by
  fun_induction plainLiteral mark text <;> simp_all

theorem literal_append (h : literal? c rest = some (text, after)) : text ++ after = c :: rest := by
  unfold literal? at h
  split at h
  · next hc =>
    cases h
    simp [hc, escaped_literal_append]
  · split at h
    · next hc =>
      cases h
      simp [hc, plain_literal_append]
    · split at h
      · next hc =>
        split at h
        · cases h
          simp [hc, takeWhile_append_dropWhile]
        · cases h
          simp [hc, takeWhile_append_dropWhile, escaped_literal_append]
      · cases h

theorem escaped_literal_cons (hc : c ≠ '\\') : escapedLiteral mark (c :: rest) =
    if c = mark then ([c], rest)
    else (c :: (escapedLiteral mark rest).1, (escapedLiteral mark rest).2) := by
  rw [escapedLiteral.eq_3 mark c rest fun d _ hd _ => hc hd]

theorem escaped_literal_ne_nil (mark c : Char) (rest : List Char) : (escapedLiteral mark (c :: rest)).1 ≠ [] := by
  unfold escapedLiteral
  split
  · simp_all
  · simp
  · split <;> simp

theorem escaped_literal_swap (hmark : mark ≠ '\\') (hnil : after = [] → after' = []) :
    ∀ body : List Char, escapedLiteral mark (body ++ after) = (body, after) →
      escapedLiteral mark (body ++ after') = (body, after')
  | [], h => by
    cases after with
    | nil => rw [hnil rfl]; rfl
    | cons d rest => exact absurd (congrArg Prod.fst h) (escaped_literal_ne_nil mark d rest)
  | d :: body, h => by
    by_cases hd : d = '\\'
    · subst hd
      cases body with
      | nil =>
        cases after with
        | nil => rw [hnil rfl]; exact h
        | cons e rest => simp [escapedLiteral] at h
      | cons e body =>
        have hbody : escapedLiteral mark (body ++ after) = (body, after) := by
          simpa [escapedLiteral, Prod.ext_iff] using h
        simp [escapedLiteral, escaped_literal_swap hmark hnil body hbody]
    · rw [cons_append, escaped_literal_cons hd] at h ⊢
      split at h
      · simp_all
      · have hbody : escapedLiteral mark (body ++ after) = (body, after) := by
          simpa [Prod.ext_iff] using h
        simp_all [escaped_literal_swap hmark hnil body hbody]

theorem plain_literal_swap (hnil : after = [] → after' = []) :
    ∀ body : List Char, plainLiteral mark (body ++ after) = (body, after) →
      plainLiteral mark (body ++ after') = (body, after')
  | [], h => by
    cases after with
    | nil => rw [hnil rfl]; rfl
    | cons d rest =>
      simp only [nil_append, plainLiteral] at h
      split at h <;> simp at h
  | d :: body, h => by
    simp only [cons_append, plainLiteral] at h ⊢
    split at h
    · simp_all
    · have hbody : plainLiteral mark (body ++ after) = (body, after) := by
        simpa [Prod.ext_iff] using h
      simp_all [plain_literal_swap hnil body hbody]

/-- `Closes literal after` says that a literal ends where `after` begins. -/
inductive Closes : List Char → List Char → Prop where
  | quoted {body after : List Char} (hbody : escapedLiteral '"' (body ++ after) = (body, after)) :
      Closes ('"' :: body) after
  | plain {body after : List Char} (hbody : plainLiteral '\'' (body ++ after) = (body, after)) :
      Closes ('\'' :: body) after
  | comment {body after : List Char} (hbody : ∀ c ∈ body, c ≠ '\n')
      (hafter : after = [] ∨ after.head? = some '\n') : Closes ('/' :: '/' :: body) after
  | pattern {body flags after : List Char} (hstart : (body ++ flags).head? ≠ some '/')
      (hbody : escapedLiteral '/' (body ++ (flags ++ after)) = (body, flags ++ after))
      (hflags : ∀ c ∈ flags, isPatternFlag c = true)
      (hafter : after.head?.any isPatternFlag = false) : Closes ('/' :: (body ++ flags)) after

theorem head_drop_while (p : Char → Bool) (text : List Char) : (text.dropWhile p).head?.any p = false := by
  induction text with
  | nil => rfl
  | cons c rest ih =>
    by_cases hc : p c = true
    · simpa [hc] using ih
    · simp [hc]

theorem of_mem_take_while {p : Char → Bool} (hc : c ∈ text.takeWhile p) : p c = true :=
  all_eq_true.mp all_takeWhile c hc

theorem nil_or_line_break : after.head?.any (· != '\n') = false ↔ after = [] ∨ after.head? = some '\n' := by
  cases after <;> simp

theorem closes_of_literal (h : literal? c rest = some (text, after)) : Closes text after := by
  unfold literal? at h
  split at h
  · cases h
    exact .quoted (by rw [escaped_literal_append])
  · split at h
    · cases h
      exact .plain (by rw [plain_literal_append])
    · split at h
      · split at h
        · next hcomment =>
          cases rest with
          | nil => cases hcomment
          | cons d rest =>
            obtain rfl : d = '/' := by simpa using hcomment
            cases h
            exact .comment (fun c hc => by simpa using of_mem_take_while hc)
              (nil_or_line_break.mp (head_drop_while _ _))
        · next hcomment =>
          cases h
          refine .pattern ?_ ?_ (fun c hc => of_mem_take_while hc) (head_drop_while _ _)
          · cases rest with
            | nil => simp [escapedLiteral]
            | cons d rest =>
              have happend := escaped_literal_append '/' (d :: rest)
              cases hbody : (escapedLiteral '/' (d :: rest)).1 with
              | nil => exact absurd hbody (escaped_literal_ne_nil '/' d rest)
              | cons e body =>
                rw [hbody] at happend
                obtain rfl : e = d := (cons.inj happend).1
                simpa using hcomment
          · rw [takeWhile_append_dropWhile, escaped_literal_append]
      · cases h

theorem Closes.literal_eq (h : Closes (c :: body) after) : literal? c (body ++ after) = some (c :: body, after) := by
  cases h with
  | quoted hbody | plain hbody => simp [literal?, hbody]
  | @comment body _ hbody hafter =>
    have hline : ∀ c ∈ '/' :: body, (c != '\n') = true := by simpa using hbody
    obtain ⟨htake, hdrop⟩ := take_while_append hline (nil_or_line_break.mpr hafter)
    simp only [cons_append] at htake hdrop
    simp [literal?, htake, hdrop]
  | @pattern body flags _ hstart hbody hflags hafter =>
    have hcomment : ((body ++ flags) ++ after).head? ≠ some '/' := by
      cases hliteral : body ++ flags with
      | cons d rest => simpa [hliteral] using hstart
      | nil =>
        obtain ⟨rfl, rfl⟩ := append_eq_nil_iff.mp hliteral
        cases after with
        | nil => simp
        | cons d rest =>
          exact absurd (congrArg Prod.fst hbody) (escaped_literal_ne_nil '/' d rest)
    obtain ⟨htake, hdrop⟩ := take_while_append hflags hafter
    rw [literal?, if_neg (by decide), if_neg (by decide), if_pos rfl, if_neg hcomment, append_assoc, hbody]
    simp [htake, hdrop]

theorem no_flag_of_no_word (h : after.head?.any isWordChar = false) : after.head?.any isPatternFlag = false := by
  cases after with
  | nil => rfl
  | cons c rest =>
    cases hc : isPatternFlag c with
    | false => simpa using hc
    | true =>
      have hword : isWordChar c = true := by
        simp only [isPatternFlag, Bool.or_eq_true, beq_iff_eq] at hc
        rcases hc with (((rfl | rfl) | rfl) | rfl) | rfl <;> decide
      simp [hword] at h

theorem is_pattern_of_head (h : body.head? ≠ some '/') : isPattern ('/' :: body) = true := by
  have hcomment : isComment ('/' :: body) = false := by
    unfold isComment
    split
    · simp_all
    · rfl
  simp [isPattern, hcomment]

theorem escaped_literal_last (mark : Char) (text : List Char) :
    (escapedLiteral mark text).2 = [] ∨ (escapedLiteral mark text).1.getLast? = some mark := by
  fun_induction escapedLiteral mark text with
  | case1 => exact .inl rfl
  | case3 => exact .inr rfl
  | case2 _ _ _ _ hrest ih | case4 _ _ _ _ _ _ hrest ih =>
    rw [hrest] at ih
    exact ih.imp_right fun hlast => by simp [getLast?_cons, hlast]

theorem plain_literal_last (mark : Char) (text : List Char) :
    (plainLiteral mark text).2 = [] ∨ (plainLiteral mark text).1.getLast? = some mark := by
  fun_induction plainLiteral mark text with
  | case1 => exact .inl rfl
  | case2 => exact .inr rfl
  | case3 c rest _ body after hrest ih =>
    rw [hrest] at ih
    exact ih.imp_right fun hlast => by simp [getLast?_cons, hlast]

theorem Closes.ends (h : Closes text after) : after = [] ∨ isComment text = true ∨
    ∃ front mark flags, text = front ++ mark :: flags ∧ opensLiteral mark = true ∧
      ∀ c ∈ flags, isPatternFlag c = true := by
  cases h with
  | @quoted body _ hbody =>
    have hlast := escaped_literal_last '"' (body ++ after)
    rw [hbody] at hlast
    refine hlast.imp_right fun hlast => .inr ?_
    obtain ⟨front, rfl⟩ := getLast?_eq_some_iff.mp hlast
    exact ⟨'"' :: front, '"', [], rfl, rfl, by simp⟩
  | @plain body _ hbody =>
    have hlast := plain_literal_last '\'' (body ++ after)
    rw [hbody] at hlast
    refine hlast.imp_right fun hlast => .inr ?_
    obtain ⟨front, rfl⟩ := getLast?_eq_some_iff.mp hlast
    exact ⟨'\'' :: front, '\'', [], rfl, rfl, by simp⟩
  | comment => exact .inr (.inl rfl)
  | @pattern body flags _ hstart hbody hflags hafter =>
    have hlast := escaped_literal_last '/' (body ++ (flags ++ after))
    rw [hbody] at hlast
    rcases hlast with hnil | hlast
    · exact .inl (append_eq_nil_iff.mp hnil).2
    · obtain ⟨front, rfl⟩ := getLast?_eq_some_iff.mp hlast
      exact .inr (.inr ⟨'/' :: front, '/', flags, by simp, rfl, hflags⟩)

theorem Closes.mark_of_line_break {front back : List Char} (h : Closes text after)
    (htext : text = front ++ '\n' :: back) : after = [] ∨ ∃ c ∈ back, opensLiteral c = true := by
  rcases h.ends with hnil | hcomment | ⟨start, mark, flags, hends, hmark, hflags⟩
  · exact .inl hnil
  · have hbreak : '\n' ∈ text := by simp [htext]
    cases h with
    | comment hbody => exact absurd rfl (hbody '\n' (by simpa using hbreak))
    | pattern hstart =>
      have hpattern := is_pattern_of_head hstart
      simp [isPattern, hcomment] at hpattern
    | quoted | plain => cases hcomment
  · right
    rw [htext] at hends
    rcases append_eq_append_iff.mp hends with ⟨gap, _, hback⟩ | ⟨gap, _, hback⟩
    · cases gap with
      | nil =>
        obtain ⟨rfl, _⟩ := cons.inj hback
        cases hmark
      | cons d gap =>
        rw [cons_append, cons.injEq] at hback
        exact ⟨mark, by simp [hback.2], hmark⟩
    · -- The line break would be the mark or a flag.
      cases gap with
      | nil =>
        obtain ⟨rfl, _⟩ := cons.inj hback
        cases hmark
      | cons d gap =>
        rw [cons_append, cons.injEq] at hback
        have hflag := hflags '\n' (by simp [hback.2])
        cases hflag

/-- A pattern is apart from what follows it if that does not start with a word character. -/
def apart (literal after : List Char) : Bool := !isPattern literal || !after.head?.any isWordChar

/-- What follows a literal may change if an end of the text stays one, a line break stays behind a comment
and no word character comes behind a pattern. -/
structure Keeps (literal after after' : List Char) : Prop where
  nil : after = [] → after' = []
  lineBreak : isComment literal = true → after.head? = some '\n' → after'.head? = some '\n'
  noWord : isPattern literal = true → after.head?.any isWordChar = false → after'.head?.any isWordChar = false

theorem keeps_of_head (h : after'.head? = after.head?) (literal : List Char) : Keeps literal after after' := by
  refine ⟨?_, fun _ hbreak => h ▸ hbreak, fun _ hword => h ▸ hword⟩
  intro hnil
  rw [hnil] at h
  simpa using h

theorem Closes.swap (h : Closes text after) (hapart : apart text after = true)
    (hkeeps : Keeps text after after') : Closes text after' := by
  cases h with
  | quoted hbody => exact .quoted (escaped_literal_swap (by decide) hkeeps.nil _ hbody)
  | plain hbody => exact .plain (plain_literal_swap hkeeps.nil _ hbody)
  | comment hbody hafter => exact .comment hbody (hafter.imp hkeeps.nil (hkeeps.lineBreak rfl))
  | pattern hstart hbody hflags hafter =>
    have hpattern := is_pattern_of_head hstart
    refine .pattern hstart (escaped_literal_swap (by decide) ?_ _ hbody) hflags ?_
    · simp only [append_eq_nil_iff]
      exact fun hnil => ⟨hnil.1, hkeeps.nil hnil.2⟩
    · apply no_flag_of_no_word
      apply hkeeps.noWord hpattern
      simpa [apart, hpattern] using hapart

def Plain (code : List Char) : Prop := ∀ c ∈ code, opensLiteral c = false

theorem segments_from_plain {code : List Char} (hcode : Plain code) (fuel : Nat)
    (before rest : List Char) : segmentsFrom (fuel + code.length) before (code ++ rest) =
      segmentsFrom fuel (code.reverse ++ before) rest := by
  induction code generalizing before with
  | nil => rfl
  | cons c code ih =>
    have hc : literal? c (code ++ rest) = none := literal_eq_none (hcode c (by simp))
    have hfuel : fuel + (c :: code).length = (fuel + code.length) + 1 := by simp; omega
    rw [hfuel, cons_append, segmentsFrom, hc]
    simp only [ih fun d hd => hcode d (by simp [hd]), reverse_cons, append_assoc, singleton_append]

theorem length_after_literal (h : literal? c rest = some (text, after)) : after.length ≤ rest.length := by
  have happend := congrArg List.length (literal_append h)
  have hclose := closes_of_literal h
  have htext : text ≠ [] := by cases hclose <;> simp
  have hpos := length_pos_iff.mpr htext
  simp only [length_append, length_cons] at happend
  omega

theorem segments_from_fuel {fuel other : Nat} {before : List Char} (hfuel : text.length ≤ fuel)
    (hother : text.length ≤ other) :
    segmentsFrom fuel before text = segmentsFrom other before text := by
  induction fuel generalizing other before text with
  | zero =>
    obtain rfl := length_eq_zero_iff.mp (Nat.le_zero.mp hfuel)
    cases other <;> rfl
  | succ fuel ih =>
    cases text with
    | nil => cases other <;> rfl
    | cons c rest =>
      cases other with
      | zero => simp at hother
      | succ other =>
        simp only [length_cons, Nat.add_le_add_iff_right] at hfuel hother
        simp only [segmentsFrom]
        split
        · exact ih hfuel hother
        · next after hliteral =>
          have hlength := length_after_literal hliteral
          have hafter : segmentsFrom fuel [] after = segmentsFrom other [] after := ih (by omega) (by omega)
          rw [hafter]

end Segment

open Segment

variable {code literal after text : List Char} {literals : List (List Char)}

theorem segments_of_plain (hcode : Plain code) : segments code = codeBefore code.reverse := by
  have hsegments := segments_from_plain hcode 0 [] []
  simpa [segments, segmentsFrom] using hsegments

theorem segments_of_literal (hcode : Plain code) (hcloses : Closes literal after) :
    segments (code ++ (literal ++ after)) = codeBefore code.reverse ++ ⟨true, literal⟩ :: segments after := by
  cases literal with
  | nil => cases hcloses
  | cons c body =>
    have hlength : (code ++ ((c :: body) ++ after)).length = (body.length + after.length + 1) + code.length := by
      simp only [length_append, length_cons]
      omega
    rw [segments, hlength, segments_from_plain hcode, cons_append, segmentsFrom, hcloses.literal_eq]
    simp only [append_nil]
    rw [segments, segments_from_fuel (by omega) (Nat.le_refl _)]

theorem map_code_of_literal (f : List Char → List Char) (hcode : Plain code) (hcloses : Closes literal after) :
    mapCode f (code ++ (literal ++ after)) = mapCode f code ++ (literal ++ mapCode f after) := by
  simp only [mapCode, segments_of_literal hcode hcloses, segments_of_plain hcode, flatMap_append, flatMap_cons]
  rfl

theorem map_code_of_plain (f : List Char → List Char) (hcode : Plain code) :
    mapCode f code = if code.isEmpty then [] else f code := by
  rw [mapCode, segments_of_plain hcode]
  cases code with
  | nil => rfl
  | cons c rest => simp [codeBefore]

def literalTexts (text : List Char) : List (List Char) := ((segments text).filter (·.literal)).map (·.text)

def placedLiterals : List Segment → List (List Char × List Char)
  | [] => []
  | piece :: rest =>
    if piece.literal then (piece.text, rest.flatMap (·.text)) :: placedLiterals rest
    else placedLiterals rest

/-- `Cut fits text literals` says that the text consists of code and of these literals, each of which fits
what follows it. -/
inductive Cut (fits : List Char → List Char → Prop) : List Char → List (List Char) → Prop where
  | code {code : List Char} (hcode : Plain code) : Cut fits code []
  | literal {code literal after : List Char} {literals : List (List Char)} (hcode : Plain code)
      (hcloses : Closes literal after) (hfits : fits literal after)
      (hafter : Cut fits after literals) :
      Cut fits (code ++ (literal ++ after)) (literal :: literals)

variable {fits fits' : List Char → List Char → Prop}

theorem placed_literals_code_before (code : List Char) (rest : List Segment) :
    placedLiterals (codeBefore code ++ rest) = placedLiterals rest := by
  unfold codeBefore
  split <;> rfl

theorem Cut.flat_map_segments (h : Cut fits text literals) : (segments text).flatMap (·.text) = text := by
  have hbefore : ∀ code : List Char, (codeBefore code.reverse).flatMap (·.text) = code := by
    intro code
    cases code with
    | nil => rfl
    | cons c rest => simp [codeBefore]
  induction h with
  | code hcode => rw [segments_of_plain hcode, hbefore]
  | literal hcode hcloses _ _ ih =>
    rw [segments_of_literal hcode hcloses, flatMap_append, flatMap_cons, hbefore, ih]

theorem Cut.literal_texts (h : Cut fits text literals) : literalTexts text = literals := by
  have hbefore : ∀ code : List Char, (codeBefore code).filter (·.literal) = [] := by
    intro code
    cases code <;> simp [codeBefore]
  induction h with
  | code hcode => simp [literalTexts, segments_of_plain hcode, hbefore]
  | literal hcode hcloses _ _ ih =>
    simp only [literalTexts] at ih
    simp [literalTexts, segments_of_literal hcode hcloses, hbefore, ih]

theorem exists_cut (text : List Char) : ∃ literals, Cut (fun _ _ => True) text literals := by
  induction hlength : text.length using Nat.strongRecOn generalizing text with
  | _ size ih =>
    have hsplit := takeWhile_append_dropWhile (p := fun c => !opensLiteral c) (l := text)
    have hcode : Plain (text.takeWhile fun c => !opensLiteral c) := fun c hc => by
      simpa using of_mem_take_while hc
    have hhead := head_drop_while (fun c => !opensLiteral c) text
    cases hrest : text.dropWhile fun c => !opensLiteral c with
    | nil =>
      rw [hrest, append_nil] at hsplit
      exact ⟨[], hsplit ▸ .code hcode⟩
    | cons c rest =>
      rw [hrest] at hsplit hhead
      obtain ⟨literal, after, hliteral⟩ := literal_eq_some (c := c) (by simpa using hhead) rest
      have hafter := length_after_literal hliteral
      have hsize := congrArg List.length hsplit
      simp only [length_append, length_cons] at hsize
      obtain ⟨literals, hcut⟩ := ih after.length (by omega) after rfl
      rw [← hsplit, ← literal_append hliteral]
      exact ⟨_, .literal hcode (closes_of_literal hliteral) trivial hcut⟩

theorem cut_of_placed (h : ∀ placed ∈ placedLiterals (segments text), fits placed.1 placed.2) :
    Cut fits text (literalTexts text) := by
  obtain ⟨literals, hcut⟩ := exists_cut text
  rw [hcut.literal_texts]
  induction hcut with
  | code hcode => exact .code hcode
  | literal hcode hcloses _ hafter ih =>
    rw [segments_of_literal hcode hcloses, placed_literals_code_before] at h
    simp only [placedLiterals, if_true, mem_cons, hafter.flat_map_segments] at h
    exact .literal hcode hcloses (h _ (.inl rfl)) (ih fun placed hplaced => h placed (.inr hplaced))

end FlightProcedure
