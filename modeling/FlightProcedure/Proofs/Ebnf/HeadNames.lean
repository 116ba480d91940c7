import FlightProcedure.Proofs.Ebnf.Promotion
import FlightProcedure.Proofs.Ebnf.TidyText

/-!
# The names at the heads of rules

In a tidy text the name of a definition is a row of words, and it starts with a letter (`Tidy.head_name`). When
a name is replaced by another one, the names at the heads are those from before, each of them with the same
replacement made in it. This is `mem_heads_replace_word`: no head is lost, and none is read where there was
none.
-/

namespace FlightProcedure.Ebnf

open Segment List

variable {c : Char} {without text rest front back code line word new : List Char} {before : Option Char}
  {skip : Nat}

/-- The characters of a name: word characters and spaces, first a letter and last a word character. -/
structure IsName (chars : List Char) : Prop where
  starts : chars.head?.any startsName = true
  mem : ∀ c ∈ chars, isAsciiWord c = true ∨ c = ' '
  ends : chars.getLast?.any isAsciiWord = true

theorem word_of_letter (h : startsName c = true) : isAsciiWord c = true := by
  have hascii := ascii_of_letter h
  revert h
  exact of_ascii hascii (by decide)

theorem name_part (h : isAsciiWord c = true ∨ c = ' ') : isNamePart c = true := by
  rcases h with h | rfl
  · simp [isNamePart, (class_of_ascii_word h).1]
  · rfl

namespace IsName

theorem exists_cons (h : IsName word) : ∃ c rest, word = c :: rest ∧ startsName c = true := by
  obtain ⟨c, hhead, hc⟩ := (Option.any_eq_true _ _).mp h.starts
  obtain ⟨rest, rfl⟩ := head?_eq_some_iff.mp hhead
  exact ⟨c, rest, rfl, hc⟩

theorem exists_concat (h : IsName word) : ∃ front c, word = front ++ [c] ∧ isAsciiWord c = true := by
  obtain ⟨c, hlast, hc⟩ := (Option.any_eq_true _ _).mp h.ends
  obtain ⟨front, rfl⟩ := getLast?_eq_some_iff.mp hlast
  exact ⟨front, c, rfl, hc⟩

theorem not_mem (h : IsName word) (hc : isNamePart c = false) : c ∉ word := by
  intro hmem
  rw [name_part (h.mem c hmem)] at hc
  cases hc

end IsName

/-! ## Heads of lines -/

theorem Tidy.before_colon (h : Tidy without text) (hcolon : ':' ∈ without)
    (hfront : ∀ c ∈ front, isNamePart c = true) (htext : text = front ++ ':' :: back) :
    (∀ c ∈ front, isAsciiWord c = true ∨ c = ' ') ∧ ∃ start c, front = start ++ [c, ' '] ∧ isAsciiWord c = true := by
  induction h generalizing front with
  | nil => simp at htext
  | @char c text hc _ ih =>
    cases front with
    | nil =>
      obtain rfl := (cons.inj htext).1
      exact absurd hcolon (class_of_code hc).2.2.2.2
    | cons d front =>
      obtain ⟨rfl, hrest⟩ := cons.inj htext
      obtain ⟨hmem, start, e, rfl, he⟩ := ih (fun e he => hfront e (by simp [he])) hrest
      refine ⟨fun e he => ?_, c :: start, e, rfl, he⟩
      rcases mem_cons.mp he with rfl | he
      · have hmarks : ∀ d ∈ codeMarks, isNamePart d = true → d = ' ' := by decide
        simp only [isCode, Bool.and_eq_true, Bool.or_eq_true, contains_eq_mem, decide_eq_true_eq] at hc
        exact hc.1.imp_right fun hmark => hmarks e hmark (hfront e (by simp))
      · exact hmem e he
  | quoted quoted _ _ =>
    have hquote : isNamePart '"' = false := by decide
    cases front with
    | nil => cases (cons.inj htext).1
    | cons d front =>
      have hd := hfront d (by simp)
      rw [← (cons.inj htext).1, hquote] at hd
      cases hd
  | @head c text hc _ _ =>
    have hmark : isNamePart ':' = false := by decide
    rcases front with _ | ⟨_, _ | ⟨e, _ | ⟨d, front⟩⟩⟩
    · have hmem := (class_of_ascii_word hc).2.2.2.2
      exact absurd (cons.inj htext).1 fun heq => hmem (by simp [heq])
    · cases (cons.inj (cons.inj htext).2).1
    · obtain ⟨rfl, hrest⟩ := cons.inj htext
      obtain rfl := (cons.inj hrest).1
      refine ⟨?_, [], c, rfl, hc⟩
      simp [hc]
    · have hd := hfront d (by simp)
      rw [← (cons.inj (cons.inj (cons.inj htext).2).2).1, hmark] at hd
      cases hd

theorem exists_run (text : List Char) : ∃ run left, text = run ++ left ∧ (∀ c ∈ run, isNamePart c = true) ∧
    left.head?.any isNamePart = false :=
  ⟨text.takeWhile isNamePart, text.dropWhile isNamePart, takeWhile_append_dropWhile.symm,
    fun _ hc => of_mem_take_while hc, head_drop_while isNamePart text⟩

def Unmarked (line : List Char) : Prop := line.head?.all (fun c => c != '!' && c != '?') = true

theorem unmarked_of_mem (h : ∀ c ∈ line, c ≠ '!' ∧ c ≠ '?') : Unmarked line := by
  cases line with
  | nil => rfl
  | cons c line => simpa [Unmarked] using h c (by simp)

theorem Tidy.unmarked (h : Tidy without line) : Unmarked line := by
  cases h with
  | nil => rfl
  | char hc =>
    obtain ⟨_, _, hnot, hask, _⟩ := class_of_code hc
    simp [Unmarked, hnot, hask]
  | quoted => rfl
  | @head c text hc =>
    have hno : c ≠ '!' ∧ c ≠ '?' := by
      constructor <;>
        · rintro rfl
          cases hc
    simp [Unmarked, hno]

/-- The name on a line that has no marks before its name: the parts of names at its start, if the first of them
is a letter and the last one a space before a colon. -/
theorem head_of_run (hfront : ∀ c ∈ front, isNamePart c = true) (hrest : rest.head?.any isNamePart = false)
    (hmark : Unmarked (front ++ rest)) : head? (front ++ rest) =
      if front.head?.any startsName && front.getLast? == some ' ' && rest.head? == some ':' then
        some front.dropLast
      else none := by
  have hunmarked : (front ++ rest).dropWhile (fun c => c == '!' || c == '?') = front ++ rest := by
    cases hwhole : front ++ rest with
    | nil => rfl
    | cons c whole =>
      have hc : (c == '!' || c == '?') = false := by simpa [Unmarked, hwhole] using hmark
      simp [hc]
  rw [head?, hunmarked]
  cases front with
  | nil =>
    cases rest with
    | nil => rfl
    | cons d rest =>
      have hd : ¬ startsName d = true := by
        intro hletter
        simp [name_part (.inl (word_of_letter hletter))] at hrest
      simp [hd]
  | cons c front =>
    have hparts : ∀ d ∈ front, isNamePart d = true := fun d hd => hfront d (by simp [hd])
    obtain ⟨htake, _⟩ := take_while_append hparts hrest
    have hdrop : (front ++ rest).drop front.length = rest := drop_left
    simp only [cons_append, htake, hdrop, head?_cons, Option.any_some]
    cases front with
    | nil =>
      have hspace : startsName c = true → c ≠ ' ' := by
        rintro h rfl
        cases h
      by_cases hletter : startsName c = true
      · simp [hspace hletter]
      · simp [hletter]
    | cons d front => simp only [getLast?_cons_cons, dropLast_cons_cons]

theorem Tidy.head_name {name : List Char} (h : Tidy without line) (hcolon : ':' ∈ without)
    (hhead : head? line = some name) : IsName name := by
  obtain ⟨run, left, rfl, hparts, hends⟩ := exists_run line
  rw [head_of_run hparts hends h.unmarked] at hhead
  simp only [Option.ite_none_right_eq_some, Bool.and_eq_true, beq_iff_eq, Option.some.injEq] at hhead
  obtain ⟨⟨⟨hstarts, _⟩, hback⟩, rfl⟩ := hhead
  obtain ⟨back, rfl⟩ := head?_eq_some_iff.mp hback
  obtain ⟨hmem, start, c, rfl, hc⟩ := h.before_colon hcolon hparts rfl
  rw [append_cons, dropLast_concat]
  refine ⟨by cases start <;> simpa using hstarts, fun e he => hmem e ?_, by simp [hc]⟩
  simp only [mem_append, mem_cons, not_mem_nil, or_false] at he ⊢
  exact he.imp_right .inl

theorem head_append (hcode : Unmarked code) (htail : EndsCode rest) : head? (code ++ rest) = head? code := by
  obtain ⟨run, left, rfl, hparts, hends⟩ := exists_run code
  -- What follows the code is the mark of a literal, neither a part of a name nor a colon.
  have hhead : (left ++ rest).head?.any isNamePart = false ∧
      ((left ++ rest).head? == some ':') = (left.head? == some ':') ∧ Unmarked (run ++ (left ++ rest)) := by
    cases left with
    | cons e left => exact ⟨hends, rfl, by cases run <;> exact hcode⟩
    | nil =>
      cases rest with
      | nil => exact ⟨rfl, rfl, hcode⟩
      | cons d rest =>
        have hmark : opensLiteral d = true := htail
        have hno : d ≠ ':' ∧ d ≠ '!' ∧ d ≠ '?' := by
          refine ⟨?_, ?_, ?_⟩ <;>
            · rintro rfl
              cases hmark
        refine ⟨by simpa using (class_of_opens_literal hmark).2.2.1, by simp [hno.1], ?_⟩
        cases run with
        | nil => simp [Unmarked, hno.2]
        | cons e run => exact hcode
  rw [append_assoc, head_of_run hparts hhead.1 hhead.2.2, head_of_run hparts hends hcode, hhead.2.1]

/-! ## Replacing a name -/

theorem replace_word_append (hsame : ∀ part, part ≠ [] → part <:+ front → ∀ before,
      startsWithWord word before (part ++ back) = startsWithWord word before part) (hskip : skip ≤ front.length) :
    replaceWordFrom word new skip before (front ++ back) = replaceWordFrom word new skip before front ++
        replaceWordFrom word new 0 (front.getLast?.or before) back := by
  induction front generalizing skip before with
  | nil =>
    obtain rfl : skip = 0 := by simpa using hskip
    rfl
  | cons c front ih =>
    have hrest : ∀ part, part ≠ [] → part <:+ front → ∀ before,
        startsWithWord word before (part ++ back) = startsWithWord word before part :=
      fun part hne hpart => hsame part hne (hpart.trans (suffix_cons c front))
    have hlast : front.getLast?.or (some c) = (c :: front).getLast?.or before := by
      cases front <;> rfl
    cases skip with
    | succ skip =>
      rw [cons_append, replaceWordFrom, replaceWordFrom, ih hrest (by simpa using hskip), hlast]
    | zero =>
      have hhere := hsame (c :: front) (by simp) suffix_rfl before
      rw [cons_append] at hhere
      rw [cons_append, replaceWordFrom, replaceWordFrom, hhere]
      split
      · next hfound =>
        have hlength : word.length ≤ front.length + 1 := by
          simp only [startsWithWord, Bool.and_eq_true] at hfound
          exact ( isPrefixOf_iff_prefix.mp hfound.1.1).length_le
        rw [ih hrest (by omega), hlast, append_assoc]
      · rw [ih hrest (by omega), hlast]
        rfl

theorem starts_with_word_append (hc : isWordChar c = false)
    (hno : ∀ part more, more <+: rest → word ≠ part ++ c :: more) (hfront : front ≠ []) (before : Option Char) :
    startsWithWord word before (front ++ c :: rest) = startsWithWord word before front := by
  have hhead : (front ++ c :: rest).head? = front.head? := by
    cases front with
    | nil => exact absurd rfl hfront
    | cons d front => rfl
  have hpart : word <+: front ++ c :: rest ↔ word <+: front := by
    refine ⟨?_, fun h => h.trans (prefix_append _ _)⟩
    rintro ⟨after, hafter⟩
    rcases append_eq_append_iff.mp hafter with ⟨more, rfl, _⟩ | ⟨_ | ⟨d, more⟩, hmore, hback⟩
    · exact prefix_append word more
    · simp [hmore]
    · obtain ⟨rfl, hrest⟩ := cons.inj hback
      exact absurd hmore (hno front more ⟨after, hrest.symm⟩)
  by_cases hfound : word <+: front
  · obtain ⟨more, rfl⟩ := hfound
    have hafter : ((word ++ more ++ c :: rest).drop word.length).head?.any isWordChar =
        ((word ++ more).drop word.length).head?.any isWordChar := by
      rw [append_assoc, drop_left, drop_left]
      cases more <;> simp [hc]
    simp only [startsWithWord, Bool.eq_iff_iff.mpr ( isPrefixOf_iff_prefix.trans
      (hpart.trans isPrefixOf_iff_prefix.symm)), hhead, isWordEdge, hafter]
  · have hnone : ∀ {text}, ¬ word <+: text → word.isPrefixOf text = false := fun h =>
      Bool.eq_false_iff.mpr (mt isPrefixOf_iff_prefix.mp h)
    simp only [startsWithWord, hnone hfound, hnone (mt hpart.mp hfound), Bool.false_and]

theorem starts_with_word_no (hname : IsName word) (hc : isWordChar c = false) (before : Option Char)
    (rest : List Char) : startsWithWord word before (c :: rest) = false := by
  obtain ⟨d, more, rfl, hd⟩ := hname.exists_cons
  have hne : d ≠ c := by
    rintro rfl
    rw [(class_of_ascii_word (word_of_letter hd)).1] at hc
    cases hc
  simp [startsWithWord, hne]

theorem replace_word_before (hbefore : before.any isWordChar = false) (text : List Char) :
    replaceWordFrom word new 0 before text = replaceWordFrom word new 0 none text := by
  cases text with
  | nil => rfl
  | cons c text =>
    have hsame : startsWithWord word before (c :: text) = startsWithWord word none (c :: text) := by
      simp [startsWithWord, isWordEdge, hbefore]
    rw [replaceWordFrom, replaceWordFrom, hsame]

theorem replace_word_mark (hname : IsName word) (hword : isWordChar c = false) (hmem : c ∉ word)
    (before : Option Char) (front back : List Char) : replaceWordFrom word new 0 before (front ++ c :: back) =
      replaceWordFrom word new 0 before front ++ c :: replaceWordFrom word new 0 none back := by
  have hsame : ∀ part, part ≠ [] → part <:+ front → ∀ before,
      startsWithWord word before (part ++ c :: back) = startsWithWord word before part := by
    intro part hpart _
    refine starts_with_word_append hword (fun start more _ heq => hmem ?_) hpart
    rw [heq]
    simp
  have hback : replaceWordFrom word new 0 (some c) back = replaceWordFrom word new 0 none back :=
    replace_word_before (by simpa using hword) back
  rw [replace_word_append hsame (Nat.zero_le _), replaceWordFrom,
    if_neg (by simp [starts_with_word_no hname hword]), hback]

theorem replace_word_split (hname : IsName word) (hc : isNamePart c = false) (before : Option Char)
    (front back : List Char) : replaceWordFrom word new 0 before (front ++ c :: back) =
      replaceWordFrom word new 0 before front ++ c :: replaceWordFrom word new 0 none back := by
  exact replace_word_mark hname (Bool.or_eq_false_iff.mp hc).2 (hname.not_mem hc) before front back

theorem replace_word_space (hname : IsName word) (before : Option Char) (front : List Char) :
    replaceWordFrom word new 0 before (front ++ [' ']) = replaceWordFrom word new 0 before front ++ [' '] := by
  obtain ⟨start, d, hchars, hd⟩ := hname.exists_concat
  have hsame : ∀ part, part ≠ [] → part <:+ front → ∀ before,
      startsWithWord word before (part ++ [' ']) = startsWithWord word before part := by
    intro part hpart _
    refine starts_with_word_append space_no_word (fun start' more hmore heq => ?_) hpart
    obtain rfl := prefix_nil.mp hmore
    obtain rfl : d = ' ' := by simpa using congrArg List.getLast? (hchars.symm.trans heq)
    exact absurd hd (by decide)
  rw [replace_word_append hsame (Nat.zero_le _), replaceWordFrom,
    if_neg (by simp [starts_with_word_no hname space_no_word])]
  rfl

theorem mem_replace_word (h : c ∈ replaceWordFrom word new skip before text) : c ∈ text ∨ c ∈ new := by
  induction text generalizing skip before with
  | nil => cases h
  | cons d text ih =>
    cases skip with
    | succ skip => exact (ih h).imp_left (mem_cons_of_mem d)
    | zero =>
      rw [replaceWordFrom] at h
      split at h
      · rcases mem_append.mp h with h | h
        · exact .inr h
        · exact (ih h).imp_left (mem_cons_of_mem d)
      · rcases mem_cons.mp h with rfl | h
        · exact .inl mem_cons_self
        · exact (ih h).imp_left (mem_cons_of_mem d)

theorem replace_word_skipped (hskip : text.length ≤ skip) : replaceWordFrom word new skip before text = [] := by
  induction text generalizing skip before with
  | nil => cases skip <;> rfl
  | cons c text ih =>
    cases skip with
    | zero => simp at hskip
    | succ skip => exact ih (by simpa using hskip)

theorem replace_word_last (hnew : new.getLast?.any isWordChar = true) (hskip : skip < text.length)
    (hlast : text.getLast?.any isWordChar = true) :
    (replaceWordFrom word new skip before text).getLast?.any isWordChar = true := by
  -- What stands in front does not matter for the last character.
  have happend : ∀ {back : List Char} (front : List Char), back.getLast?.any isWordChar = true →
      (front ++ back).getLast?.any isWordChar = true := by
    intro back front hback
    obtain ⟨d, hlast, hd⟩ := (Option.any_eq_true _ _).mp hback
    rw [getLast?_append, hlast]
    exact hd
  induction text generalizing skip before with
  | nil => simp at hskip
  | cons c text ih =>
    have hrest : text ≠ [] → text.getLast?.any isWordChar = true := by
      intro hne
      obtain ⟨d, text, rfl⟩ := exists_cons_of_ne_nil hne
      simpa using hlast
    cases skip with
    | succ skip =>
      have hlength : skip < text.length := by simpa using hskip
      exact ih hlength (hrest (ne_nil_of_length_pos (by omega)))
    | zero =>
      rw [replaceWordFrom]
      split
      · by_cases hlength : word.length - 1 < text.length
        · exact happend new (ih hlength (hrest (ne_nil_of_length_pos (by omega))))
        · rw [replace_word_skipped (by omega), append_nil]
          exact hnew
      · by_cases hne : text = []
        · subst hne
          simpa [replaceWordFrom] using hlast
        · exact happend [c] (ih (length_pos_iff.mpr hne) (hrest hne))

section

variable (hname : IsName word) (hnew : IsName new)

include hname hnew

theorem letters_of_found (h : startsWithWord word before (c :: text) = true) :
    startsName c = true ∧ ∃ d others, new = d :: others ∧ startsName d = true := by
  obtain ⟨d, more, rfl, hd⟩ := hname.exists_cons
  simp only [startsWithWord, Bool.and_eq_true, isPrefixOf_cons_cons, beq_iff_eq] at h
  exact ⟨h.1.1.1 ▸ hd, hnew.exists_cons⟩

theorem replace_word_first (before : Option Char) (text : List Char) :
    (replaceWordFrom word new 0 before text).head?.any startsName = text.head?.any startsName := by
  cases text with
  | nil => rfl
  | cons c text =>
    rw [replaceWordFrom]
    split
    · next hfound =>
      obtain ⟨hc, d, others, rfl, hd⟩ := letters_of_found hname hnew hfound
      simp [hc, hd]
    · rfl

theorem replace_word_run (hfront : ∀ c ∈ front, isNamePart c = true) :
    (front.getLast? = some ' ' ∧ (replaceWordFrom word new 0 none front).getLast? = some ' ' ∧
      (replaceWordFrom word new 0 none front).dropLast = replaceWordFrom word new 0 none front.dropLast) ∨
    front.getLast? ≠ some ' ' ∧ (replaceWordFrom word new 0 none front).getLast? ≠ some ' ' := by
  rcases eq_nil_or_concat front with rfl | ⟨start, c, rfl⟩
  · right
    simp [replaceWordFrom]
  · rw [concat_eq_append] at hfront ⊢
    by_cases hc : c = ' '
    · subst hc
      left
      rw [replace_word_space hname]
      simp
    · right
      have hword : isWordChar c = true := by simpa [isNamePart, hc] using hfront c (by simp)
      have hlast : (replaceWordFrom word new 0 none (start ++ [c])).getLast?.any isWordChar = true := by
        obtain ⟨others, d, rfl, hd⟩ := hnew.exists_concat
        exact replace_word_last (by simp [(class_of_ascii_word hd).1]) (by simp) (by simp [hword])
      refine ⟨by simp [hc], fun heq => ?_⟩
      rw [heq, Option.any_some, space_no_word] at hlast
      cases hlast

end

theorem replace_word_unmarked (hnew : IsName new) (hcode : ∀ c ∈ code, c ≠ '!' ∧ c ≠ '?') :
    Unmarked (replaceWordFrom word new 0 none code) := by
  refine unmarked_of_mem fun c hc => ?_
  rcases mem_replace_word hc with hc | hc
  · exact hcode c hc
  · constructor <;>
      · rintro rfl
        exact hnew.not_mem (by decide) hc

theorem head_replace_word (hname : IsName word) (hnew : IsName new) (hcode : ∀ c ∈ code, c ≠ '!' ∧ c ≠ '?') :
    head? (replaceWordFrom word new 0 none code) = (head? code).map (replaceWordFrom word new 0 none) := by
  obtain ⟨run, left, rfl, hparts, hends⟩ := exists_run code
  have hreplaced : Unmarked (replaceWordFrom word new 0 none (run ++ left)) := replace_word_unmarked hnew hcode
  -- No name goes on behind the parts of names at the start.
  obtain ⟨left', hleft, hhead⟩ : ∃ left', replaceWordFrom word new 0 none (run ++ left) =
      replaceWordFrom word new 0 none run ++ left' ∧ left'.head? = left.head? := by
    cases left with
    | nil => exact ⟨[], by simp, rfl⟩
    | cons d left =>
      have hd : isNamePart d = false := hends
      exact ⟨d :: replaceWordFrom word new 0 none left, replace_word_split hname hd none run left, rfl⟩
  have hparts' : ∀ c ∈ replaceWordFrom word new 0 none run, isNamePart c = true := by
    intro c hc
    exact (mem_replace_word hc).elim (hparts c) fun hmem => name_part (hnew.mem c hmem)
  rw [hleft] at hreplaced ⊢
  rw [head_of_run hparts' (hhead ▸ hends) hreplaced, head_of_run hparts hends (unmarked_of_mem hcode),
    replace_word_first hname hnew, hhead]
  rcases replace_word_run hname hnew hparts with ⟨hlast, hlast', hdrop⟩ | ⟨hlast, hlast'⟩
  · rw [hlast, hlast', hdrop]
    split <;> rfl
  · simp [hlast, hlast']

theorem Tidy.replace_word {word new : String} (hnew : IsName new.toList)
    (hwithout : ∀ c ∈ without, isAsciiWord c = false ∧ c ∉ [' ', ':']) (h : Tidy without text) :
    Tidy without (replaceWord word new text) := by
  refine h.map_code rfl fun code hplain hcode => .of_code fun c hc => ?_
  obtain ⟨hcode, hkept⟩ : isCode [] c = true ∧ c ∉ without := by
    rcases mem_replace_word hc with hc | hc
    · refine ⟨hcode.code_of_mem hplain c hc, fun hmem => ?_⟩
      exact hcode.not_mem hplain hmem (hwithout c hmem).1 (hwithout c hmem).2 hc
    · rcases hnew.mem c hc with hword | rfl
      · exact ⟨by simp [isCode, hword], fun hmem => by cases hword.symm.trans (hwithout c hmem).1⟩
      · exact ⟨rfl, fun hmem => (hwithout ' ' hmem).2 mem_cons_self⟩
  simp only [isCode, Bool.and_eq_true] at hcode ⊢
  exact ⟨hcode.1, by simpa using hkept⟩

theorem breaks_line_replace_word (hname : IsName word) (hnew : IsName new) (before : Option Char)
    (text : List Char) : breaksLine (replaceWordFrom word new 0 before text) = breaksLine text := by
  have hletter : ∀ {c : Char} (rest : List Char), startsName c = true → breaksLine (c :: rest) = false := by
    intro c rest hc
    obtain ⟨_, _, hspace, _, hmem⟩ := class_of_ascii_word (word_of_letter hc)
    have hbreak : c ≠ '\n' := fun heq => hmem (by simp [heq])
    simp [breaksLine, hspace, hbreak]
  induction text generalizing before with
  | nil => rfl
  | cons c text ih =>
    rw [replaceWordFrom]
    split
    · next hfound =>
      obtain ⟨hc, d, others, rfl, hd⟩ := letters_of_found hname hnew hfound
      rw [cons_append, hletter _ hc, hletter _ hd]
    · exact breaks_line_cons fun _ => ih (some c)

theorem Unbroken.replace_word_from (hname : IsName word) (hnew : IsName new) (h : Unbroken code) (skip : Nat)
    (before : Option Char) : Unbroken (replaceWordFrom word new skip before code) := by
  have hbar : isNamePart '|' = false := by decide
  induction code generalizing skip before with
  | nil => cases skip <;> trivial
  | cons c code ih =>
    cases skip with
    | succ skip => exact ih h.2 skip (some c)
    | zero =>
      rw [replaceWordFrom]
      split
      · exact (unbroken_front (hnew.not_mem hbar)).mpr (ih h.2 _ _)
      · refine ⟨fun hc => ?_, ih h.2 _ _⟩
        rw [breaks_line_replace_word hname hnew]
        exact h.1 hc

theorem Tidy.unbroken_replace_word {word new : String} (hname : IsName word.toList) (hnew : IsName new.toList)
    (h : Tidy without text) (hbars : Unbroken text) : Unbroken (replaceWord word new text) :=
  h.unbroken_map_code rfl (fun _ hcode => hcode.replace_word_from hname hnew 0 none) hbars

/-! ## Lines -/

theorem Tidy.lines (h : Tidy without text) : ∀ line ∈ splitWhere (· == '\n') text, Tidy without line := by
  -- A piece without line breaks becomes part of the first line.
  have hpiece : ∀ {front text : List Char}, '\n' ∉ front →
      (∀ {line : List Char}, Tidy without line → Tidy without (front ++ line)) →
      (∀ line ∈ splitWhere (· == '\n') text, Tidy without line) →
      ∀ line ∈ splitWhere (· == '\n') (front ++ text), Tidy without line := by
    intro front text hfront htidy hlines line hline
    obtain ⟨first, lines, hsplit, _⟩ := split_where_mark '\n' text
    rw [split_where_append (ne_of_not_mem hfront) hsplit] at hline
    rw [hsplit] at hlines
    rcases mem_cons.mp hline with rfl | hline
    · exact htidy (hlines first (by simp))
    · exact hlines line (by simp [hline])
  induction h with
  | nil =>
    intro line hline
    rw [mem_singleton.mp hline]
    exact .nil
  | @char c text hc _ ih =>
    by_cases hbreak : c = '\n'
    · subst hbreak
      intro line hline
      have hsplit : splitWhere (· == '\n') ('\n' :: text) = [] :: splitWhere (· == '\n') text := rfl
      rw [hsplit] at hline
      rcases mem_cons.mp hline with rfl | hline
      · exact .nil
      · exact ih line hline
    · have hfront : '\n' ∉ [c] := by simpa using Ne.symm hbreak
      exact hpiece hfront (fun h => .char hc h) ih
  | quoted quoted _ ih =>
    have hfront : '\n' ∉ '"' :: quoted.chars ++ ['"'] := by
      simp only [cons_append, mem_cons, mem_append, not_mem_nil, or_false, not_or]
      exact ⟨by decide, fun hmem => (quoted.plain _ hmem).2.2 rfl, by decide⟩
    exact hpiece hfront (fun h => .quoted quoted h) ih
  | @head c text hc _ ih =>
    exact hpiece (not_mem_head hc (by decide)) (fun h => .head hc h) ih

theorem tidy_of_lines {first : List Char} {lines : List (List Char)} (hbreak : isCode without '\n' = true)
    (h : ∀ line ∈ first :: lines, Tidy without line) : Tidy without (first ++ lines.flatMap ('\n' :: ·)) := by
  induction lines generalizing first with
  | nil => simpa using h first (by simp)
  | cons line lines ih =>
    refine (h first (by simp)).append (.char hbreak (ih fun other hother => h other ?_))
    exact mem_cons_of_mem first hother

section

variable {f : List Char → List Char}

theorem Tidy.map_code_line (hnil : f [] = []) (hf : ∀ code, '\n' ∉ code → '\n' ∉ f code)
    (h : Tidy without line) (hline : '\n' ∉ line) : '\n' ∉ mapCode f line := by
  revert hline
  refine h.blocks ?_ ?_
  · intro code hplain _ hline
    rw [map_code_plain hnil hplain]
    exact hf code hline
  · intro code quoted after hplain _ _ ih hline
    rw [map_code_quoted hnil hplain]
    simp only [mem_append, not_or] at hline ⊢
    exact ⟨hf code hline.1, hline.2.1, ih hline.2.2⟩

theorem Tidy.lines_map_code (hnil : f [] = [])
    (hsplit : ∀ front back, f (front ++ '\n' :: back) = f front ++ '\n' :: f back)
    (hf : ∀ code, '\n' ∉ code → '\n' ∉ f code) (h : Tidy without text) :
    splitWhere (· == '\n') (mapCode f text) = (splitWhere (· == '\n') text).map (mapCode f) := by
  have htidy := h.lines
  obtain ⟨first, lines, hlines, rfl, hbreaks⟩ := split_where_mark '\n' text
  rw [hlines] at htidy ⊢
  have hmap : mapCode f (first ++ lines.flatMap ('\n' :: ·)) =
      mapCode f first ++ (lines.map (mapCode f)).flatMap ('\n' :: ·) := by
    clear h hlines hbreaks
    induction lines generalizing first with
    | nil => simp
    | cons line lines ih =>
      have hrest : Tidy [] (line ++ lines.flatMap ('\n' :: ·)) :=
        tidy_of_lines (by decide) fun other hother => (htidy other (mem_cons_of_mem first hother)).mono (by simp)
      have hnext := ih line fun other hother => htidy other (mem_cons_of_mem first hother)
      have htext : first ++ (line :: lines).flatMap ('\n' :: ·) =
          first ++ '\n' :: (line ++ lines.flatMap ('\n' :: ·)) := by simp
      rw [htext, (htidy first (by simp)).map_code_split hnil rfl hsplit hrest, hnext]
      simp
  rw [hmap, map_cons]
  refine split_where_marks fun line hline => ?_
  obtain ⟨old, hold, rfl⟩ := mem_map.mp (map_cons ▸ hline)
  exact (htidy old hold).map_code_line hnil hf (hbreaks old hold)

end

/-! ## The names of a text -/

def renamed (word new name : String) : String :=
  String.ofList (replaceWordFrom word.toList new.toList 0 none name.toList)

theorem Tidy.head_replace_word (h : Tidy without line) (hname : IsName word) (hnew : IsName new) :
    head? (mapCode (replaceWordFrom word new 0 none) line) = (head? line).map (replaceWordFrom word new 0 none) := by
  have hcode : ∀ code, Tidy without code → Plain code → ∀ c ∈ code, c ≠ '!' ∧ c ≠ '?' := by
    intro code htidy hplain c hc
    obtain ⟨_, _, hnot, hask, _⟩ := class_of_code (htidy.code_of_mem hplain c hc)
    exact ⟨hnot, hask⟩
  refine h.blocks ?_ ?_
  · intro code hplain htidy
    rw [map_code_plain rfl hplain]
    exact Ebnf.head_replace_word hname hnew (hcode code htidy hplain)
  · intro code quoted after hplain htidy _ _
    have hends : ∀ after, EndsCode (('"' :: quoted.chars ++ ['"']) ++ after) := fun after =>
      ends_code_of_closes (quoted.closes after)
    rw [map_code_quoted rfl hplain,
      head_append (replace_word_unmarked hnew (hcode code htidy hplain)) (hends _), head_append htidy.unmarked (hends after)]
    exact Ebnf.head_replace_word hname hnew (hcode code htidy hplain)

variable {word new : String} (h : Tidy without text) (hname : IsName word.toList) (hnew : IsName new.toList)

include h hname hnew

theorem Tidy.lines_replace_word : splitWhere (· == '\n') (replaceWord word new text) =
      (splitWhere (· == '\n') text).map (replaceWord word new) := by
  have hbreak : isNamePart '\n' = false := by decide
  refine h.lines_map_code rfl (fun front back => replace_word_split hname hbreak none front back) ?_
  intro code hcode hmem
  exact (mem_replace_word hmem).elim hcode (hnew.not_mem hbreak)

theorem mem_heads_replace_word {name : String} :
    name ∈ heads (replaceWord word new text) ↔ ∃ old ∈ heads text, name = renamed word new old := by
  rw [mem_heads, h.lines_replace_word hname hnew]
  constructor
  · rintro ⟨line, hline, hhead⟩
    obtain ⟨line, hmem, rfl⟩ := mem_map.mp hline
    rw [replaceWord, (h.lines line hmem).head_replace_word hname hnew] at hhead
    obtain ⟨old, hold, hchars⟩ := Option.map_eq_some_iff.mp hhead
    refine ⟨String.ofList old, mem_heads.mpr ⟨line, hmem, by rw [hold, String.toList_ofList]⟩, ?_⟩
    rw [renamed, String.toList_ofList, hchars, String.ofList_toList]
  · rintro ⟨old, hold, rfl⟩
    obtain ⟨line, hmem, hhead⟩ := mem_heads.mp hold
    refine ⟨_, mem_map_of_mem hmem, ?_⟩
    rw [replaceWord, (h.lines line hmem).head_replace_word hname hnew, hhead, renamed, String.toList_ofList]
    rfl

end FlightProcedure.Ebnf
