import FlightProcedure.Ebnf.Layout
import FlightProcedure.Proofs.Ebnf.Segmentation

/-!
# Literals under a change of layout

Some steps of a change of layout look at whole lines, whether they are code or not. A literal is steady
if no such step takes a part of it for the head of a definition, for a continuation, or for the end of a
definition or of an alternative. The main statements say that each step copies the literals of a text in
which every literal is steady and no word touches a pattern.
-/

namespace FlightProcedure.Ebnf

open Segment List CommaState

variable {code tail literal after after' text out : List Char} {literals : List (List Char)}
  {c : Char} {flag : Bool}

/-- Whether no step takes a part of a literal for something else. The flag says whether a line starts
here. -/
def steadyFrom : Bool → List Char → Bool
  | _, [] => true
  | atLineStart, c :: rest =>
    !(atLineStart && ((definitionHead? (c :: rest)).isSome || (trimStart (c :: rest)).head? == some '|')) &&
      !((c == ';' || c == '|') && endsLine rest) && steadyFrom (c == '\n') rest

/-- Whether no line of a literal ends like a definition or an alternative, and no later line of it looks
like a head or a continuation. -/
def steady (literal : List Char) : Bool := steadyFrom false literal

def Firm (literal after : List Char) : Prop := steady literal = true ∧ apart literal after = true

def leadsToComma (text : List Char) : Bool := (trimStart text).head? == some ','

def Clear (literal after : List Char) : Prop :=
  Firm literal after ∧ (isComment literal = true → leadsToComma after = false)

def EndsCode (tail : List Char) : Prop := tail.head?.all opensLiteral = true

theorem ends_code_of_closes (h : Closes literal after) : EndsCode (literal ++ after) := by
  cases h <;> simp [EndsCode, opensLiteral]

theorem class_of_opens_literal (h : opensLiteral c = true) :
    isSpace c = false ∧ isBlank c = false ∧ isNamePart c = false ∧ startsName c = false := by
  simp only [opensLiteral, Bool.or_eq_true, beq_iff_eq] at h
  rcases h with (rfl | rfl) | rfl <;> decide

variable {name more more' : List Char} {p : Char → Bool}

theorem opens_no_literal (hp : opensLiteral c = true → p c = false) (hc : p c = true) : opensLiteral c = false := by
  refine Bool.eq_false_iff.mpr fun hmark => ?_
  rw [hp hmark] at hc
  cases hc

theorem opens_literal_of_word (h : isWordChar c = true) : opensLiteral c = false :=
  opens_no_literal (fun hc => (class_of_opens_literal hc).2.2.1) (by simp [isNamePart, h])

theorem ne_of_opens_literal {d : Char} (h : opensLiteral c = true) (hd : opensLiteral d = false) : (c == d) = false := by
  rw [beq_eq_false_iff_ne]
  rintro rfl
  cases h.symm.trans hd

theorem plain_cons : Plain (c :: code) ↔ opensLiteral c = false ∧ Plain code := by
  simp [Plain]

theorem plain_append : Plain (code ++ tail) ↔ Plain code ∧ Plain tail := by
  simp only [Plain, mem_append]
  exact ⟨fun h => ⟨fun c hc => h c (.inl hc), fun c hc => h c (.inr hc)⟩, fun h c hc => hc.elim (h.1 c) (h.2 c)⟩

theorem Firm.swap (hfirm : Firm literal after) (hcloses : Closes literal after)
    (hkeeps : Segment.Keeps literal after after') : Closes literal after' ∧ Firm literal after' := by
  refine ⟨hcloses.swap hfirm.2 hkeeps, hfirm.1, ?_⟩
  have hapart := hfirm.2
  simp only [apart, Bool.or_eq_true, Bool.not_eq_true'] at hapart ⊢
  cases hpattern : isPattern literal with
  | false => exact .inl rfl
  | true => exact .inr (hkeeps.noWord hpattern (by simpa [hpattern] using hapart))

/-! ## Steps from left to right -/

/-- `CopiesLiterals fits fits' step` says that a step, which may carry a flag along, turns code into code
and copies each literal that fits what follows it, in such a way that the copies fit what follows
them. -/
structure CopiesLiterals (fits fits' : List Char → List Char → Prop)
    (step : Bool → List Char → List Char → Prop) : Prop where
  nil {flag : Bool} {out : List Char} : step flag [] out → out = []
  code {flag : Bool} {code tail out : List Char} : Plain code → EndsCode tail → step flag (code ++ tail) out →
    ∃ new flag' out', Plain new ∧ out = new ++ out' ∧ step flag' tail out'
  literal {flag : Bool} {literal after out : List Char} : Closes literal after → fits literal after →
    step flag (literal ++ after) out →
    ∃ flag' after', out = literal ++ after' ∧ step flag' after after' ∧ Closes literal after' ∧ fits' literal after'

theorem CopiesLiterals.cut {fits fits' : List Char → List Char → Prop}
    {step : Bool → List Char → List Char → Prop} (h : CopiesLiterals fits fits' step)
    (hcut : Cut fits text literals) (hstep : step flag text out) : Cut fits' out literals := by
  induction hcut generalizing flag out with
  | @code code hcode =>
    have hstep' : step flag (code ++ []) out := by rwa [append_nil]
    obtain ⟨new, _, out', hnew, rfl, hrest⟩ := h.code hcode (by simp [EndsCode]) hstep'
    rw [h.nil hrest, append_nil]
    exact .code hnew
  | literal hcode hcloses hfits _ ih =>
    obtain ⟨new, _, out', hnew, rfl, hrest⟩ := h.code hcode (ends_code_of_closes hcloses) hstep
    obtain ⟨_, after', rfl, hafter, hcloses', hfits'⟩ := h.literal hcloses hfits hrest
    exact .literal hnew hcloses' hfits' (ih hafter)

/-! ## Changes where lines start -/

theorem taken_of_code {taken rest : List Char} (htaken : Plain taken) (htail : EndsCode tail)
    (h : code ++ tail = taken ++ rest) : ∃ left, code = taken ++ left ∧ rest = left ++ tail := by
  rcases append_eq_append_iff.mp h with ⟨gap, rfl, rfl⟩ | ⟨gap, rfl, rfl⟩
  · cases gap with
    | nil => exact ⟨[], by simp, by simp⟩
    | cons d gap =>
      have hmark : opensLiteral d = true := htail
      rw [htaken d (by simp)] at hmark
      cases hmark
  · exact ⟨gap, rfl, rfl⟩

theorem drop_while_append_of_mem (hmem : c ∈ text) (hc : p c = false) (after : List Char) :
    (text ++ after).dropWhile p = text.dropWhile p ++ after ∧ c ∈ text.dropWhile p := by
  induction text with
  | nil => cases hmem
  | cons d rest ih =>
    by_cases hd : p d = true
    · have hne : c ≠ d := fun heq => by simp [heq, hd] at hc
      have hrest : c ∈ rest := (mem_cons.mp hmem).resolve_left hne
      simpa [hd] using ih hrest
    · simpa [hd] using hmem

theorem definition_head_append (h : definitionHead? text = none) (hmem : c ∈ text)
    (hmark : opensLiteral c = true) : definitionHead? (text ++ after) = none := by
  obtain ⟨hspace, _, hpart, hletter⟩ := class_of_opens_literal hmark
  cases text with
  | nil => cases hmem
  | cons d rest =>
    simp only [cons_append, definitionHead?] at h ⊢
    split
    · next hd =>
      have hne : c ≠ d := fun heq => by simp [← heq, hletter] at hd
      have hrest : c ∈ rest := (mem_cons.mp hmem).resolve_left hne
      obtain ⟨hname, hname'⟩ := drop_while_append_of_mem hrest hpart after
      obtain ⟨hspaces, hspaces'⟩ := drop_while_append_of_mem hname' hspace after
      rw [if_pos hd] at h
      rw [hname, hspaces]
      cases hleft : (rest.dropWhile isNamePart).dropWhile isSpace with
      | nil => simp [hleft] at hspaces'
      | cons e left =>
        rw [hleft] at h
        by_cases he : e = '='
        · simp [he] at h
        · simp only [cons_append]
          split
          · next heq => exact absurd (cons.inj heq).1 he
          · rfl
    · rfl

/-- `Sealed literal after` says that behind each line break in a literal a mark follows in it, unless nothing
follows the literal. -/
def Sealed (literal after : List Char) : Prop :=
  ∀ front back, literal = front ++ '\n' :: back → after = [] ∨ ∃ c ∈ back, opensLiteral c = true

theorem Sealed.rest (h : Sealed (c :: literal) after) : Sealed literal after :=
  fun front back heq => h (c :: front) back (by rw [heq]; rfl)

theorem line_of_steady (hsteady : steadyFrom true (c :: literal) = true)
    (hseal : after = [] ∨ ∃ d ∈ c :: literal, opensLiteral d = true) :
    definitionHead? (c :: literal ++ after) = none ∧ (trimStart (c :: literal ++ after)).head? ≠ some '|' := by
  simp only [steadyFrom, Bool.and_eq_true, Bool.not_eq_true', Bool.true_and, Bool.or_eq_false_iff,
    Option.isSome_eq_false_iff, Option.isNone_iff_eq_none, beq_eq_false_iff_ne] at hsteady
  obtain ⟨⟨⟨hhead, htrim⟩, _⟩, _⟩ := hsteady
  rcases hseal with rfl | ⟨d, hd, hmark⟩
  · rw [append_nil]
    exact ⟨hhead, htrim⟩
  · refine ⟨definition_head_append hhead hd hmark, ?_⟩
    obtain ⟨hdrop, hmem⟩ := drop_while_append_of_mem hd (class_of_opens_literal hmark).2.1 after
    simp only [trimStart] at htrim ⊢
    rw [hdrop]
    cases hleft : (c :: literal).dropWhile isBlank with
    | nil => simp [hleft] at hmem
    | cons e left => simpa [hleft] using htrim

theorem steady_from_mark (hmark : opensLiteral c = true) (rest : List Char) (flag : Bool) :
    steadyFrom flag (c :: rest) = steady (c :: rest) := by
  obtain ⟨_, hblank, _, hletter⟩ := class_of_opens_literal hmark
  have hbar : (c == '|') = false := ne_of_opens_literal hmark rfl
  simp [steady, steadyFrom, definitionHead?, trimStart, hblank, hletter, hbar]

theorem steady_from_closes (hcloses : Closes literal after) (flag : Bool) :
    steadyFrom flag literal = steady literal := by
  cases hcloses <;> exact steady_from_mark rfl _ flag

/-- `Relaid changes flag text out` says that a text stays as it is, except that something may change where a line
starts. The flag says whether a line starts here. -/
inductive Relaid (changes : List Char → List Char → List Char → Prop) : Bool → List Char → List Char → Prop where
  | nil {flag : Bool} : Relaid changes flag [] []
  | copy {flag : Bool} {c : Char} {rest out : List Char} (hrest : Relaid changes (c == '\n') rest out) :
      Relaid changes flag (c :: rest) (c :: out)
  | change {next : Bool} {taken new rest out : List Char} (hchange : changes taken new rest)
      (hrest : Relaid changes next rest out) : Relaid changes true (taken ++ rest) (new ++ out)

structure ChangesCode (changes : List Char → List Char → List Char → Prop) : Prop where
  taken {taken new rest : List Char} : changes taken new rest → Plain taken
  new {taken new rest : List Char} : changes taken new rest → Plain new
  line {taken new rest : List Char} : changes taken new rest →
    definitionHead? (taken ++ rest) ≠ none ∨ (trimStart (taken ++ rest)).head? = some '|'

namespace ChangesCode

variable {changes : List Char → List Char → List Char → Prop} (hchanges : ChangesCode changes)

include hchanges

theorem on_code (hcode : Plain code) (htail : EndsCode tail) (h : Relaid changes flag (code ++ tail) out) :
    ∃ new flag' out', Plain new ∧ out = new ++ out' ∧ Relaid changes flag' tail out' := by
  generalize htext : code ++ tail = text at h
  induction h generalizing code with
  | @nil flag =>
    obtain ⟨_, rfl⟩ := append_eq_nil_iff.mp htext
    exact ⟨[], flag, [], nofun, rfl, .nil⟩
  | @copy flag c rest out hrest ih =>
    cases code with
    | nil =>
      rw [nil_append] at htext
      exact ⟨[], flag, c :: out, nofun, rfl, htext ▸ .copy hrest⟩
    | cons d code =>
      obtain ⟨rfl, hrest'⟩ := cons.inj htext
      obtain ⟨hd, hcode'⟩ := plain_cons.mp hcode
      obtain ⟨new, flag', out', hnew, rfl, hnext⟩ := ih hcode' hrest'
      exact ⟨d :: new, flag', out', plain_cons.mpr ⟨hd, hnew⟩, rfl, hnext⟩
  | @change _ taken new rest out hchange hrest ih =>
    obtain ⟨left, rfl, hleft⟩ := taken_of_code (hchanges.taken hchange) htail htext
    obtain ⟨new', flag', out', hnew, rfl, hnext⟩ := ih (plain_append.mp hcode).2 hleft.symm
    exact ⟨new ++ new', flag', out', plain_append.mpr ⟨hchanges.new hchange, hnew⟩, by simp, hnext⟩

theorem on_literal (hsteady : steadyFrom flag literal = true) (hseal : Sealed literal after)
    (hline : flag = true → after = [] ∨ literal = [] ∨ ∃ c ∈ literal, opensLiteral c = true)
    (h : Relaid changes flag (literal ++ after) out) :
    ∃ flag' after', out = literal ++ after' ∧ Relaid changes flag' after after' := by
  induction literal generalizing flag out with
  | nil => exact ⟨flag, out, rfl, h⟩
  | cons c rest ih =>
    generalize htext : c :: rest ++ after = text at h
    cases h with
    | nil => cases htext
    | copy hrest =>
      obtain ⟨rfl, rfl⟩ := cons.inj htext
      simp only [steadyFrom, Bool.and_eq_true] at hsteady
      have hnext : (c == '\n') = true → after = [] ∨ rest = [] ∨ ∃ c ∈ rest, opensLiteral c = true := by
        intro hbreak
        obtain rfl : c = '\n' := by simpa using hbreak
        exact (hseal [] rest rfl).imp_right .inr
      obtain ⟨flag', after', rfl, hafter⟩ := ih hsteady.2 hseal.rest hnext hrest
      exact ⟨flag', after', rfl, hafter⟩
    | change hchange hrest =>
      obtain ⟨hhead, hbar⟩ := line_of_steady hsteady (by simpa using hline rfl)
      rw [htext] at hhead hbar
      exact ((hchanges.line hchange).elim (· hhead) hbar).elim

theorem copies {fits : List Char → List Char → Prop}
    (hfits : ∀ {literal after}, fits literal after → Firm literal after)
    (hkeeps : ∀ {flag literal after after'}, fits literal after → Relaid changes flag after after' →
      Segment.Keeps literal after after' ∧ (Firm literal after' → fits literal after')) :
    CopiesLiterals fits fits (Relaid changes) where
  nil := by
    intro flag out h
    generalize htext : [] = text at h
    cases h with
    | nil => rfl
    | copy => cases htext
    | change hchange =>
      have hline := hchanges.line hchange
      rw [← htext] at hline
      simp [definitionHead?, trimStart] at hline
  code hcode htail h := hchanges.on_code hcode htail h
  literal := by
    intro flag literal after out hcloses hfit h
    have hline : after = [] ∨ literal = [] ∨ ∃ c ∈ literal, opensLiteral c = true := by
      right; right
      cases hcloses <;> simp [opensLiteral]
    have hsteady : steadyFrom flag literal = true := by
      rw [steady_from_closes hcloses]
      exact (hfits hfit).1
    obtain ⟨flag', after', rfl, hafter⟩ :=
      hchanges.on_literal hsteady (fun _ _ heq => hcloses.mark_of_line_break heq) (fun _ => hline) h
    obtain ⟨hkeep, hfit'⟩ := hkeeps hfit hafter
    obtain ⟨hcloses', hfirm'⟩ := (hfits hfit).swap hcloses hkeep
    exact ⟨flag', after', rfl, hafter, hcloses', hfit' hfirm'⟩

end ChangesCode

/-! ## Equals signs -/

def colonsAt (atLineStart : Bool) (text : List Char) : List Char := colonsFrom text.length atLineStart text

theorem plain_take_while (hp : ∀ c, opensLiteral c = true → p c = false) (text : List Char) :
    Plain (text.takeWhile p) :=
  fun c hc => opens_no_literal (hp c) (of_mem_take_while hc)

theorem plain_spaces (text : List Char) : Plain (text.takeWhile isSpace) :=
  plain_take_while (fun _ hc => (class_of_opens_literal hc).1) text

theorem definition_head_takes {rest : List Char} (h : definitionHead? text = some (name, rest)) :
    ∃ before, text = before ++ '=' :: rest ∧ (∀ c ∈ before, opensLiteral c = false ∧ c ≠ '\n') ∧ Plain name ∧
      name.head? = before.head? ∧ before.head?.any startsName = true := by
  have hclass : ∀ d, startsName d = true ∨ isNamePart d = true ∨ isSpace d = true →
      opensLiteral d = false ∧ d ≠ '\n' := by
    intro d hd
    refine ⟨Bool.eq_false_iff.mpr fun hmark => ?_, ?_⟩
    · obtain ⟨hspace, _, hpart, hletter⟩ := class_of_opens_literal hmark
      simp [hspace, hpart, hletter] at hd
    · have hbreak : isNamePart '\n' = false := by decide
      rintro rfl
      rw [hbreak] at hd
      rcases hd with hd | hd | hd <;> cases hd
  cases text with
  | nil => cases h
  | cons c text =>
    simp only [definitionHead?] at h
    split at h
    · next hc =>
      split at h
      · next spaced hspaced =>
        cases h
        have hsplit := takeWhile_append_dropWhile (p := isNamePart) (l := text)
        have hsplit' := takeWhile_append_dropWhile (p := isSpace) (l := text.dropWhile isNamePart)
        rw [hspaced] at hsplit'
        rw [← hsplit'] at hsplit
        -- What is taken is a letter, the rest of the name, spaces and the equals sign.
        refine ⟨c :: (text.takeWhile isNamePart ++ (text.dropWhile isNamePart).takeWhile isSpace),
          by simp [hsplit], fun d hd => ?_, plain_cons.mpr ⟨(hclass c (.inl hc)).1, fun d hd => ?_⟩, rfl,
          hc⟩
        · simp only [mem_cons, mem_append] at hd
          rcases hd with rfl | hd | hd
          · exact hclass d (.inl hc)
          · exact hclass d (.inr (.inl (of_mem_take_while hd)))
          · exact hclass d (.inr (.inr (of_mem_take_while hd)))
        · have hmem := (dropWhile_sublist _).mem (mem_reverse.mp hd)
          exact (hclass d (.inr (.inl (of_mem_take_while (mem_reverse.mp hmem))))).1
      · cases h
    · cases h

theorem after_equals_skips (rest : List Char) : ∃ gap, rest = gap ++ (afterEquals rest).1 ∧ Plain gap := by
  have hsplit := takeWhile_append_dropWhile (p := isSpace) (l := rest)
  unfold afterEquals
  split
  · next line hline =>
    rw [hline] at hsplit
    refine ⟨rest.takeWhile isSpace ++ '\n' :: line.takeWhile isSpace, ?_, ?_⟩
    · simp only [append_assoc, cons_append, takeWhile_append_dropWhile]
      exact hsplit.symm
    · exact plain_append.mpr ⟨plain_spaces rest, plain_cons.mpr ⟨rfl, plain_spaces line⟩⟩
  · exact ⟨rest.takeWhile isSpace, hsplit.symm, plain_spaces rest⟩

theorem after_equals_shorter {rest : List Char} (h : definitionHead? (c :: text) = some (name, rest)) :
    (afterEquals rest).1.length ≤ text.length := by
  obtain ⟨before, hbefore, _⟩ := definition_head_takes h
  obtain ⟨gap, hgap, _⟩ := after_equals_skips rest
  have hsize := congrArg List.length hbefore
  have hsize' := congrArg List.length hgap
  simp only [length_append, length_cons] at hsize hsize'
  omega

theorem colons_from_fuel {fuel other : Nat} (hfuel : text.length ≤ fuel) (hother : text.length ≤ other) :
    colonsFrom fuel flag text = colonsFrom other flag text := by
  induction fuel generalizing other flag text with
  | zero =>
    obtain rfl := length_eq_zero_iff.mp (Nat.le_zero.mp hfuel)
    cases other <;> rfl
  | succ fuel ih =>
    cases text with
    | nil => cases other <;> rfl
    | cons c rest =>
      cases other with
      | zero => simp at hother
      | succ other =>
        simp only [length_cons, Nat.add_le_add_iff_right] at hfuel hother
        simp only [colonsFrom]
        split
        · next name after hhead =>
          have hhead' : definitionHead? (c :: rest) = some (name, after) := by
            cases flag with
            | true => simpa using hhead
            | false => cases hhead
          have hshorter := after_equals_shorter hhead'
          have hafter : colonsFrom fuel (afterEquals after).2 (afterEquals after).1 =
              colonsFrom other (afterEquals after).2 (afterEquals after).1 :=
            ih (Nat.le_trans hshorter hfuel) (Nat.le_trans hshorter hother)
          rw [hafter]
        · rw [ih hfuel hother]

theorem colons_at_defined {after : List Char} (h : definitionHead? text = some (name, after)) :
    colonsAt true text = (name ++ " : ".toList) ++ colonsAt (afterEquals after).2 (afterEquals after).1 := by
  cases text with
  | nil => cases h
  | cons c rest =>
    have hfuel : colonsFrom rest.length (afterEquals after).2 (afterEquals after).1 =
        colonsAt (afterEquals after).2 (afterEquals after).1 :=
      colons_from_fuel (after_equals_shorter h) (Nat.le_refl _)
    rw [← hfuel]
    simp only [colonsAt, length_cons, colonsFrom, if_true, h]

theorem colons_at_copy {rest : List Char} (h : flag = true → definitionHead? (c :: rest) = none) :
    colonsAt flag (c :: rest) = c :: colonsAt (c == '\n') rest := by
  have hnone : (if flag then definitionHead? (c :: rest) else none) = none := by
    split
    · next hflag => exact h hflag
    · rfl
  simp only [colonsAt, length_cons, colonsFrom, hnone]

def ChangesHead (taken new rest : List Char) : Prop :=
  (Plain taken ∧ Plain new) ∧ new.head? = taken.head? ∧ taken.head?.any startsName = true ∧
    (definitionHead? (taken ++ rest)).isSome = true

theorem relaid_colons (flag : Bool) (text : List Char) : Relaid ChangesHead flag text (colonsAt flag text) := by
  induction hsize : text.length using Nat.strongRecOn generalizing text flag with
  | _ size ih =>
    cases text with
    | nil => exact .nil
    | cons c rest =>
      by_cases hcopy : flag = true → definitionHead? (c :: rest) = none
      · rw [colons_at_copy hcopy]
        exact .copy (ih rest.length (by simp [← hsize]) _ rest rfl)
      · obtain ⟨rfl, hsome⟩ := Classical.not_imp.mp hcopy
        obtain ⟨⟨name, after⟩, hhead⟩ := Option.ne_none_iff_exists'.mp hsome
        obtain ⟨before, htext, hbefore, hname, hstart, hletter⟩ := definition_head_takes hhead
        obtain ⟨gap, hgap, hgapPlain⟩ := after_equals_skips after
        have hshorter : (afterEquals after).1.length < size := by
          rw [← hsize]
          exact Nat.lt_succ_of_le (after_equals_shorter hhead)
        have hsplit : c :: rest = (before ++ '=' :: gap) ++ (afterEquals after).1 := by
          rw [append_assoc, cons_append, ← hgap, htext]
        have htaken : Plain (before ++ '=' :: gap) :=
          plain_append.mpr ⟨fun d hd => (hbefore d hd).1, plain_cons.mpr ⟨rfl, hgapPlain⟩⟩
        have hfirst : (before ++ '=' :: gap).head? = before.head? := by
          cases before with
          | nil => cases hletter
          | cons d before => rfl
        rw [colons_at_defined hhead, hsplit]
        refine .change ⟨⟨htaken, plain_append.mpr ⟨hname, by simp [Plain, opensLiteral]⟩⟩, ?_, ?_, ?_⟩
          (ih _ hshorter _ _ rfl)
        · rw [hfirst, head?_append, hstart]
          cases before with
          | nil => cases hletter
          | cons d before => rfl
        · rw [hfirst]
          exact hletter
        · rw [← hsplit, hhead]
          rfl

theorem relaid_head (h : Relaid ChangesHead flag text out) : out.head? = text.head? := by
  cases h with
  | nil | copy => rfl
  | @change _ taken new _ _ hchange =>
    obtain ⟨_, hnew, hletter, _⟩ := hchange
    cases taken with
    | nil => cases hletter
    | cons c taken => simp [head?_append, hnew]

theorem not_blank_of_letter (h : startsName c = true) : isBlank c = false := by
  obtain ⟨hlow, hhigh⟩ := letter_bounds h
  show rangesContain ((0x9, 0xd) :: (0x20, 0x20) :: (0x85, 0x85) :: _) c.toNat = false
  rw [rangesContain, if_neg (by omega), if_neg (by omega), rangesContain, if_neg (by omega),
    if_neg (by omega), rangesContain, if_pos (by omega)]

theorem relaid_trimmed_head (h : Relaid ChangesHead flag text out) :
    (trimStart out).head? = (trimStart text).head? := by
  induction h with
  | nil => rfl
  | @copy _ c _ _ _ ih =>
    cases hblank : isBlank c with
    | true => simpa [trimStart, hblank] using ih
    | false => simp [trimStart, hblank]
  | @change _ taken new _ _ hchange =>
    obtain ⟨_, hnew, hletter, _⟩ := hchange
    cases taken with
    | nil => cases hletter
    | cons c taken =>
      obtain ⟨new', rfl⟩ : ∃ new', new = c :: new' := by simpa using head?_eq_some_iff.mp hnew
      simp [trimStart, not_blank_of_letter (by simpa using hletter : startsName c = true)]

theorem copies_colons : CopiesLiterals Clear Clear (Relaid ChangesHead) := by
  have hchanges : ChangesCode ChangesHead :=
    ⟨fun h => h.1.1, fun h => h.1.2, fun h => .inl (Option.isSome_iff_ne_none.mp h.2.2.2)⟩
  refine hchanges.copies (fun h => h.1) fun hclear h =>
    ⟨keeps_of_head (relaid_head h) _, fun hfirm => ⟨hfirm, fun hcomment => ?_⟩⟩
  simpa [leadsToComma, relaid_trimmed_head h] using hclear.2 hcomment

/-! ## Commas -/

/-- A piece of code with spaces in place of commas. The flag says that a comma has been left and the white
space after it goes. -/
def spacedCode : Bool → List Char → List Char
  | _, [] => []
  | skipping, c :: rest =>
    if c = ',' then (if leadsToComma rest then [] else [' ']) ++ spacedCode true rest
    else if isBlank c && (skipping || leadsToComma rest) then spacedCode skipping rest
    else c :: spacedCode false rest

theorem leads_to_comma_cons (c : Char) (rest : List Char) :
    leadsToComma (c :: rest) = if isBlank c then leadsToComma rest else c == ',' := by
  cases hc : isBlank c <;> simp [leadsToComma, trimStart, hc]

theorem leads_to_comma_append (htail : EndsCode tail) (code : List Char) :
    leadsToComma (code ++ tail) = leadsToComma code := by
  induction code with
  | nil =>
    cases tail with
    | nil => rfl
    | cons c rest =>
      have hmark : opensLiteral c = true := htail
      rw [nil_append, leads_to_comma_cons, (class_of_opens_literal hmark).2.1, ne_of_opens_literal hmark rfl]
      rfl
  | cons c rest ih => rw [cons_append, leads_to_comma_cons, leads_to_comma_cons, ih]

theorem foldl_step_written (code written : List Char) (skipping : Bool) :
    (code.foldl step ⟨written, skipping⟩).written = (spacedCode skipping code).reverse ++
        (if leadsToComma code then written.dropWhile isBlank else written) := by
  induction code generalizing written skipping with
  | nil => simp [spacedCode, leadsToComma, trimStart]
  | cons c rest ih =>
    have hcomma : isBlank ',' = false := by decide
    have hspace : isBlank ' ' = true := by decide
    rw [foldl_cons, leads_to_comma_cons]
    by_cases hc : c = ','
    · subst hc
      have hstep : step ⟨written, skipping⟩ ',' = ⟨' ' :: written.dropWhile isBlank, true⟩ := rfl
      have htwice : (written.dropWhile isBlank).dropWhile isBlank = written.dropWhile isBlank :=
        (take_while_append (by simp : ∀ c ∈ [], isBlank c = true) (head_drop_while _ _)).2
      rw [hstep, ih]
      cases hrest : leadsToComma rest <;>
        simp [spacedCode, hrest, hcomma, hspace, htwice]
    · cases hblank : isBlank c with
      | false =>
        have hstep : step ⟨written, skipping⟩ c = ⟨c :: written, false⟩ := by
          simp [step, hc, hblank]
        rw [hstep, ih]
        cases hrest : leadsToComma rest <;> simp [spacedCode, hc, hblank]
      | true =>
        cases skipping with
        | true =>
          have hstep : step ⟨written, true⟩ c = ⟨written, true⟩ := by
            simp [step, hc, hblank]
          rw [hstep, ih]
          simp [spacedCode, hc, hblank]
        | false =>
          have hstep : step ⟨written, false⟩ c = ⟨c :: written, false⟩ := by
            simp [step, hc]
          rw [hstep, ih]
          cases hrest : leadsToComma rest <;> simp [spacedCode, hc, hblank, hrest]

theorem plain_spaced_code (hcode : Plain code) (skipping : Bool) : Plain (spacedCode skipping code) := by
  induction code generalizing skipping with
  | nil => exact hcode
  | cons c rest ih =>
    obtain ⟨hc, hrest⟩ := plain_cons.mp hcode
    unfold spacedCode
    split
    · refine plain_append.mpr ⟨?_, ih hrest true⟩
      split <;> simp [Plain, opensLiteral]
    · split
      · exact ih hrest skipping
      · exact plain_cons.mpr ⟨hc, ih hrest false⟩

theorem spaced_code_head_comma (h : leadsToComma code = true) (skipping : Bool) :
    (spacedCode skipping code).head? = some ' ' := by
  induction code generalizing skipping with
  | nil => cases h
  | cons c rest ih =>
    unfold spacedCode
    by_cases hc : c = ','
    · rw [if_pos hc]
      cases hrest : leadsToComma rest with
      | true => simpa using ih hrest true
      | false => rfl
    · rw [leads_to_comma_cons] at h
      cases hblank : isBlank c with
      | false => simp [hblank, hc] at h
      | true =>
        have hrest : leadsToComma rest = true := by simpa [hblank] using h
        simpa [hc, hrest] using ih hrest skipping

theorem spaced_code_head (h : leadsToComma code = false) : (spacedCode false code).head? = code.head? := by
  cases code with
  | nil => rfl
  | cons c rest =>
    rw [leads_to_comma_cons] at h
    unfold spacedCode
    by_cases hc : c = ','
    · subst hc
      have hcomma : isBlank ',' = false := by decide
      simp [hcomma] at h
    · cases hblank : isBlank c with
      | false => simp [hc]
      | true =>
        have hrest : leadsToComma rest = false := by simpa [hblank] using h
        simp [hc, hrest]

theorem drop_blanks_of_closes (hcloses : Closes literal after) (hclear : Clear literal after)
    (hcomma : leadsToComma after = true) (written : List Char) :
    (literal.reverse ++ written).dropWhile isBlank = literal.reverse ++ written := by
  rcases hcloses.ends with rfl | hcomment | ⟨front, mark, flags, rfl, hmark, hflags⟩
  · cases hcomma
  · rw [hclear.2 hcomment] at hcomma
    cases hcomma
  · have hlast : (flags.reverse ++ mark :: (front.reverse ++ written)).head?.any isBlank = false := by
      cases hrev : flags.reverse with
      | nil => simpa using (class_of_opens_literal hmark).2.1
      | cons c rest =>
        have hflag := hflags c (mem_reverse.mp (by simp [hrev]))
        have hblank : isBlank c = false := by
          simp only [isPatternFlag, Bool.or_eq_true, beq_iff_eq] at hflag
          rcases hflag with (((rfl | rfl) | rfl) | rfl) | rfl <;> decide
        simpa using hblank
    have hdrop := (take_while_append (by simp : ∀ c ∈ [], isBlank c = true) hlast).2
    simpa using hdrop

theorem foldl_segment_written (hcut : Cut Clear text literals) (written : List Char)
    (hwritten : leadsToComma text = true → written.dropWhile isBlank = written) :
    ((segments text).foldl segment ⟨written, false⟩).written =
      (mapCode (spacedCode false) text).reverse ++ written := by
  -- One piece of code, which the white space before it does not concern.
  have hpiece : ∀ code written : List Char, (leadsToComma code = true → written.dropWhile isBlank = written) →
      ((codeBefore code.reverse).foldl segment ⟨written, false⟩).written =
        (if code.isEmpty then [] else spacedCode false code).reverse ++ written := by
    intro code written hwritten
    cases code with
    | nil => rfl
    | cons c rest =>
      have hstep := foldl_step_written (c :: rest) written false
      have hleft : (if leadsToComma (c :: rest) then written.dropWhile isBlank else written) = written := by
        split
        · next h => exact hwritten h
        · rfl
      rw [hleft] at hstep
      simpa [codeBefore, CommaState.segment] using hstep
  induction hcut generalizing written with
  | code hcode =>
    rw [segments_of_plain hcode, map_code_of_plain _ hcode]
    exact hpiece _ written hwritten
  | @literal code literal after literals hcode hcloses hclear hafter ih =>
    have hcomma := leads_to_comma_append (ends_code_of_closes hcloses) code
    rw [hcomma] at hwritten
    rw [segments_of_literal hcode hcloses, map_code_of_literal _ hcode hcloses,
      map_code_of_plain _ hcode, foldl_append, foldl_cons]
    have hliteral : ∀ state : CommaState,
        state.segment ⟨true, literal⟩ = ⟨literal.reverse ++ state.written, false⟩ := fun _ => rfl
    rw [hliteral, hpiece code written hwritten, ih _ fun h => drop_blanks_of_closes hcloses hclear h _]
    simp

theorem spaced_items_eq_map_code (hcut : Cut Clear text literals) :
    spacedItems text = mapCode (spacedCode false) text := by
  have hwritten := foldl_segment_written hcut [] fun _ => rfl
  rw [append_nil] at hwritten
  show ((segments text).foldl segment ⟨[], false⟩).written.reverse = _
  rw [hwritten, reverse_reverse]

/-! ## Changes of code alone -/

theorem keeps_append (h : Segment.Keeps literal code after) (hcode : code ≠ []) (htail : EndsCode tail)
    (text : List Char) : Segment.Keeps literal (code ++ text) (after ++ tail) := by
  cases code with
  | nil => exact absurd rfl hcode
  | cons c rest =>
    refine ⟨fun hnil => by simp at hnil, fun hcomment hbreak => ?_, fun hpattern hword => ?_⟩
    · have hhead := h.lineBreak hcomment hbreak
      simp [head?_append, hhead]
    · have hhead := h.noWord hpattern hword
      cases after with
      | cons d rest => exact hhead
      | nil =>
        cases tail with
        | nil => rfl
        | cons d rest =>
          have hmark : opensLiteral d = true := htail
          cases hd : isWordChar d with
          | false => simpa using hd
          | true =>
            rw [opens_literal_of_word hd] at hmark
            cases hmark

theorem cut_map_code {fits : List Char → List Char → Prop} {f : List Char → List Char}
    (hplain : ∀ code, Plain code → Plain (f code))
    (hfirm : ∀ literal after, fits literal after → Firm literal after)
    (hkeeps : ∀ literal code tail, fits literal (code ++ tail) → EndsCode tail → Segment.Keeps literal code (f code))
    (hcut : Cut fits text literals) : Cut Firm (mapCode f text) literals := by
  have hpiece : ∀ code, Plain code → Plain (mapCode f code) := by
    intro code hcode
    rw [map_code_of_plain f hcode]
    split
    · simp [Plain]
    · exact hplain code hcode
  induction hcut with
  | code hcode => exact .code (hpiece _ hcode)
  | @literal code literal after literals hcode hcloses hfits hafter ih =>
    rw [map_code_of_literal f hcode hcloses]
    have hnext : Segment.Keeps literal after (mapCode f after) := by
      cases hafter with
      | code hcode' =>
        rw [map_code_of_plain f hcode']
        split
        · next hempty => exact keeps_of_head (by simp [isEmpty_iff.mp hempty]) literal
        · exact hkeeps _ _ [] (by rwa [append_nil]) (by simp [EndsCode])
      | @literal code' literal' after' _ hcode' hcloses' _ _ =>
        rw [map_code_of_literal f hcode' hcloses', map_code_of_plain f hcode']
        split
        · next hempty =>
          rw [isEmpty_iff.mp hempty]
          apply keeps_of_head
          cases hcloses' <;> rfl
        · next hempty =>
          have hkept := hkeeps literal code' _ hfits (ends_code_of_closes hcloses')
          refine keeps_append hkept (by simpa using hempty) ?_ _
          cases hcloses' <;> simp [EndsCode, opensLiteral]
    obtain ⟨hcloses', hfirm'⟩ := (hfirm _ _ hfits).swap hcloses hnext
    exact .literal (hpiece _ hcode) hcloses' hfirm' ih

theorem cut_spaced_items (hcut : Cut Clear text literals) : Cut Firm (spacedItems text) literals := by
  rw [spaced_items_eq_map_code hcut]
  refine cut_map_code (fun code hcode => plain_spaced_code hcode false) (fun _ _ h => h.1) ?_ hcut
  intro literal code tail hclear htail
  have happend := leads_to_comma_append htail code
  cases hcomma : leadsToComma code with
  | false => exact keeps_of_head (spaced_code_head hcomma) literal
  | true =>
    have hhead := spaced_code_head_comma hcomma false
    refine ⟨fun hnil => by simp [hnil, leadsToComma, trimStart] at hcomma, fun hcomment => ?_, fun _ _ => ?_⟩
    · have hno := hclear.2 hcomment
      rw [happend, hcomma] at hno
      cases hno
    · rw [hhead]
      decide

theorem plain_starred (hcode : Plain code) : Plain (starred code) := by
  fun_induction starred code with
  | case1 => exact hcode
  | case2 rest ih =>
    have hrest : Plain rest := (plain_cons.mp (plain_cons.mp hcode).2).2
    exact plain_cons.mpr ⟨rfl, plain_cons.mpr ⟨rfl, ih hrest⟩⟩
  | case3 rest _ ih =>
    exact plain_cons.mpr ⟨rfl, plain_cons.mpr ⟨rfl, ih (plain_cons.mp hcode).2⟩⟩
  | case4 rest ih => exact plain_cons.mpr ⟨rfl, ih (plain_cons.mp hcode).2⟩
  | case5 c rest _ _ _ ih =>
    obtain ⟨hc, hrest⟩ := plain_cons.mp hcode
    exact plain_cons.mpr ⟨hc, ih hrest⟩

theorem cut_starred (hcut : Cut Firm text literals) : Cut Firm (mapCode starred text) literals := by
  refine cut_map_code (fun code hcode => plain_starred hcode) (fun _ _ h => h) ?_ hcut
  intro literal code tail _ _
  have hopen : isWordChar '(' = false := by decide
  have hclose : isWordChar ')' = false := by decide
  fun_cases starred code with
  | case1 => exact keeps_of_head rfl literal
  | case2 | case3 => exact ⟨by simp, by simp, fun _ _ => hclose⟩
  | case4 rest => exact ⟨by simp, by simp, fun _ _ => hopen⟩
  | case5 c rest =>
    apply keeps_of_head
    rfl

/-! ## Semicolons -/

theorem ends_line_append (h : endsLine text = false) (after : List Char) :
    endsLine (text ++ after) = false ∧ breaksLine (text ++ after) = false := by
  simp only [endsLine] at h
  cases hrest : text.dropWhile isSpace with
  | nil => simp [hrest] at h
  | cons c rest =>
    have hdrop : (text ++ after).dropWhile isSpace = c :: (rest ++ after) := by
      rw [dropWhile_append, hrest]
      rfl
    rw [hrest] at h
    simp only [endsLine, breaksLine, hdrop]
    simp_all

theorem goes_on_of_steady (hsteady : steadyFrom flag (c :: literal) = true) (after : List Char) :
    (c == ';' && endsLine (literal ++ after)) = false ∧
      (c == '|' && breaksLine (literal ++ after)) = false ∧ steadyFrom (c == '\n') literal = true := by
  simp only [steadyFrom, Bool.and_eq_true, Bool.not_eq_true', Bool.and_eq_false_iff] at hsteady
  obtain ⟨⟨_, hends⟩, hrest⟩ := hsteady
  rcases hends with hc | hends
  · simp only [Bool.or_eq_false_iff] at hc
    simp [hc.1, hc.2, hrest]
  · obtain ⟨hno, hno'⟩ := ends_line_append hends after
    simp [hno, hno', hrest]

/-- `Skims mark ends skips put step` says that a step puts something in place of each mark at the end of a line
and leaves out what is to be skipped after it. The flag says that such a mark has just been met. -/
structure Skims (mark : Char) (ends : List Char → Bool) (skips : Char → Bool) (put : List Char)
    (step : Bool → List Char → List Char) : Prop where
  nil : ∀ flag, step flag [] = []
  cons : ∀ flag c rest, step flag (c :: rest) =
    if flag && skips c then step true rest
    else if c == mark && ends rest then put ++ step true rest
    else c :: step false rest
  skips_mark : ∀ c, opensLiteral c = true → skips c = false
  plain : Plain put
  steady : ∀ {flag c literal}, steadyFrom flag (c :: literal) = true → ∀ after, (c == mark && ends (literal ++ after)) = false

theorem skims_terminators : Skims ';' endsLine isSpace [] dropTerminatorsFrom :=
  ⟨fun _ => rfl, fun _ _ _ => rfl, fun _ hc => (class_of_opens_literal hc).1, nofun,
    fun hsteady after => (goes_on_of_steady hsteady after).1⟩

theorem skims_alternatives : Skims '|' breaksLine isBlank ['|', ' '] joinAlternativesFrom :=
  ⟨fun _ => rfl, fun _ _ _ => rfl, fun _ hc => (class_of_opens_literal hc).2.1, by simp [Plain, opensLiteral],
    fun hsteady after => (goes_on_of_steady hsteady after).2.1⟩

namespace Skims

variable {mark : Char} {ends : List Char → Bool} {skips : Char → Bool} {put : List Char}
  {step : Bool → List Char → List Char} (h : Skims mark ends skips put step)

include h

theorem at_tail (htail : EndsCode tail) (flag : Bool) : step flag tail = step false tail := by
  cases tail with
  | nil => rw [h.nil, h.nil]
  | cons c rest =>
    have hmark : opensLiteral c = true := htail
    rw [h.cons, h.cons, h.skips_mark c hmark, Bool.and_false, Bool.and_false]

theorem on_literal (hsteady : steadyFrom flag literal = true) (after : List Char) :
    step false (literal ++ after) = literal ++ step false after := by
  induction literal generalizing flag with
  | nil => rfl
  | cons c rest ih =>
    have hrest := ih (goes_on_of_steady hsteady after).2.2
    simp [h.cons, h.steady hsteady after, hrest]

theorem copy (hmark : mark ∉ text) (after : List Char) : step false (text ++ after) = text ++ step false after := by
  induction text with
  | nil => rfl
  | cons c text ih =>
    rw [mem_cons, not_or] at hmark
    have hc : (c == mark) = false := by simpa using Ne.symm hmark.1
    simp [h.cons, hc, ih hmark.2]

theorem on_code (hcode : Plain code) (htail : EndsCode tail) (flag : Bool) :
    ∃ new, Plain new ∧ step flag (code ++ tail) = new ++ step false tail := by
  induction code generalizing flag with
  | nil => exact ⟨[], by simp [Plain], h.at_tail htail flag⟩
  | cons c rest ih =>
    obtain ⟨hc, hrest⟩ := plain_cons.mp hcode
    rw [cons_append, h.cons]
    split
    · exact ih hrest true
    · split
      · obtain ⟨new, hnew, heq⟩ := ih hrest true
        exact ⟨put ++ new, plain_append.mpr ⟨h.plain, hnew⟩, by rw [heq, append_assoc]⟩
      · obtain ⟨new, hnew, heq⟩ := ih hrest false
        exact ⟨c :: new, plain_cons.mpr ⟨hc, hnew⟩, by rw [heq]; rfl⟩

theorem copies (hkeeps : ∀ literal after, Segment.Keeps literal after (step false after)) :
    CopiesLiterals Firm Firm fun flag text out => step flag text = out where
  nil hout := hout ▸ h.nil _
  code hcode htail hout := by
    obtain ⟨new, hnew, heq⟩ := h.on_code hcode htail _
    exact ⟨new, false, _, hnew, by rw [← hout, heq], rfl⟩
  literal := by
    intro flag literal after out hcloses hfirm hout
    obtain ⟨hcloses', hfirm'⟩ := hfirm.swap hcloses (hkeeps literal after)
    refine ⟨false, _, ?_, rfl, hcloses', hfirm'⟩
    rw [← hout, h.at_tail (ends_code_of_closes hcloses), h.on_literal hfirm.1]

end Skims

theorem drop_terminators_head (h : endsLine text = true) :
    (dropTerminatorsFrom true text).head?.any isWordChar = false := by
  induction text with
  | nil => rfl
  | cons c rest ih =>
    cases hc : isSpace c with
    | true =>
      have hrest : endsLine rest = true := by simpa [endsLine, hc] using h
      simpa [dropTerminatorsFrom, hc] using ih hrest
    | false =>
      obtain rfl : c = '\n' := by simpa [endsLine, hc] using h
      show isWordChar '\n' = false
      decide

theorem copies_drop_terminators :
    CopiesLiterals Firm Firm fun flag text out => dropTerminatorsFrom flag text = out := by
  refine skims_terminators.copies fun literal after => ?_
  cases after with
  | nil => exact keeps_of_head rfl literal
  | cons c rest =>
    by_cases hc : (c == ';' && endsLine rest) = true
    · -- The semicolon goes, and the line ends where it was.
      obtain ⟨hsemicolon, hends⟩ := Bool.and_eq_true_iff.mp hc
      have hout : dropTerminatorsFrom false (c :: rest) = dropTerminatorsFrom true rest := by
        simp [dropTerminatorsFrom, hc]
      rw [hout]
      refine ⟨by simp, fun _ hbreak => ?_, fun _ _ => drop_terminators_head hends⟩
      obtain rfl : c = '\n' := by simpa using hbreak
      cases hsemicolon
    · apply keeps_of_head
      simp [dropTerminatorsFrom, hc]

theorem join_alternatives_head (text : List Char) : (joinAlternativesFrom false text).head? = text.head? := by
  cases text with
  | nil => rfl
  | cons c rest =>
    simp only [joinAlternativesFrom, Bool.false_and, Bool.false_eq_true, if_false]
    split
    · next hc =>
      have hbar := (Bool.and_eq_true_iff.mp hc).1
      simp [beq_iff_eq.mp hbar]
    · rfl

theorem copies_join_alternatives : CopiesLiterals Firm Firm fun flag text out => joinAlternativesFrom flag text = out :=
  skims_alternatives.copies fun literal after => keeps_of_head (join_alternatives_head after) literal

/-! ## Continuation lines -/

def MovesBar (taken new _rest : List Char) : Prop :=
  ∃ blanks column, (∀ c ∈ blanks, isBlank c = true ∧ c ≠ '\n') ∧ taken = blanks ++ ['|'] ∧
    new = replicate column ' ' ++ ['|']

theorem realigned_line (hmore : ∀ flag, Relaid MovesBar flag more more') (line : List Char) (flag : Bool) :
    Relaid MovesBar flag (line ++ more) (line ++ more') := by
  induction line generalizing flag with
  | nil => exact hmore flag
  | cons c rest ih => exact .copy (ih (c == '\n'))

theorem realigned_continuation {line : List Char} (hline : '\n' ∉ line)
    (hbar : (trimStart line).head? = some '|') (hmore : ∀ flag, Relaid MovesBar flag more more') (column : Nat) :
    Relaid MovesBar true (line ++ more) (replicate column ' ' ++ trimStart line ++ more') := by
  have hsplit := takeWhile_append_dropWhile (p := isBlank) (l := line)
  have hblanks : ∀ c ∈ line.takeWhile isBlank, isBlank c = true ∧ c ≠ '\n' := by
    intro c hc
    refine ⟨of_mem_take_while hc, ?_⟩
    rintro rfl
    exact hline ((takeWhile_sublist _).mem hc)
  cases htrim : trimStart line with
  | nil => simp [htrim] at hbar
  | cons c left =>
    obtain rfl : c = '|' := by simpa [htrim] using hbar
    simp only [trimStart] at htrim
    rw [htrim] at hsplit
    have hrest := realigned_line hmore left false
    rw [← hsplit]
    simpa using Relaid.change ⟨_, column, hblanks, rfl, rfl⟩ hrest

theorem realigned_after (lines : List (List Char)) (hlines : ∀ line ∈ lines, '\n' ∉ line)
    (before : List Char) (flag : Bool) :
    Relaid MovesBar flag (lines.flatMap ('\n' :: ·)) ((alignAfter before lines).flatMap ('\n' :: ·)) := by
  induction lines generalizing before flag with
  | nil => exact .nil
  | cons line rest ih =>
    have hnext := fun before => ih (fun l hl => hlines l (by simp [hl])) before
    simp only [alignAfter, flatMap_cons, cons_append]
    refine .copy ?_
    split
    · next hbar => exact realigned_continuation (hlines line (by simp)) hbar (hnext _) _
    · exact realigned_line (hnext line) line true

theorem realigned_align (text : List Char) : Relaid MovesBar false text (alignContinuations text) := by
  obtain ⟨first, rest, hsplit, htext, hlines⟩ := split_where_mark '\n' text
  have halign : alignContinuations text = first ++ (alignAfter first rest).flatMap ('\n' :: ·) := by
    simp only [alignContinuations, hsplit]
    exact intercalate_marks '\n' first _
  rw [halign, htext]
  exact realigned_line (realigned_after rest (fun l hl => hlines l (by simp [hl])) first) first false

theorem copies_realigned : CopiesLiterals Firm Firm (Relaid MovesBar) := by
  have hchanges : ChangesCode MovesBar := by
    refine ⟨?_, ?_, ?_⟩ <;> rintro _ _ rest ⟨blanks, column, hblanks, rfl, rfl⟩
    · refine plain_append.mpr ⟨fun c hc => ?_, by simp [Plain, opensLiteral]⟩
      exact opens_no_literal (fun hmark => (class_of_opens_literal hmark).2.1) (hblanks c hc).1
    · refine plain_append.mpr ⟨fun c hc => ?_, by simp [Plain, opensLiteral]⟩
      rw [(mem_replicate.mp hc).2]
      rfl
    · have hbar : isBlank '|' = false := by decide
      rw [trimStart, append_assoc, dropWhile_append_of_pos fun c hc => (hblanks c hc).1]
      simp [hbar]
  refine hchanges.copies (fun h => h) fun {flag literal after after'} _ h => ⟨?_, fun h => h⟩
  cases h with
  | nil | copy =>
    apply keeps_of_head
    rfl
  | change hchange =>
    obtain ⟨blanks, column, hblanks, rfl, rfl⟩ := hchange
    refine ⟨by simp, fun _ hbreak => ?_, fun _ _ => ?_⟩
    · cases blanks with
      | nil => cases hbreak
      | cons c blanks =>
        have hc : c = '\n' := by simpa using hbreak
        exact absurd hc (hblanks c (by simp)).2
    · have hspace : isWordChar ' ' = false := by decide
      have hbar : isWordChar '|' = false := by decide
      cases column with
      | zero => exact hbar
      | succ column => exact hspace

end FlightProcedure.Ebnf
