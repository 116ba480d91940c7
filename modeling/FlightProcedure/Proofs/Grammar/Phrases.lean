import FlightProcedure.Grammar.Reader
import FlightProcedure.Proofs.Outcome
import FlightProcedure.Proofs.Text.Cutting

/-!
# How bodies are written

`Phrase` says which tokens write a body: a group may stand in parentheses wherever an item may stand, and
an option in brackets or before a question mark. `TextOf` says which texts write tokens: each token in one
of its spellings, with white space around it where it would run into the next one. Reading undoes both
(`Phrase.of_tokens`, `TextOf.tokens_eq`).
-/

namespace FlightProcedure

open List Body

inductive Quantifier where
  | star
  | plus
  | question
  | times (count : Nat)
  | between (least most : Nat)

namespace Quantifier

def apply (body : Body) : Quantifier → Body
  | .star => .rep body 0 none
  | .plus => .rep body 1 none
  | .question => .optional body
  | .times count => .rep body count (some count)
  | .between least most => .rep body least (some most)

def tokens : Quantifier → List BodyToken
  | .star => [.star]
  | .plus => [.plus]
  | .question => [.question]
  | .times count => [.tilde, .number count]
  | .between least most => [.tilde, .number least, .range, .number most]

end Quantifier

inductive Level where
  | atom
  | item
  | row
  | choice

/-- `Phrase level bodies tokens` says that the tokens write the bodies: one atom, one item with its
quantifiers, the items of a row, or the alternatives of a choice. -/
inductive Phrase : Level → List Body → List BodyToken → Prop where
  | symbol (name : String) : Phrase .atom [.symbol name] [.name name]
  | literal (text : String) : Phrase .atom [.literal text] [.literal text]
  | pattern (regex flags : String) : Phrase .atom [.pattern regex flags] [.pattern regex flags]
  | group {bodies : List Body} {tokens : List BodyToken} (h : Phrase .choice bodies tokens) :
      Phrase .atom [.ofAlternatives bodies] (.openGroup :: (tokens ++ [.closeGroup]))
  | option {bodies : List Body} {tokens : List BodyToken} (h : Phrase .choice bodies tokens) :
      Phrase .atom [.optional (.ofAlternatives bodies)] (.openOptional :: (tokens ++ [.closeOptional]))
  | quantified {body : Body} {tokens : List BodyToken} (h : Phrase .atom [body] tokens)
      (quantifiers : List Quantifier) :
      Phrase .item [quantifiers.foldl Quantifier.apply body] (tokens ++ quantifiers.flatMap Quantifier.tokens)
  | last {body : Body} {tokens : List BodyToken} (h : Phrase .item [body] tokens) : Phrase .row [body] tokens
  | next {body : Body} {bodies : List Body} {tokens more : List BodyToken} (h : Phrase .item [body] tokens)
      (hmore : Phrase .row bodies more) : Phrase .row (body :: bodies) (tokens ++ more)
  | one {bodies : List Body} {tokens : List BodyToken} (h : Phrase .row bodies tokens) :
      Phrase .choice [.ofItems bodies] tokens
  | or {bodies others : List Body} {tokens more : List BodyToken} (h : Phrase .row bodies tokens)
      (hmore : Phrase .choice others more) : Phrase .choice (.ofItems bodies :: others) (tokens ++ .pipe :: more)

def startsItem : List BodyToken → Bool
  | .name _ :: _ | .literal _ :: _ | .pattern _ _ :: _ | .openGroup :: _ | .openOptional :: _ => true
  | _ => false

def startsQuantifier : List BodyToken → Bool
  | .star :: _ | .plus :: _ | .question :: _ | .tilde :: _ | .range :: _ => true
  | _ => false

def startsPipe : List BodyToken → Bool
  | .pipe :: _ => true
  | _ => false

section

variable {fuel : Nat} {item : Body} {tokens after : List BodyToken}

theorem no_quantifier_of_item (h : startsItem tokens = true) : startsQuantifier tokens = false := by
  cases tokens with
  | nil => rfl
  | cons token tokens => cases token <;> first | rfl | cases h

theorem starts_item_append (h : startsItem tokens = true) : startsItem (tokens ++ after) = true := by
  cases tokens with
  | nil => cases h
  | cons token tokens => cases token <;> first | rfl | cases h

theorem read_no_quantifier (h : startsQuantifier after = false) (fuel : Nat) (item : Body) :
    readQuantifiers fuel item after = .ok (item, after) := by
  cases fuel with
  | zero => rfl
  | succ fuel =>
    cases after with
    | nil => rfl
    | cons token after => cases token <;> first | rfl | cases h

theorem read_quantifiers_eq (quantifiers : List Quantifier) (hafter : startsQuantifier after = false)
    (hfuel : (quantifiers.flatMap Quantifier.tokens).length ≤ fuel) :
    readQuantifiers fuel item (quantifiers.flatMap Quantifier.tokens ++ after) =
      .ok (quantifiers.foldl Quantifier.apply item, after) := by
  induction quantifiers generalizing fuel item with
  | nil => exact read_no_quantifier hafter fuel item
  | cons quantifier rest ih =>
    rw [flatMap_cons, length_append] at hfuel
    rw [flatMap_cons, append_assoc, foldl_cons]
    obtain ⟨fuel, rfl⟩ : ∃ less, fuel = less + 1 := by
      cases quantifier <;> exact ⟨fuel - 1, by simp only [Quantifier.tokens, length_cons] at hfuel; omega⟩
    have hrest : (rest.flatMap Quantifier.tokens).length ≤ fuel := by
      cases quantifier <;> simp only [Quantifier.tokens, length_cons, length_nil] at hfuel <;> omega
    cases quantifier with
    | star | plus | question | between => exact ih hrest
    | times count =>
      -- No range mark follows the count.
      have hrange : ∀ more, rest.flatMap Quantifier.tokens ++ after ≠ .range :: more := by
        intro more heq
        cases rest with
        | nil =>
          rw [flatMap_nil, nil_append] at heq
          rw [heq] at hafter
          cases hafter
        | cons other rest => cases other <;> cases heq
      show readQuantifiers (fuel + 1) item (.tilde :: .number count :: _) = _
      rw [← ih hrest, readQuantifiers]
      simp only [readCount, ok_bind]
      split
      · next heq => exact absurd heq (hrange _)
      · rfl

theorem read_no_items (h : startsItem after = false) (fuel : Nat) : readItems fuel after = .ok ([], after) := by
  cases fuel with
  | zero => rfl
  | succ fuel =>
    have hatom : readAtom fuel after = .ok none := by
      cases fuel with
      | zero => rfl
      | succ fuel =>
        cases after with
        | nil => rfl
        | cons token after => cases token <;> first | rfl | cases h
    rw [readItems, hatom]
    rfl

end

/-- How a phrase is read, whatever follows that does not belong to it. -/
def Level.Reads : Level → List Body → List BodyToken → Prop
  | .atom, bodies, tokens => ∀ fuel after, 3 * tokens.length ≤ fuel + 2 →
      ∃ body, bodies = [body] ∧ readAtom fuel (tokens ++ after) = .ok (some (body, after))
  | .item, bodies, tokens => ∀ fuel after, startsQuantifier after = false → 3 * tokens.length ≤ fuel + 2 →
      ∃ body atom rest, bodies = [body] ∧ readAtom fuel (tokens ++ after) = .ok (some (atom, rest)) ∧
        readQuantifiers rest.length atom rest = .ok (body, after)
  | .row, bodies, tokens => ∀ fuel after, startsItem after = false → startsQuantifier after = false →
      3 * tokens.length ≤ fuel + 1 → readItems fuel (tokens ++ after) = .ok (bodies, after)
  | .choice, bodies, tokens => ∀ fuel after, startsItem after = false → startsQuantifier after = false →
      startsPipe after = false → 3 * tokens.length ≤ fuel →
        readAlternatives fuel (tokens ++ after) = .ok (bodies, after)

namespace Phrase

variable {level : Level} {bodies : List Body} {tokens : List BodyToken}

theorem starts (h : Phrase level bodies tokens) : startsItem tokens = true := by
  induction h with
  | symbol | literal | pattern | group | option => rfl
  | last _ ih | one _ ih => exact ih
  | quantified _ _ ih | next _ _ ih _ | or _ _ ih _ => exact starts_item_append ih

theorem length_pos (h : Phrase level bodies tokens) : 0 < tokens.length := by
  have hstarts := h.starts
  cases tokens with
  | nil => cases hstarts
  | cons => exact Nat.succ_pos _

theorem bodies_ne_nil (h : Phrase .row bodies tokens) : bodies.isEmpty = false := by
  cases h <;> rfl

/-- Reading a phrase undoes writing it. -/
theorem reads (h : Phrase level bodies tokens) : level.Reads bodies tokens := by
  induction h with
  | symbol | literal | pattern =>
    intro fuel after hfuel
    obtain ⟨fuel, rfl⟩ : ∃ less, fuel = less + 1 := ⟨fuel - 1, by simp at hfuel; omega⟩
    exact ⟨_, rfl, rfl⟩
  | group _ ih | option _ ih =>
    intro fuel after hfuel
    simp only [length_cons, length_append, length_nil] at hfuel
    obtain ⟨fuel, rfl⟩ : ∃ less, fuel = less + 1 := ⟨fuel - 1, by omega⟩
    refine ⟨_, rfl, ?_⟩
    rw [cons_append, append_assoc, singleton_append, readAtom, ih fuel (_ :: after) rfl rfl rfl (by omega)]
    rfl
  | @quantified body tokens h quantifiers ih =>
    intro fuel after hafter hfuel
    rw [length_append] at hfuel
    obtain ⟨atom, hatom, hread⟩ := ih fuel (quantifiers.flatMap Quantifier.tokens ++ after) (by omega)
    cases hatom
    rw [append_assoc]
    exact ⟨_, body, _, rfl, hread, read_quantifiers_eq quantifiers hafter (by simp)⟩
  | @last body tokens h ih =>
    intro fuel after hitem hafter hfuel
    have hpos := h.length_pos
    obtain ⟨fuel, rfl⟩ : ∃ less, fuel = less + 1 := ⟨fuel - 1, by omega⟩
    obtain ⟨_, atom, rest, hbody, hatom, hquantifiers⟩ := ih fuel after hafter (by omega)
    cases hbody
    rw [readItems, hatom]
    simp only [ok_bind, hquantifiers, read_no_items hitem]
  | @next body bodies tokens more h hmore ih ihmore =>
    intro fuel after hitem hafter hfuel
    have hpos := h.length_pos
    rw [length_append] at hfuel
    obtain ⟨fuel, rfl⟩ : ∃ less, fuel = less + 1 := ⟨fuel - 1, by omega⟩
    have hnext : startsQuantifier (more ++ after) = false := no_quantifier_of_item (starts_item_append hmore.starts)
    obtain ⟨_, atom, rest, hbody, hatom, hquantifiers⟩ := ih fuel (more ++ after) hnext (by omega)
    cases hbody
    rw [append_assoc, readItems, hatom]
    simp only [ok_bind, hquantifiers, ihmore fuel after hitem hafter (by omega)]
  | @one bodies tokens h ih =>
    intro fuel after hitem hafter hpipe hfuel
    have hpos := h.length_pos
    obtain ⟨fuel, rfl⟩ : ∃ less, fuel = less + 1 := ⟨fuel - 1, by omega⟩
    rw [readAlternatives, ih fuel after hitem hafter (by omega)]
    simp only [ok_bind, h.bodies_ne_nil, Bool.false_eq_true, if_false]
    cases after with
    | nil => rfl
    | cons token after => cases token <;> first | rfl | cases hpipe
  | @or bodies others tokens more h hmore ih ihmore =>
    intro fuel after hitem hafter hpipe hfuel
    have hpos := h.length_pos
    rw [length_append, length_cons] at hfuel
    obtain ⟨fuel, rfl⟩ : ∃ less, fuel = less + 1 := ⟨fuel - 1, by omega⟩
    rw [append_assoc, cons_append, readAlternatives, ih fuel (.pipe :: (more ++ after)) rfl rfl (by omega)]
    simp only [ok_bind, h.bodies_ne_nil, Bool.false_eq_true, if_false, ihmore fuel after hitem hafter hpipe (by omega)]

theorem of_tokens (h : Phrase .choice bodies tokens) (definition : String) :
    ofTokens definition tokens = .ok (.ofAlternatives bodies) := by
  have hread := h.reads (3 * tokens.length + 3) [] rfl rfl rfl (by omega)
  rw [append_nil] at hread
  rw [ofTokens, hread]
  rfl

end Phrase

/-! ## Texts -/

namespace BodyToken

/-- `Escaped text written` says that a literal may be written so between its quotes. -/
inductive Escaped : List Char → List Char → Prop where
  | nil : Escaped [] []
  | plain {c : Char} {text written : List Char} (hquote : c ≠ '"') (hslash : c ≠ '\\')
      (h : Escaped text written) : Escaped (c :: text) (c :: written)
  | quote {text written : List Char} (h : Escaped text written) : Escaped ('"' :: text) ('\\' :: '"' :: written)
  | slash {text written : List Char} (h : Escaped text written) : Escaped ('\\' :: text) ('\\' :: '\\' :: written)
  | feed {text written : List Char} (h : Escaped text written) : Escaped ('\n' :: text) ('\\' :: 'n' :: written)
  | tab {text written : List Char} (h : Escaped text written) : Escaped ('\t' :: text) ('\\' :: 't' :: written)

/-- `Slashed regex written` says that a regular expression may be written so between its slashes. A
backslash stays with the character after it. -/
inductive Slashed : List Char → List Char → Prop where
  | nil : Slashed [] []
  | plain {c : Char} {regex written : List Char} (hslash : c ≠ '/') (hback : c ≠ '\\')
      (h : Slashed regex written) : Slashed (c :: regex) (c :: written)
  | slash {regex written : List Char} (h : Slashed regex written) : Slashed ('/' :: regex) ('\\' :: '/' :: written)
  | pair {c : Char} {regex written : List Char} (hslash : c ≠ '/') (h : Slashed regex written) :
      Slashed ('\\' :: c :: regex) ('\\' :: c :: written)

theorem Escaped.read {text written : List Char} (h : Escaped text written) (rest : List Char) :
    literalText (written ++ '"' :: rest) = .ok (text, rest) := by
  induction h with
  | nil => rfl
  | plain hquote hslash _ ih =>
    rw [cons_append, literalText, ih]
    · rfl
    · exact hquote
    · exact fun hc => absurd hc hslash
    · exact fun _ _ hc => absurd hc hslash
  | quote _ ih | slash _ ih | feed _ ih | tab _ ih =>
    simp only [cons_append, literalText, ih, ok_bind]
    rfl

theorem Slashed.read {regex written : List Char} (h : Slashed regex written) (rest : List Char) :
    patternText (written ++ '/' :: rest) = .ok (regex, rest) := by
  induction h with
  | nil => rfl
  | plain hslash hback _ ih =>
    rw [cons_append, patternText, ih]
    · rfl
    · exact hslash
    · exact fun hc => absurd hc hback
    · exact fun _ _ hc => absurd hc hback
  | slash _ ih => simp only [cons_append, patternText, ih, ok_bind, if_true]
  | pair hslash _ ih => simp only [cons_append, patternText, ih, ok_bind, hslash, if_false]

/-- Whether a text is a name: a letter or an underscore, then letters, digits, underscores and dots. -/
def Names (name : List Char) : Prop := name.head?.any startsName = true ∧ ∀ c ∈ name, isNameChar c = true

inductive Spelt : BodyToken → List Char → Prop where
  | name {name : String} (h : Names name.toList) : Spelt (.name name) name.toList
  | literal {text written : List Char} (h : Escaped text written) :
      Spelt (.literal (String.ofList text)) ('"' :: (written ++ ['"']))
  | pattern {regex written flags : List Char} (h : Slashed regex written) (hflags : ∀ c ∈ flags, isFlag c = true) :
      Spelt (.pattern (String.ofList regex) (String.ofList flags)) ('/' :: (written ++ '/' :: flags))
  | number {digits : List Char} {value : Nat} (hdigits : digits ≠ [] ∧ ∀ c ∈ digits, c.isDigit = true)
      (h : count digits = .ok value) : Spelt (.number value) digits
  | mark {c : Char} {token : BodyToken} (h : mark? c = some token) : Spelt token [c]
  | range : Spelt .range ['.', '.']

/-- Whether a character would belong to a token that it directly follows. -/
def takesIn : BodyToken → Char → Bool
  | .name _, c => isNameChar c
  | .pattern _ _, c => isFlag c
  | .number _, c => c.isDigit
  | _, _ => false

theorem ascii_of_name_char {c : Char} (h : isNameChar c = true) : c.toNat < 0x80 := by
  simp only [isNameChar, Bool.or_eq_true, beq_iff_eq] at h
  rcases h with (h | rfl) | rfl
  · exact ascii_of_alphanum h
  · decide
  · decide

theorem class_of_name_char {c : Char} (h : isNameChar c = true) :
    isBlank c = false ∧ c ∉ ['\n', '\r', ':', '!', '?', '|', '/', '"'] ∧ mark? c = none ∧
      (startsName c = true ∨ c.isDigit = true → c ≠ '.') ∧ (startsName c = true → c.isDigit = false) := by
  have hascii := ascii_of_name_char h
  revert h
  exact of_ascii hascii (by decide)

theorem name_char_of_digit {c : Char} (h : c.isDigit = true) : isNameChar c = true := by
  simp [isNameChar, Char.isAlphanum, h]

theorem mark_not_blank {c : Char} {token : BodyToken} (h : mark? c = some token) : isBlank c = false := by
  unfold mark? at h
  split at h
  all_goals first | decide | cases h

variable {token : BodyToken} {chars rest : List Char}

theorem Spelt.next_eq (h : Spelt token chars) (hrest : rest.head?.any token.takesIn = false) :
    ∃ c more, chars = c :: more ∧ isBlank c = false ∧ next c (more ++ rest) = .ok (token, rest) := by
  cases h with
  | @name name h =>
    obtain ⟨hstarts, hchars⟩ := h
    cases hlist : name.toList with
    | nil =>
      rw [hlist] at hstarts
      cases hstarts
    | cons c more =>
      rw [hlist] at hstarts hchars
      have hstart : startsName c = true := hstarts
      obtain ⟨hblank, hno, hmark, hdot, hdigit⟩ := class_of_name_char (hchars c mem_cons_self)
      have hdot := hdot (.inl hstart)
      have hdigit := hdigit hstart
      obtain ⟨htake, hdrop⟩ := take_while_append (fun d hd => hchars d (mem_cons_of_mem c hd)) hrest
      have hname : String.ofList (c :: more) = name := by rw [← hlist, String.ofList_toList]
      simp only [mem_cons, not_or] at hno
      refine ⟨c, more, rfl, hblank, ?_⟩
      unfold next
      rw [hmark]
      simp only [hno, hdot, hdigit, hstart, htake, hdrop, hname, false_and, if_false, if_true, Bool.false_eq_true]
  | @literal text written h =>
    refine ⟨'"', _, rfl, by decide, ?_⟩
    have hmark : mark? '"' = none := rfl
    rw [next, hmark, append_assoc]
    simp only [if_true, singleton_append, h.read, ok_bind]
  | @pattern regex written flags h hflags =>
    obtain ⟨htake, -⟩ := take_while_append hflags hrest
    refine ⟨'/', _, rfl, by decide, ?_⟩
    have hmark : mark? '/' = none := rfl
    have hquote : ('/' = '"') = False := by decide
    rw [next, hmark, append_assoc]
    simp only [hquote, if_false, if_true, cons_append, h.read, ok_bind, htake, drop_left]
  | number hdigits h =>
    obtain ⟨hne, hdigits⟩ := hdigits
    cases chars with
    | nil => exact absurd rfl hne
    | cons c more =>
      have hdigit := hdigits c mem_cons_self
      obtain ⟨hblank, hno, hmark, hdot, -⟩ := class_of_name_char (name_char_of_digit hdigit)
      have hdot := hdot (.inr hdigit)
      obtain ⟨htake, hdrop⟩ := take_while_append (fun d hd => hdigits d (mem_cons_of_mem c hd)) hrest
      simp only [mem_cons, not_or] at hno
      refine ⟨c, more, rfl, hblank, ?_⟩
      unfold next
      rw [hmark]
      simp only [hno, hdot, hdigit, htake, hdrop, h, false_and, if_false, if_true, ok_bind]
  | @mark c token h =>
    refine ⟨c, [], rfl, mark_not_blank h, ?_⟩
    rw [next, h]
    rfl
  | range => exact ⟨'.', ['.'], rfl, by decide, rfl⟩

end BodyToken

inductive TextOf : List BodyToken → List Char → Prop where
  | nil : TextOf [] []
  | blank {tokens : List BodyToken} {text : List Char} {c : Char} (hc : isBlank c = true) (h : TextOf tokens text) :
      TextOf tokens (c :: text)
  | token {token : BodyToken} {tokens : List BodyToken} {chars text : List Char} (hchars : token.Spelt chars)
      (hnext : text.head?.any token.takesIn = false) (h : TextOf tokens text) :
      TextOf (token :: tokens) (chars ++ text)

namespace TextOf

variable {tokens : List BodyToken} {text : List Char}

theorem tokens_from_eq (h : TextOf tokens text) {fuel : Nat} (hfuel : text.length ≤ fuel) :
    BodyToken.tokensFrom fuel text = .ok tokens := by
  induction h generalizing fuel with
  | nil => cases fuel <;> rfl
  | blank hc _ ih =>
    obtain ⟨fuel, rfl⟩ : ∃ less, fuel = less + 1 := ⟨fuel - 1, by simp only [length_cons] at hfuel; omega⟩
    rw [BodyToken.tokensFrom, if_pos hc]
    exact ih (by simpa using hfuel)
  | token hchars hnext _ ih =>
    obtain ⟨c, more, rfl, hc, hread⟩ := hchars.next_eq hnext
    rw [cons_append, length_cons, length_append] at hfuel
    obtain ⟨fuel, rfl⟩ : ∃ less, fuel = less + 1 := ⟨fuel - 1, by omega⟩
    have hmore := @ih fuel (by omega)
    rw [cons_append, BodyToken.tokensFrom, if_neg (by simp [hc]), hread]
    simp only [ok_bind, hmore]

theorem mark {c : Char} {token : BodyToken} (hmark : BodyToken.mark? c = some token) (h : TextOf tokens text) :
    TextOf (token :: tokens) (c :: text) := by
  have hnext : token.takesIn = fun _ => false := by
    unfold BodyToken.mark? at hmark
    split at hmark
    all_goals cases hmark <;> rfl
  exact .token (.mark hmark) (by rw [hnext]; cases text.head? <;> rfl) h

theorem tokens_eq (h : TextOf tokens text) : BodyToken.tokens text = .ok tokens := h.tokens_from_eq (Nat.le_refl _)

end TextOf

end FlightProcedure
