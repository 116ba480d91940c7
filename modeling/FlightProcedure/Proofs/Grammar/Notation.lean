import FlightProcedure.Proofs.Grammar.PhraseReading
import Mathlib.Data.List.Forall2

/-!
# What reading a grammar text yields

`Definitions.of_text_eq_ok` says that the definitions of a text are those of its logical lines, sorted
into rules and terminals by their names. All names in them are made of the characters of names, so none
starts with a quote or a slash.
-/

namespace FlightProcedure

open List

def IsPlain (name : String) : Prop :=
  name.toList.head? ≠ some '"' ∧ name.toList.head? ≠ some '/'

def IsWritten (name : String) : Prop := name.toList.all BodyToken.isNameChar = true

variable {defs : Definitions} {name text : String} {definition : Definition} {more : List Definition}

theorem IsWritten.plain (h : IsWritten name) : IsPlain name := by
  have hhead : ∀ c, name.toList.head? = some c → BodyToken.isNameChar c = true := fun c hc =>
    all_eq_true.mp h c (mem_of_mem_head? hc)
  refine ⟨fun hquote => ?_, fun hslash => ?_⟩
  · exact absurd (hhead _ hquote) (by decide)
  · exact absurd (hhead _ hslash) (by decide)

def IsFlagged (flags : String) : Prop := '/' ∉ flags.toList

namespace BodyToken

/-- A name is made of the characters of names, and the flags of a pattern hold no slash. -/
def IsSound : BodyToken → Prop
  | .name text => IsWritten text
  | .pattern _ flags => IsFlagged flags
  | _ => True

theorem mark_sound {c : Char} {token : BodyToken} (h : mark? c = some token) : token.IsSound := by
  unfold mark? at h
  split at h <;> cases h <;> trivial

theorem next_sound {c : Char} {chars rest : List Char} {token : BodyToken}
    (h : next c chars = .ok (token, rest)) : token.IsSound := by
  unfold next at h
  split at h
  · next hmark =>
    cases h
    exact mark_sound hmark
  · split at h
    · obtain ⟨_, _, h⟩ := bind_eq_ok h
      cases h
      trivial
    split at h
    · obtain ⟨⟨text, rest⟩, _, h⟩ := bind_eq_ok h
      cases h
      intro hslash
      rw [String.toList_ofList] at hslash
      have hflag := all_eq_true.mp (all_takeWhile (p := isFlag) (l := rest)) _ hslash
      exact absurd hflag (by decide)
    split at h
    · cases h
      trivial
    split at h
    · obtain ⟨_, _, h⟩ := bind_eq_ok h
      cases h
      trivial
    split at h
    · next hstart =>
      cases h
      have hfirst : isNameChar c = true := by
        have halphanum : c.isAlphanum = (c.isAlpha || c.isDigit) := rfl
        simp only [startsName, Bool.or_eq_true] at hstart
        simp only [isNameChar, halphanum, Bool.or_eq_true]
        rcases hstart with halpha | hunderscore
        · exact .inl (.inl (.inl halpha))
        · exact .inl (.inr hunderscore)
      rw [IsSound, IsWritten, String.toList_ofList, all_cons, hfirst, Bool.true_and]
      exact all_takeWhile
    · cases h

theorem tokens_from_sound {fuel : Nat} {chars : List Char} {tokens : List BodyToken}
    (h : tokensFrom fuel chars = .ok tokens) : ∀ token ∈ tokens, token.IsSound := by
  induction fuel generalizing chars tokens with
  | zero =>
    cases h
    exact fun _ h => nomatch h
  | succ fuel ih =>
    cases chars with
    | nil =>
      cases h
      exact fun _ h => nomatch h
    | cons c chars =>
      rw [tokensFrom] at h
      split at h
      · exact ih h
      · obtain ⟨⟨token, rest⟩, hnext, h⟩ := bind_eq_ok h
        obtain ⟨others, hothers, h⟩ := bind_eq_ok h
        cases h
        exact forall_mem_cons.mpr ⟨next_sound hnext, ih hothers⟩

end BodyToken

namespace Body

mutual

/-- The names, literals and patterns in the body, as they are written. -/
def leaves : Body → List BodyToken
  | .symbol name => [.name name]
  | .literal text => [.literal text]
  | .pattern regex flags => [.pattern regex flags]
  | .seq items => leavesOf items
  | .alt items => leavesOf items
  | .optional inner => inner.leaves
  | .rep inner _ _ => inner.leaves

def leavesOf : List Body → List BodyToken
  | [] => []
  | item :: items => item.leaves ++ leavesOf items

end

theorem leaves_of_items (items : List Body) : (ofItems items).leaves = leavesOf items := by
  match items with
  | [] => rfl
  | [item] => exact (append_nil _).symm
  | _ :: _ :: _ => rfl

theorem leaves_of_alternatives (items : List Body) : (ofAlternatives items).leaves = leavesOf items := by
  match items with
  | [] => rfl
  | [item] => exact (append_nil _).symm
  | _ :: _ :: _ => rfl

theorem leaves_quantified (quantifiers : List Quantifier) (body : Body) :
    (quantifiers.foldl Quantifier.apply body).leaves = body.leaves := by
  induction quantifiers generalizing body with
  | nil => rfl
  | cons quantifier rest ih =>
    rw [foldl_cons, ih]
    cases quantifier <;> rfl

/-- The leaves of what is written are among the tokens that write it. -/
theorem leaves_of_phrase {level : Level} {bodies : List Body} {tokens : List BodyToken}
    (h : Phrase level bodies tokens) : leavesOf bodies ⊆ tokens := by
  induction h with
  | symbol | literal | pattern => exact Subset.refl _
  | group _ ih | option _ ih =>
    simp only [leavesOf, leaves, leaves_of_alternatives, append_nil]
    exact subset_cons_of_subset _ (subset_append_of_subset_left _ ih)
  | quantified _ quantifiers ih =>
    simp only [leavesOf, leaves_quantified]
    exact subset_append_of_subset_left _ ih
  | last _ ih => exact ih
  | next _ _ ih ihmore =>
    simp only [leavesOf, append_nil] at ih ⊢
    exact append_subset.mpr ⟨subset_append_of_subset_left _ ih, subset_append_of_subset_right _ ihmore⟩
  | one _ ih => simpa only [leavesOf, leaves_of_items, append_nil] using ih
  | or _ _ ih ihmore =>
    rw [leavesOf, leaves_of_items]
    exact append_subset.mpr ⟨subset_append_of_subset_left _ ih,
      subset_append_of_subset_right _ (subset_cons_of_subset _ ihmore)⟩

end Body

/-- All names in the definition are made of the characters of names, and the flags of its patterns hold no
slash. -/
structure Definition.Written (definition : Definition) : Prop where
  name : IsWritten definition.name
  leaves : ∀ leaf ∈ definition.body.leaves, leaf.IsSound

namespace Definition

def nameChars (text : List Char) : List Char := trim ((readShaping {} text).2.takeWhile (· != ':'))

theorem of_text_eq_ok {line : Nat} {text : List Char} (h : ofText line text = .ok definition) :
    definition.name = String.ofList (nameChars text) ∧ definition.Written := by
  unfold ofText at h
  dsimp only at h
  split at h
  · cases h
  split at h
  · cases h
  · next hname =>
    obtain ⟨tokens, htokens, h⟩ := bind_eq_ok h
    obtain ⟨body, hbody, h⟩ := bind_eq_ok h
    cases h
    refine ⟨rfl, ?_, fun leaf hmem => ?_⟩
    · rw [IsWritten, String.toList_ofList]
      simp only [isName, Bool.not_eq_true', Bool.not_eq_false, Bool.and_eq_true] at hname
      exact hname.2
    · obtain ⟨⟨items, rest⟩, hitems, hbody⟩ := bind_eq_ok hbody
      dsimp only at hbody
      split at hbody
      · cases hbody
        rw [Body.leaves_of_alternatives] at hmem
        obtain ⟨taken, hphrase, rfl⟩ := (Body.readers_take_phrases _).alternatives _ _ _ hitems
        exact BodyToken.tokens_from_sound htokens _ (mem_append_left _ (Body.leaves_of_phrase hphrase hmem))
      · cases hbody

end Definition

namespace Definitions

theorem push_all_eq (defs : Definitions) (more : List Definition) : defs.pushAll more =
      ⟨defs.rules ++ more.filter (fun definition => !isTerminalName definition.name),
        defs.terminals ++ more.filter (fun definition => isTerminalName definition.name)⟩ := by
  unfold pushAll
  induction more generalizing defs with
  | nil => simp
  | cons definition more ih =>
    rw [foldl_cons, ih, push]
    cases hname : isTerminalName definition.name <;> simp [hname]

theorem read_lines_eq_ok {result : Definitions} {lines : List LogicalLine}
    (h : readLines defs lines = .ok result) :
    ∃ more, Forall₂ (fun line definition => Definition.ofText line.1 line.2 = .ok definition)
      lines more ∧ result = defs.pushAll more := by
  induction lines generalizing defs with
  | nil =>
    cases h
    exact ⟨[], .nil, rfl⟩
  | cons line lines ih =>
    obtain ⟨start, text⟩ := line
    rw [readLines] at h
    split at h
    · next definition hdefinition =>
      obtain ⟨more, hmore, hresult⟩ := ih h
      refine ⟨definition :: more, .cons hdefinition hmore, ?_⟩
      rw [hresult, pushAll, pushAll, foldl_cons]
    · cases h

theorem of_text_eq_ok (h : ofText text = .ok defs) :
    ∃ found more, joinLines [] 1 (lines text.toList) = .ok found ∧
      Forall₂ (fun line definition => Definition.ofText line.1 line.2 = .ok definition) found more ∧
      defs = pushAll {} more := by
  obtain ⟨found, hfound, h⟩ := bind_eq_ok h
  obtain ⟨more, hmore, hdefs⟩ := read_lines_eq_ok h
  exact ⟨found, more, hfound, hmore, hdefs⟩

/-- The names of terminals and of rules are told apart. -/
structure Sorted (defs : Definitions) : Prop where
  rules : ∀ definition ∈ defs.rules, isTerminalName definition.name = false
  terminals : ∀ definition ∈ defs.terminals, isTerminalName definition.name = true

theorem mem_push_all (h : definition ∈ (defs.pushAll more).toList) : definition ∈ defs.toList ∨ definition ∈ more := by
  rw [push_all_eq, toList] at h
  simp only [toList, mem_append, mem_filter] at h ⊢
  rcases h with (h | h) | h | h
  · exact .inl (.inl h)
  · exact .inr h.1
  · exact .inl (.inr h)
  · exact .inr h.1

theorem Sorted.push_all (h : defs.Sorted) (more : List Definition) : (defs.pushAll more).Sorted := by
  rw [push_all_eq]
  refine ⟨fun definition hmem => ?_, fun definition hmem => ?_⟩
  · rcases mem_append.mp hmem with hmem | hmem
    · exact h.rules definition hmem
    · simpa using (mem_filter.mp hmem).2
  · rcases mem_append.mp hmem with hmem | hmem
    · exact h.terminals definition hmem
    · exact (mem_filter.mp hmem).2

theorem written_of_lines {found : List LogicalLine}
    (h : Forall₂ (fun line definition => Definition.ofText line.1 line.2 = .ok definition) found more) :
    ∀ definition ∈ more, definition.Written := by
  induction h with
  | nil => exact fun _ h => (not_mem_nil h).elim
  | cons hline _ ih => exact forall_mem_cons.mpr ⟨(Definition.of_text_eq_ok hline).2, ih⟩

theorem of_text_sorted (h : ofText text = .ok defs) : defs.Sorted ∧ ∀ definition ∈ defs.toList, definition.Written := by
  obtain ⟨found, more, -, hmore, rfl⟩ := of_text_eq_ok h
  have hnone : ({} : Definitions).Sorted := ⟨fun _ h => (not_mem_nil h).elim, fun _ h => (not_mem_nil h).elim⟩
  refine ⟨hnone.push_all more, fun definition hmem => ?_⟩
  rcases mem_push_all hmem with hmem | hmem
  · cases hmem
  · exact written_of_lines hmore definition hmem

end Definitions

end FlightProcedure
