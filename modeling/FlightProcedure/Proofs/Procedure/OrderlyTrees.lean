import FlightProcedure.Proofs.Procedure.HarmlessTexts
import FlightProcedure.Proofs.Procedure.Reading

/-!
# Sound trees are orderly

Most rules ask for tokens of certain terminals, so that the definitions of these terminals say which
characters the tokens can have. Some rules take tokens of any terminal; of these the definition has to be
asked which tokens it shows.

Read `quotableTokens` and `Definitions.Copyable` first: `Tree.Sound.orderly` says that a tree that conforms
to such definitions is orderly.
-/

namespace FlightProcedure

open List

/-- The terminals whose tokens have other characters than texts in quotes, or a fixed number of them. -/
def otherTerminals : List String :=
  ["STRING_CONSTANT", "CHARACTERS", "ABSOLUTE_TIME_CONSTANT", "RELATIONAL_OPERATOR",
   "MULTIPLICATION_OPERATOR", "YEAR", "MONTH", "DAY_OF_MONTH", "DAY", "HOUR", "MINUTE", "SECOND"]

def quotableTokens : TokenClass where
  listed name := name.toList.all (fun c => isQuotableChar c && !isBlank c) &&
    !otherTerminals.contains name && (name.toList.head? != some '/' || name == "/")
  allowed := isQuotableChar
  chars name h c hc := by
    simp only [Bool.and_eq_true, all_eq_true, Bool.not_eq_true'] at h
    exact h.1.1 c hc
  slash name h hhead := by
    rw [Bool.and_eq_true, hhead] at h
    simpa using h.2

def functionNames : TokenClass where
  listed name := name == "STANDARD_FUNCTION_NAME"
  allowed := isIdentifierChar
  chars name h c hc := by
    cases beq_iff_eq.mp h
    have hall : "STANDARD_FUNCTION_NAME".toList.all (fun c => isIdentifierChar c && !isBlank c) = true := by
      decide
    simpa using all_eq_true.mp hall c hc
  slash name h := by
    cases beq_iff_eq.mp h
    decide

def RuleKind.asks (kind : RuleKind) : List Role :=
  kind.signature?.toList.flatMap fun signature => signature.choices.flatten.flatMap (·.roles.flatten)

/-- Whether a rule asks for tokens without regard to their terminals. -/
def RuleKind.mixes (kind : RuleKind) : Bool := kind.asks.contains .anyToken

/-- Definitions whose tokens can be copied: the terminals that are listed have the characters of their
class, and rules that mix tokens show only tokens that are listed. -/
structure Definitions.Copyable (defs : Definitions) : Prop where
  quotable : defs.Over quotableTokens
  functions : defs.Over functionNames
  shown : ∀ definition ∈ defs.rules, ∀ kind, RuleKind.ofName? definition.name = some kind →
    kind.mixes = true → ∀ terminal, .token terminal ∈ definition.body.shows definition.shaping.keepTokens →
      quotableTokens.listed terminal = true

/-- Whether tokens that play a role for which a rule asks can be admitted. -/
def RuleKind.allows (kind : RuleKind) : Role → Bool
  | .token terminal =>
    !kind.isWrapper && (kind.readsMarks || quotableTokens.listed terminal) &&
      (kind != .function || functionNames.listed terminal || terminal == "NONSTANDARD_FUNCTION_NAME")
  | .anyToken => !kind.isWrapper && kind != .function
  | _ => true

theorem asked_allowed (kind : RuleKind) : kind.asks.all kind.allows = true := by
  cases kind <;> decide

theorem mixes_of_shows {kind : RuleKind} {role : Role} {terminal : String} (hshows : role ∈ kind.shows)
    (hcovers : role.covers (.token terminal) = true) : kind.mixes = true := by
  have hmixed : ∀ other ∈ kind.shows, other = .anyToken → kind.mixes = true := by
    cases kind <;> decide
  have hnamed : ∀ other ∈ kind.shows, ∀ name, other ≠ .token name := by
    cases kind <;> simp [RuleKind.shows, RuleKind.role?, RuleKind.signature?, statementRoles]
  rcases covers_cases hcovers with rfl | ⟨rfl, -⟩
  · exact absurd rfl (hnamed _ hshows terminal)
  · exact hmixed _ hshows rfl

theorem admits_unsupported {kind : RuleKind} (h : kind.signature? = none) (token : Token) : kind.Admits token := by
  cases kind <;> first | (cases h; done) | exact ⟨rfl, nofun, nofun⟩

section

variable {defs : Definitions}

theorem Fits.listed (hconforms : defs.Conforms) (hcopyable : defs.Copyable) {keepTokens : Bool} {body : Body}
    {labels : List Label} (h : Fits defs keepTokens body labels)
    (hshown : ∀ terminal, .token terminal ∈ body.shows keepTokens → quotableTokens.listed terminal = true)
    (terminal : String) (hlabel : .token terminal ∈ labels) : quotableTokens.listed terminal = true := by
  induction h using Fits.rec (motive_2 := fun keepTokens bodies labels _ =>
    (∀ terminal, .token terminal ∈ Body.showsAll keepTokens bodies → quotableTokens.listed terminal = true) →
      .token terminal ∈ labels → quotableTokens.listed terminal = true) with
  | rule | droppedLiteral | droppedPattern | skipped => simp at hlabel
  | inlined hmem hinline hbody ih =>
    obtain ⟨kind, hkind, -, hcovers, -⟩ := conforms_kind hconforms hmem
    -- Only a rule that mixes tokens shows a token of its own.
    have hplays := (hbody.plays hconforms _ hlabel).of_covers (hcovers hinline)
    obtain ⟨role, hrole, hcovers⟩ := hplays _ rfl
    exact ih (hcopyable.shown _ hmem kind hkind (mixes_of_shows hrole hcovers)) hlabel
  | terminal hmem =>
    cases mem_singleton.mp hlabel
    refine hshown _ ?_
    rw [Body.shows, shownBy, hconforms.terminals _ hmem]
    exact mem_singleton_self _
  | literal | pattern =>
    cases mem_singleton.mp hlabel
    exact hshown _ (mem_singleton_self _)
  | seq _ ih | present _ ih => exact ih hshown hlabel
  | alt hmem _ ih => exact ih (fun other hother => hshown other (mem_shows_all.mpr ⟨_, hmem, hother⟩)) hlabel
  | rep _ _ ih =>
    rw [Body.shows] at hshown
    exact ih (fun other hother => hshown other (mem_shows_replicate hother)) hlabel
  | nil _ hlabel => cases hlabel
  | cons _ _ ih ihs hshown hlabel =>
    rcases mem_append.mp hlabel with hlabel | hlabel
    · exact ih (fun other hother => hshown other (mem_append_left _ hother)) hlabel
    · exact ihs (fun other hother => hshown other (mem_append_right _ hother)) hlabel

theorem token_asked (hconforms : defs.Conforms) {definition : Definition} {kind : RuleKind}
    {labels : List Label} (hmem : definition ∈ defs.rules)
    (hkind : RuleKind.ofName? definition.name = some kind)
    (hfits : Fits defs definition.shaping.keepTokens definition.body labels)
    (hsupported : kind.signature? ≠ none) {terminal : String} (hlabel : .token terminal ∈ labels) :
    .token terminal ∈ kind.asks ∨ .anyToken ∈ kind.asks := by
  obtain ⟨signature, hsignature⟩ := Option.ne_none_iff_exists'.mp hsupported
  obtain ⟨slots, hslots, haccepts⟩ := fits_accepted hconforms hmem hkind hfits hsignature
  obtain ⟨slot, hslot, roles, hroles, hplays⟩ := accepts_roles haccepts _ hlabel
  obtain ⟨role, hrole, hcovers⟩ := hplays _ rfl
  have hasked : role ∈ kind.asks := by
    rw [RuleKind.asks, hsignature, Option.toList_some, flatMap_singleton]
    exact mem_flatMap.mpr ⟨slot, mem_flatten.mpr ⟨slots, hslots, hslot⟩, mem_flatten.mpr ⟨roles, hroles, hrole⟩⟩
  rcases covers_cases hcovers with rfl | ⟨rfl, -⟩
  · exact .inl hasked
  · exact .inr hasked

theorem Tree.Sound.orderly {input : Input} {options : GrammarOptions} {tree : Tree}
    (hconforms : defs.Conforms) (hcopyable : defs.Copyable) (h : tree.Sound input defs options) :
    tree.Orderly := by
  induction h with
  | leaf => exact .leaf _
  | @node definition start stop children hmem hfits _ _ _ hchildren ih =>
    refine .node (fun kind hkind token htoken => ?_) ih
    by_cases hsupported : kind.signature? = none
    · exact admits_unsupported hsupported token
    have hlabel : Label.token token.terminal ∈ children.map Tree.label := mem_map.mpr ⟨_, htoken, rfl⟩
    obtain ⟨hlexeme⟩ := hchildren _ htoken
    rcases token_asked hconforms hmem hkind hfits hsupported hlabel with hasked | hasked
    · have hallowed := all_eq_true.mp (asked_allowed kind) _ hasked
      simp only [RuleKind.allows, Bool.and_eq_true, Bool.or_eq_true, Bool.not_eq_true'] at hallowed
      obtain ⟨⟨hsolid, hquotable⟩, hfunction⟩ := hallowed
      refine ⟨hsolid, fun hcopied => ?_, fun hcall hstandard => ?_⟩
      · rw [hcopied] at hquotable
        exact lexeme_over hcopyable.quotable hlexeme (hquotable.resolve_left nofun)
      · refine lexeme_over hcopyable.functions hlexeme ?_
        simpa [hcall, hstandard] using hfunction
    · have hallowed := all_eq_true.mp (asked_allowed kind) _ hasked
      have hmixes : kind.mixes = true := contains_iff_mem.mpr hasked
      have hlisted := hfits.listed hconforms hcopyable (hcopyable.shown _ hmem kind hkind hmixes) _ hlabel
      simp only [RuleKind.allows, Bool.and_eq_true, Bool.not_eq_true'] at hallowed
      refine ⟨hallowed.1, fun _ => lexeme_over hcopyable.quotable hlexeme hlisted, fun hfunction => ?_⟩
      simp [hfunction] at hallowed

end

end FlightProcedure
