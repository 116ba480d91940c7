import FlightProcedure.Proofs.Procedure.Effects
import FlightProcedure.Proofs.Script.Fragments
import FlightProcedure.Proofs.Text.Cutting

/-!
# Texts that cannot leave their place

A text in single quotes is harmless if it has no quotes, backslashes or line breaks, and an identifier if it
has only letters, digits and underscores.
-/

namespace FlightProcedure

open List

/-- The characters of identifiers: the letters and digits of ASCII, and the underscore. -/
def isIdentifierChar (c : Char) : Bool := c.isAlphanum || c == '_'

def isQuotableChar (c : Char) : Bool := isIdentifierChar c || c ∈ [' ', '/', '.', '^', '(', ')', '+', '-']

/-- The characters that can end a text in quotes, or change what comes after them: quotes, the backslash and
line breaks. -/
def isBreakingChar (c : Char) : Bool :=
  c ∈ ['\'', '"', '\\', '\n', '\r']

theorem quotable_not_breaking {c : Char} (h : isQuotableChar c = true) : isBreakingChar c = false := by
  have hbreaking : (['\'', '"', '\\', '\n', '\r'].all fun other => !isQuotableChar other) = true := by decide
  rw [Bool.eq_false_iff]
  intro hmem
  have hnot := all_eq_true.mp hbreaking c (of_decide_eq_true hmem)
  rw [h] at hnot
  cases hnot

def MadeOf (allowed : Char → Bool) (text : String) : Prop := ∀ c ∈ text.toList, allowed c = true

instance {allowed : Char → Bool} {text : String} : Decidable (MadeOf allowed text) := List.decidableBAll _ text.toList

abbrev IsIdentifier (text : String) : Prop := MadeOf isIdentifierChar text

abbrev IsQuotable (text : String) : Prop := MadeOf isQuotableChar text

variable {text : String} {fragments : List Fragment}

theorem IsIdentifier.quotable (h : IsIdentifier text) : IsQuotable text := by
  intro c hc
  rw [isQuotableChar, h c hc, Bool.true_or]

section

variable {allowed : Char → Bool}

@[simp] theorem made_of_append {first second : String} :
    MadeOf allowed (first ++ second) ↔ MadeOf allowed first ∧ MadeOf allowed second := by
  simp [MadeOf, or_imp, forall_and]

theorem made_of_join {texts : List String} (h : ∀ text ∈ texts, MadeOf allowed text) :
    MadeOf allowed (String.join texts) := by
  intro c hc
  rw [String.toList_join, mem_flatMap] at hc
  obtain ⟨text, htext, hc⟩ := hc
  exact h text htext c hc

theorem made_of_intercalate {separator : String} {texts : List String}
    (hseparator : MadeOf allowed separator) (h : ∀ text ∈ texts, MadeOf allowed text) :
    MadeOf allowed (separator.intercalate texts) := by
  induction texts with
  | nil => simp [MadeOf]
  | cons text texts ih =>
    have htext := h text mem_cons_self
    have hrest := ih fun other hother => h other (mem_cons_of_mem _ hother)
    cases texts with
    | nil => simpa using htext
    | cons next texts => simp [htext, hseparator, hrest]

end

theorem quotable_keyword_text (h : IsQuotable text) : IsQuotable (keywordText text) := by
  refine made_of_intercalate (by decide) fun word hword => ?_
  obtain ⟨chars, hchars, rfl⟩ := mem_map.mp hword
  intro c hc
  rw [String.toList_ofList] at hc
  exact h c (mem_split_where (mem_filter.mp hchars).1 hc).1

theorem identifier_statement_key (start : Nat) : IsIdentifier (statementKey start) := by
  refine made_of_append.mpr ⟨by decide, fun c hc => ?_⟩
  have hrepr : toString start = String.ofList (Nat.toDigits 10 start) := Nat.repr_eq_ofList_toDigits
  rw [hrepr, String.toList_ofList] at hc
  have hdigit : c.isDigit = true := Nat.isDigit_of_mem_toDigits (by decide) (by decide) hc
  rw [isIdentifierChar, Char.isAlphanum, hdigit, Bool.or_true, Bool.true_or]

theorem identifier_step_class {key : String} (h : IsIdentifier key) : IsIdentifier (stepClassName key) :=
  made_of_append.mpr ⟨by decide, h⟩

theorem identifier_procedure_class (name : String) : IsIdentifier (procedureClassName name) := by
  refine made_of_append.mpr ⟨by decide, fun c hc => ?_⟩
  rw [String.toList_ofList, mem_map] at hc
  obtain ⟨old, -, rfl⟩ := hc
  split
  · assumption
  · decide

namespace Script

/-- A fragment is harmless if a text in quotes is quotable and a text that stands for itself is an
identifier. -/
def Fragment.Harmless : Fragment → Prop
  | .quoted text => IsQuotable text
  | .bare text => IsIdentifier text
  | _ => True

instance (fragment : Fragment) : Decidable fragment.Harmless :=
  match fragment with
  | .quoted text => inferInstanceAs (Decidable (IsQuotable text))
  | .bare text => inferInstanceAs (Decidable (IsIdentifier text))
  | .fixed _ _ | .literal _ | .number _ => .isTrue trivial

def Fragment.copied? : Fragment → Option String
  | .quoted text | .bare text => some text
  | _ => none

theorem Fragment.Harmless.contained {fragment : Fragment} (h : fragment.Harmless) :
    ∀ text ∈ fragment.copied?, ∀ c ∈ text.toList, isBreakingChar c = false := by
  intro text htext c hc
  cases fragment <;> cases htext
  · exact quotable_not_breaking (h c hc)
  · exact quotable_not_breaking (h.quotable c hc)

example : ¬ (Fragment.quoted "gain'); reset('").Harmless := by decide

example : (Fragment.quoted "12.5kg.m/s^-2").Harmless := by decide

def Harmless (fragments : List Fragment) : Prop := ∀ fragment ∈ fragments, fragment.Harmless

def HarmlessLines (lines : List (List Fragment)) : Prop := ∀ line ∈ lines, Harmless line

@[simp] theorem harmless_fixed (text : String) (h : text ∈ templates) : (Fragment.fixed text h).Harmless := trivial

@[simp] theorem harmless_quoted : (Fragment.quoted text).Harmless ↔ IsQuotable text :=
  Iff.rfl

@[simp] theorem harmless_bare : (Fragment.bare text).Harmless ↔ IsIdentifier text :=
  Iff.rfl

@[simp] theorem harmless_literal (text : String) : (Fragment.literal text).Harmless := trivial

@[simp] theorem harmless_number (value : Nat) : (Fragment.number value).Harmless := trivial

@[simp] theorem harmless_nil : Harmless [] := by simp [Harmless]

@[simp] theorem harmless_cons {fragment : Fragment} :
    Harmless (fragment :: fragments) ↔ fragment.Harmless ∧ Harmless fragments := by
  simp [Harmless]

@[simp] theorem harmless_append {first second : List Fragment} :
    Harmless (first ++ second) ↔ Harmless first ∧ Harmless second := by
  simp [Harmless, or_imp, forall_and]

@[simp] theorem harmless_lines_nil : HarmlessLines [] := by simp [HarmlessLines]

@[simp] theorem harmless_lines_cons {line : List Fragment} {lines : List (List Fragment)} :
    HarmlessLines (line :: lines) ↔ Harmless line ∧ HarmlessLines lines := by
  simp [HarmlessLines]

@[simp] theorem harmless_lines_append {first second : List (List Fragment)} :
    HarmlessLines (first ++ second) ↔ HarmlessLines first ∧ HarmlessLines second := by
  simp [HarmlessLines, or_imp, forall_and]

@[simp] theorem harmless_lines_map {α : Type} {items : List α} {fragments : α → List Fragment} :
    HarmlessLines (items.map fragments) ↔ ∀ item ∈ items, Harmless (fragments item) :=
  forall_mem_map

theorem harmless_flat_map {α : Type} {items : List α} {fragments : α → List Fragment} :
    Harmless (items.flatMap fragments) ↔ ∀ item ∈ items, Harmless (fragments item) := by
  simp only [Harmless, mem_flatMap]
  exact ⟨fun h item hitem fragment hmem => h fragment ⟨item, hitem, hmem⟩,
    fun h fragment ⟨item, hitem, hmem⟩ => h item hitem fragment hmem⟩

@[simp] theorem harmless_separated {separator : Fragment} (h : separator.Harmless) (parts : List (List Fragment)) :
    Harmless (separated separator parts) ↔ HarmlessLines parts := by
  induction parts with
  | nil => simp [separated]
  | cons part parts ih =>
    cases parts with
    | nil => simp [separated]
    | cons next parts => simp [separated, ih, h]

@[simp] theorem harmless_parenthesized {weak : Bool} :
    Harmless (parenthesizedFragments weak fragments) ↔ Harmless fragments := by
  cases weak <;> simp [parenthesizedFragments]

@[simp] theorem harmless_quantity : Harmless (quantityFragments text) ↔ IsQuotable text := by
  simp [quantityFragments]

@[simp] theorem harmless_deferred {expr : Expr} :
    Harmless (deferredFragments expr) ↔ Harmless (exprFragments expr) := by
  simp [deferredFragments]

theorem harmless_exprs {exprs : List Expr} :
    HarmlessLines (exprsFragments exprs) ↔ ∀ expr ∈ exprs, Harmless (exprFragments expr) := by
  induction exprs with
  | nil => simp [exprsFragments]
  | cons expr exprs ih => simp [exprsFragments, ih]

@[simp] theorem harmless_binary {left right : Expr} {op : BinaryOp} : Harmless (exprFragments (.binary left op right)) ↔
      Harmless (exprFragments left) ∧ Harmless (exprFragments right) := by
  simp [exprFragments]

@[simp] theorem harmless_unary {operand : Expr} {op : UnaryOp} :
    Harmless (exprFragments (.unary op operand)) ↔ Harmless (exprFragments operand) := by
  simp [exprFragments]

@[simp] theorem harmless_keys {keys : List String} :
    Harmless (keysFragments keys) ↔ ∀ key ∈ keys, IsIdentifier key := by
  simp [keysFragments]

@[simp] theorem harmless_timeout {timeout : Timeout} : Harmless (timeoutFragments (some timeout)) ↔
      Harmless (exprFragments timeout.duration) ∧ ∀ event ∈ timeout.raiseEvent, IsQuotable event := by
  obtain ⟨duration, event⟩ := timeout
  cases event <;> simp [timeoutFragments]

@[simp] theorem harmless_referred {referBy : Option String} {call : Fragment} (h : call.Harmless) :
    Harmless (referredFragments referBy call) ↔ ∀ name ∈ referBy, IsQuotable name := by
  cases referBy <;> simp [referredFragments, h]

end Script

end FlightProcedure
