import FlightProcedure.Proofs.Script.Lexing

/-!
# The tokens of a printed expression

`printed` gives the tokens of an expression with the parentheses that `expression` writes, and
`tokenize_expression` says that these are the tokens of its text. Names, paths and constants other than
strings must be free of single quotes, backslashes and line breaks, since they are written as they are.
-/

namespace FlightProcedure.Script

open List

def standardFunctions : List String :=
  ["abs", "sqrt", "sin", "cos", "tan", "arcsin", "arccos", "arctan", "exp", "ln", "round", "trunc"]

def PlainText (text : String) : Prop := ∀ c ∈ text.toList, c ≠ '\'' ∧ c ≠ '\\' ∧ c ≠ '\n' ∧ c ≠ '\r'

mutual

/-- An expression whose texts can be quoted as they are, with standard functions only and with durations
of at least one term. -/
def Printable : Expr → Prop
  | .bool _ | .str _ | .timestamp _ => True
  | .quantity text | .hex text | .var text | .reportingData text => PlainText text
  | .relativeTime terms => terms ≠ [] ∧ ∀ term ∈ terms, PlainText term
  | .call function args => function ∈ standardFunctions ∧ PrintableAll args
  | .unary _ operand => Printable operand
  | .binary left _ right => Printable left ∧ Printable right

def PrintableAll : List Expr → Prop
  | [] => True
  | expr :: exprs => Printable expr ∧ PrintableAll exprs

end

def grouped (weak : Bool) (tokens : List Token) : List Token :=
  if weak then .opening :: tokens ++ [.closing] else tokens

def quantityTokens (text : String) : List Token :=
  [.name "ureg", .opening, .text text, .closing]

mutual

def printed : Expr → List Token
  | .bool value => [.bool value]
  | .quantity text => quantityTokens text
  | .hex text => [.name "int", .opening, .text text, .comma, .number 16, .closing]
  | .str text => [.text text]
  | .timestamp t =>
    .name "datetime" :: .opening :: [Token.comma].intercalate
      ([t.year, t.month, t.day, t.hour, t.minute, t.second, t.microsecond].map fun part =>
        [.number part]) ++ [.closing]
  | .relativeTime terms => [Token.op .add].intercalate (terms.map quantityTokens)
  | .var name =>
    [.name "get_variable", .opening, .name "caller", .comma, .text name, .closing, .dot, .name "value"]
  | .reportingData path =>
    [.name "get_reporting_data", .opening, .name "caller", .comma, .text path, .closing]
  | .call function args =>
    .name function :: .opening :: [Token.comma].intercalate (printedAll args) ++ [.closing]
  | .unary op operand => signToken op :: grouped (isBinary operand) (printed operand)
  | .binary left op right =>
    grouped (binding left < (operandBindings op).1) (printed left) ++
      .op op :: grouped (binding right < (operandBindings op).2) (printed right)

def printedAll : List Expr → List (List Token)
  | [] => []
  | expr :: exprs => printed expr :: printedAll exprs

end

variable {text : String} {tokens : List Token}

theorem lexes_quoted (h : PlainText text) : Lexes (quoted text).toList [.text text] := by
  have hquoted : (quoted text).toList = '\'' :: (text.toList ++ ['\'']) := by
    simp [quoted, String.toList_append]
  have hadvance := advance_quoted h []
  rw [nil_append, String.ofList_toList] at hadvance
  rw [Lexes, hquoted, advance]
  simp only [step, begin, Option.bind_eq_bind, Option.bind_some, hadvance, nil_append]

theorem lexes_string_literal (text : String) : Lexes (stringLiteral text).toList [.text text] := by
  have hliteral : (stringLiteral text).toList = '"' :: (text.toList.flatMap escapeChar ++ ['"']) := by
    simp [stringLiteral, String.toList_append]
  have hadvance := advance_literal text.toList []
  rw [nil_append, String.ofList_toList] at hadvance
  rw [Lexes, hliteral, advance]
  simp only [step, begin, Option.bind_eq_bind, Option.bind_some, hadvance, nil_append]

theorem lexes_around {opening closing : String} {start last : List Token} (hopening : Lexes opening.toList start)
    (hclosing : Lexes closing.toList last) (h : PlainText text) :
    Lexes (opening ++ quoted text ++ closing).toList (start ++ [.text text] ++ last) := by
  rw [String.toList_append, String.toList_append]
  exact (hopening.append (lexes_quoted h)).append hclosing

theorem lexes_quantity (h : PlainText text) : Lexes (quantity text).toList (quantityTokens text) :=
  @lexes_around text "ureg(" ")" [.name "ureg", .opening] [.closing] rfl rfl h

theorem lexes_function {function : String} (h : function ∈ standardFunctions) :
    Lexes (function ++ "(").toList [.name function, .opening] := by
  simp only [standardFunctions, mem_cons, not_mem_nil, or_false] at h
  rcases h with rfl | rfl | rfl | rfl | rfl | rfl | rfl | rfl | rfl | rfl | rfl | rfl <;> rfl

theorem lexes_symbol (op : BinaryOp) :
    Lexes (" " ++ symbol op ++ " ").toList [.op op] ∧ Breaks (" " ++ symbol op ++ " ").toList := by
  cases op <;> exact ⟨rfl, ' ', _, rfl, rfl⟩

theorem lexes_parenthesized (weak : Bool) (h : LexesLoosely text.toList tokens) :
    LexesLoosely (parenthesized weak text).toList (grouped weak tokens) := by
  cases weak with
  | false => exact h
  | true =>
    have hopening : Lexes "(".toList [.opening] := rfl
    have hclosing : Lexes ")".toList [.closing] := rfl
    have hinner := h.append hclosing ⟨')', [], rfl, rfl⟩
    rw [parenthesized, grouped, if_pos rfl, if_pos rfl, String.toList_append, String.toList_append, append_assoc]
    exact (hopening.append hinner).loosely

theorem lexes_comma : Lexes ", ".toList [.comma] ∧ Breaks ", ".toList :=
  ⟨rfl, ',', _, rfl, rfl⟩

theorem lexes_call {opening : String} {start : List Token} {texts : List String}
    {args : List (List Token)} (hopening : Lexes opening.toList start)
    (hargs : Forall₂ LexesLoosely (texts.map String.toList) args) :
    Lexes (opening ++ ", ".intercalate texts ++ ")").toList
      (start ++ [Token.comma].intercalate args ++ [.closing]) := by
  have hclosing : Lexes ")".toList [.closing] := rfl
  rw [String.toList_append, String.toList_append, String.toList_intercalate]
  have hinner := lexes_intercalate lexes_comma.1 lexes_comma.2 hargs
  exact (hopening.append_loose hinner).append hclosing ⟨')', [], rfl, rfl⟩

mutual

theorem expression_lexes : ∀ expr : Expr, Printable expr → LexesLoosely (expression expr).toList (printed expr)
  | .bool value, _ => by
    cases value with
    | false => exact ⟨[], .word "False".toList, _, rfl, rfl, rfl⟩
    | true => exact ⟨[], .word "True".toList, _, rfl, rfl, rfl⟩
  | .quantity text, h => (lexes_quantity h).loosely
  | .hex text, h =>
    -- By definition here and below: unfolding `expression` would compute with the characters.
    (@lexes_around text "int(" ", 16)" [.name "int", .opening] [.comma, .number 16, .closing] rfl rfl h).loosely
  | .str text, _ => (lexes_string_literal text).loosely
  | .timestamp t, _ => by
    have hopening : Lexes "datetime(".toList [.name "datetime", .opening] := rfl
    refine (lexes_call hopening ?_).loosely
    rw [map_map, forall₂_map_left_iff, forall₂_map_right_iff, forall₂_same]
    exact fun part _ => lexes_number part
  | .relativeTime terms, h => by
    have hplus : Lexes " + ".toList [.op .add] := rfl
    show LexesLoosely (" + ".intercalate (terms.map quantity)).toList _
    rw [String.toList_intercalate]
    refine lexes_intercalate hplus ⟨' ', _, rfl, rfl⟩ ?_
    rw [map_map, forall₂_map_left_iff, forall₂_map_right_iff, forall₂_same]
    exact fun term hterm => (lexes_quantity (h.2 term hterm)).loosely
  | .var name, h => by
    have hopening : Lexes "get_variable(caller, ".toList
        [.name "get_variable", .opening, .name "caller", .comma] := rfl
    have hclosing : LexesLoosely ").value".toList [.closing, .dot, .name "value"] :=
      ⟨[.closing, .dot], .word "value".toList, _, rfl, rfl, rfl⟩
    show LexesLoosely ("get_variable(caller, " ++ quoted name ++ ").value").toList _
    rw [String.toList_append, String.toList_append]
    exact (hopening.append (lexes_quoted h)).append_loose hclosing
  | .reportingData path, h =>
    (@lexes_around path "get_reporting_data(caller, " ")"
      [.name "get_reporting_data", .opening, .name "caller", .comma] [.closing] rfl rfl h).loosely
  | .call function args, h => (lexes_call (lexes_function h.1) (expressions_lex args h.2)).loosely
  | .unary op operand, h => by
    have hsign : Lexes (signOf op).toList [signToken op] := by cases op <;> rfl
    show LexesLoosely (signOf op ++ parenthesized (isBinary operand) (expression operand)).toList _
    rw [String.toList_append]
    exact hsign.append_loose (lexes_parenthesized _ (expression_lexes operand h))
  | .binary left op right, h => by
    obtain ⟨hsymbol, hbreaks⟩ := lexes_symbol op
    have hleft := lexes_parenthesized (binding left < (operandBindings op).1)
      (expression_lexes left h.1)
    have hright := lexes_parenthesized (binding right < (operandBindings op).2)
      (expression_lexes right h.2)
    have hboth := (hleft.append hsymbol hbreaks).append_loose hright
    show LexesLoosely (parenthesized (binding left < (operandBindings op).1) (expression left) ++
      " " ++ symbol op ++ " " ++
      parenthesized (binding right < (operandBindings op).2) (expression right)).toList _
    simpa only [printed, String.toList_append, append_assoc, singleton_append] using hboth

theorem expressions_lex : ∀ exprs : List Expr, PrintableAll exprs →
    Forall₂ LexesLoosely ((expressions exprs).map String.toList) (printedAll exprs)
  | [], _ => .nil
  | expr :: exprs, h => .cons (expression_lexes expr h.1) (expressions_lex exprs h.2)

end

theorem tokenize_expression {expr : Expr} (h : Printable expr) : tokenize (expression expr) = some (printed expr) :=
  (expression_lexes expr h).tokenize

end FlightProcedure.Script
