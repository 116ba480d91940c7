import FlightProcedure.Proofs.Script.Unambiguity
import FlightProcedure.Proofs.Script.Inversion
import FlightProcedure.Proofs.Script.Printing

/-!
# Reading a printed expression back

`reading` gives the term that an expression stands for, and `ReadsAs` says which terms a text is read as.
A sign stands directly in front of its operand unless the operand is made by a binary operator. This loses
the operand if it binds more loosely than the sign without being made by a binary operator: a negated
condition, or a duration of several terms. `expression_reads_back_iff` says that an expression is read
back as it was meant, and in no other way, exactly if it has no sign in front of such an operand.
-/

namespace FlightProcedure.Script

open List

def ReadsAs (text : String) (term : Term) : Prop := ∃ tokens, tokenize text = some tokens ∧ Phrase 0 tokens term

def quantityTerm (text : String) : Term :=
  .call (.name "ureg") [.text text]

def sumOf : List String → Term
  | [] => .number 0
  | first :: rest =>
    rest.foldl (fun sum text => operate sum .add (quantityTerm text)) (quantityTerm first)

mutual

def reading : Expr → Term
  | .bool value => .bool value
  | .quantity text => quantityTerm text
  | .hex text => .call (.name "int") [.text text, .number 16]
  | .str text => .text text
  | .timestamp t => .call (.name "datetime")
      ([t.year, t.month, t.day, t.hour, t.minute, t.second, t.microsecond].map .number)
  | .relativeTime terms => sumOf terms
  | .var name => .field (.call (.name "get_variable") [.name "caller", .text name]) "value"
  | .reportingData path => .call (.name "get_reporting_data") [.name "caller", .text path]
  | .call function args => .call (.name function) (readings args)
  | .unary op operand => .unary op (reading operand)
  | .binary left op right => operate (reading left) op (reading right)

def readings : List Expr → List Term
  | [] => []
  | expr :: exprs => reading expr :: readings exprs

end

/-- Whether an expression is not made by a binary operator and still binds more loosely than a sign. -/
def bindsLoosely : Expr → Bool
  | .unary .not _ => true
  | .relativeTime terms => 1 < terms.length
  | _ => false

mutual

/-- No sign stands in front of an operand that binds more loosely than the sign and has no
parentheses. -/
def SignsBind : Expr → Prop
  | .call _ args => SignsBindAll args
  | .unary op operand => (op ≠ .not → bindsLoosely operand = false) ∧ SignsBind operand
  | .binary left _ right => SignsBind left ∧ SignsBind right
  | _ => True

def SignsBindAll : List Expr → Prop
  | [] => True
  | expr :: exprs => SignsBind expr ∧ SignsBindAll exprs

end

variable {least lower bound words : Nat} {tokens : List Token} {term left right : Term}
  {args : List Term} {texts : List (List Token)} {op : BinaryOp}

section Phrase

theorem further_of_phrases (h : Forall₂ (Phrase 0) texts args) :
    FurtherArguments (texts.flatMap (.comma :: ·)) args := by
  induction h with
  | nil => exact .nil
  | cons hfirst _ ih => exact .cons hfirst ih

theorem arguments_of_phrases (h : Forall₂ (Phrase 0) texts args) :
    Arguments ([Token.comma].intercalate texts) args := by
  cases h with
  | nil => exact .nil
  | cons hfirst hrest =>
    rw [intercalate_marks]
    exact .cons hfirst (further_of_phrases hrest)

theorem Phrase.call_name (function : String) (h : Arguments tokens args) :
    Phrase 12 (.name function :: .opening :: tokens ++ [.closing]) (.call (.name function) args) :=
  .call (Nat.le_refl 12) (.atom (Nat.le_refl 12) rfl) h

theorem Phrase.operate {more : List Token} (hleft : Phrase (operateLevels op).1 tokens left)
    (hright : Phrase (operateLevels op).2 more right) :
    Phrase (level op) (tokens ++ .op op :: more) (operate left op right) := by
  unfold Script.operate
  unfold operateLevels at hleft hright
  split
  · rename_i hop
    rw [if_pos hop] at hleft hright
    exact .comparison (Nat.le_of_eq (level_of_comparison hop)) (.single hop hleft hright)
  · rename_i hop
    rw [if_neg hop] at hleft hright
    exact .binary (Nat.le_refl _) (Bool.eq_false_iff.2 hop) hleft hright

theorem Phrase.grouped {weak : Bool} (h : Phrase bound tokens term) (hleast : least ≤ 12)
    (hweak : weak = false → least ≤ bound) : Phrase least (grouped weak tokens) term := by
  cases weak with
  | false => exact h.weaken (hweak rfl)
  | true => exact .group hleast (h.weaken (Nat.zero_le _))

theorem phrase_quantity (text : String) : Phrase 12 (quantityTokens text) (quantityTerm text) :=
  .call_name "ureg" (.cons (.atom (Nat.zero_le _) rfl) .nil)

theorem phrase_sum (terms : List String) (h : Phrase 8 tokens term) :
    Phrase 8 (tokens ++ (terms.map quantityTokens).flatMap (.op .add :: ·))
      (terms.foldl (fun sum text => operate sum .add (quantityTerm text)) term) := by
  induction terms generalizing tokens term with
  | nil => simpa using h
  | cons text terms ih =>
    have hright := (phrase_quantity text).weaken (show 9 ≤ 12 by omega)
    have hsum : Phrase (level .add) (tokens ++ .op .add :: quantityTokens text)
        (operate term .add (quantityTerm text)) := .operate h hright
    simpa using ih hsum

theorem unary_level_le_binding {op : UnaryOp} {operand : Expr} (hbinary : isBinary operand = false)
    (hloose : op ≠ .not → bindsLoosely operand = false) : unaryLevel op ≤ binding operand := by
  have hsign : unaryLevel op ≤ 10 := by cases op <;> decide
  cases operand with
  | binary left operator right => cases hbinary
  | unary inner operand =>
    cases inner with
    | not =>
      cases op with
      | not => exact Nat.le_refl 3
      | plus | minus => cases hloose nofun
    | plus | minus => exact hsign
  | relativeTime terms =>
    by_cases hlength : 1 < terms.length
    · cases op with
      | not => simp [binding, hlength, unaryLevel]
      | plus | minus => simp [bindsLoosely, hlength] at hloose
    · cases op <;> simp [binding, hlength, unaryLevel]
  | _ => exact Nat.le_trans hsign (show 10 ≤ 12 by omega)

theorem operate_levels_le (op : BinaryOp) :
    (operateLevels op).1 ≤ (operandBindings op).1 ∧ (operateLevels op).2 ≤ (operandBindings op).2 ∧
      (operateLevels op).1 ≤ 12 ∧ (operateLevels op).2 ≤ 12 := by
  cases op <;> decide

theorem binding_of_eq_level (op : BinaryOp) : bindingOf op = level op := by
  cases op <;> rfl

theorem printed_phrase {expr : Expr} (h : Printable expr) (hsigns : SignsBind expr) :
    Phrase (binding expr) (printed expr) (reading expr) := by
  induction expr using Expr.rec (motive_2 := fun exprs => PrintableAll exprs → SignsBindAll exprs →
      Forall₂ (Phrase 0) (printedAll exprs) (readings exprs)) with
  | bool | str => exact .atom (Nat.le_refl 12) rfl
  | quantity text => exact phrase_quantity text
  | hex => exact .call_name "int" (.cons (.atom (Nat.zero_le _) rfl) (.cons (.atom (Nat.zero_le _) rfl) .nil))
  | timestamp t =>
    refine Phrase.call_name "datetime" (arguments_of_phrases ?_)
    rw [forall₂_map_left_iff, forall₂_map_right_iff, forall₂_same]
    exact fun part _ => .atom (Nat.zero_le _) rfl
  | relativeTime terms =>
    match terms with
    | [] => exact absurd rfl h.1
    | [text] => exact phrase_quantity text
    | first :: second :: rest =>
      have hsum := phrase_sum (second :: rest) ((phrase_quantity first).weaken (show 8 ≤ 12 by omega))
      rw [← intercalate_marks] at hsum
      exact hsum
  | var =>
    exact .field (Nat.le_refl 12) (.call_name "get_variable"
      (.cons (.atom (Nat.zero_le _) rfl) (.cons (.atom (Nat.zero_le _) rfl) .nil)))
  | reportingData =>
    exact .call_name "get_reporting_data"
      (.cons (.atom (Nat.zero_le _) rfl) (.cons (.atom (Nat.zero_le _) rfl) .nil))
  | call function args ih => exact .call_name function (arguments_of_phrases (ih h.2 hsigns))
  | unary op operand ih =>
    have hoperand := (ih h hsigns.2).grouped (show unaryLevel op ≤ 12 by cases op <;> decide)
      (fun hbinary => unary_level_le_binding hbinary hsigns.1)
    have hbinding : binding (.unary op operand) = unaryLevel op := by cases op <;> rfl
    rw [hbinding]
    exact .unary (Nat.le_refl _) hoperand
  | binary left op right ihleft ihright =>
    obtain ⟨hleft, hright, hleft', hright'⟩ := operate_levels_le op
    have hfirst := (ihleft h.1 hsigns.1).grouped hleft' fun hweak =>
      Nat.le_trans hleft (Nat.not_lt.1 (of_decide_eq_false hweak))
    have hsecond := (ihright h.2 hsigns.2).grouped hright' fun hweak =>
      Nat.le_trans hright (Nat.not_lt.1 (of_decide_eq_false hweak))
    show Phrase (bindingOf op) _ _
    rw [binding_of_eq_level]
    exact .operate hfirst hsecond
  | nil => exact .nil
  | cons _ _ ih ihs h hsigns => exact .cons ((ih h.1 hsigns.1).weaken (Nat.zero_le _)) (ihs h.2 hsigns.2)

end Phrase

section SignsBind

theorem grouped_eq_wrapped (weak : Bool) (tokens : List Token) : grouped weak tokens = wrapped weak.toNat tokens := by
  cases weak with
  | false => exact (wrapped_zero tokens).symm
  | true => rw [grouped, if_pos rfl, Bool.toNat_true, wrapped_succ, wrapped_zero]

theorem Balanced.grouped (h : Balanced tokens words) (weak : Bool) : Balanced (grouped weak tokens) words := by
  cases weak with
  | false => exact h
  | true => exact h.group

theorem words_operate (left : Term) (op : BinaryOp) (right : Term) :
    (operate left op right).words = left.words + (1 + right.words) := by
  unfold operate
  split <;> rfl

theorem printed_balanced {expr : Expr} (h : Printable expr) : Balanced (printed expr) (reading expr).words := by
  induction expr using Expr.rec (motive_2 := fun exprs => PrintableAll exprs →
      Balanced ((printedAll exprs).flatMap (.comma :: ·)) (Term.wordsAll (readings exprs)) ∧
      Balanced ([Token.comma].intercalate (printedAll exprs)) (Term.wordsAll (readings exprs) - 1)) with
  | unary op operand ih => exact ((ih h).grouped _).cons (sign_token_is_word op)
  | binary left op right ihleft ihright =>
    rw [reading, words_operate]
    exact ((ihleft h.1).grouped _).append (((ihright h.2).grouped _).cons rfl)
  | call function args ih => exact (Balanced.word rfl).append (ih h.2).2.group
  | bool | quantity | hex | str | timestamp | relativeTime | var | reportingData =>
    exact (printed_phrase h trivial).balanced
  | nil => exact ⟨.nil, .nil⟩
  | cons expr exprs ih ihs h =>
    obtain ⟨hrest, -⟩ := ihs h.2
    refine ⟨((ih h.1).cons rfl).append hrest, ?_⟩
    rw [printedAll, intercalate_marks, readings, Term.wordsAll, Nat.add_assoc, Nat.add_sub_cancel_left]
    exact (ih h.1).append hrest

theorem length_printed_all : ∀ exprs : List Expr, (printedAll exprs).length = (readings exprs).length
  | [] => rfl
  | _ :: exprs => congrArg Nat.succ (length_printed_all exprs)

theorem sum_level_le {first : String} {rest : List String} (hrest : rest ≠ [])
    (h : Phrase least ([Token.op .add].intercalate ((first :: rest).map quantityTokens))
      (sumOf (first :: rest))) : least ≤ 8 := by
  -- The last addition is the outermost one.
  obtain ⟨front, last, rfl⟩ := (eq_nil_or_concat rest).resolve_left hrest
  have hfront := (phrase_sum front ((phrase_quantity first).weaken (show 8 ≤ 12 by omega))).balanced
  have hterm : sumOf (first :: (front ++ [last])) =
      operate (front.foldl (fun sum text => operate sum .add (quantityTerm text))
        (quantityTerm first)) .add (quantityTerm last) := by
    simp [sumOf]
  have htokens : [Token.op .add].intercalate ((first :: (front ++ [last])).map quantityTokens) =
      wrapped 0 ((quantityTokens first ++ (front.map quantityTokens).flatMap (.op .add :: ·)) ++
        .op .add :: quantityTokens last) := by
    simp [wrapped_zero, intercalate_marks]
  rw [concat_eq_append, hterm, htokens] at h
  exact (h.operands hfront).2.2 rfl

theorem loose_level_le {expr : Expr} (hloose : bindsLoosely expr = true)
    (h : Phrase least (printed expr) (reading expr)) : least ≤ 8 := by
  cases expr with
  | unary op operand =>
    cases op with
    | not =>
      rw [← wrapped_zero (printed _)] at h
      exact Nat.le_trans (h.operand.2 rfl) (show 3 ≤ 8 by omega)
    | plus | minus => cases hloose
  | relativeTime terms =>
    cases terms with
    | nil => cases hloose
    | cons first rest =>
      refine sum_level_le ?_ h
      rintro rfl
      cases hloose
  | _ => cases hloose

theorem signs_bind_of_phrase {expr : Expr} {least depth : Nat} (hprintable : Printable expr)
    (h : Phrase least (wrapped depth (printed expr)) (reading expr)) : SignsBind expr := by
  induction expr using Expr.rec (motive_2 := fun exprs => PrintableAll exprs →
      FurtherArguments ((printedAll exprs).flatMap (.comma :: ·)) (readings exprs) → SignsBindAll exprs)
    generalizing least depth with
  | bool | quantity | hex | str | timestamp | relativeTime | var | reportingData => trivial
  | call _ args ih =>
    cases args with
    | nil => trivial
    | cons expr exprs =>
      have hfurther := h.arguments.further
      rw [printedAll, intercalate_marks] at hfurther
      exact ih hprintable.2 hfurther
  | unary op operand ih =>
    have hoperand := h.operand.1
    refine ⟨fun hop => ?_, ?_⟩
    · rw [← Bool.not_eq_true]
      intro hloose
      -- Such an operand is printed without parentheses, and is no phrase at the level of a sign.
      have hbinary : isBinary operand = false := by
        cases operand <;> first | rfl | cases hloose
      rw [hbinary] at hoperand
      have hle := loose_level_le hloose hoperand
      cases op with
      | not => exact hop rfl
      | plus | minus => exact absurd hle (by decide)
    · rw [grouped_eq_wrapped] at hoperand
      exact ih hprintable hoperand
  | binary left op right ihleft ihright =>
    obtain ⟨hleft, hright, -⟩ := h.operands ((printed_balanced hprintable.1).grouped _)
    rw [grouped_eq_wrapped] at hleft hright
    exact ⟨ihleft hprintable.1 hleft, ihright hprintable.2 hright⟩
  | nil => trivial
  | cons expr exprs ih ihs hprintable h =>
    obtain ⟨hfirst, hrest⟩ := h.uncons (printed_balanced hprintable.1) (length_printed_all exprs)
    rw [← wrapped_zero (printed expr)] at hfirst
    exact ⟨ih hprintable.1 hfirst, ihs hprintable.2 hrest⟩

end SignsBind

theorem ReadsAs.unique {text : String} {other : Term} (h : ReadsAs text term)
    (h' : ReadsAs text other) : term = other := by
  obtain ⟨tokens, htokens, hterm⟩ := h
  obtain ⟨tokens', htokens', hother⟩ := h'
  rw [htokens] at htokens'
  obtain rfl := Option.some.inj htokens'
  exact hterm.unique hother

theorem reads_as_reading_iff {expr : Expr} (h : Printable expr) :
    ReadsAs (expression expr) (reading expr) ↔ SignsBind expr := by
  constructor
  · rintro ⟨tokens, htokens, hphrase⟩
    rw [tokenize_expression h] at htokens
    obtain rfl := Option.some.inj htokens
    rw [← wrapped_zero (printed expr)] at hphrase
    exact signs_bind_of_phrase h hphrase
  · intro hsigns
    exact ⟨printed expr, tokenize_expression h, (printed_phrase h hsigns).weaken (Nat.zero_le _)⟩

/-- The text of an expression is read as the term that the expression stands for, and as no other one, if
and only if no sign stands in front of an operand that binds more loosely and has no parentheses. -/
theorem expression_reads_back_iff {expr : Expr} (h : Printable expr) :
    (∀ term, ReadsAs (expression expr) term ↔ term = reading expr) ↔ SignsBind expr := by
  rw [← reads_as_reading_iff h]
  constructor
  · intro hall
    exact (hall (reading expr)).2 rfl
  · rintro hread term
    refine ⟨fun hterm => hterm.unique hread, ?_⟩
    rintro rfl
    exact hread

/-- A scaled duration under a sign is read back, as the base of a power with a sign in its exponent. -/
theorem scaled_duration_reads_back :
    let scaled : Expr := .unary .minus (.binary (.relativeTime ["1h", "30min"]) .mul (.var "n"))
    let power : Expr := .binary scaled .pow (.unary .minus (.quantity "2"))
    expression power = "(-((ureg('1h') + ureg('30min')) * get_variable(caller, 'n').value)) ** (-ureg('2'))" ∧
      ∀ term, ReadsAs (expression power) term ↔ term = reading power := by
  refine ⟨rfl, (expression_reads_back_iff ?_).2 ?_⟩
  · simp [Printable, PlainText]
  · simp [SignsBind, bindsLoosely]

/-- The sign in front of a duration of several terms is read as that of the first term alone. -/
theorem negative_duration_misread : let negative : Expr := .unary .minus (.relativeTime ["1h", "30min"])
    Printable negative ∧ expression negative = "-ureg('1h') + ureg('30min')" ∧ ReadsAs (expression negative)
        (.binary (.unary .minus (quantityTerm "1h")) .add (quantityTerm "30min")) ∧
      ¬ ReadsAs (expression negative) (reading negative) := by
  intro negative
  have hprintable : Printable negative := by simp [negative, Printable, PlainText]
  have hhour := (phrase_quantity "1h").weaken (show 10 ≤ 12 by omega)
  have hsigned : Phrase (operandLevels .add).1 (signToken .minus :: quantityTokens "1h")
      (.unary .minus (quantityTerm "1h")) := .unary (show 8 ≤ 10 by omega) hhour
  have hminutes := (phrase_quantity "30min").weaken (show 9 ≤ 12 by omega)
  have hmisread : ReadsAs (expression negative)
      (.binary (.unary .minus (quantityTerm "1h")) .add (quantityTerm "30min")) :=
    ⟨printed negative, tokenize_expression hprintable, .binary (Nat.zero_le 8) rfl hsigned hminutes⟩
  refine ⟨hprintable, rfl, hmisread, ?_⟩
  intro hread
  cases hread.unique hmisread

end FlightProcedure.Script
