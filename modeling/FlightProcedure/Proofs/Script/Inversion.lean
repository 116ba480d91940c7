import FlightProcedure.Proofs.Script.Phrase

/-!
# The phrases of a given term

The phrases of a term differ in their parentheses only: each has the words of the term and as many opening
as closing parentheses. So the words tell where the operator of the term stands, and the parentheses
around the whole phrase can be counted (`Balanced.split`). From this a phrase of a term with an operator, a
sign or a call gives phrases of the operands and arguments.
-/

namespace FlightProcedure.Script

open List

def Token.isWord : Token → Bool
  | .opening | .closing => false
  | _ => true

mutual

def Term.words : Term → Nat
  | .name _ | .bool _ | .number _ | .text _ => 1
  | .field value _ => value.words + 2
  | .call function args => function.words + (Term.wordsAll args - 1)
  | .unary _ operand => 1 + operand.words
  | .binary left _ right | .compare left _ right | .chain left _ right =>
    left.words + (1 + right.words)

def Term.wordsAll : List Term → Nat
  | [] => 0
  | term :: terms => 1 + term.words + Term.wordsAll terms

end

/-- Tokens with so many words and with as many opening as closing parentheses. -/
structure Balanced (tokens : List Token) (words : Nat) : Prop where
  words_eq : tokens.countP Token.isWord = words
  even : tokens.count .opening = tokens.count .closing

def wrapped (depth : Nat) (tokens : List Token) : List Token :=
  replicate depth .opening ++ tokens ++ replicate depth .closing

def operate (left : Term) (op : BinaryOp) (right : Term) : Term :=
  if isComparison op then .compare left op right else .binary left op right

/-- How tightly the operands have to bind if the operator makes up the whole term. -/
def operateLevels (op : BinaryOp) : Nat × Nat := if isComparison op then (5, 5) else operandLevels op

variable {least depth other words count : Nat} {token separator : Token} {term left right : Term}
  {tokens more rest before after : List Token} {args : List Term}

section Balanced

theorem Balanced.nil : Balanced [] 0 := ⟨rfl, rfl⟩

theorem Balanced.word (h : token.isWord = true) : Balanced [token] 1 := by
  cases token <;> first | exact ⟨rfl, rfl⟩ | cases h

theorem Balanced.append (h : Balanced tokens words) (h' : Balanced more count) :
    Balanced (tokens ++ more) (words + count) := by
  refine ⟨?_, ?_⟩
  · rw [countP_append, h.words_eq, h'.words_eq]
  · rw [count_append, count_append, h.even, h'.even]

theorem Balanced.cons (h : Balanced tokens words) (hword : token.isWord = true) :
    Balanced (token :: tokens) (1 + words) :=
  (Balanced.word hword).append h

theorem Balanced.group (h : Balanced tokens words) : Balanced (.opening :: tokens ++ [.closing]) words := by
  have heven := h.even
  refine ⟨?_, ?_⟩
  · simp [Token.isWord, h.words_eq]
  · simp [heven]

theorem append_word_inj (h : tokens ++ token :: more = before ++ separator :: after)
    (hword : token.isWord = true) (hword' : separator.isWord = true)
    (hcount : tokens.countP Token.isWord = before.countP Token.isWord) :
    tokens = before ∧ token = separator ∧ more = after := by
  obtain ⟨gap, rfl, hgap⟩ | ⟨gap, rfl, hgap⟩ := append_eq_append_iff.1 h
  · cases gap with
    | nil => simpa using hgap
    | cons first gap =>
      obtain ⟨rfl, -⟩ := cons.inj hgap
      rw [countP_append, countP_cons_of_pos hword] at hcount
      omega
  · cases gap with
    | nil => simpa [eq_comm] using hgap
    | cons first gap =>
      obtain ⟨rfl, -⟩ := cons.inj hgap
      rw [countP_append, countP_cons_of_pos hword'] at hcount
      omega

theorem wrapped_split : wrapped depth (tokens ++ token :: more) = (replicate depth .opening ++ tokens) ++
      token :: (more ++ replicate depth .closing) := by
  simp [wrapped]

theorem Balanced.split (h : Balanced tokens words) (h' : Balanced before words)
    (hword : token.isWord = true) (hword' : separator.isWord = true)
    (heq : wrapped depth (tokens ++ token :: more) = wrapped other (before ++ separator :: after)) :
    depth = other ∧ tokens = before ∧ token = separator ∧ more = after := by
  have hcounts (n : Nat) (part : List Token) :
      (replicate n Token.opening ++ part).countP Token.isWord = part.countP Token.isWord := by
    rw [countP_append, countP_replicate]
    simp [Token.isWord]
  rw [wrapped_split, wrapped_split] at heq
  obtain ⟨hbefore, hsame, hafter⟩ := append_word_inj heq hword hword' (by
    rw [hcounts, hcounts, h.words_eq, h'.words_eq])
  -- Both prefixes have their operand's parentheses in balance, so the rest counts the depth.
  have hdepth : depth = other := by
    have hopening := congrArg (List.count Token.opening) hbefore
    have hclosing := congrArg (List.count Token.closing) hbefore
    simp only [count_append, count_replicate_self] at hopening
    simp only [count_append, count_replicate] at hclosing
    have heven := h.even
    have heven' := h'.even
    simp only [beq_iff_eq, reduceCtorEq, ↓reduceIte, Nat.zero_add] at hclosing
    omega
  subst hdepth
  exact ⟨rfl, append_cancel_left hbefore, hsame, append_cancel_right hafter⟩

end Balanced

theorem Token.balanced_of_atom (h : token.atom? = some term) : Balanced [token] term.words := by
  cases token <;> cases h <;> exact ⟨rfl, rfl⟩

theorem sign_token_is_word (op : UnaryOp) : (signToken op).isWord = true := by
  cases op <;> rfl

theorem Phrase.balanced {least : Nat} {tokens : List Token} {term : Term} (h : Phrase least tokens term) :
    Balanced tokens term.words := by
  induction h using Phrase.rec (motive_2 := fun tokens term _ => Balanced tokens term.words)
    (motive_3 := fun tokens args _ => Balanced tokens (Term.wordsAll args - 1))
    (motive_4 := fun tokens args _ => Balanced tokens (Term.wordsAll args)) with
  | atom _ hatom => exact Token.balanced_of_atom hatom
  | group _ _ ih => exact ih.group
  | field _ _ ih => exact ih.append ((Balanced.word rfl).cons rfl)
  | call _ _ _ ih ihs =>
    rw [append_assoc]
    exact ih.append ihs.group
  | unary _ _ ih => exact ih.cons (sign_token_is_word _)
  | binary _ _ _ _ ihleft ihright | single _ _ _ ihleft ihright | next _ _ _ ihleft ihright =>
    exact ihleft.append (ihright.cons rfl)
  | comparison _ _ ih => exact ih
  | nil => exact .nil
  | cons _ _ ih ihs =>
    rw [Term.wordsAll, Nat.add_assoc, Nat.add_sub_cancel_left]
    exact ih.append ihs
  | _ =>
    first
    | exact .nil
    | next ih ihs => exact (ih.cons rfl).append ihs

def Term.level : Term → Nat
  | .unary op _ => unaryLevel op
  | .binary _ op _ => Script.level op
  | .compare _ _ _ | .chain _ _ _ => 4
  | _ => 12

/-- `Bare tokens term` says that the tokens are a phrase for the term with no parentheses around the
whole of it. -/
def Bare (tokens : List Token) : Term → Prop
  | .name word => tokens = [.name word]
  | .bool value => tokens = [.bool value]
  | .number value => tokens = [.number value]
  | .text content => tokens = [.text content]
  | .field value name => ∃ before, tokens = before ++ [.dot, .name name] ∧ Phrase 12 before value
  | .call function args => ∃ before inner, tokens = before ++ .opening :: inner ++ [.closing] ∧
      Phrase 12 before function ∧ Arguments inner args
  | .unary op operand => ∃ after, tokens = signToken op :: after ∧ Phrase (unaryLevel op) after operand
  | .binary left op right => ∃ before after, tokens = before ++ .op op :: after ∧
      Phrase (operandLevels op).1 before left ∧ Phrase (operandLevels op).2 after right
  | .compare left op right => ∃ before after, tokens = before ++ .op op :: after ∧
      Phrase 5 before left ∧ Phrase 5 after right
  | .chain compared op right => ∃ before after, tokens = before ++ .op op :: after ∧
      Chain before compared ∧ Phrase 5 after right

theorem wrapped_succ (depth : Nat) (tokens : List Token) :
    wrapped (depth + 1) tokens = .opening :: wrapped depth tokens ++ [.closing] := by
  rw [wrapped, wrapped, replicate_succ, replicate_succ']
  simp only [cons_append, append_assoc]

theorem wrapped_zero (tokens : List Token) : wrapped 0 tokens = tokens := append_nil tokens

theorem Phrase.unwrap : ∀ {least : Nat} {tokens : List Token} {term : Term},
    Phrase least tokens term → ∃ depth inner, tokens = wrapped depth inner ∧ Bare inner term ∧
      (depth = 0 → least ≤ term.level)
  | _, _, _, @Phrase.atom _ token term hleast hatom => by
    refine ⟨0, [token], (wrapped_zero _).symm, ?_, fun _ => ?_⟩
    · cases token <;> cases hatom <;> rfl
    · cases token <;> cases hatom <;> exact hleast
  | _, _, _, .group _ hinner => by
    obtain ⟨depth, inner, rfl, hbare, -⟩ := hinner.unwrap
    exact ⟨depth + 1, inner, (wrapped_succ _ _).symm, hbare, nofun⟩
  | _, _, _, .field hleast hvalue =>
    ⟨0, _, (wrapped_zero _).symm, ⟨_, rfl, hvalue⟩, fun _ => hleast⟩
  | _, _, _, .call hleast hfunction hargs =>
    ⟨0, _, (wrapped_zero _).symm, ⟨_, _, rfl, hfunction, hargs⟩, fun _ => hleast⟩
  | _, _, _, .unary hleast hoperand =>
    ⟨0, _, (wrapped_zero _).symm, ⟨_, rfl, hoperand⟩, fun _ => hleast⟩
  | _, _, _, .binary hleast _ hleft hright =>
    ⟨0, _, (wrapped_zero _).symm, ⟨_, _, rfl, hleft, hright⟩, fun _ => hleast⟩
  | _, _, _, .comparison hleast (.single _ hleft hright) =>
    ⟨0, _, (wrapped_zero _).symm, ⟨_, _, rfl, hleft, hright⟩, fun _ => hleast⟩
  | _, _, _, .comparison hleast (.next _ hcompared hright) =>
    ⟨0, _, (wrapped_zero _).symm, ⟨_, _, rfl, hcompared, hright⟩, fun _ => hleast⟩

theorem Bare.of_operate {op : BinaryOp} (h : Bare tokens (operate left op right)) :
    ∃ before after, tokens = before ++ .op op :: after ∧
      Phrase (operateLevels op).1 before left ∧ Phrase (operateLevels op).2 after right := by
  unfold operate at h
  unfold operateLevels
  split at h
  · rw [if_pos ‹_›]
    exact h
  · rw [if_neg ‹_›]
    exact h

theorem level_operate (left : Term) (op : BinaryOp) (right : Term) : (operate left op right).level = level op := by
  unfold operate
  split
  · exact (level_of_comparison ‹_›).symm
  · rfl

theorem Phrase.operands {op : BinaryOp}
    (h : Phrase least (wrapped depth (tokens ++ .op op :: more)) (operate left op right))
    (hleft : Balanced tokens left.words) :
    Phrase (operateLevels op).1 tokens left ∧ Phrase (operateLevels op).2 more right ∧
      (depth = 0 → least ≤ level op) := by
  obtain ⟨other, inner, heq, hbare, hlevel⟩ := h.unwrap
  obtain ⟨before, after, rfl, hbefore, hafter⟩ := hbare.of_operate
  obtain ⟨rfl, rfl, -, rfl⟩ := hleft.split hbefore.balanced rfl rfl heq
  rw [level_operate] at hlevel
  exact ⟨hbefore, hafter, hlevel⟩

theorem Phrase.operand {op : UnaryOp} {operand : Term}
    (h : Phrase least (wrapped depth (signToken op :: tokens)) (.unary op operand)) :
    Phrase (unaryLevel op) tokens operand ∧ (depth = 0 → least ≤ unaryLevel op) := by
  obtain ⟨other, inner, heq, ⟨after, rfl, hafter⟩, hlevel⟩ := h.unwrap
  have hword := sign_token_is_word op
  obtain ⟨rfl, -, -, rfl⟩ := Balanced.nil.split Balanced.nil hword hword heq
  exact ⟨hafter, hlevel⟩

theorem Phrase.arguments {function : String}
    (h : Phrase least (wrapped depth (.name function :: .opening :: tokens ++ [.closing]))
      (.call (.name function) args)) : Arguments tokens args := by
  obtain ⟨other, inner, heq, ⟨before, inside, rfl, hbefore, hinside⟩, -⟩ := h.unwrap
  obtain ⟨own, name, rfl, rfl, -⟩ := hbefore.unwrap
  -- Parentheses around the name would have to close in front of the ones of the call.
  have hsame : replicate depth Token.opening ++ .name function ::
      (.opening :: tokens ++ .closing :: replicate depth .closing) =
      (replicate other .opening ++ replicate own .opening) ++ .name function ::
        (replicate own .closing ++ .opening :: inside ++ .closing :: replicate other .closing) := by
    simpa only [wrapped, append_assoc, cons_append, nil_append] using heq
  obtain ⟨hdepth, -, hafter⟩ := append_word_inj hsame rfl rfl (by
    simp [countP_replicate, Token.isWord])
  cases own with
  | succ own => simp [replicate_succ] at hafter
  | zero =>
    have hdepth := congrArg List.length hdepth
    simp only [replicate_zero, append_nil, length_replicate] at hdepth
    subst hdepth
    simp only [replicate_zero, nil_append, cons_append, cons.injEq, true_and, append_cancel_right_eq] at hafter
    exact hafter ▸ hinside

theorem Arguments.further (h : Arguments tokens (term :: args)) :
    FurtherArguments (.comma :: tokens) (term :: args) := by
  cases h with
  | cons hfirst hrest => exact .cons hfirst hrest

theorem FurtherArguments.uncons {texts : List (List Token)}
    (h : FurtherArguments ((tokens :: texts).flatMap (.comma :: ·)) (term :: args))
    (hfirst : Balanced tokens term.words) (hlength : texts.length = args.length) :
    Phrase 0 tokens term ∧ FurtherArguments (texts.flatMap (.comma :: ·)) args := by
  generalize hall : (tokens :: texts).flatMap (Token.comma :: ·) = all at h
  cases h with
  | @cons before after _ _ hbefore hafter =>
    have heq : tokens ++ texts.flatMap (Token.comma :: ·) = before ++ after := (cons.inj hall).2
    have hcount := hfirst.words_eq.trans hbefore.balanced.words_eq.symm
    cases hafter with
    | nil =>
      obtain rfl := length_eq_zero_iff.1 hlength
      obtain rfl : tokens = before := by simpa using heq
      exact ⟨hbefore, .nil⟩
    | cons hnext hrest =>
      cases texts with
      | nil => cases hlength
      | cons text texts =>
        rw [flatMap_cons, cons_append] at heq ⊢
        obtain ⟨rfl, -, hmore⟩ := append_word_inj heq rfl rfl hcount
        exact ⟨hbefore, hmore ▸ .cons hnext hrest⟩

end FlightProcedure.Script
