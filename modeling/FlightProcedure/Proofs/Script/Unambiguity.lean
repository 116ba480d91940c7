import FlightProcedure.Proofs.Script.Phrase

/-!
# Every phrase has one term

A reader that goes through the tokens from left to right and is told how tightly the next operator has to
bind. Its fuel bounds the depth of its calls. `Phrase.leads` says that with enough fuel it gets through
every phrase, if what follows the phrase does not bind the phrase's last operand. So no two terms have
the same phrase.
-/

namespace FlightProcedure.Script

open List

mutual

def read : Nat → Nat → List Token → Option (Term × List Token)
  | 0, _, _ => none
  | _ + 1, _, [] => none
  | fuel + 1, least, .opening :: tokens => do
    match ← read fuel 0 tokens with
    | (term, .closing :: rest) => climb fuel least term rest
    | _ => none
  | fuel + 1, least, .not :: tokens => do
    if least ≤ unaryLevel .not then
      let (operand, rest) ← read fuel (unaryLevel .not) tokens
      climb fuel least (.unary .not operand) rest
    else none
  | fuel + 1, least, .op .add :: tokens => do
    if least ≤ unaryLevel .plus then
      let (operand, rest) ← read fuel (unaryLevel .plus) tokens
      climb fuel least (.unary .plus operand) rest
    else none
  | fuel + 1, least, .op .sub :: tokens => do
    if least ≤ unaryLevel .minus then
      let (operand, rest) ← read fuel (unaryLevel .minus) tokens
      climb fuel least (.unary .minus operand) rest
    else none
  | fuel + 1, least, token :: tokens => do climb fuel least (← token.atom?) tokens

/-- Go on with operators that bind at least as tightly as `least`, after a term on their left. -/
def climb : Nat → Nat → Term → List Token → Option (Term × List Token)
  | 0, _, _, _ => none
  | fuel + 1, least, left, .op op :: tokens =>
    if level op < least then some (left, .op op :: tokens)
    else if isComparison op then do
      let (right, rest) ← read fuel 5 tokens
      compareOn fuel least (.compare left op right) rest
    else do
      let (right, rest) ← read fuel (operandLevels op).2 tokens
      climb fuel least (.binary left op right) rest
  | fuel + 1, least, left, .opening :: tokens => do
    let (args, rest) ← readArguments fuel tokens
    climb fuel least (.call left args) rest
  | fuel + 1, least, left, .dot :: .name name :: tokens =>
    climb fuel least (.field left name) tokens
  | _ + 1, _, left, tokens => some (left, tokens)

def compareOn : Nat → Nat → Term → List Token → Option (Term × List Token)
  | 0, _, _, _ => none
  | fuel + 1, least, compared, .op op :: tokens =>
    if isComparison op then do
      let (right, rest) ← read fuel 5 tokens
      compareOn fuel least (.chain compared op right) rest
    else climb fuel least compared (.op op :: tokens)
  | fuel + 1, least, compared, tokens => climb fuel least compared tokens

def readArguments : Nat → List Token → Option (List Term × List Token)
  | 0, _ => none
  | fuel + 1, tokens =>
    if tokens.head? = some .closing then some ([], tokens.tail)
    else do
      let (first, rest) ← read fuel 0 tokens
      let (more, rest) ← readFurther fuel rest
      some (first :: more, rest)

def readFurther : Nat → List Token → Option (List Term × List Token)
  | 0, _ => none
  | _ + 1, .closing :: tokens => some ([], tokens)
  | fuel + 1, .comma :: tokens => do
    let (first, rest) ← read fuel 0 tokens
    let (more, rest) ← readFurther fuel rest
    some (first :: more, rest)
  | _ + 1, _ => none

end

def Leads {α : Type} (x : Nat → Option α) (result : α) : Prop := ∃ enough, ∀ fuel, enough ≤ fuel → x fuel = some result

section Leads

variable {α β : Type} {x : Nat → Option α} {value : α}

theorem Leads.succ (h : Leads (fun fuel => x (fuel + 1)) value) : Leads x value := by
  obtain ⟨enough, henough⟩ := h
  refine ⟨enough + 1, fun fuel hfuel => ?_⟩
  obtain ⟨fuel, rfl⟩ : ∃ less, fuel = less + 1 := ⟨fuel - 1, by omega⟩
  exact henough fuel (by omega)

theorem Leads.bind {f : α → Nat → Option β} {result : β} (h : Leads x value) (hnext : Leads (f value) result) :
    Leads (fun fuel => (x fuel).bind fun value => f value fuel) result := by
  obtain ⟨enough, henough⟩ := h
  obtain ⟨enough', henough'⟩ := hnext
  refine ⟨max enough enough', fun fuel hfuel => ?_⟩
  show (x fuel).bind _ = some result
  rw [henough fuel (by omega)]
  exact henough' fuel (by omega)

theorem Leads.unique {other : α} (h : Leads x value) (h' : Leads x other) : value = other := by
  obtain ⟨enough, henough⟩ := h
  obtain ⟨enough', henough'⟩ := h'
  have hvalue := henough (max enough enough') (by omega)
  rw [henough' (max enough enough') (by omega)] at hvalue
  exact (Option.some.inj hvalue).symm

end Leads

/-- How tightly a token binds what stands before it, if it can follow a term. -/
def Token.binds : Token → Option Nat
  | .op operator => some (level operator)
  | .opening | .dot => some 13
  | _ => none

def Ends (least : Nat) (rest : List Token) : Prop := ∀ token ∈ rest.head?, ∀ own ∈ token.binds, own < least

/-- What may follow a phrase of some tightness: the operators that leave its last operand alone. -/
def follow (least : Nat) : Nat :=
  if least = 12 then 14
  else if least = 11 then 10
  else if least ∈ [1, 2, 6, 8, 9] then least + 1
  else least

variable {least lower bound : Nat} {tokens more rest : List Token} {term left right : Term}

theorem Ends.mono (h : Ends lower rest) (hle : lower ≤ least) : Ends least rest :=
  fun token htoken own hown => Nat.lt_of_lt_of_le (h token htoken own hown) hle

theorem climb_leads (h : Ends least rest) (hleast : least ≤ 13) (term : Term) :
    Leads (fun fuel => climb fuel least term rest) (term, rest) := by
  refine .succ ⟨0, fun fuel _ => ?_⟩
  cases rest with
  | nil => rfl
  | cons token rest =>
    have hbinds := h token (by simp)
    cases token with
    | op operator =>
      have hlt : level operator < least := hbinds _ rfl
      simp only [climb, hlt, if_true]
    | opening | dot =>
      have hlt : 13 < least := hbinds _ rfl
      omega
    | _ => rfl

theorem read_sign (fuel least : Nat) (op : UnaryOp) (tokens : List Token) :
    read (fuel + 1) least (signToken op :: tokens) =
      if least ≤ unaryLevel op then
        (read fuel (unaryLevel op) tokens).bind fun found =>
          climb fuel least (.unary op found.1) found.2
      else none := by
  cases op <;> rfl

theorem read_atom {token : Token} (hatom : token.atom? = some term) (fuel least : Nat)
    (tokens : List Token) : read (fuel + 1) least (token :: tokens) = climb fuel least term tokens := by
  cases token with
  | name | bool | number | text =>
    cases hatom
    rfl
  | _ => cases hatom

theorem follow_le_unary (op : UnaryOp) : ∀ bound ≤ unaryLevel op, follow bound ≤ unaryLevel op := by
  cases op <;> decide

theorem follow_le_right (op : BinaryOp) (hop : isComparison op = false) :
    ∀ bound ≤ level op, follow bound ≤ (operandLevels op).2 := by
  revert hop
  cases op <;> decide

theorem operand_levels_bounds (op : BinaryOp) (hop : isComparison op = false) :
    level op ≤ (operandLevels op).1 ∧ level op < follow (operandLevels op).1 ∧
      (operandLevels op).2 ≤ follow (operandLevels op).2 ∧ (operandLevels op).2 ≤ 13 := by
  revert hop
  cases op <;> decide

theorem Phrase.head (h : Phrase least tokens term) : ∃ token rest, tokens = token :: rest ∧ token ≠ .closing := by
  induction h using Phrase.rec (motive_2 := fun tokens _ _ => ∃ token rest, tokens = token :: rest ∧ token ≠ .closing)
    (motive_3 := fun _ _ _ => True) (motive_4 := fun _ _ _ => True) with
  | atom _ hatom => exact ⟨_, [], rfl, by rintro rfl; cases hatom⟩
  | group => exact ⟨_, _, rfl, by simp⟩
  | @unary _ op => exact ⟨_, _, rfl, by cases op <;> simp [signToken]⟩
  | comparison _ _ ih => exact ih
  | field _ _ ih | call _ _ _ ih | binary _ _ _ _ ih | single _ _ _ ih | next _ _ _ ih =>
    obtain ⟨token, rest, rfl, hne⟩ := ih
    exact ⟨token, _, rfl, hne⟩
  | _ => trivial

theorem compare_on_ends (h : Ends 4 rest) (fuel least : Nat) (term : Term) :
    compareOn (fuel + 1) least term rest = climb fuel least term rest := by
  cases rest with
  | nil => rfl
  | cons token rest =>
    cases token with
    | op operator =>
      have hlt : level operator < 4 := h _ rfl _ rfl
      have hop : isComparison operator = false := by
        rw [isComparison, beq_eq_false_iff_ne]
        omega
      simp [compareOn, hop]
    | _ => rfl

theorem FurtherArguments.ends {args : List Term} (h : FurtherArguments tokens args)
    (rest : List Token) : Ends 0 (tokens ++ .closing :: rest) := by
  cases h with
  | nil | cons => simp [Ends, Token.binds]

theorem Phrase.leads {result : Term × List Token} (h : Phrase bound tokens term) (hle : least ≤ bound)
    (hends : Ends (follow bound) rest) (hrest : Leads (fun fuel => climb fuel least term rest) result) :
    Leads (fun fuel => read fuel least (tokens ++ rest)) result := by
  induction h using Phrase.rec
    (motive_2 := fun tokens term _ => ∀ {least : Nat} {rest : List Token} {result : Term × List Token},
      least ≤ 4 → Ends 5 rest → Leads (fun fuel => compareOn fuel least term rest) result →
        Leads (fun fuel => read fuel least (tokens ++ rest)) result)
    (motive_3 := fun tokens args _ => ∀ {rest : List Token},
      Leads (fun fuel => readArguments fuel (tokens ++ .closing :: rest)) (args, rest))
    (motive_4 := fun tokens args _ => ∀ {rest : List Token},
      Leads (fun fuel => readFurther fuel (tokens ++ .closing :: rest)) (args, rest))
    generalizing least rest result with
  | atom _ hatom =>
    refine .succ ?_
    simp only [cons_append, nil_append, read_atom hatom]
    exact hrest
  | @group _ _ term _ _ ih =>
    have hclosing : Ends 0 (.closing :: rest) := by simp [Ends, Token.binds]
    have hread := ih (Nat.le_refl 0) hclosing (climb_leads hclosing (by omega) term)
    refine .succ ?_
    simp only [cons_append, append_assoc, nil_append, read]
    exact hread.bind hrest
  | field _ _ ih =>
    rw [append_assoc]
    refine ih (by omega) (by simp [Ends, Token.binds, follow]) (.succ ?_)
    exact hrest
  | call _ _ _ ih ihs =>
    rw [append_assoc, append_assoc]
    refine ih (by omega) (by simp [Ends, Token.binds, follow]) (.succ ?_)
    exact ihs.bind hrest
  | @unary bound op _ operand hbound _ ih =>
    have hstop := hends.mono (follow_le_unary op bound hbound)
    have hlevel : unaryLevel op ≤ follow (unaryLevel op) ∧ unaryLevel op ≤ 13 := by
      cases op <;> decide
    have hread := ih (Nat.le_refl _) (hstop.mono hlevel.1) (climb_leads hstop hlevel.2 operand)
    refine .succ ?_
    simp only [cons_append, read_sign, Nat.le_trans hle hbound, if_true]
    exact hread.bind hrest
  | @binary bound op _ _ left right hbound hop _ _ ihleft ihright =>
    obtain ⟨hown, hfollow, hright', hsmall⟩ := operand_levels_bounds op hop
    -- The left operand ends at the operator, and the right one where the phrase does.
    have hstop := hends.mono (follow_le_right op hop bound hbound)
    have hread := ihright (Nat.le_refl _) (hstop.mono hright') (climb_leads hstop hsmall right)
    rw [append_assoc]
    refine ihleft (by omega) (by simpa [Ends, Token.binds] using hfollow) (.succ ?_)
    have hnot : ¬ level op < least := by omega
    simp only [cons_append, climb, hnot, if_false, hop, Bool.false_eq_true]
    exact hread.bind hrest
  | @comparison bound _ _ hbound _ ih =>
    have hstop : Ends 4 rest := hends.mono ((by decide : ∀ bound ≤ 4, follow bound ≤ 4) bound hbound)
    refine ih (by omega) (hstop.mono (by omega)) (.succ ?_)
    simp only [compare_on_ends hstop]
    exact hrest
  | @single op _ _ left right hop _ _ ihleft ihright least _ _ hle hends hrest =>
    have hlevel := level_of_comparison hop
    have hread := ihright (Nat.le_refl _) hends (climb_leads hends (by omega) right)
    rw [append_assoc]
    refine ihleft (by omega) (by simp [Ends, Token.binds, hlevel, follow]) (.succ ?_)
    have hnot : ¬ level op < least := by omega
    simp only [cons_append, climb, hnot, if_false, hop, if_true]
    exact hread.bind hrest
  | @next op _ _ compared right hop _ _ ihcompared ihright _ _ _ hle hends hrest =>
    have hlevel := level_of_comparison hop
    have hread := ihright (Nat.le_refl _) hends (climb_leads hends (by omega) right)
    rw [append_assoc]
    refine ihcompared hle (by simp [Ends, Token.binds, hlevel]) (.succ ?_)
    simp only [cons_append, compareOn, hop, if_true]
    exact hread.bind hrest
  | nil => exact .succ ⟨0, fun _ _ => rfl⟩
  | @cons tokens more first _ hfirst hrest ih ihs rest =>
    obtain ⟨token, tail, htokens, hne⟩ := hfirst.head
    have hends := hrest.ends rest
    have hread := ih (Nat.le_refl 0) hends (climb_leads hends (by omega) first)
    have hhead : ¬ (tokens ++ (more ++ .closing :: rest)).head? = some .closing := by
      simpa [htokens] using hne
    refine .succ ?_
    simp only [append_assoc, readArguments, hhead, if_false]
    exact hread.bind (ihs.bind ⟨0, fun _ _ => rfl⟩)
  | _ =>
    first
    | exact .succ ⟨0, fun _ _ => rfl⟩
    | rename_i first _ _ hrest ih ihs rest
      have hends := hrest.ends rest
      have hread := ih (Nat.le_refl 0) hends (climb_leads hends (by omega) first)
      refine .succ ?_
      simp only [cons_append, append_assoc, readFurther]
      exact hread.bind (ihs.bind ⟨0, fun _ _ => rfl⟩)

theorem Phrase.unique {other : Term} (h : Phrase 0 tokens term) (h' : Phrase 0 tokens other) : term = other := by
  have hends : Ends 0 [] := by simp [Ends]
  have hread := h.leads (Nat.le_refl 0) hends (climb_leads hends (by omega) term)
  have hread' := h'.leads (Nat.le_refl 0) hends (climb_leads hends (by omega) other)
  exact congrArg Prod.fst (hread.unique hread')

end FlightProcedure.Script
