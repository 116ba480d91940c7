import FlightProcedure.Grammar.Check

/-!
# The rules that can match nothing

`nullableRules` repeats a monotone step from the assumption that no rule can match nothing. Every
round that changes something marks one more rule, so the fuel suffices and the result is a fixed
point of the step: `nullable_step_nullable_rules`.
-/

namespace FlightProcedure

def MarksBelow (known more : Array Bool) : Prop := ∀ id, known.getD id false = true → more.getD id false = true

namespace Item

variable {known more : Array Bool}

theorem any_nullable_mono (h : MarksBelow known more) {items : List Item}
    (hitems : anyNullable known items = true) : anyNullable more items = true := by
  refine (?_ : (allNullable known items = true → allNullable more items = true) ∧
    (anyNullable known items = true → anyNullable more items = true)).2 hitems
  clear hitems
  induction items using Item.rec_1 (motive_1 := fun item => item.nullable known = true → item.nullable more = true) with
  | rule id hitem => exact h id hitem
  | terminal _ hitem => exact hitem
  | seq _ ih hitem => exact ih.1 hitem
  | alt _ ih hitem => exact ih.2 hitem
  | optional => rfl
  | rep _ _ _ ih hitem =>
    simp only [nullable, Bool.or_eq_true] at hitem ⊢
    exact hitem.imp_right ih
  | nil => exact ⟨id, id⟩
  | cons _ _ ih ihs =>
    simp only [allNullable, anyNullable, Bool.and_eq_true, Bool.or_eq_true]
    exact ⟨And.imp ih ihs.1, Or.imp ih ihs.2⟩

end Item

theorem size_nullable_step (rules : Array Rule) (known : Array Bool) :
    (nullableStep rules known).size = rules.size := by
  simp [nullableStep]

variable {rules : Array Rule} {known : Array Bool} {id : Nat}

theorem nullable_step_get {rule : Rule} (h : rules[id]? = some rule) :
    (nullableStep rules known).getD id false = Item.anyNullable known rule.alternatives := by
  simp [nullableStep, Array.getD_eq_getD_getElem?, h]

theorem nullable_step_get_none (h : rules[id]? = none) : (nullableStep rules known).getD id false = false := by
  simp [nullableStep, Array.getD_eq_getD_getElem?, h]

theorem nullable_step_mono {more : Array Bool} (h : MarksBelow known more) :
    MarksBelow (nullableStep rules known) (nullableStep rules more) := by
  intro id hid
  cases hrule : rules[id]? with
  | none => simp [nullable_step_get_none hrule] at hid
  | some rule =>
    rw [nullable_step_get hrule] at hid ⊢
    exact Item.any_nullable_mono h hid

theorem count_false_lt {known more : List Bool} (hlength : known.length = more.length)
    (hbelow : ∀ id, known.getD id false = true → more.getD id false = true)
    (hne : more ≠ known) : more.count false < known.count false := by
  induction known generalizing more with
  | nil => exact absurd (List.length_eq_zero_iff.mp hlength.symm) hne
  | cons first rest ih =>
    cases more with
    | nil => simp at hlength
    | cons first' rest' =>
      have hrest : ∀ id, rest.getD id false = true → rest'.getD id false = true :=
        fun id => by simpa using hbelow (id + 1)
      have hfirst : first = true → first' = true := by simpa using hbelow 0
      have hcount : rest'.count false ≤ rest.count false := by
        by_cases heq : rest' = rest
        · exact Nat.le_of_eq (by rw [heq])
        · exact Nat.le_of_lt (ih (by simpa using hlength) hrest heq)
      cases first with
      | false =>
        cases first' with
        | false =>
          have := ih (by simpa using hlength) hrest (by simpa using hne)
          simpa using this
        | true => simpa using Nat.lt_succ_of_le hcount
      | true =>
        rw [hfirst rfl] at hne ⊢
        have := ih (by simpa using hlength) hrest (by simpa using hne)
        simpa using this

/-- Rounds from marks that a step only adds to end in a fixed point of the step, if the fuel exceeds
the number of rules that are not marked yet. -/
theorem nullable_from_fixed {fuel : Nat} (hsize : known.size = rules.size)
    (hgrow : MarksBelow known (nullableStep rules known)) (hfuel : known.toList.count false < fuel) :
    nullableStep rules (nullableFrom rules fuel known) = nullableFrom rules fuel known := by
  induction fuel generalizing known with
  | zero => omega
  | succ fuel ih =>
    simp only [nullableFrom]
    split
    · assumption
    · next hne =>
      -- A round that changes the marks adds one, and the fuel counts the rules without a mark.
      have hcount : (nullableStep rules known).toList.count false < known.toList.count false := by
        apply count_false_lt
        · simp [size_nullable_step, hsize]
        · intro id
          simpa [Array.getD_eq_getD_getElem?] using hgrow id
        · exact fun heq => hne (Array.toList_inj.mp heq)
      exact ih (size_nullable_step rules known) (nullable_step_mono hgrow) (by omega)

theorem unmarked (size id : Nat) : (Array.replicate size false).getD id false ≠ true := by
  rw [Array.getD_eq_getD_getElem?, Array.getElem?_replicate]
  split <;> simp

theorem nullable_step_nullable_rules (rules : Array Rule) :
    nullableStep rules (nullableRules rules) = nullableRules rules := by
  apply nullable_from_fixed
  · simp
  · exact fun id hid => absurd hid (unmarked rules.size id)
  · simp

/-- What holds of every rule that a step marks, if it holds of those that are marked before, holds of all rules
that can match nothing. -/
theorem nullable_rules_induction {motive : Nat → Prop}
    (hstep : ∀ known, MarksBelow known (nullableRules rules) → (∀ id, known.getD id false = true → motive id) →
      ∀ id rule, rules[id]? = some rule → Item.anyNullable known rule.alternatives = true → motive id) :
    ∀ id, (nullableRules rules).getD id false = true → motive id := by
  have hfrom : ∀ fuel known, MarksBelow known (nullableRules rules) → (∀ id, known.getD id false = true → motive id) →
      ∀ id, (nullableFrom rules fuel known).getD id false = true → motive id := by
    intro fuel
    induction fuel with
    | zero => exact fun _ _ hknown => hknown
    | succ fuel ih =>
      intro known hbelow hknown
      rw [nullableFrom]
      split
      · exact hknown
      · refine ih _ (nullable_step_nullable_rules rules ▸ nullable_step_mono hbelow) fun id hid => ?_
        cases hrule : rules[id]? with
        | none => simp [nullable_step_get_none hrule] at hid
        | some rule => exact hstep known hbelow hknown id rule hrule (nullable_step_get hrule ▸ hid)
  exact hfrom _ _ (fun id hid => absurd hid (unmarked rules.size id)) fun id hid => absurd hid (unmarked rules.size id)

theorem nullable_rules_get {rule : Rule} (h : rules[id]? = some rule) :
    (nullableRules rules).getD id false = Item.anyNullable (nullableRules rules) rule.alternatives := by
  rw [← nullable_step_get h, nullable_step_nullable_rules]

end FlightProcedure
